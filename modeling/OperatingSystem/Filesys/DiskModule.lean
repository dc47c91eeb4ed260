import OperatingSystem.Filesys.DiskOperations

/-!
# The module on the bytes of the disk

The calls of the module with the RAM disk as one byte array. While they touch only the 819
records that lie inside the inode area, they answer as on the records, whatever the calls are
and in whatever order the processes make them.
-/

namespace OperatingSystem.Filesys

open ByteMemory Lockstep

variable {area : Area}

/-! ## The records that a call touches -/

def climbRecords (st : Store area) : ℕ → ℕ → List ℕ
  | 0, _ => []
  | back + 1, i =>
      i :: match st.inodeAt i with
        | none => []
        | some ino => climbRecords st back ino.parentIndex

def walkRecords (st : Store area) : List (List UInt8) → ℕ → ℤ → List ℕ
  | [], _, _ => []
  | name :: names, desIndex, position =>
      desIndex :: match isExist st name desIndex position with
        | none => []
        | some r =>
            if r.ans = ERROR then [] else walkRecords st names r.ans.toNat r.directoryIndex

/-- The records that `read_pathname` and the loop over `parentlist` read. -/
def resolveRecords (st : Store area) (fdt : FDT) (pathname : List UInt8) : List ℕ :=
  match fdt.fileObjects.head? with
  | none => []
  | some head =>
      let (back, _) := stripBack pathname
      if back > 0 ∧ back > layerCheck fdt.curPath then []
      else
        climbRecords st back head.inodeIndex ++
          match readPathname st fdt pathname with
          | some (.parsed desIndex parentlist _) => walkRecords st parentlist desIndex (-1)
          | _ => []

/-- With the directory in which the last component is looked up. -/
def directoryRecords (st : Store area) (fdt : FDT) (pathname : List UInt8) : List ℕ :=
  resolveRecords st fdt pathname ++
    match resolve st fdt pathname with
    | some (some (des, _, _)) => [des]
    | _ => []

/-- With the record that the pathname names. -/
def lookupRecords (st : Store area) (fdt : FDT) (pathname : List UInt8) : List ℕ :=
  directoryRecords st fdt pathname ++
    match lookup st fdt pathname with
    | some (some (_, i)) => [i]
    | _ => []

/-- With the directory from which `free_inode` removes the entry. -/
def unlinkRecords (st : Store area) (fdt : FDT) (pathname : List UInt8) : List ℕ :=
  lookupRecords st fdt pathname ++
    match lookup st fdt pathname with
    | some (some (_, i)) => [(st.inode i).parentIndex]
    | _ => []

def fileRecords (fdt : FDT) (fd : ℤ) : List ℕ :=
  ((fdt.fileObject fd).map FileObject.inodeIndex).toList

/-- `rd_close` reads the record of the current directory. -/
def closeRecords (fdt : FDT) (fd : ℤ) : List ℕ :=
  if fd = 0 then (fdt.fileObjects.head?.map FileObject.inodeIndex).toList else []

/-- The records that a call reads or writes, but for the first free one. -/
def recordsTouched (s : State area) (e : Event) : List ℕ :=
  let fdt := (getFDT e.cur s).1
  match e.call with
  | .pwd => []
  | .creat pathname _ _ | .mkdir pathname _ => directoryRecords s.store fdt pathname.chars
  | .openPath pathname _ | .chmod pathname _ => lookupRecords s.store fdt pathname.chars
  | .unlink pathname => unlinkRecords s.store fdt pathname.chars
  | .close fd => closeRecords fdt fd
  | .read fd _ | .write fd _ | .lseek fd _ => fileRecords fdt fd

/-- The mode of a call is an `int`. -/
def Call.ModeFits : Call → Prop
  | .creat _ mode _ | .chmod _ mode => -2147483648 ≤ mode ∧ mode < 2147483648
  | _ => True

instance : (call : Call) → Decidable call.ModeFits
  | .creat .. | .chmod .. => inferInstanceAs (Decidable (_ ∧ _))
  | .pwd | .mkdir .. | .openPath .. | .close .. | .read .. | .write .. | .lseek .. | .unlink .. =>
      inferInstanceAs (Decidable True)

/-- The call touches whole records of the inode area only. -/
structure InInodeArea (s : State area) (e : Event) : Prop where
  records : ∀ i ∈ recordsTouched s e, i < wholeInodeRecords
  firstFreeInode : s.store.superblock.firstFreeInode < wholeInodeRecords
  nextFreeInode : ∀ s', step s e = some s' →
    s'.store.superblock.firstFreeInode < wholeInodeRecords
  mode : e.call.ModeFits

instance (s : State area) (e : Event) : Decidable (InInodeArea s e) :=
  decidable_of_iff ((∀ i ∈ recordsTouched s e, i < wholeInodeRecords) ∧
      s.store.superblock.firstFreeInode < wholeInodeRecords ∧
      ((step s e).all fun s' ↦ s'.store.superblock.firstFreeInode < wholeInodeRecords) = true ∧
      e.call.ModeFits) <| by
    constructor
    · rintro ⟨hrecords, hfirst, hnext, hmode⟩
      refine ⟨hrecords, hfirst, fun s' hs' ↦ ?_, hmode⟩
      rw [hs', Option.all_some] at hnext
      exact of_decide_eq_true hnext
    · rintro ⟨hrecords, hfirst, hnext, hmode⟩
      refine ⟨hrecords, hfirst, ?_, hmode⟩
      cases hs' : step s e with
      | none => rfl
      | some s' => exact decide_eq_true (hnext s' hs')

/-! ## The calls -/

structure DiskState where
  disk : Disk
  fdtList : List FDT

namespace DiskState

def view (area : Area) (b : DiskState) : State area := ⟨b.disk.store area, b.fdtList⟩

def getFDT (cur : Process) (b : DiskState) : FDT × DiskState :=
  match b.fdtList.find? fun fdt ↦ fdt.pid = cur.pid with
  | some fdt => (fdt, b)
  | none => (newFDT cur b.fdtList, { b with fdtList := b.fdtList ++ [newFDT cur b.fdtList] })

def setFDT (b : DiskState) (fdt : FDT) : DiskState :=
  { b with fdtList := b.fdtList.set (b.fdtList.findIdx fun t ↦ t.pid = fdt.pid) fdt }

def create (area : Area) (cur : Process) (pathname : List UInt8) (mode : ℤ) (type : ObjectType)
    (fresh : ℕ → UInt8) (b : DiskState) : Option (ℤ × DiskState) :=
  if b.disk.superblock.freeBlockNumber < 1 ∨ b.disk.superblock.freeInodeNumber < 1 then
    some (ERROR, b)
  else do
    let (fdt, b) := b.getFDT cur
    match ← lookupNew (b.disk.store area) fdt pathname with
    | none => some (ERROR, b)
    | some (des, childfile) => do
        let (ret, disk) ← b.disk.createEntry area des childfile mode type fresh
        some (ret, { b with disk := disk })

def rdWrite (area : Area) (cur : Process) (fd : ℤ) (input : List UInt8) (b : DiskState) :
    Option (ℤ × DiskState) := do
  let (fdt, b) := b.getFDT cur
  match fdt.fileObject fd with
  | none => some (ERROR, b)
  | some fo => do
      let (ret, position, disk) ← b.disk.writeFile area fo.inodeIndex fo.position input 'w'
      some (ret, { b with disk := disk }.setFDT (fdt.setPosition fd fo position))

def rdUnlink (area : Area) (cur : Process) (pathname : List UInt8) (b : DiskState) :
    Option (ℤ × DiskState) :=
  if pathname = [47] then some (ERROR, b)
  else do
    let (fdt, b) := b.getFDT cur
    match ← lookup (b.disk.store area) fdt pathname with
    | none => some (ERROR, b)
    | some (childfile, i) => do
        let ino ← (b.disk.store area).inodeAt i
        if ino.type = .dir ∧ ino.size > 0 then some (ERROR, b)
        else do
          let opened ← isOpen b.fdtList i
          if opened = ERROR then some (ERROR, b)
          else do
            let disk ← b.disk.freeInode area childfile i
            some (SUCCESS, { b with disk := disk })

def rdChmod (area : Area) (cur : Process) (pathname : List UInt8) (mode : ℤ) (b : DiskState) :
    Option (ℤ × DiskState) := do
  let (fdt, b) := b.getFDT cur
  match ← lookup (b.disk.store area) fdt pathname with
  | none => some (ERROR, b)
  | some (_, i) => do
      let _ ← (b.disk.store area).inodeAt i
      some (SUCCESS, { b with disk := b.disk.writeField i .mode (leBytes 4 (toUInt32 mode)) })

/-- A call that reads the disk only. -/
def readOnly (area : Area) (e : Event) (b : DiskState) : Option (Reply × DiskState) :=
  (ramdiskIoctl (b.view area) e).map fun r ↦ (r.1, { b with fdtList := r.2.fdtList })

def ioctl (area : Area) (b : DiskState) (e : Event) : Option (Reply × DiskState) :=
  match e.call with
  | .creat pathname mode fresh =>
      (b.create area e.cur pathname.chars mode .reg fresh).map fun r ↦ (⟨r.1, []⟩, r.2)
  | .mkdir pathname fresh =>
      (b.create area e.cur pathname.chars 1 .dir fresh).map fun r ↦ (⟨r.1, []⟩, r.2)
  | .write fd input => (b.rdWrite area e.cur fd input).map fun r ↦ (⟨r.1, []⟩, r.2)
  | .unlink pathname => (b.rdUnlink area e.cur pathname.chars).map fun r ↦ (⟨r.1, []⟩, r.2)
  | .chmod pathname mode =>
      (b.rdChmod area e.cur pathname.chars mode).map fun r ↦ (⟨r.1, []⟩, r.2)
  | .pwd | .openPath .. | .close .. | .read .. | .lseek .. => b.readOnly area e

end DiskState

/-! ## Reading the bytes -/

namespace Image

variable {d : Disk} {st : Store area}

theorem climb (h : Image d st) {back i : ℕ}
    (hrecords : ∀ j ∈ climbRecords st back i, j < wholeInodeRecords) :
    climb (d.store area) back i = climb st back i := by
  induction back generalizing i with
  | zero => rfl
  | succ back ih =>
      have hi := hrecords i List.mem_cons_self
      rw [Filesys.climb, Filesys.climb, h.inodeAt hi]
      cases hino : st.inodeAt i with
      | none => rfl
      | some ino =>
          refine ih fun j hj ↦ hrecords j (List.mem_cons_of_mem i ?_)
          rw [hino]
          exact hj

theorem walkParents (h : Image d st) {names : List (List UInt8)} {slot des : ℕ} {n : ℤ}
    (hrecords : ∀ j ∈ walkRecords st names des n, j < wholeInodeRecords) :
    walkParents (d.store area) names slot des n = walkParents st names slot des n := by
  induction names generalizing slot des n with
  | nil => rw [Filesys.walkParents, Filesys.walkParents]
  | cons name names ih =>
      rw [walkRecords] at hrecords
      have hat := h.inodeAt (hrecords des List.mem_cons_self)
      have hexist := h.sameArea.isExist hat name n
      rw [Filesys.walkParents, Filesys.walkParents, hexist]
      generalize isExist st name des n = found at hrecords
      cases found with
      | none => simp only [Option.bind_eq_bind, Option.bind_none]
      | some r =>
          simp only [Option.bind_eq_bind, Option.bind_some]
          by_cases hans : r.ans = ERROR
          · rw [if_pos hans, if_pos hans]
          · rw [if_neg hans, if_neg hans]
            refine ih fun j hj ↦ hrecords j (List.mem_cons_of_mem des ?_)
            dsimp only
            rwa [if_neg hans]

variable {fdt : FDT} {pathname : List UInt8}

theorem readPathname (h : Image d st)
    (hrecords : ∀ j ∈ resolveRecords st fdt pathname, j < wholeInodeRecords) :
    readPathname (d.store area) fdt pathname = readPathname st fdt pathname := by
  simp only [Filesys.readPathname]
  cases hhead : fdt.fileObjects.head? with
  | none => simp only [Option.bind_eq_bind, Option.bind_none]
  | some head =>
      simp only [resolveRecords, hhead] at hrecords
      simp only [Option.bind_eq_bind, Option.bind_some]
      split
      · rfl
      · next hback =>
        rw [if_neg hback] at hrecords
        rw [h.climb fun j hj ↦ hrecords j (List.mem_append_left _ hj)]

theorem mem_resolveRecords {des : ℕ} {parentlist : List (List UInt8)} {childfile : List UInt8}
    (hparsed : Filesys.readPathname st fdt pathname = some (.parsed des parentlist childfile))
    {j : ℕ} (hj : j ∈ walkRecords st parentlist des (-1)) : j ∈ resolveRecords st fdt pathname := by
  rw [resolveRecords, hparsed]
  simp only [Filesys.readPathname] at hparsed
  cases hhead : fdt.fileObjects.head? with
  | none =>
      rw [hhead] at hparsed
      cases hparsed
  | some head =>
      simp only [hhead, Option.bind_eq_bind, Option.bind_some] at hparsed
      split at hparsed
      · cases hparsed
      · next hback =>
        dsimp only
        rw [if_neg hback]
        exact List.mem_append_right _ hj

theorem resolve (h : Image d st)
    (hrecords : ∀ j ∈ resolveRecords st fdt pathname, j < wholeInodeRecords) :
    resolve (d.store area) fdt pathname = resolve st fdt pathname := by
  rw [Filesys.resolve, Filesys.resolve, h.readPathname hrecords]
  cases hparsed : Filesys.readPathname st fdt pathname with
  | none => simp only [Option.bind_eq_bind, Option.bind_none]
  | some p =>
      cases p with
      | error => simp only [Option.bind_eq_bind, Option.bind_some]
      | parsed des parentlist childfile =>
          have hwalk := @walkParents _ _ _ h parentlist 0 des (-1) fun j hj ↦
            hrecords j (mem_resolveRecords hparsed hj)
          simp only [Option.bind_eq_bind, Option.bind_some, hwalk]

theorem resolve_directory (h : Image d st)
    (hrecords : ∀ j ∈ directoryRecords st fdt pathname, j < wholeInodeRecords) :
    Filesys.resolve (d.store area) fdt pathname = Filesys.resolve st fdt pathname ∧
      ∀ des childfile n, Filesys.resolve st fdt pathname = some (some (des, childfile, n)) →
        des < wholeInodeRecords := by
  refine ⟨h.resolve fun j hj ↦ hrecords j (List.mem_append_left _ hj), fun des _ _ hdes ↦ ?_⟩
  refine hrecords des (List.mem_append_right _ ?_)
  rw [hdes]
  exact List.mem_singleton_self des

theorem lookup (h : Image d st)
    (hrecords : ∀ j ∈ directoryRecords st fdt pathname, j < wholeInodeRecords) :
    lookup (d.store area) fdt pathname = lookup st fdt pathname := by
  obtain ⟨hresolve, hdirectory⟩ := h.resolve_directory hrecords
  rw [Filesys.lookup, Filesys.lookup, hresolve]
  cases hr : Filesys.resolve st fdt pathname with
  | none => simp only [Option.bind_eq_bind, Option.bind_none]
  | some target =>
      rcases target with _ | ⟨des, childfile, n⟩
      · simp only [Option.bind_eq_bind, Option.bind_some]
      · have hat := h.inodeAt (hdirectory des childfile n hr)
        simp only [Option.bind_eq_bind, Option.bind_some, h.sameArea.isExist hat]

theorem lookupNew (h : Image d st)
    (hrecords : ∀ j ∈ directoryRecords st fdt pathname, j < wholeInodeRecords) :
    lookupNew (d.store area) fdt pathname = lookupNew st fdt pathname := by
  obtain ⟨hresolve, hdirectory⟩ := h.resolve_directory hrecords
  rw [Filesys.lookupNew, Filesys.lookupNew, hresolve]
  cases hr : Filesys.resolve st fdt pathname with
  | none => simp only [Option.bind_eq_bind, Option.bind_none]
  | some target =>
      rcases target with _ | ⟨des, childfile, n⟩
      · simp only [Option.bind_eq_bind, Option.bind_some]
      · have hat := h.inodeAt (hdirectory des childfile n hr)
        simp only [Option.bind_eq_bind, Option.bind_some, h.sameArea.isExist hat]

end Image

theorem lookup_lt {st : Store area} {fdt : FDT} {pathname childfile : List UInt8} {i : ℕ}
    (hrecords : ∀ j ∈ lookupRecords st fdt pathname, j < wholeInodeRecords)
    (hlookup : lookup st fdt pathname = some (some (childfile, i))) : i < wholeInodeRecords := by
  refine hrecords i (List.mem_append_right _ ?_)
  rw [hlookup]
  exact List.mem_singleton_self i

theorem lookupNew_lt {st : Store area} {fdt : FDT} {pathname childfile : List UInt8} {des : ℕ}
    (hrecords : ∀ j ∈ directoryRecords st fdt pathname, j < wholeInodeRecords)
    (hlookup : lookupNew st fdt pathname = some (some (des, childfile))) :
    des < wholeInodeRecords := by
  obtain ⟨target, hr, hlookup⟩ := Option.bind_eq_some_iff.mp hlookup
  rcases target with _ | ⟨des', childfile', n⟩
  · cases hlookup
  · dsimp only at hlookup
    split at hlookup
    · cases hlookup
    · obtain ⟨r, -, hlookup⟩ := Option.bind_eq_some_iff.mp hlookup
      split at hlookup <;> cases hlookup
      refine hrecords des (List.mem_append_right _ ?_)
      rw [hr]
      exact List.mem_singleton_self des

theorem fileObject_lt {fdt : FDT} {fd : ℤ} {fo : FileObject}
    (hrecords : ∀ j ∈ fileRecords fdt fd, j < wholeInodeRecords)
    (hfo : fdt.fileObject fd = some fo) : fo.inodeIndex < wholeInodeRecords := by
  refine hrecords _ ?_
  rw [fileRecords, hfo]
  exact List.mem_singleton_self _

namespace SameArea

variable {st st' : Store area}

theorem getBlockpointer (h : SameArea st st') (position : ℤ) (ino : MyInode) :
    getBlockpointer st' position ino = getBlockpointer st position ino := by
  simp only [Filesys.getBlockpointer, h.loadWord]

theorem readLoop (h : SameArea st st') (ino : MyInode) (n : ℤ) (fuel count : ℕ) (position : ℤ)
    (output : List UInt8) : readLoop st' ino n fuel count position output =
      readLoop st ino n fuel count position output := by
  induction fuel generalizing count position output with
  | zero => cases count <;> rfl
  | succ fuel ih =>
      cases count with
      | zero => rfl
      | succ count =>
          simp only [Filesys.readLoop, h.getBlockpointer]
          refine congrArg _ (funext fun readPointer ↦ ?_)
          split
          · rfl
          · split
            · next hholds =>
              rw [ih, readBytes_congr fun k hk ↦ h _ (hholds.mono (by omega))]
            · rfl

theorem readFile (h : SameArea st st') (ino : MyInode) (position n : ℤ) :
    readFile st' ino position n = readFile st ino position n := by
  simp only [Filesys.readFile, h.readLoop]

end SameArea

/-! ## The calls agree -/

/-- The bytes and the records of one state of the module. -/
structure DiskState.Shows (b : DiskState) (s : State area) : Prop where
  image : Image b.disk s.store
  tables : b.fdtList = s.fdtList

/-- The same tables, whatever the disks hold. -/
def SameTables (s t : State area) : Prop := s.fdtList = t.fdtList

theorem SameTables.setFDT {s t : State area} (h : SameTables s t) (fdt : FDT) :
    SameTables (s.setFDT fdt) (t.setFDT fdt) := by
  rw [SameTables] at h
  simp only [SameTables, State.setFDT, h]

namespace DiskState.Shows

variable {b : DiskState} {s : State area} {cur : Process}

theorem view_store (b : DiskState) : (b.view area).store = b.disk.store area := rfl

theorem getFDT (h : b.Shows s) (cur : Process) :
    (b.getFDT cur).1 = (Filesys.getFDT cur s).1 ∧
      (b.getFDT cur).2.Shows (Filesys.getFDT cur s).2 ∧ Image (b.getFDT cur).2.disk s.store := by
  simp only [DiskState.getFDT, Filesys.getFDT, h.tables]
  cases s.fdtList.find? fun fdt ↦ fdt.pid = cur.pid with
  | some fdt => exact ⟨rfl, h, h.image⟩
  | none => exact ⟨rfl, ⟨h.image, rfl⟩, h.image⟩

theorem setFDT (h : b.Shows s) (fdt : FDT) : (b.setFDT fdt).Shows (s.setFDT fdt) :=
  ⟨h.image, by simp only [DiskState.setFDT, State.setFDT, h.tables]⟩

theorem view_getFDT (h : b.Shows s) (cur : Process) :
    (Filesys.getFDT cur (b.view area)).1 = (Filesys.getFDT cur s).1 ∧
      SameTables (Filesys.getFDT cur (b.view area)).2 (Filesys.getFDT cur s).2 := by
  simp only [SameTables, Filesys.getFDT, view, h.tables]
  split <;> exact ⟨rfl, rfl⟩

/-! ### Calls that write the disk -/

variable {pathname : List UInt8}

theorem create (h : b.Shows s) {mode : ℤ} {type : ObjectType} {fresh : ℕ → UInt8}
    (hrecords : ∀ j ∈ directoryRecords s.store (Filesys.getFDT cur s).1 pathname,
      j < wholeInodeRecords)
    (hfirst : s.store.superblock.firstFreeInode < wholeInodeRecords) (hlow : -2147483648 ≤ mode)
    (hhigh : mode < 2147483648)
    (hnext : ∀ ret s', Filesys.create cur pathname mode type fresh s = some (ret, s') →
      s'.store.superblock.firstFreeInode < wholeInodeRecords) :
    Agrees DiskState.Shows (b.create area cur pathname mode type fresh)
      (Filesys.create cur pathname mode type fresh s) := by
  obtain ⟨hfdt, hgot, himage⟩ := h.getFDT cur
  simp only [DiskState.create, Filesys.create, h.image.superblock, hfdt, getFDT_store,
    himage.lookupNew hrecords] at hnext ⊢
  split
  · exact .some ⟨rfl, h⟩
  · next hfull =>
    rw [if_neg hfull] at hnext
    refine rel_bind_same _ fun target htarget ↦ ?_
    rw [htarget] at hnext
    rcases target with _ | ⟨des, childfile⟩
    · exact .some ⟨rfl, hgot⟩
    · have hdes := lookupNew_lt hrecords htarget
      refine rel_bind (himage.createEntry hdes childfile type fresh hfirst hlow hhigh
        fun ret st' hst' ↦ ?_) fun x y hxy ↦ .some ⟨hxy.1, hxy.2, hgot.tables⟩
      refine hnext ret { (Filesys.getFDT cur s).2 with store := st' } ?_
      dsimp only [Option.bind_eq_bind, Option.bind_some]
      rw [hst']
      rfl

theorem rdWrite (h : b.Shows s) {fd : ℤ} {input : List UInt8}
    (hrecords : ∀ j ∈ fileRecords (Filesys.getFDT cur s).1 fd, j < wholeInodeRecords) :
    Agrees DiskState.Shows (b.rdWrite area cur fd input) (Filesys.rdWrite cur fd input s) := by
  obtain ⟨hfdt, hgot, -⟩ := h.getFDT cur
  simp only [DiskState.rdWrite, Filesys.rdWrite, hfdt]
  cases hfo : (Filesys.getFDT cur s).1.fileObject fd with
  | none => exact .some ⟨rfl, hgot⟩
  | some fo =>
      refine rel_bind (hgot.image.writeFile (fileObject_lt hrecords hfo) _ _ _) fun x y hxy ↦ ?_
      obtain ⟨ret, pos, d⟩ := x
      obtain ⟨ret', pos', st⟩ := y
      obtain ⟨rfl, rfl, himage⟩ := hxy
      have hwritten : DiskState.Shows { (b.getFDT cur).2 with disk := d }
          ({ (Filesys.getFDT cur s).2 with store := st } : State area) := ⟨himage, hgot.tables⟩
      exact .some ⟨rfl, hwritten.setFDT _⟩

theorem rdUnlink (h : b.Shows s)
    (hrecords : ∀ j ∈ unlinkRecords s.store (Filesys.getFDT cur s).1 pathname,
      j < wholeInodeRecords) :
    Agrees DiskState.Shows (b.rdUnlink area cur pathname) (Filesys.rdUnlink cur pathname s) := by
  obtain ⟨hfdt, hgot, himage⟩ := h.getFDT cur
  have hfound : ∀ j ∈ lookupRecords s.store (Filesys.getFDT cur s).1 pathname,
      j < wholeInodeRecords := fun j hj ↦ hrecords j (List.mem_append_left _ hj)
  simp only [DiskState.rdUnlink, Filesys.rdUnlink, hfdt, getFDT_store,
    himage.lookup fun j hj ↦ hfound j (List.mem_append_left _ hj)]
  split
  · exact .some ⟨rfl, h⟩
  · refine rel_bind_same _ fun target htarget ↦ ?_
    rcases target with _ | ⟨childfile, i⟩
    · exact .some ⟨rfl, hgot⟩
    · have hi := lookup_lt hfound htarget
      have hparent : (s.store.inode i).parentIndex < wholeInodeRecords := by
        refine hrecords _ (List.mem_append_right _ ?_)
        rw [htarget]
        exact List.mem_singleton_self _
      dsimp only
      rw [himage.inodeAt hi, hgot.tables]
      refine rel_bind_same _ fun ino _ ↦ ?_
      split
      · exact .some ⟨rfl, hgot⟩
      · refine rel_bind_same _ fun opened _ ↦ ?_
        split
        · exact .some ⟨rfl, hgot⟩
        · exact rel_bind (himage.freeInode hi hparent childfile)
            fun d st hd ↦ .some ⟨rfl, hd, rfl⟩

theorem rdChmod (h : b.Shows s) {mode : ℤ} (hlow : -2147483648 ≤ mode) (hhigh : mode < 2147483648)
    (hrecords : ∀ j ∈ lookupRecords s.store (Filesys.getFDT cur s).1 pathname,
      j < wholeInodeRecords) :
    Agrees DiskState.Shows (b.rdChmod area cur pathname mode)
      (Filesys.rdChmod cur pathname mode s) := by
  obtain ⟨hfdt, hgot, himage⟩ := h.getFDT cur
  simp only [DiskState.rdChmod, Filesys.rdChmod, hfdt, getFDT_store,
    himage.lookup fun j hj ↦ hrecords j (List.mem_append_left _ hj)]
  refine rel_bind_same _ fun target htarget ↦ ?_
  rcases target with _ | ⟨childfile, i⟩
  · exact .some ⟨rfl, hgot⟩
  · have hi := lookup_lt hrecords htarget
    dsimp only
    rw [himage.inodeAt hi]
    refine rel_bind_same _ fun ino hino ↦ ?_
    obtain ⟨-, rfl⟩ := Store.inodeAt_eq_some hino
    exact .some ⟨rfl, himage.chmod hi hlow hhigh, hgot.tables⟩

/-! ### Calls that read the disk -/

theorem rdOpen (h : b.Shows s) {flag : ℤ}
    (hrecords : ∀ j ∈ lookupRecords s.store (Filesys.getFDT cur s).1 pathname,
      j < wholeInodeRecords) :
    Agrees SameTables (Filesys.rdOpen cur pathname flag (b.view area))
      (Filesys.rdOpen cur pathname flag s) := by
  obtain ⟨hfdt, hgot⟩ := h.view_getFDT cur
  have hlist : (Filesys.getFDT cur (b.view area)).2.fdtList = (Filesys.getFDT cur s).2.fdtList :=
    hgot
  simp only [Filesys.rdOpen, hfdt, getFDT_store, view_store,
    h.image.lookup fun j hj ↦ hrecords j (List.mem_append_left _ hj), hlist]
  split
  · exact .none
  · refine rel_bind_same _ fun target htarget ↦ ?_
    rcases target with _ | ⟨childfile, i⟩
    · exact .some ⟨rfl, hgot⟩
    · dsimp only
      rw [h.image.inodeAt (lookup_lt hrecords htarget)]
      refine rel_bind_same _ fun opened _ ↦ ?_
      split
      · exact .some ⟨rfl, hgot⟩
      · refine rel_bind_same _ fun ino _ ↦ ?_
        split
        · exact .some ⟨rfl, hgot⟩
        · refine rel_bind_same _ fun path _ ↦ ?_
          split
          · exact .some ⟨rfl, hgot.setFDT _⟩
          · exact .some ⟨rfl, hgot.setFDT _⟩

theorem rdClose (h : b.Shows s) {fd : ℤ}
    (hrecords : ∀ j ∈ closeRecords (Filesys.getFDT cur s).1 fd, j < wholeInodeRecords) :
    Agrees SameTables (Filesys.rdClose cur fd (b.view area)) (Filesys.rdClose cur fd s) := by
  obtain ⟨hfdt, hgot⟩ := h.view_getFDT cur
  simp only [Filesys.rdClose, hfdt, getFDT_store, view_store]
  split
  · next hzero =>
    refine rel_bind_same _ fun head hhead ↦ ?_
    have hi : head.inodeIndex < wholeInodeRecords := by
      refine hrecords _ ?_
      rw [closeRecords, if_pos hzero, hhead]
      exact List.mem_singleton_self _
    split
    · exact .some ⟨rfl, hgot⟩
    · rw [h.image.inodeAt hi]
      refine rel_bind_same _ fun ino _ ↦ rel_bind_same _ fun path _ ↦ ?_
      exact .some ⟨rfl, hgot.setFDT _⟩
  · split
    · exact .none
    · split
      · exact .some ⟨rfl, hgot⟩
      · split
        · exact .none
        · exact .some ⟨rfl, hgot.setFDT _⟩

theorem rdRead (h : b.Shows s) {fd n : ℤ}
    (hrecords : ∀ j ∈ fileRecords (Filesys.getFDT cur s).1 fd, j < wholeInodeRecords) :
    Agrees SameTables (Filesys.rdRead cur fd n (b.view area)) (Filesys.rdRead cur fd n s) := by
  obtain ⟨hfdt, hgot⟩ := h.view_getFDT cur
  simp only [Filesys.rdRead, hfdt, getFDT_store, view_store, h.image.sameArea.readFile]
  cases hfo : (Filesys.getFDT cur s).1.fileObject fd with
  | none => exact .some ⟨rfl, hgot⟩
  | some fo =>
      dsimp only
      rw [h.image.inodeAt (fileObject_lt hrecords hfo)]
      exact rel_bind_same _ fun ino _ ↦ rel_bind_same _ fun r _ ↦ .some ⟨rfl, hgot⟩

theorem rdLseek (h : b.Shows s) {fd position : ℤ}
    (hrecords : ∀ j ∈ fileRecords (Filesys.getFDT cur s).1 fd, j < wholeInodeRecords) :
    Agrees SameTables (Filesys.rdLseek cur fd position (b.view area))
      (Filesys.rdLseek cur fd position s) := by
  obtain ⟨hfdt, hgot⟩ := h.view_getFDT cur
  simp only [Filesys.rdLseek, hfdt, getFDT_store, view_store]
  cases hfo : (Filesys.getFDT cur s).1.fileObject fd with
  | none => exact .some ⟨rfl, hgot⟩
  | some fo =>
      dsimp only
      rw [h.image.inodeAt (fileObject_lt hrecords hfo)]
      exact rel_bind_same _ fun ino _ ↦ .some ⟨rfl, hgot.setFDT _⟩

theorem readOnly (h : b.Shows s) {e : Event} (hnothing : diskOp s e = some .nothing)
    (hagree : Agrees SameTables (ramdiskIoctl (b.view area) e) (ramdiskIoctl s e)) :
    Agrees DiskState.Shows (b.readOnly area e) (ramdiskIoctl s e) := by
  rw [DiskState.readOnly]
  generalize ramdiskIoctl (b.view area) e = x at hagree
  generalize hy : ramdiskIoctl s e = y at hagree
  cases hagree with
  | none => exact .none
  | some hxy =>
      obtain ⟨op, hop, hrun⟩ := diskOp_of_step (Option.map_eq_some_iff.mpr ⟨_, hy, rfl⟩)
      rw [hnothing] at hop
      cases hop
      have hstore := Option.some.inj hrun
      exact .some ⟨hxy.1, hstore ▸ h.image, hxy.2⟩

/-! ### The dispatch -/

theorem replied {x : Option (ℤ × DiskState)} {y : Option (ℤ × State area)}
    (h : Agrees DiskState.Shows x y) :
    Agrees DiskState.Shows (x.map fun r ↦ ((⟨r.1, []⟩ : Reply), r.2)) (y.map replyOnly) :=
  rel_map h fun _ _ hxy ↦ ⟨congrArg (Reply.mk · []) hxy.1, hxy.2⟩

theorem replied_tables {x y : Option (ℤ × State area)} (h : Agrees SameTables x y) :
    Agrees SameTables (x.map replyOnly) (y.map replyOnly) :=
  rel_map h fun _ _ hxy ↦ ⟨congrArg (Reply.mk · []) hxy.1, hxy.2⟩

theorem ioctl (h : b.Shows s) {e : Event} (hc : InInodeArea s e) :
    Agrees DiskState.Shows (b.ioctl area e) (ramdiskIoctl s e) := by
  obtain ⟨cur, call⟩ := e
  obtain ⟨hrecords, hfirst, hnext, hmode⟩ := hc
  cases call with
  | pwd =>
      refine h.readOnly rfl ?_
      obtain ⟨hfdt, hgot⟩ := h.view_getFDT cur
      have hpath : (rdPwd cur (b.view area)).1 = (rdPwd cur s).1 := congrArg FDT.curPath hfdt
      simp only [ramdiskIoctl]
      rw [hpath]
      by_cases hfits : (rdPwd cur s).1.length < 100
      · rw [if_pos hfits, if_pos hfits]
        exact .some ⟨rfl, hgot⟩
      · rw [if_neg hfits, if_neg hfits]
        exact .none
  | creat pathname mode fresh =>
      refine replied (h.create hrecords hfirst hmode.1 hmode.2 fun ret s' hs' ↦ hnext s' ?_)
      exact Option.map_eq_some_iff.mpr ⟨_, Option.map_eq_some_iff.mpr ⟨_, hs', rfl⟩, rfl⟩
  | mkdir pathname fresh =>
      refine replied (h.create hrecords hfirst (by decide) (by decide) fun ret s' hs' ↦
        hnext s' ?_)
      exact Option.map_eq_some_iff.mpr ⟨_, Option.map_eq_some_iff.mpr ⟨_, hs', rfl⟩, rfl⟩
  | openPath pathname flag => exact h.readOnly rfl (replied_tables (h.rdOpen hrecords))
  | close fd => exact h.readOnly rfl (replied_tables (h.rdClose hrecords))
  | read fd n =>
      refine h.readOnly rfl (rel_map (h.rdRead hrecords) fun x y hxy ↦ ⟨?_, hxy.2⟩)
      rw [hxy.1]
  | write fd input => exact replied (h.rdWrite hrecords)
  | lseek fd position => exact h.readOnly rfl (replied_tables (h.rdLseek hrecords))
  | unlink pathname => exact replied (h.rdUnlink hrecords)
  | chmod pathname mode => exact replied (h.rdChmod hmode.1 hmode.2 hrecords)

end DiskState.Shows

/-! ## Runs -/

/-- On the formatted disk, calls that touch whole records of the inode area only give the same
replies on the bytes as on the records, leave the bytes of the records, and are undefined
together. -/
theorem bytes_refine_records {events : List Event}
    (h : PartialRun.Tried step InInodeArea (initState area) events) :
    Agrees DiskState.Shows (trace (DiskState.ioctl area) ⟨Disk.format area, []⟩ events)
      (trace ramdiskIoctl (initState area) events) :=
  trace_agrees_of_tried (fun _ _ _ hR hC ↦ hR.ioctl hC) ⟨image_format area, rfl⟩ h

def sampleDiskCalls : List Event :=
  sampleCalls [.creat sampleName 2 fun _ ↦ 0, .mkdir secondName fun _ ↦ 0, .openPath sampleName 2,
    .write 1 [104, 105], .lseek 1 0, .read 1 2, .close 1, .chmod sampleName 0, .unlink sampleName]

theorem bytes_refine_records_sample :
    PartialRun.Tried step InInodeArea (initState sampleArea) sampleDiskCalls ∧
      (trace (DiskState.ioctl sampleArea) ⟨Disk.format sampleArea, []⟩ sampleDiskCalls).map
        Prod.fst = some [⟨0, []⟩, ⟨0, []⟩, ⟨1, []⟩, ⟨2, []⟩, ⟨0, []⟩, ⟨2, [104, 105]⟩, ⟨0, []⟩,
          ⟨0, []⟩, ⟨0, []⟩] := by
  have htried : PartialRun.Tried step InInodeArea (initState sampleArea) sampleDiskCalls :=
    PartialRun.tried_of_check (fun s e h ↦ of_decide_eq_true h) (by decide +kernel)
  refine ⟨htried, (bytes_refine_records htried).map_fst.trans ?_⟩
  decide +kernel

end OperatingSystem.Filesys
