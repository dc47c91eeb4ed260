import OperatingSystem.Filesys.Descriptors
import OperatingSystem.Filesys.Writing

/-!
# Invalid descriptors

The operations on descriptors walk the list of file objects. `rd_read`,
`rd_write` and `rd_lseek` take a negative number for the head of the list, the
current directory; `rd_close` follows a missing node for a negative number and
for the length of the list.
-/

namespace OperatingSystem.Filesys

variable {area : Area}

/-- The call names no file object of the caller's table. For `rd_close` the
number 0 stands for the current directory. -/
def InvalidDescriptor (fdt : FDT) : Call → Prop
  | .close fd => fd < 0 ∨ (fd ≠ 0 ∧ fdt.fileObjects.length ≤ fd)
  | .read fd _ | .write fd _ | .lseek fd _ => fd ≤ 0 ∨ fdt.fileObjects.length ≤ fd
  | _ => False

instance (fdt : FDT) : (call : Call) → Decidable (InvalidDescriptor fdt call)
  | .close _ => inferInstanceAs (Decidable (_ ∨ _))
  | .read .. | .write .. | .lseek .. => inferInstanceAs (Decidable (_ ∨ _))
  | .pwd | .creat .. | .mkdir .. | .openPath .. | .unlink .. | .chmod .. =>
      inferInstanceAs (Decidable False)

/-- The call returns `ERROR`, and neither the disk nor a table changes, apart
from the table that `get_FDT` appends for a process it does not know. -/
def RejectsCall (s : State area) (e : Event) : Prop :=
  ∃ reply s', ramdiskIoctl s e = some (reply, s') ∧ reply.ret = ERROR ∧
    s'.store = s.store ∧ s'.fdtList = s.tables e.cur

/-! ## When the walk rejects -/

/-- The position at which round `k` of the copy loop of `rd_read` starts. -/
def roundStart (position : ℤ) : ℕ → ℤ
  | 0 => position
  | k + 1 => roundStart (position + (blockSize - (position.tmod blockSize).toNat : ℕ)) k

/-- A block of the `count` bytes at `position` is not mapped, and the blocks
before it can be copied. -/
def MissesBlock (st : Store area) (ino : MyInode) (position : ℤ) (count : ℕ) : Prop :=
  ∃ k, roundStart position k < position + count ∧
    getBlockpointer st (roundStart position k) ino = some 0 ∧
    ∀ j < k, ∃ ptr, ptr ≠ 0 ∧ getBlockpointer st (roundStart position j) ino = some ptr ∧
      area.Holds ptr (roundStart position (j + 1) - roundStart position j).toNat

/-- The position from which `rd_read` copies. -/
def MyInode.readStart (ino : MyInode) (position : ℤ) : ℤ :=
  if toUInt32 position ≥ ino.size then 0 else position

/-- The number of bytes between the position and the end of the file, or the
requested number if it is less as an unsigned number. -/
def MyInode.readCount (ino : MyInode) (position numBytes : ℤ) : ℤ :=
  toInt (min (toUInt32 (ino.size - ino.readStart position)) (toUInt32 numBytes))

/-- The file is empty, or a block of the requested range is missing, or the
number of bytes is -1, which is what `ERROR` looks like. -/
def RefusesRead (st : Store area) (ino : MyInode) (position numBytes : ℤ) : Prop :=
  ino.size = 0 ∨ ino.location 0 = 0 ∨ ino.readCount position numBytes = ERROR ∨
    MissesBlock st ino (ino.readStart position) (ino.readCount position numBytes).toNat

/-- The calls with an invalid descriptor that are harmless. A negative number
reaches the inode of the head of the list. -/
def RefusesDescriptor (st : Store area) (fdt : FDT) : Call → Prop
  | .close fd => fdt.fileObjects.length < fd
  | .lseek fd _ => 0 ≤ fd
  | .write fd _ => 0 ≤ fd ∨ ∃ head, fdt.fileObjects.head? = some head ∧
      head.inodeIndex < inodeListNum ∧ RefusesWrite st (st.inode head.inodeIndex) 'w'
  | .read fd numBytes => 0 ≤ fd ∨ ∃ head, fdt.fileObjects.head? = some head ∧
      head.inodeIndex < inodeListNum ∧
      RefusesRead st (st.inode head.inodeIndex) head.position numBytes
  | _ => True

/-! ## The copy loop -/

theorem roundStart_le (position : ℤ) (k : ℕ) : position ≤ roundStart position k := by
  induction k generalizing position with
  | zero => exact le_refl position
  | succ k ih =>
      apply le_trans _ (ih _)
      omega

theorem roundSize_pos (position : ℤ) : 0 < blockSize - (position.tmod blockSize).toNat := by
  have hsize : 0 < blockSize := by decide
  have hlt : position.tmod blockSize < blockSize :=
    Int.tmod_lt_of_pos position (Int.natCast_pos.mpr hsize)
  omega

section Loop

variable {st : Store area} {ino : MyInode} {position : ℤ} {count : ℕ}

theorem missesBlock_zero : ¬ MissesBlock st ino position 0 := by
  rintro ⟨k, hlt, -⟩
  have hle := roundStart_le position k
  omega

theorem missesBlock_of_null (hpos : 0 < count) (h : getBlockpointer st position ino = some 0) :
    MissesBlock st ino position count := by
  refine ⟨0, ?_, h, fun j hj ↦ (Nat.not_lt_zero j hj).elim⟩
  change position < position + count
  omega

/-- With the first block mapped, the block that is missing lies behind it. -/
theorem missesBlock_of_mapped {ptr : ℕ} (hne : ptr ≠ 0)
    (h : getBlockpointer st position ino = some ptr) :
    MissesBlock st ino position count ↔
      blockSize - (position.tmod blockSize).toNat < count ∧
      area.Holds ptr (blockSize - (position.tmod blockSize).toNat) ∧
      MissesBlock st ino (position + (blockSize - (position.tmod blockSize).toNat : ℕ))
        (count - (blockSize - (position.tmod blockSize).toNat)) := by
  have hround : (roundStart position 1 - roundStart position 0).toNat =
      blockSize - (position.tmod blockSize).toNat := by
    simp only [roundStart]
    omega
  constructor
  · rintro ⟨k, hlt, hnull, hbefore⟩
    cases k with
    | zero =>
        cases h.symm.trans hnull
        exact (hne rfl).elim
    | succ k =>
        have hle := roundStart_le
          (position + (blockSize - (position.tmod blockSize).toNat : ℕ)) k
        have hfirst : blockSize - (position.tmod blockSize).toNat < count := by
          simp only [roundStart] at hlt
          omega
        obtain ⟨ptr', -, hptr', hholds⟩ := hbefore 0 (Nat.succ_pos k)
        cases h.symm.trans hptr'
        rw [hround] at hholds
        refine ⟨hfirst, hholds, k, ?_, hnull, fun j hj ↦ hbefore (j + 1) (Nat.succ_lt_succ hj)⟩
        simp only [roundStart] at hlt
        omega
  · rintro ⟨hfirst, hholds, k, hlt, hnull, hbefore⟩
    refine ⟨k + 1, ?_, hnull, fun j hj ↦ ?_⟩
    · simp only [roundStart]
      omega
    · cases j with
      | zero => exact ⟨ptr, hne, h, by rw [hround]; exact hholds⟩
      | succ j => exact hbefore j (Nat.lt_of_succ_lt_succ hj)

/-- The copy loop fails exactly when it meets a block that is not mapped. -/
theorem readLoop_error_iff {num : ℤ} (hnum : num ≠ ERROR) {fuel : ℕ} (hfuel : count ≤ fuel)
    (out : List UInt8) :
    (∃ r, readLoop st ino num fuel count position out = some r ∧ r.ret = ERROR) ↔
      MissesBlock st ino position count := by
  induction fuel generalizing count position out with
  | zero =>
      obtain rfl : count = 0 := Nat.le_zero.mp hfuel
      simp [readLoop, hnum, missesBlock_zero]
  | succ fuel ih =>
      cases count with
      | zero => simp [readLoop, hnum, missesBlock_zero]
      | succ count =>
          rcases hptr : getBlockpointer st position ino with _ | ptr
          · constructor
            · rintro ⟨r, hr, -⟩
              simp [readLoop, hptr] at hr
            · rintro ⟨k, -, hnull, hbefore⟩
              cases k with
              | zero => cases hptr.symm.trans hnull
              | succ k =>
                  obtain ⟨ptr, -, hptr', -⟩ := hbefore 0 (Nat.succ_pos k)
                  cases hptr.symm.trans hptr'
          · by_cases hzero : ptr = 0
            · subst hzero
              simp [readLoop, hptr, missesBlock_of_null (Nat.succ_pos count) hptr]
            · rw [missesBlock_of_mapped hzero hptr]
              simp only [readLoop, hptr, Option.bind_eq_bind, Option.bind_some, hzero, if_false]
              generalize hremain : blockSize - (position.tmod blockSize).toNat = remain
              by_cases hfirst : remain < count + 1
              · rw [min_eq_right hfirst.le]
                by_cases hholds : area.Holds ptr remain
                · have hpos : 0 < remain := hremain ▸ roundSize_pos position
                  have hrest : count + 1 - remain ≤ fuel := by omega
                  rw [if_pos hholds, ih hrest]
                  simp [hfirst, hholds]
                · simp [hholds]
              · rw [min_eq_left (not_lt.mp hfirst), Nat.sub_self]
                split
                · simp [readLoop, hnum, hfirst]
                · simp [hfirst]

end Loop

theorem readFile_eq_readLoop {st : Store area} {ino : MyInode} (position numBytes : ℤ)
    (hsize : ino.size ≠ 0) (hloc : ino.location 0 ≠ 0) :
    readFile st ino position numBytes =
      readLoop st ino (ino.readCount position numBytes) (ino.readCount position numBytes).toNat
        (ino.readCount position numBytes).toNat (ino.readStart position) [] := by
  simp only [readFile, hsize, hloc, if_false, MyInode.readCount, min_def_lt]
  rfl

theorem readFile_error_iff (st : Store area) (ino : MyInode) (position numBytes : ℤ) :
    (∃ r, readFile st ino position numBytes = some r ∧ r.ret = ERROR) ↔
      RefusesRead st ino position numBytes := by
  rw [RefusesRead]
  by_cases hsize : ino.size = 0
  · simp [readFile, hsize]
  · by_cases hloc : ino.location 0 = 0
    · simp [readFile, hloc]
    · rw [readFile_eq_readLoop position numBytes hsize hloc]
      by_cases herror : ino.readCount position numBytes = ERROR
      · have hnone : (ino.readCount position numBytes).toNat = 0 := by
          rw [herror]
          rfl
        rw [hnone, herror]
        simp [readLoop]
      · rw [readLoop_error_iff herror (le_refl _)]
        simp [herror, hsize, hloc]

/-! ## The tables of a rejected call -/

theorem setFDT_table (s : State area) (cur : Process) :
    (getFDT cur s).2.setFDT (s.table cur) = (getFDT cur s).2 := by
  have hfind := find?_getFDT cur s
  have hpid : (s.table cur).pid = cur.pid := getFDT_pid cur s
  have hself : (getFDT cur s).2.fdtList.set
      ((getFDT cur s).2.fdtList.findIdx fun t ↦ t.pid = cur.pid) (s.table cur) =
      (getFDT cur s).2.fdtList := by
    apply List.ext_getElem
    · simp
    · intro k hk hk'
      rw [List.getElem_set]
      split
      · next heq =>
        subst heq
        rw [List.find?_eq_getElem?_findIdx, List.getElem?_eq_getElem hk'] at hfind
        exact (Option.some.inj hfind).symm
      · rfl
  rw [State.setFDT, hpid, hself]

theorem setPosition_self {fdt : FDT} {fd : ℤ} {fo : FileObject}
    (h : fdt.fileObject fd = some fo) : fdt.setPosition fd fo fo.position = fdt := by
  have hget : fdt.fileObjects[fd.toNat]? = some fo := by
    simp only [FDT.fileObject] at h
    split at h
    · cases h
    · exact h
  obtain ⟨hlt, heq⟩ := List.getElem?_eq_some_iff.mp hget
  have hlist : fdt.fileObjects.set fd.toNat fo = fdt.fileObjects := by
    rw [← heq]
    exact List.set_getElem_self hlt
  simp [FDT.setPosition, hlist]

/-- A negative descriptor denotes the head of the list, another invalid one
nothing. -/
theorem fileObject_of_invalid {fdt : FDT} {fd : ℤ}
    (h : fd ≤ 0 ∨ (fdt.fileObjects.length : ℤ) ≤ fd) :
    fdt.fileObject fd = if 0 ≤ fd then none else fdt.fileObjects.head? := by
  by_cases hzero : fd = 0
  · simp [FDT.fileObject, hzero]
  · rw [FDT.fileObject, if_neg hzero]
    split
    · next hpos =>
      apply List.getElem?_eq_none
      omega
    · next hneg =>
      rw [Int.toNat_of_nonpos (by omega), List.head?_eq_getElem?]

/-! ## Every list has a head -/

/-- No table is without its current directory. -/
def TablesNonempty (s : State area) : Prop := ∀ fdt ∈ s.fdtList, fdt.fileObjects ≠ []

namespace TablesNonempty

variable {s s' : State area}

theorem init (area : Area) : TablesNonempty (initState area) := fun _ h ↦ (List.not_mem_nil h).elim

theorem table (h : TablesNonempty s) (cur : Process) : (s.table cur).fileObjects ≠ [] :=
  table_of_forall (P := fun fileObjects _ ↦ fileObjects ≠ []) h (List.cons_ne_nil _ _) cur

theorem own_table {cur : Process} {call : Call} {r : Reply × State area} (h : TablesNonempty s)
    (hr : ramdiskIoctl s ⟨cur, call⟩ = some r) : (r.2.table cur).fileObjects ≠ [] := by
  have htable := h.table cur
  cases tableStep hr with
  | same hset => exact hset ▸ htable
  | openDirectory _ _ _ _ _ _ hset => simp [hset]
  | openFile _ _ _ _ _ _ hset => simp [hset]
  | climb _ _ _ hset => simp [hset]
  | close hpos hlt hset =>
      intro hnil
      have hlength := congrArg List.length hnil
      simp only [hset, List.length_eraseIdx, List.length_nil] at hlength
      split at hlength <;> omega
  | move _ _ hset =>
      rw [hset]
      simpa [FDT.setPosition] using htable

theorem step {e : Event} (h : TablesNonempty s) (hs : step s e = some s') : TablesNonempty s' := by
  obtain ⟨r, hr, rfl⟩ := Option.map_eq_some_iff.mp hs
  intro fdt hmem
  rcases (ramdiskIoctl_fdtList hr).mem hmem with hold | rfl | rfl
  · exact h fdt hold
  · exact h.table e.cur
  · exact h.own_table hr

end TablesNonempty

/-! ## One call -/

section Calls

variable {s : State area} {cur : Process} {fd : ℤ}

theorem exists_head (hhead : (s.table cur).fileObjects ≠ []) :
    ∃ head, (getFDT cur s).1.fileObjects.head? = some head := by
  obtain ⟨head, rest, hcons⟩ := List.exists_cons_of_ne_nil hhead
  refine ⟨head, ?_⟩
  change (s.table cur).fileObjects.head? = some head
  rw [hcons, List.head?_cons]

theorem getFDT_with_store (s : State area) (cur : Process) :
    ({ (getFDT cur s).2 with store := s.store } : State area) = (getFDT cur s).2 := by
  unfold getFDT
  split <;> rfl

theorem rejects_close_iff (h : InvalidDescriptor (s.table cur) (.close fd)) :
    RejectsCall s ⟨cur, .close fd⟩ ↔
      RefusesDescriptor s.store (s.table cur) (.close fd) := by
  have hzero : fd ≠ 0 := by
    rintro rfl
    rcases h with hneg | ⟨hne, -⟩
    · exact lt_irrefl 0 hneg
    · exact hne rfl
  constructor
  · rintro ⟨reply, s', hcall, hret, -, -⟩
    obtain ⟨r, hr, heq⟩ := Option.map_eq_some_iff.mp hcall
    cases heq
    rcases rdClose_cases hr with ⟨-, -, hfd | hfd⟩ | ⟨hfd, -⟩ | ⟨-, -, hok, -⟩
    · exact (hzero hfd).elim
    · exact hfd
    · exact (hzero hfd).elim
    · cases hok.symm.trans hret
  · intro hlong
    have hlong : ((getFDT cur s).1.fileObjects.length : ℤ) < fd := hlong
    have hneg : ¬ fd < 0 := by omega
    refine ⟨⟨ERROR, []⟩, (getFDT cur s).2, ?_, rfl, getFDT_store cur s, rfl⟩
    simp only [ramdiskIoctl, rdClose, hzero, if_false, hneg, hlong, if_true]
    rfl

theorem rejects_lseek_iff {position : ℤ} (hhead : (s.table cur).fileObjects ≠ [])
    (h : InvalidDescriptor (s.table cur) (.lseek fd position)) :
    RejectsCall s ⟨cur, .lseek fd position⟩ ↔
      RefusesDescriptor s.store (s.table cur) (.lseek fd position) := by
  have hfo : (getFDT cur s).1.fileObject fd = _ := fileObject_of_invalid h
  constructor
  · rintro ⟨reply, s', hcall, hret, -, -⟩
    by_contra hneg
    have hneg : ¬ 0 ≤ fd := hneg
    obtain ⟨head, hget⟩ := exists_head hhead
    rw [if_neg hneg, hget] at hfo
    obtain ⟨r, hr, heq⟩ := Option.map_eq_some_iff.mp hcall
    cases heq
    simp only [rdLseek, hfo] at hr
    obtain ⟨ino, -, hr⟩ := Option.bind_eq_some_iff.mp hr
    cases hr
    cases hret
  · intro hpos
    have hpos : 0 ≤ fd := hpos
    rw [if_pos hpos] at hfo
    refine ⟨⟨ERROR, []⟩, (getFDT cur s).2, ?_, rfl, getFDT_store cur s, rfl⟩
    simp only [ramdiskIoctl, rdLseek, hfo]
    rfl

theorem rejects_write_iff {input : List UInt8} (hhead : (s.table cur).fileObjects ≠ [])
    (h : InvalidDescriptor (s.table cur) (.write fd input)) :
    RejectsCall s ⟨cur, .write fd input⟩ ↔
      RefusesDescriptor s.store (s.table cur) (.write fd input) := by
  have hfo : (getFDT cur s).1.fileObject fd = _ := fileObject_of_invalid h
  obtain ⟨head, hget⟩ := exists_head hhead
  by_cases hpos : 0 ≤ fd
  · rw [if_pos hpos] at hfo
    refine iff_of_true ⟨⟨ERROR, []⟩, (getFDT cur s).2, ?_, rfl, getFDT_store cur s, rfl⟩ (.inl hpos)
    simp only [ramdiskIoctl, rdWrite, hfo]
    rfl
  · rw [if_neg hpos, hget] at hfo
    constructor
    · rintro ⟨reply, s', hcall, hret, -, -⟩
      obtain ⟨r, hr, heq⟩ := Option.map_eq_some_iff.mp hcall
      cases heq
      simp only [rdWrite, hfo, getFDT_store] at hr
      obtain ⟨⟨ret, position, store⟩, hw, hr⟩ := Option.bind_eq_some_iff.mp hr
      cases hr
      obtain rfl : ret = ERROR := hret
      obtain ⟨-, -, hi, hrefuse⟩ := writeFile_error hw
      exact .inr ⟨head, hget, hi, hrefuse⟩
    · rintro (hfd | ⟨head', hget', hi, hrefuse⟩)
      · exact (hpos hfd).elim
      · cases hget.symm.trans hget'
        have hw := writeFile_refused head.position input hi hrefuse
        refine ⟨⟨ERROR, []⟩, (getFDT cur s).2, ?_, rfl, getFDT_store cur s, rfl⟩
        simp only [ramdiskIoctl, rdWrite, hfo, getFDT_store, hw, Option.bind_eq_bind,
          Option.bind_some, Option.map_some, setPosition_self hfo, getFDT_with_store]
        exact congrArg (fun t ↦ some (replyOnly (ERROR, t))) (setFDT_table s cur)

theorem rejects_read_iff {numBytes : ℤ} (hhead : (s.table cur).fileObjects ≠ [])
    (h : InvalidDescriptor (s.table cur) (.read fd numBytes)) :
    RejectsCall s ⟨cur, .read fd numBytes⟩ ↔
      RefusesDescriptor s.store (s.table cur) (.read fd numBytes) := by
  have hfo : (getFDT cur s).1.fileObject fd = _ := fileObject_of_invalid h
  obtain ⟨head, hget⟩ := exists_head hhead
  by_cases hpos : 0 ≤ fd
  · rw [if_pos hpos] at hfo
    refine iff_of_true ⟨⟨ERROR, []⟩, (getFDT cur s).2, ?_, rfl, getFDT_store cur s, rfl⟩ (.inl hpos)
    simp only [ramdiskIoctl, rdRead, hfo]
    rfl
  · rw [if_neg hpos, hget] at hfo
    constructor
    · rintro ⟨reply, s', hcall, hret, -, -⟩
      obtain ⟨⟨r, s'⟩, hr, heq⟩ := Option.map_eq_some_iff.mp hcall
      cases heq
      simp only [rdRead, hfo, getFDT_store] at hr
      obtain ⟨ino, hino, hr⟩ := Option.bind_eq_some_iff.mp hr
      obtain ⟨hi, rfl⟩ := Store.inodeAt_eq_some hino
      obtain ⟨r, hread, hr⟩ := Option.bind_eq_some_iff.mp hr
      cases hr
      exact .inr ⟨head, hget, hi, (readFile_error_iff ..).mp ⟨r, hread, hret⟩⟩
    · rintro (hfd | ⟨head', hget', hi, hrefuse⟩)
      · exact (hpos hfd).elim
      · cases hget.symm.trans hget'
        obtain ⟨r, hread, hret⟩ := (readFile_error_iff ..).mpr hrefuse
        refine ⟨⟨r.ret, r.bytes⟩, (getFDT cur s).2, ?_, hret, getFDT_store cur s, rfl⟩
        simp only [ramdiskIoctl, rdRead, hfo, getFDT_store, Store.inodeAt_eq hi, hread,
          Option.bind_eq_bind, Option.bind_some, Option.map_some]

end Calls

/-- In every reachable state a call with an invalid descriptor is rejected
exactly when its walk ends outside the list, or when it is a read or a write
with a negative descriptor that the inode of the current directory refuses. -/
theorem invalid_descriptor_iff (area : Area) (events : List Event) (s : State area)
    (hrun : PartialRun.run step (initState area) events = some s) (cur : Process) (call : Call)
    (h : InvalidDescriptor (s.table cur) call) :
    RejectsCall s ⟨cur, call⟩ ↔ RefusesDescriptor s.store (s.table cur) call := by
  have hhead := (PartialRun.invariant_of_run (fun _ _ _ hs ↦ hs.step) (TablesNonempty.init area)
    hrun).table cur
  cases call with
  | close fd => exact rejects_close_iff h
  | lseek fd position => exact rejects_lseek_iff hhead h
  | write fd input => exact rejects_write_iff hhead h
  | read fd numBytes => exact rejects_read_iff hhead h
  | pwd | creat | mkdir | openPath | unlink | chmod => exact h.elim

def openedFiles : List Event :=
  sampleCalls [.creat sampleName 2 fun _ ↦ 0, .creat secondName 2 fun _ ↦ 0,
    .openPath sampleName 2, .openPath secondName 2]

/-- Descriptor 5 of a process with two open files. -/
theorem invalid_descriptor_five : ∃ s,
    PartialRun.run step (initState sampleArea) openedFiles = some s ∧
      (s.table sampleProcess).fileObjects = [⟨0, 0⟩, ⟨1, 0⟩, ⟨2, 0⟩] ∧
      RejectsCall s ⟨sampleProcess, .close 5⟩ ∧ RejectsCall s ⟨sampleProcess, .lseek 5 0⟩ := by
  have hopened : (PartialRun.run step (initState sampleArea) openedFiles).map
      (fun s ↦ (s.table sampleProcess).fileObjects) = some [⟨0, 0⟩, ⟨1, 0⟩, ⟨2, 0⟩] := by
    decide +kernel
  obtain ⟨s, hrun, hobjects⟩ := Option.map_eq_some_iff.mp hopened
  have hiff := fun call hinvalid ↦
    invalid_descriptor_iff sampleArea openedFiles s hrun sampleProcess call hinvalid
  refine ⟨s, hrun, hobjects, (hiff (.close 5) ?_).mpr ?_, (hiff (.lseek 5 0) ?_).mpr ?_⟩
  · rw [InvalidDescriptor, hobjects]
    decide
  · rw [RefusesDescriptor, hobjects]
    decide
  · rw [InvalidDescriptor, hobjects]
    decide
  · rw [RefusesDescriptor]
    decide

/-- `rd_lseek` with a negative descriptor succeeds, and `rd_close` follows a
missing node for it and for the length of the list. -/
theorem invalid_descriptor_accepted :
    InvalidDescriptor (createFDT sampleProcess) (.lseek (-1) 0) ∧
      ¬ RejectsCall (initState sampleArea) ⟨sampleProcess, .lseek (-1) 0⟩ ∧
      ramdiskIoctl (initState sampleArea) ⟨sampleProcess, .close (-1)⟩ = none ∧
      ramdiskIoctl (initState sampleArea) ⟨sampleProcess, .close 1⟩ = none := by
  refine ⟨by decide, ?_, rfl, rfl⟩
  rintro ⟨reply, s', hcall, hret, -⟩
  have hreply : (ramdiskIoctl (initState sampleArea) ⟨sampleProcess, .lseek (-1) 0⟩).map
      (fun r ↦ r.1.ret) = some SUCCESS := by decide
  rw [hcall, Option.map_some, hret] at hreply
  cases hreply

end OperatingSystem.Filesys
