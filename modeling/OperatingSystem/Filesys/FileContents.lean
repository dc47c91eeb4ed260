import OperatingSystem.Filesys.DirectoryMap
import OperatingSystem.Filesys.FileBlocks
import OperatingSystem.Filesys.Pathnames

/-!
# Files as byte arrays

One process creates a file on a formatted disk, opens it, and then seeks and
writes. As long as every write is empty or an append that does not start at the
end of a block, and the file stays in two blocks, what a seek and a read
deliver are the bytes of a reference array.
-/

namespace OperatingSystem.Filesys

open ByteMemory

variable {area : Area}

/-! ## The reference -/

/-- An open file: its bytes and the current position. -/
structure RefFile where
  bytes : List UInt8
  position : ℕ

/-- A call on the descriptor of the file. -/
inductive FileOp where
  | lseek (position : ℕ)
  | write (input : List UInt8)

/-- A seek behind the end stops at the end, as `rd_lseek` does. A write
overwrites from the current position and extends past the end. -/
def RefFile.apply (f : RefFile) : FileOp → RefFile
  | .lseek position => { f with position := min position f.bytes.length }
  | .write input => ⟨overwrite f.bytes f.position input, f.position + input.length⟩

def RefFile.step (f : RefFile) (op : FileOp) : Option RefFile := some (f.apply op)

def emptyFile : RefFile := ⟨[], 0⟩

def FileOp.event (cur : Process) (fd : ℕ) : FileOp → Event
  | .lseek position => ⟨cur, .lseek fd position⟩
  | .write input => ⟨cur, .write fd input⟩

/-- The write appends to the file as it is before. -/
def FileOp.AppendsTo (f : RefFile) : FileOp → Prop
  | .lseek _ => True
  | .write input => Appends f.bytes f.position input

instance (f : RefFile) : (op : FileOp) → Decidable (op.AppendsTo f)
  | .lseek _ => inferInstanceAs (Decidable True)
  | .write input => inferInstanceAs (Decidable (Appends f.bytes f.position input))

/-- The size of the open file is that of the reference, and a seek and a read
deliver the bytes of the reference. -/
structure FollowsReference (cur : Process) (fd : ℕ) (s : State area) (bytes : List UInt8) :
    Prop where
  size : ∃ fo, (s.table cur).fileObject fd = some fo ∧
    (s.store.inode fo.inodeIndex).size = bytes.length
  read : ∀ q m : ℕ, q < bytes.length → m < 2147483648 → ∃ s₁ s₂ r,
    rdLseek cur fd q s = some (SUCCESS, s₁) ∧ rdRead cur fd m s₁ = some (r, s₂) ∧
      r.ret = min m (bytes.length - q) ∧ r.bytes = (bytes.drop q).take m

theorem length_overwrite {bytes input : List UInt8} {position : ℕ}
    (h : position ≤ bytes.length) :
    (overwrite bytes position input).length = max bytes.length (position + input.length) := by
  simp only [overwrite, List.length_append, List.length_take, List.length_drop]
  omega

/-! ## The simulation -/

structure Simulates (cur : Process) (fd : ℕ) (s : State area) (f : RefFile) : Prop where
  file : FileState s.store f.bytes
  object : (s.table cur).fileObject fd = some ⟨1, f.position⟩
  le : f.position ≤ f.bytes.length

namespace Simulates

variable {cur : Process} {fd : ℕ} {s : State area} {f : RefFile}

theorem object_setFDT (h : Simulates cur fd s f) (hfd : 0 < fd) {s' : State area} {position : ℤ}
    (hs : s'.fdtList = ((getFDT cur s).2.setFDT
      ((s.table cur).setPosition fd ⟨1, f.position⟩ position)).fdtList) :
    (s'.table cur).fileObject fd = some ⟨1, position⟩ := by
  have hpid : ((s.table cur).setPosition fd ⟨1, f.position⟩ position).pid = cur.pid :=
    getFDT_pid cur s
  rw [table_congr hs cur, table_setFDT hpid, fileObject_setPosition h.object hfd, if_pos rfl]

theorem lseek (h : Simulates cur fd s f) (hfd : 0 < fd) (q : ℕ) :
    ∃ s', rdLseek cur fd q s = some (SUCCESS, s') ∧
      Simulates cur fd s' { f with position := min q f.bytes.length } := by
  have hobject : (getFDT cur s).1.fileObject fd = some ⟨1, f.position⟩ := h.object
  have hlength := h.file.length
  have hposition : (if toInt (s.store.inode 1).size < (q : ℤ) then toInt (s.store.inode 1).size
      else q) = ((min q f.bytes.length : ℕ) : ℤ) := by
    rw [h.file.size, toInt_of_lt (by omega)]
    split <;> omega
  refine ⟨(getFDT cur s).2.setFDT ((s.table cur).setPosition fd ⟨1, f.position⟩
    ((min q f.bytes.length : ℕ) : ℤ)), ?_, ?_, ?_, ?_⟩
  · simp only [rdLseek, hobject, getFDT_store, Store.inodeAt_eq (show 1 < inodeListNum by simp),
      Option.bind_eq_bind, Option.bind_some, hposition]
    rfl
  · rw [setFDT_store, getFDT_store]
    exact h.file
  · exact h.object_setFDT hfd rfl
  · exact min_le_right ..

theorem write (h : Simulates cur fd s f) (hfd : 0 < fd) {input : List UInt8}
    (happ : Appends f.bytes f.position input) :
    ∃ s', rdWrite cur fd input s = some ((input.length : ℤ), s') ∧
      Simulates cur fd s' (f.apply (.write input)) := by
  have hobject : (getFDT cur s).1.fileObject fd = some ⟨1, f.position⟩ := h.object
  obtain ⟨st', hwrite, hholds⟩ := h.file.writeFile h.le happ
  refine ⟨({ (getFDT cur s).2 with store := st' } : State area).setFDT
    ((s.table cur).setPosition fd ⟨1, f.position⟩ (f.position + input.length)), ?_, .inl hholds,
    ?_, ?_⟩
  · simp only [rdWrite, hobject, getFDT_store, hwrite, Option.bind_eq_bind, Option.bind_some]
    rfl
  · simp only [RefFile.apply]
    push_cast
    exact h.object_setFDT hfd rfl
  · simp only [RefFile.apply]
    rw [length_overwrite h.le]
    exact le_max_right ..

theorem step {op : FileOp} (h : Simulates cur fd s f) (hfd : 0 < fd) (happ : op.AppendsTo f) :
    ∃ s', step s (op.event cur fd) = some s' ∧ Simulates cur fd s' (f.apply op) := by
  cases op with
  | lseek q =>
      obtain ⟨s', hlseek, hsim⟩ := h.lseek hfd q
      exact ⟨s', by simp [Filesys.step, FileOp.event, ramdiskIoctl, hlseek, replyOnly], hsim⟩
  | write input =>
      obtain ⟨s', hwrite, hsim⟩ := h.write hfd happ
      exact ⟨s', by simp [Filesys.step, FileOp.event, ramdiskIoctl, hwrite, replyOnly], hsim⟩

theorem read (h : Simulates cur fd s f) {m : ℕ} (hq : f.position < f.bytes.length)
    (hm : m < 2147483648) : ∃ s' r, rdRead cur fd m s = some (r, s') ∧
      r.ret = min m (f.bytes.length - f.position) ∧ r.bytes = (f.bytes.drop f.position).take m := by
  have hobject : (getFDT cur s).1.fileObject fd = some ⟨1, f.position⟩ := h.object
  obtain ⟨r, hread, hret, hbytes⟩ := h.file.readFile hq hm
  refine ⟨(getFDT cur s).2, r, ?_, hret, hbytes⟩
  simp only [rdRead, hobject, getFDT_store, Store.inodeAt_eq (show 1 < inodeListNum by simp),
    Option.bind_eq_bind, Option.bind_some, hread]

theorem followsReference (h : Simulates cur fd s f) (hfd : 0 < fd) :
    FollowsReference cur fd s f.bytes := by
  refine ⟨⟨_, h.object, h.file.size⟩, ?_⟩
  intro q m hq hm
  obtain ⟨s₁, hlseek, hsim⟩ := h.lseek hfd q
  rw [Nat.min_eq_left hq.le] at hsim
  obtain ⟨s₂, r, hread, hret, hbytes⟩ := hsim.read hq hm
  exact ⟨s₁, s₂, r, hlseek, hread, hret, hbytes⟩

end Simulates

/-! ## Creating and opening the file -/

theorem size_initDatastructure (area : Area) (i : ℕ) :
    ((initDatastructure area).inode i).size = 0 := by
  simp only [initDatastructure, Function.update_apply]
  split <;> rfl

theorem lookupNew_init {fdt : FDT} {pathname name : List UInt8} {des : ℕ}
    (hfdt : fdt.fileObjects = [⟨0, 0⟩])
    (h : lookupNew (initDatastructure area) fdt pathname = some (some (des, name))) :
    (des = 0 ∨ inodeListNum ≤ des) ∧ name ⊆ pathname ∧ name.length ≤ 13 := by
  obtain ⟨position, r, hresolve, hlength, -⟩ := lookupNew_eq_some h
  have hparent : inodeListNum ≤ ((initDatastructure area).inode 0).parentIndex := by
    simp [initDatastructure, rootInode, toUInt16]
  obtain ⟨hdes, hname⟩ := @resolve_invariant area _ _ (fun i ↦ i = 0 ∨ inodeListNum ≤ i)
    _ _ _ _ (.inl rfl) (fun head back i hhead hclimb ↦ by
      rw [hfdt] at hhead
      cases hhead
      exact climb_root hparent hclimb)
    (fun i d r name _ _ hr hans ↦
      (hans (isExist_of_empty (fun _ ↦ size_initDatastructure area i) hr)).elim) hresolve
  exact ⟨hdes, hname, hlength⟩

/-- The state after the first file was created on a formatted disk. -/
structure FirstFile (s : State area) : Prop where
  file : FileFresh s.store
  root : ∃ name, RootDirectory s.store 1 fun _ ↦ (name, 1)
  parentIndex : inodeListNum ≤ (s.store.inode 0).parentIndex
  tables : FreshTables s.fdtList

theorem firstFile_of_rdCreat {cur : Process} {pathname : CString} {mode : ℤ} {fresh : ℕ → UInt8}
    {s : State area}
    (h : rdCreat cur pathname.chars mode fresh (initState area) = some (SUCCESS, s)) :
    FirstFile s := by
  have htables : FreshTables (initState area).fdtList := by simp [FreshTables, initState]
  rcases create_cases h with ⟨herror, -⟩ | ⟨des, name, hlookup, -, hentry, -⟩
  · cases herror
  · obtain ⟨hdes, hname, hlength⟩ := lookupNew_init (htables.table cur) hlookup
    have hnul : (0 : UInt8) ∉ name := fun hmem ↦ pathname.noNul (hname hmem)
    obtain rfl : des = 0 := by
      obtain ⟨parent, hparent, -⟩ := Option.bind_eq_some_iff.mp hentry
      have hlt := (Store.inodeAt_eq_some hparent).1
      omega
    have hinit := rootDirectory_init area fun _ ↦ (name, 1)
    obtain ⟨-, hroot⟩ := hinit.create (firstInodeFree_init area) (by omega) hnul hlength
      (fun k hk ↦ by omega) hentry
    have hentries : Function.update (fun _ : ℕ ↦ (name, 1)) 0 (name, 1) = fun _ ↦ (name, 1) :=
      Function.update_eq_self 0 _
    -- the two records that the call wrote
    obtain ⟨ret, pos, st₁, hw, hend⟩ := createEntry_cases hentry
    have hwrite := @RootDirectory.writeEntry _ _ _ _ hinit (by omega) name 1 hlength fresh
    rcases hend with ⟨-, herror, -⟩ | ⟨-, -, ha⟩
    · cases herror
    · cases hwrite.symm.trans hw
      obtain ⟨-, hinode, -, -, hsuper⟩ := allocateInode_eq_some ha
      have hone : s.store.inode 1 = zeroInode.renew 0 mode .reg := by
        rw [hinode]
        rfl
      have hzero : s.store.inode 0 = (rootInode area).grow 16 := by
        rw [hinode]
        rfl
      refine ⟨⟨?_, ?_, ?_, ?_, ?_, ?_⟩, ⟨name, ?_⟩, ?_, ?_⟩
      · rw [hone]
        simp [MyInode.renew]
      · rw [hone]
        rfl
      · rw [hone]
        rfl
      · rw [hone]
        rfl
      · rw [hsuper]
        rfl
      · rw [hsuper]
        rfl
      · exact hentries ▸ hroot
      · rw [hzero]
        simp [MyInode.grow, rootInode, toUInt16]
      · exact htables.of_fdtList (create_fdtList h)

namespace FirstFile

variable {s : State area}

theorem ans_of_isExist (h : FirstFile s) {i : ℕ} {name : List UInt8} {d : ℤ} {r : SearchResult}
    (hi : i ≤ 1 ∨ inodeListNum ≤ i) (hnul : (0 : UInt8) ∉ name)
    (hr : isExist s.store name i d = some r) (hne : r.ans ≠ ERROR) : r.ans = 1 := by
  by_cases hzero : i = 0
  · subst hzero
    obtain ⟨name', hroot⟩ := h.root
    obtain ⟨r', hr', hcases⟩ := hroot.isExist hnul d
    cases hr.symm.trans hr'
    rcases hcases with ⟨k, -, -, hans, -⟩ | ⟨-, herror⟩
    · exact hans
    · exact (hne herror).elim
  · refine (hne (isExist_of_empty (fun hlt ↦ ?_) hr)).elim
    obtain rfl : i = 1 := by omega
    exact h.file.size

theorem lookup (h : FirstFile s) {cur : Process} {pathname : CString} {name : List UInt8} {i : ℕ}
    (hlookup : lookup s.store (s.table cur) pathname.chars = some (some (name, i))) : i = 1 := by
  have hfdt : (s.table cur).fileObjects = [⟨0, 0⟩] := h.tables.table cur
  obtain ⟨target, hresolve, hrest⟩ := Option.bind_eq_some_iff.mp hlookup
  rcases target with _ | ⟨des, childfile, position⟩
  · cases hrest
  · obtain ⟨hdes, hchild⟩ := @resolve_invariant area _ _ (fun i ↦ i ≤ 1 ∨ inodeListNum ≤ i)
      _ _ _ _ (.inl (by omega)) (fun head back i hhead hclimb ↦ by
        rw [hfdt] at hhead
        cases hhead
        have hcases := climb_root h.parentIndex hclimb
        omega)
      (fun i d r name hname hi hr hans ↦ by
        rw [h.ans_of_isExist hi (fun hmem ↦ pathname.noNul (hname hmem)) hr hans]
        exact .inl (le_refl 1)) hresolve
    obtain ⟨r, hr, hend⟩ := Option.bind_eq_some_iff.mp hrest
    split at hend
    · cases hend
    · next hans =>
      cases hend
      rw [h.ans_of_isExist hdes (fun hmem ↦ pathname.noNul (hchild hmem)) hr hans]
      rfl

theorem simulates_of_rdOpen (h : FirstFile s) {cur : Process} {pathname : CString} {flag : ℤ}
    {fd : ℕ} {s' : State area} (hfd : 0 < fd)
    (hopen : rdOpen cur pathname.chars flag s = some ((fd : ℤ), s')) :
    Simulates cur fd s' emptyFile := by
  rcases rdOpen_cases hopen with
    ⟨herror, -⟩ | ⟨name, i, path, hlookup, -, -, -, -, ⟨-, hret, -⟩ | ⟨-, hret, htable⟩⟩
  · have hneg : ERROR = -1 := rfl
    omega
  · omega
  · obtain rfl := h.lookup hlookup
    refine ⟨?_, ?_, le_refl 0⟩
    · rw [rdOpen_store hopen]
      exact .inr ⟨h.file, rfl⟩
    · have hlast : fd = (s.table cur).fileObjects.length := by omega
      rw [htable, fileObject_of_pos _ hfd, hlast]
      simp [emptyFile]

end FirstFile

/-! ## Runs -/

/-- A file that is created on a formatted disk, opened, and then written only
by appends that do not start at the end of a block and stay in two blocks
follows the reference, whatever seeks come between them. -/
theorem fileContents_followReference (area : Area) (cur : Process) (pathname openPath : CString)
    (mode : ℤ) (fresh : ℕ → UInt8) (fd : ℕ) (s₁ s₂ : State area) (ops : List FileOp)
    (hcreat : rdCreat cur pathname.chars mode fresh (initState area) = some (SUCCESS, s₁))
    (hopen : rdOpen cur openPath.chars 1 s₁ = some ((fd : ℤ), s₂)) (hfd : 0 < fd)
    (happ : PartialRun.Along RefFile.step (fun f op _ ↦ op.AppendsTo f) emptyFile ops) :
    ∃ s, PartialRun.run step s₂ (ops.map (FileOp.event cur fd)) = some s ∧
      FollowsReference cur fd s (ops.foldl RefFile.apply emptyFile).bytes := by
  have hsim := (firstFile_of_rdCreat hcreat).simulates_of_rdOpen hfd hopen
  have hstep : ∀ (s : State area) (f : RefFile) (op : FileOp) (g : RefFile),
      Simulates cur fd s f → f.step op = some g → op.AppendsTo f →
      ∃ s', step s (op.event cur fd) = some s' ∧ Simulates cur fd s' g := by
    intro s f op g h hspec hop
    cases hspec
    exact h.step hfd hop
  obtain ⟨s, hrun, hsim'⟩ := PartialRun.exists_run_of_simulation hstep hsim happ
    (PartialRun.run_total RefFile.apply emptyFile ops)
  exact ⟨s, hrun, hsim'.followsReference hfd⟩

/-- An append over the first block boundary, behind the end of an earlier one. -/
def crossingAppend : List FileOp :=
  [.write (List.replicate 200 7), .lseek 3, .lseek 1000, .write (List.replicate 100 8)]

theorem fileContents_followReference_crossingAppend : ∃ s₁ s₂ s,
    rdCreat sampleProcess sampleName.chars 1 (fun _ ↦ 0) (initState sampleArea) =
      some (SUCCESS, s₁) ∧
    rdOpen sampleProcess sampleName.chars 1 s₁ = some (1, s₂) ∧
    PartialRun.run step s₂ (crossingAppend.map (FileOp.event sampleProcess 1)) = some s ∧
    FollowsReference sampleProcess 1 s (List.replicate 200 7 ++ List.replicate 100 8) := by
  have hsetup : ((rdCreat sampleProcess sampleName.chars 1 (fun _ ↦ 0)
      (initState sampleArea)).bind fun r₁ ↦
        (rdOpen sampleProcess sampleName.chars 1 r₁.2).map fun r₂ ↦ (r₁.1, r₂.1)) =
      some (SUCCESS, 1) := by
    decide +kernel
  have htest : PartialRun.check RefFile.step (fun f op ↦ decide (op.AppendsTo f)) emptyFile
      crossingAppend = true := by
    decide +kernel
  have hbytes : (crossingAppend.foldl RefFile.apply emptyFile).bytes =
      List.replicate 200 7 ++ List.replicate 100 8 := by
    decide +kernel
  have happ : PartialRun.Along RefFile.step (fun f op _ ↦ op.AppendsTo f) emptyFile
      crossingAppend := by
    refine PartialRun.along_of_check ?_ htest
    intro f op g hop
    exact of_decide_eq_true hop
  obtain ⟨⟨ret, s₁⟩, hcreat, hsetup⟩ := Option.bind_eq_some_iff.mp hsetup
  obtain ⟨⟨fd, s₂⟩, hopen, hrets⟩ := Option.map_eq_some_iff.mp hsetup
  obtain ⟨rfl, rfl⟩ := Prod.mk.inj hrets
  obtain ⟨s, hrun, hfollows⟩ := fileContents_followReference sampleArea sampleProcess sampleName
    sampleName 1 (fun _ ↦ 0) 1 s₁ s₂ crossingAppend hcreat hopen (by decide)
    happ
  rw [hbytes] at hfollows
  exact ⟨s₁, s₂, s, hcreat, hopen, hrun, hfollows⟩

def oneOverwrite : List FileOp := [.write [120], .lseek 0, .write [121]]

/-- A write over existing bytes makes the file longer. -/
theorem overwrite_grows_file : ∃ s₁ s₂ s,
    rdCreat sampleProcess sampleName.chars 1 (fun _ ↦ 0) (initState sampleArea) =
      some (SUCCESS, s₁) ∧
    rdOpen sampleProcess sampleName.chars 1 s₁ = some (1, s₂) ∧
    PartialRun.run step s₂ (oneOverwrite.map (FileOp.event sampleProcess 1)) = some s ∧
    ¬ FollowsReference sampleProcess 1 s (oneOverwrite.foldl RefFile.apply emptyFile).bytes := by
  have hall : ((rdCreat sampleProcess sampleName.chars 1 (fun _ ↦ 0)
      (initState sampleArea)).bind fun r₁ ↦
        (rdOpen sampleProcess sampleName.chars 1 r₁.2).bind fun r₂ ↦
          (PartialRun.run step r₂.2 (oneOverwrite.map (FileOp.event sampleProcess 1))).map
            fun s ↦ (r₁.1, r₂.1, ((s.table sampleProcess).fileObject 1).map fun fo ↦
              (s.store.inode fo.inodeIndex).size)) =
      some (SUCCESS, 1, some 2) := by
    decide +kernel
  obtain ⟨⟨ret, s₁⟩, hcreat, hall⟩ := Option.bind_eq_some_iff.mp hall
  obtain ⟨⟨fd, s₂⟩, hopen, hall⟩ := Option.bind_eq_some_iff.mp hall
  obtain ⟨s, hrun, hfacts⟩ := Option.map_eq_some_iff.mp hall
  simp only [Prod.mk.injEq] at hfacts
  obtain ⟨rfl, rfl, hsize⟩ := hfacts
  refine ⟨s₁, s₂, s, hcreat, hopen, hrun, ?_⟩
  intro hfollows
  obtain ⟨fo, hfo, hlength⟩ := hfollows.size
  rw [Nat.cast_one] at hfo
  rw [hfo, Option.map_some, hlength] at hsize
  exact absurd hsize (by decide)

end OperatingSystem.Filesys
