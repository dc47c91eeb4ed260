import OperatingSystem.Filesys.Tables
import OperatingSystem.Filesys.Writing

/-!
# Access modes

The flag of every descriptor is remembered beside the state, as the module
itself does not remember it. `rd_write` and `rd_read` look at neither the flag
nor the mode, so a forbidden call is harmless only when it is refused for
another reason or moves no byte.
-/

namespace OperatingSystem.Filesys

variable {area : Area}

/-- A state, and for every process the flags with which its descriptors were
opened. -/
structure Watched (area : Area) where
  state : State area
  flags : ℤ → ℤ → Option ℤ

/-- The flags when a process calls: a process without a table gets the table of
its parent, and the flags with it. -/
def Watched.inherit (w : Watched area) (cur : Process) : ℤ → ℤ → Option ℤ :=
  if w.state.fdtList.any (fun fdt ↦ fdt.pid = cur.pid) then w.flags
  else if w.state.fdtList.any (fun fdt ↦ fdt.pid = cur.ppid) then
    Function.update w.flags cur.pid (w.flags cur.ppid)
  else w.flags

/-- `rd_open` of a file adds a descriptor; `rd_open` of a directory drops all
descriptors of the process. -/
def recordFlag (flags : ℤ → ℤ → Option ℤ) (pid flag ret : ℤ) : ℤ → ℤ → Option ℤ :=
  if 0 < ret then Function.update flags pid (Function.update (flags pid) ret (some flag))
  else if ret = 0 then Function.update flags pid fun _ ↦ none
  else flags

/-- The system restricted to `rd_creat`, `rd_chmod`, `rd_open`, `rd_write` and
`rd_read`. -/
def watchedStep (w : Watched area) (e : Event) : Option (Watched area) :=
  match e.call with
  | .creat .. | .chmod .. | .write .. | .read .. =>
      (step w.state e).map fun s ↦ ⟨s, w.inherit e.cur⟩
  | .openPath pathname flag =>
      (rdOpen e.cur pathname.chars flag w.state).map fun r ↦
        ⟨r.2, recordFlag (w.inherit e.cur) e.cur.pid flag r.1⟩
  | _ => none

/-- The flag with which the caller's descriptor was opened. -/
def Watched.flag (w : Watched area) (cur : Process) (fd : ℤ) : Option ℤ :=
  w.inherit cur cur.pid fd

/-- Byte `k` of a file, if its block is mapped. -/
def Store.fileByte (st : Store area) (ino : MyInode) (k : ℕ) : Option UInt8 :=
  if st.logicalPtr ino (k / 256) = 0 then none
  else some (st.space (st.logicalPtr ino (k / 256) + k % 256))

def FileUnchanged (st st' : Store area) (i : ℕ) : Prop :=
  (st'.inode i).size = (st.inode i).size ∧
    ∀ k < (st.inode i).size, st'.fileByte (st'.inode i) k = st.fileByte (st.inode i) k

/-- A write through a read-only descriptor or to a read-only file. -/
def ProtectedWrite (w : Watched area) (cur : Process) (fd : ℤ) (i : ℕ) : Prop :=
  w.flag cur fd = some 0 ∨ (w.state.store.inode i).mode = 0

/-- A protected write changes nothing of the file, and a read through a
write-only descriptor delivers no byte. -/
def AccessEnforced (w : Watched area) (e : Event) (w' : Watched area) : Prop :=
  match e.call with
  | .write fd _ => ∀ fo, (w.state.table e.cur).fileObject fd = some fo →
      ProtectedWrite w e.cur fd fo.inodeIndex →
      FileUnchanged w.state.store w'.state.store fo.inodeIndex
  | .read fd numBytes => w.flag e.cur fd = some 2 → ∀ r s',
      rdRead e.cur fd numBytes w.state = some (r, s') → r.bytes = []
  | _ => True

/-- An empty write that stores no pointer into an index block: it takes no
block, or a block for a direct slot. -/
def StoresNoPointer (st : Store area) (ino : MyInode) (position : ℤ) : Prop :=
  NeedsNoBlock st ino position ∨ RefusesBlock st.superblock ino ∨ ino.blockNumber < 6 ∨
    (ino.location 0 ≠ 0 ∧ ino.blockNumber < 7)

/-- `write_file` refuses, or there is nothing to write. -/
def HarmlessWrite (st : Store area) (ino : MyInode) (position : ℤ) (input : List UInt8) : Prop :=
  RefusesWrite st ino 'w' ∨ (input = [] ∧ StoresNoPointer st ino position)

/-- `rd_read` finds nothing to read. -/
def HarmlessRead (st : Store area) (ino : MyInode) (position numBytes : ℤ) : Prop :=
  ino.size = 0 ∨ ino.location 0 = 0 ∨ toUInt32 numBytes = 0 ∨
    getBlockpointer st (if toUInt32 position ≥ ino.size then 0 else position) ino = some 0

/-- The calls that the modes forbid are harmless by themselves. -/
def ForbiddenIsHarmless (w : Watched area) (e : Event) : Prop :=
  match e.call with
  | .write fd input => ∀ fo, (w.state.table e.cur).fileObject fd = some fo →
      ProtectedWrite w e.cur fd fo.inodeIndex →
      HarmlessWrite w.state.store (w.state.store.inode fo.inodeIndex) fo.position input
  | .read fd numBytes => w.flag e.cur fd = some 2 → ∀ fo,
      (w.state.table e.cur).fileObject fd = some fo →
      HarmlessRead w.state.store (w.state.store.inode fo.inodeIndex) fo.position numBytes
  | _ => True

/-! ## Sizes and block numbers -/

/-- The size of every record is a 32-bit number and reaches at most into the
block of its block number. -/
def SizedRecords (st : Store area) : Prop :=
  ∀ i, (st.inode i).size < 4294967296 ∧
    ((st.inode i).size : ℤ) ≤ 256 * ((st.inode i).blockNumber + 1)

namespace SizedRecords

variable {st st' : Store area}

theorem setInode (h : SizedRecords st) {i : ℕ} {ino : MyInode} (hsize : ino.size < 4294967296)
    (hblock : (ino.size : ℤ) ≤ 256 * (ino.blockNumber + 1)) : SizedRecords (st.setInode i ino) := by
  intro j
  by_cases hj : j = i
  · subst hj
    rw [Store.setInode_inode]
    exact ⟨hsize, hblock⟩
  · rw [Store.setInode_inode_of_ne hj]
    exact h j

theorem grow (ino : MyInode) (n : ℕ) : (ino.grow n).size < 4294967296 ∧
    ((ino.grow n).size : ℤ) ≤ 256 * ((ino.grow n).blockNumber + 1) := by
  simp only [MyInode.grow, toUInt32, blockSize]
  constructor <;> omega

theorem writeFile {i : ℕ} {pos pos' ret : ℤ} {input : List UInt8} {type : Char}
    (h : SizedRecords st) (hw : writeFile st i pos input type = some (ret, pos', st')) :
    SizedRecords st' := by
  rcases writeFile_cases hw with ⟨-, -, rfl⟩ | ⟨r, hsteps, -, -, rfl⟩
  · exact h
  · intro j
    by_cases hj : j = i
    · subst hj
      rw [Store.setInode_inode]
      exact grow _ _
    · rw [Store.setInode_inode_of_ne hj, hsteps.frame.others j hj]
      exact h j

theorem allocateInode {des : ℕ} {mode : ℤ} {type : ObjectType} (h : SizedRecords st)
    (ha : allocateInode st des mode type = some st') : SizedRecords st' := by
  obtain ⟨ino, -, ha⟩ := Option.bind_eq_some_iff.mp ha
  cases ha
  exact h.setInode (by simp [MyInode.renew]) (by simp [MyInode.renew])

theorem run {op : DiskOp} (h : SizedRecords st) (hop : ∀ name i, op ≠ .unlink name i)
    (hrun : op.run st = some st') : SizedRecords st' := by
  cases op with
  | nothing =>
      cases hrun
      exact h
  | write i pos input =>
      obtain ⟨⟨ret, pos', st₁⟩, hw, rfl⟩ := Option.map_eq_some_iff.mp hrun
      exact h.writeFile hw
  | create des name mode type fresh =>
      obtain ⟨⟨ret, st₁⟩, hcreate, rfl⟩ := Option.map_eq_some_iff.mp hrun
      obtain ⟨ret', pos, st₂, hw, hend⟩ := createEntry_cases hcreate
      rcases hend with ⟨-, -, rfl⟩ | ⟨-, -, ha⟩
      · exact h.writeFile hw
      · exact (h.writeFile hw).allocateInode ha
  | unlink name i => exact (hop name i rfl).elim
  | chmod i mode =>
      cases hrun
      exact h.setInode (h i).1 (h i).2

end SizedRecords

/-! ## Empty writes -/

theorem blockNumber_of_allocateBlock {st st' : Store area} {i ptr : ℕ}
    (h : allocateBlock st i = some (ptr, st')) :
    (st'.inode i).blockNumber ≤ (st.inode i).blockNumber + 1 := by
  by_cases hrefuse : RefusesBlock st.superblock (st.inode i)
  · rw [allocateBlock_of_refuses hrefuse] at h
    cases h
    omega
  · obtain ⟨k, p, -, hrecord⟩ := allocateBlock_inode h hrefuse
    rw [hrecord]

theorem orAllocate_space {st st' : Store area} {i p ptr : ℕ}
    (h : orAllocate st i p = some (ptr, st')) (h₈ : (st.inode i).blockNumber + 1 < 8) :
    st'.space = st.space := by
  simp only [orAllocate] at h
  split at h
  · exact allocateBlock_space h h₈
  · cases h
    rfl

/-- A store with the same bytes and the same direct slots up to the block
number holds the same file. -/
theorem fileUnchanged_of_location {st st' : Store area} {i : ℕ} (hsized : SizedRecords st)
    (hspace : st'.space = st.space) (hsize : (st'.inode i).size = (st.inode i).size)
    (hloc : ∀ k : ℕ, k < 8 → (k : ℤ) ≤ (st.inode i).blockNumber →
      (st'.inode i).location k = (st.inode i).location k)
    (h₈ : (st.inode i).blockNumber < 8) : FileUnchanged st st' i := by
  refine ⟨hsize, ?_⟩
  intro k hk
  have hle := (hsized i).2
  have hnum : k / 256 < 8 ∧ ((k / 256 : ℕ) : ℤ) ≤ (st.inode i).blockNumber := by
    omega
  have hptr : st'.logicalPtr (st'.inode i) (k / 256) = st.logicalPtr (st.inode i) (k / 256) := by
    simp only [Store.logicalPtr, hnum.1, if_true]
    exact hloc _ hnum.1 hnum.2
  rw [Store.fileByte, Store.fileByte, hptr, hspace]

/-- An empty write that stores no pointer into an index block changes no file
byte and no size. -/
theorem fileUnchanged_of_storesNoPointer {st st' : Store area} {i : ℕ} {pos pos' ret : ℤ}
    {type : Char} (hsized : SizedRecords st) (hquiet : StoresNoPointer st (st.inode i) pos)
    (h : writeFile st i pos [] type = some (ret, pos', st')) : FileUnchanged st st' i := by
  rcases writeFile_phases h with
    ⟨-, -, rfl⟩ | ⟨ptr, st₁, wPtr, ptr', st₂, r, h₁, hne, hwPtr, h₂, hr, -, -, rfl⟩
  · exact ⟨rfl, fun _ _ ↦ rfl⟩
  · cases hr
    obtain ⟨loc, bn, lbo, hrecord⟩ :=
      ((BlockSteps.of_orAllocate h₁).trans (.of_orAllocate h₂)).frame.record
    have hlt : (st₂.inode i).size < 4294967296 := by
      rw [hrecord]
      exact (hsized i).1
    have hsize : ((st₂.inode i).grow 0).size = (st.inode i).size := by
      rw [MyInode.grow_size hlt, hrecord, Nat.add_zero]
    -- either no block is taken at all, or the taken blocks go to direct slots
    have hcases : st₂ = st ∨ (st.inode i).blockNumber < 6 ∨
        ((st.inode i).location 0 ≠ 0 ∧ (st.inode i).blockNumber < 7) := by
      rcases hquiet with hneed | hrefuse | hdirect
      · left
        simp only [orAllocate, hneed.first, if_false, Option.some.injEq, Prod.mk.injEq] at h₁
        obtain ⟨-, rfl⟩ := h₁
        have hwne := hneed.ne_zero hwPtr
        simp only [orAllocate, hwne, if_false, Option.some.injEq, Prod.mk.injEq] at h₂
        exact h₂.2.symm
      · left
        simp only [orAllocate, allocateBlock_of_refuses hrefuse] at h₁
        split at h₁
        · cases h₁
          exact (hne rfl).elim
        · cases h₁
          simp only [orAllocate, allocateBlock_of_refuses hrefuse] at h₂
          split at h₂ <;> cases h₂ <;> rfl
      · exact .inr hdirect
    rcases hcases with rfl | hdirect
    · refine ⟨by simpa using hsize, ?_⟩
      intro k _
      simp only [Store.setInode_inode]
      rfl
    · have hspace : st₂.space = st.space := by
        have hbn : (st₁.inode i).blockNumber + 1 < 8 := by
          rcases hdirect with hlow | ⟨hloc, hlow⟩
          · simp only [orAllocate] at h₁
            split at h₁
            · have hle := blockNumber_of_allocateBlock h₁
              omega
            · cases h₁
              omega
          · simp only [orAllocate, hloc, if_false] at h₁
            cases h₁
            omega
        exact (orAllocate_space h₂ hbn).trans (orAllocate_space h₁ (by omega))
      have hkeeps := (KeepsSlots.of_orAllocate h₁).trans (.of_orAllocate h₂)
      have hsize' : ((st₂.setInode i ((st₂.inode i).grow 0)).inode i).size =
          (st.inode i).size := by
        rw [Store.setInode_inode, hsize]
      refine fileUnchanged_of_location hsized hspace hsize' ?_ (by omega)
      intro k hk hle
      simpa [MyInode.grow] using hkeeps.location k hk hle

theorem fileUnchanged_of_harmless {st st' : Store area} {i : ℕ} {pos pos' ret : ℤ}
    {input : List UInt8} (hsized : SizedRecords st)
    (hharmless : HarmlessWrite st (st.inode i) pos input)
    (h : writeFile st i pos input 'w' = some (ret, pos', st')) : FileUnchanged st st' i := by
  rcases hharmless with hrefuse | ⟨rfl, hquiet⟩
  · obtain ⟨-, rfl⟩ := writeFile_of_refuses hrefuse h
    exact ⟨rfl, fun _ _ ↦ rfl⟩
  · exact fileUnchanged_of_storesNoPointer hsized hquiet h

/-! ## Reads -/

theorem readLoop_of_unmapped {st : Store area} {ino : MyInode} {numBytes position : ℤ} {n : ℕ}
    {r : ReadResult} (hunmapped : getBlockpointer st position ino = some 0)
    (h : readLoop st ino numBytes n n position [] = some r) : r.bytes = [] := by
  cases n with
  | zero =>
      simp only [readLoop] at h
      cases h
      rfl
  | succ n =>
      simp only [readLoop, hunmapped, Option.bind_eq_bind, Option.bind_some, if_true] at h
      cases h
      rfl

theorem readFile_of_harmless {st : Store area} {ino : MyInode} {position numBytes : ℤ}
    {r : ReadResult} (hharmless : HarmlessRead st ino position numBytes)
    (h : readFile st ino position numBytes = some r) : r.bytes = [] := by
  simp only [readFile] at h
  split at h
  · cases h
    rfl
  · split at h
    · cases h
      rfl
    · next hsize hloc =>
      rcases hharmless with hzero | hnull | hcount | hunmapped
      · exact (hsize hzero).elim
      · exact (hloc hnull).elim
      · simp only [hcount, Nat.not_lt_zero, if_false, toInt] at h
        cases h
        rfl
      · exact readLoop_of_unmapped hunmapped h

/-! ## Runs -/

theorem enforced_of_harmless {w w' : Watched area} {e : Event}
    (hsized : SizedRecords w.state.store) (hharmless : ForbiddenIsHarmless w e)
    (h : watchedStep w e = some w') : AccessEnforced w e w' := by
  obtain ⟨cur, call⟩ := e
  cases call with
  | write fd input =>
      intro fo hfo hprotected
      obtain ⟨s', hstep, rfl⟩ := Option.map_eq_some_iff.mp h
      obtain ⟨r, hr, rfl⟩ := Option.map_eq_some_iff.mp hstep
      obtain ⟨⟨ret, s'⟩, hwrite, rfl⟩ := Option.map_eq_some_iff.mp hr
      have hrun := writeOp_of_rdWrite hwrite
      have hfo' : (getFDT cur w.state).1.fileObject fd = some fo := hfo
      simp only [hfo', DiskOp.run] at hrun
      obtain ⟨⟨ret', pos', st'⟩, hw, hst⟩ := Option.map_eq_some_iff.mp hrun
      dsimp only at hst
      subst hst
      exact fileUnchanged_of_harmless hsized (hharmless fo hfo hprotected) hw
  | read fd numBytes =>
      intro hflag r s' hread
      simp only [rdRead] at hread
      split at hread
      · cases hread
        rfl
      · next fo hfo =>
        obtain ⟨ino, hino, hread⟩ := Option.bind_eq_some_iff.mp hread
        rw [getFDT_store] at hino
        obtain ⟨-, rfl⟩ := Store.inodeAt_eq_some hino
        obtain ⟨r', hr', hread⟩ := Option.bind_eq_some_iff.mp hread
        rw [getFDT_store] at hr'
        cases hread
        exact readFile_of_harmless (hharmless hflag fo hfo) hr'
  | _ => trivial

theorem sizedRecords_watchedStep {w w' : Watched area} {e : Event}
    (hsized : SizedRecords w.state.store) (h : watchedStep w e = some w') :
    SizedRecords w'.state.store := by
  have hrun : ∀ s', step w.state e = some s' → (∀ pathname, e.call ≠ .unlink pathname) →
      SizedRecords s'.store := by
    intro s' hstep hcall
    obtain ⟨op, hop, hrun⟩ := diskOp_of_step hstep
    refine hsized.run ?_ hrun
    rintro name i rfl
    obtain ⟨pathname, hunlink, -⟩ := diskOp_eq_unlink hop
    exact hcall pathname hunlink
  obtain ⟨cur, call⟩ := e
  cases call with
  | openPath pathname flag =>
      obtain ⟨⟨ret, s'⟩, hopen, rfl⟩ := Option.map_eq_some_iff.mp h
      rw [rdOpen_store hopen]
      exact hsized
  | creat pathname mode fresh =>
      obtain ⟨s', hstep, rfl⟩ := Option.map_eq_some_iff.mp h
      exact hrun s' hstep fun _ hcall ↦ by cases hcall
  | chmod pathname mode =>
      obtain ⟨s', hstep, rfl⟩ := Option.map_eq_some_iff.mp h
      exact hrun s' hstep fun _ hcall ↦ by cases hcall
  | write fd input =>
      obtain ⟨s', hstep, rfl⟩ := Option.map_eq_some_iff.mp h
      exact hrun s' hstep fun _ hcall ↦ by cases hcall
  | read fd numBytes =>
      obtain ⟨s', hstep, rfl⟩ := Option.map_eq_some_iff.mp h
      exact hrun s' hstep fun _ hcall ↦ by cases hcall
  | _ => cases h

theorem sizedRecords_init (area : Area) : SizedRecords (initDatastructure area) := by
  intro i
  by_cases hi : i = 0
  · subst hi
    simp [initDatastructure, rootInode, zeroInode]
  · simp [initDatastructure, hi, zeroInode]

/-- In every run of `rd_creat`, `rd_chmod`, `rd_open`, `rd_write` and `rd_read`
in which the forbidden calls are harmless, the access modes are enforced. -/
theorem accessModes_enforced (area : Area) (events : List Event)
    (h : PartialRun.Along watchedStep (fun w e _ ↦ ForbiddenIsHarmless w e)
      ⟨initState area, fun _ _ ↦ none⟩ events) :
    PartialRun.Along watchedStep AccessEnforced ⟨initState area, fun _ _ ↦ none⟩ events := by
  refine PartialRun.Along.of_invariant (I := fun w ↦ SizedRecords w.state.store) ?_ ?_
    (sizedRecords_init area) h
  · intro w e w' hsized _ hstep
    exact sizedRecords_watchedStep hsized hstep
  · intro w e w' hsized hharmless hstep
    exact enforced_of_harmless hsized hharmless hstep

/-- An empty write through a read-only descriptor of `f`, and a read through a
write-only descriptor of the empty file `g`. -/
def harmlessCalls : List Event :=
  sampleCalls [.creat sampleName 1 fun _ ↦ 0, .creat secondName 1 fun _ ↦ 0,
    .openPath sampleName 0, .openPath secondName 2, .write 1 [], .read 2 5]

instance (w : Watched area) (cur : Process) (fd : ℤ) (i : ℕ) :
    Decidable (ProtectedWrite w cur fd i) := inferInstanceAs (Decidable (_ ∨ _))

instance (st : Store area) (ino : MyInode) (position : ℤ) :
    Decidable (StoresNoPointer st ino position) := inferInstanceAs (Decidable (_ ∨ _))

instance (st : Store area) (ino : MyInode) (position : ℤ) (input : List UInt8) :
    Decidable (HarmlessWrite st ino position input) := inferInstanceAs (Decidable (_ ∨ _))

instance (st : Store area) (ino : MyInode) (position numBytes : ℤ) :
    Decidable (HarmlessRead st ino position numBytes) := inferInstanceAs (Decidable (_ ∨ _))

def forbiddenIsHarmless (w : Watched area) (e : Event) : Bool :=
  match e.call with
  | .write fd input => ((w.state.table e.cur).fileObject fd).all fun fo ↦
      !decide (ProtectedWrite w e.cur fd fo.inodeIndex) ||
        HarmlessWrite w.state.store (w.state.store.inode fo.inodeIndex) fo.position input
  | .read fd numBytes => w.flag e.cur fd != some 2 ||
      ((w.state.table e.cur).fileObject fd).all fun fo ↦
        HarmlessRead w.state.store (w.state.store.inode fo.inodeIndex) fo.position numBytes
  | _ => true

theorem forbiddenIsHarmless_spec {w : Watched area} {e : Event}
    (h : forbiddenIsHarmless w e = true) : ForbiddenIsHarmless w e := by
  obtain ⟨cur, call⟩ := e
  cases call with
  | write fd input =>
      intro fo hfo hprotected
      simp only [forbiddenIsHarmless, hfo, Option.all_some, Bool.or_eq_true, Bool.not_eq_true',
        decide_eq_true_eq, decide_eq_false_iff_not] at h
      exact h.resolve_left (not_not_intro hprotected)
  | read fd numBytes =>
      intro hflag fo hfo
      simp only [forbiddenIsHarmless, hflag, hfo, Option.all_some, Bool.or_eq_true, bne_self_eq_false,
        Bool.false_eq_true, false_or, decide_eq_true_eq] at h
      exact h
  | _ => trivial

theorem accessModes_enforced_harmless :
    PartialRun.Along watchedStep AccessEnforced ⟨initState sampleArea, fun _ _ ↦ none⟩
        harmlessCalls ∧
      (PartialRun.run watchedStep ⟨initState sampleArea, fun _ _ ↦ none⟩ harmlessCalls).map
        (fun w ↦ (w.flag sampleProcess 1, w.flag sampleProcess 2,
          (w.state.store.inode 1).location 0)) =
        some (some 0, some 2, sampleArea.blockAddr 1) := by
  refine ⟨accessModes_enforced sampleArea harmlessCalls ?_, by decide +kernel⟩
  have htest : PartialRun.check watchedStep forbiddenIsHarmless
      ⟨initState sampleArea, fun _ _ ↦ none⟩ harmlessCalls = true := by
    decide +kernel
  exact PartialRun.along_of_check (P := fun w e _ ↦ ForbiddenIsHarmless w e)
    (fun _ _ _ h ↦ forbiddenIsHarmless_spec h) htest

def openedWith (flag : ℤ) : List Event :=
  sampleCalls [.creat sampleName 1 fun _ ↦ 0, .openPath sampleName flag]

/-- A write through a descriptor that was opened read-only grows the file. -/
theorem write_through_readOnly :
    ¬ PartialRun.Along watchedStep AccessEnforced ⟨initState sampleArea, fun _ _ ↦ none⟩
      (openedWith 0 ++ [⟨sampleProcess, .write 1 [120]⟩]) := by
  have hrun : (PartialRun.run watchedStep ⟨initState sampleArea, fun _ _ ↦ none⟩
      (openedWith 0)).map (fun w ↦ (w.flag sampleProcess 1,
        (w.state.table sampleProcess).fileObject 1, (w.state.store.inode 1).size)) =
      some (some 0, some ⟨1, 0⟩, 0) := by
    decide +kernel
  have hwrite : ((PartialRun.run watchedStep ⟨initState sampleArea, fun _ _ ↦ none⟩
      (openedWith 0)).bind fun w ↦
        (watchedStep w ⟨sampleProcess, .write 1 [120]⟩).map fun w' ↦
          (w'.state.store.inode 1).size) = some 1 := by
    decide +kernel
  intro halong
  obtain ⟨w, hw, hfacts⟩ := Option.map_eq_some_iff.mp hrun
  rw [hw, Option.bind_some] at hwrite
  obtain ⟨w', hw', hsize⟩ := Option.map_eq_some_iff.mp hwrite
  simp only [Prod.mk.injEq] at hfacts
  obtain ⟨hflag, htable, hbefore⟩ := hfacts
  have henforced := halong.of_append hw hw' ⟨1, 0⟩ htable (.inl hflag)
  have hkept := henforced.1
  rw [hsize, hbefore] at hkept
  cases hkept

end OperatingSystem.Filesys
