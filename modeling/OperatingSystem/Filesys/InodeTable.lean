import OperatingSystem.Lib.PartialRun
import OperatingSystem.Lib.SlotTable
import OperatingSystem.Filesys.Inodes

/-!
# Accounting of the inode table

The counter of free records and the cached first free record, over runs of
allocations and releases. Both agree with the table after every call, so an
allocation that `create` permits never takes a record in use and never leaves
the table.
-/

namespace OperatingSystem.Filesys

open SlotTable

variable {area : Area}

def Store.freeInodes (st : Store area) : Finset ℕ :=
  (Finset.range inodeListNum).filter fun i ↦ (st.inode i).operation = 0

/-- The counter is the number of free records, and the cached index is the
smallest of them, or 1024 if there is none. -/
structure InodesAccounted (st : Store area) : Prop where
  freeInodeNumber : st.superblock.freeInodeNumber = st.freeInodes.card
  firstFreeInode : (∃ i < inodeListNum, (st.inode i).operation = 0) →
    IsLeast {i | i < inodeListNum ∧ (st.inode i).operation = 0} st.superblock.firstFreeInode
  exhausted : (∀ i < inodeListNum, (st.inode i).operation ≠ 0) →
    st.superblock.firstFreeInode = inodeListNum

/-- The end of `free_inode`, behind the calls of `free_block` and
`free_parent_directory_entry`. -/
def releaseSlot (st : Store area) (i : ℕ) : Store area :=
  let st := st.setInode i (st.inode i).release
  { st with
    superblock :=
      { st.superblock with
        freeInodeNumber := toUInt16 (st.superblock.freeInodeNumber + 1)
        firstFreeInode :=
          if st.superblock.firstFreeInode > i then toUInt16 i
          else st.superblock.firstFreeInode } }

theorem freeInode_eq (st : Store area) (filename : List UInt8) (i : ℕ) :
    freeInode st filename i = (freeBlock st i).bind fun st ↦
      (freeParentDirectoryEntry st filename (st.inode i).parentIndex).map fun r ↦
        releaseSlot r.2 i := by
  simp only [Option.map_eq_bind]
  rfl

/-- An allocation behind the check of `create`, the release of a slot in use,
or a whole `free_inode` of a record in use. Inode 0 is never released. -/
inductive InodeCall where
  | allocate (parent : ℕ) (mode : ℤ) (type : ObjectType)
  | release (i : ℕ)
  | free (filename : List UInt8) (i : ℕ)

def Store.Releasable (st : Store area) (i : ℕ) : Prop :=
  i ≠ 0 ∧ i < inodeListNum ∧ (st.inode i).operation ≠ 0

instance (st : Store area) (i : ℕ) : Decidable (st.Releasable i) :=
  inferInstanceAs (Decidable (_ ∧ _))

def inodeStep (st : Store area) : InodeCall → Option (Store area)
  | .allocate parent mode type =>
      if st.superblock.freeInodeNumber < 1 then none else allocateInode st parent mode type
  | .release i => if st.Releasable i then some (releaseSlot st i) else none
  | .free filename i => if st.Releasable i then freeInode st filename i else none

/-! ## The table as a slot table -/

def Store.FreeInode (st : Store area) (i : ℕ) : Prop := (st.inode i).operation = 0

instance (st : Store area) : DecidablePred st.FreeInode :=
  fun i ↦ inferInstanceAs (Decidable ((st.inode i).operation = 0))

theorem nextFreeInode_eq_scan (st : Store area) (fuel i : ℕ) :
    nextFreeInode st.inode fuel i = scan st.FreeInode fuel i := by
  induction fuel generalizing i with
  | zero => rfl
  | succ fuel ih =>
      simp only [nextFreeInode, scan, ih]
      rfl

/-- The accounting in terms of the slots. -/
structure SlotsAccounted (st : Store area) : Prop where
  count : st.superblock.freeInodeNumber = (freeSlots st.FreeInode inodeListNum).card
  first : IsFirstFree st.FreeInode inodeListNum st.superblock.firstFreeInode

namespace SlotsAccounted

variable {st st' : Store area}

theorem accounted (h : SlotsAccounted st) : InodesAccounted st where
  freeInodeNumber := h.count
  firstFreeInode := h.first.isLeast
  exhausted := h.first.eq_of_full

/-- With a free record on the counter, the cached record is one. -/
theorem first_lt (h : SlotsAccounted st) (hpos : 1 ≤ st.superblock.freeInodeNumber) :
    st.superblock.firstFreeInode < inodeListNum := by
  apply h.first.lt_iff.mpr
  apply freeSlots_nonempty_iff.mp
  apply Finset.card_pos.mp
  rw [← h.count]
  exact hpos

theorem count_le (h : SlotsAccounted st) : st.superblock.freeInodeNumber ≤ 1024 := by
  rw [h.count]
  apply (Finset.card_filter_le _ _).trans
  rw [Finset.card_range]
  rfl

theorem init (area : Area) : SlotsAccounted (initDatastructure area) := by
  have hfree : ∀ i, (initDatastructure area).FreeInode i ↔ i ≠ 0 := by
    intro i
    by_cases hi : i = 0
    · simp [Store.FreeInode, initDatastructure, rootInode, hi]
    · simp [Store.FreeInode, initDatastructure, zeroInode, hi]
  constructor
  · have hslots : freeSlots (initDatastructure area).FreeInode inodeListNum =
        (Finset.range inodeListNum).erase 0 := by
      ext i
      simp [freeSlots, hfree, and_comm]
    rw [hslots, Finset.card_erase_of_mem (by simp), Finset.card_range]
    rfl
  · refine ⟨?_, fun i hi ↦ ?_, fun _ ↦ (hfree 1).mpr one_ne_zero⟩
    · change 1 ≤ 1024
      omega
    · obtain rfl : i = 0 := Nat.lt_one_iff.mp hi
      rw [hfree, not_not]

theorem of_same (h : SlotsAccounted st)
    (hop : ∀ i, (st'.inode i).operation = (st.inode i).operation)
    (hsuper : st'.superblock.freeInodeNumber = st.superblock.freeInodeNumber)
    (hfirst : st'.superblock.firstFreeInode = st.superblock.firstFreeInode) :
    SlotsAccounted st' := by
  have hfree : st'.FreeInode = st.FreeInode := by
    funext i
    simp only [Store.FreeInode, hop]
  constructor
  · rw [hsuper, h.count]
    simp only [freeSlots, hfree]
  · rw [hfirst, hfree]
    exact h.first

theorem allocateInode {parent : ℕ} {mode : ℤ} {type : ObjectType} (h : SlotsAccounted st)
    (hpos : 1 ≤ st.superblock.freeInodeNumber)
    (ha : allocateInode st parent mode type = some st') : SlotsAccounted st' := by
  obtain ⟨hlt, hinode, -, -, hsuper⟩ := allocateInode_eq_some ha
  have htaken : ∀ i, st'.FreeInode i ↔ st.FreeInode i ∧ i ≠ st.superblock.firstFreeInode := by
    intro i
    by_cases hi : i = st.superblock.firstFreeInode
    · simp [Store.FreeInode, hinode, hi, MyInode.renew]
    · simp [Store.FreeInode, hinode, hi]
  constructor
  · have hcard := card_take hlt (h.first.isFree hlt) htaken
    have hle := h.count_le
    rw [h.count] at hpos hle
    rw [hsuper, h.count]
    dsimp only
    simp only [toUInt16]
    omega
  · rw [hsuper]
    dsimp only
    rw [nextFreeInode_eq_scan]
    exact h.first.take hlt htaken

theorem releaseSlot {i : ℕ} (h : SlotsAccounted st) (hi : st.Releasable i) :
    SlotsAccounted (releaseSlot st i) := by
  obtain ⟨-, hlt, hused⟩ := hi
  have hfreed : ∀ j, (Filesys.releaseSlot st i).FreeInode j ↔ st.FreeInode j ∨ j = i := by
    intro j
    by_cases hj : j = i
    · simp [Store.FreeInode, Filesys.releaseSlot, hj, MyInode.release]
    · simp [Store.FreeInode, Filesys.releaseSlot, hj, Store.setInode]
  constructor
  · have hcard := card_release hlt hused hfreed
    have hle : (freeSlots (Filesys.releaseSlot st i).FreeInode inodeListNum).card ≤ 1024 := by
      apply (Finset.card_filter_le _ _).trans
      rw [Finset.card_range]
      rfl
    rw [hcard] at hle ⊢
    rw [← h.count] at hle ⊢
    apply toUInt16_of_lt (n := st.superblock.freeInodeNumber + 1)
    omega
  · have hmin : (Filesys.releaseSlot st i).superblock.firstFreeInode =
        min st.superblock.firstFreeInode i := by
      have hi : i < 1024 := hlt
      change (if st.superblock.firstFreeInode > i then toUInt16 i
        else st.superblock.firstFreeInode) = _
      by_cases hgt : st.superblock.firstFreeInode > i
      · rw [if_pos hgt, min_eq_right (le_of_lt hgt)]
        apply toUInt16_of_lt
        omega
      · rw [if_neg hgt, min_eq_left (not_lt.mp hgt)]
    rw [hmin]
    exact h.first.release hlt hfreed

theorem step {c : InodeCall} (h : SlotsAccounted st) (hs : inodeStep st c = some st') :
    SlotsAccounted st' := by
  cases c with
  | allocate parent mode type =>
      simp only [inodeStep, Option.ite_none_left_eq_some, not_lt] at hs
      exact h.allocateInode hs.1 hs.2
  | release i =>
      obtain ⟨hi, hs⟩ := Option.ite_none_right_eq_some.mp hs
      cases hs
      exact h.releaseSlot hi
  | free filename i =>
      obtain ⟨hi, hs⟩ := Option.ite_none_right_eq_some.mp hs
      rw [freeInode_eq] at hs
      obtain ⟨st₁, hblock, hs⟩ := Option.bind_eq_some_iff.mp hs
      obtain ⟨⟨ret, st₂⟩, hentry, rfl⟩ := Option.map_eq_some_iff.mp hs
      have hframe := FreeFrame.of_freeBlock hblock
      have hop : ∀ j, (st₂.inode j).operation = (st.inode j).operation := by
        intro j
        rw [freeParentDirectoryEntry_operation hentry, hframe.inode]
      have hsuper := (freeParentDirectoryEntry_same hentry).2
      have h₂ : SlotsAccounted st₂ := by
        apply h.of_same hop
        · rw [hsuper, hframe.freeInodeNumber]
        · rw [hsuper, hframe.firstFreeInode]
      apply h₂.releaseSlot
      exact ⟨hi.1, hi.2.1, by rw [hop]; exact hi.2.2⟩

end SlotsAccounted

/-- The accounting holds after every run of allocations and releases from the
formatted disk, and an allocation that `create` permits takes a free record of
the table. -/
theorem inode_accounting (area : Area) (calls : List InodeCall) (st : Store area)
    (hrun : PartialRun.run inodeStep (initDatastructure area) calls = some st) :
    InodesAccounted st ∧ (1 ≤ st.superblock.freeInodeNumber →
      st.superblock.firstFreeInode < inodeListNum ∧
      (st.inode st.superblock.firstFreeInode).operation = 0 ∧
      ∀ parent mode type, (inodeStep st (.allocate parent mode type)).isSome = true) := by
  have h : SlotsAccounted st :=
    PartialRun.invariant_of_run (fun _ _ _ hs ↦ hs.step) (SlotsAccounted.init area) hrun
  refine ⟨h.accounted, fun hpos ↦ ?_⟩
  have hlt := h.first_lt hpos
  refine ⟨hlt, h.first.isFree hlt, fun parent mode type ↦ ?_⟩
  rw [inodeStep, if_neg (not_lt.mpr hpos), Filesys.allocateInode, Store.inodeAt_eq hlt]
  rfl

/-- Two files are created and the first one is removed. -/
theorem inode_accounting_reuse : ∃ st,
    PartialRun.run inodeStep (initDatastructure sampleArea)
      [.allocate 0 0 .reg, .allocate 0 0 .reg, .release 1] = some st ∧ InodesAccounted st := by
  obtain ⟨st, hrun⟩ := Option.isSome_iff_exists.mp (show (PartialRun.run inodeStep
    (initDatastructure sampleArea)
      [.allocate 0 0 .reg, .allocate 0 0 .reg, .release 1]).isSome = true by decide +kernel)
  exact ⟨st, hrun, (inode_accounting sampleArea _ st hrun).1⟩

end OperatingSystem.Filesys
