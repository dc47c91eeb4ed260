import OperatingSystem.Filesys.BlockMaps

/-!
# Free-space accounting

The free counter, the cached first free block and the bitmap, over runs of
allocations and releases. Nothing but the formatted disk is accounted for: the
first block that is taken caches a used block as the first free one, and
releasing never clears a bit.
-/

namespace OperatingSystem.Filesys

variable {area : Area}

/-- The counter equals the number of clear bits, and the cached index is the
lowest clear bit, if there is one. -/
def Accounted (st : Store area) : Prop :=
  st.superblock.freeBlockNumber =
      ((Finset.range allocatableSpaceSize).filter fun b ↦ st.used b = false).card ∧
    ((∃ b < allocatableSpaceSize, st.used b = false) →
      IsLeast {b | b < allocatableSpaceSize ∧ st.used b = false} st.superblock.firstFreeBlock)

/-- The bits set by a step. -/
def newBits (st st' : Store area) : Finset ℕ :=
  (Finset.range allocatableSpaceSize).filter fun b ↦ st.used b = false ∧ st'.used b = true

/-- One call of the space management on an inode in use, or the release of a
used block. Inodes come into use by `allocate_inode`, as long as whole records
are left. -/
inductive SpaceCall where
  | allocateInode (parent : ℕ) (mode : ℤ) (type : ObjectType)
  | allocateBlock (i : ℕ)
  | freeBlock (i : ℕ)
  | freeBitmap (block : ℕ)

def spaceStep (st : Store area) : SpaceCall → Option (Store area)
  | .allocateInode parent mode type =>
      if st.superblock.firstFreeInode < wholeInodeRecords then allocateInode st parent mode type
      else none
  | .allocateBlock i => if st.InUse i then (allocateBlock st i).map Prod.snd else none
  | .freeBlock i => if st.InUse i then freeBlock st i else none
  | .freeBitmap block =>
      if block < allocatableSpaceSize ∧ st.used block = true then
        freeBitmap st (area.blockAddr block)
      else none

/-- Each allocation turns the chosen clear bit into a set one, and as many bits
are set as the counter drops. -/
def AllocatesExactly (st st' : Store area) : Prop :=
  (∀ b, st.used b = true → st'.used b = true) ∧
    (newBits st st').card + st'.superblock.freeBlockNumber = st.superblock.freeBlockNumber ∧
    (newBits st st' ≠ ∅ → st.superblock.firstFreeBlock ∈ newBits st st')

/-- The blocks of the slots that the walk frees are clear afterwards, and no
bit outside the file changes. -/
def FreesExactly (st : Store area) (i : ℕ) (st' : Store area) : Prop :=
  (∀ b, st'.used b ≠ st.used b → b ∈ st.fileBlocks (st.inode i)) ∧
    (0 ≤ (st.inode i).blockNumber → ∀ k < 9, (∀ j ≤ k, (st.inode i).location j ≠ 0) →
      ∀ b, (st.inode i).location k = area.blockAddr b → st'.used b = false)

def SpaceExact (st : Store area) (c : SpaceCall) (st' : Store area) : Prop :=
  match c with
  | .allocateInode .. => st'.used = st.used
  | .allocateBlock _ => AllocatesExactly st st'
  | .freeBlock i => FreesExactly st i st'
  | .freeBitmap block => st'.used block = false ∧ ∀ b, b ≠ block → st'.used b = st.used b

/-- The call neither takes nor releases a block: the allocation is refused by
the checks at its start, the released inode owns nothing. -/
def TakesNothing (st : Store area) : SpaceCall → Prop
  | .allocateInode .. => True
  | .allocateBlock i => RefusesBlock st.superblock (st.inode i)
  | .freeBlock i => (st.inode i).blockNumber < 0 ∨
      ((st.inode i).location 0 = 0 ∧ (st.inode i).blockNumber < 8)
  | .freeBitmap _ => False

/-- No block was taken or released since the disk was formatted. -/
structure Pristine (st : Store area) : Prop where
  bitmap : st.bitmap = (initDatastructure area).bitmap
  freeBlockNumber : st.superblock.freeBlockNumber = 7930
  firstFreeBlock : st.superblock.firstFreeBlock = 1
  location : ∀ i, (st.inode i).location = ((initDatastructure area).inode i).location
  blockNumber : ∀ i, (st.inode i).blockNumber < 8

theorem init_location_zero {i : ℕ}
    (h : ((initDatastructure area).inode i).location 0 ≠ 0) :
    i = 0 ∧ ((initDatastructure area).inode i).location 0 = area.blockAddr 0 := by
  by_cases hi : i = 0
  · subst hi
    simp [initDatastructure, rootInode, Area.blockAddr]
  · exfalso
    apply h
    simp [initDatastructure, hi, zeroInode]

theorem pristine_init (area : Area) : Pristine (initDatastructure area) where
  bitmap := rfl
  freeBlockNumber := rfl
  firstFreeBlock := rfl
  location _ := rfl
  blockNumber i := by
    by_cases hi : i = 0
    · subst hi
      simp [initDatastructure, rootInode, zeroInode]
    · simp [initDatastructure, hi, zeroInode]

namespace Pristine

theorem used_iff {st : Store area} (h : Pristine st) (b : ℕ) : st.used b = decide (b = 0) := by
  simp only [Store.used, h.bitmap, initDatastructure]
  by_cases hbyte : b / 8 = 0
  · rw [hbyte, Function.update_self]
    have hb : b < 8 := by omega
    interval_cases b <;> decide
  · rw [Function.update_of_ne hbyte]
    have hb : b ≠ 0 := by omega
    simp [hb]

theorem accounted {st : Store area} (h : Pristine st) : Accounted st := by
  have hclear : ((Finset.range allocatableSpaceSize).filter fun b ↦ st.used b = false) =
      (Finset.range allocatableSpaceSize).erase 0 := by
    ext b
    simp [h.used_iff, and_comm]
  constructor
  · rw [hclear, h.freeBlockNumber, Finset.card_erase_of_mem (by simp), Finset.card_range]
    rfl
  · intro _
    rw [h.firstFreeBlock]
    constructor
    · simp [h.used_iff]
    · rintro b ⟨-, hb⟩
      simp only [h.used_iff, decide_eq_false_iff_not] at hb
      omega

theorem newBits_self (st : Store area) : newBits st st = ∅ := by
  simp [newBits]

theorem step {st st' : Store area} {c : SpaceCall} (h : Pristine st)
    (hc : TakesNothing st c) (hs : spaceStep st c = some st') :
    Pristine st' ∧ SpaceExact st c st' := by
  cases c with
  | allocateInode parent mode type =>
      simp only [spaceStep, Option.ite_none_right_eq_some] at hs
      obtain ⟨ino, hino, hs⟩ := Option.bind_eq_some_iff.mp hs.2
      obtain ⟨-, rfl⟩ := Store.inodeAt_eq_some hino
      cases hs
      refine ⟨⟨h.bitmap, h.freeBlockNumber, h.firstFreeBlock, fun i ↦ ?_, fun i ↦ ?_⟩, rfl⟩
      · rw [← h.location i]
        apply Store.update_field MyInode.location
        rfl
      · by_cases hi : i = st.superblock.firstFreeInode
        · subst hi
          simp [MyInode.renew]
        · simpa [Store.setInode, hi] using h.blockNumber i
  | allocateBlock i =>
      simp only [spaceStep, Option.ite_none_right_eq_some] at hs
      rw [allocateBlock_of_refuses hc] at hs
      obtain rfl : st = st' := Option.some.inj hs.2
      exact ⟨h, fun _ hb ↦ hb, by simp [newBits_self], by simp [newBits_self]⟩
  | freeBlock i =>
      simp only [spaceStep, Option.ite_none_right_eq_some] at hs
      obtain rfl : st = st' := Option.some.inj ((freeBlock_of_empty hc).symm.trans hs.2)
      refine ⟨h, fun b hb ↦ (hb rfl).elim, fun hpos k _ hslots b hb ↦ ?_⟩
      rcases hc with hneg | ⟨hloc, -⟩
      · omega
      · exact (hslots 0 (Nat.zero_le k) hloc).elim
  | freeBitmap block => exact hc.elim

/-- A call that takes or releases a block breaks the accounting. -/
theorem takesNothing {st st' : Store area} {c : SpaceCall} (h : Pristine st)
    (hs : spaceStep st c = some st') (hexact : SpaceExact st c st') (hacc : Accounted st') :
    TakesNothing st c := by
  cases c with
  | allocateInode parent mode type => trivial
  | allocateBlock i =>
      simp only [spaceStep, Option.ite_none_right_eq_some, Option.map_eq_some_iff] at hs
      obtain ⟨-, ⟨ptr, st''⟩, halloc, rfl⟩ := hs
      by_contra hrefuse
      have htook := tookBlock_of_allocateBlock (by rw [h.firstFreeBlock]) halloc hrefuse
      have hclear : ∃ b < allocatableSpaceSize, st''.used b = false :=
        ⟨8, by simp, by rw [htook.same 8 (le_refl 8), h.used_iff]; rfl⟩
      have hleast := (hacc.2 hclear).1.2
      rw [htook.firstFreeBlock, htook.keep 0 (by rw [h.used_iff]; rfl)] at hleast
      cases hleast
  | freeBlock i =>
      simp only [spaceStep, Option.ite_none_right_eq_some] at hs
      by_contra hnot
      simp only [TakesNothing, not_or, not_and, not_lt] at hnot
      have hloc : (st.inode i).location 0 ≠ 0 := by
        intro hzero
        have hlt := h.blockNumber i
        have hge := hnot.2 hzero
        omega
      have haddr := h.location i ▸ (init_location_zero (h.location i ▸ hloc)).2
      have hfreed := hexact.2 hnot.1 0 (by omega)
        (fun j hj ↦ by obtain rfl : j = 0 := Nat.le_zero.mp hj; exact hloc) 0 haddr
      have hkept := (FreeFrame.of_freeBlock hs.2).used 0 (by rw [h.used_iff]; rfl)
      rw [hfreed] at hkept
      cases hkept
  | freeBitmap block =>
      simp only [spaceStep, Option.ite_none_right_eq_some] at hs
      have hkept := (FreeFrame.of_freeBitmap hs.2).used block hs.1.2
      rw [hexact.1] at hkept
      cases hkept

end Pristine

/-- The accounting is right along exactly those runs from the formatted disk
in which no call takes or releases a block. -/
theorem accounting_iff_takesNothing (area : Area) (calls : List SpaceCall) :
    (Accounted (initDatastructure area) ∧
      PartialRun.Along spaceStep (fun st c st' ↦ SpaceExact st c st' ∧ Accounted st')
        (initDatastructure area) calls) ↔
      PartialRun.Along spaceStep (fun st c _ ↦ TakesNothing st c)
        (initDatastructure area) calls := by
  have hinit := pristine_init area
  rw [and_iff_right hinit.accounted]
  apply PartialRun.along_iff_of_invariant (I := Pristine) _ _ calls hinit
  · intro st c st' h hc hs
    exact (h.step hc hs).1
  · intro st c st' h hs
    constructor
    · rintro ⟨hexact, hacc⟩
      exact h.takesNothing hs hexact hacc
    · intro hc
      obtain ⟨hnext, hexact⟩ := h.step hc hs
      exact ⟨hexact, hnext.accounted⟩

/-- One block for the root directory: the first free block is then block 0,
which is in use, while block 2 is free. -/
theorem allocation_breaks_accounting :
    ∃ st, PartialRun.run spaceStep (initDatastructure sampleArea) [.allocateBlock 0] = some st ∧
      ¬ Accounted st := by
  obtain ⟨st, hrun⟩ := Option.isSome_iff_exists.mp (show (PartialRun.run spaceStep
    (initDatastructure sampleArea) [.allocateBlock 0]).isSome = true by decide +kernel)
  have hfacts : (PartialRun.run spaceStep (initDatastructure sampleArea)
      [.allocateBlock 0]).map (fun st ↦
        (st.superblock.firstFreeBlock, st.used 0, st.used 2)) = some (0, true, false) := by
    decide +kernel
  rw [hrun, Option.map_some, Option.some.injEq, Prod.mk.injEq, Prod.mk.injEq] at hfacts
  refine ⟨st, hrun, fun hacc ↦ ?_⟩
  have hleast := (hacc.2 ⟨2, by simp, hfacts.2.2⟩).1.2
  rw [hfacts.1, hfacts.2.1] at hleast
  cases hleast

end OperatingSystem.Filesys
