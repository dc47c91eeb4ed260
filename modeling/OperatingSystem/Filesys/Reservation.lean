import OperatingSystem.Filesys.FreeSpace
import OperatingSystem.Filesys.Writing

/-!
# Reservation of blocks

`allocate_block` takes one block for the data and one for each index block that
is missing. Its checks ask for the first index block of each level by the number
of the new block, and for no other.
-/

namespace OperatingSystem.Filesys

open ByteMemory

variable {area : Area}

/-! ## Blocks taken -/

/-- The store reached by the elementary actions of `allocate_block`, and the
blocks that were marked on the way. -/
inductive TakesBlocks (i : ℕ) (st : Store area) : List ℕ → Store area → Prop where
  | refl : TakesBlocks i st [] st
  | take {blocks : List ℕ} {st₁ st₂ : Store area} (h : TakesBlocks i st blocks st₁)
      (ht : allocateBitmap st₁ st₁.superblock.firstFreeBlock = some st₂) :
      TakesBlocks i st (blocks ++ [st₁.superblock.firstFreeBlock]) st₂
  | record {blocks : List ℕ} {st₁ : Store area} (h : TakesBlocks i st blocks st₁)
      (loc : ℕ → ℕ) (bn lbo : ℤ) :
      TakesBlocks i st blocks (st₁.setInode i { st₁.inode i with
        location := loc, blockNumber := bn, lastBlockOffset := lbo })
  | bytes {blocks : List ℕ} {st₁ st₂ : Store area} (h : TakesBlocks i st blocks st₁) {addr : ℕ}
      {bs : List UInt8} (hs : st₁.storeBytes addr bs = some st₂) : TakesBlocks i st blocks st₂

namespace TakesBlocks

variable {i : ℕ} {st st' : Store area} {blocks : List ℕ}

theorem head (h : TakesBlocks i st blocks st') :
    (blocks = [] ∧ st'.superblock = st.superblock) ∨
      ∃ rest, blocks = st.superblock.firstFreeBlock :: rest := by
  induction h with
  | refl => exact .inl ⟨rfl, rfl⟩
  | take _ ht ih =>
      right
      rcases ih with ⟨rfl, hsuper⟩ | ⟨rest, rfl⟩
      · exact ⟨[], by rw [hsuper]; rfl⟩
      · exact ⟨_, List.cons_append ..⟩
  | record _ loc bn lbo ih => exact ih
  | bytes _ hs ih =>
      rw [(Store.storeBytes_frame hs).2]
      exact ih

theorem lt (h : TakesBlocks i st blocks st')
    (hfirst : st.superblock.firstFreeBlock < allocatableSpaceSize) :
    (∀ b ∈ blocks, b < allocatableSpaceSize) ∧
      st'.superblock.firstFreeBlock < allocatableSpaceSize := by
  induction h with
  | refl =>
      refine ⟨fun b hb ↦ ?_, hfirst⟩
      cases hb
  | @take blocks st₁ st₂ _ ht ih =>
      rw [allocateBitmap_eq ih.2] at ht
      cases ht
      refine ⟨fun b hb ↦ ?_, lt_of_le_of_lt (Nat.div_mul_le_self ..) ih.2⟩
      rcases List.mem_append.mp hb with hb | hb
      · exact ih.1 b hb
      · rw [List.mem_singleton.mp hb]
        exact ih.2
  | record _ loc bn lbo ih => exact ih
  | bytes _ hs ih =>
      rw [(Store.storeBytes_frame hs).2]
      exact ih

/-- As long as the counter does not run below zero, it falls by the number of
blocks. -/
theorem freeBlockNumber (h : TakesBlocks i st blocks st')
    (hfirst : st.superblock.firstFreeBlock < allocatableSpaceSize)
    (hword : st.superblock.freeBlockNumber < 65536)
    (hle : blocks.length ≤ st.superblock.freeBlockNumber) :
    st'.superblock.freeBlockNumber + blocks.length = st.superblock.freeBlockNumber := by
  induction h with
  | refl => rfl
  | @take blocks st₁ st₂ hs ht ih =>
      rw [List.length_append, List.length_singleton] at hle ⊢
      have hrest := ih (by omega)
      rw [allocateBitmap_eq (hs.lt hfirst).2] at ht
      cases ht
      have hpred : toUInt16 ((st₁.superblock.freeBlockNumber : ℤ) - 1) =
          st₁.superblock.freeBlockNumber - 1 := by
        rw [← toUInt16_of_lt (show st₁.superblock.freeBlockNumber - 1 < 65536 by omega)]
        congr 1
        omega
      simp only [Store.takeBlock, hpred]
      omega
  | record _ loc bn lbo ih => exact ih hle
  | bytes _ hs ih =>
      rw [(Store.storeBytes_frame hs).2]
      exact ih hle

theorem setSlot (h : TakesBlocks i st blocks st') (k ptr : ℕ) :
    TakesBlocks i st blocks (st'.setSlot i k ptr) := h.record _ _ _

end TakesBlocks

/-! ## Blocks needed -/

/-- One block for the data, and one for each index block that is missing on the
way to it. -/
def blocksNeeded (st : Store area) (ino : MyInode) : ℕ :=
  let blockNum := ino.blockNumber + 1
  if blockNum < 8 then 1
  else if blockNum < 72 then if ino.location 8 = 0 then 2 else 1
  else if ino.location 9 = 0 then 3
  else if st.entry (ino.location 9) ((blockNum.toNat - 72) / 64) = 0 then 2 else 1

/-- The index entries that lead to the new block lie in the data area, as far as
there are any. -/
def IndexInside (st : Store area) (ino : MyInode) : Prop :=
  let blockNum := ino.blockNumber + 1
  0 ≤ blockNum ∧
  (8 ≤ blockNum → blockNum < 72 → ino.location 8 ≠ 0 →
    area.Holds (ino.location 8 + 4 * (blockNum.toNat - 8)) 4) ∧
  (72 ≤ blockNum → ino.location 9 ≠ 0 →
    area.Holds (ino.location 9 + 4 * ((blockNum.toNat - 72) / 64)) 4 ∧
      (st.entry (ino.location 9) ((blockNum.toNat - 72) / 64) ≠ 0 →
        area.Holds (st.entry (ino.location 9) ((blockNum.toNat - 72) / 64) +
          4 * ((blockNum.toNat - 72) % 64)) 4))

/-- A call refuses and changes nothing, or it returns a block of the data area
and the counter falls by the number of blocks that it marked, all of them in the
data area. It refuses where fewer blocks are free than it would take. -/
def ReservesBlocks (st : Store area) (i : ℕ) : Prop :=
  ∃ ptr st', allocateBlock st i = some (ptr, st') ∧
    ((ptr = 0 ∧ st' = st) ∨
      ∃ blocks b, TakesBlocks i st (blocks ++ [b]) st' ∧ ptr = area.blockAddr b ∧
        (∀ c ∈ blocks ++ [b], c < allocatableSpaceSize) ∧ blocks.length + 1 ≤ 3 ∧
        st'.superblock.freeBlockNumber + (blocks.length + 1) = st.superblock.freeBlockNumber) ∧
    (st.superblock.freeBlockNumber < blocksNeeded st (st.inode i) → ptr = 0)

section Taken

variable {st : Store area} {i : ℕ}

theorem installSingle_takes {st₁ st' : Store area} {blocks : List ℕ} {block num ptr : ℕ}
    (h : TakesBlocks i st (blocks ++ [block]) st₁)
    (hi : installSingle st₁ i block num = some (ptr, st')) :
    (∃ blocks' b, TakesBlocks i st (blocks' ++ [b]) st' ∧ ptr = area.blockAddr b ∧
      blocks'.length = blocks.length + if (st₁.inode i).location 8 = 0 then 1 else 0) ∧
    ((st₁.inode i).location 8 ≠ 0 →
      area.Holds ((st₁.inode i).location 8 + 4 * (num - 8)) 4) := by
  simp only [installSingle] at hi
  split at hi
  · next hnull =>
    obtain ⟨st₂, h₂, hi⟩ := Option.bind_eq_some_iff.mp hi
    obtain ⟨st₃, h₃, hi⟩ := Option.bind_eq_some_iff.mp hi
    cases hi
    refine ⟨⟨_, _, ((h.setSlot ..).take h₂).bytes h₃, rfl, ?_⟩, fun hne ↦ (hne hnull).elim⟩
    rw [if_pos hnull, List.length_append, List.length_singleton]
  · next hne =>
    obtain ⟨st₂, h₂, hi⟩ := Option.bind_eq_some_iff.mp hi
    cases hi
    have hholds := (Store.storeBytes_eq_some h₂).1
    rw [length_leBytes] at hholds
    exact ⟨⟨_, _, h.bytes h₂, rfl, by rw [if_neg hne]; rfl⟩, fun _ ↦ hholds⟩

theorem installDouble_takes {st₁ st' : Store area} {blocks : List ℕ} {block num ptr : ℕ}
    (h : TakesBlocks i st (blocks ++ [block]) st₁)
    (hi : installDouble st₁ i block num = some (ptr, st')) :
    (∃ blocks' b, TakesBlocks i st (blocks' ++ [b]) st' ∧ ptr = area.blockAddr b ∧
      blocks'.length = blocks.length + if (st₁.inode i).location 9 = 0 then 2
        else if st₁.entry ((st₁.inode i).location 9) ((num - 72) / 64) = 0 then 1 else 0) ∧
    ((st₁.inode i).location 9 ≠ 0 →
      area.Holds ((st₁.inode i).location 9 + 4 * ((num - 72) / 64)) 4 ∧
        (st₁.entry ((st₁.inode i).location 9) ((num - 72) / 64) ≠ 0 →
          area.Holds (st₁.entry ((st₁.inode i).location 9) ((num - 72) / 64) +
            4 * ((num - 72) % 64)) 4)) := by
  simp only [installDouble] at hi
  split at hi
  · next hnull =>
    obtain ⟨st₂, h₂, hi⟩ := Option.bind_eq_some_iff.mp hi
    obtain ⟨st₃, h₃, hi⟩ := Option.bind_eq_some_iff.mp hi
    obtain ⟨st₄, h₄, hi⟩ := Option.bind_eq_some_iff.mp hi
    obtain ⟨single, -, hi⟩ := Option.bind_eq_some_iff.mp hi
    obtain ⟨st₅, h₅, hi⟩ := Option.bind_eq_some_iff.mp hi
    cases hi
    refine ⟨⟨_, _, ((((h.setSlot ..).take h₂).bytes h₃).take h₄).bytes h₅, rfl, ?_⟩,
      fun hne ↦ (hne hnull).elim⟩
    rw [if_pos hnull, List.length_append, List.length_append, List.length_singleton,
      List.length_singleton]
  · next hne =>
    obtain ⟨single, hload, hi⟩ := Option.bind_eq_some_iff.mp hi
    obtain ⟨hdouble, rfl⟩ := loadWord_entry_eq hne hload
    split at hi
    · next hzero =>
      obtain ⟨st₂, h₂, hi⟩ := Option.bind_eq_some_iff.mp hi
      obtain ⟨st₃, h₃, hi⟩ := Option.bind_eq_some_iff.mp hi
      obtain ⟨second, -, hi⟩ := Option.bind_eq_some_iff.mp hi
      obtain ⟨st₄, h₄, hi⟩ := Option.bind_eq_some_iff.mp hi
      cases hi
      refine ⟨⟨_, _, ((h.bytes h₂).take h₃).bytes h₄, rfl, ?_⟩,
        fun _ ↦ ⟨hdouble, fun hentry ↦ (hentry hzero).elim⟩⟩
      rw [if_neg hne, if_pos hzero, List.length_append, List.length_singleton]
    · next hentry =>
      obtain ⟨st₂, h₂, hi⟩ := Option.bind_eq_some_iff.mp hi
      cases hi
      have hholds := (Store.storeBytes_eq_some h₂).1
      rw [length_leBytes] at hholds
      refine ⟨⟨_, _, h.bytes h₂, rfl, ?_⟩, fun _ ↦ ⟨hdouble, fun _ ↦ hholds⟩⟩
      rw [if_neg hne, if_neg hentry]
      rfl

/-- A call that is not refused marks as many blocks as it needs and returns the
last of them. -/
theorem allocateBlock_takes {st' : Store area} {ptr : ℕ}
    (hrefuse : ¬ RefusesBlock st.superblock (st.inode i))
    (h : allocateBlock st i = some (ptr, st')) :
    (∃ blocks b, TakesBlocks i st (blocks ++ [b]) st' ∧ ptr = area.blockAddr b ∧
      blocks.length + 1 = blocksNeeded st (st.inode i)) ∧ IndexInside st (st.inode i) := by
  simp only [allocateBlock, hrefuse, if_false] at h
  obtain ⟨st₁, h₁, h⟩ := Option.bind_eq_some_iff.mp h
  obtain ⟨hinode, hspace, -⟩ := allocateBitmap_eq_some h₁
  have htaken := ((@TakesBlocks.refl _ i st).take h₁).record (st₁.inode i).location
    ((st.inode i).blockNumber + 1) 0
  have hentry : ∀ record index k, (st₁.setInode i record).entry index k = st.entry index k := by
    intro record index k
    rw [Store.entry, Store.entry, Store.setInode_space, hspace]
  simp only [IndexInside, blocksNeeded]
  split at h
  · next hdirect =>
    split at h
    · next hpos =>
      cases h
      refine ⟨⟨[], _, htaken.setSlot .., rfl, by rw [if_pos hdirect]; rfl⟩, hpos,
        fun hlow ↦ by omega, fun hlow ↦ by omega⟩
    · cases h
  · next hdirect =>
    split at h
    · next hsingle =>
      obtain ⟨⟨blocks, b, hblocks, hptr, hcount⟩, hholds⟩ :=
        installSingle_takes htaken h
      simp only [Store.setInode_inode, hinode] at hcount hholds
      refine ⟨⟨blocks, b, hblocks, hptr, ?_⟩, by omega, fun _ _ ↦ hholds, fun hlow ↦ by omega⟩
      rw [if_neg hdirect, if_pos hsingle, hcount, List.length_nil]
      split <;> rfl
    · next hsingle =>
      obtain ⟨⟨blocks, b, hblocks, hptr, hcount⟩, hholds⟩ :=
        installDouble_takes htaken h
      simp only [Store.setInode_inode, hinode, hentry] at hcount hholds
      refine ⟨⟨blocks, b, hblocks, hptr, ?_⟩, by omega, fun _ hlow ↦ by omega, fun _ ↦ hholds⟩
      rw [if_neg hdirect, if_neg hsingle, hcount, List.length_nil]
      split
      · rfl
      · split <;> rfl

@[simp] theorem takeBlock_firstFreeBlock (st : Store area) (block : ℕ) :
    (st.takeBlock block).superblock.firstFreeBlock = block / 8 * 8 := rfl

theorem installSingle_defined {block num : ℕ}
    (hfirst : st.superblock.firstFreeBlock < allocatableSpaceSize)
    (hblock : block < allocatableSpaceSize)
    (hinside : (st.inode i).location 8 ≠ 0 →
      area.Holds ((st.inode i).location 8 + 4 * (num - 8)) 4) :
    ∃ r, installSingle st i block num = some r := by
  by_cases hnull : (st.inode i).location 8 = 0
  · have hstore : area.Holds (area.blockAddr block) 4 := holds_blockStart hblock (by omega)
    simp only [installSingle, hnull, if_true, Store.setSlot, Store.setInode_superblock,
      allocateBitmap_eq hfirst, Store.storePtr_eq hstore, Option.bind_eq_bind, Option.bind_some]
    exact ⟨_, rfl⟩
  · simp only [installSingle, hnull, if_false, Store.storePtr_eq (hinside hnull),
      Option.bind_eq_bind, Option.bind_some]
    exact ⟨_, rfl⟩

theorem installDouble_defined {block num : ℕ}
    (hfirst : st.superblock.firstFreeBlock < allocatableSpaceSize)
    (hblock : block < allocatableSpaceSize)
    (hinside : (st.inode i).location 9 ≠ 0 →
      area.Holds ((st.inode i).location 9 + 4 * ((num - 72) / 64)) 4 ∧
        (st.entry ((st.inode i).location 9) ((num - 72) / 64) ≠ 0 →
          area.Holds (st.entry ((st.inode i).location 9) ((num - 72) / 64) +
            4 * ((num - 72) % 64)) 4)) :
    ∃ r, installDouble st i block num = some r := by
  have hstore : ∀ b < allocatableSpaceSize, area.Holds (area.blockAddr b) 4 := fun b hb ↦
    holds_blockStart hb (by omega)
  have hnext : st.superblock.firstFreeBlock / 8 * 8 < allocatableSpaceSize :=
    lt_of_le_of_lt (Nat.div_mul_le_self ..) hfirst
  by_cases hnull : (st.inode i).location 9 = 0
  · have hload : ∀ (st' : Store area) m, st'.space = writeBytes m (area.blockAddr block)
        (leBytes 4 (area.blockAddr st.superblock.firstFreeBlock)) →
        st'.loadWord (area.blockAddr block) 4 =
          some (area.blockAddr st.superblock.firstFreeBlock) := fun st' m hspace ↦
      Store.loadWord_stored (hstore block hblock) (Area.blockAddr_lt hfirst) hspace
    simp only [installDouble, hnull, if_true, Store.setSlot, Store.setInode_superblock,
      allocateBitmap_eq hfirst, Store.storePtr_eq (hstore block hblock), Option.bind_eq_bind,
      Option.bind_some, takeBlock_firstFreeBlock, allocateBitmap_eq hnext]
    rw [hload _ _ rfl, Option.bind_some, Store.storePtr_eq (hstore _ hfirst)]
    exact ⟨_, rfl⟩
  · obtain ⟨hdouble, hsecond⟩ := hinside hnull
    have hload : st.loadWord ((st.inode i).location 9 + 4 * ((num - 72) / 64)) 4 =
        some (st.entry ((st.inode i).location 9) ((num - 72) / 64)) := by
      rw [Store.loadWord_eq hdouble, Store.entry, if_neg hnull]
    by_cases hzero : st.entry ((st.inode i).location 9) ((num - 72) / 64) = 0
    · simp only [installDouble, hnull, if_false, hload, hzero, if_true, Option.bind_eq_bind,
        Option.bind_some, Store.storePtr_eq hdouble, allocateBitmap_eq hfirst]
      rw [Store.loadWord_stored hdouble (Area.blockAddr_lt hblock) rfl, Option.bind_some,
        Store.storePtr_eq (hstore _ hblock)]
      exact ⟨_, rfl⟩
    · simp only [installDouble, hnull, if_false, hload, hzero, Option.bind_eq_bind,
        Option.bind_some, Store.storePtr_eq (hsecond hzero)]
      exact ⟨_, rfl⟩

theorem allocateBlock_defined (hrefuse : ¬ RefusesBlock st.superblock (st.inode i))
    (hfirst : st.superblock.firstFreeBlock < allocatableSpaceSize)
    (hinside : IndexInside st (st.inode i)) : ∃ r, allocateBlock st i = some r := by
  obtain ⟨hpos, hsingle, hdouble⟩ := hinside
  have hnext : st.superblock.firstFreeBlock / 8 * 8 < allocatableSpaceSize :=
    lt_of_le_of_lt (Nat.div_mul_le_self ..) hfirst
  simp only [allocateBlock, hrefuse, if_false, allocateBitmap_eq hfirst, Option.bind_eq_bind,
    Option.bind_some]
  by_cases hdirect : (st.inode i).blockNumber + 1 < 8
  · rw [if_pos hdirect, if_pos hpos]
    exact ⟨_, rfl⟩
  · rw [if_neg hdirect]
    by_cases hmedium : (st.inode i).blockNumber + 1 < 72
    · rw [if_pos hmedium]
      apply installSingle_defined hnext hfirst
      rw [Store.setInode_inode]
      exact hsingle (by omega) hmedium
    · rw [if_neg hmedium]
      apply installDouble_defined hnext hfirst
      rw [Store.setInode_inode]
      exact hdouble (by omega)

end Taken

/-! ## What the checks leave out -/

/-- What a call that is not refused says about the state it started from. -/
theorem ReservesBlocks.state {st : Store area} {i : ℕ} (h : ReservesBlocks st i)
    (hrefuse : ¬ RefusesBlock st.superblock (st.inode i)) :
    blocksNeeded st (st.inode i) ≤ st.superblock.freeBlockNumber ∧
      st.superblock.firstFreeBlock < allocatableSpaceSize ∧ IndexInside st (st.inode i) := by
  obtain ⟨ptr, st', hresult, hcases, hnone⟩ := h
  have hptr : ptr ≠ 0 := by
    rintro rfl
    exact hrefuse (refusesBlock_of_null hresult)
  refine ⟨?_, ?_, (allocateBlock_takes hrefuse hresult).2⟩
  · by_contra hfew
    exact hptr (hnone (by omega))
  · rcases hcases with ⟨hnull, -⟩ | ⟨blocks, b, htaken, -, hinside, -⟩
    · exact (hptr hnull).elim
    · rcases htaken.head with ⟨hempty, -⟩ | ⟨rest, hhead⟩
      · exact absurd hempty (List.append_ne_nil_of_right_ne_nil _ (List.cons_ne_nil b []))
      · exact hinside _ (hhead ▸ List.mem_cons_self)

/-- `allocate_block` reserves what it takes if and only if it refuses, or as many
blocks are free as it needs, the cached block is one of the data area, and so
are the index entries that it follows. -/
theorem reservesBlocks_iff {st : Store area} {i : ℕ}
    (hfree : st.superblock.freeBlockNumber =
      ((Finset.range allocatableSpaceSize).filter fun b ↦ st.used b = false).card) :
    ReservesBlocks st i ↔ RefusesBlock st.superblock (st.inode i) ∨
      (blocksNeeded st (st.inode i) ≤ st.superblock.freeBlockNumber ∧
        st.superblock.firstFreeBlock < allocatableSpaceSize ∧ IndexInside st (st.inode i)) := by
  by_cases hrefuse : RefusesBlock st.superblock (st.inode i)
  · refine iff_of_true ?_ (.inl hrefuse)
    exact ⟨0, st, allocateBlock_of_refuses hrefuse, .inl ⟨rfl, rfl⟩, fun _ ↦ rfl⟩
  · refine ⟨fun h ↦ .inr (h.state hrefuse), fun h ↦ ?_⟩
    obtain ⟨hneeded, hfirst, hinside⟩ := h.resolve_left hrefuse
    have hword : st.superblock.freeBlockNumber < 65536 := by
      have hcard := Finset.card_filter_le (Finset.range allocatableSpaceSize) fun b ↦
        st.used b = false
      rw [Finset.card_range, ← hfree] at hcard
      simp only [allocatableSpaceSize] at hcard
      omega
    obtain ⟨⟨ptr, st'⟩, hresult⟩ := allocateBlock_defined hrefuse hfirst hinside
    obtain ⟨⟨blocks, b, htaken, hptr, hcount⟩, -⟩ := allocateBlock_takes hrefuse hresult
    have hfew : blocksNeeded st (st.inode i) ≤ 3 := by
      simp only [blocksNeeded]
      split_ifs <;> omega
    have hlength : (blocks ++ [b]).length = blocks.length + 1 := by
      rw [List.length_append, List.length_singleton]
    have hcounter := htaken.freeBlockNumber hfirst hword (by omega)
    rw [hlength] at hcounter
    exact ⟨ptr, st', hresult, .inr ⟨blocks, b, htaken, hptr, (htaken.lt hfirst).1, by omega,
      hcounter⟩, fun hmore ↦ by omega⟩

/-- A second block for the root directory of the formatted disk. -/
theorem reservesBlocks_iff_init : ReservesBlocks (initDatastructure sampleArea) 0 :=
  (reservesBlocks_iff (pristine_init sampleArea).accounted.1).mpr
    (.inr ⟨by decide, by decide, by decide, by decide, by decide⟩)

/-! ## The last free block -/

/-- A disk on which only the last block is free, and inode 1 is a file of 136
blocks: the first second-level block is full. -/
def lastBlockStore : Store sampleArea where
  superblock :=
    { freeBlockNumber := 1
      freeInodeNumber := 1022
      firstFreeBlock := 7930
      firstFreeInode := 2 }
  inode := Function.update (fun _ ↦ zeroInode) 1
    { zeroInode with
      type := .reg
      size := 136 * 256
      location := fun k ↦ sampleArea.blockAddr (k + 1)
      operation := 0x100
      blockNumber := 135
      lastBlockOffset := 255 }
  bitmap := fun k ↦ if k = 991 then 0xdf else 0xff
  space := writeBytes (fun _ ↦ 0) (sampleArea.blockAddr 10) (leBytes 4 (sampleArea.blockAddr 11))

theorem lastBlockStore_free :
    ((Finset.range allocatableSpaceSize).filter fun b ↦ lastBlockStore.used b = false).card = 1 := by
  have hused : ∀ b, lastBlockStore.used b = false ↔ b = 7930 := by
    intro b
    have hmod : b % 8 < 8 := Nat.mod_lt _ (by omega)
    by_cases hbyte : b / 8 = 991
    · have hbit : ∀ k < 8, ((0xdf : BitVec 8).getMsbD k = false ↔ k = 2) := by decide
      simp only [Store.used, lastBlockStore, hbyte, if_true, hbit _ hmod]
      omega
    · have hbit : ∀ k < 8, (0xff : BitVec 8).getMsbD k = true := by decide
      simp only [Store.used, lastBlockStore, hbyte, if_false, hbit _ hmod, Bool.true_eq_false,
        false_iff]
      omega
  rw [Finset.filter_congr fun b _ ↦ hused b, Finset.filter_eq' (Finset.range _), if_pos (by simp),
    Finset.card_singleton]

/-- Two blocks are taken and the counter wraps. -/
theorem last_block_taken_twice :
    lastBlockStore.superblock.freeBlockNumber =
        ((Finset.range allocatableSpaceSize).filter fun b ↦ lastBlockStore.used b = false).card ∧
      ¬ ReservesBlocks lastBlockStore 1 ∧
      (allocateBlock lastBlockStore 1).map (fun r ↦ (r.1, r.2.superblock.freeBlockNumber)) =
        some (sampleArea.blockAddr 7928, 65535) := by
  refine ⟨lastBlockStore_free.symm, fun hreserves ↦ ?_, by decide +kernel⟩
  have hneeded := (hreserves.state (by decide)).1
  have htwo : blocksNeeded lastBlockStore (lastBlockStore.inode 1) = 2 := by decide +kernel
  rw [htwo] at hneeded
  exact absurd hneeded (by decide)

end OperatingSystem.Filesys
