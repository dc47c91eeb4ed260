import OperatingSystem.Filesys.Interface

/-!
# What the disk functions change

One statement for each function of the write path and of the release path:
which inode records, which fields and which part of the superblock it can
change. The bitmap search is evaluated here once: it always answers with the
first bit of the byte that was just marked.
-/

namespace OperatingSystem.Filesys

open ByteMemory

variable {area : Area}

/-! ## The bitmap search -/

theorem scanByte_of_ne_zero {byte : BitVec 8} (h : byte ≠ 0) : scanByte byte = 0 := by
  have hb : (byte != 0) = true := by simpa using h
  simp only [scanByte, hb, Bool.true_and]
  decide

theorem searchBitmap_of_ne_zero {bitmap : ℕ → BitVec 8} {i fuel : ℕ} (h : bitmap i ≠ 0) :
    searchBitmap bitmap (fuel + 1) i = (i + 1, 0) := by
  simp [searchBitmap, scanByte_of_ne_zero h]

theorem mask_ne_zero (k : ℕ) (hk : k < 8) : 0x80#8 >>> k ≠ 0 := by
  interval_cases k <;> decide

/-- The bit of a block, most significant bit first. -/
def Store.used (st : Store area) (block : ℕ) : Bool :=
  (st.bitmap (block / 8)).getMsbD (block % 8)

/-- The store after `allocate_bitmap` marked a block of the data area. The
cached next free block is the first block of the same bitmap byte. -/
def Store.takeBlock (st : Store area) (block : ℕ) : Store area :=
  { st with
    bitmap := Function.update st.bitmap (block / 8)
      (st.bitmap (block / 8) ||| 0x80#8 >>> (block % 8))
    superblock :=
      { st.superblock with
        freeBlockNumber := toUInt16 (st.superblock.freeBlockNumber - 1)
        firstFreeBlock := block / 8 * 8 } }

theorem allocateBitmap_eq {st : Store area} {block : ℕ} (h : block < allocatableSpaceSize) :
    allocateBitmap st block = some (st.takeBlock block) := by
  simp only [allocatableSpaceSize] at h
  have hnum : block / 8 < bitmapSublock := by
    simp only [bitmapSublock]
    omega
  have hne : Function.update st.bitmap (block / 8)
      (st.bitmap (block / 8) ||| 0x80#8 >>> (block % 8)) (block / 8) ≠ 0 := by
    rw [Function.update_self]
    intro hzero
    exact mask_ne_zero (block % 8) (by omega) (BitVec.or_eq_zero_iff.mp hzero).2
  obtain ⟨fuel, hfuel⟩ : ∃ fuel, bitmapSublock - block / 8 = fuel + 1 := by
    simp only [bitmapSublock] at *
    exact ⟨1024 - block / 8 - 1, by omega⟩
  have hstop : searchBitmap _ (fuel + 1) (block / 8) = _ := searchBitmap_of_ne_zero hne
  have hnext : (((block / 8 + 1 : ℕ) : ℤ) - 1) * 8 + (0 : ℕ) = ((block / 8 * 8 : ℕ) : ℤ) := by
    push_cast
    ring
  have hle : ¬ (((block / 8 * 8 : ℕ) : ℤ) > (allocatableSpaceSize : ℕ)) := by
    simp only [allocatableSpaceSize]
    omega
  simp only [allocateBitmap, hnum, if_true, hfuel, hstop, hnext, hle, if_false]
  rw [toUInt16_of_lt (by omega)]
  rfl

/-- Whatever it is asked to mark, `allocate_bitmap` changes the bitmap and the
two block fields of the superblock only. -/
theorem allocateBitmap_eq_some {st st' : Store area} {block : ℕ}
    (h : allocateBitmap st block = some st') :
    st'.inode = st.inode ∧ st'.space = st.space ∧
      st'.superblock.firstFreeInode = st.superblock.firstFreeInode ∧
      st'.superblock.freeInodeNumber = st.superblock.freeInodeNumber := by
  simp only [allocateBitmap] at h
  split at h
  · obtain rfl := Option.some.inj h
    exact ⟨rfl, rfl, rfl, rfl⟩
  · cases h

/-! ## The write path -/

theorem allocateBlock_of_refuses {st : Store area} {i : ℕ}
    (h : RefusesBlock st.superblock (st.inode i)) : allocateBlock st i = some (0, st) := by
  simp [allocateBlock, h]

/-- `allocate_block` returns `NULL` by its first checks only. -/
theorem refusesBlock_of_null {st st' : Store area} {i : ℕ}
    (h : allocateBlock st i = some (0, st')) : RefusesBlock st.superblock (st.inode i) := by
  have hpos : ∀ b, area.blockAddr b ≠ 0 := area.blockAddr_ne_zero
  simp only [allocateBlock] at h
  split at h
  · next hrefuse => exact hrefuse
  · exfalso
    obtain ⟨st₁, -, h⟩ := Option.bind_eq_some_iff.mp h
    split at h
    · split at h
      · simp only [Option.some.injEq, Prod.mk.injEq] at h
        exact hpos _ h.1
      · cases h
    · split at h
      · simp only [installSingle] at h
        split at h <;>
          simp only [bind, Option.bind_eq_some_iff, Option.some.injEq, Prod.mk.injEq] at h <;>
          grind
      · simp only [installDouble] at h
        split at h
        · simp only [bind, Option.bind_eq_some_iff, Option.some.injEq, Prod.mk.injEq] at h
          grind
        · obtain ⟨single, -, h⟩ := Option.bind_eq_some_iff.mp h
          split at h <;>
            simp only [bind, Option.bind_eq_some_iff, Option.some.injEq, Prod.mk.injEq] at h <;>
            grind

theorem allocateBlock_null {st st' : Store area} {i : ℕ}
    (h : allocateBlock st i = some (0, st')) : st' = st := by
  rw [allocateBlock_of_refuses (refusesBlock_of_null h)] at h
  cases h
  rfl

theorem orAllocate_null {st st' : Store area} {i ptr : ℕ}
    (h : orAllocate st i ptr = some (0, st')) : st' = st := by
  simp only [orAllocate] at h
  split at h
  · exact allocateBlock_null h
  · next hne =>
    simp only [Option.some.injEq, Prod.mk.injEq] at h
    exact (hne h.1).elim

/-- The store reached from `st` by the elementary actions of `allocate_block`
and of the byte loop on inode `i`: take the first free block, rewrite the block
fields of the record, store bytes. -/
inductive BlockSteps (i : ℕ) (st : Store area) : Store area → Prop where
  | refl : BlockSteps i st st
  | take {st₁ st₂ : Store area} (h : BlockSteps i st st₁)
      (ht : allocateBitmap st₁ st₁.superblock.firstFreeBlock = some st₂) : BlockSteps i st st₂
  | record {st₁ : Store area} (h : BlockSteps i st st₁) (loc : ℕ → ℕ) (bn lbo : ℤ) :
      BlockSteps i st (st₁.setInode i { st₁.inode i with
        location := loc, blockNumber := bn, lastBlockOffset := lbo })
  | bytes {st₁ st₂ : Store area} (h : BlockSteps i st st₁) {addr : ℕ} {bs : List UInt8}
      (hs : st₁.storeBytes addr bs = some st₂) : BlockSteps i st st₂

namespace BlockSteps

theorem trans {i : ℕ} {st₁ st₂ st₃ : Store area} (h : BlockSteps i st₁ st₂)
    (g : BlockSteps i st₂ st₃) : BlockSteps i st₁ st₃ := by
  induction g with
  | refl => exact h
  | take _ ht ih => exact ih.take ht
  | record _ loc bn lbo ih => exact ih.record loc bn lbo
  | bytes _ hs ih => exact ih.bytes hs

theorem setSlot {i : ℕ} {st st₁ : Store area} (h : BlockSteps i st st₁) (k ptr : ℕ) :
    BlockSteps i st (st₁.setSlot i k ptr) := h.record _ _ _

theorem installSingle {i block num ptr : ℕ} {st st₁ st' : Store area}
    (h : BlockSteps i st st₁) (hi : installSingle st₁ i block num = some (ptr, st')) :
    BlockSteps i st st' := by
  simp only [Filesys.installSingle] at hi
  split at hi
  · obtain ⟨st₂, h₂, hi⟩ := Option.bind_eq_some_iff.mp hi
    obtain ⟨st₃, h₃, hi⟩ := Option.bind_eq_some_iff.mp hi
    cases hi
    exact ((h.setSlot ..).take h₂).bytes h₃
  · obtain ⟨st₂, h₂, hi⟩ := Option.bind_eq_some_iff.mp hi
    cases hi
    exact h.bytes h₂

theorem installDouble {i block num ptr : ℕ} {st st₁ st' : Store area}
    (h : BlockSteps i st st₁) (hi : installDouble st₁ i block num = some (ptr, st')) :
    BlockSteps i st st' := by
  simp only [Filesys.installDouble] at hi
  split at hi
  · obtain ⟨st₂, h₂, hi⟩ := Option.bind_eq_some_iff.mp hi
    obtain ⟨st₃, h₃, hi⟩ := Option.bind_eq_some_iff.mp hi
    obtain ⟨st₄, h₄, hi⟩ := Option.bind_eq_some_iff.mp hi
    obtain ⟨single, -, hi⟩ := Option.bind_eq_some_iff.mp hi
    obtain ⟨st₅, h₅, hi⟩ := Option.bind_eq_some_iff.mp hi
    cases hi
    exact ((((h.setSlot ..).take h₂).bytes h₃).take h₄).bytes h₅
  · obtain ⟨single, -, hi⟩ := Option.bind_eq_some_iff.mp hi
    split at hi
    · obtain ⟨st₂, h₂, hi⟩ := Option.bind_eq_some_iff.mp hi
      obtain ⟨st₃, h₃, hi⟩ := Option.bind_eq_some_iff.mp hi
      obtain ⟨second, -, hi⟩ := Option.bind_eq_some_iff.mp hi
      obtain ⟨st₄, h₄, hi⟩ := Option.bind_eq_some_iff.mp hi
      cases hi
      exact ((h.bytes h₂).take h₃).bytes h₄
    · obtain ⟨st₂, h₂, hi⟩ := Option.bind_eq_some_iff.mp hi
      cases hi
      exact h.bytes h₂

end BlockSteps

/-- The byte loop with a byte left: at the end of a block it stops or goes on in a new
block, else it stores the byte. -/
theorem writeLoop_cons {i : ℕ} {b : UInt8} {bs : List UInt8} {st : Store area} {wPtr : ℕ}
    {off pos : ℤ} {n : ℕ} {r : WriteResult area}
    (h : writeLoop i (b :: bs) st wPtr off pos n = some r) :
    (∃ st₁, off = blockSize ∧ allocateBlock st i = some (0, st₁) ∧ r = ⟨st₁, pos, n⟩) ∨
      (∃ ptr st₁ st₂, off = blockSize ∧ allocateBlock st i = some (ptr, st₁) ∧ ptr ≠ 0 ∧
        st₁.storeBytes ptr [b] = some st₂ ∧
        writeLoop i bs st₂ (ptr + 1) 1 (pos + 1) (n + 1) = some r) ∨
      ∃ st₁, off ≠ blockSize ∧ st.storeBytes wPtr [b] = some st₁ ∧
        writeLoop i bs st₁ (wPtr + 1) (off + 1) (pos + 1) (n + 1) = some r := by
  simp only [writeLoop] at h
  split at h
  · next hend =>
    obtain ⟨⟨ptr, st₁⟩, hblock, h⟩ := Option.bind_eq_some_iff.mp h
    dsimp only at h
    split at h
    · next hnull =>
      cases h
      exact .inl ⟨st₁, hend, hnull ▸ hblock, rfl⟩
    · next hne =>
      obtain ⟨st₂, hstore, h⟩ := Option.bind_eq_some_iff.mp h
      exact .inr (.inl ⟨ptr, st₁, st₂, hend, hblock, hne, hstore, h⟩)
  · next hend =>
    obtain ⟨st₁, hstore, h⟩ := Option.bind_eq_some_iff.mp h
    exact .inr (.inr ⟨st₁, hend, hstore, h⟩)

/-- What holds of every request for a block and of every store holds of the whole loop. -/
theorem writeLoop_rel {R : Store area → Store area → Prop} {i : ℕ} (hrefl : ∀ st, R st st)
    (htrans : ∀ {st₁ st₂ st₃}, R st₁ st₂ → R st₂ st₃ → R st₁ st₃)
    (hblock : ∀ {st ptr st'}, allocateBlock st i = some (ptr, st') → R st st')
    (hstore : ∀ {st addr bytes st'}, st.storeBytes addr bytes = some st' → R st st')
    {bs : List UInt8} {st : Store area} {wPtr : ℕ} {off pos : ℤ} {n : ℕ} {r : WriteResult area}
    (h : writeLoop i bs st wPtr off pos n = some r) : R st r.store := by
  induction bs generalizing st wPtr off pos n with
  | nil =>
      cases h
      exact hrefl st
  | cons b bs ih =>
      obtain ⟨st₁, -, hnone, rfl⟩ | ⟨ptr, st₁, st₂, -, hnew, -, hbyte, h⟩ | ⟨st₁, -, hbyte, h⟩ :=
        writeLoop_cons h
      · exact hblock hnone
      · exact htrans (hblock hnew) (htrans (hstore hbyte) (ih h))
      · exact htrans (hstore hbyte) (ih h)

/-- `allocate_block` either refuses and changes nothing, or takes the first
free block and goes on. -/
theorem allocateBlock_cases {st st' : Store area} {i ptr : ℕ}
    (h : allocateBlock st i = some (ptr, st')) :
    (RefusesBlock st.superblock (st.inode i) ∧ ptr = 0 ∧ st' = st) ∨
      (¬ RefusesBlock st.superblock (st.inode i) ∧
        ∃ st₁, allocateBitmap st st.superblock.firstFreeBlock = some st₁ ∧
          BlockSteps i st₁ st') := by
  simp only [allocateBlock] at h
  split at h
  · next hrefuse =>
    cases h
    exact .inl ⟨hrefuse, rfl, rfl⟩
  · next hrefuse =>
    obtain ⟨st₁, h₁, h⟩ := Option.bind_eq_some_iff.mp h
    refine .inr ⟨hrefuse, st₁, h₁, ?_⟩
    have hrecord := (@BlockSteps.refl _ i st₁).record (st₁.inode i).location
      ((st.inode i).blockNumber + 1) 0
    split at h
    · split at h
      · cases h
        exact hrecord.setSlot ..
      · cases h
    · split at h
      · exact hrecord.installSingle h
      · exact hrecord.installDouble h

namespace BlockSteps

theorem of_allocateBlock {i ptr : ℕ} {st st' : Store area}
    (h : allocateBlock st i = some (ptr, st')) : BlockSteps i st st' := by
  rcases allocateBlock_cases h with ⟨-, -, rfl⟩ | ⟨-, st₁, h₁, hsteps⟩
  · exact refl
  · exact (refl.take h₁).trans hsteps

theorem of_orAllocate {i ptr p : ℕ} {st st' : Store area}
    (h : orAllocate st i ptr = some (p, st')) : BlockSteps i st st' := by
  simp only [orAllocate] at h
  split at h
  · exact of_allocateBlock h
  · cases h
    exact refl

theorem of_writeLoop {i : ℕ} {bs : List UInt8} {st : Store area} {wPtr : ℕ}
    {off pos : ℤ} {n : ℕ} {r : WriteResult area}
    (h : writeLoop i bs st wPtr off pos n = some r) : BlockSteps i st r.store :=
  writeLoop_rel (fun _ ↦ refl) trans of_allocateBlock (bytes refl) h

end BlockSteps

/-- `st'` differs from `st` at most in the block fields of inode `i`, the
bitmap, the data area and the block fields of the superblock. -/
structure BlockFrame (i : ℕ) (st st' : Store area) : Prop where
  others : ∀ j, j ≠ i → st'.inode j = st.inode j
  record : ∃ loc bn lbo, st'.inode i =
    { st.inode i with location := loc, blockNumber := bn, lastBlockOffset := lbo }
  firstFreeInode : st'.superblock.firstFreeInode = st.superblock.firstFreeInode
  freeInodeNumber : st'.superblock.freeInodeNumber = st.superblock.freeInodeNumber

theorem BlockSteps.frame {i : ℕ} {st st' : Store area} (h : BlockSteps i st st') :
    BlockFrame i st st' := by
  induction h with
  | refl => exact ⟨fun _ _ ↦ rfl, ⟨_, _, _, rfl⟩, rfl, rfl⟩
  | take _ ht ih =>
      obtain ⟨hinode, -, hfirst, hnumber⟩ := allocateBitmap_eq_some ht
      exact ⟨by rw [hinode]; exact ih.others, by rw [hinode]; exact ih.record,
        hfirst.trans ih.firstFreeInode, hnumber.trans ih.freeInodeNumber⟩
  | record _ loc bn lbo ih =>
      refine ⟨fun j hj ↦ ?_, ⟨loc, bn, lbo, ?_⟩, ih.firstFreeInode, ih.freeInodeNumber⟩
      · rw [Store.setInode_inode_of_ne hj, ih.others j hj]
      · obtain ⟨loc', bn', lbo', hrec⟩ := ih.record
        rw [Store.setInode_inode, hrec]
  | bytes _ hs ih =>
      obtain ⟨-, rfl⟩ := Store.storeBytes_eq_some hs
      exact ⟨ih.others, ih.record, ih.firstFreeInode, ih.freeInodeNumber⟩

/-- `write_file` either returns `ERROR` and changes nothing, or goes through
all its phases. -/
theorem writeFile_phases {st st' : Store area} {i : ℕ} {pos pos' ret : ℤ}
    {input : List UInt8} {type : Char}
    (h : writeFile st i pos input type = some (ret, pos', st')) :
    (ret = ERROR ∧ pos' = pos ∧ st' = st) ∨
      ∃ ptr st₁ wPtr ptr' st₂ r,
        orAllocate st i ((st.inode i).location 0) = some (ptr, st₁) ∧ ptr ≠ 0 ∧
        switchAddress st₁ (st₁.inode i) (pos.tdiv blockSize) (pos.tmod blockSize) = some wPtr ∧
        orAllocate st₁ i wPtr = some (ptr', st₂) ∧
        writeLoop i input st₂ ptr' (pos.tmod blockSize) pos 0 = some r ∧
        ret = r.wSize ∧ pos' = r.position ∧
        st' = r.store.setInode i ((r.store.inode i).grow r.wSize) := by
  obtain ⟨ino, hino, h⟩ := Option.bind_eq_some_iff.mp h
  obtain ⟨-, rfl⟩ := Store.inodeAt_eq_some hino
  split at h
  · cases h
    exact .inl ⟨rfl, rfl, rfl⟩
  · obtain ⟨⟨ptr, st₁⟩, h₁, h⟩ := Option.bind_eq_some_iff.mp h
    dsimp only at h
    split at h
    · next hptr =>
      cases h
      subst hptr
      exact .inl ⟨rfl, rfl, orAllocate_null h₁⟩
    · next hptr =>
      obtain ⟨wPtr, hwPtr, h⟩ := Option.bind_eq_some_iff.mp h
      obtain ⟨⟨ptr', st₂⟩, h₂, h⟩ := Option.bind_eq_some_iff.mp h
      obtain ⟨r, hr, h⟩ := Option.bind_eq_some_iff.mp h
      cases h
      exact .inr ⟨ptr, st₁, wPtr, ptr', st₂, r, h₁, hptr, hwPtr, h₂, hr, rfl, rfl, rfl⟩

/-- `write_file` either returns `ERROR` and changes nothing, or its byte loop
ends with the returned position and count, and the size grows by the count. -/
theorem writeFile_cases {st st' : Store area} {i : ℕ} {pos pos' ret : ℤ}
    {input : List UInt8} {type : Char}
    (h : writeFile st i pos input type = some (ret, pos', st')) :
    (ret = ERROR ∧ pos' = pos ∧ st' = st) ∨
      ∃ r : WriteResult area, BlockSteps i st r.store ∧ ret = r.wSize ∧ pos' = r.position ∧
        st' = r.store.setInode i ((r.store.inode i).grow r.wSize) := by
  rcases writeFile_phases h with
    hrefused | ⟨ptr, st₁, wPtr, ptr', st₂, r, h₁, -, -, h₂, hr, hret, hpos, hst⟩
  · exact .inl hrefused
  · have hsteps := (BlockSteps.of_orAllocate h₁).trans
      ((BlockSteps.of_orAllocate h₂).trans (.of_writeLoop hr))
    exact .inr ⟨r, hsteps, hret, hpos, hst⟩

/-- `write_file` changes the size and the block fields of its own record only. -/
theorem writeFile_record {st st' : Store area} {i : ℕ} {pos pos' ret : ℤ} {input : List UInt8}
    {type : Char} (h : writeFile st i pos input type = some (ret, pos', st')) :
    (∀ j, j ≠ i → st'.inode j = st.inode j) ∧
      (∃ size loc bn lbo, st'.inode i = { st.inode i with
        size := size, location := loc, blockNumber := bn, lastBlockOffset := lbo }) ∧
      st'.superblock.firstFreeInode = st.superblock.firstFreeInode := by
  rcases writeFile_cases h with ⟨-, -, rfl⟩ | ⟨r, hsteps, -, -, rfl⟩
  · exact ⟨fun _ _ ↦ rfl, ⟨_, _, _, _, rfl⟩, rfl⟩
  · have hframe := hsteps.frame
    obtain ⟨loc, bn, lbo, hrecord⟩ := hframe.record
    refine ⟨fun j hj ↦ ?_, ?_, hframe.firstFreeInode⟩
    · rw [Store.setInode_inode_of_ne hj, hframe.others j hj]
    · rw [Store.setInode_inode, hrecord]
      exact ⟨_, _, _, _, rfl⟩

theorem writeFile_operation {st st' : Store area} {i : ℕ} {pos pos' ret : ℤ}
    {input : List UInt8} {type : Char}
    (h : writeFile st i pos input type = some (ret, pos', st')) (j : ℕ) :
    (st'.inode j).operation = (st.inode j).operation := by
  obtain ⟨hothers, ⟨size, loc, bn, lbo, hrecord⟩, -⟩ := writeFile_record h
  by_cases hj : j = i
  · rw [hj, hrecord]
  · rw [hothers j hj]

/-! ## Inodes -/

theorem allocateInode_eq_some {st st' : Store area} {parent : ℕ} {mode : ℤ} {type : ObjectType}
    (h : allocateInode st parent mode type = some st') :
    st.superblock.firstFreeInode < inodeListNum ∧
      st'.inode = Function.update st.inode st.superblock.firstFreeInode
        ((st.inode st.superblock.firstFreeInode).renew parent mode type) ∧
      st'.bitmap = st.bitmap ∧ st'.space = st.space ∧
      st'.superblock =
        { st.superblock with
          firstFreeInode := nextFreeInode st'.inode
            (inodeListNum - (st.superblock.firstFreeInode + 1)) (st.superblock.firstFreeInode + 1)
          freeInodeNumber := toUInt16 (st.superblock.freeInodeNumber - 1) } := by
  obtain ⟨ino, hino, h⟩ := Option.bind_eq_some_iff.mp h
  obtain ⟨hlt, rfl⟩ := Store.inodeAt_eq_some hino
  cases h
  exact ⟨hlt, rfl, rfl, rfl, rfl⟩

/-! ## The release path -/

/-- `st'` has the inode table of `st`, and at most more bits set and an
earlier first free block. -/
structure FreeFrame (st st' : Store area) : Prop where
  inode : st'.inode = st.inode
  firstFreeInode : st'.superblock.firstFreeInode = st.superblock.firstFreeInode
  freeInodeNumber : st'.superblock.freeInodeNumber = st.superblock.freeInodeNumber
  firstFreeBlock : st'.superblock.firstFreeBlock ≤ st.superblock.firstFreeBlock
  freeBlockNumber : st.superblock.freeBlockNumber < 65536 →
    st'.superblock.freeBlockNumber < 65536
  used : ∀ b, st.used b = true → st'.used b = true

namespace FreeFrame

theorem refl (st : Store area) : FreeFrame st st :=
  ⟨rfl, rfl, rfl, le_refl _, fun h ↦ h, fun _ h ↦ h⟩

theorem trans {st₁ st₂ st₃ : Store area} (h : FreeFrame st₁ st₂) (g : FreeFrame st₂ st₃) :
    FreeFrame st₁ st₃ :=
  ⟨g.inode.trans h.inode, g.firstFreeInode.trans h.firstFreeInode,
    g.freeInodeNumber.trans h.freeInodeNumber, g.firstFreeBlock.trans h.firstFreeBlock,
    fun hlt ↦ g.freeBlockNumber (h.freeBlockNumber hlt), fun b hb ↦ g.used b (h.used b hb)⟩

theorem of_storeBytes {st st' : Store area} {addr : ℕ} {bytes : List UInt8}
    (h : st.storeBytes addr bytes = some st') : FreeFrame st st' := by
  obtain ⟨-, rfl⟩ := Store.storeBytes_eq_some h
  exact ⟨rfl, rfl, rfl, le_refl _, fun h ↦ h, fun _ hb ↦ hb⟩

/-- `free_bitmap` joins its mask with an or: no bit is ever cleared. -/
theorem of_freeBitmap {st st' : Store area} {location : ℕ}
    (h : freeBitmap st location = some st') : FreeFrame st st' := by
  simp only [freeBitmap] at h
  split at h
  · next hblock =>
    obtain rfl := Option.some.inj h
    refine ⟨rfl, rfl, rfl, ?_, fun _ ↦ ?_, ?_⟩
    · dsimp only
      split
      · next hlt =>
        simp only [toUInt16]
        omega
      · exact le_refl _
    · simp only [toUInt16]
      omega
    · intro b hb
      simp only [Store.used] at hb ⊢
      by_cases hbyte : b / 8 = (((location : ℤ) - area.spacePtr).tdiv blockSize).toNat / 8
      · rw [← hbyte, Function.update_self, BitVec.getMsbD_or, hb, Bool.true_or]
      · rw [Function.update_of_ne hbyte]
        exact hb
  · cases h

theorem of_freeLoop {next : Store area → ℕ → Option ℕ} {count k : ℕ} {st st' : Store area}
    (h : freeLoop next count k st = some st') : FreeFrame st st' := by
  induction count generalizing k st with
  | zero =>
      cases h
      exact refl _
  | succ count ih =>
      obtain ⟨ptr, -, h⟩ := Option.bind_eq_some_iff.mp h
      split at h
      · cases h
        exact refl _
      · obtain ⟨st₁, h₁, h⟩ := Option.bind_eq_some_iff.mp h
        obtain ⟨st₂, h₂, h⟩ := Option.bind_eq_some_iff.mp h
        exact (of_storeBytes h₁).trans ((of_freeBitmap h₂).trans (ih h))

theorem of_freeDouble {double count k : ℕ} {st st' : Store area}
    (h : freeDouble double count k st = some st') : FreeFrame st st' := by
  induction count generalizing k st with
  | zero =>
      cases h
      exact refl _
  | succ count ih =>
      obtain ⟨single, -, h⟩ := Option.bind_eq_some_iff.mp h
      split at h
      · cases h
        exact refl _
      · obtain ⟨st₁, h₁, h⟩ := Option.bind_eq_some_iff.mp h
        exact (of_freeLoop h₁).trans (ih h)

theorem of_freeBlock {i : ℕ} {st st' : Store area} (h : freeBlock st i = some st') :
    FreeFrame st st' := by
  simp only [freeBlock] at h
  split at h
  · cases h
    exact refl _
  · obtain ⟨st₁, h₁, h⟩ := Option.bind_eq_some_iff.mp h
    split at h
    · cases h
      exact of_freeLoop h₁
    · obtain ⟨st₂, h₂, h⟩ := Option.bind_eq_some_iff.mp h
      split at h
      · cases h
        exact (of_freeLoop h₁).trans (of_freeLoop h₂)
      · exact (of_freeLoop h₁).trans ((of_freeLoop h₂).trans (of_freeDouble h))

end FreeFrame

theorem freeLoop_of_null {next : Store area → ℕ → Option ℕ} {st : Store area} {k : ℕ}
    (h : next st k = some 0) (count : ℕ) : freeLoop next (count + 1) k st = some st := by
  simp [freeLoop, h]

theorem freeBlock_of_empty {st : Store area} {i : ℕ}
    (h : (st.inode i).blockNumber < 0 ∨
      ((st.inode i).location 0 = 0 ∧ (st.inode i).blockNumber < 8)) :
    freeBlock st i = some st := by
  rcases h with hneg | ⟨hloc, hlt⟩
  · exact if_pos hneg
  · have hdirect : freeLoop (fun _ k ↦ some ((st.inode i).location k)) 9 0 st = some st :=
      freeLoop_of_null (by rw [hloc]) 8
    unfold freeBlock
    simp [hdirect, hlt]

/-- Without a first block and a single-indirect block, `free_block` does nothing
or reads the first entry of the index block through `NULL`. -/
theorem freeBlock_of_null {st st' : Store area} {i : ℕ} (hloc : (st.inode i).location 0 = 0)
    (h₈ : (st.inode i).location 8 = 0) (h : freeBlock st i = some st') : st' = st := by
  by_cases hbn : (st.inode i).blockNumber < 8
  · rw [freeBlock_of_empty (.inr ⟨hloc, hbn⟩)] at h
    exact (Option.some.inj h).symm
  · exfalso
    have hneg : ¬ (st.inode i).blockNumber < 0 := by omega
    have hnull : ¬ area.Holds 0 4 := by
      intro hholds
      have hpos := area.spacePtr_pos
      have hle : area.spacePtr ≤ 0 := hholds.1
      omega
    have hdirect : freeLoop (fun _ k ↦ some ((st.inode i).location k)) 9 0 st = some st :=
      freeLoop_of_null (by rw [hloc]) 8
    have hsingle : freeLoop (fun st k ↦ st.loadWord (4 * k) 4) 64 0 st = none := by
      rw [freeLoop]
      simp [Store.loadWord, hnull]
    unfold freeBlock at h
    simp [hneg, hdirect, hbn, h₈, hsingle] at h

theorem strcpyLoop_eq_some {fuel dst src : ℕ} {st st' : Store area}
    (h : strcpyLoop fuel dst src st = some st') : ∃ space, st' = { st with space := space } := by
  induction fuel generalizing dst src st with
  | zero => cases h
  | succ fuel ih =>
      obtain ⟨b, -, h⟩ := Option.bind_eq_some_iff.mp h
      obtain ⟨st₁, h₁, h⟩ := Option.bind_eq_some_iff.mp h
      obtain ⟨-, rfl⟩ := Store.storeBytes_eq_some h₁
      split at h
      · cases h
        exact ⟨_, rfl⟩
      · obtain ⟨space, rfl⟩ := ih h
        exact ⟨space, rfl⟩

/-- The removal of a directory entry moves bytes and nothing else. -/
theorem fillEntry_eq_some {ino : MyInode} {directoryIndex : ℤ} {st st' : Store area}
    (h : fillEntry st ino directoryIndex = some st') :
    ∃ space, st' = { st with space := space } := by
  simp only [fillEntry] at h
  split at h
  · cases h
    exact ⟨st.space, rfl⟩
  · obtain ⟨entry, -, h⟩ := Option.bind_eq_some_iff.mp h
    obtain ⟨lastEntry, -, h⟩ := Option.bind_eq_some_iff.mp h
    obtain ⟨st₁, h₁, h⟩ := Option.bind_eq_some_iff.mp h
    obtain ⟨inodeIndex, -, h⟩ := Option.bind_eq_some_iff.mp h
    obtain ⟨space, rfl⟩ := strcpyLoop_eq_some h₁
    obtain ⟨-, rfl⟩ := Store.storeBytes_eq_some h
    exact ⟨_, rfl⟩

/-- `free_parent_directory_entry` either finds no entry and changes nothing, or
moves bytes and shrinks the record of the parent. -/
theorem freeParentDirectoryEntry_cases {st st' : Store area} {name : List UInt8} {parent : ℕ}
    {ret : ℤ} (h : freeParentDirectoryEntry st name parent = some (ret, st')) :
    (ret = ERROR ∧ st' = st) ∨
      ∃ space r, isExist st name parent (-1) = some r ∧ r.ans ≠ ERROR ∧ ret = SUCCESS ∧
        st' = { st with space := space }.setInode parent (st.inode parent).shrink := by
  obtain ⟨r, hr, h⟩ := Option.bind_eq_some_iff.mp h
  split at h
  · cases h
    exact .inl ⟨rfl, rfl⟩
  · next hans =>
    obtain ⟨ino, -, h⟩ := Option.bind_eq_some_iff.mp h
    obtain ⟨st₁, h₁, h⟩ := Option.bind_eq_some_iff.mp h
    obtain ⟨space, rfl⟩ := fillEntry_eq_some h₁
    cases h
    exact .inr ⟨space, r, hr, hans, rfl, rfl⟩

theorem freeInode_eq_some {st st' : Store area} {name : List UInt8} {i : ℕ}
    (h : freeInode st name i = some st') :
    ∃ st₁ ret st₂, freeBlock st i = some st₁ ∧
      freeParentDirectoryEntry st₁ name (st.inode i).parentIndex = some (ret, st₂) ∧
      st'.inode = Function.update st₂.inode i (st₂.inode i).release ∧
      st'.bitmap = st₂.bitmap ∧ st'.space = st₂.space ∧
      st'.superblock =
        { st₂.superblock with
          freeInodeNumber := toUInt16 (st₂.superblock.freeInodeNumber + 1)
          firstFreeInode :=
            if st₂.superblock.firstFreeInode > i then toUInt16 i
            else st₂.superblock.firstFreeInode } := by
  obtain ⟨st₁, h₁, h⟩ := Option.bind_eq_some_iff.mp h
  obtain ⟨⟨ret, st₂⟩, h₂, h⟩ := Option.bind_eq_some_iff.mp h
  rw [(FreeFrame.of_freeBlock h₁).inode] at h₂
  cases h
  exact ⟨st₁, ret, st₂, h₁, h₂, rfl, rfl, rfl, rfl⟩

end OperatingSystem.Filesys
