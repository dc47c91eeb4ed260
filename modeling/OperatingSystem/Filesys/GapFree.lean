import OperatingSystem.Filesys.Inodes
import OperatingSystem.Filesys.Writing

/-!
# Block maps without gaps

`allocate_block` counts the blocks of a file one by one in `block_number`,
`write_file` computes the same field anew from the size. The two agree as long
as a write takes as many blocks as the size needs and the size does not become
a multiple of the block size.
-/

namespace OperatingSystem.Filesys

open ByteMemory

variable {area : Area}

/-- The logical blocks that the size needs are mapped and no others, and the
next `allocate_block` installs its block behind them. -/
structure GapFree (st : Store area) (i : ℕ) : Prop where
  mapped : ∀ k < blockCount (st.inode i).size, st.logicalPtr (st.inode i) k ≠ 0
  unmapped : ∀ k, blockCount (st.inode i).size ≤ k → k < 4168 →
    st.logicalPtr (st.inode i) k = 0
  next : ∀ ptr st', allocateBlock st i = some (ptr, st') → ptr ≠ 0 →
    st'.logicalPtr (st'.inode i) (blockCount (st.inode i).size) = ptr

/-- How often the byte loop stands at the end of a block with bytes left. -/
def crossings (off : ℤ) (n : ℕ) : ℕ := ((off + n - 1) / 256).toNat

/-- The block that `write_file` asks for before the byte loop: the first block
of the file, or the block of the position. -/
def startBlocks (st : Store area) (ino : MyInode) (position : ℤ) : ℕ :=
  if NeedsNoBlock st ino position then 0 else 1

/-- A write inside the direct blocks that takes as many blocks as the new size
needs, finds them all, and neither starts in front of the file nor ends on a
block boundary. -/
structure FillsInOrder (st : Store area) (ino : MyInode) (position : ℤ) (n : ℕ) : Prop where
  nonneg : 0 ≤ position
  start : ino.location 0 = 0 → position.tdiv blockSize = 0
  direct : ino.size + n < 8 * blockSize
  last : ino.size + n = 0 ∨ (ino.size + n) % blockSize ≠ 0
  free : startBlocks st ino position + crossings (position.tmod blockSize) n ≤
    st.superblock.freeBlockNumber
  blocks : ino.blockNumber + 1 + startBlocks st ino position +
    crossings (position.tmod blockSize) n = max 1 (blockCount (ino.size + n))

instance (st : Store area) (ino : MyInode) (position : ℤ) (n : ℕ) :
    Decidable (FillsInOrder st ino position n) :=
  decidable_of_iff
    (0 ≤ position ∧ (ino.location 0 = 0 → position.tdiv blockSize = 0) ∧
      ino.size + n < 8 * blockSize ∧
      (ino.size + n = 0 ∨ (ino.size + n) % blockSize ≠ 0) ∧
      startBlocks st ino position + crossings (position.tmod blockSize) n ≤
        st.superblock.freeBlockNumber ∧
      ino.blockNumber + 1 + startBlocks st ino position +
        crossings (position.tmod blockSize) n = max 1 (blockCount (ino.size + n)))
    ⟨fun ⟨h₀, h₁, h₂, h₃, h₄, h₅⟩ ↦ ⟨h₀, h₁, h₂, h₃, h₄, h₅⟩,
      fun h ↦ ⟨h.nonneg, h.start, h.direct, h.last, h.free, h.blocks⟩⟩

def WriteFillsInOrder (st : Store area) (i : ℕ) (position : ℤ) (n : ℕ) (type : Char) : Prop :=
  st.InUse i → RefusesWrite st (st.inode i) type ∨ FillsInOrder st (st.inode i) position n

/-- Writes and new entries fill the blocks in order, a new record brings no
pointers, and a directory does not lose the first entry of a block, unless it
becomes empty. -/
def DiskOp.FillsInOrder (st : Store area) : DiskOp → Prop
  | .write i position input => WriteFillsInOrder st i position input.length 'w'
  | .create des name _ _ fresh => st.InUse des ∧
      WriteFillsInOrder st des (toInt (st.inode des).size)
        (entryBytes name st.superblock.firstFreeInode fresh).length 'c' ∧
      (∀ k : ℕ, k < 10 → (st.inode st.superblock.firstFreeInode).location k = 0) ∧
      st.superblock.firstFreeInode < wholeInodeRecords
  | .unlink _ i => (st.inode (st.inode i).parentIndex).size = 16 ∨
      16 < (st.inode (st.inode i).parentIndex).size % blockSize
  | _ => True

instance (st : Store area) (i : ℕ) (position : ℤ) (n : ℕ) (type : Char) :
    Decidable (WriteFillsInOrder st i position n type) := inferInstanceAs (Decidable (_ → _))

instance (st : Store area) : (op : DiskOp) → Decidable (op.FillsInOrder st)
  | .write .. => inferInstanceAs (Decidable (WriteFillsInOrder ..))
  | .create .. => inferInstanceAs (Decidable (_ ∧ _ ∧ _ ∧ _))
  | .unlink .. => inferInstanceAs (Decidable (_ ∨ _))
  | .nothing => inferInstanceAs (Decidable True)
  | .chmod .. => inferInstanceAs (Decidable True)

/-! ## Block maps of direct blocks -/

/-- Exactly the first `c` direct slots are mapped, and `block_number` counts
them. -/
structure DirectMap (ino : MyInode) (c : ℕ) : Prop where
  le : c ≤ 8
  blockNumber : ino.blockNumber = (c : ℤ) - 1
  mapped : ∀ k < c, ino.location k ≠ 0
  unmapped : ∀ k, c ≤ k → k < 10 → ino.location k = 0

/-- A direct map with as many blocks as the size needs; an empty file may keep
one block. -/
def Gapless (ino : MyInode) : Prop :=
  ∃ c, DirectMap ino c ∧ (c = blockCount ino.size ∨ (ino.size = 0 ∧ c = 1))

/-- What the block fields of the superblock have in common in all states. -/
structure CountersFit (st : Store area) : Prop where
  firstFreeBlock : st.superblock.firstFreeBlock ≤ 1
  freeBlockNumber : st.superblock.freeBlockNumber < 65536

namespace CountersFit

variable {st st' : Store area}

theorem lt (h : CountersFit st) : st.superblock.firstFreeBlock < allocatableSpaceSize := by
  have hle := h.firstFreeBlock
  simp only [allocatableSpaceSize]
  omega

theorem of_allocateBitmap (h : CountersFit st)
    (ha : allocateBitmap st st.superblock.firstFreeBlock = some st') : CountersFit st' := by
  rw [allocateBitmap_eq h.lt] at ha
  cases ha
  have hle := h.firstFreeBlock
  refine ⟨?_, ?_⟩
  · simp only [Store.takeBlock]
    omega
  · simp only [Store.takeBlock, toUInt16]
    omega

theorem storeBytes (h : CountersFit st) {addr : ℕ} {bytes : List UInt8}
    (hs : st.storeBytes addr bytes = some st') : CountersFit st' := by
  have hsuper := (Store.storeBytes_frame hs).2
  exact ⟨hsuper ▸ h.firstFreeBlock, hsuper ▸ h.freeBlockNumber⟩

theorem of_blockSteps {i : ℕ} (h : CountersFit st) (hs : BlockSteps i st st') :
    CountersFit st' := by
  induction hs with
  | refl => exact h
  | take _ ht ih => exact ih.of_allocateBitmap ht
  | record _ loc bn lbo ih => exact ⟨ih.firstFreeBlock, ih.freeBlockNumber⟩
  | bytes _ hb ih => exact ih.storeBytes hb

theorem writeFile {i : ℕ} {pos pos' ret : ℤ} {input : List UInt8} {type : Char}
    (h : CountersFit st) (hw : writeFile st i pos input type = some (ret, pos', st')) :
    CountersFit st' := by
  rcases writeFile_cases hw with ⟨-, -, rfl⟩ | ⟨r, hsteps, -, -, rfl⟩
  · exact h
  · have hfit := h.of_blockSteps hsteps
    exact ⟨hfit.firstFreeBlock, hfit.freeBlockNumber⟩

theorem allocateInode {des : ℕ} {mode : ℤ} {type : ObjectType} (h : CountersFit st)
    (ha : allocateInode st des mode type = some st') : CountersFit st' := by
  obtain ⟨-, -, -, -, hsuper⟩ := allocateInode_eq_some ha
  refine ⟨?_, ?_⟩ <;> rw [hsuper]
  · exact h.firstFreeBlock
  · exact h.freeBlockNumber

theorem freeInode {name : List UInt8} {i : ℕ} (h : CountersFit st)
    (hfree : freeInode st name i = some st') : CountersFit st' := by
  obtain ⟨st₁, ret, st₂, h₁, h₂, -, -, -, hsuper⟩ := freeInode_eq_some hfree
  have hframe := FreeFrame.of_freeBlock h₁
  have hsame := (freeParentDirectoryEntry_same h₂).2
  refine ⟨?_, ?_⟩ <;> rw [hsuper, hsame]
  · exact hframe.firstFreeBlock.trans h.firstFreeBlock
  · exact hframe.freeBlockNumber h.freeBlockNumber

end CountersFit

theorem allocateBlock_directMap {st : Store area} {i c : ℕ} (hfit : CountersFit st)
    (h : DirectMap (st.inode i) c) (hc : c < 8) (hfree : 1 ≤ st.superblock.freeBlockNumber) :
    allocateBlock st i =
        some (area.blockAddr st.superblock.firstFreeBlock, st.installDirect i) ∧
      DirectMap ((st.installDirect i).inode i) (c + 1) ∧ CountersFit (st.installDirect i) ∧
      (st.installDirect i).superblock.freeBlockNumber + 1 = st.superblock.freeBlockNumber ∧
      ((st.installDirect i).inode i).size = (st.inode i).size := by
  have hbn := h.blockNumber
  have hrefuse : ¬ RefusesBlock st.superblock (st.inode i) := by
    simp only [RefusesBlock, maxFileSize, blockSize]
    omega
  have halloc := allocateBlock_direct hrefuse hfit.lt (by omega) (by omega)
  have hslot : ((st.inode i).blockNumber + 1).toNat = c := by omega
  refine ⟨halloc, ⟨by omega, ?_, ?_, ?_⟩, hfit.of_blockSteps (.of_allocateBlock halloc), ?_, ?_⟩
  · simp [Store.installDirect, hbn]
  · intro k hk
    by_cases hkc : k = c
    · simp [Store.installDirect, hslot, hkc, Area.blockAddr_ne_zero]
    · simpa [Store.installDirect, hslot, hkc] using h.mapped k (by omega)
  · intro k hk hk'
    have hkc : k ≠ c := by omega
    simpa [Store.installDirect, hslot, hkc] using h.unmapped k (by omega) hk'
  · have hlt := hfit.freeBlockNumber
    simp only [Store.installDirect, Store.setInode_superblock, Store.takeBlock, toUInt16]
    omega
  · simp [Store.installDirect]

theorem writeLoop_directMap {i : ℕ} {bs : List UInt8} {st : Store area} {wPtr : ℕ} {off pos : ℤ}
    {n c : ℕ} {r : WriteResult area} (hfit : CountersFit st) (h : DirectMap (st.inode i) c)
    (hoff : off ≤ 256) (hc : c + crossings off bs.length ≤ 8)
    (hfree : crossings off bs.length ≤ st.superblock.freeBlockNumber)
    (hw : writeLoop i bs st wPtr off pos n = some r) :
    DirectMap (r.store.inode i) (c + crossings off bs.length) ∧ r.wSize = n + bs.length ∧
      (r.store.inode i).size = (st.inode i).size := by
  induction bs generalizing st wPtr off pos n c with
  | nil =>
      cases hw
      have hzero : crossings off 0 = 0 := by
        simp only [crossings]
        omega
      rw [List.length_nil, hzero]
      exact ⟨h, rfl, rfl⟩
  | cons b bs ih =>
      simp only [writeLoop] at hw
      split at hw
      · next hend =>
        -- a new block, and then the rest from its second byte on
        have hcross : crossings off (b :: bs).length = crossings 1 bs.length + 1 := by
          simp only [crossings, List.length_cons, hend, blockSize]
          omega
        rw [hcross] at hc hfree ⊢
        obtain ⟨halloc, hmap, hfit', hnumber, hsize⟩ :=
          allocateBlock_directMap hfit h (by omega) (by omega)
        rw [halloc, Option.bind_eq_bind, Option.bind_some, if_neg (area.blockAddr_ne_zero _)] at hw
        obtain ⟨st₂, h₂, hw⟩ := Option.bind_eq_some_iff.mp hw
        obtain ⟨hinode, hsuper⟩ := Store.storeBytes_frame h₂
        have hmap₂ : DirectMap (st₂.inode i) (c + 1) := hinode ▸ hmap
        obtain ⟨hmap', hcount, hsize'⟩ := ih (hfit'.storeBytes h₂) hmap₂ (by omega) (by omega)
          (by rw [hsuper]; dsimp only; omega) hw
        rw [hinode] at hsize'
        refine ⟨?_, by rw [hcount, List.length_cons]; omega, hsize'.trans hsize⟩
        rwa [show c + (crossings 1 bs.length + 1) = c + 1 + crossings 1 bs.length by omega]
      · next hend =>
        have hcross : crossings off (b :: bs).length = crossings (off + 1) bs.length := by
          simp only [crossings, List.length_cons]
          congr 2
          push_cast
          ring
        rw [hcross] at hc hfree ⊢
        obtain ⟨st₂, h₂, hw⟩ := Option.bind_eq_some_iff.mp hw
        obtain ⟨hinode, hsuper⟩ := Store.storeBytes_frame h₂
        have hmap₂ : DirectMap (st₂.inode i) c := hinode ▸ h
        simp only [blockSize] at hend
        obtain ⟨hmap', hcount, hsize'⟩ := ih (hfit.storeBytes h₂) hmap₂ (by omega) hc
          (by rw [hsuper]; exact hfree) hw
        rw [hinode] at hsize'
        exact ⟨hmap', by rw [hcount, List.length_cons]; omega, hsize'⟩

/-! ## Steps -/

theorem blockCount_le {size : ℕ} (h : size < 8 * blockSize) : blockCount size ≤ 8 := by
  simp only [blockCount, blockSize] at *
  omega

/-- Before the byte loop `write_file` takes the blocks that `startBlocks` counts. -/
theorem startBlocks_spec {st st₁ st₂ : Store area} {i ptr wPtr ptr' c : ℕ} {pos : ℤ}
    (hfit : CountersFit st) (h : DirectMap (st.inode i) c)
    (hpos : 0 ≤ pos) (hstart : (st.inode i).location 0 = 0 → pos.tdiv blockSize = 0)
    (hc : c + startBlocks st (st.inode i) pos ≤ 8)
    (hfree : startBlocks st (st.inode i) pos ≤ st.superblock.freeBlockNumber)
    (h₁ : orAllocate st i ((st.inode i).location 0) = some (ptr, st₁))
    (hwPtr : switchAddress st₁ (st₁.inode i) (pos.tdiv blockSize) (pos.tmod blockSize) =
      some wPtr)
    (h₂ : orAllocate st₁ i wPtr = some (ptr', st₂)) :
    DirectMap (st₂.inode i) (c + startBlocks st (st.inode i) pos) ∧ CountersFit st₂ ∧
      st₂.superblock.freeBlockNumber + startBlocks st (st.inode i) pos =
        st.superblock.freeBlockNumber ∧
      (st₂.inode i).size = (st.inode i).size := by
  by_cases hloc : (st.inode i).location 0 = 0
  · have hone : startBlocks st (st.inode i) pos = 1 := if_neg fun hneed ↦ hneed.first hloc
    rw [hone] at hc hfree ⊢
    obtain ⟨halloc, hmap, hfit₁, hnumber, hsize⟩ :=
      allocateBlock_directMap hfit h (by omega) hfree
    rw [orAllocate, if_pos hloc, halloc] at h₁
    cases h₁
    -- the position lies in the block that was just taken
    have hzero : c = 0 := by
      by_contra hne
      exact h.mapped 0 (by omega) hloc
    have hslot : ((st.installDirect i).inode i).location 0 =
        area.blockAddr st.superblock.firstFreeBlock := by
      have hbn := h.blockNumber
      have hindex : ((st.inode i).blockNumber + 1).toNat = 0 := by omega
      simp [Store.installDirect, hindex]
    have hdiv : pos.tdiv blockSize = (0 : ℕ) := hstart hloc
    have hmod := Int.tmod_lt_of_pos pos (show (0 : ℤ) < blockSize by decide)
    have hmod' := Int.lt_tmod_of_pos pos (show (0 : ℤ) < blockSize by decide)
    rw [hdiv, switchAddress_direct _ _ _ (by omega), hslot] at hwPtr
    have hne : wPtr ≠ 0 := by
      rintro rfl
      exact addOffset_ne_zero hfit.lt hmod' hmod (Option.some.inj hwPtr)
    rw [orAllocate, if_neg hne] at h₂
    cases h₂
    exact ⟨hmap, hfit₁, hnumber, hsize⟩
  · rw [orAllocate, if_neg hloc] at h₁
    cases h₁
    by_cases hnull : wPtr = 0
    · have hone : startBlocks st (st.inode i) pos = 1 := if_neg fun hneed ↦
        hneed.ne_zero hwPtr hnull
      rw [hone] at hc hfree ⊢
      obtain ⟨halloc, hmap, hfit₁, hnumber, hsize⟩ :=
        allocateBlock_directMap hfit h (by omega) hfree
      rw [orAllocate, if_pos hnull, halloc] at h₂
      cases h₂
      exact ⟨hmap, hfit₁, hnumber, hsize⟩
    · have hnone : startBlocks st (st.inode i) pos = 0 := if_pos ⟨hloc, hpos, wPtr, hnull, hwPtr⟩
      rw [orAllocate, if_neg hnull] at h₂
      cases h₂
      rw [hnone]
      exact ⟨h, hfit, rfl, rfl⟩

theorem Gapless.writeFile {st st' : Store area} {i : ℕ} {pos pos' ret : ℤ} {input : List UInt8}
    {type : Char} (h : Gapless (st.inode i)) (hfit : CountersFit st)
    (hfills : FillsInOrder st (st.inode i) pos input.length)
    (hw : writeFile st i pos input type = some (ret, pos', st')) : Gapless (st'.inode i) := by
  obtain ⟨c, hmap, hsize₀⟩ := h
  rcases writeFile_phases hw with
    ⟨-, -, rfl⟩ | ⟨ptr, st₁, wPtr, ptr', st₂, r, h₁, -, hwPtr, h₂, hr, -, -, rfl⟩
  · exact ⟨c, hmap, hsize₀⟩
  · have hbn := hmap.blockNumber
    have hblocks := hfills.blocks
    have hcount := blockCount_le hfills.direct
    have hfree := hfills.free
    obtain ⟨hmap₂, hfit₂, hnumber₂, hsize₂⟩ := startBlocks_spec hfit hmap hfills.nonneg
      hfills.start (by omega) (by omega) h₁ hwPtr h₂
    have hoff := Int.tmod_lt_of_pos pos (show (0 : ℤ) < blockSize by decide)
    simp only [blockSize] at hoff
    obtain ⟨hmap₃, hlength, hsize₃⟩ :=
      writeLoop_directMap hfit₂ hmap₂ (by simp only [blockSize]; omega) (by omega) (by omega) hr
    have hsize : ((r.store.inode i).grow r.wSize).size =
        (st.inode i).size + input.length := by
      have hlt := hfills.direct
      simp only [blockSize] at hlt
      rw [MyInode.grow_size (by omega), hsize₃, hsize₂, hlength, Nat.zero_add]
    have htotal : c + startBlocks st (st.inode i) pos +
        crossings (pos.tmod blockSize) input.length =
        max 1 (blockCount ((st.inode i).size + input.length)) := by
      omega
    rw [htotal] at hmap₃
    rw [Store.setInode_inode]
    refine ⟨_, ⟨hmap₃.le, ?_, hmap₃.mapped, hmap₃.unmapped⟩, ?_⟩
    · rw [MyInode.grow_blockNumber, hsize]
      have hlast := hfills.last
      simp only [blockCount, blockSize] at hlast ⊢
      omega
    · rw [hsize]
      simp only [blockCount]
      omega

theorem gapless_renew {ino : MyInode} (hnull : ∀ k : ℕ, k < 10 → ino.location k = 0)
    (parent : ℕ) (mode : ℤ) (type : ObjectType) : Gapless (ino.renew parent mode type) :=
  ⟨0, ⟨by omega, rfl, fun _ hk ↦ by omega, fun k _ hk ↦ hnull k hk⟩,
    .inl (by simp [blockCount, MyInode.renew])⟩

/-- The last entry of a directory is not the first one of its block, or it is
the only one. -/
theorem Gapless.shrink {ino : MyInode} (h : Gapless ino)
    (hlast : ino.size = 16 ∨ 16 < ino.size % blockSize) : Gapless ino.shrink := by
  obtain ⟨c, hmap, hsize⟩ := h
  have hle := hmap.le
  simp only [blockSize, blockCount] at hlast hsize
  have hshrink : ino.shrink.size = ino.size - 16 := by
    simp only [MyInode.shrink, toUInt32]
    omega
  refine ⟨c, ⟨hle, hmap.blockNumber, hmap.mapped, hmap.unmapped⟩, ?_⟩
  rw [hshrink]
  simp only [blockCount]
  omega

/-- The invariant: every record in use is gapless. -/
structure GaplessStore (st : Store area) : Prop where
  firstFreeInode : FirstInodeFree st
  counters : CountersFit st
  records : ∀ i, st.InUse i → Gapless (st.inode i)

theorem gaplessStore_init (area : Area) : GaplessStore (initDatastructure area) where
  firstFreeInode := firstInodeFree_init area
  counters := ⟨le_refl 1, by simp [initDatastructure]⟩
  records := by
    intro i hi
    by_cases hroot : i = 0
    · subst hroot
      refine ⟨1, ⟨by omega, rfl, ?_, ?_⟩, .inr ⟨rfl, rfl⟩⟩
      · intro k hk
        obtain rfl : k = 0 := by omega
        have hpos := area.spacePtr_pos
        simp only [initDatastructure, rootInode, Function.update_self]
        omega
      · intro k hk _
        have hne : k ≠ 0 := by omega
        simp [initDatastructure, rootInode, zeroInode, hne]
    · have hop := hi.2
      simp [initDatastructure, hroot, zeroInode] at hop

namespace GaplessStore

variable {st st' : Store area}

theorem writeFile {i : ℕ} {pos pos' ret : ℤ} {input : List UInt8} {type : Char}
    (h : GaplessStore st) (hfills : WriteFillsInOrder st i pos input.length type)
    (hw : writeFile st i pos input type = some (ret, pos', st')) : GaplessStore st' := by
  refine ⟨h.firstFreeInode.writeFile hw, h.counters.writeFile hw, ?_⟩
  intro j hj
  have hinUse : st.InUse j := ⟨hj.1, writeFile_operation hw j ▸ hj.2⟩
  by_cases hji : j = i
  · subst hji
    rcases hfills hinUse with hrefuse | hfills
    · obtain ⟨-, rfl⟩ := writeFile_of_refuses hrefuse hw
      exact h.records j hinUse
    · exact (h.records j hinUse).writeFile h.counters hfills hw
  · rw [(writeFile_record hw).1 j hji]
    exact h.records j hinUse

theorem allocateInode {des : ℕ} {mode : ℤ} {type : ObjectType} (h : GaplessStore st)
    (hnull : ∀ k : ℕ, k < 10 → (st.inode st.superblock.firstFreeInode).location k = 0)
    (ha : allocateInode st des mode type = some st') : GaplessStore st' := by
  refine ⟨.allocateInode ha, h.counters.allocateInode ha, ?_⟩
  intro j hj
  have hinode := (allocateInode_eq_some ha).2.1
  by_cases hfirst : j = st.superblock.firstFreeInode
  · rw [hinode, hfirst, Function.update_self]
    exact gapless_renew hnull des mode type
  · have hop := hj.2
    rw [hinode, Function.update_of_ne hfirst] at hop ⊢
    exact h.records j ⟨hj.1, hop⟩

theorem freeInode {name : List UInt8} {i : ℕ} (h : GaplessStore st) (hi : i < inodeListNum)
    (hlast : (st.inode (st.inode i).parentIndex).size = 16 ∨
      16 < (st.inode (st.inode i).parentIndex).size % blockSize)
    (hfree : freeInode st name i = some st') : GaplessStore st' := by
  refine ⟨h.firstFreeInode.freeInode hi hfree, h.counters.freeInode hfree, ?_⟩
  intro j hj
  obtain ⟨hreleased, hothers⟩ := freeInode_operation hfree
  have hji : j ≠ i := by
    rintro rfl
    exact hj.2 hreleased
  have hinUse : st.InUse j := ⟨hj.1, hothers j hji ▸ hj.2⟩
  obtain ⟨st₁, ret, st₂, h₁, h₂, hinode, -, -, -⟩ := freeInode_eq_some hfree
  have hsame := (FreeFrame.of_freeBlock h₁).inode
  rw [hinode, Function.update_of_ne hji]
  rcases freeParentDirectoryEntry_cases h₂ with ⟨-, rfl⟩ | ⟨space, r, -, -, -, rfl⟩
  · rw [hsame]
    exact h.records j hinUse
  · by_cases hparent : j = (st.inode i).parentIndex
    · rw [hparent] at hinUse
      rw [hparent, Store.setInode_inode, hsame]
      exact (h.records _ hinUse).shrink hlast
    · rw [Store.setInode_inode_of_ne hparent]
      change Gapless (st₁.inode j)
      rw [hsame]
      exact h.records j hinUse

theorem run {op : DiskOp} (h : GaplessStore st) (hfills : op.FillsInOrder st)
    (hindex : ∀ name i, op = .unlink name i → i < inodeListNum)
    (hrun : op.run st = some st') : GaplessStore st' := by
  cases op with
  | nothing =>
      cases hrun
      exact h
  | write i pos input =>
      obtain ⟨⟨ret, pos', st₁⟩, hw, rfl⟩ := Option.map_eq_some_iff.mp hrun
      exact h.writeFile hfills hw
  | create des name mode type fresh =>
      obtain ⟨⟨ret, st₁⟩, hcreate, rfl⟩ := Option.map_eq_some_iff.mp hrun
      obtain ⟨ret', pos, st₂, hw, hend⟩ := createEntry_cases hcreate
      obtain ⟨hdes, hentry, hnull, -⟩ := hfills
      have hst₂ := h.writeFile hentry hw
      rcases hend with ⟨-, -, rfl⟩ | ⟨-, -, ha⟩
      · exact hst₂
      · -- the record that is handed out is not the parent's
        obtain ⟨hothers, -, hfirst⟩ := writeFile_record hw
        have hlt := (allocateInode_eq_some ha).1
        rw [hfirst] at hlt
        have hne : st.superblock.firstFreeInode ≠ des := by
          rintro rfl
          exact hdes.2 (h.firstFreeInode hlt)
        refine hst₂.allocateInode ?_ ha
        rw [hfirst, hothers _ hne]
        exact hnull
  | unlink name i => exact h.freeInode (hindex name i rfl) hfills hrun
  | chmod i mode =>
      have hfirst := h.firstFreeInode.run hindex hrun
      cases hrun
      refine ⟨hfirst, ⟨h.counters.firstFreeBlock, h.counters.freeBlockNumber⟩, ?_⟩
      intro j hj
      have hinUse : st.InUse j := ⟨hj.1, chmod_operation st i mode j ▸ hj.2⟩
      by_cases hji : j = i
      · subst hji
        rw [Store.setInode_inode]
        obtain ⟨c, hmap, hsize⟩ := h.records j hinUse
        exact ⟨c, ⟨hmap.le, hmap.blockNumber, hmap.mapped, hmap.unmapped⟩, hsize⟩
      · rw [Store.setInode_inode_of_ne hji]
        exact h.records j hinUse

end GaplessStore

/-! ## The next block -/

/-- The ninth block of a file becomes the first entry of a new index block. -/
theorem logicalPtr_allocateBlock_single {st st' : Store area} {i ptr : ℕ}
    (hfit : CountersFit st) (hbn : (st.inode i).blockNumber = 7)
    (h₈ : (st.inode i).location 8 = 0) (h : allocateBlock st i = some (ptr, st'))
    (hne : ptr ≠ 0) : st'.logicalPtr (st'.inode i) 8 = ptr := by
  simp only [allocateBlock] at h
  split at h
  · cases h
    exact (hne rfl).elim
  · obtain ⟨st₁, h₁, h⟩ := Option.bind_eq_some_iff.mp h
    have hinode := (allocateBitmap_eq_some h₁).1
    have hfit₁ := hfit.of_allocateBitmap h₁
    simp only [hbn] at h
    rw [if_neg (by decide), if_pos (by decide), installSingle, Store.setInode_inode, hinode,
      if_pos h₈] at h
    obtain ⟨st₂, h₂, h⟩ := Option.bind_eq_some_iff.mp h
    obtain ⟨st₃, h₃, h⟩ := Option.bind_eq_some_iff.mp h
    have hinode₂ := (allocateBitmap_eq_some h₂).1
    obtain ⟨-, rfl⟩ := Store.storeBytes_eq_some h₃
    cases h
    have hfirst : st₁.superblock.firstFreeBlock < allocatableSpaceSize := hfit₁.lt
    have hslot : (st₂.inode i).location 8 = area.blockAddr st.superblock.firstFreeBlock := by
      rw [hinode₂]
      simp [Store.setSlot]
    simp only [Store.logicalPtr, Store.entry]
    rw [if_neg (by omega), if_pos (by omega), hslot, if_neg (area.blockAddr_ne_zero _),
      Nat.sub_self, Nat.mul_zero, Nat.add_zero]
    have hread := readBytes_writeBytes st₂.space (area.blockAddr st.superblock.firstFreeBlock)
      (leBytes 4 (area.blockAddr st₁.superblock.firstFreeBlock))
    rw [length_leBytes] at hread
    have hvalue : leValue (leBytes 4 (area.blockAddr st₁.superblock.firstFreeBlock)) =
        area.blockAddr st₁.superblock.firstFreeBlock :=
      leValue_leBytes_of_lt (by simpa using Area.blockAddr_lt hfirst)
    exact (congrArg leValue hread).trans hvalue

theorem Gapless.gapFree {st : Store area} {i : ℕ} (h : Gapless (st.inode i))
    (hfit : CountersFit st) (hpos : 0 < (st.inode i).size) : GapFree st i := by
  obtain ⟨c, hmap, hcount⟩ := h
  have hc : blockCount (st.inode i).size = c := by omega
  have hle := hmap.le
  refine ⟨?_, ?_, ?_⟩
  · rw [hc]
    intro k hk
    have hk₈ : k < 8 := by omega
    simpa only [Store.logicalPtr, hk₈, if_true] using hmap.mapped k hk
  · rw [hc]
    intro k hk _
    by_contra hne
    obtain ⟨hk₈, hslot⟩ := logicalPtr_of_direct (hmap.unmapped 8 hle (by omega))
      (hmap.unmapped 9 (by omega) (by omega)) hne
    rw [hslot] at hne
    exact hne (hmap.unmapped k hk (by omega))
  · rw [hc]
    intro ptr st' halloc hne
    have hbn := hmap.blockNumber
    by_cases hc₈ : c < 8
    · rcases allocateBlock_direct_cases halloc hfit.lt (by omega) (by omega) with
        ⟨hnull, -⟩ | ⟨rfl, rfl⟩
      · exact (hne hnull).elim
      · have hslot : ((st.inode i).blockNumber + 1).toNat = c := by omega
        simp [Store.logicalPtr, hc₈, Store.installDirect, hslot]
    · obtain rfl : c = 8 := by omega
      exact logicalPtr_allocateBlock_single hfit (by omega) (hmap.unmapped 8 hle (by omega))
        halloc hne

/-! ## Runs -/

/-- In every state reached by calls that fill the blocks of their files in
order, the block maps of all files with bytes are free of gaps. -/
theorem blockMaps_gapFree (area : Area) (events : List Event) (s : State area)
    (hfills : PartialRun.Along step
      (fun t e _ ↦ ∀ op, diskOp t e = some op → op.FillsInOrder t.store)
      (initState area) events)
    (hrun : PartialRun.run step (initState area) events = some s) :
    ∀ i, s.store.InUse i → 0 < (s.store.inode i).size → GapFree s.store i := by
  have hinv : GaplessStore s.store := by
    refine PartialRun.invariant_of_along (I := fun t ↦ GaplessStore t.store) ?_
      (gaplessStore_init area) hfills hrun
    intro t e t' ht hguard hstep
    obtain ⟨op, hop, hdisk⟩ := diskOp_of_step hstep
    refine ht.run (hguard op hop) ?_ hdisk
    rintro name i rfl
    exact unlink_lt hop
  intro i hi hpos
  exact (hinv.records i hi).gapFree hinv.counters hpos

/-- The file `f`, written with two appends over a block boundary, and a file `g`
that is removed. -/
def twoAppends : List Event :=
  sampleCalls [.creat sampleName 1 fun _ ↦ 0, .creat secondName 1 fun _ ↦ 0,
    .openPath sampleName 1, .write 1 (List.replicate 200 120), .unlink secondName,
    .write 1 (List.replicate 100 121)]

theorem blockMaps_gapFree_twoAppends : ∃ s, GapFree s.store 1 ∧
    PartialRun.run step (initState sampleArea) twoAppends = some s ∧
      (s.store.inode 1).size = 300 := by
  have hsize : (PartialRun.run step (initState sampleArea) twoAppends).map (fun s ↦
      ((s.store.inode 1).size, decide (s.store.InUse 1))) = some (300, true) := by
    decide +kernel
  have htest : PartialRun.check step (fun s e ↦ (diskOp s e).all fun op ↦
      decide (op.FillsInOrder s.store)) (initState sampleArea) twoAppends = true := by
    decide +kernel
  obtain ⟨s, hs, hfacts⟩ := Option.map_eq_some_iff.mp hsize
  simp only [Prod.mk.injEq, decide_eq_true_eq] at hfacts
  refine ⟨s, blockMaps_gapFree sampleArea twoAppends s ?_ hs 1 hfacts.2 (by omega), hs, hfacts.1⟩
  refine PartialRun.along_of_check ?_ htest
  intro s e _ hall op hop
  simpa [hop] using hall

def fullBlock : List Event :=
  sampleCalls [.creat sampleName 1 fun _ ↦ 0, .openPath sampleName 1,
    .write 1 (List.replicate 256 120)]

/-- After a write of exactly one block the next block goes to logical number 2. -/
theorem full_block_leaves_gap :
    ∃ s, PartialRun.run step (initState sampleArea) fullBlock = some s ∧ s.store.InUse 1 ∧
      0 < (s.store.inode 1).size ∧ ¬ GapFree s.store 1 := by
  have hrun : (PartialRun.run step (initState sampleArea) fullBlock).map (fun s ↦
      ((s.store.inode 1).size, decide (s.store.InUse 1),
        (allocateBlock s.store 1).map fun r ↦ (r.1, (r.2.inode 1).location 1))) =
      some (256, true, some (sampleArea.blockAddr 0, 0)) := by
    decide +kernel
  obtain ⟨s, hs, hfacts⟩ := Option.map_eq_some_iff.mp hrun
  simp only [Prod.mk.injEq, decide_eq_true_eq] at hfacts
  obtain ⟨hsize, hinUse, hnext⟩ := hfacts
  obtain ⟨⟨ptr, st'⟩, halloc, hfacts⟩ := Option.map_eq_some_iff.mp hnext
  obtain ⟨rfl, hslot⟩ := Prod.mk.inj hfacts
  refine ⟨s, hs, hinUse, by omega, ?_⟩
  intro hgap
  have hptr := hgap.next _ _ halloc (sampleArea.blockAddr_ne_zero 0)
  have hcount : blockCount (s.store.inode 1).size = 1 := by
    rw [hsize]
    rfl
  rw [hcount] at hptr
  dsimp only at hslot
  simp only [Store.logicalPtr, Nat.one_lt_ofNat, if_true, hslot] at hptr
  exact sampleArea.blockAddr_ne_zero 0 hptr.symm

end OperatingSystem.Filesys
