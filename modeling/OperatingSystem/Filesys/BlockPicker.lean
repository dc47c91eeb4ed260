import OperatingSystem.Filesys.Files

/-!
# The write path over any block picker

`allocate_block` and `write_file` with the choice of a free block left open:
where the module takes `first_freeBlock` and marks it by `allocate_bitmap`, any
function on the store may pick. With the picker of the module they are the
functions of the module.
-/

namespace OperatingSystem.Filesys

open ByteMemory

variable {area : Area}

/-- The number of a free block, and the store with the block marked. -/
abbrev Picker (area : Area) := Store area → Option (ℕ × Store area)

/-- `new_block = superblock_ptr->first_freeBlock; allocate_bitmap(new_block)`. -/
def firstFreePick : Picker area := fun st ↦
  (allocateBitmap st st.superblock.firstFreeBlock).map fun st' ↦
    (st.superblock.firstFreeBlock, st')

/-! ## Taking a block -/

def installSingleWith (pick : Picker area) (st : Store area) (i newBlock blockNum : ℕ) :
    Option (ℕ × Store area) :=
  let ptr1 := area.blockAddr newBlock
  if (st.inode i).location 8 = 0 then do
    let st := st.setSlot i 8 ptr1
    let (newBlock, st) ← pick st
    let ptr2 := area.blockAddr newBlock
    let st ← st.storePtr ptr1 ptr2
    some (ptr2, st)
  else do
    let st ← st.storePtr ((st.inode i).location 8 + 4 * (blockNum - 8)) ptr1
    some (ptr1, st)

def installDoubleWith (pick : Picker area) (st : Store area) (i newBlock blockNum : ℕ) :
    Option (ℕ × Store area) :=
  let ptr1 := area.blockAddr newBlock
  if (st.inode i).location 9 = 0 then do
    let st := st.setSlot i 9 ptr1
    let (newBlock, st) ← pick st
    let ptr2 := area.blockAddr newBlock
    let st ← st.storePtr ptr1 ptr2
    let (newBlock, st) ← pick st
    let ptr3 := area.blockAddr newBlock
    let single ← st.loadWord ptr1 4
    let st ← st.storePtr single ptr3
    some (ptr3, st)
  else do
    let doubleSlot := (st.inode i).location 9 + 4 * ((blockNum - 72) / 64)
    let singleIndex := (blockNum - 72) % 64
    let single ← st.loadWord doubleSlot 4
    if single = 0 then do
      let st ← st.storePtr doubleSlot ptr1
      let (newBlock, st) ← pick st
      let ptr2 := area.blockAddr newBlock
      let single ← st.loadWord doubleSlot 4
      let st ← st.storePtr single ptr2
      some (ptr2, st)
    else do
      let st ← st.storePtr (single + 4 * singleIndex) ptr1
      some (ptr1, st)

def allocateBlockWith (pick : Picker area) (st : Store area) (i : ℕ) :
    Option (ℕ × Store area) :=
  let blockNum := (st.inode i).blockNumber + 1
  if RefusesBlock st.superblock (st.inode i) then some (0, st)
  else do
    let (newBlock, st) ← pick st
    let st := st.setInode i { st.inode i with blockNumber := blockNum, lastBlockOffset := 0 }
    if blockNum < 8 then
      if 0 ≤ blockNum then
        some (area.blockAddr newBlock, st.setSlot i blockNum.toNat (area.blockAddr newBlock))
      else none
    else if blockNum < 72 then installSingleWith pick st i newBlock blockNum.toNat
    else installDoubleWith pick st i newBlock blockNum.toNat

/-! ## Writing -/

def orAllocateWith (pick : Picker area) (st : Store area) (i ptr : ℕ) : Option (ℕ × Store area) :=
  if ptr = 0 then allocateBlockWith pick st i else some (ptr, st)

def writeLoopWith (pick : Picker area) (i : ℕ) :
    List UInt8 → Store area → ℕ → ℤ → ℤ → ℕ → Option (WriteResult area)
  | [], st, _, _, position, wSize => some ⟨st, position, wSize⟩
  | b :: bs, st, wPtr, blockOffset, position, wSize =>
      if blockOffset = blockSize then do
        let (ptr, st) ← allocateBlockWith pick st i
        if ptr = 0 then some ⟨st, position, wSize⟩
        else do
          let st ← st.storeBytes ptr [b]
          writeLoopWith pick i bs st (ptr + 1) 1 (position + 1) (wSize + 1)
      else do
        let st ← st.storeBytes wPtr [b]
        writeLoopWith pick i bs st (wPtr + 1) (blockOffset + 1) (position + 1) (wSize + 1)

def writeFileWith (pick : Picker area) (st : Store area) (i : ℕ) (position : ℤ)
    (input : List UInt8) (type : Char) : Option (ℤ × ℤ × Store area) := do
  let ino ← st.inodeAt i
  if type = 'w' ∧ ino.type = .dir then some (ERROR, position, st)
  else do
    let (ptr, st) ← orAllocateWith pick st i (ino.location 0)
    if ptr = 0 then some (ERROR, position, st)
    else do
      let blockOffset := position.tmod blockSize
      let wPtr ← switchAddress st (st.inode i) (position.tdiv blockSize) blockOffset
      let (wPtr, st) ← orAllocateWith pick st i wPtr
      let r ← writeLoopWith pick i input st wPtr blockOffset position 0
      some (r.wSize, r.position, r.store.setInode i ((r.store.inode i).grow r.wSize))

/-! ## The picker of the module -/

theorem bind_firstFreePick {α : Type} (st : Store area) (f : ℕ × Store area → Option α) :
    (firstFreePick st).bind f = (allocateBitmap st st.superblock.firstFreeBlock).bind fun st' ↦
      f (st.superblock.firstFreeBlock, st') := by
  rw [firstFreePick, Option.bind_map]
  rfl

theorem installSingleWith_firstFreePick (st : Store area) (i newBlock blockNum : ℕ) :
    installSingleWith firstFreePick st i newBlock blockNum =
      installSingle st i newBlock blockNum := by
  simp only [installSingleWith, installSingle, Option.bind_eq_bind, bind_firstFreePick]

theorem installDoubleWith_firstFreePick (st : Store area) (i newBlock blockNum : ℕ) :
    installDoubleWith firstFreePick st i newBlock blockNum =
      installDouble st i newBlock blockNum := by
  simp only [installDoubleWith, installDouble, Option.bind_eq_bind, bind_firstFreePick]

theorem allocateBlockWith_firstFreePick (st : Store area) (i : ℕ) :
    allocateBlockWith firstFreePick st i = allocateBlock st i := by
  simp only [allocateBlockWith, allocateBlock, Option.bind_eq_bind, bind_firstFreePick,
    installSingleWith_firstFreePick, installDoubleWith_firstFreePick]

theorem orAllocateWith_firstFreePick (st : Store area) (i ptr : ℕ) :
    orAllocateWith firstFreePick st i ptr = orAllocate st i ptr := by
  rw [orAllocateWith, orAllocate, allocateBlockWith_firstFreePick]

theorem writeLoopWith_firstFreePick (i : ℕ) (bs : List UInt8) (st : Store area) (wPtr : ℕ)
    (off pos : ℤ) (n : ℕ) :
    writeLoopWith firstFreePick i bs st wPtr off pos n = writeLoop i bs st wPtr off pos n := by
  induction bs generalizing st wPtr off pos n with
  | nil => rfl
  | cons b bs ih =>
      simp only [writeLoopWith, writeLoop, allocateBlockWith_firstFreePick, ih]

theorem writeFileWith_firstFreePick (st : Store area) (i : ℕ) (position : ℤ)
    (input : List UInt8) (type : Char) :
    writeFileWith firstFreePick st i position input type = writeFile st i position input type := by
  simp only [writeFileWith, writeFile, orAllocateWith_firstFreePick, writeLoopWith_firstFreePick]

/-! ## Allocators -/

/-- Only inode records and bytes of the given blocks differ. -/
structure SameOutside (given : Set ℕ) (st st' : Store area) : Prop where
  superblock : st'.superblock = st.superblock
  bitmap : st'.bitmap = st.bitmap
  space : ∀ x, (∀ b ∈ given, x < area.blockAddr b ∨ area.blockAddr b + 256 ≤ x) →
    st'.space x = st.space x

/-- The picker has `m` more blocks: whatever the caller does with its inodes and
the blocks it was given, it gets one that is in the data area, was not given
before and is filled with zeros, and nothing but the bookkeeping changes. -/
def Supplies (pick : Picker area) : ℕ → Set ℕ → Store area → Prop
  | 0, _, _ => True
  | m + 1, given, st => ∀ st₁, SameOutside given st st₁ →
      m + 1 ≤ st₁.superblock.freeBlockNumber ∧
      ∃ b st₂, pick st₁ = some (b, st₂) ∧ b < allocatableSpaceSize ∧ b ∉ given ∧
        (∀ x < 256, st₁.space (area.blockAddr b + x) = 0) ∧
        st₂.inode = st₁.inode ∧ st₂.space = st₁.space ∧ Supplies pick m (insert b given) st₂

namespace SameOutside

variable {given : Set ℕ} {st st₁ st₂ : Store area}

theorem refl (given : Set ℕ) (st : Store area) : SameOutside given st st :=
  ⟨rfl, rfl, fun _ _ ↦ rfl⟩

theorem trans (h : SameOutside given st st₁) (g : SameOutside given st₁ st₂) :
    SameOutside given st st₂ :=
  ⟨g.superblock.trans h.superblock, g.bitmap.trans h.bitmap, fun x hx ↦
    (g.space x hx).trans (h.space x hx)⟩

theorem setInode (given : Set ℕ) (st : Store area) (i : ℕ) (ino : MyInode) :
    SameOutside given st (st.setInode i ino) :=
  ⟨rfl, rfl, fun _ _ ↦ rfl⟩

theorem storeBytes {b off : ℕ} {bytes : List UInt8} (hb : b ∈ given)
    (hoff : off + bytes.length ≤ 256) : SameOutside given st
      { st with space := writeBytes st.space (area.blockAddr b + off) bytes } := by
  refine ⟨rfl, rfl, fun x hx ↦ writeBytes_of_disjoint ?_⟩
  have hout := hx b hb
  omega

end SameOutside

theorem Supplies.congr {pick : Picker area} {m : ℕ} {given : Set ℕ} {st st₁ : Store area}
    (h : Supplies pick m given st) (hsame : SameOutside given st st₁) :
    Supplies pick m given st₁ := by
  cases m with
  | zero => trivial
  | succ m => exact fun st₂ hst₂ ↦ h st₂ (hsame.trans hst₂)

/-- Hands the blocks out in their order, each once. -/
def pickInOrder : Picker area := fun st ↦
  some (st.superblock.firstFreeBlock, { st with
    superblock := { st.superblock with
      freeBlockNumber := st.superblock.freeBlockNumber - 1
      firstFreeBlock := st.superblock.firstFreeBlock + 1 } })

/-- On a disk whose blocks from the first free one on are zero, it supplies them
all. -/
theorem supplies_pickInOrder {m : ℕ} {given : Set ℕ} {st : Store area}
    (hfree : m ≤ st.superblock.freeBlockNumber)
    (hfits : st.superblock.firstFreeBlock + m ≤ allocatableSpaceSize)
    (hgiven : ∀ b ∈ given, b < st.superblock.firstFreeBlock)
    (hzero : ∀ b, st.superblock.firstFreeBlock ≤ b → ∀ x < 256,
      st.space (area.blockAddr b + x) = 0) : Supplies pickInOrder m given st := by
  induction m generalizing given st with
  | zero => trivial
  | succ m ih =>
      intro st₁ hst₁
      have hsame : ∀ b, st.superblock.firstFreeBlock ≤ b → ∀ x < 256,
          st₁.space (area.blockAddr b + x) = 0 := by
        intro b hb x hx
        rw [hst₁.space]
        · exact hzero b hb x hx
        · intro c hc
          have hlt := hgiven c hc
          simp only [Area.blockAddr, blockSize]
          omega
      rw [hst₁.superblock]
      refine ⟨hfree, _, _, rfl, ?_, ?_, ?_, rfl, rfl, ih ?_ ?_ ?_ ?_⟩
      · rw [hst₁.superblock]
        omega
      · rw [hst₁.superblock]
        intro hmem
        exact absurd (hgiven _ hmem) (Nat.lt_irrefl _)
      · rw [hst₁.superblock]
        exact hsame _ (le_refl _)
      · dsimp only
        rw [hst₁.superblock]
        omega
      · dsimp only
        rw [hst₁.superblock]
        omega
      · dsimp only
        rw [hst₁.superblock]
        rintro b (rfl | hb)
        · exact Nat.lt_succ_self _
        · exact Nat.lt_succ_of_lt (hgiven b hb)
      · dsimp only
        rw [hst₁.superblock]
        exact fun b hb ↦ hsame b (by omega)

end OperatingSystem.Filesys
