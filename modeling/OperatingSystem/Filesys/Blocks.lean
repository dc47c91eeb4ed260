import OperatingSystem.Filesys.Data

/-!
# Bitmap and block maps

`allocate_bitmap`, `free_bitmap`, `switchAddress`, `get_blockpointer`,
`allocate_block` and `free_block` of `support_function.h`.
-/

namespace OperatingSystem.Filesys

open ByteMemory

variable {area : Area}

/-! ## The bitmap -/

/-- The inner loop of `allocate_bitmap`: the first `j` with
`index[i] && (0x80 >> j)`, and 8 if there is none. The source joins the two
operands with a logical and. -/
def scanByte (byte : BitVec 8) : ℕ :=
  (List.range 8).findIdx fun j ↦ byte != 0 && (0x80#8 >>> j) != 0

/-- The outer loop of `allocate_bitmap`: `i` and `j` when it ends. -/
def searchBitmap (bitmap : ℕ → BitVec 8) : ℕ → ℕ → ℕ × ℕ
  | 0, i => (i, 8)
  | fuel + 1, i =>
      if scanByte (bitmap i) = 8 then searchBitmap bitmap fuel (i + 1)
      else (i + 1, scanByte (bitmap i))

def allocateBitmap (st : Store area) (newBlock : ℕ) : Option (Store area) :=
  let indexNum := newBlock / 8
  let indexOffset := newBlock % 8
  if indexNum < bitmapSublock then
    let bitmap := Function.update st.bitmap indexNum (st.bitmap indexNum ||| 0x80#8 >>> indexOffset)
    let stop := searchBitmap bitmap (bitmapSublock - indexNum) indexNum
    let next : ℤ := ((stop.1 : ℤ) - 1) * 8 + stop.2
    let next := if next > allocatableSpaceSize then -1 else next
    some
      { st with
        bitmap := bitmap
        superblock :=
          { st.superblock with
            freeBlockNumber := toUInt16 (st.superblock.freeBlockNumber - 1)
            firstFreeBlock := toUInt16 next } }
  else none

def freeBitmap (st : Store area) (location : ℕ) : Option (Store area) :=
  let blockNum := ((location : ℤ) - area.spacePtr).tdiv blockSize
  if 0 ≤ blockNum ∧ blockNum.toNat / 8 < bitmapSublock then
    let byteNum := blockNum.toNat / 8
    let bitNum := blockNum.toNat % 8
    let freeIndex := byteNum * 8 + bitNum
    some
      { st with
        bitmap := Function.update st.bitmap byteNum
          (st.bitmap byteNum ||| (0x08#8 ^^^ 0xff#8 >>> bitNum))
        superblock :=
          { st.superblock with
            freeBlockNumber := toUInt16 (st.superblock.freeBlockNumber + 1)
            firstFreeBlock :=
              if st.superblock.firstFreeBlock > freeIndex then toUInt16 freeIndex
              else st.superblock.firstFreeBlock } }
  else none

/-! ## Address translation -/

/-- `(char*)ptr + offset` in 32 bits. -/
def addOffset (ptr : ℕ) (offset : ℤ) : ℕ := toUInt32 (ptr + offset)

def MyInode.slot (ino : MyInode) (k : ℤ) : Option ℕ :=
  if 0 ≤ k ∧ k < 10 then some (ino.location k.toNat) else none

def switchAddress (st : Store area) (ino : MyInode) (blockNum blockOffset : ℤ) : Option ℕ :=
  if blockNum < 8 then
    (ino.slot blockNum).map fun ptr ↦ addOffset ptr blockOffset
  else if blockNum < 72 then
    if ino.location 8 = 0 then some 0
    else (st.loadWord (ino.location 8 + 4 * (blockNum - 8).toNat) 4).map fun ptr ↦
      addOffset ptr blockOffset
  else
    if ino.location 9 = 0 then some 0
    else
      (st.loadWord (ino.location 9 + 4 * ((blockNum - 72).toNat / 64)) 4).bind fun single ↦
        (st.loadWord (single + 4 * ((blockNum - 72).toNat % 64)) 4).map fun ptr ↦
          addOffset ptr blockOffset

def getBlockpointer (st : Store area) (position : ℤ) (ino : MyInode) : Option ℕ :=
  let blockNum := position.tdiv blockSize
  let blockOffset := position.tmod blockSize
  if position < 0 then some 0
  else if blockNum < 8 then
    (ino.slot blockNum).map fun ptr ↦ if ptr = 0 then 0 else addOffset ptr blockOffset
  else if blockNum < 72 then
    if ino.location 8 = 0 then some 0
    else (st.loadWord (ino.location 8 + 4 * (blockNum - 8).toNat) 4).map fun ptr ↦
      addOffset ptr blockOffset
  else
    if ino.location 9 = 0 then some 0
    else
      (st.loadWord (ino.location 9 + 4 * ((blockNum - 72).toNat / 64)) 4).bind fun single ↦
        (st.loadWord (single + 4 * ((blockNum - 72).toNat % 64)) 4).map fun ptr ↦
          addOffset ptr blockOffset

/-! ## Taking a block -/

def Store.setSlot (st : Store area) (i : ℕ) (k ptr : ℕ) : Store area :=
  st.setInode i
    { st.inode i with location := Function.update (st.inode i).location k ptr }

/-- The branch of `allocate_block` for `block_num < 72`, after the first block
was taken from the bitmap. -/
def installSingle (st : Store area) (i newBlock blockNum : ℕ) : Option (ℕ × Store area) :=
  let ptr1 := area.blockAddr newBlock
  if (st.inode i).location 8 = 0 then do
    let st := st.setSlot i 8 ptr1
    let newBlock := st.superblock.firstFreeBlock
    let st ← allocateBitmap st newBlock
    let ptr2 := area.blockAddr newBlock
    let st ← st.storePtr ptr1 ptr2
    some (ptr2, st)
  else do
    let st ← st.storePtr ((st.inode i).location 8 + 4 * (blockNum - 8)) ptr1
    some (ptr1, st)

/-- The branch of `allocate_block` for `block_num >= 72`. -/
def installDouble (st : Store area) (i newBlock blockNum : ℕ) : Option (ℕ × Store area) :=
  let ptr1 := area.blockAddr newBlock
  if (st.inode i).location 9 = 0 then do
    let st := st.setSlot i 9 ptr1
    let newBlock := st.superblock.firstFreeBlock
    let st ← allocateBitmap st newBlock
    let ptr2 := area.blockAddr newBlock
    let st ← st.storePtr ptr1 ptr2
    let newBlock := st.superblock.firstFreeBlock
    let st ← allocateBitmap st newBlock
    let ptr3 := area.blockAddr newBlock
    let single ← st.loadWord ptr1 4
    let st ← st.storePtr single ptr3
    some (ptr3, st)
  else do
    let doubleSlot := (st.inode i).location 9 + 4 * ((blockNum - 72) / 64)
    let singleIndex := (blockNum - 72) % 64
    let single ← st.loadWord doubleSlot 4
    if single = 0 then do
      let st ← st.storePtr doubleSlot ptr1
      let newBlock := st.superblock.firstFreeBlock
      let st ← allocateBitmap st newBlock
      let ptr2 := area.blockAddr newBlock
      let single ← st.loadWord doubleSlot 4
      let st ← st.storePtr single ptr2
      some (ptr2, st)
    else do
      let st ← st.storePtr (single + 4 * singleIndex) ptr1
      some (ptr1, st)

/-- The checks by which `allocate_block` refuses before it takes anything. -/
def RefusesBlock (sb : Superblock) (ino : MyInode) : Prop :=
  ino.blockNumber + 1 > maxFileSize / blockSize ∨
  sb.freeBlockNumber < 1 ∨
  (ino.blockNumber + 1 = 8 ∧ sb.freeBlockNumber < 2) ∨
  (ino.blockNumber + 1 = 72 ∧ sb.freeBlockNumber < 3)

instance (sb : Superblock) (ino : MyInode) : Decidable (RefusesBlock sb ino) :=
  inferInstanceAs (Decidable (_ ∨ _))

/-- Returns the address of the new block, or `NULL`. -/
def allocateBlock (st : Store area) (i : ℕ) : Option (ℕ × Store area) :=
  let blockNum := (st.inode i).blockNumber + 1
  if RefusesBlock st.superblock (st.inode i) then some (0, st)
  else do
    let newBlock := st.superblock.firstFreeBlock
    let st ← allocateBitmap st newBlock
    let st := st.setInode i { st.inode i with blockNumber := blockNum, lastBlockOffset := 0 }
    if blockNum < 8 then
      if 0 ≤ blockNum then
        some (area.blockAddr newBlock, st.setSlot i blockNum.toNat (area.blockAddr newBlock))
      else none
    else if blockNum < 72 then installSingle st i newBlock blockNum.toNat
    else installDouble st i newBlock blockNum.toNat

/-! ## Giving the blocks back -/

/-- A loop of `free_block` over pointers read by `next`: clear and free every
block up to the first `NULL`. The pointers are read one at a time, after the
blocks before them were cleared. -/
def freeLoop (next : Store area → ℕ → Option ℕ) :
    ℕ → ℕ → Store area → Option (Store area)
  | 0, _, st => some st
  | count + 1, k, st => do
      let ptr ← next st k
      if ptr = 0 then some st
      else do
        let st ← st.clearBlock ptr
        let st ← freeBitmap st ptr
        freeLoop next count (k + 1) st

/-- The last loop of `free_block`. The second-level blocks themselves are not
freed. -/
def freeDouble (double : ℕ) : ℕ → ℕ → Store area → Option (Store area)
  | 0, _, st => some st
  | count + 1, k, st => do
      let single ← st.loadWord (double + 4 * k) 4
      if single = 0 then some st
      else do
        let st ← freeLoop
          (fun st j ↦ (st.loadWord (double + 4 * k) 4).bind fun single ↦
            st.loadWord (single + 4 * j) 4) 64 0 st
        freeDouble double count (k + 1) st

def freeBlock (st : Store area) (i : ℕ) : Option (Store area) := do
  let ino := st.inode i
  if ino.blockNumber < 0 then some st
  else do
    let st ← freeLoop (fun _ k ↦ some (ino.location k)) 9 0 st
    if ino.blockNumber < 8 then some st
    else do
      let st ← freeLoop (fun st k ↦ st.loadWord (ino.location 8 + 4 * k) 4) 64 0 st
      if ino.blockNumber < 72 then some st
      else freeDouble (ino.location 9) 64 0 st

end OperatingSystem.Filesys
