import OperatingSystem.Filesys.Blocks

/-!
# Files and directories on the disk

`write_file`, directory lookup (`isExist`, `search`), and the allocation and
release of inodes, as functions on the contents of the RAM disk.
-/

namespace OperatingSystem.Filesys

open ByteMemory

variable {area : Area}

/-! ## Writing -/

/-- What the byte loop of `write_file` leaves: the store, `*position` and
`w_size`. -/
structure WriteResult (area : Area) where
  store : Store area
  position : ℤ
  wSize : ℕ

/-- The byte loop of `write_file` on the bytes that are still to be written.
At the end of a block it asks for a new one, whatever the block map says about
the next position. -/
def writeLoop (i : ℕ) :
    List UInt8 → Store area → ℕ → ℤ → ℤ → ℕ → Option (WriteResult area)
  | [], st, _, _, position, wSize => some ⟨st, position, wSize⟩
  | b :: bs, st, wPtr, blockOffset, position, wSize =>
      if blockOffset = blockSize then do
        let (ptr, st) ← allocateBlock st i
        if ptr = 0 then some ⟨st, position, wSize⟩
        else do
          let st ← st.storeBytes ptr [b]
          writeLoop i bs st (ptr + 1) 1 (position + 1) (wSize + 1)
      else do
        let st ← st.storeBytes wPtr [b]
        writeLoop i bs st (wPtr + 1) (blockOffset + 1) (position + 1) (wSize + 1)

def MyInode.grow (ino : MyInode) (wSize : ℕ) : MyInode :=
  let size := toUInt32 (ino.size + wSize)
  { ino with
    size := size
    blockNumber := size / blockSize
    lastBlockOffset := size % blockSize }

theorem MyInode.grow_size {ino : MyInode} {n : ℕ} (h : ino.size + n < 4294967296) :
    (ino.grow n).size = ino.size + n := toUInt32_of_lt h

theorem MyInode.grow_blockNumber (ino : MyInode) (n : ℕ) :
    (ino.grow n).blockNumber = (((ino.grow n).size / 256 : ℕ) : ℤ) := rfl

theorem MyInode.grow_lastBlockOffset (ino : MyInode) (n : ℕ) :
    (ino.grow n).lastBlockOffset = (((ino.grow n).size % 256 : ℕ) : ℤ) := rfl

/-- A pointer of `write_file`, with a new block in the place of `NULL`. -/
def orAllocate (st : Store area) (i ptr : ℕ) : Option (ℕ × Store area) :=
  if ptr = 0 then allocateBlock st i else some (ptr, st)

/-- The return value, the new `*position` and the store. The input is the list
of the bytes to write; a negative size writes none. -/
def writeFile (st : Store area) (i : ℕ) (position : ℤ) (input : List UInt8) (type : Char) :
    Option (ℤ × ℤ × Store area) := do
  let ino ← st.inodeAt i
  if type = 'w' ∧ ino.type = .dir then some (ERROR, position, st)
  else do
    let (ptr, st) ← orAllocate st i (ino.location 0)
    if ptr = 0 then some (ERROR, position, st)
    else do
      let blockOffset := position.tmod blockSize
      let wPtr ← switchAddress st (st.inode i) (position.tdiv blockSize) blockOffset
      let (wPtr, st) ← orAllocate st i wPtr
      let r ← writeLoop i input st wPtr blockOffset position 0
      some (r.wSize, r.position, r.store.setInode i ((r.store.inode i).grow r.wSize))

/-! ## Looking a name up -/

/-- `strcmp` of the string at an address with a C string. -/
def strcmpEq (st : Store area) (addr : ℕ) : List UInt8 → Option Bool
  | [] => (st.load addr).map fun b ↦ b = 0
  | c :: cs => (st.load addr).bind fun b ↦
      if b = c then strcmpEq st (addr + 1) cs else some false

/-- The answer of a search, the entries it may still inspect, and
`*directory_index`. -/
structure SearchResult where
  ans : ℤ
  times : ℕ
  directoryIndex : ℤ
  deriving DecidableEq

/-- The inner loop of `search`: the 16 entries of the block at `entry`. -/
def searchBlock (st : Store area) (filename : List UInt8) (entry : ℕ) :
    ℕ → ℕ → ℕ → ℤ → Option SearchResult
  | 0, _, times, dirIndex => some ⟨ERROR, times, dirIndex⟩
  | count + 1, j, times, dirIndex =>
      if times = 0 then some ⟨ERROR, times, dirIndex⟩
      else do
        let found ← strcmpEq st (entry + 16 * j) filename
        if found then
          let inodeIndex ← st.loadWord (entry + 16 * j + 14) 2
          some ⟨inodeIndex, times, dirIndex + 1⟩
        else searchBlock st filename entry count (j + 1) (times - 1) (dirIndex + 1)

/-- `search` over the pointers `location 0, location 1, …`. -/
def search (st : Store area) (filename : List UInt8) (location : ℕ → Option ℕ) :
    ℕ → ℕ → ℕ → ℤ → Option SearchResult
  | 0, _, times, dirIndex => some ⟨ERROR, times, dirIndex⟩
  | count + 1, i, times, dirIndex =>
      if times = 0 then some ⟨ERROR, times, dirIndex⟩
      else do
        let entry ← location i
        if entry = 0 then some ⟨ERROR, times, dirIndex⟩
        else do
          let r ← searchBlock st filename entry 16 0 times dirIndex
          if r.ans ≠ ERROR then some r
          else search st filename location count (i + 1) r.times r.directoryIndex

/-- The last loop of `isExist`, over the second-level blocks. -/
def searchDouble (st : Store area) (filename : List UInt8) (double : ℕ) :
    ℕ → ℕ → ℕ → ℤ → Option SearchResult
  | 0, _, times, dirIndex => some ⟨ERROR, times, dirIndex⟩
  | count + 1, i, times, dirIndex => do
      let single ← st.loadWord (double + 4 * i) 4
      if single = 0 then some ⟨ERROR, times, dirIndex⟩
      else do
        let r ← search st filename (fun k ↦ st.loadWord (single + 4 * k) 4) 64 0 times dirIndex
        if r.ans ≠ ERROR then some r
        else if r.times = 0 then some r
        else searchDouble st filename double count (i + 1) r.times r.directoryIndex

def isExist (st : Store area) (filename : List UInt8) (parent : ℕ) (dirIndex : ℤ) :
    Option SearchResult :=
  if filename.length > 13 then some ⟨ERROR, 0, dirIndex⟩
  else do
    let ino ← st.inodeAt parent
    let childNum := (toInt ino.size).tdiv 16
    if childNum ≤ 0 then some ⟨ERROR, 0, dirIndex⟩
    else do
      let r ← search st filename (fun k ↦ some (ino.location k)) 8 0 childNum.toNat dirIndex
      if r.ans ≠ ERROR then some r
      else if r.times = 0 then some r
      else if ino.location 8 = 0 then some r
      else do
        let r ← search st filename (fun k ↦ st.loadWord (ino.location 8 + 4 * k) 4) 64 0
          r.times r.directoryIndex
        if r.ans ≠ ERROR then some r
        else if r.times = 0 then some r
        else if ino.location 9 = 0 then some r
        else searchDouble st filename (ino.location 9) 64 0 r.times r.directoryIndex

/-! ## Inodes -/

/-- The scan of `allocate_inode` for the next record with `operation == 0`. -/
def nextFreeInode (inode : ℕ → MyInode) : ℕ → ℕ → ℕ
  | 0, i => i
  | fuel + 1, i => if (inode i).operation = 0 then i else nextFreeInode inode fuel (i + 1)

/-- The record that `allocate_inode` writes over an old one. The pointers of
the old record stay. -/
def MyInode.renew (ino : MyInode) (parent : ℕ) (mode : ℤ) (type : ObjectType) : MyInode :=
  { ino with
    type := type
    size := 0
    protection := 0
    operation := 0x100
    parentIndex := toUInt16 parent
    blockNumber := -1
    lastBlockOffset := 0
    mode := mode }

def allocateInode (st : Store area) (parent : ℕ) (mode : ℤ) (type : ObjectType) :
    Option (Store area) := do
  let first := st.superblock.firstFreeInode
  let ino ← st.inodeAt first
  let st := st.setInode first (ino.renew parent mode type)
  some
    { st with
      superblock :=
        { st.superblock with
          firstFreeInode := nextFreeInode st.inode (inodeListNum - (first + 1)) (first + 1)
          freeInodeNumber := toUInt16 (st.superblock.freeInodeNumber - 1) } }

/-- `strcpy` inside the data area, byte by byte. -/
def strcpyLoop : ℕ → ℕ → ℕ → Store area → Option (Store area)
  | 0, _, _, _ => none
  | fuel + 1, dst, src, st => do
      let b ← st.load src
      let st ← st.storeBytes dst [b]
      if b = 0 then some st else strcpyLoop fuel (dst + 1) (src + 1) st

/-- The copy of the last directory entry over the entry of the removed file. -/
def moveEntry (st : Store area) (entry lastEntry : ℕ) : Option (Store area) := do
  let st ← strcpyLoop (allocatableSpaceSize * blockSize) entry lastEntry st
  let inodeIndex ← st.loadWord (lastEntry + 14) 2
  st.storeBytes (entry + 14) (leBytes 2 inodeIndex)

/-- The record of a directory after it lost its last entry. -/
def MyInode.shrink (ino : MyInode) : MyInode :=
  { ino with
    lastBlockOffset := ino.lastBlockOffset - 16
    size := toUInt32 (ino.size - 16) }

/-- The two branches of `free_parent_directory_entry`: nothing is copied if the
last entry starts a block. -/
def fillEntry (st : Store area) (ino : MyInode) (directoryIndex : ℤ) : Option (Store area) :=
  let lastBlockOffset := ino.lastBlockOffset - 16
  if lastBlockOffset = 0 then some st
  else do
    let entry ←
      switchAddress st ino (directoryIndex.tdiv 16) (directoryIndex.tmod 16 * 16)
    let lastEntry ← switchAddress st ino ino.blockNumber lastBlockOffset
    moveEntry st entry lastEntry

def freeParentDirectoryEntry (st : Store area) (filename : List UInt8) (parent : ℕ) :
    Option (ℤ × Store area) := do
  let r ← isExist st filename parent (-1)
  if r.ans = ERROR then some (ERROR, st)
  else do
    let ino ← st.inodeAt parent
    let st ← fillEntry st ino r.directoryIndex
    some (SUCCESS, st.setInode parent (st.inode parent).shrink)

/-- The record that `free_inode` leaves. The pointers of the file stay. -/
def MyInode.release (ino : MyInode) : MyInode :=
  { ino with
    type := .nul
    size := 0
    protection := 0
    operation := 0
    parentIndex := 0
    blockNumber := 0
    lastBlockOffset := 0
    mode := -1 }

def freeInode (st : Store area) (filename : List UInt8) (i : ℕ) : Option (Store area) := do
  let st ← freeBlock st i
  let (_, st) ← freeParentDirectoryEntry st filename (st.inode i).parentIndex
  let st := st.setInode i (st.inode i).release
  some
    { st with
      superblock :=
        { st.superblock with
          freeInodeNumber := toUInt16 (st.superblock.freeInodeNumber + 1)
          firstFreeInode :=
            if st.superblock.firstFreeInode > i then toUInt16 i
            else st.superblock.firstFreeInode } }

end OperatingSystem.Filesys
