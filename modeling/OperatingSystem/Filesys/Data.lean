import OperatingSystem.Lib.ByteMemory

/-!
# Data of the RAM disk file system

The records of `data_structure.h`, the RAM disk that `init_datastructure`
formats, and access to its data area. Pointers are 32-bit addresses and `NULL`
is `0`. Every dereference of an address outside the data area, and every use
of an inode record or a bitmap byte past its table, is undefined behaviour of
the module; a function that does so returns `none`.
-/

namespace OperatingSystem.Filesys

open ByteMemory

/-! ## Constants -/

@[simp] def ramdiskSize : ℕ := 2097152
@[simp] def blockSize : ℕ := 256
@[simp] def inodeListSize : ℕ := 256
@[simp] def inodeListNum : ℕ := 1024
@[simp] def bitmapSize : ℕ := 4
@[simp] def bitmapSublock : ℕ := 1024
@[simp] def allocatableSpaceSize : ℕ := 7931
@[simp] def maxFileSize : ℕ := 1067008

def ERROR : ℤ := -1
def SUCCESS : ℤ := 0

/-! ## Conversions of C integers -/

def toUInt16 (x : ℤ) : ℕ := (x % 65536).toNat
def toUInt32 (x : ℤ) : ℕ := (x % 4294967296).toNat

/-- A `uint32_t` read as an `int`. -/
def toInt (x : ℕ) : ℤ := if x < 2147483648 then x else (x : ℤ) - 4294967296

theorem toUInt16_of_lt {n : ℕ} (h : n < 65536) : toUInt16 n = n := by
  simp only [toUInt16]
  omega

theorem toUInt32_of_lt {n : ℕ} (h : n < 4294967296) : toUInt32 n = n := by
  simp only [toUInt32]
  omega

theorem toInt_of_lt {n : ℕ} (h : n < 2147483648) : toInt n = n := by
  simp [toInt, h]

/-! ## Records -/

/-- A NUL-terminated string, without its terminator. -/
structure CString where
  chars : List UInt8
  noNul : (0 : UInt8) ∉ chars

/-- The contents of `char type[4]`: zeroed memory or one of the three object
types. -/
inductive ObjectType where
  | zero
  | dir
  | reg
  | nul
  deriving DecidableEq

structure Superblock where
  freeBlockNumber : ℕ
  freeInodeNumber : ℕ
  firstFreeBlock : ℕ
  firstFreeInode : ℕ

structure MyInode where
  type : ObjectType
  size : ℕ
  location : ℕ → ℕ
  protection : ℕ
  operation : ℕ
  parentIndex : ℕ
  blockNumber : ℤ
  lastBlockOffset : ℤ
  mode : ℤ

structure FileObject where
  inodeIndex : ℕ
  position : ℤ
  deriving DecidableEq

/-- A file descriptor table. The linked list of file objects is a list; its
head is the current directory. -/
structure FDT where
  pid : ℤ
  fileObjects : List FileObject
  curPath : List UInt8
  deriving DecidableEq

/-- The process that executes a call. -/
structure Process where
  pid : ℤ
  ppid : ℤ

/-- Where `vmalloc` placed the RAM disk. -/
structure Area where
  base : ℕ
  base_pos : 0 < base
  base_fits : base + ramdiskSize ≤ 4294967296

def sampleArea : Area where
  base := 3489660928
  base_pos := by decide
  base_fits := by decide

/-- The contents of the RAM disk. The inode table is an array of 1024 records;
the records from 819 on are not kept apart from the bitmap and the data area
on the real disk. -/
structure Store (area : Area) where
  superblock : Superblock
  inode : ℕ → MyInode
  bitmap : ℕ → BitVec 8
  space : ℕ → UInt8

/-- The RAM disk and the list of file descriptor tables. -/
structure State (area : Area) where
  store : Store area
  fdtList : List FDT

/-- Number of inode records of 80 bytes that lie inside the inode area. -/
def wholeInodeRecords : ℕ := blockSize * inodeListSize / 80

variable {area : Area}

/-! ## The data area -/

namespace Area

def spacePtr (area : Area) : ℕ :=
  area.base + blockSize + blockSize * inodeListSize + blockSize * bitmapSize

/-- The `n` bytes at `addr` lie in the data area. -/
def Holds (area : Area) (addr n : ℕ) : Prop :=
  area.spacePtr ≤ addr ∧ addr + n ≤ area.spacePtr + allocatableSpaceSize * blockSize

instance (area : Area) (addr n : ℕ) : Decidable (area.Holds addr n) :=
  inferInstanceAs (Decidable (_ ∧ _))

/-- `(uint8_t*)space_ptr + block * block_size`. -/
def blockAddr (area : Area) (block : ℕ) : ℕ := area.spacePtr + block * blockSize

theorem spacePtr_eq (area : Area) : area.spacePtr = area.base + 66816 := by
  change area.base + 256 + 256 * 256 + 256 * 4 = _
  omega

theorem spacePtr_pos (area : Area) : 0 < area.spacePtr := by
  have h := area.base_pos
  have hs := area.spacePtr_eq
  omega

/-- The data area is exactly what the other regions leave of the RAM disk. -/
theorem spacePtr_fits (area : Area) :
    area.spacePtr + allocatableSpaceSize * blockSize ≤ 4294967296 := by
  have h := area.base_fits
  have hs := area.spacePtr_eq
  simp only [ramdiskSize, allocatableSpaceSize, blockSize] at *
  omega

theorem blockAddr_ne_zero (area : Area) (block : ℕ) : area.blockAddr block ≠ 0 := by
  have h := area.spacePtr_pos
  simp only [blockAddr]
  omega

theorem blockAddr_lt {block : ℕ} (h : block < allocatableSpaceSize) :
    area.blockAddr block < 4294967296 := by
  have hfits := area.spacePtr_fits
  simp only [blockAddr, allocatableSpaceSize, blockSize] at *
  omega

theorem blockAddr_inj {b c : ℕ} : area.blockAddr b = area.blockAddr c ↔ b = c := by
  simp only [blockAddr, blockSize]
  omega

theorem holds_blockAddr {block off n : ℕ} (hb : block < allocatableSpaceSize)
    (hn : off + n ≤ blockSize) : area.Holds (area.blockAddr block + off) n := by
  simp only [Holds, blockAddr, allocatableSpaceSize, blockSize] at *
  omega

theorem Holds.mono {addr n off k : ℕ} (h : area.Holds addr n) (hk : off + k ≤ n) :
    area.Holds (addr + off) k := by
  simp only [Holds] at *
  omega

end Area

namespace Store

def load (st : Store area) (addr : ℕ) : Option UInt8 :=
  if area.Holds addr 1 then some (st.space addr) else none

/-- Read a little-endian word of `n` bytes. -/
def loadWord (st : Store area) (addr n : ℕ) : Option ℕ :=
  if area.Holds addr n then some (leValue (readBytes st.space addr n)) else none

def storeBytes (st : Store area) (addr : ℕ) (bytes : List UInt8) : Option (Store area) :=
  if area.Holds addr bytes.length then
    some { st with space := writeBytes st.space addr bytes }
  else none

def storePtr (st : Store area) (addr ptr : ℕ) : Option (Store area) :=
  st.storeBytes addr (leBytes 4 ptr)

def clearBlock (st : Store area) (addr : ℕ) : Option (Store area) :=
  st.storeBytes addr (List.replicate blockSize 0)

/-- The record `inode_ptr[i]`, if `i` is inside the table. -/
def inodeAt (st : Store area) (i : ℕ) : Option MyInode :=
  if i < inodeListNum then some (st.inode i) else none

def setInode (st : Store area) (i : ℕ) (ino : MyInode) : Store area :=
  { st with inode := Function.update st.inode i ino }

theorem loadWord_eq {st : Store area} {addr n : ℕ} (h : area.Holds addr n) :
    st.loadWord addr n = some (leValue (readBytes st.space addr n)) := if_pos h

theorem storeBytes_eq {st : Store area} {addr : ℕ} {bytes : List UInt8}
    (h : area.Holds addr bytes.length) :
    st.storeBytes addr bytes = some { st with space := writeBytes st.space addr bytes } :=
  if_pos h

theorem storePtr_eq {st : Store area} {addr ptr : ℕ} (h : area.Holds addr 4) :
    st.storePtr addr ptr =
      some { st with space := writeBytes st.space addr (leBytes 4 ptr) } :=
  storeBytes_eq (by rwa [length_leBytes])

theorem loadWord_stored {st : Store area} {m : ℕ → UInt8} {addr ptr : ℕ} (h : area.Holds addr 4)
    (hptr : ptr < 4294967296) (hspace : st.space = writeBytes m addr (leBytes 4 ptr)) :
    st.loadWord addr 4 = some ptr := by
  have hread := readBytes_writeBytes m addr (leBytes 4 ptr)
  rw [length_leBytes] at hread
  rw [loadWord_eq h, hspace, hread, leValue_leBytes_of_lt (by omega)]

theorem storeBytes_eq_some {st st' : Store area} {addr : ℕ} {bytes : List UInt8}
    (h : st.storeBytes addr bytes = some st') :
    area.Holds addr bytes.length ∧
      st' = { st with space := writeBytes st.space addr bytes } := by
  simp only [storeBytes, Option.ite_none_right_eq_some] at h
  exact ⟨h.1, (Option.some.inj h.2).symm⟩

theorem storeBytes_frame {st st' : Store area} {addr : ℕ} {bytes : List UInt8}
    (h : st.storeBytes addr bytes = some st') :
    st'.inode = st.inode ∧ st'.superblock = st.superblock := by
  obtain ⟨-, rfl⟩ := storeBytes_eq_some h
  exact ⟨rfl, rfl⟩

theorem inodeAt_eq {st : Store area} {i : ℕ} (h : i < inodeListNum) :
    st.inodeAt i = some (st.inode i) := if_pos h

theorem inodeAt_eq_some {st : Store area} {i : ℕ} {ino : MyInode}
    (h : st.inodeAt i = some ino) : i < inodeListNum ∧ ino = st.inode i := by
  simp only [inodeAt, Option.ite_none_right_eq_some] at h
  exact ⟨h.1, (Option.some.inj h.2).symm⟩

@[simp] theorem setInode_inode (st : Store area) (i : ℕ) (ino : MyInode) :
    (st.setInode i ino).inode i = ino := Function.update_self ..

theorem setInode_inode_of_ne {st : Store area} {i j : ℕ} {ino : MyInode} (h : j ≠ i) :
    (st.setInode i ino).inode j = st.inode j := Function.update_of_ne h ..

theorem update_field {α : Type*} (f : MyInode → α) {table : ℕ → MyInode} {i : ℕ} {ino : MyInode}
    (h : f ino = f (table i)) (j : ℕ) : f (Function.update table i ino j) = f (table j) := by
  by_cases hj : j = i
  · rw [hj, Function.update_self, h]
  · rw [Function.update_of_ne hj]

@[simp] theorem setInode_superblock (st : Store area) (i : ℕ) (ino : MyInode) :
    (st.setInode i ino).superblock = st.superblock := rfl

@[simp] theorem setInode_bitmap (st : Store area) (i : ℕ) (ino : MyInode) :
    (st.setInode i ino).bitmap = st.bitmap := rfl

@[simp] theorem setInode_space (st : Store area) (i : ℕ) (ino : MyInode) :
    (st.setInode i ino).space = st.space := rfl

end Store

/-! ## The formatted disk -/

def zeroInode : MyInode where
  type := .zero
  size := 0
  location := fun _ ↦ 0
  protection := 0
  operation := 0
  parentIndex := 0
  blockNumber := 0
  lastBlockOffset := 0
  mode := 0

/-- The root directory owns block 0 from the start. -/
def rootInode (area : Area) : MyInode :=
  { zeroInode with
    type := .dir
    location := Function.update (fun _ ↦ 0) 0 area.spacePtr
    operation := 0x100
    parentIndex := toUInt16 (-2) }

def initDatastructure (area : Area) : Store area where
  superblock :=
    { freeBlockNumber := allocatableSpaceSize - 1
      freeInodeNumber := inodeListNum - 1
      firstFreeBlock := 1
      firstFreeInode := 1 }
  inode := Function.update (fun _ ↦ zeroInode) 0 (rootInode area)
  bitmap := Function.update (fun _ ↦ 0) 0 0x80
  space := fun _ ↦ 0

/-- The state after the module was loaded: no process has a table yet. -/
def initState (area : Area) : State area where
  store := initDatastructure area
  fdtList := []

end OperatingSystem.Filesys
