import OperatingSystem.Lib.CLayout
import OperatingSystem.Filesys.Data

/-!
# The RAM disk as one byte array

The layout that `init_datastructure` computes: the superblock, the inode area,
the bitmap and the data space. A `my_inode` takes 80 bytes, and 1024 of them
are more than the inode area holds, so the last records lie over the bitmap and
the data space.
-/

namespace OperatingSystem.Filesys

open ByteMemory CLayout

/-- The bytes of the RAM disk, by their distance from `ramdisk`. -/
abbrev Disk := ℕ → UInt8

/-! ## Layout -/

/-- The members of `my_inode` in their order. -/
inductive InodeField where
  | type
  | size
  | location
  | protection
  | operation
  | parentIndex
  | blockNumber
  | lastBlockOffset
  | unused
  | mode
  | flag

def char : Member := ⟨1, 1⟩
def uint16 : Member := ⟨2, 2⟩
def uint32 : Member := ⟨4, 4⟩
def int : Member := ⟨4, 4⟩
def pointer : Member := ⟨4, 4⟩

def InodeField.member : InodeField → Member
  | .type => char.array 4
  | .size => uint32
  | .location => pointer.array 10
  | .protection | .operation | .parentIndex => uint16
  | .blockNumber | .lastBlockOffset => int
  | .unused => uint16.array 4
  | .mode | .flag => int

def inodeFields : List InodeField :=
  [.type, .size, .location, .protection, .operation, .parentIndex, .blockNumber,
    .lastBlockOffset, .unused, .mode, .flag]

def myInode : List Member := inodeFields.map InodeField.member

def InodeField.offset (f : InodeField) : ℕ := CLayout.offset myInode f.ctorIdx

def sizeofMyInode : ℕ := CLayout.sizeOf myInode

def inodePtr : ℕ := blockSize
def bitmapPtr : ℕ := inodePtr + blockSize * inodeListSize
def spacePtr : ℕ := bitmapPtr + blockSize * bitmapSize

/-- The address of a field of `inode_ptr[i]`. -/
def fieldAddr (i : ℕ) (f : InodeField) : ℕ := inodePtr + i * sizeofMyInode + f.offset

theorem sizeofMyInode_eq : sizeofMyInode = 80 := by decide

theorem myInode_align : ∀ m ∈ myInode, 0 < m.align := by decide

theorem offset_add_size_le (f : InodeField) : f.offset + f.member.size ≤ sizeofMyInode := by
  have hlt : f.ctorIdx < myInode.length := by
    cases f <;> decide
  have hmember : myInode[f.ctorIdx] = f.member := by
    cases f <;> rfl
  have hwithin := CLayout.offset_add_size_le myInode_align f.ctorIdx hlt
  rwa [hmember] at hwithin

/-! ## The operations on bytes -/

namespace Disk

def freeInodeNumber (d : Disk) : ℕ := leValue (readBytes d 2 2)

def firstFreeInode (d : Disk) : ℕ := leValue (readBytes d 6 2)

def setFreeInodeNumber (d : Disk) (n : ℤ) : Disk := writeBytes d 2 (leBytes 2 (toUInt16 n))

def setFirstFreeInode (d : Disk) (n : ℕ) : Disk := writeBytes d 6 (leBytes 2 (toUInt16 n))

def writeField (d : Disk) (i : ℕ) (f : InodeField) (bytes : List UInt8) : Disk :=
  writeBytes d (fieldAddr i f) bytes

def writeFields (d : Disk) (i : ℕ) (writes : List (InodeField × List UInt8)) : Disk :=
  writes.foldl (fun d w ↦ writeField d i w.1 w.2) d

def operation (d : Disk) (i : ℕ) : ℕ := leValue (readBytes d (fieldAddr i .operation) 2)

/-- The scan of `allocate_inode`. -/
def nextFreeInode (d : Disk) : ℕ → ℕ → ℕ
  | 0, i => i
  | fuel + 1, i => if d.operation i = 0 then i else nextFreeInode d fuel (i + 1)

end Disk

def ObjectType.chars : ObjectType → List UInt8
  | .zero => []
  | .dir => [100, 105, 114]
  | .reg => [114, 101, 103]
  | .nul => [110, 117, 108]

/-- The stores of `allocate_inode` through `new_inode`; `strcpy` copies the
NUL. -/
def allocateWrites (parent mode : ℤ) (type : ObjectType) : List (InodeField × List UInt8) :=
  [(.type, type.chars ++ [0]), (.size, leBytes 4 0), (.protection, leBytes 2 0),
    (.operation, leBytes 2 0x100), (.parentIndex, leBytes 2 (toUInt16 parent)),
    (.blockNumber, leBytes 4 (toUInt32 (-1))), (.lastBlockOffset, leBytes 4 0),
    (.mode, leBytes 4 (toUInt32 mode))]

/-- The stores of `free_inode` through `object_inode`. -/
def releaseWrites : List (InodeField × List UInt8) :=
  [(.type, ObjectType.nul.chars ++ [0]), (.size, leBytes 4 0), (.protection, leBytes 2 0),
    (.operation, leBytes 2 0), (.parentIndex, leBytes 2 0), (.blockNumber, leBytes 4 0),
    (.lastBlockOffset, leBytes 4 0), (.mode, leBytes 4 (toUInt32 (-1)))]

namespace Disk

def allocateInode (d : Disk) (parent mode : ℤ) (type : ObjectType) : Disk :=
  let first := d.firstFreeInode
  let d := d.writeFields first (allocateWrites parent mode type)
  let d := d.setFirstFreeInode (d.nextFreeInode (inodeListNum - (first + 1)) (first + 1))
  d.setFreeInodeNumber (d.freeInodeNumber - 1)

/-- The end of `free_inode`, behind the calls that free the blocks and the
directory entry. -/
def releaseInode (d : Disk) (i : ℕ) : Disk :=
  let d := d.writeFields i releaseWrites
  let d := d.setFreeInodeNumber (d.freeInodeNumber + 1)
  if d.firstFreeInode > i then d.setFirstFreeInode i else d

/-- What `create` checks of the free records. -/
def Admits (d : Disk) : Prop := 1 ≤ d.freeInodeNumber ∧ d.firstFreeInode < inodeListNum

instance (d : Disk) : Decidable d.Admits := inferInstanceAs (Decidable (_ ∧ _))

/-- No byte of the bitmap or of the data space differs. -/
def SameRegions (d d' : Disk) : Prop :=
  ∀ x, (bitmapPtr ≤ x ∧ x < spacePtr) ∨ (spacePtr ≤ x ∧ x < ramdiskSize) → d' x = d x

/-- `allocate_inode`, a later release of the same inode and every store through
one of its fields keep to the superblock and the inode area. -/
structure KeepsRegions (d : Disk) : Prop where
  allocate : ∀ parent mode type, SameRegions d (d.allocateInode parent mode type)
  release : ∀ d' : Disk, SameRegions d' (d'.releaseInode d.firstFreeInode)
  store : ∀ (d' : Disk) (f : InodeField) (bytes : List UInt8), bytes.length = f.member.size →
    SameRegions d' (d'.writeField d.firstFreeInode f bytes)

namespace SameRegions

variable {d₁ d₂ d₃ : Disk}

theorem refl (d : Disk) : SameRegions d d := fun _ _ ↦ rfl

theorem trans (h : SameRegions d₁ d₂) (g : SameRegions d₂ d₃) : SameRegions d₁ d₃ :=
  fun x hx ↦ (g x hx).trans (h x hx)

theorem writeBytes (d : Disk) {addr : ℕ} {bytes : List UInt8} (h : addr + bytes.length ≤ bitmapPtr) :
    SameRegions d (ByteMemory.writeBytes d addr bytes) := by
  intro x hx
  have hspace : bitmapPtr ≤ spacePtr := Nat.le_add_right ..
  apply writeBytes_of_ge
  omega

theorem setFreeInodeNumber (d : Disk) (n : ℤ) : SameRegions d (d.setFreeInodeNumber n) := by
  apply writeBytes
  rw [length_leBytes]
  decide

theorem setFirstFreeInode (d : Disk) (n : ℕ) : SameRegions d (d.setFirstFreeInode n) := by
  apply writeBytes
  rw [length_leBytes]
  decide

theorem writeField (d : Disk) {i : ℕ} {f : InodeField} {bytes : List UInt8} (hi : i < 819)
    (hfits : bytes.length ≤ f.member.size) : SameRegions d (d.writeField i f bytes) := by
  apply writeBytes
  have hwithin := offset_add_size_le f
  have hinode : inodePtr = 256 := rfl
  have hbitmap : bitmapPtr = 65792 := rfl
  rw [sizeofMyInode_eq] at hwithin
  rw [fieldAddr, sizeofMyInode_eq]
  omega

theorem writeFields (d : Disk) {i : ℕ} {writes : List (InodeField × List UInt8)} (hi : i < 819)
    (hfits : ∀ w ∈ writes, w.2.length ≤ w.1.member.size) :
    SameRegions d (d.writeFields i writes) := by
  induction writes generalizing d with
  | nil => exact refl d
  | cons w writes ih =>
      have hfirst := writeField d hi (hfits w List.mem_cons_self)
      exact hfirst.trans (ih _ fun w' hw' ↦ hfits w' (List.mem_cons_of_mem w hw'))

end SameRegions

theorem allocateWrites_fit (parent mode : ℤ) (type : ObjectType) :
    ∀ w ∈ allocateWrites parent mode type, w.2.length ≤ w.1.member.size := by
  intro w hw
  simp only [allocateWrites, List.mem_cons, List.not_mem_nil, or_false] at hw
  rcases hw with rfl | rfl | rfl | rfl | rfl | rfl | rfl | rfl
  · cases type <;> decide
  all_goals exact le_of_eq (length_leBytes _ _)

theorem releaseWrites_fit : ∀ w ∈ releaseWrites, w.2.length ≤ w.1.member.size := by
  decide

/-- The 819 records of the inode area keep to it. -/
theorem keepsRegions_of_lt {d : Disk} (h : d.firstFreeInode < 819) : KeepsRegions d where
  allocate parent mode type := by
    apply SameRegions.trans (SameRegions.writeFields d h (allocateWrites_fit parent mode type))
    exact (SameRegions.setFirstFreeInode _ _).trans (SameRegions.setFreeInodeNumber _ _)
  release d' := by
    have hrecord := SameRegions.writeFields d' h releaseWrites_fit
    rw [releaseInode]
    split
    · exact (hrecord.trans (SameRegions.setFreeInodeNumber _ _)).trans
        (SameRegions.setFirstFreeInode _ _)
    · exact hrecord.trans (SameRegions.setFreeInodeNumber _ _)
  store d' f bytes hlength := SameRegions.writeField d' h hlength.le

/-- `mode` lies behind the inode area in all other records. -/
theorem lt_of_keepsRegions {d : Disk} (hfirst : d.firstFreeInode < inodeListNum)
    (h : KeepsRegions d) : d.firstFreeInode < 819 := by
  by_contra hge
  have hmode : InodeField.mode.offset = 72 := by decide
  have haddr : fieldAddr d.firstFreeInode .mode = 328 + d.firstFreeInode * 80 := by
    rw [fieldAddr, sizeofMyInode_eq, hmode]
    change 256 + d.firstFreeInode * 80 + 72 = _
    omega
  have hbitmap : bitmapPtr = 65792 := rfl
  have hspace : spacePtr = 66816 := rfl
  simp only [inodeListNum] at hfirst
  -- store a byte that differs from the one that is there
  have hsame := h.store d .mode [d (fieldAddr d.firstFreeInode .mode) + 1, 0, 0, 0] rfl
    (fieldAddr d.firstFreeInode .mode) (by simp only [ramdiskSize]; omega)
  have hstored : writeBytes d (fieldAddr d.firstFreeInode .mode)
      [d (fieldAddr d.firstFreeInode .mode) + 1, 0, 0, 0] (fieldAddr d.firstFreeInode .mode + 0) =
      d (fieldAddr d.firstFreeInode .mode) + 1 := writeBytes_add (Nat.succ_pos 3)
  rw [Nat.add_zero] at hstored
  have hne : d (fieldAddr d.firstFreeInode .mode) + 1 ≠ d (fieldAddr d.firstFreeInode .mode) := by
    simp
  exact hne (hstored.symm.trans hsame)

/-- Among the states that `create` admits, the regions are kept exactly while
the first free record lies in the inode area. -/
theorem keepsRegions_iff (d : Disk) (h : d.Admits) : KeepsRegions d ↔ d.firstFreeInode < 819 :=
  ⟨lt_of_keepsRegions h.2, keepsRegions_of_lt⟩

/-- A disk with a given first free record, otherwise zero but for the counter. -/
def sampleDisk (first : ℕ) : Disk :=
  writeBytes (fun _ ↦ 0) 2 (leBytes 2 205 ++ leBytes 2 1 ++ leBytes 2 first)

theorem keepsRegions_iff_zero : KeepsRegions (sampleDisk 1) ↔ (sampleDisk 1).firstFreeInode < 819 :=
  keepsRegions_iff (sampleDisk 1) (by decide)

/-- Record 819 reaches into the bitmap: its `operation` is byte 35 of it. -/
theorem allocateInode_overwrites_bitmap : (sampleDisk 819).Admits ∧
    (sampleDisk 819) (bitmapPtr + 35) = 0 ∧
    ((sampleDisk 819).allocateInode 0 0 .reg) (bitmapPtr + 35) = 1 ∧
    ¬ KeepsRegions (sampleDisk 819) := by
  have hold : (sampleDisk 819) (bitmapPtr + 35) = 0 := by decide
  have hnew : ((sampleDisk 819).allocateInode 0 0 .reg) (bitmapPtr + 35) = 1 := by decide +kernel
  refine ⟨by decide, hold, hnew, fun hkeeps ↦ ?_⟩
  have hsame := hkeeps.allocate 0 0 .reg (bitmapPtr + 35) (by decide)
  rw [hold, hnew] at hsame
  cases hsame

end Disk

end OperatingSystem.Filesys
