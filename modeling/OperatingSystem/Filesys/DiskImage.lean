import OperatingSystem.Filesys.DiskLayout
import OperatingSystem.Filesys.Frames

/-!
# The records in the bytes

The superblock, the inode records, the bitmap and the data area as the module finds them
in the bytes of the RAM disk. The 819 records that lie inside the inode area are kept apart
from each other and from everything else.
-/

namespace OperatingSystem.Filesys

open ByteMemory

variable {area : Area}

/-- What `strcmp` finds in `char type[4]`. -/
def ObjectType.ofChars (bytes : List UInt8) : ObjectType :=
  if bytes = ObjectType.dir.chars ++ [0] then .dir
  else if bytes = ObjectType.reg.chars ++ [0] then .reg
  else if bytes = ObjectType.nul.chars ++ [0] then .nul
  else .zero

deriving instance DecidableEq for InodeField

namespace Disk

/-! ## Reading -/

def field (d : Disk) (i : ℕ) (f : InodeField) : List UInt8 :=
  readBytes d (fieldAddr i f) f.member.size

def superblock (d : Disk) : Superblock where
  freeBlockNumber := leValue (readBytes d 0 2)
  freeInodeNumber := d.freeInodeNumber
  firstFreeBlock := leValue (readBytes d 4 2)
  firstFreeInode := d.firstFreeInode

def location (d : Disk) (i k : ℕ) : ℕ :=
  if k < 10 then leValue (readBytes d (fieldAddr i .location + 4 * k) 4) else 0

def inode (d : Disk) (i : ℕ) : MyInode where
  type := .ofChars (d.field i .type)
  size := leValue (d.field i .size)
  location := d.location i
  protection := leValue (d.field i .protection)
  operation := d.operation i
  parentIndex := leValue (d.field i .parentIndex)
  blockNumber := toInt (leValue (d.field i .blockNumber))
  lastBlockOffset := toInt (leValue (d.field i .lastBlockOffset))
  mode := toInt (leValue (d.field i .mode))

def index (d : Disk) (k : ℕ) : BitVec 8 := (d (bitmapPtr + k)).toBitVec

def store (area : Area) (d : Disk) : Store area where
  superblock := d.superblock
  inode := d.inode
  bitmap := d.index
  space := fun addr ↦ d (addr - area.base)

/-! ## Writing -/

def setFreeBlockNumber (d : Disk) (n : ℤ) : Disk := writeBytes d 0 (leBytes 2 (toUInt16 n))

def setFirstFreeBlock (d : Disk) (n : ℤ) : Disk := writeBytes d 4 (leBytes 2 (toUInt16 n))

def setIndex (d : Disk) (k : ℕ) (byte : BitVec 8) : Disk := writeBytes d (bitmapPtr + k) [⟨byte⟩]

def setSlot (d : Disk) (i k ptr : ℕ) : Disk :=
  writeBytes d (fieldAddr i .location + 4 * k) (leBytes 4 ptr)

/-- A store through a pointer into the data area. -/
def storeBytes (area : Area) (d : Disk) (addr : ℕ) (bytes : List UInt8) : Option Disk :=
  if area.Holds addr bytes.length then some (writeBytes d (addr - area.base) bytes) else none

def storePtr (area : Area) (d : Disk) (addr ptr : ℕ) : Option Disk :=
  d.storeBytes area addr (leBytes 4 ptr)

def clearBlock (area : Area) (d : Disk) (addr : ℕ) : Option Disk :=
  d.storeBytes area addr (List.replicate blockSize 0)

/-- `index[i] &= 0` for all `i` but 0. -/
def clearIndices (d : Disk) : Disk :=
  fun x ↦ if bitmapPtr < x ∧ x < bitmapPtr + bitmapSublock then 0 else d x

/-! ### The formatted disk -/

def initSuperblock (d : Disk) : Disk :=
  let d := d.setFreeBlockNumber (allocatableSpaceSize - 1)
  let d := d.setFreeInodeNumber (inodeListNum - 1)
  let d := d.setFirstFreeBlock 1
  d.setFirstFreeInode 1

def initBitmap (d : Disk) : Disk := (d.setIndex 0 (d.index 0 ||| 0x80)).clearIndices

/-- The stores through `inode_ptr`, before and behind that of `location[0]`. -/
def rootWrites : List (InodeField × List UInt8) × List (InodeField × List UInt8) :=
  ([(.type, ObjectType.dir.chars ++ [0]), (.size, leBytes 4 0)],
    [(.protection, leBytes 2 0), (.operation, leBytes 2 0x100),
      (.parentIndex, leBytes 2 (toUInt16 (-2))), (.blockNumber, leBytes 4 0),
      (.lastBlockOffset, leBytes 4 0)])

def initRoot (area : Area) (d : Disk) : Disk :=
  ((d.writeFields 0 rootWrites.1).setSlot 0 0 area.spacePtr).writeFields 0 rootWrites.2

def format (area : Area) : Disk := initRoot area (initBitmap (initSuperblock fun _ ↦ 0))

/-! ## Fields -/

section Fields

variable {d d' : Disk} {i j k : ℕ} {f g : InodeField} {bytes : List UInt8}

def recordAddr (i : ℕ) : ℕ := inodePtr + i * sizeofMyInode

theorem fieldAddr_bounds (i : ℕ) (f : InodeField) :
    recordAddr i ≤ fieldAddr i f ∧ fieldAddr i f + f.member.size ≤ recordAddr (i + 1) := by
  have hwithin := offset_add_size_le f
  rw [recordAddr, recordAddr, fieldAddr, Nat.succ_mul]
  omega

/-- Two fields of a record do not overlap. -/
theorem fieldAddr_disjoint (i : ℕ) (hne : f ≠ g) :
    fieldAddr i g + g.member.size ≤ fieldAddr i f ∨
      fieldAddr i f + f.member.size ≤ fieldAddr i g := by
  have hmember : ∀ (f : InodeField) (hf : f.ctorIdx < myInode.length),
      (myInode[f.ctorIdx]).size = f.member.size := by
    intro f hf
    cases f <;> rfl
  have hlt : ∀ f : InodeField, f.ctorIdx < myInode.length := by
    intro f
    cases f <;> decide
  have hordered : ∀ f g : InodeField, f.ctorIdx < g.ctorIdx →
      fieldAddr i f + f.member.size ≤ fieldAddr i g := by
    intro f g hfg
    have hle := CLayout.offset_ordered myInode_align hfg (hlt g)
    rw [hmember f (hlt f)] at hle
    simp only [fieldAddr, InodeField.offset]
    omega
  have hindex : f.ctorIdx ≠ g.ctorIdx := fun heq ↦
    hne (by cases f <;> cases g <;> first | rfl | cases heq)
  rcases Nat.lt_or_gt_of_ne hindex with hfg | hgf
  · exact .inr (hordered f g hfg)
  · exact .inl (hordered g f hgf)

theorem field_writeField_self (h : bytes.length = f.member.size) :
    (d.writeField i f bytes).field i f = bytes := by
  rw [field, writeField, ← h]
  exact readBytes_writeBytes d _ bytes

theorem field_writeField_ne (hne : f ≠ g) (h : bytes.length ≤ f.member.size) :
    (d.writeField i f bytes).field i g = d.field i g := by
  have hapart := fieldAddr_disjoint i hne
  exact readBytes_writeBytes_of_disjoint (by omega)

theorem location_writeField (hne : f ≠ .location) (h : bytes.length ≤ f.member.size) :
    (d.writeField i f bytes).location i = d.location i := by
  have hapart := fieldAddr_disjoint i hne
  have hsize : InodeField.location.member.size = 40 := rfl
  funext k
  rw [location, location]
  split
  · next hk =>
    refine congrArg leValue (readBytes_writeBytes_of_disjoint ?_)
    omega
  · rfl

theorem field_setSlot (hk : k < 10) (ptr : ℕ) (hne : f ≠ .location) :
    (d.setSlot i k ptr).field i f = d.field i f := by
  have hapart := fieldAddr_disjoint i hne
  have hsize : InodeField.location.member.size = 40 := rfl
  refine readBytes_writeBytes_of_disjoint ?_
  rw [length_leBytes]
  omega

theorem location_setSlot (hk : k < 10) {ptr : ℕ} (hptr : ptr < 4294967296) :
    (d.setSlot i k ptr).location i = Function.update (d.location i) k ptr := by
  funext j
  by_cases hj : j = k
  · subst hj
    have hread := readBytes_writeBytes d (fieldAddr i .location + 4 * j) (leBytes 4 ptr)
    rw [length_leBytes] at hread
    rw [Function.update_self, location, if_pos hk, setSlot, hread, leValue_leBytes_of_lt (by omega)]
  · rw [Function.update_of_ne hj, location, location]
    split
    · refine congrArg leValue (readBytes_writeBytes_of_disjoint ?_)
      rw [length_leBytes]
      omega
    · rfl

theorem toInt_stored {z : ℤ} (hlow : -2147483648 ≤ z) (hhigh : z < 2147483648) :
    toInt (leValue (leBytes 4 (toUInt32 z))) = z := by
  have hword : leValue (leBytes 4 (toUInt32 z)) = toUInt32 z := by
    rw [leValue_leBytes, toUInt32]
    omega
  rw [hword, toInt, toUInt32]
  omega

theorem toInt_field (d : Disk) (i : ℕ) {f : InodeField} (hf : f.member.size = 4) :
    -2147483648 ≤ toInt (leValue (d.field i f)) ∧ toInt (leValue (d.field i f)) < 2147483648 := by
  have hlt := leValue_lt (d.field i f)
  rw [show (d.field i f).length = 4 from (length_readBytes ..).trans hf] at hlt
  simp only [toInt]
  split <;> omega

theorem word_stored {n : ℕ} (h : n < 4294967296) : leValue (leBytes 4 n) = n :=
  leValue_leBytes_of_lt (by omega)

theorem half_stored {n : ℕ} (h : n < 65536) : leValue (leBytes 2 n) = n :=
  leValue_leBytes_of_lt (by omega)

theorem toUInt16_lt (z : ℤ) : toUInt16 z < 65536 := by
  rw [toUInt16]
  omega

theorem toUInt32_lt (z : ℤ) : toUInt32 z < 4294967296 := by
  rw [toUInt32]
  omega

/-! ## Records -/

/-- The bytes of a field after some stores. -/
def fieldAfter (writes : List (InodeField × List UInt8)) (f : InodeField) (bytes : List UInt8) :
    List UInt8 :=
  writes.foldl (fun bytes w ↦ if w.1 = f then w.2 else bytes) bytes

/-- Stores of whole fields, of which none is a pointer of `location`. -/
structure WholeFields (writes : List (InodeField × List UInt8)) : Prop where
  length : ∀ w ∈ writes, w.2.length = w.1.member.size
  numbers : ∀ w ∈ writes, w.1 ≠ .location

theorem WholeFields.tail {w : InodeField × List UInt8} {writes : List (InodeField × List UInt8)}
    (h : WholeFields (w :: writes)) : WholeFields writes :=
  ⟨fun v hv ↦ h.length v (List.mem_cons_of_mem w hv),
    fun v hv ↦ h.numbers v (List.mem_cons_of_mem w hv)⟩

theorem WholeFields.nil : WholeFields [] := ⟨nofun, nofun⟩

theorem WholeFields.cons {writes : List (InodeField × List UInt8)}
    (hlength : bytes.length = f.member.size) (hf : f ≠ .location) (h : WholeFields writes) :
    WholeFields ((f, bytes) :: writes) := by
  refine ⟨fun w hw ↦ ?_, fun w hw ↦ ?_⟩ <;> rcases List.mem_cons.mp hw with rfl | hw
  · exact hlength
  · exact h.length w hw
  · exact hf
  · exact h.numbers w hw

theorem field_writeFields {writes : List (InodeField × List UInt8)} (h : WholeFields writes) :
    (d.writeFields i writes).field i f = fieldAfter writes f (d.field i f) := by
  induction writes generalizing d with
  | nil => rfl
  | cons w writes ih =>
      have hlength := h.length w List.mem_cons_self
      have hfirst : (d.writeField i w.1 w.2).field i f = if w.1 = f then w.2 else d.field i f := by
        split
        · next hf => exact hf ▸ field_writeField_self hlength
        · next hf => exact field_writeField_ne hf hlength.le
      exact (@ih (d.writeField i w.1 w.2) h.tail).trans (congrArg (fieldAfter writes f) hfirst)

theorem location_writeFields {writes : List (InodeField × List UInt8)} (h : WholeFields writes) :
    (d.writeFields i writes).location i = d.location i := by
  induction writes generalizing d with
  | nil => rfl
  | cons w writes ih =>
      have hfirst := @location_writeField d i w.1 w.2 (h.numbers w List.mem_cons_self)
        (h.length w List.mem_cons_self).le
      exact (@ih (d.writeField i w.1 w.2) h.tail).trans hfirst

theorem inode_writeFields {writes : List (InodeField × List UInt8)} (h : WholeFields writes) :
    (d.writeFields i writes).inode i =
      { type := .ofChars (fieldAfter writes .type (d.field i .type))
        size := leValue (fieldAfter writes .size (d.field i .size))
        location := d.location i
        protection := leValue (fieldAfter writes .protection (d.field i .protection))
        operation := leValue (fieldAfter writes .operation (d.field i .operation))
        parentIndex := leValue (fieldAfter writes .parentIndex (d.field i .parentIndex))
        blockNumber := toInt (leValue (fieldAfter writes .blockNumber (d.field i .blockNumber)))
        lastBlockOffset :=
          toInt (leValue (fieldAfter writes .lastBlockOffset (d.field i .lastBlockOffset)))
        mode := toInt (leValue (fieldAfter writes .mode (d.field i .mode))) } := by
  have hoperation : (d.writeFields i writes).operation i =
      leValue (fieldAfter writes .operation (d.field i .operation)) :=
    congrArg leValue (field_writeFields h)
  simp only [inode, field_writeFields h, location_writeFields h, hoperation]

theorem wholeFields_allocate (parent mode : ℤ) {type : ObjectType}
    (htype : type = .dir ∨ type = .reg) : WholeFields (allocateWrites parent mode type) := by
  have hchars : (type.chars ++ [0]).length = InodeField.type.member.size := by
    rcases htype with rfl | rfl <;> rfl
  have hnumbers : WholeFields (allocateWrites parent mode type).tail :=
    .cons (length_leBytes _ _) nofun (.cons (length_leBytes _ _) nofun
      (.cons (length_leBytes _ _) nofun (.cons (length_leBytes _ _) nofun
        (.cons (length_leBytes _ _) nofun (.cons (length_leBytes _ _) nofun
          (.cons (length_leBytes _ _) nofun .nil))))))
  exact .cons hchars nofun hnumbers

theorem wholeFields_release : WholeFields releaseWrites := ⟨by decide, by decide⟩

theorem inode_allocateWrites (d : Disk) (i : ℕ) {parent : ℕ} {mode : ℤ} {type : ObjectType}
    (htype : type = .dir ∨ type = .reg) (hlow : -2147483648 ≤ mode) (hhigh : mode < 2147483648) :
    (d.writeFields i (allocateWrites parent mode type)).inode i =
      (d.inode i).renew parent mode type := by
  have hofChars : ObjectType.ofChars (type.chars ++ [0]) = type := by
    rcases htype with rfl | rfl <;> decide
  have hparent := half_stored (toUInt16_lt parent)
  have hmode := toInt_stored hlow hhigh
  rw [inode_writeFields (wholeFields_allocate parent mode htype)]
  simp only [MyInode.renew, MyInode.mk.injEq]
  exact ⟨hofChars, rfl, rfl, rfl, rfl, hparent, rfl, rfl, hmode⟩

theorem inode_releaseWrites (d : Disk) (i : ℕ) :
    (d.writeFields i releaseWrites).inode i = (d.inode i).release := by
  have htype : fieldAfter releaseWrites .type (d.field i .type) = ObjectType.nul.chars ++ [0] := rfl
  rw [inode_writeFields wholeFields_release, htype]
  simp only [MyInode.release, MyInode.mk.injEq]
  exact ⟨by decide, rfl, rfl, rfl, rfl, rfl, rfl, rfl, rfl⟩

end Fields

/-! ## Images -/

section Regions

variable {d d' : Disk} {i k : ℕ}

theorem superblock_congr (h : ∀ x < 8, d' x = d x) : d'.superblock = d.superblock := by
  have hread : ∀ a, a + 2 ≤ 8 → readBytes d' a 2 = readBytes d a 2 := fun a ha ↦
    readBytes_congr fun k hk ↦ h _ (by omega)
  simp only [superblock, freeInodeNumber, firstFreeInode]
  rw [hread 0 (by omega), hread 2 (by omega), hread 4 (by omega), hread 6 (by omega)]

theorem inode_congr (h : ∀ x, recordAddr i ≤ x → x < recordAddr (i + 1) → d' x = d x) :
    d'.inode i = d.inode i := by
  have hfield : ∀ f, d'.field i f = d.field i f := fun f ↦ by
    obtain ⟨hlow, hhigh⟩ := fieldAddr_bounds i f
    exact readBytes_congr fun k hk ↦ h _ (by omega) (by omega)
  have hlocation : d'.location i = d.location i := by
    obtain ⟨hlow, hhigh⟩ := fieldAddr_bounds i .location
    have hsize : InodeField.location.member.size = 40 := rfl
    funext k
    rw [location, location]
    split
    · exact congrArg leValue (readBytes_congr fun l hl ↦ h _ (by omega) (by omega))
    · rfl
  have hoperation : d'.operation i = d.operation i := congrArg leValue (hfield .operation)
  simp only [inode, hfield, hlocation, hoperation]

theorem recordAddr_le (hi : i < wholeInodeRecords) : recordAddr (i + 1) ≤ bitmapPtr := by
  have hwhole : wholeInodeRecords = 819 := rfl
  have hinode : inodePtr = 256 := rfl
  have hbitmap : bitmapPtr = 65792 := rfl
  rw [recordAddr, sizeofMyInode_eq]
  omega

theorem recordAddr_mono {j : ℕ} (h : i ≤ j) : recordAddr i ≤ recordAddr j :=
  Nat.add_le_add_left (Nat.mul_le_mul_right _ h) _

theorem writeFields_outside {writes : List (InodeField × List UInt8)} (h : WholeFields writes)
    {x : ℕ} (hx : x < recordAddr i ∨ recordAddr (i + 1) ≤ x) :
    (d.writeFields i writes) x = d x := by
  induction writes generalizing d with
  | nil => rfl
  | cons w writes ih =>
      obtain ⟨hlow, hhigh⟩ := fieldAddr_bounds i w.1
      have hlength := h.length w List.mem_cons_self
      refine (@ih (d.writeField i w.1 w.2) h.tail).trans (writeBytes_of_disjoint ?_)
      omega

theorem setSlot_outside (hk : k < 10) (ptr : ℕ) {x : ℕ}
    (hx : x < recordAddr i ∨ recordAddr (i + 1) ≤ x) : (d.setSlot i k ptr) x = d x := by
  obtain ⟨hlow, hhigh⟩ := fieldAddr_bounds i .location
  have hsize : InodeField.location.member.size = 40 := rfl
  refine writeBytes_of_disjoint ?_
  rw [length_leBytes]
  omega

end Regions

end Disk

/-- The offset of a record is not so far below its size that a directory could bring it
below all `int`s by losing its entries. -/
def MyInode.OffsetFits (ino : MyInode) : Prop :=
  ino.size < 2147483648 → (ino.size : ℤ) - 2147483648 ≤ ino.lastBlockOffset

/-- The bytes of the disk hold the records of a store, as far as they lie in the inode area. -/
structure Image (d : Disk) (st : Store area) : Prop where
  superblock : d.superblock = st.superblock
  inode : ∀ i < wholeInodeRecords, d.inode i = st.inode i
  index : ∀ k < bitmapSublock, d.index k = st.bitmap k
  space : ∀ addr, area.Holds addr 1 → d (addr - area.base) = st.space addr
  firstFreeBlock : st.superblock.firstFreeBlock < allocatableSpaceSize
  offsets : ∀ i, (st.inode i).OffsetFits

namespace Image

variable {d d' : Disk} {st : Store area} {i k : ℕ}

theorem addr_le (addr : ℕ) (h : area.Holds addr 1) : spacePtr ≤ addr - area.base := by
  have hspace := area.spacePtr_eq
  have hptr : spacePtr = 66816 := rfl
  simp only [Area.Holds] at h
  omega

theorem regions : (8 : ℕ) ≤ Disk.recordAddr 0 ∧ bitmapPtr + bitmapSublock = spacePtr := by decide

theorem setSuperblock (h : Image d st) {sb : Superblock} (hsame : ∀ x ≥ 8, d' x = d x)
    (hsb : d'.superblock = sb) (hfirst : sb.firstFreeBlock < allocatableSpaceSize) :
    Image d' ({ st with superblock := sb } : Store area) := by
  obtain ⟨hlow, hhigh⟩ := regions
  refine ⟨hsb, fun i hi ↦ ?_, fun k hk ↦ ?_, fun addr haddr ↦ ?_, hfirst, h.offsets⟩
  · have hmono := Disk.recordAddr_mono (Nat.zero_le i)
    exact (Disk.inode_congr fun x hx _ ↦ hsame x (by omega)).trans (h.inode i hi)
  · have hbitmap : bitmapPtr = 65792 := rfl
    exact (congrArg UInt8.toBitVec (hsame _ (by omega))).trans (h.index k hk)
  · have haddr' := addr_le addr haddr
    have hptr : spacePtr = 66816 := rfl
    exact (hsame _ (by omega)).trans (h.space addr haddr)

theorem setInode (h : Image d st) (hi : i < wholeInodeRecords) {ino : MyInode}
    (hsame : ∀ x, x < Disk.recordAddr i ∨ Disk.recordAddr (i + 1) ≤ x → d' x = d x)
    (hino : d'.inode i = ino) (hoffset : ino.OffsetFits) : Image d' (st.setInode i ino) := by
  obtain ⟨hlow, hhigh⟩ := regions
  have hend := Disk.recordAddr_le hi
  have hstart := Disk.recordAddr_mono (Nat.zero_le i)
  refine ⟨?_, fun j hj ↦ ?_, fun k hk ↦ ?_, fun addr haddr ↦ ?_, h.firstFreeBlock, fun j ↦ ?_⟩
  · exact (Disk.superblock_congr fun x hx ↦ hsame x (by omega)).trans h.superblock
  · by_cases hji : j = i
    · rw [hji, Store.setInode_inode, hino]
    · rw [Store.setInode_inode_of_ne hji]
      refine (Disk.inode_congr fun x hx hx' ↦ hsame x ?_).trans (h.inode j hj)
      rcases Nat.lt_or_gt_of_ne hji with hlt | hgt
      · exact .inl (hx'.trans_le (Disk.recordAddr_mono hlt))
      · exact .inr ((Disk.recordAddr_mono hgt).trans hx)
  · exact (congrArg UInt8.toBitVec (hsame _ (by omega))).trans (h.index k hk)
  · have haddr' := addr_le addr haddr
    exact (hsame _ (by omega)).trans (h.space addr haddr)
  · by_cases hji : j = i
    · rwa [hji, Store.setInode_inode]
    · rw [Store.setInode_inode_of_ne hji]
      exact h.offsets j

theorem setIndex (h : Image d st) (hk : k < bitmapSublock) (byte : BitVec 8) :
    Image (d.setIndex k byte)
      ({ st with bitmap := Function.update st.bitmap k byte } : Store area) := by
  obtain ⟨hlow, hhigh⟩ := regions
  have hbitmap : bitmapPtr = 65792 := rfl
  have hsame : ∀ x, x ≠ bitmapPtr + k → (d.setIndex k byte) x = d x := fun x hx ↦
    writeBytes_of_disjoint (by rw [List.length_singleton]; omega)
  refine ⟨?_, fun j hj ↦ ?_, fun l hl ↦ ?_, fun addr haddr ↦ ?_, h.firstFreeBlock, h.offsets⟩
  · exact (Disk.superblock_congr fun x hx ↦ hsame x (by omega)).trans h.superblock
  · have hend := Disk.recordAddr_le hj
    exact (Disk.inode_congr fun x hx hx' ↦ hsame x (by omega)).trans (h.inode j hj)
  · change (d.setIndex k byte).index l = Function.update st.bitmap k byte l
    by_cases hlk : l = k
    · have hbyte : (d.setIndex k byte) (bitmapPtr + k + 0) = ⟨byte⟩ :=
        writeBytes_add (Nat.succ_pos 0)
      rw [hlk, Function.update_self]
      exact congrArg UInt8.toBitVec hbyte
    · rw [Function.update_of_ne hlk]
      exact (congrArg UInt8.toBitVec (hsame _ (by omega))).trans (h.index l hl)
  · have haddr' := addr_le addr haddr
    exact (hsame _ (by omega)).trans (h.space addr haddr)

theorem storeBytes (h : Image d st) (addr : ℕ) (bytes : List UInt8) :
    Option.Rel Image (d.storeBytes area addr bytes) (st.storeBytes addr bytes) := by
  rw [Disk.storeBytes, Store.storeBytes]
  split
  · next hholds =>
    obtain ⟨hlow, hhigh⟩ := regions
    have hbitmap : bitmapPtr = 65792 := rfl
    have hspace := area.spacePtr_eq
    have hptr : spacePtr = 66816 := rfl
    simp only [Area.Holds] at hholds
    have hsame : ∀ x < spacePtr, (writeBytes d (addr - area.base) bytes) x = d x := fun x hx ↦
      writeBytes_of_lt (by omega)
    refine .some ⟨?_, fun j hj ↦ ?_, fun l hl ↦ ?_, fun a ha ↦ ?_, h.firstFreeBlock, h.offsets⟩
    · exact (Disk.superblock_congr fun x hx ↦ hsame x (by omega)).trans h.superblock
    · have hend := Disk.recordAddr_le hj
      exact (Disk.inode_congr fun x hx hx' ↦ hsame x (by omega)).trans (h.inode j hj)
    · exact (congrArg UInt8.toBitVec (hsame _ (by omega))).trans (h.index l hl)
    · have hold := h.space a ha
      simp only [Area.Holds] at ha
      have hle : addr - area.base ≤ a - area.base ↔ addr ≤ a := by omega
      have hindex : a - area.base - (addr - area.base) = a - addr := by omega
      simp only [writeBytes, hle, hindex, hold]
  · exact .none

end Image

end OperatingSystem.Filesys
