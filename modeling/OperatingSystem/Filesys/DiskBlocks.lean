import OperatingSystem.Lib.Lockstep
import OperatingSystem.Filesys.DiskImage
import OperatingSystem.Filesys.BlockPicker

/-!
# Blocks on the bytes of the disk

`allocate_bitmap`, `free_bitmap`, `allocate_block` and `free_block` as loads and stores in the
byte array. On an image of a store they answer and leave what they do on the records.
-/

namespace OperatingSystem.Filesys

open ByteMemory Lockstep

variable {area : Area}

/-! ## Reads in the data area -/

def SameArea (st st' : Store area) : Prop :=
  ∀ addr, area.Holds addr 1 → st'.space addr = st.space addr

namespace SameArea

variable {st st' : Store area}

theorem load (h : SameArea st st') (addr : ℕ) : st'.load addr = st.load addr := by
  rw [Store.load, Store.load]
  split
  · next hholds => rw [h addr hholds]
  · rfl

theorem loadWord (h : SameArea st st') (addr n : ℕ) : st'.loadWord addr n = st.loadWord addr n := by
  rw [Store.loadWord, Store.loadWord]
  split
  · next hholds =>
    rw [readBytes_congr fun k hk ↦ h (addr + k) (hholds.mono (by omega))]
  · rfl

theorem strcmpEq (h : SameArea st st') (addr : ℕ) (name : List UInt8) :
    strcmpEq st' addr name = strcmpEq st addr name := by
  induction name generalizing addr with
  | nil => rw [Filesys.strcmpEq, Filesys.strcmpEq, h.load]
  | cons c cs ih => simp only [Filesys.strcmpEq, h.load, ih]

theorem searchBlock (h : SameArea st st') (name : List UInt8) (entry count j times : ℕ) (n : ℤ) :
    searchBlock st' name entry count j times n = searchBlock st name entry count j times n := by
  induction count generalizing j times n with
  | zero => rfl
  | succ count ih => simp only [Filesys.searchBlock, h.strcmpEq, h.loadWord, ih]

theorem search (h : SameArea st st') (name : List UInt8) (location : ℕ → Option ℕ)
    (count i times : ℕ) (n : ℤ) :
    search st' name location count i times n = search st name location count i times n := by
  induction count generalizing i times n with
  | zero => rfl
  | succ count ih => simp only [Filesys.search, h.searchBlock, ih]

theorem searchDouble (h : SameArea st st') (name : List UInt8) (double count i times : ℕ) (n : ℤ) :
    searchDouble st' name double count i times n = searchDouble st name double count i times n := by
  induction count generalizing i times n with
  | zero => rfl
  | succ count ih => simp only [Filesys.searchDouble, h.loadWord, h.search, ih]

theorem isExist (h : SameArea st st') {parent : ℕ}
    (hinode : st'.inodeAt parent = st.inodeAt parent) (name : List UInt8) (n : ℤ) :
    isExist st' name parent n = isExist st name parent n := by
  simp only [Filesys.isExist, hinode, h.search, h.loadWord, h.searchDouble]

theorem switchAddress (h : SameArea st st') (ino : MyInode) (blockNum blockOffset : ℤ) :
    switchAddress st' ino blockNum blockOffset = switchAddress st ino blockNum blockOffset := by
  simp only [Filesys.switchAddress, h.loadWord]

end SameArea

/-! ## The operations -/

namespace Disk

/-- What the scan of `allocate_bitmap` leaves in `new_block`. -/
def nextBlock (d : Disk) (indexNum : ℕ) : ℤ :=
  let stop := searchBitmap d.index (bitmapSublock - indexNum) indexNum
  let newBlock : ℤ := ((stop.1 : ℤ) - 1) * 8 + stop.2
  if newBlock > allocatableSpaceSize then -1 else newBlock

def allocateBitmap (d : Disk) (newBlock : ℕ) : Option Disk :=
  let indexNum := newBlock / 8
  let indexOffset := newBlock % 8
  if indexNum < bitmapSublock then
    let d := d.setIndex indexNum (d.index indexNum ||| 0x80#8 >>> indexOffset)
    let newBlock := d.nextBlock indexNum
    let d := d.setFreeBlockNumber (d.superblock.freeBlockNumber - 1)
    some (d.setFirstFreeBlock newBlock)
  else none

def freeBitmap (area : Area) (d : Disk) (location : ℕ) : Option Disk :=
  let blockNum := ((location : ℤ) - area.spacePtr).tdiv blockSize
  if 0 ≤ blockNum ∧ blockNum.toNat / 8 < bitmapSublock then
    let byteNum := blockNum.toNat / 8
    let bitNum := blockNum.toNat % 8
    let d := d.setIndex byteNum (d.index byteNum ||| (0x08#8 ^^^ 0xff#8 >>> bitNum))
    let d := d.setFreeBlockNumber (d.superblock.freeBlockNumber + 1)
    let freeIndex := byteNum * 8 + bitNum
    some (if d.superblock.firstFreeBlock > freeIndex then d.setFirstFreeBlock freeIndex else d)
  else none

/-- `object_inode->block_number++` and `object_inode->last_block_offset = 0`. -/
def countBlock (d : Disk) (i : ℕ) : Disk :=
  d.writeFields i [(.blockNumber, leBytes 4 (toUInt32 ((d.inode i).blockNumber + 1))),
    (.lastBlockOffset, leBytes 4 0)]

def installSingle (area : Area) (d : Disk) (i newBlock blockNum : ℕ) : Option (ℕ × Disk) :=
  let ptr1 := area.blockAddr newBlock
  if d.location i 8 = 0 then do
    let d := d.setSlot i 8 ptr1
    let newBlock := d.superblock.firstFreeBlock
    let d ← d.allocateBitmap newBlock
    let ptr2 := area.blockAddr newBlock
    let d ← d.storePtr area ptr1 ptr2
    some (ptr2, d)
  else do
    let d ← d.storePtr area (d.location i 8 + 4 * (blockNum - 8)) ptr1
    some (ptr1, d)

def installDouble (area : Area) (d : Disk) (i newBlock blockNum : ℕ) : Option (ℕ × Disk) :=
  let ptr1 := area.blockAddr newBlock
  if d.location i 9 = 0 then do
    let d := d.setSlot i 9 ptr1
    let newBlock := d.superblock.firstFreeBlock
    let d ← d.allocateBitmap newBlock
    let ptr2 := area.blockAddr newBlock
    let d ← d.storePtr area ptr1 ptr2
    let newBlock := d.superblock.firstFreeBlock
    let d ← d.allocateBitmap newBlock
    let ptr3 := area.blockAddr newBlock
    let single ← (d.store area).loadWord ptr1 4
    let d ← d.storePtr area single ptr3
    some (ptr3, d)
  else do
    let doubleSlot := d.location i 9 + 4 * ((blockNum - 72) / 64)
    let singleIndex := (blockNum - 72) % 64
    let single ← (d.store area).loadWord doubleSlot 4
    if single = 0 then do
      let d ← d.storePtr area doubleSlot ptr1
      let newBlock := d.superblock.firstFreeBlock
      let d ← d.allocateBitmap newBlock
      let ptr2 := area.blockAddr newBlock
      let single ← (d.store area).loadWord doubleSlot 4
      let d ← d.storePtr area single ptr2
      some (ptr2, d)
    else do
      let d ← d.storePtr area (single + 4 * singleIndex) ptr1
      some (ptr1, d)

def allocateBlock (area : Area) (d : Disk) (i : ℕ) : Option (ℕ × Disk) :=
  let blockNum := (d.inode i).blockNumber + 1
  if RefusesBlock d.superblock (d.inode i) then some (0, d)
  else do
    let newBlock := d.superblock.firstFreeBlock
    let d ← d.allocateBitmap newBlock
    let d := d.countBlock i
    if blockNum < 8 then
      if 0 ≤ blockNum then
        some (area.blockAddr newBlock, d.setSlot i blockNum.toNat (area.blockAddr newBlock))
      else none
    else if blockNum < 72 then d.installSingle area i newBlock blockNum.toNat
    else d.installDouble area i newBlock blockNum.toNat

def freeLoop (area : Area) (next : Disk → ℕ → Option ℕ) : ℕ → ℕ → Disk → Option Disk
  | 0, _, d => some d
  | count + 1, k, d => do
      let ptr ← next d k
      if ptr = 0 then some d
      else do
        let d ← d.clearBlock area ptr
        let d ← d.freeBitmap area ptr
        freeLoop area next count (k + 1) d

def freeDouble (area : Area) (double : ℕ) : ℕ → ℕ → Disk → Option Disk
  | 0, _, d => some d
  | count + 1, k, d => do
      let single ← (d.store area).loadWord (double + 4 * k) 4
      if single = 0 then some d
      else do
        let d ← freeLoop area
          (fun d j ↦ ((d.store area).loadWord (double + 4 * k) 4).bind fun single ↦
            (d.store area).loadWord (single + 4 * j) 4) 64 0 d
        freeDouble area double count (k + 1) d

def freeBlock (area : Area) (d : Disk) (i : ℕ) : Option Disk := do
  let ino := d.inode i
  if ino.blockNumber < 0 then some d
  else do
    let d ← freeLoop area (fun _ k ↦ some (ino.location k)) 9 0 d
    if ino.blockNumber < 8 then some d
    else do
      let d ← freeLoop area
        (fun d k ↦ (d.store area).loadWord (ino.location 8 + 4 * k) 4) 64 0 d
      if ino.blockNumber < 72 then some d
      else freeDouble area (ino.location 9) 64 0 d

/-! ## The words of the superblock -/

section Superblock

variable {d : Disk}

theorem half_writeBytes (d : Disk) {a b : ℕ} (hapart : a = b ∨ a + 2 ≤ b ∨ b + 2 ≤ a) {n : ℕ}
    (hn : n < 65536) : leValue (readBytes (writeBytes d a (leBytes 2 n)) b 2) =
      if a = b then n else leValue (readBytes d b 2) := by
  split
  · next hab =>
    have hread := readBytes_writeBytes d a (leBytes 2 n)
    rw [length_leBytes] at hread
    rw [← hab, hread, half_stored hn]
  · next hab =>
    rw [readBytes_writeBytes_of_disjoint]
    rw [length_leBytes]
    omega

/-- The superblock with another value in its word `k`. -/
def withHalf (sb : Superblock) : Fin 4 → ℕ → Superblock
  | 0, n => { sb with freeBlockNumber := n }
  | 1, n => { sb with freeInodeNumber := n }
  | 2, n => { sb with firstFreeBlock := n }
  | 3, n => { sb with firstFreeInode := n }

theorem superblock_writeHalf (d : Disk) (k : Fin 4) {n : ℕ} (hn : n < 65536) :
    superblock (writeBytes d (2 * k) (leBytes 2 n)) = withHalf d.superblock k n := by
  have hhalf : ∀ j : Fin 4, leValue (readBytes (writeBytes d (2 * k) (leBytes 2 n)) (2 * j) 2) =
      if k = j then n else leValue (readBytes d (2 * j) 2) := by
    intro j
    rw [half_writeBytes d (by omega) hn]
    exact if_congr (by omega) rfl rfl
  have h₀ := hhalf 0
  have h₁ := hhalf 1
  have h₂ := hhalf 2
  have h₃ := hhalf 3
  fin_cases k <;> exact (Superblock.mk.injEq ..).mpr ⟨h₀, h₁, h₂, h₃⟩

end Superblock

end Disk

/-! ## The bitmap -/

namespace Image

variable {d : Disk} {st : Store area} {i : ℕ}

theorem writeHalf (h : Image d st) (k : Fin 4) {n : ℕ} (hn : n < 65536)
    (hfirst : k = 2 → n < allocatableSpaceSize) : Image (writeBytes d (2 * k) (leBytes 2 n))
      ({ st with superblock := Disk.withHalf st.superblock k n } : Store area) := by
  refine h.setSuperblock (fun x hx ↦ writeBytes_of_ge ?_) ?_ ?_
  · rw [length_leBytes]
    omega
  · rw [Disk.superblock_writeHalf d k hn, h.superblock]
  · have hold := h.firstFreeBlock
    fin_cases k
    · exact hold
    · exact hold
    · exact hfirst rfl
    · exact hold

theorem setFreeBlockNumber (h : Image d st) (n : ℤ) : Image (d.setFreeBlockNumber n)
    ({ st with superblock := { st.superblock with freeBlockNumber := toUInt16 n } } : Store area) :=
  h.writeHalf 0 (Disk.toUInt16_lt n) nofun

theorem setFreeInodeNumber (h : Image d st) (n : ℤ) : Image (d.setFreeInodeNumber n)
    ({ st with superblock := { st.superblock with freeInodeNumber := toUInt16 n } } : Store area) :=
  h.writeHalf 1 (Disk.toUInt16_lt n) nofun

theorem setFirstFreeBlock (h : Image d st) {n : ℤ} (hn : toUInt16 n < allocatableSpaceSize) :
    Image (d.setFirstFreeBlock n)
      ({ st with superblock := { st.superblock with firstFreeBlock := toUInt16 n } } :
        Store area) :=
  h.writeHalf 2 (Disk.toUInt16_lt n) fun _ ↦ hn

theorem setFirstFreeInode (h : Image d st) (n : ℕ) : Image (d.setFirstFreeInode n)
    ({ st with superblock := { st.superblock with firstFreeInode := toUInt16 n } } : Store area) :=
  h.writeHalf 3 (Disk.toUInt16_lt n) nofun

theorem sameArea (h : Image d st) : SameArea st (d.store area) := h.space

/-- The scan stops at the byte in which it starts. -/
theorem nextBlock_of_ne_zero {k : ℕ} (hk : k * 8 < allocatableSpaceSize) (hne : d.index k ≠ 0) :
    d.nextBlock k = ((k * 8 : ℕ) : ℤ) := by
  simp only [allocatableSpaceSize] at hk
  obtain ⟨fuel, hfuel⟩ : ∃ fuel, bitmapSublock - k = fuel + 1 :=
    ⟨1024 - k - 1, by simp only [bitmapSublock]; omega⟩
  have hstop := @searchBitmap_of_ne_zero _ _ fuel hne
  have hnext : (((k + 1 : ℕ) : ℤ) - 1) * 8 + (0 : ℕ) = ((k * 8 : ℕ) : ℤ) := by omega
  have hle : ¬ (((k * 8 : ℕ) : ℤ) > (allocatableSpaceSize : ℕ)) := by
    simp only [allocatableSpaceSize]
    omega
  simp only [Disk.nextBlock, hfuel, hstop, hnext, hle, if_false]

theorem allocateBitmap (h : Image d st) {newBlock : ℕ} (hb : newBlock < allocatableSpaceSize) :
    Option.Rel Image (d.allocateBitmap newBlock) (Filesys.allocateBitmap st newBlock) := by
  rw [allocateBitmap_eq hb]
  simp only [allocatableSpaceSize] at hb
  have hnum : newBlock / 8 < bitmapSublock := by
    simp only [bitmapSublock]
    omega
  have hset := h.setIndex hnum (st.bitmap (newBlock / 8) ||| 0x80#8 >>> (newBlock % 8))
  have hne : (d.setIndex (newBlock / 8)
      (st.bitmap (newBlock / 8) ||| 0x80#8 >>> (newBlock % 8))).index (newBlock / 8) ≠ 0 := by
    rw [hset.index _ hnum]
    dsimp only
    rw [Function.update_self]
    intro hzero
    exact mask_ne_zero (newBlock % 8) (by omega) (BitVec.or_eq_zero_iff.mp hzero).2
  have hnext := nextBlock_of_ne_zero (by simp only [allocatableSpaceSize]; omega) hne
  simp only [Disk.allocateBitmap, hnum, if_true, h.index _ hnum, hnext, hset.superblock]
  have hhalf : toUInt16 ((newBlock / 8 * 8 : ℕ) : ℤ) = newBlock / 8 * 8 := toUInt16_of_lt (by omega)
  have hfree := hset.setFreeBlockNumber (st.superblock.freeBlockNumber - 1)
  have hfirst := hfree.setFirstFreeBlock (n := ((newBlock / 8 * 8 : ℕ) : ℤ)) (by
    rw [hhalf]
    simp only [allocatableSpaceSize]
    omega)
  rw [hhalf] at hfirst
  exact .some hfirst

theorem freeBitmap (h : Image d st) (location : ℕ) :
    Option.Rel Image (d.freeBitmap area location) (Filesys.freeBitmap st location) := by
  rw [Disk.freeBitmap, Filesys.freeBitmap]
  generalize ((location : ℤ) - area.spacePtr).tdiv blockSize = blockNum
  dsimp only
  split
  · next hblock =>
    have hset := h.setIndex hblock.2
      (st.bitmap (blockNum.toNat / 8) ||| (0x08#8 ^^^ 0xff#8 >>> (blockNum.toNat % 8)))
    have hfree := hset.setFreeBlockNumber (st.superblock.freeBlockNumber + 1)
    have hold := h.firstFreeBlock
    simp only [h.index _ hblock.2, hset.superblock, hfree.superblock]
    refine .some ?_
    split
    · next hgt =>
      refine hfree.setFirstFreeBlock ?_
      simp only [allocatableSpaceSize] at hold
      simp only [toUInt16, allocatableSpaceSize]
      omega
    · exact hfree
  · exact .none

/-! ## Taking a block -/

theorem storePtr (h : Image d st) (addr ptr : ℕ) :
    Option.Rel Image (d.storePtr area addr ptr) (st.storePtr addr ptr) := h.storeBytes addr _

theorem loadWord (h : Image d st) (addr n : ℕ) :
    (d.store area).loadWord addr n = st.loadWord addr n := h.sameArea.loadWord addr n

theorem writeFields (h : Image d st) (hi : i < wholeInodeRecords)
    {writes : List (InodeField × List UInt8)} (hwrites : Disk.WholeFields writes) {ino : MyInode}
    (hino : (d.writeFields i writes).inode i = ino) (hoffset : ino.OffsetFits) :
    Image (d.writeFields i writes) (st.setInode i ino) :=
  h.setInode hi (fun _ hx ↦ Disk.writeFields_outside hwrites hx) hino hoffset

theorem setSlot (h : Image d st) (hi : i < wholeInodeRecords) {k ptr : ℕ} (hk : k < 10)
    (hptr : ptr < 4294967296) : Image (d.setSlot i k ptr) (st.setSlot i k ptr) := by
  refine h.setInode hi (fun _ hx ↦ Disk.setSlot_outside hk ptr hx) ?_ (h.offsets i)
  rw [← h.inode i hi]
  have hfield : ∀ f, f ≠ .location → (d.setSlot i k ptr).field i f = d.field i f := fun _ hf ↦
    Disk.field_setSlot hk ptr hf
  have hoperation : (d.setSlot i k ptr).operation i = d.operation i :=
    congrArg leValue (hfield .operation nofun)
  simp (disch := decide) only [Disk.inode, hfield, Disk.location_setSlot hk hptr, hoperation]

theorem blockNumber_ge (h : Image d st) (hi : i < wholeInodeRecords) :
    -2147483648 ≤ (st.inode i).blockNumber := by
  rw [← h.inode i hi]
  exact (Disk.toInt_field d i rfl).1

theorem countBlock (h : Image d st) (hi : i < wholeInodeRecords)
    (hbn : (st.inode i).blockNumber + 1 < 2147483648) : Image (d.countBlock i)
      (st.setInode i
        { st.inode i with
          blockNumber := (st.inode i).blockNumber + 1
          lastBlockOffset := 0 }) := by
  have hlow := h.blockNumber_ge hi
  have hwrites : Disk.WholeFields
      [(.blockNumber, leBytes 4 (toUInt32 ((d.inode i).blockNumber + 1))),
        (.lastBlockOffset, leBytes 4 0)] :=
    .cons (length_leBytes _ _) nofun (.cons (length_leBytes _ _) nofun .nil)
  have hstored := @Disk.toInt_stored ((d.inode i).blockNumber + 1)
    (by rw [h.inode i hi]; omega) (by rwa [h.inode i hi])
  refine h.writeFields hi hwrites ?_ fun hsize ↦ ?_
  · rw [Disk.inode_writeFields hwrites, ← h.inode i hi]
    simp only [MyInode.mk.injEq]
    exact ⟨rfl, rfl, rfl, rfl, rfl, rfl, hstored, rfl, rfl⟩
  · dsimp only at hsize ⊢
    omega

theorem location (h : Image d st) (hi : i < wholeInodeRecords) :
    d.location i = (st.inode i).location := congrArg MyInode.location (h.inode i hi)

theorem installSingle (h : Image d st) (hi : i < wholeInodeRecords) {newBlock : ℕ}
    (hb : newBlock < allocatableSpaceSize) (blockNum : ℕ) :
    Agrees Image (d.installSingle area i newBlock blockNum)
      (Filesys.installSingle st i newBlock blockNum) := by
  simp only [Disk.installSingle, Filesys.installSingle, h.location hi]
  split
  · have hslot := h.setSlot hi (show 8 < 10 by decide) (@Area.blockAddr_lt area _ hb)
    rw [hslot.superblock]
    refine rel_bind (hslot.allocateBitmap hslot.firstFreeBlock) fun d₁ st₁ h₁ ↦ ?_
    exact rel_bind (h₁.storePtr _ _) fun d₂ st₂ h₂ ↦ .some ⟨rfl, h₂⟩
  · exact rel_bind (h.storePtr _ _) fun d₁ st₁ h₁ ↦ .some ⟨rfl, h₁⟩

theorem installDouble (h : Image d st) (hi : i < wholeInodeRecords) {newBlock : ℕ}
    (hb : newBlock < allocatableSpaceSize) (blockNum : ℕ) :
    Agrees Image (d.installDouble area i newBlock blockNum)
      (Filesys.installDouble st i newBlock blockNum) := by
  simp only [Disk.installDouble, Filesys.installDouble, h.location hi]
  split
  · have hslot := h.setSlot hi (show 9 < 10 by decide) (@Area.blockAddr_lt area _ hb)
    rw [hslot.superblock]
    refine rel_bind (hslot.allocateBitmap hslot.firstFreeBlock) fun d₁ st₁ h₁ ↦ ?_
    refine rel_bind (h₁.storePtr _ _) fun d₂ st₂ h₂ ↦ ?_
    rw [h₂.superblock]
    refine rel_bind (h₂.allocateBitmap h₂.firstFreeBlock) fun d₃ st₃ h₃ ↦ ?_
    rw [h₃.loadWord]
    refine rel_bind_same _ fun single _ ↦ ?_
    exact rel_bind (h₃.storePtr _ _) fun d₄ st₄ h₄ ↦ .some ⟨rfl, h₄⟩
  · rw [h.loadWord]
    refine rel_bind_same _ fun single _ ↦ ?_
    split
    · refine rel_bind (h.storePtr _ _) fun d₁ st₁ h₁ ↦ ?_
      rw [h₁.superblock]
      refine rel_bind (h₁.allocateBitmap h₁.firstFreeBlock) fun d₂ st₂ h₂ ↦ ?_
      rw [h₂.loadWord]
      refine rel_bind_same _ fun single _ ↦ ?_
      exact rel_bind (h₂.storePtr _ _) fun d₃ st₃ h₃ ↦ .some ⟨rfl, h₃⟩
    · exact rel_bind (h.storePtr _ _) fun d₁ st₁ h₁ ↦ .some ⟨rfl, h₁⟩

theorem allocateBlock (h : Image d st) (hi : i < wholeInodeRecords) :
    Agrees Image (d.allocateBlock area i) (Filesys.allocateBlock st i) := by
  have hb := h.firstFreeBlock
  simp only [Disk.allocateBlock, Filesys.allocateBlock, h.superblock, h.inode i hi]
  split
  · exact .some ⟨rfl, h⟩
  · next hrefuse =>
    have hbn : (st.inode i).blockNumber + 1 < 2147483648 := by
      simp only [RefusesBlock, maxFileSize, blockSize] at hrefuse
      omega
    have htake := h.allocateBitmap hb
    rw [allocateBitmap_eq hb] at htake ⊢
    generalize d.allocateBitmap st.superblock.firstFreeBlock = taken at htake ⊢
    cases htake with
    | some h₁ =>
        have hcount := h₁.countBlock hi hbn
        have hlow := h.blockNumber_ge hi
        dsimp only [Option.bind_eq_bind, Option.bind_some]
        split
        · next hdirect =>
          split
          · exact .some ⟨rfl, hcount.setSlot hi (by omega) (Area.blockAddr_lt hb)⟩
          · exact .none
        · split
          · exact hcount.installSingle hi hb _
          · exact hcount.installDouble hi hb _

/-! ## Giving the blocks back -/

theorem clearBlock (h : Image d st) (addr : ℕ) :
    Option.Rel Image (d.clearBlock area addr) (st.clearBlock addr) := h.storeBytes addr _

theorem freeLoop {next : Disk → ℕ → Option ℕ} {next' : Store area → ℕ → Option ℕ}
    (hnext : ∀ d st k, Image d st → next d k = next' st k) {count k : ℕ} (h : Image d st) :
    Option.Rel Image (Disk.freeLoop area next count k d) (Filesys.freeLoop next' count k st) := by
  induction count generalizing k d st with
  | zero => exact .some h
  | succ count ih =>
      simp only [Disk.freeLoop, Filesys.freeLoop, hnext d st k h]
      refine rel_bind_same _ fun ptr _ ↦ ?_
      split
      · exact .some h
      · refine rel_bind (h.clearBlock ptr) fun d₁ st₁ h₁ ↦ ?_
        exact rel_bind (h₁.freeBitmap ptr) fun d₂ st₂ h₂ ↦ ih h₂

theorem freeDouble {double count k : ℕ} (h : Image d st) :
    Option.Rel Image (Disk.freeDouble area double count k d)
      (Filesys.freeDouble double count k st) := by
  induction count generalizing k d st with
  | zero => exact .some h
  | succ count ih =>
      simp only [Disk.freeDouble, Filesys.freeDouble, h.loadWord]
      refine rel_bind_same _ fun single _ ↦ ?_
      split
      · exact .some h
      · refine rel_bind (h.freeLoop fun d st j hd ↦ ?_) fun d₁ st₁ h₁ ↦ ih h₁
        simp only [hd.loadWord]

theorem freeBlock (h : Image d st) (hi : i < wholeInodeRecords) :
    Option.Rel Image (d.freeBlock area i) (Filesys.freeBlock st i) := by
  simp only [Disk.freeBlock, Filesys.freeBlock, h.inode i hi]
  split
  · exact .some h
  · refine rel_bind (freeLoop (fun _ _ _ _ ↦ ?_) h) fun d₁ st₁ h₁ ↦ ?_
    · rfl
    · split
      · exact .some h₁
      · refine rel_bind (freeLoop (fun _ _ _ hd ↦ ?_) h₁) fun d₂ st₂ h₂ ↦ ?_
        · exact hd.loadWord _ _
        · split
          · exact .some h₂
          · exact h₂.freeDouble

end Image

end OperatingSystem.Filesys
