import OperatingSystem.Filesys.DiskBlocks
import OperatingSystem.Filesys.Inodes

/-!
# Files on the bytes of the disk

`write_file`, the removal of a directory entry, the two ends of an inode's life and
`init_datastructure` on the byte array.
-/

namespace OperatingSystem.Filesys

open ByteMemory Lockstep

variable {area : Area}

/-! ## The operations -/

namespace Disk

def orAllocate (area : Area) (d : Disk) (i ptr : ℕ) : Option (ℕ × Disk) :=
  if ptr = 0 then d.allocateBlock area i else some (ptr, d)

/-- The byte loop of `write_file`, with `*position` and `w_size` when it ends. -/
def writeLoop (area : Area) (i : ℕ) :
    List UInt8 → Disk → ℕ → ℤ → ℤ → ℕ → Option ((ℤ × ℕ) × Disk)
  | [], d, _, _, position, wSize => some ((position, wSize), d)
  | b :: bs, d, wPtr, blockOffset, position, wSize =>
      if blockOffset = blockSize then do
        let (ptr, d) ← d.allocateBlock area i
        if ptr = 0 then some ((position, wSize), d)
        else do
          let d ← d.storeBytes area ptr [b]
          writeLoop area i bs d (ptr + 1) 1 (position + 1) (wSize + 1)
      else do
        let d ← d.storeBytes area wPtr [b]
        writeLoop area i bs d (wPtr + 1) (blockOffset + 1) (position + 1) (wSize + 1)

/-- The end of `write_file`. -/
def grow (d : Disk) (i wSize : ℕ) : Disk :=
  let d := d.writeField i .size (leBytes 4 (toUInt32 ((d.inode i).size + wSize)))
  let d := d.writeField i .blockNumber (leBytes 4 ((d.inode i).size / blockSize))
  d.writeField i .lastBlockOffset (leBytes 4 ((d.inode i).size % blockSize))

def writeFile (area : Area) (d : Disk) (i : ℕ) (position : ℤ) (input : List UInt8) (type : Char) :
    Option (ℤ × ℤ × Disk) := do
  let ino ← (d.store area).inodeAt i
  if type = 'w' ∧ ino.type = .dir then some (ERROR, position, d)
  else do
    let (ptr, d) ← d.orAllocate area i (ino.location 0)
    if ptr = 0 then some (ERROR, position, d)
    else do
      let blockOffset := position.tmod blockSize
      let wPtr ← switchAddress (d.store area) (d.inode i) (position.tdiv blockSize) blockOffset
      let (wPtr, d) ← d.orAllocate area i wPtr
      let ((position, wSize), d) ← writeLoop area i input d wPtr blockOffset position 0
      some (wSize, position, d.grow i wSize)

def strcpyLoop (area : Area) : ℕ → ℕ → ℕ → Disk → Option Disk
  | 0, _, _, _ => none
  | fuel + 1, dst, src, d => do
      let b ← (d.store area).load src
      let d ← d.storeBytes area dst [b]
      if b = 0 then some d else strcpyLoop area fuel (dst + 1) (src + 1) d

def moveEntry (area : Area) (d : Disk) (entry lastEntry : ℕ) : Option Disk := do
  let d ← strcpyLoop area (allocatableSpaceSize * blockSize) entry lastEntry d
  let inodeIndex ← (d.store area).loadWord (lastEntry + 14) 2
  d.storeBytes area (entry + 14) (leBytes 2 inodeIndex)

def fillEntry (area : Area) (d : Disk) (parent : ℕ) (directoryIndex : ℤ) : Option Disk :=
  let lastBlockOffset := (d.inode parent).lastBlockOffset - 16
  if lastBlockOffset = 0 then some d
  else do
    let entry ← switchAddress (d.store area) (d.inode parent) (directoryIndex.tdiv 16)
      (directoryIndex.tmod 16 * 16)
    let lastEntry ← switchAddress (d.store area) (d.inode parent) (d.inode parent).blockNumber
      lastBlockOffset
    d.moveEntry area entry lastEntry

/-- `last_block_offset -= 16` and `size -= 16`. -/
def shrink (d : Disk) (i : ℕ) : Disk :=
  let d := d.writeField i .lastBlockOffset
    (leBytes 4 (toUInt32 ((d.inode i).lastBlockOffset - 16)))
  d.writeField i .size (leBytes 4 (toUInt32 ((d.inode i).size - 16)))

def freeParentDirectoryEntry (area : Area) (d : Disk) (filename : List UInt8) (parent : ℕ) :
    Option (ℤ × Disk) := do
  let r ← isExist (d.store area) filename parent (-1)
  if r.ans = ERROR then some (ERROR, d)
  else do
    let d ← d.fillEntry area parent r.directoryIndex
    some (SUCCESS, d.shrink parent)

def freeInode (area : Area) (d : Disk) (filename : List UInt8) (i : ℕ) : Option Disk := do
  let d ← d.freeBlock area i
  let (_, d) ← d.freeParentDirectoryEntry area filename (d.inode i).parentIndex
  some (d.releaseInode i)

def createEntry (area : Area) (d : Disk) (des : ℕ) (childfile : List UInt8) (mode : ℤ)
    (type : ObjectType) (fresh : ℕ → UInt8) : Option (ℤ × Disk) := do
  let para := entryBytes childfile d.firstFreeInode fresh
  let (ret, _, d) ← d.writeFile area des (toInt (d.inode des).size) para 'c'
  if ret = ERROR then some (ERROR, d)
  else some (SUCCESS, d.allocateInode des mode (if type = .dir then .dir else .reg))

/-! ## The records after a write and a removal -/

section Records

variable (d : Disk) (i n : ℕ)

theorem size_writeField_size {s : ℕ} (hs : s < 4294967296) :
    ((d.writeField i .size (leBytes 4 s)).inode i).size = s := by
  have hbytes : (d.writeField i .size (leBytes 4 s)).field i .size = leBytes 4 s :=
    field_writeField_self (length_leBytes _ _)
  exact (congrArg leValue hbytes).trans (word_stored hs)

theorem size_writeField_of_ne {f : InodeField} (hf : f ≠ .size) {bytes : List UInt8}
    (h : bytes.length = f.member.size) :
    ((d.writeField i f bytes).inode i).size = (d.inode i).size :=
  congrArg leValue (field_writeField_ne hf h.le)

def growWrites (size : ℕ) : List (InodeField × List UInt8) :=
  [(.size, leBytes 4 size), (.blockNumber, leBytes 4 (size / blockSize)),
    (.lastBlockOffset, leBytes 4 (size % blockSize))]

theorem wholeFields_grow (size : ℕ) : WholeFields (growWrites size) :=
  .cons (length_leBytes _ _) nofun (.cons (length_leBytes _ _) nofun
    (.cons (length_leBytes _ _) nofun .nil))

theorem grow_eq : d.grow i n = d.writeFields i (growWrites (toUInt32 ((d.inode i).size + n))) := by
  have hsize := size_writeField_size d i (toUInt32_lt ((d.inode i).size + n))
  have hkept := size_writeField_of_ne (d.writeField i .size
    (leBytes 4 (toUInt32 ((d.inode i).size + n)))) i
    (show InodeField.blockNumber ≠ .size from nofun)
    (length_leBytes 4 (toUInt32 ((d.inode i).size + n) / blockSize))
  simp only [grow, hsize, hkept]
  rfl

theorem inode_grow : (d.grow i n).inode i = (d.inode i).grow n := by
  have hlt := toUInt32_lt ((d.inode i).size + n)
  generalize hs : toUInt32 ((d.inode i).size + n) = s at hlt
  have hsmall : ∀ m < 2147483648, toInt (leValue (leBytes 4 m)) = m := by
    intro m hm
    rw [word_stored (by omega), toInt_of_lt hm]
  rw [grow_eq, inode_writeFields (wholeFields_grow _)]
  simp only [MyInode.grow, MyInode.mk.injEq, hs]
  exact ⟨rfl, word_stored hlt, rfl, rfl, rfl, rfl, hsmall (s / 256) (by omega),
    hsmall (s % 256) (by omega), rfl⟩

def shrinkWrites (ino : MyInode) : List (InodeField × List UInt8) :=
  [(.lastBlockOffset, leBytes 4 (toUInt32 (ino.lastBlockOffset - 16))),
    (.size, leBytes 4 (toUInt32 (ino.size - 16)))]

theorem wholeFields_shrink (ino : MyInode) : WholeFields (shrinkWrites ino) :=
  .cons (length_leBytes _ _) nofun (.cons (length_leBytes _ _) nofun .nil)

theorem shrink_eq : d.shrink i = d.writeFields i (shrinkWrites (d.inode i)) := by
  have hkept := size_writeField_of_ne d i (show InodeField.lastBlockOffset ≠ .size from nofun)
    (length_leBytes 4 (toUInt32 ((d.inode i).lastBlockOffset - 16)))
  simp only [shrink, hkept]
  rfl

theorem inode_shrink (hlow : -2147483648 ≤ (d.inode i).lastBlockOffset - 16)
    (hhigh : (d.inode i).lastBlockOffset < 2147483648) :
    (d.shrink i).inode i = (d.inode i).shrink := by
  rw [shrink_eq, inode_writeFields (wholeFields_shrink _)]
  simp only [MyInode.shrink, MyInode.mk.injEq]
  exact ⟨rfl, word_stored (toUInt32_lt _), rfl, rfl, rfl, rfl, rfl,
    toInt_stored hlow (by omega), rfl⟩

end Records

end Disk

theorem Store.inodeAt_whole (st : Store area) {i : ℕ} (hi : i < wholeInodeRecords) :
    st.inodeAt i = some (st.inode i) := inodeAt_eq (hi.trans (by decide))

namespace Image

variable {d : Disk} {st : Store area} {i : ℕ}

theorem freeInodeNumber_eq (h : Image d st) :
    d.freeInodeNumber = st.superblock.freeInodeNumber :=
  congrArg Superblock.freeInodeNumber h.superblock

theorem firstFreeInode_eq (h : Image d st) : d.firstFreeInode = st.superblock.firstFreeInode :=
  congrArg Superblock.firstFreeInode h.superblock

theorem inodeAt (h : Image d st) (hi : i < wholeInodeRecords) :
    (d.store area).inodeAt i = st.inodeAt i := by
  have hinode : (d.store area).inode i = st.inode i := h.inode i hi
  rw [Store.inodeAt, Store.inodeAt, hinode]

/-! ## Writing -/

theorem orAllocate (h : Image d st) (hi : i < wholeInodeRecords) (ptr : ℕ) :
    Agrees Image (d.orAllocate area i ptr) (Filesys.orAllocate st i ptr) := by
  rw [Disk.orAllocate, Filesys.orAllocate]
  split
  · exact h.allocateBlock hi
  · exact .some ⟨rfl, h⟩

theorem writeLoop (hi : i < wholeInodeRecords) (bs : List UInt8) {wPtr : ℕ} {off pos : ℤ} {n : ℕ}
    (h : Image d st) : Option.Rel (fun x r ↦ x.1 = (r.position, r.wSize) ∧ Image x.2 r.store)
      (Disk.writeLoop area i bs d wPtr off pos n) (Filesys.writeLoop i bs st wPtr off pos n) := by
  induction bs generalizing d st wPtr off pos n with
  | nil => exact .some ⟨rfl, h⟩
  | cons b bs ih =>
      simp only [Disk.writeLoop, Filesys.writeLoop]
      split
      · refine rel_bind (h.allocateBlock hi) fun x y hxy ↦ ?_
        obtain ⟨ptr, d₁⟩ := x
        obtain ⟨ptr', st₁⟩ := y
        obtain ⟨rfl, h₁⟩ := hxy
        dsimp only
        split
        · exact .some ⟨rfl, h₁⟩
        · exact rel_bind (h₁.storeBytes _ _) fun d₂ st₂ h₂ ↦ ih h₂
      · exact rel_bind (h.storeBytes _ _) fun d₁ st₁ h₁ ↦ ih h₁

theorem grow (h : Image d st) (hi : i < wholeInodeRecords) (n : ℕ) :
    Image (d.grow i n) (st.setInode i ((st.inode i).grow n)) := by
  have hino := d.inode_grow i n
  rw [h.inode i hi] at hino
  rw [Disk.grow_eq] at hino ⊢
  refine h.writeFields hi (Disk.wholeFields_grow _) hino fun hsize ↦ ?_
  rw [MyInode.grow_lastBlockOffset]
  omega

theorem writeFile (h : Image d st) (hi : i < wholeInodeRecords) (pos : ℤ) (input : List UInt8)
    (type : Char) :
    Option.Rel (fun x y ↦ x.1 = y.1 ∧ x.2.1 = y.2.1 ∧ Image x.2.2 y.2.2)
      (d.writeFile area i pos input type) (Filesys.writeFile st i pos input type) := by
  simp only [Disk.writeFile, Filesys.writeFile, h.inodeAt hi]
  refine rel_bind_same _ fun ino _ ↦ ?_
  split
  · exact .some ⟨rfl, rfl, h⟩
  · refine rel_bind (h.orAllocate hi _) fun x y hxy ↦ ?_
    obtain ⟨ptr, d₁⟩ := x
    obtain ⟨ptr', st₁⟩ := y
    obtain ⟨rfl, h₁⟩ := hxy
    dsimp only
    split
    · exact .some ⟨rfl, rfl, h₁⟩
    · rw [h₁.inode i hi, h₁.sameArea.switchAddress]
      refine rel_bind_same _ fun wPtr _ ↦ ?_
      refine rel_bind (h₁.orAllocate hi _) fun x y hxy ↦ ?_
      obtain ⟨wPtr', d₂⟩ := x
      obtain ⟨wPtr'', st₂⟩ := y
      obtain ⟨rfl, h₂⟩ := hxy
      refine rel_bind (h₂.writeLoop hi _) fun x r hxr ↦ ?_
      obtain ⟨⟨pos', n⟩, d₃⟩ := x
      obtain ⟨heq, h₃⟩ := hxr
      cases heq
      exact .some ⟨rfl, rfl, h₃.grow hi _⟩

/-! ## Removing an entry -/

theorem strcpyLoop (h : Image d st) (fuel dst src : ℕ) :
    Option.Rel Image (Disk.strcpyLoop area fuel dst src d)
      (Filesys.strcpyLoop fuel dst src st) := by
  induction fuel generalizing d st dst src with
  | zero => exact .none
  | succ fuel ih =>
      simp only [Disk.strcpyLoop, Filesys.strcpyLoop, h.sameArea.load]
      refine rel_bind_same _ fun b _ ↦ rel_bind (h.storeBytes dst [b]) fun d₁ st₁ h₁ ↦ ?_
      split
      · exact .some h₁
      · exact ih h₁ _ _

theorem moveEntry (h : Image d st) (entry lastEntry : ℕ) :
    Option.Rel Image (d.moveEntry area entry lastEntry) (Filesys.moveEntry st entry lastEntry) := by
  rw [Disk.moveEntry, Filesys.moveEntry]
  refine rel_bind (h.strcpyLoop _ _ _) fun d₁ st₁ h₁ ↦ ?_
  rw [h₁.loadWord]
  exact rel_bind_same _ fun inodeIndex _ ↦ h₁.storeBytes _ _

theorem fillEntry (h : Image d st) (hi : i < wholeInodeRecords) (k : ℤ) :
    Option.Rel Image (d.fillEntry area i k) (Filesys.fillEntry st (st.inode i) k) := by
  simp only [Disk.fillEntry, Filesys.fillEntry, h.inode i hi, h.sameArea.switchAddress]
  split
  · exact .some h
  · exact rel_bind_same _ fun entry _ ↦ rel_bind_same _ fun lastEntry _ ↦ h.moveEntry _ _

theorem size_of_isExist (h : Image d st) (hi : i < wholeInodeRecords) {name : List UInt8} {k : ℤ}
    {r : SearchResult} (hr : isExist st name i k = some r) (hans : r.ans ≠ ERROR) :
    16 ≤ (st.inode i).size ∧ (st.inode i).size < 2147483648 := by
  have hlt := leValue_lt (d.field i .size)
  have hlength : (d.field i .size).length = 4 := length_readBytes ..
  have hsize : leValue (d.field i .size) = (st.inode i).size := congrArg MyInode.size (h.inode i hi)
  rw [hlength, hsize] at hlt
  simp only [isExist] at hr
  split at hr
  · cases hr
    exact (hans rfl).elim
  · obtain ⟨ino, hino, hr⟩ := Option.bind_eq_some_iff.mp hr
    obtain ⟨-, rfl⟩ := Store.inodeAt_eq_some hino
    split at hr
    · cases hr
      exact (hans rfl).elim
    · next hchild =>
      simp only [toInt] at hchild
      split at hchild
      · rw [Int.tdiv_eq_ediv_of_nonneg (by omega)] at hchild
        omega
      · -- the size is a negative `int`
        have hneg : ((st.inode i).size : ℤ) - 4294967296 = -(4294967296 - (st.inode i).size) := by
          omega
        rw [hneg, Int.neg_tdiv, Int.tdiv_eq_ediv_of_nonneg (by omega)] at hchild
        omega

theorem lastBlockOffset_lt (h : Image d st) (hi : i < wholeInodeRecords) :
    (st.inode i).lastBlockOffset < 2147483648 := by
  rw [← h.inode i hi]
  exact (Disk.toInt_field d i rfl).2

theorem shrink (h : Image d st) (hi : i < wholeInodeRecords) (hlow : 16 ≤ (st.inode i).size)
    (hhigh : (st.inode i).size < 2147483648) :
    Image (d.shrink i) (st.setInode i (st.inode i).shrink) := by
  have hfits := h.offsets i hhigh
  have hlt := h.lastBlockOffset_lt hi
  have hino := Disk.inode_shrink d i (by rw [h.inode i hi]; omega) (by rwa [h.inode i hi])
  rw [h.inode i hi] at hino
  rw [Disk.shrink_eq] at hino ⊢
  refine h.writeFields hi (Disk.wholeFields_shrink _) hino fun _ ↦ ?_
  simp only [MyInode.shrink, toUInt32]
  omega

theorem freeParentDirectoryEntry (h : Image d st) (hi : i < wholeInodeRecords)
    (name : List UInt8) : Agrees Image (d.freeParentDirectoryEntry area name i)
      (Filesys.freeParentDirectoryEntry st name i) := by
  have hlookup := h.sameArea.isExist (h.inodeAt hi) name (-1)
  have hat := st.inodeAt_whole hi
  simp only [Disk.freeParentDirectoryEntry, Filesys.freeParentDirectoryEntry, hlookup, hat,
    Option.bind_eq_bind, Option.bind_some]
  refine rel_bind_same _ fun r hr ↦ ?_
  split
  · exact .some ⟨rfl, h⟩
  · next hans =>
    obtain ⟨hlow, hhigh⟩ := h.size_of_isExist hi hr hans
    refine rel_bind_of_eq (h.fillEntry hi _) fun d₁ st₁ h₁eq h₁ ↦ ?_
    obtain ⟨space, rfl⟩ := fillEntry_eq_some h₁eq
    exact .some ⟨rfl, h₁.shrink hi hlow hhigh⟩

/-! ## Inodes -/

theorem release (h : Image d st) (hi : i < wholeInodeRecords) :
    Image (d.writeFields i releaseWrites) (st.setInode i (st.inode i).release) := by
  refine h.writeFields hi Disk.wholeFields_release ?_ fun _ ↦ by simp only [MyInode.release]; omega
  rw [Disk.inode_releaseWrites, h.inode i hi]

theorem renew (h : Image d st) (hi : i < wholeInodeRecords) (parent : ℕ) {mode : ℤ}
    {type : ObjectType} (htype : type = .dir ∨ type = .reg) (hlow : -2147483648 ≤ mode)
    (hhigh : mode < 2147483648) : Image (d.writeFields i (allocateWrites parent mode type))
      (st.setInode i ((st.inode i).renew parent mode type)) := by
  refine h.writeFields hi (Disk.wholeFields_allocate parent mode htype) ?_
    fun _ ↦ by simp only [MyInode.renew]; omega
  rw [Disk.inode_allocateWrites d i htype hlow hhigh, h.inode i hi]

/-- The scan meets the same records while it stays inside the inode area. -/
theorem nextFreeInode (h : Image d st) {fuel k : ℕ}
    (hnext : Filesys.nextFreeInode st.inode fuel k < wholeInodeRecords) :
    d.nextFreeInode fuel k = Filesys.nextFreeInode st.inode fuel k := by
  induction fuel generalizing k with
  | zero => rfl
  | succ fuel ih =>
      have hk : k < wholeInodeRecords := (nextFreeInode_spec st.inode (fuel + 1) k).1.trans_lt hnext
      have hoperation : d.operation k = (st.inode k).operation :=
        congrArg MyInode.operation (h.inode k hk)
      rw [Disk.nextFreeInode, Filesys.nextFreeInode, hoperation]
      split
      · rfl
      · next hused =>
        rw [Filesys.nextFreeInode, if_neg hused] at hnext
        exact ih hnext

theorem allocateInode (h : Image d st) (parent : ℕ) {mode : ℤ} {type : ObjectType}
    (hfirst : st.superblock.firstFreeInode < wholeInodeRecords) (htype : type = .dir ∨ type = .reg)
    (hlow : -2147483648 ≤ mode) (hhigh : mode < 2147483648)
    (hnext : ∀ st', Filesys.allocateInode st parent mode type = some st' →
      st'.superblock.firstFreeInode < wholeInodeRecords) :
    Option.Rel Image (some (d.allocateInode parent mode type))
      (Filesys.allocateInode st parent mode type) := by
  have hat := st.inodeAt_whole hfirst
  have hword := h.firstFreeInode_eq
  simp only [Filesys.allocateInode, Disk.allocateInode, hat, hword, Option.bind_eq_bind,
    Option.bind_some] at hnext ⊢
  have hnext' := hnext _ rfl
  have hrecord := h.renew hfirst parent htype hlow hhigh
  have hscan := hrecord.nextFreeInode hnext'
  have hwhole : wholeInodeRecords = 819 := rfl
  dsimp only at hnext'
  generalize Filesys.nextFreeInode _ _ _ = next at hnext' hscan ⊢
  have hset := hrecord.setFirstFreeInode next
  rw [toUInt16_of_lt (hnext'.trans (by omega))] at hset
  have hnumber : Disk.freeInodeNumber _ = st.superblock.freeInodeNumber := hset.freeInodeNumber_eq
  rw [hscan, hnumber]
  exact .some (hset.setFreeInodeNumber _)

theorem releaseInode (h : Image d st) (hi : i < wholeInodeRecords) : Image (d.releaseInode i)
    ({ st.setInode i (st.inode i).release with
      superblock :=
        { st.superblock with
          freeInodeNumber := toUInt16 (st.superblock.freeInodeNumber + 1)
          firstFreeInode :=
            if st.superblock.firstFreeInode > i then toUInt16 i
            else st.superblock.firstFreeInode } } : Store area) := by
  have hrecord := h.release hi
  have hnumber : Disk.freeInodeNumber _ = st.superblock.freeInodeNumber :=
    hrecord.freeInodeNumber_eq
  have hset := hrecord.setFreeInodeNumber (st.superblock.freeInodeNumber + 1)
  have hfirst : Disk.firstFreeInode _ = st.superblock.firstFreeInode := hset.firstFreeInode_eq
  simp only [Disk.releaseInode, hnumber, hfirst]
  split
  · exact hset.setFirstFreeInode i
  · exact hset

theorem freeInode (h : Image d st) (hi : i < wholeInodeRecords)
    (hparent : (st.inode i).parentIndex < wholeInodeRecords) (name : List UInt8) :
    Option.Rel Image (d.freeInode area name i) (Filesys.freeInode st name i) := by
  rw [Disk.freeInode, Filesys.freeInode]
  refine rel_bind_of_eq (h.freeBlock hi) fun d₁ st₁ h₁eq h₁ ↦ ?_
  have hinode : st₁.inode i = st.inode i := by rw [(FreeFrame.of_freeBlock h₁eq).inode]
  rw [h₁.inode i hi]
  refine rel_bind (h₁.freeParentDirectoryEntry (hinode ▸ hparent) name) fun x y hxy ↦ ?_
  obtain ⟨ret, d₂⟩ := x
  obtain ⟨ret', st₂⟩ := y
  obtain ⟨-, h₂⟩ := hxy
  exact .some (h₂.releaseInode hi)

theorem createEntry (h : Image d st) {des : ℕ} (hdes : des < wholeInodeRecords) (name : List UInt8)
    {mode : ℤ} (type : ObjectType) (fresh : ℕ → UInt8)
    (hfirst : st.superblock.firstFreeInode < wholeInodeRecords) (hlow : -2147483648 ≤ mode)
    (hhigh : mode < 2147483648)
    (hnext : ∀ ret st', Filesys.createEntry st des name mode type fresh = some (ret, st') →
      st'.superblock.firstFreeInode < wholeInodeRecords) :
    Agrees Image (d.createEntry area des name mode type fresh)
      (Filesys.createEntry st des name mode type fresh) := by
  have hat := st.inodeAt_whole hdes
  have hword := h.firstFreeInode_eq
  simp only [Disk.createEntry, Filesys.createEntry, hword, h.inode des hdes, hat,
    Option.bind_eq_bind, Option.bind_some] at hnext ⊢
  refine rel_bind_of_eq (h.writeFile hdes _ _ _) fun x y hy hxy ↦ ?_
  obtain ⟨ret, pos, d₁⟩ := x
  obtain ⟨ret', pos', st₁⟩ := y
  obtain ⟨rfl, -, h₁⟩ := hxy
  rw [hy] at hnext
  dsimp only [Option.bind_some] at hnext ⊢
  split
  · exact .some ⟨rfl, h₁⟩
  · next hret =>
    rw [if_neg hret] at hnext
    have hfirst₁ : st₁.superblock.firstFreeInode = st.superblock.firstFreeInode :=
      (writeFile_record hy).2.2
    have htype : (if type = .dir then ObjectType.dir else .reg) = .dir ∨
        (if type = .dir then ObjectType.dir else .reg) = .reg := by
      split
      · exact .inl rfl
      · exact .inr rfl
    have halloc := h₁.allocateInode des (hfirst₁ ▸ hfirst) htype hlow hhigh
      fun st' hst' ↦ hnext SUCCESS st' (by rw [hst']; rfl)
    exact rel_bind (f := fun d ↦ some (SUCCESS, d)) halloc fun _ _ hab ↦ .some ⟨rfl, hab⟩

theorem chmod (h : Image d st) (hi : i < wholeInodeRecords) {mode : ℤ} (hlow : -2147483648 ≤ mode)
    (hhigh : mode < 2147483648) : Image (d.writeField i .mode (leBytes 4 (toUInt32 mode)))
      (st.setInode i { st.inode i with mode := mode }) := by
  have hwrites : Disk.WholeFields [(.mode, leBytes 4 (toUInt32 mode))] :=
    .cons (length_leBytes _ _) nofun .nil
  refine h.writeFields hi hwrites ?_ (h.offsets i)
  rw [Disk.inode_writeFields hwrites, ← h.inode i hi]
  simp only [MyInode.mk.injEq]
  exact ⟨rfl, rfl, rfl, rfl, rfl, rfl, rfl, rfl, Disk.toInt_stored hlow hhigh⟩

end Image

/-! ## The formatted disk -/

def clearedStore (area : Area) : Store area where
  superblock := ⟨0, 0, 0, 0⟩
  inode := fun _ ↦ zeroInode
  bitmap := fun _ ↦ 0
  space := fun _ ↦ 0

theorem image_cleared (area : Area) : Image (fun _ ↦ 0) (clearedStore area) := by
  have hfirst : (0 : ℕ) < allocatableSpaceSize := by decide
  refine ⟨rfl, fun i _ ↦ ?_, fun _ _ ↦ rfl, fun _ _ ↦ rfl, hfirst, fun i _ ↦ ?_⟩
  · have hlocation : Disk.location (fun _ ↦ 0) i = fun _ ↦ 0 := by
      funext k
      rw [Disk.location]
      split <;> rfl
    have htype : ObjectType.ofChars [0, 0, 0, 0] = .zero := by decide
    exact (MyInode.mk.injEq ..).mpr ⟨htype, rfl, hlocation, rfl, rfl, rfl, rfl, rfl, rfl⟩
  · change ((0 : ℕ) : ℤ) - 2147483648 ≤ 0
    omega

namespace Image

variable {d : Disk} {st : Store area}

theorem initSuperblock (h : Image d st) : Image d.initSuperblock ({ st with
    superblock := ⟨allocatableSpaceSize - 1, inodeListNum - 1, 1, 1⟩ } : Store area) := by
  have hblocks := h.setFreeBlockNumber (allocatableSpaceSize - 1)
  have hinodes := hblocks.setFreeInodeNumber (inodeListNum - 1)
  have hfirst := hinodes.setFirstFreeBlock (n := 1) (by decide)
  exact hfirst.setFirstFreeInode 1

theorem initBitmap (h : Image d st) (hzero : ∀ k < bitmapSublock, st.bitmap k = 0) :
    Image d.initBitmap
      ({ st with bitmap := Function.update st.bitmap 0 0x80 } : Store area) := by
  have hindex : d.index 0 = 0 := (h.index 0 (by decide)).trans (hzero 0 (by decide))
  have hset := h.setIndex (k := 0) (by decide) 0x80
  have hclear : (d.setIndex 0 0x80).clearIndices = d.setIndex 0 0x80 := by
    funext x
    rw [Disk.clearIndices]
    split
    · next hx =>
      obtain ⟨k, rfl⟩ := Nat.exists_eq_add_of_le hx.1.le
      have hk : k < bitmapSublock := by omega
      have hbyte := hset.index k hk
      dsimp only at hbyte
      rw [Function.update_of_ne (by omega), hzero k hk] at hbyte
      exact (UInt8.eq_of_toBitVec_eq hbyte).symm
    · rfl
  have hor : (0 : BitVec 8) ||| 0x80 = 0x80 := by decide
  rw [Disk.initBitmap, hindex, hor, hclear]
  exact hset

theorem nameRoot (h : Image d st) (hi : 0 < wholeInodeRecords)
    (hoffset : -2147483648 ≤ (st.inode 0).lastBlockOffset) :
    Image (d.writeFields 0 Disk.rootWrites.1)
      (st.setInode 0 { st.inode 0 with type := .dir, size := 0 }) := by
  have hwrites : Disk.WholeFields Disk.rootWrites.1 := ⟨by decide, by decide⟩
  have htype : ObjectType.ofChars (ObjectType.dir.chars ++ [0]) = .dir := by decide
  refine h.writeFields hi hwrites ?_ fun _ ↦ ?_
  · rw [Disk.inode_writeFields hwrites, ← h.inode 0 hi]
    exact (MyInode.mk.injEq ..).mpr ⟨htype, rfl, rfl, rfl, rfl, rfl, rfl, rfl, rfl⟩
  · dsimp only
    omega

theorem numberRoot (h : Image d st) (hi : 0 < wholeInodeRecords) :
    Image (d.writeFields 0 Disk.rootWrites.2)
      (st.setInode 0
        { st.inode 0 with
          protection := 0
          operation := 0x100
          parentIndex := toUInt16 (-2)
          blockNumber := 0
          lastBlockOffset := 0 }) := by
  have hwrites : Disk.WholeFields Disk.rootWrites.2 := ⟨by decide, by decide⟩
  refine h.writeFields hi hwrites ?_ fun hsize ↦ ?_
  · rw [Disk.inode_writeFields hwrites, ← h.inode 0 hi]
    exact (MyInode.mk.injEq ..).mpr ⟨rfl, rfl, rfl, rfl, rfl, rfl, rfl, rfl, rfl⟩
  · dsimp only at hsize ⊢
    omega

theorem initRoot (h : Image d st) (hzero : st.inode 0 = zeroInode) :
    Image (d.initRoot area) (st.setInode 0 (rootInode area)) := by
  have hroot : (0 : ℕ) < wholeInodeRecords := by decide
  have hptr := area.spacePtr_fits
  simp only [allocatableSpaceSize, blockSize] at hptr
  have hname := h.nameRoot hroot (by rw [hzero]; decide)
  have hslot := hname.setSlot hroot (show 0 < 10 by decide) (show area.spacePtr < _ by omega)
  have hnumber := hslot.numberRoot hroot
  simp only [Store.setSlot, Store.setInode, Function.update_self, Function.update_idem, hzero]
    at hnumber
  exact hnumber

end Image

theorem image_format (area : Area) : Image (Disk.format area) (initDatastructure area) :=
  ((image_cleared area).initSuperblock.initBitmap fun _ _ ↦ rfl).initRoot rfl

end OperatingSystem.Filesys
