import OperatingSystem.Filesys.Reading

/-!
# The blocks of the first file

The blocks of a file that is written first on a formatted disk: its first
block is block 1, every further one is block 0. So its first two blocks are
distinct, and up to 512 bytes that were appended are read back.
-/

namespace OperatingSystem.Filesys

open ByteMemory

variable {area : Area}

def fileAddr (area : Area) (k : ℕ) : ℕ := area.blockAddr (if k < 256 then 1 else 0) + k % 256

/-- The given bytes lie at the addresses of the file. -/
def ContentsAt (area : Area) (m : ℕ → UInt8) (bytes : List UInt8) : Prop :=
  ∀ k (hk : k < bytes.length), m (fileAddr area k) = bytes[k]

/-- Inode 1 is a regular file with the blocks of the given bytes. -/
structure FileStored (st : Store area) (bytes : List UInt8) : Prop where
  type : (st.inode 1).type ≠ .dir
  length : bytes.length ≤ 512
  first : (st.inode 1).location 0 = area.blockAddr 1
  second : 256 < bytes.length → (st.inode 1).location 1 = area.blockAddr 0
  firstFreeBlock : st.superblock.firstFreeBlock = 0
  free : bytes.length < 256 → 1 ≤ st.superblock.freeBlockNumber
  contents : ContentsAt area st.space bytes

/-- Inode 1 has been written and holds the given bytes. -/
structure FileHolds (st : Store area) (bytes : List UInt8) : Prop
    extends FileStored st bytes where
  size : (st.inode 1).size = bytes.length
  blockNumber : (st.inode 1).blockNumber = ((bytes.length / 256 : ℕ) : ℤ)

/-- Inode 1 is a new file on a disk on which no block was taken yet. -/
structure FileFresh (st : Store area) : Prop where
  type : (st.inode 1).type ≠ .dir
  size : (st.inode 1).size = 0
  location : (st.inode 1).location 0 = 0
  blockNumber : (st.inode 1).blockNumber = -1
  firstFreeBlock : st.superblock.firstFreeBlock = 1
  freeBlockNumber : st.superblock.freeBlockNumber = 7930

/-- The reference semantics of a write: overwrite from the position, extend
past the end. -/
def overwrite (bytes : List UInt8) (position : ℕ) (input : List UInt8) : List UInt8 :=
  bytes.take position ++ input ++ bytes.drop (position + input.length)

@[simp] theorem overwrite_nil (bytes : List UInt8) (position : ℕ) :
    overwrite bytes position [] = bytes := by
  simp [overwrite]

theorem overwrite_end (bytes input : List UInt8) :
    overwrite bytes bytes.length input = bytes ++ input := by
  simp [overwrite]

/-- A write of nothing, or an append that does not start at the end of a block
and stays in two blocks. -/
def Appends (bytes : List UInt8) (position : ℕ) (input : List UInt8) : Prop :=
  input = [] ∨ (position = bytes.length ∧
    (bytes.length = 0 ∨ bytes.length % 256 ≠ 0) ∧ bytes.length + input.length ≤ 512)

instance (bytes : List UInt8) (position : ℕ) (input : List UInt8) :
    Decidable (Appends bytes position input) := inferInstanceAs (Decidable (_ ∨ _))

/-! ## Addresses -/

theorem writeBytes_fileAddr {m : ℕ → UInt8} {p k : ℕ} {bs : List UInt8} (hp : p < 512)
    (hk : k < 512) (hfit : p % 256 + bs.length ≤ 256) :
    writeBytes m (fileAddr area p) bs (fileAddr area k) =
      if h : p ≤ k ∧ k < p + bs.length then bs[k - p] else m (fileAddr area k) := by
  split
  · next h =>
    have haddr : fileAddr area k = fileAddr area p + (k - p) := by
      simp only [fileAddr, Area.blockAddr, blockSize]
      split <;> split <;> omega
    rw [haddr]
    exact writeBytes_add (by omega)
  · next h =>
    apply writeBytes_of_disjoint
    simp only [fileAddr, Area.blockAddr, blockSize]
    split <;> split <;> omega

theorem holds_fileAddr {k n : ℕ} (hn : k % 256 + n ≤ 256) :
    area.Holds (fileAddr area k) n := by
  refine Area.holds_blockAddr ?_ (by simpa using hn)
  split <;> simp

theorem fileAddr_ne_zero (area : Area) (k : ℕ) : fileAddr area k ≠ 0 := by
  have hpos := area.blockAddr_ne_zero (if k < 256 then 1 else 0)
  simp only [fileAddr]
  omega

namespace ContentsAt

variable {m : ℕ → UInt8} {bytes : List UInt8}

theorem append (h : ContentsAt area m bytes) {input : List UInt8} (hlt : bytes.length < 512)
    (hlength : bytes.length + input.length ≤ 512)
    (hfit : bytes.length % 256 + input.length ≤ 256) :
    ContentsAt area (writeBytes m (fileAddr area bytes.length) input) (bytes ++ input) := by
  intro k hk
  rw [List.length_append] at hk
  rw [writeBytes_fileAddr hlt (by omega) hfit]
  by_cases hlow : k < bytes.length
  · rw [dif_neg (by omega), List.getElem_append_left hlow]
    exact h k hlow
  · rw [dif_pos (by omega), List.getElem_append_right (by omega)]

end ContentsAt

theorem FileStored.grow {st : Store area} {bytes : List UInt8} (h : FileStored st bytes) {n : ℕ}
    (hsize : (st.inode 1).size + n = bytes.length) :
    FileHolds (st.setInode 1 ((st.inode 1).grow n)) bytes := by
  have hlength := h.length
  have hnew : ((st.inode 1).grow n).size = bytes.length := by
    rw [MyInode.grow_size (by omega), hsize]
  refine ⟨⟨?_, hlength, ?_, ?_, h.firstFreeBlock, h.free, h.contents⟩, ?_, ?_⟩ <;>
    rw [Store.setInode_inode]
  · exact h.type
  · exact h.first
  · exact h.second
  · exact hnew
  · rw [MyInode.grow_blockNumber, hnew]

namespace FileHolds

variable {st : Store area} {bytes : List UInt8}

theorem location (h : FileHolds st bytes) {k : ℕ} (hk : k < 512)
    (hmapped : k < 256 ∨ 256 < bytes.length) :
    (st.inode 1).location (k / 256) = area.blockAddr (if k < 256 then 1 else 0) := by
  by_cases hlow : k < 256
  · have hdiv : k / 256 = 0 := by omega
    rw [hdiv, if_pos hlow, h.first]
  · have hdiv : k / 256 = 1 := by omega
    rw [hdiv, if_neg hlow, h.second (by omega)]

theorem switchAddress (h : FileHolds st bytes) {k : ℕ} (hk : k < 512)
    (hmapped : k < 256 ∨ 256 < bytes.length) :
    switchAddress st (st.inode 1) ((k : ℤ).tdiv blockSize) ((k : ℤ).tmod blockSize) =
      some (fileAddr area k) := by
  have hdiv : (k : ℤ).tdiv blockSize = ((k / 256 : ℕ) : ℤ) := (Int.ofNat_tdiv k 256).symm
  have hmod : (k : ℤ).tmod blockSize = ((k % 256 : ℕ) : ℤ) := (Int.ofNat_tmod k 256).symm
  have hblock : (if k < 256 then 1 else 0) < allocatableSpaceSize := by
    split <;> simp
  rw [hdiv, hmod, switchAddress_direct _ _ _ (by omega), h.location hk hmapped,
    addOffset_blockAddr hblock (by omega) (by simp only [blockSize]; omega), Int.toNat_natCast]
  rfl

theorem orAllocate (h : FileHolds st bytes) {wPtr : ℕ} (hunmapped : wPtr = 0 → 256 ≤ bytes.length) :
    ∃ ptr st₁, orAllocate st 1 wPtr = some (ptr, st₁) ∧ FileStored st₁ bytes ∧
      (st₁.inode 1).size = (st.inode 1).size := by
  have hlength := h.length
  by_cases hzero : wPtr = 0
  · have hlong := hunmapped hzero
    rw [Filesys.orAllocate, if_pos hzero]
    by_cases hrefuse : RefusesBlock st.superblock (st.inode 1)
    · exact ⟨0, st, allocateBlock_of_refuses hrefuse, h.toFileStored, rfl⟩
    · have hbn := h.blockNumber
      have hfirst : st.superblock.firstFreeBlock < allocatableSpaceSize := by
        simp [h.firstFreeBlock]
      refine ⟨_, _, allocateBlock_direct hrefuse hfirst (by omega) (by omega), ?_, ?_⟩
      · have hslot : ∀ k : ℕ, k < 2 → ((st.installDirect 1).inode 1).location k =
            (st.inode 1).location k := by
          intro k hk
          have hne : k ≠ ((st.inode 1).blockNumber + 1).toNat := by omega
          simp [Store.installDirect, Function.update_of_ne hne]
        refine ⟨?_, hlength, ?_, fun hlong ↦ ?_, ?_, fun hshort ↦ by omega, h.contents⟩
        · simpa [Store.installDirect] using h.type
        · rw [hslot 0 (by omega), h.first]
        · rw [hslot 1 (by omega), h.second hlong]
        · simp [Store.installDirect, Store.takeBlock, h.firstFreeBlock]
      · simp [Store.installDirect]
  · exact ⟨wPtr, st, if_neg hzero, h.toFileStored, rfl⟩

theorem writeLoop_within (h : FileHolds st bytes) {input : List UInt8}
    (hlt : bytes.length < 512) (hend : bytes.length + input.length ≤ 512)
    (hfit : bytes.length % 256 + input.length ≤ 256)
    (hmapped : bytes.length < 256 ∨ 256 < bytes.length) :
    ∃ r : WriteResult area, Filesys.writeLoop 1 input st (fileAddr area bytes.length)
        ((bytes.length % 256 : ℕ) : ℤ) bytes.length 0 = some r ∧ r.wSize = input.length ∧
      r.position = bytes.length + input.length ∧ FileStored r.store (bytes ++ input) ∧
      (r.store.inode 1).size = (st.inode 1).size := by
  have hloop := @Filesys.writeLoop_within area 1 input st (fileAddr area bytes.length)
    ((bytes.length % 256 : ℕ) : ℤ) bytes.length 0 (by simp only [blockSize]; omega)
    (fun _ ↦ holds_fileAddr hfit)
  refine ⟨_, hloop, by simp, rfl, ?_, rfl⟩
  refine ⟨h.type, by simpa using hend, h.first, ?_, h.firstFreeBlock, ?_, ?_⟩
  · rw [List.length_append]
    exact fun hlong ↦ h.second (by omega)
  · rw [List.length_append]
    exact fun hshort ↦ h.free (by omega)
  · exact h.contents.append hlt hend hfit

/-- An append that fills block 1 and goes on in block 0. -/
theorem writeLoop_crossing (h : FileHolds st bytes) {as bs : List UInt8}
    (hfull : bytes.length + as.length = 256) (hlow : bytes.length < 256) (hne : bs ≠ [])
    (hbs : bs.length ≤ 256) :
    ∃ r : WriteResult area, Filesys.writeLoop 1 (as ++ bs) st (fileAddr area bytes.length)
        ((bytes.length % 256 : ℕ) : ℤ) bytes.length 0 = some r ∧
      r.wSize = (as ++ bs).length ∧ r.position = bytes.length + (as ++ bs).length ∧
      FileStored r.store (bytes ++ (as ++ bs)) ∧
      (r.store.inode 1).size = (st.inode 1).size := by
  have hmod : bytes.length % 256 = bytes.length := Nat.mod_eq_of_lt hlow
  have hlength : (bytes ++ as).length = 256 := by rw [List.length_append, hfull]
  have hbn : (st.inode 1).blockNumber = 0 := by
    rw [h.blockNumber, Nat.div_eq_of_lt hlow]
    rfl
  have hfree := h.free hlow
  have hfill := h.contents.append (by omega) (show bytes.length + as.length ≤ 512 by omega)
    (by omega)
  -- the store after block 1 was filled
  obtain ⟨st₁, hst₁⟩ : ∃ st₁ : Store area,
      st₁ = { st with space := writeBytes st.space (fileAddr area bytes.length) as } := ⟨_, rfl⟩
  have hinode₁ : st₁.inode = st.inode := by rw [hst₁]
  have hsuper₁ : st₁.superblock = st.superblock := by rw [hst₁]
  have hspace₁ : ContentsAt area st₁.space (bytes ++ as) := by
    rw [hst₁]
    exact hfill
  have hrefuse : ¬ RefusesBlock st₁.superblock (st₁.inode 1) := by
    rw [hinode₁, hsuper₁]
    simp [RefusesBlock, hbn]
    omega
  have halloc : allocateBlock st₁ 1 = some (area.blockAddr 0, st₁.installDirect 1) := by
    have hdirect := allocateBlock_direct hrefuse (by simp [hsuper₁, h.firstFreeBlock])
      (by rw [hinode₁, hbn]; omega) (by rw [hinode₁, hbn]; omega)
    rwa [hsuper₁, h.firstFreeBlock] at hdirect
  have haddr : fileAddr area (bytes ++ as).length = area.blockAddr 0 := by
    rw [hlength]
    simp [fileAddr]
  have hloop : Filesys.writeLoop 1 (as ++ bs) st (fileAddr area bytes.length)
      ((bytes.length % 256 : ℕ) : ℤ) bytes.length 0 =
      some ⟨{ st₁.installDirect 1 with
        space := writeBytes st₁.space (fileAddr area (bytes ++ as).length) bs },
        bytes.length + (as ++ bs).length, (as ++ bs).length⟩ := by
    rw [writeLoop_append (by simp only [blockSize]; omega)
      (fun _ ↦ holds_fileAddr (by omega))]
    have hoff : ((bytes.length % 256 : ℕ) : ℤ) + as.length = blockSize := by
      simp only [blockSize]
      omega
    rw [hoff, ← hst₁, Filesys.writeLoop_crossing hne halloc (area.blockAddr_ne_zero 0), ← haddr,
      Filesys.writeLoop_within (by simp only [blockSize]; omega)
        (fun _ ↦ holds_fileAddr (by omega))]
    simp [Store.installDirect, Store.setInode, Store.takeBlock]
    omega
  have hslot : ((st₁.installDirect 1).inode 1).location =
      Function.update (st.inode 1).location 1 (area.blockAddr 0) := by
    simp [Store.installDirect, hinode₁, hbn, hsuper₁, h.firstFreeBlock]
  refine ⟨_, hloop, rfl, rfl, ⟨?_, ?_, ?_, fun _ ↦ ?_, ?_, ?_, ?_⟩, ?_⟩
  · simpa [Store.installDirect, hinode₁] using h.type
  · simp only [List.length_append]
    omega
  · change ((st₁.installDirect 1).inode 1).location 0 = _
    rw [hslot, Function.update_of_ne (by decide), h.first]
  · change ((st₁.installDirect 1).inode 1).location 1 = _
    rw [hslot, Function.update_self]
  · simp [Store.installDirect, Store.takeBlock, hsuper₁, h.firstFreeBlock]
  · have hpos := List.length_pos_iff.mpr hne
    simp only [List.length_append]
    omega
  · rw [← List.append_assoc]
    exact hspace₁.append (by omega) (by omega) (by omega)
  · simp [Store.installDirect, hinode₁]

theorem writeFile_tail (h : FileHolds st bytes) {position : ℕ} {input : List UInt8}
    (hpos : position ≤ bytes.length) (happ : Appends bytes position input) :
    ∃ wPtr ptr st₁ r, Filesys.switchAddress st (st.inode 1) ((position : ℤ).tdiv blockSize)
        ((position : ℤ).tmod blockSize) = some wPtr ∧
      Filesys.orAllocate st 1 wPtr = some (ptr, st₁) ∧
      writeLoop 1 input st₁ ptr ((position : ℤ).tmod blockSize) position 0 = some r ∧
      r.wSize = input.length ∧ r.position = position + input.length ∧
      FileHolds (r.store.setInode 1 ((r.store.inode 1).grow r.wSize))
        (overwrite bytes position input) := by
  have hlength := h.length
  by_cases hnil : input = []
  · subst hnil
    have hdiv : (position : ℤ).tdiv blockSize = ((position / 256 : ℕ) : ℤ) :=
      (Int.ofNat_tdiv position 256).symm
    obtain ⟨wPtr, hwPtr⟩ : ∃ wPtr, Filesys.switchAddress st (st.inode 1)
        ((position : ℤ).tdiv blockSize) ((position : ℤ).tmod blockSize) = some wPtr := by
      rw [hdiv]
      exact ⟨_, switchAddress_direct _ _ _ (by omega)⟩
    have hunmapped : wPtr = 0 → 256 ≤ bytes.length := by
      rintro rfl
      by_contra hlow
      have hmapped := h.switchAddress (show position < 512 by omega) (.inl (by omega))
      exact fileAddr_ne_zero area position (Option.some.inj (hmapped.symm.trans hwPtr))
    obtain ⟨ptr, st₁, halloc, hstored, hsize⟩ := h.orAllocate hunmapped
    refine ⟨wPtr, ptr, st₁, ⟨st₁, position, 0⟩, hwPtr, halloc, rfl, rfl, by simp, ?_⟩
    rw [overwrite_nil]
    exact hstored.grow (by rw [hsize, h.size]; rfl)
  · obtain ⟨rfl, hstart, hend⟩ := happ.resolve_left hnil
    have hmod : (bytes.length : ℤ).tmod blockSize = ((bytes.length % 256 : ℕ) : ℤ) :=
      (Int.ofNat_tmod bytes.length 256).symm
    have hpos := List.length_pos_iff.mpr hnil
    have hmapped : bytes.length < 256 ∨ 256 < bytes.length := by omega
    obtain ⟨r, hr, hcount, hposition, hstored, hsize⟩ :
        ∃ r : WriteResult area, writeLoop 1 input st (fileAddr area bytes.length)
            ((bytes.length % 256 : ℕ) : ℤ) bytes.length 0 = some r ∧
          r.wSize = input.length ∧ r.position = bytes.length + input.length ∧
          FileStored r.store (bytes ++ input) ∧
          (r.store.inode 1).size = (st.inode 1).size := by
      by_cases hfit : bytes.length % 256 + input.length ≤ 256
      · exact h.writeLoop_within (by omega) hend hfit hmapped
      · have hsplit := List.take_append_drop (256 - bytes.length) input
        rw [← hsplit]
        refine h.writeLoop_crossing ?_ (by omega) ?_ ?_
        · rw [List.length_take]
          omega
        · rw [← List.length_pos_iff, List.length_drop]
          omega
        · rw [List.length_drop]
          omega
    refine ⟨_, _, st, r, h.switchAddress (by omega) hmapped,
      if_neg (fileAddr_ne_zero area _), ?_, hcount, hposition, ?_⟩
    · rw [hmod]
      exact hr
    · rw [overwrite_end]
      apply hstored.grow
      rw [hsize, hcount, h.size, List.length_append]

end FileHolds

/-! ## The first block -/

namespace FileFresh

variable {st : Store area}

theorem allocateBlock (h : FileFresh st) :
    allocateBlock st 1 = some (area.blockAddr 1, st.installDirect 1) := by
  have hrefuse : ¬ RefusesBlock st.superblock (st.inode 1) := by
    simp [RefusesBlock, h.blockNumber, h.freeBlockNumber]
  have hbn := h.blockNumber
  rw [allocateBlock_direct hrefuse (by simp [h.firstFreeBlock]) (by omega) (by omega),
    h.firstFreeBlock]

theorem installDirect (h : FileFresh st) : FileHolds (st.installDirect 1) [] where
  type := by simpa [Store.installDirect] using h.type
  length := by simp
  first := by simp [Store.installDirect, h.blockNumber, h.firstFreeBlock]
  second := by simp
  firstFreeBlock := by simp [Store.installDirect, Store.takeBlock, h.firstFreeBlock]
  free := fun _ ↦ by
    simp [Store.installDirect, Store.takeBlock, h.freeBlockNumber, toUInt16]
  contents := fun k hk ↦ by simp at hk
  size := by simpa [Store.installDirect] using h.size
  blockNumber := by simp [Store.installDirect, h.blockNumber]

end FileFresh

/-! ## Writing and reading -/

/-- Inode 1 is a regular file with the given contents. -/
def FileState (st : Store area) (bytes : List UInt8) : Prop :=
  FileHolds st bytes ∨ (FileFresh st ∧ bytes = [])

namespace FileState

variable {st : Store area} {bytes : List UInt8}

theorem type (h : FileState st bytes) : (st.inode 1).type ≠ .dir := by
  rcases h with h | ⟨h, -⟩
  · exact h.type
  · exact h.type

theorem size (h : FileState st bytes) : (st.inode 1).size = bytes.length := by
  rcases h with h | ⟨h, rfl⟩
  · exact h.size
  · exact h.size

theorem length (h : FileState st bytes) : bytes.length ≤ 512 := by
  rcases h with h | ⟨-, rfl⟩
  · exact h.length
  · simp

theorem firstBlock (h : FileState st bytes) :
    ∃ ptr st₁, orAllocate st 1 ((st.inode 1).location 0) = some (ptr, st₁) ∧ ptr ≠ 0 ∧
      FileHolds st₁ bytes := by
  have hptr := area.blockAddr_ne_zero 1
  rcases h with h | ⟨h, rfl⟩
  · rw [h.first]
    exact ⟨_, st, if_neg hptr, hptr, h⟩
  · refine ⟨_, _, ?_, hptr, h.installDirect⟩
    rw [orAllocate, if_pos h.location, h.allocateBlock]

theorem writeFile (h : FileState st bytes) {position : ℕ} {input : List UInt8}
    (hpos : position ≤ bytes.length) (happ : Appends bytes position input) :
    ∃ st', writeFile st 1 position input 'w' =
        some ((input.length : ℤ), (position + input.length : ℤ), st') ∧
      FileHolds st' (overwrite bytes position input) := by
  obtain ⟨ptr, st₁, hfirst, hne, hholds⟩ := h.firstBlock
  obtain ⟨wPtr, ptr', st₂, r, hwPtr, hblock, hloop, hcount, hposition, hresult⟩ :=
    hholds.writeFile_tail hpos happ
  refine ⟨_, ?_, hresult⟩
  simp only [Filesys.writeFile, Store.inodeAt_eq (show 1 < inodeListNum by simp),
    Option.bind_eq_bind, Option.bind_some, h.type, and_false, if_false, hfirst, if_neg hne, hwPtr,
    hblock, hloop]
  rw [hposition, hcount]

end FileState

namespace FileHolds

variable {st : Store area} {bytes : List UInt8}

theorem logicalPtr (h : FileHolds st bytes) {k : ℕ} (hk : k < bytes.length) :
    st.logicalPtr (st.inode 1) (k / 256) = area.blockAddr (if k < 256 then 1 else 0) := by
  have hlength := h.length
  rw [Store.logicalPtr, if_pos (by omega), h.location (by omega) (by omega)]

theorem mappedFile (h : FileHolds st bytes) : st.MappedFile (st.inode 1) := by
  intro k hk
  have hlength := h.length
  rw [h.size] at hk
  have hlow : 256 * k < bytes.length := by
    simp only [blockCount] at hk
    omega
  have hptr := h.logicalPtr hlow
  rw [Nat.mul_div_cancel_left k (by omega)] at hptr
  refine ⟨by omega, ?_, by omega, by omega, by omega⟩
  rw [hptr]
  exact holds_block (by split <;> simp)

theorem contents_inode (h : FileHolds st bytes) : st.contents (st.inode 1) = bytes := by
  apply List.ext_getElem
  · rw [length_contents, h.size]
  · intro k hk hk'
    have hbyte := h.contents k hk'
    simp only [contents_eq, readBytes, List.getElem_map, List.getElem_range, Nat.zero_add,
      Store.fileMem, Store.byteAddr, h.logicalPtr hk']
    exact hbyte

end FileHolds

/-- `rd_read` delivers what is left of the file, up to the given number. -/
theorem FileState.readFile {st : Store area} {bytes : List UInt8} (h : FileState st bytes)
    {q m : ℕ} (hq : q < bytes.length) (hm : m < 2147483648) :
    ∃ r, readFile st (st.inode 1) q m = some r ∧ r.ret = min m (bytes.length - q) ∧
      r.bytes = (bytes.drop q).take m := by
  rcases h with h | ⟨-, rfl⟩
  · have hlength := h.length
    have hsize : ¬ bytes.length = 0 := by omega
    have hloc : ¬ (st.inode 1).location 0 = 0 := by
      rw [h.first]
      exact area.blockAddr_ne_zero 1
    have hpos : ¬ toUInt32 (q : ℤ) ≥ bytes.length := by
      rw [toUInt32_of_lt (by omega)]
      omega
    have hleft : toUInt32 ((bytes.length : ℤ) - q) = bytes.length - q := by
      rw [← Nat.cast_sub (by omega)]
      exact toUInt32_of_lt (by omega)
    have hcount : toInt (if bytes.length - q < m then bytes.length - q else m) =
        ((min m (bytes.length - q) : ℕ) : ℤ) := by
      rw [toInt_of_lt (by split <;> omega)]
      split <;> omega
    have htake : (bytes.drop q).take (min m (bytes.length - q)) = (bytes.drop q).take m := by
      rw [← List.length_drop, List.take_eq_take_min (i := m)]
    refine ⟨⟨(min m (bytes.length - q) : ℕ), (bytes.drop q).take m,
      some (min m (bytes.length - q) : ℕ)⟩, ?_, rfl, rfl⟩
    simp only [Filesys.readFile, h.size, if_neg hsize, if_neg hloc, if_neg hpos, hleft,
      toUInt32_of_lt (show m < 4294967296 by omega), hcount, Int.toNat_natCast]
    have hend : q + min m (bytes.length - q) ≤ (st.inode 1).size := by
      rw [h.size]
      omega
    rw [h.mappedFile.readLoop le_rfl fun _ ↦ hend, ← contents_slice hend, h.contents_inode, htake,
      List.nil_append]
  · simp at hq

end OperatingSystem.Filesys
