import OperatingSystem.Filesys.IndexRange
import OperatingSystem.Filesys.WholeFiles

/-!
# One block too many

`allocate_block` compares the number of the last block, and not the number that it
is about to give out, with the most blocks of a file. So a file can get one block
more, and the next write asks for an entry behind the double-indirect block. A file
all of whose blocks are block 0 is such a file, and the module makes it out of a
new one.
-/

namespace OperatingSystem.Filesys

open ByteMemory

variable {area : Area}

/-! ## A file in one block -/

/-- All blocks of file `i`, which has the block number `c`, are block 0, and this
block and the word behind it are filled with the address of block 0. The module
comes to such a file by itself, since it gives out block 0 again and again. -/
structure SingleBlockFile (st : Store area) (i c : ℕ) : Prop where
  bytes : ∀ x < 260, st.space (area.blockAddr 0 + x) =
    (leBytes 4 (area.blockAddr 0)).getD (x % 4) 0
  next : st.superblock.firstFreeBlock = 0
  free : 7930 ≤ st.superblock.freeBlockNumber + c + (if c < 8 then 0 else 1) +
    (if c < 72 then 0 else 2)
  word : st.superblock.freeBlockNumber < 65536
  number : (st.inode i).blockNumber = c
  first : (st.inode i).location 0 ≠ 0
  single : (st.inode i).location 8 = if c < 8 then 0 else area.blockAddr 0
  double : (st.inode i).location 9 = if c < 72 then 0 else area.blockAddr 0

theorem takeBlock_freeBlockNumber {st : Store area} (block : ℕ) {n : ℕ}
    (hfree : st.superblock.freeBlockNumber = n + 1) (hword : n + 1 < 65536) :
    (st.takeBlock block).superblock.freeBlockNumber = n := by
  have hpred : ((n + 1 : ℕ) : ℤ) - 1 = (n : ℤ) := by omega
  rw [Store.takeBlock]
  dsimp only
  rw [hfree, hpred, toUInt16_of_lt (by omega)]

theorem holds_word {k : ℕ} (hk : k ≤ 64) : area.Holds (area.blockAddr 0 + 4 * k) 4 := by
  have hpos := area.spacePtr_pos
  simp only [Area.Holds, Area.blockAddr, allocatableSpaceSize, blockSize]
  omega

namespace SingleBlockFile

variable {st : Store area} {i c : ℕ}

theorem readWord (h : SingleBlockFile st i c) {k : ℕ} (hk : k ≤ 64) :
    readBytes st.space (area.blockAddr 0 + 4 * k) 4 = leBytes 4 (area.blockAddr 0) := by
  apply List.ext_getElem
  · rw [length_readBytes, length_leBytes]
  · intro x hx hx'
    rw [length_readBytes] at hx
    have hbyte := h.bytes (4 * k + x) (by omega)
    have hmod : (4 * k + x) % 4 = x := by omega
    rw [← Nat.add_assoc, hmod, List.getD_eq_getElem?_getD, List.getElem?_eq_getElem hx'] at hbyte
    rw [Option.getD_some] at hbyte
    rw [← hbyte]
    simp [readBytes]

theorem loadWord (h : SingleBlockFile st i c) {st₁ : Store area} (hspace : st₁.space = st.space)
    {k : ℕ} (hk : k ≤ 64) :
    st₁.loadWord (area.blockAddr 0 + 4 * k) 4 = some (area.blockAddr 0) := by
  have hlt : area.blockAddr 0 < 4294967296 := Area.blockAddr_lt (by simp)
  rw [Store.loadWord_eq (holds_word hk), hspace, h.readWord hk, leValue_leBytes_of_lt (by omega)]

theorem storePtr (h : SingleBlockFile st i c) {st₁ : Store area} (hspace : st₁.space = st.space)
    {k : ℕ} (hk : k ≤ 64) :
    st₁.storePtr (area.blockAddr 0 + 4 * k) (area.blockAddr 0) = some st₁ := by
  have hsame : writeBytes st₁.space (area.blockAddr 0 + 4 * k) (leBytes 4 (area.blockAddr 0)) =
      st₁.space := by
    apply writeBytes_same
    rw [hspace, length_leBytes]
    exact h.readWord hk
  rw [Store.storePtr_eq (holds_word hk), hsame]

/-- On the way to block number `c + 1`: only the record of the file and the
bookkeeping differ, and `n` blocks are left. -/
structure Taken (st : Store area) (i c n : ℕ) (loc : ℕ → ℕ) (st₁ : Store area) : Prop where
  space : st₁.space = st.space
  next : st₁.superblock.firstFreeBlock = 0
  free : st₁.superblock.freeBlockNumber = n
  record : st₁.inode i = { st.inode i with
    location := loc, blockNumber := (c + 1 : ℕ), lastBlockOffset := 0 }

theorem Taken.setSlot {st₁ : Store area} {n : ℕ} {loc : ℕ → ℕ} (h : Taken st i c n loc st₁)
    (k ptr : ℕ) : Taken st i c n (Function.update loc k ptr) (st₁.setSlot i k ptr) where
  space := h.space
  next := h.next
  free := h.free
  record := by rw [Store.setSlot, Store.setInode_inode, h.record]

theorem Taken.take {st₁ : Store area} {n : ℕ} {loc : ℕ → ℕ} (h : Taken st i c (n + 1) loc st₁)
    (hword : n + 1 < 65536) : ∃ st₂,
      allocateBitmap st₁ st₁.superblock.firstFreeBlock = some st₂ ∧ Taken st i c n loc st₂ := by
  refine ⟨st₁.takeBlock 0, ?_, h.space, rfl, takeBlock_freeBlockNumber 0 h.free hword, h.record⟩
  rw [h.next]
  exact allocateBitmap_eq (by simp)

def Advances (st : Store area) (i c : ℕ) (r : Option (ℕ × Store area)) : Prop :=
  ∃ st', r = some (area.blockAddr 0, st') ∧ SingleBlockFile st' i (c + 1) ∧
    (st'.inode i).size = (st.inode i).size ∧ (st'.inode i).type = (st.inode i).type

theorem Taken.finish {st₁ : Store area} {n : ℕ} {loc : ℕ → ℕ} (h : SingleBlockFile st i c)
    (htaken : Taken st i c n loc st₁)
    (hn : 7930 ≤ n + (c + 1) + (if c + 1 < 8 then 0 else 1) + if c + 1 < 72 then 0 else 2)
    (hword : n < 65536) (hfirst : loc 0 ≠ 0)
    (hsingle : loc 8 = if c + 1 < 8 then 0 else area.blockAddr 0)
    (hdouble : loc 9 = if c + 1 < 72 then 0 else area.blockAddr 0) :
    Advances st i c (some (area.blockAddr 0, st₁)) := by
  obtain ⟨hspace, hnext, hfree, hrecord⟩ := htaken
  refine ⟨st₁, rfl, ⟨?_, hnext, by rwa [hfree], by rwa [hfree], ?_, ?_, ?_, ?_⟩, ?_, ?_⟩
  · rw [hspace]
    exact h.bytes
  · rw [hrecord]
  · rwa [hrecord]
  · rwa [hrecord]
  · rwa [hrecord]
  · rw [hrecord]
  · rw [hrecord]

section Branches

variable {st₁ : Store area} {n : ℕ}

theorem Taken.direct (h : SingleBlockFile st i c)
    (htaken : Taken st i c n (st.inode i).location st₁)
    (hn : st.superblock.freeBlockNumber = n + 1) (hc : c + 1 < 8) :
    Advances st i c (some (area.blockAddr 0, st₁.setSlot i (c + 1) (area.blockAddr 0))) := by
  have hfree := h.free
  have hword := h.word
  have hsingle := h.single
  have hdouble := h.double
  have hother : ∀ k, k ≠ c + 1 → Function.update (st.inode i).location (c + 1)
      (area.blockAddr 0) k = (st.inode i).location k := fun k hk ↦ Function.update_of_ne hk ..
  rw [if_pos (by omega)] at hsingle hdouble hfree
  rw [if_pos (by omega)] at hfree
  refine Taken.finish h (htaken.setSlot (c + 1) _) ?_ (by omega) ?_ ?_ ?_
  · omega
  · rw [hother 0 (by omega)]
    exact h.first
  · rw [hother 8 (by omega), if_pos hc, hsingle]
  · rw [hother 9 (by omega), if_pos (by omega), hdouble]

theorem Taken.single (h : SingleBlockFile st i c)
    (htaken : Taken st i c n (st.inode i).location st₁)
    (hn : st.superblock.freeBlockNumber = n + 1) (hc : 8 ≤ c + 1) (hlt : c + 1 < 72) :
    Advances st i c (installSingle st₁ i 0 (c + 1)) := by
  have hfree := h.free
  have hword := h.word
  have hsingle := h.single
  have hdouble := h.double
  rw [if_pos (by omega)] at hdouble
  have hloc : (st₁.inode i).location = (st.inode i).location := by rw [htaken.record]
  by_cases hfirst : c < 8
  · -- block number 8: block 0 becomes the index block too
    rw [if_pos hfirst] at hsingle hfree
    rw [if_pos (by omega)] at hfree
    obtain ⟨n, rfl⟩ : ∃ n', n = n' + 1 := ⟨n - 1, by omega⟩
    obtain ⟨st₂, htake, htaken₂⟩ := (htaken.setSlot 8 (area.blockAddr 0)).take (by omega)
    have hstore := h.storePtr htaken₂.space (show 0 ≤ 64 by omega)
    have hnext : (st₁.setSlot i 8 (area.blockAddr 0)).superblock.firstFreeBlock = 0 := htaken.next
    rw [Nat.mul_zero, Nat.add_zero] at hstore
    rw [hnext] at htake
    have hresult : installSingle st₁ i 0 (c + 1) = some (area.blockAddr 0, st₂) := by
      simp only [installSingle, hloc, hsingle, if_true, hnext, htake, hstore, Option.bind_eq_bind,
        Option.bind_some]
    rw [hresult]
    refine Taken.finish h htaken₂ ?_ (by omega) ?_ ?_ ?_
    · split_ifs <;> omega
    · exact h.first
    · rw [if_neg (by omega)]
      rfl
    · rw [if_pos hlt]
      exact hdouble
  · rw [if_neg hfirst] at hsingle hfree
    rw [if_pos (by omega)] at hfree
    have hstore := h.storePtr htaken.space (show c + 1 - 8 ≤ 64 by omega)
    have hresult : installSingle st₁ i 0 (c + 1) = some (area.blockAddr 0, st₁) := by
      simp only [installSingle, hloc, hsingle, area.blockAddr_ne_zero, if_false, hstore,
        Option.bind_eq_bind, Option.bind_some]
    rw [hresult]
    refine Taken.finish h htaken ?_ (by omega) h.first ?_ ?_
    · split_ifs <;> omega
    · rw [hsingle, if_neg (by omega)]
    · rw [hdouble, if_pos hlt]

theorem Taken.double (h : SingleBlockFile st i c)
    (htaken : Taken st i c n (st.inode i).location st₁)
    (hn : st.superblock.freeBlockNumber = n + 1) (hc : 72 ≤ c + 1) (hlt : c ≤ 4167) :
    Advances st i c (installDouble st₁ i 0 (c + 1)) := by
  have hfree := h.free
  have hword := h.word
  have hsingle := h.single
  have hdouble := h.double
  rw [if_neg (by omega)] at hsingle hfree
  have hloc : (st₁.inode i).location = (st.inode i).location := by rw [htaken.record]
  by_cases hfirst : c < 72
  · -- block number 72: block 0 becomes both index blocks too
    rw [if_pos hfirst] at hdouble hfree
    obtain ⟨n, rfl⟩ : ∃ n', n = n' + 1 + 1 := ⟨n - 2, by omega⟩
    obtain ⟨st₂, htake, htaken₂⟩ := (htaken.setSlot 9 (area.blockAddr 0)).take (by omega)
    obtain ⟨st₃, htake₂, htaken₃⟩ := htaken₂.take (by omega)
    have hstore := h.storePtr htaken₂.space (show 0 ≤ 64 by omega)
    have hstore₂ := h.storePtr htaken₃.space (show 0 ≤ 64 by omega)
    have hload := h.loadWord htaken₃.space (show 0 ≤ 64 by omega)
    have hnext : (st₁.setSlot i 9 (area.blockAddr 0)).superblock.firstFreeBlock = 0 := htaken.next
    rw [Nat.mul_zero, Nat.add_zero] at hstore hstore₂ hload
    rw [hnext] at htake
    rw [htaken₂.next] at htake₂
    have hresult : installDouble st₁ i 0 (c + 1) = some (area.blockAddr 0, st₃) := by
      simp only [installDouble, hloc, hdouble, if_true, hnext, htake, hstore, htaken₂.next, htake₂,
        hload, hstore₂, Option.bind_eq_bind, Option.bind_some]
    rw [hresult]
    refine Taken.finish h htaken₃ ?_ (by omega) h.first ?_ ?_
    · split_ifs <;> omega
    · rw [if_neg (by omega)]
      exact hsingle
    · rw [if_neg (by omega)]
      rfl
  · rw [if_neg hfirst] at hdouble hfree
    have hload := h.loadWord htaken.space (show (c + 1 - 72) / 64 ≤ 64 by omega)
    have hstore := h.storePtr htaken.space (show (c + 1 - 72) % 64 ≤ 64 by omega)
    have hresult : installDouble st₁ i 0 (c + 1) = some (area.blockAddr 0, st₁) := by
      simp only [installDouble, hloc, hdouble, area.blockAddr_ne_zero, if_false, hload, hstore,
        Option.bind_eq_bind, Option.bind_some]
    rw [hresult]
    refine Taken.finish h htaken ?_ (by omega) h.first ?_ ?_
    · split_ifs <;> omega
    · rw [hsingle, if_neg (by omega)]
    · rw [hdouble, if_neg (by omega)]

end Branches

/-- The next block is block 0 again, also behind the last one that a file can
have. -/
theorem allocateBlock (h : SingleBlockFile st i c) (hc : c ≤ 4167) :
    Advances st i c (allocateBlock st i) := by
  have hfree := h.free
  have hword := h.word
  have hrefuse : ¬ RefusesBlock st.superblock (st.inode i) := by
    simp only [RefusesBlock, h.number, maxFileSize, blockSize]
    split at hfree <;> split at hfree <;> omega
  have hbitmap : allocateBitmap st 0 = some (st.takeBlock 0) := allocateBitmap_eq (by simp)
  have hnumber : (st.inode i).blockNumber + 1 = ((c + 1 : ℕ) : ℤ) := by
    rw [h.number]
    push_cast
    rfl
  obtain ⟨n, hn⟩ : ∃ n, st.superblock.freeBlockNumber = n + 1 :=
    ⟨st.superblock.freeBlockNumber - 1, by split at hfree <;> split at hfree <;> omega⟩
  have htaken : Taken st i c n (st.inode i).location ((st.takeBlock 0).setInode i
      { (st.takeBlock 0).inode i with blockNumber := (c + 1 : ℕ), lastBlockOffset := 0 }) :=
    ⟨rfl, rfl, takeBlock_freeBlockNumber 0 hn (by omega), Store.setInode_inode ..⟩
  simp only [Filesys.allocateBlock, hrefuse, if_false, hbitmap, Option.bind_eq_bind,
    Option.bind_some, hnumber, h.next, Int.toNat_natCast]
  by_cases hdirect : c + 1 < 8
  · rw [if_pos (by omega), if_pos (by omega)]
    exact htaken.direct h hn hdirect
  · rw [if_neg (by omega)]
    by_cases hsingle : c + 1 < 72
    · rw [if_pos (by omega)]
      exact htaken.single h hn (by omega) hsingle
    · rw [if_neg (by omega)]
      exact htaken.double h hn (by omega) hc

end SingleBlockFile

/-- The address of block 0 again and again, `n` bytes of it. -/
def addressBytes (area : Area) (n : ℕ) : List UInt8 :=
  (List.range n).map fun x ↦ (leBytes 4 (area.blockAddr 0)).getD (x % 4) 0

@[simp] theorem length_addressBytes (area : Area) (n : ℕ) : (addressBytes area n).length = n := by
  simp [addressBytes]

namespace SingleBlockFile

variable {st : Store area} {i c : ℕ}

theorem writeAddress (h : SingleBlockFile st i c) {n : ℕ} (hn : n ≤ 256) :
    { st with space := writeBytes st.space (area.blockAddr 0) (addressBytes area n) } = st := by
  have hsame : writeBytes st.space (area.blockAddr 0) (addressBytes area n) = st.space := by
    apply writeBytes_same
    rw [length_addressBytes]
    apply List.map_congr_left
    intro x hx
    have hx := List.mem_range.mp hx
    exact h.bytes x (by omega)
  rw [hsame]

/-- Any number of blocks that `allocate_block` grants, and one byte. -/
theorem writeLoop (h : SingleBlockFile st i c) {m : ℕ} (hc : c + m ≤ 4168) (pos : ℤ) (n : ℕ) :
    ∃ st', writeLoop i ((List.replicate m (addressBytes area 256)).flatten ++ addressBytes area 1)
        st (area.blockAddr 0) 0 pos n =
        some ⟨st', pos + (256 * m + 1 : ℕ), n + (256 * m + 1)⟩ ∧
      SingleBlockFile st' i (c + m) ∧ (st'.inode i).size = (st.inode i).size ∧
      (st'.inode i).type = (st.inode i).type := by
  have hholds : ∀ k ≤ 256, area.Holds (area.blockAddr 0) k := fun k hk ↦
    holds_blockStart (by simp) hk
  induction m generalizing st c pos n with
  | zero =>
      have hloop := @writeLoop_within _ i (addressBytes area 1) st (area.blockAddr 0) 0 pos n
        (by rw [length_addressBytes, blockSize]; omega)
        (fun _ ↦ by rw [length_addressBytes]; exact hholds 1 (by omega))
      rw [h.writeAddress (by omega), length_addressBytes] at hloop
      exact ⟨st, hloop, h, rfl, rfl⟩
  | succ m ih =>
      obtain ⟨st₁, hblock, hfile, hsize, htype⟩ := h.allocateBlock (by omega)
      obtain ⟨st', hloop, hfile', hsize', htype'⟩ := ih hfile (by omega) (pos + 256) (n + 256)
      have hne : (List.replicate m (addressBytes area 256)).flatten ++ addressBytes area 1 ≠ [] := by
        intro hnil
        have hlength := congrArg List.length (List.append_eq_nil_iff.mp hnil).2
        rw [length_addressBytes] at hlength
        cases hlength
      have hfull := @writeLoop_append _ i (addressBytes area 256)
        ((List.replicate m (addressBytes area 256)).flatten ++ addressBytes area 1) st
        (area.blockAddr 0) 0 pos n (by rw [length_addressBytes, blockSize]; omega)
        (fun _ ↦ by rw [length_addressBytes]; exact hholds 256 (by omega))
      have hcross := @writeLoop_crossing _ i _ st st₁ (area.blockAddr 0 + 256) _ (pos + 256)
        (n + 256) hne hblock (area.blockAddr_ne_zero 0)
      rw [h.writeAddress (by omega), length_addressBytes] at hfull
      refine ⟨st', ?_, ?_, hsize'.trans hsize, htype'.trans htype⟩
      · have hpos : pos + 256 + ((256 * m + 1 : ℕ) : ℤ) =
            pos + ((256 * (m + 1) + 1 : ℕ) : ℤ) := by
          push_cast
          ring
        have hcount : n + 256 + (256 * m + 1) = n + (256 * (m + 1) + 1) := by omega
        rw [hpos, hcount] at hloop
        rw [List.replicate_succ, List.flatten_cons, List.append_assoc, hfull, ← hloop]
        exact hcross
      · have hsum : c + 1 + m = c + (m + 1) := by omega
        rwa [hsum] at hfile'

/-- The bytes from block `c` on up to the last block that a file can have, and one
more. -/
def overflow (area : Area) (c : ℕ) : List UInt8 :=
  (List.replicate (4168 - c) (addressBytes area 256)).flatten ++ addressBytes area 1

/-- A write at the end of such a file does not stop at the largest size. -/
theorem writeFile (h : SingleBlockFile st i c) (hi : i < inodeListNum)
    (htype : (st.inode i).type ≠ .dir) (hc : c < 8)
    (hloc : (st.inode i).location c = area.blockAddr 0) (hsize : (st.inode i).size = 256 * c) :
    ∃ st' : Store area, writeFile st i (256 * c : ℕ) (overflow area c) 'w' =
        some (((256 * (4168 - c) + 1 : ℕ) : ℤ), ((1067009 : ℕ) : ℤ), st') ∧
      (st'.inode i).size = 1067009 ∧ (st'.inode i).type ≠ .dir ∧
      (st'.inode i).location 0 ≠ 0 ∧ (st'.inode i).location 9 ≠ 0 := by
  obtain ⟨st₁, hloop, hfile, hsize₁, htype₁⟩ :=
    h.writeLoop (show c + (4168 - c) ≤ 4168 by omega) ((256 * c : ℕ) : ℤ) 0
  have hlast : c + (4168 - c) = 4168 := by omega
  have hdiv : ((256 * c : ℕ) : ℤ).tdiv blockSize = (c : ℕ) := by
    rw [← Int.ofNat_tdiv]
    exact congrArg Nat.cast (Nat.mul_div_cancel_left c (show 0 < 256 by omega))
  have hmod : ((256 * c : ℕ) : ℤ).tmod blockSize = 0 := by
    rw [← Int.ofNat_tmod]
    exact congrArg Nat.cast (Nat.mul_mod_right 256 c)
  have hswitch : switchAddress st (st.inode i) (c : ℕ) 0 = some (area.blockAddr 0) := by
    rw [switchAddress_direct st _ 0 hc, hloc, addOffset_blockAddr (by simp) (le_refl 0) (by simp)]
    rfl
  have hnew : ((st₁.inode i).grow (256 * (4168 - c) + 1)).size = 1067009 := by
    rw [MyInode.grow_size (by omega), hsize₁, hsize]
    omega
  rw [hlast] at hfile
  refine ⟨st₁.setInode i ((st₁.inode i).grow (256 * (4168 - c) + 1)), ?_, ?_, ?_, ?_, ?_⟩
  · have hposition : ((256 * c : ℕ) : ℤ) + ((256 * (4168 - c) + 1 : ℕ) : ℤ) = (1067009 : ℕ) := by
      omega
    rw [hposition, Nat.zero_add] at hloop
    simp only [Filesys.writeFile, Store.inodeAt_eq hi, Option.bind_eq_bind, Option.bind_some,
      htype, and_false, if_false, orAllocate, h.first, hdiv, hmod, hswitch, area.blockAddr_ne_zero,
      overflow, hloop]
  · rw [Store.setInode_inode, hnew]
  · rw [Store.setInode_inode]
    change (st₁.inode i).type ≠ .dir
    rwa [htype₁]
  · rw [Store.setInode_inode]
    exact hfile.first
  · rw [Store.setInode_inode]
    have hdouble := hfile.double
    rw [if_neg (by omega)] at hdouble
    change (st₁.inode i).location 9 ≠ 0
    rw [hdouble]
    exact area.blockAddr_ne_zero 0

end SingleBlockFile

/-- A write to a file that has blocks starts with `switchAddress`. -/
theorem switch_mem_calls {st : Store area} {i : ℕ} {position : ℤ} {input : List UInt8}
    {type : Char} (hi : i < inodeListNum) (htype : (st.inode i).type ≠ .dir)
    (hloc : (st.inode i).location 0 ≠ 0) :
    .switch st (st.inode i) (position.tdiv blockSize) ∈ writeFileCalls st i position input type := by
  simp only [writeFileCalls, Store.inodeAt_eq hi, htype, and_false, if_false, orAllocate, hloc]
  exact List.mem_append_right _ List.mem_cons_self

theorem step_of_writeFile {s : State area} {c : WriteCall} {fo : FileObject} {ret position : ℤ}
    {st : Store area} (hfd : (s.table c.cur).fileObject c.fd = some fo)
    (h : writeFile s.store fo.inodeIndex fo.position c.input 'w' = some (ret, position, st)) :
    ∃ s', c.step s = some s' ∧ s'.store = st ∧
      (s'.table c.cur) = (s.table c.cur).setPosition c.fd fo position := by
  have hfo : (getFDT c.cur s).1.fileObject c.fd = some fo := hfd
  have hpid : ((s.table c.cur).setPosition c.fd fo position).pid = c.cur.pid := getFDT_pid c.cur s
  refine ⟨{ (getFDT c.cur s).2 with store := st }.setFDT
    ((getFDT c.cur s).1.setPosition c.fd fo position), ?_, rfl, ?_⟩
  · simp only [WriteCall.step, rdWrite, hfo, getFDT_store, h, Option.bind_eq_bind, Option.bind_some,
      Option.map_some]
  · refine Eq.trans (table_congr ?_ c.cur) (table_setFDT (s := s) hpid)
    rfl

/-! ## From the start of the module -/

def createdFile : List Event :=
  sampleCalls [.creat sampleName 1 fun _ ↦ 0, .openPath sampleName 1]

/-- Two blocks of the address of block 0, and then all blocks up to the last one
and one byte. -/
def overflowWrites : List WriteCall :=
  [⟨sampleProcess, 1, addressBytes sampleArea 256⟩,
    ⟨sampleProcess, 1, addressBytes sampleArea 256⟩,
    ⟨sampleProcess, 1, SingleBlockFile.overflow sampleArea 2⟩]

theorem exists_singleBlockFile : ∃ s s' : State sampleArea,
    PartialRun.run step (initState sampleArea) createdFile = some s ∧
      FreshRegular (s.store.inode 1) ∧ (s.table sampleProcess).fileObject 1 = some ⟨1, 0⟩ ∧
      PartialRun.run WriteCall.step s (overflowWrites.take 2) = some s' ∧
      SingleBlockFile s'.store 1 2 ∧ (s'.store.inode 1).type = .reg ∧
      (s'.store.inode 1).location 2 = sampleArea.blockAddr 0 ∧
      (s'.store.inode 1).size = 512 ∧ (s'.table sampleProcess).fileObject 1 = some ⟨1, 512⟩ := by
  have hcreated : (PartialRun.run step (initState sampleArea) createdFile).map (fun s ↦
      ((s.store.inode 1).type, (s.store.inode 1).size, (s.store.inode 1).blockNumber,
        (s.table sampleProcess).fileObject 1,
        (List.range 10).all fun k ↦ (s.store.inode 1).location k = 0)) =
      some (.reg, 0, -1, some ⟨1, 0⟩, true) := by
    decide +kernel
  have hwritten : ((PartialRun.run step (initState sampleArea) createdFile).bind fun s ↦
      PartialRun.run WriteCall.step s (overflowWrites.take 2)).map (fun s ↦
        ((s.store.inode 1).type, (s.store.inode 1).blockNumber,
          [(s.store.inode 1).size, s.store.superblock.firstFreeBlock,
            s.store.superblock.freeBlockNumber, (s.store.inode 1).location 0,
            (s.store.inode 1).location 2, (s.store.inode 1).location 8,
            (s.store.inode 1).location 9],
          (s.table sampleProcess).fileObject 1,
          (List.range 260).all fun x ↦ s.store.space (sampleArea.blockAddr 0 + x) =
            (leBytes 4 (sampleArea.blockAddr 0)).getD (x % 4) 0)) =
      some (.reg, 2, [512, 0, 7928, sampleArea.blockAddr 1, sampleArea.blockAddr 0, 0, 0],
        some ⟨1, 512⟩, true) := by
    decide +kernel
  obtain ⟨s, hs, hfacts⟩ := Option.map_eq_some_iff.mp hcreated
  simp only [Prod.mk.injEq] at hfacts
  obtain ⟨htype, hsize, hnumber, hfd, hnull⟩ := hfacts
  rw [hs, Option.bind_some] at hwritten
  obtain ⟨s', hs', hfacts⟩ := Option.map_eq_some_iff.mp hwritten
  simp only [Prod.mk.injEq, List.cons.injEq] at hfacts
  obtain ⟨htype', hnumber', ⟨hsize', hnext, hfree, hfirst, hsecond, hsingle, hdouble, -⟩, hfd',
    hbytes⟩ := hfacts
  refine ⟨s, s', hs, ⟨htype, hsize, hnumber, fun k hk ↦ ?_⟩, hfd, hs', ⟨?_, hnext, ?_, ?_, hnumber',
    ?_, hsingle, hdouble⟩, htype', hsecond, hsize', hfd'⟩
  · exact of_decide_eq_true (List.all_eq_true.mp hnull k (List.mem_range.mpr hk))
  · intro x hx
    exact of_decide_eq_true (List.all_eq_true.mp hbytes x (List.mem_range.mpr hx))
  · rw [hfree]
    decide
  · omega
  · rw [hfirst]
    exact sampleArea.blockAddr_ne_zero 1

/-- A new file grows past the largest size, and the next write uses an entry
behind the double-indirect block. -/
theorem file_grows_past_last_block : ∃ s s' : State sampleArea,
    PartialRun.run step (initState sampleArea) createdFile = some s ∧
      FreshRegular (s.store.inode 1) ∧ (s.table sampleProcess).fileObject 1 = some ⟨1, 0⟩ ∧
      PartialRun.run WriteCall.step s overflowWrites = some s' ∧
      maxFileSize < (s'.store.inode 1).size ∧
      ∃ call ∈ WriteCall.calls s' ⟨sampleProcess, 1, [0]⟩,
        .double ((s'.store.inode 1).location 9) 64 ∈ call.accesses ∧ ¬ call.Good := by
  obtain ⟨s, s₂, hs, hfresh, hfd, hs₂, hfile, htype, hloc, hsize, hfd₂⟩ := exists_singleBlockFile
  have hregular : (s₂.store.inode 1).type ≠ .dir := by
    rw [htype]
    decide
  obtain ⟨st, hwrite, hsize', htype', hfirst, hdouble⟩ :=
    hfile.writeFile (by simp) hregular (by omega) hloc hsize
  obtain ⟨s', hstep, hstore, htable⟩ := step_of_writeFile
    (c := ⟨sampleProcess, 1, SingleBlockFile.overflow sampleArea 2⟩) hfd₂ hwrite
  have hfd' : (s'.table sampleProcess).fileObject 1 = some ⟨1, (1067009 : ℕ)⟩ := by
    have hmoved := @fileObject_setPosition _ _ (1067009 : ℕ) _ 1 hfd₂ (le_refl 1)
    rw [if_pos Nat.cast_one.symm] at hmoved
    exact (congrArg (fun fdt ↦ FDT.fileObject fdt 1) htable).trans hmoved
  refine ⟨s, s', hs, hfresh, hfd, ?_, ?_, .switch s'.store (s'.store.inode 1) 4168, ?_, ?_, ?_⟩
  · have hsplit : overflowWrites = overflowWrites.take 2 ++
        [⟨sampleProcess, 1, SingleBlockFile.overflow sampleArea 2⟩] := rfl
    rw [hsplit, PartialRun.run_append, hs₂, Option.bind_some, PartialRun.run_cons, hstep]
    rfl
  · rw [hstore, hsize', maxFileSize]
    omega
  · rw [WriteCall.calls, hfd']
    have hmem := @switch_mem_calls _ s'.store 1 ((1067009 : ℕ) : ℤ) [0] 'w' (by simp)
      (by rwa [hstore]) (by rwa [hstore])
    exact hmem
  · rw [MapCall.accesses, switchAccesses, if_neg (by omega), if_neg (by omega), hstore,
      if_neg hdouble]
    exact List.mem_cons_of_mem _ List.mem_cons_self
  · intro hgood
    have hrange := hgood.inRange (.double ((s'.store.inode 1).location 9) 64) (by
      rw [MapCall.accesses, switchAccesses, if_neg (by omega), if_neg (by omega), hstore,
        if_neg hdouble]
      exact List.mem_cons_of_mem _ List.mem_cons_self)
    have hlt : (64 : ℤ) < 64 := hrange.2
    omega

end OperatingSystem.Filesys
