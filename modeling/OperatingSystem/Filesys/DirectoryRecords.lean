import OperatingSystem.Filesys.Entries
import OperatingSystem.Filesys.GapFree
import OperatingSystem.Filesys.Pathnames

/-!
# Directory records in every state

What the calls of every run keep: the direct slots of all records point to
block 0 or block 1, and the size and the block number of a directory agree with
its slots as far as its entries were appended one at a time.
-/

namespace OperatingSystem.Filesys

open ByteMemory

variable {area : Area}

/-! ## Direct slots -/

/-- Every direct slot is empty or points to block 0 or block 1, and block 1,
which is handed out first, has at most one slot. Before that only the root
directory has a block. -/
structure TwoBlocks (st : Store area) : Prop where
  slot : ∀ i, ∀ k < 8, (st.inode i).location k = 0 ∨
    (st.inode i).location k = area.blockAddr 0 ∨ (st.inode i).location k = area.blockAddr 1
  first : st.superblock.firstFreeBlock = 1 → ∀ i, ∀ k < 8,
    (st.inode i).location k ≠ area.blockAddr 1 ∧
      ((i, k) ≠ (0, 0) → (st.inode i).location k = 0)
  unique : ∀ i j, ∀ k < 8, ∀ l < 8, (st.inode i).location k = area.blockAddr 1 →
    (st.inode j).location l = area.blockAddr 1 → i = j ∧ k = l

theorem twoBlocks_init (area : Area) : TwoBlocks (initDatastructure area) := by
  have hnone : ∀ i, ∀ k < 8, (i, k) ≠ (0, 0) →
      ((initDatastructure area).inode i).location k = 0 := by
    intro i k _ hne
    by_cases hi : i = 0
    · subst hi
      have hk : k ≠ 0 := fun hk ↦ hne (by rw [hk])
      simp [initDatastructure, rootInode, zeroInode, hk]
    · simp [initDatastructure, zeroInode, hi]
  have hslot : ∀ i, ∀ k < 8, ((initDatastructure area).inode i).location k = 0 ∨
      ((initDatastructure area).inode i).location k = area.blockAddr 0 := by
    intro i k hk
    by_cases hik : (i, k) = (0, 0)
    · cases hik
      simp [initDatastructure, rootInode, Area.blockAddr]
    · exact .inl (hnone i k hk hik)
  have hne : ∀ i, ∀ k < 8, ((initDatastructure area).inode i).location k ≠ area.blockAddr 1 := by
    intro i k hk heq
    rcases hslot i k hk with h | h
    · exact area.blockAddr_ne_zero 1 (heq.symm.trans h)
    · exact absurd (Area.blockAddr_inj.mp (heq.symm.trans h)) (by decide)
  exact ⟨fun i k hk ↦ (hslot i k hk).imp_right .inl, fun _ i k hk ↦ ⟨hne i k hk, hnone i k hk⟩,
    fun i _ k hk _ _ heq ↦ (hne i k hk heq).elim⟩

/-- A taken block goes to the direct slot behind the block number, or to no
direct slot. -/
theorem allocateBlock_location {st st' : Store area} {i ptr : ℕ}
    (h : allocateBlock st i = some (ptr, st'))
    (hrefuse : ¬ RefusesBlock st.superblock (st.inode i)) {k : ℕ} (hk : k < 8) :
    (st'.inode i).location k =
      if (k : ℤ) = (st.inode i).blockNumber + 1 then area.blockAddr st.superblock.firstFreeBlock
      else (st.inode i).location k := by
  simp only [allocateBlock, hrefuse, if_false] at h
  obtain ⟨st₁, h₁, h⟩ := Option.bind_eq_some_iff.mp h
  have hinode := (allocateBitmap_eq_some h₁).1
  split at h
  · split at h
    · cases h
      by_cases heq : (k : ℤ) = (st.inode i).blockNumber + 1
      · simp [Store.setSlot, heq.symm]
      · have hne : k ≠ ((st.inode i).blockNumber + 1).toNat := by omega
        simp [Store.setSlot, hinode, hne, heq]
    · cases h
  · have heq : ¬ (k : ℤ) = (st.inode i).blockNumber + 1 := by omega
    rw [if_neg heq]
    split at h
    · obtain ⟨p, hp⟩ := installSingle_inode h
      have hne : k ≠ 8 := by omega
      simp [hp, hinode, hne]
    · obtain ⟨p, hp⟩ := installDouble_inode h
      have hne : k ≠ 9 := by omega
      simp [hp, hinode, hne]

/-- Once a block was taken, `allocate_block` answers with block 0. -/
theorem allocateBlock_answer {st st' : Store area} {i ptr : ℕ}
    (hfirst : st.superblock.firstFreeBlock = 0) (h : allocateBlock st i = some (ptr, st')) :
    ptr = 0 ∨ ptr = area.blockAddr 0 := by
  simp only [allocateBlock, hfirst] at h
  split at h
  · cases h
    exact .inl rfl
  · right
    obtain ⟨st₁, h₁, h⟩ := Option.bind_eq_some_iff.mp h
    have hfirst₁ := (TookBlock.of_allocateBitmap (Nat.zero_le 1) h₁).firstFreeBlock
    split at h
    · split at h
      · cases h
        rfl
      · cases h
    · split at h
      · simp only [installSingle] at h
        split at h
        · obtain ⟨st₂, -, h⟩ := Option.bind_eq_some_iff.mp h
          obtain ⟨st₃, -, h⟩ := Option.bind_eq_some_iff.mp h
          cases h
          simp [Store.setSlot, hfirst₁]
        · obtain ⟨st₂, -, h⟩ := Option.bind_eq_some_iff.mp h
          cases h
          rfl
      · simp only [installDouble] at h
        split at h
        · obtain ⟨st₂, h₂, h⟩ := Option.bind_eq_some_iff.mp h
          obtain ⟨st₃, h₃, h⟩ := Option.bind_eq_some_iff.mp h
          obtain ⟨st₄, -, h⟩ := Option.bind_eq_some_iff.mp h
          obtain ⟨single, -, h⟩ := Option.bind_eq_some_iff.mp h
          obtain ⟨st₅, -, h⟩ := Option.bind_eq_some_iff.mp h
          cases h
          have hle : st₁.superblock.firstFreeBlock ≤ 1 := by omega
          have htook := (TookBlock.of_allocateBitmap hle h₂).storeBytes h₃
          rw [htook.firstFreeBlock]
        · obtain ⟨single, -, h⟩ := Option.bind_eq_some_iff.mp h
          split at h
          · obtain ⟨st₂, h₂, h⟩ := Option.bind_eq_some_iff.mp h
            obtain ⟨st₃, -, h⟩ := Option.bind_eq_some_iff.mp h
            obtain ⟨second, -, h⟩ := Option.bind_eq_some_iff.mp h
            obtain ⟨st₄, -, h⟩ := Option.bind_eq_some_iff.mp h
            cases h
            rw [(Store.storeBytes_frame h₂).2, Store.setInode_superblock, hfirst₁]
          · obtain ⟨st₂, -, h⟩ := Option.bind_eq_some_iff.mp h
            cases h
            rfl

namespace TwoBlocks

variable {st st' : Store area}

theorem of_same (h : TwoBlocks st)
    (hfirst : st'.superblock.firstFreeBlock = 1 → st.superblock.firstFreeBlock = 1)
    (hloc : ∀ i, (st'.inode i).location = (st.inode i).location) : TwoBlocks st' := by
  refine ⟨?_, ?_, ?_⟩
  · intro i k hk
    rw [hloc]
    exact h.slot i k hk
  · intro hone i k hk
    rw [hloc]
    exact h.first (hfirst hone) i k hk
  · intro i j k hk l hl
    rw [hloc, hloc]
    exact h.unique i j k hk l hl

theorem setInode (h : TwoBlocks st) {i : ℕ} {ino : MyInode}
    (hloc : ino.location = (st.inode i).location) : TwoBlocks (st.setInode i ino) :=
  h.of_same id (Store.update_field MyInode.location hloc)

theorem of_allocateBlock {i ptr : ℕ} (h : TwoBlocks st) (hfit : CountersFit st)
    (ha : allocateBlock st i = some (ptr, st')) : TwoBlocks st' := by
  by_cases hrefuse : RefusesBlock st.superblock (st.inode i)
  · rw [allocateBlock_of_refuses hrefuse] at ha
    cases ha
    exact h
  · have hfirst' := (tookBlock_of_allocateBlock hfit.firstFreeBlock ha hrefuse).firstFreeBlock
    have hle := hfit.firstFreeBlock
    -- every slot is the one from before, or the new one
    have hslot : ∀ j, ∀ k < 8, (st'.inode j).location k = (st.inode j).location k ∨
        (j = i ∧ (k : ℤ) = (st.inode i).blockNumber + 1 ∧
          (st'.inode j).location k = area.blockAddr st.superblock.firstFreeBlock) := by
      intro j k hk
      by_cases hj : j = i
      · subst hj
        have hloc := allocateBlock_location ha hrefuse hk
        split at hloc
        · next heq => exact .inr ⟨rfl, heq, hloc⟩
        · exact .inl hloc
      · left
        rw [(BlockSteps.of_allocateBlock ha).frame.others j hj]
    have hone : ∀ j, ∀ k < 8, (st'.inode j).location k = area.blockAddr 1 →
        ((st.inode j).location k = area.blockAddr 1 ∧ st.superblock.firstFreeBlock ≠ 1) ∨
          (j = i ∧ (k : ℤ) = (st.inode i).blockNumber + 1 ∧
            st.superblock.firstFreeBlock = 1) := by
      intro j k hk heq
      rcases hslot j k hk with hold | ⟨hj, hk', hnew⟩
      · rw [hold] at heq
        exact .inl ⟨heq, fun hfirst ↦ (h.first hfirst j k hk).1 heq⟩
      · exact .inr ⟨hj, hk', Area.blockAddr_inj.mp (hnew.symm.trans heq)⟩
    refine ⟨?_, ?_, ?_⟩
    · intro j k hk
      rcases hslot j k hk with hold | ⟨-, -, hnew⟩
      · rw [hold]
        exact h.slot j k hk
      · rw [hnew]
        rcases Nat.le_one_iff_eq_zero_or_eq_one.mp hle with hzero | hfirst
        · exact .inr (.inl (by rw [hzero]))
        · exact .inr (.inr (by rw [hfirst]))
    · intro hfirst
      omega
    · intro j j' k hk l hl heq heq'
      rcases hone j k hk heq with ⟨hold, hfirst⟩ | ⟨hj, hk', hfirst⟩
      · rcases hone j' l hl heq' with ⟨hold', -⟩ | ⟨-, -, hfirst'⟩
        · exact h.unique j j' k hk l hl hold hold'
        · exact (hfirst hfirst').elim
      · rcases hone j' l hl heq' with ⟨-, hfirst'⟩ | ⟨hj', hl', -⟩
        · exact (hfirst' hfirst).elim
        · exact ⟨hj.trans hj'.symm, by omega⟩

theorem storeBytes {addr : ℕ} {bytes : List UInt8} (h : TwoBlocks st)
    (hs : st.storeBytes addr bytes = some st') : TwoBlocks st' := by
  obtain ⟨-, rfl⟩ := Store.storeBytes_eq_some hs
  exact h.of_same id fun _ ↦ rfl

theorem of_orAllocate {i p ptr : ℕ} (h : TwoBlocks st) (hfit : CountersFit st)
    (ho : orAllocate st i p = some (ptr, st')) : TwoBlocks st' := by
  simp only [orAllocate] at ho
  split at ho
  · exact h.of_allocateBlock hfit ho
  · cases ho
    exact h

theorem of_writeLoop {i : ℕ} {bs : List UInt8} {wPtr : ℕ} {off pos : ℤ} {n : ℕ}
    {r : WriteResult area} (h : TwoBlocks st) (hfit : CountersFit st)
    (hr : writeLoop i bs st wPtr off pos n = some r) : TwoBlocks r.store := by
  refine (writeLoop_rel (R := fun st st' ↦
    TwoBlocks st ∧ CountersFit st → TwoBlocks st' ∧ CountersFit st') (fun _ ↦ id)
    (fun h g ↦ g ∘ h) ?_ ?_ hr ⟨h, hfit⟩).1
  · rintro st ptr st' hblock ⟨h, hfit⟩
    exact ⟨h.of_allocateBlock hfit hblock, hfit.of_blockSteps (.of_allocateBlock hblock)⟩
  · rintro st addr bytes st' hstore ⟨h, hfit⟩
    exact ⟨h.storeBytes hstore, hfit.storeBytes hstore⟩

theorem writeFile {i : ℕ} {pos pos' ret : ℤ} {input : List UInt8} {type : Char}
    (h : TwoBlocks st) (hfit : CountersFit st)
    (hw : writeFile st i pos input type = some (ret, pos', st')) : TwoBlocks st' := by
  rcases writeFile_phases hw with
    ⟨-, -, rfl⟩ | ⟨ptr, st₁, wPtr, ptr', st₂, r, h₁, -, -, h₂, hr, -, -, rfl⟩
  · exact h
  · have hblocks₁ := h.of_orAllocate hfit h₁
    have hfit₁ := hfit.of_blockSteps (.of_orAllocate h₁)
    have hblocks₂ := hblocks₁.of_orAllocate hfit₁ h₂
    have hfit₂ := hfit₁.of_blockSteps (.of_orAllocate h₂)
    exact (hblocks₂.of_writeLoop hfit₂ hr).setInode rfl

end TwoBlocks

/-! ## Directories -/

/-- The record of a directory: entries of 16 bytes, and no gap in the direct
slots before the block of its last but one entry. -/
structure DirectoryRecord (ino : MyInode) : Prop where
  operation : ino.operation ≠ 0
  size_lt : ino.size < 4294967296
  aligned : 16 ∣ ino.size
  empty : ino.location 0 = 0 → ino.size = 0 ∧ ino.blockNumber = -1
  mapped : ∀ j < 8, 256 * j + 16 < ino.size → ino.location j ≠ 0
  blockNumber : 0 < ino.size → ((ino.size / 256 : ℕ) : ℤ) ≤ ino.blockNumber

theorem holds_of_writeLoop {i : ℕ} {bs : List UInt8} {st : Store area} {wPtr : ℕ}
    {off pos : ℤ} {n : ℕ} {r : WriteResult area} (hbs : bs ≠ [])
    (hoff : off + bs.length ≤ blockSize) (h : writeLoop i bs st wPtr off pos n = some r) :
    area.Holds wPtr bs.length := by
  induction bs generalizing st wPtr off pos n with
  | nil => exact (hbs rfl).elim
  | cons b bs ih =>
      simp only [List.length_cons, blockSize] at hoff ⊢
      push_cast at hoff
      have hne : off ≠ (blockSize : ℕ) := by
        simp only [blockSize]
        omega
      simp only [writeLoop, hne, if_false] at h
      obtain ⟨st₁, h₁, h⟩ := Option.bind_eq_some_iff.mp h
      have hbyte := (Store.storeBytes_eq_some h₁).1
      by_cases hlast : bs = []
      · subst hlast
        exact hbyte
      · have hrest := ih hlast (by simp only [blockSize]; push_cast; omega) h
        simp only [Area.Holds, List.length_singleton] at hbyte hrest ⊢
        omega

theorem writeLoop_within_eq_some {i : ℕ} {bs : List UInt8} {st : Store area} {wPtr : ℕ}
    {off pos : ℤ} {n : ℕ} {r : WriteResult area} (hbs : bs ≠ [])
    (hoff : off + bs.length ≤ blockSize) (h : writeLoop i bs st wPtr off pos n = some r) :
    area.Holds wPtr bs.length ∧
      r = ⟨{ st with space := writeBytes st.space wPtr bs }, pos + bs.length,
        n + bs.length⟩ := by
  have hholds := holds_of_writeLoop hbs hoff h
  rw [writeLoop_within hoff fun _ ↦ hholds] at h
  exact ⟨hholds, (Option.some.inj h).symm⟩

theorem tmod_add_le {x : ℤ} (h : 16 ∣ x) : x.tmod blockSize + 16 ≤ blockSize := by
  obtain ⟨m, rfl⟩ := h
  have hmod : (16 * m).tmod (16 * 16) = 16 * m.tmod 16 :=
    Int.mul_tmod_mul_of_pos m 16 (by decide)
  have hlt := Int.tmod_lt_of_pos m (show (0 : ℤ) < 16 by decide)
  change (16 * m).tmod (16 * 16) + 16 ≤ 256
  rw [hmod]
  omega

theorem dvd_toInt {n : ℕ} (h : 16 ∣ n) : (16 : ℤ) ∣ toInt n := by
  simp only [toInt]
  split <;> omega

/-- The store after the bytes of an entry were stored at an address and counted
in the record. -/
def Store.storeEntry (st : Store area) (i addr : ℕ) (bytes : List UInt8) : Store area :=
  ({ st with space := writeBytes st.space addr bytes } : Store area).setInode i
    ((st.inode i).grow bytes.length)

/-- Where `write_file` stores an entry behind the last one. -/
def Store.endPtr (st : Store area) (ino : MyInode) : Option ℕ :=
  switchAddress st ino ((toInt ino.size).tdiv blockSize) ((toInt ino.size).tmod blockSize)

/-- A defined append of an entry to a directory: refused, or stored in the first
block, in the block of the end, or in a block taken because that one has no
pointer. -/
theorem appendEntry_cases {st st' : Store area} {i : ℕ} {pos' ret : ℤ} {bytes : List UInt8}
    (hdir : DirectoryRecord (st.inode i)) (hfit : CountersFit st) (hlen : bytes.length = 16)
    (h : writeFile st i (toInt (st.inode i).size) bytes 'c' = some (ret, pos', st')) :
    (ret = ERROR ∧ st' = st) ∨ (ret = 16 ∧
      (((st.inode i).location 0 = 0 ∧ ¬ RefusesBlock st.superblock (st.inode i) ∧
          st' = (st.installDirect i).storeEntry i
            (area.blockAddr st.superblock.firstFreeBlock) bytes) ∨
        ((st.inode i).location 0 ≠ 0 ∧ ∃ w, st.endPtr (st.inode i) = some w ∧
          ((w ≠ 0 ∧ area.Holds w 16 ∧ st' = st.storeEntry i w bytes) ∨
            (w = 0 ∧ ∃ ptr st₁, allocateBlock st i = some (ptr, st₁) ∧ ptr ≠ 0 ∧
              st' = st₁.storeEntry i ptr bytes))))) := by
  have hbytes : bytes ≠ [] := by
    rintro rfl
    cases hlen
  -- entries never cross the end of a block
  have hoff : (toInt (st.inode i).size).tmod blockSize + bytes.length ≤ blockSize := by
    rw [hlen]
    exact tmod_add_le (dvd_toInt hdir.aligned)
  rcases writeFile_phases h with
    ⟨hret, -, hst⟩ | ⟨ptr, st₁, wPtr, ptr', st₂, r, h₁, hne, hwPtr, h₂, hr, hret, -, rfl⟩
  · exact .inl ⟨hret, hst⟩
  · obtain ⟨hholds, rfl⟩ := writeLoop_within_eq_some hbytes hoff hr
    rw [hlen] at hholds
    refine .inr ⟨by simp [hret, hlen], ?_⟩
    by_cases hloc : (st.inode i).location 0 = 0
    · left
      obtain ⟨hsize, hbn⟩ := hdir.empty hloc
      rw [orAllocate, if_pos hloc] at h₁
      have hrefuse : ¬ RefusesBlock st.superblock (st.inode i) := by
        intro hrefuse
        rw [allocateBlock_of_refuses hrefuse] at h₁
        cases h₁
        exact hne rfl
      rw [allocateBlock_direct hrefuse hfit.lt (by omega) (by omega)] at h₁
      cases h₁
      refine ⟨hloc, hrefuse, ?_⟩
      -- the first block was just taken, and the directory is empty
      have hpos : toInt (st.inode i).size = 0 := by
        rw [hsize]
        rfl
      have hslot : ((st.installDirect i).inode i).location 0 =
          area.blockAddr st.superblock.firstFreeBlock := by
        simp [Store.installDirect, hbn]
      rw [hpos] at hwPtr
      have hptr := switchAddress_direct (st.installDirect i) ((st.installDirect i).inode i) 0
        (show 0 < 8 by omega)
      rw [hslot, addOffset_blockAddr hfit.lt (le_refl 0) (by simp)] at hptr
      cases hwPtr.symm.trans hptr
      rw [orAllocate, if_neg (by simpa using area.blockAddr_ne_zero _)] at h₂
      cases h₂
      simp [Store.storeEntry]
    · right
      rw [orAllocate, if_neg hloc] at h₁
      cases h₁
      refine ⟨hloc, wPtr, hwPtr, ?_⟩
      by_cases hnull : wPtr = 0
      · rw [orAllocate, if_pos hnull] at h₂
        refine .inr ⟨hnull, ptr', st₂, h₂, ?_, by simp [Store.storeEntry]⟩
        rintro rfl
        have hpos := area.spacePtr_pos
        exact absurd hholds.1 (by omega)
      · rw [orAllocate, if_neg hnull] at h₂
        cases h₂
        exact .inl ⟨hnull, hholds, by simp [Store.storeEntry]⟩

@[simp] theorem storeEntry_inode (st : Store area) (i addr : ℕ) (bytes : List UInt8) :
    (st.storeEntry i addr bytes).inode i = (st.inode i).grow bytes.length :=
  Store.setInode_inode ..

theorem size_grow {ino : MyInode} (hlt : ino.size < 4294967296) (h : 16 ∣ ino.size) :
    (ino.grow 16).size = ino.size + 16 ∧ ino.size + 16 < 4294967296 ∨
      (ino.grow 16).size = 0 ∧ ino.size + 16 = 4294967296 := by
  simp only [MyInode.grow, toUInt32]
  omega

theorem DirectoryRecord.grow {ino : MyInode} (h : DirectoryRecord ino) {loc : ℕ → ℕ} {bn lbo : ℤ}
    (hzero : loc 0 ≠ 0) (hkeep : ∀ j < 8, ino.location j ≠ 0 → loc j ≠ 0)
    (hlast : ∀ j < 8, ino.size = 256 * j + 16 → loc j ≠ 0) :
    DirectoryRecord
      (({ ino with location := loc, blockNumber := bn, lastBlockOffset := lbo } :
        MyInode).grow 16) := by
  have hdvd := h.aligned
  have hsize := size_grow h.size_lt hdvd
  refine ⟨h.operation, ?_, ?_, fun hloc ↦ (hzero hloc).elim, ?_, ?_⟩
  · change (ino.grow 16).size < _
    omega
  · change 16 ∣ (ino.grow 16).size
    omega
  · intro j hj hlt
    change loc j ≠ 0
    change _ < (ino.grow 16).size at hlt
    by_cases heq : ino.size = 256 * j + 16
    · exact hlast j hj heq
    · exact hkeep j hj (h.mapped j hj (by omega))
  · intro _
    rw [MyInode.grow_blockNumber]

/-- A defined append keeps the record of the directory in order. -/
theorem DirectoryRecord.append {st st' : Store area} {i : ℕ} {pos' ret : ℤ} {bytes : List UInt8}
    (h : DirectoryRecord (st.inode i)) (hfit : CountersFit st) (hlen : bytes.length = 16)
    (hw : writeFile st i (toInt (st.inode i).size) bytes 'c' = some (ret, pos', st')) :
    DirectoryRecord (st'.inode i) := by
  -- the position behind the first entry of a block without a pointer is not in the data area
  have hsecond : ∀ j < 8, (st.inode i).size = 256 * j + 16 → (st.inode i).location j = 0 →
      st.endPtr (st.inode i) = some 16 := by
    intro j hj hsize hloc
    have hpos : toInt (st.inode i).size = ((256 * j + 16 : ℕ) : ℤ) := by
      rw [hsize]
      exact toInt_of_lt (by omega)
    have hdiv : ((256 * j + 16 : ℕ) : ℤ).tdiv blockSize = j := by
      rw [Int.tdiv_eq_ediv_of_nonneg (by omega)]
      simp only [blockSize]
      omega
    have hmod : ((256 * j + 16 : ℕ) : ℤ).tmod blockSize = 16 := by
      rw [Int.tmod_eq_emod_of_nonneg (by omega)]
      simp only [blockSize]
      omega
    rw [Store.endPtr, hpos, hdiv, hmod, switchAddress_direct st _ _ hj, hloc]
    rfl
  rcases appendEntry_cases h hfit hlen hw with
    ⟨-, rfl⟩ | ⟨-, ⟨hloc, hrefuse, rfl⟩ | ⟨hloc, w, hwPtr, ⟨-, hholds, rfl⟩ |
      ⟨rfl, ptr, st₁, ha, hne, rfl⟩⟩⟩
  · exact h
  · obtain ⟨hsize, hbn⟩ := h.empty hloc
    rw [storeEntry_inode, hlen, Store.installDirect, Store.setInode_inode]
    have haddr := area.blockAddr_ne_zero st.superblock.firstFreeBlock
    refine h.grow ?_ ?_ fun j _ hfull ↦ by omega
    · simpa [hbn] using haddr
    · intro j _ hj
      by_cases hj₀ : j = 0
      · simpa [hbn, hj₀] using haddr
      · simpa [hbn, hj₀] using hj
  · rw [storeEntry_inode, hlen]
    refine h.grow hloc (fun _ _ hj ↦ hj) ?_
    intro j hj hsize hnull
    cases hwPtr.symm.trans (hsecond j hj hsize hnull)
    have hspace := area.spacePtr_eq
    have hlow := hholds.1
    omega
  · have hrefuse : ¬ RefusesBlock st.superblock (st.inode i) := by
      intro hrefuse
      rw [allocateBlock_of_refuses hrefuse] at ha
      cases ha
      exact hne rfl
    obtain ⟨loc, bn, lbo, hrecord⟩ := (BlockSteps.of_allocateBlock ha).frame.record
    have hkeep : ∀ j < 8, (st.inode i).location j ≠ 0 → loc j ≠ 0 := by
      intro j hj hold
      have hslot := allocateBlock_location ha hrefuse hj
      rw [hrecord] at hslot
      dsimp only at hslot
      rw [hslot]
      split
      · exact area.blockAddr_ne_zero _
      · exact hold
    rw [storeEntry_inode, hlen, hrecord]
    refine h.grow (hkeep 0 (by omega) hloc) hkeep ?_
    intro j hj hsize hnull
    apply hkeep j hj ?_ hnull
    intro hold
    cases hwPtr.symm.trans (hsecond j hj hsize hold)

theorem directoryRecord_renew {ino : MyInode} (parent : ℕ) (mode : ℤ) (type : ObjectType) :
    DirectoryRecord (ino.renew parent mode type) where
  operation := by simp [MyInode.renew]
  size_lt := by simp [MyInode.renew]
  aligned := by simp [MyInode.renew]
  empty := fun _ ↦ ⟨rfl, rfl⟩
  mapped := fun j _ hlt ↦ absurd hlt (by simp [MyInode.renew])
  blockNumber := fun hlt ↦ absurd hlt (by simp [MyInode.renew])

theorem DirectoryRecord.shrink {ino : MyInode} (h : DirectoryRecord ino) (hsize : 16 ≤ ino.size) :
    DirectoryRecord ino.shrink := by
  have hlt := h.size_lt
  have hshrink : ino.shrink.size = ino.size - 16 := by
    simp only [MyInode.shrink, toUInt32]
    omega
  have hdvd := h.aligned
  refine ⟨h.operation, by omega, by omega, ?_, ?_, ?_⟩
  · intro hloc
    have hempty := (h.empty hloc).1
    omega
  · intro j hj hfull
    exact h.mapped j hj (by omega)
  · intro hpos
    have hblock := h.blockNumber (by omega)
    change _ ≤ ino.blockNumber
    omega

theorem size_of_isExist {st : Store area} {name : List UInt8} {i : ℕ} {d : ℤ} {r : SearchResult}
    (h : isExist st name i d = some r) (hans : r.ans ≠ ERROR) : 16 ≤ (st.inode i).size := by
  by_contra hlt
  simp only [isExist] at h
  split at h
  · cases h
    exact hans rfl
  · obtain ⟨ino, hino, h⟩ := Option.bind_eq_some_iff.mp h
    obtain ⟨-, rfl⟩ := Store.inodeAt_eq_some hino
    have hchild : (toInt (st.inode i).size).tdiv 16 ≤ 0 := by
      rw [toInt_of_lt (by omega), Int.tdiv_eq_ediv_of_nonneg (by omega)]
      omega
    simp only [hchild, if_true] at h
    cases h
    exact hans rfl

/-! ## Runs -/

/-- What every run keeps of the disk. -/
structure SoundDisk (st : Store area) : Prop where
  firstFreeInode : FirstInodeFree st
  counters : CountersFit st
  freeInodeNumber : st.superblock.freeInodeNumber < 65536
  blocks : TwoBlocks st
  directories : ∀ i, (st.inode i).type = .dir → DirectoryRecord (st.inode i)

theorem soundDisk_init (area : Area) : SoundDisk (initDatastructure area) where
  firstFreeInode := firstInodeFree_init area
  counters := ⟨le_refl 1, by simp [initDatastructure]⟩
  freeInodeNumber := by simp [initDatastructure]
  blocks := twoBlocks_init area
  directories := by
    intro i htype
    by_cases hi : i = 0
    · subst hi
      have hpos := area.spacePtr_pos
      have hroot : (initDatastructure area).inode 0 = rootInode area := by
        simp [initDatastructure]
      rw [hroot]
      refine ⟨by simp [rootInode], by simp [rootInode, zeroInode], by simp [rootInode, zeroInode],
        ?_, ?_, ?_⟩
      · intro hloc
        simp only [rootInode, Function.update_self] at hloc
        omega
      · intro j _ hlt
        exact absurd hlt (by simp [rootInode, zeroInode])
      · intro hlt
        exact absurd hlt (by simp [rootInode, zeroInode])
    · simp [initDatastructure, hi, zeroInode] at htype

theorem writeFile_freeInodeNumber {st st' : Store area} {i : ℕ} {pos pos' ret : ℤ}
    {input : List UInt8} {type : Char}
    (h : writeFile st i pos input type = some (ret, pos', st')) :
    st'.superblock.freeInodeNumber = st.superblock.freeInodeNumber := by
  rcases writeFile_cases h with ⟨-, -, rfl⟩ | ⟨r, hsteps, -, -, rfl⟩
  · rfl
  · exact hsteps.frame.freeInodeNumber

namespace SoundDisk

variable {st st' : Store area}

theorem writeFile {i : ℕ} {pos pos' ret : ℤ} {input : List UInt8} {type : Char}
    (h : SoundDisk st) (hrecord : (st.inode i).type = .dir → DirectoryRecord (st'.inode i))
    (hw : writeFile st i pos input type = some (ret, pos', st')) : SoundDisk st' := by
  obtain ⟨hothers, ⟨size, loc, bn, lbo, hsame⟩, -⟩ := writeFile_record hw
  refine ⟨h.firstFreeInode.writeFile hw, h.counters.writeFile hw, ?_,
    h.blocks.writeFile h.counters hw, ?_⟩
  · rw [writeFile_freeInodeNumber hw]
    exact h.freeInodeNumber
  · intro j htype
    by_cases hj : j = i
    · subst hj
      rw [hsame] at htype
      exact hrecord htype
    · rw [hothers j hj] at htype ⊢
      exact h.directories j htype

theorem allocateInode {des : ℕ} {mode : ℤ} {type : ObjectType} (h : SoundDisk st)
    (ha : allocateInode st des mode type = some st') : SoundDisk st' := by
  obtain ⟨-, hinode, -, -, hsuper⟩ := allocateInode_eq_some ha
  refine ⟨.allocateInode ha, h.counters.allocateInode ha, ?_, ?_, ?_⟩
  · rw [hsuper]
    simp only [toUInt16]
    omega
  · refine h.blocks.of_same ?_ ?_
    · rw [hsuper]
      exact id
    · rw [hinode]
      apply Store.update_field MyInode.location
      rfl
  · intro j htype
    rw [hinode] at htype ⊢
    by_cases hj : j = st.superblock.firstFreeInode
    · subst hj
      rw [Function.update_self]
      exact directoryRecord_renew ..
    · rw [Function.update_of_ne hj] at htype ⊢
      exact h.directories j htype

theorem freeInode {name : List UInt8} {i : ℕ} (h : SoundDisk st) (hi : i < inodeListNum)
    (hfree : freeInode st name i = some st') : SoundDisk st' := by
  obtain ⟨st₁, ret, st₂, h₁, h₂, hinode, -, -, hsuper⟩ := freeInode_eq_some hfree
  have hframe := FreeFrame.of_freeBlock h₁
  obtain ⟨hsame, hsuper₂⟩ := freeParentDirectoryEntry_same h₂
  refine ⟨h.firstFreeInode.freeInode hi hfree, h.counters.freeInode hfree, ?_, ?_, ?_⟩
  · rw [hsuper]
    simp only [toUInt16]
    omega
  · refine h.blocks.of_same ?_ ?_
    · rw [hsuper, hsuper₂]
      intro hone
      have hle := hframe.firstFreeBlock
      have hle' := h.counters.firstFreeBlock
      change st₁.superblock.firstFreeBlock = 1 at hone
      omega
    · intro j
      rw [hinode, Store.update_field MyInode.location (by rfl), hsame.location, hframe.inode]
  · intro j htype
    rw [hinode] at htype ⊢
    by_cases hj : j = i
    · subst hj
      rw [Function.update_self] at htype
      cases htype
    · rw [Function.update_of_ne hj] at htype ⊢
      rcases freeParentDirectoryEntry_cases h₂ with ⟨-, rfl⟩ | ⟨space, r, hr, hans, -, rfl⟩
      · rw [hframe.inode] at htype ⊢
        exact h.directories j htype
      · by_cases hparent : j = (st.inode i).parentIndex
        · rw [← hparent] at hr htype ⊢
          rw [Store.setInode_inode, hframe.inode] at htype ⊢
          have hsize := size_of_isExist hr hans
          rw [hframe.inode] at hsize
          exact (h.directories j htype).shrink hsize
        · rw [Store.setInode_inode_of_ne hparent] at htype ⊢
          change (st₁.inode j).type = .dir at htype
          change DirectoryRecord (st₁.inode j)
          rw [hframe.inode] at htype ⊢
          exact h.directories j htype

theorem run {op : DiskOp} (h : SoundDisk st)
    (hlength : ∀ des name mode type fresh, op = .create des name mode type fresh →
      name.length ≤ 13)
    (hindex : ∀ name i, op = .unlink name i → i < inodeListNum)
    (hrun : op.run st = some st') : SoundDisk st' := by
  cases op with
  | nothing =>
      cases hrun
      exact h
  | write i pos input =>
      obtain ⟨⟨ret, pos', st₁⟩, hw, rfl⟩ := Option.map_eq_some_iff.mp hrun
      refine h.writeFile ?_ hw
      intro htype
      -- a user's write to a directory is refused
      obtain ⟨-, rfl⟩ := writeFile_of_refuses (.inl ⟨rfl, htype⟩) hw
      exact h.directories i htype
  | create des name mode type fresh =>
      obtain ⟨⟨ret, st₁⟩, hcreate, rfl⟩ := Option.map_eq_some_iff.mp hrun
      obtain ⟨ret', pos, st₂, hw, hend⟩ := createEntry_cases hcreate
      have hlen := length_entryBytes (hlength des name mode type fresh rfl)
        st.superblock.firstFreeInode fresh
      have hst₂ : SoundDisk st₂ :=
        h.writeFile (fun htype ↦ (h.directories des htype).append h.counters hlen hw) hw
      rcases hend with ⟨-, -, rfl⟩ | ⟨-, -, ha⟩
      · exact hst₂
      · exact hst₂.allocateInode ha
  | unlink name i => exact h.freeInode (hindex name i rfl) hrun
  | chmod i mode =>
      have hfirst := h.firstFreeInode.run hindex hrun
      cases hrun
      refine ⟨hfirst, ⟨h.counters.firstFreeBlock, h.counters.freeBlockNumber⟩, h.freeInodeNumber,
        h.blocks.setInode rfl, ?_⟩
      intro j htype
      by_cases hj : j = i
      · subst hj
        rw [Store.setInode_inode] at htype ⊢
        have hdir := h.directories j htype
        exact ⟨hdir.operation, hdir.size_lt, hdir.aligned, hdir.empty, hdir.mapped,
          hdir.blockNumber⟩
      · rw [Store.setInode_inode_of_ne hj] at htype ⊢
        exact h.directories j htype

end SoundDisk

theorem create_length {s : State area} {e : Event} {des : ℕ} {name : List UInt8} {mode : ℤ}
    {type : ObjectType} {fresh : ℕ → UInt8}
    (h : diskOp s e = some (.create des name mode type fresh)) : name.length ≤ 13 := by
  obtain ⟨pathname, hlookup⟩ := diskOp_eq_create h
  obtain ⟨-, -, -, hlength, -⟩ := lookupNew_eq_some hlookup
  exact hlength

theorem SoundDisk.step {s s' : State area} {e : Event} (h : SoundDisk s.store)
    (hstep : step s e = some s') : SoundDisk s'.store := by
  obtain ⟨op, hop, hdisk⟩ := diskOp_of_step hstep
  refine h.run ?_ ?_ hdisk
  · rintro des name mode type fresh rfl
    exact create_length hop
  · rintro name i rfl
    exact unlink_lt hop

theorem soundDisk_of_run {events : List Event} {s : State area}
    (hrun : PartialRun.run step (initState area) events = some s) : SoundDisk s.store := by
  exact PartialRun.invariant_of_run (I := fun t ↦ SoundDisk t.store)
    (fun _ _ _ h hstep ↦ h.step hstep) (soundDisk_init area) hrun

end OperatingSystem.Filesys
