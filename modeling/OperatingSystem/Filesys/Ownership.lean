import OperatingSystem.Filesys.Inodes
import OperatingSystem.Filesys.Writing

/-!
# Exclusive ownership of blocks

As `allocate_bitmap` answers with block 0 from the second block on, blocks are
owned exclusively as long as no block, or only one, has been taken since the
disk was formatted. The invariant of such runs: besides slot 0 of the root
directory at most one slot of all inodes holds a pointer, the one to block 1.
-/

namespace OperatingSystem.Filesys

variable {area : Area}

/-- Every pointer in the block map of an inode in use points to a block of the
data area, no block has two pointers, and block 0 is the root directory's. -/
structure ExclusiveBlocks (st : Store area) : Prop where
  inArea : ∀ i σ, st.InUse i → st.slotPtr (st.inode i) σ ≠ 0 →
    ∃ b < allocatableSpaceSize, st.slotPtr (st.inode i) σ = area.blockAddr b
  distinct : ∀ i j σ τ, st.InUse i → st.InUse j → st.slotPtr (st.inode i) σ ≠ 0 →
    st.slotPtr (st.inode i) σ = st.slotPtr (st.inode j) τ → i = j ∧ σ = τ
  root : ∀ i σ, st.InUse i → st.slotPtr (st.inode i) σ = area.blockAddr 0 → i = 0

/-- The write needs exactly one block, for a direct slot: the first block of an
empty file, the block of its position, or the block behind a mapped one. -/
def NeedsOneBlock (st : Store area) (ino : MyInode) (position : ℤ) (n : ℕ) : Prop :=
  (ino.location 0 = 0 ∧ ino.blockNumber = -1 ∧ 0 ≤ position ∧ position < blockSize ∧
      position + n ≤ blockSize) ∨
    (ino.location 0 ≠ 0 ∧ 0 ≤ ino.blockNumber ∧ ino.blockNumber < 7 ∧ 0 ≤ position ∧
      ((switchAddress st ino (position.tdiv blockSize) (position.tmod blockSize) = some 0 ∧
          position.tmod blockSize + n ≤ blockSize) ∨
        (NeedsNoBlock st ino position ∧ blockSize < position.tmod blockSize + n ∧
          position.tmod blockSize + n ≤ 2 * blockSize)))

/-- The write takes no block, or it takes one block and no block was taken
before. -/
def TakesOnlyFirst (st : Store area) (ino : MyInode) (position : ℤ) (n : ℕ) (type : Char) :
    Prop :=
  RefusesWrite st ino type ∨
    (NeedsNoBlock st ino position ∧ position.tmod blockSize + n ≤ blockSize) ∨
    (st.superblock.firstFreeBlock = 1 ∧ NeedsOneBlock st ino position n)

instance (st : Store area) (ino : MyInode) (position : ℤ) (n : ℕ) :
    Decidable (NeedsOneBlock st ino position n) := inferInstanceAs (Decidable (_ ∨ _))

instance (st : Store area) (ino : MyInode) (position : ℤ) (n : ℕ) (type : Char) :
    Decidable (TakesOnlyFirst st ino position n type) :=
  inferInstanceAs (Decidable (_ ∨ _ ∨ _))

def DiskOp.TakesOnlyFirst (st : Store area) : DiskOp → Prop
  | .write i position input =>
      Filesys.TakesOnlyFirst st (st.inode i) position input.length 'w'
  | .create des name _ _ fresh =>
      Filesys.TakesOnlyFirst st (st.inode des) (toInt (st.inode des).size)
          (entryBytes name st.superblock.firstFreeInode fresh).length 'c' ∧
        st.superblock.firstFreeInode < wholeInodeRecords
  | _ => True

instance (st : Store area) : (op : DiskOp) → Decidable (op.TakesOnlyFirst st)
  | .write .. => inferInstanceAs (Decidable (Filesys.TakesOnlyFirst ..))
  | .create .. => inferInstanceAs (Decidable (_ ∧ _))
  | .nothing => inferInstanceAs (Decidable True)
  | .unlink .. => inferInstanceAs (Decidable True)
  | .chmod .. => inferInstanceAs (Decidable True)

/-! ## The invariant -/

/-- Besides slot 0 of the root directory at most one slot holds a pointer. -/
structure FewBlocks (st : Store area) : Prop where
  firstFreeBlock : st.superblock.firstFreeBlock ≤ 1
  root : (st.inode 0).location 0 = area.blockAddr 0
  others : (∀ i, ∀ k < 10, (i, k) ≠ (0, 0) → (st.inode i).location k = 0) ∨
    (st.superblock.firstFreeBlock = 0 ∧ ∃ i₀ k₀, k₀ < 8 ∧ (i₀, k₀) ≠ (0, 0) ∧
      (st.inode i₀).location k₀ = area.blockAddr 1 ∧
      ∀ i, ∀ k < 10, (i, k) ≠ (0, 0) → (i, k) ≠ (i₀, k₀) → (st.inode i).location k = 0)

theorem fewBlocks_init (area : Area) : FewBlocks (initDatastructure area) where
  firstFreeBlock := le_refl 1
  root := by simp [initDatastructure, rootInode, Area.blockAddr]
  others := by
    left
    intro i k _ hne
    by_cases hi : i = 0
    · subst hi
      have hk : k ≠ 0 := by
        rintro rfl
        exact hne rfl
      simp [initDatastructure, rootInode, zeroInode, hk]
    · simp [initDatastructure, hi, zeroInode]

namespace FewBlocks

variable {st st' : Store area}

/-- The invariant depends on the slots and the first free block only. -/
theorem of_same (h : FewBlocks st)
    (hfirst : st'.superblock.firstFreeBlock ≤ st.superblock.firstFreeBlock)
    (hloc : ∀ i, (st'.inode i).location = (st.inode i).location) : FewBlocks st' := by
  refine ⟨hfirst.trans h.firstFreeBlock, ?_, ?_⟩
  · rw [hloc]
    exact h.root
  · rcases h.others with hnone | ⟨hzero, i₀, k₀, hk₀, hne, haddr, hnone⟩
    · left
      intro i k hk hik
      rw [hloc]
      exact hnone i k hk hik
    · refine .inr ⟨by omega, i₀, k₀, hk₀, hne, ?_, ?_⟩
      · rw [hloc]
        exact haddr
      · intro i k hk hik hik₀
        rw [hloc]
        exact hnone i k hk hik hik₀

theorem setInode (h : FewBlocks st) {i : ℕ} {ino : MyInode}
    (hloc : ino.location = (st.inode i).location) : FewBlocks (st.setInode i ino) :=
  h.of_same (le_refl _) (Store.update_field MyInode.location hloc)

theorem of_space (h : FewBlocks st) (space : ℕ → UInt8) :
    FewBlocks ({ st with space := space } : Store area) := h.of_same (le_refl _) fun _ ↦ rfl

theorem installDirect (h : FewBlocks st) {i : ℕ} (hfirst : st.superblock.firstFreeBlock = 1)
    (h₀ : 0 ≤ (st.inode i).blockNumber + 1) (h₈ : (st.inode i).blockNumber + 1 < 8)
    (hne : (i, ((st.inode i).blockNumber + 1).toNat) ≠ (0, 0)) :
    FewBlocks (st.installDirect i) := by
  have hnone : ∀ j, ∀ k < 10, (j, k) ≠ (0, 0) → (st.inode j).location k = 0 := by
    rcases h.others with hnone | ⟨hzero, -⟩
    · exact hnone
    · omega
  have hslot : ∀ j k, (j, k) ≠ (i, ((st.inode i).blockNumber + 1).toNat) →
      ((st.installDirect i).inode j).location k = (st.inode j).location k := by
    intro j k hjk
    by_cases hj : j = i
    · subst hj
      have hk : k ≠ ((st.inode j).blockNumber + 1).toNat := by
        rintro rfl
        exact hjk rfl
      simp [Store.installDirect, hk]
    · rw [Store.installDirect, Store.setInode_inode_of_ne hj]
      rfl
  refine ⟨?_, ?_, .inr ⟨?_, i, ((st.inode i).blockNumber + 1).toNat, by omega, hne, ?_, ?_⟩⟩
  · simp [Store.installDirect, Store.takeBlock, hfirst]
  · rw [hslot 0 0 hne.symm]
    exact h.root
  · simp [Store.installDirect, Store.takeBlock, hfirst]
  · simp [Store.installDirect, hfirst]
  · intro j k hk hjk hjk₀
    rw [hslot j k hjk₀]
    exact hnone j k hk hjk

theorem location_cases (h : FewBlocks st) : ∃ i₀ k₀, k₀ < 8 ∧ ∀ i, ∀ k < 10,
    (st.inode i).location k ≠ 0 →
      ((i, k) = (0, 0) ∧ (st.inode i).location k = area.blockAddr 0) ∨
      ((i, k) = (i₀, k₀) ∧ (st.inode i).location k = area.blockAddr 1) := by
  have hroot : ∀ i k, (i, k) = (0, 0) → (st.inode i).location k = area.blockAddr 0 := by
    rintro i k heq
    cases heq
    exact h.root
  rcases h.others with hnone | ⟨-, i₀, k₀, hk₀, -, haddr, hnone⟩
  · refine ⟨0, 0, by omega, ?_⟩
    intro i k hk hloc
    by_cases hik : (i, k) = (0, 0)
    · exact .inl ⟨hik, hroot i k hik⟩
    · exact (hloc (hnone i k hk hik)).elim
  · refine ⟨i₀, k₀, hk₀, ?_⟩
    intro i k hk hloc
    by_cases hik : (i, k) = (0, 0)
    · exact .inl ⟨hik, hroot i k hik⟩
    · by_cases hik₀ : (i, k) = (i₀, k₀)
      · cases hik₀
        exact .inr ⟨rfl, haddr⟩
      · exact (hloc (hnone i k hk hik hik₀)).elim

theorem exclusive (h : FewBlocks st) : ExclusiveBlocks st := by
  obtain ⟨i₀, k₀, hk₀, hcases⟩ := h.location_cases
  have hindirect : ∀ i k, 8 ≤ k → k < 10 → (st.inode i).location k = 0 := by
    intro i k h₈ h₁₀
    by_contra hne
    rcases hcases i k h₁₀ hne with ⟨heq, -⟩ | ⟨heq, -⟩
    · cases heq
      omega
    · cases heq
      omega
  have hdirect : ∀ i σ, st.slotPtr (st.inode i) σ ≠ 0 → ∃ k : Fin 10, σ = .loc k := fun i _ ↦
    slotPtr_of_direct (hindirect i 8 (by omega) (by omega)) (hindirect i 9 (by omega) (by omega))
  refine ⟨?_, ?_, ?_⟩
  · intro i σ _ hne
    obtain ⟨k, rfl⟩ := hdirect i σ hne
    rcases hcases i k k.isLt hne with ⟨-, haddr⟩ | ⟨-, haddr⟩
    · exact ⟨0, by simp, haddr⟩
    · exact ⟨1, by simp, haddr⟩
  · intro i j σ τ _ _ hne heq
    obtain ⟨k, rfl⟩ := hdirect i σ hne
    obtain ⟨l, rfl⟩ := hdirect j τ (heq ▸ hne)
    have hdiffer : area.blockAddr 0 ≠ area.blockAddr 1 := by
      rw [ne_eq, Area.blockAddr_inj]
      omega
    have hplace : (i, k.val) = (j, l.val) := by
      simp only [Store.slotPtr] at hne heq
      rcases hcases i k k.isLt hne with ⟨hik, hi⟩ | ⟨hik, hi⟩
      · rcases hcases j l l.isLt (heq ▸ hne) with ⟨hjl, hj⟩ | ⟨hjl, hj⟩
        · rw [hik, hjl]
        · rw [hi, hj] at heq
          exact (hdiffer heq).elim
      · rcases hcases j l l.isLt (heq ▸ hne) with ⟨hjl, hj⟩ | ⟨hjl, hj⟩
        · rw [hi, hj] at heq
          exact (hdiffer heq.symm).elim
        · rw [hik, hjl]
    obtain ⟨rfl, hkl⟩ := Prod.mk.inj hplace
    rw [Fin.ext hkl]
    exact ⟨rfl, rfl⟩
  · intro i σ _ haddr
    have hne : st.slotPtr (st.inode i) σ ≠ 0 := by
      rw [haddr]
      exact area.blockAddr_ne_zero 0
    obtain ⟨k, rfl⟩ := hdirect i σ hne
    rcases hcases i k k.isLt hne with ⟨hik, -⟩ | ⟨-, hone⟩
    · exact (Prod.mk.inj hik).1
    · simp only [Store.slotPtr] at haddr
      rw [haddr, Area.blockAddr_inj] at hone
      omega

end FewBlocks

/-! ## Steps -/

/-- `st'` is `st` with other bytes and at most one direct block more. -/
def InstallsAtMostOne (i : ℕ) (st st' : Store area) : Prop :=
  ∃ space, st' = { st with space := space } ∨ st' = { st.installDirect i with space := space }

/-- A byte loop that stands at the end of a block and has at most a block to
write. -/
theorem installsAtMostOne_of_crossing {i : ℕ} {bs : List UInt8} {st : Store area} {wPtr : ℕ}
    {pos : ℤ} {n : ℕ} {r : WriteResult area}
    (hfirst : st.superblock.firstFreeBlock < allocatableSpaceSize)
    (h₀ : 0 ≤ (st.inode i).blockNumber + 1) (h₈ : (st.inode i).blockNumber + 1 < 8)
    (hlen : bs.length ≤ blockSize) (h : writeLoop i bs st wPtr blockSize pos n = some r) :
    InstallsAtMostOne i st r.store := by
  cases bs with
  | nil =>
      cases h
      exact ⟨st.space, .inl rfl⟩
  | cons b bs =>
      have hcross := h
      simp only [writeLoop, if_true] at h
      obtain ⟨⟨ptr, st₁⟩, h₁, h⟩ := Option.bind_eq_some_iff.mp h
      by_cases hnull : ptr = 0
      · rw [if_pos hnull] at h
        cases h
        rw [hnull] at h₁
        rw [allocateBlock_null h₁]
        exact ⟨st.space, .inl rfl⟩
      · rw [writeLoop_crossing (List.cons_ne_nil b bs) h₁ hnull] at hcross
        obtain ⟨space, rfl⟩ := writeLoop_within_cases (by simpa using hlen) hcross
        rcases allocateBlock_direct_cases h₁ hfirst h₀ h₈ with ⟨hzero, -⟩ | ⟨-, rfl⟩
        · exact (hnull hzero).elim
        · exact ⟨space, .inr rfl⟩

theorem installsAtMostOne_of_writeLoop {i : ℕ} {bs : List UInt8} {st : Store area} {wPtr : ℕ}
    {off pos : ℤ} {n : ℕ} {r : WriteResult area}
    (hfirst : st.superblock.firstFreeBlock < allocatableSpaceSize)
    (h₀ : 0 ≤ (st.inode i).blockNumber + 1) (h₈ : (st.inode i).blockNumber + 1 < 8)
    (hoff : off ≤ blockSize) (hcross : blockSize < off + bs.length)
    (hend : off + bs.length ≤ 2 * blockSize) (h : writeLoop i bs st wPtr off pos n = some r) :
    InstallsAtMostOne i st r.store := by
  -- cut the input where the current block ends
  obtain ⟨m, hm⟩ := Int.eq_ofNat_of_zero_le (sub_nonneg.mpr hoff)
  have htake : (bs.take m).length = m := by
    rw [List.length_take]
    omega
  have hdrop : (bs.drop m).length ≤ blockSize := by
    rw [List.length_drop]
    omega
  rw [← List.take_append_drop m bs] at h
  obtain ⟨space, hrest⟩ := writeLoop_append_cases (by rw [htake]; omega) h
  have hfull : off + m = blockSize := by omega
  rw [htake, hfull] at hrest
  have hfirst' : ({ st with space := space } : Store area).superblock.firstFreeBlock <
      allocatableSpaceSize := hfirst
  obtain ⟨space', hst' | hst'⟩ := installsAtMostOne_of_crossing hfirst' h₀ h₈ hdrop hrest
  · exact ⟨space', .inl hst'⟩
  · exact ⟨space', .inr hst'⟩

theorem installsAtMostOne_of_needsOneBlock {i : ℕ} {pos pos' ret : ℤ} {input : List UInt8}
    {type : Char} {st st' : Store area}
    (hfirst : st.superblock.firstFreeBlock < allocatableSpaceSize)
    (hone : NeedsOneBlock st (st.inode i) pos input.length)
    (h : writeFile st i pos input type = some (ret, pos', st')) :
    st' = st ∨ ∃ st₁ n, InstallsAtMostOne i st st₁ ∧
      st' = st₁.setInode i ((st₁.inode i).grow n) := by
  rcases writeFile_phases h with
    ⟨-, -, hst⟩ | ⟨ptr, st₁, wPtr, ptr', st₂, r, h₁, hne, hwPtr, h₂, hr, -, -, hst⟩
  · exact .inl hst
  · refine .inr ⟨r.store, r.wSize, ?_, hst⟩
    rcases hone with ⟨hloc, hbn, hpos, hlt, hlen⟩ | ⟨hloc, hbn₀, hbn₇, -, hnext⟩
    · simp only [orAllocate, hloc, if_true] at h₁
      rcases allocateBlock_direct_cases h₁ hfirst (by omega) (by omega) with
        ⟨rfl, -⟩ | ⟨rfl, rfl⟩
      · exact (hne rfl).elim
      · -- the position lies in the block that was just taken
        have hdiv : pos.tdiv blockSize = (0 : ℕ) := by
          rw [Int.tdiv_eq_ediv_of_nonneg hpos]
          simp only [blockSize] at *
          omega
        have hmod : pos.tmod blockSize = pos := by
          rw [Int.tmod_eq_emod_of_nonneg hpos]
          simp only [blockSize] at *
          omega
        have hslot : ((st.installDirect i).inode i).location 0 =
            area.blockAddr st.superblock.firstFreeBlock := by
          simp [Store.installDirect, hbn]
        rw [hdiv, hmod, switchAddress_direct _ _ _ (by omega), hslot,
          addOffset_blockAddr hfirst hpos hlt] at hwPtr
        have hwne : wPtr ≠ 0 := by
          have haddr := area.blockAddr_ne_zero st.superblock.firstFreeBlock
          cases hwPtr
          omega
        simp only [orAllocate, hwne, if_false, Option.some.injEq, Prod.mk.injEq] at h₂
        obtain ⟨-, rfl⟩ := h₂
        obtain ⟨space, rfl⟩ := writeLoop_within_cases (by rw [hmod]; exact hlen) hr
        exact ⟨space, .inr rfl⟩
    · simp only [orAllocate, hloc, if_false, Option.some.injEq, Prod.mk.injEq] at h₁
      obtain ⟨-, rfl⟩ := h₁
      rcases hnext with ⟨hnull, hoff⟩ | ⟨hmapped, hcross, hoff⟩
      · cases hwPtr.symm.trans hnull
        simp only [orAllocate, if_true] at h₂
        obtain ⟨space, rfl⟩ := writeLoop_within_cases hoff hr
        rcases allocateBlock_direct_cases h₂ hfirst (by omega) (by omega) with
          ⟨-, rfl⟩ | ⟨-, rfl⟩
        · exact ⟨space, .inl rfl⟩
        · exact ⟨space, .inr rfl⟩
      · have hwne := hmapped.ne_zero hwPtr
        simp only [orAllocate, hwne, if_false, Option.some.injEq, Prod.mk.injEq] at h₂
        obtain ⟨-, rfl⟩ := h₂
        have hlt := Int.tmod_lt_of_pos pos (show (0 : ℤ) < blockSize by decide)
        exact installsAtMostOne_of_writeLoop hfirst (by omega) (by omega) hlt.le hcross hoff hr

namespace FewBlocks

variable {st st' : Store area}

theorem writeFile {i : ℕ} {pos pos' ret : ℤ} {input : List UInt8} {type : Char}
    (h : FewBlocks st) (hfew : TakesOnlyFirst st (st.inode i) pos input.length type)
    (hw : writeFile st i pos input type = some (ret, pos', st')) : FewBlocks st' := by
  rcases hfew with hrefuse | ⟨hneed, hoff⟩ | ⟨hfirst, hone⟩
  · obtain ⟨-, rfl⟩ := writeFile_of_refuses hrefuse hw
    exact h
  · rcases writeFile_of_needsNoBlock hneed hoff hw with ⟨-, rfl⟩ | ⟨space, rfl⟩
    · exact h
    · exact (h.of_space space).setInode rfl
  · have hlow : st.superblock.firstFreeBlock < allocatableSpaceSize := by
      simp [hfirst]
    rcases installsAtMostOne_of_needsOneBlock hlow hone hw with
      rfl | ⟨st₁, n, ⟨space, rfl | rfl⟩, rfl⟩
    · exact h
    · exact (h.of_space space).setInode rfl
    · have hinstalled : FewBlocks (st.installDirect i) := by
        rcases hone with ⟨hloc, hbn, -⟩ | ⟨-, hbn₀, hbn₇, -⟩
        · refine h.installDirect hfirst (by omega) (by omega) ?_
          intro heq
          obtain ⟨rfl, -⟩ := Prod.mk.inj heq
          rw [h.root] at hloc
          exact area.blockAddr_ne_zero 0 hloc
        · refine h.installDirect hfirst (by omega) (by omega) ?_
          intro heq
          have hslot := (Prod.mk.inj heq).2
          omega
      exact (hinstalled.of_space space).setInode rfl

theorem allocateInode {des : ℕ} {mode : ℤ} {type : ObjectType} (h : FewBlocks st)
    (ha : allocateInode st des mode type = some st') : FewBlocks st' := by
  obtain ⟨-, hinode, -, -, hsuper⟩ := allocateInode_eq_some ha
  refine h.of_same ?_ ?_
  · rw [hsuper]
  · intro i
    rw [hinode]
    apply Store.update_field MyInode.location
    rfl

theorem freeInode {name : List UInt8} {i : ℕ} (h : FewBlocks st)
    (hfree : freeInode st name i = some st') : FewBlocks st' := by
  obtain ⟨st₁, ret, st₂, h₁, h₂, hinode, -, -, hsuper⟩ := freeInode_eq_some hfree
  have hframe := FreeFrame.of_freeBlock h₁
  have hst₁ : FewBlocks st₁ := h.of_same hframe.firstFreeBlock fun j ↦ by rw [hframe.inode]
  obtain ⟨hsame, hsb⟩ := freeParentDirectoryEntry_same h₂
  have hst₂ : FewBlocks st₂ := hst₁.of_same (by rw [hsb]) hsame.location
  refine hst₂.of_same ?_ ?_
  · rw [hsuper]
  · intro j
    rw [hinode]
    apply Store.update_field MyInode.location
    rfl

theorem run {op : DiskOp} (h : FewBlocks st) (hfew : op.TakesOnlyFirst st)
    (hrun : op.run st = some st') : FewBlocks st' := by
  cases op with
  | nothing =>
      cases hrun
      exact h
  | write i pos input =>
      obtain ⟨⟨ret, pos', st₁⟩, hw, rfl⟩ := Option.map_eq_some_iff.mp hrun
      exact h.writeFile hfew hw
  | create des name mode type fresh =>
      obtain ⟨⟨ret, st₁⟩, hcreate, rfl⟩ := Option.map_eq_some_iff.mp hrun
      obtain ⟨ret', pos, st₂, hw, hend⟩ := createEntry_cases hcreate
      have hst₂ := h.writeFile hfew.1 hw
      rcases hend with ⟨-, -, rfl⟩ | ⟨-, -, ha⟩
      · exact hst₂
      · exact hst₂.allocateInode ha
  | unlink name i => exact h.freeInode hrun
  | chmod i mode =>
      cases hrun
      exact h.setInode rfl

end FewBlocks

/-! ## Runs -/

/-- Blocks are owned exclusively in every state reached by calls that take no
block, or of which one call takes one block before any other was taken. -/
theorem blocks_exclusive (area : Area) (events : List Event) (s : State area)
    (hfew : PartialRun.Along step
      (fun t e _ ↦ ∀ op, diskOp t e = some op → op.TakesOnlyFirst t.store)
      (initState area) events)
    (hrun : PartialRun.run step (initState area) events = some s) : ExclusiveBlocks s.store := by
  have hinv : FewBlocks s.store := by
    refine PartialRun.invariant_of_along (I := fun t ↦ FewBlocks t.store) ?_
      (fewBlocks_init area) hfew hrun
    intro t e t' ht htakes hstep
    obtain ⟨op, hop, hdisk⟩ := diskOp_of_step hstep
    exact ht.run (htakes op hop) hdisk
  exact hinv.exclusive

def oneBlockCalls : List Event :=
  sampleCalls [.creat sampleName 1 fun _ ↦ 0, .openPath sampleName 1, .write 1 [120]]

theorem blocks_exclusive_oneBlock : ∃ s, ExclusiveBlocks s.store ∧
    PartialRun.run step (initState sampleArea) oneBlockCalls = some s ∧
      (s.store.inode 1).location 0 = sampleArea.blockAddr 1 := by
  have hslot : (PartialRun.run step (initState sampleArea) oneBlockCalls).map (fun s ↦
      (s.store.inode 1).location 0) = some (sampleArea.blockAddr 1) := by
    decide +kernel
  have htest : PartialRun.check step (fun s e ↦ (diskOp s e).all fun op ↦
      decide (op.TakesOnlyFirst s.store)) (initState sampleArea) oneBlockCalls = true := by
    decide +kernel
  obtain ⟨s, hs, haddr⟩ := Option.map_eq_some_iff.mp hslot
  refine ⟨s, blocks_exclusive sampleArea oneBlockCalls s ?_ hs, hs, haddr⟩
  refine PartialRun.along_of_check ?_ htest
  intro s e _ hall op hop
  simpa [hop] using hall

/-- The second block that is taken is the root directory's. -/
theorem second_block_is_root :
    ∃ s, PartialRun.run step (initState sampleArea) (sampleCalls
        [.creat sampleName 1 fun _ ↦ 0, .creat secondName 1 fun _ ↦ 0, .openPath sampleName 1,
          .openPath secondName 1, .write 1 [120], .write 2 [121]]) = some s ∧
      ¬ ExclusiveBlocks s.store := by
  have hslot : (PartialRun.run step (initState sampleArea) (sampleCalls
      [.creat sampleName 1 fun _ ↦ 0, .creat secondName 1 fun _ ↦ 0, .openPath sampleName 1,
        .openPath secondName 1, .write 1 [120], .write 2 [121]])).map (fun s ↦
      ((s.store.inode 2).location 0, decide (s.store.InUse 2))) =
      some (sampleArea.blockAddr 0, true) := by
    decide +kernel
  obtain ⟨s, hs, hfacts⟩ := Option.map_eq_some_iff.mp hslot
  simp only [Prod.mk.injEq, decide_eq_true_eq] at hfacts
  refine ⟨s, hs, ?_⟩
  intro hexclusive
  have hroot := hexclusive.root 2 (.loc 0) hfacts.2 hfacts.1
  omega

end OperatingSystem.Filesys
