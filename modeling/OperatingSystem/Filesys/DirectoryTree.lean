import OperatingSystem.Filesys.AtomicCreate
import OperatingSystem.Filesys.Ownership

/-!
# The tree of directories

The inodes in use as a tree: every directory lists its children in its first
block, and every inode but the root is listed by its parent. Creates, unlinks
and writes keep the tree as long as no block is shared and no directory fills
its first block.
-/

namespace OperatingSystem.Filesys

open ByteMemory

variable {area : Area}

/-- Entry `k` of a directory has a non-empty name and the given inode. -/
def HoldsEntry (st : Store area) (des k i : ℕ) : Prop :=
  k < (st.inode des).size / 16 ∧ st.space (st.directoryEntry (st.inode des) k) ≠ 0 ∧
    leValue (readBytes st.space (st.directoryEntry (st.inode des) k + 14) 2) = i

/-- Every inode in use but the root has a directory as its parent, in which
exactly one entry leads to it, and the parents lead to the root. -/
structure TreeOfDirectories (st : Store area) : Prop where
  parent : ∀ i, st.InUse i → i ≠ 0 → st.InUse (st.inode i).parentIndex ∧
    (st.inode (st.inode i).parentIndex).type = .dir
  entry : ∀ i, st.InUse i → i ≠ 0 → ∃! k, HoldsEntry st (st.inode i).parentIndex k i
  root : ∀ i, st.InUse i → ∃ back, climb st back i = some 0

/-! ## Directories -/

/-- Directory `i` has `n` entries, all in its first block, and each of them leads
to a child. -/
structure DirectoryAt (st : Store area) (i n : ℕ) (entry : ℕ → List UInt8 × ℕ) : Prop where
  le : n ≤ 16
  size : (st.inode i).size = 16 * n
  mapped : 0 < n → (st.inode i).location 0 ≠ 0
  blockNumber : 0 < n → (st.inode i).blockNumber = ((16 * n / 256 : ℕ) : ℤ)
  lastBlockOffset : 0 < n → (st.inode i).lastBlockOffset = ((16 * n % 256 : ℕ) : ℤ)
  entries : EntriesAt st.space ((st.inode i).location 0) n entry
  nonempty : ∀ k < n, (entry k).1 ≠ []
  names : ∀ k < n, ∀ l < n, (entry k).1 = (entry l).1 → k = l
  inodes : ∀ k < n, ∀ l < n, (entry k).2 = (entry l).2 → k = l
  children : ∀ k < n, (entry k).2 ≠ 0 ∧ st.InUse (entry k).2 ∧
    (st.inode (entry k).2).parentIndex = i

/-- `n i` entries in every directory `i`, which form a tree. -/
structure DirectoryTree (st : Store area) (n : ℕ → ℕ) (entry : ℕ → ℕ → List UInt8 × ℕ) :
    Prop where
  blocks : FewBlocks st
  root : (st.inode 0).type = .dir
  rootParent : inodeListNum ≤ (st.inode 0).parentIndex
  directory : ∀ i, (st.inode i).type = .dir → st.InUse i ∧ DirectoryAt st i (n i) (entry i)
  listed : ∀ i, st.InUse i → i ≠ 0 → (st.inode (st.inode i).parentIndex).type = .dir ∧
    ∃ k < n (st.inode i).parentIndex, (entry (st.inode i).parentIndex k).2 = i
  rooted : ∀ i, st.InUse i → ∃ back, climb st back i = some 0

/-- Every entry for an inode with `P` is still in its directory. -/
def EntriesKept (st : Store area) (P : ℕ → Prop) (n n' : ℕ → ℕ)
    (entry entry' : ℕ → ℕ → List UInt8 × ℕ) : Prop :=
  ∀ i, (st.inode i).type = .dir → ∀ k < n i, P (entry i k).2 → ∃ k' < n' i, entry' i k' = entry i k

theorem EntriesKept.refl (st : Store area) (P : ℕ → Prop) (n : ℕ → ℕ)
    (entry : ℕ → ℕ → List UInt8 × ℕ) : EntriesKept st P n n entry entry :=
  fun _ _ k hk _ ↦ ⟨k, hk, rfl⟩

theorem DirectoryAt.congr {st st' : Store area} {i n : ℕ} {entry : ℕ → List UInt8 × ℕ}
    (h : DirectoryAt st i n entry) (hsize : (st'.inode i).size = (st.inode i).size)
    (hloc : (st'.inode i).location = (st.inode i).location)
    (hbn : (st'.inode i).blockNumber = (st.inode i).blockNumber)
    (hlbo : (st'.inode i).lastBlockOffset = (st.inode i).lastBlockOffset)
    (hbytes : 0 < n → ∀ l < 256, st'.space ((st.inode i).location 0 + l) =
      st.space ((st.inode i).location 0 + l))
    (hchildren : ∀ k < n, st'.InUse (entry k).2 ∧ (st'.inode (entry k).2).parentIndex = i) :
    DirectoryAt st' i n entry := by
  have hle := h.le
  refine ⟨hle, hsize.trans h.size, ?_, ?_, ?_, ?_, h.nonempty, h.names, h.inodes, ?_⟩
  · rw [hloc]
    exact h.mapped
  · rw [hbn]
    exact h.blockNumber
  · rw [hlbo]
    exact h.lastBlockOffset
  · rw [hloc]
    intro k hk
    exact (h.entries.congr fun l hl ↦ (hbytes (by omega) l (by omega)).symm) k hk
  · intro k hk
    exact ⟨(h.children k hk).1, hchildren k hk⟩

theorem DirectoryAt.of_empty {st : Store area} {i : ℕ} (entry : ℕ → List UInt8 × ℕ)
    (h : (st.inode i).size = 0) : DirectoryAt st i 0 entry where
  le := by omega
  size := h
  mapped := fun hpos ↦ by omega
  blockNumber := fun hpos ↦ by omega
  lastBlockOffset := fun hpos ↦ by omega
  entries := fun k hk ↦ by omega
  nonempty := fun k hk ↦ by omega
  names := fun k hk ↦ by omega
  inodes := fun k hk ↦ by omega
  children := fun k hk ↦ by omega

theorem directoryTree_init (area : Area) (entry : ℕ → ℕ → List UInt8 × ℕ) :
    DirectoryTree (initDatastructure area) (fun _ ↦ 0) entry := by
  have hsize : ∀ i, ((initDatastructure area).inode i).size = 0 := by
    intro i
    by_cases hi : i = 0
    · simp [initDatastructure, hi, rootInode, zeroInode]
    · simp [initDatastructure, hi, zeroInode]
  have honly : ∀ i, (initDatastructure area).InUse i → i = 0 := by
    intro i hi
    by_contra hne
    exact hi.2 (by simp [initDatastructure, hne, zeroInode])
  refine ⟨fewBlocks_init area, by simp [initDatastructure, rootInode],
    by simp [initDatastructure, rootInode, toUInt16], ?_, ?_, ?_⟩
  · intro i htype
    by_cases hi : i = 0
    · subst hi
      exact ⟨⟨by simp, by simp [initDatastructure, rootInode]⟩, .of_empty _ (hsize 0)⟩
    · simp [initDatastructure, hi, zeroInode] at htype
  · intro i hi hne
    exact (hne (honly i hi)).elim
  · intro i hi
    exact ⟨0, by rw [honly i hi]; rfl⟩

/-- The parents of a set that is closed under them lead to the root in any store
with the same parents. -/
theorem climb_of_kept {st st' : Store area} {S : ℕ → Prop}
    (hclosed : ∀ j, S j → j ≠ 0 → S (st.inode j).parentIndex)
    (hkeep : ∀ j, S j → (st'.inode j).parentIndex = (st.inode j).parentIndex) {i back : ℕ}
    (hi : S i) (h : climb st back i = some 0) : ∃ back', climb st' back' i = some 0 := by
  induction back generalizing i with
  | zero => exact ⟨0, h⟩
  | succ back ih =>
      by_cases hzero : i = 0
      · exact ⟨0, by rw [hzero]; rfl⟩
      · obtain ⟨ino, hino, h⟩ := Option.bind_eq_some_iff.mp h
        obtain ⟨hlt, rfl⟩ := Store.inodeAt_eq_some hino
        obtain ⟨back', hback⟩ := ih (hclosed i hi hzero) h
        refine ⟨back' + 1, ?_⟩
        rw [climb, Store.inodeAt_eq hlt, Option.bind_some, hkeep i hi]
        exact hback

/-- The first block of an inode belongs to no other inode. -/
theorem FewBlocks.firstBlock {st : Store area} (h : FewBlocks st) {i : ℕ}
    (hne : (st.inode i).location 0 ≠ 0) :
    ∃ b < 2, (st.inode i).location 0 = area.blockAddr b ∧ (b = 0 ↔ i = 0) ∧
      ∀ j, (st.inode j).location 0 = area.blockAddr b → j = i := by
  obtain ⟨i₀, k₀, -, hcases⟩ := h.location_cases
  have hdiffer : area.blockAddr 0 ≠ area.blockAddr 1 := by
    rw [ne_eq, Area.blockAddr_inj]
    omega
  have hroot := h.root
  rcases hcases i 0 (by omega) hne with ⟨hi, hzero⟩ | ⟨hi, hone⟩
  · refine ⟨0, by omega, hzero, by simpa using hi, ?_⟩
    intro j hj
    have hjne : (st.inode j).location 0 ≠ 0 := by
      rw [hj]
      exact area.blockAddr_ne_zero 0
    rcases hcases j 0 (by omega) hjne with ⟨hj₀, -⟩ | ⟨-, hone⟩
    · exact (Prod.mk.inj (hj₀.trans hi.symm)).1
    · exact (hdiffer (hj.symm.trans hone)).elim
  · refine ⟨1, by omega, hone, ?_, ?_⟩
    · simp only [Nat.one_ne_zero, false_iff]
      rintro rfl
      exact hdiffer (hroot.symm.trans hone)
    · intro j hj
      have hjne : (st.inode j).location 0 ≠ 0 := by
        rw [hj]
        exact area.blockAddr_ne_zero 1
      rcases hcases j 0 (by omega) hjne with ⟨-, hzero⟩ | ⟨hj₀, -⟩
      · exact (hdiffer (hzero.symm.trans hj)).elim
      · exact (Prod.mk.inj (hj₀.trans hi.symm)).1

theorem directoryEntry_eq {st : Store area} {i k : ℕ} (hk : k < 16) :
    st.directoryEntry (st.inode i) k = (st.inode i).location 0 + 16 * k := by
  have hdiv : k / 16 = 0 := by omega
  have hmod : k % 16 = k := by omega
  simp [Store.directoryEntry, Store.logicalPtr, hdiv, hmod]

theorem DirectoryAt.holdsEntry_iff {st : Store area} {i n : ℕ} {entry : ℕ → List UInt8 × ℕ}
    (h : DirectoryAt st i n entry) {k j : ℕ} : HoldsEntry st i k j ↔ k < n ∧ (entry k).2 = j := by
  have hle := h.le
  rw [HoldsEntry, h.size, Nat.mul_div_cancel_left n (by omega)]
  constructor
  · rintro ⟨hk, -, hindex⟩
    rw [directoryEntry_eq (by omega), (h.entries k hk).index] at hindex
    exact ⟨hk, hindex⟩
  · rintro ⟨hk, hindex⟩
    have hentry := h.entries k hk
    rw [directoryEntry_eq (by omega)]
    refine ⟨hk, ?_, hentry.index.trans hindex⟩
    intro hzero
    -- an empty string lies where the name should be
    exact h.nonempty k hk (hentry.string.unique (stringAt_nil.mpr hzero))

namespace DirectoryTree

variable {st st' : Store area} {n : ℕ → ℕ} {entry : ℕ → ℕ → List UInt8 × ℕ}

theorem parent_inUse (h : DirectoryTree st n entry) {i : ℕ} (hi : st.InUse i) (hne : i ≠ 0) :
    st.InUse (st.inode i).parentIndex :=
  (h.directory _ (h.listed i hi hne).1).1

theorem treeOfDirectories (h : DirectoryTree st n entry) : TreeOfDirectories st where
  parent := fun i hi hne ↦ ⟨h.parent_inUse hi hne, (h.listed i hi hne).1⟩
  entry := by
    intro i hi hne
    obtain ⟨htype, k, hk, hindex⟩ := h.listed i hi hne
    have hdir := (h.directory _ htype).2
    refine ⟨k, hdir.holdsEntry_iff.mpr ⟨hk, hindex⟩, ?_⟩
    intro l hl
    obtain ⟨hl, hindex'⟩ := hdir.holdsEntry_iff.mp hl
    exact hdir.inodes l hl k hk (hindex'.trans hindex.symm)
  root := h.rooted

/-- A step that keeps the records and the blocks of the directories and takes or
frees no inode keeps the tree. -/
theorem of_kept (h : DirectoryTree st n entry) (hblocks : FewBlocks st')
    (hinUse : ∀ i, (st'.inode i).operation = (st.inode i).operation)
    (htype : ∀ i, (st'.inode i).type = (st.inode i).type)
    (hparent : ∀ i, (st'.inode i).parentIndex = (st.inode i).parentIndex)
    (hrecord : ∀ i, (st.inode i).type = .dir → (st'.inode i).size = (st.inode i).size ∧
      (st'.inode i).location = (st.inode i).location ∧
      (st'.inode i).blockNumber = (st.inode i).blockNumber ∧
      (st'.inode i).lastBlockOffset = (st.inode i).lastBlockOffset)
    (hbytes : ∀ i, (st.inode i).type = .dir → 0 < n i → ∀ l < 256,
      st'.space ((st.inode i).location 0 + l) = st.space ((st.inode i).location 0 + l)) :
    DirectoryTree st' n entry := by
  have huse : ∀ i, st'.InUse i ↔ st.InUse i := by
    intro i
    simp only [Store.InUse, hinUse]
  refine ⟨hblocks, (htype 0).trans h.root, h.rootParent.trans_eq (hparent 0).symm, ?_, ?_, ?_⟩
  · intro i hi
    rw [htype] at hi
    obtain ⟨hi', hdir⟩ := h.directory i hi
    obtain ⟨hsize, hloc, hbn, hlbo⟩ := hrecord i hi
    refine ⟨(huse i).mpr hi', hdir.congr hsize hloc hbn hlbo (hbytes i hi) ?_⟩
    intro k hk
    obtain ⟨-, hchild, hpar⟩ := hdir.children k hk
    exact ⟨(huse _).mpr hchild, (hparent _).trans hpar⟩
  · intro i hi hne
    rw [hparent, htype]
    exact h.listed i ((huse i).mp hi) hne
  · intro i hi
    obtain ⟨back, hback⟩ := h.rooted i ((huse i).mp hi)
    exact climb_of_kept (fun j hj hne ↦ h.parent_inUse hj hne) (fun j _ ↦ hparent j)
      ((huse i).mp hi) hback

end DirectoryTree

/-! ## Writes -/

theorem writeLoop_bytes {i : ℕ} {bs : List UInt8} {st : Store area} {wPtr : ℕ} {off pos : ℤ}
    {n : ℕ} {r : WriteResult area} (hoff : off + bs.length ≤ blockSize)
    (h : writeLoop i bs st wPtr off pos n = some r) :
    r.store = { st with space := writeBytes st.space wPtr bs } ∧
      (bs ≠ [] → area.Holds wPtr bs.length) := by
  by_cases hbs : bs = []
  · subst hbs
    cases h
    exact ⟨by simp, fun hne ↦ (hne rfl).elim⟩
  · obtain ⟨hholds, rfl⟩ := writeLoop_within_eq_some hbs hoff h
    exact ⟨rfl, fun _ ↦ hholds⟩

/-- The only block of a file is block 1, and its only mapped positions are those
of the first block. -/
theorem switchAddress_oneBlock {st : Store area} {i k w : ℕ} {off : ℤ} (h : FewBlocks st)
    (hi : i ≠ 0) (hloc : (st.inode i).location 0 ≠ 0) (hoff : 0 ≤ off) (hlt : off < 256)
    (hw : switchAddress st (st.inode i) k off = some w) :
    w = area.blockAddr 1 + off.toNat ∨ w < 256 := by
  obtain ⟨i₀, k₀, -, hcases⟩ := h.location_cases
  obtain ⟨hplace, hblock⟩ := (hcases i 0 (by omega) hloc).resolve_left
    fun hroot ↦ hi (Prod.mk.inj hroot.1).1
  have hothers : ∀ l < 10, 0 < l → (st.inode i).location l = 0 := by
    intro l hl hpos
    by_contra hne
    obtain ⟨hplace', -⟩ := (hcases i l hl hne).resolve_left
      fun hroot ↦ hi (Prod.mk.inj hroot.1).1
    have hsame := (Prod.mk.inj (hplace'.trans hplace.symm)).2
    omega
  by_cases hk : k < 8
  · rw [switchAddress_direct st _ _ hk] at hw
    cases hw
    by_cases hzero : k = 0
    · left
      rw [hzero, hblock]
      exact addOffset_blockAddr (by simp) hoff (by simpa using hlt)
    · right
      rw [hothers k (by omega) (by omega), addOffset, toUInt32]
      omega
  · right
    have h₈ : ¬ ((k : ℤ) < 8) := by omega
    have hnull : switchAddress st (st.inode i) k off = some 0 := by
      rw [switchAddress, if_neg h₈, if_pos (hothers 8 (by omega) (by omega)),
        if_pos (hothers 9 (by omega) (by omega)), ite_self]
    cases hw.symm.trans hnull
    omega

/-- A write stores its bytes in block 1, which is no directory's. -/
theorem writeFile_space {st st' : Store area} {i : ℕ} {pos pos' ret : ℤ} {input : List UInt8}
    {type : Char} (h : FewBlocks st) (hi : i ≠ 0)
    (htakes : TakesOnlyFirst st (st.inode i) pos input.length type)
    (hw : writeFile st i pos input type = some (ret, pos', st')) :
    st' = st ∨ ((∀ j, j ≠ i → (st.inode j).location 0 ≠ area.blockAddr 1) ∧
      ∀ x, x < area.blockAddr 1 ∨ area.blockAddr 1 + 256 ≤ x → st'.space x = st.space x) := by
  rcases htakes with hrefuse | htakes
  · exact .inl (writeFile_of_refuses hrefuse hw).2
  have hpos : 0 ≤ pos := by
    rcases htakes with ⟨hneed, -⟩ | ⟨-, ⟨-, -, hpos, -⟩ | ⟨-, -, -, hpos, -⟩⟩
    · exact hneed.nonneg
    · exact hpos
    · exact hpos
  have hmod : pos.tmod blockSize = pos % 256 := by
    rw [Int.tmod_eq_emod_of_nonneg hpos]
    rfl
  have hdiv : pos.tdiv blockSize = ((pos / 256).toNat : ℤ) := by
    rw [Int.tdiv_eq_ediv_of_nonneg hpos]
    simp only [blockSize]
    omega
  rcases writeFile_phases hw with
    ⟨-, -, hst⟩ | ⟨ptr, st₁, wPtr, ptr', st₂, r, h₁, hne, hwPtr, h₂, hr, -, -, rfl⟩
  · exact .inl hst
  · rw [hdiv, hmod] at hwPtr
    rw [hmod] at hr
    rcases htakes with ⟨hneed, hoff⟩ | ⟨hfirst, hneeds⟩
    · have hloc := hneed.first
      rw [orAllocate, if_neg hloc] at h₁
      cases h₁
      rw [hmod] at hoff
      have hnull : wPtr ≠ 0 := hneed.ne_zero (by rw [hdiv, hmod]; exact hwPtr)
      rw [orAllocate, if_neg hnull] at h₂
      cases h₂
      obtain ⟨b, hb, hblock, hroot, hunique⟩ := h.firstBlock hloc
      obtain rfl : b = 1 := by omega
      obtain ⟨hstore, hholds⟩ := writeLoop_bytes hoff hr
      rw [hstore]
      refine .inr ⟨fun j hj heq ↦ hj (hunique j heq), ?_⟩
      intro x hx
      change writeBytes st.space wPtr input x = st.space x
      by_cases hinput : input = []
      · rw [hinput, writeBytes_nil]
      · have hlow := (hholds hinput).1
        have hspace := area.spacePtr_eq
        simp only [blockSize] at hoff
        rcases switchAddress_oneBlock h hi hloc (by omega) (by omega) hwPtr with rfl | hsmall
        · apply writeBytes_of_disjoint
          omega
        · omega
    · -- no block was taken before, so that the first one goes to this file
      have hnone : ∀ j, ∀ k < 10, (j, k) ≠ (0, 0) → (st.inode j).location k = 0 := by
        rcases h.others with hnone | ⟨hzero, -⟩
        · exact hnone
        · omega
      rcases hneeds with ⟨hloc, hbn, -, hlt, hlen⟩ | ⟨hloc, -⟩
      · simp only [blockSize] at hlt
        have hlow : st.superblock.firstFreeBlock < allocatableSpaceSize := by simp [hfirst]
        rw [orAllocate, if_pos hloc] at h₁
        obtain ⟨rfl, rfl⟩ := (allocateBlock_direct_cases h₁ hlow (by omega)
          (by omega)).resolve_left fun hnull ↦ hne hnull.1
        have hslot : ((st.installDirect i).inode i).location 0 = area.blockAddr 1 := by
          simp [Store.installDirect, hbn, hfirst]
        have hzero : (pos / 256).toNat = 0 := by omega
        rw [hzero, switchAddress_direct _ _ _ (by omega), hslot,
          addOffset_blockAddr (by simp) (by omega) (by simp only [blockSize]; omega)] at hwPtr
        cases hwPtr
        have hptr := area.blockAddr_ne_zero 1
        rw [orAllocate, if_neg (by omega)] at h₂
        cases h₂
        have hmod' : pos % 256 = pos := Int.emod_eq_of_lt hpos hlt
        rw [hmod'] at hr
        obtain ⟨hstore, -⟩ := writeLoop_bytes hlen hr
        rw [hstore]
        refine .inr ⟨?_, ?_⟩
        · intro j _ heq
          by_cases hj : j = 0
          · rw [hj, h.root, Area.blockAddr_inj] at heq
            omega
          · rw [hnone j 0 (by omega) fun heq ↦ hj (Prod.mk.inj heq).1] at heq
            exact hptr heq.symm
        · intro x hx
          change writeBytes st.space _ input x = st.space x
          simp only [blockSize] at hlen
          apply writeBytes_of_disjoint
          omega
      · exact (hloc (hnone i 0 (by omega) fun heq ↦ hi (Prod.mk.inj heq).1)).elim

end OperatingSystem.Filesys
