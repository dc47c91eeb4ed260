import OperatingSystem.Filesys.DirectoryLookup
import OperatingSystem.Filesys.OwnBlocks

/-!
# Removal of a directory entry

`free_parent_directory_entry` copies the last entry over the removed one and
takes 16 bytes from the size. It finds the last entry by the counters of the
record, which do not follow the size where the last entry ends or starts a
block.
-/

namespace OperatingSystem.Filesys

open ByteMemory

variable {area : Area}

/-- A directory of `n` entries of different names, whose counters follow its
size and whose blocks are its own. -/
structure WellFormedDirectory (st : Store area) (i n : ℕ) (entry : ℕ → List UInt8 × ℕ) :
    Prop where
  listing : DirectoryListing st (st.inode i) n entry
  own : st.OwnMap (st.inode i) (blockCount (st.inode i).size)
  blockNumber : (st.inode i).blockNumber = ((st.inode i).size / 256 : ℕ)
  lastBlockOffset : (st.inode i).lastBlockOffset = ((st.inode i).size % 256 : ℕ)
  names : ∀ k < n, ∀ l < n, (entry k).1 = (entry l).1 → k = l

/-- The removal of the name of entry `k` succeeds and leaves a well formed
directory of the other entries. -/
def RemovesEntry (st : Store area) (i n : ℕ) (entry : ℕ → List UInt8 × ℕ) (k : ℕ) : Prop :=
  ∃ st' n' entry', freeParentDirectoryEntry st (entry k).1 i = some (SUCCESS, st') ∧
    WellFormedDirectory st' i n' entry' ∧
    entry' '' Set.Iio n' = (entry '' Set.Iio n) \ {entry k}

/-- Filling the gap with the last of finitely many different values leaves the
others. -/
theorem image_update_last {α : Type*} {f : ℕ → α} {n k : ℕ} (hk : k < n)
    (hinj : ∀ l < n, ∀ m < n, f l = f m → l = m) :
    Function.update f k (f (n - 1)) '' Set.Iio (n - 1) = (f '' Set.Iio n) \ {f k} := by
  ext e
  constructor
  · rintro ⟨l, hl, rfl⟩
    have hl : l < n - 1 := hl
    by_cases hlk : l = k
    · subst hlk
      rw [Function.update_self]
      refine ⟨⟨n - 1, show n - 1 < n by omega, rfl⟩, fun heq ↦ ?_⟩
      have hlast := hinj (n - 1) (by omega) l hk heq
      omega
    · rw [Function.update_of_ne hlk]
      exact ⟨⟨l, show l < n by omega, rfl⟩, fun heq ↦ hlk (hinj l (by omega) k hk heq)⟩
  · rintro ⟨⟨l, hl, rfl⟩, hne⟩
    have hl : l < n := hl
    have hlk : l ≠ k := by
      rintro rfl
      exact hne rfl
    by_cases hlast : l = n - 1
    · exact ⟨k, show k < n - 1 by omega, by rw [Function.update_self, hlast]⟩
    · exact ⟨l, show l < n - 1 by omega, Function.update_of_ne hlk ..⟩

namespace WellFormedDirectory

variable {st : Store area} {i n k : ℕ} {entry : ℕ → List UInt8 × ℕ}

theorem size (h : WellFormedDirectory st i n entry) : (st.inode i).size = 16 * n := h.listing.size

theorem isExist (h : WellFormedDirectory st i n entry) (hi : i < inodeListNum) (hk : k < n) :
    isExist st (entry k).1 i (-1) = some ⟨(entry k).2, n - k, k⟩ := by
  have hentry := h.listing.entries k hk
  obtain ⟨r, hr, hscan, -⟩ := h.listing.isExist hi hentry.string.noNul hentry.length (-1)
  rw [hr]
  rcases hscan with ⟨l, -, hln, hname, -⟩ | hnone
  · obtain rfl := h.names l hln k hk hname
    congr 2
    omega
  · exact (hnone k (Nat.zero_le k) hk rfl).elim

theorem entryPtr_within (st : Store area) (ino : MyInode) (l : ℕ) :
    st.logicalPtr ino (l / 16) ≤ st.entryPtr ino l ∧
      st.entryPtr ino l + 16 ≤ st.logicalPtr ino (l / 16) + 256 := by
  rw [Store.entryPtr]
  omega

theorem block_lt (h : WellFormedDirectory st i n entry) {l : ℕ} (hl : l < n) :
    l / 16 < blockCount (st.inode i).size := by
  rw [h.size, blockCount]
  omega

theorem entryPtr_disjoint (h : WellFormedDirectory st i n entry) {l : ℕ} (hk : k < n) (hl : l < n)
    (hne : k ≠ l) : st.entryPtr (st.inode i) k + 16 ≤ st.entryPtr (st.inode i) l ∨
      st.entryPtr (st.inode i) l + 16 ≤ st.entryPtr (st.inode i) k := by
  by_cases hblock : k / 16 = l / 16
  · rw [Store.entryPtr, Store.entryPtr, hblock]
    omega
  · have hdisjoint := h.own.logicalPtr_disjoint (h.block_lt hk) (h.block_lt hl) hblock
    have hk := entryPtr_within st (st.inode i) k
    have hl := entryPtr_within st (st.inode i) l
    omega

theorem switchAddress_entryPtr (h : WellFormedDirectory st i n entry) {l : ℕ} (hl : l < n) :
    switchAddress st (st.inode i) (l / 16 : ℕ) (16 * (l % 16) : ℕ) =
      some (st.entryPtr (st.inode i) l) :=
  (h.own.mapped (h.block_lt hl)).switchAddress (by omega)

/-- Where the counters lead to the last entry, it is moved into the place of
entry `k`; where they skip the copy, entry `k` is the last one itself. -/
theorem fillEntry (h : WellFormedDirectory st i n entry) (hk : k < n) (hfull : n % 16 ≠ 0)
    (hfirst : n % 16 = 1 → k = n - 1) :
    ∃ space, fillEntry st (st.inode i) k = some { st with space := space } ∧
      (∀ l < n - 1, EntryAt space (st.entryPtr (st.inode i) l)
        (Function.update entry k (entry (n - 1)) l).1
        (Function.update entry k (entry (n - 1)) l).2) ∧
      ∀ x, (x < st.logicalPtr (st.inode i) (k / 16) ∨
        st.logicalPtr (st.inode i) (k / 16) + 256 ≤ x) → space x = st.space x := by
  have hblockNumber := h.blockNumber
  have hoffset := h.lastBlockOffset
  rw [h.size] at hblockNumber hoffset
  simp only [Filesys.fillEntry]
  by_cases hone : n % 16 = 1
  · obtain rfl := hfirst hone
    rw [if_pos (by omega), Function.update_eq_self]
    exact ⟨st.space, rfl, fun l hl ↦ h.listing.entries l (by omega), fun _ _ ↦ rfl⟩
  · have hlastBlock : (st.inode i).blockNumber = ((n - 1) / 16 : ℕ) := by omega
    have hlastSlot : (st.inode i).lastBlockOffset - 16 = (16 * ((n - 1) % 16) : ℕ) := by omega
    have hdiv : (k : ℤ).tdiv 16 = (k / 16 : ℕ) := (Int.ofNat_tdiv k 16).symm
    have hmod : (k : ℤ).tmod 16 * 16 = (16 * (k % 16) : ℕ) := by
      rw [Int.tmod_eq_emod_of_nonneg (by omega)]
      omega
    have hholds : ∀ l < n, area.Holds (st.entryPtr (st.inode i) l) 16 := fun l hl ↦
      (h.own.mapped (h.block_lt hl)).block.mono (by omega)
    have happart : st.entryPtr (st.inode i) k = st.entryPtr (st.inode i) (n - 1) ∨
        st.entryPtr (st.inode i) k + 16 ≤ st.entryPtr (st.inode i) (n - 1) ∨
        st.entryPtr (st.inode i) (n - 1) + 16 ≤ st.entryPtr (st.inode i) k := by
      by_cases hlast : k = n - 1
      · exact .inl (by rw [hlast])
      · exact .inr (h.entryPtr_disjoint hk (by omega) hlast)
    obtain ⟨space, hmove, hmoved, hfar⟩ := moveEntry_spec (h.listing.entries (n - 1) (by omega))
      (hholds (n - 1) (by omega)) (hholds k hk) happart
    refine ⟨space, ?_, ?_, ?_⟩
    · rw [if_neg (by omega), hdiv, hmod, hlastBlock, hlastSlot, h.switchAddress_entryPtr hk,
        h.switchAddress_entryPtr (by omega), Option.bind_eq_bind, Option.bind_some,
        Option.bind_some, hmove]
    · intro l hl
      by_cases hlk : l = k
      · subst hlk
        rw [Function.update_self]
        exact hmoved
      · rw [Function.update_of_ne hlk]
        have hdisjoint := h.entryPtr_disjoint (show l < n by omega) hk hlk
        apply (h.listing.entries l (by omega)).congr
        intro x hx
        exact (hfar _ (by omega)).symm
    · intro x hx
      have hwithin := entryPtr_within st (st.inode i) k
      exact hfar x (by omega)

theorem shrink (h : WellFormedDirectory st i n entry) (hfull : n % 16 ≠ 0) (hk : k < n)
    {space : ℕ → UInt8}
    (hentries : ∀ l < n - 1, EntryAt space (st.entryPtr (st.inode i) l)
      (Function.update entry k (entry (n - 1)) l).1 (Function.update entry k (entry (n - 1)) l).2)
    (hfar : ∀ x, (x < st.logicalPtr (st.inode i) (k / 16) ∨
      st.logicalPtr (st.inode i) (k / 16) + 256 ≤ x) → space x = st.space x) :
    WellFormedDirectory (({ st with space := space } : Store area).setInode i (st.inode i).shrink)
      i (n - 1) (Function.update entry k (entry (n - 1))) := by
  have hcapacity := h.listing.capacity
  have hsize := MyInode.shrink_size h.size (by omega) (by omega)
  have hinode : (({ st with space := space } : Store area).setInode i
      (st.inode i).shrink).inode i = (st.inode i).shrink := Store.setInode_inode ..
  have hsame : SameIndex st { st with space := space } (st.inode i)
      (blockCount (st.inode i).size) := h.own.sameIndex (h.block_lt hk) hfar
  have hown : (({ st with space := space } : Store area).setInode i (st.inode i).shrink).OwnMap
      (st.inode i).shrink (blockCount (16 * (n - 1))) := by
    have hsmaller : blockCount (16 * (n - 1)) ≤ blockCount (st.inode i).size := by
      rw [h.size, blockCount, blockCount]
      omega
    have hmap := (h.own.congr hsame).mono hsmaller
    exact ⟨hmap.le, hmap.block, hmap.inj⟩
  refine ⟨⟨by rw [hinode, hsize], ?_, ?_⟩, by rw [hinode, hsize]; exact hown, ?_, ?_, ?_⟩
  · rw [hinode]
    intro b hb
    rw [hsize] at hb
    exact hown.mapped hb
  · intro l hl
    have hptr := h.own.logicalPtr_congr hsame (h.block_lt (show l < n by omega))
    have haddr : (({ st with space := space } : Store area).setInode i
        (st.inode i).shrink).entryPtr (st.inode i).shrink l = st.entryPtr (st.inode i) l :=
      congrArg (· + 16 * (l % 16)) hptr
    rw [hinode, haddr]
    exact hentries l hl
  · have hbn := h.blockNumber
    rw [h.size] at hbn
    rw [hinode, hsize]
    change (st.inode i).blockNumber = _
    omega
  · have hlbo := h.lastBlockOffset
    rw [h.size] at hlbo
    rw [hinode, hsize]
    change (st.inode i).lastBlockOffset - 16 = _
    omega
  · intro a ha b hb hname
    by_cases hak : a = k
    · by_cases hbk : b = k
      · rw [hak, hbk]
      · rw [hak, Function.update_self, Function.update_of_ne hbk] at hname
        have hlast := h.names (n - 1) (by omega) b (by omega) hname
        omega
    · by_cases hbk : b = k
      · rw [hbk, Function.update_self, Function.update_of_ne hak] at hname
        have hlast := h.names a (by omega) (n - 1) (by omega) hname
        omega
      · rw [Function.update_of_ne hak, Function.update_of_ne hbk] at hname
        exact h.names a (by omega) b (by omega) hname

theorem freeParentDirectoryEntry (h : WellFormedDirectory st i n entry) (hi : i < inodeListNum)
    (hk : k < n) {space : ℕ → UInt8}
    (hfill : Filesys.fillEntry st (st.inode i) k = some { st with space := space }) :
    freeParentDirectoryEntry st (entry k).1 i =
      some (SUCCESS, ({ st with space := space } : Store area).setInode i
        (st.inode i).shrink) := by
  have hfound : ((entry k).2 : ℤ) ≠ ERROR := by
    have herror : ERROR = -1 := rfl
    omega
  rw [Filesys.freeParentDirectoryEntry, h.isExist hi hk, Option.bind_eq_bind, Option.bind_some,
    if_neg hfound, Store.inodeAt_eq hi, Option.bind_eq_bind, Option.bind_some, hfill,
    Option.bind_eq_bind, Option.bind_some]

end WellFormedDirectory

theorem EntryAt.unique {m : ℕ → UInt8} {a : ℕ} {e e' : List UInt8 × ℕ} (h : EntryAt m a e.1 e.2)
    (h' : EntryAt m a e'.1 e'.2) : e = e' :=
  Prod.ext (h.string.unique h'.string) (h.index.symm.trans h'.index)

/-- After a removal that is right, the last entry did not end its block, and it
did not start it unless it was the removed one. -/
theorem WellFormedDirectory.counters {st : Store area} {i n k : ℕ} {entry : ℕ → List UInt8 × ℕ}
    (h : WellFormedDirectory st i n entry) (hi : i < inodeListNum) (hk : k < n)
    (hremoves : RemovesEntry st i n entry k) : n % 16 ≠ 0 ∧ (n % 16 = 1 → k = n - 1) := by
  obtain ⟨st', n', entry', hfree, hwell, himage⟩ := hremoves
  have hcapacity := h.listing.capacity
  have hoffset := h.lastBlockOffset
  rw [h.size] at hoffset
  rcases freeParentDirectoryEntry_cases hfree with ⟨hret, -⟩ | ⟨space, -, -, -, -, hst⟩
  · cases hret
  · have hinode : st'.inode i = (st.inode i).shrink := by
      rw [hst]
      exact Store.setInode_inode ..
    have hshrunk : (st'.inode i).lastBlockOffset = (st.inode i).lastBlockOffset - 16 := by
      rw [hinode, MyInode.shrink]
    have hfull : n % 16 ≠ 0 := by
      have hoffset' := hwell.lastBlockOffset
      omega
    refine ⟨hfull, fun hone ↦ ?_⟩
    by_contra hlast
    -- nothing is copied, so entry `k` is still there
    have hfill : Filesys.fillEntry st (st.inode i) k = some st := by
      simp only [Filesys.fillEntry]
      exact if_pos (by omega)
    have hresult := h.freeParentDirectoryEntry hi hk hfill
    obtain rfl : st' = st.setInode i (st.inode i).shrink := by
      rw [hresult] at hfree
      cases hfree
      rfl
    have hsize := hwell.size
    rw [hinode, MyInode.shrink_size h.size (by omega) (by omega)] at hsize
    have hkept := hwell.listing.entries k (by omega)
    rw [hinode] at hkept
    have hsame : entry k = entry' k := (h.listing.entries k hk).unique hkept
    have hmem : entry k ∈ entry' '' Set.Iio n' := ⟨k, show k < n' by omega, hsame.symm⟩
    rw [himage] at hmem
    exact hmem.2 rfl

/-- `free_parent_directory_entry` removes entry `k` and no other one if and only
if the last entry neither ends its block nor starts it, except that it may start
its block where it is entry `k` itself. -/
theorem removesEntry_iff {st : Store area} {i n k : ℕ} {entry : ℕ → List UInt8 × ℕ}
    (h : WellFormedDirectory st i n entry) (hi : i < inodeListNum) (hk : k < n) :
    RemovesEntry st i n entry k ↔ n % 16 ≠ 0 ∧ (n % 16 = 1 → k = n - 1) := by
  refine ⟨h.counters hi hk, ?_⟩
  rintro ⟨hfull, hfirst⟩
  obtain ⟨space, hfill, hentries, hfar⟩ := h.fillEntry hk hfull hfirst
  refine ⟨_, n - 1, _, h.freeParentDirectoryEntry hi hk hfill,
    h.shrink hfull hk hentries hfar, ?_⟩
  exact image_update_last hk fun l hl m hm heq ↦ h.names l hl m hm (congrArg Prod.fst heq)

/-! ## Full blocks -/

theorem sampleDirectory_wellFormed {n : ℕ} (hn : n ≤ 128) :
    WellFormedDirectory (sampleDirectory n) 1 n sampleEntry := by
  have hsize : ((sampleDirectory n).inode 1).size = 16 * n := by simp [sampleDirectory]
  have hloc : ∀ k < 8, ((sampleDirectory n).inode 1).location k = sampleArea.blockAddr k := by
    intro k hk
    simp [sampleDirectory, hk]
  -- only direct slots are needed
  have hdirect : ∀ σ : Slot, σ.Needed (blockCount (16 * n)) →
      ∃ k : Fin 10, σ = .loc k ∧ k.val < 8 := by
    intro σ hσ
    cases σ with
    | loc k =>
        refine ⟨k, rfl, ?_⟩
        simp only [Slot.Needed, blockCount] at hσ
        omega
    | single k =>
        simp only [Slot.Needed, blockCount] at hσ
        omega
    | double j =>
        simp only [Slot.Needed, blockCount] at hσ
        omega
    | second j k =>
        simp only [Slot.Needed, blockCount] at hσ
        omega
  refine ⟨sampleDirectory_listing hn, ?_, ?_, ?_, ?_⟩
  · rw [hsize]
    refine ⟨by rw [blockCount]; omega, ?_, ?_⟩
    · intro σ hσ
      obtain ⟨k, rfl, hk⟩ := hdirect σ hσ
      exact ⟨k, by simp only [allocatableSpaceSize]; omega, hloc k hk⟩
    · intro σ τ hσ hτ heq
      obtain ⟨k, rfl, hk⟩ := hdirect σ hσ
      obtain ⟨l, rfl, hl⟩ := hdirect τ hτ
      simp only [Store.slotPtr, hloc k hk, hloc l hl, Area.blockAddr_inj] at heq
      rw [Fin.ext heq]
  · rw [hsize]
    simp [sampleDirectory]
  · rw [hsize]
    simp [sampleDirectory]
  · intro k hk l hl hname
    have hletter : UInt8.ofNat (65 + k) = UInt8.ofNat (65 + l) := List.singleton_inj.mp hname
    have hnat := congrArg UInt8.toNat hletter
    simp only [UInt8.toNat_ofNat'] at hnat
    omega

/-- The last of 20 entries takes the place of the first. -/
theorem removesEntry_iff_twenty : RemovesEntry (sampleDirectory 20) 1 20 sampleEntry 0 :=
  (removesEntry_iff (sampleDirectory_wellFormed (by omega)) (by simp) (by omega)).mpr
    ⟨by omega, by omega⟩

/-- With 16 entries the counters do not lead to the last one, with 17 the copy
is left out. -/
theorem first_entry_of_full_block :
    (WellFormedDirectory (sampleDirectory 16) 1 16 sampleEntry ∧
      ¬ RemovesEntry (sampleDirectory 16) 1 16 sampleEntry 0) ∧
    WellFormedDirectory (sampleDirectory 17) 1 17 sampleEntry ∧
      ¬ RemovesEntry (sampleDirectory 17) 1 17 sampleEntry 0 := by
  have hfull := @sampleDirectory_wellFormed 16 (by omega)
  have hone := @sampleDirectory_wellFormed 17 (by omega)
  refine ⟨⟨hfull, fun hremoves ↦ ?_⟩, hone, fun hremoves ↦ ?_⟩
  · exact (hfull.counters (by simp) (by omega) hremoves).1 (by omega)
  · have hlast := (hone.counters (by simp) (by omega) hremoves).2 (by omega)
    omega

end OperatingSystem.Filesys
