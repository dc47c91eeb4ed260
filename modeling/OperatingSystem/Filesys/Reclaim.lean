import OperatingSystem.Filesys.BlockMaps
import OperatingSystem.Filesys.Effects

/-!
# Reclaiming the blocks of a file

What `rd_unlink` gives back of a file with a well-formed block map. No bit of
the bitmap is ever cleared by the release path, so the blocks of a file come
back exactly if there are none.
-/

namespace OperatingSystem.Filesys

variable {area : Area}

/-- The logical blocks of inode `i` are mapped exactly up to its size, index
blocks are there exactly where they are needed, and the pointers are distinct
blocks that the bitmap marks. -/
structure WellFormedMap (st : Store area) (i : ℕ) : Prop where
  mapped : ∀ k < blockCount (st.inode i).size, st.logicalPtr (st.inode i) k ≠ 0
  unmapped : ∀ k, blockCount (st.inode i).size ≤ k → k < 4168 →
    st.logicalPtr (st.inode i) k = 0
  single : (st.inode i).location 8 ≠ 0 ↔ 8 < blockCount (st.inode i).size
  double : (st.inode i).location 9 ≠ 0 ↔ 72 < blockCount (st.inode i).size
  second : ∀ j < 64, st.entry ((st.inode i).location 9) j ≠ 0 ↔
    72 + 64 * j < blockCount (st.inode i).size
  owned : ∀ σ, st.slotPtr (st.inode i) σ ≠ 0 → ∃ b < allocatableSpaceSize,
    st.slotPtr (st.inode i) σ = area.blockAddr b ∧ st.used b = true
  distinct : ∀ σ τ, st.slotPtr (st.inode i) σ ≠ 0 →
    st.slotPtr (st.inode i) σ = st.slotPtr (st.inode i) τ → σ = τ

/-- Exactly the blocks of inode `i` became free. -/
structure Reclaimed (st : Store area) (i : ℕ) (st' : Store area) : Prop where
  cleared : ∀ b ∈ st.fileBlocks (st.inode i), st'.used b = false
  freeBlockNumber : st'.superblock.freeBlockNumber =
    st.superblock.freeBlockNumber + (st.fileBlocks (st.inode i)).ncard
  others : ∀ b ∉ st.fileBlocks (st.inode i), st'.used b = st.used b

namespace WellFormedMap

variable {st : Store area} {i : ℕ}

theorem location_of_empty (h : WellFormedMap st i) (hsize : (st.inode i).size = 0)
    (k : Fin 10) : (st.inode i).location k = 0 := by
  have hcount : blockCount (st.inode i).size = 0 := by simp [hsize, blockCount]
  have h₈ : (st.inode i).location 8 = 0 := by
    by_contra hne
    have hlt := h.single.mp hne
    omega
  have h₉ : (st.inode i).location 9 = 0 := by
    by_contra hne
    have hlt := h.double.mp hne
    omega
  by_cases hk : k.val < 8
  · have hunmapped := h.unmapped k (by omega) (by omega)
    simpa only [Store.logicalPtr, hk, if_true] using hunmapped
  · have hcases : k.val = 8 ∨ k.val = 9 := by omega
    rcases hcases with hk | hk
    · rw [hk]
      exact h₈
    · rw [hk]
      exact h₉

theorem fileBlocks_of_empty (h : WellFormedMap st i) (hsize : (st.inode i).size = 0) :
    st.fileBlocks (st.inode i) = ∅ := by
  have hloc := h.location_of_empty hsize
  apply Set.eq_empty_of_forall_notMem
  rintro b ⟨σ, hσ⟩
  have hne : st.slotPtr (st.inode i) σ ≠ 0 := by
    rw [hσ]
    exact area.blockAddr_ne_zero b
  obtain ⟨k, rfl⟩ := slotPtr_of_direct (hloc 8) (hloc 9) hne
  exact hne (hloc k)

/-- A file that is not empty owns a block that the bitmap marks. -/
theorem exists_used (h : WellFormedMap st i) (hsize : 0 < (st.inode i).size) :
    ∃ b ∈ st.fileBlocks (st.inode i), st.used b = true := by
  have hmapped := h.mapped 0 (blockCount_pos hsize)
  have hslot : st.slotPtr (st.inode i) (.loc 0) ≠ 0 := by
    simpa [Store.slotPtr, Store.logicalPtr] using hmapped
  obtain ⟨b, -, haddr, hused⟩ := h.owned _ hslot
  exact ⟨b, ⟨.loc 0, haddr⟩, hused⟩

theorem of_direct (h₈ : (st.inode i).location 8 = 0) (h₉ : (st.inode i).location 9 = 0)
    (hcount : blockCount (st.inode i).size ≤ 8)
    (hmap : ∀ k < 8, (st.inode i).location k ≠ 0 ↔ k < blockCount (st.inode i).size)
    (howned : ∀ k < 10, (st.inode i).location k ≠ 0 → ∃ b < allocatableSpaceSize,
      (st.inode i).location k = area.blockAddr b ∧ st.used b = true)
    (hinj : ∀ j < 10, ∀ k < 10, (st.inode i).location j ≠ 0 →
      (st.inode i).location j = (st.inode i).location k → j = k) :
    WellFormedMap st i where
  mapped k hk := by
    have hk₈ : k < 8 := by omega
    simpa only [Store.logicalPtr, hk₈, if_true] using (hmap k hk₈).mpr hk
  unmapped k hk _ := by
    by_contra hne
    obtain ⟨hk₈, heq⟩ := logicalPtr_of_direct h₈ h₉ hne
    rw [heq] at hne
    have hlt := (hmap k hk₈).mp hne
    omega
  single := by
    simp only [h₈, ne_eq, not_true_eq_false, false_iff]
    omega
  double := by
    simp only [h₉, ne_eq, not_true_eq_false, false_iff]
    omega
  second j _ := by
    simp only [h₉, entry_zero, ne_eq, not_true_eq_false, false_iff]
    omega
  owned σ hσ := by
    obtain ⟨k, rfl⟩ := slotPtr_of_direct h₈ h₉ hσ
    exact howned k k.isLt hσ
  distinct σ τ hσ heq := by
    have hτ : st.slotPtr (st.inode i) τ ≠ 0 := heq ▸ hσ
    obtain ⟨j, rfl⟩ := slotPtr_of_direct h₈ h₉ hσ
    obtain ⟨k, rfl⟩ := slotPtr_of_direct h₈ h₉ hτ
    rw [Fin.ext (hinj j j.isLt k k.isLt hσ heq)]

end WellFormedMap

/-- No bit is cleared between the call of `free_inode` and its end. -/
theorem used_freeInode {st st' : Store area} {name : List UInt8} {i b : ℕ}
    (h : freeInode st name i = some st') (hb : st.used b = true) : st'.used b = true := by
  obtain ⟨st₁, ret, st₂, hfree, hparent, -, hbitmap, -, -⟩ := freeInode_eq_some h
  have hb₁ := (FreeFrame.of_freeBlock hfree).used b hb
  have hb₂ : st₂.used b = true := by
    rcases freeParentDirectoryEntry_cases hparent with ⟨-, rfl⟩ | ⟨space, r, -, -, -, rfl⟩
    · exact hb₁
    · exact hb₁
  simpa only [Store.used, hbitmap] using hb₂

/-- `free_inode` of an inode without blocks leaves the bitmap and the number
of free blocks as they are. -/
theorem freeInode_of_empty {st st' : Store area} {name : List UInt8} {i : ℕ}
    (h : freeInode st name i = some st') (hloc : (st.inode i).location 0 = 0)
    (h₈ : (st.inode i).location 8 = 0) :
    st'.bitmap = st.bitmap ∧
      st'.superblock.freeBlockNumber = st.superblock.freeBlockNumber := by
  obtain ⟨st₁, ret, st₂, hfree, hparent, -, hbitmap, -, hsuper⟩ := freeInode_eq_some h
  obtain rfl := freeBlock_of_null hloc h₈ hfree
  rw [hbitmap, hsuper]
  rcases freeParentDirectoryEntry_cases hparent with ⟨-, rfl⟩ | ⟨space, r, -, -, -, rfl⟩
  · exact ⟨rfl, rfl⟩
  · exact ⟨rfl, rfl⟩

/-- A successful `rd_unlink` of a file with a well-formed block map gives back
exactly the blocks of the file if and only if the file is empty. -/
theorem unlink_reclaims_iff {s s' : State area} {cur : Process} {pathname name : List UInt8}
    {i : ℕ} (hlookup : lookup s.store (getFDT cur s).1 pathname = some (some (name, i)))
    (hmap : WellFormedMap s.store i)
    (hunlink : rdUnlink cur pathname s = some (SUCCESS, s')) :
    Reclaimed s.store i s'.store ↔ (s.store.inode i).size = 0 := by
  obtain ⟨name', i', hlookup', -, -, hfree, -⟩ := rdUnlink_eq_success hunlink
  rw [hlookup] at hlookup'
  cases hlookup'
  constructor
  · intro hreclaimed
    by_contra hne
    obtain ⟨b, hb, hused⟩ := hmap.exists_used (Nat.pos_of_ne_zero hne)
    have hkept := used_freeInode hfree hused
    rw [hreclaimed.cleared b hb] at hkept
    cases hkept
  · intro hsize
    have hloc := hmap.location_of_empty hsize
    have hnone := hmap.fileBlocks_of_empty hsize
    obtain ⟨hbitmap, hnumber⟩ := freeInode_of_empty hfree (hloc 0) (hloc 8)
    refine ⟨?_, ?_, ?_⟩
    · simp [hnone]
    · simpa [hnone] using hnumber
    · intro b _
      simp only [Store.used, hbitmap]

def closedFileCalls : List Event :=
  sampleCalls [.creat sampleName 1 fun _ ↦ 0, .openPath sampleName 1, .write 1 [120], .close 1]

theorem exists_closedFile :
    ∃ s s', PartialRun.run step (initState sampleArea) closedFileCalls = some s ∧
      (s.store.inode 1).type = .reg ∧ (s.store.inode 1).size = 1 ∧
      s.fdtList = [⟨100, [⟨0, 0⟩], [47, 102]⟩] ∧ WellFormedMap s.store 1 ∧
      lookup s.store (getFDT sampleProcess s).1 sampleName.chars = some (some ([102], 1)) ∧
      rdUnlink sampleProcess sampleName.chars s = some (SUCCESS, s') := by
  have hrun : (PartialRun.run step (initState sampleArea) closedFileCalls).map (fun s ↦
      ((s.store.inode 1).type, (s.store.inode 1).size, s.store.used 1,
        (s.store.inode 1).location 0,
        decide (∀ k : ℕ, k < 10 → k ≠ 0 → (s.store.inode 1).location k = 0))) =
      some (.reg, 1, true, sampleArea.blockAddr 1, true) := by
    decide +kernel
  have htables : (PartialRun.run step (initState sampleArea) closedFileCalls).map State.fdtList =
      some [⟨100, [⟨0, 0⟩], [47, 102]⟩] := by
    decide +kernel
  have hcalls : (PartialRun.run step (initState sampleArea) closedFileCalls).map (fun s ↦
      (lookup s.store (getFDT sampleProcess s).1 sampleName.chars,
        (rdUnlink sampleProcess sampleName.chars s).map Prod.fst)) =
      some (some (some ([102], 1)), some SUCCESS) := by
    decide +kernel
  obtain ⟨s, hs, hfacts⟩ := Option.map_eq_some_iff.mp hrun
  rw [hs, Option.map_some, Option.some.injEq] at htables hcalls
  simp only [Prod.mk.injEq, decide_eq_true_eq] at hfacts hcalls
  obtain ⟨htype, hsize, hused, hblock, hzero⟩ := hfacts
  obtain ⟨hlookup, hunlink⟩ := hcalls
  obtain ⟨⟨ret, s'⟩, hunlink, hret⟩ := Option.map_eq_some_iff.mp hunlink
  obtain rfl : ret = SUCCESS := hret
  have hfirst : ∀ k < 10, (s.store.inode 1).location k ≠ 0 → k = 0 := by
    intro k hk hne
    by_contra hk₀
    exact hne (hzero k hk hk₀)
  refine ⟨s, s', hs, htype, hsize, htables, ?_, hlookup, hunlink⟩
  apply WellFormedMap.of_direct (hzero 8 (by omega) (by omega)) (hzero 9 (by omega) (by omega))
  · simp [hsize, blockCount]
  · intro k hk
    rw [hsize]
    constructor
    · intro hne
      rw [hfirst k (by omega) hne]
      exact blockCount_pos Nat.one_pos
    · intro hlt
      have hk₀ : k = 0 := by
        simp only [blockCount] at hlt
        omega
      rw [hk₀, hblock]
      exact sampleArea.blockAddr_ne_zero 1
  · intro k hk hne
    rw [hfirst k hk hne]
    exact ⟨1, by simp, hblock, hused⟩
  · intro j hj k hk hne heq
    rw [hfirst j hj hne, hfirst k hk (heq ▸ hne)]

/-- The block of a closed file of one byte stays marked. -/
theorem unlink_leaks_block :
    ∃ s s', PartialRun.run step (initState sampleArea) closedFileCalls = some s ∧
      (s.store.inode 1).type = .reg ∧ (s.store.inode 1).size = 1 ∧
      s.fdtList = [⟨100, [⟨0, 0⟩], [47, 102]⟩] ∧ WellFormedMap s.store 1 ∧
      lookup s.store (getFDT sampleProcess s).1 sampleName.chars = some (some ([102], 1)) ∧
      rdUnlink sampleProcess sampleName.chars s = some (SUCCESS, s') ∧
      ¬ Reclaimed s.store 1 s'.store := by
  obtain ⟨s, s', hs, htype, hsize, hfdt, hmap, hlookup, hunlink⟩ := exists_closedFile
  refine ⟨s, s', hs, htype, hsize, hfdt, hmap, hlookup, hunlink, ?_⟩
  intro hreclaimed
  obtain ⟨b, hb, hused⟩ := hmap.exists_used (by omega)
  obtain ⟨name, i, hlookup', -, -, hfree, -⟩ := rdUnlink_eq_success hunlink
  rw [hlookup] at hlookup'
  cases hlookup'
  have hkept := used_freeInode hfree hused
  rw [hreclaimed.cleared b hb] at hkept
  cases hkept

theorem unlink_reclaims_iff_closedFile :
    ∃ s s' : State sampleArea, (s.store.inode 1).size = 1 ∧
      rdUnlink sampleProcess sampleName.chars s = some (SUCCESS, s') ∧
      (Reclaimed s.store 1 s'.store ↔ (s.store.inode 1).size = 0) := by
  obtain ⟨s, s', -, -, hsize, -, hmap, hlookup, hunlink⟩ := exists_closedFile
  exact ⟨s, s', hsize, hunlink, unlink_reclaims_iff hlookup hmap hunlink⟩

end OperatingSystem.Filesys
