import OperatingSystem.Filesys.BlockPicker
import OperatingSystem.Filesys.OwnBlocks

/-!
# Building a block map

A block map under construction: the slots that are filled point to different
blocks that the picker gave, and all others are empty, also those in index
blocks. Filling one slot with a fresh block of zeros, in the record or in an
index block, changes the pointer of no other slot.
-/

namespace OperatingSystem.Filesys

open ByteMemory

variable {area : Area}

/-! ## Filled slots -/

/-- The slots of `S` point to different blocks among the given ones, all other
slots are empty. -/
structure FilledMap (st : Store area) (ino : MyInode) (S : Set Slot) (given : Set ℕ) : Prop where
  closed : ∀ σ ∈ S, ∀ π e, σ.parent = some (π, e) → π ∈ S
  block : ∀ σ ∈ S, ∃ b ∈ given, b < allocatableSpaceSize ∧ st.slotPtr ino σ = area.blockAddr b
  inj : ∀ σ ∈ S, ∀ τ ∈ S, st.slotPtr ino σ = st.slotPtr ino τ → σ = τ
  empty : ∀ σ, σ ∉ S → st.slotPtr ino σ = 0

/-- The block is in the data area, was not given before, and is filled with
zeros. -/
structure FreshBlock (st : Store area) (given : Set ℕ) (b : ℕ) : Prop where
  lt : b < allocatableSpaceSize
  new : b ∉ given
  zero : ∀ x < 256, st.space (area.blockAddr b + x) = 0

theorem blockAddr_disjoint {b c : ℕ} (h : b ≠ c) : area.blockAddr b + 256 ≤ area.blockAddr c ∨
    area.blockAddr c + 256 ≤ area.blockAddr b := by
  simp only [Area.blockAddr, blockSize]
  omega

theorem entry_of_zero {st : Store area} {a e : ℕ} (he : e < 64)
    (hzero : ∀ x < 256, st.space (a + x) = 0) : st.entry a e = 0 := by
  rw [Store.entry]
  split
  · rfl
  · have hbytes : readBytes st.space (a + 4 * e) 4 = readBytes (fun _ ↦ 0) 0 4 := by
      apply List.map_congr_left
      intro x hx
      have hx := List.mem_range.mp hx
      rw [Nat.add_assoc]
      exact hzero _ (by omega)
    rw [hbytes]
    rfl

/-- A pointer stored in an index block is the entry at its place; the entries of
blocks apart from it stay. -/
theorem entry_store {st : Store area} {a a' e f v : ℕ} (hv : v < 4294967296) (he : e < 64)
    (hf : f < 64) (ha : a ≠ 0) (happart : a' ≠ a → a' = 0 ∨ a' + 256 ≤ a ∨ a + 256 ≤ a') :
    ({ st with space := writeBytes st.space (a + 4 * e) (leBytes 4 v) } : Store area).entry a' f =
      if a' = a ∧ f = e then v else st.entry a' f := by
  have hlength : (leBytes 4 v).length = 4 := length_leBytes ..
  by_cases hblock : a' = a
  · subst hblock
    by_cases hplace : f = e
    · subst hplace
      have hread := readBytes_writeBytes st.space (a' + 4 * f) (leBytes 4 v)
      rw [hlength] at hread
      rw [Store.entry, if_neg ha, if_pos ⟨rfl, rfl⟩, hread, leValue_leBytes_of_lt (by omega)]
    · rw [if_neg (fun h ↦ hplace h.2), Store.entry, Store.entry, if_neg ha, if_neg ha,
        readBytes_writeBytes_of_disjoint (by omega)]
  · rw [if_neg (fun h ↦ hblock h.1), Store.entry, Store.entry]
    rcases happart hblock with rfl | hdisjoint
    · rw [if_pos rfl, if_pos rfl]
    · rw [readBytes_writeBytes_of_disjoint (by omega)]

namespace FilledMap

variable {st : Store area} {ino : MyInode} {S : Set Slot} {given : Set ℕ}

theorem ne_zero (h : FilledMap st ino S given) {σ : Slot} (hσ : σ ∈ S) :
    st.slotPtr ino σ ≠ 0 := by
  obtain ⟨b, -, -, hptr⟩ := h.block σ hσ
  rw [hptr]
  exact area.blockAddr_ne_zero b

theorem disjoint (h : FilledMap st ino S given) {σ τ : Slot} (hσ : σ ∈ S) (hτ : τ ∈ S)
    (hne : σ ≠ τ) : st.slotPtr ino σ + 256 ≤ st.slotPtr ino τ ∨
      st.slotPtr ino τ + 256 ≤ st.slotPtr ino σ := by
  obtain ⟨b, -, -, hb⟩ := h.block σ hσ
  obtain ⟨c, -, -, hc⟩ := h.block τ hτ
  have hblocks : b ≠ c := by
    rintro rfl
    exact hne (h.inj σ hσ τ hτ (hb.trans hc.symm))
  rw [hb, hc]
  exact blockAddr_disjoint hblocks

theorem fill_loc (h : FilledMap st ino S given) {k : Fin 10} (hk : Slot.loc k ∉ S) {b : ℕ}
    (hb : FreshBlock st given b) (τ : Slot) :
    st.slotPtr { ino with location := Function.update ino.location k (area.blockAddr b) } τ =
      if τ = .loc k then area.blockAddr b else st.slotPtr ino τ := by
  induction τ using slot_induction with
  | hloc l =>
      by_cases hl : l = k
      · subst hl
        rw [if_pos rfl]
        exact Function.update_self ..
      · rw [if_neg fun heq ↦ hl (Slot.loc.inj heq)]
        exact Function.update_of_ne (fun heq ↦ hl (Fin.ext heq)) ..
  | hchild τ ρ f hτ ih =>
      have hne : τ ≠ .loc k := by
        rintro rfl
        cases hτ
      rw [slotPtr_of_parent _ _ hτ, ih, if_neg hne, slotPtr_of_parent _ _ hτ]
      by_cases hρ : ρ = .loc k
      · subst hρ
        rw [if_pos rfl, h.empty _ hk, entry_zero, entry_of_zero (parent_lt hτ) hb.zero]
      · rw [if_neg hρ]

theorem fill_entry (h : FilledMap st ino S given) {σ π : Slot} {e : ℕ}
    (hσ : σ.parent = some (π, e)) (hπ : π ∈ S) (hempty : σ ∉ S) {b : ℕ}
    (hb : FreshBlock st given b) (τ : Slot) :
    ({ st with
        space := writeBytes st.space (st.slotPtr ino π + 4 * e) (leBytes 4 (area.blockAddr b)) } :
      Store area).slotPtr ino τ =
      if τ = σ then area.blockAddr b else st.slotPtr ino τ := by
  obtain ⟨p, hp, -, hptr⟩ := h.block π hπ
  induction τ using slot_induction with
  | hloc l =>
      rw [if_neg]
      · rfl
      · rintro rfl
        cases hσ
  | hchild τ ρ f hτ ih =>
      rw [slotPtr_of_parent _ _ hτ, ih, slotPtr_of_parent _ _ hτ]
      have hstore := @entry_store _ st (st.slotPtr ino π)
        (if ρ = σ then area.blockAddr b else st.slotPtr ino ρ) e f (area.blockAddr b)
        (Area.blockAddr_lt hb.lt) (parent_lt hσ) (parent_lt hτ) (h.ne_zero hπ)
      by_cases hρ : ρ = σ
      · -- the entries of the new block itself
        have hne : τ ≠ σ := by
          rintro rfl
          rw [hρ] at hτ
          cases τ <;> cases hτ
        have hapart : area.blockAddr b ≠ st.slotPtr ino π := by
          rw [hptr]
          intro heq
          exact hb.new (Area.blockAddr_inj.mp heq ▸ hp)
        rw [if_pos hρ] at hstore ⊢
        rw [hstore, if_neg (fun hboth ↦ hapart hboth.1), if_neg hne, hρ, h.empty _ hempty,
          entry_zero, entry_of_zero (parent_lt hτ) hb.zero]
        intro _
        rw [hptr]
        refine .inr (blockAddr_disjoint ?_)
        rintro rfl
        exact hb.new hp
      · rw [if_neg hρ] at hstore ⊢
        have happart : st.slotPtr ino ρ ≠ st.slotPtr ino π → st.slotPtr ino ρ = 0 ∨
            st.slotPtr ino ρ + 256 ≤ st.slotPtr ino π ∨
            st.slotPtr ino π + 256 ≤ st.slotPtr ino ρ := by
          intro hptrs
          by_cases hmem : ρ ∈ S
          · refine .inr (h.disjoint hmem hπ ?_)
            rintro rfl
            exact hptrs rfl
          · exact .inl (h.empty ρ hmem)
        rw [hstore happart]
        by_cases hsame : τ = σ
        · subst hsame
          rw [hσ] at hτ
          cases hτ
          rw [if_pos ⟨rfl, rfl⟩, if_pos rfl]
        · rw [if_neg hsame, if_neg]
          rintro ⟨hptrs, rfl⟩
          by_cases hmem : ρ ∈ S
          · obtain rfl := h.inj ρ hmem π hπ hptrs
            exact hsame (parent_inj hτ hσ)
          · exact h.ne_zero hπ (hptrs.symm.trans (h.empty ρ hmem))

theorem insert (h : FilledMap st ino S given) {st' : Store area} {ino' : MyInode} {σ : Slot}
    {b : ℕ} (hb : FreshBlock st given b) (hempty : σ ∉ S)
    (hclosed : ∀ π e, σ.parent = some (π, e) → π ∈ S)
    (hfill : ∀ τ, st'.slotPtr ino' τ = if τ = σ then area.blockAddr b else st.slotPtr ino τ) :
    FilledMap st' ino' (Insert.insert σ S) (Insert.insert b given) := by
  have hold : ∀ τ ∈ S, st'.slotPtr ino' τ = st.slotPtr ino τ := by
    intro τ hτ
    rw [hfill, if_neg]
    rintro rfl
    exact hempty hτ
  have hnew : st'.slotPtr ino' σ = area.blockAddr b := by
    rw [hfill, if_pos rfl]
  have hapart : ∀ τ ∈ S, st.slotPtr ino τ ≠ area.blockAddr b := by
    intro τ hτ heq
    obtain ⟨c, hc, -, hptr⟩ := h.block τ hτ
    exact hb.new (Area.blockAddr_inj.mp (heq.symm.trans hptr) ▸ hc)
  refine ⟨?_, ?_, ?_, ?_⟩
  · rintro τ (rfl | hτ) π e hparent
    · exact .inr (hclosed π e hparent)
    · exact .inr (h.closed τ hτ π e hparent)
  · rintro τ (rfl | hτ)
    · exact ⟨b, .inl rfl, hb.lt, hnew⟩
    · obtain ⟨c, hc, hlt, hptr⟩ := h.block τ hτ
      exact ⟨c, .inr hc, hlt, (hold τ hτ).trans hptr⟩
  · rintro τ (rfl | hτ) τ' (rfl | hτ') heq
    · rfl
    · rw [hnew, hold τ' hτ'] at heq
      exact (hapart τ' hτ' heq.symm).elim
    · rw [hnew, hold τ hτ] at heq
      exact (hapart τ hτ heq).elim
    · rw [hold τ hτ, hold τ' hτ'] at heq
      exact h.inj τ hτ τ' hτ' heq
  · intro τ hτ
    rw [Set.mem_insert_iff, not_or] at hτ
    rw [hfill, if_neg hτ.1]
    exact h.empty τ hτ.2

end FilledMap

end OperatingSystem.Filesys
