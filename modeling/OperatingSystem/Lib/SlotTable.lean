import Mathlib.Tactic

/-!
# Free slots of a table

A table of `n` slots, some of them free, with a cached count of the free slots
and the cached index of the lowest one. A slot is taken at the cached index,
and the next free slot is found by a scan that starts behind it; a released
slot lowers the cached index.
-/

namespace OperatingSystem.SlotTable

/-- `first` is the lowest free slot below `n`, and `n` if there is none. -/
structure IsFirstFree (free : ℕ → Prop) (n first : ℕ) : Prop where
  le : first ≤ n
  below : ∀ i < first, ¬ free i
  isFree : first < n → free first

/-- Search `fuel` slots from `i` on. -/
def scan (free : ℕ → Prop) [DecidablePred free] : ℕ → ℕ → ℕ
  | 0, i => i
  | fuel + 1, i => if free i then i else scan free fuel (i + 1)

def freeSlots (free : ℕ → Prop) [DecidablePred free] (n : ℕ) : Finset ℕ :=
  (Finset.range n).filter free

variable {free free' : ℕ → Prop} {n first : ℕ}

/-- A scan that starts behind slots that are all taken finds the first free
one. -/
theorem isFirstFree_scan [DecidablePred free] (fuel : ℕ) {i : ℕ} (hbelow : ∀ j < i, ¬ free j) :
    IsFirstFree free (i + fuel) (scan free fuel i) := by
  induction fuel generalizing i with
  | zero => exact ⟨le_refl i, hbelow, fun hlt ↦ (lt_irrefl i hlt).elim⟩
  | succ fuel ih =>
      by_cases hfree : free i
      · rw [scan, if_pos hfree]
        exact ⟨Nat.le_add_right i _, hbelow, fun _ ↦ hfree⟩
      · rw [scan, if_neg hfree, show i + (fuel + 1) = i + 1 + fuel by omega]
        apply ih
        intro j hj
        rcases Nat.lt_succ_iff_lt_or_eq.mp hj with hlt | rfl
        · exact hbelow j hlt
        · exact hfree

namespace IsFirstFree

theorem lt_iff (h : IsFirstFree free n first) : first < n ↔ ∃ i < n, free i := by
  constructor
  · intro hlt
    exact ⟨first, hlt, h.isFree hlt⟩
  · rintro ⟨i, hi, hfree⟩
    by_contra hge
    exact h.below i (lt_of_lt_of_le hi (not_lt.mp hge)) hfree

theorem isLeast (h : IsFirstFree free n first) (hex : ∃ i < n, free i) :
    IsLeast {i | i < n ∧ free i} first := by
  have hlt := h.lt_iff.mpr hex
  refine ⟨⟨hlt, h.isFree hlt⟩, ?_⟩
  rintro i ⟨-, hi⟩
  by_contra hbelow
  exact h.below i (not_le.mp hbelow) hi

theorem eq_of_full (h : IsFirstFree free n first) (hfull : ∀ i < n, ¬ free i) : first = n := by
  apply le_antisymm h.le
  by_contra hlt
  exact hfull first (not_le.mp hlt) (h.isFree (not_le.mp hlt))

theorem unique {other : ℕ} (h : IsFirstFree free n first) (g : IsFirstFree free n other) :
    first = other := by
  rcases lt_trichotomy first other with hlt | heq | hgt
  · exact (g.below first hlt (h.isFree (hlt.trans_le g.le))).elim
  · exact heq
  · exact (h.below other hgt (g.isFree (hgt.trans_le h.le))).elim

theorem take [DecidablePred free'] (h : IsFirstFree free n first) (hlt : first < n)
    (htaken : ∀ i, free' i ↔ free i ∧ i ≠ first) :
    IsFirstFree free' n (scan free' (n - (first + 1)) (first + 1)) := by
  have hbelow : ∀ j < first + 1, ¬ free' j := by
    intro j hj hfree
    obtain ⟨hold, hne⟩ := (htaken j).mp hfree
    exact h.below j (lt_of_le_of_ne (Nat.le_of_lt_succ hj) hne) hold
  have hscan := isFirstFree_scan (n - (first + 1)) hbelow
  rwa [Nat.add_sub_cancel' hlt] at hscan

theorem release {i : ℕ} (h : IsFirstFree free n first) (hi : i < n)
    (hfreed : ∀ j, free' j ↔ free j ∨ j = i) : IsFirstFree free' n (min first i) := by
  constructor
  · exact (min_le_left first i).trans h.le
  · intro j hj hfree
    rcases (hfreed j).mp hfree with hold | rfl
    · exact h.below j (hj.trans_le (min_le_left first i)) hold
    · exact (not_lt_of_ge (min_le_right first j)) hj
  · intro _
    apply (hfreed _).mpr
    rcases min_choice first i with heq | heq
    · left
      rw [heq]
      exact h.isFree (lt_of_le_of_lt (min_eq_left_iff.mp heq) hi)
    · exact Or.inr heq

end IsFirstFree

section Count

variable [DecidablePred free] [DecidablePred free']

theorem freeSlots_nonempty_iff : (freeSlots free n).Nonempty ↔ ∃ i < n, free i := by
  simp [freeSlots, Finset.filter_nonempty_iff]

theorem card_take {i : ℕ} (hi : i < n) (hfree : free i)
    (htaken : ∀ j, free' j ↔ free j ∧ j ≠ i) :
    (freeSlots free' n).card + 1 = (freeSlots free n).card := by
  have hslots : freeSlots free' n = (freeSlots free n).erase i := by
    ext j
    simp only [freeSlots, Finset.mem_filter, Finset.mem_erase, htaken]
    tauto
  rw [hslots]
  apply Finset.card_erase_add_one
  simp [freeSlots, hi, hfree]

theorem card_release {i : ℕ} (hi : i < n) (hused : ¬ free i)
    (hfreed : ∀ j, free' j ↔ free j ∨ j = i) :
    (freeSlots free' n).card = (freeSlots free n).card + 1 := by
  have hslots : freeSlots free' n = insert i (freeSlots free n) := by
    ext j
    simp only [freeSlots, Finset.mem_filter, Finset.mem_insert, Finset.mem_range, hfreed]
    constructor
    · rintro ⟨hj, hold | rfl⟩
      · exact Or.inr ⟨hj, hold⟩
      · exact Or.inl rfl
    · rintro (rfl | ⟨hj, hold⟩)
      · exact ⟨hi, Or.inr rfl⟩
      · exact ⟨hj, Or.inl hold⟩
  rw [hslots]
  apply Finset.card_insert_of_notMem
  simp [freeSlots, hused]

end Count

end OperatingSystem.SlotTable
