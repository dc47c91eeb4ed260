import Mathlib.Data.List.GetD
import Mathlib.Tactic

/-!
# Text in cells

A text screen is a function from cell numbers to cells. Lines stand one below another,
each from the start of a row of `w` cells on; a line that fills its rows is followed by
an empty row.
-/

namespace OperatingSystem.TextCells

variable {α β : Type*} {m : ℕ → α} {p i w : ℕ} {xs ys : List α} {blank : α}

/-- The cells from `p` on get the elements of a list. -/
def writeCells (m : ℕ → α) (p : ℕ) (xs : List α) : ℕ → α :=
  fun i ↦ if p ≤ i then (xs[i - p]?).getD (m i) else m i

theorem writeCells_of_lt (h : i < p) : writeCells m p xs i = m i := if_neg (not_le.mpr h)

theorem writeCells_of_ge (h : p + xs.length ≤ i) : writeCells m p xs i = m i := by
  have hlength : xs.length ≤ i - p := Nat.le_sub_of_add_le' h
  rw [writeCells, List.getElem?_eq_none hlength, Option.getD_none, ite_self]

theorem writeCells_add {k : ℕ} (h : k < xs.length) : writeCells m p xs (p + k) = xs[k] := by
  rw [writeCells, if_pos (Nat.le_add_right p k), Nat.add_sub_cancel_left,
    List.getElem?_eq_getElem h, Option.getD_some]

@[simp] theorem writeCells_nil : writeCells m p [] = m := by
  funext i
  simp [writeCells]

theorem writeCells_cons (x : α) :
    writeCells m p (x :: xs) = writeCells (Function.update m p x) (p + 1) xs := by
  funext i
  rcases Nat.lt_trichotomy i p with hlt | rfl | hgt
  · rw [writeCells_of_lt hlt, writeCells_of_lt (Nat.lt_succ_of_lt hlt),
      Function.update_of_ne hlt.ne]
  · rw [writeCells_of_lt (Nat.lt_succ_self i), Function.update_self]
    exact @writeCells_add _ m i (x :: xs) 0 (Nat.zero_lt_succ _)
  · obtain ⟨k, rfl⟩ := Nat.exists_eq_add_of_le (Nat.succ_le_of_lt hgt)
    have hcell : p.succ + k - p = k + 1 := by omega
    rw [writeCells, writeCells, if_pos (by omega), if_pos (Nat.le_add_right _ k),
      Function.update_of_ne hgt.ne', hcell, List.getElem?_cons_succ]
    exact congrArg (fun j ↦ (xs[j]?).getD _) (Nat.add_sub_cancel_left _ k).symm

theorem foldl_update (m : ℕ → α) (x : α) (ps : List ℕ) (i : ℕ) :
    ps.foldl (fun m p ↦ Function.update m p x) m i = if i ∈ ps then x else m i := by
  induction ps generalizing m with
  | nil => rfl
  | cons p ps ih =>
      rw [List.foldl_cons, ih]
      by_cases hps : i ∈ ps
      · rw [if_pos hps, if_pos (List.mem_cons_of_mem p hps)]
      · by_cases hp : i = p
        · rw [if_neg hps, hp, Function.update_self, if_pos List.mem_cons_self]
        · rw [if_neg hps, Function.update_of_ne hp,
            if_neg (List.not_mem_cons_of_ne_of_not_mem hp hps)]

/-! ## Pages -/

/-- The rows that a line takes. -/
def rowCount (w : ℕ) (line : List β) : ℕ := line.length / w + 1

/-- A line with the blanks up to the end of its rows. -/
def padLine (w : ℕ) (blank : α) (line : List α) : List α :=
  line ++ List.replicate (w - line.length % w) blank

theorem length_padLine (hw : 0 < w) (line : List α) :
    (padLine w blank line).length = rowCount w line * w := by
  have hmod := Nat.mod_lt line.length hw
  have hdiv := Nat.mod_add_div' line.length w
  rw [padLine, List.length_append, List.length_replicate, rowCount, Nat.succ_mul]
  omega

/-- The first `size` cells show a text and are blank behind it. -/
def Shows (size : ℕ) (blank : α) (text : List α) (m : ℕ → α) : Prop :=
  ∀ i < size, m i = text.getD i blank

/-- A line that is stored at the end of the text. The blanks are there already. -/
theorem Shows.writeLine {size : ℕ} {text line : List α} (h : Shows size blank text m) :
    Shows size blank (text ++ padLine w blank line) (writeCells m text.length line) := by
  intro i hi
  rcases Nat.lt_or_ge i text.length with hlt | hge
  · rw [writeCells_of_lt hlt, h i hi, List.getD_append _ _ _ _ hlt]
  · obtain ⟨k, rfl⟩ := Nat.exists_eq_add_of_le hge
    rw [List.getD_append_right _ _ _ _ hge, Nat.add_sub_cancel_left, padLine]
    rcases Nat.lt_or_ge k line.length with hk | hk
    · rw [writeCells_add hk, List.getD_append _ _ _ _ hk, List.getD_eq_getElem _ _ hk]
    · rw [writeCells_of_ge (Nat.add_le_add_left hk _), h _ hi, List.getD_append_right _ _ _ _ hk,
        List.getD_eq_default _ _ hge]
      rw [List.getD_eq_getElem?_getD, List.getElem?_replicate]
      split <;> rfl

end OperatingSystem.TextCells
