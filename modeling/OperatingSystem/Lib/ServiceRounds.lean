import Mathlib.Tactic

/-!
# Tasks served in rounds

A queue of tasks, each with a count. The head is served; it leaves the queue if its count is 0,
and goes to the end with a smaller count otherwise. So the tasks are served round by round, and
each in one round more than its count.
-/

namespace OperatingSystem.ServiceRounds

variable {ι : Type*} [DecidableEq ι]

/-- The tasks in the order in which they are served, each with the count that it has then. -/
def serve : ℕ → (ι → ℕ) → List ι → List (ι × ℕ)
  | 0, _, _ => []
  | _ + 1, _, [] => []
  | fuel + 1, left, i :: q =>
      (i, left i) ::
        if left i = 0 then serve fuel left q
        else serve fuel (Function.update left i (left i - 1)) (q ++ [i])

/-- The first `rounds` rounds. -/
def rounds (rounds : ℕ) (left : ι → ℕ) (q : List ι) : List (ι × ℕ) :=
  (List.range rounds).flatMap fun r ↦
    (q.filter fun i ↦ r ≤ left i).map fun i ↦ (i, left i - r)

/-- The counts behind a round of the tasks in `q`. -/
def lower (left : ι → ℕ) (q : List ι) (i : ι) : ℕ := if i ∈ q then left i - 1 else left i

variable {left : ι → ℕ} {q acc : List ι} {fuel : ℕ}

@[simp] theorem serve_nil (fuel : ℕ) (left : ι → ℕ) : serve fuel left [] = [] := by
  cases fuel <;> rfl

theorem serve_append (hnodup : q.Nodup) : serve (fuel + q.length) left (q ++ acc) =
    q.map (fun i ↦ (i, left i)) ++
      serve fuel (lower left q) (acc ++ q.filter fun i ↦ left i ≠ 0) := by
  induction q generalizing left acc with
  | nil =>
      have hlower : lower left [] = left := funext fun i ↦ if_neg List.not_mem_nil
      rw [hlower, List.filter_nil, List.append_nil]
      rfl
  | cons i q ih =>
      obtain ⟨hi, hq⟩ := List.nodup_cons.mp hnodup
      rw [List.length_cons, ← Nat.add_assoc, List.cons_append, serve, List.map_cons,
        List.cons_append]
      refine congrArg ((i, left i) :: ·) ?_
      by_cases hzero : left i = 0
      · have hlower : lower left (i :: q) = lower left q := by
          funext j
          by_cases hji : j = i
          · simp [lower, hji, hi, hzero]
          · simp [lower, hji]
        rw [if_pos hzero, ih hq, hlower, List.filter_cons_of_neg (by simp [hzero])]
      · have hother : ∀ j ∈ q, Function.update left i (left i - 1) j = left j := fun j hj ↦
          Function.update_of_ne (ne_of_mem_of_not_mem hj hi) _ _
        have hlower : lower (Function.update left i (left i - 1)) q = lower left (i :: q) := by
          funext j
          by_cases hji : j = i
          · simp [lower, hji, hi]
          · simp [lower, hji]
        have hfilter : (q.filter fun j ↦ Function.update left i (left i - 1) j ≠ 0) =
            q.filter fun j ↦ left j ≠ 0 :=
          List.filter_congr fun j hj ↦ by rw [hother j hj]
        have hmap : (q.map fun j ↦ (j, Function.update left i (left i - 1) j)) =
            q.map fun j ↦ (j, left j) :=
          List.map_congr_left fun j hj ↦ by rw [hother j hj]
        rw [if_neg hzero, List.append_assoc, ih hq, hlower, hfilter, hmap,
          List.filter_cons_of_pos (by simpa using hzero), List.append_assoc,
          List.singleton_append]

theorem serve_eq_rounds {n : ℕ} (hnodup : q.Nodup) (hn : ∀ i ∈ q, left i < n)
    (hfuel : (q.map fun i ↦ left i + 1).sum ≤ fuel) : serve fuel left q = rounds n left q := by
  induction n generalizing left q fuel with
  | zero =>
      obtain rfl : q = [] := List.eq_nil_iff_forall_not_mem.mpr fun i hi ↦
        absurd (hn i hi) (Nat.not_lt_zero _)
      rw [serve_nil]
      rfl
  | succ n ih =>
      have hlength : (q.map fun i ↦ left i + 1).sum = (q.map left).sum + q.length := by
        rw [List.sum_map_add, List.map_const', List.sum_replicate, smul_eq_mul, mul_one]
      obtain ⟨rest, rfl⟩ := Nat.exists_eq_add_of_le' ((hlength ▸ Nat.le_add_left _ _).trans hfuel)
      have hlower : ∀ i ∈ q, lower left q i = left i - 1 := fun i hi ↦ if_pos hi
      have hnext : ∀ i ∈ q.filter (fun i ↦ left i ≠ 0), i ∈ q ∧ left i ≠ 0 := fun i hi ↦ by
        simpa using List.mem_filter.mp hi
      have hlt : ∀ i ∈ q.filter (fun i ↦ left i ≠ 0), lower left q i < n := fun i hi ↦ by
        obtain ⟨hi, hne⟩ := hnext i hi
        have hlt := hn i hi
        rw [hlower i hi]
        omega
      have hsum : ((q.filter fun i ↦ left i ≠ 0).map fun i ↦ lower left q i + 1).sum ≤ rest := by
        have hmap : ((q.filter fun i ↦ left i ≠ 0).map fun i ↦ lower left q i + 1) =
            (q.filter fun i ↦ left i ≠ 0).map left := List.map_congr_left fun i hi ↦ by
          obtain ⟨hi, hne⟩ := hnext i hi
          rw [hlower i hi, Nat.sub_add_cancel (Nat.pos_of_ne_zero hne)]
        rw [hmap]
        refine (List.Sublist.sum_le_sum (List.filter_sublist.map left)
          fun _ _ ↦ Nat.zero_le _).trans ?_
        exact Nat.le_of_add_le_add_right (hlength ▸ hfuel)
      have hround := @serve_append ι _ left q [] rest hnodup
      rw [List.append_nil, List.nil_append] at hround
      rw [hround, ih (hnodup.filter _) hlt hsum, rounds, rounds, List.range_succ_eq_map,
        List.flatMap_cons, List.flatMap_map]
      refine congrArg₂ (· ++ ·) ?_ (List.flatMap_congr fun r _ ↦ ?_)
      · simp
      · have hfilter : (q.filter fun i ↦ decide (r ≤ lower left q i) && decide (left i ≠ 0)) =
            q.filter fun i ↦ decide (r + 1 ≤ left i) := List.filter_congr fun i hi ↦ by
          rw [hlower i hi, ← Bool.decide_and, decide_eq_decide]
          omega
        rw [List.filter_filter, hfilter]
        refine List.map_congr_left fun i hi ↦ ?_
        rw [hlower i (List.mem_filter.mp hi).1, Nat.sub_sub, Nat.add_comm 1 r]

end OperatingSystem.ServiceRounds
