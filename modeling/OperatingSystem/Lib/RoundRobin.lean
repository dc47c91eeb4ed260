import Mathlib.Tactic

/-!
# Round robin over a ring of slots

A cyclic search over `n` slots that visits the slots behind the last one found
serves the ready slots in the order of a queue: the slot found goes to the end
of the order, and a slot that is no longer ready leaves it.
-/

namespace OperatingSystem.RoundRobin

/-- The slots in the order in which a search from `c` on visits them. -/
def visits (n c : ℕ) : List ℕ := (List.range n).map fun i ↦ (c + i) % n

def queue (ready : ℕ → Bool) (n c : ℕ) : List ℕ := (visits n c).filter ready

variable {ready ready' : ℕ → Bool} {n c : ℕ}

theorem visits_eq_rotate (n c : ℕ) : visits n c = (List.range n).rotate c := by
  apply List.ext_getElem
  · simp [visits]
  · intro i hi _
    simp [visits, List.getElem_rotate, Nat.add_comm]

theorem visits_nodup (n c : ℕ) : (visits n c).Nodup := by
  rw [visits_eq_rotate]
  exact List.nodup_rotate.mpr List.nodup_range

theorem mem_visits {i : ℕ} : i ∈ visits n c ↔ i < n := by
  rw [visits_eq_rotate, List.mem_rotate, List.mem_range]

/-- A search behind slot `h` ends with `h`, and visits the slots before `h`
after those behind it. -/
theorem visits_succ {before after : List ℕ} {h : ℕ} (hsplit : visits n c = before ++ h :: after) :
    visits n (h + 1) = after ++ (before ++ [h]) := by
  have hpos : before.length < (visits n c).length := by simp [hsplit]
  have hget : (visits n c)[before.length] = h := by simp [hsplit]
  have hh : h = (c + before.length) % n := by
    rw [← hget]
    simp [visits]
  have hstart : (List.range n).rotate h = (List.range n).rotate (c + before.length) := by
    have hmod := List.rotate_mod (List.range n) (c + before.length)
    rw [List.length_range] at hmod
    rw [hh, hmod]
  have hrotate : visits n (h + 1) = (visits n c).rotate (before.length + 1) := by
    rw [visits_eq_rotate, visits_eq_rotate, ← List.rotate_rotate, hstart, List.rotate_rotate,
      List.rotate_rotate, Nat.add_assoc]
  rw [hrotate, hsplit, show before ++ h :: after = (before ++ [h]) ++ after by simp,
    show before.length + 1 = (before ++ [h]).length by simp, List.rotate_append_length_eq]

theorem queue_nodup (ready : ℕ → Bool) (n c : ℕ) : (queue ready n c).Nodup :=
  (visits_nodup n c).filter _

theorem mem_queue {i : ℕ} : i ∈ queue ready n c ↔ i < n ∧ ready i = true := by
  rw [queue, List.mem_filter, mem_visits]

theorem find?_eq_head? (ready : ℕ → Bool) (n c : ℕ) :
    (visits n c).find? ready = (queue ready n c).head? := by
  rw [queue, List.head?_filter]

/-- Once a slot was found, the search goes on behind it and the slot waits at
the end of the queue. -/
theorem queue_succ {h : ℕ} {rest : List ℕ} (hq : queue ready n c = h :: rest) :
    queue ready n (h + 1) = rest ++ [h] := by
  obtain ⟨before, after, hsplit, hbefore, hready, hafter⟩ := List.filter_eq_cons_iff.mp hq
  have hnone : before.filter ready = [] := List.filter_eq_nil_iff.mpr hbefore
  rw [queue, visits_succ hsplit, List.filter_append, List.filter_append, hafter, hnone]
  simp [hready]

/-- A slot that is no longer ready leaves the queue. -/
theorem queue_remove {h : ℕ} {rest : List ℕ} (hq : queue ready n c = rest ++ [h])
    (hremoved : ∀ i < n, ready' i = (ready i && i != h)) : queue ready' n c = rest := by
  have hfilter : queue ready' n c = (queue ready n c).filter fun i ↦ i != h := by
    rw [queue, queue, List.filter_filter]
    apply List.filter_congr
    intro i hi
    rw [hremoved i (mem_visits.mp hi), Bool.and_comm]
  have hnotMem : h ∉ rest := by
    have hnodup := queue_nodup ready n c
    rw [hq] at hnodup
    exact fun hmem ↦ (List.nodup_append.mp hnodup).2.2 h hmem h (by simp) rfl
  rw [hfilter, hq, List.filter_append, List.filter_eq_self.mpr, List.filter_eq_nil_iff.mpr]
  · simp
  · simp
  · intro i hi
    simp only [bne_iff_ne]
    rintro rfl
    exact hnotMem hi

/-- From slot 0 on, the queue of the first `k` slots is in order. -/
theorem queue_zero {k : ℕ} (hk : k ≤ n) (hready : ∀ i < n, ready i = decide (i < k)) :
    queue ready n 0 = List.range k := by
  have hvisits : visits n 0 = List.range n := by
    rw [visits_eq_rotate, List.rotate_zero]
  rw [queue, hvisits, List.filter_congr (q := fun i ↦ decide (i < k)) fun i hi ↦
    hready i (List.mem_range.mp hi)]
  obtain ⟨d, rfl⟩ := Nat.exists_eq_add_of_le hk
  rw [List.range_add, List.filter_append, List.filter_eq_self.mpr, List.filter_eq_nil_iff.mpr]
  · simp
  · simp
  · intro i hi
    simpa using hi

end OperatingSystem.RoundRobin
