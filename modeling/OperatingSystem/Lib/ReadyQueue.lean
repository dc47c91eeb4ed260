import OperatingSystem.Lib.PartialRun

/-!
# Ready queues

The head of a ready queue is dispatched and goes to its end, and members leave for good.
A member that stays is dispatched within as many dispatches as the queue is long.
-/

namespace OperatingSystem.ReadyQueue

open PartialRun

inductive QueueEvent (α : Type*)
  | dispatch (a : α)
  | leave (a : α)
  deriving DecidableEq

variable {α : Type*} {q q' : List α} {a : α}

def QueueEvent.dispatched : QueueEvent α → Option α
  | .dispatch a => some a
  | .leave _ => none

/-- The members that are dispatched, in order. -/
def dispatches (es : List (QueueEvent α)) : List α := es.filterMap QueueEvent.dispatched

@[simp] theorem dispatches_dispatch (a : α) (es : List (QueueEvent α)) :
    dispatches (.dispatch a :: es) = a :: dispatches es := rfl

@[simp] theorem dispatches_leave (a : α) (es : List (QueueEvent α)) :
    dispatches (.leave a :: es) = dispatches es := rfl

variable [DecidableEq α]

/-- Only the head can be dispatched. -/
def step (q : List α) : QueueEvent α → Option (List α)
  | .dispatch a => if q.head? = some a then some (q.tail ++ [a]) else none
  | .leave a => some (q.filter (· ≠ a))

theorem step_dispatch (head : α) (rest : List α) :
    step (head :: rest) (.dispatch head) = some (rest ++ [head]) := if_pos rfl

theorem mem_of_step {e : QueueEvent α} (h : step q e = some q') (ha : a ∈ q') : a ∈ q := by
  cases e with
  | dispatch b =>
      obtain ⟨hhead, htail⟩ := Option.ite_none_right_eq_some.mp h
      obtain rfl := Option.some.inj htail
      rcases List.mem_append.mp ha with hrest | hlast
      · exact List.mem_of_mem_tail hrest
      · exact List.mem_singleton.mp hlast ▸ List.mem_of_mem_head? hhead
  | leave b =>
      obtain rfl := Option.some.inj h
      exact List.mem_of_mem_filter ha

theorem mem_of_run {es : List (QueueEvent α)} (h : run step q es = some q') (ha : a ∈ q') :
    a ∈ q := by
  by_contra hnot
  exact invariant_of_run (I := (a ∉ ·)) (fun _ _ _ hs hstep hmem ↦ hs (mem_of_step hstep hmem))
    hnot h ha

theorem length_le_of_run {es : List (QueueEvent α)} (h : run step q es = some q') :
    q'.length ≤ q.length := by
  refine invariant_of_run (I := (List.length · ≤ q.length)) ?_ (le_refl _) h
  intro s e t hs hstep
  cases e with
  | dispatch b =>
      obtain ⟨hhead, htail⟩ := Option.ite_none_right_eq_some.mp hstep
      obtain rfl := Option.some.inj htail
      have hpos : 0 < s.length := List.length_pos_of_mem (List.mem_of_mem_head? hhead)
      rw [List.length_append, List.length_tail, List.length_singleton, Nat.sub_add_cancel hpos]
      exact hs
  | leave b =>
      obtain rfl := Option.some.inj hstep
      exact (List.length_filter_le ..).trans hs

/-- As long as a member is not dispatched, every dispatch takes one of those before it. -/
theorem length_dispatches_le {es : List (QueueEvent α)} {before after : List α}
    (hrun : run step (before ++ a :: after) es = some q') (ha : a ∈ q')
    (hnot : a ∉ dispatches es) : (dispatches es).length ≤ before.length := by
  induction es generalizing before after with
  | nil => exact Nat.zero_le _
  | cons e es ih =>
      obtain ⟨m, hstep, hrest⟩ := (run_cons_eq_some_iff step).mp hrun
      cases e with
      | dispatch b =>
          obtain ⟨hhead, htail⟩ := Option.ite_none_right_eq_some.mp hstep
          obtain rfl := Option.some.inj htail
          rw [dispatches_dispatch] at hnot ⊢
          obtain ⟨hab, hlater⟩ := List.ne_and_not_mem_of_not_mem_cons hnot
          cases before with
          | nil => exact absurd (Option.some.inj hhead) hab
          | cons c before =>
              rw [List.cons_append, List.tail_cons, List.append_assoc, List.cons_append] at hrest
              exact Nat.succ_le_succ (ih hrest hlater)
      | leave b =>
          obtain rfl := Option.some.inj hstep
          have hmem := mem_of_run hrest ha
          have hab : a ≠ b := of_decide_eq_true (List.mem_filter.mp hmem).2
          rw [List.filter_append, List.filter_cons_of_pos (by simpa using hab)] at hrest
          rw [dispatches_leave] at hnot ⊢
          exact (ih hrest hnot).trans (List.length_filter_le ..)

/-- A member that stays waits for fewer dispatches than the queue has members. -/
theorem bounded_waiting {es : List (QueueEvent α)} (hrun : run step q es = some q')
    (ha : a ∈ q') (hlength : q.length ≤ (dispatches es).length) : a ∈ dispatches es := by
  by_contra hnot
  obtain ⟨before, after, rfl⟩ := List.append_of_mem (mem_of_run hrun ha)
  have hle := length_dispatches_le hrun ha hnot
  rw [List.length_append, List.length_cons] at hlength
  omega

end OperatingSystem.ReadyQueue
