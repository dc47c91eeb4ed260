import Mathlib.Tactic

/-!
# Finite runs of a partial step function

A step function `σ → α → Option σ` is executed along a list of labels. A run
stops as soon as one step is undefined. The module gives the rules by which a
property of all runs is obtained from one step: an invariant, a condition on
the steps of the run, and the comparison of two step properties.
-/

namespace OperatingSystem.PartialRun

variable {σ α : Type*} (step : σ → α → Option σ)

/-- Execute all labels in order. -/
def run (s : σ) : List α → Option σ
  | [] => some s
  | a :: as => (step s a).bind fun t ↦ run t as

/-- Every defined step of the run satisfies `P`, which sees the state before
the step, the label and the state after it. -/
def Along (P : σ → α → σ → Prop) (s : σ) : List α → Prop
  | [] => True
  | a :: as => ∀ t, step s a = some t → P s a t ∧ Along P t as

/-- Every step that the run tries satisfies `P`, an undefined last one as well. -/
def Tried (P : σ → α → Prop) (s : σ) : List α → Prop
  | [] => True
  | a :: as => P s a ∧ ∀ t, step s a = some t → Tried P t as

@[simp] theorem run_nil (s : σ) : run step s [] = some s := rfl

@[simp] theorem run_cons (s : σ) (a : α) (as : List α) :
    run step s (a :: as) = (step s a).bind fun t ↦ run step t as := rfl

theorem run_append (s : σ) (as bs : List α) :
    run step s (as ++ bs) = (run step s as).bind fun t ↦ run step t bs := by
  induction as generalizing s with
  | nil => rfl
  | cons a as ih =>
      rw [List.cons_append, run_cons, run_cons, Option.bind_assoc]
      exact congrArg _ (funext ih)

theorem run_cons_eq_some_iff {s t : σ} {a : α} {as : List α} :
    run step s (a :: as) = some t ↔
      ∃ m, step s a = some m ∧ run step m as = some t := by
  rw [run_cons, Option.bind_eq_some_iff]

theorem run_total (f : σ → α → σ) (s : σ) (as : List α) :
    run (fun t a ↦ some (f t a)) s as = some (as.foldl f s) := by
  induction as generalizing s with
  | nil => rfl
  | cons a as ih => exact ih (f s a)

variable {step}

theorem Along.of_append {P : σ → α → σ → Prop} {s t u : σ} {as bs : List α} {a : α}
    (h : Along step P s (as ++ a :: bs)) (hrun : run step s as = some t)
    (hstep : step t a = some u) : P t a u := by
  induction as generalizing s with
  | nil =>
      obtain rfl : s = t := Option.some.inj hrun
      exact (h u hstep).1
  | cons b as ih =>
      obtain ⟨m, hm, hrest⟩ := (run_cons_eq_some_iff step).mp hrun
      exact ih (h m hm).2 hrest

def check (step : σ → α → Option σ) (test : σ → α → Bool) (s : σ) : List α → Bool
  | [] => true
  | a :: as => test s a && (step s a).all fun t ↦ check step test t as

theorem along_of_check {test : σ → α → Bool} {P : σ → α → σ → Prop}
    (hP : ∀ s a t, test s a = true → P s a t) {s : σ} {as : List α}
    (h : check step test s as = true) : Along step P s as := by
  induction as generalizing s with
  | nil => trivial
  | cons a as ih =>
      intro t ht
      simp only [check, ht, Option.all_some, Bool.and_eq_true] at h
      exact ⟨hP s a t h.1, ih h.2⟩

theorem along_of_mem {P : σ → α → σ → Prop} {s : σ} {as : List α}
    (h : ∀ a ∈ as, ∀ s t, step s a = some t → P s a t) : Along step P s as := by
  induction as generalizing s with
  | nil => trivial
  | cons a as ih =>
      intro t ht
      exact ⟨h a List.mem_cons_self s t ht, ih fun b hb ↦ h b (List.mem_cons_of_mem a hb)⟩

theorem Along.of_invariant {I : σ → Prop} {C P : σ → α → σ → Prop}
    (hkeep : ∀ s a t, I s → C s a t → step s a = some t → I t)
    (hstep : ∀ s a t, I s → C s a t → step s a = some t → P s a t)
    {s : σ} {as : List α} (hs : I s) (h : Along step C s as) :
    Along step P s as := by
  induction as generalizing s with
  | nil => trivial
  | cons a as ih =>
      intro t ht
      have hc := (h t ht).1
      exact ⟨hstep s a t hs hc ht, ih (hkeep s a t hs hc ht) (h t ht).2⟩

/-- The invariant rule: what each permitted step keeps holds at the end of
every run of permitted steps. -/
theorem invariant_of_along {I : σ → Prop} {C : σ → α → σ → Prop}
    (hkeep : ∀ s a t, I s → C s a t → step s a = some t → I t)
    {s t : σ} {as : List α} (hs : I s) (h : Along step C s as)
    (hrun : run step s as = some t) : I t := by
  induction as generalizing s with
  | nil =>
      obtain rfl : s = t := Option.some.inj hrun
      exact hs
  | cons a as ih =>
      obtain ⟨m, hm, hrest⟩ := (run_cons_eq_some_iff step).mp hrun
      exact ih (hkeep s a m hs (h m hm).1 hm) (h m hm).2 hrest

/-- The invariant rule for a property that every step keeps. -/
theorem invariant_of_run {I : σ → Prop} (hkeep : ∀ s a t, I s → step s a = some t → I t)
    {s t : σ} {as : List α} (hs : I s) (hrun : run step s as = some t) : I t := by
  induction as generalizing s with
  | nil =>
      obtain rfl : s = t := Option.some.inj hrun
      exact hs
  | cons a as ih =>
      obtain ⟨m, hm, hrest⟩ := (run_cons_eq_some_iff step).mp hrun
      exact ih (hkeep s a m hs hm) hrest

/-- Two step properties that agree on every step taken from an invariant
state hold along the same runs, provided either one keeps the invariant. -/
theorem along_iff_of_invariant {I : σ → Prop} {P Q : σ → α → σ → Prop}
    (hkeep : ∀ s a t, I s → Q s a t → step s a = some t → I t)
    (hiff : ∀ s a t, I s → step s a = some t → (P s a t ↔ Q s a t))
    {s : σ} (as : List α) (hs : I s) : Along step P s as ↔ Along step Q s as := by
  induction as generalizing s with
  | nil => exact Iff.rfl
  | cons a as ih =>
      constructor
      · intro h t ht
        have hq := (hiff s a t hs ht).mp (h t ht).1
        exact ⟨hq, (ih (hkeep s a t hs hq ht)).mp (h t ht).2⟩
      · intro h t ht
        have hq := (h t ht).1
        exact ⟨(hiff s a t hs ht).mpr hq, (ih (hkeep s a t hs hq ht)).mpr (h t ht).2⟩

theorem tried_of_check {test : σ → α → Bool} {P : σ → α → Prop}
    (hP : ∀ s a, test s a = true → P s a) {s : σ} {as : List α}
    (h : check step test s as = true) : Tried step P s as := by
  induction as generalizing s with
  | nil => trivial
  | cons a as ih =>
      rw [check, Bool.and_eq_true] at h
      refine ⟨hP s a h.1, fun t ht ↦ ih ?_⟩
      rw [ht] at h
      exact h.2

/-- What holds of the tries of a run holds of a step tried after a part of it. -/
theorem Tried.of_append {P : σ → α → Prop} {s t : σ} {as bs : List α} {a : α}
    (h : Tried step P s (as ++ a :: bs)) (hrun : run step s as = some t) : P t a := by
  induction as generalizing s with
  | nil =>
      obtain rfl : s = t := Option.some.inj hrun
      exact h.1
  | cons b as ih =>
      obtain ⟨m, hm, hrest⟩ := (run_cons_eq_some_iff step).mp hrun
      exact ih (h.2 m hm) hrest

theorem tried_congr {P Q : σ → α → Prop} (h : ∀ s a, P s a ↔ Q s a) {s : σ} (as : List α) :
    Tried step P s as ↔ Tried step Q s as := by
  induction as generalizing s with
  | nil => exact Iff.rfl
  | cons a as ih => exact and_congr (h s a) (forall₂_congr fun t _ ↦ ih)

/-- Forward simulation: a run of a specification whose steps satisfy `C` is
followed by a run of the implementation, label for label. -/
theorem exists_run_of_simulation {τ β : Type*} {spec : τ → β → Option τ} {label : β → α}
    {R : σ → τ → Prop} {C : τ → β → τ → Prop}
    (hsim : ∀ s t b u, R s t → spec t b = some u → C t b u →
      ∃ s', step s (label b) = some s' ∧ R s' u)
    {s : σ} {t u : τ} {bs : List β} (hR : R s t) (hC : Along spec C t bs)
    (hrun : run spec t bs = some u) : ∃ s', run step s (bs.map label) = some s' ∧ R s' u := by
  induction bs generalizing s t with
  | nil =>
      obtain rfl : t = u := Option.some.inj hrun
      exact ⟨s, rfl, hR⟩
  | cons b bs ih =>
      obtain ⟨m, hm, hrest⟩ := (run_cons_eq_some_iff spec).mp hrun
      obtain ⟨s₁, hs₁, hR₁⟩ := hsim s t b m hR hm (hC m hm).1
      obtain ⟨s', hs', hR'⟩ := ih hR₁ (hC m hm).2 hrest
      refine ⟨s', ?_, hR'⟩
      rw [List.map_cons, run_cons, hs₁, Option.bind_some, hs']

end OperatingSystem.PartialRun
