import OperatingSystem.Lib.Lockstep

/-!
# Interleavings

Every label of a run belongs to an owner. Where two steps of different owners commute, a run
depends on the labels of each owner in their order, and not on how they are interleaved.
-/

namespace OperatingSystem.Interleaving

variable {α κ ω σ : Type*} [DecidableEq κ] (owner : α → κ) (step : σ → α → Option (ω × σ))

/-- What each owner is answered in a run, and the state behind it. -/
def outcome (s : σ) : List α → Option ((κ → List ω) × σ)
  | [] => some (fun _ ↦ [], s)
  | a :: as => (step s a).bind fun r ↦ (outcome r.2 as).map fun t ↦
      (Function.update t.1 (owner a) (r.1 :: t.1 (owner a)), t.2)

/-- Two steps in both orders: the same answers and the same state, or both undefined. -/
def Commutes (s : σ) (a b : α) : Prop :=
  ((step s a).bind fun r ↦ (step r.2 b).map fun t ↦ (r.1, t.1, t.2)) =
    (step s b).bind fun r ↦ (step r.2 a).map fun t ↦ (t.1, r.1, t.2)

/-- The labels of one owner, in their order. -/
def project (k : κ) (as : List α) : List α := as.filter fun a ↦ owner a = k

variable {owner step} {I : σ → Prop} {s : σ} {a b : α} {as bs us vs : List α}

theorem project_cons_self : project owner (owner a) (a :: as) = a :: project owner (owner a) as :=
  List.filter_cons_of_pos (decide_eq_true rfl)

theorem project_cons_ne {k : κ} (h : owner a ≠ k) :
    project owner k (a :: as) = project owner k as :=
  List.filter_cons_of_neg fun hk ↦ h (of_decide_eq_true hk)

theorem project_append (k : κ) :
    project owner k (as ++ bs) = project owner k as ++ project owner k bs :=
  List.filter_append as bs

theorem project_eq_nil {k : κ} (h : ∀ a ∈ as, owner a ≠ k) : project owner k as = [] :=
  List.filter_eq_nil_iff.mpr fun a ha hk ↦ h a ha (of_decide_eq_true hk)

theorem project_eq_cons_iff {k : κ} : project owner k bs = a :: as ↔
    ∃ us vs, bs = us ++ a :: vs ∧ (∀ u ∈ us, owner u ≠ k) ∧ owner a = k ∧
      project owner k vs = as := by
  rw [project, List.filter_eq_cons_iff]
  simp [project]

theorem outcome_swap (hne : owner a ≠ owner b) (h : Commutes step s a b) :
    outcome owner step s (a :: b :: as) = outcome owner step s (b :: a :: as) := by
  have hboth : ∀ {c d : α} (_ : owner c ≠ owner d), outcome owner step s (c :: d :: as) =
      ((step s c).bind fun r ↦ (step r.2 d).map fun t ↦ (r.1, t.1, t.2)).bind fun x ↦
        (outcome owner step x.2.2 as).map fun t ↦
          (Function.update (Function.update t.1 (owner d) (x.2.1 :: t.1 (owner d))) (owner c)
            (x.1 :: t.1 (owner c)), t.2) := by
    intro c d hcd
    cases hc : step s c with
    | none => simp [outcome, hc]
    | some r =>
        cases hd : step r.2 d with
        | none => simp [outcome, hc, hd]
        | some t =>
            simp only [outcome, hc, hd, Option.bind_some, Option.map_some, Option.map_map]
            congr 1
            funext x
            simp [Function.update_of_ne hcd]
  rw [hboth hne, hboth hne.symm, h, Option.bind_assoc, Option.bind_assoc]
  congr 1
  funext r
  cases step r.2 a with
  | none => rfl
  | some t =>
      simp only [Option.map_some, Option.bind_some]
      congr 1
      funext x
      rw [Function.update_comm hne]

theorem outcome_move (hcommute : ∀ s, I s → ∀ u ∈ us, Commutes step s u a)
    (hkeep : ∀ s r, I s → ∀ u ∈ us, step s u = some r → I r.2)
    (hne : ∀ u ∈ us, owner u ≠ owner a) (hs : I s) :
    outcome owner step s (us ++ a :: vs) = outcome owner step s (a :: (us ++ vs)) := by
  induction us generalizing s with
  | nil => rfl
  | cons u us ih =>
      have hu : u ∈ u :: us := List.mem_cons_self
      rw [List.cons_append, List.cons_append,
        ← outcome_swap (hne u hu) (hcommute s hs u hu), outcome, outcome]
      cases hstep : step s u with
      | none => rfl
      | some r =>
          rw [Option.bind_some, Option.bind_some, ih
            (fun s hs w hw ↦ hcommute s hs w (List.mem_cons_of_mem u hw))
            (fun s r hs w hw ↦ hkeep s r hs w (List.mem_cons_of_mem u hw))
            (fun w hw ↦ hne w (List.mem_cons_of_mem u hw)) (hkeep s r hs u hu hstep)]

/-- Two interleavings of the same labels of each owner have the same outcome. -/
theorem outcome_eq_of_project {C : α → Prop}
    (hcommute : ∀ s a b, I s → C a → C b → owner a ≠ owner b → Commutes step s a b)
    (hkeep : ∀ s a r, I s → C a → step s a = some r → I r.2)
    (has : ∀ a ∈ as, C a) (hbs : ∀ b ∈ bs, C b)
    (h : ∀ k, project owner k as = project owner k bs) (hs : I s) :
    outcome owner step s as = outcome owner step s bs := by
  induction as generalizing s bs with
  | nil =>
      cases bs with
      | nil => rfl
      | cons b bs =>
          have hb := h (owner b)
          rw [project_cons_self] at hb
          cases hb
  | cons a as ih =>
      have hfirst := (h (owner a)).symm
      rw [project_cons_self, project_eq_cons_iff] at hfirst
      obtain ⟨us, vs, rfl, hus, -, hvs⟩ := hfirst
      have ha : C a := has a List.mem_cons_self
      have hCus : ∀ u ∈ us, C u := fun u hu ↦ hbs u (List.mem_append_left _ hu)
      rw [outcome_move (I := I) (fun s hs u hu ↦ hcommute s u a hs (hCus u hu) ha (hus u hu))
        (fun s r hs u hu ↦ hkeep s u r hs (hCus u hu)) hus hs, outcome, outcome]
      cases hstep : step s a with
      | none => rfl
      | some r =>
          have hrest : ∀ k, project owner k as = project owner k (us ++ vs) := by
            intro k
            have hk := h k
            rw [project_append] at hk ⊢
            by_cases hak : owner a = k
            · subst hak
              rw [project_eq_nil hus, hvs, List.nil_append]
            · rwa [project_cons_ne hak, project_cons_ne hak] at hk
          rw [Option.bind_some, Option.bind_some, ih
            (fun c hc ↦ has c (List.mem_cons_of_mem a hc)) (fun c hc ↦ ?_) hrest
            (hkeep s a r hs ha hstep)]
          rcases List.mem_append.mp hc with hc | hc
          · exact hCus c hc
          · exact hbs c (List.mem_append_right us (List.mem_cons_of_mem a hc))

end OperatingSystem.Interleaving
