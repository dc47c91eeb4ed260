import OperatingSystem.Lib.PartialRun

/-!
# Machines in lockstep

A machine answers a label and goes to its next state, or is undefined. Two machines run in
lockstep on the same labels: they give the same answers and become undefined at the same label.
-/

namespace OperatingSystem.Lockstep

variable {α β γ δ ω σ τ : Type*}

/-! ## Partial results -/

section Rel

variable {P : α → β → Prop} {Q : γ → δ → Prop} {x : Option α} {y : Option β}

theorem rel_bind {f : α → Option γ} {g : β → Option δ} (h : Option.Rel P x y)
    (hfg : ∀ a b, P a b → Option.Rel Q (f a) (g b)) : Option.Rel Q (x.bind f) (y.bind g) := by
  cases h with
  | some hab => exact hfg _ _ hab
  | none => exact .none

/-- The rest may use what the second computation returned. -/
theorem rel_bind_of_eq {f : α → Option γ} {g : β → Option δ} (h : Option.Rel P x y)
    (hfg : ∀ a b, y = some b → P a b → Option.Rel Q (f a) (g b)) :
    Option.Rel Q (x.bind f) (y.bind g) := by
  cases h with
  | some hab => exact hfg _ _ rfl hab
  | none => exact .none

theorem rel_map {f : α → γ} {g : β → δ} (h : Option.Rel P x y)
    (hfg : ∀ a b, P a b → Q (f a) (g b)) : Option.Rel Q (x.map f) (y.map g) := by
  cases h with
  | some hab => exact .some (hfg _ _ hab)
  | none => exact .none

/-- A value that both compute is bound on both sides. -/
theorem rel_bind_same (z : Option α) {f : α → Option γ} {g : α → Option δ}
    (hfg : ∀ a, z = some a → Option.Rel Q (f a) (g a)) :
    Option.Rel Q (z.bind f) (z.bind g) := by
  cases z with
  | none => exact .none
  | some a => exact hfg a rfl

end Rel

/-! ## Runs -/

/-- The answers to the labels, and the state behind the last one. -/
def trace (step : σ → α → Option (ω × σ)) (s : σ) : List α → Option (List ω × σ)
  | [] => some ([], s)
  | a :: as => (step s a).bind fun r ↦ (trace step r.2 as).map fun t ↦ (r.1 :: t.1, t.2)

/-- The same answer in related states, or undefined on both sides. -/
def Agrees (R : σ → τ → Prop) : Option (ω × σ) → Option (ω × τ) → Prop :=
  Option.Rel fun x y ↦ x.1 = y.1 ∧ R x.2 y.2

variable {R : σ → τ → Prop} {step : σ → α → Option (ω × σ)} {step' : τ → α → Option (ω × τ)}

theorem Agrees.map_fst {x : Option (ω × σ)} {y : Option (ω × τ)} (h : Agrees R x y) :
    x.map Prod.fst = y.map Prod.fst := by
  cases h with
  | some hxy => exact congrArg some hxy.1
  | none => rfl

theorem Agrees.imp {S : σ → τ → Prop} {x : Option (ω × σ)} {y : Option (ω × τ)}
    (h : Agrees R x y) (hRS : ∀ s t, R s t → S s t) : Agrees S x y := by
  cases h with
  | some hxy => exact .some ⟨hxy.1, hRS _ _ hxy.2⟩
  | none => exact .none

theorem Agrees.trans {ρ : Type*} {S : τ → ρ → Prop} {x : Option (ω × σ)} {y : Option (ω × τ)}
    {z : Option (ω × ρ)} (h : Agrees R x y) (g : Agrees S y z) :
    Agrees (fun s r ↦ ∃ t, R s t ∧ S t r) x z := by
  cases h with
  | some hxy =>
      cases g with
      | some hyz => exact .some ⟨hxy.1.trans hyz.1, _, hxy.2, hyz.2⟩
  | none =>
      cases g with
      | none => exact .none

theorem trace_agrees (hstep : ∀ s t a, R s t → Agrees R (step s a) (step' t a)) {s : σ} {t : τ}
    (h : R s t) (as : List α) : Agrees R (trace step s as) (trace step' t as) := by
  induction as generalizing s t with
  | nil => exact .some ⟨rfl, h⟩
  | cons a as ih =>
      refine rel_bind (hstep s t a h) fun x y hxy ↦ ?_
      refine rel_map (ih hxy.2) fun u v huv ↦ ⟨?_, huv.2⟩
      rw [hxy.1, huv.1]

/-- Machines whose steps agree under a condition run in lockstep while the steps that the second
tries meet it. -/
theorem trace_agrees_of_tried {C : τ → α → Prop}
    (hstep : ∀ s t a, R s t → C t a → Agrees R (step s a) (step' t a)) {s : σ} {t : τ} (h : R s t)
    {as : List α} (hC : PartialRun.Tried (fun t a ↦ (step' t a).map Prod.snd) C t as) :
    Agrees R (trace step s as) (trace step' t as) := by
  induction as generalizing s t with
  | nil => exact .some ⟨rfl, h⟩
  | cons a as ih =>
      refine rel_bind_of_eq (hstep s t a h hC.1) fun x y hy hxy ↦ ?_
      have hrest := hC.2 y.2 (Option.map_eq_some_iff.mpr ⟨y, hy, rfl⟩)
      refine rel_map (ih hxy.2 hrest) fun u v huv ↦ ⟨?_, huv.2⟩
      rw [hxy.1, huv.1]

end OperatingSystem.Lockstep
