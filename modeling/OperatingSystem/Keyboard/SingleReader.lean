import OperatingSystem.Keyboard.KeyPresses

/-!
# One reader

The order of the deliveries. With one process that no signal interrupts the module
delivers a part of what was typed, in its order.
-/

namespace OperatingSystem.Keyboard

open PartialRun

variable {ι : Type*} {s t : Driver ι}

/-- The deliveries follow the presses, of which none is ahead. -/
structure InOrder (s : Driver ι) : Prop where
  slot : s.kbdPress = s.pressed.length
  sorted : s.delivered.Pairwise fun d e ↦ d.press ≤ e.press
  behind : ∀ d ∈ s.delivered, d.press ≤ s.pressed.length

namespace InOrder

theorem loaded : InOrder (loaded ι) where
  slot := rfl
  sorted := .nil
  behind := fun _ hd ↦ absurd hd List.not_mem_nil

theorem press (h : InOrder s) (key : UInt8) : InOrder (s.press key) where
  slot := by rw [Driver.press, List.length_append, List.length_singleton]
  sorted := h.sorted
  behind := fun d hd ↦ by
    rw [Driver.press, List.length_append]
    exact (h.behind d hd).trans (Nat.le_add_right _ _)

theorem deliver (h : InOrder s) (began : ℕ) : InOrder (s.deliver began) where
  slot := h.slot
  sorted := by
    refine List.pairwise_append.mpr ⟨h.sorted, List.pairwise_singleton _ _, fun d hd e he ↦ ?_⟩
    obtain rfl := List.mem_singleton.mp he
    exact (h.behind d hd).trans_eq h.slot.symm
  behind := by
    refine List.forall_mem_append.mpr ⟨h.behind, List.forall_mem_singleton.mpr ?_⟩
    exact h.slot.le

variable [DecidableEq ι]

theorem step (h : InOrder s) {a : Action ι} (hstep : step s a = some t) : InOrder t := by
  have hsame : ∀ {i : ι} {phase : Phase}, InOrder (s.move i phase) ∧ InOrder (s.lower.move i phase) :=
    ⟨⟨h.slot, h.sorted, h.behind⟩, ⟨h.slot, h.sorted, h.behind⟩⟩
  cases a with
  | call i cmd =>
      simp only [Keyboard.step, Option.ite_none_right_eq_some, Option.some.injEq] at hstep
      obtain ⟨-, rfl⟩ := hstep
      exact hsame.1
  | enter i =>
      simp only [Keyboard.step] at hstep
      split at hstep <;> cases hstep
      exact hsame.2
  | wake i signal =>
      simp only [Keyboard.step] at hstep
      split at hstep
      · simp only [Option.ite_none_right_eq_some, Option.some.injEq] at hstep
        obtain ⟨-, rfl⟩ := hstep
        exact hsame.1
      · cases hstep
  | clear i =>
      simp only [Keyboard.step] at hstep
      split at hstep <;> cases hstep
      exact hsame.2
  | load i =>
      simp only [Keyboard.step] at hstep
      split at hstep
      · next began _ =>
        obtain rfl := Option.some.inj hstep
        have hdelivered := h.deliver began
        exact ⟨hdelivered.slot, hdelivered.sorted, hdelivered.behind⟩
      · cases hstep
  | interrupt c =>
      obtain rfl := Option.some.inj hstep
      rw [irGetchar]
      split
      · exact h.press _
      · exact h

end InOrder

/-- The place of the delivered press among all of them. -/
def DeliversPresses.index (h : DeliversPresses s) (d : {d // d ∈ s.delivered}) :
    Fin s.pressed.length :=
  ⟨d.1.press - 1, (List.getElem?_eq_some_iff.mp (h.fresh d.1 d.2).2).1⟩

/-- The keys of presses that are delivered once and in order are a part of what was typed. -/
theorem keys_sublist (h : DeliversPresses s) (horder : InOrder s) :
    (s.delivered.map Delivery.key).Sublist s.pressed := by
  have hstrict : (s.delivered.attach.map Subtype.val).Pairwise fun d e ↦ d.press < e.press := by
    rw [List.attach_map_subtype_val]
    exact (horder.sorted.and h.once).imp fun hde ↦ lt_of_le_of_ne hde.1 hde.2
  have hindex : (s.delivered.attach.map h.index).Pairwise (· < ·) := by
    refine List.pairwise_map.mpr ((List.pairwise_map.mp hstrict).imp fun {d e} hde ↦ ?_)
    have hpos : 0 < d.1.press := Nat.zero_lt_of_lt (h.fresh d.1 d.2).1
    exact Fin.mk_lt_mk.mpr (Nat.sub_lt_sub_right hpos hde)
  have hkeys : (s.delivered.attach.map h.index).map (s.pressed[·]) =
      s.delivered.map Delivery.key := by
    rw [List.map_map, ← List.attach_map_val (f := Delivery.key)]
    refine List.map_congr_left fun d _ ↦ ?_
    exact (List.getElem?_eq_some_iff.mp (h.fresh d.1 d.2).2).2
  exact hkeys ▸ List.map_getElem_sublist hindex

/-! ## No signals -/

def Action.isSignal : Action ι → Bool
  | .wake _ signal => signal
  | _ => false

variable [DecidableEq ι]

/-- Without signals a single process is orderly. -/
theorem orderly_of_subsingleton [Subsingleton ι] {a : Action ι} (hsignal : a.isSignal = false)
    (hstep : step s a = some t) : Orderly s a := by
  cases a with
  | wake i signal =>
      obtain rfl : signal = false := hsignal
      simp only [step] at hstep
      split at hstep
      · next began hphase =>
        rw [Bool.or_false, Option.ite_none_right_eq_some] at hstep
        refine ⟨hstep.1, fun j ↦ ?_⟩
        rw [Subsingleton.elim j i, hphase]
        rfl
      · cases hstep
  | interrupt c =>
      intro _
      by_cases hcleared : ∃ i, (s.callers i).hasCleared = true
      · obtain ⟨i, hi⟩ := hcleared
        right
        intro j
        rw [Subsingleton.elim j i]
        cases hphase : s.callers i with
        | cleared began => rfl
        | _ =>
            rw [hphase] at hi
            exact absurd hi Bool.false_ne_true
      · left
        exact fun i ↦ Bool.eq_false_of_not_eq_true fun hi ↦ hcleared ⟨i, hi⟩
  | _ => trivial

/-- One process that reads without signals gets keys that were typed, each press at most
once and in the order of the presses. -/
theorem single_reader_text [Subsingleton ι] {as : List (Action ι)}
    (hsignal : ∀ a ∈ as, a.isSignal = false) (hrun : run step (loaded ι) as = some s) :
    (s.delivered.map Delivery.key).Sublist s.pressed := by
  have horderly : Along step (fun s a _ ↦ Orderly s a) (loaded ι) as :=
    along_of_mem fun a ha _ _ hstep ↦ orderly_of_subsingleton (hsignal a ha) hstep
  have honce : DeliversPresses s := by
    have hkeep : ∀ (s : Driver ι) (a : Action ι) (t : Driver ι), Sound s → Orderly s a →
        step s a = some t → Sound t := fun _ _ _ hs ha hstep ↦ hs.step ha hstep
    exact (invariant_of_along hkeep sound_loaded horderly hrun).toDeliversPresses
  have horder : InOrder s :=
    invariant_of_run (fun _ _ _ hs hstep ↦ hs.step hstep) InOrder.loaded hrun
  exact keys_sublist honce horder

/-- The keys of `o` and `k` are read, the one between them is lost before the second call. -/
def readerRun : List (Action Unit) :=
  [.call () ioctlChar, .enter (), .interrupt 0x18, .wake () false, .clear (), .load (),
    .interrupt 0x98, .interrupt 0x2d, .call () ioctlChar, .enter (), .interrupt 0x25,
    .wake () false, .interrupt 0xa5, .clear (), .load ()]

theorem single_reader_text_ok : ∃ s, run step (loaded Unit) readerRun = some s ∧
    s.pressed = [111, 120, 107] ∧ s.delivered.map Delivery.key = [111, 107] ∧
      (s.delivered.map Delivery.key).Sublist s.pressed := by
  have hread : (run step (loaded Unit) readerRun).map
      (fun s ↦ (s.pressed, s.delivered.map Delivery.key)) = some ([111, 120, 107], [111, 107]) := by
    decide
  obtain ⟨s, hrun, hs⟩ := Option.map_eq_some_iff.mp hread
  have hsignal : ∀ a ∈ readerRun, a.isSignal = false := by decide
  exact ⟨s, hrun, congrArg Prod.fst hs, congrArg Prod.snd hs, single_reader_text hsignal hrun⟩

end OperatingSystem.Keyboard
