import OperatingSystem.Lib.PartialRun

/-!
# Key presses

The module `KBD_module.c`: the handler of the keyboard interrupt leaves the character of a
press in `KBD_key` and sets `ev_press`, for which every `ioctl` waits. A run is any order
of interrupts, of steps of the callers and of signals.
-/

namespace OperatingSystem.Keyboard

open PartialRun

/-! ## The module -/

def scancode : List UInt8 :=
  [0, 27, 49, 50, 51, 52, 53, 54, 55, 56, 57, 48, 45, 61, 127, 9,
    113, 119, 101, 114, 116, 121, 117, 105, 111, 112, 91, 93, 10, 0, 97, 115,
    100, 102, 103, 104, 106, 107, 108, 59, 39, 96, 0, 92, 122, 120, 99, 118,
    98, 110, 109, 44, 46, 47, 0, 42, 0, 32, 0, 0, 0, 0, 0, 0,
    0, 0, 0, 0, 0, 0, 0, 55, 56, 57, 45, 52, 53, 54, 43, 49,
    50, 51, 48, 46] ++ List.replicate 44 0

/-- `_IOW(0, 6, struct ioctl_KBD)`. -/
def ioctlChar : ℕ := 0x40010006

/-- Where a process stands in `pseudo_device_ioctl`, with the number of the presses before
its call. -/
inductive Phase
  | idle
  | entered (cmd began : ℕ)
  | waiting (began : ℕ)
  | woken (began : ℕ)
  | cleared (began : ℕ)
  deriving DecidableEq

/-- A return of 0: the presses before the call, the number of the press whose key it
delivers, which is 0 if there was none, and the key. -/
structure Delivery where
  began : ℕ
  press : ℕ
  key : UInt8
  deriving DecidableEq

/-- The variables of the module and the processes. Beside them stand the number of the
press that stored `KBD_key`, the keys of all presses and the deliveries. -/
structure Driver (ι : Type*) where
  evPress : Bool
  kbdKey : UInt8
  kbdPress : ℕ
  callers : ι → Phase
  pressed : List UInt8
  delivered : List Delivery

def loaded (ι : Type*) : Driver ι where
  evPress := false
  kbdKey := 0
  kbdPress := 0
  callers := fun _ ↦ .idle
  pressed := []
  delivered := []

inductive Action (ι : Type*)
  | call (i : ι) (cmd : ℕ)
  | enter (i : ι)
  | wake (i : ι) (signal : Bool)
  | clear (i : ι)
  | load (i : ι)
  | interrupt (c : UInt8)

variable {ι : Type*}

def Driver.move [DecidableEq ι] (i : ι) (phase : Phase) (s : Driver ι) : Driver ι :=
  { s with callers := Function.update s.callers i phase }

def Driver.lower (s : Driver ι) : Driver ι := { s with evPress := false }

/-- The key is loaded and returned with 0. -/
def Driver.deliver (began : ℕ) (s : Driver ι) : Driver ι :=
  { s with delivered := s.delivered ++ [⟨began, s.kbdPress, s.kbdKey⟩] }

/-- A press: `KBD_key = key; ev_press = 1`. -/
def Driver.press (key : UInt8) (s : Driver ι) : Driver ι :=
  { s with
    kbdKey := key, evPress := true, kbdPress := s.pressed.length + 1, pressed := s.pressed ++ [key] }

/-- The handler of the interrupt, which nothing interrupts. Codes from 0x80 on are releases. -/
def irGetchar (c : UInt8) (s : Driver ι) : Driver ι :=
  if c &&& 0x80 = 0 then s.press (scancode.getD c.toNat 0) else s

/-- A step of `pseudo_device_ioctl`, or an interrupt. Undefined where the process is
elsewhere or has to wait. -/
def step [DecidableEq ι] (s : Driver ι) : Action ι → Option (Driver ι)
  | .call i cmd =>
      if s.callers i = .idle then some (s.move i (.entered cmd s.pressed.length)) else none
  | .enter i =>
      match s.callers i with
      | .entered cmd began =>
          -- Any other command returns `-EINVAL`.
          some (s.lower.move i (if cmd = ioctlChar then .waiting began else .idle))
      | _ => none
  | .wake i signal =>
      match s.callers i with
      | .waiting began => if s.evPress || signal then some (s.move i (.woken began)) else none
      | _ => none
  | .clear i =>
      match s.callers i with
      | .woken began => some (s.lower.move i (.cleared began))
      | _ => none
  | .load i =>
      match s.callers i with
      | .cleared began =>
          some ((s.deliver began).move i .idle)
      | _ => none
  | .interrupt c => some (irGetchar c s)

/-! ## The law and its condition -/

/-- Every delivery is of the key of a press after the call began, and no two are of the
same press. -/
structure DeliversPresses (s : Driver ι) : Prop where
  fresh : ∀ d ∈ s.delivered, d.began < d.press ∧ s.pressed[d.press - 1]? = some d.key
  once : s.delivered.Pairwise fun d e ↦ d.press ≠ e.press

def Phase.waits : Phase → Bool
  | .waiting _ => true
  | _ => false

def Phase.hasCleared : Phase → Bool
  | .cleared _ => true
  | _ => false

/-- Between the end of the wait and the load of the key. -/
def Phase.isPast : Phase → Bool
  | .woken _ | .cleared _ => true
  | _ => false

/-- A wait ends because of the flag and while no other process is past its own; no press
comes between a process's second clear and its load while another one waits. -/
def Orderly (s : Driver ι) : Action ι → Prop
  | .wake _ _ => s.evPress = true ∧ ∀ j, (s.callers j).isPast = false
  | .interrupt c => c &&& 0x80 = 0 →
      (∀ i, (s.callers i).hasCleared = false) ∨ ∀ j, (s.callers j).waits = false
  | _ => True

/-! ## One step -/

/-- No delivery is of the press whose key is stored. -/
def Unread (s : Driver ι) : Prop := ∀ d ∈ s.delivered, d.press ≠ s.pressed.length

/-- What a process at a place has seen. -/
def Fits (s : Driver ι) : Phase → Prop
  | .idle => True
  | .entered _ began => began ≤ s.pressed.length
  | .waiting began =>
      began ≤ s.pressed.length ∧ (s.evPress = true → began < s.pressed.length ∧ Unread s)
  | .woken began | .cleared began => began < s.pressed.length ∧ Unread s

structure Sound (s : Driver ι) : Prop extends DeliversPresses s where
  slot : s.kbdPress = s.pressed.length
  slotKey : s.pressed ≠ [] → s.pressed.getLast? = some s.kbdKey
  fits : ∀ i, Fits s (s.callers i)
  alone : ∀ i j, (s.callers i).isPast = true → (s.callers j).isPast = true → i = j
  quiet : s.evPress = true → ∀ i j, (s.callers i).hasCleared = true → (s.callers j).waits = false

variable {s t : Driver ι} {i : ι} {began : ℕ}

theorem sound_loaded : Sound (loaded ι) where
  fresh := fun _ hd ↦ absurd hd List.not_mem_nil
  once := .nil
  slot := rfl
  slotKey := fun hne ↦ absurd rfl hne
  fits := fun _ ↦ trivial
  alone := fun _ _ hi ↦ absurd hi Bool.false_ne_true
  quiet := fun hev ↦ absurd hev Bool.false_ne_true

theorem Sound.lower (h : Sound s) : Sound s.lower where
  fresh := h.fresh
  once := h.once
  slot := h.slot
  slotKey := h.slotKey
  fits := by
    intro j
    have hj := h.fits j
    change Fits s.lower (s.callers j)
    cases hphase : s.callers j with
    | waiting began =>
        rw [hphase] at hj
        exact ⟨hj.1, fun hev ↦ absurd hev Bool.false_ne_true⟩
    | _ => rwa [hphase] at hj
  alone := h.alone
  quiet := fun hev ↦ absurd hev Bool.false_ne_true

/-- The delivery of an unread key, when no process is past its wait any more and none
waits for the flag that is set. -/
theorem Sound.deliver (h : Sound s) (hbegan : began < s.pressed.length) (hunread : Unread s)
    (hpast : ∀ j, (s.callers j).isPast = false)
    (hwaits : s.evPress = true → ∀ j, (s.callers j).waits = false) : Sound (s.deliver began) where
  fresh := by
    intro d hd
    rcases List.mem_append.mp hd with hd | hd
    · exact h.fresh d hd
    · obtain rfl := List.mem_singleton.mp hd
      have hne : s.pressed ≠ [] := List.ne_nil_of_length_pos (by omega)
      have hkey := h.slotKey hne
      rw [List.getLast?_eq_getElem?, ← h.slot] at hkey
      exact ⟨h.slot ▸ hbegan, hkey⟩
  once := by
    refine List.pairwise_append.mpr ⟨h.once, List.pairwise_singleton _ _, ?_⟩
    intro d hd e he
    obtain rfl := List.mem_singleton.mp he
    exact h.slot ▸ hunread d hd
  slot := h.slot
  slotKey := h.slotKey
  fits := by
    intro j
    have hj := h.fits j
    have hjpast := hpast j
    have hjwaits := fun hev ↦ hwaits hev j
    change Fits (s.deliver began) (s.callers j)
    cases hphase : s.callers j with
    | idle => trivial
    | entered cmd began =>
        rw [hphase] at hj
        exact hj
    | waiting began =>
        rw [hphase] at hj hjwaits
        exact ⟨hj.1, fun hev ↦ absurd (hjwaits hev).symm Bool.false_ne_true⟩
    | woken began | cleared began =>
        rw [hphase] at hjpast
        exact absurd hjpast.symm Bool.false_ne_true
  alone := h.alone
  quiet := h.quiet

theorem Sound.press (h : Sound s) (key : UInt8)
    (hquiet : (∀ i, (s.callers i).hasCleared = false) ∨ ∀ j, (s.callers j).waits = false) :
    Sound (s.press key) where
  fresh := by
    intro d hd
    obtain ⟨hbegan, hkey⟩ := h.fresh d hd
    have hlt := (List.getElem?_eq_some_iff.mp hkey).1
    exact ⟨hbegan, (List.getElem?_append_left hlt).trans hkey⟩
  once := h.once
  slot := by rw [Driver.press, List.length_append, List.length_singleton]
  slotKey := fun _ ↦ List.getLast?_concat ..
  fits := by
    intro j
    have hunread : Unread (s.press key) := by
      intro d hd
      obtain ⟨hbegan, hkey⟩ := h.fresh d hd
      have hlt := (List.getElem?_eq_some_iff.mp hkey).1
      rw [Driver.press, List.length_append, List.length_singleton]
      omega
    have hlength : (s.press key).pressed.length = s.pressed.length + 1 := List.length_append ..
    have hj := h.fits j
    change Fits (s.press key) (s.callers j)
    cases hphase : s.callers j with
    | idle => trivial
    | entered cmd began =>
        rw [hphase] at hj
        exact hj.trans (hlength ▸ Nat.le_succ _)
    | waiting began =>
        rw [hphase] at hj
        have hlt : began < (s.press key).pressed.length := hlength ▸ Nat.lt_succ_of_le hj.1
        exact ⟨hlt.le, fun _ ↦ ⟨hlt, hunread⟩⟩
    | woken began | cleared began =>
        rw [hphase] at hj
        exact ⟨hj.1.trans (hlength ▸ Nat.lt_succ_self _), hunread⟩
  alone := h.alone
  quiet := by
    intro _ i j hi
    rcases hquiet with hcleared | hwaits
    · exact absurd hi (hcleared i ▸ Bool.false_ne_true)
    · exact hwaits j

variable [DecidableEq ι]

theorem move_callers (s : Driver ι) (i j : ι) (phase : Phase) :
    (s.move i phase).callers j = if j = i then phase else s.callers j :=
  Function.update_apply _ _ _ _

/-- A process moves to a place that fits; nobody else is past the wait if it gets there. -/
theorem Sound.move (h : Sound s) {phase : Phase} (hfits : Fits s phase)
    (halone : phase.isPast = true → ∀ j, j ≠ i → (s.callers j).isPast = false)
    (hquiet : s.evPress = true → phase.hasCleared = false ∧ phase.waits = false) :
    Sound (s.move i phase) where
  fresh := h.fresh
  once := h.once
  slot := h.slot
  slotKey := h.slotKey
  fits := by
    intro j
    rw [move_callers]
    by_cases hj : j = i
    · rw [if_pos hj]
      exact hfits
    · rw [if_neg hj]
      exact h.fits j
  alone := by
    intro j k hj hk
    rw [move_callers] at hj hk
    by_cases hji : j = i <;> by_cases hki : k = i
    · rw [hji, hki]
    · rw [if_pos hji] at hj
      rw [if_neg hki, halone hj k hki] at hk
      exact absurd hk Bool.false_ne_true
    · rw [if_pos hki] at hk
      rw [if_neg hji, halone hk j hji] at hj
      exact absurd hj Bool.false_ne_true
    · rw [if_neg hji] at hj
      rw [if_neg hki] at hk
      exact h.alone j k hj hk
  quiet := by
    intro hev j k hj
    obtain ⟨hcleared, hwaits⟩ := hquiet hev
    rw [move_callers] at hj ⊢
    by_cases hji : j = i
    · rw [if_pos hji, hcleared] at hj
      exact absurd hj Bool.false_ne_true
    · rw [if_neg hji] at hj
      by_cases hki : k = i
      · rw [if_pos hki]
        exact hwaits
      · rw [if_neg hki]
        exact h.quiet hev j k hj

theorem Sound.step (h : Sound s) {a : Action ι} (ha : Orderly s a)
    (hstep : step s a = some t) : Sound t := by
  cases a with
  | call i cmd =>
      simp only [Keyboard.step, Option.ite_none_right_eq_some, Option.some.injEq] at hstep
      obtain ⟨-, rfl⟩ := hstep
      exact h.move (Nat.le_refl _) (fun hpast ↦ absurd hpast Bool.false_ne_true)
        fun _ ↦ ⟨rfl, rfl⟩
  | enter i =>
      have hi := h.fits i
      simp only [Keyboard.step] at hstep
      split at hstep
      · next cmd began hphase =>
        obtain rfl := Option.some.inj hstep
        rw [hphase] at hi
        refine h.lower.move ?_ ?_ fun hev ↦ absurd hev Bool.false_ne_true
        · split
          · exact ⟨hi, fun hev ↦ absurd hev Bool.false_ne_true⟩
          · trivial
        · split
          · exact fun hpast ↦ absurd hpast Bool.false_ne_true
          · exact fun hpast ↦ absurd hpast Bool.false_ne_true
      · cases hstep
  | wake i signal =>
      obtain ⟨hev, hnobody⟩ := ha
      have hi := h.fits i
      simp only [Keyboard.step] at hstep
      split at hstep
      · next began hphase =>
        rw [hev, Bool.true_or, if_pos rfl] at hstep
        obtain rfl := Option.some.inj hstep
        rw [hphase] at hi
        exact h.move (hi.2 hev) (fun _ j _ ↦ hnobody j) fun _ ↦ ⟨rfl, rfl⟩
      · cases hstep
  | clear i =>
      have hi := h.fits i
      simp only [Keyboard.step] at hstep
      split at hstep
      · next began hphase =>
        obtain rfl := Option.some.inj hstep
        rw [hphase] at hi
        refine h.lower.move hi (fun _ j hj ↦ ?_) fun hev ↦ absurd hev Bool.false_ne_true
        by_contra hpast
        exact hj (h.alone j i (Bool.eq_true_of_not_eq_false hpast) (hphase ▸ rfl))
      · cases hstep
  | load i =>
      have hi := h.fits i
      simp only [Keyboard.step] at hstep
      split at hstep
      · next began hphase =>
        obtain rfl := Option.some.inj hstep
        rw [hphase] at hi
        have hidle : Sound (s.move i .idle) :=
          h.move trivial (fun hpast ↦ absurd hpast Bool.false_ne_true) fun _ ↦ ⟨rfl, rfl⟩
        refine hidle.deliver hi.1 hi.2 (fun j ↦ ?_) fun hev j ↦ ?_
        · rw [move_callers]
          split
          · rfl
          · next hj =>
            by_contra hpast
            exact hj (h.alone j i (Bool.eq_true_of_not_eq_false hpast) (hphase ▸ rfl))
        · rw [move_callers]
          split
          · rfl
          · exact h.quiet hev i j (hphase ▸ rfl)
      · cases hstep
  | interrupt c =>
      obtain rfl := Option.some.inj hstep
      rw [irGetchar]
      split
      · next hcode => exact h.press _ (ha hcode)
      · exact h

/-! ## Runs -/

/-- In every run of orderly steps each press is delivered at most once, and nothing else is
delivered. -/
theorem presses_delivered_once {as : List (Action ι)}
    (h : Along step (fun s a _ ↦ Orderly s a) (loaded ι) as)
    (hrun : run step (loaded ι) as = some s) : DeliversPresses s := by
  have hkeep : ∀ (s : Driver ι) (a : Action ι) (t : Driver ι), Sound s → Orderly s a →
      step s a = some t → Sound t := fun _ _ _ hs ha hstep ↦ hs.step ha hstep
  exact (invariant_of_along hkeep sound_loaded h hrun).toDeliversPresses

/-- Two processes wait, the first one gets the key and asks again before the second press. -/
def orderlyRun : List (Action Bool) :=
  [.call false ioctlChar, .enter false, .call true ioctlChar, .enter true, .interrupt 0x1e,
    .wake false false, .clear false, .load false, .interrupt 0x9e, .call false ioctlChar,
    .interrupt 0x30, .wake true false, .clear true, .load true, .enter false]

instance (s : Driver Bool) (a : Action Bool) : Decidable (Orderly s a) :=
  match a with
  | .wake _ _ => inferInstanceAs (Decidable (_ ∧ ∀ j, (s.callers j).isPast = false))
  | .interrupt c => inferInstanceAs (Decidable (c &&& 0x80 = 0 →
      (∀ i, (s.callers i).hasCleared = false) ∨ ∀ j, (s.callers j).waits = false))
  | .call _ _ | .enter _ | .clear _ | .load _ => inferInstanceAs (Decidable True)

theorem presses_delivered_once_orderly : ∃ s, run step (loaded Bool) orderlyRun = some s ∧
    s.delivered = [⟨0, 1, 97⟩, ⟨0, 2, 98⟩] ∧ DeliversPresses s := by
  have hdelivered : (run step (loaded Bool) orderlyRun).map Driver.delivered =
      some [⟨0, 1, 97⟩, ⟨0, 2, 98⟩] := by decide
  obtain ⟨s, hrun, hs⟩ := Option.map_eq_some_iff.mp hdelivered
  have horderly : check step (fun s a ↦ decide (Orderly s a)) (loaded Bool) orderlyRun = true := by
    decide
  exact ⟨s, hrun, hs, presses_delivered_once
    (along_of_check (P := fun s a _ ↦ Orderly s a) (fun _ _ _ ha ↦ of_decide_eq_true ha) horderly)
    hrun⟩

/-! ## Disorderly runs -/

/-- A signal ends the wait before any key is pressed. -/
def signalRun : List (Action Bool) :=
  [.call false ioctlChar, .enter false, .wake false true, .clear false, .load false]

/-- One press ends two waits. -/
def sharedRun : List (Action Bool) :=
  [.call false ioctlChar, .enter false, .call true ioctlChar, .enter true, .interrupt 0x1e,
    .wake false false, .wake true false, .clear false, .load false, .clear true, .load true]

/-- A press between the second clear and the load sets the flag again for the other process. -/
def overtakenRun : List (Action Bool) :=
  [.call false ioctlChar, .enter false, .call true ioctlChar, .enter true, .interrupt 0x1e,
    .wake false false, .clear false, .interrupt 0x30, .load false, .wake true false, .clear true,
    .load true]

/-- None of the three conditions can be left out. -/
theorem press_made_up_or_shared :
    (∃ s, run step (loaded Bool) signalRun = some s ∧ ¬ DeliversPresses s) ∧
      (∃ s, run step (loaded Bool) sharedRun = some s ∧ ¬ DeliversPresses s) ∧
        ∃ s, run step (loaded Bool) overtakenRun = some s ∧ ¬ DeliversPresses s := by
  have hsignal : (run step (loaded Bool) signalRun).map Driver.delivered = some [⟨0, 0, 0⟩] := by
    decide
  have hshared : (run step (loaded Bool) sharedRun).map Driver.delivered =
      some [⟨0, 1, 97⟩, ⟨0, 1, 97⟩] := by decide
  have hovertaken : (run step (loaded Bool) overtakenRun).map Driver.delivered =
      some [⟨0, 2, 98⟩, ⟨0, 2, 98⟩] := by decide
  have htwice : ∀ {s : Driver Bool} {d : Delivery}, s.delivered = [d, d] → ¬ DeliversPresses s := by
    intro s d hs h
    have honce := h.once
    rw [hs, List.pairwise_pair] at honce
    exact honce rfl
  refine ⟨?_, ?_, ?_⟩
  · obtain ⟨s, hrun, hs⟩ := Option.map_eq_some_iff.mp hsignal
    refine ⟨s, hrun, fun h ↦ ?_⟩
    have hfresh := h.fresh ⟨0, 0, 0⟩ (hs ▸ List.mem_singleton_self _)
    exact absurd hfresh.1 (Nat.lt_irrefl 0)
  · obtain ⟨s, hrun, hs⟩ := Option.map_eq_some_iff.mp hshared
    exact ⟨s, hrun, htwice hs⟩
  · obtain ⟨s, hrun, hs⟩ := Option.map_eq_some_iff.mp hovertaken
    exact ⟨s, hrun, htwice hs⟩

end OperatingSystem.Keyboard
