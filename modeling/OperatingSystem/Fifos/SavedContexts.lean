import OperatingSystem.Fifos.System

/-!
# Saved contexts under preemption

`scheduler` replaces `currentThread` before `switch_to` saves the old context.
Apart from interrupts after that, every context is saved to the TCB of the stack
it lies on.
-/

namespace OperatingSystem.Fifos

/-- The thread that a value of `currentThread` denotes. -/
def owner (currentThread : BitVec 32) : Option ℕ :=
  if currentThread = -1 then none else some currentThread.toNat

/-- Contexts stay with their threads. -/
structure Separate (n : ℕ) (home : BitVec 32 → Option ℕ) (s : System) : Prop where
  save : ∀ i edi rest, s.control = .scheduler (.save (some i) edi) :: rest →
    home s.esp = some i ∧ home (s.threads.tcbArray i).bp = some i
  current : ∀ next rest, s.control = .scheduler (.temp next) :: rest →
    home s.esp = owner s.threads.currentThread
  kept : ∀ e s', Step n home s e s' → ∀ i < n, (s.threads.tcbArray i).Ready →
    home s.esp ≠ some i →
      (s'.threads.tcbArray i).stackPointer = (s.threads.tcbArray i).stackPointer ∧
        s'.context (s.threads.tcbArray i).stackPointer =
          s.context (s.threads.tcbArray i).stackPointer

/-! ## The invariant -/

variable {n m : ℕ} {home : BitVec 32 → Option ℕ} {s : System}

/-- The activations of a thread that goes on after the next switch to it. A
handler that has not called `scheduler` is not interrupted. -/
inductive Calm : List Frame → Prop where
  | init : Calm [.init]
  | systemFinish : Calm [.systemFinish]
  | function (initial : ℕ) {pc : FunctionAt} (h : pc ≠ .done) (times : ℤ) :
      Calm [.function initial pc times]
  | finish (initial : ℕ) (times : ℤ) :
      Calm [.functionFinish .finished, .function initial .done times]
  | handler (pc : HandlerAt) {control : List Frame} (h : Calm control)
      (hdone : ∀ pc rest, control = .timerInterruptHandler pc :: rest → pc = .done) :
      Calm (.timerInterruptHandler pc :: control)

/-- What is under a call of `scheduler`. -/
structure Resumable (control : List Frame) : Prop where
  calm : Calm control
  done : ∀ pc rest, control = .timerInterruptHandler pc :: rest → pc = .done

/-- The first activation of a thread that finished. It only leads to the next
switch. -/
inductive Finishing : Frame → Prop where
  | assigned : Finishing (.functionFinish .assigned)
  | schedule : Finishing (.functionFinish .schedule)
  | outb : Finishing (.timerInterruptHandler .outb)
  | handlerSchedule : Finishing (.timerInterruptHandler .schedule)

/-- The stack belongs to no thread that is ready. -/
def Threads.Unready (t : Threads) (n : ℕ) (o : Option ℕ) : Prop :=
  ∀ i < n, o = some i → ¬ (t.tcbArray i).Ready

/-- A switch to `next` is possible. -/
def Threads.Chosen (t : Threads) (n : ℕ) (next : BitVec 32) : Prop :=
  next.toNat < n ∧ (t.tcbArray next.toNat).Ready

/-- The values that `scheduler` and `switch_to` hold before the new stack is
loaded, when ESP lies on the stack of `o`. -/
def SchedulerAt.Holds (t : Threads) (n : ℕ) (o : Option ℕ) : SchedulerAt → Prop
  | .search => o = owner t.currentThread
  | .temp next => o = owner t.currentThread ∧ t.Chosen n next
  | .current old next => o = owner t.currentThread ∧ o = owner old ∧ t.Chosen n next
  | .call old next => o = owner old ∧ t.currentThread = next ∧ t.Chosen n next
  | .save esi edi => o = esi ∧ t.currentThread.toNat = edi ∧ t.Chosen n t.currentThread
  | _ => False

/-- Where control is while ESP lies on the stack from which it came. -/
inductive Steady (n : ℕ) (home : BitVec 32 → Option ℕ) (s : System) : Prop where
  | calm (hcalm : Calm s.control) (hon : home s.esp = owner s.threads.currentThread)
      (hif : ∀ pc rest, s.control = .timerInterruptHandler pc :: rest →
        pc = .done ∨ s.interruptFlag = false)
  | finishing {f : Frame} {rest : List Frame} (hcontrol : s.control = f :: rest)
      (hf : Finishing f) (hon : home s.esp = owner s.threads.currentThread)
      (hunready : s.threads.Unready n (home s.esp))
  | scheduler {pc : SchedulerAt} {rest : List Frame} (hcontrol : s.control = .scheduler pc :: rest)
      (hpc : pc.Holds s.threads n (home s.esp))
      (hrest : Resumable rest ∧ s.interruptFlag = false ∨ s.threads.Unready n (home s.esp))
  | restore {pc : SchedulerAt} {rest : List Frame} (hcontrol : s.control = .scheduler pc :: rest)
      (hpc : pc = .ret ∨ ∃ flag, pc = .pops flag) (hrest : Resumable rest)
      (hon : home s.esp = owner s.threads.currentThread)

/-- The context in the TCB of thread `i` lies on its stack, and the thread can go
on from it. -/
structure Valid (home : BitVec 32 → Option ℕ) (s : System) (i : ℕ) : Prop where
  home_eq : home (s.threads.tcbArray i).stackPointer = some i
  resumable : Resumable (s.context (s.threads.tcbArray i).stackPointer).control

/-- Before the new stack is loaded every ready thread has its context. -/
structure Loading (n : ℕ) (home : BitVec 32 → Option ℕ) (s : System) : Prop where
  control : ∃ rest, s.control = .scheduler (.load s.threads.currentThread.toNat) :: rest
  chosen : s.threads.Chosen n s.threads.currentThread
  valid : ∀ i < n, (s.threads.tcbArray i).Ready → Valid home s i

structure Stacks (n m : ℕ) (home : BitVec 32 → Option ℕ) (s : System) : Prop where
  bp : ∀ i < m, home (s.threads.tcbArray i).bp = some i
  ready_lt : ∀ i < n, (s.threads.tcbArray i).Ready → i < m
  home_lt : ∀ i, home s.esp = some i → i < m
  valid : ∀ i < n, (s.threads.tcbArray i).Ready → home s.esp ≠ some i → Valid home s i

theorem Threads.Chosen.owner_eq {t : Threads} (hn : n ≤ 1000) {next : BitVec 32}
    (h : t.Chosen n next) : owner next = some next.toNat := by
  have hlt := h.1
  have hne : next ≠ -1 := by
    rintro rfl
    have htop : (-1 : BitVec 32).toNat = 4294967295 := rfl
    omega
  exact if_neg hne

/-- The search finds a ready thread or nothing. -/
theorem nextThread_chosen {t : Threads} {fuel : ℕ} {i : BitVec 32} (hn : 0 < n) (hle : n ≤ 1000)
    (h : nextThread n t fuel i ≠ infinit) : t.Chosen n (nextThread n t fuel i) := by
  induction fuel generalizing i with
  | zero => exact absurd rfl h
  | succ fuel ih =>
      rw [nextThread] at h ⊢
      by_cases hready : (t.tcbArray ((t.currentThread + i) % BitVec.ofNat 32 n).toNat).Ready
      · simp only [hready, if_true]
        refine ⟨?_, hready⟩
        rw [BitVec.toNat_umod, BitVec.toNat_ofNat, Nat.mod_eq_of_lt (show n < 2 ^ 32 by omega)]
        exact Nat.mod_lt _ hn
      · simp only [hready, if_false] at h ⊢
        exact ih h

theorem Stacks.ownStack {s s' : System} (h : Stacks n m home s) (hown : OwnStack home s s') :
    Stacks n m home s' := by
  obtain ⟨hthreads, -, -, hesp, hcontext⟩ := hown
  refine ⟨?_, ?_, ?_, ?_⟩
  · rw [hthreads]
    exact h.bp
  · rw [hthreads]
    exact h.ready_lt
  · rw [hesp]
    exact h.home_lt
  · rw [hthreads, hesp]
    intro i hi hready hne
    have hvalid := h.valid i hi hready hne
    refine ⟨hthreads ▸ hvalid.home_eq, ?_⟩
    rw [hthreads, hcontext _ (hvalid.home_eq ▸ Ne.symm hne)]
    exact hvalid.resumable

theorem Steady.ownStack {s s' : System} (h : Steady n home s) (hown : OwnStack home s s') :
    Steady n home s' := by
  obtain ⟨hthreads, hflag, hcontrol, hesp, -⟩ := hown
  cases h with
  | calm hcalm hon hif =>
      refine .calm (hcontrol ▸ hcalm) ?_ ?_
      · rw [hesp, hthreads, hon]
      · rw [hcontrol, hflag]
        exact hif
  | finishing hc hf hon hunready =>
      refine .finishing (hcontrol.trans hc) hf ?_ ?_
      · rw [hesp, hthreads, hon]
      · rw [hesp, hthreads]
        exact hunready
  | scheduler hc hpc hrest =>
      refine .scheduler (hcontrol.trans hc) ?_ ?_
      · rw [hesp, hthreads]
        exact hpc
      · rw [hflag, hesp, hthreads]
        exact hrest
  | restore hc hpc hrest hon =>
      refine .restore (hcontrol.trans hc) hpc hrest ?_
      rw [hesp, hthreads, hon]

/-! ## Statements -/

/-- What a statement leaves: ESP, the contexts, and the TCBs up to the marks of
`functionFinish`. -/
structure Marks (s s₁ : System) : Prop where
  esp : s₁.esp = s.esp
  context : s₁.context = s.context
  bp : ∀ i, (s₁.threads.tcbArray i).bp = (s.threads.tcbArray i).bp
  stackPointer : ∀ i, (s₁.threads.tcbArray i).stackPointer = (s.threads.tcbArray i).stackPointer
  ready : ∀ i, (s₁.threads.tcbArray i).Ready → (s.threads.tcbArray i).Ready

theorem Marks.of_threads {s₁ : System} (hesp : s₁.esp = s.esp) (hcontext : s₁.context = s.context)
    (htcbs : s₁.threads.tcbArray = s.threads.tcbArray) : Marks s s₁ := by
  refine ⟨hesp, hcontext, ?_, ?_, ?_⟩ <;> rw [htcbs] <;> intro i
  · rfl
  · rfl
  · exact id

theorem Marks.of_setTCB {s₁ : System} {i : ℕ} {t : TCB} (hesp : s₁.esp = s.esp)
    (hcontext : s₁.context = s.context) (hthreads : s₁.threads = s.threads.setTCB i t)
    (hbp : t.bp = (s.threads.tcbArray i).bp)
    (hpointer : t.stackPointer = (s.threads.tcbArray i).stackPointer) (hready : ¬ t.Ready) :
    Marks s s₁ := by
  refine ⟨hesp, hcontext, ?_, ?_, ?_⟩ <;> rw [hthreads] <;> intro j <;>
    by_cases hj : j = i
  · simp [hj, hbp]
  · simp [hj]
  · simp [hj, hpointer]
  · simp [hj]
  · simp [hj, hready]
  · simp [hj]

theorem Marks.stacks {s₁ : System} (h : Marks s s₁) (hst : Stacks n m home s) :
    Stacks n m home s₁ := by
  refine ⟨?_, ?_, ?_, ?_⟩
  · intro i hi
    rw [h.bp]
    exact hst.bp i hi
  · intro i hi hready
    exact hst.ready_lt i hi (h.ready i hready)
  · rw [h.esp]
    exact hst.home_lt
  · intro i hi hready hne
    rw [h.esp] at hne
    have hvalid := hst.valid i hi (h.ready i hready) hne
    refine ⟨?_, ?_⟩
    · rw [h.stackPointer]
      exact hvalid.home_eq
    · rw [h.stackPointer, h.context]
      exact hvalid.resumable

theorem Marks.unready {s₁ : System} (h : Marks s s₁) {o : Option ℕ}
    (hunready : s.threads.Unready n o) : s₁.threads.Unready n o :=
  fun i hi ho hready ↦ hunready i hi ho (h.ready i hready)

theorem TCB.not_ready_of_finished {t : TCB} (h : t.finished = 1) : ¬ t.Ready := by
  rintro ⟨-, hzero⟩
  rw [h] at hzero
  exact absurd hzero (by decide)

theorem TCB.not_ready_of_unassigned {t : TCB} (h : t.assigned = 0) : ¬ t.Ready := by
  rintro ⟨hone, -⟩
  rw [h] at hone
  exact absurd hone (by decide)

theorem statement_marks {s₁ : System} (h : statement n s = some s₁) : Marks s s₁ := by
  rw [statement] at h
  split at h
  · cases h
  · cases h
    exact .of_threads rfl rfl rfl
  · cases h
    exact .of_threads rfl rfl rfl
  · split at h <;> cases h <;> exact .of_threads rfl rfl rfl
  · dsimp only at h
    split at h
    · split at h <;> cases h
      exact .of_setTCB rfl rfl rfl rfl rfl (TCB.not_ready_of_finished rfl)
    · split at h <;> cases h
      exact .of_setTCB rfl rfl rfl rfl rfl (TCB.not_ready_of_unassigned rfl)
    · cases h
      exact .of_threads rfl rfl rfl
    · cases h
      exact .of_threads rfl rfl rfl
  · split at h <;> cases h <;> exact .of_threads rfl rfl rfl
  · split at h
    · dsimp only at h
      split at h <;> cases h <;> exact .of_threads rfl rfl rfl
    all_goals
      cases h
      try exact .of_threads rfl rfl rfl
  · cases h

theorem handlerReturn_of_calm {control : List Frame} (h : Calm control) :
    handlerReturn control = control := by
  cases h <;> rfl

theorem statement_calm {s₁ : System} (hcalm : Calm s.control)
    (hon : home s.esp = owner s.threads.currentThread)
    (hif : ∀ pc rest, s.control = .timerInterruptHandler pc :: rest →
      pc = .done ∨ s.interruptFlag = false) (hs : statement n s = some s₁) :
    Steady n home s₁ := by
  obtain ⟨threads, context, esp, flag, control⟩ := s
  cases hcalm with
  | init =>
      cases hs
      exact .calm .init hon hif
  | systemFinish =>
      cases hs
      exact .calm .systemFinish hon hif
  | @function initial pc hpc times =>
      have hnext : ∀ (flag : Bool) (pc : FunctionAt) (times : ℤ), pc ≠ .done →
          Steady n home ⟨threads, context, esp, flag, [.function initial pc times]⟩ := by
        intro flag pc times hpc
        exact .calm (.function initial hpc times) hon (nofun)
      cases pc with
      | test =>
          cases hs
          refine hnext _ _ _ ?_
          split <;> decide
      | callFinish =>
          cases hs
          exact .calm (.finish initial times) hon nofun
      | done => exact absurd rfl hpc
      | _ =>
          cases hs
          exact hnext _ _ _ (by decide)
  | finish initial times =>
      dsimp only [statement] at hs
      split at hs
      · next hlt =>
        cases hs
        refine .finishing rfl .assigned hon ?_
        intro i _ hi
        have hcurrent : threads.currentThread.toNat = i := by
          rw [hon, owner] at hi
          split at hi
          · cases hi
          · exact Option.some.inj hi
        rw [← hcurrent, Threads.setTCB_tcbArray, Function.update_self]
        exact TCB.not_ready_of_finished rfl
      · cases hs
  | @handler pc control hcalm hdone =>
      cases pc with
      | outb =>
          cases hs
          refine .calm (.handler _ hcalm hdone) hon ?_
          intro pc rest _
          exact .inr ((hif _ _ rfl).resolve_left (by decide))
      | schedule =>
          cases hs
          refine .scheduler rfl hon (.inl ⟨⟨.handler _ hcalm hdone, ?_⟩, ?_⟩)
          · intro pc rest heq
            cases heq
            rfl
          · exact (hif _ _ rfl).resolve_left (by decide)
      | done =>
          cases hs
          rw [handlerReturn_of_calm hcalm]
          refine .calm hcalm hon ?_
          intro pc rest heq
          exact .inl (hdone pc rest heq)

theorem statement_finishing {s₁ : System} {f : Frame} {rest : List Frame}
    (hcontrol : s.control = f :: rest) (hf : Finishing f)
    (hon : home s.esp = owner s.threads.currentThread)
    (hunready : s.threads.Unready n (home s.esp)) (hs : statement n s = some s₁) :
    Steady n home s₁ := by
  have hmarks := statement_marks hs
  obtain ⟨threads, context, esp, flag, control⟩ := s
  obtain rfl : control = f :: rest := hcontrol
  cases hf with
  | assigned =>
      dsimp only [statement] at hs
      split at hs <;> cases hs
      exact .finishing rfl .schedule hon (hmarks.unready hunready)
  | schedule =>
      cases hs
      exact .scheduler rfl hon (.inr hunready)
  | outb =>
      cases hs
      exact .finishing rfl .handlerSchedule hon hunready
  | handlerSchedule =>
      cases hs
      exact .scheduler rfl hon (.inr hunready)

theorem statement_scheduler (hn : n ≤ 1000) {s₁ : System} {pc : SchedulerAt} {rest : List Frame}
    (hcontrol : s.control = .scheduler pc :: rest) (hpc : pc.Holds s.threads n (home s.esp))
    (hrest : Resumable rest ∧ s.interruptFlag = false ∨ s.threads.Unready n (home s.esp))
    (hs : statement n s = some s₁) : Steady n home s₁ := by
  obtain ⟨threads, context, esp, flag, control⟩ := s
  obtain rfl : control = .scheduler pc :: rest := hcontrol
  cases pc with
  | search =>
      dsimp only [statement] at hs
      split at hs
      · cases hs
        exact .calm .systemFinish hpc nofun
      · next hne =>
        cases hs
        have hpos : 0 < n := by
          apply Nat.pos_of_ne_zero
          rintro rfl
          exact hne rfl
        exact .scheduler rfl ⟨hpc, nextThread_chosen hpos hn hne⟩ hrest
  | temp next =>
      cases hs
      exact .scheduler rfl ⟨hpc.1, hpc.1, hpc.2⟩ hrest
  | current old next =>
      cases hs
      exact .scheduler rfl ⟨hpc.2.1, rfl, hpc.2.2⟩ hrest
  | call old next =>
      cases hs
      obtain ⟨hold, hnext, hchosen⟩ := hpc
      exact .scheduler rfl ⟨hold, congrArg BitVec.toNat hnext, hnext ▸ hchosen⟩ hrest
  | save esi edi => cases hs
  | load edi => cases hs
  | pops flag => cases hpc
  | ret => cases hpc

theorem statement_steady (hn : n ≤ 1000) {s₁ : System} (h : Steady n home s)
    (hs : statement n s = some s₁) : Steady n home s₁ := by
  cases h with
  | calm hcalm hon hif => exact statement_calm hcalm hon hif hs
  | finishing hcontrol hf hon hunready => exact statement_finishing hcontrol hf hon hunready hs
  | scheduler hcontrol hpc hrest => exact statement_scheduler hn hcontrol hpc hrest hs
  | restore hcontrol hpc hrest hon =>
      obtain ⟨threads, context, esp, flag, control⟩ := s
      cases hcontrol
      rcases hpc with rfl | ⟨popped, rfl⟩
      · cases hs
        refine .calm hrest.calm hon ?_
        intro pc rest heq
        exact .inl (hrest.done pc rest heq)
      · cases hs
        exact .restore rfl (.inl rfl) hrest hon

/-! ## Steps -/

/-- The invariant of the runs without an interrupt between the update of
`currentThread` and the end of `switch_to`. -/
structure Orderly (n m : ℕ) (home : BitVec 32 → Option ℕ) (s : System) : Prop where
  tcbs : Stacks n m home s
  place : Steady n home s ∨ Loading n home s

/-- What is known inside `scheduler` and `switch_to`. -/
theorem Orderly.scheduler_cases (h : Orderly n m home s) {pc : SchedulerAt} {rest : List Frame}
    (hcontrol : s.control = .scheduler pc :: rest) :
    (pc.Holds s.threads n (home s.esp) ∧
        (Resumable rest ∧ s.interruptFlag = false ∨ s.threads.Unready n (home s.esp))) ∨
      (pc = .ret ∨ ∃ flag, pc = .pops flag) ∨
      (pc = .load s.threads.currentThread.toNat ∧ Loading n home s) := by
  rcases h.place with hsteady | hloading
  · cases hsteady with
    | calm hcalm =>
        rw [hcontrol] at hcalm
        cases hcalm
    | finishing hc hf =>
        cases hcontrol.symm.trans hc
        cases hf
    | scheduler hc hpc hrest =>
        cases hcontrol.symm.trans hc
        exact .inl ⟨hpc, hrest⟩
    | restore hc hpc =>
        cases hcontrol.symm.trans hc
        exact .inr (.inl hpc)
  · obtain ⟨rest', hc⟩ := hloading.control
    cases hcontrol.symm.trans hc
    exact .inr (.inr ⟨rfl, hloading⟩)

theorem Orderly.save_holds (h : Orderly n m home s) {esi : Option ℕ} {edi : ℕ}
    {rest : List Frame} (hcontrol : s.control = .scheduler (.save esi edi) :: rest) :
    (SchedulerAt.save esi edi).Holds s.threads n (home s.esp) ∧
      (Resumable rest ∨ s.threads.Unready n (home s.esp)) := by
  rcases h.scheduler_cases hcontrol with ⟨hpc, hrest⟩ | (hpc | ⟨flag, hpc⟩) | ⟨hpc, -⟩
  · exact ⟨hpc, hrest.imp_left And.left⟩
  all_goals cases hpc

theorem Orderly.loading (h : Orderly n m home s) {edi : ℕ} {rest : List Frame}
    (hcontrol : s.control = .scheduler (.load edi) :: rest) :
    Loading n home s ∧ s.threads.currentThread.toNat = edi := by
  rcases h.scheduler_cases hcontrol with ⟨hpc, -⟩ | (hpc | ⟨flag, hpc⟩) | ⟨hpc, hloading⟩
  · cases hpc
  · cases hpc
  · cases hpc
  · cases hpc
    exact ⟨hloading, rfl⟩

theorem Orderly.not_lost (h : Orderly n m home s) {rest : List Frame} :
    s.control ≠ .lost :: rest := by
  intro hcontrol
  rcases h.place with hsteady | hloading
  · cases hsteady with
    | calm hcalm =>
        rw [hcontrol] at hcalm
        cases hcalm
    | finishing hc hf =>
        cases hcontrol.symm.trans hc
        cases hf
    | scheduler hc => cases hcontrol.symm.trans hc
    | restore hc => cases hcontrol.symm.trans hc
  · obtain ⟨rest', hc⟩ := hloading.control
    cases hcontrol.symm.trans hc

theorem Orderly.statement (hn : n ≤ 1000) (h : Orderly n m home s) {s₁ s' : System}
    (hs : statement n s = some s₁) (hown : OwnStack home s₁ s') : Orderly n m home s' := by
  refine ⟨((statement_marks hs).stacks h.tcbs).ownStack hown, .inl ?_⟩
  rcases h.place with hsteady | hloading
  · exact (statement_steady hn hsteady hs).ownStack hown
  · obtain ⟨rest, hcontrol⟩ := hloading.control
    rw [Fifos.statement, hcontrol] at hs
    cases hs

theorem Orderly.saveNone (h : Orderly n m home s) {edi : ℕ} {rest : List Frame}
    (hcontrol : s.control = .scheduler (.save none edi) :: rest) :
    Orderly n m home { s with control := .scheduler (.load edi) :: rest } := by
  obtain ⟨⟨hhome, hedi, hchosen⟩, -⟩ := h.save_holds hcontrol
  have hvalid : ∀ i < n, (s.threads.tcbArray i).Ready → Valid home s i := by
    intro i hi hready
    refine h.tcbs.valid i hi hready ?_
    rw [hhome]
    exact (Option.some_ne_none i).symm
  refine ⟨⟨h.tcbs.bp, h.tcbs.ready_lt, h.tcbs.home_lt, ?_⟩, .inr ⟨⟨rest, ?_⟩, hchosen, ?_⟩⟩
  · intro i hi hready _
    exact ⟨(hvalid i hi hready).home_eq, (hvalid i hi hready).resumable⟩
  · rw [hedi]
  · intro i hi hready
    exact ⟨(hvalid i hi hready).home_eq, (hvalid i hi hready).resumable⟩

theorem Orderly.save (h : Orderly n m home s) {i edi : ℕ} {rest : List Frame}
    (hcontrol : s.control = .scheduler (.save (some i) edi) :: rest) {esp : BitVec 32}
    (hesp : home esp = home s.esp) : Orderly n m home (s.saveTo i edi esp rest) := by
  obtain ⟨⟨hhome, hedi, hchosen⟩, hrest⟩ := h.save_holds hcontrol
  have hready : ∀ j, ((s.saveTo i edi esp rest).threads.tcbArray j).Ready →
      (s.threads.tcbArray j).Ready := by
    intro j hj
    by_cases hji : j = i
    · subst hji
      simpa [System.saveTo, TCB.Ready] using hj
    · simpa [System.saveTo, hji] using hj
  have hvalid : ∀ j < n, ((s.saveTo i edi esp rest).threads.tcbArray j).Ready →
      Valid home (s.saveTo i edi esp rest) j := by
    intro j hj hr
    by_cases hji : j = i
    · subst hji
      refine ⟨?_, ?_⟩
      · simpa [System.saveTo] using hesp.trans hhome
      · have hcalm := hrest.resolve_right fun hunready ↦ hunready j hj hhome (hready j hr)
        simpa [System.saveTo] using hcalm
    · have hold := h.tcbs.valid j hj (hready j hr) (by
        rw [hhome]
        exact fun heq ↦ hji (Option.some.inj heq).symm)
      have hne : (s.threads.tcbArray j).stackPointer ≠ esp := by
        rintro heq
        rw [← heq, hold.home_eq, hhome] at hesp
        exact hji (Option.some.inj hesp)
      refine ⟨?_, ?_⟩
      · simpa [System.saveTo, hji] using hold.home_eq
      · simpa [System.saveTo, hji, hne] using hold.resumable
  refine ⟨⟨?_, ?_, ?_, ?_⟩, .inr ⟨⟨rest, ?_⟩, ?_, hvalid⟩⟩
  · intro j hj
    rw [← h.tcbs.bp j hj]
    by_cases hji : j = i
    · subst hji
      simp [System.saveTo]
    · simp [System.saveTo, hji]
  · intro j hj hr
    exact h.tcbs.ready_lt j hj (hready j hr)
  · intro j hj
    exact h.tcbs.home_lt j (hesp.symm.trans hj)
  · intro j hj hr _
    exact hvalid j hj hr
  · rw [← hedi]
    rfl
  · refine ⟨hchosen.1, ?_⟩
    by_cases hji : s.threads.currentThread.toNat = i
    · have hr := hchosen.2
      rw [hji] at hr
      simpa [System.saveTo, hji, TCB.Ready] using hr
    · simpa [System.saveTo, hji] using hchosen.2

theorem Orderly.load (hn : n ≤ 1000) (h : Orderly n m home s) {edi : ℕ} {rest : List Frame}
    (hcontrol : s.control = .scheduler (.load edi) :: rest) :
    Orderly n m home (s.loadFrom edi) := by
  obtain ⟨hloading, rfl⟩ := h.loading hcontrol
  have hchosen := hloading.chosen
  have hvalid := hloading.valid _ hchosen.1 hchosen.2
  refine ⟨⟨h.tcbs.bp, h.tcbs.ready_lt, ?_, ?_⟩, .inl ?_⟩
  · intro i hi
    obtain rfl : s.threads.currentThread.toNat = i :=
      Option.some.inj (hvalid.home_eq.symm.trans hi)
    exact h.tcbs.ready_lt _ hchosen.1 hchosen.2
  · intro i hi hready _
    exact ⟨(hloading.valid i hi hready).home_eq, (hloading.valid i hi hready).resumable⟩
  · refine .restore rfl (.inr ⟨_, rfl⟩) hvalid.resumable ?_
    exact hvalid.home_eq.trans (hchosen.owner_eq hn).symm

theorem Orderly.timer (h : Orderly n m home s) (hif : s.interruptFlag = true)
    (hswitching : ¬ s.Switching) {s' : System}
    (hown : OwnStack home { s with
      interruptFlag := false
      control := .timerInterruptHandler .outb :: s.control } s') : Orderly n m home s' := by
  have htcbs : Stacks n m home { s with
      interruptFlag := false
      control := .timerInterruptHandler .outb :: s.control } := by
    refine ⟨h.tcbs.bp, h.tcbs.ready_lt, h.tcbs.home_lt, ?_⟩
    intro i hi hready hne
    have hvalid := h.tcbs.valid i hi hready hne
    exact ⟨hvalid.home_eq, hvalid.resumable⟩
  refine ⟨htcbs.ownStack hown, .inl (Steady.ownStack ?_ hown)⟩
  rcases h.place with hsteady | hloading
  · cases hsteady with
    | calm hcalm hon hhandler =>
        refine .calm (.handler _ hcalm ?_) hon fun _ _ _ ↦ .inr rfl
        intro pc rest hc
        exact (hhandler pc rest hc).resolve_right (by simp [hif])
    | finishing hc hf hon hunready => exact .finishing rfl .outb hon hunready
    | @scheduler pc rest hc hpc hrest =>
        have hunready := hrest.resolve_left (by simp [hif])
        rw [System.Switching, hc] at hswitching
        cases pc with
        | search => exact .finishing rfl .outb hpc hunready
        | temp next => exact .finishing rfl .outb hpc.1 hunready
        | current old next => exact .finishing rfl .outb hpc.1 hunready
        | _ => exact absurd trivial hswitching
    | restore hc hpc =>
        rw [System.Switching, hc] at hswitching
        rcases hpc with rfl | ⟨flag, rfl⟩ <;> exact absurd trivial hswitching
  · obtain ⟨rest, hc⟩ := hloading.control
    rw [System.Switching, hc] at hswitching
    exact absurd trivial hswitching

theorem Orderly.step (hn : n ≤ 1000) (h : Orderly n m home s) {e : Event} {s' : System}
    (hstep : Step n home s e s') (htimer : e = .timer → ¬ s.Switching) :
    Orderly n m home s' := by
  cases hstep with
  | statement hs hown => exact h.statement hn hs hown
  | saveNone hcontrol => exact h.saveNone hcontrol
  | save hcontrol esp hesp => exact h.save hcontrol hesp
  | load hcontrol => exact h.load hn hcontrol
  | lost hcontrol => exact absurd hcontrol h.not_lost
  | timer hif hown => exact h.timer hif (htimer rfl) hown

/-- In an orderly state contexts stay with their threads. -/
theorem Orderly.separate (h : Orderly n m home s) : Separate n home s := by
  refine ⟨?_, ?_, ?_⟩
  · intro i edi rest hcontrol
    obtain ⟨⟨hhome, -, -⟩, -⟩ := h.save_holds hcontrol
    exact ⟨hhome, h.tcbs.bp i (h.tcbs.home_lt i hhome)⟩
  · intro next rest hcontrol
    rcases h.scheduler_cases hcontrol with ⟨hpc, -⟩ | (hpc | ⟨flag, hpc⟩) | ⟨hpc, -⟩
    · exact hpc.1
    all_goals cases hpc
  · intro e s' hstep i hi hready hne
    have hvalid := h.tcbs.valid i hi hready hne
    have hown : ∀ s₁, OwnStack home s₁ s' → s₁.esp = s.esp → s₁.context = s.context →
        s'.context (s.threads.tcbArray i).stackPointer =
          s.context (s.threads.tcbArray i).stackPointer := by
      intro s₁ hown hesp hcontext
      rw [hown.context _ (by rw [hvalid.home_eq, hesp]; exact Ne.symm hne), hcontext]
    cases hstep with
    | statement hs hstack =>
        have hmarks := statement_marks hs
        refine ⟨?_, hown _ hstack hmarks.esp hmarks.context⟩
        rw [hstack.threads]
        exact hmarks.stackPointer i
    | saveNone hcontrol => exact ⟨rfl, rfl⟩
    | @save j edi rest hcontrol esp hesp =>
        obtain ⟨⟨hhome, -, -⟩, -⟩ := h.save_holds hcontrol
        have hij : i ≠ j := by
          rintro rfl
          exact hne hhome
        have hpointer : (s.threads.tcbArray i).stackPointer ≠ esp := by
          rintro heq
          rw [← heq, hvalid.home_eq] at hesp
          exact hne hesp.symm
        simp [System.saveTo, hij, hpointer]
    | load hcontrol => exact ⟨rfl, rfl⟩
    | lost hcontrol => exact absurd hcontrol h.not_lost
    | timer hif hstack =>
        refine ⟨?_, hown _ hstack rfl rfl⟩
        rw [hstack.threads]

/-! ## Runs without a late interrupt -/

theorem Loaded.orderly {functions : List (BitVec 32 × BitVec 32)}
    (h : Loaded n home functions s) : Orderly n (min functions.length n) home s := by
  obtain ⟨tcbArray, mem, hthreads⟩ := h.threads
  have hinit := Created.init n tcbArray mem
  have hcreated := hinit.creates 0x202 functions
  have htcb : ∀ i < min functions.length n, ∃ f, functions[i]? = some f ∧
      (s.threads.tcbArray i).bp = f.2 ∧ (s.threads.tcbArray i).stackPointer = f.2 - 44 := by
    intro i hi
    have hlen : i < functions.length := by omega
    have hslot := hinit.tcbArray_creates 0x202 functions (List.getElem?_eq_getElem hlen)
      (by omega)
    rw [Nat.zero_add] at hslot
    rw [hthreads]
    exact ⟨_, List.getElem?_eq_getElem hlen, hslot⟩
  have hready : ∀ i < n, (s.threads.tcbArray i).Ready → i < min functions.length n := by
    intro i hi hr
    by_contra hge
    have hzero := hcreated.unassigned i (by omega) hi
    rw [hthreads] at hr
    exact TCB.not_ready_of_unassigned hzero hr
  have hon : home s.esp = owner s.threads.currentThread := by
    have hcurrent : s.threads.currentThread = -1 := by
      rw [hthreads]
      exact hcreated.currentThread
    rw [h.esp, hcurrent]
    rfl
  refine ⟨⟨?_, hready, ?_, ?_⟩, .inl (.calm ?_ hon ?_)⟩
  · intro i hi
    obtain ⟨f, hf, hbp, -⟩ := htcb i hi
    rw [hbp]
    exact (h.ownStack i f hf).1
  · intro i hi
    rw [h.esp] at hi
    cases hi
  · intro i hi hr _
    obtain ⟨f, hf, -, hpointer⟩ := htcb i (hready i hi hr)
    obtain ⟨initial, hcontext⟩ := h.context f (List.mem_of_getElem? hf)
    refine ⟨?_, ?_⟩
    · rw [hpointer]
      exact (h.ownStack i f hf).2
    · rw [hpointer, hcontext]
      exact ⟨.function initial (by decide) initial, nofun⟩
  · rw [h.control]
    exact .init
  · rw [h.control]
    exact nofun

theorem SystemRun.orderly (hn : n ≤ 1000) {functions : List (BitVec 32 × BitVec 32)}
    {trace : List (System × Event)} (h : SystemRun n home functions trace s)
    (htimer : ∀ p ∈ trace, p.2 = .timer → ¬ p.1.Switching) :
    Orderly n (min functions.length n) home s := by
  induction h with
  | start hloaded => exact hloaded.orderly
  | @step trace s s' e _ hstep ih =>
      have hbefore := ih fun p hp ↦ htimer p (List.mem_append_left _ hp)
      exact hbefore.step hn hstep (htimer (s, e) (List.mem_append_right _ List.mem_cons_self))

/-- As long as no timer interrupt arrives between the update of `currentThread`
and the end of `switch_to`, every context stays with its own thread. -/
theorem contexts_separate (hn : n ≤ 1000) {functions : List (BitVec 32 × BitVec 32)}
    {trace : List (System × Event)} (h : SystemRun n home functions trace s)
    (htimer : ∀ p ∈ trace, p.2 = .timer → ¬ p.1.Switching) : Separate n home s :=
  (h.orderly hn htimer).separate

/-! ## The three threads -/

/-- The functions and stacks of `createThreads`. -/
def createThreads : List (BitVec 32 × BitVec 32) :=
  [(0x100100, 0x2FFC), (0x100200, 0x3FFC), (0x100300, 0x4FFC)]

def threadStacks (a : BitVec 32) : Option ℕ :=
  if 0x2000 ≤ a ∧ a < 0x3000 then some 0
  else if 0x3000 ≤ a ∧ a < 0x4000 then some 1
  else if 0x4000 ≤ a ∧ a < 0x5000 then some 2
  else none

def loadedSystem : System where
  threads := createdThreads threadCreatePreemptive 3 (fun _ ↦ ⟨0, 0, 0, 0, 0, 0, 0⟩) (fun _ ↦ 0)
    createThreads
  context := fun a ↦
    if a = 0x2FFC - 44 then ⟨[.function 3 .test 3], true⟩
    else if a = 0x3FFC - 44 then ⟨[.function 4 .test 4], true⟩
    else ⟨[.function 5 .test 5], true⟩
  esp := 0x6000
  interruptFlag := true
  control := [.init]

theorem loaded_loadedSystem : Loaded 3 threadStacks createThreads loadedSystem := by
  refine ⟨⟨_, _, rfl⟩, ?_, ?_, by decide, rfl, rfl⟩
  · rintro (_ | _ | _ | i) f hf <;> cases hf <;> decide
  · intro f hf
    have hcases : f = (0x100100, 0x2FFC) ∨ f = (0x100200, 0x3FFC) ∨ f = (0x100300, 0x4FFC) := by
      simpa [createThreads] using hf
    rcases hcases with rfl | rfl | rfl
    · exact ⟨3, by decide⟩
    · exact ⟨4, by decide⟩
    · exact ⟨5, by decide⟩

def twoSwitches : List Event := (List.replicate 2 (.timer :: List.replicate 10 .code)).flatten

/-- The second switch saves the context of the first thread and starts the second one. -/
theorem contexts_separate_three : ∃ trace s, SystemRun 3 threadStacks createThreads trace s ∧
    (∃ p ∈ trace, p.1.control.head? = some (.scheduler (.save (some 0) 1))) ∧
      s.control = [.function 4 .test 4] ∧ Separate 3 threadStacks s := by
  have hsecond : (executeAll 3 twoSwitches loadedSystem).map (fun s ↦ s.control) =
      some [.function 4 .test 4] := by decide +kernel
  obtain ⟨s, hexec, hcontrol⟩ := Option.map_eq_some_iff.mp hsecond
  have hrun := (SystemRun.start loaded_loadedSystem).executeTrace hexec
  have hsaved : ∃ p ∈ Fifos.executeTrace 3 twoSwitches loadedSystem,
      p.1.control.head? = some (.scheduler (.save (some 0) 1)) := by decide +kernel
  have htimer : ∀ p ∈ Fifos.executeTrace 3 twoSwitches loadedSystem,
      p.2 = .timer → ¬ p.1.Switching := by decide +kernel
  exact ⟨_, s, hrun, hsaved, hcontrol, contexts_separate (by decide) hrun htimer⟩

/-- The first thread finishes and calls `scheduler` with interrupts enabled; the
timer interrupts it after `currentThread = nextThread`. -/
def lateInterrupt : List Event :=
  .timer :: List.replicate 37 .code ++ .timer :: List.replicate 6 .code

theorem executeAll_lateInterrupt :
    (executeAll 3 lateInterrupt loadedSystem).map
        (fun s ↦ (s.control.head?, threadStacks s.esp)) =
      some (some (.scheduler (.save (some 1) 2)), some 0) := by
  decide +kernel

/-- The context of the first thread is about to be saved to the second TCB. -/
theorem contexts_not_separate : ∃ trace s, SystemRun 3 threadStacks createThreads trace s ∧
    ¬ Separate 3 threadStacks s := by
  obtain ⟨s, hexec, hs⟩ := Option.map_eq_some_iff.mp executeAll_lateInterrupt
  refine ⟨_, s, (SystemRun.start loaded_loadedSystem).executeTrace hexec, ?_⟩
  intro hseparate
  obtain ⟨hhead, hhome⟩ := Prod.ext_iff.mp hs
  obtain ⟨rest, hcontrol⟩ := List.head?_eq_some_iff.mp hhead
  cases hhome.symm.trans (hseparate.save 1 2 rest hcontrol).1

end OperatingSystem.Fifos
