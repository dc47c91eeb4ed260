import OperatingSystem.Fifos.InterruptHandler

/-!
# Preemption in FIFOS-2

The handler that `initPIT` installs is a C function. The processor pushes EFLAGS,
CS and EIP, but the near `ret` of the function pops EIP only.
-/

namespace OperatingSystem.Fifos

open I386 ByteMemory

/-! ## Runs -/

/-- An interrupted instruction, and the machine when execution came back to
it. -/
structure Resumption where
  interrupted : Cpu
  resumed : Machine

/-- The interrupted code cannot tell that it was interrupted. -/
def Resumption.Transparent (p : Resumption) : Prop :=
  Restores p.interrupted p.interrupted.eflags p.resumed

/-- The runs of the processor with a table of interrupts, with the interrupted
instructions to which the handler has not returned and the resumptions so far. The
code of the threads and the kernel between two interrupts may do anything, and the
way back is that of the code behind entry 32. -/
inductive Run (handlers : Handlers) (d : Devices) :
    Machine → List Cpu → List Resumption → Prop where
  | start (m : Machine) : Run handlers d m [] []
  | code {m : Machine} {pending : List Cpu} {rs : List Resumption}
      (h : Run handlers d m pending rs) (m' : Machine) : Run handlers d m' pending rs
  | timer {m : Machine} {pending : List Cpu} {rs : List Resumption}
      (h : Run handlers d m pending rs) (hif : m.eflags.interruptEnabled = true) :
      Run handlers d (timerInterrupt d m) (m.toCpu :: pending) rs
  | handlerReturn {m m' : Machine} {before after : List Cpu} {c : Cpu} {rs : List Resumption}
      (h : Run handlers d m (before ++ c :: after) rs)
      (hreturn : HandlerReturn handlers d c m m') (hback : m'.eip = c.eip) :
      Run handlers d m' (before ++ after) (rs ++ [⟨c, m'⟩])

section Function

variable {handlers : Handlers} {d : Devices} {m : Machine} {pending : List Cpu}
  {rs : List Resumption}

theorem Run.resumed (h : Run handlers d m pending rs)
    (haddr : (d.idt 32).address = handlers.timerInterruptHandler) {p : Resumption}
    (hp : p ∈ rs) :
    p.resumed.eip = p.interrupted.eip ∧ p.resumed.reg .esp = p.interrupted.reg .esp - 8 := by
  induction h with
  | start m => cases hp
  | code _ m' ih => exact ih hp
  | timer _ _ ih => exact ih hp
  | handlerReturn _ hreturn hback ih =>
      rcases List.mem_append.mp hp with hp | hp
      · exact ih hp
      · obtain rfl := List.mem_singleton.mp hp
        obtain ⟨hat, rfl⟩ := hreturn.eq_ret haddr
        exact ⟨hback, hat.esp_ret⟩

theorem Run.not_transparent (h : Run handlers d m pending rs)
    (haddr : (d.idt 32).address = handlers.timerInterruptHandler) {p : Resumption}
    (hp : p ∈ rs) : ¬ p.Transparent := by
  intro htransparent
  have hesp := htransparent.reg .esp
  rw [(h.resumed haddr hp).2] at hesp
  bv_omega

end Function

/-- With the table that `initPIT` leaves, preemption is transparent in a run if and
only if no interrupted instruction is ever resumed. Every resumption leaves eight
bytes on the stack. -/
theorem preemption_transparent_iff (handlers : Handlers) (d : Devices) {m : Machine}
    {pending : List Cpu} {rs : List Resumption}
    (h : Run handlers (initPIT handlers.timerInterruptHandler d).2 m pending rs) :
    ((∀ p ∈ rs, p.Transparent) ↔ rs = []) ∧
      ∀ p ∈ rs, p.resumed.eip = p.interrupted.eip ∧
        p.resumed.reg .esp = p.interrupted.reg .esp - 8 := by
  have haddr := initPIT_address handlers.timerInterruptHandler d
  refine ⟨⟨?_, ?_⟩, fun p hp ↦ h.resumed haddr hp⟩
  · intro htransparent
    apply List.eq_nil_iff_forall_not_mem.mpr
    intro p hp
    exact h.not_transparent haddr hp (htransparent p hp)
  · rintro rfl p hp
    cases hp

/-! ## Threads that keep to their stacks -/

/-- The switches between threads, and the interrupted instructions on each stack
to which the handler has not returned. -/
structure Preemption (T : Type) where
  switching : SwitchState T
  interrupted : Option T → List Cpu

variable {T : Type} {L : Layout T}

/-- Code on the running stack. As long as a handler is active it keeps what the
processor pushed, stays below it, and executes neither `cli` nor `sti`. -/
structure HandlerCode (L : Layout T) (running : Option T) (active : List Cpu)
    (m m' : Machine) : Prop where
  own : OwnCode L running m m'
  kept : ∀ c ∈ active, ∀ x, (c.reg .esp).toNat ≤ x + 12 → x < L.high running → m'.mem x = m.mem x
  below : ∀ c ∈ active, (m'.reg .esp).toNat + 12 ≤ (c.reg .esp).toNat
  enabled : active ≠ [] → m'.eflags.interruptEnabled = m.eflags.interruptEnabled

section Ghost

variable [DecidableEq T]

/-- The runs in which `switch_to` saves to the TCB of the running thread. -/
inductive KernelRun (L : Layout T) (handlers : Handlers) (d : Devices) :
    Preemption T → List Resumption → Prop where
  | start (m : Machine) (running : Option T) :
      KernelRun L handlers d ⟨⟨m, running, fun _ ↦ none⟩, fun _ ↦ []⟩ []
  | own {s : Preemption T} {rs : List Resumption} {m : Machine} (h : KernelRun L handlers d s rs)
      (hown : HandlerCode L s.switching.running (s.interrupted s.switching.running)
        s.switching.machine m) :
      KernelRun L handlers d ⟨{ s.switching with machine := m }, s.interrupted⟩ rs
  | switch {s : Preemption T} {rs : List Resumption} {save : Option T} {restore : T}
      (h : KernelRun L handlers d s rs) (hswitch : CanSwitch L s.switching save restore)
      (hsave : s.switching.running = save) (next : BitVec 32) (af : Bool) :
      KernelRun L handlers d ⟨s.switching.switch L save restore next af, s.interrupted⟩ rs
  | timer {s : Preemption T} {rs : List Resumption} (h : KernelRun L handlers d s rs)
      (hif : s.switching.machine.eflags.interruptEnabled = true)
      (hroom : L.low s.switching.running + 12 ≤ (s.switching.machine.reg .esp).toNat)
      (hinside : (s.switching.machine.reg .esp).toNat ≤ L.high s.switching.running) :
      KernelRun L handlers d ⟨{ s.switching with machine := timerInterrupt d s.switching.machine },
        Function.update s.interrupted s.switching.running
          (s.switching.machine.toCpu :: s.interrupted s.switching.running)⟩ rs
  | handlerReturn {s : Preemption T} {rs : List Resumption} {c : Cpu} {cs : List Cpu}
      {m : Machine} (h : KernelRun L handlers d s rs)
      (hactive : s.interrupted s.switching.running = c :: cs)
      (hreturn : HandlerReturn handlers d c s.switching.machine m) :
      KernelRun L handlers d ⟨{ s.switching with machine := m },
        Function.update s.interrupted s.switching.running cs⟩ (rs ++ [⟨c, m⟩])

end Ghost

/-- What the processor pushed is still on the stack. -/
structure InterruptFrame (L : Layout T) (mem : ℕ → UInt8) (o : Option T) (c : Cpu) : Prop where
  room : L.low o + 12 ≤ (c.reg .esp).toNat
  inside : (c.reg .esp).toNat ≤ L.high o
  bytes : readBytes mem (c.reg .esp - 12).toNat 12 = Machine.interruptBytes c

/-- What holds throughout the runs of threads that keep to their stacks. -/
structure Kept (L : Layout T) (s : Preemption T) : Prop where
  frames : FramesSaved L s.switching
  intact : ∀ o, ∀ c ∈ s.interrupted o, InterruptFrame L s.switching.machine.mem o c
  enabled : ∀ o, ∀ c ∈ s.interrupted o, c.eflags.interruptEnabled = true
  single : ∀ o, (s.interrupted o).length ≤ 1
  active : ∀ c ∈ s.interrupted s.switching.running,
    s.switching.machine.eflags.interruptEnabled = false ∧
      (s.switching.machine.reg .esp).toNat + 12 ≤ (c.reg .esp).toNat
  suspended : ∀ t, ∀ c ∈ s.interrupted (some t), s.switching.running ≠ some t →
    ∃ u, s.switching.suspended t = some u ∧ u.cpu.eflags.interruptEnabled = false ∧
      (u.cpu.reg .esp).toNat + 12 ≤ (c.reg .esp).toNat

theorem InterruptFrame.congr {mem mem' : ℕ → UInt8} {o : Option T} {c : Cpu}
    (h : InterruptFrame L mem o c)
    (hmem : ∀ x, (c.reg .esp).toNat ≤ x + 12 → x < (c.reg .esp).toNat → mem' x = mem x) :
    InterruptFrame L mem' o c := by
  have hroom := h.room
  have haddr : (c.reg .esp - 12).toNat = (c.reg .esp).toNat - 12 := by bv_omega
  refine ⟨h.room, h.inside, ?_⟩
  rw [← h.bytes]
  apply readBytes_congr
  intro k hk
  apply hmem <;> omega

theorem mem_update_iff [DecidableEq T] {f : Option T → List Cpu} {o o' : Option T} {cs : List Cpu}
    {c : Cpu} :
    c ∈ Function.update f o cs o' ↔ (o' = o ∧ c ∈ cs) ∨ (o' ≠ o ∧ c ∈ f o') := by
  by_cases ho : o' = o
  · subst ho
    simp
  · simp [ho]

theorem length_update_le [DecidableEq T] {f : Option T → List Cpu} {o : Option T} {cs : List Cpu}
    (h : ∀ o', (f o').length ≤ 1) (hcs : cs.length ≤ 1) (o' : Option T) :
    (Function.update f o cs o').length ≤ 1 := by
  by_cases ho : o' = o
  · subst ho
    rw [Function.update_self]
    exact hcs
  · rw [Function.update_of_ne ho]
    exact h o'

namespace Kept

variable {s : Preemption T}

theorem own (h : Kept L s) {m : Machine}
    (hown : HandlerCode L s.switching.running (s.interrupted s.switching.running)
      s.switching.machine m) :
    Kept L ⟨{ s.switching with machine := m }, s.interrupted⟩ := by
  refine ⟨h.frames.own hown.own, ?_, h.enabled, h.single, ?_, h.suspended⟩
  · intro o c hc
    apply (h.intact o c hc).congr
    intro x hlow hhigh
    have hroom := (h.intact o c hc).room
    have hinside := (h.intact o c hc).inside
    by_cases ho : o = s.switching.running
    · subst ho
      exact hown.kept c hc x hlow (by omega)
    · exact hown.own.otherStacks o ho x (by omega) (by omega)
  · intro c hc
    exact ⟨(hown.enabled (List.ne_nil_of_mem hc)).trans (h.active c hc).1, hown.below c hc⟩

/-- A handler that is active keeps the timer from interrupting. -/
theorem interrupted_eq_nil (h : Kept L s)
    (hif : s.switching.machine.eflags.interruptEnabled = true) :
    s.interrupted s.switching.running = [] := by
  apply List.eq_nil_iff_forall_not_mem.mpr
  intro c hc
  exact Bool.false_ne_true ((h.active c hc).1.symm.trans hif)

theorem eq_nil_of_active (h : Kept L s) {c : Cpu} {cs : List Cpu}
    (hactive : s.interrupted s.switching.running = c :: cs) : cs = [] := by
  have hsingle := h.single s.switching.running
  rw [hactive, List.length_cons] at hsingle
  exact List.length_eq_zero_iff.mp (by omega)

/-- Instructions on different stacks were not interrupted with one ESP. -/
theorem eq_of_mem (h : Kept L s) {o o' : Option T} {c : Cpu} (hc : c ∈ s.interrupted o)
    (hc' : c ∈ s.interrupted o') : o = o' := by
  by_contra hne
  have hroom := (h.intact o c hc).room
  have hinside := (h.intact o c hc).inside
  have hroom' := (h.intact o' c hc').room
  have hinside' := (h.intact o' c hc').inside
  have hstacks := L.stacks_disjoint o o' hne
  omega

variable [DecidableEq T]

theorem timer (h : Kept L s) {d : Devices}
    (hif : s.switching.machine.eflags.interruptEnabled = true)
    (hroom : L.low s.switching.running + 12 ≤ (s.switching.machine.reg .esp).toNat)
    (hinside : (s.switching.machine.reg .esp).toNat ≤ L.high s.switching.running) :
    Kept L ⟨{ s.switching with machine := timerInterrupt d s.switching.machine },
      Function.update s.interrupted s.switching.running
        (s.switching.machine.toCpu :: s.interrupted s.switching.running)⟩ := by
  set m := s.switching.machine with hm
  have hnil := h.interrupted_eq_nil hif
  have heq : timerInterrupt d m = _ := Machine.interrupt_eq (by omega)
  have hlen := Machine.length_interruptBytes m.toCpu
  have haddr : (m.reg .esp - 12).toNat = (m.reg .esp).toNat - 12 := by bv_omega
  have hmem : (timerInterrupt d m).mem =
      writeBytes m.mem (m.reg .esp - 12).toNat (Machine.interruptBytes m.toCpu) := by
    rw [heq]
    exact congrArg (fun n ↦ writeBytes m.mem (m.reg .esp - BitVec.ofNat 32 n).toNat _) hlen
  have hesp : (timerInterrupt d m).reg .esp = m.reg .esp - 12 := by
    rw [heq]
    exact (m.esp_push _).trans (congrArg (fun n ↦ m.reg .esp - BitVec.ofNat 32 n) hlen)
  have hflags : (timerInterrupt d m).eflags = m.eflags.enterGate := by
    rw [heq]
  rw [hnil]
  have hcases : ∀ o c, c ∈ Function.update s.interrupted s.switching.running [m.toCpu] o →
      (o = s.switching.running ∧ c = m.toCpu) ∨
        (o ≠ s.switching.running ∧ c ∈ s.interrupted o) := by
    intro o c hc
    exact (mem_update_iff.mp hc).imp_left fun hnew ↦ ⟨hnew.1, List.mem_singleton.mp hnew.2⟩
  refine ⟨⟨h.frames.not_running, ?_⟩, ?_, ?_, ?_, ?_, ?_⟩
  · intro t u hu
    change SavedFrame L (timerInterrupt d m).mem t u
    rw [hmem]
    exact h.frames.writes hu _ _ (by omega) (by omega)
  · intro o c hc
    change InterruptFrame L (timerInterrupt d m).mem o c
    rw [hmem]
    rcases hcases o c hc with ⟨rfl, rfl⟩ | ⟨ho, hc⟩
    · refine ⟨hroom, hinside, ?_⟩
      have hread := readBytes_writeBytes m.mem (m.reg .esp - 12).toNat
        (Machine.interruptBytes m.toCpu)
      rw [hlen] at hread
      exact hread
    · have hframe := h.intact o c hc
      have hstacks := L.stacks_disjoint o s.switching.running ho
      have hroom' := hframe.room
      have hinside' := hframe.inside
      apply hframe.congr
      intro x _ _
      apply writeBytes_of_disjoint
      omega
  · intro o c hc
    rcases hcases o c hc with ⟨-, rfl⟩ | ⟨-, hc⟩
    · exact hif
    · exact h.enabled o c hc
  · exact length_update_le h.single (le_refl 1)
  · intro c hc
    rcases hcases _ c hc with ⟨-, rfl⟩ | ⟨ho, -⟩
    · change (timerInterrupt d m).eflags.interruptEnabled = false ∧
        ((timerInterrupt d m).reg .esp).toNat + 12 ≤ (m.reg .esp).toNat
      rw [hflags, hesp]
      exact ⟨Eflags.interruptEnabled_enterGate _, by omega⟩
    · exact absurd rfl ho
  · intro t c hc hrun
    rcases hcases _ c hc with ⟨ho, -⟩ | ⟨-, hc⟩
    · exact absurd ho.symm hrun
    · exact h.suspended t c hc hrun

/-- A thread with an active handler is suspended once its context was saved. -/
theorem saving (h : Kept L s) {save : Option T} (hsave : s.switching.running = save)
    (next : BitVec 32) (af : Bool) {t : T} {c : Cpu} (hc : c ∈ s.interrupted (some t)) :
    ∃ u, s.switching.saving save next af t = some u ∧ u.cpu.eflags.interruptEnabled = false ∧
      (u.cpu.reg .esp).toNat + 12 ≤ (c.reg .esp).toNat := by
  by_cases hrun : s.switching.running = some t
  · have hactive := h.active c (hrun ▸ hc)
    obtain rfl : some t = save := hrun.symm.trans hsave
    exact ⟨_, Function.update_self .., hactive⟩
  · obtain ⟨u, hu, hkept⟩ := h.suspended t c hc hrun
    refine ⟨u, ?_, hkept⟩
    cases save with
    | none => exact hu
    | some t₀ =>
        have hne : t ≠ t₀ := by
          rintro rfl
          exact hrun hsave
        exact (Function.update_of_ne hne ..).trans hu

theorem switch (h : Kept L s) {save : Option T} {restore : T}
    (hswitch : CanSwitch L s.switching save restore) (hsave : s.switching.running = save)
    {next : BitVec 32} {af : Bool} :
    Kept L ⟨s.switching.switch L save restore next af, s.interrupted⟩ := by
  have hroom := hswitch.room
  have hinside := hswitch.inside
  refine ⟨h.frames.switch hswitch next af, ?_, h.enabled, h.single, ?_, ?_⟩
  · intro o c hc
    have hframe := h.intact o c hc
    have hroom' := hframe.room
    have hinside' := hframe.inside
    apply hframe.congr
    intro x hlow hhigh
    refine hswitch.mem ?_ ?_
    · by_cases ho : o = s.switching.running
      · subst ho
        have hbelow := (h.active c hc).2
        omega
      · have hstacks := L.stacks_disjoint o s.switching.running ho
        omega
    · intro t ht
      have houtside := L.slots_outside t o
      omega
  · intro c hc
    obtain ⟨u, hu, hif, hesp⟩ := h.saving hsave next af hc
    have hrestores := h.frames.restores hswitch next af hu
    refine ⟨?_, ?_⟩
    · change (callSwitchTo L s.switching.machine next af).eflags.interruptEnabled = false
      rw [hrestores.eflags]
      exact (Eflags.interruptEnabled_setStatus ..).trans hif
    · change ((callSwitchTo L s.switching.machine next af).reg .esp).toNat + 12 ≤ _
      rw [hrestores.reg]
      exact hesp
  · intro t c hc hrun
    have hne : t ≠ restore := by
      rintro rfl
      exact hrun rfl
    change ∃ u, Function.update (s.switching.saving save next af) restore none t = some u ∧ _
    rw [Function.update_of_ne hne]
    exact h.saving hsave next af hc

theorem handlerReturn (h : Kept L s) {c : Cpu} {cs : List Cpu} {m : Machine}
    (hactive : s.interrupted s.switching.running = c :: cs)
    (hmem : m.mem = s.switching.machine.mem) :
    Kept L ⟨{ s.switching with machine := m },
      Function.update s.interrupted s.switching.running cs⟩ := by
  obtain rfl := h.eq_nil_of_active hactive
  have hkept : ∀ o c', c' ∈ Function.update s.interrupted s.switching.running [] o →
      o ≠ s.switching.running ∧ c' ∈ s.interrupted o := by
    intro o c' hc'
    rcases mem_update_iff.mp hc' with ⟨-, hc'⟩ | hc'
    · cases hc'
    · exact hc'
  refine ⟨⟨h.frames.not_running, ?_⟩, ?_, ?_, ?_, ?_, ?_⟩
  · intro t u hu
    change SavedFrame L m.mem t u
    rw [hmem]
    exact h.frames.saved t u hu
  · intro o c' hc'
    change InterruptFrame L m.mem o c'
    rw [hmem]
    exact h.intact o c' (hkept o c' hc').2
  · intro o c' hc'
    exact h.enabled o c' (hkept o c' hc').2
  · exact length_update_le h.single (Nat.zero_le 1)
  · intro c' hc'
    exact absurd rfl (hkept _ c' hc').1
  · intro t c' hc' hrun
    exact h.suspended t c' (hkept _ c' hc').2 hrun

end Kept

/-- What the handler of an interrupt of `c` makes of the machine by its `ret`. -/
structure Returned (c : Cpu) (m : Machine) : Prop where
  eip : m.eip = c.eip
  esp : m.reg .esp = c.reg .esp - 8
  left : m.top 8 = wordBytes ((c.seg .cs).setWidth 32) ++ wordBytes c.eflags.bits
  disabled : m.eflags.interruptEnabled = false

theorem Kept.returned {s : Preemption T} (h : Kept L s) {d : Devices} {c : Cpu}
    (hc : c ∈ s.interrupted s.switching.running)
    (hreturn : AtReturn (handlerEntry d c) s.switching.machine) :
    Returned c s.switching.machine.ret := by
  have hesp : s.switching.machine.reg .esp = c.reg .esp - 12 :=
    hreturn.esp.trans (handlerEntry_esp d c)
  have hframe := h.intact _ c hc
  have hroom := hframe.room
  have haddr : (c.reg .esp - 12).toNat = (c.reg .esp).toNat - 12 := by bv_omega
  have htop : s.switching.machine.Top (wordBytes c.eip ++
      (wordBytes ((c.seg .cs).setWidth 32) ++ wordBytes c.eflags.bits)) := by
    refine ⟨?_, ?_⟩
    · rw [Machine.top, hesp]
      exact hframe.bytes
    · have hlt := (c.reg .esp).isLt
      have hlen := Machine.length_interruptBytes c
      rw [Machine.interruptBytes] at hlen
      rw [hesp, hlen]
      omega
  have hret := Machine.ret_of_top htop
  refine ⟨?_, hreturn.esp_ret, ?_, ?_⟩
  · rw [hret]
  · rw [hret]
    exact htop.drop.2.top
  · rw [hret]
    exact (h.active c hc).1

section Ghost

variable [DecidableEq T] {handlers : Handlers} {d : Devices} {s : Preemption T}
  {rs : List Resumption}

theorem KernelRun.kept (h : KernelRun L handlers d s rs) : Kept L s := by
  induction h with
  | start m running => exact ⟨⟨nofun, nofun⟩, nofun, nofun, fun _ ↦ Nat.zero_le 1, nofun, nofun⟩
  | own _ hown ih => exact ih.own hown
  | switch _ hswitch hsave next af ih => exact ih.switch hswitch hsave
  | timer _ hif hroom hinside ih => exact ih.timer hif hroom hinside
  | handlerReturn _ hactive hreturn ih => exact ih.handlerReturn hactive hreturn.mem

/-- The handler returns to the interrupted instruction, leaves eight bytes on the
stack, and leaves the interrupts disabled. -/
theorem KernelRun.returned (h : KernelRun L handlers d s rs)
    (haddr : (d.idt 32).address = handlers.timerInterruptHandler) {p : Resumption} (hp : p ∈ rs) :
    Returned p.interrupted p.resumed ∧ p.interrupted.eflags.interruptEnabled = true := by
  induction h with
  | start m running => cases hp
  | own _ _ ih => exact ih hp
  | switch _ _ _ _ _ ih => exact ih hp
  | timer _ _ _ _ ih => exact ih hp
  | handlerReturn h hactive hreturn ih =>
      rcases List.mem_append.mp hp with hp | hp
      · exact ih hp
      · obtain rfl := List.mem_singleton.mp hp
        have hc := hactive ▸ List.mem_cons_self
        obtain ⟨hat, rfl⟩ := hreturn.eq_ret haddr
        exact ⟨h.kept.returned hc hat, h.kept.enabled _ _ hc⟩

/-- The runs of threads that keep to their stacks are runs of the processor. -/
theorem KernelRun.run (h : KernelRun L handlers d s rs)
    (haddr : (d.idt 32).address = handlers.timerInterruptHandler) :
    ∃ pending, Run handlers d s.switching.machine pending rs ∧
      ∀ o, ∀ c ∈ s.interrupted o, c ∈ pending := by
  induction h with
  | start m running => exact ⟨[], .start m, nofun⟩
  | own _ _ ih =>
      obtain ⟨pending, hrun, hmem⟩ := ih
      exact ⟨pending, hrun.code _, hmem⟩
  | switch _ _ _ _ _ ih =>
      obtain ⟨pending, hrun, hmem⟩ := ih
      exact ⟨pending, hrun.code _, hmem⟩
  | timer _ hif _ _ ih =>
      obtain ⟨pending, hrun, hmem⟩ := ih
      refine ⟨_, hrun.timer hif, ?_⟩
      intro o c hc
      rcases mem_update_iff.mp hc with ⟨rfl, hnew⟩ | ⟨-, hc⟩
      · rcases List.mem_cons.mp hnew with rfl | hc
        · exact List.mem_cons_self
        · exact List.mem_cons_of_mem _ (hmem _ c hc)
      · exact List.mem_cons_of_mem _ (hmem o c hc)
  | @handlerReturn s rs c cs m h hactive hreturn ih =>
      obtain ⟨pending, hrun, hmem⟩ := ih
      have hc := hactive ▸ List.mem_cons_self
      obtain ⟨before, after, rfl⟩ := List.append_of_mem (hmem _ c hc)
      obtain ⟨hat, hm⟩ := hreturn.eq_ret haddr
      have hback : m.eip = c.eip := hm ▸ (h.kept.returned hc hat).eip
      refine ⟨before ++ after, hrun.handlerReturn hreturn hback, ?_⟩
      intro o c' hc'
      rcases mem_update_iff.mp hc' with ⟨-, hc'⟩ | ⟨ho, hc'⟩
      · rw [h.kept.eq_nil_of_active hactive] at hc'
        cases hc'
      · have hne : c' ≠ c := by
          rintro rfl
          exact ho (h.kept.eq_of_mem hc' hc)
        have hpending := hmem o c' hc'
        grind

end Ghost

/-! ## Two preempted threads -/

def threadCpu (t : Bool) : Cpu where
  eip := 0x100010
  reg := fun r ↦ if r = .esp then (if t then 0x4800 else 0x3800) else 0
  seg := fun _ ↦ 0x10
  eflags := ⟨0x202, by decide⟩

/-- The registers at the call of `switch_to` in the handler. -/
def handlerRegisters (t : Bool) : Reg32 → BitVec 32 :=
  Function.update (registersAtCall t) .esp (if t then 0x4700 else 0x3700)

/-- The timer interrupts thread `t`, and the handler switches to the other
thread, which goes on with its code. -/
theorem kernelRun_preempt {handlers : Handlers} {d : Devices} {s : Preemption Bool}
    {rs : List Resumption} {t : Bool} (h : KernelRun twoThreads handlers d s rs)
    (hrun : s.switching.running = some t)
    (hcpu : s.switching.machine.toCpu = threadCpu t) (hnil : s.interrupted (some t) = []) :
    ∃ s', KernelRun twoThreads handlers d s' rs ∧ s'.switching.running = some !t ∧
      s'.interrupted = Function.update s.interrupted (some t) [threadCpu t] := by
  obtain ⟨⟨⟨cpu, mem⟩, running, suspended⟩, interrupted⟩ := s
  obtain rfl : running = some t := hrun
  obtain rfl : cpu = threadCpu t := hcpu
  have hactive : Function.update interrupted (some t) (threadCpu t :: interrupted (some t)) (some t) =
      [threadCpu t] := by
    rw [Function.update_self]
    exact congrArg _ hnil
  have hif : ∀ t, (threadCpu t).eflags.interruptEnabled = true := by decide
  have hroom : ∀ t, twoThreads.low (some t) + 12 ≤ ((threadCpu t).reg .esp).toNat := by decide
  have hinside : ∀ t, ((threadCpu t).reg .esp).toNat ≤ twoThreads.high (some t) := by decide
  have hbelow : ∀ t, (handlerRegisters t .esp).toNat + 12 ≤ ((threadCpu t).reg .esp).toNat := by
    decide
  have hcall : ∀ t, handlerRegisters t .esi = twoThreads.tcb t ∧
      handlerRegisters t .edi = twoThreads.tcb (!t) ∧
      twoThreads.low (some t) + 48 ≤ (handlerRegisters t .esp).toNat ∧
      (handlerRegisters t .esp).toNat ≤ twoThreads.high (some t) := by decide
  obtain ⟨hesi, hedi, hspace, htop⟩ := hcall t
  have htimer := h.timer (hif t) (hroom t) (hinside t)
  have hhandler := htimer.own (m := { timerInterrupt d ⟨threadCpu t, mem⟩ with
      reg := handlerRegisters t }) (by
    refine ⟨⟨fun _ _ _ _ _ ↦ rfl, fun _ _ _ _ ↦ rfl⟩, fun _ _ _ _ _ ↦ rfl, ?_, fun _ ↦ rfl⟩
    intro c hc
    have hc' : c ∈ [threadCpu t] := hactive ▸ hc
    obtain rfl := List.mem_singleton.mp hc'
    exact hbelow t)
  have hswitch := hhandler.switch
    (⟨hesi, hedi, fun _ h ↦ h, hspace, htop⟩ : CanSwitch twoThreads _ (some t) !t) rfl 0x100205 false
  refine ⟨_, hswitch, rfl, ?_⟩
  exact congrArg (Function.update interrupted (some t)) (congrArg _ hnil)

/-- Both threads are preempted, and then the C function returns in the first. -/
theorem kernelRun_two {handlers : Handlers} {d : Devices}
    (haddr : (d.idt 32).address = handlers.timerInterruptHandler) :
    ∃ s m, KernelRun twoThreads handlers d s [⟨threadCpu false, m⟩] := by
  have hstart : KernelRun twoThreads handlers d
      ⟨⟨⟨threadCpu false, fun _ ↦ 0⟩, some false, fun _ ↦ none⟩, fun _ ↦ []⟩ [] := .start _ _
  obtain ⟨s₁, hfirst, hrun₁, hint₁⟩ := kernelRun_preempt hstart rfl rfl rfl
  have hnil : s₁.interrupted s₁.switching.running = [] := by
    rw [hrun₁, hint₁]
    rfl
  have hcode := hfirst.own (m := ⟨threadCpu true, s₁.switching.machine.mem⟩) (by
    rw [hnil]
    exact ⟨⟨fun _ _ _ _ _ ↦ rfl, fun _ _ _ _ ↦ rfl⟩, nofun, nofun, fun h ↦ absurd rfl h⟩)
  obtain ⟨s₂, hsecond, hrun₂, hint₂⟩ := kernelRun_preempt (t := true) hcode hrun₁ rfl (by
    rw [hint₁]
    rfl)
  have hactive : s₂.interrupted s₂.switching.running = [threadCpu false] := by
    rw [hrun₂, hint₂, hint₁]
    rfl
  have hepilogue := hsecond.own (m := { s₂.switching.machine with
      reg := (handlerEntry d (threadCpu false)).reg
      seg := (handlerEntry d (threadCpu false)).seg }) (by
    rw [hactive]
    refine ⟨⟨fun _ _ _ _ _ ↦ rfl, fun _ _ _ _ ↦ rfl⟩, fun _ _ _ _ _ ↦ rfl, ?_, fun _ ↦ rfl⟩
    intro c hc
    obtain rfl := List.mem_singleton.mp hc
    change ((handlerEntry d (threadCpu false)).reg .esp).toNat + 12 ≤ _
    rw [handlerEntry_esp]
    decide)
  exact ⟨_, _, hepilogue.handlerReturn hactive (.function haddr ⟨rfl, fun _ _ ↦ rfl,
    fun _ _ ↦ rfl⟩)⟩

def emptyDevices : Devices := ⟨fun _ ↦ ⟨0, 0, 0, 0, 0⟩, []⟩

def sampleHandlers : Handlers where
  timerInterruptHandler := 0x100400
  timerInterruptHandlerAssembly := 0x100600
  afterCall := 0x100620
  distinct := by decide

theorem run_two : ∃ m m' pending,
    Run sampleHandlers (initPIT sampleHandlers.timerInterruptHandler emptyDevices).2 m pending
      [⟨threadCpu false, m'⟩] := by
  have haddr := initPIT_address sampleHandlers.timerInterruptHandler emptyDevices
  obtain ⟨s, m, hrun⟩ := kernelRun_two haddr
  obtain ⟨pending, hrun, -⟩ := hrun.run haddr
  exact ⟨_, m, pending, hrun⟩

theorem preemption_transparent_iff_two : ∃ m pending rs,
    Run sampleHandlers (initPIT sampleHandlers.timerInterruptHandler emptyDevices).2 m pending rs ∧
      rs ≠ [] ∧ ((∀ p ∈ rs, p.Transparent) ↔ rs = []) ∧
      ∀ p ∈ rs, p.resumed.eip = p.interrupted.eip ∧
        p.resumed.reg .esp = p.interrupted.reg .esp - 8 := by
  obtain ⟨m, m', pending, hrun⟩ := run_two
  exact ⟨m, pending, _, hrun, List.cons_ne_nil _ _, preemption_transparent_iff _ _ hrun⟩

/-- The first thread comes back with eight bytes more on its stack. -/
theorem preemption_not_transparent : ∃ m pending rs,
    Run sampleHandlers (initPIT sampleHandlers.timerInterruptHandler emptyDevices).2 m pending rs ∧
      ¬ ∀ p ∈ rs, p.Transparent := by
  obtain ⟨m, m', pending, hrun⟩ := run_two
  refine ⟨m, pending, _, hrun, ?_⟩
  intro htransparent
  exact hrun.not_transparent (initPIT_address _ _) List.mem_cons_self
    (htransparent _ List.mem_cons_self)

end OperatingSystem.Fifos
