import OperatingSystem.Fifos.Switch

/-!
# Context switches over whole runs

Threads with stacks of their own run code that keeps to its stack and call
`switch_to`. A suspended thread finds its registers again, whatever ran in
between; of its flags it finds those that `testl` left at the head of
`switch_to`.
-/

namespace OperatingSystem.Fifos

open I386 ByteMemory

/-! ## Threads and stacks -/

/-- Where the code of `switch_to`, the TCBs and the stacks lie. `stackPointer`
is the first member of a TCB. The stack of `none` is the one on which the
system was booted. -/
structure Layout (T : Type) where
  entry : BitVec 32
  tcb : T → BitVec 32
  low : Option T → ℕ
  high : Option T → ℕ
  tcb_ne_zero : ∀ t, tcb t ≠ 0
  stacks_disjoint : ∀ o o', o ≠ o' → high o ≤ low o' ∨ high o' ≤ low o
  slots_disjoint : ∀ t t', t ≠ t' →
    (tcb t).toNat + 4 ≤ (tcb t').toNat ∨ (tcb t').toNat + 4 ≤ (tcb t).toNat
  slots_outside : ∀ t o, (tcb t).toNat + 4 ≤ low o ∨ high o ≤ (tcb t).toNat

/-- What a thread had when it called `switch_to`: the processor, with EIP at the
return address, and the value that `testl` left in AF. -/
structure Suspension where
  cpu : Cpu
  af : Bool

/-- The flags after `testl %esi,%esi`. -/
def Suspension.testedFlags (u : Suspension) : Eflags :=
  u.cpu.eflags.setStatus (logicStatus (u.cpu.reg .esi &&& u.cpu.reg .esi) u.af)

/-- The machine, the stack it runs on, and the threads that called `switch_to`
and were not resumed since. -/
structure SwitchState (T : Type) where
  machine : Machine
  running : Option T
  suspended : T → Option Suspension

variable {T : Type} (L : Layout T)

/-- The code on one stack writes neither to another stack nor to the
`stackPointer` of a TCB. -/
structure OwnCode (running : Option T) (m m' : Machine) : Prop where
  otherStacks : ∀ o, o ≠ running → ∀ x, L.low o ≤ x → x < L.high o → m'.mem x = m.mem x
  pointers : ∀ t x, (L.tcb t).toNat ≤ x → x < (L.tcb t).toNat + 4 → m'.mem x = m.mem x

/-- `call switch_to` with the arguments in ESI and EDI. The saved TCB is that
of the running thread, or there is none, and the stack has room for the
frame. -/
structure CanSwitch (s : SwitchState T) (save : Option T) (restore : T) : Prop where
  esi : s.machine.reg .esi = save.elim 0 L.tcb
  edi : s.machine.reg .edi = L.tcb restore
  own : ∀ t, save = some t → s.running = some t
  room : L.low s.running + 48 ≤ (s.machine.reg .esp).toNat
  inside : (s.machine.reg .esp).toNat ≤ L.high s.running

/-- The instruction `call switch_to` with the code of `switch_to`. -/
def callSwitchTo (m : Machine) (next : BitVec 32) (af : Bool) : Machine :=
  switchTo (m.call next L.entry) af

variable {L}

section Ghost

variable [DecidableEq T]

/-- The suspended threads once the context was saved. -/
def SwitchState.saving (s : SwitchState T) (save : Option T) (next : BitVec 32) (af : Bool) :
    T → Option Suspension :=
  match save with
  | none => s.suspended
  | some t => Function.update s.suspended t
      (some ⟨{ s.machine.toCpu with eip := next }, af⟩)

def SwitchState.switch (L : Layout T) (s : SwitchState T) (save : Option T) (restore : T)
    (next : BitVec 32) (af : Bool) : SwitchState T where
  machine := callSwitchTo L s.machine next af
  running := some restore
  suspended := Function.update (s.saving save next af) restore none

/-- The states of all runs: code on its own stack, and switches. -/
inductive Reachable (L : Layout T) : SwitchState T → Prop where
  | start (m : Machine) (running : Option T) : Reachable L ⟨m, running, fun _ ↦ none⟩
  | own {s : SwitchState T} {m : Machine} (h : Reachable L s)
      (hown : OwnCode L s.running s.machine m) : Reachable L { s with machine := m }
  | switch {s : SwitchState T} {save : Option T} {restore : T} (h : Reachable L s)
      (hswitch : CanSwitch L s save restore) (next : BitVec 32) (af : Bool) :
      Reachable L (s.switch L save restore next af)

end Ghost

/-- The state of the processor is back, with the given flags. -/
structure Restores (c : Cpu) (flags : Eflags) (m : Machine) : Prop where
  eip : m.eip = c.eip
  reg : ∀ r, m.reg r = c.reg r
  seg : ∀ s, s ≠ .cs → m.seg s = c.seg s
  eflags : m.eflags = flags

/-! ## The saved frame -/

/-- The TCB of a thread points to its frame. -/
structure SavedFrame (L : Layout T) (mem : ℕ → UInt8) (t : T) (u : Suspension) : Prop where
  room : L.low (some t) + 48 ≤ (u.cpu.reg .esp).toNat
  inside : (u.cpu.reg .esp).toNat ≤ L.high (some t)
  pointer : wordOf (readBytes mem (L.tcb t).toNat 4) = u.cpu.reg .esp - 48
  frame : ∃ skipped, readBytes mem (u.cpu.reg .esp - 48).toNat 48 =
    frame { u.cpu with
      reg := Function.update u.cpu.reg .esp skipped, eflags := u.testedFlags }

theorem toNat_sub_frame (esp : BitVec 32) (h : 48 ≤ esp.toNat) :
    (esp - 48).toNat = esp.toNat - 48 := by
  bv_omega

/-- The machine at the label `1`, if the context was saved. -/
def savedMachine (L : Layout T) (m : Machine) (next : BitVec 32) (af : Bool) : Machine :=
  saveContext ((m.call next L.entry).testl .esi .esi af)

/-- What is saved: ESP once the flags were pushed stands in the slot that `popal`
skips. -/
def savedCpu (m : Machine) (next : BitVec 32) (af : Bool) : Cpu where
  eip := next
  reg := Function.update m.reg .esp (m.reg .esp - 4 - 4)
  seg := m.seg
  eflags := m.eflags.setStatus (logicStatus (m.reg .esi &&& m.reg .esi) af)

theorem savedMachine_mem (L : Layout T) {m : Machine} (next : BitVec 32) (af : Bool)
    (hroom : 48 ≤ (m.reg .esp).toNat) :
    (savedMachine L m next af).mem =
      writeBytes (writeBytes m.mem (m.reg .esp - 48).toNat (frame (savedCpu m next af)))
        (m.reg .esi).toNat (wordBytes (m.reg .esp - 48)) := by
  have hesi : (m.call next L.entry).reg .esi = m.reg .esi := m.reg_call_of_ne _ _ (by decide)
  set m₁ := (m.call next L.entry).testl .esi .esi af with hm₁
  have hesp : m₁.reg .esp = m.reg .esp - 4 := m.esp_push (wordBytes next)
  have hroom₁ : 44 ≤ (m₁.reg .esp).toNat := by
    rw [hesp]
    bv_omega
  have hreg : Function.update m₁.reg .esp (m₁.reg .esp - 4) = (savedCpu m next af).reg := by
    rw [hesp]
    exact Function.update_idem ..
  have heflags : m₁.eflags = (savedCpu m next af).eflags := by
    rw [hm₁, Machine.testl, hesi]
    rfl
  have hlen := length_savedBytes m₁.seg (savedCpu m next af).reg (savedCpu m next af).eflags
  set bytes := savedBytes m₁.seg (savedCpu m next af).reg (savedCpu m next af).eflags
  have hmem : (m₁.push bytes).mem =
      writeBytes m.mem (m.reg .esp - 48).toNat (bytes ++ wordBytes next) := by
    have htwice : (m.push (wordBytes next)).push bytes = m.push (bytes ++ wordBytes next) :=
      Machine.push_push (by simpa [hlen] using hroom)
    have hmem := congrArg Machine.mem htwice
    rw [Machine.mem_push m, List.length_append, hlen, length_wordBytes] at hmem
    exact hmem
  have hsp : (m₁.push bytes).reg .esp = m.reg .esp - 48 := by
    rw [Machine.esp_push, hesp, hlen]
    bv_omega
  change (saveContext m₁).mem = _
  rw [saveContext_eq hroom₁, hreg, heflags, Machine.movlTo, Machine.reg_push_of_ne _ _ (by decide),
    hsp]
  change writeBytes (m₁.push bytes).mem (m₁.reg .esi).toNat _ = _
  rw [hmem, hm₁]
  exact congrArg (fun a : BitVec 32 ↦ writeBytes _ a.toNat _) hesi

namespace SavedFrame

variable {mem mem' : ℕ → UInt8} {t : T} {u : Suspension}

/-- The frame stays while stack and TCB are not written. -/
theorem congr (h : SavedFrame L mem t u)
    (hstack : ∀ x, L.low (some t) ≤ x → x < L.high (some t) → mem' x = mem x)
    (hslot : ∀ x, (L.tcb t).toNat ≤ x → x < (L.tcb t).toNat + 4 → mem' x = mem x) :
    SavedFrame L mem' t u := by
  have hroom := h.room
  have hinside := h.inside
  have haddr := toNat_sub_frame (u.cpu.reg .esp) (by omega)
  refine ⟨hroom, hinside, ?_, ?_⟩
  · rw [readBytes_congr fun k hk ↦ hslot _ (Nat.le_add_right _ k) (Nat.add_lt_add_left hk _)]
    exact h.pointer
  · obtain ⟨skipped, hframe⟩ := h.frame
    refine ⟨skipped, ?_⟩
    rw [← hframe]
    apply readBytes_congr
    intro k hk
    apply hstack <;> omega

/-- The end of `switch_to` takes the frame from the stack. -/
theorem restores {m : Machine} (h : SavedFrame L m.mem t u) (hedi : m.reg .edi = L.tcb t) :
    Restores u.cpu u.testedFlags (restoreContext m) := by
  have hroom := h.room
  obtain ⟨skipped, hframe⟩ := h.frame
  have haddr := toNat_sub_frame (u.cpu.reg .esp) (by omega)
  have hload : m.load32 (m.reg .edi) = u.cpu.reg .esp - 48 := by
    rw [hedi]
    exact h.pointer
  have htop : (m.setReg .esp (u.cpu.reg .esp - 48)).Top (Fifos.frame { u.cpu with
      reg := Function.update u.cpu.reg .esp skipped, eflags := u.testedFlags }) := by
    refine ⟨?_, ?_⟩
    · rw [Machine.top, Machine.reg_setReg_self, length_frame]
      exact hframe
    · have hlt := (u.cpu.reg .esp).isLt
      rw [Machine.reg_setReg_self, length_frame]
      omega
  rw [restoreContext_of_frame hload htop]
  refine ⟨rfl, fun r ↦ ?_, fun s hs ↦ if_neg hs, rfl⟩
  by_cases hr : r = .esp
  · subst hr
    exact BitVec.sub_add_cancel ..
  · simp [resumed, hr]

end SavedFrame

theorem savedFrame_savedMachine {m : Machine} {t : T} {next : BitVec 32} {af : Bool}
    (hesi : m.reg .esi = L.tcb t) (hroom : L.low (some t) + 48 ≤ (m.reg .esp).toNat)
    (hinside : (m.reg .esp).toNat ≤ L.high (some t)) :
    SavedFrame L (savedMachine L m next af).mem t ⟨{ m.toCpu with eip := next }, af⟩ := by
  have hmem := savedMachine_mem L next af (m := m) (by omega)
  have haddr := toNat_sub_frame (m.reg .esp) (by omega)
  have hlen := length_frame (savedCpu m next af)
  refine ⟨hroom, hinside, ?_, m.reg .esp - 4 - 4, ?_⟩
  · rw [hmem, hesi]
    exact (congrArg wordOf (readBytes_writeBytes ..)).trans (wordOf_wordBytes _)
  · rw [hmem, hesi, readBytes_writeBytes_of_disjoint]
    · have hread := readBytes_writeBytes m.mem (m.reg .esp - 48).toNat (frame (savedCpu m next af))
      rw [hlen] at hread
      exact hread
    · have hslot := L.slots_outside t (some t)
      rw [length_wordBytes]
      change (m.reg .esp - 48).toNat + 48 ≤ _ ∨ _ ≤ (m.reg .esp - 48).toNat
      omega

/-! ## Runs -/

/-- Every suspended thread has its frame. -/
structure FramesSaved (L : Layout T) (s : SwitchState T) : Prop where
  not_running : ∀ t u, s.suspended t = some u → s.running ≠ some t
  saved : ∀ t u, s.suspended t = some u → SavedFrame L s.machine.mem t u

theorem restoreContext_mem (m : Machine) : (restoreContext m).mem = m.mem := by
  simp [restoreContext]

theorem zf_testl (m : Machine) (r : Reg32) (af : Bool) :
    (m.testl r r af).eflags.zf = decide (m.reg r = 0) := by
  rw [Machine.testl, Eflags.zf_setStatus, BitVec.and_self]

section Runs

variable {s : SwitchState T} {save : Option T} {restore : T} {next : BitVec 32} {af : Bool}

theorem CanSwitch.zf (h : CanSwitch L s save restore) (next : BitVec 32) (af : Bool) :
    ((s.machine.call next L.entry).testl .esi .esi af).eflags.zf = save.isNone := by
  rw [zf_testl, Machine.reg_call_of_ne _ _ _ (by decide), h.esi]
  cases save with
  | none => exact decide_eq_true rfl
  | some t => exact decide_eq_false (L.tcb_ne_zero t)

/-- The frames of suspended threads survive writes to the running stack. -/
theorem FramesSaved.writes (hs : FramesSaved L s) {t : T} {u : Suspension}
    (hu : s.suspended t = some u) (a : BitVec 32) (bytes : List UInt8)
    (hlow : L.low s.running ≤ a.toNat) (hhigh : a.toNat + bytes.length ≤ L.high s.running) :
    SavedFrame L (writeBytes s.machine.mem a.toNat bytes) t u := by
  have hstack := L.stacks_disjoint _ _ (hs.not_running t u hu)
  have hslot := L.slots_outside t s.running
  apply (hs.saved t u hu).congr
  · intro x _ _
    apply writeBytes_of_disjoint
    omega
  · intro x _ _
    apply writeBytes_of_disjoint
    omega

/-- At the label `1` every suspended thread has its frame, if none was saved. -/
theorem FramesSaved.at_label_of_none (hs : FramesSaved L s) (hswitch : CanSwitch L s none restore)
    {t : T} {u : Suspension} (hu : s.suspended t = some u) :
    SavedFrame L ((s.machine.call next L.entry).testl .esi .esi af).mem t u := by
  have hroom := hswitch.room
  have hinside := hswitch.inside
  have haddr : (s.machine.reg .esp - 4).toNat = (s.machine.reg .esp).toNat - 4 := by bv_omega
  have hlen := length_wordBytes next
  exact hs.writes hu (s.machine.reg .esp - 4) (wordBytes next) (by omega) (by omega)

theorem savedMachine_edi {m : Machine} (hroom : 48 ≤ (m.reg .esp).toNat) :
    (savedMachine L m next af).reg .edi = m.reg .edi := by
  have hroom₁ : 44 ≤ (((m.call next L.entry).testl .esi .esi af).reg .esp).toNat := by
    have hesp : ((m.call next L.entry).testl .esi .esi af).reg .esp = m.reg .esp - 4 :=
      m.esp_push (wordBytes next)
    rw [hesp]
    bv_omega
  rw [savedMachine, saveContext_eq hroom₁]
  exact (Machine.reg_push_of_ne _ _ (by decide)).trans
    (m.reg_call_of_ne next L.entry (r := .edi) (by decide))

theorem FramesSaved.own (hs : FramesSaved L s) {m : Machine}
    (hown : OwnCode L s.running s.machine m) : FramesSaved L { s with machine := m } := by
  refine ⟨hs.not_running, ?_⟩
  intro t u hu
  exact (hs.saved t u hu).congr (hown.otherStacks _ (hs.not_running t u hu).symm)
    (hown.pointers t)

/-- `switch_to` writes to the 48 bytes below ESP and to the TCB that it saves
to. -/
theorem CanSwitch.mem (h : CanSwitch L s save restore) {x : ℕ}
    (hstack : x + 48 < (s.machine.reg .esp).toNat ∨ (s.machine.reg .esp).toNat ≤ x)
    (hslot : ∀ t, save = some t → x < (L.tcb t).toNat ∨ (L.tcb t).toNat + 4 ≤ x) :
    (callSwitchTo L s.machine next af).mem x = s.machine.mem x := by
  have hroom := h.room
  have hzf := h.zf next af
  cases save with
  | none =>
      have heq : callSwitchTo L s.machine next af =
          restoreContext ((s.machine.call next L.entry).testl .esi .esi af) := if_pos hzf
      have haddr : (s.machine.reg .esp - 4).toNat = (s.machine.reg .esp).toNat - 4 := by bv_omega
      have hlen := length_wordBytes next
      rw [heq, restoreContext_mem]
      exact writeBytes_of_disjoint (a := (s.machine.reg .esp - 4).toNat) (by omega)
  | some t =>
      have heq : callSwitchTo L s.machine next af =
          restoreContext (savedMachine L s.machine next af) :=
        if_neg (hzf ▸ Bool.false_ne_true)
      have haddr := toNat_sub_frame (s.machine.reg .esp) (by omega)
      rw [heq, restoreContext_mem, savedMachine_mem L next af (by omega), writeBytes_of_disjoint,
        writeBytes_of_disjoint]
      · rw [length_frame]
        omega
      · rw [length_wordBytes, h.esi]
        exact hslot t rfl

variable [DecidableEq T]

/-- At the label `1` after a context was saved, every suspended thread has its
frame, the saved one included. -/
theorem FramesSaved.at_label_of_some (hs : FramesSaved L s) {t₀ : T}
    (hswitch : CanSwitch L s (some t₀) restore) {t : T} {u : Suspension}
    (hu : s.saving (some t₀) next af t = some u) :
    SavedFrame L (savedMachine L s.machine next af).mem t u := by
  have hrun : s.running = some t₀ := hswitch.own t₀ rfl
  have hroom := hswitch.room
  have hinside := hswitch.inside
  have hesi : s.machine.reg .esi = L.tcb t₀ := hswitch.esi
  rw [hrun] at hroom hinside
  rw [SwitchState.saving] at hu
  by_cases ht : t = t₀
  · subst ht
    rw [Function.update_self, Option.some_inj] at hu
    subst hu
    exact savedFrame_savedMachine hesi hroom hinside
  · rw [Function.update_of_ne ht] at hu
    have haddr := toNat_sub_frame (s.machine.reg .esp) (by omega)
    have hlen := length_frame (savedCpu s.machine next af)
    have hframe := hs.writes hu (s.machine.reg .esp - 48)
      (frame (savedCpu s.machine next af)) (by rw [hrun]; omega) (by rw [hrun]; omega)
    have hslots := L.slots_disjoint t t₀ ht
    have houtside := L.slots_outside t₀ (some t)
    rw [savedMachine_mem L next af (by omega), hesi]
    apply hframe.congr
    · intro x _ _
      apply writeBytes_of_disjoint
      rw [length_wordBytes]
      omega
    · intro x _ _
      apply writeBytes_of_disjoint
      rw [length_wordBytes]
      omega

theorem FramesSaved.at_label (hs : FramesSaved L s) (hswitch : CanSwitch L s save restore)
    (next : BitVec 32) (af : Bool) :
    ∃ m, callSwitchTo L s.machine next af = restoreContext m ∧ m.reg .edi = L.tcb restore ∧
      ∀ t u, s.saving save next af t = some u → SavedFrame L m.mem t u := by
  have hzf := hswitch.zf next af
  cases save with
  | none =>
      refine ⟨(s.machine.call next L.entry).testl .esi .esi af, ?_, ?_, ?_⟩
      · exact if_pos hzf
      · exact (s.machine.reg_call_of_ne next L.entry (by decide)).trans hswitch.edi
      · intro t u hu
        exact hs.at_label_of_none hswitch hu
  | some t₀ =>
      have hroom := hswitch.room
      refine ⟨savedMachine L s.machine next af, ?_, ?_, ?_⟩
      · exact if_neg (hzf ▸ Bool.false_ne_true)
      · exact (savedMachine_edi (by omega)).trans hswitch.edi
      · intro t u hu
        exact hs.at_label_of_some hswitch hu

theorem FramesSaved.restores (hs : FramesSaved L s) (hswitch : CanSwitch L s save restore)
    (next : BitVec 32) (af : Bool) {u : Suspension}
    (hu : s.saving save next af restore = some u) :
    Restores u.cpu u.testedFlags (callSwitchTo L s.machine next af) := by
  obtain ⟨m, heq, hedi, hframes⟩ := hs.at_label hswitch next af
  rw [heq]
  exact (hframes restore u hu).restores hedi

theorem FramesSaved.switch (hs : FramesSaved L s) (hswitch : CanSwitch L s save restore)
    (next : BitVec 32) (af : Bool) :
    FramesSaved L (s.switch L save restore next af) := by
  obtain ⟨m, heq, -, hframes⟩ := hs.at_label hswitch next af
  have hne : ∀ t u, (s.switch L save restore next af).suspended t = some u → t ≠ restore := by
    rintro t u hu rfl
    exact Option.some_ne_none u (hu.symm.trans (Function.update_self ..))
  refine ⟨?_, ?_⟩
  · intro t u hu hrun
    exact hne t u hu (Option.some.inj hrun).symm
  · intro t u hu
    have hmem : (s.switch L save restore next af).machine.mem = m.mem :=
      (congrArg Machine.mem heq).trans (restoreContext_mem m)
    have hsaving : s.saving save next af t = some u := by
      rw [← hu]
      exact (Function.update_of_ne (hne t u hu) ..).symm
    rw [hmem]
    exact hframes t u hsaving

/-- Every suspended thread has its frame throughout a run. -/
theorem Reachable.framesSaved (h : Reachable L s) : FramesSaved L s := by
  induction h with
  | start m running => exact ⟨nofun, nofun⟩
  | own _ hown ih => exact ih.own hown
  | switch _ hswitch next af ih => exact ih.switch hswitch next af

/-- Whatever ran in between, `switch_to` brings the suspended thread back with
all its registers and control flags; its status flags are those of `testl`. -/
theorem switchTo_restores (h : Reachable L s) (hswitch : CanSwitch L s save restore)
    (next : BitVec 32) (af : Bool) {u : Suspension}
    (hu : s.saving save next af restore = some u) :
    Restores u.cpu u.testedFlags (callSwitchTo L s.machine next af) ∧
      (callSwitchTo L s.machine next af).eflags.control = u.cpu.eflags.control := by
  have hrestores := h.framesSaved.restores hswitch next af hu
  refine ⟨hrestores, ?_⟩
  rw [hrestores.eflags]
  exact Eflags.control_setStatus ..

end Runs

/-! ## Two threads -/

def twoThreads : Layout Bool where
  entry := 0x100000
  tcb := fun t ↦ if t then 0x1020 else 0x1000
  low := fun o ↦ o.elim 0x2000 fun t ↦ if t then 0x4000 else 0x3000
  high := fun o ↦ o.elim 0x3000 fun t ↦ if t then 0x5000 else 0x4000
  tcb_ne_zero := by decide
  stacks_disjoint := by decide
  slots_disjoint := by decide
  slots_outside := by decide

/-- The registers of thread `t` at a call of `switch_to` that resumes the other
thread. -/
def registersAtCall (t : Bool) : Reg32 → BitVec 32
  | .esi => twoThreads.tcb t
  | .edi => twoThreads.tcb !t
  | .esp => if t then 0x4800 else 0x3800
  | _ => 0

/-- The first thread calls `switch_to` with CF set, as the comparison with
`-1` in `scheduler` leaves it. -/
def atFirstCall : SwitchState Bool where
  machine := ⟨⟨0x100200, registersAtCall false, fun _ ↦ 0x10, ⟨3, by decide⟩⟩, fun _ ↦ 0⟩
  running := some false
  suspended := fun _ ↦ none

def atSecondCall : SwitchState Bool :=
  let s := atFirstCall.switch twoThreads (some false) true 0x100205 false
  { s with machine := { s.machine with reg := registersAtCall true } }

def firstSuspension : Suspension := ⟨{ atFirstCall.machine.toCpu with eip := 0x100205 }, false⟩

theorem reachable_atSecondCall : Reachable twoThreads atSecondCall := by
  have hcall : CanSwitch twoThreads atFirstCall (some false) true :=
    ⟨rfl, rfl, fun _ h ↦ h, by decide, by decide⟩
  exact .own (.switch (.start _ (some false)) hcall _ _) ⟨fun _ _ _ _ _ ↦ rfl, fun _ _ _ _ ↦ rfl⟩

theorem canSwitch_atSecondCall : CanSwitch twoThreads atSecondCall (some true) false :=
  ⟨rfl, rfl, fun _ h ↦ h, by decide, by decide⟩

theorem switchTo_restores_twoThreads :
    Restores firstSuspension.cpu firstSuspension.testedFlags
        (callSwitchTo twoThreads atSecondCall.machine 0x100300 false) ∧
      (callSwitchTo twoThreads atSecondCall.machine 0x100300 false).eflags.control =
        firstSuspension.cpu.eflags.control :=
  switchTo_restores reachable_atSecondCall canSwitch_atSecondCall 0x100300 false rfl

/-- CF is lost. -/
theorem switchTo_changes_status_flags :
    ¬ ∀ (L : Layout Bool) (s : SwitchState Bool) (save : Option Bool) (restore : Bool)
        (next : BitVec 32) (af : Bool) (u : Suspension), Reachable L s →
        CanSwitch L s save restore → s.saving save next af restore = some u →
        Restores u.cpu u.cpu.eflags (callSwitchTo L s.machine next af) := by
  intro h
  have hkept := h twoThreads atSecondCall (some true) false 0x100300 false firstSuspension
    reachable_atSecondCall canSwitch_atSecondCall rfl
  have htested := reachable_atSecondCall.framesSaved.restores canSwitch_atSecondCall
    0x100300 false (u := firstSuspension) rfl
  have hflags := congrArg Eflags.bits (htested.eflags.symm.trans hkept.eflags)
  revert hflags
  decide

end OperatingSystem.Fifos
