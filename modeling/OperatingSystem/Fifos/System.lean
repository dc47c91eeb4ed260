import OperatingSystem.Fifos.Queue

/-!
# FIFOS-2 statement by statement

One processor executes the threads, `functionFinish`, `scheduler` and
`switch_to` by statements, and the timer interrupts it wherever IF is set.
Code may move ESP anywhere on the stack it is on.
-/

namespace OperatingSystem.Fifos

/-! ## Control -/

inductive FunctionAt where
  | test | cli | write | sleep | decrement | sti | writeFinished | callFinish | done
  deriving DecidableEq

inductive FinishAt where
  | finished | assigned | schedule | done
  deriving DecidableEq

inductive HandlerAt where
  | outb | schedule | done
  deriving DecidableEq

/-- The statements of `scheduler`, with the values of `temp` and `nextThread`, and
then the parts of `switch_to`: `save` ends with the store of ESP, `load` is
`movl (%edi), %esp`, `pops` ends with `popfl`, which takes IF. -/
inductive SchedulerAt where
  | search
  | temp (nextThread : BitVec 32)
  | current (temp nextThread : BitVec 32)
  | call (temp nextThread : BitVec 32)
  | save (esi : Option ℕ) (edi : ℕ)
  | load (edi : ℕ)
  | pops (interruptFlag : Bool)
  | ret
  deriving DecidableEq

/-- An activation. `init` is the loop at the end of `init`, and `lost` what
follows a return to an address that the code did not put there. -/
inductive Frame where
  | init
  | systemFinish
  | function (initial : ℕ) (pc : FunctionAt) (times : ℤ)
  | functionFinish (pc : FinishAt)
  | timerInterruptHandler (pc : HandlerAt)
  | scheduler (pc : SchedulerAt)
  | lost
  deriving DecidableEq

/-- What `switch_to` left on a stack: the activations, the innermost first, and
IF. -/
structure Context where
  control : List Frame
  interruptFlag : Bool
  deriving DecidableEq

/-- The static data, the contexts in memory by the ESP with which they were
saved, and the processor. -/
structure System where
  threads : Threads
  context : BitVec 32 → Context
  esp : BitVec 32
  interruptFlag : Bool
  control : List Frame

/-- The near `ret` of the handler leaves ESP eight bytes below the interrupted
one. The C code does not notice, but `switch_to` then pops the wrong bytes. -/
def handlerReturn : List Frame → List Frame
  | .scheduler (.pops _) :: _ => [.lost]
  | .scheduler .ret :: _ => [.lost]
  | rest => rest

/-- One statement, for the statements that do not move ESP to another stack and
store no context. -/
def statement (n : ℕ) (s : System) : Option System :=
  match s.control with
  | [] => none
  | .init :: _ => some s
  | .systemFinish :: _ => some s
  | .function initial pc times :: rest =>
      match pc with
      | .test =>
          -- while(times == 3 || times == 2 || times == 1)
          let pc := if 1 ≤ times ∧ times ≤ initial then FunctionAt.cli else .writeFinished
          some { s with control := .function initial pc times :: rest }
      | .cli =>
          some { s with
            interruptFlag := false
            control := .function initial .write times :: rest }
      | .write => some { s with control := .function initial .sleep times :: rest }
      | .sleep => some { s with control := .function initial .decrement times :: rest }
      | .decrement => some { s with control := .function initial .sti (times - 1) :: rest }
      | .sti =>
          some { s with
            interruptFlag := true
            control := .function initial .test times :: rest }
      | .writeFinished => some { s with control := .function initial .callFinish times :: rest }
      | .callFinish =>
          some { s with
            control := .functionFinish .finished :: .function initial .done times :: rest }
      | .done => some { s with control := [.lost] }
  | .functionFinish pc :: rest =>
      let current := s.threads.currentThread.toNat
      let tcb := s.threads.tcbArray current
      match pc with
      | .finished =>
          if current < n then
            some { s with
              threads := s.threads.setTCB current { tcb with finished := 1 }
              control := .functionFinish .assigned :: rest }
          else none
      | .assigned =>
          if current < n then
            some { s with
              threads := s.threads.setTCB current { tcb with assigned := 0 }
              control := .functionFinish .schedule :: rest }
          else none
      | .schedule =>
          some { s with control := .scheduler .search :: .functionFinish .done :: rest }
      | .done => some { s with control := rest }
  | .timerInterruptHandler pc :: rest =>
      match pc with
      | .outb => some { s with control := .timerInterruptHandler .schedule :: rest }
      | .schedule =>
          some { s with control := .scheduler .search :: .timerInterruptHandler .done :: rest }
      | .done => some { s with control := handlerReturn rest }
  | .scheduler pc :: rest =>
      match pc with
      | .search =>
          let next := nextThread n s.threads n 1
          if next = infinit then some { s with control := [.systemFinish] }
          else some { s with control := .scheduler (.temp next) :: rest }
      | .temp next =>
          some { s with control := .scheduler (.current s.threads.currentThread next) :: rest }
      | .current temp next =>
          some { s with
            threads := { s.threads with currentThread := next }
            control := .scheduler (.call temp next) :: rest }
      | .call temp next =>
          let esi := if temp = -1 then none else some temp.toNat
          some { s with control := .scheduler (.save esi next.toNat) :: rest }
      | .save _ _ => none
      | .load _ => none
      | .pops interruptFlag =>
          some { s with interruptFlag := interruptFlag, control := .scheduler .ret :: rest }
      | .ret => some { s with control := rest }
  | .lost :: _ => none

/-! ## Runs -/

/-- Code moves ESP within the stack it is on, and changes the memory of that
stack only. `home` says to which thread's stack an address belongs. -/
structure OwnStack (home : BitVec 32 → Option ℕ) (s s' : System) : Prop where
  threads : s'.threads = s.threads
  interruptFlag : s'.interruptFlag = s.interruptFlag
  control : s'.control = s.control
  esp : home s'.esp = home s.esp
  context : ∀ a, home a ≠ home s.esp → s'.context a = s.context a

inductive Event where
  | code
  | timer
  deriving DecidableEq

def System.saveTo (s : System) (i edi : ℕ) (esp : BitVec 32) (rest : List Frame) : System where
  threads := s.threads.setTCB i { s.threads.tcbArray i with stackPointer := esp }
  context := Function.update s.context esp ⟨rest, s.interruptFlag⟩
  esp := esp
  interruptFlag := s.interruptFlag
  control := .scheduler (.load edi) :: rest

def System.loadFrom (s : System) (edi : ℕ) : System :=
  let esp := (s.threads.tcbArray edi).stackPointer
  { s with
    esp := esp
    control := .scheduler (.pops (s.context esp).interruptFlag) :: (s.context esp).control }

inductive Step (n : ℕ) (home : BitVec 32 → Option ℕ) : System → Event → System → Prop where
  | statement {s s₁ s' : System} (h : statement n s = some s₁) (hown : OwnStack home s₁ s') :
      Step n home s .code s'
  | saveNone {s : System} {edi : ℕ} {rest : List Frame}
      (h : s.control = .scheduler (.save none edi) :: rest) :
      Step n home s .code { s with control := .scheduler (.load edi) :: rest }
  | save {s : System} {i edi : ℕ} {rest : List Frame}
      (h : s.control = .scheduler (.save (some i) edi) :: rest) (esp : BitVec 32)
      (hesp : home esp = home s.esp) : Step n home s .code (s.saveTo i edi esp rest)
  | load {s : System} {edi : ℕ} {rest : List Frame}
      (h : s.control = .scheduler (.load edi) :: rest) : Step n home s .code (s.loadFrom edi)
  | lost {s : System} {rest : List Frame} (h : s.control = .lost :: rest) (s' : System) :
      Step n home s .code s'
  | timer {s s' : System} (hif : s.interruptFlag = true)
      (hown : OwnStack home
        { s with
          interruptFlag := false
          control := .timerInterruptHandler .outb :: s.control } s') :
      Step n home s .timer s'

/-- The system at the loop of `init`: the threads were created on stacks of their
own, and the frame on each of them starts its function with interrupts
enabled. -/
structure Loaded (n : ℕ) (home : BitVec 32 → Option ℕ) (functions : List (BitVec 32 × BitVec 32))
    (s : System) : Prop where
  threads : ∃ tcbArray mem,
    s.threads = createdThreads threadCreatePreemptive n tcbArray mem functions
  ownStack : ∀ i f, functions[i]? = some f → home f.2 = some i ∧ home (f.2 - 44) = some i
  context : ∀ f ∈ functions, ∃ initial : ℕ,
    s.context (f.2 - 44) = ⟨[.function initial .test initial], true⟩
  esp : home s.esp = none
  interruptFlag : s.interruptFlag = true
  control : s.control = [.init]

/-- The states of the runs, with the states and kinds of the steps that led
there. -/
inductive SystemRun (n : ℕ) (home : BitVec 32 → Option ℕ)
    (functions : List (BitVec 32 × BitVec 32)) : List (System × Event) → System → Prop where
  | start {s : System} (h : Loaded n home functions s) : SystemRun n home functions [] s
  | step {trace : List (System × Event)} {s s' : System} {e : Event}
      (h : SystemRun n home functions trace s) (hstep : Step n home s e s') :
      SystemRun n home functions (trace ++ [(s, e)]) s'

/-- Between `currentThread = nextThread` and the end of `switch_to`. -/
def System.Switching (s : System) : Prop :=
  match s.control with
  | .scheduler .search :: _ => False
  | .scheduler (.temp _) :: _ => False
  | .scheduler (.current _ _) :: _ => False
  | .scheduler _ :: _ => True
  | _ => False

instance (s : System) : Decidable s.Switching :=
  match s with
  | ⟨_, _, _, _, []⟩ => .isFalse id
  | ⟨_, _, _, _, .init :: _⟩ => .isFalse id
  | ⟨_, _, _, _, .systemFinish :: _⟩ => .isFalse id
  | ⟨_, _, _, _, .function _ _ _ :: _⟩ => .isFalse id
  | ⟨_, _, _, _, .functionFinish _ :: _⟩ => .isFalse id
  | ⟨_, _, _, _, .timerInterruptHandler _ :: _⟩ => .isFalse id
  | ⟨_, _, _, _, .lost :: _⟩ => .isFalse id
  | ⟨_, _, _, _, .scheduler pc :: _⟩ =>
      match pc with
      | .search | .temp _ | .current _ _ => .isFalse id
      | .call _ _ | .save _ _ | .load _ | .pops _ | .ret => .isTrue trivial

/-! ## Execution -/

/-- One step of code in which ESP is moved by `switch_to` only. -/
def execute (n : ℕ) (s : System) : Option System :=
  match s.control with
  | .scheduler (.save none edi) :: rest =>
      some { s with control := .scheduler (.load edi) :: rest }
  | .scheduler (.save (some i) edi) :: rest => some (s.saveTo i edi s.esp rest)
  | .scheduler (.load edi) :: _ => some (s.loadFrom edi)
  | _ => statement n s

def interrupt (s : System) : Option System :=
  if s.interruptFlag then
    some { s with interruptFlag := false, control := .timerInterruptHandler .outb :: s.control }
  else none

def executeAll (n : ℕ) : List Event → System → Option System
  | [], s => some s
  | .code :: events, s => (execute n s).bind (executeAll n events)
  | .timer :: events, s => (interrupt s).bind (executeAll n events)

variable {n : ℕ} {home : BitVec 32 → Option ℕ} {s : System}

theorem step_of_execute {s' : System} (h : execute n s = some s') : Step n home s .code s' := by
  rw [execute] at h
  split at h
  · next hcontrol =>
    cases h
    exact .saveNone hcontrol
  · next hcontrol =>
    cases h
    exact .save hcontrol s.esp rfl
  · next hcontrol =>
    cases h
    exact .load hcontrol
  · exact .statement h ⟨rfl, rfl, rfl, rfl, fun _ _ ↦ rfl⟩

theorem step_of_interrupt {s' : System} (h : interrupt s = some s') :
    Step n home s .timer s' := by
  rw [interrupt] at h
  split at h
  · next hif =>
    cases h
    exact .timer hif ⟨rfl, rfl, rfl, rfl, fun _ _ ↦ rfl⟩
  · cases h

/-- The states and kinds of the steps of an execution. -/
def executeTrace (n : ℕ) : List Event → System → List (System × Event)
  | [], _ => []
  | e :: events, s =>
      let next := match e with | .code => execute n s | .timer => interrupt s
      (s, e) :: (next.map (executeTrace n events)).getD []

theorem SystemRun.executeTrace {functions : List (BitVec 32 × BitVec 32)}
    {trace : List (System × Event)} (h : SystemRun n home functions trace s) {events : List Event}
    (hexec : Fifos.executeAll n events s = some s') :
    SystemRun n home functions (trace ++ Fifos.executeTrace n events s) s' := by
  induction events generalizing s trace with
  | nil =>
      cases hexec
      exact (List.append_nil trace).symm ▸ h
  | cons e events ih =>
      cases e with
      | code =>
          obtain ⟨s₁, hfirst, hrest⟩ := Option.bind_eq_some_iff.mp hexec
          have hrun := ih (h.step (step_of_execute hfirst)) hrest
          rw [List.append_assoc] at hrun
          simpa [Fifos.executeTrace, hfirst] using hrun
      | timer =>
          obtain ⟨s₁, hfirst, hrest⟩ := Option.bind_eq_some_iff.mp hexec
          have hrun := ih (h.step (step_of_interrupt hfirst)) hrest
          rw [List.append_assoc] at hrun
          simpa [Fifos.executeTrace, hfirst] using hrun

end OperatingSystem.Fifos
