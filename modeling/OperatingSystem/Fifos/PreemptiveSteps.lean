import OperatingSystem.Fifos.SavedContexts
import OperatingSystem.Lib.ReadyQueue

/-!
# The statements of FIFOS-2

What one statement does in a run without a late interrupt: to the TCBs and to the search of
`scheduler`.
-/

namespace OperatingSystem.Fifos

open RoundRobin ReadyQueue

/-- `currentThread = nextThread` dispatches a thread, and the first statement of
`functionFinish` takes one from the queue. -/
def System.queueEvent (s : System) : Option (QueueEvent ℕ) :=
  match s.control with
  | .scheduler (.current _ next) :: _ => some (.dispatch next.toNat)
  | .functionFinish .finished :: _ => some (.leave s.threads.currentThread.toNat)
  | _ => none

/-- The thread that the search found, until it is dispatched. -/
def System.searched (s : System) : Option (BitVec 32) :=
  match s.control with
  | .scheduler (.temp next) :: _ => some next
  | .scheduler (.current _ next) :: _ => some next
  | _ => none

variable {n m : ℕ} {home : BitVec 32 → Option ℕ} {s s₁ : System}

/-- The four kinds of statements. -/
inductive Change (n : ℕ) (s s₁ : System) : Prop
  | call (hevent : s.queueEvent = none) (hthreads : s₁.threads = s.threads)
      (hsearched : ∀ next, s₁.searched = some next →
        next = nextThread n s.threads n 1 ∨ s.searched = some next)
  | finished {i : ℕ} (hevent : s.queueEvent = some (.leave i))
      (hthreads : s₁.threads = s.threads.setTCB i { s.threads.tcbArray i with finished := 1 })
      (hsearched : s₁.searched = none)
  | assigned {i : ℕ} (hevent : s.queueEvent = none) (hunready : ¬ (s.threads.tcbArray i).Ready)
      (hthreads : s₁.threads = s.threads.setTCB i { s.threads.tcbArray i with assigned := 0 })
      (hsearched : s₁.searched = none)
  | dispatch {next : BitVec 32} (hevent : s.queueEvent = some (.dispatch next.toNat))
      (hfound : s.searched = some next) (hchosen : s.threads.Chosen n next)
      (hthreads : s₁.threads = { s.threads with currentThread := next })
      (hsearched : s₁.searched = none)

theorem Change.of_none (hevent : s.queueEvent = none) (hthreads : s₁.threads = s.threads)
    (hsearched : s₁.searched = none) : Change n s s₁ :=
  .call hevent hthreads fun _ hnext ↦ absurd (hsearched.symm.trans hnext) nofun

theorem searched_of_calm (h : Calm s.control) : s.searched = none := by
  obtain ⟨threads, context, esp, flag, control⟩ := s
  cases h <;> rfl

theorem change_calm (hcalm : Calm s.control) (hs : statement n s = some s₁) : Change n s s₁ := by
  obtain ⟨threads, context, esp, flag, control⟩ := s
  cases hcalm with
  | init =>
      cases hs
      exact .of_none rfl rfl rfl
  | systemFinish =>
      cases hs
      exact .of_none rfl rfl rfl
  | @function initial pc hpc times =>
      cases pc with
      | done => exact absurd rfl hpc
      | _ =>
          cases hs
          exact .of_none rfl rfl rfl
  | finish initial times =>
      dsimp only [statement] at hs
      split at hs <;> cases hs
      exact .finished rfl rfl rfl
  | @handler pc control hcalm hdone =>
      cases pc with
      | outb =>
          cases hs
          exact .of_none rfl rfl rfl
      | schedule =>
          cases hs
          exact .of_none rfl rfl rfl
      | done =>
          cases hs
          rw [handlerReturn_of_calm hcalm]
          exact .of_none rfl rfl (searched_of_calm hcalm)

theorem owner_of_lt (hn : n ≤ 1000) {currentThread : BitVec 32} (hlt : currentThread.toNat < n) :
    owner currentThread = some currentThread.toNat := by
  refine if_neg ?_
  rintro rfl
  have htop : (-1 : BitVec 32).toNat = 4294967295 := rfl
  omega

theorem change_finishing (hn : n ≤ 1000) {f : Frame} {rest : List Frame}
    (hcontrol : s.control = f :: rest) (hf : Finishing f)
    (hon : home s.esp = owner s.threads.currentThread)
    (hunready : s.threads.Unready n (home s.esp)) (hs : statement n s = some s₁) :
    Change n s s₁ := by
  obtain ⟨threads, context, esp, flag, control⟩ := s
  obtain rfl : control = f :: rest := hcontrol
  cases hf with
  | assigned =>
      dsimp only [statement] at hs
      split at hs
      · next hlt =>
        cases hs
        have hnot := hunready _ hlt (hon.trans (owner_of_lt hn hlt))
        exact .assigned rfl hnot rfl rfl
      · cases hs
  | outb =>
      cases hs
      exact .of_none rfl rfl rfl
  | schedule | handlerSchedule =>
      cases hs
      exact .of_none rfl rfl rfl

theorem change_scheduler {pc : SchedulerAt} {rest : List Frame}
    (hcontrol : s.control = .scheduler pc :: rest) (hpc : pc.Holds s.threads n (home s.esp))
    (hs : statement n s = some s₁) : Change n s s₁ := by
  obtain ⟨threads, context, esp, flag, control⟩ := s
  obtain rfl : control = .scheduler pc :: rest := hcontrol
  cases pc with
  | search =>
      dsimp only [statement] at hs
      split at hs
      · cases hs
        exact .of_none rfl rfl rfl
      · cases hs
        exact .call rfl rfl fun next hnext ↦ .inl (Option.some.inj hnext).symm
  | temp next =>
      cases hs
      exact .call rfl rfl fun next hnext ↦ .inr hnext
  | current old next =>
      cases hs
      exact .dispatch rfl rfl hpc.2.2 rfl rfl
  | call old next =>
      cases hs
      exact .of_none rfl rfl rfl
  | save esi edi => cases hs
  | load edi => cases hs
  | pops flag => cases hpc
  | ret => cases hpc

theorem Orderly.change (hn : n ≤ 1000) (h : Orderly n m home s)
    (hs : Fifos.statement n s = some s₁) : Change n s s₁ := by
  rcases h.place with hsteady | hloading
  · cases hsteady with
    | calm hcalm => exact change_calm hcalm hs
    | finishing hcontrol hf hon hunready => exact change_finishing hn hcontrol hf hon hunready hs
    | scheduler hcontrol hpc => exact change_scheduler hcontrol hpc hs
    | restore hcontrol hpc hrest =>
        obtain ⟨threads, context, esp, flag, control⟩ := s
        cases hcontrol
        rcases hpc with rfl | ⟨popped, rfl⟩ <;> cases hs
        · exact .of_none rfl rfl (searched_of_calm hrest.calm)
        · exact .of_none rfl rfl rfl
  · obtain ⟨rest, hcontrol⟩ := hloading.control
    rw [Fifos.statement, hcontrol] at hs
    cases hs

end OperatingSystem.Fifos
