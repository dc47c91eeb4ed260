import OperatingSystem.Fifos.PreemptiveSteps

/-!
# The ready queue under preemption

In FIFOS-2 the timer can interrupt a thread, `functionFinish`, and the search that
`functionFinish` makes. As long as it does not come too late, the threads that are
dispatched are those of a ready queue: none is passed over, and none waits for long.
-/

namespace OperatingSystem.Fifos

open RoundRobin ReadyQueue PartialRun

/-! ## Events of the queue -/

def stepEvent (p : System × Event) : Option (QueueEvent ℕ) :=
  match p.2 with
  | .code => p.1.queueEvent
  | .timer => none

def queueEvents (trace : List (System × Event)) : List (QueueEvent ℕ) :=
  trace.filterMap stepEvent

def dispatched (trace : List (System × Event)) : List ℕ :=
  ReadyQueue.dispatches (queueEvents trace)

theorem queueEvents_concat (trace : List (System × Event)) (p : System × Event) :
    queueEvents (trace ++ [p]) = queueEvents trace ++ (stepEvent p).toList := by
  rw [queueEvents, List.filterMap_append]
  cases hp : stepEvent p <;> simp [queueEvents, hp]

variable {n m : ℕ} {home : BitVec 32 → Option ℕ} {s s₁ s' : System} {t : Threads}

/-! ## The ready queue of the TCBs -/

/-- The dispatched thread was the head of the queue and goes to its end. -/
theorem readyQueue_dispatch (hn : n ≤ 1000) (hstart : t.start ≤ n)
    (hchosen : t.Chosen n (nextThread n t n 1)) :
    ReadyQueue.step (t.readyQueue n) (.dispatch (nextThread n t n 1).toNat) =
      some ({ t with currentThread := nextThread n t n 1 }.readyQueue n) := by
  have hnext := nextThread_eq hn hstart
  have hlt := hchosen.1
  rcases hq : t.readyQueue n with _ | ⟨head, rest⟩
  · rw [hq] at hnext
    have hthousand : (nextThread n t n 1).toNat = 1000 := hnext
    omega
  · rw [hq] at hnext
    have hhead : (nextThread n t n 1).toNat = head := hnext
    have hcurrent : nextThread n t n 1 = BitVec.ofNat 32 head := by
      rw [← hhead, BitVec.ofNat_toNat, BitVec.setWidth_eq]
    have hstart' : { t with currentThread := nextThread n t n 1 }.start = head + 1 := by
      rw [Threads.start, hcurrent, toNat_ofNat_succ (by omega)]
    rw [hhead, step_dispatch, Threads.readyQueue, hstart']
    exact congrArg some (queue_succ hq).symm

theorem start_dispatch (hn : n ≤ 1000) {next : BitVec 32} (hlt : next.toNat < n) :
    { t with currentThread := next }.start ≤ n := by
  have hcurrent : next = BitVec.ofNat 32 next.toNat := by
    rw [BitVec.ofNat_toNat, BitVec.setWidth_eq]
  rw [Threads.start, hcurrent, toNat_ofNat_succ (by omega)]
  exact hlt

theorem readyQueue_congr {t' : Threads} (hcurrent : t'.currentThread = t.currentThread)
    (hready : ∀ i, (t'.tcbArray i).Ready ↔ (t.tcbArray i).Ready) :
    t'.readyQueue n = t.readyQueue n := by
  have hsame : t'.ready = t.ready := funext fun i ↦ decide_eq_decide.mpr (hready i)
  rw [Threads.readyQueue, Threads.readyQueue, Threads.start, hcurrent, hsame, Threads.start]

theorem ready_assigned {i : ℕ} (hunready : ¬ (t.tcbArray i).Ready) (j : ℕ) :
    ((t.setTCB i { t.tcbArray i with assigned := 0 }).tcbArray j).Ready ↔ (t.tcbArray j).Ready := by
  by_cases hj : j = i
  · simpa [hj, TCB.Ready] using hunready
  · simp [hj]

/-- A TCB that becomes unready leaves the queue. -/
theorem readyQueue_leave {i : ℕ} {tcb : TCB} (hunready : ¬ tcb.Ready) :
    (t.setTCB i tcb).readyQueue n = (t.readyQueue n).filter (· ≠ i) := by
  rw [Threads.readyQueue, Threads.readyQueue, queue, queue, List.filter_filter]
  refine List.filter_congr fun j _ ↦ ?_
  by_cases hj : j = i
  · simp [Threads.ready, hj, hunready]
  · simp [Threads.ready, hj]

/-! ## Steps -/

/-- The index at which a search starts is one of the table, and a thread that was found
is still the one that a search would find. -/
structure Queued (n : ℕ) (s : System) : Prop where
  start_le : s.threads.start ≤ n
  searched : ∀ next, s.searched = some next → next = nextThread n s.threads n 1

/-- The queue follows the event, if there is one. -/
def FollowsQueue (n : ℕ) (s s' : System) (e : Option (QueueEvent ℕ)) : Prop :=
  run ReadyQueue.step (s.threads.readyQueue n) e.toList = some (s'.threads.readyQueue n)

theorem followsQueue_none (h : s'.threads.readyQueue n = s.threads.readyQueue n) :
    FollowsQueue n s s' none := congrArg some h.symm

theorem Queued.of_ready (h : Queued n s) (hsearched : s'.searched = none)
    (hcurrent : s'.threads.currentThread = s.threads.currentThread) : Queued n s' where
  start_le := by
    rw [Threads.start, hcurrent]
    exact h.start_le
  searched := fun next hnext ↦ absurd (hsearched.symm.trans hnext) nofun

theorem Queued.change (hn : n ≤ 1000) (h : Queued n s) (hc : Change n s s₁) :
    Queued n s₁ ∧ FollowsQueue n s s₁ s.queueEvent := by
  cases hc with
  | call hevent hthreads hsearched =>
      refine ⟨⟨hthreads ▸ h.start_le, fun next hnext ↦ ?_⟩, ?_⟩
      · rw [hthreads]
        exact (hsearched next hnext).elim id (h.searched next)
      · rw [hevent]
        exact followsQueue_none (hthreads ▸ rfl)
  | finished hevent hthreads hsearched =>
      refine ⟨h.of_ready hsearched (hthreads ▸ rfl), ?_⟩
      rw [hevent, FollowsQueue, hthreads, readyQueue_leave (TCB.not_ready_of_finished rfl)]
      rfl
  | assigned hevent hunready hthreads hsearched =>
      refine ⟨h.of_ready hsearched (hthreads ▸ rfl), ?_⟩
      rw [hevent]
      refine followsQueue_none ?_
      rw [hthreads]
      exact readyQueue_congr rfl (ready_assigned hunready)
  | dispatch hevent hfound hchosen hthreads hsearched =>
      obtain rfl := h.searched _ hfound
      refine ⟨⟨?_, fun next hnext ↦ absurd (hsearched.symm.trans hnext) nofun⟩, ?_⟩
      · rw [hthreads]
        exact start_dispatch hn hchosen.1
      · rw [hevent, FollowsQueue, hthreads]
        exact (run_cons_eq_some_iff _).mpr ⟨_, readyQueue_dispatch hn h.start_le hchosen, rfl⟩

theorem Queued.ownStack (h : Queued n s₁) (hown : OwnStack home s₁ s') : Queued n s' := by
  have hsearched : s'.searched = s₁.searched := by
    rw [System.searched, System.searched, hown.control]
  refine ⟨hown.threads ▸ h.start_le, fun next hnext ↦ ?_⟩
  rw [hown.threads]
  exact h.searched next (hsearched.symm.trans hnext)

/-- Every step but a late interrupt follows the queue. -/
theorem Queued.step (hn : n ≤ 1000) (h : Queued n s) (horderly : Orderly n m home s) {e : Event}
    (hstep : Step n home s e s') : Queued n s' ∧ FollowsQueue n s s' (stepEvent (s, e)) := by
  cases hstep with
  | statement hs hown =>
      obtain ⟨hqueued, hfollows⟩ := h.change hn (horderly.change hn hs)
      refine ⟨hqueued.ownStack hown, ?_⟩
      rw [FollowsQueue, hown.threads]
      exact hfollows
  | saveNone hcontrol =>
      have hevent : s.queueEvent = none := by rw [System.queueEvent, hcontrol]
      refine ⟨h.of_ready rfl rfl, ?_⟩
      rw [stepEvent, hevent]
      exact followsQueue_none rfl
  | @save i edi rest hcontrol esp hesp =>
      have hevent : s.queueEvent = none := by rw [System.queueEvent, hcontrol]
      refine ⟨h.of_ready rfl rfl, ?_⟩
      rw [stepEvent, hevent]
      refine followsQueue_none (readyQueue_congr rfl fun j ↦ ?_)
      by_cases hj : j = i
      · simp [System.saveTo, hj, TCB.Ready]
      · simp [System.saveTo, hj]
  | load hcontrol =>
      have hevent : s.queueEvent = none := by rw [System.queueEvent, hcontrol]
      refine ⟨h.of_ready rfl rfl, ?_⟩
      rw [stepEvent, hevent]
      exact followsQueue_none rfl
  | lost hcontrol => exact absurd hcontrol horderly.not_lost
  | timer hif hown =>
      have hinterrupted : Queued n { s with
          interruptFlag := false
          control := .timerInterruptHandler .outb :: s.control } := h.of_ready rfl rfl
      exact ⟨hinterrupted.ownStack hown, followsQueue_none (hown.threads ▸ rfl)⟩

/-! ## Runs -/

theorem Loaded.queued {functions : List (BitVec 32 × BitVec 32)} (h : Loaded n home functions s) :
    Queued n s ∧ s.threads.readyQueue n = List.range (min functions.length n) := by
  obtain ⟨tcbArray, mem, hthreads⟩ := h.threads
  have hcreated := (Created.init n tcbArray mem).creates 0x202 functions
  rw [Nat.zero_add] at hcreated
  obtain ⟨hstart, hqueue⟩ := hcreated.readyQueue
  refine ⟨⟨?_, fun next hnext ↦ ?_⟩, hthreads ▸ hqueue⟩
  · rw [hthreads]
    exact hstart.trans_le (Nat.zero_le n)
  · rw [System.searched, h.control] at hnext
    cases hnext

theorem SystemRun.queued (hn : n ≤ 1000) {functions : List (BitVec 32 × BitVec 32)}
    {trace : List (System × Event)} (h : SystemRun n home functions trace s)
    (htimer : ∀ p ∈ trace, p.2 = .timer → ¬ p.1.Switching) :
    Queued n s ∧ run ReadyQueue.step (List.range (min functions.length n)) (queueEvents trace) =
      some (s.threads.readyQueue n) := by
  induction h with
  | start hloaded =>
      obtain ⟨hqueued, hqueue⟩ := hloaded.queued
      exact ⟨hqueued, congrArg some hqueue.symm⟩
  | @step trace s s' e hrun hstep ih =>
      have hbefore : ∀ p ∈ trace, p.2 = .timer → ¬ p.1.Switching := fun p hp ↦
        htimer p (List.mem_append_left _ hp)
      obtain ⟨hqueued, hqueue⟩ := ih hbefore
      obtain ⟨hnext, hfollows⟩ := hqueued.step hn (hrun.orderly hn hbefore) hstep
      refine ⟨hnext, ?_⟩
      rw [queueEvents_concat, run_append, hqueue]
      exact hfollows

/-- In every run without a late interrupt the threads are dispatched by a ready queue, in
which the created threads wait at the start in the order of their slots. -/
theorem preemptive_scheduler_is_queue (hn : n ≤ 1000) {functions : List (BitVec 32 × BitVec 32)}
    {trace : List (System × Event)} (h : SystemRun n home functions trace s)
    (htimer : ∀ p ∈ trace, p.2 = .timer → ¬ p.1.Switching) :
    run ReadyQueue.step (List.range (min functions.length n)) (queueEvents trace) =
      some (s.threads.readyQueue n) :=
  (h.queued hn htimer).2

/-- A thread that has not finished is among any dispatches in a row that are as many as
the created threads. -/
theorem no_thread_starves (hn : n ≤ 1000) {functions : List (BitVec 32 × BitVec 32)}
    {before segment : List (System × Event)}
    (h : SystemRun n home functions (before ++ segment) s)
    (htimer : ∀ p ∈ before ++ segment, p.2 = .timer → ¬ p.1.Switching) {i : ℕ} (hi : i < n)
    (hready : (s.threads.tcbArray i).Ready)
    (hcount : min functions.length n ≤ (dispatched segment).length) :
    i ∈ dispatched segment := by
  have hrun := (h.queued hn htimer).2
  rw [queueEvents, List.filterMap_append, run_append] at hrun
  obtain ⟨q, hbefore, hsegment⟩ := Option.bind_eq_some_iff.mp hrun
  have hmem : i ∈ s.threads.readyQueue n := mem_queue.mpr ⟨hi, decide_eq_true hready⟩
  have hlength := length_le_of_run hbefore
  rw [List.length_range] at hlength
  exact bounded_waiting hsegment hmem (hlength.trans hcount)

/-! ## Three switches -/

/-- The timer interrupts the loop of `init`, then the first and the second thread. -/
def threeSwitches : List Event := (List.replicate 3 (.timer :: List.replicate 10 .code)).flatten

/-- After the three switches each thread runs to its end. -/
def wholeRun : List Event := threeSwitches ++ List.replicate 109 .code

theorem preemptive_scheduler_is_queue_three : ∃ trace s,
    SystemRun 3 threadStacks createThreads trace s ∧ s.control = [.systemFinish] ∧
      queueEvents trace = [.dispatch 0, .dispatch 1, .dispatch 2, .leave 2, .dispatch 0, .leave 0,
        .dispatch 1, .leave 1] ∧
        run ReadyQueue.step (List.range 3) (queueEvents trace) =
          some (s.threads.readyQueue 3) := by
  have hwhole : (executeAll 3 wholeRun loadedSystem).map (fun s ↦ s.control) =
      some [.systemFinish] := by decide +kernel
  obtain ⟨s, hexec, hcontrol⟩ := Option.map_eq_some_iff.mp hwhole
  have hrun := (SystemRun.start loaded_loadedSystem).executeTrace hexec
  rw [List.nil_append] at hrun
  have hevents : queueEvents (executeTrace 3 wholeRun loadedSystem) =
      [.dispatch 0, .dispatch 1, .dispatch 2, .leave 2, .dispatch 0, .leave 0, .dispatch 1,
        .leave 1] := by decide +kernel
  have htimer : ∀ p ∈ executeTrace 3 wholeRun loadedSystem,
      p.2 = .timer → ¬ p.1.Switching := by decide +kernel
  have hqueue := preemptive_scheduler_is_queue (by decide) hrun htimer
  rw [show min createThreads.length 3 = 3 from rfl] at hqueue
  exact ⟨_, s, hrun, hcontrol, hevents, hqueue⟩

theorem no_thread_starves_third : ∃ trace s, SystemRun 3 threadStacks createThreads trace s ∧
    (s.threads.tcbArray 2).Ready ∧ 2 ∈ dispatched trace := by
  have hready : (executeAll 3 threeSwitches loadedSystem).map
      (fun s ↦ decide (s.threads.tcbArray 2).Ready) = some true := by decide +kernel
  obtain ⟨s, hexec, hs⟩ := Option.map_eq_some_iff.mp hready
  have hrun := (SystemRun.start loaded_loadedSystem).executeTrace hexec
  have htimer : ∀ p ∈ Fifos.executeTrace 3 threeSwitches loadedSystem,
      p.2 = .timer → ¬ p.1.Switching := by decide +kernel
  have hcount : min createThreads.length 3 ≤
      (dispatched (Fifos.executeTrace 3 threeSwitches loadedSystem)).length := by
    decide +kernel
  exact ⟨_, s, hrun, of_decide_eq_true hs,
    no_thread_starves (by decide) hrun htimer (by decide) (of_decide_eq_true hs) hcount⟩

end OperatingSystem.Fifos
