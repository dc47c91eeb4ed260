import OperatingSystem.Fifos.Threads
import OperatingSystem.Lib.RoundRobin

/-!
# The scheduler is a queue

The reference is a queue of thread numbers whose head is dispatched: a yield
moves the running head to the end, a finish removes it. The scan of
`scheduler` over the TCBs dispatches the same threads.
-/

namespace OperatingSystem.Fifos

open RoundRobin

inductive ThreadCall where
  | yield
  | finish

/-- The threads dispatched by the reference queue, one at each call of the
scheduler. `none` stands for `system_finish`, after which nothing runs. -/
def fifoDispatches : List ℕ → List ThreadCall → List (Option ℕ)
  | [], _ => [none]
  | running :: _, [] => [some running]
  | running :: waiting, .yield :: calls =>
      some running :: fifoDispatches (waiting ++ [running]) calls
  | running :: waiting, .finish :: calls => some running :: fifoDispatches waiting calls

def ThreadCall.exec (n : ℕ) (s : Threads) : ThreadCall → Option (Dispatch × Threads)
  | .yield => functionYield n s
  | .finish => functionFinish n s

/-- The threads dispatched by `scheduler`: the outcome of one call of it, and
then of the calls that the running threads make. -/
def dispatches (n : ℕ) : Dispatch × Threads → List ThreadCall → Option (List (Option ℕ))
  | (.systemFinish, _), _ => some [none]
  | (.switchTo _ thread, _), [] => some [some thread]
  | (.switchTo _ thread, s), call :: calls =>
      (call.exec n s).bind fun r ↦ (dispatches n r calls).map fun ds ↦ some thread :: ds

/-- The state before the first call of `scheduler`: the TCBs of the loaded
image are initialised, and one thread is created for each function and
stack. -/
def createdThreads (create : ℕ → Threads → BitVec 32 → BitVec 32 → BitVec 32 × Threads)
    (n : ℕ) (tcbArray : ℕ → TCB) (mem : ℕ → UInt8)
    (functions : List (BitVec 32 × BitVec 32)) : Threads :=
  functions.foldl (fun s f ↦ (create n s f.1 f.2).2)
    (initTCBArray { tcbArray := tcbArray, currentThread := -1, mem := mem } n)

/-! ## The ready queue of the TCBs -/

/-- The index behind the current thread; 0 before the first dispatch. -/
def Threads.start (s : Threads) : ℕ := (s.currentThread + 1).toNat

def Threads.ready (s : Threads) (i : ℕ) : Bool := decide (s.tcbArray i).Ready

def Threads.readyQueue (s : Threads) (n : ℕ) : List ℕ := queue s.ready n s.start

theorem toNat_infinit : infinit.toNat = 1000 := rfl

theorem toNat_ofNat_succ {i : ℕ} (hi : i < 1000) : (BitVec.ofNat 32 i + 1).toNat = i + 1 := by
  have hone : (1 : BitVec 32).toNat = 1 := rfl
  rw [BitVec.toNat_add, BitVec.toNat_ofNat, hone]
  omega

section Scan

variable {n : ℕ} {s : Threads}

/-- The index arithmetic of the scan does not wrap. -/
theorem thread_toNat (hn : n ≤ 1000) (hstart : s.start ≤ n) {j : ℕ} (hj : j < n) :
    ((s.currentThread + (1 + BitVec.ofNat 32 j)) % BitVec.ofNat 32 n).toNat =
      (s.start + j) % n := by
  have hsum : s.currentThread + (1 + BitVec.ofNat 32 j) =
      BitVec.ofNat 32 (s.start + j) := by
    apply BitVec.eq_of_toNat_eq
    rw [← BitVec.add_assoc, BitVec.toNat_add, BitVec.toNat_ofNat, BitVec.toNat_ofNat,
      Nat.add_mod_mod]
    rfl
  rw [hsum, BitVec.toNat_umod, BitVec.toNat_ofNat, BitVec.toNat_ofNat,
    Nat.mod_eq_of_lt (show s.start + j < 2 ^ 32 by omega),
    Nat.mod_eq_of_lt (show n < 2 ^ 32 by omega)]

theorem nextThread_from (hn : n ≤ 1000) (hstart : s.start ≤ n) (fuel j : ℕ)
    (hfuel : j + fuel = n) :
    (nextThread n s fuel (1 + BitVec.ofNat 32 j)).toNat =
      (((List.range' j fuel).map fun i ↦ (s.start + i) % n).find? s.ready).getD 1000 := by
  induction fuel generalizing j with
  | zero => rfl
  | succ fuel ih =>
      have hthread := thread_toNat hn hstart (show j < n by omega)
      have hnext : (1 : BitVec 32) + BitVec.ofNat 32 j + 1 = 1 + BitVec.ofNat 32 (j + 1) := by
        rw [BitVec.add_assoc, BitVec.ofNat_add]
        rfl
      rw [List.range'_succ, List.map_cons, List.find?_cons]
      simp only [nextThread, hthread, hnext]
      by_cases hready : (s.tcbArray ((s.start + j) % n)).Ready
      · rw [if_pos hready, hthread]
        simp [Threads.ready, hready]
      · simp only [Threads.ready, hready, decide_false, if_false]
        exact ih (j + 1) (by omega)

theorem nextThread_eq (hn : n ≤ 1000) (hstart : s.start ≤ n) :
    (nextThread n s n 1).toNat = (s.readyQueue n).head?.getD 1000 := by
  have hloop := nextThread_from hn hstart n 0 (Nat.zero_add n)
  rw [BitVec.add_zero, ← List.range_eq_range'] at hloop
  rw [hloop]
  exact congrArg (Option.getD · 1000) (find?_eq_head? s.ready n s.start)

end Scan

/-- Thread `running` runs and `waiting` is the queue behind it. -/
structure Running (n : ℕ) (s : Threads) (running : ℕ) (waiting : List ℕ) : Prop where
  currentThread : s.currentThread = BitVec.ofNat 32 running
  lt : running < n
  readyQueue : s.readyQueue n = waiting ++ [running]

/-- The outcome of a call of the scheduler on a pending queue. -/
inductive Dispatches (n : ℕ) : List ℕ → Dispatch × Threads → Prop where
  | finished {s : Threads} : Dispatches n [] (.systemFinish, s)
  | running {s : Threads} {esi : Option ℕ} {head : ℕ} {rest : List ℕ}
      (h : Running n s head rest) : Dispatches n (head :: rest) (.switchTo esi head, s)

section Calls

variable {n : ℕ} {s : Threads}

theorem scheduler_dispatches (hn : n ≤ 1000) (hstart : s.start ≤ n) :
    Dispatches n (s.readyQueue n) (scheduler n s) := by
  have hnext := nextThread_eq hn hstart
  rcases hq : s.readyQueue n with _ | ⟨head, rest⟩
  · have hnone : nextThread n s n 1 = infinit := by
      apply BitVec.eq_of_toNat_eq
      rw [hnext, hq]
      rfl
    rw [scheduler, if_pos hnone]
    exact .finished
  · rw [hq] at hnext
    change (nextThread n s n 1).toNat = head at hnext
    have hlt : head < n := (mem_queue.mp (show head ∈ s.readyQueue n by simp [hq])).1
    have hsome : nextThread n s n 1 ≠ infinit := by
      intro heq
      rw [heq, toNat_infinit] at hnext
      omega
    have hrunning : Running n { s with currentThread := nextThread n s n 1 } head rest := by
      have hcurrent : nextThread n s n 1 = BitVec.ofNat 32 head := by
        rw [← hnext, BitVec.ofNat_toNat, BitVec.setWidth_eq]
      refine ⟨hcurrent, hlt, ?_⟩
      rw [Threads.readyQueue, Threads.start, hcurrent, toNat_ofNat_succ (hlt.trans_le hn)]
      exact queue_succ hq
    rw [scheduler, if_neg hsome, hnext]
    dsimp only
    split
    · exact .running hrunning
    · exact .running hrunning

namespace Running

variable {running : ℕ} {waiting : List ℕ}

theorem start_le (h : Running n s running waiting) (hn : n ≤ 1000) : s.start ≤ n := by
  rw [Threads.start, h.currentThread, toNat_ofNat_succ (h.lt.trans_le hn)]
  exact h.lt

theorem toNat_currentThread (h : Running n s running waiting) (hn : n ≤ 1000) :
    s.currentThread.toNat = running := by
  have hlt := h.lt
  rw [h.currentThread, BitVec.toNat_ofNat]
  omega

/-- A yield hands the scheduler the queue with the caller at its end. -/
theorem functionYield (h : Running n s running waiting) (hn : n ≤ 1000) :
    ∃ r, functionYield n s = some r ∧ Dispatches n (waiting ++ [running]) r := by
  refine ⟨_, rfl, ?_⟩
  rw [← h.readyQueue]
  exact scheduler_dispatches hn (h.start_le hn)

/-- A finished thread is not in the queue that the scheduler sees. -/
theorem functionFinish (h : Running n s running waiting) (hn : n ≤ 1000) :
    ∃ r, functionFinish n s = some r ∧ Dispatches n waiting r := by
  have hcurrent := h.toNat_currentThread hn
  rw [Fifos.functionFinish]
  simp only [hcurrent, if_pos h.lt]
  refine ⟨_, rfl, ?_⟩
  have hqueue : queue (Threads.ready
      ((s.setTCB running { s.tcbArray running with finished := 1 }).setTCB running
        { (s.setTCB running { s.tcbArray running with finished := 1 }).tcbArray running with
          assigned := 0 })) n s.start = waiting := by
    apply queue_remove h.readyQueue
    intro i _
    by_cases hi : i = running
    · simp [Threads.ready, TCB.Ready, hi]
    · simp [Threads.ready, hi]
  rw [← hqueue]
  exact scheduler_dispatches hn (h.start_le hn)

theorem exec (h : Running n s running waiting) (hn : n ≤ 1000) (call : ThreadCall) :
    ∃ r, call.exec n s = some r ∧
      Dispatches n (match call with | .yield => waiting ++ [running] | .finish => waiting) r := by
  cases call with
  | yield => exact h.functionYield hn
  | finish => exact h.functionFinish hn

end Running

/-- From the outcome of one call on, code and reference dispatch the same
threads. -/
theorem dispatches_eq_fifo (hn : n ≤ 1000) {q : List ℕ} {r : Dispatch × Threads}
    (h : Dispatches n q r) (calls : List ThreadCall) :
    dispatches n r calls = some (fifoDispatches q calls) := by
  induction calls generalizing q r with
  | nil =>
      cases h with
      | finished => rfl
      | running h => rfl
  | cons call calls ih =>
      cases h with
      | finished => rfl
      | running h =>
          obtain ⟨r', hexec, hr'⟩ := h.exec hn call
          rw [dispatches, hexec, Option.bind_some, ih hr']
          cases call with
          | yield => rfl
          | finish => rfl

end Calls

/-! ## The created threads -/

/-- No thread was dispatched yet, and threads were created in the first `m`
slots. -/
structure Created (n : ℕ) (s : Threads) (m : ℕ) : Prop where
  currentThread : s.currentThread = -1
  le : m ≤ n
  ready : ∀ i < m, (s.tcbArray i).Ready
  unassigned : ∀ i, m ≤ i → i < n → (s.tcbArray i).assigned = 0

theorem initTCBArray_currentThread (s : Threads) (n : ℕ) :
    (initTCBArray s n).currentThread = s.currentThread := by
  induction n with
  | zero => rfl
  | succ n ih => exact ih

theorem initTCBArray_assigned (s : Threads) {n i : ℕ} (hi : i < n) :
    ((initTCBArray s n).tcbArray i).assigned = 0 := by
  induction n with
  | zero => exact (Nat.not_lt_zero i hi).elim
  | succ n ih =>
      by_cases heq : i = n
      · simp [initTCBArray, heq]
      · have hlt : i < n := by omega
        simpa [initTCBArray, heq] using ih hlt

namespace Created

variable {n m : ℕ} {s : Threads}

theorem init (n : ℕ) (tcbArray : ℕ → TCB) (mem : ℕ → UInt8) :
    Created n (initTCBArray { tcbArray := tcbArray, currentThread := -1, mem := mem } n) 0 where
  currentThread := initTCBArray_currentThread _ n
  le := Nat.zero_le n
  ready i hi := (Nat.not_lt_zero i hi).elim
  unassigned _ _ hi := initTCBArray_assigned _ hi

theorem firstUnassigned_eq (h : Created n s m) : firstUnassigned s n = m := by
  have hscan : SlotTable.IsFirstFree (fun i ↦ (s.tcbArray i).assigned = 0) (0 + n)
      (firstUnassigned s n) :=
    SlotTable.isFirstFree_scan n fun j hj ↦ (Nat.not_lt_zero j hj).elim
  rw [Nat.zero_add] at hscan
  apply hscan.unique
  refine ⟨h.le, fun i hi hfree ↦ ?_, h.unassigned m (le_refl m)⟩
  have hone := (h.ready i hi).1
  rw [hfree] at hone
  cases hone

/-- `threadCreate` fills the next slot, or finds none. -/
theorem threadCreateWith (h : Created n s m) (flags functionname stack : BitVec 32) :
    Created n (threadCreateWith flags n s functionname stack).2 (min (m + 1) n) := by
  rw [Fifos.threadCreateWith]
  simp only [h.firstUnassigned_eq]
  by_cases hfull : m = n
  · rw [if_pos hfull, min_eq_right (by omega), ← hfull]
    exact hfull ▸ h
  · have hlt : m < n := lt_of_le_of_ne h.le hfull
    rw [if_neg hfull, min_eq_left hlt]
    obtain ⟨mem, hframe⟩ := writeFrame_mem (s.setTCB m
      { bp := stack, stackPointer := stack - 44, function := functionname
        id := BitVec.ofNat 32 m, finished := 0, assigned := 1, priority := 0 })
      functionname stack flags
    rw [hframe]
    refine ⟨h.currentThread, hlt, fun i hi ↦ ?_, fun i hi hin ↦ ?_⟩
    · by_cases heq : i = m
      · simp [heq, TCB.Ready]
      · simpa [heq] using h.ready i (by omega)
    · have hne : i ≠ m := by omega
      simpa [hne] using h.unassigned i (by omega) hin

theorem creates (h : Created n s m) (flags : BitVec 32)
    (functions : List (BitVec 32 × BitVec 32)) :
    Created n (functions.foldl (fun s f ↦ (Fifos.threadCreateWith flags n s f.1 f.2).2) s)
      (min (m + functions.length) n) := by
  induction functions generalizing s m with
  | nil =>
      rw [List.length_nil, Nat.add_zero, min_eq_left h.le]
      exact h
  | cons f functions ih =>
      have hrest := ih (h.threadCreateWith flags f.1 f.2)
      have hcount : min (min (m + 1) n + functions.length) n =
          min (m + (f :: functions).length) n := by
        rw [List.length_cons]
        omega
      rw [← hcount]
      exact hrest

theorem tcbArray_threadCreateWith (h : Created n s m) (flags functionname stack : BitVec 32) (i : ℕ) :
    (i ≠ m → (Fifos.threadCreateWith flags n s functionname stack).2.tcbArray i = s.tcbArray i) ∧
      (m < n → ((Fifos.threadCreateWith flags n s functionname stack).2.tcbArray m).bp = stack ∧
        ((Fifos.threadCreateWith flags n s functionname stack).2.tcbArray m).stackPointer =
          stack - 44) := by
  rw [Fifos.threadCreateWith]
  simp only [h.firstUnassigned_eq]
  by_cases hfull : m = n
  · rw [if_pos hfull]
    exact ⟨fun _ ↦ rfl, fun hlt ↦ absurd hfull hlt.ne⟩
  · rw [if_neg hfull]
    obtain ⟨mem, hframe⟩ := writeFrame_mem (s.setTCB m
      { bp := stack, stackPointer := stack - 44, function := functionname
        id := BitVec.ofNat 32 m, finished := 0, assigned := 1, priority := 0 })
      functionname stack flags
    rw [hframe]
    refine ⟨fun hi ↦ ?_, fun _ ↦ ?_⟩
    · exact Function.update_of_ne hi ..
    · simp

theorem tcbArray_creates_of_lt (h : Created n s m) (flags : BitVec 32)
    (functions : List (BitVec 32 × BitVec 32)) {i : ℕ} (hi : i < m) :
    (functions.foldl (fun s f ↦ (Fifos.threadCreateWith flags n s f.1 f.2).2) s).tcbArray i =
      s.tcbArray i := by
  induction functions generalizing s m with
  | nil => rfl
  | cons f functions ih =>
      have hle := h.le
      have hcreated := h.threadCreateWith flags f.1 f.2
      rw [List.foldl_cons, ih hcreated (by omega)]
      exact (h.tcbArray_threadCreateWith flags f.1 f.2 i).1 hi.ne

/-- Thread `j` has the stack that it was created with. -/
theorem tcbArray_creates (h : Created n s m) (flags : BitVec 32)
    (functions : List (BitVec 32 × BitVec 32)) {j : ℕ} {f : BitVec 32 × BitVec 32}
    (hj : functions[j]? = some f) (hlt : m + j < n) :
    ((functions.foldl (fun s f ↦ (Fifos.threadCreateWith flags n s f.1 f.2).2) s).tcbArray
        (m + j)).bp = f.2 ∧
      ((functions.foldl (fun s f ↦ (Fifos.threadCreateWith flags n s f.1 f.2).2) s).tcbArray
        (m + j)).stackPointer = f.2 - 44 := by
  induction functions generalizing s m j with
  | nil => cases hj
  | cons f' functions ih =>
      have hcreated := h.threadCreateWith flags f'.1 f'.2
      rw [min_eq_left (show m + 1 ≤ n by omega)] at hcreated
      rw [List.foldl_cons]
      cases j with
      | zero =>
          obtain rfl : f' = f := Option.some.inj hj
          rw [Nat.add_zero, hcreated.tcbArray_creates_of_lt flags functions (Nat.lt_succ_self m)]
          exact (h.tcbArray_threadCreateWith flags f'.1 f'.2 m).2 (by omega)
      | succ j =>
          rw [show m + (j + 1) = m + 1 + j by omega]
          exact ih hcreated hj (by omega)

/-- Before the first dispatch the ready threads queue in the order of their
slots. -/
theorem readyQueue (h : Created n s m) : s.start = 0 ∧ s.readyQueue n = List.range m := by
  have hstart : s.start = 0 := by
    rw [Threads.start, h.currentThread]
    rfl
  refine ⟨hstart, ?_⟩
  rw [Threads.readyQueue, hstart]
  apply queue_zero h.le
  intro i hi
  by_cases him : i < m
  · simp [Threads.ready, h.ready i him, him]
  · have hzero := h.unassigned i (by omega) hi
    simp [Threads.ready, TCB.Ready, hzero, him]

end Created

/-- For every table size the dispatched threads are those of the queue that
starts with the created threads; the run ends in `system_finish` when and only
when that queue is empty. -/
theorem scheduler_is_fifo (n : ℕ) (hn : n ≤ 1000) (tcbArray : ℕ → TCB)
    (mem : ℕ → UInt8) (functions : List (BitVec 32 × BitVec 32)) (calls : List ThreadCall) :
    dispatches n (scheduler n (createdThreads threadCreate n tcbArray mem functions)) calls =
      some (fifoDispatches (List.range (min functions.length n)) calls) := by
  have hcreated := (Created.init n tcbArray mem).creates 2 functions
  rw [Nat.zero_add] at hcreated
  obtain ⟨hstart, hqueue⟩ := hcreated.readyQueue
  apply dispatches_eq_fifo hn
  rw [← hqueue]
  apply scheduler_dispatches hn
  rw [hstart]
  exact Nat.zero_le n

/-- The table of the source, with two of three slots filled. -/
theorem scheduler_is_fifo_three :
    dispatches 3 (scheduler 3 (createdThreads threadCreate 3 (fun _ ↦ ⟨0, 0, 0, 0, 0, 0, 0⟩)
      (fun _ ↦ 0) [(0x1000, 0x3000), (0x2000, 0x4000)])) [.yield, .finish, .yield, .finish] =
      some [some 0, some 1, some 0, some 0, none] :=
  scheduler_is_fifo 3 (by decide) _ _ _ _

end OperatingSystem.Fifos
