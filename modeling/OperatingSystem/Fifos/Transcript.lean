import OperatingSystem.Lib.ServiceRounds
import OperatingSystem.Fifos.InitialFrame
import OperatingSystem.Fifos.Queue

/-!
# What FIFOS-1 writes

`init` of FIFOS-1 with the functions of its threads, from the welcome to the jump to
`system_finish`: the strings that it gives to `terminal_writestring`. A thread that
`switch_to` gives another DS than that of the data segment does not get so far.
-/

namespace OperatingSystem.Fifos

open ServiceRounds I386 ByteMemory

/-! ## The data segment of a thread -/

/-- The one segment in the GDT of `boot.s` through which data can be stored. -/
def dataSelector : BitVec 16 := 0x10

/-- What `switch_to` pops into DS when it takes the frame of thread `i`. -/
def Threads.frameDs (s : Threads) (i : ℕ) : BitVec 16 :=
  halfOf (readBytes s.mem ((s.tcbArray i).stackPointer + 6).toNat 2)

/-- The half word that `threadCreate` leaves out between the words and the half words. -/
def gapHalf (mem : ℕ → UInt8) (stack : BitVec 32) : BitVec 16 :=
  halfOf (readBytes mem (stack - 38).toNat 2)

/-! ## The program -/

def ascii (s : String) : List (BitVec 8) := s.toList.map fun c ↦ BitVec.ofNat 8 c.toNat

/-- `function1` and its like: what a thread writes in each round of its loop and behind the
loop, and what `createThreads` writes about it. -/
structure ThreadFunction where
  address : BitVec 32
  stack : BitVec 32
  label : List (BitVec 8)
  times : ℕ
  funished : List (BitVec 8)
  created : List (BitVec 8)
  failed : List (BitVec 8)

/-- The TCBs, the variable `times` on the stack of each thread, and the strings written. -/
structure Kernel where
  threads : Threads
  times : ℕ → ℕ
  written : List (List (BitVec 8))

namespace Kernel

def write (data : List (BitVec 8)) (k : Kernel) : Kernel :=
  { k with written := k.written ++ [data] }

/-- A thread from one call of the scheduler to the next one: a round of the loop, or what
stands behind it. -/
def threadSlice (n : ℕ) (f : ThreadFunction) (thread : ℕ) (k : Kernel) :
    Option (Dispatch × Kernel) :=
  -- `terminal_writestring` uses DS, and there is no handler for the fault. A thread that was
  -- switched away takes the DS again with which it ran.
  if k.threads.frameDs thread ≠ dataSelector then none
  else if k.times thread ≠ 0 then
    let k := k.write f.label
    let k := { k with times := Function.update k.times thread (k.times thread - 1) }
    (functionYield n k.threads).map fun r ↦ (r.1, { k with threads := r.2 })
  else
    let k := k.write f.funished
    (functionFinish n k.threads).map fun r ↦ (r.1, { k with threads := r.2 })

/-- The strings at the end, if `system_finish` is reached with the given number of slices.
`scheduler` writes the last one before its jump. -/
def run (n : ℕ) (functions : List ThreadFunction) :
    ℕ → Dispatch × Kernel → Option (List (List (BitVec 8)))
  | _, (.systemFinish, k) => some (k.write (ascii "All threads done")).written
  | 0, (.switchTo _ _, _) => none
  | fuel + 1, (.switchTo _ thread, k) =>
      (functions[thread]?).bind fun f ↦ (k.threadSlice n f thread).bind (run n functions fuel)

def createThread (n : ℕ) (k : Kernel) (f : ThreadFunction) : Kernel :=
  let r := threadCreate n k.threads f.address f.stack
  { k with threads := r.2 }.write (if r.1 = 0 then f.failed else f.created)

def createThreads (n : ℕ) (functions : List ThreadFunction) (k : Kernel) : Kernel :=
  functions.foldl (createThread n) k

/-- The state when `init` calls `initTCBArray`. The thread in a slot will run the function
that was created there. -/
def welcome (n : ℕ) (functions : List ThreadFunction) (tcbArray : ℕ → TCB) (mem : ℕ → UInt8) :
    Kernel where
  threads := initTCBArray { tcbArray := tcbArray, currentThread := -1, mem := mem } n
  times := fun i ↦ (functions[i]?.map ThreadFunction.times).getD 0
  written := [ascii "FIFOS-1: Welcome to FIFOS-1 System!",
    ascii "                by Jiying & Mingxin"]

/-- `init` up to the outcome of its call of `scheduler`. -/
def init (n : ℕ) (functions : List ThreadFunction) (tcbArray : ℕ → TCB) (mem : ℕ → UInt8) :
    Dispatch × Kernel :=
  let k := createThreads n functions (welcome n functions tcbArray mem)
  let r := scheduler n k.threads
  (r.1, { k with threads := r.2 })

end Kernel

/-- The functions of `init.c` at some addresses. -/
def builtFunctions (address stack : ℕ → BitVec 32) : List ThreadFunction :=
  [⟨address 1, stack 1, ascii "<1>", 3, ascii "thread 'function1' funished.",
      ascii "thread 'function1' created.", ascii "create thread 'function1' failed."⟩,
    ⟨address 2, stack 2, ascii "<2>", 4, ascii "thread 'function2' funished.",
      ascii "thread 'function2' created.", ascii "create thread 'function2' failed."⟩,
    ⟨address 3, stack 3, ascii "<3>", 5, ascii "thread 'function3' funished.",
      ascii "thread 'function3' created.", ascii "create thread 'function3' failed."⟩]

/-! ## The law -/

/-- What a thread writes when it is served for the `r`-th time, counted from 0. -/
def ThreadFunction.line (f : ThreadFunction) (r : ℕ) : Option (List (BitVec 8)) :=
  if r < f.times then some f.label else if r = f.times then some f.funished else none

def roundLines (functions : List ThreadFunction) : List (List (BitVec 8)) :=
  (List.range ((functions.map ThreadFunction.times).foldr max 0 + 1)).flatMap fun r ↦
    functions.filterMap fun f ↦ f.line r

/-- One line for each function: the first `n` threads find a TCB. -/
def creationLines (n : ℕ) (functions : List ThreadFunction) : List (List (BitVec 8)) :=
  (functions.take n).map ThreadFunction.created ++ (functions.drop n).map ThreadFunction.failed

/-- All lines from the welcome to the end. -/
def transcript (n : ℕ) (functions : List ThreadFunction) : List (List (BitVec 8)) :=
  [ascii "FIFOS-1: Welcome to FIFOS-1 System!",
      ascii "                by Jiying & Mingxin"] ++ creationLines n functions ++
    roundLines (functions.take n) ++ [ascii "All threads done"]

variable {n : ℕ} {functions : List ThreadFunction} {k : Kernel}

/-! ## Creation -/

theorem threadCreate_ret {s : Threads} {m : ℕ} (h : Created n s m)
    (functionname stack : BitVec 32) :
    (threadCreate n s functionname stack).1 = if m = n then 0 else 1 := by
  rw [threadCreate, threadCreateWith]
  simp only [h.firstUnassigned_eq]
  split <;> rfl

theorem creationLines_cons (m : ℕ) (f : ThreadFunction) (functions : List ThreadFunction) :
    creationLines m (f :: functions) =
      (if m = 0 then f.failed else f.created) :: creationLines (m - 1) functions := by
  cases m with
  | zero => rfl
  | succ m => rfl

theorem createThreads_eq {m : ℕ} (h : Created n k.threads m) :
    Created n (k.createThreads n functions).threads (min (m + functions.length) n) ∧
      (k.createThreads n functions).times = k.times ∧
      (k.createThreads n functions).written =
        k.written ++ creationLines (n - m) functions := by
  induction functions generalizing k m with
  | nil =>
      rw [List.length_nil, Nat.add_zero, min_eq_left h.le]
      exact ⟨h, rfl, by simp [Kernel.createThreads, creationLines]⟩
  | cons f functions ih =>
      have hnext : Created n (k.createThread n f).threads (min (m + 1) n) :=
        h.threadCreateWith 2 f.address f.stack
      obtain ⟨hcreated, htimes, hwritten⟩ := ih hnext
      have hle := h.le
      have hwrite : (k.createThread n f).written =
          k.written ++ [if n - m = 0 then f.failed else f.created] := by
        rw [Kernel.createThread, threadCreate_ret h]
        by_cases hfull : m = n
        · simp [Kernel.write, hfull]
        · have hroom : n - m ≠ 0 := by omega
          simp [Kernel.write, hfull, hroom]
      refine ⟨?_, htimes, ?_⟩
      · have hcount : min (min (m + 1) n + functions.length) n =
            min (m + (f :: functions).length) n := by
          rw [List.length_cons]
          omega
        rw [← hcount]
        exact hcreated
      · have hleft : n - min (m + 1) n = n - m - 1 := by omega
        rw [creationLines_cons, ← hleft, List.append_cons, ← hwrite]
        exact hwritten

/-! ## The frames of the created threads -/

/-- Each function has room for a frame on a stack of its own. -/
structure StacksApart (functions : List ThreadFunction) : Prop where
  room : ∀ f ∈ functions, 48 ≤ f.stack.toNat ∧ f.stack.toNat + 4 ≤ 4294967296
  apart : functions.Pairwise fun f g ↦
    f.stack.toNat + 50 ≤ g.stack.toNat ∨ g.stack.toNat + 50 ≤ f.stack.toNat

/-- The creation of the thread leaves the two bytes from `a` on alone. -/
def ThreadFunction.Spares (f : ThreadFunction) (a : ℕ) : Prop :=
  a + 48 ≤ f.stack.toNat ∨ a = f.stack.toNat - 38 ∨ f.stack.toNat + 4 ≤ a

theorem restoreContext_ds (m : Machine) : (restoreContext m).seg .ds =
    halfOf (readBytes m.mem (m.load32 (m.reg .edi) + 6).toNat 2) := by
  simp [restoreContext, Machine.ret, Machine.popfl, Machine.popal, Machine.popl, Machine.popw,
    Machine.drop, Machine.top, Machine.setReg, Machine.setSeg, Machine.movlFrom]

theorem AtRestore.seg_ds {m : Machine} {s : Threads} {i : ℕ} {stack : ThreadStack}
    (h : AtRestore m s i stack) (hpointer : (s.tcbArray i).stackPointer = stack.top - 44) :
    (restoreContext m).seg .ds = s.frameDs i := by
  have hroom := stack.room
  have haddress : (stack.top - 44 + 6).toNat = stack.top.toNat - 38 := by
    bv_omega
  rw [restoreContext_ds, h.pointer, Threads.frameDs, hpointer, haddress]
  refine congrArg halfOf (readBytes_congr fun k hk ↦ h.memory _ ?_ ?_) <;> omega

theorem createThread_threads (n : ℕ) (k : Kernel) (f : ThreadFunction) :
    (k.createThread n f).threads = (threadCreate n k.threads f.address f.stack).2 := rfl

theorem createThread_spares {f : ThreadFunction} {a : ℕ}
    (hroom : 48 ≤ f.stack.toNat ∧ f.stack.toNat + 4 ≤ 4294967296) (ha : f.Spares a) (n : ℕ)
    (k : Kernel) :
    readBytes (k.createThread n f).threads.mem a 2 = readBytes k.threads.mem a 2 := by
  rw [createThread_threads]
  by_cases hfull : firstUnassigned k.threads n = n
  · simp only [threadCreate, threadCreateWith, if_pos hfull]
  · obtain ⟨t, -, hcreate⟩ := threadCreateWith_eq 2 f.address f.stack hfull
    have hcreate := hcreate k.threads.mem
    change threadCreate n k.threads f.address f.stack = _ at hcreate
    let stack : ThreadStack := ⟨0, f.stack, by omega, hroom.2⟩
    have hwords := length_newWords f.address 2
    have hhalves : newHalves.length = 8 := rfl
    have hframe := mem_writeFrame (k.threads.setTCB (firstUnassigned k.threads n) t) f.address 2
      stack
    have hbelow : a + 2 ≤ f.stack.toNat - 46 ∨ f.stack.toNat - 46 + newHalves.length ≤ a := by
      rcases ha with ha | ha | ha <;> omega
    have habove : a + 2 ≤ f.stack.toNat - 36 ∨
        f.stack.toNat - 36 + (newWords f.address 2).length ≤ a := by
      rcases ha with ha | ha | ha <;> omega
    rw [hcreate]
    refine (congrArg (readBytes · a 2) hframe).trans ?_
    rw [readBytes_writeBytes_of_disjoint hbelow, readBytes_writeBytes_of_disjoint habove]
    rfl

theorem createThreads_threads (n : ℕ) (functions : List ThreadFunction) (k : Kernel) :
    (k.createThreads n functions).threads =
      (functions.map fun f ↦ (f.address, f.stack)).foldl
        (fun s f ↦ (threadCreateWith 2 n s f.1 f.2).2) k.threads := by
  induction functions generalizing k with
  | nil => rfl
  | cons f functions ih => exact ih (k.createThread n f)

theorem stackPointer_createThreads {i : ℕ} {f : ThreadFunction} (hf : functions[i]? = some f)
    (hlt : i < n) (tcbArray : ℕ → TCB) (mem : ℕ → UInt8) :
    ((Kernel.createThreads n functions
      (Kernel.welcome n functions tcbArray mem)).threads.tcbArray i).stackPointer =
        f.stack - 44 := by
  have hslot : (functions.map fun f ↦ (f.address, f.stack))[i]? = some (f.address, f.stack) := by
    rw [List.getElem?_map, hf, Option.map_some]
  have hcreates := ((Created.init n tcbArray mem).tcbArray_creates 2 _ hslot (by omega)).2
  rw [Nat.zero_add] at hcreates
  rw [createThreads_threads]
  exact hcreates

theorem createThreads_spares {a : ℕ}
    (hroom : ∀ f ∈ functions, 48 ≤ f.stack.toNat ∧ f.stack.toNat + 4 ≤ 4294967296)
    (ha : ∀ f ∈ functions, f.Spares a) :
    readBytes (k.createThreads n functions).threads.mem a 2 = readBytes k.threads.mem a 2 := by
  induction functions generalizing k with
  | nil => rfl
  | cons f functions ih =>
      obtain ⟨hf, hrest⟩ := List.forall_mem_cons.mp hroom
      obtain ⟨haf, harest⟩ := List.forall_mem_cons.mp ha
      exact (ih hrest harest).trans (createThread_spares hf haf n k)

theorem initTCBArray_mem (s : Threads) (n : ℕ) : (initTCBArray s n).mem = s.mem := by
  induction n with
  | zero => rfl
  | succ n ih => exact ih

/-- No creation writes the half word that a thread gets for DS. -/
theorem frameDs_createThreads (hapart : StacksApart functions) {i : ℕ} {f : ThreadFunction}
    (hf : functions[i]? = some f) (hlt : i < n) (tcbArray : ℕ → TCB) (mem : ℕ → UInt8) :
    (Kernel.createThreads n functions (Kernel.welcome n functions tcbArray mem)).threads.frameDs i =
      gapHalf mem f.stack := by
  have hpointer := stackPointer_createThreads hf hlt tcbArray mem
  obtain ⟨hi, hget⟩ := List.getElem?_eq_some_iff.mp hf
  have hmem : f ∈ functions := hget ▸ List.getElem_mem hi
  have hroom := hapart.room f hmem
  have haddress : (f.stack - 44 + 6).toNat = f.stack.toNat - 38 := by
    bv_omega
  have hgap : (f.stack - 38).toNat = f.stack.toNat - 38 := by
    bv_omega
  have hspares : ∀ g ∈ functions, g.Spares (f.stack.toNat - 38) := by
    intro g hg
    obtain ⟨j, hj, rfl⟩ := List.getElem_of_mem hg
    have hroomOf := hapart.room _ hg
    have hpairs := List.pairwise_iff_getElem.mp hapart.apart
    rcases Nat.lt_trichotomy i j with hij | rfl | hij
    · have hcase := hpairs i j hi hj hij
      rw [hget] at hcase
      unfold ThreadFunction.Spares
      omega
    · rw [hget]
      exact .inr (.inl rfl)
    · have hcase := hpairs j i hj hi hij
      rw [hget] at hcase
      unfold ThreadFunction.Spares
      omega
  rw [Threads.frameDs, hpointer, haddress, gapHalf, hgap, createThreads_spares hapart.room hspares,
    Kernel.welcome, initTCBArray_mem]

/-! ## Runs -/

theorem scheduler_threads (n : ℕ) (s : Threads) :
    (scheduler n s).2.tcbArray = s.tcbArray ∧ (scheduler n s).2.mem = s.mem := by
  rw [scheduler]
  dsimp only
  split
  · exact ⟨rfl, rfl⟩
  · split <;> exact ⟨rfl, rfl⟩

theorem frameDs_scheduler (n : ℕ) (s : Threads) : (scheduler n s).2.frameDs = s.frameDs := by
  obtain ⟨htcbs, hmem⟩ := scheduler_threads n s
  funext i
  rw [Threads.frameDs, htcbs, hmem, Threads.frameDs]

theorem frameDs_functionYield {s : Threads} {r : Dispatch × Threads}
    (h : functionYield n s = some r) : r.2.frameDs = s.frameDs := by
  cases h
  exact frameDs_scheduler n s

theorem frameDs_functionFinish {s : Threads} {r : Dispatch × Threads}
    (h : functionFinish n s = some r) : r.2.frameDs = s.frameDs := by
  rw [functionFinish] at h
  dsimp only at h
  split at h
  · cases h
    refine (frameDs_scheduler n _).trans (funext fun i ↦ ?_)
    by_cases hi : i = s.currentThread.toNat
    · simp [Threads.frameDs, Threads.setTCB, hi]
    · simp [Threads.frameDs, Threads.setTCB, hi]
  · cases h

/-- A thread that is given another DS ends the run before it has written anything. -/
theorem run_fault {q : List ℕ} {fuel : ℕ} {d : Dispatch} (hn : n ≤ 1000)
    (h : Dispatches n q (d, k.threads)) {i : ℕ} (hi : i ∈ q)
    (hfault : k.threads.frameDs i ≠ dataSelector) :
    Kernel.run n functions fuel (d, k) = none := by
  induction fuel generalizing q d k with
  | zero =>
      cases h with
      | finished => cases hi
      | running => rfl
  | succ fuel ih =>
      cases h with
      | finished => cases hi
      | @running _ _ head rest hrunning =>
          rw [Kernel.run]
          cases functions[head]? with
          | none => rfl
          | some f =>
              rw [Option.bind_some, Kernel.threadSlice]
              by_cases hhead : k.threads.frameDs head ≠ dataSelector
              · rw [if_pos hhead, Option.bind_none]
              · have hrest : i ∈ rest := (List.mem_cons.mp hi).resolve_left fun heq ↦
                  hhead (heq ▸ hfault)
                rw [if_neg hhead]
                by_cases hzero : k.times head = 0
                · obtain ⟨r, hfinish, hr⟩ := hrunning.functionFinish hn
                  have hsame := frameDs_functionFinish hfinish
                  rw [if_neg (not_not_intro hzero)]
                  simp only [Kernel.write, hfinish, Option.map_some, Option.bind_some]
                  exact ih hr hrest (by rwa [hsame])
                · obtain ⟨r, hyield, hr⟩ := hrunning.functionYield hn
                  have hsame := frameDs_functionYield hyield
                  rw [if_pos hzero]
                  simp only [Kernel.write, hyield, Option.map_some, Option.bind_some]
                  exact ih hr (List.mem_append_left _ hrest) (by rwa [hsame])

def serviceLine (functions : List ThreadFunction) (s : ℕ × ℕ) : Option (List (BitVec 8)) :=
  (functions[s.1]?).map fun f ↦ if s.2 ≠ 0 then f.label else f.funished

theorem run_eq_serve {q : List ℕ} {fuel : ℕ} {d : Dispatch} (hn : n ≤ 1000)
    (h : Dispatches n q (d, k.threads)) (hnodup : q.Nodup) (hq : ∀ i ∈ q, i < functions.length)
    (hds : ∀ i ∈ q, k.threads.frameDs i = dataSelector)
    (hfuel : (q.map fun i ↦ k.times i + 1).sum ≤ fuel) :
    Kernel.run n functions fuel (d, k) = some (k.written ++
      (serve fuel k.times q).filterMap (serviceLine functions) ++
        [ascii "All threads done"]) := by
  induction fuel generalizing q d k with
  | zero =>
      cases q with
      | nil =>
          cases h
          simp [Kernel.run, Kernel.write]
      | cons i q => simp at hfuel
  | succ fuel ih =>
      cases q with
      | nil =>
          cases h
          simp [Kernel.run, Kernel.write]
      | cons i rest =>
          obtain ⟨hi, hrest⟩ := List.nodup_cons.mp hnodup
          obtain ⟨hlt, hqrest⟩ := List.forall_mem_cons.mp hq
          obtain ⟨hdsHead, hdsRest⟩ := List.forall_mem_cons.mp hds
          rw [List.map_cons, List.sum_cons] at hfuel
          have hline : ∀ c, serviceLine functions (i, c) =
              some (if c ≠ 0 then functions[i].label else functions[i].funished) := fun c ↦ by
            rw [serviceLine, List.getElem?_eq_getElem hlt, Option.map_some]
          cases h with
          | running hrunning =>
              rw [Kernel.run, List.getElem?_eq_getElem hlt, Option.bind_some, Kernel.threadSlice,
                if_neg (not_not_intro hdsHead), serve, List.filterMap_cons_some (hline _)]
              by_cases hzero : k.times i = 0
              · obtain ⟨r, hfinish, hr⟩ := hrunning.functionFinish hn
                have hsame := frameDs_functionFinish hfinish
                rw [if_neg (not_not_intro hzero), if_pos hzero, if_neg (not_not_intro hzero)]
                simp only [Kernel.write, hfinish, Option.map_some, Option.bind_some]
                have hsum : (rest.map fun j ↦ k.times j + 1).sum ≤ fuel := by omega
                rw [@ih ⟨r.2, k.times, k.written ++ [functions[i].funished]⟩ rest r.1 hr hrest hqrest
                  (fun j hj ↦ hsame ▸ hdsRest j hj) hsum]
                simp
              · obtain ⟨r, hyield, hr⟩ := hrunning.functionYield hn
                have hsame := frameDs_functionYield hyield
                have hother : ∀ j ∈ rest,
                    Function.update k.times i (k.times i - 1) j = k.times j := fun j hj ↦
                  Function.update_of_ne (ne_of_mem_of_not_mem hj hi) _ _
                have hsum : ((rest ++ [i]).map fun j ↦
                    Function.update k.times i (k.times i - 1) j + 1).sum ≤ fuel := by
                  have hmap : (rest.map fun j ↦ Function.update k.times i (k.times i - 1) j + 1) =
                      rest.map fun j ↦ k.times j + 1 :=
                    List.map_congr_left fun j hj ↦ by rw [hother j hj]
                  rw [List.map_append, List.sum_append, hmap, List.map_singleton,
                    List.sum_singleton, Function.update_self]
                  omega
                rw [if_pos hzero, if_neg hzero, if_pos hzero]
                simp only [Kernel.write, hyield, Option.map_some, Option.bind_some]
                rw [@ih ⟨r.2, Function.update k.times i (k.times i - 1),
                  k.written ++ [functions[i].label]⟩ (rest ++ [i]) r.1 hr
                  (List.nodup_append.mpr ⟨hrest, List.nodup_singleton i, fun a ha b hb heq ↦
                    hi (List.mem_singleton.mp hb ▸ heq ▸ ha)⟩)
                  (fun j hj ↦ (List.mem_append.mp hj).elim (hqrest j) fun hj ↦
                    List.mem_singleton.mp hj ▸ hlt)
                  (fun j hj ↦ hsame ▸ (List.mem_append.mp hj).elim (hdsRest j) fun hj ↦
                    List.mem_singleton.mp hj ▸ hdsHead) hsum]
                simp

theorem filterMap_range_getElem? {α : Type*} (xs : List α) (m : ℕ) :
    (List.range m).filterMap (fun i ↦ xs[i]?) = xs.take m := by
  induction m with
  | zero => rfl
  | succ m ih =>
      rw [List.range_succ, List.filterMap_append, ih, List.take_add_one]
      cases hget : xs[m]? <;> simp [hget]

/-- The rounds of the slots are the rounds of their functions. -/
theorem filterMap_rounds (functions : List ThreadFunction) (m M : ℕ) :
    (rounds M (fun i ↦ (functions[i]?.map ThreadFunction.times).getD 0)
        (List.range m)).filterMap (serviceLine functions) =
      (List.range M).flatMap fun r ↦ (functions.take m).filterMap fun f ↦ f.line r := by
  rw [rounds, List.filterMap_flatMap]
  refine List.flatMap_congr fun r _ ↦ ?_
  rw [List.filterMap_map, List.filterMap_filter, ← filterMap_range_getElem?,
    List.filterMap_filterMap]
  refine List.filterMap_congr fun i _ ↦ ?_
  cases hget : functions[i]? with
  | none => simp [serviceLine, hget]
  | some f =>
      rcases Nat.lt_trichotomy r f.times with hlt | heq | hgt
      · have hle : r ≤ f.times := hlt.le
        have hne : f.times - r ≠ 0 := Nat.sub_ne_zero_of_lt hlt
        simp [serviceLine, hget, ThreadFunction.line, hlt, hle, hne]
      · simp [serviceLine, hget, ThreadFunction.line, heq]
      · have hle : ¬ r ≤ f.times := not_le.mpr hgt
        simp [ThreadFunction.line, hle, not_lt.mpr hgt.le, hgt.ne']

section Init

variable {tcbArray : ℕ → TCB} {mem : ℕ → UInt8}

theorem init_dispatches (hn : n ≤ 1000) : Dispatches n (List.range (min functions.length n))
    ((Kernel.init n functions tcbArray mem).1,
      (Kernel.init n functions tcbArray mem).2.threads) := by
  have hcreated := (@createThreads_eq n functions (Kernel.welcome n functions tcbArray mem) 0
    (Created.init n tcbArray mem)).1
  rw [Nat.zero_add] at hcreated
  obtain ⟨hstart, hqueue⟩ := hcreated.readyQueue
  rw [← hqueue]
  exact scheduler_dispatches hn (hstart.trans_le (Nat.zero_le n))

theorem frameDs_init (hapart : StacksApart functions) {i : ℕ} {f : ThreadFunction}
    (hf : functions[i]? = some f) (hlt : i < n) :
    (Kernel.init n functions tcbArray mem).2.threads.frameDs i = gapHalf mem f.stack := by
  have hsame : (Kernel.init n functions tcbArray mem).2.threads.frameDs =
      (Kernel.createThreads n functions
        (Kernel.welcome n functions tcbArray mem)).threads.frameDs := frameDs_scheduler n _
  rw [hsame]
  exact frameDs_createThreads hapart hf hlt tcbArray mem

theorem stackPointer_init {i : ℕ} {f : ThreadFunction} (hf : functions[i]? = some f)
    (hlt : i < n) :
    ((Kernel.init n functions tcbArray mem).2.threads.tcbArray i).stackPointer = f.stack - 44 := by
  have hsame : (Kernel.init n functions tcbArray mem).2.threads.tcbArray =
      (Kernel.createThreads n functions
        (Kernel.welcome n functions tcbArray mem)).threads.tcbArray := (scheduler_threads n _).1
  rw [hsame]
  exact stackPointer_createThreads hf hlt tcbArray mem

/-- A created thread whose gap does not hold the data selector ends the run. -/
theorem run_init_fault (hn : n ≤ 1000) (hapart : StacksApart functions) {f : ThreadFunction}
    (hf : f ∈ functions.take n) (hfault : gapHalf mem f.stack ≠ dataSelector) (fuel : ℕ) :
    Kernel.run n functions fuel (Kernel.init n functions tcbArray mem) = none := by
  obtain ⟨i, hi, hget⟩ := List.mem_take_iff_getElem.mp hf
  have hget : functions[i]? = some f := hget ▸ List.getElem?_eq_getElem _
  have hmem : i ∈ List.range (min functions.length n) := List.mem_range.mpr (by omega)
  have hds := @frameDs_init n functions tcbArray mem hapart i f hget (by omega)
  exact run_fault hn (init_dispatches hn) hmem (hds ▸ hfault)

/-- For every table size, all functions and all numbers of rounds the kernel comes to its end
if the gaps hold the data selector: it welcomes, tells which threads it created, lets them
write in rounds, each once more than its number of rounds, and then all threads are done. -/
theorem run_init (hn : n ≤ 1000) (hapart : StacksApart functions)
    (hds : ∀ f ∈ functions.take n, gapHalf mem f.stack = dataSelector) {fuel : ℕ}
    (hfuel : ((functions.take n).map fun f ↦ f.times + 1).sum ≤ fuel) :
    Kernel.run n functions fuel (Kernel.init n functions tcbArray mem) =
      some (transcript n functions) := by
  obtain ⟨-, htimes, hwritten⟩ := @createThreads_eq n functions
    (Kernel.welcome n functions tcbArray mem) 0 (Created.init n tcbArray mem)
  have hdispatch := @init_dispatches n functions tcbArray mem hn
  have hdata : ∀ i ∈ List.range (min functions.length n),
      (Kernel.init n functions tcbArray mem).2.threads.frameDs i = dataSelector := fun i hi ↦ by
    have hlt := List.mem_range.mp hi
    have hget : functions[i]? = some functions[i] := List.getElem?_eq_getElem (by omega)
    rw [frameDs_init hapart hget (by omega)]
    exact hds _ (List.mem_take_iff_getElem.mpr ⟨i, by omega, rfl⟩)
  have htake : functions.take (min functions.length n) = functions.take n := by
    rw [List.take_eq_take_iff]
    omega
  have htimesOf : ∀ i ∈ List.range (min functions.length n), ∃ f ∈ functions.take n,
      functions[i]? = some f := fun i hi ↦ by
    have hlt := List.mem_range.mp hi
    refine ⟨functions[i], ?_, List.getElem?_eq_getElem (by omega)⟩
    exact List.mem_take_iff_getElem.mpr ⟨i, by omega, rfl⟩
  have hsum : ((List.range (min functions.length n)).map fun i ↦
      (functions[i]?.map ThreadFunction.times).getD 0 + 1).sum ≤ fuel := by
    have hmap : ((List.range (min functions.length n)).map fun i ↦
        (functions[i]?.map ThreadFunction.times).getD 0 + 1) =
        (functions.take n).map fun f ↦ f.times + 1 := by
      apply List.ext_getElem
      · simp [min_comm]
      · intro i hi hi'
        simp only [List.length_map, List.length_range] at hi
        have hlt : i < functions.length := by omega
        simp [List.getElem?_eq_getElem hlt]
    rwa [hmap]
  have hbound : ∀ i ∈ List.range (min functions.length n),
      (functions[i]?.map ThreadFunction.times).getD 0 <
        ((functions.take n).map ThreadFunction.times).foldr max 0 + 1 := fun i hi ↦ by
    obtain ⟨f, hf, hget⟩ := htimesOf i hi
    rw [hget]
    exact Nat.lt_succ_of_le (List.le_max_of_le (List.mem_map_of_mem hf) le_rfl)
  have hq : ∀ i ∈ List.range (min functions.length n), i < functions.length := fun i hi ↦
    (List.mem_range.mp hi).trans_le (min_le_left _ _)
  rw [Kernel.init] at hdispatch hdata ⊢
  generalize Kernel.createThreads n functions (Kernel.welcome n functions tcbArray mem) = k at *
  obtain ⟨threads, times, written⟩ := k
  obtain rfl := htimes
  obtain rfl := hwritten
  have hrun := @run_eq_serve n functions
    ⟨(scheduler n threads).2, (Kernel.welcome n functions tcbArray mem).times,
      (Kernel.welcome n functions tcbArray mem).written ++ creationLines (n - 0) functions⟩
    _ fuel _ hn hdispatch List.nodup_range hq hdata hsum
  have hserve := @serve_eq_rounds ℕ _ (Kernel.welcome n functions tcbArray mem).times _ fuel _
    List.nodup_range hbound hsum
  rw [hserve] at hrun
  refine hrun.trans ?_
  rw [Kernel.welcome, filterMap_rounds, htake, transcript, roundLines]
  rfl

end Init

end OperatingSystem.Fifos
