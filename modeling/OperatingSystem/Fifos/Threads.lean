import OperatingSystem.Lib.ByteMemory
import OperatingSystem.Lib.SlotTable

/-!
# Threads and their scheduler

`TCBArray`, `threadCreate`, `scheduler`, `functionYield` and `functionFinish`
of `init.c`. FIFOS-1 and FIFOS-2 share them, except for the flags of a new
thread. The number of TCBs is the macro `N` of the source. The call of
`switch_to` at the end of `scheduler` is an outcome with the two arguments that
are passed in `ESI` and `EDI`.
-/

namespace OperatingSystem.Fifos

open ByteMemory

/-- The value of `nextThread` when no thread is ready. -/
def infinit : BitVec 32 := 1000

structure TCB where
  stackPointer : BitVec 32
  id : BitVec 32
  function : BitVec 32
  finished : BitVec 32
  assigned : BitVec 32
  priority : BitVec 32
  bp : BitVec 32

/-- The static data of `init.c` and the memory of the stacks. `currentThread`
is an `int`. -/
structure Threads where
  tcbArray : ℕ → TCB
  currentThread : BitVec 32
  mem : ℕ → UInt8

def TCB.Ready (t : TCB) : Prop := t.assigned = 1 ∧ t.finished = 0

instance (t : TCB) : Decidable t.Ready := inferInstanceAs (Decidable (_ ∧ _))

namespace Threads

def setTCB (s : Threads) (i : ℕ) (t : TCB) : Threads :=
  { s with tcbArray := Function.update s.tcbArray i t }

/-- `*((uint32_t *)stack - k) = value`. -/
def storeWord (s : Threads) (stack : BitVec 32) (k : ℕ) (value : BitVec 32) : Threads :=
  { s with
    mem := writeBytes s.mem (stack - BitVec.ofNat 32 (4 * k)).toNat (leBytes 4 value.toNat) }

/-- `*((uint16_t *)stack - k) = value`. -/
def storeHalf (s : Threads) (stack : BitVec 32) (k : ℕ) (value : BitVec 16) : Threads :=
  { s with
    mem := writeBytes s.mem (stack - BitVec.ofNat 32 (2 * k)).toNat (leBytes 2 value.toNat) }

@[simp] theorem setTCB_currentThread (s : Threads) (i : ℕ) (t : TCB) :
    (s.setTCB i t).currentThread = s.currentThread := rfl

@[simp] theorem setTCB_tcbArray (s : Threads) (i : ℕ) (t : TCB) :
    (s.setTCB i t).tcbArray = Function.update s.tcbArray i t := rfl

theorem foldl_storeWord (s : Threads) (stack : BitVec 32) (words : List (ℕ × BitVec 32)) :
    ∃ mem, words.foldl (fun s w ↦ s.storeWord stack w.1 w.2) s = { s with mem := mem } := by
  induction words generalizing s with
  | nil => exact ⟨s.mem, rfl⟩
  | cons w words ih => exact ih (s.storeWord stack w.1 w.2)

theorem foldl_storeHalf (s : Threads) (stack : BitVec 32) (halves : List (ℕ × BitVec 16)) :
    ∃ mem, halves.foldl (fun s w ↦ s.storeHalf stack w.1 w.2) s = { s with mem := mem } := by
  induction halves generalizing s with
  | nil => exact ⟨s.mem, rfl⟩
  | cons w halves ih => exact ih (s.storeHalf stack w.1 w.2)

end Threads

/-! ## Creation -/

/-- The loop of `initTCBArray`. -/
def initTCBArray (s : Threads) : ℕ → Threads
  | 0 => s
  | i + 1 =>
      let s := initTCBArray s i
      s.setTCB i { s.tcbArray i with assigned := 0, finished := 1 }

/-- The words that `threadCreate` writes, by their distance from `stack`. -/
def frameWords (functionname flags : BitVec 32) : List (ℕ × BitVec 32) :=
  [(0, functionname), (1, flags),
    -- EAX, ECX, EDX, EBX, the skipped slot of ESP, EBP, ESI, EDI
    (2, 0), (3, 0), (4, 0), (5, 0), (6, 0), (7, 0), (8, 0), (9, 0)]

/-- The half words for DS, ES, FS and GS. -/
def frameHalves : List (ℕ × BitVec 16) := [(20, 0x10), (21, 0x10), (22, 0x10), (23, 0x10)]

def writeFrame (s : Threads) (functionname stack flags : BitVec 32) : Threads :=
  let s := (frameWords functionname flags).foldl (fun s w ↦ s.storeWord stack w.1 w.2) s
  frameHalves.foldl (fun s w ↦ s.storeHalf stack w.1 w.2) s

theorem writeFrame_mem (s : Threads) (functionname stack flags : BitVec 32) :
    ∃ mem, writeFrame s functionname stack flags = { s with mem := mem } := by
  obtain ⟨mem, hwords⟩ := s.foldl_storeWord stack (frameWords functionname flags)
  rw [writeFrame, hwords]
  exact Threads.foldl_storeHalf _ stack frameHalves

/-- The scan for an unassigned TCB. -/
def firstUnassigned (s : Threads) (n : ℕ) : ℕ :=
  SlotTable.scan (fun i ↦ (s.tcbArray i).assigned = 0) n 0

/-- `threadCreate` with the constant that is written for the flags. -/
def threadCreateWith (flags : BitVec 32) (n : ℕ) (s : Threads)
    (functionname stack : BitVec 32) : BitVec 32 × Threads :=
  let id := firstUnassigned s n
  if id = n then (0, s)
  else
    let s := s.setTCB id
      { bp := stack
        stackPointer := stack - 44
        function := functionname
        id := BitVec.ofNat 32 id
        finished := 0
        assigned := 1
        priority := 0 }
    (1, writeFrame s functionname stack flags)

/-- `threadCreate` of FIFOS-1: new threads run with interrupts disabled. -/
def threadCreate := threadCreateWith 2

/-- `threadCreate` of FIFOS-2: new threads run with interrupts enabled. -/
def threadCreatePreemptive := threadCreateWith 0x202

/-! ## Scheduling -/

/-- How `scheduler` ends: with a jump to `system_finish`, or with a call of
`switch_to`. `ESI` is 0 or the address of a TCB, `EDI` the address of a TCB. -/
inductive Dispatch where
  | systemFinish
  | switchTo (esi : Option ℕ) (edi : ℕ)
  deriving DecidableEq

/-- The loop of `scheduler`, with the counter `i` and the iterations left. -/
def nextThread (n : ℕ) (s : Threads) : ℕ → BitVec 32 → BitVec 32
  | 0, _ => infinit
  | fuel + 1, i =>
      let thread := (s.currentThread + i) % BitVec.ofNat 32 n
      if (s.tcbArray thread.toNat).Ready then thread else nextThread n s fuel (i + 1)

def scheduler (n : ℕ) (s : Threads) : Dispatch × Threads :=
  let next := nextThread n s n 1
  if next = infinit then (.systemFinish, s)
  else
    let temp := s.currentThread
    let s := { s with currentThread := next }
    if temp = -1 then (.switchTo none next.toNat, s)
    else (.switchTo (some temp.toNat) next.toNat, s)

def functionYield (n : ℕ) (s : Threads) : Option (Dispatch × Threads) := some (scheduler n s)

/-- Undefined if there is no current thread. -/
def functionFinish (n : ℕ) (s : Threads) : Option (Dispatch × Threads) :=
  let current := s.currentThread.toNat
  if current < n then
    let s := s.setTCB current { s.tcbArray current with finished := 1 }
    let s := s.setTCB current { s.tcbArray current with assigned := 0 }
    some (scheduler n s)
  else none

end OperatingSystem.Fifos
