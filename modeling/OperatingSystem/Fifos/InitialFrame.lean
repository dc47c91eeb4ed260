import OperatingSystem.Fifos.Switch
import OperatingSystem.Fifos.Threads

/-!
# The frame of a new thread

What `threadCreate` writes on the stack of a new thread, and what `switch_to`
takes from it. The four half words for the segment registers lie one slot below
the words for the other registers, so that DS is taken from a gap between them.
-/

namespace OperatingSystem.Fifos

open I386 ByteMemory

/-! ## Stacks and machines -/

/-- A stack whose highest word is at `top`, with room for a frame. -/
structure ThreadStack where
  low : ℕ
  top : BitVec 32
  room : low + 48 ≤ top.toNat
  fits : top.toNat + 4 ≤ 4294967296

/-- The words of the stack are zero. -/
def Threads.ZeroStack (s : Threads) (stack : ThreadStack) : Prop :=
  ∀ x, stack.low ≤ x → x < stack.top.toNat + 4 → s.mem x = 0

/-- At the label `1` of `switch_to`, with the TCB `id` in EDI. -/
structure AtRestore (m : Machine) (s : Threads) (id : ℕ) (stack : ThreadStack) : Prop where
  pointer : m.load32 (m.reg .edi) = (s.tcbArray id).stackPointer
  memory : ∀ x, stack.low ≤ x → x < stack.top.toNat + 4 → m.mem x = s.mem x

/-- What a thread should start with. -/
structure StartsThread (m : Machine) (functionname flags : BitVec 32) (stack : ThreadStack) :
    Prop where
  eip : m.eip = functionname
  segments : m.seg .ds = 0x10 ∧ m.seg .es = 0x10 ∧ m.seg .fs = 0x10 ∧ m.seg .gs = 0x10
  registers : ∀ r, r ≠ .esp → m.reg r = 0
  eflags : m.eflags.bits = flags
  esp : m.reg .esp = stack.top + 4

/-- The byte at `x` is among those that a function of the memory stores. -/
def Stores (f : (ℕ → UInt8) → ℕ → UInt8) (x : ℕ) : Prop := ∃ mem, f mem x ≠ mem x

/-- If `threadCreate` chooses a slot, the frame on the stack is one that
`switch_to` can restore: all that it takes was stored, and nothing below. -/
def CreatesFrame (create : ℕ → Threads → BitVec 32 → BitVec 32 → BitVec 32 × Threads)
    (flags : BitVec 32) (n : ℕ) (s : Threads) (functionname : BitVec 32) (stack : ThreadStack) :
    Prop :=
  let created := create n s functionname stack.top
  let id := firstUnassigned s n
  let sp := (created.2.tcbArray id).stackPointer.toNat
  let stores := Stores fun mem ↦ (create n { s with mem := mem } functionname stack.top).2.mem
  created.1 = 1 →
    (∀ m, AtRestore m created.2 id stack →
      StartsThread (restoreContext m) functionname flags stack) ∧
    (∀ x, sp ≤ x → x < sp + 48 → stores x) ∧ ∀ x < sp, ¬ stores x

/-! ## What is written -/

def newRegisters : Reg32 → BitVec 32 := fun _ ↦ 0

/-- The bytes of the words, from EDI up to EIP. -/
def newWords (functionname flags : BitVec 32) : List UInt8 :=
  Machine.generalBytes newRegisters ++ wordBytes flags ++ wordBytes functionname

/-- The bytes of the half words, from GS up to DS. -/
def newHalves : List UInt8 := [0x10, 0, 0x10, 0, 0x10, 0, 0x10, 0]

@[simp] theorem length_newWords (functionname flags : BitVec 32) :
    (newWords functionname flags).length = 40 := by
  simp [newWords, Machine.length_generalBytes]

theorem writeBytes_below (m : ℕ → UInt8) {a c : ℕ} {bs cs : List UInt8} (h : a + bs.length = c) :
    writeBytes (writeBytes m c cs) a bs = writeBytes m a (bs ++ cs) := by
  rw [writeBytes_append, h]
  exact writeBytes_comm m (.inr (by omega))

theorem toNat_sub_ofNat {v : BitVec 32} {k : ℕ} (h : k ≤ v.toNat) :
    (v - BitVec.ofNat 32 k).toNat = v.toNat - k := by
  have hlt := v.isLt
  bv_omega

theorem foldl_writeBytes_down {β : Type} {enc : β → List UInt8} {w : ℕ}
    (hw : ∀ v, (enc v).length = w) (m : ℕ → UInt8) (top : BitVec 32) (k : ℕ) (vs : List β)
    (h : w * (k + vs.length) ≤ top.toNat + w) :
    (vs.zipIdx k).foldl
        (fun m v ↦ writeBytes m (top - BitVec.ofNat 32 (w * v.2)).toNat (enc v.1)) m =
      writeBytes m (top.toNat + w - w * (k + vs.length)) (vs.reverse.flatMap enc) := by
  induction vs generalizing m k with
  | nil => simp
  | cons v vs ih =>
      have hlength : (vs.reverse.flatMap enc).length = w * vs.length := by
        simp [List.length_flatMap, hw, Nat.mul_comm]
      have hsum : w * (k + (vs.length + 1)) = w * k + w * vs.length + w := by ring
      have hnext : w * (k + 1 + vs.length) = w * k + w * vs.length + w := by ring
      rw [List.length_cons, hsum] at h
      have hstart : top.toNat + w - w * (k + 1 + vs.length) + (vs.reverse.flatMap enc).length =
          top.toNat - w * k := by
        omega
      have haddr : (top - BitVec.ofNat 32 (w * k)).toNat = top.toNat - w * k :=
        toNat_sub_ofNat (by omega)
      rw [List.zipIdx_cons, List.foldl_cons, ih _ _ (by omega)]
      dsimp only
      rw [haddr, writeBytes_below _ hstart, List.length_cons, List.reverse_cons,
        List.flatMap_append, List.flatMap_singleton, hsum, hnext]

theorem mem_foldl_storeWord (s : Threads) (stack : BitVec 32) (words : List (ℕ × BitVec 32)) :
    (words.foldl (fun s w ↦ s.storeWord stack w.1 w.2) s).mem = words.foldl (fun m w ↦
      writeBytes m (stack - BitVec.ofNat 32 (4 * w.1)).toNat (wordBytes w.2)) s.mem := by
  induction words generalizing s with
  | nil => rfl
  | cons w words ih => exact ih (s.storeWord stack w.1 w.2)

theorem mem_foldl_storeHalf (s : Threads) (stack : BitVec 32) (halves : List (ℕ × BitVec 16)) :
    (halves.foldl (fun s w ↦ s.storeHalf stack w.1 w.2) s).mem = halves.foldl (fun m w ↦
      writeBytes m (stack - BitVec.ofNat 32 (2 * w.1)).toNat (halfBytes w.2)) s.mem := by
  induction halves generalizing s with
  | nil => rfl
  | cons w halves ih => exact ih (s.storeHalf stack w.1 w.2)

/-- The words end where the frame does, the half words two bytes below them. -/
theorem mem_writeFrame (s : Threads) (functionname flags : BitVec 32) (stack : ThreadStack) :
    (writeFrame s functionname stack.top flags).mem =
      writeBytes (writeBytes s.mem (stack.top.toNat - 36) (newWords functionname flags))
        (stack.top.toNat - 46) newHalves := by
  have hroom := stack.room
  have hwords : (frameWords functionname flags).foldl (fun m w ↦
      writeBytes m (stack.top - BitVec.ofNat 32 (4 * w.1)).toNat (wordBytes w.2)) s.mem =
      writeBytes s.mem (stack.top.toNat - 36) (newWords functionname flags) := by
    have hdown := foldl_writeBytes_down length_wordBytes s.mem stack.top 0
      [functionname, flags, 0, 0, 0, 0, 0, 0, 0, 0] (by simp only [List.length]; omega)
    have hstart : stack.top.toNat - 36 = stack.top.toNat + 4 - 4 * (0 + 10) := by omega
    have hbytes : newWords functionname flags =
        [functionname, flags, 0, 0, 0, 0, 0, 0, 0, 0].reverse.flatMap wordBytes := by
      simp [newWords, Machine.generalBytes, newRegisters]
    rw [hstart, hbytes]
    exact hdown
  have hhalves : ∀ m, frameHalves.foldl (fun m w ↦
      writeBytes m (stack.top - BitVec.ofNat 32 (2 * w.1)).toNat (halfBytes w.2)) m =
      writeBytes m (stack.top.toNat - 46) newHalves := by
    intro m
    have hdown := foldl_writeBytes_down length_halfBytes m stack.top 20 [0x10, 0x10, 0x10, 0x10]
      (by simp only [List.length]; omega)
    have hstart : stack.top.toNat - 46 = stack.top.toNat + 2 - 2 * (20 + 4) := by omega
    have hbytes : newHalves = [0x10, 0x10, 0x10, 0x10].reverse.flatMap halfBytes := by decide
    rw [hstart, hbytes]
    exact hdown
  rw [writeFrame, mem_foldl_storeHalf, mem_foldl_storeWord, hwords, hhalves]

/-! ## What is restored -/

/-- The processor of a new thread, with the value that is found for DS. -/
def newCpu (functionname : BitVec 32) (flags : Eflags) (ds : BitVec 16) : Cpu where
  eip := functionname
  reg := newRegisters
  seg := fun s ↦ if s = .ds then ds else 0x10
  eflags := flags

/-- From the saved stack pointer on lies a frame, with DS from the two bytes
that were not written. -/
theorem readBytes_writeFrame (s : Threads) (functionname : BitVec 32) (flags : Eflags)
    (stack : ThreadStack) {ds : BitVec 16}
    (hgap : readBytes s.mem (stack.top.toNat - 38) 2 = halfBytes ds) :
    readBytes (writeFrame s functionname stack.top flags.bits).mem (stack.top.toNat - 44) 48 =
      frame (newCpu functionname flags ds) := by
  have hroom := stack.room
  have hlength := length_newWords functionname flags.bits
  have hhalves : newHalves.length = 8 := rfl
  have hmiddle : stack.top.toNat - 44 + 6 = stack.top.toNat - 38 := by omega
  have hhigh : stack.top.toNat - 44 + (6 + 2) = stack.top.toNat - 36 := by omega
  have hlow : readBytes (writeFrame s functionname stack.top flags.bits).mem
      (stack.top.toNat - 44) 6 = [0x10, 0, 0x10, 0, 0x10, 0] := by
    have hslice := readBytes_writeBytes_slice
      (writeBytes s.mem (stack.top.toNat - 36) (newWords functionname flags.bits))
      (stack.top.toNat - 46) [0x10, 0] [0x10, 0, 0x10, 0, 0x10, 0] []
    have hstart : stack.top.toNat - 44 = stack.top.toNat - 46 + 2 := by omega
    rw [mem_writeFrame, hstart]
    exact hslice
  have hkept : readBytes (writeFrame s functionname stack.top flags.bits).mem
      (stack.top.toNat - 38) 2 = halfBytes ds := by
    rw [mem_writeFrame, readBytes_writeBytes_of_disjoint (by omega),
      readBytes_writeBytes_of_disjoint (by omega), hgap]
  have hwords : readBytes (writeFrame s functionname stack.top flags.bits).mem
      (stack.top.toNat - 36) 40 = newWords functionname flags.bits := by
    rw [mem_writeFrame, readBytes_writeBytes_of_disjoint (by omega), ← hlength,
      readBytes_writeBytes]
  have hsegments : halfBytes 0x10#16 = [0x10, 0] := by decide
  calc
    _ = [0x10, 0, 0x10, 0, 0x10, 0] ++ halfBytes ds ++ newWords functionname flags.bits := by
      rw [show 48 = 6 + 2 + 40 from rfl, readBytes_add, readBytes_add, hmiddle, hhigh, hlow, hkept,
        hwords]
    _ = _ := by
      simp [frame_eq, newCpu, hsegments, newWords]

section Created

variable {n : ℕ} {s : Threads} {functionname : BitVec 32} {stack : ThreadStack}

/-- `threadCreate` chooses the first unassigned TCB, if there is one. -/
theorem firstUnassigned_eq_iff : firstUnassigned s n = n ↔ ∀ i < n, (s.tcbArray i).assigned ≠ 0 := by
  have hfirst : SlotTable.IsFirstFree (fun i ↦ (s.tcbArray i).assigned = 0) (0 + n)
      (firstUnassigned s n) := SlotTable.isFirstFree_scan n (by simp)
  obtain ⟨hle, hbelow, hfree⟩ := hfirst
  constructor
  · intro hfull i hi
    exact hbelow i (by omega)
  · intro hall
    by_contra hne
    exact hall _ (by omega) (hfree (by omega))

theorem threadCreateWith_eq (flags functionname stack : BitVec 32)
    (hfree : firstUnassigned s n ≠ n) :
    ∃ t : TCB, t.stackPointer = stack - 44 ∧ ∀ mem,
      threadCreateWith flags n { s with mem := mem } functionname stack =
        (1, writeFrame { s.setTCB (firstUnassigned s n) t with mem := mem } functionname stack
          flags) := by
  refine ⟨⟨stack - 44, BitVec.ofNat 32 (firstUnassigned s n), functionname, 0, 1, 0, stack⟩, rfl, ?_⟩
  intro mem
  have hsame : firstUnassigned { s with mem := mem } n = firstUnassigned s n := rfl
  rw [threadCreateWith, hsame, if_neg hfree]
  rfl

theorem tcbArray_writeFrame (s : Threads) (functionname stack flags : BitVec 32) :
    (writeFrame s functionname stack flags).tcbArray = s.tcbArray := by
  obtain ⟨mem, hmem⟩ := writeFrame_mem s functionname stack flags
  rw [hmem]

/-- `switch_to` starts a new thread with all its registers, but for DS. -/
theorem restoreContext_new {m : Machine} {t : TCB} {i : ℕ} {flags : Eflags} {ds : BitVec 16}
    (hpointer : t.stackPointer = stack.top - 44)
    (hgap : readBytes s.mem (stack.top.toNat - 38) 2 = halfBytes ds)
    (h : AtRestore m (writeFrame (s.setTCB i t) functionname stack.top flags.bits) i stack) :
    restoreContext m = resumed m (newCpu functionname flags ds) (stack.top - 44) := by
  have hroom := stack.room
  have hfits := stack.fits
  have hsp : (stack.top - 44).toNat = stack.top.toNat - 44 :=
    toNat_sub_ofNat (show 44 ≤ stack.top.toNat by omega)
  apply restoreContext_of_frame
  · rw [h.pointer, tcbArray_writeFrame, Threads.setTCB_tcbArray, Function.update_self, hpointer]
  · refine ⟨?_, ?_⟩
    · have hread := readBytes_writeFrame (s.setTCB i t) functionname flags stack hgap
      rw [length_frame, Machine.top, Machine.reg_setReg_self, hsp, ← hread]
      apply readBytes_congr
      intro k hk
      exact h.memory _ (by omega) (by omega)
    · rw [length_frame, Machine.reg_setReg_self, hsp]
      omega

/-- The word for DS is not written, so on a zero stack it stays zero. -/
theorem restored_ds {m : Machine} {flags : Eflags} (hfree : firstUnassigned s n ≠ n)
    (hzero : s.ZeroStack stack)
    (h : AtRestore m (threadCreateWith flags.bits n s functionname stack.top).2
      (firstUnassigned s n) stack) : (restoreContext m).seg .ds = 0 := by
  have hroom := stack.room
  obtain ⟨t, hpointer, hcreate⟩ := threadCreateWith_eq flags.bits functionname stack.top hfree
  have hcreate := hcreate s.mem
  change threadCreateWith flags.bits n s functionname stack.top = _ at hcreate
  rw [hcreate] at h
  have hgap : readBytes s.mem (stack.top.toNat - 38) 2 = halfBytes 0 := by
    have hbytes : halfBytes 0 = readBytes (fun _ ↦ 0) (stack.top.toNat - 38) 2 := rfl
    rw [hbytes]
    apply readBytes_congr
    intro k hk
    exact hzero _ (by omega) (by omega)
  rw [restoreContext_new hpointer hgap h]
  rfl

theorem not_createsFrame (flags : BitVec 32) (hfree : firstUnassigned s n ≠ n) :
    ¬ CreatesFrame (threadCreateWith flags) flags n s functionname stack := by
  have hroom := stack.room
  have hsp : (stack.top - 44).toNat = stack.top.toNat - 44 :=
    toNat_sub_ofNat (show 44 ≤ stack.top.toNat by omega)
  obtain ⟨t, hpointer, hcreate⟩ := threadCreateWith_eq flags functionname stack.top hfree
  intro h
  simp only [CreatesFrame, Stores, hcreate, tcbArray_writeFrame, Threads.setTCB_tcbArray,
    Function.update_self, hpointer, hsp] at h
  obtain ⟨-, hpopped, -⟩ := h trivial
  -- the two bytes between the words and the half words
  obtain ⟨mem, hstored⟩ := hpopped (stack.top.toNat - 38) (by omega) (by omega)
  rw [mem_writeFrame, writeBytes_of_disjoint, writeBytes_of_disjoint] at hstored
  · exact hstored rfl
  · left
    omega
  · right
    have hlength : newHalves.length = 8 := rfl
    omega

end Created

/-- A frame that `switch_to` can restore is on the stack only if no TCB was
left. -/
theorem createsFrame_iff (n : ℕ) (s : Threads) (functionname : BitVec 32) (stack : ThreadStack) :
    (CreatesFrame threadCreate 2 n s functionname stack ↔ ∀ i < n, (s.tcbArray i).assigned ≠ 0) ∧
      (CreatesFrame threadCreatePreemptive 0x202 n s functionname stack ↔
        ∀ i < n, (s.tcbArray i).assigned ≠ 0) := by
  have hiff : ∀ flags : BitVec 32, CreatesFrame (threadCreateWith flags) flags n s functionname
      stack ↔ ∀ i < n, (s.tcbArray i).assigned ≠ 0 := by
    intro flags
    rw [← firstUnassigned_eq_iff]
    constructor
    · intro h
      by_contra hfree
      exact not_createsFrame flags hfree h
    · intro hfull hone
      simp only [threadCreateWith, if_pos hfull] at hone
      cases hone
  exact ⟨hiff 2, hiff 0x202⟩

/-! ## The first thread -/

/-- `&stack1[1023]`, if `stack1` is placed at 0x104000. -/
def stackOne : ThreadStack where
  low := 0x104000
  top := 0x104FFC
  room := by decide
  fits := by decide

/-- The data of `init.c` before `createThreads`. -/
def beforeThreads : Threads where
  tcbArray := fun _ ↦ ⟨0, 0, 0, 1, 0, 0, 0⟩
  currentThread := -1
  mem := fun _ ↦ 0

def threadOne : Threads := (threadCreate 3 beforeThreads 0x100100 stackOne.top).2

/-- The call of `switch_to` that starts the first thread, with its TCB at
0x108000. -/
def startOne : Machine where
  eip := 0x100200
  reg := fun r ↦ if r = .edi then 0x108000 else 0
  seg := fun _ ↦ 0x10
  eflags := ⟨2, by decide⟩
  mem := writeBytes threadOne.mem 0x108000 (wordBytes (stackOne.top - 44))

theorem atRestore_startOne : AtRestore startOne threadOne 0 stackOne := by
  refine ⟨?_, ?_⟩
  · have hread := readBytes_writeBytes threadOne.mem 0x108000 (wordBytes (stackOne.top - 44))
    rw [length_wordBytes] at hread
    have hload : startOne.load32 (startOne.reg .edi) = wordOf (wordBytes (stackOne.top - 44)) := by
      rw [← hread]
      rfl
    rw [hload, wordOf_wordBytes]
    rfl
  · intro x _ hx
    have hlow : x < 0x108000 := by
      have htop : stackOne.top.toNat + 4 ≤ 0x108000 := by decide
      omega
    exact writeBytes_of_lt hlow

/-- The first thread of FIFOS-1 starts with a null selector in DS. -/
theorem first_thread_without_ds :
    beforeThreads.ZeroStack stackOne ∧ AtRestore startOne threadOne 0 stackOne ∧
      (restoreContext startOne).seg .ds = 0 ∧
      ¬ CreatesFrame threadCreate 2 3 beforeThreads 0x100100 stackOne := by
  have hfree : firstUnassigned beforeThreads 3 ≠ 3 := by decide
  have hds := @restored_ds 3 beforeThreads 0x100100 stackOne startOne ⟨2, by decide⟩ hfree
    (fun _ _ _ ↦ rfl) atRestore_startOne
  exact ⟨fun _ _ _ ↦ rfl, atRestore_startOne, hds, not_createsFrame 2 hfree⟩

end OperatingSystem.Fifos
