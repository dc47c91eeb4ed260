import OperatingSystem.Fifos.ContextSwitch

/-!
# The handler of the timer

`initPIT` chooses the code that the timer enters. FIFOS-2 has two candidates: the
C function `timerInterruptHandler`, which ends with a near `ret`, and the wrapper
`timerInterruptHandler_assembly`, which saves the registers, calls the C function
and ends with `iret`. The wrapper gives an interrupted instruction all registers
back; `initPIT` installs the C function.
-/

namespace OperatingSystem.Fifos

open I386 ByteMemory

/-! ## The interrupt table -/

structure IDTEntry where
  offsetLow : BitVec 16
  selector : BitVec 16
  unused0 : BitVec 8
  typeSDplP : BitVec 8
  offsetHigh : BitVec 16

/-- The address that the processor takes from an entry. -/
def IDTEntry.address (e : IDTEntry) : BitVec 32 := e.offsetHigh ++ e.offsetLow

/-- The interrupt table, and the bytes written to ports so far. -/
structure Devices where
  idt : ℕ → IDTEntry
  written : List (BitVec 16 × BitVec 8)

def outb (d : Devices) (p : BitVec 16) (v : BitVec 8) : Devices :=
  { d with written := d.written ++ [(p, v)] }

/-- `initPIT`, with the address of the function `timerInterruptHandler`. -/
def initPIT (timerInterruptHandler : BitVec 32) (d : Devices) : BitVec 32 × Devices :=
  let handlerAddress := timerInterruptHandler
  let d := { d with
    idt := Function.update d.idt 32
      { offsetLow := (handlerAddress &&& 0xffff).setWidth 16
        selector := 0x08
        unused0 := 0
        typeSDplP := 0x8e
        offsetHigh := (handlerAddress >>> 16 &&& 0xffff).setWidth 16 } }
  let f : BitVec 16 := BitVec.ofNat 16 (1193180 / 100)
  let d := outb d 0x43 0x34
  let lobyte := (f &&& 0xff).setWidth 8
  let hibyte := (f >>> 8 &&& 0xff).setWidth 8
  let d := outb d 0x40 lobyte
  let d := outb d 0x40 hibyte
  (1, d)

theorem setWidth_and_halfMask (w : BitVec 32) : (w &&& 0xffff).setWidth 16 = w.setWidth 16 := by
  have hmask : (0xffff : BitVec 32).setWidth 16 = BitVec.allOnes 16 := by decide
  rw [BitVec.setWidth_and, hmask, BitVec.and_allOnes]

theorem initPIT_address (timerInterruptHandler : BitVec 32) (d : Devices) :
    ((initPIT timerInterruptHandler d).2.idt 32).address = timerInterruptHandler := by
  simp only [initPIT, outb, Function.update_self, IDTEntry.address, setWidth_and_halfMask]
  apply BitVec.eq_of_getLsbD_eq
  intro i hi
  rw [BitVec.getLsbD_append, BitVec.getLsbD_setWidth, BitVec.getLsbD_setWidth,
    BitVec.getLsbD_ushiftRight]
  split
  · next hlow => simp [hlow]
  · next hhigh =>
    have hadd : 16 + (i - 16) = i := by omega
    have hlt : i - 16 < 16 := by omega
    simp [hadd, hlt]

/-- The timer interrupt as the processor delivers it. -/
def timerInterrupt (d : Devices) (m : Machine) : Machine :=
  m.interrupt (d.idt 32).selector (d.idt 32).address

/-- The processor in front of the first instruction of the handler. It does not
depend on the memory. -/
def handlerEntry (d : Devices) (c : Cpu) : Cpu := (timerInterrupt d ⟨c, fun _ ↦ 0⟩).toCpu

theorem toCpu_timerInterrupt (d : Devices) (m : Machine) :
    (timerInterrupt d m).toCpu = handlerEntry d m.toCpu := rfl

theorem handlerEntry_esp (d : Devices) (c : Cpu) :
    (handlerEntry d c).reg .esp = c.reg .esp - 12 := by
  change c.reg .esp - 4 - 4 - 4 = _
  bv_omega

/-! ## The wrapper -/

/-- `timerInterruptHandler_assembly` up to the function that it calls, with the
addresses of the instruction behind the call and of the function. -/
def saveState (next timerInterruptHandler : BitVec 32) (m : Machine) : Machine :=
  let m := m.pushal
  let m := m.movwToAx .ds
  let m := m.pushl (m.reg .eax)
  let m := m.movwImmediate 0x10
  let m := [SegReg.ds, .es, .fs, .gs].foldl Machine.movwFromAx m
  m.call next timerInterruptHandler

/-- The rest of `timerInterruptHandler_assembly`, from the return of the function
on. -/
def restoreState (m : Machine) : Machine :=
  let m := m.popl .eax
  let m := [SegReg.gs, .fs, .es, .ds].foldl Machine.movwFromAx m
  m.popal.iret

/-! ## The way back -/

/-- A C function that was entered with this processor is about to execute its
`ret`: ESP is at its value on entry, and the registers that the function must
keep are restored. -/
structure AtReturn (entry : Cpu) (m : Machine) : Prop where
  esp : m.reg .esp = entry.reg .esp
  callee : ∀ r ∈ [Reg32.ebx, .ebp, .esi, .edi], m.reg r = entry.reg r
  seg : ∀ s, s ≠ .cs → m.seg s = entry.seg s

/-- Where the linker placed the two handlers, and the instruction behind the call
in the wrapper. -/
structure Handlers where
  timerInterruptHandler : BitVec 32
  timerInterruptHandlerAssembly : BitVec 32
  afterCall : BitVec 32
  distinct : timerInterruptHandler ≠ timerInterruptHandlerAssembly

/-- The code behind entry 32 of the table returns from an interrupt of `c`. The C
function executes its own `ret`, which for the wrapper leads back into it. -/
inductive HandlerReturn (h : Handlers) (d : Devices) (c : Cpu) (m : Machine) : Machine → Prop
  | function (haddr : (d.idt 32).address = h.timerInterruptHandler)
      (hreturn : AtReturn (handlerEntry d c) m) : HandlerReturn h d c m m.ret
  | assembly (haddr : (d.idt 32).address = h.timerInterruptHandlerAssembly)
      (hreturn : AtReturn
        (saveState h.afterCall h.timerInterruptHandler ⟨handlerEntry d c, fun _ ↦ 0⟩).toCpu m) :
      HandlerReturn h d c m (restoreState m.ret)

theorem mem_foldl_movwFromAx (m : Machine) (ss : List SegReg) :
    (ss.foldl Machine.movwFromAx m).mem = m.mem ∧
      (ss.foldl Machine.movwFromAx m).reg = m.reg := by
  induction ss generalizing m with
  | nil => exact ⟨rfl, rfl⟩
  | cons s ss ih => exact ih (m.movwFromAx s)

theorem restoreState_mem (m : Machine) : (restoreState m).mem = m.mem := by
  have hiret : ∀ m : Machine, m.iret.mem = m.mem := fun _ ↦ rfl
  rw [restoreState, hiret, Machine.mem_popal, (mem_foldl_movwFromAx _ _).1, Machine.mem_popl]

theorem HandlerReturn.mem {h : Handlers} {d : Devices} {c : Cpu} {m m' : Machine}
    (hreturn : HandlerReturn h d c m m') : m'.mem = m.mem := by
  cases hreturn with
  | function _ _ => rfl
  | assembly _ _ => exact restoreState_mem m.ret

/-- Behind the entry that `initPIT` makes there is the C function. -/
theorem HandlerReturn.eq_ret {h : Handlers} {d : Devices} {c : Cpu} {m m' : Machine}
    (haddr : (d.idt 32).address = h.timerInterruptHandler)
    (hreturn : HandlerReturn h d c m m') : AtReturn (handlerEntry d c) m ∧ m' = m.ret := by
  cases hreturn with
  | function _ hreturn => exact ⟨hreturn, rfl⟩
  | assembly hother _ => exact (h.distinct (haddr.symm.trans hother)).elim

theorem AtReturn.esp_ret {d : Devices} {c : Cpu} {m : Machine}
    (h : AtReturn (handlerEntry d c) m) : m.ret.reg .esp = c.reg .esp - 8 := by
  have hret : m.ret.reg .esp = m.reg .esp + 4 := m.esp_drop 4
  rw [hret, h.esp, handlerEntry_esp]
  bv_omega

/-! ## What the wrapper would give back -/

theorem saveState_esp (next function : BitVec 32) (m : Machine) :
    (saveState next function m).reg .esp = m.reg .esp - 40 := by
  change m.reg .esp - 4 - 4 - 4 - 4 - 4 - 4 - 4 - 4 - 4 - 4 = _
  bv_omega

/-- What the wrapper leaves on the stack, from the return address of its call
on. -/
theorem saveState_top {next function : BitVec 32} {m : Machine} {bs : List UInt8}
    (h : m.Top bs) (hroom : 40 ≤ (m.reg .esp).toNat) :
    ∃ eax : BitVec 32, eax.setWidth 16 = m.seg .ds ∧
      (saveState next function m).Top (wordBytes next ++ (wordBytes eax ++
        (Machine.generalBytes m.reg ++ bs))) := by
  have hlen := Machine.length_generalBytes m.reg
  have hpushed : m.pushal = m.push (Machine.generalBytes m.reg) := Machine.pushal_eq (by omega)
  have hgeneral : m.pushal.Top (Machine.generalBytes m.reg ++ bs) := by
    rw [hpushed]
    exact h.push (by omega)
  have hesp : (m.pushal.reg .esp).toNat = (m.reg .esp).toNat - 32 := by
    rw [hpushed, Machine.toNat_esp_push (by omega), hlen]
  have hds : m.pushal.seg .ds = m.seg .ds := by
    rw [hpushed]
    rfl
  set m₁ := m.pushal.movwToAx .ds with hm₁
  have hsame₁ : m₁.reg .esp = m.pushal.reg .esp := Machine.reg_setReg_of_ne _ _ (by decide)
  have htop₁ : m₁.Top (Machine.generalBytes m.reg ++ bs) := hgeneral.congr rfl hsame₁
  have htop₂ : (m₁.pushl (m₁.reg .eax)).Top (wordBytes (m₁.reg .eax) ++
      (Machine.generalBytes m.reg ++ bs)) := htop₁.push (by
    rw [length_wordBytes, hsame₁]
    omega)
  set m₂ := [SegReg.ds, .es, .fs, .gs].foldl Machine.movwFromAx
    ((m₁.pushl (m₁.reg .eax)).movwImmediate 0x10) with hm₂
  obtain ⟨hmem, hreg⟩ := mem_foldl_movwFromAx ((m₁.pushl (m₁.reg .eax)).movwImmediate 0x10)
    [SegReg.ds, .es, .fs, .gs]
  have hsame₂ : m₂.reg .esp = (m₁.pushl (m₁.reg .eax)).reg .esp := by
    rw [hm₂, hreg]
    exact Machine.reg_setReg_of_ne _ _ (by decide)
  have hesp₂ : (m₂.reg .esp).toNat = (m.reg .esp).toNat - 36 := by
    rw [hsame₂, Machine.pushl, Machine.toNat_esp_push, length_wordBytes, hsame₁, hesp]
    · omega
    · rw [length_wordBytes, hsame₁]
      omega
  have htop₃ : m₂.Top (wordBytes (m₁.reg .eax) ++ (Machine.generalBytes m.reg ++ bs)) :=
    htop₂.congr hmem hsame₂
  refine ⟨m₁.reg .eax, ?_, ?_⟩
  · rw [hm₁, Machine.movwToAx, Machine.reg_setReg_self, Machine.lowHalf_movw, hds]
  · have hcall : (m₂.pushl next).Top (wordBytes next ++ (wordBytes (m₁.reg .eax) ++
        (Machine.generalBytes m.reg ++ bs))) := htop₃.push (by
      rw [length_wordBytes]
      omega)
    exact hcall.congr rfl rfl

/-- The wrapper takes the registers from the stack, all data segments from the one
that was saved, and what the processor had pushed. -/
theorem restoreState_of_top {m : Machine} {eax : BitVec 32} {value : Reg32 → BitVec 32} {c : Cpu}
    {bs : List UInt8}
    (h : m.Top (wordBytes eax ++ (Machine.generalBytes value ++ (Machine.interruptBytes c ++ bs)))) :
    restoreState m =
      { m with
        eip := c.eip
        reg := fun r ↦ if r = .esp then m.reg .esp + 48 else value r
        seg := fun s ↦ if s = .cs then c.seg .cs else eax.setWidth 16
        eflags := c.eflags } := by
  have hpop := Machine.popl_of_top (r := .eax) h
  have hrest := h.drop.2
  rw [length_wordBytes] at hrest
  set m₁ := [SegReg.gs, .fs, .es, .ds].foldl Machine.movwFromAx (m.popl .eax) with hm₁
  obtain ⟨hmem, hreg⟩ := mem_foldl_movwFromAx (m.popl .eax) [SegReg.gs, .fs, .es, .ds]
  have hesp : m₁.reg .esp = m.reg .esp + 4 := by
    rw [hm₁, hreg, hpop, Machine.reg_setReg_of_ne _ _ (by decide)]
    exact Machine.esp_drop m 4
  have heax : (m.popl .eax).reg .eax = eax := by
    rw [hpop, Machine.reg_setReg_self]
  have hseg : ∀ s, m₁.seg s = if s = .cs then m.seg .cs else eax.setWidth 16 := by
    intro s
    rw [← heax]
    cases s <;> rfl
  have htop : m₁.Top (Machine.generalBytes value ++ (Machine.interruptBytes c ++ bs)) :=
    hrest.congr hmem (hesp.trans (Machine.esp_drop m 4).symm)
  obtain ⟨hframe, hpopal⟩ := Machine.popal_of_top htop
  have hiret := Machine.iret_of_top hframe
  rw [hpopal] at hiret
  have hstart : restoreState m = m₁.popal.iret := rfl
  rw [hstart, hpopal, hiret]
  refine Machine.ext_fields rfl (fun r ↦ ?_) (fun s ↦ ?_) rfl hmem
  · by_cases hr : r = .esp
    · subst hr
      simp only [Machine.setSeg, Machine.esp_drop, if_true, hesp]
      bv_omega
    · simp [Machine.setSeg, Machine.drop, Machine.setReg, hr]
  · by_cases hs : s = .cs
    · subst hs
      simp [Machine.setSeg]
    · simp [Machine.setSeg, Machine.drop, Machine.setReg, hs, hseg]

/-- If the table held the wrapper, an interrupted instruction whose frame was left
alone would find everything as it was. The data segments are those of a kernel
with one data segment. -/
theorem HandlerReturn.restores_of_assembly {h : Handlers} {d : Devices} {m m₀ m' : Machine}
    (haddr : (d.idt 32).address = h.timerInterruptHandlerAssembly)
    (hreturn : HandlerReturn h d m₀.toCpu m m') (hroom : 52 ≤ (m₀.reg .esp).toNat)
    (hseg : ∀ s, s ≠ .cs → m₀.seg s = m₀.seg .ds)
    (hkept : ∀ x, (m.reg .esp).toNat ≤ x → x < (m₀.reg .esp).toNat →
      m.mem x = (saveState h.afterCall h.timerInterruptHandler (timerInterrupt d m₀)).mem x) :
    Restores m₀.toCpu m₀.eflags m' ∧ m'.seg .cs = m₀.seg .cs := by
  have hlen := Machine.length_interruptBytes m₀.toCpu
  have hpush : (m₀.push (Machine.interruptBytes m₀.toCpu)).Top
      (Machine.interruptBytes m₀.toCpu ++ []) := (Machine.top_nil m₀).push (by omega)
  have hentry : timerInterrupt d m₀ = _ := Machine.interrupt_eq (by omega)
  have htop : (timerInterrupt d m₀).Top (Machine.interruptBytes m₀.toCpu ++ []) :=
    hpush.congr (by rw [hentry]; rfl) (by rw [hentry]; rfl)
  have hesp : ((timerInterrupt d m₀).reg .esp).toNat = (m₀.reg .esp).toNat - 12 := by
    have hsub := handlerEntry_esp d m₀.toCpu
    rw [← toCpu_timerInterrupt] at hsub
    rw [hsub]
    bv_omega
  obtain ⟨eax, heax, hsaved⟩ := @saveState_top h.afterCall h.timerInterruptHandler _ _ htop
    (by omega)
  cases hreturn with
  | function hother _ => exact (h.distinct (hother.symm.trans haddr)).elim
  | assembly _ hreturn =>
      have hsp : (m.reg .esp).toNat + 52 = (m₀.reg .esp).toNat := by
        have hsub := saveState_esp h.afterCall h.timerInterruptHandler (timerInterrupt d m₀)
        have hsame : m.reg .esp = (saveState h.afterCall h.timerInterruptHandler
          (timerInterrupt d m₀)).reg .esp := hreturn.esp
        rw [hsame, hsub]
        bv_omega
      set bytes := wordBytes h.afterCall ++ (wordBytes eax ++
        (Machine.generalBytes (timerInterrupt d m₀).reg ++
          (Machine.interruptBytes m₀.toCpu ++ []))) with hbytes
      have hlength : bytes.length = 52 := by
        simp [hbytes, Machine.length_generalBytes, Machine.length_interruptBytes]
      have hstack : m.Top bytes := by
        have hread := hsaved.top
        rw [Machine.top, hlength] at hread
        refine ⟨?_, by have hlt := (m₀.reg .esp).isLt; omega⟩
        rw [Machine.top, hlength, hreturn.esp, ← hread]
        refine readBytes_congr fun k hk ↦ hkept _ ?_ ?_
        · rw [hreturn.esp]
          exact Nat.le_add_right ..
        · rw [← hreturn.esp]
          omega
      have hret := Machine.ret_of_top hstack
      have hrest : m.ret.Top (wordBytes eax ++
          (Machine.generalBytes (timerInterrupt d m₀).reg ++
            (Machine.interruptBytes m₀.toCpu ++ []))) := by
        have hdrop := hstack.drop.2
        rw [length_wordBytes] at hdrop
        exact hdrop.congr rfl rfl
      rw [restoreState_of_top hrest]
      refine ⟨⟨rfl, fun r ↦ ?_, fun s hs ↦ ?_, rfl⟩, rfl⟩
      · dsimp only
        split
        · next hr =>
          rw [hr, hret]
          change m.reg .esp + 4 + 48 = m₀.reg .esp
          bv_omega
        · next hr =>
          rw [hentry]
          exact Machine.reg_push_of_ne _ _ hr
      · dsimp only
        rw [if_neg hs, heax, hentry, hseg s hs]
        rfl

end OperatingSystem.Fifos
