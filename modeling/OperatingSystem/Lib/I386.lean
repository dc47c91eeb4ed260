import OperatingSystem.Lib.ByteMemory

/-!
# A subset of the i386

Registers, flags and the stack instructions of the i386 at privilege level 0
with a flat address space. The stack is reached through `push`, `top` and
`drop`; the rules say how bytes that were pushed come back.
-/

namespace OperatingSystem.I386

open ByteMemory

/-! ## Flags -/

/-- The flags that `popfl` can change: CF, PF, AF, ZF, SF, TF, IF, DF, OF, IOPL,
NT, AC and ID. -/
def flagMask : BitVec 32 := 0x247FD5

/-- CF, PF, AF, ZF, SF and OF. -/
def statusMask : BitVec 32 := 0x8D5

/-- TF, IF and NT, which an interrupt gate clears. -/
def gateMask : BitVec 32 := 0x4300

/-- EFLAGS. Bit 1 is always set, and the bits outside the mask are clear: the
processor is in protected mode and executes no debug exception. -/
structure Eflags where
  bits : BitVec 32
  reserved : bits &&& ~~~flagMask = 2

namespace Eflags

@[ext] theorem ext {f g : Eflags} (h : f.bits = g.bits) : f = g := by
  cases f
  cases g
  congr

/-- What `popfl` makes of a word. -/
def ofWord (w : BitVec 32) : Eflags where
  bits := (w &&& flagMask) ||| 2
  reserved := by
    have hreserved : (2 : BitVec 32) &&& ~~~flagMask = 2 := by decide
    rw [BitVec.and_or_distrib_right, BitVec.and_assoc, BitVec.and_not_self, hreserved]
    simp

theorem ofWord_bits (f : Eflags) : ofWord f.bits = f := by
  apply Eflags.ext
  change (f.bits &&& flagMask) ||| 2 = f.bits
  rw [← f.reserved, ← BitVec.and_or_distrib_left, BitVec.or_not_self, BitVec.and_allOnes]

/-- Replace the status flags. -/
def setStatus (f : Eflags) (status : BitVec 32) : Eflags where
  bits := (f.bits &&& ~~~statusMask) ||| (status &&& statusMask)
  reserved := by
    have hdisjoint : statusMask &&& ~~~flagMask = 0 := by decide
    have hinside : ~~~statusMask &&& ~~~flagMask = ~~~flagMask := by decide
    rw [BitVec.and_or_distrib_right, BitVec.and_assoc, hinside, f.reserved, BitVec.and_assoc,
      hdisjoint]
    simp

/-- The flags other than the status flags. -/
def control (f : Eflags) : BitVec 32 := f.bits &&& ~~~statusMask

def zf (f : Eflags) : Bool := f.bits.getLsbD 6

def interruptEnabled (f : Eflags) : Bool := f.bits.getLsbD 9

/-- The flags after the processor went through an interrupt gate. -/
def enterGate (f : Eflags) : Eflags where
  bits := f.bits &&& ~~~gateMask
  reserved := by
    have htwo : 2 &&& ~~~gateMask = (2 : BitVec 32) := by decide
    rw [BitVec.and_assoc, BitVec.and_comm (~~~gateMask), ← BitVec.and_assoc, f.reserved, htwo]

theorem interruptEnabled_enterGate (f : Eflags) : f.enterGate.interruptEnabled = false := by
  have hmask : gateMask.getLsbD 9 = true := by decide
  rw [interruptEnabled, enterGate, BitVec.getLsbD_and, BitVec.getLsbD_not, hmask]
  simp

theorem interruptEnabled_setStatus (f : Eflags) (status : BitVec 32) :
    (f.setStatus status).interruptEnabled = f.interruptEnabled := by
  have hmask : statusMask.getLsbD 9 = false := by decide
  rw [interruptEnabled, setStatus, BitVec.getLsbD_or, BitVec.getLsbD_and, BitVec.getLsbD_and,
    BitVec.getLsbD_not, hmask]
  simp [interruptEnabled]

end Eflags

/-! ## Machine -/

inductive Reg32 where
  | eax | ecx | edx | ebx | esp | ebp | esi | edi
  deriving DecidableEq

inductive SegReg where
  | cs | ds | es | fs | gs
  deriving DecidableEq

structure Cpu where
  eip : BitVec 32
  reg : Reg32 → BitVec 32
  seg : SegReg → BitVec 16
  eflags : Eflags

structure Machine extends Cpu where
  mem : ℕ → UInt8

theorem Machine.ext_fields {m m' : Machine} (heip : m.eip = m'.eip) (hreg : ∀ r, m.reg r = m'.reg r)
    (hseg : ∀ s, m.seg s = m'.seg s) (heflags : m.eflags = m'.eflags) (hmem : m.mem = m'.mem) :
    m = m' := by
  obtain ⟨⟨eip, reg, seg, eflags⟩, mem⟩ := m
  obtain ⟨⟨eip', reg', seg', eflags'⟩, mem'⟩ := m'
  obtain rfl : reg = reg' := funext hreg
  obtain rfl : seg = seg' := funext hseg
  cases heip
  cases heflags
  cases hmem
  rfl

def wordBytes (v : BitVec 32) : List UInt8 := leBytes 4 v.toNat

def halfBytes (v : BitVec 16) : List UInt8 := leBytes 2 v.toNat

@[simp] theorem length_wordBytes (v : BitVec 32) : (wordBytes v).length = 4 := length_leBytes 4 _

@[simp] theorem length_halfBytes (v : BitVec 16) : (halfBytes v).length = 2 := length_leBytes 2 _

def wordOf (bytes : List UInt8) : BitVec 32 := BitVec.ofNat 32 (leValue bytes)

def halfOf (bytes : List UInt8) : BitVec 16 := BitVec.ofNat 16 (leValue bytes)

@[simp] theorem wordOf_wordBytes (v : BitVec 32) : wordOf (wordBytes v) = v := by
  have hlt : v.toNat < 256 ^ 4 := v.isLt
  rw [wordOf, wordBytes, leValue_leBytes_of_lt hlt, BitVec.ofNat_toNat, BitVec.setWidth_eq]

@[simp] theorem halfOf_halfBytes (v : BitVec 16) : halfOf (halfBytes v) = v := by
  have hlt : v.toNat < 256 ^ 2 := v.isLt
  rw [halfOf, halfBytes, leValue_leBytes_of_lt hlt, BitVec.ofNat_toNat, BitVec.setWidth_eq]

/-- The status flags of a logical operation. AF is undefined after it. -/
def logicStatus (result : BitVec 32) (af : Bool) : BitVec 32 :=
  (if (List.range 8).countP (fun i ↦ result.getLsbD i) % 2 = 0 then 0x4 else 0) |||
    (if af then 0x10 else 0) ||| (if result = 0 then 0x40 else 0) |||
    (if result.msb then 0x80 else 0)

theorem Eflags.zf_setStatus (f : Eflags) (result : BitVec 32) (af : Bool) :
    (f.setStatus (logicStatus result af)).zf = decide (result = 0) := by
  have hmask : statusMask.getLsbD 6 = true := by decide
  have hother : ∀ (c : Prop) [Decidable c] (v : BitVec 32), v.getLsbD 6 = false →
      (if c then v else 0).getLsbD 6 = false := by
    intro c _ v hv
    split
    · exact hv
    · rfl
  have hzero : (if result = 0 then (0x40 : BitVec 32) else 0).getLsbD 6 = decide (result = 0) := by
    split
    · next h => simp [h]
    · next h =>
      rw [decide_eq_false h]
      rfl
  simp only [Eflags.zf, Eflags.setStatus, logicStatus, BitVec.getLsbD_or, BitVec.getLsbD_and,
    BitVec.getLsbD_not, hmask, hzero]
  rw [hother _ 0x4 rfl, hother _ 0x10 rfl, hother _ 0x80 rfl]
  simp

theorem Eflags.control_setStatus (f : Eflags) (status : BitVec 32) :
    (f.setStatus status).control = f.control := by
  have hclear : status &&& statusMask &&& ~~~statusMask = 0 := by
    rw [BitVec.and_assoc, BitVec.and_not_self]
    exact BitVec.and_zero
  rw [Eflags.control, Eflags.setStatus, BitVec.and_or_distrib_right, hclear, BitVec.and_assoc,
    BitVec.and_self]
  exact BitVec.or_zero

namespace Machine

/-! ### Elementary actions -/

def setReg (m : Machine) (r : Reg32) (v : BitVec 32) : Machine :=
  { m with reg := Function.update m.reg r v }

def setSeg (m : Machine) (s : SegReg) (v : BitVec 16) : Machine :=
  { m with seg := Function.update m.seg s v }

def load32 (m : Machine) (addr : BitVec 32) : BitVec 32 := wordOf (readBytes m.mem addr.toNat 4)

def store32 (m : Machine) (addr v : BitVec 32) : Machine :=
  { m with mem := writeBytes m.mem addr.toNat (wordBytes v) }

/-- Move ESP down and store the bytes at the new top of the stack. -/
def push (m : Machine) (bytes : List UInt8) : Machine :=
  let esp := m.reg .esp - BitVec.ofNat 32 bytes.length
  { m with
    reg := Function.update m.reg .esp esp
    mem := writeBytes m.mem esp.toNat bytes }

/-- The bytes at the top of the stack. -/
def top (m : Machine) (n : ℕ) : List UInt8 := readBytes m.mem (m.reg .esp).toNat n

def drop (m : Machine) (n : ℕ) : Machine := m.setReg .esp (m.reg .esp + BitVec.ofNat 32 n)

/-! ### Instructions -/

def pushl (m : Machine) (v : BitVec 32) : Machine := m.push (wordBytes v)

def pushw (m : Machine) (s : SegReg) : Machine := m.push (halfBytes (m.seg s))

def pushfl (m : Machine) : Machine := m.pushl m.eflags.bits

/-- The value pushed for ESP is the one before the instruction. -/
def pushal (m : Machine) : Machine :=
  [m.reg .eax, m.reg .ecx, m.reg .edx, m.reg .ebx, m.reg .esp, m.reg .ebp, m.reg .esi,
    m.reg .edi].foldl pushl m

def popl (m : Machine) (r : Reg32) : Machine := (m.drop 4).setReg r (wordOf (m.top 4))

def popw (m : Machine) (s : SegReg) : Machine := (m.drop 2).setSeg s (halfOf (m.top 2))

def popfl (m : Machine) : Machine := { m.drop 4 with eflags := .ofWord (wordOf (m.top 4)) }

/-- The word for ESP is skipped. -/
def popal (m : Machine) : Machine :=
  let m := [Reg32.edi, .esi, .ebp].foldl popl m
  let m := m.drop 4
  [Reg32.ebx, .edx, .ecx, .eax].foldl popl m

def movlTo (m : Machine) (src dst : Reg32) : Machine := m.store32 (m.reg dst) (m.reg src)

def movlFrom (m : Machine) (src dst : Reg32) : Machine := m.setReg dst (m.load32 (m.reg src))

def movwToAx (m : Machine) (s : SegReg) : Machine :=
  m.setReg .eax ((m.reg .eax &&& 0xffff0000) ||| (m.seg s).setWidth 32)

def movwImmediate (m : Machine) (v : BitVec 16) : Machine :=
  m.setReg .eax ((m.reg .eax &&& 0xffff0000) ||| v.setWidth 32)

def movwFromAx (m : Machine) (s : SegReg) : Machine := m.setSeg s ((m.reg .eax).setWidth 16)

def testl (m : Machine) (a b : Reg32) (af : Bool) : Machine :=
  { m with eflags := m.eflags.setStatus (logicStatus (m.reg a &&& m.reg b) af) }

/-- `call` of a function, with the address of the next instruction. -/
def call (m : Machine) (next target : BitVec 32) : Machine := { m.pushl next with eip := target }

def ret (m : Machine) : Machine := { m.drop 4 with eip := wordOf (m.top 4) }

/-- `iret` to the same privilege level. -/
def iret (m : Machine) : Machine :=
  let m := m.ret
  let m := (m.drop 4).setSeg .cs ((wordOf (m.top 4)).setWidth 16)
  m.popfl

/-- An interrupt through a gate of the same privilege level. -/
def interrupt (m : Machine) (selector : BitVec 16) (target : BitVec 32) : Machine :=
  let m := m.pushfl
  let m := m.pushl ((m.seg .cs).setWidth 32)
  let m := m.pushl m.eip
  { m.setSeg .cs selector with eip := target, eflags := m.eflags.enterGate }

/-! ### The stack -/

/-- The given bytes lie at the top of the stack. -/
structure Top (m : Machine) (bytes : List UInt8) : Prop where
  top : m.top bytes.length = bytes
  fits : (m.reg .esp).toNat + bytes.length ≤ 4294967296

variable {m : Machine}

theorem push_nil (m : Machine) : m.push [] = m := by
  simp [push]

theorem lowHalf_movw (eax : BitVec 32) (v : BitVec 16) :
    ((eax &&& 0xffff0000) ||| v.setWidth 32).setWidth 16 = v := by
  have hmask : (0xffff0000 : BitVec 32).setWidth 16 = 0 := by decide
  rw [BitVec.setWidth_or, BitVec.setWidth_and, hmask]
  simp

@[simp] theorem reg_setReg_self (m : Machine) (r : Reg32) (v : BitVec 32) :
    (m.setReg r v).reg r = v := by simp [setReg]

theorem reg_setReg_of_ne (m : Machine) {q r : Reg32} (v : BitVec 32) (h : q ≠ r) :
    (m.setReg r v).reg q = m.reg q := by simp [setReg, h]

@[simp] theorem esp_drop (m : Machine) (n : ℕ) :
    (m.drop n).reg .esp = m.reg .esp + BitVec.ofNat 32 n := reg_setReg_self ..

theorem reg_drop_of_ne (m : Machine) {q : Reg32} (n : ℕ) (h : q ≠ .esp) :
    (m.drop n).reg q = m.reg q := reg_setReg_of_ne m _ h

theorem esp_push (m : Machine) (bytes : List UInt8) :
    (m.push bytes).reg .esp = m.reg .esp - BitVec.ofNat 32 bytes.length :=
  Function.update_self Reg32.esp _ m.reg

theorem reg_push_of_ne (m : Machine) (bytes : List UInt8) {r : Reg32} (h : r ≠ .esp) :
    (m.push bytes).reg r = m.reg r := Function.update_of_ne h _ m.reg

theorem reg_call_of_ne (m : Machine) (next target : BitVec 32) {r : Reg32} (h : r ≠ .esp) :
    (m.call next target).reg r = m.reg r := m.reg_push_of_ne (wordBytes next) h

theorem mem_push (m : Machine) (bytes : List UInt8) : (m.push bytes).mem =
    writeBytes m.mem (m.reg .esp - BitVec.ofNat 32 bytes.length).toNat bytes := rfl

theorem toNat_esp_push {bytes : List UInt8} (h : bytes.length ≤ (m.reg .esp).toNat) :
    ((m.push bytes).reg .esp).toNat = (m.reg .esp).toNat - bytes.length := by
  have hlt := (m.reg .esp).isLt
  rw [esp_push]
  bv_omega

/-- Two pushes in a row, as long as the stack does not wrap around. -/
theorem push_push {as bs : List UInt8} (h : as.length + bs.length ≤ (m.reg .esp).toNat) :
    (m.push as).push bs = m.push (bs ++ as) := by
  have hlt := (m.reg .esp).isLt
  have hesp : m.reg .esp - BitVec.ofNat 32 as.length - BitVec.ofNat 32 bs.length =
      m.reg .esp - BitVec.ofNat 32 (bs ++ as).length := by
    rw [List.length_append]
    bv_omega
  have haddr : (m.reg .esp - BitVec.ofNat 32 as.length).toNat =
      (m.reg .esp - BitVec.ofNat 32 (bs ++ as).length).toNat + bs.length := by
    rw [List.length_append]
    bv_omega
  simp only [push, Function.update_self, Function.update_idem, hesp]
  congr 1
  rw [haddr, writeBytes_append, writeBytes_comm]
  exact .inr (le_refl _)

theorem foldl_push (m : Machine) (bss : List (List UInt8))
    (h : bss.flatten.length ≤ (m.reg .esp).toNat) :
    bss.foldl push m = m.push bss.reverse.flatten := by
  induction bss generalizing m with
  | nil => exact (push_nil m).symm
  | cons bs bss ih =>
      rw [List.flatten_cons, List.length_append] at h
      have hfirst : bs.length ≤ (m.reg .esp).toNat := le_trans (Nat.le_add_right ..) h
      have hreverse : bss.reverse.flatten.length = bss.flatten.length := by
        simp [List.length_flatten, List.map_reverse, List.sum_reverse]
      rw [List.foldl_cons, ih, push_push, List.reverse_cons, List.flatten_append,
        List.flatten_singleton]
      · rw [hreverse]
        exact h
      · rw [toNat_esp_push hfirst]
        omega

/-- What `pushal` leaves on the stack, from the top on. -/
def generalBytes (reg : Reg32 → BitVec 32) : List UInt8 :=
  [reg .edi, reg .esi, reg .ebp, reg .esp, reg .ebx, reg .edx, reg .ecx, reg .eax].flatMap wordBytes

theorem length_generalBytes (reg : Reg32 → BitVec 32) : (generalBytes reg).length = 32 := by
  simp [generalBytes]

theorem pushal_eq (h : 32 ≤ (m.reg .esp).toNat) : m.pushal = m.push (generalBytes m.reg) := by
  have hpushes := foldl_push m ([m.reg .eax, m.reg .ecx, m.reg .edx, m.reg .ebx, m.reg .esp,
    m.reg .ebp, m.reg .esi, m.reg .edi].map wordBytes) (by simpa using h)
  rw [List.foldl_map] at hpushes
  exact hpushes

/-- What an interrupt leaves on the stack, from the top on. -/
def interruptBytes (c : Cpu) : List UInt8 :=
  wordBytes c.eip ++ (wordBytes ((c.seg .cs).setWidth 32) ++ wordBytes c.eflags.bits)

theorem length_interruptBytes (c : Cpu) : (interruptBytes c).length = 12 := by
  simp [interruptBytes]

theorem interrupt_eq {selector : BitVec 16} {target : BitVec 32} (h : 12 ≤ (m.reg .esp).toNat) :
    m.interrupt selector target =
      { (m.push (interruptBytes m.toCpu)).setSeg .cs selector with
        eip := target, eflags := m.eflags.enterGate } := by
  have hpushes := foldl_push m [wordBytes m.eflags.bits,
    wordBytes ((m.seg .cs).setWidth 32), wordBytes m.eip] (by simpa using h)
  have hbytes : [wordBytes m.eflags.bits, wordBytes ((m.seg .cs).setWidth 32),
      wordBytes m.eip].reverse.flatten = interruptBytes m.toCpu := by
    simp [interruptBytes]
  rw [hbytes] at hpushes
  rw [← hpushes]
  rfl

/-! ### Taking bytes back -/

@[simp] theorem mem_drop (m : Machine) (n : ℕ) : (m.drop n).mem = m.mem := rfl

@[simp] theorem mem_movlFrom (m : Machine) (src dst : Reg32) : (m.movlFrom src dst).mem = m.mem :=
  rfl

@[simp] theorem mem_popl (m : Machine) (r : Reg32) : (m.popl r).mem = m.mem := rfl

@[simp] theorem mem_popw (m : Machine) (s : SegReg) : (m.popw s).mem = m.mem := rfl

@[simp] theorem mem_popal (m : Machine) : m.popal.mem = m.mem := by
  simp only [popal, List.foldl_cons, List.foldl_nil, mem_popl, mem_drop]

@[simp] theorem mem_popfl (m : Machine) : m.popfl.mem = m.mem := rfl

@[simp] theorem mem_ret (m : Machine) : m.ret.mem = m.mem := rfl

theorem Top.drop {as bs : List UInt8} (h : m.Top (as ++ bs)) :
    m.top as.length = as ∧ (m.drop as.length).Top bs := by
  have hfits := h.fits
  rw [List.length_append] at hfits
  have hread := h.top
  rw [Machine.top, List.length_append, readBytes_add] at hread
  obtain ⟨hfirst, hrest⟩ := List.append_inj hread (length_readBytes ..)
  refine ⟨hfirst, ?_⟩
  by_cases hnil : bs = []
  · subst hnil
    exact ⟨rfl, (BitVec.isLt _).le⟩
  · have hpos := List.length_pos_iff.mpr hnil
    have hesp : ((m.drop as.length).reg .esp).toNat = (m.reg .esp).toNat + as.length := by
      have hlt := (m.reg .esp).isLt
      rw [esp_drop]
      bv_omega
    refine ⟨?_, by omega⟩
    rw [Machine.top, hesp]
    exact hrest

theorem Top.congr {m' : Machine} {bs : List UInt8} (h : m.Top bs) (hmem : m'.mem = m.mem)
    (hesp : m'.reg .esp = m.reg .esp) : m'.Top bs := by
  refine ⟨?_, hesp ▸ h.fits⟩
  rw [Machine.top, hmem, hesp]
  exact h.top

theorem top_nil (m : Machine) : m.Top [] := ⟨rfl, (m.reg .esp).isLt.le⟩

theorem Top.push {as bs : List UInt8} (h : m.Top bs) (hroom : as.length ≤ (m.reg .esp).toNat) :
    (m.push as).Top (as ++ bs) := by
  have hesp := toNat_esp_push hroom
  have hfits := h.fits
  have htop := h.top
  rw [Machine.top] at htop
  have haddr : (m.reg .esp - BitVec.ofNat 32 as.length).toNat + as.length =
      (m.reg .esp).toNat := by
    rw [esp_push] at hesp
    omega
  refine ⟨?_, ?_⟩
  · rw [Machine.top, mem_push, esp_push, List.length_append, readBytes_add, readBytes_writeBytes,
      haddr, readBytes_writeBytes_of_disjoint (.inr (by omega)), htop]
  · rw [hesp, List.length_append]
    omega

theorem popl_of_top {v : BitVec 32} {r : Reg32} {bs : List UInt8} (h : m.Top (wordBytes v ++ bs)) :
    m.popl r = (m.drop 4).setReg r v := by
  obtain ⟨htop, -⟩ := h.drop
  rw [length_wordBytes] at htop
  rw [popl, htop, wordOf_wordBytes]

theorem popw_of_top {v : BitVec 16} {s : SegReg} {bs : List UInt8}
    (h : m.Top (halfBytes v ++ bs)) :
    m.popw s = (m.drop 2).setSeg s v ∧ (m.popw s).Top bs := by
  obtain ⟨htop, hrest⟩ := h.drop
  rw [length_halfBytes] at htop hrest
  rw [popw, htop, halfOf_halfBytes]
  exact ⟨rfl, hrest.congr rfl rfl⟩

theorem popfl_of_top {f : Eflags} {bs : List UInt8} (h : m.Top (wordBytes f.bits ++ bs)) :
    m.popfl = { m.drop 4 with eflags := f } ∧ m.popfl.Top bs := by
  obtain ⟨htop, hrest⟩ := h.drop
  rw [length_wordBytes] at htop hrest
  rw [popfl, htop, wordOf_wordBytes, Eflags.ofWord_bits]
  exact ⟨rfl, hrest.congr rfl rfl⟩

theorem ret_of_top {v : BitVec 32} {bs : List UInt8} (h : m.Top (wordBytes v ++ bs)) :
    m.ret = { m.drop 4 with eip := v } := by
  obtain ⟨htop, -⟩ := h.drop
  rw [length_wordBytes] at htop
  rw [ret, htop, wordOf_wordBytes]

/-- `iret` takes back what an interrupt pushed. -/
theorem iret_of_top {c : Cpu} {bs : List UInt8} (h : m.Top (interruptBytes c ++ bs)) :
    m.iret = { (m.drop 12).setSeg .cs (c.seg .cs) with eip := c.eip, eflags := c.eflags } := by
  rw [interruptBytes, List.append_assoc, List.append_assoc] at h
  obtain ⟨hcs, hrest⟩ := h.drop.2.drop
  rw [length_wordBytes] at hcs hrest
  have hflags : ((((m.ret).drop 4).setSeg .cs (c.seg .cs))).Top (wordBytes c.eflags.bits ++ bs) :=
    hrest.congr rfl rfl
  have hvalue : ((wordOf (m.ret.top 4)).setWidth 16) = c.seg .cs := by
    have hword : m.ret.top 4 = wordBytes ((c.seg .cs).setWidth 32) := hcs
    rw [hword, wordOf_wordBytes]
    simp
  simp only [iret]
  rw [hvalue, (popfl_of_top hflags).1, ret_of_top h]
  have hesp : m.reg .esp + 4 + 4 + 4 = m.reg .esp + 12 := by
    rw [BitVec.add_assoc, BitVec.add_assoc]
    rfl
  refine ext_fields rfl (fun r ↦ ?_) (fun s ↦ rfl) rfl rfl
  by_cases hr : r = .esp
  · subst hr
    exact hesp
  · simp [Machine.drop, setReg, setSeg, hr]

theorem foldl_popl {value : Reg32 → BitVec 32} {rs : List Reg32} {bs : List UInt8}
    (hesp : Reg32.esp ∉ rs) (h : m.Top (rs.flatMap (fun r ↦ wordBytes (value r)) ++ bs)) :
    (rs.foldl popl m).Top bs ∧
      rs.foldl popl m =
        { m with reg := fun r ↦ if r ∈ rs then value r else (m.drop (4 * rs.length)).reg r } := by
  induction rs generalizing m with
  | nil =>
      refine ⟨h, ?_⟩
      simp [Machine.drop, setReg]
  | cons r rs ih =>
      rw [List.mem_cons, not_or] at hesp
      rw [List.flatMap_cons, List.append_assoc] at h
      have hpop := popl_of_top (r := r) h
      have hrest : (m.popl r).Top (rs.flatMap (fun r ↦ wordBytes (value r)) ++ bs) := by
        have hdrop := h.drop.2
        rw [length_wordBytes] at hdrop
        rw [hpop]
        exact hdrop.congr rfl (reg_setReg_of_ne _ _ hesp.1)
      obtain ⟨htop, heq⟩ := ih hesp.2 hrest
      refine ⟨htop, ?_⟩
      have hreg : (fun q ↦ if q ∈ rs then value q else
            (((m.drop 4).setReg r (value r)).drop (4 * rs.length)).reg q) =
          fun q ↦ if q ∈ r :: rs then value q else (m.drop (4 * (r :: rs).length)).reg q := by
        funext q
        by_cases hmem : q ∈ rs
        · simp [hmem]
        · by_cases hr : q = r
          · subst hr
            rw [if_neg hmem, if_pos List.mem_cons_self, reg_drop_of_ne _ _ (Ne.symm hesp.1),
              reg_setReg_self]
          · rw [if_neg hmem, if_neg (List.not_mem_cons_of_ne_of_not_mem hr hmem)]
            by_cases hq : q = .esp
            · subst hq
              rw [esp_drop, esp_drop, reg_setReg_of_ne _ _ hr, esp_drop, List.length_cons]
              bv_omega
            · rw [reg_drop_of_ne _ _ hq, reg_drop_of_ne _ _ hq, reg_setReg_of_ne _ _ hr,
                reg_drop_of_ne _ _ hq]
      rw [List.foldl_cons, heq, hpop]
      exact congrArg (fun reg ↦ ({ m with reg := reg } : Machine)) hreg

/-- `popal` gives back all registers but ESP. -/
theorem popal_of_top {value : Reg32 → BitVec 32} {bs : List UInt8}
    (h : m.Top (generalBytes value ++ bs)) :
    m.popal.Top bs ∧
      m.popal = { m with reg := fun r ↦ if r = .esp then m.reg .esp + 32 else value r } := by
  have hsplit : generalBytes value ++ bs =
      [Reg32.edi, .esi, .ebp].flatMap (fun r ↦ wordBytes (value r)) ++
        (wordBytes (value .esp) ++
          ([Reg32.ebx, .edx, .ecx, .eax].flatMap (fun r ↦ wordBytes (value r)) ++ bs)) := by
    simp [generalBytes]
  rw [hsplit] at h
  obtain ⟨hlow, heqlow⟩ := foldl_popl (by decide) h
  have hskip := hlow.drop.2
  rw [length_wordBytes] at hskip
  obtain ⟨hhigh, heqhigh⟩ := foldl_popl (by decide) hskip
  refine ⟨hhigh, ?_⟩
  rw [popal, heqhigh, heqlow]
  have hreg : (fun r ↦ if r ∈ [Reg32.ebx, .edx, .ecx, .eax] then value r else
        ((({ m with reg := fun r ↦ if r ∈ [Reg32.edi, .esi, .ebp] then value r else
            (m.drop (4 * [Reg32.edi, .esi, .ebp].length)).reg r } : Machine).drop 4).drop
          (4 * [Reg32.ebx, .edx, .ecx, .eax].length)).reg r) =
      fun r ↦ if r = .esp then m.reg .esp + 32 else value r := by
    funext r
    cases r with
    | esp =>
        simp only [esp_drop]
        simp [BitVec.add_assoc]
    | _ => simp [Machine.drop, setReg]
  exact congrArg (fun reg ↦ ({ m with reg := reg } : Machine)) hreg

end Machine

end OperatingSystem.I386
