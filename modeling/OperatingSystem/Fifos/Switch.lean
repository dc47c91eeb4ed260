import OperatingSystem.Lib.I386

/-!
# The context switch

The instructions of `switch.s`, which FIFOS-1 and FIFOS-2 share, and what they
leave on a stack and take from it.
-/

namespace OperatingSystem.Fifos

open I386 ByteMemory

/-! ## The code -/

/-- From `pushfl` to the store of ESP through ESI. -/
def saveContext (m : Machine) : Machine :=
  let m := m.pushfl
  let m := m.pushal
  let m := m.pushw .ds
  let m := m.pushw .es
  let m := m.pushw .fs
  let m := m.pushw .gs
  m.movlTo .esp .esi

/-- From the label `1` on. -/
def restoreContext (m : Machine) : Machine :=
  let m := m.movlFrom .edi .esp
  let m := m.popw .gs
  let m := m.popw .fs
  let m := m.popw .es
  let m := m.popw .ds
  let m := m.popal
  let m := m.popfl
  m.ret

/-- `switch_to`, with the value that `testl` leaves in the undefined AF. -/
def switchTo (m : Machine) (af : Bool) : Machine :=
  let m := m.testl .esi .esi af
  if m.eflags.zf then restoreContext m else restoreContext (saveContext m)

/-! ## The frame of a suspended thread -/

/-- The bytes from the saved ESP on, up to the flags. -/
def savedBytes (seg : SegReg → BitVec 16) (reg : Reg32 → BitVec 32) (f : Eflags) : List UInt8 :=
  halfBytes (seg .gs) ++ (halfBytes (seg .fs) ++ (halfBytes (seg .es) ++ (halfBytes (seg .ds) ++
    (Machine.generalBytes reg ++ wordBytes f.bits))))

/-- The bytes from the saved ESP on, with the return address. The slot of ESP
that `popal` skips holds `reg .esp`. -/
def frame (c : Cpu) : List UInt8 := savedBytes c.seg c.reg c.eflags ++ wordBytes c.eip

theorem length_savedBytes (seg : SegReg → BitVec 16) (reg : Reg32 → BitVec 32) (f : Eflags) :
    (savedBytes seg reg f).length = 44 := by
  simp [savedBytes, Machine.length_generalBytes]

theorem length_frame (c : Cpu) : (frame c).length = 48 := by
  simp [frame, length_savedBytes]

theorem frame_eq (c : Cpu) : frame c =
    halfBytes (c.seg .gs) ++ (halfBytes (c.seg .fs) ++ (halfBytes (c.seg .es) ++
      (halfBytes (c.seg .ds) ++ (Machine.generalBytes c.reg ++ (wordBytes c.eflags.bits ++
        (wordBytes c.eip ++ [])))))) := by
  simp [frame, savedBytes]

/-- The processor once the frame was taken from a stack at `sp`. -/
def resumed (m : Machine) (c : Cpu) (sp : BitVec 32) : Machine where
  eip := c.eip
  reg := fun r ↦ if r = .esp then sp + 48 else c.reg r
  seg := fun s ↦ if s = .cs then m.seg .cs else c.seg s
  eflags := c.eflags
  mem := m.mem

theorem restoreContext_of_frame {m : Machine} {c : Cpu} {sp : BitVec 32}
    (hsp : m.load32 (m.reg .edi) = sp) (htop : (m.setReg .esp sp).Top (frame c)) :
    restoreContext m = resumed m c sp := by
  have h₀ : (m.movlFrom .edi .esp).Top (frame c) := by
    rw [Machine.movlFrom, hsp]
    exact htop
  rw [frame_eq] at h₀
  obtain ⟨heq₁, h₁⟩ := Machine.popw_of_top (s := .gs) h₀
  obtain ⟨heq₂, h₂⟩ := Machine.popw_of_top (s := .fs) h₁
  obtain ⟨heq₃, h₃⟩ := Machine.popw_of_top (s := .es) h₂
  obtain ⟨heq₄, h₄⟩ := Machine.popw_of_top (s := .ds) h₃
  obtain ⟨h₅, heq₅⟩ := Machine.popal_of_top h₄
  obtain ⟨heq₆, h₆⟩ := Machine.popfl_of_top h₅
  rw [restoreContext, Machine.ret_of_top h₆, heq₆, heq₅, heq₄, heq₃, heq₂, heq₁,
    Machine.movlFrom, hsp]
  refine Machine.ext_fields ?_ ?_ ?_ ?_ ?_
  · rfl
  · intro r
    by_cases hr : r = .esp
    · subst hr
      simp only [resumed, if_true, Machine.drop, Machine.setReg, Machine.setSeg,
        Function.update_self]
      bv_omega
    · simp [resumed, Machine.drop, Machine.setReg, hr]
  · intro s
    cases s <;> simp [resumed, Machine.drop, Machine.setReg, Machine.setSeg]
  · rfl
  · rfl

theorem saveContext_eq {m : Machine} (hroom : 44 ≤ (m.reg .esp).toNat) :
    saveContext m =
      (m.push (savedBytes m.seg (Function.update m.reg .esp (m.reg .esp - 4)) m.eflags)).movlTo
        .esp .esi := by
  have hflags : ((m.push (wordBytes m.eflags.bits)).reg .esp).toNat = (m.reg .esp).toNat - 4 := by
    rw [Machine.toNat_esp_push, length_wordBytes]
    rw [length_wordBytes]
    omega
  have hgeneral : (m.push (wordBytes m.eflags.bits)).pushal =
      (m.push (wordBytes m.eflags.bits)).push
        (Machine.generalBytes (Function.update m.reg .esp (m.reg .esp - 4))) :=
    Machine.pushal_eq (by omega)
  have hpushes := Machine.foldl_push m [wordBytes m.eflags.bits,
    Machine.generalBytes (Function.update m.reg .esp (m.reg .esp - 4)), halfBytes (m.seg .ds),
    halfBytes (m.seg .es), halfBytes (m.seg .fs), halfBytes (m.seg .gs)]
    (by simpa [Machine.length_generalBytes] using hroom)
  calc
    saveContext m = ((((((m.push (wordBytes m.eflags.bits)).pushal).pushw .ds).pushw .es).pushw
        .fs).pushw .gs).movlTo .esp .esi := rfl
    _ = ([wordBytes m.eflags.bits,
          Machine.generalBytes (Function.update m.reg .esp (m.reg .esp - 4)), halfBytes (m.seg .ds),
          halfBytes (m.seg .es), halfBytes (m.seg .fs), halfBytes (m.seg .gs)].foldl Machine.push
          m).movlTo .esp .esi := by
      rw [hgeneral]
      rfl
    _ = _ := by
      rw [hpushes]
      simp [savedBytes]

end OperatingSystem.Fifos
