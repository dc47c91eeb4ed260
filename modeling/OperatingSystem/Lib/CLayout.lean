import Mathlib.Tactic

/-!
# Layout of C structures

Members of a structure are placed one after the other, each at the next
multiple of its alignment; the size of the structure is rounded up to its
largest alignment.
-/

namespace OperatingSystem.CLayout

/-- A member with its size in bytes and its alignment. -/
structure Member where
  size : ℕ
  align : ℕ

def Member.array (m : Member) (n : ℕ) : Member := { m with size := n * m.size }

def alignUp (n align : ℕ) : ℕ := (n + align - 1) / align * align

/-- The offsets of members that are placed from `start` on. -/
def offsetsFrom : ℕ → List Member → List ℕ
  | _, [] => []
  | start, m :: ms =>
      alignUp start m.align :: offsetsFrom (alignUp start m.align + m.size) ms

/-- The first offset behind the members. -/
def endFrom : ℕ → List Member → ℕ
  | start, [] => start
  | start, m :: ms => endFrom (alignUp start m.align + m.size) ms

def alignOf (ms : List Member) : ℕ := (ms.map Member.align).foldr max 1

def sizeOf (ms : List Member) : ℕ := alignUp (endFrom 0 ms) (alignOf ms)

def offset (ms : List Member) (k : ℕ) : ℕ := (offsetsFrom 0 ms).getD k 0

theorem le_alignUp (n : ℕ) {align : ℕ} (h : 0 < align) : n ≤ alignUp n align := by
  have hdiv := Nat.div_add_mod (n + align - 1) align
  have hmod := Nat.mod_lt (n + align - 1) h
  rw [alignUp, Nat.mul_comm]
  omega

theorem one_le_alignOf (ms : List Member) : 1 ≤ alignOf ms := by
  induction ms with
  | nil => exact le_refl 1
  | cons m ms ih => exact ih.trans (le_max_right _ _)

section Placement

variable {ms : List Member} (halign : ∀ m ∈ ms, 0 < m.align)

include halign

theorem le_endFrom (start : ℕ) : start ≤ endFrom start ms := by
  induction ms generalizing start with
  | nil => exact le_refl start
  | cons m ms ih =>
      have hle := le_alignUp start (halign m List.mem_cons_self)
      have hrest := ih (fun m' hm' ↦ halign m' (List.mem_cons_of_mem m hm'))
        (alignUp start m.align + m.size)
      rw [endFrom]
      omega

theorem offsetsFrom_within (start k : ℕ) (hk : k < ms.length) :
    start ≤ (offsetsFrom start ms).getD k 0 ∧
      (offsetsFrom start ms).getD k 0 + (ms[k]).size ≤ endFrom start ms := by
  induction ms generalizing start k with
  | nil => exact (Nat.not_lt_zero k hk).elim
  | cons m ms ih =>
      have halign' : ∀ m' ∈ ms, 0 < m'.align := fun m' hm' ↦ halign m' (List.mem_cons_of_mem m hm')
      have hle := le_alignUp start (halign m List.mem_cons_self)
      cases k with
      | zero => exact ⟨hle, le_endFrom halign' _⟩
      | succ k =>
          obtain ⟨hlow, hhigh⟩ := ih halign' (alignUp start m.align + m.size) k
            (Nat.lt_of_succ_lt_succ hk)
          refine ⟨?_, hhigh⟩
          rw [offsetsFrom, List.getD_cons_succ]
          omega

theorem offsetsFrom_ordered (start : ℕ) {j k : ℕ} (hjk : j < k) (hk : k < ms.length) :
    (offsetsFrom start ms).getD j 0 + (ms[j]).size ≤ (offsetsFrom start ms).getD k 0 := by
  induction ms generalizing start j k with
  | nil => exact (Nat.not_lt_zero k hk).elim
  | cons m ms ih =>
      have halign' : ∀ m' ∈ ms, 0 < m'.align := fun m' hm' ↦ halign m' (List.mem_cons_of_mem m hm')
      cases k with
      | zero => exact (Nat.not_lt_zero j hjk).elim
      | succ k =>
          have hk' := Nat.lt_of_succ_lt_succ hk
          rw [offsetsFrom, List.getD_cons_succ]
          cases j with
          | zero => exact (offsetsFrom_within halign' _ k hk').1
          | succ j => exact ih halign' _ (Nat.lt_of_succ_lt_succ hjk) hk'

theorem offset_ordered {j k : ℕ} (hjk : j < k) (hk : k < ms.length) :
    offset ms j + (ms[j]).size ≤ offset ms k := offsetsFrom_ordered halign 0 hjk hk

theorem offset_add_size_le (k : ℕ) (hk : k < ms.length) :
    offset ms k + (ms[k]).size ≤ sizeOf ms :=
  (offsetsFrom_within halign 0 k hk).2.trans (le_alignUp _ (one_le_alignOf ms))

end Placement

end OperatingSystem.CLayout
