import OperatingSystem.Lib.ByteMemory

/-!
# C strings in byte memory

The string functions of C that scan memory for a NUL or compare it with fixed
characters, and what they return where a string lies.
-/

namespace OperatingSystem.ByteMemory

/-- `strlen`, on memory with a NUL among the first `fuel` bytes. -/
def strlen (m : ℕ → UInt8) : ℕ → ℕ → Option ℕ
  | 0, _ => none
  | fuel + 1, p => if m p = 0 then some 0 else (strlen m fuel (p + 1)).map (· + 1)

def chars (s : String) : List UInt8 := s.toList.map fun c ↦ UInt8.ofNat c.toNat

/-- The bytes at `p` begin with the characters of `pre`; the test ends at the first
difference. -/
def startsWith (m : ℕ → UInt8) : ℕ → List UInt8 → Bool
  | _, [] => true
  | p, c :: pre => m p = c && startsWith m (p + 1) pre

/-- `strcpy`, of a string with a NUL among its first `fuel` bytes. It is undefined for a
copy that overlaps the string. -/
def strcpy (fuel : ℕ) (m : ℕ → UInt8) (dst src : ℕ) : Option (ℕ → UInt8) := do
  let n ← strlen m fuel src
  if dst + n < src ∨ src + n < dst then some (writeBytes m dst (readBytes m src (n + 1)))
  else none

variable {m : ℕ → UInt8} {p : ℕ} {s : List UInt8}

theorem StringAt.drop (h : StringAt m p s) {n : ℕ} (hn : n ≤ s.length) :
    StringAt m (p + n) (s.drop n) := by
  induction n generalizing p s with
  | zero => exact h
  | succ n ih =>
      cases s with
      | nil => cases hn
      | cons c s =>
          obtain ⟨-, -, hrest⟩ := stringAt_cons.mp h
          have hdrop := ih hrest (Nat.le_of_succ_le_succ hn)
          rw [Nat.add_assoc, Nat.add_comm 1 n] at hdrop
          exact hdrop

theorem strlen_eq (h : StringAt m p s) {fuel : ℕ} (hfuel : s.length < fuel) :
    strlen m fuel p = some s.length := by
  induction s generalizing p fuel with
  | nil =>
      cases fuel with
      | zero => cases hfuel
      | succ fuel => exact if_pos (stringAt_nil.mp h)
  | cons c s ih =>
      cases fuel with
      | zero => cases hfuel
      | succ fuel =>
          obtain ⟨hne, hbyte, hrest⟩ := stringAt_cons.mp h
          have hnonzero : m p ≠ 0 := hbyte.symm ▸ hne
          rw [strlen, if_neg hnonzero, ih hrest (Nat.lt_of_succ_lt_succ hfuel)]
          rfl

theorem startsWith_eq (h : StringAt m p s) (pre : List UInt8) (hpre : (0 : UInt8) ∉ pre) :
    startsWith m p pre = pre.isPrefixOf s := by
  induction pre generalizing p s with
  | nil => rfl
  | cons c pre ih =>
      rw [List.mem_cons, not_or] at hpre
      cases s with
      | nil =>
          have hne : m p ≠ c := by
            rw [stringAt_nil.mp h]
            exact hpre.1
          simp [startsWith, hne]
      | cons d s =>
          obtain ⟨-, hbyte, hrest⟩ := stringAt_cons.mp h
          rw [startsWith, ih hrest hpre.2, hbyte, List.isPrefixOf_cons_cons, Bool.beq_comm]
          rfl

theorem StringAt.getElem (h : StringAt m p s) {k : ℕ} (hk : k < s.length) : m (p + k) = s[k] := by
  have hbytes : (readBytes m p (s.length + 1))[k]? = (s ++ [0])[k]? := by rw [h.bytes]
  rw [List.getElem?_append_left hk, List.getElem?_eq_getElem hk,
    List.getElem?_eq_getElem (by simp; omega)] at hbytes
  simpa [readBytes] using hbytes

theorem StringAt.nul (h : StringAt m p s) : m (p + s.length) = 0 := by
  have hend := h.drop (le_refl s.length)
  rw [List.drop_length] at hend
  exact stringAt_nil.mp hend

theorem stringAt_of_strlen {fuel n : ℕ} (h : strlen m fuel p = some n) :
    StringAt m p (readBytes m p n) := by
  induction fuel generalizing p n with
  | zero => cases h
  | succ fuel ih =>
      rw [strlen] at h
      split at h
      · next hnul =>
        cases h
        exact stringAt_nil.mpr hnul
      · next hne =>
        obtain ⟨n, hn, rfl⟩ := Option.map_eq_some_iff.mp h
        rw [readBytes_succ]
        exact stringAt_cons.mpr ⟨hne, rfl, ih hn⟩

section Copies

variable {fuel dst src : ℕ}

theorem strcpy_eq (h : StringAt m src s) (hfuel : s.length < fuel) : strcpy fuel m dst src =
    if dst + s.length < src ∨ src + s.length < dst then some (writeBytes m dst (s ++ [0]))
    else none := by
  rw [strcpy, strlen_eq h hfuel, Option.bind_eq_bind, Option.bind_some, h.bytes]

theorem stringAt_copy (h : StringAt m src s) : StringAt (writeBytes m dst (s ++ [0])) dst s := by
  have hcopy := stringAt_writeBytes m dst [] h.noNul
  rwa [List.append_nil] at hcopy

theorem strcpy_eq_some {m' : ℕ → UInt8} (h : strcpy fuel m dst src = some m') :
    ∃ n, StringAt m src (readBytes m src n) ∧ ∀ k ≤ n, m' (dst + k) = m (src + k) := by
  obtain ⟨n, hn, h⟩ := Option.bind_eq_some_iff.mp h
  refine ⟨n, stringAt_of_strlen hn, fun k hk ↦ ?_⟩
  split at h
  · cases h
    rw [writeBytes_add (by rw [length_readBytes]; omega)]
    simp [readBytes]
  · cases h

end Copies

theorem StringAt.readBytes_eq (h : StringAt m p s) : readBytes m p s.length = s := by
  rw [← take_readBytes m p (Nat.le_succ s.length), h.bytes, List.take_left]

theorem StringAt.of_bytes (hnul : (0 : UInt8) ∉ s) (hbytes : readBytes m p s.length = s)
    (hend : m (p + s.length) = 0) : StringAt m p s := by
  refine ⟨hnul, ?_⟩
  rw [readBytes_add, hbytes]
  simp [readBytes, hend]

end OperatingSystem.ByteMemory
