import Mathlib.Tactic

/-!
# Byte-addressed memory

A memory is a function from addresses to bytes. Writing a list of bytes and
reading a number of bytes are the only primitives; little-endian words of any
width are byte lists with a numeric value.
-/

namespace OperatingSystem.ByteMemory

/-- The bytes at `a, a + 1, …, a + n - 1`. -/
def readBytes (m : ℕ → UInt8) (a n : ℕ) : List UInt8 :=
  (List.range n).map fun k ↦ m (a + k)

/-- Replace the bytes at `a, a + 1, …` by the given list. -/
def writeBytes (m : ℕ → UInt8) (a : ℕ) (bs : List UInt8) : ℕ → UInt8 :=
  fun x ↦ if a ≤ x then (bs[x - a]?).getD (m x) else m x

/-- Little-endian value of a byte list. -/
def leValue : List UInt8 → ℕ
  | [] => 0
  | b :: bs => b.toNat + 256 * leValue bs

/-- The `k` little-endian bytes of a number. -/
def leBytes : ℕ → ℕ → List UInt8
  | 0, _ => []
  | k + 1, v => UInt8.ofNat v :: leBytes k (v / 256)

@[simp] theorem length_readBytes (m : ℕ → UInt8) (a n : ℕ) :
    (readBytes m a n).length = n := by simp [readBytes]

@[simp] theorem length_leBytes (k v : ℕ) : (leBytes k v).length = k := by
  induction k generalizing v with
  | zero => rfl
  | succ k ih => simp [leBytes, ih]

theorem leValue_leBytes (k v : ℕ) : leValue (leBytes k v) = v % 256 ^ k := by
  induction k generalizing v with
  | zero => simp [leBytes, leValue, Nat.mod_one]
  | succ k ih =>
      have hb : (UInt8.ofNat v).toNat = v % 256 := by simp
      rw [leBytes, leValue, ih, hb, pow_succ, Nat.mul_comm (256 ^ k), Nat.mod_mul]

/-- The low bytes of a number are the bytes of its low part. -/
theorem leValue_take_leBytes {j k : ℕ} (h : j ≤ k) (v : ℕ) :
    leValue ((leBytes k v).take j) = v % 256 ^ j := by
  induction j generalizing k v with
  | zero => rw [List.take_zero, pow_zero, Nat.mod_one, leValue]
  | succ j ih =>
      obtain ⟨k, rfl⟩ := Nat.exists_eq_add_of_le' h
      have hbyte : (UInt8.ofNat v).toNat = v % 256 := by simp
      rw [← Nat.add_assoc, leBytes, List.take_succ_cons, leValue, ih (Nat.le_add_left j k), hbyte,
        pow_succ, Nat.mul_comm (256 ^ j), Nat.mod_mul]

theorem leValue_leBytes_of_lt {k v : ℕ} (h : v < 256 ^ k) :
    leValue (leBytes k v) = v := by
  rw [leValue_leBytes, Nat.mod_eq_of_lt h]

theorem leValue_lt (bs : List UInt8) : leValue bs < 256 ^ bs.length := by
  induction bs with
  | nil => simp [leValue]
  | cons b bs ih =>
      have hb := b.toNat_lt
      rw [leValue, List.length_cons, pow_succ]
      omega

@[simp] theorem writeBytes_nil (m : ℕ → UInt8) (a : ℕ) : writeBytes m a [] = m := by
  funext x
  simp [writeBytes]

theorem writeBytes_of_lt {m : ℕ → UInt8} {a x : ℕ} {bs : List UInt8} (h : x < a) :
    writeBytes m a bs x = m x := by
  simp [writeBytes, Nat.not_le.mpr h]

theorem writeBytes_of_ge {m : ℕ → UInt8} {a x : ℕ} {bs : List UInt8}
    (h : a + bs.length ≤ x) : writeBytes m a bs x = m x := by
  have hx : bs.length ≤ x - a := by omega
  simp [writeBytes, List.getElem?_eq_none hx]

theorem writeBytes_add {m : ℕ → UInt8} {a k : ℕ} {bs : List UInt8} (h : k < bs.length) :
    writeBytes m a bs (a + k) = bs[k] := by
  simp [writeBytes, h]

theorem writeBytes_of_disjoint {m : ℕ → UInt8} {a x : ℕ} {bs : List UInt8}
    (h : x < a ∨ a + bs.length ≤ x) : writeBytes m a bs x = m x :=
  h.elim writeBytes_of_lt writeBytes_of_ge

theorem writeBytes_cons (m : ℕ → UInt8) (a : ℕ) (b : UInt8) (bs : List UInt8) :
    writeBytes m a (b :: bs) = writeBytes (Function.update m a b) (a + 1) bs := by
  funext x
  rcases Nat.lt_trichotomy x a with h | h | h
  · rw [writeBytes_of_lt h, writeBytes_of_lt (by omega),
      Function.update_of_ne (by omega)]
  · subst h
    rw [writeBytes_of_lt (Nat.lt_succ_self x), Function.update_self]
    simp [writeBytes]
  · obtain ⟨k, rfl⟩ := Nat.exists_eq_add_of_lt h
    have hk : a + k + 1 - a = k + 1 := by omega
    have hk' : a + k + 1 - (a + 1) = k := by omega
    have hle : a ≤ a + k + 1 := by omega
    have hle' : a + 1 ≤ a + k + 1 := by omega
    simp only [writeBytes, hk, hk', hle, hle', if_true, List.getElem?_cons_succ]
    rw [Function.update_of_ne (by omega)]

theorem writeBytes_append (m : ℕ → UInt8) (a : ℕ) (bs cs : List UInt8) :
    writeBytes m a (bs ++ cs) = writeBytes (writeBytes m a bs) (a + bs.length) cs := by
  induction bs generalizing m a with
  | nil => simp
  | cons b bs ih =>
      rw [List.cons_append, writeBytes_cons, ih, writeBytes_cons, List.length_cons]
      congr 1
      omega

theorem writeBytes_comm (m : ℕ → UInt8) {a c : ℕ} {bs cs : List UInt8}
    (h : a + bs.length ≤ c ∨ c + cs.length ≤ a) :
    writeBytes (writeBytes m a bs) c cs = writeBytes (writeBytes m c cs) a bs := by
  funext x
  by_cases hbs : a ≤ x ∧ x < a + bs.length
  · obtain ⟨k, rfl⟩ := Nat.exists_eq_add_of_le hbs.1
    have hk : k < bs.length := by omega
    rw [writeBytes_add hk, writeBytes_of_disjoint (by omega), writeBytes_add hk]
  · by_cases hcs : c ≤ x ∧ x < c + cs.length
    · obtain ⟨k, rfl⟩ := Nat.exists_eq_add_of_le hcs.1
      have hk : k < cs.length := by omega
      rw [writeBytes_add hk, writeBytes_of_disjoint (by omega), writeBytes_add hk]
    · rw [writeBytes_of_disjoint (by omega), writeBytes_of_disjoint (by omega),
        writeBytes_of_disjoint (by omega), writeBytes_of_disjoint (by omega)]

theorem readBytes_congr {m m' : ℕ → UInt8} {a n : ℕ}
    (h : ∀ k < n, m (a + k) = m' (a + k)) : readBytes m a n = readBytes m' a n := by
  apply List.map_congr_left
  intro k hk
  exact h k (List.mem_range.mp hk)

theorem readBytes_add (m : ℕ → UInt8) (a n k : ℕ) :
    readBytes m a (n + k) = readBytes m a n ++ readBytes m (a + n) k := by
  simp only [readBytes, List.range_add, List.map_append, List.map_map]
  congr 2
  funext x
  simp [Nat.add_assoc]

theorem take_readBytes (m : ℕ → UInt8) (a : ℕ) {n k : ℕ} (h : k ≤ n) :
    (readBytes m a n).take k = readBytes m a k := by
  obtain ⟨l, rfl⟩ := Nat.exists_eq_add_of_le h
  rw [readBytes_add, List.take_left' (length_readBytes ..)]

theorem drop_readBytes (m : ℕ → UInt8) (a : ℕ) {n k : ℕ} (h : k ≤ n) :
    (readBytes m a n).drop k = readBytes m (a + k) (n - k) := by
  obtain ⟨l, rfl⟩ := Nat.exists_eq_add_of_le h
  rw [readBytes_add, List.drop_left' (length_readBytes ..), Nat.add_sub_cancel_left]

theorem readBytes_writeBytes (m : ℕ → UInt8) (a : ℕ) (bs : List UInt8) :
    readBytes (writeBytes m a bs) a bs.length = bs := by
  apply List.ext_getElem
  · simp
  · intro k h₁ h₂
    simp [readBytes, writeBytes_add h₂]

theorem writeBytes_same {m : ℕ → UInt8} {a : ℕ} {bs : List UInt8}
    (h : readBytes m a bs.length = bs) : writeBytes m a bs = m := by
  funext x
  rcases Nat.lt_or_ge x a with hlow | hlow
  · exact writeBytes_of_lt hlow
  · rcases Nat.lt_or_ge x (a + bs.length) with hin | hhigh
    · obtain ⟨k, rfl⟩ := Nat.exists_eq_add_of_le hlow
      have hk : k < bs.length := by omega
      rw [writeBytes_add hk]
      have hget : (readBytes m a bs.length)[k]? = bs[k]? := by rw [h]
      simpa [readBytes, hk] using hget.symm
    · exact writeBytes_of_ge hhigh

theorem readBytes_writeBytes_of_disjoint {m : ℕ → UInt8} {a c n : ℕ} {bs : List UInt8}
    (h : c + n ≤ a ∨ a + bs.length ≤ c) :
    readBytes (writeBytes m a bs) c n = readBytes m c n := by
  apply readBytes_congr
  intro k hk
  exact writeBytes_of_disjoint (by omega)

theorem readBytes_succ (m : ℕ → UInt8) (a n : ℕ) :
    readBytes m a (n + 1) = m a :: readBytes m (a + 1) n := by
  rw [Nat.add_comm, readBytes_add]
  rfl

theorem readBytes_writeBytes_slice (m : ℕ → UInt8) (a : ℕ) (as bs cs : List UInt8) :
    readBytes (writeBytes m a (as ++ bs ++ cs)) (a + as.length) bs.length = bs := by
  rw [writeBytes_append, readBytes_writeBytes_of_disjoint, writeBytes_append,
    readBytes_writeBytes]
  left
  rw [List.length_append]
  omega

/-! ## NUL-terminated strings -/

structure StringAt (m : ℕ → UInt8) (a : ℕ) (cs : List UInt8) : Prop where
  noNul : (0 : UInt8) ∉ cs
  bytes : readBytes m a (cs.length + 1) = cs ++ [0]

theorem stringAt_nil {m : ℕ → UInt8} {a : ℕ} : StringAt m a [] ↔ m a = 0 := by
  constructor
  · intro h
    simpa [readBytes] using h.bytes
  · intro h
    exact ⟨by simp, by simp [readBytes, h]⟩

theorem stringAt_cons {m : ℕ → UInt8} {a : ℕ} {c : UInt8} {cs : List UInt8} :
    StringAt m a (c :: cs) ↔ c ≠ 0 ∧ m a = c ∧ StringAt m (a + 1) cs := by
  constructor
  · intro h
    have hbytes := h.bytes
    have hnul := h.noNul
    rw [List.length_cons, readBytes_succ, List.cons_append, List.cons.injEq] at hbytes
    rw [List.mem_cons, not_or] at hnul
    exact ⟨Ne.symm hnul.1, hbytes.1, hnul.2, hbytes.2⟩
  · rintro ⟨hne, hbyte, hrest⟩
    refine ⟨?_, ?_⟩
    · rw [List.mem_cons, not_or]
      exact ⟨Ne.symm hne, hrest.noNul⟩
    · rw [List.length_cons, readBytes_succ, hbyte, hrest.bytes, List.cons_append]

theorem StringAt.unique {m : ℕ → UInt8} {a : ℕ} {cs ds : List UInt8} (h : StringAt m a cs)
    (g : StringAt m a ds) : cs = ds := by
  induction cs generalizing a ds with
  | nil =>
      cases ds with
      | nil => rfl
      | cons d ds =>
          obtain ⟨hne, hbyte, -⟩ := stringAt_cons.mp g
          exact (hne (hbyte ▸ stringAt_nil.mp h)).elim
  | cons c cs ih =>
      obtain ⟨hne, hbyte, hrest⟩ := stringAt_cons.mp h
      cases ds with
      | nil => exact (hne (hbyte ▸ stringAt_nil.mp g)).elim
      | cons d ds =>
          obtain ⟨-, hbyte', hrest'⟩ := stringAt_cons.mp g
          rw [ih hrest hrest', hbyte.symm.trans hbyte']

theorem StringAt.congr {m m' : ℕ → UInt8} {a : ℕ} {cs : List UInt8} (h : StringAt m a cs)
    (heq : ∀ k < cs.length + 1, m (a + k) = m' (a + k)) : StringAt m' a cs :=
  ⟨h.noNul, (readBytes_congr heq).symm.trans h.bytes⟩

theorem stringAt_writeBytes (m : ℕ → UInt8) (a : ℕ) {cs : List UInt8} (rest : List UInt8)
    (h : (0 : UInt8) ∉ cs) : StringAt (writeBytes m a (cs ++ [0] ++ rest)) a cs := by
  refine ⟨h, ?_⟩
  have hread := readBytes_writeBytes_slice m a [] (cs ++ [0]) rest
  simpa using hread

end OperatingSystem.ByteMemory
