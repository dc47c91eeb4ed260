import Mathlib.Data.Nat.Digits.Lemmas
import OperatingSystem.Lib.CStrings

/-!
# Printed numbers

`toString` of `memos-2.c`: a loop of divisions that stores the digits of a number in
`revstr[32]`, the last one first, and a second loop that turns them round.
-/

namespace OperatingSystem.Memos

open ByteMemory

/-! ## The function -/

def digitChar (unit temp : ℕ) : UInt8 :=
  if unit = 10 then UInt8.ofNat (temp + 48)
  else if temp < 10 then UInt8.ofNat (temp + 48)
  else UInt8.ofNat (temp - 10 + 97)

/-- The loop of divisions, in at most `fuel` rounds: `index` and `revstr` behind it. -/
def digitLoop (unit : ℕ) : ℕ → ℕ → ℕ → (ℕ → UInt8) → Option (ℕ × (ℕ → UInt8))
  | 0, _, _, _ => none
  | fuel + 1, data, index, revstr =>
      if data = 0 then some (index, revstr)
      else digitLoop unit fuel (data / unit) (index + 1)
        (Function.update revstr index (digitChar unit (data % unit)))

/-- `toString`: `str` and the static array `revstr` afterwards. -/
def toString (fuel : ℕ) (str revstr : ℕ → UInt8) (data unit : ℕ) :
    Option ((ℕ → UInt8) × (ℕ → UInt8)) :=
  if data = 0 then some (Function.update (Function.update str 0 48) 1 0, revstr)
  else do
    let (index, revstr) ← digitLoop unit fuel data 0 revstr
    let str := (List.range index).foldl
      (fun str i ↦ Function.update str i (revstr (index - i - 1))) str
    some (Function.update str index 0, revstr)

/-! ## Reading a number back -/

/-- The value of a digit, `0` to `9` and then `a` to `z`. -/
def charValue (c : UInt8) : ℕ := if c.toNat < 97 then c.toNat - 48 else c.toNat - 97 + 10

/-- The value of a string of digits, the most significant first. -/
def readNumber (unit : ℕ) (text : List UInt8) : ℕ :=
  text.foldl (fun v c ↦ v * unit + charValue c) 0

def numberText (unit data : ℕ) : List UInt8 :=
  if data = 0 then [48] else ((Nat.digits unit data).map (digitChar unit)).reverse

theorem toNat_digitChar {unit temp : ℕ} (h : temp < unit) (hunit : unit ≤ 36) :
    (digitChar unit temp).toNat = if temp < 10 then temp + 48 else temp - 10 + 97 := by
  have hchar : ∀ n < 256, (UInt8.ofNat n).toNat = n := fun n hn ↦ by
    rw [UInt8.toNat_ofNat', Nat.mod_eq_of_lt hn]
  rw [digitChar]
  by_cases hten : temp < 10
  · rw [if_pos hten, if_pos hten, ite_self, hchar _ (by omega)]
  · rw [if_neg (by omega), if_neg hten, if_neg hten, hchar _ (by omega)]

theorem charValue_digitChar {unit temp : ℕ} (h : temp < unit) (hunit : unit ≤ 36) :
    charValue (digitChar unit temp) = temp := by
  simp only [charValue, toNat_digitChar h hunit]
  by_cases hten : temp < 10
  · rw [if_pos hten, if_pos (by omega)]
    omega
  · rw [if_neg hten, if_neg (by omega)]
    omega

theorem digitChar_eq_zero_iff {unit temp : ℕ} (h : temp < unit) (hunit : unit ≤ 36) :
    digitChar unit temp = 48 ↔ temp = 0 := by
  constructor
  · intro heq
    rw [← charValue_digitChar h hunit, heq]
    rfl
  · rintro rfl
    simp [digitChar]

theorem readNumber_reverse (unit : ℕ) {ds : List ℕ} (h : ∀ d ∈ ds, d < unit) (hunit : unit ≤ 36) :
    readNumber unit (ds.map (digitChar unit)).reverse = Nat.ofDigits unit ds := by
  induction ds with
  | nil => rfl
  | cons d ds ih =>
      have hrest := ih fun x hx ↦ h x (List.mem_cons_of_mem d hx)
      rw [readNumber] at hrest
      rw [readNumber, List.map_cons, List.reverse_cons, List.foldl_append, hrest, List.foldl_cons,
        List.foldl_nil, charValue_digitChar (h d List.mem_cons_self) hunit, Nat.ofDigits_cons]
      ring

theorem readNumber_numberText {unit data : ℕ} (hunit : 2 ≤ unit) (hunit' : unit ≤ 36) :
    readNumber unit (numberText unit data) = data := by
  rw [numberText]
  split
  · next hzero =>
    rw [hzero]
    simp [readNumber, charValue]
  · rw [readNumber_reverse unit (fun d hd ↦ Nat.digits_lt_base hunit hd) hunit',
      Nat.ofDigits_digits]

theorem numberText_inj {unit a b : ℕ} (hunit : 2 ≤ unit) (hunit' : unit ≤ 36)
    (h : numberText unit a = numberText unit b) : a = b := by
  rw [← @readNumber_numberText unit a hunit hunit', h, readNumber_numberText hunit hunit']

theorem length_numberText {unit data k : ℕ} (hunit : 2 ≤ unit) (hk : 0 < k)
    (h : data < unit ^ k) : (numberText unit data).length ≤ k := by
  rw [numberText]
  split
  · exact hk
  · rw [List.length_reverse, List.length_map, Nat.digits_length_le_iff hunit]
    exact h

theorem mem_numberText {unit data : ℕ} (hunit : 2 ≤ unit) (hunit' : unit ≤ 36) {c : UInt8}
    (hc : c ∈ numberText unit data) : ∃ d < unit, c = digitChar unit d := by
  rw [numberText] at hc
  split at hc
  · rw [List.mem_singleton] at hc
    exact ⟨0, by omega, hc.trans ((digitChar_eq_zero_iff (by omega) hunit').mpr rfl).symm⟩
  · obtain ⟨d, hd, rfl⟩ := List.mem_map.mp (List.mem_reverse.mp hc)
    exact ⟨d, Nat.digits_lt_base hunit hd, rfl⟩

theorem head_numberText {unit data : ℕ} (hunit : 2 ≤ unit) (hunit' : unit ≤ 36)
    (h : (numberText unit data).head? = some 48) : numberText unit data = [48] := by
  rw [numberText] at h ⊢
  split
  · rfl
  · next hne =>
    exfalso
    rw [if_neg hne, List.head?_reverse, List.getLast?_map] at h
    obtain ⟨d, hd, hchar⟩ := Option.map_eq_some_iff.mp h
    have hdigits : Nat.digits unit data ≠ [] := Nat.digits_ne_nil_iff_ne_zero.mpr hne
    rw [List.getLast?_eq_some_getLast hdigits] at hd
    cases hd
    have hlt := Nat.digits_lt_base hunit (List.getLast_mem hdigits)
    exact Nat.getLast_digit_ne_zero unit hne ((digitChar_eq_zero_iff hlt hunit').mp hchar)

/-! ## The loops -/

theorem digitLoop_eq {unit : ℕ} (hunit : 2 ≤ unit) {fuel data : ℕ}
    (hfuel : (Nat.digits unit data).length < fuel) (index : ℕ) (revstr : ℕ → UInt8) :
    digitLoop unit fuel data index revstr = some (index + (Nat.digits unit data).length,
      writeBytes revstr index ((Nat.digits unit data).map (digitChar unit))) := by
  induction fuel generalizing data index revstr with
  | zero => cases hfuel
  | succ fuel ih =>
      rw [digitLoop]
      split
      · next hzero =>
        rw [hzero, Nat.digits_zero, List.map_nil, writeBytes_nil]
        rfl
      · next hne =>
        have hdigits := Nat.digits_def' hunit (Nat.pos_of_ne_zero hne)
        rw [hdigits, List.length_cons] at hfuel
        rw [ih (Nat.lt_of_succ_lt_succ hfuel), hdigits, List.map_cons, writeBytes_cons,
          List.length_cons, Nat.add_assoc, Nat.add_comm 1]

theorem reverseLoop_eq {revstr str : ℕ → UInt8} (index n : ℕ) (hn : n ≤ index) :
    (List.range n).foldl (fun str i ↦ Function.update str i (revstr (index - i - 1))) str =
      writeBytes str 0 ((readBytes revstr 0 index).reverse.take n) := by
  induction n with
  | zero => rw [List.take_zero, writeBytes_nil]; rfl
  | succ n ih =>
      have hlength : n < (readBytes revstr 0 index).reverse.length := by simp; omega
      have hnext : (readBytes revstr 0 index).reverse[n] = revstr (index - n - 1) := by
        rw [List.getElem_reverse]
        simp [readBytes]
        congr 1
        omega
      rw [List.range_succ, List.foldl_append, ih (by omega), List.foldl_cons, List.foldl_nil,
        List.take_succ_eq_append_getElem hlength, writeBytes_append, hnext, writeBytes_cons,
        writeBytes_nil, List.length_take, Nat.min_eq_left hlength.le, Nat.zero_add]

/-- The string that the function leaves, and the parts of the two arrays that it does not
write. -/
structure Prints (unit data : ℕ) (str revstr str' revstr' : ℕ → UInt8) : Prop where
  text : StringAt str' 0 (numberText unit data)
  revstr_kept : ∀ i, 32 ≤ i → revstr' i = revstr i
  str_kept : ∀ i, 33 ≤ i → str' i = str i

theorem noNul_numberText {unit data : ℕ} (hunit : 2 ≤ unit) (hunit' : unit ≤ 36) :
    (0 : UInt8) ∉ numberText unit data := by
  intro hmem
  obtain ⟨d, hd, hzero⟩ := mem_numberText hunit hunit' hmem
  have hchar := toNat_digitChar hd hunit'
  rw [← hzero, UInt8.toNat_zero] at hchar
  split at hchar <;> omega

theorem toString_prints {fuel data unit : ℕ} (str revstr : ℕ → UInt8) (hdata : data < 2 ^ 32)
    (hunit : 2 ≤ unit) (hunit' : unit ≤ 36) (hfuel : 32 < fuel) : ∃ str' revstr',
    toString fuel str revstr data unit = some (str', revstr') ∧
      Prints unit data str revstr str' revstr' := by
  have hnul := @noNul_numberText unit data hunit hunit'
  by_cases hzero : data = 0
  · refine ⟨_, _, if_pos hzero, ⟨?_, fun i _ ↦ rfl, fun i hi ↦ ?_⟩⟩
    · rw [numberText, if_pos hzero]
      exact ⟨by decide, rfl⟩
    · rw [Function.update_of_ne (by omega), Function.update_of_ne (by omega)]
  · have hlength : (Nat.digits unit data).length ≤ 32 := by
      rw [Nat.digits_length_le_iff hunit]
      exact hdata.trans_le (Nat.pow_le_pow_left hunit 32)
    have hloop := digitLoop_eq hunit (hlength.trans_lt hfuel) 0 revstr
    have hread : readBytes (writeBytes revstr 0 ((Nat.digits unit data).map (digitChar unit))) 0
        (Nat.digits unit data).length = (Nat.digits unit data).map (digitChar unit) := by
      have hsame := readBytes_writeBytes revstr 0 ((Nat.digits unit data).map (digitChar unit))
      rwa [List.length_map] at hsame
    have htext : numberText unit data =
        ((Nat.digits unit data).map (digitChar unit)).reverse := if_neg hzero
    have hsize : (numberText unit data).length = (Nat.digits unit data).length := by
      rw [htext, List.length_reverse, List.length_map]
    have hreverse := @reverseLoop_eq
      (writeBytes revstr 0 ((Nat.digits unit data).map (digitChar unit))) str _ _ (le_refl
        (Nat.digits unit data).length)
    rw [hread, ← htext, List.take_of_length_le hsize.le] at hreverse
    have hrun : toString fuel str revstr data unit =
        some (Function.update (writeBytes str 0 (numberText unit data))
          (Nat.digits unit data).length 0,
          writeBytes revstr 0 ((Nat.digits unit data).map (digitChar unit))) := by
      rw [toString, if_neg hzero, hloop, Option.bind_eq_bind, Option.bind_some, Nat.zero_add]
      dsimp only
      rw [hreverse]
    refine ⟨_, _, hrun, ⟨?_, fun i hi ↦ ?_, fun i hi ↦ ?_⟩⟩
    · rw [← hsize]
      refine .of_bytes hnul ?_ ?_
      · have hbytes := readBytes_writeBytes str 0 (numberText unit data)
        refine (readBytes_congr fun k hk ↦ ?_).trans hbytes
        exact Function.update_of_ne (by omega) _ _
      · rw [Nat.zero_add, Function.update_self]
    · exact writeBytes_of_ge (by rw [List.length_map]; omega)
    · rw [Function.update_of_ne (by omega)]
      exact writeBytes_of_ge (by omega)

/-- Every 32-bit number is printed in every base from 2 to 36 within the two arrays, and its
text gives it back. -/
theorem toString_roundTrip {fuel data unit : ℕ} (str revstr : ℕ → UInt8) (hdata : data < 2 ^ 32)
    (hunit : 2 ≤ unit) (hunit' : unit ≤ 36) (hfuel : 32 < fuel) :
    (∃ str' revstr', toString fuel str revstr data unit = some (str', revstr') ∧
      Prints unit data str revstr str' revstr') ∧
    (∀ c ∈ numberText unit data, ∃ d < unit, c = digitChar unit d) ∧
    ((numberText unit data).head? = some 48 → numberText unit data = [48]) ∧
    readNumber unit (numberText unit data) = data ∧
    (∀ other, numberText unit other = numberText unit data → other = data) ∧
    (unit = 10 → (numberText unit data).length ≤ 10) ∧
    (unit = 16 → (numberText unit data).length ≤ 8) := by
  refine ⟨toString_prints str revstr hdata hunit hunit' hfuel,
    fun c ↦ mem_numberText hunit hunit', head_numberText hunit hunit',
    readNumber_numberText hunit hunit', fun other ↦ numberText_inj hunit hunit', ?_, ?_⟩
  · rintro rfl
    exact length_numberText hunit (by omega) (hdata.trans (by norm_num))
  · rintro rfl
    exact length_numberText hunit (by omega) (hdata.trans_le (by norm_num))

/-- The largest number in base 2 fills `revstr`. -/
theorem toString_roundTrip_largest :
    (∃ str' revstr', toString 33 (fun _ ↦ 0) (fun _ ↦ 0) 4294967295 2 = some (str', revstr') ∧
      Prints 2 4294967295 (fun _ ↦ 0) (fun _ ↦ 0) str' revstr') ∧
    (∀ c ∈ numberText 2 4294967295, ∃ d < 2, c = digitChar 2 d) ∧
    ((numberText 2 4294967295).head? = some 48 → numberText 2 4294967295 = [48]) ∧
    readNumber 2 (numberText 2 4294967295) = 4294967295 ∧
    (∀ other, numberText 2 other = numberText 2 4294967295 → other = 4294967295) ∧
    (2 = 10 → (numberText 2 4294967295).length ≤ 10) ∧
    (2 = 16 → (numberText 2 4294967295).length ≤ 8) :=
  toString_roundTrip (fun _ ↦ 0) (fun _ ↦ 0) (by decide) (by decide) (by decide) (by decide)

end OperatingSystem.Memos
