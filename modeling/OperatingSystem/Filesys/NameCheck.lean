import Mathlib.Data.List.DropRight
import OperatingSystem.Filesys.Data
import OperatingSystem.Lib.CStrings

/-!
# Checking a name

`check_pathname` of `user_interface.h`, which the user-level functions call on every
pathname: it rejects names that begin with an unexpected character and trims blanks
in place. The loop at the end walks back to the last character of the accepted class
and cuts the string at every blank on its way.
-/

namespace OperatingSystem.Filesys

open ByteMemory

/-! ## The function -/

/-- `'.'`, `'/'`, a digit or a letter. The characters from 128 on are outside of all
three ranges, whether `char` is signed or not. -/
def IsNameChar (c : UInt8) : Prop := (46 ≤ c ∧ c ≤ 57) ∨ (65 ≤ c ∧ c ≤ 90) ∨ (97 ≤ c ∧ c ≤ 122)

instance (c : UInt8) : Decidable (IsNameChar c) := inferInstanceAs (Decidable (_ ∨ _))

/-- `for (p = pathname; *p == ' '; p++)`. -/
def skipBlanks (m : ℕ → UInt8) : ℕ → ℕ → Option ℕ
  | 0, _ => none
  | fuel + 1, p => if m p = 32 then skipBlanks m fuel (p + 1) else some p

/-- The last loop from `p = pathname + n` on. -/
def cutBlanks (pathname : ℕ) : ℕ → (ℕ → UInt8) → ℕ → UInt8
  | 0, m => m
  | n + 1, m =>
      let m :=
        if m (pathname + (n + 1)) = 32 then Function.update m (pathname + (n + 1)) 0 else m
      if IsNameChar (m (pathname + (n + 1))) then m else cutBlanks pathname n m

/-- The return value and the memory afterwards. -/
def checkPathname (fuel : ℕ) (m : ℕ → UInt8) (pathname : ℕ) : Option (ℤ × (ℕ → UInt8)) := do
  let p ← skipBlanks m fuel pathname
  if m p = 0 then some (ERROR, m)
  else if ¬ IsNameChar (m p) then some (ERROR, m)
  else if m p = 46 ∧ ((m (p + 1) ≠ 46 ∧ m (p + 1) ≠ 47) ∨ (m (p + 1) = 46 ∧ m (p + 2) ≠ 47)) then
    some (ERROR, m)
  else do
    let m ← if p ≠ pathname then strcpy fuel m pathname p else some m
    let n ← strlen m fuel pathname
    some (SUCCESS, cutBlanks pathname n m)

/-- The name behind the blanks does not overlap its copy at the beginning: there are no
blanks in front of it, or more of them than other characters. -/
def CopiesApart (s : List UInt8) : Prop :=
  s.dropWhile (· = 32) = s ∨ 2 * (s.dropWhile (· = 32)).length < s.length

instance (s : List UInt8) : Decidable (CopiesApart s) := inferInstanceAs (Decidable (_ ∨ _))

/-! ## What it is for -/

/-- The string without its leading and trailing blanks. -/
def trimBlanks (s : List UInt8) : List UInt8 :=
  (s.dropWhile (· = 32)).rdropWhile (· = 32)

/-- A rejected string is unchanged, an accepted one is trimmed, and a second check
accepts the result and changes nothing. -/
def OnlyTrims (fuel : ℕ) (m : ℕ → UInt8) (pathname : ℕ) (s : List UInt8) : Prop :=
  ∃ ret m', checkPathname fuel m pathname = some (ret, m') ∧
    (ret = ERROR → StringAt m' pathname s) ∧
    (ret = SUCCESS → StringAt m' pathname (trimBlanks s) ∧
      checkPathname fuel m' pathname = some (SUCCESS, m'))

/-- The characters with which an accepted name begins: none but `"./"` and `"../"` after
a dot. -/
def BeginsName : List UInt8 → Prop
  | [] => False
  | c :: rest => IsNameChar c ∧ (c = 46 → [47].isPrefixOf rest ∨ [46, 47].isPrefixOf rest)

/-- The characters behind the last letter, digit, `'.'` or `'/'`. -/
def nameTail (t : List UInt8) : List UInt8 := t.rtakeWhile fun c ↦ ¬ IsNameChar c

section Lemmas

variable {m : ℕ → UInt8} {pathname p fuel : ℕ} {s t : List UInt8}

/-! ## The first character -/

theorem skipBlanks_spec (h : StringAt m p s) (hfuel : s.length < fuel) :
    ∃ k, skipBlanks m fuel p = some (p + k) ∧ StringAt m (p + k) (s.dropWhile (· = 32)) ∧
      k + (s.dropWhile (· = 32)).length = s.length := by
  induction s generalizing p fuel with
  | nil =>
      cases fuel with
      | zero => cases hfuel
      | succ fuel =>
          have hbyte : m p ≠ 32 := by
            rw [stringAt_nil.mp h]
            decide
          exact ⟨0, if_neg hbyte, h, rfl⟩
  | cons c s ih =>
      cases fuel with
      | zero => cases hfuel
      | succ fuel =>
          obtain ⟨-, hbyte, hrest⟩ := stringAt_cons.mp h
          by_cases hc : c = 32
          · subst hc
            obtain ⟨k, hskip, hstring, hlength⟩ := ih hrest (Nat.lt_of_succ_lt_succ hfuel)
            have hdrop : (32 :: s).dropWhile (· = 32) = s.dropWhile (· = 32) := rfl
            rw [Nat.add_assoc, Nat.add_comm 1] at hskip hstring
            refine ⟨k + 1, (if_pos hbyte).trans hskip, hdrop ▸ hstring, ?_⟩
            rw [hdrop, List.length_cons, ← hlength]
            omega
          · have hdrop : (c :: s).dropWhile (· = 32) = c :: s := by
              rw [List.dropWhile_cons_of_neg]
              simpa using hc
            rw [hdrop]
            exact ⟨0, if_neg (hbyte ▸ hc), h, Nat.zero_add _⟩

theorem beginsName_iff (h : StringAt m p t) : BeginsName t ↔ m p ≠ 0 ∧ IsNameChar (m p) ∧
    ¬ (m p = 46 ∧ ((m (p + 1) ≠ 46 ∧ m (p + 1) ≠ 47) ∨ (m (p + 1) = 46 ∧ m (p + 2) ≠ 47))) := by
  cases t with
  | nil => exact iff_of_false id fun hname ↦ hname.1 (stringAt_nil.mp h)
  | cons c rest =>
      obtain ⟨hne, hbyte, hrest⟩ := stringAt_cons.mp h
      have hslash := startsWith_eq hrest [47] (by decide)
      have hdots := startsWith_eq hrest [46, 47] (by decide)
      rw [BeginsName, ← hslash, ← hdots, hbyte]
      simp only [startsWith, Bool.and_true, decide_eq_true_eq, Bool.and_eq_true, Nat.add_assoc]
      rw [and_iff_right hne]
      refine and_congr_right fun _ ↦ ?_
      have hother : m (p + 1) = 47 → m (p + 1) ≠ 46 := by
        intro h₁ h₂
        rw [h₁] at h₂
        exact absurd h₂ (by decide)
      tauto

/-! ## The last loop -/

/-- It replaces the blanks between `k` and `n`, where `k` is the place of the last
accepted character or the first one of the name. -/
theorem cutBlanks_eq {k n : ℕ} (hstop : k = 0 ∨ IsNameChar (m (pathname + k))) (hk : k ≤ n)
    (hpass : ∀ i, k < i → i ≤ n → ¬ IsNameChar (m (pathname + i))) (q : ℕ) :
    cutBlanks pathname n m q =
      if pathname + k < q ∧ q ≤ pathname + n ∧ m q = 32 then 0 else m q := by
  have hblank : ¬ IsNameChar 32 := by decide
  induction n generalizing m with
  | zero => exact (if_neg fun h ↦ by omega).symm
  | succ n ih =>
      rcases Nat.lt_or_ge k (n + 1) with hlt | hge
      · have hother : ∀ i ≤ n, (if m (pathname + (n + 1)) = 32 then
            Function.update m (pathname + (n + 1)) 0 else m) (pathname + i) = m (pathname + i) := by
          intro i hi
          split
          · exact Function.update_of_ne (by omega) _ _
          · rfl
        have hnone : ¬ IsNameChar ((if m (pathname + (n + 1)) = 32 then
            Function.update m (pathname + (n + 1)) 0 else m) (pathname + (n + 1))) := by
          split
          · rw [Function.update_self]
            decide
          · exact hpass (n + 1) hlt (le_refl _)
        rw [cutBlanks, if_neg hnone, ih ?_ (Nat.lt_succ_iff.mp hlt) ?_]
        · rcases eq_or_ne q (pathname + (n + 1)) with rfl | hq
          · rw [if_neg fun h ↦ by omega]
            by_cases hcut : m (pathname + (n + 1)) = 32
            · rw [if_pos hcut, Function.update_self, if_pos ⟨by omega, le_refl _, hcut⟩]
            · rw [if_neg hcut, if_neg fun h ↦ hcut h.2.2]
          · have hsame : (if m (pathname + (n + 1)) = 32 then
                Function.update m (pathname + (n + 1)) 0 else m) q = m q := by
              split
              · exact Function.update_of_ne hq _ _
              · rfl
            have hrange : q ≤ pathname + n ↔ q ≤ pathname + (n + 1) := by omega
            simp only [hsame, hrange]
        · exact hstop.imp_right fun hname ↦ (hother k (Nat.lt_succ_iff.mp hlt)).symm ▸ hname
        · intro i hi hle
          rw [hother i hle]
          exact hpass i hi (Nat.le_succ_of_le hle)
      · -- the loop stops at once
        obtain rfl : k = n + 1 := le_antisymm hk hge
        have hname := hstop.resolve_left (Nat.succ_ne_zero n)
        have hkept : m (pathname + (n + 1)) ≠ 32 := fun heq ↦ hblank (heq ▸ hname)
        rw [cutBlanks, if_neg hkept, if_pos hname, if_neg fun h ↦ by omega]

section Cut

variable {u v : List UInt8} {c : UInt8}

theorem stringAt_behind (h : StringAt m pathname (u ++ c :: v)) :
    m (pathname + u.length) = c ∧ StringAt m (pathname + (u.length + 1)) v := by
  have hdrop := h.drop (show u.length ≤ _ by simp)
  rw [List.drop_left] at hdrop
  obtain ⟨-, hbyte, hrest⟩ := stringAt_cons.mp hdrop
  rw [Nat.add_assoc] at hrest
  exact ⟨hbyte, hrest⟩

/-- Only blanks behind the last accepted character are replaced. -/
theorem cutBlanks_behind (hname : IsNameChar c) (hpass : ∀ x ∈ v, ¬ IsNameChar x)
    (h : StringAt m pathname (u ++ c :: v)) (q : ℕ) :
    cutBlanks pathname (u ++ c :: v).length m q =
      if pathname + u.length < q ∧ q ≤ pathname + (u ++ c :: v).length ∧ m q = 32 then 0
      else m q := by
  obtain ⟨hc, htail⟩ := stringAt_behind h
  have hlength : (u ++ c :: v).length = u.length + 1 + v.length := by
    rw [List.length_append, List.length_cons]
    omega
  refine cutBlanks_eq (.inr (hc.symm ▸ hname)) (by omega) (fun i hlow hhigh ↦ ?_) q
  obtain ⟨j, rfl⟩ := Nat.exists_eq_add_of_le (Nat.succ_le_of_lt hlow)
  rw [Nat.succ_eq_add_one, ← Nat.add_assoc]
  rcases Nat.lt_or_ge j v.length with hj | hj
  · rw [htail.getElem hj]
    exact hpass _ (List.getElem_mem hj)
  · obtain rfl : j = v.length := by omega
    rw [htail.nul]
    decide

/-- The string ends at the first blank behind its last accepted character. -/
theorem cutBlanks_string (hname : IsNameChar c) (hpass : ∀ x ∈ v, ¬ IsNameChar x)
    (h : StringAt m pathname (u ++ c :: v)) :
    StringAt (cutBlanks pathname (u ++ c :: v).length m) pathname
      (u ++ c :: v.takeWhile (· ≠ 32)) := by
  have hcut := cutBlanks_behind hname hpass h
  obtain ⟨-, htail⟩ := stringAt_behind h
  have hlength : ∀ l, (u ++ c :: l).length = u.length + 1 + l.length := by
    intro l
    rw [List.length_append, List.length_cons]
    omega
  obtain ⟨w, d, rfl, hw, hd⟩ : ∃ w d, v = w ++ d ∧ v.takeWhile (· ≠ 32) = w ∧
      (d = [] ∨ ∃ d', d = 32 :: d') := by
    refine ⟨_, _, List.takeWhile_append_dropWhile.symm, rfl, ?_⟩
    have hhead := v.head?_dropWhile_not (· ≠ 32)
    rcases hrest : v.dropWhile (· ≠ 32) with _ | ⟨x, d'⟩
    · exact .inl hrest
    · rw [hrest] at hhead
      obtain rfl : x = 32 := by simpa using hhead
      exact .inr ⟨d', hrest⟩
  have hblank : ∀ x ∈ w, x ≠ 32 := by
    intro x hx
    rw [← hw] at hx
    simpa using List.mem_takeWhile_imp hx
  have happend : u ++ c :: (w ++ d) = (u ++ c :: w) ++ d := by simp
  rw [hw]
  refine .of_bytes (fun hzero ↦ h.noNul ?_) ?_ ?_
  · rw [happend]
    exact List.mem_append_left d hzero
  · have hbytes := congrArg (List.take (u ++ c :: w).length) h.bytes
    rw [take_readBytes _ _ (by simp; omega), happend, List.append_assoc, List.take_left] at hbytes
    refine (readBytes_congr fun i hi ↦ ?_).trans hbytes
    rw [hcut]
    refine if_neg fun hblanked ↦ ?_
    obtain ⟨j, rfl⟩ := Nat.exists_eq_add_of_le (show u.length + 1 ≤ i by omega)
    rw [hlength] at hi
    have hj : j < w.length := by omega
    have hbyte := htail.getElem (show j < (w ++ d).length by simp; omega)
    rw [List.getElem_append_left hj, Nat.add_assoc, hblanked.2.2] at hbyte
    exact hblank _ (List.getElem_mem hj) hbyte.symm
  · rw [hcut, hlength, hlength]
    rcases hd with rfl | ⟨d', rfl⟩
    · have hnul := htail.nul
      rw [List.append_nil] at hnul
      rw [← Nat.add_assoc, hnul, ite_self]
    · have hbyte := htail.getElem (show w.length < (w ++ 32 :: d').length by simp)
      rw [List.getElem_append_right (le_refl _)] at hbyte
      refine if_pos ⟨by omega, by simp, ?_⟩
      rw [← Nat.add_assoc, hbyte]
      simp

theorem cutBlanks_same (hname : IsNameChar c) (hpass : ∀ x ∈ v, ¬ IsNameChar x)
    (hblank : (32 : UInt8) ∉ v) (h : StringAt m pathname (u ++ c :: v)) :
    cutBlanks pathname (u ++ c :: v).length m = m := by
  obtain ⟨-, htail⟩ := stringAt_behind h
  funext q
  rw [cutBlanks_behind hname hpass h]
  refine if_neg fun hblanked ↦ ?_
  obtain ⟨j, rfl⟩ := Nat.exists_eq_add_of_le
    (show pathname + (u.length + 1) ≤ q from Nat.succ_le_of_lt hblanked.1)
  have hhigh := hblanked.2.1
  rw [List.length_append, List.length_cons] at hhigh
  rcases Nat.lt_or_ge j v.length with hj | hj
  · have hbyte := htail.getElem hj
    rw [hblanked.2.2] at hbyte
    exact hblank (hbyte ▸ List.getElem_mem hj)
  · obtain rfl : j = v.length := by omega
    have hbyte := htail.nul
    rw [hblanked.2.2] at hbyte
    exact absurd hbyte (by decide)

end Cut

/-! ## The whole check -/

theorem checkPathname_rejected (h : StringAt m pathname s) (hfuel : s.length < fuel)
    (hname : ¬ BeginsName (s.dropWhile (· = 32))) :
    checkPathname fuel m pathname = some (ERROR, m) := by
  obtain ⟨k, hskip, hstring, -⟩ := skipBlanks_spec h hfuel
  rw [beginsName_iff hstring] at hname
  simp only [checkPathname, hskip, Option.bind_eq_bind, Option.bind_some]
  by_cases hend : m (pathname + k) = 0
  · rw [if_pos hend]
  · by_cases hchar : IsNameChar (m (pathname + k))
    · rw [if_neg hend, if_neg (not_not.mpr hchar)]
      exact if_pos (not_not.mp fun hdots ↦ hname ⟨hend, hchar, hdots⟩)
    · rw [if_neg hend, if_pos hchar]

theorem checkPathname_moved (h : StringAt m pathname s) (hfuel : s.length < fuel)
    (hname : BeginsName (s.dropWhile (· = 32))) :
    checkPathname fuel m pathname =
      if CopiesApart s then
        some (SUCCESS, cutBlanks pathname (s.dropWhile (· = 32)).length
          (if s.dropWhile (· = 32) = s then m
            else writeBytes m pathname (s.dropWhile (· = 32) ++ [0])))
      else none := by
  obtain ⟨k, hskip, hstring, hlength⟩ := skipBlanks_spec h hfuel
  obtain ⟨hend, hchar, hdots⟩ := (beginsName_iff hstring).mp hname
  have hshort : (s.dropWhile (· = 32)).length < fuel := by omega
  have hsame : k = 0 ↔ s.dropWhile (· = 32) = s := by
    constructor
    · rintro rfl
      exact (s.dropWhile_sublist (· = 32)).eq_of_length (by omega)
    · intro hdrop
      rw [hdrop] at hlength
      omega
  simp only [checkPathname, hskip, Option.bind_eq_bind, Option.bind_some, if_neg hend,
    if_neg (not_not.mpr hchar), if_neg hdots, CopiesApart, ← hsame]
  by_cases hk : k = 0
  · rw [hk, Nat.add_zero] at hstring
    rw [if_neg (by omega), if_pos (.inl hk), if_pos hk]
    simp only [Option.bind_some, strlen_eq hstring hshort]
  · have hapart : pathname + (s.dropWhile (· = 32)).length < pathname + k ∨
        pathname + k + (s.dropWhile (· = 32)).length < pathname ↔
        k = 0 ∨ 2 * (s.dropWhile (· = 32)).length < s.length := by omega
    rw [if_pos (by omega), strcpy_eq hstring hshort, if_neg hk]
    simp only [hapart]
    split
    · rw [Option.bind_some, strlen_eq (stringAt_copy hstring) hshort, Option.bind_some]
    · rfl

theorem checkPathname_accepted (h : StringAt m pathname s) (hfuel : s.length < fuel)
    (hname : BeginsName (s.dropWhile (· = 32))) (hapart : CopiesApart s) :
    ∃ m₁, StringAt m₁ pathname (s.dropWhile (· = 32)) ∧
      checkPathname fuel m pathname =
        some (SUCCESS, cutBlanks pathname (s.dropWhile (· = 32)).length m₁) ∧
      (s.dropWhile (· = 32) = s → m₁ = m) := by
  refine ⟨_, ?_, (checkPathname_moved h hfuel hname).trans (if_pos hapart),
    fun hsame ↦ if_pos hsame⟩
  split
  · next hsame => rwa [hsame]
  · obtain ⟨k, -, hstring, -⟩ := skipBlanks_spec h hfuel
    exact stringAt_copy hstring

/-- A name that begins as it must, taken apart: its last accepted character `c`, what
lies behind it, and the trailing blanks. -/
theorem exists_nameParts (hname : BeginsName t) : ∃ u c w b, t = u ++ c :: (w ++ b) ∧
    t.rdropWhile (· = 32) = u ++ c :: w ∧ nameTail (u ++ c :: w) = w ∧ IsNameChar c ∧
    (∀ x ∈ w ++ b, ¬ IsNameChar x) ∧ ∀ x ∈ b, x = 32 := by
  obtain ⟨r, hr⟩ : ∃ r, r = t.rdropWhile (· = 32) := ⟨_, rfl⟩
  obtain ⟨b, hb⟩ : ∃ b, b = t.rtakeWhile (· = 32) := ⟨_, rfl⟩
  obtain ⟨u, hu⟩ : ∃ u, u = r.rdropWhile fun c ↦ ¬ IsNameChar c := ⟨_, rfl⟩
  have hwhole : r ++ b = t := by rw [hr, hb, List.rdropWhile_append_rtakeWhile]
  have hparts : u ++ nameTail r = r := by
    rw [hu, nameTail, List.rdropWhile_append_rtakeWhile]
  have hblanks : ∀ x ∈ b, x = 32 := by
    intro x hx
    rw [hb] at hx
    simpa using List.mem_rtakeWhile_imp hx
  have hpass : ∀ x ∈ nameTail r ++ b, ¬ IsNameChar x := by
    intro x hx
    rcases List.mem_append.mp hx with hx | hx
    · simpa using List.mem_rtakeWhile_imp hx
    · rw [hblanks x hx]
      decide
  have hne : u ≠ [] := by
    -- the first character is accepted
    rintro rfl
    rw [List.nil_append] at hparts
    rw [hparts, hwhole] at hpass
    cases t with
    | nil => exact hname
    | cons c rest => exact hpass c List.mem_cons_self hname.1
  have hlast : IsNameChar (u.getLast hne) := by
    subst hu
    simpa using List.rdropWhile_last_not _ _ hne
  have hjoin : u.dropLast ++ u.getLast hne :: nameTail r = r := by
    rw [← List.singleton_append, ← List.append_assoc, List.dropLast_concat_getLast, hparts]
  refine ⟨u.dropLast, u.getLast hne, nameTail r, b, ?_, ?_, ?_, hlast, hpass, hblanks⟩
  · rw [← List.cons_append, ← List.append_assoc, hjoin, hwhole]
  · rw [hjoin, hr]
  · rw [hjoin]

/-- The loop leaves all but the trailing blanks exactly if the characters behind the last
accepted one have no blank among them. -/
theorem takeWhile_eq_iff {w b : List UInt8} (hb : ∀ x ∈ b, x = 32) :
    (w ++ b).takeWhile (· ≠ 32) = w ↔ (32 : UInt8) ∉ w := by
  constructor
  · intro h hmem
    rw [← h] at hmem
    simpa using List.mem_takeWhile_imp hmem
  · intro h
    have hw : ∀ x ∈ w, decide (x ≠ 32) = true := by
      intro x hx
      rw [decide_eq_true_iff]
      rintro rfl
      exact h hx
    rw [List.takeWhile_append_of_pos hw]
    cases b with
    | nil => exact List.append_nil w
    | cons x b =>
        rw [hb x List.mem_cons_self, List.takeWhile_cons_of_neg (by decide), List.append_nil]

/-- Trailing blanks do not matter for a prefix without blanks, nor for the beginning of
a name. -/
theorem isPrefixOf_of_append {pre l b : List UInt8} (hb : ∀ x ∈ b, x = 32)
    (hpre : (32 : UInt8) ∉ pre) (h : pre.isPrefixOf (l ++ b)) : pre.isPrefixOf l := by
  induction pre generalizing l with
  | nil => rfl
  | cons x pre ih =>
      rw [List.mem_cons, not_or] at hpre
      cases l with
      | nil =>
          cases b with
          | nil => exact h
          | cons y b =>
              rw [List.nil_append, List.isPrefixOf_cons_cons, Bool.and_eq_true, beq_iff_eq,
                hb y List.mem_cons_self] at h
              exact (hpre.1 h.1.symm).elim
      | cons y l =>
          rw [List.cons_append, List.isPrefixOf_cons_cons, Bool.and_eq_true] at h
          rw [List.isPrefixOf_cons_cons, Bool.and_eq_true]
          exact ⟨h.1, ih hpre.2 h.2⟩

theorem beginsName_of_append {r b : List UInt8} (hne : r ≠ []) (hb : ∀ x ∈ b, x = 32)
    (h : BeginsName (r ++ b)) : BeginsName r := by
  cases r with
  | nil => exact (hne rfl).elim
  | cons c rest =>
      refine ⟨h.1, fun hdot ↦ (h.2 hdot).imp ?_ ?_⟩
      · exact isPrefixOf_of_append hb (by decide)
      · exact isPrefixOf_of_append hb (by decide)

theorem dropWhile_of_beginsName {r : List UInt8} (h : BeginsName r) :
    r.dropWhile (· = 32) = r := by
  cases r with
  | nil => rfl
  | cons c rest =>
      rw [List.dropWhile_cons_of_neg]
      rw [decide_eq_true_iff]
      rintro rfl
      exact absurd h.1 (by decide)

/-- `check_pathname` only trims a string if it rejects it, or if `strcpy` is defined and no
blank lies behind the last accepted character of the trimmed string. -/
theorem check_pathname_trims_iff (h : StringAt m pathname s) (hfuel : s.length < fuel) :
    OnlyTrims fuel m pathname s ↔ ¬ BeginsName (s.dropWhile (· = 32)) ∨
      (CopiesApart s ∧ (32 : UInt8) ∉ nameTail (trimBlanks s)) := by
  by_cases hname : BeginsName (s.dropWhile (· = 32))
  · rw [or_iff_right (not_not.mpr hname)]
    by_cases hapart : CopiesApart s
    swap
    · refine iff_of_false ?_ fun hcond ↦ hapart hcond.1
      rintro ⟨ret, m', hresult, -⟩
      rw [checkPathname_moved h hfuel hname, if_neg hapart] at hresult
      cases hresult
    rw [and_iff_right hapart]
    obtain ⟨m₁, hstring, hcheck, -⟩ := checkPathname_accepted h hfuel hname hapart
    obtain ⟨u, c, w, b, hsplit, htrim, htail, hlast, hpass, hblanks⟩ := exists_nameParts hname
    have hcut : StringAt (cutBlanks pathname (s.dropWhile (· = 32)).length m₁) pathname
        (u ++ c :: (w ++ b).takeWhile (· ≠ 32)) := by
      rw [hsplit] at hstring ⊢
      exact cutBlanks_string hlast hpass hstring
    have htrimmed : trimBlanks s = u ++ c :: w := htrim
    rw [htrimmed, htail, ← takeWhile_eq_iff hblanks]
    constructor
    · rintro ⟨ret, m', hresult, -, hsuccess⟩
      obtain ⟨rfl, rfl⟩ := Prod.ext_iff.mp (Option.some.inj (hcheck.symm.trans hresult))
      have hunique := hcut.unique (hsuccess rfl).1
      rw [htrimmed] at hunique
      simpa using hunique
    · intro hkept
      rw [hkept] at hcut
      have hnoBlank := (takeWhile_eq_iff hblanks).mp hkept
      have hbegins : BeginsName (u ++ c :: w) := by
        refine beginsName_of_append (by simp) hblanks ?_
        rw [List.append_assoc, List.cons_append, ← hsplit]
        exact hname
      refine ⟨SUCCESS, _, hcheck, fun herror ↦ absurd herror (by decide), fun _ ↦ ?_⟩
      rw [htrimmed]
      refine ⟨hcut, ?_⟩
      have hsame := dropWhile_of_beginsName hbegins
      have hshort : (u ++ c :: w).length < fuel := by
        have hdropped := (s.dropWhile_sublist (· = 32)).length_le
        rw [hsplit, ← List.cons_append, ← List.append_assoc, List.length_append] at hdropped
        omega
      obtain ⟨m₂, hstring₂, hcheck₂, hm₂⟩ :=
        checkPathname_accepted hcut hshort (hsame.symm ▸ hbegins) (.inl hsame)
      rw [hm₂ hsame] at hcheck₂ hstring₂
      rw [hsame] at hcheck₂
      rw [hcheck₂, cutBlanks_same hlast (fun x hx ↦ hpass x (List.mem_append_left b hx)) hnoBlank
        hcut]
  · refine iff_of_true ?_ (.inl hname)
    refine ⟨ERROR, m, checkPathname_rejected h hfuel hname, fun _ ↦ h, fun hsuccess ↦ ?_⟩
    exact absurd hsuccess (by decide)

/-- The name `a` with three blanks before and one behind it. -/
theorem check_pathname_trims_iff_blanks :
    OnlyTrims 6 (writeBytes (fun _ ↦ 0) 64 [32, 32, 32, 97, 32]) 64 [32, 32, 32, 97, 32] ↔
      ¬ BeginsName ([32, 32, 32, 97, 32].dropWhile (· = 32)) ∨
        (CopiesApart [32, 32, 32, 97, 32] ∧
          (32 : UInt8) ∉ nameTail (trimBlanks [32, 32, 32, 97, 32])) :=
  check_pathname_trims_iff ⟨by decide, by decide⟩ (by decide)

/-- The name `a _` becomes `a`: the walk passes the `_` and cuts at the blank. -/
theorem check_pathname_cuts_name :
    StringAt (writeBytes (fun _ ↦ 0) 64 [97, 32, 95]) 64 [97, 32, 95] ∧
    ¬ OnlyTrims 4 (writeBytes (fun _ ↦ 0) 64 [97, 32, 95]) 64 [97, 32, 95] := by
  refine ⟨⟨by decide, by decide⟩, ?_⟩
  rintro ⟨ret, m', hresult, -, hsuccess⟩
  obtain ⟨rfl, rfl⟩ := Prod.ext_iff.mp (Option.some.inj hresult)
  exact absurd (hsuccess rfl).1.bytes (by decide)

end Lemmas

end OperatingSystem.Filesys
