import OperatingSystem.Filesys.Interface
import OperatingSystem.Filesys.Pathnames

/-!
# The string of the current path

`rd_open` and `rd_close` edit `cur_path` as a string. Read as the list of its
components, a path loses its last one at a `"../"` and at `rd_close(0)`, and
gains those of the pathname, if no piece of it that is cut is empty and both
parsers of the pathname take the same prefix for its start.
-/

namespace OperatingSystem.Filesys

/-! ## Pieces -/

/-- The pieces of a path between its slashes. -/
def segments (path : List UInt8) : List (List UInt8) := (partition path).1 ++ [(partition path).2]

def components (path : List UInt8) : List (List UInt8) := (segments path).filter (· ≠ [])

/-- The last `k` pieces of the path are names. -/
def EndsInNames (k : ℕ) (path : List UInt8) : Prop :=
  ∀ piece ∈ (segments path).reverse.take k, piece ≠ []

instance (k : ℕ) (path : List UInt8) : Decidable (EndsInNames k path) :=
  inferInstanceAs (Decidable (∀ _ ∈ _, _))

theorem length_partition (path : List UInt8) : (partition path).1.length = path.count 47 := by
  induction path with
  | nil => rfl
  | cons c path ih =>
      by_cases hc : c = 47
      · subst hc
        rw [List.count_cons_self, ← ih]
        rfl
      · rw [List.count_cons_of_ne hc, ← ih]
        simp only [partition, if_neg hc]
        rcases partition path with ⟨_ | ⟨piece, pieces⟩, last⟩ <;> rfl

theorem partition_append_slash (u v : List UInt8) :
    partition (u ++ 47 :: v) = (segments u ++ (partition v).1, (partition v).2) := by
  induction u with
  | nil => simp [segments, partition]
  | cons c u ih =>
      rw [List.cons_append]
      by_cases hc : c = 47
      · simp [segments, partition, hc, ih]
      · simp only [segments, partition, hc, if_false, ih]
        rcases partition u with ⟨_ | ⟨piece, pieces⟩, last⟩ <;> rfl

theorem segments_append_slash (u v : List UInt8) :
    segments (u ++ 47 :: v) = segments u ++ segments v := by
  rw [segments, partition_append_slash, List.append_assoc]
  rfl

theorem components_append_slash (u v : List UInt8) :
    components (u ++ 47 :: v) = components u ++ components v := by
  rw [components, segments_append_slash, List.filter_append]
  rfl

theorem segments_of_noSlash {v : List UInt8} (h : (47 : UInt8) ∉ v) : segments v = [v] := by
  induction v with
  | nil => rfl
  | cons c v ih =>
      rw [List.mem_cons, not_or] at h
      have hpieces := ih h.2
      have hc : c ≠ 47 := Ne.symm h.1
      simp only [segments] at hpieces
      simp only [segments, partition, hc, if_false]
      rcases hv : partition v with ⟨_ | ⟨piece, pieces⟩, last⟩
      · rw [hv] at hpieces
        cases hpieces
        rfl
      · rw [hv] at hpieces
        have hlength := congrArg List.length hpieces
        simp at hlength

theorem components_of_noSlash {v : List UInt8} (h : (47 : UInt8) ∉ v) (hne : v ≠ []) :
    components v = [v] := by
  rw [components, segments_of_noSlash h]
  simp [hne]

theorem components_nil : components [] = [] := rfl

/-- A path with a slash, cut at the last one. -/
theorem exists_lastSlash {path : List UInt8} (h : (47 : UInt8) ∈ path) :
    ∃ u v, path = u ++ 47 :: v ∧ (47 : UInt8) ∉ v := by
  obtain ⟨v, u, hpath, hv⟩ := List.eq_append_cons_of_mem (List.mem_reverse.mpr h)
  refine ⟨u.reverse, v.reverse, ?_, fun hmem ↦ hv (List.mem_reverse.mp hmem)⟩
  have hreverse := congrArg List.reverse hpath
  simpa using hreverse

theorem findIdx_of_noSlash {v : List UInt8} (h : (47 : UInt8) ∉ v) :
    v.reverse.findIdx (· = 47) = v.length := by
  rw [List.findIdx_eq_length.mpr, List.length_reverse]
  intro c hc
  rw [decide_eq_false_iff_not]
  rintro rfl
  exact h (List.mem_reverse.mp hc)

theorem findIdx_lastSlash {u v : List UInt8} (h : (47 : UInt8) ∉ v) :
    (u ++ 47 :: v).reverse.findIdx (· = 47) = v.length := by
  rw [List.reverse_append, List.reverse_cons, List.append_assoc, List.findIdx_append,
    findIdx_of_noSlash h]
  simp [List.findIdx_cons]

theorem endsInNames_lastSlash {k : ℕ} {u v : List UInt8} (hv : (47 : UInt8) ∉ v)
    (h : EndsInNames (k + 1) (u ++ 47 :: v)) :
    EndsInNames k u ∧ components (u ++ 47 :: v) = components u ++ [v] := by
  simp only [EndsInNames, segments_append_slash, segments_of_noSlash hv, List.reverse_append,
    List.reverse_singleton, List.singleton_append, List.take_succ_cons, List.forall_mem_cons] at h
  refine ⟨h.2, ?_⟩
  rw [components_append_slash, components_of_noSlash hv h.1]

/-! ## Going up -/

theorem backUp_eq_some {p rest : List UInt8} {t : ℕ}
    (h : backUp (p ++ 47 :: rest) (p.length + 1) = some t) :
    ∃ u v, p = u ++ 47 :: v ∧ (47 : UInt8) ∉ v ∧ t = u.length + 1 := by
  have hbefore : (p ++ 47 :: rest).take (p.length + 1 - 1) = p := by simp
  rw [backUp, hbefore] at h
  split at h
  · next hlt =>
    have hslash : (47 : UInt8) ∈ p := by
      by_contra hnone
      rw [findIdx_of_noSlash hnone] at hlt
      omega
    obtain ⟨u, v, rfl, hv⟩ := exists_lastSlash hslash
    refine ⟨u, v, rfl, hv, ?_⟩
    rw [findIdx_lastSlash hv] at h
    cases h
    simp only [List.length_append, List.length_cons]
    omega
  · cases h

theorem backUps_eq_some {k : ℕ} {p rest : List UInt8} {t : ℕ} (hnames : EndsInNames k p)
    (h : backUps (p ++ 47 :: rest) k (p.length + 1) = some t) :
    ∃ u rest' l, p ++ 47 :: rest = u ++ 47 :: rest' ∧ t = u.length + 1 ∧
      components p = components u ++ l ∧ l.length = k := by
  induction k generalizing p rest with
  | zero =>
      cases h
      exact ⟨p, rest, [], rfl, rfl, by rw [List.append_nil], rfl⟩
  | succ k ih =>
      obtain ⟨t', ht', h⟩ := Option.bind_eq_some_iff.mp h
      obtain ⟨u, v, rfl, hv, rfl⟩ := backUp_eq_some ht'
      obtain ⟨hnames', hcomponents⟩ := endsInNames_lastSlash hv hnames
      rw [List.append_assoc, List.cons_append] at h ⊢
      obtain ⟨u', rest', l, hpath, ht, hlist, hlength⟩ := ih hnames' h
      refine ⟨u', rest', l ++ [v], hpath, ht, ?_, by rw [List.length_append, hlength]; rfl⟩
      rw [hcomponents, hlist, List.append_assoc]

/-- `cur_path` without its last name is what `rd_close(0)` leaves. -/
theorem cutPath_eq_some {curPath path : List UInt8} (hstart : curPath.head? = some 47)
    (hnames : EndsInNames 1 curPath) (h : cutPath curPath = some path) :
    path.head? = some 47 ∧ ∃ v, components curPath = components path ++ [v] := by
  obtain ⟨tail, rfl⟩ := List.head?_eq_some_iff.mp hstart
  rw [cutPath, if_neg (List.cons_ne_nil _ _)] at h
  obtain rfl := Option.some.inj h
  simp only [List.tail_cons, List.length_cons]
  by_cases hslash : (47 : UInt8) ∈ tail
  · obtain ⟨u, v, rfl, hv⟩ := exists_lastSlash hslash
    have hcut : (47 :: (u ++ 47 :: v)).take ((u ++ 47 :: v).length + 1 -
        (u ++ 47 :: v).reverse.findIdx (· = 47)) = (47 :: u) ++ 47 :: [] := by
      have hlength : (u ++ 47 :: v).length + 1 - v.length = (47 :: u).length + 1 := by
        simp only [List.length_append, List.length_cons]
        omega
      rw [findIdx_lastSlash hv, hlength, ← List.cons_append, List.take_length_add_append]
      rfl
    rw [hcut]
    refine ⟨rfl, v, ?_⟩
    rw [components_append_slash, components_nil, List.append_nil, ← List.cons_append]
    exact (endsInNames_lastSlash hv (k := 0) hnames).2
  · rw [findIdx_of_noSlash hslash, Nat.add_sub_cancel_left]
    exact ⟨rfl, tail, (endsInNames_lastSlash (u := []) (k := 0) hslash hnames).2⟩

/-! ## Opening -/

/-- What is left of a pathname after its prefixes. -/
def remainder (pathname : List UInt8) : List UInt8 :=
  skipPrefix [47] (skipPrefix [46, 47] (stripBack pathname).2)

/-- The lookup of the pathname starts at the root. -/
def StartsAtRoot (pathname : List UInt8) : Prop :=
  [47].isPrefixOf (skipPrefix [46, 47] (stripBack pathname).2)

/-- No second prefix follows the leading `"../"` or `"./"`: `read_pathname`
would skip it, the code that builds the string would not. -/
def OnePrefix (pathname : List UInt8) : Prop :=
  (0 < (stripBack pathname).1 → ¬ [46, 47].isPrefixOf (stripBack pathname).2 ∧
      ¬ [47].isPrefixOf (stripBack pathname).2) ∧
    ¬ [46, 47, 47].isPrefixOf pathname

instance (pathname : List UInt8) : Decidable (OnePrefix pathname) :=
  inferInstanceAs (Decidable (_ ∧ _))

theorem stripBack_snd (pathname : List UInt8) :
    (stripBack pathname).2 = pathname.drop (3 * (stripBack pathname).1) := by
  fun_induction stripBack pathname with
  | case1 rest ih => rw [ih, Nat.mul_add, Nat.mul_one]; rfl
  | case2 pn _ => rfl

theorem stripBack_pos {pathname : List UInt8} (h : 0 < (stripBack pathname).1) :
    ∃ rest, pathname = 46 :: 46 :: 47 :: rest := by
  fun_cases stripBack pathname with
  | case1 rest => exact ⟨rest, rfl⟩
  | case2 pn hother =>
      rw [stripBack.eq_2 pathname hother] at h
      exact (Nat.lt_irrefl 0 h).elim

/-- What the two parsers make of a pathname with one prefix. -/
theorem remainder_cases {pathname : List UInt8} (hone : OnePrefix pathname) :
    (StartsAtRoot pathname ∧ pathname = 47 :: remainder pathname) ∨
      (¬ StartsAtRoot pathname ∧ [47].isPrefixOf pathname = false ∧
        remainder pathname = pathname.drop (if [46, 47].isPrefixOf pathname then
          3 * (stripBack pathname).1 + 2 else 3 * (stripBack pathname).1)) := by
  obtain ⟨hback, hdot⟩ := hone
  by_cases hpos : 0 < (stripBack pathname).1
  · right
    obtain ⟨hnoDot, hnoSlash⟩ := hback hpos
    rw [StartsAtRoot, remainder, skipPrefix, skipPrefix, if_neg hnoDot, if_neg hnoSlash,
      stripBack_snd pathname]
    rw [stripBack_snd pathname] at hnoSlash
    obtain ⟨rest, rfl⟩ := stripBack_pos hpos
    exact ⟨hnoSlash, rfl, rfl⟩
  · have hzero : (stripBack pathname).1 = 0 := by omega
    have hsame : (stripBack pathname).2 = pathname := by
      rw [stripBack_snd, hzero]
      rfl
    rw [StartsAtRoot, remainder, hsame, hzero]
    by_cases hcur : [46, 47].isPrefixOf pathname = true
    · right
      obtain ⟨rest, rfl⟩ := List.isPrefixOf_iff_prefix.mp hcur
      have hrest : ¬ [47].isPrefixOf rest = true := by
        intro hslash
        obtain ⟨r, rfl⟩ := List.isPrefixOf_iff_prefix.mp hslash
        exact hdot (by simp)
      have hskip : skipPrefix [46, 47] ([46, 47] ++ rest) = rest := if_pos hcur
      rw [hskip, if_pos hcur]
      exact ⟨hrest, rfl, if_neg hrest⟩
    · have hskip : skipPrefix [46, 47] pathname = pathname := if_neg hcur
      rw [hskip, if_neg hcur]
      by_cases hslash : [47].isPrefixOf pathname = true
      · left
        obtain ⟨rest, rfl⟩ := List.isPrefixOf_iff_prefix.mp hslash
        refine ⟨hslash, ?_⟩
        rw [skipPrefix, if_pos hslash]
        rfl
      · right
        exact ⟨hslash, Bool.eq_false_iff.mpr hslash, if_neg hslash⟩

theorem exists_temppath (curPath : List UInt8) :
    ∃ p, (if curPath = [47] then curPath else curPath ++ [47]) = p ++ 47 :: [] ∧
      components p = components curPath ∧ ∀ k, EndsInNames k curPath → EndsInNames k p := by
  by_cases hroot : curPath = [47]
  · subst hroot
    refine ⟨[], rfl, rfl, ?_⟩
    intro k hnames
    cases k with
    | zero => exact fun piece hpiece ↦ (List.not_mem_nil hpiece).elim
    | succ k => exact (hnames [] (by simp [segments, partition]) rfl).elim
  · exact ⟨curPath, if_neg hroot, rfl, fun _ h ↦ h⟩

/-- The components of the path that `rd_open` builds: those of the pathname
behind those of the directory where its lookup starts. -/
theorem buildPath_eq_some {curPath pathname path : List UInt8} (hstart : curPath.head? = some 47)
    (hone : OnePrefix pathname) (hnames : EndsInNames (stripBack pathname).1 curPath)
    (h : buildPath curPath pathname = some path) :
    path.head? = some 47 ∧
      (StartsAtRoot pathname → components path = components (remainder pathname)) ∧
      (¬ StartsAtRoot pathname → ∃ pre l, components curPath = pre ++ l ∧
        l.length = (stripBack pathname).1 ∧
        components path = pre ++ components (remainder pathname)) := by
  obtain ⟨p, htemp, hcomponents, hkept⟩ := exists_temppath curPath
  simp only [buildPath, htemp] at h
  obtain ⟨t, ht, h⟩ := Option.bind_eq_some_iff.mp h
  rw [List.length_append, List.length_singleton] at ht
  obtain ⟨u, rest, l, hpath, rfl, hlist, hlength⟩ := backUps_eq_some (hkept _ hnames) ht
  have hfirst : (p ++ 47 :: []).head? = some 47 := by
    rw [← htemp]
    split
    · exact hstart
    · rw [List.head?_append, hstart]
      rfl
  rcases remainder_cases hone with ⟨hroot, hpathname⟩ | ⟨hroot, hslash, hrest⟩
  · -- the path begins anew behind its first slash
    have hslash : [47].isPrefixOf pathname = true := by
      rw [hpathname]
      rfl
    have hdot : [46, 47].isPrefixOf pathname = false := by
      rw [hpathname]
      rfl
    have hback : (stripBack pathname).1 = 0 := by
      rw [hpathname]
      rfl
    have hdrop : pathname.drop 1 = remainder pathname := by
      rw [hpathname]
      exact congrArg remainder hpathname
    have htake : (p ++ 47 :: []).take 1 = [47] := by
      obtain ⟨tail, htail⟩ := List.head?_eq_some_iff.mp hfirst
      rw [htail]
      rfl
    simp only [hslash, hdot, hback, if_true, Bool.false_eq_true, if_false, Nat.mul_zero,
      Nat.zero_add, hdrop, htake] at h
    obtain rfl := Option.some.inj (Option.ite_none_right_eq_some.mp h).2
    refine ⟨rfl, fun _ ↦ ?_, fun hnot ↦ (hnot hroot).elim⟩
    exact components_append_slash [] _
  · simp only [hslash, Bool.false_eq_true, if_false, ← hrest, hpath] at h
    obtain ⟨-, hpath'⟩ := Option.ite_none_right_eq_some.mp h
    have htake : (u ++ 47 :: rest).take (u.length + 1) = u ++ 47 :: [] := by
      rw [List.take_length_add_append]
      rfl
    rw [htake, List.append_assoc, List.singleton_append] at hpath'
    obtain rfl := Option.some.inj hpath'
    refine ⟨?_, fun hroot' ↦ (hroot hroot').elim, fun _ ↦ ⟨components u, l, ?_, hlength, ?_⟩⟩
    · rw [hpath] at hfirst
      rw [List.head?_append] at hfirst ⊢
      exact hfirst
    · rw [← hcomponents, hlist]
    · exact components_append_slash _ _

end OperatingSystem.Filesys
