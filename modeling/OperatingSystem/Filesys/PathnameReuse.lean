import OperatingSystem.Filesys.UserRuns

/-!
# Pathnames that are used again

`rd_creat`, `rd_open` and `rd_chmod` leave only the first piece of a pathname in the
memory of the caller, so the next call with the same buffer is about another file.
-/

namespace OperatingSystem.Filesys.UserInterface

open ByteMemory

variable {area : Area} {fuel : ℕ}

/-- The characters that `read_pathname` skips. -/
def prefixLength (s : List UInt8) : ℕ := s.length - (remainder s).length

/-- The pathname up to the first slash behind its prefixes. -/
def firstPiece (s : List UInt8) : List UInt8 :=
  s.take (prefixLength s) ++ (remainder s).takeWhile (· ≠ 47)

/-! ## Prefixes -/

section Prefixes

variable {s t : List UInt8}

theorem skipPrefix_cases (pre s : List UInt8) :
    s = pre ++ skipPrefix pre s ∨ s = skipPrefix pre s := by
  rw [skipPrefix]
  split
  · next hpre =>
    obtain ⟨rest, rfl⟩ := List.isPrefixOf_iff_prefix.mp hpre
    exact .inl (by rw [List.drop_left])
  · exact .inr rfl

theorem skipPrefix_self (pre s : List UInt8) : skipPrefix pre (pre ++ s) = s := by
  rw [skipPrefix, if_pos (List.isPrefixOf_iff_prefix.mpr (List.prefix_append pre s)),
    List.drop_left]

theorem skipPrefix_of_notMem {pre : List UInt8} (hpre : (47 : UInt8) ∈ pre)
    (ht : (47 : UInt8) ∉ t) : skipPrefix pre t = t :=
  if_neg fun h ↦ ht ((List.isPrefixOf_iff_prefix.mp h).subset hpre)

/-- The leading `"../"` do not depend on what follows. -/
theorem stripBack_split (s : List UInt8) : ∃ pre, s = pre ++ (stripBack s).2 ∧
    ∀ t, (stripBack (pre ++ t)).2 = (stripBack t).2 := by
  fun_induction stripBack s with
  | case1 rest ih =>
      obtain ⟨pre, hpre, hkeep⟩ := ih
      exact ⟨46 :: 46 :: 47 :: pre, congrArg (46 :: 46 :: 47 :: ·) hpre, hkeep⟩
  | case2 pn _ => exact ⟨[], rfl, fun _ ↦ rfl⟩

theorem exists_prefix (s : List UInt8) : ∃ pre, s = pre ++ remainder s ∧
    ∀ t, (47 : UInt8) ∉ t → remainder (pre ++ t) = t := by
  obtain ⟨back, hback, hkeep⟩ := stripBack_split s
  have hdot := skipPrefix_cases [46, 47] (stripBack s).2
  have hslash := skipPrefix_cases [47] (skipPrefix [46, 47] (stripBack s).2)
  have hplain : ∀ t : List UInt8, (47 : UInt8) ∉ t → (stripBack t).2 = t := fun t ht ↦ by
    rw [stripBack.eq_2 t fun rest hrest ↦ ht (by rw [hrest]; simp)]
  rw [remainder]
  rcases hdot with hdot | hdot <;> rcases hslash with hslash | hslash
  · refine ⟨back ++ ([46, 47] ++ [47]), ?_, fun t ht ↦ ?_⟩
    · rw [List.append_assoc, List.append_assoc, ← hslash, ← hdot, ← hback]
    · rw [List.append_assoc, List.append_assoc, remainder, hkeep]
      exact (congrArg (skipPrefix [47]) (skipPrefix_self [46, 47] ([47] ++ t))).trans
        (skipPrefix_self [47] t)
  · refine ⟨back ++ [46, 47], ?_, fun t ht ↦ ?_⟩
    · rw [List.append_assoc, ← hslash, ← hdot, ← hback]
    · rw [List.append_assoc, remainder, hkeep]
      exact (congrArg (skipPrefix [47]) (skipPrefix_self [46, 47] t)).trans
        (skipPrefix_of_notMem (by decide) ht)
  · refine ⟨back ++ [47], ?_, fun t ht ↦ ?_⟩
    · rw [List.append_assoc, ← hslash, ← hdot, ← hback]
    · rw [List.append_assoc, remainder, hkeep]
      exact skipPrefix_self [47] t
  · refine ⟨back, ?_, fun t ht ↦ ?_⟩
    · rw [← hslash, ← hdot, ← hback]
    · rw [remainder, hkeep, hplain t ht, skipPrefix_of_notMem (by decide) ht,
        skipPrefix_of_notMem (by decide) ht]

theorem notMem_takeWhile (s : List UInt8) : (47 : UInt8) ∉ s.takeWhile (· ≠ 47) := fun h ↦ by
  simpa using List.mem_takeWhile_imp h

theorem take_prefixLength (s : List UInt8) : s.take (prefixLength s) ++ remainder s = s ∧
    remainder (firstPiece s) = (remainder s).takeWhile (· ≠ 47) := by
  obtain ⟨pre, hpre, hskip⟩ := exists_prefix s
  have hlength : prefixLength s = pre.length := by
    have h := congrArg List.length hpre
    rw [List.length_append] at h
    rw [prefixLength, h, Nat.add_sub_cancel]
  have htake : s.take (prefixLength s) = pre := by
    rw [hlength]
    exact (congrArg (List.take pre.length) hpre).trans List.take_left
  rw [firstPiece, htake]
  exact ⟨hpre.symm, hskip _ (notMem_takeWhile _)⟩

theorem notMem_remainder_firstPiece (s : List UInt8) :
    (47 : UInt8) ∉ remainder (firstPiece s) := by
  rw [(take_prefixLength s).2]
  exact notMem_takeWhile _

theorem firstPiece_of_notMem (h : (47 : UInt8) ∉ remainder s) : firstPiece s = s := by
  have hwhole : (remainder s).takeWhile (· ≠ 47) = remainder s := by
    rw [List.takeWhile_eq_self_iff]
    intro c hc
    simpa using ne_of_mem_of_not_mem hc h
  rw [firstPiece, hwhole, (take_prefixLength s).1]

theorem firstPiece_prefix (s : List UInt8) : firstPiece s <+: s := by
  refine (List.prefix_append_right_inj _).mpr (List.takeWhile_prefix _) |>.trans ?_
  rw [(take_prefixLength s).1]

end Prefixes

/-! ## Memory -/

section Memory

variable {mem mem' : ℕ → UInt8} {p q : ℕ} {s t u : List UInt8} {st : Store area} {fdt : FDT}

theorem round_mem {pn i : ℕ} {c : Cut} (hj : c.j ≤ i) : (c.round pn i).j ≤ i + 1 ∧
    (c.round pn i).mem q = if q = pn + i ∧ c.mem q = 47 then 0 else c.mem q := by
  by_cases hslash : c.mem (pn + i) = 47
  · rw [Cut.round_of_slash hslash hj]
    refine ⟨Nat.zero_le _, ?_⟩
    by_cases hq : q = pn + i
    · rw [if_pos ⟨hq, hq ▸ hslash⟩, hq]
      exact Function.update_self _ _ _
    · rw [if_neg fun h ↦ hq h.1]
      exact Function.update_of_ne hq _ _
  · rw [Cut.round_of_ne hslash]
    refine ⟨Nat.succ_le_succ hj, (if_neg ?_).symm⟩
    rintro ⟨rfl, hbyte⟩
    exact hslash hbyte

/-- The loop replaces the slashes that it passes, and nothing else. -/
theorem rounds_mem {pn n i : ℕ} {c : Cut} (hj : c.j ≤ i) :
    (Cut.rounds pn n i c).mem q =
      if (pn + i ≤ q ∧ q < pn + i + n) ∧ c.mem q = 47 then 0 else c.mem q := by
  induction n generalizing i c with
  | zero => exact (if_neg fun h ↦ absurd h.1 (by omega)).symm
  | succ n ih =>
      obtain ⟨hj', hmem⟩ := @round_mem q pn i c hj
      rw [Cut.rounds, ih hj', hmem]
      by_cases hq : q = pn + i ∧ c.mem q = 47
      · have hnul : ¬ ((pn + (i + 1) ≤ q ∧ q < pn + (i + 1) + n) ∧ (0 : UInt8) = 47) := fun h ↦
          absurd h.2 (by decide)
        rw [if_pos hq, if_neg hnul, if_pos ⟨by omega, hq.2⟩]
      · rw [if_neg hq]
        refine if_congr (and_congr_left fun hslash ↦ ?_) rfl rfl
        have hne : q ≠ pn + i := fun heq ↦ hq ⟨heq, hslash⟩
        omega

theorem startsWith_location (h : StringAt mem p s) (pre : List UInt8) (hpre : (0 : UInt8) ∉ pre) :
    (if startsWith mem p pre then p + pre.length else p) =
      p + (s.length - (skipPrefix pre s).length) := by
  rw [startsWith_eq h pre hpre, skipPrefix]
  split
  · next hskip =>
    have hle := (List.isPrefixOf_iff_prefix.mp hskip).length_le
    rw [List.length_drop]
    omega
  · rw [Nat.sub_self, Nat.add_zero]

/-- `read_pathname` replaces the slashes behind the prefixes of a pathname, or rejects it
and replaces nothing. -/
theorem readPathnameAt_mem (h : StringAt mem p s) (hfuel : s.length < fuel) {split : SplitPath}
    (hsplit : readPathnameAt fuel st mem p fdt (fun _ ↦ 0) = some split) :
    (split = .error ∧ readPathname st fdt s = some .error) ∨
      ∀ q, SplitPath.mem mem split q =
        if (p + prefixLength s ≤ q ∧ q < p + s.length) ∧ mem q = 47 then 0 else mem q := by
  obtain ⟨head, hhead, hsplit⟩ := Option.bind_eq_some_iff.mp hsplit
  have hback := length_stripBack s
  have hdots := length_skipPrefix [46, 47] (stripBack s).2
  have hslashes := length_skipPrefix [47] (skipPrefix [46, 47] (stripBack s).2)
  have hstripped : StringAt mem (p + 3 * (stripBack s).1) (stripBack s).2 := by
    rw [stripBack_snd]
    exact h.drop (by omega)
  have hdot := stringAt_skipPrefix hstripped [46, 47] (by decide)
  have hdotAt := startsWith_location hstripped [46, 47] (by decide)
  rw [stripBackAt_eq h hfuel, Option.bind_eq_bind, Option.bind_some] at hsplit
  dsimp only at hsplit
  split at hsplit
  · next hrejected =>
    cases hsplit
    refine .inl ⟨rfl, ?_⟩
    rw [readPathname, hhead]
    exact if_pos hrejected
  · refine .inr ?_
    obtain ⟨desIndex, -, hsplit⟩ := Option.bind_eq_some_iff.mp hsplit
    generalize hpn : (if startsWith mem (p + 3 * (stripBack s).1) [46, 47] then
      p + 3 * (stripBack s).1 + 2 else p + 3 * (stripBack s).1) = pn at hsplit
    have hpn' := hpn.symm.trans hdotAt
    have hdot' : StringAt mem pn (skipPrefix [46, 47] (stripBack s).2) := hpn ▸ hdot
    have hslash := stringAt_skipPrefix hdot' [47] (by decide)
    have hslashAt := startsWith_location hdot' [47] (by decide)
    rw [List.length_singleton] at hslash hslashAt
    have hcut : ∀ {q' des : ℕ}, StringAt mem q' (remainder s) →
        q' = p + prefixLength s →
        ((strlen mem fuel q').bind fun length ↦
          let c := Cut.rounds q' length 0 ⟨mem, fun _ ↦ 0, 0, 0⟩
          if c.k ≤ 20 then some (SplitPath.parsed des c.mem c.parentlist (q' + (length - c.j)))
          else none) = some split →
        ∀ q, SplitPath.mem mem split q =
          if (p + prefixLength s ≤ q ∧ q < p + s.length) ∧ mem q = 47 then 0 else mem q := by
      intro q' des hstring hq' hsome q
      rw [strlen_eq hstring (by rw [remainder]; omega), Option.bind_some] at hsome
      dsimp only at hsome
      split at hsome
      · cases hsome
        have hrounds := @rounds_mem q q' (remainder s).length 0 ⟨mem, fun _ ↦ 0, 0, 0⟩ (le_refl 0)
        refine hrounds.trans ?_
        have hend : q' + (remainder s).length = p + s.length := by
          rw [hq', prefixLength, remainder]
          omega
        rw [Nat.add_zero, hend, hq']
      · cases hsome
    have hlength : (if startsWith mem pn [47] then pn + 1 else pn) = p + prefixLength s := by
      rw [hslashAt, hpn', prefixLength, remainder]
      omega
    cases hstart : startsWith mem pn [47] with
    | false =>
        rw [hstart] at hsplit hslash hlength
        exact hcut hslash hlength hsplit
    | true =>
        rw [hstart] at hsplit hslash hlength
        exact hcut hslash hlength hsplit

theorem takeWhile_split (u : List UInt8) : ∃ d, u = u.takeWhile (· ≠ 47) ++ d ∧
    (d = [] ∨ ∃ d', d = 47 :: d') := by
  refine ⟨u.dropWhile (· ≠ 47), List.takeWhile_append_dropWhile.symm, ?_⟩
  have hhead := u.head?_dropWhile_not (· ≠ 47)
  rcases hrest : u.dropWhile (· ≠ 47) with _ | ⟨c, d'⟩
  · exact .inl hrest
  · rw [hrest] at hhead
    obtain rfl : c = 47 := by simpa using hhead
    exact .inr ⟨d', hrest⟩

theorem stringAt_cut (h : StringAt mem p (t ++ u))
    (hmem : ∀ q, mem' q =
      if (p + t.length ≤ q ∧ q < p + (t ++ u).length) ∧ mem q = 47 then 0 else mem q) :
    StringAt mem' p (t ++ u.takeWhile (· ≠ 47)) := by
  obtain ⟨d, hd, hcases⟩ := takeWhile_split u
  have hnone := notMem_takeWhile u
  generalize u.takeWhile (· ≠ 47) = w at hd hnone
  subst hd
  rw [← List.append_assoc] at h hmem
  have hbytes : readBytes mem p (t ++ w).length = t ++ w := by
    have htake := congrArg (List.take (t ++ w).length) h.readBytes_eq
    rwa [take_readBytes _ _ (List.prefix_append (t ++ w) d).length_le, List.take_left] at htake
  refine .of_bytes (fun hnul ↦ h.noNul (List.mem_append_left d hnul)) ?_ ?_
  · refine (readBytes_congr fun k hk ↦ ?_).trans hbytes
    rw [hmem]
    refine if_neg fun hreplaced ↦ ?_
    have hge : t.length ≤ k := Nat.le_of_add_le_add_left hreplaced.1.1
    have hbyte := h.getElem (hk.trans_le (List.prefix_append (t ++ w) d).length_le)
    rw [hreplaced.2, List.getElem_append_left hk, List.getElem_append_right hge] at hbyte
    exact hnone (hbyte ▸ List.getElem_mem _)
  · rw [hmem]
    rcases hcases with rfl | ⟨d', rfl⟩
    · have hnul := h.nul
      rw [List.append_nil] at hnul
      rw [hnul]
      exact ite_self 0
    · have hlt : (t ++ w).length < (t ++ w ++ 47 :: d').length := by simp
      have hbyte := h.getElem hlt
      rw [List.getElem_append_right (le_refl _)] at hbyte
      refine if_pos ⟨⟨?_, Nat.add_lt_add_left hlt p⟩, hbyte.trans (by simp)⟩
      exact Nat.add_le_add_left (List.prefix_append t w).length_le p

theorem stringAt_firstPiece (h : StringAt mem p s) (hmem : ∀ q, mem' q =
      if (p + prefixLength s ≤ q ∧ q < p + s.length) ∧ mem q = 47 then 0 else mem q) :
    StringAt mem' p (firstPiece s) := by
  have hlength : (s.take (prefixLength s)).length = prefixLength s :=
    List.length_take_of_le (Nat.sub_le _ _)
  rw [← (take_prefixLength s).1] at h
  refine stringAt_cut h fun q ↦ ?_
  rw [hmem, hlength, (take_prefixLength s).1]

/-- A pathname without a slash behind its prefixes stays as it is. -/
theorem readPathnameAt_same (h : StringAt mem p s) (hfuel : s.length < fuel)
    (hone : (47 : UInt8) ∉ remainder s) {split : SplitPath}
    (hsplit : readPathnameAt fuel st mem p fdt (fun _ ↦ 0) = some split) :
    StringAt (SplitPath.mem mem split) p s := by
  rcases readPathnameAt_mem h hfuel hsplit with ⟨rfl, -⟩ | hmem
  · exact h
  · have hcut := stringAt_firstPiece h hmem
    rwa [firstPiece_of_notMem hone] at hcut

theorem checkPathname_same (h : StringAt mem p s) (hfuel : s.length < fuel)
    (hblank : (32 : UInt8) ∉ s) : ∃ ret, checkPathname fuel mem p = some (ret, mem) := by
  have hdrop : s.dropWhile (· = 32) = s := by
    cases s with
    | nil => rfl
    | cons c s =>
        rw [List.dropWhile_cons_of_neg]
        simpa using (List.ne_of_not_mem_cons hblank).symm
  by_cases hname : BeginsName s
  · obtain ⟨m₁, hstring, hcheck, hsame⟩ := checkPathname_accepted h hfuel (hdrop.symm ▸ hname)
      (.inl hdrop)
    obtain ⟨u, c, w, b, hparts, -, -, hlast, hpass, -⟩ := exists_nameParts hname
    rw [hsame hdrop, hdrop] at hcheck
    refine ⟨SUCCESS, hcheck.trans ?_⟩
    rw [hparts] at h hblank ⊢
    rw [cutBlanks_same hlast hpass (fun hmem ↦ hblank (by simp_all)) h]
  · exact ⟨ERROR, checkPathname_rejected h hfuel (hdrop.symm ▸ hname)⟩

theorem cstringAt_chars (h : StringAt mem p s) {name : CString}
    (hname : cstringAt fuel mem p = some name) : name.chars = s :=
  (cstringAt_eq_some hname).unique h

theorem readLoop_bounds {ino : MyInode} {numBytes position : ℤ} {n k : ℕ} {output : List UInt8}
    {r : ReadResult} (h : readLoop st ino numBytes n k position output = some r) :
    r.nulAt = some numBytes ∧ r.bytes.length ≤ output.length + k := by
  induction n generalizing k position output with
  | zero =>
      cases k with
      | zero =>
          cases h
          exact ⟨rfl, le_rfl⟩
      | succ k => cases h
  | succ n ih =>
      cases k with
      | zero =>
          cases h
          exact ⟨rfl, le_rfl⟩
      | succ k =>
          obtain ⟨ptr, -, h⟩ := Option.bind_eq_some_iff.mp h
          split at h
          · cases h
            exact ⟨rfl, Nat.le_add_right _ _⟩
          · dsimp only at h
            split at h
            · obtain ⟨hnul, hbytes⟩ := ih h
              refine ⟨hnul, hbytes.trans ?_⟩
              rw [List.length_append, length_readBytes]
              omega
            · cases h

theorem rdRead_bounds {cur : Process} {fid : ℤ} {size : ℕ} {k k' : State area} {r : ReadResult}
    (hsize : size < 2147483648) (h : Filesys.rdRead cur fid size k = some (r, k')) :
    r.bytes.length ≤ size ∧ ∀ i, r.nulAt = some i → 0 ≤ i ∧ i ≤ size := by
  have hnone : ∀ i, (none : Option ℤ) = some i → 0 ≤ i ∧ i ≤ (size : ℤ) := fun i hi ↦ by cases hi
  rw [Filesys.rdRead] at h
  dsimp only at h
  split at h
  · cases h
    exact ⟨Nat.zero_le _, hnone⟩
  · obtain ⟨ino, -, h⟩ := Option.bind_eq_some_iff.mp h
    obtain ⟨r', hread, h⟩ := Option.bind_eq_some_iff.mp h
    cases h
    rw [readFile] at hread
    split at hread
    · cases hread
      exact ⟨Nat.zero_le _, hnone⟩
    · split at hread
      · cases hread
        exact ⟨Nat.zero_le _, hnone⟩
      · have hmin : ∀ left : ℕ, toInt (if left < toUInt32 (size : ℤ) then left
            else toUInt32 (size : ℤ)) = (min left size : ℕ) := fun left ↦ by
          rw [toUInt32_of_lt (by omega)]
          split <;> rw [toInt_of_lt (by omega)] <;> omega
        dsimp only at hread
        rw [hmin, Int.toNat_natCast] at hread
        obtain ⟨hnul, hbytes⟩ := readLoop_bounds hread
        rw [List.length_nil, Nat.zero_add] at hbytes
        refine ⟨hbytes.trans (min_le_right _ _), fun i hi ↦ ?_⟩
        cases hnul.symm.trans hi
        exact ⟨Int.natCast_nonneg _, Int.ofNat_le.mpr (min_le_right _ _)⟩

theorem stringAt_store {addr size : ℕ} {r : ReadResult} (h : StringAt mem p s)
    (hbytes : r.bytes.length ≤ size) (hnul : ∀ i, r.nulAt = some i → 0 ≤ i ∧ i ≤ size)
    (hapart : addr + size < p ∨ p + s.length < addr) :
    StringAt (ReadResult.store addr mem r) p s := by
  refine h.congr fun k hk ↦ ?_
  rw [ReadResult.store, writeBytes_of_disjoint (by omega)]
  cases hi : r.nulAt with
  | none => rfl
  | some i =>
      have hrange := hnul i hi
      exact (Function.update_of_ne (by omega) _ _).symm

end Memory

/-! ## Calls with one buffer -/

section Calls

variable {pid ret : ℤ} {p : ℕ} {t : List UInt8} {cur : Process} {s s' : UserSystem area}

/-- The pathname that a call of the module is about. -/
def Call.pathname? : Call → Option CString
  | .creat pathname _ _ | .mkdir pathname _ | .openPath pathname _ | .unlink pathname
  | .chmod pathname _ => some pathname
  | _ => none

/-- The process keeps all its pathnames at `p` and reads into other memory. -/
def UsesBuffer (pid : ℤ) (p n : ℕ) (e : UserEvent) : Prop :=
  e.cur.pid = pid → match e.call with
    | .creat pathname _ _ | .mkdir pathname _ | .unlink pathname | .openPath pathname _
    | .chmod pathname _ => pathname = p
    | .read _ addr size => size < 2147483648 ∧ (addr + size < p ∨ p + n < addr)
    | _ => True

theorem UsesBuffer.mono {n n' : ℕ} {e : UserEvent} (h : UsesBuffer pid p n e) (hle : n' ≤ n) :
    UsesBuffer pid p n' e := by
  intro hpid
  have huses := h hpid
  cases hcall : e.call with
  | read fid addr size =>
      rw [hcall] at huses
      exact ⟨huses.1, huses.2.imp_right (Nat.add_le_add_left hle p).trans_lt⟩
  | _ =>
      rw [hcall] at huses
      exact huses

/-- The string is still there, and what the process told the module was about it. -/
structure Names (pid : ℤ) (p : ℕ) (t : List UInt8) (s s' : UserSystem area) : Prop where
  string : StringAt (s'.users pid).mem p t
  told : ∃ later, s'.sent = s.sent ++ later ∧ ∀ e ∈ later, e.cur.pid = pid →
    ∀ name, Call.pathname? e.call = some name → name.chars = t

theorem Names.refl (h : StringAt (s.users pid).mem p t) : Names pid p t s s :=
  ⟨h, [], (List.append_nil _).symm, fun _ he ↦ (List.not_mem_nil he).elim⟩

theorem Names.trans {s'' : UserSystem area} (h : Names pid p t s s') (h' : Names pid p t s' s'') :
    Names pid p t s s'' := by
  obtain ⟨later, hsent, hnames⟩ := h.told
  obtain ⟨later', hsent', hnames'⟩ := h'.told
  refine ⟨h'.string, later ++ later', by rw [hsent', hsent, List.append_assoc], ?_⟩
  exact List.forall_mem_append.mpr ⟨hnames, hnames'⟩

theorem Names.of_setUser {u : UserProcess} (h : Names pid p t (s.setUser cur u) s') :
    Names pid p t s s' :=
  ⟨h.string, h.told⟩

theorem Names.setUser {u : UserProcess} (h : Names pid p t s s') (hpid : cur.pid = pid)
    (hu : StringAt u.mem p t) : Names pid p t s (s'.setUser cur u) := by
  refine ⟨?_, h.told⟩
  rw [← hpid, setUser_users]
  exact hu

theorem openProcRandisk_mem (opened : ℤ) (u : UserProcess) :
    (openProcRandisk opened u).2.mem = u.mem := by
  rw [openProcRandisk]
  split <;> rfl

theorem ioctl_names {call : Call} {touch : Touch area}
    (h : ioctl cur call touch s = some (ret, s')) (hpid : cur.pid = pid)
    (hname : ∀ name, Call.pathname? call = some name → name.chars = t)
    (hstring : StringAt (s.users pid).mem p t)
    (htouch : ∀ mem, touch s.kernel (s.users pid).mem = some mem → StringAt mem p t) :
    Names pid p t s s' := by
  rw [ioctl] at h
  split at h
  · cases h
    exact .refl hstring
  · obtain ⟨mem, hmem, h⟩ := Option.bind_eq_some_iff.mp h
    obtain ⟨⟨reply, kernel⟩, -, h⟩ := Option.bind_eq_some_iff.mp h
    cases h
    rw [UserSystem.user, hpid] at hmem
    refine ⟨((Names.refl hstring).setUser hpid (htouch mem hmem)).string, [⟨cur, call⟩], rfl, ?_⟩
    exact List.forall_mem_singleton.mpr fun _ ↦ hname

theorem withRamdisk_names {opened : ℤ} {next : UserSystem area → Option (ℤ × UserSystem area)}
    (h : withRamdisk cur opened s next = some (ret, s')) (hpid : cur.pid = pid)
    (hstring : StringAt (s.users pid).mem p t)
    (hnext : ∀ u, StringAt (u.users pid).mem p t → next u = some (ret, s') →
      Names pid p t u s') : Names pid p t s s' := by
  have hopened : StringAt (openProcRandisk opened (s.user cur)).2.mem p t := by
    rw [openProcRandisk_mem, UserSystem.user, hpid]
    exact hstring
  have hset := (Names.refl hstring).setUser hpid hopened
  rw [withRamdisk] at h
  dsimp only at h
  split at h
  · cases h
    exact hset
  · exact (hnext _ hset.string h).of_setUser

theorem withPathname_names {next : CString → UserSystem area → Option (ℤ × UserSystem area)}
    (h : withPathname fuel cur p s next = some (ret, s')) (hpid : cur.pid = pid)
    (hstring : StringAt (s.users pid).mem p t) (hfuel : t.length < fuel)
    (hblank : (32 : UInt8) ∉ t)
    (hnext : ∀ name u, name.chars = t → StringAt (u.users pid).mem p t →
      u.kernel = s.kernel → next name u = some (ret, s') → Names pid p t u s') :
    Names pid p t s s' := by
  obtain ⟨⟨r, mem⟩, hcheck, h⟩ := Option.bind_eq_some_iff.mp h
  obtain ⟨r', hsame⟩ := checkPathname_same hstring hfuel hblank
  rw [UserSystem.user, hpid] at hcheck
  cases hsame.symm.trans hcheck
  have hset : Names pid p t s (s.setMem cur (s.users pid).mem) :=
    (Names.refl hstring).setUser hpid hstring
  dsimp only at h
  split at h
  · cases h
    exact hset
  · obtain ⟨name, hname, h⟩ := Option.bind_eq_some_iff.mp h
    exact (hnext name _ (cstringAt_chars hstring hname) hset.string rfl h).of_setUser

theorem cutNewPathname_cases {pathname : ℕ} {k : State area} {mem mem' : ℕ → UInt8}
    (h : cutNewPathname fuel cur pathname k mem = some mem') :
    (mem' = mem ∧ (k.store.superblock.freeBlockNumber < 1 ∨
        k.store.superblock.freeInodeNumber < 1)) ∨
      cutPathname fuel cur pathname k mem = some mem' := by
  rw [cutNewPathname] at h
  split at h
  · next hfull =>
    cases h
    exact .inl ⟨rfl, hfull⟩
  · exact .inr h

theorem cutPathname_same {k : State area} {mem mem' : ℕ → UInt8} (hstring : StringAt mem p t)
    (hfuel : t.length < fuel) (hone : (47 : UInt8) ∉ remainder t)
    (h : cutPathname fuel cur p k mem = some mem') : StringAt mem' p t := by
  obtain ⟨split, hsplit, rfl⟩ := Option.map_eq_some_iff.mp h
  exact readPathnameAt_same hstring hfuel hone hsplit

theorem userCall_names {e : UserEvent} (hstring : StringAt (s.users pid).mem p t)
    (hfuel : t.length < fuel) (hblank : (32 : UInt8) ∉ t) (hone : (47 : UInt8) ∉ remainder t)
    (huses : UsesBuffer pid p t.length e) (hcall : userCall fuel s e = some (ret, s')) :
    Names pid p t s s' := by
  by_cases hpid : e.cur.pid = pid
  · have huses := huses hpid
    obtain ⟨cur, opened, call⟩ := e
    dsimp only at hpid huses
    have hkept : ∀ {name : CString}, name.chars = t → ∀ {name'}, some name = some name' →
        name'.chars = t := fun hname name' heq ↦ Option.some.inj heq ▸ hname
    have hnone : ∀ name : CString, (none : Option CString) = some name → name.chars = t :=
      fun name hname ↦ by cases hname
    cases call with
    | creat pathname mode fresh =>
        subst huses
        have hcall : rdCreat fuel cur opened s pathname mode fresh = some (ret, s') := hcall
        refine withRamdisk_names hcall hpid hstring fun u hu hnext ↦ ?_
        refine withPathname_names hnext hpid hu hfuel hblank fun name v hname hv _ hioctl ↦ ?_
        refine ioctl_names hioctl hpid (fun _ ↦ hkept hname) hv fun mem hmem ↦ ?_
        rcases cutNewPathname_cases hmem with ⟨rfl, -⟩ | hcut
        · exact hv
        · exact cutPathname_same hv hfuel hone hcut
    | mkdir pathname fresh =>
        subst huses
        have hcall : rdMkdir fuel cur opened s pathname fresh = some (ret, s') := hcall
        refine withRamdisk_names hcall hpid hstring fun u hu hnext ↦ ?_
        refine withPathname_names hnext hpid hu hfuel hblank fun name v hname hv _ hmap ↦ ?_
        obtain ⟨r, hioctl, hr⟩ := Option.map_eq_some_iff.mp hmap
        cases hr
        exact ioctl_names hioctl hpid (fun _ ↦ hkept hname) hv fun mem hmem ↦
          Option.some.inj hmem ▸ hv
    | unlink pathname =>
        subst huses
        have hcall : rdUnlink fuel cur opened s pathname = some (ret, s') := hcall
        refine withRamdisk_names hcall hpid hstring fun u hu hnext ↦ ?_
        refine withPathname_names hnext hpid hu hfuel hblank fun name v hname hv _ hmap ↦ ?_
        obtain ⟨r, hioctl, hr⟩ := Option.map_eq_some_iff.mp hmap
        cases hr
        exact ioctl_names hioctl hpid (fun _ ↦ hkept hname) hv fun mem hmem ↦
          Option.some.inj hmem ▸ hv
    | openPath pathname flag =>
        subst huses
        refine withPathname_names hcall hpid hstring hfuel hblank
          fun name v hname hv _ hioctl ↦ ?_
        exact ioctl_names hioctl hpid (fun _ ↦ hkept hname) hv fun mem ↦
          cutPathname_same hv hfuel hone
    | write fid content size =>
        refine withRamdisk_names hcall hpid hstring fun u hu hioctl ↦ ?_
        exact ioctl_names hioctl hpid hnone hu fun mem hmem ↦ Option.some.inj hmem ▸ hu
    | lseek fid position =>
        exact ioctl_names hcall hpid hnone hstring fun mem hmem ↦ Option.some.inj hmem ▸ hstring
    | read fid addr size =>
        have hcall : rdRead cur opened s fid addr size = some (ret, s') := hcall
        refine withRamdisk_names hcall hpid hstring fun u hu hmap ↦ ?_
        obtain ⟨r, hioctl, hr⟩ := Option.map_eq_some_iff.mp hmap
        cases hr
        have hread := ioctl_names hioctl hpid hnone hu fun mem hmem ↦ by
          obtain ⟨⟨r, k⟩, hr, rfl⟩ := Option.map_eq_some_iff.mp hmem
          obtain ⟨hbytes, hnul⟩ := rdRead_bounds huses.1 hr
          exact stringAt_store hu hbytes hnul huses.2
        have hstored := hread.string
        rw [← hpid] at hstored
        refine hread.setUser hpid (hstored.congr fun k hk ↦ ?_)
        have hapart := huses.2
        exact (Function.update_of_ne (by omega) _ _).symm
    | close fid =>
        refine withRamdisk_names hcall hpid hstring fun u hu hioctl ↦ ?_
        exact ioctl_names hioctl hpid hnone hu fun mem hmem ↦ Option.some.inj hmem ▸ hu
    | chmod pathname mode =>
        subst huses
        have hcall : rdChmod fuel cur opened s pathname mode = some (ret, s') := hcall
        refine withRamdisk_names hcall hpid hstring fun u hu hnext ↦ ?_
        refine withPathname_names hnext hpid hu hfuel hblank fun name v hname hv _ hioctl ↦ ?_
        exact ioctl_names hioctl hpid (fun _ ↦ hkept hname) hv fun mem ↦
          cutPathname_same hv hfuel hone
  · obtain ⟨htold, hothers⟩ := userCall_tells hcall
    refine ⟨by rwa [hothers pid (Ne.symm hpid)], ?_⟩
    cases htold with
    | nothing kernel sent =>
        exact ⟨[], by rw [sent, List.append_nil], fun _ he ↦ (List.not_mem_nil he).elim⟩
    | call call reply admitted device kernel sent =>
        refine ⟨[⟨e.cur, call⟩], sent, ?_⟩
        exact List.forall_mem_singleton.mpr fun hown ↦ (hpid hown).elim

theorem run_names {events : List UserEvent} (hstring : StringAt (s.users pid).mem p t)
    (hfuel : t.length < fuel) (hblank : (32 : UInt8) ∉ t) (hone : (47 : UInt8) ∉ remainder t)
    (huses : ∀ e ∈ events, UsesBuffer pid p t.length e)
    (hrun : PartialRun.run (userStep fuel) s events = some s') : Names pid p t s s' := by
  induction events generalizing s with
  | nil =>
      cases hrun
      exact .refl hstring
  | cons e events ih =>
      obtain ⟨u, hstep, hrest⟩ := (PartialRun.run_cons_eq_some_iff _).mp hrun
      obtain ⟨⟨ret, u⟩, hcall, rfl⟩ := Option.map_eq_some_iff.mp hstep
      obtain ⟨hfirst, huses⟩ := List.forall_mem_cons.mp huses
      have hnames := userCall_names hstring hfuel hblank hone hfirst hcall
      exact hnames.trans (ih hnames.string huses hrest)

/-! ## The call that cuts -/

/-- The functions whose pathname the module reads where the caller keeps it. -/
def UserCall.Cuts (p : ℕ) : UserCall → Prop
  | .creat pathname _ _ | .openPath pathname _ | .chmod pathname _ => pathname = p
  | _ => False

theorem withRamdisk_of_ne {opened : ℤ} {next : UserSystem area → Option (ℤ × UserSystem area)}
    (h : withRamdisk cur opened s next = some (ret, s')) (hret : ret ≠ ERROR) :
    ∃ u : UserProcess, u.mem = (s.user cur).mem ∧ next (s.setUser cur u) = some (ret, s') := by
  rw [withRamdisk] at h
  dsimp only at h
  split at h
  · cases h
    exact (hret rfl).elim
  · exact ⟨_, openProcRandisk_mem opened _, h⟩

theorem withPathname_of_ne {next : CString → UserSystem area → Option (ℤ × UserSystem area)}
    (h : withPathname fuel cur p s next = some (ret, s')) (hret : ret ≠ ERROR)
    (hstring : StringAt (s.user cur).mem p t) (hfuel : t.length < fuel)
    (hblank : (32 : UInt8) ∉ t) : ∃ name, name.chars = t ∧
      next name (s.setMem cur (s.user cur).mem) = some (ret, s') := by
  obtain ⟨⟨r, mem⟩, hcheck, h⟩ := Option.bind_eq_some_iff.mp h
  obtain ⟨r', hsame⟩ := checkPathname_same hstring hfuel hblank
  cases hsame.symm.trans hcheck
  dsimp only at h
  split at h
  · cases h
    exact (hret rfl).elim
  · obtain ⟨name, hname, h⟩ := Option.bind_eq_some_iff.mp h
    exact ⟨name, cstringAt_chars hstring hname, h⟩

theorem ioctl_of_ne {call : Call} {touch : Touch area}
    (h : ioctl cur call touch s = some (ret, s')) (hret : ret ≠ ERROR) :
    ∃ mem reply kernel, touch s.kernel (s.user cur).mem = some mem ∧
      ramdiskIoctl s.kernel ⟨cur, call⟩ = some (reply, kernel) ∧ reply.ret = ret ∧
      s'.sent = s.sent ++ [⟨cur, call⟩] ∧ (s'.users cur.pid).mem = mem := by
  rw [ioctl] at h
  split at h
  · cases h
    exact (hret rfl).elim
  · obtain ⟨mem, hmem, h⟩ := Option.bind_eq_some_iff.mp h
    obtain ⟨⟨reply, kernel⟩, hkernel, h⟩ := Option.bind_eq_some_iff.mp h
    cases h
    exact ⟨mem, reply, kernel, hmem, hkernel, rfl, rfl,
      congrArg UserProcess.mem (setUser_users s cur _)⟩

/-- A pathname that `read_pathname` rejects is resolved outside the inode table. -/
theorem lookup_of_rejected {st : Store area} {fdt : FDT}
    (h : readPathname st fdt t = some .error) :
    lookup st fdt t = none ∧ lookupNew st fdt t = none := by
  have hresolve : resolve st fdt t = none := by
    rw [resolve, h]
    rfl
  rw [lookup, lookupNew, hresolve]
  exact ⟨rfl, rfl⟩

theorem cutPathname_firstPiece {k : State area} {mem mem' : ℕ → UInt8}
    (hstring : StringAt mem p t) (hfuel : t.length < fuel)
    (hread : readPathname k.store (getFDT cur k).1 t ≠ some .error)
    (h : cutPathname fuel cur p k mem = some mem') : StringAt mem' p (firstPiece t) := by
  obtain ⟨split, hsplit, rfl⟩ := Option.map_eq_some_iff.mp h
  have hmem := (readPathnameAt_mem hstring hfuel hsplit).resolve_left fun herror ↦ hread herror.2
  exact stringAt_firstPiece hstring hmem

/-- A call of the module that returns without an error has found its pathname. -/
theorem readPathname_of_reply {k k' : State area} {call : Call} {reply : Reply} {name : CString}
    (hcall : (∃ mode fresh, call = .creat name mode fresh) ∨ (∃ flag, call = .openPath name flag) ∨
      ∃ mode, call = .chmod name mode)
    (h : ramdiskIoctl k ⟨cur, call⟩ = some (reply, k')) (hret : reply.ret ≠ ERROR) :
    readPathname k.store (getFDT cur k).1 name.chars ≠ some .error := by
  intro hrejected
  obtain ⟨hlookup, hlookupNew⟩ := lookup_of_rejected hrejected
  rw [← getFDT_store cur k] at hlookup hlookupNew
  rcases hcall with ⟨mode, fresh, rfl⟩ | ⟨flag, rfl⟩ | ⟨mode, rfl⟩
  · obtain ⟨r, hcreat, hr⟩ := Option.map_eq_some_iff.mp h
    cases hr
    rw [Filesys.rdCreat, create] at hcreat
    split at hcreat
    · cases hcreat
      exact hret rfl
    · obtain ⟨found, hfound, -⟩ := Option.bind_eq_some_iff.mp hcreat
      cases hlookupNew.symm.trans hfound
  · obtain ⟨r, hopen, hr⟩ := Option.map_eq_some_iff.mp h
    cases hr
    rw [Filesys.rdOpen] at hopen
    dsimp only at hopen
    split at hopen
    · cases hopen
    · obtain ⟨found, hfound, -⟩ := Option.bind_eq_some_iff.mp hopen
      cases hlookup.symm.trans hfound
  · obtain ⟨r, hchmod, hr⟩ := Option.map_eq_some_iff.mp h
    cases hr
    obtain ⟨found, hfound, -⟩ := Option.bind_eq_some_iff.mp hchmod
    cases hlookup.symm.trans hfound

theorem not_full_of_reply {k k' : State area} {mode : ℤ} {fresh : ℕ → UInt8} {reply : Reply}
    {name : CString} (h : ramdiskIoctl k ⟨cur, .creat name mode fresh⟩ = some (reply, k'))
    (hret : reply.ret ≠ ERROR) :
    ¬ (k.store.superblock.freeBlockNumber < 1 ∨ k.store.superblock.freeInodeNumber < 1) := by
  intro hfull
  obtain ⟨r, hcreat, hr⟩ := Option.map_eq_some_iff.mp h
  cases hr
  rw [Filesys.rdCreat, create, if_pos hfull] at hcreat
  cases hcreat
  exact hret rfl

/-- The module was told the whole pathname, and its first piece is left. -/
structure CutsPathname (cur : Process) (p : ℕ) (t : List UInt8) (s s' : UserSystem area) : Prop where
  string : StringAt (s'.users cur.pid).mem p (firstPiece t)
  told : ∃ call name, s'.sent = s.sent ++ [⟨cur, call⟩] ∧ Call.pathname? call = some name ∧
    name.chars = t

theorem ioctl_cuts {call : Call} {touch : Touch area} {name : CString}
    (h : ioctl cur call touch s = some (ret, s')) (hret : ret ≠ ERROR)
    (hcall : Call.pathname? call = some name) (hname : name.chars = t)
    (htouch : ∀ reply kernel mem, ramdiskIoctl s.kernel ⟨cur, call⟩ = some (reply, kernel) →
      reply.ret ≠ ERROR → touch s.kernel (s.user cur).mem = some mem →
      StringAt mem p (firstPiece t)) : CutsPathname cur p t s s' := by
  obtain ⟨mem, reply, kernel, hmem, hreply, hreplyRet, hsent, hnew⟩ := ioctl_of_ne h hret
  refine ⟨?_, call, name, hsent, hcall, hname⟩
  rw [hnew]
  exact htouch reply kernel mem hreply (hreplyRet ▸ hret) hmem

theorem userCall_cuts {e : UserEvent} (hcuts : e.call.Cuts p)
    (hstring : StringAt (s.users e.cur.pid).mem p t) (hfuel : t.length < fuel)
    (hblank : (32 : UInt8) ∉ t) (h : userCall fuel s e = some (ret, s')) (hret : ret ≠ ERROR) :
    CutsPathname e.cur p t s s' := by
  obtain ⟨cur, opened, call⟩ := e
  have hopened : ∀ u : UserProcess, u.mem = (s.user cur).mem →
      StringAt ((s.setUser cur u).user cur).mem p t := fun u hu ↦ by
    rw [UserSystem.user, setUser_users, hu]
    exact hstring
  have hchecked : ∀ v : UserSystem area, StringAt (v.user cur).mem p t →
      StringAt ((v.setMem cur (v.user cur).mem).user cur).mem p t := fun v hv ↦ by
    rw [UserSystem.setMem, UserSystem.user, setUser_users]
    exact hv
  cases call with
  | creat pathname mode fresh =>
      subst hcuts
      have h : rdCreat fuel cur opened s pathname mode fresh = some (ret, s') := h
      obtain ⟨u, hu, h⟩ := withRamdisk_of_ne h hret
      obtain ⟨name, hname, h⟩ := withPathname_of_ne h hret (hopened u hu) hfuel hblank
      have hown := hchecked _ (hopened u hu)
      have hcut := ioctl_cuts h hret rfl hname fun reply kernel mem hreply hne hmem ↦ by
        have hfull := not_full_of_reply hreply hne
        rw [cutNewPathname, if_neg hfull] at hmem
        exact cutPathname_firstPiece hown hfuel
          (hname ▸ readPathname_of_reply (.inl ⟨_, _, rfl⟩) hreply hne) hmem
      exact ⟨hcut.string, hcut.told⟩
  | openPath pathname flag =>
      subst hcuts
      obtain ⟨name, hname, h⟩ := withPathname_of_ne h hret hstring hfuel hblank
      have hown := hchecked s hstring
      have hcut := ioctl_cuts h hret rfl hname fun reply kernel mem hreply hne hmem ↦
        cutPathname_firstPiece hown hfuel
          (hname ▸ readPathname_of_reply (.inr (.inl ⟨_, rfl⟩)) hreply hne) hmem
      exact ⟨hcut.string, hcut.told⟩
  | chmod pathname mode =>
      subst hcuts
      have h : rdChmod fuel cur opened s pathname mode = some (ret, s') := h
      obtain ⟨u, hu, h⟩ := withRamdisk_of_ne h hret
      obtain ⟨name, hname, h⟩ := withPathname_of_ne h hret (hopened u hu) hfuel hblank
      have hown := hchecked _ (hopened u hu)
      have hcut := ioctl_cuts h hret rfl hname fun reply kernel mem hreply hne hmem ↦
        cutPathname_firstPiece hown hfuel
          (hname ▸ readPathname_of_reply (.inr (.inr ⟨_, rfl⟩)) hreply hne) hmem
      exact ⟨hcut.string, hcut.told⟩
  | _ => exact hcuts.elim

end Calls

/-! ## Reused buffers -/

/-- After a call of `rd_creat`, `rd_open` or `rd_chmod` that succeeds, all later calls with
the same buffer are about the first piece of the pathname, whatever the process and the
others call. -/
theorem reused_pathname {p : ℕ} {t : List UInt8} {ret : ℤ} {e : UserEvent}
    {events : List UserEvent} {s s₁ s₂ : UserSystem area}
    (hstring : StringAt (s.users e.cur.pid).mem p t) (hblank : (32 : UInt8) ∉ t)
    (hfuel : t.length < fuel) (hcuts : e.call.Cuts p)
    (hfirst : userCall fuel s e = some (ret, s₁)) (hret : ret ≠ ERROR)
    (huses : ∀ e' ∈ events, UsesBuffer e.cur.pid p t.length e')
    (hrun : PartialRun.run (userStep fuel) s₁ events = some s₂) :
    ∃ call name later, s₂.sent = s.sent ++ ⟨e.cur, call⟩ :: later ∧
      Call.pathname? call = some name ∧ name.chars = t ∧
      ∀ e' ∈ later, e'.cur.pid = e.cur.pid → ∀ name', Call.pathname? e'.call = some name' →
        name'.chars = firstPiece t := by
  obtain ⟨hcut, call, name, hsent, hcall, hname⟩ :=
    userCall_cuts hcuts hstring hfuel hblank hfirst hret
  have hinitial := firstPiece_prefix t
  have hlength := hinitial.length_le
  have huses' : ∀ e' ∈ events, UsesBuffer e.cur.pid p (firstPiece t).length e' := by
    exact fun e' he' ↦ (huses e' he').mono hlength
  obtain ⟨-, later, hlater, hnames⟩ := run_names hcut (hlength.trans_lt hfuel)
    (fun hmem ↦ hblank (hinitial.subset hmem)) (notMem_remainder_firstPiece t) huses' hrun
  refine ⟨call, name, later, ?_, hcall, hname, hnames⟩
  rw [hlater, hsent, List.append_assoc, List.singleton_append]

/-- The strings `a` at 32 and `a/b` at 64. -/
def reuseMemory : ℕ → UInt8 := writeBytes (writeBytes (fun _ ↦ 0) 64 [97, 47, 98]) 32 [97]

def reuseCall (call : UserCall) : UserEvent := ⟨sampleProcess, 3, call⟩

/-- `a/b` is created, and the next `rd_open` with its pathname opens `a`. -/
theorem reused_pathname_dir : ∃ s s₁ s₂ : UserSystem sampleArea,
    PartialRun.run (userStep 8) (started sampleArea fun _ ↦ reuseMemory)
        [reuseCall (.mkdir 32 fun _ ↦ 0)] = some s ∧
      userCall 8 s (reuseCall (.creat 64 420 fun _ ↦ 0)) = some (SUCCESS, s₁) ∧
      PartialRun.run (userStep 8) s₁ [reuseCall (.openPath 64 2)] = some s₂ ∧
      ∃ call name later, s₂.sent = s.sent ++ ⟨sampleProcess, call⟩ :: later ∧
        Call.pathname? call = some name ∧ name.chars = [97, 47, 98] ∧
        ∀ e' ∈ later, e'.cur.pid = sampleProcess.pid → ∀ name', Call.pathname? e'.call = some name' →
          name'.chars = [97] := by
  have hruns : ((PartialRun.run (userStep 8) (started sampleArea fun _ ↦ reuseMemory)
      [reuseCall (.mkdir 32 fun _ ↦ 0)]).bind fun s ↦
        if readBytes (s.users 100).mem 64 4 = [97, 47, 98, 0] then
          (userCall 8 s (reuseCall (.creat 64 420 fun _ ↦ 0))).bind fun r ↦
            if r.1 = SUCCESS then
              (PartialRun.run (userStep 8) r.2 [reuseCall (.openPath 64 2)]).map fun s₂ ↦
                s₂.sent.length
            else none
        else none) = some 3 := by decide +kernel
  obtain ⟨s, hs, hruns⟩ := Option.bind_eq_some_iff.mp hruns
  split at hruns
  · next hbytes =>
    obtain ⟨⟨ret, s₁⟩, hfirst, hruns⟩ := Option.bind_eq_some_iff.mp hruns
    split at hruns
    · next hret =>
      obtain rfl := hret
      obtain ⟨s₂, hlast, -⟩ := Option.map_eq_some_iff.mp hruns
      have hstring : StringAt (s.users sampleProcess.pid).mem 64 [97, 47, 98] :=
        ⟨by decide, hbytes⟩
      have hcuts : (reuseCall (.creat 64 420 fun _ ↦ 0)).call.Cuts 64 := rfl
      exact ⟨s, s₁, s₂, hs, hfirst, hlast, reused_pathname hstring (by decide) (by decide) hcuts
        hfirst (by decide) (List.forall_mem_singleton.mpr fun _ ↦ rfl) hlast⟩
    · cases hruns
  · cases hruns

end OperatingSystem.Filesys.UserInterface
