import OperatingSystem.Filesys.PathStrings
import OperatingSystem.Lib.CStrings

/-!
# Splitting in place

`read_pathname` on the memory that holds the pathname: it cuts the string at the
slashes by writing NULs into it while it scans it, and stores the start of each
piece in `parentlist`. The list model of the other modules is what it leaves there.
-/

namespace OperatingSystem.Filesys

open ByteMemory

variable {area : Area}

/-! ## The function on memory -/

/-- The first loop: `back` and `pn` behind it. -/
def stripBackAt (mem : ℕ → UInt8) : ℕ → ℕ → Option (ℕ × ℕ)
  | 0, _ => none
  | fuel + 1, pn =>
      if startsWith mem pn [46, 46, 47] then
        (stripBackAt mem fuel (pn + 3)).map fun r ↦ (r.1 + 1, r.2)
      else some (0, pn)

/-- What the loop that cuts the pathname changes. -/
structure Cut where
  mem : ℕ → UInt8
  parentlist : ℕ → ℕ
  j : ℕ
  k : ℕ

/-- One round of it at `pn[i]`. -/
def Cut.round (pn i : ℕ) (c : Cut) : Cut :=
  if c.mem (pn + i) ≠ 47 then { c with j := c.j + 1 }
  else
    { mem := Function.update c.mem (pn + (i - c.j) + c.j) 0
      parentlist := Function.update c.parentlist c.k (pn + (i - c.j))
      j := 0
      k := c.k + 1 }

/-- The next `n` rounds. -/
def Cut.rounds (pn : ℕ) : ℕ → ℕ → Cut → Cut
  | 0, _, c => c
  | n + 1, i, c => Cut.rounds pn n (i + 1) (c.round pn i)

/-- What `read_pathname` returns and leaves in memory. -/
inductive SplitPath where
  | error
  | parsed (desIndex : ℕ) (mem : ℕ → UInt8) (parentlist : ℕ → ℕ) (childfile : ℕ)

/-- `read_pathname` on a pathname at an address, `none` where it writes past
`parentlist`. How `parent_index` is followed is a parameter. -/
def readPathnameBy (up : ℕ → ℕ → Option ℕ) (fuel : ℕ) (mem : ℕ → UInt8) (pathname : ℕ) (fdt : FDT)
    (parentlist : ℕ → ℕ) : Option SplitPath := do
  let head ← fdt.fileObjects.head?
  let (back, pn) ← stripBackAt mem fuel pathname
  if back > 0 ∧ back > layerCheck fdt.curPath then some .error
  else do
    let desIndex ← up back head.inodeIndex
    let pn := if startsWith mem pn [46, 47] then pn + 2 else pn
    let (pn, desIndex) := if startsWith mem pn [47] then (pn + 1, 0) else (pn, desIndex)
    let length ← strlen mem fuel pn
    let c := Cut.rounds pn length 0 ⟨mem, parentlist, 0, 0⟩
    -- `parentlist` has 20 slots; a further slash writes past its end
    if c.k ≤ 20 then some (.parsed desIndex c.mem c.parentlist (pn + (length - c.j))) else none

/-- `read_pathname` on a disk: it is undefined where it reads outside the inode table. -/
def readPathnameAt (fuel : ℕ) (st : Store area) (mem : ℕ → UInt8) (pathname : ℕ) (fdt : FDT)
    (parentlist : ℕ → ℕ) : Option SplitPath :=
  readPathnameBy (climb st) fuel mem pathname fdt parentlist

/-- `read_pathname` with any values at `inode_ptr[i].parent_index`, also behind the table. -/
def readPathnameIn (parentIndex : ℕ → ℕ) (fuel : ℕ) (mem : ℕ → UInt8) (pathname : ℕ) (fdt : FDT)
    (parentlist : ℕ → ℕ) : Option SplitPath :=
  readPathnameBy (fun back i ↦ some (parentIndex^[back] i)) fuel mem pathname fdt parentlist

/-! ## The prefixes -/

section Prefixes

variable {mem : ℕ → UInt8} {p : ℕ} {s : List UInt8}

theorem stripBackAt_eq (h : StringAt mem p s) {fuel : ℕ} (hfuel : s.length < fuel) :
    stripBackAt mem fuel p = some ((stripBack s).1, p + 3 * (stripBack s).1) := by
  induction fuel generalizing p s with
  | zero => cases hfuel
  | succ fuel ih =>
      rw [stripBackAt, startsWith_eq h _ (by decide)]
      split
      · next hback =>
        obtain ⟨rest, rfl⟩ := List.isPrefixOf_iff_prefix.mp hback
        have hrest : StringAt mem (p + 3) rest := h.drop (show 3 ≤ _ by simp)
        have hlength : ([46, 46, 47] ++ rest).length = rest.length + 3 := by
          rw [List.length_append]
          exact Nat.add_comm 3 rest.length
        have hstep : stripBack ([46, 46, 47] ++ rest) =
            ((stripBack rest).1 + 1, (stripBack rest).2) :=
          rfl
        rw [ih hrest (by omega), hstep, Option.map_some]
        dsimp only
        rw [Nat.mul_succ, Nat.add_assoc, Nat.add_comm 3]
      · next hback =>
        have hother : stripBack s = (0, s) := stripBack.eq_2 s fun rest hs ↦ hback (by rw [hs]; rfl)
        rw [hother]
        rfl

theorem length_stripBack (s : List UInt8) :
    3 * (stripBack s).1 + (stripBack s).2.length = s.length := by
  fun_induction stripBack s with
  | case1 rest ih =>
      simp only [List.length_cons]
      omega
  | case2 pn _ => exact Nat.zero_add _

theorem length_skipPrefix (pre s : List UInt8) : (skipPrefix pre s).length ≤ s.length := by
  rw [skipPrefix]
  split
  · rw [List.length_drop]
    omega
  · exact le_refl _

theorem stringAt_skipPrefix (h : StringAt mem p s) (pre : List UInt8) (hpre : (0 : UInt8) ∉ pre) :
    StringAt mem (if startsWith mem p pre then p + pre.length else p) (skipPrefix pre s) := by
  rw [startsWith_eq h pre hpre, skipPrefix]
  split
  · next hskip => exact h.drop (List.isPrefixOf_iff_prefix.mp hskip).length_le
  · exact h

end Prefixes

/-! ## The rounds -/

/-- The slots filled and the last piece hold the pieces of `cur ++ rest`, where `cur` was
scanned and `rest` is still to come; memory before the scan and the other slots are as
before. -/
structure Cut.Splits (pn i : ℕ) (c d : Cut) (cur rest : List UInt8) : Prop where
  pieces : List.Forall₂ (StringAt d.mem)
    ((List.range' c.k (rest.count 47)).map d.parentlist ++ [pn + (i + rest.length - d.j)])
    ((cur ++ rest).splitOn 47)
  before : ∀ q < pn + i, d.mem q = c.mem q
  filled : d.k = c.k + rest.count 47
  slots : ∀ slot, slot < c.k ∨ c.k + rest.count 47 ≤ slot → d.parentlist slot = c.parentlist slot

section Rounds

variable {pn i : ℕ} {c d : Cut} {cur rest : List UInt8}

theorem Cut.round_of_ne (h : c.mem (pn + i) ≠ 47) : c.round pn i = { c with j := c.j + 1 } :=
  if_pos h

/-- At a slash the piece is complete: the NUL that ends it takes the slash's place. -/
theorem Cut.round_of_slash (h : c.mem (pn + i) = 47) (hj : c.j ≤ i) :
    c.round pn i = ⟨Function.update c.mem (pn + i) 0,
      Function.update c.parentlist c.k (pn + (i - c.j)), 0, c.k + 1⟩ := by
  have hend : pn + (i - c.j) + c.j = pn + i := by omega
  rw [Cut.round, if_neg (not_not.mpr h), hend]

theorem Cut.Splits.cons_of_ne {x : UInt8} (hx : x ≠ 47)
    (h : Cut.Splits pn (i + 1) { c with j := c.j + 1 } d (cur ++ [x]) rest) :
    c.Splits pn i d cur (x :: rest) := by
  have hcount : (x :: rest).count 47 = rest.count 47 := List.count_cons_of_ne hx
  refine ⟨?_, fun q hq ↦ h.before q (by omega), ?_, fun slot hslot ↦ ?_⟩
  · have hpieces := h.pieces
    rw [List.append_assoc, List.singleton_append] at hpieces
    rw [hcount, List.length_cons, Nat.add_comm rest.length, ← Nat.add_assoc]
    exact hpieces
  · rw [h.filled, hcount]
  · rw [hcount] at hslot
    exact h.slots slot hslot

theorem Cut.Splits.cons_slash (hj : c.j ≤ i) (hlength : cur.length = c.j)
    (hcur : readBytes c.mem (pn + (i - c.j)) c.j = cur) (hslash : (47 : UInt8) ∉ cur)
    (hnul : (0 : UInt8) ∉ cur)
    (h : Cut.Splits pn (i + 1) ⟨Function.update c.mem (pn + i) 0,
      Function.update c.parentlist c.k (pn + (i - c.j)), 0, c.k + 1⟩ d [] rest) :
    c.Splits pn i d cur (47 :: rest) := by
  have hend : pn + (i - c.j) + c.j = pn + i := by omega
  have hcount : (47 :: rest).count 47 = rest.count 47 + 1 := List.count_cons_self
  have hbefore : ∀ q < pn + i, d.mem q = c.mem q := by
    intro q hq
    rw [h.before q (by omega)]
    exact Function.update_of_ne (by omega) _ _
  have hpiece : StringAt d.mem (pn + (i - c.j)) cur := by
    refine .of_bytes hnul ?_ ?_
    · rw [hlength, ← hcur]
      exact readBytes_congr fun k hk ↦ hbefore _ (by omega)
    · rw [hlength, hend, h.before _ (by omega)]
      exact Function.update_self _ _ _
  refine ⟨?_, hbefore, ?_, fun slot hslot ↦ ?_⟩
  · have hfirst := h.slots c.k (.inl (Nat.lt_succ_self _))
    dsimp only at hfirst
    rw [Function.update_self] at hfirst
    rw [List.splitOn_append_cons_self_of_not_mem hslash, hcount, List.range'_succ, List.map_cons,
      List.cons_append, hfirst, List.length_cons, Nat.add_comm rest.length, ← Nat.add_assoc]
    exact .cons hpiece h.pieces
  · rw [h.filled, hcount]
    dsimp only
    omega
  · rw [hcount] at hslot
    rw [h.slots slot (by dsimp only; omega)]
    exact Function.update_of_ne (by omega) _ _

theorem rounds_splits (hj : c.j ≤ i) (hlength : cur.length = c.j)
    (hcur : readBytes c.mem (pn + (i - c.j)) c.j = cur) (hslash : (47 : UInt8) ∉ cur)
    (hnul : (0 : UInt8) ∉ cur) (hrest : StringAt c.mem (pn + i) rest) :
    c.Splits pn i (Cut.rounds pn rest.length i c) cur rest := by
  induction rest generalizing i c cur with
  | nil =>
      have hpiece : StringAt c.mem (pn + (i + 0 - c.j)) cur := by
        refine .of_bytes hnul ?_ ?_
        · rw [hlength, Nat.add_zero, hcur]
        · rw [hlength, Nat.add_zero, Nat.add_assoc, Nat.sub_add_cancel hj]
          exact stringAt_nil.mp hrest
      refine ⟨?_, fun q _ ↦ rfl, rfl, fun slot _ ↦ rfl⟩
      rw [List.append_nil, List.splitOn_eq_singleton hslash]
      exact .cons hpiece .nil
  | cons x rest ih =>
      obtain ⟨hne, hbyte, htail⟩ := stringAt_cons.mp hrest
      rw [Nat.add_assoc] at htail
      rw [List.length_cons, Cut.rounds]
      by_cases hx : x = 47
      · subst hx
        rw [Cut.round_of_slash hbyte hj]
        -- the rest of the string is not touched by the NUL before it
        have hscan : StringAt (Function.update c.mem (pn + i) 0) (pn + (i + 1)) rest :=
          htail.congr fun k _ ↦ (Function.update_of_ne (by omega) _ _).symm
        exact .cons_slash hj hlength hcur hslash hnul
          (ih (Nat.zero_le _) rfl rfl List.not_mem_nil List.not_mem_nil hscan)
      · rw [Cut.round_of_ne (by rwa [hbyte])]
        have hbytes : readBytes c.mem (pn + (i + 1 - (c.j + 1))) (c.j + 1) = cur ++ [x] := by
          rw [Nat.add_sub_add_right, readBytes_add, hcur, Nat.add_assoc, Nat.sub_add_cancel hj]
          simp [readBytes, hbyte]
        refine .cons_of_ne hx (ih (Nat.succ_le_succ hj) ?_ hbytes ?_ ?_ htail)
        · rw [List.length_append, hlength]
          rfl
        · simp [hslash, Ne.symm hx]
        · simp [hnul, Ne.symm hne]

end Rounds

/-! ## Whole pathnames -/

section Whole

variable {st : Store area} {fdt : FDT} {mem : ℕ → UInt8} {p fuel : ℕ} {s : List UInt8}

/-- Where the pieces begin: the pointer behind the prefixes. -/
theorem exists_remainder (up : ℕ → ℕ → Option ℕ) (h : StringAt mem p s)
    (hfuel : s.length < fuel) :
    ∃ pn, StringAt mem pn (remainder s) ∧ (remainder s).length < fuel ∧
      ∀ (head : FileObject) (parentlist : ℕ → ℕ), fdt.fileObjects.head? = some head →
        readPathnameBy up fuel mem p fdt parentlist =
          if (stripBack s).1 > 0 ∧ (stripBack s).1 > layerCheck fdt.curPath then some .error
          else (up (stripBack s).1 head.inodeIndex).bind fun des ↦
            let c := Cut.rounds pn (remainder s).length 0 ⟨mem, parentlist, 0, 0⟩
            if c.k ≤ 20 then
              some (.parsed
                (if [47].isPrefixOf (skipPrefix [46, 47] (stripBack s).2) then 0 else des)
                c.mem c.parentlist (pn + ((remainder s).length - c.j)))
            else none := by
  have hback := length_stripBack s
  have hstripped : StringAt mem (p + 3 * (stripBack s).1) (stripBack s).2 := by
    rw [stripBack_snd]
    exact h.drop (by omega)
  have hdot : StringAt mem (if startsWith mem (p + 3 * (stripBack s).1) [46, 47] then
      p + 3 * (stripBack s).1 + 2 else p + 3 * (stripBack s).1)
      (skipPrefix [46, 47] (stripBack s).2) :=
    stringAt_skipPrefix hstripped [46, 47] (by decide)
  have hshort : (remainder s).length < fuel := by
    have hdots := length_skipPrefix [46, 47] (stripBack s).2
    have hslashes := length_skipPrefix [47] (skipPrefix [46, 47] (stripBack s).2)
    rw [remainder]
    omega
  simp only [readPathnameBy, stripBackAt_eq h hfuel, Option.bind_eq_bind, Option.bind_some]
  generalize (if startsWith mem (p + 3 * (stripBack s).1) [46, 47] then
    p + 3 * (stripBack s).1 + 2 else p + 3 * (stripBack s).1) = q at hdot
  have hslash : StringAt mem (if startsWith mem q [47] then q + 1 else q) (remainder s) :=
    stringAt_skipPrefix hdot [47] (by decide)
  rw [← startsWith_eq hdot [47] (by decide)]
  refine ⟨_, hslash, hshort, fun head parentlist hhead ↦ ?_⟩
  rw [hhead, Option.bind_some]
  split
  · rfl
  · rcases up (stripBack s).1 head.inodeIndex with _ | d
    · rfl
    · rw [Option.bind_some, Option.bind_some]
      cases hstart : startsWith mem q [47] with
      | false =>
          rw [hstart] at hslash
          simp only [Bool.false_eq_true, if_false] at hslash ⊢
          rw [strlen_eq hslash hshort, Option.bind_some]
      | true =>
          rw [hstart] at hslash
          simp only [if_true] at hslash ⊢
          rw [strlen_eq hslash hshort, Option.bind_some]

/-- The strings at the slots and at `childfile` are the pieces of `pn` between its
slashes, nothing is lost, and no other slot was written. -/
structure SplitLossless (pn : List UInt8) (before : ℕ → ℕ) (mem : ℕ → UInt8)
    (parentlist : ℕ → ℕ) (childfile : ℕ) : Prop where
  pieces : List.Forall₂ (StringAt mem)
    ((List.range (pn.count 47)).map parentlist ++ [childfile]) (pn.splitOn 47)
  joined : [47].intercalate (pn.splitOn 47) = pn
  untouched : ∀ slot, pn.count 47 ≤ slot → parentlist slot = before slot

theorem splitLossless_rounds {pn : ℕ} {t : List UInt8} (parentlist : ℕ → ℕ)
    (h : StringAt mem pn t) :
    let c := Cut.rounds pn t.length 0 ⟨mem, parentlist, 0, 0⟩
    c.k = t.count 47 ∧
      SplitLossless t parentlist c.mem c.parentlist (pn + (t.length - c.j)) := by
  have hsplits := @rounds_splits pn 0 ⟨mem, parentlist, 0, 0⟩ [] t (le_refl _) rfl rfl
    List.not_mem_nil List.not_mem_nil h
  have hpieces := hsplits.pieces
  rw [List.nil_append, Nat.zero_add, ← List.range_eq_range'] at hpieces
  refine ⟨hsplits.filled.trans (Nat.zero_add _), hpieces, List.intercalate_splitOn 47, ?_⟩
  exact fun slot hslot ↦ hsplits.slots slot (.inr ((Nat.zero_add _).le.trans hslot))

/-- A pathname that is not rejected is split without loss, wherever its `"../"`
prefixes lead. -/
theorem pathname_split (h : StringAt mem p s) (hfuel : s.length < fuel) {head : FileObject}
    (hhead : fdt.fileObjects.head? = some head) (parentIndex parentlist : ℕ → ℕ)
    (haccepted : readPathnameIn parentIndex fuel mem p fdt parentlist ≠ some .error)
    (hslots : (remainder s).count 47 < 20) :
    ∃ des mem' parentlist' childfile, readPathnameIn parentIndex fuel mem p fdt parentlist =
        some (.parsed des mem' parentlist' childfile) ∧
      SplitLossless (remainder s) parentlist mem' parentlist' childfile := by
  obtain ⟨pn, hpn, -, hread⟩ := @exists_remainder fdt mem p fuel s
    (fun back i ↦ some (parentIndex^[back] i)) h hfuel
  obtain ⟨hcount, hlossless⟩ := splitLossless_rounds parentlist hpn
  have hread := hread head parentlist hhead
  by_cases hrejected : (stripBack s).1 > 0 ∧ (stripBack s).1 > layerCheck fdt.curPath
  · rw [if_pos hrejected] at hread
    exact (haccepted hread).elim
  · have hfew : (Cut.rounds pn (remainder s).length 0 ⟨mem, parentlist, 0, 0⟩).k ≤ 20 := by
      rw [hcount]
      omega
    rw [if_neg hrejected, Option.bind_some, if_pos hfew] at hread
    exact ⟨_, _, _, _, hread, hlossless⟩

theorem climb_eq_iterate {parentIndex : ℕ → ℕ}
    (htable : ∀ i < inodeListNum, parentIndex i = (st.inode i).parentIndex) {back i des : ℕ}
    (h : climb st back i = some des) : parentIndex^[back] i = des := by
  induction back generalizing i with
  | zero => exact Option.some.inj h
  | succ back ih =>
      obtain ⟨ino, hino, h⟩ := Option.bind_eq_some_iff.mp h
      obtain ⟨hi, rfl⟩ := Store.inodeAt_eq_some hino
      rw [Function.iterate_succ_apply, htable i hi]
      exact ih h

/-- Inside the inode table the two agree. -/
theorem readPathnameIn_eq {parentIndex : ℕ → ℕ}
    (htable : ∀ i < inodeListNum, parentIndex i = (st.inode i).parentIndex)
    {parentlist : ℕ → ℕ} {r : SplitPath} (h : readPathnameAt fuel st mem p fdt parentlist = some r) :
    readPathnameIn parentIndex fuel mem p fdt parentlist = some r := by
  obtain ⟨head, hhead, h⟩ := Option.bind_eq_some_iff.mp h
  obtain ⟨⟨back, pn⟩, hback, h⟩ := Option.bind_eq_some_iff.mp h
  simp only [readPathnameIn, readPathnameBy, hhead, hback, Option.bind_eq_bind, Option.bind_some]
  dsimp only at h
  split at h
  · next hrejected => rw [if_pos hrejected, h]
  · next hrejected =>
    obtain ⟨des, hdes, h⟩ := Option.bind_eq_some_iff.mp h
    rw [if_neg hrejected, climb_eq_iterate htable hdes]
    exact h

theorem segments_eq_splitOn (path : List UInt8) : segments path = path.splitOn 47 := by
  induction path with
  | nil => rfl
  | cons c path ih =>
      rw [List.splitOn_cons_eq_if_modifyHead, ← ih]
      by_cases hc : c = 47
      · simp [segments, partition, hc]
      · simp only [segments, partition, hc, if_false, beq_iff_eq]
        rcases partition path with ⟨_ | ⟨piece, pieces⟩, last⟩ <;> rfl

/-- The list model returns the strings that the function leaves in memory. -/
theorem readPathnameAt_refines (h : StringAt mem p s) (hfuel : s.length < fuel)
    (parentlist : ℕ → ℕ) {des : ℕ} {parts : List (List UInt8)} {child : List UInt8}
    (hparsed : readPathname st fdt s = some (.parsed des parts child)) :
    ∃ mem' parentlist' childfile, readPathnameAt fuel st mem p fdt parentlist =
        some (.parsed des mem' parentlist' childfile) ∧
      List.Forall₂ (StringAt mem') ((List.range parts.length).map parentlist' ++ [childfile])
        (parts ++ [child]) := by
  obtain ⟨pn, hpn, -, hread⟩ := @exists_remainder fdt mem p fuel s (climb st) h hfuel
  obtain ⟨hcount, hlossless⟩ := splitLossless_rounds parentlist hpn
  obtain ⟨head, hhead, hparsed⟩ := Option.bind_eq_some_iff.mp hparsed
  have hread := hread head parentlist hhead
  dsimp only at hparsed
  split at hparsed
  · cases hparsed
  · next haccepted =>
    obtain ⟨d, hclimb, hparsed⟩ := Option.bind_eq_some_iff.mp hparsed
    split at hparsed
    · next hfew =>
      cases hparsed
      have hpieces := hlossless.pieces
      have hcut : (partition (remainder s)).1.length ≤ 20 := hfew
      rw [← length_partition, ← segments_eq_splitOn] at hpieces
      rw [← length_partition] at hcount
      rw [if_neg haccepted, hclimb, Option.bind_some, if_pos (hcount.trans_le hcut)] at hread
      exact ⟨_, _, _, hread, hpieces⟩
    · cases hparsed

end Whole

/-! ## A pathname with empty pieces -/

def samplePath : List UInt8 := [46, 46, 47, 46, 47, 97, 47, 47, 98, 99, 47]

theorem pathname_split_sample : ∃ des mem' parentlist' childfile,
    readPathnameIn (fun _ ↦ 65534) 12 (writeBytes (fun _ ↦ 0) 4096 samplePath) 4096
        (createFDT sampleProcess) (fun _ ↦ 0) =
        some (.parsed des mem' parentlist' childfile) ∧
      SplitLossless (remainder samplePath) (fun _ ↦ 0) mem' parentlist' childfile ∧
      (remainder samplePath).splitOn 47 = [[97], [], [98, 99], []] := by
  have hstring : StringAt (writeBytes (fun _ ↦ 0) 4096 samplePath) 4096 samplePath :=
    ⟨by decide, by decide⟩
  have hshort : samplePath.length < 12 := by decide
  have hhead : (createFDT sampleProcess).fileObjects.head? = some _ := rfl
  have hsplit := pathname_split hstring hshort hhead (fun _ ↦ 65534) (fun _ ↦ 0)
    (by rintro ⟨⟩) (by decide)
  obtain ⟨des, mem', parentlist', childfile, hread, hlossless⟩ := hsplit
  exact ⟨des, mem', parentlist', childfile, hread, hlossless, by decide⟩

end OperatingSystem.Filesys
