import OperatingSystem.Filesys.WorkingDirectory

/-!
# Climbing to the root

What `"../"` prefixes do in `read_pathname` and in the string that `rd_open`
builds. Both count the slashes of `cur_path`, which the root directory has too,
and no operation looks at an `ERROR` of `read_pathname`.
-/

namespace OperatingSystem.Filesys

variable {area : Area}

def Store.InUseDirectory (st : Store area) (i : ℕ) : Prop :=
  st.InUse i ∧ (st.inode i).type = .dir

instance (st : Store area) (i : ℕ) : Decidable (st.InUseDirectory i) :=
  inferInstanceAs (Decidable (_ ∧ _))

/-- The path from which `rd_open` starts to go back. -/
def temppath (curPath : List UInt8) : List UInt8 :=
  if curPath = [47] then curPath else curPath ++ [47]

/-- The pathname goes up more often than the current directory lies below the
root. -/
def LeavesRoot (st : Store area) (fdt : FDT) (pathname : List UInt8) : Prop :=
  ∃ i, fdt.workingDirectory = some i ∧ ∃ d < (stripBack pathname).1, climb st d i = some 0

/-- `read_pathname` reports an error for just the pathnames that leave the root,
and otherwise it steps through directories in use and returns one; an error ends
the operation; and going back in the path stays inside it. -/
structure StaysBelowRoot (st : Store area) (fdt : FDT) (pathname : List UInt8) : Prop where
  error : readPathname st fdt pathname = some .error ↔ LeavesRoot st fdt pathname
  steps : readPathname st fdt pathname ≠ some .error → ∃ i, fdt.workingDirectory = some i ∧
    ∀ k ≤ (stripBack pathname).1, ∃ j, climb st k i = some j ∧ st.InUseDirectory j
  index : readPathname st fdt pathname ≠ some .error → ∃ des parentlist childfile,
    readPathname st fdt pathname = some (.parsed des parentlist childfile) ∧ st.InUseDirectory des
  acted : readPathname st fdt pathname = some .error → resolve st fdt pathname = some none
  scan : readPathname st fdt pathname ≠ some .error → ∃ t, backUps (temppath fdt.curPath)
    (stripBack pathname).1 (temppath fdt.curPath).length = some t

/-- The inode and its next `b` ancestors are directories in use, and only the
last of them may be the root. -/
def AncestorsInUse (st : Store area) : ℕ → ℕ → Prop
  | 0, i => st.InUseDirectory i
  | b + 1, i => st.InUseDirectory i ∧ i ≠ 0 ∧ AncestorsInUse st b (st.inode i).parentIndex

/-! ## Going up the tree -/

theorem climb_succ {st : Store area} {i : ℕ} (hi : i < inodeListNum) (k : ℕ) :
    climb st (k + 1) i = climb st k (st.inode i).parentIndex := by
  rw [climb, Store.inodeAt_eq hi, Option.bind_some]

theorem ancestorsInUse_iff {st : Store area} {b i : ℕ} : AncestorsInUse st b i ↔
    (∀ k ≤ b, ∃ j, climb st k i = some j ∧ st.InUseDirectory j) ∧
      ∀ k < b, climb st k i ≠ some 0 := by
  induction b generalizing i with
  | zero =>
      constructor
      · intro h
        refine ⟨fun k hk ↦ ?_, fun k hk ↦ by omega⟩
        obtain rfl : k = 0 := by omega
        exact ⟨i, rfl, h⟩
      · rintro ⟨h, -⟩
        obtain ⟨j, hj, hdir⟩ := h 0 (le_refl 0)
        cases hj
        exact hdir
  | succ b ih =>
      constructor
      · rintro ⟨hdir, hroot, hrest⟩
        obtain ⟨hinside, hbelow⟩ := ih.mp hrest
        refine ⟨fun k hk ↦ ?_, fun k hk ↦ ?_⟩
        · cases k with
          | zero => exact ⟨i, rfl, hdir⟩
          | succ k =>
              rw [climb_succ hdir.1.1]
              exact hinside k (by omega)
        · cases k with
          | zero => exact fun heq ↦ hroot (Option.some.inj heq)
          | succ k =>
              rw [climb_succ hdir.1.1]
              exact hbelow k (by omega)
      · rintro ⟨hinside, hbelow⟩
        obtain ⟨j, hj, hdir⟩ := hinside 0 (by omega)
        cases hj
        refine ⟨hdir, fun heq ↦ hbelow 0 (by omega) (by rw [heq]; rfl), ih.mpr ⟨?_, ?_⟩⟩
        · intro k hk
          rw [← climb_succ hdir.1.1]
          exact hinside (k + 1) (by omega)
        · intro k hk
          rw [← climb_succ hdir.1.1]
          exact hbelow (k + 1) (by omega)

/-! ## Going back in the string -/

theorem backUp_lastSlash {u v rest : List UInt8} (hv : (47 : UInt8) ∉ v) :
    backUp ((u ++ 47 :: v) ++ 47 :: rest) ((u ++ 47 :: v).length + 1) = some (u.length + 1) := by
  have hbefore : ((u ++ 47 :: v) ++ 47 :: rest).take ((u ++ 47 :: v).length + 1 - 1) =
      u ++ 47 :: v := by
    rw [Nat.add_sub_cancel, List.take_left]
  have hlength : (u ++ 47 :: v).length = u.length + 1 + v.length := by
    rw [List.length_append, List.length_cons]
    omega
  rw [backUp, hbefore, findIdx_lastSlash hv, hlength, if_pos (by omega)]
  congr 1
  omega

/-- There is a slash to go back to as often as the path has one before its
last. -/
theorem backUps_defined {p rest : List UInt8} {k : ℕ} :
    (∃ t, backUps (p ++ 47 :: rest) k (p.length + 1) = some t) ↔ k ≤ p.count 47 := by
  induction k generalizing p rest with
  | zero => exact ⟨fun _ ↦ Nat.zero_le _, fun _ ↦ ⟨_, rfl⟩⟩
  | succ k ih =>
      have hcount : ∀ {u v : List UInt8}, (47 : UInt8) ∉ v →
          (u ++ 47 :: v).count 47 = u.count 47 + 1 := by
        intro u v hv
        rw [List.count_append, List.count_cons_self, List.count_eq_zero_of_not_mem hv]
      constructor
      · rintro ⟨t, ht⟩
        obtain ⟨t', ht', ht⟩ := Option.bind_eq_some_iff.mp ht
        obtain ⟨u, v, rfl, hv, rfl⟩ := backUp_eq_some ht'
        rw [List.append_assoc, List.cons_append] at ht
        have hrest := ih.mp ⟨t, ht⟩
        rw [hcount hv]
        omega
      · intro hle
        have hslash : (47 : UInt8) ∈ p := List.count_pos_iff.mp (by omega)
        obtain ⟨u, v, rfl, hv⟩ := exists_lastSlash hslash
        rw [hcount hv] at hle
        obtain ⟨t, ht⟩ := (@ih u (v ++ 47 :: rest)).mpr (by omega)
        refine ⟨t, ?_⟩
        rw [backUps, backUp_lastSlash hv, Option.bind_some, List.append_assoc, List.cons_append]
        exact ht

theorem backUps_temppath {curPath : List UInt8} {k : ℕ} :
    (∃ t, backUps (temppath curPath) k (temppath curPath).length = some t) ↔
      k ≤ layerCheck curPath ∧ (curPath = [47] → k = 0) := by
  by_cases hroot : curPath = [47]
  · subst hroot
    have hdefined := @backUps_defined [] [] k
    refine hdefined.trans ⟨fun h ↦ ?_, fun h ↦ ?_⟩
    · obtain rfl : k = 0 := Nat.le_zero.mp h
      exact ⟨Nat.zero_le _, fun _ ↦ rfl⟩
    · rw [h.2 rfl]
      exact Nat.zero_le _
  · have htemp : temppath curPath = curPath ++ 47 :: [] := if_neg hroot
    rw [htemp, List.length_append, List.length_singleton]
    exact backUps_defined.trans ⟨fun h ↦ ⟨h, fun heq ↦ (hroot heq).elim⟩, fun h ↦ h.1⟩

/-! ## Pathnames that stay below the root -/

section ReadPathname

variable {st : Store area} {fdt : FDT} {pathname : List UInt8}

theorem head_of_workingDirectory {i : ℕ} (hw : fdt.workingDirectory = some i) :
    ∃ head, fdt.fileObjects.head? = some head ∧ head.inodeIndex = i :=
  Option.map_eq_some_iff.mp hw

theorem readPathname_error_iff : readPathname st fdt pathname = some .error ↔
    (∃ i, fdt.workingDirectory = some i) ∧ layerCheck fdt.curPath < (stripBack pathname).1 := by
  constructor
  · intro h
    obtain ⟨head, hhead, h⟩ := Option.bind_eq_some_iff.mp h
    refine ⟨⟨head.inodeIndex, by rw [FDT.workingDirectory, hhead]; rfl⟩, ?_⟩
    dsimp only at h
    split at h
    · next hmore => exact hmore.2
    · obtain ⟨d, -, h⟩ := Option.bind_eq_some_iff.mp h
      split at h <;> cases h
  · rintro ⟨⟨i, hw⟩, hmore⟩
    obtain ⟨head, hhead, -⟩ := head_of_workingDirectory hw
    simp only [readPathname, hhead, Option.bind_eq_bind, Option.bind_some]
    rw [if_pos ⟨by omega, hmore⟩]

theorem readPathname_parsed {i d : ℕ} (hw : fdt.workingDirectory = some i)
    (hle : (stripBack pathname).1 ≤ layerCheck fdt.curPath)
    (hclimb : climb st (stripBack pathname).1 i = some d)
    (hparts : (partition (remainder pathname)).1.length ≤ 20) :
    ∃ des, readPathname st fdt pathname = some (.parsed des (partition (remainder pathname)).1
      (partition (remainder pathname)).2) ∧ (des = d ∨ (StartsAtRoot pathname ∧ des = 0)) := by
  obtain ⟨head, hhead, rfl⟩ := head_of_workingDirectory hw
  have hfew : ¬ ((stripBack pathname).1 > 0 ∧ (stripBack pathname).1 > layerCheck fdt.curPath) :=
    fun h ↦ by omega
  rw [remainder] at hparts ⊢
  refine ⟨if [47].isPrefixOf (skipPrefix [46, 47] (stripBack pathname).2) then 0 else d, ?_, ?_⟩
  · simp only [readPathname, hhead, Option.bind_eq_bind, Option.bind_some, if_neg hfew, hclimb]
    exact if_pos hparts
  · by_cases hroot : StartsAtRoot pathname
    · exact .inr ⟨hroot, if_pos hroot⟩
    · exact .inl (if_neg hroot)

end ReadPathname

/-- `"../"` prefixes never lead out of the root if and only if there are no more
of them than slashes in `cur_path`, none at all where that is `"/"`, the current
directory has as many ancestors in use without passing the root, the root is in
use where the pathname starts over from it, and at most 20 slashes follow. -/
theorem staysBelowRoot_iff (st : Store area) (fdt : FDT) (pathname : List UInt8) :
    StaysBelowRoot st fdt pathname ↔
      (stripBack pathname).1 ≤ layerCheck fdt.curPath ∧
        (fdt.curPath = [47] → (stripBack pathname).1 = 0) ∧
        (∃ i, fdt.workingDirectory = some i ∧ AncestorsInUse st (stripBack pathname).1 i) ∧
        (StartsAtRoot pathname → st.InUseDirectory 0) ∧
        (partition (remainder pathname)).1.length ≤ 20 := by
  constructor
  · intro h
    -- after an error every operation would use an uninitialised name
    have hparsed : readPathname st fdt pathname ≠ some .error := by
      intro herror
      have hacted := h.acted herror
      rw [resolve, herror] at hacted
      cases hacted
    obtain ⟨i, hw, hinside⟩ := h.steps hparsed
    have hbelow : ∀ k < (stripBack pathname).1, climb st k i ≠ some 0 := fun k hk hroot ↦
      hparsed (h.error.mpr ⟨i, hw, k, hk, hroot⟩)
    obtain ⟨des, parentlist, childfile, hresult, hdes⟩ := h.index hparsed
    obtain ⟨hle, hroot⟩ := backUps_temppath.mp (h.scan hparsed)
    refine ⟨hle, hroot, ⟨i, hw, ancestorsInUse_iff.mpr ⟨hinside, hbelow⟩⟩, fun habs ↦ ?_, ?_⟩
    · rcases (readPathname_eq hresult).2 with ⟨-, rfl⟩ | ⟨hnot, -⟩
      · exact hdes
      · exact (hnot habs).elim
    · obtain ⟨head, -, hresult⟩ := Option.bind_eq_some_iff.mp hresult
      dsimp only at hresult
      split at hresult
      · cases hresult
      · obtain ⟨d, -, hresult⟩ := Option.bind_eq_some_iff.mp hresult
        split at hresult
        · next hparts => exact hparts
        · cases hresult
  · rintro ⟨hle, hroot, ⟨i, hw, hancestors⟩, habs, hparts⟩
    obtain ⟨hinside, hbelow⟩ := ancestorsInUse_iff.mp hancestors
    have hparsed : readPathname st fdt pathname ≠ some .error := fun herror ↦ by
      have hmore := (readPathname_error_iff.mp herror).2
      omega
    refine ⟨⟨fun herror ↦ (hparsed herror).elim, ?_⟩, fun _ ↦ ⟨i, hw, hinside⟩, fun _ ↦ ?_,
      fun herror ↦ (hparsed herror).elim, fun _ ↦ backUps_temppath.mpr ⟨hle, hroot⟩⟩
    · rintro ⟨i', hw', d, hd, hclimb⟩
      cases hw.symm.trans hw'
      exact (hbelow d hd hclimb).elim
    · obtain ⟨d, hclimb, hdir⟩ := hinside _ (le_refl _)
      obtain ⟨des, hresult, hdes⟩ := readPathname_parsed hw hle hclimb hparts
      refine ⟨des, _, _, hresult, ?_⟩
      rcases hdes with rfl | ⟨hstart, rfl⟩
      · exact hdir
      · exact habs hstart

def nameAboveRoot : List UInt8 := [46, 46, 47, 102]

/-- At the root `../f` is not rejected: the climb ends at a parent that is no
record of the table, and the scan leaves the path. -/
theorem climbs_above_root : ∃ s, PartialRun.run step (initState sampleArea) [] = some s ∧
    ¬ StaysBelowRoot s.store (s.table sampleProcess) nameAboveRoot ∧
    (readPathname s.store (s.table sampleProcess) nameAboveRoot =
      some (.parsed 65534 [] [102])) ∧
    backUps (temppath (s.table sampleProcess).curPath) 1
      (temppath (s.table sampleProcess).curPath).length = none := by
  refine ⟨initState sampleArea, rfl, fun h ↦ ?_, rfl, rfl⟩
  obtain ⟨des, parentlist, childfile, hresult, hdes⟩ := h.index (by rintro ⟨⟩)
  obtain ⟨rfl, -, -⟩ : 65534 = des ∧ [] = parentlist ∧ [102] = childfile := by
    have hsame : some (ParsedPath.parsed 65534 [] [102]) = some (.parsed des parentlist childfile) :=
      hresult
    simpa using hsame
  exact absurd hdes.1.1 (by decide)

end OperatingSystem.Filesys
