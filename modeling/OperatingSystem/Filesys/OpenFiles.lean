import OperatingSystem.Filesys.Tables

/-!
# Open files of several processes

`isOpen` looks into the first table of the list, whatever process asks. So
`rd_unlink` and `rd_open` respect the open files of all processes along exactly
those runs in which the first table knows every open file that they meet.
-/

namespace OperatingSystem.Filesys

variable {area : Area}

/-- Inode `i` occurs in the list of file objects. -/
def FDT.Lists (fdt : FDT) (i : ℕ) : Prop := ∃ fo ∈ fdt.fileObjects, fo.inodeIndex = i

/-- Inode `i` occurs in the table of the caller or of another process. -/
def State.OpenAnywhere (s : State area) (cur : Process) (i : ℕ) : Prop :=
  ∃ fdt ∈ s.tables cur, fdt.Lists i

def State.OpenInFirst (s : State area) (cur : Process) (i : ℕ) : Prop :=
  ∃ fdt, (s.tables cur).head? = some fdt ∧ fdt.Lists i

/-- A successful `rd_unlink` frees an inode that no table lists, a successful
`rd_open` opens an inode that the caller's table does not list. -/
def OpenRespected (s : State area) (e : Event) (s' : State area) : Prop :=
  match e.call with
  | .unlink pathname => rdUnlink e.cur pathname.chars s = some (SUCCESS, s') →
      ∀ name i, lookup s.store (s.table e.cur) pathname.chars = some (some (name, i)) →
        ¬ s.OpenAnywhere e.cur i
  | .openPath pathname flag => ∀ ret, rdOpen e.cur pathname.chars flag s = some (ret, s') →
      ret ≠ ERROR → ∀ name i,
        lookup s.store (s.table e.cur) pathname.chars = some (some (name, i)) →
          ¬ (s.table e.cur).Lists i
  | _ => True

/-- When `rd_unlink` or `rd_open` comes to `isOpen` with an inode that is open
somewhere, or in the caller's table, the first table of the list has it open. -/
def FirstTableKnows (s : State area) (e : Event) : Prop :=
  match e.call with
  | .unlink pathname => pathname.chars ≠ [47] → ∀ name i,
      lookup s.store (s.table e.cur) pathname.chars = some (some (name, i)) →
      ¬ ((s.store.inode i).type = .dir ∧ (s.store.inode i).size > 0) →
      s.OpenAnywhere e.cur i → s.OpenInFirst e.cur i
  | .openPath pathname flag => ∀ name i,
      lookup s.store (s.table e.cur) pathname.chars = some (some (name, i)) →
      ¬ AccessDenied (s.store.inode i).mode flag →
      (s.table e.cur).Lists i → s.OpenInFirst e.cur i
  | _ => True

theorem isOpen_eq_error_iff {s : State area} {cur : Process} {i : ℕ} :
    isOpen (s.tables cur) i = some ERROR ↔ s.OpenInFirst cur i := by
  have hne : SUCCESS ≠ ERROR := by decide
  simp only [isOpen, State.OpenInFirst, FDT.Lists, Option.map_eq_some_iff]
  constructor
  · rintro ⟨fdt, hhead, heq⟩
    refine ⟨fdt, hhead, ?_⟩
    by_contra hnone
    rw [if_neg hnone] at heq
    exact hne heq
  · rintro ⟨fdt, hhead, hlists⟩
    exact ⟨fdt, hhead, if_pos hlists⟩

theorem unlink_respects_iff {s s' : State area} {cur : Process} {pathname : CString}
    (h : step s ⟨cur, .unlink pathname⟩ = some s') :
    OpenRespected s ⟨cur, .unlink pathname⟩ s' ↔ FirstTableKnows s ⟨cur, .unlink pathname⟩ := by
  obtain ⟨r, hr, rfl⟩ := Option.map_eq_some_iff.mp h
  obtain ⟨⟨ret, s'⟩, hunlink, rfl⟩ := Option.map_eq_some_iff.mp hr
  have hunlink : rdUnlink cur pathname.chars s = some (ret, s') := hunlink
  constructor
  · intro hrespected hroot name i hlookup hempty hopen
    rcases rdUnlink_cases hunlink with ⟨-, -, -, hroot' | hrefused⟩ | ⟨rfl, -⟩
    · exact (hroot hroot').elim
    · rcases hrefused name i hlookup with hdir | herror
      · exact (hempty hdir).elim
      · exact isOpen_eq_error_iff.mp herror
    · exact (hrespected hunlink name i hlookup hopen).elim
  · intro hknows hsuccess name i hlookup hopen
    rcases rdUnlink_cases hsuccess with ⟨herror, -⟩ | ⟨-, hroot, name', i', -, hlookup', -,
      hempty, hclosed, -, -⟩
    · cases herror
    · cases hlookup.symm.trans hlookup'
      exact hclosed (isOpen_eq_error_iff.mpr (hknows hroot name i hlookup hempty hopen))

theorem open_respects_iff {s s' : State area} {cur : Process} {pathname : CString} {flag : ℤ}
    (h : step s ⟨cur, .openPath pathname flag⟩ = some s') :
    OpenRespected s ⟨cur, .openPath pathname flag⟩ s' ↔
      FirstTableKnows s ⟨cur, .openPath pathname flag⟩ := by
  obtain ⟨r, hr, rfl⟩ := Option.map_eq_some_iff.mp h
  obtain ⟨⟨ret, s'⟩, hopen, rfl⟩ := Option.map_eq_some_iff.mp hr
  have hopen : rdOpen cur pathname.chars flag s = some (ret, s') := hopen
  constructor
  · intro hrespected name i hlookup haccess hlists
    rcases rdOpen_cases hopen with
      ⟨-, -, hrefused⟩ | ⟨name', i', path, -, -, -, -, -, hend⟩
    · rcases hrefused name i hlookup with herror | hdenied
      · exact isOpen_eq_error_iff.mp herror
      · exact (haccess hdenied).elim
    · have hret : ret ≠ ERROR := by
        have herror : ERROR = -1 := rfl
        rcases hend with ⟨-, hret, -⟩ | ⟨-, hret, -⟩ <;> omega
      exact (hrespected ret hopen hret name i hlookup hlists).elim
  · intro hknows ret' hopen' hret name i hlookup hlists
    rcases rdOpen_cases hopen' with
      ⟨herror, -⟩ | ⟨name', i', path, hlookup', -, -, hclosed, haccess, -⟩
    · exact hret herror
    · cases hlookup.symm.trans hlookup'
      have hfirst := hknows name i hlookup haccess hlists
      cases hclosed.symm.trans (isOpen_eq_error_iff.mpr hfirst)

theorem respected_iff {s s' : State area} {e : Event} (h : step s e = some s') :
    OpenRespected s e s' ↔ FirstTableKnows s e := by
  obtain ⟨cur, call⟩ := e
  cases call with
  | unlink pathname => exact unlink_respects_iff h
  | openPath pathname flag => exact open_respects_iff h
  | _ => exact Iff.rfl

/-- Open files are respected along exactly those runs in which the first table
knows every open file that `rd_unlink` and `rd_open` meet. -/
theorem openFiles_respected_iff (area : Area) (events : List Event) :
    PartialRun.Along step OpenRespected (initState area) events ↔
      PartialRun.Along step (fun s e _ ↦ FirstTableKnows s e) (initState area) events := by
  apply PartialRun.along_iff_of_invariant (I := fun _ ↦ True) _ _ events trivial
  · intro s e s' _ _ _
    trivial
  · intro s e s' _ h
    exact respected_iff h

def otherProcessOpens : List Event :=
  [⟨⟨100, 1⟩, .creat sampleName 1 fun _ ↦ 0⟩, ⟨⟨200, 1⟩, .openPath sampleName 1⟩]

/-- Process 100 unlinks the file that process 200 has open. -/
theorem unlink_of_open_file :
    ¬ PartialRun.Along step OpenRespected (initState sampleArea)
      (otherProcessOpens ++ [⟨⟨100, 1⟩, .unlink sampleName⟩]) := by
  have hrun : (PartialRun.run step (initState sampleArea) otherProcessOpens).map (fun s ↦
      ((rdUnlink ⟨100, 1⟩ sampleName.chars s).map Prod.fst,
        lookup s.store (s.table ⟨100, 1⟩) sampleName.chars)) =
      some (some SUCCESS, some (some ([102], 1))) := by
    decide +kernel
  have htables : (PartialRun.run step (initState sampleArea) otherProcessOpens).map
      (fun s ↦ s.tables ⟨100, 1⟩) =
      some [⟨100, [⟨0, 0⟩], [47]⟩, ⟨200, [⟨0, 0⟩, ⟨1, 0⟩], [47, 102]⟩] := by
    decide +kernel
  intro halong
  obtain ⟨s, hs, hfacts⟩ := Option.map_eq_some_iff.mp hrun
  rw [hs, Option.map_some, Option.some.injEq] at htables
  simp only [Prod.mk.injEq] at hfacts
  obtain ⟨hret, hlookup⟩ := hfacts
  obtain ⟨⟨ret, s'⟩, hunlink, rfl⟩ := Option.map_eq_some_iff.mp hret
  have hstep : step s ⟨⟨100, 1⟩, .unlink sampleName⟩ = some s' := by
    simp [step, ramdiskIoctl, hunlink, replyOnly]
  apply halong.of_append hs hstep hunlink [102] 1 hlookup
  refine ⟨⟨200, [⟨0, 0⟩, ⟨1, 0⟩], [47, 102]⟩, ?_, ⟨1, 0⟩, ?_, rfl⟩
  · simp [htables]
  · simp

end OperatingSystem.Filesys
