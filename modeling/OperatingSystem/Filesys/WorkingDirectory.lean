import OperatingSystem.Filesys.NameSpace
import OperatingSystem.Filesys.PathStrings

/-!
# The path of the working directory

Each table holds its current directory twice: as an inode at the head of its
file objects and as the string `cur_path`. The components of the string lead to
the inode as long as `rd_open` succeeds only for directories, no pathname has a
second prefix, and no empty piece of the string is cut.
-/

namespace OperatingSystem.Filesys

variable {area : Area}

/-- The inode that the names lead to, looked up one after the other. -/
def follow (st : Store area) : List (List UInt8) → ℕ → Option ℕ
  | [], i => some i
  | name :: names, i =>
      (isExist st name i (-1)).bind fun r ↦
        if r.ans = ERROR then none else follow st names r.ans.toNat

/-- The components of `cur_path` lead from the root to the current directory. -/
def FDT.PathAgrees (st : Store area) (fdt : FDT) : Prop :=
  ∃ i, fdt.workingDirectory = some i ∧ follow st (components fdt.curPath) 0 = some i

/-- An `rd_open` that comes to its end opens a directory by a pathname with one
prefix, and no empty piece of `cur_path` is cut by it or by `rd_close(0)`. -/
def KeepsPath (s : State area) (e : Event) : Prop :=
  match e.call with
  | .openPath pathname flag => ∀ name i,
      lookup s.store (s.table e.cur) pathname.chars = some (some (name, i)) →
      isOpen (s.tables e.cur) i = some SUCCESS → ¬ AccessDenied (s.store.inode i).mode flag →
      (s.store.inode i).type = .dir ∧ OnePrefix pathname.chars ∧
        EndsInNames (stripBack pathname.chars).1 (s.table e.cur).curPath
  | .close fd => fd = 0 → (s.table e.cur).workingDirectory ≠ some 0 →
      EndsInNames 1 (s.table e.cur).curPath
  | _ => True

/-! ## Paths in the tree -/

/-- Names of entries that lead from the root to an inode. -/
inductive Reaches (st : Store area) (n : ℕ → ℕ) (entry : ℕ → ℕ → List UInt8 × ℕ) :
    List (List UInt8) → ℕ → Prop
  | root : Reaches st n entry [] 0
  | child {names : List (List UInt8)} {i k : ℕ} (hr : Reaches st n entry names i)
      (hi : (st.inode i).type = .dir) (hk : k < n i) :
      Reaches st n entry (names ++ [(entry i k).1]) (entry i k).2

theorem follow_append (st : Store area) (names : List (List UInt8)) (name : List UInt8) (i : ℕ) :
    follow st (names ++ [name]) i = (follow st names i).bind fun j ↦ follow st [name] j := by
  induction names generalizing i with
  | nil => rfl
  | cons first names ih =>
      simp only [List.cons_append, follow]
      cases isExist st first i (-1) with
      | none => rfl
      | some r =>
          simp only [Option.bind_some]
          split
          · rfl
          · exact ih _

namespace Reaches

variable {st st' : Store area} {n n' : ℕ → ℕ} {entry entry' : ℕ → ℕ → List UInt8 × ℕ}
  {names pre : List (List UInt8)} {i : ℕ}

theorem follow_eq (htree : DirectoryTree st n entry) (h : Reaches st n entry names i) :
    follow st names 0 = some i := by
  induction h with
  | root => rfl
  | @child names i k _ hi hk ih =>
      have hat := (htree.directory i hi).2
      obtain ⟨r, hr, hcases⟩ := htree.isExist hi (hat.entries k hk).string.noNul (-1)
      rw [follow_append, ih, Option.bind_some, follow, hr, Option.bind_some]
      rcases hcases with ⟨l, hl, hname, hans, -⟩ | ⟨hnone, -⟩
      · obtain rfl := hat.names l hl k hk hname
        have hfound : r.ans ≠ ERROR := by
          have herror : ERROR = -1 := rfl
          omega
        rw [if_neg hfound, hans, Int.toNat_natCast]
        rfl
      · exact (hnone k hk rfl).elim

theorem parent (htree : DirectoryTree st n entry) {name : List UInt8}
    (h : Reaches st n entry (names ++ [name]) i) :
    Reaches st n entry names (st.inode i).parentIndex := by
  generalize hpath : names ++ [name] = path at h
  cases h with
  | root => simp at hpath
  | child hr hi hk =>
      obtain ⟨rfl, -⟩ := List.append_inj' hpath rfl
      rw [((htree.directory _ hi).2.children _ hk).2.2]
      exact hr

theorem climb (htree : DirectoryTree st n entry) {l : List (List UInt8)} {j : ℕ}
    (h : Reaches st n entry (pre ++ l) i) (hclimb : climb st l.length i = some j) :
    Reaches st n entry pre j := by
  induction l using List.reverseRecOn generalizing i with
  | nil =>
      cases hclimb
      rwa [List.append_nil] at h
  | append_singleton l name ih =>
      rw [← List.append_assoc] at h
      rw [List.length_append, List.length_singleton] at hclimb
      obtain ⟨ino, hino, hclimb⟩ := Option.bind_eq_some_iff.mp hclimb
      obtain ⟨-, rfl⟩ := Store.inodeAt_eq_some hino
      exact ih (h.parent htree) hclimb

theorem walk (htree : DirectoryTree st n entry) {slot : ℕ} {position : ℤ} {des : ℤ × ℤ}
    (hnul : ∀ name ∈ names, (0 : UInt8) ∉ name)
    (hcases : (st.inode i).type = .dir ∨ inodeListNum ≤ i ∨ (st.inode i).size < 16)
    (hleads : ∀ j ∈ componentInodes st names i position,
      (st.inode j).type = .dir ∨ (st.inode j).size < 16)
    (hwalk : walkParents st names slot i position = some des) (hne : des.1 ≠ ERROR)
    (h : Reaches st n entry pre i) : Reaches st n entry (pre ++ names) des.1.toNat ∧
      ((st.inode des.1.toNat).type = .dir ∨ inodeListNum ≤ des.1.toNat ∨
        (st.inode des.1.toNat).size < 16) := by
  induction names generalizing slot i position pre with
  | nil =>
      rw [walkParents] at hwalk
      split at hwalk
      · cases hwalk
        rw [List.append_nil]
        exact ⟨h, hcases⟩
      · cases hwalk
  | cons name names ih =>
      obtain ⟨r, hr, hwalk⟩ := Option.bind_eq_some_iff.mp hwalk
      split at hwalk
      · cases hwalk
        exact (hne rfl).elim
      · next hans =>
        obtain ⟨hdir, k, hk, hentry⟩ :=
          htree.isExist_found (hnul name List.mem_cons_self) hcases hr hans
        have hchild := h.child hdir hk
        rw [hentry] at hchild
        simp only [componentInodes, hr, if_neg hans, List.forall_mem_cons] at hleads
        have hrest := ih (fun name' hname ↦ hnul name' (List.mem_cons_of_mem _ hname))
          (hleads.1.imp_right .inr) hleads.2 hwalk hchild
        rwa [List.append_assoc] at hrest

theorem kept {P : ℕ → Prop} (hkept : EntriesKept st P n n' entry entry')
    (hP : ∀ i, (st.inode i).type = .dir → 0 < n i → P i)
    (hdir : ∀ i, (st.inode i).type = .dir → P i → (st'.inode i).type = .dir)
    (h : Reaches st n entry names i) (hi : P i) : Reaches st' n' entry' names i := by
  induction h with
  | root => exact .root
  | @child names i k _ htype hk ih =>
      have hPi := hP i htype (by omega)
      obtain ⟨k', hk', heq⟩ := hkept i htype k hk hi
      have hchild := (ih hPi).child (hdir i htype hPi) hk'
      rwa [heq] at hchild

end Reaches

/-! ## Lookups -/

theorem readPathname_eq {st : Store area} {fdt : FDT} {pathname childfile : List UInt8}
    {desIndex : ℕ} {parentlist : List (List UInt8)}
    (h : readPathname st fdt pathname = some (.parsed desIndex parentlist childfile)) :
    segments (remainder pathname) = parentlist ++ [childfile] ∧
      ((StartsAtRoot pathname ∧ desIndex = 0) ∨ (¬ StartsAtRoot pathname ∧ ∃ i,
        fdt.workingDirectory = some i ∧ climb st (stripBack pathname).1 i = some desIndex)) := by
  obtain ⟨head, hhead, h⟩ := Option.bind_eq_some_iff.mp h
  dsimp only at h
  split at h
  · cases h
  · obtain ⟨d, hclimb, h⟩ := Option.bind_eq_some_iff.mp h
    split at h
    · cases h
      refine ⟨rfl, ?_⟩
      by_cases hroot : StartsAtRoot pathname
      · exact .inl ⟨hroot, if_pos hroot⟩
      · refine .inr ⟨hroot, head.inodeIndex, by rw [FDT.workingDirectory, hhead]; rfl, ?_⟩
        exact hclimb.trans (congrArg some (if_neg hroot).symm)
    · cases h

theorem Reaches.of_lookup {st : Store area} {n : ℕ → ℕ} {entry : ℕ → ℕ → List UInt8 × ℕ}
    (htree : DirectoryTree st n entry) {fdt : FDT} {pathname name : List UInt8} {i w : ℕ}
    (hw : fdt.workingDirectory = some w) (htype : (st.inode w).type = .dir)
    (hreach : Reaches st n entry (components fdt.curPath) w)
    (hleads : LeadsThroughDirectories st fdt pathname) (hnul : (0 : UInt8) ∉ pathname)
    (hlookup : lookup st fdt pathname = some (some (name, i))) :
    (StartsAtRoot pathname → Reaches st n entry (segments (remainder pathname)) i) ∧
      (¬ StartsAtRoot pathname → ∀ pre l, components fdt.curPath = pre ++ l →
        l.length = (stripBack pathname).1 →
        Reaches st n entry (pre ++ segments (remainder pathname)) i) := by
  obtain ⟨des, position, r, hresolve, hr, hans, rfl⟩ := lookup_eq_some hlookup
  obtain ⟨desIndex, parentlist, d, hparsed, hwalk, hne, rfl⟩ := resolve_eq_some hresolve
  obtain ⟨hparents, hchild, -⟩ := readPathname_cases hparsed
  obtain ⟨hsegments, hstart⟩ := readPathname_eq hparsed
  have hcases := htree.start_cases ⟨w, hw, htype⟩ hparsed
  -- the names behind the start of the lookup
  have hfrom : ∀ {pre}, Reaches st n entry pre desIndex →
      Reaches st n entry (pre ++ segments (remainder pathname)) r.ans.toNat := by
    intro pre hpre
    obtain ⟨hdes, hdesCases⟩ := hpre.walk htree
      (fun name' hname hmem ↦ hnul (hparents name' hname hmem))
      (hcases.imp_right .inl) (hleads _ _ _ hparsed) hwalk hne
    obtain ⟨hdir, k, hk, hentry⟩ :=
      htree.isExist_found (fun hmem ↦ hnul (hchild hmem)) hdesCases hr hans
    have hlast := hdes.child hdir hk
    rw [hentry, List.append_assoc, ← hsegments] at hlast
    exact hlast
  rcases hstart with ⟨hroot, rfl⟩ | ⟨hroot, i, hi, hclimb⟩
  · exact ⟨fun _ ↦ hfrom .root, fun hnot ↦ (hnot hroot).elim⟩
  · refine ⟨fun hroot' ↦ (hroot hroot').elim, fun _ pre l hpath hlength ↦ hfrom ?_⟩
    cases hw.symm.trans hi
    rw [hpath] at hreach
    rw [← hlength] at hclimb
    exact hreach.climb htree hclimb

/-- All names on a path are names of entries, and those are not empty. -/
theorem Reaches.nonempty {st : Store area} {n : ℕ → ℕ} {entry : ℕ → ℕ → List UInt8 × ℕ}
    {names : List (List UInt8)} {i : ℕ} (htree : DirectoryTree st n entry)
    (h : Reaches st n entry names i) : ∀ name ∈ names, name ≠ [] := by
  induction h with
  | root => exact fun name hname ↦ (List.not_mem_nil hname).elim
  | child _ hi hk ih =>
      rw [List.forall_mem_append, List.forall_mem_singleton]
      exact ⟨ih, (htree.directory _ hi).2.nonempty _ hk⟩

/-! ## Runs -/

/-- Every `cur_path` is the path of the current directory in the tree. -/
structure PathsInTree (s : State area) (n : ℕ → ℕ) (entry : ℕ → ℕ → List UInt8 × ℕ) : Prop where
  names : NamesTree s
  tree : DirectoryTree s.store n entry
  path : ∀ fdt ∈ s.fdtList, fdt.curPath.head? = some 47 ∧ ∃ i, fdt.workingDirectory = some i ∧
    Reaches s.store n entry (components fdt.curPath) i

theorem pathsInTree_init (area : Area) (entry : ℕ → ℕ → List UInt8 × ℕ) :
    PathsInTree (initState area) (fun _ ↦ 0) entry where
  names := namesTree_init area
  tree := directoryTree_init area entry
  path := fun _ h ↦ (List.not_mem_nil h).elim

namespace PathsInTree

variable {s s' : State area} {e : Event} {n : ℕ → ℕ} {entry : ℕ → ℕ → List UInt8 × ℕ}

theorem table (h : PathsInTree s n entry) (cur : Process) :
    (s.table cur).curPath.head? = some 47 ∧ ∃ i, (s.table cur).workingDirectory = some i ∧
      Reaches s.store n entry (components (s.table cur).curPath) i :=
  table_of_forall (P := fun fileObjects curPath ↦ curPath.head? = some 47 ∧ ∃ i,
    fileObjects.head?.map FileObject.inodeIndex = some i ∧
      Reaches s.store n entry (components curPath) i) h.path ⟨rfl, 0, rfl, .root⟩ cur

/-- The path of the caller's table after a call, in the tree before the call. -/
theorem own_path (h : PathsInTree s n entry) (hkeeps : KeepsNameSpace s e) (hpath : KeepsPath s e)
    (hstep : step s e = some s') :
    (s'.table e.cur).curPath.head? = some 47 ∧
      ∃ i, (s'.table e.cur).workingDirectory = some i ∧
        Reaches s.store n entry (components (s'.table e.cur).curPath) i ∧
        ((s.table e.cur).workingDirectory = some i ∨ diskOp s e = some .nothing) := by
  obtain ⟨cur, call⟩ := e
  obtain ⟨hstart, w, hw, hreach⟩ := h.table cur
  obtain ⟨w', hw', htype⟩ := h.names.table cur
  cases hw.symm.trans hw'
  rcases workingDirectory_of_step hw hstep with
    ⟨hsame, hcur⟩ | ⟨pathname, flag, name, i, rfl, hlookup, hclosed, haccess, hbuild, hset⟩ |
      ⟨rfl, hne, hcut, hset⟩
  · dsimp only
    rw [hcur]
    exact ⟨hstart, w, hsame, hreach, .inl hw⟩
  · obtain ⟨hdir, hone, hnames⟩ := hpath name i hlookup hclosed haccess
    obtain ⟨hstart', hroot, hfrom⟩ := buildPath_eq_some hstart hone hnames hbuild
    obtain ⟨hreachRoot, hreachFrom⟩ := Reaches.of_lookup h.tree hw htype hreach
      (hkeeps.1 pathname.chars rfl) pathname.noNul hlookup
    have hpieces : ∀ {pre}, Reaches s.store n entry (pre ++ segments (remainder pathname.chars)) i →
        components (remainder pathname.chars) = segments (remainder pathname.chars) := by
      intro pre hpre
      apply List.filter_eq_self.mpr
      intro piece hpiece
      exact decide_eq_true (hpre.nonempty h.tree piece (List.mem_append_right _ hpiece))
    rw [if_pos hdir] at hset
    refine ⟨hstart', i, hset, ?_, .inr rfl⟩
    by_cases habs : StartsAtRoot pathname.chars
    · have hreach' := hreachRoot habs
      dsimp only
      rw [hroot habs, @hpieces [] hreach']
      exact hreach'
    · obtain ⟨pre, l, hlist, hlength, hcomponents⟩ := hfrom habs
      have hreach' := hreachFrom habs pre l hlist hlength
      dsimp only
      rw [hcomponents, hpieces hreach']
      exact hreach'
  · have hnotRoot : (s.table cur).workingDirectory ≠ some 0 := by
      rw [hw]
      exact fun heq ↦ hne (Option.some.inj heq)
    obtain ⟨hstart', name, hlist⟩ := cutPath_eq_some hstart (hpath rfl hnotRoot) hcut
    rw [hlist] at hreach
    exact ⟨hstart', _, hset, hreach.parent h.tree, .inr rfl⟩

theorem step (h : PathsInTree s n entry) (hkeeps : KeepsNameSpace s e) (hpath : KeepsPath s e)
    (hstep : step s e = some s') : ∃ n' entry', PathsInTree s' n' entry' := by
  obtain ⟨op, hop, hrun⟩ := diskOp_of_step hstep
  obtain ⟨n', entry', htree, hkept, hparents⟩ := h.names.tree_of_run h.tree hkeeps hop hrun
  -- the paths to the current directories lead there after the call too
  have hmove : ∀ {names i}, Reaches s.store n entry names i →
      (∀ name, op ≠ .unlink name i) → Reaches s'.store n' entry' names i :=
    fun hreach hleaf ↦ hreach.kept hkept hparents
      (fun i hi hother ↦ directory_kept h.names.disk hrun hi hother) hleaf
  have hold : ∀ fdt ∈ s.tables e.cur, ∀ {i}, fdt.workingDirectory = some i →
      ∀ name, op ≠ .unlink name i := by
    rintro fdt hfdt i hi name rfl
    exact (hkeeps.2 _ hop).2 fdt hfdt hi
  refine ⟨n', entry', h.names.step hkeeps hstep, htree, ?_⟩
  obtain ⟨r, hr, rfl⟩ := Option.map_eq_some_iff.mp hstep
  intro fdt hfdt
  rcases (ramdiskIoctl_fdtList hr).mem hfdt with hmem | rfl | rfl
  · obtain ⟨hstart, i, hi, hreach⟩ := h.path fdt hmem
    exact ⟨hstart, i, hi, hmove hreach (hold fdt (mem_tables hmem e.cur) hi)⟩
  · obtain ⟨hstart, i, hi, hreach⟩ := h.table e.cur
    exact ⟨hstart, i, hi, hmove hreach (hold _ (table_mem_tables s e.cur) hi)⟩
  · obtain ⟨hstart, i, hi, hreach, hcases⟩ := h.own_path hkeeps hpath hstep
    refine ⟨hstart, i, hi, hmove hreach ?_⟩
    rcases hcases with hsame | hnothing
    · exact hold _ (table_mem_tables s e.cur) hsame
    · cases hop.symm.trans hnothing
      intro name hunlink
      cases hunlink

end PathsInTree

/-- In every state that permitted calls reach, the components of every `cur_path`
lead from the root to the current directory of its table. -/
theorem working_directories_agree (area : Area) (events : List Event) (s : State area)
    (hkeeps : PartialRun.Along step (fun t e _ ↦ KeepsNameSpace t e ∧ KeepsPath t e)
      (initState area) events)
    (hrun : PartialRun.run step (initState area) events = some s) :
    ∀ fdt ∈ s.fdtList, fdt.PathAgrees s.store := by
  have hinv : ∃ n entry, PathsInTree s n entry := by
    refine PartialRun.invariant_of_along (I := fun t ↦ ∃ n entry, PathsInTree t n entry) ?_
      ⟨_, _, pathsInTree_init area fun _ _ ↦ ([], 0)⟩ hkeeps hrun
    rintro t e t' ⟨n, entry, ht⟩ ⟨hnames, hpath⟩ hstep
    exact ht.step hnames hpath hstep
  obtain ⟨n, entry, h⟩ := hinv
  intro fdt hfdt
  obtain ⟨-, i, hi, hreach⟩ := h.path fdt hfdt
  exact ⟨i, hi, hreach.follow_eq h.tree⟩

def nestedName : CString := ⟨[100, 47, 101], by decide⟩

/-- A process goes through `./d`, `e` and `../f`, and back to `d`. -/
def walkingCalls : List Event :=
  sampleCalls [.mkdir directoryName fun _ ↦ 0, .mkdir nestedName fun _ ↦ 0,
    .mkdir fileInDirectory fun _ ↦ 0, .openPath ⟨[46, 47, 100], by decide⟩ 1,
    .openPath ⟨[101], by decide⟩ 1, .openPath ⟨[46, 46, 47, 102], by decide⟩ 1, .close 0]

def keepsPath (s : State area) (e : Event) : Bool :=
  match e.call with
  | .openPath pathname _ =>
      (lookup s.store (s.table e.cur) pathname.chars).all fun target ↦ target.all fun r ↦
        (s.store.inode r.2).type = .dir ∧ OnePrefix pathname.chars ∧
          EndsInNames (stripBack pathname.chars).1 (s.table e.cur).curPath
  | .close _ => EndsInNames 1 (s.table e.cur).curPath
  | _ => true

theorem keepsPath_spec {s : State area} {e : Event} (h : keepsPath s e = true) :
    KeepsPath s e := by
  obtain ⟨cur, call⟩ := e
  cases call with
  | openPath pathname flag =>
      intro name i hlookup _ _
      simp only [keepsPath, Option.all_eq_true, decide_eq_true_eq] at h
      exact h _ hlookup _ rfl
  | close fd => exact fun _ _ ↦ of_decide_eq_true h
  | _ => trivial

theorem working_directories_agree_example : ∃ s, (∀ fdt ∈ s.fdtList, fdt.PathAgrees s.store) ∧
    PartialRun.run step (initState sampleArea) walkingCalls = some s ∧
      s.fdtList.map (fun fdt ↦ (fdt.workingDirectory, fdt.curPath)) =
        [(some 1, [47, 100, 47])] := by
  have htables : (PartialRun.run step (initState sampleArea) walkingCalls).map (fun s ↦
      s.fdtList.map fun fdt ↦ (fdt.workingDirectory, fdt.curPath)) =
        some [(some 1, [47, 100, 47])] := by
    decide +kernel
  have htest : PartialRun.check step (fun s e ↦ keepsNameSpace s e && keepsPath s e)
      (initState sampleArea) walkingCalls = true := by
    decide +kernel
  obtain ⟨s, hs, htables⟩ := Option.map_eq_some_iff.mp htables
  refine ⟨s, working_directories_agree sampleArea walkingCalls s ?_ hs, hs, htables⟩
  refine PartialRun.along_of_check ?_ htest
  intro t e _ h
  rw [Bool.and_eq_true] at h
  exact ⟨keepsNameSpace_spec h.1, keepsPath_spec h.2⟩

/-- The second `rd_close(0)` from `d/e` leaves `/d/` for the root directory. -/
theorem second_close_keeps_path : ∃ s, PartialRun.run step (initState sampleArea) (sampleCalls
      [.mkdir directoryName fun _ ↦ 0, .mkdir nestedName fun _ ↦ 0, .openPath nestedName 1,
        .close 0, .close 0]) = some s ∧
    ¬ ∀ fdt ∈ s.fdtList, fdt.PathAgrees s.store := by
  have htables : (PartialRun.run step (initState sampleArea) (sampleCalls
      [.mkdir directoryName fun _ ↦ 0, .mkdir nestedName fun _ ↦ 0, .openPath nestedName 1,
        .close 0, .close 0])).map (fun s ↦ s.fdtList.map fun fdt ↦
          (fdt.workingDirectory, follow s.store (components fdt.curPath) 0)) =
        some [(some 0, some 1)] := by
    decide +kernel
  obtain ⟨s, hs, htables⟩ := Option.map_eq_some_iff.mp htables
  refine ⟨s, hs, fun hagree ↦ ?_⟩
  obtain ⟨fdt, rest, hlist, hfdt, -⟩ := List.map_eq_cons_iff.mp htables
  obtain ⟨i, hi, hfollow⟩ := hagree fdt (by rw [hlist]; exact List.mem_cons_self)
  rw [Prod.mk.injEq, hi, hfollow] at hfdt
  cases hfdt.1.symm.trans hfdt.2

end OperatingSystem.Filesys
