import OperatingSystem.Filesys.Descriptors
import OperatingSystem.Filesys.TreeSteps

/-!
# The name space along a run

The calls of a run keep the tree of directories, and lookups search only
directories, as long as no pathname leads through a regular file, every create
enters a non-empty name into a directory with room, no unlink takes the working
directory of a process, and the writes take no second block.
-/

namespace OperatingSystem.Filesys

variable {area : Area}

/-! ## Lookups -/

/-- The directories that a lookup searches, each with the name it looks for. -/
def searches (st : Store area) : List (List UInt8) → ℕ → ℤ → List (ℕ × List UInt8)
  | [], _, _ => []
  | name :: names, i, position =>
      (i, name) ::
        match isExist st name i position with
        | none => []
        | some r =>
            if r.ans = ERROR then [] else searches st names r.ans.toNat r.directoryIndex

/-- The inodes that the components lead to, one after the other. -/
def componentInodes (st : Store area) : List (List UInt8) → ℕ → ℤ → List ℕ
  | [], _, _ => []
  | name :: names, i, position =>
      match isExist st name i position with
      | none => []
      | some r =>
          if r.ans = ERROR then []
          else r.ans.toNat :: componentInodes st names r.ans.toNat r.directoryIndex

/-- `isExist` compares entries of the inode with the name. -/
def ReadsEntries (st : Store area) (i : ℕ) (name : List UInt8) : Prop :=
  name.length ≤ 13 ∧ i < inodeListNum ∧ 0 < (toInt (st.inode i).size).tdiv 16

/-- The lookup of a pathname reads only the contents of directories. -/
def SearchesDirectories (st : Store area) (fdt : FDT) (pathname : List UInt8) : Prop :=
  ∀ desIndex parentlist childfile,
    readPathname st fdt pathname = some (.parsed desIndex parentlist childfile) →
    ∀ p ∈ searches st (parentlist ++ [childfile]) desIndex (-1),
      ReadsEntries st p.1 p.2 → (st.inode p.1).type = .dir

/-- No component before the last one is a file that could hold an entry. -/
def LeadsThroughDirectories (st : Store area) (fdt : FDT) (pathname : List UInt8) : Prop :=
  ∀ desIndex parentlist childfile,
    readPathname st fdt pathname = some (.parsed desIndex parentlist childfile) →
    ∀ i ∈ componentInodes st parentlist desIndex (-1),
      (st.inode i).type = .dir ∨ (st.inode i).size < 16

instance (st : Store area) (fdt : FDT) (pathname : List UInt8) :
    Decidable (LeadsThroughDirectories st fdt pathname) :=
  match h : readPathname st fdt pathname with
  | none => isTrue fun _ _ _ hparsed ↦ by cases h.symm.trans hparsed
  | some .error => isTrue fun _ _ _ hparsed ↦ by cases h.symm.trans hparsed
  | some (.parsed desIndex parentlist _) =>
      decidable_of_iff (∀ i ∈ componentInodes st parentlist desIndex (-1),
          (st.inode i).type = .dir ∨ (st.inode i).size < 16)
        ⟨fun hall _ _ _ hparsed ↦ by cases h.symm.trans hparsed; exact hall,
          fun hleads ↦ hleads _ _ _ h⟩

/-- The pathname that a call looks up, if it comes to that. -/
def lookedUp (s : State area) (e : Event) : Option (List UInt8) :=
  match e.call with
  | .creat pathname _ _ | .mkdir pathname _ =>
      if s.store.superblock.freeBlockNumber < 1 ∨ s.store.superblock.freeInodeNumber < 1 then none
      else some pathname.chars
  | .openPath pathname _ | .chmod pathname _ => some pathname.chars
  | .unlink pathname => if pathname.chars = [47] then none else some pathname.chars
  | _ => none

def FDT.workingDirectory (fdt : FDT) : Option ℕ := fdt.fileObjects.head?.map FileObject.inodeIndex

theorem mem_searches {st : Store area} {names : List (List UInt8)} {child : List UInt8} {i : ℕ}
    {position : ℤ} {p : ℕ × List UInt8} (h : p ∈ searches st (names ++ [child]) i position) :
    p.1 = i ∨ p.1 ∈ componentInodes st names i position := by
  induction names generalizing i position with
  | nil =>
      simp only [List.nil_append, searches] at h
      rcases List.mem_cons.mp h with rfl | hrest
      · exact .inl rfl
      · split at hrest
        · cases hrest
        · split at hrest <;> cases hrest
  | cons name names ih =>
      simp only [List.cons_append, searches] at h
      rcases List.mem_cons.mp h with rfl | hrest
      · exact .inl rfl
      · right
        simp only [componentInodes]
        split at hrest
        · cases hrest
        · next r hr =>
          split at hrest
          · cases hrest
          · next hans =>
            rw [if_neg hans]
            rcases ih hrest with heq | hmem
            · rw [heq]
              exact List.mem_cons_self
            · exact List.mem_cons_of_mem _ hmem

theorem walkParents_mem {st : Store area} {names : List (List UInt8)} {slot i : ℕ}
    {position : ℤ} {des : ℤ × ℤ} (h : walkParents st names slot i position = some des)
    (hne : des.1 ≠ ERROR) : des.1.toNat = i ∨ des.1.toNat ∈ componentInodes st names i position := by
  induction names generalizing slot i position with
  | nil =>
      rw [walkParents] at h
      split at h
      · cases h
        exact .inl rfl
      · cases h
  | cons name names ih =>
      right
      obtain ⟨r, hr, h⟩ := Option.bind_eq_some_iff.mp h
      split at h
      · cases h
        exact (hne rfl).elim
      · next hans =>
        simp only [componentInodes, hr, if_neg hans]
        rcases ih h with heq | hmem
        · rw [heq]
          exact List.mem_cons_self
        · exact List.mem_cons_of_mem _ hmem

namespace DirectoryTree

variable {st st' : Store area} {n : ℕ → ℕ} {entry : ℕ → ℕ → List UInt8 × ℕ}

/-- The parents of a directory are directories, up to the root, whose parent is
outside the table. -/
theorem climb_cases (h : DirectoryTree st n entry) {back i j : ℕ}
    (hi : (st.inode i).type = .dir) (hclimb : climb st back i = some j) :
    (st.inode j).type = .dir ∨ inodeListNum ≤ j := by
  induction back generalizing i with
  | zero =>
      cases hclimb
      exact .inl hi
  | succ back ih =>
      by_cases hzero : i = 0
      · subst hzero
        rcases climb_root h.rootParent hclimb with rfl | hout
        · exact .inl hi
        · exact .inr hout
      · obtain ⟨ino, hino, hclimb⟩ := Option.bind_eq_some_iff.mp hclimb
        obtain ⟨-, rfl⟩ := Store.inodeAt_eq_some hino
        exact ih (h.listed i (h.directory i hi).1 hzero).1 hclimb

theorem start_cases (h : DirectoryTree st n entry) {fdt : FDT} {pathname childfile : List UInt8}
    {desIndex : ℕ} {parentlist : List (List UInt8)}
    (hworking : ∃ i, fdt.workingDirectory = some i ∧ (st.inode i).type = .dir)
    (hparsed : readPathname st fdt pathname = some (.parsed desIndex parentlist childfile)) :
    (st.inode desIndex).type = .dir ∨ inodeListNum ≤ desIndex := by
  obtain ⟨i, hi, htype⟩ := hworking
  obtain ⟨-, -, rfl | ⟨head, back, hhead, hclimb⟩⟩ := readPathname_cases hparsed
  · exact .inl h.root
  · rw [FDT.workingDirectory, hhead] at hi
    cases hi
    exact h.climb_cases htype hclimb

/-- What a lookup searches is a directory, unless a component leads elsewhere. -/
theorem searchesDirectories (h : DirectoryTree st n entry) {fdt : FDT} {pathname : List UInt8}
    (hworking : ∃ i, fdt.workingDirectory = some i ∧ (st.inode i).type = .dir)
    (hleads : LeadsThroughDirectories st fdt pathname) : SearchesDirectories st fdt pathname := by
  rintro desIndex parentlist childfile hparsed p hp ⟨-, hlt, hentries⟩
  rcases mem_searches hp with heq | hmem
  · rw [heq] at hlt ⊢
    rcases h.start_cases hworking hparsed with hdir | hout
    · exact hdir
    · omega
  · rcases hleads desIndex parentlist childfile hparsed p.1 hmem with hdir | hsmall
    · exact hdir
    · rw [toInt_of_lt (by omega), Int.tdiv_eq_ediv_of_nonneg (by omega)] at hentries
      omega

theorem isExist (h : DirectoryTree st n entry) {i : ℕ} (hi : (st.inode i).type = .dir)
    {name : List UInt8} (hnul : (0 : UInt8) ∉ name) (d : ℤ) :
    ∃ r, isExist st name i d = some r ∧
      ((∃ k, k < n i ∧ (entry i k).1 = name ∧ r.ans = (entry i k).2 ∧
          r.directoryIndex = d + k + 1) ∨
        ((∀ k < n i, (entry i k).1 ≠ name) ∧ r.ans = ERROR)) := by
  obtain ⟨hused, hat⟩ := h.directory i hi
  refine isExist_entries hat.entries hat.le hused.1 hat.size ?_ hnul d
  intro hpos
  obtain ⟨b, hb, hblock, -⟩ := h.blocks.firstBlock (hat.mapped hpos)
  refine ⟨rfl, ?_⟩
  rw [hblock]
  apply holds_block
  simp only [allocatableSpaceSize]
  omega

theorem isExist_found (h : DirectoryTree st n entry) {i : ℕ} {name : List UInt8} {d : ℤ}
    {r : SearchResult} (hnul : (0 : UInt8) ∉ name)
    (hcases : (st.inode i).type = .dir ∨ inodeListNum ≤ i ∨ (st.inode i).size < 16)
    (hr : Filesys.isExist st name i d = some r) (hans : r.ans ≠ ERROR) :
    (st.inode i).type = .dir ∧ ∃ k < n i, entry i k = (name, r.ans.toNat) := by
  have hdir : (st.inode i).type = .dir := by
    rcases hcases with hdir | hout | hsmall
    · exact hdir
    · have hnone : st.inodeAt i = none := if_neg (by omega)
      simp only [Filesys.isExist, hnone] at hr
      split at hr
      · cases hr
        exact (hans rfl).elim
      · cases hr
    · have hsize := size_of_isExist hr hans
      omega
  obtain ⟨r', hr', hcases⟩ := h.isExist hdir hnul d
  cases hr.symm.trans hr'
  rcases hcases with ⟨k, hk, hname, hfound, -⟩ | ⟨-, herror⟩
  · refine ⟨hdir, k, hk, Prod.ext hname ?_⟩
    rw [hfound, Int.toNat_natCast]
  · exact (hans herror).elim

/-- The directory of a pathname is one, or a search in it finds nothing. -/
theorem resolve_cases (h : DirectoryTree st n entry) {fdt : FDT} {pathname childfile : List UInt8}
    {des : ℕ} {position : ℤ}
    (hworking : ∃ i, fdt.workingDirectory = some i ∧ (st.inode i).type = .dir)
    (hleads : LeadsThroughDirectories st fdt pathname)
    (hresolve : resolve st fdt pathname = some (some (des, childfile, position))) :
    childfile ⊆ pathname ∧
      ((st.inode des).type = .dir ∨ inodeListNum ≤ des ∨ (st.inode des).size < 16) := by
  obtain ⟨desIndex, parentlist, d, hparsed, hwalk, hne, rfl⟩ := resolve_eq_some hresolve
  refine ⟨(readPathname_cases hparsed).2.1, ?_⟩
  rcases walkParents_mem hwalk hne with heq | hmem
  · rw [show d.toNat = desIndex from heq]
    exact (h.start_cases hworking hparsed).imp_right .inl
  · exact (hleads _ _ _ hparsed _ hmem).imp_right .inr

theorem lookup_entry (h : DirectoryTree st n entry) {fdt : FDT} {pathname name : List UInt8}
    {i : ℕ} (hworking : ∃ i, fdt.workingDirectory = some i ∧ (st.inode i).type = .dir)
    (hleads : LeadsThroughDirectories st fdt pathname) (hnul : (0 : UInt8) ∉ pathname)
    (hlookup : lookup st fdt pathname = some (some (name, i))) :
    ∃ des k, (st.inode des).type = .dir ∧ k < n des ∧ entry des k = (name, i) := by
  obtain ⟨des, position, r, hresolve, hr, hans, rfl⟩ := lookup_eq_some hlookup
  obtain ⟨hsub, hcases⟩ := h.resolve_cases hworking hleads hresolve
  obtain ⟨hdir, k, hk, hentry⟩ := h.isExist_found (fun hmem ↦ hnul (hsub hmem)) hcases hr hans
  exact ⟨des, k, hdir, hk, hentry⟩

/-- The name that `create` enters is new in its directory. -/
theorem lookupNew_new (h : DirectoryTree st n entry) {fdt : FDT} {pathname name : List UInt8}
    {des : ℕ} (hdes : (st.inode des).type = .dir) (hnul : (0 : UInt8) ∉ pathname)
    (hlookup : lookupNew st fdt pathname = some (some (des, name))) :
    (0 : UInt8) ∉ name ∧ name.length ≤ 13 ∧ ∀ k < n des, (entry des k).1 ≠ name := by
  obtain ⟨position, r, hresolve, hlength, hr, hans⟩ := lookupNew_eq_some hlookup
  have hsub : name ⊆ pathname := by
    refine (resolve_invariant (P := fun _ ↦ True) trivial ?_ ?_ hresolve).2
    · intro _ _ _ _ _
      trivial
    · intro _ _ _ _ _ _ _ _
      trivial
  have hname : (0 : UInt8) ∉ name := fun hmem ↦ hnul (hsub hmem)
  obtain ⟨r', hr', hcases⟩ := h.isExist hdes hname position
  cases hr.symm.trans hr'
  rcases hcases with ⟨k, hk, -, hfound, -⟩ | ⟨hnew, -⟩
  · have herror : ERROR = -1 := rfl
    omega
  · exact ⟨hname, hlength, hnew⟩

end DirectoryTree

/-! ## Working directories -/

/-- The working directory of the caller after a call: the one from before, the
directory that was opened, or the parent. -/
theorem workingDirectory_of_step {s s' : State area} {cur : Process} {call : Call} {w : ℕ}
    (hw : (s.table cur).workingDirectory = some w) (h : step s ⟨cur, call⟩ = some s') :
    ((s'.table cur).workingDirectory = some w ∧
        (s'.table cur).curPath = (s.table cur).curPath) ∨
      (∃ pathname flag name i, call = .openPath pathname flag ∧
        lookup s.store (s.table cur) pathname.chars = some (some (name, i)) ∧
        isOpen (s.tables cur) i = some SUCCESS ∧
        ¬ AccessDenied (s.store.inode i).mode flag ∧
        buildPath (s.table cur).curPath pathname.chars = some (s'.table cur).curPath ∧
        (s'.table cur).workingDirectory =
          some (if (s.store.inode i).type = .dir then i else w)) ∨
      (call = .close 0 ∧ w ≠ 0 ∧ cutPath (s.table cur).curPath = some (s'.table cur).curPath ∧
        (s'.table cur).workingDirectory = some (s.store.inode w).parentIndex) := by
  obtain ⟨r, hr, rfl⟩ := Option.map_eq_some_iff.mp h
  obtain ⟨fo, hhead, rfl⟩ := Option.map_eq_some_iff.mp hw
  obtain ⟨rest, hlist⟩ := List.head?_eq_some_iff.mp hhead
  cases tableStep hr with
  | same hset => exact .inl ⟨by rw [hset]; exact hw, by rw [hset]⟩
  | openDirectory hlookup hpath _ hclosed haccess htype hset =>
      refine .inr (.inl ⟨_, _, _, _, rfl, hlookup, hclosed, haccess, ?_, ?_⟩)
      · rw [hset]
        exact hpath
      · rw [hset, if_pos htype]
        rfl
  | openFile hlookup hpath _ hclosed haccess htype hset =>
      refine .inr (.inl ⟨_, _, _, _, rfl, hlookup, hclosed, haccess, ?_, ?_⟩)
      · rw [hset]
        exact hpath
      · rw [hset, if_neg htype]
        simp [FDT.workingDirectory, hlist]
  | climb hhead' hroot hpath hset =>
      cases hhead.symm.trans hhead'
      refine .inr (.inr ⟨rfl, hroot, ?_, ?_⟩)
      · rw [hset]
        exact hpath
      · rw [hset]
        rfl
  | @close fd hpos hlt hset =>
      -- a descriptor behind the head is gone
      obtain ⟨k, hk⟩ : ∃ k, fd.toNat = k + 1 := ⟨fd.toNat - 1, by omega⟩
      left
      rw [hset]
      exact ⟨by simp [FDT.workingDirectory, hlist, hk], rfl⟩
  | @move _ fd fo' position _ hfo hset =>
      left
      rw [hset]
      refine ⟨?_, rfl⟩
      simp only [FDT.fileObject, hlist] at hfo
      split at hfo
      · cases hfo
      · simp only [FDT.workingDirectory, FDT.setPosition, hlist]
        cases hk : fd.toNat with
        | zero =>
            -- a negative descriptor moves the position of the head
            rw [hk] at hfo
            cases hfo
            rfl
        | succ k => rfl

theorem directory_kept {st st' : Store area} {op : DiskOp} (h : SoundDisk st)
    (hrun : op.run st = some st') {i : ℕ} (hi : (st.inode i).type = .dir)
    (hleaf : ∀ name, op ≠ .unlink name i) : (st'.inode i).type = .dir := by
  cases op with
  | nothing =>
      cases hrun
      exact hi
  | write j pos input =>
      obtain ⟨⟨ret, pos', st₁⟩, hw, rfl⟩ := Option.map_eq_some_iff.mp hrun
      obtain ⟨hothers, ⟨size, loc, bn, lbo, hrecord⟩, -⟩ := writeFile_record hw
      by_cases hj : i = j
      · subst hj
        rw [hrecord]
        exact hi
      · rw [hothers i hj]
        exact hi
  | create des name mode type fresh =>
      obtain ⟨⟨ret, st₁⟩, hcreate, rfl⟩ := Option.map_eq_some_iff.mp hrun
      obtain ⟨ret', pos, st₂, hw, hend⟩ := createEntry_cases hcreate
      obtain ⟨hothers, ⟨size, loc, bn, lbo, hrecord⟩, hfirst⟩ := writeFile_record hw
      have hkept : (st₂.inode i).type = .dir := by
        by_cases hj : i = des
        · subst hj
          rw [hrecord]
          exact hi
        · rw [hothers i hj]
          exact hi
      rcases hend with ⟨-, -, rfl⟩ | ⟨-, -, ha⟩
      · exact hkept
      · obtain ⟨hlt, hinode, -⟩ := allocateInode_eq_some ha
        rw [hfirst] at hlt hinode
        have hne : i ≠ st.superblock.firstFreeInode := by
          rintro rfl
          exact (h.directories _ hi).operation (h.firstFreeInode hlt)
        rw [hinode, Function.update_of_ne hne]
        exact hkept
  | unlink name j =>
      have hne : i ≠ j := by
        rintro rfl
        exact hleaf name rfl
      obtain ⟨st₁, ret, st₂, h₁, h₂, hinode, -⟩ := freeInode_eq_some hrun
      rw [hinode, Function.update_of_ne hne]
      have hinode₁ := congrFun (FreeFrame.of_freeBlock h₁).inode i
      rcases freeParentDirectoryEntry_cases h₂ with ⟨-, rfl⟩ | ⟨space, r, -, -, -, rfl⟩
      · rw [hinode₁]
        exact hi
      · refine (Store.update_field MyInode.type ?_ i).trans ?_
        · rfl
        · exact (congrArg MyInode.type hinode₁).trans hi
  | chmod j mode =>
      cases hrun
      refine (Store.update_field MyInode.type ?_ i).trans hi
      rfl

/-! ## Runs -/

/-- What a call may ask of the disk: no second block, no entry without a name,
and room in the parent. -/
def DiskOp.KeepsTree (s : State area) (cur : Process) : DiskOp → Prop
  | .write i position input =>
      Filesys.TakesOnlyFirst s.store (s.store.inode i) position input.length 'w'
  | .create des name mode type fresh =>
      (s.store.inode des).type = .dir ∧ (s.store.inode des).size < 256 ∧ name ≠ [] ∧
        (DiskOp.create des name mode type fresh).TakesOnlyFirst s.store
  | .unlink _ i =>
      (s.store.inode (s.store.inode i).parentIndex).size < 256 ∧
        ∀ fdt ∈ s.tables cur, fdt.workingDirectory ≠ some i
  | _ => True

instance (s : State area) (cur : Process) : (op : DiskOp) → Decidable (op.KeepsTree s cur)
  | .write .. => inferInstanceAs (Decidable (Filesys.TakesOnlyFirst ..))
  | .create .. => inferInstanceAs (Decidable (_ ∧ _))
  | .unlink .. => inferInstanceAs (Decidable (_ ∧ _))
  | .nothing => inferInstanceAs (Decidable True)
  | .chmod .. => inferInstanceAs (Decidable True)

/-- A call whose pathname does not lead through a regular file and that asks
nothing else of the disk. -/
def KeepsNameSpace (s : State area) (e : Event) : Prop :=
  (∀ pathname, lookedUp s e = some pathname →
      LeadsThroughDirectories s.store (s.table e.cur) pathname) ∧
    ∀ op, diskOp s e = some op → op.KeepsTree s e.cur

/-- Every process works in a directory of the tree. -/
structure NamesTree (s : State area) : Prop where
  disk : SoundDisk s.store
  tree : ∃ n entry, DirectoryTree s.store n entry
  working : ∀ fdt ∈ s.fdtList, ∃ i, fdt.workingDirectory = some i ∧ (s.store.inode i).type = .dir

theorem namesTree_init (area : Area) : NamesTree (initState area) where
  disk := soundDisk_init area
  tree := ⟨_, _, directoryTree_init area fun _ _ ↦ ([], 0)⟩
  working := fun _ h ↦ (List.not_mem_nil h).elim

namespace NamesTree

variable {s s' : State area} {e : Event}

theorem table (h : NamesTree s) (cur : Process) :
    ∃ i, (s.table cur).workingDirectory = some i ∧ (s.store.inode i).type = .dir := by
  obtain ⟨n, entry, htree⟩ := h.tree
  exact table_of_forall (P := fun fileObjects _ ↦ ∃ i,
    fileObjects.head?.map FileObject.inodeIndex = some i ∧ (s.store.inode i).type = .dir)
    h.working ⟨0, rfl, htree.root⟩ cur

/-- The operation of a permitted call keeps the tree and all its entries but the
one that is removed, which is no directory with entries. -/
theorem tree_of_run {n : ℕ → ℕ} {entry : ℕ → ℕ → List UInt8 × ℕ} (h : NamesTree s)
    (htree : DirectoryTree s.store n entry) (hkeeps : KeepsNameSpace s e) {op : DiskOp}
    {st' : Store area} (hop : diskOp s e = some op) (hrun : op.run s.store = some st') :
    ∃ n' entry', DirectoryTree st' n' entry' ∧
      EntriesKept s.store (fun j ↦ ∀ name, op ≠ .unlink name j) n n' entry entry' ∧
      ∀ i, (s.store.inode i).type = .dir → 0 < n i → ∀ name, op ≠ .unlink name i := by
  have hcond := hkeeps.2 op hop
  cases op with
  | nothing =>
      cases hrun
      exact ⟨n, entry, htree, .refl _ _ _ _, fun _ _ _ _ hunlink ↦ by cases hunlink⟩
  | write i pos input =>
      obtain ⟨⟨ret, pos', st₁⟩, hw, rfl⟩ := Option.map_eq_some_iff.mp hrun
      exact ⟨n, entry, htree.write hcond hw, .refl _ _ _ _,
        fun _ _ _ _ hunlink ↦ by cases hunlink⟩
  | create des name mode type fresh =>
      obtain ⟨⟨ret, st₁⟩, hcreate, rfl⟩ := Option.map_eq_some_iff.mp hrun
      obtain ⟨hdes, hsize, hname, htakes⟩ := hcond
      obtain ⟨pathname, hlookup⟩ := diskOp_eq_create hop
      obtain ⟨hnul, hlength, hnew⟩ := htree.lookupNew_new hdes pathname.noNul hlookup
      rw [(htree.directory des hdes).2.size] at hsize
      obtain ⟨n', entry', htree', hkept⟩ :=
        htree.create h.disk hdes (by omega) hname hnul hlength hnew htakes hcreate
      exact ⟨n', entry', htree', fun i hi k hk _ ↦ hkept i hi k hk trivial,
        fun _ _ _ _ hunlink ↦ by cases hunlink⟩
  | unlink name i =>
      obtain ⟨pathname, hcall, hunlink⟩ := diskOp_eq_unlink hop
      obtain ⟨hroot, hlookup, -, hempty⟩ := unlinkOp_eq_unlink hunlink
      have hleads := hkeeps.1 pathname.chars (by rw [lookedUp, hcall]; exact if_neg hroot)
      obtain ⟨des, k, hdes, hk, hentry⟩ :=
        htree.lookup_entry (h.table e.cur) hleads pathname.noNul hlookup
      have hat := (htree.directory des hdes).2
      obtain ⟨-, -, hparent⟩ := hat.children k hk
      have hsize := hcond.1
      have hnone : (s.store.inode i).type = .dir → n i = 0 := by
        intro hdir
        have hsize' := (htree.directory i hdir).2.size
        by_contra hne
        exact hempty ⟨hdir, by omega⟩
      rw [hentry] at hparent
      rw [hparent, hat.size] at hsize
      obtain ⟨n', entry', htree', hkept⟩ := htree.unlink hdes hk (by omega)
        (by rw [hentry]; exact hnone) (by rw [hentry]; exact hrun)
      refine ⟨n', entry', htree', ?_, ?_⟩
      · intro j hj l hl hother
        apply hkept j hj l hl
        intro heq
        rw [hentry] at heq
        exact hother name (by rw [heq])
      · intro j hj hpos name' heq
        cases heq
        have hzero := hnone hj
        omega
  | chmod i mode =>
      cases hrun
      exact ⟨n, entry, htree.chmod i mode, .refl _ _ _ _, fun _ _ _ _ hunlink ↦ by cases hunlink⟩

theorem working_of_step (h : NamesTree s) (hkeeps : KeepsNameSpace s e)
    (hstep : step s e = some s') {fdt : FDT} (hfdt : fdt ∈ s'.fdtList) :
    ∃ i, fdt.workingDirectory = some i ∧ (s'.store.inode i).type = .dir := by
  obtain ⟨n, entry, htree⟩ := h.tree
  obtain ⟨op, hop, hrun⟩ := diskOp_of_step hstep
  -- the directories of the tables from before are not removed
  have hold : ∀ t ∈ s.tables e.cur, ∀ {i}, t.workingDirectory = some i →
      (s.store.inode i).type = .dir → (s'.store.inode i).type = .dir := by
    intro t ht i hi htype
    refine directory_kept h.disk hrun htype ?_
    rintro name rfl
    exact (hkeeps.2 _ hop).2 t ht hi
  have hown := h.table e.cur
  obtain ⟨r, hr, rfl⟩ := Option.map_eq_some_iff.mp hstep
  rcases (ramdiskIoctl_fdtList hr).mem hfdt with hmem | rfl | rfl
  · obtain ⟨i, hi, htype⟩ := h.working fdt hmem
    exact ⟨i, hi, hold fdt (mem_tables hmem e.cur) hi htype⟩
  · obtain ⟨i, hi, htype⟩ := hown
    exact ⟨i, hi, hold _ (table_mem_tables s e.cur) hi htype⟩
  · obtain ⟨w, hw, htype⟩ := hown
    obtain ⟨cur, call⟩ := e
    have hkept := hold _ (table_mem_tables s cur) hw htype
    rcases workingDirectory_of_step hw hstep with
      ⟨hsame, -⟩ | ⟨pathname, flag, name, i, rfl, -, -, -, -, hset⟩ | ⟨rfl, hne, -, hset⟩
    · exact ⟨w, hsame, hkept⟩
    · cases hop
      rw [← Option.some.inj hrun]
      refine ⟨_, hset, ?_⟩
      split
      · next hdir => exact hdir
      · exact htype
    · cases hop
      rw [← Option.some.inj hrun]
      exact ⟨_, hset, (htree.listed w (htree.directory w htype).1 hne).1⟩

theorem step (h : NamesTree s) (hkeeps : KeepsNameSpace s e) (hstep : step s e = some s') :
    NamesTree s' := by
  obtain ⟨n, entry, htree⟩ := h.tree
  obtain ⟨op, hop, hrun⟩ := diskOp_of_step hstep
  obtain ⟨n', entry', htree', -⟩ := h.tree_of_run htree hkeeps hop hrun
  exact ⟨h.disk.step hstep, ⟨n', entry', htree'⟩,
    fun fdt hfdt ↦ h.working_of_step hkeeps hstep hfdt⟩

end NamesTree

/-- The lookup of a call reads only the contents of directories. -/
def LooksIntoDirectories (s : State area) (e : Event) : Prop :=
  ∀ pathname, lookedUp s e = some pathname →
    SearchesDirectories s.store (s.table e.cur) pathname

/-- The name space is a tree in every state that permitted calls reach, and
their lookups read only the contents of directories. -/
theorem tree_of_directories (area : Area) (events : List Event) (s : State area)
    (hkeeps : PartialRun.Along step (fun t e _ ↦ KeepsNameSpace t e) (initState area) events)
    (hrun : PartialRun.run step (initState area) events = some s) :
    TreeOfDirectories s.store ∧
      PartialRun.Along step (fun t e _ ↦ LooksIntoDirectories t e) (initState area) events := by
  have hkeep : ∀ (t : State area) e t', NamesTree t → KeepsNameSpace t e → step t e = some t' →
      NamesTree t' := fun _ _ _ h hcond hstep ↦ h.step hcond hstep
  constructor
  · obtain ⟨n, entry, htree⟩ :=
      (PartialRun.invariant_of_along hkeep (namesTree_init area) hkeeps hrun).tree
    exact htree.treeOfDirectories
  · refine PartialRun.Along.of_invariant hkeep ?_ (namesTree_init area) hkeeps
    intro t e _ h hcond _ pathname hlookup
    obtain ⟨n, entry, htree⟩ := h.tree
    exact htree.searchesDirectories (h.table e.cur) (hcond.1 pathname hlookup)

def directoryName : CString := ⟨[100], by decide⟩

def fileInDirectory : CString := ⟨[100, 47, 102], by decide⟩

/-- A file in a directory that a process enters and leaves, and a file in the
root directory that it removes. -/
def directoryCalls : List Event :=
  sampleCalls [.mkdir directoryName fun _ ↦ 0, .creat fileInDirectory 1 fun _ ↦ 0,
    .openPath directoryName 1, .openPath sampleName 1, .close 0,
    .creat sampleName 1 fun _ ↦ 0, .unlink sampleName]

def keepsNameSpace (s : State area) (e : Event) : Bool :=
  ((lookedUp s e).all fun pathname ↦
      LeadsThroughDirectories s.store (s.table e.cur) pathname) &&
    (diskOp s e).all fun op ↦ op.KeepsTree s e.cur

theorem keepsNameSpace_spec {s : State area} {e : Event} (h : keepsNameSpace s e = true) :
    KeepsNameSpace s e := by
  simp only [keepsNameSpace, Bool.and_eq_true, Option.all_eq_true, decide_eq_true_eq] at h
  exact h

theorem tree_of_directories_example : ∃ s, (TreeOfDirectories s.store ∧
      PartialRun.Along step (fun t e _ ↦ LooksIntoDirectories t e) (initState sampleArea)
        directoryCalls) ∧
    PartialRun.run step (initState sampleArea) directoryCalls = some s ∧
      (s.store.inode 2).parentIndex = 1 ∧ (s.store.inode 1).type = .dir := by
  have hrecords : (PartialRun.run step (initState sampleArea) directoryCalls).map (fun s ↦
      ((s.store.inode 2).parentIndex, (s.store.inode 1).type)) = some (1, .dir) := by
    decide +kernel
  have htest : PartialRun.check step keepsNameSpace (initState sampleArea) directoryCalls =
      true := by
    decide +kernel
  obtain ⟨s, hs, hrecords⟩ := Option.map_eq_some_iff.mp hrecords
  rw [Prod.mk.injEq] at hrecords
  have hkeeps := PartialRun.along_of_check
    (P := fun t e _ ↦ KeepsNameSpace t e) (fun _ _ _ h ↦ keepsNameSpace_spec h) htest
  exact ⟨s, tree_of_directories sampleArea directoryCalls s hkeeps hs, hs, hrecords⟩

/-- `create` of `f/g` enters `g` into the regular file `f`. -/
theorem file_as_parent : ∃ s, PartialRun.run step (initState sampleArea) (sampleCalls
      [.creat sampleName 1 fun _ ↦ 0, .creat ⟨[102, 47, 103], by decide⟩ 1 fun _ ↦ 0]) = some s ∧
    ¬ TreeOfDirectories s.store := by
  have hrecords : (PartialRun.run step (initState sampleArea) (sampleCalls
      [.creat sampleName 1 fun _ ↦ 0, .creat ⟨[102, 47, 103], by decide⟩ 1 fun _ ↦ 0])).map
      (fun s ↦ ((s.store.inode 2).operation, (s.store.inode 2).parentIndex,
        (s.store.inode 1).type)) = some (0x100, 1, .reg) := by
    decide +kernel
  obtain ⟨s, hs, hrecords⟩ := Option.map_eq_some_iff.mp hrecords
  rw [Prod.mk.injEq, Prod.mk.injEq] at hrecords
  obtain ⟨hop, hparent, htype⟩ := hrecords
  refine ⟨s, hs, fun htree ↦ ?_⟩
  have hused : s.store.InUse 2 := ⟨by simp, by rw [hop]; decide⟩
  have hdir := (htree.parent 2 hused (by decide)).2
  rw [hparent, htype] at hdir
  cases hdir

end OperatingSystem.Filesys
