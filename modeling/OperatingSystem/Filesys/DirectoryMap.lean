import OperatingSystem.Filesys.Entries
import OperatingSystem.Filesys.Inodes
import OperatingSystem.Filesys.Pathnames
import OperatingSystem.Filesys.Tables

/-!
# Directories as finite maps

The names that successful creates and unlinks gave to the root directory are
remembered beside the state. `isExist` answers as this map says as long as all
entries fit into the first block of the directory: the entry that would start
the second block is written where no search finds it.
-/

namespace OperatingSystem.Filesys

open ByteMemory

variable {area : Area}

/-- A name of an entry in the current directory. -/
def PlainName (name : List UInt8) : Prop :=
  1 ≤ name.length ∧ name.length ≤ 13 ∧ (47 : UInt8) ∉ name

instance (name : List UInt8) : Decidable (PlainName name) := inferInstanceAs (Decidable (_ ∧ _))

/-- A state, and the inode that the latest successful create of each name was
given, unless the name was unlinked since. -/
structure Named (area : Area) where
  state : State area
  named : List UInt8 → Option ℕ

def recordName (name : List UInt8) (ret : ℤ) (i : Option ℕ) (named : List UInt8 → Option ℕ) :
    List UInt8 → Option ℕ :=
  if ret = SUCCESS then Function.update named name i else named

/-- The system restricted to creates and unlinks of plain names, which all
work on the root directory. -/
def namedStep (t : Named area) (e : Event) : Option (Named area) :=
  match e.call with
  | .creat pathname _ _ | .mkdir pathname _ =>
      if PlainName pathname.chars then
        (ramdiskIoctl t.state e).map fun r ↦ ⟨r.2, recordName pathname.chars r.1.ret
          (some t.state.store.superblock.firstFreeInode) t.named⟩
      else none
  | .unlink pathname =>
      if PlainName pathname.chars then
        (ramdiskIoctl t.state e).map fun r ↦
          ⟨r.2, recordName pathname.chars r.1.ret none t.named⟩
      else none
  | _ => none

/-- The address of entry `k` of a directory. -/
def Store.directoryEntry (st : Store area) (ino : MyInode) (k : ℕ) : ℕ :=
  st.logicalPtr ino (k / 16) + 16 * (k % 16)

/-- `isExist` on the root directory computes the map, and no two entries hold
the same name. -/
structure FaithfulMap (st : Store area) (named : List UInt8 → Option ℕ) : Prop where
  isExist : ∀ name, PlainName name → (0 : UInt8) ∉ name → ∀ d, ∃ r,
    isExist st name 0 d = some r ∧ r.ans =
      match named name with
      | some i => (i : ℤ)
      | none => ERROR
  unique : ∀ k l name, k < (st.inode 0).size / 16 → l < (st.inode 0).size / 16 →
    StringAt st.space (st.directoryEntry (st.inode 0) k) name →
    StringAt st.space (st.directoryEntry (st.inode 0) l) name → k = l

/-- A create or unlink that gets to the directory finds fewer than 16 entries. -/
def DiskOp.FitsFirstBlock (st : Store area) : DiskOp → Prop
  | .create .. => (st.inode 0).size < blockSize
  | .unlink .. => (st.inode 0).size < blockSize
  | _ => True

/-! ## Plain names -/

theorem stripBack_of_plain {name : List UInt8} (h : (47 : UInt8) ∉ name) :
    stripBack name = (0, name) := by
  unfold stripBack
  split
  · simp at h
  · rfl

theorem partition_of_plain {name : List UInt8} (h : (47 : UInt8) ∉ name) :
    partition name = ([], name) := by
  induction name with
  | nil => rfl
  | cons c cs ih =>
      rw [List.mem_cons, not_or] at h
      rw [partition, if_neg (Ne.symm h.1), ih h.2]

theorem skipPrefix_of_plain {name pre : List UInt8} (h : (47 : UInt8) ∉ name)
    (hpre : (47 : UInt8) ∈ pre) : skipPrefix pre name = name := by
  apply if_neg
  rw [List.isPrefixOf_iff_prefix]
  intro hstart
  exact h (hstart.subset hpre)

theorem resolve_of_plain {st : Store area} {fdt : FDT} {name : List UInt8}
    (hfdt : fdt.fileObjects = [⟨0, 0⟩]) (h : (47 : UInt8) ∉ name) :
    resolve st fdt name = some (some (0, name, -1)) := by
  have hslash : ¬ [47].isPrefixOf name = true := by
    rw [List.isPrefixOf_iff_prefix]
    intro hstart
    exact h (hstart.subset (by simp))
  have hread : readPathname st fdt name = some (.parsed 0 [] name) := by
    simp only [readPathname, hfdt, List.head?_cons, stripBack_of_plain h,
      skipPrefix_of_plain h (show (47 : UInt8) ∈ [46, 47] by simp),
      skipPrefix_of_plain h (show (47 : UInt8) ∈ [47] by simp), if_neg hslash,
      partition_of_plain h, climb, Option.bind_eq_bind, Option.bind_some]
    rfl
  have hne : (0 : ℤ) ≠ ERROR := by decide
  simp [resolve, hread, walkParents, hne]

/-! ## Tables -/

/-- No process has a file open or left the root directory. -/
def FreshTables (fdtList : List FDT) : Prop := ∀ fdt ∈ fdtList, fdt.fileObjects = [⟨0, 0⟩]

theorem FreshTables.table {s : State area} (h : FreshTables s.fdtList) (cur : Process) :
    (getFDT cur s).1.fileObjects = [⟨0, 0⟩] :=
  table_of_forall (P := fun fileObjects _ ↦ fileObjects = [⟨0, 0⟩]) h rfl cur

theorem FreshTables.tables {s : State area} (h : FreshTables s.fdtList) (cur : Process) :
    FreshTables (s.tables cur) := by
  intro fdt hfdt
  rcases mem_tables_cases hfdt with hold | rfl
  · exact h fdt hold
  · exact h.table cur

theorem FreshTables.of_fdtList {s s' : State area} {cur : Process} (h : FreshTables s.fdtList)
    (hs : s'.fdtList = s.fdtList ∨ s'.fdtList = s.tables cur) : FreshTables s'.fdtList := by
  rcases hs with hs | hs
  · rw [hs]
    exact h
  · rw [hs]
    exact h.tables cur

/-! ## The directory -/

section Distinct

variable {α β : Type*} {n j : ℕ} {entry : ℕ → α} {e : α} (p : α → β)

theorem distinct_append (h : ∀ k < n, ∀ l < n, p (entry k) = p (entry l) → k = l)
    (hnew : ∀ k < n, p (entry k) ≠ p e) : ∀ k < n + 1, ∀ l < n + 1,
      p (Function.update entry n e k) = p (Function.update entry n e l) → k = l := by
  intro k hk l hl
  by_cases hkn : k = n
  · by_cases hln : l = n
    · intro _
      rw [hkn, hln]
    · rw [hkn, Function.update_self, Function.update_of_ne hln]
      exact fun heq ↦ (hnew l (by omega) heq.symm).elim
  · by_cases hln : l = n
    · rw [hln, Function.update_self, Function.update_of_ne hkn]
      exact fun heq ↦ (hnew k (by omega) heq).elim
    · rw [Function.update_of_ne hkn, Function.update_of_ne hln]
      exact h k (by omega) l (by omega)

/-- After the last entry was moved to place `j`, every entry is one from
before. -/
theorem entry_after_remove (entry : ℕ → α) {l : ℕ} (hj : j < n) (hl : l < n - 1) : ∃ m < n, m ≠ j ∧
    Function.update entry j (entry (n - 1)) l = entry m ∧ (m = l ∨ (l = j ∧ m = n - 1)) := by
  by_cases hlj : l = j
  · exact ⟨n - 1, by omega, by omega, by rw [hlj, Function.update_self], .inr ⟨hlj, rfl⟩⟩
  · exact ⟨l, by omega, hlj, by rw [Function.update_of_ne hlj], .inl rfl⟩

theorem distinct_remove (h : ∀ k < n, ∀ l < n, p (entry k) = p (entry l) → k = l) (hj : j < n) :
    ∀ k < n - 1, ∀ l < n - 1, p (Function.update entry j (entry (n - 1)) k) =
      p (Function.update entry j (entry (n - 1)) l) → k = l := by
  intro k hk l hl heq
  obtain ⟨k', hk', -, hke, hk''⟩ := entry_after_remove entry hj hk
  obtain ⟨l', hl', -, hle, hl''⟩ := entry_after_remove entry hj hl
  rw [hke, hle] at heq
  have hsame := h k' hk' l' hl' heq
  omega

end Distinct

/-- The record of a file or a directory that has an entry in the root. -/
structure ChildRecord (st : Store area) (i : ℕ) : Prop where
  ne_root : i ≠ 0
  inUse : st.InUse i
  blockNumber : (st.inode i).blockNumber = -1
  parentIndex : (st.inode i).parentIndex = 0

/-- The root directory has exactly `n` entries, all in block 0. -/
structure RootDirectory (st : Store area) (n : ℕ) (entry : ℕ → List UInt8 × ℕ) : Prop where
  le : n ≤ 16
  size : (st.inode 0).size = 16 * n
  blockNumber : (st.inode 0).blockNumber = ((16 * n / 256 : ℕ) : ℤ)
  lastBlockOffset : (st.inode 0).lastBlockOffset = ((16 * n % 256 : ℕ) : ℤ)
  location : (st.inode 0).location 0 = area.blockAddr 0
  inUse : st.InUse 0
  listing : Listing area st.space n entry
  names : ∀ k < n, ∀ l < n, (entry k).1 = (entry l).1 → k = l
  inodes : ∀ k < n, ∀ l < n, (entry k).2 = (entry l).2 → k = l
  records : ∀ k < n, ChildRecord st (entry k).2

theorem rootDirectory_init (area : Area) (entry : ℕ → List UInt8 × ℕ) :
    RootDirectory (initDatastructure area) 0 entry where
  le := by omega
  size := rfl
  blockNumber := rfl
  lastBlockOffset := rfl
  location := by simp [initDatastructure, rootInode, Area.blockAddr]
  inUse := ⟨by simp, by simp [initDatastructure, rootInode]⟩
  listing := fun k hk ↦ by omega
  names := fun k hk ↦ by omega
  inodes := fun k hk ↦ by omega
  records := fun k hk ↦ by omega

namespace RootDirectory

variable {st st' : Store area} {n : ℕ} {entry : ℕ → List UInt8 × ℕ}

theorem isExist (h : RootDirectory st n entry) {name : List UInt8} (hnul : (0 : UInt8) ∉ name)
    (d : ℤ) : ∃ r, isExist st name 0 d = some r ∧
      ((∃ k, k < n ∧ (entry k).1 = name ∧ r.ans = (entry k).2 ∧ r.directoryIndex = d + k + 1) ∨
        ((∀ k < n, (entry k).1 ≠ name) ∧ r.ans = ERROR)) :=
  isExist_spec h.listing h.le h.size h.location hnul d

theorem writeEntry (h : RootDirectory st n entry) (hn : n ≤ 15) {name : List UInt8} {i : ℕ}
    (hlength : name.length ≤ 13) (fresh : ℕ → UInt8) :
    writeFile st 0 (toInt (st.inode 0).size) (entryBytes name i fresh) 'c' =
      some ((16 : ℤ), (16 * n + 16 : ℤ), ({ st with
        space := writeBytes st.space (entryAddr area n) (entryBytes name i fresh) } :
          Store area).setInode 0 ((st.inode 0).grow 16)) := by
  have hlen := length_entryBytes hlength i fresh
  have hpos : toInt (st.inode 0).size = 16 * n := by
    rw [h.size, toInt_of_lt (by omega)]
    push_cast
    ring
  have hdiv : (16 * n : ℤ).tdiv blockSize = 0 := by
    rw [Int.tdiv_eq_ediv_of_nonneg (by omega)]
    simp only [blockSize]
    omega
  have hmod : (16 * n : ℤ).tmod blockSize = 16 * n := by
    rw [Int.tmod_eq_emod_of_nonneg (by omega)]
    simp only [blockSize]
    omega
  have hptr : switchAddress st (st.inode 0) ((16 * n : ℤ).tdiv blockSize)
      ((16 * n : ℤ).tmod blockSize) = some (entryAddr area n) := by
    rw [hdiv, hmod]
    exact switchAddress_entryAddr h.location (by omega) rfl
  have hholds : area.Holds (entryAddr area n) (entryBytes name i fresh).length := by
    rw [hlen]
    exact holds_entryStart (by omega) (by omega)
  have hne : entryAddr area n ≠ 0 := by
    have haddr := area.blockAddr_ne_zero 0
    simp only [entryAddr]
    omega
  have hroot : (st.inode 0).location 0 ≠ 0 := by
    rw [h.location]
    exact area.blockAddr_ne_zero 0
  have hfits : (16 * n : ℤ).tmod blockSize + (entryBytes name i fresh).length ≤ blockSize := by
    rw [hmod, hlen]
    simp only [blockSize]
    omega
  rw [hpos, writeFile_of_mapped h.inUse.1 (by simp) hroot hne hptr hfits fun _ ↦ hholds, hlen]
  rfl

theorem create (h : RootDirectory st n entry) (hfree : FirstInodeFree st) (hn : n ≤ 15)
    {name : List UInt8} (hnul : (0 : UInt8) ∉ name) (hlength : name.length ≤ 13)
    (hnew : ∀ k < n, (entry k).1 ≠ name) {mode ret : ℤ} {type : ObjectType} {fresh : ℕ → UInt8}
    (hcreate : createEntry st 0 name mode type fresh = some (ret, st')) :
    ret = SUCCESS ∧ RootDirectory st' (n + 1)
      (Function.update entry n (name, st.superblock.firstFreeInode)) := by
  obtain ⟨ret', pos, st₁, hw, hend⟩ := createEntry_cases hcreate
  rw [h.writeEntry hn hlength fresh, Option.some.injEq, Prod.mk.injEq, Prod.mk.injEq] at hw
  obtain ⟨hret, -, hst₁⟩ := hw
  have hinode₁ : st₁.inode = Function.update st.inode 0 ((st.inode 0).grow 16) := by
    rw [← hst₁]
    rfl
  have hspace₁ : st₁.space = writeBytes st.space (entryAddr area n)
      (entryBytes name st.superblock.firstFreeInode fresh) := by
    rw [← hst₁]
    rfl
  have hsuper₁ : st₁.superblock = st.superblock := by
    rw [← hst₁]
    rfl
  rcases hend with ⟨herror, -⟩ | ⟨-, rfl, ha⟩
  · cases hret.trans herror
  · refine ⟨rfl, ?_⟩
    obtain ⟨hlt, hinode, -, hspace, -⟩ := allocateInode_eq_some ha
    rw [hsuper₁] at hlt hinode
    have hop := hfree hlt
    have hroot : (0 : ℕ) ≠ st.superblock.firstFreeInode := by
      intro heq
      exact h.inUse.2 (heq ▸ hop)
    have hold : ∀ k < n, (entry k).2 ≠ st.superblock.firstFreeInode := by
      intro k hk heq
      exact (h.records k hk).inUse.2 (heq ▸ hop)
    -- the records after the entry was written and the inode was taken
    have hrootRecord : st'.inode 0 = (st.inode 0).grow 16 := by
      rw [hinode, Function.update_of_ne hroot, hinode₁, Function.update_self]
    have hnewRecord : st'.inode st.superblock.firstFreeInode =
        (st.inode st.superblock.firstFreeInode).renew 0 mode
          (if type = .dir then .dir else .reg) := by
      rw [hinode, Function.update_self, hinode₁, Function.update_of_ne hroot.symm]
    have hothers : ∀ k < n, st'.inode (entry k).2 = st.inode (entry k).2 := by
      intro k hk
      rw [hinode, Function.update_of_ne (hold k hk), hinode₁,
        Function.update_of_ne (h.records k hk).ne_root]
    have hsize : ((st.inode 0).grow 16).size = 16 * (n + 1) := by
      have hroot := h.size
      rw [MyInode.grow_size (by omega), hroot]
      omega
    have hlt' : st.superblock.firstFreeInode < 65536 := by
      simp only [inodeListNum] at hlt
      omega
    refine ⟨by omega, ?_, ?_, ?_, ?_, ?_, ?_, ?_, ?_, ?_⟩
    · rw [hrootRecord, hsize]
    · rw [hrootRecord, MyInode.grow_blockNumber, hsize]
    · rw [hrootRecord, MyInode.grow_lastBlockOffset, hsize]
    · rw [hrootRecord]
      exact h.location
    · refine ⟨by simp, ?_⟩
      rw [hrootRecord]
      exact h.inUse.2
    · rw [hspace, hspace₁]
      exact h.listing.append hnul hlength hlt' fresh
    · exact distinct_append Prod.fst h.names hnew
    · exact distinct_append Prod.snd h.inodes hold
    · intro k hk
      by_cases hkn : k = n
      · rw [hkn, Function.update_self]
        refine ⟨hroot.symm, ⟨hlt, ?_⟩, ?_, ?_⟩ <;> rw [hnewRecord]
        · simp [MyInode.renew]
        · rfl
        · rfl
      · have hchild := h.records k (by omega)
        rw [Function.update_of_ne hkn]
        refine ⟨hchild.ne_root, ⟨hchild.inUse.1, ?_⟩, ?_, ?_⟩ <;> rw [hothers k (by omega)]
        · exact hchild.inUse.2
        · exact hchild.blockNumber
        · exact hchild.parentIndex

theorem unlink (h : RootDirectory st n entry) (hn : n ≤ 15) {j : ℕ} (hj : j < n)
    (hfree : freeInode st (entry j).1 (entry j).2 = some st') :
    RootDirectory st' (n - 1) (Function.update entry j (entry (n - 1))) := by
  have hchild := h.records j hj
  obtain ⟨st₁, ret, st₂, h₁, h₂, hinode, -, hspace, -⟩ := freeInode_eq_some hfree
  rw [freeBlock_of_empty (.inl (by rw [hchild.blockNumber]; decide))] at h₁
  cases h₁
  rw [hchild.parentIndex] at h₂
  have hbn : (st.inode 0).blockNumber = 0 := by
    rw [h.blockNumber]
    omega
  have hlbo : (st.inode 0).lastBlockOffset = 16 * n := by
    rw [h.lastBlockOffset]
    omega
  obtain ⟨space, rfl, hlisting, -⟩ := freeParentDirectoryEntry_entries (by simp) h.listing hn hj
    h.inUse.1 h.size h.location hbn hlbo h.names h₂
  have hrootRecord : st'.inode 0 = (st.inode 0).shrink := by
    rw [hinode, Function.update_of_ne hchild.ne_root.symm, Store.setInode_inode]
  have hothers : ∀ l < n, l ≠ j → st'.inode (entry l).2 = st.inode (entry l).2 := by
    intro l hl hlj
    have hne : (entry l).2 ≠ (entry j).2 := fun heq ↦ hlj (h.inodes l hl j hj heq)
    rw [hinode, Function.update_of_ne hne, Store.setInode_inode_of_ne (h.records l hl).ne_root]
  refine ⟨by omega, ?_, ?_, ?_, ?_, ?_, ?_, ?_, ?_, ?_⟩
  · rw [hrootRecord, MyInode.shrink_size h.size (by omega) (by omega)]
  · rw [hrootRecord]
    change (st.inode 0).blockNumber = _
    rw [hbn]
    omega
  · rw [hrootRecord]
    change (st.inode 0).lastBlockOffset - 16 = _
    rw [hlbo]
    omega
  · rw [hrootRecord]
    exact h.location
  · refine ⟨h.inUse.1, ?_⟩
    rw [hrootRecord]
    exact h.inUse.2
  · rw [hspace]
    exact hlisting
  · exact distinct_remove Prod.fst h.names hj
  · exact distinct_remove Prod.snd h.inodes hj
  · intro l hl
    obtain ⟨m, hm, hmj, hle, -⟩ := entry_after_remove entry hj hl
    have hchild' := h.records m hm
    rw [hle]
    refine ⟨hchild'.ne_root, ⟨hchild'.inUse.1, ?_⟩, ?_, ?_⟩ <;> rw [hothers m hm hmj]
    · exact hchild'.inUse.2
    · exact hchild'.blockNumber
    · exact hchild'.parentIndex

end RootDirectory

/-! ## The map -/

/-- The entries of the root directory are the graph of the map. -/
def Records (st : Store area) (named : List UInt8 → Option ℕ) : Prop :=
  ∃ n entry, RootDirectory st n entry ∧
    ∀ name i, named name = some i ↔ ∃ k < n, entry k = (name, i)

theorem records_init (area : Area) : Records (initDatastructure area) fun _ ↦ none :=
  ⟨0, fun _ ↦ ([], 0), rootDirectory_init area _, by simp⟩

theorem Records.faithful {st : Store area} {named : List UInt8 → Option ℕ}
    (h : Records st named) : FaithfulMap st named := by
  obtain ⟨n, entry, hdir, hnamed⟩ := h
  refine ⟨?_, ?_⟩
  · intro name _ hnul d
    obtain ⟨r, hr, hcases⟩ := hdir.isExist hnul d
    refine ⟨r, hr, ?_⟩
    rcases hcases with ⟨k, hk, hname, hans, -⟩ | ⟨hnone, hans⟩
    · have hsome : named name = some (entry k).2 :=
        (hnamed name (entry k).2).mpr ⟨k, hk, by rw [← hname]⟩
      rw [hsome, hans]
    · have hnone' : named name = none := by
        rw [Option.eq_none_iff_forall_ne_some]
        intro i hi
        obtain ⟨k, hk, heq⟩ := (hnamed name i).mp hi
        exact hnone k hk (by rw [heq])
      rw [hnone', hans]
  · intro k l name hk hl hname hname'
    have hle := hdir.le
    rw [hdir.size, Nat.mul_div_cancel_left n (by omega)] at hk hl
    have haddr : ∀ m < n, st.directoryEntry (st.inode 0) m = entryAddr area m := by
      intro m hm
      have hdiv : m / 16 = 0 := by omega
      have hmod : m % 16 = m := by omega
      simp [Store.directoryEntry, Store.logicalPtr, hdiv, hmod, hdir.location, entryAddr]
    rw [haddr k hk] at hname
    rw [haddr l hl] at hname'
    apply hdir.names k hk l hl
    rw [← hname.unique (hdir.listing k hk).string, ← hname'.unique (hdir.listing l hl).string]

theorem lookupNew_of_plain {st : Store area} {fdt : FDT} {name name' : List UInt8} {des : ℕ}
    (hfdt : fdt.fileObjects = [⟨0, 0⟩]) (hplain : (47 : UInt8) ∉ name)
    (h : lookupNew st fdt name = some (some (des, name'))) :
    des = 0 ∧ name' = name ∧ ∃ r, isExist st name 0 (-1) = some r ∧ r.ans = ERROR := by
  obtain ⟨position, r, hresolve, -, hr, hans⟩ := lookupNew_eq_some h
  cases (resolve_of_plain hfdt hplain).symm.trans hresolve
  exact ⟨rfl, rfl, r, hr, hans⟩

theorem lookup_of_plain {st : Store area} {fdt : FDT} {name name' : List UInt8} {i : ℕ}
    (hfdt : fdt.fileObjects = [⟨0, 0⟩]) (hplain : (47 : UInt8) ∉ name)
    (h : lookup st fdt name = some (some (name', i))) :
    name' = name ∧ ∃ r, isExist st name 0 (-1) = some r ∧ r.ans ≠ ERROR ∧ i = r.ans.toNat := by
  obtain ⟨des, position, r, hresolve, hr, hans, rfl⟩ := lookup_eq_some h
  cases (resolve_of_plain hfdt hplain).symm.trans hresolve
  exact ⟨rfl, r, hr, hans, rfl⟩

theorem Records.create {cur : Process} {name : List UInt8} {mode ret : ℤ} {type : ObjectType}
    {fresh : ℕ → UInt8} {s s' : State area} {named : List UInt8 → Option ℕ}
    (h : Records s.store named) (hfree : FirstInodeFree s.store) (htables : FreshTables s.fdtList)
    (hplain : PlainName name) (hnul : (0 : UInt8) ∉ name)
    (hfits : ∀ op, createOp cur name mode type fresh s = some op → op.FitsFirstBlock s.store)
    (hcreate : create cur name mode type fresh s = some (ret, s')) :
    Records s'.store
      (recordName name ret (some s.store.superblock.firstFreeInode) named) := by
  have hne : ERROR ≠ SUCCESS := by decide
  rcases create_cases hcreate with ⟨rfl, -, hstore⟩ | ⟨des, name', hlookup, hop, hentry, -⟩
  · rw [hstore, recordName, if_neg hne]
    exact h
  · obtain ⟨rfl, rfl, r, hr, hans⟩ := lookupNew_of_plain (htables.table cur) hplain.2.2 hlookup
    obtain ⟨n, entry, hdir, hnamed⟩ := h
    have hsize := hfits _ hop
    simp only [DiskOp.FitsFirstBlock, hdir.size, blockSize] at hsize
    -- the name is new
    have hnew : ∀ k < n, (entry k).1 ≠ name' := by
      obtain ⟨r', hr', hcases⟩ := hdir.isExist hnul (-1)
      cases hr.symm.trans hr'
      rcases hcases with ⟨k, -, -, hfound, -⟩ | ⟨hnone, -⟩
      · have herror : ERROR = -1 := rfl
        omega
      · exact hnone
    obtain ⟨rfl, hdir'⟩ := hdir.create hfree (by omega) hnul hplain.2.1 hnew hentry
    rw [recordName, if_pos rfl]
    refine ⟨n + 1, _, hdir', ?_⟩
    intro name i
    constructor
    · intro hname
      by_cases heq : name = name'
      · subst heq
        rw [Function.update_self] at hname
        cases hname
        exact ⟨n, by omega, Function.update_self ..⟩
      · rw [Function.update_of_ne heq] at hname
        obtain ⟨k, hk, hentry⟩ := (hnamed name i).mp hname
        refine ⟨k, by omega, ?_⟩
        rw [Function.update_of_ne (by omega), hentry]
    · rintro ⟨k, hk, hentry⟩
      by_cases hkn : k = n
      · rw [hkn, Function.update_self] at hentry
        cases hentry
        exact Function.update_self ..
      · rw [Function.update_of_ne hkn] at hentry
        have hne : name ≠ name' := by
          intro heq
          apply hnew k (by omega)
          rw [hentry]
          exact heq
        rw [Function.update_of_ne hne]
        exact (hnamed name i).mpr ⟨k, by omega, hentry⟩

theorem Records.unlink {cur : Process} {name : List UInt8} {ret : ℤ} {s s' : State area}
    {named : List UInt8 → Option ℕ} (h : Records s.store named)
    (htables : FreshTables s.fdtList) (hplain : PlainName name) (hnul : (0 : UInt8) ∉ name)
    (hfits : ∀ op, unlinkOp cur name s = some op → op.FitsFirstBlock s.store)
    (hunlink : rdUnlink cur name s = some (ret, s')) :
    Records s'.store (recordName name ret none named) := by
  have hne : ERROR ≠ SUCCESS := by decide
  rcases rdUnlink_cases hunlink with
    ⟨rfl, -, hstore, -⟩ | ⟨rfl, -, name', i, hop, hlookup, -, -, -, hfree, -⟩
  · rw [hstore, recordName, if_neg hne]
    exact h
  · obtain ⟨rfl, r, hr, hans, rfl⟩ := lookup_of_plain (htables.table cur) hplain.2.2 hlookup
    obtain ⟨n, entry, hdir, hnamed⟩ := h
    have hsize := hfits _ hop
    simp only [DiskOp.FitsFirstBlock, hdir.size, blockSize] at hsize
    obtain ⟨r', hr', hcases⟩ := hdir.isExist hnul (-1)
    cases hr.symm.trans hr'
    rcases hcases with ⟨j, hj, rfl, hindex, -⟩ | ⟨-, herror⟩
    · rw [hindex, Int.toNat_natCast] at hfree
      have hdir' := hdir.unlink (by omega) hj hfree
      rw [recordName, if_pos rfl]
      refine ⟨n - 1, _, hdir', ?_⟩
      intro name i
      constructor
      · intro hname
        have hother : name ≠ (entry j).1 := by
          rintro rfl
          rw [Function.update_self] at hname
          cases hname
        rw [Function.update_of_ne hother] at hname
        obtain ⟨k, hk, hentry⟩ := (hnamed name i).mp hname
        have hkj : k ≠ j := by
          rintro rfl
          exact hother (by rw [hentry])
        -- the last entry was moved to place `j`
        by_cases hlast : k = n - 1
        · refine ⟨j, by omega, ?_⟩
          rw [Function.update_self, ← hlast, hentry]
        · refine ⟨k, by omega, ?_⟩
          rw [Function.update_of_ne hkj, hentry]
      · rintro ⟨k, hk, hentry⟩
        obtain ⟨m, hm, hmj, hle, -⟩ := entry_after_remove entry hj hk
        rw [hle] at hentry
        have hother : name ≠ (entry j).1 := by
          intro heq
          apply hmj
          apply hdir.names m hm j hj
          rw [hentry]
          exact heq
        rw [Function.update_of_ne hother]
        exact (hnamed name i).mpr ⟨m, hm, hentry⟩
    · exact (hans herror).elim

/-! ## Runs -/

/-- A step of the restricted system is a create or an unlink of a plain name. -/
theorem namedStep_cases {t t' : Named area} {e : Event} (h : namedStep t e = some t') :
    step t.state e = some t'.state ∧ ∃ name, PlainName name ∧ (0 : UInt8) ∉ name ∧
      ((∃ mode type fresh ret, diskOp t.state e = createOp e.cur name mode type fresh t.state ∧
          create e.cur name mode type fresh t.state = some (ret, t'.state) ∧
          t'.named =
            recordName name ret (some t.state.store.superblock.firstFreeInode) t.named) ∨
        (∃ ret, diskOp t.state e = unlinkOp e.cur name t.state ∧
          rdUnlink e.cur name t.state = some (ret, t'.state) ∧
          t'.named = recordName name ret none t.named)) := by
  obtain ⟨cur, call⟩ := e
  cases call with
  | creat pathname mode fresh =>
      simp only [namedStep] at h
      split at h
      · next hplain =>
        obtain ⟨⟨reply, s'⟩, hioctl, rfl⟩ := Option.map_eq_some_iff.mp h
        obtain ⟨⟨ret, s''⟩, hcreate, heq⟩ := Option.map_eq_some_iff.mp hioctl
        cases heq
        exact ⟨by simp [step, hioctl], _, hplain, pathname.noNul,
          .inl ⟨mode, .reg, fresh, ret, rfl, hcreate, rfl⟩⟩
      · cases h
  | mkdir pathname fresh =>
      simp only [namedStep] at h
      split at h
      · next hplain =>
        obtain ⟨⟨reply, s'⟩, hioctl, rfl⟩ := Option.map_eq_some_iff.mp h
        obtain ⟨⟨ret, s''⟩, hcreate, heq⟩ := Option.map_eq_some_iff.mp hioctl
        cases heq
        exact ⟨by simp [step, hioctl], _, hplain, pathname.noNul,
          .inl ⟨1, .dir, fresh, ret, rfl, hcreate, rfl⟩⟩
      · cases h
  | unlink pathname =>
      simp only [namedStep] at h
      split at h
      · next hplain =>
        obtain ⟨⟨reply, s'⟩, hioctl, rfl⟩ := Option.map_eq_some_iff.mp h
        obtain ⟨⟨ret, s''⟩, hunlink, heq⟩ := Option.map_eq_some_iff.mp hioctl
        cases heq
        exact ⟨by simp [step, hioctl], _, hplain, pathname.noNul,
          .inr ⟨ret, rfl, hunlink, rfl⟩⟩
      · cases h
  | _ => cases h

structure MapInvariant (t : Named area) : Prop where
  tables : FreshTables t.state.fdtList
  firstFreeInode : FirstInodeFree t.state.store
  records : Records t.state.store t.named

theorem mapInvariant_init (area : Area) :
    MapInvariant (⟨initState area, fun _ ↦ none⟩ : Named area) where
  tables := by simp [FreshTables, initState]
  firstFreeInode := firstInodeFree_init area
  records := records_init area

theorem MapInvariant.step {t t' : Named area} {e : Event} (h : MapInvariant t)
    (hfits : ∀ op, diskOp t.state e = some op → op.FitsFirstBlock t.state.store)
    (hstep : namedStep t e = some t') : MapInvariant t' := by
  obtain ⟨hrun, name, hplain, hnul, hcases⟩ := namedStep_cases hstep
  have hfree : FirstInodeFree t'.state.store := by
    obtain ⟨op, hop, hdisk⟩ := diskOp_of_step hrun
    refine h.firstFreeInode.run ?_ hdisk
    rintro name i rfl
    exact unlink_lt hop
  rcases hcases with ⟨mode, type, fresh, ret, hop, hcreate, hnamed⟩ | ⟨ret, hop, hunlink, hnamed⟩
  · rw [hop] at hfits
    refine ⟨h.tables.of_fdtList (create_fdtList hcreate), hfree, ?_⟩
    rw [hnamed]
    exact h.records.create h.firstFreeInode h.tables hplain hnul hfits hcreate
  · rw [hop] at hfits
    refine ⟨h.tables.of_fdtList (rdUnlink_fdtList hunlink), hfree, ?_⟩
    rw [hnamed]
    exact h.records.unlink h.tables hplain hnul hfits hunlink

/-- After every run of creates and unlinks in the root directory that never
meet 16 entries, `isExist` is the map of the names, without duplicates. -/
theorem directory_is_map (area : Area) (events : List Event) (t : Named area)
    (hfits : PartialRun.Along namedStep
      (fun u e _ ↦ ∀ op, diskOp u.state e = some op → op.FitsFirstBlock u.state.store)
      ⟨initState area, fun _ ↦ none⟩ events)
    (hrun : PartialRun.run namedStep ⟨initState area, fun _ ↦ none⟩ events = some t) :
    FaithfulMap t.state.store t.named := by
  have hinv : MapInvariant t :=
    PartialRun.invariant_of_along (fun _ _ _ hu hguard hstep ↦ hu.step hguard hstep)
      (mapInvariant_init area) hfits hrun
  exact hinv.records.faithful

/-- The files `f` and `g`, of which the first is removed, and a directory `f`. -/
def renewedName : List Event :=
  sampleCalls [.creat sampleName 1 fun _ ↦ 0, .creat secondName 1 fun _ ↦ 0, .unlink sampleName,
    .mkdir sampleName fun _ ↦ 0]

instance (st : Store area) : (op : DiskOp) → Decidable (op.FitsFirstBlock st)
  | .create .. => inferInstanceAs (Decidable (_ < _))
  | .unlink .. => inferInstanceAs (Decidable (_ < _))
  | .nothing => inferInstanceAs (Decidable True)
  | .write .. => inferInstanceAs (Decidable True)
  | .chmod .. => inferInstanceAs (Decidable True)

theorem directory_is_map_renewedName : ∃ t, FaithfulMap t.state.store t.named ∧
    PartialRun.run namedStep ⟨initState sampleArea, fun _ ↦ none⟩ renewedName = some t ∧
      (t.named sampleName.chars, t.named secondName.chars) = (some 1, some 2) := by
  have hnamed : (PartialRun.run namedStep ⟨initState sampleArea, fun _ ↦ none⟩
      renewedName).map (fun t ↦ (t.named sampleName.chars, t.named secondName.chars)) =
      some (some 1, some 2) := by
    decide +kernel
  have htest : PartialRun.check namedStep (fun t e ↦ (diskOp t.state e).all fun op ↦
      decide (op.FitsFirstBlock t.state.store)) ⟨initState sampleArea, fun _ ↦ none⟩
      renewedName = true := by
    decide +kernel
  obtain ⟨t, ht, hfacts⟩ := Option.map_eq_some_iff.mp hnamed
  refine ⟨t, directory_is_map sampleArea renewedName t ?_ ht, ht, hfacts⟩
  refine PartialRun.along_of_check ?_ htest
  intro u e _ hall op hop
  simpa [hop] using hall

def letterName (k : Fin 17) : CString := ⟨[97 + UInt8.ofNat k], by revert k; decide⟩

def seventeenFiles : List Event :=
  sampleCalls ((List.finRange 17).map fun k ↦ .creat (letterName k) 1 fun _ ↦ 0)

/-- The seventeenth file of a directory is not found. -/
theorem seventeenth_entry_lost :
    ∃ t, PartialRun.run namedStep ⟨initState sampleArea, fun _ ↦ none⟩ seventeenFiles = some t ∧
      ¬ FaithfulMap t.state.store t.named := by
  have hrun : (PartialRun.run namedStep ⟨initState sampleArea, fun _ ↦ none⟩
      seventeenFiles).map (fun t ↦ (t.named [113],
        (isExist t.state.store [113] 0 (-1)).map SearchResult.ans)) =
      some (some 17, some ERROR) := by
    decide +kernel
  obtain ⟨t, ht, hfacts⟩ := Option.map_eq_some_iff.mp hrun
  obtain ⟨hnamed, hans⟩ := Prod.mk.inj hfacts
  refine ⟨t, ht, ?_⟩
  intro hfaithful
  obtain ⟨r, hr, hmap⟩ := hfaithful.isExist [113] (by decide) (by decide) (-1)
  rw [hr] at hans
  rw [hnamed] at hmap
  cases hmap.symm.trans (Option.some.inj hans)

end OperatingSystem.Filesys
