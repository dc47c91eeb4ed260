import OperatingSystem.Filesys.Inodes
import OperatingSystem.Filesys.Writing

/-!
# Reuse of inode records

Neither `free_inode` nor `allocate_inode` clears the pointers of a record. A
new file starts empty as long as only records without pointers are released
and no record outside its use is written.
-/

namespace OperatingSystem.Filesys

variable {area : Area}

structure EmptyFile (ino : MyInode) : Prop where
  size : ino.size = 0
  blockNumber : ino.blockNumber = -1
  location : ∀ k : ℕ, k < 10 → ino.location k = 0

instance (ino : MyInode) : Decidable (EmptyFile ino) :=
  decidable_of_iff
    (ino.size = 0 ∧ ino.blockNumber = -1 ∧ ∀ k : ℕ, k < 10 → ino.location k = 0)
    ⟨fun h ↦ ⟨h.1, h.2.1, h.2.2⟩, fun h ↦ ⟨h.size, h.blockNumber, h.location⟩⟩

/-- The first block of inode `i` in `st'` was free in `st`, and no other inode
has a pointer to it. -/
def OwnsFirstBlock (st : Store area) (i : ℕ) (st' : Store area) : Prop :=
  ∃ b < allocatableSpaceSize, (st'.inode i).location 0 = area.blockAddr b ∧
    st.used b = false ∧ st'.used b = true ∧
    ∀ j, j ≠ i → ∀ σ, st'.slotPtr (st'.inode j) σ ≠ area.blockAddr b

/-- A successful create hands out an empty file, and the first successful write
to an empty file gives it a block of its own. -/
def NewFilesEmpty (s : State area) (e : Event) (s' : State area) : Prop :=
  ∀ reply, ramdiskIoctl s e = some (reply, s') →
    match e.call with
    | .creat .. | .mkdir .. => reply.ret = SUCCESS →
        EmptyFile (s'.store.inode s.store.superblock.firstFreeInode)
    | .write fd _ => reply.ret ≠ ERROR → ∀ fo, (getFDT e.cur s).1.fileObject fd = some fo →
        EmptyFile (s.store.inode fo.inodeIndex) →
          OwnsFirstBlock s.store fo.inodeIndex s'.store
    | _ => True

/-- Only records in use are written, an empty file is first written before any
other block was taken, and only records without pointers are released. -/
def DiskOp.LeavesNoPointer (st : Store area) : DiskOp → Prop
  | .write i _ _ => RefusesWrite st (st.inode i) 'w' ∨
      (st.InUse i ∧ (EmptyFile (st.inode i) → st.superblock.firstFreeBlock = 1))
  | .create des _ _ _ _ => RefusesWrite st (st.inode des) 'c' ∨
      (st.InUse des ∧ st.superblock.firstFreeInode < wholeInodeRecords)
  | .unlink _ i => ∀ k : ℕ, k < 10 → (st.inode i).location k = 0
  | _ => True

instance (st : Store area) : (op : DiskOp) → Decidable (op.LeavesNoPointer st)
  | .write .. => inferInstanceAs (Decidable (_ ∨ _))
  | .create .. => inferInstanceAs (Decidable (_ ∨ _))
  | .unlink _ i => inferInstanceAs (Decidable (∀ k : ℕ, k < 10 → (st.inode i).location k = 0))
  | .nothing => inferInstanceAs (Decidable True)
  | .chmod .. => inferInstanceAs (Decidable True)

/-! ## The invariant -/

/-- Free records have no pointers, the first free record is free, and while
block 1 was never taken only the root directory has a pointer. -/
structure CleanRecords (st : Store area) : Prop where
  firstFreeBlock : st.superblock.firstFreeBlock ≤ 1
  firstFreeInode : FirstInodeFree st
  free : ∀ i < inodeListNum, (st.inode i).operation = 0 →
    ∀ k : ℕ, k < 10 → (st.inode i).location k = 0
  untouched : st.superblock.firstFreeBlock = 1 → st.used 1 = false ∧
    (st.inode 0).location 0 = area.blockAddr 0 ∧
    ∀ i, ∀ k : ℕ, k < 10 → (i, k) ≠ (0, 0) → (st.inode i).location k = 0

theorem cleanRecords_init (area : Area) : CleanRecords (initDatastructure area) where
  firstFreeBlock := le_refl 1
  firstFreeInode := firstInodeFree_init area
  free := by
    intro i _ hop k _
    by_cases hi : i = 0
    · subst hi
      simp [initDatastructure, rootInode] at hop
    · simp [initDatastructure, hi, zeroInode]
  untouched := by
    intro _
    refine ⟨?_, by simp [initDatastructure, rootInode, Area.blockAddr], ?_⟩
    · simp [Store.used, initDatastructure]
    · intro i k _ hne
      by_cases hi : i = 0
      · subst hi
        have hk : k ≠ 0 := by
          rintro rfl
          exact hne rfl
        simp [initDatastructure, rootInode, zeroInode, hk]
      · simp [initDatastructure, hi, zeroInode]

namespace CleanRecords

variable {st st' : Store area}

theorem writeFile {i : ℕ} {pos pos' ret : ℤ} {input : List UInt8} {type : Char}
    (h : CleanRecords st) (hguard : RefusesWrite st (st.inode i) type ∨ st.InUse i)
    (hw : writeFile st i pos input type = some (ret, pos', st')) : CleanRecords st' := by
  rcases hguard with hrefuse | hinUse
  · obtain ⟨-, rfl⟩ := writeFile_of_refuses hrefuse hw
    exact h
  · have heffect := BlockEffect.of_writeFile h.firstFreeBlock hw
    have hop := writeFile_operation hw
    have hothers := (writeFile_record hw).1
    refine ⟨heffect.firstFreeBlock_le h.firstFreeBlock, h.firstFreeInode.writeFile hw, ?_, ?_⟩
    · intro j hj hfree k hk
      rw [hop] at hfree
      have hne : j ≠ i := by
        rintro rfl
        exact hinUse.2 hfree
      rw [hothers j hne]
      exact h.free j hj hfree k hk
    · intro hone
      rcases heffect with hsame | htook
      · rw [hsame.firstFreeBlock] at hone
        obtain ⟨hused, hroot, hnull⟩ := h.untouched hone
        refine ⟨by rw [hsame.used, hused], by rw [hsame.location, hroot], ?_⟩
        intro j k hk hjk
        rw [hsame.location]
        exact hnull j k hk hjk
      · have hzero := htook.firstFreeBlock
        omega

theorem allocateInode {des : ℕ} {mode : ℤ} {type : ObjectType} (h : CleanRecords st)
    (ha : allocateInode st des mode type = some st') :
    CleanRecords st' ∧ EmptyFile (st'.inode st.superblock.firstFreeInode) := by
  obtain ⟨hlt, hinode, hbitmap, -, hsuper⟩ := allocateInode_eq_some ha
  have hloc : ∀ j, (st'.inode j).location = (st.inode j).location := by
    intro j
    rw [hinode]
    apply Store.update_field MyInode.location
    rfl
  have hnull := h.free _ hlt (h.firstFreeInode hlt)
  refine ⟨⟨?_, .allocateInode ha, ?_, ?_⟩, ?_⟩
  · rw [hsuper]
    exact h.firstFreeBlock
  · intro j hj hfree k hk
    rw [hloc]
    by_cases hne : j = st.superblock.firstFreeInode
    · rw [hne]
      exact hnull k hk
    · rw [hinode, Function.update_of_ne hne] at hfree
      exact h.free j hj hfree k hk
  · intro hone
    rw [hsuper] at hone
    obtain ⟨hused, hroot, hnone⟩ := h.untouched hone
    refine ⟨?_, by rw [hloc, hroot], ?_⟩
    · simp only [Store.used, hbitmap] at hused ⊢
      exact hused
    · intro j k hk hjk
      rw [hloc]
      exact hnone j k hk hjk
  · rw [hinode, Function.update_self]
    exact ⟨rfl, rfl, hnull⟩

theorem freeInode {name : List UInt8} {i : ℕ} (h : CleanRecords st) (hi : i < inodeListNum)
    (hnull : ∀ k : ℕ, k < 10 → (st.inode i).location k = 0)
    (hfree : freeInode st name i = some st') : CleanRecords st' := by
  have hop := (freeInode_operation hfree).2
  obtain ⟨st₁, ret, st₂, h₁, h₂, hinode, hbitmap, -, hsuper⟩ := freeInode_eq_some hfree
  obtain rfl := freeBlock_of_null (hnull 0 (by omega)) (hnull 8 (by omega)) h₁
  obtain ⟨hsame, hsb⟩ := freeParentDirectoryEntry_same h₂
  have hloc : ∀ j, (st'.inode j).location = (st₁.inode j).location := by
    intro j
    rw [hinode, ← hsame.location]
    apply Store.update_field MyInode.location
    rfl
  refine ⟨?_, h.firstFreeInode.freeInode hi hfree, ?_, ?_⟩
  · rw [hsuper, hsb]
    exact h.firstFreeBlock
  · intro j hj hzero k hk
    rw [hloc]
    by_cases hne : j = i
    · rw [hne]
      exact hnull k hk
    · rw [hop j hne] at hzero
      exact h.free j hj hzero k hk
  · intro hone
    rw [hsuper, hsb] at hone
    obtain ⟨hused, hroot, hnone⟩ := h.untouched hone
    refine ⟨?_, by rw [hloc, hroot], ?_⟩
    · simp only [Store.used, hbitmap, hsame.bitmap] at hused ⊢
      exact hused
    · intro j k hk hjk
      rw [hloc]
      exact hnone j k hk hjk

/-- The first write to an empty file takes block 1, which nobody else has. -/
theorem ownsFirstBlock {i : ℕ} {pos pos' ret : ℤ} {input : List UInt8} {type : Char}
    (h : CleanRecords st) (hempty : EmptyFile (st.inode i))
    (hfirst : st.superblock.firstFreeBlock = 1)
    (hw : Filesys.writeFile st i pos input type = some (ret, pos', st')) (hret : ret ≠ ERROR) :
    OwnsFirstBlock st i st' := by
  obtain ⟨hused, hroot, hnone⟩ := h.untouched hfirst
  have hothers := (writeFile_record hw).1
  rcases writeFile_phases hw with
    ⟨herror, -, -⟩ | ⟨ptr, st₁, wPtr, ptr', st₂, r, h₁, hne, -, h₂, hr, -, -, rfl⟩
  · exact (hret herror).elim
  · have hbn := hempty.blockNumber
    simp only [orAllocate, hempty.location 0 (by omega), if_true] at h₁
    have hlow : st.superblock.firstFreeBlock < allocatableSpaceSize := by
      simp [hfirst]
    rcases allocateBlock_direct_cases h₁ hlow (by omega) (by omega) with ⟨hnull, -⟩ | ⟨-, rfl⟩
    · exact (hne hnull).elim
    · have hslot : ((st.installDirect i).inode i).location 0 = area.blockAddr 1 := by
        simp [Store.installDirect, hbn, hfirst]
      have hmarked : (st.installDirect i).used 1 = true := by
        simp [Store.used, Store.installDirect, Store.takeBlock, hfirst]
      have hkeeps := (KeepsSlots.of_orAllocate h₂).trans (.of_writeLoop hr)
      have htook : BlockEffect (st.installDirect i) r.store := by
        have hzero : (st.installDirect i).superblock.firstFreeBlock ≤ 1 := by
          simp [Store.installDirect, Store.takeBlock, hfirst]
        have heffect := BlockEffect.of_orAllocate hzero h₂
        exact heffect.trans (.of_writeLoop (heffect.firstFreeBlock_le hzero) hr)
      refine ⟨1, by simp, ?_, hused, ?_, ?_⟩
      · have hkept := hkeeps.location 0 (by omega) (by simp [Store.installDirect, hbn])
        simpa [MyInode.grow] using hkept.trans hslot
      · rcases htook with hsame | htook
        · exact (hsame.used 1).trans hmarked
        · exact htook.keep 1 hmarked
      · intro j hj σ haddr
        rw [hothers j hj] at haddr
        have hindirect : ∀ k : ℕ, 8 ≤ k → k < 10 → (st.inode j).location k = 0 := by
          intro k hk hk'
          refine hnone j k hk' ?_
          intro heq
          cases heq
          omega
        obtain ⟨k, rfl⟩ := slotPtr_of_direct (hindirect 8 (by omega) (by omega))
          (hindirect 9 (by omega) (by omega)) (haddr ▸ area.blockAddr_ne_zero 1)
        simp only [Store.slotPtr] at haddr
        by_cases hjk : (j, k.val) = (0, 0)
        · obtain ⟨rfl, hk⟩ := Prod.mk.inj hjk
          rw [hk, hroot, Area.blockAddr_inj] at haddr
          omega
        · rw [hnone j k k.isLt hjk] at haddr
          exact area.blockAddr_ne_zero 1 haddr.symm

end CleanRecords

/-! ## Steps -/

theorem createEntry_clean {st st' : Store area} {des : ℕ} {name : List UInt8} {mode ret : ℤ}
    {type : ObjectType} {fresh : ℕ → UInt8} (h : CleanRecords st)
    (hguard : (DiskOp.create des name mode type fresh).LeavesNoPointer st)
    (hcreate : createEntry st des name mode type fresh = some (ret, st')) :
    CleanRecords st' ∧
      (ret = SUCCESS → EmptyFile (st'.inode st.superblock.firstFreeInode)) := by
  obtain ⟨ret', pos, st₁, hw, hend⟩ := createEntry_cases hcreate
  have hst₁ : CleanRecords st₁ := h.writeFile (hguard.imp_right And.left) hw
  have hfirst := (writeFile_record hw).2.2
  rcases hend with ⟨-, rfl, rfl⟩ | ⟨-, -, ha⟩
  · exact ⟨hst₁, fun herror ↦ by cases herror⟩
  · obtain ⟨hclean, hempty⟩ := hst₁.allocateInode ha
    rw [hfirst] at hempty
    exact ⟨hclean, fun _ ↦ hempty⟩

theorem CleanRecords.run {st st' : Store area} {op : DiskOp} (h : CleanRecords st)
    (hguard : op.LeavesNoPointer st) (hindex : ∀ name i, op = .unlink name i → i < inodeListNum)
    (hrun : op.run st = some st') : CleanRecords st' := by
  cases op with
  | nothing =>
      cases hrun
      exact h
  | write i pos input =>
      obtain ⟨⟨ret, pos', st₁⟩, hw, rfl⟩ := Option.map_eq_some_iff.mp hrun
      exact h.writeFile (hguard.imp_right And.left) hw
  | create des name mode type fresh =>
      obtain ⟨⟨ret, st₁⟩, hcreate, rfl⟩ := Option.map_eq_some_iff.mp hrun
      exact (createEntry_clean h hguard hcreate).1
  | unlink name i => exact h.freeInode (hindex name i rfl) hguard hrun
  | chmod i mode =>
      cases hrun
      have hsame : SameBlocks st (st.setInode i { st.inode i with mode := mode }) :=
        .setInode st rfl
      have hop := chmod_operation st i mode
      have hfirst : FirstInodeFree (st.setInode i { st.inode i with mode := mode }) := by
        rw [FirstInodeFree, hop]
        exact h.firstFreeInode
      refine ⟨h.firstFreeBlock, hfirst, fun j hj hfree k hk ↦ ?_, fun hone ↦ ?_⟩
      · rw [hop] at hfree
        rw [hsame.location]
        exact h.free j hj hfree k hk
      · obtain ⟨hused, hroot, hnone⟩ := h.untouched hone
        refine ⟨hused, by rw [hsame.location, hroot], fun j k hk hjk ↦ ?_⟩
        rw [hsame.location]
        exact hnone j k hk hjk

theorem newFilesEmpty_of_step {s s' : State area} {e : Event} (h : CleanRecords s.store)
    (hguard : ∀ op, diskOp s e = some op → op.LeavesNoPointer s.store) :
    NewFilesEmpty s e s' := by
  have hcreated : ∀ pathname mode type fresh reply,
      (create e.cur pathname mode type fresh s).map replyOnly = some (reply, s') →
      createOp e.cur pathname mode type fresh s = diskOp s e → reply.ret = SUCCESS →
      EmptyFile (s'.store.inode s.store.superblock.firstFreeInode) := by
    intro pathname mode type fresh reply hcall hop hret
    obtain ⟨⟨ret, s''⟩, hcreate, heq⟩ := Option.map_eq_some_iff.mp hcall
    cases heq
    rcases create_cases hcreate with ⟨herror, -⟩ | ⟨des, name, -, hcreateOp, hentry, -⟩
    · cases herror.symm.trans hret
    · exact (createEntry_clean h (hguard _ (hop ▸ hcreateOp)) hentry).2 hret
  obtain ⟨cur, call⟩ := e
  intro reply hreply
  cases call with
  | creat pathname mode fresh => exact hcreated _ _ _ _ reply hreply rfl
  | mkdir pathname fresh => exact hcreated _ _ _ _ reply hreply rfl
  | write fd input =>
      intro hret fo hfo hempty
      obtain ⟨⟨ret, s''⟩, hwrite, heq⟩ := Option.map_eq_some_iff.mp hreply
      cases heq
      rcases rdWrite_cases hwrite with ⟨hnone, -⟩ | ⟨fo', pos, st, hfo', hw, rfl⟩
      · cases hnone.symm.trans hfo
      · cases hfo'.symm.trans hfo
        have hop : diskOp s ⟨cur, .write fd input⟩ =
            some (.write fo.inodeIndex fo.position input) := by
          simp [diskOp, hfo]
        rcases hguard _ hop with hrefuse | ⟨-, hfirst⟩
        · exact (hret (writeFile_of_refuses hrefuse hw).1).elim
        · exact h.ownsFirstBlock hempty (hfirst hempty) hw hret
  | _ => trivial

/-! ## Runs -/

/-- In every run in which no record keeps a pointer beyond its use, every new
file starts empty and its first write gives it a block of its own. -/
theorem newFiles_empty (area : Area) (events : List Event)
    (h : PartialRun.Along step
      (fun s e _ ↦ ∀ op, diskOp s e = some op → op.LeavesNoPointer s.store)
      (initState area) events) :
    PartialRun.Along step NewFilesEmpty (initState area) events := by
  refine PartialRun.Along.of_invariant (I := fun s ↦ CleanRecords s.store) ?_ ?_
    (cleanRecords_init area) h
  · intro s e s' hclean hguard hstep
    obtain ⟨op, hop, hrun⟩ := diskOp_of_step hstep
    refine hclean.run (hguard op hop) ?_ hrun
    rintro name i rfl
    exact unlink_lt hop
  · intro s e s' hclean hguard _
    exact newFilesEmpty_of_step hclean hguard

def reuseCalls : List Event :=
  sampleCalls [.creat sampleName 1 fun _ ↦ 0, .unlink sampleName,
    .creat secondName 1 fun _ ↦ 0, .openPath secondName 1, .write 1 [120]]

theorem newFiles_empty_reuse :
    PartialRun.Along step NewFilesEmpty (initState sampleArea) reuseCalls := by
  apply newFiles_empty
  have htest : PartialRun.check step (fun s e ↦ (diskOp s e).all fun op ↦
      decide (op.LeavesNoPointer s.store)) (initState sampleArea) reuseCalls = true := by
    decide +kernel
  refine PartialRun.along_of_check ?_ htest
  intro s e _ hall op hop
  simpa [hop] using hall

def writtenAndRemoved : List Event :=
  sampleCalls [.creat sampleName 1 fun _ ↦ 0, .openPath sampleName 1, .write 1 [120], .close 1,
    .unlink sampleName]

/-- The file that is created after a file with one byte was removed has the
block of that file. -/
theorem new_file_keeps_old_block :
    ¬ PartialRun.Along step NewFilesEmpty (initState sampleArea)
      (writtenAndRemoved ++ sampleCalls [.creat secondName 1 fun _ ↦ 0]) := by
  have hrun : (PartialRun.run step (initState sampleArea) writtenAndRemoved).map (fun s ↦
      (s.store.superblock.firstFreeInode,
        (ramdiskIoctl s ⟨sampleProcess, .creat secondName 1 fun _ ↦ 0⟩).map fun r ↦
          (r.1, (r.2.store.inode 1).location 0))) =
      some (1, some (⟨SUCCESS, []⟩, sampleArea.blockAddr 1)) := by
    decide +kernel
  intro halong
  obtain ⟨s, hs, hfacts⟩ := Option.map_eq_some_iff.mp hrun
  obtain ⟨hfirst, hcreate⟩ := Prod.mk.inj hfacts
  obtain ⟨⟨reply, s'⟩, hioctl, heq⟩ := Option.map_eq_some_iff.mp hcreate
  obtain ⟨rfl, hslot⟩ := Prod.mk.inj heq
  have hstep : step s ⟨sampleProcess, .creat secondName 1 fun _ ↦ 0⟩ = some s' := by
    simp [step, hioctl]
  have hempty := halong.of_append hs hstep _ hioctl rfl
  rw [hfirst] at hempty
  have hnull := hempty.location 0 (by omega)
  dsimp only at hslot
  rw [hslot] at hnull
  exact sampleArea.blockAddr_ne_zero 1 hnull

end OperatingSystem.Filesys
