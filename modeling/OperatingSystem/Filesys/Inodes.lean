import OperatingSystem.Filesys.BlockMaps

/-!
# The free inode records

The scan of `allocate_inode`, and the invariant of the superblock that the
first free record is not in use.
-/

namespace OperatingSystem.Filesys

variable {area : Area}

theorem nextFreeInode_spec (inode : ℕ → MyInode) (fuel i : ℕ) :
    i ≤ nextFreeInode inode fuel i ∧ nextFreeInode inode fuel i ≤ i + fuel ∧
      (nextFreeInode inode fuel i < i + fuel →
        (inode (nextFreeInode inode fuel i)).operation = 0) := by
  induction fuel generalizing i with
  | zero => simp [nextFreeInode]
  | succ fuel ih =>
      by_cases hfree : (inode i).operation = 0
      · simp [nextFreeInode, hfree]
      · simp only [nextFreeInode, hfree, if_false]
        obtain ⟨hlow, hhigh, hop⟩ := ih (i + 1)
        exact ⟨by omega, by omega, fun hlt ↦ hop (by omega)⟩

def FirstInodeFree (st : Store area) : Prop :=
  st.superblock.firstFreeInode < inodeListNum →
    (st.inode st.superblock.firstFreeInode).operation = 0

theorem firstInodeFree_init (area : Area) : FirstInodeFree (initDatastructure area) := by
  intro _
  simp [initDatastructure, zeroInode]

theorem freeParentDirectoryEntry_operation {st st' : Store area} {name : List UInt8}
    {parent : ℕ} {ret : ℤ} (h : freeParentDirectoryEntry st name parent = some (ret, st'))
    (j : ℕ) : (st'.inode j).operation = (st.inode j).operation := by
  rcases freeParentDirectoryEntry_cases h with ⟨-, rfl⟩ | ⟨space, r, -, -, -, rfl⟩
  · rfl
  · apply Store.update_field MyInode.operation
    rfl

theorem freeParentDirectoryEntry_same {st st' : Store area} {name : List UInt8} {parent : ℕ}
    {ret : ℤ} (h : freeParentDirectoryEntry st name parent = some (ret, st')) :
    SameBlocks st st' ∧ st'.superblock = st.superblock := by
  rcases freeParentDirectoryEntry_cases h with ⟨-, rfl⟩ | ⟨space, r, -, -, -, rfl⟩
  · exact ⟨.refl _, rfl⟩
  · have hspace : SameBlocks st ({ st with space := space } : Store area) :=
      ⟨rfl, rfl, fun _ ↦ rfl⟩
    exact ⟨hspace.trans (.setInode _ rfl), rfl⟩

theorem freeInode_operation {st st' : Store area} {name : List UInt8} {i : ℕ}
    (h : freeInode st name i = some st') :
    (st'.inode i).operation = 0 ∧ ∀ j, j ≠ i → (st'.inode j).operation = (st.inode j).operation := by
  obtain ⟨st₁, ret, st₂, h₁, h₂, hinode, -, -, -⟩ := freeInode_eq_some h
  have hframe := FreeFrame.of_freeBlock h₁
  rw [hinode]
  refine ⟨by rw [Function.update_self]; rfl, fun j hj ↦ ?_⟩
  rw [Function.update_of_ne hj, freeParentDirectoryEntry_operation h₂, hframe.inode]

theorem freeInode_firstFreeInode {st st' : Store area} {name : List UInt8} {i : ℕ}
    (hi : i < inodeListNum) (h : freeInode st name i = some st') :
    st'.superblock.firstFreeInode = min st.superblock.firstFreeInode i := by
  obtain ⟨st₁, ret, st₂, h₁, h₂, -, -, -, hsuper⟩ := freeInode_eq_some h
  have hfirst : st₂.superblock.firstFreeInode = st.superblock.firstFreeInode := by
    rw [(freeParentDirectoryEntry_same h₂).2, (FreeFrame.of_freeBlock h₁).firstFreeInode]
  rw [hsuper, hfirst]
  simp only [inodeListNum] at hi
  dsimp only
  split
  · rw [toUInt16_of_lt (by omega)]
    omega
  · omega

theorem chmod_operation (st : Store area) (i : ℕ) (mode : ℤ) (j : ℕ) :
    ((st.setInode i { st.inode i with mode := mode }).inode j).operation =
      (st.inode j).operation := by
  apply Store.update_field MyInode.operation
  rfl

namespace FirstInodeFree

variable {st st' : Store area}

theorem writeFile {i : ℕ} {pos pos' ret : ℤ} {input : List UInt8} {type : Char}
    (h : FirstInodeFree st) (hw : writeFile st i pos input type = some (ret, pos', st')) :
    FirstInodeFree st' := by
  obtain ⟨-, -, hfirst⟩ := writeFile_record hw
  rw [FirstInodeFree, hfirst, writeFile_operation hw]
  exact h

theorem allocateInode {des : ℕ} {mode : ℤ} {type : ObjectType}
    (ha : allocateInode st des mode type = some st') : FirstInodeFree st' := by
  obtain ⟨hlt, hinode, -, -, hsuper⟩ := allocateInode_eq_some ha
  rw [FirstInodeFree, hsuper]
  intro hnext
  apply (nextFreeInode_spec st'.inode _ _).2.2
  simp only [inodeListNum] at *
  omega

theorem freeInode {name : List UInt8} {i : ℕ} (h : FirstInodeFree st) (hi : i < inodeListNum)
    (hfree : freeInode st name i = some st') : FirstInodeFree st' := by
  obtain ⟨hreleased, hothers⟩ := freeInode_operation hfree
  have hfirst := freeInode_firstFreeInode hi hfree
  intro hlt
  by_cases heq : st'.superblock.firstFreeInode = i
  · rw [heq]
    exact hreleased
  · have hkept : st'.superblock.firstFreeInode = st.superblock.firstFreeInode := by omega
    rw [hothers _ heq, hkept]
    rw [hkept] at hlt
    exact h hlt

theorem run {op : DiskOp} (h : FirstInodeFree st)
    (hindex : ∀ name i, op = .unlink name i → i < inodeListNum)
    (hrun : op.run st = some st') : FirstInodeFree st' := by
  cases op with
  | nothing =>
      cases hrun
      exact h
  | write i pos input =>
      obtain ⟨⟨ret, pos', st₁⟩, hw, rfl⟩ := Option.map_eq_some_iff.mp hrun
      exact h.writeFile hw
  | create des name mode type fresh =>
      obtain ⟨⟨ret, st₁⟩, hcreate, rfl⟩ := Option.map_eq_some_iff.mp hrun
      obtain ⟨ret', pos, st₂, hw, hend⟩ := createEntry_cases hcreate
      rcases hend with ⟨-, -, rfl⟩ | ⟨-, -, ha⟩
      · exact h.writeFile hw
      · exact allocateInode ha
  | unlink name i => exact h.freeInode (hindex name i rfl) hrun
  | chmod i mode =>
      cases hrun
      rw [FirstInodeFree, chmod_operation]
      exact h

end FirstInodeFree

end OperatingSystem.Filesys
