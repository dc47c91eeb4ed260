import OperatingSystem.Filesys.Effects

/-!
# Block maps

The block map of an inode read as a mathematical object: its slots on every
level, the pointer each slot holds, and the pointer of a logical block. Index
blocks are read from the data area as they are.
-/

namespace OperatingSystem.Filesys

open ByteMemory

variable {area : Area}

/-- A place of a block map that can hold a pointer: a slot of `location`, an
entry of the single-indirect block, an entry of the double-indirect block, or
an entry of a second-level block. -/
inductive Slot where
  | loc (k : Fin 10)
  | single (k : Fin 64)
  | double (j : Fin 64)
  | second (j k : Fin 64)
  deriving DecidableEq, Fintype

/-- The pointer stored at an address, or `NULL` if the index block itself is
missing. -/
def Store.entry (st : Store area) (index k : ℕ) : ℕ :=
  if index = 0 then 0 else leValue (readBytes st.space (index + 4 * k) 4)

def Store.slotPtr (st : Store area) (ino : MyInode) : Slot → ℕ
  | .loc k => ino.location k
  | .single k => st.entry (ino.location 8) k
  | .double j => st.entry (ino.location 9) j
  | .second j k => st.entry (st.entry (ino.location 9) j) k

def Store.logicalPtr (st : Store area) (ino : MyInode) (k : ℕ) : ℕ :=
  if k < 8 then ino.location k
  else if k < 72 then st.entry (ino.location 8) (k - 8)
  else st.entry (st.entry (ino.location 9) ((k - 72) / 64)) ((k - 72) % 64)

/-- Number of logical blocks of a file of `size` bytes. -/
def blockCount (size : ℕ) : ℕ := (size + 255) / 256

/-- The blocks of the data area that a block map uses, index blocks included. -/
def Store.fileBlocks (st : Store area) (ino : MyInode) : Set ℕ :=
  {b | ∃ σ : Slot, st.slotPtr ino σ = area.blockAddr b}

/-- Record `i` is inside the table and in use. -/
def Store.InUse (st : Store area) (i : ℕ) : Prop :=
  i < inodeListNum ∧ (st.inode i).operation ≠ 0

instance (st : Store area) (i : ℕ) : Decidable (st.InUse i) :=
  inferInstanceAs (Decidable (_ ∧ _))

theorem blockCount_pos {size : ℕ} (h : 0 < size) : 0 < blockCount size := by
  simp only [blockCount]
  omega

@[simp] theorem entry_zero (st : Store area) (k : ℕ) : st.entry 0 k = 0 := by
  simp [Store.entry]

theorem loadWord_entry_eq {st : Store area} {index k single : ℕ} (hindex : index ≠ 0)
    (h : st.loadWord (index + 4 * k) 4 = some single) :
    area.Holds (index + 4 * k) 4 ∧ single = st.entry index k := by
  simp only [Store.loadWord, Option.ite_none_right_eq_some] at h
  rw [Store.entry, if_neg hindex]
  exact ⟨h.1, (Option.some.inj h.2).symm⟩

theorem slotPtr_of_direct {st : Store area} {ino : MyInode} (h₈ : ino.location 8 = 0)
    (h₉ : ino.location 9 = 0) {σ : Slot} (h : st.slotPtr ino σ ≠ 0) :
    ∃ k : Fin 10, σ = .loc k := by
  cases σ with
  | loc k => exact ⟨k, rfl⟩
  | single k => exact (h (by simp [Store.slotPtr, h₈])).elim
  | double j => exact (h (by simp [Store.slotPtr, h₉])).elim
  | second j k => exact (h (by simp [Store.slotPtr, h₉])).elim

theorem logicalPtr_of_direct {st : Store area} {ino : MyInode} (h₈ : ino.location 8 = 0)
    (h₉ : ino.location 9 = 0) {k : ℕ} (h : st.logicalPtr ino k ≠ 0) :
    k < 8 ∧ st.logicalPtr ino k = ino.location k := by
  by_cases hk : k < 8
  · exact ⟨hk, by simp [Store.logicalPtr, hk]⟩
  · exact (h (by simp [Store.logicalPtr, hk, h₈, h₉])).elim

/-! ## The allocator answers -/

/-- From a state whose first free block is 0 or 1, `st'` was reached by taking
at least one block: the first free block is then 0, and only bits of the first
bitmap byte were set. -/
structure TookBlock (st st' : Store area) : Prop where
  firstFreeBlock : st'.superblock.firstFreeBlock = 0
  keep : ∀ b, st.used b = true → st'.used b = true
  same : ∀ b, 8 ≤ b → st'.used b = st.used b

namespace TookBlock

theorem of_takeBlock {st : Store area} {block : ℕ} (h : block ≤ 1) :
    TookBlock st (st.takeBlock block) := by
  have hzero : block / 8 = 0 := by omega
  refine ⟨by simp [Store.takeBlock, hzero], ?_, ?_⟩
  · intro b hb
    simp only [Store.used, Store.takeBlock, hzero] at hb ⊢
    by_cases hbyte : b / 8 = 0
    · rw [hbyte] at hb ⊢
      rw [Function.update_self, BitVec.getMsbD_or, hb, Bool.true_or]
    · rw [Function.update_of_ne hbyte]
      exact hb
  · intro b hb
    have hbyte : b / 8 ≠ 0 := by omega
    simp only [Store.used, Store.takeBlock, hzero, Function.update_of_ne hbyte]

theorem of_allocateBitmap {st st' : Store area} {block : ℕ} (hb : block ≤ 1)
    (h : allocateBitmap st block = some st') : TookBlock st st' := by
  rw [allocateBitmap_eq (by simp only [allocatableSpaceSize]; omega)] at h
  cases h
  exact of_takeBlock hb

theorem trans {st₁ st₂ st₃ : Store area} (h : TookBlock st₁ st₂) (g : TookBlock st₂ st₃) :
    TookBlock st₁ st₃ :=
  ⟨g.firstFreeBlock, fun b hb ↦ g.keep b (h.keep b hb),
    fun b hb ↦ (g.same b hb).trans (h.same b hb)⟩

theorem setInode {st st' : Store area} (h : TookBlock st st') (i : ℕ) (ino : MyInode) :
    TookBlock st (st'.setInode i ino) :=
  ⟨h.firstFreeBlock, h.keep, h.same⟩

theorem storeBytes {st st₁ st₂ : Store area} (h : TookBlock st st₁) {addr : ℕ}
    {bytes : List UInt8} (hs : st₁.storeBytes addr bytes = some st₂) : TookBlock st st₂ := by
  obtain ⟨-, rfl⟩ := Store.storeBytes_eq_some hs
  exact ⟨h.firstFreeBlock, h.keep, h.same⟩

theorem again {st st₁ st₂ : Store area} (h : TookBlock st st₁)
    (ha : allocateBitmap st₁ st₁.superblock.firstFreeBlock = some st₂) : TookBlock st st₂ :=
  h.trans (of_allocateBitmap (by rw [h.firstFreeBlock]; omega) ha)

theorem steps {st st₁ st₂ : Store area} {i : ℕ} (h : TookBlock st st₁)
    (hs : BlockSteps i st₁ st₂) : TookBlock st st₂ := by
  induction hs with
  | refl => exact h
  | take _ ht ih => exact ih.again ht
  | record _ loc bn lbo ih => exact ih.setInode ..
  | bytes _ hb ih => exact ih.storeBytes hb

end TookBlock

theorem tookBlock_of_allocateBlock {st st' : Store area} {i ptr : ℕ}
    (hfirst : st.superblock.firstFreeBlock ≤ 1) (h : allocateBlock st i = some (ptr, st'))
    (hrefuse : ¬ RefusesBlock st.superblock (st.inode i)) : TookBlock st st' := by
  rcases allocateBlock_cases h with ⟨hr, -⟩ | ⟨-, st₁, h₁, hsteps⟩
  · exact (hrefuse hr).elim
  · exact (TookBlock.of_allocateBitmap hfirst h₁).steps hsteps

/-! ## What a write does to the blocks -/

/-- No block is taken and no slot is written between the two stores. -/
structure SameBlocks (st st' : Store area) : Prop where
  bitmap : st'.bitmap = st.bitmap
  firstFreeBlock : st'.superblock.firstFreeBlock = st.superblock.firstFreeBlock
  location : ∀ j, (st'.inode j).location = (st.inode j).location

namespace SameBlocks

theorem refl (st : Store area) : SameBlocks st st := ⟨rfl, rfl, fun _ ↦ rfl⟩

theorem trans {st₁ st₂ st₃ : Store area} (h : SameBlocks st₁ st₂) (g : SameBlocks st₂ st₃) :
    SameBlocks st₁ st₃ :=
  ⟨g.bitmap.trans h.bitmap, g.firstFreeBlock.trans h.firstFreeBlock,
    fun j ↦ (g.location j).trans (h.location j)⟩

theorem setInode (st : Store area) {i : ℕ} {ino : MyInode}
    (h : ino.location = (st.inode i).location) : SameBlocks st (st.setInode i ino) :=
  ⟨rfl, rfl, Store.update_field MyInode.location h⟩

theorem of_storeBytes {st st' : Store area} {addr : ℕ} {bytes : List UInt8}
    (h : st.storeBytes addr bytes = some st') : SameBlocks st st' := by
  obtain ⟨-, rfl⟩ := Store.storeBytes_eq_some h
  exact ⟨rfl, rfl, fun _ ↦ rfl⟩

theorem used {st st' : Store area} (h : SameBlocks st st') (b : ℕ) : st'.used b = st.used b := by
  simp only [Store.used, h.bitmap]

end SameBlocks

/-- Either the stores agree on the blocks, or a block was taken. -/
def BlockEffect (st st' : Store area) : Prop := SameBlocks st st' ∨ TookBlock st st'

namespace BlockEffect

theorem firstFreeBlock_le {st st' : Store area} (h : BlockEffect st st')
    (hfirst : st.superblock.firstFreeBlock ≤ 1) : st'.superblock.firstFreeBlock ≤ 1 := by
  rcases h with hsame | htook
  · rw [hsame.firstFreeBlock]
    exact hfirst
  · rw [htook.firstFreeBlock]
    exact Nat.zero_le 1

theorem trans {st₁ st₂ st₃ : Store area} (h : BlockEffect st₁ st₂) (g : BlockEffect st₂ st₃) :
    BlockEffect st₁ st₃ := by
  rcases h with h | h
  · rcases g with g | g
    · exact .inl (h.trans g)
    · refine .inr ⟨g.firstFreeBlock, fun b hb ↦ g.keep b ?_, fun b hb ↦ ?_⟩
      · rw [h.used]
        exact hb
      · rw [g.same b hb, h.used]
  · rcases g with g | g
    · refine .inr ⟨g.firstFreeBlock.trans h.firstFreeBlock, fun b hb ↦ ?_, fun b hb ↦ ?_⟩
      · rw [g.used]
        exact h.keep b hb
      · rw [g.used, h.same b hb]
    · exact .inr (h.trans g)

theorem of_allocateBlock {st st' : Store area} {i ptr : ℕ}
    (hfirst : st.superblock.firstFreeBlock ≤ 1) (h : allocateBlock st i = some (ptr, st')) :
    BlockEffect st st' := by
  by_cases hrefuse : RefusesBlock st.superblock (st.inode i)
  · rw [allocateBlock_of_refuses hrefuse] at h
    cases h
    exact .inl (.refl st)
  · exact .inr (tookBlock_of_allocateBlock hfirst h hrefuse)

theorem of_orAllocate {st st' : Store area} {i p ptr : ℕ}
    (hfirst : st.superblock.firstFreeBlock ≤ 1) (h : orAllocate st i p = some (ptr, st')) :
    BlockEffect st st' := by
  simp only [orAllocate] at h
  split at h
  · exact of_allocateBlock hfirst h
  · cases h
    exact .inl (.refl st)

theorem of_writeLoop {i : ℕ} {bs : List UInt8} {st : Store area} {wPtr : ℕ} {off pos : ℤ}
    {n : ℕ} {r : WriteResult area} (hfirst : st.superblock.firstFreeBlock ≤ 1)
    (h : writeLoop i bs st wPtr off pos n = some r) : BlockEffect st r.store := by
  refine writeLoop_rel (R := fun st st' ↦ st.superblock.firstFreeBlock ≤ 1 → BlockEffect st st')
    (fun st _ ↦ .inl (.refl st)) (fun h g hfirst ↦ ?_) (fun h hfirst ↦ of_allocateBlock hfirst h)
    (fun h _ ↦ .inl (.of_storeBytes h)) h hfirst
  have heffect := h hfirst
  exact heffect.trans (g (heffect.firstFreeBlock_le hfirst))

theorem of_writeFile {i : ℕ} {pos pos' ret : ℤ} {input : List UInt8} {type : Char}
    {st st' : Store area} (hfirst : st.superblock.firstFreeBlock ≤ 1)
    (h : writeFile st i pos input type = some (ret, pos', st')) : BlockEffect st st' := by
  rcases writeFile_phases h with
    ⟨-, -, rfl⟩ | ⟨ptr, st₁, wPtr, ptr', st₂, r, h₁, -, -, h₂, hr, -, -, rfl⟩
  · exact .inl (.refl _)
  · have heffect₁ := of_orAllocate hfirst h₁
    have hfirst₁ := heffect₁.firstFreeBlock_le hfirst
    have heffect₂ := heffect₁.trans (of_orAllocate hfirst₁ h₂)
    have heffect := heffect₂.trans (of_writeLoop (heffect₂.firstFreeBlock_le hfirst) hr)
    exact heffect.trans (.inl (.setInode _ rfl))

end BlockEffect

end OperatingSystem.Filesys
