import OperatingSystem.Filesys.BlockMaps
import OperatingSystem.Lib.Lockstep

/-!
# Accesses to the block map

The entries of `location` and of the index blocks that `allocate_block`,
`switchAddress` and `get_blockpointer` use. On two disks that agree at the listed
entries the three functions do the same, and `allocate_block` stores to no other
entry and to no other byte of the data area.
-/

namespace OperatingSystem.Filesys

open ByteMemory Lockstep

variable {area : Area}

/-! ## Accesses -/

/-- An access to an array of the block map: `location`, `location` as the array
of the data slots, a single-indirect block, the double-indirect block and one of
its second-level blocks. Index blocks are given by their addresses. -/
inductive MapAccess where
  | location (k : ℤ)
  | data (k : ℤ)
  | single (index : ℕ) (k : ℤ)
  | double (index : ℕ) (k : ℤ)
  | second (index : ℕ) (k : ℤ)
  deriving DecidableEq

namespace MapAccess

def InRange : MapAccess → Prop
  | .location k => 0 ≤ k ∧ k < 10
  | .data k => 0 ≤ k ∧ k < 8
  | .single _ k => 0 ≤ k ∧ k < 64
  | .double _ k => 0 ≤ k ∧ k < 64
  | .second _ k => 0 ≤ k ∧ k < 64

/-- The access goes to `location[slot]`. -/
def IsSlot (slot : ℕ) : MapAccess → Prop
  | .location k => k = slot
  | .data k => k = slot
  | .single .. => False
  | .double .. => False
  | .second .. => False

def Covers (x : ℕ) : MapAccess → Prop
  | .location _ => False
  | .data _ => False
  | .single index k => index + 4 * k ≤ x ∧ x < index + 4 * k + 4
  | .double index k => index + 4 * k ≤ x ∧ x < index + 4 * k + 4
  | .second index k => index + 4 * k ≤ x ∧ x < index + 4 * k + 4

end MapAccess

def switchAccesses (st : Store area) (ino : MyInode) (blockNum : ℤ) : List MapAccess :=
  if blockNum < 8 then [.data blockNum]
  else if blockNum < 72 then
    .location 8 ::
      if ino.location 8 = 0 then [] else [.single (ino.location 8) (blockNum - 8)]
  else
    .location 9 ::
      if ino.location 9 = 0 then []
      else
        [.double (ino.location 9) ((blockNum - 72) / 64),
          .second (st.entry (ino.location 9) ((blockNum - 72).toNat / 64))
            ((blockNum - 72) % 64)]

def pointerAccesses (st : Store area) (ino : MyInode) (position : ℤ) : List MapAccess :=
  if position < 0 then [] else switchAccesses st ino (position.tdiv blockSize)

/-- The block that is the first free one after the first free one was taken. -/
def Store.secondFree (st : Store area) : ℕ :=
  match allocateBitmap st st.superblock.firstFreeBlock with
  | none => 0
  | some st => st.superblock.firstFreeBlock

/-- The accesses of `allocate_block`. An index block that it takes itself is the
first free block, or the second one below a new double-indirect block. -/
def allocateAccesses (st : Store area) (i : ℕ) : List MapAccess :=
  let ino := st.inode i
  let blockNum := ino.blockNumber + 1
  let newBlock := area.blockAddr st.superblock.firstFreeBlock
  if RefusesBlock st.superblock ino then []
  else if blockNum < 8 then [.data blockNum]
  else if blockNum < 72 then
    [.location 8,
      if ino.location 8 = 0 then .single newBlock 0
      else .single (ino.location 8) (blockNum - 8)]
  else if ino.location 9 = 0 then
    [.location 9, .double newBlock 0, .second (area.blockAddr st.secondFree) 0]
  else
    let entry := st.entry (ino.location 9) ((blockNum - 72).toNat / 64)
    [.location 9, .double (ino.location 9) ((blockNum - 72) / 64),
      if entry = 0 then .second newBlock 0 else .second entry ((blockNum - 72) % 64)]

/-! ## What is read -/

/-- Two block maps, each with its disk, are the same at these entries. -/
structure SameEntries (accesses : List MapAccess) (st : Store area) (ino : MyInode)
    (st' : Store area) (ino' : MyInode) : Prop where
  slots : ∀ a ∈ accesses, ∀ k, a.IsSlot k → ino'.location k = ino.location k
  bytes : ∀ a ∈ accesses, ∀ x, a.Covers x → st'.space x = st.space x

namespace SameEntries

variable {accesses : List MapAccess} {st st' : Store area} {ino ino' : MyInode}

theorem loadWord (h : SameEntries accesses st ino st' ino') {a : MapAccess} (ha : a ∈ accesses)
    {addr : ℕ} (hcovers : ∀ x, addr ≤ x → x < addr + 4 → a.Covers x) :
    st'.loadWord addr 4 = st.loadWord addr 4 := by
  have hbytes : readBytes st'.space addr 4 = readBytes st.space addr 4 :=
    readBytes_congr fun k hk ↦ h.bytes a ha _ (hcovers _ (by omega) (by omega))
  rw [Store.loadWord, Store.loadWord, hbytes]

theorem single (h : SameEntries accesses st ino st' ino') {index k : ℕ} {n : ℤ}
    (ha : .single index n ∈ accesses) (hk : n = k) :
    st'.loadWord (index + 4 * k) 4 = st.loadWord (index + 4 * k) 4 := by
  refine h.loadWord ha fun x hlow hhigh ↦ ?_
  simp only [MapAccess.Covers]
  omega

theorem double (h : SameEntries accesses st ino st' ino') {index k : ℕ} {n : ℤ}
    (ha : .double index n ∈ accesses) (hk : n = k) :
    st'.loadWord (index + 4 * k) 4 = st.loadWord (index + 4 * k) 4 := by
  refine h.loadWord ha fun x hlow hhigh ↦ ?_
  simp only [MapAccess.Covers]
  omega

theorem second (h : SameEntries accesses st ino st' ino') {index k : ℕ} {n : ℤ}
    (ha : .second index n ∈ accesses) (hk : n = k) :
    st'.loadWord (index + 4 * k) 4 = st.loadWord (index + 4 * k) 4 := by
  refine h.loadWord ha fun x hlow hhigh ↦ ?_
  simp only [MapAccess.Covers]
  omega

end SameEntries

/-- `switchAddress` reads the listed entries only. -/
theorem switchAddress_sameEntries {st st' : Store area} {ino ino' : MyInode} {blockNum : ℤ}
    (h : SameEntries (switchAccesses st ino blockNum) st ino st' ino') (blockOffset : ℤ) :
    switchAddress st' ino' blockNum blockOffset = switchAddress st ino blockNum blockOffset := by
  simp only [switchAddress]
  by_cases hdirect : blockNum < 8
  · rw [switchAccesses, if_pos hdirect] at h
    rw [if_pos hdirect, if_pos hdirect, MyInode.slot, MyInode.slot]
    split
    · next hslot =>
      rw [h.slots _ List.mem_cons_self blockNum.toNat (by simp only [MapAccess.IsSlot]; omega)]
    · rfl
  · rw [if_neg hdirect, if_neg hdirect]
    by_cases hsingle : blockNum < 72
    · rw [switchAccesses, if_neg hdirect, if_pos hsingle] at h
      rw [if_pos hsingle, if_pos hsingle, h.slots _ List.mem_cons_self 8 rfl]
      split
      · rfl
      · next hne =>
        rw [if_neg hne] at h
        rw [h.single (List.mem_cons_of_mem _ List.mem_cons_self)
          (show blockNum - 8 = (blockNum - 8).toNat by omega)]
    · rw [switchAccesses, if_neg hdirect, if_neg hsingle] at h
      rw [if_neg hsingle, if_neg hsingle, h.slots _ List.mem_cons_self 9 rfl]
      split
      · rfl
      · next hne =>
        rw [if_neg hne] at h
        rw [h.double (List.mem_cons_of_mem _ List.mem_cons_self)
          (show (blockNum - 72) / 64 = ((blockNum - 72).toNat / 64 : ℕ) by omega)]
        refine Option.bind_congr fun single hload ↦ ?_
        rw [← (loadWord_entry_eq hne hload).2] at h
        rw [h.second (List.mem_cons_of_mem _ (List.mem_cons_of_mem _ List.mem_cons_self))
          (show (blockNum - 72) % 64 = ((blockNum - 72).toNat % 64 : ℕ) by omega)]

/-- `get_blockpointer` differs from `switchAddress` by its tests only. -/
theorem getBlockpointer_sameEntries {st st' : Store area} {ino ino' : MyInode} {position : ℤ}
    (h : SameEntries (pointerAccesses st ino position) st ino st' ino') :
    getBlockpointer st' position ino' = getBlockpointer st position ino := by
  simp only [getBlockpointer]
  by_cases hneg : position < 0
  · rw [if_pos hneg, if_pos hneg]
  · rw [pointerAccesses, if_neg hneg] at h
    rw [if_neg hneg, if_neg hneg]
    have hswitch := switchAddress_sameEntries h (position.tmod blockSize)
    simp only [switchAddress] at hswitch
    by_cases hdirect : position.tdiv blockSize < 8
    · rw [switchAccesses, if_pos hdirect] at h
      rw [if_pos hdirect, if_pos hdirect, MyInode.slot, MyInode.slot]
      split
      · next hslot =>
        rw [h.slots _ List.mem_cons_self (position.tdiv blockSize).toNat (by
          simp only [MapAccess.IsSlot]; omega)]
      · rfl
    · rwa [if_neg hdirect, if_neg hdirect] at hswitch ⊢

/-- Two disks with the same free blocks and the same block count of inode `i` that
agree at these entries of its block map. -/
structure AgreeAt (accesses : List MapAccess) (i : ℕ) (st st' : Store area) : Prop where
  superblock : st'.superblock = st.superblock
  bitmap : st'.bitmap = st.bitmap
  blockNumber : (st'.inode i).blockNumber = (st.inode i).blockNumber
  entries : SameEntries accesses st (st.inode i) st' (st'.inode i)

namespace AgreeAt

variable {accesses : List MapAccess} {i : ℕ} {st st' : Store area}

theorem location (h : AgreeAt accesses i st st') {k : ℕ} (ha : .location k ∈ accesses) :
    (st'.inode i).location k = (st.inode i).location k :=
  h.entries.slots _ ha k rfl

theorem allocateBitmap (h : AgreeAt accesses i st st') (block : ℕ) :
    Option.Rel (AgreeAt accesses i) (Filesys.allocateBitmap st block)
      (Filesys.allocateBitmap st' block) := by
  simp only [Filesys.allocateBitmap, h.bitmap, h.superblock]
  split
  · exact .some ⟨rfl, rfl, h.blockNumber, ⟨h.entries.slots, h.entries.bytes⟩⟩
  · exact .none

theorem storePtr (h : AgreeAt accesses i st st') (addr ptr : ℕ) :
    Option.Rel (AgreeAt accesses i) (st.storePtr addr ptr) (st'.storePtr addr ptr) := by
  simp only [Store.storePtr, Store.storeBytes]
  split
  · refine .some ⟨h.superblock, h.bitmap, h.blockNumber, ⟨h.entries.slots, fun a ha x hx ↦ ?_⟩⟩
    have hbyte := h.entries.bytes a ha x hx
    simp only [writeBytes, hbyte]
  · exact .none

theorem setSlot (h : AgreeAt accesses i st st') (k ptr : ℕ) :
    AgreeAt accesses i (st.setSlot i k ptr) (st'.setSlot i k ptr) := by
  refine ⟨h.superblock, h.bitmap, ?_, ⟨fun a ha j hj ↦ ?_, h.entries.bytes⟩⟩
  · simp only [Store.setSlot, Store.setInode_inode, h.blockNumber]
  · have hslot := h.entries.slots a ha j hj
    simp only [Store.setSlot, Store.setInode_inode, Function.update_apply, hslot]

theorem countBlock (h : AgreeAt accesses i st st') (n : ℤ) :
    AgreeAt accesses i
      (st.setInode i { st.inode i with blockNumber := n, lastBlockOffset := 0 })
      (st'.setInode i { st'.inode i with blockNumber := n, lastBlockOffset := 0 }) := by
  refine ⟨h.superblock, h.bitmap, ?_, ⟨fun a ha k hk ↦ ?_, h.entries.bytes⟩⟩
  · rw [Store.setInode_inode, Store.setInode_inode]
  · rw [Store.setInode_inode, Store.setInode_inode]
    exact h.entries.slots a ha k hk

theorem installSingle (h : AgreeAt accesses i st st') (hslot : .location 8 ∈ accesses)
    (newBlock blockNum : ℕ) :
    Agrees (AgreeAt accesses i) (Filesys.installSingle st i newBlock blockNum)
      (Filesys.installSingle st' i newBlock blockNum) := by
  simp only [Filesys.installSingle, h.location hslot]
  split
  · have hset := h.setSlot 8 (area.blockAddr newBlock)
    rw [hset.superblock]
    refine rel_bind (hset.allocateBitmap _) fun st₁ st₁' h₁ ↦ ?_
    exact rel_bind (h₁.storePtr _ _) fun st₂ st₂' h₂ ↦ .some ⟨rfl, h₂⟩
  · exact rel_bind (h.storePtr _ _) fun st₁ st₁' h₁ ↦ .some ⟨rfl, h₁⟩

theorem installDouble (h : AgreeAt accesses i st st') (hslot : .location 9 ∈ accesses)
    {newBlock blockNum : ℕ}
    (hnew : (st.inode i).location 9 = 0 → .double (area.blockAddr newBlock) 0 ∈ accesses)
    (hold : (st.inode i).location 9 ≠ 0 →
      .double ((st.inode i).location 9) ((blockNum - 72) / 64 : ℕ) ∈ accesses) :
    Agrees (AgreeAt accesses i) (Filesys.installDouble st i newBlock blockNum)
      (Filesys.installDouble st' i newBlock blockNum) := by
  simp only [Filesys.installDouble, h.location hslot]
  split
  · next hnull =>
    have hset := h.setSlot 9 (area.blockAddr newBlock)
    rw [hset.superblock]
    refine rel_bind (hset.allocateBitmap _) fun st₁ st₁' h₁ ↦ ?_
    refine rel_bind (h₁.storePtr _ _) fun st₂ st₂' h₂ ↦ ?_
    rw [h₂.superblock]
    refine rel_bind (h₂.allocateBitmap _) fun st₃ st₃' h₃ ↦ ?_
    have hload := h₃.entries.double (k := 0) (hnew hnull) rfl
    rw [Nat.mul_zero, Nat.add_zero] at hload
    rw [hload]
    refine rel_bind_same _ fun single _ ↦ ?_
    exact rel_bind (h₃.storePtr _ _) fun st₄ st₄' h₄ ↦ .some ⟨rfl, h₄⟩
  · next hne =>
    rw [h.entries.double (hold hne) rfl]
    refine rel_bind_same _ fun single _ ↦ ?_
    split
    · refine rel_bind (h.storePtr _ _) fun st₁ st₁' h₁ ↦ ?_
      rw [h₁.superblock]
      refine rel_bind (h₁.allocateBitmap _) fun st₂ st₂' h₂ ↦ ?_
      rw [h₂.entries.double (hold hne) rfl]
      refine rel_bind_same _ fun single _ ↦ ?_
      exact rel_bind (h₂.storePtr _ _) fun st₃ st₃' h₃ ↦ .some ⟨rfl, h₃⟩
    · exact rel_bind (h.storePtr _ _) fun st₁ st₁' h₁ ↦ .some ⟨rfl, h₁⟩

end AgreeAt

/-- On disks that agree at the listed entries `allocate_block` returns the same
pointer, and leaves disks that agree there. -/
theorem allocateBlock_agrees {i : ℕ} {st st' : Store area}
    (h : AgreeAt (allocateAccesses st i) i st st') :
    Agrees (AgreeAt (allocateAccesses st i) i) (allocateBlock st i) (allocateBlock st' i) := by
  generalize haccesses : allocateAccesses st i = accesses at h ⊢
  have hrefuses : RefusesBlock st.superblock (st'.inode i) ↔
      RefusesBlock st.superblock (st.inode i) := by
    rw [RefusesBlock, RefusesBlock, h.blockNumber]
  simp only [allocateBlock, hrefuses, h.superblock, h.blockNumber]
  simp only [allocateAccesses] at haccesses
  split
  · exact .some ⟨rfl, h⟩
  · next hgranted =>
    rw [if_neg hgranted] at haccesses
    refine rel_bind_of_eq (h.allocateBitmap _) fun st₁ st₁' htake h₁ ↦ ?_
    have hcount := h₁.countBlock ((st.inode i).blockNumber + 1)
    split
    · split
      · exact .some ⟨rfl, hcount.setSlot _ _⟩
      · exact .none
    · next hdirect =>
      rw [if_neg hdirect] at haccesses
      split
      · next hsingle =>
        rw [if_pos hsingle] at haccesses
        exact hcount.installSingle (haccesses ▸ List.mem_cons_self) _ _
      · next hsingle =>
        rw [if_neg hsingle] at haccesses
        have hslot : .location 9 ∈ accesses := by
          rw [← haccesses]
          split <;> exact List.mem_cons_self
        have hloc : (st₁.inode i).location 9 = (st.inode i).location 9 := by
          rw [← h₁.location hslot, (allocateBitmap_eq_some htake).1, h.location hslot]
        refine hcount.installDouble hslot (fun hnull ↦ ?_) fun hne ↦ ?_
        · rw [Store.setInode_inode, hloc] at hnull
          rw [← haccesses, if_pos hnull]
          exact List.mem_cons_of_mem _ List.mem_cons_self
        · rw [Store.setInode_inode, hloc] at hne ⊢
          have hindex : ((st.inode i).blockNumber + 1 - 72) / 64 =
              ((((st.inode i).blockNumber + 1).toNat - 72) / 64 : ℕ) := by
            omega
          rw [← haccesses, if_neg hne, hindex]
          exact List.mem_cons_of_mem _ List.mem_cons_self

/-! ## What is stored -/

/-- From `st` to `st'` nothing was stored but these entries of the block map of
inode `i`. The free blocks and the other fields of the record may have changed. -/
structure StoresOnly (accesses : List MapAccess) (i : ℕ) (st st' : Store area) : Prop where
  others : ∀ j ≠ i, st'.inode j = st.inode j
  slots : ∀ k, (∀ a ∈ accesses, ¬ a.IsSlot k) →
    (st'.inode i).location k = (st.inode i).location k
  bytes : ∀ x, (∀ a ∈ accesses, ¬ a.Covers x) → st'.space x = st.space x

namespace StoresOnly

variable {accesses : List MapAccess} {i : ℕ} {st st₁ st' : Store area}

theorem refl (accesses : List MapAccess) (i : ℕ) (st : Store area) :
    StoresOnly accesses i st st :=
  ⟨fun _ _ ↦ rfl, fun _ _ ↦ rfl, fun _ _ ↦ rfl⟩

theorem trans (h : StoresOnly accesses i st st₁) (h' : StoresOnly accesses i st₁ st') :
    StoresOnly accesses i st st' :=
  ⟨fun j hj ↦ (h'.others j hj).trans (h.others j hj),
    fun k hk ↦ (h'.slots k hk).trans (h.slots k hk),
    fun x hx ↦ (h'.bytes x hx).trans (h.bytes x hx)⟩

theorem of_allocateBitmap {block : ℕ} (h : Filesys.allocateBitmap st block = some st') :
    StoresOnly accesses i st st' := by
  obtain ⟨hinode, hspace, -⟩ := allocateBitmap_eq_some h
  exact ⟨fun j _ ↦ by rw [hinode], fun k _ ↦ by rw [hinode], fun x _ ↦ by rw [hspace]⟩

theorem of_setSlot {k : ℕ} (ha : .location k ∈ accesses ∨ .data k ∈ accesses) (ptr : ℕ) :
    StoresOnly accesses i st (st.setSlot i k ptr) := by
  refine ⟨fun j hj ↦ Store.setInode_inode_of_ne hj, fun j hj ↦ ?_, fun x _ ↦ rfl⟩
  have hne : j ≠ k := by
    rintro rfl
    rcases ha with ha | ha
    · exact hj _ ha rfl
    · exact hj _ ha rfl
  rw [Store.setSlot, Store.setInode_inode]
  exact Function.update_of_ne hne ..

theorem of_countBlock (n : ℤ) : StoresOnly accesses i st
    (st.setInode i { st.inode i with blockNumber := n, lastBlockOffset := 0 }) := by
  refine ⟨fun j hj ↦ Store.setInode_inode_of_ne hj, fun k _ ↦ ?_, fun x _ ↦ rfl⟩
  rw [Store.setInode_inode]

theorem of_storePtr {a : MapAccess} (ha : a ∈ accesses) {addr ptr : ℕ}
    (hcovers : ∀ x, addr ≤ x → x < addr + 4 → a.Covers x)
    (h : st.storePtr addr ptr = some st') : StoresOnly accesses i st st' := by
  obtain ⟨-, rfl⟩ := Store.storeBytes_eq_some h
  refine ⟨fun j _ ↦ rfl, fun k _ ↦ rfl, fun x hx ↦ writeBytes_of_disjoint ?_⟩
  rw [length_leBytes]
  by_contra hin
  exact hx a ha (hcovers x (by omega) (by omega))

theorem single {index k ptr : ℕ} {n : ℤ} (ha : .single index n ∈ accesses) (hk : n = k)
    (h : st.storePtr (index + 4 * k) ptr = some st') : StoresOnly accesses i st st' := by
  refine of_storePtr ha (fun x hlow hhigh ↦ ?_) h
  simp only [MapAccess.Covers]
  omega

theorem double {index k ptr : ℕ} {n : ℤ} (ha : .double index n ∈ accesses) (hk : n = k)
    (h : st.storePtr (index + 4 * k) ptr = some st') : StoresOnly accesses i st st' := by
  refine of_storePtr ha (fun x hlow hhigh ↦ ?_) h
  simp only [MapAccess.Covers]
  omega

theorem second {index k ptr : ℕ} {n : ℤ} (ha : .second index n ∈ accesses) (hk : n = k)
    (h : st.storePtr (index + 4 * k) ptr = some st') : StoresOnly accesses i st st' := by
  refine of_storePtr ha (fun x hlow hhigh ↦ ?_) h
  simp only [MapAccess.Covers]
  omega

end StoresOnly

theorem allocateBitmap_lt {st st' : Store area} {block : ℕ}
    (h : allocateBitmap st block = some st') : block / 8 < bitmapSublock := by
  simp only [allocateBitmap] at h
  split at h
  · assumption
  · cases h

/-- The pointer to a block that was stored into an index block is read back, if a
store through it is defined. -/
theorem reload_storePtr {st st₁ st₂ st₃ : Store area} {addr block ptr single : ℕ}
    (hstore : st.storePtr addr (area.blockAddr block) = some st₁)
    (hblock : block / 8 < bitmapSublock) (hspace : st₂.space = st₁.space)
    (hload : st₂.loadWord addr 4 = some single)
    (hnext : st₂.storePtr single ptr = some st₃) : single = area.blockAddr block := by
  obtain ⟨-, rfl⟩ := Store.storeBytes_eq_some hstore
  obtain ⟨hsingle, -⟩ := Store.storeBytes_eq_some hnext
  simp only [Store.loadWord, Option.ite_none_right_eq_some] at hload
  have hread := readBytes_writeBytes st.space addr (leBytes 4 (area.blockAddr block))
  rw [length_leBytes] at hread
  have hvalue : single = area.blockAddr block % 4294967296 := by
    rw [← Option.some.inj hload.2, hspace, hread, leValue_leBytes]
    rfl
  -- behind the end of the address space the pointer would lie in front of the data area
  have hbase := area.base_fits
  have hpos := area.base_pos
  have hlow := hsingle.1
  rw [area.spacePtr_eq] at hlow
  simp only [Area.blockAddr, area.spacePtr_eq, bitmapSublock, blockSize, ramdiskSize] at *
  omega

theorem installSingle_storesOnly {accesses : List MapAccess} {i newBlock blockNum ptr : ℕ}
    {st st' : Store area} (hslot : .location 8 ∈ accesses)
    (hnew : (st.inode i).location 8 = 0 → .single (area.blockAddr newBlock) 0 ∈ accesses)
    (hold : (st.inode i).location 8 ≠ 0 →
      .single ((st.inode i).location 8) (blockNum - 8 : ℕ) ∈ accesses)
    (h : installSingle st i newBlock blockNum = some (ptr, st')) :
    StoresOnly accesses i st st' := by
  simp only [installSingle] at h
  split at h
  · next hnull =>
    obtain ⟨st₁, h₁, h⟩ := Option.bind_eq_some_iff.mp h
    obtain ⟨st₂, h₂, h⟩ := Option.bind_eq_some_iff.mp h
    cases h
    exact (StoresOnly.of_setSlot (.inl hslot) _).trans
      ((StoresOnly.of_allocateBitmap h₁).trans (.single (k := 0) (hnew hnull) rfl h₂))
  · next hne =>
    obtain ⟨st₁, h₁, h⟩ := Option.bind_eq_some_iff.mp h
    cases h
    exact .single (hold hne) rfl h₁

theorem installDouble_storesOnly {accesses : List MapAccess} {i newBlock blockNum ptr : ℕ}
    {st st' : Store area} (hslot : .location 9 ∈ accesses)
    (hblock : newBlock / 8 < bitmapSublock)
    (hnew : (st.inode i).location 9 = 0 → .double (area.blockAddr newBlock) 0 ∈ accesses ∧
      .second (area.blockAddr st.superblock.firstFreeBlock) 0 ∈ accesses)
    (hold : (st.inode i).location 9 ≠ 0 →
      .double ((st.inode i).location 9) ((blockNum - 72) / 64 : ℕ) ∈ accesses ∧
      (st.entry ((st.inode i).location 9) ((blockNum - 72) / 64) = 0 →
        .second (area.blockAddr newBlock) 0 ∈ accesses) ∧
      (st.entry ((st.inode i).location 9) ((blockNum - 72) / 64) ≠ 0 →
        .second (st.entry ((st.inode i).location 9) ((blockNum - 72) / 64))
          ((blockNum - 72) % 64 : ℕ) ∈ accesses))
    (h : installDouble st i newBlock blockNum = some (ptr, st')) :
    StoresOnly accesses i st st' := by
  simp only [installDouble] at h
  split at h
  · next hnull =>
    obtain ⟨hdouble, hsecond⟩ := hnew hnull
    obtain ⟨st₁, h₁, h⟩ := Option.bind_eq_some_iff.mp h
    obtain ⟨st₂, h₂, h⟩ := Option.bind_eq_some_iff.mp h
    obtain ⟨st₃, h₃, h⟩ := Option.bind_eq_some_iff.mp h
    obtain ⟨single, hload, h⟩ := Option.bind_eq_some_iff.mp h
    obtain ⟨st₄, h₄, h⟩ := Option.bind_eq_some_iff.mp h
    cases h
    obtain rfl := reload_storePtr h₂ (allocateBitmap_lt h₁) (allocateBitmap_eq_some h₃).2.1
      hload h₄
    exact (StoresOnly.of_setSlot (.inl hslot) _).trans ((StoresOnly.of_allocateBitmap h₁).trans
      ((StoresOnly.double (k := 0) hdouble rfl h₂).trans ((StoresOnly.of_allocateBitmap h₃).trans
        (.second (k := 0) hsecond rfl h₄))))
  · next hne =>
    obtain ⟨hdouble, hnull, hsecond⟩ := hold hne
    obtain ⟨single, hload, h⟩ := Option.bind_eq_some_iff.mp h
    rw [← (loadWord_entry_eq hne hload).2] at hnull hsecond
    split at h
    · next hzero =>
      obtain ⟨st₁, h₁, h⟩ := Option.bind_eq_some_iff.mp h
      obtain ⟨st₂, h₂, h⟩ := Option.bind_eq_some_iff.mp h
      obtain ⟨single', hreload, h⟩ := Option.bind_eq_some_iff.mp h
      obtain ⟨st₃, h₃, h⟩ := Option.bind_eq_some_iff.mp h
      cases h
      obtain rfl := reload_storePtr h₁ hblock (allocateBitmap_eq_some h₂).2.1 hreload h₃
      exact (StoresOnly.double hdouble rfl h₁).trans ((StoresOnly.of_allocateBitmap h₂).trans
        (.second (k := 0) (hnull hzero) rfl h₃))
    · next hmapped =>
      obtain ⟨st₁, h₁, h⟩ := Option.bind_eq_some_iff.mp h
      cases h
      exact .second (hsecond hmapped) rfl h₁

/-- `allocate_block` stores to the listed entries only. -/
theorem allocateBlock_storesOnly {st st' : Store area} {i ptr : ℕ}
    (h : allocateBlock st i = some (ptr, st')) :
    StoresOnly (allocateAccesses st i) i st st' := by
  simp only [allocateBlock] at h
  simp only [allocateAccesses]
  split at h
  · cases h
    exact .refl ..
  · next hgranted =>
    rw [if_neg hgranted]
    obtain ⟨st₁, htake, h⟩ := Option.bind_eq_some_iff.mp h
    obtain ⟨hinode, hspace, -⟩ := allocateBitmap_eq_some htake
    have hcount : ∀ accesses, StoresOnly accesses i st (st₁.setInode i
        { st₁.inode i with
          blockNumber := (st.inode i).blockNumber + 1
          lastBlockOffset := 0 }) := fun _ ↦
      (StoresOnly.of_allocateBitmap htake).trans (.of_countBlock _)
    split at h
    · next hdirect =>
      rw [if_pos hdirect]
      split at h
      · next hlow =>
        cases h
        refine (hcount _).trans (.of_setSlot (.inr ?_) _)
        rw [Int.toNat_of_nonneg hlow]
        exact List.mem_singleton_self _
      · cases h
    · next hdirect =>
      rw [if_neg hdirect]
      split at h
      · next hsingle =>
        rw [if_pos hsingle]
        refine (hcount _).trans (installSingle_storesOnly List.mem_cons_self (fun hnull ↦ ?_)
          (fun hne ↦ ?_) h)
        · rw [Store.setInode_inode, hinode] at hnull
          rw [if_pos hnull]
          exact List.mem_cons_of_mem _ List.mem_cons_self
        · rw [Store.setInode_inode, hinode] at hne ⊢
          have hindex : (st.inode i).blockNumber + 1 - 8 =
              (((st.inode i).blockNumber + 1).toNat - 8 : ℕ) := by
            omega
          rw [if_neg hne, hindex]
          exact List.mem_cons_of_mem _ List.mem_cons_self
      · next hsingle =>
        rw [if_neg hsingle]
        refine (hcount _).trans (installDouble_storesOnly ?_ (allocateBitmap_lt htake)
          (fun hnull ↦ ?_) (fun hne ↦ ?_) h)
        · split <;> exact List.mem_cons_self
        · rw [Store.setInode_inode, hinode] at hnull
          rw [if_pos hnull, Store.setInode_superblock, Store.secondFree, htake]
          exact ⟨List.mem_cons_of_mem _ List.mem_cons_self,
            List.mem_cons_of_mem _ (List.mem_cons_of_mem _ List.mem_cons_self)⟩
        · have hentry : ∀ ino index k, (st₁.setInode i ino).entry index k = st.entry index k :=
            fun ino index k ↦ by rw [Store.entry, Store.entry, Store.setInode_space, hspace]
          rw [Store.setInode_inode, hinode] at hne
          have hindex : ((st.inode i).blockNumber + 1 - 72) / 64 =
              ((((st.inode i).blockNumber + 1).toNat - 72) / 64 : ℕ) := by
            omega
          have hoffset : ((st.inode i).blockNumber + 1 - 72) % 64 =
              ((((st.inode i).blockNumber + 1).toNat - 72) % 64 : ℕ) := by
            omega
          have hnat : ((st.inode i).blockNumber + 1 - 72).toNat =
              ((st.inode i).blockNumber + 1).toNat - 72 := by
            omega
          simp only [Store.setInode_inode, hinode, hentry, if_neg hne, hindex, hoffset, hnat]
          refine ⟨List.mem_cons_of_mem _ List.mem_cons_self, fun hzero ↦ ?_, fun hmapped ↦ ?_⟩
          · rw [if_pos hzero]
            exact List.mem_cons_of_mem _ (List.mem_cons_of_mem _ List.mem_cons_self)
          · rw [if_neg hmapped]
            exact List.mem_cons_of_mem _ (List.mem_cons_of_mem _ List.mem_cons_self)

end OperatingSystem.Filesys
