import OperatingSystem.Filesys.BlockMaps

/-!
# The write path

`allocate_block` on a direct slot, the byte loop inside one block, and
`write_file` when it needs no block. Everything that the later modules say
about a write is put together from these cases.
-/

namespace OperatingSystem.Filesys

open ByteMemory

variable {area : Area}

/-! ## Addresses of direct blocks -/

theorem holds_block {b : ℕ} (hb : b < allocatableSpaceSize) : area.Holds (area.blockAddr b) 256 :=
  Area.holds_blockAddr hb (show 0 + 256 ≤ blockSize by simp)

theorem holds_blockStart {b n : ℕ} (hb : b < allocatableSpaceSize) (hn : n ≤ 256) :
    area.Holds (area.blockAddr b) n :=
  (holds_block hb).mono (show 0 + n ≤ 256 by omega)

theorem addOffset_blockAddr {b : ℕ} {off : ℤ} (hb : b < allocatableSpaceSize) (h₀ : 0 ≤ off)
    (h : off < blockSize) : addOffset (area.blockAddr b) off = area.blockAddr b + off.toNat := by
  have hfits := area.spacePtr_fits
  have hsum : (area.blockAddr b : ℤ) + off = ((area.blockAddr b + off.toNat : ℕ) : ℤ) := by
    omega
  rw [addOffset, hsum]
  apply toUInt32_of_lt
  simp only [Area.blockAddr, allocatableSpaceSize, blockSize] at *
  omega

theorem addOffset_ne_zero {b : ℕ} {off : ℤ} (hb : b < allocatableSpaceSize)
    (hlow : -256 < off) (hhigh : off < 256) : addOffset (area.blockAddr b) off ≠ 0 := by
  have hfits := area.spacePtr_fits
  have hspace := area.spacePtr_eq
  simp only [addOffset, toUInt32, Area.blockAddr, allocatableSpaceSize, blockSize] at *
  omega

theorem switchAddress_direct (st : Store area) (ino : MyInode) {num : ℕ} (off : ℤ)
    (h : num < 8) : switchAddress st ino num off = some (addOffset (ino.location num) off) := by
  have h₈ : (num : ℤ) < 8 := by omega
  have h₁₀ : (0 : ℤ) ≤ num ∧ (num : ℤ) < 10 := by omega
  simp [switchAddress, h₈, MyInode.slot, h₁₀]

/-! ## Taking a direct block -/

/-- The store after `allocate_block` gave its first free block to the next
direct slot. -/
def Store.installDirect (st : Store area) (i : ℕ) : Store area :=
  (st.takeBlock st.superblock.firstFreeBlock).setInode i
    { st.inode i with
      location := Function.update (st.inode i).location ((st.inode i).blockNumber + 1).toNat
        (area.blockAddr st.superblock.firstFreeBlock)
      blockNumber := (st.inode i).blockNumber + 1
      lastBlockOffset := 0 }

theorem allocateBlock_direct {st : Store area} {i : ℕ}
    (hrefuse : ¬ RefusesBlock st.superblock (st.inode i))
    (hfirst : st.superblock.firstFreeBlock < allocatableSpaceSize)
    (h₀ : 0 ≤ (st.inode i).blockNumber + 1) (h₈ : (st.inode i).blockNumber + 1 < 8) :
    allocateBlock st i =
      some (area.blockAddr st.superblock.firstFreeBlock, st.installDirect i) := by
  simp only [allocateBlock, hrefuse, if_false, allocateBitmap_eq hfirst, Option.bind_eq_bind,
    Option.bind_some, h₈, if_true, h₀]
  simp [Store.setSlot, Store.setInode, Store.installDirect, Store.takeBlock]

theorem allocateBlock_direct_cases {st st' : Store area} {i ptr : ℕ}
    (h : allocateBlock st i = some (ptr, st'))
    (hfirst : st.superblock.firstFreeBlock < allocatableSpaceSize)
    (h₀ : 0 ≤ (st.inode i).blockNumber + 1) (h₈ : (st.inode i).blockNumber + 1 < 8) :
    (ptr = 0 ∧ st' = st) ∨
      (ptr = area.blockAddr st.superblock.firstFreeBlock ∧ st' = st.installDirect i) := by
  by_cases hrefuse : RefusesBlock st.superblock (st.inode i)
  · rw [allocateBlock_of_refuses hrefuse] at h
    cases h
    exact .inl ⟨rfl, rfl⟩
  · rw [allocateBlock_direct hrefuse hfirst h₀ h₈] at h
    cases h
    exact .inr ⟨rfl, rfl⟩

theorem installSingle_inode {st st' : Store area} {i block num ptr : ℕ}
    (h : installSingle st i block num = some (ptr, st')) :
    ∃ p, st'.inode i =
      { st.inode i with location := Function.update (st.inode i).location 8 p } := by
  simp only [installSingle] at h
  split at h
  · obtain ⟨st₁, h₁, h⟩ := Option.bind_eq_some_iff.mp h
    obtain ⟨st₂, h₂, h⟩ := Option.bind_eq_some_iff.mp h
    obtain ⟨-, rfl⟩ := Store.storeBytes_eq_some h₂
    cases h
    refine ⟨area.blockAddr block, ?_⟩
    simp [(allocateBitmap_eq_some h₁).1, Store.setSlot]
  · obtain ⟨st₁, h₁, h⟩ := Option.bind_eq_some_iff.mp h
    obtain ⟨-, rfl⟩ := Store.storeBytes_eq_some h₁
    cases h
    exact ⟨(st.inode i).location 8, by simp⟩

theorem installDouble_inode {st st' : Store area} {i block num ptr : ℕ}
    (h : installDouble st i block num = some (ptr, st')) :
    ∃ p, st'.inode i =
      { st.inode i with location := Function.update (st.inode i).location 9 p } := by
  simp only [installDouble] at h
  split at h
  · obtain ⟨st₁, h₁, h⟩ := Option.bind_eq_some_iff.mp h
    obtain ⟨st₂, h₂, h⟩ := Option.bind_eq_some_iff.mp h
    obtain ⟨st₃, h₃, h⟩ := Option.bind_eq_some_iff.mp h
    obtain ⟨single, -, h⟩ := Option.bind_eq_some_iff.mp h
    obtain ⟨st₄, h₄, h⟩ := Option.bind_eq_some_iff.mp h
    obtain ⟨-, rfl⟩ := Store.storeBytes_eq_some h₂
    obtain ⟨-, rfl⟩ := Store.storeBytes_eq_some h₄
    cases h
    refine ⟨area.blockAddr block, ?_⟩
    simp [(allocateBitmap_eq_some h₁).1, (allocateBitmap_eq_some h₃).1, Store.setSlot]
  · obtain ⟨single, -, h⟩ := Option.bind_eq_some_iff.mp h
    refine ⟨(st.inode i).location 9, ?_⟩
    split at h
    · obtain ⟨st₁, h₁, h⟩ := Option.bind_eq_some_iff.mp h
      obtain ⟨st₂, h₂, h⟩ := Option.bind_eq_some_iff.mp h
      obtain ⟨second, -, h⟩ := Option.bind_eq_some_iff.mp h
      obtain ⟨st₃, h₃, h⟩ := Option.bind_eq_some_iff.mp h
      obtain ⟨-, rfl⟩ := Store.storeBytes_eq_some h₁
      obtain ⟨-, rfl⟩ := Store.storeBytes_eq_some h₃
      cases h
      simp [(allocateBitmap_eq_some h₂).1]
    · obtain ⟨st₁, h₁, h⟩ := Option.bind_eq_some_iff.mp h
      obtain ⟨-, rfl⟩ := Store.storeBytes_eq_some h₁
      cases h
      simp

/-- An `allocate_block` that does not refuse increments the block number and
writes the next direct slot, or slot 8 or 9. -/
theorem allocateBlock_inode {st st' : Store area} {i ptr : ℕ}
    (h : allocateBlock st i = some (ptr, st'))
    (hrefuse : ¬ RefusesBlock st.superblock (st.inode i)) :
    ∃ k p : ℕ, ((k : ℤ) = (st.inode i).blockNumber + 1 ∨ 8 ≤ k) ∧
      st'.inode i =
        { st.inode i with
          location := Function.update (st.inode i).location k p
          blockNumber := (st.inode i).blockNumber + 1
          lastBlockOffset := 0 } := by
  simp only [allocateBlock, hrefuse, if_false] at h
  obtain ⟨st₁, h₁, h⟩ := Option.bind_eq_some_iff.mp h
  have hinode := (allocateBitmap_eq_some h₁).1
  split at h
  · split at h
    · cases h
      refine ⟨((st.inode i).blockNumber + 1).toNat,
        area.blockAddr st.superblock.firstFreeBlock, .inl (by omega), ?_⟩
      simp [Store.setSlot, hinode]
    · cases h
  · split at h
    · obtain ⟨p, hp⟩ := installSingle_inode h
      exact ⟨8, p, .inr (le_refl 8), by simpa [hinode] using hp⟩
    · obtain ⟨p, hp⟩ := installDouble_inode h
      exact ⟨9, p, .inr (by omega), by simpa [hinode] using hp⟩

theorem allocateBlock_space {st st' : Store area} {i ptr : ℕ}
    (h : allocateBlock st i = some (ptr, st')) (h₈ : (st.inode i).blockNumber + 1 < 8) :
    st'.space = st.space := by
  simp only [allocateBlock] at h
  split at h
  · cases h
    rfl
  · obtain ⟨st₁, h₁, h⟩ := Option.bind_eq_some_iff.mp h
    split at h
    · cases h
      exact (allocateBitmap_eq_some h₁).2.1
    · cases h

/-- The direct slots up to the block number of inode `i` stay as they are, and
the block number does not drop. -/
structure KeepsSlots (i : ℕ) (st st' : Store area) : Prop where
  location : ∀ k : ℕ, k < 8 → (k : ℤ) ≤ (st.inode i).blockNumber →
    (st'.inode i).location k = (st.inode i).location k
  blockNumber : (st.inode i).blockNumber ≤ (st'.inode i).blockNumber

namespace KeepsSlots

theorem of_inode_eq {i : ℕ} {st st' : Store area} (h : st'.inode i = st.inode i) :
    KeepsSlots i st st' := by
  refine ⟨fun k _ _ ↦ ?_, ?_⟩
  · rw [h]
  · rw [h]

theorem trans {i : ℕ} {st₁ st₂ st₃ : Store area} (h : KeepsSlots i st₁ st₂)
    (g : KeepsSlots i st₂ st₃) : KeepsSlots i st₁ st₃ := by
  refine ⟨fun k hk hle ↦ ?_, h.blockNumber.trans g.blockNumber⟩
  rw [g.location k hk (hle.trans h.blockNumber), h.location k hk hle]

theorem of_storeBytes {i addr : ℕ} {bytes : List UInt8} {st st' : Store area}
    (h : st.storeBytes addr bytes = some st') : KeepsSlots i st st' := by
  obtain ⟨-, rfl⟩ := Store.storeBytes_eq_some h
  exact of_inode_eq rfl

theorem of_allocateBlock {i ptr : ℕ} {st st' : Store area}
    (h : allocateBlock st i = some (ptr, st')) : KeepsSlots i st st' := by
  by_cases hrefuse : RefusesBlock st.superblock (st.inode i)
  · rw [allocateBlock_of_refuses hrefuse] at h
    cases h
    exact of_inode_eq rfl
  · obtain ⟨j, p, hj, hrecord⟩ := allocateBlock_inode h hrefuse
    refine ⟨fun k hk hle ↦ ?_, ?_⟩
    · have hne : k ≠ j := by omega
      rw [hrecord]
      exact Function.update_of_ne hne ..
    · rw [hrecord]
      dsimp only
      omega

theorem of_orAllocate {i p ptr : ℕ} {st st' : Store area}
    (h : orAllocate st i p = some (ptr, st')) : KeepsSlots i st st' := by
  simp only [orAllocate] at h
  split at h
  · exact of_allocateBlock h
  · cases h
    exact of_inode_eq rfl

theorem of_writeLoop {i : ℕ} {bs : List UInt8} {st : Store area} {wPtr : ℕ} {off pos : ℤ}
    {n : ℕ} {r : WriteResult area} (h : writeLoop i bs st wPtr off pos n = some r) :
    KeepsSlots i st r.store :=
  writeLoop_rel (fun _ ↦ of_inode_eq rfl) trans of_allocateBlock of_storeBytes h

end KeepsSlots

/-! ## The byte loop -/

theorem writeLoop_append {i : ℕ} {as bs : List UInt8} {st : Store area} {wPtr : ℕ}
    {off pos : ℤ} {n : ℕ} (hoff : off + as.length ≤ blockSize)
    (hholds : as ≠ [] → area.Holds wPtr as.length) :
    writeLoop i (as ++ bs) st wPtr off pos n =
      writeLoop i bs { st with space := writeBytes st.space wPtr as } (wPtr + as.length)
        (off + as.length) (pos + as.length) (n + as.length) := by
  induction as generalizing st wPtr off pos n with
  | nil => simp
  | cons a as ih =>
      have hholds := hholds (List.cons_ne_nil a as)
      simp only [List.length_cons, blockSize] at hoff hholds
      have hne : off ≠ (blockSize : ℕ) := by
        simp only [blockSize]
        push_cast at hoff
        omega
      have hbyte : area.Holds wPtr [a].length := by
        simpa using hholds.mono (show 0 + 1 ≤ as.length + 1 by omega)
      have hrest : area.Holds (wPtr + 1) as.length := hholds.mono (by omega)
      simp only [List.cons_append, writeLoop, hne, if_false, Store.storeBytes_eq hbyte,
        Option.bind_eq_bind, Option.bind_some]
      rw [ih (by simp only [blockSize]; push_cast at hoff ⊢; omega) (fun _ ↦ hrest)]
      simp only [List.length_cons, writeBytes_cons, writeBytes_nil]
      congr 1
      · omega
      · push_cast
        ring
      · push_cast
        ring
      · omega

theorem writeLoop_within {i : ℕ} {bs : List UInt8} {st : Store area} {wPtr : ℕ}
    {off pos : ℤ} {n : ℕ} (hoff : off + bs.length ≤ blockSize)
    (hholds : bs ≠ [] → area.Holds wPtr bs.length) :
    writeLoop i bs st wPtr off pos n =
      some ⟨{ st with space := writeBytes st.space wPtr bs }, pos + bs.length, n + bs.length⟩ := by
  nth_rewrite 1 [← List.append_nil bs]
  rw [writeLoop_append hoff hholds]
  rfl

/-- At the end of a block the loop goes on at the start of a new one. -/
theorem writeLoop_crossing {i : ℕ} {bs : List UInt8} {st st' : Store area} {wPtr ptr : ℕ}
    {pos : ℤ} {n : ℕ} (hbs : bs ≠ []) (h : allocateBlock st i = some (ptr, st'))
    (hne : ptr ≠ 0) :
    writeLoop i bs st wPtr blockSize pos n = writeLoop i bs st' ptr 0 pos n := by
  cases bs with
  | nil => exact (hbs rfl).elim
  | cons b bs =>
      have hzero : (0 : ℤ) ≠ (blockSize : ℕ) := by decide
      rw [writeLoop, if_pos rfl, h, writeLoop, if_neg hzero]
      simp [hne]

/-- A defined byte loop stores what fits into the current block and goes on
from there; only bytes have changed by then. -/
theorem writeLoop_append_cases {i : ℕ} {as bs : List UInt8} {st : Store area} {wPtr : ℕ}
    {off pos : ℤ} {n : ℕ} {r : WriteResult area} (hoff : off + as.length ≤ blockSize)
    (h : writeLoop i (as ++ bs) st wPtr off pos n = some r) :
    ∃ space, writeLoop i bs { st with space := space } (wPtr + as.length) (off + as.length)
      (pos + as.length) (n + as.length) = some r := by
  induction as generalizing st wPtr off pos n with
  | nil => exact ⟨st.space, by simpa using h⟩
  | cons a as ih =>
      simp only [List.length_cons, blockSize] at hoff
      push_cast at hoff
      have hne : off ≠ (blockSize : ℕ) := by
        simp only [blockSize]
        omega
      simp only [List.cons_append, writeLoop, hne, if_false] at h
      obtain ⟨st₁, h₁, h⟩ := Option.bind_eq_some_iff.mp h
      obtain ⟨-, rfl⟩ := Store.storeBytes_eq_some h₁
      obtain ⟨space, hrest⟩ := ih (by simp only [blockSize]; push_cast; omega) h
      refine ⟨space, ?_⟩
      rw [← hrest]
      simp only [List.length_cons]
      congr 1
      · omega
      · push_cast
        ring
      · push_cast
        ring
      · omega

theorem writeLoop_within_cases {i : ℕ} {bs : List UInt8} {st : Store area} {wPtr : ℕ}
    {off pos : ℤ} {n : ℕ} {r : WriteResult area} (hoff : off + bs.length ≤ blockSize)
    (h : writeLoop i bs st wPtr off pos n = some r) :
    ∃ space, r = ⟨{ st with space := space }, pos + bs.length, n + bs.length⟩ := by
  rw [← List.append_nil bs] at h
  obtain ⟨space, hrest⟩ := writeLoop_append_cases hoff h
  exact ⟨space, (Option.some.inj hrest).symm⟩

/-! ## Writes that are refused -/

/-- The checks by which `write_file` refuses. -/
def RefusesWrite (st : Store area) (ino : MyInode) (type : Char) : Prop :=
  (type = 'w' ∧ ino.type = .dir) ∨ (ino.location 0 = 0 ∧ RefusesBlock st.superblock ino)

instance (st : Store area) (ino : MyInode) (type : Char) : Decidable (RefusesWrite st ino type) :=
  inferInstanceAs (Decidable (_ ∨ _))

theorem writeFile_refused {st : Store area} {i : ℕ} {type : Char} (pos : ℤ)
    (input : List UInt8) (hi : i < inodeListNum) (hrefuse : RefusesWrite st (st.inode i) type) :
    writeFile st i pos input type = some (ERROR, pos, st) := by
  simp only [writeFile, Store.inodeAt_eq hi, Option.bind_eq_bind, Option.bind_some]
  by_cases htype : type = 'w' ∧ (st.inode i).type = .dir
  · rw [if_pos htype]
  · obtain ⟨hloc, hblock⟩ := hrefuse.resolve_left htype
    simp only [if_neg htype, orAllocate, hloc, if_true, allocateBlock_of_refuses hblock,
      Option.bind_some]

theorem writeFile_of_refuses {st st' : Store area} {i : ℕ} {pos pos' ret : ℤ}
    {input : List UInt8} {type : Char} (hrefuse : RefusesWrite st (st.inode i) type)
    (h : writeFile st i pos input type = some (ret, pos', st')) : ret = ERROR ∧ st' = st := by
  obtain ⟨ino, hino, -⟩ := Option.bind_eq_some_iff.mp h
  rw [writeFile_refused pos input (Store.inodeAt_eq_some hino).1 hrefuse] at h
  cases h
  exact ⟨rfl, rfl⟩

/-- An `ERROR` comes from these checks and moves nothing. -/
theorem writeFile_error {st st' : Store area} {i : ℕ} {pos pos' : ℤ} {input : List UInt8}
    {type : Char} (h : writeFile st i pos input type = some (ERROR, pos', st')) :
    pos' = pos ∧ st' = st ∧ i < inodeListNum ∧ RefusesWrite st (st.inode i) type := by
  have hneg : ERROR < 0 := by decide
  rcases writeFile_cases h with ⟨-, rfl, rfl⟩ | ⟨r, -, hret, -⟩
  · refine ⟨rfl, rfl, ?_⟩
    obtain ⟨ino, hino, h⟩ := Option.bind_eq_some_iff.mp h
    obtain ⟨hi, rfl⟩ := Store.inodeAt_eq_some hino
    refine ⟨hi, ?_⟩
    split at h
    · next htype => exact .inl htype
    · obtain ⟨⟨ptr, st₁⟩, h₁, h⟩ := Option.bind_eq_some_iff.mp h
      dsimp only at h
      split at h
      · next hptr =>
        subst hptr
        simp only [orAllocate] at h₁
        split at h₁
        · next hloc => exact .inr ⟨hloc, refusesBlock_of_null h₁⟩
        · next hloc =>
          simp only [Option.some.injEq, Prod.mk.injEq] at h₁
          exact (hloc h₁.1).elim
      · obtain ⟨wPtr, -, h⟩ := Option.bind_eq_some_iff.mp h
        obtain ⟨⟨ptr', st₂⟩, -, h⟩ := Option.bind_eq_some_iff.mp h
        obtain ⟨r, -, h⟩ := Option.bind_eq_some_iff.mp h
        simp only [Option.some.injEq, Prod.mk.injEq] at h
        omega
  · omega

/-! ## Writes that need no block -/

/-- The first block is there, and `switchAddress` finds an address for the
position, which is not in front of the file. -/
structure NeedsNoBlock (st : Store area) (ino : MyInode) (position : ℤ) : Prop where
  first : ino.location 0 ≠ 0
  nonneg : 0 ≤ position
  address :
    ∃ ptr, ptr ≠ 0 ∧
      switchAddress st ino (position.tdiv blockSize) (position.tmod blockSize) = some ptr

instance (st : Store area) (ino : MyInode) (position : ℤ) :
    Decidable (NeedsNoBlock st ino position) :=
  decidable_of_iff (ino.location 0 ≠ 0 ∧ 0 ≤ position ∧
      (switchAddress st ino (position.tdiv blockSize) (position.tmod blockSize)).any (· ≠ 0) = true)
    (by
      simp only [Option.any_eq_true, decide_eq_true_eq]
      exact ⟨fun ⟨h₁, h₂, ptr, hptr, hne⟩ ↦ ⟨h₁, h₂, ptr, hne, hptr⟩,
        fun ⟨h₁, h₂, ptr, hne, hptr⟩ ↦ ⟨h₁, h₂, ptr, hptr, hne⟩⟩)

theorem NeedsNoBlock.ne_zero {st : Store area} {ino : MyInode} {position : ℤ} {wPtr : ℕ}
    (h : NeedsNoBlock st ino position)
    (hptr : switchAddress st ino (position.tdiv blockSize) (position.tmod blockSize) =
      some wPtr) : wPtr ≠ 0 := by
  obtain ⟨ptr, hne, haddress⟩ := h.address
  rw [haddress] at hptr
  rwa [← Option.some.inj hptr]

theorem writeFile_of_mapped {st : Store area} {i wPtr : ℕ} {pos : ℤ} {input : List UInt8}
    {type : Char} (hi : i < inodeListNum) (htype : ¬ (type = 'w' ∧ (st.inode i).type = .dir))
    (hloc : (st.inode i).location 0 ≠ 0) (hne : wPtr ≠ 0)
    (hptr : switchAddress st (st.inode i) (pos.tdiv blockSize) (pos.tmod blockSize) = some wPtr)
    (hoff : pos.tmod blockSize + input.length ≤ blockSize)
    (hholds : input ≠ [] → area.Holds wPtr input.length) :
    writeFile st i pos input type =
      some ((input.length : ℤ), pos + input.length,
        { st with space := writeBytes st.space wPtr input }.setInode i
          ((st.inode i).grow input.length)) := by
  simp only [writeFile, Store.inodeAt_eq hi, Option.bind_eq_bind, Option.bind_some, htype,
    if_false, orAllocate, hloc, hptr, hne, writeLoop_within hoff hholds, Nat.zero_add]

/-- A defined write that needs no block is refused because of the type, or
stores its bytes in the mapped block. -/
theorem writeFile_of_needsNoBlock {st st' : Store area} {i : ℕ} {pos pos' ret : ℤ}
    {input : List UInt8} {type : Char} (hneed : NeedsNoBlock st (st.inode i) pos)
    (hoff : pos.tmod blockSize + input.length ≤ blockSize)
    (h : writeFile st i pos input type = some (ret, pos', st')) :
    (ret = ERROR ∧ st' = st) ∨ ∃ space, st' =
      { st with space := space }.setInode i ((st.inode i).grow input.length) := by
  rcases writeFile_phases h with
    ⟨hret, -, hst⟩ | ⟨ptr, st₁, wPtr, ptr', st₂, r, h₁, -, hwPtr, h₂, hr, -, -, rfl⟩
  · exact .inl ⟨hret, hst⟩
  · simp only [orAllocate, hneed.first, if_false, Option.some.injEq, Prod.mk.injEq] at h₁
    obtain ⟨-, rfl⟩ := h₁
    have hne := hneed.ne_zero hwPtr
    simp only [orAllocate, hne, if_false, Option.some.injEq, Prod.mk.injEq] at h₂
    obtain ⟨-, rfl⟩ := h₂
    obtain ⟨space, rfl⟩ := writeLoop_within_cases hoff hr
    exact .inr ⟨space, by simp⟩

end OperatingSystem.Filesys
