import OperatingSystem.Filesys.GapFree
import OperatingSystem.Filesys.MapIndices
import OperatingSystem.Filesys.Reservation
import OperatingSystem.Filesys.WholeFiles

/-!
# Indices along runs of writes

In every run of `rd_write` calls, of any processes on any descriptors, that ask
for no block behind the last one, the block maps are used at the listed entries
only, all of them in range, and no file outgrows the largest size. `allocate_block`
itself does not stop a file there: its test lets one block more pass.
-/

namespace OperatingSystem.Filesys

open ByteMemory

variable {area : Area}

/-! ## What a write asks for -/

/-- The block of the position has no pointer, or it is `NULL` together with the
offset. -/
def Unmapped (st : Store area) (ino : MyInode) (position : ℤ) : Prop :=
  let num := position.tdiv blockSize
  (8 ≤ num ∧ num < 72 ∧ ino.location 8 = 0) ∨ (72 ≤ num ∧ ino.location 9 = 0) ∨
    addOffset (st.logicalPtr ino num.toNat) (position.tmod blockSize) = 0

instance (st : Store area) (ino : MyInode) (position : ℤ) : Decidable (Unmapped st ino position) :=
  inferInstanceAs (Decidable (_ ∨ _))

/-- The number of blocks that `write_file` asks for before its byte loop. -/
def blocksBeforeLoop (st : Store area) (ino : MyInode) (position : ℤ) : ℕ :=
  if ino.location 0 = 0 then
    if ino.blockNumber = -1 ∧ position.tdiv blockSize = 0 then 1 else 2
  else if Unmapped st ino position then 1 else 0

/-- The number of the last block that a write of `n` bytes asks for. -/
def lastAsked (st : Store area) (ino : MyInode) (position : ℤ) (n : ℕ) : ℤ :=
  ino.blockNumber + blocksBeforeLoop st ino position + crossings (position.tmod blockSize) n

structure WriteCall where
  cur : Process
  fd : ℤ
  input : List UInt8

/-- The call starts in a block that a file can have, asks for no other ones, and
its bytes fit into the largest file. A directory is refused at once. -/
def WriteCall.Within (s : State area) (c : WriteCall) : Prop :=
  ∀ fo, (s.table c.cur).fileObject c.fd = some fo →
    (s.store.inode fo.inodeIndex).type ≠ .dir →
    -256 < fo.position ∧ fo.position < maxFileSize ∧
      lastAsked s.store (s.store.inode fo.inodeIndex) fo.position c.input.length <
        ((maxFileSize / blockSize : ℕ) : ℤ) ∧
      (s.store.inode fo.inodeIndex).size + c.input.length ≤ maxFileSize

def WriteCall.step (s : State area) (c : WriteCall) : Option (State area) :=
  (rdWrite c.cur c.fd c.input s).map Prod.snd

/-- The calls into the block map that it makes. -/
def WriteCall.calls (s : State area) (c : WriteCall) : List (MapCall area) :=
  match (s.table c.cur).fileObject c.fd with
  | none => []
  | some fo => writeFileCalls s.store fo.inodeIndex fo.position c.input 'w'

/-- No file is larger than the largest file, and the block numbers and the cached
free block are sane. -/
structure FilesFit (st : Store area) : Prop where
  first : st.superblock.firstFreeBlock < allocatableSpaceSize
  number : ∀ i, -1 ≤ (st.inode i).blockNumber
  size : ∀ i, (st.inode i).size ≤ maxFileSize

/-! ## One write -/

theorem tdiv_block_range {position : ℤ} (h₀ : -256 < position) (h : position < maxFileSize) :
    0 ≤ position.tdiv blockSize ∧ position.tdiv blockSize < 4168 := by
  simp only [maxFileSize, blockSize, Nat.cast_ofNat] at *
  rcases lt_or_ge position 0 with hneg | hpos
  · obtain ⟨n, rfl⟩ : ∃ n, position = -n := ⟨-position, by omega⟩
    rw [Int.neg_tdiv, Int.tdiv_eq_zero_of_lt (by omega) (by omega)]
    omega
  · rw [Int.tdiv_eq_ediv_of_nonneg hpos]
    omega

theorem unmapped_of_null {st : Store area} {ino : MyInode} {position : ℤ}
    (h₀ : -256 < position) (h : position < maxFileSize)
    (hnull : switchAddress st ino (position.tdiv blockSize) (position.tmod blockSize) = some 0) :
    Unmapped st ino position := by
  obtain ⟨hnum, hlt⟩ := tdiv_block_range h₀ h
  simp only [switchAddress] at hnull
  split at hnull
  · next hdirect =>
    obtain ⟨ptr, hptr, haddr⟩ := Option.map_eq_some_iff.mp hnull
    rw [MyInode.slot, if_pos (by omega), Option.some.injEq] at hptr
    refine .inr (.inr ?_)
    rw [Store.logicalPtr, if_pos (by omega), hptr]
    exact haddr
  · next hdirect =>
    split at hnull
    · next hsingle =>
      split at hnull
      · next hnone => exact .inl ⟨by omega, hsingle, hnone⟩
      · next hsome =>
        obtain ⟨ptr, hload, haddr⟩ := Option.map_eq_some_iff.mp hnull
        obtain ⟨-, rfl⟩ := loadWord_entry_eq hsome hload
        have hindex : (position.tdiv blockSize).toNat - 8 = (position.tdiv blockSize - 8).toNat := by
          omega
        refine .inr (.inr ?_)
        rw [Store.logicalPtr, if_neg (by omega), if_pos (by omega), hindex]
        exact haddr
    · next hsingle =>
      split at hnull
      · next hnone => exact .inr (.inl ⟨by omega, hnone⟩)
      · next hsome =>
        obtain ⟨single, hfirst, hnull⟩ := Option.bind_eq_some_iff.mp hnull
        obtain ⟨ptr, hload, haddr⟩ := Option.map_eq_some_iff.mp hnull
        obtain ⟨-, rfl⟩ := loadWord_entry_eq hsome hfirst
        have hindex : (position.tdiv blockSize).toNat - 72 =
            (position.tdiv blockSize - 72).toNat := by
          omega
        refine .inr (.inr ?_)
        rw [Store.logicalPtr, if_neg (by omega), if_neg (by omega), hindex]
        by_cases hentry : st.entry (ino.location 9) ((position.tdiv blockSize - 72).toNat / 64) = 0
        · -- the second-level pointer is `NULL`, and the read through it is undefined
          rw [hentry] at hload
          simp only [Store.loadWord, Option.ite_none_right_eq_some] at hload
          have hlow := hload.1.1
          rw [area.spacePtr_eq] at hlow
          omega
        · obtain ⟨-, rfl⟩ := loadWord_entry_eq hentry hload
          exact haddr

theorem firstFreeBlock_lt_of_steps {st st' : Store area} {i : ℕ} (h : BlockSteps i st st')
    (hfirst : st.superblock.firstFreeBlock < allocatableSpaceSize) :
    st'.superblock.firstFreeBlock < allocatableSpaceSize := by
  induction h with
  | refl => exact hfirst
  | take _ ht ih =>
      rw [allocateBitmap_eq ih] at ht
      cases ht
      exact lt_of_le_of_lt (Nat.div_mul_le_self ..) ih
  | record _ loc bn lbo ih => exact ih
  | bytes _ hs ih =>
      rw [(Store.storeBytes_frame hs).2]
      exact ih

theorem allocateBlock_blockNumber {st st' : Store area} {i ptr : ℕ}
    (h : allocateBlock st i = some (ptr, st')) :
    (ptr = 0 ∧ st' = st) ∨
      (ptr ≠ 0 ∧ (st'.inode i).blockNumber = (st.inode i).blockNumber + 1) := by
  by_cases hnull : ptr = 0
  · subst hnull
    exact .inl ⟨rfl, allocateBlock_null h⟩
  · have hrefuse : ¬ RefusesBlock st.superblock (st.inode i) := by
      intro hrefuse
      rw [allocateBlock_of_refuses hrefuse] at h
      cases h
      exact hnull rfl
    obtain ⟨k, p, -, hrecord⟩ := allocateBlock_inode h hrefuse
    exact .inr ⟨hnull, by rw [hrecord]⟩

theorem writeLoopCalls_good {i : ℕ} {bs : List UInt8} {st : Store area} {wPtr : ℕ} {off : ℤ}
    (h₀ : -1 ≤ (st.inode i).blockNumber)
    (hlast : (st.inode i).blockNumber + crossings off bs.length < 4168) :
    ∀ call ∈ writeLoopCalls i bs st wPtr off, call.Good := by
  induction bs generalizing st wPtr off with
  | nil =>
      intro call hcall
      cases hcall
  | cons b bs ih =>
      intro call hcall
      simp only [List.length_cons, crossings] at hlast
      simp only [writeLoopCalls] at hcall
      split at hcall
      · next hend =>
        simp only [blockSize] at hend
        rcases List.mem_cons.mp hcall with rfl | hcall
        · exact (MapCall.good_allocate_iff h₀).mpr (.inl (by omega))
        · split at hcall
          · cases hcall
          · next ptr st₁ hblock =>
            split at hcall
            · cases hcall
            · next hne =>
              have hnumber := ((allocateBlock_blockNumber hblock).resolve_left fun h ↦ hne h.1).2
              split at hcall
              · cases hcall
              · next st₂ hstore =>
                have hinode := (Store.storeBytes_frame hstore).1
                refine ih ?_ ?_ call hcall
                · rw [hinode]
                  omega
                · rw [hinode, crossings]
                  omega
      · split at hcall
        · cases hcall
        · next st₁ hstore =>
          have hinode := (Store.storeBytes_frame hstore).1
          refine ih ?_ ?_ call hcall
          · rw [hinode]
            exact h₀
          · rw [hinode, crossings]
            omega

theorem orAllocate_blockNumber {st st' : Store area} {i p ptr : ℕ}
    (h : orAllocate st i p = some (ptr, st')) :
    st' = st ∨ (p = 0 ∧ (st'.inode i).blockNumber = (st.inode i).blockNumber + 1) := by
  simp only [orAllocate] at h
  split at h
  · next hp =>
    rcases allocateBlock_blockNumber h with ⟨-, rfl⟩ | ⟨-, hnumber⟩
    · exact .inl rfl
    · exact .inr ⟨hp, hnumber⟩
  · cases h
    exact .inl rfl

theorem orAllocateCalls_good {st : Store area} {i p : ℕ} (h₀ : -1 ≤ (st.inode i).blockNumber)
    (h : p = 0 → (st.inode i).blockNumber ≠ 4167) :
    ∀ call ∈ orAllocateCalls st i p, call.Good := by
  intro call hcall
  simp only [orAllocateCalls] at hcall
  split at hcall
  · next hp =>
    obtain rfl := List.mem_singleton.mp hcall
    exact (MapCall.good_allocate_iff h₀).mpr (.inl (h hp))
  · cases hcall

theorem tmod_block_range (position : ℤ) :
    -256 < position.tmod blockSize ∧ position.tmod blockSize < 256 := by
  have hlow := Int.lt_tmod_of_pos position (show (0 : ℤ) < (blockSize : ℕ) by decide)
  have hhigh := Int.tmod_lt_of_pos position (show (0 : ℤ) < (blockSize : ℕ) by decide)
  simp only [blockSize, Nat.cast_ofNat] at *
  omega

/-- The first block of a fresh file is where the first position leads to. -/
theorem switchAddress_first {st st' : Store area} {i ptr : ℕ} {position : ℤ}
    (hfirst : st.superblock.firstFreeBlock < allocatableSpaceSize)
    (hnumber : (st.inode i).blockNumber = -1) (hnum : position.tdiv blockSize = 0)
    (h : allocateBlock st i = some (ptr, st')) (hne : ptr ≠ 0) :
    switchAddress st' (st'.inode i) (position.tdiv blockSize) (position.tmod blockSize) ≠
      some 0 := by
  obtain ⟨hlow, hhigh⟩ := tmod_block_range position
  obtain ⟨-, hst'⟩ := (allocateBlock_direct_cases h hfirst (by omega) (by omega)).resolve_left
    fun hnull ↦ hne hnull.1
  have hloc : (st'.inode i).location 0 = area.blockAddr st.superblock.firstFreeBlock := by
    have hzero : ((st.inode i).blockNumber + 1).toNat = 0 := by omega
    rw [hst', Store.installDirect, Store.setInode_inode, hzero]
    exact Function.update_self 0 _ (st.inode i).location
  have hswitch := switchAddress_direct st' (st'.inode i) (position.tmod blockSize)
    (show 0 < 8 by omega)
  rw [hnum, hloc] at *
  rw [Nat.cast_zero] at hswitch
  rw [hswitch]
  intro hnull
  exact addOffset_ne_zero hfirst hlow hhigh (Option.some.inj hnull)

/-- Before the loop the file has the blocks that `blocksBeforeLoop` counts, but for one
that is still to be asked for. -/
theorem blockNumber_at_switch {st st₁ : Store area} {i ptr wPtr : ℕ} {position : ℤ}
    (hfirst : st.superblock.firstFreeBlock < allocatableSpaceSize)
    (hlow : -256 < position) (hhigh : position < maxFileSize)
    (h₁ : orAllocate st i ((st.inode i).location 0) = some (ptr, st₁)) (hne : ptr ≠ 0)
    (hswitch : switchAddress st₁ (st₁.inode i) (position.tdiv blockSize)
      (position.tmod blockSize) = some wPtr) :
    (st.inode i).blockNumber ≤ (st₁.inode i).blockNumber ∧
      (st₁.inode i).blockNumber + (if wPtr = 0 then 1 else 0) ≤
        (st.inode i).blockNumber + blocksBeforeLoop st (st.inode i) position := by
  rw [orAllocate] at h₁
  by_cases hloc : (st.inode i).location 0 = 0
  · rw [if_pos hloc] at h₁
    have hnumber := ((allocateBlock_blockNumber h₁).resolve_left fun h ↦ hne h.1).2
    rw [blocksBeforeLoop, if_pos hloc]
    by_cases hfresh : (st.inode i).blockNumber = -1 ∧ position.tdiv blockSize = 0
    · have hmapped : wPtr ≠ 0 := by
        rintro rfl
        exact switchAddress_first hfirst hfresh.1 hfresh.2 h₁ hne hswitch
      rw [if_pos hfresh, if_neg hmapped]
      omega
    · rw [if_neg hfresh]
      split <;> omega
  · rw [if_neg hloc] at h₁
    cases h₁
    rw [blocksBeforeLoop, if_neg hloc]
    by_cases hnull : wPtr = 0
    · subst hnull
      rw [if_pos rfl, if_pos (unmapped_of_null hlow hhigh hswitch)]
      omega
    · rw [if_neg hnull]
      omega

theorem writeFileCalls_good {st : Store area} {i : ℕ} {position : ℤ} {input : List UInt8}
    {type : Char} (hfirst : st.superblock.firstFreeBlock < allocatableSpaceSize)
    (h₀ : -1 ≤ (st.inode i).blockNumber) (hlow : -256 < position)
    (hhigh : position < maxFileSize)
    (hlast : lastAsked st (st.inode i) position input.length < 4168) :
    ∀ call ∈ writeFileCalls st i position input type, call.Good := by
  obtain ⟨hnum, hlt⟩ := tdiv_block_range hlow hhigh
  intro call hcall
  simp only [lastAsked] at hlast
  simp only [writeFileCalls] at hcall
  split at hcall
  · cases hcall
  · next ino hino =>
    obtain ⟨-, rfl⟩ := Store.inodeAt_eq_some hino
    split at hcall
    · cases hcall
    · rcases List.mem_append.mp hcall with hcall | hcall
      · refine orAllocateCalls_good h₀ (fun hnull ↦ ?_) call hcall
        have hstart : 1 ≤ blocksBeforeLoop st (st.inode i) position := by
          rw [blocksBeforeLoop, if_pos hnull]
          split <;> omega
        omega
      · split at hcall
        · cases hcall
        · next ptr st₁ hblock =>
          split at hcall
          · cases hcall
          · next hne =>
            rcases List.mem_cons.mp hcall with rfl | hcall
            · exact MapCall.good_switch hnum hlt
            · split at hcall
              · cases hcall
              · next wPtr hswitch =>
                -- what was asked for by now
                have hsecond := blockNumber_at_switch hfirst hlow hhigh hblock hne hswitch
                rcases List.mem_append.mp hcall with hcall | hcall
                · refine orAllocateCalls_good (h₀.trans hsecond.1) (fun hnull ↦ ?_) call hcall
                  rw [if_pos hnull] at hsecond
                  omega
                · split at hcall
                  · cases hcall
                  · next ptr' st₂ hblock₂ =>
                    have hthird : -1 ≤ (st₂.inode i).blockNumber ∧ (st₂.inode i).blockNumber ≤
                        (st.inode i).blockNumber + blocksBeforeLoop st (st.inode i) position := by
                      rcases orAllocate_blockNumber hblock₂ with rfl | ⟨hnull, hnumber⟩
                      · refine ⟨h₀.trans hsecond.1, ?_⟩
                        split at hsecond <;> omega
                      · rw [if_pos hnull] at hsecond
                        omega
                    exact writeLoopCalls_good hthird.1 (by omega) call hcall

theorem writeLoop_wSize {i : ℕ} {bs : List UInt8} {st : Store area} {wPtr : ℕ} {off pos : ℤ}
    {n : ℕ} {r : WriteResult area} (h : writeLoop i bs st wPtr off pos n = some r) :
    r.wSize ≤ n + bs.length := by
  induction bs generalizing st wPtr off pos n with
  | nil =>
      cases h
      exact Nat.le_add_right ..
  | cons b bs ih =>
      rw [List.length_cons]
      obtain ⟨st₁, -, -, rfl⟩ | ⟨ptr, st₁, st₂, -, -, -, -, h⟩ | ⟨st₁, -, -, h⟩ := writeLoop_cons h
      · exact Nat.le_add_right ..
      · have hle := ih h
        omega
      · have hle := ih h
        omega

theorem FilesFit.writeFile {st st' : Store area} {i : ℕ} {pos pos' ret : ℤ} {input : List UInt8}
    (hfit : FilesFit st)
    (hsize : (st.inode i).type ≠ .dir → (st.inode i).size + input.length ≤ maxFileSize)
    (h : writeFile st i pos input 'w' = some (ret, pos', st')) : FilesFit st' := by
  by_cases hdir : (st.inode i).type = .dir
  · obtain ⟨-, rfl⟩ := writeFile_of_refuses (.inl ⟨rfl, hdir⟩) h
    exact hfit
  · have hsize := hsize hdir
    rcases writeFile_phases h with
      ⟨-, -, rfl⟩ | ⟨ptr, st₁, wPtr, ptr', st₂, r, h₁, -, -, h₂, hr, -, -, rfl⟩
    · exact hfit
    · have hsteps := (BlockSteps.of_orAllocate h₁).trans
        ((BlockSteps.of_orAllocate h₂).trans (.of_writeLoop hr))
      have hframe := hsteps.frame
      obtain ⟨loc, bn, lbo, hrecord⟩ := hframe.record
      have hold : (r.store.inode i).size = (st.inode i).size := by
        rw [hrecord]
      have hcount := writeLoop_wSize hr
      simp only [maxFileSize] at hsize
      have hnew : ((r.store.inode i).grow r.wSize).size = (st.inode i).size + r.wSize := by
        rw [MyInode.grow_size (by omega), hold]
      have hfirst := firstFreeBlock_lt_of_steps hsteps hfit.first
      refine ⟨by rwa [Store.setInode_superblock], fun j ↦ ?_, fun j ↦ ?_⟩
      · by_cases hj : j = i
        · rw [hj, Store.setInode_inode, MyInode.grow_blockNumber]
          omega
        · rw [Store.setInode_inode_of_ne hj, hframe.others j hj]
          exact hfit.number j
      · by_cases hj : j = i
        · rw [hj, Store.setInode_inode, hnew]
          simp only [maxFileSize]
          omega
        · rw [Store.setInode_inode_of_ne hj, hframe.others j hj]
          exact hfit.size j

theorem FilesFit.step {s s' : State area} {c : WriteCall} (hfit : FilesFit s.store)
    (hwithin : c.Within s) (h : c.step s = some s') : FilesFit s'.store := by
  obtain ⟨⟨ret, s'⟩, hwrite, rfl⟩ := Option.map_eq_some_iff.mp h
  rcases rdWrite_cases hwrite with ⟨-, -, rfl⟩ | ⟨fo, pos, st, hfo, hfile, rfl⟩
  · rw [getFDT_store]
    exact hfit
  · exact hfit.writeFile (fun htype ↦ (hwithin fo hfo htype).2.2.2) hfile

theorem WriteCall.calls_good {s : State area} {c : WriteCall} (hfit : FilesFit s.store)
    (hwithin : c.Within s) : ∀ call ∈ c.calls s, call.Good := by
  intro call hcall
  simp only [calls] at hcall
  split at hcall
  · cases hcall
  · next fo hfo =>
    by_cases hdir : (s.store.inode fo.inodeIndex).type = .dir
    · simp only [writeFileCalls] at hcall
      split at hcall
      · cases hcall
      · next ino hino =>
        obtain ⟨-, rfl⟩ := Store.inodeAt_eq_some hino
        rw [if_pos ⟨trivial, hdir⟩] at hcall
        cases hcall
    · obtain ⟨hlow, hhigh, hlast, -⟩ := hwithin fo hfo hdir
      exact writeFileCalls_good hfit.first (hfit.number _) hlow hhigh hlast call hcall

/-! ## Reads -/

theorem readStart_range {ino : MyInode} {position : ℤ} (hpos : 0 < ino.size)
    (hmax : ino.size ≤ maxFileSize) (hlow : -2147483648 ≤ position)
    (hhigh : position < 2147483648) :
    0 ≤ ino.readStart position ∧ ino.readStart position < ino.size := by
  simp only [maxFileSize] at hmax
  rw [MyInode.readStart]
  by_cases hend : toUInt32 position ≥ ino.size
  · rw [if_pos hend]
    omega
  · rw [if_neg hend]
    simp only [toUInt32] at hend
    omega

theorem readCount_le {ino : MyInode} {position numBytes : ℤ} (hmax : ino.size ≤ maxFileSize)
    (hstart : 0 ≤ ino.readStart position) (hlt : ino.readStart position < ino.size) :
    ino.readStart position + (ino.readCount position numBytes).toNat ≤ ino.size := by
  simp only [maxFileSize] at hmax
  have hleft : toUInt32 (ino.size - ino.readStart position) =
      (ino.size - ino.readStart position).toNat := by
    simp only [toUInt32]
    omega
  rw [MyInode.readCount, hleft, toInt_of_lt (by omega)]
  omega

theorem readLoopCalls_good {st : Store area} {ino : MyInode} {fuel c : ℕ} {position : ℤ}
    (hmax : ino.size ≤ maxFileSize) (hpos : 0 ≤ position)
    (hend : 0 < c → position + c ≤ ino.size) :
    ∀ call ∈ readLoopCalls st ino fuel c position, call.Good := by
  induction fuel generalizing c position with
  | zero =>
      intro call hcall
      cases c <;> cases hcall
  | succ fuel ih =>
      cases c with
      | zero =>
          intro call hcall
          cases hcall
      | succ c =>
          have hle := hend (by omega)
          intro call hcall
          simp only [readLoopCalls] at hcall
          rcases List.mem_cons.mp hcall with rfl | hcall
          · exact MapCall.good_pointer (by omega)
          · split at hcall
            · cases hcall
            · split at hcall
              · cases hcall
              · refine ih (by omega) (fun hmore ↦ ?_) call hcall
                omega

theorem readFileCalls_good {st : Store area} {ino : MyInode} {position numBytes : ℤ}
    (hmax : ino.size ≤ maxFileSize) (hlow : -2147483648 ≤ position)
    (hhigh : position < 2147483648) :
    ∀ call ∈ readFileCalls st ino position numBytes, call.Good := by
  intro call hcall
  simp only [readFileCalls] at hcall
  split at hcall
  · cases hcall
  · next hready =>
    have hpos : 0 < ino.size := Nat.pos_of_ne_zero fun hzero ↦ hready (.inl hzero)
    obtain ⟨hstart, hlt⟩ := readStart_range hpos hmax hlow hhigh
    exact readLoopCalls_good hmax hstart (fun _ ↦ readCount_le hmax hstart hlt) call hcall

/-- The calls into the block map that `rd_read` makes. -/
def rdReadCalls (cur : Process) (fd numBytes : ℤ) (s : State area) : List (MapCall area) :=
  match (s.table cur).fileObject fd with
  | none => []
  | some fo =>
      match s.store.inodeAt fo.inodeIndex with
      | none => []
      | some ino => readFileCalls s.store ino fo.position numBytes

/-! ## Runs -/

/-- In every state that a run of such writes reaches, no file is too large, and
whatever the next write or read is, its accesses to the block maps are in range
and `allocate_block` refuses the right block numbers. Positions are C integers.
The calls are those that `write_file` and `rd_read` make. -/
theorem indices_in_range {s s' : State area} {writes : List WriteCall}
    (hfit : FilesFit s.store)
    (hwithin : PartialRun.Along WriteCall.step (fun t c _ ↦ c.Within t) s writes)
    (hrun : PartialRun.run WriteCall.step s writes = some s') :
    (∀ i, (s'.store.inode i).size ≤ maxFileSize) ∧
      (∀ c : WriteCall, c.Within s' → ∀ call ∈ c.calls s', call.Good) ∧
      (∀ (cur : Process) (fd numBytes : ℤ),
        (∀ fo, (s'.table cur).fileObject fd = some fo →
          -2147483648 ≤ fo.position ∧ fo.position < 2147483648) →
        ∀ call ∈ rdReadCalls cur fd numBytes s', call.Good) ∧
      (∀ (c : WriteCall) (fo : FileObject) (ret position : ℤ) (st : Store area),
        (s'.table c.cur).fileObject c.fd = some fo →
        writeFile s'.store fo.inodeIndex fo.position c.input 'w' = some (ret, position, st) →
        ∃ st₁, CallsMade fo.inodeIndex s'.store (c.calls s') st₁ ∧ st.space = st₁.space ∧
          ∀ j, (st.inode j).location = (st₁.inode j).location) ∧
      ∀ (cur : Process) (fd numBytes : ℤ) (fo : FileObject) (ino : MyInode)
        (lookup : ℤ → Option ℕ), (s'.table cur).fileObject fd = some fo →
        s'.store.inodeAt fo.inodeIndex = some ino →
        (∀ p, .pointer s'.store ino p ∈ rdReadCalls cur fd numBytes s' →
          lookup p = getBlockpointer s'.store p ino) →
        readFile s'.store ino fo.position numBytes =
          if ino.size = 0 ∨ ino.location 0 = 0 then some ⟨ERROR, [], none⟩
          else
            readLoopBy lookup s'.store (ino.readCount fo.position numBytes)
              (ino.readCount fo.position numBytes).toNat
              (ino.readCount fo.position numBytes).toNat (ino.readStart fo.position) [] := by
  have hreached : FilesFit s'.store := by
    refine PartialRun.invariant_of_along (I := fun t : State area ↦ FilesFit t.store) ?_ hfit
      hwithin hrun
    exact fun t c t' ht hc hstep ↦ ht.step hc hstep
  refine ⟨hreached.size, fun c hc ↦ c.calls_good hreached hc, ?_, ?_, ?_⟩
  · intro cur fd numBytes hint call hcall
    simp only [rdReadCalls] at hcall
    split at hcall
    · cases hcall
    · next fo hfo =>
      obtain ⟨hlow, hhigh⟩ := hint fo hfo
      split at hcall
      · cases hcall
      · next ino hino =>
        obtain ⟨-, rfl⟩ := Store.inodeAt_eq_some hino
        exact readFileCalls_good (hreached.size _) hlow hhigh call hcall
  · intro c fo ret position st hfo hwrite
    rw [WriteCall.calls, hfo]
    exact writeFile_calls hwrite
  · intro cur fd numBytes fo ino lookup hfo hino hlookup
    rw [rdReadCalls, hfo] at hlookup
    dsimp only at hlookup
    rw [hino] at hlookup
    exact readFile_calls hlookup

theorem FilesFit.setInode {st : Store area} (h : FilesFit st) (i : ℕ) {ino : MyInode}
    (hnumber : -1 ≤ ino.blockNumber) (hsize : ino.size ≤ maxFileSize) :
    FilesFit (st.setInode i ino) := by
  refine ⟨h.first, fun j ↦ ?_, fun j ↦ ?_⟩
  · by_cases hj : j = i
    · rwa [hj, Store.setInode_inode]
    · rw [Store.setInode_inode_of_ne hj]
      exact h.number j
  · by_cases hj : j = i
    · rwa [hj, Store.setInode_inode]
    · rw [Store.setInode_inode_of_ne hj]
      exact h.size j

theorem filesFit_init (area : Area) : FilesFit (initDatastructure area) := by
  have hnumber : ∀ i, ((initDatastructure area).inode i).blockNumber = 0 :=
    Store.update_field MyInode.blockNumber rfl
  have hsize : ∀ i, ((initDatastructure area).inode i).size = 0 :=
    Store.update_field MyInode.size rfl
  refine ⟨show 1 < 7931 by omega, fun i ↦ ?_, fun i ↦ ?_⟩
  · rw [hnumber]
    omega
  · rw [hsize]
    exact Nat.zero_le _

/-- A process that has the file of record 1 open. -/
def freshFileState : State sampleArea where
  store := (initDatastructure sampleArea).setInode 1 freshFile
  fdtList := [⟨sampleProcess.pid, [⟨0, 0⟩, ⟨1, 0⟩], []⟩]

theorem indices_in_range_twoBytes : ∃ s' : State sampleArea,
    PartialRun.run WriteCall.step freshFileState [⟨sampleProcess, 1, [97, 98]⟩] = some s' ∧
      ∀ i, (s'.store.inode i).size ≤ maxFileSize := by
  have hfit : FilesFit freshFileState.store :=
    (filesFit_init sampleArea).setInode 1 (by decide) (by decide)
  have hwithin : WriteCall.Within freshFileState ⟨sampleProcess, 1, [97, 98]⟩ := by
    have hfd : (freshFileState.table sampleProcess).fileObject 1 = some ⟨1, 0⟩ := rfl
    intro fo hfo _
    obtain rfl : ⟨1, 0⟩ = fo := Option.some.inj (hfd.symm.trans hfo)
    have hlast : lastAsked freshFileState.store freshFile 0 2 < 4168 := by decide +kernel
    exact ⟨by decide, by decide, hlast, by decide⟩
  obtain ⟨s', hrun⟩ := Option.isSome_iff_exists.mp (show
    (PartialRun.run WriteCall.step freshFileState [⟨sampleProcess, 1, [97, 98]⟩]).isSome = true by
    decide +kernel)
  have halong : PartialRun.Along WriteCall.step (fun t c _ ↦ c.Within t) freshFileState
      [⟨sampleProcess, 1, [97, 98]⟩] := fun _ _ ↦ ⟨hwithin, trivial⟩
  exact ⟨s', hrun, (indices_in_range hfit halong hrun).1⟩

end OperatingSystem.Filesys
