import OperatingSystem.Filesys.MapAccesses
import OperatingSystem.Filesys.Reading

/-!
# Indices into the block map

The calls of `allocate_block`, `switchAddress` and `get_blockpointer` that
`rd_write` and `rd_read` make, and when all accesses of one call are in range.
-/

namespace OperatingSystem.Filesys

open Lockstep

variable {area : Area}

/-! ## Calls -/

/-- A call of one of the three functions, with what it looks at. -/
inductive MapCall (area : Area) where
  | allocate (st : Store area) (i : ℕ)
  | switch (st : Store area) (ino : MyInode) (blockNum : ℤ)
  | pointer (st : Store area) (ino : MyInode) (position : ℤ)

def MapCall.accesses : MapCall area → List MapAccess
  | .allocate st i => allocateAccesses st i
  | .switch st ino blockNum => switchAccesses st ino blockNum
  | .pointer st ino position => pointerAccesses st ino position

/-- The function reads no entries but those of its accesses, as it does the same
wherever they are the same, and stores to no others. -/
def MapCall.Local : MapCall area → Prop
  | .allocate st i =>
      (∀ st', AgreeAt (allocateAccesses st i) i st st' →
        Agrees (AgreeAt (allocateAccesses st i) i) (allocateBlock st i) (allocateBlock st' i)) ∧
      ∀ ptr st', allocateBlock st i = some (ptr, st') →
        StoresOnly (allocateAccesses st i) i st st'
  | .switch st ino blockNum => ∀ st' ino' blockOffset,
      SameEntries (switchAccesses st ino blockNum) st ino st' ino' →
        switchAddress st' ino' blockNum blockOffset = switchAddress st ino blockNum blockOffset
  | .pointer st ino position => ∀ st' ino',
      SameEntries (pointerAccesses st ino position) st ino st' ino' →
        getBlockpointer st' position ino' = getBlockpointer st position ino

/-- There are as many free blocks as `allocate_block` asks for. -/
def EnoughBlocks (sb : Superblock) (ino : MyInode) : Prop :=
  1 ≤ sb.freeBlockNumber ∧ (ino.blockNumber + 1 = 8 → 2 ≤ sb.freeBlockNumber) ∧
    (ino.blockNumber + 1 = 72 → 3 ≤ sb.freeBlockNumber)

/-- The function uses the entries of its accesses only, all their indices are in
range, and with enough free blocks `allocate_block` returns `NULL` exactly for the
block numbers that a file cannot have. -/
structure MapCall.Good (call : MapCall area) : Prop where
  entries : call.Local
  inRange : ∀ a ∈ call.accesses, a.InRange
  refuses : ∀ st i, call = .allocate st i → EnoughBlocks st.superblock (st.inode i) →
    ((∃ st', allocateBlock st i = some (0, st')) ↔
      maxFileSize / blockSize ≤ (st.inode i).blockNumber + 1)

def writeLoopCalls (i : ℕ) : List UInt8 → Store area → ℕ → ℤ → List (MapCall area)
  | [], _, _, _ => []
  | b :: bs, st, wPtr, blockOffset =>
      if blockOffset = blockSize then
        .allocate st i ::
          match allocateBlock st i with
          | none => []
          | some (ptr, st) =>
              if ptr = 0 then []
              else
                match st.storeBytes ptr [b] with
                | none => []
                | some st => writeLoopCalls i bs st (ptr + 1) 1
      else
        match st.storeBytes wPtr [b] with
        | none => []
        | some st => writeLoopCalls i bs st (wPtr + 1) (blockOffset + 1)

/-- The call of `allocate_block` in the place of a `NULL` pointer. -/
def orAllocateCalls (st : Store area) (i ptr : ℕ) : List (MapCall area) :=
  if ptr = 0 then [.allocate st i] else []

def writeFileCalls (st : Store area) (i : ℕ) (position : ℤ) (input : List UInt8)
    (type : Char) : List (MapCall area) :=
  match st.inodeAt i with
  | none => []
  | some ino =>
      if type = 'w' ∧ ino.type = .dir then []
      else
        orAllocateCalls st i (ino.location 0) ++
          match orAllocate st i (ino.location 0) with
          | none => []
          | some (ptr, st) =>
              if ptr = 0 then []
              else
                .switch st (st.inode i) (position.tdiv blockSize) ::
                  match switchAddress st (st.inode i) (position.tdiv blockSize)
                      (position.tmod blockSize) with
                  | none => []
                  | some wPtr =>
                      orAllocateCalls st i wPtr ++
                        match orAllocate st i wPtr with
                        | none => []
                        | some (wPtr, st) =>
                            writeLoopCalls i input st wPtr (position.tmod blockSize)

/-- The disk goes from `st` to `st'` by these calls, in their order. Between them
`write_file` only stores bytes. -/
inductive CallsMade (i : ℕ) : Store area → List (MapCall area) → Store area → Prop
  | done (st : Store area) : CallsMade i st [] st
  | allocate {st st₁ st' : Store area} {ptr : ℕ} {calls : List (MapCall area)}
      (hcall : allocateBlock st i = some (ptr, st₁)) (hrest : CallsMade i st₁ calls st') :
      CallsMade i st (.allocate st i :: calls) st'
  | switch {st st' : Store area} {blockNum blockOffset : ℤ} {ptr : ℕ}
      {calls : List (MapCall area)}
      (hcall : switchAddress st (st.inode i) blockNum blockOffset = some ptr)
      (hrest : CallsMade i st calls st') :
      CallsMade i st (.switch st (st.inode i) blockNum :: calls) st'
  | store {st st₁ st' : Store area} {addr : ℕ} {bytes : List UInt8}
      {calls : List (MapCall area)} (hstore : st.storeBytes addr bytes = some st₁)
      (hrest : CallsMade i st₁ calls st') : CallsMade i st calls st'

def readLoopCalls (st : Store area) (ino : MyInode) : ℕ → ℕ → ℤ → List (MapCall area)
  | _, 0, _ => []
  | 0, _ + 1, _ => []
  | fuel + 1, readBytes + 1, position =>
      .pointer st ino position ::
        match getBlockpointer st position ino with
        | none => []
        | some readPointer =>
            if readPointer = 0 then []
            else
              let remain := blockSize - (position.tmod blockSize).toNat
              readLoopCalls st ino fuel (readBytes + 1 - min (readBytes + 1) remain)
                (position + remain)

/-- The copy loop of `rd_read` with another function in the place of
`get_blockpointer`. -/
def readLoopBy (lookup : ℤ → Option ℕ) (st : Store area) (numBytes : ℤ) :
    ℕ → ℕ → ℤ → List UInt8 → Option ReadResult
  | _, 0, _, output => some ⟨numBytes, output, some numBytes⟩
  | 0, _ + 1, _, _ => none
  | fuel + 1, readBytes + 1, position, output => do
      let readPointer ← lookup position
      if readPointer = 0 then some ⟨ERROR, output, some numBytes⟩
      else do
        let remain := blockSize - (position.tmod blockSize).toNat
        let iterationRead := min (readBytes + 1) remain
        if area.Holds readPointer iterationRead then
          readLoopBy lookup st numBytes fuel (readBytes + 1 - iterationRead) (position + remain)
            (output ++ ByteMemory.readBytes st.space readPointer iterationRead)
        else none

def readFileCalls (st : Store area) (ino : MyInode) (position numBytes : ℤ) :
    List (MapCall area) :=
  if ino.size = 0 ∨ ino.location 0 = 0 then []
  else
    readLoopCalls st ino (ino.readCount position numBytes).toNat
      (ino.readCount position numBytes).toNat (ino.readStart position)

/-! ## The calls that are made -/

theorem CallsMade.orAllocate {i p ptr : ℕ} {st st₁ st' : Store area}
    {calls : List (MapCall area)} (hcall : Filesys.orAllocate st i p = some (ptr, st₁))
    (hrest : CallsMade i st₁ calls st') : CallsMade i st (orAllocateCalls st i p ++ calls) st' := by
  rw [Filesys.orAllocate] at hcall
  rw [orAllocateCalls]
  split at hcall
  · next hnull =>
    rw [if_pos hnull]
    exact .allocate hcall hrest
  · next hne =>
    cases hcall
    rw [if_neg hne]
    exact hrest

theorem writeLoop_calls {i : ℕ} {bs : List UInt8} {st : Store area} {wPtr : ℕ} {off pos : ℤ}
    {n : ℕ} {r : WriteResult area} (h : writeLoop i bs st wPtr off pos n = some r) :
    CallsMade i st (writeLoopCalls i bs st wPtr off) r.store := by
  induction bs generalizing st wPtr off pos n with
  | nil =>
      cases h
      exact .done st
  | cons b bs ih =>
      rw [writeLoopCalls]
      obtain ⟨st₁, hend, hblock, rfl⟩ | ⟨ptr, st₁, st₂, hend, hblock, hne, hstore, h⟩ |
        ⟨st₁, hend, hstore, h⟩ := writeLoop_cons h
      · rw [if_pos hend, hblock]
        dsimp only
        rw [if_pos rfl]
        exact .allocate hblock (.done _)
      · rw [if_pos hend, hblock]
        dsimp only
        rw [if_neg hne, hstore]
        exact .allocate hblock (.store hstore (ih h))
      · rw [if_neg hend, hstore]
        exact .store hstore (ih h)

/-- `write_file` makes the listed calls, and changes nothing else of a block map. -/
theorem writeFile_calls {st st' : Store area} {i : ℕ} {position position' ret : ℤ}
    {input : List UInt8} {type : Char}
    (h : writeFile st i position input type = some (ret, position', st')) :
    ∃ st₁, CallsMade i st (writeFileCalls st i position input type) st₁ ∧
      st'.space = st₁.space ∧ ∀ j, (st'.inode j).location = (st₁.inode j).location := by
  obtain ⟨ino, hino, h⟩ := Option.bind_eq_some_iff.mp h
  rw [writeFileCalls, hino]
  obtain ⟨-, rfl⟩ := Store.inodeAt_eq_some hino
  dsimp only
  split at h
  · next hdir =>
    cases h
    rw [if_pos hdir]
    exact ⟨st, .done st, rfl, fun _ ↦ rfl⟩
  · next hdir =>
    obtain ⟨⟨ptr, st₁⟩, hfirst, h⟩ := Option.bind_eq_some_iff.mp h
    rw [if_neg hdir, hfirst]
    dsimp only at h ⊢
    split at h
    · next hnull =>
      cases h
      rw [if_pos hnull]
      exact ⟨st', .orAllocate hfirst (.done st'), rfl, fun _ ↦ rfl⟩
    · next hne =>
      obtain ⟨wPtr, hswitch, h⟩ := Option.bind_eq_some_iff.mp h
      obtain ⟨⟨wPtr', st₂⟩, hblock, h⟩ := Option.bind_eq_some_iff.mp h
      obtain ⟨r, hr, h⟩ := Option.bind_eq_some_iff.mp h
      cases h
      rw [if_neg hne, hswitch]
      dsimp only
      rw [hblock]
      exact ⟨r.store, .orAllocate hfirst (.switch hswitch (.orAllocate hblock (writeLoop_calls hr))),
        rfl, Store.update_field MyInode.location rfl⟩

/-- The copy loop asks for the pointers of the listed calls only. -/
theorem readLoop_calls {st : Store area} {ino : MyInode} {lookup : ℤ → Option ℕ} {numBytes : ℤ}
    {fuel c : ℕ} {position : ℤ} {output : List UInt8}
    (h : ∀ p, .pointer st ino p ∈ readLoopCalls st ino fuel c position →
      lookup p = getBlockpointer st p ino) :
    readLoop st ino numBytes fuel c position output =
      readLoopBy lookup st numBytes fuel c position output := by
  induction fuel generalizing c position output with
  | zero => cases c <;> rfl
  | succ fuel ih =>
      cases c with
      | zero => rfl
      | succ c =>
          simp only [readLoopCalls] at h
          simp only [readLoop, readLoopBy, h position List.mem_cons_self]
          refine Option.bind_congr fun readPointer hptr ↦ ?_
          rw [hptr] at h
          dsimp only at h
          split
          · rfl
          · next hne =>
            rw [if_neg hne] at h
            split
            · exact ih fun p hp ↦ h p (List.mem_cons_of_mem _ hp)
            · rfl

/-- What `rd_read` delivers depends on the pointers of the listed calls only. -/
theorem readFile_calls {st : Store area} {ino : MyInode} {lookup : ℤ → Option ℕ}
    {position numBytes : ℤ}
    (h : ∀ p, .pointer st ino p ∈ readFileCalls st ino position numBytes →
      lookup p = getBlockpointer st p ino) :
    readFile st ino position numBytes =
      if ino.size = 0 ∨ ino.location 0 = 0 then some ⟨ERROR, [], none⟩
      else
        readLoopBy lookup st (ino.readCount position numBytes)
          (ino.readCount position numBytes).toNat (ino.readCount position numBytes).toNat
          (ino.readStart position) [] := by
  rw [readFileCalls] at h
  split at h
  · next hrefused =>
    rw [if_pos hrefused]
    rcases hrefused with hsize | hloc
    · rw [readFile, if_pos hsize]
    · rw [readFile, if_pos hloc, ite_self]
  · next hready =>
    rw [if_neg hready, readFile_eq_readLoop _ _ (fun hsize ↦ hready (.inl hsize))
      (fun hloc ↦ hready (.inr hloc))]
    exact readLoop_calls h

/-! ## One call -/

theorem switchAccesses_inRange {st : Store area} {ino : MyInode} {num : ℤ} (h₀ : 0 ≤ num)
    (h : num < 4168) : ∀ a ∈ switchAccesses st ino num, a.InRange := by
  intro a ha
  simp only [switchAccesses] at ha
  split at ha
  · obtain rfl := List.mem_singleton.mp ha
    exact ⟨h₀, by omega⟩
  · split at ha
    · rcases List.mem_cons.mp ha with rfl | ha
      · exact ⟨by omega, by omega⟩
      · split at ha
        · cases ha
        · obtain rfl := List.mem_singleton.mp ha
          exact ⟨by omega, by omega⟩
    · rcases List.mem_cons.mp ha with rfl | ha
      · exact ⟨by omega, by omega⟩
      · split at ha
        · cases ha
        · rcases List.mem_cons.mp ha with rfl | ha
          · exact ⟨by omega, by omega⟩
          · obtain rfl := List.mem_singleton.mp ha
            exact ⟨by omega, by omega⟩

theorem allocateAccesses_inRange {st : Store area} {i : ℕ} (h₀ : -1 ≤ (st.inode i).blockNumber)
    (h : (st.inode i).blockNumber ≠ 4167 ∨ st.superblock.freeBlockNumber = 0) :
    ∀ a ∈ allocateAccesses st i, a.InRange := by
  intro a ha
  simp only [allocateAccesses] at ha
  split at ha
  · cases ha
  · next hrefuse =>
    have hlast : (st.inode i).blockNumber < 4167 := by
      simp only [RefusesBlock, maxFileSize, blockSize] at hrefuse
      omega
    split at ha
    · obtain rfl := List.mem_singleton.mp ha
      exact ⟨by omega, by omega⟩
    · split at ha
      · rcases List.mem_cons.mp ha with rfl | ha
        · exact ⟨by omega, by omega⟩
        · obtain rfl := List.mem_singleton.mp ha
          split <;> exact ⟨by omega, by omega⟩
      · split at ha
        · fin_cases ha <;> exact ⟨by omega, by omega⟩
        · fin_cases ha
          · exact ⟨by omega, by omega⟩
          · exact ⟨by omega, by omega⟩
          · change MapAccess.InRange (if _ then _ else _)
            split <;> exact ⟨by omega, by omega⟩

theorem refusesBlock_iff {sb : Superblock} {ino : MyInode} (h : EnoughBlocks sb ino) :
    RefusesBlock sb ino ↔ maxFileSize / blockSize < ino.blockNumber + 1 := by
  obtain ⟨hone, height, hdouble⟩ := h
  constructor
  · rintro (hlarge | hnone | ⟨hnum, hfew⟩ | ⟨hnum, hfew⟩)
    · exact hlarge
    · omega
    · have hfree := height hnum
      omega
    · have hfree := hdouble hnum
      omega
  · exact .inl

namespace MapCall

theorem isLocal (call : MapCall area) : call.Local := by
  cases call with
  | allocate st i =>
      exact ⟨fun _ h ↦ allocateBlock_agrees h, fun _ _ h ↦ allocateBlock_storesOnly h⟩
  | switch st ino blockNum => exact fun _ _ blockOffset h ↦ switchAddress_sameEntries h blockOffset
  | pointer st ino position => exact fun _ _ h ↦ getBlockpointer_sameEntries h

theorem good_switch {st : Store area} {ino : MyInode} {num : ℤ} (h₀ : 0 ≤ num)
    (h : num < 4168) : (MapCall.switch st ino num).Good :=
  ⟨isLocal _, switchAccesses_inRange h₀ h, fun _ _ heq ↦ by cases heq⟩

theorem good_pointer {st : Store area} {ino : MyInode} {position : ℤ}
    (h : position < maxFileSize) : (MapCall.pointer st ino position).Good := by
  refine ⟨isLocal _, fun a ha ↦ ?_, fun _ _ heq ↦ by cases heq⟩
  simp only [accesses, pointerAccesses] at ha
  simp only [maxFileSize] at h
  split at ha
  · cases ha
  · have hdiv : position.tdiv blockSize = position / 256 := Int.tdiv_eq_ediv_of_nonneg (by omega)
    rw [hdiv] at ha
    exact switchAccesses_inRange (by omega) (by omega) a ha

/-- A call of `allocate_block` goes wrong exactly if it asks for the block behind
the last one and there is a free block to be had. -/
theorem good_allocate_iff {st : Store area} {i : ℕ} (h₀ : -1 ≤ (st.inode i).blockNumber) :
    (MapCall.allocate st i).Good ↔
      (st.inode i).blockNumber ≠ 4167 ∨ st.superblock.freeBlockNumber = 0 := by
  have hmax : ((maxFileSize / blockSize : ℕ) : ℤ) = 4168 := rfl
  constructor
  · rintro ⟨-, -, hrefuses⟩
    by_contra hboth
    rw [not_or, not_not] at hboth
    have henough : EnoughBlocks st.superblock (st.inode i) := ⟨by omega, by omega, by omega⟩
    obtain ⟨st', hnull⟩ := (hrefuses st i rfl henough).mpr (by omega)
    have hlarge := (refusesBlock_iff henough).mp (refusesBlock_of_null hnull)
    omega
  · intro hcall
    refine ⟨isLocal _, allocateAccesses_inRange h₀ hcall, ?_⟩
    rintro st i ⟨⟩ henough
    have hne := hcall.resolve_right (by have hone := henough.1; omega)
    constructor
    · rintro ⟨st', hnull⟩
      have hlarge := (refusesBlock_iff henough).mp (refusesBlock_of_null hnull)
      omega
    · intro hlarge
      exact ⟨st, allocateBlock_of_refuses ((refusesBlock_iff henough).mpr (by omega))⟩

end MapCall

end OperatingSystem.Filesys
