import OperatingSystem.Filesys.GapFree
import OperatingSystem.Filesys.Reading

/-!
# The bytes that a write stores

`write_file` takes its pointer from the block map or from `allocate_block` and
then only counts it up. The module lists the addresses that it stores to, shows
that it changes the disk by these stores and by its requests for blocks only, says
when the addresses are where the block map has the position, and follows the byte
loop through one block of any kind and through the direct blocks of a growing
file.
-/

namespace OperatingSystem.Filesys

open ByteMemory

variable {area : Area}

/-! ## Stores -/

/-- A byte that `write_file` stores: the disk at this moment, the address and
`*position`. -/
structure ByteStore (area : Area) where
  store : Store area
  addr : ℕ
  position : ℤ

/-- The stores of the byte loop. The last one may be undefined. -/
def writeLoopStores (i : ℕ) : List UInt8 → Store area → ℕ → ℤ → ℤ → List (ByteStore area)
  | [], _, _, _, _ => []
  | b :: bs, st, wPtr, blockOffset, position =>
      if blockOffset = blockSize then
        match allocateBlock st i with
        | none => []
        | some (ptr, st) =>
            if ptr = 0 then []
            else
              ⟨st, ptr, position⟩ ::
                match st.storeBytes ptr [b] with
                | none => []
                | some st => writeLoopStores i bs st (ptr + 1) 1 (position + 1)
      else
        ⟨st, wPtr, position⟩ ::
          match st.storeBytes wPtr [b] with
          | none => []
          | some st => writeLoopStores i bs st (wPtr + 1) (blockOffset + 1) (position + 1)

def writeFileStores (st : Store area) (i : ℕ) (position : ℤ) (input : List UInt8)
    (type : Char) : List (ByteStore area) :=
  match st.inodeAt i with
  | none => []
  | some ino =>
      if type = 'w' ∧ ino.type = .dir then []
      else
        match orAllocate st i (ino.location 0) with
        | none => []
        | some (ptr, st) =>
            if ptr = 0 then []
            else
              match switchAddress st (st.inode i) (position.tdiv blockSize)
                  (position.tmod blockSize) with
              | none => []
              | some wPtr =>
                  match orAllocate st i wPtr with
                  | none => []
                  | some (wPtr, st) =>
                      writeLoopStores i input st wPtr (position.tmod blockSize) position

/-- The byte goes to where the inode has its position: into a block of the data
area that is mapped at this moment. -/
def ByteStore.InPlace (i : ℕ) (b : ByteStore area) : Prop :=
  ∃ p k : ℕ, b.position = p ∧ p / 256 < maxFileSize / blockSize ∧ k < allocatableSpaceSize ∧
    b.store.logicalPtr (b.store.inode i) (p / 256) = area.blockAddr k ∧
    b.addr = area.blockAddr k + p % 256

/-- The data area after the bytes of `input` were stored one by one, for as many
as there are stores. -/
def replay (m : ℕ → UInt8) (stores : List (ByteStore area)) (input : List UInt8) : ℕ → UInt8 :=
  (stores.zip input).foldl (fun m x ↦ writeBytes m x.1.addr [x.2]) m

/-- `write_file` is defined, stores every byte in its place and nothing else, and
if it does not store all of them, it returns the number of those that it stored
and adds it to the size. -/
structure WritesInPlace (st : Store area) (i : ℕ) (position : ℤ) (input : List UInt8) :
    Prop where
  inPlace : ∀ b ∈ writeFileStores st i position input 'w', b.InPlace i
  result : ∃ (ret position' : ℤ) (st' : Store area),
    writeFile st i position input 'w' = some (ret, position', st') ∧
      st'.space = replay st.space (writeFileStores st i position input 'w') input ∧
      ((st.inode i).type ≠ .dir →
        (writeFileStores st i position input 'w').length < input.length →
          ret = (writeFileStores st i position input 'w').length ∧
            (st'.inode i).size =
              (st.inode i).size + (writeFileStores st i position input 'w').length)

/-! ## What changes the disk -/

/-- The disk goes from `st` to `st'` by these stores of these bytes, in their
order, each one on the disk and to the address of its record. Nothing else changes
it but `allocate_block`. -/
inductive Performs (i : ℕ) :
    Store area → List (ByteStore area × UInt8) → Store area → Prop
  | done (st : Store area) : Performs i st [] st
  | request {st st₁ st' : Store area} {ptr : ℕ} {stores : List (ByteStore area × UInt8)}
      (hblock : allocateBlock st i = some (ptr, st₁)) (hrest : Performs i st₁ stores st') :
      Performs i st stores st'
  | store {b : ByteStore area} {c : UInt8} {st₁ st' : Store area}
      {stores : List (ByteStore area × UInt8)}
      (hstore : b.store.storeBytes b.addr [c] = some st₁) (hrest : Performs i st₁ stores st') :
      Performs i b.store ((b, c) :: stores) st'

theorem Performs.of_orAllocate {st st₁ st' : Store area} {i p ptr : ℕ}
    {stores : List (ByteStore area × UInt8)} (hblock : orAllocate st i p = some (ptr, st₁))
    (h : Performs i st₁ stores st') : Performs i st stores st' := by
  rw [orAllocate] at hblock
  split at hblock
  · exact .request hblock h
  · cases hblock
    exact h

theorem writeLoop_performs {i : ℕ} {bs : List UInt8} {st : Store area} {wPtr : ℕ}
    {off pos : ℤ} {n : ℕ} {r : WriteResult area} (h : writeLoop i bs st wPtr off pos n = some r) :
    Performs i st ((writeLoopStores i bs st wPtr off pos).zip bs) r.store := by
  induction bs generalizing st wPtr off pos n with
  | nil =>
      cases h
      exact .done st
  | cons b bs ih =>
      rw [writeLoopStores]
      obtain ⟨st₁, hend, hblock, rfl⟩ | ⟨ptr, st₁, st₂, hend, hblock, hne, hstore, h⟩ |
        ⟨st₁, hend, hstore, h⟩ := writeLoop_cons h
      · rw [if_pos hend, hblock]
        dsimp only
        rw [if_pos rfl]
        exact .request hblock (.done _)
      · rw [if_pos hend, hblock]
        dsimp only
        rw [if_neg hne, hstore, List.zip_cons_cons]
        exact .request hblock (.store (b := ⟨st₁, ptr, pos⟩) hstore (ih h))
      · rw [if_neg hend, hstore, List.zip_cons_cons]
        exact .store (b := ⟨st, wPtr, pos⟩) hstore (ih h)

/-- `write_file` stores the bytes as listed, whatever its position is. -/
theorem writeFile_performs {st st' : Store area} {i : ℕ} {position position' ret : ℤ}
    {input : List UInt8} {type : Char}
    (h : writeFile st i position input type = some (ret, position', st')) :
    ∃ st₁, Performs i st ((writeFileStores st i position input type).zip input) st₁ ∧
      st'.space = st₁.space := by
  obtain ⟨ino, hino, h⟩ := Option.bind_eq_some_iff.mp h
  rw [writeFileStores, hino]
  obtain ⟨-, rfl⟩ := Store.inodeAt_eq_some hino
  dsimp only
  split at h
  · next hdir =>
    cases h
    rw [if_pos hdir]
    exact ⟨st, .done st, rfl⟩
  · next hdir =>
    obtain ⟨⟨ptr, st₁⟩, hfirst, h⟩ := Option.bind_eq_some_iff.mp h
    rw [if_neg hdir, hfirst]
    dsimp only at h ⊢
    split at h
    · next hnull =>
      cases h
      rw [if_pos hnull]
      exact ⟨st', .of_orAllocate hfirst (.done st'), rfl⟩
    · next hne =>
      obtain ⟨wPtr, hswitch, h⟩ := Option.bind_eq_some_iff.mp h
      obtain ⟨⟨wPtr', st₂⟩, hblock, h⟩ := Option.bind_eq_some_iff.mp h
      obtain ⟨r, hr, h⟩ := Option.bind_eq_some_iff.mp h
      cases h
      rw [if_neg hne, hswitch]
      dsimp only
      rw [hblock]
      exact ⟨r.store, .of_orAllocate hfirst (.of_orAllocate hblock (writeLoop_performs hr)), rfl⟩

/-! ## The loop -/

theorem writeLoop_wSize_eq {i : ℕ} {bs : List UInt8} {st : Store area} {wPtr : ℕ} {off pos : ℤ}
    {n : ℕ} {r : WriteResult area} (h : writeLoop i bs st wPtr off pos n = some r) :
    r.wSize = n + (writeLoopStores i bs st wPtr off pos).length := by
  induction bs generalizing st wPtr off pos n with
  | nil =>
      cases h
      rfl
  | cons b bs ih =>
      rw [writeLoopStores]
      obtain ⟨st₁, hend, hblock, rfl⟩ | ⟨ptr, st₁, st₂, hend, hblock, hne, hstore, h⟩ |
        ⟨st₁, hend, hstore, h⟩ := writeLoop_cons h
      · rw [if_pos hend, hblock]
        dsimp only
        rw [if_pos rfl]
        rfl
      · rw [if_pos hend, hblock]
        dsimp only
        rw [if_neg hne, hstore, ih h, List.length_cons]
        dsimp only
        omega
      · rw [if_neg hend, hstore, ih h, List.length_cons]
        dsimp only
        omega

/-- Inside a block the addresses count up, and nothing but the bytes before
changes. -/
theorem writeLoopStores_append {i : ℕ} {as bs : List UInt8} {st : Store area} {wPtr : ℕ}
    {off pos : ℤ} (hoff : off + as.length ≤ blockSize)
    (hholds : as ≠ [] → area.Holds wPtr as.length) :
    writeLoopStores i (as ++ bs) st wPtr off pos =
      (List.range as.length).map (fun j ↦
          (⟨{ st with space := writeBytes st.space wPtr (as.take j) }, wPtr + j, pos + j⟩ :
            ByteStore area)) ++
        writeLoopStores i bs { st with space := writeBytes st.space wPtr as } (wPtr + as.length)
          (off + as.length) (pos + as.length) := by
  induction as generalizing st wPtr off pos with
  | nil => simp
  | cons a as ih =>
      have hholds := hholds (List.cons_ne_nil a as)
      simp only [List.length_cons, blockSize] at hoff hholds
      have hne : off ≠ (blockSize : ℕ) := by
        simp only [blockSize]
        push_cast at hoff
        omega
      have hbyte : area.Holds wPtr [a].length := by
        simpa using hholds.mono (show 0 + 1 ≤ as.length + 1 by omega)
      have hrest : area.Holds (wPtr + 1) as.length := hholds.mono (by omega)
      have hpos : ∀ j : ℕ, pos + 1 + j = pos + (j + 1 : ℕ) := fun j ↦ by
        push_cast
        ring
      have hoff' : off + 1 + as.length = off + (as.length + 1 : ℕ) := by
        push_cast
        ring
      rw [List.cons_append, writeLoopStores, if_neg hne, Store.storeBytes_eq hbyte]
      dsimp only
      rw [ih (by simp only [blockSize]; push_cast at hoff ⊢; omega) (fun _ ↦ hrest)]
      simp only [List.length_cons, List.range_succ_eq_map, List.map_cons, List.map_map,
        List.cons_append, List.take_zero, List.take_succ_cons, writeBytes_cons, writeBytes_nil,
        Function.comp_def, hpos, hoff', Nat.add_assoc, Nat.add_comm 1, Nat.cast_zero, add_zero]

theorem replay_cons (m : ℕ → UInt8) (b : ByteStore area) (stores : List (ByteStore area))
    (c : UInt8) (input : List UInt8) :
    replay m (b :: stores) (c :: input) =
      replay (writeBytes m b.addr [c]) stores input := rfl

theorem replay_nil (m : ℕ → UInt8) (stores : List (ByteStore area)) :
    replay m stores [] = m := by
  rw [replay, List.zip_nil_right, List.foldl_nil]

theorem replay_append (m : ℕ → UInt8) (stores : List (ByteStore area)) (as bs : List UInt8)
    (h : stores.length = as.length) : replay m stores (as ++ bs) = replay m stores as := by
  rw [replay, replay, ← List.append_nil stores, List.zip_append h, List.zip_nil_left,
    List.append_nil, List.append_nil]

/-- Stores of all bytes to addresses that count up are one write. -/
theorem replay_range {m : ℕ → UInt8} {a : ℕ} {bs : List UInt8} {f : ℕ → ByteStore area}
    (haddr : ∀ j < bs.length, (f j).addr = a + j) :
    replay m ((List.range bs.length).map f) bs = writeBytes m a bs := by
  induction bs generalizing m a f with
  | nil => simp [replay]
  | cons b bs ih =>
      have hfirst : (f 0).addr = a := haddr 0 (Nat.succ_pos _)
      have hrest : ∀ j < bs.length, ((f ∘ Nat.succ) j).addr = a + 1 + j := fun j hj ↦ by
        rw [Function.comp_apply, haddr _ (Nat.succ_lt_succ hj)]
        omega
      rw [List.length_cons, List.range_succ_eq_map, List.map_cons, List.map_map, replay_cons,
        hfirst, ih hrest, writeBytes_cons m a b bs, writeBytes_cons, writeBytes_nil]

/-- The loop is over, or stands at the end of a block with no other one to be
had. -/
theorem writeLoop_stops {i : ℕ} {bs : List UInt8} {st : Store area} {wPtr : ℕ} {off pos : ℤ}
    {n : ℕ}
    (h : bs = [] ∨ (off = blockSize ∧ RefusesBlock st.superblock (st.inode i))) :
    writeLoopStores i bs st wPtr off pos = [] ∧
      writeLoop i bs st wPtr off pos n = some ⟨st, pos, n⟩ := by
  cases bs with
  | nil => exact ⟨rfl, rfl⟩
  | cons b bs =>
      obtain ⟨hend, hrefuse⟩ := h.resolve_left (List.cons_ne_nil b bs)
      rw [writeLoopStores, writeLoop, if_pos hend, if_pos hend, allocateBlock_of_refuses hrefuse]
      exact ⟨rfl, rfl⟩

/-! ## In one block -/

/-- The position lies in a mapped block, and storing `n` bytes there leaves the
pointers alone by which the block is found. -/
structure Store.RoomAt (st : Store area) (ino : MyInode) (p n : ℕ) : Prop where
  mapped : st.Mapped ino (p / 256)
  block : ∃ k < allocatableSpaceSize, st.logicalPtr ino (p / 256) = area.blockAddr k
  apart : ∀ range ∈ pointerReads st ino p,
    range.1 + range.2 ≤ st.byteAddr ino p ∨ st.byteAddr ino p + n ≤ range.1

/-- Stores inside a block that leave its pointers alone are in place. -/
theorem Store.RoomAt.inPlace {st : Store area} {i p : ℕ} {as : List UInt8}
    (h : st.RoomAt (st.inode i) p as.length) {j : ℕ} (hj : j < as.length)
    (hoff : p % 256 + as.length ≤ 256) :
    ByteStore.InPlace i
      (⟨{ st with space := writeBytes st.space (st.byteAddr (st.inode i) p) (as.take j) },
        st.byteAddr (st.inode i) p + j, p + j⟩ : ByteStore area) := by
  obtain ⟨k, hk, hptr⟩ := h.block
  have hlt := h.mapped.lt
  have hdiv : (p + j) / 256 = p / 256 := by omega
  refine ⟨p + j, k, by push_cast; rfl, by rw [hdiv]; exact hlt, hk, ?_, ?_⟩
  · rw [hdiv, ← hptr]
    refine logicalPtr_congr_reads fun range hrange x hx ↦ writeBytes_of_disjoint ?_
    have hapart := h.apart range hrange
    have hlength : (as.take j).length ≤ as.length := List.length_take_le' ..
    omega
  · change st.byteAddr (st.inode i) p + j = _
    rw [Store.byteAddr, hptr]
    omega

/-! ## In the direct blocks -/

/-- The loop stands in direct block `q` of the file, at the byte with the address
`wPtr`. -/
structure InDirectBlock (st : Store area) (i q : ℕ) (wPtr : ℕ) (off pos : ℤ) : Prop where
  direct : q < 8
  low : 0 ≤ off
  high : off ≤ 256
  position : pos = 256 * q + off
  block : ∃ k < allocatableSpaceSize, (st.inode i).location q = area.blockAddr k ∧
    wPtr = area.blockAddr k + off.toNat

namespace InDirectBlock

variable {st : Store area} {i q wPtr : ℕ} {off pos : ℤ}

theorem inPlace (h : InDirectBlock st i q wPtr off pos) (hoff : off < 256) :
    ByteStore.InPlace i (⟨st, wPtr, pos⟩ : ByteStore area) := by
  obtain ⟨k, hk, hptr, hwPtr⟩ := h.block
  have hdirect := h.direct
  have hlow := h.low
  have hpos := h.position
  have hdiv : (256 * q + off.toNat) / 256 = q := by omega
  refine ⟨256 * q + off.toNat, k, ?_, ?_, hk, ?_, ?_⟩
  · rw [hpos]
    push_cast
    omega
  · rw [hdiv]
    change q < 4168
    omega
  · rw [hdiv, Store.logicalPtr, if_pos hdirect, hptr]
  · change wPtr = _
    rw [hwPtr]
    omega

theorem store (h : InDirectBlock st i q wPtr off pos) (hoff : off < 256) (b : UInt8) :
    ∃ st', st.storeBytes wPtr [b] = some st' ∧ st'.inode = st.inode ∧
      st'.superblock = st.superblock ∧ st'.space = writeBytes st.space wPtr [b] ∧
      InDirectBlock st' i q (wPtr + 1) (off + 1) (pos + 1) := by
  obtain ⟨k, hk, hptr, hwPtr⟩ := h.block
  have hlow := h.low
  have hpos := h.position
  have hholds : area.Holds wPtr [b].length := by
    rw [hwPtr, List.length_singleton]
    exact Area.holds_blockAddr hk (show off.toNat + 1 ≤ 256 by omega)
  exact ⟨_, Store.storeBytes_eq hholds, rfl, rfl, rfl, h.direct, by omega, by omega, by omega, k, hk,
    hptr, by omega⟩

end InDirectBlock

theorem installDirect_space (st : Store area) (i : ℕ) :
    (st.installDirect i).space = st.space := rfl

theorem installDirect_spec {st : Store area} {i : ℕ} (hfit : CountersFit st)
    (hfree : 1 ≤ st.superblock.freeBlockNumber) :
    CountersFit (st.installDirect i) ∧
      (st.installDirect i).superblock.freeBlockNumber + 1 = st.superblock.freeBlockNumber ∧
      (st.installDirect i).inode i =
        { st.inode i with
          location := Function.update (st.inode i).location ((st.inode i).blockNumber + 1).toNat
            (area.blockAddr st.superblock.firstFreeBlock)
          blockNumber := (st.inode i).blockNumber + 1
          lastBlockOffset := 0 } := by
  have hlt := hfit.freeBlockNumber
  have hnumber : (st.installDirect i).superblock.freeBlockNumber + 1 =
      st.superblock.freeBlockNumber := by
    simp only [Store.installDirect, Store.setInode_superblock, Store.takeBlock, toUInt16]
    omega
  refine ⟨⟨?_, by omega⟩, hnumber, Store.setInode_inode ..⟩
  have hle := hfit.firstFreeBlock
  simp only [Store.installDirect, Store.setInode_superblock, Store.takeBlock]
  omega

/-- The loop fills the direct blocks in order if it starts in the last block of
the file, and stops in front of the ninth block at the latest; or it finds no
second block at all. -/
theorem writeLoop_inPlace {i q : ℕ} {bs : List UInt8} {st : Store area} {wPtr : ℕ} {off pos : ℤ}
    {n : ℕ} (hfit : CountersFit st) (h : InDirectBlock st i q wPtr off pos)
    (hlast : (st.inode i).blockNumber = q)
    (hends : pos + bs.length ≤ 2048 ∨ st.superblock.freeBlockNumber + q < 9) :
    (∀ b ∈ writeLoopStores i bs st wPtr off pos, b.InPlace i) ∧
      ∃ r, writeLoop i bs st wPtr off pos n = some r ∧
        (r.store.inode i).size = (st.inode i).size ∧
        r.store.space = replay st.space (writeLoopStores i bs st wPtr off pos) bs := by
  induction bs generalizing st wPtr off pos n q with
  | nil => exact ⟨fun b hb ↦ (List.not_mem_nil hb).elim, _, rfl, rfl, rfl⟩
  | cons b bs ih =>
      have hpos := h.position
      rw [List.length_cons] at hends
      push_cast at hends
      by_cases hend : off = blockSize
      · by_cases hrefuse : RefusesBlock st.superblock (st.inode i)
        · obtain ⟨hnone, hstop⟩ :=
            @writeLoop_stops _ i (b :: bs) st wPtr off pos n (.inr ⟨hend, hrefuse⟩)
          rw [hnone]
          exact ⟨fun s hs ↦ (List.not_mem_nil hs).elim, _, hstop, rfl, rfl⟩
        · -- the next block is a direct one and belongs behind this one
          rw [writeLoopStores, writeLoop, if_pos hend, if_pos hend]
          simp only [blockSize, Nat.cast_ofNat] at hend
          have hgranted := hrefuse
          simp only [RefusesBlock, maxFileSize, blockSize] at hgranted
          have hfree : 1 ≤ st.superblock.freeBlockNumber := by omega
          have hq := h.direct
          have hnext : q + 1 < 8 := by omega
          obtain ⟨hfit', hnumber, hrecord⟩ := installDirect_spec (i := i) hfit hfree
          have hindex : ((st.inode i).blockNumber + 1).toNat = q + 1 := by omega
          rw [hindex, hlast] at hrecord
          have hblock : InDirectBlock (st.installDirect i) i (q + 1)
              (area.blockAddr st.superblock.firstFreeBlock) 0 pos := by
            refine ⟨hnext, le_refl 0, by omega, ?_, _, hfit.lt, ?_, rfl⟩
            · push_cast
              omega
            · rw [hrecord]
              exact Function.update_self ..
          obtain ⟨st', hstore, hinode, hsuper, hspace, hblock'⟩ := hblock.store (by omega) b
          have hsize : (st'.inode i).size = (st.inode i).size := by
            rw [hinode, hrecord]
          obtain ⟨hstores, r, hr, hrest, hreplay⟩ := @ih (q + 1) st'
            (area.blockAddr st.superblock.firstFreeBlock + 1) 1 (pos + 1) (n + 1)
            (hfit'.storeBytes hstore) hblock'
            (by
              rw [hinode, hrecord]
              push_cast
              rfl)
            (by
              rw [hsuper]
              omega)
          rw [allocateBlock_direct hrefuse hfit.lt (by omega) (by omega)]
          dsimp only
          rw [if_neg (area.blockAddr_ne_zero _), hstore]
          refine ⟨fun s hs ↦ ?_, r, ?_, hrest.trans hsize, ?_⟩
          · rcases List.mem_cons.mp hs with rfl | hs
            · exact hblock.inPlace (by omega)
            · exact hstores s hs
          · simp only [Option.bind_eq_bind, Option.bind_some, area.blockAddr_ne_zero, if_false,
              hstore, hr]
          · rw [hreplay, hspace, installDirect_space, replay_cons]
      · rw [writeLoopStores, writeLoop, if_neg hend, if_neg hend]
        simp only [blockSize, Nat.cast_ofNat] at hend
        have hhigh := h.high
        obtain ⟨st', hstore, hinode, hsuper, hspace, hblock⟩ := h.store (by omega) b
        obtain ⟨hstores, r, hr, hrest, hreplay⟩ := @ih q st' (wPtr + 1) (off + 1) (pos + 1) (n + 1)
          (hfit.storeBytes hstore) hblock (by rwa [hinode]) (by
            rw [hsuper]
            omega)
        rw [hstore]
        refine ⟨fun s hs ↦ ?_, r, hr, ?_, ?_⟩
        · rcases List.mem_cons.mp hs with rfl | hs
          · exact h.inPlace (by omega)
          · exact hstores s hs
        · rw [hrest, hinode]
        · rw [hreplay, hspace, replay_cons]

end OperatingSystem.Filesys
