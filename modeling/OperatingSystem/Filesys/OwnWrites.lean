import OperatingSystem.Filesys.Descriptors
import OperatingSystem.Filesys.DirectoryRecords
import OperatingSystem.Filesys.StoredBytes

/-!
# Writes into the blocks of the file

In every state that the module reaches, a write through an open descriptor
stores all its bytes where the block map has their positions, and changes no other
byte of the data area, if its position is not negative and it either stays in a
mapped block or grows the file from its last block on. The other writes meet a
negative offset, a missing block at an offset, a new block in the wrong slot, an
untested `NULL`, or an index block that holds data as well.
-/

namespace OperatingSystem.Filesys

open ByteMemory

variable {area : Area}

/-! ## Which writes -/

/-- `write_file` takes `c` blocks for direct slots before its loop, and then the
block of position `p` is the last one of the file. -/
structure StartsLast (st : Store area) (ino : MyInode) (p c : ℕ) : Prop where
  direct : p / 256 < 8
  known : -1 ≤ ino.blockNumber
  number : ino.blockNumber + c = (p / 256 : ℕ)
  free : c ≤ st.superblock.freeBlockNumber
  requests : (c = 0 ∧ ino.location 0 ≠ 0 ∧ ino.location (p / 256) ≠ 0) ∨
    (c = 1 ∧ ino.location 0 ≠ 0 ∧ ino.location (p / 256) = 0 ∧ 256 ∣ p) ∨
    (c = 1 ∧ ino.location 0 = 0) ∨
    (c = 2 ∧ ino.location 0 = 0 ∧ ino.location (p / 256) = 0 ∧ 256 ∣ p)

/-- The writes of `n` bytes that go well: into a directory, which is refused; of
nothing; into one mapped block, or up to its end if no block is left; and from the
last block of the file on, in front of the ninth one. -/
inductive FitsInPlace (st : Store area) (ino : MyInode) (position : ℤ) (n : ℕ) : Prop where
  | directory (htype : ino.type = .dir)
  | nothing (hn : n = 0) (hlow : -256 < position) (hhigh : position < 2048)
      (h₀ : -1 ≤ ino.blockNumber) (h : ino.blockNumber < 6)
  | inBlock (p : ℕ) (hp : position = p) (hfirst : ino.location 0 ≠ 0)
      (hroom : st.RoomAt ino p (min n (256 - p % 256)))
      (hend : p % 256 + n ≤ 256 ∨
        (RefusesBlock st.superblock ino ∧ ino.size + n < 4294967296))
  | grows (p c : ℕ) (hp : position = p) (hstart : StartsLast st ino p c)
      (hends : p + n ≤ 2048 ∨ st.superblock.freeBlockNumber + p / 256 < c + 9)
      (hsize : p % 256 + n ≤ 256 ∨ ino.size + n < 4294967296)

/-! ## From the call to the loop -/

/-- The byte loop of a write at this position starts with the pointer `wPtr` on
the disk `st'`. -/
def LoopStart (st : Store area) (i : ℕ) (position : ℤ) (wPtr : ℕ) (st' : Store area) : Prop :=
  ∃ ptr st₁ p, orAllocate st i ((st.inode i).location 0) = some (ptr, st₁) ∧ ptr ≠ 0 ∧
    switchAddress st₁ (st₁.inode i) (position.tdiv blockSize) (position.tmod blockSize) =
      some p ∧
    orAllocate st₁ i p = some (wPtr, st')

namespace LoopStart

variable {st st' : Store area} {i wPtr : ℕ} {position : ℤ}

theorem writeFile (h : LoopStart st i position wPtr st') (hi : i < inodeListNum)
    (htype : (st.inode i).type ≠ .dir) (input : List UInt8) :
    writeFile st i position input 'w' =
      (writeLoop i input st' wPtr (position.tmod blockSize) position 0).map fun r ↦
        ((r.wSize : ℤ), r.position, r.store.setInode i ((r.store.inode i).grow r.wSize)) := by
  obtain ⟨ptr, st₁, p, hfirst, hne, hswitch, hblock⟩ := h
  simp only [Filesys.writeFile, Store.inodeAt_eq hi, Option.bind_eq_bind, Option.bind_some, htype,
    and_false, if_false, hfirst, hne, hswitch, hblock]
  rw [Option.map_eq_bind]
  rfl

theorem stores (h : LoopStart st i position wPtr st') (hi : i < inodeListNum)
    (htype : (st.inode i).type ≠ .dir) (input : List UInt8) :
    writeFileStores st i position input 'w' =
      writeLoopStores i input st' wPtr (position.tmod blockSize) position := by
  obtain ⟨ptr, st₁, p, hfirst, hne, hswitch, hblock⟩ := h
  simp only [writeFileStores, Store.inodeAt_eq hi, htype, and_false, if_false, hfirst, hne,
    hswitch, hblock]

theorem writesInPlace (h : LoopStart st i position wPtr st') (hi : i < inodeListNum)
    (htype : (st.inode i).type ≠ .dir) {input : List UInt8} {r : WriteResult area}
    (hstores : ∀ b ∈ writeLoopStores i input st' wPtr (position.tmod blockSize) position,
      b.InPlace i)
    (hloop : writeLoop i input st' wPtr (position.tmod blockSize) position 0 = some r)
    (hsize : (r.store.inode i).size = (st.inode i).size)
    (hspace : r.store.space = replay st.space
      (writeLoopStores i input st' wPtr (position.tmod blockSize) position) input)
    (hfits : r.wSize < input.length → (st.inode i).size + input.length < 4294967296) :
    WritesInPlace st i position input := by
  have hcount := writeLoop_wSize_eq hloop
  have hwrite := h.writeFile hi htype input
  rw [hloop, Option.map_some] at hwrite
  rw [Nat.zero_add, ← h.stores hi htype] at hcount
  refine ⟨by rwa [h.stores hi htype], _, _, _, hwrite, by rwa [h.stores hi htype],
    fun _ hfew ↦ ?_⟩
  rw [← hcount] at hfew ⊢
  refine ⟨rfl, ?_⟩
  have hbound := hfits hfew
  rw [Store.setInode_inode, MyInode.grow_size (by omega), hsize]

end LoopStart

/-! ## One block -/

theorem writesInPlace_of_roomAt {st : Store area} {i p : ℕ} {input : List UInt8}
    (hi : i < inodeListNum) (htype : (st.inode i).type ≠ .dir)
    (hfirst : (st.inode i).location 0 ≠ 0)
    (hroom : st.RoomAt (st.inode i) p (min input.length (256 - p % 256)))
    (hend : p % 256 + input.length ≤ 256 ∨ (RefusesBlock st.superblock (st.inode i) ∧
      (st.inode i).size + input.length < 4294967296)) :
    WritesInPlace st i p input := by
  have hblock := hroom.mapped.block
  have hholds : area.Holds (st.byteAddr (st.inode i) p) (256 - p % 256) := by
    refine hblock.mono ?_
    omega
  have hswitch := hroom.mapped.switchAddress (show p % 256 < 256 by omega)
  have hne : st.logicalPtr (st.inode i) (p / 256) + p % 256 ≠ 0 := by
    have hpos := hblock.ne_zero
    omega
  have hstart : LoopStart st i p (st.byteAddr (st.inode i) p) st := by
    refine ⟨_, st, _, if_neg hfirst, hfirst, ?_, if_neg hne⟩
    rw [tdiv_natCast_block, tmod_natCast_block]
    exact hswitch
  -- the bytes of this block and the others
  obtain ⟨as, bs, rfl, hlength, hrest⟩ : ∃ as bs, input = as ++ bs ∧
      as.length = min input.length (256 - p % 256) ∧ (bs ≠ [] → p % 256 + as.length = 256) := by
    refine ⟨input.take (256 - p % 256), input.drop (256 - p % 256), ?_, ?_, fun hbs ↦ ?_⟩
    · exact (List.take_append_drop ..).symm
    · rw [List.length_take, Nat.min_comm]
    · have hlt := List.length_pos_of_ne_nil hbs
      rw [List.length_drop] at hlt
      rw [List.length_take]
      omega
  rw [← hlength] at hroom
  have hoff : ((p % 256 : ℕ) : ℤ) + as.length ≤ blockSize := by
    rw [blockSize]
    omega
  have hbytes : as ≠ [] → area.Holds (st.byteAddr (st.inode i) p) as.length := fun _ ↦
    hholds.mono (show 0 + as.length ≤ 256 - p % 256 by omega)
  have hstores := @writeLoopStores_append _ i as bs st _ _ p hoff hbytes
  have hloop := @writeLoop_append _ i as bs st _ _ p 0 hoff hbytes
  have hplace : ∀ b ∈ (List.range as.length).map (fun j ↦
      (⟨{ st with space := writeBytes st.space (st.byteAddr (st.inode i) p) (as.take j) },
        st.byteAddr (st.inode i) p + j, p + j⟩ : ByteStore area)), b.InPlace i := by
    intro b hb
    obtain ⟨j, hj, rfl⟩ := List.mem_map.mp hb
    exact hroom.inPlace (List.mem_range.mp hj) (by omega)
  obtain ⟨hnone, hstop⟩ := @writeLoop_stops _ i bs
    { st with space := writeBytes st.space (st.byteAddr (st.inode i) p) as }
    (st.byteAddr (st.inode i) p + as.length) ((p % 256 : ℕ) + as.length) (p + as.length)
    (0 + as.length) (by
      by_cases hbs : bs = []
      · exact .inl hbs
      · have hfull := hrest hbs
        have hpos := List.length_pos_of_ne_nil hbs
        rw [List.length_append] at hend
        refine .inr ⟨?_, (hend.resolve_left (by omega)).1⟩
        rw [blockSize]
        omega)
  rw [hnone, List.append_nil, ← tmod_natCast_block] at hstores
  rw [hstop, ← tmod_natCast_block] at hloop
  refine hstart.writesInPlace hi htype ?_ hloop rfl ?_ fun hfew ↦ ?_
  · rw [hstores]
    exact hplace
  · rw [hstores, replay_append _ _ _ _ (by simp), replay_range fun j _ ↦ rfl]
  · dsimp only at hfew
    rw [List.length_append] at hfew hend hlength ⊢
    exact (hend.resolve_left (by omega)).2

/-! ## A growing file -/

/-- The block of a direct slot, if there is one. -/
def DirectBlocks (st : Store area) (i : ℕ) : Prop :=
  ∀ k < 8, (st.inode i).location k = 0 ∨
    ∃ b < allocatableSpaceSize, (st.inode i).location k = area.blockAddr b

theorem orAllocate_direct {st : Store area} {i : ℕ} (hfit : CountersFit st)
    (h₀ : -1 ≤ (st.inode i).blockNumber) (h : (st.inode i).blockNumber + 1 < 8)
    (hfree : 1 ≤ st.superblock.freeBlockNumber) :
    orAllocate st i 0 = some (area.blockAddr st.superblock.firstFreeBlock, st.installDirect i) := by
  have hrefuse : ¬ RefusesBlock st.superblock (st.inode i) := by
    simp only [RefusesBlock, maxFileSize, blockSize]
    omega
  rw [orAllocate, if_pos rfl]
  exact allocateBlock_direct hrefuse hfit.lt (by omega) h

theorem switchAddress_mapped {st : Store area} {ino : MyInode} {p b : ℕ} (hp : p / 256 < 8)
    (hb : b < allocatableSpaceSize) (hptr : ino.location (p / 256) = area.blockAddr b) :
    switchAddress st ino ((p : ℤ).tdiv blockSize) ((p : ℤ).tmod blockSize) =
      some (area.blockAddr b + p % 256) := by
  have hlt : ((p % 256 : ℕ) : ℤ) < blockSize := by
    rw [blockSize]
    omega
  rw [tdiv_natCast_block, tmod_natCast_block, switchAddress_direct _ _ _ hp, hptr,
    addOffset_blockAddr hb (by omega) hlt]
  rfl

theorem switchAddress_unmapped {st : Store area} {ino : MyInode} {p : ℕ} (hp : p / 256 < 8)
    (hptr : ino.location (p / 256) = 0) (hdvd : 256 ∣ p) :
    switchAddress st ino ((p : ℤ).tdiv blockSize) ((p : ℤ).tmod blockSize) = some 0 := by
  rw [tdiv_natCast_block, tmod_natCast_block, switchAddress_direct _ _ _ hp, hptr,
    Nat.mod_eq_zero_of_dvd hdvd]
  rfl

/-- What holds when the loop starts in the last block. -/
structure AtLastBlock (st : Store area) (i p c : ℕ) (wPtr : ℕ) (st' : Store area) : Prop where
  start : LoopStart st i p wPtr st'
  counters : CountersFit st'
  block : InDirectBlock st' i (p / 256) wPtr ((p : ℤ).tmod blockSize) p
  number : (st'.inode i).blockNumber = (p / 256 : ℕ)
  space : st'.space = st.space
  free : st'.superblock.freeBlockNumber + c = st.superblock.freeBlockNumber
  size : (st'.inode i).size = (st.inode i).size

theorem inDirectBlock_start {st : Store area} {i p b : ℕ} (hp : p / 256 < 8)
    (hb : b < allocatableSpaceSize) (hptr : (st.inode i).location (p / 256) = area.blockAddr b) :
    InDirectBlock st i (p / 256) (area.blockAddr b + p % 256) ((p : ℤ).tmod blockSize) p := by
  rw [tmod_natCast_block]
  exact ⟨hp, by omega, by omega, by push_cast; omega, b, hb, hptr, rfl⟩

theorem installDirect_location {st : Store area} {i q : ℕ} (hfit : CountersFit st)
    (hfree : 1 ≤ st.superblock.freeBlockNumber)
    (hnumber : (st.inode i).blockNumber + 1 = (q : ℕ)) :
    ((st.installDirect i).inode i).location = Function.update (st.inode i).location q
      (area.blockAddr st.superblock.firstFreeBlock) := by
  obtain ⟨-, -, hrecord⟩ := installDirect_spec (i := i) hfit hfree
  have hindex : ((st.inode i).blockNumber + 1).toNat = q := by omega
  rw [hrecord, hindex]

/-- The block that is taken last is the one of the position. -/
theorem AtLastBlock.of_installed {st st₁ : Store area} {i p c ptr : ℕ}
    (hfit : CountersFit st₁) (hp : p / 256 < 8)
    (hnumber : (st₁.inode i).blockNumber + 1 = (p / 256 : ℕ))
    (hfree : 1 ≤ st₁.superblock.freeBlockNumber)
    (hcount : st₁.superblock.freeBlockNumber + c = st.superblock.freeBlockNumber + 1)
    (hspace : st₁.space = st.space) (hsize : (st₁.inode i).size = (st.inode i).size)
    (hstart : LoopStart st i p ptr (st₁.installDirect i))
    (hptr : ptr = area.blockAddr st₁.superblock.firstFreeBlock + p % 256) :
    AtLastBlock st i p c ptr (st₁.installDirect i) := by
  obtain ⟨hfit', hfree', hrecord⟩ := installDirect_spec (i := i) hfit hfree
  have hslot : ((st₁.installDirect i).inode i).location (p / 256) =
      area.blockAddr st₁.superblock.firstFreeBlock := by
    rw [installDirect_location hfit hfree hnumber]
    exact Function.update_self ..
  refine ⟨hstart, hfit', hptr ▸ inDirectBlock_start hp hfit.lt hslot, ?_, hspace, by omega,
    ?_⟩
  · rw [hrecord]
    exact hnumber
  · rw [hrecord]
    exact hsize

theorem StartsLast.atLastBlock {st : Store area} {i p c : ℕ} (hfit : CountersFit st)
    (hblocks : DirectBlocks st i) (h : StartsLast st (st.inode i) p c) :
    ∃ wPtr st', AtLastBlock st i p c wPtr st' := by
  obtain ⟨hp, hknown, hnumber, hfree, hrequests⟩ := h
  rcases hrequests with ⟨rfl, hfirst, hmapped⟩ | ⟨rfl, hfirst, hnull, hdvd⟩ | ⟨rfl, hfirst⟩ |
    ⟨rfl, hfirst, hnull, hdvd⟩
  · -- the block is there
    obtain ⟨b, hb, hptr⟩ := (hblocks _ hp).resolve_left hmapped
    have hne : area.blockAddr b + p % 256 ≠ 0 := by
      have hpos := area.blockAddr_ne_zero b
      omega
    exact ⟨_, st, ⟨_, st, _, if_neg hfirst, hfirst, switchAddress_mapped hp hb hptr, if_neg hne⟩,
      hfit, inDirectBlock_start hp hb hptr, by omega, rfl, rfl, rfl⟩
  · -- the block is taken instead of a `NULL`
    have hblock := orAllocate_direct (i := i) hfit hknown (by omega) hfree
    refine ⟨_, _, AtLastBlock.of_installed hfit hp (by omega) hfree rfl rfl rfl
      ⟨_, st, 0, if_neg hfirst, hfirst, switchAddress_unmapped hp hnull hdvd, hblock⟩ ?_⟩
    rw [Nat.mod_eq_zero_of_dvd hdvd, Nat.add_zero]
  · -- the first block of the file is the one
    have hfirstBlock := orAllocate_direct (i := i) hfit hknown (by omega) hfree
    have hslot : ((st.installDirect i).inode i).location (p / 256) =
        area.blockAddr st.superblock.firstFreeBlock := by
      rw [installDirect_location hfit hfree hnumber]
      exact Function.update_self ..
    have hne : area.blockAddr st.superblock.firstFreeBlock + p % 256 ≠ 0 := by
      have hpos := area.blockAddr_ne_zero st.superblock.firstFreeBlock
      omega
    rw [← hfirst] at hfirstBlock
    exact ⟨_, _, AtLastBlock.of_installed hfit hp hnumber hfree rfl rfl rfl
      ⟨_, _, _, hfirstBlock, area.blockAddr_ne_zero _, switchAddress_mapped hp hfit.lt hslot,
        if_neg hne⟩ rfl⟩
  · -- the second block is, behind the first one
    have hfirstBlock := orAllocate_direct (i := i) hfit hknown (by omega) (by omega)
    obtain ⟨hfit', hfree', hrecord⟩ := installDirect_spec (i := i) hfit (by omega)
    have hnumber' : ((st.installDirect i).inode i).blockNumber + 1 = (p / 256 : ℕ) := by
      rw [hrecord]
      dsimp only
      omega
    have hslot : ((st.installDirect i).inode i).location (p / 256) = 0 := by
      have hne : p / 256 ≠ ((st.inode i).blockNumber + 1).toNat := by omega
      rw [hrecord]
      exact (Function.update_of_ne hne ..).trans hnull
    have hknown' : -1 ≤ ((st.installDirect i).inode i).blockNumber := by omega
    have hblock := orAllocate_direct hfit' hknown' (by omega) (by omega)
    rw [← hfirst] at hfirstBlock
    refine ⟨_, _, AtLastBlock.of_installed hfit' hp hnumber' (by omega) (by omega) rfl ?_
      ⟨_, _, 0, hfirstBlock, area.blockAddr_ne_zero _, switchAddress_unmapped hp hslot hdvd,
        hblock⟩ ?_⟩
    · rw [hrecord]
    · rw [Nat.mod_eq_zero_of_dvd hdvd, Nat.add_zero]

/-- A write from the last block of the file on. -/
theorem writesInPlace_of_startsLast {st : Store area} {i p c : ℕ} {input : List UInt8}
    (hi : i < inodeListNum) (htype : (st.inode i).type ≠ .dir) (hfit : CountersFit st)
    (hblocks : DirectBlocks st i) (hstart : StartsLast st (st.inode i) p c)
    (hends : p + input.length ≤ 2048 ∨ st.superblock.freeBlockNumber + p / 256 < c + 9)
    (hsize : p % 256 + input.length ≤ 256 ∨ (st.inode i).size + input.length < 4294967296) :
    WritesInPlace st i p input := by
  obtain ⟨wPtr, st', hlast⟩ := hstart.atLastBlock hfit hblocks
  have hfree := hlast.free
  obtain ⟨hstores, r, hr, hkept, hreplay⟩ := @writeLoop_inPlace _ i _ input st' wPtr _ p 0
    hlast.counters hlast.block hlast.number (by omega)
  rw [hlast.space] at hreplay
  refine hlast.start.writesInPlace hi htype hstores hr (hkept.trans hlast.size) hreplay
    fun hfew ↦ ?_
  refine hsize.resolve_left fun hone ↦ ?_
  -- inside one block the loop stores all bytes
  obtain ⟨b, hb, -, hwPtr⟩ := hlast.block.block
  rw [tmod_natCast_block] at hr hwPtr
  have hloop := @writeLoop_within _ i input st' wPtr _ p 0
    (show ((p % 256 : ℕ) : ℤ) + input.length ≤ (256 : ℕ) by omega)
    (fun _ ↦ hwPtr ▸ Area.holds_blockAddr hb
      (show ((p % 256 : ℕ) : ℤ).toNat + input.length ≤ 256 by omega))
  rw [hloop, Option.some.injEq] at hr
  rw [← hr] at hfew
  dsimp only at hfew
  omega

/-! ## Nothing to write -/

theorem orAllocate_defined {st : Store area} {i p : ℕ} (hfit : CountersFit st)
    (h₀ : -1 ≤ (st.inode i).blockNumber) (h : (st.inode i).blockNumber + 1 < 8) :
    ∃ ptr st', orAllocate st i p = some (ptr, st') ∧ CountersFit st' ∧ st'.space = st.space ∧
      -1 ≤ (st'.inode i).blockNumber ∧
      (st'.inode i).blockNumber ≤ (st.inode i).blockNumber + 1 := by
  by_cases hp : p = 0
  · subst hp
    by_cases hfree : 1 ≤ st.superblock.freeBlockNumber
    · obtain ⟨hfit', -, hrecord⟩ := installDirect_spec (i := i) hfit hfree
      refine ⟨_, _, orAllocate_direct hfit h₀ h hfree, hfit', installDirect_space .., ?_, ?_⟩
      · rw [hrecord]
        dsimp only
        omega
      · rw [hrecord]
    · have hrefuse : RefusesBlock st.superblock (st.inode i) := .inr (.inl (by omega))
      refine ⟨0, st, ?_, hfit, rfl, h₀, by omega⟩
      rw [orAllocate, if_pos rfl, allocateBlock_of_refuses hrefuse]
  · exact ⟨p, st, if_neg hp, hfit, rfl, h₀, by omega⟩

theorem writesInPlace_of_directory {st : Store area} {i : ℕ} (hi : i < inodeListNum)
    (htype : (st.inode i).type = .dir) (position : ℤ) (input : List UInt8) :
    WritesInPlace st i position input := by
  have hnone : writeFileStores st i position input 'w' = [] := by
    simp only [writeFileStores, Store.inodeAt_eq hi, htype, and_self, if_true]
  refine ⟨fun b hb ↦ ?_, ERROR, position, st, ?_, ?_, fun hreg ↦ (hreg htype).elim⟩
  · rw [hnone] at hb
    exact (List.not_mem_nil hb).elim
  · exact writeFile_refused position input hi (.inl ⟨rfl, htype⟩)
  · rw [hnone]
    rfl

theorem writesInPlace_nil {st : Store area} {i : ℕ} {position : ℤ} (hi : i < inodeListNum)
    (htype : (st.inode i).type ≠ .dir) (hfit : CountersFit st) (hlow : -256 < position)
    (hhigh : position < 2048) (h₀ : -1 ≤ (st.inode i).blockNumber)
    (h : (st.inode i).blockNumber < 6) : WritesInPlace st i position [] := by
  obtain ⟨ptr, st₁, hfirst, hfit₁, hspace₁, hknown₁, hnumber₁⟩ :=
    @orAllocate_defined _ st i ((st.inode i).location 0) hfit h₀ (by omega)
  by_cases hnull : ptr = 0
  · subst hnull
    refine ⟨fun b hb ↦ ?_, ERROR, position, st, ?_, (replay_nil ..).symm, fun _ hfew ↦
      (Nat.not_lt_zero _ hfew).elim⟩
    · simp only [writeFileStores, Store.inodeAt_eq hi, htype, and_false, if_false, hfirst,
        if_true] at hb
      exact (List.not_mem_nil hb).elim
    · simp only [writeFile, Store.inodeAt_eq hi, Option.bind_eq_bind, Option.bind_some, htype,
        and_false, if_false, hfirst, if_true]
      rw [orAllocate_null hfirst]
  · have hnum : 0 ≤ position.tdiv blockSize ∧ position.tdiv blockSize < 8 := by
      rw [blockSize]
      rcases lt_or_ge position 0 with hneg | hpos
      · obtain ⟨n, rfl⟩ : ∃ n, position = -n := ⟨-position, by omega⟩
        rw [Int.neg_tdiv, Int.tdiv_eq_zero_of_lt (by omega) (by omega)]
        omega
      · rw [Int.tdiv_eq_ediv_of_nonneg hpos]
        omega
    obtain ⟨num, hnum, hlt⟩ : ∃ num : ℕ, position.tdiv blockSize = num ∧ num < 8 :=
      ⟨(position.tdiv blockSize).toNat, by omega, by omega⟩
    obtain ⟨wPtr, st₂, hsecond, -, hspace₂, -⟩ := @orAllocate_defined _ st₁ i
      (addOffset ((st₁.inode i).location num) (position.tmod blockSize)) hfit₁ hknown₁ (by omega)
    have hstart : LoopStart st i position wPtr st₂ := by
      refine ⟨ptr, st₁, _, hfirst, hnull, ?_, hsecond⟩
      rw [hnum]
      exact switchAddress_direct _ _ _ hlt
    refine ⟨fun b hb ↦ ?_, _, _, _, hstart.writeFile hi htype [], ?_,
      fun _ hfew ↦ (Nat.not_lt_zero _ hfew).elim⟩
    · rw [hstart.stores hi htype] at hb
      exact (List.not_mem_nil hb).elim
    · rw [replay_nil, ← hspace₁, ← hspace₂]
      rfl

theorem writesInPlace_of_fits {st : Store area} {i : ℕ} {position : ℤ} {input : List UInt8}
    (hi : i < inodeListNum) (hfit : CountersFit st) (hblocks : DirectBlocks st i)
    (h : FitsInPlace st (st.inode i) position input.length) :
    WritesInPlace st i position input := by
  by_cases hdir : (st.inode i).type = .dir
  · exact writesInPlace_of_directory hi hdir position input
  · cases h with
    | directory htype => exact (hdir htype).elim
    | nothing hn hlow hhigh h₀ h =>
        rw [List.length_eq_zero_iff.mp hn]
        exact writesInPlace_nil hi hdir hfit hlow hhigh h₀ h
    | inBlock p hp hfirst hroom hend =>
        rw [hp]
        exact writesInPlace_of_roomAt hi hdir hfirst hroom hend
    | grows p c hp hstart hends hsize =>
        rw [hp]
        exact writesInPlace_of_startsLast hi hdir hfit hblocks hstart hends hsize

/-! ## No other writes inside one block -/

theorem roomAt_direct {st : Store area} {ino : MyInode} {p b n : ℕ} (hp : p / 256 < 8)
    (hb : b < allocatableSpaceSize) (hptr : ino.location (p / 256) = area.blockAddr b) :
    st.RoomAt ino p n := by
  have hlogical : st.logicalPtr ino (p / 256) = area.blockAddr b := by
    rw [Store.logicalPtr, if_pos hp, hptr]
  refine ⟨⟨by omega, hlogical ▸ holds_block hb, by omega, by omega, by omega⟩,
    ⟨b, hb, hlogical⟩, fun range hrange ↦ ?_⟩
  have hnum : ((p : ℤ).tdiv blockSize).toNat < 8 := by
    rw [tdiv_natCast_block]
    omega
  rw [pointerReads, if_pos (.inr hnum)] at hrange
  exact (List.not_mem_nil hrange).elim

theorem first_inPlace {st' : Store area} {i wPtr : ℕ} {position : ℤ} {input : List UInt8}
    (hpos : 0 < input.length)
    (h : ∀ b ∈ writeLoopStores i input st' wPtr (position.tmod blockSize) position,
      b.InPlace i) :
    ByteStore.InPlace i (⟨st', wPtr, position⟩ : ByteStore area) := by
  obtain ⟨b, bs, rfl⟩ := List.exists_cons_of_length_pos hpos
  have hlt := Int.tmod_lt_of_pos position (show (0 : ℤ) < blockSize by decide)
  rw [writeLoopStores, if_neg hlt.ne] at h
  exact h _ List.mem_cons_self

/-- Inside one direct block of a file that has its first block, only such writes
go well. -/
theorem fits_of_writesInPlace {st : Store area} {i : ℕ} {position : ℤ} {input : List UInt8}
    (hi : i < inodeListNum) (hblocks : DirectBlocks st i)
    (hfirst : (st.inode i).location 0 ≠ 0) (hpos : 0 < input.length) (hhigh : position < 2048)
    (hend : position.tmod blockSize + input.length ≤ blockSize)
    (h : WritesInPlace st i position input) :
    FitsInPlace st (st.inode i) position input.length := by
  by_cases hdir : (st.inode i).type = .dir
  · exact .directory hdir
  obtain ⟨ret, position', st', hwrite, -⟩ := h.result
  rcases writeFile_phases hwrite with
    ⟨hret, -, -⟩ | ⟨ptr, st₁, w, wPtr, st₂, r, h₁, hne, hswitch, h₂, -⟩
  · subst hret
    obtain ⟨-, -, -, hrefuse⟩ := writeFile_error hwrite
    rcases hrefuse with ⟨-, htype⟩ | ⟨hnull, -⟩
    · exact (hdir htype).elim
    · exact (hfirst hnull).elim
  · have hstart : LoopStart st i position wPtr st₂ := ⟨ptr, st₁, w, h₁, hne, hswitch, h₂⟩
    have hstores := h.inPlace
    rw [hstart.stores hi hdir] at hstores
    obtain ⟨p, k, hp, -, hk, hptr, haddr⟩ := first_inPlace hpos hstores
    obtain rfl : position = p := hp
    have hdirect : p / 256 < 8 := by omega
    rw [orAllocate, if_neg hfirst, Option.some.injEq, Prod.mk.injEq] at h₁
    obtain ⟨-, rfl⟩ := h₁
    rw [tdiv_natCast_block, switchAddress_direct _ _ _ hdirect, Option.some.injEq] at hswitch
    rw [tmod_natCast_block] at hend hswitch
    simp only [blockSize] at hend
    dsimp only at hptr haddr
    rw [Store.logicalPtr, if_pos hdirect] at hptr
    rcases hblocks _ hdirect with hnull | ⟨b, hb, hblock⟩
    · -- the pointer is `NULL`, and a block must be taken for this slot
      have hoffset : w = p % 256 := by
        rw [← hswitch, hnull, addOffset, Nat.cast_zero, zero_add]
        exact toUInt32_of_lt (by omega)
      have hnullPtr : w = 0 := by
        by_contra hne'
        rw [orAllocate, if_neg hne', Option.some.injEq, Prod.mk.injEq] at h₂
        obtain ⟨-, rfl⟩ := h₂
        exact area.blockAddr_ne_zero k (hptr.symm.trans hnull)
      have hblock : allocateBlock st i = some (wPtr, st₂) := by
        rwa [hnullPtr, orAllocate, if_pos rfl] at h₂
      have hgranted : ¬ RefusesBlock st.superblock (st.inode i) := by
        intro hrefuse
        rw [allocateBlock_of_refuses hrefuse] at hblock
        cases hblock
        exact area.blockAddr_ne_zero k (hptr.symm.trans hnull)
      have hslot := allocateBlock_location hblock hgranted hdirect
      rw [hptr] at hslot
      have hnumber : ((p / 256 : ℕ) : ℤ) = (st.inode i).blockNumber + 1 := by
        by_contra hother
        rw [if_neg hother, hnull] at hslot
        exact area.blockAddr_ne_zero k hslot
      simp only [RefusesBlock, maxFileSize, blockSize] at hgranted
      exact .grows p 1 rfl ⟨hdirect, by omega, by omega, by omega,
        .inr (.inl ⟨rfl, hfirst, hnull, by omega⟩)⟩ (.inl (by omega)) (.inl (by omega))
    · exact .inBlock p rfl hfirst (roomAt_direct hdirect hb hblock) (.inl (by omega))

/-! ## Open descriptors -/

/-- All file objects behind the current directory are of records of the table. -/
def InTable (fileObjects : List FileObject) : Prop :=
  ∀ k, 1 ≤ k → ∀ fo, fileObjects[k]? = some fo → fo.inodeIndex < inodeListNum

def OpenInTable (s : State area) : Prop := ∀ fdt ∈ s.fdtList, InTable fdt.fileObjects

namespace OpenInTable

variable {s s' : State area}

theorem inTable_new : InTable [⟨0, 0⟩] := by
  intro k hk fo hfo
  rw [List.getElem?_eq_none (show [(⟨0, 0⟩ : FileObject)].length ≤ k from hk)] at hfo
  cases hfo

theorem table (h : OpenInTable s) (cur : Process) : InTable (s.table cur).fileObjects :=
  table_of_forall (P := fun fileObjects _ ↦ InTable fileObjects) h inTable_new cur

theorem own_table {cur : Process} {call : Call} {r : Reply × State area} (h : OpenInTable s)
    (hr : ramdiskIoctl s ⟨cur, call⟩ = some r) : InTable (r.2.table cur).fileObjects := by
  have htable := h.table cur
  cases tableStep hr with
  | same hset => exact hset ▸ htable
  | openDirectory _ _ _ _ _ _ hset =>
      rw [hset]
      intro k hk fo hfo
      rw [List.getElem?_singleton] at hfo
      split at hfo
      · omega
      · cases hfo
  | openFile _ _ hi _ _ _ hset =>
      rw [hset]
      intro k hk fo hfo
      rw [List.getElem?_append] at hfo
      split at hfo
      · exact htable k hk fo hfo
      · obtain rfl := List.mem_singleton.mp (List.mem_of_getElem? hfo)
        exact hi
  | climb _ _ _ hset =>
      rw [hset]
      intro k hk fo hfo
      obtain ⟨k, rfl⟩ := Nat.exists_eq_succ_of_ne_zero (show k ≠ 0 by omega)
      refine htable (k + 1) hk fo ?_
      rw [← hfo]
      simp
  | close hpos hlt hset =>
      rw [hset]
      intro k hk fo hfo
      rw [List.getElem?_eraseIdx] at hfo
      split at hfo
      · exact htable k hk fo hfo
      · exact htable (k + 1) (by omega) fo hfo
  | @move _ fd fo' position _ hfo' hset =>
      rw [hset, FDT.setPosition]
      intro k hk fo hfo
      rw [List.getElem?_set] at hfo
      split at hfo
      · next hfd =>
        simp only [FDT.fileObject] at hfo'
        split at hfo'
        · cases hfo'
        · split at hfo
          · cases hfo
            exact htable k hk fo' (hfd ▸ hfo')
          · cases hfo
      · exact htable k hk fo hfo

theorem step {e : Event} (h : OpenInTable s) (hs : step s e = some s') : OpenInTable s' := by
  obtain ⟨r, hr, rfl⟩ := Option.map_eq_some_iff.mp hs
  intro fdt hmem
  rcases (ramdiskIoctl_fdtList hr).mem hmem with hold | rfl | rfl
  · exact h fdt hold
  · exact h.table e.cur
  · exact h.own_table hr

end OpenInTable

/-- In every reachable state, writes of this kind through an open descriptor store
only into the blocks of the file, in their places; and inside one direct block of
a file that has its first block, no others do. Whatever the position is, the write
changes the disk by the listed stores and its requests for blocks only. -/
theorem write_in_own_blocks {events : List Event} {s : State area}
    (hrun : PartialRun.run step (initState area) events = some s) {cur : Process} {fd : ℕ}
    {fo : FileObject} (hfd : 1 ≤ fd) (hfo : (s.table cur).fileObject fd = some fo)
    (input : List UInt8) :
    (FitsInPlace s.store (s.store.inode fo.inodeIndex) fo.position input.length →
        WritesInPlace s.store fo.inodeIndex fo.position input) ∧
      ((s.store.inode fo.inodeIndex).location 0 ≠ 0 → 0 < input.length → fo.position < 2048 →
        fo.position.tmod blockSize + input.length ≤ blockSize →
        WritesInPlace s.store fo.inodeIndex fo.position input →
        FitsInPlace s.store (s.store.inode fo.inodeIndex) fo.position input.length) ∧
      ∀ ret position' st',
        writeFile s.store fo.inodeIndex fo.position input 'w' = some (ret, position', st') →
        ∃ st₁, Performs fo.inodeIndex s.store
          ((writeFileStores s.store fo.inodeIndex fo.position input 'w').zip input) st₁ ∧
          st'.space = st₁.space := by
  have hdisk := soundDisk_of_run hrun
  have hopen : OpenInTable s := PartialRun.invariant_of_run (I := OpenInTable)
    (fun _ _ _ h hstep ↦ h.step hstep) (fun _ h ↦ (List.not_mem_nil h).elim) hrun
  have hi : fo.inodeIndex < inodeListNum := by
    rw [fileObject_of_pos _ hfd] at hfo
    exact hopen.table cur fd hfd fo hfo
  have hblocks : DirectBlocks s.store fo.inodeIndex := by
    intro k hk
    rcases hdisk.blocks.slot fo.inodeIndex k hk with hnull | hzero | hone
    · exact .inl hnull
    · exact .inr ⟨0, by simp, hzero⟩
    · exact .inr ⟨1, by simp, hone⟩
  exact ⟨fun h ↦ writesInPlace_of_fits hi hdisk.counters hblocks h,
    fun hfirst hpos hhigh hend h ↦ fits_of_writesInPlace hi hblocks hfirst hpos hhigh hend h,
    fun _ _ _ hwrite ↦ writeFile_performs hwrite⟩

/-- The first write into a new file. -/
theorem write_in_own_blocks_newFile : ∃ s, PartialRun.run step (initState sampleArea)
    (sampleCalls [.creat sampleName 1 fun _ ↦ 0, .openPath sampleName 1]) = some s ∧
      (s.table sampleProcess).fileObject 1 = some ⟨1, 0⟩ ∧
      WritesInPlace s.store 1 0 [97, 98] := by
  have hcreated : (PartialRun.run step (initState sampleArea)
      (sampleCalls [.creat sampleName 1 fun _ ↦ 0, .openPath sampleName 1])).map (fun s ↦
        ((s.table sampleProcess).fileObject 1, (s.store.inode 1).blockNumber,
          [(s.store.inode 1).location 0, s.store.superblock.freeBlockNumber])) =
      some (some ⟨1, 0⟩, -1, [0, 7930]) := by
    decide +kernel
  obtain ⟨s, hs, hfacts⟩ := Option.map_eq_some_iff.mp hcreated
  simp only [Prod.mk.injEq, List.cons.injEq] at hfacts
  obtain ⟨hfo, hnumber, hfirst, hfree, -⟩ := hfacts
  refine ⟨s, hs, hfo, (write_in_own_blocks hs (le_refl 1) hfo [97, 98]).1 ?_⟩
  refine .grows 0 1 rfl ⟨by omega, ?_, ?_, ?_, .inr (.inr (.inl ⟨rfl, hfirst⟩))⟩ ?_ ?_
  · dsimp only
    omega
  · dsimp only
    omega
  · omega
  · exact .inl (show 0 + 2 ≤ 2048 by omega)
  · exact .inl (show 0 % 256 + 2 ≤ 256 by omega)

/-- `rd_lseek` takes a negative position, and the next write goes to the byte in
front of the block, which is the last one of the root directory. -/
theorem write_in_front_of_block : ∃ s, PartialRun.run step (initState sampleArea)
    (sampleCalls [.creat sampleName 1 fun _ ↦ 0, .openPath sampleName 1, .lseek 1 (-1)]) =
      some s ∧
      (s.table sampleProcess).fileObject 1 = some ⟨1, -1⟩ ∧
      ¬ WritesInPlace s.store 1 (-1) [7] ∧
      (writeFile s.store 1 (-1) [7] 'w').map (fun r ↦
        r.2.2.space (sampleArea.blockAddr 0 + 255)) = some 7 := by
  have hmoved : (PartialRun.run step (initState sampleArea)
      (sampleCalls [.creat sampleName 1 fun _ ↦ 0, .openPath sampleName 1, .lseek 1 (-1)])).map
        (fun s ↦ ((s.table sampleProcess).fileObject 1,
          (writeFileStores s.store 1 (-1) [7] 'w').map (fun b ↦ (b.addr, b.position)),
          (writeFile s.store 1 (-1) [7] 'w').map fun r ↦
            r.2.2.space (sampleArea.blockAddr 0 + 255))) =
      some (some ⟨1, -1⟩, [(sampleArea.blockAddr 0 + 255, -1)], some 7) := by
    decide +kernel
  obtain ⟨s, hs, hfacts⟩ := Option.map_eq_some_iff.mp hmoved
  simp only [Prod.mk.injEq] at hfacts
  obtain ⟨hfo, hstores, hbyte⟩ := hfacts
  refine ⟨s, hs, hfo, fun h ↦ ?_, hbyte⟩
  obtain ⟨b, hb, heq⟩ := List.mem_map.mp (hstores ▸ List.mem_singleton_self _)
  obtain ⟨p, k, hp, -⟩ := h.inPlace b hb
  rw [Prod.mk.injEq] at heq
  omega

end OperatingSystem.Filesys
