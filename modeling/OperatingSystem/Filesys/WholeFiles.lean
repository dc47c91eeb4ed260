import OperatingSystem.Filesys.GrowingFiles
import OperatingSystem.Filesys.Reading

/-!
# Files written by one call

One `write_file` on a fresh regular file, over any allocator that has enough
blocks: all bytes are stored whatever their number, and `rd_read` delivers them.
The invariant of the byte loop is a growing map whose file bytes are those
stored so far.
-/

namespace OperatingSystem.Filesys

open ByteMemory

variable {area : Area} {pick : Picker area}

theorem mapBlocks_mono {c d : ℕ} (h : c ≤ d) : mapBlocks c ≤ mapBlocks d := by
  induction h with
  | refl => exact le_refl _
  | step _ ih =>
      rw [mapBlocks_succ]
      omega

/-! ## Bytes in a growing map -/

theorem FilledMap.slotPtr_storeData {st : Store area} {ino : MyInode} {S : Set Slot}
    {given : Set ℕ} (h : FilledMap st ino S given) {σ : Slot} (hσ : σ ∈ S) (hdata : ¬ σ.IsIndex)
    {off : ℕ} {bytes : List UInt8} (hoff : off + bytes.length ≤ 256) (τ : Slot) :
    ({ st with space := writeBytes st.space (st.slotPtr ino σ + off) bytes } :
      Store area).slotPtr ino τ = st.slotPtr ino τ := by
  induction τ using slot_induction with
  | hloc k => rfl
  | hchild τ π e hτ ih =>
      rw [slotPtr_of_parent _ _ hτ, slotPtr_of_parent _ _ hτ, ih]
      by_cases hπ : π ∈ S
      · have hne : π ≠ σ := by
          rintro rfl
          exact hdata (parent_isIndex hτ)
        have hdisjoint := h.disjoint hπ hσ hne
        apply entry_congr (parent_lt hτ)
        intro x hx
        apply writeBytes_of_disjoint
        omega
      · rw [h.empty π hπ, entry_zero, entry_zero]

theorem FilledMap.ownMap {st : Store area} {ino : MyInode} {c : ℕ} {given : Set ℕ}
    (h : FilledMap st ino {σ | σ.Needed c} given) (hc : c ≤ 4168) : st.OwnMap ino c where
  le := hc
  block := fun σ hσ ↦ by
    obtain ⟨b, -, hb, hptr⟩ := h.block σ hσ
    exact ⟨b, hb, hptr⟩
  inj := fun σ τ hσ hτ heq ↦ h.inj σ hσ τ hτ heq

theorem Store.OwnMap.fileMem_store {st st' : Store area} {ino : MyInode} {c p : ℕ}
    (h : st.OwnMap ino c) (hp : p < 256 * c) {b : UInt8}
    (hspace : st'.space = writeBytes st.space (st.byteAddr ino p) [b]) {q : ℕ}
    (hq : q < 256 * c) : st'.fileMem ino q = if q = p then b else st.fileMem ino q := by
  have hframe : ∀ x, x ≠ st.byteAddr ino p → st'.space x = st.space x := by
    intro x hx
    rw [hspace]
    apply writeBytes_of_disjoint
    rw [List.length_singleton]
    omega
  have hsame : SameIndex st st' ino c := by
    refine h.sameIndex (show p / 256 < c by omega) fun x hx ↦ hframe x ?_
    rw [Store.byteAddr]
    omega
  rw [Store.fileMem, Store.byteAddr, h.logicalPtr_congr hsame (show q / 256 < c by omega)]
  by_cases hqp : q = p
  · subst hqp
    have hread := readBytes_writeBytes st.space (st.byteAddr ino q) [b]
    rw [if_pos rfl, hspace]
    exact List.head_eq_of_cons_eq hread
  · rw [if_neg hqp]
    apply hframe
    rw [Store.byteAddr]
    by_cases hblock : q / 256 = p / 256
    · rw [hblock]
      omega
    · have hdisjoint := h.logicalPtr_disjoint (show q / 256 < c by omega) (show p / 256 < c by omega)
        hblock
      omega

theorem byteAddr_eq (st : Store area) (ino : MyInode) {p k off : ℕ} (hp : p = 256 * k + off)
    (hoff : off < 256) : st.byteAddr ino p = st.logicalPtr ino k + off := by
  have hdiv : p / 256 = k := by omega
  have hmod : p % 256 = off := by omega
  rw [Store.byteAddr, hdiv, hmod]

/-- A regular file of `c` blocks in record `i` holds the bytes `done`, and the
picker has `m` more blocks. -/
structure Filling (pick : Picker area) (i c m : ℕ) (done : List UInt8) (st : Store area) :
    Prop where
  growing : ∃ given, Growing pick i {σ | σ.Needed c} given m st
  le : c ≤ 4168
  number : (st.inode i).blockNumber + 1 = c
  size : (st.inode i).size = 0
  type : (st.inode i).type = .reg
  fits : done.length ≤ 256 * c
  bytes : readBytes (st.fileMem (st.inode i)) 0 done.length = done

/-- The record of a regular file to which nothing was written. -/
structure FreshRegular (ino : MyInode) : Prop where
  type : ino.type = .reg
  size : ino.size = 0
  number : ino.blockNumber = -1
  null : ∀ k < 10, ino.location k = 0

theorem FreshRegular.filling {st : Store area} {i m : ℕ} (h : FreshRegular (st.inode i))
    (hsupply : Supplies pick m ∅ st) : Filling pick i 0 m [] st := by
  have hnone : ∀ σ : Slot, ¬ σ.Needed 0 := by
    intro σ
    cases σ <;> simp only [Slot.Needed] <;> omega
  have hempty : ∀ σ, st.slotPtr (st.inode i) σ = 0 := by
    intro σ
    induction σ using slot_induction with
    | hloc k => exact h.null k k.isLt
    | hchild σ π e hσ ih => rw [slotPtr_of_parent _ _ hσ, ih, entry_zero]
  refine ⟨⟨∅, ⟨?_, ?_, ?_, fun σ _ ↦ hempty σ⟩, hsupply⟩, by omega, ?_, h.size, h.type,
    Nat.zero_le _, rfl⟩
  · exact fun σ hσ ↦ (hnone σ hσ).elim
  · exact fun σ hσ ↦ (hnone σ hσ).elim
  · exact fun σ hσ ↦ (hnone σ hσ).elim
  · rw [h.number]
    rfl

namespace Filling

variable {i c m : ℕ} {done : List UInt8} {st : Store area}

theorem ownMap (h : Filling pick i c m done st) : st.OwnMap (st.inode i) c := by
  obtain ⟨given, hgrow⟩ := h.growing
  exact hgrow.filled.ownMap h.le

theorem nextBlock (h : Filling pick i c (stepBlocks c + m) done st) (hc : c < 4168) :
    ∃ st', allocateBlockWith pick st i = some (st'.logicalPtr (st'.inode i) c, st') ∧
      Filling pick i (c + 1) m done st' := by
  obtain ⟨given, hgrow⟩ := h.growing
  obtain ⟨given', st', hcall, hgrown, hkeep⟩ := hgrow.allocateBlock hc h.number
  obtain ⟨loc, hrecord⟩ := hkeep.record
  rw [Store.setInode_inode] at hrecord
  have hfile : ∀ q < 256 * c, st'.fileMem (st'.inode i) q = st.fileMem (st.inode i) q := by
    intro q hq
    have hslot : dataSlot (q / 256) ∈ {σ | Slot.Needed c σ} :=
      (needed_dataSlot (by omega)).mpr (by omega)
    have hptr := hkeep.ptr _ hslot
    have hbytes := hkeep.bytes _ hslot (not_isIndex_dataSlot _) (q % 256) (by omega)
    have hsame : (st.setInode i { st.inode i with blockNumber := c, lastBlockOffset := 0 }).slotPtr
        ((st.setInode i { st.inode i with blockNumber := c, lastBlockOffset := 0 }).inode i)
        (dataSlot (q / 256)) = st.slotPtr (st.inode i) (dataSlot (q / 256)) :=
      slotPtr_of_same rfl (by rw [Store.setInode_inode]) _
    rw [hsame] at hptr hbytes
    rw [slotPtr_dataSlot _ _ (by omega), slotPtr_dataSlot _ _ (by omega)] at hptr
    rw [slotPtr_dataSlot _ _ (by omega)] at hbytes
    rw [Store.fileMem, Store.fileMem, Store.byteAddr, Store.byteAddr, hptr]
    exact hbytes
  refine ⟨st', ?_, ⟨given', hgrown⟩, hc, ?_, ?_, ?_, ?_, ?_⟩
  · rw [hcall, slotPtr_dataSlot _ _ hc]
  · rw [hrecord]
    push_cast
    rfl
  · rw [hrecord]
    exact h.size
  · rw [hrecord]
    exact h.type
  · exact h.fits.trans (by omega)
  · rw [readBytes_congr, h.bytes]
    intro q hq
    have hfits := h.fits
    exact hfile _ (by omega)

theorem storeByte (h : Filling pick i c m done st) (hlow : 256 * c < done.length + 257)
    (hfits : done.length < 256 * c) (b : UInt8) :
    ∃ st', st.storeBytes (st.byteAddr (st.inode i) done.length) [b] = some st' ∧
      Filling pick i c m (done ++ [b]) st' ∧
      st'.logicalPtr (st'.inode i) (c - 1) = st.logicalPtr (st.inode i) (c - 1) := by
  have hle := h.le
  obtain ⟨given, hgrow⟩ := h.growing
  have hslot : dataSlot (done.length / 256) ∈ {σ | Slot.Needed c σ} :=
    (needed_dataSlot (by omega)).mpr (by omega)
  have hdata := not_isIndex_dataSlot (done.length / 256)
  have hoff : done.length % 256 + [b].length ≤ 256 := by
    rw [List.length_singleton]
    omega
  have haddr : st.slotPtr (st.inode i) (dataSlot (done.length / 256)) + done.length % 256 =
      st.byteAddr (st.inode i) done.length := by
    rw [slotPtr_dataSlot _ _ (by omega), Store.byteAddr]
  have hholds : area.Holds (st.byteAddr (st.inode i) done.length) [b].length := by
    rw [← haddr]
    exact (hgrow.filled.holds hslot).mono hoff
  have hptr := hgrow.filled.slotPtr_storeData hslot hdata hoff
  obtain ⟨p, hp, -, hblock⟩ := hgrow.filled.block _ hslot
  have houtside := @SameOutside.storeBytes _ _ st _ _ _ hp hoff
  rw [haddr] at hptr
  rw [← hblock, haddr] at houtside
  obtain ⟨st', hcall, hst'⟩ : ∃ st', st.storeBytes (st.byteAddr (st.inode i) done.length) [b] =
      some st' ∧ st' = { st with
        space := writeBytes st.space (st.byteAddr (st.inode i) done.length) [b] } :=
    ⟨_, Store.storeBytes_eq hholds, rfl⟩
  have hspace : st'.space = writeBytes st.space (st.byteAddr (st.inode i) done.length) [b] := by
    rw [hst']
  have hinode : st'.inode = st.inode := by
    rw [hst']
  rw [← hst'] at hptr houtside
  have hfile : ∀ q < 256 * c, st'.fileMem (st.inode i) q =
      if q = done.length then b else st.fileMem (st.inode i) q :=
    fun q hq ↦ h.ownMap.fileMem_store hfits hspace hq
  refine ⟨st', hcall, ⟨⟨given, ⟨?_, hgrow.supplies.congr houtside⟩⟩, hle, ?_, ?_, ?_, ?_, ?_⟩, ?_⟩
  · rw [hinode]
    exact hgrow.filled.of_ptr hptr
  · rw [hinode]
    exact h.number
  · rw [hinode]
    exact h.size
  · rw [hinode]
    exact h.type
  · rw [List.length_append, List.length_singleton]
    omega
  · have hold : readBytes (st'.fileMem (st.inode i)) 0 done.length = done := by
      rw [readBytes_congr, h.bytes]
      intro q hq
      rw [Nat.zero_add, hfile q (by omega), if_neg (by omega)]
    rw [hinode, List.length_append, List.length_singleton, readBytes_add, hold]
    refine congrArg _ ?_
    change [st'.fileMem (st.inode i) (0 + done.length + 0)] = [b]
    rw [Nat.add_zero, Nat.zero_add, hfile _ hfits, if_pos rfl]
  · rw [hinode, ← slotPtr_dataSlot _ _ (by omega), ← slotPtr_dataSlot _ _ (by omega)]
    exact hptr _

theorem writeLoopWith_full {st₁ st₂ : Store area} {ptr wPtr n : ℕ} {pos : ℤ} {b : UInt8}
    {bs : List UInt8} (hcall : allocateBlockWith pick st i = some (ptr, st₁)) (hne : ptr ≠ 0)
    (hstore : st₁.storeBytes ptr [b] = some st₂) :
    writeLoopWith pick i (b :: bs) st wPtr (256 : ℕ) pos n =
      writeLoopWith pick i bs st₂ (ptr + 1) (1 : ℕ) (pos + 1) (n + 1) := by
  simp only [writeLoopWith, blockSize, if_true, hcall, hne, if_false, hstore,
    Option.bind_eq_bind, Option.bind_some, Nat.cast_one]

theorem writeLoopWith_inside {st₁ : Store area} {wPtr off n : ℕ} {pos : ℤ} {b : UInt8}
    {bs : List UInt8} (hoff : off < 256) (hstore : st.storeBytes wPtr [b] = some st₁) :
    writeLoopWith pick i (b :: bs) st wPtr off pos n =
      writeLoopWith pick i bs st₁ (wPtr + 1) (off + 1 : ℕ) (pos + 1) (n + 1) := by
  have hinside : ¬ (off : ℤ) = (256 : ℕ) := by omega
  simp only [writeLoopWith, blockSize, hinside, if_false, hstore, Option.bind_eq_bind,
    Option.bind_some, Nat.cast_add, Nat.cast_one]

/-- The byte loop, with the write pointer at offset `off` of block `k`, the last
one. -/
theorem writeLoop {k off : ℕ} {bs : List UInt8} (h : Filling pick i (k + 1) m done st)
    (hoff : done.length = 256 * k + off)
    (hsupply : mapBlocks (blockCount (done.length + bs.length)) ≤ mapBlocks (k + 1) + m)
    (hmax : done.length + bs.length ≤ maxFileSize) (position : ℤ) (wSize : ℕ) :
    ∃ c' m' st', writeLoopWith pick i bs st (st.logicalPtr (st.inode i) k + off) off position
        wSize = some ⟨st', position + bs.length, wSize + bs.length⟩ ∧
      Filling pick i c' m' (done ++ bs) st' := by
  induction bs generalizing k off m done st position wSize with
  | nil =>
      refine ⟨k + 1, m, st, ?_, by rwa [List.append_nil]⟩
      rw [writeLoopWith, List.length_nil, Nat.cast_zero, Int.add_zero, Nat.add_zero]
  | cons b bs ih =>
      rw [List.length_cons] at hsupply hmax
      have hfits := h.fits
      have hlength : (done ++ [b]).length = done.length + 1 := by
        rw [List.length_append, List.length_singleton]
      have hgo : ∀ k' m' off' st', Filling pick i (k' + 1) m' (done ++ [b]) st' →
          done.length + 1 = 256 * k' + off' → mapBlocks (k' + 1) + m' = mapBlocks (k + 1) + m →
          ∃ c' m'' st'', writeLoopWith pick i bs st' (st'.logicalPtr (st'.inode i) k' + off') off'
              (position + 1) (wSize + 1) =
              some ⟨st'', position + (bs.length + 1 : ℕ), wSize + (bs.length + 1)⟩ ∧
            Filling pick i c' m'' (done ++ b :: bs) st'' := by
        intro k' m' off' st' hfilling hoff' hblocks
        obtain ⟨c', m'', st'', hloop, hdone⟩ := ih hfilling (hlength.trans hoff')
          (by rw [hlength, hblocks, Nat.add_assoc, Nat.add_comm 1]; exact hsupply)
          (by rw [hlength]; omega) (position + 1) (wSize + 1)
        refine ⟨c', m'', st'', ?_, by rwa [List.append_assoc] at hdone⟩
        rw [hloop]
        congr 2
        · push_cast
          ring
        · omega
      by_cases hend : off = 256
      · -- the block is full, the byte goes to the start of the next one
        subst hend
        simp only [maxFileSize] at hmax
        have hnext : mapBlocks (k + 1 + 1) ≤ mapBlocks (k + 1) + m :=
          (mapBlocks_mono (by simp only [blockCount]; omega)).trans hsupply
        rw [mapBlocks_succ] at hnext
        obtain ⟨m', rfl⟩ : ∃ m', m = stepBlocks (k + 1) + m' :=
          ⟨m - stepBlocks (k + 1), by omega⟩
        obtain ⟨st₁, hcall, hfilling₁⟩ := h.nextBlock (by omega)
        have haddr := byteAddr_eq st₁ (st₁.inode i) (show done.length = 256 * (k + 1) + 0 by omega)
          (by omega)
        obtain ⟨st₂, hstore, hfilling₂, hptr⟩ := hfilling₁.storeByte (by omega) (by omega) b
        have hne : st₁.logicalPtr (st₁.inode i) (k + 1) ≠ 0 :=
          (hfilling₁.ownMap.mapped (by omega)).block.ne_zero
        have hrest := hgo (k + 1) m' 1 st₂ hfilling₂ (by omega) (by rw [mapBlocks_succ]; omega)
        rw [haddr, Nat.add_zero] at hstore
        have hptr : st₂.logicalPtr (st₂.inode i) (k + 1) = st₁.logicalPtr (st₁.inode i) (k + 1) :=
          hptr
        rw [hptr] at hrest
        rw [writeLoopWith_full hcall hne hstore]
        exact hrest
      · obtain ⟨st₁, hstore, hfilling₁, hptr⟩ := h.storeByte (by omega) (by omega) b
        have hrest := hgo k m (off + 1) st₁ hfilling₁ (by omega) rfl
        have hptr : st₁.logicalPtr (st₁.inode i) k = st.logicalPtr (st.inode i) k := hptr
        rw [byteAddr_eq _ _ hoff (by omega)] at hstore
        rw [hptr] at hrest
        rw [writeLoopWith_inside (by omega) hstore]
        exact hrest

theorem writeFile (h : Filling pick i 0 m [] st) (hi : i < inodeListNum)
    (hnull : (st.inode i).location 0 = 0) {bytes : List UInt8} (hpos : 0 < bytes.length)
    (hmax : bytes.length ≤ maxFileSize) (hsupply : mapBlocks (blockCount bytes.length) ≤ m) :
    ∃ c' m' st', writeFileWith pick st i 0 bytes 'w' = some ((bytes.length : ℤ),
        (bytes.length : ℤ), st'.setInode i ((st'.inode i).grow bytes.length)) ∧
      Filling pick i c' m' bytes st' := by
  have hfirst : 1 ≤ m := (mapBlocks_mono (blockCount_pos hpos)).trans hsupply
  have hstep : stepBlocks 0 = 1 := rfl
  obtain ⟨m', rfl⟩ : ∃ m', m = stepBlocks 0 + m' := ⟨m - 1, by omega⟩
  obtain ⟨st₁, hcall, hfilling⟩ := h.nextBlock (by omega)
  have hmapped := hfilling.ownMap.mapped (show 0 < 0 + 1 by omega)
  have hne : st₁.logicalPtr (st₁.inode i) 0 ≠ 0 := hmapped.block.ne_zero
  have hswitch := hmapped.switchAddress (show 0 < 256 by omega)
  obtain ⟨c', m'', st₂, hloop, hdone⟩ := @writeLoop _ _ _ _ _ _ 0 0 bytes hfilling rfl
    (by rw [List.length_nil, Nat.zero_add, mapBlocks_succ]; omega)
    (by rwa [List.length_nil, Nat.zero_add]) 0 0
  have hregular : (st.inode i).type ≠ .dir := by
    rw [h.type]
    decide
  refine ⟨c', m'', st₂, ?_, hdone⟩
  have hptr : orAllocateWith pick st₁ i (st₁.logicalPtr (st₁.inode i) 0 + 0) =
      some (st₁.logicalPtr (st₁.inode i) 0 + 0, st₁) := if_neg hne
  have hswitch : switchAddress st₁ (st₁.inode i) ((0 : ℤ).tdiv blockSize)
      ((0 : ℤ).tmod blockSize) = some (st₁.logicalPtr (st₁.inode i) 0 + 0) := hswitch
  have hloop : writeLoopWith pick i bytes st₁ (st₁.logicalPtr (st₁.inode i) 0 + 0)
      ((0 : ℤ).tmod blockSize) 0 0 = _ := hloop
  have hblock : orAllocateWith pick st i ((st.inode i).location 0) =
      some (st₁.logicalPtr (st₁.inode i) 0, st₁) := by
    rw [orAllocateWith, if_pos hnull, hcall]
  simp only [writeFileWith, Store.inodeAt_eq hi, Option.bind_eq_bind, Option.bind_some, hregular,
    and_false, if_false, hblock, hne, hswitch, hptr, hloop, Int.zero_add, Nat.zero_add]

theorem grow (h : Filling pick i c m done st) :
    let st' := st.setInode i ((st.inode i).grow done.length)
    (st'.inode i).type = .reg ∧ (st'.inode i).size = done.length ∧
      st'.MappedFile (st'.inode i) ∧ st'.contents (st'.inode i) = done := by
  intro st'
  have hfits := h.fits
  have hle := h.le
  have hinode : st'.inode i = (st.inode i).grow done.length := Store.setInode_inode ..
  have hsize : (st'.inode i).size = done.length := by
    rw [hinode, MyInode.grow_size (by rw [h.size]; omega), h.size, Nat.zero_add]
  have hptr : ∀ k, st'.logicalPtr (st'.inode i) k = st.logicalPtr (st.inode i) k := by
    intro k
    rw [hinode]
    rfl
  have hown : st'.OwnMap (st'.inode i) c := by
    have hslots : ∀ σ, st'.slotPtr (st'.inode i) σ = st.slotPtr (st.inode i) σ :=
      slotPtr_of_same rfl (by rw [hinode]; rfl)
    refine ⟨hle, fun σ hσ ↦ ?_, fun σ τ hσ hτ heq ↦ ?_⟩
    · rw [hslots]
      exact h.ownMap.block σ hσ
    · rw [hslots, hslots] at heq
      exact h.ownMap.inj σ τ hσ hτ heq
  refine ⟨?_, hsize, fun k hk ↦ hown.mapped ?_, ?_⟩
  · rw [hinode]
    exact h.type
  · rw [hsize] at hk
    simp only [blockCount] at hk
    omega
  · rw [contents_eq, hsize]
    refine Eq.trans ?_ h.bytes
    apply readBytes_congr
    intro q _
    rw [Store.fileMem, Store.fileMem, Store.byteAddr, Store.byteAddr, hptr]
    rfl

end Filling

/-! ## Any file, any allocator -/

/-- One write covers the whole address range: on a fresh regular file it stores
all bytes, up to the largest size, and `rd_read` from the start delivers them,
whatever allocator the blocks come from. -/
theorem writeFile_whole {st : Store area} {i : ℕ} (hi : i < inodeListNum)
    (hfresh : FreshRegular (st.inode i)) {bytes : List UInt8} (hpos : 0 < bytes.length)
    (hmax : bytes.length ≤ maxFileSize)
    (hsupply : Supplies pick (mapBlocks (blockCount bytes.length)) ∅ st) :
    ∃ st', writeFileWith pick st i 0 bytes 'w' =
        some ((bytes.length : ℤ), (bytes.length : ℤ), st') ∧
      (st'.inode i).size = bytes.length ∧
      ∀ (s : State area) (cur : Process) (fd : ℤ), s.store = st' →
        (s.table cur).fileObject fd = some ⟨i, 0⟩ →
        ∃ r, rdRead cur fd bytes.length s = some (r, (getFDT cur s).2) ∧ r.ret = bytes.length ∧
          r.bytes = bytes := by
  obtain ⟨c, m, st₁, hcall, hfilling⟩ := (hfresh.filling hsupply).writeFile hi
    (hfresh.null 0 (by omega)) hpos hmax (le_refl _)
  obtain ⟨htype, hsize, hmapped, hcontents⟩ := hfilling.grow
  refine ⟨_, hcall, hsize, ?_⟩
  intro s cur fd hstore hdescriptor
  have hopen : OpenMapped s cur fd ⟨i, 0⟩ := by
    refine ⟨hdescriptor, hi, ?_, ?_, ?_⟩
    · rw [hstore]
      exact htype
    · rw [hstore]
      change 0 < (Store.inode _ i).size
      rw [hsize]
      exact hpos
    · rw [hstore]
      exact hmapped
  simp only [maxFileSize] at hmax
  have hread := @OpenMapped.rdRead _ _ _ _ _ hopen 0 bytes.length rfl (by omega) (by omega)
  have hino : s.store.inode (FileObject.inodeIndex ⟨i, 0⟩) =
      (st₁.setInode i ((st₁.inode i).grow bytes.length)).inode i := by
    rw [hstore]
  have hstart : (s.store.inode (FileObject.inodeIndex ⟨i, 0⟩)).startAt 0 = 0 := by
    rw [MyInode.startAt, ite_self]
  simp only [hstart, Nat.sub_zero, List.drop_zero] at hread
  rw [hino, hsize, hstore, hcontents, Nat.min_self, List.take_length] at hread
  exact ⟨_, hread, rfl, rfl⟩

def freshFile : MyInode := { zeroInode with type := .reg, blockNumber := -1 }

/-- The largest file, 4168 blocks and 66 index blocks. -/
theorem writeFile_whole_largest : ∃ (s : State sampleArea) (r : ReadResult),
    writeFileWith pickInOrder ((initDatastructure sampleArea).setInode 1 freshFile) 1 0
        (List.replicate maxFileSize 7) 'w' = some ((maxFileSize : ℤ), (maxFileSize : ℤ), s.store) ∧
      (s.store.inode 1).size = maxFileSize ∧
      rdRead sampleProcess 1 maxFileSize s = some (r, s) ∧
        r.bytes = List.replicate maxFileSize 7 := by
  have hfresh : FreshRegular
      (((initDatastructure sampleArea).setInode 1 freshFile).inode 1) := by
    rw [Store.setInode_inode]
    exact ⟨rfl, rfl, rfl, fun _ _ ↦ rfl⟩
  have hsupply : Supplies pickInOrder (mapBlocks (blockCount maxFileSize)) ∅
      ((initDatastructure sampleArea).setInode 1 freshFile) := by
    have hblocks : mapBlocks (blockCount maxFileSize) = 4234 := rfl
    rw [hblocks]
    refine supplies_pickInOrder ?_ ?_ ?_ ?_
    · change 4234 ≤ 7930
      omega
    · change 1 + 4234 ≤ 7931
      omega
    · exact fun b hb ↦ hb.elim
    · exact fun _ _ _ _ ↦ rfl
  generalize hbytes : List.replicate maxFileSize (7 : UInt8) = bytes
  have hlength : bytes.length = maxFileSize := by
    rw [← hbytes, List.length_replicate]
  rw [← hlength] at hsupply
  obtain ⟨st', hcall, hsize, hread⟩ := writeFile_whole (show 1 < inodeListNum by simp) hfresh
    (by rw [hlength, maxFileSize]; omega) hlength.le hsupply
  rw [hlength] at hcall hsize hread
  obtain ⟨r, hr, -, hdelivered⟩ := hread ⟨st', [⟨sampleProcess.pid, [⟨0, 0⟩, ⟨1, 0⟩], []⟩]⟩
    sampleProcess 1 rfl rfl
  exact ⟨_, r, hcall, hsize, hr, hdelivered⟩

end OperatingSystem.Filesys
