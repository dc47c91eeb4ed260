import OperatingSystem.Filesys.InvalidDescriptors
import OperatingSystem.Filesys.MappedBlocks

/-!
# Reading files

`rd_read` on an open file whose blocks are all mapped delivers a slice of the
contents, and touches no other block. It leaves the position of the descriptor
as it is, so a sequence of reads delivers slices that all start there.
-/

namespace OperatingSystem.Filesys

open ByteMemory

variable {area : Area}

/-! ## What a read touches -/

/-- The index entries, as addresses and lengths, that `get_blockpointer`
reads. -/
def pointerReads (st : Store area) (ino : MyInode) (position : ℤ) : List (ℕ × ℕ) :=
  let k := (position.tdiv blockSize).toNat
  if position < 0 ∨ k < 8 then []
  else if k < 72 then
    if ino.location 8 = 0 then [] else [(ino.location 8 + 4 * (k - 8), 4)]
  else if ino.location 9 = 0 then []
  else
    [(ino.location 9 + 4 * ((k - 72) / 64), 4),
      (st.entry (ino.location 9) ((k - 72) / 64) + 4 * ((k - 72) % 64), 4)]

/-- The ranges that the copy loop of `rd_read` reads. -/
def loopReads (st : Store area) (ino : MyInode) : ℕ → ℕ → ℤ → List (ℕ × ℕ)
  | 0, _, _ => []
  | _ + 1, 0, _ => []
  | fuel + 1, readBytes + 1, position =>
      pointerReads st ino position ++
        match getBlockpointer st position ino with
        | none => []
        | some readPointer =>
            if readPointer = 0 then []
            else
              let remain := blockSize - (position.tmod blockSize).toNat
              let iterationRead := min (readBytes + 1) remain
              (readPointer, iterationRead) ::
                loopReads st ino fuel (readBytes + 1 - iterationRead) (position + remain)

def fileReads (st : Store area) (ino : MyInode) (position numBytes : ℤ) : List (ℕ × ℕ) :=
  loopReads st ino (ino.readCount position numBytes).toNat (ino.readCount position numBytes).toNat
    (ino.readStart position)

/-- The range lies in a block of the file, or in an index block of one. -/
def Store.InFile (st : Store area) (ino : MyInode) (range : ℕ × ℕ) : Prop :=
  ∃ k < blockCount ino.size, ∃ ptr, ptr ≤ range.1 ∧ range.1 + range.2 ≤ ptr + 256 ∧
    (ptr = st.logicalPtr ino k ∨ (8 ≤ k ∧ k < 72 ∧ ptr = ino.location 8) ∨
      (72 ≤ k ∧ (ptr = ino.location 9 ∨ ptr = st.entry (ino.location 9) ((k - 72) / 64))))

/-- The bytes of a list of ranges are the same in the two stores. -/
def SameBytes (st st' : Store area) (ranges : List (ℕ × ℕ)) : Prop :=
  ∀ range ∈ ranges, ∀ k < range.2, st'.space (range.1 + k) = st.space (range.1 + k)

theorem SameBytes.loadWord {st st' : Store area} {ranges : List (ℕ × ℕ)} {addr n : ℕ}
    (h : SameBytes st st' ranges) (hmem : (addr, n) ∈ ranges) :
    st'.loadWord addr n = st.loadWord addr n := by
  simp only [Store.loadWord, readBytes_congr (h _ hmem)]

/-- The pointer of a position comes from the words that the lookup reads. -/
theorem logicalPtr_congr_reads {st st' : Store area} {ino : MyInode} {p : ℕ}
    (h : SameBytes st st' (pointerReads st ino p)) :
    st'.logicalPtr ino (p / 256) = st.logicalPtr ino (p / 256) := by
  have hdiv : ((p : ℤ).tdiv blockSize).toNat = p / 256 := by
    rw [← Int.ofNat_tdiv, Int.toNat_natCast]
    rfl
  have hentry : ∀ {index k : ℕ}, (index ≠ 0 → (index + 4 * k, 4) ∈ pointerReads st ino p) →
      st'.entry index k = st.entry index k := by
    intro index k hmem
    simp only [Store.entry]
    split
    · rfl
    · next hne => rw [readBytes_congr (h _ (hmem hne))]
  simp only [Store.logicalPtr]
  split
  · rfl
  · next hdirect =>
    split
    · next hsingle =>
      refine hentry fun hne ↦ ?_
      rw [pointerReads, hdiv, if_neg (by omega), if_pos hsingle, if_neg hne]
      exact List.mem_singleton_self _
    · next hsingle =>
      by_cases hne : ino.location 9 = 0
      · simp only [hne, entry_zero]
      · have hreads : pointerReads st ino p =
            [(ino.location 9 + 4 * ((p / 256 - 72) / 64), 4),
              (st.entry (ino.location 9) ((p / 256 - 72) / 64) + 4 * ((p / 256 - 72) % 64), 4)] := by
          rw [pointerReads, hdiv, if_neg (by omega), if_neg hsingle, if_neg hne]
        have hfirst : st'.entry (ino.location 9) ((p / 256 - 72) / 64) =
            st.entry (ino.location 9) ((p / 256 - 72) / 64) :=
          hentry fun _ ↦ hreads ▸ List.mem_cons_self
        rw [hfirst]
        exact hentry fun _ ↦ hreads ▸ List.mem_cons_of_mem _ List.mem_cons_self

theorem getBlockpointer_congr {st st' : Store area} {ino : MyInode} {position : ℤ}
    (h : SameBytes st st' (pointerReads st ino position)) :
    getBlockpointer st' position ino = getBlockpointer st position ino := by
  simp only [pointerReads] at h
  simp only [getBlockpointer]
  by_cases hneg : position < 0
  · simp only [hneg, if_true]
  · by_cases hdirect : position.tdiv blockSize < 8
    · simp only [hdirect, if_true]
    · rw [if_neg (by omega)] at h
      simp only [hneg, hdirect, if_false]
      by_cases hsingle : position.tdiv blockSize < 72
      · have hindex : (position.tdiv blockSize - 8).toNat = (position.tdiv blockSize).toNat - 8 := by
          omega
        rw [if_pos (by omega)] at h
        simp only [hsingle, if_true]
        by_cases hnull : ino.location 8 = 0
        · simp only [hnull, if_true]
        · rw [if_neg hnull] at h
          simp only [hnull, if_false, hindex]
          rw [h.loadWord List.mem_cons_self]
      · have hindex : (position.tdiv blockSize - 72).toNat =
            (position.tdiv blockSize).toNat - 72 := by
          omega
        rw [if_neg (by omega)] at h
        simp only [hsingle, if_false]
        by_cases hnull : ino.location 9 = 0
        · simp only [hnull, if_true]
        · rw [if_neg hnull] at h
          simp only [hnull, if_false, hindex]
          rw [h.loadWord List.mem_cons_self]
          rcases hload : st.loadWord (ino.location 9 +
              4 * (((position.tdiv blockSize).toNat - 72) / 64)) 4 with _ | single
          · rfl
          · have hentry : single =
                st.entry (ino.location 9) (((position.tdiv blockSize).toNat - 72) / 64) := by
              simp only [Store.loadWord, Option.ite_none_right_eq_some] at hload
              rw [Store.entry, if_neg hnull]
              exact (Option.some.inj hload.2).symm
            simp only [Option.bind_some, hentry]
            rw [h.loadWord (List.mem_cons_of_mem _ List.mem_cons_self)]

theorem readLoop_congr {st st' : Store area} {ino : MyInode} {num : ℤ} {fuel c : ℕ} {position : ℤ}
    {out : List UInt8} (h : SameBytes st st' (loopReads st ino fuel c position)) :
    readLoop st' ino num fuel c position out = readLoop st ino num fuel c position out := by
  induction fuel generalizing c position out with
  | zero => cases c <;> rfl
  | succ fuel ih =>
      cases c with
      | zero => rfl
      | succ c =>
          simp only [loopReads] at h
          have hptr : getBlockpointer st' position ino = getBlockpointer st position ino :=
            getBlockpointer_congr fun range hrange ↦ h range (List.mem_append_left _ hrange)
          simp only [readLoop, hptr]
          rcases hcases : getBlockpointer st position ino with _ | ptr
          · rfl
          · simp only [hcases] at h
            by_cases hnull : ptr = 0
            · simp [hnull]
            · rw [if_neg hnull] at h
              have hbytes : ∀ k < min (c + 1) (blockSize - (position.tmod blockSize).toNat),
                  st'.space (ptr + k) = st.space (ptr + k) :=
                h (ptr, _) (by simp)
              have hrest := fun out ↦ @ih _ _ out fun range hrange ↦
                h range (List.mem_append_right _ (List.mem_cons_of_mem _ hrange))
              simp only [Option.bind_eq_bind, Option.bind_some, hnull, if_false, hrest,
                readBytes_congr hbytes]

/-! ## Files without gaps -/

theorem div_lt_blockCount {p size : ℕ} (h : p < size) : p / 256 < blockCount size := by
  simp only [blockCount]
  omega

/-- All blocks of the file are mapped. -/
def Store.MappedFile (st : Store area) (ino : MyInode) : Prop :=
  ∀ k < blockCount ino.size, st.Mapped ino k

namespace Store.MappedFile

variable {st : Store area} {ino : MyInode}

theorem size_le (h : st.MappedFile ino) : ino.size ≤ maxFileSize := by
  by_contra hlong
  simp only [maxFileSize] at hlong
  have hlt := (h 4168 (by simp only [blockCount]; omega)).lt
  omega

theorem inFile_pointerReads (h : st.MappedFile ino) {p : ℕ} (hp : p < ino.size) :
    ∀ range ∈ pointerReads st ino p, st.InFile ino range := by
  have hblock := div_lt_blockCount hp
  have hlt := (h _ hblock).lt
  have hdiv : ((p : ℤ).tdiv blockSize).toNat = p / 256 := by
    rw [← Int.ofNat_tdiv, Int.toNat_natCast]
    rfl
  intro range hrange
  simp only [pointerReads, hdiv] at hrange
  split at hrange
  · cases hrange
  · split at hrange
    · split at hrange
      · cases hrange
      · obtain rfl := List.mem_singleton.mp hrange
        exact ⟨_, hblock, _, Nat.le_add_right .., by dsimp only; omega,
          .inr (.inl ⟨by omega, by omega, rfl⟩)⟩
    · split at hrange
      · cases hrange
      · rcases List.mem_cons.mp hrange with rfl | hrange
        · exact ⟨_, hblock, _, Nat.le_add_right .., by dsimp only; omega,
            .inr (.inr ⟨by omega, .inl rfl⟩)⟩
        · obtain rfl := List.mem_singleton.mp hrange
          exact ⟨_, hblock, _, Nat.le_add_right .., by dsimp only; omega,
            .inr (.inr ⟨by omega, .inr rfl⟩)⟩

theorem remain_eq (p : ℕ) : blockSize - ((p : ℤ).tmod blockSize).toNat = 256 - p % 256 := by
  rw [← Int.ofNat_tmod, Int.toNat_natCast]
  rfl

theorem inFile_loopReads (h : st.MappedFile ino) {fuel c p : ℕ}
    (hend : 0 < c → p + c ≤ ino.size) :
    ∀ range ∈ loopReads st ino fuel c p, st.InFile ino range := by
  induction fuel generalizing c p with
  | zero =>
      intro range hrange
      cases hrange
  | succ fuel ih =>
      cases c with
      | zero =>
          intro range hrange
          cases hrange
      | succ c =>
          have hpc := hend (by omega)
          have hblock := div_lt_blockCount (show p < ino.size by omega)
          have hmapped := h _ hblock
          have hnext : (p : ℤ) + (256 - p % 256 : ℕ) = ((p + (256 - p % 256) : ℕ) : ℤ) := by
            push_cast
            ring
          intro range hrange
          rw [loopReads, hmapped.getBlockpointer] at hrange
          rcases List.mem_append.mp hrange with hrange | hrange
          · exact h.inFile_pointerReads (by omega) range hrange
          · dsimp only at hrange
            split at hrange
            · cases hrange
            · rw [remain_eq, hnext] at hrange
              rcases List.mem_cons.mp hrange with rfl | hrange
              · exact ⟨_, hblock, _, Nat.le_add_right .., by dsimp only [byteAddr]; omega, .inl rfl⟩
              · exact ih (by omega) range hrange

theorem readLoop (h : st.MappedFile ino) {num : ℤ} {fuel c p : ℕ} {out : List UInt8}
    (hfuel : c ≤ fuel) (hend : 0 < c → p + c ≤ ino.size) :
    readLoop st ino num fuel c p out =
      some ⟨num, out ++ readBytes (st.fileMem ino) p c, some num⟩ := by
  induction fuel generalizing c p out with
  | zero =>
      obtain rfl : c = 0 := by omega
      simp [Filesys.readLoop, readBytes]
  | succ fuel ih =>
      cases c with
      | zero => simp [Filesys.readLoop, readBytes]
      | succ c =>
          have hpc := hend (by omega)
          have hmapped := h _ (div_lt_blockCount (show p < ino.size by omega))
          have hne : st.byteAddr ino p ≠ 0 := by
            have hpos := hmapped.block.ne_zero
            simp only [byteAddr]
            omega
          have hholds : area.Holds (st.byteAddr ino p) (min (c + 1) (256 - p % 256)) :=
            hmapped.block.mono (by omega)
          have hnext : (p : ℤ) + (256 - p % 256 : ℕ) = ((p + (256 - p % 256) : ℕ) : ℤ) := by
            push_cast
            ring
          rw [Filesys.readLoop, hmapped.getBlockpointer, Option.bind_eq_bind, Option.bind_some,
            if_neg hne]
          simp only [remain_eq]
          rw [if_pos hholds, hnext, ih (by omega) (by omega), ← readBytes_fileMem (by omega)]
          have hpieces : readBytes (st.fileMem ino) p (min (c + 1) (256 - p % 256)) ++
              readBytes (st.fileMem ino) (p + (256 - p % 256)) (c + 1 - min (c + 1) (256 - p % 256)) =
              readBytes (st.fileMem ino) p (c + 1) := by
            by_cases hle : c + 1 ≤ 256 - p % 256
            · rw [Nat.min_eq_left hle, Nat.sub_self]
              exact List.append_nil _
            · rw [Nat.min_eq_right (by omega), ← readBytes_add]
              congr 1
              omega
          rw [List.append_assoc, hpieces]

end Store.MappedFile

/-! ## One read -/

/-- Where a read at position `p` starts: behind the end of the file it starts
over. -/
def MyInode.startAt (ino : MyInode) (p : ℕ) : ℕ := if p < ino.size then p else 0

theorem readStart_eq {ino : MyInode} {p : ℕ} (hp : p < 2147483648) :
    ino.readStart p = ino.startAt p := by
  rw [MyInode.readStart, MyInode.startAt, toUInt32_of_lt (by omega)]
  by_cases hlt : p < ino.size
  · rw [if_neg (by omega), if_pos hlt]
  · rw [if_pos (by omega), if_neg hlt]
    rfl

theorem readCount_eq {ino : MyInode} {p m : ℕ} (hsize : ino.size < 2147483648)
    (hp : p < 2147483648) (hm : m < 2147483648) :
    ino.readCount p m = (min m (ino.size - ino.startAt p) : ℕ) := by
  have hle : ino.startAt p ≤ ino.size := by
    simp only [MyInode.startAt]
    split <;> omega
  rw [MyInode.readCount, readStart_eq hp, ← Nat.cast_sub hle, toUInt32_of_lt (by omega),
    toUInt32_of_lt (by omega), toInt_of_lt (by omega), Nat.min_comm]

/-- The descriptor of the process denotes a regular file that is not empty and
whose blocks are all mapped. -/
structure OpenMapped (s : State area) (cur : Process) (fd : ℤ) (fo : FileObject) : Prop where
  descriptor : (s.table cur).fileObject fd = some fo
  record : fo.inodeIndex < inodeListNum
  type : (s.store.inode fo.inodeIndex).type = .reg
  nonempty : 0 < (s.store.inode fo.inodeIndex).size
  mapped : s.store.MappedFile (s.store.inode fo.inodeIndex)

section Read

variable {s : State area} {cur : Process} {fd : ℤ} {fo : FileObject}

theorem OpenMapped.rdRead (h : OpenMapped s cur fd fo) {p m : ℕ} (hpos : fo.position = p)
    (hp : p < 2147483648) (hm : m < 2147483648) :
    let ino := s.store.inode fo.inodeIndex
    let c := min m (ino.size - ino.startAt p)
    rdRead cur fd m s = some (⟨c, ((s.store.contents ino).drop (ino.startAt p)).take c, some c⟩,
      (getFDT cur s).2) := by
  intro ino c
  have hsize : ino.size ≤ maxFileSize := h.mapped.size_le
  simp only [maxFileSize] at hsize
  have hpositive : 0 < ino.size := h.nonempty
  have hloc : ino.location 0 ≠ 0 := by
    have hfirst := (h.mapped 0 (blockCount_pos hpositive)).block.ne_zero
    simpa [Store.logicalPtr] using hfirst
  have hstart : ino.startAt p < ino.size := by
    simp only [MyInode.startAt]
    split <;> omega
  have hend : ino.startAt p + c ≤ ino.size := by
    change ino.startAt p + min m (ino.size - ino.startAt p) ≤ ino.size
    omega
  have hread : readFile s.store (s.store.inode fo.inodeIndex) p m =
      some ⟨c, ((s.store.contents ino).drop (ino.startAt p)).take c, some c⟩ := by
    have hcount : ino.readCount p m = (c : ℤ) := readCount_eq (by omega) hp hm
    have hloop : readLoop s.store ino c c c (ino.startAt p) [] = _ :=
      h.mapped.readLoop (le_refl c) (fun _ ↦ hend)
    rw [readFile_eq_readLoop _ _ (Nat.pos_iff_ne_zero.mp h.nonempty) hloc, hcount, readStart_eq hp,
      Int.toNat_natCast, contents_slice hend]
    exact hloop
  have hdescriptor : (getFDT cur s).1.fileObject fd = some fo := h.descriptor
  simp only [Filesys.rdRead, hdescriptor, getFDT_store, Store.inodeAt_eq h.record,
    Option.bind_eq_bind, Option.bind_some, hpos, hread]

end Read

/-- `rd_read` returns the right slice: the bytes from the position on, or from
the start if the position is not inside the file, as many as were asked for and
are left, with a NUL behind them, and it reads no block outside the file. -/
theorem rdRead_slice {s : State area} {cur : Process} {fd : ℤ} {fo : FileObject}
    (h : OpenMapped s cur fd fo) {p m : ℕ} (hpos : fo.position = p) (hp : p < 2147483648)
    (hm : m < 2147483648) :
    let ino := s.store.inode fo.inodeIndex
    let start := if p < ino.size then p else 0
    let c := min m (ino.size - start)
    ∃ r, rdRead cur fd m s = some (r, (getFDT cur s).2) ∧ r.ret = c ∧
      r.bytes = ((s.store.contents ino).drop start).take c ∧ r.bytes.length = c ∧
      r.nulAt = some (c : ℤ) ∧
      ∀ range ∈ fileReads s.store ino p m, s.store.InFile ino range := by
  intro ino start c
  have hsize : ino.size ≤ maxFileSize := h.mapped.size_le
  simp only [maxFileSize] at hsize
  refine ⟨_, h.rdRead hpos hp hm, rfl, rfl, ?_, rfl, ?_⟩
  · have hlength := length_contents s.store ino
    rw [List.length_take, List.length_drop, hlength]
    exact Nat.min_eq_left (Nat.min_le_right ..)
  · have hcount : ino.readCount p m = (c : ℤ) := readCount_eq (by omega) hp hm
    rw [fileReads, hcount, readStart_eq hp, Int.toNat_natCast]
    apply h.mapped.inFile_loopReads
    change 0 < c → start + c ≤ ino.size
    omega

/-! ## Sequences of reads -/

/-- One `rd_read` after the other on a descriptor, with the bytes that they
deliver. -/
def readSequence (cur : Process) (fd : ℤ) : List ℕ → State area → Option (List UInt8 × State area)
  | [], s => some ([], s)
  | n :: ns, s => do
      let (r, s) ← rdRead cur fd n s
      let (bytes, s) ← readSequence cur fd ns s
      some (r.bytes ++ bytes, s)

/-- The slices of the given lengths, one behind the other from `q` on, are
those of the same lengths at `p`. -/
def SlicesRepeat (bytes : List UInt8) (p : ℕ) : ℕ → List ℕ → Prop
  | _, [] => True
  | q, n :: ns =>
      (bytes.drop q).take n = (bytes.drop p).take n ∧ SlicesRepeat bytes p (q + n) ns

theorem append_slices_iff {bytes : List UInt8} {p q : ℕ} {ns : List ℕ}
    (hp : p + ns.sum ≤ bytes.length) (hq : q + ns.sum ≤ bytes.length) :
    ns.flatMap (fun n ↦ (bytes.drop p).take n) = (bytes.drop q).take ns.sum ↔
      SlicesRepeat bytes p q ns := by
  induction ns generalizing q with
  | nil => simp [SlicesRepeat]
  | cons n ns ih =>
      rw [List.sum_cons] at hp hq
      have hlength : ((bytes.drop p).take n).length = ((bytes.drop q).take n).length := by
        simp only [List.length_take, List.length_drop]
        omega
      rw [List.flatMap_cons, List.sum_cons, List.take_add, List.drop_drop, SlicesRepeat,
        ← ih (by omega) (by omega)]
      constructor
      · intro h
        obtain ⟨hfirst, hrest⟩ := List.append_inj h hlength
        exact ⟨hfirst.symm, hrest⟩
      · rintro ⟨hfirst, hrest⟩
        rw [hfirst, hrest]

theorem getFDT_getFDT (cur : Process) (s : State area) :
    getFDT cur (getFDT cur s).2 = ((getFDT cur s).1, (getFDT cur s).2) :=
  getFDT_of_find? (find?_getFDT cur s)

theorem OpenMapped.getFDT {s : State area} {cur : Process} {fd : ℤ} {fo : FileObject}
    (h : OpenMapped s cur fd fo) : OpenMapped (getFDT cur s).2 cur fd fo := by
  have htable : (Filesys.getFDT cur s).2.table cur = s.table cur := by
    rw [State.table, getFDT_getFDT, State.table]
  exact ⟨by rw [htable]; exact h.descriptor, h.record, by rw [getFDT_store]; exact h.type,
    by rw [getFDT_store]; exact h.nonempty, by rw [getFDT_store]; exact h.mapped⟩

theorem OpenMapped.rdRead_within {s : State area} {cur : Process} {fd : ℤ} {fo : FileObject}
    (h : OpenMapped s cur fd fo) {p n : ℕ} (hpos : fo.position = p)
    (hend : p + n ≤ (s.store.inode fo.inodeIndex).size) :
    ∃ r, Filesys.rdRead cur fd n s = some (r, (Filesys.getFDT cur s).2) ∧
      r.bytes = ((s.store.contents (s.store.inode fo.inodeIndex)).drop p).take n := by
  have hsize := h.mapped.size_le
  simp only [maxFileSize] at hsize
  refine ⟨_, h.rdRead hpos (by omega) (by omega), ?_⟩
  by_cases hlt : p < (s.store.inode fo.inodeIndex).size
  · rw [MyInode.startAt, if_pos hlt, Nat.min_eq_left (by omega)]
  · obtain rfl : n = 0 := by omega
    simp

/-- Every read of a sequence starts at the same position. -/
theorem OpenMapped.readSequence {s : State area} {cur : Process} {fd : ℤ} {fo : FileObject}
    (h : OpenMapped s cur fd fo) {p : ℕ} (hpos : fo.position = p) {ns : List ℕ}
    (hend : p + ns.sum ≤ (s.store.inode fo.inodeIndex).size) :
    ∃ s', readSequence cur fd ns s = some (ns.flatMap fun n ↦
      ((s.store.contents (s.store.inode fo.inodeIndex)).drop p).take n, s') := by
  induction ns generalizing s with
  | nil => exact ⟨s, rfl⟩
  | cons n ns ih =>
      rw [List.sum_cons] at hend
      obtain ⟨r, hread, hbytes⟩ := h.rdRead_within (n := n) hpos (by omega)
      obtain ⟨s', hrest⟩ := ih h.getFDT (by rw [getFDT_store]; omega)
      refine ⟨s', ?_⟩
      rw [getFDT_store] at hrest
      simp only [Filesys.readSequence, hread, hrest, hbytes, Option.bind_eq_bind, Option.bind_some,
        List.flatMap_cons]

theorem OpenMapped.rdLseek_zero {s : State area} {cur : Process} {fd : ℤ} {fo : FileObject}
    (h : OpenMapped s cur fd fo) :
    ∃ s', rdLseek cur fd 0 s = some (SUCCESS, s') ∧ s'.store = s.store ∧
      OpenMapped s' cur fd { fo with position := 0 } := by
  have hdescriptor : (Filesys.getFDT cur s).1.fileObject fd = some fo := h.descriptor
  have hsize := h.mapped.size_le
  simp only [maxFileSize] at hsize
  have hpos : ¬ toInt (s.store.inode fo.inodeIndex).size < 0 := by
    rw [toInt_of_lt (by omega)]
    omega
  refine ⟨(Filesys.getFDT cur s).2.setFDT ((Filesys.getFDT cur s).1.setPosition fd fo 0), ?_,
    getFDT_store cur s, ?_⟩
  · simp only [rdLseek, hdescriptor, getFDT_store, Store.inodeAt_eq h.record, Option.bind_eq_bind,
      Option.bind_some, hpos, if_false]
  · have htable : ((Filesys.getFDT cur s).2.setFDT
        ((Filesys.getFDT cur s).1.setPosition fd fo 0)).table cur =
        (Filesys.getFDT cur s).1.setPosition fd fo 0 := table_setFDT (getFDT_pid cur s)
    refine ⟨?_, h.record, ?_, ?_, ?_⟩
    · have hlt : fd.toNat < (Filesys.getFDT cur s).1.fileObjects.length := by
        simp only [FDT.fileObject] at hdescriptor
        split at hdescriptor
        · cases hdescriptor
        · exact (List.getElem?_eq_some_iff.mp hdescriptor).1
      have hne : fd ≠ 0 := by
        rintro rfl
        cases hdescriptor
      rw [htable, FDT.fileObject, if_neg hne, FDT.setPosition]
      exact List.getElem?_set_self hlt
    · rw [setFDT_store, getFDT_store]
      exact h.type
    · rw [setFDT_store, getFDT_store]
      exact h.nonempty
    · rw [setFDT_store, getFDT_store]
      exact h.mapped

/-- A sequence of reads delivers the bytes that one read of the same total
length delivers, and after `rd_lseek(fd, 0)` the bytes of the file in order,
exactly if all its slices repeat the bytes at the position. -/
theorem consecutive_reads_iff {s : State area} {cur : Process} {fd : ℤ} {fo : FileObject}
    (h : OpenMapped s cur fd fo) (ns : List ℕ) :
    let ino := s.store.inode fo.inodeIndex
    let bytes := s.store.contents ino
    (∀ p : ℕ, fo.position = p → p + ns.sum ≤ ino.size →
      ((readSequence cur fd ns s).map Prod.fst =
          (rdRead cur fd ns.sum s).map (fun r ↦ r.1.bytes) ↔ SlicesRepeat bytes p p ns)) ∧
      (ns.sum ≤ ino.size → ∃ s', rdLseek cur fd 0 s = some (SUCCESS, s') ∧
        ((readSequence cur fd ns s').map Prod.fst = some (bytes.take ns.sum) ↔
          SlicesRepeat bytes 0 0 ns)) := by
  intro ino bytes
  have hsize := h.mapped.size_le
  simp only [maxFileSize] at hsize
  have hlength : bytes.length = ino.size := length_contents s.store ino
  refine ⟨fun p hpos hend ↦ ?_, fun hend ↦ ?_⟩
  · obtain ⟨s', hsequence⟩ := h.readSequence hpos hend
    obtain ⟨r, hread, hbytes⟩ := h.rdRead_within (n := ns.sum) hpos hend
    rw [hsequence, hread, Option.map_some, Option.map_some, Option.some.injEq, hbytes,
      ← append_slices_iff (by omega) (by omega)]
  · obtain ⟨s', hseek, hstore, hopen⟩ := h.rdLseek_zero
    have hend' : 0 + ns.sum ≤ (s'.store.inode fo.inodeIndex).size := by
      rw [hstore, Nat.zero_add]
      exact hend
    obtain ⟨s'', hsequence⟩ := hopen.readSequence (p := 0) rfl hend'
    refine ⟨s', hseek, ?_⟩
    rw [hstore] at hsequence
    rw [hsequence, Option.map_some, Option.some.injEq,
      ← append_slices_iff (by omega) (by omega)]
    rfl

/-! ## A file of two bytes -/

def openFileCalls : List Event :=
  sampleCalls [.creat sampleName 1 fun _ ↦ 0, .openPath sampleName 1, .write 1 [97, 98]]

theorem exists_openFile : ∃ s, PartialRun.run step (initState sampleArea) openFileCalls = some s ∧
    OpenMapped s sampleProcess 1 ⟨1, 2⟩ ∧ s.store.contents (s.store.inode 1) = [97, 98] := by
  have hrun : (PartialRun.run step (initState sampleArea) openFileCalls).map (fun s ↦
      ((s.store.inode 1).type, (s.store.inode 1).size, (s.store.inode 1).location 0,
        (s.table sampleProcess).fileObject 1, s.store.contents (s.store.inode 1))) =
      some (.reg, 2, sampleArea.blockAddr 1, some ⟨1, 2⟩, [97, 98]) := by
    decide +kernel
  obtain ⟨s, hs, hfacts⟩ := Option.map_eq_some_iff.mp hrun
  simp only [Prod.mk.injEq] at hfacts
  obtain ⟨htype, hsize, hblock, hdescriptor, hbytes⟩ := hfacts
  refine ⟨s, hs, ⟨hdescriptor, by simp, htype, ?_, ?_⟩, hbytes⟩
  · change 0 < (s.store.inode 1).size
    omega
  · intro k hk
    have hzero : k = 0 := by
      change k < blockCount (s.store.inode 1).size at hk
      rw [hsize] at hk
      simp only [blockCount] at hk
      omega
    subst hzero
    refine ⟨by omega, ?_, fun hlow ↦ by omega, fun hlow ↦ by omega, fun hlow ↦ by omega⟩
    have hptr : s.store.logicalPtr (s.store.inode 1) 0 = sampleArea.blockAddr 1 := by
      simpa [Store.logicalPtr] using hblock
    change sampleArea.Holds (s.store.logicalPtr (s.store.inode 1) 0) 256
    rw [hptr]
    exact holds_block (by simp)

theorem rdRead_slice_wrapped : ∃ (s : State sampleArea) (r : ReadResult),
    OpenMapped s sampleProcess 1 ⟨1, 2⟩ ∧
      rdRead sampleProcess 1 (5 : ℕ) s = some (r, (getFDT sampleProcess s).2) ∧ r.ret = 2 := by
  obtain ⟨s, -, hopen, hbytes⟩ := exists_openFile
  obtain ⟨r, hread, hret, -⟩ := rdRead_slice hopen (p := 2) (m := 5) rfl (by omega) (by omega)
  have hsize : (s.store.inode 1).size = 2 := by
    rw [← length_contents, hbytes]
    rfl
  refine ⟨s, r, hopen, hread, ?_⟩
  rw [hret, hsize]
  rfl

theorem consecutive_reads_iff_twoBytes : ∃ s s' : State sampleArea,
    OpenMapped s sampleProcess 1 ⟨1, 2⟩ ∧ rdLseek sampleProcess 1 0 s = some (SUCCESS, s') ∧
      ((readSequence sampleProcess 1 [1, 1] s').map Prod.fst = some [97, 98] ↔
        SlicesRepeat [97, 98] 0 0 [1, 1]) := by
  obtain ⟨s, -, hopen, hbytes⟩ := exists_openFile
  have hsize : (s.store.inode 1).size = 2 := by
    rw [← length_contents, hbytes]
    rfl
  have hseek := (consecutive_reads_iff hopen [1, 1]).2
  rw [hbytes, hsize] at hseek
  obtain ⟨s', hseek, hiff⟩ := hseek (by simp)
  exact ⟨s, s', hopen, hseek, hiff⟩

/-- Two reads of one byte deliver the first byte of `ab` twice. -/
theorem second_read_starts_over : ∃ s s', PartialRun.run step (initState sampleArea)
      openFileCalls = some s ∧ rdLseek sampleProcess 1 0 s = some (SUCCESS, s') ∧
    OpenMapped s' sampleProcess 1 ⟨1, 0⟩ ∧
    (readSequence sampleProcess 1 [1, 1] s').map Prod.fst = some [97, 97] ∧
    (rdRead sampleProcess 1 2 s').map (fun r ↦ r.1.bytes) = some [97, 98] := by
  obtain ⟨s, hs, hopen, hbytes⟩ := exists_openFile
  have hsize : (s.store.inode 1).size = 2 := by
    rw [← length_contents, hbytes]
    rfl
  obtain ⟨s', hseek, hstore, hopen'⟩ := hopen.rdLseek_zero
  have hbound : ∀ n ≤ 2, 0 + n ≤ (s'.store.inode 1).size := by
    intro n hn
    rw [hstore, hsize]
    omega
  obtain ⟨s'', hsequence⟩ :=
    @OpenMapped.readSequence _ _ _ _ _ hopen' 0 rfl [1, 1] (hbound 2 (le_refl 2))
  obtain ⟨r, hread, hdelivered⟩ := hopen'.rdRead_within (p := 0) (n := 2) rfl (hbound 2 (le_refl 2))
  rw [hstore, hbytes] at hsequence hdelivered
  refine ⟨s, s', hs, hseek, hopen', ?_, ?_⟩
  · rw [hsequence]
    rfl
  · have hread : rdRead sampleProcess 1 2 s' = some (r, (getFDT sampleProcess s').2) := hread
    rw [hread, Option.map_some, hdelivered]
    rfl

end OperatingSystem.Filesys
