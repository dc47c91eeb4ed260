import OperatingSystem.Filesys.AccessModes
import OperatingSystem.Filesys.DirectoryMap
import OperatingSystem.Filesys.DirectoryRecords
import OperatingSystem.Filesys.Reading

/-!
# Creates that are all or nothing

A create appends one entry to its parent directory and takes one inode, or
changes nothing. Whether it does is decided by the state before: the place of
the next entry has to be in the block map of the parent, apart from the places
of the entries before it. A full block map is extended at another slot.
-/

namespace OperatingSystem.Filesys

open ByteMemory

variable {area : Area}

/-! ## What a create should do -/

/-- The directory kept its bytes and got the given ones behind them. -/
structure Appended (st st' : Store area) (des : ℕ) (bytes : List UInt8) : Prop where
  size : (st'.inode des).size = (st.inode des).size + bytes.length
  kept : ∀ p < (st.inode des).size,
    st'.fileByte (st'.inode des) p = st.fileByte (st.inode des) p
  entry : ∀ p < bytes.length,
    st'.fileByte (st'.inode des) ((st.inode des).size + p) = bytes[p]?

/-- One entry was appended to the parent directory, and the first free inode is
its child. Records from 819 on lie in the bitmap or behind it. -/
structure EntryAdded (st st' : Store area) (des : ℕ) (name : List UInt8)
    (fresh : ℕ → UInt8) : Prop where
  directory : (st.inode des).type = .dir
  records : des < wholeInodeRecords ∧ st.superblock.firstFreeInode < wholeInodeRecords
  appended : Appended st st' des (entryBytes name st.superblock.firstFreeInode fresh)
  fresh : ¬ st.InUse st.superblock.firstFreeInode
  inUse : ∀ i, st'.InUse i ↔ st.InUse i ∨ i = st.superblock.firstFreeInode
  parentIndex : (st'.inode st.superblock.firstFreeInode).parentIndex = des
  freeInodeNumber : st'.superblock.freeInodeNumber + 1 = st.superblock.freeInodeNumber

/-- The call returns, and it did all of its work or none. -/
def CreateAtomic (cur : Process) (pathname : List UInt8) (mode : ℤ) (type : ObjectType)
    (fresh : ℕ → UInt8) (s : State area) : Prop :=
  ∃ ret s', create cur pathname mode type fresh s = some (ret, s') ∧
    ((ret = ERROR ∧ s'.store = s.store) ∨
      (ret = SUCCESS ∧ ∃ des name position,
        resolve s.store (getFDT cur s).1 pathname = some (some (des, name, position)) ∧
        EntryAdded s.store s'.store des name fresh))

/-! ## When it does -/

/-- Storing the bytes at an address extends the file, read through its block
map, by these bytes. -/
def Store.ExtendedBy (st : Store area) (ino : MyInode) (addr : ℕ) (bytes : List UInt8) : Prop :=
  (∀ p < ino.size, ({ st with space := writeBytes st.space addr bytes } : Store area).fileByte
      ino p = st.fileByte ino p) ∧
    ∀ p < bytes.length, ({ st with space := writeBytes st.space addr bytes } : Store area).fileByte
      ino (ino.size + p) = bytes[p]?

/-- The block behind the last entry has a slot of its own. -/
def MyInode.EndApart (ino : MyInode) : Prop :=
  ino.location (ino.size / blockSize) ≠ 0 ∧
    ∀ j < ino.size / blockSize, ino.location j ≠ ino.location (ino.size / blockSize)

/-- The directory has no block yet, or a block for the next entry: a direct one
that no slot before it shares, or one behind an index block, as far as the
entry does not hit the directory or its index blocks. -/
def Store.HasRoom (st : Store area) (ino : MyInode) (bytes : List UInt8) : Prop :=
  ino.location 0 = 0 ∨ (ino.size < 8 * blockSize ∧ ino.EndApart) ∨
    (8 * blockSize ≤ ino.size ∧ ino.size + 16 < 4294967296 ∧
      ∃ w, st.endPtr ino = some w ∧ w ≠ 0 ∧ area.Holds w 16 ∧ st.ExtendedBy ino w bytes)

/-- The 16 bytes from the address of the next entry on hold no byte of the directory, and
no word by which its bytes or that address are found. -/
structure Store.EndOutside (st : Store area) (ino : MyInode) : Prop where
  bytes : ∀ p < ino.size, st.byteAddr ino p < st.byteAddr ino ino.size ∨
    st.byteAddr ino ino.size + 16 ≤ st.byteAddr ino p
  words : ∀ p ≤ ino.size, ∀ range ∈ pointerReads st ino p,
    range.1 + range.2 ≤ st.byteAddr ino ino.size ∨ st.byteAddr ino ino.size + 16 ≤ range.1

/-- The create is refused by one of its checks, or its parent is a directory
that has room and the new record lies in the inode area. -/
def CreateFits (cur : Process) (pathname : List UInt8) (fresh : ℕ → UInt8) (s : State area) :
    Prop :=
  s.store.superblock.freeBlockNumber < 1 ∨ s.store.superblock.freeInodeNumber < 1 ∨
    match lookupNew s.store (getFDT cur s).1 pathname with
    | none => False
    | some none => True
    | some (some (des, name)) =>
        (des < inodeListNum ∧ RefusesWrite s.store (s.store.inode des) 'c') ∨
        ((s.store.inode des).type = .dir ∧ des < wholeInodeRecords ∧
          s.store.superblock.firstFreeInode < wholeInodeRecords ∧
          s.store.HasRoom (s.store.inode des)
            (entryBytes name s.store.superblock.firstFreeInode fresh))

/-! ## File bytes -/

theorem fileByte_direct (st : Store area) (ino : MyInode) {p : ℕ} (hp : p < 2048) :
    st.fileByte ino p = if ino.location (p / 256) = 0 then none
      else some (st.space (ino.location (p / 256) + p % 256)) := by
  have hk : p / 256 < 8 := by omega
  simp only [Store.fileByte, Store.logicalPtr, hk, if_true]

theorem fileByte_writeBytes (st : Store area) (ino : MyInode) (addr : ℕ) (bytes : List UInt8)
    {p : ℕ} (hp : p < 2048) :
    ({ st with space := writeBytes st.space addr bytes } : Store area).fileByte ino p =
      if ino.location (p / 256) = 0 then none
      else some (writeBytes st.space addr bytes (ino.location (p / 256) + p % 256)) :=
  fileByte_direct _ ino hp

theorem fileByte_congr {st st' : Store area} {ino ino' : MyInode} (hspace : st'.space = st.space)
    (hloc : ino'.location = ino.location) (p : ℕ) : st'.fileByte ino' p = st.fileByte ino p := by
  have hentry : ∀ index k, st'.entry index k = st.entry index k := by
    intro index k
    simp only [Store.entry, hspace]
  have hptr : st'.logicalPtr ino' (p / 256) = st.logicalPtr ino (p / 256) := by
    simp only [Store.logicalPtr, hentry, hloc]
  rw [Store.fileByte, Store.fileByte, hptr, hspace]

theorem stringAt_of_entry {m : ℕ → UInt8} {a : ℕ} {name : List UInt8} (i : ℕ)
    (fresh : ℕ → UInt8) (hnul : (0 : UInt8) ∉ name) (hlength : name.length ≤ 13)
    (h : ∀ p < 16, some (m (a + p)) = (entryBytes name i fresh)[p]?) : StringAt m a name := by
  have hlen := length_entryBytes hlength i fresh
  have hwritten : StringAt (writeBytes m a (entryBytes name i fresh)) a name := by
    rw [entryBytes, List.append_assoc]
    exact stringAt_writeBytes m a _ hnul
  apply hwritten.congr
  intro k hk
  have hbyte := h k (by omega)
  rw [writeBytes_add (by omega)]
  rw [List.getElem?_eq_getElem (by omega)] at hbyte
  exact (Option.some.inj hbyte).symm

/-! ## Names that were not found -/

theorem searchBlock_unfound {st : Store area} {filename : List UInt8} {entry count j times : ℕ}
    {d : ℤ} {r : SearchResult} (h : searchBlock st filename entry count j times d = some r)
    (hans : r.ans = ERROR) : r.times = times - count ∧
      ∀ e, j ≤ e → e < j + count → e - j < times →
        strcmpEq st (entry + 16 * e) filename = some false := by
  induction count generalizing j times d with
  | zero =>
      cases h
      exact ⟨rfl, fun e _ _ ↦ by omega⟩
  | succ count ih =>
      rw [searchBlock] at h
      split at h
      · next htimes =>
        cases h
        exact ⟨by dsimp only; omega, fun e _ _ _ ↦ by omega⟩
      · next htimes =>
        obtain ⟨found, hfound, h⟩ := Option.bind_eq_some_iff.mp h
        cases found with
        | true =>
            obtain ⟨inodeIndex, -, h⟩ := Option.bind_eq_some_iff.mp h
            cases h
            have herror : ERROR = -1 := rfl
            dsimp only at hans
            omega
        | false =>
            obtain ⟨hrest, hall⟩ := ih h
            refine ⟨by omega, ?_⟩
            intro e hje he hlt
            by_cases hej : e = j
            · rw [hej]
              exact hfound
            · exact hall e (by omega) (by omega) (by omega)

theorem search_unfound {st : Store area} {filename : List UInt8} {location : ℕ → Option ℕ}
    (ptr : ℕ → ℕ) (hptr : ∀ k, location k = some (ptr k)) {count i times : ℕ} {d : ℤ}
    {r : SearchResult} (h : search st filename location count i times d = some r)
    (hans : r.ans = ERROR) {k e : ℕ} (hik : i ≤ k) (hk : k < i + count) (he : e < 16)
    (htimes : 16 * (k - i) + e < times) (hmapped : ∀ j, i ≤ j → j ≤ k → ptr j ≠ 0) :
    strcmpEq st (ptr k + 16 * e) filename = some false := by
  induction count generalizing i times d with
  | zero => omega
  | succ count ih =>
      rw [search, if_neg (by omega), hptr, Option.bind_eq_bind, Option.bind_some,
        if_neg (hmapped i (le_refl i) hik)] at h
      obtain ⟨r', hr', h⟩ := Option.bind_eq_some_iff.mp h
      by_cases hans' : r'.ans = ERROR
      · obtain ⟨hrest, hall⟩ := searchBlock_unfound hr' hans'
        rw [if_neg (not_not.mpr hans')] at h
        by_cases hki : k = i
        · subst hki
          exact hall e (Nat.zero_le e) (by omega) (by omega)
        · exact ih h (by omega) (by omega) (by omega) fun j hj ↦ hmapped j (by omega)
      · rw [if_pos hans'] at h
        cases h
        exact (hans' hans).elim

/-- An entry of a name that `isExist` did not find is not among the entries that
the direct slots lead to. -/
theorem isExist_unfound {st : Store area} {name : List UInt8} {i : ℕ} {d : ℤ} {r : SearchResult}
    (h : isExist st name i d = some r) (hans : r.ans = ERROR) (hlength : name.length ≤ 13)
    (hnul : (0 : UInt8) ∉ name) (hsize : (st.inode i).size < 2147483648) {k e : ℕ} (hk : k < 8)
    (he : e < 16) (hlt : 16 * k + e < (st.inode i).size / 16)
    (hmapped : ∀ j ≤ k, (st.inode i).location j ≠ 0)
    (hholds : area.Holds ((st.inode i).location k + 16 * e) 16) :
    ¬ StringAt st.space ((st.inode i).location k + 16 * e) name := by
  have hlong : ¬ name.length > 13 := by omega
  rw [isExist, if_neg hlong] at h
  obtain ⟨ino, hino, h⟩ := Option.bind_eq_some_iff.mp h
  obtain ⟨-, rfl⟩ := Store.inodeAt_eq_some hino
  have hchild : (toInt (st.inode i).size).tdiv 16 = ((st.inode i).size / 16 : ℕ) := by
    rw [toInt_of_lt hsize, Int.tdiv_eq_ediv_of_nonneg (by omega)]
    rfl
  have hpos : ¬ ((st.inode i).size / 16 : ℕ) ≤ (0 : ℤ) := by omega
  simp only [hchild, hpos, if_false, Int.toNat_natCast] at h
  obtain ⟨r', hr', h⟩ := Option.bind_eq_some_iff.mp h
  have hans' : r'.ans = ERROR := by
    by_contra hne
    rw [if_pos hne] at h
    cases h
    exact hne hans
  have hcmp := search_unfound (st.inode i).location (fun _ ↦ rfl) hr' hans'
    (Nat.zero_le k) (by omega) he (by omega) fun j _ ↦ hmapped j
  intro hstring
  have hfits : area.Holds ((st.inode i).location k + 16 * e + 0) (name.length + 1) :=
    hholds.mono (by omega)
  rw [strcmpEq_spec hstring hfits hnul] at hcmp
  simp at hcmp

/-! ## Directories without index blocks -/

theorem TwoBlocks.block {st : Store area} (h : TwoBlocks st) {i k : ℕ} (hk : k < 8)
    (hne : (st.inode i).location k ≠ 0) : ∃ b < 2, (st.inode i).location k = area.blockAddr b := by
  rcases h.slot i k hk with hnull | hzero | hone
  · exact (hne hnull).elim
  · exact ⟨0, by omega, hzero⟩
  · exact ⟨1, by omega, hone⟩

theorem endPtr_direct (st : Store area) {ino : MyInode} (hsize : ino.size < 2048) :
    st.endPtr ino =
      some (addOffset (ino.location (ino.size / 256)) ((ino.size % 256 : ℕ) : ℤ)) := by
  have hdiv : (ino.size : ℤ).tdiv blockSize = (ino.size / 256 : ℕ) := by
    rw [Int.tdiv_eq_ediv_of_nonneg (by omega)]
    rfl
  have hmod : (ino.size : ℤ).tmod blockSize = (ino.size % 256 : ℕ) := by
    rw [Int.tmod_eq_emod_of_nonneg (by omega)]
    rfl
  rw [Store.endPtr, toInt_of_lt (by omega), hdiv, hmod]
  exact switchAddress_direct st ino _ (by omega)

section Direct

variable {st : Store area} {i : ℕ} {bytes : List UInt8}

/-- A block of its own takes the entry and keeps the others. -/
theorem extendedBy_of_endApart (h : TwoBlocks st) (hdvd : 16 ∣ (st.inode i).size)
    (hsize : (st.inode i).size < 2048) (hlen : bytes.length = 16)
    (hapart : (st.inode i).EndApart) : ∃ w, st.endPtr (st.inode i) = some w ∧ w ≠ 0 ∧
      area.Holds w 16 ∧ st.ExtendedBy (st.inode i) w bytes := by
  simp only [MyInode.EndApart, blockSize] at hapart
  obtain ⟨hne, hothers⟩ := hapart
  obtain ⟨b, hb, hblock⟩ := h.block (show (st.inode i).size / 256 < 8 by omega) hne
  have hb' : b < allocatableSpaceSize := by
    simp only [allocatableSpaceSize]
    omega
  have hptr := endPtr_direct st hsize
  rw [hblock, addOffset_blockAddr hb' (by omega) (by simp only [blockSize]; omega),
    Int.toNat_natCast] at hptr
  refine ⟨_, hptr, ?_, Area.holds_blockAddr hb' (by simp only [blockSize]; omega), ?_, ?_⟩
  · have haddr := area.blockAddr_ne_zero b
    omega
  · intro p hp
    rw [fileByte_writeBytes _ _ _ _ (by omega), fileByte_direct _ _ (by omega)]
    by_cases hnull : (st.inode i).location (p / 256) = 0
    · rw [if_pos hnull, if_pos hnull]
    · rw [if_neg hnull, if_neg hnull]
      obtain ⟨c, hc, hblock'⟩ := h.block (show p / 256 < 8 by omega) hnull
      rw [writeBytes_of_disjoint]
      rw [hblock', hlen]
      by_cases hlast : p / 256 = (st.inode i).size / 256
      · -- an earlier entry of the same block
        rw [hlast, hblock, Area.blockAddr_inj] at hblock'
        subst hblock'
        omega
      · have hcb : c ≠ b := by
          rintro rfl
          exact hothers (p / 256) (by omega) (hblock'.trans hblock.symm)
        simp only [Area.blockAddr, blockSize]
        omega
  · intro p hp
    have hdiv : ((st.inode i).size + p) / 256 = (st.inode i).size / 256 := by omega
    have hmod : ((st.inode i).size + p) % 256 = (st.inode i).size % 256 + p := by omega
    rw [fileByte_writeBytes _ _ _ _ (by omega), hdiv, hmod, hblock, if_neg (area.blockAddr_ne_zero b),
      ← Nat.add_assoc, writeBytes_add hp, List.getElem?_eq_getElem hp]

/-- If the entry was stored behind the others and they were kept, its block has
no second slot: the entry that it would have replaced was found before. -/
theorem endApart_of_extendedBy (h : TwoBlocks st) (hdir : DirectoryRecord (st.inode i))
    (hsize : (st.inode i).size < 2048) {name : List UInt8} {d : ℤ} {r : SearchResult} {j : ℕ}
    {fresh : ℕ → UInt8} (hfind : isExist st name i d = some r) (hans : r.ans = ERROR)
    (hlength : name.length ≤ 13) (hnul : (0 : UInt8) ∉ name)
    (hbytes : bytes = entryBytes name j fresh) {w : ℕ} (hw : st.endPtr (st.inode i) = some w)
    (hext : st.ExtendedBy (st.inode i) w bytes) : (st.inode i).EndApart := by
  have hlen : bytes.length = 16 := by
    rw [hbytes]
    exact length_entryBytes hlength j fresh
  have hdvd := hdir.aligned
  obtain ⟨hkept, hentry⟩ := hext
  have hne : (st.inode i).location ((st.inode i).size / 256) ≠ 0 := by
    intro hnull
    have hfirst := hentry 0 (by omega)
    rw [Nat.add_zero, fileByte_writeBytes _ _ _ _ hsize, if_pos hnull,
      List.getElem?_eq_getElem (by omega)] at hfirst
    cases hfirst
  refine ⟨hne, ?_⟩
  simp only [blockSize]
  intro k hk hsame
  obtain ⟨b, hb, hblock⟩ := h.block (show (st.inode i).size / 256 < 8 by omega) hne
  have hb' : b < allocatableSpaceSize := by
    simp only [allocatableSpaceSize]
    omega
  have hptr := endPtr_direct st hsize
  rw [hblock, addOffset_blockAddr hb' (by omega) (by simp only [blockSize]; omega),
    Int.toNat_natCast] at hptr
  cases hw.symm.trans hptr
  rw [hblock] at hsame
  -- entry `e` of block `k` lies where the new one was stored
  obtain ⟨e, he, heq⟩ : ∃ e < 16, (st.inode i).size % 256 = 16 * e :=
    ⟨(st.inode i).size % 256 / 16, by omega, by omega⟩
  apply isExist_unfound hfind hans hlength hnul (by omega) (show k < 8 by omega) he (by omega)
  · intro l hl
    exact hdir.mapped l (by omega) (by omega)
  · rw [hsame]
    exact Area.holds_blockAddr hb' (by simp only [blockSize]; omega)
  · apply stringAt_of_entry j fresh hnul hlength
    intro p hp
    have hold := hkept (256 * k + 16 * e + p) (by omega)
    have hdiv : (256 * k + 16 * e + p) / 256 = k := by omega
    have hmod : (256 * k + 16 * e + p) % 256 = 16 * e + p := by omega
    rw [fileByte_writeBytes _ _ _ _ (by omega), fileByte_direct _ _ (by omega), hdiv, hmod, hsame,
      if_neg (area.blockAddr_ne_zero b), if_neg (area.blockAddr_ne_zero b), heq, ← Nat.add_assoc,
      writeBytes_add (by omega)] at hold
    rw [hsame, ← hbytes, List.getElem?_eq_getElem (by omega)]
    exact hold.symm

end Direct

/-! ## Taking a further block -/

section FurtherBlock

variable {st st₁ : Store area} {i ptr j : ℕ} {name : List UInt8} {fresh : ℕ → UInt8} {d : ℤ}
  {r : SearchResult}

/-- Only a position before 2 GB can have no pointer: a larger size is a negative
position. -/
theorem size_lt_of_endPtr_null (h : TwoBlocks st) (hloc : (st.inode i).location 0 ≠ 0)
    (hlt : (st.inode i).size < 4294967296) (hend : st.endPtr (st.inode i) = some 0) :
    (st.inode i).size < 2147483648 := by
  by_contra hge
  obtain ⟨n, hpos, hn⟩ : ∃ n : ℕ, toInt (st.inode i).size = -n ∧ 0 < n :=
    ⟨4294967296 - (st.inode i).size, by rw [toInt, if_neg hge]; omega, by omega⟩
  rw [Store.endPtr, hpos, Int.neg_tdiv, Int.neg_tmod, ← Int.ofNat_tdiv, ← Int.ofNat_tmod] at hend
  simp only [blockSize] at hend
  by_cases hblock : n / 256 = 0
  · obtain ⟨b, hb, hslot⟩ := h.block (show 0 < 8 by omega) hloc
    have hb' : b < allocatableSpaceSize := by
      simp only [allocatableSpaceSize]
      omega
    rw [hblock] at hend
    have hptr := switchAddress_direct st (st.inode i) (-((n % 256 : ℕ) : ℤ)) (show 0 < 8 by omega)
    rw [hslot] at hptr
    exact addOffset_ne_zero hb' (by omega) (by omega) (Option.some.inj (hptr.symm.trans hend))
  · have hlow : -((n / 256 : ℕ) : ℤ) < 8 := by omega
    have hneg : ¬ (0 ≤ -((n / 256 : ℕ) : ℤ) ∧ -((n / 256 : ℕ) : ℤ) < 10) := by omega
    rw [switchAddress, if_pos hlow, MyInode.slot, if_neg hneg] at hend
    cases hend

/-- A block that was taken because the end of the directory has no pointer does
not become the block of the end, or it overwrites an earlier entry. -/
theorem not_appended_of_allocateBlock (h : SoundDisk st) (hdir : DirectoryRecord (st.inode i))
    (hloc : (st.inode i).location 0 ≠ 0) (hfind : isExist st name i d = some r)
    (hans : r.ans = ERROR) (hlength : name.length ≤ 13) (hnul : (0 : UInt8) ∉ name)
    (hend : st.endPtr (st.inode i) = some 0) (ha : allocateBlock st i = some (ptr, st₁))
    (hne : ptr ≠ 0) :
    ¬ Appended st (st₁.storeEntry i ptr (entryBytes name j fresh)) i
      (entryBytes name j fresh) := by
  intro happ
  have hlen := length_entryBytes hlength j fresh
  have hrefuse : ¬ RefusesBlock st.superblock (st.inode i) := by
    intro hrefuse
    rw [allocateBlock_of_refuses hrefuse] at ha
    cases ha
    exact hne rfl
  have hslot : ∀ k : ℕ, k < 8 → (k : ℤ) ≠ (st.inode i).blockNumber + 1 →
      ((st₁.storeEntry i ptr (entryBytes name j fresh)).inode i).location k =
        (st.inode i).location k := by
    intro k hk hkne
    have hsame := allocateBlock_location ha hrefuse hk
    rw [if_neg hkne] at hsame
    rw [storeEntry_inode]
    exact hsame
  by_cases hsize : (st.inode i).size < 2048
  · -- the block of the end still has no pointer
    have hptr := endPtr_direct st hsize
    have hnull : (st.inode i).location ((st.inode i).size / 256) = 0 := by
      by_contra hmapped
      obtain ⟨b, hb, hblock⟩ := h.blocks.block (by omega) hmapped
      rw [hblock, hend] at hptr
      have hb' : b < allocatableSpaceSize := by
        simp only [allocatableSpaceSize]
        omega
      exact addOffset_ne_zero hb' (by omega) (by omega) (Option.some.inj hptr).symm
    have hpos : 0 < (st.inode i).size := by
      by_contra hzero
      have hsize₀ : (st.inode i).size = 0 := by omega
      rw [hsize₀] at hnull
      exact hloc hnull
    have hbn := hdir.blockNumber hpos
    have hfirst := happ.entry 0 (by omega)
    rw [Nat.add_zero, fileByte_direct _ _ hsize, hslot _ (by omega) (by omega), if_pos hnull,
      List.getElem?_eq_getElem (by omega)] at hfirst
    cases hfirst
  · -- two slots before the end hold pointers, and one of them is block 0
    have hlt := size_lt_of_endPtr_null h.blocks hloc hdir.size_lt hend
    have hmapped : ∀ k < 8, (st.inode i).location k ≠ 0 := fun k hk ↦
      hdir.mapped k hk (by omega)
    obtain ⟨k, hk, hblock⟩ : ∃ k < 2, (st.inode i).location k = area.blockAddr 0 := by
      rcases h.blocks.slot i 0 (by omega) with hnull | hzero | hone
      · exact (hmapped 0 (by omega) hnull).elim
      · exact ⟨0, by omega, hzero⟩
      · rcases h.blocks.slot i 1 (by omega) with hnull | hzero | hone'
        · exact (hmapped 1 (by omega) hnull).elim
        · exact ⟨1, by omega, hzero⟩
        · have hsame := (h.blocks.unique i i 0 (by omega) 1 (by omega) hone hone').2
          omega
    have hfirst : st.superblock.firstFreeBlock = 0 := by
      have hle := h.counters.firstFreeBlock
      by_contra hne
      exact hmapped 1 (by omega)
        ((h.blocks.first (by omega) i 1 (by omega)).2 (by simp))
    obtain rfl : ptr = area.blockAddr 0 := (allocateBlock_answer hfirst ha).resolve_left hne
    have hbn := hdir.blockNumber (by omega)
    apply isExist_unfound hfind hans hlength hnul hlt (show k < 8 by omega)
      (show 0 < 16 by omega) (by omega)
    · intro l hl
      exact hmapped l (by omega)
    · rw [hblock]
      exact Area.holds_blockAddr (by simp) (by simp)
    · apply stringAt_of_entry j fresh hnul hlength
      intro p hp
      have hold := happ.kept (256 * k + p) (by omega)
      have hdiv : (256 * k + p) / 256 = k := by omega
      have hmod : (256 * k + p) % 256 = p := by omega
      rw [fileByte_direct _ _ (by omega), fileByte_direct _ _ (by omega), hdiv, hmod,
        hslot k (by omega) (by omega), hblock, if_neg (area.blockAddr_ne_zero 0),
        if_neg (area.blockAddr_ne_zero 0)] at hold
      have hnew : (st₁.storeEntry i (area.blockAddr 0) (entryBytes name j fresh)).space
          (area.blockAddr 0 + p) = (entryBytes name j fresh)[p] := writeBytes_add (by omega)
      rw [hblock, Nat.mul_zero, Nat.add_zero, ← hold, hnew, List.getElem?_eq_getElem (by omega)]

end FurtherBlock

/-! ## The entry and the inode -/

section Create

variable {st st₁ st' : Store area} {des i : ℕ} {bytes name : List UInt8} {fresh : ℕ → UInt8}

theorem appended_storeEntry_iff {w : ℕ} (hlen : bytes.length = 16)
    (hdir : DirectoryRecord (st.inode i)) :
    Appended st (st.storeEntry i w bytes) i bytes ↔
      (st.inode i).size + 16 < 4294967296 ∧ st.ExtendedBy (st.inode i) w bytes := by
  have hgrow := size_grow hdir.size_lt hdir.aligned
  have hbyte : ∀ p, (st.storeEntry i w bytes).fileByte ((st.storeEntry i w bytes).inode i) p =
      ({ st with space := writeBytes st.space w bytes } : Store area).fileByte (st.inode i) p := by
    intro p
    rw [storeEntry_inode]
    exact fileByte_congr rfl rfl p
  constructor
  · intro h
    have hsize := h.size
    rw [storeEntry_inode, hlen] at hsize
    refine ⟨by omega, ?_, ?_⟩
    · intro p hp
      rw [← hbyte]
      exact h.kept p hp
    · intro p hp
      rw [← hbyte]
      exact h.entry p hp
  · rintro ⟨hfits, hkept, hentry⟩
    refine ⟨?_, ?_, ?_⟩
    · rw [storeEntry_inode, hlen]
      omega
    · intro p hp
      rw [hbyte]
      exact hkept p hp
    · intro p hp
      rw [hbyte]
      exact hentry p hp

/-- The first block of a directory takes its first entry. -/
theorem appended_firstBlock (hlen : bytes.length = 16) (hdir : DirectoryRecord (st.inode i))
    (hloc : (st.inode i).location 0 = 0) :
    Appended st ((st.installDirect i).storeEntry i (area.blockAddr st.superblock.firstFreeBlock)
      bytes) i bytes := by
  obtain ⟨hsize, hbn⟩ := hdir.empty hloc
  refine ⟨?_, ?_, ?_⟩
  · rw [storeEntry_inode, hlen, Store.installDirect, Store.setInode_inode, MyInode.grow_size]
    simp only [hsize]
    omega
  · intro p hp
    omega
  · intro p hp
    have hdiv : (0 + p) / 256 = 0 := by omega
    have hslot : (((st.installDirect i).storeEntry i (area.blockAddr st.superblock.firstFreeBlock)
        bytes).inode i).location 0 = area.blockAddr st.superblock.firstFreeBlock := by
      rw [storeEntry_inode, Store.installDirect, Store.setInode_inode]
      simp [MyInode.grow, hbn]
    rw [hsize, fileByte_direct _ _ (by omega), hdiv, hslot, if_neg (area.blockAddr_ne_zero _)]
    have hmod : (0 + p) % 256 = p := by omega
    have hbyte : ((st.installDirect i).storeEntry i (area.blockAddr st.superblock.firstFreeBlock)
        bytes).space (area.blockAddr st.superblock.firstFreeBlock + p) = bytes[p] :=
      writeBytes_add hp
    rw [hmod, hbyte, List.getElem?_eq_getElem hp]

/-- A directory has room exactly if the next entry gets behind the others. -/
theorem hasRoom_iff (h : SoundDisk st) (hdir : DirectoryRecord (st.inode i))
    (hloc : (st.inode i).location 0 ≠ 0) {d : ℤ} {r : SearchResult} {j : ℕ}
    (hfind : isExist st name i d = some r) (hans : r.ans = ERROR) (hlength : name.length ≤ 13)
    (hnul : (0 : UInt8) ∉ name) : st.HasRoom (st.inode i) (entryBytes name j fresh) ↔
      (st.inode i).size + 16 < 4294967296 ∧ ∃ w, st.endPtr (st.inode i) = some w ∧ w ≠ 0 ∧
        area.Holds w 16 ∧ st.ExtendedBy (st.inode i) w (entryBytes name j fresh) := by
  have hlen := length_entryBytes hlength j fresh
  simp only [Store.HasRoom, hloc, false_or, blockSize]
  constructor
  · rintro (⟨hsize, hapart⟩ | ⟨-, hroom⟩)
    · exact ⟨by omega, extendedBy_of_endApart h.blocks hdir.aligned hsize hlen hapart⟩
    · exact hroom
  · rintro ⟨hfits, w, hend, hroom⟩
    by_cases hsize : (st.inode i).size < 2048
    · exact .inl ⟨hsize,
        endApart_of_extendedBy h.blocks hdir hsize hfind hans hlength hnul rfl hend hroom.2.2⟩
    · exact .inr ⟨by omega, hfits, w, hend, hroom⟩

/-- By its place: behind an index block there is room at a mapped address outside of the
directory and its index words. -/
theorem hasRoom_of_endOutside {ino : MyInode} (hsize : 2048 ≤ ino.size) (hdvd : 16 ∣ ino.size)
    (hlen : bytes.length = 16) (hmapped : st.Mapped ino (ino.size / 256))
    (h : st.EndOutside ino) : st.HasRoom ino bytes := by
  have hlt := hmapped.lt
  have haddr : st.byteAddr ino ino.size = st.logicalPtr ino (ino.size / 256) + ino.size % 256 := rfl
  have hend : st.endPtr ino = some (st.byteAddr ino ino.size) := by
    rw [Store.endPtr, toInt_of_lt (by omega), tdiv_natCast_block, tmod_natCast_block,
      hmapped.switchAddress (by omega), haddr]
  -- the words of the block map stay, up to the place of the entry
  have hptr : ∀ p ≤ ino.size,
      ({ st with space := writeBytes st.space (st.byteAddr ino ino.size) bytes } :
        Store area).logicalPtr ino (p / 256) = st.logicalPtr ino (p / 256) := by
    intro p hp
    refine logicalPtr_congr_reads fun range hrange k hk ↦ writeBytes_of_disjoint ?_
    rcases h.words p hp range hrange with hbefore | hbehind
    · exact .inl (by omega)
    · exact .inr (by omega)
  refine .inr (.inr ⟨hsize, by omega, _, hend, ?_, ?_, ?_, ?_⟩)
  · have hne := hmapped.block.ne_zero
    omega
  · exact haddr ▸ hmapped.block.mono (by omega)
  · intro p hp
    rw [Store.fileByte, Store.fileByte, hptr p (le_of_lt hp)]
    split
    · rfl
    · refine congrArg some (writeBytes_of_disjoint ?_)
      rw [hlen]
      exact h.bytes p hp
  · intro p hp
    have hdiv : (ino.size + p) / 256 = ino.size / 256 := by omega
    have hmod : (ino.size + p) % 256 = ino.size % 256 + p := by omega
    rw [Store.fileByte, hdiv, hptr _ le_rfl, if_neg hmapped.block.ne_zero, hmod, ← Nat.add_assoc,
      ← haddr, List.getElem?_eq_getElem hp]
    exact congrArg some (writeBytes_add hp)

/-- After the inode was taken, what is left to ask of a create is its entry. -/
theorem entryAdded_iff {mode : ℤ} {type : ObjectType} {ret pos : ℤ} (h : SoundDisk st)
    (hpos : ¬ st.superblock.freeInodeNumber < 1) (htype : (st.inode des).type = .dir)
    (hw : writeFile st des (toInt (st.inode des).size)
      (entryBytes name st.superblock.firstFreeInode fresh) 'c' = some (ret, pos, st₁))
    (hdes : des < inodeListNum) (ha : allocateInode st₁ des mode type = some st') :
    EntryAdded st st' des name fresh ↔
      (des < wholeInodeRecords ∧ st.superblock.firstFreeInode < wholeInodeRecords) ∧
        Appended st st₁ des (entryBytes name st.superblock.firstFreeInode fresh) := by
  obtain ⟨hothers, -, hfirst⟩ := writeFile_record hw
  obtain ⟨hlt, hinode, -, hspace, hsuper⟩ := allocateInode_eq_some ha
  rw [hfirst] at hlt hinode
  have hfree := h.firstFreeInode hlt
  have hne : des ≠ st.superblock.firstFreeInode := by
    rintro heq
    exact (h.directories des htype).operation (heq ▸ hfree)
  have hparent : st'.inode des = st₁.inode des := by
    rw [hinode, Function.update_of_ne hne]
  have happ : Appended st st' des (entryBytes name st.superblock.firstFreeInode fresh) ↔
      Appended st st₁ des (entryBytes name st.superblock.firstFreeInode fresh) := by
    have hbyte : ∀ p, st'.fileByte (st'.inode des) p = st₁.fileByte (st₁.inode des) p :=
      fileByte_congr hspace (by rw [hparent])
    constructor
    · intro happ
      exact ⟨hparent ▸ happ.size, fun p hp ↦ (hbyte p).symm.trans (happ.kept p hp),
        fun p hp ↦ (hbyte _).symm.trans (happ.entry p hp)⟩
    · intro happ
      exact ⟨hparent.symm ▸ happ.size, fun p hp ↦ (hbyte p).trans (happ.kept p hp),
        fun p hp ↦ (hbyte _).trans (happ.entry p hp)⟩
  constructor
  · intro hadded
    exact ⟨hadded.records, happ.mp hadded.appended⟩
  · rintro ⟨hrecords, hst₁⟩
    refine ⟨htype, hrecords, happ.mpr hst₁, fun hinUse ↦ hinUse.2 hfree, ?_, ?_, ?_⟩
    · intro j
      by_cases hj : j = st.superblock.firstFreeInode
      · subst hj
        simp only [or_true, iff_true]
        refine ⟨hlt, ?_⟩
        rw [hinode, Function.update_self]
        simp [MyInode.renew]
      · simp only [hj, or_false]
        simp only [Store.InUse, hinode, Function.update_of_ne hj, writeFile_operation hw]
    · rw [hinode, Function.update_self]
      simp only [inodeListNum] at hdes
      exact toUInt16_of_lt (by omega)
    · rw [hsuper, writeFile_freeInodeNumber hw]
      have hcount := h.freeInodeNumber
      simp only [toUInt16]
      omega

theorem writeFile_firstBlock (h : SoundDisk st) (hdir : DirectoryRecord (st.inode i))
    (hi : i < inodeListNum) (hlen : bytes.length = 16) (hloc : (st.inode i).location 0 = 0)
    (hrefuse : ¬ RefusesBlock st.superblock (st.inode i)) :
    writeFile st i (toInt (st.inode i).size) bytes 'c' = some (16, 16,
      (st.installDirect i).storeEntry i (area.blockAddr st.superblock.firstFreeBlock) bytes) := by
  obtain ⟨hsize, hbn⟩ := hdir.empty hloc
  have hfirst := h.counters.lt
  have hne := area.blockAddr_ne_zero st.superblock.firstFreeBlock
  have hpos : toInt (st.inode i).size = 0 := by
    rw [hsize]
    rfl
  have hslot : ((st.installDirect i).inode i).location 0 =
      area.blockAddr st.superblock.firstFreeBlock := by
    simp [Store.installDirect, hbn]
  have hptr := switchAddress_direct (st.installDirect i) ((st.installDirect i).inode i) 0
    (show 0 < 8 by omega)
  rw [hslot, addOffset_blockAddr hfirst (le_refl 0) (by simp)] at hptr
  have hholds : area.Holds (area.blockAddr st.superblock.firstFreeBlock + 0) bytes.length :=
    Area.holds_blockAddr hfirst (by simp [hlen])
  have hloop : writeLoop i bytes (st.installDirect i)
      (area.blockAddr st.superblock.firstFreeBlock) 0 0 0 = _ :=
    writeLoop_within (by simp [hlen]) fun _ ↦ hholds
  simp only [writeFile, Store.inodeAt_eq hi, Option.bind_eq_bind, Option.bind_some, hpos,
    orAllocate, hloc, if_true, allocateBlock_direct hrefuse hfirst (show 0 ≤ _ by omega)
      (show _ < 8 by omega), hne, if_false, Int.zero_tdiv, Int.zero_tmod]
  have htype : ¬ ('c' = 'w' ∧ (st.inode i).type = .dir) := by simp
  have hptr' : switchAddress (st.installDirect i) ((st.installDirect i).inode i) 0 0 =
      some (area.blockAddr st.superblock.firstFreeBlock) := hptr
  rw [if_neg htype, hptr', Option.bind_some, if_neg hne, Option.bind_some, hloop,
    Option.bind_some]
  simp [hlen, Store.storeEntry]

/-- The part of `create` behind the checks of the pathname appends the entry and
takes the inode, or changes nothing, exactly if the parent refuses or has room. -/
theorem createEntry_iff (mode : ℤ) (type : ObjectType) {d : ℤ} {r : SearchResult}
    (h : SoundDisk st) (hpos : ¬ st.superblock.freeInodeNumber < 1)
    (hfind : isExist st name des d = some r) (hans : r.ans = ERROR) (hlength : name.length ≤ 13)
    (hnul : (0 : UInt8) ∉ name) :
    (∃ ret st', createEntry st des name mode type fresh = some (ret, st') ∧
        ((ret = ERROR ∧ st' = st) ∨ (ret = SUCCESS ∧ EntryAdded st st' des name fresh))) ↔
      (des < inodeListNum ∧ RefusesWrite st (st.inode des) 'c') ∨
        ((st.inode des).type = .dir ∧ des < wholeInodeRecords ∧
          st.superblock.firstFreeInode < wholeInodeRecords ∧
          st.HasRoom (st.inode des) (entryBytes name st.superblock.firstFreeInode fresh)) := by
  have hlen := length_entryBytes hlength st.superblock.firstFreeInode fresh
  have hne : ERROR ≠ SUCCESS := by decide
  constructor
  · rintro ⟨ret, st', hcreate, hatomic⟩
    obtain ⟨ret', pos, st₁, hw, hend⟩ := createEntry_cases hcreate
    rcases hend with ⟨rfl, -, -⟩ | ⟨hret', rfl, ha⟩
    · obtain ⟨-, -, hdes, hrefuse⟩ := writeFile_error hw
      exact .inl ⟨hdes, hrefuse⟩
    · rcases hatomic with ⟨herror, -⟩ | ⟨-, hadded⟩
      · exact (hne herror.symm).elim
      · have hdir := h.directories des hadded.directory
        obtain ⟨ino, hino, -⟩ := Option.bind_eq_some_iff.mp hcreate
        have happ := ((entryAdded_iff h hpos hadded.directory hw (Store.inodeAt_eq_some hino).1
          ha).mp hadded).2
        refine .inr ⟨hadded.directory, hadded.records.1, hadded.records.2, ?_⟩
        rcases appendEntry_cases hdir h.counters hlen hw with
          ⟨herror, -⟩ | ⟨-, ⟨hloc, -, -⟩ | ⟨hloc, w, hend, hstored⟩⟩
        · exact (hret' herror).elim
        · exact .inl hloc
        · rcases hstored with ⟨hnull, hholds, rfl⟩ | ⟨rfl, ptr, st₂, ha₂, hptr, rfl⟩
          · obtain ⟨hfits, hext⟩ := (appended_storeEntry_iff hlen hdir).mp happ
            exact (hasRoom_iff h hdir hloc hfind hans hlength hnul).mpr
              ⟨hfits, w, hend, hnull, hholds, hext⟩
          · exact (not_appended_of_allocateBlock h hdir hloc hfind hans hlength hnul hend ha₂
              hptr happ).elim
  · have hrefused : des < inodeListNum → RefusesWrite st (st.inode des) 'c' →
        createEntry st des name mode type fresh = some (ERROR, st) := by
      intro hdes hrefuse
      simp [createEntry, Store.inodeAt_eq hdes, writeFile_refused _ _ hdes hrefuse]
    rintro (⟨hdes, hrefuse⟩ | ⟨htype, hdes, hfirst, hroom⟩)
    · exact ⟨ERROR, st, hrefused hdes hrefuse, .inl ⟨rfl, rfl⟩⟩
    · have hdir := h.directories des htype
      have hwhole : wholeInodeRecords = 819 := rfl
      have hdes' : des < inodeListNum := by
        simp only [inodeListNum]
        omega
      -- a stored entry is followed by the new inode
      have hstored : ∀ {st₁ : Store area} {pos : ℤ},
          writeFile st des (toInt (st.inode des).size)
            (entryBytes name st.superblock.firstFreeInode fresh) 'c' = some (16, pos, st₁) →
          Appended st st₁ des (entryBytes name st.superblock.firstFreeInode fresh) →
          ∃ ret st', createEntry st des name mode type fresh = some (ret, st') ∧
            ((ret = ERROR ∧ st' = st) ∨
              (ret = SUCCESS ∧ EntryAdded st st' des name fresh)) := by
        intro st₁ pos hw happ
        have hfirst₁ := (writeFile_record hw).2.2
        obtain ⟨st', ha⟩ : ∃ st', allocateInode st₁ des mode
            (if type = .dir then .dir else .reg) = some st' := by
          have hlt : st₁.superblock.firstFreeInode < inodeListNum := by
            simp only [hfirst₁, inodeListNum]
            omega
          simp [allocateInode, Store.inodeAt_eq hlt]
        have hret : (16 : ℤ) ≠ ERROR := by decide
        refine ⟨SUCCESS, st', ?_, .inr ⟨rfl, ?_⟩⟩
        · simp [createEntry, Store.inodeAt_eq hdes', hw, hret, ha]
        · exact (entryAdded_iff h hpos htype hw hdes' ha).mpr ⟨⟨hdes, hfirst⟩, happ⟩
      by_cases hloc : (st.inode des).location 0 = 0
      · by_cases hrefuse : RefusesBlock st.superblock (st.inode des)
        · exact ⟨ERROR, st, hrefused hdes' (.inr ⟨hloc, hrefuse⟩), .inl ⟨rfl, rfl⟩⟩
        · exact hstored (writeFile_firstBlock h hdir hdes' hlen hloc hrefuse)
            (appended_firstBlock hlen hdir hloc)
      · obtain ⟨hfits, w, hend, hnull, hholds, hext⟩ :=
          (hasRoom_iff h hdir hloc hfind hans hlength hnul).mp hroom
        have hw := writeFile_of_mapped hdes' (show ¬ ('c' = 'w' ∧ _) by simp) hloc hnull hend
          (by rw [hlen]; exact tmod_add_le (dvd_toInt hdir.aligned)) fun _ ↦ by rwa [hlen]
        rw [hlen] at hw
        refine hstored hw ?_
        have happ := (appended_storeEntry_iff hlen hdir).mpr ⟨hfits, hext⟩
        simpa [Store.storeEntry, hlen] using happ

end Create

/-! ## All or nothing -/

theorem create_eq {cur : Process} {pathname : List UInt8} {mode : ℤ} {type : ObjectType}
    {fresh : ℕ → UInt8} {s : State area} (hblocks : ¬ s.store.superblock.freeBlockNumber < 1)
    (hinodes : ¬ s.store.superblock.freeInodeNumber < 1) :
    create cur pathname mode type fresh s =
      (lookupNew s.store (getFDT cur s).1 pathname).bind fun target ↦
        match target with
        | none => some (ERROR, (getFDT cur s).2)
        | some (des, name) => (createEntry s.store des name mode type fresh).map fun r ↦
            (r.1, { (getFDT cur s).2 with store := r.2 }) := by
  have hfull : ¬ (s.store.superblock.freeBlockNumber < 1 ∨
      s.store.superblock.freeInodeNumber < 1) := not_or.mpr ⟨hblocks, hinodes⟩
  simp only [create, if_neg hfull, getFDT_store]
  cases lookupNew s.store (getFDT cur s).1 pathname with
  | none => rfl
  | some target =>
      rcases target with _ | ⟨des, name⟩
      · rfl
      · cases hentry : createEntry s.store des name mode type fresh <;> simp [hentry]

/-- In every reachable state a create is all or nothing exactly if it fits. -/
theorem create_atomic_iff (area : Area) (events : List Event) (s : State area)
    (hrun : PartialRun.run step (initState area) events = some s) (cur : Process)
    (pathname : CString) (mode : ℤ) (type : ObjectType) (fresh : ℕ → UInt8) :
    CreateAtomic cur pathname.chars mode type fresh s ↔
      CreateFits cur pathname.chars fresh s := by
  have hdisk := soundDisk_of_run hrun
  simp only [CreateAtomic, CreateFits]
  by_cases hfull : s.store.superblock.freeBlockNumber < 1 ∨ s.store.superblock.freeInodeNumber < 1
  · rw [← or_assoc]
    refine iff_of_true ⟨ERROR, s, if_pos hfull, .inl ⟨rfl, rfl⟩⟩ (.inl hfull)
  · obtain ⟨hblocks, hinodes⟩ := not_or.mp hfull
    simp only [hblocks, hinodes, false_or, create_eq hblocks hinodes]
    cases htarget : lookupNew s.store (getFDT cur s).1 pathname.chars with
    | none => simp
    | some target =>
        rcases target with _ | ⟨des, name⟩
        · simp
        · obtain ⟨position, r, hresolve, hlength, hfind, hans⟩ := lookupNew_eq_some htarget
          have hnul : (0 : UInt8) ∉ name := by
            have hsub := (resolve_invariant (P := fun _ ↦ True) trivial (fun _ _ _ _ _ ↦ trivial)
              (fun _ _ _ _ _ _ _ _ ↦ trivial) hresolve).2
            exact fun hmem ↦ pathname.noNul (hsub hmem)
          refine Iff.trans ?_ (createEntry_iff mode type hdisk hinodes hfind hans hlength hnul)
          constructor
          · rintro ⟨ret, s', hcreate, hatomic⟩
            obtain ⟨⟨ret', st'⟩, hentry, heq⟩ := Option.map_eq_some_iff.mp hcreate
            cases heq
            refine ⟨ret', st', hentry, hatomic.imp_right ?_⟩
            rintro ⟨hret, des', name', position', hresolve', hadded⟩
            cases hresolve.symm.trans hresolve'
            exact ⟨hret, hadded⟩
          · rintro ⟨ret, st', hentry, hatomic⟩
            refine ⟨ret, { (getFDT cur s).2 with store := st' }, ?_, hatomic.imp_right ?_⟩
            · simp [hentry]
            · rintro ⟨hret, hadded⟩
              exact ⟨hret, des, name, position, hresolve, hadded⟩

theorem create_atomic_iff_secondName : ∃ s,
    CreateAtomic sampleProcess secondName.chars 1 .reg (fun _ ↦ 0) s ∧
      PartialRun.run step (initState sampleArea)
        (sampleCalls [.creat sampleName 1 fun _ ↦ 0]) = some s := by
  have hrun : (PartialRun.run step (initState sampleArea)
      (sampleCalls [.creat sampleName 1 fun _ ↦ 0])).map (fun s ↦
        (lookupNew s.store (getFDT sampleProcess s).1 secondName.chars,
          decide ((s.store.inode 0).type = .dir), s.store.superblock.firstFreeInode,
          (s.store.inode 0).size, (s.store.inode 0).location 0)) =
      some (some (some (0, [103])), true, 2, 16, sampleArea.spacePtr) := by
    decide +kernel
  obtain ⟨s, hs, hfacts⟩ := Option.map_eq_some_iff.mp hrun
  simp only [Prod.mk.injEq, decide_eq_true_eq] at hfacts
  obtain ⟨hlookup, htype, hfirst, hsize, hloc⟩ := hfacts
  refine ⟨s, (create_atomic_iff sampleArea _ s hs sampleProcess secondName 1 .reg _).mpr ?_, hs⟩
  simp only [CreateFits, hlookup]
  refine .inr (.inr (.inr ⟨htype, by decide, ?_, .inr (.inl ⟨?_, ?_, ?_⟩)⟩))
  · rw [hfirst]
    decide
  · rw [hsize]
    decide
  · rw [hsize]
    change (s.store.inode 0).location 0 ≠ 0
    rw [hloc]
    decide
  · rw [hsize]
    intro j hj
    simp at hj

/-- The pathname `../../x`. -/
def aboveRoot : CString := ⟨[46, 46, 47, 46, 46, 47, 120], by decide⟩

/-- After sixteen creates in the root directory the entry of a further one is not
found behind them, and a pathname that `read_pathname` rejects lets `create` go
on with an uninitialised name. -/
theorem create_not_atomic :
    (∃ s, PartialRun.run step (initState sampleArea)
        (sampleCalls ((List.finRange 16).map fun k ↦ .creat (letterName k.castSucc) 1 fun _ ↦ 0)) =
          some s ∧
      ¬ CreateAtomic sampleProcess (letterName 16).chars 1 .reg (fun _ ↦ 0) s) ∧
    ¬ CreateAtomic sampleProcess aboveRoot.chars 1 .reg (fun _ ↦ 0) (initState sampleArea) := by
  constructor
  · have hrun : (PartialRun.run step (initState sampleArea)
        (sampleCalls ((List.finRange 16).map fun k ↦
          .creat (letterName k.castSucc) 1 fun _ ↦ 0))).map (fun s ↦
        ((resolve s.store (getFDT sampleProcess s).1 (letterName 16).chars).map
            fun r ↦ r.map Prod.fst,
          (s.store.inode 0).size,
          (create sampleProcess (letterName 16).chars 1 .reg (fun _ ↦ 0) s).map fun r ↦
            (r.1, r.2.store.fileByte (r.2.store.inode 0) 256))) =
        some (some (some 0), 256, some (SUCCESS, none)) := by
      decide +kernel
    obtain ⟨s, hs, hfacts⟩ := Option.map_eq_some_iff.mp hrun
    simp only [Prod.mk.injEq] at hfacts
    obtain ⟨hresolve, hsize, hcreate⟩ := hfacts
    refine ⟨s, hs, ?_⟩
    rintro ⟨ret, s', hcreate', hatomic⟩
    rw [hcreate', Option.map_some, Option.some.injEq, Prod.mk.injEq] at hcreate
    obtain ⟨rfl, hbyte⟩ := hcreate
    rcases hatomic with ⟨herror, -⟩ | ⟨-, des, name, position, hresolve', hadded⟩
    · exact absurd herror (by decide)
    · rw [hresolve'] at hresolve
      cases hresolve
      have hlen : 0 < (entryBytes name s.store.superblock.firstFreeInode fun _ ↦ 0).length := by
        simp [entryBytes]
      have hentry := hadded.appended.entry 0 hlen
      rw [hsize, hbyte, List.getElem?_eq_getElem hlen] at hentry
      cases hentry
  · have hnone : create sampleProcess aboveRoot.chars 1 .reg (fun _ ↦ 0)
        (initState sampleArea) = none := by
      have htest : (create sampleProcess aboveRoot.chars 1 .reg (fun _ ↦ 0)
          (initState sampleArea)).isSome = false := by
        decide +kernel
      simpa using htest
    rintro ⟨ret, s', hcreate, -⟩
    rw [hnone] at hcreate
    cases hcreate

end OperatingSystem.Filesys
