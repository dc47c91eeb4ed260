import OperatingSystem.Filesys.Effects
import OperatingSystem.Filesys.Writing

/-!
# Directory entries

The layout of a directory whose entries fit into one block, and what the string
functions, `search` and the removal of an entry do on it. The root directory
has its entries in block 0.
-/

namespace OperatingSystem.Filesys

open ByteMemory

variable {area : Area}

/-- The 16 bytes at `a` are the entry of a name for an inode. -/
structure EntryAt (m : ℕ → UInt8) (a : ℕ) (name : List UInt8) (i : ℕ) : Prop where
  string : StringAt m a name
  length : name.length ≤ 13
  index : leValue (readBytes m (a + 14) 2) = i

/-- `n` entries lie at `a`, one behind the other. -/
def EntriesAt (m : ℕ → UInt8) (a n : ℕ) (entry : ℕ → List UInt8 × ℕ) : Prop :=
  ∀ k < n, EntryAt m (a + 16 * k) (entry k).1 (entry k).2

/-- The place of an entry in block 0. -/
def entryAddr (area : Area) (k : ℕ) : ℕ := area.blockAddr 0 + 16 * k

def Listing (area : Area) (m : ℕ → UInt8) (n : ℕ) (entry : ℕ → List UInt8 × ℕ) : Prop :=
  ∀ k < n, EntryAt m (entryAddr area k) (entry k).1 (entry k).2

theorem holds_entryAddr {k off n : ℕ} (hk : k < 16) (hn : off + n ≤ 16) :
    area.Holds (entryAddr area k + off) n := by
  rw [entryAddr, Nat.add_assoc]
  refine Area.holds_blockAddr (by simp) ?_
  simp only [blockSize]
  omega

theorem holds_entryStart {k n : ℕ} (hk : k < 16) (hn : n ≤ 16) :
    area.Holds (entryAddr area k) n := by
  have hholds := @holds_entryAddr area k 0 n hk (by omega)
  rwa [Nat.add_zero] at hholds

theorem EntryAt.congr {m m' : ℕ → UInt8} {a i : ℕ} {name : List UInt8} (h : EntryAt m a name i)
    (heq : ∀ k < 16, m (a + k) = m' (a + k)) : EntryAt m' a name i := by
  have hlength := h.length
  refine ⟨h.string.congr fun k hk ↦ heq k (by omega), hlength, ?_⟩
  rw [← h.index]
  congr 1
  apply readBytes_congr
  intro k hk
  rw [Nat.add_assoc]
  exact (heq (14 + k) (by omega)).symm

theorem EntryAt.index_lt {m : ℕ → UInt8} {a i : ℕ} {name : List UInt8} (h : EntryAt m a name i) :
    i < 65536 := by
  have hlt := leValue_lt (readBytes m (a + 14) 2)
  rw [length_readBytes] at hlt
  rw [← h.index]
  omega

theorem length_entryBytes {name : List UInt8} (h : name.length ≤ 13) (i : ℕ)
    (fresh : ℕ → UInt8) : (entryBytes name i fresh).length = 16 := by
  simp only [entryBytes, List.length_append, List.length_map, List.length_range,
    List.length_singleton, length_leBytes]
  omega

theorem index_writeBytes (m : ℕ → UInt8) (a : ℕ) {name : List UInt8} {i : ℕ}
    (hlength : name.length ≤ 13) (hi : i < 65536) (fresh : ℕ → UInt8) :
    leValue (readBytes (writeBytes m a (entryBytes name i fresh)) (a + 14) 2) = i := by
  have hread := readBytes_writeBytes_slice m a (name ++ [0] ++
    (List.range (13 - name.length)).map fun k ↦ fresh (name.length + 1 + k)) (leBytes 2 i) []
  have hpad : (name ++ [0] ++ (List.range (13 - name.length)).map fun k ↦
      fresh (name.length + 1 + k)).length = 14 := by
    simp only [List.length_append, List.length_map, List.length_range, List.length_singleton]
    omega
  rw [List.append_nil, hpad, length_leBytes] at hread
  rw [entryBytes, hread]
  exact leValue_leBytes_of_lt hi

theorem entryAt_writeBytes (m : ℕ → UInt8) (a : ℕ) {name : List UInt8} {i : ℕ}
    (hnul : (0 : UInt8) ∉ name) (hlength : name.length ≤ 13) (hi : i < 65536)
    (fresh : ℕ → UInt8) : EntryAt (writeBytes m a (entryBytes name i fresh)) a name i := by
  refine ⟨?_, hlength, index_writeBytes m a hlength hi fresh⟩
  rw [entryBytes, List.append_assoc]
  exact stringAt_writeBytes m a _ hnul

theorem EntriesAt.congr {m m' : ℕ → UInt8} {a n : ℕ} {entry : ℕ → List UInt8 × ℕ}
    (h : EntriesAt m a n entry) (heq : ∀ l < 16 * n, m (a + l) = m' (a + l)) :
    EntriesAt m' a n entry := by
  intro k hk
  apply (h k hk).congr
  intro l hl
  rw [Nat.add_assoc]
  exact heq (16 * k + l) (by omega)

theorem EntriesAt.append {m : ℕ → UInt8} {a n i : ℕ} {entry : ℕ → List UInt8 × ℕ}
    {name : List UInt8} (h : EntriesAt m a n entry) (hnul : (0 : UInt8) ∉ name)
    (hlength : name.length ≤ 13) (hi : i < 65536) (fresh : ℕ → UInt8) :
    EntriesAt (writeBytes m (a + 16 * n) (entryBytes name i fresh)) a (n + 1)
      (Function.update entry n (name, i)) := by
  intro k hk
  by_cases hkn : k = n
  · subst hkn
    rw [Function.update_self]
    exact entryAt_writeBytes m _ hnul hlength hi fresh
  · rw [Function.update_of_ne hkn]
    apply (h k (by omega)).congr
    intro l hl
    rw [writeBytes_of_disjoint]
    left
    omega

theorem Listing.append {m : ℕ → UInt8} {n i : ℕ} {entry : ℕ → List UInt8 × ℕ}
    {name : List UInt8} (h : Listing area m n entry) (hnul : (0 : UInt8) ∉ name)
    (hlength : name.length ≤ 13) (hi : i < 65536) (fresh : ℕ → UInt8) :
    Listing area (writeBytes m (entryAddr area n) (entryBytes name i fresh)) (n + 1)
      (Function.update entry n (name, i)) :=
  EntriesAt.append h hnul hlength hi fresh

/-! ## String functions -/

theorem strcmpEq_spec {st : Store area} {addr : ℕ} {name filename : List UInt8}
    (h : StringAt st.space addr name) (hholds : area.Holds addr (name.length + 1))
    (hnul : (0 : UInt8) ∉ filename) :
    strcmpEq st addr filename = some (decide (name = filename)) := by
  have hload : st.load addr = some (st.space addr) := by
    apply if_pos
    simpa using hholds.mono (show 0 + 1 ≤ name.length + 1 by omega)
  induction filename generalizing addr name with
  | nil =>
      cases name with
      | nil => simp [strcmpEq, hload, stringAt_nil.mp h]
      | cons x xs =>
          obtain ⟨hne, hbyte, -⟩ := stringAt_cons.mp h
          simp [strcmpEq, hload, hbyte, hne]
  | cons c cs ih =>
      rw [List.mem_cons, not_or] at hnul
      cases name with
      | nil => simp [strcmpEq, hload, stringAt_nil.mp h, hnul.1]
      | cons x xs =>
          obtain ⟨-, hbyte, hrest⟩ := stringAt_cons.mp h
          by_cases hx : x = c
          · have hholds' : area.Holds (addr + 1) (xs.length + 1) := by
              rw [List.length_cons] at hholds
              exact hholds.mono (by omega)
            have hload' : st.load (addr + 1) = some (st.space (addr + 1)) := by
              apply if_pos
              simpa using hholds'.mono (show 0 + 1 ≤ xs.length + 1 by omega)
            have hrec := ih hrest hholds' hnul.2 hload'
            simp [strcmpEq, hload, hbyte, hx, hrec]
          · simp [strcmpEq, hload, hbyte, hx]

/-- `strcpy` copies the string, also in place, unless the target starts inside
it. -/
theorem strcpyLoop_spec {st : Store area} {fuel dst src : ℕ} {name : List UInt8}
    (h : StringAt st.space src name) (hsrc : area.Holds src (name.length + 1))
    (hdst : area.Holds dst (name.length + 1))
    (happart : dst ≤ src ∨ src + (name.length + 1) ≤ dst) (hfuel : name.length < fuel) :
    strcpyLoop fuel dst src st =
      some { st with space := writeBytes st.space dst (name ++ [0]) } := by
  induction name generalizing st fuel dst src with
  | nil =>
      obtain ⟨fuel, rfl⟩ := Nat.exists_eq_add_of_lt hfuel
      have hload : st.load src = some (st.space src) := if_pos (by simpa using hsrc)
      have hholds : area.Holds dst [(0 : UInt8)].length := by
        simpa using hdst
      rw [strcpyLoop, hload, stringAt_nil.mp h, Option.bind_eq_bind, Option.bind_some,
        Store.storeBytes_eq hholds, Option.bind_eq_bind, Option.bind_some, if_pos rfl,
        List.nil_append]
  | cons c cs ih =>
      rw [List.length_cons] at hsrc hdst happart hfuel
      obtain ⟨fuel, rfl⟩ : ∃ fuel', fuel = fuel' + 1 := ⟨fuel - 1, by omega⟩
      obtain ⟨hne, hbyte, hrest⟩ := stringAt_cons.mp h
      have hload : st.load src = some c := by
        rw [← hbyte]
        apply if_pos
        simpa using hsrc.mono (show 0 + 1 ≤ cs.length + 1 + 1 by omega)
      have hholds : area.Holds dst [c].length := by
        simpa using hdst.mono (show 0 + 1 ≤ cs.length + 1 + 1 by omega)
      -- the byte that was just stored does not belong to the rest of the source
      have hrest' : StringAt (writeBytes st.space dst [c]) (src + 1) cs := by
        apply hrest.congr
        intro k hk
        rw [writeBytes_of_disjoint]
        simp only [List.length_singleton]
        omega
      have hrec : strcpyLoop fuel (dst + 1) (src + 1)
          ({ st with space := writeBytes st.space dst [c] } : Store area) = _ :=
        ih hrest' (hsrc.mono (by omega)) (hdst.mono (by omega)) (by omega) (by omega)
      rw [strcpyLoop, hload, Option.bind_eq_bind, Option.bind_some, Store.storeBytes_eq hholds,
        Option.bind_eq_bind, Option.bind_some, if_neg hne, hrec, List.cons_append, writeBytes_cons,
        writeBytes_cons, writeBytes_nil]

/-! ## Lookup -/

section Lookup

variable {st : Store area} {a n i : ℕ} {entry : ℕ → List UInt8 × ℕ} {filename : List UInt8}

theorem holds_entry (h : area.Holds a 256) {k off l : ℕ} (hk : k < 16) (hl : off + l ≤ 16) :
    area.Holds (a + 16 * k + off) l := by
  rw [Nat.add_assoc]
  exact h.mono (by omega)

theorem holds_entryName (h : area.Holds a 256) {k l : ℕ} (hk : k < 16) (hl : l ≤ 16) :
    area.Holds (a + 16 * k) l := h.mono (by omega)

/-- The scan of a block from entry `j` on finds the first entry of the name, or
uses up all entries. -/
theorem searchBlock_entries (h : EntriesAt st.space a n entry) (hholds : area.Holds a 256)
    (hn : n ≤ 16) (hnul : (0 : UInt8) ∉ filename) (count j : ℕ) (d : ℤ) (hj : j ≤ n)
    (hcount : n ≤ j + count) :
    ∃ r, searchBlock st filename a count j (n - j) d = some r ∧
      ((∃ k, j ≤ k ∧ k < n ∧ (entry k).1 = filename ∧ r.ans = (entry k).2 ∧
          r.directoryIndex = d + (k - j) + 1) ∨
        ((∀ k, j ≤ k → k < n → (entry k).1 ≠ filename) ∧ r.ans = ERROR ∧ r.times = 0)) := by
  induction count generalizing j d with
  | zero =>
      have hend : n - j = 0 := by omega
      rw [hend]
      exact ⟨_, rfl, .inr ⟨fun k _ _ ↦ by omega, rfl, rfl⟩⟩
  | succ count ih =>
      by_cases hend : n - j = 0
      · rw [hend]
        exact ⟨_, rfl, .inr ⟨fun k _ _ ↦ by omega, rfl, rfl⟩⟩
      · have hentry := h j (by omega)
        have hlength := hentry.length
        have hcmp := strcmpEq_spec hentry.string
          (holds_entryName hholds (by omega) (by omega)) hnul
        have hindex : st.loadWord (a + 16 * j + 14) 2 = some (entry j).2 := by
          rw [Store.loadWord_eq (holds_entry hholds (by omega) (by omega)), hentry.index]
        rw [searchBlock, if_neg hend, hcmp, hindex, Option.bind_eq_bind, Option.bind_some]
        by_cases heq : (entry j).1 = filename
        · refine ⟨⟨(entry j).2, n - j, d + 1⟩, ?_, .inl ⟨j, le_refl j, by omega, heq, rfl, ?_⟩⟩
          · simp [heq]
          · simp
        · have hrest : n - j - 1 = n - (j + 1) := by omega
          obtain ⟨r, hr, hcases⟩ := ih (j + 1) (d + 1) (by omega) (by omega)
          refine ⟨r, by simpa [heq, hrest] using hr, ?_⟩
          rcases hcases with ⟨k, hjk, hk, hname, hans, hpos⟩ | ⟨hnone, hans, htimes⟩
          · refine .inl ⟨k, by omega, hk, hname, hans, ?_⟩
            rw [hpos]
            push_cast
            ring
          · refine .inr ⟨fun k hjk hk ↦ ?_, hans, htimes⟩
            by_cases hkj : k = j
            · rw [hkj]
              exact heq
            · exact hnone k (by omega) hk

theorem isExist_entries (h : EntriesAt st.space a n entry) (hn : n ≤ 16) (hi : i < inodeListNum)
    (hsize : (st.inode i).size = 16 * n)
    (hblock : 0 < n → (st.inode i).location 0 = a ∧ area.Holds a 256)
    (hnul : (0 : UInt8) ∉ filename) (d : ℤ) :
    ∃ r, isExist st filename i d = some r ∧
      ((∃ k, k < n ∧ (entry k).1 = filename ∧ r.ans = (entry k).2 ∧
          r.directoryIndex = d + k + 1) ∨
        ((∀ k < n, (entry k).1 ≠ filename) ∧ r.ans = ERROR)) := by
  simp only [isExist]
  by_cases hlong : filename.length > 13
  · rw [if_pos hlong]
    refine ⟨_, rfl, .inr ⟨?_, rfl⟩⟩
    rintro k hk rfl
    have hlength := (h k hk).length
    omega
  · rw [if_neg hlong, Store.inodeAt_eq hi, Option.bind_eq_bind, Option.bind_some, hsize,
      toInt_of_lt (by omega)]
    have hchild : ((16 * n : ℕ) : ℤ).tdiv 16 = n := by
      rw [Int.tdiv_eq_ediv_of_nonneg (by omega)]
      omega
    rw [hchild]
    by_cases hempty : (n : ℤ) ≤ 0
    · rw [if_pos hempty]
      exact ⟨_, rfl, .inr ⟨fun k _ ↦ by omega, rfl⟩⟩
    · obtain ⟨hloc, hholds⟩ := hblock (by omega)
      obtain ⟨r, hr, hcases⟩ := searchBlock_entries h hholds hn hnul 16 0 d (by omega) (by omega)
      rw [Nat.sub_zero] at hr
      have hne : ¬ n = 0 := by omega
      have hptr : a ≠ 0 := by
        have hpos := area.spacePtr_pos
        have hlow := hholds.1
        omega
      rw [if_neg hempty, Int.toNat_natCast]
      have hsearch : search st filename (fun k ↦ some ((st.inode i).location k)) 8 0 n d =
          if r.ans ≠ ERROR then some r
          else search st filename (fun k ↦ some ((st.inode i).location k)) 7 1 r.times
            r.directoryIndex := by
        rw [search, if_neg hne, hloc, Option.bind_eq_bind, Option.bind_some, if_neg hptr, hr,
          Option.bind_eq_bind, Option.bind_some]
      rcases hcases with ⟨k, -, hk, hname, hans, hpos⟩ | ⟨hnone, hans, htimes⟩
      · have hfound : r.ans ≠ ERROR := by
          have herror : ERROR = -1 := rfl
          omega
        refine ⟨r, ?_, .inl ⟨k, hk, hname, hans, by simpa using hpos⟩⟩
        rw [hsearch, if_pos hfound, Option.bind_eq_bind, Option.bind_some, if_pos hfound]
      · refine ⟨⟨ERROR, 0, r.directoryIndex⟩, ?_, .inr ⟨fun k ↦ hnone k (Nat.zero_le k), rfl⟩⟩
        rw [hsearch, if_neg (not_not.mpr hans), htimes, search, if_pos rfl, Option.bind_eq_bind,
          Option.bind_some, if_neg (not_not.mpr rfl), if_pos rfl]

end Lookup

theorem isExist_spec {st : Store area} {n : ℕ} {entry : ℕ → List UInt8 × ℕ}
    {filename : List UInt8} (h : Listing area st.space n entry) (hn : n ≤ 16)
    (hsize : (st.inode 0).size = 16 * n) (hloc : (st.inode 0).location 0 = area.blockAddr 0)
    (hnul : (0 : UInt8) ∉ filename) (d : ℤ) :
    ∃ r, isExist st filename 0 d = some r ∧
      ((∃ k, k < n ∧ (entry k).1 = filename ∧ r.ans = (entry k).2 ∧
          r.directoryIndex = d + k + 1) ∨
        ((∀ k < n, (entry k).1 ≠ filename) ∧ r.ans = ERROR)) :=
  isExist_entries h hn (by simp) hsize (fun _ ↦ ⟨hloc, holds_block (by simp)⟩) hnul d

/-! ## Removal -/

theorem switchAddress_entry {st : Store area} {ino : MyInode} {b : ℕ}
    (hb : b < allocatableSpaceSize) (hloc : ino.location 0 = area.blockAddr b) {k : ℕ}
    (hk : k < 16) {off : ℤ} (hoff : off = 16 * k) :
    switchAddress st ino 0 off = some (area.blockAddr b + 16 * k) := by
  have hdirect := switchAddress_direct st ino off (show 0 < 8 by omega)
  rw [hloc, addOffset_blockAddr hb (by omega) (by simp only [blockSize]; omega)] at hdirect
  have hnat : off.toNat = 16 * k := by omega
  rw [hnat] at hdirect
  exact hdirect

theorem switchAddress_entryAddr {st : Store area} {ino : MyInode}
    (hloc : ino.location 0 = area.blockAddr 0) {k : ℕ} (hk : k < 16) {off : ℤ}
    (hoff : off = 16 * k) : switchAddress st ino 0 off = some (entryAddr area k) :=
  switchAddress_entry (by simp) hloc hk hoff

/-- The copy of an entry, over itself or to a place apart from it, writes no
other byte. -/
theorem moveEntry_spec {st : Store area} {dst src i : ℕ} {name : List UInt8}
    (h : EntryAt st.space src name i) (hsrc : area.Holds src 16) (hdst : area.Holds dst 16)
    (happart : dst = src ∨ dst + 16 ≤ src ∨ src + 16 ≤ dst) :
    ∃ space, moveEntry st dst src = some { st with space := space } ∧ EntryAt space dst name i ∧
      ∀ x, (x < dst ∨ dst + 16 ≤ x) → space x = st.space x := by
  have hlength := h.length
  have hfuel : name.length < allocatableSpaceSize * blockSize := by
    simp only [allocatableSpaceSize, blockSize]
    omega
  have hcopy : strcpyLoop (allocatableSpaceSize * blockSize) dst src st =
      some { st with space := writeBytes st.space dst (name ++ [0]) } :=
    strcpyLoop_spec h.string (hsrc.mono (show 0 + (name.length + 1) ≤ 16 by omega))
      (hdst.mono (show 0 + (name.length + 1) ≤ 16 by omega)) (by omega) hfuel
  have hstring : (name ++ [(0 : UInt8)]).length ≤ 14 := by
    rw [List.length_append, List.length_singleton]
    omega
  -- the copied string ends before the inode index of either entry
  have hindex : leValue (readBytes (writeBytes st.space dst (name ++ [0])) (src + 14) 2) = i := by
    rw [readBytes_writeBytes_of_disjoint (by omega), h.index]
  have hstore : area.Holds (dst + 14) (leBytes 2 i).length := by
    rw [length_leBytes]
    exact hdst.mono (by omega)
  have hword : (leBytes 2 i).length = 2 := length_leBytes ..
  refine ⟨writeBytes (writeBytes st.space dst (name ++ [0])) (dst + 14) (leBytes 2 i), ?_, ?_, ?_⟩
  · rw [moveEntry, hcopy, Option.bind_eq_bind, Option.bind_some,
      Store.loadWord_eq (hsrc.mono (by omega)), Option.bind_eq_bind, Option.bind_some, hindex,
      Store.storeBytes_eq hstore]
  · refine ⟨?_, hlength, ?_⟩
    · have hcopied := stringAt_writeBytes st.space dst [] h.string.noNul
      rw [List.append_nil] at hcopied
      apply hcopied.congr
      intro l hl
      exact (writeBytes_of_lt (by omega)).symm
    · have hread := readBytes_writeBytes (writeBytes st.space dst (name ++ [0])) (dst + 14)
        (leBytes 2 i)
      rw [length_leBytes] at hread
      rw [hread]
      exact leValue_leBytes_of_lt h.index_lt
  · intro x hx
    rw [writeBytes_of_disjoint (by omega), writeBytes_of_disjoint (by omega)]

/-- The removal of entry `j` moves the last entry into its place, and touches no
byte outside the entries. -/
theorem fillEntry_entries {st : Store area} {ino : MyInode} {b n j : ℕ}
    {entry : ℕ → List UInt8 × ℕ} (hb : b < allocatableSpaceSize)
    (h : EntriesAt st.space (area.blockAddr b) n entry) (hn : n ≤ 15) (hj : j < n)
    (hloc : ino.location 0 = area.blockAddr b) (hbn : ino.blockNumber = 0)
    (hlbo : ino.lastBlockOffset = 16 * n) :
    ∃ space, fillEntry st ino j = some { st with space := space } ∧
      EntriesAt space (area.blockAddr b) (n - 1) (Function.update entry j (entry (n - 1))) ∧
      ∀ x, (x < area.blockAddr b ∨ area.blockAddr b + 256 ≤ x) → space x = st.space x := by
  have hholds := @holds_block area b hb
  simp only [fillEntry, hbn, hlbo]
  by_cases hone : (16 * (n : ℤ)) - 16 = 0
  · refine ⟨st.space, if_pos hone, ?_, fun _ _ ↦ rfl⟩
    intro k hk
    omega
  · have hdiv : (j : ℤ).tdiv 16 = 0 := by
      rw [Int.tdiv_eq_ediv_of_nonneg (by omega)]
      omega
    have hmod : (j : ℤ).tmod 16 * 16 = 16 * j := by
      rw [Int.tmod_eq_emod_of_nonneg (by omega)]
      omega
    obtain ⟨space, hmove, hmoved, hfar⟩ := moveEntry_spec (h (n - 1) (by omega))
      (holds_entryName hholds (show n - 1 < 16 by omega) (le_refl 16))
      (holds_entryName hholds (show j < 16 by omega) (le_refl 16)) (by omega)
    refine ⟨space, ?_, ?_, fun x hx ↦ hfar x (by omega)⟩
    · rw [if_neg hone, hdiv, hmod, switchAddress_entry hb hloc (by omega) rfl,
        switchAddress_entry hb hloc (show n - 1 < 16 by omega) (by omega), Option.bind_eq_bind,
        Option.bind_some, Option.bind_some, hmove]
    · intro k hk
      by_cases hkj : k = j
      · subst hkj
        rw [Function.update_self]
        exact hmoved
      · rw [Function.update_of_ne hkj]
        apply (h k (by omega)).congr
        intro l hl
        exact (hfar _ (by omega)).symm

/-- `free_parent_directory_entry` removes the entry of the name it is given. -/
theorem freeParentDirectoryEntry_entries {st st' : Store area} {p b n j : ℕ} {ret : ℤ}
    {entry : ℕ → List UInt8 × ℕ} (hb : b < allocatableSpaceSize)
    (h : EntriesAt st.space (area.blockAddr b) n entry) (hn : n ≤ 15) (hj : j < n)
    (hp : p < inodeListNum) (hsize : (st.inode p).size = 16 * n)
    (hloc : (st.inode p).location 0 = area.blockAddr b) (hbn : (st.inode p).blockNumber = 0)
    (hlbo : (st.inode p).lastBlockOffset = 16 * n)
    (hnames : ∀ k < n, ∀ l < n, (entry k).1 = (entry l).1 → k = l)
    (hfree : freeParentDirectoryEntry st (entry j).1 p = some (ret, st')) :
    ∃ space, st' = ({ st with space := space } : Store area).setInode p (st.inode p).shrink ∧
      EntriesAt space (area.blockAddr b) (n - 1) (Function.update entry j (entry (n - 1))) ∧
      ∀ x, (x < area.blockAddr b ∨ area.blockAddr b + 256 ≤ x) → space x = st.space x := by
  obtain ⟨r, hr, hcases⟩ := isExist_entries h (by omega) hp hsize
    (fun _ ↦ ⟨hloc, holds_block hb⟩) (h j hj).string.noNul (-1)
  obtain ⟨r', hr', hentry⟩ := Option.bind_eq_some_iff.mp hfree
  cases hr.symm.trans hr'
  rcases hcases with ⟨k, hk, hname, hans, hpos⟩ | ⟨hnone, -⟩
  · obtain rfl := hnames k hk j hj hname
    have hfound : r.ans ≠ ERROR := by
      have herror : ERROR = -1 := rfl
      omega
    have hindex : r.directoryIndex = k := by omega
    obtain ⟨space, hfill, hremoved, hfar⟩ := fillEntry_entries hb h hn hk hloc hbn hlbo
    rw [if_neg hfound, Store.inodeAt_eq hp, hindex, Option.bind_eq_bind, Option.bind_some,
      hfill] at hentry
    cases hentry
    exact ⟨space, rfl, hremoved, hfar⟩
  · exact (hnone j hj rfl).elim

theorem MyInode.shrink_size {ino : MyInode} {n : ℕ} (h : ino.size = 16 * n) (hpos : 0 < n)
    (hn : 16 * n < 4294967296) : ino.shrink.size = 16 * (n - 1) := by
  simp only [MyInode.shrink, h, toUInt32]
  omega

end OperatingSystem.Filesys
