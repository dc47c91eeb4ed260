import OperatingSystem.Filesys.Entries
import OperatingSystem.Filesys.Reading

/-!
# Directory lookup

`isExist` on a directory of any size is a linear search of its entries. Each
level of the search, from the entries of one block to the second-level blocks,
goes through an interval of the entries, and intervals that meet are put
together by one rule.
-/

namespace OperatingSystem.Filesys

open ByteMemory

variable {area : Area}

/-! ## What a lookup touches -/

/-- The bytes that `strcmp` compares. -/
def strcmpReads (st : Store area) (addr : ℕ) : List UInt8 → List (ℕ × ℕ)
  | [] => [(addr, 1)]
  | c :: cs => (addr, 1) :: if st.load addr = some c then strcmpReads st (addr + 1) cs else []

/-- The ranges that the rest of a search reads after a part of it. -/
def continueReads (part : Option SearchResult) (rest : SearchResult → List (ℕ × ℕ)) :
    List (ℕ × ℕ) :=
  match part with
  | none => []
  | some r => if r.ans ≠ ERROR then [] else rest r

def searchBlockReads (st : Store area) (filename : List UInt8) (entry : ℕ) :
    ℕ → ℕ → ℕ → List (ℕ × ℕ)
  | 0, _, _ => []
  | count + 1, j, times =>
      if times = 0 then []
      else
        strcmpReads st (entry + 16 * j) filename ++
          match strcmpEq st (entry + 16 * j) filename with
          | none => []
          | some true => [(entry + 16 * j + 14, 2)]
          | some false => searchBlockReads st filename entry count (j + 1) (times - 1)

/-- The ranges that `search` reads, with those from which it takes the pointer
of a block. -/
def searchReads (st : Store area) (filename : List UInt8) (location : ℕ → Option ℕ)
    (slot : ℕ → List (ℕ × ℕ)) : ℕ → ℕ → ℕ → ℤ → List (ℕ × ℕ)
  | 0, _, _, _ => []
  | count + 1, i, times, dirIndex =>
      if times = 0 then []
      else
        slot i ++
          match location i with
          | none => []
          | some entry =>
              if entry = 0 then []
              else
                searchBlockReads st filename entry 16 0 times ++
                  continueReads (searchBlock st filename entry 16 0 times dirIndex) fun r ↦
                    searchReads st filename location slot count (i + 1) r.times r.directoryIndex

/-- The entry of an index block. -/
def indexSlot (index k : ℕ) : List (ℕ × ℕ) := [(index + 4 * k, 4)]

def searchDoubleReads (st : Store area) (filename : List UInt8) (double : ℕ) :
    ℕ → ℕ → ℕ → ℤ → List (ℕ × ℕ)
  | 0, _, _, _ => []
  | count + 1, i, times, dirIndex =>
      indexSlot double i ++
        match st.loadWord (double + 4 * i) 4 with
        | none => []
        | some single =>
            if single = 0 then []
            else
              let location := fun k ↦ st.loadWord (single + 4 * k) 4
              searchReads st filename location (indexSlot single) 64 0 times dirIndex ++
                continueReads (search st filename location 64 0 times dirIndex) fun r ↦
                  if r.times = 0 then []
                  else searchDoubleReads st filename double count (i + 1) r.times r.directoryIndex

/-- The ranges of the data area that `isExist` reads. -/
def isExistReads (st : Store area) (filename : List UInt8) (ino : MyInode) (dirIndex : ℤ) :
    List (ℕ × ℕ) :=
  let childNum := (toInt ino.size).tdiv 16
  if filename.length > 13 ∨ childNum ≤ 0 then []
  else
    let direct := fun k ↦ some (ino.location k)
    let single := fun k ↦ st.loadWord (ino.location 8 + 4 * k) 4
    searchReads st filename direct (fun _ ↦ []) 8 0 childNum.toNat dirIndex ++
      continueReads (search st filename direct 8 0 childNum.toNat dirIndex) fun r ↦
        if r.times = 0 ∨ ino.location 8 = 0 then []
        else
          searchReads st filename single (indexSlot (ino.location 8)) 64 0 r.times
              r.directoryIndex ++
            continueReads (search st filename single 64 0 r.times r.directoryIndex) fun r ↦
              if r.times = 0 ∨ ino.location 9 = 0 then []
              else
                searchDoubleReads st filename (ino.location 9) 64 0 r.times r.directoryIndex

/-! ## The ranges are all that is read -/

section Congr

variable {st st' : Store area} {filename : List UInt8}

theorem SameBytes.left {xs ys : List (ℕ × ℕ)} (h : SameBytes st st' (xs ++ ys)) :
    SameBytes st st' xs := fun range hrange ↦ h range (List.mem_append_left _ hrange)

theorem SameBytes.right {xs ys : List (ℕ × ℕ)} (h : SameBytes st st' (xs ++ ys)) :
    SameBytes st st' ys := fun range hrange ↦ h range (List.mem_append_right _ hrange)

theorem SameBytes.load {addr : ℕ} {ranges : List (ℕ × ℕ)}
    (h : SameBytes st st' ((addr, 1) :: ranges)) : st'.load addr = st.load addr := by
  have hbyte := h (addr, 1) List.mem_cons_self 0 Nat.one_pos
  rw [Nat.add_zero] at hbyte
  simp only [Store.load, hbyte]

theorem strcmpEq_congr {addr : ℕ} (h : SameBytes st st' (strcmpReads st addr filename)) :
    strcmpEq st' addr filename = strcmpEq st addr filename := by
  induction filename generalizing addr with
  | nil =>
      rw [strcmpReads] at h
      rw [strcmpEq, strcmpEq, h.load]
  | cons c cs ih =>
      rw [strcmpReads] at h
      rw [strcmpEq, strcmpEq, h.load]
      by_cases hload : st.load addr = some c
      · rw [if_pos hload] at h
        have hrest : SameBytes st st' (strcmpReads st (addr + 1) cs) := fun range hrange ↦
          h range (List.mem_cons_of_mem _ hrange)
        rw [hload, Option.bind_some, Option.bind_some, if_pos rfl, if_pos rfl]
        exact ih hrest
      · apply Option.bind_congr
        intro b hb
        have hne : b ≠ c := fun heq ↦ hload (heq ▸ hb)
        rw [if_neg hne, if_neg hne]

theorem searchBlock_found {entry count j times : ℕ} (d : ℤ) (htimes : times ≠ 0)
    (hcmp : strcmpEq st (entry + 16 * j) filename = some true) :
    searchBlock st filename entry (count + 1) j times d =
      (st.loadWord (entry + 16 * j + 14) 2).bind fun index ↦ some ⟨index, times, d + 1⟩ := by
  rw [searchBlock, if_neg htimes, hcmp, Option.bind_eq_bind, Option.bind_some, if_pos rfl,
    Option.bind_eq_bind]

theorem searchBlock_passed {entry count j times : ℕ} (d : ℤ) (htimes : times ≠ 0)
    (hcmp : strcmpEq st (entry + 16 * j) filename = some false) :
    searchBlock st filename entry (count + 1) j times d =
      searchBlock st filename entry count (j + 1) (times - 1) (d + 1) := by
  rw [searchBlock, if_neg htimes, hcmp, Option.bind_eq_bind, Option.bind_some,
    if_neg Bool.false_ne_true]

theorem searchBlock_congr {entry count j times : ℕ} {d : ℤ}
    (h : SameBytes st st' (searchBlockReads st filename entry count j times)) :
    searchBlock st' filename entry count j times d =
      searchBlock st filename entry count j times d := by
  induction count generalizing j times d with
  | zero => rfl
  | succ count ih =>
      by_cases htimes : times = 0
      · rw [searchBlock, searchBlock, if_pos htimes, if_pos htimes]
      · rw [searchBlockReads, if_neg htimes] at h
        have hsame := strcmpEq_congr h.left
        have hright := h.right
        rcases hcmp : strcmpEq st (entry + 16 * j) filename with _ | _ | _
        · rw [hcmp] at hsame
          rw [searchBlock, searchBlock, hcmp, hsame]
          simp only [Option.bind_eq_bind, Option.bind_none]
        · rw [hcmp] at hsame hright
          rw [searchBlock_passed d htimes hcmp, searchBlock_passed d htimes hsame, ih hright]
        · rw [hcmp] at hsame hright
          rw [searchBlock_found d htimes hcmp, searchBlock_found d htimes hsame,
            hright.loadWord List.mem_cons_self]

theorem continueReads_some {part : Option SearchResult} {rest : SearchResult → List (ℕ × ℕ)}
    {r : SearchResult} (hpart : part = some r) (hr : ¬ r.ans ≠ ERROR) :
    continueReads part rest = rest r := by
  rw [hpart, continueReads, if_neg hr]

theorem bind_congr {part : Option SearchResult} {rest rest' : SearchResult → Option SearchResult}
    {reads : SearchResult → List (ℕ × ℕ)} (h : SameBytes st st' (continueReads part reads))
    (hrest : ∀ r, SameBytes st st' (reads r) → rest' r = rest r) :
    (part.bind fun r ↦ if r.ans ≠ ERROR then some r else rest' r) =
      part.bind fun r ↦ if r.ans ≠ ERROR then some r else rest r := by
  rcases part with _ | r
  · rfl
  · by_cases hr : r.ans ≠ ERROR
    · simp only [Option.bind_some, if_pos hr]
    · rw [continueReads_some rfl hr] at h
      simp only [Option.bind_some, if_neg hr, hrest r h]

theorem search_congr {location location' : ℕ → Option ℕ} {slot : ℕ → List (ℕ × ℕ)}
    (hslot : ∀ k, SameBytes st st' (slot k) → location' k = location k) {count i times : ℕ} {d : ℤ}
    (h : SameBytes st st' (searchReads st filename location slot count i times d)) :
    search st' filename location' count i times d = search st filename location count i times d := by
  induction count generalizing i times d with
  | zero => rfl
  | succ count ih =>
      rw [search, search]
      by_cases htimes : times = 0
      · rw [if_pos htimes, if_pos htimes]
      · rw [searchReads, if_neg htimes] at h
        rw [if_neg htimes, if_neg htimes, hslot i h.left]
        have hright := h.right
        rcases hloc : location i with _ | entry
        · simp only [Option.bind_eq_bind, Option.bind_none]
        · rw [hloc] at hright
          by_cases hnull : entry = 0
          · simp only [Option.bind_eq_bind, Option.bind_some, hnull, if_true]
          · simp only [hnull, if_false] at hright
            simp only [Option.bind_eq_bind, Option.bind_some, hnull, if_false,
              searchBlock_congr hright.left]
            exact bind_congr hright.right fun r hr ↦ ih hr

theorem loadWord_indexSlot (index k : ℕ) (h : SameBytes st st' (indexSlot index k)) :
    st'.loadWord (index + 4 * k) 4 = st.loadWord (index + 4 * k) 4 :=
  h.loadWord List.mem_cons_self

theorem searchDouble_congr {double count i times : ℕ} {d : ℤ}
    (h : SameBytes st st' (searchDoubleReads st filename double count i times d)) :
    searchDouble st' filename double count i times d =
      searchDouble st filename double count i times d := by
  induction count generalizing i times d with
  | zero => rfl
  | succ count ih =>
      rw [searchDoubleReads] at h
      rw [searchDouble, searchDouble, loadWord_indexSlot _ _ h.left]
      have hright := h.right
      rcases hload : st.loadWord (double + 4 * i) 4 with _ | single
      · simp only [Option.bind_eq_bind, Option.bind_none]
      · rw [hload] at hright
        by_cases hnull : single = 0
        · simp only [Option.bind_eq_bind, Option.bind_some, hnull, if_true]
        · simp only [hnull, if_false] at hright
          have hsearch := search_congr (loadWord_indexSlot single) hright.left
          simp only [Option.bind_eq_bind, Option.bind_some, hnull, if_false, hsearch]
          apply bind_congr hright.right
          intro r hr
          by_cases hzero : r.times = 0
          · rw [if_pos hzero, if_pos hzero]
          · rw [if_neg hzero] at hr
            rw [if_neg hzero, if_neg hzero, ih hr]

/-- The answer depends on the record of the directory and on these ranges
only. -/
theorem isExist_congr {i : ℕ} {d : ℤ} (hinode : st'.inode i = st.inode i)
    (h : SameBytes st st' (isExistReads st filename (st.inode i) d)) :
    isExist st' filename i d = isExist st filename i d := by
  have hat : st'.inodeAt i = st.inodeAt i := by simp only [Store.inodeAt, hinode]
  simp only [isExist, hat]
  by_cases hlong : filename.length > 13
  · rw [if_pos hlong, if_pos hlong]
  · rw [if_neg hlong, if_neg hlong]
    rcases hino : st.inodeAt i with _ | ino
    · simp only [Option.bind_eq_bind, Option.bind_none]
    · obtain rfl := (Store.inodeAt_eq_some hino).2
      simp only [Option.bind_eq_bind, Option.bind_some]
      by_cases hempty : (toInt (st.inode i).size).tdiv 16 ≤ 0
      · rw [if_pos hempty, if_pos hempty]
      · simp only [isExistReads, hlong, hempty, or_self, if_false] at h
        rw [if_neg hempty, if_neg hempty, search_congr (fun _ _ ↦ rfl) h.left]
        apply bind_congr h.right
        intro r hr
        by_cases hzero : r.times = 0
        · rw [if_pos hzero, if_pos hzero]
        · by_cases hsingle : (st.inode i).location 8 = 0
          · rw [if_neg hzero, if_neg hzero, if_pos hsingle, if_pos hsingle]
          · simp only [hzero, hsingle, or_self, if_false] at hr
            rw [if_neg hzero, if_neg hzero, if_neg hsingle, if_neg hsingle,
              search_congr (loadWord_indexSlot ((st.inode i).location 8)) hr.left]
            apply bind_congr hr.right
            intro r hr
            by_cases hzero : r.times = 0
            · rw [if_pos hzero, if_pos hzero]
            · by_cases hdouble : (st.inode i).location 9 = 0
              · rw [if_neg hzero, if_neg hzero, if_pos hdouble, if_pos hdouble]
              · simp only [hzero, hdouble, or_self, if_false] at hr
                rw [if_neg hzero, if_neg hzero, if_neg hdouble, if_neg hdouble,
                  searchDouble_congr hr]

end Congr

/-! ## Directories of any size -/

/-- The address of entry `k`: slot `k % 16` of logical block `k / 16`. -/
def Store.entryPtr (st : Store area) (ino : MyInode) (k : ℕ) : ℕ :=
  st.logicalPtr ino (k / 16) + 16 * (k % 16)

/-- A directory of `n` entries, without gaps in its block map. -/
structure DirectoryListing (st : Store area) (ino : MyInode) (n : ℕ)
    (entry : ℕ → List UInt8 × ℕ) : Prop where
  size : ino.size = 16 * n
  mapped : st.MappedFile ino
  entries : ∀ k < n, EntryAt st.space (st.entryPtr ino k) (entry k).1 (entry k).2

/-- The range lies in one of the first `n` entries, or it is the pointer to the
block of one, or to an index block on the way to it. -/
def Store.InEntries (st : Store area) (ino : MyInode) (n : ℕ) (range : ℕ × ℕ) : Prop :=
  ∃ k < n, (st.entryPtr ino k ≤ range.1 ∧ range.1 + range.2 ≤ st.entryPtr ino k + 16) ∨
    (8 ≤ k / 16 ∧ k / 16 < 72 ∧ range = (ino.location 8 + 4 * (k / 16 - 8), 4)) ∨
    (72 ≤ k / 16 ∧ (range = (ino.location 9 + 4 * ((k / 16 - 72) / 64), 4) ∨
      range = (st.entry (ino.location 9) ((k / 16 - 72) / 64) + 4 * ((k / 16 - 72) % 64), 4)))

/-- The outcome of a linear search through the entries from `g` to `e`, of `n`
in all, when `*directory_index` is `d` before entry 0. -/
inductive Scanned (entry : ℕ → List UInt8 × ℕ) (filename : List UInt8) (n : ℕ) (d : ℤ)
    (g e : ℕ) : SearchResult → Prop where
  | found (k : ℕ) (hgk : g ≤ k) (hke : k < e) (hname : (entry k).1 = filename)
      (hfirst : ∀ l, g ≤ l → l < k → (entry l).1 ≠ filename) :
      Scanned entry filename n d g e ⟨(entry k).2, n - k, d + k + 1⟩
  | missing (hnone : ∀ l, g ≤ l → l < e → (entry l).1 ≠ filename) :
      Scanned entry filename n d g e ⟨ERROR, n - e, d + e⟩

/-- A part of the lookup is defined, is a linear search of its entries, and
reads nothing outside the entries. -/
def Lookup (st : Store area) (ino : MyInode) (entry : ℕ → List UInt8 × ℕ) (filename : List UInt8)
    (n : ℕ) (d : ℤ) (g e : ℕ) (result : Option SearchResult) (reads : List (ℕ × ℕ)) : Prop :=
  ∃ r, result = some r ∧ Scanned entry filename n d g e r ∧
    ∀ range ∈ reads, st.InEntries ino n range

namespace Lookup

variable {st : Store area} {ino : MyInode} {entry : ℕ → List UInt8 × ℕ} {filename : List UInt8}
  {n g m e : ℕ} {d : ℤ} {result : Option SearchResult} {reads : List (ℕ × ℕ)}

theorem stop (st : Store area) (ino : MyInode) (entry : ℕ → List UInt8 × ℕ)
    (filename : List UInt8) (n : ℕ) (d : ℤ) (e : ℕ) :
    Lookup st ino entry filename n d e e (some ⟨ERROR, n - e, d + e⟩) [] := by
  refine ⟨_, rfl, .missing fun l hle hl ↦ by omega, ?_⟩
  intro range hrange
  cases hrange

theorem ranges (h : Lookup st ino entry filename n d g e result reads) {more : List (ℕ × ℕ)}
    (hmore : ∀ range ∈ more, st.InEntries ino n range) :
    Lookup st ino entry filename n d g e result (more ++ reads) := by
  obtain ⟨r, hr, hscan, hreads⟩ := h
  refine ⟨r, hr, hscan, fun range hrange ↦ ?_⟩
  rcases List.mem_append.mp hrange with hrange | hrange
  · exact hmore range hrange
  · exact hreads range hrange

theorem pass (hname : (entry g).1 ≠ filename)
    (h : Lookup st ino entry filename n d (g + 1) e result reads) :
    Lookup st ino entry filename n d g e result reads := by
  obtain ⟨r, hr, hscan, hreads⟩ := h
  refine ⟨r, hr, ?_, hreads⟩
  rcases hscan with ⟨k, hgk, hke, hfound, hfirst⟩ | hnone
  · refine .found k (by omega) hke hfound fun l hgl hlk ↦ ?_
    rcases Nat.eq_or_lt_of_le hgl with rfl | hlt
    · exact hname
    · exact hfirst l hlt hlk
  · refine .missing fun l hgl hle ↦ ?_
    rcases Nat.eq_or_lt_of_le hgl with rfl | hlt
    · exact hname
    · exact hnone l hlt hle

theorem next (h : Lookup st ino entry filename n d g m result reads) (hgm : g ≤ m) (hme : m ≤ e)
    {rest : SearchResult → Option SearchResult} {restReads : SearchResult → List (ℕ × ℕ)}
    (hrest : Lookup st ino entry filename n d m e (rest ⟨ERROR, n - m, d + m⟩)
      (restReads ⟨ERROR, n - m, d + m⟩)) :
    Lookup st ino entry filename n d g e
      (result.bind fun r ↦ if r.ans ≠ ERROR then some r else rest r)
      (reads ++ continueReads result restReads) := by
  obtain ⟨r, rfl, hscan, hreads⟩ := h
  apply Lookup.ranges _ hreads
  rw [Option.bind_some, continueReads]
  rcases hscan with ⟨k, hgk, hkm, hname, hfirst⟩ | hnone
  · have hans : (⟨((entry k).2 : ℤ), n - k, d + k + 1⟩ : SearchResult).ans ≠ ERROR := by
      have herror : ERROR = -1 := rfl
      dsimp only
      omega
    rw [if_pos hans]
    simp only [if_pos hans]
    refine ⟨_, rfl, .found k hgk (by omega) hname hfirst, ?_⟩
    intro range hrange
    cases hrange
  · obtain ⟨r, hr, hscan, hreads⟩ := hrest
    rw [if_neg (not_not.mpr rfl)]
    simp only [if_neg (not_not.mpr (rfl : ERROR = ERROR))]
    refine ⟨r, hr, ?_, hreads⟩
    rcases hscan with ⟨k, hmk, hke, hname, hfirst⟩ | hrestNone
    · refine .found k (by omega) hke hname fun l hgl hlk ↦ ?_
      by_cases hlm : l < m
      · exact hnone l hgl hlm
      · exact hfirst l (by omega) hlk
    · refine .missing fun l hgl hle ↦ ?_
      by_cases hlm : l < m
      · exact hnone l hgl hlm
      · exact hrestNone l (by omega) hle

end Lookup

theorem strcmpReads_range (st : Store area) {addr : ℕ} {filename : List UInt8} :
    ∀ range ∈ strcmpReads st addr filename,
      addr ≤ range.1 ∧ range.1 + range.2 ≤ addr + (filename.length + 1) := by
  induction filename generalizing addr with
  | nil =>
      intro range hrange
      obtain rfl := List.mem_singleton.mp hrange
      exact ⟨le_refl _, le_refl _⟩
  | cons c cs ih =>
      intro range hrange
      rw [List.length_cons]
      rcases List.mem_cons.mp hrange with rfl | hrange
      · exact ⟨le_refl _, by dsimp only; omega⟩
      · split at hrange
        · have hrest := ih range hrange
          omega
        · cases hrange

namespace DirectoryListing

variable {st : Store area} {ino : MyInode} {entry : ℕ → List UInt8 × ℕ} {filename : List UInt8}
  {n : ℕ}

theorem entryPtr_eq (st : Store area) (ino : MyInode) {b j : ℕ} (hj : j < 16) :
    st.entryPtr ino (16 * b + j) = st.logicalPtr ino b + 16 * j := by
  have hdiv : (16 * b + j) / 16 = b := by omega
  have hmod : (16 * b + j) % 16 = j := by omega
  rw [Store.entryPtr, hdiv, hmod]

theorem mapped_block (h : DirectoryListing st ino n entry) {b : ℕ} (hb : 16 * b < n) :
    st.Mapped ino b := by
  apply h.mapped
  rw [h.size, blockCount]
  omega

theorem capacity (h : DirectoryListing st ino n entry) : n ≤ 16 * 4168 := by
  by_contra hlong
  have hlt := (h.mapped_block (show 16 * 4168 < n by omega)).lt
  omega

theorem searchBlock (h : DirectoryListing st ino n entry) (hnul : (0 : UInt8) ∉ filename)
    (hlength : filename.length ≤ 13) (d : ℤ) {b count j : ℕ} (hcount : j + count = 16)
    (hj : 16 * b + j ≤ n) :
    Lookup st ino entry filename n d (16 * b + j) (min n (16 * (b + 1)))
      (Filesys.searchBlock st filename (st.logicalPtr ino b) count j (n - (16 * b + j))
        (d + (16 * b + j : ℕ)))
      (searchBlockReads st filename (st.logicalPtr ino b) count j (n - (16 * b + j))) := by
  induction count generalizing j with
  | zero =>
      have hend : min n (16 * (b + 1)) = 16 * b + j := by omega
      rw [hend]
      exact Lookup.stop ..
  | succ count ih =>
      by_cases hlast : 16 * b + j = n
      · have hend : min n (16 * (b + 1)) = 16 * b + j := by omega
        have htimes : n - (16 * b + j) = 0 := by omega
        rw [Filesys.searchBlock, searchBlockReads, if_pos htimes, if_pos htimes, hend]
        exact Lookup.stop ..
      · have htimes : n - (16 * b + j) ≠ 0 := by omega
        have hholds := (h.mapped_block (show 16 * b < n by omega)).block
        have hentry := h.entries (16 * b + j) (by omega)
        rw [entryPtr_eq st ino (by omega)] at hentry
        have hnameLength := hentry.length
        have hcmp := strcmpEq_spec hentry.string
          (holds_entryName hholds (by omega) (by omega)) hnul
        -- `strcmp` stops at the NUL of the file name
        have hcompared : ∀ range ∈ strcmpReads st (st.logicalPtr ino b + 16 * j) filename,
            st.InEntries ino n range := by
          intro range hrange
          have hwithin := strcmpReads_range st range hrange
          refine ⟨16 * b + j, by omega, .inl ?_⟩
          rw [entryPtr_eq st ino (by omega)]
          omega
        rw [searchBlockReads, if_neg htimes]
        apply Lookup.ranges _ hcompared
        by_cases hname : (entry (16 * b + j)).1 = filename
        · rw [decide_eq_true hname] at hcmp
          have hindex := @Store.loadWord_eq _ st _ _
            (holds_entry hholds (show j < 16 by omega) (show 14 + 2 ≤ 16 by omega))
          rw [hentry.index] at hindex
          rw [searchBlock_found _ htimes hcmp, hcmp, hindex, Option.bind_some]
          refine ⟨_, rfl, .found _ (le_refl _) (by omega) hname fun l hle hl ↦ by omega, ?_⟩
          intro range hrange
          obtain rfl := List.mem_singleton.mp hrange
          refine ⟨16 * b + j, by omega, .inl ?_⟩
          rw [entryPtr_eq st ino (by omega)]
          dsimp only
          omega
        · rw [decide_eq_false hname] at hcmp
          have hpred : n - (16 * b + j) - 1 = n - (16 * b + (j + 1)) := by omega
          have hsucc : d + (16 * b + j : ℕ) + 1 = d + (16 * b + (j + 1) : ℕ) := by
            push_cast
            ring
          rw [searchBlock_passed _ htimes hcmp, hcmp, hpred, hsucc]
          exact Lookup.pass hname (ih (by omega) (by omega))

theorem search (h : DirectoryListing st ino n entry) (hnul : (0 : UInt8) ∉ filename)
    (hlength : filename.length ≤ 13) (d : ℤ) {location : ℕ → Option ℕ}
    {slot : ℕ → List (ℕ × ℕ)} {k total : ℕ}
    (hloc : ∀ i < total, 16 * (k + i) < n → location i = some (st.logicalPtr ino (k + i)) ∧
      ∀ range ∈ slot i, st.InEntries ino n range) {count i : ℕ} (hcount : i + count = total) :
    Lookup st ino entry filename n d (min n (16 * (k + i))) (min n (16 * (k + total)))
      (Filesys.search st filename location count i (n - min n (16 * (k + i)))
        (d + (min n (16 * (k + i)) : ℕ)))
      (searchReads st filename location slot count i (n - min n (16 * (k + i)))
        (d + (min n (16 * (k + i)) : ℕ))) := by
  induction count generalizing i with
  | zero =>
      obtain rfl : i = total := by omega
      exact Lookup.stop ..
  | succ count ih =>
      rw [Filesys.search, searchReads]
      by_cases hlast : n ≤ 16 * (k + i)
      · have hend : min n (16 * (k + total)) = min n (16 * (k + i)) := by omega
        have htimes : n - min n (16 * (k + i)) = 0 := by omega
        rw [if_pos htimes, if_pos htimes, hend]
        exact Lookup.stop ..
      · have htimes : n - 16 * (k + i) ≠ 0 := by omega
        obtain ⟨hptr, hslot⟩ := hloc i (by omega) (by omega)
        have hne := (h.mapped_block (show 16 * (k + i) < n by omega)).block.ne_zero
        have hblock := h.searchBlock hnul hlength d (show 0 + 16 = 16 by omega)
          (show 16 * (k + i) + 0 ≤ n by omega)
        rw [Nat.add_zero] at hblock
        rw [Nat.min_eq_right (show 16 * (k + i) ≤ n by omega), if_neg htimes, if_neg htimes, hptr,
          Option.bind_eq_bind, Option.bind_some, if_neg hne]
        simp only [if_neg hne]
        exact (hblock.next (by omega) (by omega) (ih (i := i + 1) (by omega))).ranges hslot

theorem searchDouble (h : DirectoryListing st ino n entry) (hnul : (0 : UInt8) ∉ filename)
    (hlength : filename.length ≤ 13) (d : ℤ) {count i : ℕ} (hcount : i + count = 64)
    (hi : 16 * (72 + 64 * i) < n) :
    Lookup st ino entry filename n d (16 * (72 + 64 * i)) n
      (Filesys.searchDouble st filename (ino.location 9) count i (n - 16 * (72 + 64 * i))
        (d + (16 * (72 + 64 * i) : ℕ)))
      (searchDoubleReads st filename (ino.location 9) count i (n - 16 * (72 + 64 * i))
        (d + (16 * (72 + 64 * i) : ℕ))) := by
  induction count generalizing i with
  | zero =>
      have hcapacity := h.capacity
      omega
  | succ count ih =>
      have hmapped := h.mapped_block hi
      have hsecond := hmapped.second (by omega)
      have hindex : (72 + 64 * i - 72) / 64 = i := by omega
      rw [hindex] at hsecond
      have hload : st.loadWord (ino.location 9 + 4 * i) 4 = some (st.entry (ino.location 9) i) :=
        loadWord_entry (hmapped.double (by omega)) (by omega)
      -- the pointers of the blocks of this second-level block
      have hloc : ∀ j < 64, 16 * (72 + 64 * i + j) < n →
          st.loadWord (st.entry (ino.location 9) i + 4 * j) 4 =
              some (st.logicalPtr ino (72 + 64 * i + j)) ∧
            ∀ range ∈ indexSlot (st.entry (ino.location 9) i) j, st.InEntries ino n range := by
        intro j hj hjn
        have hdiv : (72 + 64 * i + j - 72) / 64 = i := by omega
        have hmod : (72 + 64 * i + j - 72) % 64 = j := by omega
        refine ⟨?_, ?_⟩
        · rw [loadWord_entry hsecond hj, Store.logicalPtr, if_neg (by omega), if_neg (by omega),
            hdiv, hmod]
        · intro range hrange
          obtain rfl := List.mem_singleton.mp hrange
          have hblock : 16 * (72 + 64 * i + j) / 16 = 72 + 64 * i + j := by omega
          refine ⟨16 * (72 + 64 * i + j), hjn, .inr (.inr ⟨by omega, .inr ?_⟩)⟩
          rw [hblock, hdiv, hmod]
      have hslot : ∀ range ∈ indexSlot (ino.location 9) i, st.InEntries ino n range := by
        intro range hrange
        obtain rfl := List.mem_singleton.mp hrange
        have hblock : 16 * (72 + 64 * i) / 16 = 72 + 64 * i := by omega
        refine ⟨16 * (72 + 64 * i), hi, .inr (.inr ⟨by omega, .inl ?_⟩)⟩
        rw [hblock, hindex]
      have hsearch := h.search hnul hlength d hloc (show 0 + 64 = 64 by omega)
      rw [Nat.add_zero, Nat.min_eq_right (show 16 * (72 + 64 * i) ≤ n by omega)] at hsearch
      rw [Filesys.searchDouble, searchDoubleReads, hload, Option.bind_eq_bind, Option.bind_some,
        if_neg hsecond.ne_zero]
      simp only [if_neg hsecond.ne_zero]
      refine (hsearch.next (by omega) (by omega) ?_).ranges hslot
      by_cases hlast : n ≤ 16 * (72 + 64 * i + 64)
      · rw [Nat.min_eq_left hlast, if_pos (Nat.sub_self n), if_pos (Nat.sub_self n)]
        exact Lookup.stop ..
      · have hnext : 16 * (72 + 64 * i + 64) = 16 * (72 + 64 * (i + 1)) := by omega
        have hmore : ¬ n - 16 * (72 + 64 * (i + 1)) = 0 := by omega
        rw [Nat.min_eq_right (by omega), hnext, if_neg hmore, if_neg hmore]
        exact ih (by omega) (by omega)

theorem isExist {i : ℕ} (h : DirectoryListing st (st.inode i) n entry) (hi : i < inodeListNum)
    (hnul : (0 : UInt8) ∉ filename) (hlength : filename.length ≤ 13) (d : ℤ) :
    Lookup st (st.inode i) entry filename n d 0 n (Filesys.isExist st filename i d)
      (isExistReads st filename (st.inode i) d) := by
  have hcapacity := h.capacity
  have hshort : ¬ filename.length > 13 := by omega
  have hchild : (toInt (st.inode i).size).tdiv 16 = (n : ℤ) := by
    rw [h.size, toInt_of_lt (by omega), Int.tdiv_eq_ediv_of_nonneg (by omega)]
    omega
  rw [Filesys.isExist, isExistReads, if_neg hshort, Store.inodeAt_eq hi, Option.bind_eq_bind,
    Option.bind_some, hchild, Int.toNat_natCast]
  by_cases hempty : (n : ℤ) ≤ 0
  · obtain rfl : n = 0 := by omega
    have hstop := Lookup.stop st (st.inode i) entry filename 0 d 0
    rw [Nat.cast_zero, add_zero] at hstop
    rw [if_pos hempty, if_pos (.inr hempty)]
    exact hstop
  · have hdirect : ∀ k < 8, 16 * (0 + k) < n →
        some ((st.inode i).location k) = some (st.logicalPtr (st.inode i) (0 + k)) ∧
          ∀ range ∈ ([] : List (ℕ × ℕ)), st.InEntries (st.inode i) n range := by
      intro k hk _
      rw [Nat.zero_add, Store.logicalPtr, if_pos hk]
      exact ⟨rfl, fun range hrange ↦ by cases hrange⟩
    have hsingle : ∀ k < 64, 16 * (8 + k) < n →
        st.loadWord ((st.inode i).location 8 + 4 * k) 4 =
            some (st.logicalPtr (st.inode i) (8 + k)) ∧
          ∀ range ∈ indexSlot ((st.inode i).location 8) k, st.InEntries (st.inode i) n range := by
      intro k hk hkn
      have hoff : 8 + k - 8 = k := by omega
      refine ⟨?_, ?_⟩
      · rw [loadWord_entry ((h.mapped_block hkn).single (by omega) (by omega)) hk,
          Store.logicalPtr, if_neg (by omega), if_pos (by omega), hoff]
      · intro range hrange
        obtain rfl := List.mem_singleton.mp hrange
        have hblock : 16 * (8 + k) / 16 = 8 + k := by omega
        refine ⟨16 * (8 + k), hkn, .inr (.inl ⟨by omega, by omega, ?_⟩)⟩
        rw [hblock, hoff]
    have hfirst := h.search hnul hlength d hdirect (show 0 + 8 = 8 by omega)
    simp only [Nat.zero_add, Nat.mul_zero, Nat.min_zero, Nat.sub_zero, Nat.cast_zero,
      add_zero] at hfirst
    rw [if_neg hempty, if_neg (not_or.mpr ⟨hshort, hempty⟩)]
    apply hfirst.next (Nat.zero_le _) (Nat.min_le_left ..)
    by_cases hsmall : n ≤ 16 * 8
    · rw [Nat.min_eq_left hsmall, if_pos (Nat.sub_self n), if_pos (.inl (Nat.sub_self n))]
      exact Lookup.stop ..
    · have hmore : ¬ n - 16 * 8 = 0 := by omega
      have hindex := ((h.mapped_block (show 16 * 8 < n by omega)).single (by omega)
        (by omega)).ne_zero
      have hsecond := h.search hnul hlength d hsingle (show 0 + 64 = 64 by omega)
      rw [Nat.add_zero, Nat.min_eq_right (show 16 * 8 ≤ n by omega)] at hsecond
      rw [Nat.min_eq_right (show 16 * 8 ≤ n by omega), if_neg hmore, if_neg hindex,
        if_neg (not_or.mpr ⟨hmore, hindex⟩)]
      apply hsecond.next (by omega) (Nat.min_le_left ..)
      by_cases hmedium : n ≤ 16 * 72
      · rw [Nat.min_eq_left hmedium, if_pos (Nat.sub_self n), if_pos (.inl (Nat.sub_self n))]
        exact Lookup.stop ..
      · have hmore : ¬ n - 16 * 72 = 0 := by omega
        have hindex := ((h.mapped_block (show 16 * 72 < n by omega)).double (by omega)).ne_zero
        rw [Nat.min_eq_right (show 16 * (8 + 64) ≤ n by omega), if_neg hmore, if_neg hindex,
          if_neg (not_or.mpr ⟨hmore, hindex⟩)]
        exact h.searchDouble hnul hlength d (show 0 + 64 = 64 by omega) (by omega)

end DirectoryListing

/-! ## Lookup is a linear search -/

/-- `isExist` with `*directory_index == -1` answers as a linear search of the
entries does, and reads only the entries and the pointers to their blocks. -/
theorem isExist_linear {st : Store area} {i n : ℕ} {entry : ℕ → List UInt8 × ℕ}
    {filename : List UInt8} (h : DirectoryListing st (st.inode i) n entry) (hi : i < inodeListNum)
    (hnul : (0 : UInt8) ∉ filename) (hlength : filename.length ≤ 13) :
    ∃ r, isExist st filename i (-1) = some r ∧
      (match (List.range n).find? fun k ↦ (entry k).1 = filename with
        | some k => r.ans = (entry k).2 ∧ r.directoryIndex = k
        | none => r.ans = ERROR) ∧
      ∀ range ∈ isExistReads st filename (st.inode i) (-1), st.InEntries (st.inode i) n range := by
  obtain ⟨r, hr, hscan, hreads⟩ := h.isExist hi hnul hlength (-1)
  refine ⟨r, hr, ?_, hreads⟩
  rcases hscan with ⟨k, -, hkn, hname, hfirst⟩ | hnone
  · have hfind : (List.range n).find? (fun k ↦ (entry k).1 = filename) = some k := by
      rw [List.find?_range_eq_some]
      refine ⟨by simpa using hname, List.mem_range.mpr hkn, fun l hl ↦ ?_⟩
      simpa using hfirst l (Nat.zero_le l) hl
    rw [hfind]
    exact ⟨rfl, by dsimp only; omega⟩
  · have hfind : (List.range n).find? (fun k ↦ (entry k).1 = filename) = none := by
      rw [List.find?_range_eq_none]
      intro l hl
      simpa using hnone l (Nat.zero_le l) hl
    rw [hfind]

/-! ## A directory in two blocks -/

/-- Inode 1 is a directory of `n` entries in the blocks from 0 on: the entry of
number `k` is called by one letter and belongs to inode `k + 2`. -/
def sampleDirectory (n : ℕ) : Store sampleArea where
  superblock := (initDatastructure sampleArea).superblock
  inode := Function.update (fun _ ↦ zeroInode) 1
    { zeroInode with
      type := .dir
      size := 16 * n
      location := fun k ↦ if k < 8 then sampleArea.blockAddr k else 0
      operation := 0x100
      blockNumber := (16 * n / 256 : ℕ)
      lastBlockOffset := (16 * n % 256 : ℕ) }
  bitmap := fun _ ↦ 0xff
  space := fun x ↦
    let off := x - sampleArea.spacePtr
    if off % 16 = 0 then UInt8.ofNat (65 + off / 16)
    else if off % 16 = 14 then UInt8.ofNat (off / 16 + 2) else 0

def sampleEntry (k : ℕ) : List UInt8 × ℕ := ([UInt8.ofNat (65 + k)], k + 2)

theorem sampleDirectory_space (n : ℕ) {k j : ℕ} (hj : j < 16) :
    (sampleDirectory n).space (sampleArea.spacePtr + 16 * k + j) =
      if j = 0 then UInt8.ofNat (65 + k) else if j = 14 then UInt8.ofNat (k + 2) else 0 := by
  have hoff : sampleArea.spacePtr + 16 * k + j - sampleArea.spacePtr = 16 * k + j := by omega
  have hdiv : (16 * k + j) / 16 = k := by omega
  have hmod : (16 * k + j) % 16 = j := by omega
  simp only [sampleDirectory, hoff, hdiv, hmod]

theorem sampleDirectory_listing {n : ℕ} (hn : n ≤ 128) :
    DirectoryListing (sampleDirectory n) ((sampleDirectory n).inode 1) n sampleEntry := by
  have hptr : ∀ k < 8, (sampleDirectory n).logicalPtr ((sampleDirectory n).inode 1) k =
      sampleArea.blockAddr k := by
    intro k hk
    simp [Store.logicalPtr, sampleDirectory, hk]
  have hsize : ((sampleDirectory n).inode 1).size = 16 * n := by simp [sampleDirectory]
  refine ⟨hsize, ?_, ?_⟩
  · intro k hk
    rw [hsize, blockCount] at hk
    refine ⟨by omega, ?_, fun hlow ↦ by omega, fun hlow ↦ by omega, fun hlow ↦ by omega⟩
    rw [hptr k (by omega)]
    exact holds_block (by simp only [allocatableSpaceSize]; omega)
  · intro k hk
    have haddr : (sampleDirectory n).entryPtr ((sampleDirectory n).inode 1) k =
        sampleArea.spacePtr + 16 * k := by
      rw [Store.entryPtr, hptr _ (by omega), Area.blockAddr]
      simp only [blockSize]
      omega
    have hbyte := fun j hj ↦ @sampleDirectory_space n k j hj
    have hletter : UInt8.ofNat (65 + k) ≠ 0 := by
      intro hzero
      have hnat := congrArg UInt8.toNat hzero
      simp only [UInt8.toNat_ofNat', UInt8.toNat_zero] at hnat
      omega
    rw [haddr]
    refine ⟨stringAt_cons.mpr ⟨hletter, hbyte 0 (by omega), stringAt_nil.mpr (hbyte 1 (by omega))⟩,
      by simp [sampleEntry], ?_⟩
    have hword : readBytes (sampleDirectory n).space (sampleArea.spacePtr + 16 * k + 14) 2 =
        [UInt8.ofNat (k + 2), 0] := by
      rw [readBytes_succ, readBytes_succ, hbyte 14 (by omega), Nat.add_assoc, hbyte 15 (by omega)]
      rfl
    rw [hword]
    simp only [leValue, UInt8.toNat_ofNat', UInt8.toNat_zero, sampleEntry]
    omega

/-- The last entry, the fourth one of the second block. -/
theorem isExist_linear_secondBlock : ∃ r, isExist (sampleDirectory 20) [84] 1 (-1) = some r ∧
    r.ans = 21 ∧ r.directoryIndex = 19 := by
  obtain ⟨r, hr, hfound, -⟩ := @isExist_linear _ (sampleDirectory 20) 1 20 sampleEntry [84]
    (sampleDirectory_listing (by omega)) (by simp) (by decide) (by decide)
  exact ⟨r, hr, hfound⟩

end OperatingSystem.Filesys
