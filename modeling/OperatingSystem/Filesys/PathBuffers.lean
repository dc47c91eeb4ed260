import OperatingSystem.Filesys.ClimbingPaths

/-!
# Path buffers

The writes to the arrays of fixed size that pathnames and current paths are copied
to: `parentlist[20]`, filled by `read_pathname` for every operation with a pathname,
`backup[1024]` and `temppath[1024]` of `rd_open`, and `current_path[100]` of
`ramdisk_ioctl`. Nothing is checked before they are filled.
-/

namespace OperatingSystem.Filesys

variable {area : Area}

inductive PathBuffer where
  | parentlist
  | backup
  | temppath
  | currentPath
  deriving DecidableEq

def PathBuffer.size : PathBuffer → ℕ
  | .parentlist => 20
  | .backup => 1024
  | .temppath => 1024
  | .currentPath => 100

/-! ## The writes of a call -/

/-- The elements that `strcpy` writes, the terminator included. -/
def strcpyWrites (buffer : PathBuffer) (start : ℕ) (s : List UInt8) : List (PathBuffer × ℕ) :=
  (List.range (s.length + 1)).map fun i ↦ (buffer, start + i)

/-- The loop of `read_pathname` from the slot `k` on. -/
def partitionWrites : List UInt8 → ℕ → List (PathBuffer × ℕ)
  | [], _ => []
  | c :: cs, k =>
      if c = 47 then (.parentlist, k) :: partitionWrites cs (k + 1) else partitionWrites cs k

def readPathnameWrites (fdt : FDT) (pathname : List UInt8) : List (PathBuffer × ℕ) :=
  if (stripBack pathname).1 > 0 ∧ (stripBack pathname).1 > layerCheck fdt.curPath then []
  else partitionWrites (remainder pathname) 0

/-- How much of the pathname `rd_open` does not append. -/
def skippedLength (pathname : List UInt8) : ℕ :=
  let b := 3 * (stripBack pathname).1
  if [46, 47].isPrefixOf pathname then b + 2 else b

/-- The writes to `temppath`, up to a scan for a slash that leaves the array. -/
def buildPathWrites (curPath pathname : List UInt8) : List (PathBuffer × ℕ) :=
  strcpyWrites .temppath 0 curPath ++
    (if curPath = [47] then []
      else [(.temppath, curPath.length), (.temppath, curPath.length + 1)]) ++
    (backUps (temppath curPath) (stripBack pathname).1 (temppath curPath).length).elim []
      fun t ↦
        if [47].isPrefixOf pathname then
          strcpyWrites .temppath 1 (pathname.drop (skippedLength pathname + 1))
        else strcpyWrites .temppath t (pathname.drop (skippedLength pathname))

/-- `rd_open` gets as far as building the path. -/
def acceptsOpen (s : State area) (fdt : FDT) (pathname : List UInt8) (flag : ℤ) : Bool :=
  match lookup s.store fdt pathname with
  | some (some (_, i)) => isOpen s.fdtList i = some SUCCESS &&
      (s.store.inodeAt i).any fun ino ↦ ¬ AccessDenied ino.mode flag
  | _ => false

def rdOpenWrites (cur : Process) (pathname : List UInt8) (flag : ℤ) (s : State area) :
    List (PathBuffer × ℕ) :=
  let (fdt, s) := getFDT cur s
  strcpyWrites .backup 0 pathname ++ readPathnameWrites fdt pathname ++
    if acceptsOpen s fdt pathname flag then buildPathWrites fdt.curPath pathname else []

def createWrites (cur : Process) (pathname : List UInt8) (s : State area) :
    List (PathBuffer × ℕ) :=
  if s.store.superblock.freeBlockNumber < 1 ∨ s.store.superblock.freeInodeNumber < 1 then []
  else readPathnameWrites (getFDT cur s).1 pathname

def rdUnlinkWrites (cur : Process) (pathname : List UInt8) (s : State area) :
    List (PathBuffer × ℕ) :=
  if pathname = [47] then [] else readPathnameWrites (getFDT cur s).1 pathname

/-- All writes of one `ramdisk_ioctl` to the path buffers, in their order. -/
def bufferWrites (s : State area) (e : Event) : List (PathBuffer × ℕ) :=
  match e.call with
  | .pwd => strcpyWrites .currentPath 0 (rdPwd e.cur s).1
  | .creat pathname _ _ => createWrites e.cur pathname.chars s
  | .mkdir pathname _ => createWrites e.cur pathname.chars s
  | .openPath pathname flag => rdOpenWrites e.cur pathname.chars flag s
  | .unlink pathname => rdUnlinkWrites e.cur pathname.chars s
  | .chmod pathname _ => readPathnameWrites (getFDT e.cur s).1 pathname.chars
  | _ => []

/-- The walk back over `temppath` leaves the array at its beginning: `rd_open` goes on
below it, and writes behind the first slash that it finds there. -/
def ScanLeaves (s : State area) (e : Event) : Prop :=
  match e.call with
  | .openPath pathname flag =>
      let (fdt, s) := getFDT e.cur s
      acceptsOpen s fdt pathname.chars flag ∧
        backUps (temppath fdt.curPath) (stripBack pathname.chars).1
          (temppath fdt.curPath).length = none
  | _ => False

/-- Every write of the call stays inside its buffer, no write follows from a scan that
left the buffer, and a slot of `parentlist` is left `NULL` for the loops of the callers. -/
structure InsideBuffers (s : State area) (e : Event) : Prop where
  inside : ∀ w ∈ bufferWrites s e, w.2 < w.1.size
  scan : ¬ ScanLeaves s e
  terminator : ∃ k < 20, (.parentlist, k) ∉ bufferWrites s e

/-! ## When they fit -/

/-- `read_pathname` rejects the pathname, or at most 19 slashes follow its
prefixes. -/
def SlotsFit (fdt : FDT) (pathname : List UInt8) : Prop :=
  layerCheck fdt.curPath < (stripBack pathname).1 ∨ (remainder pathname).count 47 ≤ 19

/-- The length of a path that is left without its last `k` pieces, with a slash after
every piece. -/
def keptLength (k : ℕ) (path : List UInt8) : ℕ :=
  (((segments path).reverse.drop k).map fun piece ↦ piece.length + 1).sum

/-- There is a slash to go back to for each `"../"`, the current path fits with a slash
behind it, and so does what is left of it after the `"../"` prefixes with the rest of a
relative pathname behind it. -/
def PathFits (curPath pathname : List UInt8) : Prop :=
  ((stripBack pathname).1 ≤ layerCheck curPath ∧ (curPath = [47] → (stripBack pathname).1 = 0)) ∧
  (curPath = [47] ∨ curPath.length ≤ 1022) ∧
    ([47].isPrefixOf pathname ∨ keptLength (stripBack pathname).1 (temppath curPath).dropLast +
      (pathname.length - skippedLength pathname) ≤ 1023)

/-- The condition on a call under which its buffers are large enough. -/
def CallFits (s : State area) (e : Event) : Prop :=
  let fdt := (getFDT e.cur s).1
  let noneFree := s.store.superblock.freeBlockNumber < 1 ∨ s.store.superblock.freeInodeNumber < 1
  match e.call with
  | .pwd => fdt.curPath.length ≤ 99
  | .creat pathname _ _ => noneFree ∨ SlotsFit fdt pathname.chars
  | .mkdir pathname _ => noneFree ∨ SlotsFit fdt pathname.chars
  | .openPath pathname flag => pathname.chars.length ≤ 1023 ∧ SlotsFit fdt pathname.chars ∧
      (acceptsOpen (getFDT e.cur s).2 fdt pathname.chars flag →
        PathFits fdt.curPath pathname.chars)
  | .unlink pathname => pathname.chars = [47] ∨ SlotsFit fdt pathname.chars
  | .chmod pathname _ => SlotsFit fdt pathname.chars
  | _ => True

/-! ## Lengths of pieces -/

theorem sum_segments (path : List UInt8) :
    ((segments path).map fun piece ↦ piece.length + 1).sum = path.length + 1 := by
  induction path with
  | nil => rfl
  | cons c path ih =>
      by_cases hc : c = 47
      · have hpieces : segments (c :: path) = [] :: segments path := by
          simp [segments, partition, hc]
        rw [hpieces, List.map_cons, List.sum_cons, ih, List.length_nil, List.length_cons]
        omega
      · rw [List.length_cons, ← ih]
        simp only [segments, partition, if_neg hc]
        rcases partition path with ⟨_ | ⟨piece, pieces⟩, last⟩
        · rfl
        · simp only [List.cons_append, List.map_cons, List.sum_cons, List.length_cons]
          omega

theorem keptLength_zero (path : List UInt8) : keptLength 0 path = path.length + 1 := by
  rw [keptLength, List.drop_zero, List.map_reverse, List.sum_reverse, sum_segments]

theorem keptLength_lastSlash {k : ℕ} {u v : List UInt8} (hv : (47 : UInt8) ∉ v) :
    keptLength (k + 1) (u ++ 47 :: v) = keptLength k u := by
  rw [keptLength, segments_append_slash, segments_of_noSlash hv, List.reverse_append,
    List.reverse_singleton, List.singleton_append, List.drop_succ_cons, keptLength]

theorem backUps_length {k t : ℕ} {p rest : List UInt8}
    (h : backUps (p ++ 47 :: rest) k (p.length + 1) = some t) : t = keptLength k p := by
  induction k generalizing p rest with
  | zero =>
      obtain rfl := Option.some.inj h
      exact (keptLength_zero p).symm
  | succ k ih =>
      obtain ⟨t', ht', h⟩ := Option.bind_eq_some_iff.mp h
      obtain ⟨u, v, rfl, hv, rfl⟩ := backUp_eq_some ht'
      rw [List.append_assoc, List.cons_append] at h
      rw [ih h, keptLength_lastSlash hv]

theorem keptLength_le (k : ℕ) (path : List UInt8) : keptLength k path ≤ path.length + 1 := by
  rw [← keptLength_zero, keptLength, keptLength, List.drop_zero]
  exact ((List.drop_sublist _ _).map _).sum_le_sum fun _ _ ↦ Nat.zero_le _

theorem keptLength_eq_zero {k : ℕ} {path : List UInt8} (h : path.count 47 < k) :
    keptLength k path = 0 := by
  have hlength : (segments path).reverse.length ≤ k := by
    rw [List.length_reverse, segments, List.length_append, length_partition, List.length_singleton]
    omega
  rw [keptLength, List.drop_of_length_le hlength]
  rfl

/-! ## Writes inside a buffer -/

theorem forall_strcpyWrites {buffer : PathBuffer} {start : ℕ} {s : List UInt8} :
    (∀ w ∈ strcpyWrites buffer start s, w.2 < w.1.size) ↔ start + s.length < buffer.size := by
  simp only [strcpyWrites, List.forall_mem_map, List.mem_range]
  constructor
  · exact fun h ↦ h s.length (by omega)
  · intro h i hi
    omega

theorem slot_notMem_strcpyWrites {buffer : PathBuffer} {start k : ℕ} {s : List UInt8}
    (hne : buffer ≠ .parentlist) : (.parentlist, k) ∉ strcpyWrites buffer start s := by
  intro hmem
  obtain ⟨i, -, heq⟩ := List.mem_map.mp hmem
  exact hne (Prod.ext_iff.mp heq).1

theorem partitionWrites_eq (pn : List UInt8) (k : ℕ) :
    partitionWrites pn k = (List.range' k (pn.count 47)).map (Prod.mk .parentlist) := by
  induction pn generalizing k with
  | nil => rfl
  | cons c pn ih =>
      by_cases hc : c = 47
      · subst hc
        rw [partitionWrites, if_pos rfl, ih, List.count_cons_self, List.range'_succ, List.map_cons]
      · rw [partitionWrites, if_neg hc, ih, List.count_cons_of_ne hc]

/-- All slots are inside and one is left if at most 19 are filled. -/
theorem partitionWrites_fit {pn : List UInt8} :
    ((∀ w ∈ partitionWrites pn 0, w.2 < w.1.size) ∧
      ∃ k < 20, (PathBuffer.parentlist, k) ∉ partitionWrites pn 0) ↔ pn.count 47 ≤ 19 := by
  have hslot : ∀ k, (PathBuffer.parentlist, k) ∈ partitionWrites pn 0 ↔ k < pn.count 47 := by
    intro k
    rw [partitionWrites_eq, List.mem_map_of_injective (Prod.mk_right_injective _),
      List.mem_range'_1]
    omega
  constructor
  · rintro ⟨-, k, hk, hfree⟩
    rw [hslot] at hfree
    omega
  · intro hcount
    refine ⟨?_, pn.count 47, by omega, fun hmem ↦ Nat.lt_irrefl _ ((hslot _).mp hmem)⟩
    rw [partitionWrites_eq, List.forall_mem_map]
    intro k hk
    have hk := (List.mem_range'_1.mp hk).2
    exact show k < 20 by omega

theorem readPathnameWrites_fit {fdt : FDT} {pathname : List UInt8} :
    ((∀ w ∈ readPathnameWrites fdt pathname, w.2 < w.1.size) ∧
      ∃ k < 20, (PathBuffer.parentlist, k) ∉ readPathnameWrites fdt pathname) ↔
      SlotsFit fdt pathname := by
  rw [readPathnameWrites, SlotsFit]
  split
  · next hrejected =>
    refine iff_of_true ⟨fun w hw ↦ (List.not_mem_nil hw).elim, 0, by omega, List.not_mem_nil⟩ ?_
    exact .inl hrejected.2
  · next hrejected =>
    rw [partitionWrites_fit]
    exact (or_iff_right fun hmore ↦ hrejected ⟨by omega, hmore⟩).symm

/-- Writes elsewhere do not touch `parentlist`. -/
theorem insideBuffers_append {l m : List (PathBuffer × ℕ)}
    (hother : ∀ k, (PathBuffer.parentlist, k) ∉ m) :
    ((∀ w ∈ l ++ m, w.2 < w.1.size) ∧ ∃ k < 20, (PathBuffer.parentlist, k) ∉ l ++ m) ↔
      ((∀ w ∈ l, w.2 < w.1.size) ∧ ∃ k < 20, (PathBuffer.parentlist, k) ∉ l) ∧
        ∀ w ∈ m, w.2 < w.1.size := by
  have hslot : ∀ k, (PathBuffer.parentlist, k) ∉ l ++ m ↔ (PathBuffer.parentlist, k) ∉ l := by
    intro k
    rw [List.mem_append, or_iff_left (hother k)]
  simp only [hslot, List.forall_mem_append]
  exact and_right_comm

theorem forall_temppathWrites {curPath : List UInt8} :
    (∀ w ∈ strcpyWrites .temppath 0 curPath ++ (if curPath = [47] then []
      else [(.temppath, curPath.length), (.temppath, curPath.length + 1)]), w.2 < w.1.size) ↔
      curPath = [47] ∨ curPath.length ≤ 1022 := by
  rw [List.forall_mem_append, forall_strcpyWrites]
  simp only [PathBuffer.size]
  split
  · next hroot =>
    subst hroot
    exact iff_of_true ⟨by decide, fun w hw ↦ (List.not_mem_nil hw).elim⟩ (.inl rfl)
  · next hroot =>
    rw [or_iff_right hroot, List.forall_mem_cons, List.forall_mem_singleton]
    dsimp only
    omega

theorem dropLast_temppath (curPath : List UInt8) :
    temppath curPath = (temppath curPath).dropLast ++ 47 :: [] := by
  rw [temppath]
  split
  · next hroot =>
    rw [hroot]
    rfl
  · rw [List.dropLast_concat]

theorem forall_appendWrites {curPath pathname : List UInt8} (hlength : pathname.length ≤ 1023) :
    (∀ w ∈ (backUps (temppath curPath) (stripBack pathname).1 (temppath curPath).length).elim []
      fun t ↦
        if [47].isPrefixOf pathname then
          strcpyWrites .temppath 1 (pathname.drop (skippedLength pathname + 1))
        else strcpyWrites .temppath t (pathname.drop (skippedLength pathname)),
      w.2 < w.1.size) ↔
      [47].isPrefixOf pathname ∨ keptLength (stripBack pathname).1 (temppath curPath).dropLast +
        (pathname.length - skippedLength pathname) ≤ 1023 := by
  have htemp := dropLast_temppath curPath
  have hsize : (temppath curPath).length = (temppath curPath).dropLast.length + 1 := by
    rw [congrArg List.length htemp, List.length_append, List.length_singleton]
  rcases hback : backUps (temppath curPath) (stripBack pathname).1 (temppath curPath).length with
    _ | t
  · -- more `"../"` than slashes: nothing of `cur_path` would be left
    have hcount : (temppath curPath).dropLast.count 47 < (stripBack pathname).1 := by
      by_contra hle
      rw [hsize, htemp, List.dropLast_concat] at hback
      obtain ⟨t, ht⟩ := backUps_defined.mpr (not_lt.mp hle)
      cases hback.symm.trans ht
    rw [Option.elim_none, keptLength_eq_zero hcount]
    exact iff_of_true (fun w hw ↦ (List.not_mem_nil hw).elim) (.inr (by omega))
  · rw [Option.elim_some]
    by_cases hslash : [47].isPrefixOf pathname = true
    · refine iff_of_true ?_ (.inl hslash)
      rw [if_pos hslash, forall_strcpyWrites, List.length_drop]
      simp only [PathBuffer.size]
      omega
    · rw [if_neg hslash, or_iff_right hslash, forall_strcpyWrites, List.length_drop]
      rw [hsize, htemp, List.dropLast_concat] at hback
      rw [backUps_length hback]
      simp only [PathBuffer.size]
      omega

theorem buildPathWrites_fit {curPath pathname : List UInt8} (hlength : pathname.length ≤ 1023) :
    ((∀ w ∈ buildPathWrites curPath pathname, w.2 < w.1.size) ∧
      backUps (temppath curPath) (stripBack pathname).1 (temppath curPath).length ≠ none) ↔
      PathFits curPath pathname := by
  rw [buildPathWrites, List.forall_mem_append, forall_temppathWrites, forall_appendWrites hlength,
    Option.ne_none_iff_exists', backUps_temppath, and_comm]
  exact Iff.rfl

theorem slot_notMem_buildPathWrites {curPath pathname : List UInt8} {k : ℕ} :
    (PathBuffer.parentlist, k) ∉ buildPathWrites curPath pathname := by
  have hcopy : ∀ start s, (PathBuffer.parentlist, k) ∉ strcpyWrites .temppath start s :=
    fun start s ↦ slot_notMem_strcpyWrites (by decide)
  rw [buildPathWrites, List.mem_append, List.mem_append, not_or, not_or]
  refine ⟨⟨hcopy _ _, ?_⟩, ?_⟩
  · split
    · exact List.not_mem_nil
    · simp
  · rcases backUps (temppath curPath) (stripBack pathname).1 (temppath curPath).length with _ | t
    · exact List.not_mem_nil
    · rw [Option.elim_some]
      split
      · exact hcopy _ _
      · exact hcopy _ _

/-! ## Every call -/

section Calls

variable {s : State area}

theorem noWrites_fit : (∀ w ∈ ([] : List (PathBuffer × ℕ)), w.2 < w.1.size) ∧
    ∃ k < 20, (PathBuffer.parentlist, k) ∉ ([] : List (PathBuffer × ℕ)) :=
  ⟨fun _ hw ↦ (List.not_mem_nil hw).elim, 0, by omega, List.not_mem_nil⟩

theorem createWrites_fit {cur : Process} {pathname : List UInt8} :
    ((∀ w ∈ createWrites cur pathname s, w.2 < w.1.size) ∧
      ∃ k < 20, (PathBuffer.parentlist, k) ∉ createWrites cur pathname s) ↔
      (s.store.superblock.freeBlockNumber < 1 ∨ s.store.superblock.freeInodeNumber < 1) ∨
        SlotsFit (getFDT cur s).1 pathname := by
  rw [createWrites]
  split
  · next hfull => exact iff_of_true noWrites_fit (.inl hfull)
  · next hfull => rw [readPathnameWrites_fit, or_iff_right hfull]

theorem rdUnlinkWrites_fit {cur : Process} {pathname : List UInt8} :
    ((∀ w ∈ rdUnlinkWrites cur pathname s, w.2 < w.1.size) ∧
      ∃ k < 20, (PathBuffer.parentlist, k) ∉ rdUnlinkWrites cur pathname s) ↔
      pathname = [47] ∨ SlotsFit (getFDT cur s).1 pathname := by
  rw [rdUnlinkWrites]
  split
  · next hroot => exact iff_of_true noWrites_fit (.inl hroot)
  · next hroot => rw [readPathnameWrites_fit, or_iff_right hroot]

theorem rdOpenWrites_fit {cur : Process} {pathname : List UInt8} {flag : ℤ} :
    (((∀ w ∈ rdOpenWrites cur pathname flag s, w.2 < w.1.size) ∧
      ∃ k < 20, (PathBuffer.parentlist, k) ∉ rdOpenWrites cur pathname flag s) ∧
      ¬ (acceptsOpen (getFDT cur s).2 (getFDT cur s).1 pathname flag ∧
        backUps (temppath (getFDT cur s).1.curPath) (stripBack pathname).1
          (temppath (getFDT cur s).1.curPath).length = none)) ↔
      pathname.length ≤ 1023 ∧ SlotsFit (getFDT cur s).1 pathname ∧
        (acceptsOpen (getFDT cur s).2 (getFDT cur s).1 pathname flag →
          PathFits (getFDT cur s).1.curPath pathname) := by
  have hbackup : ∀ k, (PathBuffer.parentlist, k) ∉ strcpyWrites .backup 0 pathname :=
    fun k ↦ slot_notMem_strcpyWrites (by decide)
  have hbuild : ∀ k, (PathBuffer.parentlist, k) ∉
      if acceptsOpen (getFDT cur s).2 (getFDT cur s).1 pathname flag then
        buildPathWrites (getFDT cur s).1.curPath pathname else [] := by
    intro k
    split
    · exact slot_notMem_buildPathWrites
    · exact List.not_mem_nil
  have hslots : ∀ k, (PathBuffer.parentlist, k) ∉ strcpyWrites .backup 0 pathname ++
      readPathnameWrites (getFDT cur s).1 pathname ↔
      (PathBuffer.parentlist, k) ∉ readPathnameWrites (getFDT cur s).1 pathname := by
    intro k
    rw [List.mem_append, or_iff_right (hbackup k)]
  have hread := @readPathnameWrites_fit (getFDT cur s).1 pathname
  have hcopied : 0 + pathname.length < PathBuffer.backup.size ↔ pathname.length ≤ 1023 := by
    simp only [PathBuffer.size]
    omega
  rw [rdOpenWrites]
  dsimp only
  rw [insideBuffers_append hbuild, List.forall_mem_append, forall_strcpyWrites, hcopied]
  simp only [hslots]
  rw [and_assoc (a := pathname.length ≤ 1023), hread, and_assoc, and_assoc]
  refine and_congr_right fun hlength ↦ and_congr_right fun _ ↦ ?_
  by_cases haccepts : acceptsOpen (getFDT cur s).2 (getFDT cur s).1 pathname flag = true
  · rw [if_pos haccepts, ← buildPathWrites_fit hlength]
    exact ⟨fun h _ ↦ ⟨h.1, fun hnone ↦ h.2 ⟨haccepts, hnone⟩⟩,
      fun h ↦ ⟨(h haccepts).1, fun hleaves ↦ (h haccepts).2 hleaves.2⟩⟩
  · rw [if_neg haccepts]
    exact iff_of_true ⟨noWrites_fit.1, fun hleaves ↦ haccepts hleaves.1⟩ fun h ↦ (haccepts h).elim

/-- One call stays inside its buffers exactly if they are large enough for it. -/
theorem insideBuffers_iff (s : State area) (e : Event) : InsideBuffers s e ↔ CallFits s e := by
  have hboth : InsideBuffers s e ↔ ((∀ w ∈ bufferWrites s e, w.2 < w.1.size) ∧
      ∃ k < 20, (PathBuffer.parentlist, k) ∉ bufferWrites s e) ∧ ¬ ScanLeaves s e :=
    ⟨fun h ↦ ⟨⟨h.inside, h.terminator⟩, h.scan⟩, fun h ↦ ⟨h.1.1, h.2, h.1.2⟩⟩
  rw [hboth]
  obtain ⟨cur, call⟩ := e
  -- only `rd_open` walks back over a path
  by_cases hopen : ∃ pathname flag, call = .openPath pathname flag
  · obtain ⟨pathname, flag, rfl⟩ := hopen
    exact rdOpenWrites_fit
  have hscan : ¬ ScanLeaves s ⟨cur, call⟩ := by
    cases call with
    | openPath pathname flag => exact fun _ ↦ hopen ⟨pathname, flag, rfl⟩
    | _ => exact id
  rw [and_iff_left hscan]
  cases call with
  | pwd =>
      have hother : ∀ k, (PathBuffer.parentlist, k) ∉ strcpyWrites .currentPath 0 (rdPwd cur s).1 :=
        fun k ↦ slot_notMem_strcpyWrites (by decide)
      have hfree : ∃ k < 20, (PathBuffer.parentlist, k) ∉
          strcpyWrites .currentPath 0 (rdPwd cur s).1 := ⟨0, by omega, hother 0⟩
      refine (and_iff_left hfree).trans (forall_strcpyWrites.trans ?_)
      simp only [PathBuffer.size, CallFits, rdPwd]
      omega
  | creat pathname mode fresh => exact createWrites_fit
  | mkdir pathname fresh => exact createWrites_fit
  | openPath pathname flag => exact (hopen ⟨pathname, flag, rfl⟩).elim
  | close fd => exact iff_of_true noWrites_fit trivial
  | read fd numBytes => exact iff_of_true noWrites_fit trivial
  | write fd input => exact iff_of_true noWrites_fit trivial
  | lseek fd position => exact iff_of_true noWrites_fit trivial
  | unlink pathname => exact rdUnlinkWrites_fit
  | chmod pathname mode => exact readPathnameWrites_fit

end Calls

/-! ## Completed calls -/

theorem readPathname_within {st : Store area} {fdt : FDT} {pathname : List UInt8}
    {parsed : ParsedPath} (h : readPathname st fdt pathname = some parsed) :
    ∀ w ∈ readPathnameWrites fdt pathname, w.2 < w.1.size := by
  obtain ⟨head, -, h⟩ := Option.bind_eq_some_iff.mp h
  dsimp only at h
  rw [readPathnameWrites]
  split at h
  · next hrejected =>
    rw [if_pos hrejected]
    exact noWrites_fit.1
  · next hrejected =>
    obtain ⟨d, -, h⟩ := Option.bind_eq_some_iff.mp h
    split at h
    · next hparts =>
      have hcount : (remainder pathname).count 47 ≤ 20 := by
        rw [← length_partition]
        exact hparts
      rw [if_neg hrejected, partitionWrites_eq, List.forall_mem_map]
      intro k hk
      have hk := (List.mem_range'_1.mp hk).2
      exact show k < 20 by omega
    · cases h

theorem resolve_within {st : Store area} {fdt : FDT} {pathname : List UInt8}
    {r : Option (ℕ × List UInt8 × ℤ)} (h : resolve st fdt pathname = some r) :
    ∀ w ∈ readPathnameWrites fdt pathname, w.2 < w.1.size := by
  obtain ⟨parsed, hparsed, -⟩ := Option.bind_eq_some_iff.mp h
  exact readPathname_within hparsed

theorem lookup_within {st : Store area} {fdt : FDT} {pathname : List UInt8}
    {r : Option (List UInt8 × ℕ)} (h : lookup st fdt pathname = some r) :
    ∀ w ∈ readPathnameWrites fdt pathname, w.2 < w.1.size := by
  obtain ⟨found, hfound, -⟩ := Option.bind_eq_some_iff.mp h
  exact resolve_within hfound

theorem pathFits_of_buildPath {curPath pathname path : List UInt8}
    (h : buildPath curPath pathname = some path) : PathFits curPath pathname := by
  simp only [buildPath] at h
  obtain ⟨t, ht, h⟩ := Option.bind_eq_some_iff.mp h
  have htemp := dropLast_temppath curPath
  have hsize : (temppath curPath).length = (temppath curPath).dropLast.length + 1 := by
    rw [congrArg List.length htemp, List.length_append, List.length_singleton]
  change backUps (temppath curPath) _ (temppath curPath).length = some t at ht
  have hback := ht
  rw [hsize, htemp, List.dropLast_concat] at hback
  obtain ⟨⟨hcopied, hbuilt⟩, -⟩ := Option.ite_none_right_eq_some.mp h
  change (temppath curPath).length < 1024 at hcopied
  refine ⟨backUps_temppath.mp ⟨t, ht⟩, ?_, ?_⟩
  · by_cases hroot : curPath = [47]
    · exact .inl hroot
    · rw [temppath, if_neg hroot, List.length_append, List.length_singleton] at hcopied
      exact .inr (by omega)
  · by_cases hslash : [47].isPrefixOf pathname = true
    · exact .inl hslash
    · simp only [if_neg hslash] at hbuilt
      change ((temppath curPath).take t ++ pathname.drop (skippedLength pathname)).length < 1024
        at hbuilt
      have hkept := backUps_length hback
      have hle := keptLength_le (stripBack pathname).1 (temppath curPath).dropLast
      rw [List.length_append, List.length_take, List.length_drop] at hbuilt
      exact .inr (by omega)

theorem acceptsOpen_eq_true {s : State area} {fdt : FDT} {pathname : List UInt8} {flag : ℤ}
    (h : acceptsOpen s fdt pathname flag = true) :
    ∃ name i, lookup s.store fdt pathname = some (some (name, i)) ∧
      isOpen s.fdtList i = some SUCCESS ∧ ¬ AccessDenied (s.store.inode i).mode flag := by
  rw [acceptsOpen] at h
  split at h
  · next name i hlookup =>
    rw [Bool.and_eq_true, decide_eq_true_iff] at h
    obtain ⟨ino, hino, hmode⟩ := (Option.any_eq_true _ _).mp h.2
    obtain ⟨-, rfl⟩ := Store.inodeAt_eq_some hino
    exact ⟨name, i, hlookup, h.1, of_decide_eq_true hmode⟩
  · cases h

theorem rdOpen_within {cur : Process} {pathname : List UInt8} {flag ret : ℤ} {s s' : State area}
    (h : rdOpen cur pathname flag s = some (ret, s')) :
    (∀ w ∈ rdOpenWrites cur pathname flag s, w.2 < w.1.size) ∧
      ¬ (acceptsOpen (getFDT cur s).2 (getFDT cur s).1 pathname flag ∧
        backUps (temppath (getFDT cur s).1.curPath) (stripBack pathname).1
          (temppath (getFDT cur s).1.curPath).length = none) := by
  have hlength : pathname.length ≤ 1023 ∧
      ∀ w ∈ readPathnameWrites (getFDT cur s).1 pathname, w.2 < w.1.size := by
    simp only [rdOpen] at h
    split at h
    · cases h
    · next hlength =>
      obtain ⟨target, htarget, -⟩ := Option.bind_eq_some_iff.mp h
      exact ⟨by omega, lookup_within htarget⟩
  have hbuild : acceptsOpen (getFDT cur s).2 (getFDT cur s).1 pathname flag = true →
      PathFits (getFDT cur s).1.curPath pathname := by
    intro haccepts
    obtain ⟨name, i, hlookup, hopen, hmode⟩ := acceptsOpen_eq_true haccepts
    rw [getFDT_store] at hlookup hmode
    rcases rdOpen_cases h with ⟨-, -, herror⟩ | ⟨name', i', path, -, hbuild, -⟩
    · rcases herror name i hlookup with hopened | hdenied
      · cases hopen.symm.trans hopened
      · exact (hmode hdenied).elim
    · exact pathFits_of_buildPath hbuild
  rw [rdOpenWrites]
  dsimp only
  rw [List.forall_mem_append, List.forall_mem_append, forall_strcpyWrites]
  refine ⟨⟨⟨by simp only [PathBuffer.size]; omega, hlength.2⟩, ?_⟩, fun hleaves ↦ ?_⟩
  · split
    · next haccepts => exact ((buildPathWrites_fit hlength.1).mpr (hbuild haccepts)).1
    · exact noWrites_fit.1
  · exact ((buildPathWrites_fit hlength.1).mpr (hbuild hleaves.1)).2 hleaves.2

/-- A call that completes has stayed inside its buffers. -/
theorem inside_of_step {s t : State area} {e : Event} (h : step s e = some t) :
    (∀ w ∈ bufferWrites s e, w.2 < w.1.size) ∧ ¬ ScanLeaves s e := by
  obtain ⟨⟨reply, t'⟩, hreply, rfl⟩ := Option.map_eq_some_iff.mp h
  obtain ⟨cur, call⟩ := e
  have hcreate : ∀ {pathname : List UInt8} {mode : ℤ} {type : ObjectType} {fresh : ℕ → UInt8}
      {r : ℤ × State area}, create cur pathname mode type fresh s = some r →
      ∀ w ∈ createWrites cur pathname s, w.2 < w.1.size := by
    intro pathname mode type fresh r hr
    rw [create] at hr
    rw [createWrites]
    split at hr
    · next hfull =>
      rw [if_pos hfull]
      exact noWrites_fit.1
    · next hfull =>
      obtain ⟨found, hfound, -⟩ := Option.bind_eq_some_iff.mp hr
      obtain ⟨r', hresolve, -⟩ := Option.bind_eq_some_iff.mp hfound
      rw [if_neg hfull]
      exact resolve_within hresolve
  cases call with
  | pwd =>
      have hshort : (rdPwd cur s).1.length < 100 := (Option.ite_none_right_eq_some.mp hreply).1
      refine ⟨forall_strcpyWrites.mpr ?_, id⟩
      simp only [PathBuffer.size]
      omega
  | creat pathname mode fresh =>
      obtain ⟨r, hr, -⟩ := Option.map_eq_some_iff.mp hreply
      exact ⟨hcreate hr, id⟩
  | mkdir pathname fresh =>
      obtain ⟨r, hr, -⟩ := Option.map_eq_some_iff.mp hreply
      exact ⟨hcreate hr, id⟩
  | openPath pathname flag =>
      obtain ⟨r, hr, -⟩ := Option.map_eq_some_iff.mp hreply
      exact rdOpen_within hr
  | close fd => exact ⟨noWrites_fit.1, id⟩
  | read fd numBytes => exact ⟨noWrites_fit.1, id⟩
  | write fd input => exact ⟨noWrites_fit.1, id⟩
  | lseek fd position => exact ⟨noWrites_fit.1, id⟩
  | unlink pathname =>
      obtain ⟨r, hr, -⟩ := Option.map_eq_some_iff.mp hreply
      refine ⟨?_, id⟩
      change ∀ w ∈ rdUnlinkWrites cur pathname.chars s, w.2 < w.1.size
      rw [rdUnlink] at hr
      rw [rdUnlinkWrites]
      split at hr
      · next hroot =>
        rw [if_pos hroot]
        exact noWrites_fit.1
      · next hroot =>
        obtain ⟨found, hfound, -⟩ := Option.bind_eq_some_iff.mp hr
        rw [if_neg hroot]
        exact lookup_within hfound
  | chmod pathname mode =>
      obtain ⟨r, hr, -⟩ := Option.map_eq_some_iff.mp hreply
      obtain ⟨found, hfound, -⟩ := Option.bind_eq_some_iff.mp hr
      exact ⟨lookup_within hfound, id⟩

/-- Over a whole run, the call included at which it breaks off: all calls stay inside
the path buffers exactly if the buffers are large enough for every one of them. -/
theorem path_buffers_kept_iff (area : Area) (events : List Event) :
    PartialRun.Tried step InsideBuffers (initState area) events ↔
      PartialRun.Tried step CallFits (initState area) events :=
  PartialRun.tried_congr insideBuffers_iff events

def deepName : CString := ⟨(List.replicate 21 [100, 47]).flatten ++ [102], by decide⟩

/-- Opening and closing the file `f`, again and again. -/
def reopenCalls : ℕ → List Call
  | 0 => []
  | n + 1 => .openPath sampleName 1 :: .close 1 :: reopenCalls n

/-- `cur_path` grows by two characters each time, so after 50 times it no longer fits
into `current_path`; and a pathname with 21 slashes leaves `parentlist` at once. -/
theorem path_buffers_overrun :
    ¬ PartialRun.Tried step InsideBuffers (initState sampleArea)
      (sampleCalls (.creat sampleName 1 (fun _ ↦ 0) :: reopenCalls 50 ++ [.pwd])) ∧
    (PathBuffer.parentlist, 20) ∈
      bufferWrites (initState sampleArea) ⟨sampleProcess, .chmod deepName 1⟩ := by
  have hlong : (PartialRun.run step (initState sampleArea)
      (sampleCalls (.creat sampleName 1 (fun _ ↦ 0) :: reopenCalls 50))).map
      (fun s ↦ (rdPwd sampleProcess s).1.length) = some 100 := by decide +kernel
  obtain ⟨s, hs, hlength⟩ := Option.map_eq_some_iff.mp hlong
  have hlast : 100 < (rdPwd sampleProcess s).1.length + 1 := by omega
  refine ⟨fun h ↦ ?_, by decide +kernel⟩
  rw [sampleCalls, List.map_append] at h
  have hinside := (h.of_append hs).inside (.currentPath, 100)
    (List.mem_map.mpr ⟨100, List.mem_range.mpr hlast, rfl⟩)
  exact absurd hinside (by decide)

end OperatingSystem.Filesys
