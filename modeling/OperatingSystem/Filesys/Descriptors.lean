import OperatingSystem.Filesys.Tables

/-!
# Descriptors

A descriptor is a position in the list of file objects. The descriptors that
one process has open are tracked beside the state; they keep their meaning
along exactly those runs in which no directory is opened while a descriptor is
open and only the highest open descriptor is closed.
-/

namespace OperatingSystem.Filesys

variable {area : Area}

/-- A state and the descriptors that the process has open in it. -/
structure Tracked (area : Area) where
  state : State area
  opened : Finset ℕ

/-- The descriptors that are open after a call with the given return value. -/
def track : Call → ℤ → Finset ℕ → Finset ℕ
  | .openPath _ _, ret, opened => if 0 < ret then insert ret.toNat opened else opened
  | .close fd, ret, opened => if ret = SUCCESS then opened.erase fd.toNat else opened
  | _, _, opened => opened

def trackedStep (cur : Process) (t : Tracked area) (call : Call) : Option (Tracked area) :=
  (ramdiskIoctl t.state ⟨cur, call⟩).map fun r ↦ ⟨r.2, track call r.1.ret t.opened⟩

theorem trackedStep_open {cur : Process} {pathname : CString} {flag : ℤ} {t t' : Tracked area}
    (h : trackedStep cur t (.openPath pathname flag) = some t') :
    ∃ ret s', rdOpen cur pathname.chars flag t.state = some (ret, s') ∧
      t' = ⟨s', if 0 < ret then insert ret.toNat t.opened else t.opened⟩ := by
  obtain ⟨r, hr, rfl⟩ := Option.map_eq_some_iff.mp h
  obtain ⟨⟨ret, s'⟩, hopen, rfl⟩ := Option.map_eq_some_iff.mp hr
  exact ⟨ret, s', hopen, rfl⟩

theorem trackedStep_close {cur : Process} {fd : ℤ} {t t' : Tracked area}
    (h : trackedStep cur t (.close fd) = some t') :
    ∃ ret s', rdClose cur fd t.state = some (ret, s') ∧
      t' = ⟨s', if ret = SUCCESS then t.opened.erase fd.toNat else t.opened⟩ := by
  obtain ⟨r, hr, rfl⟩ := Option.map_eq_some_iff.mp h
  obtain ⟨⟨ret, s'⟩, hclose, rfl⟩ := Option.map_eq_some_iff.mp hr
  exact ⟨ret, s', hclose, rfl⟩

/-- The file object that a descriptor denotes. -/
def State.denotes (s : State area) (cur : Process) (fd : ℕ) : Option FileObject :=
  (s.table cur).fileObject fd

def Call.Closes : Call → ℕ → Prop
  | .close fd', fd => fd' = fd
  | _, _ => False

/-- `rd_read`, `rd_write` or `rd_lseek` on the descriptor itself. -/
def Call.Moves : Call → ℕ → Prop
  | .read fd' _, fd => fd' = fd
  | .write fd' _, fd => fd' = fd
  | .lseek fd' _, fd => fd' = fd
  | _, _ => False

/-- Open descriptors that the call does not close keep their inode, and their
position too unless the call works on them; a descriptor that `rd_open`
returns was not open and denotes the start of the file. -/
def StableStep (cur : Process) (t : Tracked area) (call : Call) (t' : Tracked area) : Prop :=
  (∀ fd ∈ t.opened, ¬ call.Closes fd →
    (t'.state.denotes cur fd).map FileObject.inodeIndex =
        (t.state.denotes cur fd).map FileObject.inodeIndex ∧
      (¬ call.Moves fd → t'.state.denotes cur fd = t.state.denotes cur fd)) ∧
  ∀ pathname flag ret, call = .openPath pathname flag →
    rdOpen cur pathname.chars flag t.state = some (ret, t'.state) → 0 < ret →
    ret.toNat ∉ t.opened ∧
      ∃ name i, lookup t.state.store (t.state.table cur) pathname.chars = some (some (name, i)) ∧
        t'.state.denotes cur ret.toNat = some ⟨i, 0⟩

/-- No directory is opened while a descriptor is open, and a descriptor is
closed only when no higher one is open. -/
def KeepsDescriptors (cur : Process) (t : Tracked area) : Call → Prop
  | .openPath pathname flag => ∀ name i,
      lookup t.state.store (t.state.table cur) pathname.chars = some (some (name, i)) →
      isOpen (t.state.tables cur) i ≠ some ERROR →
      ¬ AccessDenied (t.state.store.inode i).mode flag →
      (t.state.store.inode i).type = .dir → t.opened = ∅
  | .close fd => 0 < fd → fd < (t.state.table cur).fileObjects.length →
      ∀ other ∈ t.opened, (other : ℤ) ≤ fd
  | _ => True

/-- The open descriptors are the last positions of the list. -/
def LastPositions (cur : Process) (t : Tracked area) : Prop :=
  ∃ k, 1 ≤ k ∧ t.opened = Finset.Ico k (t.state.table cur).fileObjects.length

/-- What a call other than `rd_open` and `rd_close` does to the caller's
table. -/
theorem table_of_other {s : State area} {cur : Process} {call : Call} {r : Reply × State area}
    (hopen : ∀ pathname flag, call ≠ .openPath pathname flag) (hclose : ∀ fd, call ≠ .close fd)
    (h : ramdiskIoctl s ⟨cur, call⟩ = some r) :
    r.2.table cur = s.table cur ∨ ∃ (fd : ℤ) (fo : FileObject) (position : ℤ),
      (∀ k : ℕ, fd = k → call.Moves k) ∧
      (s.table cur).fileObject fd = some fo ∧
        r.2.table cur = (s.table cur).setPosition fd fo position := by
  cases call with
  | pwd =>
      simp only [ramdiskIoctl] at h
      split at h <;> cases h
      exact .inl (table_of_tables rfl)
  | creat pathname mode fresh =>
      obtain ⟨r', hr, rfl⟩ := Option.map_eq_some_iff.mp h
      exact .inl (table_of_fdtList (create_fdtList hr))
  | mkdir pathname fresh =>
      obtain ⟨r', hr, rfl⟩ := Option.map_eq_some_iff.mp h
      exact .inl (table_of_fdtList (create_fdtList hr))
  | openPath pathname flag => exact (hopen pathname flag rfl).elim
  | close fd => exact (hclose fd rfl).elim
  | read fd numBytes =>
      obtain ⟨r', hr, rfl⟩ := Option.map_eq_some_iff.mp h
      exact .inl (table_of_tables (rdRead_fdtList hr))
  | write fd input =>
      obtain ⟨r', hr, rfl⟩ := Option.map_eq_some_iff.mp h
      rcases rdWrite_table hr with hsame | ⟨fo, position, hfo, hset⟩
      · exact .inl hsame
      · exact .inr ⟨fd, fo, position, fun _ hk ↦ hk, hfo, hset⟩
  | lseek fd position =>
      obtain ⟨r', hr, rfl⟩ := Option.map_eq_some_iff.mp h
      rcases rdLseek_table hr with hsame | ⟨fo, position', hfo, hset⟩
      · exact .inl hsame
      · exact .inr ⟨fd, fo, position', fun _ hk ↦ hk, hfo, hset⟩
  | unlink pathname =>
      obtain ⟨r', hr, rfl⟩ := Option.map_eq_some_iff.mp h
      exact .inl (table_of_fdtList (rdUnlink_fdtList hr))
  | chmod pathname mode =>
      obtain ⟨r', hr, rfl⟩ := Option.map_eq_some_iff.mp h
      exact .inl (table_of_tables (rdChmod_fdtList hr))

/-- How a call can change the caller's table. -/
inductive TableStep (s : State area) (cur : Process) (fdt : FDT) : Call → Prop
  | same {call : Call} (hset : fdt = s.table cur) : TableStep s cur fdt call
  | openDirectory {pathname : CString} {flag : ℤ} {name : List UInt8} {i : ℕ}
      {path : List UInt8}
      (hlookup : lookup s.store (s.table cur) pathname.chars = some (some (name, i)))
      (hpath : buildPath (s.table cur).curPath pathname.chars = some path)
      (hi : i < inodeListNum) (hclosed : isOpen (s.tables cur) i = some SUCCESS)
      (haccess : ¬ AccessDenied (s.store.inode i).mode flag)
      (htype : (s.store.inode i).type = .dir)
      (hset : fdt = { s.table cur with fileObjects := [⟨i, 0⟩], curPath := path }) :
      TableStep s cur fdt (.openPath pathname flag)
  | openFile {pathname : CString} {flag : ℤ} {name : List UInt8} {i : ℕ} {path : List UInt8}
      (hlookup : lookup s.store (s.table cur) pathname.chars = some (some (name, i)))
      (hpath : buildPath (s.table cur).curPath pathname.chars = some path)
      (hi : i < inodeListNum) (hclosed : isOpen (s.tables cur) i = some SUCCESS)
      (haccess : ¬ AccessDenied (s.store.inode i).mode flag)
      (htype : (s.store.inode i).type ≠ .dir)
      (hset : fdt = { s.table cur with
        fileObjects := (s.table cur).fileObjects ++ [⟨i, 0⟩], curPath := path }) :
      TableStep s cur fdt (.openPath pathname flag)
  | climb {head : FileObject} {path : List UInt8}
      (hhead : (s.table cur).fileObjects.head? = some head) (hroot : head.inodeIndex ≠ 0)
      (hpath : cutPath (s.table cur).curPath = some path)
      (hset : fdt = { s.table cur with
        fileObjects := ⟨(s.store.inode head.inodeIndex).parentIndex, 0⟩ ::
          (s.table cur).fileObjects.tail
        curPath := path }) :
      TableStep s cur fdt (.close 0)
  | close {fd : ℤ} (hpos : 0 < fd) (hlt : fd < (s.table cur).fileObjects.length)
      (hset : fdt = { s.table cur with
        fileObjects := (s.table cur).fileObjects.eraseIdx fd.toNat }) :
      TableStep s cur fdt (.close fd)
  | move {call : Call} {fd : ℤ} {fo : FileObject} {position : ℤ}
      (hmoves : ∀ k : ℕ, fd = k → call.Moves k) (hfo : (s.table cur).fileObject fd = some fo)
      (hset : fdt = (s.table cur).setPosition fd fo position) : TableStep s cur fdt call

theorem tableStep {s : State area} {cur : Process} {call : Call} {r : Reply × State area}
    (h : ramdiskIoctl s ⟨cur, call⟩ = some r) : TableStep s cur (r.2.table cur) call := by
  by_cases hopen : ∃ pathname flag, call = .openPath pathname flag
  · obtain ⟨pathname, flag, rfl⟩ := hopen
    obtain ⟨r', hr', rfl⟩ := Option.map_eq_some_iff.mp h
    rcases rdOpen_cases hr' with
      ⟨-, hsame, -⟩ | ⟨name, i, path, hlookup, hpath, hi, hclosed, haccess, hend⟩
    · exact .same hsame
    · rcases hend with ⟨htype, -, hset⟩ | ⟨htype, -, hset⟩
      · exact .openDirectory hlookup hpath hi hclosed haccess htype hset
      · exact .openFile hlookup hpath hi hclosed haccess htype hset
  · by_cases hclose : ∃ fd, call = .close fd
    · obtain ⟨fd, rfl⟩ := hclose
      obtain ⟨r', hr', rfl⟩ := Option.map_eq_some_iff.mp h
      rcases rdClose_cases hr' with
        ⟨-, hsame, -⟩ | ⟨rfl, -, head, path, hhead, hroot, hpath, hset⟩ | ⟨hpos, hlt, -, hset⟩
      · exact .same hsame
      · exact .climb hhead hroot hpath hset
      · exact .close hpos hlt hset
    · rcases table_of_other (fun p f heq ↦ hopen ⟨p, f, heq⟩) (fun fd heq ↦ hclose ⟨fd, heq⟩) h with
        hsame | ⟨fd, fo, position, hmoves, hfo, hset⟩
      · exact .same hsame
      · exact .move hmoves hfo hset

namespace LastPositions

variable {cur : Process} {t t' : Tracked area}

theorem pos (h : LastPositions cur t) {fd : ℕ} (hfd : fd ∈ t.opened) : 1 ≤ fd := by
  obtain ⟨k, hk, heq⟩ := h
  rw [heq, Finset.mem_Ico] at hfd
  omega

theorem lt_length (h : LastPositions cur t) {fd : ℕ} (hfd : fd ∈ t.opened) :
    fd < (t.state.table cur).fileObjects.length := by
  obtain ⟨k, -, heq⟩ := h
  rw [heq, Finset.mem_Ico] at hfd
  exact hfd.2

theorem last_mem (h : LastPositions cur t) {fd : ℕ} (hfd : fd ∈ t.opened) :
    (t.state.table cur).fileObjects.length - 1 ∈ t.opened := by
  obtain ⟨k, hk, heq⟩ := h
  rw [heq, Finset.mem_Ico] at hfd ⊢
  omega

theorem denotes_ne_none (h : LastPositions cur t) {fd : ℕ} (hfd : fd ∈ t.opened) :
    t.state.denotes cur fd ≠ none := by
  rw [State.denotes, fileObject_of_pos _ (h.pos hfd), ne_eq, List.getElem?_eq_none_iff]
  have hlt := h.lt_length hfd
  omega

/-! ### The other calls -/

theorem other_step {call : Call} (h : LastPositions cur t)
    (hopen : ∀ pathname flag, call ≠ .openPath pathname flag) (hclose : ∀ fd, call ≠ .close fd)
    (hstep : trackedStep cur t call = some t') :
    LastPositions cur t' ∧ StableStep cur t call t' := by
  obtain ⟨r, hr, rfl⟩ := Option.map_eq_some_iff.mp hstep
  have htrack : track call r.1.ret t.opened = t.opened := by
    cases call with
    | openPath pathname flag => exact (hopen pathname flag rfl).elim
    | close fd => exact (hclose fd rfl).elim
    | _ => rfl
  rcases table_of_other hopen hclose hr with hsame | ⟨fd, fo, position, hmoves, hfo, hset⟩
  · refine ⟨?_, ?_, ?_⟩
    · obtain ⟨k, hk, heq⟩ := h
      exact ⟨k, hk, by rw [htrack, hsame, heq]⟩
    · intro fd _ _
      simp [State.denotes, hsame]
    · intro pathname flag ret hcall
      exact (hopen pathname flag hcall).elim
  · refine ⟨?_, ?_, ?_⟩
    · obtain ⟨k, hk, heq⟩ := h
      refine ⟨k, hk, ?_⟩
      rw [htrack, hset, heq]
      simp [FDT.setPosition]
    · intro fd' hfd' _
      rw [State.denotes, State.denotes, hset, fileObject_setPosition hfo (h.pos hfd')]
      by_cases heq : fd = fd'
      · subst heq
        refine ⟨by simp [hfo], fun hmove ↦ ?_⟩
        exact (hmove (hmoves fd' rfl)).elim
      · simp [heq]
    · intro pathname flag ret hcall
      exact (hopen pathname flag hcall).elim

/-! ### Opening -/

theorem open_of_stable {pathname : CString} {flag : ℤ} (h : LastPositions cur t)
    (hstep : trackedStep cur t (.openPath pathname flag) = some t')
    (hstable : StableStep cur t (.openPath pathname flag) t') :
    KeepsDescriptors cur t (.openPath pathname flag) := by
  obtain ⟨ret, s', hopen, rfl⟩ := trackedStep_open hstep
  intro name i hlookup hclosed haccess htype
  by_contra hne
  obtain ⟨fd, hfd⟩ := Finset.nonempty_iff_ne_empty.mpr hne
  have hkept := (hstable.1 fd hfd (fun hc ↦ hc)).2 (fun hm ↦ hm)
  have hsome := h.denotes_ne_none hfd
  rcases rdOpen_cases hopen with ⟨-, -, hrefused⟩ | ⟨name', i', path, hlookup', -, -, -, -, hend⟩
  · rcases hrefused name i hlookup with herror | hdenied
    · exact hclosed herror
    · exact haccess hdenied
  · rw [hlookup] at hlookup'
    cases hlookup'
    rcases hend with ⟨-, -, htable⟩ | ⟨hreg, -, -⟩
    · -- the list was cut behind its head
      apply hsome
      rw [← hkept, State.denotes]
      rw [htable, fileObject_of_pos _ (h.pos hfd), List.getElem?_eq_none_iff]
      exact h.pos hfd
    · exact hreg htype

theorem open_step {pathname : CString} {flag : ℤ} (h : LastPositions cur t)
    (hstep : trackedStep cur t (.openPath pathname flag) = some t')
    (hkeeps : KeepsDescriptors cur t (.openPath pathname flag)) :
    LastPositions cur t' ∧ StableStep cur t (.openPath pathname flag) t' := by
  obtain ⟨ret, s', hopen, rfl⟩ := trackedStep_open hstep
  have hret : ∀ ret', rdOpen cur pathname.chars flag t.state = some (ret', s') → ret' = ret := by
    intro ret' hopen'
    cases hopen.symm.trans hopen'
    rfl
  rcases rdOpen_cases hopen with
    ⟨rfl, hsame, -⟩ | ⟨name, i, path, hlookup, -, -, hclosed, haccess, hend⟩
  · have hneg : ¬ (0 : ℤ) < ERROR := by decide
    refine ⟨?_, ?_, ?_⟩
    · obtain ⟨k, hk, heq⟩ := h
      refine ⟨k, hk, ?_⟩
      rw [if_neg hneg, hsame, heq]
    · intro fd _ _
      simp [State.denotes, hsame]
    · intro pathname' flag' ret' hcall hopen' hpos
      cases hcall
      rw [hret ret' hopen'] at hpos
      exact (hneg hpos).elim
  · rcases hend with ⟨htype, rfl, htable⟩ | ⟨-, rfl, htable⟩
    · have hempty : t.opened = ∅ :=
        hkeeps name i hlookup (by rw [hclosed]; decide) haccess htype
      refine ⟨⟨1, le_refl 1, ?_⟩, ?_, ?_⟩
      · simp [hempty, htable]
      · intro fd hfd
        simp [hempty] at hfd
      · intro pathname' flag' ret' hcall hopen' hpos
        cases hcall
        rw [hret ret' hopen'] at hpos
        exact (lt_irrefl 0 hpos).elim
    · refine ⟨?_, ?_, ?_⟩
      · obtain ⟨k, hk, heq⟩ := h
        rcases Nat.eq_zero_or_pos (t.state.table cur).fileObjects.length with hzero | hpos
        · refine ⟨1, le_refl 1, ?_⟩
          simp [htable, hzero, heq]
        · by_cases hk' : k ≤ (t.state.table cur).fileObjects.length
          · refine ⟨k, hk, ?_⟩
            have hpos' : (0 : ℤ) < (t.state.table cur).fileObjects.length := by omega
            rw [if_pos hpos', htable, heq]
            ext fd
            simp only [Int.toNat_natCast, Finset.mem_insert, Finset.mem_Ico, List.length_append,
              List.length_singleton]
            omega
          · refine ⟨(t.state.table cur).fileObjects.length, hpos, ?_⟩
            have hpos' : (0 : ℤ) < (t.state.table cur).fileObjects.length := by omega
            rw [if_pos hpos', htable, heq]
            ext fd
            simp only [Int.toNat_natCast, Finset.mem_insert, Finset.mem_Ico, List.length_append,
              List.length_singleton]
            omega
      · intro fd hfd _
        have hkept : s'.denotes cur fd = t.state.denotes cur fd := by
          rw [State.denotes, State.denotes, htable, fileObject_of_pos _ (h.pos hfd),
            fileObject_of_pos _ (h.pos hfd), List.getElem?_append_left (h.lt_length hfd)]
        exact ⟨congrArg _ hkept, fun _ ↦ hkept⟩
      · intro pathname' flag' ret' hcall hopen' hpos
        cases hcall
        rw [hret ret' hopen'] at hpos ⊢
        refine ⟨?_, name, i, hlookup, ?_⟩
        · intro hmem
          have hlt := h.lt_length hmem
          omega
        · rw [Int.toNat_natCast, State.denotes, htable, fileObject_of_pos _ (by omega)]
          simp

/-! ### Closing -/

theorem close_of_stable {fd : ℤ} (h : LastPositions cur t)
    (hstep : trackedStep cur t (.close fd) = some t')
    (hstable : StableStep cur t (.close fd) t') : KeepsDescriptors cur t (.close fd) := by
  obtain ⟨ret, s', hclose, rfl⟩ := trackedStep_close hstep
  intro hpos hlt other hother
  by_contra hhigher
  have hlast := h.last_mem hother
  have hother' := h.lt_length hother
  have hne : ¬ (Call.close fd).Closes ((t.state.table cur).fileObjects.length - 1) := by
    intro heq
    simp only [Call.Closes] at heq
    omega
  have hkept := (hstable.1 _ hlast hne).2 (fun hm ↦ hm)
  have hsome := h.denotes_ne_none hlast
  rcases rdClose_cases hclose with ⟨-, -, hzero | hlong⟩ | ⟨hzero, -⟩ | ⟨-, -, -, htable⟩
  · omega
  · omega
  · omega
  · -- the last position is gone
    apply hsome
    rw [← hkept, State.denotes]
    rw [htable, fileObject_of_pos _ (h.pos hlast), List.getElem?_eq_none_iff,
      List.length_eraseIdx]
    split <;> omega

theorem close_step {fd : ℤ} (h : LastPositions cur t)
    (hstep : trackedStep cur t (.close fd) = some t')
    (hkeeps : KeepsDescriptors cur t (.close fd)) :
    LastPositions cur t' ∧ StableStep cur t (.close fd) t' := by
  have hnever : ∀ pathname flag, Call.close fd ≠ .openPath pathname flag := by
    intro pathname flag hcall
    cases hcall
  obtain ⟨ret, s', hclose, rfl⟩ := trackedStep_close hstep
  rcases rdClose_cases hclose with
    ⟨rfl, hsame, -⟩ | ⟨rfl, rfl, head, path, hhead, -, -, htable⟩ | ⟨hpos, hlt, rfl, htable⟩
  · refine ⟨?_, ?_, fun pathname flag ret hcall ↦ (hnever pathname flag hcall).elim⟩
    · obtain ⟨k, hk, heq⟩ := h
      refine ⟨k, hk, ?_⟩
      rw [if_neg (by decide), hsame, heq]
    · intro other _ _
      simp [State.denotes, hsame]
  · have hzero : 0 ∉ t.opened := fun hmem ↦ absurd (h.pos hmem) (by omega)
    obtain ⟨rest, hlist⟩ := List.head?_eq_some_iff.mp hhead
    have hkept : ∀ other ∈ t.opened, s'.denotes cur other = t.state.denotes cur other := by
      intro other hother
      obtain ⟨k, rfl⟩ := Nat.exists_eq_add_of_le' (h.pos hother)
      rw [State.denotes, State.denotes, htable, fileObject_of_pos _ (h.pos hother),
        fileObject_of_pos _ (h.pos hother)]
      simp [hlist]
    refine ⟨?_, ?_, fun pathname flag ret hcall ↦ (hnever pathname flag hcall).elim⟩
    · obtain ⟨k, hk, heq⟩ := h
      refine ⟨k, hk, ?_⟩
      have hlength : (s'.table cur).fileObjects.length =
          (t.state.table cur).fileObjects.length := by
        simp [htable, hlist]
      rw [if_pos rfl, Int.toNat_zero, Finset.erase_eq_of_notMem hzero, hlength, heq]
    · intro other hother _
      exact ⟨congrArg _ (hkept other hother), fun _ ↦ hkept other hother⟩
  · have hhighest := hkeeps hpos hlt
    have hkept : ∀ other ∈ t.opened, ¬ (Call.close fd).Closes other →
        s'.denotes cur other = t.state.denotes cur other := by
      intro other hother hopen
      have hle := hhighest other hother
      have hne : fd ≠ other := hopen
      rw [State.denotes, State.denotes, htable, fileObject_of_pos _ (h.pos hother),
        fileObject_of_pos _ (h.pos hother), List.getElem?_eraseIdx_of_lt (by omega)]
    refine ⟨?_, ?_, fun pathname flag ret hcall ↦ (hnever pathname flag hcall).elim⟩
    · have hlength : (s'.table cur).fileObjects.length =
          (t.state.table cur).fileObjects.length - 1 := by
        rw [htable, List.length_eraseIdx_of_lt (by omega)]
      rw [if_pos rfl]
      by_cases hempty : t.opened = ∅
      · refine ⟨(s'.table cur).fileObjects.length + 1, by omega, ?_⟩
        simp [hempty]
      · obtain ⟨other, hother⟩ := Finset.nonempty_iff_ne_empty.mpr hempty
        have hlast := hhighest _ (h.last_mem hother)
        obtain ⟨k, hk, heq⟩ := h
        refine ⟨k, hk, ?_⟩
        rw [hlength, heq]
        ext p
        simp only [Finset.mem_erase, Finset.mem_Ico]
        omega
    · intro other hother hopen
      exact ⟨congrArg _ (hkept other hother hopen), fun _ ↦ hkept other hother hopen⟩

/-! ### All calls -/

theorem step {call : Call} (h : LastPositions cur t)
    (hstep : trackedStep cur t call = some t') (hkeeps : KeepsDescriptors cur t call) :
    LastPositions cur t' ∧ StableStep cur t call t' := by
  by_cases hopen : ∃ pathname flag, call = .openPath pathname flag
  · obtain ⟨pathname, flag, rfl⟩ := hopen
    exact h.open_step hstep hkeeps
  · by_cases hclose : ∃ fd, call = .close fd
    · obtain ⟨fd, rfl⟩ := hclose
      exact h.close_step hstep hkeeps
    · exact h.other_step (fun pathname flag heq ↦ hopen ⟨pathname, flag, heq⟩)
        (fun fd heq ↦ hclose ⟨fd, heq⟩) hstep

theorem of_stable {call : Call} (h : LastPositions cur t)
    (hstep : trackedStep cur t call = some t') (hstable : StableStep cur t call t') :
    KeepsDescriptors cur t call := by
  cases call with
  | openPath pathname flag => exact h.open_of_stable hstep hstable
  | close fd => exact h.close_of_stable hstep hstable
  | _ => trivial

end LastPositions

/-- From any state in which a process has no descriptor open, its descriptors
are stable along exactly those runs that open no directory while a descriptor
is open and close the highest open descriptor only. -/
theorem descriptors_stable_iff (s : State area) (cur : Process) (calls : List Call) :
    PartialRun.Along (trackedStep cur) (StableStep cur) ⟨s, ∅⟩ calls ↔
      PartialRun.Along (trackedStep cur) (fun t call _ ↦ KeepsDescriptors cur t call)
        ⟨s, ∅⟩ calls := by
  have hinit : LastPositions cur ⟨s, ∅⟩ :=
    ⟨(s.table cur).fileObjects.length + 1, by omega, by simp⟩
  apply PartialRun.along_iff_of_invariant (I := LastPositions cur) _ _ calls hinit
  · intro t call t' h hkeeps hstep
    exact (h.step hstep hkeeps).1
  · intro t call t' h hstep
    exact ⟨h.of_stable hstep, fun hkeeps ↦ (h.step hstep hkeeps).2⟩

def threeFilesCalls : List Call :=
  let thirdName : CString := ⟨[104], by decide⟩
  [.creat sampleName 1 fun _ ↦ 0, .creat secondName 1 fun _ ↦ 0, .creat thirdName 1 fun _ ↦ 0,
    .openPath sampleName 1, .openPath secondName 1, .openPath thirdName 1]

/-- After the first of three descriptors is closed, the second one denotes the
third file. -/
theorem close_redirects_descriptor :
    ¬ PartialRun.Along (trackedStep sampleProcess) (StableStep sampleProcess)
      ⟨initState sampleArea, ∅⟩ (threeFilesCalls ++ [.close 1]) := by
  have hrun : (PartialRun.run (trackedStep sampleProcess) ⟨initState sampleArea, ∅⟩
      threeFilesCalls).map (fun t ↦ (decide (2 ∈ t.opened), t.state.denotes sampleProcess 2,
        (trackedStep sampleProcess t (.close 1)).map fun t' ↦
          t'.state.denotes sampleProcess 2)) =
      some (true, some ⟨2, 0⟩, some (some ⟨3, 0⟩)) := by
    decide +kernel
  intro halong
  obtain ⟨t, ht, hfacts⟩ := Option.map_eq_some_iff.mp hrun
  simp only [Prod.mk.injEq, decide_eq_true_eq] at hfacts
  obtain ⟨hopened, hbefore, hclose⟩ := hfacts
  obtain ⟨t', ht', hafter⟩ := Option.map_eq_some_iff.mp hclose
  have hstable := halong.of_append ht ht'
  have hother : ¬ (Call.close 1).Closes 2 := by
    simp [Call.Closes]
  have hkept := (hstable.1 2 hopened hother).1
  rw [hbefore, hafter] at hkept
  cases hkept

end OperatingSystem.Filesys
