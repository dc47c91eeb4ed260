import OperatingSystem.Lib.Lockstep
import OperatingSystem.Filesys.LinkedLoops
import OperatingSystem.Filesys.Tables

/-!
# The tables in memory refine the lists of tables

Each operation on the linked lists gives the answer of the operation on the lists of tables, and
leaves the tables of the other in memory. The blocks are those of the tables and the file
objects that were dropped when a directory was opened.
-/

namespace OperatingSystem.Filesys

open LinkedList Lockstep

variable {area : Area}

/-! ## The relation -/

namespace TableHeap

/-- The tables of the list, whose blocks are all but the given number. -/
structure Holding (σ : TableHeap) (ts : List StoredTable) (lost : ℕ) : Prop
    extends Sound σ ts where
  paths : ∀ t ∈ ts, t.curPath ≠ []
  count : σ.blockCount = (ts.map fun t ↦ t.blocks.length).sum + lost

end TableHeap

structure Represents (l : LinkedState area) (s : State area) (lost : ℕ) : Prop where
  store : l.store = s.store
  tables : ∃ ts, l.tables.Holding ts lost ∧ s.fdtList = ts.map StoredTable.contents

/-- The file objects that an operation drops: those behind the first one of a table into which
a directory is opened. -/
def dropped (e : Event) (s s' : State area) : ℕ :=
  match e.call with
  | .openPath _ _ => (s.table e.cur).fileObjects.length - (s'.table e.cur).fileObjects.length
  | _ => 0

variable {A : Allocator} {σ σ' : TableHeap} {ts us vs : List StoredTable} {t t' : StoredTable}
  {l : LinkedState area} {s : State area} {lost more : ℕ} {cur : Process}

theorem represents_loaded (area : Area) :
    Represents (LinkedState.loaded area) (initState area) 0 :=
  ⟨rfl, [], ⟨TableHeap.sound_loaded, fun _ ht ↦ absurd ht List.not_mem_nil, rfl⟩, rfl⟩

/-! ## The caller's table -/

namespace TableHeap

theorem Sound.map_replace (h : Sound σ (us ++ t :: vs)) (hr : Rewrites σ σ' t t') :
    (us ++ t :: vs).map (replace t t') = us ++ t' :: vs := by
  have ht : t ∈ us ++ t :: vs := List.mem_append_right us List.mem_cons_self
  have hpids := h.pids
  rw [List.map_append, List.map_cons] at hpids
  have hmiddle := (List.nodup_cons.mp (List.nodup_middle.mp hpids)).1
  have hother : ∀ u, u ∈ us ∨ u ∈ vs → replace t t' u = u := fun u hu ↦ by
    have hmem : u ∈ us ++ t :: vs :=
      List.mem_append.mpr (hu.imp_right (List.mem_cons_of_mem t))
    rcases hr.replace_cases h ht hmem with ⟨rfl, -⟩ | ⟨-, heq, -⟩
    · exact absurd (List.mem_append.mpr (hu.imp List.mem_map_of_mem List.mem_map_of_mem)) hmiddle
    · exact heq
  rw [List.map_append, List.map_cons, replace, if_pos rfl,
    List.map_congr_left fun u hu ↦ hother u (.inl hu),
    List.map_congr_left fun u hu ↦ hother u (.inr hu), List.map_id', List.map_id']

theorem Holding.changes (h : Holding σ ts lost) (ht : t ∈ ts) (hc : Changes σ σ' t t' more)
    (hpath : t'.curPath ≠ []) {s : State area}
    (hlist : s.fdtList = ts.map StoredTable.contents) :
    Represents ⟨s.store, σ'⟩ (s.setFDT t'.contents) (lost + more) := by
  obtain ⟨us, vs, rfl⟩ := List.append_of_mem ht
  have hsound := h.toSound.rewrites ht hc.toRewrites
  rw [h.map_replace hc.toRewrites] at hsound
  refine ⟨rfl, us ++ t' :: vs, ⟨hsound, fun u hu ↦ ?_, ?_⟩, ?_⟩
  · rcases List.mem_append.mp hu with hu | hu
    · exact h.paths u (List.mem_append_left _ hu)
    · rcases List.mem_cons.mp hu with rfl | hu
      · exact hpath
      · exact h.paths u (List.mem_append_right us (List.mem_cons_of_mem t hu))
  · have hcount := h.count
    have hchanged := hc.count
    simp only [List.map_append, List.map_cons, List.sum_append, List.sum_cons] at hcount ⊢
    omega
  · have hpids := h.pids
    rw [List.map_append, List.map_cons] at hpids
    have hmiddle := (List.nodup_cons.mp (List.nodup_middle.mp hpids)).1
    have hindex : (us.map StoredTable.contents ++ t.contents :: vs.map StoredTable.contents).findIdx
        (fun u ↦ u.pid = t'.contents.pid) = (us.map StoredTable.contents).length := by
      have hus : (us.map StoredTable.contents).findIdx (fun u ↦ u.pid = t'.contents.pid) =
          (us.map StoredTable.contents).length := by
        refine List.findIdx_eq_length_of_false fun u hu ↦ decide_eq_false fun hpid ↦ ?_
        obtain ⟨w, hw, rfl⟩ := List.mem_map.mp hu
        have hwpid : w.pid = t.pid := hpid.trans hc.pid
        exact hmiddle (List.mem_append_left _ (hwpid ▸ List.mem_map_of_mem hw))
      have ht : decide (t.contents.pid = t'.contents.pid) = true := decide_eq_true hc.pid.symm
      rw [List.findIdx_append, hus, if_neg (lt_irrefl _), List.findIdx_cons, ht, cond_true,
        Nat.zero_add]
    rw [State.setFDT, hlist, List.map_append, List.map_cons, hindex, List.set_append_right _ _ le_rfl,
      Nat.sub_self, List.set_cons_zero, List.map_append, List.map_cons]

end TableHeap

theorem curPath_ne_nil {s : State area} (h : ∀ fdt ∈ s.fdtList, fdt.curPath ≠ [])
    (cur : Process) : ∀ fdt ∈ (getFDT cur s).2.fdtList, fdt.curPath ≠ [] := by
  intro fdt hfdt
  rcases mem_tables_cases hfdt with hfdt | rfl
  · exact h fdt hfdt
  · exact table_of_forall (P := fun _ path ↦ path ≠ []) h (List.cons_ne_nil _ _) cur

/-- Every operation begins with the caller's table. -/
theorem Represents.getFDT (h : Represents l s lost) (A : Allocator) (cur : Process) :
    ∃ σ ts t, l.tables.getFDT A cur = some (t.addr, σ) ∧ σ.Holding ts lost ∧ t ∈ ts ∧
      Filesys.getFDT cur s = (t.contents, { s with fdtList := ts.map StoredTable.contents }) := by
  obtain ⟨ts, hts, hlist⟩ := h.tables
  obtain ⟨σ, ts', t, hcall, hsound, ht, heq⟩ := hts.toSound.getFDT_refines A cur hlist
  have hpaths : ∀ u ∈ ts', u.curPath ≠ [] := fun u hu ↦ by
    have hold : ∀ fdt ∈ s.fdtList, fdt.curPath ≠ [] := fun fdt hfdt ↦ by
      rw [hlist] at hfdt
      obtain ⟨w, hw, rfl⟩ := List.mem_map.mp hfdt
      exact hts.paths w hw
    have hnew := curPath_ne_nil hold cur u.contents
    rw [heq] at hnew
    exact hnew (List.mem_map_of_mem hu)
  refine ⟨σ, ts', t, hcall, ⟨hsound, hpaths, ?_⟩, ht, heq⟩
  obtain ⟨σ', t', hcall', -, hcases⟩ := hts.toSound.getFDT A cur
  obtain rfl := (Prod.ext_iff.mp (Option.some.inj (hcall.symm.trans hcall'))).2
  rcases hcases with ⟨-, rfl⟩ | ⟨hnone, hcontents, hsound'⟩
  · rw [hsound.toHolds.unique hts.toHolds]
    exact hts.count
  · have hcount := hts.toSound.getFDT_count hnone hcall'
    have hblocks : t'.blocks.length =
        (newFDT cur (ts.map StoredTable.contents)).fileObjects.length + 2 := by
      rw [← hcontents]
      simp [StoredTable.blocks, StoredTable.parts, StoredTable.contents]
    rw [hsound.toHolds.unique hsound'.toHolds, hcount, hts.count, List.map_append, List.sum_append,
      List.map_singleton, List.sum_singleton, hblocks]
    omega

/-! ## The operations -/

/-- The same answer, and no more dropped file objects. -/
abbrev Refines {ω : Type} (lost : ℕ) :
    Option (ω × LinkedState area) → Option (ω × State area) → Prop :=
  Agrees fun l s ↦ Represents l s lost

theorem TableHeap.Holding.represents (h : σ.Holding ts lost) (st : Store area) :
    Represents ⟨st, σ⟩ ⟨st, ts.map StoredTable.contents⟩ lost :=
  ⟨rfl, ts, h, rfl⟩

/-- Pathnames are resolved from the first file object and the path. -/
theorem resolve_congr {fdt fdt' : FDT} (hhead : fdt.fileObjects.head? = fdt'.fileObjects.head?)
    (hpath : fdt.curPath = fdt'.curPath) (st : Store area) (pathname : List UInt8) :
    resolve st fdt pathname = resolve st fdt' pathname := by
  simp only [resolve, readPathname, hhead, hpath]

theorem Represents.rdPwd (h : Represents l s lost) (A : Allocator) (cur : Process) :
    ∃ l', LinkedState.rdPwd A cur l = some ((Filesys.rdPwd cur s).1, l') ∧
      Represents l' (Filesys.rdPwd cur s).2 lost := by
  obtain ⟨σ, ts, t, hcall, hσ, ht, heq⟩ := h.getFDT A cur
  obtain ⟨link, hnode⟩ := (hσ.storedTable ht).node
  refine ⟨⟨l.store, σ⟩, ?_, ?_⟩
  · simp only [LinkedState.rdPwd, hcall, hnode, (hσ.stored t ht).path, Filesys.rdPwd, heq,
      Option.bind_eq_bind, Option.bind_some, StoredTable.contents]
  · rw [Filesys.rdPwd, heq, h.store]
    exact hσ.represents s.store

theorem Represents.create (h : Represents l s lost) (A : Allocator) (cur : Process)
    (pathname : List UInt8) (mode : ℤ) (type : ObjectType) (fresh : ℕ → UInt8) :
    Refines lost (l.create A cur pathname mode type fresh)
      (Filesys.create cur pathname mode type fresh s) := by
  rw [LinkedState.create, Filesys.create, h.store]
  split
  · exact .some ⟨rfl, h⟩
  · obtain ⟨σ, ts, t, hcall, hσ, ht, heq⟩ := h.getFDT A cur
    obtain ⟨fdt, hfields, hhead, hpath⟩ := (hσ.storedTable ht).pathFields
    simp only [hcall, heq, hfields, lookupNew, resolve_congr hhead hpath, Option.bind_eq_bind,
      Option.bind_some]
    refine rel_bind_same _ fun target _ ↦ ?_
    rcases target with _ | ⟨des, childfile⟩
    · exact .some ⟨rfl, hσ.represents s.store⟩
    · exact rel_bind_same _ fun r _ ↦ .some ⟨rfl, hσ.represents r.2⟩

theorem Represents.rdClose (h : Represents l s lost) (A : Allocator) (cur : Process) (fd : ℤ) :
    Refines lost (l.rdClose A cur fd) (Filesys.rdClose cur fd s) := by
  obtain ⟨σ, ts, t, hcall, hσ, ht, heq⟩ := h.getFDT A cur
  have hst := hσ.storedTable ht
  obtain ⟨link, hnode⟩ := hst.node
  simp only [LinkedState.rdClose, Filesys.rdClose, hcall, heq, hnode, h.store, Option.bind_eq_bind,
    Option.bind_some]
  by_cases hzero : fd = 0
  · obtain ⟨fo, vs, hobjects⟩ := hst.exists_head
    obtain ⟨next, hderef⟩ := hst.object (hobjects ▸ List.mem_cons_self)
    have hhead : t.contents.fileObjects = fo :: vs.map Prod.snd := by
      rw [StoredTable.contents, hobjects, List.map_cons]
    simp only [if_pos hzero, hderef, hhead, List.head?_cons, Option.bind_some]
    split
    · exact .some ⟨rfl, hσ.represents s.store⟩
    · refine rel_bind_same _ fun ino _ ↦ ?_
      have hfirst : t.objects = [] ++ (t.fields.fileObjectListHead, fo) :: vs := hobjects
      obtain ⟨σ₁, hset, hc₁⟩ := hst.setObject hfirst ⟨ino.parentIndex, 0⟩
      obtain ⟨σ₂, path, hcut, hpath, hne, hc₂⟩ := (hst.changes hc₁).cutCurPath (hσ.paths t ht)
      have hcutPath : cutPath t.contents.curPath = some path := hpath
      have hrep := hσ.changes (s := ⟨s.store, ts.map StoredTable.contents⟩) ht (hc₁.trans hc₂)
        hne rfl
      rw [hset, Option.bind_some, hcut, Option.bind_some, hcutPath, Option.bind_some]
      exact .some ⟨rfl, hrep⟩
  · simp only [if_neg hzero]
    rcases lt_or_gt_of_ne hzero with hneg | hpos
    · have hnull : ∀ head, σ.unlinkObject 0 head = none := fun head ↦ by
        rw [TableHeap.unlinkObject, Option.bind_eq_bind, Option.bind_eq_none_iff]
        exact fun _ _ ↦ rfl
      rw [Int.toNat_of_nonpos hneg.le, TableHeap.walk, Option.bind_some, if_pos hneg]
      dsimp only
      rw [hnull]
      exact .none
    · rw [if_neg (not_lt_of_gt hpos)]
      have hlength : t.contents.fileObjects.length = t.objects.length := List.length_map _
      rcases hst.unlink_cases hpos with
        ⟨hlt, hwalk⟩ | ⟨fomer, fo, hwalk, ⟨heqLength, hnone⟩ | ⟨hlt, σ', xs, hunlink, hxs, hc⟩⟩
      · rw [hwalk, hlength, if_pos hlt]
        exact .some ⟨rfl, hσ.represents s.store⟩
      · simp only [hwalk, Option.bind_some, hnone]
        rw [hlength, if_neg (not_lt_of_ge heqLength.ge), if_pos heqLength]
        exact .none
      · simp only [hwalk, Option.bind_some, hunlink]
        rw [hlength, if_neg (not_lt_of_gt hlt), if_neg hlt.ne', ← hxs]
        have hrep := hσ.changes (s := ⟨s.store, ts.map StoredTable.contents⟩) ht hc (hσ.paths t ht)
          rfl
        exact .some ⟨rfl, hrep⟩

theorem Represents.rdRead (h : Represents l s lost) (A : Allocator) (cur : Process)
    (fd numBytes : ℤ) : Refines lost (l.rdRead A cur fd numBytes)
      (Filesys.rdRead cur fd numBytes s) := by
  obtain ⟨σ, ts, t, hcall, hσ, ht, heq⟩ := h.getFDT A cur
  simp only [LinkedState.rdRead, Filesys.rdRead, hcall, heq, h.store, Option.bind_eq_bind,
    Option.bind_some]
  rcases (hσ.storedTable ht).objectAt_cases fd with
    ⟨hnone, hat⟩ | ⟨us, a, fo, vs, hobjects, -, hsome, hat⟩
  · rw [hnone, hat]
    exact .some ⟨rfl, hσ.represents s.store⟩
  · obtain ⟨next, hderef, -⟩ := (hσ.storedTable ht).at_object hobjects
    simp only [hsome, hat, hderef, Option.bind_some]
    refine rel_bind_same _ fun ino _ ↦ rel_bind_same _ fun r _ ↦ ?_
    exact .some ⟨rfl, hσ.represents s.store⟩

theorem TableHeap.Holding.setPosition (h : σ.Holding ts lost) (ht : t ∈ ts)
    {us vs : List (ℕ × FileObject)} {a : ℕ} {fo : FileObject} {fd : ℤ}
    (hobjects : t.objects = us ++ (a, fo) :: vs) (hlength : us.length = fd.toNat) (position : ℤ)
    {s : State area} (hlist : s.fdtList = ts.map StoredTable.contents) :
    ∃ σ', σ.setObject a { fo with position := position } = some σ' ∧
      Represents ⟨s.store, σ'⟩ (s.setFDT (t.contents.setPosition fd fo position)) lost := by
  obtain ⟨σ', hset, hc⟩ := (h.storedTable ht).setObject hobjects { fo with position := position }
  refine ⟨σ', hset, ?_⟩
  have hcontents : t.contents.setPosition fd fo position = StoredTable.contents
      { t with objects := us ++ (a, { fo with position := position }) :: vs } := by
    refine congrArg (FDT.mk t.pid · t.curPath) ?_
    simp [StoredTable.contents, hobjects, ← hlength]
  rw [hcontents]
  exact h.changes ht hc (h.paths t ht) hlist

theorem Represents.rdWrite (h : Represents l s lost) (A : Allocator) (cur : Process) (fd : ℤ)
    (input : List UInt8) : Refines lost (l.rdWrite A cur fd input)
      (Filesys.rdWrite cur fd input s) := by
  obtain ⟨σ, ts, t, hcall, hσ, ht, heq⟩ := h.getFDT A cur
  simp only [LinkedState.rdWrite, Filesys.rdWrite, hcall, heq, h.store, Option.bind_eq_bind,
    Option.bind_some]
  rcases (hσ.storedTable ht).objectAt_cases fd with
    ⟨hnone, hat⟩ | ⟨us, a, fo, vs, hobjects, hlength, hsome, hat⟩
  · rw [hnone, hat]
    exact .some ⟨rfl, hσ.represents s.store⟩
  · obtain ⟨next, hderef, -⟩ := (hσ.storedTable ht).at_object hobjects
    simp only [hsome, hat, hderef, Option.bind_some]
    refine rel_bind_same _ fun written _ ↦ ?_
    obtain ⟨ret, position, store⟩ := written
    obtain ⟨σ', hset, hrep⟩ := hσ.setPosition ht hobjects hlength position
      (s := ⟨store, ts.map StoredTable.contents⟩) rfl
    rw [hset]
    exact .some ⟨rfl, hrep⟩

theorem Represents.rdLseek (h : Represents l s lost) (A : Allocator) (cur : Process)
    (fd position : ℤ) : Refines lost (l.rdLseek A cur fd position)
      (Filesys.rdLseek cur fd position s) := by
  obtain ⟨σ, ts, t, hcall, hσ, ht, heq⟩ := h.getFDT A cur
  simp only [LinkedState.rdLseek, Filesys.rdLseek, hcall, heq, h.store, Option.bind_eq_bind,
    Option.bind_some]
  rcases (hσ.storedTable ht).objectAt_cases fd with
    ⟨hnone, hat⟩ | ⟨us, a, fo, vs, hobjects, hlength, hsome, hat⟩
  · rw [hnone, hat]
    exact .some ⟨rfl, hσ.represents s.store⟩
  · obtain ⟨next, hderef, -⟩ := (hσ.storedTable ht).at_object hobjects
    simp only [hsome, hat, hderef, Option.bind_some]
    refine rel_bind_same _ fun ino _ ↦ ?_
    obtain ⟨σ', hset, hrep⟩ := hσ.setPosition ht hobjects hlength
      (if toInt ino.size < position then toInt ino.size else position)
      (s := ⟨s.store, ts.map StoredTable.contents⟩) rfl
    rw [hset]
    exact .some ⟨rfl, hrep⟩

theorem Represents.rdUnlink (h : Represents l s lost) (A : Allocator) (cur : Process)
    (pathname : List UInt8) : Refines lost (l.rdUnlink A cur pathname)
      (Filesys.rdUnlink cur pathname s) := by
  rw [LinkedState.rdUnlink, Filesys.rdUnlink]
  split
  · exact .some ⟨rfl, h⟩
  · obtain ⟨σ, ts, t, hcall, hσ, ht, heq⟩ := h.getFDT A cur
    obtain ⟨fdt, hfields, hhead, hpath⟩ := (hσ.storedTable ht).pathFields
    simp only [hcall, heq, hfields, lookup, resolve_congr hhead hpath, h.store,
      Option.bind_eq_bind, Option.bind_some]
    refine rel_bind_same _ fun target _ ↦ ?_
    rcases target with _ | ⟨childfile, i⟩
    · exact .some ⟨rfl, hσ.represents s.store⟩
    · refine rel_bind_same _ fun ino _ ↦ ?_
      split
      · exact .some ⟨rfl, hσ.represents s.store⟩
      · rw [hσ.isOpen_eq ht]
        refine rel_bind_same _ fun opened _ ↦ ?_
        split
        · exact .some ⟨rfl, hσ.represents s.store⟩
        · exact rel_bind_same _ fun store _ ↦ .some ⟨rfl, hσ.represents store⟩

theorem Represents.rdChmod (h : Represents l s lost) (A : Allocator) (cur : Process)
    (pathname : List UInt8) (mode : ℤ) : Refines lost (l.rdChmod A cur pathname mode)
      (Filesys.rdChmod cur pathname mode s) := by
  obtain ⟨σ, ts, t, hcall, hσ, ht, heq⟩ := h.getFDT A cur
  obtain ⟨fdt, hfields, hhead, hpath⟩ := (hσ.storedTable ht).pathFields
  simp only [LinkedState.rdChmod, Filesys.rdChmod, hcall, heq, hfields, lookup,
    resolve_congr hhead hpath, h.store, Option.bind_eq_bind, Option.bind_some]
  refine rel_bind_same _ fun target _ ↦ ?_
  rcases target with _ | ⟨childfile, i⟩
  · exact .some ⟨rfl, hσ.represents s.store⟩
  · exact rel_bind_same _ fun ino _ ↦ .some ⟨rfl, hσ.represents _⟩

/-! ## Opening -/

theorem backUps_pos {temppath : List UInt8} {back t t' : ℕ}
    (h : backUps temppath back t = some t') (ht : 0 < t) : 0 < t' := by
  induction back generalizing t with
  | zero => exact Option.some.inj h ▸ ht
  | succ back ih =>
      obtain ⟨m, hm, hrest⟩ := Option.bind_eq_some_iff.mp h
      refine ih hrest ?_
      simp only [backUp] at hm
      split at hm
      · next hlt =>
        rw [← Option.some.inj hm]
        exact Nat.sub_pos_of_lt hlt
      · cases hm

/-- The new path begins with a part of the old one and has no NUL. -/
theorem buildPath_chars {curPath pathname path : List UInt8}
    (h : buildPath curPath pathname = some path) (hcur : (0 : UInt8) ∉ curPath)
    (hname : (0 : UInt8) ∉ pathname) : path ≠ [] ∧ (0 : UInt8) ∉ path := by
  simp only [buildPath] at h
  generalize htemp : (if curPath = [47] then curPath else curPath ++ [47]) = temppath at h
  have htemppath : temppath ≠ [] ∧ (0 : UInt8) ∉ temppath := by
    rw [← htemp]
    split
    · next hroot => exact ⟨hroot ▸ List.cons_ne_nil _ _, hcur⟩
    · refine ⟨List.append_ne_nil_of_right_ne_nil _ (List.cons_ne_nil _ _), fun hmem ↦ ?_⟩
      rcases List.mem_append.mp hmem with hmem | hmem
      · exact hcur hmem
      · exact absurd (List.mem_singleton.mp hmem) (by decide)
  obtain ⟨t, ht, h⟩ := Option.bind_eq_some_iff.mp h
  have hpos := backUps_pos ht (List.length_pos_iff.mpr htemppath.1)
  have hparts : ∀ t b, 0 < t → temppath.take t ++ pathname.drop b ≠ [] ∧
      (0 : UInt8) ∉ temppath.take t ++ pathname.drop b := by
    intro t b ht
    refine ⟨List.append_ne_nil_of_left_ne_nil (fun hnil ↦ ?_) _, fun hmem ↦ ?_⟩
    · exact htemppath.1 ((List.take_eq_nil_iff.mp hnil).resolve_left ht.ne')
    · exact (List.mem_append.mp hmem).elim (fun hmem ↦ htemppath.2 (List.mem_of_mem_take hmem))
        fun hmem ↦ hname (List.mem_of_mem_drop hmem)
  have hsome : ∀ t b, 0 < t → (if temppath.length < 1024 ∧
      (temppath.take t ++ pathname.drop b).length < 1024 then
        some (temppath.take t ++ pathname.drop b) else none) = some path →
      path ≠ [] ∧ (0 : UInt8) ∉ path := by
    intro t b ht hpath
    split at hpath
    · exact Option.some.inj hpath ▸ hparts t b ht
    · cases hpath
  split at h
  · exact hsome _ _ Nat.one_pos h
  · exact hsome _ _ hpos h

def FDT.load (fdt : FDT) (i : ℕ) (type : ObjectType) (path : List UInt8) : FDT :=
  { fdt with
    fileObjects := if type = .dir then [⟨i, 0⟩] else fdt.fileObjects ++ [⟨i, 0⟩]
    curPath := path }

/-- What follows the checks of `rd_open`. A directory drops all file objects but the first. -/
theorem TableHeap.Holding.load (h : σ.Holding ts lost) (ht : t ∈ ts) (A : Allocator) (i : ℕ)
    (type : ObjectType) {path : List UInt8} (hne : path ≠ []) (hnul : (0 : UInt8) ∉ path)
    (st : Store area) : ∃ fd σ₁ σ₂, σ.loadObject A t.addr i type = some (fd, σ₁) ∧
      fd = (if type = .dir then 0 else t.contents.fileObjects.length) ∧
      σ₁.replacePath A t.addr path = some σ₂ ∧
      Represents ⟨st, σ₂⟩
        (State.setFDT ⟨st, ts.map StoredTable.contents⟩ (t.contents.load i type path))
        (lost + (t.contents.fileObjects.length -
          (t.contents.load i type path).fileObjects.length)) := by
  have hst := h.storedTable ht
  have hlength : t.contents.fileObjects.length = t.objects.length := List.length_map _
  have hload : ∃ fd σ₁ xs more, σ.loadObject A t.addr i type = some (fd, σ₁) ∧
      fd = (if type = .dir then 0 else t.contents.fileObjects.length) ∧
      xs.map Prod.snd = (t.contents.load i type path).fileObjects ∧
      more = t.contents.fileObjects.length - (t.contents.load i type path).fileObjects.length ∧
      Changes σ σ₁ t { t with objects := xs } more := by
    by_cases hdir : type = .dir
    · obtain ⟨σ₁, xs, hload, hxs, hc⟩ := hst.loadObject_dir A i
      simp only [FDT.load, hdir, if_true, hlength, List.length_singleton]
      exact ⟨0, σ₁, xs, _, hload, rfl, hxs, rfl, hc⟩
    · obtain ⟨σ₁, xs, hload, hxs, hc⟩ := hst.loadObject_file A i hdir
      simp only [FDT.load, if_neg hdir, hlength, List.length_append]
      exact ⟨_, σ₁, xs, 0, hload, rfl, hxs, (Nat.sub_eq_zero_of_le (Nat.le_add_right _ _)).symm, hc⟩
  obtain ⟨fd, σ₁, xs, more, hload, hfd, hxs, hmore, hc₁⟩ := hload
  obtain ⟨σ₂, q, hreplace, hc₂⟩ := (hst.changes hc₁).replacePath A hnul
  have hrep := h.changes (s := ⟨st, ts.map StoredTable.contents⟩) ht (hc₁.trans hc₂) hne rfl
  refine ⟨fd, σ₁, σ₂, hload, hfd, hreplace, ?_⟩
  rw [← hmore]
  have hcontents : t.contents.load i type path =
      ⟨t.pid, xs.map Prod.snd, path⟩ := congrArg (FDT.mk t.pid · path) hxs.symm
  rw [hcontents]
  exact hrep

theorem Represents.rdOpen (h : Represents l s lost) (A : Allocator) (cur : Process)
    {pathname : List UInt8} (hname : (0 : UInt8) ∉ pathname) (flag : ℤ) :
    Option.Rel (fun x y ↦ x.1 = y.1 ∧ Represents x.2 y.2
        (lost + ((s.table cur).fileObjects.length - (y.2.table cur).fileObjects.length)))
      (l.rdOpen A cur pathname flag) (Filesys.rdOpen cur pathname flag s) := by
  obtain ⟨σ, ts, t, hcall, hσ, ht, heq⟩ := h.getFDT A cur
  have hst := hσ.storedTable ht
  obtain ⟨fdt, hfields, hhead, hpath⟩ := hst.pathFields
  have htable : s.table cur = t.contents := congrArg Prod.fst heq
  have hsame : State.table (⟨s.store, ts.map StoredTable.contents⟩ : State area) cur =
      s.table cur := table_of_tables (congrArg (·.2.fdtList) heq).symm
  have hset : ∀ fdt : FDT, fdt.pid = t.contents.pid →
      ((⟨s.store, ts.map StoredTable.contents⟩ : State area).setFDT fdt).table cur = fdt := by
    intro fdt hpid
    have htpid : t.contents.pid = cur.pid := htable ▸ getFDT_pid cur s
    have hnew := table_setFDT (s := s) (hpid.trans htpid)
    rwa [heq] at hnew
  have herror : Represents (LinkedState.mk s.store σ) ⟨s.store, ts.map StoredTable.contents⟩
      (lost + ((s.table cur).fileObjects.length -
        (State.table (⟨s.store, ts.map StoredTable.contents⟩ : State area)
          cur).fileObjects.length)) := by
    rw [hsame, Nat.sub_self]
    exact hσ.represents s.store
  simp only [LinkedState.rdOpen, Filesys.rdOpen, hcall, heq, hfields, lookup,
    resolve_congr hhead hpath, h.store, Option.bind_eq_bind, Option.bind_some]
  split
  · exact .none
  · refine rel_bind_same _ fun target _ ↦ ?_
    rcases target with _ | ⟨childfile, i⟩
    · exact .some ⟨rfl, herror⟩
    · simp only [hσ.isOpen_eq ht]
      refine rel_bind_same _ fun opened _ ↦ ?_
      split
      · exact .some ⟨rfl, herror⟩
      · refine rel_bind_same _ fun ino _ ↦ ?_
        split
        · exact .some ⟨rfl, herror⟩
        · rw [hpath]
          cases hbuild : buildPath t.curPath pathname with
          | none =>
              have hbuild' : buildPath t.contents.curPath pathname = none := hbuild
              simp only [hbuild', Option.bind_none, Option.bind_fun_none]
              exact .none
          | some path =>
              have hbuild' : buildPath t.contents.curPath pathname = some path := hbuild
              obtain ⟨hne, hnul⟩ :=
                buildPath_chars hbuild (Heap.notMem_string hst.parts.path) hname
              obtain ⟨fd, σ₁, σ₂, hload, hfd, hreplace, hrep⟩ :=
                hσ.load ht A i ino.type hne hnul s.store
              have hanswer : (if ino.type = .dir then some ((0 : ℤ),
                    State.setFDT (⟨s.store, ts.map StoredTable.contents⟩ : State area)
                      { t.contents with fileObjects := [⟨i, 0⟩], curPath := path })
                  else some ((t.contents.fileObjects.length : ℤ),
                    State.setFDT ⟨s.store, ts.map StoredTable.contents⟩
                      { t.contents with
                        fileObjects := t.contents.fileObjects ++ [⟨i, 0⟩], curPath := path })) =
                  some ((fd : ℤ), State.setFDT ⟨s.store, ts.map StoredTable.contents⟩
                    (t.contents.load i ino.type path)) := by
                rw [hfd, FDT.load]
                split <;> rfl
              simp only [hload, hreplace, hbuild', Option.bind_some]
              rw [hanswer]
              refine .some ⟨rfl, ?_⟩
              dsimp only
              rw [hset (t.contents.load i ino.type path) rfl, htable]
              exact hrep

/-! ## Runs -/

/-- The operations on the lists, with the number of the file objects dropped so far. -/
def countedIoctl (c : State area × ℕ) (e : Event) : Option (Reply × (State area × ℕ)) :=
  (ramdiskIoctl c.1 e).map fun r ↦ (r.1, (r.2, c.2 + dropped e c.1 r.2))

/-- The lists behind the tables in memory. -/
def RepresentsCounted (l : LinkedState area) (c : State area × ℕ) : Prop :=
  Represents l c.1 c.2

theorem agrees_counted {ω : Type} {x : Option (ω × LinkedState area)}
    {y : Option (ω × State area)} {e : Event} (h : Refines lost x y)
    (hdropped : ∀ s', dropped e s s' = 0) (f : ω → Reply) :
    Agrees RepresentsCounted (x.map fun r ↦ (f r.1, r.2))
      ((y.map fun r ↦ (f r.1, r.2)).map fun r ↦ (r.1, (r.2, lost + dropped e s r.2))) := by
  rw [Option.map_map]
  refine rel_map h fun u v huv ↦ ⟨congrArg f huv.1, ?_⟩
  rw [Function.comp_apply, hdropped]
  exact huv.2

theorem ramdiskIoctl_agrees (h : Represents l s lost) (A : Allocator) (e : Event) :
    Agrees RepresentsCounted (l.ramdiskIoctl A e) (countedIoctl (s, lost) e) := by
  obtain ⟨cur, call⟩ := e
  cases call with
  | pwd =>
      obtain ⟨l', hpwd, hrep⟩ := h.rdPwd A cur
      simp only [LinkedState.ramdiskIoctl, countedIoctl, ramdiskIoctl, hpwd, Option.bind_some]
      split
      · exact .some ⟨rfl, hrep⟩
      · exact .none
  | creat pathname mode fresh =>
      exact agrees_counted (h.create A cur pathname.chars mode .reg fresh) (fun _ ↦ rfl) (⟨·, []⟩)
  | mkdir pathname fresh =>
      exact agrees_counted (h.create A cur pathname.chars 1 .dir fresh) (fun _ ↦ rfl) (⟨·, []⟩)
  | openPath pathname flag =>
      rw [countedIoctl, ramdiskIoctl, Option.map_map]
      exact rel_map (h.rdOpen A cur pathname.noNul flag) fun u v huv ↦
        ⟨congrArg (Reply.mk · []) huv.1, huv.2⟩
  | close fd => exact agrees_counted (h.rdClose A cur fd) (fun _ ↦ rfl) (⟨·, []⟩)
  | read fd numBytes =>
      exact agrees_counted (h.rdRead A cur fd numBytes) (fun _ ↦ rfl) fun r ↦ ⟨r.ret, r.bytes⟩
  | write fd input =>
      exact agrees_counted (h.rdWrite A cur fd input) (fun _ ↦ rfl) (⟨·, []⟩)
  | lseek fd position =>
      exact agrees_counted (h.rdLseek A cur fd position) (fun _ ↦ rfl) (⟨·, []⟩)
  | unlink pathname =>
      exact agrees_counted (h.rdUnlink A cur pathname.chars) (fun _ ↦ rfl) (⟨·, []⟩)
  | chmod pathname mode =>
      exact agrees_counted (h.rdChmod A cur pathname.chars mode) (fun _ ↦ rfl) (⟨·, []⟩)

theorem linked_agrees_counted (A : Allocator) (area : Area) (events : List Event) :
    Agrees RepresentsCounted
      (trace (LinkedState.ramdiskIoctl A) (LinkedState.loaded area) events)
      (trace countedIoctl (initState area, 0) events) :=
  trace_agrees (fun _ _ e h ↦ ramdiskIoctl_agrees h A e) (represents_loaded area) events

theorem counted_agrees (area : Area) (events : List Event) :
    Agrees (fun (c : State area × ℕ) s ↦ c.1 = s) (trace countedIoctl (initState area, 0) events)
      (trace ramdiskIoctl (initState area) events) := by
  refine trace_agrees (R := fun (c : State area × ℕ) s ↦ c.1 = s) (fun c s e h ↦ ?_) rfl events
  subst h
  rw [countedIoctl]
  cases ramdiskIoctl c.1 e with
  | none => exact .none
  | some r => exact .some ⟨rfl, rfl⟩

/-- Whatever addresses `vmalloc` returns, a run on the tables in memory gives the answers of the
run on the lists of tables, is undefined when it is, and ends with its tables. -/
theorem linked_tables_refine (A : Allocator) (area : Area) (events : List Event) :
    Agrees (fun l s ↦ l.store = s.store ∧
        ∃ ts, l.tables.Sound ts ∧ s.fdtList = ts.map StoredTable.contents)
      (trace (LinkedState.ramdiskIoctl A) (LinkedState.loaded area) events)
      (trace ramdiskIoctl (initState area) events) := by
  refine ((linked_agrees_counted A area events).trans (counted_agrees area events)).imp ?_
  rintro l s ⟨⟨s', lost⟩, hrep, rfl⟩
  obtain ⟨ts, hts, hlist⟩ := hrep.tables
  exact ⟨hrep.store, ts, hts.toSound, hlist⟩

end OperatingSystem.Filesys
