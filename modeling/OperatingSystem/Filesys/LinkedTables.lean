import Mathlib.Data.List.TakeWhile
import OperatingSystem.Filesys.TableHeap

/-!
# Tables in linked lists

What tables the FDT list in memory consists of. No two of them share a block, so that a
process which changes its own table leaves the others, and a new table goes behind the last.
-/

namespace OperatingSystem.Filesys

open LinkedList

/-! ## Tables in memory -/

/-- A table with the blocks that it lies in. -/
structure StoredTable where
  addr : ℕ
  fields : FDTFields
  objects : List (ℕ × FileObject)
  curPath : List UInt8

namespace StoredTable

def pid (t : StoredTable) : ℤ := t.fields.pid

def contents (t : StoredTable) : FDT where
  pid := t.pid
  fileObjects := t.objects.map Prod.snd
  curPath := t.curPath

/-- The blocks that hang on the members. -/
def parts (t : StoredTable) : List ℕ := t.fields.curPath :: t.objects.map Prod.fst

def blocks (t : StoredTable) : List ℕ := t.addr :: t.parts

/-- What hangs on the members of the table. -/
structure In (heap : Heap) (t : StoredTable) : Prop where
  chain : Chain heap.fileObject t.fields.fileObjectListHead t.objects
  ne_nil : t.objects ≠ []
  path : heap.string t.fields.curPath = some t.curPath

end StoredTable

namespace TableHeap

/-- The FDT list consists of these tables. -/
structure Holds (σ : TableHeap) (ts : List StoredTable) : Prop where
  chain : Chain σ.heap.fdt σ.fdtListHead (ts.map fun t ↦ (t.addr, t.fields))
  stored : ∀ t ∈ ts, t.In σ.heap

/-- A table is changed in its place in the list. Only its blocks and new ones are written. -/
structure Rewrites (σ σ' : TableHeap) (t t' : StoredTable) : Prop where
  addr : t'.addr = t.addr
  pid : t'.pid = t.pid
  node : ∀ next, σ.heap.fdt t.addr = some (t.fields, next) →
    σ'.heap.fdt t.addr = some (t'.fields, next)
  stored : t'.In σ'.heap
  blocks : ∀ a ∈ t'.blocks, a ∈ t.blocks ∨ a ∉ σ.heap
  kept : ∀ a ∈ σ.heap, a ∉ t.blocks → σ'.heap.lookup a = σ.heap.lookup a
  head : σ'.fdtListHead = σ.fdtListHead

/-- A process changes the table that it has. -/
def OwnChange (pid : ℤ) (σ σ' : TableHeap) : Prop :=
  ∃ ts t t', σ.Holds ts ∧ t ∈ ts ∧ t.pid = pid ∧ Rewrites σ σ' t t'

end TableHeap

/-! ## Blocks that stay -/

section Frame

variable {heap heap' : Heap} {a p : ℕ} {t : StoredTable}

theorem Heap.fdt_congr (h : heap'.lookup a = heap.lookup a) : heap'.fdt a = heap.fdt a := by
  rw [Heap.fdt, Heap.fdt, h]

theorem Heap.fileObject_congr (h : heap'.lookup a = heap.lookup a) :
    heap'.fileObject a = heap.fileObject a := by
  rw [Heap.fileObject, Heap.fileObject, h]

theorem Heap.string_congr (h : heap'.lookup a = heap.lookup a) :
    heap'.string a = heap.string a := by
  rw [Heap.string, Heap.string, h]

theorem Heap.mem_congr (h : heap'.lookup a = heap.lookup a) (ha : a ∈ heap) : a ∈ heap' := by
  obtain ⟨block, hblock⟩ := Finmap.mem_iff.mp ha
  exact Finmap.mem_of_lookup_eq_some (h.trans hblock)

theorem Heap.fdt_eq_some {fields : FDTFields} {next : ℕ} :
    heap.fdt a = some (fields, next) ↔ heap.lookup a = some (.fdt fields next) := by
  rw [Heap.fdt]
  split <;> simp_all

theorem Heap.fileObject_eq_some {fo : FileObject} {next : ℕ} :
    heap.fileObject a = some (fo, next) ↔ heap.lookup a = some (.fileObject fo next) := by
  rw [Heap.fileObject]
  split <;> simp_all

theorem StoredTable.In.congr (h : t.In heap)
    (hkept : ∀ a ∈ t.parts, heap'.lookup a = heap.lookup a) : t.In heap' where
  chain := h.chain.congr fun a ha ↦ Heap.fileObject_congr (hkept a (List.mem_cons_of_mem _ ha))
  ne_nil := h.ne_nil
  path := (Heap.string_congr (hkept _ List.mem_cons_self)).trans h.path

theorem Heap.exists_chars {s : List UInt8} (h : heap.string a = some s) :
    ∃ bytes, heap.lookup a = some (.chars bytes) ∧ 0 ∈ bytes ∧ bytes.takeWhile (· ≠ 0) = s := by
  rw [Heap.string] at h
  split at h
  · next bytes hlookup =>
    split at h
    · next hnul => exact ⟨bytes, hlookup, hnul, Option.some.inj h⟩
    · cases h
  · cases h

theorem Heap.notMem_string {s : List UInt8} (h : heap.string a = some s) : (0 : UInt8) ∉ s := by
  obtain ⟨bytes, -, -, rfl⟩ := Heap.exists_chars h
  intro hmem
  have hne := List.mem_takeWhile_imp hmem
  exact absurd hne (by decide)

/-- The parts of a table lie in the heap, and none of them is a table. -/
theorem StoredTable.In.mem_heap (h : t.In heap) (ha : a ∈ t.parts) :
    a ∈ heap ∧ heap.fdt a = none := by
  rcases List.mem_cons.mp ha with rfl | ha
  · obtain ⟨bytes, hlookup, -⟩ := Heap.exists_chars h.path
    exact ⟨Finmap.mem_of_lookup_eq_some hlookup, by rw [Heap.fdt, hlookup]⟩
  · obtain ⟨⟨b, fo⟩, hb, rfl⟩ := List.mem_map.mp ha
    obtain ⟨-, next, hnode⟩ := h.chain.exists_node hb
    have hlookup := Heap.fileObject_eq_some.mp hnode
    exact ⟨Finmap.mem_of_lookup_eq_some hlookup, by rw [Heap.fdt, hlookup]⟩

end Frame

namespace TableHeap

variable {A : Allocator} {σ σ' : TableHeap} {ts : List StoredTable} {t : StoredTable} {a p : ℕ}

theorem Holds.node (h : σ.Holds ts) (ht : t ∈ ts) :
    t.addr ≠ 0 ∧ ∃ next, σ.heap.fdt t.addr = some (t.fields, next) :=
  h.chain.exists_node (List.mem_map_of_mem (f := fun t : StoredTable ↦ (t.addr, t.fields)) ht)

theorem Holds.mem_heap (h : σ.Holds ts) (ht : t ∈ ts) (ha : a ∈ t.blocks) : a ∈ σ.heap := by
  rcases List.mem_cons.mp ha with rfl | ha
  · obtain ⟨-, next, hnode⟩ := h.node ht
    exact Finmap.mem_of_lookup_eq_some (Heap.fdt_eq_some.mp hnode)
  · exact ((h.stored t ht).mem_heap ha).1

theorem StoredTable.ext_of_in {t u : StoredTable} (haddr : t.addr = u.addr)
    (hfields : t.fields = u.fields) {heap : Heap} (ht : t.In heap) (hu : u.In heap) : t = u := by
  obtain ⟨addr, fields, objects, curPath⟩ := t
  obtain ⟨addr', fields', objects', curPath'⟩ := u
  obtain rfl : addr = addr' := haddr
  obtain rfl : fields = fields' := hfields
  obtain rfl := ht.chain.unique hu.chain
  obtain rfl := Option.some.inj (ht.path.symm.trans hu.path)
  rfl

/-- The list in memory determines the tables. -/
theorem Holds.unique {us : List StoredTable} (h : σ.Holds ts) (g : σ.Holds us) : ts = us := by
  have hchain := h.chain.unique g.chain
  have hstored := h.stored
  have gstored := g.stored
  clear h g
  induction ts generalizing us with
  | nil => exact (List.map_eq_nil_iff.mp hchain.symm).symm
  | cons t ts ih =>
      cases us with
      | nil => cases hchain
      | cons u us =>
          rw [List.map_cons, List.map_cons, List.cons.injEq, Prod.ext_iff] at hchain
          obtain ⟨⟨haddr, hfields⟩, hrest⟩ := hchain
          rw [StoredTable.ext_of_in haddr hfields (hstored t List.mem_cons_self)
              (gstored u List.mem_cons_self),
            ih hrest (fun t ht ↦ hstored t (List.mem_cons_of_mem _ ht))
              fun u hu ↦ gstored u (List.mem_cons_of_mem _ hu)]

/-! ## The invariant -/

structure Sound (σ : TableHeap) (ts : List StoredTable) : Prop extends Holds σ ts where
  apart : ts.Pairwise fun t u ↦ t.blocks.Disjoint u.blocks
  pids : (ts.map StoredTable.pid).Nodup

theorem sound_loaded : Sound loaded [] :=
  ⟨⟨rfl, fun _ ht ↦ absurd ht List.not_mem_nil⟩, .nil, .nil⟩

theorem Sound.eq_of_pid (h : Sound σ ts) {t u : StoredTable} (ht : t ∈ ts) (hu : u ∈ ts)
    (hpid : t.pid = u.pid) : t = u :=
  List.inj_on_of_nodup_map h.pids ht hu hpid

theorem Sound.disjoint (h : Sound σ ts) {t u : StoredTable} (ht : t ∈ ts) (hu : u ∈ ts)
    (hne : t ≠ u) : t.blocks.Disjoint u.blocks :=
  have : Std.Symm fun t u : StoredTable ↦ t.blocks.Disjoint u.blocks :=
    ⟨fun _ _ hdisjoint ↦ hdisjoint.symm⟩
  h.apart.forall ht hu hne

theorem Sound.eq_of_mem_blocks (h : Sound σ ts) {t u : StoredTable} (ht : t ∈ ts) (hu : u ∈ ts)
    (hat : a ∈ t.blocks) (hau : a ∈ u.blocks) : t = u := by
  by_contra hne
  exact h.disjoint ht hu hne hat hau

/-! ## Changes of one's own table -/

/-- The table in the place of `t`. -/
def replace (t t' u : StoredTable) : StoredTable := if u.addr = t.addr then t' else u

theorem Rewrites.replace_cases {t' u : StoredTable} (hr : Rewrites σ σ' t t') (h : Sound σ ts)
    (ht : t ∈ ts) (hu : u ∈ ts) : u = t ∧ replace t t' u = t' ∨
      u ≠ t ∧ replace t t' u = u ∧ ∀ a ∈ u.blocks, σ'.heap.lookup a = σ.heap.lookup a := by
  by_cases hut : u = t
  · exact .inl ⟨hut, if_pos (congrArg StoredTable.addr hut)⟩
  · have haddr : u.addr ≠ t.addr := fun heq ↦
      hut (h.eq_of_mem_blocks hu ht List.mem_cons_self (heq ▸ List.mem_cons_self))
    exact .inr ⟨hut, if_neg haddr, fun a ha ↦
      hr.kept a (h.mem_heap hu ha) fun hat ↦ hut (h.eq_of_mem_blocks hu ht ha hat)⟩

theorem Sound.rewrites {t' : StoredTable} (h : Sound σ ts) (ht : t ∈ ts)
    (hr : Rewrites σ σ' t t') : Sound σ' (ts.map (replace t t')) where
  chain := by
    have hfields : (ts.map (replace t t')).map (fun t ↦ (t.addr, t.fields)) =
        (ts.map fun t ↦ (t.addr, t.fields)).map
          fun x ↦ (x.1, if x.1 = t.addr then t'.fields else x.2) := by
      rw [List.map_map, List.map_map]
      refine List.map_congr_left fun u hu ↦ ?_
      by_cases haddr : u.addr = t.addr
      · simp [replace, haddr, hr.addr]
      · simp [replace, haddr]
    rw [hfields, hr.head]
    refine h.chain.map (fun a v ↦ if a = t.addr then t'.fields else v) fun a v next hmem hnode ↦ ?_
    obtain ⟨u, hu, heq⟩ := List.mem_map.mp hmem
    obtain ⟨rfl, rfl⟩ := Prod.ext_iff.mp heq
    rcases hr.replace_cases h ht hu with ⟨rfl, -⟩ | ⟨hne, -, hkept⟩
    · exact (hr.node next hnode).trans (by rw [if_pos rfl])
    · have haddr : u.addr ≠ t.addr := fun heq ↦
        hne (h.eq_of_mem_blocks hu ht List.mem_cons_self (heq ▸ List.mem_cons_self))
      rw [Heap.fdt_congr (hkept _ List.mem_cons_self), if_neg haddr]
      exact hnode
  stored := by
    intro u' hu'
    obtain ⟨u, hu, rfl⟩ := List.mem_map.mp hu'
    rcases hr.replace_cases h ht hu with ⟨-, heq⟩ | ⟨-, heq, hkept⟩
    · rw [heq]
      exact hr.stored
    · rw [heq]
      exact (h.stored u hu).congr fun a ha ↦ hkept a (List.mem_cons_of_mem _ ha)
  apart := by
    refine List.pairwise_map.mpr (h.apart.imp_of_mem fun {u w} hu hw hdisjoint ↦ ?_)
    rcases hr.replace_cases h ht hu with ⟨hut, heq⟩ | ⟨-, heq, -⟩ <;>
      rcases hr.replace_cases h ht hw with ⟨hwt, heq'⟩ | ⟨-, heq', -⟩ <;> rw [heq, heq']
    · rw [hut, hwt] at hdisjoint
      exact (hdisjoint List.mem_cons_self List.mem_cons_self).elim
    · intro a ha haw
      rcases hr.blocks a ha with hat | hnew
      · exact hdisjoint (hut ▸ hat) haw
      · exact hnew (h.mem_heap hw haw)
    · intro a hau ha
      rcases hr.blocks a ha with hat | hnew
      · exact hdisjoint hau (hwt ▸ hat)
      · exact hnew (h.mem_heap hu hau)
    · exact hdisjoint
  pids := by
    have hpids : (ts.map (replace t t')).map StoredTable.pid = ts.map StoredTable.pid := by
      rw [List.map_map]
      refine List.map_congr_left fun u hu ↦ ?_
      rcases hr.replace_cases h ht hu with ⟨rfl, heq⟩ | ⟨-, heq, -⟩
      · exact (congrArg StoredTable.pid heq).trans hr.pid
      · exact congrArg StoredTable.pid heq
    rw [hpids]
    exact h.pids

/-- A change of one's own table leaves all others. -/
theorem Sound.ownChange (h : Sound σ ts) {pid : ℤ} (hown : OwnChange pid σ σ') :
    ∃ ts', Sound σ' ts' ∧ ∀ u ∈ ts, u.pid ≠ pid → u ∈ ts' := by
  obtain ⟨us, t, t', hus, ht, rfl, hr⟩ := hown
  obtain rfl := h.toHolds.unique hus
  refine ⟨_, h.rewrites ht hr, fun u hu hpid ↦ ?_⟩
  rcases hr.replace_cases h ht hu with ⟨rfl, -⟩ | ⟨-, heq, -⟩
  · exact absurd rfl hpid
  · exact List.mem_map.mpr ⟨u, hu, heq⟩

/-! ## A table behind the last one -/

/-- A table is made of new blocks and linked to the last table `l`. -/
structure Appends (σ σ' : TableHeap) (l t : StoredTable) : Prop where
  stored : t.In σ'.heap
  ne_null : t.addr ≠ 0
  node : σ'.heap.fdt t.addr = some (t.fields, 0)
  fresh : ∀ a ∈ t.blocks, a ∉ σ.heap
  link : σ'.heap.fdt l.addr = some (l.fields, t.addr)
  kept : ∀ a ∈ σ.heap, a ≠ l.addr → σ'.heap.lookup a = σ.heap.lookup a
  head : σ'.fdtListHead = σ.fdtListHead

theorem Sound.appends {l : StoredTable} (h : Sound σ (ts ++ [l])) (ha : Appends σ σ' l t)
    (hpid : ∀ u ∈ ts ++ [l], u.pid ≠ t.pid) : Sound σ' (ts ++ [l] ++ [t]) where
  chain := by
    have hchain := h.chain
    rw [ha.head, List.append_assoc, List.map_append]
    rw [List.map_append] at hchain
    refine hchain.link (fun a hmem ↦ ?_) ha.link ⟨rfl, ha.ne_null, 0, ha.node, rfl⟩
    obtain ⟨x, hx, rfl⟩ := List.mem_map.mp hmem
    obtain ⟨u, hu, rfl⟩ := List.mem_map.mp hx
    have hu' := List.mem_append_left [l] hu
    refine Heap.fdt_congr (ha.kept _ (h.mem_heap hu' List.mem_cons_self) fun heq ↦ ?_)
    have haddr : u.addr = l.addr := heq
    have hdisjoint := (List.pairwise_append.mp h.apart).2.2 u hu l (List.mem_singleton_self l)
    exact hdisjoint List.mem_cons_self (haddr ▸ List.mem_cons_self)
  stored := by
    intro u hu
    rcases List.mem_append.mp hu with hu | hu
    · refine (h.stored u hu).congr fun a hpart ↦ ?_
      obtain ⟨hmem, hnone⟩ := (h.stored u hu).mem_heap hpart
      refine ha.kept a hmem fun heq ↦ ?_
      obtain ⟨-, next, hnode⟩ := h.node (List.mem_append_right ts (List.mem_singleton_self l))
      rw [← heq, hnone] at hnode
      cases hnode
    · exact List.mem_singleton.mp hu ▸ ha.stored
  apart := by
    refine List.pairwise_append.mpr ⟨h.apart, List.pairwise_singleton _ _, ?_⟩
    intro u hu w hw a hau haw
    obtain rfl := List.mem_singleton.mp hw
    exact ha.fresh a haw (h.mem_heap hu hau)
  pids := by
    rw [List.map_append]
    refine List.nodup_append.mpr ⟨h.pids, List.nodup_singleton _, ?_⟩
    intro pid hmem pid' hmem'
    obtain ⟨u, hu, rfl⟩ := List.mem_map.mp hmem
    exact List.mem_singleton.mp hmem' ▸ hpid u hu

end TableHeap

end OperatingSystem.Filesys
