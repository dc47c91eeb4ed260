import OperatingSystem.Filesys.LinkedInterface
import OperatingSystem.Filesys.ProcessTables

/-!
# Changes of a table in memory

What the assignments, `vmalloc` and `vfree` of the operations do to the table of their caller,
and how many blocks there are afterwards.
-/

namespace OperatingSystem.Filesys

open LinkedList

namespace TableHeap

variable {A : Allocator} {σ σ' σ'' : TableHeap} {ts : List StoredTable} {t t' t'' : StoredTable}
  {a p : ℕ} {fo : FileObject} {next lost : ℕ}

/-! ## The number of blocks -/

def blockCount (σ : TableHeap) : ℕ := σ.heap.keys.card

theorem Writes.keys {block : Block} (h : Writes p block σ σ') :
    σ'.heap.keys = insert p σ.heap.keys := by
  ext a
  rw [Finset.mem_insert, Finmap.mem_keys, Finmap.mem_keys]
  by_cases hap : a = p
  · exact iff_of_true (hap ▸ Finmap.mem_of_lookup_eq_some h.block) (.inl hap)
  · have hkept := h.kept a hap
    refine ⟨fun ha ↦ .inr (Heap.mem_congr hkept.symm ha), fun ha ↦ ?_⟩
    exact Heap.mem_congr hkept (ha.resolve_left hap)

theorem Writes.blockCount_of_mem {block : Block} (h : Writes p block σ σ') (hp : p ∈ σ.heap) :
    σ'.blockCount = σ.blockCount := by
  rw [blockCount, h.keys, Finset.insert_eq_of_mem (Finmap.mem_keys.mpr hp), blockCount]

theorem Writes.blockCount_of_notMem {block : Block} (h : Writes p block σ σ')
    (hp : p ∉ σ.heap) : σ'.blockCount = σ.blockCount + 1 := by
  rw [blockCount, h.keys, Finset.card_insert_of_notMem (mt Finmap.mem_keys.mp hp), blockCount]

theorem blockCount_erase (hmem : p ∈ σ.heap) :
    TableHeap.blockCount { σ with heap := σ.heap.erase p } + 1 = σ.blockCount := by
  rw [blockCount, blockCount, Finmap.keys_erase]
  exact Finset.card_erase_add_one (Finmap.mem_keys.mpr hmem)

/-! ## Writing file objects -/

theorem deref_eq_some {heap : Heap} :
    heap.deref p = some (fo, next) ↔ p ≠ 0 ∧ heap.lookup p = some (.fileObject fo next) := by
  rw [Heap.deref]
  split
  · next hp => exact iff_of_false (fun h ↦ by cases h) fun h ↦ h.1 hp
  · next hp => rw [Heap.fileObject_eq_some, and_iff_right hp]

theorem setObject_writes (h : σ.heap.deref p = some (fo, next)) (fo' : FileObject) :
    ∃ σ', σ.setObject p fo' = some σ' ∧ Writes p (.fileObject fo' next) σ σ' := by
  refine ⟨_, ?_, writes_store p _ σ⟩
  rw [setObject, h, Option.map_some]

theorem setObjectNext_writes (h : σ.heap.deref p = some (fo, next)) (next' : ℕ) :
    ∃ σ', σ.setObjectNext p next' = some σ' ∧ Writes p (.fileObject fo next') σ σ' := by
  refine ⟨_, ?_, writes_store p _ σ⟩
  rw [setObjectNext, h, Option.map_some]

/-! ## Changes -/

/-- A table that lies in memory. -/
structure Stored (σ : TableHeap) (t : StoredTable) : Prop where
  node : ∃ next, σ.heap.fdt t.addr = some (t.fields, next)
  parts : t.In σ.heap

theorem Sound.storedTable (h : Sound σ ts) (ht : t ∈ ts) : Stored σ t :=
  ⟨(h.node ht).2, h.stored t ht⟩

/-- A table is changed in its place, and the given number of its blocks stays behind. -/
structure Changes (σ σ' : TableHeap) (t t' : StoredTable) (lost : ℕ) : Prop
    extends Rewrites σ σ' t t' where
  count : σ'.blockCount + t.blocks.length = σ.blockCount + t'.blocks.length + lost

theorem Rewrites.trans (h : Rewrites σ σ' t t') (g : Rewrites σ' σ'' t' t'') :
    Rewrites σ σ'' t t'' where
  addr := g.addr.trans h.addr
  pid := g.pid.trans h.pid
  node := fun next hnode ↦ by
    have hnode' := h.node next hnode
    rw [← h.addr] at hnode' ⊢
    exact g.node next hnode'
  stored := g.stored
  blocks := by
    intro a ha
    by_contra hnot
    obtain ⟨hat, hin⟩ := not_or.mp hnot
    have hin := not_not.mp hin
    rcases g.blocks a ha with hat' | hnew
    · exact (h.blocks a hat').elim hat fun hnew ↦ hnew hin
    · exact hnew (Heap.mem_congr (h.kept a hin hat) hin)
  kept := by
    intro a ha hat
    have hat' : a ∉ t'.blocks := fun hmem ↦ (h.blocks a hmem).elim hat fun hnew ↦ hnew ha
    rw [g.kept a (Heap.mem_congr (h.kept a ha hat) ha) hat', h.kept a ha hat]
  head := g.head.trans h.head

theorem Changes.trans {lost' : ℕ} (h : Changes σ σ' t t' lost) (g : Changes σ' σ'' t' t'' lost') :
    Changes σ σ'' t t'' (lost + lost') where
  toRewrites := h.toRewrites.trans g.toRewrites
  count := by
    have hcount := h.count
    have gcount := g.count
    omega

theorem Stored.changes (h : Stored σ t) (hc : Changes σ σ' t t' lost) : Stored σ' t' := by
  obtain ⟨next, hnode⟩ := h.node
  refine ⟨⟨next, ?_⟩, hc.stored⟩
  rw [hc.addr]
  exact hc.node next hnode

theorem Stored.lookup_fdt (h : Stored σ t) :
    ∃ next, σ.heap.lookup t.addr = some (.fdt t.fields next) := by
  obtain ⟨next, hnode⟩ := h.node
  exact ⟨next, Heap.fdt_eq_some.mp hnode⟩

theorem Stored.object (h : Stored σ t) (ha : (a, fo) ∈ t.objects) :
    ∃ next, σ.heap.deref a = some (fo, next) := by
  obtain ⟨hne, next, hnode⟩ := h.parts.chain.exists_node ha
  exact ⟨next, deref_eq_some.mpr ⟨hne, Heap.fileObject_eq_some.mp hnode⟩⟩

theorem Stored.object_ne (h : Stored σ t) (ha : a ∈ t.objects.map Prod.fst) :
    a ≠ t.addr ∧ a ≠ t.fields.curPath := by
  obtain ⟨⟨b, fo⟩, hb, rfl⟩ := List.mem_map.mp ha
  obtain ⟨next, hnode⟩ := h.object hb
  have hlookup := (deref_eq_some.mp hnode).2
  constructor
  · rintro heq
    obtain ⟨next', hfdt⟩ := h.lookup_fdt
    cases hlookup.symm.trans ((congrArg σ.heap.lookup heq).trans hfdt)
  · rintro heq
    obtain ⟨bytes, hbytes, -⟩ := Heap.exists_chars h.parts.path
    cases hlookup.symm.trans ((congrArg σ.heap.lookup heq).trans hbytes)

theorem Stored.path_ne (h : Stored σ t) : t.fields.curPath ≠ t.addr := by
  intro heq
  obtain ⟨bytes, hbytes, -⟩ := Heap.exists_chars h.parts.path
  obtain ⟨next, hfdt⟩ := h.lookup_fdt
  cases hbytes.symm.trans ((congrArg σ.heap.lookup heq).trans hfdt)

theorem Stored.mem_heap (h : Stored σ t) (ha : a ∈ t.blocks) : a ∈ σ.heap := by
  rcases List.mem_cons.mp ha with rfl | ha
  · obtain ⟨next, hfdt⟩ := h.lookup_fdt
    exact Finmap.mem_of_lookup_eq_some hfdt
  · exact (h.parts.mem_heap ha).1

theorem mem_blocks_of_object (ha : a ∈ t.objects.map Prod.fst) : a ∈ t.blocks :=
  List.mem_cons_of_mem _ (List.mem_cons_of_mem _ ha)

theorem mem_blocks_path (t : StoredTable) : t.fields.curPath ∈ t.blocks :=
  List.mem_cons_of_mem _ List.mem_cons_self

theorem Stored.changes_objects {xs : List (ℕ × FileObject)} (h : Stored σ t)
    (hchain : Chain σ'.heap.fileObject t.fields.fileObjectListHead xs) (hne : xs ≠ [])
    (hblocks : ∀ a ∈ xs.map Prod.fst, a ∈ t.objects.map Prod.fst ∨ a ∉ σ.heap)
    (hkept : ∀ a ∈ σ.heap, a ∉ t.objects.map Prod.fst → σ'.heap.lookup a = σ.heap.lookup a)
    (hhead : σ'.fdtListHead = σ.fdtListHead)
    (hcount : σ'.blockCount + t.objects.length = σ.blockCount + xs.length + lost) :
    Changes σ σ' t { t with objects := xs } lost where
  addr := rfl
  pid := rfl
  node := fun next hnode ↦ by
    have haddr := hkept t.addr (h.mem_heap List.mem_cons_self) fun hmem ↦
      (h.object_ne hmem).1 rfl
    exact (Heap.fdt_congr haddr).trans hnode
  stored := by
    refine ⟨hchain, hne, ?_⟩
    have hpath := hkept t.fields.curPath (h.mem_heap (mem_blocks_path t)) fun hmem ↦
      (h.object_ne hmem).2 rfl
    exact (Heap.string_congr hpath).trans h.parts.path
  blocks := by
    intro a ha
    rcases List.mem_cons.mp ha with rfl | ha
    · exact .inl List.mem_cons_self
    · rcases List.mem_cons.mp ha with rfl | ha
      · exact .inl (mem_blocks_path t)
      · exact (hblocks a ha).imp_left mem_blocks_of_object
  kept := fun a ha hat ↦ hkept a ha fun hmem ↦ hat (mem_blocks_of_object hmem)
  head := hhead
  count := by
    simp only [StoredTable.blocks, StoredTable.parts, List.length_cons, List.length_map]
    omega

section Objects

variable {us vs : List (ℕ × FileObject)}

theorem Stored.at_object (h : Stored σ t) (hobjects : t.objects = us ++ (a, fo) :: vs) :
    ∃ next, σ.heap.deref a = some (fo, next) ∧ a ∈ σ.heap ∧
      Chain σ.heap.fileObject next vs := by
  have hchain := h.parts.chain
  rw [hobjects] at hchain
  obtain ⟨hne, next, hnode, hrest⟩ := hchain.at_append
  have hlookup := Heap.fileObject_eq_some.mp hnode
  exact ⟨next, deref_eq_some.mpr ⟨hne, hlookup⟩, Finmap.mem_of_lookup_eq_some hlookup, hrest⟩

theorem Stored.ne_of_objects (h : Stored σ t) (hobjects : t.objects = us ++ (a, fo) :: vs)
    {b : ℕ} (hb : b ∈ us.map Prod.fst ∨ b ∈ vs.map Prod.fst) : b ≠ a := by
  have hnodup := h.parts.chain.nodup
  rw [hobjects, List.map_append, List.map_cons] at hnodup
  have hmiddle := List.nodup_middle.mp hnodup
  rintro rfl
  exact (List.nodup_cons.mp hmiddle).1 (List.mem_append.mpr hb)

theorem Stored.setObject (h : Stored σ t) (hobjects : t.objects = us ++ (a, fo) :: vs)
    (fo' : FileObject) : ∃ σ', σ.setObject a fo' = some σ' ∧
      Changes σ σ' t { t with objects := us ++ (a, fo') :: vs } 0 := by
  obtain ⟨next, hnode, hmem, hrest⟩ := h.at_object hobjects
  obtain ⟨σ', hset, hw⟩ := setObject_writes hnode fo'
  have hkept : ∀ b, b ∈ us.map Prod.fst ∨ b ∈ vs.map Prod.fst →
      σ'.heap.fileObject b = σ.heap.fileObject b := fun b hb ↦
    Heap.fileObject_congr (hw.kept b (h.ne_of_objects hobjects hb))
  have hchain := h.parts.chain
  rw [hobjects] at hchain
  refine ⟨σ', hset, h.changes_objects (hchain.relink (fun b hb ↦ hkept b (.inl hb))
    (Heap.fileObject_eq_some.mpr hw.block) (hrest.congr fun b hb ↦ hkept b (.inr hb)))
    (List.append_ne_nil_of_right_ne_nil us (List.cons_ne_nil _ _)) (fun b hb ↦ .inl ?_)
    (fun b _ hb ↦ hw.kept b ?_) hw.head ?_⟩
  · simpa [hobjects] using hb
  · rintro rfl
    exact hb (by simp [hobjects])
  · simp [hw.blockCount_of_mem hmem, hobjects]

theorem Stored.cutObjects (h : Stored σ t) (hobjects : t.objects = us ++ (a, fo) :: vs) :
    ∃ σ', σ.setObjectNext a 0 = some σ' ∧
      Changes σ σ' t { t with objects := us ++ [(a, fo)] } vs.length := by
  obtain ⟨next, hnode, hmem, -⟩ := h.at_object hobjects
  obtain ⟨σ', hset, hw⟩ := setObjectNext_writes hnode 0
  have hchain := h.parts.chain
  rw [hobjects] at hchain
  refine ⟨σ', hset, h.changes_objects (hchain.relink (fun b hb ↦ ?_)
    (Heap.fileObject_eq_some.mpr hw.block) (show Chain _ 0 [] from rfl))
    (List.append_ne_nil_of_right_ne_nil us (List.cons_ne_nil _ _)) (fun b hb ↦ .inl ?_)
    (fun b _ hb ↦ hw.kept b ?_) hw.head ?_⟩
  · exact Heap.fileObject_congr (hw.kept b (h.ne_of_objects hobjects (.inl hb)))
  · rw [hobjects, List.map_append, List.map_cons]
    rw [List.map_append, List.map_cons] at hb
    exact List.mem_append.mpr ((List.mem_append.mp hb).imp_right fun hb ↦
      List.mem_cons.mpr ((List.mem_cons.mp hb).imp_right fun hb ↦ absurd hb List.not_mem_nil))
  · rintro rfl
    exact hb (by simp [hobjects])
  · simp only [hw.blockCount_of_mem hmem, hobjects, List.length_append, List.length_cons,
      List.length_nil]
    omega

theorem Stored.appendObject (h : Stored σ t) (hobjects : t.objects = us ++ [(a, fo)])
    (A : Allocator) (new : FileObject) : ∃ σ' q, σ.appendObject A a new = some σ' ∧
      Changes σ σ' t { t with objects := us ++ [(a, fo), (q, new)] } 0 := by
  obtain ⟨next, hnode, hmem, -⟩ := h.at_object hobjects
  obtain ⟨q, σ₁, h₁, hq, hqmem, hw₁⟩ := alloc_writes A (.fileObject newFileObject 0) σ
  have haq : a ≠ q := fun heq ↦ hqmem (heq ▸ hmem)
  obtain ⟨hane, hlookup⟩ := deref_eq_some.mp hnode
  obtain ⟨σ₂, h₂, hw₂⟩ := setObjectNext_writes
    (deref_eq_some.mpr ⟨hane, (hw₁.kept a haq).trans hlookup⟩) q
  obtain ⟨σ₃, h₃, hw₃⟩ := setObject_writes
    (deref_eq_some.mpr ⟨hq, (hw₂.kept q haq.symm).trans hw₁.block⟩) new
  obtain ⟨σ', h₄, hw₄⟩ := setObjectNext_writes (deref_eq_some.mpr ⟨hq, hw₃.block⟩) 0
  have hkept : ∀ b, b ≠ a → b ≠ q → σ'.heap.lookup b = σ.heap.lookup b := fun b hba hbq ↦ by
    rw [hw₄.kept b hbq, hw₃.kept b hbq, hw₂.kept b hba, hw₁.kept b hbq]
  have hq₁ : q ∈ σ₁.heap := Finmap.mem_of_lookup_eq_some hw₁.block
  have hcount : σ'.blockCount = σ.blockCount + 1 := by
    rw [hw₄.blockCount_of_mem (hw₃.mem (hw₂.mem hq₁)), hw₃.blockCount_of_mem (hw₂.mem hq₁),
      hw₂.blockCount_of_mem (hw₁.mem hmem), hw₁.blockCount_of_notMem hqmem]
  have hchain := h.parts.chain
  rw [hobjects] at hchain
  refine ⟨σ', q, ?_, h.changes_objects (hchain.relink (fun b hb ↦ ?_)
    (Heap.fileObject_eq_some.mpr (((hw₄.kept a haq).trans (hw₃.kept a haq)).trans hw₂.block))
    ⟨rfl, hq, 0, Heap.fileObject_eq_some.mpr hw₄.block, rfl⟩)
    (List.append_ne_nil_of_right_ne_nil us (List.cons_ne_nil _ _)) (fun b hb ↦ ?_)
    (fun b hb hbt ↦ hkept b ?_ fun heq ↦ hqmem (heq ▸ hb)) ?_ ?_⟩
  · simp only [TableHeap.appendObject, h₁, h₂, h₃, h₄, Option.bind_eq_bind, Option.bind_some]
  · have hba := h.ne_of_objects hobjects (.inl hb)
    have hin : b ∈ σ.heap := h.mem_heap (mem_blocks_of_object (by simp [hobjects, hb]))
    exact Heap.fileObject_congr (hkept b hba fun heq ↦ hqmem (heq ▸ hin))
  · have hcases : b ∈ t.objects.map Prod.fst ∨ b = q := by simpa [hobjects, or_assoc] using hb
    exact hcases.imp_right fun heq : b = q ↦ heq ▸ hqmem
  · rintro rfl
    exact hbt (by simp [hobjects])
  · rw [hw₄.head, hw₃.head, hw₂.head, hw₁.head]
  · simp only [hcount, hobjects, List.length_append, List.length_cons, List.length_nil]
    omega

theorem Stored.unlinkObject {b : ℕ} {fo' : FileObject} (h : Stored σ t)
    (hobjects : t.objects = us ++ (a, fo) :: (b, fo') :: vs) :
    ∃ σ', σ.unlinkObject a b = some σ' ∧
      Changes σ σ' t { t with objects := us ++ (a, fo) :: vs } 0 := by
  have hobjects' : t.objects = (us ++ [(a, fo)]) ++ (b, fo') :: vs := by
    rw [hobjects, List.append_assoc, List.singleton_append]
  obtain ⟨link, hnode, hmem, -⟩ := h.at_object hobjects
  obtain ⟨next, hnode', hmem', hrest⟩ := h.at_object hobjects'
  have hba : b ≠ a := h.ne_of_objects hobjects (.inr List.mem_cons_self)
  obtain ⟨σ₁, h₁, hw₁⟩ := setObjectNext_writes hnode next
  have hkept : ∀ c, c ≠ a → c ≠ b →
      (σ₁.heap.erase b).lookup c = σ.heap.lookup c := fun c hca hcb ↦ by
    rw [Finmap.lookup_erase_ne hcb, hw₁.kept c hca]
  have hchain := h.parts.chain
  rw [hobjects] at hchain
  refine ⟨{ σ₁ with heap := σ₁.heap.erase b }, ?_, h.changes_objects (hchain.relink (fun c hc ↦ ?_)
    (Heap.fileObject_eq_some.mpr ((Finmap.lookup_erase_ne hba.symm).trans hw₁.block))
    (hrest.congr fun c hc ↦ ?_))
    (List.append_ne_nil_of_right_ne_nil us (List.cons_ne_nil _ _)) (fun c hc ↦ .inl ?_)
    (fun c _ hc ↦ hkept c ?_ ?_) hw₁.head ?_⟩
  · simp only [TableHeap.unlinkObject, hnode', h₁, Option.bind_eq_bind, Option.bind_some]
    exact if_pos (hw₁.mem hmem')
  · refine Heap.fileObject_congr (hkept c (h.ne_of_objects hobjects (.inl hc)) ?_)
    exact h.ne_of_objects hobjects' (.inl (by simp [hc]))
  · refine Heap.fileObject_congr (hkept c (h.ne_of_objects hobjects (.inr ?_)) ?_)
    · exact List.mem_cons_of_mem _ hc
    · exact h.ne_of_objects hobjects' (.inr hc)
  · rw [hobjects]
    simp only [List.map_append, List.map_cons, List.mem_append, List.mem_cons] at hc ⊢
    exact hc.imp_right fun hc ↦ hc.imp_right .inr
  · rintro rfl
    exact hc (by simp [hobjects])
  · rintro rfl
    exact hc (by simp [hobjects])
  · have hcount := blockCount_erase (hw₁.mem hmem')
    have hcount₁ := hw₁.blockCount_of_mem hmem
    simp only [hobjects, List.length_append, List.length_cons]
    omega

end Objects

/-! ## New tables -/

theorem store_count {block : Block} (h : p ∈ σ.heap) :
    (σ.store p block).blockCount = σ.blockCount :=
  (writes_store p block σ).blockCount_of_mem h

theorem setFDT_count {f : FDTFields → FDTFields} (h : σ.setFDT p f = some σ') :
    σ'.blockCount = σ.blockCount := by
  obtain ⟨⟨fields, link⟩, hfdt, rfl⟩ := Option.map_eq_some_iff.mp h
  exact store_count (Finmap.mem_of_lookup_eq_some (Heap.fdt_eq_some.mp hfdt))

theorem setNext_count (h : σ.setNext p next = some σ') : σ'.blockCount = σ.blockCount := by
  obtain ⟨⟨fields, link⟩, hfdt, rfl⟩ := Option.map_eq_some_iff.mp h
  exact store_count (Finmap.mem_of_lookup_eq_some (Heap.fdt_eq_some.mp hfdt))

theorem strcpy_count {s : List UInt8} (h : σ.strcpy p s = some σ') :
    σ'.blockCount = σ.blockCount := by
  rw [strcpy] at h
  split at h
  · next bytes hbytes =>
    split at h
    · cases h
      exact store_count (Finmap.mem_of_lookup_eq_some hbytes)
    · cases h
  · cases h

theorem alloc_count (A : Allocator) (block : Block) (σ : TableHeap) :
    (σ.alloc A block).2.blockCount = σ.blockCount + 1 := by
  obtain ⟨p, σ', h, -, hmem, hw⟩ := alloc_writes A block σ
  rw [h]
  exact hw.blockCount_of_notMem hmem

theorem fillFDT_count {pid : ℤ} {path : List UInt8} {size new : ℕ}
    (h : σ.fillFDT A p pid path size = some (new, σ')) :
    σ'.blockCount = σ.blockCount + 2 := by
  simp only [fillFDT, Option.bind_eq_bind, Option.bind_eq_some_iff] at h
  obtain ⟨σ₁, h₁, σ₂, h₂, σ₃, h₃, σ₄, h₄, σ₅, h₅, h⟩ := h
  cases h
  rw [setFDT_count h₅, alloc_count, setNext_count h₄, strcpy_count h₃, setFDT_count h₂,
    alloc_count, setFDT_count h₁]

theorem copyObjects_count {fuel newFo pFo : ℕ} {xs : List (ℕ × FileObject)}
    (h : Chain σ.heap.fileObject pFo xs) (hne : xs ≠ []) (hmem : newFo ∈ σ.heap)
    (hnotMem : newFo ∉ xs.map Prod.fst) (hcopy : copyObjects A fuel newFo pFo σ = some σ') :
    σ'.blockCount + 1 = σ.blockCount + xs.length := by
  induction xs generalizing fuel newFo pFo σ with
  | nil => exact absurd rfl hne
  | cons x xs ih =>
      cases fuel with
      | zero => cases hcopy
      | succ fuel =>
          obtain ⟨a, fo⟩ := x
          obtain ⟨rfl, hpFo, next, hnode, hrest⟩ := h
          simp only [copyObjects, hnode, Option.bind_eq_bind, Option.bind_some] at hcopy
          cases xs with
          | nil =>
              obtain rfl : next = 0 := hrest
              rw [if_neg (not_not_intro rfl)] at hcopy
              cases hcopy
              rw [store_count hmem]
              rfl
          | cons y ys =>
              rw [if_pos (hrest.ne_zero (List.cons_ne_nil y ys))] at hcopy
              have hw := writes_store newFo (.fileObject fo next) σ
              obtain ⟨q, σ₁, halloc, -, hqmem, hw₁⟩ :=
                alloc_writes A (.fileObject newFileObject 0) (σ.store newFo (.fileObject fo next))
              have hw₂ := writes_store newFo (.fileObject fo q) σ₁
              rw [halloc] at hcopy
              have hin : ∀ b ∈ (y :: ys).map Prod.fst, b ∈ σ.heap := by
                intro b hb
                obtain ⟨⟨c, w⟩, hc, rfl⟩ := List.mem_map.mp hb
                obtain ⟨-, link, hlink⟩ := hrest.exists_node hc
                exact Finmap.mem_of_lookup_eq_some (Heap.fileObject_eq_some.mp hlink)
              have hchain : Chain (σ₁.store newFo (.fileObject fo q)).heap.fileObject next
                  (y :: ys) := hrest.congr fun b hb ↦ by
                have hbnew : b ≠ newFo := fun heq ↦ hnotMem (heq ▸ List.mem_cons_of_mem _ hb)
                have hbq : b ≠ q := fun heq ↦ hqmem (heq ▸ hw.mem (hin b hb))
                refine Heap.fileObject_congr ?_
                rw [hw₂.kept b hbnew, hw₁.kept b hbq, hw.kept b hbnew]
              have hcount := ih hchain (List.cons_ne_nil y ys)
                (hw₂.mem (Finmap.mem_of_lookup_eq_some hw₁.block))
                (fun hmem ↦ hqmem (hw.mem (hin q hmem))) hcopy
              rw [hw₂.blockCount_of_mem (hw₁.mem (hw.mem hmem)), hw₁.blockCount_of_notMem hqmem,
                hw.blockCount_of_mem hmem] at hcount
              simp only [List.length_cons] at hcount ⊢
              omega

theorem createFDT_count {cur : Process} (h : σ.createFDT A cur = some (p, σ')) :
    σ'.blockCount = σ.blockCount + 3 := by
  obtain ⟨q, σ₁, halloc, -, hqmem, hw⟩ := alloc_writes A (.fdt newFields 0) σ
  have hnul : (0 : UInt8) ∉ ([47] : List UInt8) := by decide
  obtain ⟨σ₂, s, new, hfill, -, -, -, -, hmem, -⟩ :=
    fillFDT_eq A hw.block cur.pid hnul (Nat.lt_succ_self 1)
  simp only [createFDT, halloc, hfill, Option.bind_eq_bind, Option.bind_some] at h
  cases h
  rw [store_count hmem, fillFDT_count hfill, hw.blockCount_of_notMem hqmem]

theorem copyFDT_count {cur : Process} {l parent : StoredTable} {link : ℕ}
    (hl : σ.heap.fdt l.addr = some (l.fields, next))
    (hnode : σ.heap.fdt parent.addr = some (parent.fields, link)) (hparent : parent.In σ.heap)
    (h : σ.copyFDT A cur l.addr parent.addr = some (p, σ')) :
    σ'.blockCount = σ.blockCount + 2 + parent.objects.length := by
  have hlookup := Heap.fdt_eq_some.mp hl
  obtain ⟨q, σ₁, h₁, -, hqmem, hw₁⟩ := alloc_writes A (.fdt newFields 0) σ
  have hlq : l.addr ≠ q := fun heq ↦ hqmem (heq ▸ Finmap.mem_of_lookup_eq_some hlookup)
  obtain ⟨σ₂, h₂, hw₂⟩ := setNext_writes ((hw₁.kept l.addr hlq).trans hlookup) q
  simp only [copyFDT, h₁, h₂, Option.bind_eq_bind, Option.bind_some] at h
  obtain ⟨⟨fields, link'⟩, hfields, h⟩ := Option.bind_eq_some_iff.mp h
  obtain ⟨path, hpath, h⟩ := Option.bind_eq_some_iff.mp h
  obtain ⟨⟨new, σ₃⟩, hfill, h⟩ := Option.bind_eq_some_iff.mp h
  obtain ⟨σ₄, hcopy, h⟩ := Option.bind_eq_some_iff.mp h
  cases h
  have hkept₂ : ∀ b ∈ σ.heap, b ≠ l.addr → σ₂.heap.lookup b = σ.heap.lookup b :=
    fun b hb hbl ↦ (hw₂.kept b hbl).trans (hw₁.kept b fun heq ↦ hqmem (heq ▸ hb))
  have hfields' : fields = parent.fields := by
    by_cases heq : parent.addr = l.addr
    · rw [heq, Heap.fdt_eq_some.mpr hw₂.block] at hfields
      rw [heq, hl] at hnode
      cases hfields
      exact (Prod.ext_iff.mp (Option.some.inj hnode)).1
    · have hmem := Finmap.mem_of_lookup_eq_some (Heap.fdt_eq_some.mp hnode)
      rw [Heap.fdt_congr (hkept₂ _ hmem heq), hnode] at hfields
      exact (Prod.ext_iff.mp (Option.some.inj hfields)).1.symm
  subst hfields'
  have hobject : ∀ b ∈ parent.objects.map Prod.fst, b ∈ σ.heap ∧ b ≠ l.addr ∧ b ≠ p := by
    intro b hb
    obtain ⟨hmem, hnone⟩ := hparent.mem_heap (List.mem_cons_of_mem parent.fields.curPath hb)
    refine ⟨hmem, fun heq ↦ ?_, fun heq ↦ hqmem (heq ▸ hmem)⟩
    rw [← heq, hnone] at hl
    cases hl
  obtain ⟨σ₃', s, new', hfill', -, -, hnewmem, -, hnew, -, -, hkept₃, -⟩ := @fillFDT_eq σ₂ p _ _ A
    ((hw₂.kept p hlq.symm).trans hw₁.block) cur.pid path (Heap.notMem_string hpath) _
    (Nat.lt_succ_self _)
  cases hfill'.symm.trans hfill
  have hin₂ : ∀ b ∈ σ.heap, b ∈ σ₂.heap := fun b hb ↦ hw₂.mem (hw₁.mem hb)
  have hcount := copyObjects_count (hparent.chain.congr fun b hb ↦ Heap.fileObject_congr (by
      obtain ⟨hmem, hbl, hbq⟩ := hobject b hb
      rw [hkept₃ b (hin₂ b hmem) hbq, hkept₂ b hmem hbl])) hparent.ne_nil hnew
    (fun hmem ↦ hnewmem (hin₂ _ (hobject _ hmem).1)) hcopy
  rw [fillFDT_count hfill, hw₂.blockCount_of_mem (hw₁.mem
    (Finmap.mem_of_lookup_eq_some hlookup)), hw₁.blockCount_of_notMem hqmem] at hcount
  omega

/-- A process that had no table gets one with blocks of its own. -/
theorem Sound.getFDT_count (h : Sound σ ts) {cur : Process} (hnew : ∀ u ∈ ts, u.pid ≠ cur.pid)
    (hcall : σ.getFDT A cur = some (p, σ')) :
    σ'.blockCount = σ.blockCount + 2 +
      (newFDT cur (ts.map StoredTable.contents)).fileObjects.length := by
  have hcreate : (∀ u ∈ ts, u.pid ≠ cur.ppid) →
      (newFDT cur (ts.map StoredTable.contents)).fileObjects.length = 1 := fun hnone ↦ by
    rw [newFDT_of_notMem hnone]
    rfl
  have hfuel : ts.length < σ.heap.keys.card + 1 := by
    have hlength := h.chain.length_le fun a ha ↦ by
      obtain ⟨x, hx, rfl⟩ := List.mem_map.mp ha
      obtain ⟨u, hu, rfl⟩ := List.mem_map.mp hx
      exact Finmap.mem_keys.mpr (h.mem_heap hu List.mem_cons_self)
    rw [List.length_map] at hlength
    exact Nat.lt_succ_of_le hlength
  rw [TableHeap.getFDT] at hcall
  split at hcall
  · next hhead =>
    obtain ⟨⟨q, σ₁⟩, hmade, heq⟩ := Option.bind_eq_some_iff.mp hcall
    cases heq
    have hnone : ts = [] := by
      by_contra hne
      exact h.chain.ne_zero (mt List.map_eq_nil_iff.mp hne) hhead
    rw [hcreate fun u hu ↦ absurd (hnone ▸ hu) List.not_mem_nil]
    exact (createFDT_count hmade :)
  · next hhead =>
    obtain ⟨p', hsearch, hparent⟩ :=
      @search_of_notMem _ σ.heap cur.pid cur.ppid _ _ 0 0 h.chain hfuel hnew
    rw [hsearch, Option.bind_eq_bind, Option.bind_some] at hcall
    dsimp only at hcall
    rw [if_neg (not_not_intro rfl)] at hcall
    rcases List.eq_nil_or_concat' ts with rfl | ⟨us, l, rfl⟩
    · exact absurd h.chain hhead
    · obtain ⟨-, next, hlnode⟩ := h.node (List.mem_append_right us (List.mem_singleton_self l))
      rw [List.getLast?_concat, Option.map_some, Option.getD_some] at hcall
      rcases hparent with ⟨parent, hparent, hppid, rfl⟩ | ⟨hnone, rfl⟩
      · obtain ⟨hne, link, hnode⟩ := h.node hparent
        rw [if_neg hne] at hcall
        rw [h.newFDT_of_mem hparent hppid, copyFDT_count hlnode hnode (h.stored parent hparent)
          hcall]
        simp [StoredTable.contents]
      · rw [if_pos rfl] at hcall
        obtain ⟨⟨q, σ₁⟩, hmade, hlink⟩ := Option.bind_eq_some_iff.mp hcall
        obtain ⟨σ₂, hlink, heq⟩ := Option.bind_eq_some_iff.mp hlink
        cases heq
        rw [hcreate hnone, setNext_count hlink, createFDT_count hmade]

/-! ## Changes of the path -/

theorem Stored.replacePath (h : Stored σ t) (A : Allocator) {path : List UInt8}
    (hnul : (0 : UInt8) ∉ path) : ∃ σ' q, σ.replacePath A t.addr path = some σ' ∧
      Changes σ σ' t { t with fields := { t.fields with curPath := q }, curPath := path } 0 := by
  obtain ⟨link, hfdt⟩ := h.lookup_fdt
  have hs := h.mem_heap (mem_blocks_path t)
  obtain ⟨q, σ₂, h₂, -, hqmem, hw₂⟩ := alloc_writes A
    (.chars (List.replicate (path.length + 1) 0)) { σ with heap := σ.heap.erase t.fields.curPath }
  have hin₁ : ∀ b ∈ σ.heap, b ≠ t.fields.curPath → b ≠ q := fun b hb hbs heq ↦
    hqmem (heq ▸ Finmap.mem_erase.mpr ⟨hbs, hb⟩)
  have hkept₂ : ∀ b ∈ σ.heap, b ≠ t.fields.curPath → σ₂.heap.lookup b = σ.heap.lookup b :=
    fun b hb hbs ↦ (hw₂.kept b (hin₁ b hb hbs)).trans (Finmap.lookup_erase_ne hbs)
  have haddr := h.mem_heap (List.mem_cons_self : t.addr ∈ t.blocks)
  have haddrq : t.addr ≠ q := hin₁ t.addr haddr h.path_ne.symm
  obtain ⟨σ₃, h₃, hw₃⟩ := setFDT_writes ((hkept₂ t.addr haddr h.path_ne.symm).trans hfdt)
    fun fdt ↦ { fdt with curPath := q }
  have hroom : path.length < (List.replicate (path.length + 1) (0 : UInt8)).length :=
    (Nat.lt_succ_self _).trans_eq List.length_replicate.symm
  obtain ⟨σ', rest, h₄, hw₄⟩ :=
    strcpy_writes ((hw₃.kept q haddrq.symm).trans hw₂.block) hroom
  have hkept : ∀ b ∈ σ.heap, b ≠ t.fields.curPath → b ≠ t.addr →
      σ'.heap.lookup b = σ.heap.lookup b := fun b hb hbs hbt ↦ by
    rw [hw₄.kept b (hin₁ b hb hbs), hw₃.kept b hbt, hkept₂ b hb hbs]
  have hq₂ : q ∈ σ₂.heap := Finmap.mem_of_lookup_eq_some hw₂.block
  have haddr₂ : t.addr ∈ σ₂.heap :=
    Heap.mem_congr (hkept₂ t.addr haddr h.path_ne.symm) haddr
  refine ⟨σ', q, ?_, ⟨rfl, rfl, fun next hnode ↦ ?_, ⟨?_, h.parts.ne_nil, ?_⟩, fun b hb ↦ ?_,
    fun b hb hbt ↦ ?_, ?_⟩, ?_⟩
  · simp only [TableHeap.replacePath, Heap.fdt_eq_some.mpr hfdt, vfree, if_pos hs, h₂, h₃, h₄,
      Option.bind_eq_bind, Option.bind_some]
  · obtain rfl : link = next := by
      have heq := hfdt.symm.trans (Heap.fdt_eq_some.mp hnode)
      injection Option.some.inj heq
    exact Heap.fdt_eq_some.mpr ((hw₄.kept t.addr haddrq).trans hw₃.block)
  · refine h.parts.chain.congr fun b hb ↦ Heap.fileObject_congr (hkept b ?_ ?_ ?_)
    · exact h.mem_heap (mem_blocks_of_object hb)
    · exact (h.object_ne hb).2
    · exact (h.object_ne hb).1
  · exact string_of_chars hnul hw₄.block
  · rcases List.mem_cons.mp hb with rfl | hb
    · exact .inl List.mem_cons_self
    · rcases List.mem_cons.mp hb with rfl | hb
      · by_cases hbs : b = t.fields.curPath
        · exact .inl (hbs ▸ mem_blocks_path t)
        · exact .inr fun hb ↦ hqmem (Finmap.mem_erase.mpr ⟨hbs, hb⟩)
      · exact .inl (mem_blocks_of_object hb)
  · refine hkept b hb ?_ ?_
    · exact fun heq ↦ hbt (heq ▸ mem_blocks_path t)
    · exact fun heq ↦ hbt (heq ▸ List.mem_cons_self)
  · rw [hw₄.head, hw₃.head, hw₂.head]
  · have hcount := blockCount_erase hs
    rw [hw₄.blockCount_of_mem (hw₃.mem hq₂), hw₃.blockCount_of_mem haddr₂,
      hw₂.blockCount_of_notMem hqmem, hcount]
    rfl

theorem exists_chars_append {heap : Heap} {s : List UInt8} (h : heap.string a = some s) :
    ∃ rest, heap.lookup a = some (.chars (s ++ 0 :: rest)) := by
  obtain ⟨bytes, hbytes, hnul, htake⟩ := Heap.exists_chars h
  have hsplit := List.takeWhile_append_dropWhile (p := (· ≠ 0)) (l := bytes)
  rw [htake] at hsplit
  cases hrest : bytes.dropWhile (· ≠ 0) with
  | nil =>
      rw [hrest, List.append_nil] at hsplit
      exact absurd (hsplit ▸ hnul) (Heap.notMem_string h)
  | cons c rest =>
      obtain rfl : c = 0 := by
        have hne : bytes.dropWhile (· ≠ 0) ≠ [] := hrest ▸ List.cons_ne_nil c rest
        have hhead := List.head_dropWhile_not _ hne
        simp only [hrest, List.head_cons] at hhead
        simpa using hhead
      exact ⟨rest, by rw [hbytes, ← hrest, hsplit]⟩

/-- The loop of `rd_close` stops at the last slash behind the first character. -/
theorem lastSlash_eq (c : UInt8) (cs rest : List UInt8) {n : ℕ} (hn : n ≤ cs.length) :
    lastSlash (c :: cs ++ rest) n = n - (cs.take n).reverse.findIdx (· = 47) := by
  induction n with
  | zero => rfl
  | succ n ih =>
      have hget : (c :: cs ++ rest)[n + 1]? = cs[n]? := by
        rw [List.cons_append, List.getElem?_cons_succ, List.getElem?_append_left hn]
      have htake : (cs.take (n + 1)).reverse = cs[n] :: (cs.take n).reverse := by
        rw [List.take_succ_eq_append_getElem hn, List.reverse_append]
        rfl
      have hle : (cs.take n).reverse.findIdx (· = 47) ≤ n :=
        List.findIdx_le_length.trans (by simp)
      rw [lastSlash, hget, htake, List.getElem?_eq_getElem hn, List.findIdx_cons]
      by_cases hslash : cs[n] = 47
      · simp [hslash]
      · simp only [Option.some.injEq, hslash, if_false, decide_false, cond_false,
          ih (Nat.le_of_succ_le hn)]
        omega

theorem Stored.cutCurPath (h : Stored σ t) (hpath : t.curPath ≠ []) :
    ∃ σ' path, σ.cutCurPath t.addr = some σ' ∧ cutPath t.curPath = some path ∧ path ≠ [] ∧
      Changes σ σ' t { t with curPath := path } 0 := by
  obtain ⟨link, hfdt⟩ := h.lookup_fdt
  obtain ⟨rest, hchars⟩ := exists_chars_append h.parts.path
  cases hcur : t.curPath with
  | nil => exact absurd hcur hpath
  | cons c cs =>
      have hle : cs.reverse.findIdx (· = 47) ≤ cs.length :=
        List.findIdx_le_length.trans_eq List.length_reverse
      have hslash : lastSlash (c :: cs ++ 0 :: rest) (cs.length + 1) + 1 =
          cs.length + 1 - cs.reverse.findIdx (· = 47) := by
        have hstop : (c :: cs ++ 0 :: rest)[cs.length + 1]? = some 0 := by simp
        rw [lastSlash, hstop, if_neg (by decide), lastSlash_eq c cs _ le_rfl, List.take_length]
        omega
      generalize hk : cs.length + 1 - cs.reverse.findIdx (· = 47) = k at hslash
      have hk₁ : 1 ≤ k := by omega
      have hk₂ : k ≤ (c :: cs).length := hk ▸ Nat.sub_le _ _
      have hlength : k < (c :: cs ++ 0 :: rest).length := by
        rw [List.length_append]
        exact hk₂.trans_lt (Nat.lt_add_of_pos_right (Nat.succ_pos _))
      have hset : (c :: cs ++ 0 :: rest).set k 0 =
          (c :: cs).take k ++ 0 :: (c :: cs ++ 0 :: rest).drop (k + 1) := by
        rw [List.set_eq_take_append_cons_drop, if_pos hlength,
          List.take_append_of_le_length hk₂]
      have hnul : (0 : UInt8) ∉ (c :: cs).take k := fun hmem ↦
        Heap.notMem_string h.parts.path (hcur ▸ List.mem_of_mem_take hmem)
      rw [hcur] at hchars
      have hw := writes_store t.fields.curPath (.chars ((c :: cs ++ 0 :: rest).set k 0)) σ
      refine ⟨_, (c :: cs).take k, ?_, ?_, ?_, ⟨rfl, rfl, fun next hnode ↦ ?_,
        ⟨?_, h.parts.ne_nil, ?_⟩, fun b hb ↦ .inl hb, fun b _ hb ↦ hw.kept b ?_, hw.head⟩, ?_⟩
      · simp only [TableHeap.cutCurPath, Heap.fdt_eq_some.mpr hfdt, h.parts.path, hchars, hcur,
          List.length_cons, hslash, if_pos hlength, Option.bind_eq_bind, Option.bind_some]
      · rw [cutPath, if_neg (List.cons_ne_nil c cs), List.tail_cons, List.length_cons, hk]
      · exact fun hnil ↦ by simp [List.take_eq_nil_iff] at hnil; omega
      · exact (Heap.fdt_congr (hw.kept t.addr h.path_ne.symm)).trans hnode
      · exact h.parts.chain.congr fun b hb ↦
          Heap.fileObject_congr (hw.kept b (h.object_ne hb).2)
      · have hblock := hw.block
        nth_rewrite 2 [hset] at hblock
        exact string_of_chars hnul hblock
      · exact fun heq ↦ hb (heq ▸ mem_blocks_path t)
      · rw [hw.blockCount_of_mem (h.mem_heap (mem_blocks_path t))]
        rfl

end TableHeap

end OperatingSystem.Filesys
