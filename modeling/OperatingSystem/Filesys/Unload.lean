import OperatingSystem.Filesys.LinkedRefinement

/-!
# Unloading the module

`free_FDT` gives back the blocks of all tables. What no table leads to any more stays in
memory: as many blocks as file objects were dropped when a directory was opened.
-/

namespace OperatingSystem.Filesys

open LinkedList Lockstep

namespace TableHeap

/-! ## The function -/

/-- The inner loop: the file objects of the first table. -/
def freeObjects : ℕ → TableHeap → Option TableHeap
  | 0, _ => none
  | fuel + 1, σ => do
      let (fdt, _) ← σ.heap.fdt σ.fdtListHead
      if fdt.fileObjectListHead = 0 then some σ
      else do
        let (_, temp) ← σ.heap.deref fdt.fileObjectListHead
        let σ ← σ.vfree fdt.fileObjectListHead
        let σ ← σ.setFDT σ.fdtListHead fun fdt ↦ { fdt with fileObjectListHead := temp }
        freeObjects fuel σ

/-- A round of the outer loop: the first table. -/
def freeFirst (σ : TableHeap) : Option TableHeap := do
  let (_, fdtTemp) ← σ.heap.fdt σ.fdtListHead
  let σ ← freeObjects (σ.heap.keys.card + 1) σ
  let (fdt, _) ← σ.heap.fdt σ.fdtListHead
  let σ ← σ.vfree fdt.curPath
  let σ ← σ.vfree σ.fdtListHead
  some { σ with fdtListHead := fdtTemp }

def freeTables : ℕ → TableHeap → Option TableHeap
  | 0, _ => none
  | fuel + 1, σ => if σ.fdtListHead = 0 then some σ else (freeFirst σ).bind (freeTables fuel)

/-- `free_FDT`. The loops end after at most as many rounds as there are blocks. -/
def freeFDT (σ : TableHeap) : Option TableHeap := freeTables (σ.heap.keys.card + 1) σ

variable {σ : TableHeap} {ts : List StoredTable} {t : StoredTable} {lost : ℕ}

/-! ## One table -/

/-- The inner loop frees the file objects and nothing else. -/
theorem freeObjects_eq {fields : FDTFields} {next fuel : ℕ} {xs : List (ℕ × FileObject)}
    (hnode : σ.heap.fdt σ.fdtListHead = some (fields, next))
    (h : Chain σ.heap.fileObject fields.fileObjectListHead xs) (hfuel : xs.length < fuel) :
    ∃ σ', freeObjects fuel σ = some σ' ∧
      σ'.heap.fdt σ.fdtListHead = some ({ fields with fileObjectListHead := 0 }, next) ∧
      (∀ a, a ≠ σ.fdtListHead → a ∉ xs.map Prod.fst →
        σ'.heap.lookup a = σ.heap.lookup a) ∧
      σ'.blockCount + xs.length = σ.blockCount ∧ σ'.fdtListHead = σ.fdtListHead := by
  induction xs generalizing fuel fields σ with
  | nil =>
      cases fuel with
      | zero => cases hfuel
      | succ fuel =>
          have hhead : fields.fileObjectListHead = 0 := h
          refine ⟨σ, ?_, ?_, fun _ _ _ ↦ rfl, rfl, rfl⟩
          · rw [freeObjects, hnode, Option.bind_eq_bind, Option.bind_some]
            exact if_pos hhead
          · rw [hnode, ← hhead]
  | cons x xs ih =>
      cases fuel with
      | zero => cases hfuel
      | succ fuel =>
          have hnodup := h.nodup
          obtain ⟨a, fo⟩ := x
          obtain ⟨rfl, hne, temp, hlink, hrest⟩ := h
          have hlookup := Heap.fileObject_eq_some.mp hlink
          have hmem := Finmap.mem_of_lookup_eq_some hlookup
          have hderef := deref_eq_some.mpr ⟨hne, hlookup⟩
          have hfdt := Heap.fdt_eq_some.mp hnode
          have hhead : σ.fdtListHead ≠ fields.fileObjectListHead := fun heq ↦ by
            cases hlookup.symm.trans ((congrArg σ.heap.lookup heq.symm).trans hfdt)
          obtain ⟨σ₁, hset, hw⟩ := setFDT_writes
            (σ := { σ with heap := σ.heap.erase fields.fileObjectListHead })
            ((Finmap.lookup_erase_ne hhead).trans hfdt)
            fun fdt ↦ { fdt with fileObjectListHead := temp }
          have hkept : ∀ b, b ≠ σ.fdtListHead → b ≠ fields.fileObjectListHead →
              σ₁.heap.lookup b = σ.heap.lookup b := fun b hb hb' ↦
            (hw.kept b hb).trans (Finmap.lookup_erase_ne hb')
          have hhead₁ : σ₁.fdtListHead = σ.fdtListHead := hw.head
          have hapart : ∀ b ∈ xs.map Prod.fst, b ≠ σ.fdtListHead ∧
              b ≠ fields.fileObjectListHead := by
            intro b hb
            refine ⟨?_, fun heq ↦ (List.nodup_cons.mp hnodup).1 (heq ▸ hb)⟩
            rintro rfl
            obtain ⟨⟨c, w⟩, hc, hceq⟩ := List.mem_map.mp hb
            obtain ⟨-, link, hclink⟩ := hrest.exists_node hc
            rw [show c = σ.fdtListHead from hceq, Heap.fileObject_eq_some, hfdt] at hclink
            cases hclink
          have hchain : Chain σ₁.heap.fileObject temp xs := hrest.congr fun b hb ↦
            Heap.fileObject_congr (hkept b (hapart b hb).1 (hapart b hb).2)
          obtain ⟨σ', hfree, hnode', hkept', hcount, hhead'⟩ := @ih σ₁ _ fuel
            (hhead₁ ▸ Heap.fdt_eq_some.mpr hw.block) hchain (Nat.lt_of_succ_lt_succ hfuel)
          refine ⟨σ', ?_, ?_, fun b hb hbx ↦ ?_, ?_, hhead'.trans hhead₁⟩
          · simp only [freeObjects, hnode, if_neg hne, hderef, vfree, if_pos hmem, hset,
              Option.bind_eq_bind, Option.bind_some]
            exact hfree
          · rw [← hhead₁, hnode']
          · rw [List.map_cons, List.mem_cons, not_or] at hbx
            rw [hkept' b (hhead₁ ▸ hb) hbx.2, hkept b hb hbx.1]
          · have hfreed := blockCount_erase hmem
            have hset' := setFDT_count hset
            rw [List.length_cons]
            omega

theorem Sound.freeFirst (h : Sound σ (t :: ts)) : ∃ σ', TableHeap.freeFirst σ = some σ' ∧
    Sound σ' ts ∧ σ'.blockCount + t.blocks.length = σ.blockCount := by
  have ht : t ∈ t :: ts := List.mem_cons_self
  have hst := h.storedTable ht
  obtain ⟨haddr, hne, next, hnode, hrest⟩ := h.chain
  have haddr : t.addr = σ.fdtListHead := haddr
  obtain ⟨σ₁, hfree, hnode₁, hkept₁, hcount₁, hhead₁⟩ :=
    freeObjects_eq hnode hst.parts.chain hst.objects_length_lt
  have hpathNe : t.fields.curPath ≠ σ.fdtListHead := haddr ▸ hst.path_ne
  have hpathObject : t.fields.curPath ∉ t.objects.map Prod.fst := fun hmem ↦
    (hst.object_ne hmem).2 rfl
  have hpath₁ : t.fields.curPath ∈ σ₁.heap :=
    Heap.mem_congr (hkept₁ _ hpathNe hpathObject) (hst.mem_heap (mem_blocks_path t))
  have hhead₂ : σ.fdtListHead ∈ σ₁.heap.erase t.fields.curPath :=
    Finmap.mem_erase.mpr ⟨hpathNe.symm,
      Finmap.mem_of_lookup_eq_some (Heap.fdt_eq_some.mp hnode₁)⟩
  have hkept : ∀ a, a ∉ t.blocks →
      ((σ₁.heap.erase t.fields.curPath).erase σ.fdtListHead).lookup a = σ.heap.lookup a := by
    intro a ha
    have haHead : a ≠ σ.fdtListHead := fun heq ↦ ha (heq ▸ haddr ▸ List.mem_cons_self)
    have haPath : a ≠ t.fields.curPath := fun heq ↦ ha (heq ▸ mem_blocks_path t)
    rw [Finmap.lookup_erase_ne haHead, Finmap.lookup_erase_ne haPath,
      hkept₁ a haHead fun hmem ↦ ha (mem_blocks_of_object hmem)]
  refine ⟨⟨(σ₁.heap.erase t.fields.curPath).erase σ.fdtListHead, σ₁.calls, next⟩, ?_,
    ⟨⟨?_, ?_⟩, h.apart.of_cons, (List.nodup_cons.mp h.pids).2⟩, ?_⟩
  · simp only [TableHeap.freeFirst, hnode, hfree, hhead₁, hnode₁, vfree, if_pos hpath₁,
      if_pos hhead₂, Option.bind_eq_bind, Option.bind_some]
  · refine hrest.congr fun a ha ↦ Heap.fdt_congr (hkept a fun hat ↦ ?_)
    obtain ⟨x, hx, rfl⟩ := List.mem_map.mp ha
    obtain ⟨u, hu, rfl⟩ := List.mem_map.mp hx
    exact List.rel_of_pairwise_cons h.apart hu hat List.mem_cons_self
  · intro u hu
    refine (h.stored u (List.mem_cons_of_mem t hu)).congr fun a ha ↦ hkept a fun hat ↦ ?_
    exact List.rel_of_pairwise_cons h.apart hu hat (List.mem_cons_of_mem _ ha)
  · have hfreed₁ := blockCount_erase hpath₁
    have hfreed₂ := blockCount_erase
      (σ := { σ₁ with heap := σ₁.heap.erase t.fields.curPath }) hhead₂
    have hblocks : t.blocks.length = t.objects.length + 2 := by
      simp [StoredTable.blocks, StoredTable.parts]
    simp only [blockCount] at hfreed₁ hfreed₂ hcount₁ ⊢
    omega

theorem Sound.freeTables (h : Sound σ ts) {fuel : ℕ} (hfuel : ts.length < fuel) :
    ∃ σ', TableHeap.freeTables fuel σ = some σ' ∧ σ'.fdtListHead = 0 ∧
      σ'.blockCount + (ts.map fun t ↦ t.blocks.length).sum = σ.blockCount := by
  induction ts generalizing σ fuel with
  | nil =>
      cases fuel with
      | zero => cases hfuel
      | succ fuel =>
          have hhead : σ.fdtListHead = 0 := h.chain
          exact ⟨σ, if_pos hhead, hhead, rfl⟩
  | cons t ts ih =>
      cases fuel with
      | zero => cases hfuel
      | succ fuel =>
          have hhead : σ.fdtListHead ≠ 0 := h.chain.ne_zero (List.cons_ne_nil _ _)
          obtain ⟨σ₁, hfirst, hsound, hcount₁⟩ := h.freeFirst
          obtain ⟨σ', hfree, hnull, hcount⟩ := ih hsound (Nat.lt_of_succ_lt_succ hfuel)
          refine ⟨σ', ?_, hnull, ?_⟩
          · rw [TableHeap.freeTables, if_neg hhead, hfirst, Option.bind_some, hfree]
          · rw [List.map_cons, List.sum_cons]
            omega

theorem Holding.freeFDT (h : σ.Holding ts lost) : ∃ σ', TableHeap.freeFDT σ = some σ' ∧
    σ'.fdtListHead = 0 ∧ σ'.blockCount = lost := by
  have hfuel : ts.length < σ.heap.keys.card + 1 := by
    have hlength := h.chain.length_le fun a ha ↦ by
      obtain ⟨x, hx, rfl⟩ := List.mem_map.mp ha
      obtain ⟨u, hu, rfl⟩ := List.mem_map.mp hx
      exact Finmap.mem_keys.mpr (h.mem_heap hu List.mem_cons_self)
    rw [List.length_map] at hlength
    exact Nat.lt_succ_of_le hlength
  obtain ⟨σ', hfree, hnull, hcount⟩ := h.toSound.freeTables hfuel
  refine ⟨σ', hfree, hnull, ?_⟩
  have htotal := h.count
  omega

end TableHeap

/-- After any run `free_FDT` comes to its end, and as many blocks stay in memory as file
objects were dropped when a directory was opened. -/
theorem unload_leaves_dropped (A : Allocator) (area : Area) (events : List Event) :
    ((trace (LinkedState.ramdiskIoctl A) (LinkedState.loaded area) events).map fun r ↦
        r.2.tables.freeFDT.map fun σ ↦ (σ.fdtListHead, σ.blockCount)) =
      (trace countedIoctl (initState area, 0) events).map fun r ↦ some (0, r.2.2) := by
  have hagrees := linked_agrees_counted A area events
  generalize trace (LinkedState.ramdiskIoctl A) (LinkedState.loaded area) events = x at hagrees
  generalize trace countedIoctl (initState area, 0) events = y at hagrees
  cases hagrees with
  | none => rfl
  | some hxy =>
      obtain ⟨ts, hts, -⟩ := hxy.2.tables
      obtain ⟨σ', hfree, hnull, hcount⟩ := hts.freeFDT
      rw [Option.map_some, Option.map_some, hfree, Option.map_some, hnull, hcount]

end OperatingSystem.Filesys
