import OperatingSystem.Filesys.LinkedTables

/-!
# A table for every process

What `get_FDT` does to the tables in memory, and the law of all runs: a table belongs to
one process, and only this process changes it.
-/

namespace OperatingSystem.Filesys

open LinkedList

namespace TableHeap

/-! ## The law -/

/-- A process calls `get_FDT` or changes its table. -/
inductive Step (A : Allocator) : ℤ → TableHeap → TableHeap → Prop
  | getFDT {σ σ' : TableHeap} (cur : Process) (p : ℕ) (h : σ.getFDT A cur = some (p, σ')) :
      Step A cur.pid σ σ'
  | ownChange {σ σ' : TableHeap} (pid : ℤ) (h : OwnChange pid σ σ') : Step A pid σ σ'

def Reachable (A : Allocator) : TableHeap → Prop :=
  Relation.ReflTransGen (fun σ σ' ↦ ∃ pid, Step A pid σ σ') loaded

/-- Steps of other processes than the given one. -/
def OtherSteps (A : Allocator) (pid : ℤ) : TableHeap → TableHeap → Prop :=
  Relation.ReflTransGen fun σ σ' ↦ ∃ other, other ≠ pid ∧ Step A other σ σ'

/-- What `get_FDT` makes for a process without a table, out of the tables there are. -/
structure Inherits (cur : Process) (ts : List StoredTable) (fdt : FDT) : Prop where
  parent : ∀ t ∈ ts, t.pid = cur.ppid →
    fdt.curPath = t.contents.curPath ∧ fdt.fileObjects = t.contents.fileObjects
  root : (∀ t ∈ ts, t.pid ≠ cur.ppid) → fdt.curPath = [47] ∧ fdt.fileObjects = [⟨0, 0⟩]

/-- `get_FDT` returns the table of the process, which it makes if there is none, and
leaves all other tables as they are. -/
def ServesOwnTable (A : Allocator) (σ : TableHeap) (ts : List StoredTable) (cur : Process) :
    Prop :=
  ∃ σ' ts' t, σ.getFDT A cur = some (t.addr, σ') ∧ σ'.Holds ts' ∧ t ∈ ts' ∧ t.pid = cur.pid ∧
    (∀ u ∈ ts, u ∈ ts') ∧ (∀ u ∈ ts', u ∈ ts ∨ u = t) ∧
    ((∀ u ∈ ts, u.pid ≠ cur.pid) → Inherits cur ts t.contents)

/-- The tables of the list belong to one process each, whatever the others do. -/
structure PerProcess (A : Allocator) (σ : TableHeap) (ts : List StoredTable) : Prop where
  holds : σ.Holds ts
  pids : (ts.map StoredTable.pid).Nodup
  serves : ∀ cur, ServesOwnTable A σ ts cur
  kept : ∀ t ∈ ts, ∀ σ', OtherSteps A t.pid σ σ' → ∃ ts', σ'.Holds ts' ∧ t ∈ ts'

variable {A : Allocator} {σ σ' : TableHeap} {ts : List StoredTable} {t : StoredTable} {a p : ℕ}

/-! ## The search -/

theorem search_of_mem {heap : Heap} {cpid ppid : ℤ} {fuel c : ℕ} (l p : ℕ)
    (h : Chain heap.fdt c (ts.map fun t ↦ (t.addr, t.fields))) (hfuel : ts.length < fuel)
    (hmem : ∃ t ∈ ts, t.pid = cpid) :
    ∃ t ∈ ts, t.pid = cpid ∧ ∃ l' p', search heap cpid ppid fuel c l p = some (t.addr, l', p') := by
  induction ts generalizing fuel c l p with
  | nil =>
      obtain ⟨t, ht, -⟩ := hmem
      exact absurd ht List.not_mem_nil
  | cons t ts ih =>
      cases fuel with
      | zero => cases hfuel
      | succ fuel =>
          obtain ⟨rfl, hne, next, hnode, hrest⟩ := h
          rw [search, if_neg hne, hnode, Option.bind_eq_bind, Option.bind_some]
          dsimp only
          by_cases hpid : t.fields.pid = cpid
          · exact ⟨t, List.mem_cons_self, hpid, l, p, if_pos hpid⟩
          · have hmem' : ∃ u ∈ ts, u.pid = cpid := by
              obtain ⟨u, hu, hupid⟩ := hmem
              rcases List.mem_cons.mp hu with rfl | hu
              · exact absurd hupid hpid
              · exact ⟨u, hu, hupid⟩
            obtain ⟨u, hu, hupid, hsearch⟩ :=
              ih t.addr _ hrest (Nat.lt_of_succ_lt_succ hfuel) hmem'
            rw [if_neg hpid]
            exact ⟨u, List.mem_cons_of_mem t hu, hupid, hsearch⟩

/-- Otherwise it ends with the last table, and with a table of the parent if it saw one. -/
theorem search_of_notMem {heap : Heap} {cpid ppid : ℤ} {fuel c : ℕ} (l p : ℕ)
    (h : Chain heap.fdt c (ts.map fun t ↦ (t.addr, t.fields))) (hfuel : ts.length < fuel)
    (hmem : ∀ t ∈ ts, t.pid ≠ cpid) :
    ∃ p', search heap cpid ppid fuel c l p =
        some (0, (ts.getLast?.map StoredTable.addr).getD l, p') ∧
      ((∃ t ∈ ts, t.pid = ppid ∧ p' = t.addr) ∨ (∀ t ∈ ts, t.pid ≠ ppid) ∧ p' = p) := by
  induction ts generalizing fuel c l p with
  | nil =>
      cases fuel with
      | zero => cases hfuel
      | succ fuel =>
          obtain rfl : c = 0 := h
          exact ⟨p, rfl, .inr ⟨fun _ ht ↦ absurd ht List.not_mem_nil, rfl⟩⟩
  | cons t ts ih =>
      cases fuel with
      | zero => cases hfuel
      | succ fuel =>
          obtain ⟨rfl, hne, next, hnode, hrest⟩ := h
          obtain ⟨hpid, hmem⟩ := List.forall_mem_cons.mp hmem
          obtain ⟨p', hsearch, hparent⟩ := ih t.addr (if t.fields.pid = ppid then t.addr else p)
            hrest (Nat.lt_of_succ_lt_succ hfuel) hmem
          refine ⟨p', ?_, ?_⟩
          · rw [search, if_neg hne, hnode, Option.bind_eq_bind, Option.bind_some]
            dsimp only
            rw [if_neg (show t.fields.pid ≠ cpid from hpid), hsearch, List.getLast?_cons]
            cases ts.getLast? <;> rfl
          · rcases hparent with ⟨u, hu, hupid, rfl⟩ | ⟨hnone, rfl⟩
            · exact .inl ⟨u, List.mem_cons_of_mem t hu, hupid, rfl⟩
            · by_cases htpid : t.fields.pid = ppid
              · exact .inl ⟨t, List.mem_cons_self, htpid, if_pos htpid⟩
              · exact .inr ⟨List.forall_mem_cons.mpr ⟨htpid, hnone⟩, if_neg htpid⟩

/-! ## New blocks -/

/-- One block is written. -/
structure Writes (p : ℕ) (block : Block) (σ σ' : TableHeap) : Prop where
  block : σ'.heap.lookup p = some block
  kept : ∀ a, a ≠ p → σ'.heap.lookup a = σ.heap.lookup a
  head : σ'.fdtListHead = σ.fdtListHead

theorem Writes.mem {block : Block} (h : Writes p block σ σ') (ha : a ∈ σ.heap) : a ∈ σ'.heap := by
  by_cases hap : a = p
  · exact hap ▸ Finmap.mem_of_lookup_eq_some h.block
  · exact Heap.mem_congr (h.kept a hap) ha

theorem writes_store (p : ℕ) (block : Block) (σ : TableHeap) :
    Writes p block σ (σ.store p block) where
  block := Finmap.lookup_insert σ.heap
  kept := fun _ ha ↦ Finmap.lookup_insert_of_ne σ.heap ha
  head := rfl

theorem alloc_writes (A : Allocator) (block : Block) (σ : TableHeap) :
    ∃ p σ', σ.alloc A block = (p, σ') ∧ p ≠ 0 ∧ p ∉ σ.heap ∧ Writes p block σ σ' := by
  have hw := writes_store (A.vmalloc σ.calls σ.heap) block σ
  exact ⟨_, _, rfl, A.ne_null σ.calls σ.heap, A.fresh σ.calls σ.heap, hw.block, hw.kept, hw.head⟩

theorem setFDT_writes {fields : FDTFields} {next : ℕ}
    (h : σ.heap.lookup p = some (.fdt fields next)) (f : FDTFields → FDTFields) :
    ∃ σ', σ.setFDT p f = some σ' ∧ Writes p (.fdt (f fields) next) σ σ' := by
  refine ⟨_, ?_, writes_store p _ σ⟩
  rw [setFDT, Heap.fdt_eq_some.mpr h, Option.map_some]

theorem setNext_writes {fields : FDTFields} {next : ℕ}
    (h : σ.heap.lookup p = some (.fdt fields next)) (next' : ℕ) :
    ∃ σ', σ.setNext p next' = some σ' ∧ Writes p (.fdt fields next') σ σ' := by
  refine ⟨_, ?_, writes_store p _ σ⟩
  rw [setNext, Heap.fdt_eq_some.mpr h, Option.map_some]

theorem strcpy_writes {bytes s : List UInt8} (h : σ.heap.lookup p = some (.chars bytes))
    (hlength : s.length < bytes.length) : ∃ σ' rest, σ.strcpy p s = some σ' ∧
      Writes p (.chars (s ++ 0 :: rest)) σ σ' := by
  refine ⟨_, bytes.drop (s.length + 1), ?_, writes_store p _ σ⟩
  rw [strcpy, h]
  exact if_pos hlength

theorem string_of_chars {heap : Heap} {s rest : List UInt8} (hnul : (0 : UInt8) ∉ s)
    (h : heap.lookup p = some (.chars (s ++ 0 :: rest))) : heap.string p = some s := by
  have hmem : (0 : UInt8) ∈ s ++ 0 :: rest := List.mem_append_right s List.mem_cons_self
  have hprefix : (s ++ 0 :: rest).takeWhile (· ≠ 0) = s := by
    rw [List.takeWhile_append_of_pos, List.takeWhile_cons_of_neg, List.append_nil]
    · simp
    · intro c hc
      exact decide_eq_true fun h0 ↦ hnul (h0 ▸ hc)
  rw [Heap.string, h]
  dsimp only
  rw [if_pos hmem, hprefix]

/-- The copy of a chain of file objects, which begins in the block `newFo`. -/
theorem copyObjects_eq {fuel newFo pFo : ℕ} {xs : List (ℕ × FileObject)}
    (h : Chain σ.heap.fileObject pFo xs) (hne : xs ≠ []) (hfuel : xs.length ≤ fuel)
    (hnew : newFo ≠ 0) (hmem : newFo ∈ σ.heap) (hnotMem : newFo ∉ xs.map Prod.fst) :
    ∃ σ' ys, copyObjects A fuel newFo pFo σ = some σ' ∧
      Chain σ'.heap.fileObject newFo ys ∧ ys.map Prod.snd = xs.map Prod.snd ∧
      (∀ a ∈ ys.map Prod.fst, a = newFo ∨ a ∉ σ.heap) ∧
      (∀ a ∈ σ.heap, a ≠ newFo → σ'.heap.lookup a = σ.heap.lookup a) ∧
      σ'.fdtListHead = σ.fdtListHead := by
  induction xs generalizing fuel newFo pFo σ with
  | nil => exact absurd rfl hne
  | cons x xs ih =>
      cases fuel with
      | zero => cases hfuel
      | succ fuel =>
          obtain ⟨a, fo⟩ := x
          obtain ⟨rfl, hpFo, next, hnode, hrest⟩ := h
          simp only [copyObjects, hnode, Option.bind_eq_bind, Option.bind_some]
          cases xs with
          | nil =>
              obtain rfl : next = 0 := hrest
              refine ⟨σ.store newFo (.fileObject fo 0), [(newFo, fo)], if_neg (not_not_intro rfl),
                ⟨rfl, hnew, 0, ?_, rfl⟩, rfl, fun a ha ↦ .inl (List.mem_singleton.mp ha), ?_, rfl⟩
              · exact Heap.fileObject_eq_some.mpr (writes_store newFo _ σ).block
              · exact fun a _ ha ↦ (writes_store newFo _ σ).kept a ha
          | cons y xs =>
              have hw := writes_store newFo (.fileObject fo next) σ
              obtain ⟨q, σ₁, halloc, hq, hqmem, hw₁⟩ :=
                alloc_writes A (.fileObject newFileObject 0) (σ.store newFo (.fileObject fo next))
              have hw₂ := writes_store newFo (.fileObject fo q) σ₁
              rw [if_pos (hrest.ne_zero (List.cons_ne_nil y xs)), halloc]
              dsimp only
              have hin : ∀ a ∈ σ.heap, a ∈ (σ₁.store newFo (.fileObject fo q)).heap :=
                fun a ha ↦ hw₂.mem (hw₁.mem (hw.mem ha))
              have hkept : ∀ a ∈ σ.heap, a ≠ newFo →
                  (σ₁.store newFo (.fileObject fo q)).heap.lookup a = σ.heap.lookup a := by
                intro a ha hanew
                have haq : a ≠ q := fun heq ↦ hqmem (heq ▸ hw.mem ha)
                rw [hw₂.kept a hanew, hw₁.kept a haq, hw.kept a hanew]
              have hold : ∀ a ∈ (y :: xs).map Prod.fst, a ∈ σ.heap := by
                intro a ha
                obtain ⟨⟨b, w⟩, hb, rfl⟩ := List.mem_map.mp ha
                obtain ⟨-, link, hlink⟩ := hrest.exists_node hb
                exact Finmap.mem_of_lookup_eq_some (Heap.fileObject_eq_some.mp hlink)
              have hqnew : newFo ≠ q := fun heq ↦
                hqmem (heq ▸ Finmap.mem_of_lookup_eq_some hw.block)
              have hqin : q ∈ (σ₁.store newFo (.fileObject fo q)).heap :=
                hw₂.mem (Finmap.mem_of_lookup_eq_some hw₁.block)
              obtain ⟨σ', ys, hcopy, hys, hvalues, hfresh, hframe, hhead⟩ := @ih _ fuel q next
                (hrest.congr fun a ha ↦ Heap.fileObject_congr (hkept a (hold a ha) fun heq ↦
                  hnotMem (heq ▸ List.mem_cons_of_mem _ ha)))
                (List.cons_ne_nil _ _) (Nat.le_of_succ_le_succ hfuel) hq hqin
                fun hmem ↦ hqmem (hw.mem (hold q hmem))
              refine ⟨σ', (newFo, fo) :: ys, hcopy, ⟨rfl, hnew, q, ?_, hys⟩, ?_, ?_, ?_,
                hhead.trans hw₁.head⟩
              · rw [Heap.fileObject_congr (hframe newFo (hin newFo hmem) hqnew),
                  Heap.fileObject_eq_some]
                exact hw₂.block
              · exact congrArg (fo :: ·) hvalues
              · intro a ha
                rcases List.mem_cons.mp ha with rfl | ha
                · exact .inl rfl
                · rcases hfresh a ha with rfl | ha
                  · exact .inr fun hmem ↦ hqmem (hw.mem hmem)
                  · exact .inr fun hmem ↦ ha (hin a hmem)
              · intro a ha hanew
                rw [hframe a (hin a ha) fun heq ↦ hqmem (heq ▸ hw.mem ha), hkept a ha hanew]

/-- A table is made of new blocks, and no other block is touched. -/
structure Makes (σ σ' : TableHeap) (t : StoredTable) : Prop where
  stored : t.In σ'.heap
  ne_null : t.addr ≠ 0
  node : σ'.heap.fdt t.addr = some (t.fields, 0)
  fresh : ∀ a ∈ t.blocks, a ∉ σ.heap
  kept : ∀ a ∈ σ.heap, σ'.heap.lookup a = σ.heap.lookup a
  head : σ'.fdtListHead = σ.fdtListHead

/-- What `fillFDT` makes of a table that is new. -/
theorem fillFDT_eq {fields : FDTFields} {next : ℕ} (A : Allocator)
    (h : σ.heap.lookup p = some (.fdt fields next)) (pid : ℤ) {path : List UInt8}
    (hnul : (0 : UInt8) ∉ path) {size : ℕ} (hsize : path.length < size) :
    ∃ σ' s fo, σ.fillFDT A p pid path size = some (fo, σ') ∧ s ∉ σ.heap ∧ fo ≠ 0 ∧ fo ∉ σ.heap ∧
      fo ≠ s ∧ fo ∈ σ'.heap ∧ σ'.heap.lookup p = some (.fdt ⟨pid, fo, s⟩ 0) ∧
      σ'.heap.string s = some path ∧ (∀ a ∈ σ.heap, a ≠ p → σ'.heap.lookup a = σ.heap.lookup a) ∧
      σ'.fdtListHead = σ.fdtListHead := by
  have hpmem : p ∈ σ.heap := Finmap.mem_of_lookup_eq_some h
  obtain ⟨σ₁, h₁, hw₁⟩ := setFDT_writes h fun fdt ↦ { fdt with pid := pid }
  obtain ⟨s, σ₂, h₂, -, hsmem, hw₂⟩ := alloc_writes A (.chars (List.replicate size 0)) σ₁
  have hps : p ≠ s := fun heq ↦ hsmem (heq ▸ hw₁.mem hpmem)
  obtain ⟨σ₃, h₃, hw₃⟩ := setFDT_writes ((hw₂.kept p hps).trans hw₁.block)
    fun fdt ↦ { fdt with curPath := s }
  obtain ⟨σ₄, rest, h₄, hw₄⟩ := strcpy_writes ((hw₃.kept s hps.symm).trans hw₂.block)
    (hsize.trans_eq List.length_replicate.symm)
  obtain ⟨σ₅, h₅, hw₅⟩ := setNext_writes ((hw₄.kept p hps).trans hw₃.block) 0
  obtain ⟨fo, σ₆, h₆, hfo, hfomem, hw₆⟩ := alloc_writes A (.fileObject newFileObject 0) σ₅
  have hpfo : p ≠ fo := fun heq ↦ hfomem (heq ▸ Finmap.mem_of_lookup_eq_some hw₅.block)
  obtain ⟨σ₇, h₇, hw₇⟩ := setFDT_writes ((hw₆.kept p hpfo).trans hw₅.block)
    fun fdt ↦ { fdt with fileObjectListHead := fo }
  have hspath : σ₅.heap.lookup s = some (.chars (path ++ 0 :: rest)) :=
    (hw₅.kept s hps.symm).trans hw₄.block
  have hfos : fo ≠ s := fun heq ↦ hfomem (heq ▸ Finmap.mem_of_lookup_eq_some hspath)
  have hin₅ : ∀ a ∈ σ.heap, a ∈ σ₅.heap := fun a ha ↦
    hw₅.mem (hw₄.mem (hw₃.mem (hw₂.mem (hw₁.mem ha))))
  refine ⟨σ₇, s, fo, ?_, fun hmem ↦ hsmem (hw₁.mem hmem), hfo, fun hmem ↦ hfomem (hin₅ fo hmem),
    hfos, ?_, hw₇.block, ?_, ?_, ?_⟩
  · simp only [fillFDT, h₁, h₂, h₃, h₄, h₅, h₆, h₇, Option.bind_eq_bind, Option.bind_some]
  · exact Finmap.mem_of_lookup_eq_some ((hw₇.kept fo hpfo.symm).trans hw₆.block)
  · have hs₇ := (hw₇.kept s hps.symm).trans ((hw₆.kept s hfos.symm).trans hspath)
    exact string_of_chars hnul hs₇
  · intro a ha hap
    have has : a ≠ s := fun heq ↦ hsmem (heq ▸ hw₁.mem ha)
    have hafo : a ≠ fo := fun heq ↦ hfomem (heq ▸ hin₅ a ha)
    rw [hw₇.kept a hap, hw₆.kept a hafo, hw₅.kept a hap, hw₄.kept a has, hw₃.kept a hap,
      hw₂.kept a has, hw₁.kept a hap]
  · rw [hw₇.head, hw₆.head, hw₅.head, hw₄.head, hw₃.head, hw₂.head, hw₁.head]

theorem createFDT_eq (A : Allocator) (cur : Process) (σ : TableHeap) :
    ∃ σ' t, σ.createFDT A cur = some (t.addr, σ') ∧ Makes σ σ' t ∧
      t.contents = Filesys.createFDT cur := by
  obtain ⟨p, σ₁, h₁, hp, hpmem, hw₁⟩ := alloc_writes A (.fdt newFields 0) σ
  have hnul : (0 : UInt8) ∉ ([47] : List UInt8) := by decide
  obtain ⟨σ₂, s, fo, h₂, hs, hfo, hfomem, hfos, -, hnode, hpath, hkept, hhead⟩ :=
    fillFDT_eq A hw₁.block cur.pid hnul (show 1 < 2 by omega)
  have hw₃ := writes_store fo (.fileObject ⟨0, 0⟩ 0) σ₂
  have hin₁ : p ∈ σ₁.heap := Finmap.mem_of_lookup_eq_some hw₁.block
  have hpfo : p ≠ fo := fun heq ↦ hfomem (heq ▸ hin₁)
  refine ⟨σ₂.store fo (.fileObject ⟨0, 0⟩ 0), ⟨p, ⟨cur.pid, fo, s⟩, [(fo, ⟨0, 0⟩)], [47]⟩, ?_, ?_,
    rfl⟩
  · simp only [createFDT, h₁, h₂, Option.bind_eq_bind, Option.bind_some]
  · refine ⟨⟨⟨rfl, hfo, 0, Heap.fileObject_eq_some.mpr hw₃.block, rfl⟩, List.cons_ne_nil _ _, ?_⟩,
      hp, ?_, ?_, ?_, ?_⟩
    · exact (Heap.string_congr (hw₃.kept s hfos.symm)).trans hpath
    · exact Heap.fdt_eq_some.mpr ((hw₃.kept p hpfo).trans hnode)
    · intro a ha hmem
      simp only [StoredTable.blocks, StoredTable.parts, List.map_cons, List.map_nil, List.mem_cons,
        List.not_mem_nil, or_false] at ha
      rcases ha with rfl | rfl | rfl
      · exact hpmem hmem
      · exact hs (hw₁.mem hmem)
      · exact hfomem (hw₁.mem hmem)
    · intro a ha
      have hap : a ≠ p := fun heq ↦ hpmem (heq ▸ ha)
      have hafo : a ≠ fo := fun heq ↦ hfomem (heq ▸ hw₁.mem ha)
      rw [hw₃.kept a hafo, hkept a (hw₁.mem ha) hap, hw₁.kept a hap]
    · rw [hw₃.head, hhead, hw₁.head]

theorem Makes.link {l : StoredTable} {σ₁ : TableHeap} {next : ℕ} (h : Makes σ σ₁ t)
    (hl : σ.heap.fdt l.addr = some (l.fields, next)) :
    ∃ σ', σ₁.setNext l.addr t.addr = some σ' ∧ Appends σ σ' l t := by
  have hlookup := Heap.fdt_eq_some.mp hl
  have hmem := Finmap.mem_of_lookup_eq_some hlookup
  obtain ⟨σ', hset, hw⟩ := setNext_writes ((h.kept l.addr hmem).trans hlookup) t.addr
  have hne : ∀ a ∈ t.blocks, a ≠ l.addr := fun a ha heq ↦ h.fresh a ha (heq ▸ hmem)
  refine ⟨σ', hset, ?_, h.ne_null, ?_, h.fresh, Heap.fdt_eq_some.mpr hw.block, ?_,
    hw.head.trans h.head⟩
  · exact h.stored.congr fun a ha ↦ hw.kept a (hne a (List.mem_cons_of_mem _ ha))
  · exact (Heap.fdt_congr (hw.kept t.addr (hne t.addr List.mem_cons_self))).trans h.node
  · exact fun a ha hal ↦ (hw.kept a hal).trans (h.kept a ha)

theorem copyFDT_eq (A : Allocator) (cur : Process) {l parent : StoredTable} {next link : ℕ}
    (hl : σ.heap.fdt l.addr = some (l.fields, next))
    (hnode : σ.heap.fdt parent.addr = some (parent.fields, link)) (hparent : parent.In σ.heap) :
    ∃ σ' t, σ.copyFDT A cur l.addr parent.addr = some (t.addr, σ') ∧ Appends σ σ' l t ∧
      t.contents = { parent.contents with pid := cur.pid } := by
  have hlmem := Finmap.mem_of_lookup_eq_some (Heap.fdt_eq_some.mp hl)
  obtain ⟨p, σ₁, h₁, hp, hpmem, hw₁⟩ := alloc_writes A (.fdt newFields 0) σ
  have hlp : l.addr ≠ p := fun heq ↦ hpmem (heq ▸ hlmem)
  obtain ⟨σ₂, h₂, hw₂⟩ := setNext_writes
    ((hw₁.kept l.addr hlp).trans (Heap.fdt_eq_some.mp hl)) p
  have hkept₂ : ∀ a ∈ σ.heap, a ≠ l.addr → σ₂.heap.lookup a = σ.heap.lookup a := by
    intro a ha hal
    rw [hw₂.kept a hal, hw₁.kept a fun heq ↦ hpmem (heq ▸ ha)]
  have hnode₂ : ∃ link', σ₂.heap.fdt parent.addr = some (parent.fields, link') := by
    by_cases heq : parent.addr = l.addr
    · have hfields : l.fields = parent.fields := by
        rw [heq, hl] at hnode
        exact (Prod.ext_iff.mp (Option.some.inj hnode)).1
      rw [heq, ← hfields]
      exact ⟨p, Heap.fdt_eq_some.mpr hw₂.block⟩
    · have hmem := Finmap.mem_of_lookup_eq_some (Heap.fdt_eq_some.mp hnode)
      exact ⟨link, (Heap.fdt_congr (hkept₂ _ hmem heq)).trans hnode⟩
  obtain ⟨link', hnode₂⟩ := hnode₂
  have hparent₂ : parent.In σ₂.heap := by
    refine hparent.congr fun a ha ↦ ?_
    obtain ⟨hmem, hnone⟩ := hparent.mem_heap ha
    refine hkept₂ a hmem fun heq ↦ ?_
    rw [← heq, hnone] at hl
    cases hl
  obtain ⟨σ₃, s, fo, h₃, hs, hfo, hfomem, hfos, hfo₃, hnode₃, hpath, hkept₃, hhead₃⟩ :=
    fillFDT_eq A ((hw₂.kept p hlp.symm).trans hw₁.block) cur.pid
      (Heap.notMem_string hparent₂.path) (Nat.lt_succ_self _)
  have hin₂ : ∀ a ∈ σ.heap, a ∈ σ₂.heap := fun a ha ↦ hw₂.mem (hw₁.mem ha)
  have hin₃ : ∀ a ∈ σ₂.heap, a ∈ σ₃.heap := by
    intro a ha
    by_cases hap : a = p
    · exact hap ▸ Finmap.mem_of_lookup_eq_some hnode₃
    · exact Heap.mem_congr (hkept₃ a ha hap) ha
  have hobjects : ∀ a ∈ parent.objects.map Prod.fst, a ∈ σ₂.heap ∧ a ≠ p := by
    intro a ha
    have hpart := List.mem_cons_of_mem parent.fields.curPath ha
    refine ⟨(hparent₂.mem_heap hpart).1, fun heq ↦ hpmem (heq ▸ (hparent.mem_heap hpart).1)⟩
  have hchain₃ : Chain σ₃.heap.fileObject parent.fields.fileObjectListHead parent.objects :=
    hparent₂.chain.congr fun a ha ↦
      Heap.fileObject_congr (hkept₃ a (hobjects a ha).1 (hobjects a ha).2)
  have hlength : parent.objects.length ≤ σ₃.heap.keys.card + 1 :=
    (hchain₃.length_le fun a ha ↦ Finmap.mem_keys.mpr (hin₃ a (hobjects a ha).1)).trans
      (Nat.le_succ _)
  obtain ⟨σ₄, ys, h₄, hys, hvalues, hfresh, hkept₄, hhead₄⟩ := @copyObjects_eq A σ₃ _ fo _ _
    hchain₃ hparent.ne_nil hlength hfo hfo₃ fun hmem ↦ hfomem (hobjects fo hmem).1
  have hkept : ∀ a ∈ σ₂.heap, a ≠ p → σ₄.heap.lookup a = σ₂.heap.lookup a := by
    intro a ha hap
    rw [hkept₄ a (hin₃ a ha) fun heq ↦ hfomem (heq ▸ ha), hkept₃ a ha hap]
  have hp₂ : p ∈ σ₂.heap := hw₂.mem (Finmap.mem_of_lookup_eq_some hw₁.block)
  refine ⟨σ₄, ⟨p, ⟨cur.pid, fo, s⟩, ys, parent.curPath⟩, ?_, ?_, ?_⟩
  · simp only [copyFDT, h₁, h₂, hnode₂, hparent₂.path, h₃, h₄, Option.bind_eq_bind,
      Option.bind_some]
  · refine ⟨⟨hys, ?_, ?_⟩, hp, ?_, ?_, ?_, ?_, ?_⟩
    · intro hnil
      rw [show ys = [] from hnil, List.map_nil] at hvalues
      exact hparent.ne_nil (List.map_eq_nil_iff.mp hvalues.symm)
    · obtain ⟨bytes, hbytes, -⟩ := Heap.exists_chars hpath
      have hs₃ := Finmap.mem_of_lookup_eq_some hbytes
      exact (Heap.string_congr (hkept₄ s hs₃ hfos.symm)).trans hpath
    · have hpfo : p ≠ fo := fun heq ↦ hfomem (heq ▸ hp₂)
      exact Heap.fdt_eq_some.mpr ((hkept₄ p (hin₃ p hp₂) hpfo).trans hnode₃)
    · intro a ha hmem
      rcases List.mem_cons.mp ha with rfl | ha
      · exact hpmem hmem
      · rcases List.mem_cons.mp ha with rfl | ha
        · exact hs (hin₂ _ hmem)
        · rcases hfresh a ha with rfl | ha
          · exact hfomem (hin₂ a hmem)
          · exact ha (hin₃ a (hin₂ a hmem))
    · exact Heap.fdt_eq_some.mpr ((hkept l.addr (hin₂ _ hlmem) hlp).trans hw₂.block)
    · intro a ha hal
      rw [hkept a (hin₂ a ha) fun heq ↦ hpmem (heq ▸ ha), hkept₂ a ha hal]
    · rw [hhead₄, hhead₃, hw₂.head, hw₁.head]
  · rw [StoredTable.contents, StoredTable.contents]
    exact congrArg (FDT.mk cur.pid · parent.curPath) hvalues

/-! ## The call -/

theorem Sound.newFDT_of_mem (h : Sound σ ts) {cur : Process} (ht : t ∈ ts)
    (hpid : t.pid = cur.ppid) :
    newFDT cur (ts.map StoredTable.contents) = { t.contents with pid := cur.pid } := by
  have hall : ∀ fdt ∈ (ts.map StoredTable.contents).filter fun fdt ↦ fdt.pid = cur.ppid,
      fdt = t.contents := by
    intro fdt hfdt
    obtain ⟨hmem, hfdtpid⟩ := List.mem_filter.mp hfdt
    obtain ⟨u, hu, rfl⟩ := List.mem_map.mp hmem
    have hupid : u.pid = cur.ppid := of_decide_eq_true hfdtpid
    rw [h.eq_of_pid hu ht (hupid.trans hpid.symm)]
  have hmem : t.contents ∈ (ts.map StoredTable.contents).filter fun fdt ↦ fdt.pid = cur.ppid :=
    List.mem_filter.mpr ⟨List.mem_map_of_mem ht, decide_eq_true hpid⟩
  have hlast := List.getLast?_eq_some_getLast (List.ne_nil_of_mem hmem)
  rw [newFDT, hlast]
  dsimp only
  rw [hall _ (List.getLast_mem _)]

theorem newFDT_of_notMem {cur : Process} (h : ∀ u ∈ ts, u.pid ≠ cur.ppid) :
    newFDT cur (ts.map StoredTable.contents) = Filesys.createFDT cur := by
  have hnone : (ts.map StoredTable.contents).filter (fun fdt ↦ fdt.pid = cur.ppid) = [] := by
    refine List.filter_eq_nil_iff.mpr fun fdt hfdt ↦ ?_
    obtain ⟨u, hu, rfl⟩ := List.mem_map.mp hfdt
    exact fun hpid ↦ h u hu (of_decide_eq_true hpid)
  rw [newFDT, hnone]
  rfl

/-- A call returns the table of the process or puts a new one behind the others. -/
theorem Sound.getFDT (h : Sound σ ts) (A : Allocator) (cur : Process) :
    ∃ σ' t, σ.getFDT A cur = some (t.addr, σ') ∧ t.pid = cur.pid ∧
      (t ∈ ts ∧ σ' = σ ∨ (∀ u ∈ ts, u.pid ≠ cur.pid) ∧
        t.contents = newFDT cur (ts.map StoredTable.contents) ∧ Sound σ' (ts ++ [t])) := by
  have hfuel : ts.length < σ.heap.keys.card + 1 := by
    have hlength := h.chain.length_le fun a ha ↦ by
      obtain ⟨x, hx, rfl⟩ := List.mem_map.mp ha
      obtain ⟨u, hu, rfl⟩ := List.mem_map.mp hx
      exact Finmap.mem_keys.mpr (h.mem_heap hu List.mem_cons_self)
    rw [List.length_map] at hlength
    omega
  rw [TableHeap.getFDT]
  rcases List.eq_nil_or_concat' ts with rfl | ⟨us, l, rfl⟩
  · have hhead : σ.fdtListHead = 0 := h.chain
    obtain ⟨σ₁, t, hcreate, hmakes, hcontents⟩ := createFDT_eq A cur σ
    rw [if_pos hhead, hcreate, Option.bind_eq_bind, Option.bind_some]
    refine ⟨_, t, rfl, congrArg FDT.pid hcontents, .inr ⟨fun u hu ↦ absurd hu List.not_mem_nil,
      hcontents, ⟨⟨rfl, hmakes.ne_null, 0, hmakes.node, rfl⟩, ?_⟩, List.pairwise_singleton _ _,
      List.nodup_singleton _⟩⟩
    exact fun u hu ↦ List.mem_singleton.mp hu ▸ hmakes.stored
  · have hl : l ∈ us ++ [l] := List.mem_append_right us (List.mem_singleton_self l)
    have hhead : σ.fdtListHead ≠ 0 :=
      h.chain.ne_zero fun hnil ↦ List.ne_nil_of_mem hl (List.map_eq_nil_iff.mp hnil)
    rw [if_neg hhead]
    by_cases hmem : ∃ t ∈ us ++ [l], t.pid = cur.pid
    · obtain ⟨t, ht, hpid, l', p', hsearch⟩ :=
        @search_of_mem _ σ.heap cur.pid cur.ppid _ _ 0 0 h.chain hfuel hmem
      rw [hsearch, Option.bind_eq_bind, Option.bind_some]
      exact ⟨σ, t, if_pos (h.node ht).1, hpid, .inl ⟨ht, rfl⟩⟩
    · have hnone : ∀ u ∈ us ++ [l], u.pid ≠ cur.pid := fun u hu hpid ↦ hmem ⟨u, hu, hpid⟩
      obtain ⟨p', hsearch, hparent⟩ :=
        @search_of_notMem _ σ.heap cur.pid cur.ppid _ _ 0 0 h.chain hfuel hnone
      rw [List.getLast?_concat, Option.map_some, Option.getD_some] at hsearch
      rw [hsearch, Option.bind_eq_bind, Option.bind_some]
      dsimp only
      rw [if_neg (not_not_intro rfl)]
      obtain ⟨-, next, hlnode⟩ := h.node hl
      rcases hparent with ⟨parent, hparent, hppid, rfl⟩ | ⟨hnoparent, rfl⟩
      · obtain ⟨hne, link, hnode⟩ := h.node hparent
        obtain ⟨σ', t, hcopy, happends, hcontents⟩ :=
          copyFDT_eq A cur hlnode hnode (h.stored parent hparent)
        have hpid : t.pid = cur.pid := congrArg FDT.pid hcontents
        rw [if_neg hne]
        exact ⟨σ', t, hcopy, hpid, .inr ⟨hnone, hcontents.trans (h.newFDT_of_mem hparent hppid).symm,
          h.appends happends fun u hu ↦ hpid ▸ hnone u hu⟩⟩
      · obtain ⟨σ₁, t, hcreate, hmakes, hcontents⟩ := createFDT_eq A cur σ
        obtain ⟨σ', hset, happends⟩ := hmakes.link hlnode
        have hpid : t.pid = cur.pid := congrArg FDT.pid hcontents
        rw [if_pos rfl, hcreate, Option.bind_eq_bind, Option.bind_some]
        dsimp only
        rw [hset]
        exact ⟨σ', t, rfl, hpid, .inr ⟨hnone, hcontents.trans (newFDT_of_notMem hnoparent).symm,
          h.appends happends fun u hu ↦ hpid ▸ hnone u hu⟩⟩

/-- The call does in memory what `get_FDT` does on the list of the contents. -/
theorem Sound.getFDT_refines {area : Area} (h : Sound σ ts) (A : Allocator) (cur : Process)
    {s : State area} (hs : s.fdtList = ts.map StoredTable.contents) :
    ∃ σ' ts' t, σ.getFDT A cur = some (t.addr, σ') ∧ Sound σ' ts' ∧ t ∈ ts' ∧
      Filesys.getFDT cur s =
        (t.contents, { s with fdtList := ts'.map StoredTable.contents }) := by
  obtain ⟨σ', t, hcall, hpid, ⟨ht, rfl⟩ | ⟨hnone, hcontents, hsound⟩⟩ := h.getFDT A cur
  · refine ⟨σ', ts, t, hcall, h, ht, ?_⟩
    have hsome : (s.fdtList.find? fun fdt ↦ fdt.pid = cur.pid).isSome := by
      rw [List.find?_isSome, hs]
      exact ⟨t.contents, List.mem_map_of_mem ht, decide_eq_true hpid⟩
    obtain ⟨fdt, hfind⟩ := Option.isSome_iff_exists.mp hsome
    have hmem := List.mem_of_find?_eq_some hfind
    rw [hs] at hmem
    obtain ⟨u, hu, rfl⟩ := List.mem_map.mp hmem
    have hfound := List.find?_some hfind
    have hupid : u.pid = cur.pid := of_decide_eq_true hfound
    obtain rfl := h.eq_of_pid hu ht (hupid.trans hpid.symm)
    rw [getFDT_of_find? hfind, ← hs]
  · refine ⟨σ', ts ++ [t], t, hcall, hsound, List.mem_append_right ts (List.mem_singleton_self t), ?_⟩
    have hfind : s.fdtList.find? (fun fdt ↦ fdt.pid = cur.pid) = none := by
      rw [List.find?_eq_none, hs]
      intro fdt hfdt
      obtain ⟨u, hu, rfl⟩ := List.mem_map.mp hfdt
      exact fun hupid ↦ hnone u hu (of_decide_eq_true hupid)
    rw [Filesys.getFDT, hfind]
    dsimp only
    rw [hs, ← hcontents, List.map_append]
    rfl

/-! ## Runs -/

theorem Sound.step {pid : ℤ} (h : Sound σ ts) (hstep : Step A pid σ σ') :
    ∃ ts', Sound σ' ts' ∧ ∀ u ∈ ts, u.pid ≠ pid → u ∈ ts' := by
  cases hstep with
  | getFDT cur p hcall =>
      obtain ⟨σ₁, t, hcall', -, hcases⟩ := h.getFDT A cur
      cases hcall.symm.trans hcall'
      rcases hcases with ⟨-, heq⟩ | ⟨-, -, hsound⟩
      · exact ⟨ts, heq ▸ h, fun u hu _ ↦ hu⟩
      · exact ⟨_, hsound, fun u hu _ ↦ List.mem_append_left _ hu⟩
  | ownChange _ hown => exact h.ownChange hown

theorem exists_sound (h : Reachable A σ) : ∃ ts, Sound σ ts := by
  induction h with
  | refl => exact ⟨[], sound_loaded⟩
  | tail _ hstep ih =>
      obtain ⟨ts, hts⟩ := ih
      obtain ⟨pid, hstep⟩ := hstep
      obtain ⟨ts', hts', -⟩ := hts.step hstep
      exact ⟨ts', hts'⟩

theorem Sound.kept (h : Sound σ ts) (ht : t ∈ ts) (hrun : OtherSteps A t.pid σ σ') :
    ∃ ts', Sound σ' ts' ∧ t ∈ ts' := by
  induction hrun with
  | refl => exact ⟨ts, h, ht⟩
  | tail _ hstep ih =>
      obtain ⟨ts₁, h₁, ht₁⟩ := ih
      obtain ⟨pid, hpid, hstep⟩ := hstep
      obtain ⟨ts₂, h₂, hothers⟩ := h₁.step hstep
      exact ⟨ts₂, h₂, hothers t ht₁ hpid.symm⟩

theorem Sound.serves (h : Sound σ ts) (A : Allocator) (cur : Process) :
    ServesOwnTable A σ ts cur := by
  obtain ⟨σ', t, hcall, hpid, ⟨ht, rfl⟩ | ⟨hnone, hcontents, hsound⟩⟩ := h.getFDT A cur
  · exact ⟨σ', ts, t, hcall, h.toHolds, ht, hpid, fun u hu ↦ hu, fun u hu ↦ .inl hu,
      fun hnone ↦ absurd hpid (hnone t ht)⟩
  · refine ⟨σ', ts ++ [t], t, hcall, hsound.toHolds, ?_, hpid,
      fun u hu ↦ List.mem_append_left _ hu, fun u hu ↦ ?_, fun _ ↦ ⟨fun u hu hupid ↦ ?_, ?_⟩⟩
    · exact List.mem_append_right ts (List.mem_singleton_self t)
    · exact (List.mem_append.mp hu).imp_right List.mem_singleton.mp
    · rw [hcontents, h.newFDT_of_mem hu hupid]
      exact ⟨rfl, rfl⟩
    · intro hnoparent
      rw [hcontents, newFDT_of_notMem hnoparent]
      exact ⟨rfl, rfl⟩

/-- In every reachable state the tables belong to one process each, `get_FDT` returns the
caller's, and no process changes another one's. -/
theorem tables_per_process (h : Reachable A σ) : ∃ ts, PerProcess A σ ts := by
  obtain ⟨ts, hsound⟩ := exists_sound h
  refine ⟨ts, hsound.toHolds, hsound.pids, hsound.serves A, fun t ht σ' hrun ↦ ?_⟩
  obtain ⟨ts', h', ht'⟩ := hsound.kept ht hrun
  exact ⟨ts', h'.toHolds, ht'⟩

/-- The allocator that goes up. -/
def nextBlock : Allocator where
  vmalloc := fun _ heap ↦ heap.keys.sup id + 1
  ne_null := fun _ _ ↦ Nat.succ_ne_zero _
  fresh := by
    intro _ heap hmem
    have hle : heap.keys.sup id + 1 ≤ heap.keys.sup id :=
      Finset.le_sup (f := id) (Finmap.mem_keys.mpr hmem)
    omega

/-- A process and its child. -/
theorem tables_per_process_child : ∃ p q σ₁ σ₂, loaded.getFDT nextBlock ⟨1, 0⟩ = some (p, σ₁) ∧
    σ₁.getFDT nextBlock ⟨2, 1⟩ = some (q, σ₂) ∧ ∃ ts, PerProcess nextBlock σ₂ ts := by
  obtain ⟨σ₁, t, h₁, -, ⟨ht, -⟩ | ⟨-, -, hsound⟩⟩ := sound_loaded.getFDT nextBlock ⟨1, 0⟩
  · exact absurd ht List.not_mem_nil
  · obtain ⟨σ₂, u, h₂, -⟩ := hsound.getFDT nextBlock ⟨2, 1⟩
    exact ⟨t.addr, u.addr, σ₁, σ₂, h₁, h₂, tables_per_process
      (.tail (.tail .refl ⟨1, .getFDT ⟨1, 0⟩ _ h₁⟩) ⟨2, .getFDT ⟨2, 1⟩ _ h₂⟩)⟩

end TableHeap

end OperatingSystem.Filesys
