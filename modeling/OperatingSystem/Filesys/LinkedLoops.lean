import OperatingSystem.Filesys.TableChanges

/-!
# Walks through the file objects

Where the loops of the operations end in the list of a table, and what `rd_open` and `rd_close`
make of the list there.
-/

namespace OperatingSystem.Filesys

open LinkedList

namespace TableHeap

variable {σ : TableHeap} {t : StoredTable} {heap : Heap} {p : ℕ} {xs us vs : List (ℕ × FileObject)}
  {ts : List StoredTable}

/-! ## The loops -/

theorem findObject_eq (h : Chain heap.fileObject p xs) (i : ℕ) {fuel : ℕ}
    (hfuel : xs.length < fuel) : findObject heap i fuel p =
      some (if ∃ fo ∈ xs.map Prod.snd, fo.inodeIndex = i then ERROR else SUCCESS) := by
  induction xs generalizing p fuel with
  | nil =>
      cases fuel with
      | zero => cases hfuel
      | succ fuel =>
          obtain rfl : p = 0 := h
          simp [findObject]
  | cons x xs ih =>
      cases fuel with
      | zero => cases hfuel
      | succ fuel =>
          obtain ⟨rfl, hne, next, hnode, hrest⟩ := h
          rw [findObject, if_neg hne, hnode, Option.bind_eq_bind, Option.bind_some]
          dsimp only
          by_cases hi : x.2.inodeIndex = i
          · simp [hi]
          · have hmem : (∃ fo ∈ (x :: xs).map Prod.snd, fo.inodeIndex = i) ↔
                ∃ fo ∈ xs.map Prod.snd, fo.inodeIndex = i := by
              rw [List.map_cons, List.exists_mem_cons_iff, or_iff_right hi]
            rw [if_neg hi, ih hrest (Nat.lt_of_succ_lt_succ hfuel)]
            simp only [hmem]

/-- As many rounds as there are file objects before the last part. -/
theorem walk_append (h : Chain heap.fileObject p (us ++ vs)) (fomer : ℕ) :
    walk heap us.length fomer p =
      some (some ((us.getLast?.map Prod.fst).getD fomer, (vs.head?.map Prod.fst).getD 0)) := by
  induction us generalizing p fomer with
  | nil =>
      cases vs with
      | nil =>
          obtain rfl : p = 0 := h
          rfl
      | cons v vs =>
          obtain ⟨rfl, -⟩ := h
          rfl
  | cons u us ih =>
      obtain ⟨rfl, hne, next, hnode, hrest⟩ := h
      rw [List.length_cons, walk, if_neg hne, hnode, Option.bind_eq_bind, Option.bind_some]
      dsimp only
      rw [ih hrest u.1, List.getLast?_cons]
      cases us.getLast? <;> rfl

theorem walk_past (h : Chain heap.fileObject p xs) {n : ℕ} (hn : xs.length < n) (fomer : ℕ) :
    walk heap n fomer p = some none := by
  induction xs generalizing p n fomer with
  | nil =>
      cases n with
      | zero => cases hn
      | succ n =>
          obtain rfl : p = 0 := h
          exact if_pos rfl
  | cons x xs ih =>
      cases n with
      | zero => cases hn
      | succ n =>
          obtain ⟨rfl, hne, next, hnode, hrest⟩ := h
          rw [walk, if_neg hne, hnode, Option.bind_eq_bind, Option.bind_some]
          exact ih hrest (Nat.lt_of_succ_lt_succ hn) _

theorem lastObject_eq {a : ℕ} {fo : FileObject} (h : Chain heap.fileObject p (us ++ [(a, fo)]))
    {fuel : ℕ} (hfuel : us.length < fuel) (fd : ℕ) :
    lastObject heap fuel p fd = some (a, fd + us.length) := by
  induction us generalizing p fuel fd with
  | nil =>
      cases fuel with
      | zero => cases hfuel
      | succ fuel =>
          obtain ⟨rfl, hne, next, hnode, hrest⟩ := h
          obtain rfl : next = 0 := hrest
          rw [lastObject, Heap.deref, if_neg hne, hnode, Option.bind_eq_bind, Option.bind_some]
          exact if_neg (not_not_intro rfl)
  | cons u us ih =>
      cases fuel with
      | zero => cases hfuel
      | succ fuel =>
          obtain ⟨rfl, hne, next, hnode, hrest⟩ := h
          have hnext : next ≠ 0 := hrest.ne_zero
            (List.append_ne_nil_of_right_ne_nil us (List.cons_ne_nil _ _))
          rw [lastObject, Heap.deref, if_neg hne, hnode, Option.bind_eq_bind, Option.bind_some]
          dsimp only
          rw [if_pos hnext, ih hrest (Nat.lt_of_succ_lt_succ hfuel), List.length_cons]
          congr 2
          omega

/-! ## A table -/

theorem Stored.objects_length_lt (h : Stored σ t) :
    t.objects.length < σ.heap.keys.card + 1 :=
  Nat.lt_succ_of_le (h.parts.chain.length_le fun _ ha ↦
    Finmap.mem_keys.mpr (h.mem_heap (mem_blocks_of_object ha)))

theorem Stored.exists_head (h : Stored σ t) :
    ∃ fo vs, t.objects = (t.fields.fileObjectListHead, fo) :: vs := by
  have hchain := h.parts.chain
  cases hobjects : t.objects with
  | nil => exact absurd hobjects h.parts.ne_nil
  | cons x vs =>
      rw [hobjects] at hchain
      obtain ⟨hx, -⟩ := hchain
      exact ⟨x.2, vs, by rw [← hx]⟩

/-- What `read_pathname` and `rd_open` read is as in the contents. -/
theorem Stored.pathFields (h : Stored σ t) : ∃ fdt, σ.pathFields t.addr = some fdt ∧
    fdt.fileObjects.head? = t.contents.fileObjects.head? ∧ fdt.curPath = t.curPath := by
  obtain ⟨link, hnode⟩ := h.node
  obtain ⟨fo, vs, hobjects⟩ := h.exists_head
  obtain ⟨next, hderef⟩ := h.object (hobjects ▸ List.mem_cons_self)
  refine ⟨⟨t.fields.pid, [fo], t.curPath⟩, ?_, ?_, rfl⟩
  · simp only [TableHeap.pathFields, hnode, hderef, h.parts.path, Option.bind_eq_bind,
      Option.bind_some]
  · simp [StoredTable.contents, hobjects]

theorem Sound.isOpen_eq (h : Sound σ ts) (ht : t ∈ ts) (i : ℕ) :
    σ.isOpen i = Filesys.isOpen (ts.map StoredTable.contents) i := by
  cases ts with
  | nil => exact absurd ht List.not_mem_nil
  | cons u us =>
      have hu : u ∈ u :: us := List.mem_cons_self
      obtain ⟨haddr, -⟩ := h.chain
      obtain ⟨-, next, hnode⟩ := h.node hu
      rw [TableHeap.isOpen, ← haddr, hnode, Option.bind_eq_bind, Option.bind_some]
      exact findObject_eq (h.stored u hu).chain i (h.storedTable hu).objects_length_lt

theorem Stored.objectAt_cases (h : Stored σ t) (fd : ℤ) :
    (t.contents.fileObject fd = none ∧ σ.objectAt t.addr fd = some none) ∨
      ∃ us a fo vs, t.objects = us ++ (a, fo) :: vs ∧ us.length = fd.toNat ∧
        t.contents.fileObject fd = some fo ∧ σ.objectAt t.addr fd = some (some a) := by
  obtain ⟨link, hnode⟩ := h.node
  simp only [objectAt, FDT.fileObject, hnode, Option.bind_eq_bind, Option.bind_some]
  by_cases hfd : fd = 0
  · rw [if_pos hfd, if_pos hfd]
    exact .inl ⟨rfl, rfl⟩
  · rw [if_neg hfd, if_neg hfd]
    have hlength : t.contents.fileObjects.length = t.objects.length := List.length_map _
    rcases Nat.lt_trichotomy t.objects.length fd.toNat with hlt | heq | hlt
    · rw [walk_past h.parts.chain hlt, List.getElem?_eq_none (hlength ▸ hlt.le)]
      exact .inl ⟨rfl, rfl⟩
    · have hchain : Chain σ.heap.fileObject t.fields.fileObjectListHead (t.objects ++ []) :=
        (List.append_nil t.objects).symm ▸ h.parts.chain
      rw [← heq, walk_append hchain, List.getElem?_eq_none hlength.le]
      exact .inl ⟨rfl, rfl⟩
    · have hsplit : t.objects = t.objects.take fd.toNat ++
          (t.objects[fd.toNat].1, t.objects[fd.toNat].2) :: t.objects.drop (fd.toNat + 1) := by
        rw [← List.drop_eq_getElem_cons hlt, List.take_append_drop]
      have hcount : (t.objects.take fd.toNat).length = fd.toNat :=
        List.length_take_of_le hlt.le
      obtain ⟨next, hderef⟩ := h.object (List.getElem_mem hlt)
      have hchain := h.parts.chain
      rw [hsplit] at hchain
      have hwalk := walk_append hchain 0
      rw [hcount] at hwalk
      refine .inr ⟨_, _, _, _, hsplit, hcount, ?_, ?_⟩
      · rw [StoredTable.contents, List.getElem?_map, List.getElem?_eq_getElem hlt, Option.map_some]
      · rw [hwalk, Option.bind_some]
        exact congrArg some (if_neg (deref_eq_some.mp hderef).1)

theorem Stored.unlink_cases (h : Stored σ t) {fd : ℤ} (hfd : 0 < fd) :
    (t.objects.length < fd ∧
        walk σ.heap fd.toNat 0 t.fields.fileObjectListHead = some none) ∨
      ∃ fomer fo, walk σ.heap fd.toNat 0 t.fields.fileObjectListHead = some (some (fomer, fo)) ∧
        (t.objects.length = fd ∧ σ.unlinkObject fomer fo = none ∨
          fd < t.objects.length ∧ ∃ σ' xs, σ.unlinkObject fomer fo = some σ' ∧
            xs.map Prod.snd = t.contents.fileObjects.eraseIdx fd.toNat ∧
            Changes σ σ' t { t with objects := xs } 0) := by
  obtain ⟨n, rfl⟩ := Int.eq_ofNat_of_zero_le hfd.le
  rw [Int.toNat_natCast]
  rcases Nat.lt_trichotomy t.objects.length n with hlt | heq | hlt
  · exact .inl ⟨Int.ofNat_lt.mpr hlt, walk_past h.parts.chain hlt 0⟩
  · have hchain : Chain σ.heap.fileObject t.fields.fileObjectListHead (t.objects ++ []) :=
      (List.append_nil t.objects).symm ▸ h.parts.chain
    rw [← heq]
    exact .inr ⟨_, _, walk_append hchain 0, .inl ⟨rfl, rfl⟩⟩
  · obtain ⟨us, ⟨a, fo⟩, htake⟩ :=
        (List.eq_nil_or_concat' (t.objects.take n)).resolve_left fun hnil ↦ by
      have hlength := congrArg List.length hnil
      rw [List.length_take_of_le hlt.le, List.length_nil] at hlength
      exact hfd.ne' (congrArg Nat.cast hlength)
    have hcount : (us ++ [(a, fo)]).length = n := htake ▸ List.length_take_of_le hlt.le
    have hsplit : t.objects = (us ++ [(a, fo)]) ++
        (t.objects[n].1, t.objects[n].2) :: t.objects.drop (n + 1) := by
      rw [← htake, ← List.drop_eq_getElem_cons hlt, List.take_append_drop]
    have hchain := h.parts.chain
    rw [hsplit] at hchain
    have hwalk := walk_append hchain 0
    rw [hcount, List.getLast?_concat] at hwalk
    obtain ⟨σ', hunlink, hc⟩ := h.unlinkObject
      (hsplit.trans (by rw [List.append_assoc, List.singleton_append]))
    refine .inr ⟨_, _, hwalk, .inr ⟨Int.ofNat_lt.mpr hlt, σ', _, hunlink, ?_, hc⟩⟩
    have hcontents : t.contents.fileObjects = (us ++ [(a, fo)]).map Prod.snd ++
        t.objects[n].2 :: (t.objects.drop (n + 1)).map Prod.snd := by
      rw [StoredTable.contents]
      conv_lhs => rw [hsplit]
      rw [List.map_append, List.map_cons]
    rw [hcontents, List.eraseIdx_append_of_length_le (by rw [List.length_map, hcount]),
      List.length_map, hcount, Nat.sub_self, List.eraseIdx_cons_zero]
    simp

theorem Stored.loadObject_dir (h : Stored σ t) (A : Allocator) (i : ℕ) :
    ∃ σ' xs, σ.loadObject A t.addr i .dir = some (0, σ') ∧ xs.map Prod.snd = [⟨i, 0⟩] ∧
      Changes σ σ' t { t with objects := xs } (t.objects.length - 1) := by
  obtain ⟨link, hnode⟩ := h.node
  obtain ⟨fo, vs, hobjects⟩ := h.exists_head
  have hfirst : t.objects = [] ++ (t.fields.fileObjectListHead, fo) :: vs := hobjects
  obtain ⟨σ₁, h₁, hc₁⟩ := h.setObject hfirst ⟨i, 0⟩
  obtain ⟨σ₂, h₂, hc₂⟩ := (h.changes hc₁).cutObjects rfl
  refine ⟨σ₂, [(t.fields.fileObjectListHead, ⟨i, 0⟩)], ?_, rfl, ?_⟩
  · simp only [loadObject, hnode, h₁, h₂, if_pos, Option.bind_eq_bind, Option.bind_some]
  · have hc := hc₁.trans hc₂
    rw [hobjects, List.length_cons, Nat.add_sub_cancel]
    rwa [Nat.zero_add] at hc

theorem Stored.loadObject_file (h : Stored σ t) (A : Allocator) (i : ℕ) {type : ObjectType}
    (htype : type ≠ .dir) : ∃ σ' xs,
      σ.loadObject A t.addr i type = some (t.objects.length, σ') ∧
      xs.map Prod.snd = t.contents.fileObjects ++ [⟨i, 0⟩] ∧
      Changes σ σ' t { t with objects := xs } 0 := by
  obtain ⟨link, hnode⟩ := h.node
  obtain ⟨us, ⟨a, fo⟩, hobjects⟩ := (List.eq_nil_or_concat' t.objects).resolve_left h.parts.ne_nil
  have hchain := h.parts.chain
  have hfuel := h.objects_length_lt
  rw [hobjects] at hchain
  rw [hobjects, List.length_append, List.length_singleton] at hfuel
  have hlast := lastObject_eq hchain (Nat.lt_of_succ_lt hfuel) 0
  obtain ⟨σ', q, hset, hc⟩ := h.appendObject hobjects A ⟨i, 0⟩
  refine ⟨σ', _, ?_, ?_, hc⟩
  · simp only [loadObject, hnode, if_neg htype, hlast, hset, Option.bind_eq_bind, Option.bind_some,
      hobjects, List.length_append, List.length_singleton, Nat.zero_add]
  · simp [StoredTable.contents, hobjects]

end TableHeap

end OperatingSystem.Filesys
