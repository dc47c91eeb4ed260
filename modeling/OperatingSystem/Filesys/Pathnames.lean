import OperatingSystem.Filesys.Processes

/-!
# What a pathname resolves to

A set of inodes that holds the root and every inode that `"../"` can climb to,
and that lookups do not leave, holds the directory of every pathname.
-/

namespace OperatingSystem.Filesys

variable {area : Area}

/-! ## Parsing -/

theorem stripBack_subset (pn : List UInt8) : (stripBack pn).2 ⊆ pn := by
  fun_induction stripBack pn with
  | case1 rest ih => exact fun c hc ↦ by simp [ih hc]
  | case2 pn _ => exact fun c hc ↦ hc

theorem skipPrefix_subset (pre pn : List UInt8) : skipPrefix pre pn ⊆ pn := by
  unfold skipPrefix
  split
  · exact List.drop_subset ..
  · exact List.Subset.refl pn

theorem partition_subset (pn : List UInt8) :
    (∀ piece ∈ (partition pn).1, piece ⊆ pn) ∧ (partition pn).2 ⊆ pn := by
  induction pn with
  | nil => simp [partition]
  | cons c cs ih =>
      obtain ⟨ihPieces, ihLast⟩ := ih
      have hpieces : ∀ piece ∈ (partition cs).1, piece ⊆ c :: cs := fun piece hpiece ↦
        List.subset_cons_of_subset c (ihPieces piece hpiece)
      have hlast : (partition cs).2 ⊆ c :: cs := List.subset_cons_of_subset c ihLast
      rw [partition]
      split
      · refine ⟨?_, hlast⟩
        intro piece hpiece
        rcases List.mem_cons.mp hpiece with rfl | hpiece
        · exact List.nil_subset _
        · exact hpieces piece hpiece
      · split
        · next last heq =>
          rw [heq] at ihLast
          exact ⟨by simp, List.cons_subset_cons c ihLast⟩
        · next piece pieces last heq =>
          rw [heq] at ihPieces hpieces hlast
          refine ⟨?_, hlast⟩
          intro piece' hpiece
          rcases List.mem_cons.mp hpiece with rfl | hpiece
          · exact List.cons_subset_cons c (ihPieces piece (by simp))
          · exact hpieces piece' (by simp [hpiece])

theorem readPathname_cases {st : Store area} {fdt : FDT} {pathname childfile : List UInt8}
    {desIndex : ℕ} {parentlist : List (List UInt8)}
    (h : readPathname st fdt pathname = some (.parsed desIndex parentlist childfile)) :
    (∀ name ∈ parentlist, name ⊆ pathname) ∧ childfile ⊆ pathname ∧
      (desIndex = 0 ∨ ∃ head back, fdt.fileObjects.head? = some head ∧
        climb st back head.inodeIndex = some desIndex) := by
  obtain ⟨head, hhead, h⟩ := Option.bind_eq_some_iff.mp h
  dsimp only at h
  split at h
  · cases h
  · obtain ⟨d, hclimb, h⟩ := Option.bind_eq_some_iff.mp h
    split at h
    · cases h
      obtain ⟨hpieces, hlast⟩ := partition_subset
        (skipPrefix [47] (skipPrefix [46, 47] (stripBack pathname).2))
      have hrest : skipPrefix [47] (skipPrefix [46, 47] (stripBack pathname).2) ⊆ pathname := by
        apply List.Subset.trans (skipPrefix_subset _ _)
        exact List.Subset.trans (skipPrefix_subset _ _) (stripBack_subset pathname)
      refine ⟨fun name hname ↦ List.Subset.trans (hpieces name hname) hrest,
        List.Subset.trans hlast hrest, ?_⟩
      split
      · exact .inl rfl
      · exact .inr ⟨head, _, hhead, hclimb⟩
    · cases h

/-! ## Walking -/

theorem walkParents_invariant {st : Store area} {P : ℕ → Prop} {names : List (List UInt8)}
    (hstep : ∀ i d r, ∀ name ∈ names, P i → isExist st name i d = some r → r.ans ≠ ERROR →
      P r.ans.toNat) {slot i : ℕ} {position : ℤ} {des : ℤ × ℤ} (hi : P i)
    (h : walkParents st names slot i position = some des) (hne : des.1 ≠ ERROR) :
    P des.1.toNat := by
  induction names generalizing slot i position with
  | nil =>
      rw [walkParents] at h
      split at h
      · cases h
        exact hi
      · cases h
  | cons name names ih =>
      obtain ⟨r, hr, h⟩ := Option.bind_eq_some_iff.mp h
      split at h
      · cases h
        exact (hne rfl).elim
      · next hans =>
        refine ih (fun i d r name' hname ↦ hstep i d r name' (List.mem_cons_of_mem name hname)) ?_ h
        exact hstep i position r name List.mem_cons_self hi hr hans

theorem resolve_eq_some {st : Store area} {fdt : FDT} {pathname childfile : List UInt8} {des : ℕ}
    {position : ℤ} (h : resolve st fdt pathname = some (some (des, childfile, position))) :
    ∃ desIndex parentlist d,
      readPathname st fdt pathname = some (.parsed desIndex parentlist childfile) ∧
      walkParents st parentlist 0 desIndex (-1) = some (d, position) ∧ d ≠ ERROR ∧
      des = d.toNat := by
  obtain ⟨parsed, hparsed, h⟩ := Option.bind_eq_some_iff.mp h
  cases parsed with
  | error => cases h
  | parsed desIndex parentlist childfile' =>
      obtain ⟨⟨d, position'⟩, hwalk, h⟩ := Option.bind_eq_some_iff.mp h
      dsimp only at h
      split at h
      · cases h
      · next hne =>
        cases h
        exact ⟨desIndex, parentlist, d, hparsed, hwalk, hne, rfl⟩

theorem resolve_invariant {st : Store area} {fdt : FDT} {P : ℕ → Prop}
    {pathname childfile : List UInt8} {des : ℕ} {position : ℤ} (hroot : P 0)
    (hclimb : ∀ head back i, fdt.fileObjects.head? = some head →
      climb st back head.inodeIndex = some i → P i)
    (hstep : ∀ i d r name, name ⊆ pathname → P i → isExist st name i d = some r →
      r.ans ≠ ERROR → P r.ans.toNat)
    (h : resolve st fdt pathname = some (some (des, childfile, position))) :
    P des ∧ childfile ⊆ pathname := by
  obtain ⟨desIndex, parentlist, d, hparsed, hwalk, hne, rfl⟩ := resolve_eq_some h
  obtain ⟨hnames, hchild, hstart⟩ := readPathname_cases hparsed
  refine ⟨?_, hchild⟩
  refine walkParents_invariant (fun i d r name hname ↦ ?_) ?_ hwalk hne
  · exact hstep i d r name (hnames name hname)
  · rcases hstart with rfl | ⟨head, back, hhead, hdes⟩
    · exact hroot
    · exact hclimb head back desIndex hhead hdes

theorem lookup_eq_some {st : Store area} {fdt : FDT} {pathname name : List UInt8} {i : ℕ}
    (h : lookup st fdt pathname = some (some (name, i))) :
    ∃ des position r, resolve st fdt pathname = some (some (des, name, position)) ∧
      isExist st name des position = some r ∧ r.ans ≠ ERROR ∧ i = r.ans.toNat := by
  obtain ⟨target, htarget, h⟩ := Option.bind_eq_some_iff.mp h
  rcases target with _ | ⟨des, name', position⟩
  · cases h
  · obtain ⟨r, hr, h⟩ := Option.bind_eq_some_iff.mp h
    split at h
    · cases h
    · next hans =>
      cases h
      exact ⟨des, position, r, htarget, hr, hans, rfl⟩

/-- `create` gets to the write with the directory that its pathname resolves to
and a short name that is not found there. -/
theorem lookupNew_eq_some {st : Store area} {fdt : FDT} {pathname name : List UInt8} {des : ℕ}
    (h : lookupNew st fdt pathname = some (some (des, name))) :
    ∃ position r, resolve st fdt pathname = some (some (des, name, position)) ∧
      name.length ≤ 13 ∧ isExist st name des position = some r ∧ r.ans = ERROR := by
  obtain ⟨target, htarget, h⟩ := Option.bind_eq_some_iff.mp h
  rcases target with _ | ⟨des', name', position⟩
  · cases h
  · dsimp only at h
    split at h
    · cases h
    · next hlength =>
      obtain ⟨r, hr, h⟩ := Option.bind_eq_some_iff.mp h
      split at h
      · cases h
      · next hans =>
        cases h
        exact ⟨position, r, htarget, by omega, hr, not_not.mp hans⟩

theorem isExist_of_empty {st : Store area} {name : List UInt8} {i : ℕ} {d : ℤ} {r : SearchResult}
    (hempty : i < inodeListNum → (st.inode i).size = 0) (h : isExist st name i d = some r) :
    r.ans = ERROR := by
  simp only [isExist] at h
  split at h
  · cases h
    rfl
  · obtain ⟨ino, hino, h⟩ := Option.bind_eq_some_iff.mp h
    obtain ⟨hi, rfl⟩ := Store.inodeAt_eq_some hino
    have hchild : (toInt 0).tdiv 16 ≤ 0 := by decide
    simp only [hempty hi, if_pos hchild] at h
    cases h
    rfl

theorem climb_root {st : Store area} (hparent : inodeListNum ≤ (st.inode 0).parentIndex)
    {back i : ℕ} (h : climb st back 0 = some i) : i = 0 ∨ inodeListNum ≤ i := by
  cases back with
  | zero =>
      cases h
      exact .inl rfl
  | succ back =>
      obtain ⟨ino, hino, h⟩ := Option.bind_eq_some_iff.mp h
      obtain ⟨-, rfl⟩ := Store.inodeAt_eq_some hino
      cases back with
      | zero =>
          cases h
          exact .inr hparent
      | succ back =>
          obtain ⟨ino, hino, h⟩ := Option.bind_eq_some_iff.mp h
          have hlt := (Store.inodeAt_eq_some hino).1
          omega

end OperatingSystem.Filesys
