import OperatingSystem.Filesys.BuildingMaps

/-!
# A file that takes its blocks one after the other

Whatever allocator stands behind it, `allocate_block` on a file of `c` blocks
fills the slot of logical block `c` and the index slots that come before it, and
leaves the pointers and the data of the first `c` blocks as they are.
-/

namespace OperatingSystem.Filesys

open ByteMemory

variable {area : Area} {pick : Picker area}

/-! ## Index blocks on the way -/

/-- The number of blocks of a file of `c` logical blocks, with its index blocks:
one from block 8 on, one from block 72 on, and one for every 64 blocks there. -/
def mapBlocks (c : ℕ) : ℕ :=
  c + (if 8 < c then 1 else 0) + if 72 < c then 1 + (c - 9) / 64 else 0

/-- The number of blocks that `allocate_block` takes for logical block `c`. -/
def stepBlocks (c : ℕ) : ℕ :=
  if c = 72 then 3 else if c = 8 ∨ (72 < c ∧ (c - 72) % 64 = 0) then 2 else 1

theorem mapBlocks_succ (c : ℕ) : mapBlocks (c + 1) = stepBlocks c + mapBlocks c := by
  simp only [mapBlocks, stepBlocks]
  split_ifs <;> omega

theorem needed_succ {c : ℕ} (hc : c < 4168) (σ : Slot) : σ.Needed (c + 1) ↔
    σ = dataSlot c ∨ σ.Needed c ∨ (c = 8 ∧ σ = .loc 8) ∨ (c = 72 ∧ σ = .loc 9) ∨
      (72 ≤ c ∧ (c - 72) % 64 = 0 ∧ σ = .double (Fin.ofNat 64 ((c - 72) / 64))) := by
  have h₈ : ((8 : Fin 10) : ℕ) = 8 := rfl
  have h₉ : ((9 : Fin 10) : ℕ) = 9 := rfl
  rw [dataSlot]
  cases σ with
  | loc k =>
      have hk := k.isLt
      split_ifs <;> simp only [Slot.Needed, Slot.loc.injEq, Fin.ext_iff, Fin.val_ofNat, h₈, h₉,
        and_false, or_false, false_or] <;> omega
  | single k =>
      have hk := k.isLt
      split_ifs <;> simp only [Slot.Needed, Slot.single.injEq, Fin.ext_iff, Fin.val_ofNat,
        and_false, or_false, false_or] <;> omega
  | double j =>
      have hj := j.isLt
      split_ifs <;> simp only [Slot.Needed, Slot.double.injEq, Fin.ext_iff, Fin.val_ofNat,
        and_false, false_or] <;> omega
  | second j k =>
      have hj := j.isLt
      have hk := k.isLt
      split_ifs <;> simp only [Slot.Needed, Slot.second.injEq, Fin.ext_iff, Fin.val_ofNat,
        and_false, or_false, false_or] <;> omega

/-! ## One slot after the other -/

theorem slotPtr_of_same {st st' : Store area} {ino ino' : MyInode} (hspace : st'.space = st.space)
    (hloc : ino'.location = ino.location) (σ : Slot) : st'.slotPtr ino' σ = st.slotPtr ino σ := by
  have hentry : ∀ index k, st'.entry index k = st.entry index k := by
    intro index k
    rw [Store.entry, Store.entry, hspace]
  cases σ <;> simp only [Store.slotPtr, hentry, hloc]

/-- The slots of `S` are filled by given blocks, and the picker has `m` more. -/
structure Growing (pick : Picker area) (i : ℕ) (S : Set Slot) (given : Set ℕ) (m : ℕ)
    (st : Store area) : Prop where
  filled : FilledMap st (st.inode i) S given
  supplies : Supplies pick m given st

/-- The same while block `b` is picked but stands in no slot yet. -/
structure Picked (pick : Picker area) (i : ℕ) (S : Set Slot) (given : Set ℕ) (m b : ℕ)
    (st : Store area) : Prop where
  filled : FilledMap st (st.inode i) S given
  fresh : FreshBlock st given b
  supplies : Supplies pick m (insert b given) st

/-- Only the map of the inode changes: the slots of `S` keep their pointers, and
the data blocks among them their bytes. -/
structure KeepsMap (i : ℕ) (S : Set Slot) (st st' : Store area) : Prop where
  record : ∃ loc, st'.inode i = { st.inode i with location := loc }
  ptr : ∀ σ ∈ S, st'.slotPtr (st'.inode i) σ = st.slotPtr (st.inode i) σ
  bytes : ∀ σ ∈ S, ¬ σ.IsIndex → ∀ x < 256,
    st'.space (st.slotPtr (st.inode i) σ + x) = st.space (st.slotPtr (st.inode i) σ + x)

namespace KeepsMap

variable {i : ℕ} {S T : Set Slot} {st st₁ st₂ : Store area}

theorem of_same (hinode : st₁.inode = st.inode) (hspace : st₁.space = st.space) :
    KeepsMap i S st st₁ where
  record := ⟨(st.inode i).location, by rw [hinode]⟩
  ptr := fun σ _ ↦ slotPtr_of_same hspace (by rw [hinode]) σ
  bytes := fun σ _ _ x _ ↦ by rw [hspace]

theorem trans (h : KeepsMap i S st st₁) (g : KeepsMap i T st₁ st₂) (hsub : S ⊆ T) :
    KeepsMap i S st st₂ := by
  obtain ⟨loc, hloc⟩ := h.record
  obtain ⟨loc', hloc'⟩ := g.record
  refine ⟨⟨loc', by rw [hloc', hloc]⟩, fun σ hσ ↦ (g.ptr σ (hsub hσ)).trans (h.ptr σ hσ), ?_⟩
  intro σ hσ hdata x hx
  have hsecond := g.bytes σ (hsub hσ) hdata x hx
  rw [h.ptr σ hσ] at hsecond
  exact hsecond.trans (h.bytes σ hσ hdata x hx)

end KeepsMap

theorem FilledMap.of_ptr {st st' : Store area} {ino ino' : MyInode} {S : Set Slot}
    {given : Set ℕ} (h : FilledMap st ino S given)
    (hptr : ∀ σ, st'.slotPtr ino' σ = st.slotPtr ino σ) : FilledMap st' ino' S given := by
  refine ⟨h.closed, fun σ hσ ↦ ?_, fun σ hσ τ hτ heq ↦ ?_, fun σ hσ ↦ ?_⟩
  · rw [hptr]
    exact h.block σ hσ
  · rw [hptr, hptr] at heq
    exact h.inj σ hσ τ hτ heq
  · rw [hptr]
    exact h.empty σ hσ

theorem FilledMap.of_same {st st' : Store area} {ino ino' : MyInode} {S : Set Slot}
    {given : Set ℕ} (h : FilledMap st ino S given) (hspace : st'.space = st.space)
    (hloc : ino'.location = ino.location) : FilledMap st' ino' S given :=
  h.of_ptr (slotPtr_of_same hspace hloc)

theorem FilledMap.holds {st : Store area} {ino : MyInode} {S : Set Slot} {given : Set ℕ}
    (h : FilledMap st ino S given) {σ : Slot} (hσ : σ ∈ S) :
    area.Holds (st.slotPtr ino σ) 256 := by
  obtain ⟨b, -, hb, hptr⟩ := h.block σ hσ
  rw [hptr]
  exact holds_block hb

theorem FilledMap.loadWord {st : Store area} {ino : MyInode} {S : Set Slot} {given : Set ℕ}
    (h : FilledMap st ino S given) {σ π : Slot} {e : ℕ} (hσ : σ.parent = some (π, e))
    (hπ : π ∈ S) : st.loadWord (st.slotPtr ino π + 4 * e) 4 = some (st.slotPtr ino σ) := by
  rw [loadWord_entry (h.holds hπ) (parent_lt hσ), slotPtr_of_parent st ino hσ]

theorem Growing.take {i m : ℕ} {S : Set Slot} {given : Set ℕ} {st : Store area}
    (h : Growing pick i S given (m + 1) st) : ∃ b st', pick st = some (b, st') ∧
      Picked pick i S given m b st' ∧ KeepsMap i S st st' ∧ st'.inode = st.inode ∧
      st'.space = st.space := by
  obtain ⟨-, b, st', hpick, hb, hnew, hzero, hinode, hspace, hrest⟩ :=
    h.supplies st (SameOutside.refl given st)
  refine ⟨b, st', hpick, ⟨h.filled.of_same hspace (by rw [hinode]), ⟨hb, hnew, ?_⟩, hrest⟩,
    KeepsMap.of_same hinode hspace, hinode, hspace⟩
  intro x hx
  rw [hspace]
  exact hzero x hx

namespace Picked

variable {i m b : ℕ} {S : Set Slot} {given : Set ℕ} {st : Store area}

theorem setRecord (h : Picked pick i S given m b st) {ino : MyInode}
    (hloc : ino.location = (st.inode i).location) :
    Picked pick i S given m b (st.setInode i ino) where
  filled := h.filled.of_same rfl (by rw [Store.setInode_inode, hloc])
  fresh := ⟨h.fresh.lt, h.fresh.new, h.fresh.zero⟩
  supplies := h.supplies.congr (SameOutside.setInode _ st i ino)

theorem setSlot (h : Picked pick i S given m b st) {k : ℕ} {l : Fin 10} (hl : l.val = k)
    (hempty : Slot.loc l ∉ S) :
    Growing pick i (insert (.loc l) S) (insert b given) m (st.setSlot i k (area.blockAddr b)) ∧
      KeepsMap i S st (st.setSlot i k (area.blockAddr b)) ∧
      (st.setSlot i k (area.blockAddr b)).slotPtr ((st.setSlot i k (area.blockAddr b)).inode i)
        (.loc l) = area.blockAddr b := by
  subst hl
  have hfill : ∀ τ, (st.setSlot i l (area.blockAddr b)).slotPtr
      ((st.setSlot i l (area.blockAddr b)).inode i) τ =
      if τ = .loc l then area.blockAddr b else st.slotPtr (st.inode i) τ := by
    intro τ
    rw [← h.filled.fill_loc hempty h.fresh τ, Store.setSlot, Store.setInode_inode]
    exact slotPtr_of_same rfl rfl τ
  refine ⟨⟨h.filled.insert h.fresh hempty (fun π e hparent ↦ by cases hparent) hfill,
    h.supplies.congr (SameOutside.setInode _ st i _)⟩, ⟨⟨_, Store.setInode_inode ..⟩, ?_, ?_⟩, ?_⟩
  · intro σ hσ
    rw [hfill, if_neg]
    rintro rfl
    exact hempty hσ
  · exact fun _ _ _ _ _ ↦ rfl
  · rw [hfill, if_pos rfl]

theorem storePtr (h : Picked pick i S given m b st) {σ π : Slot} {e : ℕ}
    (hσ : σ.parent = some (π, e)) (hπ : π ∈ S) (hempty : σ ∉ S) :
    ∃ st', st.storePtr (st.slotPtr (st.inode i) π + 4 * e) (area.blockAddr b) = some st' ∧
      Growing pick i (insert σ S) (insert b given) m st' ∧ KeepsMap i S st st' ∧
      st'.inode = st.inode ∧ st'.slotPtr (st'.inode i) σ = area.blockAddr b := by
  have he := parent_lt hσ
  have hfill := h.filled.fill_entry hσ hπ hempty h.fresh
  obtain ⟨p, hp, -, hptr⟩ := h.filled.block π hπ
  refine ⟨_, Store.storePtr_eq ((h.filled.holds hπ).mono (by omega)),
    ⟨h.filled.insert h.fresh hempty ?_ hfill, h.supplies.congr ?_⟩,
    ⟨⟨(st.inode i).location, rfl⟩, ?_, ?_⟩, rfl, ?_⟩
  · rintro π' e' hparent
    rw [hσ] at hparent
    cases hparent
    exact hπ
  · rw [hptr]
    exact SameOutside.storeBytes (.inr hp) (by rw [length_leBytes]; omega)
  · intro τ hτ
    rw [hfill, if_neg]
    rintro rfl
    exact hempty hτ
  · intro τ hτ hdata x hx
    have hne : τ ≠ π := by
      rintro rfl
      exact hdata (parent_isIndex hσ)
    have hdisjoint := h.filled.disjoint hτ hπ hne
    apply writeBytes_of_disjoint
    rw [length_leBytes]
    omega
  · rw [hfill, if_pos rfl]

end Picked

/-! ## The next block -/

/-- The result `r` of a call on `st`: logical block `c` is mapped after the first
`c`, its address is returned, and `m` blocks are left. -/
def MapsNext (pick : Picker area) (i c m : ℕ) (st : Store area)
    (r : Option (ℕ × Store area)) : Prop :=
  ∃ given st', r = some (st'.slotPtr (st'.inode i) (dataSlot c), st') ∧
    Growing pick i {σ | σ.Needed (c + 1)} given m st' ∧ KeepsMap i {σ | σ.Needed c} st st'

theorem MapsNext.of_keeps {i c m : ℕ} {st st₁ : Store area} {r : Option (ℕ × Store area)}
    (h : MapsNext pick i c m st₁ r) (hkeep : KeepsMap i {σ | σ.Needed c} st st₁) :
    MapsNext pick i c m st r := by
  obtain ⟨given, st', hr, hgrow, hkept⟩ := h
  exact ⟨given, st', hr, hgrow, hkeep.trans hkept (le_refl _)⟩

theorem insert_needed {c : ℕ} (hc : c < 4168) (h₈ : c ≠ 8) (h₇₂ : 72 ≤ c → (c - 72) % 64 ≠ 0) :
    insert (dataSlot c) {σ | σ.Needed c} = {σ | Slot.Needed (c + 1) σ} := by
  ext σ
  rw [Set.mem_insert_iff, Set.mem_ofPred_eq, Set.mem_ofPred_eq, needed_succ hc]
  constructor
  · rintro (h | h)
    · exact .inl h
    · exact .inr (.inl h)
  · rintro (h | h | ⟨rfl, -⟩ | ⟨rfl, -⟩ | ⟨hle, hmod, -⟩)
    · exact .inl h
    · exact .inr h
    · exact (h₈ rfl).elim
    · exact (h₇₂ (le_refl 72) rfl).elim
    · exact (h₇₂ hle hmod).elim

theorem insert_needed_eight :
    insert (.single 0) (insert (.loc 8) {σ | σ.Needed 8}) = {σ | Slot.Needed 9 σ} := by
  ext σ
  have hsucc := needed_succ (show 8 < 4168 by omega) σ
  have hslot : dataSlot 8 = .single 0 := rfl
  simp only [hslot] at hsucc
  simp only [Set.mem_insert_iff, Set.mem_ofPred_eq, hsucc]
  constructor
  · rintro (h | h | h)
    · exact .inl h
    · exact .inr (.inr (.inl ⟨trivial, h⟩))
    · exact .inr (.inl h)
  · rintro (h | h | ⟨-, h⟩ | ⟨h, -⟩ | ⟨h, -⟩)
    · exact .inl h
    · exact .inr (.inr h)
    · exact .inr (.inl h)
    · omega
    · omega

theorem insert_needed_double {c : ℕ} (hc : c < 4168) (hle : 72 < c) (hmod : (c - 72) % 64 = 0) :
    insert (dataSlot c) (insert (.double (Fin.ofNat 64 ((c - 72) / 64))) {σ | σ.Needed c}) =
      {σ | Slot.Needed (c + 1) σ} := by
  ext σ
  simp only [Set.mem_insert_iff, Set.mem_ofPred_eq, needed_succ hc]
  constructor
  · rintro (h | h | h)
    · exact .inl h
    · exact .inr (.inr (.inr (.inr ⟨by omega, hmod, h⟩)))
    · exact .inr (.inl h)
  · rintro (h | h | ⟨h, -⟩ | ⟨h, -⟩ | ⟨-, -, h⟩)
    · exact .inl h
    · exact .inr (.inr h)
    · omega
    · omega
    · exact .inr (.inl h)

theorem insert_needed_first_double :
    insert (.second 0 0) (insert (.double 0) (insert (.loc 9) {σ | σ.Needed 72})) =
      {σ | Slot.Needed 73 σ} := by
  ext σ
  have hsucc := needed_succ (show 72 < 4168 by omega) σ
  have hslot : dataSlot 72 = .second 0 0 := rfl
  have hindex : Fin.ofNat 64 ((72 - 72) / 64) = 0 := rfl
  simp only [hslot, hindex] at hsucc
  simp only [Set.mem_insert_iff, Set.mem_ofPred_eq, hsucc]
  constructor
  · rintro (h | h | h | h)
    · exact .inl h
    · exact .inr (.inr (.inr (.inr ⟨le_refl 72, trivial, h⟩)))
    · exact .inr (.inr (.inr (.inl ⟨trivial, h⟩)))
    · exact .inr (.inl h)
  · rintro (h | h | ⟨h, -⟩ | ⟨-, h⟩ | ⟨-, -, h⟩)
    · exact .inl h
    · exact .inr (.inr (.inr h))
    · omega
    · exact .inr (.inr (.inl h))
    · exact .inr (.inl h)

namespace Picked

variable {i c m k b : ℕ} {given : Set ℕ} {st : Store area}

theorem installDirect (h : Picked pick i {σ | σ.Needed c} given k b st)
    (hk : k + 1 = stepBlocks c + m) (hc : c < 8) :
    MapsNext pick i c m st (some (area.blockAddr b, st.setSlot i c (area.blockAddr b))) := by
  obtain rfl : k = m := by
    rw [stepBlocks, if_neg (by omega), if_neg (by omega)] at hk
    omega
  have hslot : dataSlot c = .loc (Fin.ofNat 10 c) := if_pos hc
  have hempty : dataSlot c ∉ {σ | Slot.Needed c σ} := by
    rw [Set.mem_ofPred_eq, needed_dataSlot (by omega)]
    omega
  rw [hslot] at hempty
  obtain ⟨hgrow, hkeep, hptr⟩ := h.setSlot (Nat.mod_eq_of_lt (show c < 10 by omega)) hempty
  rw [← hslot, insert_needed (by omega) (by omega) (by omega)] at hgrow
  rw [← hslot] at hptr
  exact ⟨_, _, by rw [hptr], hgrow, hkeep⟩

theorem installSingle (h : Picked pick i {σ | σ.Needed c} given k b st)
    (hk : k + 1 = stepBlocks c + m) (h₈ : 8 ≤ c) (h₇₂ : c < 72) :
    MapsNext pick i c m st (installSingleWith pick st i b c) := by
  by_cases hfirst : c = 8
  · -- the index block first, then the data block in its first entry
    subst hfirst
    obtain rfl : k = m + 1 := by
      have hstep : stepBlocks 8 = 2 := rfl
      omega
    have hindex : Slot.loc 8 ∉ {σ | Slot.Needed 8 σ} := by
      simp [Slot.Needed]
    have hnull : (st.inode i).location 8 = 0 := h.filled.empty _ hindex
    obtain ⟨hgrow, hkeep, hptr⟩ := h.setSlot (show ((8 : Fin 10) : ℕ) = 8 from rfl) hindex
    obtain ⟨b', st', hpick, hpicked, htake, -, -⟩ := hgrow.take
    have hdata : Slot.single 0 ∉ insert (Slot.loc 8) {σ | Slot.Needed 8 σ} := by
      simp [Slot.Needed]
    obtain ⟨st'', hstore, hgrown, hkept, -, hmapped⟩ :=
      @Picked.storePtr _ _ _ _ _ _ _ _ hpicked (.single 0) (.loc 8) 0 rfl (.inl rfl) hdata
    rw [htake.ptr _ (.inl rfl), hptr, Nat.mul_zero, Nat.add_zero] at hstore
    refine ⟨_, st'', ?_, insert_needed_eight ▸ hgrown, ?_⟩
    · simp only [installSingleWith, hnull, if_true, hpick, hstore, Option.bind_eq_bind,
        Option.bind_some]
      exact congrArg (fun ptr ↦ some (ptr, st'')) hmapped.symm
    · exact hkeep.trans (htake.trans hkept (le_refl _)) (Set.subset_insert ..)
  · obtain rfl : k = m := by
      rw [stepBlocks, if_neg (by omega), if_neg (by omega)] at hk
      omega
    have hindex : Slot.loc 8 ∈ {σ | Slot.Needed c σ} := .inr (.inl ⟨rfl, by omega⟩)
    have hnull : (st.inode i).location 8 ≠ 0 := h.filled.ne_zero hindex
    have hdata : dataSlot c ∉ {σ | Slot.Needed c σ} := by
      rw [Set.mem_ofPred_eq, needed_dataSlot (by omega)]
      omega
    have hslot : dataSlot c = .single (Fin.ofNat 64 (c - 8)) := by
      rw [dataSlot, if_neg (by omega), if_pos h₇₂]
    have hparent : (dataSlot c).parent = some (.loc 8, c - 8) := by
      rw [hslot, Slot.parent, Fin.val_ofNat, Nat.mod_eq_of_lt (by omega)]
    obtain ⟨st', hstore, hgrown, hkept, -, hmapped⟩ := h.storePtr hparent hindex hdata
    rw [insert_needed (by omega) hfirst (by omega)] at hgrown
    refine ⟨_, st', ?_, hgrown, hkept⟩
    have hstore : st.storePtr ((st.inode i).location 8 + 4 * (c - 8)) (area.blockAddr b) =
        some st' := hstore
    rw [installSingleWith, if_neg hnull, hstore, hmapped]
    rfl

/-- Block 72 comes with both levels of index blocks. -/
theorem installFirstDouble (h : Picked pick i {σ | σ.Needed 72} given (m + 2) b st) :
    MapsNext pick i 72 m st (installDoubleWith pick st i b 72) := by
  have hroot : Slot.loc 9 ∉ {σ | Slot.Needed 72 σ} := by
    simp [Slot.Needed]
  have hsecond : Slot.double 0 ∉ insert (Slot.loc 9) {σ | Slot.Needed 72 σ} := by
    simp [Slot.Needed]
  have hdata : Slot.second 0 0 ∉
      insert (Slot.double 0) (insert (Slot.loc 9) {σ | Slot.Needed 72 σ}) := by
    simp [Slot.Needed]
  have hnull : (st.inode i).location 9 = 0 := h.filled.empty _ hroot
  obtain ⟨hgrow, hkeep, hptr⟩ := h.setSlot (show ((9 : Fin 10) : ℕ) = 9 from rfl) hroot
  obtain ⟨b₁, st₁, hpick₁, hpicked₁, htake₁, -, -⟩ := hgrow.take
  obtain ⟨st₂, hstore₁, hgrow₂, hkept₁, -, hmapped₁⟩ :=
    @Picked.storePtr _ _ _ _ _ _ _ _ hpicked₁ (.double 0) (.loc 9) 0 rfl (.inl rfl) hsecond
  obtain ⟨b₂, st₃, hpick₂, hpicked₂, htake₂, -, -⟩ := hgrow₂.take
  obtain ⟨st₄, hstore₂, hgrown, hkept₂, -, hmapped₂⟩ :=
    @Picked.storePtr _ _ _ _ _ _ _ _ hpicked₂ (.second 0 0) (.double 0) 0 rfl (.inl rfl) hdata
  have hload := @FilledMap.loadWord _ _ _ _ _ hpicked₂.filled (.double 0) (.loc 9) 0 rfl
    (.inr (.inl rfl))
  -- the index blocks are where they were put
  rw [htake₁.ptr _ (.inl rfl), hptr, Nat.mul_zero, Nat.add_zero] at hstore₁
  rw [htake₂.ptr _ (.inr (.inl rfl)), hkept₁.ptr _ (.inl rfl), htake₁.ptr _ (.inl rfl), hptr,
    htake₂.ptr _ (.inl rfl), hmapped₁, Nat.mul_zero, Nat.add_zero] at hload
  rw [htake₂.ptr _ (.inl rfl), hmapped₁, Nat.mul_zero, Nat.add_zero] at hstore₂
  refine ⟨_, st₄, ?_, insert_needed_first_double ▸ hgrown, ?_⟩
  · simp only [installDoubleWith, hnull, if_true, hpick₁, hstore₁, hpick₂, hload, hstore₂,
      Option.bind_eq_bind, Option.bind_some]
    exact congrArg (fun ptr ↦ some (ptr, st₄)) hmapped₂.symm
  · have hlast := htake₂.trans hkept₂ (le_refl _)
    have hrest := htake₁.trans (hkept₁.trans hlast (Set.subset_insert ..)) (le_refl _)
    exact hkeep.trans hrest (Set.subset_insert ..)

theorem installDouble (h : Picked pick i {σ | σ.Needed c} given k b st)
    (hk : k + 1 = stepBlocks c + m) (h₇₂ : 72 ≤ c) (hc : c < 4168) :
    MapsNext pick i c m st (installDoubleWith pick st i b c) := by
  rcases Nat.eq_or_lt_of_le h₇₂ with rfl | hlt
  · obtain rfl : k = m + 2 := by
      have hstep : stepBlocks 72 = 3 := rfl
      omega
    exact h.installFirstDouble
  · have hroot : Slot.loc 9 ∈ {σ | Slot.Needed c σ} := .inr (.inr ⟨rfl, hlt⟩)
    have hnull : (st.inode i).location 9 ≠ 0 := h.filled.ne_zero hroot
    have hindex : Slot.parent (.double (Fin.ofNat 64 ((c - 72) / 64))) =
        some (.loc 9, (c - 72) / 64) := by
      rw [Slot.parent, Fin.val_ofNat, Nat.mod_eq_of_lt (by omega)]
    have hslot : dataSlot c =
        .second (Fin.ofNat 64 ((c - 72) / 64)) (Fin.ofNat 64 ((c - 72) % 64)) := by
      rw [dataSlot, if_neg (by omega), if_neg (by omega)]
    have hparent : (dataSlot c).parent =
        some (.double (Fin.ofNat 64 ((c - 72) / 64)), (c - 72) % 64) := by
      rw [hslot, Slot.parent, Fin.val_ofNat _ ((c - 72) % 64), Nat.mod_mod]
    have hload : st.loadWord ((st.inode i).location 9 + 4 * ((c - 72) / 64)) 4 =
        some (st.slotPtr (st.inode i) (.double (Fin.ofNat 64 ((c - 72) / 64)))) :=
      h.filled.loadWord hindex hroot
    by_cases hmod : (c - 72) % 64 = 0
    · -- a second-level block first
      obtain rfl : k = m + 1 := by
        rw [stepBlocks, if_neg (by omega), if_pos (.inr ⟨hlt, hmod⟩)] at hk
        omega
      have hnew : Slot.double (Fin.ofNat 64 ((c - 72) / 64)) ∉ {σ | Slot.Needed c σ} := by
        simp only [Set.mem_ofPred_eq, Slot.Needed, Fin.val_ofNat]
        omega
      have hdata : dataSlot c ∉
          insert (Slot.double (Fin.ofNat 64 ((c - 72) / 64))) {σ | Slot.Needed c σ} := by
        rw [Set.mem_insert_iff, Set.mem_ofPred_eq, needed_dataSlot hc, hslot]
        simp
      obtain ⟨st₁, hstore₁, hgrow, hkept₁, hinode₁, hmapped₁⟩ := h.storePtr hindex hroot hnew
      obtain ⟨b₁, st₂, hpick, hpicked, htake, -, -⟩ := hgrow.take
      have hload₁ := hpicked.filled.loadWord hindex (.inr hroot)
      obtain ⟨st₃, hstore₂, hgrown, hkept₂, -, hmapped₂⟩ := hpicked.storePtr hparent (.inl rfl) hdata
      rw [htake.ptr _ (.inr hroot), hkept₁.ptr _ hroot, htake.ptr _ (.inl rfl), hmapped₁] at hload₁
      rw [htake.ptr _ (.inl rfl), hmapped₁, hmod, Nat.mul_zero, Nat.add_zero] at hstore₂
      have hstore₁ : st.storePtr ((st.inode i).location 9 + 4 * ((c - 72) / 64))
          (area.blockAddr b) = some st₁ := hstore₁
      have hload₁ : st₂.loadWord ((st.inode i).location 9 + 4 * ((c - 72) / 64)) 4 =
          some (area.blockAddr b) := hload₁
      rw [h.filled.empty _ hnew] at hload
      refine ⟨_, st₃, ?_, insert_needed_double hc hlt hmod ▸ hgrown, ?_⟩
      · simp only [installDoubleWith, hnull, if_false, hload, if_true, hstore₁, hpick, hload₁,
          hstore₂, hmapped₂, Option.bind_eq_bind, Option.bind_some]
      · exact hkept₁.trans (htake.trans hkept₂ (le_refl _)) (Set.subset_insert ..)
    · obtain rfl : k = m := by
        rw [stepBlocks, if_neg (by omega), if_neg (by omega)] at hk
        omega
      have hsecond : Slot.double (Fin.ofNat 64 ((c - 72) / 64)) ∈ {σ | Slot.Needed c σ} := by
        simp only [Set.mem_ofPred_eq, Slot.Needed, Fin.val_ofNat]
        omega
      have hdata : dataSlot c ∉ {σ | Slot.Needed c σ} := by
        rw [Set.mem_ofPred_eq, needed_dataSlot hc]
        omega
      obtain ⟨st₁, hstore, hgrown, hkept, -, hmapped⟩ := h.storePtr hparent hsecond hdata
      rw [insert_needed hc (by omega) (fun _ ↦ hmod)] at hgrown
      refine ⟨_, st₁, ?_, hgrown, hkept⟩
      simp only [installDoubleWith, hnull, if_false, hload, h.filled.ne_zero hsecond, hstore,
        hmapped, Option.bind_eq_bind, Option.bind_some]

end Picked

theorem Growing.allocateBlock {i c m : ℕ} {given : Set ℕ} {st : Store area}
    (h : Growing pick i {σ | σ.Needed c} given (stepBlocks c + m) st) (hc : c < 4168)
    (hnum : (st.inode i).blockNumber + 1 = c) :
    MapsNext pick i c m
      (st.setInode i { st.inode i with blockNumber := c, lastBlockOffset := 0 })
      (allocateBlockWith pick st i) := by
  obtain ⟨k, hk⟩ : ∃ k, k + 1 = stepBlocks c + m := by
    have hpos : 0 < stepBlocks c := by
      simp only [stepBlocks]
      split_ifs <;> omega
    exact ⟨stepBlocks c + m - 1, by omega⟩
  rw [← hk] at h
  obtain ⟨hfree, -⟩ := h.supplies st (SameOutside.refl given st)
  have hrefuse : ¬ RefusesBlock st.superblock (st.inode i) := by
    rw [RefusesBlock, hnum]
    simp only [maxFileSize, blockSize]
    rintro (hlarge | hnone | ⟨height, hfew⟩ | ⟨hdouble, hfew⟩)
    · omega
    · omega
    · obtain rfl : c = 8 := by omega
      have hstep : stepBlocks 8 = 2 := rfl
      omega
    · obtain rfl : c = 72 := by omega
      have hstep : stepBlocks 72 = 3 := rfl
      omega
  obtain ⟨b, st₁, hpick, hpicked, -, hinode, hspace⟩ := h.take
  have hrecord : KeepsMap i {σ | σ.Needed c}
      (st.setInode i { st.inode i with blockNumber := c, lastBlockOffset := 0 })
      (st₁.setInode i { st.inode i with blockNumber := c, lastBlockOffset := 0 }) :=
    KeepsMap.of_same (by simp only [Store.setInode, hinode]) hspace
  have hready : Picked pick i {σ | σ.Needed c} given k b
      (st₁.setInode i { st.inode i with blockNumber := c, lastBlockOffset := 0 }) :=
    hpicked.setRecord (by rw [hinode])
  refine MapsNext.of_keeps ?_ hrecord
  simp only [allocateBlockWith, hrefuse, if_false, hpick, Option.bind_eq_bind, Option.bind_some,
    hnum, hinode, Int.toNat_natCast]
  by_cases hdirect : c < 8
  · rw [if_pos (by omega), if_pos (by omega)]
    exact hready.installDirect hk hdirect
  · rw [if_neg (by omega)]
    by_cases hsingle : c < 72
    · rw [if_pos (by omega)]
      exact hready.installSingle hk (by omega) hsingle
    · rw [if_neg (by omega)]
      exact hready.installDouble hk (by omega) hc

end OperatingSystem.Filesys
