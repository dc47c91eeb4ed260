import OperatingSystem.Filesys.MappedBlocks

/-!
# Block maps that own their blocks

The slots that a file of `c` blocks needs, index blocks included. In a map that
owns its blocks all of them point to different blocks of the data area, so a
write inside a data block changes no pointer and no byte of another block.
-/

namespace OperatingSystem.Filesys

open ByteMemory

variable {area : Area}

/-! ## Slots by the number of blocks -/

/-- The slot is filled in a map of `c` logical blocks. -/
def Slot.Needed (c : ℕ) : Slot → Prop
  | .loc k => (k.val < 8 ∧ k.val < c) ∨ (k.val = 8 ∧ 8 < c) ∨ (k.val = 9 ∧ 72 < c)
  | .single k => 8 + k.val < c
  | .double j => 72 + 64 * j.val < c
  | .second j k => 72 + 64 * j.val + k.val < c

instance (c : ℕ) : (σ : Slot) → Decidable (σ.Needed c)
  | .loc k => inferInstanceAs
      (Decidable ((k.val < 8 ∧ k.val < c) ∨ (k.val = 8 ∧ 8 < c) ∨ (k.val = 9 ∧ 72 < c)))
  | .single k => inferInstanceAs (Decidable (8 + k.val < c))
  | .double j => inferInstanceAs (Decidable (72 + 64 * j.val < c))
  | .second j k => inferInstanceAs (Decidable (72 + 64 * j.val + k.val < c))

theorem Slot.Needed.mono {σ : Slot} {c c' : ℕ} (h : σ.Needed c) (hle : c ≤ c') : σ.Needed c' := by
  cases σ <;> simp only [Slot.Needed] at h ⊢ <;> omega

def dataSlot (k : ℕ) : Slot :=
  if k < 8 then .loc (Fin.ofNat 10 k)
  else if k < 72 then .single (Fin.ofNat 64 (k - 8))
  else .second (Fin.ofNat 64 ((k - 72) / 64)) (Fin.ofNat 64 ((k - 72) % 64))

def Slot.IsIndex : Slot → Prop
  | .loc k => 8 ≤ k.val
  | .double _ => True
  | _ => False

theorem slotPtr_dataSlot (st : Store area) (ino : MyInode) {k : ℕ} (hk : k < 4168) :
    st.slotPtr ino (dataSlot k) = st.logicalPtr ino k := by
  rw [dataSlot, Store.logicalPtr]
  split
  · rw [Store.slotPtr, Fin.val_ofNat, Nat.mod_eq_of_lt (by omega)]
  · split
    · rw [Store.slotPtr, Fin.val_ofNat, Nat.mod_eq_of_lt (by omega)]
    · rw [Store.slotPtr, Fin.val_ofNat, Fin.val_ofNat, Nat.mod_eq_of_lt (by omega), Nat.mod_mod]

theorem needed_dataSlot {c k : ℕ} (hk : k < 4168) : (dataSlot k).Needed c ↔ k < c := by
  rw [dataSlot]
  split
  · simp only [Slot.Needed, Fin.val_ofNat, Nat.mod_eq_of_lt (show k < 10 by omega)]
    omega
  · split
    · simp only [Slot.Needed, Fin.val_ofNat]
      omega
    · simp only [Slot.Needed, Fin.val_ofNat]
      omega

theorem not_isIndex_dataSlot (k : ℕ) : ¬ (dataSlot k).IsIndex := by
  rw [dataSlot]
  split
  · simp only [Slot.IsIndex, Fin.val_ofNat]
    omega
  · split <;> exact not_false

theorem dataSlot_inj {k l : ℕ} (hk : k < 4168) (hl : l < 4168) (h : dataSlot k = dataSlot l) :
    k = l := by
  have hneeded := fun c ↦ (needed_dataSlot hk).symm.trans ((h ▸ needed_dataSlot hl : _ ↔ l < c))
  have hleft := (hneeded (k + 1)).mp (by omega)
  have hright := (hneeded (l + 1)).mpr (by omega)
  omega

/-! ## Slots and their index blocks -/

/-- The slot whose index block holds a slot, and the place in that block. -/
def Slot.parent : Slot → Option (Slot × ℕ)
  | .loc _ => none
  | .single k => some (.loc 8, k)
  | .double j => some (.loc 9, j)
  | .second j k => some (.double j, k)

theorem slotPtr_of_parent (st : Store area) (ino : MyInode) {σ π : Slot} {e : ℕ}
    (h : σ.parent = some (π, e)) : st.slotPtr ino σ = st.entry (st.slotPtr ino π) e := by
  cases σ <;> cases h <;> rfl

theorem parent_lt {σ π : Slot} {e : ℕ} (h : σ.parent = some (π, e)) : e < 64 := by
  cases σ with
  | loc k => cases h
  | single k =>
      cases h
      exact k.isLt
  | double j =>
      cases h
      exact j.isLt
  | second j k =>
      cases h
      exact k.isLt

theorem parent_isIndex {σ π : Slot} {e : ℕ} (h : σ.parent = some (π, e)) : π.IsIndex := by
  cases σ with
  | loc k => cases h
  | single k =>
      cases h
      exact le_refl 8
  | double j =>
      cases h
      exact Nat.le_succ 8
  | second j k =>
      cases h
      trivial

theorem parent_inj {σ τ π : Slot} {e : ℕ} (hσ : σ.parent = some (π, e))
    (hτ : τ.parent = some (π, e)) : σ = τ := by
  cases σ <;> cases hσ <;> cases τ <;>
    simp_all [Slot.parent, Fin.ext_iff]

/-- From a slot to the entries of its index block. -/
theorem slot_induction {P : Slot → Prop} (hloc : ∀ k, P (.loc k))
    (hchild : ∀ σ π e, σ.parent = some (π, e) → P π → P σ) (σ : Slot) : P σ := by
  cases σ with
  | loc k => exact hloc k
  | single k => exact hchild _ _ _ rfl (hloc 8)
  | double j => exact hchild _ _ _ rfl (hloc 9)
  | second j k => exact hchild _ _ _ rfl (hchild _ _ _ rfl (hloc 9))

/-! ## Own blocks -/

/-- Every slot of the first `c` blocks points to a block of the data area, and
no two of them to the same. -/
structure Store.OwnMap (st : Store area) (ino : MyInode) (c : ℕ) : Prop where
  le : c ≤ 4168
  block : ∀ σ : Slot, σ.Needed c →
    ∃ b < allocatableSpaceSize, st.slotPtr ino σ = area.blockAddr b
  inj : ∀ σ τ : Slot, σ.Needed c → τ.Needed c → st.slotPtr ino σ = st.slotPtr ino τ → σ = τ

/-- The bytes of the needed index blocks are the same in the two stores. -/
def SameIndex (st st' : Store area) (ino : MyInode) (c : ℕ) : Prop :=
  ∀ σ : Slot, σ.Needed c → σ.IsIndex →
    ∀ x < 256, st'.space (st.slotPtr ino σ + x) = st.space (st.slotPtr ino σ + x)

theorem entry_congr {st st' : Store area} {index k : ℕ} (hk : k < 64)
    (h : ∀ x < 256, st'.space (index + x) = st.space (index + x)) :
    st'.entry index k = st.entry index k := by
  rw [Store.entry, Store.entry]
  congr 2
  apply readBytes_congr
  intro x hx
  rw [Nat.add_assoc]
  exact h _ (by omega)

theorem slotPtr_congr {st st' : Store area} {ino : MyInode} {c : ℕ} (h : SameIndex st st' ino c)
    {σ : Slot} (hσ : σ.Needed c) : st'.slotPtr ino σ = st.slotPtr ino σ := by
  have hdouble : ∀ j : Fin 64, 72 + 64 * j.val < c →
      st'.entry (ino.location 9) j = st.entry (ino.location 9) j := by
    intro j hj
    exact entry_congr j.isLt (h (.loc 9) (.inr (.inr ⟨rfl, by omega⟩)) (show 8 ≤ 9 by omega))
  cases σ with
  | loc k => rfl
  | single k =>
      have hk : 8 + k.val < c := hσ
      exact entry_congr k.isLt (h (.loc 8) (.inr (.inl ⟨rfl, by omega⟩)) (show 8 ≤ 8 by omega))
  | double j => exact hdouble j hσ
  | second j k =>
      have hk : 72 + 64 * j.val + k.val < c := hσ
      have hj : (Slot.double j).Needed c := show 72 + 64 * j.val < c by omega
      rw [Store.slotPtr, Store.slotPtr, hdouble j hj]
      exact entry_congr k.isLt (h (.double j) hj trivial)

namespace Store.OwnMap

variable {st st' : Store area} {ino : MyInode} {c : ℕ}

theorem mono (h : st.OwnMap ino c) {c' : ℕ} (hle : c' ≤ c) : st.OwnMap ino c' where
  le := hle.trans h.le
  block := fun σ hσ ↦ h.block σ (hσ.mono hle)
  inj := fun σ τ hσ hτ heq ↦ h.inj σ τ (hσ.mono hle) (hτ.mono hle) heq

theorem holds (h : st.OwnMap ino c) {σ : Slot} (hσ : σ.Needed c) :
    area.Holds (st.slotPtr ino σ) 256 := by
  obtain ⟨b, hb, hptr⟩ := h.block σ hσ
  rw [hptr]
  exact holds_block hb

theorem disjoint (h : st.OwnMap ino c) {σ τ : Slot} (hσ : σ.Needed c) (hτ : τ.Needed c)
    (hne : σ ≠ τ) : st.slotPtr ino σ + 256 ≤ st.slotPtr ino τ ∨
      st.slotPtr ino τ + 256 ≤ st.slotPtr ino σ := by
  obtain ⟨b, -, hb⟩ := h.block σ hσ
  obtain ⟨b', -, hb'⟩ := h.block τ hτ
  have hblocks : b ≠ b' := by
    rintro rfl
    exact hne (h.inj σ τ hσ hτ (hb.trans hb'.symm))
  rw [hb, hb']
  simp only [Area.blockAddr, blockSize]
  omega

theorem mapped (h : st.OwnMap ino c) {k : ℕ} (hk : k < c) : st.Mapped ino k := by
  have hle := h.le
  refine ⟨by omega, ?_, ?_, ?_, ?_⟩
  · rw [← slotPtr_dataSlot st ino (by omega)]
    exact h.holds ((needed_dataSlot (by omega)).mpr hk)
  · intro hlow _
    exact @holds _ _ _ _ h (.loc 8) (.inr (.inl ⟨rfl, by omega⟩))
  · intro hlow
    exact @holds _ _ _ _ h (.loc 9) (.inr (.inr ⟨rfl, by omega⟩))
  · intro hlow
    have hindex : (k - 72) / 64 % 64 = (k - 72) / 64 := Nat.mod_eq_of_lt (by omega)
    have hholds := @holds _ _ _ _ h (.double (Fin.ofNat 64 ((k - 72) / 64)))
      (show 72 + 64 * ((k - 72) / 64 % 64) < c by omega)
    rw [Store.slotPtr, Fin.val_ofNat, hindex] at hholds
    exact hholds

theorem congr (h : st.OwnMap ino c) (hsame : SameIndex st st' ino c) : st'.OwnMap ino c where
  le := h.le
  block := fun σ hσ ↦ by
    rw [slotPtr_congr hsame hσ]
    exact h.block σ hσ
  inj := fun σ τ hσ hτ heq ↦ by
    rw [slotPtr_congr hsame hσ, slotPtr_congr hsame hτ] at heq
    exact h.inj σ τ hσ hτ heq

theorem sameIndex (h : st.OwnMap ino c) {k : ℕ} (hk : k < c)
    (hspace : ∀ x, (x < st.logicalPtr ino k ∨ st.logicalPtr ino k + 256 ≤ x) →
      st'.space x = st.space x) : SameIndex st st' ino c := by
  have hle := h.le
  intro σ hσ hindex x hx
  have hne : σ ≠ dataSlot k := by
    rintro rfl
    exact not_isIndex_dataSlot k hindex
  have hdisjoint := h.disjoint hσ ((needed_dataSlot (by omega)).mpr hk) hne
  rw [slotPtr_dataSlot st ino (by omega)] at hdisjoint
  apply hspace
  omega

theorem logicalPtr_congr (h : st.OwnMap ino c) (hsame : SameIndex st st' ino c) {k : ℕ}
    (hk : k < c) : st'.logicalPtr ino k = st.logicalPtr ino k := by
  have hle := h.le
  rw [← slotPtr_dataSlot st ino (by omega), ← slotPtr_dataSlot st' ino (by omega)]
  exact slotPtr_congr hsame ((needed_dataSlot (by omega)).mpr hk)

theorem logicalPtr_disjoint (h : st.OwnMap ino c) {k l : ℕ} (hk : k < c) (hl : l < c)
    (hne : k ≠ l) : st.logicalPtr ino k + 256 ≤ st.logicalPtr ino l ∨
      st.logicalPtr ino l + 256 ≤ st.logicalPtr ino k := by
  have hle := h.le
  have hslots : dataSlot k ≠ dataSlot l := fun heq ↦
    hne (dataSlot_inj (by omega) (by omega) heq)
  have hdisjoint := h.disjoint ((needed_dataSlot (by omega)).mpr hk)
    ((needed_dataSlot (by omega)).mpr hl) hslots
  rwa [slotPtr_dataSlot st ino (by omega), slotPtr_dataSlot st ino (by omega)] at hdisjoint

end Store.OwnMap

end OperatingSystem.Filesys
