import OperatingSystem.Filesys.MappedBlocks

/-!
# Two address translations

`switchAddress` of the write path and `get_blockpointer` of the read path walk the
same block map. They agree on mapped blocks. On a missing block they add the offset
to `NULL` at different points, and both follow a `NULL` entry of the
double-indirect block.
-/

namespace OperatingSystem.Filesys

open ByteMemory

variable {area : Area}

/-- Every slot and every entry of an index block is `NULL` or points into the data
area. -/
def Store.PartialMap (st : Store area) (ino : MyInode) : Prop :=
  ∀ σ : Slot, st.slotPtr ino σ = 0 ∨ area.Holds (st.slotPtr ino σ) 256

/-- Both translations of position `p` are defined, are `NULL` exactly if the logical
block has no pointer, and otherwise are its address and the offset. -/
def TranslationsAgree (st : Store area) (ino : MyInode) (p : ℕ) : Prop :=
  ∃ addr ptr, switchAddress st ino ((p : ℤ).tdiv blockSize) ((p : ℤ).tmod blockSize) = some addr ∧
    getBlockpointer st p ino = some ptr ∧
    (addr = 0 ↔ st.logicalPtr ino (p / 256) = 0) ∧
    (ptr = 0 ↔ st.logicalPtr ino (p / 256) = 0) ∧
    (st.logicalPtr ino (p / 256) ≠ 0 → addr = st.byteAddr ino p ∧ ptr = st.byteAddr ino p)

/-- The block is mapped, or its index block in the inode is missing, or only the
last pointer is and the position is the start of the block. -/
def TellsMissing (st : Store area) (ino : MyInode) (p : ℕ) : Prop :=
  st.logicalPtr ino (p / 256) ≠ 0 ∨
    (8 ≤ p / 256 ∧ p / 256 < 72 ∧ ino.location 8 = 0) ∨ (72 ≤ p / 256 ∧ ino.location 9 = 0) ∨
    (p % 256 = 0 ∧ (72 ≤ p / 256 → st.entry (ino.location 9) ((p / 256 - 72) / 64) ≠ 0))

instance (st : Store area) (ino : MyInode) (p : ℕ) : Decidable (TellsMissing st ino p) :=
  inferInstanceAs (Decidable (_ ∨ _ ∨ _ ∨ _))

theorem addOffset_null {off : ℕ} (hoff : off < 256) : addOffset 0 off = off := by
  rw [addOffset, Nat.cast_zero, zero_add]
  exact toUInt32_of_lt (by omega)

namespace Store.PartialMap

variable {st : Store area} {ino : MyInode} {p : ℕ}

theorem location (h : st.PartialMap ino) {k : ℕ} (hk : k < 10) :
    ino.location k = 0 ∨ area.Holds (ino.location k) 256 := h (.loc ⟨k, hk⟩)

theorem double (h : st.PartialMap ino) {j : ℕ} (hj : j < 64) :
    st.entry (ino.location 9) j = 0 ∨ area.Holds (st.entry (ino.location 9) j) 256 :=
  h (.double ⟨j, hj⟩)

theorem single (h : st.PartialMap ino) {j : ℕ} (hj : j < 64) :
    st.entry (ino.location 8) j = 0 ∨ area.Holds (st.entry (ino.location 8) j) 256 :=
  h (.single ⟨j, hj⟩)

theorem second (h : st.PartialMap ino) {j k : ℕ} (hj : j < 64) (hk : k < 64) :
    st.entry (st.entry (ino.location 9) j) k = 0 ∨
      area.Holds (st.entry (st.entry (ino.location 9) j) k) 256 :=
  h (.second ⟨j, hj⟩ ⟨k, hk⟩)

theorem mapped (h : st.PartialMap ino) {k : ℕ} (hk : k < 4168)
    (hptr : st.logicalPtr ino k ≠ 0) : st.Mapped ino k := by
  have hsingle : 8 ≤ k → k < 72 → ino.location 8 ≠ 0 := by
    intro h₈ h₇₂ hnull
    rw [Store.logicalPtr, if_neg (by omega), if_pos h₇₂, hnull, entry_zero] at hptr
    exact hptr rfl
  have hsecond : 72 ≤ k → st.entry (ino.location 9) ((k - 72) / 64) ≠ 0 := by
    intro h₇₂ hnull
    rw [Store.logicalPtr, if_neg (by omega), if_neg (by omega), hnull, entry_zero] at hptr
    exact hptr rfl
  have hdouble : 72 ≤ k → ino.location 9 ≠ 0 := by
    intro h₇₂ hnull
    have hne := hsecond h₇₂
    rw [hnull, entry_zero] at hne
    exact hne rfl
  refine ⟨hk, ?_, fun h₈ h₇₂ ↦ (h.location (show 8 < 10 by omega)).resolve_left (hsingle h₈ h₇₂),
    fun h₇₂ ↦ (h.location (show 9 < 10 by omega)).resolve_left (hdouble h₇₂),
    fun h₇₂ ↦ (h.double (by omega)).resolve_left (hsecond h₇₂)⟩
  by_cases hdirect : k < 8
  · rw [Store.logicalPtr, if_pos hdirect] at hptr ⊢
    exact (h.location (show k < 10 by omega)).resolve_left hptr
  · by_cases h₇₂ : k < 72
    · rw [Store.logicalPtr, if_neg hdirect, if_pos h₇₂] at hptr ⊢
      exact (h.single (by omega)).resolve_left hptr
    · rw [Store.logicalPtr, if_neg hdirect, if_neg h₇₂] at hptr ⊢
      exact (h.second (by omega) (by omega)).resolve_left hptr

end Store.PartialMap

section Missing

variable {st : Store area} {ino : MyInode} {p : ℕ}

theorem TranslationsAgree.of_eq {addr ptr : ℕ} (hnull : st.logicalPtr ino (p / 256) = 0)
    (hswitch : switchAddress st ino ((p : ℤ).tdiv blockSize) ((p : ℤ).tmod blockSize) = some addr)
    (hpointer : getBlockpointer st p ino = some ptr) :
    TranslationsAgree st ino p ↔ addr = 0 ∧ ptr = 0 := by
  constructor
  · rintro ⟨addr', ptr', hswitch', hpointer', haddr, hptr, -⟩
    obtain rfl := Option.some.inj (hswitch.symm.trans hswitch')
    obtain rfl := Option.some.inj (hpointer.symm.trans hpointer')
    exact ⟨haddr.mpr hnull, hptr.mpr hnull⟩
  · rintro ⟨rfl, rfl⟩
    exact ⟨0, 0, hswitch, hpointer, iff_of_true rfl hnull, iff_of_true rfl hnull,
      fun hne ↦ (hne hnull).elim⟩

theorem entry_missing {index k off : ℕ} (hindex : area.Holds index 256) (hk : k < 64)
    (hnull : st.entry index k = 0) (hoff : off < 256) :
    (st.loadWord (index + 4 * k) 4).map (fun ptr ↦ addOffset ptr off) = some off := by
  rw [loadWord_entry hindex hk, hnull, Option.map_some, addOffset_null hoff]

theorem getBlockpointer_indirect (h : 8 ≤ p / 256) : getBlockpointer st p ino =
    switchAddress st ino ((p : ℤ).tdiv blockSize) ((p : ℤ).tmod blockSize) := by
  have hindirect : ¬ (p : ℤ).tdiv blockSize < 8 := by
    rw [tdiv_natCast_block]
    omega
  rw [getBlockpointer, if_neg (by omega), switchAddress]
  simp only [if_neg hindirect]

theorem agree_iff_direct (h : p / 256 < 8) (hnull : ino.location (p / 256) = 0) :
    TranslationsAgree st ino p ↔ p % 256 = 0 := by
  have hlogical : st.logicalPtr ino (p / 256) = 0 := by
    rw [Store.logicalPtr, if_pos h, hnull]
  have hslot : ino.slot ((p / 256 : ℕ) : ℤ) = some 0 := by
    rw [MyInode.slot, if_pos (by omega), Int.toNat_natCast, hnull]
  have hswitch : switchAddress st ino ((p : ℤ).tdiv blockSize) ((p : ℤ).tmod blockSize) =
      some (p % 256) := by
    rw [tdiv_natCast_block, tmod_natCast_block, switchAddress, if_pos (by omega), hslot,
      Option.map_some, addOffset_null (by omega)]
  have hpointer : getBlockpointer st p ino = some 0 := by
    rw [getBlockpointer, if_neg (by omega), tdiv_natCast_block, if_pos (by omega), hslot]
    rfl
  rw [TranslationsAgree.of_eq hlogical hswitch hpointer]
  exact and_iff_left rfl

theorem agree_iff_indirect {addr : ℕ} (h : 8 ≤ p / 256)
    (hlogical : st.logicalPtr ino (p / 256) = 0)
    (hswitch : switchAddress st ino ((p : ℤ).tdiv blockSize) ((p : ℤ).tmod blockSize) =
      some addr) : TranslationsAgree st ino p ↔ addr = 0 := by
  rw [TranslationsAgree.of_eq hlogical hswitch ((getBlockpointer_indirect h).trans hswitch)]
  exact and_self_iff

theorem switchAddress_single (h : 8 ≤ p / 256) (h₇₂ : p / 256 < 72) :
    switchAddress st ino ((p : ℤ).tdiv blockSize) ((p : ℤ).tmod blockSize) =
      if ino.location 8 = 0 then some 0
      else (st.loadWord (ino.location 8 + 4 * (p / 256 - 8)) 4).map fun ptr ↦
        addOffset ptr (p % 256 : ℕ) := by
  have hindex : (((p / 256 : ℕ) : ℤ) - 8).toNat = p / 256 - 8 := by omega
  rw [tdiv_natCast_block, tmod_natCast_block, switchAddress, if_neg (by omega), if_pos (by omega),
    hindex]

theorem switchAddress_double (h₇₂ : 72 ≤ p / 256) :
    switchAddress st ino ((p : ℤ).tdiv blockSize) ((p : ℤ).tmod blockSize) =
      if ino.location 9 = 0 then some 0
      else (st.loadWord (ino.location 9 + 4 * ((p / 256 - 72) / 64)) 4).bind fun single ↦
        (st.loadWord (single + 4 * ((p / 256 - 72) % 64)) 4).map fun ptr ↦
          addOffset ptr (p % 256 : ℕ) := by
  have hindex : (((p / 256 : ℕ) : ℤ) - 72).toNat = p / 256 - 72 := by omega
  rw [tdiv_natCast_block, tmod_natCast_block, switchAddress, if_neg (by omega), if_neg (by omega),
    hindex]

theorem agree_iff_single (hmap : st.PartialMap ino) (h : 8 ≤ p / 256) (h₇₂ : p / 256 < 72)
    (hnull : st.entry (ino.location 8) (p / 256 - 8) = 0) :
    TranslationsAgree st ino p ↔ ino.location 8 = 0 ∨ p % 256 = 0 := by
  have hlogical : st.logicalPtr ino (p / 256) = 0 := by
    rw [Store.logicalPtr, if_neg (by omega), if_pos h₇₂, hnull]
  have hswitch := @switchAddress_single _ st ino p h h₇₂
  by_cases hindex : ino.location 8 = 0
  · rw [if_pos hindex] at hswitch
    rw [agree_iff_indirect h hlogical hswitch]
    exact iff_of_true rfl (.inl hindex)
  · have hholds := (hmap.location (show 8 < 10 by omega)).resolve_left hindex
    rw [if_neg hindex, entry_missing hholds (by omega) hnull (by omega)] at hswitch
    rw [agree_iff_indirect h hlogical hswitch]
    exact (or_iff_right hindex).symm

theorem agree_iff_double (hmap : st.PartialMap ino) (h₇₂ : 72 ≤ p / 256) (hp : p / 256 < 4168)
    (hnull : st.logicalPtr ino (p / 256) = 0) :
    TranslationsAgree st ino p ↔ ino.location 9 = 0 ∨
      (p % 256 = 0 ∧ st.entry (ino.location 9) ((p / 256 - 72) / 64) ≠ 0) := by
  have hswitch := @switchAddress_double _ st ino p h₇₂
  by_cases hindex : ino.location 9 = 0
  · rw [if_pos hindex] at hswitch
    rw [agree_iff_indirect (by omega) hnull hswitch]
    exact iff_of_true rfl (.inl hindex)
  · have hholds := (hmap.location (show 9 < 10 by omega)).resolve_left hindex
    rw [if_neg hindex, loadWord_entry hholds (by omega), Option.bind_some] at hswitch
    rw [or_iff_right hindex]
    by_cases hsecond : st.entry (ino.location 9) ((p / 256 - 72) / 64) = 0
    · -- the entry is followed although it is `NULL`
      have hundefined : switchAddress st ino ((p : ℤ).tdiv blockSize) ((p : ℤ).tmod blockSize) =
          none := by
        have hnone : st.loadWord (0 + 4 * ((p / 256 - 72) % 64)) 4 = none := by
          refine if_neg fun hlow ↦ ?_
          have hspace := area.spacePtr_eq
          have hlow := hlow.1
          omega
        rw [hswitch, hsecond, hnone, Option.map_none]
      refine iff_of_false ?_ fun hboth ↦ hboth.2 hsecond
      rintro ⟨addr, ptr, hdefined, -⟩
      cases hundefined.symm.trans hdefined
    · have hentry : st.entry (st.entry (ino.location 9) ((p / 256 - 72) / 64))
          ((p / 256 - 72) % 64) = 0 := by
        rwa [Store.logicalPtr, if_neg (by omega), if_neg (by omega)] at hnull
      have hholds₂ := (hmap.double (by omega)).resolve_left hsecond
      rw [entry_missing hholds₂ (by omega) hentry (by omega)] at hswitch
      rw [agree_iff_indirect (by omega) hnull hswitch]
      exact (and_iff_left hsecond).symm

end Missing

/-- The two translations agree exactly there. -/
theorem translations_agree_iff {st : Store area} {ino : MyInode} (hmap : st.PartialMap ino)
    {p : ℕ} (hp : p < maxFileSize) : TranslationsAgree st ino p ↔ TellsMissing st ino p := by
  simp only [maxFileSize] at hp
  have hoff : p % 256 < 256 := by omega
  by_cases hnull : st.logicalPtr ino (p / 256) = 0
  · have hmissing : TellsMissing st ino p ↔
        (8 ≤ p / 256 ∧ p / 256 < 72 ∧ ino.location 8 = 0) ∨
        (72 ≤ p / 256 ∧ ino.location 9 = 0) ∨
        (p % 256 = 0 ∧
          (72 ≤ p / 256 → st.entry (ino.location 9) ((p / 256 - 72) / 64) ≠ 0)) :=
      or_iff_right (not_not.mpr hnull)
    rw [hmissing]
    by_cases hdirect : p / 256 < 8
    · have hslot : ino.location (p / 256) = 0 := by
        rwa [Store.logicalPtr, if_pos hdirect] at hnull
      rw [agree_iff_direct hdirect hslot]
      constructor
      · exact fun hstart ↦ .inr (.inr ⟨hstart, fun h₇₂ ↦ by omega⟩)
      · rintro (⟨h₈, -⟩ | ⟨h₇₂, -⟩ | ⟨hstart, -⟩)
        · omega
        · omega
        · exact hstart
    · by_cases h₇₂ : p / 256 < 72
      · have hentry : st.entry (ino.location 8) (p / 256 - 8) = 0 := by
          rwa [Store.logicalPtr, if_neg hdirect, if_pos h₇₂] at hnull
        rw [agree_iff_single hmap (by omega) h₇₂ hentry]
        constructor
        · rintro (hindex | hstart)
          · exact .inl ⟨by omega, h₇₂, hindex⟩
          · exact .inr (.inr ⟨hstart, fun hdouble ↦ by omega⟩)
        · rintro (⟨-, -, hindex⟩ | ⟨hdouble, -⟩ | ⟨hstart, -⟩)
          · exact .inl hindex
          · omega
          · exact .inr hstart
      · rw [agree_iff_double hmap (by omega) (by omega) hnull]
        constructor
        · rintro (hindex | ⟨hstart, hsecond⟩)
          · exact .inr (.inl ⟨by omega, hindex⟩)
          · exact .inr (.inr ⟨hstart, fun _ ↦ hsecond⟩)
        · rintro (⟨-, hsingle, -⟩ | ⟨-, hindex⟩ | ⟨hstart, hsecond⟩)
          · omega
          · exact .inl hindex
          · exact .inr ⟨hstart, hsecond (by omega)⟩
  · have hmapped := hmap.mapped (show p / 256 < 4168 by omega) hnull
    refine iff_of_true ?_ (.inl hnull)
    have hswitch := hmapped.switchAddress hoff
    rw [← tdiv_natCast_block, ← tmod_natCast_block] at hswitch
    have hne : st.byteAddr ino p ≠ 0 := by
      have hpos := hmapped.block.ne_zero
      rw [Store.byteAddr]
      omega
    exact ⟨_, _, hswitch, hmapped.getBlockpointer, iff_of_false hne hnull,
      iff_of_false hne hnull, fun _ ↦ ⟨rfl, rfl⟩⟩

/-- The root directory of the formatted disk, with a double-indirect block that
has no entries yet. -/
def sparseInode : MyInode :=
  { rootInode sampleArea with
    location := Function.update (rootInode sampleArea).location 9 (sampleArea.blockAddr 1) }

theorem sparseInode_partialMap : (initDatastructure sampleArea).PartialMap sparseInode := by
  have hblank : ∀ index k, (initDatastructure sampleArea).entry index k = 0 := by
    intro index k
    rw [Store.entry]
    split <;> rfl
  intro σ
  cases σ with
  | loc k =>
      have hslots : ∀ k : Fin 10, sparseInode.location k = 0 ∨
          sampleArea.Holds (sparseInode.location k) 256 := by decide
      exact hslots k
  | single k => exact .inl (hblank _ _)
  | double j => exact .inl (hblank _ _)
  | second j k => exact .inl (hblank _ _)

theorem translations_agree_iff_sparse :
    TranslationsAgree (initDatastructure sampleArea) sparseInode 300 ↔
      TellsMissing (initDatastructure sampleArea) sparseInode 300 :=
  translations_agree_iff sparseInode_partialMap (by decide)

/-- The write path takes the offset into a missing block for an address, and both
paths follow the `NULL` entry of the double-indirect block. -/
theorem null_block_translated : (initDatastructure sampleArea).PartialMap sparseInode ∧
    sparseInode.location 1 = 0 ∧
    switchAddress (initDatastructure sampleArea) sparseInode 1 44 = some 44 ∧
    getBlockpointer (initDatastructure sampleArea) 300 sparseInode = some 0 ∧
    ¬ TranslationsAgree (initDatastructure sampleArea) sparseInode 300 ∧
    switchAddress (initDatastructure sampleArea) sparseInode 72 0 = none ∧
    getBlockpointer (initDatastructure sampleArea) 18432 sparseInode = none := by
  have hswitch : switchAddress (initDatastructure sampleArea) sparseInode 1 44 = some 44 := by
    decide +kernel
  refine ⟨sparseInode_partialMap, by decide, hswitch, by decide +kernel, ?_, by decide +kernel,
    by decide +kernel⟩
  rintro ⟨addr, ptr, haddr, -, hmissing, -, -⟩
  obtain rfl : addr = 44 := (Option.some.inj (hswitch.symm.trans haddr)).symm
  exact absurd (hmissing.mpr (by decide)) (by decide)

end OperatingSystem.Filesys
