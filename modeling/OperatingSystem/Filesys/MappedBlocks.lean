import OperatingSystem.Filesys.Writing

/-!
# Mapped blocks

Logical blocks whose pointers lead into the data area on all three levels, and
what the two address translations make of them. The bytes of a file are a
memory of their own, addressed by the position in the file.
-/

namespace OperatingSystem.Filesys

open ByteMemory

variable {area : Area}

/-- Logical block `k` has a pointer into the data area, and so have the index
blocks on the way to it. -/
structure Store.Mapped (st : Store area) (ino : MyInode) (k : ℕ) : Prop where
  lt : k < 4168
  block : area.Holds (st.logicalPtr ino k) 256
  single : 8 ≤ k → k < 72 → area.Holds (ino.location 8) 256
  double : 72 ≤ k → area.Holds (ino.location 9) 256
  second : 72 ≤ k → area.Holds (st.entry (ino.location 9) ((k - 72) / 64)) 256

def Store.byteAddr (st : Store area) (ino : MyInode) (p : ℕ) : ℕ :=
  st.logicalPtr ino (p / 256) + p % 256

/-- The bytes of a file by their positions. -/
def Store.fileMem (st : Store area) (ino : MyInode) (p : ℕ) : UInt8 :=
  st.space (st.byteAddr ino p)

/-- The contents of a file: its blocks one after the other, up to its size. -/
def Store.contents (st : Store area) (ino : MyInode) : List UInt8 :=
  ((List.range (blockCount ino.size)).flatMap fun k ↦
    readBytes st.space (st.logicalPtr ino k) 256).take ino.size

theorem Area.Holds.ne_zero {addr n : ℕ} (h : area.Holds addr n) : addr ≠ 0 := by
  have hpos := area.spacePtr_pos
  have hlow := h.1
  omega

theorem addOffset_of_holds {ptr off : ℕ} (h : area.Holds ptr 256) (hoff : off < 256) :
    addOffset ptr off = ptr + off := by
  have hfits := area.spacePtr_fits
  have hhigh := h.2
  rw [addOffset, ← Nat.cast_add]
  apply toUInt32_of_lt
  omega

theorem tdiv_natCast_block (p : ℕ) : (p : ℤ).tdiv blockSize = ((p / 256 : ℕ) : ℤ) :=
  (Int.ofNat_tdiv p 256).symm

theorem tmod_natCast_block (p : ℕ) : (p : ℤ).tmod blockSize = ((p % 256 : ℕ) : ℤ) :=
  (Int.ofNat_tmod p 256).symm

theorem loadWord_entry {st : Store area} {index k : ℕ} (h : area.Holds index 256) (hk : k < 64) :
    st.loadWord (index + 4 * k) 4 = some (st.entry index k) := by
  rw [Store.loadWord_eq (h.mono (by omega)), Store.entry, if_neg h.ne_zero]

namespace Store.Mapped

variable {st : Store area} {ino : MyInode}

theorem switchAddress {k off : ℕ} (h : st.Mapped ino k) (hoff : off < 256) :
    switchAddress st ino k off = some (st.logicalPtr ino k + off) := by
  have hlt := h.lt
  have hadd := addOffset_of_holds h.block hoff
  rw [Filesys.switchAddress, ← hadd]
  by_cases hdirect : k < 8
  · have hslot : ino.slot k = some (ino.location k) := by
      rw [MyInode.slot, if_pos (by omega), Int.toNat_natCast]
    rw [if_pos (by omega), hslot, Option.map_some, Store.logicalPtr, if_pos hdirect]
  · by_cases hsingle : k < 72
    · have hholds := h.single (by omega) hsingle
      have hindex : ((k : ℤ) - 8).toNat = k - 8 := by omega
      rw [if_neg (by omega), if_pos (by omega), if_neg hholds.ne_zero, hindex,
        loadWord_entry hholds (by omega), Option.map_some, Store.logicalPtr, if_neg hdirect,
        if_pos hsingle]
    · have hdouble := h.double (by omega)
      have hsecond := h.second (by omega)
      have hindex : ((k : ℤ) - 72).toNat = k - 72 := by omega
      rw [if_neg (by omega), if_neg (by omega), if_neg hdouble.ne_zero, hindex,
        loadWord_entry hdouble (by omega), Option.bind_some, loadWord_entry hsecond (by omega),
        Option.map_some, Store.logicalPtr, if_neg hdirect, if_neg hsingle]

theorem getBlockpointer {p : ℕ} (h : st.Mapped ino (p / 256)) :
    getBlockpointer st p ino = some (st.byteAddr ino p) := by
  have hswitch := h.switchAddress (show p % 256 < 256 by omega)
  rw [Filesys.getBlockpointer, if_neg (by omega), tdiv_natCast_block, tmod_natCast_block,
    Store.byteAddr, ← hswitch,
    Filesys.switchAddress]
  by_cases hdirect : p / 256 < 8
  · have hne := h.block.ne_zero
    rw [Store.logicalPtr, if_pos hdirect] at hne
    have hslot : ino.slot ((p / 256 : ℕ) : ℤ) = some (ino.location (p / 256)) := by
      rw [MyInode.slot, if_pos (by omega), Int.toNat_natCast]
    rw [if_pos (by omega), if_pos (by omega), hslot, Option.map_some, Option.map_some, if_neg hne]
  · have hindirect : ¬ ((p / 256 : ℕ) : ℤ) < 8 := by omega
    simp only [if_neg hindirect]

end Store.Mapped

/-! ## File bytes -/

section FileBytes

variable {st : Store area} {ino : MyInode}

theorem readBytes_fileMem {p n : ℕ} (h : p % 256 + n ≤ 256) :
    readBytes (st.fileMem ino) p n = readBytes st.space (st.byteAddr ino p) n := by
  apply List.map_congr_left
  intro k hk
  have hk := List.mem_range.mp hk
  have hdiv : (p + k) / 256 = p / 256 := by omega
  have hmod : (p + k) % 256 = p % 256 + k := by omega
  rw [Store.fileMem, Store.byteAddr, Store.byteAddr, hdiv, hmod, Nat.add_assoc]

theorem flatMap_blocks (st : Store area) (ino : MyInode) (c : ℕ) :
    ((List.range c).flatMap fun k ↦ readBytes st.space (st.logicalPtr ino k) 256) =
      readBytes (st.fileMem ino) 0 (256 * c) := by
  induction c with
  | zero => rfl
  | succ c ih =>
      have hblock : readBytes (st.fileMem ino) (0 + 256 * c) 256 =
          readBytes st.space (st.logicalPtr ino c) 256 := by
        rw [readBytes_fileMem (by omega), Store.byteAddr]
        congr 1
        have hdiv : (0 + 256 * c) / 256 = c := by omega
        rw [hdiv]
        omega
      rw [List.range_succ, List.flatMap_append, ih, List.flatMap_singleton, Nat.mul_succ,
        readBytes_add, hblock]

theorem contents_eq (st : Store area) (ino : MyInode) :
    st.contents ino = readBytes (st.fileMem ino) 0 ino.size := by
  rw [Store.contents, flatMap_blocks, take_readBytes]
  simp only [blockCount]
  omega

theorem length_contents (st : Store area) (ino : MyInode) :
    (st.contents ino).length = ino.size := by
  rw [contents_eq, length_readBytes]

theorem contents_slice {q n : ℕ} (h : q + n ≤ ino.size) :
    ((st.contents ino).drop q).take n = readBytes (st.fileMem ino) q n := by
  rw [contents_eq, drop_readBytes _ _ (by omega), Nat.zero_add, take_readBytes _ _ (by omega)]

end FileBytes

end OperatingSystem.Filesys
