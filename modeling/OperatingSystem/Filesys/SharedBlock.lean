import OperatingSystem.Filesys.DirectoryRecords
import OperatingSystem.Filesys.DiskModule
import OperatingSystem.Filesys.MappedBlocks

/-!
# One block for all files

After the first block was taken the allocator answers with block 0. So in every run all
direct blocks but one are the block of the root directory's entries. On the bytes of the disk
this is so while the calls keep to the records that lie inside the inode area: the bytes of the
others are those of the bitmap and of the first blocks.
-/

namespace OperatingSystem.Filesys

open Lockstep

variable {area : Area}

/-- At most one slot of the records has a block of its own. -/
theorem TwoBlocks.exists_own {st : Store area} (h : TwoBlocks st) : ∃ own : ℕ × ℕ,
    ∀ i, ∀ k < 8, (i, k) ≠ own → (st.inode i).location k ≠ 0 →
      (st.inode i).location k = area.blockAddr 0 := by
  by_cases hown : ∃ i, ∃ k < 8, (st.inode i).location k = area.blockAddr 1
  · obtain ⟨i₀, k₀, hk₀, hone⟩ := hown
    refine ⟨(i₀, k₀), fun i k hk hne hmapped ↦ ?_⟩
    rcases h.slot i k hk with hnull | hroot | hone'
    · exact absurd hnull hmapped
    · exact hroot
    · obtain ⟨rfl, rfl⟩ := h.unique i i₀ k hk k₀ hk₀ hone' hone
      exact absurd rfl hne
  · refine ⟨(0, 0), fun i k hk _ hmapped ↦ ?_⟩
    rcases h.slot i k hk with hnull | hroot | hone
    · exact absurd hnull hmapped
    · exact hroot
    · exact absurd ⟨i, k, hk, hone⟩ hown

theorem run_of_trace {events : List Event} {s t : State area} {replies : List Reply}
    (h : trace ramdiskIoctl s events = some (replies, t)) :
    PartialRun.run step s events = some t := by
  induction events generalizing s replies with
  | nil => exact congrArg (Option.map Prod.snd) h
  | cons e events ih =>
      obtain ⟨r, hr, hrest⟩ := Option.bind_eq_some_iff.mp h
      obtain ⟨⟨rest, u⟩, htrace, heq⟩ := Option.map_eq_some_iff.mp hrest
      obtain rfl : u = t := congrArg Prod.snd heq
      have hstep : step s e = some r.2 := Option.map_eq_some_iff.mpr ⟨r, hr, rfl⟩
      rw [PartialRun.run_cons, hstep, Option.bind_some]
      exact ih htrace

/-- In a run every direct block but one is read from the block of the root directory. -/
theorem Store.getBlockpointer_shared {events : List Event} {s : State area}
    (hrun : PartialRun.run step (initState area) events = some s) : ∃ own : ℕ × ℕ,
    ∀ i, ∀ k < 8, (i, k) ≠ own → (s.store.inode i).location k ≠ 0 → ∀ o < 256,
      getBlockpointer s.store (256 * k + o : ℕ) (s.store.inode i) =
        some (area.blockAddr 0 + o) := by
  obtain ⟨own, hshared⟩ := (soundDisk_of_run hrun).blocks.exists_own
  refine ⟨own, fun i k hk hne hmapped o ho ↦ ?_⟩
  have hdiv : (256 * k + o) / 256 = k := by omega
  have hptr : s.store.logicalPtr (s.store.inode i) ((256 * k + o) / 256) = area.blockAddr 0 := by
    rw [hdiv, Store.logicalPtr, if_pos hk]
    exact hshared i k hk hne hmapped
  have hblock : s.store.Mapped (s.store.inode i) ((256 * k + o) / 256) :=
    ⟨by omega, hptr ▸ holds_block (by decide), by omega, by omega, by omega⟩
  rw [hblock.getBlockpointer, Store.byteAddr, hptr, Nat.mul_add_mod, Nat.mod_eq_of_lt ho]

/-- In every run on the bytes of the disk whose calls touch whole records of the inode area
only, whatever blocks the files have, all the direct blocks of these records but one are read
from the block of the root directory. -/
theorem files_share_root_block {events : List Event} {replies : List Reply} {b : DiskState}
    (hwhole : PartialRun.Tried step InInodeArea (initState area) events)
    (hrun : trace (DiskState.ioctl area) ⟨Disk.format area, []⟩ events = some (replies, b)) :
    ∃ own : ℕ × ℕ, ∀ i < wholeInodeRecords, ∀ k < 8, (i, k) ≠ own →
      (b.disk.inode i).location k ≠ 0 → ∀ o < 256,
        getBlockpointer (b.disk.store area) (256 * k + o : ℕ) (b.disk.inode i) =
          some (area.blockAddr 0 + o) := by
  have hagrees : Agrees DiskState.Shows
      (trace (DiskState.ioctl area) ⟨Disk.format area, []⟩ events)
      (trace ramdiskIoctl (initState area) events) :=
    trace_agrees_of_tried (fun _ _ _ hR hC ↦ hR.ioctl hC) ⟨image_format area, rfl⟩ hwhole
  rw [hrun] at hagrees
  generalize hrecords : trace ramdiskIoctl (initState area) events = y at hagrees
  obtain ⟨⟨_, s⟩, hrecords, hshows⟩ : ∃ y, trace ramdiskIoctl (initState area) events = some y ∧
      b.Shows y.2 := by
    cases hagrees with
    | some hxy => exact ⟨_, hrecords, hxy.2⟩
  obtain ⟨own, hshared⟩ := Store.getBlockpointer_shared (run_of_trace hrecords)
  refine ⟨own, fun i hi k hk hne hmapped o ho ↦ ?_⟩
  rw [hshows.image.inode i hi] at hmapped ⊢
  rw [hshows.image.sameArea.getBlockpointer]
  exact hshared i k hk hne hmapped o ho

def twoFiles : List Event :=
  sampleCalls [.creat sampleName 1 fun _ ↦ 0, .creat secondName 1 fun _ ↦ 0,
    .openPath sampleName 1, .openPath secondName 1, .write 1 [120], .write 2 [121]]

/-- The block of the second file is that of the root directory. -/
theorem files_share_root_block_two : ∃ replies b,
    trace (DiskState.ioctl sampleArea) ⟨Disk.format sampleArea, []⟩ twoFiles = some (replies, b) ∧
      (b.disk.inode 1).location 0 = sampleArea.blockAddr 1 ∧
      (b.disk.inode 2).location 0 = sampleArea.blockAddr 0 ∧ ∃ own : ℕ × ℕ,
        ∀ i < wholeInodeRecords, ∀ k < 8, (i, k) ≠ own → (b.disk.inode i).location k ≠ 0 →
          ∀ o < 256, getBlockpointer (b.disk.store sampleArea) (256 * k + o : ℕ) (b.disk.inode i) =
            some (sampleArea.blockAddr 0 + o) := by
  have hwhole : PartialRun.Tried step InInodeArea (initState sampleArea) twoFiles :=
    PartialRun.tried_of_check (fun s e h ↦ of_decide_eq_true h) (by decide +kernel)
  have hslots : (trace (DiskState.ioctl sampleArea) ⟨Disk.format sampleArea, []⟩ twoFiles).map
      (fun r ↦ ((r.2.disk.inode 1).location 0, (r.2.disk.inode 2).location 0)) =
      some (sampleArea.blockAddr 1, sampleArea.blockAddr 0) := by
    decide +kernel
  obtain ⟨⟨replies, b⟩, hrun, hb⟩ := Option.map_eq_some_iff.mp hslots
  exact ⟨replies, b, hrun, congrArg Prod.fst hb, congrArg Prod.snd hb,
    files_share_root_block hwhole hrun⟩

end OperatingSystem.Filesys
