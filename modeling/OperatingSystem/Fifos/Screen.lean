import OperatingSystem.Lib.TextCells
import OperatingSystem.Fifos.Terminal
import OperatingSystem.Fifos.Transcript

/-!
# What FIFOS-1 shows

The lines that FIFOS-1 gives to `terminal_writestring`, in the cells of the screen: one
below the other, on black in light grey, and blanks behind them.
-/

namespace OperatingSystem.Fifos

open TextCells

def screenSize : ℕ := vgaWidth * vgaHeight

def blankCell : BitVec 16 := makeVgaentry 32 (makeColor 7 0)

/-- The calls of `terminal_writestring` after `terminal_initialize`. -/
def putLines (memory : ℕ → BitVec 16) (lines : List (List (BitVec 8))) : Terminal :=
  lines.foldl (fun t line ↦ terminalWritestring line t) (terminalInitialize memory)

def lineCells (line : List (BitVec 8)) : List (BitVec 16) :=
  padLine vgaWidth blankCell (line.map fun c ↦ makeVgaentry c (makeColor 7 0))

/-- The cursor stands below the text, and nothing is stored behind the screen. -/
structure Terminal.Displays (memory : ℕ → BitVec 16) (text : List (BitVec 16)) (t : Terminal) :
    Prop where
  row : t.row * vgaWidth = text.length
  column : t.column = 0
  color : t.color = makeColor 7 0
  shows : Shows screenSize blankCell text t.buffer
  outside : ∀ i ≥ screenSize, t.buffer i = memory i

/-! ## One line -/

section Line

variable {t : Terminal} {memory : ℕ → BitVec 16} {text : List (BitVec 16)}

theorem cellIndex_eq_position (h : t.OnScreen) : cellIndex t.column t.row = t.position := by
  obtain ⟨hrow, hcolumn⟩ := h
  simp only [vgaWidth, vgaHeight] at hrow hcolumn
  exact Nat.mod_eq_of_lt (by simp only [vgaWidth]; omega)

theorem putchar_cell (c : BitVec 8) : (terminalPutchar c t).buffer =
      Function.update t.buffer (cellIndex t.column t.row) (makeVgaentry c t.color) ∧
    (terminalPutchar c t).color = t.color := by
  by_cases hend : (t.column + 1) % 2 ^ 32 = vgaWidth <;>
    simp only [terminalPutchar, terminalPutentryat, hend, if_true, if_false, and_self]

/-- A string that ends before the end of the screen is stored from the cursor on. -/
theorem putString_cells (h : t.OnScreen) {data : List (BitVec 8)}
    (hfits : t.position + data.length < screenSize) :
    (putString data t).buffer = writeCells t.buffer t.position
        (data.map fun c ↦ makeVgaentry c t.color) ∧
      (putString data t).color = t.color := by
  induction data generalizing t with
  | nil => exact ⟨writeCells_nil.symm, rfl⟩
  | cons c data ih =>
      rw [List.length_cons] at hfits
      obtain ⟨hnext, hposition⟩ := putchar_onScreen h c
      obtain ⟨hbuffer, hcolor⟩ := @putchar_cell t c
      have hlast : t.position + 1 < 1920 := by
        simp only [screenSize, vgaWidth, vgaHeight] at hfits
        omega
      have hadvance : (terminalPutchar c t).position = t.position + 1 := by
        rw [hposition, Nat.mod_eq_of_lt hlast]
      obtain ⟨hcells, hkeep⟩ := ih hnext (by rw [hadvance]; omega)
      refine ⟨?_, hkeep.trans hcolor⟩
      rw [hbuffer, hcolor, hadvance, cellIndex_eq_position h, ← writeCells_cons] at hcells
      exact hcells

theorem length_lineCells (line : List (BitVec 8)) :
    (lineCells line).length = rowCount vgaWidth line * vgaWidth := by
  rw [lineCells, length_padLine (show 0 < vgaWidth by decide), rowCount, List.length_map, rowCount]

theorem Terminal.Displays.position (h : t.Displays memory text) : t.position = text.length := by
  rw [Terminal.position, h.column, ← h.row, Nat.add_zero, vgaWidth]

theorem Terminal.Displays.writestring (h : t.Displays memory text) {line : List (BitVec 8)}
    (hfits : text.length + (lineCells line).length ≤ screenSize) :
    (terminalWritestring line t).Displays memory (text ++ lineCells line) := by
  have hposition := h.position
  have hrow := h.row
  rw [length_lineCells, rowCount] at hfits
  simp only [screenSize, vgaWidth, vgaHeight] at hfits hrow
  have hon : t.OnScreen := by
    refine ⟨?_, h.column ▸ Nat.succ_pos _⟩
    rw [vgaHeight]
    omega
  have hend : t.position + line.length < screenSize := by
    simp only [screenSize, vgaWidth, vgaHeight]
    omega
  obtain ⟨hbuffer, hcolor⟩ := putString_cells hon hend
  obtain ⟨hnextRow, hnextColumn⟩ := writestring_row hon line
  rw [hposition, h.color] at hbuffer
  refine ⟨?_, hnextColumn, hcolor.trans h.color, ?_, fun i hi ↦ ?_⟩
  · rw [hnextRow, List.length_append, length_lineCells, rowCount, hposition, vgaWidth]
    omega
  · exact hbuffer ▸ h.shows.writeLine
  · have hbehind : text.length + (line.map fun c ↦ makeVgaentry c (makeColor 7 0)).length ≤ i := by
      rw [List.length_map, ← hposition]
      exact hend.le.trans hi
    have hcell : (terminalWritestring line t).buffer i = (putString line t).buffer i := rfl
    rw [hcell, hbuffer, writeCells_of_ge hbehind]
    exact h.outside i hi

end Line

/-! ## All lines -/

theorem displays_blank (memory : ℕ → BitVec 16) :
    (terminalInitialize memory).Displays memory [] := by
  have hcell : ∀ i, (terminalInitialize memory).buffer i =
      if i < screenSize then blankCell else memory i := by
    intro i
    have hloops : (terminalInitialize memory).buffer =
        ((List.range vgaHeight).flatMap fun y ↦ (List.range vgaWidth).map fun x ↦
          cellIndex x y).foldl (fun b p ↦ Function.update b p blankCell) memory := by
      rw [List.foldl_flatMap]
      simp only [List.foldl_map]
      rfl
    rw [hloops, foldl_update]
    refine if_congr ?_ rfl rfl
    simp only [List.mem_flatMap, List.mem_map, List.mem_range, cellIndex, screenSize, vgaWidth,
      vgaHeight]
    refine ⟨?_, fun hi ↦ ⟨i / 80, by omega, i % 80, by omega, by omega⟩⟩
    rintro ⟨y, hy, x, hx, rfl⟩
    exact (Nat.mod_le _ _).trans_lt (by omega)
  exact ⟨rfl, rfl, rfl, fun i hi ↦ (hcell i).trans (if_pos hi),
    fun i hi ↦ (hcell i).trans (if_neg (not_lt.mpr hi))⟩

theorem Terminal.Displays.writestrings {t : Terminal} {memory : ℕ → BitVec 16}
    {text : List (BitVec 16)} {lines : List (List (BitVec 8))} (h : t.Displays memory text)
    (hfits : text.length + (lines.map fun line ↦ (lineCells line).length).sum ≤ screenSize) :
    (lines.foldl (fun t line ↦ terminalWritestring line t) t).Displays memory
      (text ++ lines.flatMap lineCells) := by
  induction lines generalizing t text with
  | nil => exact (List.append_nil text).symm ▸ h
  | cons line lines ih =>
      rw [List.map_cons, List.sum_cons] at hfits
      have hnext := h.writestring (Nat.le_of_add_right_le (by rwa [Nat.add_assoc]))
      rw [List.flatMap_cons, ← List.append_assoc]
      refine ih hnext ?_
      rw [List.length_append, Nat.add_assoc]
      exact hfits

/-- Lines of at most 24 rows together stand on the screen as they were written. -/
theorem lines_displayed (memory : ℕ → BitVec 16) {lines : List (List (BitVec 8))}
    (hrows : (lines.map (rowCount vgaWidth)).sum ≤ vgaHeight) :
    (putLines memory lines).Displays memory (lines.flatMap lineCells) := by
  refine (displays_blank memory).writestrings ?_
  have hcells : (lines.map fun line ↦ (lineCells line).length) =
      lines.map fun line ↦ rowCount vgaWidth line * vgaWidth :=
    List.map_congr_left fun line _ ↦ length_lineCells line
  rw [hcells, List.sum_map_mul_right, List.length_nil, Nat.zero_add, screenSize,
    Nat.mul_comm vgaWidth]
  exact Nat.mul_le_mul_right _ hrows

/-- For every table size, all functions on stacks of their own and all numbers of rounds
FIFOS-1 comes to its end if and only if each created thread finds the data selector in the gap
of its frame: this is the DS with which `switch_to` starts it. Then the kernel welcomes, tells
which threads it created, lets them write in rounds, each once more than its number of rounds,
and then all threads are done. If these lines fit on the screen, it shows them one below the
other and nothing else. -/
theorem fifos1_final_screen (n : ℕ) (hn : n ≤ 1000) (functions : List ThreadFunction)
    (hapart : StacksApart functions) (tcbArray : ℕ → TCB) (mem : ℕ → UInt8)
    (memory : ℕ → BitVec 16) {fuel : ℕ}
    (hfuel : ((functions.take n).map fun f ↦ f.times + 1).sum ≤ fuel) :
    (Kernel.run n functions fuel (Kernel.init n functions tcbArray mem) =
        if ∀ f ∈ functions.take n, gapHalf mem f.stack = dataSelector then
          some (transcript n functions)
        else none) ∧
      (∀ (i : ℕ) (f : ThreadFunction) (stack : ThreadStack) (m : I386.Machine),
        functions[i]? = some f → i < n → stack.top = f.stack →
        AtRestore m (Kernel.init n functions tcbArray mem).2.threads i stack →
        (restoreContext m).seg .ds = gapHalf mem f.stack) ∧
      (((transcript n functions).map (rowCount vgaWidth)).sum ≤ vgaHeight →
        (putLines memory (transcript n functions)).Displays memory
          ((transcript n functions).flatMap lineCells)) := by
  refine ⟨?_, fun i f stack m hf hlt htop hrestore ↦ ?_, lines_displayed memory⟩
  · by_cases hds : ∀ f ∈ functions.take n, gapHalf mem f.stack = dataSelector
    · rw [if_pos hds]
      exact run_init hn hapart hds hfuel
    · rw [if_neg hds]
      push Not at hds
      obtain ⟨f, hf, hfault⟩ := hds
      exact run_init_fault hn hapart hf hfault fuel
  · rw [hrestore.seg_ds (htop ▸ stackPointer_init hf hlt)]
    exact frameDs_init hapart hf hlt

/-- `&stack1[1023]`, `&stack2[1023]` and `&stack3[1023]`, one behind the other. -/
def builtStack (i : ℕ) : BitVec 32 := BitVec.ofNat 32 (0x103000 + 0x1000 * i + 0xFFC)

/-- The functions of the source write 21 lines, if the gaps hold the data selector. On the
zeros of the loaded image they write nothing. -/
theorem fifos1_final_screen_built :
    ∃ mem lines, Kernel.run 3 (builtFunctions (BitVec.ofNat 32) builtStack) 15 (Kernel.init 3
        (builtFunctions (BitVec.ofNat 32) builtStack) (fun _ ↦ ⟨0, 0, 0, 0, 0, 0, 0⟩) mem) =
          some lines ∧ lines.length = 21 ∧
      (putLines (fun _ ↦ 0) lines).Displays (fun _ ↦ 0) (lines.flatMap lineCells) ∧
      Kernel.run 3 (builtFunctions (BitVec.ofNat 32) builtStack) 15 (Kernel.init 3
        (builtFunctions (BitVec.ofNat 32) builtStack) (fun _ ↦ ⟨0, 0, 0, 0, 0, 0, 0⟩)
          fun _ ↦ 0) = none := by
  have hapart : StacksApart (builtFunctions (BitVec.ofNat 32) builtStack) :=
    ⟨by decide, by decide⟩
  have hrows : ((transcript 3 (builtFunctions (BitVec.ofNat 32) builtStack)).map
      (rowCount vgaWidth)).sum ≤ vgaHeight := by decide
  have hscreen := fun mem ↦ fifos1_final_screen 3 (by decide) _ hapart
    (fun _ ↦ ⟨0, 0, 0, 0, 0, 0, 0⟩) mem (fun _ ↦ 0) (show _ ≤ 15 by decide)
  have hfilled := hscreen fun x ↦ if x % 2 = 0 then 0x10 else 0
  have hzero := hscreen fun _ ↦ 0
  rw [if_pos (by decide)] at hfilled
  rw [if_neg (by decide)] at hzero
  exact ⟨_, _, hfilled.1, by decide, hfilled.2.2 hrows, hzero.1⟩

end OperatingSystem.Fifos
