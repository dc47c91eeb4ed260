import OperatingSystem.Lib.PartialRun

/-!
# The text-mode terminal

The cursor of `display.h`, which FIFOS-1 and FIFOS-2 share, and the cells that its
functions store. `terminal_putchar` wraps the row at the last line,
`terminal_writestring` steps to the next line without a test.
-/

namespace OperatingSystem.Fifos

def vgaWidth : ℕ := 80

def vgaHeight : ℕ := 24

/-- The four global variables; `row` and `column` are 32-bit numbers. -/
structure Terminal where
  row : ℕ
  column : ℕ
  color : BitVec 8
  buffer : ℕ → BitVec 16

/-! ## The functions -/

def makeColor (fg bg : BitVec 8) : BitVec 8 := fg ||| bg <<< 4

/-- A `char` is extended with its sign. -/
def makeVgaentry (c color : BitVec 8) : BitVec 16 := c.signExtend 16 ||| color.setWidth 16 <<< 8

/-- The index of the cell in column `x` and row `y`. -/
def cellIndex (x y : ℕ) : ℕ := (y * vgaWidth + x) % 2 ^ 32

def terminalInitialize (memory : ℕ → BitVec 16) : Terminal where
  row := 0
  column := 0
  color := makeColor 7 0
  buffer := (List.range vgaHeight).foldl (fun b y ↦ (List.range vgaWidth).foldl
    (fun b x ↦ Function.update b (cellIndex x y) (makeVgaentry 32 (makeColor 7 0))) b) memory

def terminalSetcolor (color : BitVec 8) (t : Terminal) : Terminal := { t with color := color }

def terminalPutentryat (c color : BitVec 8) (x y : ℕ) (t : Terminal) : Terminal :=
  { t with buffer := Function.update t.buffer (cellIndex x y) (makeVgaentry c color) }

def terminalPutchar (c : BitVec 8) (t : Terminal) : Terminal :=
  let t := terminalPutentryat c t.color t.column t.row t
  let column := (t.column + 1) % 2 ^ 32
  if column = vgaWidth then
    let row := (t.row + 1) % 2 ^ 32
    { t with column := 0, row := if row = vgaHeight then 0 else row }
  else { t with column := column }

def putString (data : List (BitVec 8)) (t : Terminal) : Terminal :=
  data.foldl (fun t c ↦ terminalPutchar c t) t

def terminalWritestring (data : List (BitVec 8)) (t : Terminal) : Terminal :=
  let t := putString data t
  { t with row := (t.row + 1) % 2 ^ 32, column := 0 }

/-- `terminal_row -= 1` and a new column. -/
def Terminal.moveUp (column : ℕ) (t : Terminal) : Terminal :=
  { t with row := (t.row + (2 ^ 32 - 1)) % 2 ^ 32, column := column }

/-- The string in `p[3]` after `itoa`, which stores one character and no terminator:
`fresh` stands for what lies behind it up to the next NUL. -/
def itoa (d : BitVec 32) (fresh : List (BitVec 8)) : List (BitVec 8) :=
  if (d + 48).setWidth 8 = 0#8 then [] else (d + 48).setWidth 8 :: fresh

def terminalFunctionId (id : BitVec 32) (fresh : List (BitVec 8)) (t : Terminal) : Terminal :=
  let t := (terminalWritestring [60] t).moveUp 1
  let t := (terminalWritestring (itoa id fresh) t).moveUp 2
  (terminalWritestring [62] t).moveUp 3

/-! ## Runs -/

/-- A call; strings are the characters before their NUL. -/
inductive TerminalCall where
  | setcolor (color : BitVec 8)
  | putchar (c : BitVec 8)
  | writestring (data : List (BitVec 8))
  | functionId (id : BitVec 32) (fresh : List (BitVec 8))

def TerminalCall.exec (t : Terminal) : TerminalCall → Terminal
  | .setcolor color => terminalSetcolor color t
  | .putchar c => terminalPutchar c t
  | .writestring data => terminalWritestring data t
  | .functionId id fresh => terminalFunctionId id fresh t

def terminalStep (t : Terminal) (call : TerminalCall) : Option Terminal := some (call.exec t)

/-- The cells that a string is stored in. -/
def stringCells : List (BitVec 8) → Terminal → List ℕ
  | [], _ => []
  | c :: data, t => cellIndex t.column t.row :: stringCells data (terminalPutchar c t)

/-- The cells that a call stores a character in. -/
def TerminalCall.cells (t : Terminal) : TerminalCall → List ℕ
  | .setcolor _ => []
  | .putchar c => stringCells [c] t
  | .writestring data => stringCells data t
  | .functionId id fresh =>
      let first := (terminalWritestring [60] t).moveUp 1
      let second := (terminalWritestring (itoa id fresh) first).moveUp 2
      stringCells [60] t ++ stringCells (itoa id fresh) first ++ stringCells [62] second

def Terminal.OnScreen (t : Terminal) : Prop := t.row < vgaHeight ∧ t.column < vgaWidth

def Terminal.position (t : Terminal) : ℕ := t.row * 80 + t.column

/-- A call leaves the cursor on the screen and has stored every character inside the
buffer. -/
def StaysOnScreen (t : Terminal) (call : TerminalCall) (t' : Terminal) : Prop :=
  t'.OnScreen ∧ ∀ i ∈ call.cells t, i < vgaWidth * vgaHeight

/-- A string does not end on the last line. -/
def LeavesLastLine (t : Terminal) : TerminalCall → Prop
  | .writestring data => (t.position + data.length) / 80 % 24 ≠ 23
  | _ => True

/-! ## The cursor -/

section Cursor

variable {t : Terminal}

theorem cellIndex_lt (h : t.OnScreen) : cellIndex t.column t.row < vgaWidth * vgaHeight := by
  obtain ⟨hrow, hcolumn⟩ := h
  simp only [vgaWidth, vgaHeight] at hrow hcolumn
  have hsmall : t.row * 80 + t.column < 1920 := by omega
  rw [cellIndex, Nat.mod_eq_of_lt (by simp only [vgaWidth]; omega)]
  exact hsmall

theorem putchar_onScreen (h : t.OnScreen) (c : BitVec 8) : (terminalPutchar c t).OnScreen ∧
    (terminalPutchar c t).position = (t.position + 1) % 1920 := by
  obtain ⟨hrow, hcolumn⟩ := h
  simp only [vgaWidth, vgaHeight] at hrow hcolumn
  have hwords : (t.column + 1) % 2 ^ 32 = t.column + 1 ∧ (t.row + 1) % 2 ^ 32 = t.row + 1 := by
    omega
  simp only [terminalPutchar, terminalPutentryat, Terminal.OnScreen, Terminal.position, vgaWidth,
    vgaHeight, hwords.1, hwords.2]
  by_cases hend : t.column + 1 = 80
  · by_cases hlast : t.row + 1 = 24
    · simp only [hend, hlast, if_true]
      omega
    · simp only [hend, hlast, if_true, if_false]
      omega
  · simp only [hend, if_false]
    omega

theorem putString_onScreen (h : t.OnScreen) (data : List (BitVec 8)) :
    (putString data t).OnScreen ∧
      (putString data t).position = (t.position + data.length) % 1920 ∧
      ∀ i ∈ stringCells data t, i < vgaWidth * vgaHeight := by
  induction data generalizing t with
  | nil =>
      obtain ⟨hrow, hcolumn⟩ := h
      refine ⟨⟨hrow, hcolumn⟩, ?_, fun i hi ↦ (List.not_mem_nil hi).elim⟩
      simp only [vgaWidth, vgaHeight] at hrow hcolumn
      simp only [putString, List.foldl_nil, Terminal.position, List.length_nil]
      omega
  | cons c data ih =>
      obtain ⟨hnext, hposition⟩ := putchar_onScreen h c
      obtain ⟨hend, hplace, hcells⟩ := ih hnext
      refine ⟨hend, ?_, List.forall_mem_cons.mpr ⟨cellIndex_lt h, hcells⟩⟩
      rw [putString, List.foldl_cons]
      rw [putString] at hplace
      rw [hplace, hposition, List.length_cons]
      omega

/-- After a string the row is one more than that of its end. -/
theorem writestring_row (h : t.OnScreen) (data : List (BitVec 8)) :
    (terminalWritestring data t).row = (t.position + data.length) / 80 % 24 + 1 ∧
      (terminalWritestring data t).column = 0 := by
  obtain ⟨⟨hrow, hcolumn⟩, hposition, -⟩ := putString_onScreen h data
  simp only [vgaWidth, vgaHeight, Terminal.position] at hrow hcolumn hposition
  refine ⟨?_, rfl⟩
  simp only [terminalWritestring, Terminal.position]
  omega

theorem writestring_onScreen_iff (h : t.OnScreen) (data : List (BitVec 8)) :
    (terminalWritestring data t).OnScreen ↔ (t.position + data.length) / 80 % 24 ≠ 23 := by
  obtain ⟨hrow, hcolumn⟩ := writestring_row h data
  rw [Terminal.OnScreen, hrow, hcolumn]
  simp only [vgaWidth, vgaHeight]
  omega

/-- The row is taken back before the next character. -/
theorem writestring_moveUp (h : t.OnScreen) (data : List (BitVec 8)) {column : ℕ}
    (hcolumn : column < vgaWidth) : ((terminalWritestring data t).moveUp column).OnScreen := by
  obtain ⟨hrow, -⟩ := writestring_row h data
  refine ⟨?_, hcolumn⟩
  simp only [Terminal.moveUp, hrow, vgaHeight]
  omega

theorem functionId_staysOnScreen (h : t.OnScreen) (id : BitVec 32) (fresh : List (BitVec 8)) :
    StaysOnScreen t (.functionId id fresh) (terminalFunctionId id fresh t) := by
  have hfirst := writestring_moveUp h [60] (show 1 < vgaWidth by decide)
  have hsecond := writestring_moveUp hfirst (itoa id fresh) (show 2 < vgaWidth by decide)
  refine ⟨writestring_moveUp hsecond [62] (by decide), ?_⟩
  rw [TerminalCall.cells]
  simp only [List.forall_mem_append]
  exact ⟨⟨(putString_onScreen h _).2.2, (putString_onScreen hfirst _).2.2⟩,
    (putString_onScreen hsecond _).2.2⟩

/-- From a cursor on the screen only a string that ends on the last line leads away from
it. -/
theorem staysOnScreen_iff (h : t.OnScreen) (call : TerminalCall) :
    StaysOnScreen t call (call.exec t) ↔ LeavesLastLine t call := by
  cases call with
  | setcolor color => exact iff_of_true ⟨h, fun i hi ↦ (List.not_mem_nil hi).elim⟩ trivial
  | putchar c => exact iff_of_true ⟨(putchar_onScreen h c).1, (putString_onScreen h [c]).2.2⟩ trivial
  | writestring data =>
      exact (and_iff_left (putString_onScreen h data).2.2).trans (writestring_onScreen_iff h data)
  | functionId id fresh => exact iff_of_true (functionId_staysOnScreen h id fresh) trivial

end Cursor

/-- In a run from the initial state the cursor stays on the screen exactly as long as no
string ends on the last line. -/
theorem cursor_on_screen_iff (memory : ℕ → BitVec 16) (calls : List TerminalCall) :
    PartialRun.Along terminalStep StaysOnScreen (terminalInitialize memory) calls ↔
      PartialRun.Along terminalStep (fun t call _ ↦ LeavesLastLine t call)
        (terminalInitialize memory) calls := by
  have hinit : (terminalInitialize memory).OnScreen :=
    ⟨show 0 < 24 by omega, show 0 < 80 by omega⟩
  refine PartialRun.along_iff_of_invariant (I := Terminal.OnScreen) ?_ ?_ calls hinit
  · intro t call t' h hleaves hstep
    obtain rfl := Option.some.inj hstep
    exact ((staysOnScreen_iff h call).mpr hleaves).1
  · intro t call t' h hstep
    obtain rfl := Option.some.inj hstep
    exact staysOnScreen_iff h call

theorem run_emptyStrings (n : ℕ) {t : Terminal} (h : t.row + n < 2 ^ 32) :
    ∃ t', PartialRun.run terminalStep t (List.replicate n (.writestring [])) = some t' ∧
      t'.row = t.row + n := by
  induction n generalizing t with
  | zero => exact ⟨t, rfl, rfl⟩
  | succ n ih =>
      have hrow : (terminalWritestring [] t).row = t.row + 1 :=
        Nat.mod_eq_of_lt (show t.row + 1 < 2 ^ 32 by omega)
      obtain ⟨t', hrun, hrow'⟩ := @ih (terminalWritestring [] t) (by omega)
      exact ⟨t', hrun, by omega⟩

/-- 24 empty strings lead the cursor to row 24. -/
theorem cursor_leaves_screen :
    ¬ PartialRun.Along terminalStep StaysOnScreen (terminalInitialize fun _ ↦ 0)
      (List.replicate 24 (.writestring [])) := by
  intro h
  obtain ⟨t, hrun, hrow⟩ := @run_emptyStrings 23 (terminalInitialize fun _ ↦ 0)
    (show 0 + 23 < 2 ^ 32 by omega)
  have hlist : List.replicate 24 (TerminalCall.writestring []) =
      List.replicate 23 (.writestring []) ++ [.writestring []] := rfl
  rw [hlist] at h
  have hon : (t.row + 1) % 2 ^ 32 < 24 := (h.of_append hrun rfl).1.1
  have hinit : (terminalInitialize fun _ ↦ 0).row = 0 := rfl
  omega

end OperatingSystem.Fifos
