import OperatingSystem.Memos.NumberText

/-!
# The memory map of the boot loader

`init` of `memos-2.c` walks the memory map that multiboot hands over, prints a line for
each entry and the size of the memory. It adds and prints the low halves of the 64-bit
bases and lengths.
-/

namespace OperatingSystem.Memos

open ByteMemory

/-! ## The function -/

/-- The 32-bit word at an address. -/
def word (mem : ℕ → UInt8) (a : ℕ) : ℕ := leValue (readBytes mem a 4)

/-- The variables of `init` and what it has printed: the finished lines with their rows,
the row `y` of the cursor and the text before it, whose length is `x`. The addresses of
the entries that the loop visited are kept beside them. -/
structure Report where
  memsz : ℕ
  tmp : ℕ → UInt8
  memstr : ℕ → UInt8
  revstr : ℕ → UInt8
  y : ℕ
  text : List UInt8
  printed : List (ℕ × List UInt8)
  visited : List ℕ

/-- `printStr` of a constant. -/
def Report.printStr (str : List UInt8) (r : Report) : Report := { r with text := r.text ++ str }

/-- `printStr` of a buffer. The 16-bit `strlen` finds no NUL behind the first 65536
characters. -/
def Report.printBuffer (str : ℕ → UInt8) (r : Report) : Option Report :=
  (strlen str 65536 0).map fun n ↦ r.printStr (readBytes str 0 n)

/-- The cursor goes to the start of row `y`. -/
def Report.endLine (y : ℕ) (r : Report) : Report :=
  { r with y := y, text := [], printed := r.printed ++ [(r.y, r.text)] }

/-- `toString` into `tmp`, and its output. -/
def Report.printTmp (data : ℕ) (r : Report) : Option Report := do
  let (tmp, revstr) ← toString 33 r.tmp r.revstr data 16
  { r with tmp := tmp, revstr := revstr }.printBuffer tmp

/-- `toString` into `memstr`, and its output. -/
def Report.printMemstr (data unit : ℕ) (r : Report) : Option Report := do
  let (memstr, revstr) ← toString 33 r.memstr r.revstr data unit
  { r with memstr := memstr, revstr := revstr }.printBuffer memstr

/-- The body of the loop for the entry at `mmap`. The members of `memory_map_t` are
`size`, the halves of base and length, the low ones first, and `type`. -/
def printEntry (mem : ℕ → UInt8) (mmap : ℕ) (r : Report) : Option Report := do
  let baseAddrLow := word mem (mmap + 4)
  let lengthLow := word mem (mmap + 12)
  let type := word mem (mmap + 20)
  let r := { r with visited := r.visited ++ [mmap] }
  let r := if type = 1 then { r with memsz := (r.memsz + lengthLow) % 2 ^ 32 } else r
  let r ← (r.printStr (chars "Address Range[")).printTmp baseAddrLow
  let endAddr := (baseAddrLow + lengthLow) % 2 ^ 32
  let r ← (r.printStr (chars ":")).printMemstr endAddr 16
  let r := r.printStr (chars "] State: ")
  let r := r.printStr (if type = 1 then chars "available" else chars "reserved")
  some (r.endLine ((r.y + 1) % 65536))

/-- The loop, in at most `fuel` rounds. -/
def traverse (mem : ℕ → UInt8) (stop : ℕ) : ℕ → ℕ → Report → Option Report
  | 0, _, _ => none
  | fuel + 1, mmap, r =>
      if mmap < stop then do
        let r ← printEntry mem mmap r
        traverse mem stop fuel ((mmap + word mem mmap + 4) % 2 ^ 32) r
      else some r

/-- The report at the start; `memory` stands for the contents of the static arrays. -/
def startReport (memory : ℕ → UInt8) : Report where
  memsz := 0
  tmp := memory
  memstr := memory
  revstr := memory
  y := 4
  text := []
  printed := []
  visited := []

def init (fuel : ℕ) (mem memory : ℕ → UInt8) (mmapAddr mmapLength : ℕ) : Option Report := do
  let r ← traverse mem ((mmapAddr + mmapLength) % 2 ^ 32) fuel mmapAddr (startReport memory)
  let memsz := ((r.memsz >>> 20) + 1) % 2 ^ 32
  let r := { r with memsz := memsz, y := 2, text := [] }
  let r := r.printStr (chars "MemOS: Welcome MemOS_2 System memory is: ")
  let r ← r.printMemstr memsz 10
  some ((r.printStr (chars "MB")).endLine 2)

/-! ## Maps -/

/-- An entry as the boot loader means it. -/
structure MapEntry where
  size : ℕ
  base : ℕ
  length : ℕ
  type : ℕ
  size_ge : 20 ≤ size

/-- The entry at an address, with its 64-bit values in two halves. -/
structure MapEntry.At (mem : ℕ → UInt8) (a : ℕ) (e : MapEntry) : Prop where
  size : word mem a = e.size
  base : word mem (a + 4) + 2 ^ 32 * word mem (a + 8) = e.base
  length : word mem (a + 12) + 2 ^ 32 * word mem (a + 16) = e.length
  type : word mem (a + 20) = e.type

/-- The entries lie one behind the other from `a` to `stop`. -/
def MapAt (mem : ℕ → UInt8) : ℕ → List MapEntry → ℕ → Prop
  | a, [], stop => a = stop
  | a, e :: entries, stop => e.At mem a ∧ MapAt mem (a + e.size + 4) entries stop

def entryAddresses : ℕ → List MapEntry → List ℕ
  | _, [] => []
  | a, e :: entries => a :: entryAddresses (a + e.size + 4) entries

def rangeLine (base stop : ℕ) (available : Prop) [Decidable available] : List UInt8 :=
  chars "Address Range[" ++ numberText 16 base ++ chars ":" ++ numberText 16 stop ++
    chars "] State: " ++ if available then chars "available" else chars "reserved"

def sizeLine (megabytes : ℕ) : List UInt8 :=
  chars "MemOS: Welcome MemOS_2 System memory is: " ++ numberText 10 megabytes ++ chars "MB"

def availableBytes (entries : List MapEntry) : ℕ :=
  ((entries.filter fun e ↦ e.type = 1).map MapEntry.length).sum

/-- The output that says of every entry what it is: one row after the other from row 4 on,
then the size of the memory in row 2. -/
def truthfulLines (entries : List MapEntry) : List (ℕ × List UInt8) :=
  (entries.mapIdx fun i e ↦
    ((4 + i) % 65536, rangeLine e.base (e.base + e.length) (e.type = 1))) ++
    [(2, sizeLine ((availableBytes entries >>> 20) + 1))]

/-- `init` visits every entry once and in order, and prints the truth. -/
def ReportsTruthfully (fuel : ℕ) (mem memory : ℕ → UInt8) (mmapAddr mmapLength : ℕ)
    (entries : List MapEntry) : Prop :=
  ∃ r, init fuel mem memory mmapAddr mmapLength = some r ∧
    r.visited = entryAddresses mmapAddr entries ∧ r.printed = truthfulLines entries

/-! ## Printing -/

/-- Only the text of the current line grows, and the static arrays may change. -/
structure Report.Adds (str : List UInt8) (r r' : Report) : Prop where
  text : r'.text = r.text ++ str
  memsz : r'.memsz = r.memsz
  y : r'.y = r.y
  printed : r'.printed = r.printed
  visited : r'.visited = r.visited

theorem Report.Adds.printStr (str : List UInt8) (r : Report) : Report.Adds str r (r.printStr str) :=
  ⟨rfl, rfl, rfl, rfl, rfl⟩

theorem Report.Adds.trans {str str' : List UInt8} {r r' r'' : Report} (h : Report.Adds str r r')
    (h' : Report.Adds str' r' r'') : Report.Adds (str ++ str') r r'' :=
  ⟨by rw [h'.text, h.text, List.append_assoc], h'.memsz.trans h.memsz, h'.y.trans h.y,
    h'.printed.trans h.printed, h'.visited.trans h.visited⟩

theorem printBuffer_eq {str : ℕ → UInt8} {text : List UInt8} (h : StringAt str 0 text)
    (hlength : text.length < 65536) (r : Report) : r.printBuffer str = some (r.printStr text) := by
  rw [Report.printBuffer, strlen_eq h hlength, Option.map_some, h.readBytes_eq]

section Numbers

variable {data unit : ℕ}

theorem short_numberText (hunit : 2 ≤ unit) (hdata : data < 2 ^ 32) :
    (numberText unit data).length < 65536 := by
  have hlength := length_numberText hunit (show 0 < 32 by omega)
    (hdata.trans_le (Nat.pow_le_pow_left hunit 32))
  omega

theorem printTmp_adds (hdata : data < 2 ^ 32) (r : Report) :
    ∃ r', r.printTmp data = some r' ∧ Report.Adds (numberText 16 data) r r' := by
  obtain ⟨tmp, revstr, hprint, htext, -, -⟩ := @toString_prints 33 data 16 r.tmp r.revstr hdata
    (by omega) (by omega) (by omega)
  refine ⟨({ r with tmp := tmp, revstr := revstr } : Report).printStr (numberText 16 data), ?_,
    rfl, rfl, rfl, rfl, rfl⟩
  rw [Report.printTmp, hprint]
  exact printBuffer_eq htext (short_numberText (by omega) hdata) _

theorem printMemstr_adds (hunit : 2 ≤ unit) (hunit' : unit ≤ 36) (hdata : data < 2 ^ 32)
    (r : Report) : ∃ r', r.printMemstr data unit = some r' ∧
      Report.Adds (numberText unit data) r r' := by
  obtain ⟨memstr, revstr, hprint, htext, -, -⟩ := @toString_prints 33 data unit r.memstr r.revstr
    hdata hunit hunit' (by omega)
  refine ⟨({ r with memstr := memstr, revstr := revstr } : Report).printStr
    (numberText unit data), ?_, rfl, rfl, rfl, rfl, rfl⟩
  rw [Report.printMemstr, hprint]
  exact printBuffer_eq htext (short_numberText hunit hdata) _

end Numbers

theorem word_lt (mem : ℕ → UInt8) (a : ℕ) : word mem a < 2 ^ 32 := by
  have hlt := leValue_lt (readBytes mem a 4)
  rw [length_readBytes] at hlt
  exact hlt

/-! ## The loop -/

section Loop

variable {mem : ℕ → UInt8} {a stop : ℕ}

def MapEntry.printedLine (e : MapEntry) : List UInt8 :=
  rangeLine (e.base % 2 ^ 32) ((e.base + e.length) % 2 ^ 32) (e.type = 1)

theorem printEntry_eq {e : MapEntry} (he : e.At mem a) {r : Report} (htext : r.text = []) :
    ∃ r', printEntry mem a r = some r' ∧
      r'.memsz = (if e.type = 1 then (r.memsz + e.length % 2 ^ 32) % 2 ^ 32 else r.memsz) ∧
      r'.y = (r.y + 1) % 65536 ∧ r'.text = [] ∧
      r'.printed = r.printed ++ [(r.y, e.printedLine)] ∧ r'.visited = r.visited ++ [a] := by
  have hlow : word mem (a + 4) = e.base % 2 ^ 32 := by
    have hlt := word_lt mem (a + 4)
    have hbase := he.base
    omega
  have hlength : word mem (a + 12) = e.length % 2 ^ 32 := by
    have hlt := word_lt mem (a + 12)
    have hlength := he.length
    omega
  have hend : (e.base % 2 ^ 32 + e.length % 2 ^ 32) % 2 ^ 32 = (e.base + e.length) % 2 ^ 32 :=
    (Nat.add_mod _ _ _).symm
  have hbase := Nat.mod_lt e.base (show 0 < 2 ^ 32 by omega)
  have hsum := Nat.mod_lt (e.base + e.length) (show 0 < 2 ^ 32 by omega)
  simp only [printEntry, hlow, hlength, he.type, hend, Option.bind_eq_bind]
  obtain ⟨r₀, hr₀⟩ : ∃ r₀, r₀ = if e.type = 1 then
      ({ r with
        visited := r.visited ++ [a], memsz := (r.memsz + e.length % 2 ^ 32) % 2 ^ 32 } : Report)
    else { r with visited := r.visited ++ [a] } := ⟨_, rfl⟩
  have hstart : r₀.memsz = (if e.type = 1 then (r.memsz + e.length % 2 ^ 32) % 2 ^ 32 else r.memsz) ∧
      r₀.y = r.y ∧ r₀.text = [] ∧ r₀.printed = r.printed ∧ r₀.visited = r.visited ++ [a] := by
    rw [hr₀]
    split
    · exact ⟨rfl, rfl, htext, rfl, rfl⟩
    · exact ⟨rfl, rfl, htext, rfl, rfl⟩
  rw [← hr₀]
  obtain ⟨r₁, h₁, hadds₁⟩ := printTmp_adds hbase (r₀.printStr (chars "Address Range["))
  obtain ⟨r₂, h₂, hadds₂⟩ := printMemstr_adds (show 2 ≤ 16 by omega) (by omega) hsum
    (r₁.printStr (chars ":"))
  rw [h₁, Option.bind_some, h₂, Option.bind_some]
  have hline := ((Report.Adds.printStr _ r₀).trans hadds₁).trans
    ((Report.Adds.printStr _ r₁).trans hadds₂)
  have hline := (hline.trans (.printStr (chars "] State: ") r₂)).trans
    (.printStr (if e.type = 1 then chars "available" else chars "reserved") _)
  obtain ⟨hmemsz, hy, hempty, hprinted, hvisited⟩ := hstart
  refine ⟨_, rfl, hline.memsz.trans hmemsz, ?_, rfl, ?_, hline.visited.trans hvisited⟩
  · exact congrArg (fun y ↦ (y + 1) % 65536) (hline.y.trans hy)
  · have htext' := hline.text
    rw [hempty, List.nil_append] at htext'
    have hrow := hline.y.trans hy
    have hbefore := hline.printed.trans hprinted
    rw [Report.endLine]
    dsimp only
    rw [hrow, hbefore, htext', MapEntry.printedLine, rangeLine]
    simp only [List.append_assoc]

theorem availableBytes_cons (e : MapEntry) (entries : List MapEntry) :
    availableBytes (e :: entries) =
      (if e.type = 1 then e.length else 0) + availableBytes entries := by
  rw [availableBytes, List.filter_cons]
  split
  · next htype =>
    rw [if_pos (of_decide_eq_true htype), List.map_cons, List.sum_cons, availableBytes]
  · next htype =>
    rw [if_neg (by simpa using htype), Nat.zero_add, availableBytes]

theorem le_of_mapAt {entries : List MapEntry} (h : MapAt mem a entries stop) : a ≤ stop := by
  induction entries generalizing a with
  | nil => exact h.le
  | cons e entries ih =>
      have hrest := ih h.2
      omega

theorem traverse_eq {entries : List MapEntry} (h : MapAt mem a entries stop) (hstop : stop < 2 ^ 32)
    {fuel : ℕ} (hfuel : entries.length < fuel) {r : Report} (htext : r.text = [])
    (hmemsz : r.memsz < 2 ^ 32) (hy : r.y < 65536) : ∃ r', traverse mem stop fuel a r = some r' ∧
      r'.memsz = (r.memsz + availableBytes entries) % 2 ^ 32 ∧ r'.text = [] ∧
      r'.printed = r.printed ++ entries.mapIdx (fun i e ↦ ((r.y + i) % 65536, e.printedLine)) ∧
      r'.visited = r.visited ++ entryAddresses a entries := by
  induction entries generalizing a fuel r with
  | nil =>
      cases fuel with
      | zero => cases hfuel
      | succ fuel =>
          refine ⟨r, if_neg h.ge.not_gt, ?_, htext, (List.append_nil _).symm,
            (List.append_nil _).symm⟩
          exact (Nat.mod_eq_of_lt hmemsz).symm
  | cons e entries ih =>
      cases fuel with
      | zero => cases hfuel
      | succ fuel =>
          obtain ⟨he, hrest⟩ := h
          have hle := le_of_mapAt hrest
          have hnext : (a + word mem a + 4) % 2 ^ 32 = a + e.size + 4 := by
            rw [he.size]
            exact Nat.mod_eq_of_lt (by omega)
          obtain ⟨r₁, hentry, hmemsz₁, hy₁, htext₁, hprinted₁, hvisited₁⟩ := printEntry_eq he htext
          have hword : r₁.memsz < 2 ^ 32 := by
            rw [hmemsz₁]
            split
            · exact Nat.mod_lt _ (by omega)
            · exact hmemsz
          obtain ⟨r', hloop, hmemsz', htext', hprinted', hvisited'⟩ :=
            ih hrest (Nat.lt_of_succ_lt_succ hfuel) htext₁ hword
              (hy₁ ▸ Nat.mod_lt _ (by omega))
          refine ⟨r', ?_, ?_, htext', ?_, ?_⟩
          · rw [traverse, if_pos (by omega), hentry, hnext]
            exact hloop
          · rw [hmemsz', hmemsz₁, availableBytes_cons]
            split
            · omega
            · omega
          · have hrows : (fun i (e : MapEntry) ↦ ((r₁.y + i) % 65536, e.printedLine)) =
                fun i e ↦ ((r.y + (i + 1)) % 65536, e.printedLine) := by
              funext i e
              rw [hy₁, Nat.mod_add_mod, Nat.add_assoc, Nat.add_comm 1 i]
            rw [hprinted', hprinted₁, hrows, List.mapIdx_cons, List.append_assoc, Nat.add_zero,
              Nat.mod_eq_of_lt hy]
            rfl
          · rw [hvisited', hvisited₁, List.append_assoc]
            rfl

theorem init_eq {entries : List MapEntry} {mmapAddr mmapLength fuel : ℕ} (memory : ℕ → UInt8)
    (h : MapAt mem mmapAddr entries (mmapAddr + mmapLength))
    (hstop : mmapAddr + mmapLength < 2 ^ 32) (hfuel : entries.length < fuel) :
    ∃ r, init fuel mem memory mmapAddr mmapLength = some r ∧
      r.visited = entryAddresses mmapAddr entries ∧
      r.printed = entries.mapIdx (fun i e ↦ ((4 + i) % 65536, e.printedLine)) ++
        [(2, sizeLine (((availableBytes entries % 2 ^ 32) >>> 20) + 1))] := by
  obtain ⟨r, hloop, hmemsz, htext, hprinted, hvisited⟩ :=
    @traverse_eq mem mmapAddr _ entries h hstop fuel hfuel (startReport memory) rfl
      (show 0 < 2 ^ 32 by omega) (show 4 < 65536 by omega)
  have hsum : r.memsz = availableBytes entries % 2 ^ 32 := by
    rw [hmemsz]
    exact congrArg (· % 2 ^ 32) (Nat.zero_add _)
  have hsize : ((r.memsz >>> 20) + 1) % 2 ^ 32 =
      ((availableBytes entries % 2 ^ 32) >>> 20) + 1 := by
    rw [hsum, Nat.shiftRight_eq_div_pow]
    omega
  have hword : ((availableBytes entries % 2 ^ 32) >>> 20) + 1 < 2 ^ 32 := by
    rw [Nat.shiftRight_eq_div_pow]
    omega
  simp only [init, Nat.mod_eq_of_lt hstop, hloop, Option.bind_eq_bind, Option.bind_some, hsize]
  obtain ⟨r₁, hprint, hadds⟩ := printMemstr_adds (show 2 ≤ 10 by omega) (by omega) hword
    (({ r with
      memsz := ((availableBytes entries % 2 ^ 32) >>> 20) + 1, y := 2, text := [] } : Report).printStr
        (chars "MemOS: Welcome MemOS_2 System memory is: "))
  have hline := ((Report.Adds.printStr _ _).trans hadds).trans (.printStr (chars "MB") r₁)
  rw [hprint, Option.bind_some]
  refine ⟨_, rfl, hline.visited.trans hvisited, ?_⟩
  rw [Report.endLine]
  dsimp only
  rw [hline.printed, hline.y, hline.text]
  dsimp only
  rw [hprinted, List.nil_append, sizeLine]
  rfl

end Loop

/-! ## When it is true -/

theorem separator_inj {c : UInt8} {u u' v v' : List UInt8} (hu : c ∉ u) (hu' : c ∉ u')
    (h : u ++ c :: v = u' ++ c :: v') : u = u' ∧ v = v' := by
  induction u generalizing u' with
  | nil =>
      cases u' with
      | nil => exact ⟨rfl, (List.cons.inj h).2⟩
      | cons d u' => exact (hu' ((List.cons.inj h).1 ▸ List.mem_cons_self)).elim
  | cons d u ih =>
      cases u' with
      | nil => exact (hu ((List.cons.inj h).1 ▸ List.mem_cons_self)).elim
      | cons d' u' =>
          obtain ⟨rfl, hrest⟩ := List.cons.inj h
          obtain ⟨rfl, hv⟩ := ih (fun hmem ↦ hu (List.mem_cons_of_mem d hmem))
            (fun hmem ↦ hu' (List.mem_cons_of_mem d hmem)) hrest
          exact ⟨rfl, hv⟩

theorem notMem_numberText {unit data : ℕ} (hunit : 2 ≤ unit) (hunit' : unit ≤ 36) {c : UInt8}
    (hc : c.toNat < 48 ∨ (57 < c.toNat ∧ c.toNat < 97)) : c ∉ numberText unit data := by
  intro hmem
  obtain ⟨d, hd, rfl⟩ := mem_numberText hunit hunit' hmem
  rw [toNat_digitChar hd hunit'] at hc
  split at hc <;> omega

theorem rangeLine_inj {base base' stop stop' : ℕ} {available : Prop} [Decidable available]
    (h : rangeLine base stop available = rangeLine base' stop' available) :
    base = base' ∧ stop = stop' := by
  simp only [rangeLine, List.append_assoc] at h
  have h := List.append_cancel_left h
  obtain ⟨hbase, h⟩ := separator_inj (notMem_numberText (by omega) (by omega) (by decide))
    (notMem_numberText (by omega) (by omega) (by decide)) h
  have h : numberText 16 stop ++ (chars "] State: " ++ _) =
      numberText 16 stop' ++ (chars "] State: " ++ _) := h
  have hstop := List.append_cancel_right h
  exact ⟨numberText_inj (by omega) (by omega) hbase, numberText_inj (by omega) (by omega) hstop⟩

theorem sizeLine_inj {m n : ℕ} (h : sizeLine m = sizeLine n) : m = n := by
  rw [sizeLine, sizeLine] at h
  exact numberText_inj (by omega) (by omega)
    (List.append_cancel_left (List.append_cancel_right h))

/-- The report is true exactly if no entry ends at or above 4 GiB and the memory of type 1
is less than that. -/
theorem memory_map_truthful_iff {mem : ℕ → UInt8} {mmapAddr mmapLength fuel : ℕ}
    {entries : List MapEntry} (memory : ℕ → UInt8)
    (h : MapAt mem mmapAddr entries (mmapAddr + mmapLength))
    (hstop : mmapAddr + mmapLength < 2 ^ 32) (hfuel : entries.length < fuel) :
    ReportsTruthfully fuel mem memory mmapAddr mmapLength entries ↔
      (∀ e ∈ entries, e.base + e.length < 2 ^ 32) ∧ availableBytes entries < 2 ^ 32 := by
  obtain ⟨r, hrun, hvisited, hprinted⟩ := init_eq memory h hstop hfuel
  have htruth : ReportsTruthfully fuel mem memory mmapAddr mmapLength entries ↔
      r.printed = truthfulLines entries := by
    constructor
    · rintro ⟨r', hrun', -, hprinted'⟩
      cases hrun.symm.trans hrun'
      exact hprinted'
    · exact fun hprinted' ↦ ⟨r, hrun, hvisited, hprinted'⟩
  rw [htruth, hprinted, truthfulLines]
  constructor
  · intro hlines
    obtain ⟨hlines, hsize⟩ := List.append_inj' hlines rfl
    constructor
    · intro e he
      obtain ⟨i, hi, rfl⟩ := List.mem_iff_getElem.mp he
      have hline := (Prod.ext_iff.mp (List.mapIdx_eq_mapIdx_iff.mp hlines i hi)).2
      have hsum := (rangeLine_inj hline).2
      omega
    · have hmegabytes := sizeLine_inj (Prod.ext_iff.mp (List.cons.inj hsize).1).2
      rw [Nat.shiftRight_eq_div_pow, Nat.shiftRight_eq_div_pow] at hmegabytes
      omega
  · rintro ⟨hbelow, hsum⟩
    refine congrArg₂ (· ++ ·) (List.mapIdx_eq_mapIdx_iff.mpr fun i hi ↦ ?_) ?_
    · have hlt := hbelow entries[i] (List.getElem_mem hi)
      have hbase : entries[i].base % 2 ^ 32 = entries[i].base := Nat.mod_eq_of_lt (by omega)
      rw [MapEntry.printedLine, hbase, Nat.mod_eq_of_lt hlt]
    · rw [Nat.mod_eq_of_lt hsum]

/-! ## Two maps -/

/-- Low memory, a reserved region whose entry is four bytes longer, and high memory. -/
def lowEntries : List MapEntry :=
  [⟨20, 0, 654336, 1, by decide⟩, ⟨24, 983040, 65536, 2, by decide⟩,
    ⟨20, 1048576, 66060288, 1, by decide⟩]

def lowMap : ℕ → UInt8 :=
  writeBytes (fun _ ↦ 0) 4096 ([20, 0, 0, 654336, 0, 1, 24, 983040, 0, 65536, 0, 2, 0,
    20, 1048576, 0, 66060288, 0, 1].flatMap (leBytes 4))

theorem lowMap_at : MapAt lowMap 4096 lowEntries (4096 + 76) := by
  refine ⟨⟨?_, ?_, ?_, ?_⟩, ⟨?_, ?_, ?_, ?_⟩, ⟨?_, ?_, ?_, ?_⟩, rfl⟩
  all_goals decide

/-- All three entries end below 4 GiB, so the report is true. -/
theorem memory_map_truthful_iff_low : ReportsTruthfully 4 lowMap (fun _ ↦ 0) 4096 76 lowEntries :=
  (memory_map_truthful_iff (fun _ ↦ 0) lowMap_at (by decide) (by decide)).mpr (by decide)

/-- A gibibyte of memory of type 1 behind the first four, of which the low half of the base
shows nothing. -/
def highEntry : MapEntry := ⟨20, 4294967296, 1073741824, 1, by decide⟩

def highMap : ℕ → UInt8 :=
  writeBytes (fun _ ↦ 0) 4096 ([20, 0, 1, 1073741824, 0, 1].flatMap (leBytes 4))

theorem highMap_at : MapAt highMap 4096 [highEntry] (4096 + 24) := by
  refine ⟨⟨?_, ?_, ?_, ?_⟩, rfl⟩
  all_goals decide

/-- The line for it shows the range from 0 to 1 GiB. -/
theorem high_region_shown_low : MapAt highMap 4096 [highEntry] (4096 + 24) ∧
    ¬ ReportsTruthfully 2 highMap (fun _ ↦ 0) 4096 24 [highEntry] ∧
    highEntry.printedLine = rangeLine 0 1073741824 True := by
  refine ⟨highMap_at, ?_, rfl⟩
  rintro ⟨r', hrun', -, hprinted'⟩
  obtain ⟨r, hrun, -, hprinted⟩ := init_eq (fun _ ↦ 0) highMap_at (show 4096 + 24 < 2 ^ 32 by omega)
    (show 1 < 2 by omega)
  cases hrun.symm.trans hrun'
  have hline := (Prod.ext_iff.mp (List.cons.inj (hprinted.symm.trans hprinted')).1).2
  exact absurd (rangeLine_inj hline).1 (by decide)

end OperatingSystem.Memos
