import OperatingSystem.Memos.MultibootMap

/-!
# The memory map of the BIOS

`getAddressMap` of `memos-1.s` lets the BIOS store its address range descriptors one
behind the other and counts the calls after the first; `printAddressMap` runs through the
records with one pointer and prints a line for each.
-/

namespace OperatingSystem.Memos

open ByteMemory

/-! ## The search for the map -/

structure Descriptor where
  base : ℕ
  length : ℕ
  type : ℕ
  base_lt : base < 2 ^ 64
  length_lt : length < 2 ^ 64
  type_lt : type < 2 ^ 32

/-- The descriptor as the 20 bytes of its record. -/
def Descriptor.record (d : Descriptor) : List UInt8 :=
  leBytes 8 d.base ++ leBytes 8 d.length ++ leBytes 4 d.type

/-- What a call of the BIOS stores and leaves in the registers. -/
structure Answer where
  descriptor : Descriptor
  carry : Bool
  eax : ℕ
  ebx : ℕ

def mmardSize : ℕ := 20

def smapMagic : ℕ := 0x534d4150

/-- The address of `buffer` in the data segment. -/
def buffer : ℕ := 0x1200

/-- The call that stores the record at `edi`. -/
def Answer.int15 (answer : Answer) (edi : ℕ) (mem : ℕ → UInt8) : ℕ → UInt8 :=
  if answer.carry then mem else writeBytes mem edi answer.descriptor.record

/-- The loop that asks until `ebx` is 0: memory and the 16-bit counter behind it. -/
def askLoop : List Answer → (ℕ → UInt8) → ℕ → ℕ → ℕ → Option ((ℕ → UInt8) × ℕ)
  | [], mem, ebx, bp, _ => if ebx = 0 then some (mem, bp) else none
  | answer :: answers, mem, ebx, bp, edi =>
      if ebx = 0 then some (mem, bp)
      else
        let edi := edi + mmardSize
        askLoop answers (answer.int15 edi mem) answer.ebx ((bp + 1) % 65536) edi

/-- Memory, `eax` and `esi` at the end of `getAddressMap`, for the answers of the BIOS. -/
def getAddressMap (mem : ℕ → UInt8) : List Answer → Option ((ℕ → UInt8) × ℕ × ℕ)
  | [] => none
  | answer :: answers =>
      let mem := answer.int15 buffer mem
      if answer.carry ∨ answer.eax ≠ smapMagic then some (mem, 0, buffer)
      else (askLoop answers mem answer.ebx 0 buffer).map fun (mem, bp) ↦ (mem, bp, buffer)

/-! ## The printing -/

/-- The pointer of `printAddressMap` and what is on the screen: the finished lines and the
text before the cursor. -/
structure Printer where
  esi : ℕ
  text : List UInt8
  lines : List (List UInt8)

def Printer.putChar (al : UInt8) (p : Printer) : Printer := { p with text := p.text ++ [al] }

/-- `print_string` prints up to a NUL. Its callers restore the pointer. -/
def Printer.printString (str : List UInt8) (p : Printer) : Printer :=
  { p with text := p.text ++ str.takeWhile (· ≠ 0) }

def Printer.newline (p : Printer) : Printer :=
  { p with text := [], lines := p.lines ++ [p.text] }

/-- The character that `print_hex_digit` prints. -/
def hexDigit (al : UInt8) : UInt8 :=
  let al := (al &&& 0x0f) + 0x30
  if al ≤ 0x39 then al else al + 0x07

/-- The loop of `print_32`. -/
def print32Loop (mem : ℕ → UInt8) : ℕ → Printer → Printer
  | 0, p => p
  | ecx + 1, p =>
      let p := p.putChar (hexDigit (mem p.esi >>> 4))
      let p := p.putChar (hexDigit (mem p.esi))
      print32Loop mem ecx { p with esi := p.esi - 1 }

def print32 (mem : ℕ → UInt8) (p : Printer) : Printer :=
  let p := print32Loop mem 4 { p with esi := p.esi + 3 }
  { p with esi := p.esi + 5 }

/-! The strings have no NUL at the end; each lies before the 16-bit word of its length. -/

def strBase : List UInt8 := chars "Address Range[" ++ leBytes 2 14

def strType : List UInt8 := chars "] State: " ++ leBytes 2 9

def strState1 : List UInt8 := chars "available" ++ leBytes 2 9

def strState2 : List UInt8 := chars "reserved" ++ leBytes 2 8

/-- The body of `entry_loop`. -/
def printDescriptor (mem : ℕ → UInt8) (eax : ℕ) (p : Printer) : Printer :=
  let p := p.printString strBase
  let p := print32 mem p
  let p := p.putChar 0x3a
  let p := { p with esi := p.esi + 16 }
  let p := print32 mem p
  let p := p.printString strType
  let p := { p with esi := p.esi - 8 }
  -- A 16-bit load; the high half of the counter stays.
  let eax := eax / 65536 * 65536 + leValue (readBytes mem p.esi 2)
  let p := p.printString (if eax = 2 then strState2 else strState1)
  let p := { p with esi := p.esi + 4 }
  p.newline

/-- `entry_loop`, which ends when the counter has become negative. -/
def entryLoop (mem : ℕ → UInt8) : ℕ → Printer → Printer
  | 0, p => printDescriptor mem 0 p
  | eax + 1, p => entryLoop mem eax (printDescriptor mem (eax + 1) p)

/-- The lines that `printAddressMap` prints. -/
def printAddressMap (mem : ℕ → UInt8) (eax esi : ℕ) : List (List UInt8) :=
  (entryLoop mem eax ⟨esi, [], []⟩).lines

/-! ## The faithful map -/

/-- The answers of a BIOS that gives all of the map. -/
structure Complete (answers : List Answer) : Prop where
  ne_nil : answers ≠ []
  carry : ∀ answer ∈ answers, answer.carry = false
  eax : ∀ answer ∈ answers, answer.eax = smapMagic
  ebx : ∀ i (hi : i < answers.length), answers[i].ebx = 0 ↔ i + 1 = answers.length

def hexChar (d : ℕ) : UInt8 := UInt8.ofNat (if d < 10 then 48 + d else 55 + d)

def hex32 (v : ℕ) : List UInt8 :=
  (List.range 8).reverse.map fun i ↦ hexChar (v / 16 ^ i % 16)

/-- A line for the two given numbers. Each string comes with the low byte of its length. -/
def mapLine (base stop : ℕ) (available : Prop) [Decidable available] : List UInt8 :=
  chars "Address Range[" ++ [14] ++ hex32 base ++ chars ":" ++ hex32 stop ++
    chars "] State: " ++ [9] ++
    if available then chars "available" ++ [9] else chars "reserved" ++ [8]

def Descriptor.line (d : Descriptor) : List UInt8 :=
  mapLine (d.base % 2 ^ 32) ((d.base + d.length) % 2 ^ 32) (d.type = 1)

/-- The two routines print a line for each of the descriptors in turn. -/
def PrintsMap (mem : ℕ → UInt8) (answers : List Answer) : Prop :=
  ∃ mem' eax esi, getAddressMap mem answers = some (mem', eax, esi) ∧
    printAddressMap mem' eax esi = answers.map fun answer ↦ answer.descriptor.line

/-- The low half of the base of the descriptor that follows, or the word behind the last
record. -/
def nextBase (behind : ℕ) : List Descriptor → ℕ
  | [] => behind
  | d :: _ => d.base % 2 ^ 32

/-- Every descriptor ends where the next one begins, as the low halves show it, and the
word behind the last record says where that one ends. -/
def Abutting (behind : ℕ) : List Descriptor → Prop
  | [] => True
  | d :: ds => (d.base + d.length) % 2 ^ 32 = nextBase behind ds ∧ Abutting behind ds

/-! ## The records in memory -/

/-- What the printing reads of a record. -/
structure Descriptor.At (mem : ℕ → UInt8) (a : ℕ) (d : Descriptor) : Prop where
  base : word mem a = d.base % 2 ^ 32
  type : leValue (readBytes mem (a + 16) 2) = d.type % 65536

def RecordsAt (mem : ℕ → UInt8) : ℕ → List Descriptor → Prop
  | _, [] => True
  | a, d :: ds => d.At mem a ∧ RecordsAt mem (a + 20) ds

@[simp] theorem Descriptor.length_record (d : Descriptor) : d.record.length = 20 := by
  simp [Descriptor.record]

theorem Descriptor.at_of_readBytes {mem : ℕ → UInt8} {a : ℕ} {d : Descriptor}
    (h : readBytes mem a 20 = d.record) : d.At mem a := by
  constructor
  · have hbytes : readBytes mem a 4 = (leBytes 8 d.base).take 4 := by
      rw [← take_readBytes mem a (show 4 ≤ 20 by omega), h, Descriptor.record, List.append_assoc,
        List.take_append_of_le_length (by simp)]
    rw [word, hbytes, leValue_take_leBytes (by omega)]
    norm_num
  · have hbytes : readBytes mem (a + 16) 2 = (leBytes 4 d.type).take 2 := by
      rw [← take_readBytes mem (a + 16) (show 2 ≤ 20 - 16 by omega),
        ← drop_readBytes mem a (show 16 ≤ 20 by omega), h, Descriptor.record,
        List.drop_left' (by simp)]
    rw [hbytes, leValue_take_leBytes (by omega)]
    norm_num

theorem recordsAt_writeBytes (mem : ℕ → UInt8) (a : ℕ) (ds : List Descriptor) :
    RecordsAt (writeBytes mem a (ds.flatMap Descriptor.record)) a ds := by
  induction ds generalizing mem a with
  | nil => trivial
  | cons d ds ih =>
      rw [List.flatMap_cons, writeBytes_append, Descriptor.length_record]
      refine ⟨Descriptor.at_of_readBytes ?_, ih _ (a + 20)⟩
      rw [readBytes_writeBytes_of_disjoint (Or.inl le_rfl)]
      have hread := readBytes_writeBytes mem a d.record
      rwa [Descriptor.length_record] at hread

theorem length_records (ds : List Descriptor) :
    (ds.flatMap Descriptor.record).length = 20 * ds.length := by
  induction ds with
  | nil => rfl
  | cons d ds ih =>
      rw [List.flatMap_cons, List.length_append, ih, Descriptor.length_record, List.length_cons]
      omega

/-! ## The calls of the BIOS -/

section Search

variable {answer : Answer} {answers : List Answer}

theorem Complete.ebx_head (h : Complete (answer :: answers)) : answer.ebx = 0 ↔ answers = [] := by
  have hebx := h.ebx 0 (Nat.succ_pos _)
  rw [List.length_cons, Nat.add_right_cancel_iff, eq_comm (a := 0) (b := answers.length),
    List.length_eq_zero_iff] at hebx
  exact hebx

theorem Complete.tail (h : Complete (answer :: answers)) (hne : answers ≠ []) :
    Complete answers where
  ne_nil := hne
  carry := fun a ha ↦ h.carry a (List.mem_cons_of_mem _ ha)
  eax := fun a ha ↦ h.eax a (List.mem_cons_of_mem _ ha)
  ebx := fun i hi ↦ (h.ebx (i + 1) (Nat.succ_lt_succ hi)).trans Nat.add_right_cancel_iff

theorem Complete.int15 (h : Complete (answer :: answers)) (edi : ℕ) (mem : ℕ → UInt8) :
    answer.int15 edi mem = writeBytes mem edi answer.descriptor.record := by
  have hcarry := h.carry answer List.mem_cons_self
  rw [Answer.int15, hcarry]
  rfl

theorem askLoop_eq (h : Complete (answer :: answers)) (mem : ℕ → UInt8) (edi : ℕ) {bp : ℕ}
    (hbp : bp + answers.length < 65536) :
    askLoop answers mem answer.ebx bp edi =
      some (writeBytes mem (edi + 20) (answers.flatMap fun a ↦ a.descriptor.record),
        bp + answers.length) := by
  induction answers generalizing answer mem edi bp with
  | nil =>
      rw [askLoop, if_pos (h.ebx_head.mpr rfl), List.flatMap_nil, writeBytes_nil]
      rfl
  | cons next answers ih =>
      rw [List.length_cons] at hbp
      have hebx : answer.ebx ≠ 0 := fun h0 ↦ List.cons_ne_nil _ _ (h.ebx_head.mp h0)
      have htail := h.tail (List.cons_ne_nil next answers)
      rw [askLoop, if_neg hebx]
      dsimp only [mmardSize]
      rw [Nat.mod_eq_of_lt (by omega), htail.int15, ih htail _ _ (by omega), List.flatMap_cons,
        writeBytes_append, Descriptor.length_record, List.length_cons]
      congr 2
      omega

/-- All records lie in the buffer, and `eax` is one less than their number. -/
theorem getAddressMap_eq (h : Complete (answer :: answers)) (mem : ℕ → UInt8)
    (hlength : answers.length < 65536) :
    getAddressMap mem (answer :: answers) = some
      (writeBytes mem buffer (((answer :: answers).map Answer.descriptor).flatMap Descriptor.record),
        answers.length, buffer) := by
  have hok : ¬ (answer.carry ∨ answer.eax ≠ smapMagic) := by
    rw [h.carry answer List.mem_cons_self, h.eax answer List.mem_cons_self]
    simp
  rw [getAddressMap]
  dsimp only
  rw [if_neg hok, h.int15, askLoop_eq h _ _ (by omega), List.map_cons, List.flatMap_cons,
    List.flatMap_map, writeBytes_append, Descriptor.length_record, Nat.zero_add]
  rfl

end Search

/-! ## The characters -/

theorem hexDigit_eq (al : UInt8) : hexDigit al = hexChar (al.toNat % 16) := by
  have hbytes : ∀ n < 256, hexDigit (UInt8.ofNat n) = hexChar (n % 16) := by decide +kernel
  have hbyte := hbytes al.toNat al.toNat_lt
  rwa [UInt8.ofNat_toNat] at hbyte

theorem hexDigit_high (al : UInt8) : hexDigit (al >>> 4) = hexChar (al.toNat / 16 % 16) := by
  rw [hexDigit_eq, UInt8.toNat_shiftRight, Nat.shiftRight_eq_div_pow]
  rfl

theorem word_eq (mem : ℕ → UInt8) (a : ℕ) : word mem a = (mem a).toNat + 256 * (mem (a + 1)).toNat +
    65536 * (mem (a + 2)).toNat + 16777216 * (mem (a + 3)).toNat := by
  have hbytes : readBytes mem a 4 = [mem a, mem (a + 1), mem (a + 2), mem (a + 3)] := rfl
  rw [word, hbytes]
  simp only [leValue]
  omega

theorem hex32_word (mem : ℕ → UInt8) (a : ℕ) : hex32 (word mem a) =
    [3, 2, 1, 0].flatMap fun i ↦ [hexDigit (mem (a + i) >>> 4), hexDigit (mem (a + i))] := by
  have h₀ := (mem a).toNat_lt
  have h₁ := (mem (a + 1)).toNat_lt
  have h₂ := (mem (a + 2)).toNat_lt
  have h₃ := (mem (a + 3)).toNat_lt
  have hrange : (List.range 8).reverse = [7, 6, 5, 4, 3, 2, 1, 0] := rfl
  simp only [hex32, hrange, List.map_cons, List.map_nil, List.flatMap_cons, List.flatMap_nil,
    List.cons_append, List.nil_append, hexDigit_high, hexDigit_eq (mem _), word_eq, Nat.reducePow,
    Nat.add_zero, List.cons.injEq, and_true]
  refine ⟨?_, ?_, ?_, ?_, ?_, ?_, ?_, ?_⟩
  all_goals exact congrArg hexChar (by omega)

theorem print32_eq (mem : ℕ → UInt8) {esi : ℕ} (hesi : 0 < esi) (text : List UInt8)
    (lines : List (List UInt8)) : print32 mem ⟨esi, text, lines⟩ =
      ⟨esi + 4, text ++ hex32 (word mem esi), lines⟩ := by
  obtain ⟨a, rfl⟩ : ∃ a, esi = a + 1 := Nat.exists_eq_add_one.mpr hesi
  simp only [hex32_word, print32, print32Loop, Printer.putChar, List.flatMap_cons,
    List.flatMap_nil, List.append_assoc, List.cons_append, List.nil_append]
  rfl

theorem hexChar_inj {d e : ℕ} (h : hexChar (d % 16) = hexChar (e % 16)) : d % 16 = e % 16 := by
  have hdigits : ∀ d < 16, ∀ e < 16, hexChar d = hexChar e → d = e := by decide
  exact hdigits _ (Nat.mod_lt d (by omega)) _ (Nat.mod_lt e (by omega)) h

theorem hex32_inj {v w : ℕ} (hv : v < 2 ^ 32) (hw : w < 2 ^ 32) (h : hex32 v = hex32 w) : v = w := by
  have hdigit : ∀ i < 8, v / 16 ^ i % 16 = w / 16 ^ i % 16 := fun i hi ↦
    hexChar_inj (List.map_inj_left.mp h i (List.mem_reverse.mpr (List.mem_range.mpr hi)))
  have hagree : ∀ i ≤ 8, v % 16 ^ i = w % 16 ^ i := by
    intro i hi
    induction i with
    | zero => rw [pow_zero, Nat.mod_one, Nat.mod_one]
    | succ i ih => rw [pow_succ, Nat.mod_mul, Nat.mod_mul, ih (by omega), hdigit i (by omega)]
  have hall := hagree 8 le_rfl
  rwa [Nat.mod_eq_of_lt (by omega), Nat.mod_eq_of_lt (by omega)] at hall

@[simp] theorem length_hex32 (v : ℕ) : (hex32 v).length = 8 := by simp [hex32]

theorem mapLine_inj {base base' stop stop' : ℕ} {p q : Prop} [Decidable p] [Decidable q]
    (h : mapLine base stop p = mapLine base' stop' q) :
    hex32 base = hex32 base' ∧ hex32 stop = hex32 stop' ∧ (p ↔ q) := by
  simp only [mapLine, List.append_assoc] at h
  have h := List.append_cancel_left (List.append_cancel_left h)
  obtain ⟨hbase, h⟩ := List.append_inj h (by simp)
  obtain ⟨hstop, h⟩ := List.append_inj (List.append_cancel_left h) (by simp)
  have hstate := List.append_cancel_left (List.append_cancel_left h)
  refine ⟨hbase, hstop, ?_⟩
  by_cases hp : p
  · by_cases hq : q
    · exact iff_of_true hp hq
    · rw [if_pos hp, if_neg hq] at hstate
      exact absurd hstate (by decide)
  · by_cases hq : q
    · rw [if_neg hp, if_pos hq] at hstate
      exact absurd hstate (by decide)
    · exact iff_of_false hp hq

/-! ## The lines -/

section Lines

variable {mem : ℕ → UInt8} {a : ℕ}

/-- What `printDescriptor` shows of a descriptor, with the word behind its record. -/
def Descriptor.printedLine (d : Descriptor) (stop : ℕ) : List UInt8 :=
  mapLine (d.base % 2 ^ 32) stop (d.type % 65536 ≠ 2)

theorem printDescriptor_eq {d : Descriptor} (hd : d.At mem a) (ha : 0 < a) {eax : ℕ}
    (heax : eax < 65536) (lines : List (List UInt8)) :
    printDescriptor mem eax ⟨a, [], lines⟩ =
      ⟨a + 20, [], lines ++ [d.printedLine (word mem (a + 20))]⟩ := by
  have hbaseStr : strBase.takeWhile (· ≠ 0) = chars "Address Range[" ++ [14] := by decide
  have htypeStr : strType.takeWhile (· ≠ 0) = chars "] State: " ++ [9] := by decide
  have hstate : (if d.type % 65536 = 2 then strState2 else strState1).takeWhile (· ≠ 0) =
      if d.type % 65536 ≠ 2 then chars "available" ++ [9] else chars "reserved" ++ [8] := by
    by_cases htype : d.type % 65536 = 2
    · rw [if_pos htype, if_neg (not_not_intro htype)]
      decide
    · rw [if_neg htype, if_pos htype]
      decide
  have hword : eax / 65536 * 65536 + leValue (readBytes mem (a + 16) 2) = d.type % 65536 := by
    rw [hd.type]
    omega
  have hpos : a + 4 + 16 + 4 - 8 = a + 16 := by omega
  simp (disch := omega) only [printDescriptor, Printer.printString, Printer.putChar,
    Printer.newline, print32_eq, hpos, hword, hstate, hbaseStr, htypeStr, hd.base,
    Descriptor.printedLine, mapLine, List.append_assoc, List.nil_append]
  rfl

/-- The lines for the records, with the given word behind the last one. -/
def printedLines (behind : ℕ) : List Descriptor → List (List UInt8)
  | [] => []
  | d :: ds => d.printedLine (nextBase behind ds) :: printedLines behind ds

theorem entryLoop_eq {d : Descriptor} {ds : List Descriptor} (h : RecordsAt mem a (d :: ds))
    (ha : 0 < a) (hlength : ds.length < 65536) (lines : List (List UInt8)) :
    (entryLoop mem ds.length ⟨a, [], lines⟩).lines =
      lines ++ printedLines (word mem (a + 20 * (ds.length + 1))) (d :: ds) := by
  induction ds generalizing a d lines with
  | nil => exact congrArg Printer.lines (printDescriptor_eq h.1 ha (Nat.succ_pos _) lines)
  | cons d' ds ih =>
      have hline := printDescriptor_eq h.1 ha hlength lines
      have hend : a + 20 + 20 * (ds.length + 1) = a + 20 * (ds.length + 1 + 1) := by omega
      rw [List.length_cons] at hlength hline ⊢
      rw [entryLoop, hline, ih h.2 (by omega) (by omega), h.2.1.base, List.append_assoc, hend]
      rfl

theorem printedLines_eq_iff (behind : ℕ) (hbehind : behind < 2 ^ 32) (ds : List Descriptor) :
    printedLines behind ds = ds.map Descriptor.line ↔
      Abutting behind ds ∧ ∀ d ∈ ds, d.type % 65536 = 2 ↔ d.type ≠ 1 := by
  induction ds with
  | nil => simp [printedLines, Abutting]
  | cons d ds ih =>
      have hnext : nextBase behind ds < 2 ^ 32 := by
        cases ds with
        | nil => exact hbehind
        | cons d' ds => exact Nat.mod_lt _ (by omega)
      have hline : d.printedLine (nextBase behind ds) = d.line ↔
          (d.base + d.length) % 2 ^ 32 = nextBase behind ds ∧
            (d.type % 65536 = 2 ↔ d.type ≠ 1) := by
        constructor
        · intro heq
          obtain ⟨-, hstop, htype⟩ := mapLine_inj heq
          exact ⟨(hex32_inj hnext (Nat.mod_lt _ (by omega)) hstop).symm,
            (not_iff_comm.mp htype).symm⟩
        · rintro ⟨hstop, htype⟩
          rw [Descriptor.printedLine, Descriptor.line, hstop]
          simp only [ne_eq, htype, not_not]
      rw [printedLines, List.map_cons, List.cons.injEq, ih, hline, List.forall_mem_cons, Abutting]
      tauto

end Lines

/-! ## When the map is faithful -/

/-- The word behind the last of the records, which the BIOS does not write. -/
def wordBehind (mem : ℕ → UInt8) (answers : List Answer) : ℕ :=
  word mem (buffer + 20 * answers.length)

theorem printsMap_iff_lines (mem : ℕ → UInt8) {answers : List Answer} (h : Complete answers)
    (hlength : answers.length ≤ 20) : PrintsMap mem answers ↔
      printedLines (wordBehind mem answers) (answers.map Answer.descriptor) =
        (answers.map Answer.descriptor).map Descriptor.line := by
  cases answers with
  | nil => exact absurd rfl h.ne_nil
  | cons answer answers =>
      rw [List.length_cons] at hlength
      have hsearch := getAddressMap_eq h mem (by omega)
      set ds := (answer :: answers).map Answer.descriptor with hds
      have hrecords := recordsAt_writeBytes mem buffer ds
      have hbehind : word (writeBytes mem buffer (ds.flatMap Descriptor.record))
          (buffer + 20 * (answers.length + 1)) = wordBehind mem (answer :: answers) := by
        rw [word, readBytes_writeBytes_of_disjoint]
        · rfl
        · right
          rw [length_records, hds, List.length_map, List.length_cons]
      have hlines := @entryLoop_eq _ _ answer.descriptor (answers.map Answer.descriptor) hrecords
        (show 0 < 0x1200 by omega) (by rw [List.length_map]; omega) []
      rw [List.length_map, hbehind, List.nil_append] at hlines
      have hmap : ds.map Descriptor.line =
          (answer :: answers).map fun answer ↦ answer.descriptor.line := List.map_map
      rw [hmap]
      constructor
      · rintro ⟨mem', eax, esi, hsearch', hprinted⟩
        cases hsearch.symm.trans hsearch'
        exact hlines.symm.trans hprinted
      · exact fun heq ↦ ⟨_, _, _, hsearch, hlines.trans heq⟩

/-- The map is printed as it is exactly if the descriptors abut in the order in which they
come, with the end of the last one behind the records, and all types but 1 have 2 in the
low half. -/
theorem address_map_printed_iff (mem : ℕ → UInt8) {answers : List Answer}
    (h : Complete answers) (hlength : answers.length ≤ 20) : PrintsMap mem answers ↔
      Abutting (wordBehind mem answers) (answers.map Answer.descriptor) ∧
        ∀ answer ∈ answers,
          answer.descriptor.type % 65536 = 2 ↔ answer.descriptor.type ≠ 1 := by
  have hbehind : wordBehind mem answers < 2 ^ 32 := word_lt _ _
  rw [printsMap_iff_lines mem h hlength, printedLines_eq_iff _ hbehind, List.forall_mem_map]

/-! ## A hole -/

/-- The last KiB below 640 KiB. -/
def lowDescriptor : Descriptor := ⟨0x9fc00, 0x400, 2, by decide, by decide, by decide⟩

/-- The 64 KiB below 1 MiB, behind a hole. -/
def romDescriptor : Descriptor := ⟨0xf0000, 0x10000, 2, by decide, by decide, by decide⟩

def holeAnswers : List Answer :=
  [⟨lowDescriptor, false, smapMagic, 1⟩, ⟨romDescriptor, false, smapMagic, 0⟩]

theorem holeAnswers_complete : Complete holeAnswers := by
  refine ⟨by decide, by decide, by decide, ?_⟩
  decide

theorem address_map_printed_iff_hole : PrintsMap (fun _ ↦ 0) holeAnswers ↔
    Abutting (wordBehind (fun _ ↦ 0) holeAnswers) (holeAnswers.map Answer.descriptor) ∧
      ∀ answer ∈ holeAnswers,
        answer.descriptor.type % 65536 = 2 ↔ answer.descriptor.type ≠ 1 :=
  address_map_printed_iff (fun _ ↦ 0) holeAnswers_complete (by decide)

/-- The first line ends at the second base, and the last one at the word behind it. -/
theorem hole_shown_as_range : Complete holeAnswers ∧ ¬ PrintsMap (fun _ ↦ 0) holeAnswers ∧
    printedLines (wordBehind (fun _ ↦ 0) holeAnswers) (holeAnswers.map Answer.descriptor) =
      [mapLine 0x9fc00 0xf0000 False, mapLine 0xf0000 0 False] := by
  refine ⟨holeAnswers_complete, fun hprints ↦ ?_, rfl⟩
  have hlines := (printsMap_iff_lines (fun _ ↦ 0) holeAnswers_complete (by decide)).mp hprints
  obtain ⟨-, hstop, -⟩ := mapLine_inj (List.cons.inj hlines).1
  exact absurd hstop (by decide)

end OperatingSystem.Memos
