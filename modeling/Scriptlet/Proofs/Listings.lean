import Scriptlet.Bytecode.Listing
import Scriptlet.Proofs.ConstantTexts

/-! # What a listing tells

A line of a listing can be read back: its words are the offset, the line of the script or a bar, the
mnemonic and the operand. Columns may be wider than usual, and the text of a constant may look like
anything, but it comes last and stays on its line. So a listing tells the code of a script and the
line of every instruction.
-/

namespace Scriptlet

/-! ## Words and lines -/

namespace Text

/-- The first word of a text, and what follows it. -/
def firstWord (text : List Char) : List Char × List Char :=
  let start := text.dropWhile (· == ' ')
  (start.takeWhile (· != ' '), start.dropWhile (· != ' '))

theorem bne_of_notMem {separator : Char} {text : List Char} (htext : separator ∉ text) :
    ∀ c ∈ text, (c != separator) = true := by
  intro c hc
  rw [bne_iff_ne]
  rintro rfl
  exact htext hc

/-- A word that is set off by blanks is read as it is. -/
theorem firstWord_eq (width : Nat) {word rest : List Char} (hne : word ≠ []) (hword : ' ' ∉ word)
    (hrest : ∀ c ∈ rest.head?, c = ' ') :
    firstWord (List.replicate width ' ' ++ (word ++ rest)) = (word, rest) := by
  have hchars := bne_of_notMem hword
  have hstart : (word ++ rest).head?.any (· == ' ') = false := by
    cases word with
    | nil => contradiction
    | cons c word => simpa using hchars c List.mem_cons_self
  have hstop : rest.head?.any (· != ' ') = false := by
    cases rest with
    | nil => rfl
    | cons c rest => simpa using hrest c rfl
  have hdrop : (List.replicate width ' ' ++ (word ++ rest)).dropWhile (· == ' ') = word ++ rest :=
    Lexeme.dropWhile_append_stop (by simp) hstart
  simp only [firstWord, hdrop, Lexeme.takeWhile_append_stop hchars hstop,
    Lexeme.dropWhile_append_stop hchars hstop]

/-- A text tells the first of its lines and what follows it. -/
theorem line_inj {line other rest rest' : List Char} (hline : '\n' ∉ line) (hother : '\n' ∉ other)
    (heq : line ++ '\n' :: rest = other ++ '\n' :: rest') : line = other ∧ rest = rest' := by
  have htake := congrArg (List.takeWhile (· != '\n')) heq
  rw [Lexeme.takeWhile_append_stop (bne_of_notMem hline) rfl,
    Lexeme.takeWhile_append_stop (bne_of_notMem hother) rfl] at htake
  subst htake
  exact ⟨rfl, (List.cons.inj (List.append_cancel_left heq)).2⟩

theorem lines_inj {lines others : List (List Char)} (hlines : ∀ line ∈ lines, '\n' ∉ line)
    (hothers : ∀ line ∈ others, '\n' ∉ line)
    (heq : lines.flatMap (· ++ ['\n']) = others.flatMap (· ++ ['\n'])) : lines = others := by
  induction lines generalizing others with
  | nil =>
      cases others with
      | nil => rfl
      | cons other others => simp at heq
  | cons line lines ih =>
      cases others with
      | nil => simp at heq
      | cons other others =>
          rw [List.forall_mem_cons] at hlines hothers
          simp only [List.flatMap_cons, List.append_assoc, List.singleton_append] at heq
          obtain ⟨rfl, hrest⟩ := line_inj hlines.1 hothers.1 heq
          rw [ih hlines.2 hothers.2 hrest]

end Text

/-! ## Instructions -/

namespace Instr

/-- The index or the slot that an instruction refers to. -/
def operand? (instr : Instr) : Option Nat :=
  instr.constant?.or instr.slot?

/-- The instructions, with `operand` where they have one. -/
def all (operand : Nat) : List Instr :=
  [.constant operand, .pushNil, .pushTrue, .pushFalse, .negate, .not, .add, .subtract, .multiply,
    .divide, .equal, .greater, .less, .declGlobal operand, .setGlobal operand, .getGlobal operand,
    .declLocal operand, .setLocal operand, .getLocal operand, .print, .pop, .halt]

def ofMnemonic? (mnemonic : String) (operand : Nat) : Option Instr :=
  (all operand).find? (·.mnemonic == mnemonic)

/-- No two instructions share a mnemonic. -/
theorem ofMnemonic?_mnemonic (instr : Instr) :
    ofMnemonic? instr.mnemonic (instr.operand?.getD 0) = some instr := by
  cases instr <;> rfl

theorem mnemonic_word (instr : Instr) :
    instr.mnemonic.toList ≠ [] ∧ ' ' ∉ instr.mnemonic.toList ∧ '\n' ∉ instr.mnemonic.toList := by
  cases instr <;> simp [mnemonic]

end Instr

/-! ## Columns -/

namespace Decimal

theorem toDigits_word (n : Nat) :
    Nat.toDigits 10 n ≠ [] ∧ ' ' ∉ Nat.toDigits 10 n ∧ '|' ∉ Nat.toDigits 10 n := by
  exact ⟨Nat.toDigits_ne_nil, notMem_toDigits (by decide) n, notMem_toDigits (by decide) n⟩

end Decimal

namespace Text

theorem toList_alignRight (fill : Char) (width : Nat) (text : String) :
    (alignRight fill width text).toList =
      List.replicate (width - text.length) fill ++ text.toList := by
  simp [alignRight]

theorem toList_alignLeft (width : Nat) (text : String) :
    (alignLeft width text).toList =
      text.toList ++ List.replicate (width - text.length) ' ' := by
  simp [alignLeft]

end Text

namespace Chunk

variable (chunk : Chunk)

/-- The line of the script that an instruction comes from. -/
def line? (offset : Nat) : Option UInt32 :=
  (chunk.pos? offset).map Pos.line

/-- The line of the instruction before. -/
def previousLine? : Nat → Option UInt32
  | 0 => none
  | offset + 1 => chunk.line? offset

/-- The line that a listing shows, which it does unless it is that of the instruction before. -/
def shownLine? (offset : Nat) : Option UInt32 :=
  if chunk.previousLine? offset = chunk.line? offset then none else chunk.line? offset

theorem line?_eq_or {offset : Nat} {line : UInt32} (hline : chunk.line? offset = some line) :
    chunk.line? offset = (chunk.shownLine? offset).or (chunk.previousLine? offset) := by
  unfold shownLine?
  split
  next hprevious => rw [Option.none_or, hprevious]
  next => rw [hline, Option.some_or]

/-- The word that tells the line of an instruction. -/
def lineWord : Option UInt32 → List Char
  | none => ['|']
  | some line => Nat.toDigits 10 line.toNat

theorem lineColumn_eq {offset : Nat} {line : UInt32} (hline : chunk.line? offset = some line) :
    ∃ width, (chunk.lineColumn offset).toList =
      List.replicate width ' ' ++ lineWord (chunk.shownLine? offset) := by
  obtain ⟨pos, hpos, rfl⟩ := Option.map_eq_some_iff.mp hline
  have hprevious : (if offset = 0 then none else chunk.pos? (offset - 1)).map Pos.line =
      chunk.previousLine? offset := by
    cases offset <;> rfl
  unfold lineColumn shownLine?
  simp only [hpos, hprevious, hline]
  split
  · exact ⟨3, rfl⟩
  · rw [Text.toList_alignRight, Decimal.toList_toString]
    exact ⟨_, rfl⟩

/-- What may follow an operand. -/
def IsRemark (tail : List Char) : Prop :=
  tail = [] ∨ tail = " <invalid>".toList ∨
    ∃ index value, chunk.pool.get? index = some value ∧
      tail = " '".toList ++ value.text.toList ++ "'".toList

/-- The columns of an operation with an operand. -/
def withOperand (mnemonic : String) (operand : Nat) : String :=
  Text.alignLeft 16 mnemonic ++ " " ++ Text.alignRight ' ' 4 (toString operand)

theorem toList_withOperand (mnemonic : String) (operand : Nat) :
    ∃ width, (withOperand mnemonic operand).toList =
      mnemonic.toList ++ (List.replicate (width + 1) ' ' ++ Nat.toDigits 10 operand) := by
  refine ⟨16 - mnemonic.length + (4 - (toString operand).length), ?_⟩
  simp only [withOperand, String.toList_append, Text.toList_alignLeft, Text.toList_alignRight,
    Decimal.toList_toString, List.append_assoc]
  rw [Nat.add_right_comm, ← List.replicate_append_replicate, ← List.replicate_append_replicate]
  simp

/-- An operation is a mnemonic, followed by the operand if there is one. -/
theorem operation_cases (instr : Instr) :
    (instr.operand? = none ∧ chunk.operation instr = instr.mnemonic) ∨
      ∃ operand width tail, instr.operand? = some operand ∧ chunk.IsRemark tail ∧
        (chunk.operation instr).toList = instr.mnemonic.toList ++
          (List.replicate (width + 1) ' ' ++ (Nat.toDigits 10 operand ++ tail)) := by
  unfold operation Instr.operand?
  cases hindex : instr.constant? with
  | some index =>
      obtain ⟨width, hwidth⟩ := toList_withOperand instr.mnemonic index
      cases hvalue : chunk.pool.get? index with
      | some value =>
          refine .inr ⟨index, width, _, rfl, .inr (.inr ⟨index, value, hvalue, rfl⟩), ?_⟩
          simp only [hvalue]
          change (withOperand instr.mnemonic index ++ " '" ++ value.text ++ "'").toList = _
          rw [String.toList_append, String.toList_append, String.toList_append, hwidth]
          simp only [List.append_assoc]
      | none =>
          refine .inr ⟨index, width, _, rfl, .inr (.inl rfl), ?_⟩
          simp only [hvalue]
          change (withOperand instr.mnemonic index ++ " <invalid>").toList = _
          rw [String.toList_append, hwidth]
          simp only [List.append_assoc]
  | none =>
      cases hslot : instr.slot? with
      | some slot =>
          obtain ⟨width, hwidth⟩ := toList_withOperand instr.mnemonic slot
          refine .inr ⟨slot, width, [], rfl, .inl rfl, ?_⟩
          rw [List.append_nil]
          exact hwidth
      | none => exact .inl ⟨rfl, rfl⟩

variable {chunk}

theorem IsRemark.head_eq {tail : List Char} (htail : chunk.IsRemark tail) :
    ∀ c ∈ tail.head?, c = ' ' := by
  rcases htail with rfl | rfl | ⟨index, value, _, rfl⟩
  · simp
  · simp
  · simp

theorem listingLine_eq {offset : Nat} {instr : Instr} (hinstr : chunk.code[offset]? = some instr) :
    (chunk.listingLine offset).toList =
      (Text.alignRight '0' 4 (toString offset)).toList ++
        (' ' :: (chunk.lineColumn offset).toList ++
          ' ' :: (chunk.operation instr).toList) := by
  unfold listingLine
  simp only [hinstr]
  change (_ ++ " " ++ chunk.lineColumn offset ++ " " ++ chunk.operation instr).toList = _
  simp only [String.toList_append, List.append_assoc]
  rfl

/-! ## Reading a line -/

/-- Reads the words of a line: which instruction it is, and its line unless it is repeated. -/
def readLine (text : List Char) : Option (Instr × Option UInt32) :=
  -- the offset is not needed: the lines of a listing stand in order
  let (_, text) := Text.firstWord text
  let (line, text) := Text.firstWord text
  let (mnemonic, text) := Text.firstWord text
  let (operand, _) := Text.firstWord text
  (Instr.ofMnemonic? (String.ofList mnemonic) (Decimal.ofDigits operand)).map
    (·, if line = ['|'] then none else some (.ofNat (Decimal.ofDigits line)))

theorem firstWord_number (offset : Nat) (rest : List Char) :
    Text.firstWord ((Text.alignRight '0' 4 (toString offset)).toList ++ ' ' :: rest) =
      ((Text.alignRight '0' 4 (toString offset)).toList, ' ' :: rest) := by
  obtain ⟨hne, hblank, _⟩ := Decimal.toDigits_word offset
  have hnumber : (Text.alignRight '0' 4 (toString offset)).toList ≠ [] ∧
      ' ' ∉ (Text.alignRight '0' 4 (toString offset)).toList := by
    rw [Text.toList_alignRight, Decimal.toList_toString]
    simp [hne, hblank]
  generalize (Text.alignRight '0' 4 (toString offset)).toList = number at hnumber
  exact Text.firstWord_eq 0 hnumber.1 hnumber.2 (by simp)

theorem lineWord_word (line : Option UInt32) :
    lineWord line ≠ [] ∧ ' ' ∉ lineWord line ∧
      (if lineWord line = ['|'] then none
        else some (.ofNat (Decimal.ofDigits (lineWord line)))) = line := by
  cases line with
  | none => simp [lineWord]
  | some line =>
      obtain ⟨hne, hblank, hbar⟩ := Decimal.toDigits_word line.toNat
      refine ⟨hne, hblank, ?_⟩
      rw [lineWord, if_neg, Decimal.ofDigits_toDigits, UInt32.ofNat_toNat]
      intro heq
      simp [heq] at hbar

theorem firstWord_line {offset : Nat} {line : UInt32} (hline : chunk.line? offset = some line)
    (rest : List Char) :
    Text.firstWord (' ' :: (chunk.lineColumn offset).toList ++ ' ' :: rest) =
      (lineWord (chunk.shownLine? offset), ' ' :: rest) := by
  obtain ⟨width, hwidth⟩ := chunk.lineColumn_eq hline
  obtain ⟨hne, hblank, _⟩ := lineWord_word (chunk.shownLine? offset)
  rw [hwidth, ← List.cons_append, ← List.replicate_succ, List.append_assoc]
  exact Text.firstWord_eq _ hne hblank (by simp)

theorem firstWord_operation (instr : Instr) :
    ∃ rest, Text.firstWord (' ' :: (chunk.operation instr).toList) = (instr.mnemonic.toList, rest) ∧
      Decimal.ofDigits (Text.firstWord rest).1 = instr.operand?.getD 0 := by
  obtain ⟨hne, hblank, _⟩ := instr.mnemonic_word
  rcases chunk.operation_cases instr with ⟨hoperand, hoperation⟩ |
    ⟨operand, width, tail, hoperand, htail, hoperation⟩
  · refine ⟨[], ?_, by rw [hoperand]; rfl⟩
    rw [hoperation]
    simpa using @Text.firstWord_eq 1 _ [] hne hblank (by simp)
  · obtain ⟨hdigits, hdigits', _⟩ := Decimal.toDigits_word operand
    refine ⟨List.replicate (width + 1) ' ' ++ (Nat.toDigits 10 operand ++ tail), ?_, ?_⟩
    · rw [hoperation]
      exact Text.firstWord_eq 1 hne hblank (by simp [List.replicate_succ])
    · rw [Text.firstWord_eq _ hdigits hdigits' htail.head_eq, Decimal.ofDigits_toDigits, hoperand]
      rfl

/-- A line tells the instruction and, unless it is repeated, the line of the script. -/
theorem readLine_listingLine {offset : Nat} {line : UInt32} {instr : Instr}
    (hinstr : chunk.code[offset]? = some instr) (hline : chunk.line? offset = some line) :
    readLine (chunk.listingLine offset).toList = some (instr, chunk.shownLine? offset) := by
  obtain ⟨rest, hmnemonic, hoperand⟩ := chunk.firstWord_operation instr
  rw [listingLine_eq hinstr, List.cons_append]
  simp only [readLine, firstWord_number]
  rw [← List.cons_append]
  simp only [firstWord_line hline, hmnemonic, hoperand, String.ofList_toList,
    Instr.ofMnemonic?_mnemonic, (lineWord_word _).2.2, Option.map_some]

/-! ## Reading a listing -/

/-- What chunks of scripts have: a position for every instruction, and constants whose texts stay on
one line. -/
structure Listable (chunk : Chunk) : Prop where
  positions : chunk.positions.size = chunk.code.size
  texts : ∀ index value, chunk.pool.get? index = some value → '\n' ∉ value.text.toList

theorem IsRemark.newline_notMem {tail : List Char} (htail : chunk.IsRemark tail)
    (hlistable : chunk.Listable) : '\n' ∉ tail := by
  rcases htail with rfl | rfl | ⟨index, value, hvalue, rfl⟩
  · simp
  · simp
  · simp [hlistable.texts index value hvalue]

namespace Listable

variable (hlistable : chunk.Listable)

include hlistable

theorem exists_line {offset : Nat} (hlt : offset < chunk.code.size) :
    ∃ line, chunk.line? offset = some line := by
  rw [← hlistable.positions] at hlt
  exact ⟨_, congrArg (Option.map Pos.line) (Array.getElem?_eq_getElem hlt)⟩

theorem newline_notMem_operation (instr : Instr) : '\n' ∉ (chunk.operation instr).toList := by
  obtain ⟨_, _, hmnemonic⟩ := instr.mnemonic_word
  rcases chunk.operation_cases instr with ⟨_, hoperation⟩ |
    ⟨operand, width, tail, _, htail, hoperation⟩
  · rwa [hoperation]
  · simp [hoperation, hmnemonic, Decimal.newline_notMem_toDigits,
      htail.newline_notMem hlistable]

theorem newline_notMem_listingLine {offset : Nat} (hlt : offset < chunk.code.size) :
    '\n' ∉ (chunk.listingLine offset).toList := by
  obtain ⟨line, hline⟩ := hlistable.exists_line hlt
  obtain ⟨width, hwidth⟩ := chunk.lineColumn_eq hline
  have hword : '\n' ∉ lineWord (chunk.shownLine? offset) := by
    cases chunk.shownLine? offset with
    | none => decide
    | some line => exact Decimal.newline_notMem_toDigits line.toNat
  rw [listingLine_eq (Array.getElem?_eq_getElem hlt), hwidth, Text.toList_alignRight,
    Decimal.toList_toString]
  simp [hword, Decimal.newline_notMem_toDigits, hlistable.newline_notMem_operation]

end Listable

/-- The lines of a listing. -/
def listingLines (chunk : Chunk) : List String :=
  (List.range chunk.code.size).map chunk.listingLine

theorem listing_eq (chunk : Chunk) (label : String) :
    chunk.listing label =
      s!"== {label} ==\n" ++ String.join (chunk.listingLines.map (· ++ "\n")) := by
  unfold listing listingLines
  generalize s!"== {label} ==\n" = header
  induction List.range chunk.code.size generalizing header with
  | nil => simp
  | cons offset offsets ih =>
      rw [List.foldl_cons, ih, List.map_cons, List.map_cons, String.join_cons]
      simp only [String.append_assoc]

theorem Listable.newline_notMem_line (hlistable : chunk.Listable) :
    ∀ line ∈ chunk.listingLines, '\n' ∉ line.toList := by
  simp only [listingLines, List.forall_mem_map, List.mem_range]
  exact fun offset => hlistable.newline_notMem_listingLine

section Faithful

variable {other : Chunk}

theorem size_eq_of_listingLines_eq (hlines : chunk.listingLines = other.listingLines) :
    chunk.code.size = other.code.size := by
  simpa [listingLines] using congrArg List.length hlines

variable (hchunk : chunk.Listable) (hother : other.Listable)

include hchunk hother

theorem listingLines_eq_of_listing_eq {label : String}
    (heq : chunk.listing label = other.listing label) :
    chunk.listingLines = other.listingLines := by
  rw [listing_eq, listing_eq, String.append_right_inj, ← String.toList_inj, String.toList_join,
    String.toList_join] at heq
  have hlines : (chunk.listingLines.map String.toList).flatMap (· ++ ['\n']) =
      (other.listingLines.map String.toList).flatMap (· ++ ['\n']) := by
    simpa [List.flatMap_map] using heq
  have hmap := Text.lines_inj (by simpa using hchunk.newline_notMem_line)
    (by simpa using hother.newline_notMem_line) hlines
  exact List.map_injective_iff.mpr (fun _ _ => String.toList_inj.mp) hmap

variable (hlines : chunk.listingLines = other.listingLines) {offset : Nat}
  (hlt : offset < chunk.code.size)

include hlines hlt

theorem code_eq_of_listingLines_eq :
    chunk.code[offset]? = other.code[offset]? ∧
      chunk.shownLine? offset = other.shownLine? offset := by
  have hsize := size_eq_of_listingLines_eq hlines
  have hlt' : offset < other.code.size := hsize ▸ hlt
  have hsame : chunk.listingLine offset = other.listingLine offset := by
    rw [listingLines, listingLines, hsize, List.map_inj_left] at hlines
    exact hlines offset (List.mem_range.mpr hlt')
  obtain ⟨line, hline⟩ := hchunk.exists_line hlt
  obtain ⟨line', hline'⟩ := hother.exists_line hlt'
  have hinstr := Array.getElem?_eq_getElem hlt
  have hinstr' := Array.getElem?_eq_getElem hlt'
  have hread := readLine_listingLine hinstr hline
  rw [hsame, readLine_listingLine hinstr' hline'] at hread
  obtain ⟨hcode, hshown⟩ := Prod.mk.inj (Option.some.inj hread)
  exact ⟨by rw [hinstr, hinstr', hcode], hshown.symm⟩

/-- A bar stands for the line of the instruction before. -/
theorem line?_eq_of_previousLine?_eq
    (hprevious : chunk.previousLine? offset = other.previousLine? offset) :
    chunk.line? offset = other.line? offset := by
  have hsize := size_eq_of_listingLines_eq hlines
  obtain ⟨line, hline⟩ := hchunk.exists_line hlt
  obtain ⟨line', hline'⟩ := hother.exists_line (hsize ▸ hlt)
  have hshown := (code_eq_of_listingLines_eq hchunk hother hlines hlt).2
  rw [chunk.line?_eq_or hline, other.line?_eq_or hline', hprevious, hshown]

theorem line?_eq_of_listingLines_eq : chunk.line? offset = other.line? offset := by
  -- a run of bars goes back to a line that is shown, at the latest to that of the first instruction
  induction offset with
  | zero => exact line?_eq_of_previousLine?_eq hchunk hother hlines hlt rfl
  | succ offset ih =>
      exact line?_eq_of_previousLine?_eq hchunk hother hlines hlt (ih (Nat.lt_of_succ_lt hlt))

end Faithful

/-- A listing tells the instructions and the line that each of them comes from. -/
theorem Listable.eq_of_listing_eq {other : Chunk} (hchunk : chunk.Listable)
    (hother : other.Listable) {label : String} (heq : chunk.listing label = other.listing label) :
    chunk.code = other.code ∧ chunk.positions.map Pos.line = other.positions.map Pos.line := by
  have hlines := listingLines_eq_of_listing_eq hchunk hother heq
  have hsize := size_eq_of_listingLines_eq hlines
  constructor
  · apply Array.ext_getElem?
    intro offset
    by_cases hlt : offset < chunk.code.size
    · exact (code_eq_of_listingLines_eq hchunk hother hlines hlt).1
    · rw [Array.getElem?_eq_none (Nat.le_of_not_lt hlt),
        Array.getElem?_eq_none (hsize ▸ Nat.le_of_not_lt hlt)]
  · apply Array.ext_getElem?
    intro offset
    rw [Array.getElem?_map, Array.getElem?_map]
    by_cases hlt : offset < chunk.code.size
    · exact line?_eq_of_listingLines_eq hchunk hother hlines hlt
    · have hle := Nat.le_of_not_lt hlt
      rw [Array.getElem?_eq_none (hchunk.positions ▸ hle),
        Array.getElem?_eq_none (hother.positions ▸ hsize ▸ hle)]

end Chunk

/-- The chunk of a script can be listed. -/
theorem listable_of_compile {recovery : Bool} {source : String} {chunk : Chunk}
    (hcompile : compile recovery source = .ok chunk) : chunk.Listable := by
  refine ⟨?_, fun index value => newline_notMem_of_compile hcompile⟩
  obtain ⟨program, pool, _, _, _, rfl⟩ := compile_eq_ok_iff.mp hcompile
  simp [Program.lower, Chunk.ofCode]

/-- Listings are faithful: under one label, chunks of scripts with the same listing have the same
instructions, from the same lines. Behind its header a listing has one line for each instruction. -/
theorem listing_faithful {recovery recovery' : Bool} {source source' : String} {chunk other : Chunk}
    (hchunk : compile recovery source = .ok chunk) (hother : compile recovery' source' = .ok other)
    (label : String) :
    (chunk.listing label = other.listing label →
        chunk.code = other.code ∧ chunk.positions.map Pos.line = other.positions.map Pos.line) ∧
      chunk.positions.size = chunk.code.size ∧
      chunk.listing label =
        s!"== {label} ==\n" ++ String.join (chunk.listingLines.map (· ++ "\n")) ∧
      chunk.listingLines.length = chunk.code.size ∧
      ∀ line ∈ chunk.listingLines, '\n' ∉ line.toList := by
  have hlistable := listable_of_compile hchunk
  refine ⟨hlistable.eq_of_listing_eq (listable_of_compile hother), hlistable.positions,
    chunk.listing_eq label, ?_, hlistable.newline_notMem_line⟩
  rw [Chunk.listingLines, List.length_map, List.length_range]

/-- A string may look like the end of a line, and parentheses leave no trace in the code. -/
theorem listing_faithful_quoted :
    let source := "decl x = \"a' 0001\"\nprint((x))"
    let source' := "decl x = \"a' 0001\";\n\tprint(x);"
    ∃ chunk other,
      (compile false source = .ok chunk ∧ compile true source' = .ok other ∧ chunk ≠ other ∧
        chunk.listing "script" = other.listing "script") ∧
      chunk.code = other.code ∧ chunk.positions.map Pos.line = other.positions.map Pos.line := by
  intro source source'
  obtain ⟨chunk, hchunk⟩ := @exists_of_isOk_compile false source (by decide +kernel)
  obtain ⟨other, hother⟩ := @exists_of_isOk_compile true source' (by decide +kernel)
  have hne : (compile false source).toOption ≠ (compile true source').toOption := by
    decide +kernel
  have hlisting : (compile false source).toOption.map (·.listing "script") =
      (compile true source').toOption.map (·.listing "script") := by
    decide +kernel
  rw [hchunk, hother] at hne hlisting
  refine ⟨chunk, other, ⟨hchunk, hother, ?_, Option.some.inj hlisting⟩, ?_⟩
  · exact fun heq => hne (congrArg some heq)
  · exact (listing_faithful hchunk hother "script").1 (Option.some.inj hlisting)

end Scriptlet
