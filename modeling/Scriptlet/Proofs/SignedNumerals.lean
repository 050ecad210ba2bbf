import Scriptlet.Proofs.Arithmetic
import Scriptlet.Proofs.Footprint.Sessions
import Scriptlet.Proofs.Layout
import Scriptlet.Proofs.LongestMatch
import Scriptlet.Proofs.Truncation

/-! # Integers as scripts write them

A script that declares a variable with the text of an integer binds it to that integer. The minus
sign of the text is an operator, so what is read is the absolute value, and that of the least
integer is no integer. It is read as a float, and so the least integer comes back as a float.
-/

namespace Scriptlet

/-! ## Texts -/

theorem isDigit_of_mem_toDigits {k : Nat} {c : Char} (hc : c ∈ Nat.toDigits 10 k) :
    isDigit c = true := by
  have hdigit := Nat.isDigit_of_mem_toDigits (by decide) (by decide) hc
  simpa [isDigit, Char.isDigit, Char.le_def] using hdigit

theorem Decimal.ofDigits_toDigits (k : Nat) : ofDigits (Nat.toDigits 10 k) = k := by
  have hvalue := Nat.ofDigitChars_ten_toDigits (n := k)
  rwa [Nat.ofDigitChars_eq_foldl] at hvalue

theorem Value.ofNumeral_toDigits (k : Nat) :
    ofNumeral (Nat.toDigits 10 k) =
      if k < 2 ^ 63 then .int (Int64.ofNat k) else .float (Float.ofScientific k false 0) := by
  have hpoint : '.' ∉ Nat.toDigits 10 k :=
    fun hmem => absurd (isDigit_of_mem_toDigits hmem) (by decide)
  rw [ofNumeral_of_notMem hpoint, ← Decimal.ofDigits_eq_byPlaces, Decimal.ofDigits_toDigits]

/-- A numeral, with a minus sign in front or without. -/
def Decimal.signed (minus : Bool) (digits : List Char) : List Char :=
  if minus then '-' :: digits else digits

theorem Value.toList_text_int (n : Int64) :
    (int n).text.toList = Decimal.signed (n.toInt < 0) (Nat.toDigits 10 n.toInt.natAbs) := by
  change (toString n.toInt).toList = _
  cases n.toInt with
  | ofNat k | negSucc k => simp [Decimal.signed, toString, Int.repr]

/-- The value of a number with a minus sign in front or without. -/
def Value.withSign (minus : Bool) (value : Value) : Except ValueError Value :=
  if minus then value.negate else .ok value

/-- The value of the text of an integer. -/
theorem Value.withSign_toDigits (n : Int64) :
    withSign (n.toInt < 0) (ofNumeral (Nat.toDigits 10 n.toInt.natAbs)) =
      .ok (if n = Int64.minValue then .float (floatOfInt n) else .int n) := by
  rw [withSign, ofNumeral_toDigits]
  by_cases hleast : n = Int64.minValue
  · subst hleast
    rfl
  · have hrange := n.le_toInt
    have hmax := n.toInt_lt
    have hmin : n.toInt ≠ -2 ^ 63 := fun heq => hleast (Int64.toInt_inj.mp heq)
    have habs : (Int64.ofNat n.toInt.natAbs).toInt = n.toInt.natAbs :=
      Int64.toInt_ofNat_of_lt (by omega)
    have hfits : n.toInt.natAbs < 2 ^ 63 := by omega
    rw [if_pos hfits, if_neg hleast]
    by_cases hneg : n.toInt < 0
    · obtain ⟨r, hr, hnegate⟩ := (exact_negate (Int64.ofNat n.toInt.natAbs)).result (by omega)
        (by omega)
      have hrn : r = n := Int64.toInt_inj.mp (by omega)
      rw [if_pos (decide_eq_true hneg), hnegate, hrn]
    · have hrn : Int64.ofNat n.toInt.natAbs = n := Int64.toInt_inj.mp (by omega)
      rw [if_neg (by simpa using hneg), hrn]

/-- The characters of `decl x = <numeral>;`. -/
def declChars (minus : Bool) (digits : List Char) : List Char :=
  ['d', 'e', 'c', 'l'] ++ ([' '] ++ (['x'] ++ ([' '] ++ (['='] ++ ([' '] ++
    (Decimal.signed minus digits ++ [';']))))))

/-! ## Tokens -/

theorem Lexeme.spells_of_ofKeyword? {c : Char} {word : List Char} {next : Option Char}
    {kind : TokenKind}
    (hkind : (TokenKind.ofKeyword? (String.ofList (c :: word))).getD .identifier = kind)
    (hc : isLetter c = true) (hword : word.all isWordChar = true)
    (hnext : next.any isWordChar = false) : Spells (.ok kind) (c :: word) next :=
  hkind ▸ .word hc (List.all_eq_true.mp hword) hnext

/-- Behind a gap, a lexer hands out the lexeme that stands there. -/
theorem Lexer.Scans.exists_lexeme {lexer : Lexer} {tokens : List Token}
    (hscans : lexer.Scans tokens) {gap : List Char} (hgap : ∀ c ∈ gap, c = ' ') (text : List Char)
    {rest : List Char} (hrest : lexer.rest = gap ++ (text ++ rest)) {kind : TokenKind}
    (hspells : Lexeme.Spells (.ok kind) text rest.head?)
    (hstart : ∀ c ∈ text.head?, StartsToken c) :
    ∃ pos others, ∃ after : Lexer, tokens = ⟨kind, String.ofList text, pos⟩ :: others ∧
      after.Scans others ∧ after.rest = rest ∧ after.pending = kind.endsStatement := by
  obtain ⟨cs, pos, pending⟩ := lexer
  obtain rfl : cs = gap ++ (text ++ rest) := hrest
  have hline : pending = true → '\n' ∉ gap := fun _ => newline_not_mem_of_spaces hgap
  have hyields := @Yields.lexeme gap ⟨.ok kind, text, rest⟩ pos pending (gap_of_spaces hgap _)
    hline hstart hspells
  obtain ⟨others, rfl, hothers⟩ := hscans.exists_cons hyields.next_eq
    (hspells.kind_token_ne_eof _)
  exact ⟨_, others, _, rfl, hothers, rfl, rfl⟩

theorem Program.derives_decl {word name equal stop last : Token} {value : List Token} {e : Expr}
    (hword : word.kind = .kwDecl) (hname : name.kind = .identifier) (hequal : equal.kind = .equal)
    (hvalue : Expr.Derives .assign value e) (hstop : stop.kind = .semicolon)
    (hlast : last.kind = .eof) :
    Program.Derives (word :: name :: equal :: (value ++ [stop, last]))
      ⟨[.decl name.lexeme name.pos (some e) stop.pos], last.pos⟩ := by
  have hinitial : Expr.DerivesInitial (equal :: value) (some e) :=
    ⟨equal, value, rfl, hequal, hvalue⟩
  have hbody := Stmt.Derives.decl hword hname hinitial hstop .nil
  simpa using Program.Derives.intro hbody hlast

/-- The tree of a signed numeral. -/
def Expr.signed (minus : Bool) (value : Value) (pos : Pos) : Expr :=
  if minus then .unary .negate (.literal value pos) else .literal value pos

/-- The tree of a script that declares `x` as a signed numeral. -/
def Program.decl (minus : Bool) (value : Value) (name pos stop last : Pos) : Program :=
  ⟨[.decl "x" name (some (.signed minus value pos)) stop], last⟩

section Declaration

variable {digits : List Char} (hdigits : ∀ c ∈ digits, isDigit c = true) (hne : digits ≠ [])

include hdigits hne

theorem Lexer.Scans.exists_numeral {lexer : Lexer} {tokens : List Token}
    (hscans : lexer.Scans tokens) {gap : List Char} (hgap : ∀ c ∈ gap, c = ' ')
    (hrest : lexer.rest = gap ++ (digits ++ [';'])) :
    ∃ pos others, ∃ after : Lexer,
      tokens = ⟨.number, String.ofList digits, pos⟩ :: others ∧
      Expr.Derives .primary [⟨.number, String.ofList digits, pos⟩]
        (.literal (.ofNumeral digits) pos) ∧
      after.Scans others ∧ after.rest = [';'] := by
  have hstart : ∀ c ∈ digits.head?, StartsToken c := by
    intro c hc
    apply Lexeme.startsToken_of_isWordChar
    simp [isWordChar, hdigits c (List.mem_of_mem_head? hc)]
  have hspells : Lexeme.Spells (.ok .number) digits [';'].head? :=
    .number (.whole hdigits hne (by decide) (by decide)) (by decide)
  obtain ⟨pos, others, after, htokens, hothers, hafter, _⟩ :=
    hscans.exists_lexeme hgap digits hrest hspells hstart
  have hnumeral : Value.IsNumeral (String.ofList digits).toList (.ofNumeral digits) := by
    rw [String.toList_ofList, Value.isNumeral_iff]
  exact ⟨pos, others, after, htokens, .literal (.number rfl hnumeral), hothers, hafter⟩

theorem Lexer.Scans.exists_signed (minus : Bool) {lexer : Lexer} {tokens : List Token}
    (hscans : lexer.Scans tokens)
    (hrest : lexer.rest = [' '] ++ (Decimal.signed minus digits ++ [';'])) :
    ∃ pos value others, ∃ after : Lexer, tokens = value ++ others ∧
      Expr.Derives .assign value (.signed minus (.ofNumeral digits) pos) ∧
      after.Scans others ∧ after.rest = [';'] := by
  cases minus with
  | false =>
      obtain ⟨pos, others, after, rfl, hnumeral, hothers, hafter⟩ :=
        hscans.exists_numeral hdigits hne (by simp) hrest
      exact ⟨pos, _, others, after, rfl, hnumeral.weaken (by decide), hothers, hafter⟩
  | true =>
      obtain ⟨_, _, middle, rfl, hmiddle, hbetween, _⟩ :=
        hscans.exists_lexeme (by simp) ['-'] hrest (.single rfl)
          (by simp [StartsToken, isBlank])
      obtain ⟨pos, others, after, rfl, hnumeral, hothers, hafter⟩ :=
        hmiddle.exists_numeral hdigits hne (List.forall_mem_nil _) hbetween
      refine ⟨pos, [_, _], others, after, rfl, ?_, hothers, hafter⟩
      exact .weaken (by decide) (.unary List.mem_cons_self (hnumeral.weaken (by decide)))

theorem exists_derives_decl (minus : Bool) {source : String}
    (hsource : source.toList = declChars minus digits) :
    ∃ name pos stop last, Program.Derives (Token.ofSource source).toList
      (.decl minus (.ofNumeral digits) name pos stop last) := by
  have hscans := Token.scans_ofSource source
  generalize (Token.ofSource source).toList = tokens at hscans ⊢
  have hdecl : Lexeme.Spells (.ok .kwDecl) ['d', 'e', 'c', 'l'] (some ' ') :=
    Lexeme.spells_of_ofKeyword? (by decide) (by decide) (by decide) (by decide)
  have hname : Lexeme.Spells (.ok .identifier) ['x'] (some ' ') :=
    Lexeme.spells_of_ofKeyword? (by decide) (by decide) (by decide) (by decide)
  have hstart : ∀ c ∈ ['d', 'x', '=', ';'], Lexer.StartsToken c := by
    simp [Lexer.StartsToken, Lexer.isBlank]
  obtain ⟨_, tokens, after, rfl, hscans, hrest, _⟩ :=
    hscans.exists_lexeme (List.forall_mem_nil _) ['d', 'e', 'c', 'l'] hsource hdecl
      (by simp [hstart])
  obtain ⟨name, tokens, after, rfl, hscans, hrest, _⟩ :=
    hscans.exists_lexeme (by simp) ['x'] hrest hname (by simp [hstart])
  obtain ⟨_, tokens, after, rfl, hscans, hrest, _⟩ :=
    hscans.exists_lexeme (by simp) ['='] hrest (.short rfl (by simp)) (by simp [hstart])
  obtain ⟨pos, value, tokens, after, rfl, hvalue, hscans, hrest⟩ :=
    hscans.exists_signed hdigits hne minus hrest
  obtain ⟨stop, tokens, ⟨_, last, _⟩, rfl, hscans, rfl, rfl⟩ :=
    hscans.exists_lexeme (List.forall_mem_nil _) [';'] hrest (.single rfl) (by simp [hstart])
  rw [hscans.eq_closing]
  exact ⟨name, pos, stop, last, Program.derives_decl rfl rfl rfl hvalue rfl rfl⟩

end Declaration

/-! ## Code -/

theorem Value.isNumber_ofNumeral (numeral : List Char) : (ofNumeral numeral).IsNumber := by
  unfold ofNumeral
  dsimp only
  split
  · split
    · exact .inl rfl
    · exact .inr rfl
  · exact .inr rfl

/-- A number is pushed from the pool. -/
theorem Value.IsNumber.pooled_load {value : Value} (hvalue : value.IsNumber) :
    value.pooled = [value] ∧ ∀ pool : Pool, pool.load value = .constant (pool.index value) := by
  obtain ⟨n, rfl⟩ | ⟨x, rfl⟩ := hvalue.int_or_float
  · exact ⟨rfl, fun _ => rfl⟩
  · exact ⟨rfl, fun _ => rfl⟩

/-- The code that pushes a signed number from the pool. -/
def signedCode (minus : Bool) (index : Nat) : List Instr :=
  .constant index :: if minus then [.negate] else []

section Lowering

variable {value : Value} (hvalue : value.IsNumber) (minus : Bool) (name pos stop last : Pos)

include hvalue

theorem constants_decl :
    (Program.decl minus value name pos stop last).constants = [.str "x", value] := by
  cases minus <;> simp [Program.decl, Program.constants, Stmt.constantsAll, Stmt.constants,
    Expr.constantsOptional, Expr.signed, Expr.constants, hvalue.pooled_load.1]

theorem code_decl (pool : Pool) :
    ((Program.decl minus value name pos stop last).lower pool).code.toList =
      signedCode minus (pool.index value) ++ [.declGlobal (pool.index (.str "x")), .pop] ++
        [.halt] := by
  cases minus <;> simp [Program.decl, Program.lower, Program.code, Stmt.topCode, Expr.codeOrNil,
    Expr.signed, Expr.code, hvalue.pooled_load.2, signedCode, Chunk.ofCode, UnaryOp.instr]

omit hvalue in
theorem admissible_decl : (Program.decl minus value name pos stop last).Admissible := by
  refine ⟨?_, ?_, ?_⟩
  · cases minus <;> simp [Program.decl, Program.nesting, Stmt.nestingAll, Stmt.nesting,
      Expr.levels, Expr.signed, Expr.nesting, Parser.maxNesting]
  · simp [Program.decl, Program.WellScoped, Stmt.WellScopedAll, Stmt.WellScoped]
  · simp [Program.decl, Program.peak, Stmt.peakAll, Stmt.peak, Blocks.names, Blocks.declare,
      Blocks.after]

end Lowering

/-- The chunk of a script that declares `x` as a signed number. -/
def Chunk.Declares (chunk : Chunk) (minus : Bool) (value : Value) : Prop :=
  ∃ name index, chunk.pool.get? name = some (.str "x") ∧ chunk.pool.get? index = some value ∧
    chunk.code.toList = signedCode minus index ++ [.declGlobal name, .pop] ++ [.halt]

theorem exists_compile_decl {digits : List Char} (hdigits : ∀ c ∈ digits, isDigit c = true)
    (hne : digits ≠ []) (minus recovery : Bool) {source : String}
    (hsource : source.toList = declChars minus digits) :
    ∃ chunk, compile recovery source = .ok chunk ∧ chunk.Declares minus (.ofNumeral digits) := by
  obtain ⟨name, pos, stop, last, hderives⟩ := exists_derives_decl hdigits hne minus hsource
  have hnumber := Value.isNumber_ofNumeral digits
  have hcard : [Value.str "x", .ofNumeral digits].toFinset.card ≤ 65536 :=
    Nat.le_trans (List.toFinset_card_le _) (by simp)
  obtain ⟨pool, hpool⟩ := Pool.exists_addAll_empty_iff.mpr hcard
  have hholds := Pool.holds_of_addAll hpool
  rw [← constants_decl hnumber minus name pos stop last] at hpool
  refine ⟨_, compile_eq_ok_iff.mpr ⟨_, pool, hderives, admissible_decl .., hpool, rfl⟩,
    _, _, ?_, ?_, code_decl hnumber minus name pos stop last pool⟩
  · exact Pool.get?_index (hholds _ (by simp))
  · exact Pool.get?_index (hholds _ (by simp))

/-! ## Runs -/

namespace Machine

variable {m : Machine} {pool : Pool}

theorem constant_of_get? {index : Nat} {value : Value} (hvalue : pool.get? index = some value)
    (m : Machine) : constant pool index m = .ok value m := by
  simp only [constant, hvalue]
  rfl

theorem peek_topped (m : Machine) (value : Value) :
    peek 0 (m.topped value) = .ok value (m.topped value) := by
  simp [peek, topped, Stack.peek, Stack.get]

theorem perform_signedCode (hroom : m.stack.depth < m.stack.limit) {index : Nat}
    {value result : Value} {minus : Bool} (hvalue : pool.get? index = some value)
    (hresult : value.withSign minus = .ok result) :
    perform pool (signedCode minus index) m = .ok () (m.topped result) := by
  have hpush : step pool (.constant index) m = .ok () (m.topped value) := by
    simp only [step, bind, EStateM.bind, constant_of_get? hvalue]
    exact push_of_room hroom value
  cases minus with
  | false =>
      obtain rfl : value = result := Except.ok.inj hresult
      rw [signedCode, if_neg (by decide), perform_singleton, hpush]
  | true =>
      have hnegate : step pool .negate (m.topped value) = .ok () (m.topped result) := by
        have hvalue : value.negate = .ok result := hresult
        simp only [step, unary, bind, EStateM.bind, pop_topped, hvalue]
        exact push_of_room hroom result
      rw [signedCode, if_pos rfl, perform_cons, perform_singleton]
      simp only [bind, EStateM.bind, hpush, hnegate]

theorem step_declGlobal {index : Nat} {name : String} (hname : pool.get? index = some (.str name))
    (hfree : m.globals.get? name = none) (value : Value) :
    step pool (.declGlobal index) (m.topped value) =
      .ok () (topped { m with globals := m.globals.declare name value } value) := by
  have hget : global? name (m.topped value) = .ok none (m.topped value) := by
    rw [global?, show (m.topped value).globals = m.globals from rfl, hfree]
  simp only [step, globalName, bind, EStateM.bind, constant_of_get? hname, pure, EStateM.pure, hget,
    peek_topped]
  rfl

/-- The run binds the variable. -/
theorem run_of_declares (hlimit : 1 ≤ m.stack.limit) (hfree : m.globals.get? "x" = none)
    {chunk : Chunk} {minus : Bool} {value result : Value} (hchunk : chunk.Declares minus value)
    (hresult : value.withSign minus = .ok result) :
    m.run chunk =
      (.ok (), { m with stack := m.stack.clear, globals := m.globals.declare "x" result }) := by
  obtain ⟨name, index, hname, hvalue, hcode⟩ := hchunk
  have hperform : perform chunk.pool (signedCode minus index ++ [.declGlobal name, .pop])
      { m with stack := m.stack.clear } =
      .ok () { m with stack := m.stack.clear, globals := m.globals.declare "x" result } := by
    have hroom : m.stack.clear.depth < m.stack.clear.limit := hlimit
    have hsigned := perform_signedCode (m := { m with stack := m.stack.clear }) hroom hvalue hresult
    have hdecl := step_declGlobal (m := { m with stack := m.stack.clear }) hname hfree result
    rw [perform_append, perform_cons, perform_singleton]
    simp only [bind, EStateM.bind, hsigned, hdecl]
    simp only [step, bind, EStateM.bind, pop_topped]
    rfl
  have hrun := run_eq chunk hcode (by cases minus <;> simp [signedCode]) m
  rwa [hperform] at hrun

end Machine

/-! ## Reading back -/

namespace Session

variable {session : Session}

/-- A script that declares a new global as a signed numeral. -/
theorem exists_interpret_decl (hdepth : 1 ≤ session.machine.stack.limit)
    (hfree : session.global? "x" = none) {digits : List Char}
    (hdigits : ∀ c ∈ digits, isDigit c = true) (hne : digits ≠ []) {minus : Bool} {source : String}
    (hsource : source.toList = declChars minus digits)
    (hroom : session.config.listing = true → ∀ chunk,
      compile session.config.recovery source = .ok chunk →
      (session.announced chunk).HasRoom session.machine.sink.limit) {result : Value}
    (hresult : (Value.ofNumeral digits).withSign minus = .ok result) :
    ∃ next : Session, session.interpret source = (.ok, next) ∧ next.lastFailure = none ∧
      next.global? "x" = some result := by
  obtain ⟨chunk, hcompile, hchunk⟩ :=
    exists_compile_decl hdigits hne minus session.config.recovery hsource
  have hrun := Machine.run_of_declares (m := session.announced chunk) hdepth hfree hchunk hresult
  have hinterpret : session.interpret source = (.ok, ⟨session.config,
      { session.announced chunk with
        stack := session.machine.stack.clear
        globals := session.machine.globals.declare "x" result },
      none⟩) := by
    have hannounce := announce_eq fun hlisting => hroom hlisting chunk hcompile
    simp only [interpret, attempt, hcompile, hannounce, run, hrun]
    rfl
  exact ⟨_, hinterpret, rfl, rfl⟩

end Session

/-- The script that declares `x` with the text of an integer. -/
def declScript (n : Int64) : String :=
  "decl x = " ++ (Value.int n).text ++ ";"

theorem exists_interpret_declScript {config : Config} {outputLimit : Option Nat}
    (hdepth : 1 ≤ config.stackLimit) (n : Int64)
    (hlisting : config.listing = true → ∀ chunk limit,
      compile config.recovery (declScript n) = .ok chunk → outputLimit = some limit →
      (chunk.listing "script").toUTF8.size ≤ limit) :
    ∃ session : Session,
      (Session.init config outputLimit).interpret (declScript n) = (.ok, session) ∧
      session.lastFailure = none ∧
      session.global? "x" =
        some (if n = Int64.minValue then .float (Value.floatOfInt n) else .int n) := by
  refine Session.exists_interpret_decl hdepth rfl (fun c => isDigit_of_mem_toDigits)
    Nat.toDigits_ne_nil ?_ ?_ (Value.withSign_toDigits n)
  · simp [declScript, declChars, Value.toList_text_int]
  · intro hlists chunk hcompile limit hlimit
    have hsize := hlisting hlists chunk limit hcompile hlimit
    have hbytes : Session.preamble config chunk = (chunk.listing "script").toUTF8 := if_pos hlists
    change (ByteArray.empty ++ Session.preamble config chunk).size ≤ limit
    rwa [hbytes, ByteArray.empty_append]

/-- An integer is read back. A new session that is given `decl x = <integer>;` binds `x` to the
integer, with every stack and whether or not the code is listed, as long as a listing fits the sink.
The one exception is the least integer, for which `x` is the float of the same value. -/
theorem integers_read_back {config : Config} {outputLimit : Option Nat}
    (hdepth : 1 ≤ config.stackLimit) (n : Int64)
    (hlisting : config.listing = true → ∀ chunk limit,
      compile config.recovery ("decl x = " ++ (Value.int n).text ++ ";") = .ok chunk →
      outputLimit = some limit → (chunk.listing "script").toUTF8.size ≤ limit) :
    ∃ session : Session,
      (Session.init config outputLimit).interpret ("decl x = " ++ (Value.int n).text ++ ";") =
        (.ok, session) ∧
      session.lastFailure = none ∧
      (n ≠ Int64.minValue → session.global? "x" = some (.int n)) ∧
      (n = Int64.minValue → session.global? "x" = some (.float (Value.floatOfInt n))) := by
  obtain ⟨session, hinterpret, hfailure, hx⟩ := exists_interpret_declScript hdepth n hlisting
  refine ⟨session, hinterpret, hfailure, fun hn => ?_, fun hn => ?_⟩
  · rw [hx, if_neg hn]
  · rw [hx, if_pos hn]

/-- The integer next to the exception, on a stack with room for one value and with a sink that takes
the listing and no byte more. -/
theorem integers_read_back_next :
    let config : Config := ⟨1, false, true⟩
    let script := "decl x = " ++ (Value.int (-9223372036854775807)).text ++ ";"
    script = "decl x = -9223372036854775807;" ∧
    (compile config.recovery script).toOption.map (fun chunk =>
      (chunk.listing "script").toUTF8.size) = some 151 ∧
    ∃ session : Session,
      (Session.init config (some 151)).interpret script = (.ok, session) ∧
      session.global? "x" = some (.int (-9223372036854775807)) := by
  intro config script
  have hsize : (compile config.recovery script).toOption.map (fun chunk =>
      (chunk.listing "script").toUTF8.size) = some 151 := by decide +kernel
  have hfits : config.listing = true → ∀ chunk limit, compile config.recovery script = .ok chunk →
      some 151 = some limit → (chunk.listing "script").toUTF8.size ≤ limit := by
    rintro _ chunk _ hcompile ⟨⟩
    rw [hcompile] at hsize
    exact Nat.le_of_eq (Option.some.inj hsize)
  obtain ⟨session, hinterpret, _, hx, _⟩ :=
    integers_read_back (by decide) (-9223372036854775807) hfits
  exact ⟨by decide, hsize, session, hinterpret, hx (by decide)⟩

/-- The least integer is not read back as an integer. -/
theorem least_integer_not_read_back :
    (Value.int Int64.minValue).text = "-9223372036854775808" ∧
    ¬∃ session : Session,
      (Session.init .default none).interpret "decl x = -9223372036854775808;" = (.ok, session) ∧
      session.global? "x" = some (.int Int64.minValue) := by
  have htext : (Value.int Int64.minValue).text = "-9223372036854775808" := by decide
  refine ⟨htext, ?_⟩
  rintro ⟨session, hinterpret, hint⟩
  have hdepth : 1 ≤ Config.default.stackLimit := by decide
  obtain ⟨other, hother, _, hfloat⟩ :=
    @exists_interpret_declScript .default none hdepth Int64.minValue (by simp)
  rw [declScript, htext] at hother
  obtain rfl : session = other := congrArg Prod.snd (hinterpret.symm.trans hother)
  rw [hint] at hfloat
  cases hfloat

end Scriptlet
