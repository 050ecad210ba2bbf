import Scriptlet.Proofs.Reading.Progress

/-! # Reading expressions

The reader of expressions takes exactly what the grammar derives. Its tables of operators and its
readings of literals agree with the grammar's. It finds every derivable expression that is not
nested too deeply and whose names can be used, and if it reports nothing then the tokens it has
taken form the expression it returns.
-/

namespace Scriptlet

/-! ## The tables of the reader -/

namespace Expr

/-- The precedence with which the reader reads a level. -/
def Level.precedence : Level → Precedence
  | .assign => .assign
  | .equality => .equality
  | .comparison => .comparison
  | .term => .term
  | .factor => .factor
  | .unary => .unary
  | .primary => .primary

/-- The reader takes the operators of a level for such, with the precedence of the level. What may
stand on their right has the precedence of the next level. -/
theorem Level.binaryOp?_of_mem {level : Level} : ∀ entry ∈ level.operators,
    entry.1.binaryOp? = some entry.2 ∧ entry.2.precedence = level.precedence ∧
      entry.2.precedence.next = level.next.precedence := by
  cases level <;> decide

/-- The reader takes no other tokens for operators. -/
theorem Level.exists_of_binaryOp? {kind : TokenKind} {op : BinaryOp}
    (hop : kind.binaryOp? = some op) : ∃ level : Level, (kind, op) ∈ level.operators := by
  revert hop
  cases kind with
  | equalEqual | bangEqual => rintro ⟨⟩; exact ⟨.equality, by decide⟩
  | less | lessEqual | greater | greaterEqual => rintro ⟨⟩; exact ⟨.comparison, by decide⟩
  | plus | minus => rintro ⟨⟩; exact ⟨.term, by decide⟩
  | star | slash => rintro ⟨⟩; exact ⟨.factor, by decide⟩
  | _ => intro hop; contradiction

theorem Level.rank_precedence_le_iff {weak strong : Level} :
    weak.precedence.rank ≤ strong.precedence.rank ↔ weak.rank ≤ strong.rank := by
  cases weak <;> cases strong <;> decide

theorem Level.rank_precedence_le_next (level : Level) :
    level.precedence.rank ≤ level.next.precedence.rank := by
  cases level <;> decide

end Expr

/-- Whether digits are counted from the left or by their places makes no difference. -/
theorem Decimal.ofDigits_eq_byPlaces (digits : List Char) : ofDigits digits = byPlaces digits := by
  have hfrom : ∀ n, digits.foldl (fun n c => 10 * n + (c.toNat - '0'.toNat)) n =
      n * 10 ^ digits.length + byPlaces digits := by
    induction digits with
    | nil => simp [byPlaces]
    | cons digit rest ih =>
        intro n
        rw [List.foldl_cons, ih, byPlaces, List.length_cons, Nat.pow_succ]
        ring
  rw [ofDigits, hfrom, Nat.zero_mul, Nat.zero_add]

namespace Value

theorem ne_point_of_notMem {digits : List Char} (hpoint : '.' ∉ digits) :
    ∀ c ∈ digits, decide (c ≠ '.') = true := by
  intro c hc
  exact decide_eq_true fun heq => hpoint (heq ▸ hc)

theorem ofNumeral_of_notMem {digits : List Char} (hpoint : '.' ∉ digits) :
    ofNumeral digits =
      if Decimal.byPlaces digits < 2 ^ 63 then .int (.ofNat (Decimal.byPlaces digits))
      else .float (.ofScientific (Decimal.byPlaces digits) false 0) := by
  have hall := ne_point_of_notMem hpoint
  have hmax : ∀ n, n ≤ Int64.maxValue.toInt.toNat ↔ n < 2 ^ 63 := fun n => Nat.lt_succ_iff.symm
  simp only [ofNumeral, List.takeWhile_eq_self_iff.mpr hall, List.dropWhile_eq_nil_iff.mpr hall,
    Decimal.ofDigits_eq_byPlaces, hmax]

theorem ofNumeral_append {whole fraction : List Char} (hpoint : '.' ∉ whole) :
    ofNumeral (whole ++ '.' :: fraction) =
      .float (.ofScientific (Decimal.byPlaces (whole ++ fraction)) true fraction.length) := by
  have hall := ne_point_of_notMem hpoint
  have htake : (whole ++ '.' :: fraction).takeWhile (· ≠ '.') = whole := by
    rw [List.takeWhile_append_of_pos hall]
    simp
  have hdrop : (whole ++ '.' :: fraction).dropWhile (· ≠ '.') = '.' :: fraction := by
    rw [List.dropWhile_append_of_pos hall]
    simp
  rw [ofNumeral, hdrop, htake, ← Decimal.ofDigits_eq_byPlaces]

/-- The reader takes a numeral for its value. -/
theorem isNumeral_iff {numeral : List Char} {value : Value} :
    IsNumeral numeral value ↔ ofNumeral numeral = value := by
  constructor
  · intro hvalue
    cases hvalue with
    | int hpoint hfits => rw [ofNumeral_of_notMem hpoint, if_pos hfits]
    | large hpoint hlarge => rw [ofNumeral_of_notMem hpoint, if_neg (Nat.not_lt_of_le hlarge)]
    | fraction hpoint => rw [ofNumeral_append hpoint]
  · rintro rfl
    by_cases hpoint : '.' ∈ numeral
    · obtain ⟨whole, fraction, rfl, hwhole⟩ := List.eq_append_cons_of_mem hpoint
      rw [ofNumeral_append hwhole]
      exact .fraction hwhole
    · rw [ofNumeral_of_notMem hpoint]
      split
      next hfits => exact .int hpoint hfits
      next hlarge => exact .large hpoint (Nat.le_of_not_lt hlarge)

end Value

/-- The reader takes for the text of a string what stands between the quotes. -/
theorem Parser.toList_unquote (lexeme : String) :
    (unquote lexeme).toList = (lexeme.toList.take (lexeme.length - 1)).drop 1 := by
  rw [unquote, String.toList_ofList, ← String.length_toList, ← List.dropLast_eq_take, List.drop_one,
    List.tail_dropLast]

/-- The value for which the reader takes a token. -/
def Token.literal? (token : Token) : Option Value :=
  match token.kind with
  | .number => some (.ofNumeral token.lexeme.toList)
  | .string => some (.str (Parser.unquote token.lexeme))
  | .kwTrue => some (.bool true)
  | .kwFalse => some (.bool false)
  | .kwNil => some .nil
  | _ => none

/-- The reader takes a token for the value that it denotes. -/
theorem Token.denotes_iff {token : Token} {value : Value} :
    token.Denotes value ↔ token.literal? = some value := by
  constructor
  · intro hvalue
    unfold literal?
    cases hvalue with
    | number hkind hvalue => rw [hkind, Value.isNumeral_iff.mp hvalue]
    | string hkind htext =>
        rw [← Parser.toList_unquote] at htext
        rw [hkind, String.toList_inj.mp htext]
    | true hkind | false hkind | nil hkind => rw [hkind]
  · intro hvalue
    unfold literal? at hvalue
    split at hvalue
    next hkind => exact .number hkind (Value.isNumeral_iff.mpr (Option.some.inj hvalue))
    next hkind =>
      obtain rfl := Option.some.inj hvalue
      exact .string hkind (Parser.toList_unquote _)
    next hkind =>
      obtain rfl := Option.some.inj hvalue
      exact .true hkind
    next hkind =>
      obtain rfl := Option.some.inj hvalue
      exact .false hkind
    next hkind =>
      obtain rfl := Option.some.inj hvalue
      exact .nil hkind
    next => contradiction

namespace Parser

/-- A token that cannot go on with an expression of a level. -/
def Stops (level : Precedence) (token : Token) : Prop :=
  token.kind.precedence.rank < level.rank ∧
    (level.rank ≤ Precedence.assign.rank → token.kind ≠ .equal)

/-- Every name of the expression can be used. -/
def Usable (scope : Scope) (e : Expr) : Prop :=
  ∀ name ∈ e.names, scope.resolve name ≠ .uninitialized

/-! ## Precedence of tokens -/

theorem precedence_eq_of_binaryOp? {kind : TokenKind} {op : BinaryOp}
    (hop : kind.binaryOp? = some op) : kind.precedence = op.precedence := by
  simp [TokenKind.precedence, hop]

/-- Only binary operators go on with an expression; they bind more tightly than assignment and less
tightly than a prefix. -/
theorem rank_precedence_cases (kind : TokenKind) :
    kind.precedence.rank = 0 ∨
      (Precedence.assign.rank < kind.precedence.rank ∧
        kind.precedence.rank < Precedence.unary.rank) := by
  cases kind <;> decide

theorem rank_precedence_lt_unary (kind : TokenKind) :
    kind.precedence.rank < Precedence.unary.rank := by
  cases kind <;> decide

theorem kind_ne_of_binaryOp? {kind : TokenKind} {op : BinaryOp}
    (hop : kind.binaryOp? = some op) : kind ≠ .equal ∧ kind ≠ .error := by
  constructor <;> rintro rfl <;> simp [TokenKind.binaryOp?] at hop

theorem rank_next_precedence (op : BinaryOp) :
    Precedence.assign.rank < op.precedence.rank ∧
      op.precedence.next.rank = op.precedence.rank + 1 ∧
      op.precedence.next.rank ≤ Precedence.unary.rank := by
  cases op <;> decide

/-! ## Completeness -/

/-- Reading from `p` for operators from `least` on gets to having read `e` at `p'`, with rounds left
for all the operators that may follow. -/
def Reaches (levels : Nat) (least : Precedence) (p : Parser) (e : Expr) (p' : Parser) : Prop :=
  ∃ left p₁ rounds,
    p.advance.operand? (expression levels) (decide (least ≤ .assign)) = some (left, p₁) ∧
      operators (expression levels) least p₁.rest left p₁ =
        operators (expression levels) least rounds e p' ∧
      p'.rest.length ≤ rounds.length

theorem Reaches.of_operand {levels : Nat} {least : Precedence} {p p' : Parser} {e : Expr}
    (hoperand : p.advance.operand? (expression levels) (decide (least ≤ .assign)) =
      some (e, p')) : Reaches levels least p e p' :=
  ⟨e, p', p'.rest, hoperand, rfl, Nat.le_refl _⟩

theorem operators_eq_of_rank_lt (read : ExprReader) {least : Precedence} (rounds : List Token)
    (left : Expr) {p : Parser} (hrank : p.current.kind.precedence.rank < least.rank) :
    operators read least rounds left p = (left, p) := by
  cases rounds with
  | nil => rfl
  | cons _ rounds =>
      rw [operators]
      split
      next => rfl
      next op hop =>
        rw [precedence_eq_of_binaryOp? hop] at hrank
        have hle : ¬ least ≤ op.precedence := Nat.not_le_of_lt hrank
        rw [if_neg hle]

theorem Reaches.expression_eq {levels : Nat} {least : Precedence} {p p' : Parser} {e : Expr}
    (hreaches : Reaches levels least p e p') (hstops : Stops least p'.current) :
    expression (levels + 1) least p = (e, p') := by
  obtain ⟨left, p₁, rounds, hoperand, hoperators, _⟩ := hreaches
  have hequal : ¬(decide (least ≤ .assign) && p'.sees .equal) = true := by
    rw [Bool.and_eq_true, decide_eq_true_iff]
    rintro ⟨hle, hsees⟩
    exact hstops.2 hle (eq_of_beq hsees)
  rw [expression]
  simp only [hoperand, hoperators, operators_eq_of_rank_lt _ _ _ hstops.1]
  rw [if_neg hequal]

/-- Whatever may follow it, the reader gets to an expression that the grammar derives. -/
def Reachable (level : Precedence) (tokens : List Token) (e : Expr) : Prop :=
  ∀ (levels : Nat) (least : Precedence) (p : Parser) (next : Token) (rest : List Token),
    least.rank ≤ level.rank → e.nesting ≤ levels → Usable p.scope e →
    p.upcoming = tokens ++ next :: rest → next.kind ≠ .error →
    next.kind.precedence.rank ≤ level.rank →
    (least.rank ≤ Precedence.assign.rank → next.kind ≠ .equal) →
    ∃ p', Reaches levels least p e p' ∧ Reads p tokens (e.constants p.scope.names) p.scope p'

theorem Reachable.exists_expression_eq {level : Precedence} {tokens : List Token} {e : Expr}
    (he : Reachable level tokens e) {levels : Nat} {p : Parser} {next : Token} {rest : List Token}
    (hlevels : e.nesting < levels) (husable : Usable p.scope e)
    (hupcoming : p.upcoming = tokens ++ next :: rest) (hnext : next.kind ≠ .error)
    (hstops : Stops level next) :
    ∃ p', expression levels level p = (e, p') ∧
      Reads p tokens (e.constants p.scope.names) p.scope p' := by
  obtain ⟨levels, rfl⟩ := Nat.exists_eq_add_of_lt hlevels
  obtain ⟨p', hreaches, hreads⟩ := he (e.nesting + levels) level p next rest (Nat.le_refl _)
    (Nat.le_add_right _ _) husable hupcoming hnext (Nat.le_of_lt hstops.1) hstops.2
  have hcurrent : p'.current = next := (List.cons.inj (hreads.upcoming_eq hupcoming)).1
  exact ⟨p', hreaches.expression_eq (hcurrent ▸ hstops), hreads⟩

/-! ### The forms of expressions -/

theorem stops_assign {token : Token}
    (hrank : token.kind.precedence.rank ≤ Precedence.assign.rank) (hequal : token.kind ≠ .equal) :
    Stops .assign token := by
  refine ⟨?_, fun _ => hequal⟩
  rcases rank_precedence_cases token.kind with hzero | ⟨hlt, _⟩
  · rw [hzero]
    decide
  · exact absurd hlt (Nat.not_lt_of_le hrank)

theorem operand?_identifier (read : ExprReader) (assignable : Bool) {p : Parser}
    (hkind : p.previous.kind = .identifier) :
    p.operand? read assignable = some (p.named read assignable) := by
  simp [operand?, hkind]

theorem operand?_leftParen (read : ExprReader) (assignable : Bool) {p : Parser}
    (hkind : p.previous.kind = .leftParen) :
    p.operand? read assignable = some (p.group read) := by
  simp [operand?, hkind]

theorem operand?_unary (read : ExprReader) (assignable : Bool) {p : Parser} {op : UnaryOp}
    (hop : (p.previous.kind, op) ∈ Expr.signs) :
    p.operand? read assignable = some (p.unary read op) := by
  unfold operand?
  simp only [Expr.signs, List.mem_cons, Prod.mk.injEq, List.not_mem_nil, or_false] at hop
  obtain ⟨hkind, rfl⟩ | ⟨hkind, rfl⟩ := hop <;> rw [hkind]

/-- Every numeral is kept as a constant. -/
theorem pooled_ofNumeral (numeral : List Char) :
    (Value.ofNumeral numeral).pooled = [Value.ofNumeral numeral] := by
  unfold Value.ofNumeral
  split
  · dsimp only
    split <;> rfl
  · rfl

theorem constant_eq (p : Parser) (value : Value) :
    p.constant value = (.literal value p.previous.pos, p.intern value) := by
  rw [constant, literal, (reads_intern p value).previous]
  rfl

theorem operand?_literal (read : ExprReader) (assignable : Bool) {p : Parser} {value : Value}
    (hvalue : p.previous.literal? = some value) :
    ∃ p', p.operand? read assignable = some (.literal value p.previous.pos, p') ∧
      Reads p [] value.pooled p.scope p' := by
  unfold Token.literal? at hvalue
  unfold operand?
  split at hvalue
  next hkind =>
    obtain rfl := Option.some.inj hvalue
    rw [hkind, pooled_ofNumeral]
    exact ⟨_, congrArg some (constant_eq p _), reads_intern p _⟩
  next hkind =>
    obtain rfl := Option.some.inj hvalue
    rw [hkind]
    exact ⟨_, congrArg some (constant_eq p _), reads_intern p _⟩
  next hkind =>
    obtain rfl := Option.some.inj hvalue
    rw [hkind]
    exact ⟨p, rfl, .refl p⟩
  next hkind =>
    obtain rfl := Option.some.inj hvalue
    rw [hkind]
    exact ⟨p, rfl, .refl p⟩
  next hkind =>
    obtain rfl := Option.some.inj hvalue
    rw [hkind]
    exact ⟨p, rfl, .refl p⟩
  next => contradiction

section Cases

variable {tokens : List Token} {e : Expr}

theorem Reachable.weaken {weak strong : Precedence} (hle : weak.rank ≤ strong.rank)
    (he : Reachable strong tokens e) : Reachable weak tokens e := by
  intro levels least p next rest hleast hnesting husable hupcoming hnext hrank hequal
  exact he levels least p next rest (Nat.le_trans hleast hle) hnesting husable hupcoming hnext
    (Nat.le_trans hrank hle) hequal

/-- After a name that can be used, the reader looks for an equals sign. -/
theorem named_eq (read : ExprReader) (assignable : Bool) {p : Parser}
    (husable : p.scope.resolve p.previous.lexeme ≠ .uninitialized) :
    ∃ p', Reads p [] (Blocks.pooledName p.scope.names p.previous.lexeme) p.scope p' ∧
      p.named read assignable =
        if assignable && p'.sees .equal then
          (.assign p.previous.lexeme (read .assign p'.advance).1, (read .assign p'.advance).2)
        else (.var p.previous.lexeme p.previous.pos, p') := by
  by_cases hglobal : p.scope.resolve p.previous.lexeme = .global
  · rw [Blocks.pooledName, if_neg ((p.scope.resolve_eq_global_iff _).mp hglobal)]
    refine ⟨p.intern (.str p.previous.lexeme), reads_intern p _, ?_⟩
    simp only [named, if_neg husable, if_pos hglobal]
  · have hlocal := mt (p.scope.resolve_eq_global_iff p.previous.lexeme).mpr hglobal
    rw [Blocks.pooledName, if_pos (not_not.mp hlocal)]
    refine ⟨p, .refl p, ?_⟩
    simp only [named, if_neg husable, if_neg hglobal]

theorem Reachable.assign {name equal : Token} (hname : name.kind = .identifier)
    (hequal : equal.kind = .equal) (hhead : ∀ rest, Readable (tokens ++ rest))
    (he : Reachable .assign tokens e) :
    Reachable .assign (name :: equal :: tokens) (.assign name.lexeme e) := by
  intro levels least p next rest hleast hnesting husable hupcoming hnext hrank hnotEqual
  have htaken := reads_advance hupcoming (readable_cons _ (by simp [hequal]))
  have hprevious : p.advance.previous = name := htaken.previous
  obtain ⟨p₁, hp₁, hnamed⟩ := named_eq (p := p.advance) (expression levels) true
    (by rw [hprevious, htaken.scope]; exact husable _ List.mem_cons_self)
  have hbefore := htaken.trans hp₁
  have hafter : p₁.upcoming = equal :: (tokens ++ next :: rest) :=
    hbefore.upcoming_eq (by simpa using hupcoming)
  have hsign := hbefore.trans (reads_advance hafter (hhead _))
  have hscope : p₁.advance.scope = p.scope := by rw [hsign.scope, hbefore.scope, htaken.scope]
  have hvalue : Usable p₁.advance.scope e := by
    rw [hscope]
    exact fun other hother => husable other (List.mem_cons_of_mem _ hother)
  obtain ⟨p', hread, hreads⟩ := he.exists_expression_eq hnesting hvalue
    (hsign.upcoming_eq (by simpa using hupcoming)) hnext (stops_assign hrank (hnotEqual hleast))
  have hassignable : decide (least ≤ .assign) = true := decide_eq_true hleast
  have hsees : p₁.sees .equal = true := by
    rw [sees, (List.cons.inj hafter).1, hequal]
    rfl
  refine ⟨p', .of_operand ?_, ?_⟩
  · rw [operand?_identifier _ _ (hprevious ▸ hname), hassignable, hnamed]
    simp [hsees, hread, hprevious]
  · simpa [Expr.constants, hscope, hprevious, htaken.scope] using hsign.trans hreads

theorem Reachable.var {name : Token} (hname : name.kind = .identifier) :
    Reachable .primary [name] (.var name.lexeme name.pos) := by
  intro levels least p next rest hleast hnesting husable hupcoming hnext hrank hnotEqual
  have htaken := reads_advance hupcoming (readable_cons _ hnext)
  have hprevious : p.advance.previous = name := htaken.previous
  obtain ⟨p', hp', hnamed⟩ := named_eq (p := p.advance) (expression levels)
    (decide (least ≤ .assign)) (by rw [hprevious, htaken.scope]; exact husable _ List.mem_cons_self)
  have hreads := htaken.trans hp'
  have hcurrent : p'.current = next := (List.cons.inj (hreads.upcoming_eq hupcoming)).1
  have hsees : ¬(decide (least ≤ .assign) && p'.sees .equal) = true := by
    rw [Bool.and_eq_true, decide_eq_true_iff]
    rintro ⟨hle, hsees⟩
    exact hnotEqual hle (hcurrent ▸ eq_of_beq hsees)
  refine ⟨p', .of_operand ?_, ?_⟩
  · rw [operand?_identifier _ _ (hprevious ▸ hname), hnamed, if_neg hsees, hprevious]
  · simpa [Expr.constants, hprevious, htaken.scope] using hreads

theorem Reachable.literal {token : Token} {value : Value} (hvalue : token.literal? = some value) :
    Reachable .primary [token] (.literal value token.pos) := by
  intro levels least p next rest hleast hnesting husable hupcoming hnext hrank hnotEqual
  have htaken := reads_advance hupcoming (readable_cons _ hnext)
  have hprevious : p.advance.previous = token := htaken.previous
  obtain ⟨p', hoperand, hreads⟩ := operand?_literal (p := p.advance) (expression levels)
    (decide (least ≤ .assign)) (hprevious ▸ hvalue)
  refine ⟨p', .of_operand ?_, ?_⟩
  · rw [hoperand, hprevious]
  · simpa [Expr.constants, htaken.scope] using htaken.trans hreads

theorem Reachable.unary {op : UnaryOp} {sign : Token} (hsign : (sign.kind, op) ∈ Expr.signs)
    (hhead : ∀ rest, Readable (tokens ++ rest)) (he : Reachable .unary tokens e) :
    Reachable .unary (sign :: tokens) (.unary op e) := by
  intro levels least p next rest hleast hnesting husable hupcoming hnext hrank hnotEqual
  have htaken := reads_advance hupcoming (hhead _)
  have hprevious : p.advance.previous = sign := htaken.previous
  obtain ⟨p', hread, hreads⟩ := he.exists_expression_eq (p := p.advance) hnesting
    (htaken.scope ▸ husable) (htaken.upcoming_eq hupcoming) hnext
    ⟨rank_precedence_lt_unary _, fun hle => absurd hle (by decide)⟩
  refine ⟨p', .of_operand ?_, ?_⟩
  · rw [operand?_unary _ _ (hprevious ▸ hsign), Parser.unary, hread]
  · simpa [Expr.constants, htaken.scope] using htaken.trans hreads

theorem Reachable.group {opening close : Token} (hopening : opening.kind = .leftParen)
    (hhead : ∀ rest, Readable (tokens ++ rest)) (he : Reachable .assign tokens e)
    (hclose : close.kind = .rightParen) :
    Reachable .primary (opening :: tokens ++ [close]) (.group e close.pos) := by
  intro levels least p next rest hleast hnesting husable hupcoming hnext hrank hnotEqual
  rw [List.append_assoc, List.cons_append] at hupcoming
  have htaken := reads_advance hupcoming (hhead _)
  have hprevious : p.advance.previous = opening := htaken.previous
  obtain ⟨p₁, hread, hinner⟩ := he.exists_expression_eq (p := p.advance) hnesting
    (htaken.scope ▸ husable) (htaken.upcoming_eq hupcoming) (by simp [hclose])
    (stops_assign (by simp [hclose]; decide) (by simp [hclose]))
  have hbefore := htaken.trans hinner
  have hend := reads_expect "')' after expression"
    (hbefore.upcoming_eq (by simpa using hupcoming))
    (readable_cons rest hnext)
  rw [hclose] at hend
  refine ⟨p₁.expect .rightParen "')' after expression", .of_operand ?_, ?_⟩
  · rw [operand?_leftParen _ _ (hprevious ▸ hopening), Parser.group, hread]
    simp only [hend.previous]
    rfl
  · simpa [Expr.constants, htaken.scope, hinner.scope] using hbefore.trans hend

theorem Reachable.binary {op : BinaryOp} {sign : Token} {left right : List Token} {l r : Expr}
    (hl : Reachable op.precedence left l) (hsign : sign.kind.binaryOp? = some op)
    (hhead : ∀ rest, Readable (right ++ rest)) (hr : Reachable op.precedence.next right r) :
    Reachable op.precedence (left ++ sign :: right) (.binary op l r) := by
  intro levels least p next rest hleast hnesting husable hupcoming hnext hrank hnotEqual
  rw [List.append_assoc, List.cons_append] at hupcoming
  obtain ⟨hnestl, hnestr⟩ := Nat.max_le.mp hnesting
  obtain ⟨pl, ⟨first, p₁, rounds, hoperand, hoperators, hrounds⟩, hleft⟩ :=
    hl levels least p sign (right ++ next :: rest) hleast hnestl
      (fun name hname => husable name (List.mem_append_left _ hname)) hupcoming
      (kind_ne_of_binaryOp? hsign).2 (by rw [precedence_eq_of_binaryOp? hsign])
      (fun _ => (kind_ne_of_binaryOp? hsign).1)
  have hatSign := hleft.upcoming_eq hupcoming
  have hbefore := hleft.trans (reads_advance hatSign (hhead _))
  have hscope : pl.advance.scope = p.scope := by rw [hbefore.scope, hleft.scope]
  obtain ⟨hassign, hsucc, _⟩ := rank_next_precedence op
  obtain ⟨p', hread, hright⟩ := hr.exists_expression_eq (p := pl.advance) hnestr
    (by rw [hscope]; exact fun name hname => husable name (List.mem_append_right _ hname))
    (hbefore.upcoming_eq (by simpa using hupcoming)) hnext
    ⟨by omega, fun hle => absurd hle (by omega)⟩
  have hreads := hbefore.trans hright
  -- The operator takes one of the rounds, and the right operand comes after it.
  obtain ⟨hcurrent, hrest⟩ := List.cons.inj hatSign
  have hatNext : p'.upcoming = next :: rest := hreads.upcoming_eq (by simpa using hupcoming)
  rw [hrest] at hrounds
  obtain ⟨round, rounds, rfl⟩ : ∃ round others, rounds = round :: others :=
    List.exists_cons_of_length_pos (by simp at hrounds; omega)
  refine ⟨p', ⟨first, p₁, rounds, hoperand, ?_, ?_⟩, ?_⟩
  · have hle : least ≤ op.precedence := hleast
    rw [hoperators, operators, hcurrent, hsign]
    simp only [if_pos hle, hread]
  · rw [(List.cons.inj hatNext).2]
    simp at hrounds
    omega
  · simpa [Expr.constants, hscope] using hreads

end Cases

/-- The reader gets to every expression that the grammar derives. -/
theorem reachable_of_derives {level : Expr.Level} {tokens : List Token} {e : Expr}
    (he : Expr.Derives level tokens e) : Reachable level.precedence tokens e := by
  induction he with
  | @stronger level _ _ _ ih => exact ih.weaken level.rank_precedence_le_next
  | assign hname hequal he ih => exact .assign hname hequal (readable_of_derives he) ih
  | @binary level op sign _ _ _ _ _ hsign hr ihl ihr =>
      obtain ⟨hop, hlevel, hnext⟩ := Expr.Level.binaryOp?_of_mem _ hsign
      rw [← hlevel] at ihl ⊢
      rw [← hnext] at ihr
      exact .binary ihl hop (readable_of_derives hr) ihr
  | unary hsign he ih => exact .unary hsign (readable_of_derives he) ih
  | group hopening he hclose ih => exact .group hopening (readable_of_derives he) ih hclose
  | var hname => exact .var hname
  | literal hvalue => exact .literal (Token.denotes_iff.mp hvalue)

end Parser

end Scriptlet
