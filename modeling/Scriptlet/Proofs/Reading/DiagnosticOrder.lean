import Scriptlet.Proofs.Reading.Termination
import Scriptlet.Proofs.SourceOrder

/-! # Diagnostics come in the order of the script

Errors are reported at the token read last, at the token to be read next, or at an `error` token
between the two. As long as the parser does not panic, nothing has been reported after the token
read last, so that each of these comes in its turn. When a panic ends, an `error` token behind the
last token may have been reported. Then a token has to be read before an error can be reported at
the last one again, and every statement starts with that while a level is left.
-/

namespace Scriptlet

namespace Parser

/-- Diagnostics in their turn: each is at a token, none behind the first of those to come, and none
at a token before that of an earlier one. -/
def Listed (tokens coming : List Token) (diagnostics : List Diagnostic) : Prop :=
  ∃ front, tokens = front ++ coming ∧
    Token.Follows (front ++ coming.take 1) (diagnostics.map (·.pos))

/-- An error at the token to be read next, or at a later one, comes in its turn. -/
structure Ordered (tokens : List Token) (p : Parser) : Prop where
  within : Within tokens p
  listed : Listed tokens p.upcoming p.diagnostics

/-- An error at the token read last comes in its turn as well. In a panic none is reported. -/
structure Poised (tokens : List Token) (p : Parser) : Prop extends Ordered tokens p where
  listed_previous : p.panicking = false → ∃ rest, p.upcoming <:+ p.previous :: rest ∧
    Listed tokens (p.previous :: rest) p.diagnostics

/-! ## Reports -/

section Reports

variable {tokens coming later rest : List Token} {token : Token} {diagnostics : List Diagnostic}
  {p : Parser}

theorem Listed.of_suffix (hlisted : Listed tokens coming diagnostics) (hlater : later <:+ coming) :
    Listed tokens later diagnostics := by
  obtain ⟨front, rfl, hfollows⟩ := hlisted
  obtain ⟨passed, rfl⟩ := hlater
  refine ⟨front ++ passed, (List.append_assoc ..).symm, ?_⟩
  cases passed with
  | nil => simpa using hfollows
  | cons token passed =>
      have hmore := hfollows.append (passed ++ later.take 1)
      simpa using hmore

theorem Listed.follows (hlisted : Listed tokens coming diagnostics) :
    Token.Follows tokens (diagnostics.map (·.pos)) := by
  obtain ⟨front, rfl, hfollows⟩ := hlisted
  have hmore := hfollows.append (coming.drop 1)
  rwa [List.append_assoc, List.take_append_drop] at hmore

theorem Listed.concat (hlisted : Listed tokens (token :: rest) diagnostics)
    (error : CompileError) :
    Listed tokens (token :: rest) (diagnostics ++ [.ofToken error token]) := by
  obtain ⟨front, htokens, hfollows⟩ := hlisted
  refine ⟨front, htokens, ?_⟩
  rw [List.map_append]
  exact hfollows.concat

/-- A report at a token keeps the order unless the parser panics, and otherwise does nothing. -/
theorem listed_reportAt (hlisted : Listed tokens (token :: rest) p.diagnostics)
    (error : CompileError) :
    Listed tokens (token :: rest) (p.reportAt token error).diagnostics := by
  unfold reportAt
  split
  · exact hlisted
  · exact hlisted.concat error

theorem Ordered.reportNext (hp : Ordered tokens p) (error : CompileError) :
    Poised tokens (p.reportNext error) where
  within := (within_invariant tokens).reportNext error hp.within
  listed := by
    rw [Parser.reportNext, upcoming_reportAt]
    exact listed_reportAt hp.listed error
  listed_previous := by simp [Parser.reportNext]

theorem Poised.report (hp : Poised tokens p) (error : CompileError) :
    Poised tokens (p.report error) where
  within := (within_invariant tokens).report error hp.within
  listed := by
    rw [Parser.report, upcoming_reportAt]
    cases hpanic : p.panicking with
    | true =>
        rw [reportAt, if_pos hpanic]
        exact hp.listed
    | false =>
        obtain ⟨rest, hsuffix, hlisted⟩ := hp.listed_previous hpanic
        exact (listed_reportAt hlisted error).of_suffix hsuffix
  listed_previous := by simp [Parser.report]

end Reports

/-! ## Tokens -/

/-- The `error` tokens that are passed over are reported in their turn. Without any, nothing is
reported. -/
theorem listed_fetch {tokens : List Token} (p : Parser) {coming : List Token}
    (hreadable : ∃ token ∈ coming, token.kind ≠ .error)
    (hlisted : Listed tokens coming p.diagnostics) :
    Listed tokens (p.fetch coming).upcoming (p.fetch coming).diagnostics ∧
      ((p.fetch coming).panicking = false → (p.fetch coming).diagnostics = p.diagnostics) := by
  induction coming generalizing p with
  | nil => simp at hreadable
  | cons token rest ih =>
      rw [fetch]
      by_cases herror : token.kind = .error
      · rw [if_pos herror]
        have hreported := listed_reportAt hlisted (.lex token.lexeme)
        obtain ⟨hfetched, _⟩ := ih (p.reportAt token (.lex token.lexeme))
          (by simpa [herror] using hreadable) (hreported.of_suffix (List.suffix_cons _ _))
        refine ⟨hfetched, fun hcalm => ?_⟩
        rw [panicking_fetch rest (panicking_reportAt p token _)] at hcalm
        contradiction
      · rw [if_neg herror]
        exact ⟨hlisted, fun _ => rfl⟩

/-- Reading a token makes up for what has been reported behind the last one. -/
theorem Ordered.advance {tokens : List Token} {p : Parser} (hp : Ordered tokens p) :
    Poised tokens p.advance := by
  have hwithin := (within_invariant tokens).advance hp.within
  by_cases hrest : p.rest = []
  · -- The last token stays the next one.
    have hadvance : p.advance = { p with previous := p.current, rest := [] } := by
      rw [Parser.advance, hrest, fetch]
    have hlisted : Listed tokens [p.current] p.diagnostics := by
      have hcurrent := hp.listed
      rwa [upcoming, hrest] at hcurrent
    rw [hadvance] at hwithin ⊢
    exact ⟨⟨hwithin, hlisted⟩, fun _ => ⟨[], List.suffix_rfl, hlisted⟩⟩
  · have hreadable := hp.within.1.exists_readable hrest
    have hcoming := hp.listed.of_suffix (List.suffix_cons p.current p.rest)
    obtain ⟨hlisted, hsame⟩ := listed_fetch { p with previous := p.current } hreadable hcoming
    refine ⟨⟨hwithin, hlisted⟩, fun hcalm => ?_⟩
    rw [previous_advance]
    refine ⟨p.rest, (hp.within.1.within_advance hrest).2.trans (List.suffix_cons _ _), ?_⟩
    rw [Parser.advance, hsame hcalm]
    exact hp.listed

/-- Between statements: errors to come are in their turn, and fewer blocks can be opened than levels
are left. -/
structure Ready (tokens : List Token) (levels : Nat) (p : Parser) : Prop where
  ordered : Ordered tokens p
  braces_lt : braces p.upcoming < levels

theorem Poised.with_scope {tokens : List Token} {p : Parser} (hp : Poised tokens p)
    (scope : Scope) : Poised tokens { p with scope } :=
  ⟨⟨hp.within, hp.listed⟩, hp.listed_previous⟩

section Statements

variable {tokens : List Token} {recovery : Bool} {levels : Nat} {p : Parser}

theorem Ordered.expect (hp : Ordered tokens p) (kind : TokenKind) (what : String) :
    Poised tokens (p.expect kind what) := by
  unfold Parser.expect
  split
  · exact hp.advance
  · exact hp.reportNext _

/-- When a panic ends, errors at the token read last need no longer be in their turn. -/
theorem Poised.finish (hp : Poised tokens p) :
    Ordered tokens (if recovery && p.panicking then p.recover else p) := by
  split
  · have hcalm : Ordered tokens { p with panicking := false } := ⟨hp.within, hp.listed⟩
    exact skipTo_of_advance (fun hq => hq.advance.toOrdered) _ hcalm
  · exact hp.toOrdered

/-- Inside a block there is one level less, and one brace less to come. -/
theorem Ready.opened (hp : Ready tokens (levels + 1) p) (hbrace : p.sees .leftBrace = true) :
    Ready tokens levels p.opened := by
  have hopened := hp.ordered.within.1.within_opened hbrace
  have hcount : braces p.upcoming = braces p.rest + 1 := List.countP_cons_of_pos hbrace
  have hfewer := braces_le hopened.2
  have hlt := hp.braces_lt
  exact ⟨(hp.ordered.advance.with_scope _).toOrdered, by omega⟩

end Statements

end Parser

end Scriptlet
