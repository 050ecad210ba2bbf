import Scriptlet.Proofs.Constants
import Scriptlet.Proofs.Reading.Invariants
import Scriptlet.Proofs.Scopes

/-! # What reading takes

`Reads` says which tokens a parser has taken on its way from one state to another, which constants
it has asked for, and that it has reported nothing as long as these fit. Small steps compose, so
that the reading of an expression or a statement is described by the tokens and constants of its
parts.
-/

namespace Scriptlet.Parser

/-- The tokens that have not been read. -/
def upcoming (p : Parser) : List Token := p.current :: p.rest

/-- From `p` to `p'` the parser takes `tokens` and asks for `constants`; it is then in `scope`. It
reports something exactly if the constants do not fit. -/
structure Reads (p : Parser) (tokens : List Token) (constants : List Value) (scope : Scope)
    (p' : Parser) : Prop where
  upcoming : p.upcoming = tokens ++ p'.upcoming
  previous : p'.previous = tokens.getLast?.getD p.previous
  scope : p'.scope = scope
  quiet : ∀ pool, p.pool.addAll constants = some pool →
    p'.pool = pool ∧ p'.panicking = p.panicking ∧ p'.diagnostics = p.diagnostics
  fits : p'.panicking = false → p.panicking = false ∧ p.pool.addAll constants = some p'.pool

namespace Reads

variable {p p' p'' : Parser} {tokens more : List Token} {constants others : List Value}
  {scope scope' : Scope}

theorem refl (p : Parser) : Reads p [] [] p.scope p := by
  refine ⟨rfl, rfl, rfl, ?_, fun hcalm => ⟨hcalm, rfl⟩⟩
  intro pool hpool
  exact ⟨Option.some.inj hpool, rfl, rfl⟩

theorem trans (hfirst : Reads p tokens constants scope p')
    (hsecond : Reads p' more others scope' p'') :
    Reads p (tokens ++ more) (constants ++ others) scope' p'' := by
  refine ⟨?_, ?_, hsecond.scope, ?_, ?_⟩
  · rw [hfirst.upcoming, hsecond.upcoming, List.append_assoc]
  · rw [hsecond.previous, hfirst.previous, List.getLast?_append]
    cases more.getLast? <;> rfl
  · intro pool hpool
    rw [Pool.addAll_append, Option.bind_eq_some_iff] at hpool
    obtain ⟨middle, hmiddle, hpool⟩ := hpool
    obtain ⟨rfl, hpanicking, hdiagnostics⟩ := hfirst.quiet middle hmiddle
    obtain ⟨rfl, hpanicking', hdiagnostics'⟩ := hsecond.quiet pool hpool
    exact ⟨rfl, hpanicking'.trans hpanicking, hdiagnostics'.trans hdiagnostics⟩
  · intro hcalm
    obtain ⟨hmiddle, hothers⟩ := hsecond.fits hcalm
    obtain ⟨hstart, hconstants⟩ := hfirst.fits hmiddle
    exact ⟨hstart, Pool.addAll_append_of_eq_some hconstants hothers⟩

/-- What is left after the tokens that have been taken. -/
theorem upcoming_eq (hreads : Reads p tokens constants scope p') {rest : List Token}
    (hrest : p.upcoming = tokens ++ rest) : p'.upcoming = rest := by
  rw [hreads.upcoming] at hrest
  exact List.append_cancel_left hrest

end Reads

/-! ## Tokens that can be read -/

/-- There is a next token, and it is not an `error` token. -/
def Readable (tokens : List Token) : Prop :=
  ∃ token rest, tokens = token :: rest ∧ token.kind ≠ .error

theorem readable_cons {token : Token} (rest : List Token) (htoken : token.kind ≠ .error) :
    Readable (token :: rest) :=
  ⟨token, rest, rfl, htoken⟩

theorem readable_of_derives {level : Expr.Level} {tokens : List Token} {e : Expr}
    (he : Expr.Derives level tokens e) (rest : List Token) : Readable (tokens ++ rest) := by
  obtain ⟨first, others, rfl, _⟩ := he.exists_head
  exact readable_cons _ (he.kind_ne_error first List.mem_cons_self)

theorem advance_eq {p : Parser} {token : Token} {rest : List Token} (hrest : p.rest = token :: rest)
    (htoken : token.kind ≠ .error) :
    p.advance = { p with previous := p.current, current := token, rest } := by
  rw [advance, hrest, fetch, if_neg htoken]

theorem reads_advance {p : Parser} {token : Token} {tail : List Token}
    (hupcoming : p.upcoming = token :: tail) (htail : Readable tail) :
    Reads p [token] [] p.scope p.advance := by
  obtain ⟨next, rest, rfl, hnext⟩ := htail
  obtain ⟨hcurrent, hrest⟩ := List.cons.inj hupcoming
  rw [advance_eq hrest hnext]
  refine ⟨?_, hcurrent, rfl, ?_, fun hcalm => ⟨hcalm, rfl⟩⟩
  · simpa [upcoming] using hupcoming
  · intro pool hpool
    exact ⟨Option.some.inj hpool, rfl, rfl⟩

theorem reads_expect {p : Parser} {token : Token} {tail : List Token} (what : String)
    (hupcoming : p.upcoming = token :: tail) (htail : Readable tail) :
    Reads p [token] [] p.scope (p.expect token.kind what) := by
  have hcurrent : p.current = token := (List.cons.inj hupcoming).1
  rw [expect, sees, hcurrent, if_pos (beq_self_eq_true _)]
  exact reads_advance hupcoming htail

theorem reads_intern (p : Parser) (value : Value) :
    Reads p [] [value] p.scope (p.intern value) := by
  unfold intern
  split
  next index pool hadd =>
    refine ⟨rfl, rfl, rfl, ?_, fun hcalm => ⟨hcalm, Pool.addAll_singleton hadd⟩⟩
    intro next hnext
    rw [Pool.addAll_singleton hadd] at hnext
    exact ⟨Option.some.inj hnext, rfl, rfl⟩
  next pool hadd =>
    have hreport : ∀ token error, Reads p [] [value] p.scope (p.reportAt token error) := by
      intro token error
      refine ⟨?_, ?_, ?_, ?_, ?_⟩
      · unfold reportAt
        split <;> rfl
      · unfold reportAt
        split <;> rfl
      · unfold reportAt
        split <;> rfl
      · intro next hnext
        simp [Pool.addAll, hadd] at hnext
      · intro hcalm
        simp at hcalm
    exact hreport _ _

/-! ## Reading without an error -/

/-- The last token is `eof`. -/
def EndsInEof (p : Parser) : Prop :=
  ∃ last, p.upcoming.getLast? = some last ∧ last.kind = .eof

theorem EndsInEof.of_reads {p p' : Parser} {tokens : List Token} {constants : List Value}
    {scope : Scope} (hends : p.EndsInEof) (hreads : Reads p tokens constants scope p') :
    p'.EndsInEof := by
  obtain ⟨last, hlast, heof⟩ := hends
  refine ⟨last, ?_, heof⟩
  rw [hreads.upcoming, List.getLast?_append_of_ne_nil] at hlast
  · exact hlast
  · simp [Parser.upcoming]

theorem EndsInEof.kind_eq_eof {p : Parser} (hends : p.EndsInEof) (hrest : p.rest = []) :
    p.current.kind = .eof := by
  obtain ⟨last, hlast, heof⟩ := hends
  rw [Parser.upcoming, hrest, List.getLast?_singleton] at hlast
  rwa [Option.some.inj hlast]

theorem EndsInEof.rest_ne_nil {p : Parser} (hends : p.EndsInEof)
    (hcurrent : p.current.kind ≠ .eof) : p.rest ≠ [] :=
  mt hends.kind_eq_eof hcurrent

/-- An advance that reports nothing finds a token that can be read. -/
theorem readable_rest {p : Parser} (hrest : p.rest ≠ []) (hcalm : p.advance.panicking = false) :
    Readable p.rest := by
  cases hlist : p.rest with
  | nil => exact absurd hlist hrest
  | cons token rest =>
      refine readable_cons rest ?_
      intro herror
      rw [advance, hlist, fetch, if_pos herror, panicking_fetch] at hcalm
      · contradiction
      · exact panicking_reportAt _ _ _

theorem reads_of_calm_advance {p : Parser} (hends : p.EndsInEof) (hcurrent : p.current.kind ≠ .eof)
    (hcalm : p.advance.panicking = false) : Reads p [p.current] [] p.scope p.advance :=
  reads_advance rfl (readable_rest (hends.rest_ne_nil hcurrent) hcalm)

/-- If nothing is reported, the expected token was there and has been taken. -/
theorem reads_of_calm_expect {p : Parser} {kind : TokenKind} {what : String} (hends : p.EndsInEof)
    (hkind : kind ≠ .eof) (hcalm : (p.expect kind what).panicking = false) :
    p.current.kind = kind ∧ Reads p [p.current] [] p.scope (p.expect kind what) := by
  by_cases hsees : p.sees kind = true
  · have hcurrent : p.current.kind = kind := eq_of_beq hsees
    rw [expect, if_pos hsees] at hcalm ⊢
    exact ⟨hcurrent, reads_of_calm_advance hends (hcurrent ▸ hkind) hcalm⟩
  · rw [expect, if_neg hsees, reportNext, panicking_reportAt] at hcalm
    contradiction

end Scriptlet.Parser
