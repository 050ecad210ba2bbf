import Mathlib.Data.List.Infix
import Mathlib.Data.String.Basic
import Scriptlet.Proofs.Scanning

/-! # The spans of tokens

Every token is read from a span of the script. The spans follow one another up to the end of the
script, and what lies between them is blank or commented out. So no character of a script is lost,
and a token tells where it stands and what it was read from.
-/

namespace Scriptlet

open String (utf8Len)

/-- The part of a script between two byte offsets. -/
structure Span where
  start : String.Pos.Raw
  stop : String.Pos.Raw
deriving DecidableEq

namespace Span

def text (span : Span) (source : String) : String :=
  span.start.extract source span.stop

/-- What comes before the part. -/
def before (span : Span) (source : String) : String :=
  text ⟨0, span.start⟩ source

def Contains (span : Span) (offset : String.Pos.Raw) : Prop :=
  span.start ≤ offset ∧ offset < span.stop

/-- The part comes before another one and shares no character with it. -/
def Precedes (span other : Span) : Prop :=
  span.stop ≤ other.start

/-- A comment runs to the end of its line. -/
structure IsComment (span : Span) (source : String) : Prop where
  mark : span.start.get? source = some '#'
  line : '\n' ∉ (span.text source).toList
  stop : span.stop = source.rawEndPos ∨ span.stop.get? source = some '\n'

end Span

/-- What a token tells of the span that it was read from. -/
structure Token.Describes (token : Token) (source : String) (span : Span) : Prop where
  start : span.start.IsValid source
  stop : span.stop.IsValid source
  ordered : span.start ≤ span.stop
  written : token.kind ≠ .error → token.isSynthetic = false → token.lexeme = span.text source
  inserted : token.isSynthetic = true → token.lexeme = "\n" ∧ span.text source = "\n" ∨
    token.lexeme = "" ∧ span = ⟨source.rawEndPos, source.rawEndPos⟩
  line : token.pos.line = .ofNat (1 + (span.before source).toList.count '\n')
  column : token.pos.column =
    .ofNat (1 + ((span.before source).toList.reverse.takeWhile (· != '\n')).length)

/-! ## Positions -/

namespace Pos

theorem afterAll_append (pos : Pos) (text more : List Char) :
    pos.afterAll (text ++ more) = (pos.afterAll text).afterAll more :=
  List.foldl_append

theorem line_afterAll (text : List Char) :
    (start.afterAll text).line = .ofNat (1 + text.count '\n') := by
  induction text using List.reverseRecOn with
  | nil => rfl
  | append_singleton text c ih =>
      rw [afterAll_append, List.count_append, ← Nat.add_assoc, UInt32.ofNat_add, ← ih]
      by_cases hc : c = '\n'
      · simp [afterAll, after, hc]
      · simp [afterAll, after, hc]

theorem column_afterAll (text : List Char) :
    (start.afterAll text).column = .ofNat (1 + (text.reverse.takeWhile (· != '\n')).length) := by
  induction text using List.reverseRecOn with
  | nil => rfl
  | append_singleton text c ih =>
      rw [afterAll_append, List.reverse_append, List.reverse_singleton, List.singleton_append]
      by_cases hc : c = '\n'
      · simp [afterAll, after, hc]
      · rw [List.takeWhile_cons_of_pos (by simpa using hc), List.length_cons, ← Nat.add_assoc,
          UInt32.ofNat_add, ← ih]
        simp [afterAll, after, hc]

end Pos

/-! ## Offsets -/

section Offsets

variable {source : String} {front middle back : List Char}

theorem get?_utf8Len (hsource : source.toList = front ++ back) :
    String.Pos.Raw.get? source ⟨utf8Len front⟩ = back.head? := by
  rw [← source.ofList_toList, hsource]
  exact String.get?_of_valid front back

theorem text_utf8Len (hsource : source.toList = front ++ middle ++ back) :
    Span.text ⟨⟨utf8Len front⟩, ⟨utf8Len (front ++ middle)⟩⟩ source = String.ofList middle := by
  rw [← source.ofList_toList, hsource, String.utf8Len_append]
  exact String.extract_of_valid front middle back

theorem before_utf8Len (hsource : source.toList = front ++ back) (stop : String.Pos.Raw) :
    Span.before ⟨⟨utf8Len front⟩, stop⟩ source = String.ofList front := by
  have hnil : source.toList = [] ++ front ++ back := hsource
  exact text_utf8Len hnil

theorem isValid_utf8Len (hsource : source.toList = front ++ back) :
    String.Pos.Raw.IsValid source ⟨utf8Len front⟩ := by
  rw [String.Pos.Raw.isValid_iff_exists_append]
  refine ⟨String.ofList front, String.ofList back, ?_, ?_⟩
  · rw [← String.ofList_append, ← hsource, String.ofList_toList]
  · rw [String.rawEndPos_ofList]

theorem exists_of_isValid {offset : String.Pos.Raw} (hoffset : offset.IsValid source) :
    ∃ front back, source.toList = front ++ back ∧ offset = ⟨utf8Len front⟩ := by
  obtain ⟨front, back, rfl, rfl⟩ := String.Pos.Raw.isValid_iff_exists_append.mp hoffset
  refine ⟨front.toList, back.toList, String.toList_append, ?_⟩
  rw [← String.rawEndPos_ofList, String.ofList_toList]

theorem rawEndPos_eq_utf8Len (source : String) : source.rawEndPos = ⟨utf8Len source.toList⟩ := by
  rw [← String.rawEndPos_ofList, String.ofList_toList]

theorem utf8Len_le_append (front more : List Char) :
    (⟨utf8Len front⟩ : String.Pos.Raw) ≤ ⟨utf8Len (front ++ more)⟩ := by
  rw [String.Pos.Raw.le_iff, String.utf8Len_append]
  exact Nat.le_add_right _ _

theorem isComment_utf8Len (hsource : source.toList = front ++ middle ++ back)
    (hmark : middle.head? = some '#') (hline : '\n' ∉ middle) (hends : Lexer.EndsLine back) :
    Span.IsComment ⟨⟨utf8Len front⟩, ⟨utf8Len (front ++ middle)⟩⟩ source := by
  constructor
  · have hfront : source.toList = front ++ (middle ++ back) := by rw [hsource, List.append_assoc]
    rw [get?_utf8Len hfront, List.head?_append, hmark]
    rfl
  · rw [text_utf8Len hsource, String.toList_ofList]
    exact hline
  · rw [get?_utf8Len hsource, rawEndPos_eq_utf8Len, hsource]
    cases back with
    | nil => exact .inl (by rw [List.append_nil])
    | cons c back =>
        obtain rfl : c = '\n' := hends c rfl
        exact .inr rfl

/-- Of two texts at the front of a script, the one of fewer bytes is at the front of the other. -/
theorem prefix_of_utf8Len_le {all : List Char} (hfront : front <+: all) (hback : back <+: all)
    (hle : utf8Len front ≤ utf8Len back) : front <+: back := by
  rcases List.prefix_or_prefix_of_prefix hfront hback with hprefix | ⟨more, rfl⟩
  · exact hprefix
  · rw [String.utf8Len_append] at hle
    obtain rfl : more = [] := String.utf8Len_eq_zero.mp (by omega)
    rw [List.append_nil]

end Offsets

/-- Lines and columns fit their words where the script is not too long. -/
theorem Token.Describes.toNat_pos {token : Token} {source : String} {span : Span}
    (hdescribes : token.Describes source span) (hsource : source.length < 2 ^ 32 - 1) :
    token.pos.line.toNat = 1 + (span.before source).toList.count '\n' ∧
      token.pos.column.toNat =
        1 + ((span.before source).toList.reverse.takeWhile (· != '\n')).length := by
  obtain ⟨front, back, hsplit, hstart⟩ := exists_of_isValid hdescribes.start
  have hbefore : (span.before source).toList = front := by
    rw [← String.toList_ofList (l := front), ← before_utf8Len hsplit span.stop, ← hstart]
  have hlength : front.length ≤ source.length := by
    rw [← String.length_toList, hsplit, List.length_append]
    exact Nat.le_add_right _ _
  have hcount : front.count '\n' ≤ front.length := List.count_le_length
  have htake := (List.takeWhile_prefix (l := front.reverse) (· != '\n')).length_le
  rw [List.length_reverse] at htake
  rw [hdescribes.line, hdescribes.column, hbefore]
  have hsize : UInt32.size = 2 ^ 32 := rfl
  exact ⟨UInt32.toNat_ofNat_of_lt' (by omega), UInt32.toNat_ofNat_of_lt' (by omega)⟩

namespace Lexer

/-! ## Spans -/

/-- Where `rest` begins if it is what is left of the script. -/
def offset (source : String) (rest : List Char) : String.Pos.Raw :=
  ⟨source.utf8ByteSize - utf8Len rest⟩

/-- Where the next token is read from, after the gap before it. -/
def span (source : String) (lexer : Lexer) : Span where
  start := offset source (skip lexer.pending false lexer.pos lexer.rest).2
  stop := offset source lexer.next.2.rest

def nthSpan (source : String) (n : Nat) : Span :=
  ((ofString source).advance n).span source

theorem offset_eq_utf8Len {source : String} {front back : List Char}
    (hsource : source.toList = front ++ back) : offset source back = ⟨utf8Len front⟩ := by
  rw [offset, ← String.utf8Len_toList, hsource, String.utf8Len_append, Nat.add_sub_cancel]

/-- The lexer is in the middle of a script, and what comes before it is `before`. -/
structure IsAfter (lexer : Lexer) (source : String) (before : List Char) : Prop where
  source : source.toList = before ++ lexer.rest
  pos : lexer.pos = Pos.start.afterAll before

theorem isAfter_ofString (source : String) : (ofString source).IsAfter source [] :=
  ⟨rfl, rfl⟩

section Next

variable {lexer : Lexer} {source : String} {before gap text : List Char}
  (hafter : lexer.IsAfter source before) (htakes : lexer.Takes gap text lexer.next.1 lexer.next.2)

include hafter htakes

theorem IsAfter.next : lexer.next.2.IsAfter source (before ++ gap ++ text) := by
  constructor
  · rw [hafter.source, htakes.rest]
    simp
  · rw [htakes.stop, htakes.start, hafter.pos, Pos.afterAll_append, Pos.afterAll_append]

theorem IsAfter.span_eq :
    lexer.span source = ⟨⟨utf8Len (before ++ gap)⟩, ⟨utf8Len (before ++ gap ++ text)⟩⟩ := by
  have hstart : source.toList = before ++ gap ++ (text ++ lexer.next.2.rest) := by
    rw [hafter.source, htakes.rest]
    simp
  rw [span, htakes.skip, offset_eq_utf8Len hstart, offset_eq_utf8Len (hafter.next htakes).source]

theorem IsAfter.describes : lexer.next.1.Describes source (lexer.span source) := by
  have hsource := (hafter.next htakes).source
  have hstart : source.toList = before ++ gap ++ (text ++ lexer.next.2.rest) := by
    rw [hsource, List.append_assoc]
  have hpos : lexer.next.1.pos = Pos.start.afterAll (before ++ gap) := by
    rw [htakes.start, hafter.pos, Pos.afterAll_append]
  rw [hafter.span_eq htakes]
  constructor
  · exact isValid_utf8Len hstart
  · exact isValid_utf8Len hsource
  · exact utf8Len_le_append _ _
  · intro hkind _
    rw [htakes.lexeme hkind, text_utf8Len hsource]
  · intro hsynthetic
    have hkind := Token.kind_of_isSynthetic hsynthetic
    rw [htakes.lexeme (by simp [hkind]), text_utf8Len hsource]
    rcases htakes.synthetic hsynthetic with rfl | ⟨rfl, hrest⟩
    · exact .inl ⟨rfl, rfl⟩
    · rw [hrest, List.append_nil] at hsource
      rw [rawEndPos_eq_utf8Len, hsource, List.append_nil]
      exact .inr ⟨rfl, rfl⟩
  · rw [hpos, Pos.line_afterAll, before_utf8Len hstart, String.toList_ofList]
  · rw [hpos, Pos.column_afterAll, before_utf8Len hstart, String.toList_ofList]

end Next

/-! ## All spans -/

section Script

variable (source : String)

theorem exists_isAfter (n : Nat) :
    ∃ before, ((ofString source).advance n).IsAfter source before := by
  induction n with
  | zero => exact ⟨[], isAfter_ofString source⟩
  | succ n ih =>
      rcases ih with ⟨before, hafter⟩
      obtain ⟨gap, text, htakes⟩ := exists_takes_next ((ofString source).advance n)
      rw [advance_succ]
      exact ⟨_, hafter.next htakes⟩

/-- What comes before a token, the gap before it and its text. -/
theorem exists_parts (n : Nat) :
    ∃ before gap text, ((ofString source).advance n).IsAfter source before ∧
      ((ofString source).advance n).Takes gap text (nthToken source n)
        ((ofString source).advance n).next.2 := by
  obtain ⟨before, hafter⟩ := exists_isAfter source n
  obtain ⟨gap, text, htakes⟩ := exists_takes_next ((ofString source).advance n)
  exact ⟨before, gap, text, hafter, htakes⟩

theorem describes_nthSpan (n : Nat) : (nthToken source n).Describes source (nthSpan source n) := by
  obtain ⟨before, gap, text, hafter, htakes⟩ := exists_parts source n
  exact hafter.describes htakes

/-- How far the lexer has got after `n` tokens. -/
def reached (n : Nat) : String.Pos.Raw :=
  offset source ((ofString source).advance n).rest

theorem stop_nthSpan (n : Nat) : (nthSpan source n).stop = reached source (n + 1) := by
  rw [reached, advance_succ]
  rfl

theorem reached_le_start (n : Nat) : reached source n ≤ (nthSpan source n).start := by
  obtain ⟨before, gap, text, hafter, htakes⟩ := exists_parts source n
  rw [reached, offset_eq_utf8Len hafter.source, nthSpan, hafter.span_eq htakes]
  exact utf8Len_le_append before gap

theorem reached_mono {m n : Nat} (hle : m ≤ n) : reached source m ≤ reached source n := by
  induction n, hle using Nat.le_induction with
  | base => exact String.Pos.Raw.le_refl
  | succ n _ ih =>
      have hordered := (describes_nthSpan source n).ordered
      rw [stop_nthSpan] at hordered
      exact String.Pos.Raw.le_trans ih
        (String.Pos.Raw.le_trans (reached_le_start source n) hordered)

theorem precedes_nthSpan {m n : Nat} (hlt : m < n) :
    (nthSpan source m).Precedes (nthSpan source n) := by
  rw [Span.Precedes, stop_nthSpan]
  exact String.Pos.Raw.le_trans (reached_mono source hlt) (reached_le_start source n)

theorem reached_zero : reached source 0 = 0 := by
  have hsource : source.toList = [] ++ ((ofString source).advance 0).rest := rfl
  exact offset_eq_utf8Len hsource

/-- The lexer has got to the end of the script once it has handed out `eof`. -/
theorem nthSpan_of_eof {n : Nat} (heof : (nthToken source n).kind = .eof) :
    nthSpan source n = ⟨source.rawEndPos, source.rawEndPos⟩ := by
  obtain ⟨before, gap, text, hafter, htakes⟩ := exists_parts source n
  have hsource := (hafter.next htakes).source
  rcases htakes.eof heof with ⟨rfl, hrest⟩
  rw [hrest, List.append_nil, List.append_nil] at hsource
  rw [nthSpan, hafter.span_eq htakes, rawEndPos_eq_utf8Len, hsource, List.append_nil]

end Script

/-! ## Between spans -/

/-- A character in a gap is a blank or part of a comment. -/
theorem Gap.blank_or_comment {gap front back rest : List Char} {c : Char} (hgap : Gap gap rest)
    (hsplit : gap = front ++ c :: back) :
    isBlank c = true ∨ ∃ outer left right tail, front = outer ++ left ∧ back = right ++ tail ∧
      (left ++ c :: right).head? = some '#' ∧ '\n' ∉ left ++ c :: right ∧
      EndsLine (tail ++ rest) := by
  induction hgap generalizing front with
  | nil => simp at hsplit
  | @blank d gap rest hd _ ih =>
      cases front with
      | nil =>
          obtain ⟨rfl, rfl⟩ := List.cons.inj hsplit
          exact .inl hd
      | cons e front =>
          obtain ⟨rfl, rfl⟩ := List.cons.inj hsplit
          refine (ih rfl).imp_right ?_
          rintro ⟨outer, left, right, tail, rfl, hcomment⟩
          exact ⟨d :: outer, left, right, tail, rfl, hcomment⟩
  | @comment text gap rest htext hline _ ih =>
      rcases List.append_eq_append_iff.mp hsplit with ⟨inner, rfl, hgap⟩ | ⟨inner, htext', hback⟩
      · -- The character comes after the comment.
        refine (ih hgap).imp_right ?_
        rintro ⟨outer, left, right, tail, rfl, hcomment⟩
        exact ⟨'#' :: text ++ outer, left, right, tail, by simp, hcomment⟩
      · cases inner with
        | nil =>
            have hgap : gap = [] ++ c :: back := hback.symm
            refine (ih hgap).imp_right ?_
            rintro ⟨outer, left, right, tail, hnil, hcomment⟩
            obtain ⟨rfl, rfl⟩ := List.append_eq_nil_iff.mp hnil.symm
            exact ⟨front, [], right, tail, (List.append_nil front).symm, hcomment⟩
        | cons d right =>
            obtain ⟨rfl, rfl⟩ := List.cons.inj hback
            refine .inr ⟨[], front, right, gap, rfl, rfl, ?_, ?_, hline⟩
            · rw [← htext']
              rfl
            · rw [← htext']
              exact List.not_mem_cons_of_ne_of_not_mem (by decide) htext

/-- A gap between the spans of a script. -/
structure IsGapOf (source : String) (before gap after : List Char) : Prop where
  split : source.toList = before ++ gap ++ after
  isGap : Gap gap after
  apart : ∀ n, (nthSpan source n).Precedes ⟨⟨utf8Len before⟩, ⟨utf8Len (before ++ gap)⟩⟩ ∨
    Span.Precedes ⟨⟨utf8Len before⟩, ⟨utf8Len (before ++ gap)⟩⟩ (nthSpan source n)

theorem exists_isGapOf (source : String) (n : Nat) :
    ∃ before gap after, IsGapOf source before gap after ∧ reached source n = ⟨utf8Len before⟩ ∧
      (nthSpan source n).start = ⟨utf8Len (before ++ gap)⟩ := by
  obtain ⟨before, gap, text, hafter, htakes⟩ := exists_parts source n
  have hreached : reached source n = ⟨utf8Len before⟩ := offset_eq_utf8Len hafter.source
  have hstart : (nthSpan source n).start = ⟨utf8Len (before ++ gap)⟩ :=
    congrArg Span.start (hafter.span_eq htakes)
  refine ⟨before, gap, _, ⟨?_, htakes.isGap, fun m => ?_⟩, hreached, hstart⟩
  · rw [hafter.source, htakes.rest, List.append_assoc]
  · rcases Nat.lt_or_ge m n with hlt | hle
    · left
      rw [Span.Precedes, stop_nthSpan, ← hreached]
      exact reached_mono source hlt
    · right
      rw [Span.Precedes, ← hstart]
      rcases Nat.eq_or_lt_of_le hle with rfl | hlt
      · exact String.Pos.Raw.le_refl
      · exact String.Pos.Raw.le_trans (describes_nthSpan source n).ordered
          (precedes_nthSpan source hlt)

/-- The lexer gets to every character, and past it with one more token. -/
theorem exists_reached {source : String} {offset : String.Pos.Raw}
    (hvalid : offset.IsValid source) (hend : offset ≠ source.rawEndPos) :
    ∃ n, reached source n ≤ offset ∧ offset < reached source (n + 1) := by
  have hexists : ∃ n, offset < reached source n := by
    obtain ⟨last, hlast⟩ := exists_last source
    refine ⟨last + 1, ?_⟩
    rw [← stop_nthSpan, nthSpan_of_eof source ((hlast last).mpr le_rfl)]
    exact Nat.lt_of_le_of_ne hvalid.le_rawEndPos fun heq => hend (String.Pos.Raw.ext heq)
  cases hfind : Nat.find hexists with
  | zero =>
      have hlt := Nat.find_spec hexists
      rw [hfind, reached_zero] at hlt
      exact absurd hlt (Nat.not_lt_zero _)
  | succ n =>
      have hlt := Nat.find_spec hexists
      have hnot : ¬offset < reached source n := Nat.find_min hexists (by omega)
      rw [hfind] at hlt
      exact ⟨n, Nat.le_of_not_lt hnot, hlt⟩

/-- A character outside all spans is in a gap between them. -/
theorem exists_isGapOf_of_outside {source : String} {offset : String.Pos.Raw}
    (hvalid : offset.IsValid source) (hend : offset ≠ source.rawEndPos)
    (houtside : ∀ n, ¬(nthSpan source n).Contains offset) :
    ∃ before front c back after, IsGapOf source before (front ++ c :: back) after ∧
      offset = ⟨utf8Len (before ++ front)⟩ := by
  obtain ⟨n, hge, hlt⟩ := exists_reached hvalid hend
  obtain ⟨before, gap, after, hgap, hreached, hstart⟩ := exists_isGapOf source n
  obtain ⟨front, back, hsource, rfl⟩ := exists_of_isValid hvalid
  have hgap_lt : utf8Len front < utf8Len (before ++ gap) := by
    rw [← stop_nthSpan] at hlt
    have hnot := houtside n
    rw [Span.Contains, hstart] at hnot
    exact Nat.lt_of_not_le fun hle => hnot ⟨hle, hlt⟩
  rw [hreached] at hge
  have hfront : front <+: source.toList := ⟨back, hsource.symm⟩
  have hbefore : before ++ gap <+: source.toList := ⟨after, hgap.split.symm⟩
  -- The character is behind `before` and not behind the gap.
  obtain ⟨inner, rfl⟩ :=
    prefix_of_utf8Len_le ((List.prefix_append before gap).trans hbefore) hfront hge
  obtain ⟨behind, rfl⟩ := (List.prefix_append_right_inj before).mp
    (prefix_of_utf8Len_le hfront hbefore (Nat.le_of_lt hgap_lt))
  cases behind with
  | nil => simp at hgap_lt
  | cons c behind => exact ⟨before, inner, c, behind, after, hgap, rfl⟩

/-- What is outside all spans is a blank, or part of a comment that is outside all spans. -/
theorem blank_or_comment_of_outside {source : String} {offset : String.Pos.Raw}
    (hvalid : offset.IsValid source) (hend : offset ≠ source.rawEndPos)
    (houtside : ∀ n, ¬(nthSpan source n).Contains offset) :
    (offset.get? source).any isBlank = true ∨
      ∃ comment : Span, comment.Contains offset ∧ comment.IsComment source ∧
        ∀ n, (nthSpan source n).Precedes comment ∨ comment.Precedes (nthSpan source n) := by
  obtain ⟨before, front, c, back, after, hgap, rfl⟩ :=
    exists_isGapOf_of_outside hvalid hend houtside
  have hsource := hgap.split
  rcases hgap.isGap.blank_or_comment rfl with hblank | hcomment
  · left
    have hsplit : source.toList = before ++ front ++ c :: (back ++ after) := by
      rw [hsource]
      simp
    rw [get?_utf8Len hsplit]
    exact hblank
  · right
    obtain ⟨outer, left, right, tail, rfl, rfl, hmark, hline, hends⟩ := hcomment
    have hsplit : source.toList = before ++ outer ++ (left ++ c :: right) ++ (tail ++ after) := by
      rw [hsource]
      simp
    refine ⟨⟨⟨utf8Len (before ++ outer)⟩, ⟨utf8Len (before ++ outer ++ (left ++ c :: right))⟩⟩,
      ⟨?_, ?_⟩, isComment_utf8Len hsplit hmark hline hends, fun n => ?_⟩
    · have hle := utf8Len_le_append (before ++ outer) left
      rw [List.append_assoc before outer left] at hle
      exact hle
    · have hc := c.utf8Size_pos
      rw [String.Pos.Raw.lt_iff]
      simp only [String.utf8Len_append, String.utf8Len_cons]
      omega
    · -- The comment lies in the gap, and the gap apart from the span.
      have hinside : before ++ (outer ++ left ++ c :: (right ++ tail)) =
          before ++ outer ++ (left ++ c :: right) ++ tail := by simp
      have hapart := hgap.apart n
      rw [hinside] at hapart
      refine hapart.imp (fun hle => ?_) (fun hle => ?_)
      · exact String.Pos.Raw.le_trans hle (utf8Len_le_append before outer)
      · exact String.Pos.Raw.le_trans (utf8Len_le_append _ tail) hle

end Lexer

/-- The spans of tokens tile the script. They are in order and have no character in common, those of
`eof` are at the end, and there is nothing between them but blanks and comments. Each token tells
where its span is, up to what a word can hold, and what it holds; where the script is not too long,
lines and columns fit their words. -/
theorem spans_tile (source : String) :
    ∃ last,
      (∀ n, (Lexer.nthToken source n).kind = .eof ↔ last ≤ n) ∧
      (∀ n, last ≤ n → Lexer.nthSpan source n = ⟨source.rawEndPos, source.rawEndPos⟩) ∧
      (∀ m n, m < n → (Lexer.nthSpan source m).Precedes (Lexer.nthSpan source n)) ∧
      (∀ n, (Lexer.nthToken source n).Describes source (Lexer.nthSpan source n)) ∧
      (∀ offset, String.Pos.Raw.IsValid source offset → offset ≠ source.rawEndPos →
        (∀ n, ¬(Lexer.nthSpan source n).Contains offset) →
        (offset.get? source).any Lexer.isBlank = true ∨
          ∃ comment : Span, comment.Contains offset ∧ comment.IsComment source ∧
            ∀ n, (Lexer.nthSpan source n).Precedes comment ∨
              comment.Precedes (Lexer.nthSpan source n)) ∧
      (source.length < 2 ^ 32 - 1 → ∀ n,
        (Lexer.nthToken source n).pos.line.toNat =
            1 + ((Lexer.nthSpan source n).before source).toList.count '\n' ∧
          (Lexer.nthToken source n).pos.column.toNat =
            1 + (((Lexer.nthSpan source n).before source).toList.reverse.takeWhile
              (· != '\n')).length) := by
  obtain ⟨last, hlast⟩ := Lexer.exists_last source
  refine ⟨last, hlast, fun n hle => Lexer.nthSpan_of_eof source ((hlast n).mpr hle),
    fun m n => Lexer.precedes_nthSpan source, Lexer.describes_nthSpan source,
    fun offset => Lexer.blank_or_comment_of_outside,
    fun hlength n => (Lexer.describes_nthSpan source n).toNat_pos hlength⟩

end Scriptlet
