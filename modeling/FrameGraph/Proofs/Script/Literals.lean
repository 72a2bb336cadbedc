import FrameGraph.Proofs.Script.Locality
import FrameGraph.Proofs.Script.Canonical

/-!
# String literals

A string that is written between quotes, with its escapes, reads as itself whatever text comes
behind it, and the text behind it reads as it does alone. The other way round, writing down what a
string literal means gives the literal again, with its line feeds escaped.
-/
namespace FrameGraph.Script

open Text

/-! ## The lexeme in front -/

/-- What lexing gives when the whole source is one match. -/
def Lexing.sole (text : List Char) : Except LexicalFault Token → Lexing
  | .ok t => ⟨[⟨t, ⟨0, byteLength text⟩, 1⟩], none⟩
  | .error e => ⟨[], some ⟨e, ⟨0, byteLength text⟩, 1, String.ofList (text.take shownLength)⟩⟩

theorem line_zero (source : List Char) : (LineIndex.ofChars source).line 0 = 1 := by
  have hline := LineIndex.line_of_prefix [] source
  simpa using hline

/-- A match at the front of a source is read first, and then what is behind it as if it were alone,
further back in the source. -/
theorem lexing_of_match {source later : String} {p : Pattern} {text : List Char}
    (hsource : source.toList = text ++ later.toList)
    (hstays : ∀ offset, skip offset (text ++ later.toList) = ⟨offset, text ++ later.toList⟩)
    (hlongest : ∃ c s, text = c :: s ∧
      longestMatch c (s ++ later.toList) = ⟨p, text, later.toList⟩) :
    lexing source =
      match p.read text with
      | .ok t =>
        let behind := (lexing later).shift (byteLength text) (text.count '\n')
        ⟨⟨t, ⟨0, byteLength text⟩, 1⟩ :: behind.lexemes, behind.failure⟩
      | .error e => .sole text (.error e) := by
  have hskip := hstays 0
  obtain ⟨c, s, rfl, hmatch⟩ := hlongest
  rw [List.cons_append] at hskip
  have hnext : nextLexeme (.ofChars (c :: s ++ later.toList)) ⟨0, c :: s ++ later.toList⟩ =
      match p.read (c :: s) with
      | .ok t => some (.ok (⟨t, ⟨0, byteLength (c :: s)⟩, 1⟩, ⟨byteLength (c :: s), later.toList⟩))
      | .error e => some (.error
          ⟨e, ⟨0, byteLength (c :: s)⟩, 1, String.ofList ((c :: s).take shownLength)⟩) := by
    simp only [nextLexeme, List.cons_append, hskip, hmatch, readLexeme, line_zero, Nat.zero_add]
    cases p.read (c :: s) <;> rfl
  have hbehind := lexFrom_shift (c :: s) (List.nil_append later.toList).symm
  rw [byteLength_nil, Nat.zero_add] at hbehind
  rw [lexing, LineIndex.ofSource, Place.start, hsource, lexFrom_eq, hnext]
  cases p.read (c :: s) with
  | error e => rfl
  | ok t => simp only [hbehind]; rfl

theorem lexing_empty : lexing "" = ⟨[], none⟩ :=
  lexFrom_of_passes_all (.stop (by simp) (by simp) (by simp)) _ _

/-- A source that is one match and nothing else. -/
theorem lexing_sole {source : String} {p : Pattern}
    (hstays : ∀ offset, skip offset source.toList = ⟨offset, source.toList⟩)
    (hlongest : ∃ c s, source.toList = c :: s ∧ longestMatch c s = ⟨p, source.toList, []⟩) :
    lexing source = .sole source.toList (p.read source.toList) := by
  have hsource : source.toList = source.toList ++ "".toList := (List.append_nil _).symm
  rw [lexing_of_match hsource (by simpa using hstays)
    (by simpa using hlongest), lexing_empty]
  cases p.read source.toList <;> rfl

theorem lexing_of_reads {source : String} {p : Pattern} {t : Token}
    (h : Reads p source.toList [] t) (hfits : byteLength source.toList ≤ maxLexemeLength) :
    lexing source = .sole source.toList (.ok t) := by
  rw [lexing_sole (by simpa using h.stays) (by simpa using h.longest), h.read,
    if_neg (Nat.not_lt_of_le hfits)]

/-- A lexeme of a source is what its pattern reads in the text that it stands for. -/
theorem exists_pattern {source : String} {l : Lexeme} (h : l ∈ (lexing source).lexemes) :
    ∃ p, HasPattern p (sourceText source l.span).toList ∧
      p.read (sourceText source l.span).toList = .ok l.token := by
  obtain ⟨place, next, harrives, hnext⟩ := (lexFrom_arrives .start).1 l h
  obtain ⟨before, hsource, hoffset⟩ := harrives.in_source
  obtain ⟨offset, rest⟩ := place
  obtain rfl : offset = byteLength before := hoffset
  obtain hall | ⟨gap, c, rest, rfl, hpasses⟩ := exists_passes rest
  · rw [nextLexeme_of_passes_all hall] at hnext
    cases hnext
  rw [nextLexeme_of_passes hpasses, ← byteLength_append] at hnext
  cases hread :
      readLexeme (.ofSource source) (byteLength (before ++ gap)) (longestMatch c rest) with
  | error e =>
    rw [hread] at hnext
    cases hnext
  | ok l' =>
    rw [hread] at hnext
    cases hnext
    obtain ⟨t, htoken, -, rfl⟩ := exists_read_of_readLexeme hread
    have hwhole : source.toList =
        before ++ gap ++ (longestMatch c rest).text ++ (longestMatch c rest).rest := by
      rw [hsource, List.append_assoc (before ++ gap), longestMatch_append]
      simp
    have htext := sourceText_of_append hwhole
    rw [byteLength_append (before ++ gap)] at htext
    simp only [htext, String.toList_ofList]
    exact ⟨_, longestMatch_hasPattern c rest, htoken⟩

theorem readSymbol_ne_literal (text : List Char) (v : Value) : readSymbol text ≠ .literal v := by
  unfold readSymbol
  split <;> simp

theorem readDecimal_integer {digits : List Char} {t : Token} (h : readDecimal digits = .ok t) :
    ∃ n, t = .literal (.integer n) := by
  simp only [readDecimal] at h
  split at h
  · cases h
  split at h
  · cases h
    exact ⟨_, rfl⟩
  · cases h

theorem readHexadecimal_integer {digits : List Char} {t : Token}
    (h : readHexadecimal digits = .ok t) : ∃ n, t = .literal (.integer n) := by
  simp only [readHexadecimal] at h
  split at h
  · cases h
    exact ⟨_, rfl⟩
  · cases h

/-- What the text of a literal is. -/
inductive Denotes (text : List Char) : Value → Prop where
  | bool (b : Bool) : Denotes text (.bool b)
  | integer (n : Int64) : Denotes text (.integer n)
  | real {whole fraction : List Char} (parts : Decimal.IsReal text whole fraction)
      (fits : byteLength text ≤ maxLexemeLength) :
      Denotes text (.real (Decimal.read whole fraction))
  | string {body : List Char} {s : String} (quoted : text = '"' :: body ++ ['"'])
      (isBody : IsBody body) (means : unescapeChars body = some s.toList)
      (fits : byteLength text ≤ maxLexemeLength) : Denotes text (.string s)

theorem denotes_of_read {p : Pattern} {text : List Char} {v : Value} (hpattern : HasPattern p text)
    (h : p.read text = .ok (.literal v)) : Denotes text v := by
  cases hpattern with
  | symbol => exact absurd (Except.ok.inj h) (readSymbol_ne_literal _ v)
  | keyword =>
    cases h
    exact .bool _
  | decimal =>
    obtain ⟨n, hn⟩ := readDecimal_integer (limited_eq_ok h).2
    cases hn
    exact .integer n
  | hexadecimal =>
    obtain ⟨n, hn⟩ := readHexadecimal_integer (limited_eq_ok h).2
    cases hn
    exact .integer n
  | real hreal =>
    obtain ⟨hfits, hread⟩ := limited_eq_ok h
    rw [readReal_of_isReal hreal] at hread
    cases hread
    exact .real hreal hfits
  | @string body hbody =>
    obtain ⟨hfits, hread⟩ := limited_eq_ok h
    have hdrop : ('"' :: body ++ ['"']).drop 1 = body ++ ['"'] := rfl
    rw [hdrop, List.dropLast_concat, readString] at hread
    split at hread
    · rename_i chars hchars
      cases hread
      exact .string rfl hbody (by rw [hchars, String.toList_ofList]) hfits
    · cases hread
  | identifier => cases (limited_eq_ok h).2
  | openString => cases h
  | openComment => cases h
  | stray => cases h

/-- The text that a literal stands for in a source. -/
theorem denotes_of_mem {source : String} {l : Lexeme} {v : Value}
    (h : l ∈ (lexing source).lexemes) (hv : l.token = .literal v) :
    Denotes (sourceText source l.span).toList v := by
  obtain ⟨p, hpattern, hread⟩ := exists_pattern h
  exact denotes_of_read hpattern (hv ▸ hread)

/-! ## Writing down what was read -/

/-- The body of a string literal with its line feeds escaped. -/
def escapeFeeds (body : List Char) : List Char :=
  body.flatMap fun c => if c = '\n' then ['\\', 'n'] else [c]

@[simp] theorem escapeFeeds_cons (c : Char) (body : List Char) :
    escapeFeeds (c :: body) = (if c = '\n' then ['\\', 'n'] else [c]) ++ escapeFeeds body := rfl

theorem byteLength_escapeFeeds (body : List Char) :
    byteLength (escapeFeeds body) = byteLength body + body.count '\n' := by
  induction body with
  | nil => rfl
  | cons c body ih =>
    have hfeed : '\n'.utf8Size = 1 := rfl
    have hbackslash : '\\'.utf8Size = 1 := rfl
    have hletter : 'n'.utf8Size = 1 := rfl
    rw [escapeFeeds_cons, byteLength_append, ih]
    by_cases hc : c = '\n'
    · subst hc
      simp [hfeed, hbackslash, hletter]
      omega
    · simp [hc]
      omega

theorem unescapeChar_eq_some {e c : Char} (h : unescapeChar e = some c) :
    e ≠ '\n' ∧ escapeChar c = ['\\', e] := by
  unfold unescapeChar at h
  split at h
  · cases h
    exact ⟨by decide, rfl⟩
  · cases h
    exact ⟨by decide, rfl⟩
  · cases h
    exact ⟨by decide, rfl⟩
  · cases h

/-- Escaping what a body means gives the body, but for its line feeds. -/
theorem escapeChars_of_unescapeChars {body s : List Char} (hbody : IsBody body)
    (h : unescapeChars body = some s) : escapeChars s = escapeFeeds body := by
  induction hbody generalizing s with
  | nil =>
    cases h
    rfl
  | @plain c rest hquote hbackslash later ih =>
    rw [unescapeChars_cons hbackslash, Option.map_eq_some_iff] at h
    obtain ⟨s, hs, rfl⟩ := h
    have hc : escapeChar c = if c = '\n' then ['\\', 'n'] else [c] := by
      unfold escapeChar
      split <;> simp_all
    rw [escapeChars_cons, escapeFeeds_cons, hc, ih hs]
  | @escape e rest later ih =>
    rw [unescapeChars, Option.bind_eq_bind, Option.bind_eq_some_iff] at h
    obtain ⟨c, hc, h⟩ := h
    rw [Option.bind_eq_bind, Option.bind_eq_some_iff] at h
    obtain ⟨s, hs, hsame⟩ := h
    cases hsame
    obtain ⟨hfeed, hescape⟩ := unescapeChar_eq_some hc
    rw [escapeChars_cons, hescape, ih hs]
    simp [hfeed]

theorem byteLength_escapeChars (s : String) :
    byteLength (escapeChars s.toList) = (escape s).utf8ByteSize := by
  rw [escape, ← byteLength_toList, String.toList_ofList]

theorem stringText (s : String) :
    (literalText (.string s)).toList = '"' :: escapeChars s.toList ++ ['"'] := by
  simp [literalText, escape]

theorem byteLength_stringText (s : String) :
    byteLength (literalText (.string s)).toList = (escape s).utf8ByteSize + 2 := by
  have hquote : '"'.utf8Size = 1 := rfl
  rw [stringText, ← byteLength_escapeChars]
  simp [hquote]
  omega

/-- A string that fits reads as itself in front of every text, and the text behind it reads as it
does alone. What stands for a string in a source is its escaped form but for line feeds, and this
form reads as the string again if it fits. -/
theorem lexing_string_append :
    (∀ s t : String, (escape s).utf8ByteSize ≤ maxLexemeLength - 2 →
      lexing (literalText (.string s) ++ t) =
        let behind := (lexing t).shift ((escape s).utf8ByteSize + 2) 0
        ⟨⟨.literal (.string s), ⟨0, (escape s).utf8ByteSize + 2⟩, 1⟩ :: behind.lexemes,
          behind.failure⟩) ∧
    ∀ source, ∀ l ∈ (lexing source).lexemes, ∀ s, l.token = .literal (.string s) →
      (∃ body, (sourceText source l.span).toList = '"' :: body ++ ['"'] ∧
        unescapeChars body = some s.toList ∧ (escape s).toList = escapeFeeds body) ∧
      ((escape s).utf8ByteSize ≤ maxLexemeLength - 2 →
        lexing (literalText (.string s)) =
          ⟨[⟨.literal (.string s), ⟨0, (escape s).utf8ByteSize + 2⟩, 1⟩], none⟩) := by
  have hfront (s t : String) (hfits : (escape s).utf8ByteSize ≤ maxLexemeLength - 2) :
      lexing (literalText (.string s) ++ t) =
        let behind := (lexing t).shift ((escape s).utf8ByteSize + 2) 0
        ⟨⟨.literal (.string s), ⟨0, (escape s).utf8ByteSize + 2⟩, 1⟩ :: behind.lexemes,
          behind.failure⟩ := by
    have hlength := byteLength_stringText s
    have hfeeds := newline_not_mem_escapeChars s.toList
    have hreads := reads_string s t.toList
    rw [← stringText] at hreads
    have hread := hreads.read
    have hlimit : maxLexemeLength = 256 := rfl
    rw [if_neg (by omega)] at hread
    rw [lexing_of_match String.toList_append hreads.stays hreads.longest, hread, hlength]
    have hcount : (literalText (.string s)).toList.count '\n' = 0 := by
      rw [stringText]
      exact List.count_eq_zero_of_not_mem (by simp [hfeeds])
    rw [hcount]
  refine ⟨hfront, fun source l hl s hs => ⟨?_, fun hfits => ?_⟩⟩
  · cases denotes_of_mem hl hs with
    | @string body _ hquoted hbody hmeans _ =>
      refine ⟨body, hquoted, hmeans, ?_⟩
      rw [escape, String.toList_ofList]
      exact escapeChars_of_unescapeChars hbody hmeans
  · have halone := hfront s "" hfits
    rw [String.append_empty, lexing_empty] at halone
    exact halone

/-- A quote behind two backslashes closes a literal, a quote behind three does not; the open quote
that follows is a failure of its own. A raw line feed is written down as an escaped one. -/
theorem lexing_string_append_backslashes :
    lexing (literalText (.string "\\\"\\") ++ "\" ") =
      ⟨[⟨.literal (.string "\\\"\\"), ⟨0, 8⟩, 1⟩],
        some ⟨.unterminatedString, ⟨8, 10⟩, 1, "\" "⟩⟩ ∧
    ∃ l ∈ (lexing "a = \"\n\\n\"").lexemes, l.token = .literal (.string "\n\n") ∧
      (escape "\n\n").toList = escapeFeeds ['\n', '\\', 'n'] ∧
      lexing (literalText (.string "\n\n")) =
        ⟨[⟨.literal (.string "\n\n"), ⟨0, 6⟩, 1⟩], none⟩ := by
  obtain ⟨hfront, hagain⟩ := lexing_string_append
  constructor
  · have hlexemes : (lexing "\" ").lexemes = [] := by decide +kernel
    have hfailure : (lexing "\" ").failure = some ⟨.unterminatedString, ⟨0, 2⟩, 1, "\" "⟩ := by
      decide +kernel
    have hlength : (escape "\\\"\\").utf8ByteSize = 6 := by decide +kernel
    rw [hfront _ _ (by rw [hlength]; decide), hlength]
    simp [Lexing.shift, hlexemes, hfailure, LexicalError.shift, Span.shift]
  · have hmem : ⟨.literal (.string "\n\n"), ⟨4, 9⟩, 1⟩ ∈ (lexing "a = \"\n\\n\"").lexemes := by
      decide +kernel
    have hlength : (escape "\n\n").utf8ByteSize = 4 := by decide +kernel
    refine ⟨_, hmem, rfl, by decide +kernel, ?_⟩
    rw [(hagain _ _ hmem _ rfl).2 (by rw [hlength]; decide), hlength]

end FrameGraph.Script
