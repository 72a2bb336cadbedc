import FrameGraph.Script.Pattern
import FrameGraph.Text.Quoted

/-!
# The lexemes of a source

Blanks and comments are skipped, then the longest lexeme is taken, again and again. The first text
that is no token ends the lexing. A lexeme is not empty, so every round leaves less of the source.
-/
namespace FrameGraph.Script

/-- A position in the source: its offset and the text from there on. -/
structure Place where
  offset : Nat
  rest : List Char

def Place.start (source : String) : Place := ⟨0, source.toList⟩

mutual

/-- The next place that is not blank and not in a comment. -/
def skip (offset : Nat) : List Char → Place
  | '/' :: '/' :: rest => skipLine (offset + 2) rest
  | '/' :: '*' :: rest => skipBlock ⟨offset, '/' :: '*' :: rest⟩ (offset + 2) rest
  | c :: rest => if isBlank c then skip (offset + 1) rest else ⟨offset, c :: rest⟩
  | [] => ⟨offset, []⟩

def skipLine (offset : Nat) : List Char → Place
  | [] => ⟨offset, []⟩
  | c :: rest => if c = '\n' then skip (offset + 1) rest else skipLine (offset + c.utf8Size) rest

/-- Goes on behind the end of the comment that was opened at a place; back there if it has none. -/
def skipBlock (opening : Place) (offset : Nat) : List Char → Place
  | '*' :: '/' :: rest => skip (offset + 2) rest
  | c :: rest => skipBlock opening (offset + c.utf8Size) rest
  | [] => opening

end

/-- Why a source has no further lexemes, and where. -/
structure LexicalError where
  fault : LexicalFault
  span : Span
  line : Nat
  /-- The start of the offending text. -/
  text : String
  deriving DecidableEq

def LexicalError.reason (e : LexicalError) : String :=
  s!"{e.fault.message}: {Text.quoted e.text}"

def LexicalError.message (e : LexicalError) : String :=
  s!"line {e.line}: {e.reason}"

/-- How much of an offending text is shown, in characters. -/
def shownLength : Nat := 32

/-- The lexeme that a match at an offset makes, or why it makes none. -/
def readLexeme (lines : LineIndex) (offset : Nat) (m : Match) : Except LexicalError Lexeme :=
  let span : Span := ⟨offset, offset + Text.byteLength m.text⟩
  let line := lines.line offset
  match m.pattern.read m.text with
  | .ok token => .ok ⟨token, span, line⟩
  | .error fault => .error ⟨fault, span, line, String.ofList (m.text.take shownLength)⟩

/-- The next lexeme from a place on, with the place behind it; nothing at the end of the source. -/
def nextLexeme (lines : LineIndex) (place : Place) :
    Option (Except LexicalError (Lexeme × Place)) :=
  match skip place.offset place.rest with
  | ⟨_, []⟩ => none
  | ⟨offset, c :: rest⟩ =>
    let m := longestMatch c rest
    match readLexeme lines offset m with
    | .error e => some (.error e)
    | .ok lexeme => some (.ok (lexeme, ⟨lexeme.span.stop, m.rest⟩))

mutual

theorem skip_rest_length (offset : Nat) (s : List Char) :
    (skip offset s).rest.length ≤ s.length := by
  match s with
  | [] => simp [skip]
  | '/' :: '/' :: rest =>
    have := skipLine_rest_length (offset + 2) rest
    simp only [skip, List.length_cons]; omega
  | '/' :: '*' :: rest =>
    have := skipBlock_rest_length ⟨offset, '/' :: '*' :: rest⟩ (offset + 2) rest
      (rest.length + 2) (by simp) (by omega)
    simpa only [skip, List.length_cons] using this
  | c :: rest =>
    rw [skip.eq_def]
    split
    · rename_i r h
      cases h
      have := skipLine_rest_length (offset + 2) r
      simp only [List.length_cons]; omega
    · rename_i r h
      cases h
      exact skipBlock_rest_length ⟨offset, '/' :: '*' :: r⟩ (offset + 2) r (r.length + 2)
        (by simp) (by omega)
    · rename_i c' r _ _ h
      cases h
      have := skip_rest_length (offset + 1) rest
      split
      · simp only [List.length_cons]; omega
      · exact Nat.le_refl _
    · simp
termination_by s.length

theorem skipLine_rest_length (offset : Nat) (s : List Char) :
    (skipLine offset s).rest.length ≤ s.length := by
  match s with
  | [] => simp [skipLine]
  | c :: rest =>
    have := skip_rest_length (offset + 1) rest
    have := skipLine_rest_length (offset + c.utf8Size) rest
    simp only [skipLine]
    split <;> simp only [List.length_cons] <;> omega
termination_by s.length

theorem skipBlock_rest_length (opening : Place) (offset : Nat) (s : List Char) (n : Nat)
    (hopening : opening.rest.length ≤ n) (hs : s.length ≤ n) :
    (skipBlock opening offset s).rest.length ≤ n := by
  match s with
  | [] => simpa [skipBlock] using hopening
  | c :: rest =>
    rw [skipBlock.eq_def]
    split
    · rename_i r h
      cases h
      have := skip_rest_length (offset + 2) r
      simp only [List.length_cons] at hs
      omega
    · rename_i c' r _ h
      cases h
      exact skipBlock_rest_length opening (offset + c.utf8Size) rest n hopening
        (by simp only [List.length_cons] at hs; omega)
    · rename_i h
      cases h
termination_by s.length

end

/-- A lexeme is not empty. -/
theorem nextLexeme_rest_length {lines : LineIndex} {place next : Place} {lexeme : Lexeme}
    (h : nextLexeme lines place = some (.ok (lexeme, next))) :
    next.rest.length < place.rest.length := by
  have skipped := skip_rest_length place.offset place.rest
  unfold nextLexeme at h
  split at h
  · cases h
  · rename_i offset c rest hskip
    rw [hskip] at skipped
    have taken := longestMatch_rest_length c rest
    simp only at h
    split at h
    · cases h
    · cases h
      simp only [List.length_cons] at skipped ⊢
      omega

structure Lexing where
  lexemes : List Lexeme
  failure : Option LexicalError

def lexFrom (lines : LineIndex) (place : Place) : Lexing :=
  match _h : nextLexeme lines place with
  | none => ⟨[], none⟩
  | some (.error e) => ⟨[], some e⟩
  | some (.ok (lexeme, next)) =>
    let later := lexFrom lines next
    ⟨lexeme :: later.lexemes, later.failure⟩
termination_by place.rest.length
decreasing_by exact nextLexeme_rest_length ‹_›

def lexing (source : String) : Lexing :=
  lexFrom (.ofSource source) (.start source)

def lex (source : String) : Except LexicalError (List Lexeme) :=
  let l := lexing source
  match l.failure with
  | none => .ok l.lexemes
  | some e => .error e

/-- A reader that gives one lexeme at a time. -/
structure Cursor where
  lines : LineIndex
  place : Place
  failure : Option LexicalError

def Cursor.start (source : String) : Cursor := ⟨.ofSource source, .start source, none⟩

/-- The next lexeme, none at the end of the source. An error is final: it comes again and again. -/
def Cursor.next (c : Cursor) : Except LexicalError (Option Lexeme) × Cursor :=
  match c.failure with
  | some e => (.error e, c)
  | none =>
    match nextLexeme c.lines c.place with
    | none => (.ok none, c)
    | some (.error e) => (.error e, { c with failure := some e })
    | some (.ok (lexeme, place)) => (.ok (some lexeme), { c with place })

end FrameGraph.Script
