import FrameGraph.Proofs.Script.Spelling
import FrameGraph.Proofs.Script.Derivation

/-!
# Printing

The canonical text of a program as written tokens with blanks between them. What follows a token
there never goes on with it, so the text lexes as these tokens, each at its place, unless one of
them is too long.
-/
namespace FrameGraph.Script

open Text

/-- A token and the blanks behind it. -/
abbrev Piece := Token × List Char

/-- The text of the pieces. -/
def spell (ps : List Piece) : List Char := ps.flatMap fun p => p.1.spelling ++ p.2

@[simp] theorem spell_nil : spell [] = [] := rfl

@[simp] theorem spell_cons (p : Piece) (ps : List Piece) :
    spell (p :: ps) = p.1.spelling ++ (p.2 ++ spell ps) := by
  simp [spell]

@[simp] theorem spell_append (ps qs : List Piece) : spell (ps ++ qs) = spell ps ++ spell qs :=
  List.flatMap_append

/-- The pieces before a text: tokens that can be written, blanks, and no token is gone on with. -/
def Spaced : List Piece → List Char → Prop
  | [], _ => True
  | (t, blanks) :: ps, rest =>
    t.Readable ∧ (∀ c ∈ blanks, isBlank c = true) ∧ t.EndsBefore (blanks ++ (spell ps ++ rest)) ∧
      Spaced ps rest

theorem spaced_append {ps qs : List Piece} {rest : List Char} (hps : Spaced ps (spell qs ++ rest))
    (hqs : Spaced qs rest) : Spaced (ps ++ qs) rest := by
  induction ps with
  | nil => exact hqs
  | cons p ps ih =>
    obtain ⟨hreadable, hblank, hend, hlater⟩ := hps
    refine ⟨hreadable, hblank, ?_, ih hlater⟩
    show p.1.EndsBefore (p.2 ++ (spell (ps ++ qs) ++ rest))
    rwa [spell_append, List.append_assoc]

/-! ## Lexing -/

/-- The lexemes of the pieces in a text, from an offset on. -/
def lexemes (lines : LineIndex) (offset : Nat) : List Piece → List Lexeme
  | [] => []
  | (t, blanks) :: ps =>
    ⟨t, ⟨offset, offset + byteLength t.spelling⟩, lines.line offset⟩ ::
      lexemes lines (offset + byteLength t.spelling + byteLength blanks) ps

theorem lexemes_token (lines : LineIndex) (offset : Nat) (ps : List Piece) :
    (lexemes lines offset ps).map Lexeme.token = ps.map Prod.fst := by
  induction ps generalizing offset with
  | nil => rfl
  | cons p ps ih => simp [lexemes, ih]

theorem lexemes_append (lines : LineIndex) (offset : Nat) (ps qs : List Piece) :
    lexemes lines offset (ps ++ qs) =
      lexemes lines offset ps ++ lexemes lines (offset + byteLength (spell ps)) qs := by
  induction ps generalizing offset with
  | nil => rfl
  | cons p ps ih => simp [lexemes, ih, Nat.add_assoc]

theorem lexFrom_eq (lines : LineIndex) (place : Place) : lexFrom lines place =
    match nextLexeme lines place with
    | none => ⟨[], none⟩
    | some (.error e) => ⟨[], some e⟩
    | some (.ok (l, next)) =>
      ⟨l :: (lexFrom lines next).lexemes, (lexFrom lines next).failure⟩ := by
  rw [lexFrom]
  split <;> rename_i hnext <;> rw [hnext]

theorem skip_blanks {blanks : List Char} (h : ∀ c ∈ blanks, isBlank c = true) (offset : Nat)
    (rest : List Char) :
    skip offset (blanks ++ rest) = skip (offset + byteLength blanks) rest := by
  induction blanks generalizing offset with
  | nil => rfl
  | cons c blanks ih =>
    obtain ⟨hc, hblanks⟩ := List.forall_mem_cons.mp h
    have hslash : c ≠ '/' := by
      rintro rfl
      cases hc
    rw [List.cons_append, skip_of_ne hslash, if_pos hc, ih hblanks, byteLength_cons,
      utf8Size_of_isBlank hc, Nat.add_assoc]

theorem lexFrom_blanks {blanks : List Char} (h : ∀ c ∈ blanks, isBlank c = true)
    (lines : LineIndex) (offset : Nat) (rest : List Char) :
    lexFrom lines ⟨offset, blanks ++ rest⟩ = lexFrom lines ⟨offset + byteLength blanks, rest⟩ := by
  have hnext : nextLexeme lines ⟨offset, blanks ++ rest⟩ =
      nextLexeme lines ⟨offset + byteLength blanks, rest⟩ := by
    rw [nextLexeme, nextLexeme, skip_blanks h]
  rw [lexFrom_eq, hnext, ← lexFrom_eq]

theorem nextLexeme_of_reads {pattern : Pattern} {text rest : List Char} {t : Token}
    (h : Reads pattern text rest t) (lines : LineIndex) (offset : Nat) :
    if byteLength text ≤ maxLexemeLength then
      nextLexeme lines ⟨offset, text ++ rest⟩ =
        some (.ok (⟨t, ⟨offset, offset + byteLength text⟩, lines.line offset⟩,
          ⟨offset + byteLength text, rest⟩))
    else ∃ e, nextLexeme lines ⟨offset, text ++ rest⟩ = some (.error e) := by
  obtain ⟨c, s, rfl, hlongest⟩ := h.longest
  have hstays := h.stays offset
  have hread := h.read
  rw [List.cons_append] at hstays ⊢
  split
  · rename_i hfits
    rw [if_neg (Nat.not_lt.mpr hfits)] at hread
    simp only [nextLexeme, hstays, hlongest, readLexeme, hread]
  · rename_i hlong
    rw [if_pos (Nat.lt_of_not_le hlong)] at hread
    simp only [nextLexeme, hstays, hlongest, readLexeme, hread]
    exact ⟨_, rfl⟩

/-- Pieces lex as their tokens if none of them is too long. -/
theorem lexFrom_spell {ps : List Piece} (h : Spaced ps [])
    (hfits : ∀ p ∈ ps, byteLength p.1.spelling ≤ maxLexemeLength) (lines : LineIndex)
    (offset : Nat) : lexFrom lines ⟨offset, spell ps⟩ = ⟨lexemes lines offset ps, none⟩ := by
  induction ps generalizing offset with
  | nil => rw [lexFrom_eq]; rfl
  | cons p ps ih =>
    obtain ⟨t, blanks⟩ := p
    obtain ⟨hreadable, hblanks, hend, hlater⟩ := h
    obtain ⟨ht, hps⟩ := List.forall_mem_cons.mp hfits
    rw [List.append_nil] at hend
    obtain ⟨pattern, hreads⟩ := reads_spelling hreadable hend
    have hnext := nextLexeme_of_reads hreads lines offset
    rw [if_pos ht] at hnext
    simp only [spell_cons, lexFrom_eq lines ⟨offset, _⟩, hnext, lexFrom_blanks hblanks,
      ih hlater hps, lexemes]

/-- One piece that is too long ends the lexing. -/
theorem lexFrom_spell_error {ps : List Piece} (h : Spaced ps [])
    (hlong : ∃ p ∈ ps, maxLexemeLength < byteLength p.1.spelling) (lines : LineIndex)
    (offset : Nat) : ∃ e, (lexFrom lines ⟨offset, spell ps⟩).failure = some e := by
  induction ps generalizing offset with
  | nil => simp at hlong
  | cons p ps ih =>
    obtain ⟨t, blanks⟩ := p
    obtain ⟨hreadable, hblanks, hend, hlater⟩ := h
    rw [List.append_nil] at hend
    obtain ⟨pattern, hreads⟩ := reads_spelling hreadable hend
    have hnext := nextLexeme_of_reads hreads lines offset
    by_cases ht : byteLength t.spelling ≤ maxLexemeLength
    · rw [if_pos ht] at hnext
      have hrest : ∃ p ∈ ps, maxLexemeLength < byteLength p.1.spelling := by
        obtain ⟨p, hp, hlong⟩ := hlong
        obtain rfl | hp := List.mem_cons.mp hp
        · exact absurd hlong (Nat.not_lt.mpr ht)
        · exact ⟨p, hp, hlong⟩
      obtain ⟨e, he⟩ := ih hlater hrest (offset + byteLength t.spelling + byteLength blanks)
      refine ⟨e, ?_⟩
      simp only [spell_cons, lexFrom_eq lines ⟨offset, _⟩, hnext, lexFrom_blanks hblanks, he]
    · rw [if_neg ht] at hnext
      obtain ⟨e, he⟩ := hnext
      refine ⟨e, ?_⟩
      simp only [spell_cons, lexFrom_eq, he]

end FrameGraph.Script
