import FrameGraph.Proofs.Script.Acceptance
import FrameGraph.Proofs.Script.Canonical
import FrameGraph.Proofs.Source.Lines

/-!
# Round trip

The canonical text of a program that was read without errors reads as the same statements, one on
each line, and is canonical already. Only a literal that is longer when printed than it was in the
source can prevent this, and then the text does not lex.
-/
namespace FrameGraph.Script

open Text

/-- No literal of the program is too long for a lexeme when it is printed. -/
def Program.LiteralsFit (p : Program) : Prop :=
  ∀ s ∈ p.statements, ∀ a ∈ s.assignments,
    (literalText a.literal.value).utf8ByteSize ≤ maxLexemeLength

instance (p : Program) : Decidable p.LiteralsFit :=
  inferInstanceAs (Decidable (∀ s ∈ p.statements, ∀ a ∈ s.assignments,
    (literalText a.literal.value).utf8ByteSize ≤ maxLexemeLength))

/-! ## Lengths -/

theorem literal_mem_pathTokens (v : Value) (ns : List String) : .literal v ∉ pathTokens ns := by
  cases ns with
  | nil => simp [pathTokens]
  | cons n ns => simp [pathTokens]

theorem literal_mem_paramListTokens (v : Value) (ps : List (String × Value)) :
    .literal v ∈ paramListTokens ps ↔ ∃ p ∈ ps, p.2 = v := by
  fun_induction paramListTokens ps with
  | case1 => simp
  | case2 p => simp [paramTokens, eq_comm]
  | case3 p ps _ ih => simp [paramTokens, ih, eq_comm]

theorem literal_mem_tokens (v : Value) (s : Statement) :
    .literal v ∈ s.clause.tokens ↔ ∃ a ∈ s.assignments, a.literal.value = v := by
  obtain ⟨target, source, arguments, stop, line⟩ := s
  cases arguments with
  | none =>
    simp [Clause.tokens, Statement.clause, Statement.assignments, argumentTokens,
      literal_mem_pathTokens]
  | some as =>
    simp [Clause.tokens, Statement.clause, Statement.assignments, argumentTokens,
      literal_mem_pathTokens, literal_mem_paramListTokens, Assignment.content]

/-- Only literals can be longer when printed than a lexeme may be. -/
theorem fits_of_not_literal {t : Token} (ht : t.Readable) (hliteral : ∀ v, t ≠ .literal v) :
    byteLength t.spelling ≤ maxLexemeLength := by
  cases t with
  | literal v => exact absurd rfl (hliteral v)
  | identifier n => exact ht.2
  | _ => decide

theorem literalsFit_iff {p : Program}
    (htokens : ∀ s ∈ p.statements, ∀ t ∈ s.clause.tokens, t.Readable) :
    p.LiteralsFit ↔ ∀ piece ∈ (p.statements.map Statement.clause).flatMap Clause.pieces,
      byteLength piece.1.spelling ≤ maxLexemeLength := by
  constructor
  · intro h piece hpiece
    obtain ⟨c, hc, hpiece⟩ := List.mem_flatMap.mp hpiece
    obtain ⟨s, hs, rfl⟩ := List.mem_map.mp hc
    have ht : piece.1 ∈ s.clause.tokens := by
      rw [← pieces_tokens]
      exact List.mem_map_of_mem hpiece
    by_cases hliteral : ∃ v, piece.1 = .literal v
    · obtain ⟨v, hv⟩ := hliteral
      rw [hv] at ht ⊢
      obtain ⟨a, ha, rfl⟩ := (literal_mem_tokens v s).mp ht
      rw [Token.spelling, byteLength_toList]
      exact h s hs a ha
    · exact fits_of_not_literal (htokens s hs _ ht) fun v hv => hliteral ⟨v, hv⟩
  · intro h s hs a ha
    have ht := (literal_mem_tokens a.literal.value s).mpr ⟨a, ha, rfl⟩
    rw [← pieces_tokens] at ht
    obtain ⟨piece, hpiece, hliteral⟩ := List.mem_map.mp ht
    have hfits := h piece (List.mem_flatMap.mpr ⟨_, List.mem_map_of_mem hs, hpiece⟩)
    rwa [hliteral, Token.spelling, byteLength_toList] at hfits

/-! ## Lines -/

/-- The lexemes of every statement, in canonical form from an offset on. -/
def statementLexemes (lines : LineIndex) (offset : Nat) : List Clause → List (List Lexeme)
  | [] => []
  | c :: cs =>
    lexemes lines offset c.pieces ::
      statementLexemes lines (offset + byteLength (spell c.pieces)) cs

theorem flatten_statementLexemes (lines : LineIndex) (offset : Nat) (cs : List Clause) :
    (statementLexemes lines offset cs).flatten =
      lexemes lines offset (cs.flatMap Clause.pieces) := by
  induction cs generalizing offset with
  | nil => rfl
  | cons c cs ih =>
    rw [statementLexemes, List.flatten_cons, ih, List.flatMap_cons, lexemes_append]

theorem statementLexemes_spell {cs : List Clause} (hnamed : ∀ c ∈ cs, c.Named)
    (lines : LineIndex) (offset : Nat) :
    List.Forall₂ Spells (statementLexemes lines offset cs) cs := by
  induction cs generalizing offset with
  | nil => exact .nil
  | cons c cs ih =>
    obtain ⟨hc, hcs⟩ := List.forall_mem_cons.mp hnamed
    refine .cons ((derivesStatement_iff _ c).mpr ⟨hc, ?_⟩) (ih hcs _)
    rw [lexemes_token, pieces_tokens]

theorem readStatement_line {l : Lexeme} {ls : List Lexeme} {s : Statement}
    (h : readStatement (l :: ls) = .ok s) : s.line = l.line := by
  simp only [readStatement, bind_eq_ok] at h
  obtain ⟨⟨target, rest⟩, -, h⟩ := h
  simp only at h
  split at h
  · simp only [bind_eq_ok] at h
    obtain ⟨⟨source, rest⟩, -, ⟨arguments, stop⟩, -, h⟩ := h
    cases h
    rfl
  · cases h

theorem line_of_read {c : Clause} (hnamed : c.Named) {lines : LineIndex} {offset : Nat}
    {s : Statement} (h : readStatement (lexemes lines offset c.pieces) = .ok s) :
    s.line = lines.line offset := by
  obtain ⟨target, source, arguments⟩ := c
  obtain ⟨n, ns, rfl⟩ := List.exists_cons_of_ne_nil hnamed.target
  cases ns with
  | nil => exact readStatement_line h
  | cons m ns => exact readStatement_line h

/-- Statements that are printed one a line are found on these lines. -/
theorem lines_of_read {cs : List Clause} (hnamed : ∀ c ∈ cs, c.Named)
    (htokens : ∀ c ∈ cs, ∀ t ∈ c.tokens, t.Readable) (pre : List Char) (ss : List Statement)
    (h : (statementLexemes (.ofChars (pre ++ spell (cs.flatMap Clause.pieces))) (byteLength pre)
      cs).map readStatement = ss.map .ok) (i : Nat) (s : Statement) (hs : ss[i]? = some s) :
    s.line = pre.count '\n' + i + 1 := by
  induction cs generalizing pre ss i with
  | nil =>
    obtain rfl : ss = [] := by simpa [statementLexemes] using h.symm
    simp at hs
  | cons c cs ih =>
    cases ss with
    | nil => simp [statementLexemes] at h
    | cons s' ss =>
      obtain ⟨hc, hcs⟩ := List.forall_mem_cons.mp hnamed
      obtain ⟨htc, htcs⟩ := List.forall_mem_cons.mp htokens
      obtain ⟨hfirst, hlater⟩ := List.cons.inj h
      cases i with
      | zero =>
        cases hs
        rw [line_of_read hc hfirst, LineIndex.line_of_prefix]
      | succ i =>
        have hnext := ih hcs htcs (pre ++ spell c.pieces) ss
          (by rwa [List.append_assoc, ← spell_append, ← List.flatMap_cons, byteLength_append]) i hs
        rw [hnext, List.count_append, count_pieces hc htc]
        omega

/-! ## Programs -/

theorem text_eq_of_clauses {p q : Program}
    (h : p.statements.map Statement.clause = q.statements.map Statement.clause) :
    p.text = q.text := by
  rw [Program.text, Program.text, ← spell_program, ← spell_program, h]

theorem lexing_text (p : Program) : lexing p.text =
    lexFrom (.ofChars (spell ((p.statements.map Statement.clause).flatMap Clause.pieces)))
      ⟨0, spell ((p.statements.map Statement.clause).flatMap Clause.pieces)⟩ := by
  rw [spell_program, lexing, LineIndex.ofSource, Place.start, Program.text, String.toList_ofList]

/-- What a program says can be written: its tokens come from a text. -/
theorem program_readable {source : String} {p : Program} (h : parse source = ⟨some p, []⟩) :
    ∀ s ∈ p.statements, ∀ t ∈ s.clause.tokens, t.Readable := by
  obtain ⟨ls, ss, hlex, hunit, hparse⟩ := derivesUnit_of_parse (by rw [h])
  rw [h] at hparse
  cases hparse
  obtain ⟨-, htokens⟩ := (derivesUnit_iff _ _).mp hunit
  intro s hs t ht
  have hmem : t ∈ ls.map Lexeme.token := by
    rw [htokens]
    exact List.mem_flatMap.mpr ⟨_, List.mem_map_of_mem hs, ht⟩
  obtain ⟨l, hl, rfl⟩ := List.mem_map.mp hmem
  exact lex_readable hlex l hl

theorem parse_text_of_fits {p : Program}
    (htokens : ∀ s ∈ p.statements, ∀ t ∈ s.clause.tokens, t.Readable) (hfits : p.LiteralsFit) :
    ∃ again, parse p.text = ⟨some again, []⟩ ∧
      again.statements.map Statement.clause = p.statements.map Statement.clause ∧
      ∀ i s, again.statements[i]? = some s → s.line = i + 1 := by
  have hpieces := (literalsFit_iff htokens).mp hfits
  have hlexing := lexing_text p
  generalize hclauses : p.statements.map Statement.clause = cs at hpieces hlexing ⊢
  have hreadable : ∀ c ∈ cs, ∀ t ∈ c.tokens, t.Readable := by
    rw [← hclauses]
    exact List.forall_mem_map.mpr htokens
  have hnamed : ∀ c ∈ cs, c.Named := by
    rw [← hclauses]
    exact List.forall_mem_map.mpr fun s _ => clause_named s
  rw [lexFrom_spell (spaced_unit hreadable) hpieces, ← flatten_statementLexemes] at hlexing
  have hspells := statementLexemes_spell hnamed
    (.ofChars (spell (cs.flatMap Clause.pieces))) 0
  have hlex : lex p.text = .ok (statementLexemes
      (.ofChars (spell (cs.flatMap Clause.pieces))) 0 cs).flatten := by
    simp only [lex, hlexing]
  obtain ⟨ss, hread, hagain, hparse⟩ :=
    parse_of_derivesUnit hlex (derivesUnit_of_spells hspells)
  rw [regions_of_spells hspells] at hread
  refine ⟨_, hparse, hagain, fun i s hs => ?_⟩
  have hline := lines_of_read hnamed hreadable [] ss hread i s hs
  rwa [List.count_nil, Nat.zero_add] at hline

theorem parse_text_of_not_fits {p : Program}
    (htokens : ∀ s ∈ p.statements, ∀ t ∈ s.clause.tokens, t.Readable) (hlong : ¬p.LiteralsFit) :
    ∃ d, parse p.text = ⟨none, [d]⟩ ∧ d.code = some Code.lexical := by
  rw [literalsFit_iff htokens] at hlong
  simp only [not_forall, Nat.not_le] at hlong
  obtain ⟨piece, hpiece, hlength⟩ := hlong
  have hreadable : ∀ c ∈ p.statements.map Statement.clause, ∀ t ∈ c.tokens, t.Readable :=
    List.forall_mem_map.mpr htokens
  obtain ⟨e, he⟩ := lexFrom_spell_error (spaced_unit hreadable) ⟨piece, hpiece, hlength⟩
    (.ofChars (spell ((p.statements.map Statement.clause).flatMap Clause.pieces))) 0
  have hlex : lex p.text = .error e := by simp only [lex, lexing_text, he]
  exact ⟨e.diagnostic, by simp only [parse, hlex], rfl⟩

/-- The canonical text of a program that was read without errors reads without errors exactly if
no literal in it is too long. Then it reads as the same statements, bit by bit, one on each line,
and is their canonical text; otherwise there is no program, and one diagnostic says that the text
does not lex. -/
theorem parse_text_of_parse {source : String} {p : Program} (h : parse source = ⟨some p, []⟩) :
    ((parse p.text).errors = [] ↔ p.LiteralsFit) ∧
    (p.LiteralsFit → ∃ again, parse p.text = ⟨some again, []⟩ ∧
      again.statements.map Statement.clause = p.statements.map Statement.clause ∧
      (∀ i s, again.statements[i]? = some s → s.line = i + 1) ∧
      again.text = p.text) ∧
    (¬p.LiteralsFit → ∃ d, parse p.text = ⟨none, [d]⟩ ∧ d.code = some Code.lexical) := by
  have htokens := program_readable h
  refine ⟨⟨fun herrors => ?_, fun hfits => ?_⟩, fun hfits => ?_, parse_text_of_not_fits htokens⟩
  · by_cases hfits : p.LiteralsFit
    · exact hfits
    · obtain ⟨d, hparse, -⟩ := parse_text_of_not_fits htokens hfits
      rw [hparse] at herrors
      cases herrors
  · obtain ⟨again, hparse, -⟩ := parse_text_of_fits htokens hfits
    rw [hparse]
  · obtain ⟨again, hparse, hclauses, hlines⟩ := parse_text_of_fits htokens hfits
    exact ⟨again, hparse, hclauses, hlines, text_eq_of_clauses hclauses⟩

/-- A number in another notation reads back; line feeds are longer when they are escaped. -/
theorem parse_text_of_parse_literals :
    (∃ p again, parse "a = b(x=0x1F,on=true) c.d = a" = ⟨some p, []⟩ ∧ p.LiteralsFit ∧
      parse p.text = ⟨some again, []⟩ ∧ again.text = p.text) ∧
    ∃ p d, parse ("a = b(s=\"" ++ String.ofList (List.replicate 128 '\n') ++ "\")") =
        ⟨some p, []⟩ ∧ ¬p.LiteralsFit ∧
      parse p.text = ⟨none, [d]⟩ ∧ d.code = some Code.lexical := by
  constructor
  · have hread : (parse "a = b(x=0x1F,on=true) c.d = a").errors = [] ∧
        (parse "a = b(x=0x1F,on=true) c.d = a").program.any (fun p => p.LiteralsFit) = true := by
      decide +kernel
    generalize "a = b(x=0x1F,on=true) c.d = a" = source at hread ⊢
    obtain ⟨-, ss, -, -, hparse⟩ := derivesUnit_of_parse hread.1
    have hfits : Program.LiteralsFit ⟨ss, ⟨0, source.utf8ByteSize⟩⟩ := by
      simpa [hparse] using hread.2
    obtain ⟨again, hagain, -, -, htext⟩ := (parse_text_of_parse hparse).2.1 hfits
    exact ⟨_, again, hparse, hfits, hagain, htext⟩
  · have hread :
        (parse ("a = b(s=\"" ++ String.ofList (List.replicate 128 '\n') ++ "\")")).errors = [] ∧
        (parse ("a = b(s=\"" ++ String.ofList (List.replicate 128 '\n') ++ "\")")).program.any
          (fun p => ¬p.LiteralsFit) = true := by
      decide +kernel
    generalize "a = b(s=\"" ++ String.ofList (List.replicate 128 '\n') ++ "\")" = source at hread ⊢
    obtain ⟨-, ss, -, -, hparse⟩ := derivesUnit_of_parse hread.1
    have hlong : ¬Program.LiteralsFit ⟨ss, ⟨0, source.utf8ByteSize⟩⟩ := by
      simpa [hparse] using hread.2
    obtain ⟨d, hagain, hcode⟩ := (parse_text_of_parse hparse).2.2 hlong
    exact ⟨_, d, hparse, hlong, hagain, hcode⟩

end FrameGraph.Script
