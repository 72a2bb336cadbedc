import FrameGraph.Proofs.Script.Printing

/-!
# Canonical text

The pieces of a statement in canonical form. They spell the line that is printed for it, they say
the tokens of what it says, and only the last of them is followed by a line feed.
-/
namespace FrameGraph.Script

open Text

/-- The pieces of a path, with these blanks behind its last name. -/
def pathPieces (blanks : List Char) : List String → List Piece
  | [] => []
  | [n] => [(.identifier n, blanks)]
  | n :: ns => (.identifier n, []) :: (.dot, []) :: pathPieces blanks ns

def paramPieces (p : String × Value) : List Piece :=
  [(.identifier p.1, []), (.equals, []), (.literal p.2, [])]

def paramListPieces : List (String × Value) → List Piece
  | [] => []
  | [p] => paramPieces p
  | p :: ps => paramPieces p ++ (.comma, [' ']) :: paramListPieces ps

/-- The pieces of a source path and of the arguments behind it. -/
def sourcePieces (source : List String) : Option (List (String × Value)) → List Piece
  | none => pathPieces ['\n'] source
  | some ps =>
    pathPieces [] source ++ (.openParen, []) :: (paramListPieces ps ++ [(.closeParen, ['\n'])])

/-- The pieces of a statement, up to the end of its line. -/
def Clause.pieces (c : Clause) : List Piece :=
  pathPieces [' '] c.target ++ (.equals, [' ']) :: sourcePieces c.source c.arguments

/-! ## Tokens -/

theorem pathPieces_tokens (blanks : List Char) (ns : List String) :
    (pathPieces blanks ns).map Prod.fst = pathTokens ns := by
  fun_induction pathPieces blanks ns with
  | case1 => rfl
  | case2 => rfl
  | case3 n ns hne ih =>
    cases ns with
    | nil => exact absurd rfl hne
    | cons m ns =>
      rw [List.map_cons, List.map_cons, ih]
      rfl

theorem paramListPieces_tokens (ps : List (String × Value)) :
    (paramListPieces ps).map Prod.fst = paramListTokens ps := by
  fun_induction paramListPieces ps with
  | case1 => rfl
  | case2 => rfl
  | case3 p ps hne ih =>
    cases ps with
    | nil => exact absurd rfl hne
    | cons q ps =>
      rw [List.map_append, List.map_cons, ih]
      rfl

theorem pieces_tokens (c : Clause) : c.pieces.map Prod.fst = c.tokens := by
  obtain ⟨target, source, arguments⟩ := c
  cases arguments with
  | none => simp [Clause.pieces, Clause.tokens, sourcePieces, argumentTokens, pathPieces_tokens]
  | some ps =>
    simp [Clause.pieces, Clause.tokens, sourcePieces, argumentTokens, pathPieces_tokens,
      paramListPieces_tokens]

/-! ## Text -/

theorem spell_pathPieces (blanks : List Char) {ns : List String} (hns : ns ≠ []) :
    spell (pathPieces blanks ns) = ['.'].intercalate (ns.map String.toList) ++ blanks := by
  fun_induction pathPieces blanks ns with
  | case1 => exact absurd rfl hns
  | case2 n => simp [Token.spelling]
  | case3 n ns hne ih =>
    cases ns with
    | nil => exact absurd rfl hne
    | cons m ns =>
      rw [spell_cons, spell_cons, ih (List.cons_ne_nil _ _)]
      simp [Token.spelling, List.intercalate_cons_cons]

theorem spell_paramPieces (a : Assignment) : spell (paramPieces a.content) = a.chars := by
  simp [paramPieces, Assignment.content, Assignment.chars, Token.spelling]

theorem spell_paramListPieces (as : List Assignment) :
    spell (paramListPieces (as.map Assignment.content)) =
      [',', ' '].intercalate (as.map Assignment.chars) := by
  induction as with
  | nil => rfl
  | cons a as ih =>
    cases as with
    | nil => simp [paramListPieces, spell_paramPieces]
    | cons b as =>
      rw [List.map_cons, List.map_cons] at ih ⊢
      rw [paramListPieces, spell_append, spell_cons, ih, spell_paramPieces]
      · simp [Token.spelling, List.intercalate_cons_cons]
      · exact fun h => by cases h

theorem spell_pieces (s : Statement) : spell s.clause.pieces = s.chars ++ ['\n'] := by
  have htarget := spell_pathPieces [' '] (clause_named s).target
  obtain ⟨target, source, arguments, stop, line⟩ := s
  cases arguments with
  | none =>
    have hsource : spell (pathPieces ['\n'] source.names) = source.chars ++ ['\n'] :=
      spell_pathPieces ['\n'] (List.cons_ne_nil _ _)
    simp only [Clause.pieces, Statement.clause, Option.map_none, sourcePieces] at htarget ⊢
    rw [spell_append, spell_cons, htarget, hsource]
    simp [Statement.chars, Path.chars, Token.spelling]
  | some as =>
    have hsource : spell (pathPieces [] source.names) = source.chars ++ [] :=
      spell_pathPieces [] (List.cons_ne_nil _ _)
    simp only [Clause.pieces, Statement.clause, Option.map_some, sourcePieces] at htarget ⊢
    rw [spell_append, spell_cons, spell_append, spell_cons, spell_append,
      spell_paramListPieces, htarget, hsource]
    simp [Statement.chars, Path.chars, Token.spelling]

/-- The canonical text of a program is that of its pieces. -/
theorem spell_program (p : Program) :
    spell ((p.statements.map Statement.clause).flatMap Clause.pieces) = p.chars := by
  rw [Program.chars]
  induction p.statements with
  | nil => rfl
  | cons s ss ih =>
    rw [List.map_cons, List.flatMap_cons, spell_append, spell_pieces, ih, List.flatMap_cons]

/-! ## Spaces -/

theorem endsBefore_of_head {rest : List Char}
    (h : ∀ c ∈ rest.head?, continuesName c = false ∧ c ≠ '.') (t : Token) : t.EndsBefore rest := by
  cases t with
  | literal v => cases v <;> first | exact h | trivial
  | identifier n => exact fun c hc => (h c hc).1
  | _ => trivial

theorem spaced_path {blanks : List Char} {ns : List String} {rest : List Char}
    (hnames : ∀ t ∈ pathTokens ns, t.Readable) (hblanks : ∀ c ∈ blanks, isBlank c = true)
    (hrest : ∀ c ∈ (blanks ++ rest).head?, continuesName c = false) :
    Spaced (pathPieces blanks ns) rest := by
  rw [← pathPieces_tokens blanks] at hnames
  fun_induction pathPieces blanks ns with
  | case1 => trivial
  | case2 n =>
    exact ⟨hnames _ (by simp), hblanks, hrest, trivial⟩
  | case3 n ns hne ih =>
    rw [List.map_cons, List.map_cons, List.forall_mem_cons, List.forall_mem_cons] at hnames
    refine ⟨hnames.1, by simp, ?_, trivial, by simp, trivial, ih hnames.2.2⟩
    exact forall_head?_cons rfl

theorem spaced_param {p : String × Value} {rest : List Char}
    (htokens : ∀ t ∈ paramTokens p, t.Readable)
    (hrest : ∀ c ∈ rest.head?, continuesName c = false ∧ c ≠ '.') :
    Spaced (paramPieces p) rest := by
  refine ⟨htokens _ (by simp [paramTokens]), by simp, ?_, trivial, by simp, trivial,
    htokens _ (by simp [paramTokens]), by simp, endsBefore_of_head hrest _, trivial⟩
  exact forall_head?_cons rfl

theorem spaced_params {ps : List (String × Value)} {rest : List Char}
    (htokens : ∀ t ∈ paramListTokens ps, t.Readable)
    (hrest : ∀ c ∈ rest.head?, continuesName c = false ∧ c ≠ '.') :
    Spaced (paramListPieces ps) rest := by
  rw [← paramListPieces_tokens] at htokens
  fun_induction paramListPieces ps with
  | case1 => trivial
  | case2 p => exact spaced_param htokens hrest
  | case3 p ps hne ih =>
    rw [List.map_append, List.map_cons, List.forall_mem_append, List.forall_mem_cons] at htokens
    obtain ⟨hp, -, hps⟩ := htokens
    refine spaced_append (spaced_param hp ?_) ⟨trivial, by simp [isBlank], trivial, ih hps⟩
    exact forall_head?_cons ⟨rfl, by decide⟩

theorem spaced_pieces {c : Clause} (htokens : ∀ t ∈ c.tokens, t.Readable) (rest : List Char) :
    Spaced c.pieces rest := by
  obtain ⟨target, source, arguments⟩ := c
  simp only [Clause.tokens, List.forall_mem_append, List.forall_mem_cons] at htokens
  obtain ⟨htarget, -, hsource, harguments⟩ := htokens
  have hleft {later : List Char} : Spaced (pathPieces [' '] target) later :=
    spaced_path htarget (by simp [isBlank]) (forall_head?_cons rfl)
  refine spaced_append hleft ⟨trivial, by simp [isBlank], trivial, ?_⟩
  cases arguments with
  | none => exact spaced_path hsource (by simp [isBlank]) (forall_head?_cons rfl)
  | some ps =>
    simp only [argumentTokens, List.forall_mem_cons, List.forall_mem_append] at harguments
    obtain ⟨-, hps, -⟩ := harguments
    refine spaced_append (spaced_path hsource (by simp) (forall_head?_cons rfl)) ?_
    refine ⟨trivial, by simp, trivial, ?_⟩
    refine spaced_append (spaced_params hps ?_) ⟨trivial, by simp [isBlank], trivial, trivial⟩
    exact forall_head?_cons ⟨rfl, by decide⟩

theorem spaced_unit {cs : List Clause} (h : ∀ c ∈ cs, ∀ t ∈ c.tokens, t.Readable) :
    Spaced (cs.flatMap Clause.pieces) [] := by
  induction cs with
  | nil => trivial
  | cons c cs ih =>
    obtain ⟨hc, hcs⟩ := List.forall_mem_cons.mp h
    exact spaced_append (spaced_pieces hc _) (ih hcs)

/-! ## Lines -/

theorem not_mem_of_isDigit {s : List Char} (h : ∀ c ∈ s, c.isDigit = true) : '\n' ∉ s :=
  fun hc => absurd (h _ hc) (by decide)

theorem newline_not_mem_word {s : List Char} (h : IsWord s) : '\n' ∉ s := by
  intro hmem
  cases h with
  | word hstarts hcontinues =>
    obtain rfl | hmem := List.mem_cons.mp hmem
    · cases hstarts
    · exact absurd (hcontinues _ hmem) (by decide)

theorem newline_not_mem_escapeChars (s : List Char) : '\n' ∉ escapeChars s := by
  induction s with
  | nil => simp
  | cons c s ih =>
    rw [escapeChars_cons, List.mem_append, not_or]
    refine ⟨?_, ih⟩
    unfold escapeChar
    split
    · decide
    · decide
    · decide
    · rename_i hfeed _ _
      exact fun h => hfeed (List.mem_singleton.mp h).symm

/-- No written token contains a line feed. -/
theorem newline_not_mem_spelling {t : Token} (ht : t.Readable) : '\n' ∉ t.spelling := by
  cases t with
  | identifier n => exact newline_not_mem_word ht.1.word
  | literal v =>
    cases v with
    | bool b => cases b <;> decide
    | integer n =>
      rw [Token.spelling, integerText ht]
      exact not_mem_of_isDigit (Decimal.isDigit_toDigits _)
    | real x =>
      obtain ⟨p, hp, rfl⟩ := ht
      obtain ⟨whole, fraction, hreal, -⟩ := Decimal.realText_reads hp
      rw [Token.spelling, literalText, hreal.text]
      simp [not_mem_of_isDigit hreal.whole_digits, not_mem_of_isDigit hreal.fraction_digits]
    | string s =>
      have hescape := newline_not_mem_escapeChars s.toList
      simp [Token.spelling, literalText, escape, hescape]
  | _ => decide

theorem count_spell {ps : List Piece} (h : ∀ t ∈ ps.map Prod.fst, t.Readable) :
    (spell ps).count '\n' = (ps.flatMap Prod.snd).count '\n' := by
  induction ps with
  | nil => rfl
  | cons p ps ih =>
    obtain ⟨hp, hps⟩ := List.forall_mem_cons.mp h
    rw [spell_cons, List.count_append, List.count_append, ih hps,
      List.count_eq_zero_of_not_mem (newline_not_mem_spelling hp), Nat.zero_add,
      List.flatMap_cons, List.count_append]

theorem pathPieces_blanks (blanks : List Char) {ns : List String} (hns : ns ≠ []) :
    (pathPieces blanks ns).flatMap Prod.snd = blanks := by
  fun_induction pathPieces blanks ns with
  | case1 => exact absurd rfl hns
  | case2 n => simp
  | case3 n ns hne ih => simpa using ih fun h => hne h

theorem paramListPieces_blanks (ps : List (String × Value)) :
    ((paramListPieces ps).flatMap Prod.snd).count '\n' = 0 := by
  fun_induction paramListPieces ps with
  | case1 => rfl
  | case2 p => rfl
  | case3 p ps hne ih => simpa [paramPieces] using ih

/-- A statement takes one line. -/
theorem count_pieces {c : Clause} (hnamed : c.Named) (htokens : ∀ t ∈ c.tokens, t.Readable) :
    (spell c.pieces).count '\n' = 1 := by
  rw [← pieces_tokens] at htokens
  rw [count_spell htokens]
  obtain ⟨target, source, arguments⟩ := c
  have htarget := pathPieces_blanks [' '] hnamed.target
  cases arguments with
  | none =>
    have hsource := pathPieces_blanks ['\n'] hnamed.source
    simp only [Clause.pieces, sourcePieces] at htarget hsource ⊢
    rw [List.flatMap_append, List.flatMap_cons, htarget, hsource]
    rfl
  | some ps =>
    have hsource := pathPieces_blanks [] hnamed.source
    have hparams := paramListPieces_blanks ps
    simp only [Clause.pieces, sourcePieces] at htarget hsource ⊢
    rw [List.flatMap_append, List.flatMap_cons, List.flatMap_append, List.flatMap_cons,
      List.flatMap_append, htarget, hsource]
    simp [hparams]

end FrameGraph.Script
