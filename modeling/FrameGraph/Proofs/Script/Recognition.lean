import FrameGraph.Proofs.Script.Derivation
import FrameGraph.Script.Grammar

/-!
# Recognition

Reading one statement from lexemes against the grammar, in both directions: what is read spells the
lexemes that it was read from, and lexemes that spell a statement are read as that statement. A
path is read as far as dots go on, so nothing that follows a path may start with a dot.
-/
namespace FrameGraph.Script

/-- The lexemes do not go on with a dot. -/
def EndsPath (rest : List Lexeme) : Prop := rest.head?.map Lexeme.token ≠ some .dot

theorem map_token_eq_cons {ls : List Lexeme} {t : Token} {ts : List Token}
    (h : ls.map Lexeme.token = t :: ts) :
    ∃ span line rest, ls = ⟨t, span, line⟩ :: rest ∧ rest.map Lexeme.token = ts := by
  obtain ⟨l, rest, rfl, rfl, hrest⟩ := List.map_eq_cons_iff.mp h
  exact ⟨l.span, l.line, rest, rfl, hrest⟩

theorem bind_eq_ok {ε α β : Type} {x : Except ε α} {f : α → Except ε β} {b : β} :
    (x >>= f) = .ok b ↔ ∃ a, x = .ok a ∧ f a = .ok b := by
  cases x with
  | error e => simp [bind, Except.bind]
  | ok a => simp [bind, Except.bind]

theorem readTail_of_tokens (ns : List String) {pre : List Lexeme}
    (h : pre.map Lexeme.token = ns.flatMap fun m => [.dot, .identifier m])
    {rest : List Lexeme} (hrest : EndsPath rest) :
    ∃ tail, readTail (pre ++ rest) = .ok (tail, rest) ∧ tail.map Identifier.name = ns := by
  induction ns generalizing pre with
  | nil =>
    obtain rfl : pre = [] := by simpa using h
    refine ⟨[], ?_, rfl⟩
    cases rest with
    | nil => rfl
    | cons l rest =>
      obtain ⟨token, span, line⟩ := l
      cases token <;> first | rfl | exact absurd rfl hrest
  | cons n ns ih =>
    obtain ⟨s₁, k₁, pre, rfl, h₁⟩ := map_token_eq_cons h
    obtain ⟨s₂, k₂, pre, rfl, h₂⟩ := map_token_eq_cons h₁
    obtain ⟨tail, hread, hnames⟩ := ih h₂
    refine ⟨⟨n, s₂⟩ :: tail, ?_, by simp [hnames]⟩
    simp [readTail, hread, pure, Except.pure, bind, Except.bind]

theorem readTail_tokens {ls rest : List Lexeme} {tail : List Identifier}
    (h : readTail ls = .ok (tail, rest)) :
    EndsPath rest ∧ ∃ pre, ls = pre ++ rest ∧
      pre.map Lexeme.token = (tail.map Identifier.name).flatMap fun m => [.dot, .identifier m] := by
  induction ls using readTail.induct generalizing tail with
  | case1 s₁ k₁ name s₂ k₂ ls ih =>
    simp only [readTail, bind_eq_ok] at h
    obtain ⟨⟨later, rest'⟩, hread, he⟩ := h
    cases he
    obtain ⟨hend, pre, rfl, htokens⟩ := ih hread
    exact ⟨hend, ⟨.dot, s₁, k₁⟩ :: ⟨.identifier name, s₂, k₂⟩ :: pre, rfl, by simp [htokens]⟩
  | case2 s k ls hother =>
    rw [readTail.eq_2 s k ls hother] at h
    cases h
  | case3 ls hdotted hdot =>
    rw [readTail.eq_3 ls hdotted hdot] at h
    cases h
    refine ⟨?_, [], rfl, rfl⟩
    intro he
    obtain ⟨l, hl, htoken⟩ := Option.map_eq_some_iff.mp he
    obtain ⟨later, rfl⟩ := List.head?_eq_some_iff.mp hl
    exact hdot l.span l.line later (by rw [← htoken])

theorem readPath_of_tokens {ns : List String} (hns : ns ≠ []) {pre : List Lexeme}
    (h : pre.map Lexeme.token = pathTokens ns) {rest : List Lexeme} (hrest : EndsPath rest) :
    ∃ p, readPath (pre ++ rest) = .ok (p, rest) ∧ p.names = ns := by
  cases ns with
  | nil => exact absurd rfl hns
  | cons n ns =>
    obtain ⟨span, line, pre, rfl, htail⟩ := map_token_eq_cons h
    obtain ⟨tail, hread, hnames⟩ := readTail_of_tokens ns htail hrest
    refine ⟨⟨⟨n, span⟩, tail⟩, ?_, by simp [Path.names, Path.segments, hnames]⟩
    simp [readPath, hread, pure, Except.pure, bind, Except.bind]

theorem readPath_tokens {ls rest : List Lexeme} {p : Path} (h : readPath ls = .ok (p, rest)) :
    EndsPath rest ∧ ∃ pre, ls = pre ++ rest ∧ pre.map Lexeme.token = pathTokens p.names := by
  unfold readPath at h
  split at h
  · rename_i name span line ls
    rw [bind_eq_ok] at h
    obtain ⟨⟨tail, rest'⟩, hread, he⟩ := h
    cases he
    obtain ⟨hend, pre, rfl, htokens⟩ := readTail_tokens hread
    refine ⟨hend, ⟨.identifier name, span, line⟩ :: pre, rfl, ?_⟩
    simp [htokens, Path.names, Path.segments, pathTokens]
  · cases h

theorem readAssignments_of_tokens {ps : List (String × Value)} (hps : ps ≠ []) {pre : List Lexeme}
    (h : pre.map Lexeme.token = paramListTokens ps) (close : Span) (line : Nat)
    (rest : List Lexeme) :
    ∃ as, readAssignments (pre ++ ⟨.closeParen, close, line⟩ :: rest) =
      .ok ((as, close.stop), rest) ∧ as.map Assignment.content = ps := by
  induction ps generalizing pre with
  | nil => exact absurd rfl hps
  | cons p ps ih =>
    obtain ⟨n, v⟩ := p
    cases ps with
    | nil =>
      obtain ⟨s₁, k₁, pre, rfl, h₁⟩ := map_token_eq_cons h
      obtain ⟨s₂, k₂, pre, rfl, h₂⟩ := map_token_eq_cons h₁
      obtain ⟨s₃, k₃, pre, rfl, h₃⟩ := map_token_eq_cons h₂
      obtain rfl : pre = [] := by simpa using h₃
      exact ⟨[⟨⟨n, s₁⟩, ⟨v, s₃⟩⟩], rfl, rfl⟩
    | cons q ps =>
      obtain ⟨s₁, k₁, pre, rfl, h₁⟩ := map_token_eq_cons h
      obtain ⟨s₂, k₂, pre, rfl, h₂⟩ := map_token_eq_cons h₁
      obtain ⟨s₃, k₃, pre, rfl, h₃⟩ := map_token_eq_cons h₂
      obtain ⟨s₄, k₄, pre, rfl, h₄⟩ := map_token_eq_cons h₃
      obtain ⟨as, hread, has⟩ := ih (List.cons_ne_nil _ _) h₄
      refine ⟨⟨⟨n, s₁⟩, ⟨v, s₃⟩⟩ :: as, ?_, by simp [has, Assignment.content]⟩
      simp [readAssignments, hread, pure, Except.pure, bind, Except.bind]

theorem readAssignments_tokens {ls rest : List Lexeme} {as : List Assignment} {stop : Nat}
    (h : readAssignments ls = .ok ((as, stop), rest)) :
    as ≠ [] ∧ ∃ pre close line, ls = pre ++ ⟨.closeParen, close, line⟩ :: rest ∧
      pre.map Lexeme.token = paramListTokens (as.map Assignment.content) := by
  induction ls using readAssignments.induct generalizing as with
  | case1 n s₁ k₁ s₂ k₂ v s₃ k₃ s₄ k₄ ls ih =>
    simp only [readAssignments, bind_eq_ok] at h
    obtain ⟨⟨⟨later, stop'⟩, rest'⟩, hread, he⟩ := h
    cases he
    obtain ⟨hne, pre, close, line, rfl, htokens⟩ := ih hread
    refine ⟨List.cons_ne_nil _ _, ⟨.identifier n, s₁, k₁⟩ :: ⟨.equals, s₂, k₂⟩ ::
      ⟨.literal v, s₃, k₃⟩ :: ⟨.comma, s₄, k₄⟩ :: pre, close, line, rfl, ?_⟩
    cases later with
    | nil => exact absurd rfl hne
    | cons a later => simp [htokens, paramListTokens, paramTokens, Assignment.content]
  | case2 n s₁ k₁ s₂ k₂ v s₃ k₃ close k₄ ls =>
    cases h
    exact ⟨List.cons_ne_nil _ _, [⟨.identifier n, s₁, k₁⟩, ⟨.equals, s₂, k₂⟩,
      ⟨.literal v, s₃, k₃⟩], close, k₄, rfl, rfl⟩
  | case3 n s₁ k₁ s₂ k₂ v s₃ k₃ ls hcomma hclose =>
    rw [readAssignments.eq_3 n s₁ k₁ s₂ k₂ v s₃ k₃ ls hcomma hclose] at h
    cases h
  | case4 n s₁ k₁ s₂ k₂ ls h₁ h₂ h₃ =>
    rw [readAssignments.eq_4 n s₁ k₁ s₂ k₂ ls h₁ h₂ h₃] at h
    cases h
  | case5 n s₁ k₁ ls h₁ h₂ h₃ h₄ =>
    rw [readAssignments.eq_5 n s₁ k₁ ls h₁ h₂ h₃ h₄] at h
    cases h
  | case6 ls h₁ h₂ h₃ h₄ h₅ =>
    rw [readAssignments.eq_6 ls h₁ h₂ h₃ h₄ h₅] at h
    cases h

theorem readArguments_of_tokens {ps : List (String × Value)} {pre : List Lexeme}
    (h : pre.map Lexeme.token = paramListTokens ps) (close : Span) (line : Nat)
    (rest : List Lexeme) :
    ∃ as, readArguments (pre ++ ⟨.closeParen, close, line⟩ :: rest) =
      .ok ((as, close.stop), rest) ∧ as.map Assignment.content = ps := by
  by_cases hps : ps = []
  · subst hps
    obtain rfl : pre = [] := by simpa [paramListTokens] using h
    exact ⟨[], rfl, rfl⟩
  · obtain ⟨as, hread, has⟩ := readAssignments_of_tokens hps h close line rest
    refine ⟨as, ?_, has⟩
    obtain ⟨p, ps, rfl⟩ := List.exists_cons_of_ne_nil hps
    have hfirst : ∃ ts, paramListTokens (p :: ps) = .identifier p.1 :: ts := by
      cases ps <;> exact ⟨_, rfl⟩
    obtain ⟨ts, hts⟩ := hfirst
    obtain ⟨span, k, pre, rfl, -⟩ := map_token_eq_cons (h.trans hts)
    exact hread

theorem readArguments_tokens {ls rest : List Lexeme} {as : List Assignment} {stop : Nat}
    (h : readArguments ls = .ok ((as, stop), rest)) :
    ∃ pre close line, ls = pre ++ ⟨.closeParen, close, line⟩ :: rest ∧
      pre.map Lexeme.token = paramListTokens (as.map Assignment.content) := by
  unfold readArguments at h
  split at h
  · rename_i close line ls
    cases h
    exact ⟨[], close, line, rfl, rfl⟩
  · exact (readAssignments_tokens h).2
  · cases h

theorem endsPath_of_arguments {ls : List Lexeme} {arguments : Option (List (String × Value))}
    (h : ls.map Lexeme.token = argumentTokens arguments) : EndsPath ls := by
  cases arguments with
  | none =>
    obtain rfl : ls = [] := by simpa [argumentTokens] using h
    simp [EndsPath]
  | some ps =>
    obtain ⟨span, line, rest, rfl, -⟩ := map_token_eq_cons h
    simp [EndsPath]

theorem readEnding_of_tokens (source : Path) {ls : List Lexeme}
    {arguments : Option (List (String × Value))}
    (h : ls.map Lexeme.token = argumentTokens arguments) :
    ∃ as stop, readEnding source ls = .ok (as, stop) ∧
      as.map (·.map Assignment.content) = arguments := by
  cases arguments with
  | none =>
    obtain rfl : ls = [] := by simpa [argumentTokens] using h
    exact ⟨none, source.span.stop, rfl, rfl⟩
  | some ps =>
    obtain ⟨span, line, rest, rfl, hrest⟩ := map_token_eq_cons h
    obtain ⟨pre, close, rfl, hpre, hclose⟩ := List.map_eq_append_iff.mp hrest
    obtain ⟨stop, k, last, rfl, hlast⟩ := map_token_eq_cons hclose
    obtain rfl : last = [] := by simpa using hlast
    obtain ⟨as, hread, has⟩ := readArguments_of_tokens hpre stop k []
    refine ⟨some as, stop.stop, ?_, by simp [has]⟩
    simp [readEnding, hread, pure, Except.pure, bind, Except.bind]

theorem readEnding_tokens {source : Path} {ls : List Lexeme} {as : Option (List Assignment)}
    {stop : Nat} (h : readEnding source ls = .ok (as, stop)) :
    ls.map Lexeme.token = argumentTokens (as.map (·.map Assignment.content)) := by
  unfold readEnding at h
  split at h
  · cases h; rfl
  · rw [bind_eq_ok] at h
    obtain ⟨⟨⟨as', stop'⟩, rest⟩, hread, he⟩ := h
    obtain ⟨pre, close, line, rfl, htokens⟩ := readArguments_tokens hread
    cases rest with
    | nil => cases he; simp [argumentTokens, htokens]
    | cons l rest => cases he
  · cases h

/-- Lexemes are read as a statement exactly if they spell it. -/
theorem readStatement_iff (ls : List Lexeme) (c : Clause) :
    (∃ s, readStatement ls = .ok s ∧ s.clause = c) ↔ DerivesStatement (ls.map Lexeme.token) c := by
  rw [derivesStatement_iff]
  constructor
  · rintro ⟨s, h, rfl⟩
    refine ⟨clause_named s, ?_⟩
    simp only [readStatement, bind_eq_ok] at h
    obtain ⟨⟨target, rest⟩, htarget, h⟩ := h
    obtain ⟨-, pre, rfl, hpre⟩ := readPath_tokens htarget
    simp only at h
    split at h
    · simp only [bind_eq_ok] at h
      obtain ⟨⟨source, rest⟩, hsource, ⟨arguments, stop⟩, hending, h⟩ := h
      obtain ⟨-, mid, rfl, hmid⟩ := readPath_tokens hsource
      have hend := readEnding_tokens hending
      cases h
      simp [Clause.tokens, Statement.clause, hpre, hmid, hend]
    · cases h
  · rintro ⟨⟨ht, hs⟩, h⟩
    obtain ⟨target, source, arguments⟩ := c
    obtain ⟨pre, rest, rfl, hpre, hrest⟩ := List.map_eq_append_iff.mp h
    obtain ⟨span, line, rest, rfl, hmore⟩ := map_token_eq_cons hrest
    obtain ⟨mid, post, rfl, hmid, hpost⟩ := List.map_eq_append_iff.mp hmore
    have hequals : EndsPath (⟨.equals, span, line⟩ :: (mid ++ post)) := by simp [EndsPath]
    obtain ⟨p, hp, rfl⟩ := readPath_of_tokens ht hpre hequals
    obtain ⟨q, hq, rfl⟩ := readPath_of_tokens hs hmid (endsPath_of_arguments hpost)
    obtain ⟨as, stop, has, rfl⟩ := readEnding_of_tokens q hpost
    simp [readStatement, hp, hq, has, Statement.clause, pure, Except.pure, bind, Except.bind]

end FrameGraph.Script
