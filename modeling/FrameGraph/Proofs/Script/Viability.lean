import FrameGraph.Proofs.Script.Division
import FrameGraph.Script.Parse
import Mathlib.Data.List.Nodup

/-!
# Viable prefixes

Lexemes that spell no statement are reported at the first of them that no statement goes on with, or
at their end, if a statement starts with all of them; and what is expected there is exactly what a
statement can go on with. The points of a statement carry the proof: which point comes next depends
on the last token alone, and from each of them a statement can be completed.
-/
namespace FrameGraph.Script

/-- What a mismatch calls the token: all literals are alike. -/
def Token.sort : Token → Expected
  | openParen => .openParen
  | closeParen => .closeParen
  | comma => .comma
  | dot => .dot
  | equals => .equals
  | literal _ => .literal
  | identifier _ => .identifier

/-- Some statement starts with these tokens. -/
def Viable (ts : List Token) : Prop := ∃ us c, DerivesStatement (ts ++ us) c

/-- What can stand behind these tokens: a token with which they still start a statement, or the end,
if they are one. -/
def Follows (ts : List Token) : Expected → Prop
  | .endOfInput => ∃ c, DerivesStatement ts c
  | e => ∃ t : Token, t.sort = e ∧ Viable (ts ++ [t])

/-! ## Points -/

/-- A point of a statement, called after the token in front of it. -/
inductive Point where
  | start
  | target
  | targetDot
  | equals
  | source
  | sourceDot
  | openParen
  | parameter
  | parameterEquals
  | argument
  | comma
  | closeParen

namespace Point

/-- What can stand at the point. -/
def expected : Point → List Expected
  | start | targetDot | equals | sourceDot | comma => [.identifier]
  | target => [.dot, .equals]
  | source => [.dot, .openParen, .endOfInput]
  | openParen => [.identifier, .closeParen]
  | parameter => [.equals]
  | parameterEquals => [.literal]
  | argument => [.comma, .closeParen]
  | closeParen => [.endOfInput]

/-- The point behind a token that can stand there. -/
def next : Point → Token → Option Point
  | start, .identifier _ | targetDot, .identifier _ => some target
  | target, .dot => some targetDot
  | target, .equals => some equals
  | equals, .identifier _ | sourceDot, .identifier _ => some source
  | source, .dot => some sourceDot
  | source, .openParen => some openParen
  | openParen, .identifier _ | comma, .identifier _ => some parameter
  | parameter, .equals => some parameterEquals
  | parameterEquals, .literal _ => some argument
  | argument, .comma => some comma
  | argument, .closeParen | openParen, .closeParen => some closeParen
  | _, _ => none

theorem next_isSome_iff (p : Point) (t : Token) :
    (∃ q, p.next t = some q) ↔ t.sort ∈ p.expected := by
  cases p <;> cases t <;> simp [next, expected, Token.sort]

theorem next_eq_none_iff (p : Point) (t : Token) : p.next t = none ↔ t.sort ∉ p.expected := by
  rw [← next_isSome_iff, ← Option.ne_none_iff_exists', not_not]

theorem expected_nodup (p : Point) : p.expected.Nodup := by
  cases p <;> decide

/-- The point behind tokens that can stand there one after another. -/
def run (p : Point) : List Token → Option Point
  | [] => some p
  | t :: ts => (p.next t).bind fun q => q.run ts

theorem run_append (p : Point) (ts us : List Token) :
    p.run (ts ++ us) = (p.run ts).bind fun q => q.run us := by
  induction ts generalizing p with
  | nil => rfl
  | cons t ts ih =>
    rw [List.cons_append, run, run, Option.bind_assoc]
    exact Option.bind_congr fun q _ => ih q

/-- Tokens that complete the statement from the point on. -/
def completion : Point → List Token
  | start | targetDot => [.identifier "", .equals, .identifier ""]
  | target => [.equals, .identifier ""]
  | equals | sourceDot => [.identifier ""]
  | source | closeParen => []
  | openParen | argument => [.closeParen]
  | parameter => [.equals, .literal (.bool true), .closeParen]
  | parameterEquals => [.literal (.bool true), .closeParen]
  | comma => [.identifier "", .equals, .literal (.bool true), .closeParen]

theorem run_completion (p : Point) :
    ∃ q, p.run p.completion = some q ∧ .endOfInput ∈ q.expected := by
  cases p
  case openParen | parameter | parameterEquals | argument | comma | closeParen =>
    exact ⟨closeParen, rfl, by decide⟩
  all_goals exact ⟨source, rfl, by decide⟩

/-- The first lexeme that cannot stand where it stands, with what can stand there. -/
def mismatch? (p : Point) : List Lexeme → Option Mismatch
  | [] => if .endOfInput ∈ p.expected then none else some ⟨none, p.expected⟩
  | l :: rest =>
    match p.next l.token with
    | some q => q.mismatch? rest
    | none => some ⟨some l, p.expected⟩

theorem mismatch?_cons {p q : Point} {l : Lexeme} (h : p.next l.token = some q)
    (rest : List Lexeme) : p.mismatch? (l :: rest) = q.mismatch? rest := by
  rw [mismatch?, h]

theorem mismatch?_of_head {p : Point} {ls : List Lexeme} (hend : .endOfInput ∉ p.expected)
    (hhead : ∀ t span line rest, ls = ⟨t, span, line⟩ :: rest → t.sort ∉ p.expected) :
    p.mismatch? ls = some ⟨ls.head?, p.expected⟩ := by
  cases ls with
  | nil => rw [mismatch?, if_neg hend, List.head?_nil]
  | cons l ls =>
    rw [mismatch?, (next_eq_none_iff p _).mpr (hhead l.token l.span l.line ls rfl), List.head?_cons]

theorem mismatch?_eq_none_iff (p : Point) (ls : List Lexeme) :
    p.mismatch? ls = none ↔
      ∃ q, p.run (ls.map Lexeme.token) = some q ∧ .endOfInput ∈ q.expected := by
  induction ls generalizing p with
  | nil => simp [mismatch?, run]
  | cons l ls ih =>
    rw [mismatch?, List.map_cons, run]
    cases p.next l.token with
    | none => simp
    | some q => exact ih q

/-- Where the mismatch is: everything before it leads to a point, and it cannot stand there. -/
theorem mismatch?_eq_some {p : Point} {ls : List Lexeme} {m : Mismatch}
    (h : p.mismatch? ls = some m) : ∃ pre rest q, ls = pre ++ rest ∧
      p.run (pre.map Lexeme.token) = some q ∧ m = ⟨rest.head?, q.expected⟩ ∧
      ∀ l ∈ rest.head?, q.next l.token = none := by
  induction ls generalizing p with
  | nil =>
    rw [mismatch?] at h
    split at h
    · cases h
    · exact ⟨[], [], p, rfl, rfl, (Option.some.inj h).symm, nofun⟩
  | cons l ls ih =>
    rw [mismatch?] at h
    cases hnext : p.next l.token with
    | none =>
      rw [hnext] at h
      refine ⟨[], l :: ls, p, rfl, rfl, (Option.some.inj h).symm, fun k hk => ?_⟩
      rwa [← Option.some.inj hk]
    | some p' =>
      rw [hnext] at h
      obtain ⟨pre, rest, q, rfl, hrun, hm, hhead⟩ := ih h
      exact ⟨l :: pre, rest, q, rfl, by rw [List.map_cons, run, hnext]; exact hrun, hm, hhead⟩

end Point

/-! ## Readers -/

/-- A reader goes from one point to another: what it leaves is to be read from there, and where it
fails is the mismatch. -/
def Leads {α : Type} (p q : Point) (ls : List Lexeme) (result : Except Mismatch (α × List Lexeme)) :
    Prop :=
  match result with
  | .ok (_, rest) => p.mismatch? ls = q.mismatch? rest
  | .error m => p.mismatch? ls = some m

theorem Leads.bind {α β : Type} {p q r : Point} {ls : List Lexeme}
    {first : Except Mismatch (α × List Lexeme)}
    {next : α × List Lexeme → Except Mismatch (β × List Lexeme)} (h : Leads p q ls first)
    (hnext : ∀ a rest, first = .ok (a, rest) → Leads q r rest (next (a, rest))) :
    Leads p r ls (first >>= next) := by
  cases first with
  | error m => exact h
  | ok taken =>
    obtain ⟨a, rest⟩ := taken
    have hrest := hnext a rest rfl
    show Leads p r ls (next (a, rest))
    cases hread : next (a, rest) with
    | error m => rw [hread] at hrest; exact Eq.trans h hrest
    | ok taken => rw [hread] at hrest; exact Eq.trans h hrest

/-- A lexeme that can stand where it stands is taken. -/
theorem Leads.step {α : Type} {p p' q : Point} {l : Lexeme} {rest : List Lexeme}
    {result : Except Mismatch (α × List Lexeme)} (hnext : p.next l.token = some p')
    (h : Leads p' q rest result) : Leads p q (l :: rest) result := by
  unfold Leads at *
  rwa [Point.mismatch?_cons hnext]

/-- Refusing is right where neither the head of the lexemes nor their end is expected. -/
theorem Leads.refuse {α : Type} {p q : Point} {ls : List Lexeme} (hend : .endOfInput ∉ p.expected)
    (hhead : ∀ t span line rest, ls = ⟨t, span, line⟩ :: rest → t.sort ∉ p.expected) :
    Leads p q ls (refuse ls p.expected : Except Mismatch (α × List Lexeme)) :=
  Point.mismatch?_of_head hend hhead

theorem Leads.refuse_name {α : Type} {p q : Point} {ls : List Lexeme}
    (hp : p.expected = [.identifier])
    (hother : ∀ n span line rest, ls ≠ ⟨.identifier n, span, line⟩ :: rest) :
    Leads p q ls (Script.refuse ls [.identifier] : Except Mismatch (α × List Lexeme)) := by
  rw [← hp]
  refine .refuse (by simp [hp]) fun t span line rest heq => ?_
  cases t with
  | identifier n => exact absurd heq (hother n span line rest)
  | _ => simp [hp, Token.sort]

/-- A path is read from a point where a name is expected, and dots and names lead back to the point
behind the first name. -/
structure ReadsPath (a p d : Point) : Prop where
  start_expected : a.expected = [.identifier]
  dot_expected : d.expected = [.identifier]
  first : ∀ n, a.next (.identifier n) = some p
  dot : p.next .dot = some d
  later : ∀ n, d.next (.identifier n) = some p

theorem ReadsPath.target : ReadsPath .start .target .targetDot :=
  ⟨rfl, rfl, fun _ => rfl, rfl, fun _ => rfl⟩

theorem ReadsPath.source : ReadsPath .equals .source .sourceDot :=
  ⟨rfl, rfl, fun _ => rfl, rfl, fun _ => rfl⟩

theorem readTail_leads {a p d : Point} (h : ReadsPath a p d) (ls : List Lexeme) :
    Leads p p ls (readTail ls) := by
  induction ls using readTail.induct with
  | case1 s₁ k₁ name s₂ k₂ ls ih =>
    rw [readTail]
    exact .step h.dot (.step (h.later name) (ih.bind fun _ _ _ => rfl))
  | case2 s k ls hother =>
    rw [readTail.eq_2 s k ls hother]
    exact .step h.dot (.refuse_name h.dot_expected hother)
  | case3 ls hdotted hdot =>
    rw [readTail.eq_3 ls hdotted hdot]
    rfl

theorem readPath_leads {a p d : Point} (h : ReadsPath a p d) (ls : List Lexeme) :
    Leads a p ls (readPath ls) := by
  unfold readPath
  split
  · rename_i name span line rest
    exact .step (h.first name) ((readTail_leads h rest).bind fun _ _ _ => rfl)
  · rename_i hother
    exact .refuse_name h.start_expected hother

theorem readAssignments_leads (ls : List Lexeme) :
    Leads .comma .closeParen ls (readAssignments ls) := by
  induction ls using readAssignments.induct with
  | case1 n s₁ k₁ s₂ k₂ v s₃ k₃ s₄ k₄ ls ih =>
    rw [readAssignments]
    exact .step rfl (.step rfl (.step rfl (.step rfl (ih.bind fun _ _ _ => rfl))))
  | case2 n s₁ k₁ s₂ k₂ v s₃ k₃ close k₄ ls => rfl
  | case3 n s₁ k₁ s₂ k₂ v s₃ k₃ ls hcomma hclose =>
    rw [readAssignments.eq_3 n s₁ k₁ s₂ k₂ v s₃ k₃ ls hcomma hclose]
    refine .step rfl (.step rfl (.step rfl
      (.refuse (p := .argument) (by decide) fun t span line rest heq hsort => ?_)))
    cases t with
    | comma => exact hcomma span line rest heq
    | closeParen => exact hclose span line rest heq
    | _ => simp [Point.expected, Token.sort] at hsort
  | case4 n s₁ k₁ s₂ k₂ ls h₁ h₂ hliteral =>
    rw [readAssignments.eq_4 n s₁ k₁ s₂ k₂ ls h₁ h₂ hliteral]
    refine .step rfl (.step rfl
      (.refuse (p := .parameterEquals) (by decide) fun t span line rest heq hsort => ?_))
    cases t with
    | literal v => exact hliteral v span line rest heq
    | _ => simp [Point.expected, Token.sort] at hsort
  | case5 n s₁ k₁ ls h₁ h₂ h₃ hequals =>
    rw [readAssignments.eq_5 n s₁ k₁ ls h₁ h₂ h₃ hequals]
    refine .step rfl (.refuse (p := .parameter) (by decide) fun t span line rest heq hsort => ?_)
    cases t with
    | equals => exact hequals span line rest heq
    | _ => simp [Point.expected, Token.sort] at hsort
  | case6 ls h₁ h₂ h₃ h₄ hname =>
    rw [readAssignments.eq_6 ls h₁ h₂ h₃ h₄ hname]
    exact .refuse_name rfl hname

theorem readArguments_leads (ls : List Lexeme) :
    Leads .openParen .closeParen ls (readArguments ls) := by
  unfold readArguments
  split
  · rfl
  · rename_i n span line rest
    have hsame : Point.openParen.mismatch? (⟨.identifier n, span, line⟩ :: rest) =
        Point.comma.mismatch? (⟨.identifier n, span, line⟩ :: rest) := rfl
    have hleads := readAssignments_leads (⟨.identifier n, span, line⟩ :: rest)
    unfold Leads at hleads ⊢
    rwa [hsame]
  · rename_i hclose hname
    refine .refuse (p := .openParen) (by decide) fun t span line rest heq hsort => ?_
    cases t with
    | identifier n => exact hname n span line rest heq
    | closeParen => exact hclose span line rest heq
    | _ => simp [Point.expected, Token.sort] at hsort

/-- A reader of all that is left from a point on. -/
def Finishes {α : Type} (p : Point) (ls : List Lexeme) (result : Except Mismatch α) : Prop :=
  match result with
  | .ok _ => p.mismatch? ls = none
  | .error m => p.mismatch? ls = some m

theorem Leads.finishes {α β : Type} {p q : Point} {ls : List Lexeme}
    {first : Except Mismatch (α × List Lexeme)} {next : α × List Lexeme → Except Mismatch β}
    (h : Leads p q ls first)
    (hnext : ∀ a rest, first = .ok (a, rest) → Finishes q rest (next (a, rest))) :
    Finishes p ls (first >>= next) := by
  cases first with
  | error m => exact h
  | ok taken =>
    obtain ⟨a, rest⟩ := taken
    have hrest := hnext a rest rfl
    show Finishes p ls (next (a, rest))
    unfold Finishes at *
    rwa [show p.mismatch? ls = q.mismatch? rest from h]

theorem Finishes.step {α : Type} {p p' : Point} {l : Lexeme} {rest : List Lexeme}
    {result : Except Mismatch α} (hnext : p.next l.token = some p') (h : Finishes p' rest result) :
    Finishes p (l :: rest) result := by
  unfold Finishes at *
  rwa [Point.mismatch?_cons hnext]

theorem Finishes.andThen {α β : Type} {p : Point} {ls : List Lexeme} {first : Except Mismatch α}
    (h : Finishes p ls first) (f : α → Except Mismatch β) (hf : ∀ a, ∃ b, f a = .ok b) :
    Finishes p ls (first >>= f) := by
  cases first with
  | error m => exact h
  | ok a =>
    obtain ⟨b, hb⟩ := hf a
    show Finishes p ls (f a)
    rw [hb]
    exact h

/-- Whatever follows the source path, unless the path goes on. -/
theorem readEnding_finishes (source : Path) {ls : List Lexeme} (hls : EndsPath ls) :
    Finishes .source ls (readEnding source ls) := by
  unfold readEnding
  split
  · rfl
  · rename_i span line rest
    exact .step rfl ((readArguments_leads rest).finishes fun taken rest _ => by cases rest <;> rfl)
  · rename_i l rest hopen
    obtain ⟨token, span, line⟩ := l
    cases token with
    | openParen => exact absurd rfl (hopen span line)
    | dot => exact absurd rfl hls
    | _ => rfl

theorem readStatement_finishes (ls : List Lexeme) : Finishes .start ls (readStatement ls) := by
  unfold readStatement
  refine (readPath_leads .target ls).finishes fun target rest htarget => ?_
  obtain ⟨hend, -⟩ := readPath_tokens htarget
  dsimp only
  split
  · rename_i span line rest
    have hequals : Point.target.next .equals = some .equals := rfl
    refine .step hequals ((readPath_leads .source rest).finishes fun source rest hsource => ?_)
    obtain ⟨hend, -⟩ := readPath_tokens hsource
    exact (readEnding_finishes source hend).andThen _ fun _ => ⟨_, rfl⟩
  · rename_i hequals
    refine Point.mismatch?_of_head (p := .target) (by decide) fun t span line rest heq hsort => ?_
    cases t with
    | dot => exact hend (by rw [heq]; rfl)
    | equals => exact hequals span line rest heq
    | _ => simp [Point.expected, Token.sort] at hsort

/-! ## Prefixes of statements -/

/-- Tokens are a statement exactly if they lead to a point where it can end. -/
theorem derivesStatement_iff_run (ts : List Token) :
    (∃ c, DerivesStatement ts c) ↔ ∃ q, Point.start.run ts = some q ∧ .endOfInput ∈ q.expected := by
  have htokens : (ts.map fun t => (⟨t, .point 0, 0⟩ : Lexeme)).map Lexeme.token = ts := by
    simp [Function.comp_def]
  have hread := readStatement_finishes (ts.map fun t => ⟨t, .point 0, 0⟩)
  have hspells := readStatement_iff (ts.map fun t => ⟨t, .point 0, 0⟩)
  have hpoints := Point.mismatch?_eq_none_iff .start (ts.map fun t => ⟨t, .point 0, 0⟩)
  rw [htokens] at hpoints
  rw [← hpoints]
  simp only [htokens] at hspells
  constructor
  · rintro ⟨c, hc⟩
    obtain ⟨s, hs, -⟩ := (hspells c).mpr hc
    rw [hs] at hread
    exact hread
  · intro hnone
    cases hs : readStatement (ts.map fun t => ⟨t, .point 0, 0⟩) with
    | ok s => exact ⟨s.clause, (hspells _).mp ⟨s, hs, rfl⟩⟩
    | error m =>
      rw [hs] at hread
      exact absurd (hnone.symm.trans hread) nofun

/-- Tokens start a statement exactly if they lead to a point. -/
theorem viable_iff_run (ts : List Token) : Viable ts ↔ ∃ q, Point.start.run ts = some q := by
  constructor
  · rintro ⟨us, c, hc⟩
    obtain ⟨q, hq, -⟩ := (derivesStatement_iff_run _).mp ⟨c, hc⟩
    rw [Point.run_append] at hq
    obtain ⟨p, hp, -⟩ := Option.bind_eq_some_iff.mp hq
    exact ⟨p, hp⟩
  · rintro ⟨q, hq⟩
    obtain ⟨last, hlast, hend⟩ := q.run_completion
    have hrun : Point.start.run (ts ++ q.completion) = some last := by
      rw [Point.run_append, hq]
      exact hlast
    obtain ⟨c, hc⟩ := (derivesStatement_iff_run _).mpr ⟨last, hrun, hend⟩
    exact ⟨q.completion, c, hc⟩

theorem viable_concat_iff {ts : List Token} {q : Point} (h : Point.start.run ts = some q)
    (t : Token) : Viable (ts ++ [t]) ↔ t.sort ∈ q.expected := by
  rw [viable_iff_run, Point.run_append, h, ← Point.next_isSome_iff]
  simp [Point.run]

/-- What can follow is what is expected at the point that the tokens lead to. -/
theorem follows_iff {ts : List Token} {q : Point} (h : Point.start.run ts = some q) (e : Expected) :
    Follows ts e ↔ e ∈ q.expected := by
  have hsort {e : Expected} (hne : ∃ t : Token, t.sort = e) :
      (∃ t : Token, t.sort = e ∧ Viable (ts ++ [t])) ↔ e ∈ q.expected := by
    simp only [viable_concat_iff h]
    constructor
    · rintro ⟨t, rfl, ht⟩
      exact ht
    · intro he
      obtain ⟨t, rfl⟩ := hne
      exact ⟨t, rfl, he⟩
  cases e with
  | endOfInput => rw [Follows, derivesStatement_iff_run, h]; simp
  | identifier => exact hsort ⟨.identifier "", rfl⟩
  | dot => exact hsort ⟨.dot, rfl⟩
  | equals => exact hsort ⟨.equals, rfl⟩
  | openParen => exact hsort ⟨.openParen, rfl⟩
  | closeParen => exact hsort ⟨.closeParen, rfl⟩
  | comma => exact hsort ⟨.comma, rfl⟩
  | literal => exact hsort ⟨.literal (.bool true), rfl⟩

/-! ## What is reported -/

/-- The lexemes are cut in front of the first with which no statement goes on, or behind the last if
a statement starts with them all. -/
structure Breaks (region accepted rest : List Lexeme) : Prop where
  whole : region = accepted ++ rest
  viable : Viable (accepted.map Lexeme.token)
  dead : ∀ l ∈ rest.head?, ¬Viable (accepted.map Lexeme.token ++ [l.token])

theorem Viable.of_append {ts us : List Token} (h : Viable (ts ++ us)) : Viable ts := by
  obtain ⟨vs, c, hc⟩ := h
  exact ⟨us ++ vs, c, by rwa [← List.append_assoc]⟩

/-- Nothing is left exactly if a statement starts with the whole region. -/
theorem Breaks.rest_eq_nil_iff {region accepted rest : List Lexeme}
    (h : Breaks region accepted rest) : rest = [] ↔ Viable (region.map Lexeme.token) := by
  obtain ⟨rfl, hviable, hdead⟩ := h
  constructor
  · rintro rfl
    rwa [List.append_nil]
  · intro hwhole
    cases rest with
    | nil => rfl
    | cons l rest =>
      have hsplit : Viable (accepted.map Lexeme.token ++ [l.token] ++ rest.map Lexeme.token) := by
        simpa using hwhole
      exact absurd hsplit.of_append (hdead l rfl)

/-- Where the rest of a region starts that ends at an offset. -/
def placeOf (stop : Nat) : List Lexeme → Span
  | [] => .point stop
  | l :: _ => l.span

/-- In words, no two expectations are the same. -/
theorem Expected.text_injective : Function.Injective Expected.text := by
  intro a b h
  cases a <;> cases b <;> first | rfl | exact absurd h (by decide)

/-- Lexemes that spell no statement give one diagnostic. It tells of the first of them with which no
statement goes on, or of their end if a statement starts with them all, and it names exactly what
can follow those before. -/
theorem readStatement_breaks {region : List Lexeme} (h : ∀ c, ¬Spells region c) (lines : LineIndex)
    (stop : Nat) :
    ∃ accepted rest expected, Breaks region accepted rest ∧
      (rest = [] ↔ Viable (region.map Lexeme.token)) ∧
      (∀ e, e ∈ expected ↔ Follows (accepted.map Lexeme.token) e) ∧
      (expected.map Expected.text).Nodup ∧
      (readStatement region).mapError (Mismatch.diagnostic lines stop) =
        .error (.error Code.unexpectedToken (placeOf stop rest)
          (lines.line (placeOf stop rest).start) (Mismatch.message ⟨rest.head?, expected⟩)) := by
  have hfinishes := readStatement_finishes region
  cases hread : readStatement region with
  | ok s => exact absurd ((readStatement_iff region _).mp ⟨s, hread, rfl⟩) (h _)
  | error m =>
    rw [hread] at hfinishes
    obtain ⟨accepted, rest, q, rfl, hrun, rfl, hdead⟩ := Point.mismatch?_eq_some hfinishes
    have hbreaks : Breaks (accepted ++ rest) accepted rest := by
      refine ⟨rfl, (viable_iff_run _).mpr ⟨q, hrun⟩, fun l hl => ?_⟩
      rw [viable_concat_iff hrun, ← q.next_eq_none_iff]
      exact hdead l hl
    refine ⟨accepted, rest, q.expected, hbreaks, hbreaks.rest_eq_nil_iff,
      fun e => (follows_iff hrun e).symm, q.expected_nodup.map Expected.text_injective, ?_⟩
    cases rest <;> rfl

/-- The lexemes of `a = f(x=1 y`, where a comma is missing. -/
def crowded : List Lexeme :=
  [⟨.identifier "a", ⟨0, 1⟩, 1⟩, ⟨.equals, ⟨2, 3⟩, 1⟩, ⟨.identifier "f", ⟨4, 5⟩, 1⟩,
    ⟨.openParen, ⟨5, 6⟩, 1⟩, ⟨.identifier "x", ⟨6, 7⟩, 1⟩, ⟨.equals, ⟨7, 8⟩, 1⟩,
    ⟨.literal (.integer 1), ⟨8, 9⟩, 1⟩, ⟨.identifier "y", ⟨10, 11⟩, 1⟩]

theorem readStatement_breaks_crowded :
    (∀ c, ¬Spells crowded c) ∧ lex "a = f(x=1 y" = .ok crowded ∧
      (∃ accepted rest expected, Breaks crowded accepted rest ∧
        (rest = [] ↔ Viable (crowded.map Lexeme.token)) ∧
        (∀ e, e ∈ expected ↔ Follows (accepted.map Lexeme.token) e) ∧
        (expected.map Expected.text).Nodup ∧
        (readStatement crowded).mapError (Mismatch.diagnostic (.ofSource "a = f(x=1 y") 11) =
          .error (.error Code.unexpectedToken (placeOf 11 rest)
            ((LineIndex.ofSource "a = f(x=1 y").line (placeOf 11 rest).start)
            (Mismatch.message ⟨rest.head?, expected⟩))) ∧
      (parse "a = f(x=1 y").errors =
        [.error Code.unexpectedToken ⟨10, 11⟩ 1 "found '<ident>' expected ',', or ')'"] := by
  have hno : ∀ c, ¬Spells crowded c := by
    intro c hc
    obtain ⟨s, hs, -⟩ := (readStatement_iff crowded c).mpr hc
    cases hs
  exact ⟨hno, by decide +kernel, readStatement_breaks hno _ 11, by decide +kernel⟩

end FrameGraph.Script
