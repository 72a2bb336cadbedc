import FrameGraph.Proofs.Script.Recognition
import FrameGraph.Script.Region
import Mathlib.Data.List.Forall2

/-!
# Division

Regions are found without the grammar, by looking for the heads of assignments and counting
parentheses. In a script that the grammar derives they are the statements: every statement begins
a region, nothing inside a statement does, and behind it all parentheses are closed again.
-/
namespace FrameGraph.Script

/-- The lexemes go on with neither a dot nor an equals sign. -/
structure EndsValue (rest : List Lexeme) : Prop where
  dot : EndsPath rest
  equals : rest.head?.map Lexeme.token ≠ some .equals

theorem assigned?_of_path (ns : List String) {pre : List Lexeme}
    (h : pre.map Lexeme.token = ns.flatMap fun m => [.dot, .identifier m])
    (span : Span) (line : Nat) (rest : List Lexeme) :
    assigned? (pre ++ ⟨.equals, span, line⟩ :: rest) = some rest := by
  induction ns generalizing pre with
  | nil =>
    obtain rfl : pre = [] := by simpa using h
    rfl
  | cons n ns ih =>
    obtain ⟨s₁, k₁, pre, rfl, h₁⟩ := map_token_eq_cons h
    obtain ⟨s₂, k₂, pre, rfl, h₂⟩ := map_token_eq_cons h₁
    rw [← ih h₂]
    rfl

theorem assigned?_of_value (ns : List String) {pre : List Lexeme}
    (h : pre.map Lexeme.token = ns.flatMap fun m => [.dot, .identifier m])
    {rest : List Lexeme} (hrest : EndsValue rest) : assigned? (pre ++ rest) = none := by
  induction ns generalizing pre with
  | nil =>
    obtain rfl : pre = [] := by simpa using h
    cases rest with
    | nil => rfl
    | cons l rest =>
      obtain ⟨token, span, line⟩ := l
      cases token with
      | dot => exact absurd rfl hrest.dot
      | equals => exact absurd rfl hrest.equals
      | _ => rfl
  | cons n ns ih =>
    obtain ⟨s₁, k₁, pre, rfl, h₁⟩ := map_token_eq_cons h
    obtain ⟨s₂, k₂, pre, rfl, h₂⟩ := map_token_eq_cons h₁
    rw [← ih h₂]
    rfl

/-- Dividing goes on inside a region through these lexemes, from one state to another. -/
def Continues (depth : Nat) (afterDot : Bool) (pre : List Lexeme) (depth' : Nat)
    (afterDot' : Bool) (rest : List Lexeme) : Prop :=
  divide depth afterDot (pre ++ rest) =
    (pre ++ (divide depth' afterDot' rest).1, (divide depth' afterDot' rest).2)

theorem Continues.refl (depth : Nat) (afterDot : Bool) (rest : List Lexeme) :
    Continues depth afterDot [] depth afterDot rest := rfl

theorem Continues.trans {d₁ d₂ d₃ : Nat} {a₁ a₂ a₃ : Bool} {pre mid rest : List Lexeme}
    (first : Continues d₁ a₁ pre d₂ a₂ (mid ++ rest)) (last : Continues d₂ a₂ mid d₃ a₃ rest) :
    Continues d₁ a₁ (pre ++ mid) d₃ a₃ rest := by
  unfold Continues at *
  rw [List.append_assoc, first, last, List.append_assoc]

theorem Continues.lexeme {depth : Nat} {afterDot : Bool} {l : Lexeme} {rest : List Lexeme}
    (h : beginsRegion depth afterDot (l :: rest) = false) :
    Continues depth afterDot [l] (depthAfter depth l.token) (l.token = .dot) rest := by
  simp [Continues, divide, h]

theorem Continues.cons {depth depth' : Nat} {afterDot afterDot' : Bool} {l : Lexeme}
    {pre rest : List Lexeme} (first : beginsRegion depth afterDot (l :: (pre ++ rest)) = false)
    (last : Continues (depthAfter depth l.token) (l.token = .dot) pre depth' afterDot' rest) :
    Continues depth afterDot (l :: pre) depth' afterDot' rest :=
  (Continues.lexeme first).trans last

theorem beginsRegion_of_isIdentifier_eq_false (depth : Nat) (afterDot : Bool) {l : Lexeme}
    (h : l.isIdentifier = false) (rest : List Lexeme) :
    beginsRegion depth afterDot (l :: rest) = false := by
  obtain ⟨token, span, line⟩ := l
  cases token with
  | identifier n => cases h
  | _ => rfl

theorem beginsRegion_of_afterDot (depth : Nat) (ls : List Lexeme) :
    beginsRegion depth true ls = false := by
  unfold beginsRegion
  split
  · split <;> rfl
  · rfl

theorem continues_tail (depth : Nat) (ns : List String) {pre : List Lexeme}
    (h : pre.map Lexeme.token = ns.flatMap fun m => [.dot, .identifier m]) (rest : List Lexeme) :
    Continues depth false pre depth false rest := by
  induction ns generalizing pre with
  | nil =>
    obtain rfl : pre = [] := by simpa using h
    exact .refl depth false rest
  | cons n ns ih =>
    obtain ⟨s₁, k₁, pre, rfl, h₁⟩ := map_token_eq_cons h
    obtain ⟨s₂, k₂, pre, rfl, h₂⟩ := map_token_eq_cons h₁
    refine .cons (beginsRegion_of_isIdentifier_eq_false _ _ rfl _) ?_
    exact .cons (beginsRegion_of_afterDot _ _) (ih h₂)

/-- The value of a path is no head of an assignment, so it continues its region. -/
theorem continues_source {ns : List String} {pre rest : List Lexeme}
    (h : pre.map Lexeme.token = pathTokens ns) (hrest : EndsValue rest) :
    Continues 0 false pre 0 false rest := by
  cases ns with
  | nil =>
    obtain rfl : pre = [] := by simpa [pathTokens] using h
    exact .refl 0 false rest
  | cons n ns =>
    obtain ⟨span, line, pre, rfl, htail⟩ := map_token_eq_cons h
    refine .cons ?_ (continues_tail 0 ns htail rest)
    simp [beginsRegion, assigned?_of_value ns htail hrest]

/-- Between parentheses the head of an assignment to a literal continues its region. -/
theorem continues_param (depth : Nat) (p : String × Value) {pre : List Lexeme}
    (h : pre.map Lexeme.token = paramTokens p) (rest : List Lexeme) :
    Continues (depth + 1) false pre (depth + 1) false rest := by
  obtain ⟨s₁, k₁, pre, rfl, h₁⟩ := map_token_eq_cons h
  obtain ⟨s₂, k₂, pre, rfl, h₂⟩ := map_token_eq_cons h₁
  obtain ⟨s₃, k₃, pre, rfl, h₃⟩ := map_token_eq_cons h₂
  obtain rfl : pre = [] := by simpa using h₃
  refine .cons (by simp [beginsRegion, assigned?, Lexeme.isIdentifier]) ?_
  refine .cons (beginsRegion_of_isIdentifier_eq_false _ _ rfl _) ?_
  exact .lexeme (beginsRegion_of_isIdentifier_eq_false _ _ rfl _)

theorem continues_params (depth : Nat) (ps : List (String × Value)) {pre : List Lexeme}
    (h : pre.map Lexeme.token = paramListTokens ps) (rest : List Lexeme) :
    Continues (depth + 1) false pre (depth + 1) false rest := by
  induction ps generalizing pre with
  | nil =>
    obtain rfl : pre = [] := by simpa [paramListTokens] using h
    exact .refl _ _ rest
  | cons p ps ih =>
    cases ps with
    | nil => exact continues_param depth p h rest
    | cons q ps =>
      obtain ⟨first, later, rfl, hfirst, hlater⟩ := List.map_eq_append_iff.mp h
      obtain ⟨span, line, later, rfl, hmore⟩ := map_token_eq_cons hlater
      refine (continues_param depth p hfirst _).trans ?_
      exact .cons (beginsRegion_of_isIdentifier_eq_false _ _ rfl _) (ih hmore)

theorem continues_arguments (arguments : Option (List (String × Value))) {pre : List Lexeme}
    (h : pre.map Lexeme.token = argumentTokens arguments) (rest : List Lexeme) :
    Continues 0 false pre 0 false rest := by
  cases arguments with
  | none =>
    obtain rfl : pre = [] := by simpa [argumentTokens] using h
    exact .refl 0 false rest
  | some ps =>
    obtain ⟨span, line, inner, rfl, hinner⟩ := map_token_eq_cons h
    obtain ⟨params, close, rfl, hparams, hclose⟩ := List.map_eq_append_iff.mp hinner
    obtain ⟨stop, k, last, rfl, hlast⟩ := map_token_eq_cons hclose
    obtain rfl : last = [] := by simpa using hlast
    refine .cons (beginsRegion_of_isIdentifier_eq_false _ _ rfl _) ?_
    refine (continues_params 0 ps hparams _).trans ?_
    exact .lexeme (beginsRegion_of_isIdentifier_eq_false _ _ rfl _)

/-- A statement begins a region that goes on to its end, where the state is that of the start. -/
theorem divide_statement {group rest : List Lexeme} {c : Clause}
    (h : DerivesStatement (group.map Lexeme.token) c) (hrest : EndsValue rest) :
    divide 0 false (group ++ rest) =
      ([], (group ++ (divide 0 false rest).1) :: (divide 0 false rest).2) := by
  obtain ⟨⟨ht, hs⟩, htokens⟩ := (derivesStatement_iff _ _).mp h
  obtain ⟨target, source, arguments⟩ := c
  obtain ⟨n, ns, rfl⟩ := List.exists_cons_of_ne_nil ht
  obtain ⟨span, line, group, rfl, hgroup⟩ := map_token_eq_cons htokens
  obtain ⟨tail, value, rfl, htail, hvalue⟩ := List.map_eq_append_iff.mp hgroup
  obtain ⟨s, k, value, rfl, hmore⟩ := map_token_eq_cons hvalue
  obtain ⟨path, args, rfl, hpath, hargs⟩ := List.map_eq_append_iff.mp hmore
  obtain ⟨m, ms, rfl⟩ := List.exists_cons_of_ne_nil hs
  obtain ⟨s₁, k₁, path, rfl, hpathTail⟩ := map_token_eq_cons hpath
  have hend : EndsValue (args ++ rest) := by
    cases arguments with
    | none =>
      obtain rfl : args = [] := by simpa [argumentTokens] using hargs
      exact hrest
    | some ps =>
      obtain ⟨s₂, k₂, args, rfl, -⟩ := map_token_eq_cons hargs
      exact ⟨by simp [EndsPath], by simp⟩
  have hbody : Continues 0 false
      (tail ++ ⟨.equals, s, k⟩ :: (⟨.identifier m, s₁, k₁⟩ :: path ++ args)) 0 false rest := by
    refine (continues_tail 0 ns htail _).trans ?_
    refine .cons (beginsRegion_of_isIdentifier_eq_false _ _ rfl _) ?_
    exact (continues_source hpath hend).trans (continues_arguments arguments hargs rest)
  have hbegins : beginsRegion 0 false (⟨.identifier n, span, line⟩ ::
      ((tail ++ ⟨.equals, s, k⟩ :: (⟨.identifier m, s₁, k₁⟩ :: path ++ args)) ++ rest)) = true := by
    simp [beginsRegion, assigned?_of_path ns htail]
  rw [List.cons_append, divide, if_pos hbegins, hbody]
  rfl

theorem endsValue_of_statement {group : List Lexeme} {c : Clause}
    (h : DerivesStatement (group.map Lexeme.token) c) (rest : List Lexeme) :
    EndsValue (group ++ rest) := by
  obtain ⟨⟨ht, -⟩, htokens⟩ := (derivesStatement_iff _ _).mp h
  obtain ⟨target, source, arguments⟩ := c
  obtain ⟨n, ns, rfl⟩ := List.exists_cons_of_ne_nil ht
  obtain ⟨span, line, group, rfl, -⟩ := map_token_eq_cons htokens
  exact ⟨by simp [EndsPath], by simp⟩

/-- The lexemes of a region spell a statement. -/
def Spells (group : List Lexeme) (c : Clause) : Prop :=
  DerivesStatement (group.map Lexeme.token) c

theorem divide_statements {groups : List (List Lexeme)} {cs : List Clause}
    (h : List.Forall₂ Spells groups cs) :
    EndsValue groups.flatten ∧ divide 0 false groups.flatten = ([], groups) := by
  induction h with
  | nil => exact ⟨⟨by simp [EndsPath], by simp⟩, rfl⟩
  | @cons group c groups cs first _ ih =>
    obtain ⟨hend, hdivide⟩ := ih
    refine ⟨endsValue_of_statement first _, ?_⟩
    rw [List.flatten_cons, divide_statement first hend, hdivide, List.append_nil]

/-- Lexemes that spell statements are divided at these statements. -/
theorem regions_of_spells {groups : List (List Lexeme)} {cs : List Clause}
    (h : List.Forall₂ Spells groups cs) : regions groups.flatten = groups := by
  rw [regions, (divide_statements h).2]

theorem exists_groups_of_derivesUnit {cs : List Clause} {ls : List Lexeme}
    (h : DerivesUnit (ls.map Lexeme.token) cs) :
    ∃ groups, groups.flatten = ls ∧ List.Forall₂ Spells groups cs := by
  obtain ⟨hcs, htokens⟩ := (derivesUnit_iff _ _).mp h
  clear h
  induction cs generalizing ls with
  | nil =>
    obtain rfl : ls = [] := by simpa using htokens
    exact ⟨[], rfl, .nil⟩
  | cons c cs ih =>
    obtain ⟨group, later, rfl, hgroup, hlater⟩ := List.map_eq_append_iff.mp htokens
    obtain ⟨groups, rfl, hgroups⟩ := ih (fun d hd => hcs d (by simp [hd])) hlater
    have hfirst := (derivesStatement_iff _ c).mpr ⟨hcs c (by simp), hgroup⟩
    exact ⟨group :: groups, rfl, .cons hfirst hgroups⟩

theorem derivesUnit_of_spells {groups : List (List Lexeme)} {cs : List Clause}
    (h : List.Forall₂ Spells groups cs) : DerivesUnit (groups.flatten.map Lexeme.token) cs := by
  induction h with
  | nil => exact .nil
  | cons first _ ih =>
    rw [List.flatten_cons, List.map_append]
    exact .cons first ih

/-- A script is a unit exactly if its regions, one by one, are the statements of the unit. -/
theorem derivesUnit_iff_regions (ls : List Lexeme) (cs : List Clause) :
    DerivesUnit (ls.map Lexeme.token) cs ↔ List.Forall₂ Spells (regions ls) cs := by
  constructor
  · intro h
    obtain ⟨groups, rfl, hgroups⟩ := exists_groups_of_derivesUnit h
    rwa [regions_of_spells hgroups]
  · intro h
    have hunit := derivesUnit_of_spells h
    rwa [flatten_regions] at hunit

end FrameGraph.Script
