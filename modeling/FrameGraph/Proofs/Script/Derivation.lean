import FrameGraph.Script.Program

/-!
# Derivations

The grammar of scripts as a relation between the tokens of a phrase and what the phrase says. It
knows nothing of regions, of places or of the order in which a reader looks at the tokens:

    unit       = { statement }
    statement  = path "=" path [ "(" paramlist ")" ]
    paramlist  = [ param { "," param } ]
    param      = IDENT "=" literal
    path       = IDENT { "." IDENT }

What a phrase says determines its tokens: a phrase is derived exactly from the tokens that spell it.
-/
namespace FrameGraph.Script

/-- What a statement says, without the places of its parts. -/
structure Clause where
  target : List String
  source : List String
  /-- The parameters and their values, if there is a parameter list. -/
  arguments : Option (List (String × Value))

def Assignment.content (a : Assignment) : String × Value := (a.parameter.name, a.literal.value)

def Statement.clause (s : Statement) : Clause :=
  ⟨s.target.names, s.source.names, s.arguments.map (·.map Assignment.content)⟩

inductive DerivesPath : List Token → List String → Prop where
  | name (n : String) : DerivesPath [.identifier n] [n]
  | dotted (n : String) {ts : List Token} {ns : List String} (rest : DerivesPath ts ns) :
      DerivesPath (.identifier n :: .dot :: ts) (n :: ns)

inductive DerivesParam : List Token → String × Value → Prop where
  | assign (n : String) (v : Value) : DerivesParam [.identifier n, .equals, .literal v] (n, v)

/-- At least one parameter. -/
inductive DerivesParams : List Token → List (String × Value) → Prop where
  | last {ts : List Token} {p : String × Value} (only : DerivesParam ts p) : DerivesParams ts [p]
  | more {ts us : List Token} {p : String × Value} {ps : List (String × Value)}
      (first : DerivesParam ts p) (rest : DerivesParams us ps) :
      DerivesParams (ts ++ .comma :: us) (p :: ps)

inductive DerivesParamList : List Token → List (String × Value) → Prop where
  | none : DerivesParamList [] []
  | some {ts : List Token} {ps : List (String × Value)} (params : DerivesParams ts ps) :
      DerivesParamList ts ps

inductive DerivesStatement : List Token → Clause → Prop where
  | connect {ts us : List Token} {target source : List String}
      (left : DerivesPath ts target) (right : DerivesPath us source) :
      DerivesStatement (ts ++ .equals :: us) ⟨target, source, none⟩
  | instantiate {ts us vs : List Token} {target source : List String}
      {ps : List (String × Value)} (left : DerivesPath ts target)
      (right : DerivesPath us source) (params : DerivesParamList vs ps) :
      DerivesStatement (ts ++ .equals :: (us ++ .openParen :: (vs ++ [.closeParen])))
        ⟨target, source, some ps⟩

inductive DerivesUnit : List Token → List Clause → Prop where
  | nil : DerivesUnit [] []
  | cons {ts us : List Token} {c : Clause} {cs : List Clause}
      (first : DerivesStatement ts c) (rest : DerivesUnit us cs) :
      DerivesUnit (ts ++ us) (c :: cs)

/-- The tokens of a path. -/
def pathTokens : List String → List Token
  | [] => []
  | n :: ns => .identifier n :: ns.flatMap fun m => [.dot, .identifier m]

/-- The tokens of one parameter. -/
def paramTokens (p : String × Value) : List Token := [.identifier p.1, .equals, .literal p.2]

/-- The tokens between the parentheses of a parameter list. -/
def paramListTokens : List (String × Value) → List Token
  | [] => []
  | [p] => paramTokens p
  | p :: ps => paramTokens p ++ .comma :: paramListTokens ps

/-- The tokens of a parameter list with its parentheses, or none without a list. -/
def argumentTokens : Option (List (String × Value)) → List Token
  | none => []
  | some ps => .openParen :: (paramListTokens ps ++ [.closeParen])

namespace Clause

/-- The tokens of a statement. -/
def tokens (c : Clause) : List Token :=
  pathTokens c.target ++ .equals :: (pathTokens c.source ++ argumentTokens c.arguments)

/-- Both paths have a segment. -/
structure Named (c : Clause) : Prop where
  target : c.target ≠ []
  source : c.source ≠ []

end Clause

theorem clause_named (s : Statement) : s.clause.Named :=
  ⟨List.cons_ne_nil _ _, List.cons_ne_nil _ _⟩

theorem derivesPath_iff (ts : List Token) (ns : List String) :
    DerivesPath ts ns ↔ ns ≠ [] ∧ ts = pathTokens ns := by
  constructor
  · intro h
    induction h with
    | name n => exact ⟨List.cons_ne_nil _ _, rfl⟩
    | @dotted n ts ns _ ih =>
      obtain ⟨hne, rfl⟩ := ih
      cases ns with
      | nil => exact absurd rfl hne
      | cons m ns => exact ⟨List.cons_ne_nil _ _, rfl⟩
  · rintro ⟨hne, rfl⟩
    cases ns with
    | nil => exact absurd rfl hne
    | cons n ns =>
      induction ns generalizing n with
      | nil => exact .name n
      | cons m ns ih => exact .dotted n (ih m (List.cons_ne_nil _ _))

theorem derivesParam_iff (ts : List Token) (p : String × Value) :
    DerivesParam ts p ↔ ts = paramTokens p := by
  constructor
  · rintro ⟨n, v⟩; rfl
  · rintro rfl; exact .assign p.1 p.2

theorem derivesParams_iff (ts : List Token) (ps : List (String × Value)) :
    DerivesParams ts ps ↔ ps ≠ [] ∧ ts = paramListTokens ps := by
  constructor
  · intro h
    induction h with
    | last h => exact ⟨List.cons_ne_nil _ _, (derivesParam_iff _ _).mp h⟩
    | @more ts us p ps first _ ih =>
      obtain ⟨hne, rfl⟩ := ih
      rw [(derivesParam_iff _ _).mp first]
      cases ps with
      | nil => exact absurd rfl hne
      | cons q ps => exact ⟨List.cons_ne_nil _ _, rfl⟩
  · rintro ⟨hne, rfl⟩
    cases ps with
    | nil => exact absurd rfl hne
    | cons p ps =>
      induction ps generalizing p with
      | nil => exact .last ((derivesParam_iff _ _).mpr rfl)
      | cons q ps ih =>
        exact .more ((derivesParam_iff _ p).mpr rfl) (ih q (List.cons_ne_nil _ _))

theorem derivesParamList_iff (ts : List Token) (ps : List (String × Value)) :
    DerivesParamList ts ps ↔ ts = paramListTokens ps := by
  constructor
  · intro h
    cases h with
    | none => rfl
    | some h => exact ((derivesParams_iff _ _).mp h).2
  · rintro rfl
    cases ps with
    | nil => exact .none
    | cons p ps => exact .some ((derivesParams_iff _ _).mpr ⟨List.cons_ne_nil _ _, rfl⟩)

theorem derivesStatement_iff (ts : List Token) (c : Clause) :
    DerivesStatement ts c ↔ c.Named ∧ ts = c.tokens := by
  constructor
  · intro h
    cases h with
    | connect left right =>
      obtain ⟨ht, rfl⟩ := (derivesPath_iff _ _).mp left
      obtain ⟨hs, rfl⟩ := (derivesPath_iff _ _).mp right
      exact ⟨⟨ht, hs⟩, by simp [Clause.tokens, argumentTokens]⟩
    | instantiate left right params =>
      obtain ⟨ht, rfl⟩ := (derivesPath_iff _ _).mp left
      obtain ⟨hs, rfl⟩ := (derivesPath_iff _ _).mp right
      obtain rfl := (derivesParamList_iff _ _).mp params
      exact ⟨⟨ht, hs⟩, rfl⟩
  · rintro ⟨⟨ht, hs⟩, rfl⟩
    obtain ⟨target, source, arguments⟩ := c
    have left := (derivesPath_iff _ target).mpr ⟨ht, rfl⟩
    have right := (derivesPath_iff _ source).mpr ⟨hs, rfl⟩
    cases arguments with
    | none => simpa [Clause.tokens, argumentTokens] using DerivesStatement.connect left right
    | some ps => exact .instantiate left right ((derivesParamList_iff _ _).mpr rfl)

/-- A unit is derived from the tokens of its statements, one after the other, and from no others. -/
theorem derivesUnit_iff (ts : List Token) (cs : List Clause) :
    DerivesUnit ts cs ↔ (∀ c ∈ cs, c.Named) ∧ ts = cs.flatMap Clause.tokens := by
  constructor
  · intro h
    induction h with
    | nil => exact ⟨by simp, rfl⟩
    | cons first _ ih =>
      obtain ⟨hc, rfl⟩ := (derivesStatement_iff _ _).mp first
      obtain ⟨hcs, rfl⟩ := ih
      exact ⟨by simpa using ⟨hc, hcs⟩, by simp⟩
  · rintro ⟨hcs, rfl⟩
    induction cs with
    | nil => exact .nil
    | cons c cs ih =>
      have first := (derivesStatement_iff _ c).mpr ⟨hcs c (by simp), rfl⟩
      have rest := ih fun d hd => hcs d (by simp [hd])
      simpa using DerivesUnit.cons first rest

end FrameGraph.Script
