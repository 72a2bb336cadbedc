import FrameGraph.Window.Scope

/-!
# Confinement

A setup is confined if it makes members only inside the scope that it sets up. Scopes are numbered
in the order in which they are made and a scope is set up as soon as it is made, so during a setup
the scopes with later numbers are exactly those that it has made, directly or through the setups of
others. What a setup makes outside may take the name under which its own scope is to be held.
-/
namespace FrameGraph

/-- The location is the scope being set up or one made later. -/
def Location.Within (self : ScopeId) : Location → Prop
  | .here => True
  | .inside scope => self.index ≤ scope.index

theorem Location.here_within (self : ScopeId) : here.Within self := trivial

/-- Whatever it sees and whatever it is answered, the program makes members only in the scope that
it sets up and inside it, and the scope types it uses are set up by such programs. -/
inductive Setup.Confined : ScopeId → Setup → Prop
  | done {self} : Confined self .done
  | fail {self reason} : Confined self (.fail reason)
  | look {self next} (goesOn : ∀ v : ScopeView, v.id = self → Confined self (next v)) :
    Confined self (.look next)
  | say {self remark next} (goesOn : Confined self next) : Confined self (.say remark next)
  | keep {self window next} (goesOn : Confined self next) : Confined self (.keep window next)
  | defineNodeType {self location name type next} (within : location.Within self)
    (goesOn : ∀ answer, Confined self (next answer)) :
    Confined self (.defineNodeType location name type next)
  | defineScopeType {self location name} {type : ScopeTypeOver Setup} {next}
    (within : location.Within self) (type_confined : ∀ id, Confined id type.setup)
    (goesOn : ∀ answer, Confined self (next answer)) :
    Confined self (.defineScopeType location name type next)
  | makeNode {self location name type params next} (within : location.Within self)
    (goesOn : ∀ answer, Confined self (next answer)) :
    Confined self (.makeNode location name type params next)
  | makeScope {self location name} {type : ScopeTypeOver Setup} {params next}
    (within : location.Within self) (type_confined : ∀ id, Confined id type.setup)
    (goesOn : ∀ answer, (∀ id, answer = .ok id → self.index < id.index) →
      Confined self (next answer)) :
    Confined self (.makeScope location name type params next)

/-- Whatever it sees and whatever it is answered, the program makes members only in the scope that
it sets up and inside it. The scope types that it only makes known may be set up by any programs. -/
inductive Setup.Inward : ScopeId → Setup → Prop
  | done {self} : Inward self .done
  | fail {self reason} : Inward self (.fail reason)
  | look {self next} (goesOn : ∀ v : ScopeView, v.id = self → Inward self (next v)) :
    Inward self (.look next)
  | say {self remark next} (goesOn : Inward self next) : Inward self (.say remark next)
  | keep {self window next} (goesOn : Inward self next) : Inward self (.keep window next)
  | defineNodeType {self location name type next} (within : location.Within self)
    (goesOn : ∀ answer, Inward self (next answer)) :
    Inward self (.defineNodeType location name type next)
  | defineScopeType {self location name} {type : ScopeTypeOver Setup} {next}
    (within : location.Within self) (goesOn : ∀ answer, Inward self (next answer)) :
    Inward self (.defineScopeType location name type next)
  | makeNode {self location name type params next} (within : location.Within self)
    (goesOn : ∀ answer, Inward self (next answer)) :
    Inward self (.makeNode location name type params next)
  | makeScope {self location name} {type : ScopeTypeOver Setup} {params next}
    (within : location.Within self) (type_inward : ∀ id, Inward id type.setup)
    (goesOn : ∀ answer, (∀ id, answer = .ok id → self.index < id.index) →
      Inward self (next answer)) :
    Inward self (.makeScope location name type params next)

theorem Setup.Confined.inward {self : ScopeId} {setup : Setup} (h : Confined self setup) :
    Inward self setup := by
  induction h with
  | done => exact .done
  | fail => exact .fail
  | look _ ih => exact .look ih
  | say _ ih => exact .say ih
  | keep _ ih => exact .keep ih
  | defineNodeType hwithin _ ih => exact .defineNodeType hwithin ih
  | defineScopeType hwithin _ _ _ ih => exact .defineScopeType hwithin ih
  | makeNode hwithin _ ih => exact .makeNode hwithin ih
  | makeScope hwithin _ _ ihtype ih => exact .makeScope hwithin ihtype ih

/-- The setup of every scope of the type is confined. -/
def ScopeType.Confined (t : ScopeType) : Prop := ∀ id, t.setup.Confined id

/-- The setups of all scope types and plugins are confined. -/
def Catalog.Confined (c : Catalog) : Prop :=
  (∀ t ∈ c.scopeTypes, ScopeType.Confined t) ∧ ∀ t ∈ c.plugins, ScopeType.Confined t

theorem Setup.Confined.orFail {α : Type} {self : ScopeId} {next : Setup} (h : Confined self next)
    (answer : Except WorldError α) : Confined self (next.orFail answer) := by
  cases answer with
  | ok a => exact h
  | error e => exact .fail

/-- A window makes its display and knows the type of trails in itself only. -/
theorem Window.scopeType_confined : ScopeType.Confined Window.scopeType := by
  intro id
  refine .look fun v _ => ?_
  cases describe v with
  | error reason => exact .fail
  | ok window =>
    have hopened : Setup.Confined id
        (.say (.windowOpened v.path window.width window.height) .done) := .say .done
    have hdisplay : Setup.Confined id (.makeNode .here "display" displayType [] _) :=
      .makeNode (Location.here_within id) hopened.orFail
    exact .keep (.defineNodeType (Location.here_within id) hdisplay.orFail)

theorem Window.catalog_confined : Window.catalog.Confined := by
  refine ⟨fun t ht => ?_, fun t ht => nomatch ht⟩
  rw [List.mem_singleton.mp ht]
  exact scopeType_confined

end FrameGraph
