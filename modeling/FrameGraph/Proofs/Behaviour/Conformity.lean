import FrameGraph.Assembly.Arguments
import FrameGraph.Window.Scope

/-!
# Conformity

Values conform to a schema if there is one for each of its entries and each is of the type of its
entry. Defaults conform, and so do the values that assignments give. A setup conforms if whatever it
makes gets values that conform, given that those of its own scope do.
-/
namespace FrameGraph

/-- There is one value for each entry of the schema, of the type of the entry. -/
def Conforms (specs : List ParamSpec) (values : List Value) : Prop :=
  values.map Value.type = specs.map ParamSpec.type

namespace Conforms

variable {specs : List ParamSpec} {values : List Value}

theorem length_eq (h : Conforms specs values) : values.length = specs.length := by
  simpa using congrArg List.length h

theorem nil : Conforms [] [] := rfl

theorem defaults (specs : List ParamSpec) : Conforms specs (defaults specs) := by
  rw [Conforms, FrameGraph.defaults, List.map_map]
  rfl

/-- Every entry has its value. -/
theorem value {i : Nat} {spec : ParamSpec} (h : Conforms specs values)
    (hspec : specs[i]? = some spec) : ∃ v, values[i]? = some v ∧ v.type = spec.type := by
  have hi := congrArg (·[i]?) h
  simpa only [List.getElem?_map, hspec, Option.map_some, Option.map_eq_some_iff] using hi

theorem set {i : Nat} {v : Value} (h : Conforms specs values)
    (hv : ∀ spec, specs[i]? = some spec → v.type = spec.type) :
    Conforms specs (values.set i v) := by
  refine List.ext_getElem? fun j => ?_
  have hj := congrArg (·[j]?) h
  simp only [List.getElem?_map] at hj ⊢
  rw [List.getElem?_set]
  split
  · rename_i hij
    subst hij
    split
    · rename_i hi
      have hlt : i < specs.length := h.length_eq ▸ hi
      rw [List.getElem?_eq_getElem hlt, Option.map_some, Option.map_some,
        hv _ (List.getElem?_eq_getElem hlt)]
    · rename_i hi
      rw [← hj, List.getElem?_eq_none (Nat.le_of_not_lt hi), Option.map_none]
  · exact hj

/-- The index under which a name is looked up is that of a value, of the type of the entry. -/
theorem indexed (h : Conforms specs values) {name : String} {i : Nat}
    (hi : paramIndex? specs name = some i) : ∃ spec v, specs[i]? = some spec ∧ spec.name = name ∧
      values[i]? = some v ∧ v.type = spec.type := by
  obtain ⟨hlt, hname, -⟩ := List.findIdx?_eq_some_iff_getElem.mp hi
  have hspec := List.getElem?_eq_getElem hlt
  obtain ⟨v, hv, htype⟩ := h.value hspec
  exact ⟨_, v, hspec, by simpa using hname, hv, htype⟩

end Conforms

/-! ## Arguments -/

namespace Assembly

open Script

theorem Signature.check_ok {g : Signature} {earlier : List Assignment} {a : Assignment} {i : Nat}
    {v : Value} (h : g.check earlier a = .ok (i, v)) :
    ∃ spec, g.params[i]? = some spec ∧ v.type = spec.type := by
  rw [check] at h
  split at h
  · cases h
  · rename_i spec index hfind
    split at h
    · cases h
    · split at h
      · rename_i value hconvert
        cases h
        exact ⟨spec, List.mk_mem_zipIdx_iff_getElem?.mp (List.mem_of_find?_eq_some hfind),
          Value.type_of_convert hconvert⟩
      · cases h

/-- Every assignment is checked against those before it, the latest first. -/
theorem Signature.mem_checkAll {g : Signature} {earlier assignments : List Assignment}
    {r : Except Diagnostic (Nat × Value)} :
    r ∈ g.checkAll earlier assignments ↔
      ∃ front a back, assignments = front ++ a :: back ∧
        r = g.check (front.reverse ++ earlier) a := by
  induction assignments generalizing earlier with
  | nil => simp [checkAll]
  | cons a rest ih =>
    rw [checkAll, List.mem_cons, ih]
    constructor
    · rintro (rfl | ⟨front, x, back, rfl, rfl⟩)
      · exact ⟨[], a, rest, rfl, rfl⟩
      · exact ⟨a :: front, x, back, rfl, by simp⟩
    · rintro ⟨front, x, back, hsplit, rfl⟩
      cases front with
      | nil =>
        obtain ⟨rfl, rfl⟩ := List.cons.inj hsplit
        exact .inl rfl
      | cons y front =>
        obtain ⟨rfl, rfl⟩ := List.cons.inj hsplit
        exact .inr ⟨front, x, back, rfl, by simp⟩

/-- The values that assignments give conform to the schema that they are checked against. -/
theorem Signature.values_conform {g : Signature} {assignments : List Assignment}
    {values : List Value} (h : g.values assignments = .ok values) : Conforms g.params values := by
  rw [Signature.values] at h
  split at h
  · cases h
    refine List.foldlRecOn _ _ (Conforms.defaults g.params) fun values hvalues result hresult => ?_
    cases result with
    | error d => exact hvalues
    | ok assigned =>
      obtain ⟨front, a, back, -, hcheck⟩ := mem_checkAll.mp hresult
      obtain ⟨spec, hspec, htype⟩ := check_ok hcheck.symm
      refine hvalues.set fun spec' hspec' => ?_
      rw [hspec] at hspec'
      cases hspec'
      exact htype
  · cases h

end Assembly

/-! ## Setups -/

/-- Whatever the program is answered, and whatever values that conform it sees of its own scope,
what it makes gets values that conform, and so it is with the scope types that it uses. -/
inductive Setup.Conforming : List ParamSpec → Setup → Prop
  | done {specs} : Conforming specs .done
  | fail {specs reason} : Conforming specs (.fail reason)
  | look {specs next} (goesOn : ∀ (v : ScopeView) (values : List Value), Conforms specs values →
      v.params = named specs values → Conforming specs (next v)) : Conforming specs (.look next)
  | say {specs remark next} (goesOn : Conforming specs next) : Conforming specs (.say remark next)
  | keep {specs window next} (goesOn : Conforming specs next) : Conforming specs (.keep window next)
  | defineNodeType {specs location name type next}
    (goesOn : ∀ answer, Conforming specs (next answer)) :
    Conforming specs (.defineNodeType location name type next)
  | defineScopeType {specs location name} {type : ScopeTypeOver Setup} {next}
    (type_conforming : Conforming type.params type.setup)
    (goesOn : ∀ answer, Conforming specs (next answer)) :
    Conforming specs (.defineScopeType location name type next)
  | makeNode {specs location name} {type : NodeType} {params next}
    (conforms : Conforms type.params params) (goesOn : ∀ answer, Conforming specs (next answer)) :
    Conforming specs (.makeNode location name type params next)
  | makeScope {specs location name} {type : ScopeTypeOver Setup} {params next}
    (conforms : Conforms type.params params) (type_conforming : Conforming type.params type.setup)
    (goesOn : ∀ answer, Conforming specs (next answer)) :
    Conforming specs (.makeScope location name type params next)

/-- The setup of the type conforms. -/
def ScopeType.Conforming (t : ScopeType) : Prop := t.setup.Conforming t.params

/-- The setups of all scope types and plugins conform. -/
def Catalog.Conforming (c : Catalog) : Prop :=
  (∀ t ∈ c.scopeTypes, ScopeType.Conforming t) ∧ ∀ t ∈ c.plugins, ScopeType.Conforming t

theorem Setup.Conforming.orFail {α : Type} {specs : List ParamSpec} {next : Setup}
    (h : Conforming specs next) (answer : Except WorldError α) :
    Conforming specs (next.orFail answer) := by
  cases answer with
  | ok a => exact h
  | error e => exact .fail

/-- The display of a window takes no parameters. -/
theorem Window.scopeType_conforming : ScopeType.Conforming Window.scopeType := by
  refine .look fun v values _ _ => ?_
  cases describe v with
  | error reason => exact .fail
  | ok window =>
    have hopened : Setup.Conforming Window.scopeType.params
        (.say (.windowOpened v.path window.width window.height) .done) := .say .done
    have hdisplay : Setup.Conforming Window.scopeType.params
        (.makeNode .here "display" displayType [] _) := .makeNode .nil hopened.orFail
    exact .keep (.defineNodeType hdisplay.orFail)

theorem Window.catalog_conforming : Window.catalog.Conforming := by
  refine ⟨fun t ht => ?_, fun t ht => nomatch ht⟩
  rw [List.mem_singleton.mp ht]
  exact scopeType_conforming

end FrameGraph
