import FrameGraph.Behaviour.Schema
import FrameGraph.Diagnostic
import FrameGraph.Script.Program

/-!
# Arguments

The assignments of a statement are checked against the schema of the type, each for itself: it must
name a parameter, no earlier assignment may name the same one, and the literal must have the
parameter's type. Every assignment that fails is reported, and only if none fails there are values.
-/
namespace FrameGraph.Assembly

open Script

/-- The type whose arguments are checked, and the line of the statement. -/
structure Signature where
  typeName : String
  params : List ParamSpec
  line : Nat

def Signature.unknown (g : Signature) (a : Assignment) : Diagnostic :=
  .error Code.unknownParameter a.parameter.span g.line
    s!"'{g.typeName}' has no parameter '{a.parameter.name}'"

def Signature.repeated (g : Signature) (a before : Assignment) : Diagnostic :=
  (Diagnostic.error Code.duplicateParameter a.span g.line
    s!"parameter '{a.parameter.name}' is assigned more than once").relate before.span
    "first assigned here"

def Signature.mismatched (g : Signature) (a : Assignment) (expected found : ValueType) :
    Diagnostic :=
  .error Code.typeMismatch a.literal.span g.line
    s!"parameter '{a.parameter.name}' expects {expected.name}, found {found.name}"

/-- The index and the value that an assignment gives, knowing the assignments before it, the latest
first. -/
def Signature.check (g : Signature) (earlier : List Assignment) (a : Assignment) :
    Except Diagnostic (Nat × Value) :=
  let name := a.parameter.name
  match g.params.zipIdx.find? (·.1.name = name) with
  | none => .error (g.unknown a)
  | some (spec, index) =>
    match earlier.find? (·.parameter.name = name) with
    | some before => .error (g.repeated a before)
    | none =>
      match a.literal.value.convert spec.type with
      | .ok value => .ok (index, value)
      | .error found => .error (g.mismatched a spec.type found)

def Signature.checkAll (g : Signature) (earlier : List Assignment) :
    List Assignment → List (Except Diagnostic (Nat × Value))
  | [] => []
  | a :: rest => g.check earlier a :: g.checkAll (a :: earlier) rest

/-- The values of all parameters, or what is wrong with the assignments. -/
def Signature.values (g : Signature) (assignments : List Assignment) :
    Except (List Diagnostic) (List Value) :=
  let results := g.checkAll [] assignments
  let problems := results.filterMap fun
    | .error d => some d
    | .ok _ => none
  if problems.isEmpty then
    .ok (results.foldl (fun values result =>
      match result with
      | .ok (index, value) => values.set index value
      | .error _ => values) (defaults g.params))
  else .error problems

end FrameGraph.Assembly
