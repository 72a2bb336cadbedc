import FrameGraph.Decimal.Binary

/-!
# Parameter values

Parameters are set from literals and checked against a schema. The only conversion is from integers
to reals; every other literal has to have the type of the parameter already.
-/
namespace FrameGraph

inductive ValueType where
  | bool
  | integer
  | real
  | string
  deriving DecidableEq, Repr

def ValueType.name : ValueType → String
  | bool => "bool"
  | integer => "integer"
  | real => "real"
  | string => "string"

inductive Value where
  | bool (b : Bool)
  | integer (n : Int64)
  | real (x : Float)
  | string (s : String)
  deriving DecidableEq

namespace Value

def type : Value → ValueType
  | bool _ => .bool
  | integer _ => .integer
  | real _ => .real
  | string _ => .string

/-- The value as one of the expected type: integers widen to reals, and nothing else changes its
type. A mismatch gives the type found. -/
def convert (v : Value) (expected : ValueType) : Except ValueType Value :=
  match v, expected with
  | integer n, .real => .ok (real (Decimal.ofInt n.toInt))
  | v, t => if v.type = t then .ok v else .error v.type

def bool? : Value → Option Bool
  | bool b => some b
  | _ => none

def integer? : Value → Option Int64
  | integer n => some n
  | _ => none

def real? : Value → Option Float
  | real x => some x
  | _ => none

def string? : Value → Option String
  | string s => some s
  | _ => none

theorem type_of_convert {v w : Value} {t : ValueType} (h : v.convert t = .ok w) : w.type = t := by
  unfold convert at h
  split at h
  · cases h; rfl
  · split at h
    · cases h; assumption
    · cases h

end Value

end FrameGraph
