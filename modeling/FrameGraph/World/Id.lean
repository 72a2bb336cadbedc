/-!
# Ids

Nodes and scopes are numbered in the order of creation, each kind for itself, and no number is used
twice. An id is what one part of a world knows of another.
-/
namespace FrameGraph

/-- The number of a node. An id has 32 bits and the number no bound, so numbers stand for ids in worlds
that have made at most `2 ^ 32` nodes. -/
structure NodeId where
  index : Nat
  deriving DecidableEq, Repr

/-- The number of a scope, in 32 bits as well: for worlds that have made at most `2 ^ 32` scopes. -/
structure ScopeId where
  index : Nat
  deriving DecidableEq, Repr

def NodeId.text (id : NodeId) : String := s!"n{id.index}"

def ScopeId.text (id : ScopeId) : String := s!"s{id.index}"

/-- The scope that every world starts with. -/
def ScopeId.root : ScopeId := ⟨0⟩

end FrameGraph
