import FrameGraph.Table.Basic

/-!
# Interning

An interner gives every distinct text one handle, numbered in the order of first use, so that equal
handles mean equal texts and the other way round.
-/
namespace FrameGraph

/-- The shared name of a text. -/
structure Handle where
  id : Nat
  text : String
  deriving DecidableEq

structure Interner where
  ids : Table Nat

namespace Interner

def empty : Interner := ⟨.empty⟩

def size (i : Interner) : Nat := i.ids.size

def isEmpty (i : Interner) : Bool := i.ids.isEmpty

/-- The handle of a text, a new one at its first use. -/
def intern (i : Interner) (text : String) : Handle × Interner :=
  match i.ids.getEntry? text with
  | some (key, id) => (⟨id, key⟩, i)
  | none =>
    let handle : Handle := ⟨i.size, text⟩
    match i.ids.insert text handle.id with
    | .ok ids => (handle, ⟨ids⟩)
    | .error _ => (handle, i)

end Interner

end FrameGraph
