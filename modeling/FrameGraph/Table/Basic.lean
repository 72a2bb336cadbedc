import FrameGraph.Table.Hash

/-!
# Tables

A table maps names to values by open addressing. A key's probe path starts at its home slot, its
hash modulo the capacity, and goes round the slots once. Looking up stops at the first empty slot;
erasing therefore leaves a tombstone, which is skipped by look-ups and reused by insertions.

An insertion that meets no empty slot rebuilds the table at its size first, which clears all
tombstones, and at least half of the slots are free after every insertion. So the path of a key to
be inserted always has a free slot. The entries are listed in slot order.
-/
namespace FrameGraph

inductive Slot (α : Type) where
  | empty
  | tombstone
  | full (key : String) (value : α)

namespace Slot

variable {α : Type}

def isFull : Slot α → Bool
  | full .. => true
  | _ => false

def entry? : Slot α → Option (String × α)
  | full key value => some (key, value)
  | _ => none

end Slot

/-- A map from names to values by open addressing. -/
structure Table (α : Type) where
  slots : Array (Slot α)
  /-- How many slots are full. -/
  size : Nat
  /-- How many slots hold a tombstone. -/
  tombstones : Nat

namespace Table

variable {α : Type}

/-- What the probe path of a key shows. -/
inductive Probe where
  | found (index : Nat)
  | missing (wrapped : Bool)
  deriving DecidableEq

def empty : Table α := ⟨#[], 0, 0⟩

/-- The smallest number of slots of a table that holds something. -/
def minCapacity : Nat := 8

def capacity (t : Table α) : Nat := t.slots.size

def isEmpty (t : Table α) : Bool := t.size = 0

/-- Where the probe path of a key starts. -/
def home (capacity : Nat) (key : String) : Nat :=
  (hashText key).toNat % capacity

/-- Follows a probe path for at most `steps` slots, from slot `i` on. -/
def probeFrom (slots : Array (Slot α)) (key : String) : Nat → Nat → Probe
  | 0, _ => .missing true
  | steps + 1, i =>
    match slots[i]? with
    | none | some .empty => .missing false
    | some (.full k _) =>
      if k = key then .found i else probeFrom slots key steps ((i + 1) % slots.size)
    | some .tombstone => probeFrom slots key steps ((i + 1) % slots.size)

def probe (t : Table α) (key : String) : Probe :=
  if t.slots.size = 0 then .missing false
  else probeFrom t.slots key t.slots.size (home t.slots.size key)

/-- The first slot without an entry, from slot `i` on, among at most `steps` slots. -/
def freeFrom (slots : Array (Slot α)) : Nat → Nat → Option Nat
  | 0, _ => none
  | steps + 1, i =>
    match slots[i]? with
    | none => none
    | some (.full ..) => freeFrom slots steps ((i + 1) % slots.size)
    | some _ => some i

def freeSlot? (slots : Array (Slot α)) (key : String) : Option Nat :=
  freeFrom slots slots.size (home slots.size key)

def place (slots : Array (Slot α)) (key : String) (value : α) : Array (Slot α) :=
  match freeSlot? slots key with
  | some i => slots.setIfInBounds i (.full key value)
  | none => slots

def toList (t : Table α) : List (String × α) :=
  t.slots.toList.filterMap Slot.entry?

def values (t : Table α) : List α :=
  t.toList.map Prod.snd

/-- Puts every entry, in slot order, into fresh slots. -/
def rebuild (t : Table α) (capacity : Nat) : Table α :=
  { t with
    slots := t.toList.foldl (fun slots e => place slots e.1 e.2) (Array.replicate capacity .empty)
    tombstones := 0 }

/-- Doubles the slots if one more entry would fill more than half of them. -/
def reserve (t : Table α) : Table α :=
  if t.capacity < (t.size + 1) * 2 then t.rebuild (max (t.capacity * 2) minCapacity) else t

/-- Puts an entry with a new key into the first free slot of its path. -/
def insertNew (t : Table α) (key : String) (value : α) : Table α :=
  match freeSlot? t.slots key with
  | none => t
  | some i =>
    { slots := t.slots.setIfInBounds i (.full key value)
      size := t.size + 1
      tombstones := match t.slots[i]? with
        | some .tombstone => t.tombstones - 1
        | _ => t.tombstones }

/-- Adds an entry. A key that is taken keeps its value, and the new value is handed back. -/
def insert (t : Table α) (key : String) (value : α) : Except α (Table α) :=
  match t.probe key with
  | .found _ => .error value
  | .missing true => .ok ((t.rebuild t.capacity).reserve.insertNew key value)
  | .missing false => .ok (t.reserve.insertNew key value)

/-- The entry of a key, with the key as it is stored. -/
def getEntry? (t : Table α) (key : String) : Option (String × α) :=
  match t.probe key with
  | .found i => t.slots[i]?.bind Slot.entry?
  | .missing _ => none

def get? (t : Table α) (key : String) : Option α :=
  (t.getEntry? key).map Prod.snd

def contains (t : Table α) (key : String) : Bool :=
  match t.probe key with
  | .found _ => true
  | .missing _ => false

/-- Changes the value of a key in its slot. -/
def modify (t : Table α) (key : String) (f : α → α) : Table α :=
  match t.getEntry? key, t.probe key with
  | some (k, value), .found i => { t with slots := t.slots.setIfInBounds i (.full k (f value)) }
  | _, _ => t

/-- Removes a key, leaving a tombstone in its slot. -/
def erase (t : Table α) (key : String) : Table α :=
  match t.probe key with
  | .found i =>
    { slots := t.slots.setIfInBounds i .tombstone
      size := t.size - 1
      tombstones := t.tombstones + 1 }
  | .missing _ => t

/-- Removes all entries and slots; the entries are handed over in slot order. -/
def drain (t : Table α) : List (String × α) × Table α :=
  (t.toList, empty)

@[simp] theorem toList_empty : (empty : Table α).toList = [] := rfl

@[simp] theorem drain_fst (t : Table α) : t.drain.1 = t.toList := rfl

@[simp] theorem drain_snd (t : Table α) : t.drain.2 = empty := rfl

end Table

end FrameGraph
