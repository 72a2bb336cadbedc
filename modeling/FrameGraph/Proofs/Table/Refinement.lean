import FrameGraph.Proofs.Table.Validity
import Mathlib.Data.Finmap

/-!
# Tables as finite maps

A table answers every sequence of calls as a finite map does. How hashes collide has no part in it;
only the order in which entries are listed is the table's own.
-/
namespace FrameGraph.Table

variable {α : Type}

/-- A call on a table or on a map. -/
inductive Operation (α : Type) where
  | insert (key : String) (value : α)
  | get (key : String)
  | getEntry (key : String)
  /-- Looks at the value of a key, if it has one, and changes it. -/
  | update (key : String) (f : α → α)
  | contains (key : String)
  | remove (key : String)
  | iterate
  | values
  | drain

/-- What a call gives. Entries and values come in any order. -/
inductive Answer (α : Type) where
  | inserted
  | rejected (value : α)
  | value (v : Option α)
  | entry (e : Option (String × α))
  | present (b : Bool)
  | entries (es : Multiset (String × α))
  | values (vs : Multiset α)

/-- A plain finite map. -/
abbrev Map (α : Type) := Finmap fun _ : String => α

/-- The entries of a map. -/
def Map.pairs (m : Map α) : Multiset (String × α) := m.entries.map fun e => (e.1, e.2)

/-- What a call on a table gives, and the table behind it. -/
def call (t : Table α) : Operation α → Answer α × Table α
  | .insert key value =>
    match t.insert key value with
    | .ok t => (.inserted, t)
    | .error value => (.rejected value, t)
  | .get key => (.value (t.get? key), t)
  | .getEntry key => (.entry (t.getEntry? key), t)
  | .update key f => (.value (t.get? key), t.modify key f)
  | .contains key => (.present (t.contains key), t)
  | .remove key => (.value (t.get? key), t.erase key)
  | .iterate => (.entries t.toList, t)
  | .values => (.values t.values, t)
  | .drain => (.entries t.drain.1, t.drain.2)

/-- What a call on a map gives, and the map behind it. A key that is there is not inserted. -/
def Map.call (m : Map α) : Operation α → Answer α × Map α
  | .insert key value =>
    if key ∈ m then (.rejected value, m) else (.inserted, m.insert key value)
  | .get key => (.value (m.lookup key), m)
  | .getEntry key => (.entry ((m.lookup key).map fun v => (key, v)), m)
  | .update key f =>
    match m.lookup key with
    | some v => (.value (some v), m.insert key (f v))
    | none => (.value none, m)
  | .contains key => (.present (key ∈ m), m)
  | .remove key => (.value (m.lookup key), m.erase key)
  | .iterate => (.entries (Map.pairs m), m)
  | .values => (.values ((Map.pairs m).map Prod.snd), m)
  | .drain => (.entries (Map.pairs m), ∅)

/-- What calls one after the other give, each with the size behind it. -/
def calls (t : Table α) : List (Operation α) → List (Answer α × Nat)
  | [] => []
  | op :: ops => ((t.call op).1, (t.call op).2.size) :: (t.call op).2.calls ops

/-- What calls one after the other give, each with the size behind it. -/
def Map.calls (m : Map α) : List (Operation α) → List (Answer α × Nat)
  | [] => []
  | op :: ops => ((Map.call m op).1, (Map.call m op).2.keys.card) :: Map.calls (Map.call m op).2 ops

theorem Map.mem_pairs {m : Map α} {k : String} {v : α} :
    (k, v) ∈ Map.pairs m ↔ m.lookup k = some v := by
  rw [Map.pairs, Multiset.mem_map, Finmap.lookup_eq_some_iff]
  constructor
  · rintro ⟨⟨k, v⟩, hmem, ⟨⟩⟩
    exact hmem
  · exact fun hmem => ⟨⟨k, v⟩, hmem, rfl⟩

theorem Map.pairs_nodup (m : Map α) : (Map.pairs m).Nodup := by
  refine m.nodup_entries.map ?_
  rintro ⟨k, v⟩ ⟨k', v'⟩ hsame
  cases hsame
  rfl

/-- The table is valid and has the values of the map. -/
structure Represents (t : Table α) (m : Map α) : Prop where
  valid : t.Valid
  lookup : ∀ k, t.get? k = m.lookup k

theorem empty_represents : Represents (empty : Table α) ∅ :=
  ⟨empty_valid, fun _ => rfl⟩

theorem represents_of_mem {t : Table α} {m : Map α} (h : t.Valid)
    (hmem : ∀ k v, (k, v) ∈ t.toList ↔ m.lookup k = some v) : Represents t m := by
  refine ⟨h, fun k => Option.ext fun v => ?_⟩
  rw [get?_eq_some_iff h.sound, hmem]

variable {t : Table α} {m : Map α}

theorem Represents.mem_toList (h : Represents t m) (k : String) (v : α) :
    (k, v) ∈ t.toList ↔ m.lookup k = some v := by
  rw [← get?_eq_some_iff h.valid.sound, h.lookup]

/-- The entries that are listed are those of the map, each once. -/
theorem Represents.toList_eq (h : Represents t m) :
    (t.toList : Multiset (String × α)) = Map.pairs m := by
  have hnodup : t.toList.Nodup := List.Nodup.of_map _ h.valid.sound.keys_nodup
  rw [(Multiset.coe_nodup.mpr hnodup).ext (Map.pairs_nodup m)]
  rintro ⟨k, v⟩
  rw [Multiset.mem_coe, h.mem_toList, Map.mem_pairs]

theorem Represents.size_eq (h : Represents t m) : t.size = m.keys.card := by
  have hcard := congrArg Multiset.card h.toList_eq
  rw [Multiset.coe_card, Map.pairs, Multiset.card_map] at hcard
  rw [h.valid.size, hcard]
  exact (Multiset.card_map _ _).symm

theorem Represents.insert (h : Represents t m) (key : String) (value : α) :
    (t.call (.insert key value)).1 = (Map.call m (.insert key value)).1 ∧
      Represents (t.call (.insert key value)).2 (Map.call m (.insert key value)).2 := by
  rw [call, Map.call]
  cases hget : t.get? key with
  | some v =>
    have hmem : key ∈ m := Finmap.mem_of_lookup_eq_some (by rw [← h.lookup, hget])
    rw [h.valid.insert_of_some hget, if_pos hmem]
    exact ⟨rfl, h⟩
  | none =>
    have hlookup : m.lookup key = none := by rw [← h.lookup, hget]
    obtain ⟨t', hinsert, hvalid, hperm⟩ := h.valid.insert_of_none hget value
    rw [hinsert, if_neg (Finmap.lookup_eq_none.mp hlookup)]
    refine ⟨rfl, represents_of_mem hvalid fun k v => ?_⟩
    rw [hperm.mem_iff, List.mem_cons, h.mem_toList]
    by_cases hk : k = key
    · subst hk
      simp [hlookup, eq_comm]
    · rw [Finmap.lookup_insert_of_ne _ hk]
      simp [hk]

theorem Represents.erase (h : Represents t m) (key : String) :
    Represents (t.erase key) (m.erase key) := by
  cases hget : t.get? key with
  | none =>
    rw [erase_of_none h.valid.sound hget]
    refine ⟨h.valid, fun k => ?_⟩
    by_cases hk : k = key
    · rw [hk, hget, Finmap.lookup_erase]
    · rw [h.lookup, Finmap.lookup_erase_ne hk]
  | some v₀ =>
    obtain ⟨hvalid, hperm⟩ := h.valid.erase_of_some hget
    refine represents_of_mem hvalid fun k v => ?_
    by_cases hk : k = key
    · subst hk
      have hnodup := (hperm.map Prod.fst).nodup_iff.mpr h.valid.sound.keys_nodup
      have hgone : (k, v) ∉ (t.erase k).toList := fun hmem =>
        (List.nodup_cons.mp hnodup).1 (List.mem_map.mpr ⟨(k, v), hmem, rfl⟩)
      simp [hgone]
    · rw [Finmap.lookup_erase_ne hk, ← h.mem_toList, ← hperm.mem_iff]
      simp [hk]

theorem Represents.update (h : Represents t m) (key : String) (f : α → α) :
    (t.call (.update key f)).1 = (Map.call m (.update key f)).1 ∧
      Represents (t.call (.update key f)).2 (Map.call m (.update key f)).2 := by
  rw [call, Map.call, ← h.lookup]
  cases hget : t.get? key with
  | none =>
    rw [modify_of_none h.valid.sound hget]
    exact ⟨rfl, h⟩
  | some v₀ =>
    obtain ⟨hvalid, hnew, hperm⟩ := h.valid.modify_of_some hget f
    refine ⟨rfl, represents_of_mem hvalid fun k v => ?_⟩
    by_cases hk : k = key
    · subst hk
      rw [Finmap.lookup_insert, Option.some.injEq]
      constructor
      · exact fun hmem => hvalid.sound.entries_unique hnew hmem
      · rintro rfl
        exact hnew
    · have hmem := hperm.mem_iff (a := (k, v))
      rw [Finmap.lookup_insert_of_ne _ hk, ← h.mem_toList]
      simpa [hk] using hmem

/-- Every call gives the same on both and leaves both the same. -/
theorem call_represents (h : Represents t m) (op : Operation α) :
    (t.call op).1 = (Map.call m op).1 ∧ Represents (t.call op).2 (Map.call m op).2 := by
  cases op with
  | insert key value => exact h.insert key value
  | get key => exact ⟨congrArg Answer.value (h.lookup key), h⟩
  | getEntry key =>
    refine ⟨?_, h⟩
    rw [call, Map.call, getEntry?_eq h.valid.sound, h.lookup]
  | update key f => exact h.update key f
  | contains key =>
    refine ⟨?_, h⟩
    rw [call, Map.call, contains_eq h.valid.sound, h.lookup]
    simp [← Finmap.lookup_isSome]
  | remove key => exact ⟨congrArg Answer.value (h.lookup key), h.erase key⟩
  | iterate => exact ⟨congrArg Answer.entries h.toList_eq, h⟩
  | values =>
    refine ⟨?_, h⟩
    rw [call, Map.call, values, ← h.toList_eq, Multiset.map_coe]
  | drain => exact ⟨congrArg Answer.entries h.toList_eq, empty_represents⟩

theorem calls_represents (h : Represents t m) (ops : List (Operation α)) :
    t.calls ops = Map.calls m ops := by
  induction ops generalizing t m with
  | nil => rfl
  | cons op ops ih =>
    obtain ⟨hanswer, hnext⟩ := call_represents h op
    rw [calls, Map.calls, hanswer, hnext.size_eq, ih hnext]

/-- A new table gives in every sequence of calls what a plain finite map gives, and has its size
after every call. -/
theorem calls_empty_eq (ops : List (Operation α)) :
    (empty : Table α).calls ops = Map.calls (∅ : Map α) ops :=
  calls_represents empty_represents ops

end FrameGraph.Table
