import FrameGraph.Proofs.Table.Capacity

/-!
# Searches for a free slot

Looking for the slot of a new entry goes on for as long as slots are full; nothing counts the steps,
and in a full table it would never end. An insertion looks for one slot for its own entry, and
before that for one slot for every entry that it puts into fresh slots. `Searched` writes all these
searches down, each with the slots as they are at that moment, and in every table that calls can
lead to each of them ends within one round: whatever is left to be placed, there is room for.
-/
namespace FrameGraph.Table

variable {α : Type} {t : Table α} {slots : Array (Slot α)} {key : String}

/-- The remainder of a division, unless it is one by zero. -/
def mod? (a n : Nat) : Option Nat := if n = 0 then none else some (a % n)

theorem mod?_of_pos {n : Nat} (hn : 0 < n) (a : Nat) : mod? a n = some (a % n) :=
  if_neg (by omega)

/-! ## Probing -/

/-- Follows a probe path as `probeFrom` does, but fails at a place that is no slot and at a division
by zero. -/
def probeFrom? (slots : Array (Slot α)) (key : String) : Nat → Nat → Option Probe
  | 0, _ => some (.missing true)
  | steps + 1, i => do
    match ← slots[i]? with
    | .empty => return .missing false
    | .full k _ =>
      if k = key then return .found i
      else probeFrom? slots key steps (← mod? (i + 1) slots.size)
    | .tombstone => probeFrom? slots key steps (← mod? (i + 1) slots.size)

/-- Looks for a key as `probe` does, but fails at a place that is no slot and at a division by
zero. -/
def probe? (t : Table α) (key : String) : Option Probe := do
  if t.slots.size = 0 then return .missing false
  probeFrom? t.slots key t.slots.size (← mod? (hashText key).toNat t.slots.size)

theorem probeFrom?_eq {steps i : Nat} (hi : i < slots.size) :
    probeFrom? slots key steps i = some (probeFrom slots key steps i) := by
  induction steps generalizing i with
  | zero => rfl
  | succ steps ih =>
    have hnext := ih (Nat.mod_lt (i + 1) (by omega))
    have hmod := mod?_of_pos (by omega : 0 < slots.size) (i + 1)
    rw [probeFrom?, probeFrom, Array.getElem?_eq_getElem hi]
    cases slots[i] with
    | empty => rfl
    | tombstone => simpa [hmod] using hnext
    | full k v =>
      by_cases hk : k = key
      · simp [hk]
      · simpa [hk, hmod] using hnext

theorem probe?_eq (t : Table α) (key : String) : t.probe? key = some (t.probe key) := by
  by_cases hsize : t.slots.size = 0
  · simp [probe?, probe, hsize]
  · have hpos : 0 < t.slots.size := by omega
    have hhome : probeFrom? t.slots key t.slots.size ((hashText key).toNat % t.slots.size) =
        some (probeFrom t.slots key t.slots.size ((hashText key).toNat % t.slots.size)) :=
      probeFrom?_eq (Nat.mod_lt _ hpos)
    simpa [probe?, probe, home, hsize, mod?_of_pos hpos] using hhome

/-! ## Searching -/

/-- The search from slot `i`: after so many steps it stands at the slot `j`, which is not full. All
slots before were, and it went on from each of them to the next. -/
inductive Seeks (slots : Array (Slot α)) : Nat → Nat → Nat → Prop where
  | stop {i : Nat} {s : Slot α} (hslot : slots[i]? = some s) (hfree : s.isFull = false) :
    Seeks slots i 0 i
  | step {i i' n j : Nat} {k : String} {v : α} (hslot : slots[i]? = some (.full k v))
    (hnext : mod? (i + 1) slots.size = some i') (h : Seeks slots i' n j) : Seeks slots i (n + 1) j

theorem Seeks.free {i n j : Nat} (h : Seeks slots i n j) :
    ∃ s, slots[j]? = some s ∧ s.isFull = false := by
  induction h with
  | stop hslot hfree => exact ⟨_, hslot, hfree⟩
  | step _ _ _ ih => exact ih

/-- There is one search from a slot. -/
theorem Seeks.unique {i n j n' j' : Nat} (h : Seeks slots i n j) (h' : Seeks slots i n' j') :
    n = n' ∧ j = j' := by
  induction h generalizing n' j' with
  | stop hslot hfree =>
    cases h' with
    | stop => exact ⟨rfl, rfl⟩
    | step hslot' =>
      rw [hslot] at hslot'
      cases hslot'
      cases hfree
  | step hslot hnext _ ih =>
    cases h' with
    | stop hslot' hfree =>
      rw [hslot] at hslot'
      cases hslot'
      cases hfree
    | step _ hnext' h' =>
      rw [hnext] at hnext'
      cases hnext'
      obtain ⟨rfl, rfl⟩ := ih h'
      exact ⟨rfl, rfl⟩

/-- The slots of a search are next to each other, from the last one on to the first one. -/
theorem Seeks.path {i n j : Nat} (h : Seeks slots i n j) (hi : i < slots.size) :
    j = (i + n) % slots.size ∧
      ∀ m < n, ∃ k v, slots[(i + m) % slots.size]? = some (.full k v) := by
  have hhere {i : Nat} (hi : i < slots.size) : (i + 0) % slots.size = i := Nat.mod_eq_of_lt hi
  induction h with
  | stop => exact ⟨(hhere hi).symm, fun m hm => absurd hm (Nat.not_lt_zero m)⟩
  | @step i i' n j k v hslot hnext _ ih =>
    have hpos : 0 < slots.size := by omega
    rw [mod?_of_pos hpos, Option.some.injEq] at hnext
    subst hnext
    obtain ⟨hj, hfull⟩ := ih (Nat.mod_lt _ hpos)
    refine ⟨by rw [hj, path_next], fun m hm => ?_⟩
    cases m with
    | zero => exact ⟨k, v, by rw [hhere hi, hslot]⟩
    | succ m =>
      rw [← path_next]
      exact hfull m (by omega)

theorem seeks_of_freeFrom {steps i j : Nat} (hi : i < slots.size)
    (h : freeFrom slots steps i = some j) : ∃ n < steps, Seeks slots i n j := by
  induction steps generalizing i with
  | zero => cases h
  | succ steps ih =>
    have hpos : 0 < slots.size := by omega
    rw [freeFrom] at h
    split at h
    · cases h
    · rename_i k v hslot
      obtain ⟨n, hn, hseeks⟩ := ih (Nat.mod_lt _ hpos) h
      exact ⟨n + 1, by omega, .step hslot (mod?_of_pos hpos _) hseeks⟩
    · rename_i s hfull hslot
      cases h
      refine ⟨0, by omega, .stop hslot ?_⟩
      cases s with
      | full k v => exact absurd rfl (hfull k v)
      | _ => rfl

/-- The search for a free slot for a key, from its home on, ends. -/
structure Ends (slots : Array (Slot α)) (key : String) (start steps index : Nat) : Prop where
  /-- The home is a remainder by the capacity, which is not zero. -/
  home : mod? (hashText key).toNat slots.size = some start
  /-- Without any bound it takes fewer steps than there are slots. -/
  seeks : Seeks slots start steps index
  within : steps < slots.size
  /-- It ends at the first slot of the path that is not full. -/
  onPath : index = (start + steps) % slots.size
  before : ∀ m < steps, ∃ k v, slots[(start + m) % slots.size]? = some (.full k v)
  free : ∃ s, slots[index]? = some s ∧ s.isFull = false
  /-- That is the slot that the entry is put into. -/
  found : freeSlot? slots key = some index
  /-- No search from there goes anywhere else. -/
  only : ∀ n j, Seeks slots start n j → n = steps ∧ j = index

theorem exists_ends (hroom : (entries slots).length < slots.size) (key : String) :
    ∃ start steps index, Ends slots key start steps index := by
  have hpos : 0 < slots.size := by omega
  have hhome : home slots.size key < slots.size := Nat.mod_lt _ hpos
  obtain ⟨j, hj⟩ := exists_freeSlot hroom key
  obtain ⟨n, hn, hseeks⟩ := seeks_of_freeFrom hhome hj
  obtain ⟨hindex, hbefore⟩ := hseeks.path hhome
  exact ⟨_, n, j, mod?_of_pos hpos _, hseeks, hn, hindex, hbefore, hseeks.free, hj,
    fun _ _ h => h.unique hseeks⟩

/-! ## All searches of an insertion -/

/-- A result with the searches for free slots that were made for it, each with the slots as they
were and with its key. -/
structure Searched (α β : Type) where
  result : β
  searches : List (Array (Slot α) × String)

instance searchedMonad : Monad (Searched α) where
  pure b := ⟨b, []⟩
  bind m f := ⟨(f m.result).result, m.searches ++ (f m.result).searches⟩

/-- `place`, which searches once. -/
def placeSearched (slots : Array (Slot α)) (e : String × α) : Searched α (Array (Slot α)) :=
  ⟨place slots e.1 e.2, [(slots, e.1)]⟩

/-- `rebuild`, which searches for every entry. -/
def rebuildSearched (t : Table α) (capacity : Nat) : Searched α (Table α) := do
  let slots ← t.toList.foldlM placeSearched (Array.replicate capacity .empty)
  return { t with slots, tombstones := 0 }

/-- `cleared`, which may rebuild. -/
def clearedSearched (t : Table α) (wrapped : Bool) : Searched α (Table α) :=
  if wrapped then t.rebuildSearched t.capacity else pure t

/-- `reserve`, which may rebuild. -/
def reserveSearched (t : Table α) : Searched α (Table α) :=
  if t.capacity < (t.size + 1) * 2 then t.rebuildSearched (max (t.capacity * 2) minCapacity)
  else pure t

/-- `insertNew`, which searches once. -/
def insertNewSearched (t : Table α) (key : String) (value : α) : Searched α (Table α) :=
  ⟨t.insertNew key value, [(t.slots, key)]⟩

/-- `insert`, with all its searches. -/
def insertSearched (t : Table α) (key : String) (value : α) : Searched α (Except α (Table α)) :=
  match t.probe key with
  | .found _ => return .error value
  | .missing wrapped => do
    let t ← t.clearedSearched wrapped
    let t ← t.reserveSearched
    let t ← t.insertNewSearched key value
    return .ok t

@[simp] theorem pure_result {β : Type} (b : β) : (pure b : Searched α β).result = b := rfl

@[simp] theorem pure_searches {β : Type} (b : β) : (pure b : Searched α β).searches = [] := rfl

@[simp] theorem bind_result {β γ : Type} (m : Searched α β) (f : β → Searched α γ) :
    (m >>= f).result = (f m.result).result := rfl

@[simp] theorem bind_searches {β γ : Type} (m : Searched α β) (f : β → Searched α γ) :
    (m >>= f).searches = m.searches ++ (f m.result).searches := rfl

theorem foldlM_result (es : List (String × α)) (slots : Array (Slot α)) :
    (es.foldlM placeSearched slots).result =
      es.foldl (fun slots e => place slots e.1 e.2) slots := by
  induction es generalizing slots with
  | nil => rfl
  | cons e es ih => exact ih _

@[simp] theorem rebuildSearched_result (t : Table α) (capacity : Nat) :
    (t.rebuildSearched capacity).result = t.rebuild capacity := by
  simp [rebuildSearched, rebuild, foldlM_result]

@[simp] theorem clearedSearched_result (t : Table α) (wrapped : Bool) :
    (t.clearedSearched wrapped).result = t.cleared wrapped := by
  rw [clearedSearched, cleared]
  split <;> simp

@[simp] theorem reserveSearched_result (t : Table α) : t.reserveSearched.result = t.reserve := by
  rw [reserveSearched, reserve]
  split <;> simp

theorem insertSearched_result (t : Table α) (key : String) (value : α) :
    (t.insertSearched key value).result = t.insert key value := by
  rw [insertSearched]
  cases hprobe : t.probe key with
  | found i => rw [insert, hprobe]; rfl
  | missing wrapped => simp [insert_of_missing hprobe, insertNewSearched]

/-! ## They all end -/

/-- All searches that were made end. -/
def Searched.End {β : Type} (m : Searched α β) : Prop :=
  ∀ call ∈ m.searches, ∃ start steps index, Ends call.1 call.2 start steps index

theorem Searched.End.pure {β : Type} (b : β) : (pure b : Searched α β).End :=
  fun _ hcall => absurd hcall List.not_mem_nil

theorem Searched.End.bind {β γ : Type} {m : Searched α β} {f : β → Searched α γ} (h : m.End)
    (h' : (f m.result).End) : (m >>= f).End := fun call hcall =>
  (List.mem_append.mp hcall).elim (h call) (h' call)

theorem length_entries_place (hroom : (entries slots).length < slots.size) (key : String)
    (value : α) : (entries (place slots key value)).length = (entries slots).length + 1 := by
  obtain ⟨j, hj⟩ := exists_freeSlot hroom key
  obtain ⟨-, -, -, ⟨s, hs, hentry⟩, -⟩ := freeSlot?_eq_some hj
  have hlength := (entries_set hs (.full key value)).length_eq
  rw [Slot.contents, hentry] at hlength
  rw [place, hj]
  exact hlength

theorem size_place (slots : Array (Slot α)) (key : String) (value : α) :
    (place slots key value).size = slots.size := by
  rw [place]
  split
  · exact Array.size_setIfInBounds
  · rfl

/-- Midway there is still room for what has not been placed. -/
theorem foldlM_end (es : List (String × α))
    (hroom : es.length + (entries slots).length ≤ slots.size) :
    (es.foldlM placeSearched slots).End := by
  induction es generalizing slots with
  | nil => exact .pure _
  | cons e es ih =>
    rw [List.length_cons] at hroom
    have hfree : (entries slots).length < slots.size := by omega
    rw [List.foldlM_cons]
    refine Searched.End.bind ?_ (ih ?_)
    · exact fun call hcall => List.mem_singleton.mp hcall ▸ exists_ends hfree e.1
    · rw [placeSearched, length_entries_place hfree, size_place]
      omega

theorem Valid.rebuildSearched_end (h : Valid t) {capacity : Nat} (hroom : t.size ≤ capacity) :
    (t.rebuildSearched capacity).End := by
  refine Searched.End.bind (foldlM_end _ ?_) (.pure _)
  rw [(sound_replicate capacity).2, ← h.size, Array.size_replicate]
  exact hroom

theorem Valid.clearedSearched_end (h : Valid t) (wrapped : Bool) :
    (t.clearedSearched wrapped).End := by
  have hload := h.load
  rw [clearedSearched]
  split
  · exact h.rebuildSearched_end (by omega)
  · exact .pure _

theorem Valid.reserveSearched_end (h : Valid t) : t.reserveSearched.End := by
  have hload := h.load
  rw [reserveSearched]
  split
  · exact h.rebuildSearched_end (by omega)
  · exact .pure _

theorem Valid.insertNewSearched_end (h : Valid t) (hroom : (t.size + 1) * 2 ≤ t.capacity)
    (key : String) (value : α) : (t.insertNewSearched key value).End := by
  have hfree : (entries t.slots).length < t.slots.size := by
    show t.toList.length < t.capacity
    rw [← h.size]
    omega
  exact fun call hcall => List.mem_singleton.mp hcall ▸ exists_ends hfree key

theorem Valid.insertSearched_end (h : Valid t) (key : String) (value : α) :
    (t.insertSearched key value).End := by
  rw [insertSearched]
  cases t.probe key with
  | found i => exact .pure _
  | missing wrapped =>
    obtain ⟨hcleared, -⟩ := h.cleared wrapped
    obtain ⟨hreserve, -, hroom⟩ := hcleared.reserve
    refine Searched.End.bind (h.clearedSearched_end wrapped) ?_
    rw [clearedSearched_result]
    refine Searched.End.bind hcleared.reserveSearched_end ?_
    rw [reserveSearched_result]
    exact Searched.End.bind (hreserve.insertNewSearched_end hroom key value) (.pure _)

/-- Whatever calls are made on a new table, probing it for a key takes no remainder by zero, and
every search for a free slot that an insertion makes, for its own entry as for each that it puts
into fresh slots, ends within one round of the slots at the first of its path that is not full. -/
theorem insert_searches_end (ops : List (Operation α)) (key : String) (value : α) :
    let t := (marked ops).table
    t.probe? key = some (t.probe key) ∧
    (t.insertSearched key value).result = t.insert key value ∧
    ∀ call ∈ (t.insertSearched key value).searches,
      ∃ start steps index, Ends call.1 call.2 start steps index :=
  ⟨probe?_eq _ _, insertSearched_result _ _ _,
    (marked_measured ops).valid.insertSearched_end key value⟩

example :
    let t := (marked (["a", "b", "c", "d"].map (.insert · 0))).table
    (t.insertSearched "e" 0).searches.length = 5 := by
  decide +kernel

end FrameGraph.Table
