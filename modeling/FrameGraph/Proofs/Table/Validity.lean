import FrameGraph.Proofs.Table.Slots

/-!
# Valid tables

What every operation keeps: the slots are sound, the size is the number of entries, and at most
half of the slots are full. Each operation is described by what it does to the entries, whose order
is of no account.
-/
namespace FrameGraph.Table

variable {α : Type} {t : Table α} {key : String}

/-- What holds of a table after every operation. -/
structure Valid (t : Table α) : Prop where
  sound : Sound t.slots
  size : t.size = t.toList.length
  load : t.size * 2 ≤ t.capacity

theorem sound_replicate (capacity : Nat) :
    Sound (Array.replicate capacity (.empty : Slot α)) ∧
      entries (Array.replicate capacity (.empty : Slot α)) = [] := by
  have hslot {i : Nat} {k : String} {v : α} :
      (Array.replicate capacity (.empty : Slot α))[i]? ≠ some (.full k v) := by
    rw [Array.getElem?_replicate]
    split <;> simp
  refine ⟨⟨fun hi => absurd hi hslot, fun hi => absurd hi hslot⟩, ?_⟩
  rw [List.eq_nil_iff_forall_not_mem]
  rintro ⟨k, v⟩ hmem
  obtain ⟨i, hi⟩ := mem_entries.mp hmem
  exact hslot hi

theorem empty_valid : Valid (empty : Table α) :=
  ⟨(sound_replicate 0).1, rfl, Nat.le_refl _⟩

/-! ## Looking up -/

theorem get?_eq_some_iff (h : Sound t.slots) (v : α) :
    t.get? key = some v ↔ (key, v) ∈ t.toList := by
  have hmem : (key, v) ∈ t.toList ↔ ∃ i : Nat, t.slots[i]? = some (.full key v) := mem_entries
  rw [hmem, get?, getEntry?]
  cases hprobe : t.probe key with
  | found i =>
    obtain ⟨w, hw⟩ := (h.probe_eq_found_iff i).mp hprobe
    simp only [hw, Option.bind_some, Slot.entry?, Option.map_some, Option.some.injEq]
    constructor
    · rintro rfl
      exact ⟨i, hw⟩
    · rintro ⟨j, hj⟩
      obtain rfl := h.unique hw hj
      rw [hw] at hj
      cases hj
      rfl
  | missing wrapped =>
    simp only [Option.map_none, reduceCtorEq, false_iff]
    rintro ⟨i, hi⟩
    rw [(h.probe_eq_found_iff i).mpr ⟨v, hi⟩] at hprobe
    cases hprobe

theorem get?_eq_none_iff (h : Sound t.slots) :
    t.get? key = none ↔ ∀ v, (key, v) ∉ t.toList := by
  constructor
  · intro hnone v hv
    rw [(get?_eq_some_iff h v).mpr hv] at hnone
    cases hnone
  · intro hnew
    cases hget : t.get? key with
    | none => rfl
    | some v => exact absurd ((get?_eq_some_iff h v).mp hget) (hnew v)

theorem getEntry?_eq (h : Sound t.slots) (key : String) :
    t.getEntry? key = (t.get? key).map fun v => (key, v) := by
  rw [get?, getEntry?]
  cases hprobe : t.probe key with
  | found i =>
    obtain ⟨w, hw⟩ := (h.probe_eq_found_iff i).mp hprobe
    simp [hw, Slot.entry?]
  | missing wrapped => rfl

theorem contains_eq (h : Sound t.slots) : t.contains key = (t.get? key).isSome := by
  rw [contains, get?, getEntry?]
  cases hprobe : t.probe key with
  | found i =>
    obtain ⟨w, hw⟩ := (h.probe_eq_found_iff i).mp hprobe
    simp [hw, Slot.entry?]
  | missing wrapped => rfl

/-- Where the value of a key is found. -/
theorem probe_of_get? (h : Sound t.slots) {v : α} (hget : t.get? key = some v) :
    ∃ i, t.probe key = .found i ∧ t.slots[i]? = some (.full key v) := by
  obtain ⟨i, hi⟩ := mem_entries.mp ((get?_eq_some_iff h v).mp hget)
  exact ⟨i, (h.probe_eq_found_iff i).mpr ⟨v, hi⟩, hi⟩

theorem probe_of_get?_none (h : Sound t.slots) (hget : t.get? key = none) :
    ∃ wrapped, t.probe key = .missing wrapped := by
  cases hprobe : t.probe key with
  | found i =>
    obtain ⟨v, hv⟩ := (h.probe_eq_found_iff i).mp hprobe
    exact absurd (mem_entries.mpr ⟨i, hv⟩) ((get?_eq_none_iff h).mp hget v)
  | missing wrapped => exact ⟨wrapped, rfl⟩

/-! ## Rebuilding -/

theorem Sound.place {slots : Array (Slot α)} (h : Sound slots)
    (hroom : (entries slots).length < slots.size) (hnew : ∀ v, (key, v) ∉ entries slots)
    (value : α) :
    Sound (place slots key value) ∧
      (entries (place slots key value)).Perm ((key, value) :: entries slots) ∧
      (place slots key value).size = slots.size := by
  obtain ⟨j, hj⟩ := exists_freeSlot hroom key
  obtain ⟨hsound, hperm⟩ := h.fill hj hnew value
  rw [Table.place, hj]
  exact ⟨hsound, hperm, Array.size_setIfInBounds⟩

/-- Entries with new keys are placed one by one as long as there is room. -/
theorem foldl_place {slots : Array (Slot α)} (es : List (String × α)) (h : Sound slots)
    (hroom : es.length + (entries slots).length ≤ slots.size)
    (hnodup : ((es ++ entries slots).map Prod.fst).Nodup) :
    Sound (es.foldl (fun slots e => place slots e.1 e.2) slots) ∧
      (entries (es.foldl (fun slots e => place slots e.1 e.2) slots)).Perm (es ++ entries slots) ∧
      (es.foldl (fun slots e => place slots e.1 e.2) slots).size = slots.size := by
  induction es generalizing slots with
  | nil => exact ⟨h, .refl _, rfl⟩
  | cons e es ih =>
    obtain ⟨k, v⟩ := e
    rw [List.cons_append, List.map_cons, List.nodup_cons] at hnodup
    have hnew : ∀ w, (k, w) ∉ entries slots := by
      intro w hw
      exact hnodup.1 (List.mem_map.mpr ⟨(k, w), List.mem_append_right _ hw, rfl⟩)
    rw [List.length_cons] at hroom
    obtain ⟨hsound, hperm, hsize⟩ := h.place (by omega) hnew v
    have hmiddle : (es ++ entries (place slots k v)).Perm ((k, v) :: (es ++ entries slots)) :=
      (hperm.append_left es).trans List.perm_middle
    obtain ⟨hsound', hperm', hsize'⟩ := ih hsound
      (by rw [hperm.length_eq, hsize, List.length_cons]; omega)
      (by rw [(hmiddle.map Prod.fst).nodup_iff, List.map_cons, List.nodup_cons]; exact hnodup)
    exact ⟨hsound', hperm'.trans hmiddle, hsize'.trans hsize⟩

theorem Valid.rebuild (h : Valid t) {capacity : Nat} (hroom : t.size ≤ capacity) :
    Sound (t.rebuild capacity).slots ∧ (t.rebuild capacity).toList.Perm t.toList ∧
      (t.rebuild capacity).capacity = capacity := by
  obtain ⟨hsound, hnone⟩ := sound_replicate (α := α) capacity
  have hplace := foldl_place t.toList hsound
    (by rw [hnone, ← h.size, Array.size_replicate]; exact hroom)
    (by rw [hnone, List.append_nil]; exact h.sound.keys_nodup)
  rw [hnone, List.append_nil, Array.size_replicate] at hplace
  exact hplace

theorem Valid.rebuild_valid (h : Valid t) {capacity : Nat} (hload : t.size * 2 ≤ capacity) :
    Valid (t.rebuild capacity) := by
  obtain ⟨hsound, hperm, hcapacity⟩ := h.rebuild (by omega : t.size ≤ capacity)
  refine ⟨hsound, ?_, ?_⟩
  · rw [hperm.length_eq, ← h.size]
    rfl
  · rw [hcapacity]
    exact hload

/-- Reserving makes room for one more entry. -/
theorem Valid.reserve (h : Valid t) :
    Valid t.reserve ∧ t.reserve.toList.Perm t.toList ∧
      (t.reserve.size + 1) * 2 ≤ t.reserve.capacity := by
  have hload := h.load
  rw [Table.reserve]
  by_cases hfull : t.capacity < (t.size + 1) * 2
  · have hmin : minCapacity = 8 := rfl
    have hroom : (t.size + 1) * 2 ≤ max (t.capacity * 2) minCapacity := by omega
    obtain ⟨-, hperm, hcapacity⟩ :=
      h.rebuild (by omega : t.size ≤ max (t.capacity * 2) minCapacity)
    rw [if_pos hfull]
    refine ⟨h.rebuild_valid (by omega), hperm, ?_⟩
    rw [hcapacity]
    exact hroom
  · rw [if_neg hfull]
    exact ⟨h, .refl _, by omega⟩

/-! ## Changing -/

theorem Valid.insertNew (h : Valid t) (hroom : (t.size + 1) * 2 ≤ t.capacity)
    (hnew : ∀ v, (key, v) ∉ t.toList) (value : α) :
    Valid (t.insertNew key value) ∧
      (t.insertNew key value).toList.Perm ((key, value) :: t.toList) := by
  have hsize := h.size
  have hfree : (entries t.slots).length < t.slots.size := by
    show t.toList.length < t.capacity
    omega
  obtain ⟨j, hj⟩ := exists_freeSlot hfree key
  obtain ⟨hsound, hperm⟩ := h.sound.fill hj hnew value
  have hlength := hperm.length_eq
  rw [Table.insertNew, hj]
  refine ⟨⟨hsound, ?_, ?_⟩, hperm⟩
  · show t.size + 1 = (entries _).length
    rw [hlength, List.length_cons, hsize]
    rfl
  · show (t.size + 1) * 2 ≤ Array.size _
    rwa [Array.size_setIfInBounds]

theorem Valid.insert_of_none (h : Valid t) (hget : t.get? key = none) (value : α) :
    ∃ t', t.insert key value = .ok t' ∧ Valid t' ∧ t'.toList.Perm ((key, value) :: t.toList) := by
  have hnew := (get?_eq_none_iff h.sound).mp hget
  -- Rebuilding changes no entry, so the two ways of getting room are the same from here on.
  have hadd {u : Table α} (hu : Valid u) (hperm : u.toList.Perm t.toList) :
      Valid (u.reserve.insertNew key value) ∧
        (u.reserve.insertNew key value).toList.Perm ((key, value) :: t.toList) := by
    obtain ⟨hreserve, hperm', hroom⟩ := hu.reserve
    have hsame := hperm'.trans hperm
    obtain ⟨hvalid, hcons⟩ := hreserve.insertNew hroom
      (fun v hv => hnew v (hsame.mem_iff.mp hv)) value
    exact ⟨hvalid, hcons.trans (hsame.cons _)⟩
  obtain ⟨wrapped, hprobe⟩ := probe_of_get?_none h.sound hget
  rw [Table.insert, hprobe]
  cases wrapped with
  | true =>
    obtain ⟨-, hperm, -⟩ := h.rebuild (by have := h.load; omega : t.size ≤ t.capacity)
    exact ⟨_, rfl, hadd (h.rebuild_valid h.load) hperm⟩
  | false => exact ⟨_, rfl, hadd h (.refl _)⟩

/-- Adds an entry unless its key is taken. -/
def addEntry (t : Table α) (e : String × α) : Table α :=
  match t.insert e.1 e.2 with
  | .ok t => t
  | .error _ => t

/-- Entries with new keys are added one by one. -/
theorem Valid.foldl_addEntry (es : List (String × α)) (h : Valid t)
    (hnodup : ((es ++ t.toList).map Prod.fst).Nodup) :
    Valid (es.foldl addEntry t) ∧ (es.foldl addEntry t).toList.Perm (es ++ t.toList) := by
  induction es generalizing t with
  | nil => exact ⟨h, .refl _⟩
  | cons e es ih =>
    rw [List.cons_append, List.map_cons, List.nodup_cons] at hnodup
    have hnew : t.get? e.1 = none := by
      rw [get?_eq_none_iff h.sound]
      intro v hv
      exact hnodup.1 (List.mem_map.mpr ⟨_, List.mem_append_right _ hv, rfl⟩)
    obtain ⟨u, hinsert, hvalid, hperm⟩ := h.insert_of_none hnew e.2
    have hmiddle : (es ++ u.toList).Perm (e :: (es ++ t.toList)) :=
      (hperm.append_left es).trans List.perm_middle
    obtain ⟨hvalid', hperm'⟩ := ih hvalid
      (by rw [(hmiddle.map Prod.fst).nodup_iff, List.map_cons, List.nodup_cons]; exact hnodup)
    rw [List.foldl_cons, addEntry, hinsert]
    exact ⟨hvalid', hperm'.trans hmiddle⟩

theorem Valid.insert_of_some (h : Valid t) {v : α} (hget : t.get? key = some v) (value : α) :
    t.insert key value = .error value := by
  obtain ⟨i, hprobe, -⟩ := probe_of_get? h.sound hget
  rw [Table.insert, hprobe]

theorem Valid.erase_of_some (h : Valid t) {v : α} (hget : t.get? key = some v) :
    Valid (t.erase key) ∧ ((key, v) :: (t.erase key).toList).Perm t.toList := by
  obtain ⟨i, hprobe, hi⟩ := probe_of_get? h.sound hget
  obtain ⟨hsound, hperm⟩ := h.sound.clear hi
  have hlength := hperm.length_eq
  have hsize : t.size = (entries t.slots).length := h.size
  have hload := h.load
  rw [Table.erase, hprobe]
  refine ⟨⟨hsound, ?_, ?_⟩, hperm⟩
  · show t.size - 1 = (entries (t.slots.setIfInBounds i .tombstone)).length
    rw [hsize, ← hlength, List.length_cons, Nat.add_sub_cancel]
  · show (t.size - 1) * 2 ≤ Array.size _
    rw [Array.size_setIfInBounds]
    show (t.size - 1) * 2 ≤ t.capacity
    omega

theorem erase_of_none (h : Sound t.slots) (hget : t.get? key = none) : t.erase key = t := by
  obtain ⟨wrapped, hprobe⟩ := probe_of_get?_none h hget
  rw [erase, hprobe]

theorem Valid.modify_of_some (h : Valid t) {v : α} (hget : t.get? key = some v) (f : α → α) :
    Valid (t.modify key f) ∧ (key, f v) ∈ (t.modify key f).toList ∧
      ((key, v) :: (t.modify key f).toList).Perm ((key, f v) :: t.toList) := by
  obtain ⟨i, hprobe, hi⟩ := probe_of_get? h.sound hget
  obtain ⟨hsound, hperm⟩ := h.sound.change hi (f v)
  have hlength := hperm.length_eq
  have hentry := getEntry?_eq h.sound key
  rw [hget, Option.map_some] at hentry
  rw [Table.modify, hentry, hprobe]
  refine ⟨⟨hsound, ?_, ?_⟩, ?_, hperm⟩
  · show t.size = (entries _).length
    rw [List.length_cons, List.length_cons] at hlength
    rw [h.size, Nat.succ.inj hlength]
    rfl
  · show t.size * 2 ≤ Array.size _
    rw [Array.size_setIfInBounds]
    exact h.load
  · obtain ⟨hlt, -⟩ := Array.getElem?_eq_some_iff.mp hi
    exact mem_entries.mpr ⟨i, Array.getElem?_setIfInBounds_self_of_lt hlt⟩

theorem modify_of_none (h : Sound t.slots) (hget : t.get? key = none) (f : α → α) :
    t.modify key f = t := by
  have hentry := getEntry?_eq h key
  rw [hget, Option.map_none] at hentry
  rw [modify, hentry]

/-! ## Looking up after a change -/

/-- A table with one entry more gives the same for every other key. -/
theorem get?_of_perm_cons {t' : Table α} (h : Sound t.slots) (h' : Sound t'.slots) {v : α}
    (hperm : t'.toList.Perm ((key, v) :: t.toList)) (k : String) :
    t'.get? k = if k = key then some v else t.get? k := by
  by_cases hk : k = key
  · rw [if_pos hk, get?_eq_some_iff h', hperm.mem_iff, hk]
    exact List.mem_cons_self
  · rw [if_neg hk]
    refine Option.ext fun w => ?_
    rw [get?_eq_some_iff h', get?_eq_some_iff h, hperm.mem_iff, List.mem_cons]
    simp [hk]

theorem Valid.get?_insert (h : Valid t) (hget : t.get? key = none) (value : α) :
    ∃ t', t.insert key value = .ok t' ∧ Valid t' ∧
      ∀ k, t'.get? k = if k = key then some value else t.get? k := by
  obtain ⟨t', hinsert, hvalid, hperm⟩ := h.insert_of_none hget value
  exact ⟨t', hinsert, hvalid, get?_of_perm_cons h.sound hvalid.sound hperm⟩

theorem Valid.get?_erase (h : Valid t) (key k : String) :
    (t.erase key).get? k = if k = key then none else t.get? k := by
  cases hget : t.get? key with
  | none =>
    rw [erase_of_none h.sound hget]
    by_cases hk : k = key
    · rw [if_pos hk, hk, hget]
    · rw [if_neg hk]
  | some v =>
    obtain ⟨hvalid, hperm⟩ := h.erase_of_some hget
    by_cases hk : k = key
    · subst hk
      have hnodup := (hperm.map Prod.fst).nodup_iff.mpr h.sound.keys_nodup
      rw [if_pos rfl, get?_eq_none_iff hvalid.sound]
      exact fun w hw => (List.nodup_cons.mp hnodup).1 (List.mem_map.mpr ⟨(k, w), hw, rfl⟩)
    · have hsame := get?_of_perm_cons hvalid.sound h.sound hperm.symm k
      rw [if_neg hk] at hsame ⊢
      exact hsame.symm

theorem Valid.erase (h : Valid t) (key : String) : Valid (t.erase key) := by
  cases hget : t.get? key with
  | none => rwa [erase_of_none h.sound hget]
  | some v => exact (h.erase_of_some hget).1

end FrameGraph.Table
