import FrameGraph.Table.Basic
import Mathlib.Data.List.Perm.Basic

/-!
# Slots

When every key is in one slot only, and no slot on the way to it from its home is empty, looking up
finds exactly the entries that there are. Filling the first free slot of a path keeps it so, and so
does leaving a tombstone.
-/
namespace FrameGraph

/-- What a slot adds to the entries. -/
def Slot.contents {α : Type} (s : Slot α) : List (String × α) := s.entry?.toList

namespace Table

variable {α : Type} {slots : Array (Slot α)} {key : String}

/-- The entries of the slots, in order. -/
def entries (slots : Array (Slot α)) : List (String × α) := slots.toList.filterMap Slot.entry?

/-- Keys are unique, and no slot between the home of a key and its place is empty. -/
structure Sound (slots : Array (Slot α)) : Prop where
  unique : ∀ {i j : Nat} {k : String} {v w : α}, slots[i]? = some (.full k v) →
    slots[j]? = some (.full k w) → i = j
  reachable : ∀ {i : Nat} {k : String} {v : α}, slots[i]? = some (.full k v) →
    ∃ d < slots.size, i = (home slots.size k + d) % slots.size ∧
      ∀ e < d, slots[(home slots.size k + e) % slots.size]? ≠ some .empty

theorem mem_entries {k : String} {v : α} :
    (k, v) ∈ entries slots ↔ ∃ i : Nat, slots[i]? = some (.full k v) := by
  rw [entries, List.mem_filterMap]
  constructor
  · rintro ⟨s, hs, hentry⟩
    obtain ⟨i, hi⟩ := List.mem_iff_getElem?.mp hs
    cases s with
    | empty => cases hentry
    | tombstone => cases hentry
    | full k' v' =>
      cases hentry
      exact ⟨i, by rwa [Array.getElem?_toList] at hi⟩
  · rintro ⟨i, hi⟩
    exact ⟨_, List.mem_of_getElem? (by rwa [Array.getElem?_toList]), rfl⟩

theorem Sound.keys_nodup (h : Sound slots) : ((entries slots).map Prod.fst).Nodup := by
  rw [List.Nodup, List.pairwise_map, entries, List.pairwise_filterMap, List.pairwise_iff_getElem]
  rintro i j hi hj hij ⟨k, v⟩ hk ⟨k', w⟩ hk' rfl
  have hfull {i : Nat} {v : α} (hi : i < slots.toList.length)
      (hk : Slot.entry? slots.toList[i] = some (k, v)) : slots[i]? = some (.full k v) := by
    rw [← Array.getElem?_toList, List.getElem?_eq_getElem hi]
    cases hs : slots.toList[i] with
    | empty => rw [hs] at hk; cases hk
    | tombstone => rw [hs] at hk; cases hk
    | full k' v' => rw [hs] at hk; cases hk; rfl
  have hsame := h.unique (hfull hi hk) (hfull hj hk')
  omega

theorem Sound.entries_unique (h : Sound slots) {k : String} {v w : α} (hv : (k, v) ∈ entries slots)
    (hw : (k, w) ∈ entries slots) : v = w := by
  obtain ⟨i, hi⟩ := mem_entries.mp hv
  obtain ⟨j, hj⟩ := mem_entries.mp hw
  obtain rfl := h.unique hi hj
  rw [hi] at hj
  cases hj
  rfl

/-! ## Paths -/

theorem path_next (h d n : Nat) : ((h + 1) % n + d) % n = (h + (d + 1)) % n := by
  rw [Nat.mod_add_mod]
  congr 1
  omega

/-- A path comes to every slot. -/
theorem exists_path {n i : Nat} (hi : i < n) (h : Nat) : ∃ d < n, (h + d) % n = i := by
  have hlt : h % n < n := Nat.mod_lt _ (by omega)
  by_cases hle : h % n ≤ i
  · refine ⟨i - h % n, by omega, ?_⟩
    rw [← Nat.mod_add_mod, Nat.add_sub_cancel' hle, Nat.mod_eq_of_lt hi]
  · refine ⟨i + n - h % n, by omega, ?_⟩
    rw [← Nat.mod_add_mod, Nat.add_sub_cancel' (by omega), Nat.add_mod_right, Nat.mod_eq_of_lt hi]

theorem full_of_probeFrom {steps i j : Nat} (h : probeFrom slots key steps i = .found j) :
    ∃ v, slots[j]? = some (.full key v) := by
  induction steps generalizing i with
  | zero => cases h
  | succ steps ih =>
    rw [probeFrom] at h
    split at h
    · cases h
    · cases h
    · rename_i k v hslot
      by_cases hk : k = key
      · rw [if_pos hk] at h
        cases h
        exact ⟨v, hk ▸ hslot⟩
      · rw [if_neg hk] at h
        exact ih h
    · exact ih h

/-- Looking up passes tombstones and other keys. -/
theorem exists_probeFrom {steps i d : Nat} {v : α} (hi : i < slots.size) (hd : d < steps)
    (hfull : slots[(i + d) % slots.size]? = some (.full key v))
    (hpath : ∀ e < d, slots[(i + e) % slots.size]? ≠ some .empty) :
    ∃ j, probeFrom slots key steps i = .found j := by
  induction steps generalizing i d with
  | zero => omega
  | succ steps ih =>
    have hhere : (i + 0) % slots.size = i := Nat.mod_eq_of_lt hi
    have hnext (hpos : d ≠ 0) :
        ∃ j, probeFrom slots key steps ((i + 1) % slots.size) = .found j := by
      obtain ⟨d, rfl⟩ := Nat.exists_eq_succ_of_ne_zero hpos
      refine ih (d := d) (Nat.mod_lt _ (by omega)) (by omega) ?_ fun e he => ?_
      · rwa [path_next]
      · rw [path_next]
        exact hpath (e + 1) (by omega)
    rw [probeFrom]
    split
    · rename_i hslot
      rw [Array.getElem?_eq_none_iff] at hslot
      omega
    · rename_i hslot
      by_cases hzero : d = 0
      · subst hzero
        rw [hhere, hslot] at hfull
        cases hfull
      · exact absurd (by rw [hhere, hslot]) (hpath 0 (by omega))
    · rename_i k w hslot
      by_cases hk : k = key
      · exact ⟨i, by rw [if_pos hk]⟩
      · rw [if_neg hk]
        refine hnext ?_
        rintro rfl
        rw [hhere, hslot] at hfull
        cases hfull
        exact hk rfl
    · rename_i hslot
      refine hnext ?_
      rintro rfl
      rw [hhere, hslot] at hfull
      cases hfull

theorem Sound.probe_eq_found_iff {t : Table α} (h : Sound t.slots) (i : Nat) :
    t.probe key = .found i ↔ ∃ v, t.slots[i]? = some (.full key v) := by
  rw [probe]
  by_cases hsize : t.slots.size = 0
  · rw [if_pos hsize]
    simp [Array.eq_empty_of_size_eq_zero hsize]
  · rw [if_neg hsize]
    constructor
    · exact full_of_probeFrom
    · rintro ⟨v, hv⟩
      obtain ⟨d, hd, rfl, hpath⟩ := h.reachable hv
      obtain ⟨j, hj⟩ :=
        exists_probeFrom (i := home t.slots.size key) (Nat.mod_lt _ (by omega)) hd hv hpath
      obtain ⟨w, hw⟩ := full_of_probeFrom hj
      rw [hj, h.unique hw hv]

/-! ## Free slots -/

theorem freeFrom_eq_some {steps i j : Nat} (hi : i < slots.size)
    (h : freeFrom slots steps i = some j) :
    ∃ d < steps, j = (i + d) % slots.size ∧ (∃ s, slots[j]? = some s ∧ s.entry? = none) ∧
      ∀ e < d, slots[(i + e) % slots.size]? ≠ some .empty := by
  induction steps generalizing i with
  | zero => cases h
  | succ steps ih =>
    have hhere : (i + 0) % slots.size = i := Nat.mod_eq_of_lt hi
    rw [freeFrom] at h
    split at h
    · cases h
    · rename_i k v hslot
      obtain ⟨d, hd, rfl, hfree, hpath⟩ := ih (Nat.mod_lt _ (by omega)) h
      refine ⟨d + 1, by omega, path_next i d _, hfree, fun e he => ?_⟩
      cases e with
      | zero =>
        rw [hhere, hslot]
        simp
      | succ e =>
        rw [← path_next]
        exact hpath e (by omega)
    · rename_i s hfull hslot
      cases h
      refine ⟨0, by omega, hhere.symm, ⟨s, hslot, ?_⟩, fun e he => absurd he (Nat.not_lt_zero e)⟩
      cases s with
      | full k v => exact absurd rfl (hfull k v)
      | _ => rfl

/-- The free slot of a key is on its path, before any empty one. -/
theorem freeSlot?_eq_some {j : Nat} (h : freeSlot? slots key = some j) :
    ∃ d < slots.size, j = (home slots.size key + d) % slots.size ∧
      (∃ s, slots[j]? = some s ∧ s.entry? = none) ∧
      ∀ e < d, slots[(home slots.size key + e) % slots.size]? ≠ some .empty := by
  have hpos : 0 < slots.size := by
    by_contra hzero
    have hsize : slots.size = 0 := by omega
    rw [freeSlot?, hsize] at h
    cases h
  exact freeFrom_eq_some (Nat.mod_lt _ hpos) h

theorem freeFrom_eq_none {steps i : Nat} (hi : i < slots.size)
    (h : freeFrom slots steps i = none) :
    ∀ d < steps, ∃ k v, slots[(i + d) % slots.size]? = some (.full k v) := by
  induction steps generalizing i with
  | zero => exact fun d hd => absurd hd (Nat.not_lt_zero d)
  | succ steps ih =>
    have hhere : (i + 0) % slots.size = i := Nat.mod_eq_of_lt hi
    rw [freeFrom] at h
    split at h
    · rename_i hslot
      rw [Array.getElem?_eq_none_iff] at hslot
      omega
    · rename_i k v hslot
      intro d hd
      cases d with
      | zero => exact ⟨k, v, by rw [hhere, hslot]⟩
      | succ d =>
        rw [← path_next]
        exact ih (Nat.mod_lt _ (by omega)) h d (by omega)
    · cases h

/-- As long as some slot has no entry, every path has a free slot. -/
theorem exists_freeSlot (h : (entries slots).length < slots.size) (key : String) :
    ∃ j, freeSlot? slots key = some j := by
  cases hfree : freeSlot? slots key with
  | some j => exact ⟨j, rfl⟩
  | none =>
    have hfull : ∀ d < slots.size,
        ∃ k v, slots[(home slots.size key + d) % slots.size]? = some (.full k v) :=
      freeFrom_eq_none (Nat.mod_lt _ (by omega)) hfree
    have hall : ∀ s ∈ slots.toList, s.entry?.isSome = true := by
      intro s hs
      obtain ⟨i, hi⟩ := List.mem_iff_getElem?.mp hs
      rw [Array.getElem?_toList] at hi
      obtain ⟨hsize, -⟩ := Array.getElem?_eq_some_iff.mp hi
      obtain ⟨d, hd, rfl⟩ := exists_path hsize (home slots.size key)
      obtain ⟨k, v, hslot⟩ := hfull d hd
      rw [hslot] at hi
      cases hi
      rfl
    rw [entries, List.filterMap_length_eq_length.mpr hall, Array.length_toList] at h
    omega

/-! ## Changing a slot -/

theorem filterMap_set_perm {β γ : Type} (f : β → Option γ) {l : List β} {j : Nat}
    (hj : j < l.length) (b : β) :
    ((f l[j]).toList ++ (l.set j b).filterMap f).Perm ((f b).toList ++ l.filterMap f) := by
  have hcons (a : β) (l : List β) : (a :: l).filterMap f = (f a).toList ++ l.filterMap f := by
    cases h : f a <;> simp [h]
  induction l generalizing j with
  | nil => cases hj
  | cons a l ih =>
    cases j with
    | zero =>
      rw [List.set_cons_zero, hcons, hcons]
      exact List.perm_append_comm_assoc _ _ _
    | succ j =>
      have hrest := ih (Nat.lt_of_succ_lt_succ hj)
      rw [List.set_cons_succ, hcons, hcons, List.getElem_cons_succ]
      exact (List.perm_append_comm_assoc _ _ _).trans
        ((hrest.append_left _).trans (List.perm_append_comm_assoc _ _ _))

/-- What a slot held is exchanged for what it gets. -/
theorem entries_set {j : Nat} {s : Slot α} (hj : slots[j]? = some s) (s' : Slot α) :
    (s.contents ++ entries (slots.setIfInBounds j s')).Perm (s'.contents ++ entries slots) := by
  obtain ⟨hlt, rfl⟩ := Array.getElem?_eq_some_iff.mp hj
  rw [entries, entries, Array.toList_setIfInBounds]
  exact filterMap_set_perm Slot.entry? hlt s'

theorem getElem?_set {i j : Nat} {s s' : Slot α}
    (h : (slots.setIfInBounds j s')[i]? = some s) :
    i = j ∧ s = s' ∨ slots[i]? = some s ∧ i ≠ j := by
  rw [Array.getElem?_setIfInBounds] at h
  by_cases hij : j = i
  · rw [if_pos hij] at h
    by_cases hj : j < slots.size
    · rw [if_pos hj] at h
      cases h
      exact .inl ⟨hij.symm, rfl⟩
    · rw [if_neg hj] at h
      cases h
  · rw [if_neg hij] at h
    exact .inr ⟨h, Ne.symm hij⟩

/-- A slot may get an entry whose key is nowhere else and whose path leads there. -/
theorem Sound.set (h : Sound slots) {j : Nat} {s : Slot α} (hempty : s ≠ .empty)
    (hunique : ∀ k v, s = .full k v → ∀ (i : Nat) w, slots[i]? = some (.full k w) → i = j)
    (hreachable : ∀ k v, s = .full k v → ∃ d < slots.size, j = (home slots.size k + d) % slots.size ∧
      ∀ e < d, slots[(home slots.size k + e) % slots.size]? ≠ some .empty) :
    Sound (slots.setIfInBounds j s) := by
  have hstill {i : Nat} (hi : slots[i]? ≠ some .empty) :
      (slots.setIfInBounds j s)[i]? ≠ some .empty := by
    intro hnow
    obtain ⟨-, hs⟩ | ⟨hs, -⟩ := getElem?_set hnow
    · exact hempty hs.symm
    · exact hi hs
  constructor
  · intro i i' k v w hi hi'
    obtain ⟨rfl, hs⟩ | ⟨hold, hne⟩ := getElem?_set hi
    · obtain ⟨rfl, -⟩ | ⟨hold', -⟩ := getElem?_set hi'
      · rfl
      · exact (hunique k v hs.symm i' w hold').symm
    · obtain ⟨rfl, hs⟩ | ⟨hold', -⟩ := getElem?_set hi'
      · exact hunique k w hs.symm i v hold
      · exact h.unique hold hold'
  · intro i k v hi
    rw [Array.size_setIfInBounds]
    obtain ⟨rfl, hs⟩ | ⟨hold, -⟩ := getElem?_set hi
    · obtain ⟨d, hd, hj, hpath⟩ := hreachable k v hs.symm
      exact ⟨d, hd, hj, fun e he => hstill (hpath e he)⟩
    · obtain ⟨d, hd, hj, hpath⟩ := h.reachable hold
      exact ⟨d, hd, hj, fun e he => hstill (hpath e he)⟩

theorem Sound.fill (h : Sound slots) {j : Nat} (hfree : freeSlot? slots key = some j)
    (hnew : ∀ v, (key, v) ∉ entries slots) (value : α) :
    Sound (slots.setIfInBounds j (.full key value)) ∧
      (entries (slots.setIfInBounds j (.full key value))).Perm ((key, value) :: entries slots) := by
  obtain ⟨d, hd, hj, ⟨s, hs, hentry⟩, hpath⟩ := freeSlot?_eq_some hfree
  constructor
  · refine h.set (by simp) ?_ ?_
    · rintro k v ⟨⟩ i w hi
      exact absurd (mem_entries.mpr ⟨i, hi⟩) (hnew w)
    · rintro k v ⟨⟩
      exact ⟨d, hd, hj, hpath⟩
  · have hperm := entries_set hs (.full key value)
    rw [Slot.contents, hentry] at hperm
    exact hperm

theorem Sound.clear (h : Sound slots) {j : Nat} {value : α}
    (hj : slots[j]? = some (.full key value)) :
    Sound (slots.setIfInBounds j .tombstone) ∧
      ((key, value) :: entries (slots.setIfInBounds j .tombstone)).Perm (entries slots) :=
  ⟨h.set (by simp) (by rintro k v ⟨⟩) (by rintro k v ⟨⟩), entries_set hj .tombstone⟩

theorem Sound.change (h : Sound slots) {j : Nat} {value : α}
    (hj : slots[j]? = some (.full key value)) (new : α) :
    Sound (slots.setIfInBounds j (.full key new)) ∧
      ((key, value) :: entries (slots.setIfInBounds j (.full key new))).Perm
        ((key, new) :: entries slots) := by
  refine ⟨h.set (by simp) ?_ ?_, entries_set hj (.full key new)⟩
  · rintro k v ⟨⟩ i w hi
    exact h.unique hi hj
  · rintro k v ⟨⟩
    exact h.reachable hj

end Table

end FrameGraph
