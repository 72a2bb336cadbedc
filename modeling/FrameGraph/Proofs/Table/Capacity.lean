import FrameGraph.Proofs.Table.Refinement
import Mathlib.Order.Bounds.Basic

/-!
# Capacity

A table counts its entries and its tombstones, and how many slots it has depends on one number
only: the largest size since it was made or drained. An insertion doubles the slots when it brings
a size that they cannot hold, and nothing else changes how many there are; so entries that come and
go never make a table grow. What they leave behind are tombstones, until an insertion finds no empty
slot on its way and clears them all.
-/
namespace FrameGraph

/-- The slot holds a tombstone. -/
def Slot.isTombstone {α : Type} : Slot α → Bool
  | tombstone => true
  | _ => false

theorem Slot.isSome_entry? {α : Type} (s : Slot α) : s.entry?.isSome = s.isFull := by
  cases s <;> rfl

namespace Table

variable {α : Type} {t : Table α} {slots : Array (Slot α)} {key : String}

/-! ## Counting slots -/

/-- Changing a slot changes a count by what the slot was and by what it becomes. -/
theorem countP_set (p : Slot α → Bool) {j : Nat} {s : Slot α} (hj : slots[j]? = some s)
    (s' : Slot α) :
    (slots.setIfInBounds j s').countP p + (if p s then 1 else 0) =
      slots.countP p + if p s' then 1 else 0 := by
  obtain ⟨hlt, rfl⟩ := Array.getElem?_eq_some_iff.mp hj
  rw [Array.setIfInBounds_def, dif_pos hlt, Array.countP_set]
  have hcounted : (if p slots[j] then 1 else 0) ≤ slots.countP p := by
    split
    · rename_i hp
      exact Array.countP_pos_iff.mpr ⟨_, Array.getElem_mem hlt, hp⟩
    · exact Nat.zero_le _
  omega

theorem length_toList (t : Table α) : t.toList.length = t.slots.countP Slot.isFull := by
  rw [toList, List.length_filterMap_eq_countP, ← Array.countP_toList]
  simp only [Slot.isSome_entry?]

/-- The tombstones are counted. -/
def Tallied (t : Table α) : Prop := t.tombstones = t.slots.countP Slot.isTombstone

theorem Valid.size_eq_countP (h : Valid t) : t.size = t.slots.countP Slot.isFull := by
  rw [h.size, length_toList]

theorem countP_place_le (slots : Array (Slot α)) (key : String) (value : α) :
    (place slots key value).countP Slot.isTombstone ≤ slots.countP Slot.isTombstone := by
  rw [place]
  split
  · rename_i j hfree
    obtain ⟨-, -, -, ⟨s, hs, -⟩, -⟩ := freeSlot?_eq_some hfree
    have hcount := countP_set Slot.isTombstone hs (.full key value)
    simp only [Slot.isTombstone, Bool.false_eq_true, if_false] at hcount ⊢
    omega
  · exact Nat.le_refl _

theorem countP_foldl_place_le (es : List (String × α)) (slots : Array (Slot α)) :
    (es.foldl (fun slots e => place slots e.1 e.2) slots).countP Slot.isTombstone ≤
      slots.countP Slot.isTombstone := by
  induction es generalizing slots with
  | nil => exact Nat.le_refl _
  | cons e es ih => exact (ih _).trans (countP_place_le slots e.1 e.2)

/-- Rebuilding leaves no tombstone. -/
theorem countP_rebuild (t : Table α) (capacity : Nat) :
    (t.rebuild capacity).slots.countP Slot.isTombstone = 0 := by
  have hle := countP_foldl_place_le t.toList (Array.replicate capacity (.empty : Slot α))
  rw [Array.countP_replicate] at hle
  exact Nat.le_zero.mp hle

theorem tallied_rebuild (t : Table α) (capacity : Nat) : Tallied (t.rebuild capacity) :=
  (countP_rebuild t capacity).symm

theorem Tallied.reserve (h : Tallied t) : Tallied t.reserve := by
  rw [Table.reserve]
  split
  · exact tallied_rebuild t _
  · exact h

theorem Tallied.insertNew (h : Tallied t) (key : String) (value : α) :
    Tallied (t.insertNew key value) := by
  rw [Table.insertNew]
  split
  · exact h
  · rename_i j hfree
    obtain ⟨-, -, -, ⟨s, hs, hentry⟩, -⟩ := freeSlot?_eq_some hfree
    have hcount := countP_set Slot.isTombstone hs (.full key value)
    have htally : t.tombstones = t.slots.countP Slot.isTombstone := h
    cases s with
    | full k v => cases hentry
    | empty => simpa [Tallied, hs, Slot.isTombstone, htally] using hcount.symm
    | tombstone =>
      simp only [Slot.isTombstone, if_true, Bool.false_eq_true, if_false] at hcount
      simp only [Tallied, hs]
      omega

theorem Tallied.erase (h : Tallied t) (hsound : Sound t.slots) (key : String) :
    Tallied (t.erase key) := by
  rw [Table.erase]
  split
  · rename_i j hprobe
    obtain ⟨v, hv⟩ := (hsound.probe_eq_found_iff j).mp hprobe
    have hcount := countP_set Slot.isTombstone hv .tombstone
    have htally : t.tombstones = t.slots.countP Slot.isTombstone := h
    simpa [Tallied, Slot.isTombstone, htally] using hcount.symm
  · exact h

theorem Tallied.modify (h : Tallied t) (hsound : Sound t.slots) (key : String) (f : α → α) :
    Tallied (t.modify key f) := by
  rw [Table.modify]
  split
  · rename_i k value j hentry hprobe
    obtain ⟨v, hv⟩ := (hsound.probe_eq_found_iff j).mp hprobe
    have hcount := countP_set Slot.isTombstone hv (.full k (f value))
    exact h.trans (by simpa [Slot.isTombstone] using hcount.symm)
  · exact h

/-! ## What an insertion finds -/

/-- The probe of a key has gone round when it has passed every slot, none of them empty, and the
key is in none. -/
theorem probeFrom_eq_wrapped_iff {steps i : Nat} (hi : i < slots.size) :
    probeFrom slots key steps i = .missing true ↔
      ∀ d < steps, slots[(i + d) % slots.size]? ≠ some .empty ∧
        ∀ v, slots[(i + d) % slots.size]? ≠ some (.full key v) := by
  induction steps generalizing i with
  | zero => simp [probeFrom]
  | succ steps ih =>
    have hhere : (i + 0) % slots.size = i := Nat.mod_eq_of_lt hi
    have hnext := ih (Nat.mod_lt (i + 1) (by omega))
    have hsplit (P : Nat → Prop) : (∀ d < steps + 1, P d) ↔ P 0 ∧ ∀ d < steps, P (d + 1) :=
      Nat.forall_lt_succ_left
    simp only [path_next] at hnext
    rw [probeFrom, hsplit, hhere]
    split
    · rename_i hslot
      rw [Array.getElem?_eq_none_iff] at hslot
      omega
    · rename_i hslot
      simp [hslot]
    · rename_i k w hslot
      by_cases hk : k = key
      · simp [hslot, hk]
      · simp [hslot, hk, hnext]
    · rename_i hslot
      simp [hslot, hnext]

theorem probe_eq_wrapped_iff (h : Sound t.slots) :
    t.probe key = .missing true ↔
      0 < t.capacity ∧ t.get? key = none ∧ ∀ i : Nat, t.slots[i]? ≠ some .empty := by
  rw [probe, capacity, get?_eq_none_iff h]
  by_cases hsize : t.slots.size = 0
  · simp [hsize]
  · have hhome : home t.slots.size key < t.slots.size := Nat.mod_lt _ (by omega)
    rw [if_neg hsize, probeFrom_eq_wrapped_iff hhome]
    constructor
    · intro hround
      have hslot {i : Nat} (hi : i < t.slots.size) :
          t.slots[i]? ≠ some .empty ∧ ∀ v, t.slots[i]? ≠ some (.full key v) := by
        obtain ⟨d, hd, rfl⟩ := exists_path hi (home t.slots.size key)
        exact hround d hd
      refine ⟨by omega, fun v hv => ?_, fun i hi => ?_⟩
      · obtain ⟨i, hi⟩ := mem_entries.mp hv
        exact (hslot (Array.getElem?_eq_some_iff.mp hi).1).2 v hi
      · exact (hslot (Array.getElem?_eq_some_iff.mp hi).1).1 hi
    · rintro ⟨-, hnew, hfull⟩ d -
      exact ⟨hfull _, fun v hv => hnew v (mem_entries.mpr ⟨_, hv⟩)⟩

/-- The table that an insertion goes on with, once it has looked for its key. -/
def cleared (t : Table α) (wrapped : Bool) : Table α :=
  if wrapped then t.rebuild t.capacity else t

theorem insert_of_missing {wrapped : Bool} (h : t.probe key = .missing wrapped) (value : α) :
    t.insert key value = .ok ((t.cleared wrapped).reserve.insertNew key value) := by
  rw [insert, h]
  cases wrapped <;> rfl

theorem Valid.cleared (h : Valid t) (wrapped : Bool) :
    Valid (t.cleared wrapped) ∧ (t.cleared wrapped).capacity = t.capacity := by
  cases wrapped with
  | false => exact ⟨h, rfl⟩
  | true =>
    have hload := h.load
    obtain ⟨-, -, hcapacity⟩ := h.rebuild (by omega : t.size ≤ t.capacity)
    exact ⟨h.rebuild_valid hload, hcapacity⟩

theorem cleared_size (t : Table α) (wrapped : Bool) : (t.cleared wrapped).size = t.size := by
  cases wrapped <;> rfl

theorem Tallied.cleared (h : Tallied t) (wrapped : Bool) : Tallied (t.cleared wrapped) := by
  cases wrapped with
  | false => exact h
  | true => exact tallied_rebuild t _

theorem reserve_size (t : Table α) : t.reserve.size = t.size := by
  rw [reserve]
  split <;> rfl

/-- How many slots there are once one more entry has room. -/
theorem Valid.reserve_capacity (h : Valid t) :
    t.reserve.capacity =
      if t.capacity < (t.size + 1) * 2 then max (t.capacity * 2) minCapacity else t.capacity := by
  have hload := h.load
  rw [Table.reserve]
  split
  · exact (h.rebuild (by omega : t.size ≤ max (t.capacity * 2) minCapacity)).2.2
  · rfl

theorem insertNew_capacity (t : Table α) (key : String) (value : α) :
    (t.insertNew key value).capacity = t.capacity := by
  rw [insertNew]
  split
  · rfl
  · exact Array.size_setIfInBounds

theorem Valid.insertNew_size (h : Valid t) (hroom : (t.size + 1) * 2 ≤ t.capacity)
    (key : String) (value : α) : (t.insertNew key value).size = t.size + 1 := by
  have hfree : (entries t.slots).length < t.slots.size := by
    show t.toList.length < t.capacity
    rw [← h.size]
    omega
  obtain ⟨j, hj⟩ := exists_freeSlot hfree key
  rw [Table.insertNew, hj]

theorem erase_size_le (t : Table α) (key : String) : (t.erase key).size ≤ t.size := by
  rw [erase]
  split
  · exact Nat.sub_le _ _
  · exact Nat.le_refl _

theorem erase_capacity (t : Table α) (key : String) : (t.erase key).capacity = t.capacity := by
  rw [erase]
  split
  · exact Array.size_setIfInBounds
  · rfl

theorem modify_size (t : Table α) (key : String) (f : α → α) :
    (t.modify key f).size = t.size := by
  rw [modify]
  split <;> rfl

theorem modify_capacity (t : Table α) (key : String) (f : α → α) :
    (t.modify key f).capacity = t.capacity := by
  rw [modify]
  split
  · exact Array.size_setIfInBounds
  · rfl

/-- Without tombstones before, there are none behind a new entry. -/
theorem countP_insertNew_le (t : Table α) (key : String) (value : α) :
    (t.insertNew key value).slots.countP Slot.isTombstone ≤
      t.slots.countP Slot.isTombstone := by
  have hplace := countP_place_le t.slots key value
  rw [place] at hplace
  rw [insertNew]
  split <;> simp_all

theorem countP_reserve_le (t : Table α) :
    t.reserve.slots.countP Slot.isTombstone ≤ t.slots.countP Slot.isTombstone := by
  rw [reserve]
  split
  · rw [countP_rebuild]
    exact Nat.zero_le _
  · exact Nat.le_refl _

/-! ## The capacity that a peak calls for -/

/-- Without any entry there is no slot. Otherwise the slots are the smallest of the sizes eight,
sixteen and so on that is at least twice the peak. -/
def CapacityFor (peak capacity : Nat) : Prop :=
  (peak = 0 → capacity = 0) ∧
    (peak ≠ 0 → IsLeast {c | (∃ k, c = minCapacity * 2 ^ k) ∧ 2 * peak ≤ c} capacity)

namespace CapacityFor

variable {p q c : Nat}

theorem le (h : CapacityFor p c) : 2 * p ≤ c := by
  by_cases hp : p = 0
  · omega
  · exact (h.2 hp).1.2

theorem unique {c' : Nat} (h : CapacityFor p c) (h' : CapacityFor p c') : c = c' := by
  by_cases hp : p = 0
  · rw [h.1 hp, h'.1 hp]
  · exact (h.2 hp).unique (h'.2 hp)

/-- A higher peak that there is room for calls for nothing more. -/
theorem mono (h : CapacityFor p c) (hpq : p ≤ q) (hroom : 2 * q ≤ c) : CapacityFor q c := by
  refine ⟨fun hq => h.1 (by omega), fun hq => ?_⟩
  have hp : p ≠ 0 := by
    intro hp
    have := h.1 hp
    omega
  obtain ⟨⟨hpower, -⟩, hleast⟩ := h.2 hp
  exact ⟨⟨hpower, hroom⟩, fun m hm => hleast ⟨hm.1, by have := hm.2; omega⟩⟩

/-- One entry more than there is room for calls for twice the slots. -/
theorem double (h : CapacityFor p c) (hfull : c < 2 * (p + 1)) :
    CapacityFor (p + 1) (max (c * 2) minCapacity) := by
  have hmin : minCapacity = 8 := rfl
  refine ⟨fun hp => absurd hp (Nat.succ_ne_zero p), fun _ => ?_⟩
  by_cases hp : p = 0
  · subst hp
    rw [h.1 rfl]
    refine ⟨⟨⟨0, rfl⟩, by omega⟩, ?_⟩
    rintro m ⟨⟨k, rfl⟩, -⟩
    exact max_le (Nat.zero_le _) (Nat.le_mul_of_pos_right _ (Nat.two_pow_pos k))
  · obtain ⟨⟨⟨k, rfl⟩, hroom⟩, -⟩ := h.2 hp
    have hpos : minCapacity ≤ minCapacity * 2 ^ k := Nat.le_mul_of_pos_right _ (Nat.two_pow_pos k)
    have hdouble : minCapacity * 2 ^ (k + 1) = minCapacity * 2 ^ k * 2 := by
      rw [Nat.pow_succ, Nat.mul_assoc]
    rw [max_eq_left (by omega), ← hdouble]
    refine ⟨⟨⟨k + 1, rfl⟩, by omega⟩, ?_⟩
    -- The next smaller power is what there is, and it does not hold that many.
    rintro m ⟨⟨j, rfl⟩, hm⟩
    have hlt : 2 ^ k < 2 ^ j := Nat.lt_of_mul_lt_mul_left (hfull.trans_le hm)
    have hj : k < j := (Nat.pow_lt_pow_iff_right (by omega)).mp hlt
    exact Nat.mul_le_mul_left _ (Nat.pow_le_pow_right (by omega) hj)

end CapacityFor

/-- Reserving room for one more entry gives the slots that the peak then calls for. -/
theorem Valid.reserve_capacityFor (h : Valid t) {p : Nat} (hpeak : t.size ≤ p)
    (hcapacity : CapacityFor p t.capacity) :
    CapacityFor (max p (t.size + 1)) t.reserve.capacity := by
  have hroom := hcapacity.le
  rw [h.reserve_capacity]
  split
  · rename_i hfull
    obtain rfl : p = t.size := by omega
    rw [max_eq_right (Nat.le_succ _)]
    exact hcapacity.double (by omega)
  · exact hcapacity.mono (le_max_left _ _) (by omega)

/-! ## Tables with a mark -/

/-- A table with the largest size that it has had since it was made or drained. -/
structure Marked (α : Type) where
  table : Table α
  peak : Nat

/-- A call on the table; draining it forgets the mark. -/
def Marked.call (m : Marked α) (op : Operation α) : Marked α :=
  let t := (m.table.call op).2
  ⟨t, match op with
    | .drain => 0
    | _ => max m.peak t.size⟩

/-- A new table after calls one after the other. -/
def marked (ops : List (Operation α)) : Marked α := ops.foldl Marked.call ⟨empty, 0⟩

namespace Marked

/-- The counts are right, and the slots are those that the mark calls for. -/
structure Measured (m : Marked α) : Prop where
  valid : m.table.Valid
  tallied : m.table.Tallied
  le_peak : m.table.size ≤ m.peak
  capacity : CapacityFor m.peak m.table.capacity

theorem empty_measured : Measured (⟨empty, 0⟩ : Marked α) :=
  ⟨empty_valid, rfl, Nat.le_refl _, fun _ => rfl, fun h => absurd rfl h⟩

variable {m : Marked α}

/-- A table of the same capacity that is not larger needs no other mark. -/
theorem Measured.of_size_le (h : Measured m) {t : Table α} (hvalid : t.Valid) (htallied : t.Tallied)
    (hsize : t.size ≤ m.table.size) (hcapacity : t.capacity = m.table.capacity) :
    Measured ⟨t, max m.peak t.size⟩ := by
  have hpeak : t.size ≤ m.peak := hsize.trans h.le_peak
  rw [max_eq_left hpeak]
  exact ⟨hvalid, htallied, hpeak, hcapacity ▸ h.capacity⟩

theorem Measured.insert (h : Measured m) (key : String) (value : α) :
    Measured (m.call (.insert key value)) := by
  simp only [Marked.call, Table.call]
  cases hget : m.table.get? key with
  | some v =>
    rw [h.valid.insert_of_some hget]
    exact h.of_size_le h.valid h.tallied (Nat.le_refl _) rfl
  | none =>
    obtain ⟨t', hinsert, hvalid, -⟩ := h.valid.insert_of_none hget value
    obtain ⟨wrapped, hprobe⟩ := probe_of_get?_none h.valid.sound hget
    rw [insert_of_missing hprobe] at hinsert ⊢
    cases hinsert
    obtain ⟨hcleared, hcapacity⟩ := h.valid.cleared wrapped
    obtain ⟨hreserve, -, hroom⟩ := hcleared.reserve
    have hsize : ((m.table.cleared wrapped).reserve.insertNew key value).size =
        m.table.size + 1 := by
      rw [hreserve.insertNew_size hroom, reserve_size, cleared_size]
    have hpeak := hcleared.reserve_capacityFor (by rw [cleared_size]; exact h.le_peak)
      (hcapacity ▸ h.capacity)
    rw [cleared_size] at hpeak
    simp only [hsize]
    exact ⟨hvalid, (h.tallied.cleared wrapped).reserve.insertNew key value,
      hsize ▸ le_max_right _ _, by rwa [insertNew_capacity]⟩

theorem Measured.erase (h : Measured m) (key : String) : Measured (m.call (.remove key)) :=
  h.of_size_le (h.valid.erase key) (h.tallied.erase h.valid.sound key)
    (erase_size_le m.table key) (erase_capacity m.table key)

theorem Measured.modify (h : Measured m) (key : String) (f : α → α) :
    Measured (m.call (.update key f)) := by
  have hvalid : (m.table.modify key f).Valid := by
    cases hget : m.table.get? key with
    | none => rw [modify_of_none h.valid.sound hget]; exact h.valid
    | some v => exact (h.valid.modify_of_some hget f).1
  exact h.of_size_le hvalid (h.tallied.modify h.valid.sound key f)
    (modify_size m.table key f).le (modify_capacity m.table key f)

theorem Measured.call (h : Measured m) (op : Operation α) : Measured (m.call op) := by
  have hsame : Measured ⟨m.table, max m.peak m.table.size⟩ :=
    h.of_size_le h.valid h.tallied (Nat.le_refl _) rfl
  cases op with
  | insert key value => exact h.insert key value
  | update key f => exact h.modify key f
  | remove key => exact h.erase key
  | drain => exact empty_measured
  | _ => exact hsame

end Marked

theorem marked_measured (ops : List (Operation α)) : (marked ops).Measured := by
  induction ops using List.reverseRecOn with
  | nil => exact Marked.empty_measured
  | append_singleton ops op ih =>
    rw [marked, List.foldl_concat]
    exact ih.call op

/-- While nothing is drained and no size is above the mark, the mark stays. -/
theorem peak_append {ops more : List (Operation α)} (hdrain : .drain ∉ more)
    (hbelow : ∀ front, front <+: more → (marked (ops ++ front)).table.size ≤ (marked ops).peak) :
    (marked (ops ++ more)).peak = (marked ops).peak := by
  induction more using List.reverseRecOn with
  | nil => rw [List.append_nil]
  | append_singleton more op ih =>
    have hlast := hbelow (more ++ [op]) (List.prefix_rfl)
    have hbefore := ih (fun h => hdrain (List.mem_append_left _ h))
      fun front hfront => hbelow front (hfront.trans (List.prefix_append more [op]))
    have hop : op ≠ .drain := fun h => hdrain (by simp [h])
    rw [← List.append_assoc, marked, List.foldl_concat] at hlast ⊢
    rw [marked] at hbefore
    cases op with
    | drain => exact absurd rfl hop
    | _ => exact hbefore ▸ max_eq_left (hbefore ▸ hlast)

/-- An insertion that has gone round leaves no tombstone. -/
theorem insert_of_wrapped (h : t.probe key = .missing true) (value : α) :
    ∃ t', t.insert key value = .ok t' ∧ t'.tombstones = 0 ∧
      ∀ s ∈ t'.slots, s.isTombstone = false := by
  have hnone : ((t.cleared true).reserve.insertNew key value).slots.countP Slot.isTombstone ≤ 0 :=
    calc _ ≤ (t.cleared true).reserve.slots.countP Slot.isTombstone := countP_insertNew_le _ _ _
      _ ≤ (t.cleared true).slots.countP Slot.isTombstone := countP_reserve_le _
      _ = 0 := countP_rebuild t _
  have htally := (tallied_rebuild t t.capacity).reserve.insertNew key value
  refine ⟨_, insert_of_missing h value, htally.trans (Nat.le_zero.mp hnone), fun s hs => ?_⟩
  simpa using Array.countP_eq_zero.mp (Nat.le_zero.mp hnone) s hs

/-- Whatever calls are made on a new table, it counts its entries and its tombstones rightly, at
most half of its slots are full, and there are as many slots as the largest size since the table was
made or drained calls for: entries that come and go never make it grow. An insertion goes round
exactly when there is no empty slot for its new key, and then it leaves no tombstone behind. -/
theorem marked_occupancy (ops : List (Operation α)) :
    let t := (marked ops).table
    t.size = t.slots.countP Slot.isFull ∧
    t.tombstones = t.slots.countP Slot.isTombstone ∧
    2 * t.size ≤ t.capacity ∧
    CapacityFor (marked ops).peak t.capacity ∧
    (∀ more, .drain ∉ more →
      (∀ front, front <+: more → (marked (ops ++ front)).table.size ≤ (marked ops).peak) →
      (marked (ops ++ more)).table.capacity = t.capacity) ∧
    ∀ key,
      (t.probe key = .missing true ↔
        0 < t.capacity ∧ t.get? key = none ∧ ∀ i : Nat, t.slots[i]? ≠ some .empty) ∧
      (t.probe key = .missing true → ∀ value, ∃ t', t.insert key value = .ok t' ∧
        t'.tombstones = 0 ∧ ∀ s ∈ t'.slots, s.isTombstone = false) := by
  have h := marked_measured ops
  refine ⟨h.valid.size_eq_countP, h.tallied, ?_, h.capacity, fun more hdrain hbelow => ?_,
    fun key => ⟨probe_eq_wrapped_iff h.valid.sound, insert_of_wrapped⟩⟩
  · rw [Nat.mul_comm]
    exact h.valid.load
  · have hmore := (marked_measured (ops ++ more)).capacity
    rw [peak_append hdrain hbelow] at hmore
    exact hmore.unique h.capacity

/-- Each key is put in and taken out again before the next one. -/
def passages (keys : List String) : List (Operation Nat) :=
  keys.flatMap fun key => [.insert key 0, .remove key]

/-- The eight slots that the first key calls for are enough for eight keys that come and go. Then
all of them hold tombstones, and the ninth key goes round. -/
theorem marked_occupancy_passages :
    (∀ front, front <+: passages ["b", "c", "d", "e", "f", "g", "h"] →
      (marked (passages ["a"] ++ front)).table.size ≤ (marked (passages ["a"])).peak) ∧
    (marked (passages ["a"] ++ passages ["b", "c", "d", "e", "f", "g", "h"])).table.capacity = 8 ∧
    (marked (passages ["a", "b", "c", "d", "e", "f", "g", "h"])).table.tombstones = 8 ∧
    ∃ t', (marked (passages ["a", "b", "c", "d", "e", "f", "g", "h"])).table.insert "i" 1 = .ok t' ∧
      t'.tombstones = 0 := by
  have hbelow : ∀ front, front <+: passages ["b", "c", "d", "e", "f", "g", "h"] →
      (marked (passages ["a"] ++ front)).table.size ≤ (marked (passages ["a"])).peak := by
    have hall : ∀ front ∈ (passages ["b", "c", "d", "e", "f", "g", "h"]).inits,
        (marked (passages ["a"] ++ front)).table.size ≤ (marked (passages ["a"])).peak := by
      decide +kernel
    exact fun front hfront => hall front ((List.mem_inits _ _).mpr hfront)
  have hcapacity : (marked (passages ["a"])).table.capacity = 8 := by decide +kernel
  have hround : (marked (passages ["a", "b", "c", "d", "e", "f", "g", "h"])).table.probe "i" =
      .missing true := by decide +kernel
  obtain ⟨-, -, -, -, hsame, -⟩ := marked_occupancy (passages ["a"])
  obtain ⟨-, -, -, -, -, hkey⟩ :=
    marked_occupancy (passages ["a", "b", "c", "d", "e", "f", "g", "h"])
  obtain ⟨t', hinsert, hnone, -⟩ := (hkey "i").2 hround 1
  refine ⟨hbelow, ?_, by decide +kernel, t', hinsert, hnone⟩
  rw [hsame _ (by simp [passages]) hbelow, hcapacity]

end Table

end FrameGraph
