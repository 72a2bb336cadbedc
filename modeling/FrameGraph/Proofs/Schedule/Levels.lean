import FrameGraph.Proofs.Schedule.Building
import Mathlib.Data.Finset.Max

/-!
# Levels

Items wait first come first served, so an item joins the queue when the last of its sources is
placed, and it joins in front of all whose last source is placed later. No level is computed by the
ordering, but from this it follows that the nodes come level by level: first those that read from
nothing, then those that read from these only, and so on.
-/
namespace FrameGraph

namespace Dependency

variable {reads : Reads} {p : Progress} {queue more : List Nat} {i j : Nat}

/-! ## Turns -/

/-- The turn in which an item joins the queue: that of the source that stands last in it, counted
from one. Items without sources are there from the start. -/
def turn (reads : Reads) (queue : List Nat) (i : Nat) : Nat :=
  ((sources reads i).map fun source => queue.idxOf source + 1).max?.getD 0

theorem turn_le_iff {bound : Nat} :
    turn reads queue i ≤ bound ↔ ∀ source ∈ sources reads i, queue.idxOf source < bound := by
  rw [turn]
  cases hmax : ((sources reads i).map fun source => queue.idxOf source + 1).max? with
  | none =>
    have hnil := List.map_eq_nil_iff.mp (List.max?_eq_none_iff.mp hmax)
    simp [hnil]
  | some last =>
    rw [Option.getD_some, List.max?_le_iff hmax, List.forall_mem_map]
    exact Iff.rfl

theorem turn_eq_zero_iff : turn reads queue i = 0 ↔ ∀ source, source ∉ sources reads i := by
  rw [← Nat.le_zero, turn_le_iff]
  exact forall_congr' fun source => imp_congr_right fun _ => iff_of_false (Nat.not_lt_zero _) id

theorem turn_of_last (hj : j ∈ sources reads i)
    (hlast : ∀ source ∈ sources reads i, queue.idxOf source ≤ queue.idxOf j) :
    turn reads queue i = queue.idxOf j + 1 := by
  refine Nat.le_antisymm (turn_le_iff.mpr fun source hsource => ?_) ?_
  · exact Nat.lt_succ_of_le (hlast source hsource)
  · exact turn_le_iff.mp (Nat.le_refl _) j hj

/-- What joins the queue later does not change when an item has joined it. -/
theorem turn_append (h : ∀ source ∈ sources reads i, source ∈ queue) :
    turn reads (queue ++ more) i = turn reads queue i := by
  rw [turn, turn]
  congr 2
  refine List.map_congr_left fun source hsource => ?_
  rw [List.idxOf_append_of_mem (h source hsource)]

/-- The first item joins the queue before the second: in an earlier turn, or in the same turn and
with a lower number. -/
def Joins (reads : Reads) (queue : List Nat) (i j : Nat) : Prop :=
  turn reads queue i < turn reads queue j ∨ turn reads queue i = turn reads queue j ∧ i < j

theorem readersOf_sorted (reads : Reads) (source : Nat) :
    (readersOf reads source).Pairwise (· ≤ ·) := by
  rw [readersOf, List.pairwise_flatMap]
  refine ⟨fun entry _ => ?_, ?_⟩
  · exact List.pairwise_map.mpr (List.pairwise_of_forall fun _ _ => Nat.le_refl _)
  · have hnumbers : reads.toList.zipIdx.Pairwise fun entry later => entry.2 < later.2 := by
      have hrange := List.pairwise_lt_range' (s := 0) (n := reads.toList.length)
      rw [← List.zipIdx_map_snd] at hrange
      exact List.pairwise_map.mp hrange
    refine hnumbers.imp fun hlt r hr r' hr' => ?_
    obtain ⟨-, -, rfl⟩ := List.mem_map.mp hr
    obtain ⟨-, -, rfl⟩ := List.mem_map.mp hr'
    exact Nat.le_of_lt hlt

namespace Progress

/-- All that has joined the queue so far, in order: what is placed, and then what waits. -/
def joined (p : Progress) : List Nat := p.placed.reverse ++ p.waiting

/-- The queue stands in the order in which items join it. -/
def Queued (reads : Reads) (p : Progress) : Prop := p.joined.Pairwise (Joins reads p.joined)

theorem mem_joined : i ∈ p.joined ↔ i ∈ p.waiting ++ p.placed := by
  rw [joined, List.mem_append, List.mem_reverse, List.mem_append, or_comm]

theorem start_queued (reads : Reads) : Queued reads (start reads) := by
  have hjoined : (start reads).joined = (start reads).waiting := List.nil_append _
  have hturn : ∀ i ∈ (start reads).waiting, turn reads (start reads).joined i = 0 := by
    intro i hi
    obtain ⟨hsize, hnone⟩ := List.mem_filter.mp hi
    have hnil : sources reads i = [] := by
      have hsize := List.mem_range.mp hsize
      simpa [sources, hsize] using hnone
    rw [turn, hnil]
    rfl
  have hsorted : (start reads).waiting.Pairwise (· < ·) := List.pairwise_lt_range.filter _
  rw [Queued]
  nth_rewrite 2 [hjoined]
  refine hsorted.imp_of_mem fun hi hj hlt => .inr ⟨?_, hlt⟩
  rw [hturn _ hi, hturn _ hj]

/-- The items that are placed stand in front. -/
theorem idxOf_joined_lt (hi : i ∈ p.placed) : p.joined.idxOf i < p.placed.length := by
  have hmem := List.mem_reverse.mpr hi
  rw [joined, List.idxOf_append_of_mem hmem, ← List.length_reverse]
  exact List.idxOf_lt_length_of_mem hmem

/-- Whatever has joined the queue has all of its sources placed. -/
theorem Valid.sources_placed (h : Valid reads p) (hi : i ∈ p.joined) :
    ∀ source ∈ sources reads i, source ∈ p.placed := by
  have hi := mem_joined.mp hi
  exact (h.ready i (h.bounded i hi)).mp hi

/-- Whatever has joined the queue did so by now. -/
theorem Valid.turn_le (h : Valid reads p) (hi : i ∈ p.joined) :
    turn reads p.joined i ≤ p.placed.length :=
  turn_le_iff.mpr fun source hsource => idxOf_joined_lt (h.sources_placed hi source hsource)

/-- Placing an item lets those join that wait for it alone: they come behind all others, and among
themselves in the order of their numbers. -/
theorem Valid.step_queued (h : Valid reads p) (hq : Queued reads p) {readers : Nat → List Nat}
    (hreaders : ∀ i < reads.size, readers i = readersOf reads i) :
    Queued reads (p.step readers) := by
  cases hp : p.waiting with
  | nil => rwa [step_of_nil readers hp]
  | cons i waiting =>
    have hafter := h.step hreaders
    obtain ⟨hwaiting, hplaced, -⟩ := h.step_eq hreaders hp
    let ready := (readersOf reads i).dedup.filter fun r => openCount reads (i :: p.placed) r = 0
    have hjoined : (p.step readers).joined = p.joined ++ ready := by
      rw [joined, hwaiting, hplaced, joined, hp]
      simp [ready]
    have hold {r : Nat} (hr : r ∈ p.joined) :
        turn reads (p.step readers).joined r = turn reads p.joined r := by
      rw [hjoined]
      refine turn_append fun source hsource => ?_
      exact List.mem_append_left _ (List.mem_reverse.mpr (h.sources_placed hr source hsource))
    -- The item that is placed is the last source of all that join now.
    have hnew {r : Nat} (hr : r ∈ ready) :
        turn reads (p.step readers).joined r = p.placed.length + 1 := by
      have hsource : i ∈ sources reads r :=
        mem_readersOf.mp (List.mem_dedup.mp (List.mem_of_mem_filter hr))
      have hplace : (p.step readers).joined.idxOf i = p.placed.length := by
        have hnot : i ∉ p.placed.reverse := fun hi =>
          h.next_not_placed hp (List.mem_reverse.mp hi)
        rw [hjoined, joined, hp, List.append_assoc, List.idxOf_append_of_notMem hnot]
        simp
      rw [turn_of_last hsource fun source hs => ?_, hplace]
      have hr : r ∈ (p.step readers).joined := by
        rw [hjoined]
        exact List.mem_append_right _ hr
      have hlt := idxOf_joined_lt (hafter.sources_placed hr source hs)
      rw [hplaced, List.length_cons] at hlt
      omega
    have hsorted : ready.Pairwise (· < ·) := by
      refine List.Pairwise.filter _ ?_
      have hle := (readersOf_sorted reads i).sublist (List.dedup_sublist _)
      exact (hle.and (List.nodup_dedup _)).imp fun hab => Nat.lt_of_le_of_ne hab.1 hab.2
    rw [Queued]
    nth_rewrite 2 [hjoined]
    refine List.pairwise_append.mpr ⟨?_, ?_, fun r hr r' hr' => .inl ?_⟩
    · refine hq.imp_of_mem fun hr hr' hjoins => ?_
      rwa [Joins, hold hr, hold hr']
    · exact hsorted.imp_of_mem fun hr hr' hlt => .inr ⟨by rw [hnew hr, hnew hr'], hlt⟩
    · rw [hold hr, hnew hr']
      exact Nat.lt_succ_of_le (h.turn_le hr)

theorem Valid.run_queued (h : Valid reads p) (hq : Queued reads p) {readers : Nat → List Nat}
    (hreaders : ∀ i < reads.size, readers i = readersOf reads i) (steps : Nat) :
    Queued reads (p.run readers steps) := by
  induction steps generalizing p with
  | zero => exact hq
  | succ steps ih => exact ih (h.step hreaders) (h.step_queued hq hreaders)

end Progress

/-- The numbers of the items that are placed in the end, in the order found. -/
def placedOrder (reads : Reads) : List Nat := (finish reads).placed.reverse

/-- Of two elements of a list the one in front is related to the other. -/
theorem rel_of_idxOf_lt {α : Type} [DecidableEq α] {l : List α} {r : α → α → Prop}
    (h : l.Pairwise r) {a b : α} (hb : b ∈ l) (hlt : l.idxOf a < l.idxOf b) : r a b := by
  have hplace := List.idxOf_lt_length_of_mem hb
  simpa using List.pairwise_iff_getElem.mp h _ _ (Nat.lt_trans hlt hplace) hplace hlt

/-- In the end the items stand as they have joined the queue. -/
theorem placedOrder_joins (hj : j ∈ placedOrder reads)
    (hlt : (placedOrder reads).idxOf i < (placedOrder reads).idxOf j) :
    Joins reads (placedOrder reads) i j := by
  have hqueued := (Progress.start_valid reads).run_queued (Progress.start_queued reads)
    (lookup_readers reads) reads.size
  have hjoined : (finish reads).joined = placedOrder reads := by
    rw [Progress.joined, finish_waiting, List.append_nil, placedOrder]
  refine rel_of_idxOf_lt ?_ hj hlt
  rw [← hjoined]
  exact hqueued

/-- In the end the sources of an item stand before it. -/
theorem placedOrder_before (hi : i ∈ placedOrder reads) (hj : j ∈ sources reads i) :
    (placedOrder reads).idxOf j < (placedOrder reads).idxOf i := by
  have hvalid := finish_valid reads
  obtain ⟨later, earlier, hsplit⟩ := List.append_of_mem (List.mem_reverse.mp hi)
  have hbefore := List.mem_reverse.mpr (hvalid.ordered later i earlier hsplit j hj)
  have hnodup := hvalid.nodup.of_append_right
  rw [hsplit] at hnodup
  have hnot : i ∉ earlier.reverse := fun hi =>
    (List.nodup_cons.mp hnodup.of_append_right).1 (List.mem_reverse.mp hi)
  rw [placedOrder, hsplit, List.reverse_append, List.reverse_cons, List.append_assoc,
    List.idxOf_append_of_mem hbefore, List.idxOf_append_of_notMem hnot]
  exact Nat.lt_of_lt_of_le (List.idxOf_lt_length_of_mem hbefore) (Nat.le_add_right _ _)

end Dependency

namespace Schedule

open Dependency (sources turn placedOrder)

variable {w : World} {gathered : List NodeId} {order : List Nat} {depth : NodeId → Nat}
  {a b : NodeId} {i j : Nat}

/-! ## Depths -/

/-- What depth means: a gathered node that reads from no gathered node has depth 0, and any other is
one deeper than the deepest that it reads from. -/
structure IsDepth (w : World) (gathered : List NodeId) (depth : NodeId → Nat) : Prop where
  zero : ∀ a ∈ gathered, (∀ b, ¬ReadsFrom w gathered a b) → depth a = 0
  deeper : ∀ a b, ReadsFrom w gathered a b → depth b < depth a
  reached : ∀ a b, ReadsFrom w gathered a b →
    ∃ c, ReadsFrom w gathered a c ∧ depth a = depth c + 1

theorem IsDepth.eq_zero_iff (hd : IsDepth w gathered depth) (ha : a ∈ gathered) :
    depth a = 0 ↔ ∀ c, ¬ReadsFrom w gathered a c := by
  refine ⟨fun hzero c hac => ?_, hd.zero a ha⟩
  have := hd.deeper a c hac
  omega

/-- What a node reads from among the gathered nodes. -/
def sourcesAmong (w : World) (gathered : List NodeId) (a : NodeId) : List NodeId :=
  match w.node? a with
  | none => []
  | some n => (n.inputs.filterMap fun source => source).filter (· ∈ gathered)

theorem mem_sourcesAmong (ha : a ∈ gathered) :
    b ∈ sourcesAmong w gathered a ↔ ReadsFrom w gathered a b := by
  rw [sourcesAmong, ReadsFrom]
  cases hn : w.node? a with
  | none => simp
  | some n => simp [ha, and_comm]

/-- The depth of a node, if chains of sources have at most so many nodes. -/
def depthWithin (w : World) (gathered : List NodeId) : Nat → NodeId → Nat
  | 0, _ => 0
  | bound + 1, a =>
    ((sourcesAmong w gathered a).map fun b => depthWithin w gathered bound b + 1).max?.getD 0

/-- The depth of a gathered node. A chain of sources without a cycle is not longer than the list. -/
def depthAmong (w : World) (gathered : List NodeId) (a : NodeId) : Nat :=
  depthWithin w gathered gathered.length a

/-- Where nodes have places below a bound, sources before their readers, the bound is enough. -/
theorem depthWithin_eq {place : NodeId → Nat}
    (hplace : ∀ a b, ReadsFrom w gathered a b → place b < place a) (bound bound' : Nat)
    (ha : a ∈ gathered) (hbound : place a < bound) (hbound' : place a < bound') :
    depthWithin w gathered bound a = depthWithin w gathered bound' a := by
  induction bound generalizing bound' a with
  | zero => exact absurd hbound (Nat.not_lt_zero _)
  | succ bound ih =>
    obtain ⟨less, rfl⟩ : ∃ less, bound' = less + 1 := ⟨bound' - 1, by omega⟩
    rw [depthWithin, depthWithin]
    congr 2
    refine List.map_congr_left fun b hb => ?_
    have hreads := (mem_sourcesAmong ha).mp hb
    have hbefore := hplace a b hreads
    rw [ih less hreads.2.1 (by omega) (by omega)]

/-- Where sources come before their readers, there is a depth. -/
theorem depthAmong_isDepth (place : NodeId → Nat)
    (hplace : ∀ a b, ReadsFrom w gathered a b → place b < place a)
    (hbound : ∀ a ∈ gathered, place a < gathered.length) :
    IsDepth w gathered (depthAmong w gathered) := by
  have hdepth {a : NodeId} (ha : a ∈ gathered) : depthAmong w gathered a =
      ((sourcesAmong w gathered a).map fun b => depthAmong w gathered b + 1).max?.getD 0 := by
    have hlt := hbound a ha
    rw [depthAmong, depthWithin_eq hplace _ (gathered.length + 1) ha hlt (by omega), depthWithin]
    rfl
  refine ⟨fun a ha hnone => ?_, fun a b hab => ?_, fun a b hab => ?_⟩
  · have hnil : sourcesAmong w gathered a = [] :=
      List.eq_nil_iff_forall_not_mem.mpr fun b hb => hnone b ((mem_sourcesAmong ha).mp hb)
    rw [hdepth ha, hnil]
    rfl
  · rw [hdepth hab.1]
    exact List.le_max?_getD_of_mem
      (List.mem_map.mpr ⟨b, (mem_sourcesAmong hab.1).mpr hab, rfl⟩)
  · rw [hdepth hab.1]
    have hb := (mem_sourcesAmong hab.1).mpr hab
    cases hmax : ((sourcesAmong w gathered a).map fun b => depthAmong w gathered b + 1).max? with
    | none =>
      rw [List.map_eq_nil_iff.mp (List.max?_eq_none_iff.mp hmax)] at hb
      cases hb
    | some deepest =>
      obtain ⟨c, hc, rfl⟩ := List.mem_map.mp (List.max?_mem hmax)
      exact ⟨c, (mem_sourcesAmong hab.1).mp hc, rfl⟩

/-! ## The order -/

/-- The node that was gathered in the first place reads from the one that was gathered in the second;
if that was gathered more than once, its last place counts. -/
def ReadsAt (w : World) (gathered : List NodeId) (i j : Nat) : Prop :=
  ∃ a b, gathered[i]? = some a ∧ position? gathered b = some j ∧ ReadsFrom w gathered a b

theorem mem_sources_iff_readsAt : j ∈ sources (readsAmong w gathered) i ↔ ReadsAt w gathered i j := by
  rw [mem_sources_iff]
  constructor
  · rintro ⟨a, b, n, ha, hn, hsource, hb⟩
    exact ⟨a, b, ha, hb, List.mem_of_getElem? ha, List.mem_of_getElem? (position?_spec hb), n, hn,
      hsource⟩
  · rintro ⟨a, b, ha, hb, -, -, n, hn, hsource⟩
    exact ⟨a, b, n, ha, hn, hsource, hb⟩

theorem ReadsAt.lt_length (h : ReadsAt w gathered i j) :
    i < gathered.length ∧ j < gathered.length := by
  obtain ⟨a, b, ha, hb, -⟩ := h
  exact ⟨(List.getElem?_eq_some_iff.mp ha).1, (List.getElem?_eq_some_iff.mp (position?_spec hb)).1⟩

/-- Of what the node in a place reads from, this comes last in the order. -/
def LastSource (w : World) (gathered : List NodeId) (order : List Nat) (i j : Nat) : Prop :=
  ReadsAt w gathered i j ∧ ∀ k, ReadsAt w gathered i k → order.idxOf k ≤ order.idxOf j

theorem exists_lastSource (h : ReadsAt w gathered i j) (order : List Nat) :
    ∃ k, LastSource w gathered order i k := by
  have hmem : j ∈ (sources (readsAmong w gathered) i).toFinset :=
    List.mem_toFinset.mpr (mem_sources_iff_readsAt.mpr h)
  obtain ⟨k, hk, hlast⟩ := Finset.exists_max_image _ (fun k => order.idxOf k) ⟨j, hmem⟩
  refine ⟨k, mem_sources_iff_readsAt.mp (List.mem_toFinset.mp hk), fun l hl => hlast l ?_⟩
  exact List.mem_toFinset.mpr (mem_sources_iff_readsAt.mpr hl)

/-- Nodes come as their last sources do, and as they were gathered if they share it. -/
def ByLastSource (w : World) (gathered : List NodeId) (order : List Nat) : Prop :=
  ∀ i i' j j', LastSource w gathered order i j → LastSource w gathered order i' j' →
    (order.idxOf i < order.idxOf i' ↔
      order.idxOf j < order.idxOf j' ∨ j = j' ∧ i < i')

/-- The places come in the order in which they join the queue: first those of nodes that read from
nothing, as they were gathered, and then the others as their last sources do. -/
structure ByArrival (w : World) (gathered : List NodeId) (order : List Nat) : Prop where
  perm : order.Perm (List.range gathered.length)
  before : ∀ i j, ReadsAt w gathered i j → order.idxOf j < order.idxOf i
  front : ∀ i i', i' < gathered.length → order.idxOf i < order.idxOf i' →
    (∀ j, ¬ReadsAt w gathered i' j) → (∀ j, ¬ReadsAt w gathered i j) ∧ i < i'
  ties : ByLastSource w gathered order

/-- The gathered nodes come level by level. The order gives the places in which they were gathered. -/
structure ByDepth (w : World) (gathered : List NodeId) (order : List Nat)
    (depth : NodeId → Nat) : Prop where
  perm : order.Perm (List.range gathered.length)
  sorted : (select gathered order).Pairwise fun a b => depth a ≤ depth b
  /-- Those of depth 0 come first, as they were gathered. -/
  front : (select gathered order).filter (depth · = 0) = gathered.filter (depth · = 0)
  /-- The others each have a last source, and they come as these do. -/
  last : ∀ i a, gathered[i]? = some a → 0 < depth a → ∃ j, LastSource w gathered order i j
  ties : ByLastSource w gathered order

/-! ### From the queue to the order of arrival -/

theorem turn_of_lastSource (h : LastSource w gathered order i j) :
    turn (readsAmong w gathered) order i = order.idxOf j + 1 :=
  Dependency.turn_of_last (mem_sources_iff_readsAt.mpr h.1) fun k hk =>
    h.2 k (mem_sources_iff_readsAt.mp hk)

theorem turn_eq_zero_iff_reads : turn (readsAmong w gathered) order i = 0 ↔
    ∀ j, ¬ReadsAt w gathered i j := by
  simp only [Dependency.turn_eq_zero_iff, mem_sources_iff_readsAt]

/-- If all are placed, they stand in the order in which they have joined the queue. -/
theorem placedOrder_byArrival
    (hall : ∀ i < gathered.length, i ∈ placedOrder (readsAmong w gathered)) :
    ByArrival w gathered (placedOrder (readsAmong w gathered)) := by
  have hvalid := Dependency.finish_valid (readsAmong w gathered)
  have hmem {i : Nat} : i ∈ placedOrder (readsAmong w gathered) ↔ i < gathered.length := by
    refine ⟨fun hi => ?_, hall i⟩
    rw [← size_readsAmong w gathered]
    exact hvalid.bounded i (List.mem_append_right _ (List.mem_reverse.mp hi))
  refine ⟨?_, fun i j hij => ?_, fun i i' hi' hlt hnone => ?_,
    fun i i' j j' hj hj' => ⟨fun hlt => ?_, fun hlt => ?_⟩⟩
  · refine (List.perm_ext_iff_of_nodup ?_ List.nodup_range).mpr fun i => ?_
    · exact List.nodup_reverse.mpr hvalid.nodup.of_append_right
    · rw [hmem, List.mem_range]
  · exact Dependency.placedOrder_before (hmem.mpr hij.lt_length.1) (mem_sources_iff_readsAt.mpr hij)
  · have hzero : turn (readsAmong w gathered) (placedOrder (readsAmong w gathered)) i' = 0 :=
      turn_eq_zero_iff_reads.mpr hnone
    rw [← turn_eq_zero_iff_reads]
    obtain hless | ⟨hsame, hnumber⟩ := Dependency.placedOrder_joins (hmem.mpr hi') hlt
    · rw [hzero] at hless
      exact absurd hless (Nat.not_lt_zero _)
    · exact ⟨hsame.trans hzero, hnumber⟩
  · obtain hless | ⟨hsame, hnumber⟩ :=
      Dependency.placedOrder_joins (hmem.mpr hj'.1.lt_length.1) hlt
    · rw [turn_of_lastSource hj, turn_of_lastSource hj'] at hless
      exact .inl (Nat.lt_of_succ_lt_succ hless)
    · rw [turn_of_lastSource hj, turn_of_lastSource hj'] at hsame
      refine .inr ⟨?_, hnumber⟩
      exact (List.idxOf_inj (hmem.mpr hj.1.lt_length.2)).mp (Nat.succ.inj hsame)
  · -- If the second stood in front, or both were one, the queue would say the opposite.
    by_contra hnot
    obtain hback | hsame := Nat.lt_or_eq_of_le (Nat.le_of_not_lt hnot)
    · have hjoins := Dependency.placedOrder_joins (hmem.mpr hj.1.lt_length.1) hback
      rw [Dependency.Joins, turn_of_lastSource hj, turn_of_lastSource hj'] at hjoins
      obtain hlt | ⟨rfl, hlt⟩ := hlt <;> omega
    · obtain rfl := (List.idxOf_inj (hmem.mpr hj'.1.lt_length.1)).mp hsame
      have := hj.2 j' hj'.1
      obtain hlt | ⟨rfl, hlt⟩ := hlt <;> omega

/-! ### From the order of arrival to levels -/

theorem exists_readsAt (ha : gathered[i]? = some a) (hab : ReadsFrom w gathered a b) :
    ∃ j, ReadsAt w gathered i j ∧ gathered[j]? = some b := by
  obtain ⟨j, hj⟩ := exists_position? hab.2.1
  exact ⟨j, ⟨a, b, ha, hj, hab⟩, position?_spec hj⟩

theorem ReadsAt.readsFrom (h : ReadsAt w gathered i j) (ha : gathered[i]? = some a)
    (hb : gathered[j]? = some b) : ReadsFrom w gathered a b := by
  obtain ⟨a', b', ha', hb', hab⟩ := h
  have hb' := position?_spec hb'
  rw [ha] at ha'
  rw [hb] at hb'
  cases ha'
  cases hb'
  exact hab

/-- Along the order depths do not decrease: the sources of what stands in front of a node stand in
front of the last source of that node, or they are this source. -/
theorem ByArrival.depth_le (h : ByArrival w gathered order) (hd : IsDepth w gathered depth)
    (ha : gathered[i]? = some a) (hb : gathered[j]? = some b)
    (hlt : order.idxOf i < order.idxOf j) : depth a ≤ depth b := by
  induction hk : order.idxOf j using Nat.strongRecOn generalizing i j a b with
  | ind k ih =>
    subst hk
    have hlength {i : Nat} {a : NodeId} (ha : gathered[i]? = some a) : i < gathered.length :=
      (List.getElem?_eq_some_iff.mp ha).1
    by_cases hzero : depth a = 0
    · rw [hzero]
      exact Nat.zero_le _
    · rw [hd.eq_zero_iff (List.mem_of_getElem? ha)] at hzero
      obtain ⟨c, hac⟩ := not_forall_not.mp hzero
      obtain ⟨d, had, hdepth⟩ := hd.reached a c hac
      obtain ⟨i', hi', hid⟩ := exists_readsAt ha had
      have hreader : ¬∀ j', ¬ReadsAt w gathered j j' := fun hnone =>
        (h.front i j (hlength hb) hlt hnone).1 i' hi'
      obtain ⟨j', hj'⟩ := not_forall_not.mp hreader
      obtain ⟨s, hs⟩ := exists_lastSource hi' order
      obtain ⟨t, ht⟩ := exists_lastSource hj' order
      obtain ⟨e, he⟩ : ∃ e, gathered[t]? = some e :=
        ⟨_, List.getElem?_eq_getElem ht.1.lt_length.2⟩
      have hst : order.idxOf i' ≤ order.idxOf t := by
        obtain hst | ⟨rfl, -⟩ := (h.ties i j s t hs ht).mp hlt
        · exact Nat.le_trans (hs.2 i' hi') (Nat.le_of_lt hst)
        · exact hs.2 i' hi'
      have hsource : depth d ≤ depth e := by
        obtain hless | hsame := Nat.lt_or_eq_of_le hst
        · exact ih _ (h.before j t ht.1) hid he hless rfl
        · have hplaced := h.perm.mem_iff.mpr (List.mem_range.mpr hi'.lt_length.2)
          rw [(List.idxOf_inj hplaced).mp hsame, he] at hid
          cases hid
          exact Nat.le_refl _
      have := hd.deeper b e (ht.1.readsFrom hb he)
      omega

/-- A filter of the selected nodes is a selection. -/
theorem filter_select (q : NodeId → Bool) (numbers : List Nat) :
    (select gathered numbers).filter q =
      select gathered (numbers.filter fun i => (gathered[i]?).any q) := by
  rw [select, select, List.filter_filterMap, List.filterMap_filter]
  refine List.filterMap_congr fun i _ => ?_
  cases gathered[i]? with
  | none => rfl
  | some a => cases hq : q a <;> simp [Option.filter, hq]

theorem ByArrival.byDepth (h : ByArrival w gathered order) (hd : IsDepth w gathered depth) :
    ByDepth w gathered order depth := by
  have hmem {i : Nat} : i ∈ order ↔ i < gathered.length := by
    rw [h.perm.mem_iff, List.mem_range]
  have hnodup : order.Nodup := h.perm.nodup_iff.mpr List.nodup_range
  have hplaces : order.Pairwise fun i j => order.idxOf i < order.idxOf j := by
    refine List.pairwise_iff_getElem.mpr fun x y hx hy hxy => ?_
    rwa [hnodup.idxOf_getElem x hx, hnodup.idxOf_getElem y hy]
  refine ⟨h.perm, ?_, ?_, fun i a ha hpos => ?_, h.ties⟩
  · rw [select, List.pairwise_filterMap]
    exact hplaces.imp fun hlt a ha b hb => h.depth_le hd ha hb hlt
  · -- Both are the places of the nodes of depth 0, and in the order these stand as they were gathered.
    have hzero {i : Nat} (hi : (gathered[i]?).any (depth · = 0) = true) (j : Nat) :
        ¬ReadsAt w gathered i j := by
      rintro ⟨a, b, ha, -, hab⟩
      rw [ha, Option.any_some, decide_eq_true_eq, hd.eq_zero_iff hab.1] at hi
      exact hi b hab
    have hsame : order.filter (fun i => (gathered[i]?).any (depth · = 0)) =
        (List.range gathered.length).filter fun i => (gathered[i]?).any (depth · = 0) := by
      refine (h.perm.filter _).eq_of_pairwise
        (fun i j _ _ (hij : i < j) (hji : j < i) => absurd hij (Nat.lt_asymm hji)) ?_
        (List.pairwise_lt_range.filter _)
      refine (hplaces.filter _).imp_of_mem fun {i j} hi hj hlt => ?_
      obtain ⟨hj, hroot⟩ := List.mem_filter.mp hj
      exact (h.front i j (hmem.mp hj) hlt (hzero hroot)).2
    rw [filter_select, hsame, ← filter_select, select_range]
  · have hreader := mt (hd.eq_zero_iff (List.mem_of_getElem? ha)).mpr (Nat.ne_of_gt hpos)
    obtain ⟨b, hab⟩ := not_forall_not.mp hreader
    obtain ⟨j, hj, -⟩ := exists_readsAt ha hab
    exact exists_lastSource hj order

/-- Every wiring without a cycle is ordered level by level: there is a depth, 0 where a node reads
from nothing and otherwise one more than the greatest among what it reads from, and whatever has this
property, the nodes come by it. -/
theorem sort_by_depth (w : World) (gathered : List NodeId)
    (hacyclic : ∀ a, ¬OnCycle w gathered a) :
    ∃ order, sort w gathered = .ok (select gathered order) ∧
      IsDepth w gathered (depthAmong w gathered) ∧
      ∀ depth, IsDepth w gathered depth → ByDepth w gathered order depth := by
  have hsort := exists_sort_iff.mpr hacyclic
  have hall := exists_sort_iff_placed.mp hsort
  have harrival : ByArrival w gathered (placedOrder (readsAmong w gathered)) := by
    refine placedOrder_byArrival fun i hi => List.mem_reverse.mpr (hall i ?_)
    rwa [size_readsAmong]
  refine ⟨_, sort_eq_select hsort, ?_, fun depth => harrival.byDepth⟩
  let order := placedOrder (readsAmong w gathered)
  let place (a : NodeId) : Nat := order.idxOf ((position? gathered a).getD 0)
  refine depthAmong_isDepth place (fun a b hab => ?_) (fun a ha => ?_)
  · obtain ⟨i, hi⟩ := exists_position? hab.1
    obtain ⟨j, hj⟩ := exists_position? hab.2.1
    have hbefore := harrival.before i j ⟨a, b, position?_spec hi, hj, hab⟩
    simpa only [place, hi, hj, Option.getD_some] using hbefore
  · obtain ⟨i, hi⟩ := exists_position? ha
    have hlt := (List.getElem?_eq_some_iff.mp (position?_spec hi)).1
    have hmem : i ∈ order := harrival.perm.mem_iff.mpr (List.mem_range.mpr hlt)
    have hplace := List.idxOf_lt_length_of_mem hmem
    rw [harrival.perm.length_eq, List.length_range] at hplace
    simpa only [place, hi, Option.getD_some] using hplace

/-- Five nodes: the first reads from the second, which reads from the fourth in both of its slots; so
does the fifth in one slot, and in the other it reads from the third. -/
def tiered : World :=
  let node (name : String) (inputs : List Nat) : Option Node :=
    some { Node.new name { name := "sum" } .root .root [] with
      inputs := inputs.map fun i => some ⟨i⟩ }
  let members : Except Member (Table Member) := do
    let table ← Table.empty.insert "a" (.node ⟨0⟩)
    let table ← table.insert "b" (.node ⟨1⟩)
    let table ← table.insert "c" (.node ⟨2⟩)
    let table ← table.insert "d" (.node ⟨3⟩)
    table.insert "e" (.node ⟨4⟩)
  let root := Scope.new "root" (.plain "root") none none []
  { nodes := #[node "a" [1], node "b" [3, 3], node "c" [], node "d" [], node "e" [3, 2]]
    scopes := #[some { root with members := members.toOption.getD .empty }]
    journal := #[] }

theorem sort_by_depth_tiered :
    tiered.gather = [⟨4⟩, ⟨2⟩, ⟨3⟩, ⟨1⟩, ⟨0⟩] ∧
      sort tiered tiered.gather = .ok [⟨2⟩, ⟨3⟩, ⟨4⟩, ⟨1⟩, ⟨0⟩] ∧
      (∀ a, ¬OnCycle tiered tiered.gather a) ∧
      ∃ order, sort tiered tiered.gather = .ok (select tiered.gather order) ∧
        IsDepth tiered tiered.gather (depthAmong tiered tiered.gather) ∧
        ∀ depth, IsDepth tiered tiered.gather depth →
          ByDepth tiered tiered.gather order depth := by
  have hsort : sort tiered tiered.gather = .ok [⟨2⟩, ⟨3⟩, ⟨4⟩, ⟨1⟩, ⟨0⟩] := by
    cases h : sort tiered tiered.gather with
    | error e =>
      have hfine : (sort tiered tiered.gather).isOk = true := by decide +kernel
      rw [h] at hfine
      cases hfine
    | ok order =>
      have hnumbers : (sort tiered tiered.gather).toOption =
          some [⟨2⟩, ⟨3⟩, ⟨4⟩, ⟨1⟩, ⟨0⟩] := by decide +kernel
      rw [h] at hnumbers
      rw [Option.some.inj hnumbers]
  have hacyclic : ∀ a, ¬OnCycle tiered tiered.gather a := exists_sort_iff.mp ⟨_, hsort⟩
  exact ⟨by decide +kernel, hsort, hacyclic, sort_by_depth tiered tiered.gather hacyclic⟩

end Schedule

end FrameGraph
