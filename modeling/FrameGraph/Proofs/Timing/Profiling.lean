import FrameGraph.Proofs.Schedule.Dataflow
import FrameGraph.Proofs.Session.Additivity

/-!
# Profiling

What is measured does not touch what is run: a frame that is timed leaves the world of a frame that
is not. A profile keeps the samples of each node apart, in the order in which they came, however they
were mixed with those of other nodes, and lists the nodes as they were first measured. Its index and
its entries agree after every sample, so no sample goes to another node or outside of the entries.
-/
namespace FrameGraph

/-- The statistics of durations that were measured one after the other. -/
def Stats.ofNanos (durations : List UInt64) : Stats Float := durations.foldl Stats.pushNanos .empty

theorem Stats.ofNanos_concat (durations : List UInt64) (nanos : UInt64) :
    Stats.ofNanos (durations ++ [nanos]) = (Stats.ofNanos durations).pushNanos nanos :=
  List.foldl_concat ..

theorem Stats.count_ofNanos (durations : List UInt64) :
    (Stats.ofNanos durations).count = durations.length := by
  induction durations using List.reverseRecOn with
  | nil => rfl
  | append_singleton durations nanos ih =>
    rw [Stats.ofNanos_concat, List.length_append, List.length_singleton, ← ih]
    rfl

namespace Profile

/-! ## Samples -/

/-- One measured duration, of a node or of a whole frame. -/
inductive Sample where
  | node (id : NodeId) (nanos : UInt64)
  | frame (nanos : UInt64)

namespace Sample

/-- The node that was measured. -/
def node? : Sample → Option NodeId
  | node id _ => some id
  | frame _ => none

/-- The duration, if this node was measured. -/
def nanosOf? (id : NodeId) : Sample → Option UInt64
  | node other nanos => if other = id then some nanos else none
  | frame _ => none

/-- The duration, if a whole frame was measured. -/
def frameNanos? : Sample → Option UInt64
  | node .. => none
  | frame nanos => some nanos

end Sample

variable {samples : List Sample} {id : NodeId}

/-- One more sample. -/
def take (p : Profile) : Sample → Profile
  | .node id nanos => p.record id nanos
  | .frame nanos => p.recordFrame nanos

/-- The profile of samples that were taken one after the other. -/
def ofSamples (samples : List Sample) : Profile := samples.foldl take empty

/-- The nodes that were measured, each as often as it was. -/
def measured (samples : List Sample) : List NodeId := samples.filterMap Sample.node?

/-- The durations of one node, in order. -/
def durations (id : NodeId) (samples : List Sample) : List UInt64 :=
  samples.filterMap (Sample.nanosOf? id)

/-- The durations of whole frames, in order. -/
def frameDurations (samples : List Sample) : List UInt64 := samples.filterMap Sample.frameNanos?

/-- Puts a node behind the others, unless it is among them. -/
def meet (known : List NodeId) (id : NodeId) : List NodeId :=
  if id ∈ known then known else known ++ [id]

/-- The nodes in the order of their first occurrence. -/
def firsts (ids : List NodeId) : List NodeId := ids.foldl meet []

theorem prefix_meet (known : List NodeId) (id : NodeId) : known <+: meet known id := by
  rw [meet]
  split
  · exact List.prefix_rfl
  · exact List.prefix_append _ _

theorem mem_meet {known : List NodeId} {x : NodeId} : x ∈ meet known id ↔ x ∈ known ∨ x = id := by
  rw [meet]
  split
  · rename_i hid
    exact ⟨.inl, fun h => h.elim (·) fun hx => hx ▸ hid⟩
  · rw [List.mem_append, List.mem_singleton]

theorem firsts_concat (ids : List NodeId) (id : NodeId) :
    firsts (ids ++ [id]) = meet (firsts ids) id :=
  List.foldl_concat ..

theorem mem_firsts {ids : List NodeId} : id ∈ firsts ids ↔ id ∈ ids := by
  induction ids using List.reverseRecOn with
  | nil => rfl
  | append_singleton ids x ih =>
    rw [firsts_concat, mem_meet, ih, List.mem_append, List.mem_singleton]

theorem firsts_nodup (ids : List NodeId) : (firsts ids).Nodup := by
  induction ids using List.reverseRecOn with
  | nil => exact List.nodup_nil
  | append_singleton ids x ih =>
    rw [firsts_concat, meet]
    split
    · exact ih
    · rename_i hx
      rw [← List.concat_eq_append]
      exact ih.concat hx

/-- What comes later is listed behind. -/
theorem firsts_prefix {front ids : List NodeId} (h : front <+: ids) :
    firsts front <+: firsts ids := by
  obtain ⟨more, rfl⟩ := h
  induction more using List.reverseRecOn with
  | nil => rw [List.append_nil]
  | append_singleton more x ih =>
    rw [← List.append_assoc, firsts_concat]
    exact ih.trans (prefix_meet _ _)

/-! ## The index -/

/-- Entries and index agree: whichever slot the index gives for a node is there and is its own, and
every entry is found. -/
structure Indexed (p : Profile) : Prop where
  entry : ∀ id slot, p.index.lookup id = some slot → ∃ stats, p.nodes[slot]? = some (id, stats)
  slot : ∀ id slot stats, p.nodes[slot]? = some (id, stats) → p.index.lookup id = some slot

theorem empty_indexed : empty.Indexed := ⟨nofun, nofun⟩

namespace Indexed

variable {p : Profile}

theorem push (h : p.Indexed) (hid : p.index.lookup id = none) (stats : Stats Float) :
    Indexed { p with nodes := p.nodes.push (id, stats), index := (id, p.nodes.size) :: p.index } where
  entry x slot hx := by
    rw [List.lookup_cons] at hx
    split at hx
    · rename_i heq
      obtain rfl := eq_of_beq heq
      obtain rfl := Option.some.inj hx
      exact ⟨stats, Array.getElem?_push_size⟩
    · obtain ⟨own, hown⟩ := h.entry x slot hx
      obtain ⟨hslot, -⟩ := Array.getElem?_eq_some_iff.mp hown
      exact ⟨own, by rwa [Array.getElem?_push_lt hslot, ← Array.getElem?_eq_getElem hslot]⟩
  slot x slot own hown := by
    rw [Array.getElem?_push] at hown
    rw [List.lookup_cons]
    split at hown
    · rename_i hslot
      obtain ⟨rfl, -⟩ := Prod.mk.inj (Option.some.inj hown)
      simp [hslot]
    · have hx := h.slot x slot own hown
      have hne : x ≠ id := by
        rintro rfl
        rw [hid] at hx
        cases hx
      rw [beq_false_of_ne hne]
      exact hx

/-- Statistics may change, as long as they stay under their node. -/
theorem modify (h : p.Indexed) (i : Nat) (change : Stats Float → Stats Float) :
    Indexed { p with nodes := p.nodes.modify i fun (id, stats) => (id, change stats) } where
  entry x slot hx := by
    obtain ⟨own, hown⟩ := h.entry x slot hx
    rw [Array.getElem?_modify, hown]
    split
    · exact ⟨change own, rfl⟩
    · exact ⟨own, rfl⟩
  slot x slot own hown := by
    rw [Array.getElem?_modify] at hown
    split at hown
    · obtain ⟨⟨y, old⟩, hold, heq⟩ := Option.map_eq_some_iff.mp hown
      obtain ⟨rfl, -⟩ := Prod.mk.inj heq
      exact h.slot y slot old hold
    · exact h.slot x slot own hown

/-- Whether it is new or not, the place of a node holds its statistics. -/
theorem place (h : p.Indexed) (id : NodeId) : (p.place id).1.Indexed ∧
    ∃ stats, (p.place id).1.nodes[(p.place id).2]? = some (id, stats) := by
  rw [Profile.place]
  cases hid : p.index.lookup id with
  | some slot => exact ⟨h, h.entry id slot hid⟩
  | none => exact ⟨h.push hid .empty, .empty, Array.getElem?_push_size⟩

theorem record (h : p.Indexed) (id : NodeId) (nanos : UInt64) : (p.record id nanos).Indexed :=
  (h.place id).1.modify _ (Stats.pushNanos · nanos)

end Indexed

theorem ofSamples_concat (samples : List Sample) (sample : Sample) :
    ofSamples (samples ++ [sample]) = (ofSamples samples).take sample :=
  List.foldl_concat ..

/-- However the samples are mixed, the index keeps up with the entries. -/
theorem ofSamples_indexed (samples : List Sample) : (ofSamples samples).Indexed := by
  induction samples using List.reverseRecOn with
  | nil => exact empty_indexed
  | append_singleton samples sample ih =>
    rw [ofSamples_concat]
    cases sample with
    | node id nanos => exact ih.record id nanos
    | frame nanos => exact ⟨ih.entry, ih.slot⟩

/-! ## Keeping samples apart -/

section

variable {p : Profile} {ids : List NodeId} {stats stats' : NodeId → Stats Float}

theorem getElem?_nodes (hnodes : p.nodes.toList = ids.map fun x => (x, stats x)) (i : Nat) :
    p.nodes[i]? = ids[i]?.map fun x => (x, stats x) := by
  rw [← Array.getElem?_toList, hnodes, List.getElem?_map]

theorem lookup_of_mem (h : p.Indexed) (hnodes : p.nodes.toList = ids.map fun x => (x, stats x))
    (hid : id ∈ ids) : ∃ slot, p.index.lookup id = some slot ∧
      p.nodes[slot]? = some (id, stats id) := by
  obtain ⟨slot, hslot⟩ := List.mem_iff_getElem?.mp hid
  have hentry : p.nodes[slot]? = some (id, stats id) := by
    rw [getElem?_nodes hnodes, hslot]
    rfl
  exact ⟨slot, h.slot id slot _ hentry, hentry⟩

theorem lookup_of_notMem (h : p.Indexed) (hnodes : p.nodes.toList = ids.map fun x => (x, stats x))
    (hid : id ∉ ids) : p.index.lookup id = none := by
  refine Option.eq_none_iff_forall_ne_some.mpr fun slot hslot => hid ?_
  obtain ⟨own, hentry⟩ := h.entry id slot hslot
  rw [getElem?_nodes hnodes] at hentry
  obtain ⟨x, hx, heq⟩ := Option.map_eq_some_iff.mp hentry
  obtain rfl := congrArg Prod.fst heq
  exact List.mem_of_getElem? hx

theorem record_of_mem (h : p.Indexed) (hnodes : p.nodes.toList = ids.map fun x => (x, stats x))
    (hid : id ∈ ids) {nanos : UInt64} (hown : stats' id = (stats id).pushNanos nanos)
    (hothers : ∀ x, x ≠ id → stats' x = stats x) :
    (p.record id nanos).nodes.toList = ids.map fun x => (x, stats' x) := by
  obtain ⟨slot, hslot, hentry⟩ := lookup_of_mem h hnodes hid
  have hrecord : (p.record id nanos).nodes =
      p.nodes.modify slot fun (id, stats) => (id, stats.pushNanos nanos) := by
    rw [record, place, hslot]
  refine List.ext_getElem? fun i => ?_
  rw [hrecord, Array.getElem?_toList, Array.getElem?_modify, getElem?_nodes hnodes,
    List.getElem?_map]
  cases hx : ids[i]? with
  | none => split <;> rfl
  | some x =>
    have hat : p.nodes[i]? = some (x, stats x) := by
      rw [getElem?_nodes hnodes, hx]
      rfl
    -- The index gives every node one slot, so the node's own is the only place that changes.
    by_cases heq : x = id
    · subst heq
      have hi : slot = i := Option.some.inj (hslot.symm.trans (h.slot x i _ hat))
      rw [if_pos hi, Option.map_some, Option.map_some, Option.map_some, hown]
    · have hi : slot ≠ i := by
        rintro rfl
        rw [hentry] at hat
        exact heq (congrArg Prod.fst (Option.some.inj hat)).symm
      rw [if_neg hi, Option.map_some, Option.map_some, hothers x heq]

/-- A node that is not in the list gets an entry of its own behind it. -/
theorem record_of_notMem (h : p.Indexed) (hnodes : p.nodes.toList = ids.map fun x => (x, stats x))
    (hid : id ∉ ids) (nanos : UInt64) : (p.record id nanos).nodes.toList =
      ids.map (fun x => (x, stats x)) ++ [(id, Stats.empty.pushNanos nanos)] := by
  rw [record, place, lookup_of_notMem h hnodes hid, ← hnodes, Array.toList_modify, Array.toList_push,
    ← Array.length_toList, List.modify_eq_set_getElem?]
  simp

end

theorem durations_append (id : NodeId) (samples more : List Sample) :
    durations id (samples ++ more) = durations id samples ++ durations id more :=
  List.filterMap_append

theorem frameDurations_append (samples more : List Sample) :
    frameDurations (samples ++ more) = frameDurations samples ++ frameDurations more :=
  List.filterMap_append

theorem durations_concat_node (samples : List Sample) (id : NodeId) (nanos : UInt64) (x : NodeId) :
    durations x (samples ++ [.node id nanos]) =
      if id = x then durations x samples ++ [nanos] else durations x samples := by
  rw [durations_append]
  by_cases hx : id = x <;> simp [durations, Sample.nanosOf?, hx]

theorem durations_of_notMem (h : id ∉ measured samples) : durations id samples = [] := by
  refine List.filterMap_eq_nil_iff.mpr fun sample hsample => ?_
  cases sample with
  | node x nanos =>
    refine if_neg fun hx => h ?_
    exact List.mem_filterMap.mpr ⟨_, hsample, congrArg some hx⟩
  | frame nanos => rfl

/-- Whatever the order of the samples, each node has the statistics of its own. -/
theorem nodes_ofSamples (samples : List Sample) : (ofSamples samples).nodes.toList =
    (firsts (measured samples)).map fun id => (id, Stats.ofNanos (durations id samples)) := by
  induction samples using List.reverseRecOn with
  | nil => rfl
  | append_singleton samples sample ih =>
    rw [ofSamples_concat]
    cases sample with
    | frame nanos =>
      have hmeasured : measured (samples ++ [.frame nanos]) = measured samples := by
        simp [measured, Sample.node?]
      have hdurations (x : NodeId) :
          durations x (samples ++ [.frame nanos]) = durations x samples := by
        simp [durations, Sample.nanosOf?]
      simp only [hmeasured, hdurations]
      exact ih
    | node id nanos =>
      have hmeasured : measured (samples ++ [.node id nanos]) = measured samples ++ [id] := by
        simp [measured, Sample.node?]
      have hindexed := ofSamples_indexed samples
      show ((ofSamples samples).record id nanos).nodes.toList = _
      rw [hmeasured, firsts_concat, meet]
      by_cases hid : id ∈ firsts (measured samples)
      · rw [if_pos hid]
        refine record_of_mem hindexed ih hid ?_ fun x hx => ?_
        · rw [durations_concat_node, if_pos rfl, Stats.ofNanos_concat]
        · rw [durations_concat_node, if_neg (Ne.symm hx)]
      · rw [if_neg hid, record_of_notMem hindexed ih hid, List.map_append, List.map_singleton,
          durations_concat_node, if_pos rfl, durations_of_notMem (mt mem_firsts.mpr hid)]
        refine congrArg (· ++ _) (List.map_congr_left fun x hx => ?_)
        rw [durations_concat_node, if_neg fun heq : id = x => hid (heq ▸ hx)]

theorem frame_ofSamples (samples : List Sample) :
    (ofSamples samples).frame = Stats.ofNanos (frameDurations samples) := by
  induction samples using List.reverseRecOn with
  | nil => rfl
  | append_singleton samples sample ih =>
    rw [ofSamples_concat, frameDurations_append]
    cases sample with
    | node id nanos =>
      rw [take, record_frame, ih]
      exact congrArg _ (List.append_nil _).symm
    | frame nanos =>
      show (ofSamples samples).frame.pushNanos nanos = _
      rw [ih]
      exact (Stats.ofNanos_concat _ _).symm

/-- What a profile says of the samples that it was given. -/
structure Accounts (samples : List Sample) (p : Profile) : Prop where
  /-- The statistics are found where the index says, and nothing is listed that it does not know. -/
  indexed : p.Indexed
  /-- The next sample of any node goes to a slot that is there and is its own. -/
  room : ∀ id, ∃ own, (p.place id).1.nodes[(p.place id).2]? = some (id, own)
  /-- A node has the statistics of its own samples, if there are any. -/
  stats : ∀ id, p.stats? id =
    if id ∈ measured samples then some (Stats.ofNanos (durations id samples)) else none
  frames : p.frames = (frameDurations samples).length
  /-- The report has one line for each node that was measured. -/
  report : ∀ path, p.report path =
    { frames := (frameDurations samples).length
      frame := (Stats.ofNanos (frameDurations samples)).summary "frame"
      nodes := (firsts (measured samples)).map fun id =>
        (Stats.ofNanos (durations id samples)).summary (path id) }
  distinct : (firsts (measured samples)).Nodup
  listed : ∀ id, id ∈ firsts (measured samples) ↔ id ∈ measured samples
  /-- The nodes that were measured up to any moment are listed before those that came later. -/
  inOrder : ∀ front, front <+: samples → firsts (measured front) <+: firsts (measured samples)

theorem ofSamples_accounts (samples : List Sample) : Accounts samples (ofSamples samples) where
  indexed := ofSamples_indexed samples
  room id := ((ofSamples_indexed samples).place id).2
  stats id := by
    have hindexed := ofSamples_indexed samples
    have hnodes := nodes_ofSamples samples
    rw [stats?]
    split
    · rename_i hid
      obtain ⟨slot, hslot, hentry⟩ := lookup_of_mem hindexed hnodes (mem_firsts.mpr hid)
      rw [hslot, Option.bind_some, hentry]
      rfl
    · rename_i hid
      rw [lookup_of_notMem hindexed hnodes (mt mem_firsts.mp hid)]
      rfl
  frames := by rw [frames, frame_ofSamples, Stats.count_ofNanos]
  report path := by
    rw [report, frames, frame_ofSamples, Stats.count_ofNanos, nodes_ofSamples, List.map_map]
    rfl
  distinct := firsts_nodup _
  listed _ := mem_firsts
  inOrder _ h := firsts_prefix (h.filterMap _)

/-- How many samples of a node there are. -/
def sampleCount (p : Profile) (id : NodeId) : Nat := (p.stats? id).elim 0 Stats.count

theorem sampleCount_ofSamples (samples : List Sample) (id : NodeId) :
    (ofSamples samples).sampleCount id = (durations id samples).length := by
  rw [sampleCount, (ofSamples_accounts samples).stats]
  by_cases hid : id ∈ measured samples
  · rw [if_pos hid, Option.elim_some, Stats.count_ofNanos]
  · rw [if_neg hid, durations_of_notMem hid]
    rfl

end Profile

namespace Schedule

open Profile

variable {g : Schedule}

/-! ## Timed frames -/

/-- The samples of one frame. -/
def samples (g : Schedule) (t : FrameTiming) : List Sample :=
  g.order.zipIdx.map (fun (id, i) => .node id (t.node i)) ++ [.frame t.frame]

theorem updateTimed_eq (g : Schedule) (w : World) (p : Profile) (t : FrameTiming) :
    g.updateTimed w p t = (g.update w, (g.samples t).foldl take p) := by
  have hnodes (entries : List (NodeId × Nat)) (start : World × Profile) :
      entries.foldl (fun (so : World × Profile) entry =>
        (updateNode so.1 entry.1, so.2.record entry.1 (t.node entry.2))) start =
        ((entries.map Prod.fst).foldl updateNode start.1,
          (entries.map fun entry => Sample.node entry.1 (t.node entry.2)).foldl take start.2) := by
    induction entries generalizing start with
    | nil => rfl
    | cons entry entries ih => exact ih _
  have horder := hnodes g.order.zipIdx (w, p)
  rw [List.zipIdx_map_fst] at horder
  rw [samples, List.foldl_concat, update, updateTimed]
  exact congrArg (fun so : World × Profile => (so.1, so.2.recordFrame t.frame)) horder

/-- Frames that are timed, one after the other. -/
def profile (g : Schedule) (timings : List FrameTiming) (w : World) (p : Profile) :
    World × Profile :=
  timings.foldl (fun so t => g.updateTimed so.1 so.2 t) (w, p)

theorem profile_eq (g : Schedule) (timings : List FrameTiming) (w : World) (p : Profile) :
    g.profile timings w p =
      (g.frames timings.length w, (timings.flatMap g.samples).foldl take p) := by
  induction timings generalizing w p with
  | nil => rfl
  | cons t timings ih =>
    rw [profile, List.foldl_cons, updateTimed_eq, ← profile, ih, List.length_cons, frames_succ,
      List.flatMap_cons, List.foldl_append]

/-- In a frame a node is measured once for each of its places in the order. -/
theorem length_durations_samples (g : Schedule) (t : FrameTiming) (id : NodeId) :
    (durations id (g.samples t)).length = g.order.count id := by
  have hplaces : g.order.count id = (g.order.zipIdx.map Prod.fst).countP (· == id) := by
    rw [List.zipIdx_map_fst]
    rfl
  rw [hplaces, List.countP_map, samples, durations_append, List.length_append, durations,
    List.filterMap_map, List.length_filterMap_eq_countP]
  refine congrArg (· + 0) (List.countP_congr fun entry _ => ?_)
  by_cases hid : entry.1 = id <;> simp [Sample.nanosOf?, hid]

theorem length_durations_frames (g : Schedule) (timings : List FrameTiming) (id : NodeId) :
    (durations id (timings.flatMap g.samples)).length = timings.length * g.order.count id := by
  induction timings with
  | nil => exact (Nat.zero_mul _).symm
  | cons t timings ih =>
    rw [List.flatMap_cons, durations_append, List.length_append, ih, length_durations_samples,
      List.length_cons, Nat.succ_mul, Nat.add_comm]

theorem length_frameDurations (g : Schedule) (timings : List FrameTiming) :
    (frameDurations (timings.flatMap g.samples)).length = timings.length := by
  have hframe (t : FrameTiming) : frameDurations (g.samples t) = [t.frame] := by
    have hnodes : frameDurations (g.order.zipIdx.map fun (id, i) => .node id (t.node i)) = [] := by
      refine List.filterMap_eq_nil_iff.mpr fun sample hsample => ?_
      obtain ⟨entry, -, rfl⟩ := List.mem_map.mp hsample
      rfl
    rw [samples, frameDurations_append, hnodes]
    rfl
  induction timings with
  | nil => rfl
  | cons t timings ih =>
    rw [List.flatMap_cons, frameDurations_append, hframe, List.length_append, ih, Nat.add_comm]
    rfl

/-- Timing frames changes nothing about them, and a profile keeps the samples of every node apart. So
after any number of frames a node has been measured that often for each of its places in the order,
which is one place if the schedule was built from distinct nodes. -/
theorem profiled_accounts (g : Schedule) (w : World) :
    (∀ p t, (g.updateTimed w p t).1 = g.update w) ∧
    (∀ samples, Accounts samples (ofSamples samples)) ∧
    (∀ timings : List FrameTiming,
      (g.profile timings w .empty).1 = g.frames timings.length w ∧
      (g.profile timings w .empty).2.frames = timings.length ∧
      ∀ id, (g.profile timings w .empty).2.sampleCount id = timings.length * g.order.count id) ∧
    ∀ w₀ : World, w₀.gather.Nodup → (build w₀).2 = .ok g → ∀ timings, ∀ id ∈ g.order,
      (g.profile timings w .empty).2.sampleCount id = timings.length := by
  have hcount (timings : List FrameTiming) (id : NodeId) :
      (g.profile timings w .empty).2.sampleCount id = timings.length * g.order.count id := by
    rw [profile_eq]
    exact (sampleCount_ofSamples _ id).trans (g.length_durations_frames timings id)
  refine ⟨fun p t => by rw [updateTimed_eq], ofSamples_accounts,
    fun timings => ⟨?_, ?_, hcount timings⟩,
    fun w₀ hgather hbuild timings id hid => ?_⟩
  · rw [profile_eq]
  · rw [profile_eq]
    exact (ofSamples_accounts _).frames.trans (g.length_frameDurations timings)
  · have hnodup := (perm_of_sort hgather (sort_of_build hbuild)).nodup_iff.mpr hgather
    rw [hcount, List.count_eq_one_of_mem hnodup hid, Nat.mul_one]

/-- Two frames of two nodes. -/
theorem profiled_accounts_joined :
    let t : FrameTiming := ⟨fun i => 10 + i.toUInt64, 30⟩
    joined.gather.Nodup ∧ (build joined).2 = .ok ⟨[⟨1⟩, ⟨0⟩]⟩ ∧
      ∀ id ∈ ([⟨1⟩, ⟨0⟩] : List NodeId),
        (profile ⟨[⟨1⟩, ⟨0⟩]⟩ [t, t] (build joined).1 .empty).2.sampleCount id = 2 := by
  intro t
  have hgather : joined.gather.Nodup := by decide +kernel
  have hbuild : (build joined).2 = .ok ⟨[⟨1⟩, ⟨0⟩]⟩ := by decide +kernel
  obtain ⟨-, -, -, hcount⟩ := profiled_accounts ⟨[⟨1⟩, ⟨0⟩]⟩ (build joined).1
  exact ⟨hgather, hbuild, hcount joined hgather hbuild [t, t]⟩

/-- A node that was gathered twice is measured twice in each frame. -/
theorem profiled_twice :
    (build twice).2 = .ok ⟨[⟨0⟩, ⟨0⟩]⟩ ∧
      (profile ⟨[⟨0⟩, ⟨0⟩]⟩ [⟨fun _ => 1, 2⟩] (build twice).1 .empty).2.sampleCount ⟨0⟩ = 2 := by
  decide +kernel

end Schedule

end FrameGraph
