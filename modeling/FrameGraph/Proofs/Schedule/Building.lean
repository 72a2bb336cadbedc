import FrameGraph.Proofs.Schedule.Cycles
import FrameGraph.Proofs.Schedule.Faults
import Mathlib.Algebra.GroupWithZero.Nat

/-!
# Building

The outcome of building, whatever the setups do. The three phases come in a fixed order, and the
first two run no behaviour. In the third, either every node is set up, or those that were up to the
first fault are taken down again, and no node is left set up. Nothing here needs the gathered nodes
to be distinct.
-/
namespace FrameGraph.Schedule

open World
open Dependency (Reads sources finish)
open Relation (ReflTransGen TransGen)

variable {w : World} {gathered : List NodeId}

/-! ## Ordering -/

theorem position?_spec {id : NodeId} {i : Nat} (h : position? gathered id = some i) :
    gathered[i]? = some id := by
  obtain ⟨⟨a, j⟩, hfind, rfl⟩ := Option.map_eq_some_iff.mp h
  have hmem := List.mem_reverse.mp (List.mem_of_find?_eq_some hfind)
  have hid : a = id := by simpa using List.find?_some hfind
  rw [← hid]
  exact List.mk_mem_zipIdx_iff_getElem?.mp hmem

theorem exists_position? {id : NodeId} (h : id ∈ gathered) : ∃ i, position? gathered id = some i := by
  obtain ⟨i, hi⟩ := List.mem_iff_getElem?.mp h
  have hmem : (id, i) ∈ gathered.zipIdx.reverse :=
    List.mem_reverse.mpr (List.mk_mem_zipIdx_iff_getElem?.mpr hi)
  cases hfind : gathered.zipIdx.reverse.find? (·.1 = id) with
  | none => simpa using List.find?_eq_none.mp hfind _ hmem
  | some found => exact ⟨found.2, by rw [position?, hfind]; rfl⟩

theorem mem_sources_iff (i j : Nat) : j ∈ sources (readsAmong w gathered) i ↔
    ∃ a b n, gathered[i]? = some a ∧ w.node? a = some n ∧ some b ∈ n.inputs ∧
      position? gathered b = some j := by
  cases ha : gathered[i]? with
  | none => simp [sources, readsAmong, ha]
  | some a =>
    cases hn : w.node? a with
    | none => simp [sources, readsAmong, ha, hn]
    | some n => simp [sources, readsAmong, ha, hn]

/-- Ordering succeeds exactly if every number is placed. -/
theorem exists_sort_iff_placed : (∃ order, sort w gathered = .ok order) ↔
    ∀ i < (readsAmong w gathered).size, i ∈ (finish (readsAmong w gathered)).placed := by
  rw [sort, Dependency.sort_eq]
  by_cases hleft : ∃ i < (readsAmong w gathered).size, i ∉ (finish (readsAmong w gathered)).placed
  · rw [if_pos hleft]
    obtain ⟨i, hi, hnot⟩ := hleft
    simp only [reduceCtorEq, exists_false, false_iff]
    exact fun hall => hnot (hall i hi)
  · rw [if_neg hleft]
    simp only [Except.ok.injEq, exists_eq', true_iff]
    intro i hi
    by_contra hnot
    exact hleft ⟨i, hi, hnot⟩

/-- An order has the numbers as they were placed. -/
theorem sort_eq_select (h : ∃ order, sort w gathered = .ok order) :
    sort w gathered = .ok (select gathered (finish (readsAmong w gathered)).placed.reverse) := by
  have hall := exists_sort_iff_placed.mp h
  have hnone : ¬∃ i < (readsAmong w gathered).size, i ∉ (finish (readsAmong w gathered)).placed := by
    rintro ⟨i, hi, hnot⟩
    exact hnot (hall i hi)
  rw [sort, Dependency.sort_eq, if_neg hnone]

/-- Every gathered node is in the order. -/
theorem mem_of_sort {order : List NodeId} {a : NodeId} (h : sort w gathered = .ok order)
    (ha : a ∈ gathered) : a ∈ order := by
  obtain ⟨i, hi⟩ := List.mem_iff_getElem?.mp ha
  have hlt : i < (readsAmong w gathered).size := by
    rw [size_readsAmong]
    exact (List.getElem?_eq_some_iff.mp hi).1
  have hplaced := exists_sort_iff_placed.mp ⟨order, h⟩ i hlt
  rw [sort_eq_select ⟨order, h⟩] at h
  cases h
  exact List.mem_filterMap.mpr ⟨i, List.mem_reverse.mpr hplaced, hi⟩

/-- Ordering succeeds exactly if no gathered node reads from itself through others. A node that was
gathered more than once counts where it was gathered last. -/
theorem exists_sort_iff : (∃ order, sort w gathered = .ok order) ↔ ∀ a, ¬OnCycle w gathered a := by
  let reads := readsAmong w gathered
  have hsize : reads.size = gathered.length := size_readsAmong w gathered
  rw [exists_sort_iff_placed]
  constructor
  · intro hall a hcycle
    -- A cycle of nodes is one of their last numbers, and no placed number is on a cycle.
    let last (x : NodeId) : Nat := (position? gathered x).getD 0
    have hlast {x : NodeId} (hx : x ∈ gathered) : position? gathered x = some (last x) := by
      obtain ⟨i, hi⟩ := exists_position? hx
      simp only [last, hi, Option.getD_some]
    have hnumbers : TransGen (fun i j => j ∈ sources reads i) (last a) (last a) := by
      refine TransGen.lift last (fun x y hxy => ?_) _ _ hcycle
      obtain ⟨hx, hy, n, hn, hsource⟩ := hxy
      exact (mem_sources_iff _ _).mpr ⟨x, y, n, position?_spec (hlast hx), hn, hsource, hlast hy⟩
    obtain ⟨b, ⟨ha, -⟩, -⟩ := TransGen.head'_iff.mp hcycle
    have hlt : last a < reads.size := by
      rw [hsize]
      exact (List.getElem?_eq_some_iff.mp (position?_spec (hlast ha))).1
    have hacc := acc_of_ordered (Dependency.finish_valid reads).ordered _ (hall _ hlt)
    exact not_transGen_of_acc hacc _ .refl hnumbers
  · intro hacyclic i hi
    by_contra hleft
    -- From a number that is left a cycle of numbers is reached, which is one of nodes.
    have hlt {i j : Nat} (hj : j ∈ sources reads i) : j < reads.size := by
      obtain ⟨a, b, n, -, -, -, hb⟩ := (mem_sources_iff i j).mp hj
      rw [hsize]
      exact (List.getElem?_eq_some_iff.mp (position?_spec hb)).1
    obtain ⟨c, -, hcycle⟩ := exists_cycle (r := fun i j => j ∈ sources reads i)
      (List.range reads.size) (fun i => i < reads.size ∧ i ∉ (finish reads).placed)
      (fun i hi => List.mem_range.mpr hi.1)
      (fun i ⟨hi, hnot⟩ => by
        rw [Dependency.mem_placed_iff hi] at hnot
        simp only [not_forall] at hnot
        obtain ⟨j, hj, hnot⟩ := hnot
        exact ⟨j, hj, hlt hj, hnot⟩) i ⟨hi, hleft⟩
    let node (i : Nat) : NodeId := gathered[i]?.getD ⟨0⟩
    refine hacyclic (node c) (TransGen.lift node (fun i j hij => ?_) _ _ hcycle)
    obtain ⟨a, b, n, ha, hn, hsource, hb⟩ := (mem_sources_iff i j).mp hij
    have hb := position?_spec hb
    have hnode : node i = a ∧ node j = b := by simp only [node, ha, hb, Option.getD_some, and_self]
    show ReadsFrom w gathered (node i) (node j)
    rw [hnode.1, hnode.2]
    exact ⟨List.mem_of_getElem? ha, List.mem_of_getElem? hb, n, hn, hsource⟩

/-! ## Open inputs -/

/-- A mandatory input of the node that is not connected. -/
def IsOpen (w : World) (id : NodeId) (i : Nat) : Prop :=
  ∃ n spec, w.node? id = some n ∧ n.wiring[i]? = some (spec, none) ∧ spec.mandatory = true

/-- How many mandatory inputs of the node are not connected. -/
def openCount (w : World) (id : NodeId) : Nat :=
  match w.node? id with
  | none => 0
  | some n => n.wiring.countP fun slot => slot.1.mandatory && slot.2.isNone

/-- The path and the name are those of the first open input, of the first node in the order that has
one. -/
def NamesFirstOpen (w : World) (order : List NodeId) (path slot : String) : Prop :=
  ∃ before id after n i spec, order = before ++ id :: after ∧
    (∀ a ∈ before, ∀ j, ¬IsOpen w a j) ∧ w.node? id = some n ∧
    n.wiring[i]? = some (spec, none) ∧ spec.mandatory = true ∧ (∀ j < i, ¬IsOpen w id j) ∧
    path = w.nodePath id ∧ slot = spec.name

variable {id : NodeId} {n : Node}

theorem openInputs_eq_nil_iff (hn : w.node? id = some n) :
    openInputs n = [] ↔ ∀ i, ¬IsOpen w id i := by
  rw [openInputs, List.filterMap_eq_nil_iff]
  constructor
  · rintro h i ⟨n', spec, hn', hslot, hmandatory⟩
    rw [hn] at hn'
    cases hn'
    simpa [hmandatory] using h _ (List.mem_of_getElem? hslot)
  · rintro h ⟨spec, source⟩ hslot
    obtain ⟨i, hi⟩ := List.mem_iff_getElem?.mp hslot
    cases source with
    | some source => simp
    | none =>
      have hopen := h i
      simp only [IsOpen, hn, Option.some.injEq] at hopen
      simpa using fun hmandatory => hopen ⟨n, spec, rfl, hi, hmandatory⟩

theorem openInputs_eq_cons (hn : w.node? id = some n) {slot : String} {rest : List String}
    (h : openInputs n = slot :: rest) : ∃ i spec, n.wiring[i]? = some (spec, none) ∧
      spec.mandatory = true ∧ (∀ j < i, ¬IsOpen w id j) ∧ slot = spec.name := by
  obtain ⟨before, ⟨spec, source⟩, after, hwiring, hbefore, hslot, -⟩ :=
    List.filterMap_eq_cons_iff.mp h
  dsimp only at hslot
  split at hslot
  · rename_i hopen
    rw [Bool.and_eq_true, Option.isNone_iff_eq_none] at hopen
    obtain ⟨hmandatory, rfl⟩ := hopen
    cases hslot
    refine ⟨before.length, spec, by simp [hwiring], hmandatory, ?_, rfl⟩
    rintro j hj ⟨n', spec', hn', hslot', hmandatory'⟩
    rw [hn] at hn'
    cases hn'
    rw [hwiring, List.getElem?_append_left hj] at hslot'
    simpa [hmandatory'] using hbefore _ (List.mem_of_getElem? hslot')
  · cases hslot

theorem unconnected_cons (id : NodeId) (order : List NodeId) : unconnected w (id :: order) =
    (match w.node? id with
      | none => []
      | some n => (openInputs n).map fun slot => (w.nodePath id, slot)) ++ unconnected w order :=
  rfl

theorem unconnected_eq_nil_iff (order : List NodeId) :
    unconnected w order = [] ↔ ∀ id ∈ order, ∀ i, ¬IsOpen w id i := by
  induction order with
  | nil => simp [unconnected]
  | cons id order ih =>
    rw [unconnected_cons, List.append_eq_nil_iff, ih, List.forall_mem_cons]
    refine and_congr_left fun _ => ?_
    cases hn : w.node? id with
    | none => simp [IsOpen, hn]
    | some n => rw [List.map_eq_nil_iff, openInputs_eq_nil_iff hn]

theorem unconnected_eq_cons {order : List NodeId} {path slot : String}
    {rest : List (String × String)} (h : unconnected w order = (path, slot) :: rest) :
    NamesFirstOpen w order path slot := by
  induction order with
  | nil => cases h
  | cons id order ih =>
    rw [unconnected_cons] at h
    have hlater (hnone : ∀ i, ¬IsOpen w id i) (h : unconnected w order = (path, slot) :: rest) :
        NamesFirstOpen w (id :: order) path slot := by
      obtain ⟨before, id', after, n, i, spec, rfl, hbefore, hfirst⟩ := ih h
      exact ⟨id :: before, id', after, n, i, spec, rfl,
        List.forall_mem_cons.mpr ⟨hnone, hbefore⟩, hfirst⟩
    cases hn : w.node? id with
    | none =>
      rw [hn] at h
      exact hlater (by simp [IsOpen, hn]) h
    | some n =>
      rw [hn] at h
      cases hopen : openInputs n with
      | nil =>
        simp only [hopen, List.map_nil, List.nil_append] at h
        exact hlater ((openInputs_eq_nil_iff hn).mp hopen) h
      | cons first others =>
        simp only [hopen, List.map_cons, List.cons_append, List.cons.injEq, Prod.mk.injEq] at h
        obtain ⟨⟨rfl, rfl⟩, -⟩ := h
        obtain ⟨i, spec, hslot, hmandatory, hfirst, rfl⟩ := openInputs_eq_cons hn hopen
        exact ⟨[], id, order, n, i, spec, rfl, nofun, hn, hslot, hmandatory, hfirst, rfl, rfl⟩

theorem length_unconnected (order : List NodeId) :
    (unconnected w order).length = (order.map (openCount w)).sum := by
  induction order with
  | nil => rfl
  | cons id order ih =>
    rw [unconnected_cons, List.length_append, ih, List.map_cons, List.sum_cons, openCount]
    congr 1
    cases w.node? id with
    | none => rfl
    | some n =>
      dsimp only
      rw [List.length_map, openInputs, List.length_filterMap_eq_countP]
      refine List.countP_congr fun slot _ => ?_
      obtain ⟨spec, source⟩ := slot
      dsimp only
      cases spec.mandatory && source.isNone <;> simp

/-! ## Taking down -/

/-- Of these nodes, those that are set up are destroyed, each once and in this order. -/
structure TakesDown (w w' : World) (nodes destroyed : List NodeId) : Prop where
  steps : w'.steps = w.steps ++ destroyed.map .nodeDestroyed
  isUp : ∀ x, w'.isUp x = true ↔ w.isUp x = true ∧ x ∉ nodes
  nodup : destroyed.Nodup
  sublist : destroyed.Sublist nodes
  mem : ∀ x, x ∈ destroyed ↔ x ∈ nodes ∧ w.isUp x = true

theorem takeDownNode_of_up (h : w.isUp id = true) :
    (takeDownNode w id).steps = w.steps ++ [.nodeDestroyed id] ∧
      ∀ x, (takeDownNode w id).isUp x = true ↔ w.isUp x = true ∧ x ≠ id := by
  obtain ⟨n, hn, hup⟩ := isUp_eq_true_iff.mp h
  have hn' := (w.node?_recordNotes (n.type.destroy n.self).notes id).trans hn
  rw [takeDownNode, hn]
  simp only [hup, if_true]
  refine ⟨by simp, fun x => ?_⟩
  rw [isUp_record, isUp_setNode _ hn', isUp_recordNotes]
  split
  · rename_i hx
    simp [hx]
  · rename_i hx
    simp [hx]

theorem takeDownNode_of_down (h : w.isUp id = false) : takeDownNode w id = w := by
  rw [takeDownNode]
  cases hn : w.node? id with
  | none => rfl
  | some n =>
    have hup : n.isSetUp = false := by simpa [World.isUp, hn] using h
    simp [hup]

theorem foldl_takeDownNode (w : World) (nodes : List NodeId) :
    ∃ destroyed, TakesDown w (nodes.foldl takeDownNode w) nodes destroyed := by
  induction nodes generalizing w with
  | nil => exact ⟨[], by simp, by simp, .nil, .slnil, by simp⟩
  | cons id nodes ih =>
    obtain ⟨destroyed, h⟩ := ih (takeDownNode w id)
    rw [List.foldl_cons]
    cases hup : w.isUp id with
    | false =>
      rw [takeDownNode_of_down hup] at h ⊢
      have hne {x : NodeId} (hx : w.isUp x = true) : x ≠ id := by
        rintro rfl
        rw [hup] at hx
        cases hx
      refine ⟨destroyed, h.steps, fun x => ?_, h.nodup, h.sublist.cons id, fun x => ?_⟩
      · rw [h.isUp, List.mem_cons]
        exact and_congr_right fun hx => not_congr (or_iff_right (hne hx)).symm
      · rw [h.mem, List.mem_cons]
        exact and_congr_left fun hx => (or_iff_right (hne hx)).symm
    | true =>
      obtain ⟨hsteps, hisUp⟩ := takeDownNode_of_up hup
      refine ⟨id :: destroyed, ?_, fun x => ?_, ?_, h.sublist.cons_cons id, fun x => ?_⟩
      · rw [h.steps, hsteps]
        simp
      · rw [h.isUp, hisUp, List.mem_cons]
        tauto
      · refine List.nodup_cons.mpr ⟨fun hmem => ?_, h.nodup⟩
        exact ((hisUp id).mp ((h.mem id).mp hmem).2).2 rfl
      · rw [List.mem_cons, List.mem_cons, h.mem, hisUp]
        by_cases hx : x = id
        · simp [hx, hup]
        · simp [hx]

theorem takeDown_takesDown (w : World) (nodes : List NodeId) :
    ∃ destroyed, TakesDown w (takeDown w nodes) nodes.reverse destroyed :=
  foldl_takeDownNode w nodes.reverse

/-- A sublist of distinct elements is determined by what is in it. -/
theorem eq_filter_of_sublist {α : Type} {l part : List α} {q : α → Bool} (hl : l.Nodup)
    (hpart : part.Sublist l) (hmem : ∀ x, x ∈ part ↔ x ∈ l ∧ q x = true) : part = l.filter q := by
  have hself : part.filter q = part := List.filter_eq_self.mpr fun x hx => ((hmem x).mp hx).2
  have hsub : part.Sublist (l.filter q) := hself ▸ hpart.filter q
  have hperm : part.Perm (l.filter q) :=
    (List.perm_ext_iff_of_nodup (hl.sublist hpart) (hl.filter q)).mpr fun x => by
      rw [hmem, List.mem_filter]
  exact hsub.eq_of_length hperm.length_eq

theorem eq_of_sublist {α : Type} {l part part' : List α} (hl : l.Nodup) (hpart : part.Sublist l)
    (hpart' : part'.Sublist l) (hmem : ∀ x, x ∈ part ↔ x ∈ part') : part = part' := by
  classical
  rw [eq_filter_of_sublist (q := (· ∈ part')) hl hpart fun x => ?_,
    ← eq_filter_of_sublist (q := (· ∈ part')) hl hpart' fun x => ?_]
  · simpa using fun hx => hpart'.subset hx
  · rw [hmem]
    simpa using fun hx => hpart'.subset hx

theorem TakesDown.eq_filter {w' : World} {nodes destroyed : List NodeId}
    (h : TakesDown w w' nodes destroyed) (hnodes : nodes.Nodup) :
    destroyed = nodes.filter w.isUp :=
  eq_filter_of_sublist hnodes h.sublist h.mem

/-! ## Setting up in order -/

/-- The nodes are set up one after the other, given that none has a fault. -/
def setUpEach (w : World) (ids : List NodeId) : World :=
  ids.foldl (fun w id => (setUpNode w id).1) w

/-- None of the nodes has a fault when its turn comes. -/
def Faultless (w : World) (ids : List NodeId) : Prop :=
  ∀ before id after, ids = before ++ id :: after → ∀ e ran, ¬Fault (setUpEach w before) id e ran

theorem setUpNode_eq_none_iff :
    (setUpNode w id).2 = none ↔ ∀ e ran, ¬Fault w id e ran := by
  constructor
  · intro h e ran hfault
    rw [hfault.setUpNode.1] at h
    cases h
  · intro h
    cases hresult : (setUpNode w id).2 with
    | none => rfl
    | some e =>
      obtain ⟨ran, hfault⟩ := exists_fault hresult
      exact absurd hfault (h e ran)

theorem faultless_nil (w : World) : Faultless w [] := by
  intro before id after hsplit
  cases before <;> cases hsplit

theorem faultless_cons {ids : List NodeId} : Faultless w (id :: ids) ↔
    (setUpNode w id).2 = none ∧ Faultless (setUpNode w id).1 ids := by
  rw [setUpNode_eq_none_iff]
  constructor
  · intro h
    exact ⟨h [] id ids rfl, fun before a after hsplit => h (id :: before) a after (by rw [hsplit]; rfl)⟩
  · rintro ⟨hfirst, hrest⟩ before a after hsplit
    cases before with
    | nil =>
      cases hsplit
      exact hfirst
    | cons b before =>
      cases hsplit
      exact hrest before a after rfl

/-- Either no node has a fault, or there is a first that has. -/
theorem faultless_or_first (w : World) (order : List NodeId) : Faultless w order ∨
    ∃ before id after e ran, order = before ++ id :: after ∧ Faultless w before ∧
      Fault (setUpEach w before) id e ran := by
  induction order generalizing w with
  | nil => exact .inl (faultless_nil w)
  | cons id order ih =>
    cases hresult : (setUpNode w id).2 with
    | some e =>
      obtain ⟨ran, hfault⟩ := exists_fault hresult
      exact .inr ⟨[], id, order, e, ran, rfl, faultless_nil w, hfault⟩
    | none =>
      obtain hrest | ⟨before, a, after, e, ran, rfl, hbefore, hfault⟩ := ih (setUpNode w id).1
      · exact .inl (faultless_cons.mpr ⟨hresult, hrest⟩)
      · exact .inr ⟨id :: before, a, after, e, ran, rfl, faultless_cons.mpr ⟨hresult, hbefore⟩,
          hfault⟩

/-- The node has not been taken down. -/
def isThere (w : World) (id : NodeId) : Bool := (w.node? id).isSome

theorem isThere_wiring {w' : World} (h : SameWiring w w') : isThere w' = isThere w := by
  funext x
  have hnode := congrArg Option.isSome (h.node x)
  rwa [Option.isSome_map, Option.isSome_map] at hnode

/-- Every node that is there is set up in its turn. -/
theorem setUpEach_spec {ids : List NodeId} (h : Faultless w ids) :
    (setUpEach w ids).steps =
        w.steps ++ (ids.filter (isThere w)).map (LifeStep.nodeSetUp · true) ∧
      ∀ x, (setUpEach w ids).isUp x = true ↔
        w.isUp x = true ∨ x ∈ ids ∧ isThere w x = true := by
  induction ids generalizing w with
  | nil => exact ⟨by simp [setUpEach], by simp [setUpEach]⟩
  | cons id ids ih =>
    obtain ⟨hresult, hrest⟩ := faultless_cons.mp h
    have hran := setUpNode_fine hresult
    obtain ⟨hsteps, hisUp⟩ := ih hrest
    rw [isThere_wiring (setUpNode_wiring w id)] at hsteps hisUp
    change (setUpEach (setUpNode w id).1 ids).steps = _ ∧ ∀ x,
      (setUpEach (setUpNode w id).1 ids).isUp x = true ↔ _
    have hthere : isThere w id = (w.node? id).isSome := rfl
    refine ⟨?_, fun x => ?_⟩
    · rw [hsteps, hran.steps, List.filter_cons, hthere]
      cases w.node? id <;> simp
    · rw [hisUp, hran.isUp, List.mem_cons]
      by_cases hx : x = id
      · subst hx
        rw [hthere]
        cases w.node? x <;> simp
      · simp [hx]

theorem setUpAll_of_faultless {rest : List NodeId} (h : Faultless w rest) (done : List NodeId) :
    setUpAll w done rest = (setUpEach w rest, none) := by
  induction rest generalizing w done with
  | nil => rfl
  | cons id rest ih =>
    obtain ⟨hresult, hrest⟩ := faultless_cons.mp h
    rw [setUpAll]
    have hnext := ih hrest (id :: done)
    change _ = (setUpEach (setUpNode w id).1 rest, none)
    generalize setUpNode w id = result at hresult hnext
    obtain ⟨w', failure⟩ := result
    cases hresult
    exact hnext

/-- At the first fault the nodes up to there are taken down. -/
theorem setUpAll_of_fault {before : List NodeId} {e : BuildError} {ran : Option Bool}
    (h : Faultless w before) (hfault : Fault (setUpEach w before) id e ran)
    (done after : List NodeId) :
    ∃ path, setUpAll w done (before ++ id :: after) =
      (takeDown ((setUpNode (setUpEach w before) id).1.record (.buildFailed path e.message))
        (done.reverse ++ before ++ [id]), some e) := by
  induction before generalizing w done with
  | nil =>
    have hresult : (setUpNode w id).2 = some e := hfault.setUpNode.1
    rw [List.nil_append, setUpAll, List.append_nil, ← List.reverse_cons]
    change ∃ path, _ = (takeDown ((setUpNode w id).1.record _) _, _)
    generalize setUpNode w id = result at hresult
    obtain ⟨w', failure⟩ := result
    cases hresult
    exact ⟨_, rfl⟩
  | cons a before ih =>
    obtain ⟨hresult, hrest⟩ := faultless_cons.mp h
    obtain ⟨path, hnext⟩ := ih hrest hfault (a :: done)
    refine ⟨path, ?_⟩
    have hdone : done.reverse ++ a :: before ++ [id] = (a :: done).reverse ++ before ++ [id] := by
      simp
    rw [hdone]
    change setUpAll w done (a :: (before ++ id :: after)) =
      (takeDown ((setUpNode (setUpEach (setUpNode w a).1 before) id).1.record _) _, _)
    rw [← hnext, setUpAll]
    generalize setUpNode w a = result at hresult
    obtain ⟨w', failure⟩ := result
    cases hresult
    rfl

end FrameGraph.Schedule
