import FrameGraph.Proofs.Schedule.Placement
import FrameGraph.Schedule.Basic
import Mathlib.Data.Fintype.Card
import Mathlib.Data.Set.Finite.List
import Mathlib.Logic.Relation

/-!
# Cycles

The nodes that are left when the ordering ends are those from which a cycle can be reached. A placed
node reads from earlier nodes only, so no cycle is behind it; a node that is left reads from another
node that is left, and as there are finitely many this must come to a cycle.
-/
namespace FrameGraph.Schedule

open Dependency (Reads sources progress finish readersOf)
open Relation (ReflTransGen TransGen)

/-- A slot of the gathered node `reader` is connected to the gathered node `source`. -/
def ReadsFrom (w : World) (gathered : List NodeId) (reader source : NodeId) : Prop :=
  reader ∈ gathered ∧ source ∈ gathered ∧
    ∃ n, w.node? reader = some n ∧ some source ∈ n.inputs

/-- The node reads from itself through one or more nodes. -/
def OnCycle (w : World) (gathered : List NodeId) (id : NodeId) : Prop :=
  TransGen (ReadsFrom w gathered) id id

/-- The node is on a cycle or reads from one through other nodes. -/
def ReachesCycle (w : World) (gathered : List NodeId) (id : NodeId) : Prop :=
  ∃ c, ReflTransGen (ReadsFrom w gathered) id c ∧ OnCycle w gathered c

/-! ## Relations on finitely many elements -/

theorem not_transGen_of_acc {α : Type} {r : α → α → Prop} {a : α} (h : Acc (flip r) a) (c : α)
    (hac : ReflTransGen r a c) : ¬TransGen r c c := by
  induction h with
  | intro a _ ih =>
    intro hcycle
    obtain rfl | ⟨b, hab, hbc⟩ := ReflTransGen.cases_head hac
    · obtain ⟨b, hab, hba⟩ := TransGen.head'_iff.mp hcycle
      exact ih b hab hba hcycle
    · exact ih b hab hbc hcycle

/-- Each element of an order is accessible if it relates to earlier elements only. -/
theorem acc_of_ordered {α : Type} {r : α → α → Prop} {placed : List α}
    (hordered : ∀ later a earlier, placed = later ++ a :: earlier → ∀ b, r a b → b ∈ earlier) :
    ∀ a ∈ placed, Acc (flip r) a := by
  induction placed with
  | nil => simp
  | cons a placed ih =>
    have hplaced := ih fun later b earlier hsplit =>
      hordered (a :: later) b earlier (by rw [hsplit, List.cons_append])
    refine List.forall_mem_cons.mpr ⟨.intro a fun b hab => ?_, hplaced⟩
    exact hplaced b (hordered [] a placed rfl b hab)

/-- From an element of a finite set that each element of it leaves for another, a cycle is
reached. -/
theorem exists_cycle {α : Type} {r : α → α → Prop} (nodes : List α) (left : α → Prop)
    (hnodes : ∀ a, left a → a ∈ nodes) (hnext : ∀ a, left a → ∃ b, r a b ∧ left b) (a : α)
    (ha : left a) : ∃ c, ReflTransGen r a c ∧ TransGen r c c := by
  by_contra hnone
  have hacyclic : ∀ c, ReflTransGen r a c → ¬TransGen r c c :=
    fun c hac hcycle => hnone ⟨c, hac, hcycle⟩
  let Reached := {c : α // left c ∧ ReflTransGen r a c}
  have hfinite : Finite Reached := by
    have hsub : {c : α | left c ∧ ReflTransGen r a c} ⊆ {c | c ∈ nodes} :=
      fun c hc => hnodes c hc.1
    exact (nodes.finite_toSet.subset hsub).to_subtype
  let Behind : Reached → Reached → Prop := fun c d => TransGen r d.1 c.1
  have htrans : IsTrans Reached Behind := ⟨fun _ _ _ hcd hde => hde.trans hcd⟩
  have hirrefl : Std.Irrefl Behind := ⟨fun c => hacyclic c.1 c.2.2⟩
  have hwf : WellFounded Behind := Finite.wellFounded_of_trans_of_irrefl Behind
  refine hwf.induction (C := fun _ => False) ⟨a, ha, .refl⟩ fun c ih => ?_
  obtain ⟨d, hcd, hd⟩ := hnext c.1 c.2.1
  exact ih ⟨d, hd, c.2.2.tail hcd⟩ (.single hcd)

/-! ## Numbers and nodes -/

variable {w : World} {gathered : List NodeId}

theorem position?_eq_some_iff (h : gathered.Nodup) (id : NodeId) (i : Nat) :
    position? gathered id = some i ↔ gathered[i]? = some id := by
  have hfound {a : NodeId} {j : Nat}
      (hfind : gathered.zipIdx.reverse.find? (·.1 = id) = some (a, j)) :
      gathered[j]? = some id := by
    have hmem := List.mem_reverse.mp (List.mem_of_find?_eq_some hfind)
    have hid : a = id := by simpa using List.find?_some hfind
    rw [← hid]
    exact List.mk_mem_zipIdx_iff_getElem?.mp hmem
  rw [position?, Option.map_eq_some_iff]
  constructor
  · rintro ⟨⟨a, j⟩, hfind, rfl⟩
    exact hfound hfind
  · intro hi
    have hmem : (id, i) ∈ gathered.zipIdx.reverse :=
      List.mem_reverse.mpr (List.mk_mem_zipIdx_iff_getElem?.mpr hi)
    cases hfind : gathered.zipIdx.reverse.find? (·.1 = id) with
    | none => simpa using List.find?_eq_none.mp hfind _ hmem
    | some found =>
      obtain ⟨a, j⟩ := found
      obtain ⟨hlength, -⟩ := List.getElem?_eq_some_iff.mp hi
      have hsame : i = j := (List.getElem?_inj hlength h).mp (by rw [hi, hfound hfind])
      exact ⟨(a, j), rfl, hsame.symm⟩

theorem size_readsAmong (w : World) (gathered : List NodeId) :
    (readsAmong w gathered).size = gathered.length := by
  simp [readsAmong]

theorem mem_sources_readsAmong (h : gathered.Nodup) (i j : Nat) :
    j ∈ sources (readsAmong w gathered) i ↔
      ∃ a b, gathered[i]? = some a ∧ gathered[j]? = some b ∧ ReadsFrom w gathered a b := by
  cases ha : gathered[i]? with
  | none => simp [sources, readsAmong, ha]
  | some a =>
    have hmem : a ∈ gathered := List.mem_of_getElem? ha
    cases hn : w.node? a with
    | none => simp [sources, readsAmong, ha, hn, ReadsFrom]
    | some n =>
      simp only [sources, readsAmong, List.getElem?_toArray, List.getElem?_map, ha, hn,
        Option.map_some, Option.getD_some, List.mem_filterMap, position?_eq_some_iff h,
        ReadsFrom, Option.some.injEq]
      constructor
      · rintro ⟨b, ⟨source, hsource, rfl⟩, hb⟩
        exact ⟨a, b, rfl, hb, hmem, List.mem_of_getElem? hb, n, hn, hsource⟩
      · rintro ⟨a, b, rfl, hb, -, -, n', hn', hsource⟩
        rw [hn] at hn'
        cases hn'
        exact ⟨b, ⟨_, hsource, rfl⟩, hb⟩

theorem mem_select {numbers : List Nat} {id : NodeId} :
    id ∈ select gathered numbers ↔ ∃ i ∈ numbers, gathered[i]? = some id :=
  List.mem_filterMap

theorem select_range (gathered : List NodeId) :
    select gathered (List.range gathered.length) = gathered := by
  have hmap : (List.range gathered.length).map (fun i => gathered[i]?) = gathered.map some := by
    apply List.ext_getElem?
    intro i
    by_cases hi : i < gathered.length
    · simp [hi]
    · simp [hi]
  calc select gathered (List.range gathered.length)
      = ((List.range gathered.length).map fun i => gathered[i]?).filterMap id := by
        rw [List.filterMap_map]
        rfl
    _ = gathered := by
        rw [hmap, List.filterMap_map]
        simp

/-- The nodes placed in the end, the latest first. -/
def placedNodes (w : World) (gathered : List NodeId) : List NodeId :=
  select gathered (finish (readsAmong w gathered)).placed

theorem number_placed_iff (h : gathered.Nodup) {i : Nat} {id : NodeId}
    (hi : gathered[i]? = some id) :
    i ∈ (finish (readsAmong w gathered)).placed ↔ id ∈ placedNodes w gathered := by
  rw [placedNodes, mem_select]
  constructor
  · exact fun hplaced => ⟨i, hplaced, hi⟩
  · rintro ⟨j, hplaced, hj⟩
    obtain ⟨hlength, -⟩ := List.getElem?_eq_some_iff.mp hi
    have hsame : i = j := (List.getElem?_inj hlength h).mp (by rw [hi, hj])
    rwa [hsame]

/-- A gathered node is placed in the end exactly if all that it reads from is. -/
theorem mem_placedNodes_iff (h : gathered.Nodup) {a : NodeId} (ha : a ∈ gathered) :
    a ∈ placedNodes w gathered ↔ ∀ b, ReadsFrom w gathered a b → b ∈ placedNodes w gathered := by
  obtain ⟨i, hi⟩ := List.mem_iff_getElem?.mp ha
  have hsize : i < (readsAmong w gathered).size := by
    rw [size_readsAmong]
    exact (List.getElem?_eq_some_iff.mp hi).1
  rw [← number_placed_iff h hi, Dependency.mem_placed_iff hsize]
  constructor
  · intro hall b hab
    obtain ⟨j, hj⟩ := List.mem_iff_getElem?.mp hab.2.1
    exact (number_placed_iff h hj).mp
      (hall j ((mem_sources_readsAmong h i j).mpr ⟨a, b, hi, hj, hab⟩))
  · intro hall j hj
    obtain ⟨a', b, ha', hb, hab⟩ := (mem_sources_readsAmong h i j).mp hj
    rw [hi] at ha'
    cases ha'
    exact (number_placed_iff h hb).mpr (hall b hab)

/-- A placed node reads from nodes that were placed before it. -/
theorem placedNodes_ordered (h : gathered.Nodup) (later : List NodeId) (a : NodeId)
    (earlier : List NodeId) (hsplit : placedNodes w gathered = later ++ a :: earlier)
    (b : NodeId) (hab : ReadsFrom w gathered a b) : b ∈ earlier := by
  obtain ⟨later', rest, hplaced, -, hrest⟩ := List.filterMap_eq_append_iff.mp hsplit
  obtain ⟨skipped, i, earlier', rfl, -, hi, rfl⟩ := List.filterMap_eq_cons_iff.mp hrest
  obtain ⟨j, hj⟩ := List.mem_iff_getElem?.mp hab.2.1
  have hsource := (mem_sources_readsAmong h i j).mpr ⟨a, b, hi, hj, hab⟩
  have hearlier := (Dependency.finish_valid (readsAmong w gathered)).ordered
    (later' ++ skipped) i earlier' (by rw [hplaced, List.append_assoc]) j hsource
  exact List.mem_filterMap.mpr ⟨j, hearlier, hj⟩

theorem placedNodes_nodup (h : gathered.Nodup) : (placedNodes w gathered).Nodup := by
  have hnumbers := (Dependency.finish_valid (readsAmong w gathered)).nodup.of_append_right
  refine List.Nodup.filterMap ?_ hnumbers
  intro i j id hi hj
  obtain ⟨hlength, -⟩ := List.getElem?_eq_some_iff.mp hi
  exact (List.getElem?_inj hlength h).mp (by rw [Option.mem_def.mp hi, Option.mem_def.mp hj])

theorem placedNodes_subset : placedNodes w gathered ⊆ gathered := by
  intro a ha
  obtain ⟨i, -, hi⟩ := mem_select.mp ha
  exact List.mem_of_getElem? hi

/-- A node is left exactly if a cycle can be reached from it. -/
theorem not_mem_placedNodes_iff (h : gathered.Nodup) {a : NodeId} (ha : a ∈ gathered) :
    a ∉ placedNodes w gathered ↔ ReachesCycle w gathered a := by
  constructor
  · intro hleft
    refine exists_cycle gathered (fun c => c ∈ gathered ∧ c ∉ placedNodes w gathered)
      (fun c hc => hc.1) ?_ a ⟨ha, hleft⟩
    rintro c ⟨hc, hleft⟩
    rw [mem_placedNodes_iff h hc] at hleft
    simp only [not_forall] at hleft
    obtain ⟨b, hcb, hb⟩ := hleft
    exact ⟨b, hcb, hcb.2.1, hb⟩
  · rintro ⟨c, hac, hcycle⟩ hplaced
    have hacc := acc_of_ordered (placedNodes_ordered h) a hplaced
    exact not_transGen_of_acc hacc c hac hcycle

/-- The nodes that are left, in the order in which they were gathered. -/
theorem select_left (h : gathered.Nodup) :
    select gathered ((List.range (readsAmong w gathered).size).filter
      fun i => i ∉ (finish (readsAmong w gathered)).placed) =
      gathered.filter fun id => id ∉ placedNodes w gathered := by
  have hfilter : ∀ q : NodeId → Bool, gathered.filter q =
      (List.range gathered.length).filterMap fun i => (gathered[i]?).filter q := by
    intro q
    rw [← List.filter_filterMap, ← select, select_range]
  rw [hfilter, select, List.filterMap_filter, size_readsAmong]
  apply List.filterMap_congr
  intro i hi
  have hlength := List.mem_range.mp hi
  have hid : gathered[i]? = some gathered[i] := List.getElem?_eq_getElem hlength
  rw [hid]
  by_cases hplaced : i ∈ (finish (readsAmong w gathered)).placed
  · have hnode := (number_placed_iff h hid).mp hplaced
    simp [Option.filter, hplaced, hnode]
  · have hnode : gathered[i] ∉ placedNodes w gathered :=
      fun hnode => hplaced ((number_placed_iff h hid).mpr hnode)
    simp [Option.filter, hplaced, hnode]

theorem sort_eq_placed (w : World) (h : gathered.Nodup) : sort w gathered =
    if ∃ a ∈ gathered, a ∉ placedNodes w gathered then
      .error (.cycle ((gathered.filter fun id => id ∉ placedNodes w gathered).map w.nodePath))
    else .ok (placedNodes w gathered).reverse := by
  have hleft : (∃ i < (readsAmong w gathered).size,
      i ∉ (finish (readsAmong w gathered)).placed) ↔
      ∃ a ∈ gathered, a ∉ placedNodes w gathered := by
    rw [size_readsAmong]
    constructor
    · rintro ⟨i, hi, hplaced⟩
      have hid : gathered[i]? = some gathered[i] := List.getElem?_eq_getElem hi
      exact ⟨_, List.mem_of_getElem? hid, fun hnode => hplaced ((number_placed_iff h hid).mpr hnode)⟩
    · rintro ⟨a, ha, hplaced⟩
      obtain ⟨i, hi⟩ := List.mem_iff_getElem?.mp ha
      exact ⟨i, (List.getElem?_eq_some_iff.mp hi).1,
        fun hnumber => hplaced ((number_placed_iff h hi).mp hnumber)⟩
  have horder : select gathered (finish (readsAmong w gathered)).placed.reverse =
      (placedNodes w gathered).reverse := by
    rw [placedNodes, select, select, List.filterMap_reverse]
  rw [sort, Dependency.sort_eq]
  by_cases hsome : ∃ a ∈ gathered, a ∉ placedNodes w gathered
  · rw [if_pos (hleft.mpr hsome), if_pos hsome]
    simp only [select_left h]
  · rw [if_neg (fun hnumber => hsome (hleft.mp hnumber)), if_neg hsome]
    simp only [horder]

theorem exists_left_iff (h : gathered.Nodup) :
    (∃ a ∈ gathered, a ∉ placedNodes w gathered) ↔ ∃ a, OnCycle w gathered a := by
  constructor
  · rintro ⟨a, ha, hleft⟩
    obtain ⟨c, -, hcycle⟩ := (not_mem_placedNodes_iff h ha).mp hleft
    exact ⟨c, hcycle⟩
  · rintro ⟨c, hcycle⟩
    obtain ⟨b, hcb, -⟩ := TransGen.head'_iff.mp hcycle
    exact ⟨c, hcb.1, (not_mem_placedNodes_iff h hcb.1).mpr ⟨c, .refl, hcycle⟩⟩

theorem sort_of_acyclic (h : gathered.Nodup) (hacyclic : ∀ a, ¬OnCycle w gathered a) :
    sort w gathered = .ok (placedNodes w gathered).reverse ∧
      (placedNodes w gathered).Perm gathered := by
  have hnone : ¬∃ a ∈ gathered, a ∉ placedNodes w gathered := by
    rw [exists_left_iff h]
    exact fun ⟨a, ha⟩ => hacyclic a ha
  refine ⟨by rw [sort_eq_placed w h, if_neg hnone], ?_⟩
  rw [List.perm_ext_iff_of_nodup (placedNodes_nodup h) h]
  intro a
  refine ⟨fun ha => placedNodes_subset ha, fun ha => ?_⟩
  by_contra hleft
  exact hnone ⟨a, ha, hleft⟩

open Classical in
theorem sort_of_cyclic (h : gathered.Nodup) (hcyclic : ∃ a, OnCycle w gathered a) :
    sort w gathered = .error (.cycle
      ((gathered.filter fun id => ReachesCycle w gathered id).map w.nodePath)) := by
  have hleft : gathered.filter (fun id => id ∉ placedNodes w gathered) =
      gathered.filter fun id => ReachesCycle w gathered id := by
    apply List.filter_congr
    intro a ha
    rw [decide_eq_decide]
    exact not_mem_placedNodes_iff h ha
  rw [sort_eq_placed w h, if_pos ((exists_left_iff h).mpr hcyclic), hleft]

/-- An order of distinct nodes has each of them once. -/
theorem perm_of_sort {order : List NodeId} (h : gathered.Nodup) (hsort : sort w gathered = .ok order) :
    order.Perm gathered := by
  by_cases hcyclic : ∃ a, OnCycle w gathered a
  · rw [sort_of_cyclic h hcyclic] at hsort
    cases hsort
  · obtain ⟨hplaced, hperm⟩ := sort_of_acyclic h (not_exists.mp hcyclic)
    rw [hplaced] at hsort
    cases hsort
    exact (List.reverse_perm _).trans hperm

/-- In an order of distinct nodes each comes behind all that it reads from. -/
theorem ordered_of_sort {earlier later : List NodeId} {a : NodeId} (h : gathered.Nodup)
    (hsort : sort w gathered = .ok (earlier ++ a :: later)) {b : NodeId}
    (hab : ReadsFrom w gathered a b) : b ∈ earlier := by
  have hplaced : (placedNodes w gathered).reverse = earlier ++ a :: later := by
    by_cases hcyclic : ∃ c, OnCycle w gathered c
    · rw [sort_of_cyclic h hcyclic] at hsort
      cases hsort
    · rwa [(sort_of_acyclic h (not_exists.mp hcyclic)).1, Except.ok.injEq] at hsort
  have hback : placedNodes w gathered = later.reverse ++ a :: earlier.reverse := by
    rw [← List.reverse_reverse (placedNodes w gathered), hplaced]
    simp
  exact List.mem_reverse.mp (placedNodes_ordered h _ a _ hback b hab)

theorem build_of_sort_error {e : BuildError} (h : sort w w.gather = .error e) :
    (build w).2 = .error e := by
  rw [build, h]
  cases e <;> rfl

open Classical in
/-- The ordering of distinct nodes comes to an end and lowers no counter below zero. It succeeds
exactly if no gathered node reads from itself through others, and then every gathered node comes
once, behind all that it reads from. Otherwise it fails, and building with it, with the paths of
exactly those nodes that are on a cycle or behind one, in the order in which they were gathered. -/
theorem sort_iff_acyclic (w : World) (gathered : List NodeId) (h : gathered.Nodup) :
    ((finish (readsAmong w gathered)).waiting = [] ∧
      ∀ steps i waiting, (progress (readsAmong w gathered) steps).waiting = i :: waiting →
        ∀ r, (readersOf (readsAmong w gathered) i).count r ≤
          (progress (readsAmong w gathered) steps).counter r) ∧
    ((∃ order, sort w gathered = .ok order) ↔ ∀ a, ¬OnCycle w gathered a) ∧
    (∀ order, sort w gathered = .ok order → order.Perm gathered ∧
      ∀ earlier a later, order = earlier ++ a :: later →
        ∀ b, ReadsFrom w gathered a b → b ∈ earlier) ∧
    (∀ e, sort w gathered = .error e →
      e = .cycle ((gathered.filter fun id => ReachesCycle w gathered id).map w.nodePath)) ∧
    ∀ e, gathered = w.gather → sort w gathered = .error e → (build w).2 = .error e := by
  refine ⟨⟨Dependency.finish_waiting _, ?_⟩, ⟨?_, ?_⟩, ?_, ?_, ?_⟩
  · intro steps i waiting hwaiting
    exact (Dependency.progress_valid _ steps).enough hwaiting
  · rintro ⟨order, horder⟩ a ha
    rw [sort_of_cyclic h ⟨a, ha⟩] at horder
    cases horder
  · exact fun hacyclic => ⟨_, (sort_of_acyclic h hacyclic).1⟩
  · intro order horder
    by_cases hcyclic : ∃ a, OnCycle w gathered a
    · rw [sort_of_cyclic h hcyclic] at horder
      cases horder
    · obtain ⟨hsort, hperm⟩ := sort_of_acyclic h (not_exists.mp hcyclic)
      rw [hsort] at horder
      cases horder
      refine ⟨(List.reverse_perm _).trans hperm, ?_⟩
      intro earlier a later hsplit b hab
      have hplaced : placedNodes w gathered = later.reverse ++ a :: earlier.reverse := by
        rw [← List.reverse_reverse (placedNodes w gathered), hsplit]
        simp
      exact List.mem_reverse.mp (placedNodes_ordered h _ a _ hplaced b hab)
  · intro e he
    by_cases hcyclic : ∃ a, OnCycle w gathered a
    · rw [sort_of_cyclic h hcyclic] at he
      cases he
      rfl
    · rw [(sort_of_acyclic h (not_exists.mp hcyclic)).1] at he
      cases he
  · rintro e rfl he
    exact build_of_sort_error he

/-- Two nodes that both read from the first of them. -/
def selfReading : World :=
  let node (name : String) : Option Node :=
    some { Node.new name { name := "sum" } .root .root [] with inputs := [none, some ⟨0⟩] }
  let members : Except Member (Table Member) := do
    (← Table.empty.insert "a" (.node ⟨0⟩)).insert "b" (.node ⟨1⟩)
  let root := Scope.new "root" (.plain "root") none none []
  { nodes := #[node "a", node "b"]
    scopes := #[some { root with members := members.toOption.getD .empty }]
    journal := #[] }

theorem sort_iff_acyclic_selfReading :
    selfReading.gather.Nodup ∧ (∃ a, OnCycle selfReading selfReading.gather a) ∧
      ∃ paths, (build selfReading).2 = .error (.cycle paths) := by
  have hnodup : selfReading.gather.Nodup := by decide +kernel
  have hfails : (sort selfReading selfReading.gather).isOk = false := by decide +kernel
  obtain ⟨-, hiff, -, herror, hbuild⟩ := sort_iff_acyclic selfReading selfReading.gather hnodup
  cases hsort : sort selfReading selfReading.gather with
  | ok order =>
    rw [hsort] at hfails
    cases hfails
  | error e =>
    refine ⟨hnodup, ?_, _, by rw [hbuild e rfl hsort, herror e hsort]⟩
    by_contra hacyclic
    obtain ⟨order, horder⟩ := hiff.mpr (not_exists.mp hacyclic)
    rw [hsort] at horder
    cases horder

end FrameGraph.Schedule
