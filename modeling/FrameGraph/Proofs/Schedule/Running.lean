import FrameGraph.Proofs.Schedule.Outcome
import FrameGraph.Proofs.World.Fading
import FrameGraph.Proofs.World.Gather

/-!
# Running a schedule

While a schedule is run, the nodes that are set up are those of its order that are still there, and
they were set up in this order. Editing, building, updating and tearing down all keep to this, so
what a frame updates is set up, and what is torn down is destroyed backwards.
-/
namespace FrameGraph.Schedule

open World

variable {w w' : World} {order : List NodeId}

/-- Of all nodes, those of the order that are there are set up, each after those before it, and every
step so far was possible. -/
structure Runs (w : World) (order : List NodeId) : Prop where
  tree : w.Tree
  distinct : order.Nodup
  known : ∀ x ∈ order, x.index < w.nodes.size
  isUp : ∀ x, w.isUp x = true ↔ x ∈ order ∧ isThere w x = true
  course_eq : course [] w.steps = some (order.reverse.filter w.isUp)

/-- Some setups were run, and what was completed by them was destroyed again, the latest first. -/
def RollsBack (w w' : World) : Prop :=
  ∃ tried up, (∀ step ∈ tried, ∃ id ok, step = .nodeSetUp id ok) ∧
    course [] tried = some up ∧ w'.steps = w.steps ++ tried ++ up.map .nodeDestroyed

theorem RollsBack.of_untouched (h : Untouched w w') : RollsBack w w' :=
  ⟨[], [], nofun, rfl, by rw [h.steps]; simp⟩

namespace Runs

/-- With no schedule, no node is set up. -/
theorem of_down (ht : w.Tree) (hdown : ∀ x, w.isUp x = false)
    (hcourse : course [] w.steps = some []) : Runs w [] :=
  ⟨ht, .nil, nofun, fun x => by simp [hdown], hcourse⟩

theorem down (h : Runs w []) (x : NodeId) : w.isUp x = false := by
  rw [← Bool.not_eq_true, h.isUp]
  exact fun ⟨hx, _⟩ => List.not_mem_nil hx

/-- What is set up, by the steps so far. -/
theorem mem_course (h : Runs w order) (x : NodeId) :
    x ∈ order.reverse.filter w.isUp ↔ w.isUp x = true := by
  rw [List.mem_filter, List.mem_reverse]
  exact and_iff_right_of_imp fun hx => ((h.isUp x).mp hx).1

theorem edits (h : Runs w order) (he : Edits w w') : Runs w' order := by
  have hfades := he.fades
  refine ⟨he.tree h.tree, h.distinct,
    fun x hx => Nat.lt_of_lt_of_le (h.known x hx) hfades.size, fun x => ⟨fun hx => ?_, ?_⟩, ?_⟩
  · obtain ⟨n, hn, -⟩ := isUp_eq_true_iff.mp hx
    exact ⟨((h.isUp x).mp (hfades.isUp_of_isUp hx)).1, by rw [isThere, hn]; rfl⟩
  · rintro ⟨hx, hthere⟩
    obtain ⟨n', hn'⟩ := Option.isSome_iff_exists.mp hthere
    obtain ⟨n, hn, hsame⟩ := hfades.old x (h.known x hx) n' hn'
    have hup := (h.isUp x).mpr ⟨hx, by rw [isThere, hn]; rfl⟩
    rw [World.isUp, hn] at hup
    exact isUp_eq_true_iff.mpr ⟨n', hn', hsame.trans hup⟩
  · obtain ⟨steps, hsteps, hcourse⟩ := hfades.steps
    rw [hsteps, course_append, h.course_eq, Option.bind_some,
      hcourse _ ((List.nodup_reverse.mpr h.distinct).filter _) h.mem_course, List.filter_filter]
    refine congrArg some (List.filter_congr fun x _ => ?_)
    cases hx : w'.isUp x with
    | false => rfl
    | true => rw [hfades.isUp_of_isUp hx, Bool.and_self]

end Runs

/-! ## Building -/

theorem order_of_sort (ht : w.Tree) (hsort : sort w w.gather = .ok order) :
    order.Nodup ∧ ∀ x, x ∈ order ↔ isThere w x = true := by
  obtain ⟨hnodup, hmem⟩ := ht.gather_spec
  have hperm := perm_of_sort hnodup hsort
  refine ⟨hperm.nodup_iff.mpr hnodup, fun x => ?_⟩
  rw [hperm.mem_iff, hmem, isThere, Option.isSome_iff_exists]

/-- Every step of a setup that has been rolled back was possible. -/
theorem RollsBack.course_eq (h : RollsBack w w') (hcourse : course [] w.steps = some []) :
    course [] w'.steps = some [] := by
  obtain ⟨tried, up, -, htried, hsteps⟩ := h
  rw [hsteps, course_append, course_append, hcourse, Option.bind_some, htried, Option.bind_some,
    course_destroys]

theorem RolledBack.rollsBack {before : List NodeId} {id : NodeId} {ran : Option Bool}
    {destroyed : List NodeId} (h : RolledBack w w' before id ran destroyed)
    (hnodup : (before ++ [id]).Nodup) : RollsBack w w' := by
  refine ⟨(before.filter (isThere w)).map (.nodeSetUp · true) ++ ran.toList.map (.nodeSetUp id),
    destroyed, ?_, ?_, by rw [h.steps]; simp⟩
  · intro step hstep
    obtain hstep | hstep := List.mem_append.mp hstep
    · obtain ⟨x, -, rfl⟩ := List.mem_map.mp hstep
      exact ⟨x, true, rfl⟩
    · obtain ⟨ok, -, rfl⟩ := List.mem_map.mp hstep
      exact ⟨id, ok, rfl⟩
  · have hbefore : (before.filter (isThere w)).Nodup := (List.nodup_append.mp hnodup).1.filter _
    have hid : id ∉ before.filter (isThere w) := fun hid =>
      (List.nodup_append.mp hnodup).2.2 id (List.mem_of_mem_filter hid) id List.mem_cons_self rfl
    rw [h.distinct hnodup, completed, course_append, course_setUps hbefore fun _ _ => List.not_mem_nil,
      Option.bind_some, List.append_nil]
    cases ran with
    | none => simp [course]
    | some ok => cases ok <;> simp [course, LifeStep.advance, hid]

/-- Building where no node is set up gives a schedule that runs, or it is rolled back. -/
theorem build_runs (h : Runs w []) :
    (∀ g, (build w).2 = .ok g → Runs (build w).1 g.order) ∧
      ∀ e, (build w).2 = .error e → Runs (build w).1 [] ∧ RollsBack w (build w).1 := by
  have hwiring := build_wiring w
  have htree := h.tree.sameTree hwiring.sameTree
  have hfailed {e : BuildError} (herror : (build w).2 = .error e) (hback : RollsBack w (build w).1)
      (hdown : ∀ x, (build w).1.isUp x = false) :
      (∀ g, (build w).2 = .ok g → Runs (build w).1 g.order) ∧
        ∀ e, (build w).2 = .error e → Runs (build w).1 [] ∧ RollsBack w (build w).1 := by
    refine ⟨fun g hg => ?_, fun _ _ => ⟨.of_down htree hdown (hback.course_eq h.course_eq), hback⟩⟩
    rw [herror] at hg
    cases hg
  by_cases hcyclic : ∃ a, OnCycle w w.gather a
  · obtain ⟨⟨paths, herror⟩, huntouched⟩ := build_of_cyclic hcyclic
    exact hfailed herror (.of_untouched huntouched) fun x => (huntouched.isUp x).trans (h.down x)
  obtain ⟨order, hsort⟩ := exists_sort_iff.mpr (not_exists.mp hcyclic)
  by_cases hopen : ∃ id ∈ order, ∃ i, IsOpen w id i
  · obtain ⟨⟨path, slot, -, herror⟩, huntouched⟩ := build_of_open hsort hopen
    exact hfailed herror (.of_untouched huntouched) fun x => (huntouched.isUp x).trans (h.down x)
  have hopen : ∀ id ∈ order, ∀ i, ¬IsOpen w id i := fun id hid i h => hopen ⟨id, hid, i, h⟩
  obtain ⟨hnodup, hmem⟩ := order_of_sort h.tree hsort
  obtain hfaultless | ⟨before, id, after, e, ran, rfl, hbefore, hfault⟩ := faultless_or_first w order
  · obtain ⟨hok, hset⟩ := build_of_faultless h.down hsort hopen hfaultless
    have hthere : isThere (build w).1 = isThere w := isThere_wiring hwiring
    refine ⟨fun g hg => ?_, fun e he => by rw [hok] at he; cases he⟩
    rw [hok] at hg
    cases hg
    refine ⟨htree, hnodup, fun x hx => ?_, fun x => by rw [hset.isUp, hthere], ?_⟩
    · rw [hmem, ← hthere] at hx
      obtain ⟨n, hn⟩ := Option.isSome_iff_exists.mp hx
      exact lt_size_of_node? hn
    · have hall : order.filter (isThere w) = order :=
        List.filter_eq_self.mpr fun x hx => (hmem x).mp hx
      have hup : order.reverse.filter (build w).1.isUp = order.reverse :=
        List.filter_eq_self.mpr fun x hx =>
          (hset.isUp x).mpr ⟨List.mem_reverse.mp hx, (hmem x).mp (List.mem_reverse.mp hx)⟩
      rw [hset.steps, hall, course_append, h.course_eq, hup]
      exact (course_setUps hnodup fun _ _ => List.not_mem_nil).trans
        (congrArg some (List.append_nil _))
  · obtain ⟨herror, ⟨destroyed, hback⟩, hdown⟩ := build_of_fault h.down hsort hopen hbefore hfault
    rw [List.append_cons] at hnodup
    exact hfailed herror (hback.rollsBack (List.nodup_append.mp hnodup).1) hdown

/-! ## Updating -/

/-- A node that is there is updated, and it is as much set up as before. -/
theorem updateNode_spec (w : World) (id : NodeId) :
    (updateNode w id).steps = w.steps ++ (if isThere w id then [.nodeUpdated id] else []) ∧
      (∀ x, (updateNode w id).isUp x = w.isUp x) ∧ (updateNode w id).nodes.size = w.nodes.size := by
  rw [updateNode, isThere]
  cases hn : w.node? id with
  | none => exact ⟨(List.append_nil _).symm, fun _ => rfl, rfl⟩
  | some n =>
    refine ⟨by simp, fun x => ?_, by simp⟩
    rw [isUp_record, isUp_setNode _ ((w.node?_recordNotes _ id).trans hn), isUp_recordNotes]
    split
    · rename_i hx
      rw [hx, isUp, hn, Option.any_some]
    · rfl

theorem update_spec (w : World) (g : Schedule) :
    (g.update w).steps = w.steps ++ (g.order.filter (isThere w)).map .nodeUpdated ∧
      (∀ x, (g.update w).isUp x = w.isUp x) ∧ (g.update w).nodes.size = w.nodes.size := by
  rw [update]
  generalize g.order = order
  induction order generalizing w with
  | nil => exact ⟨(List.append_nil _).symm, fun _ => rfl, rfl⟩
  | cons id order ih =>
    obtain ⟨hsteps, hisUp, hsize⟩ := updateNode_spec w id
    obtain ⟨hsteps', hisUp', hsize'⟩ := ih (updateNode w id)
    refine ⟨?_, fun x => (hisUp' x).trans (hisUp x), hsize'.trans hsize⟩
    rw [List.foldl_cons, hsteps', hsteps, isThere_wiring (updateNode_wiring w id), List.filter_cons,
      List.append_assoc]
    cases isThere w id <;> rfl

theorem update_runs {g : Schedule} (h : Runs w g.order) : Runs (g.update w) g.order := by
  obtain ⟨hsteps, hisUp, hsize⟩ := update_spec w g
  have hwiring := update_wiring w g
  have hsame : (g.update w).isUp = w.isUp := funext hisUp
  refine ⟨h.tree.sameTree hwiring.sameTree, h.distinct, fun x hx => by rw [hsize]; exact h.known x hx,
    fun x => by rw [hsame, isThere_wiring hwiring, h.isUp], ?_⟩
  rw [hsteps, course_append, h.course_eq, Option.bind_some, hsame]
  refine course_updates fun x hx => (h.mem_course x).mpr ((h.isUp x).mpr ?_)
  exact List.mem_filter.mp hx

/-- Measuring a frame changes nothing about it. -/
theorem updateTimed_world (g : Schedule) (w : World) (p : Profile) (t : FrameTiming) :
    (g.updateTimed w p t).1 = g.update w := by
  rw [updateTimed, update]
  generalize 0 = start
  generalize g.order = order
  induction order generalizing w p start with
  | nil => rfl
  | cons id order ih => exact ih (updateNode w id) _ _

/-! ## Tearing down -/

theorem disconnect_same (w : World) (order : List NodeId) :
    (order.foldl (fun w id => w.modifyNode id Node.disconnect) w).steps = w.steps ∧
      ∀ x, (order.foldl (fun w id => w.modifyNode id Node.disconnect) w).isUp x = w.isUp x := by
  induction order generalizing w with
  | nil => exact ⟨rfl, fun _ => rfl⟩
  | cons id order ih =>
    obtain ⟨hsteps, hisUp⟩ := ih (w.modifyNode id Node.disconnect)
    exact ⟨hsteps.trans (w.steps_modifyNode id _),
      fun x => (hisUp x).trans (w.isUp_modifyNode id (f := Node.disconnect) (fun _ => rfl) x)⟩

/-- Tearing down destroys what is set up, the latest first. -/
theorem tearDown_runs {g : Schedule} (h : Runs w g.order) : Runs (g.tearDown w) [] ∧
    (g.tearDown w).steps = w.steps ++ (g.order.reverse.filter w.isUp).map .nodeDestroyed := by
  obtain ⟨destroyed, hdestroyed⟩ := takeDown_takesDown w g.order
  obtain ⟨hsteps, hisUp⟩ := disconnect_same (takeDown w g.order) g.order
  have hall := hdestroyed.eq_filter (List.nodup_reverse.mpr h.distinct)
  have hafter : (g.tearDown w).steps =
      w.steps ++ (g.order.reverse.filter w.isUp).map .nodeDestroyed := by
    rw [tearDown, steps_record _ rfl, hsteps, hdestroyed.steps, hall]
  refine ⟨.of_down (h.tree.sameTree (tearDown_tree w g)) (fun x => ?_) ?_, hafter⟩
  · rw [tearDown, isUp_record, hisUp, ← Bool.not_eq_true, hdestroyed.isUp, List.mem_reverse]
    exact fun ⟨hx, hnot⟩ => hnot ((h.isUp x).mp hx).1
  · rw [hafter, course_append, h.course_eq]
    exact course_destroys _

end FrameGraph.Schedule
