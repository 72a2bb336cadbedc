import FrameGraph.Proofs.World.Reached
import FrameGraph.Proofs.World.Resolution
import Mathlib.Logic.Function.Iterate

/-!
# Names on the way

A path is found along parents, from a member up to the root, and it is resolved along entries, from
the root down. In an ownership tree both are the same way: an entry has the name of what it is for,
and the scope that has the entry is the recorded parent. Parents are older, so the way up ends.
-/
namespace FrameGraph.World

variable {w : World} {x p : ScopeId} {names : List String} {m : Member}

/-- The scope that a scope has as its parent. -/
def parent? (w : World) (x : ScopeId) : Option ScopeId := (w.scope? x).bind Scope.parent

/-- The names of the scopes below the root that are met on the way up from a scope, the highest
first. -/
inductive NamesDown (w : World) : ScopeId → List String → Prop
  | root : NamesDown w .root []
  | step {x p : ScopeId} {s : Scope} {names : List String} (there : w.scope? x = some s)
    (parent : s.parent = some p) (above : NamesDown w p names) :
    NamesDown w x (names ++ [s.name])

/-- The names on the way from the root to a node or a scope below it, along recorded parents, and the
last of these parents. -/
inductive Chained (w : World) : Member → ScopeId → List String → Prop
  | node {x : NodeId} {n : Node} {names : List String} (there : w.node? x = some n)
    (above : NamesDown w n.parent names) : Chained w (.node x) n.parent (names ++ [n.name])
  | scope {x p : ScopeId} {s : Scope} {names : List String} (there : w.scope? x = some s)
    (parent : s.parent = some p) (above : NamesDown w p names) :
    Chained w (.scope x) p (names ++ [s.name])

/-- Parents are older than what they hold. -/
def Aged (w : World) : Prop := ∀ x s p, w.scope? x = some s → s.parent = some p → p.index < x.index

/-- No scope has the empty name, except for the root. -/
def Named (w : World) : Prop := ∀ x s, w.scope? x = some s → x ≠ .root → s.name ≠ ""

/-! ## The way up -/

theorem parent?_eq_some : w.parent? x = some p ↔ ∃ s, w.scope? x = some s ∧ s.parent = some p := by
  rw [parent?, Option.bind_eq_some_iff]

namespace Aged

theorem parent?_lt (h : w.Aged) (hp : w.parent? x = some p) : p.index < x.index := by
  obtain ⟨s, hs, hparent⟩ := parent?_eq_some.mp hp
  exact h x s p hs hparent

theorem parent?_root (h : w.Aged) : w.parent? .root = none :=
  Option.eq_none_iff_forall_ne_some.mpr fun _ hp => Nat.not_lt_zero _ (h.parent?_lt hp)

/-- From parent to parent the way up leaves the scopes after at most as many steps as the number of
the first tells. -/
theorem ends (h : w.Aged) (x : ScopeId) :
    ∃ steps ≤ x.index + 1, (fun place => place.bind w.parent?)^[steps] (some x) = none := by
  induction hi : x.index using Nat.strongRecOn generalizing x with
  | ind i ih =>
    subst hi
    cases hp : w.parent? x with
    | none => exact ⟨1, Nat.le_add_left 1 _, hp⟩
    | some p =>
      have hlt := h.parent?_lt hp
      obtain ⟨steps, hsteps, hnone⟩ := ih p.index hlt p rfl
      refine ⟨steps + 1, by omega, ?_⟩
      rw [Function.iterate_succ_apply, Option.bind_some, hp, hnone]

/-- The way up never stops short of a parent. -/
theorem namesUp_eq (h : w.Aged) (x : ScopeId) : w.namesUp x =
    match (w.scope? x).bind fun s => s.parent.map fun parent => (s.name, parent) with
    | some (name, parent) => name :: w.namesUp parent
    | none => [] := by
  rw [namesUp]
  cases hup : (w.scope? x).bind fun s => s.parent.map fun parent => (s.name, parent) with
  | none => rfl
  | some above =>
    obtain ⟨s, hs, hp⟩ := Option.bind_eq_some_iff.mp hup
    obtain ⟨p, hparent, rfl⟩ := Option.map_eq_some_iff.mp hp
    exact if_pos (h x s p hs hparent)

theorem namesUp_of_parent (h : w.Aged) {s : Scope} (hs : w.scope? x = some s)
    (hp : s.parent = some p) : w.namesUp x = s.name :: w.namesUp p := by
  rw [h.namesUp_eq, hs, Option.bind_some, hp]
  rfl

theorem namesUp_root (h : w.Aged) : w.namesUp .root = [] := by
  have hnone := h.parent?_root
  rw [h.namesUp_eq]
  cases hs : w.scope? .root with
  | none => rfl
  | some s =>
    rw [parent?, hs, Option.bind_some] at hnone
    rw [Option.bind_some, hnone]
    rfl

theorem namesUp_reverse (h : w.Aged) (hx : NamesDown w x names) :
    (w.namesUp x).reverse = names := by
  induction hx with
  | root => rw [h.namesUp_root, List.reverse_nil]
  | step hs hp _ ih => rw [h.namesUp_of_parent hs hp, List.reverse_cons, ih]

theorem scopePath_of_namesDown (h : w.Aged) (hx : NamesDown w x names) :
    w.scopePath x = ".".intercalate names := by
  rw [scopePath, h.namesUp_reverse hx]

theorem scopePath_of_chained (h : w.Aged) (hx : Chained w (.scope x) p names) :
    w.scopePath x = ".".intercalate names := by
  cases hx with
  | scope hs hp above => exact h.scopePath_of_namesDown (.step hs hp above)

end Aged

theorem NamesDown.ne_empty (ha : w.Aged) (hn : w.Named) (h : NamesDown w x names) :
    ∀ name ∈ names, name ≠ "" := by
  induction h with
  | root => exact fun _ hname => (List.not_mem_nil hname).elim
  | @step x p s names hs hp _ ih =>
    have hroot : x ≠ .root := by
      rintro rfl
      exact Nat.not_lt_zero _ (ha _ s p hs hp)
    refine List.forall_mem_append.mpr ⟨ih, fun name hname => ?_⟩
    rw [List.mem_singleton.mp hname]
    exact hn x s hs hroot

theorem intercalate_isEmpty (h : ∀ name ∈ names, name ≠ "") :
    (".".intercalate names).isEmpty = true ↔ names = [] := by
  rw [String.isEmpty_iff]
  constructor
  · intro hempty
    cases names with
    | nil => rfl
    | cons name rest =>
      have hname := h name List.mem_cons_self
      cases rest with
      | nil => exact absurd (String.intercalate_singleton.symm.trans hempty) hname
      | cons next rest =>
        rw [String.intercalate_cons_cons, String.append_eq_empty_iff,
          String.append_eq_empty_iff] at hempty
        exact absurd hempty.1.1 hname
  · rintro rfl
    exact String.intercalate_nil

/-- If no scope has the empty name, then nothing is lost between the root and a node. -/
theorem nodePath_of_chained (ha : w.Aged) (hn : w.Named) {x : NodeId}
    (hx : Chained w (.node x) p names) : w.nodePath x = ".".intercalate names := by
  cases hx with
  | @node _ n names hnode above =>
    rw [nodePath, hnode]
    simp only [ha.scopePath_of_namesDown above]
    have hempty := intercalate_isEmpty (above.ne_empty ha hn)
    by_cases hnil : names = []
    · rw [if_pos (hempty.mpr hnil), hnil, List.nil_append, String.intercalate_singleton]
    · rw [if_neg (mt hempty.mp hnil),
        String.intercalate_append_of_ne_nil hnil (List.cons_ne_nil _ _),
        String.intercalate_singleton]

/-! ## The way down -/

namespace Tree

theorem aged (h : w.Tree) : w.Aged := by
  intro x s p hs hp
  refine Forest.older h x s.name p ?_
  rw [scopeKey?, hs, Option.map_some, hp]

theorem holds_scope_iff (h : w.Tree) {name : String} : w.Holds p name (.scope x) ↔
    ∃ s, w.scope? x = some s ∧ s.parent = some p ∧ s.name = name := by
  rw [Forest.holds_scope h, scopeKey?, Option.map_eq_some_iff]
  constructor
  · rintro ⟨-, s, hs, hkey⟩
    exact ⟨s, hs, (Prod.mk.inj hkey).2, (Prod.mk.inj hkey).1⟩
  · rintro ⟨s, hs, hp, rfl⟩
    refine ⟨?_, s, hs, by rw [hp]⟩
    rintro rfl
    exact Nat.not_lt_zero _ (h.aged _ s p hs hp)

theorem holds_node_iff (h : w.Tree) {name : String} {x : NodeId} : w.Holds p name (.node x) ↔
    ∃ n, w.node? x = some n ∧ n.parent = p ∧ n.name = name := by
  rw [Forest.holds_node h, nodeKey?, Option.map_eq_some_iff]
  simp only [Prod.mk.injEq, and_comm]

/-- The entries lead down where the parents lead up. -/
theorem descends_iff (h : w.Tree) : Descends w .root names x ↔ NamesDown w x names := by
  constructor
  · intro hdown
    induction names using List.reverseRecOn generalizing x with
    | nil =>
      cases hdown
      exact .root
    | append_singleton front name ih =>
      obtain ⟨p, hfront, hheld⟩ := Descends.concat_iff.mp hdown
      obtain ⟨s, hs, hp, rfl⟩ := h.holds_scope_iff.mp hheld
      exact .step hs hp (ih hfront)
  · intro hup
    induction hup with
    | root => exact .here _
    | step hs hp _ ih =>
      exact Descends.concat_iff.mpr ⟨_, ih, h.holds_scope_iff.mpr ⟨_, hs, hp, rfl⟩⟩

/-- A path from the root leads to a node or a scope exactly if it is its chain of names, and then the
scope that has the entry is the parent. -/
theorem resolve_iff_chained (h : w.Tree) {r : Resolved} (howned : r.member.isOwned = true) :
    w.resolve .root names = some r ↔ Chained w r.member r.container names := by
  obtain ⟨m, p⟩ := r
  rw [resolve_iff]
  constructor
  · rintro ⟨front, name, rfl, hfront, hheld⟩
    have habove := h.descends_iff.mp hfront
    cases m with
    | node x =>
      obtain ⟨n, hn, rfl, rfl⟩ := h.holds_node_iff.mp hheld
      exact .node hn habove
    | scope x =>
      obtain ⟨s, hs, hp, rfl⟩ := h.holds_scope_iff.mp hheld
      exact .scope hs hp habove
    | nodeType t => cases howned
    | scopeType t => cases howned
  · intro hchained
    cases hchained with
    | node hn above =>
      exact ⟨_, _, rfl, h.descends_iff.mpr above, h.holds_node_iff.mpr ⟨_, hn, rfl, rfl⟩⟩
    | scope hs hp above =>
      exact ⟨_, _, rfl, h.descends_iff.mpr above, h.holds_scope_iff.mpr ⟨_, hs, hp, rfl⟩⟩

/-- Some chain of names leads to whatever is there. -/
theorem exists_chained (h : w.Tree) (hm : w.Lives m) (hroot : m ≠ .scope .root) :
    ∃ p names, Chained w m p names := by
  have hscope {x : ScopeId} (hx : Under w (.scope .root) (.scope x)) :
      ∃ names, Descends w .root names x := by
    generalize hx' : Member.scope x = m at hx
    induction hx generalizing x with
    | top =>
      cases hx'
      exact ⟨[], .here _⟩
    | entry _ hheld ih =>
      subst hx'
      obtain ⟨names, hnames⟩ := ih rfl
      exact ⟨_, Descends.concat_iff.mpr ⟨_, hnames, hheld⟩⟩
  cases h.under_root hm with
  | top => exact absurd rfl hroot
  | @entry p name _ above hheld =>
    have howned : m.isOwned = true := by
      cases m with
      | node | scope => rfl
      | nodeType | scopeType => exact hm.elim
    obtain ⟨names, hnames⟩ := hscope above
    have hr : w.resolve .root (names ++ [name]) = some ⟨m, p⟩ :=
      resolve_concat_iff.mpr ⟨hnames, hheld⟩
    exact ⟨p, _, (h.resolve_iff_chained howned).mp hr⟩

theorem chained_unique (h : w.Tree) {p' : ScopeId} {names' : List String}
    (hc : Chained w m p names) (hc' : Chained w m p' names') : p = p' ∧ names = names' := by
  have howned : m.isOwned = true := by cases hc <;> rfl
  have hr : w.resolve .root names = some ⟨m, p⟩ := (h.resolve_iff_chained howned).mpr hc
  have hr' : w.resolve .root names' = some ⟨m, p'⟩ := (h.resolve_iff_chained howned).mpr hc'
  obtain rfl := resolve_injective (Forest.orderly h) hr hr' rfl howned
  rw [hr] at hr'
  cases hr'
  exact ⟨rfl, rfl⟩

end Tree

/-! ## Worlds that can be reached -/

/-- Paths and resolution are inverse to each other. -/
structure Addressed (w : World) : Prop where
  /-- Whatever is there has one chain of names, except for the root. -/
  chain : ∀ m, w.Lives m → m ≠ .scope .root →
    ∃ p names, Chained w m p names ∧ ∀ p' names', Chained w m p' names' → p' = p ∧ names' = names
  /-- The chain leads to it and to nothing else, and what a path leads to has it as its chain. -/
  resolve : ∀ r names, r.member.isOwned = true →
    (w.resolve .root names = some r ↔ Chained w r.member r.container names)
  resolveScope : ∀ x p names, Chained w (.scope x) p names → w.resolveScope .root names = some x
  scopePath : ∀ x p names, Chained w (.scope x) p names → w.scopePath x = ".".intercalate names
  nodePath : ∀ x p names, Chained w (.node x) p names → w.nodePath x = ".".intercalate names
  aged : w.Aged
  /-- The way up is followed to its end, and it has one. -/
  namesUp : ∀ x s p, w.scope? x = some s → s.parent = some p →
    w.namesUp x = s.name :: w.namesUp p
  ends : ∀ x : ScopeId, ∃ steps ≤ x.index + 1,
    (fun place => place.bind w.parent?)^[steps] (some x) = none

theorem Tree.addressed (h : w.Tree) (hn : w.Named) : w.Addressed where
  chain m hm hroot := by
    obtain ⟨p, names, hc⟩ := h.exists_chained hm hroot
    exact ⟨p, names, hc, fun p' names' hc' => h.chained_unique hc' hc⟩
  resolve _ _ howned := h.resolve_iff_chained howned
  resolveScope x p names hc := by
    have hr : w.resolve .root names = some ⟨.scope x, p⟩ := (h.resolve_iff_chained rfl).mpr hc
    cases hc with
    | scope => rw [World.resolveScope, if_neg (by simp), hr]
  scopePath _ _ _ hc := h.aged.scopePath_of_chained hc
  nodePath _ _ _ hc := nodePath_of_chained h.aged hn hc
  aged := h.aged
  namesUp _ _ _ hs hp := h.aged.namesUp_of_parent hs hp
  ends := h.aged.ends

/-- In every world that can be reached from a new one, paths from the root and resolution are inverse
to each other if no scope has the empty name. -/
theorem reached_addressed (journal : Array Event) (ops : List Operation)
    (hops : ∀ op ∈ ops, op.Confined) (hnamed : (ops.foldl Operation.run (World.new journal)).Named) :
    (ops.foldl Operation.run (World.new journal)).Addressed :=
  ((new_tree journal).foldl_run ops hops).addressed hnamed

/-- A node in a scope in a scope, and another one in the root. -/
def nestedNode : List Operation :=
  [.change (.makeScope .root "outer" (.plain "group") .root []),
    .change (.makeScope ⟨1⟩ "inner" (.plain "group") .root []),
    .change (.makeNode ⟨2⟩ "node" { name := "plain" } .root []),
    .change (.makeNode .root "node" { name := "plain" } .root [])]

theorem reached_addressed_nestedNode :
    let w := nestedNode.foldl Operation.run (World.new #[])
    (∀ op ∈ nestedNode, op.Confined) ∧ w.Named ∧ w.Addressed ∧
      (w.node? ⟨0⟩).isSome = true ∧ w.nodePath ⟨0⟩ = "outer.inner.node" ∧
      w.nodePath ⟨1⟩ = "node" ∧ w.scopePath ⟨2⟩ = "outer.inner" := by
  have hplain (name : String) : ScopeType.Confined (.plain name) := fun _ => .done
  have hconfined : ∀ op ∈ nestedNode, op.Confined := by
    simp [nestedNode, Operation.Confined, Change.Confined, hplain]
  have hall : ∀ place ∈ (nestedNode.foldl Operation.run (World.new #[])).scopes.toList,
      ∀ s ∈ place, s.name ≠ "" := by decide +kernel
  have hnamed : (nestedNode.foldl Operation.run (World.new #[])).Named := fun x s hs _ =>
    hall (some s) (Array.mem_toList_iff.mpr (Array.mem_of_getElem? (Option.join_eq_some_iff.mp hs)))
      s rfl
  exact ⟨hconfined, hnamed, reached_addressed #[] nestedNode hconfined hnamed, by decide +kernel,
    by decide +kernel, by decide +kernel, by decide +kernel⟩

end FrameGraph.World
