import FrameGraph.Proofs.Behaviour.Confinement
import FrameGraph.Proofs.Table.Validity
import FrameGraph.Proofs.World.Places

/-!
# Ownership

Every node and every scope is held by the entry with its name in the scope that it has as its
parent, and every entry holds what is there. While a scope is being set up it is not held yet; it is
loose, as the root always is. Parents are older than what they hold, so the entries form a forest
over the loose scopes.
-/
namespace FrameGraph.World

variable {w w' : World} {loose : ScopeId → Prop}

/-- The name of a node and the scope that it has as its parent. -/
def nodeKey? (w : World) (x : NodeId) : Option (String × ScopeId) :=
  (w.node? x).map fun n => (n.name, n.parent)

/-- The name of a scope and the scope that it has as its parent. -/
def scopeKey? (w : World) (x : ScopeId) : Option (String × Option ScopeId) :=
  (w.scope? x).map fun s => (s.name, s.parent)

/-- A scope that is there has the member under the name. -/
def Holds (w : World) (p : ScopeId) (name : String) (m : Member) : Prop :=
  ∃ s, w.scope? p = some s ∧ s.member? name = some m

/-- The tables of all scopes are valid. -/
def Tabled (w : World) : Prop := ∀ x s, w.scope? x = some s → s.members.Valid

/-- What holds of the entries while some scopes are held by none. -/
structure Forest (w : World) (loose : ScopeId → Prop) : Prop where
  tabled : w.Tabled
  holds_node : ∀ p name x, w.Holds p name (.node x) ↔ w.nodeKey? x = some (name, p)
  holds_scope : ∀ p name x,
    w.Holds p name (.scope x) ↔ ¬loose x ∧ w.scopeKey? x = some (name, some p)
  rooted : ∀ x name, w.scopeKey? x = some (name, none) → loose x
  older : ∀ x name p, w.scopeKey? x = some (name, some p) → p.index < x.index
  known : ∀ x, loose x → x.index < w.scopes.size
  types : ∀ p name t, w.Holds p name (.scopeType t) → ScopeType.Confined t

theorem nodeKey?_eq_none {x : NodeId} : w.nodeKey? x = none ↔ w.node? x = none := by
  simp [nodeKey?]

theorem scopeKey?_eq_none {x : ScopeId} : w.scopeKey? x = none ↔ w.scope? x = none := by
  simp [scopeKey?]

theorem Holds.scope_isSome {p : ScopeId} {name : String} {m : Member} (h : w.Holds p name m) :
    ∃ s, w.scope? p = some s :=
  ⟨h.choose, h.choose_spec.1⟩

theorem Holds.unique {p : ScopeId} {name : String} {m m' : Member} (h : w.Holds p name m)
    (h' : w.Holds p name m') : m = m' := by
  obtain ⟨s, hs, hm⟩ := h
  obtain ⟨s', hs', hm'⟩ := h'
  rw [hs] at hs'
  cases hs'
  rw [hm] at hm'
  exact Option.some.inj hm'

theorem holds_of_scope? {p : ScopeId} (h : w'.scope? p = w.scope? p) (name : String) (m : Member) :
    w'.Holds p name m ↔ w.Holds p name m := by
  rw [Holds, Holds, h]

theorem Holds.mem_toList {p : ScopeId} {s : Scope} (ht : w.Tabled) (hs : w.scope? p = some s)
    {name : String} {m : Member} : w.Holds p name m ↔ (name, m) ∈ s.members.toList := by
  rw [← Table.get?_eq_some_iff (ht p s hs).sound]
  constructor
  · rintro ⟨s', hs', hm⟩
    rw [hs] at hs'
    cases hs'
    exact hm
  · exact fun hm => ⟨s, hs, hm⟩

/-! ## Changes that leave the tree as it is -/

/-- Names, parents and members are the same in both worlds. -/
structure SameTree (w w' : World) : Prop where
  nodeKey : ∀ x, w'.nodeKey? x = w.nodeKey? x
  scopeKey : ∀ x, w'.scopeKey? x = w.scopeKey? x
  members : ∀ x, (w'.scope? x).map Scope.members = (w.scope? x).map Scope.members
  size : w'.scopes.size = w.scopes.size

theorem SameTree.refl (w : World) : SameTree w w :=
  ⟨fun _ => rfl, fun _ => rfl, fun _ => rfl, rfl⟩

theorem SameTree.trans {w'' : World} (h : SameTree w w') (h' : SameTree w' w'') :
    SameTree w w'' :=
  ⟨fun x => (h'.nodeKey x).trans (h.nodeKey x), fun x => (h'.scopeKey x).trans (h.scopeKey x),
    fun x => (h'.members x).trans (h.members x), h'.size.trans h.size⟩

theorem SameTree.of_scopes (hscopes : w'.scopes = w.scopes)
    (hnodes : ∀ x, w'.nodeKey? x = w.nodeKey? x) : SameTree w w' := by
  have hscope : ∀ x, w'.scope? x = w.scope? x := fun x => by rw [scope?, scope?, hscopes]
  exact ⟨hnodes, fun x => by rw [scopeKey?, scopeKey?, hscope], fun x => by rw [hscope],
    by rw [hscopes]⟩

theorem SameTree.record (w : World) (e : Event) : SameTree w (w.record e) :=
  .of_scopes rfl fun _ => rfl

theorem SameTree.modifyNode (w : World) (id : NodeId) {f : Node → Node}
    (hf : ∀ n, (f n).name = n.name ∧ (f n).parent = n.parent) :
    SameTree w (w.modifyNode id f) := by
  refine .of_scopes (w.modifyNode_scopes id f) fun x => ?_
  rw [nodeKey?, nodeKey?, node?_modifyNode]
  by_cases hx : x = id
  · rw [if_pos hx, hx, Option.map_map]
    exact Option.map_congr fun n _ => Prod.ext (hf n).1 (hf n).2
  · rw [if_neg hx]

theorem SameTree.modifyScope (w : World) (id : ScopeId) {f : Scope → Scope}
    (hf : ∀ s, (f s).name = s.name ∧ (f s).parent = s.parent ∧ (f s).members = s.members) :
    SameTree w (w.modifyScope id f) := by
  have hscope (x : ScopeId) {α : Type} {g : Scope → α} (hg : ∀ s, g (f s) = g s) :
      ((w.modifyScope id f).scope? x).map g = (w.scope? x).map g := by
    rw [scope?_modifyScope]
    by_cases hx : x = id
    · rw [if_pos hx, hx, Option.map_map]
      exact Option.map_congr fun s _ => hg s
    · rw [if_neg hx]
  exact ⟨fun x => by rw [nodeKey?, nodeKey?, node?_modifyScope],
    fun x => hscope x fun s => Prod.ext (hf s).1 (hf s).2.1, fun x => hscope x fun s => (hf s).2.2,
    w.modifyScope_size id f⟩

theorem SameTree.scope_of_scope (h : SameTree w w') {x : ScopeId} {s : Scope}
    (hs : w'.scope? x = some s) : ∃ t, w.scope? x = some t ∧ t.members = s.members := by
  have hmembers := h.members x
  rw [hs, Option.map_some, eq_comm, Option.map_eq_some_iff] at hmembers
  exact hmembers

theorem SameTree.symm (h : SameTree w w') : SameTree w' w :=
  ⟨fun x => (h.nodeKey x).symm, fun x => (h.scopeKey x).symm, fun x => (h.members x).symm,
    h.size.symm⟩

theorem SameTree.holds (h : SameTree w w') (p : ScopeId) (name : String) (m : Member) :
    w'.Holds p name m ↔ w.Holds p name m := by
  have hmono {w w' : World} (h : SameTree w w') (hm : w'.Holds p name m) : w.Holds p name m := by
    obtain ⟨s, hs, hm⟩ := hm
    obtain ⟨t, ht, hmembers⟩ := h.scope_of_scope hs
    exact ⟨t, ht, by rwa [Scope.member?, hmembers]⟩
  exact ⟨hmono h, hmono h.symm⟩

theorem Tabled.sameTree (h : w.Tabled) (hs : SameTree w w') : w'.Tabled := by
  intro x s hx
  obtain ⟨t, ht, hmembers⟩ := hs.scope_of_scope hx
  exact hmembers ▸ h x t ht

theorem Forest.sameTree (h : Forest w loose) (hs : SameTree w w') : Forest w' loose where
  tabled := h.tabled.sameTree hs
  holds_node p name x := by rw [hs.holds, hs.nodeKey, h.holds_node]
  holds_scope p name x := by rw [hs.holds, hs.scopeKey, h.holds_scope]
  rooted x name hx := h.rooted x name (by rwa [← hs.scopeKey])
  older x name p hx := h.older x name p (by rwa [← hs.scopeKey])
  known x hx := by rw [hs.size]; exact h.known x hx
  types p name t ht := h.types p name t ((hs.holds p name _).mp ht)

/-! ## Adding an entry -/

/-- The second world has an entry that the first has not. -/
structure Adds (w w' : World) (p : ScopeId) (name : String) (m : Member) : Prop where
  nodes : w'.nodes = w.nodes
  others : ∀ x, x ≠ p → w'.scope? x = w.scope? x
  scopeKey : ∀ x, w'.scopeKey? x = w.scopeKey? x
  holds : ∀ q n k, w'.Holds q n k ↔ w.Holds q n k ∨ q = p ∧ n = name ∧ k = m
  tabled : w'.Tabled
  size : w'.scopes.size = w.scopes.size

theorem isFree_iff (ht : w.Tabled) (p : ScopeId) (name : String) :
    w.isFree p name = true ↔ ∃ s, w.scope? p = some s ∧ s.member? name = none := by
  rw [isFree]
  cases hs : w.scope? p with
  | none => simp
  | some s =>
    show (!s.members.contains name) = true ↔ _
    rw [Table.contains_eq (ht p s hs).sound]
    simp [Scope.member?]

/-- A name that is free in a scope can be taken. -/
theorem insertMember_adds (ht : w.Tabled) {p : ScopeId} {name : String}
    (hfree : w.isFree p name = true) (m : Member) :
    ∃ w', w.insertMember p name m = .ok w' ∧ Adds w w' p name m := by
  obtain ⟨s, hs, hnone⟩ := (isFree_iff ht p name).mp hfree
  obtain ⟨t, hinsert, hvalid, hget⟩ := (ht p s hs).get?_insert hnone m
  have hscope (x : ScopeId) : (w.setScope p (some { s with members := t })).scope? x =
      if x = p then some { s with members := t } else w.scope? x := by
    rw [scope?_setScope]
    simp only [lt_size_of_scope? hs, and_true]
  have hmember (n : String) (k : Member) :
      t.get? n = some k ↔ s.member? n = some k ∨ n = name ∧ k = m := by
    rw [hget n]
    by_cases hn : n = name
    · subst hn
      simp [hnone, eq_comm]
    · simp [hn, Scope.member?]
  refine ⟨w.setScope p (some { s with members := t }), by rw [insertMember, hs]; simp only [hinsert],
    rfl, fun x hx => by rw [hscope, if_neg hx], fun x => ?_, fun q n k => ?_, fun x u hu => ?_,
    w.setScope_size p _⟩
  · rw [scopeKey?, scopeKey?, hscope]
    by_cases hx : x = p
    · rw [if_pos hx, hx, hs]
      rfl
    · rw [if_neg hx]
  · by_cases hq : q = p
    · subst hq
      simp only [Holds, hscope, hs, if_pos, Option.some.injEq, exists_eq_left', true_and]
      exact hmember n k
    · have hsame := (hscope q).trans (if_neg hq)
      simp [holds_of_scope? hsame, hq]
  · rw [hscope] at hu
    by_cases hx : x = p
    · rw [if_pos hx] at hu
      cases hu
      exact hvalid
    · rw [if_neg hx] at hu
      exact ht x u hu

theorem insertMember_scope {p : ScopeId} {name : String} {m : Member}
    (h : w.insertMember p name m = .ok w') :
    ∃ s members, w.scope? p = some s ∧ w'.scope? p = some { s with members } := by
  rw [insertMember] at h
  split at h
  · cases h
  · rename_i s hs
    split at h
    · cases h
    · rename_i members _
      cases h
      exact ⟨s, members, hs, by rw [scope?_setScope, if_pos ⟨rfl, lt_size_of_scope? hs⟩]⟩

theorem insertMember_of_taken (ht : w.Tabled) {p : ScopeId} {name : String}
    (htaken : ¬w.isFree p name = true) (m : Member) :
    w.insertMember p name m = .error (w.taken p name) := by
  rw [insertMember]
  cases hs : w.scope? p with
  | none => rfl
  | some s =>
    cases hget : s.member? name with
    | none => exact absurd ((isFree_iff ht p name).mpr ⟨s, hs, hget⟩) htaken
    | some k => simp only [(ht p s hs).insert_of_some hget]

theorem Adds.node {p : ScopeId} {name : String} {m : Member} (h : Adds w w' p name m)
    (x : NodeId) : w'.node? x = w.node? x := by
  rw [node?, node?, h.nodes]

theorem Adds.nodeKey {p : ScopeId} {name : String} {m : Member} (h : Adds w w' p name m)
    (x : NodeId) : w'.nodeKey? x = w.nodeKey? x := by
  rw [nodeKey?, nodeKey?, h.node]

/-- A type that becomes known is held like any other member, but it is no part of the tree. -/
theorem Forest.addType (h : Forest w loose) {p : ScopeId} {name : String} {m : Member}
    (ha : Adds w w' p name m) (hm : m.isOwned = false)
    (ht : ∀ t, m = .scopeType t → ScopeType.Confined t) : Forest w' loose where
  tabled := ha.tabled
  holds_node q n x := by
    have hne : Member.node x ≠ m := by rintro rfl; cases hm
    simp [ha.holds, ha.nodeKey, h.holds_node, hne]
  holds_scope q n x := by
    have hne : Member.scope x ≠ m := by rintro rfl; cases hm
    simp [ha.holds, ha.scopeKey, h.holds_scope, hne]
  rooted x n hx := h.rooted x n (by rwa [← ha.scopeKey])
  older x n q hx := h.older x n q (by rwa [← ha.scopeKey])
  known x hx := by rw [ha.size]; exact h.known x hx
  types q n t hq := by
    obtain hold | ⟨-, -, hnew⟩ := (ha.holds q n _).mp hq
    · exact h.types q n t hold
    · exact ht t hnew.symm

/-- A loose scope that becomes held under its name by its parent is loose no more. -/
theorem Forest.addScope {p id : ScopeId} {name : String}
    (h : Forest w fun x => x = id ∨ loose x) (ha : Adds w w' p name (.scope id))
    (hkey : w.scopeKey? id = some (name, some p)) (hid : ¬loose id) : Forest w' loose where
  tabled := ha.tabled
  holds_node q n x := by simp [ha.holds, ha.nodeKey, h.holds_node]
  holds_scope q n x := by
    rw [ha.holds, ha.scopeKey, h.holds_scope, Member.scope.injEq]
    by_cases hx : x = id
    · subst hx
      simp only [hkey, hid, true_or, not_true, false_and, false_or, not_false_eq_true, true_and,
        and_true, Option.some.injEq, Prod.mk.injEq]
      rw [eq_comm (a := q), eq_comm (a := n), and_comm]
    · simp [hx]
  rooted x n hx := by
    rw [ha.scopeKey] at hx
    refine (h.rooted x n hx).resolve_left ?_
    rintro rfl
    rw [hkey] at hx
    cases hx
  older x n q hx := h.older x n q (by rwa [← ha.scopeKey])
  known x hx := by rw [ha.size]; exact h.known x (.inr hx)
  types q n t hq := by
    obtain hold | ⟨-, -, hnew⟩ := (ha.holds q n _).mp hq
    · exact h.types q n t hold
    · cases hnew

/-! ## New places -/

theorem nodeKey?_push (w : World) (n : Node) (x : NodeId) :
    nodeKey? { w with nodes := w.nodes.push (some n) } x =
      if x = ⟨w.nodes.size⟩ then some (n.name, n.parent) else w.nodeKey? x := by
  rw [nodeKey?, node?_push]
  split <;> rfl

theorem scopeKey?_push (w : World) (s : Scope) (x : ScopeId) :
    scopeKey? { w with scopes := w.scopes.push (some s) } x =
      if x = ⟨w.scopes.size⟩ then some (s.name, s.parent) else w.scopeKey? x := by
  rw [scopeKey?, scope?_push]
  split <;> rfl

/-- A new scope without members adds no entry. -/
theorem holds_push {s : Scope} (hs : s.members = .empty) (p : ScopeId) (name : String)
    (m : Member) :
    Holds { w with scopes := w.scopes.push (some s) } p name m ↔ w.Holds p name m := by
  by_cases hp : p = ⟨w.scopes.size⟩
  · subst hp
    have hnone : s.member? name = none := by
      rw [Scope.member?, hs]
      exact (Table.get?_eq_none_iff Table.empty_valid.sound).mpr fun v => List.not_mem_nil
    rw [Holds, Holds, scope?_push, if_pos rfl, scope?_next]
    simp [hnone]
  · exact holds_of_scope? ((w.scope?_push (some s) p).trans (if_neg hp)) name m

/-- A new node that is put into its place and then held under its name by its parent. -/
theorem Forest.addNode (h : Forest w loose) {n : Node}
    (ha : Adds { w with nodes := w.nodes.push (some n) } w' n.parent n.name
      (.node ⟨w.nodes.size⟩)) : Forest w' loose where
  tabled := ha.tabled
  holds_node q name x := by
    have hheld : w'.Holds q name (.node x) ↔
        w.Holds q name (.node x) ∨ q = n.parent ∧ name = n.name ∧ x = ⟨w.nodes.size⟩ := by
      rw [ha.holds, Member.node.injEq]
      rfl
    rw [hheld, ha.nodeKey, nodeKey?_push, h.holds_node]
    by_cases hx : x = ⟨w.nodes.size⟩
    · subst hx
      simp only [nodeKey?_eq_none.mpr w.node?_next, reduceCtorEq, false_or, and_true, if_pos,
        Option.some.injEq, Prod.mk.injEq]
      rw [eq_comm (a := q), eq_comm (a := name), and_comm]
    · simp [hx]
  holds_scope q name x := by
    rw [ha.holds, ha.scopeKey]
    simp only [reduceCtorEq, and_false, or_false]
    exact h.holds_scope q name x
  rooted x name hx := h.rooted x name (by rw [ha.scopeKey] at hx; exact hx)
  older x name q hx := h.older x name q (by rw [ha.scopeKey] at hx; exact hx)
  known x hx := by rw [ha.size]; exact h.known x hx
  types q name t hq := by
    obtain hold | ⟨-, -, hnew⟩ := (ha.holds q name _).mp hq
    · exact h.types q name t hold
    · cases hnew

/-- A new scope that nothing holds yet is loose. -/
theorem Forest.pushScope (h : Forest w loose) {s : Scope} {p : ScopeId}
    (hparent : s.parent = some p) (hp : p.index < w.scopes.size) (hs : s.members = .empty) :
    Forest { w with scopes := w.scopes.push (some s) }
      fun x => x = ⟨w.scopes.size⟩ ∨ loose x where
  tabled x t ht := by
    rw [scope?_push] at ht
    by_cases hx : x = ⟨w.scopes.size⟩
    · rw [if_pos hx] at ht
      cases ht
      rw [hs]
      exact Table.empty_valid
    · rw [if_neg hx] at ht
      exact h.tabled x t ht
  holds_node q n x := by
    rw [holds_push hs]
    exact h.holds_node q n x
  holds_scope q n x := by
    rw [holds_push hs, scopeKey?_push, h.holds_scope]
    by_cases hx : x = ⟨w.scopes.size⟩
    · subst hx
      simp [scopeKey?_eq_none.mpr w.scope?_next]
    · simp [hx]
  rooted x n hx := by
    rw [scopeKey?_push] at hx
    by_cases hnew : x = ⟨w.scopes.size⟩
    · exact .inl hnew
    · rw [if_neg hnew] at hx
      exact .inr (h.rooted x n hx)
  older x n q hx := by
    rw [scopeKey?_push] at hx
    by_cases hnew : x = ⟨w.scopes.size⟩
    · rw [if_pos hnew, hparent] at hx
      cases hx
      rw [hnew]
      exact hp
    · rw [if_neg hnew] at hx
      exact h.older x n q hx
  known x hx := by
    show x.index < (w.scopes.push (some s)).size
    rw [Array.size_push]
    obtain rfl | hx := hx
    · exact Nat.lt_succ_self _
    · exact Nat.lt_succ_of_lt (h.known x hx)
  types q n t hq := h.types q n t ((holds_push hs q n _).mp hq)

end FrameGraph.World
