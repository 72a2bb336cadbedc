import FrameGraph.Proofs.World.Pruning
import FrameGraph.World.Create

/-!
# Making members in the tree

What is made in a scope changes no older scope. So while a scope is set up by a confined program,
the scope that is to hold it stays as it was, and the name it is to get there stays free; when the
setup fails, what it made lies under the scope that is given up.
-/
namespace FrameGraph.World

variable {w w' w'' : World} {loose : ScopeId → Prop}

/-- Older scopes than the given one are as they were, and it has its name and its parent. -/
structure StaysInside (base : ScopeId) (w w' : World) : Prop where
  older : ∀ x : ScopeId, x.index < base.index → w'.scope? x = w.scope? x
  key : w'.scopeKey? base = w.scopeKey? base
  size : w.scopes.size ≤ w'.scopes.size

namespace StaysInside

variable {base : ScopeId}

theorem refl (base : ScopeId) (w : World) : StaysInside base w w :=
  ⟨fun _ _ => rfl, rfl, Nat.le_refl _⟩

theorem trans (h : StaysInside base w w') (h' : StaysInside base w' w'') :
    StaysInside base w w'' :=
  ⟨fun x hx => (h'.older x hx).trans (h.older x hx), h'.key.trans h.key,
    Nat.le_trans h.size h'.size⟩

/-- What stays inside a scope stays inside every older one. -/
theorem outward {p : ScopeId} (h : StaysInside p w w') (hp : base.index ≤ p.index) :
    StaysInside base w w' := by
  refine ⟨fun x hx => h.older x (Nat.lt_of_lt_of_le hx hp), ?_, h.size⟩
  obtain hlt | heq := Nat.lt_or_eq_of_le hp
  · rw [scopeKey?, scopeKey?, h.older base hlt]
  · rw [ScopeId.index_eq_iff.mp heq]
    exact h.key

theorem of_scopes (base : ScopeId) (hscopes : w'.scopes = w.scopes) : StaysInside base w w' := by
  have hscope : ∀ x, w'.scope? x = w.scope? x := fun x => by rw [scope?, scope?, hscopes]
  exact ⟨fun x _ => hscope x, by rw [scopeKey?, scopeKey?, hscope],
    Nat.le_of_eq (by rw [hscopes])⟩

theorem of_adds {p : ScopeId} {name : String} {m : Member} (h : Adds w w' p name m) :
    StaysInside p w w' :=
  ⟨fun x hx => h.others x fun heq => by rw [heq] at hx; exact Nat.lt_irrefl _ hx,
    h.scopeKey p, Nat.le_of_eq h.size.symm⟩

theorem modifyScope (w : World) (id : ScopeId) {f : Scope → Scope}
    (hf : ∀ s, (f s).name = s.name ∧ (f s).parent = s.parent ∧ (f s).members = s.members) :
    StaysInside id w (w.modifyScope id f) := by
  refine ⟨fun x hx => ?_, (SameTree.modifyScope w id hf).scopeKey id, ?_⟩
  · rw [scope?_modifyScope, if_neg]
    rintro rfl
    exact Nat.lt_irrefl _ hx
  · exact Nat.le_of_eq (w.modifyScope_size id f).symm

end StaysInside

theorem Under.index_le (hr : w.Ranked) {a b : ScopeId} (h : Under w (.scope a) (.scope b)) :
    a.index ≤ b.index :=
  h.level_le hr.leveled

/-- Taking a scope down changes no older scope. -/
theorem Cleared.older {id : ScopeId} (h : Cleared w w' [.scope id]) (hr : w.Ranked) {x : ScopeId}
    (hx : x.index < id.index) : w'.scope? x = w.scope? x := by
  obtain hnone | hsame := h.scope x
  · cases hs : w.scope? x with
    | none => exact hnone
    | some s =>
      obtain ⟨t, ht⟩ | ⟨top, htop, hunder⟩ := h.under (.scope x) ⟨s, hs⟩
      · rw [hnone] at ht
        cases ht
      · rw [List.mem_singleton.mp htop] at hunder
        exact absurd hx (Nat.not_lt_of_le (hunder.index_le hr))
  · exact hsame

/-! ## Nodes and types -/

theorem makeNode_tree (h : Forest w loose) (p : ScopeId) (name : String) (type : NodeType)
    (owner : ScopeId) (params : List Value) :
    Forest (w.makeNode p name type owner params).1 loose ∧
      StaysInside p w (w.makeNode p name type owner params).1 := by
  rw [makeNode]
  by_cases hfree : w.isFree p name = true
  · rw [if_pos hfree]
    have hpushed : Tabled { w with nodes := w.nodes.push (some (.new name type owner p params)) } :=
      h.tabled
    obtain ⟨w', hinsert, hadds⟩ := insertMember_adds hpushed (p := p) hfree (.node ⟨w.nodes.size⟩)
    simp only [hinsert]
    have hforest : Forest w' loose := h.addNode hadds
    have hpush : StaysInside p w
        { w with nodes := w.nodes.push (some (.new name type owner p params)) } := .of_scopes p rfl
    exact ⟨hforest.sameTree (.record _ _), (hpush.trans (.of_adds hadds)).trans (.of_scopes p rfl)⟩
  · rw [if_neg hfree]
    exact ⟨h, .refl p w⟩

theorem define_tree (h : Forest w loose) (p : ScopeId) (name : String) {m : Member}
    (hm : m.isOwned = false) (ht : ∀ t, m = .scopeType t → ScopeType.Confined t) :
    Forest (w.define p name m).1 loose ∧ StaysInside p w (w.define p name m).1 := by
  rw [define]
  by_cases hfree : w.isFree p name = true
  · obtain ⟨w', hinsert, hadds⟩ := insertMember_adds h.tabled hfree m
    simp only [hinsert]
    exact ⟨h.addType hadds hm ht, .of_adds hadds⟩
  · rw [insertMember_of_taken h.tabled hfree m]
    exact ⟨h, .refl p w⟩

/-! ## Scopes -/

theorem makeScope_eq (w : World) (p : ScopeId) (name : String) (owner : ScopeId)
    (params : List Value) (type : ScopeType) : w.makeScope p name owner params type =
      if w.isFree p name then
        let scope := Scope.new name type (some owner) (some p) params
        match runSetup { w with scopes := w.scopes.push (some scope) } ⟨w.scopes.size⟩
            type.setup with
        | (w', .ok ()) =>
          (w'.record (.life (.scopeSetUp ⟨w.scopes.size⟩ true))).settle ⟨w.scopes.size⟩ p name
            type.name
        | (w', .error reason) =>
          (w'.record (.life (.scopeSetUp ⟨w.scopes.size⟩ false))).abandon ⟨w.scopes.size⟩ name
            reason
      else (w, .error (w.taken p name)) := by
  obtain ⟨typeName, specs, setup, destroy⟩ := type
  unfold makeScope
  rfl

/-- A new scope is there, and nothing holds it yet. -/
def opened (w : World) (p : ScopeId) (name : String) (owner : ScopeId) (params : List Value)
    (type : ScopeType) : World :=
  { w with scopes := w.scopes.push (some (.new name type (some owner) (some p) params)) }

theorem scope?_opened (p : ScopeId) (name : String) (owner : ScopeId) (params : List Value)
    (type : ScopeType) {x : ScopeId} (hx : x ≠ ⟨w.scopes.size⟩) :
    (w.opened p name owner params type).scope? x = w.scope? x := by
  rw [opened, scope?_push, if_neg hx]

theorem makeScope_of_isFree {p : ScopeId} {name : String} (h : w.isFree p name = true)
    (owner : ScopeId) (params : List Value) (type : ScopeType) :
    w.makeScope p name owner params type =
      match (w.opened p name owner params type).runSetup ⟨w.scopes.size⟩ type.setup with
      | (w', .ok ()) =>
        (w'.record (.life (.scopeSetUp ⟨w.scopes.size⟩ true))).settle ⟨w.scopes.size⟩ p name
          type.name
      | (w', .error reason) =>
        (w'.record (.life (.scopeSetUp ⟨w.scopes.size⟩ false))).abandon ⟨w.scopes.size⟩ name
          reason := by
  rw [makeScope_eq, if_pos h]
  rfl

theorem settle_answer {id p : ScopeId} {name typeName : String} {child : ScopeId}
    (h : (w.settle id p name typeName).2 = .ok child) : child = id := by
  rw [settle] at h
  split at h
  · cases h
  · exact (Except.ok.inj h).symm

/-- A scope that is made has the next place. -/
theorem makeScope_answer {p : ScopeId} {name : String} {owner : ScopeId} {params : List Value}
    {type : ScopeType} {child : ScopeId}
    (h : (w.makeScope p name owner params type).2 = .ok child) : child = ⟨w.scopes.size⟩ := by
  by_cases hfree : w.isFree p name = true
  · rw [makeScope_of_isFree hfree] at h
    split at h
    · exact settle_answer h
    · cases h
  · rw [makeScope_eq, if_neg hfree] at h
    cases h

/-- The scope counts as set up. -/
def ready (w : World) (id : ScopeId) : World := w.modifyScope id fun s => { s with isSetUp := true }

theorem ready_sameTree (w : World) (id : ScopeId) : SameTree w (w.ready id) :=
  .modifyScope w id fun _ => ⟨rfl, rfl, rfl⟩

theorem scope?_ready_of_ne (w : World) {id x : ScopeId} (hx : x ≠ id) :
    (w.ready id).scope? x = w.scope? x := by
  rw [ready, scope?_modifyScope, if_neg hx]

/-- A scope that has been set up becomes a member where its name is free. -/
theorem settle_of_isFree (ht : w.Tabled) {id p : ScopeId} (hne : p ≠ id) {name : String}
    (hfree : w.isFree p name = true) (typeName : String) :
    ∃ w', w.settle id p name typeName = (w', .ok id) ∧
      Adds (w.ready id) w' p name (.scope id) ∧
      ∃ s members, w.scope? p = some s ∧ w'.scope? p = some { s with members } := by
  have hsame := w.scope?_ready_of_ne hne
  have hstill : (w.ready id).isFree p name = true := by rwa [isFree, hsame, ← isFree]
  obtain ⟨w', hinsert, hadds⟩ :=
    insertMember_adds (ht.sameTree (w.ready_sameTree id)) hstill (.scope id)
  obtain ⟨s, members, hs, hs'⟩ := insertMember_scope hinsert
  rw [ready] at hinsert
  simp only [settle, hinsert]
  exact ⟨_, rfl,
    ⟨hadds.nodes, hadds.others, hadds.scopeKey, hadds.holds, hadds.tabled, hadds.size⟩,
    s, members, hsame.symm.trans hs, hs'⟩

/-- Where its name has been taken meanwhile it does not become one. -/
theorem settle_of_taken (ht : w.Tabled) {id p : ScopeId} (hne : p ≠ id) {name : String}
    (htaken : ¬w.isFree p name = true) (typeName : String) :
    w.settle id p name typeName = (w.ready id, .error ((w.ready id).taken p name)) := by
  have hstill : ¬(w.ready id).isFree p name = true := by
    rwa [isFree, w.scope?_ready_of_ne hne, ← isFree]
  have hinsert := insertMember_of_taken (ht.sameTree (w.ready_sameTree id)) hstill (.scope id)
  rw [settle]
  rw [ready] at hinsert ⊢
  simp only [hinsert]

theorem settle_tree {id p : ScopeId} {name : String} (h : Forest w fun x => x = id ∨ loose x)
    (hid : ¬loose id) (hkey : w.scopeKey? id = some (name, some p))
    (hfree : w.isFree p name = true) (typeName : String) :
    ∃ w', w.settle id p name typeName = (w', .ok id) ∧ Forest w' loose ∧ StaysInside p w w' := by
  have hp : p.index < id.index := h.older id name p hkey
  have hsame := w.ready_sameTree id
  have hinside : StaysInside id w (w.ready id) := .modifyScope w id fun _ => ⟨rfl, rfl, rfl⟩
  obtain ⟨w', hsettle, hadds, -⟩ :=
    settle_of_isFree h.tabled (fun heq => Nat.ne_of_lt hp (congrArg _ heq)) hfree typeName
  exact ⟨w', hsettle, (h.sameTree hsame).addScope hadds (by rw [hsame.scopeKey, hkey]) hid,
    (hinside.outward (Nat.le_of_lt hp)).trans (.of_adds hadds)⟩

/-- The program makes members only in the scope that it sets up and inside it. -/
def SetsUpInside (id : ScopeId) (setup : Setup) : Prop :=
  ∀ (w : World) (loose : ScopeId → Prop), (Forest w fun x => x = id ∨ loose x) →
    (Forest (w.runSetup id setup).1 fun x => x = id ∨ loose x) ∧
      StaysInside id w (w.runSetup id setup).1

/-- When the setup of a new scope is over, the scope is still loose and its name still free. -/
theorem runSetup_opened (h : Forest w loose) {p : ScopeId} {name : String}
    (hfree : w.isFree p name = true) (owner : ScopeId) (params : List Value) {type : ScopeType}
    (hsetup : SetsUpInside ⟨w.scopes.size⟩ type.setup) {w' : World} {answer : Except String Unit}
    (hrun : (w.opened p name owner params type).runSetup ⟨w.scopes.size⟩ type.setup =
      (w', answer)) :
    (Forest w' fun x => x = ⟨w.scopes.size⟩ ∨ loose x) ∧ ¬loose ⟨w.scopes.size⟩ ∧
      w'.scopeKey? ⟨w.scopes.size⟩ = some (name, some p) ∧ w'.isFree p name = true ∧
      p.index < w.scopes.size ∧ StaysInside p w w' := by
  obtain ⟨s, hs, -⟩ := (isFree_iff h.tabled p name).mp hfree
  have hp := lt_size_of_scope? hs
  have hold (x : ScopeId) (hx : x.index < w.scopes.size) :
      (w.opened p name owner params type).scope? x = w.scope? x :=
    scope?_opened p name owner params type fun heq => Nat.ne_of_lt hx (congrArg ScopeId.index heq)
  have hopening : StaysInside p w (w.opened p name owner params type) := by
    refine ⟨fun x hx => hold x (Nat.lt_trans hx hp), by rw [scopeKey?, scopeKey?, hold p hp], ?_⟩
    rw [opened, Array.size_push]
    exact Nat.le_succ _
  have hkey : (w.opened p name owner params type).scopeKey? ⟨w.scopes.size⟩ =
      some (name, some p) := by
    rw [opened, scopeKey?_push, if_pos rfl]
    rfl
  obtain ⟨hset, hinside⟩ :=
    hsetup (w.opened p name owner params type) loose (h.pushScope rfl hp rfl)
  rw [hrun] at hset hinside
  refine ⟨hset, fun hloose => Nat.lt_irrefl _ (h.known _ hloose), hinside.key.trans hkey, ?_, hp,
    hopening.trans (hinside.outward (Nat.le_of_lt hp))⟩
  rwa [isFree, hinside.older p hp, hold p hp, ← isFree]

/-- A scope is made: it is set up while it is loose, and then it becomes a member or is given up. -/
theorem makeScope_tree (h : Forest w loose) (p : ScopeId) (name : String) (owner : ScopeId)
    (params : List Value) {type : ScopeType} (hsetup : ∀ id, SetsUpInside id type.setup) :
    Forest (w.makeScope p name owner params type).1 loose ∧
      StaysInside p w (w.makeScope p name owner params type).1 := by
  by_cases hfree : w.isFree p name = true
  · rw [makeScope_of_isFree hfree]
    generalize hrun : runSetup _ _ type.setup = outcome
    obtain ⟨w', answer⟩ := outcome
    obtain ⟨hset, hloose, hkey, hfree', hp, hinside⟩ :=
      runSetup_opened h hfree owner params (hsetup _) hrun
    have hset' (e : Event) := hset.sameTree (.record w' e)
    cases answer with
    | ok done =>
      obtain ⟨w'', hsettle, htree, hstays⟩ :=
        settle_tree (hset' (.life (.scopeSetUp ⟨w.scopes.size⟩ true))) hloose hkey hfree' type.name
      simp only [hsettle]
      have hrecord : StaysInside p w' (w'.record (.life (.scopeSetUp ⟨w.scopes.size⟩ true))) :=
        .of_scopes p rfl
      exact ⟨htree, (hinside.trans hrecord).trans hstays⟩
    | error reason =>
      have hforest := hset' (.life (.scopeSetUp ⟨w.scopes.size⟩ false))
      have hgone := cleared_release hforest.ranked ⟨w.scopes.size⟩
      have holder (x : ScopeId) (hx : x.index < w.scopes.size) := hgone.older hforest.ranked hx
      refine ⟨hforest.releaseLoose, hinside.trans ⟨fun x hx => ?_, ?_, ?_⟩⟩
      · exact holder x (Nat.lt_trans hx hp)
      · exact congrArg (Option.map _) (holder p hp)
      · exact Nat.le_of_eq hgone.size.symm
  · rw [makeScope_eq, if_neg hfree]
    exact ⟨h, .refl p w⟩

/-! ## Setups -/

theorem index_le_locate {id : ScopeId} {location : Location} (h : location.Within id) :
    id.index ≤ (locate id location).index := by
  cases location with
  | here => exact Nat.le_refl _
  | inside p => exact h

theorem SetsUpInside.after {id : ScopeId} {next : Setup} (h : SetsUpInside id next)
    (hforest : Forest w' fun x => x = id ∨ loose x) (hstays : StaysInside id w w') :
    (Forest (w'.runSetup id next).1 fun x => x = id ∨ loose x) ∧
      StaysInside id w (w'.runSetup id next).1 := by
  obtain ⟨hnext, hinside⟩ := h w' loose hforest
  exact ⟨hnext, hstays.trans hinside⟩

/-- Whatever a confined program does, it does inside the scope that it sets up. -/
theorem setsUpInside {id : ScopeId} {setup : Setup} (h : setup.Confined id) :
    SetsUpInside id setup := by
  induction h with
  | done =>
    intro w loose hw
    rw [runSetup]
    exact ⟨hw, .refl _ w⟩
  | fail =>
    intro w loose hw
    rw [runSetup]
    exact ⟨hw, .refl _ w⟩
  | look _ ih =>
    intro w loose hw
    rw [runSetup]
    split
    · exact ih _ rfl w loose hw
    · exact ⟨hw, .refl _ w⟩
  | @say id remark next _ ih =>
    intro w loose hw
    rw [runSetup]
    exact ih.after (hw.sameTree (.record w _)) (.of_scopes id rfl)
  | @keep id window next _ ih =>
    intro w loose hw
    rw [runSetup]
    have hkept : ∀ s : Scope, ({ s with window := some window }).name = s.name ∧
        ({ s with window := some window }).parent = s.parent ∧
        ({ s with window := some window }).members = s.members := fun s => ⟨rfl, rfl, rfl⟩
    exact ih.after (hw.sameTree (.modifyScope w id hkept)) (.modifyScope w id hkept)
  | @defineNodeType id location name type next hwithin _ ih =>
    intro w loose hw
    rw [runSetup]
    obtain ⟨hdefined, hinside⟩ :=
      define_tree hw (locate id location) name (m := .nodeType type) rfl nofun
    exact (ih _).after hdefined (hinside.outward (index_le_locate hwithin))
  | @defineScopeType id location name type next hwithin htype _ _ ih =>
    intro w loose hw
    rw [runSetup]
    obtain ⟨hdefined, hinside⟩ :=
      define_tree hw (locate id location) name (m := .scopeType type) rfl
        fun t ht => by cases ht; exact htype
    exact (ih _).after hdefined (hinside.outward (index_le_locate hwithin))
  | @makeNode id location name type params next hwithin _ ih =>
    intro w loose hw
    rw [runSetup]
    obtain ⟨hmade, hinside⟩ := makeNode_tree hw (locate id location) name type id params
    exact (ih _).after hmade (hinside.outward (index_le_locate hwithin))
  | @makeScope id location name type params next hwithin _ _ ihtype ih =>
    intro w loose hw
    rw [runSetup]
    obtain ⟨hmade, hinside⟩ := makeScope_tree hw (locate id location) name id params ihtype
    have hlater : ∀ child, (w.makeScope (locate id location) name id params type).2 = .ok child →
        id.index < child.index := by
      intro child hchild
      rw [makeScope_answer hchild]
      exact hw.known id (.inl rfl)
    exact (ih _ hlater).after hmade (hinside.outward (index_le_locate hwithin))

/-- Making a scope of a confined type keeps the tree, whether its setup succeeds or not. -/
theorem makeScope_confined (h : Forest w loose) (p : ScopeId) (name : String) (owner : ScopeId)
    (params : List Value) {type : ScopeType} (htype : type.Confined) :
    Forest (w.makeScope p name owner params type).1 loose ∧
      StaysInside p w (w.makeScope p name owner params type).1 :=
  makeScope_tree h p name owner params fun id => setsUpInside (htype id)

end FrameGraph.World
