import FrameGraph.Proofs.World.Fading

/-!
# Growth

Making members adds places and entries and leaves those that are there alone: the nodes stay as they
are, the scopes keep everything but what they hold, their window and whether they are set up, and
every new entry is for something new. This holds of all setups of scopes, whether they are confined
or not, and whether they succeed or fail: what a failed setup takes down again is new itself.
-/
namespace FrameGraph

/-- The node is as it was made: without connections, state or output. -/
def Node.IsNew (n : Node) : Prop := n = .new n.name n.type n.owner n.parent n.params

theorem Node.new_isNew (name : String) (type : NodeType) (owner parent : ScopeId)
    (params : List Value) : (new name type owner parent params).IsNew := rfl

theorem Node.IsNew.input? {n : Node} (h : n.IsNew) (i : Nat) : n.input? i = none := by
  rw [h, Node.input?, new, List.getElem?_replicate]
  split <;> rfl

/-- The scope without what its setup changes. -/
def Scope.bare (s : Scope) : Scope := .new s.name s.type s.owner s.parent s.params

namespace World

variable {w w' w'' : World}

/-- The member has a place that the world does not have yet. -/
def Beyond (w : World) : Member → Prop
  | .node x => w.nodes.size ≤ x.index
  | .scope x => w.scopes.size ≤ x.index
  | .nodeType _ | .scopeType _ => False

theorem Beyond.mono (hnodes : w.nodes.size ≤ w'.nodes.size)
    (hscopes : w.scopes.size ≤ w'.scopes.size) {m : Member} (h : w'.Beyond m) : w.Beyond m := by
  cases m with
  | node x => exact Nat.le_trans hnodes h
  | scope x => exact Nat.le_trans hscopes h
  | nodeType t => exact h
  | scopeType t => exact h

theorem beyond_of_size (h : w'.scopes.size = w.scopes.size) (x : ScopeId) :
    w'.Beyond (.scope x) ↔ w.Beyond (.scope x) := by
  rw [Beyond, Beyond, h]

theorem not_beyond_of_type {m : Member} (h : m.isOwned = false) : ¬w.Beyond m := by
  cases m with
  | node x => cases h
  | scope x => cases h
  | nodeType t => exact id
  | scopeType t => exact id

theorem Lives.not_beyond {m : Member} (h : w.Lives m) : ¬w.Beyond m := by
  cases m with
  | node x => exact Nat.not_le_of_lt (lt_size_of_node? h.choose_spec)
  | scope x => exact Nat.not_le_of_lt (lt_size_of_scope? h.choose_spec)
  | nodeType t => exact id
  | scopeType t => exact id

/-- What is known of the entries whatever the setups of scopes do. -/
structure Orderly (w : World) : Prop where
  tabled : w.Tabled
  once : w.HeldOnce
  older : ∀ p name x, w.Holds p name (.scope x) → p.index < x.index
  known : ∀ p name m, w.Holds p name m → ¬w.Beyond m

theorem Orderly.ranked (h : w.Orderly) : w.Ranked := ⟨h.tabled, h.older⟩

theorem Forest.orderly {loose : ScopeId → Prop} (h : Forest w loose) : w.Orderly := by
  refine ⟨h.tabled, h.heldOnce, h.ranked.older, fun p name m hm => ?_⟩
  cases howned : m.isOwned with
  | true => exact (h.lives_of_holds hm howned).not_beyond
  | false => exact not_beyond_of_type howned

theorem SameTree.modifyBare (w : World) (id : ScopeId) {f : Scope → Scope}
    (hf : ∀ s, (f s).bare = s.bare ∧ (f s).members = s.members) :
    SameTree w (w.modifyScope id f) :=
  .modifyScope w id fun s =>
    ⟨congrArg (·.name) (hf s).1, congrArg (·.parent) (hf s).1, (hf s).2⟩

/-- The second world has all that the first has, and more. -/
structure Grows (w w' : World) : Prop where
  nodes : w.nodes.size ≤ w'.nodes.size
  scopes : w.scopes.size ≤ w'.scopes.size
  node : ∀ x : NodeId, x.index < w.nodes.size → w'.node? x = w.node? x
  scope : ∀ x : ScopeId, x.index < w.scopes.size →
    (w'.scope? x).map Scope.bare = (w.scope? x).map Scope.bare
  holds : ∀ p name m, w.Holds p name m → w'.Holds p name m
  fresh : ∀ p name m, w'.Holds p name m → w.Holds p name m ∨ (m.isOwned = true → w.Beyond m)
  new : ∀ (x : NodeId) n, w.nodes.size ≤ x.index → w'.node? x = some n → n.IsNew

namespace Grows

theorem beyond (h : Grows w w') {m : Member} (hm : w'.Beyond m) : w.Beyond m :=
  hm.mono h.nodes h.scopes

/-- What is there in a place that there was before was there before. -/
theorem lives_of_old (h : Grows w w') {m : Member} (hold : ¬w.Beyond m) (hm : w'.Lives m) :
    w.Lives m := by
  cases m with
  | node x =>
    obtain ⟨n, hn⟩ := hm
    exact ⟨n, by rw [← h.node x (Nat.lt_of_not_le hold), hn]⟩
  | scope x =>
    obtain ⟨s, hs⟩ := hm
    have hbare := h.scope x (Nat.lt_of_not_le hold)
    rw [hs, Option.map_some, eq_comm, Option.map_eq_some_iff] at hbare
    exact ⟨hbare.choose, hbare.choose_spec.1⟩
  | nodeType t => exact hm
  | scopeType t => exact hm

/-- What was there is there. -/
theorem lives (h : Grows w w') {m : Member} (hm : w.Lives m) : w'.Lives m := by
  cases m with
  | node x =>
    obtain ⟨n, hn⟩ := hm
    exact ⟨n, by rw [h.node x (lt_size_of_node? hn), hn]⟩
  | scope x =>
    obtain ⟨s, hs⟩ := hm
    have hbare := h.scope x (lt_size_of_scope? hs)
    rw [hs, Option.map_some, Option.map_eq_some_iff] at hbare
    exact ⟨hbare.choose, hbare.choose_spec.1⟩
  | nodeType t => exact hm
  | scopeType t => exact hm

/-- The entries of a world that has the same places. -/
theorem of_holds (hnodes : w'.nodes = w.nodes) (hsize : w'.scopes.size = w.scopes.size)
    (hbare : ∀ x, (w'.scope? x).map Scope.bare = (w.scope? x).map Scope.bare)
    (hholds : ∀ p name m, w'.Holds p name m ↔ w.Holds p name m) : Grows w w' where
  nodes := Nat.le_of_eq (by rw [hnodes])
  scopes := Nat.le_of_eq hsize.symm
  node x _ := by rw [node?, node?, hnodes]
  scope x _ := hbare x
  holds p name m := (hholds p name m).mpr
  fresh p name m hm := .inl ((hholds p name m).mp hm)
  new x n hx hn := absurd (lt_size_of_node? hn) (by rw [hnodes]; exact Nat.not_lt_of_le hx)

theorem refl (w : World) : Grows w w := of_holds rfl rfl (fun _ => rfl) fun _ _ _ => Iff.rfl

theorem trans (h : Grows w w') (h' : Grows w' w'') : Grows w w'' where
  nodes := Nat.le_trans h.nodes h'.nodes
  scopes := Nat.le_trans h.scopes h'.scopes
  node x hx := (h'.node x (Nat.lt_of_lt_of_le hx h.nodes)).trans (h.node x hx)
  scope x hx := (h'.scope x (Nat.lt_of_lt_of_le hx h.scopes)).trans (h.scope x hx)
  holds p name m hm := h'.holds p name m (h.holds p name m hm)
  fresh p name m hm := by
    obtain hold | hnew := h'.fresh p name m hm
    · exact h.fresh p name m hold
    · exact .inr fun howned => h.beyond (hnew howned)
  new x n hx hn := by
    obtain hlt | hle := Nat.lt_or_ge x.index w'.nodes.size
    · rw [h'.node x hlt] at hn
      exact h.new x n hx hn
    · exact h'.new x n hle hn

theorem record (w : World) (e : Event) : Grows w (w.record e) :=
  of_holds rfl rfl (fun _ => rfl) fun _ _ _ => Iff.rfl

theorem modifyScope (w : World) (id : ScopeId) {f : Scope → Scope}
    (hf : ∀ s, (f s).bare = s.bare ∧ (f s).members = s.members) : Grows w (w.modifyScope id f) := by
  refine of_holds (w.modifyScope_nodes id f) (w.modifyScope_size id f) (fun x => ?_)
    (SameTree.modifyBare w id hf).holds
  rw [scope?_modifyScope]
  by_cases hx : x = id
  · rw [if_pos hx, hx, Option.map_map]
    exact Option.map_congr fun s _ => (hf s).1
  · rw [if_neg hx]

/-- A new entry for something new. -/
theorem adds {p : ScopeId} {name : String} {m : Member} (h : Grows w w') (ha : Adds w' w'' p name m)
    (hbare : ∀ x, (w''.scope? x).map Scope.bare = (w'.scope? x).map Scope.bare)
    (hm : m.isOwned = true → w.Beyond m) : Grows w w'' where
  nodes := by rw [ha.nodes]; exact h.nodes
  scopes := by rw [ha.size]; exact h.scopes
  node x hx := (ha.node x).trans (h.node x hx)
  scope x hx := (hbare x).trans (h.scope x hx)
  holds q n k hk := (ha.holds q n k).mpr (.inl (h.holds q n k hk))
  fresh q n k hk := by
    obtain hold | ⟨-, -, rfl⟩ := (ha.holds q n k).mp hk
    · exact h.fresh q n k hold
    · exact .inr hm
  new x n hx hn := h.new x n hx (by rw [← ha.node x, hn])

theorem pushNode (w : World) {n : Node} (hn : n.IsNew) :
    Grows w { w with nodes := w.nodes.push (some n) } where
  nodes := by rw [Array.size_push]; exact Nat.le_succ _
  scopes := Nat.le_refl _
  node x hx := by
    rw [node?_push, if_neg]
    rintro rfl
    exact Nat.lt_irrefl _ hx
  scope _ _ := rfl
  holds _ _ _ := id
  fresh _ _ _ := .inl
  new x k hx hk := by
    rw [node?_push] at hk
    split at hk
    · cases hk
      exact hn
    · exact absurd (lt_size_of_node? hk) (Nat.not_lt_of_le hx)

theorem pushScope (w : World) {s : Scope} (hs : s.members = .empty) :
    Grows w { w with scopes := w.scopes.push (some s) } where
  nodes := Nat.le_refl _
  scopes := by rw [Array.size_push]; exact Nat.le_succ _
  node _ _ := rfl
  scope x hx := by
    rw [scope?_push, if_neg]
    rintro rfl
    exact Nat.lt_irrefl _ hx
  holds p name m := (holds_push hs p name m).mpr
  fresh p name m hm := .inl ((holds_push hs p name m).mp hm)
  new x n hx hn := absurd (lt_size_of_node? hn) (Nat.not_lt_of_le hx)

/-- What lies under something new is new. -/
theorem beyond_of_under (h : Grows w w') {id : ScopeId} (hid : w.Beyond (.scope id)) {m : Member}
    (hm : Under w' (.scope id) m) (howned : m.isOwned = true) : w.Beyond m := by
  induction hm with
  | top => exact hid
  | entry above hheld ih =>
    obtain hold | hnew := h.fresh _ _ _ hheld
    · exact absurd (ih rfl) (Lives.not_beyond hold.scope_isSome)
    · exact hnew howned

/-- A new scope that is taken down leaves all that was there before. -/
theorem release (h : Grows w w') (hr : w'.Ranked) {id : ScopeId} (hid : w.Beyond (.scope id)) :
    Grows w (w'.release id) := by
  have hgone := cleared_release hr id
  have hstays {m : Member} (howned : m.isOwned = true) (hold : ¬w.Beyond m) (hm : w'.Lives m) :
      (w'.release id).Lives m := by
    obtain hlives | ⟨top, htop, hunder⟩ := hgone.under m hm
    · exact hlives
    · rw [List.mem_singleton.mp htop] at hunder
      exact absurd (h.beyond_of_under hid hunder howned) hold
  refine ⟨Nat.le_trans h.nodes (release_fades w' id).size, ?_, fun x hx => ?_, fun x hx => ?_,
    fun p name m hm => ?_, fun p name m hm => ?_, fun x n hx hn => ?_⟩
  · rw [hgone.size]
    exact h.scopes
  · obtain hnone | hsame := hgone.node x
    · rw [← h.node x hx, hnone, eq_comm, Option.eq_none_iff_forall_ne_some]
      intro n hn
      obtain ⟨n', hn'⟩ := hstays (m := .node x) rfl (Nat.not_le_of_lt hx) ⟨n, hn⟩
      rw [hnone] at hn'
      cases hn'
    · rw [hsame, h.node x hx]
  · obtain hnone | hsame := hgone.scope x
    · rw [← h.scope x hx, hnone]
      cases hs : w'.scope? x with
      | none => rfl
      | some s =>
        obtain ⟨s', hs'⟩ := hstays (m := .scope x) rfl (Nat.not_le_of_lt hx) ⟨s, hs⟩
        rw [hnone] at hs'
        cases hs'
    · rw [hsame, h.scope x hx]
  · have hlater := h.holds p name m hm
    exact (hgone.holds p name m).mpr
      ⟨hlater, hstays rfl (Lives.not_beyond hm.scope_isSome) hlater.scope_isSome⟩
  · exact h.fresh p name m ((hgone.holds p name m).mp hm).1
  · obtain hnone | hsame := hgone.node x
    · rw [hnone] at hn
      cases hn
    · exact h.new x n hx (by rw [← hsame, hn])

end Grows

/-! ## What stays orderly -/

namespace Orderly

/-- Of the entries of an orderly world some are left, and no place is taken away. -/
theorem mono (h : w.Orderly) (ht : w'.Tabled) (hnodes : w.nodes.size ≤ w'.nodes.size)
    (hscopes : w.scopes.size ≤ w'.scopes.size)
    (hholds : ∀ p name m, w'.Holds p name m → w.Holds p name m) : w'.Orderly where
  tabled := ht
  once m hm p n q n' hp hq := h.once m hm p n q n' (hholds p n m hp) (hholds q n' m hq)
  older p name x hx := h.older p name x (hholds p name _ hx)
  known p name m hm hbeyond := h.known p name m (hholds p name m hm) (hbeyond.mono hnodes hscopes)

theorem sameTree (h : w.Orderly) (hs : SameTree w w') (hnodes : w.nodes.size ≤ w'.nodes.size) :
    w'.Orderly :=
  h.mono (h.tabled.sameTree hs) hnodes (Nat.le_of_eq hs.size.symm)
    fun p name m => (hs.holds p name m).mp

theorem record (h : w.Orderly) (e : Event) : (w.record e).Orderly :=
  h.sameTree (.record w e) (Nat.le_refl _)

/-- A new scope without members. -/
theorem pushScope (h : w.Orderly) {s : Scope} (hs : s.members = .empty) :
    Orderly { w with scopes := w.scopes.push (some s) } := by
  have hpush := Grows.pushScope w hs
  refine h.mono (fun x t ht => ?_) hpush.nodes hpush.scopes fun q n m => (holds_push hs q n m).mp
  rw [scope?_push] at ht
  split at ht
  · cases ht
    rw [hs]
    exact Table.empty_valid
  · exact h.tabled x t ht

theorem release (h : w.Orderly) (id : ScopeId) : (w.release id).Orderly := by
  have hgone := cleared_release h.ranked id
  exact h.mono (hgone.ranked h.ranked).tabled (release_fades w id).size
    (Nat.le_of_eq hgone.size.symm) fun p name m hm => ((hgone.holds p name m).mp hm).1

/-- An entry for something that has a place and that no other entry is for. -/
theorem adds {p : ScopeId} {name : String} {m : Member} (h : w.Orderly) (ha : Adds w w' p name m)
    (hunheld : m.isOwned = true → ∀ q n, ¬w.Holds q n m)
    (holder : ∀ x, m = .scope x → p.index < x.index) (hknown : ¬w.Beyond m) : w'.Orderly where
  tabled := ha.tabled
  once k hk q n q' n' hq hq' := by
    obtain hold | ⟨rfl, rfl, rfl⟩ := (ha.holds q n k).mp hq
    · obtain hold' | ⟨rfl, rfl, rfl⟩ := (ha.holds q' n' k).mp hq'
      · exact h.once k hk q n q' n' hold hold'
      · exact absurd hold (hunheld hk q n)
    · obtain hold' | ⟨rfl, rfl, -⟩ := (ha.holds q' n' k).mp hq'
      · exact absurd hold' (hunheld hk q' n')
      · exact ⟨rfl, rfl⟩
  older q n x hx := by
    obtain hold | ⟨rfl, -, hm⟩ := (ha.holds q n _).mp hx
    · exact h.older q n x hold
    · exact holder x hm.symm
  known q n k hk hbeyond := by
    have hbefore : w.Beyond k :=
      hbeyond.mono (Nat.le_of_eq (by rw [ha.nodes])) (Nat.le_of_eq ha.size.symm)
    obtain hold | ⟨-, -, rfl⟩ := (ha.holds q n k).mp hk
    · exact h.known q n k hold hbefore
    · exact hknown hbefore

end Orderly

/-! ## Making members -/

theorem insertMember_cases (ht : w.Tabled) (p : ScopeId) (name : String) (m : Member) :
    (∃ e, w.insertMember p name m = .error e) ∨
      ∃ w', w.insertMember p name m = .ok w' ∧ Adds w w' p name m := by
  by_cases hfree : w.isFree p name = true
  · exact .inr (insertMember_adds ht hfree m)
  · exact .inl ⟨_, insertMember_of_taken ht hfree m⟩

/-- A new entry changes nothing else about its scope. -/
theorem insertMember_keeps {α : Type} {f : Scope → α} (hf : ∀ s members, f { s with members } = f s)
    {p : ScopeId} {name : String} {m : Member} (h : w.insertMember p name m = .ok w')
    (x : ScopeId) : (w'.scope? x).map f = (w.scope? x).map f := by
  rw [insertMember] at h
  split at h
  · cases h
  · rename_i s hs
    split at h
    · cases h
    · cases h
      rw [scope?_setScope]
      split
      · rename_i hx
        rw [hx.1, hs]
        exact congrArg some (hf s _)
      · rfl

theorem insertMember_bare {p : ScopeId} {name : String} {m : Member}
    (h : w.insertMember p name m = .ok w') (x : ScopeId) :
    (w'.scope? x).map Scope.bare = (w.scope? x).map Scope.bare :=
  insertMember_keeps (fun _ _ => rfl) h x

/-- If the first world is orderly, the second has grown out of it and is orderly too. -/
def GrowsOrderly (w w' : World) : Prop := w.Orderly → w'.Orderly ∧ Grows w w'

namespace GrowsOrderly

theorem refl (w : World) : GrowsOrderly w w := fun h => ⟨h, .refl w⟩

theorem trans (h : GrowsOrderly w w') (h' : GrowsOrderly w' w'') : GrowsOrderly w w'' := by
  intro hw
  obtain ⟨hw', hgrows⟩ := h hw
  obtain ⟨hw'', hgrows'⟩ := h' hw'
  exact ⟨hw'', hgrows.trans hgrows'⟩

theorem record (w : World) (e : Event) : GrowsOrderly w (w.record e) :=
  fun h => ⟨h.record e, .record w e⟩

theorem modifyScope (w : World) (id : ScopeId) {f : Scope → Scope}
    (hf : ∀ s, (f s).bare = s.bare ∧ (f s).members = s.members) :
    GrowsOrderly w (w.modifyScope id f) :=
  fun h => ⟨h.sameTree (.modifyBare w id hf) (Nat.le_of_eq (by rw [modifyScope_nodes])),
    .modifyScope w id hf⟩

end GrowsOrderly

theorem makeNode_grows (w : World) (p : ScopeId) (name : String) (type : NodeType)
    (owner : ScopeId) (params : List Value) :
    GrowsOrderly w (w.makeNode p name type owner params).1 := by
  intro h
  rw [makeNode]
  split
  · have hgrows := Grows.pushNode w (Node.new_isNew name type owner p params)
    generalize hpush : { w with nodes := w.nodes.push (some (.new name type owner p params)) } =
      pushed at hgrows ⊢
    have hpushed : pushed.Orderly := by
      rw [← hpush] at hgrows ⊢
      exact h.mono h.tabled hgrows.nodes (Nat.le_refl _) fun _ _ _ => id
    dsimp only
    obtain ⟨e, hinsert⟩ | ⟨w', hinsert, hadds⟩ :=
      insertMember_cases hpushed.tabled p name (.node ⟨w.nodes.size⟩)
    · simp only [hinsert]
      exact ⟨hpushed, hgrows⟩
    · simp only [hinsert]
      refine ⟨(hpushed.adds hadds (fun _ q n hq => ?_) (fun x hx => ?_) ?_).record _,
        (hgrows.adds hadds (insertMember_bare hinsert) fun _ => Nat.le_refl _).trans (.record _ _)⟩
      · rw [← hpush] at hq
        exact h.known q n _ hq (Nat.le_refl _)
      · cases hx
      · show ¬pushed.nodes.size ≤ w.nodes.size
        rw [← hpush, Array.size_push]
        exact Nat.not_succ_le_self _
  · exact ⟨h, .refl w⟩

theorem define_grows (w : World) (p : ScopeId) (name : String) {m : Member}
    (hm : m.isOwned = false) : GrowsOrderly w (w.define p name m).1 := by
  intro h
  rw [define]
  obtain ⟨e, hinsert⟩ | ⟨w', hinsert, hadds⟩ := insertMember_cases h.tabled p name m
  · rw [hinsert]
    exact ⟨h, .refl w⟩
  · have howned : ¬m.isOwned = true := by simp [hm]
    simp only [hinsert]
    refine ⟨h.adds hadds (fun hk => absurd hk howned) (fun x hx => ?_) (not_beyond_of_type hm),
      (Grows.refl w).adds hadds (insertMember_bare hinsert) fun hk => absurd hk howned⟩
    rw [hx] at howned
    exact absurd rfl howned

/-- As long as only its setup runs, a new scope stays, and no entry is for it. -/
theorem Grows.unheld_push (h : w.Orderly) {s : Scope} (hs : s.members = .empty)
    (hgrows : Grows { w with scopes := w.scopes.push (some s) } w') :
    ¬w'.Beyond (.scope ⟨w.scopes.size⟩) ∧ ∀ q n, ¬w'.Holds q n (.scope ⟨w.scopes.size⟩) := by
  have hknown : ¬World.Beyond { w with scopes := w.scopes.push (some s) }
      (.scope ⟨w.scopes.size⟩) := by
    rw [Beyond, Array.size_push]
    exact Nat.not_succ_le_self _
  refine ⟨mt hgrows.beyond hknown, fun q n hq => ?_⟩
  obtain hold | hnew := hgrows.fresh q n _ hq
  · exact h.known q n _ ((holds_push hs q n _).mp hold) (Nat.le_refl _)
  · exact hknown (hnew rfl)

/-- A scope that is new becomes a member, unless its name has been taken meanwhile. -/
theorem settle_grows (h : Grows w w') (ho : w'.Orderly) {id p : ScopeId}
    (hid : w.Beyond (.scope id)) (hknown : ¬w'.Beyond (.scope id))
    (hunheld : ∀ q n, ¬w'.Holds q n (.scope id)) (holder : p.index < id.index)
    (name typeName : String) :
    (w'.settle id p name typeName).1.Orderly ∧ Grows w (w'.settle id p name typeName).1 := by
  have hsetUp : ∀ s : Scope, ({ s with isSetUp := true }).bare = s.bare ∧
      ({ s with isSetUp := true }).members = s.members := fun s => ⟨rfl, rfl⟩
  have hready := GrowsOrderly.modifyScope w' id hsetUp ho
  have hsame := SameTree.modifyBare w' id hsetUp
  rw [settle]
  generalize w'.modifyScope id (fun s => { s with isSetUp := true }) = ready at hready hsame ⊢
  obtain ⟨hordered, hgrows⟩ := hready
  obtain ⟨e, hinsert⟩ | ⟨w'', hinsert, hadds⟩ :=
    insertMember_cases hordered.tabled p name (.scope id)
  · simp only [hinsert]
    exact ⟨hordered, h.trans hgrows⟩
  · simp only [hinsert]
    refine ⟨(hordered.adds hadds (fun _ q n hq => hunheld q n ((hsame.holds q n _).mp hq))
      (fun x hx => ?_) ?_).record _,
      ((h.trans hgrows).adds hadds (insertMember_bare hinsert) fun _ => hid).trans (.record _ _)⟩
    · cases hx
      exact holder
    · rwa [Beyond, hsame.size]

mutual

/-- Making a scope makes the world grow, whatever its setup does and however it ends. -/
theorem makeScope_grows (w : World) (p : ScopeId) (name : String) (owner : ScopeId)
    (params : List Value) : (type : ScopeType) →
    GrowsOrderly w (w.makeScope p name owner params type).1
  | ⟨typeName, specs, setup, destroy⟩ => by
    intro h
    rw [makeScope]
    split
    · rename_i hfree
      dsimp only
      obtain ⟨s, hs, -⟩ := (isFree_iff h.tabled p name).mp hfree
      generalize hscope : Scope.new name ⟨typeName, specs, setup, destroy⟩ (some owner)
        (some p) params = scope
      have hmembers : scope.members = .empty := by rw [← hscope]; rfl
      have hpush := Grows.pushScope w hmembers
      obtain ⟨hset, hgrows⟩ := runSetup_grows _ ⟨w.scopes.size⟩ setup (h.pushScope hmembers)
      have hbeyond : w.Beyond (.scope ⟨w.scopes.size⟩) := Nat.le_refl _
      -- Only the end of its setup makes an entry for the scope.
      obtain ⟨hknown, hunheld⟩ := hgrows.unheld_push h hmembers
      have hall := hpush.trans hgrows
      generalize runSetup _ _ setup = outcome at hset hall hknown hunheld ⊢
      obtain ⟨w', answer⟩ := outcome
      cases answer with
      | ok done =>
        exact settle_grows (hall.trans (.record _ _)) (hset.record _) hbeyond hknown hunheld
          (lt_size_of_scope? hs) name typeName
      | error reason =>
        exact ⟨(hset.record _).release _, (hall.trans (.record _ _)).release (hset.record _).ranked
          hbeyond⟩
    · exact ⟨h, .refl w⟩

theorem runSetup_grows (w : World) (id : ScopeId) : (setup : Setup) →
    GrowsOrderly w (w.runSetup id setup).1
  | .done => .refl w
  | .fail reason => .refl w
  | .look next => by
    rw [runSetup]
    split
    · exact runSetup_grows w id _
    · exact .refl w
  | .say remark next => by
    rw [runSetup]
    exact (GrowsOrderly.record w _).trans (runSetup_grows _ id next)
  | .keep window next => by
    rw [runSetup]
    have hkept := GrowsOrderly.modifyScope w id (f := fun s => { s with window := some window })
      fun s => ⟨rfl, rfl⟩
    exact hkept.trans (runSetup_grows _ id next)
  | .defineNodeType location name type next => by
    rw [runSetup]
    exact (define_grows w _ name rfl).trans (runSetup_grows _ id _)
  | .defineScopeType location name type next => by
    rw [runSetup]
    exact (define_grows w _ name rfl).trans (runSetup_grows _ id _)
  | .makeNode location name type params next => by
    rw [runSetup]
    exact (makeNode_grows w _ name type id params).trans (runSetup_grows _ id _)
  | .makeScope location name type params next => by
    rw [runSetup]
    exact (makeScope_grows w _ name id params type).trans (runSetup_grows _ id _)

end

end World

namespace Catalog

open World

theorem installEntry_grows (scope : ScopeId) (p : Populating) (entry : CatalogEntry) :
    GrowsOrderly p.1 (installEntry scope p entry).1 := by
  cases entry with
  | nodeType t =>
    rw [installEntry, installType_world]
    exact define_grows _ _ _ rfl
  | scopeType t =>
    rw [installEntry, installType_world]
    exact define_grows _ _ _ rfl
  | plugin t =>
    rw [installEntry, installPlugin_world]
    exact makeScope_grows _ _ _ _ _ t

theorem populate_grows (c : Catalog) (w : World) (scope : ScopeId) :
    GrowsOrderly w (c.populate w scope).1 := by
  have hall (entries : List CatalogEntry) (p : Populating) :
      GrowsOrderly p.1 (entries.foldl (installEntry scope) p).1 := by
    induction entries generalizing p with
    | nil => exact .refl _
    | cons entry entries ih => exact (installEntry_grows scope p entry).trans (ih _)
  exact hall c.entries (w, [])

end Catalog

namespace Assembly

open Script World

/-- The first pass over a statement makes the world grow. -/
theorem makeStep_grows (scope : ScopeId) (a : Assembly) (s : Statement) :
    GrowsOrderly a.world (makeStep scope a s).world := by
  have hmade := makeStep_madeFrom scope a s
  generalize (makeStep scope a s).world = w' at hmade ⊢
  cases hmade with
  | same => exact .refl _
  | node p name type owner params => exact makeNode_grows _ p name type owner params
  | scope p name owner params type => exact makeScope_grows _ p name owner params type

end Assembly

end FrameGraph
