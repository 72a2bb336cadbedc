import FrameGraph.Proofs.World.Making
import FrameGraph.Proofs.World.Moments

/-!
# What a setup encloses

An inward setup makes members in its own scope and inside it, so whatever is new while it runs lies
under that scope, and what it says is said of the scopes that it has made. Each of these was set up,
and it is there or has been destroyed, or its setup was refused. So when the setup fails itself, all
that it has made is taken down with the scope, and only places have been used up. This holds in every
orderly world, also beside what unconfined setups have left.
-/
namespace FrameGraph

/-- What has become of a scope: whether it is set up, if it is there, and its steps. -/
inductive Fate (x : ScopeId) : Option Bool → List LifeStep → Prop
  | standing : Fate x (some true) [.scopeSetUp x true]
  | destroyed : Fate x none [.scopeSetUp x true, .scopeDestroyed x]
  | refused : Fate x none [.scopeSetUp x false]

/-- What departs is destroyed if it was set up. -/
theorem Fate.departs {x : ScopeId} {phase phase' : Option Bool} {steps : List LifeStep}
    (h : Fate x phase steps) (hphase : phase' = none ∨ phase' = phase) :
    Fate x phase' (steps ++
      if phase = some true ∧ phase' = none then [.scopeDestroyed x] else []) := by
  obtain rfl | rfl := hphase
  · cases h with
    | standing => exact .destroyed
    | destroyed => exact .destroyed
    | refused => exact .refused
  · rw [if_neg, List.append_nil]
    · exact h
    · rintro ⟨hup, hnone⟩
      cases hup.symm.trans hnone

theorem Fate.gone {x : ScopeId} {steps : List LifeStep} (h : Fate x none steps) :
    steps = [.scopeSetUp x true, .scopeDestroyed x] ∨ steps = [.scopeSetUp x false] := by
  cases h with
  | destroyed => exact .inl rfl
  | refused => exact .inr rfl

namespace World

variable {w w' w'' : World} {done done' : List LifeStep} {id p : ScopeId} {name : String}

/-- Every scope that is not older than the given one lies under it. -/
structure Houses (w : World) (id : ScopeId) : Prop where
  known : id.index < w.scopes.size
  under : ∀ p : ScopeId, id.index ≤ p.index → w.Lives (.scope p) → Under w (.scope id) (.scope p)

/-- On the way from the first world to the second, members were made in the scope and inside it,
and these steps were taken. They are steps of scopes that were made on the way. -/
structure Encloses (id : ScopeId) (w w' : World) (done : List LifeStep) : Prop where
  orderly : w'.Orderly
  grows : Grows w w'
  older : ∀ x : ScopeId, x.index < id.index → w'.scope? x = w.scope? x
  enclosed : ∀ m, w'.Lives m → w.Beyond m → Under w' (.scope id) m
  steps : w'.steps = w.steps ++ done
  phase : ∀ x, ¬w.Beyond (.scope x) → w'.phase? x = w.phase? x
  silent : ∀ x, ¬w.Beyond (.scope x) ∨ w'.Beyond (.scope x) →
    done.filter (LifeStep.isOfScope x) = []
  fate : ∀ x, w.Beyond (.scope x) → ¬w'.Beyond (.scope x) →
    Fate x (w'.phase? x) (done.filter (LifeStep.isOfScope x))

namespace Encloses

theorem refl (h : w.Orderly) (id : ScopeId) : Encloses id w w [] where
  orderly := h
  grows := .refl w
  older _ _ := rfl
  enclosed _ hm hnew := absurd hnew hm.not_beyond
  steps := (List.append_nil _).symm
  phase _ _ := rfl
  silent _ _ := rfl
  fate _ hnew hknown := absurd hnew hknown

theorem trans (h : Encloses id w w' done) (h' : Encloses id w' w'' done') :
    Encloses id w w'' (done ++ done') where
  orderly := h'.orderly
  grows := h.grows.trans h'.grows
  older x hx := (h'.older x hx).trans (h.older x hx)
  enclosed m hm hnew := by
    by_cases hlate : w'.Beyond m
    · exact h'.enclosed m hm hlate
    · exact (h.enclosed m (h'.grows.lives_of_old hlate hm) hnew).mono h'.grows.holds
  steps := by rw [h'.steps, h.steps, List.append_assoc]
  phase x hx := (h'.phase x (mt h.grows.beyond hx)).trans (h.phase x hx)
  silent x hx := by
    rw [List.filter_append, h.silent x (hx.imp_right h'.grows.beyond),
      h'.silent x (hx.imp_left (mt h.grows.beyond)), List.append_nil]
  fate x hnew hknown := by
    rw [List.filter_append]
    by_cases hlate : w'.Beyond (.scope x)
    · rw [h.silent x (.inr hlate), List.nil_append]
      exact h'.fate x hlate hknown
    · rw [h'.silent x (.inl hlate), List.append_nil, h'.phase x hlate]
      exact h.fate x hnew hlate

theorem houses (h : Encloses id w w' done) (hw : w.Houses id) : w'.Houses id where
  known := Nat.lt_of_lt_of_le hw.known h.grows.scopes
  under p hp hlives := by
    by_cases hnew : w.Beyond (.scope p)
    · exact h.enclosed _ hlives hnew
    · exact (hw.under p hp (h.grows.lives_of_old hnew hlives)).mono h.grows.holds

/-- What is made inside a scope is made inside every scope that it lies under. -/
theorem outward (h : Encloses p w w' done) (hw : w.Orderly)
    (hp : Under w (.scope id) (.scope p)) : Encloses id w w' done :=
  { h with
    older := fun x hx => h.older x (Nat.lt_of_lt_of_le hx (hp.index_le hw.ranked))
    enclosed := fun m hm hnew => (hp.mono h.grows.holds).trans (h.enclosed m hm hnew) }

/-- If no scope is made, there is nothing to say. -/
theorem of_departs (hw : w.Orderly) (hg : GrowsOrderly w w') (hd : Departs w w' [])
    (holder : ∀ x : ScopeId, x.index < id.index → w'.scope? x = w.scope? x)
    (hnode : ∀ x : NodeId, w'.Lives (.node x) → w.Beyond (.node x) →
      Under w' (.scope id) (.node x)) : Encloses id w w' [] := by
  obtain ⟨ho, hgrows⟩ := hg hw
  have hlate (x : ScopeId) := (beyond_of_size hd.size x).mpr
  refine ⟨ho, hgrows, holder, fun m hm hnew => ?_, hd.proceeds.steps, fun x hx => ?_,
    fun _ _ => rfl, fun x hnew hknown => absurd (hlate x hnew) hknown⟩
  · cases m with
    | node x => exact hnode x hm hnew
    | scope x => exact absurd (hlate x hnew) hm.not_beyond
    | nodeType t => exact hnew.elim
    | scopeType t => exact hnew.elim
  · obtain hnone | hsame := hd.phase x
    · have hbare := hgrows.scope x (Nat.lt_of_not_le hx)
      rw [phase?_eq_none.mp hnone, Option.map_none, eq_comm, Option.map_eq_none_iff] at hbare
      rw [hnone, phase?_eq_none.mpr hbare]
    · exact hsame

end Encloses

namespace Gains

variable {m : Member}

theorem older (h : Gains w w' p name m) (x : ScopeId) (hx : x.index < p.index) :
    w'.scope? x = w.scope? x := by
  obtain ⟨s, members, hs, -⟩ := h.holder
  refine h.scope x (Nat.lt_trans hx (lt_size_of_scope? hs)) ?_
  rintro rfl
  exact Nat.lt_irrefl _ hx

/-- What is new lies under the scope that has the entry. -/
theorem enclosed (h : Gains w w' p name m) {k : Member} (hk : w'.Lives k) (hnew : w.Beyond k) :
    Under w' (.scope p) k := by
  obtain ⟨s, members, hs, -⟩ := h.holder
  have hheld : w'.Holds p name m :=
    (h.holds p name m (lt_size_of_scope? hs)).mpr (.inr ⟨rfl, rfl, rfl⟩)
  obtain hlives | hunder := h.inside k hk
  · exact absurd hnew hlives.not_beyond
  · exact (Under.entry .top hheld).trans hunder

theorem lives_holder (h : Gains w w' p name m) : w.Lives (.scope p) := by
  obtain ⟨s, members, hs, -⟩ := h.holder
  exact ⟨s, hs⟩

end Gains

/-! ## Members that are no scopes -/

theorem define_cases (ht : w.Tabled) (p : ScopeId) (name : String) (m : Member) :
    (w.define p name m).1 = w ∨ Adds w (w.define p name m).1 p name m := by
  rw [define]
  obtain ⟨e, hinsert⟩ | ⟨w', hinsert, hadds⟩ := insertMember_cases ht p name m
  · rw [hinsert]
    exact .inl rfl
  · rw [hinsert]
    exact .inr hadds

theorem define_encloses (hw : w.Orderly) (hp : id.index ≤ p.index) (name : String) {m : Member}
    (hm : m.isOwned = false) : Encloses id w (w.define p name m).1 [] := by
  obtain hsame | hadds := define_cases hw.tabled p name m
  · rw [hsame]
    exact .refl hw id
  · refine .of_departs hw (define_grows w p name hm) (define_departs hw.tabled p name m)
      (fun x hx => hadds.others x ?_) fun x hlives hnew => ?_
    · rintro rfl
      exact Nat.not_le_of_lt hx hp
    · obtain ⟨n, hn⟩ := hlives
      rw [hadds.node] at hn
      exact absurd hnew (Lives.not_beyond ⟨n, hn⟩)

theorem makeNode_encloses (hw : w.Orderly) (hhouses : w.Houses id) (hp : id.index ≤ p.index)
    (name : String) (type : NodeType) (owner : ScopeId) (params : List Value) :
    Encloses id w (w.makeNode p name type owner params).1 [] := by
  have hgrows := makeNode_grows w p name type owner params
  have hdeparts := makeNode_departs hw.tabled p name type owner params
  obtain ⟨e, hmade⟩ | ⟨w', hmade, hgains, -⟩ :=
    makeNode_outcome hw.tabled p name type owner params
  · rw [hmade]
    exact .refl hw id
  · rw [hmade] at hgrows hdeparts ⊢
    exact (Encloses.of_departs hw hgrows hdeparts hgains.older
      fun x => hgains.enclosed).outward hw (hhouses.under p hp hgains.lives_holder)

/-! ## A scope that has been opened -/

/-- The steps of a scope when the setup of one has ended. -/
theorem filter_ended (x id : ScopeId) (ok : Bool) (last : List LifeStep) :
    (done ++ .scopeSetUp id ok :: last).filter (LifeStep.isOfScope x) =
      done.filter (LifeStep.isOfScope x) ++
        ((if x = id then [.scopeSetUp x ok] else []) ++ last.filter (LifeStep.isOfScope x)) := by
  rw [List.filter_append, ← List.singleton_append, List.filter_append, filter_scopeSetUp]

theorem mem_filter_scopeSetUp {x : ScopeId} {ok : Bool} (h : .scopeSetUp x ok ∈ done) :
    .scopeSetUp x ok ∈ done.filter (LifeStep.isOfScope x) :=
  List.mem_filter.mpr ⟨h, decide_eq_true rfl⟩

section Opened

variable {owner : ScopeId} {params : List Value} {type : ScopeType}

theorem opened_grows : Grows w (w.opened p name owner params type) := .pushScope w rfl

theorem Orderly.opened (h : w.Orderly) : (w.opened p name owner params type).Orderly :=
  h.pushScope rfl

theorem beyond_opened {m : Member} :
    (w.opened p name owner params type).Beyond m ↔
      w.Beyond m ∧ m ≠ .scope ⟨w.scopes.size⟩ := by
  cases m with
  | node x => simp [World.opened, Beyond]
  | scope x =>
    have hne : x = ⟨w.scopes.size⟩ ↔ x.index = w.scopes.size := ScopeId.index_eq_iff.symm
    simp only [World.opened, Beyond, Array.size_push, ne_eq, Member.scope.injEq, hne]
    omega
  | nodeType t => simp [Beyond]
  | scopeType t => simp [Beyond]

theorem self_not_beyond_opened :
    ¬(w.opened p name owner params type).Beyond (.scope ⟨w.scopes.size⟩) :=
  fun hlate => (beyond_opened.mp hlate).2 rfl

theorem houses_opened : (w.opened p name owner params type).Houses ⟨w.scopes.size⟩ where
  known := Nat.lt_of_not_le self_not_beyond_opened
  under q hq hlives := by
    have hknown := beyond_opened.not.mp hlives.not_beyond
    rw [not_and, not_not] at hknown
    rw [hknown hq]
    exact .top

namespace Encloses

variable (h : Encloses ⟨w.scopes.size⟩ (w.opened p name owner params type) w' done)

include h

/-- The scopes that were there before are as they were. -/
theorem old_scope {x : ScopeId} (hx : ¬w.Beyond (.scope x)) : w'.scope? x = w.scope? x := by
  have hlt : x.index < w.scopes.size := Nat.lt_of_not_le hx
  rw [h.older x hlt, scope?_opened]
  rintro rfl
  exact Nat.lt_irrefl _ hlt

theorem grows_opened : Grows w w' := opened_grows.trans h.grows

/-- What was not there before lies under the scope. -/
theorem inside {m : Member} (hm : w'.Lives m) (hnew : w.Beyond m) :
    Under w' (.scope ⟨w.scopes.size⟩) m := by
  by_cases hself : m = .scope ⟨w.scopes.size⟩
  · rw [hself]
    exact .top
  · exact h.enclosed m hm (beyond_opened.mpr ⟨hnew, hself⟩)

/-- The scope is there, as it was made. -/
theorem self : ∃ s, w'.scope? ⟨w.scopes.size⟩ = some s ∧
    s.bare = .new name type (some owner) (some p) params ∧ s.isSetUp = false := by
  have hmade : (w.opened p name owner params type).scope? ⟨w.scopes.size⟩ =
      some (.new name type (some owner) (some p) params) := by
    rw [World.opened, scope?_push, if_pos rfl]
  have hbare := h.grows.scope ⟨w.scopes.size⟩ (Nat.lt_of_not_le self_not_beyond_opened)
  have hphase := h.phase ⟨w.scopes.size⟩ self_not_beyond_opened
  rw [hmade] at hbare
  rw [phase?, phase?, hmade] at hphase
  obtain ⟨s, hs, hsame⟩ := Option.map_eq_some_iff.mp hbare
  rw [hs] at hphase
  exact ⟨s, hs, hsame, Option.some.inj hphase⟩

theorem phase_self : w'.phase? ⟨w.scopes.size⟩ = some false := by
  obtain ⟨s, hs, -, hdown⟩ := h.self
  rw [phase?, hs, Option.map_some, hdown]

theorem silent_self : done.filter (LifeStep.isOfScope ⟨w.scopes.size⟩) = [] :=
  h.silent _ (.inl self_not_beyond_opened)

/-- Nothing has been said of what was there before or is not there yet, and nothing has changed. -/
theorem quiet_opened {x : ScopeId} (hx : ¬w.Beyond (.scope x) ∨ w'.Beyond (.scope x)) :
    x ≠ ⟨w.scopes.size⟩ ∧ done.filter (LifeStep.isOfScope x) = [] ∧ w'.phase? x = w.phase? x := by
  refine ⟨?_, h.silent x (hx.imp_left (mt fun hlate => (beyond_opened.mp hlate).1)), ?_⟩
  · rintro rfl
    obtain hold | hlate := hx
    · exact hold (Nat.le_refl _)
    · obtain ⟨s, hs, -⟩ := h.self
      exact absurd hlate (Lives.not_beyond ⟨s, hs⟩)
  · refine phase?_of_scope? ?_
    obtain hold | hlate := hx
    · exact h.old_scope hold
    · rw [scope?_of_size_le hlate, scope?_of_size_le (h.grows_opened.beyond hlate)]

/-- What has become of the scopes that were made during the setup. -/
theorem fate_opened {x : ScopeId} (hx : x ≠ ⟨w.scopes.size⟩) (hnew : w.Beyond (.scope x))
    (hknown : ¬w'.Beyond (.scope x)) :
    Fate x (w'.phase? x) (done.filter (LifeStep.isOfScope x)) :=
  h.fate x (beyond_opened.mpr ⟨hnew, fun heq => hx (Member.scope.inj heq)⟩) hknown

/-! ### When the setup has failed -/

/-- All that is new goes with the scope. -/
theorem abandoned (e : Event) : Unchanged w ((w'.record e).release ⟨w.scopes.size⟩) := by
  have hranked := (h.orderly.record e).ranked
  have hgone := cleared_release hranked ⟨w.scopes.size⟩
  have hgrows : Grows w (w'.record e) := h.grows_opened.trans (.record w' e)
  refine .of_grows (hgrows.release hranked (Nat.le_refl _)) (fun x hx => ?_) fun m hm hnew => ?_
  · exact (hgone.older hranked hx).trans (h.old_scope (Nat.not_le_of_lt hx))
  · have hbefore : w'.Lives m :=
      (lives_congr (SameTree.record w' e).nodeKey (SameTree.record w' e).scopeKey m).mp
        (hgone.lives hm)
    have hunder : Under (w'.record e) (.scope ⟨w.scopes.size⟩) m :=
      (h.inside hbefore hnew).mono fun q n k => ((SameTree.record w' e).holds q n k).mpr
    exact hgone.under_gone (List.mem_singleton_self _) hunder hm

/-- Of the scopes that the setup has made, those that are there are destroyed, and the scope itself
is not. -/
theorem abandoned_encloses (id : ScopeId) : ∃ last, Encloses id w
    ((w'.record (.life (.scopeSetUp ⟨w.scopes.size⟩ false))).release ⟨w.scopes.size⟩)
    (done ++ .scopeSetUp ⟨w.scopes.size⟩ false :: last) := by
  have hsame := h.abandoned (.life (.scopeSetUp ⟨w.scopes.size⟩ false))
  have hordered := h.orderly.record (.life (.scopeSetUp ⟨w.scopes.size⟩ false))
  have hgrows : Grows w (w'.record (.life (.scopeSetUp ⟨w.scopes.size⟩ false))) :=
    h.grows_opened.trans (.record w' _)
  have hgrown := hgrows.release hordered.ranked (Nat.le_refl w.scopes.size)
  obtain ⟨last, -, hdeparts, -⟩ := released_release hordered.ranked ⟨w.scopes.size⟩
  have hphase (x : ScopeId) := phase?_of_scope? (hsame.scope x)
  have hsize := hdeparts.size.trans (congrArg Array.size (w'.record_scopes _))
  refine ⟨last, hordered.release _, hgrown, fun x _ => hsame.scope x,
    fun m hm hnew => absurd hnew (hsame.lives hm).not_beyond, ?_, fun x _ => hphase x,
    fun x hx => ?_, fun x hnew hknown => ?_⟩
  · rw [hdeparts.proceeds.steps, steps_life, h.steps, List.append_assoc, List.append_assoc]
    rfl
  · obtain ⟨hne, hdone, hkept⟩ := h.quiet_opened (hx.imp_right (beyond_of_size hsize x).mp)
    rw [filter_ended, hdone, if_neg hne, hdeparts.once, phase?_record,
      if_neg (not_departed ((hphase x).trans hkept.symm))]
    rfl
  · rw [filter_ended, hdeparts.once, phase?_record]
    by_cases hx : x = ⟨w.scopes.size⟩
    · subst hx
      have hgone : w.phase? ⟨w.scopes.size⟩ = none := phase?_eq_none.mpr w.scope?_next
      rw [h.silent_self, hphase, hgone, h.phase_self, if_pos rfl, if_neg (by simp)]
      exact .refused
    · rw [if_neg hx]
      exact (h.fate_opened hx hnew (mt (beyond_of_size hsize x).mpr hknown)).departs
        (hdeparts.phase x)

/-! ### When the setup has succeeded -/

/-- The one entry for the scope is made. -/
theorem settled (hw : w.Orderly) (hfree : w.isFree p name = true) (e : Event) (typeName : String) :
    ∃ w'', (w'.record e).settle ⟨w.scopes.size⟩ p name typeName = (w'', .ok ⟨w.scopes.size⟩) ∧
      Gains w w'' p name (.scope ⟨w.scopes.size⟩) ∧
      ∃ s, w''.scope? ⟨w.scopes.size⟩ = some s ∧
        s.bare = .new name type (some owner) (some p) params ∧ s.isSetUp = true := by
  obtain ⟨holder, hholder, -⟩ := (isFree_iff hw.tabled p name).mp hfree
  have hp : ¬w.Beyond (.scope p) := Lives.not_beyond ⟨holder, hholder⟩
  have hne {x : ScopeId} (hx : ¬w.Beyond (.scope x)) : x ≠ ⟨w.scopes.size⟩ := by
    rintro rfl
    exact hx (Nat.le_refl _)
  have hold {x : ScopeId} (hx : ¬w.Beyond (.scope x)) :
      ((w'.record e).ready ⟨w.scopes.size⟩).scope? x = w.scope? x := by
    rw [scope?_ready_of_ne _ (hne hx), scope?_record, h.old_scope hx]
  have hstill : (w'.record e).isFree p name = true := by
    rwa [isFree, scope?_record, h.old_scope hp, ← isFree]
  have hsame := (SameTree.record w' e).trans ((w'.record e).ready_sameTree ⟨w.scopes.size⟩)
  obtain ⟨w'', hsettle, hadds, s, members, hs, hs'⟩ :=
    settle_of_isFree (h.orderly.record e).tabled (hne hp) hstill typeName
  have hlives (m : Member) : w''.Lives m ↔ w'.Lives m :=
    lives_congr (fun x => (hadds.nodeKey x).trans (hsame.nodeKey x))
      (fun x => (hadds.scopeKey x).trans (hsame.scopeKey x)) m
  obtain ⟨t, ht, hbare, -⟩ := h.self
  refine ⟨w'', hsettle, ⟨fun x hx => ?_, fun x hx hxp => ?_,
    ⟨s, members, (h.old_scope hp).symm.trans hs, hs'⟩, free_of_isFree hw.tabled hfree,
    fun q n k hq => ?_, Nat.le_refl _, fun k hk => ?_⟩, { t with isSetUp := true }, ?_, hbare, rfl⟩
  · exact (hadds.node x).trans ((node?_modifyScope _ _ _ x).trans (h.grows_opened.node x hx))
  · exact (hadds.others x hxp).trans (hold (Nat.not_le_of_lt hx))
  · exact (hadds.holds q n k).trans
      (or_congr_left (holds_of_scope? (hold (Nat.not_le_of_lt hq)) n k))
  · have hbefore : w'.Lives k := (hlives k).mp hk
    by_cases hnew : w.Beyond k
    · exact .inr ((h.inside hbefore hnew).mono fun q n k hk =>
        (hadds.holds q n k).mpr (.inl ((hsame.holds q n k).mpr hk)))
    · exact .inl (h.grows_opened.lives_of_old hnew hbefore)
  · rw [hadds.others _ (hne hp).symm, ready, scope?_modifyScope, if_pos rfl, scope?_record, ht,
      Option.map_some]

theorem settled_encloses {typeName : String}
    (hsettle : (w'.record (.life (.scopeSetUp ⟨w.scopes.size⟩ true))).settle ⟨w.scopes.size⟩ p name
      typeName = (w'', .ok ⟨w.scopes.size⟩))
    (hgains : Gains w w'' p name (.scope ⟨w.scopes.size⟩)) (hgrown : w''.Orderly ∧ Grows w w'') :
    Encloses p w w'' (done ++ [.scopeSetUp ⟨w.scopes.size⟩ true]) := by
  obtain ⟨-, hsize, hsteps, hphase⟩ := settle_spec (h.orderly.record _).tabled hsettle
  rw [steps_life, h.steps, List.append_assoc] at hsteps
  have hself : w''.phase? ⟨w.scopes.size⟩ = some true := by
    rw [hphase, if_pos rfl, phase?_record, h.phase_self]
    rfl
  have hother {x : ScopeId} (hx : x ≠ ⟨w.scopes.size⟩) : w''.phase? x = w'.phase? x :=
    (hphase x).trans (if_neg hx)
  refine ⟨hgrown.1, hgrown.2, hgains.older, fun m => hgains.enclosed, hsteps, fun x hx => ?_,
    fun x hx => ?_, fun x hnew hknown => ?_⟩
  · obtain ⟨hne, -, hkept⟩ := h.quiet_opened (.inl hx)
    rw [hother hne, hkept]
  · obtain ⟨hne, hdone, -⟩ := h.quiet_opened (hx.imp_right (beyond_of_size hsize x).mp)
    rw [filter_ended, hdone, if_neg hne]
    rfl
  · rw [filter_ended]
    by_cases hx : x = ⟨w.scopes.size⟩
    · subst hx
      rw [h.silent_self, hself, if_pos rfl]
      exact .standing
    · rw [if_neg hx, hother hx, List.filter_nil, List.append_nil, List.append_nil]
      exact h.fate_opened hx hnew (mt (beyond_of_size hsize x).mpr hknown)

end Encloses

end Opened

/-! ## Setups -/

/-- What the program makes, it makes in the scope that it sets up and inside it. -/
def SetsUpEnclosed (id : ScopeId) (setup : Setup) : Prop :=
  ∀ w : World, w.Orderly → w.Houses id → ∃ done, Encloses id w (w.runSetup id setup).1 done

theorem makeScope_encloses (hw : w.Orderly) (hhouses : w.Houses id) (hp : id.index ≤ p.index)
    (name : String) (owner : ScopeId) (params : List Value) {type : ScopeType}
    (hsetup : SetsUpEnclosed ⟨w.scopes.size⟩ type.setup) :
    ∃ done, Encloses id w (w.makeScope p name owner params type).1 done := by
  have hgrown := makeScope_grows w p name owner params type hw
  by_cases hfree : w.isFree p name = true
  · obtain ⟨done, hset⟩ := hsetup (w.opened p name owner params type) hw.opened houses_opened
    rw [makeScope_of_isFree hfree] at hgrown ⊢
    generalize runSetup _ _ type.setup = outcome at hset hgrown ⊢
    obtain ⟨w', answer⟩ := outcome
    cases answer with
    | ok =>
      obtain ⟨w'', hsettle, hgains, -⟩ :=
        hset.settled hw hfree (.life (.scopeSetUp ⟨w.scopes.size⟩ true)) type.name
      simp only [hsettle] at hgrown ⊢
      exact ⟨_, (hset.settled_encloses hsettle hgains hgrown).outward hw
        (hhouses.under p hp hgains.lives_holder)⟩
    | error reason =>
      obtain ⟨last, hend⟩ := hset.abandoned_encloses id
      exact ⟨_, hend⟩
  · rw [makeScope_eq, if_neg hfree]
    exact ⟨[], .refl hw id⟩

theorem SetsUpEnclosed.of_advance? {setup next : Setup} (hnext : SetsUpEnclosed id next)
    (hhouses : w.Houses id) (hstep : w.advance? id setup = some (w', next))
    (h : ∃ done, Encloses id w w' done) :
    ∃ done, Encloses id w (w.runSetup id setup).1 done := by
  rw [runSetup_of_advance? hstep]
  obtain ⟨first, hfirst⟩ := h
  obtain ⟨rest, hrest⟩ := hnext w' hfirst.orderly (hfirst.houses hhouses)
  exact ⟨first ++ rest, hfirst.trans hrest⟩

theorem encloses_of_stopped {setup : Setup} (hw : w.Orderly) (hstop : w.advance? id setup = none) :
    ∃ done, Encloses id w (w.runSetup id setup).1 done := by
  rw [runSetup_of_stopped hstop]
  exact ⟨[], .refl hw id⟩

/-- What an inward setup makes is enclosed, whatever types it makes known. -/
theorem setsUpEnclosed {setup : Setup} (h : setup.Inward id) : SetsUpEnclosed id setup := by
  induction h with
  | done => exact fun w hw _ => encloses_of_stopped hw rfl
  | fail => exact fun w hw _ => encloses_of_stopped hw rfl
  | @look id next _ ih =>
    intro w hw hhouses
    cases hs : w.scope? id with
    | none => exact encloses_of_stopped hw (by rw [advance?, hs]; rfl)
    | some s =>
      exact (ih _ rfl).of_advance? hhouses (by rw [advance?, hs]; rfl) ⟨[], .refl hw id⟩
  | say _ ih =>
    intro w hw hhouses
    exact ih.of_advance? hhouses rfl ⟨[], .of_departs hw (.record w _) (.record w rfl)
      (fun _ _ => rfl) fun x hlives hnew => absurd hnew hlives.not_beyond⟩
  | @keep id window _ _ ih =>
    intro w hw hhouses
    have hkept : ∀ s : Scope, ({ s with window := some window }).bare = s.bare ∧
        ({ s with window := some window }).members = s.members := fun s => ⟨rfl, rfl⟩
    refine ih.of_advance? hhouses rfl ⟨[], .of_departs hw (.modifyScope w id hkept)
      (modifyScope_departs w id hkept fun s => rfl) (fun x hx => ?_) fun x hlives hnew => ?_⟩
    · rw [scope?_modifyScope, if_neg]
      rintro rfl
      exact Nat.lt_irrefl _ hx
    · rw [Lives, node?_modifyScope] at hlives
      exact absurd hnew (Lives.not_beyond hlives)
  | @defineNodeType id location name type next hwithin _ ih =>
    intro w hw hhouses
    exact (ih _).of_advance? hhouses rfl
      ⟨[], define_encloses hw (index_le_locate hwithin) name rfl⟩
  | @defineScopeType id location name type next hwithin _ ih =>
    intro w hw hhouses
    exact (ih _).of_advance? hhouses rfl
      ⟨[], define_encloses hw (index_le_locate hwithin) name rfl⟩
  | @makeNode id location name type params next hwithin _ ih =>
    intro w hw hhouses
    exact (ih _).of_advance? hhouses rfl
      ⟨[], makeNode_encloses hw hhouses (index_le_locate hwithin) name type id params⟩
  | @makeScope id location name type params next hwithin _ _ ihtype ih =>
    intro w hw hhouses
    have hlater : ∀ child, (w.makeScope (locate id location) name id params type).2 = .ok child →
        id.index < child.index := by
      intro child hchild
      rw [makeScope_answer hchild]
      exact hhouses.known
    exact (ih _ hlater).of_advance? hhouses rfl
      (makeScope_encloses hw hhouses (index_le_locate hwithin) name id params (ihtype _))

/-- Where its name is free, whether a scope is made is for its setup to decide. -/
theorem makeScope_of_setup (hw : w.Orderly) (hfree : w.isFree p name = true) (owner : ScopeId)
    (params : List Value) {type : ScopeType} (htype : type.setup.Inward ⟨w.scopes.size⟩) :
    match ((w.opened p name owner params type).runSetup ⟨w.scopes.size⟩ type.setup).2 with
    | .error reason => ∃ w', w.makeScope p name owner params type =
        (w', .error (.scopeSetup name reason)) ∧ Unchanged w w'
    | .ok () => ∃ w', w.makeScope p name owner params type = (w', .ok ⟨w.scopes.size⟩) ∧
        Gains w w' p name (.scope ⟨w.scopes.size⟩) ∧
        ∃ s, w'.scope? ⟨w.scopes.size⟩ = some s ∧
          s.bare = .new name type (some owner) (some p) params ∧ s.isSetUp = true := by
  obtain ⟨done, hset⟩ :=
    setsUpEnclosed htype (w.opened p name owner params type) hw.opened houses_opened
  rw [makeScope_of_isFree hfree]
  generalize runSetup _ _ type.setup = outcome at hset ⊢
  obtain ⟨w', answer⟩ := outcome
  cases answer with
  | ok => exact hset.settled hw hfree _ type.name
  | error reason => exact ⟨_, rfl, hset.abandoned _⟩

/-- A scope is made, or nothing has changed, also if its setup had made things before it failed. -/
theorem makeScope_outcome (hw : w.Orderly) (p : ScopeId) (name : String) (owner : ScopeId)
    (params : List Value) {type : ScopeType} (htype : type.setup.Confined ⟨w.scopes.size⟩) :
    (∃ w' e, w.makeScope p name owner params type = (w', .error e) ∧ Unchanged w w') ∨
    ∃ w', w.makeScope p name owner params type = (w', .ok ⟨w.scopes.size⟩) ∧
      Gains w w' p name (.scope ⟨w.scopes.size⟩) ∧
      ∃ s, w'.scope? ⟨w.scopes.size⟩ = some s ∧
        s.bare = .new name type (some owner) (some p) params ∧ s.isSetUp = true := by
  by_cases hfree : w.isFree p name = true
  · have hmade := makeScope_of_setup hw hfree owner params htype.inward
    split at hmade
    · obtain ⟨w', hmake, hsame⟩ := hmade
      exact .inl ⟨w', _, hmake, hsame⟩
    · exact .inr hmade
  · rw [makeScope_eq, if_neg hfree]
    exact .inl ⟨w, _, rfl, .refl w⟩

end World

end FrameGraph
