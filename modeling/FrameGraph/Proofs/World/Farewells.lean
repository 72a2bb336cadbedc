import FrameGraph.Proofs.World.Growth

/-!
# The order of farewells

What lies under a scope is destroyed before the scope is. Taking down runs over the tree from the
inside, and whatever is done between, a member stays under the scopes above it as long as it is
there. So what has been said in one part of a run and what is said in the next fit together.
-/
namespace FrameGraph

namespace LifeStep

/-- What the step is one of. -/
def subject : LifeStep → Member
  | nodeSetUp x _ | nodeUpdated x | nodeDestroyed x => .node x
  | scopeSetUp x _ | scopeDestroyed x => .scope x

/-- The step is one of the scope. -/
def isOfScope (x : ScopeId) : LifeStep → Bool
  | scopeSetUp y _ | scopeDestroyed y => y = x
  | nodeSetUp .. | nodeUpdated _ | nodeDestroyed _ => false

/-- Something is destroyed by the step. -/
def isFarewell : LifeStep → Bool
  | nodeDestroyed _ | scopeDestroyed _ => true
  | nodeSetUp .. | nodeUpdated _ | scopeSetUp .. => false

end LifeStep

namespace World

variable {w w' w'' inner : World} {done done' : List LifeStep}

/-! ## What is left keeps its place -/

/-- Nothing that was gone is back, and what is still there is held as it was. -/
structure Inherits (w w' : World) : Prop where
  nodes : w.nodes.size ≤ w'.nodes.size
  scopes : w.scopes.size ≤ w'.scopes.size
  lives : ∀ m, ¬w.Beyond m → w'.Lives m → w.Lives m
  holds : ∀ p name m, w.Holds p name m → w.Lives m → w'.Lives m → w'.Holds p name m

/-- What is above something that is there is there. -/
theorem Under.lives_top {p : ScopeId} {m : Member} (h : Under w (.scope p) m) (hm : w.Lives m) :
    w.Lives (.scope p) := by
  induction h with
  | top => exact hm
  | entry _ hheld ih => exact ih hheld.scope_isSome

namespace Inherits

theorem refl (w : World) : Inherits w w :=
  ⟨Nat.le_refl _, Nat.le_refl _, fun _ _ => id, fun _ _ _ hm _ _ => hm⟩

theorem beyond (h : Inherits w w') {m : Member} (hm : w'.Beyond m) : w.Beyond m :=
  hm.mono h.nodes h.scopes

theorem trans (h : Inherits w w') (h' : Inherits w' w'') : Inherits w w'' := by
  refine ⟨Nat.le_trans h.nodes h'.nodes, Nat.le_trans h.scopes h'.scopes, fun m hm hm'' => ?_,
    fun p name m hheld hm hm'' => ?_⟩
  · exact h.lives m hm (h'.lives m (fun hlate => hm (h.beyond hlate)) hm'')
  · have hm' := h'.lives m (fun hlate => hm.not_beyond (h.beyond hlate)) hm''
    exact h'.holds p name m (h.holds p name m hheld hm hm') hm' hm''

/-- What is still there lies under the scopes that it lay under. -/
theorem under (h : Inherits w w') {p : ScopeId} {m : Member} (hunder : Under w (.scope p) m)
    (hm : w.Lives m) (hm' : w'.Lives m) : Under w' (.scope p) m := by
  induction hunder with
  | top => exact .top
  | entry _ hheld ih =>
    have hheld' := h.holds _ _ _ hheld hm hm'
    exact .entry (ih hheld.scope_isSome hheld'.scope_isSome) hheld'

theorem of_sameTree (h : SameTree w w') (hnodes : w'.nodes.size = w.nodes.size) :
    Inherits w w' where
  nodes := Nat.le_of_eq hnodes.symm
  scopes := Nat.le_of_eq h.size.symm
  lives m _ := (lives_congr h.nodeKey h.scopeKey m).mp
  holds p name m hm _ _ := (h.holds p name m).mpr hm

theorem of_grows (h : Grows w w') : Inherits w w' where
  nodes := h.nodes
  scopes := h.scopes
  lives _ := h.lives_of_old
  holds p name m hm _ _ := h.holds p name m hm

theorem of_cleared {ms : List Member} (h : Cleared w w' ms)
    (hnodes : w.nodes.size ≤ w'.nodes.size) : Inherits w w' where
  nodes := hnodes
  scopes := Nat.le_of_eq h.size.symm
  lives _ _ := h.lives
  holds p name m hm _ hm' := (h.holds p name m).mpr ⟨hm, h.lives_holder hm hm'⟩

theorem of_pruned (h : Pruned w w') (hnodes : w.nodes.size ≤ w'.nodes.size) : Inherits w w' where
  nodes := hnodes
  scopes := Nat.le_of_eq h.size.symm
  lives m _ hm := by
    cases m with
    | node x =>
      obtain ⟨key, hkey⟩ := lives_node_iff.mp hm
      exact lives_node_iff.mpr ⟨key, h.nodeKey_of_some hkey⟩
    | scope x =>
      obtain ⟨key, hkey⟩ := lives_scope_iff.mp hm
      exact lives_scope_iff.mpr ⟨key, h.scopeKey_of_some hkey⟩
    | nodeType t => exact hm
    | scopeType t => exact hm
  holds p name m hm _ hm' := (h.holds p name m).mpr ⟨hm, h.closed p name m hm hm', fun _ => hm'⟩

end Inherits

/-! ## What is said on the way -/

/-- These steps were taken on the way from the first world to the second. They are steps of what was
there or has been made meanwhile, what was destroyed is gone, and after a scope has been destroyed
there is no step of what lay under it. -/
structure Proceeds (w w' : World) (done : List LifeStep) : Prop extends Inherits w w' where
  steps : w'.steps = w.steps ++ done
  own : ∀ step ∈ done, w.Lives step.subject ∨ w.Beyond step.subject
  left : ∀ x, .scopeDestroyed x ∈ done → ¬w'.Beyond (.scope x) ∧ ¬w'.Lives (.scope x)
  order : ∀ p m, Under w (.scope p) m → m ≠ .scope p → w.Lives m → ∀ before after,
    done = before ++ .scopeDestroyed p :: after → ∀ step ∈ after, step.subject ≠ m

namespace Proceeds

/-- No scope was destroyed on the way. -/
theorem of_no_farewell (h : Inherits w w') (hsteps : w'.steps = w.steps ++ done)
    (hown : ∀ step ∈ done, w.Lives step.subject ∨ w.Beyond step.subject)
    (hnone : ∀ x, .scopeDestroyed x ∉ done) : Proceeds w w' done :=
  ⟨h, hsteps, hown, fun x hx => absurd hx (hnone x),
    fun p m _ _ _ before after hsplit => absurd (by simp [hsplit]) (hnone p)⟩

theorem of_silent (h : Inherits w w') (hsteps : w'.steps = w.steps) : Proceeds w w' [] :=
  .of_no_farewell h (by rw [hsteps, List.append_nil]) (List.forall_mem_nil _)
    fun _ => List.not_mem_nil

theorem refl (w : World) : Proceeds w w [] := .of_silent (.refl w) rfl

theorem trans (h : Proceeds w w' done) (h' : Proceeds w' w'' done') :
    Proceeds w w'' (done ++ done') := by
  refine ⟨h.toInherits.trans h'.toInherits, by rw [h'.steps, h.steps, List.append_assoc],
    fun step hstep => ?_, fun x hx => ?_, fun p m hunder hne hm before after hsplit step hstep => ?_⟩
  · obtain hstep | hstep := List.mem_append.mp hstep
    · exact h.own step hstep
    · by_cases hlate : w.Beyond step.subject
      · exact .inr hlate
      · obtain hlives | hlate' := h'.own step hstep
        · exact .inl (h.lives _ hlate hlives)
        · exact .inr (h.beyond hlate')
  · obtain hx | hx := List.mem_append.mp hx
    · obtain ⟨hknown, hgone⟩ := h.left x hx
      exact ⟨fun hlate => hknown (h'.beyond hlate), fun hlives => hgone (h'.lives _ hknown hlives)⟩
    · exact h'.left x hx
  · have hlater (hstep : step ∈ done') (heq : step.subject = m) : w'.Lives m := by
      obtain hlives | hlate := h'.own step hstep
      · exact heq ▸ hlives
      · exact absurd (h.beyond (heq ▸ hlate)) hm.not_beyond
    obtain ⟨rest, hdone, rfl⟩ | ⟨rest, -, hdone'⟩ := append_eq_append_cons hsplit
    · obtain hstep | hstep := List.mem_append.mp hstep
      · exact h.order p m hunder hne hm before rest hdone step hstep
      · -- The scope is gone, so what lay under it is.
        intro heq
        have hm' := hlater hstep heq
        refine (h.left p ?_).2 ((h.under hunder hm hm').lives_top hm')
        rw [hdone]
        simp
    · intro heq
      have hm' := hlater (by rw [hdone']; simp [hstep]) heq
      exact h'.order p m (h.under hunder hm hm') hne hm' rest after hdone' step hstep heq

/-- The same steps lead to a world that has no more in it. -/
theorem relink (h : Proceeds w w' done) (hi : Inherits w w'')
    (hlives : ∀ m, w''.Lives m → w'.Lives m) (hsize : w''.scopes.size = w'.scopes.size)
    (hsteps : w''.steps = w'.steps) : Proceeds w w'' done := by
  refine ⟨hi, hsteps.trans h.steps, h.own, fun x hx => ?_, h.order⟩
  obtain ⟨hknown, hgone⟩ := h.left x hx
  exact ⟨by rwa [Beyond, hsize], fun hx' => hgone (hlives _ hx')⟩

end Proceeds

/-! ## Taking down -/

/-- Whether the scope is set up, if it is there. -/
def phase? (w : World) (x : ScopeId) : Option Bool := (w.scope? x).map Scope.isSetUp

theorem phase?_eq_none {x : ScopeId} : w.phase? x = none ↔ w.scope? x = none :=
  Option.map_eq_none_iff

theorem phase?_of_scope? {x : ScopeId} (h : w'.scope? x = w.scope? x) :
    w'.phase? x = w.phase? x := by
  rw [phase?, phase?, h]

theorem phase?_record (e : Event) (x : ScopeId) : (w.record e).phase? x = w.phase? x := rfl

/-- A scope that is as much set up as it was has not departed. -/
theorem not_departed {x : ScopeId} (h : w'.phase? x = w.phase? x) :
    ¬(w.phase? x = some true ∧ w'.phase? x = none) := by
  rintro ⟨hup, hnone⟩
  rw [h, hup] at hnone
  cases hnone

/-- On the way no scope was made or set up; each that has gone was destroyed once if it was set up,
and nothing was said of the others. -/
structure Departs (w w' : World) (done : List LifeStep) : Prop where
  proceeds : Proceeds w w' done
  size : w'.scopes.size = w.scopes.size
  phase : ∀ x, w'.phase? x = none ∨ w'.phase? x = w.phase? x
  once : ∀ x, done.filter (LifeStep.isOfScope x) =
    if w.phase? x = some true ∧ w'.phase? x = none then [.scopeDestroyed x] else []

namespace Departs

/-- All scopes are still there, and nothing was said of any. -/
theorem of_quiet (h : Proceeds w w' done) (hsize : w'.scopes.size = w.scopes.size)
    (hphase : ∀ x, w'.phase? x = w.phase? x)
    (hquiet : ∀ step ∈ done, ∀ x, step.isOfScope x = false) : Departs w w' done := by
  refine ⟨h, hsize, fun x => .inr (hphase x), fun x => ?_⟩
  rw [if_neg (not_departed (hphase x)), List.filter_eq_nil_iff]
  intro step hstep
  rw [hquiet step hstep]
  exact Bool.false_ne_true

/-- Nothing at all was said. -/
theorem of_silent (h : Inherits w w') (hsteps : w'.steps = w.steps)
    (hsize : w'.scopes.size = w.scopes.size) (hphase : ∀ x, w'.phase? x = w.phase? x) :
    Departs w w' [] :=
  .of_quiet (.of_silent h hsteps) hsize hphase (List.forall_mem_nil _)

theorem refl (w : World) : Departs w w [] := .of_silent (.refl w) rfl rfl fun _ => rfl

theorem trans (h : Departs w w' done) (h' : Departs w' w'' done') :
    Departs w w'' (done ++ done') := by
  refine ⟨h.proceeds.trans h'.proceeds, h'.size.trans h.size, fun x => ?_, fun x => ?_⟩
  · obtain hnone | hsame := h'.phase x
    · exact .inl hnone
    · rw [hsame]
      exact h.phase x
  · rw [List.filter_append, h.once, h'.once]
    obtain hnone | hsame := h.phase x
    · have hnone' : w''.phase? x = none := by
        obtain hnone' | hsame := h'.phase x
        · exact hnone'
        · rw [hsame, hnone]
      simp [hnone, hnone']
    · rw [if_neg (not_departed hsame), hsame, List.nil_append]

end Departs

/-- The members have been taken down, and what was in them before them. -/
structure Released (w w' : World) (ms : List Member) (done : List LifeStep) : Prop where
  cleared : Cleared w w' ms
  departs : Departs w w' done
  farewells : ∀ step ∈ done, step.isFarewell = true

namespace Released

variable {ms ms' : List Member}

/-- What is not there need not be taken down. -/
theorem skip (w : World) {m : Member} (hm : ¬w.Lives m) : Released w w [m] [] :=
  ⟨.skip w hm, .refl w, List.forall_mem_nil _⟩

theorem append (h : Released w w' ms done) (h' : Released w' w'' ms' done') :
    Released w w'' (ms ++ ms') (done ++ done') :=
  ⟨h.cleared.append h'.cleared, h.departs.trans h'.departs,
    List.forall_mem_append.mpr ⟨h.farewells, h'.farewells⟩⟩

end Released

theorem released_releaseNode (w : World) (id : NodeId) :
    ∃ done, Released w (w.releaseNode id) [.node id] done := by
  have hcleared := cleared_releaseNode w id
  have hscope (x : ScopeId) : (w.releaseNode id).scope? x = w.scope? x := by
    rw [scope?, scope?, releaseNode_scopes]
  have hmem {step : LifeStep} (hstep : step ∈ if w.isUp id then [.nodeDestroyed id] else []) :
      w.isUp id = true ∧ step = .nodeDestroyed id := by
    split at hstep
    · exact ⟨‹_›, List.mem_singleton.mp hstep⟩
    · cases hstep
  refine ⟨_, hcleared, .of_quiet (.of_no_farewell
    (.of_cleared hcleared (Nat.le_of_eq (w.releaseNode_size id).symm)) (w.steps_releaseNode id)
    (fun step hstep => ?_) fun x hx => ?_) hcleared.size (fun x => phase?_of_scope? (hscope x))
    fun step hstep x => ?_, fun step hstep => ?_⟩
  · obtain ⟨hup, rfl⟩ := hmem hstep
    obtain ⟨n, hn, -⟩ := isUp_eq_true_iff.mp hup
    exact .inl ⟨n, hn⟩
  · cases (hmem hx).2
  · rw [(hmem hstep).2]
    rfl
  · rw [(hmem hstep).2]
    rfl

/-- If scopes are taken down from the inside, so are the entries of a scope. -/
theorem released_entries (release : World → ScopeId → World) {size : Nat}
    (entries : List (String × Member)) (hr : w.Ranked) (hsize : w.scopes.size = size)
    (hrelease : ∀ w : World, w.Ranked → w.scopes.size = size → ∀ entry ∈ entries, ∀ x,
      entry.2 = .scope x → ∃ done, Released w (release w x) [.scope x] done) :
    ∃ done, Released w (entries.foldl (releaseEntry release) w) (entries.map Prod.snd) done := by
  induction entries generalizing w with
  | nil => exact ⟨[], .refl w, .refl w, List.forall_mem_nil _⟩
  | cons entry entries ih =>
    have hfirst : ∃ done, Released w (releaseEntry release w entry) [entry.2] done := by
      rw [releaseEntry]
      cases hm : entry.2 with
      | node x => exact released_releaseNode w x
      | scope x => exact hrelease w hr hsize entry List.mem_cons_self x hm
      | nodeType t => exact ⟨[], .skip w id⟩
      | scopeType t => exact ⟨[], .skip w id⟩
    obtain ⟨first, hfirst⟩ := hfirst
    obtain ⟨rest, hrest⟩ := ih (hfirst.cleared.ranked hr) (hfirst.cleared.size.trans hsize)
      fun w hr hsize e he => hrelease w hr hsize e (List.mem_cons_of_mem _ he)
    exact ⟨first ++ rest, hfirst.append hrest⟩

/-! ## One scope -/

section Drained

variable {id : ScopeId} {s : Scope}

/-- What lies under something that a scope holds is younger than the scope. -/
theorem Ranked.older_under (hr : w.Ranked) {p x : ScopeId} {name : String} {m : Member}
    (hheld : w.Holds p name m) (h : Under w m (.scope x)) : p.index < x.index := by
  generalize hx : Member.scope x = k at h
  induction h generalizing x with
  | top =>
    subst hx
    exact hr.older p name x hheld
  | entry _ hheld' ih =>
    subst hx
    exact Nat.lt_trans (ih rfl) (hr.older _ _ x hheld')

theorem lives_drained_iff (hs : w.scope? id = some s) (m : Member) :
    (w.drained id s).Lives m ↔ w.Lives m := by
  refine lives_congr (fun x => ?_) (scopeKey?_drained hs) m
  rfl

theorem phase?_drained (hs : w.scope? id = some s) (x : ScopeId) :
    (w.drained id s).phase? x = w.phase? x := by
  rw [phase?, phase?, scope?_drained hs]
  split
  · rename_i hx
    rw [hx, hs]
    rfl
  · rfl

/-- What is gone after the members of a scope have been taken down is younger than the scope. -/
theorem Cleared.younger (hr : w.Ranked) (hs : w.scope? id = some s)
    (h : Cleared (w.drained id s) inner (s.members.toList.map Prod.snd)) {x : ScopeId}
    (hx : w.Lives (.scope x)) (hgone : ¬inner.Lives (.scope x)) : id.index < x.index := by
  obtain hstays | ⟨top, htop, hunder⟩ := h.under _ (lives_drained hs hx)
  · exact absurd hstays hgone
  · obtain ⟨⟨name, _⟩, hentry, rfl⟩ := List.mem_map.mp htop
    refine hr.older_under ((Holds.mem_toList hr.tabled hs).mpr hentry) (hunder.mono ?_)
    exact fun p name m hm => ((holds_drained hs p name m).mp hm).2

/-- So the scope itself is there, without its members. -/
theorem Cleared.self (hr : w.Ranked) (hs : w.scope? id = some s)
    (h : Cleared (w.drained id s) inner (s.members.toList.map Prod.snd)) :
    inner.scope? id = some { s with members := .empty } := by
  have hdrained := (scope?_drained hs id).trans (if_pos rfl)
  obtain hnone | hsame := h.scope id
  · refine absurd (h.younger hr hs ⟨s, hs⟩ ?_) (Nat.lt_irrefl _)
    rintro ⟨t, ht⟩
    rw [hnone] at ht
    cases ht
  · rw [hsame, hdrained]

/-- What lies under a younger scope is found without the members of the older one. -/
theorem Under.drained (hr : w.Ranked) (hs : w.scope? id = some s) {p : ScopeId} {m : Member}
    (h : Under w (.scope p) m) (hp : id.index < p.index) :
    Under (w.drained id s) (.scope p) m := by
  induction h with
  | top => exact .top
  | @entry q name m above hheld ih =>
    refine .entry ih ((holds_drained hs q name m).mpr ⟨?_, hheld⟩)
    rintro rfl
    exact absurd hp (Nat.not_lt_of_le (above.level_le hr.leveled))

/-- After its members have been taken down, the scope may say farewell. -/
theorem Proceeds.ofDrained {last : List LifeStep} (hr : w.Ranked) (hs : w.scope? id = some s)
    (h : Released (w.drained id s) inner (s.members.toList.map Prod.snd) done)
    (hi : Inherits w w') (hlives : ∀ m, w'.Lives m → inner.Lives m)
    (hsize : w'.scopes.size = inner.scopes.size) (hsteps : w'.steps = inner.steps ++ last)
    (hlast : last = [] ∨ last = [.scopeDestroyed id] ∧ ¬w'.Lives (.scope id)) :
    Proceeds w w' (done ++ last) := by
  have hmem {step : LifeStep} (hstep : step ∈ last) : step = .scopeDestroyed id := by
    obtain rfl | ⟨rfl, -⟩ := hlast
    · cases hstep
    · exact List.mem_singleton.mp hstep
  have hscopes : (w.drained id s).scopes.size = w.scopes.size := w.setScope_size _ _
  have hbelow {x : ScopeId} (hx : .scopeDestroyed x ∈ done) : id.index < x.index := by
    obtain ⟨hknown, hgone⟩ := h.departs.proceeds.left x hx
    refine h.cleared.younger hr hs ?_ hgone
    obtain hlives | hlate := h.departs.proceeds.own _ hx
    · exact (lives_drained_iff hs _).mp hlives
    · rw [Beyond, h.cleared.size] at hknown
      exact absurd hlate hknown
  refine ⟨hi, ?_, fun step hstep => ?_, fun x hx => ?_,
    fun p m hunder hne hm before after hsplit step hstep => ?_⟩
  · rw [hsteps, h.departs.proceeds.steps, List.append_assoc]
    rfl
  · obtain hstep | hstep := List.mem_append.mp hstep
    · refine (h.departs.proceeds.own step hstep).imp (lives_drained_iff hs _).mp fun hlate => ?_
      rw [Beyond.eq_def, hscopes] at hlate
      exact hlate
    · rw [hmem hstep]
      exact .inl ⟨s, hs⟩
  · obtain hx | hx := List.mem_append.mp hx
    · obtain ⟨hknown, hgone⟩ := h.departs.proceeds.left x hx
      exact ⟨by rwa [Beyond, hsize], fun hx' => hgone (hlives _ hx')⟩
    · cases hmem hx
      have hself : w.Lives (.scope id) := ⟨s, hs⟩
      refine ⟨fun hlate => hself.not_beyond (hi.beyond hlate), ?_⟩
      obtain rfl | ⟨-, hgone⟩ := hlast
      · cases hx
      · exact hgone
  · obtain ⟨rest, hdone, rfl⟩ | ⟨rest, -, hdone⟩ := append_eq_append_cons hsplit
    · have hp : id.index < p.index := hbelow (by rw [hdone]; simp)
      obtain hstep | hstep := List.mem_append.mp hstep
      · exact h.departs.proceeds.order p m (hunder.drained hr hs hp) hne (lives_drained hs hm) before
          rest hdone step hstep
      · rw [hmem hstep]
        rintro rfl
        exact absurd hp (Nat.not_lt_of_le (hunder.level_le hr.leveled))
    · obtain rfl | ⟨rfl, -⟩ := hlast
      · simp at hdone
      · obtain ⟨-, hcons⟩ := List.append_eq_singleton_iff.mp hdone.symm |>.resolve_right (by simp)
        cases hcons
        cases hstep

theorem filter_farewell (x id : ScopeId) (setUp : Bool) :
    (if setUp then [LifeStep.scopeDestroyed id] else []).filter (LifeStep.isOfScope x) =
      if setUp = true ∧ x = id then [.scopeDestroyed x] else [] := by
  by_cases hx : x = id
  · cases setUp <;> simp [LifeStep.isOfScope, hx]
  · cases setUp <;> simp [LifeStep.isOfScope, hx, Ne.symm hx]

/-- If the members of a scope have been taken down, saying farewell and emptying its place takes the
scope down. -/
theorem Released.ofDrained (hr : w.Ranked) (hs : w.scope? id = some s)
    (h : Released (w.drained id s) inner (s.members.toList.map Prod.snd) done)
    (hnode : ∀ x, w'.node? x = inner.node? x) (hnodes : w.nodes.size ≤ w'.nodes.size)
    (hscope : ∀ x, w'.scope? x = if x = id then none else inner.scope? x)
    (hscopes : w'.scopes.size = inner.scopes.size)
    (hsteps : w'.steps = inner.steps ++ if s.isSetUp then [.scopeDestroyed id] else []) :
    Released w w' [.scope id] (done ++ if s.isSetUp then [.scopeDestroyed id] else []) := by
  have hcleared := h.cleared.ofDrained hr.tabled hs hnode hscope hscopes
  have hlives (m : Member) (hm : w'.Lives m) : inner.Lives m := by
    cases m with
    | node x => rwa [Lives, hnode] at hm
    | scope x =>
      rw [Lives, hscope] at hm
      split at hm
      · cases hm.choose_spec
      · exact hm
    | nodeType t => exact hm
    | scopeType t => exact hm
  refine ⟨hcleared, ⟨.ofDrained hr hs h (.of_cleared hcleared hnodes) hlives hscopes hsteps ?_,
    hcleared.size, fun x => (hcleared.scope x).imp phase?_eq_none.mpr phase?_of_scope?,
    fun x => ?_⟩, List.forall_mem_append.mpr ⟨h.farewells, fun step hstep => ?_⟩⟩
  · split
    · exact .inr ⟨rfl, hcleared.gone _ List.mem_cons_self⟩
    · exact .inl rfl
  · rw [List.filter_append, h.departs.once, filter_farewell, phase?_drained hs, phase?, phase?, phase?,
      hscope]
    by_cases hx : x = id
    · subst hx
      simp [h.cleared.self hr hs, hs]
    · simp [hx]
  · split at hstep
    · rw [List.mem_singleton.mp hstep]
      rfl
    · cases hstep

end Drained

/-- A scope that is set up says farewell; nothing is changed by that. -/
theorem farewell_spec (w : World) (id : ScopeId) (s : Scope) :
    (if s.isSetUp then w.farewell id s else w).nodes = w.nodes ∧
      (if s.isSetUp then w.farewell id s else w).scopes = w.scopes ∧
      (if s.isSetUp then w.farewell id s else w).steps =
        w.steps ++ if s.isSetUp then [.scopeDestroyed id] else [] := by
  split
  · refine ⟨w.recordAll_nodes _, w.recordAll_scopes _, ?_⟩
    rw [farewell, steps_life, steps_recordAll]
    intro e he
    obtain ⟨remark, -, rfl⟩ := List.mem_map.mp he
    rfl
  · exact ⟨rfl, rfl, (List.append_nil _).symm⟩

/-- A scope is taken down from the inside. -/
theorem released_releaseWithin (depth : Nat) (hr : w.Ranked) (id : ScopeId)
    (hdepth : w.scopes.size ≤ id.index + depth) :
    ∃ done, Released w (releaseWithin depth w id) [.scope id] done := by
  induction depth generalizing w id with
  | zero =>
    have hnone : w.scope? id = none := scope?_of_size_le hdepth
    exact ⟨[], .skip w (by simp [Lives, hnone])⟩
  | succ depth ih =>
    cases hs : w.scope? id with
    | none =>
      rw [releaseWithin, hs]
      exact ⟨[], .skip w (by simp [Lives, hs])⟩
    | some s =>
      have hsize := (releaseWithin_fades (depth + 1) w id).size
      have hentries := released_entries (releaseWithin depth) s.members.toList (hr.drained hs)
        (w.setScope_size _ _) fun w' hr' hsize entry hentry x hx => by
          have holder := hr.older id entry.1 x
            ((Holds.mem_toList hr.tabled hs).mpr (by rwa [← hx]))
          exact ih hr' x (by omega)
      rw [releaseWithin_of_scope depth hs] at hsize ⊢
      revert hsize hentries
      generalize s.members.toList.foldl _ (w.drained id s) = inner
      rintro hsize ⟨done, hinner⟩
      simp only [hinner.cleared.self hr hs] at hsize ⊢
      obtain ⟨hnodes, hscopes, hsteps⟩ := farewell_spec inner id { s with members := .empty }
      refine ⟨_, hinner.ofDrained hr hs (fun x => ?_) hsize (fun x => ?_) ?_ hsteps⟩
      · rw [node?_setScope, node?, node?, hnodes]
      · rw [scope?_setScope_none, scope?, scope?, hscopes]
      · rw [setScope_size, hscopes]

/-- Taking a scope down takes down what is in it first. -/
theorem released_release (hr : w.Ranked) (id : ScopeId) :
    ∃ done, Released w (w.release id) [.scope id] done :=
  released_releaseWithin _ hr id (by omega)

/-! ## Destroying and clearing -/

theorem phase?_withMembers (w : World) (p : ScopeId) (f : Table Member → Table Member)
    (x : ScopeId) : (w.withMembers p f).phase? x = w.phase? x := by
  rw [phase?, phase?, scope?_withMembers]
  split
  · rename_i hx
    rw [hx, Option.map_map]
    rfl
  · rfl

variable {loose : ScopeId → Prop}

theorem destroyScope_departs (h : Forest w loose) {id : ScopeId}
    (hloose : ∀ name p, loose id → w.scopeKey? id ≠ some (name, some p)) :
    ∃ done, Departs w (w.destroyScope id) done := by
  have hi := Inherits.of_pruned (h.destroyScope_pruned hloose) (w.destroyScope_fades id).size
  obtain ⟨done, -, hdeparts, -⟩ := released_release h.ranked id
  refine ⟨done, ?_⟩
  by_cases hheld : ∃ name p, w.scopeKey? id = some (name, some p)
  · obtain ⟨name, p, hkey⟩ := hheld
    rw [destroyScope_of_held hkey, unlinked] at hi ⊢
    have hphase := phase?_withMembers (w.release id) p fun members => members.erase name
    refine ⟨hdeparts.proceeds.relink hi (fun m => (lives_withMembers _ _ _ m).mp)
      (modifyScope_size _ _ _) (steps_modifyScope _ _ _),
      (modifyScope_size _ _ _).trans hdeparts.size, fun x => ?_, fun x => ?_⟩
    · rw [hphase]
      exact hdeparts.phase x
    · simp only [hphase]
      exact hdeparts.once x
  · rw [destroyScope_of_free fun name p hkey => hheld ⟨name, p, hkey⟩]
    exact hdeparts

theorem clear_departs (h : Forest w loose) :
    ∃ done, Departs w w.clear done ∧ ∀ step ∈ done, step.isFarewell = true := by
  cases hs : w.scope? .root with
  | none =>
    have hsame : w.clear = w := by rw [clear, hs]
    rw [hsame]
    exact ⟨[], .refl w, List.forall_mem_nil _⟩
  | some root =>
    have hi := Inherits.of_pruned h.clear_pruned w.clear_fades.size
    obtain ⟨done, hentries⟩ := released_entries release root.members.toList (h.ranked.drained hs)
      rfl fun w' hr' _ _ _ x _ => released_release hr' x
    obtain ⟨w', rfl, -, -, hclear⟩ := clear_of_root h.ranked hs
    rw [hclear] at hi ⊢
    have hphase := phase?_withMembers (root.members.toList.foldl (releaseEntry release)
      (w.drained .root root)) .root fun _ => typesOnly root.members
    refine ⟨done ++ [], ⟨.ofDrained h.ranked hs hentries hi
      (fun m => (lives_withMembers _ _ _ m).mp) (modifyScope_size _ _ _)
      ((steps_modifyScope _ _ _).trans (List.append_nil _).symm) (.inl rfl), ?_, fun x => ?_,
      fun x => ?_⟩, by simpa using hentries.farewells⟩
    · exact (modifyScope_size _ _ _).trans (hentries.cleared.size.trans (setScope_size _ _ _))
    · rw [hphase, ← phase?_drained hs]
      exact hentries.departs.phase x
    · simp only [List.append_nil, hphase, ← phase?_drained hs x]
      exact hentries.departs.once x

end World

end FrameGraph
