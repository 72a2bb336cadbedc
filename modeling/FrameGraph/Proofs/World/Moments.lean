import FrameGraph.Proofs.World.Chronicle

/-!
# Moments of a run

A run passes through worlds that its result does not show: those between the steps of a setup, also
of a setup that is run within another, and those between the entries of a list that is worked off.
Every one of them goes before the end of the run, and what is under a scope in it is destroyed
before the scope is.
-/
namespace FrameGraph.World

variable {w w' w'' u : World} {loose : ScopeId → Prop} {id : ScopeId}

/-- Steps have been taken on the way from one world to the other. -/
def Leads (w w' : World) : Prop := ∃ done, Proceeds w w' done

theorem Leads.refl (w : World) : Leads w w := ⟨[], .refl w⟩

theorem Leads.trans (h : Leads w w') (h' : Leads w' w'') : Leads w w'' :=
  ⟨_, h.choose_spec.trans h'.choose_spec⟩

/-- The world was passed through on the way to another. -/
structure Precedes (u w : World) : Prop where
  chronicle : ∃ loose, Chronicle u loose
  leads : Leads u w

theorem Precedes.trans (h : Precedes u w) (h' : Leads w w') : Precedes u w' :=
  ⟨h.chronicle, h.leads.trans h'⟩

theorem Chronicle.precedes (h : Chronicle w loose) : Precedes w w := ⟨⟨loose, h⟩, .refl w⟩

/-- The chronicle goes on from one world to the other, and what is passed through on the way
precedes the other. -/
structure Continues (loose : ScopeId → Prop) (passes : World → Prop) (w w' : World) : Prop where
  chronicle : Chronicle w' loose
  leads : Leads w w'
  precedes : ∀ u, passes u → Precedes u w'

namespace Continues

variable {passes passes' passes'' : World → Prop}

/-- Nothing is passed through where the scopes that are there only depart. -/
theorem of_departs {done : List LifeStep} (h : Chronicle w loose) (hf : Forest w' loose)
    (hd : Departs w w' done) : Continues loose (fun _ => False) w w' :=
  ⟨h.departs hf hd, ⟨done, hd.proceeds⟩, fun _ => False.elim⟩

theorem trans (h : Continues loose passes w w') (h' : Continues loose passes' w' w'')
    (hpasses : ∀ u, passes'' u → Precedes u w' ∨ passes u ∨ passes' u) :
    Continues loose passes'' w w'' := by
  refine ⟨h'.chronicle, h.leads.trans h'.leads, fun u hu => ?_⟩
  obtain hu | hu | hu := hpasses u hu
  · exact hu.trans h'.leads
  · exact (h.precedes u hu).trans h'.leads
  · exact h'.precedes u hu

/-- The world that it starts from may be counted in. -/
theorem start (h : Continues loose passes w w') (hw : Chronicle w loose) : Precedes w w' :=
  hw.precedes.trans h.leads

end Continues

/-! ## Opening and closing a setup -/

theorem Chronicle.opened (h : Chronicle w loose) (p : ScopeId) (name : String) (owner : ScopeId)
    (params : List Value) (type : ScopeType) (hp : p.index < w.scopes.size) :
    Chronicle (w.opened p name owner params type) (fun x => x = ⟨w.scopes.size⟩ ∨ loose x) ∧
      Leads w (w.opened p name owner params type) := by
  have hbeyond {x : ScopeId} (hx : World.Beyond (w.opened p name owner params type) (.scope x)) :
      w.Beyond (.scope x) :=
    Nat.le_trans (Nat.le_succ _) (by simpa [World.opened, Beyond] using hx)
  refine ⟨⟨h.forest.pushScope rfl hp rfl, fun x => ?_⟩, [],
    .of_silent (.of_grows (.pushScope w rfl)) rfl⟩
  by_cases hx : x = ⟨w.scopes.size⟩
  · subst hx
    refine ⟨fun _ => ⟨((h.told _).silent (.inr (Nat.le_refl _))).1, ?_⟩,
      fun hnot => absurd (.inl rfl) hnot, fun hnot => absurd (.inl rfl) hnot⟩
    rw [phase?, World.opened, scope?_push, if_pos rfl]
    simp [Scope.new]
  · have hphase : (w.opened p name owner params type).phase? x = w.phase? x :=
      phase?_of_scope? (scope?_opened p name owner params type hx)
    have hloose : x = ⟨w.scopes.size⟩ ∨ loose x ↔ loose x := or_iff_right hx
    rw [hloose]
    refine ⟨fun hsilent => ?_, fun hnot => ?_, fun hnot hknown => ?_⟩
    · rw [hphase]
      exact (h.told x).silent (hsilent.imp_right hbeyond)
    · rw [hphase]
      exact (h.told x).standing hnot
    · rw [hphase]
      refine (h.told x).gone hnot fun hlate => hknown ?_
      have hne : x.index ≠ w.scopes.size := fun heq => hx (ScopeId.index_eq_iff.mp heq)
      have hlate : w.scopes.size ≤ x.index := hlate
      simp only [World.opened, Beyond, Array.size_push]
      omega

/-- Nothing is said of the scope, or the one step. -/
theorem filter_scopeSetUp (x id : ScopeId) (ok : Bool) :
    [LifeStep.scopeSetUp id ok].filter (LifeStep.isOfScope x) =
      if x = id then [.scopeSetUp x ok] else [] := by
  by_cases hx : x = id
  · simp [LifeStep.isOfScope, hx]
  · simp [LifeStep.isOfScope, hx, Ne.symm hx]

/-- When a scope becomes a member, it counts as set up, and nothing else is different. -/
theorem settle_spec (ht : w.Tabled) {p : ScopeId} {name typeName : String}
    (h : w.settle id p name typeName = (w', .ok id)) : Inherits w w' ∧
      w'.scopes.size = w.scopes.size ∧ w'.steps = w.steps ∧
      ∀ x, w'.phase? x = if x = id then (w.phase? id).map fun _ => true else w.phase? x := by
  rw [settle] at h
  generalize hready : w.modifyScope id (fun s => { s with isSetUp := true }) = ready at h
  have hsame : SameTree w ready := by
    rw [← hready]
    exact .modifyScope w id fun s => ⟨rfl, rfl, rfl⟩
  have hnodes : ready.nodes.size = w.nodes.size := by rw [← hready, modifyScope_nodes]
  have hsteps : ready.steps = w.steps := by rw [← hready, steps_modifyScope]
  have hphase (x : ScopeId) :
      ready.phase? x = if x = id then (w.phase? id).map fun _ => true else w.phase? x := by
    rw [phase?, ← hready, scope?_modifyScope]
    split
    · rw [phase?, Option.map_map, Option.map_map]
      rfl
    · rfl
  obtain ⟨e, hinsert⟩ | ⟨held, hinsert, hadds⟩ :=
    insertMember_cases (ht.sameTree hsame) p name (.scope id)
  · rw [hinsert] at h
    cases h
  · simp only [hinsert] at h
    cases h
    refine ⟨((Inherits.of_sameTree hsame hnodes).trans (.of_adds hadds)).trans
      (.of_sameTree (.record held _) rfl), hadds.size.trans hsame.size, ?_, fun x => ?_⟩
    · rw [steps_record _ rfl, steps, (insertMember_same hinsert).2, ← steps, hsteps]
    · exact (insertMember_keeps (fun _ _ => rfl) hinsert x).trans (hphase x)

/-- A scope whose setup has been completed becomes a member and is no longer loose. -/
theorem settle_chronicle {p : ScopeId} {name : String}
    (h : Chronicle w fun x => x = id ∨ loose x) (hid : ¬loose id)
    (hkey : w.scopeKey? id = some (name, some p)) (hfree : w.isFree p name = true)
    (typeName : String) :
    Chronicle ((w.record (.life (.scopeSetUp id true))).settle id p name typeName).1 loose ∧
      Leads w ((w.record (.life (.scopeSetUp id true))).settle id p name typeName).1 := by
  have hrecorded := h.forest.sameTree (.record w (.life (.scopeSetUp id true)))
  have hlives : w.Lives (.scope id) := lives_scope_iff.mpr ⟨_, hkey⟩
  obtain ⟨w', hsettle, hforest, -⟩ := settle_tree hrecorded hid hkey hfree typeName
  obtain ⟨hsettled, hsize, hsteps, hphase⟩ := settle_spec hrecorded.tabled hsettle
  have hinherits : Inherits w w' := (Inherits.of_sameTree (.record w _) rfl).trans hsettled
  rw [steps_life] at hsteps
  rw [hsettle]
  refine ⟨⟨hforest, fun x => ?_⟩, _, .of_no_farewell hinherits hsteps (fun step hstep => ?_)
    fun x hx => ?_⟩
  · have hscope := scopeSteps_of_steps hsteps x
    rw [filter_scopeSetUp] at hscope
    by_cases hx : x = id
    · subst hx
      rw [if_pos rfl, ((h.told x).silent (.inl (.inl rfl))).1] at hscope
      have hup : w'.phase? x = some true := by
        obtain ⟨s, hs⟩ := hlives
        rw [hphase, if_pos rfl, phase?, scope?_record, hs]
        rfl
      refine ⟨fun hsilent => ?_, fun _ setUp hset => ?_, fun _ _ hnone => ?_⟩
      · obtain hl | hlate := hsilent
        · exact absurd hl hid
        · exact absurd (hinherits.beyond hlate) hlives.not_beyond
      · exact ⟨Option.some.inj (hset.symm.trans hup), hscope⟩
      · exact absurd (hup.symm.trans hnone) (Option.some_ne_none _)
    · rw [if_neg hx, List.append_nil] at hscope
      exact (h.others hx).of_eq hscope ((hphase x).trans (if_neg hx)) hsize
  · rw [List.mem_singleton.mp hstep]
    exact .inl hlives
  · cases List.mem_singleton.mp hx

/-- A scope whose setup was refused is gone, with what is in it. -/
theorem abandon_chronicle (h : Chronicle w fun x => x = id ∨ loose x) (hid : ¬loose id)
    (hlives : w.Lives (.scope id)) :
    Chronicle ((w.record (.life (.scopeSetUp id false))).release id) loose ∧
      Leads w ((w.record (.life (.scopeSetUp id false))).release id) := by
  have hforest := h.forest.sameTree (.record w (.life (.scopeSetUp id false)))
  have hrecorded : Proceeds w (w.record (.life (.scopeSetUp id false))) [.scopeSetUp id false] := by
    refine .of_no_farewell (.of_sameTree (.record w _) rfl) (w.steps_life _) (fun step hstep => ?_)
      fun x hx => ?_
    · rw [List.mem_singleton.mp hstep]
      exact .inl hlives
    · cases List.mem_singleton.mp hx
  obtain ⟨done, hcleared, hdeparts, -⟩ := released_release hforest.ranked id
  refine ⟨⟨hforest.releaseLoose, fun x => ?_⟩, _, hrecorded.trans hdeparts.proceeds⟩
  have hscope := scopeSteps_of_steps hrecorded.steps x
  rw [filter_scopeSetUp] at hscope
  by_cases hx : x = id
  · subst hx
    obtain ⟨hnil, hdown⟩ := (h.told x).silent (.inl (.inl rfl))
    rw [if_pos rfl, hnil] at hscope
    have hgone : (World.release (w.record (.life (.scopeSetUp x false))) x).phase? x = none :=
      phase?_eq_none.mpr (Option.eq_none_iff_forall_ne_some.mpr
        (not_exists.mp (hcleared.gone _ List.mem_cons_self)))
    have hafter := scopeSteps_of_steps hdeparts.proceeds.steps x
    rw [hdeparts.once, if_neg fun hup => hdown hup.1, hscope] at hafter
    refine ⟨fun hsilent => ?_, fun _ setUp hset => ?_, fun _ _ _ => .inl hafter⟩
    · obtain hl | hlate := hsilent
      · exact absurd hl hid
      · exact absurd ((hrecorded.trans hdeparts.proceeds).beyond hlate) hlives.not_beyond
    · exact absurd (hset.symm.trans hgone) (Option.some_ne_none _)
  · rw [if_neg hx, List.append_nil] at hscope
    exact ((h.others hx).of_eq hscope rfl rfl).departs hdeparts

/-! ## Setups -/

/-- One step of a setup: the world after it and what is left to do, unless the setup is over. -/
def advance? (w : World) (self : ScopeId) : Setup → Option (World × Setup)
  | .done | .fail _ => none
  | .look next => (w.scope? self).map fun s => (w, next (w.viewScope self s))
  | .say remark next => some (w.record (.remark remark), next)
  | .keep window next => some (w.modifyScope self fun s => { s with window := some window }, next)
  | .defineNodeType location name type next =>
    let defined := w.define (locate self location) name (.nodeType type)
    some (defined.1, next defined.2)
  | .defineScopeType location name type next =>
    let defined := w.define (locate self location) name (.scopeType type)
    some (defined.1, next defined.2)
  | .makeNode location name type params next =>
    let made := w.makeNode (locate self location) name type self params
    some (made.1, next made.2)
  | .makeScope location name type params next =>
    let made := w.makeScope (locate self location) name self params type
    some (made.1, next made.2)

theorem runSetup_of_advance? {setup next : Setup} (h : w.advance? id setup = some (w', next)) :
    w.runSetup id setup = w'.runSetup id next := by
  cases setup with
  | done => cases h
  | fail => cases h
  | look rest =>
    obtain ⟨s, hs, heq⟩ := Option.map_eq_some_iff.mp h
    cases heq
    rw [runSetup, hs]
  | say => cases h; rw [runSetup]
  | keep => cases h; rw [runSetup]
  | defineNodeType => cases h; rw [runSetup]
  | defineScopeType => cases h; rw [runSetup]
  | makeNode => cases h; rw [runSetup]
  | makeScope => cases h; rw [runSetup]

/-- One step of a setup is the whole of a shorter one. -/
theorem runSetup_of_step {setup next : Setup} (h : w.advance? id setup = some (w', next)) : ∃ only, (w.runSetup id only).1 = w' := by
  cases setup with
  | done => cases h
  | fail => cases h
  | look rest =>
    obtain ⟨s, -, heq⟩ := Option.map_eq_some_iff.mp h
    cases heq
    exact ⟨.done, by rw [runSetup]⟩
  | say remark => cases h; exact ⟨.say remark .done, by simp only [runSetup]⟩
  | keep window => cases h; exact ⟨.keep window .done, by simp only [runSetup]⟩
  | defineNodeType location name type =>
    cases h
    exact ⟨.defineNodeType location name type fun _ => .done, by simp only [runSetup]⟩
  | defineScopeType location name type =>
    cases h
    exact ⟨.defineScopeType location name type fun _ => .done, by simp only [runSetup]⟩
  | makeNode location name type params =>
    cases h
    exact ⟨.makeNode location name type params fun _ => .done, by simp only [runSetup]⟩
  | makeScope location name type params =>
    cases h
    exact ⟨.makeScope location name type params fun _ => .done, by simp only [runSetup]⟩

theorem runSetup_of_stopped {setup : Setup} (h : w.advance? id setup = none) :
    (w.runSetup id setup).1 = w := by
  cases setup with
  | done => rw [runSetup]
  | fail => rw [runSetup]
  | look rest => rw [runSetup, Option.map_eq_none_iff.mp h]
  | say => cases h
  | keep => cases h
  | defineNodeType => cases h
  | defineScopeType => cases h
  | makeNode => cases h
  | makeScope => cases h

/-- The worlds that a setup passes through, also inside the setups that it starts. -/
inductive SetupPasses : World → ScopeId → Setup → World → Prop
  | now {w : World} {self : ScopeId} {setup : Setup} : SetupPasses w self setup w
  | later {w w' u : World} {self : ScopeId} {setup next : Setup}
    (step : w.advance? self setup = some (w', next)) (rest : SetupPasses w' self next u) :
    SetupPasses w self setup u
  | inside {w u : World} {self : ScopeId} {location : Location} {name : String} {type : ScopeType}
    {params : List Value} {next : Except WorldError ScopeId → Setup}
    (isFree : w.isFree (locate self location) name = true)
    (inner : SetupPasses (w.opened (locate self location) name self params type) ⟨w.scopes.size⟩
      type.setup u) : SetupPasses w self (.makeScope location name type params next) u

/-- The worlds that are passed through while a scope is made and set up. -/
def MakingPasses (w : World) (p : ScopeId) (name : String) (owner : ScopeId) (params : List Value)
    (type : ScopeType) (u : World) : Prop :=
  w.isFree p name = true ∧
    SetupPasses (w.opened p name owner params type) ⟨w.scopes.size⟩ type.setup u

/-- The chronicle is kept by the program that sets up the scope. -/
def KeepsChronicle (id : ScopeId) (setup : Setup) : Prop :=
  ∀ (w : World) (loose : ScopeId → Prop), (Chronicle w fun x => x = id ∨ loose x) →
    Continues (fun x => x = id ∨ loose x) (SetupPasses w id setup) w (w.runSetup id setup).1

theorem KeepsChronicle.of_advance? {setup next : Setup} {passes : World → Prop}
    (hnext : KeepsChronicle id next) (h : Chronicle w fun x => x = id ∨ loose x)
    (hstep : w.advance? id setup = some (w', next))
    (h' : Continues (fun x => x = id ∨ loose x) passes w w')
    (hinside : ∀ location name type params rest, setup = .makeScope location name type params rest →
      ∀ u, MakingPasses w (locate id location) name id params type u → passes u) :
    Continues (fun x => x = id ∨ loose x) (SetupPasses w id setup) w (w.runSetup id setup).1 := by
  rw [runSetup_of_advance? hstep]
  refine h'.trans (hnext w' loose h'.chronicle) fun u hu => ?_
  cases hu with
  | now => exact .inl (h'.start h)
  | later step rest =>
    cases hstep.symm.trans step
    exact .inr (.inr rest)
  | inside isFree inner => exact .inr (.inl (hinside _ _ _ _ _ rfl u ⟨isFree, inner⟩))

theorem keepsChronicle_of_stopped {setup : Setup} (h : Chronicle w fun x => x = id ∨ loose x)
    (hstop : w.advance? id setup = none) :
    Continues (fun x => x = id ∨ loose x) (SetupPasses w id setup) w (w.runSetup id setup).1 := by
  rw [runSetup_of_stopped hstop]
  refine ⟨h, .refl w, fun u hu => ?_⟩
  cases hu with
  | now => exact h.precedes
  | later step => cases hstop.symm.trans step
  | inside => cases hstop

/-- Making a scope keeps the chronicle if its setup does. -/
theorem makeScope_chronicle (h : Chronicle w loose) (p : ScopeId) (name : String) (owner : ScopeId)
    (params : List Value) {type : ScopeType} (htype : type.Confined)
    (hsetup : ∀ id, KeepsChronicle id type.setup) :
    Continues loose (MakingPasses w p name owner params type) w
      (w.makeScope p name owner params type).1 := by
  by_cases hfree : w.isFree p name = true
  · rw [makeScope_of_isFree hfree]
    generalize hrun : runSetup _ _ type.setup = outcome
    obtain ⟨w', answer⟩ := outcome
    obtain ⟨-, hloose, hkey, hfree', hp, -⟩ :=
      runSetup_opened h.forest hfree owner params (setsUpInside (htype _)) hrun
    obtain ⟨hopened, hopening⟩ := h.opened p name owner params type hp
    obtain ⟨hset, hsetting, hpasses⟩ := hsetup _ _ loose hopened
    rw [hrun] at hset hsetting hpasses
    have hopening := hopening.trans hsetting
    -- What is passed through precedes the end of the setup; settling or giving up leads on.
    cases answer with
    | ok =>
      obtain ⟨hend, hleads⟩ := settle_chronicle hset hloose hkey hfree' type.name
      exact ⟨hend, hopening.trans hleads, fun u hu => (hpasses u hu.2).trans hleads⟩
    | error reason =>
      obtain ⟨hend, hleads⟩ := abandon_chronicle hset hloose (lives_scope_iff.mpr ⟨_, hkey⟩)
      exact ⟨hend, hopening.trans hleads, fun u hu => (hpasses u hu.2).trans hleads⟩
  · rw [makeScope_eq, if_neg hfree]
    exact ⟨h, .refl w, fun u hu => absurd hu.1 hfree⟩

/-- A confined setup keeps the chronicle. -/
theorem keepsChronicle {setup : Setup} (h : setup.Confined id) : KeepsChronicle id setup := by
  induction h with
  | done => exact fun w loose hw => keepsChronicle_of_stopped hw rfl
  | fail => exact fun w loose hw => keepsChronicle_of_stopped hw rfl
  | @look id next _ ih =>
    intro w loose hw
    cases hs : w.scope? id with
    | none => exact keepsChronicle_of_stopped hw (by rw [advance?, hs]; rfl)
    | some s =>
      exact (ih _ rfl).of_advance? hw (by rw [advance?, hs]; rfl)
        (.of_departs hw hw.forest (.refl w)) (by simp)
  | say _ ih =>
    intro w loose hw
    exact ih.of_advance? hw rfl
      (.of_departs hw (hw.forest.sameTree (.record w _)) (.record w rfl)) (by simp)
  | @keep id window _ _ ih =>
    intro w loose hw
    have hforest := hw.forest.sameTree (.modifyScope w id
      (f := fun s => { s with window := some window }) fun s => ⟨rfl, rfl, rfl⟩)
    exact ih.of_advance? hw rfl (.of_departs hw hforest
      (modifyScope_departs w id (fun s => ⟨rfl, rfl⟩) fun s => rfl)) (by simp)
  | @defineNodeType id location name type next _ _ ih =>
    intro w loose hw
    obtain ⟨hforest, -⟩ :=
      define_tree hw.forest (locate id location) name (m := .nodeType type) rfl
        fun t ht => by cases ht
    exact (ih _).of_advance? hw rfl
      (.of_departs hw hforest (define_departs hw.forest.tabled _ _ _)) (by simp)
  | @defineScopeType id location name type next _ htype _ _ ih =>
    intro w loose hw
    obtain ⟨hforest, -⟩ :=
      define_tree hw.forest (locate id location) name (m := .scopeType type) rfl
        fun t ht => by cases ht; exact htype
    exact (ih _).of_advance? hw rfl
      (.of_departs hw hforest (define_departs hw.forest.tabled _ _ _)) (by simp)
  | @makeNode id location name type params next _ _ ih =>
    intro w loose hw
    obtain ⟨hforest, -⟩ := makeNode_tree hw.forest (locate id location) name type id params
    exact (ih _).of_advance? hw rfl
      (.of_departs hw hforest (makeNode_departs hw.forest.tabled _ _ _ _ _)) (by simp)
  | @makeScope id location name type params next _ htype _ ihtype ih =>
    intro w loose hw
    have hlater : ∀ child, (w.makeScope (locate id location) name id params type).2 = .ok child →
        id.index < child.index := by
      intro child hchild
      rw [makeScope_answer hchild]
      exact hw.forest.known id (.inl rfl)
    exact (ih _ hlater).of_advance? hw rfl
      (makeScope_chronicle hw (locate id location) name id params htype ihtype)
      fun _ _ _ _ _ heq u hu => by cases heq; exact hu

end FrameGraph.World
