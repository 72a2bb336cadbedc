import FrameGraph.Proofs.World.Growth
import FrameGraph.Proofs.World.Moments

/-!
# The stages of a change

A change from outside is a list that is worked off: the entries of a catalog, or the statements of a
program, twice. Between two items the scopes that are there have been set up, and each item keeps
the chronicle, so the whole list does.
-/
namespace FrameGraph

namespace World

variable {w w' : World}

/-- The scopes have the steps that they should have, and only the root is not set up. -/
def Settled (w : World) : Prop := Chronicle w fun x => x = .root

/-- What is settled stays settled, and what is passed through on the way goes before the end. -/
def Settles (passes : World → Prop) (w w' : World) : Prop :=
  w.Settled → Continues (fun x => x = .root) passes w w'

theorem Settled.tree (h : w.Settled) : w.Tree := h.forest

theorem Settles.refl (w : World) : Settles (fun _ => False) w w :=
  fun h => .of_departs h h.forest (.refl w)

theorem Settles.trans {w'' : World} (h : Settles (fun _ => False) w w')
    (h' : Settles (fun _ => False) w' w'') : Settles (fun _ => False) w w'' :=
  fun hw => (h hw).trans (h' (h hw).chronicle) fun _ => False.elim

theorem Settles.of_none {passes : World → Prop} (h : Settles (fun _ => False) w w')
    (hnone : ∀ u, ¬passes u) : Settles passes w w' :=
  fun hw => ⟨(h hw).chronicle, (h hw).leads, fun u hu => absurd hu (hnone u)⟩

theorem new_settled {journal : Array Event} (h : ∀ e ∈ journal, e.step? = none) :
    (World.new journal).Settled := by
  have hnone : (World.new journal).steps = [] :=
    List.filterMap_eq_nil_iff.mpr fun e he => h e (Array.mem_def.mpr he)
  have hscope (x : ScopeId) : (World.new journal).scopeSteps x = [] := by
    rw [scopeSteps, hnone]
    rfl
  refine ⟨new_tree journal, fun x => ⟨fun _ => ⟨hscope x, ?_⟩, fun hx setUp hphase => ?_,
    fun hx hknown _ => ?_⟩⟩
  · rw [phase?, scope?_new]
    split <;> simp [Scope.new]
  · rw [phase?, scope?_new, if_neg hx] at hphase
    cases hphase
  · refine absurd ?_ hknown
    have hne : x.index ≠ 0 := fun hzero => hx (ScopeId.index_eq_iff.mp hzero)
    exact Nat.one_le_iff_ne_zero.mpr hne

theorem Edit.settles (h : Edit w w') : Settles (fun _ => False) w w' := by
  intro hw
  have htree := h.tree hw.tree
  cases h with
  | record e notLife => exact .of_departs hw htree (.record w (Event.step?_eq_none notLife))
  | connect target index source =>
    exact .of_departs hw htree (.of_silent
      (.of_sameTree (.modifyNode w target fun n => ⟨rfl, rfl⟩) (w.modifyNode_size _ _))
      (w.steps_modifyNode _ _) (by rw [modifyNode_scopes])
      fun x => phase?_of_scope? (w.scope?_modifyNode _ _ x))
  | define scope name type isType confined =>
    exact .of_departs hw htree (define_departs hw.forest.tabled _ _ _)
  | makeNode parent name type owner params =>
    exact .of_departs hw htree (makeNode_departs hw.forest.tabled _ _ _ _ _)
  | makeScope parent name owner params type confined =>
    obtain ⟨hend, hleads, -⟩ := makeScope_chronicle hw parent name owner params confined
      fun id => keepsChronicle (confined id)
    exact ⟨hend, hleads, fun _ => False.elim⟩
  | destroyScope id =>
    have hheld : ∀ name p, id = .root → w.scopeKey? id ≠ some (name, some p) := by
      rintro name p rfl hkey
      exact Nat.not_lt_zero _ (hw.forest.older .root name p hkey)
    obtain ⟨done, hdeparts⟩ := destroyScope_departs hw.forest hheld
    exact .of_departs hw htree hdeparts
  | clear =>
    obtain ⟨done, hdeparts, -⟩ := clear_departs hw.forest
    exact .of_departs hw htree hdeparts

theorem Edits.settles (h : Edits w w') : Settles (fun _ => False) w w' := by
  induction h with
  | refl => exact .refl w
  | tail _ hlast ih => exact ih.trans hlast.settles

/-! ## Lists -/

/-- The worlds that are passed through while a list is worked off: those between the items, and
those within the work on one. -/
inductive FoldPasses {α β : Type} (f : β → α → β) (world : β → World)
    (within : β → α → World → Prop) : β → List α → World → Prop
  | between {b : β} {l : List α} : FoldPasses f world within b l (world b)
  | within {b : β} {a : α} {l : List α} {u : World} (inner : within b a u) :
    FoldPasses f world within b (a :: l) u
  | later {b : β} {a : α} {l : List α} {u : World}
    (rest : FoldPasses f world within (f b a) l u) : FoldPasses f world within b (a :: l) u

theorem foldl_settles {α β : Type} {f : β → α → β} {world : β → World}
    {within : β → α → World → Prop} {l : List α}
    (h : ∀ b, ∀ a ∈ l, Settles (within b a) (world b) (world (f b a))) (b : β) :
    Settles (FoldPasses f world within b l) (world b) (world (l.foldl f b)) := by
  induction l generalizing b with
  | nil =>
    intro hw
    refine ⟨hw, .refl _, fun u hu => ?_⟩
    cases hu
    exact hw.precedes
  | cons a l ih =>
    intro hw
    -- The first item is worked on in a settled world, and so are the others.
    have hfirst := h b a List.mem_cons_self hw
    have hrest := ih (fun b a ha => h b a (List.mem_cons_of_mem _ ha)) (f b a) hfirst.chronicle
    refine hfirst.trans hrest fun u hu => ?_
    cases hu with
    | between => exact .inl (hfirst.start hw)
    | within inner => exact .inr (.inl inner)
    | later rest => exact .inr (.inr rest)

end World

open World

/-! ## Catalogs -/

namespace Catalog

/-- The worlds that are passed through while a plugin is instantiated. -/
def EntryPasses (scope : ScopeId) (p : Populating) (entry : CatalogEntry) (u : World) : Prop :=
  ∃ t, entry = .plugin t ∧ MakingPasses p.1 scope t.name scope (defaults t.params) t u

/-- The worlds that are passed through while a catalog is put into a scope. -/
def Passes (c : Catalog) (w : World) (scope : ScopeId) : World → Prop :=
  FoldPasses (installEntry scope) Prod.fst (EntryPasses scope) (w, []) c.entries

theorem populate_settles {c : Catalog} (h : c.Confined) (w : World) (scope : ScopeId) :
    Settles (c.Passes w scope) w (c.populate w scope).1 := by
  refine foldl_settles (fun p entry hentry hw => ?_) (w, [])
  obtain ⟨hend, hleads, -⟩ := (installEntry_edit scope p (h.entries entry hentry)).settles hw
  refine ⟨hend, hleads, ?_⟩
  rintro u ⟨t, rfl, hu⟩
  have htype := h.entries _ hentry t (.inr rfl)
  rw [installEntry, installPlugin_world]
  exact (makeScope_chronicle hw _ _ _ _ htype fun id => keepsChronicle (htype id)).precedes u hu

end Catalog

/-! ## Programs -/

namespace Assembly

open Script

/-- The worlds that are passed through while a statement makes a scope. -/
def StatementPasses (scope : ScopeId) (a : Assembly) (s : Statement) (u : World) : Prop :=
  s.instantiates = true ∧ ∃ source destination t params,
    a.world.resolve scope s.source.names = some source ∧ source.member = .scopeType t ∧
    a.world.resolveScope scope s.target.leading = some destination ∧
    Signature.values ⟨t.name, t.params, s.line⟩ s.assignments = .ok params ∧
    MakingPasses a.world destination s.target.last.name source.container params t u

/-- The worlds that are passed through while a program is put together. -/
def Passes (w : World) (scope : ScopeId) (p : Program) (u : World) : Prop :=
  FoldPasses (makeStep scope) Assembly.world (StatementPasses scope) (start w) p.statements u ∨
    FoldPasses (connectStep scope) Assembly.world (fun _ _ _ => False)
      (p.statements.foldl (makeStep scope) (start w)) p.statements u

/-- A statement that makes a scope does nothing else. -/
theorem makeStep_scope {scope : ScopeId} {a : Assembly} {s : Statement} {source : Resolved}
    {destination : ScopeId} {t : ScopeType} {params : List Value} (h : s.instantiates = true)
    (hsource : a.world.resolve scope s.source.names = some source)
    (htype : source.member = .scopeType t)
    (hdestination : a.world.resolveScope scope s.target.leading = some destination)
    (hfree : a.world.isFree destination s.target.last.name = true)
    (hparams : Signature.values ⟨t.name, t.params, s.line⟩ s.assignments = .ok params) :
    (makeStep scope a s).world =
      (a.world.makeScope destination s.target.last.name source.container params t).1 := by
  have hnot : (a.world.scope? destination).any
      (fun d => d.members.contains s.target.last.name) = false := by
    rw [isFree] at hfree
    cases hd : a.world.scope? destination with
    | none => rfl
    | some d => simpa [hd] using hfree
  rw [makeStep_world, if_pos h, instantiate, hsource]
  simp only [hdestination, hnot, Bool.false_eq_true, if_false, htype, make, hparams]
  generalize a.world.makeScope destination s.target.last.name source.container params t = made
  obtain ⟨w', answer⟩ := made
  cases answer <;> rfl

theorem makeStep_settles (scope : ScopeId) (a : Assembly) (s : Statement) :
    Settles (StatementPasses scope a s) a.world (makeStep scope a s).world := by
  intro hw
  obtain ⟨hend, hleads, -⟩ := (makeStep_edits hw.tree scope s).settles hw
  refine ⟨hend, hleads, ?_⟩
  rintro u ⟨hmakes, source, destination, t, params, hsource, hmember, hdestination, hparams, hu⟩
  obtain ⟨-, name, hheld⟩ := resolve_spec hsource
  have htype : ScopeType.Confined t := hw.forest.types _ name t (hmember ▸ hheld)
  rw [makeStep_scope hmakes hsource hmember hdestination hu.1 hparams]
  exact (makeScope_chronicle hw _ _ _ _ htype fun id => keepsChronicle (htype id)).precedes u hu

theorem apply_settles (w : World) (scope : ScopeId) (p : Program) :
    Settles (Passes w scope p) w (apply w scope p).world := by
  intro hw
  have hmade :=
    foldl_settles (l := p.statements) (fun a s _ => makeStep_settles scope a s) (start w) hw
  have hconnected := foldl_settles (l := p.statements)
    (fun a s _ => (connectStep_edits a scope s).settles) _ hmade.chronicle
  exact hmade.trans hconnected fun u => .inr

end Assembly

/-! ## Changes -/

namespace Change

/-- The worlds that are passed through during a change. -/
def Passes (w : World) : Change → World → Prop
  | populate catalog scope => catalog.Passes w scope
  | apply scope program => Assembly.Passes w scope program
  | makeScope parent name type owner params => MakingPasses w parent name owner params type
  | makeNode .. | destroyScope _ | clear => fun _ => False

theorem settles (c : Change) (h : c.Confined) (w : World) : Settles (c.Passes w) w (c.run w) := by
  cases c with
  | populate catalog scope => exact Catalog.populate_settles h w scope
  | apply scope program => exact Assembly.apply_settles w scope program
  | makeNode parent name type owner params =>
    exact (Edit.makeNode w parent name type owner params).settles
  | makeScope parent name type owner params =>
    exact fun hw => makeScope_chronicle hw _ _ _ _ h fun id => keepsChronicle (h id)
  | destroyScope id => exact (Edit.destroyScope w id).settles
  | clear => exact (Edit.clear w).settles

end Change

end FrameGraph
