import FrameGraph.Assembly.Basic
import FrameGraph.Catalog
import FrameGraph.Proofs.World.Creation
import Mathlib.Logic.Relation

/-!
# Edits

What is done to a world from outside comes down to a few edits, each of which keeps the tree. A
program is put together by such edits too: the types that it uses are members of the world, so their
setups are confined if those of all members are.
-/
namespace FrameGraph.World

open Relation (ReflTransGen)

variable {w w' : World}

/-- Everything but the root is held once, by the scope that it has as its parent. -/
def Tree (w : World) : Prop := Forest w fun x => x = .root

/-- One edit of a world. -/
inductive Edit : World → World → Prop
  | record (w : World) (e : Event) (notLife : ∀ step, e ≠ .life step) : Edit w (w.record e)
  | connect (w : World) (target : NodeId) (index : Nat) (source : NodeId) :
    Edit w (w.modifyNode target (·.connect index source))
  | define (w : World) (scope : ScopeId) (name : String) (type : Member)
    (isType : type.isOwned = false) (confined : ∀ t, type = .scopeType t → ScopeType.Confined t) :
    Edit w (w.define scope name type).1
  | makeNode (w : World) (parent : ScopeId) (name : String) (type : NodeType) (owner : ScopeId)
    (params : List Value) : Edit w (w.makeNode parent name type owner params).1
  | makeScope (w : World) (parent : ScopeId) (name : String) (owner : ScopeId)
    (params : List Value) (type : ScopeType) (confined : type.Confined) :
    Edit w (w.makeScope parent name owner params type).1
  | destroyScope (w : World) (id : ScopeId) : Edit w (w.destroyScope id)
  | clear (w : World) : Edit w w.clear

/-- Any number of edits. -/
abbrev Edits : World → World → Prop := ReflTransGen Edit

theorem Tree.sameTree (h : w.Tree) (hs : SameTree w w') : w'.Tree := Forest.sameTree h hs

theorem Tree.destroyScope_pruned (h : w.Tree) (id : ScopeId) : Pruned w (w.destroyScope id) := by
  refine Forest.destroyScope_pruned h ?_
  rintro name p rfl hkey
  exact Nat.not_lt_zero _ (Forest.older h .root name p hkey)

theorem Edit.tree (h : Edit w w') (ht : w.Tree) : w'.Tree := by
  cases h with
  | record e => exact ht.sameTree (.record w e)
  | connect target index source =>
    exact ht.sameTree (.modifyNode w target fun n => ⟨rfl, rfl⟩)
  | define scope name type isType confined => exact (define_tree ht scope name isType confined).1
  | makeNode parent name type owner params => exact (makeNode_tree ht parent name type owner params).1
  | makeScope parent name owner params type confined =>
    exact (makeScope_confined ht parent name owner params confined).1
  | destroyScope id => exact Forest.pruned ht (ht.destroyScope_pruned id)
  | clear => exact Forest.pruned ht (Forest.clear_pruned ht)

theorem Edits.tree (h : Edits w w') (ht : w.Tree) : w'.Tree := by
  induction h with
  | refl => exact ht
  | tail _ hlast ih => exact hlast.tree ih

/-- Writing down what is no step is a run of edits. -/
theorem recordAll_edits (w : World) {es : List Event} (h : ∀ e ∈ es, ∀ step, e ≠ .life step) :
    Edits w (w.recordAll es) := by
  induction es generalizing w with
  | nil => exact .refl
  | cons e es ih =>
    obtain ⟨he, hes⟩ := List.forall_mem_cons.mp h
    exact .head (.record w e he) (ih _ hes)

theorem scope?_new (journal : Array Event) (x : ScopeId) : (World.new journal).scope? x =
    if x = .root then some (.new "root" (.plain "root") none none []) else none := by
  obtain ⟨i⟩ := x
  cases i with
  | zero => rfl
  | succ i => rfl

theorem not_holds_new {journal : Array Event} {p : ScopeId} {name : String} {m : Member} :
    ¬(World.new journal).Holds p name m := by
  rintro ⟨s, hs, hm⟩
  rw [scope?_new] at hs
  split at hs
  · cases hs
    exact List.not_mem_nil ((Table.get?_eq_some_iff Table.empty_valid.sound m).mp hm)
  · cases hs

theorem new_tree (journal : Array Event) : (World.new journal).Tree := by
  have hroot {x : ScopeId} {s : Scope} (hs : (World.new journal).scope? x = some s) :
      x = .root ∧ s = .new "root" (.plain "root") none none [] := by
    rw [scope?_new] at hs
    split at hs
    · rename_i hx
      exact ⟨hx, (Option.some.inj hs).symm⟩
    · cases hs
  have hkey {x : ScopeId} {key : String × Option ScopeId}
      (hx : (World.new journal).scopeKey? x = some key) : x = .root ∧ key = ("root", none) := by
    obtain ⟨s, hs, rfl⟩ := Option.map_eq_some_iff.mp hx
    obtain ⟨hroot, rfl⟩ := hroot hs
    exact ⟨hroot, rfl⟩
  refine ⟨fun x s hs => ?_, fun p name x => ?_, fun p name x => ?_, fun x name hx => ?_,
    fun x name p hx => ?_, fun x hx => ?_, fun p name t ht => absurd ht not_holds_new⟩
  · rw [(hroot hs).2]
    exact Table.empty_valid
  · exact iff_of_false not_holds_new nofun
  · exact iff_of_false not_holds_new fun h => h.1 (hkey h.2).1
  · exact (hkey hx).1
  · cases (hkey hx).2
  · rw [hx]
    exact Nat.one_pos

end World

namespace Catalog

open World Relation

variable {w : World} {c : Catalog}

theorem installType_world (scope : ScopeId) (name : String) (type : Member) (p : Populating) :
    (installType scope name type p).1 = (p.1.define scope name type).1 := by
  rw [installType]
  obtain ⟨w, answer⟩ := p.1.define scope name type
  cases answer <;> rfl

theorem installPlugin_world (scope : ScopeId) (type : ScopeType) (p : Populating) :
    (installPlugin scope type p).1 =
      (p.1.makeScope scope type.name scope (defaults type.params) type).1 := by
  rw [installPlugin]
  obtain ⟨w, answer⟩ := p.1.makeScope scope type.name scope (defaults type.params) type
  cases answer <;> rfl

theorem installEntry_edit (scope : ScopeId) (p : Populating) {entry : CatalogEntry}
    (hconfined : ∀ t, entry = .scopeType t ∨ entry = .plugin t → ScopeType.Confined t) :
    Edit p.1 (installEntry scope p entry).1 := by
  cases entry with
  | nodeType t =>
    rw [installEntry, installType_world]
    exact .define _ _ _ _ rfl nofun
  | scopeType t =>
    rw [installEntry, installType_world]
    exact .define _ _ _ _ rfl fun u hu => by cases hu; exact hconfined t (.inl rfl)
  | plugin t =>
    rw [installEntry, installPlugin_world]
    exact .makeScope _ _ _ _ _ _ (hconfined t (.inr rfl))

theorem Confined.entries (h : c.Confined) : ∀ entry ∈ c.entries, ∀ t,
    entry = .scopeType t ∨ entry = .plugin t → ScopeType.Confined t := by
  rintro entry hentry t (rfl | rfl)
  · exact h.1 t (by simpa [Catalog.entries] using hentry)
  · exact h.2 t (by simpa [Catalog.entries] using hentry)

theorem populate_edits (h : c.Confined) (w : World) (scope : ScopeId) :
    Edits w (c.populate w scope).1 := by
  have hall (entries : List CatalogEntry) (p : Populating)
      (hentries : ∀ entry ∈ entries, ∀ t,
        entry = .scopeType t ∨ entry = .plugin t → ScopeType.Confined t) :
      Edits p.1 (entries.foldl (installEntry scope) p).1 := by
    induction entries generalizing p with
    | nil => exact .refl
    | cons entry entries ih =>
      refine .head (installEntry_edit scope p (hentries entry List.mem_cons_self)) ?_
      exact ih _ fun e he => hentries e (List.mem_cons_of_mem _ he)
  exact hall c.entries (w, []) h.entries

end Catalog

namespace Assembly

open Script World Relation

variable {w : World}

/-- A path leads to a member of a scope that lies under the one where it starts. -/
theorem resolve_spec {scope : ScopeId} {path : List String} {r : Resolved}
    (h : w.resolve scope path = some r) :
    Under w (.scope scope) (.scope r.container) ∧ ∃ name, w.Holds r.container name r.member := by
  induction path generalizing scope with
  | nil => cases h
  | cons name rest ih =>
    cases hs : w.scope? scope with
    | none => cases rest <;> simp [resolve, hs] at h
    | some t =>
      cases hm : t.member? name with
      | none => cases rest <;> simp [resolve, hs, hm] at h
      | some m =>
        cases rest with
        | nil =>
          simp only [resolve, hs, hm, Option.bind_eq_bind, Option.bind_some] at h
          cases h
          exact ⟨.top, name, t, hs, hm⟩
        | cons next rest =>
          cases m with
          | scope child =>
            simp only [resolve, hs, hm, Option.bind_eq_bind, Option.bind_some] at h
            obtain ⟨hunder, hheld⟩ := ih h
            exact ⟨(Under.entry .top ⟨t, hs, hm⟩).trans hunder, hheld⟩
          | node id => simp [resolve, hs, hm] at h
          | nodeType type => simp [resolve, hs, hm] at h
          | scopeType type => simp [resolve, hs, hm] at h

/-- What the first pass over a statement does to the world: nothing, or a node or a scope has been
made, of a type that there is and with the values of the arguments. -/
inductive MadeFrom (w : World) (s : Statement) : World → Prop
  | same : MadeFrom w s w
  | node (p : ScopeId) (name : String) (type : NodeType) (owner : ScopeId) (params : List Value)
    (values : Signature.values ⟨type.name, type.params, s.line⟩ s.assignments = .ok params) :
    MadeFrom w s (w.makeNode p name type owner params).1
  | scope (p : ScopeId) (name : String) (owner : ScopeId) (params : List Value) (type : ScopeType)
    (values : Signature.values ⟨type.name, type.params, s.line⟩ s.assignments = .ok params)
    (known : ∃ name, w.Holds owner name (.scopeType type)) :
    MadeFrom w s (w.makeScope p name owner params type).1

theorem make_madeFrom (destination container : ScopeId) (s : Statement) {type : Member}
    (hheld : ∃ name, w.Holds container name type) :
    MadeFrom w s (make w destination container s type).1 := by
  unfold make
  cases type with
  | nodeType t =>
    dsimp only
    split
    · exact .same
    · rename_i params hvalues
      have hmade := MadeFrom.node destination s.target.last.name t container params hvalues (w := w)
      generalize w.makeNode destination s.target.last.name t container params = made at hmade ⊢
      obtain ⟨w', answer⟩ := made
      cases answer <;> exact hmade
  | scopeType t =>
    dsimp only
    split
    · exact .same
    · rename_i params hvalues
      have hmade := MadeFrom.scope destination s.target.last.name container params t hvalues hheld
      generalize w.makeScope destination s.target.last.name container params t = made at hmade ⊢
      obtain ⟨w', answer⟩ := made
      cases answer <;> exact hmade
  | node id => exact .same
  | scope id => exact .same

theorem makeStep_world (scope : ScopeId) (a : Assembly) (s : Statement) :
    (makeStep scope a s).world =
      if s.instantiates then (instantiate a.world scope a.definitions s).1 else a.world := by
  rw [makeStep]
  split
  · obtain ⟨w', answer⟩ := instantiate a.world scope a.definitions s
    cases answer with
    | error problems => rfl
    | ok made => cases made <;> rfl
  · rfl

theorem makeStep_madeFrom (scope : ScopeId) (a : Assembly) (s : Statement) :
    MadeFrom a.world s (makeStep scope a s).world := by
  rw [makeStep_world]
  split
  · rw [instantiate]
    split
    · exact .same
    · rename_i source hsource
      split
      · exact .same
      · split
        · exact .same
        · exact make_madeFrom _ _ s (resolve_spec hsource).2
  · exact .same

theorem connect_edits {scope : ScopeId} {s : Statement} {w' : World}
    (h : connect w scope s = .ok w') : Edits w w' := by
  rw [connect] at h
  split at h
  · cases h
  · rename_i target source hends
    split at h
    · split at h
      · cases h
      · rename_i index hslot
        cases h
        exact .tail (.single (.connect w target index source)) (.record _ _ nofun)
    · split at h <;> cases h
    · cases h

theorem makeStep_edits {a : Assembly} (ht : a.world.Tree) (scope : ScopeId) (s : Statement) :
    Edits a.world (makeStep scope a s).world := by
  have hmade := makeStep_madeFrom scope a s
  generalize (makeStep scope a s).world = w' at hmade ⊢
  cases hmade with
  | same => exact .refl
  | node p name type owner params => exact .single (.makeNode _ p name type owner params)
  | scope p name owner params type _ known =>
    obtain ⟨typeName, hheld⟩ := known
    exact .single (.makeScope _ p name owner params type (Forest.types ht _ typeName type hheld))

theorem connectStep_edits (a : Assembly) (scope : ScopeId) (s : Statement) :
    Edits a.world (connectStep scope a s).world := by
  rw [connectStep]
  split
  · exact .refl
  · split
    · exact .refl
    · rename_i w' hconnect
      exact connect_edits hconnect

/-- Putting a program together comes down to edits. -/
theorem apply_edits (ht : w.Tree) (scope : ScopeId) (p : Program) :
    Edits w (apply w scope p).world := by
  have hmade (statements : List Statement) (a : Assembly) (ht : a.world.Tree) :
      Edits a.world (statements.foldl (makeStep scope) a).world := by
    induction statements generalizing a with
    | nil => exact .refl
    | cons s rest ih =>
      have hstep := makeStep_edits ht scope s
      exact hstep.trans (ih _ (hstep.tree ht))
  have hconnected (statements : List Statement) (a : Assembly) :
      Edits a.world (statements.foldl (connectStep scope) a).world := by
    induction statements generalizing a with
    | nil => exact .refl
    | cons s rest ih => exact (connectStep_edits a scope s).trans (ih _)
  exact (hmade p.statements (start w) ht).trans (hconnected p.statements _)

end Assembly

/-! ## What is done from outside -/

/-- A change of a world from outside. -/
inductive Change where
  | populate (catalog : Catalog) (scope : ScopeId)
  | apply (scope : ScopeId) (program : Script.Program)
  | makeNode (parent : ScopeId) (name : String) (type : NodeType) (owner : ScopeId)
      (params : List Value)
  | makeScope (parent : ScopeId) (name : String) (type : ScopeType) (owner : ScopeId)
      (params : List Value)
  | destroyScope (id : ScopeId)
  | clear

namespace Change

/-- The world after a change. -/
def run (w : World) : Change → World
  | populate catalog scope => (catalog.populate w scope).1
  | apply scope program => (Assembly.apply w scope program).world
  | makeNode parent name type owner params => (w.makeNode parent name type owner params).1
  | makeScope parent name type owner params => (w.makeScope parent name owner params type).1
  | destroyScope id => w.destroyScope id
  | clear => w.clear

/-- The setups that the change brings into the world are confined. -/
def Confined : Change → Prop
  | populate catalog _ => catalog.Confined
  | makeScope _ _ type _ _ => type.Confined
  | apply .. | makeNode .. | destroyScope _ | clear => True

theorem edits {w : World} (ht : w.Tree) (c : Change) (h : c.Confined) :
    World.Edits w (c.run w) := by
  cases c with
  | populate catalog scope => exact catalog.populate_edits h w scope
  | apply scope program => exact Assembly.apply_edits ht scope program
  | makeNode parent name type owner params => exact .single (.makeNode w parent name type owner params)
  | makeScope parent name type owner params =>
    exact .single (.makeScope w parent name owner params type h)
  | destroyScope id => exact .single (.destroyScope w id)
  | clear => exact .single (.clear w)

end Change

end FrameGraph
