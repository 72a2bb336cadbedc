import FrameGraph.Proofs.World.Edits
import FrameGraph.Proofs.World.Farewells

/-!
# The chronicle of scopes

The steps of a scope tell what has become of it. While it is being set up there is none; then its
setup has been completed, and in the end it has been destroyed, or its setup was refused, and then
it is gone without having been destroyed. All that a confined run does keeps to this.
-/
namespace FrameGraph.World

variable {w w' w'' : World} {done : List LifeStep} {loose : ScopeId → Prop}

/-- The steps of a scope so far. -/
def scopeSteps (w : World) (x : ScopeId) : List LifeStep := w.steps.filter (LifeStep.isOfScope x)

/-- The steps of a scope are what they should be, given whether it is loose: being set up, or the
root. -/
structure Told (w : World) (x : ScopeId) (isLoose : Prop) : Prop where
  silent : isLoose ∨ w.Beyond (.scope x) → w.scopeSteps x = [] ∧ w.phase? x ≠ some true
  standing : ¬isLoose → ∀ setUp, w.phase? x = some setUp →
    setUp = true ∧ w.scopeSteps x = [.scopeSetUp x true]
  gone : ¬isLoose → ¬w.Beyond (.scope x) → w.phase? x = none →
    w.scopeSteps x = [.scopeSetUp x false] ∨
      w.scopeSteps x = [.scopeSetUp x true, .scopeDestroyed x]

/-- The steps of all scopes are what they should be. -/
structure Chronicle (w : World) (loose : ScopeId → Prop) : Prop where
  forest : Forest w loose
  told : ∀ x, Told w x (loose x)

theorem scopeSteps_of_steps (h : w'.steps = w.steps ++ done) (x : ScopeId) :
    w'.scopeSteps x = w.scopeSteps x ++ done.filter (LifeStep.isOfScope x) := by
  rw [scopeSteps, h, List.filter_append, scopeSteps]

namespace Told

variable {x : ScopeId} {isLoose : Prop}

theorem of_eq (h : Told w x isLoose) (hsteps : w'.scopeSteps x = w.scopeSteps x)
    (hphase : w'.phase? x = w.phase? x) (hsize : w'.scopes.size = w.scopes.size) :
    Told w' x isLoose := by
  have hbeyond := beyond_of_size hsize x
  refine ⟨?_, ?_, ?_⟩
  · rw [hsteps, hphase, hbeyond]
    exact h.silent
  · rw [hsteps, hphase]
    exact h.standing
  · rw [hsteps, hphase, hbeyond]
    exact h.gone

/-- What is there and is not loose has been set up, and that is all. -/
theorem of_lives (h : Told w x isLoose) (hloose : ¬isLoose) (hlives : w.Lives (.scope x)) :
    w.scopeSteps x = [.scopeSetUp x true] := by
  obtain ⟨s, hs⟩ := hlives
  exact (h.standing hloose s.isSetUp (by rw [phase?, hs]; rfl)).2

/-- A scope that has departed was destroyed, and nothing else was said. -/
theorem departs (h : Told w x isLoose) (hd : Departs w w' done) : Told w' x isLoose := by
  have hsteps := scopeSteps_of_steps hd.proceeds.steps x
  rw [hd.once] at hsteps
  obtain hnone | hsame := hd.phase x
  · have hbeyond := beyond_of_size hd.size x
    refine ⟨fun hsilent => ?_, fun _ setUp hphase => ?_, fun hloose hknown _ => ?_⟩
    · rw [hbeyond] at hsilent
      obtain ⟨hnil, hphase⟩ := h.silent hsilent
      exact ⟨by rw [hsteps, hnil, if_neg fun hup => hphase hup.1]; rfl, by simp [hnone]⟩
    · rw [hnone] at hphase
      cases hphase
    · cases hphase : w.phase? x with
      | none =>
        rw [hphase, if_neg (by simp), List.append_nil] at hsteps
        rw [hsteps]
        exact h.gone hloose (mt hbeyond.mpr hknown) hphase
      | some setUp =>
        obtain ⟨rfl, hstanding⟩ := h.standing hloose setUp hphase
        rw [hphase, hnone, if_pos ⟨rfl, rfl⟩, hstanding] at hsteps
        exact .inr hsteps
  · rw [if_neg (not_departed hsame), List.append_nil] at hsteps
    exact h.of_eq hsteps hsame hd.size

end Told

/-- A scope that is being set up is the one that is loose besides. -/
theorem Chronicle.others {id x : ScopeId} (h : Chronicle w fun x => x = id ∨ loose x)
    (hx : x ≠ id) : Told w x (loose x) := by
  have htold := h.told x
  rwa [or_iff_right hx] at htold

theorem Chronicle.departs (h : Chronicle w loose) (hf : Forest w' loose)
    (hd : Departs w w' done) : Chronicle w' loose :=
  ⟨hf, fun x => (h.told x).departs hd⟩

/-! ## Members that are no scopes -/

theorem Inherits.of_adds {p : ScopeId} {name : String} {m : Member} (h : Adds w w' p name m) :
    Inherits w w' where
  nodes := Nat.le_of_eq (by rw [h.nodes])
  scopes := Nat.le_of_eq h.size.symm
  lives m _ := (lives_congr h.nodeKey h.scopeKey m).mp
  holds q n k hk _ _ := (h.holds q n k).mpr (.inl hk)

theorem insertMember_departs {p : ScopeId} {name : String} {m : Member}
    (h : w.insertMember p name m = .ok w') (ha : Adds w w' p name m) : Departs w w' [] := by
  refine .of_silent (.of_adds ha) ?_ ha.size (insertMember_keeps (fun _ _ => rfl) h)
  rw [steps, (insertMember_same h).2, steps]

theorem Departs.record (w : World) {e : Event} (he : e.step? = none) : Departs w (w.record e) [] :=
  .of_silent (.of_sameTree (.record w e) rfl) (w.steps_record he) rfl fun _ => rfl

theorem define_departs (ht : w.Tabled) (p : ScopeId) (name : String) (m : Member) :
    Departs w (w.define p name m).1 [] := by
  rw [define]
  obtain ⟨e, hinsert⟩ | ⟨w', hinsert, hadds⟩ := insertMember_cases ht p name m
  · rw [hinsert]
    exact .refl w
  · rw [hinsert]
    exact insertMember_departs hinsert hadds

theorem makeNode_departs (ht : w.Tabled) (p : ScopeId) (name : String) (type : NodeType)
    (owner : ScopeId) (params : List Value) :
    Departs w (w.makeNode p name type owner params).1 [] := by
  rw [makeNode]
  split
  · have hpush : Departs w { w with nodes := w.nodes.push (some (.new name type owner p params)) }
        [] :=
      .of_silent (.of_grows (.pushNode w (Node.new_isNew name type owner p params))) rfl rfl
        fun _ => rfl
    obtain ⟨e, hinsert⟩ | ⟨w', hinsert, hadds⟩ :=
      insertMember_cases (w := { w with nodes := w.nodes.push (some (.new name type owner p params)) })
        ht p name (.node ⟨w.nodes.size⟩)
    · simp only [hinsert]
      exact hpush
    · simp only [hinsert]
      exact (hpush.trans (insertMember_departs hinsert hadds)).trans (.record w' rfl)
  · exact .refl w

theorem modifyScope_departs (w : World) (id : ScopeId) {f : Scope → Scope}
    (hf : ∀ s, (f s).bare = s.bare ∧ (f s).members = s.members)
    (hset : ∀ s, (f s).isSetUp = s.isSetUp) : Departs w (w.modifyScope id f) [] := by
  refine .of_silent (.of_grows (.modifyScope w id hf)) (w.steps_modifyScope id f)
    (w.modifyScope_size id f) fun x => ?_
  rw [phase?, phase?, scope?_modifyScope]
  split
  · rename_i hx
    rw [hx, Option.map_map]
    exact Option.map_congr fun s _ => hset s
  · rfl

end FrameGraph.World
