import FrameGraph.Proofs.World.Ownership
import FrameGraph.World.Release

/-!
# Taking down in the tree

Taking down empties the places of what lies under the members that are taken down, and of nothing
else. The depth that limits the recursion is never used up, because what a scope holds has a higher
number than the scope: at depth 0 no places are left.
-/
namespace FrameGraph.World

variable {w w' w'' : World}

/-- The node or the scope is there. A type has no place. -/
def Lives (w : World) : Member → Prop
  | .node x => ∃ n, w.node? x = some n
  | .scope x => ∃ s, w.scope? x = some s
  | .nodeType _ | .scopeType _ => False

/-- Entries lead from the first member down to the second. -/
inductive Under (w : World) (top : Member) : Member → Prop
  | top : Under w top top
  | entry {p : ScopeId} {name : String} {m : Member} (above : Under w top (.scope p))
    (holds : w.Holds p name m) : Under w top m

theorem Under.trans {a b c : Member} (h : Under w a b) (h' : Under w b c) : Under w a c := by
  induction h' with
  | top => exact h
  | entry _ hm ih => exact .entry ih hm

theorem Under.mono (hholds : ∀ p name m, w.Holds p name m → w'.Holds p name m) {a b : Member}
    (h : Under w a b) : Under w' a b := by
  induction h with
  | top => exact .top
  | entry _ hm ih => exact .entry ih (hholds _ _ _ hm)

/-- What has to hold of the entries for taking down to reach all that it should. -/
structure Ranked (w : World) : Prop where
  tabled : w.Tabled
  older : ∀ p name x, w.Holds p name (.scope x) → p.index < x.index

theorem Forest.ranked {loose : ScopeId → Prop} (h : Forest w loose) : w.Ranked :=
  ⟨h.tabled, fun p name x hx => h.older x name p ((h.holds_scope p name x).mp hx).2⟩

/-- Entries lead from each scope to deeper ones, and there are not more levels than places. -/
structure Leveled (w : World) (level : ScopeId → Nat) : Prop where
  deeper : ∀ p name x, w.Holds p name (.scope x) → level p < level x
  bounded : ∀ x s, w.scope? x = some s → level x < w.scopes.size

theorem Ranked.leveled (h : w.Ranked) : w.Leveled ScopeId.index :=
  ⟨h.older, fun _ _ => lt_size_of_scope?⟩

theorem Leveled.scope?_eq_none {level : ScopeId → Nat} (h : w.Leveled level) {x : ScopeId}
    (hx : w.scopes.size ≤ level x) : w.scope? x = none := by
  rw [Option.eq_none_iff_forall_ne_some]
  exact fun s hs => absurd (h.bounded x s hs) (Nat.not_lt_of_le hx)

theorem Under.level_le {level : ScopeId → Nat} (hl : w.Leveled level) {a b : ScopeId}
    (h : Under w (.scope a) (.scope b)) : level a ≤ level b := by
  generalize hb : Member.scope b = m at h
  induction h generalizing b with
  | top =>
    cases hb
    exact Nat.le_refl _
  | entry above hheld ih =>
    subst hb
    exact Nat.le_of_lt (Nat.lt_of_le_of_lt (ih rfl) (hl.deeper _ _ _ hheld))

/-- Some members have been taken down with all that lies under them. -/
structure Cleared (w w' : World) (ms : List Member) : Prop where
  node : ∀ x, w'.node? x = none ∨ w'.node? x = w.node? x
  scope : ∀ x, w'.scope? x = none ∨ w'.scope? x = w.scope? x
  size : w'.scopes.size = w.scopes.size
  gone : ∀ m ∈ ms, ¬w'.Lives m
  closed : ∀ p name m, w.Holds p name m → w'.scope? p = none → ¬w'.Lives m
  under : ∀ m, w.Lives m → w'.Lives m ∨ ∃ top ∈ ms, Under w top m

namespace Cleared

variable {ms ms' : List Member}

theorem scope_of_scope (h : Cleared w w' ms) {x : ScopeId} {s : Scope}
    (hs : w'.scope? x = some s) : w.scope? x = some s := by
  obtain hnone | hsame := h.scope x
  · rw [hnone] at hs
    cases hs
  · rw [← hsame, hs]

theorem lives (h : Cleared w w' ms) {m : Member} (hm : w'.Lives m) : w.Lives m := by
  cases m with
  | node x =>
    obtain ⟨n, hn⟩ := hm
    obtain hnone | hsame := h.node x
    · rw [hnone] at hn
      cases hn
    · exact ⟨n, by rw [← hsame, hn]⟩
  | scope x =>
    obtain ⟨s, hs⟩ := hm
    exact ⟨s, h.scope_of_scope hs⟩
  | nodeType t => exact hm
  | scopeType t => exact hm

theorem holds (h : Cleared w w' ms) (p : ScopeId) (name : String) (m : Member) :
    w'.Holds p name m ↔ w.Holds p name m ∧ w'.Lives (.scope p) := by
  constructor
  · rintro ⟨s, hs, hm⟩
    exact ⟨⟨s, h.scope_of_scope hs, hm⟩, s, hs⟩
  · rintro ⟨⟨s, hs, hm⟩, s', hs'⟩
    have hsame := h.scope_of_scope hs'
    rw [hs] at hsame
    cases hsame
    exact ⟨s, hs', hm⟩

theorem ranked (h : Cleared w w' ms) (hr : w.Ranked) : w'.Ranked :=
  ⟨fun x s hs => hr.tabled x s (h.scope_of_scope hs),
    fun p name x hx => hr.older p name x ((h.holds p name _).mp hx).1⟩

theorem refl (w : World) : Cleared w w [] where
  node _ := .inr rfl
  scope _ := .inr rfl
  size := rfl
  gone := nofun
  closed p name m hm hp := by
    obtain ⟨s, hs, -⟩ := hm
    rw [hp] at hs
    cases hs
  under _ hm := .inl hm

/-- What is not there need not be taken down. -/
theorem skip (w : World) {m : Member} (hm : ¬w.Lives m) : Cleared w w [m] :=
  { refl w with
    gone := fun _ hk => List.mem_singleton.mp hk ▸ hm
    under := fun _ hk => .inl hk }

theorem append (h : Cleared w w' ms) (h' : Cleared w' w'' ms') : Cleared w w'' (ms ++ ms') where
  node x := by
    obtain hnone | hsame := h'.node x
    · exact .inl hnone
    · rw [hsame]
      exact h.node x
  scope x := by
    obtain hnone | hsame := h'.scope x
    · exact .inl hnone
    · rw [hsame]
      exact h.scope x
  size := h'.size.trans h.size
  gone m hm := by
    obtain hm | hm := List.mem_append.mp hm
    · exact fun hlives => h.gone m hm (h'.lives hlives)
    · exact h'.gone m hm
  closed p name m hm hp := by
    cases hmid : w'.scope? p with
    | none => exact fun hlives => h.closed p name m hm hmid (h'.lives hlives)
    | some s => exact h'.closed p name m ((h.holds p name m).mpr ⟨hm, s, hmid⟩) hp
  under m hm := by
    obtain hmid | ⟨top, htop, hunder⟩ := h.under m hm
    · obtain hlives | ⟨top, htop, hunder⟩ := h'.under m hmid
      · exact .inl hlives
      · exact .inr ⟨top, List.mem_append_right _ htop,
          hunder.mono fun p name m hm => ((h.holds p name m).mp hm).1⟩
    · exact .inr ⟨top, List.mem_append_left _ htop, hunder⟩

/-- Nothing under what has been taken down is there any more. -/
theorem under_gone (h : Cleared w w' ms) {top m : Member} (htop : top ∈ ms)
    (hunder : Under w top m) : ¬w'.Lives m := by
  induction hunder with
  | top => exact h.gone top htop
  | entry _ hm ih =>
    refine h.closed _ _ _ hm (Option.eq_none_iff_forall_ne_some.mpr fun s hs => ih ⟨s, hs⟩)

theorem of_same (h : Cleared w w' ms) (hnode : ∀ x, w''.node? x = w'.node? x)
    (hscope : ∀ x, w''.scope? x = w'.scope? x) (hsize : w''.scopes.size = w'.scopes.size) :
    Cleared w w'' ms := by
  have hlives (m : Member) : w''.Lives m ↔ w'.Lives m := by
    cases m with
    | node x => simp only [Lives, hnode]
    | scope x => simp only [Lives, hscope]
    | nodeType t => rfl
    | scopeType t => rfl
  exact ⟨fun x => by rw [hnode]; exact h.node x, fun x => by rw [hscope]; exact h.scope x,
    hsize.trans h.size, fun m hm => (hlives m).not.mpr (h.gone m hm),
    fun p name m hm hp => (hlives m).not.mpr (h.closed p name m hm (by rwa [← hscope])),
    fun m hm => by rw [hlives]; exact h.under m hm⟩

/-- The place of a node is emptied. -/
theorem emptyNode (w : World) (x : NodeId) : Cleared w (w.setNode x none) [.node x] := by
  refine ⟨fun y => ?_, fun y => .inr rfl, rfl, fun m hm => ?_, fun p name m ⟨s, hs, _⟩ hp => ?_,
    fun m hm => ?_⟩
  · rw [node?_setNode_none]
    split
    · exact .inl rfl
    · exact .inr rfl
  · rw [List.mem_singleton.mp hm]
    rintro ⟨n, hn⟩
    rw [node?_setNode_none, if_pos rfl] at hn
    cases hn
  · rw [scope?_setNode, hs] at hp
    cases hp
  · cases m with
    | node y =>
      by_cases hy : y = x
      · rw [hy]
        exact .inr ⟨_, List.mem_singleton_self _, .top⟩
      · obtain ⟨n, hn⟩ := hm
        exact .inl ⟨n, by rw [node?_setNode_none, if_neg hy, hn]⟩
    | scope y => exact .inl hm
    | nodeType t => exact .inl hm
    | scopeType t => exact .inl hm

end Cleared

/-! ## Nodes and entries -/

theorem node?_releaseNode (w : World) (id x : NodeId) :
    (w.releaseNode id).node? x = (w.setNode id none).node? x := by
  rw [releaseNode]
  cases hn : w.node? id with
  | none =>
    rw [node?_setNode]
    by_cases hx : x = id ∧ id.index < w.nodes.size
    · rw [if_pos hx, hx.1]
      exact hn
    · rw [if_neg hx]
  | some n =>
    show World.node? (if n.isSetUp then _ else _) x = _
    split <;> simp

theorem releaseNode_scopes (w : World) (id : NodeId) : (w.releaseNode id).scopes = w.scopes := by
  rw [releaseNode]
  cases w.node? id with
  | none => rfl
  | some n =>
    show World.scopes (if n.isSetUp then _ else _) = _
    split
    · exact World.recordAll_scopes _ _
    · rfl

theorem cleared_releaseNode (w : World) (id : NodeId) :
    Cleared w (w.releaseNode id) [.node id] :=
  (Cleared.emptyNode w id).of_same (w.node?_releaseNode id)
    (fun x => by rw [scope?, releaseNode_scopes]; rfl) (by rw [releaseNode_scopes]; rfl)

/-- Takes down what an entry holds, given how to take down scopes. -/
def releaseEntry (release : World → ScopeId → World) (w : World) (entry : String × Member) :
    World :=
  match entry.2 with
  | .node node => w.releaseNode node
  | .scope child => release w child
  | .nodeType _ | .scopeType _ => w

/-- If scopes are taken down with all that lies under them, so are the entries of a scope. -/
theorem cleared_entries (release : World → ScopeId → World) {size : Nat}
    (entries : List (String × Member)) (hr : w.Ranked) (hsize : w.scopes.size = size)
    (hrelease : ∀ w : World, w.Ranked → w.scopes.size = size →
      ∀ entry ∈ entries, ∀ x, entry.2 = .scope x → Cleared w (release w x) [.scope x]) :
    Cleared w (entries.foldl (releaseEntry release) w) (entries.map Prod.snd) := by
  induction entries generalizing w with
  | nil => exact .refl w
  | cons entry entries ih =>
    have hfirst : Cleared w (releaseEntry release w entry) [entry.2] := by
      rw [releaseEntry]
      cases hm : entry.2 with
      | node x => exact cleared_releaseNode w x
      | scope x => exact hrelease w hr hsize entry List.mem_cons_self x hm
      | nodeType t => exact .skip w nofun
      | scopeType t => exact .skip w nofun
    exact hfirst.append (ih (hfirst.ranked hr) (hfirst.size.trans hsize)
      fun w hr hsize e he => hrelease w hr hsize e (List.mem_cons_of_mem _ he))

/-! ## Scopes -/

/-- A scope without its members. -/
def drained (w : World) (id : ScopeId) (s : Scope) : World :=
  w.setScope id (some { s with members := .empty })

section Drained

variable {id : ScopeId} {s : Scope}

theorem scope?_drained (hs : w.scope? id = some s) (x : ScopeId) :
    (w.drained id s).scope? x = if x = id then some { s with members := .empty } else w.scope? x := by
  rw [drained, scope?_setScope]
  simp only [lt_size_of_scope? hs, and_true]

theorem holds_drained (hs : w.scope? id = some s) (p : ScopeId) (name : String) (m : Member) :
    (w.drained id s).Holds p name m ↔ p ≠ id ∧ w.Holds p name m := by
  by_cases hp : p = id
  · subst hp
    have hnone : Scope.member? { s with members := .empty } name = none :=
      (Table.get?_eq_none_iff Table.empty_valid.sound).mpr fun v => List.not_mem_nil
    rw [Holds, scope?_drained hs, if_pos rfl]
    simp [hnone]
  · have hsame := (scope?_drained hs p).trans (if_neg hp)
    simp [holds_of_scope? hsame, hp]

theorem lives_drained (hs : w.scope? id = some s) {m : Member} (hm : w.Lives m) :
    (w.drained id s).Lives m := by
  cases m with
  | node x => exact hm
  | scope x =>
    obtain ⟨t, ht⟩ := hm
    rw [Lives, scope?_drained hs]
    split
    · exact ⟨_, rfl⟩
    · exact ⟨t, ht⟩
  | nodeType t => exact hm
  | scopeType t => exact hm

theorem Ranked.drained (hr : w.Ranked) (hs : w.scope? id = some s) : (w.drained id s).Ranked := by
  refine ⟨fun x t ht => ?_, fun p name x hx => ?_⟩
  · rw [scope?_drained hs] at ht
    by_cases hx : x = id
    · rw [if_pos hx] at ht
      cases ht
      exact Table.empty_valid
    · rw [if_neg hx] at ht
      exact hr.tabled x t ht
  · exact hr.older p name x ((holds_drained hs p name _).mp hx).2

/-- If everything in a scope has been taken down, emptying its place takes the scope down. -/
theorem Cleared.ofDrained (ht : w.Tabled) (hs : w.scope? id = some s)
    (h : Cleared (w.drained id s) w' (s.members.toList.map Prod.snd))
    (hnode : ∀ x, w''.node? x = w'.node? x)
    (hscope : ∀ x, w''.scope? x = if x = id then none else w'.scope? x)
    (hsize : w''.scopes.size = w'.scopes.size) : Cleared w w'' [.scope id] := by
  have hlives (m : Member) : w''.Lives m ↔ w'.Lives m ∧ m ≠ .scope id := by
    cases m with
    | node x => simp [Lives, hnode]
    | scope x =>
      by_cases hx : x = id
      · simp [Lives, hscope, hx]
      · simp [Lives, hscope, hx]
    | nodeType t => simp [Lives]
    | scopeType t => simp [Lives]
  have hmember {name : String} {m : Member} :
      w.Holds id name m ↔ (name, m) ∈ s.members.toList := Holds.mem_toList ht hs
  refine ⟨fun x => ?_, fun x => ?_, ?_, fun m hm => ?_, fun p name m hm hp hm' => ?_,
    fun m hm => ?_⟩
  · rw [hnode]
    exact h.node x
  · rw [hscope]
    by_cases hx : x = id
    · exact .inl (if_pos hx)
    · rw [if_neg hx, ← (scope?_drained hs x).trans (if_neg hx)]
      exact h.scope x
  · rw [hsize, h.size]
    exact w.setScope_size _ _
  · rw [hlives, List.mem_singleton.mp hm]
    exact fun hself => hself.2 rfl
  · by_cases hid : p = id
    · rw [hid] at hm
      exact h.gone m (List.mem_map.mpr ⟨_, hmember.mp hm, rfl⟩) ((hlives m).mp hm').1
    · rw [hscope, if_neg hid] at hp
      exact h.closed p name m ((holds_drained hs p name m).mpr ⟨hid, hm⟩) hp ((hlives m).mp hm').1
  · have hunder {m : Member} (hm : Under w (.scope id) m) :
        ∃ top ∈ [Member.scope id], Under w top m := ⟨_, List.mem_singleton_self _, hm⟩
    have hdrained := lives_drained hs hm
    by_cases hid : m = .scope id
    · rw [hid]
      exact .inr (hunder .top)
    · obtain hstays | ⟨top, htop, hbelow⟩ := h.under m hdrained
      · exact .inl ((hlives m).mpr ⟨hstays, hid⟩)
      · obtain ⟨⟨name, _⟩, hentry, rfl⟩ := List.mem_map.mp htop
        have hmono := hbelow.mono fun p name m hm => ((holds_drained hs p name m).mp hm).2
        exact .inr (hunder ((Under.entry .top (hmember.mpr hentry)).trans hmono))

end Drained

theorem releaseWithin_of_scope (depth : Nat) {id : ScopeId} {s : Scope}
    (hs : w.scope? id = some s) : releaseWithin (depth + 1) w id =
      let w := s.members.toList.foldl (releaseEntry (releaseWithin depth)) (w.drained id s)
      match w.scope? id with
      | none => w
      | some s => (if s.isSetUp then w.farewell id s else w).setScope id none := by
  rw [releaseWithin, hs]
  rfl

/-- A scope is taken down with all that lies under it if the depth reaches the last place. -/
theorem cleared_releaseWithin (depth : Nat) (hr : w.Ranked) (id : ScopeId)
    (hdepth : w.scopes.size ≤ id.index + depth) :
    Cleared w (releaseWithin depth w id) [.scope id] := by
  induction depth generalizing w id with
  | zero =>
    have hnone : w.scope? id = none := scope?_of_size_le hdepth
    exact .skip w (by simp [Lives, hnone])
  | succ depth ih =>
    cases hs : w.scope? id with
    | none =>
      rw [releaseWithin, hs]
      exact .skip w (by simp [Lives, hs])
    | some s =>
      have hentries := cleared_entries (releaseWithin depth) s.members.toList
        (hr.drained hs) (w.setScope_size _ _) fun w' hr' hsize entry hentry x hx => by
          have holder := hr.older id entry.1 x
            ((Holds.mem_toList hr.tabled hs).mpr (by rwa [← hx]))
          exact ih hr' x (by omega)
      rw [releaseWithin_of_scope depth hs]
      revert hentries
      generalize List.foldl _ (w.drained id s) _ = inner
      intro hentries
      cases hinner : inner.scope? id with
      | none =>
        simp only [hinner]
        refine hentries.ofDrained hr.tabled hs (fun x => rfl) (fun x => ?_) rfl
        split
        · rename_i hx
          rw [hx, hinner]
        · rfl
      | some t =>
        simp only [hinner]
        refine hentries.ofDrained hr.tabled hs (fun x => ?_) (fun x => ?_) ?_
        · split <;> simp [farewell]
        · rw [scope?_setScope_none]
          split
          · rfl
          · split <;> simp [farewell]
        · split <;> simp [farewell]

/-- Taking a scope down takes down all that lies under it. -/
theorem cleared_release (hr : w.Ranked) (id : ScopeId) :
    Cleared w (w.release id) [.scope id] :=
  cleared_releaseWithin _ hr id (by omega)

end FrameGraph.World
