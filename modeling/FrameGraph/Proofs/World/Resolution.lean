import FrameGraph.Proofs.World.Growth

/-!
# What paths lead to

A path leads down through scopes, by the entry with each of its names, to a member of the last of
them. As entries are added it goes on leading to the same member. In an orderly world no second path
from the same scope leads to a node or a scope.
-/
namespace FrameGraph

theorem Script.Path.names_eq (p : Script.Path) : p.names = p.leading ++ [p.last.name] := by
  have hsegments : p.segments.dropLast ++ [p.last] = p.segments := by
    rw [last, ← List.getLast_eq_getLastD (List.cons_ne_nil p.head p.tail)]
    exact List.dropLast_concat_getLast _
  rw [leading, names, ← List.map_dropLast, ← List.map_singleton, ← List.map_append, hsegments]

theorem Script.Path.leading_of_isSimple {p : Script.Path} (h : p.isSimple = true) :
    p.leading = [] := by
  obtain ⟨head, tail⟩ := p
  cases List.isEmpty_iff.mp h
  rfl

namespace World

variable {w w' : World}

/-- The names lead from the first scope down to the second. -/
inductive Descends (w : World) : ScopeId → List String → ScopeId → Prop
  | here (s : ScopeId) : Descends w s [] s
  | into {s child t : ScopeId} {name : String} {rest : List String}
    (held : w.Holds s name (.scope child)) (below : Descends w child rest t) :
    Descends w s (name :: rest) t

namespace Descends

theorem append {s t u : ScopeId} {path rest : List String} (h : Descends w s path t)
    (hrest : Descends w t rest u) : Descends w s (path ++ rest) u := by
  induction h with
  | here => exact hrest
  | into held _ ih => exact .into held (ih hrest)

theorem of_append {s u : ScopeId} {path rest : List String} (h : Descends w s (path ++ rest) u) :
    ∃ t, Descends w s path t ∧ Descends w t rest u := by
  induction path generalizing s with
  | nil => exact ⟨s, .here s, h⟩
  | cons name path ih =>
    cases h with
    | into held below =>
      obtain ⟨t, hpath, hrest⟩ := ih below
      exact ⟨t, .into held hpath, hrest⟩

theorem concat_iff {s t : ScopeId} {path : List String} {name : String} :
    Descends w s (path ++ [name]) t ↔ ∃ c, Descends w s path c ∧ w.Holds c name (.scope t) := by
  constructor
  · intro h
    obtain ⟨c, hpath, hlast⟩ := h.of_append
    cases hlast with
    | into held below =>
      cases below
      exact ⟨c, hpath, held⟩
  · rintro ⟨c, hpath, held⟩
    exact hpath.append (.into held (.here t))

theorem mono (hholds : ∀ p name m, w.Holds p name m → w'.Holds p name m) {s t : ScopeId}
    {path : List String} (h : Descends w s path t) : Descends w' s path t := by
  induction h with
  | here s => exact .here s
  | into held _ ih => exact .into (hholds _ _ _ held) ih

theorem index_le (ho : w.Orderly) {s t : ScopeId} {path : List String} (h : Descends w s path t) :
    s.index ≤ t.index := by
  induction h with
  | here => exact Nat.le_refl _
  | into held _ ih => exact Nat.le_trans (Nat.le_of_lt (ho.older _ _ _ held)) ih

/-- There is one way down to a scope, because no other entry is for it. -/
theorem path_unique (ho : w.Orderly) {s t : ScopeId} {path path' : List String}
    (h : Descends w s path t) (h' : Descends w s path' t) : path = path' := by
  -- A longer way would lead from the scope to an older one that holds it.
  have hend {t : ScopeId} {path : List String} {name : String}
      (h : Descends w t (path ++ [name]) t) : False := by
    obtain ⟨c, hpath, held⟩ := concat_iff.mp h
    exact Nat.not_le_of_lt (ho.older _ _ _ held) (hpath.index_le ho)
  induction path using List.reverseRecOn generalizing t path' with
  | nil =>
    cases h
    cases path' using List.reverseRecOn with
    | nil => rfl
    | append_singleton path' name => exact (hend h').elim
  | append_singleton path name ih =>
    cases path' using List.reverseRecOn with
    | nil =>
      cases h'
      exact (hend h).elim
    | append_singleton path' name' =>
      obtain ⟨c, hpath, held⟩ := concat_iff.mp h
      obtain ⟨c', hpath', held'⟩ := concat_iff.mp h'
      obtain ⟨rfl, rfl⟩ := ho.once _ rfl _ _ _ _ held held'
      rw [ih hpath hpath']

end Descends

variable {scope : ScopeId} {path : List String} {r : Resolved}

theorem resolve_single_iff {name : String} : w.resolve scope [name] = some r ↔
    r.container = scope ∧ w.Holds scope name r.member := by
  simp only [resolve, Option.bind_eq_bind, Option.bind_eq_some_iff]
  constructor
  · rintro ⟨s, hs, m, hm, hr⟩
    cases hr
    exact ⟨rfl, s, hs, hm⟩
  · rintro ⟨rfl, s, hs, hm⟩
    exact ⟨s, hs, r.member, hm, rfl⟩

theorem resolve_cons_iff {name next : String} {rest : List String} :
    w.resolve scope (name :: next :: rest) = some r ↔
      ∃ child, w.Holds scope name (.scope child) ∧ w.resolve child (next :: rest) = some r := by
  rw [resolve]
  · simp only [Option.bind_eq_bind, Option.bind_eq_some_iff]
    constructor
    · rintro ⟨s, hs, m, hm, hr⟩
      cases m with
      | scope child => exact ⟨child, ⟨s, hs, hm⟩, hr⟩
      | node x => cases hr
      | nodeType t => cases hr
      | scopeType t => cases hr
    · rintro ⟨child, ⟨s, hs, hm⟩, hr⟩
      exact ⟨s, hs, .scope child, hm, hr⟩
  · exact List.cons_ne_nil _ _

/-- A path leads to a member of the scope to which all of its names but the last lead. -/
theorem resolve_iff : w.resolve scope path = some r ↔ ∃ front name, path = front ++ [name] ∧
    Descends w scope front r.container ∧ w.Holds r.container name r.member := by
  induction path generalizing scope with
  | nil =>
    refine iff_of_false nofun ?_
    rintro ⟨front, name, hnil, -⟩
    simp at hnil
  | cons name rest ih =>
    cases rest with
    | nil =>
      rw [resolve_single_iff]
      constructor
      · rintro ⟨rfl, held⟩
        exact ⟨[], name, rfl, .here _, held⟩
      · rintro ⟨front, last, hsplit, hfront, held⟩
        cases front with
        | nil =>
          cases hsplit
          cases hfront
          exact ⟨rfl, held⟩
        | cons a front => simp at hsplit
    | cons next rest =>
      rw [resolve_cons_iff]
      constructor
      · rintro ⟨child, held, hr⟩
        obtain ⟨front, last, hsplit, hfront, hlast⟩ := ih.mp hr
        exact ⟨name :: front, last, by rw [hsplit]; rfl, .into held hfront, hlast⟩
      · rintro ⟨front, last, hsplit, hfront, hlast⟩
        cases hfront with
        | here => simp at hsplit
        | into held below =>
          obtain ⟨rfl, hrest⟩ := List.cons.inj hsplit
          exact ⟨_, held, ih.mpr ⟨_, last, hrest, below, hlast⟩⟩

theorem resolve_concat_iff {name : String} : w.resolve scope (path ++ [name]) = some r ↔
    Descends w scope path r.container ∧ w.Holds r.container name r.member := by
  rw [resolve_iff]
  constructor
  · rintro ⟨front, last, hsplit, hfront, hlast⟩
    obtain ⟨rfl, hname⟩ := List.append_inj' hsplit rfl
    cases hname
    exact ⟨hfront, hlast⟩
  · rintro ⟨hpath, held⟩
    exact ⟨path, name, rfl, hpath, held⟩

theorem resolveScope_iff {d : ScopeId} : w.resolveScope scope path = some d ↔
    Descends w scope path d ∧ (path = [] → w.Lives (.scope scope)) := by
  rw [resolveScope]
  cases path using List.reverseRecOn with
  | nil =>
    rw [if_pos List.isEmpty_nil, Option.map_eq_some_iff]
    constructor
    · rintro ⟨s, hs, rfl⟩
      exact ⟨.here _, fun _ => ⟨s, hs⟩⟩
    · rintro ⟨hpath, hlives⟩
      cases hpath
      obtain ⟨s, hs⟩ := hlives rfl
      exact ⟨s, hs, rfl⟩
  | append_singleton path name =>
    rw [if_neg (by simp), Descends.concat_iff]
    constructor
    · intro h
      split at h
      · rename_i id c hr
        cases h
        obtain ⟨hpath, held⟩ := resolve_concat_iff.mp hr
        exact ⟨⟨c, hpath, held⟩, by simp⟩
      · cases h
    · rintro ⟨⟨c, hpath, held⟩, -⟩
      have hr : w.resolve scope (path ++ [name]) = some ⟨.scope d, c⟩ :=
        resolve_concat_iff.mpr ⟨hpath, held⟩
      rw [hr]

/-- As long as no entry goes, a path leads to what it has led to. -/
theorem resolve_mono (hholds : ∀ p name m, w.Holds p name m → w'.Holds p name m)
    (h : w.resolve scope path = some r) : w'.resolve scope path = some r := by
  obtain ⟨front, name, hsplit, hfront, held⟩ := resolve_iff.mp h
  exact resolve_iff.mpr ⟨front, name, hsplit, hfront.mono hholds, hholds _ _ _ held⟩

/-- In an orderly world one path leads to a node or a scope. -/
theorem resolve_injective (ho : w.Orderly) {path' : List String} {r' : Resolved}
    (h : w.resolve scope path = some r) (h' : w.resolve scope path' = some r')
    (hmember : r.member = r'.member) (howned : r.member.isOwned = true) : path = path' := by
  obtain ⟨front, name, rfl, hfront, held⟩ := resolve_iff.mp h
  obtain ⟨front', name', rfl, hfront', held'⟩ := resolve_iff.mp h'
  rw [← hmember] at held'
  obtain ⟨hcontainer, rfl⟩ := ho.once _ howned _ _ _ _ held held'
  rw [← hcontainer] at hfront'
  rw [hfront.path_unique ho hfront']

/-- Where a member stands whose path is known. -/
theorem resolve_names_iff {p : Script.Path} : w.resolve scope p.names = some r ↔
    w.resolveScope scope p.leading = some r.container ∧
      w.Holds r.container p.last.name r.member := by
  rw [p.names_eq, resolve_concat_iff, resolveScope_iff]
  constructor
  · rintro ⟨hpath, held⟩
    refine ⟨⟨hpath, fun hnil => ?_⟩, held⟩
    rw [hnil] at hpath
    cases hpath
    exact held.scope_isSome
  · rintro ⟨⟨hpath, -⟩, held⟩
    exact ⟨hpath, held⟩

/-- Paths depend on the scopes only. -/
theorem resolve_of_scopes (h : w'.scopes = w.scopes) (scope : ScopeId) (path : List String) :
    w'.resolve scope path = w.resolve scope path := by
  have hholds {w w' : World} (h : w'.scopes = w.scopes) (p : ScopeId) (name : String) (m : Member)
      (hm : w.Holds p name m) : w'.Holds p name m :=
    (holds_of_scope? (by rw [scope?, scope?, h]) name m).mpr hm
  cases hr : w.resolve scope path with
  | some r => exact resolve_mono (hholds h) hr
  | none =>
    refine Option.eq_none_iff_forall_ne_some.mpr fun r hr' => ?_
    rw [resolve_mono (hholds h.symm) hr'] at hr
    cases hr

end World

end FrameGraph
