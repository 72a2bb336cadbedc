import FrameGraph.Proofs.World.Edits
import Mathlib.Data.List.Nodup

/-!
# Gathering

The way from the root visits everything that is there, and it visits nothing twice, because the ways
that end in one place run into each other. No scope lies deeper than there are scopes, so the limit
on the depth is never met.
-/
namespace FrameGraph.World

variable {w : World} {level : ScopeId → Nat}

theorem Under.head {a b : Member} (h : Under w a b) :
    b = a ∨ ∃ p name m, a = .scope p ∧ w.Holds p name m ∧ Under w m b := by
  induction h with
  | top => exact .inl rfl
  | entry above hheld ih =>
    obtain hself | ⟨p, name, m, ha, hm, hbelow⟩ := ih
    · exact .inr ⟨_, _, _, hself.symm, hheld, .top⟩
    · exact .inr ⟨p, name, m, ha, hm, .entry hbelow hheld⟩

/-- Two members above the same one lie one above the other. -/
theorem Under.linear (honce : w.HeldOnce) {a b m : Member} (hm : m.isOwned = true)
    (ha : Under w a m) (hb : Under w b m) : Under w a b ∨ Under w b a := by
  induction ha with
  | top => exact .inr hb
  | entry above hheld ih =>
    cases hb with
    | top => exact .inl (.entry above hheld)
    | entry above' hheld' =>
      obtain ⟨rfl, -⟩ := honce _ hm _ _ _ _ hheld hheld'
      exact ih rfl above'

/-- Nothing lies under its own sibling. -/
theorem Leveled.sibling (h : w.Leveled level) (honce : w.HeldOnce) {p : ScopeId}
    {name name' : String} {m m' : Member} (hm : w.Holds p name m) (hm' : w.Holds p name' m')
    (howned : m'.isOwned = true) (hunder : Under w m m') : m = m' := by
  cases hunder with
  | top => rfl
  | entry above hheld =>
    obtain ⟨rfl, -⟩ := honce m' howned _ _ _ _ hheld hm'
    obtain hself | ⟨q, n, k, rfl, -, -⟩ := above.head
    · rw [← hself] at hm
      exact absurd (h.deeper _ _ _ hm) (Nat.lt_irrefl _)
    · exact absurd (above.level_le h) (Nat.not_le_of_lt (h.deeper _ _ _ hm))

/-- Everything that is there can be reached from the root. -/
theorem Tree.under_root (h : w.Tree) {m : Member} (hm : w.Lives m) : Under w (.scope .root) m := by
  have hscope (i : Nat) : ∀ x : ScopeId, x.index = i → w.Lives (.scope x) →
      Under w (.scope .root) (.scope x) := by
    induction i using Nat.strongRecOn with
    | ind i ih =>
      intro x hi hlives
      by_cases hx : x = .root
      · rw [hx]
        exact .top
      · obtain ⟨⟨name, parent⟩, hkey⟩ := lives_scope_iff.mp hlives
        cases parent with
        | none => exact absurd (Forest.rooted h x name hkey) hx
        | some p =>
          have hheld := (Forest.holds_scope h p name x).mpr ⟨hx, hkey⟩
          have holder := Forest.older h x name p hkey
          exact .entry (ih p.index (by omega) p rfl hheld.scope_isSome) hheld
  cases m with
  | node x =>
    obtain ⟨⟨name, p⟩, hkey⟩ := lives_node_iff.mp hm
    have hheld := (Forest.holds_node h p name x).mpr hkey
    exact .entry (hscope p.index p rfl hheld.scope_isSome) hheld
  | scope x => exact hscope x.index x rfl hm
  | nodeType t => exact hm.elim
  | scopeType t => exact hm.elim

/-! ## The list of nodes -/

/-- The nodes that an entry leads to, given those that a scope leads to. -/
def nodesOf (within : ScopeId → List NodeId) (entry : String × Member) : List NodeId :=
  match entry.2 with
  | .node id => [id]
  | .scope child => within child
  | .nodeType _ | .scopeType _ => []

theorem nodesWithin_of_scope (depth : Nat) {p : ScopeId} {s : Scope} (hs : w.scope? p = some s) :
    w.nodesWithin (depth + 1) p = s.members.toList.flatMap (nodesOf (w.nodesWithin depth)) := by
  rw [nodesWithin, hs]
  rfl

theorem nodesWithin_of_none (depth : Nat) {p : ScopeId} (hs : w.scope? p = none) :
    w.nodesWithin depth p = [] := by
  cases depth with
  | zero => rfl
  | succ depth => rw [nodesWithin, hs]

/-- The limit on the depth does not matter once it covers the scopes that are left. -/
theorem nodesWithin_eq (ht : w.Tabled) (hl : w.Leveled level) (depth depth' : Nat) (p : ScopeId)
    (hdepth : w.scopes.size ≤ level p + depth) (hdepth' : w.scopes.size ≤ level p + depth') :
    w.nodesWithin depth p = w.nodesWithin depth' p := by
  induction depth generalizing depth' p with
  | zero =>
    have hnone : w.scope? p = none := hl.scope?_eq_none hdepth
    rw [nodesWithin_of_none _ hnone, nodesWithin_of_none _ hnone]
  | succ depth ih =>
    cases hs : w.scope? p with
    | none => rw [nodesWithin_of_none _ hs, nodesWithin_of_none _ hs]
    | some s =>
      have hlt := hl.bounded p s hs
      obtain ⟨less, rfl⟩ : ∃ less, depth' = less + 1 := ⟨depth' - 1, by omega⟩
      rw [nodesWithin_of_scope _ hs, nodesWithin_of_scope _ hs]
      refine List.flatMap_congr fun entry hentry => ?_
      obtain ⟨name, m⟩ := entry
      cases m with
      | scope child =>
        have hdeeper := hl.deeper p name child ((Holds.mem_toList ht hs).mpr hentry)
        exact ih less child (by omega) (by omega)
      | node x => rfl
      | nodeType t => rfl
      | scopeType t => rfl

/-! ## The list of members -/

/-- The nodes and scopes that an entry leads to, given those that a scope leads to. -/
def membersOf (within : ScopeId → List Member) (entry : String × Member) : List Member :=
  match entry.2 with
  | .node id => [.node id]
  | .scope child => .scope child :: within child
  | .nodeType _ | .scopeType _ => []

/-- The nodes and scopes in a scope, each scope before what is in it, through at most so many levels
of scopes. -/
def membersWithin (w : World) : Nat → ScopeId → List Member
  | 0, _ => []
  | depth + 1, p =>
    match w.scope? p with
    | none => []
    | some s => s.members.toList.flatMap (membersOf (w.membersWithin depth))

/-- A node or scope that is held under a scope. -/
def Below (w : World) (p : ScopeId) (m : Member) : Prop :=
  m.isOwned = true ∧ ∃ q name, Under w (.scope p) (.scope q) ∧ w.Holds q name m

theorem Below.under {p : ScopeId} {m : Member} (h : Below w p m) : Under w (.scope p) m := by
  obtain ⟨-, q, name, hunder, hheld⟩ := h
  exact .entry hunder hheld

theorem below_node_iff {p : ScopeId} {x : NodeId} :
    Below w p (.node x) ↔ Under w (.scope p) (.node x) := by
  refine ⟨Below.under, fun h => ?_⟩
  cases h with
  | entry above hheld => exact ⟨rfl, _, _, above, hheld⟩

theorem membersWithin_of_scope (depth : Nat) {p : ScopeId} {s : Scope} (hs : w.scope? p = some s) :
    w.membersWithin (depth + 1) p = s.members.toList.flatMap (membersOf (w.membersWithin depth)) := by
  rw [membersWithin, hs]

theorem membersWithin_of_none (depth : Nat) {p : ScopeId} (hs : w.scope? p = none) :
    w.membersWithin depth p = [] := by
  cases depth with
  | zero => rfl
  | succ depth => rw [membersWithin, hs]

theorem under_of_mem_membersOf {within : ScopeId → List Member} {m : Member}
    (hwithin : ∀ child, m ∈ within child → Below w child m) {entry : String × Member}
    (hm : m ∈ membersOf within entry) :
    entry.2.isOwned = true ∧ m.isOwned = true ∧ Under w entry.2 m := by
  obtain ⟨name, k⟩ := entry
  cases k with
  | node y =>
    rw [List.mem_singleton.mp hm]
    exact ⟨rfl, rfl, .top⟩
  | scope child =>
    obtain rfl | hm := List.mem_cons.mp hm
    · exact ⟨rfl, rfl, .top⟩
    · exact ⟨rfl, (hwithin child hm).1, (hwithin child hm).under⟩
  | nodeType t => cases hm
  | scopeType t => cases hm

theorem below_of_mem_membersWithin (ht : w.Tabled) (depth : Nat) (p : ScopeId) {m : Member}
    (hm : m ∈ w.membersWithin depth p) : Below w p m := by
  induction depth generalizing p with
  | zero => cases hm
  | succ depth ih =>
    cases hs : w.scope? p with
    | none =>
      rw [membersWithin_of_none _ hs] at hm
      cases hm
    | some s =>
      rw [membersWithin_of_scope depth hs] at hm
      obtain ⟨entry, hentry, hm⟩ := List.mem_flatMap.mp hm
      have hheld := (Holds.mem_toList ht hs).mpr hentry
      obtain ⟨-, howned, hunder⟩ := under_of_mem_membersOf ih hm
      cases hunder with
      | top => exact ⟨howned, p, _, .top, hheld⟩
      | entry above hlast => exact ⟨howned, _, _, (Under.entry .top hheld).trans above, hlast⟩

theorem mem_membersWithin_of_below (ht : w.Tabled) (hl : w.Leveled level) (depth : Nat)
    (p : ScopeId) {m : Member} (hdepth : w.scopes.size ≤ level p + depth) (hm : Below w p m) :
    m ∈ w.membersWithin depth p := by
  obtain ⟨howned, q, name, hunder, hheld⟩ := hm
  induction depth generalizing p with
  | zero =>
    have hlevel := hunder.level_le hl
    obtain ⟨s, hs⟩ := hheld.scope_isSome
    exact absurd (hl.bounded q s hs) (by omega)
  | succ depth ih =>
    obtain hself | ⟨p', name', k, hp', hfirst, hbelow⟩ := hunder.head
    · cases hself
      obtain ⟨s, hs⟩ := hheld.scope_isSome
      rw [membersWithin_of_scope depth hs]
      refine List.mem_flatMap.mpr ⟨(name, m), (Holds.mem_toList ht hs).mp hheld, ?_⟩
      cases m with
      | node x => exact List.mem_singleton_self _
      | scope x => exact List.mem_cons_self
      | nodeType t => cases howned
      | scopeType t => cases howned
    · cases hp'
      obtain ⟨s, hs⟩ := hfirst.scope_isSome
      rw [membersWithin_of_scope depth hs]
      refine List.mem_flatMap.mpr ⟨(name', k), (Holds.mem_toList ht hs).mp hfirst, ?_⟩
      cases k with
      | scope child =>
        have hdeeper := hl.deeper p name' child hfirst
        exact List.mem_cons_of_mem _ (ih child (by omega) hbelow)
      | node x => obtain hself | ⟨_, _, _, hq, -, -⟩ := hbelow.head <;> contradiction
      | nodeType t => obtain hself | ⟨_, _, _, hq, -, -⟩ := hbelow.head <;> contradiction
      | scopeType t => obtain hself | ⟨_, _, _, hq, -, -⟩ := hbelow.head <;> contradiction

/-- Nothing is met twice: ways from two entries of one scope that end in one place would make one
entry lie under the other. -/
theorem Leveled.membersWithin_nodup (h : w.Leveled level) (ht : w.Tabled) (honce : w.HeldOnce)
    (depth : Nat) (p : ScopeId) : (w.membersWithin depth p).Nodup := by
  induction depth generalizing p with
  | zero => exact List.nodup_nil
  | succ depth ih =>
    cases hs : w.scope? p with
    | none =>
      rw [membersWithin_of_none _ hs]
      exact List.nodup_nil
    | some s =>
      rw [membersWithin_of_scope depth hs, List.nodup_flatMap]
      have hheld {entry : String × Member} (hentry : entry ∈ s.members.toList) :
          w.Holds p entry.1 entry.2 := (Holds.mem_toList ht hs).mpr hentry
      have hunder {entry : String × Member} {m : Member}
          (hm : m ∈ membersOf (w.membersWithin depth) entry) :=
        under_of_mem_membersOf (fun child => below_of_mem_membersWithin ht depth child) hm
      have hnames : s.members.toList.Pairwise fun e e' => e.1 ≠ e'.1 :=
        List.pairwise_map.mp (ht p s hs).sound.keys_nodup
      refine ⟨fun entry hentry => ?_, hnames.imp_of_mem fun {e e'} he he' hne m hm hm' => ?_⟩
      · obtain ⟨name, m⟩ := entry
        cases m with
        | node y => exact List.nodup_singleton _
        | scope child =>
          refine List.nodup_cons.mpr ⟨fun hself => ?_, ih child⟩
          obtain ⟨-, q, n, habove, hlast⟩ := below_of_mem_membersWithin ht depth child hself
          have hle := habove.level_le h
          have hlt := h.deeper q n child hlast
          omega
        | nodeType t => exact List.nodup_nil
        | scopeType t => exact List.nodup_nil
      · obtain ⟨howned, hmember, hbelow⟩ := hunder hm
        obtain ⟨howned', -, hbelow'⟩ := hunder hm'
        have hsame : e.2 = e'.2 := by
          obtain hab | hba := hbelow.linear honce hmember hbelow'
          · exact h.sibling honce (hheld he) (hheld he') howned' hab
          · exact (h.sibling honce (hheld he') (hheld he) howned hba).symm
        have hentry := hheld he
        rw [hsame] at hentry
        exact hne (honce e'.2 howned' _ _ _ _ hentry (hheld he')).2

/-! ## The nodes among them -/

/-- The node that a member is. -/
def nodeOf? : Member → Option NodeId
  | .node id => some id
  | .scope _ | .nodeType _ | .scopeType _ => none

theorem nodesWithin_eq_filterMap (depth : Nat) (p : ScopeId) :
    w.nodesWithin depth p = (w.membersWithin depth p).filterMap nodeOf? := by
  induction depth generalizing p with
  | zero => rfl
  | succ depth ih =>
    cases hs : w.scope? p with
    | none => rw [nodesWithin_of_none _ hs, membersWithin_of_none _ hs, List.filterMap_nil]
    | some s =>
      rw [nodesWithin_of_scope _ hs, membersWithin_of_scope _ hs, List.filterMap_flatMap]
      refine List.flatMap_congr fun entry _ => ?_
      obtain ⟨name, m⟩ := entry
      cases m with
      | scope child => exact ih child
      | node x => rfl
      | nodeType t => rfl
      | scopeType t => rfl

theorem mem_nodesWithin {depth : Nat} {p : ScopeId} {x : NodeId} :
    x ∈ w.nodesWithin depth p ↔ .node x ∈ w.membersWithin depth p := by
  rw [nodesWithin_eq_filterMap, List.mem_filterMap]
  constructor
  · rintro ⟨m, hm, hx⟩
    cases m with
    | node y =>
      cases hx
      exact hm
    | scope | nodeType | scopeType => cases hx
  · exact fun hx => ⟨_, hx, rfl⟩

theorem Leveled.nodesWithin_nodup (h : w.Leveled level) (ht : w.Tabled) (honce : w.HeldOnce)
    (depth : Nat) (p : ScopeId) : (w.nodesWithin depth p).Nodup := by
  rw [nodesWithin_eq_filterMap]
  refine (h.membersWithin_nodup ht honce depth p).filterMap fun m m' x hx hx' => ?_
  cases m with
  | node y =>
    cases m' with
    | node y' =>
      cases hx
      cases hx'
      rfl
    | scope | nodeType | scopeType => cases hx'
  | scope | nodeType | scopeType => cases hx

/-- Gathering lists the nodes under the root. -/
theorem Leveled.mem_gather (h : w.Leveled level) (ht : w.Tabled) {x : NodeId} :
    x ∈ w.gather ↔ Under w (.scope .root) (.node x) := by
  rw [gather, mem_nodesWithin, ← below_node_iff]
  exact ⟨below_of_mem_membersWithin ht _ _, mem_membersWithin_of_below ht h _ _ (by omega)⟩

theorem Ranked.nodesWithin_nodup (h : w.Ranked) (honce : w.HeldOnce) (depth : Nat) (p : ScopeId) :
    (w.nodesWithin depth p).Nodup :=
  h.leveled.nodesWithin_nodup h.tabled honce depth p

theorem Ranked.mem_gather (h : w.Ranked) {x : NodeId} :
    x ∈ w.gather ↔ Under w (.scope .root) (.node x) :=
  h.leveled.mem_gather h.tabled

/-- Gathering lists every node that is there, and it lists it once. -/
theorem Tree.gather_spec (h : w.Tree) :
    w.gather.Nodup ∧ ∀ x, x ∈ w.gather ↔ ∃ n, w.node? x = some n := by
  refine ⟨(Forest.ranked h).nodesWithin_nodup (Forest.heldOnce h) _ _,
    fun x => ⟨fun hx => ?_, fun hx => ?_⟩⟩
  · cases (Forest.ranked h).mem_gather.mp hx with
    | entry _ hheld => exact Forest.lives_of_holds h hheld rfl
  · exact (Forest.ranked h).mem_gather.mpr (h.under_root hx)

end FrameGraph.World
