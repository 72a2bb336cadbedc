import FrameGraph.Proofs.World.Release

/-!
# Pruning

Taking something down and removing the entry that held it leaves a forest. What is left of the tree
keeps its names and parents; an entry stays if the scope that has it stays and what it holds stays.
-/
namespace FrameGraph.World

variable {w w' : World} {loose : ScopeId → Prop}

/-- Some of the tree has been taken down, and the entries that held it are gone. -/
structure Pruned (w w' : World) : Prop where
  tabled : w'.Tabled
  node : ∀ x, w'.node? x = none ∨ w'.node? x = w.node? x
  scopeKey : ∀ x, w'.scopeKey? x = none ∨ w'.scopeKey? x = w.scopeKey? x
  size : w'.scopes.size = w.scopes.size
  holds : ∀ p name m, w'.Holds p name m ↔
    w.Holds p name m ∧ w'.Lives (.scope p) ∧ (m.isOwned = true → w'.Lives m)
  closed : ∀ p name m, w.Holds p name m → w'.Lives m → w'.Lives (.scope p)

theorem lives_node_iff {x : NodeId} : w.Lives (.node x) ↔ ∃ key, w.nodeKey? x = some key := by
  simp [Lives, nodeKey?]

theorem lives_scope_iff {x : ScopeId} : w.Lives (.scope x) ↔ ∃ key, w.scopeKey? x = some key := by
  simp [Lives, scopeKey?]

/-- What has names and parents in one world has them in the other. -/
theorem lives_congr (hnode : ∀ x, w'.nodeKey? x = w.nodeKey? x)
    (hscope : ∀ x, w'.scopeKey? x = w.scopeKey? x) (m : Member) : w'.Lives m ↔ w.Lives m := by
  cases m with
  | node x => rw [lives_node_iff, lives_node_iff, hnode]
  | scope x => rw [lives_scope_iff, lives_scope_iff, hscope]
  | nodeType t => rfl
  | scopeType t => rfl

theorem Pruned.nodeKey (h : Pruned w w') (x : NodeId) :
    w'.nodeKey? x = none ∨ w'.nodeKey? x = w.nodeKey? x := by
  obtain hnone | hsame := h.node x
  · exact .inl (nodeKey?_eq_none.mpr hnone)
  · exact .inr (by rw [nodeKey?, nodeKey?, hsame])

theorem Pruned.nodeKey_of_some (h : Pruned w w') {x : NodeId} {key : String × ScopeId}
    (hx : w'.nodeKey? x = some key) : w.nodeKey? x = some key := by
  obtain hnone | hsame := h.nodeKey x
  · rw [hnone] at hx
    cases hx
  · rwa [← hsame]

theorem Pruned.scopeKey_of_some (h : Pruned w w') {x : ScopeId} {key : String × Option ScopeId}
    (hx : w'.scopeKey? x = some key) : w.scopeKey? x = some key := by
  obtain hnone | hsame := h.scopeKey x
  · rw [hnone] at hx
    cases hx
  · rwa [← hsame]

theorem Forest.pruned (h : Forest w loose) (hp : Pruned w w') : Forest w' loose where
  tabled := hp.tabled
  holds_node p name x := by
    constructor
    · intro hx
      obtain ⟨hbefore, -, hlives⟩ := (hp.holds p name _).mp hx
      obtain ⟨key, hkey⟩ := lives_node_iff.mp (hlives rfl)
      rw [hkey, ← hp.nodeKey_of_some hkey]
      exact (h.holds_node p name x).mp hbefore
    · intro hkey
      have hbefore := (h.holds_node p name x).mpr (hp.nodeKey_of_some hkey)
      have hlives := lives_node_iff.mpr ⟨_, hkey⟩
      exact (hp.holds p name _).mpr ⟨hbefore, hp.closed p name _ hbefore hlives, fun _ => hlives⟩
  holds_scope p name x := by
    constructor
    · intro hx
      obtain ⟨hbefore, -, hlives⟩ := (hp.holds p name _).mp hx
      obtain ⟨key, hkey⟩ := lives_scope_iff.mp (hlives rfl)
      rw [hkey, ← hp.scopeKey_of_some hkey]
      exact (h.holds_scope p name x).mp hbefore
    · rintro ⟨hloose, hkey⟩
      have hbefore := (h.holds_scope p name x).mpr ⟨hloose, hp.scopeKey_of_some hkey⟩
      have hlives := lives_scope_iff.mpr ⟨_, hkey⟩
      exact (hp.holds p name _).mpr ⟨hbefore, hp.closed p name _ hbefore hlives, fun _ => hlives⟩
  rooted x name hx := h.rooted x name (hp.scopeKey_of_some hx)
  older x name p hx := h.older x name p (hp.scopeKey_of_some hx)
  known x hx := by rw [hp.size]; exact h.known x hx
  types p name t hx := h.types p name t ((hp.holds p name _).mp hx).1

/-- A scope that is gone need not be called loose. -/
theorem Forest.forget {id : ScopeId} (h : Forest w fun x => x = id ∨ loose x)
    (hid : w.scope? id = none) : Forest w loose where
  tabled := h.tabled
  holds_node := h.holds_node
  holds_scope p name x := by
    rw [h.holds_scope]
    by_cases hx : x = id
    · subst hx
      simp [scopeKey?_eq_none.mpr hid]
    · simp [hx]
  rooted x name hx := by
    refine (h.rooted x name hx).resolve_left ?_
    rintro rfl
    rw [scopeKey?_eq_none.mpr hid] at hx
    cases hx
  older := h.older
  known x hx := h.known x (.inr hx)
  types := h.types

/-! ## Entries that dangle -/

/-- No two scopes have an entry for one node or one scope. -/
def HeldOnce (w : World) : Prop :=
  ∀ m, m.isOwned = true → ∀ p n q n', w.Holds p n m → w.Holds q n' m → p = q ∧ n = n'

theorem Forest.heldOnce (h : Forest w loose) : w.HeldOnce := by
  intro m hm p n q n' hp hq
  cases m with
  | node x =>
    have hkey := (h.holds_node p n x).mp hp
    rw [(h.holds_node q n' x).mp hq] at hkey
    cases hkey
    exact ⟨rfl, rfl⟩
  | scope x =>
    have hkey := ((h.holds_scope p n x).mp hp).2
    rw [((h.holds_scope q n' x).mp hq).2] at hkey
    cases hkey
    exact ⟨rfl, rfl⟩
  | nodeType t => cases hm
  | scopeType t => cases hm

theorem Forest.lives_of_holds (h : Forest w loose) {p : ScopeId} {name : String} {m : Member}
    (hm : w.Holds p name m) (howned : m.isOwned = true) : w.Lives m := by
  cases m with
  | node x => exact lives_node_iff.mpr ⟨_, (h.holds_node p name x).mp hm⟩
  | scope x => exact lives_scope_iff.mpr ⟨_, ((h.holds_scope p name x).mp hm).2⟩
  | nodeType t => cases howned
  | scopeType t => cases howned

/-- What has been taken down is either one of the members it was called for, or the scope that held
it has been taken down too. -/
theorem Cleared.lives_of_holds {ms : List Member} (h : Cleared w w' ms) (honce : w.HeldOnce)
    {p : ScopeId} {name : String} {m : Member} (howned : m.isOwned = true) (hlives : w.Lives m)
    (hm : w'.Holds p name m) (hnot : m ∉ ms) : w'.Lives m := by
  obtain ⟨hbefore, hp⟩ := (h.holds p name m).mp hm
  obtain hstays | ⟨top, htop, hunder⟩ := h.under m hlives
  · exact hstays
  · cases hunder with
    | top => exact absurd htop hnot
    | entry above hheld =>
      obtain ⟨rfl, -⟩ := honce m howned _ _ _ _ hbefore hheld
      exact absurd hp (h.under_gone htop above)

theorem Cleared.lives_holder {ms : List Member} (h : Cleared w w' ms) {p : ScopeId} {name : String}
    {m : Member} (hm : w.Holds p name m) (hlives : w'.Lives m) : w'.Lives (.scope p) := by
  cases hp : w'.scope? p with
  | none => exact absurd hlives (h.closed p name m hm hp)
  | some s => exact ⟨s, hp⟩

/-- Taking down leaves no entry that dangles if the members it was called for are not held. -/
theorem Cleared.pruned {ms : List Member} (h : Cleared w w' ms) (hf : Forest w loose)
    (hfree : ∀ p name m, m ∈ ms → ¬w.Holds p name m) : Pruned w w' where
  tabled x s hs := hf.tabled x s (h.scope_of_scope hs)
  node := h.node
  scopeKey x := by
    obtain hnone | hsame := h.scope x
    · exact .inl (scopeKey?_eq_none.mpr hnone)
    · exact .inr (by rw [scopeKey?, scopeKey?, hsame])
  size := h.size
  holds p name m := by
    rw [h.holds]
    constructor
    · rintro ⟨hm, hp⟩
      refine ⟨hm, hp, fun howned => ?_⟩
      exact h.lives_of_holds hf.heldOnce howned (hf.lives_of_holds hm howned)
        ((h.holds p name m).mpr ⟨hm, hp⟩) fun hmem => hfree p name m hmem hm
    · rintro ⟨hm, hp, -⟩
      exact ⟨hm, hp⟩
  closed _ _ _ hm hlives := h.lives_holder hm hlives

/-- A loose scope is taken down. -/
theorem Forest.releaseLoose {id : ScopeId} (h : Forest w fun x => x = id ∨ loose x) :
    Forest (w.release id) loose := by
  have hcleared := cleared_release h.ranked id
  have hpruned : Pruned w (w.release id) := hcleared.pruned h fun p name m hm hheld => by
    rw [List.mem_singleton.mp hm, h.holds_scope] at hheld
    exact hheld.1 (.inl rfl)
  refine (h.pruned hpruned).forget (Option.eq_none_iff_forall_ne_some.mpr fun s hs => ?_)
  exact hcleared.gone _ (List.mem_singleton_self _) ⟨s, hs⟩

/-! ## Changing the members of a scope -/

/-- A scope has other members. -/
def withMembers (w : World) (p : ScopeId) (f : Table Member → Table Member) : World :=
  w.modifyScope p fun s => { s with members := f s.members }

section WithMembers

variable (w) (p : ScopeId) (f : Table Member → Table Member)

theorem scope?_withMembers (x : ScopeId) : (w.withMembers p f).scope? x =
    if x = p then (w.scope? p).map fun s => { s with members := f s.members } else w.scope? x :=
  w.scope?_modifyScope p _ x

theorem scopeKey?_withMembers (x : ScopeId) :
    (w.withMembers p f).scopeKey? x = w.scopeKey? x := by
  rw [scopeKey?, scopeKey?, scope?_withMembers]
  by_cases hx : x = p
  · rw [if_pos hx, hx, Option.map_map]
    rfl
  · rw [if_neg hx]

theorem lives_withMembers (m : Member) : (w.withMembers p f).Lives m ↔ w.Lives m :=
  lives_congr (fun x => by rw [nodeKey?, withMembers, node?_modifyScope, ← nodeKey?])
    (scopeKey?_withMembers w p f) m

theorem holds_withMembers_self (name : String) (m : Member) : (w.withMembers p f).Holds p name m ↔
    ∃ s, w.scope? p = some s ∧ (f s.members).get? name = some m := by
  rw [Holds, scope?_withMembers, if_pos rfl]
  simp [Scope.member?]

theorem holds_withMembers_of_ne {q : ScopeId} (hq : q ≠ p) (name : String) (m : Member) :
    (w.withMembers p f).Holds q name m ↔ w.Holds q name m :=
  holds_of_scope? ((w.scope?_withMembers p f q).trans (if_neg hq)) name m

variable {w p f}

theorem Tabled.withMembers (ht : w.Tabled)
    (hf : ∀ s, w.scope? p = some s → (f s.members).Valid) : (w.withMembers p f).Tabled := by
  intro x s hs
  rw [scope?_withMembers] at hs
  by_cases hx : x = p
  · rw [if_pos hx, Option.map_eq_some_iff] at hs
    obtain ⟨t, ht', rfl⟩ := hs
    exact hf t ht'
  · rw [if_neg hx] at hs
    exact ht x s hs

end WithMembers

/-! ## Destroying a scope -/

/-- A scope without the entry under a name. -/
def unlinked (w : World) (p : ScopeId) (name : String) : World :=
  w.withMembers p fun members => members.erase name

theorem holds_unlinked (ht : w.Tabled) (p : ScopeId) (name : String) (q : ScopeId) (n : String)
    (m : Member) :
    (w.unlinked p name).Holds q n m ↔ w.Holds q n m ∧ ¬(q = p ∧ n = name) := by
  by_cases hq : q = p
  · subst hq
    rw [unlinked, holds_withMembers_self, Holds]
    cases hs : w.scope? q with
    | none => simp
    | some s =>
      have hget := (ht q s hs).get?_erase name n
      by_cases hn : n = name
      · subst hn
        rw [if_pos rfl] at hget
        simp [hget]
      · rw [if_neg hn] at hget
        simp [Scope.member?, hget, hn]
  · simp [unlinked, holds_withMembers_of_ne w p _ hq, hq]

/-- A scope that is held, with the scope that holds it and the name it has there. -/
theorem destroyScope_of_held {id p : ScopeId} {name : String}
    (hkey : w.scopeKey? id = some (name, some p)) :
    w.destroyScope id = (w.release id).unlinked p name := by
  obtain ⟨s, hs, hkey⟩ := Option.map_eq_some_iff.mp hkey
  obtain ⟨rfl, hparent⟩ := Prod.mk.inj hkey
  simp only [destroyScope, hs, Option.bind_some, hparent, Option.map_some]
  rfl

theorem destroyScope_of_free {id : ScopeId}
    (hfree : ∀ name p, w.scopeKey? id ≠ some (name, some p)) : w.destroyScope id = w.release id := by
  rw [destroyScope]
  cases hs : w.scope? id with
  | none => rfl
  | some s =>
    cases hparent : s.parent with
    | none => simp [hparent]
    | some p =>
      refine absurd ?_ (hfree s.name p)
      rw [scopeKey?, hs, Option.map_some, hparent]

theorem Forest.destroyScope_pruned (h : Forest w loose) {id : ScopeId}
    (hloose : ∀ name p, loose id → w.scopeKey? id ≠ some (name, some p)) :
    Pruned w (w.destroyScope id) := by
  have hcleared := cleared_release h.ranked id
  have hself : ¬(w.release id).Lives (.scope id) :=
    hcleared.gone _ (List.mem_singleton_self _)
  by_cases hheld : ∃ name p, w.scopeKey? id = some (name, some p)
  · obtain ⟨name, p, hkey⟩ := hheld
    have hentry := (h.holds_scope p name id).mpr ⟨fun hid => hloose name p hid hkey, hkey⟩
    have htabled : (w.release id).Tabled := (hcleared.ranked h.ranked).tabled
    rw [destroyScope_of_held hkey]
    refine ⟨htabled.withMembers fun s hs => (htabled p s hs).erase name, fun x => ?_, fun x => ?_,
      ?_, fun q n m => ?_, fun q n m hm hlives => ?_⟩
    · simp only [unlinked, withMembers, node?_modifyScope]
      exact hcleared.node x
    · rw [unlinked, scopeKey?_withMembers]
      obtain hnone | hsame := hcleared.scope x
      · exact .inl (scopeKey?_eq_none.mpr hnone)
      · exact .inr (by rw [scopeKey?, scopeKey?, hsame])
    · exact (modifyScope_size _ _ _).trans hcleared.size
    · rw [holds_unlinked htabled, hcleared.holds, unlinked, lives_withMembers, lives_withMembers,
        and_assoc]
      refine and_congr_right fun hm => and_congr_right fun hq => ?_
      constructor
      · intro hname howned
        refine hcleared.lives_of_holds h.heldOnce howned (h.lives_of_holds hm howned)
          ((hcleared.holds q n m).mpr ⟨hm, hq⟩) fun hmem => ?_
        rw [List.mem_singleton.mp hmem] at hm
        exact hname (h.heldOnce _ rfl _ _ _ _ hm hentry)
      · rintro hlives ⟨rfl, rfl⟩
        rw [hm.unique hentry] at hlives
        exact hself (hlives rfl)
    · rw [unlinked, lives_withMembers] at hlives ⊢
      exact hcleared.lives_holder hm hlives
  · have hfree : ∀ name p, w.scopeKey? id ≠ some (name, some p) :=
      fun name p hkey => hheld ⟨name, p, hkey⟩
    rw [destroyScope_of_free hfree]
    refine hcleared.pruned h fun p name m hm hheld => ?_
    rw [List.mem_singleton.mp hm, h.holds_scope] at hheld
    exact hfree name p hheld.2

/-! ## Clearing -/

/-- The members, put into an empty table if they are types. -/
def typesOnly (members : Table Member) : Table Member :=
  (members.toList.filter fun entry => !entry.2.isOwned).foldl Table.addEntry .empty

theorem typesOnly_spec {members : Table Member} (h : members.Valid) :
    (typesOnly members).Valid ∧ ∀ name m, (typesOnly members).get? name = some m ↔
      members.get? name = some m ∧ m.isOwned = false := by
  have hkeys : ((members.toList.filter fun entry => !entry.2.isOwned).map Prod.fst).Nodup :=
    h.sound.keys_nodup.sublist (List.filter_sublist.map _)
  obtain ⟨hvalid, hperm⟩ := Table.empty_valid.foldl_addEntry
    (members.toList.filter fun entry => !entry.2.isOwned)
    (by rwa [Table.toList_empty, List.append_nil])
  rw [← typesOnly] at hvalid hperm
  refine ⟨hvalid, fun name m => ?_⟩
  rw [Table.get?_eq_some_iff hvalid.sound, Table.get?_eq_some_iff h.sound]
  refine hperm.mem_iff.trans ?_
  simp

theorem HeldOnce.drained (h : w.HeldOnce) {id : ScopeId} {s : Scope} (hs : w.scope? id = some s) :
    (w.drained id s).HeldOnce := fun m hm p n q n' hp hq =>
  h m hm p n q n' ((holds_drained hs p n m).mp hp).2 ((holds_drained hs q n' m).mp hq).2

theorem scopeKey?_drained {id : ScopeId} {s : Scope} (hs : w.scope? id = some s) (x : ScopeId) :
    (w.drained id s).scopeKey? x = w.scopeKey? x := by
  rw [scopeKey?, scopeKey?, scope?_drained hs]
  by_cases hx : x = id
  · rw [if_pos hx, hx, hs]
    rfl
  · rw [if_neg hx]

/-- The root cannot be reached from what it holds, so it is still there in the end. -/
theorem clear_of_root (hr : w.Ranked) {root : Scope} (hs : w.scope? .root = some root) :
    ∃ w', w' = root.members.toList.foldl (releaseEntry release) (w.drained .root root) ∧
      Cleared (w.drained .root root) w' (root.members.toList.map Prod.snd) ∧
      w'.scope? .root = some { root with members := .empty } ∧
      w.clear = w'.withMembers .root fun _ => typesOnly root.members := by
  have hcleared := cleared_entries release root.members.toList (hr.drained hs) rfl
    fun w' hr' _ _ _ x _ => cleared_release hr' x
  have hroot : (w.drained .root root).scope? .root = some { root with members := .empty } :=
    (scope?_drained hs .root).trans (if_pos rfl)
  have hbelow {q : ScopeId} {name : String} : ¬w.Holds q name (.scope .root) :=
    fun hheld => Nat.not_lt_zero _ (hr.older q name .root hheld)
  have hstays := hcleared.under (.scope .root) ⟨_, hroot⟩
  revert hcleared hstays
  rw [clear, hs]
  simp only [Table.drain_fst, Table.drain_snd]
  change Cleared _ (root.members.toList.foldl (releaseEntry release) (w.drained .root root)) _ →
    _ → ∃ w', _ ∧ _ ∧ _ ∧
      World.modifyScope (root.members.toList.foldl (releaseEntry release) (w.drained .root root))
        _ _ = _
  generalize root.members.toList.foldl (releaseEntry release) (w.drained .root root) = w'
  intro hcleared hstays
  have hlives : ∃ s, w'.scope? .root = some s := by
    obtain hlives | ⟨top, htop, hunder⟩ := hstays
    · exact hlives
    · cases hunder with
      | top =>
        obtain ⟨⟨name, _⟩, hentry, rfl⟩ := List.mem_map.mp htop
        exact absurd ((Holds.mem_toList hr.tabled hs).mpr hentry) hbelow
      | entry _ hheld => exact absurd ((holds_drained hs _ _ _).mp hheld).2 hbelow
  obtain ⟨s, hs'⟩ := hlives
  have hsame := hcleared.scope_of_scope hs'
  rw [hroot] at hsame
  cases hsame
  refine ⟨w', rfl, hcleared, hs', ?_⟩
  rw [withMembers, modifyScope, modifyScope, hs']
  refine congrArg (fun members => w'.setScope .root (some { root with members })) ?_
  refine congrArg (fun add => List.foldl add Table.empty _) ?_
  funext members entry
  rw [Table.addEntry]
  cases members.insert entry.1 entry.2 <;> rfl

/-- The root keeps the types it knows. -/
theorem Forest.holds_clear_root (h : Forest w loose) (name : String) (m : Member) :
    w.clear.Holds .root name m ↔ w.Holds .root name m ∧ m.isOwned = false := by
  cases hs : w.scope? .root with
  | none => simp [clear, Holds, hs]
  | some root =>
    obtain ⟨w', -, -, hroot, hclear⟩ := clear_of_root h.ranked hs
    obtain ⟨-, hget⟩ := typesOnly_spec (h.tabled .root root hs)
    rw [hclear, holds_withMembers_self, hroot, Holds, hs]
    simp only [Option.some.injEq, exists_eq_left']
    exact hget name m

/-- Clearing takes down all that the root owns. -/
theorem Forest.clear_pruned (h : Forest w loose) : Pruned w w.clear := by
  cases hs : w.scope? .root with
  | none =>
    have hsame : w.clear = w := by rw [clear, hs]
    rw [hsame]
    exact (Cleared.refl w).pruned h nofun
  | some root =>
    obtain ⟨w', -, hcleared, hroot, hclear⟩ := clear_of_root h.ranked hs
    have hvalid := (typesOnly_spec (h.tabled .root root hs)).1
    have hdrained : (w.drained .root root).Tabled := (h.ranked.drained hs).tabled
    have hwithin : w'.Tabled := fun x s hx => hdrained x s (hcleared.scope_of_scope hx)
    have hheld {name : String} {m : Member} :
        w.Holds .root name m ↔ (name, m) ∈ root.members.toList := Holds.mem_toList h.tabled hs
    have hothers {p : ScopeId} (hp : p ≠ .root) (name : String) (m : Member) :
        w.clear.Holds p name m ↔ w.Holds p name m ∧ w'.Lives (.scope p) := by
      rw [hclear, holds_withMembers_of_ne w' _ _ hp, hcleared.holds, holds_drained hs]
      simp [hp]
    have hlives (m : Member) : w.clear.Lives m ↔ w'.Lives m := by rw [hclear, lives_withMembers]
    refine ⟨?_, fun x => ?_, fun x => ?_, ?_, fun p name m => ?_, fun p name m hm hm' => ?_⟩
    · rw [hclear]
      exact hwithin.withMembers fun _ _ => hvalid
    · rw [hclear, withMembers, node?_modifyScope]
      exact hcleared.node x
    · rw [hclear, scopeKey?_withMembers, ← scopeKey?_drained hs]
      obtain hnone | hsame := hcleared.scope x
      · exact .inl (scopeKey?_eq_none.mpr hnone)
      · exact .inr (by rw [scopeKey?, scopeKey?, hsame])
    · rw [hclear]
      exact (modifyScope_size _ _ _).trans (hcleared.size.trans (setScope_size _ _ _))
    · rw [hlives, hlives]
      by_cases hp : p = .root
      · subst hp
        rw [h.holds_clear_root]
        refine and_congr_right fun hm => ?_
        have hgone := hcleared.gone m (List.mem_map.mpr ⟨_, hheld.mp hm, rfl⟩)
        have hthere : w'.Lives (.scope .root) := ⟨_, hroot⟩
        simp [hgone, hthere]
      · rw [hothers hp]
        refine and_congr_right fun hm => ⟨fun hlives => ⟨hlives, fun howned => ?_⟩, And.left⟩
        have hbefore := lives_drained hs (h.lives_of_holds hm howned)
        refine hcleared.lives_of_holds (h.heldOnce.drained hs) howned hbefore
          ((hcleared.holds p name m).mpr ⟨(holds_drained hs p name m).mpr ⟨hp, hm⟩, hlives⟩)
          fun hmem => ?_
        obtain ⟨⟨n, _⟩, hentry, rfl⟩ := List.mem_map.mp hmem
        exact hp (h.heldOnce _ howned _ _ _ _ hm (hheld.mpr hentry)).1
    · rw [hlives] at hm' ⊢
      by_cases hp : p = .root
      · rw [hp]
        exact ⟨_, hroot⟩
      · exact hcleared.lives_holder ((holds_drained hs p name m).mpr ⟨hp, hm⟩) hm'

end FrameGraph.World
