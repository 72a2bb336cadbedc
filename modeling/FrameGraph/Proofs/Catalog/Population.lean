import FrameGraph.Proofs.Catalog.Registration
import FrameGraph.Proofs.World.Enclosure

/-!
# Population

The names of a catalog differ, so no entry that is put into a scope meets a name that another has
taken, and as plugins make members in their own scope only, none is taken meanwhile. The one thing
that can go wrong is the setup of a plugin, and then nothing is left of the plugin and the others
are put into the scope all the same.
-/
namespace FrameGraph.Catalog

open World

variable {scope : ScopeId} {v w : World} {e : CatalogEntry}

/-- How the setup of a plugin ends that is put into a scope. -/
def pluginSetup (v : World) (scope : ScopeId) (t : ScopeType) : Except String Unit :=
  ((v.opened scope t.name scope (defaults t.params) t).runSetup ⟨v.scopes.size⟩ t.setup).2

/-- The world with an entry in a scope. -/
def install (scope : ScopeId) (v : World) (e : CatalogEntry) : World :=
  (installEntry scope (v, []) e).1

/-- Each entry with the world that it is put into. -/
def installs (scope : ScopeId) : World → List CatalogEntry → List (World × CatalogEntry)
  | _, [] => []
  | v, e :: es => (v, e) :: installs scope (install scope v e) es

/-- Why nothing is there for an entry: the setup of a plugin has failed. -/
def failure? (scope : ScopeId) (v : World) : CatalogEntry → Option WorldError
  | .nodeType _ | .scopeType _ => none
  | .plugin t =>
    match pluginSetup v scope t with
    | .ok () => none
    | .error reason => some (.scopeSetup t.name reason)

/-- What the scope has for an entry that was put into a world. -/
def Stands (scope : ScopeId) (w v : World) : CatalogEntry → Prop
  | .nodeType t => w.Holds scope t.name (.nodeType t)
  | .scopeType t => w.Holds scope t.name (.scopeType t)
  | .plugin t =>
    match pluginSetup v scope t with
    | .ok () => w.Holds scope t.name (.scope ⟨v.scopes.size⟩) ∧
        ∃ s, w.scope? ⟨v.scopes.size⟩ = some s ∧
          s.bare = .new t.name t (some scope) (some scope) (defaults t.params) ∧ s.isSetUp = true
    | .error _ => ∀ m, ¬w.Holds scope t.name m

/-! ## One entry -/

/-- What putting an entry into a scope does: to the scopes that were there, and under other names. -/
structure Installed (scope : ScopeId) (v w : World) (e : CatalogEntry) : Prop where
  orderly : w.Orderly
  grows : Grows v w
  others : ∀ x : ScopeId, x.index < v.scopes.size → x ≠ scope → w.scope? x = v.scope? x
  holds : ∀ name m, name ≠ e.name → (w.Holds scope name m ↔ v.Holds scope name m)
  stands : Stands scope w v e

/-- Which errors there were before makes no difference. -/
theorem installEntry_eq (scope : ScopeId) (v : World) (errors : List WorldError)
    (e : CatalogEntry) : installEntry scope (v, errors) e =
      (install scope v e, errors ++ (installEntry scope (v, []) e).2) := by
  have htype (name : String) (type : Member) : installType scope name type (v, errors) =
      ((installType scope name type (v, [])).1,
        errors ++ (installType scope name type (v, [])).2) := by
    rw [installType, installType]
    obtain ⟨w, answer⟩ := v.define scope name type
    cases answer <;> simp
  cases e with
  | nodeType t => exact htype t.name (.nodeType t)
  | scopeType t => exact htype t.name (.scopeType t)
  | plugin t =>
    rw [install, installEntry, installEntry, installPlugin, installPlugin]
    obtain ⟨w, answer⟩ := v.makeScope scope t.name scope (defaults t.params) t
    cases answer <;> simp

theorem installType_adds (hv : v.Orderly) {name : String} (type : Member)
    (hfree : v.isFree scope name = true) :
    (installType scope name type (v, [])).2 = [] ∧
      Adds v (installType scope name type (v, [])).1 scope name type := by
  obtain ⟨w, hinsert, hadds⟩ := insertMember_adds hv.tabled hfree type
  rw [installType, define, hinsert]
  exact ⟨rfl, hadds⟩

/-- A type is known under its name. -/
theorem Installed.of_adds {type : Member} (hgrown : w.Orderly ∧ Grows v w)
    (hadds : Adds v w scope e.name type)
    (hstands : w.Holds scope e.name type → Stands scope w v e) : Installed scope v w e where
  orderly := hgrown.1
  grows := hgrown.2
  others x _ hx := hadds.others x hx
  holds name m hname := (hadds.holds scope name m).trans
    (or_iff_left fun h => hname h.2.1)
  stands := hstands ((hadds.holds scope e.name type).mpr (.inr ⟨rfl, rfl, rfl⟩))

/-- A scope is there under the name of the plugin, or nothing has changed. -/
theorem installPlugin_installed (hv : v.Orderly) {t : ScopeType}
    (hfree : v.isFree scope t.name = true) (hinward : ∀ id, t.setup.Inward id) :
    (installPlugin scope t (v, [])).2 = (failure? scope v (.plugin t)).toList ∧
      Installed scope v (installPlugin scope t (v, [])).1 (.plugin t) := by
  have hgrown := installEntry_grows scope (v, []) (.plugin t) hv
  have hmade := makeScope_of_setup hv hfree scope (defaults t.params) (hinward _)
  rw [installEntry] at hgrown
  cases hsetup : pluginSetup v scope t with
  | ok =>
    rw [← pluginSetup, hsetup] at hmade
    obtain ⟨w, hmake, hgains, hself⟩ := hmade
    have hinstall : installPlugin scope t (v, []) = (w, []) := by rw [installPlugin, hmake]
    obtain ⟨s, members, hs, -⟩ := hgains.holder
    have hholds (name : String) (m : Member) := hgains.holds scope name m (lt_size_of_scope? hs)
    rw [hinstall] at hgrown ⊢
    refine ⟨by rw [failure?, hsetup]; rfl, hgrown.1, hgrown.2, hgains.scope,
      fun name m hname => (hholds name m).trans (or_iff_left fun h => hname h.2.1), ?_⟩
    rw [Stands, hsetup]
    exact ⟨(hholds _ _).mpr (.inr ⟨rfl, rfl, rfl⟩), hself⟩
  | error reason =>
    rw [← pluginSetup, hsetup] at hmade
    obtain ⟨w, hmake, hsame⟩ := hmade
    have hinstall : installPlugin scope t (v, []) = (w, [.scopeSetup t.name reason]) := by
      rw [installPlugin, hmake]
      rfl
    rw [hinstall] at hgrown ⊢
    refine ⟨by rw [failure?, hsetup]; rfl, hgrown.1, hgrown.2, fun x _ _ => hsame.scope x,
      fun name m _ => holds_of_scope? (hsame.scope scope) name m, ?_⟩
    rw [Stands, hsetup]
    exact fun m hm => free_of_isFree hv.tabled hfree m
      ((holds_of_scope? (hsame.scope scope) t.name m).mp hm)

theorem installEntry_installed (hv : v.Orderly) (hfree : v.isFree scope e.name = true)
    (hinward : ∀ t, e.plugin? = some t → ∀ id, t.setup.Inward id) :
    (installEntry scope (v, []) e).2 = (failure? scope v e).toList ∧
      Installed scope v (install scope v e) e := by
  have hgrown := installEntry_grows scope (v, []) e hv
  cases e with
  | nodeType t =>
    obtain ⟨hnone, hadds⟩ := installType_adds hv (.nodeType t) hfree
    exact ⟨hnone, .of_adds hgrown hadds id⟩
  | scopeType t =>
    obtain ⟨hnone, hadds⟩ := installType_adds hv (.scopeType t) hfree
    exact ⟨hnone, .of_adds hgrown hadds id⟩
  | plugin t => exact installPlugin_installed hv hfree (hinward t rfl)

/-! ## All entries -/

/-- What putting entries into a scope does. -/
structure InstalledAll (scope : ScopeId) (v w : World) (entries : List CatalogEntry) : Prop where
  grows : Grows v w
  others : ∀ x : ScopeId, x.index < v.scopes.size → x ≠ scope → w.scope? x = v.scope? x
  holds : ∀ name m, name ∉ entries.map CatalogEntry.name →
    (w.Holds scope name m ↔ v.Holds scope name m)
  stands : ∀ i ∈ installs scope v entries, Stands scope w i.1 i.2

@[simp] theorem map_snd_installs (scope : ScopeId) (v : World) (entries : List CatalogEntry) :
    (installs scope v entries).map Prod.snd = entries := by
  induction entries generalizing v with
  | nil => rfl
  | cons e entries ih => rw [installs, List.map_cons, ih]

/-- An entry stands as long as its name and its scope are left alone. -/
theorem Stands.mono {w' : World} (h : Stands scope w v e) (hscope : scope.index < v.scopes.size)
    (hholds : ∀ m, w'.Holds scope e.name m ↔ w.Holds scope e.name m)
    (hothers : ∀ x : ScopeId, x.index < w.scopes.size → x ≠ scope → w'.scope? x = w.scope? x) :
    Stands scope w' v e := by
  cases e with
  | nodeType t => exact (hholds _).mpr h
  | scopeType t => exact (hholds _).mpr h
  | plugin t =>
    rw [Stands] at h ⊢
    cases hsetup : pluginSetup v scope t with
    | ok =>
      simp only [hsetup] at h ⊢
      obtain ⟨hheld, s, hs, hmade⟩ := h
      have hne : (⟨v.scopes.size⟩ : ScopeId) ≠ scope := by
        rintro rfl
        exact Nat.lt_irrefl _ hscope
      exact ⟨(hholds _).mpr hheld, s, (hothers _ (lt_size_of_scope? hs) hne).trans hs, hmade⟩
    | error reason =>
      simp only [hsetup] at h ⊢
      exact fun m hm => h m ((hholds m).mp hm)

theorem isFree_iff_not_holds (ht : w.Tabled) {p : ScopeId} {name : String} :
    w.isFree p name = true ↔ w.Lives (.scope p) ∧ ∀ m, ¬w.Holds p name m := by
  constructor
  · intro hfree
    obtain ⟨s, hs, -⟩ := (isFree_iff ht p name).mp hfree
    exact ⟨⟨s, hs⟩, free_of_isFree ht hfree⟩
  · rintro ⟨⟨s, hs⟩, hnone⟩
    refine (isFree_iff ht p name).mpr ⟨s, hs, ?_⟩
    rw [Option.eq_none_iff_forall_ne_some]
    exact fun m hm => hnone m ⟨s, hs, hm⟩

/-- Nothing that is put into the scope gets in the way of what follows. -/
theorem foldl_installEntry {entries : List CatalogEntry} (hv : v.Orderly)
    (hfree : ∀ e ∈ entries, v.isFree scope e.name = true)
    (hdistinct : (entries.map CatalogEntry.name).Nodup)
    (hinward : ∀ e ∈ entries, ∀ t, e.plugin? = some t → ∀ id, t.setup.Inward id)
    (errors : List WorldError) :
    ∃ w, entries.foldl (installEntry scope) (v, errors) =
        (w, errors ++ (installs scope v entries).filterMap fun i => failure? scope i.1 i.2) ∧
      InstalledAll scope v w entries := by
  induction entries generalizing v errors with
  | nil =>
    exact ⟨v, by simp [installs], .refl v, fun _ _ _ => rfl, fun _ _ _ => Iff.rfl, nofun⟩
  | cons e entries ih =>
    obtain ⟨hlater, hdistinct⟩ := List.nodup_cons.mp hdistinct
    obtain ⟨hfirst, hfree⟩ := List.forall_mem_cons.mp hfree
    obtain ⟨hinward, hothers⟩ := List.forall_mem_cons.mp hinward
    obtain ⟨hfailed, hone⟩ := installEntry_installed hv hfirst hinward
    obtain ⟨⟨s, hs⟩, -⟩ := (isFree_iff_not_holds hv.tabled).mp hfirst
    have hne {name : String} (hname : name ∈ entries.map CatalogEntry.name) : name ≠ e.name := by
      rintro rfl
      exact hlater hname
    have hstill : ∀ e' ∈ entries, (install scope v e).isFree scope e'.name = true := by
      intro e' he'
      have hfree' := (isFree_iff_not_holds hv.tabled).mp (hfree e' he')
      refine (isFree_iff_not_holds hone.orderly.tabled).mpr
        ⟨hone.grows.lives hfree'.1, fun m hm => hfree'.2 m ?_⟩
      exact (hone.holds _ m (hne (List.mem_map_of_mem he'))).mp hm
    obtain ⟨w, hfold, hall⟩ := ih hone.orderly hstill hdistinct hothers
      (errors ++ (failure? scope v e).toList)
    refine ⟨w, ?_, hone.grows.trans hall.grows, fun x hx hxs => ?_, fun name m hname => ?_, ?_⟩
    · rw [List.foldl_cons, installEntry_eq, hfailed, hfold, installs, List.filterMap_cons,
        List.append_assoc]
      cases failure? scope v e <;> rfl
    · exact (hall.others x (Nat.lt_of_lt_of_le hx hone.grows.scopes) hxs).trans
        (hone.others x hx hxs)
    · rw [List.map_cons, List.mem_cons, not_or] at hname
      exact (hall.holds name m hname.2).trans (hone.holds name m hname.1)
    · exact List.forall_mem_cons.mpr ⟨hone.stands.mono (lt_size_of_scope? hs)
        (fun m => hall.holds e.name m hlater) hall.others, hall.stands⟩

/-- What is there after a catalog was put into a scope: the types under their names, and the plugins
whose own setup has not failed, each as a scope that is set up. The errors are those of the other
setups. -/
structure Populated (c : Catalog) (v : World) (scope : ScopeId)
    (outcome : World × List WorldError) : Prop where
  nodeTypes : ∀ t ∈ c.nodeTypes, outcome.1.Holds scope t.name (.nodeType t)
  scopeTypes : ∀ t ∈ c.scopeTypes, outcome.1.Holds scope t.name (.scopeType t)
  plugins : ∀ i ∈ installs scope v c.entries, ∀ t, i.2 = .plugin t →
    match pluginSetup i.1 scope t with
    | .ok () => outcome.1.Holds scope t.name (.scope ⟨i.1.scopes.size⟩) ∧
        ∃ s, outcome.1.scope? ⟨i.1.scopes.size⟩ = some s ∧
          s.bare = .new t.name t (some scope) (some scope) (defaults t.params) ∧ s.isSetUp = true
    | .error _ => ∀ m, ¬outcome.1.Holds scope t.name m
  errors : outcome.2 = (installs scope v c.entries).filterMap fun i => failure? scope i.1 i.2
  /-- Each entry has been put into the scope once, one after the other. -/
  listed : (installs scope v c.entries).map Prod.snd = c.entries
  only : ∀ name m, outcome.1.Holds scope name m → v.Holds scope name m ∨ name ∈ c.names

theorem populate_populated {c : Catalog} (hv : v.Orderly) (hscope : v.Lives (.scope scope))
    (hc : c.Unambiguous) (hfree : ∀ name ∈ c.names, ∀ m, ¬v.Holds scope name m)
    (hinward : ∀ t ∈ c.plugins, ∀ id, t.setup.Inward id) :
    Populated c v scope (c.populate v scope) := by
  have hplugins : ∀ e ∈ c.entries, ∀ t, e.plugin? = some t → ∀ id, t.setup.Inward id := by
    intro e he t ht
    refine hinward t ?_
    cases e with
    | nodeType t' | scopeType t' => cases ht
    | plugin t' =>
      cases ht
      simpa [entries] using he
  obtain ⟨w, hfold, hall⟩ := foldl_installEntry hv (fun e he => (isFree_iff_not_holds hv.tabled).mpr
    ⟨hscope, hfree e.name (List.mem_map_of_mem he)⟩) hc.distinct hplugins []
  have hstands {e : CatalogEntry} (he : e ∈ c.entries) : ∃ u, Stands scope w u e := by
    rw [← map_snd_installs scope v c.entries] at he
    obtain ⟨i, hi, rfl⟩ := List.mem_map.mp he
    exact ⟨i.1, hall.stands i hi⟩
  rw [populate, hfold, List.nil_append]
  refine ⟨fun t ht => ?_, fun t ht => ?_, fun i hi t ht => ?_, rfl, map_snd_installs _ _ _,
    fun name m hm => ?_⟩
  · obtain ⟨u, hu⟩ := hstands (e := .nodeType t) (by simp [entries, ht])
    exact hu
  · obtain ⟨u, hu⟩ := hstands (e := .scopeType t) (by simp [entries, ht])
    exact hu
  · have hplugin := hall.stands i hi
    rwa [ht, Stands] at hplugin
  · by_cases hname : name ∈ c.names
    · exact .inr hname
    · exact .inl ((hall.holds name m hname).mp hm)

/-- After any calls, names differ and the catalog is what was accepted, so that in a fresh world
nothing but the setup of a plugin can fail. -/
theorem registered_populates (calls : List CatalogEntry) :
    Registered calls (registered calls) ∧
    ∀ journal, (∀ t ∈ (registered calls).plugins, ∀ id, t.setup.Inward id) →
      Populated (registered calls) (World.new journal) .root
        ((registered calls).populate (World.new journal) .root) := by
  refine ⟨registered_spec calls, fun journal hinward => ?_⟩
  refine populate_populated (Forest.orderly (new_tree journal)) ⟨_, scope?_new journal .root⟩
    (registered_unambiguous calls) (fun name _ m => not_holds_new) hinward

/-- Makes a node. -/
def opener : ScopeType :=
  ⟨"opener", [], .makeNode .here "node" { name := "plain" } [] fun _ => .done, fun _ => []⟩

/-- Makes a node before it is refused. -/
def refuser : ScopeType :=
  ⟨"refuser", [], .makeNode .here "node" { name := "plain" } [] fun _ => .fail "busy", fun _ => []⟩

/-- Calls of every sort, one for a name that is taken and one for a plugin with a parameter. -/
def crowd : List CatalogEntry :=
  [.nodeType { name := "plain" }, .plugin refuser, .scopeType (.plain "plain"),
    .plugin { opener with params := [⟨"size", .bool true⟩] }, .plugin opener,
    .scopeType (.plain "group")]

theorem registered_populates_crowd :
    (registered crowd).plugins = [refuser, opener] ∧
    (∀ t ∈ (registered crowd).plugins, ∀ id, t.setup.Inward id) ∧
    Registered crowd (registered crowd) ∧
    Populated (registered crowd) (.new #[]) .root
      ((registered crowd).populate (.new #[]) .root) ∧
    ((registered crowd).populate (.new #[]) .root).2 = [.scopeSetup "refuser" "busy"] := by
  have hplugins : (registered crowd).plugins = [refuser, opener] := rfl
  have hinward : ∀ t ∈ (registered crowd).plugins, ∀ id, t.setup.Inward id := by
    rw [hplugins]
    intro t ht id
    obtain rfl | rfl : t = refuser ∨ t = opener := by simpa using ht
    · exact .makeNode (Location.here_within id) fun _ => .fail
    · exact .makeNode (Location.here_within id) fun _ => .done
  exact ⟨hplugins, hinward, (registered_populates crowd).1,
    (registered_populates crowd).2 #[] hinward, by decide +kernel⟩

end FrameGraph.Catalog
