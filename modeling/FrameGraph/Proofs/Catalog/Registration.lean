import FrameGraph.Catalog
import Mathlib.Data.List.Induction
import Mathlib.Data.List.Nodup

/-!
# Registration

A catalog holds what was registered and not refused, and a call that is refused leaves it as it was.
A name is refused that stands in any of its lists, so names differ across all sorts of entries, and
looking up the name of an entry finds that entry.
-/
namespace FrameGraph

namespace CatalogEntry

/-- The node type that is registered. -/
def nodeType? : CatalogEntry → Option NodeType
  | nodeType t => some t
  | scopeType _ | plugin _ => none

/-- The scope type that is registered to be used by name. -/
def scopeType? : CatalogEntry → Option ScopeType
  | scopeType t => some t
  | nodeType _ | plugin _ => none

/-- The scope type that is registered to be instantiated once. -/
def plugin? : CatalogEntry → Option ScopeType
  | plugin t => some t
  | nodeType _ | scopeType _ => none

/-- The parameters of a plugin, which should not have any. -/
def pluginParams (e : CatalogEntry) : List ParamSpec := (e.plugin?.map (·.params)).getD []

end CatalogEntry

namespace Catalog

variable {c : Catalog} {e : CatalogEntry}

/-- A call that registers a type of any sort. -/
def add (c : Catalog) : CatalogEntry → Except CatalogError Catalog
  | .nodeType t => c.addNodeType t
  | .scopeType t => c.addScopeType t
  | .plugin t => c.addPlugin t

/-- The catalog with one entry more, behind those of its sort. -/
def append (c : Catalog) : CatalogEntry → Catalog
  | .nodeType t => { c with nodeTypes := c.nodeTypes ++ [t] }
  | .scopeType t => { c with scopeTypes := c.scopeTypes ++ [t] }
  | .plugin t => { c with plugins := c.plugins ++ [t] }

/-- The names of all entries. -/
def names (c : Catalog) : List String := c.entries.map CatalogEntry.name

/-- Why an entry is refused. The parameters of a plugin are looked at before its name. -/
def refusal? (c : Catalog) (e : CatalogEntry) : Option CatalogError :=
  if e.pluginParams ≠ [] then some (.pluginParams e.name e.pluginParams.length)
  else if e.name ∈ c.names then some (.duplicate e.name)
  else none

/-- The catalog after a call, which may be refused. -/
def register (c : Catalog) (e : CatalogEntry) : Catalog := (c.add e).toOption.getD c

/-- The calls that are not refused. -/
def accepted (c : Catalog) : List CatalogEntry → List CatalogEntry
  | [] => []
  | e :: es => (if (c.add e).isOk then [e] else []) ++ (c.register e).accepted es

/-- The catalog after calls on an empty one. -/
def registered (calls : List CatalogEntry) : Catalog := calls.foldl register empty

/-! ## One call -/

theorem isSome_lookup? {name : String} : (c.lookup? name).isSome = true ↔ name ∈ c.names := by
  rw [lookup?, List.find?_isSome, names, List.mem_map]
  simp only [decide_eq_true_eq]

theorem refusal?_of_paramless (h : e.pluginParams = []) :
    c.refusal? e = if e.name ∈ c.names then some (.duplicate e.name) else none :=
  if_neg (not_not_intro h)

theorem refusal?_of_params (h : e.pluginParams ≠ []) :
    c.refusal? e = some (.pluginParams e.name e.pluginParams.length) :=
  if_pos h

/-- The three sorts of calls make the same test of the name, and each makes its own list longer. -/
theorem add_eq (c : Catalog) (e : CatalogEntry) : c.add e =
    match c.refusal? e with
    | some err => .error err
    | none => .ok (c.append e) := by
  cases e with
  | nodeType t =>
    have hadd : c.add (.nodeType t) = if t.name ∈ c.names then .error (.duplicate t.name)
        else .ok (c.append (.nodeType t)) := if_congr isSome_lookup? rfl rfl
    rw [hadd, refusal?_of_paramless rfl, CatalogEntry.name]
    split <;> rfl
  | scopeType t =>
    have hadd : c.add (.scopeType t) = if t.name ∈ c.names then .error (.duplicate t.name)
        else .ok (c.append (.scopeType t)) := if_congr isSome_lookup? rfl rfl
    rw [hadd, refusal?_of_paramless rfl, CatalogEntry.name]
    split <;> rfl
  | plugin t =>
    have hadd : c.add (.plugin t) =
        if t.params.length ≠ 0 then .error (.pluginParams t.name t.params.length)
        else if t.name ∈ c.names then .error (.duplicate t.name)
        else .ok (c.append (.plugin t)) := if_congr Iff.rfl rfl (if_congr isSome_lookup? rfl rfl)
    rw [hadd]
    by_cases hparams : t.params = []
    · have hnone : t.params.length = 0 := List.length_eq_zero_iff.mpr hparams
      rw [refusal?_of_paramless (e := .plugin t) hparams, if_neg (not_not_intro hnone),
        CatalogEntry.name]
      split <;> rfl
    · rw [refusal?_of_params (e := .plugin t) hparams, if_pos (mt List.length_eq_zero_iff.mp hparams)]
      rfl

theorem refusal?_eq_none_iff : c.refusal? e = none ↔ e.pluginParams = [] ∧ e.name ∉ c.names := by
  by_cases hparams : e.pluginParams = []
  · simp [refusal?_of_paramless hparams, hparams]
  · simp [refusal?_of_params hparams, hparams]

theorem refusal?_eq_some_iff {err : CatalogError} : c.refusal? e = some err ↔
    err = .pluginParams e.name e.pluginParams.length ∧ e.pluginParams ≠ [] ∨
      err = .duplicate e.name ∧ e.pluginParams = [] ∧ e.name ∈ c.names := by
  by_cases hparams : e.pluginParams = []
  · simp [refusal?_of_paramless hparams, hparams, and_comm, eq_comm]
  · simp [refusal?_of_params hparams, hparams, eq_comm]

theorem add_eq_error_iff {err : CatalogError} :
    c.add e = .error err ↔ c.refusal? e = some err := by
  rw [add_eq]
  cases c.refusal? e <;> simp

theorem isOk_add : (c.add e).isOk = true ↔ c.refusal? e = none := by
  rw [add_eq]
  cases c.refusal? e with
  | none => exact iff_of_true rfl rfl
  | some err => exact iff_of_false nofun nofun

theorem register_of_refused {err : CatalogError} (h : c.add e = .error err) : c.register e = c := by
  rw [register, h]
  rfl

theorem register_of_accepted (h : c.refusal? e = none) : c.register e = c.append e := by
  rw [register, add_eq, h]
  rfl

theorem register_of_not_accepted (h : ¬(c.add e).isOk = true) : c.register e = c := by
  cases hadd : c.add e with
  | error err => exact register_of_refused hadd
  | ok c' =>
    rw [hadd] at h
    exact absurd rfl h

theorem entries_append (c : Catalog) (e : CatalogEntry) :
    (c.append e).entries.Perm (c.entries ++ [e]) := by
  -- What stands behind the list of its sort goes round the new entry.
  have hround (front back : List CatalogEntry) :
      (front ++ [e] ++ back).Perm (front ++ back ++ [e]) := by
    rw [List.append_assoc, List.append_assoc]
    exact List.perm_append_comm.append_left front
  cases e with
  | nodeType t =>
    rw [entries, append, List.map_append]
    exact ((hround _ _).append_right _).trans (hround _ _)
  | scopeType t =>
    rw [entries, append, List.map_append, ← List.append_assoc]
    exact hround _ _
  | plugin t =>
    rw [entries, append, List.map_append, ← List.append_assoc]
    exact .refl _

theorem names_append (c : Catalog) (e : CatalogEntry) :
    (c.append e).names.Perm (c.names ++ [e.name]) := by
  have hnames := (entries_append c e).map CatalogEntry.name
  rwa [List.map_append] at hnames

/-! ## All calls -/

/-- What every call keeps. -/
structure Unambiguous (c : Catalog) : Prop where
  distinct : c.names.Nodup
  paramless : ∀ t ∈ c.plugins, t.params = []

theorem empty_unambiguous : Unambiguous empty := ⟨List.nodup_nil, nofun⟩

theorem Unambiguous.append (h : c.Unambiguous) (hnone : c.refusal? e = none) :
    (c.append e).Unambiguous := by
  obtain ⟨hparams, hnew⟩ := refusal?_eq_none_iff.mp hnone
  refine ⟨?_, ?_⟩
  · rw [(names_append c e).nodup_iff, ← List.concat_eq_append]
    exact h.distinct.concat hnew
  · cases e with
    | nodeType t | scopeType t => exact h.paramless
    | plugin t =>
      refine List.forall_mem_append.mpr ⟨h.paramless, fun t' ht' => ?_⟩
      rw [List.mem_singleton.mp ht']
      exact hparams

theorem Unambiguous.register (h : c.Unambiguous) (e : CatalogEntry) :
    (c.register e).Unambiguous := by
  cases hrefusal : c.refusal? e with
  | none =>
    rw [register_of_accepted hrefusal]
    exact h.append hrefusal
  | some err =>
    rw [register_of_refused (add_eq_error_iff.mpr hrefusal)]
    exact h

/-- The entry with the name of an entry is that entry. -/
theorem Unambiguous.lookup?_eq_some_iff (h : c.Unambiguous) {name : String} :
    c.lookup? name = some e ↔ e ∈ c.entries ∧ e.name = name := by
  constructor
  · intro hfound
    rw [lookup?] at hfound
    exact ⟨List.mem_of_find?_eq_some hfound, by simpa using List.find?_some hfound⟩
  · rintro ⟨hmem, rfl⟩
    rw [lookup?]
    cases hfound : c.entries.find? (·.name = e.name) with
    | none => simpa using List.find?_eq_none.mp hfound e hmem
    | some other =>
      have hother := List.mem_of_find?_eq_some hfound
      have hname : other.name = e.name := by simpa using List.find?_some hfound
      rw [List.inj_on_of_nodup_map h.distinct hother hmem hname]

theorem accepted_concat (c : Catalog) (calls : List CatalogEntry) (e : CatalogEntry) :
    c.accepted (calls ++ [e]) =
      c.accepted calls ++ if ((calls.foldl register c).add e).isOk then [e] else [] := by
  induction calls generalizing c with
  | nil => exact List.append_nil _
  | cons call calls ih =>
    rw [List.cons_append, accepted, ih, accepted, List.append_assoc]
    rfl

theorem registered_concat (calls : List CatalogEntry) (e : CatalogEntry) :
    registered (calls ++ [e]) = (registered calls).register e :=
  List.foldl_concat ..

/-- The entries are what was accepted, in the order of the sorts. -/
theorem entries_registered (calls : List CatalogEntry) :
    (registered calls).entries.Perm (empty.accepted calls) := by
  induction calls using List.reverseRecOn with
  | nil => exact .refl _
  | append_singleton calls e ih =>
    rw [registered_concat, accepted_concat, ← registered]
    by_cases hok : ((registered calls).add e).isOk = true
    · rw [if_pos hok, register_of_accepted (isOk_add.mp hok)]
      exact (entries_append _ e).trans (ih.append_right _)
    · rw [if_neg hok, register_of_not_accepted hok, List.append_nil]
      exact ih

/-- Each sort holds what was accepted of it, in the order of the calls. -/
theorem sorts_registered (calls : List CatalogEntry) :
    (registered calls).nodeTypes = (empty.accepted calls).filterMap CatalogEntry.nodeType? ∧
    (registered calls).scopeTypes = (empty.accepted calls).filterMap CatalogEntry.scopeType? ∧
    (registered calls).plugins = (empty.accepted calls).filterMap CatalogEntry.plugin? := by
  induction calls using List.reverseRecOn with
  | nil => exact ⟨rfl, rfl, rfl⟩
  | append_singleton calls e ih =>
    rw [registered_concat, accepted_concat, ← registered]
    by_cases hok : ((registered calls).add e).isOk = true
    · obtain ⟨hnodes, hscopes, hplugins⟩ := ih
      rw [if_pos hok, register_of_accepted (isOk_add.mp hok), List.filterMap_append,
        List.filterMap_append, List.filterMap_append, ← hnodes, ← hscopes, ← hplugins]
      cases e <;> simp [append, CatalogEntry.nodeType?, CatalogEntry.scopeType?,
        CatalogEntry.plugin?]
    · rw [if_neg hok, register_of_not_accepted hok, List.append_nil]
      exact ih

theorem registered_unambiguous (calls : List CatalogEntry) : (registered calls).Unambiguous :=
  List.foldlRecOn (motive := Unambiguous) calls register empty_unambiguous fun _ h e _ => h.register e

/-- What is known of a catalog after any calls. -/
structure Registered (calls : List CatalogEntry) (c : Catalog) : Prop where
  /-- What was accepted is there, each sort in the order of the calls. -/
  nodeTypes : c.nodeTypes = (empty.accepted calls).filterMap CatalogEntry.nodeType?
  scopeTypes : c.scopeTypes = (empty.accepted calls).filterMap CatalogEntry.scopeType?
  plugins : c.plugins = (empty.accepted calls).filterMap CatalogEntry.plugin?
  distinct : (c.entries.map CatalogEntry.name).Nodup
  lookup : ∀ e ∈ empty.accepted calls, c.lookup? e.name = some e
  found : ∀ name e, c.lookup? name = some e → e ∈ empty.accepted calls ∧ e.name = name
  paramless : ∀ t ∈ c.plugins, t.params = []
  /-- A call is refused for parameters of a plugin or for the name of an accepted entry, and then
  everything goes on as if it had not been made. -/
  refused : ∀ front e rest err, calls = front ++ e :: rest → (registered front).add e = .error err →
    ((∃ count, err = .pluginParams e.name count ∧ e.pluginParams.length = count ∧ count ≠ 0) ∨
      err = .duplicate e.name ∧ e.pluginParams = [] ∧
        ∃ e' ∈ empty.accepted front, e'.name = e.name) ∧
    registered (front ++ [e]) = registered front ∧ c = registered (front ++ rest)
  /-- A call that is not refused has neither. -/
  taken : ∀ front e rest c', calls = front ++ e :: rest → (registered front).add e = .ok c' →
    e.pluginParams = [] ∧ ∀ e' ∈ empty.accepted front, e'.name ≠ e.name

theorem mem_names_registered {calls : List CatalogEntry} {name : String} :
    name ∈ (registered calls).names ↔ ∃ e ∈ empty.accepted calls, e.name = name := by
  rw [names, ((entries_registered calls).map _).mem_iff, List.mem_map]

theorem registered_spec (calls : List CatalogEntry) : Registered calls (registered calls) where
  nodeTypes := (sorts_registered calls).1
  scopeTypes := (sorts_registered calls).2.1
  plugins := (sorts_registered calls).2.2
  distinct := (registered_unambiguous calls).distinct
  lookup e he := (registered_unambiguous calls).lookup?_eq_some_iff.mpr
    ⟨(entries_registered calls).mem_iff.mpr he, rfl⟩
  found name e he := by
    obtain ⟨hmem, hname⟩ := (registered_unambiguous calls).lookup?_eq_some_iff.mp he
    exact ⟨(entries_registered calls).mem_iff.mp hmem, hname⟩
  paramless := (registered_unambiguous calls).paramless
  refused front e rest err hcalls herr := by
    have hsame := register_of_refused herr
    refine ⟨?_, (registered_concat front e).trans hsame, ?_⟩
    · obtain ⟨rfl, hparams⟩ | ⟨rfl, hparams, hmem⟩ :=
        refusal?_eq_some_iff.mp (add_eq_error_iff.mp herr)
      · exact .inl ⟨_, rfl, rfl, mt List.length_eq_zero_iff.mp hparams⟩
      · exact .inr ⟨rfl, hparams, mem_names_registered.mp hmem⟩
    · rw [hcalls, registered, List.foldl_append, List.foldl_cons, ← registered, hsame, registered,
        registered, List.foldl_append]
  taken front e rest c' _ hok := by
    have hnone : (registered front).refusal? e = none := isOk_add.mp (by rw [hok]; rfl)
    obtain ⟨hparams, hnew⟩ := refusal?_eq_none_iff.mp hnone
    exact ⟨hparams, fun e' he' hname => hnew (mem_names_registered.mpr ⟨e', he', hname⟩)⟩

end Catalog

end FrameGraph
