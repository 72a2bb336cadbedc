import FrameGraph.Proofs.Assembly.Repeats

/-!
# The check of parameters

Assignments give values exactly if each names a parameter, none of them one that another has named,
and every literal is of the type of its parameter or an integer for a real. The values are then the
literals, and the defaults of what no assignment names. Otherwise each assignment at fault is
reported once, in their order: as unknown, or else as repeated, or else as of the wrong type.
-/
namespace FrameGraph

/-! ## Literals -/

namespace Value

/-- The value may stand for a parameter of the type: it has the type, or it is an integer for a
real. -/
def Fits (v : Value) (t : ValueType) : Prop := v.type = t ∨ v.type = .integer ∧ t = .real

/-- What the value is as one of the type: itself, or an integer widened to a real. -/
inductive Becomes : Value → ValueType → Value → Prop
  | same (v : Value) : Becomes v v.type v
  | widened (n : Int64) : Becomes (.integer n) .real (.real (Decimal.ofInt n.toInt))

theorem convert_type (v : Value) : v.convert v.type = .ok v := by
  cases v <;> rfl

theorem convert_integer (n : Int64) :
    (integer n).convert .real = .ok (real (Decimal.ofInt n.toInt)) := rfl

theorem convert_eq_ok_iff {v u : Value} {t : ValueType} : v.convert t = .ok u ↔ v.Becomes t u := by
  constructor
  · intro h
    rw [convert.eq_def] at h
    split at h
    · cases h
      exact .widened _
    · split at h
      · rename_i htype
        cases h
        exact htype ▸ .same v
      · cases h
  · rintro (_ | n)
    · exact convert_type v
    · exact convert_integer n

/-- A value that cannot stand for the parameter is reported with the type that it has. -/
theorem convert_eq_error_iff {v : Value} {t found : ValueType} :
    v.convert t = .error found ↔ ¬v.Fits t ∧ found = v.type := by
  constructor
  · intro h
    rw [convert.eq_def] at h
    split at h
    · cases h
    · rename_i hwiden
      split at h
      · cases h
      · rename_i htype
        cases h
        refine ⟨?_, rfl⟩
        rintro (hsame | ⟨hint, rfl⟩)
        · exact htype hsame
        · cases v with
          | integer n => exact hwiden n rfl rfl
          | _ => cases hint
  · rintro ⟨hfits, rfl⟩
    cases hconvert : v.convert t with
    | ok u =>
      rcases convert_eq_ok_iff.mp hconvert with _ | n
      · exact absurd (.inl rfl) hfits
      · exact absurd (.inr ⟨rfl, rfl⟩) hfits
    | error found =>
      rw [convert.eq_def] at hconvert
      split at hconvert
      · cases hconvert
      · split at hconvert <;> cases hconvert
        rfl

theorem Becomes.fits {v u : Value} {t : ValueType} (h : v.Becomes t u) : v.Fits t := by
  cases h with
  | same => exact .inl rfl
  | widened n => exact .inr ⟨rfl, rfl⟩

end Value

namespace Assembly

open Script World

theorem RepeatsLast.not_fresh {before : List Assignment} {b a : Assignment}
    (h : RepeatsLast before b a) : ¬∀ c ∈ before, c.parameter.name ≠ a.parameter.name := by
  obtain ⟨early, between, rfl, hname, -⟩ := h
  exact fun hfresh => hfresh b (by simp) hname

namespace Signature

variable {g : Signature} {a : Assignment} {before later : List Assignment}

/-! ## One assignment -/

/-- The assignment names the entry of the schema at the index, the first one with the name. -/
def Names (g : Signature) (a : Assignment) (index : Nat) (spec : ParamSpec) : Prop :=
  paramIndex? g.params a.parameter.name = some index ∧ g.params[index]? = some spec

theorem names_iff_find? {index : Nat} {spec : ParamSpec} : g.Names a index spec ↔
    g.params.zipIdx.find? (·.1.name = a.parameter.name) = some (spec, index) := by
  rw [Names, paramIndex?, List.findIdx?_eq_fst_find?_zipIdx]
  constructor
  · rintro ⟨hindex, hspec⟩
    obtain ⟨⟨found, i⟩, hfind, rfl⟩ := Option.map_eq_some_iff.mp hindex
    have hfound := List.mk_mem_zipIdx_iff_getElem?.mp (List.mem_of_find?_eq_some hfind)
    rw [hspec] at hfound
    cases hfound
    exact hfind
  · intro hfind
    exact ⟨congrArg (Option.map Prod.snd) hfind,
      List.mk_mem_zipIdx_iff_getElem?.mp (List.mem_of_find?_eq_some hfind)⟩

theorem Names.unique {i j : Nat} {spec other : ParamSpec} (h : g.Names a i spec)
    (hother : g.Names a j other) : i = j ∧ spec = other := by
  have hfind := names_iff_find?.mp h
  rw [names_iff_find?.mp hother] at hfind
  cases hfind
  exact ⟨rfl, rfl⟩

theorem Names.name {i : Nat} {spec : ParamSpec} (h : g.Names a i spec) :
    spec.name = a.parameter.name := by
  simpa using List.find?_some (names_iff_find?.mp h)

/-- What is wrong with an assignment that comes after others. -/
inductive Offence (g : Signature) (before : List Assignment) (a : Assignment) : Diagnostic → Prop
  | unknown (nameless : ∀ spec ∈ g.params, spec.name ≠ a.parameter.name) :
    Offence g before a (g.unknown a)
  | repeated {b : Assignment} (known : ∃ spec ∈ g.params, spec.name = a.parameter.name)
    (repeats : RepeatsLast before b a) : Offence g before a (g.repeated a b)
  | mismatched {index : Nat} {spec : ParamSpec} (names : g.Names a index spec)
    (fresh : ∀ b ∈ before, b.parameter.name ≠ a.parameter.name)
    (misfit : ¬a.literal.value.Fits spec.type) :
    Offence g before a (g.mismatched a spec.type a.literal.value.type)

/-- Nothing is wrong with the assignment, which gives a value to an entry. -/
structure Assigns (g : Signature) (before : List Assignment) (a : Assignment) (index : Nat)
    (v : Value) (spec : ParamSpec) : Prop where
  names : g.Names a index spec
  fresh : ∀ b ∈ before, b.parameter.name ≠ a.parameter.name
  becomes : a.literal.value.Becomes spec.type v

theorem fresh_iff_find? : (∀ b ∈ before, b.parameter.name ≠ a.parameter.name) ↔
    before.reverse.find? (·.parameter.name = a.parameter.name) = none := by
  simp only [List.find?_eq_none, List.mem_reverse, decide_eq_true_eq, ne_eq]

theorem Offence.check {d : Diagnostic} (h : g.Offence before a d) :
    g.check before.reverse a = .error d := by
  rw [Signature.check]
  cases h with
  | unknown nameless =>
    have hfind : g.params.zipIdx.find? (·.1.name = a.parameter.name) = none := by
      rw [Option.eq_none_iff_forall_ne_some]
      rintro ⟨spec, index⟩ hsome
      obtain ⟨found, hmem, hname⟩ := exists_spec_iff.mp ⟨spec, index, hsome⟩
      exact nameless found hmem hname
    simp only [hfind]
  | repeated known repeats =>
    obtain ⟨spec, index, hfind⟩ := exists_spec_iff.mpr known
    simp only [hfind, find?_reverse_eq_some.mpr repeats]
  | mismatched names fresh misfit =>
    have hconvert := Value.convert_eq_error_iff.mpr ⟨misfit, rfl⟩
    simp only [names_iff_find?.mp names, fresh_iff_find?.mp fresh, hconvert]

theorem Assigns.check {index : Nat} {v : Value} {spec : ParamSpec}
    (h : g.Assigns before a index v spec) : g.check before.reverse a = .ok (index, v) := by
  have hconvert := Value.convert_eq_ok_iff.mpr h.becomes
  simp only [Signature.check, names_iff_find?.mp h.names, fresh_iff_find?.mp h.fresh, hconvert]

/-- An assignment is at fault in one of the three ways, or it gives a value. -/
theorem offence_or_assigns (g : Signature) (before : List Assignment) (a : Assignment) :
    (∃ d, g.Offence before a d) ∨ ∃ index v spec, g.Assigns before a index v spec := by
  by_cases hknown : ∃ spec ∈ g.params, spec.name = a.parameter.name
  · cases hearlier : before.reverse.find? (·.parameter.name = a.parameter.name) with
    | some b => exact .inl ⟨_, .repeated hknown (find?_reverse_eq_some.mp hearlier)⟩
    | none =>
      have hfresh := fresh_iff_find?.mpr hearlier
      obtain ⟨spec, index, hfind⟩ := exists_spec_iff.mpr hknown
      have hnames := names_iff_find?.mpr hfind
      cases hconvert : a.literal.value.convert spec.type with
      | error found =>
        obtain ⟨hmisfit, rfl⟩ := Value.convert_eq_error_iff.mp hconvert
        exact .inl ⟨_, .mismatched hnames hfresh hmisfit⟩
      | ok v => exact .inr ⟨index, v, spec, hnames, hfresh, Value.convert_eq_ok_iff.mp hconvert⟩
  · exact .inl ⟨_, .unknown fun spec hspec hname => hknown ⟨spec, hspec, hname⟩⟩

/-! ## All assignments -/

/-- One diagnostic for each of the later assignments that is at fault, in their order. -/
inductive Reported (g : Signature) : List Assignment → List Assignment → List Diagnostic → Prop
  | nil (before : List Assignment) : Reported g before [] []
  | fine {before later : List Assignment} {a : Assignment} {ds : List Diagnostic}
    (faultless : ∀ d, ¬g.Offence before a d) (rest : Reported g (before ++ [a]) later ds) :
    Reported g before (a :: later) ds
  | offending {before later : List Assignment} {a : Assignment} {d : Diagnostic}
    {ds : List Diagnostic} (offence : g.Offence before a d)
    (rest : Reported g (before ++ [a]) later ds) : Reported g before (a :: later) (d :: ds)

/-- Nothing is wrong with the assignments. -/
structure Admits (g : Signature) (assignments : List Assignment) : Prop where
  known : ∀ a ∈ assignments, ∃ spec ∈ g.params, spec.name = a.parameter.name
  once : (assignments.map (·.parameter.name)).Nodup
  typed : ∀ a ∈ assignments, ∀ index spec, g.Names a index spec →
    a.literal.value.Fits spec.type

/-- Every entry has the value that an assignment gives it, or else its default. -/
structure Gives (g : Signature) (assignments : List Assignment) (values : List Value) : Prop where
  length : values.length = g.params.length
  assigned : ∀ a ∈ assignments, ∀ index spec, g.Names a index spec →
    ∃ v, a.literal.value.Becomes spec.type v ∧ values[index]? = some v
  default : ∀ index spec, g.params[index]? = some spec →
    (∀ a ∈ assignments, ¬g.Names a index spec) → values[index]? = some spec.default

/-- What is wrong with assignments that come after others, the latest of these first. -/
def problems (g : Signature) (earlier later : List Assignment) : List Diagnostic :=
  (g.checkAll earlier later).filterMap fun
    | .error d => some d
    | .ok _ => none

/-- Stores what the check of an assignment has given. -/
def store (values : List Value) (result : Except Diagnostic (Nat × Value)) : List Value :=
  match result with
  | .ok (index, value) => values.set index value
  | .error _ => values

theorem values_eq (g : Signature) (assignments : List Assignment) : g.values assignments =
    if (g.problems [] assignments).isEmpty then
      .ok ((g.checkAll [] assignments).foldl store (defaults g.params))
    else .error (g.problems [] assignments) := rfl

theorem problems_of_offence {d : Diagnostic} (h : g.Offence before a d) :
    g.problems before.reverse (a :: later) = d :: g.problems (before ++ [a]).reverse later := by
  simp [problems, checkAll, h.check]

theorem problems_of_assigns {index : Nat} {v : Value} {spec : ParamSpec}
    (h : g.Assigns before a index v spec) :
    g.problems before.reverse (a :: later) = g.problems (before ++ [a]).reverse later := by
  simp [problems, checkAll, h.check]

/-- The problems are what has to be reported. -/
theorem reported_iff {ds : List Diagnostic} :
    g.Reported before later ds ↔ ds = g.problems before.reverse later := by
  constructor
  · intro h
    induction h with
    | nil => rfl
    | @fine before later a ds faultless rest ih =>
      obtain ⟨d, hoffence⟩ | ⟨index, v, spec, hassigns⟩ := offence_or_assigns g before a
      · exact absurd hoffence (faultless d)
      · rw [problems_of_assigns hassigns, ih]
    | offending offence rest ih => rw [problems_of_offence offence, ih]
  · rintro rfl
    induction later generalizing before with
    | nil => exact .nil before
    | cons a later ih =>
      obtain ⟨d, hoffence⟩ | ⟨index, v, spec, hassigns⟩ := offence_or_assigns g before a
      · rw [problems_of_offence hoffence]
        exact .offending hoffence ih
      · rw [problems_of_assigns hassigns]
        refine .fine (fun d hoffence => ?_) ih
        have hcheck := hassigns.check
        rw [hoffence.check] at hcheck
        cases hcheck

/-- There are no problems exactly if every assignment gives a value. -/
theorem problems_eq_nil_iff {assignments : List Assignment} : g.problems [] assignments = [] ↔
    ∀ front a back, assignments = front ++ a :: back →
      ∃ index v spec, g.Assigns front a index v spec := by
  rw [problems, List.filterMap_eq_nil_iff]
  constructor
  · rintro h front a back rfl
    refine (offence_or_assigns g front a).resolve_left fun ⟨d, hoffence⟩ => ?_
    have hmem : .error d ∈ g.checkAll [] (front ++ a :: back) :=
      mem_checkAll.mpr ⟨front, a, back, rfl, by rw [List.append_nil, hoffence.check]⟩
    cases h _ hmem
  · intro h r hr
    obtain ⟨front, a, back, rfl, rfl⟩ := mem_checkAll.mp hr
    obtain ⟨index, v, spec, hassigns⟩ := h front a back rfl
    rw [List.append_nil, hassigns.check]

theorem problems_eq_nil_iff_admits {assignments : List Assignment} :
    g.problems [] assignments = [] ↔ g.Admits assignments := by
  rw [problems_eq_nil_iff]
  constructor
  · intro h
    refine ⟨fun a ha => ?_, ?_, fun a ha i other hother => ?_⟩
    · obtain ⟨front, back, hsplit⟩ := List.append_of_mem ha
      obtain ⟨index, v, spec, hassigns⟩ := h front a back hsplit
      exact ⟨spec, List.mem_of_getElem? hassigns.names.2, hassigns.names.name⟩
    · refine List.pairwise_map.mpr (List.pairwise_iff_getElem.mpr fun i j hi hj hij => ?_)
      obtain ⟨index, v, spec, hassigns⟩ := h (assignments.take j) assignments[j]
        (assignments.drop (j + 1)) (by simp)
      exact hassigns.fresh _ (List.mem_take_iff_getElem.mpr ⟨i, by omega, rfl⟩)
    · obtain ⟨front, back, hsplit⟩ := List.append_of_mem ha
      obtain ⟨index, v, spec, hassigns⟩ := h front a back hsplit
      rw [← (hassigns.names.unique hother).2]
      exact hassigns.becomes.fits
  · rintro ⟨hknown, honce, htyped⟩ front a back rfl
    have ha : a ∈ front ++ a :: back := by simp
    refine (offence_or_assigns g front a).resolve_left ?_
    rintro ⟨d, hnameless | ⟨-, hrepeats⟩ | ⟨hnames, -, hmisfit⟩⟩
    · obtain ⟨spec, hspec, hname⟩ := hknown a ha
      exact hnameless spec hspec hname
    · rw [List.map_append, List.nodup_append] at honce
      refine hrepeats.not_fresh fun b hb => ?_
      exact honce.2.2 _ (List.mem_map_of_mem hb) _ (List.mem_map_of_mem List.mem_cons_self)
    · exact hmisfit (htyped a ha _ _ hnames)

/-! ## Values -/

theorem gives_defaults (g : Signature) : g.Gives [] (defaults g.params) := by
  refine ⟨by simp [defaults], nofun, fun index spec hspec _ => ?_⟩
  rw [defaults, List.getElem?_map, hspec, Option.map_some]

/-- Storing what one more assignment gives. -/
theorem Gives.set {values : List Value} {index : Nat} {v : Value} {spec : ParamSpec}
    (h : g.Gives before values) (hassigns : g.Assigns before a index v spec) :
    g.Gives (before ++ [a]) (values.set index v) := by
  refine ⟨by rw [List.length_set, h.length], fun b hb i other hother => ?_,
    fun i other hother hnone => ?_⟩
  · obtain hb | hb := List.mem_append.mp hb
    · -- An earlier assignment names another entry.
      have hne : index ≠ i := by
        rintro rfl
        have hspec := hassigns.names.2
        rw [hother.2] at hspec
        cases hspec
        exact hassigns.fresh b hb (hother.name.symm.trans hassigns.names.name)
      rw [List.getElem?_set_ne hne]
      exact h.assigned b hb i other hother
    · rw [List.mem_singleton.mp hb] at hother ⊢
      obtain ⟨rfl, rfl⟩ := hassigns.names.unique hother
      obtain ⟨hlt, -⟩ := List.getElem?_eq_some_iff.mp hassigns.names.2
      exact ⟨v, hassigns.becomes, List.getElem?_set_self (h.length ▸ hlt)⟩
  · have hne : index ≠ i := by
      rintro rfl
      have hspec := hassigns.names.2
      rw [hother] at hspec
      cases hspec
      exact hnone a (by simp) hassigns.names
    rw [List.getElem?_set_ne hne]
    exact h.default i other hother fun b hb => hnone b (List.mem_append_left _ hb)

theorem Gives.foldl {values : List Value} (h : g.Gives before values)
    (hall : ∀ front a back, later = front ++ a :: back →
      ∃ index v spec, g.Assigns (before ++ front) a index v spec) :
    g.Gives (before ++ later) ((g.checkAll before.reverse later).foldl store values) := by
  induction later generalizing before values with
  | nil => rwa [List.append_nil]
  | cons a later ih =>
    obtain ⟨index, v, spec, hassigns⟩ := hall [] a later rfl
    rw [List.append_nil] at hassigns
    have hrest := ih (h.set hassigns) fun front b back hsplit => by
      simpa using hall (a :: front) b back (by rw [hsplit, List.cons_append])
    rw [List.append_assoc, List.singleton_append, List.reverse_append] at hrest
    rwa [checkAll, List.foldl_cons, hassigns.check]

end Signature

/-- What the arguments of a statement are checked against, for a type. -/
def signature? (s : Statement) : Member → Option Signature
  | .nodeType t => some ⟨t.name, t.params, s.line⟩
  | .scopeType t => some ⟨t.name, t.params, s.line⟩
  | .node _ | .scope _ => none

variable {w : World} {scope destination container : ScopeId} {s : Statement} {type : Member}

theorem make_problems {g : Signature} {problems : List Diagnostic}
    (hg : signature? s type = some g) (h : g.values s.assignments = .error problems) :
    make w destination container s type = (w, .error problems) := by
  cases type with
  | nodeType t =>
    cases hg
    simp only [make, h]
  | scopeType t =>
    cases hg
    simp only [make, h]
  | node id => cases hg
  | scope id => cases hg

/-- A statement whose assignments are at fault makes nothing. -/
theorem makeStep_problems {a : Assembly} {g : Signature} {problems : List Diagnostic}
    (hs : s.instantiates = true)
    (hsource : a.world.resolve scope s.source.names = some ⟨type, container⟩)
    (htarget : a.world.resolveScope scope s.target.leading = some destination)
    (hfree : ∀ t, a.world.scope? destination = some t →
      t.members.contains s.target.last.name = false)
    (hg : signature? s type = some g) (h : g.values s.assignments = .error problems) :
    makeStep scope a s = a.report problems := by
  have hnot : ¬((a.world.scope? destination).any fun d =>
      d.members.contains s.target.last.name) = true := by
    cases ht : a.world.scope? destination with
    | none => exact Bool.false_ne_true
    | some t => simp [hfree t ht]
  simp only [makeStep, if_pos hs, instantiate, hsource, htarget, if_neg hnot,
    make_problems hg h, report]

/-- The check of parameters is exact, for every schema and all assignments. There are values exactly
if every assignment names a parameter, none is named twice, and every literal fits; the values are
then those assigned, and the defaults of the others. Otherwise every assignment at fault is reported
once, in their order, and the statement makes nothing. -/
theorem Signature.values_exact (g : Signature) (assignments : List Assignment) :
    ((∃ values, g.values assignments = .ok values) ↔ g.Admits assignments) ∧
      (∀ values, g.values assignments = .ok values → g.Gives assignments values) ∧
      (∀ problems, g.values assignments = .error problems ↔
        problems ≠ [] ∧ g.Reported [] assignments problems) ∧
      ∀ (a : Assembly) (scope destination container : ScopeId) (s : Statement) (type : Member)
        (problems : List Diagnostic), s.instantiates = true → s.assignments = assignments →
        a.world.resolve scope s.source.names = some ⟨type, container⟩ →
        signature? s type = some g →
        a.world.resolveScope scope s.target.leading = some destination →
        (∀ t, a.world.scope? destination = some t →
          t.members.contains s.target.last.name = false) →
        g.values assignments = .error problems →
        makeStep scope a s = a.report problems := by
  refine ⟨?_, fun values hvalues => ?_, fun ds => ?_, ?_⟩
  · rw [← problems_eq_nil_iff_admits, values_eq]
    cases g.problems [] assignments <;> simp
  · rw [values_eq] at hvalues
    split at hvalues
    · rename_i hempty
      cases hvalues
      exact (gives_defaults g).foldl (problems_eq_nil_iff.mp (List.isEmpty_iff.mp hempty))
    · cases hvalues
  · rw [values_eq, reported_iff, List.reverse_nil]
    cases hproblems : g.problems [] assignments with
    | nil => simp
    | cons d ds =>
      simp only [List.isEmpty_cons, Bool.false_eq_true, if_false, Except.error.injEq]
      exact ⟨fun heq => ⟨heq ▸ List.cons_ne_nil _ _, heq.symm⟩, fun h => h.2.symm⟩
  · rintro a scope destination container s type problems hs rfl hsource hg htarget hfree hvalues
    exact makeStep_problems hs hsource htarget hfree hg hvalues

/-- A type of nodes with a number and a factor. -/
def noise : NodeType :=
  { name := "noise", params := [⟨"seed", .integer 1⟩, ⟨"scale", .real (Decimal.ofInt 1)⟩] }

/-- A world in which the root knows the type. -/
def noisy : World := (World.new #[]).define .root "noise" (.nodeType noise) |>.1

/-- A parameter set to a value, at an offset. -/
def setting (start : Nat) (name : String) (value : Value) : Assignment :=
  ⟨⟨name, ⟨start, start + 1⟩⟩, ⟨value, ⟨start + 2, start + 3⟩⟩⟩

/-- A text for the number, a parameter that there is not, and the factor twice. -/
def faulty : List Assignment :=
  [setting 10 "seed" (.string "x"), setting 20 "bogus" (.integer 1),
    setting 30 "scale" (.integer 2), setting 40 "scale" (.integer 3)]

/-- Makes a node with the four assignments. -/
def faultyNode : Statement :=
  ⟨⟨⟨"n", ⟨0, 1⟩⟩, []⟩, ⟨⟨"noise", ⟨4, 9⟩⟩, []⟩, some faulty, 50, 1⟩

theorem values_exact_faulty :
    let g : Signature := ⟨"noise", noise.params, 1⟩
    let problems := [g.mismatched (setting 10 "seed" (.string "x")) .integer .string,
      g.unknown (setting 20 "bogus" (.integer 1)),
      g.repeated (setting 40 "scale" (.integer 3)) (setting 30 "scale" (.integer 2))]
    faultyNode.instantiates = true ∧ g.values faulty = .error problems ∧
      g.Reported [] faulty problems ∧
      makeStep .root (start noisy) faultyNode = (start noisy).report problems := by
  intro g problems
  obtain ⟨-, -, hreported, hmakes⟩ := Signature.values_exact g faulty
  have hvalues : g.values faulty = .error problems := by decide +kernel
  refine ⟨rfl, hvalues, ((hreported problems).mp hvalues).2, ?_⟩
  exact hmakes (start noisy) .root .root .root faultyNode (.nodeType noise) problems rfl rfl rfl rfl
    rfl (by rintro t ⟨⟩; rfl) hvalues

end Assembly

end FrameGraph
