import FrameGraph.Proofs.Assembly.Account
import FrameGraph.Script.Parse

/-!
# Repeated parameters

An assignment to a parameter that an earlier one has set is reported together with the last such
one. It stands under the words for the first, and it is the first where a parameter is set twice;
from the third assignment on it is the one before.
-/
namespace FrameGraph.Assembly

open Script World

/-! ## The assignments of a statement -/

/-- Of the assignments before `a`, `b` is the last to the same parameter. -/
def RepeatsLast (before : List Assignment) (b a : Assignment) : Prop :=
  ∃ early between, before = early ++ b :: between ∧ b.parameter.name = a.parameter.name ∧
    ∀ c ∈ between, c.parameter.name ≠ a.parameter.name

/-- Of the assignments before `a`, `b` is the first to the same parameter. -/
def RepeatsFirst (before : List Assignment) (b a : Assignment) : Prop :=
  ∃ early between, before = early ++ b :: between ∧ b.parameter.name = a.parameter.name ∧
    ∀ c ∈ early, c.parameter.name ≠ a.parameter.name

theorem find?_reverse_eq_some {before : List Assignment} {b a : Assignment} :
    before.reverse.find? (·.parameter.name = a.parameter.name) = some b ↔
      RepeatsLast before b a := by
  rw [List.find?_eq_some_iff_append]
  constructor
  · rintro ⟨hname, between, early, hbefore, hnone⟩
    refine ⟨early.reverse, between.reverse, ?_, by simpa using hname, fun c hc => ?_⟩
    · rw [← before.reverse_reverse, hbefore]
      simp
    · simpa using hnone c (List.mem_reverse.mp hc)
  · rintro ⟨early, between, rfl, hname, hnone⟩
    refine ⟨by simpa using hname, between.reverse, early.reverse, by simp, fun c hc => ?_⟩
    simpa using hnone c (List.mem_reverse.mp hc)

/-- The last assignment to a parameter is the first one if it is the only one. -/
theorem RepeatsLast.first {before : List Assignment} {b a : Assignment}
    (h : RepeatsLast before b a)
    (hone : before.countP (·.parameter.name = a.parameter.name) = 1) :
    RepeatsFirst before b a := by
  obtain ⟨early, between, rfl, hname, -⟩ := h
  refine ⟨early, between, rfl, hname, fun c hc heq => ?_⟩
  have hearly : 0 < early.countP (·.parameter.name = a.parameter.name) :=
    List.countP_pos_iff.mpr ⟨c, hc, by simpa using heq⟩
  have hb : 0 < (b :: between).countP (·.parameter.name = a.parameter.name) :=
    List.countP_pos_iff.mpr ⟨b, List.mem_cons_self, by simpa using hname⟩
  rw [List.countP_append] at hone
  omega

theorem Signature.exists_spec_iff {g : Signature} {name : String} :
    (∃ spec index, g.params.zipIdx.find? (·.1.name = name) = some (spec, index)) ↔
      ∃ spec ∈ g.params, spec.name = name := by
  constructor
  · rintro ⟨spec, index, hfind⟩
    have hthere := List.mk_mem_zipIdx_iff_getElem?.mp (List.mem_of_find?_eq_some hfind)
    exact ⟨spec, List.mem_of_getElem? hthere, by simpa using List.find?_some hfind⟩
  · rintro ⟨spec, hmem, hname⟩
    obtain ⟨index, hthere⟩ := List.getElem?_of_mem hmem
    have hsome : (g.params.zipIdx.find? (·.1.name = name)).isSome = true :=
      List.find?_isSome.mpr
        ⟨(spec, index), List.mk_mem_zipIdx_iff_getElem?.mpr hthere, by simpa using hname⟩
    obtain ⟨⟨found, i⟩, hfound⟩ := Option.isSome_iff_exists.mp hsome
    exact ⟨found, i, hfound⟩

/-- Of the problems with an assignment, only this one has the code. -/
theorem Signature.check_repeated_iff {g : Signature} {earlier : List Assignment} {a : Assignment}
    {d : Diagnostic} :
    (g.check earlier a = .error d ∧ d.code = some Code.duplicateParameter) ↔
      (∃ spec ∈ g.params, spec.name = a.parameter.name) ∧
        ∃ b, earlier.find? (·.parameter.name = a.parameter.name) = some b ∧
          d = g.repeated a b := by
  rw [← exists_spec_iff]
  constructor
  · rintro ⟨h, hcode⟩
    rw [check] at h
    split at h
    · cases h
      simp [unknown, Diagnostic.error, Code.unknownParameter, Code.duplicateParameter] at hcode
    · rename_i spec index hspec
      split at h
      · rename_i b hearlier
        cases h
        exact ⟨⟨spec, index, hspec⟩, b, hearlier, rfl⟩
      · split at h
        · cases h
        · cases h
          simp [mismatched, Diagnostic.error, Code.typeMismatch, Code.duplicateParameter] at hcode
  · rintro ⟨⟨spec, index, hspec⟩, b, hearlier, rfl⟩
    exact ⟨by simp only [check, hspec, hearlier], rfl⟩

/-- The assignments that name a parameter after another one are those reported with the code, each
with the last one before it. -/
theorem Signature.repeated_mem_iff (g : Signature) (assignments : List Assignment)
    (d : Diagnostic) :
    (.error d ∈ g.checkAll [] assignments ∧ d.code = some Code.duplicateParameter) ↔
      ∃ before a late b, assignments = before ++ a :: late ∧ RepeatsLast before b a ∧
        (∃ spec ∈ g.params, spec.name = a.parameter.name) ∧ d = g.repeated a b := by
  constructor
  · rintro ⟨hmem, hcode⟩
    obtain ⟨before, a, late, rfl, hcheck⟩ := mem_checkAll.mp hmem
    obtain ⟨hspec, b, hfind, rfl⟩ := check_repeated_iff.mp ⟨hcheck.symm, hcode⟩
    rw [List.append_nil] at hfind
    exact ⟨before, a, late, b, rfl, find?_reverse_eq_some.mp hfind, hspec, rfl⟩
  · rintro ⟨before, a, late, b, rfl, hlast, hspec, rfl⟩
    have hfind := find?_reverse_eq_some.mpr hlast
    rw [← List.append_nil before.reverse] at hfind
    obtain ⟨hcheck, hcode⟩ := check_repeated_iff.mpr ⟨hspec, b, hfind, rfl⟩
    exact ⟨mem_checkAll.mpr ⟨before, a, late, rfl, hcheck.symm⟩, hcode⟩

/-! ## A program -/

variable {w w' : World} {scope : ScopeId} {s : Statement} {d : Diagnostic}

/-- The assignments are at fault with this code, and nothing else about making something is. -/
theorem make_repeated {destination container : ScopeId} {type : Member} {ds : List Diagnostic}
    (h : make w destination container s type = (w', .error ds)) (hd : d ∈ ds)
    (hcode : d.code = some Code.duplicateParameter) :
    ∃ typeName params,
      .error d ∈ Signature.checkAll ⟨typeName, params, s.line⟩ [] s.assignments := by
  have hone {e : Diagnostic} {code : Code} (he : d ∈ [e]) (hcode' : e.code = some code)
      (hne : code ≠ Code.duplicateParameter) : False :=
    code_ne hcode' hne (List.mem_singleton.mp he ▸ hcode)
  have hmade {e : WorldError} (he : d ∈ [notMade s e]) : False := by
    cases e <;> exact hone he rfl (by decide)
  unfold make at h
  cases type with
  | nodeType t =>
    dsimp only at h
    split at h
    · rename_i problems hvalues
      cases h
      exact ⟨t.name, t.params, (Signature.mem_of_values_error hvalues).mp hd⟩
    · split at h <;> cases h
      exact (hmade hd).elim
  | scopeType t =>
    dsimp only at h
    split at h
    · rename_i problems hvalues
      cases h
      exact ⟨t.name, t.params, (Signature.mem_of_values_error hvalues).mp hd⟩
    · split at h <;> cases h
      exact (hmade hd).elim
  | node id =>
    cases h
    exact (hone hd rfl (by decide)).elim
  | scope id =>
    cases h
    exact (hone hd rfl (by decide)).elim

theorem instantiate_repeated {definitions : Definitions} {ds : List Diagnostic}
    (h : instantiate w scope definitions s = (w', .error ds)) (hd : d ∈ ds)
    (hcode : d.code = some Code.duplicateParameter) :
    ∃ typeName params,
      .error d ∈ Signature.checkAll ⟨typeName, params, s.line⟩ [] s.assignments := by
  rw [instantiate] at h
  split at h
  · cases h
    rw [List.mem_singleton.mp hd] at hcode
    exact absurd hcode (code_ne rfl (by decide))
  · split at h
    · cases h
      rw [List.mem_singleton.mp hd] at hcode
      exact absurd hcode (code_ne rfl (by decide))
    · split at h
      · cases h
        rw [List.mem_singleton.mp hd] at hcode
        cases hfirst : definitions.lookup s.target.text <;> rw [hfirst] at hcode <;>
          exact absurd hcode (code_ne rfl (by decide))
      · exact make_repeated h hd hcode

/-- What one statement adds with this code, its assignments are reported with. -/
theorem carryOut_repeated {a : Assembly} (h : d ∈ (carryOut scope a s).diagnostics)
    (hcode : d.code = some Code.duplicateParameter) :
    d ∈ a.diagnostics ∨ s.instantiates = true ∧ ∃ typeName params,
      .error d ∈ Signature.checkAll ⟨typeName, params, s.line⟩ [] s.assignments := by
  rw [carryOut] at h
  split at h
  · rename_i hs
    rw [makeStep, if_pos hs] at h
    generalize hmade : instantiate a.world scope a.definitions s = result at h
    obtain ⟨w', ds | made⟩ := result
    · obtain h | h := List.mem_append.mp h
      · exact .inl h
      · exact .inr ⟨hs, instantiate_repeated hmade h hcode⟩
    · cases made <;> exact .inl h
  · rename_i hs
    rw [connectStep, if_neg hs] at h
    split at h
    · rename_i ds hconnect
      obtain h | h := List.mem_append.mp h
      · exact .inl h
      · exact absurd hcode (connect_error hconnect h).code
    · exact .inl h

theorem foldl_carryOut_repeated {a : Assembly} {statements : List Statement}
    (h : d ∈ (statements.foldl (carryOut scope) a).diagnostics)
    (hcode : d.code = some Code.duplicateParameter) :
    d ∈ a.diagnostics ∨ ∃ s ∈ statements, s.instantiates = true ∧ ∃ typeName params,
      .error d ∈ Signature.checkAll ⟨typeName, params, s.line⟩ [] s.assignments := by
  induction statements generalizing a with
  | nil => exact .inl h
  | cons s rest ih =>
    obtain hfirst | ⟨t, ht, hreported⟩ := ih h
    · obtain hold | hnew := carryOut_repeated hfirst hcode
      · exact .inl hold
      · exact .inr ⟨s, List.mem_cons_self, hnew⟩
    · exact .inr ⟨t, List.mem_cons_of_mem s ht, hreported⟩

/-- Whatever the world and the program, a diagnostic of a repeated parameter is about an assignment
of a statement that makes something. It has one further place, called the first assignment: the last
assignment before it to the same parameter, which is the first one if it is the only one. -/
theorem apply_repeated (w : World) (scope : ScopeId) (p : Program) (d : Diagnostic)
    (h : d ∈ (apply w scope p).diagnostics) (hcode : d.code = some Code.duplicateParameter) :
    ∃ s ∈ p.statements, s.instantiates = true ∧ d.line = some s.line ∧
      ∃ before a late b, s.assignments = before ++ a :: late ∧ d.span = a.span ∧
        d.related = [⟨b.span, "first assigned here"⟩] ∧ RepeatsLast before b a ∧
        (before.countP (·.parameter.name = a.parameter.name) = 1 → RepeatsFirst before b a) := by
  rw [apply_eq] at h
  obtain hnone | ⟨s, hs, hmakes, typeName, params, hmem⟩ := foldl_carryOut_repeated h hcode
  · cases hnone
  · obtain ⟨before, a, late, b, hsplit, hlast, -, rfl⟩ :=
      (Signature.repeated_mem_iff _ _ _).mp ⟨hmem, hcode⟩
    have hin : s ∈ p.statements := by
      simp only [order, List.mem_append, List.mem_filter] at hs
      exact hs.elim And.left And.left
    exact ⟨s, hin, hmakes, rfl, before, a, late, b, hsplit, rfl, rfl, hlast, hlast.first⟩

/-- A world with a type of nodes that has a width. -/
def framed : World :=
  [Operation.change (.populate ⟨[{ name := "frame", params := [⟨"width", .integer 0⟩] }], [], []⟩
    .root)].foldl Operation.run (World.new #[])

/-- An assignment to the width that starts at an offset. -/
def width (start : Nat) (value : Int64) : Assignment :=
  ⟨⟨"width", ⟨start, start + 5⟩⟩, ⟨.integer value, ⟨start + 6, start + 7⟩⟩⟩

/-- A frame whose width is set three times. -/
def thrice : Program :=
  ⟨[⟨⟨⟨"w", ⟨0, 1⟩⟩, []⟩, ⟨⟨"frame", ⟨4, 9⟩⟩, []⟩,
    some [width 10 1, width 19 2, width 28 3], 36, 1⟩], ⟨0, 36⟩⟩

example : (parse "w = frame(width=1, width=2, width=3)").program = some thrice := by decide +kernel

/-- What is said of the third assignment, with the place of the second. -/
def third : Diagnostic := Signature.repeated ⟨"frame", [], 1⟩ (width 28 3) (width 19 2)

theorem apply_repeated_thrice :
    third ∈ (apply framed .root thrice).diagnostics ∧
      third.code = some Code.duplicateParameter ∧
      ∃ s ∈ thrice.statements, s.instantiates = true ∧ third.line = some s.line ∧
        ∃ before a late b, s.assignments = before ++ a :: late ∧ third.span = a.span ∧
          third.related = [⟨b.span, "first assigned here"⟩] ∧ RepeatsLast before b a ∧
          (before.countP (·.parameter.name = a.parameter.name) = 1 → RepeatsFirst before b a) := by
  have hmem : third ∈ (apply framed .root thrice).diagnostics := by decide +kernel
  exact ⟨hmem, rfl, apply_repeated framed .root thrice third hmem rfl⟩

/-- The further place need not be that of the first assignment to the parameter. -/
theorem apply_repeated_not_first :
    ¬∀ (w : World) (scope : ScopeId) (p : Program) (d : Diagnostic),
      d ∈ (apply w scope p).diagnostics → d.code = some Code.duplicateParameter →
        ∃ s ∈ p.statements, ∃ before a late b, s.assignments = before ++ a :: late ∧
          d.span = a.span ∧ d.related = [⟨b.span, "first assigned here"⟩] ∧
          RepeatsFirst before b a := by
  intro h
  have hmem : third ∈ (apply framed .root thrice).diagnostics := by decide +kernel
  obtain ⟨s, hs, before, a, late, b, hsplit, -, hrelated, early, between, rfl, -, hnone⟩ :=
    h framed .root thrice third hmem rfl
  rw [List.mem_singleton.mp hs, List.append_assoc, List.cons_append] at hsplit
  have hall : [width 10 1, width 19 2, width 28 3] = early ++ b :: (between ++ a :: late) := hsplit
  have hname : ∀ c ∈ early ++ b :: (between ++ a :: late), c.parameter.name = "width" := by
    rw [← hall]
    decide
  cases early with
  | nil =>
    obtain ⟨rfl, -⟩ := List.cons.inj hall
    revert hrelated
    decide
  | cons c early =>
    have hsame : c.parameter.name = a.parameter.name := by
      rw [hname c (by simp), hname a (by simp)]
    exact hnone c List.mem_cons_self hsame

end FrameGraph.Assembly
