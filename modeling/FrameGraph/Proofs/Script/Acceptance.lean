import FrameGraph.Proofs.Script.Division
import FrameGraph.Script.Parse
import Mathlib.Data.Set.Subsingleton

/-!
# Acceptance

A script is read without errors exactly if it lexes and the grammar derives its tokens, and then
the program holds the derived statements. Reading region by region is therefore no restriction:
dividing first and reading later accepts what the grammar accepts and groups it in the same way.
-/
namespace FrameGraph.Script

theorem collect_of_ok (lines : LineIndex) (stop : Nat) (ss : List Statement) :
    collect lines stop (ss.map .ok) = ⟨some ⟨ss, ⟨0, stop⟩⟩, []⟩ := by
  simp [collect, List.filterMap_map]

theorem collect_of_error {lines : LineIndex} {stop : Nat}
    {results : List (Except Diagnostic Statement)} {d : Diagnostic} (h : .error d ∈ results) :
    (collect lines stop results).errors ≠ [] := by
  intro he
  simp only [collect] at he
  split at he
  · have hd := List.filterMap_eq_nil_iff.mp he _ h
    cases hd
  · simp at he

theorem eq_map_ok_of_no_error {results : List (Except Diagnostic Statement)}
    (h : ∀ d, .error d ∉ results) : ∃ ss : List Statement, results = ss.map .ok := by
  induction results with
  | nil => exact ⟨[], rfl⟩
  | cons r results ih =>
    cases r with
    | error d => exact absurd List.mem_cons_self (h d)
    | ok s =>
      obtain ⟨ss, rfl⟩ := ih fun d hd => h d (List.mem_cons_of_mem _ hd)
      exact ⟨s :: ss, rfl⟩

theorem eq_map_ok_of_collect {lines : LineIndex} {stop : Nat}
    {results : List (Except Diagnostic Statement)}
    (h : (collect lines stop results).errors = []) : ∃ ss : List Statement, results = ss.map .ok :=
  eq_map_ok_of_no_error fun _ hd => collect_of_error hd h

theorem map_mapError_eq_ok_iff (lines : LineIndex) (results : List (List Lexeme × Nat))
    (ss : List Statement) :
    results.map (fun r => (readStatement r.1).mapError (Mismatch.diagnostic lines r.2)) =
        ss.map .ok ↔
      (results.map Prod.fst).map readStatement = ss.map .ok := by
  induction results generalizing ss with
  | nil => simp
  | cons r results ih =>
    cases ss with
    | nil => simp
    | cons s ss =>
      simp only [List.map_cons, List.cons.injEq, ih]
      cases readStatement r.1 <;> simp [Except.mapError]

theorem withStops_fst (stop : Nat) (rs : List (List Lexeme)) :
    (withStops stop rs).map Prod.fst = rs := by
  induction rs with
  | nil => rfl
  | cons r rs ih => simp [withStops, ih]

theorem readRegions_eq_ok_iff (lines : LineIndex) (stop : Nat) (ls : List Lexeme)
    (ss : List Statement) :
    readRegions lines stop ls = ss.map .ok ↔ (regions ls).map readStatement = ss.map .ok := by
  have h := map_mapError_eq_ok_iff lines (withStops stop (regions ls)) ss
  rwa [withStops_fst] at h

theorem spells_iff_readStatement (groups : List (List Lexeme)) (cs : List Clause) :
    List.Forall₂ Spells groups cs ↔
      ∃ ss : List Statement, groups.map readStatement = ss.map .ok ∧
        ss.map Statement.clause = cs := by
  induction groups generalizing cs with
  | nil =>
    cases cs with
    | nil => simp
    | cons c cs => simp
  | cons group groups ih =>
    constructor
    · rintro (_ | ⟨first, rest⟩)
      obtain ⟨s, hs, rfl⟩ := (readStatement_iff group _).mpr first
      obtain ⟨ss, hss, rfl⟩ := (ih _).mp rest
      exact ⟨s :: ss, by simp [hs, hss], rfl⟩
    · rintro ⟨ss, hss, rfl⟩
      cases ss with
      | nil => simp at hss
      | cons s ss =>
        obtain ⟨hs, hrest⟩ := List.cons.inj hss
        exact .cons ((readStatement_iff group _).mp ⟨s, hs, rfl⟩) ((ih _).mpr ⟨ss, hrest, rfl⟩)

/-- What a source is read as, if it lexes and its tokens are those of a unit. -/
theorem parse_of_derivesUnit {source : String} {ls : List Lexeme} {cs : List Clause}
    (hlex : lex source = .ok ls) (h : DerivesUnit (ls.map Lexeme.token) cs) :
    ∃ ss : List Statement, (regions ls).map readStatement = ss.map .ok ∧
      ss.map Statement.clause = cs ∧
      parse source = ⟨some ⟨ss, ⟨0, source.utf8ByteSize⟩⟩, []⟩ := by
  obtain ⟨ss, hread, hclauses⟩ :=
    (spells_iff_readStatement _ _).mp ((derivesUnit_iff_regions ls cs).mp h)
  refine ⟨ss, hread, hclauses, ?_⟩
  have hresults :=
    (readRegions_eq_ok_iff (.ofSource source) source.utf8ByteSize ls ss).mpr hread
  simp only [parse, hlex, hresults, collect_of_ok]

theorem derivesUnit_of_parse {source : String} (h : (parse source).errors = []) :
    ∃ (ls : List Lexeme) (ss : List Statement), lex source = .ok ls ∧
      DerivesUnit (ls.map Lexeme.token) (ss.map Statement.clause) ∧
      parse source = ⟨some ⟨ss, ⟨0, source.utf8ByteSize⟩⟩, []⟩ := by
  cases hlex : lex source with
  | error e => simp [parse, hlex] at h
  | ok ls =>
    simp only [parse, hlex] at h
    obtain ⟨ss, hresults⟩ := eq_map_ok_of_collect h
    have hread := (readRegions_eq_ok_iff _ _ ls ss).mp hresults
    refine ⟨ls, ss, rfl, ?_, by simp only [parse, hlex, hresults, collect_of_ok]⟩
    exact (derivesUnit_iff_regions ls _).mpr
      ((spells_iff_readStatement _ _).mpr ⟨ss, hread, rfl⟩)

theorem derivesUnit_unique {ts : List Token} {cs ds : List Clause}
    (hc : DerivesUnit ts cs) (hd : DerivesUnit ts ds) : cs = ds := by
  have htokens : (ts.map fun t => (⟨t, .point 0, 0⟩ : Lexeme)).map Lexeme.token = ts := by
    simp [Function.comp_def]
  rw [← htokens] at hc hd
  obtain ⟨ss, hss, rfl⟩ := (spells_iff_readStatement _ _).mp ((derivesUnit_iff_regions _ _).mp hc)
  obtain ⟨rs, hrs, rfl⟩ := (spells_iff_readStatement _ _).mp ((derivesUnit_iff_regions _ _).mp hd)
  have hmap := hss.symm.trans hrs
  have hinj : Function.Injective (Except.ok : Statement → Except Mismatch Statement) :=
    fun _ _ h => Except.ok.inj h
  rw [List.map_injective_iff.mpr hinj hmap]

/-- A source is read without errors exactly if it lexes to the tokens of a unit. The statements
read are then those of the unit, which is the only one with these tokens; and for all lexemes, the
regions are the statements of the unit that the undivided lexemes spell. -/
theorem parse_errors_eq_nil_iff_derivesUnit (source : String) :
    ((parse source).errors = [] ↔
      ∃ ls cs, lex source = .ok ls ∧ DerivesUnit (ls.map Lexeme.token) cs) ∧
    (∀ cs, (∃ ls, lex source = .ok ls ∧ DerivesUnit (ls.map Lexeme.token) cs) ↔
      ∃ program, parse source = ⟨some program, []⟩ ∧
        program.statements.map Statement.clause = cs) ∧
    (∀ ls cs, DerivesUnit (ls.map Lexeme.token) cs ↔ List.Forall₂ Spells (regions ls) cs) ∧
    ∀ ts, {cs | DerivesUnit ts cs}.Subsingleton := by
  refine ⟨⟨?_, ?_⟩, ?_, derivesUnit_iff_regions, fun ts _ hc _ hd => derivesUnit_unique hc hd⟩
  · intro h
    obtain ⟨ls, ss, hlex, hunit, -⟩ := derivesUnit_of_parse h
    exact ⟨ls, _, hlex, hunit⟩
  · rintro ⟨ls, cs, hlex, hunit⟩
    obtain ⟨ss, -, -, hparse⟩ := parse_of_derivesUnit hlex hunit
    rw [hparse]
  · intro cs
    constructor
    · rintro ⟨ls, hlex, hunit⟩
      obtain ⟨ss, -, hclauses, hparse⟩ := parse_of_derivesUnit hlex hunit
      exact ⟨_, hparse, hclauses⟩
    · rintro ⟨program, hparse, rfl⟩
      obtain ⟨ls, ss, hlex, hunit, hsame⟩ := derivesUnit_of_parse (by rw [hparse])
      rw [hparse] at hsame
      cases hsame
      exact ⟨ls, hlex, hunit⟩

end FrameGraph.Script
