import FrameGraph.Proofs.Script.Extents
import FrameGraph.Proofs.Script.Viability

/-!
# Reports

Every region of a script is accounted for, by the statement that it spells or by one diagnostic, and
both come in the order of the source. The diagnostics are all reported as long as there are not too
many of them; then the first ones are, and one that counts them. Whatever is reported names the line
on which its place starts.
-/
namespace FrameGraph

/-- The diagnostic's place starts between two characters of the source, and its line is one more
than the line feeds before it. -/
def Diagnostic.OnLineOf (d : Diagnostic) (source : String) : Prop :=
  ∃ before behind, source.toList = before ++ behind ∧ d.span.start = Text.byteLength before ∧
    d.line = some (before.count '\n' + 1)

namespace Script

open Text

/-! ## The cut of the lexemes -/

theorem nil_notMem_divide (depth : Nat) (afterDot : Bool) (ls : List Lexeme) :
    [] ∉ (divide depth afterDot ls).2 := by
  fun_induction divide depth afterDot ls <;> simp_all

/-- No region is empty. -/
theorem nil_notMem_regions (ls : List Lexeme) : [] ∉ regions ls := by
  have h := nil_notMem_divide 0 false ls
  unfold regions
  split <;> simp_all

/-! ## One region -/

/-- What accounts for a region that stops at an offset: the statement that it spells, made of its
lexemes, or one diagnostic, at one of them or at the stop, if it spells none. -/
inductive Accounts (lines : LineIndex) (region : List Lexeme) (stop : Nat) :
    Except Diagnostic Statement → Prop where
  | statement {s : Statement} (spelled : Spells region s.clause) (made : s.MadeOf region) :
      Accounts lines region stop (.ok s)
  | failure {span : Span} {message : String} (unspelled : ∀ c, ¬Spells region c)
      (place : span ∈ region.map Lexeme.span ∨ span = .point stop) :
      Accounts lines region stop
        (.error (.error Code.unexpectedToken span (lines.line span.start) message))

/-- What a region with its stop is read as. -/
def readRegion (lines : LineIndex) (r : List Lexeme × Nat) : Except Diagnostic Statement :=
  (readStatement r.1).mapError (Mismatch.diagnostic lines r.2)

theorem readRegions_eq_map (lines : LineIndex) (stop : Nat) (ls : List Lexeme) :
    readRegions lines stop ls = (withStops stop (regions ls)).map (readRegion lines) := rfl

theorem readRegion_accounts (lines : LineIndex) (r : List Lexeme × Nat) :
    Accounts lines r.1 r.2 (readRegion lines r) := by
  obtain ⟨region, stop⟩ := r
  have hfinishes := readStatement_finishes region
  cases hread : readStatement region with
  | ok s =>
    simp only [readRegion, hread, Except.mapError]
    exact .statement ((readStatement_iff region _).mp ⟨s, hread, rfl⟩) (readStatement_madeOf hread)
  | error m =>
    rw [hread] at hfinishes
    obtain ⟨pre, rest, q, rfl, -, rfl, -⟩ := Point.mismatch?_eq_some hfinishes
    simp only [readRegion, hread, Except.mapError]
    refine .failure (fun c hc => ?_) ?_
    · obtain ⟨s, hs, -⟩ := (readStatement_iff _ _).mpr hc
      rw [hread] at hs
      cases hs
    · cases rest <;> simp

theorem madeOf_of_statement? {region : List Lexeme} {s : Statement}
    (h : statement? region = some s) : s.MadeOf region := by
  cases hread : readStatement region with
  | error m => simp [statement?, hread, Except.toOption] at h
  | ok t =>
    obtain rfl : t = s := by simpa [statement?, hread, Except.toOption] using h
    exact readStatement_madeOf hread

/-! ## The order of the regions -/

/-- Where something in a region can be told of: the starts of its lexemes, and its stop. -/
def places (r : List Lexeme × Nat) : List Nat := r.1.map (·.span.start) ++ [r.2]

theorem Accounts.start_mem {lines : LineIndex} {r : List Lexeme × Nat} {d : Diagnostic}
    (h : Accounts lines r.1 r.2 (.error d)) : d.span.start ∈ places r := by
  cases h with
  | failure unspelled place =>
    rcases place with hlexeme | rfl
    · obtain ⟨l, hl, rfl⟩ := List.mem_map.mp hlexeme
      exact List.mem_append_left _ (List.mem_map_of_mem hl)
    · exact List.mem_append_right _ (List.mem_singleton.mpr rfl)

/-- The places in regions are starts of their lexemes and the end of the source. -/
theorem mem_places {stop : Nat} {rs : List (List Lexeme)} {r : List Lexeme × Nat}
    (h : r ∈ withStops stop rs) {place : Nat} (hplace : place ∈ places r) :
    place = stop ∨ ∃ l ∈ rs.flatten, place = l.span.start := by
  induction rs with
  | nil => cases h
  | cons region later ih =>
    rcases List.mem_cons.mp h with rfl | hlater
    · rcases List.mem_append.mp hplace with hstart | hstop
      · obtain ⟨l, hl, rfl⟩ := List.mem_map.mp hstart
        exact .inr ⟨l, by simp [hl], rfl⟩
      · rw [List.mem_singleton.mp hstop]
        dsimp only
        split
        · exact .inr ⟨_, by simp, rfl⟩
        · exact .inl rfl
    · rcases ih hlater with rfl | ⟨l, hl, rfl⟩
      · exact .inl rfl
      · exact .inr ⟨l, by simp [hl], rfl⟩

/-- The places in a region are not behind those in a later one. -/
theorem withStops_ordered {stop : Nat} {rs : List (List Lexeme)} (hrs : [] ∉ rs)
    (sorted : rs.flatten.Pairwise fun a b => a.span.start ≤ b.span.start)
    (bounded : ∀ l ∈ rs.flatten, l.span.start ≤ stop) :
    (withStops stop rs).Pairwise fun a b => ∀ x ∈ places a, ∀ y ∈ places b, x ≤ y := by
  induction rs with
  | nil => exact .nil
  | cons region later ih =>
    rw [List.mem_cons, not_or] at hrs
    rw [List.flatten_cons] at sorted bounded
    obtain ⟨-, hsorted, hbefore⟩ := List.pairwise_append.mp sorted
    have hbounded : ∀ l ∈ later.flatten, l.span.start ≤ stop := fun l hl =>
      bounded l (List.mem_append_right region hl)
    refine List.pairwise_cons.mpr ⟨fun r hr x hx y hy => ?_, ih hrs.2 hsorted hbounded⟩
    -- a later region has a first lexeme, at which this one stops
    obtain ⟨l, group, rest, rfl⟩ : ∃ l group rest, later = (l :: group) :: rest := by
      cases later with
      | nil => cases hr
      | cons next rest =>
        cases next with
        | nil => exact absurd List.mem_cons_self hrs.2
        | cons l group => exact ⟨l, group, rest, rfl⟩
    have hfirst : l.span.start ≤ y := by
      rcases mem_places hr hy with rfl | ⟨k, hk, rfl⟩
      · exact hbounded l (by simp)
      · rw [List.flatten_cons, List.cons_append] at hk hsorted
        rcases List.mem_cons.mp hk with rfl | hmem
        · exact Nat.le_refl _
        · exact (List.pairwise_cons.mp hsorted).1 k hmem
    refine Nat.le_trans ?_ hfirst
    rcases List.mem_append.mp hx with hstart | hstop
    · obtain ⟨k, hk, rfl⟩ := List.mem_map.mp hstart
      exact hbefore k hk l (by simp)
    · rw [List.mem_singleton.mp hstop]

/-! ## All regions -/

/-- The statements among the results. -/
def statements (results : List (Except Diagnostic Statement)) : List Statement :=
  results.filterMap Except.toOption

/-- The diagnostic of a result. -/
def failure? : Except Diagnostic Statement → Option Diagnostic
  | .error d => some d
  | .ok _ => none

/-- The diagnostics among the results. -/
def failures (results : List (Except Diagnostic Statement)) : List Diagnostic :=
  results.filterMap failure?

theorem start_mem_of_failure? {lines : LineIndex} {r : List Lexeme × Nat} {d : Diagnostic}
    (h : failure? (readRegion lines r) = some d) : d.span.start ∈ places r := by
  have haccounts := readRegion_accounts lines r
  cases hread : readRegion lines r with
  | ok s => simp [hread, failure?] at h
  | error e =>
    obtain rfl : e = d := by simpa [hread, failure?] using h
    rw [hread] at haccounts
    exact haccounts.start_mem

theorem length_statements_add_failures (results : List (Except Diagnostic Statement)) :
    (statements results).length + (failures results).length = results.length := by
  induction results with
  | nil => rfl
  | cons result results ih =>
    unfold statements failures at ih ⊢
    cases result <;>
      simp only [List.filterMap_cons, Except.toOption, failure?, List.length_cons] <;> omega

theorem collect_eq (lines : LineIndex) (stop : Nat) (results : List (Except Diagnostic Statement)) :
    collect lines stop results =
      match (failures results).drop maxErrors with
      | [] => ⟨some ⟨statements results, ⟨0, stop⟩⟩, failures results⟩
      | next :: _ => ⟨none, (failures results).take maxErrors ++
          [givingUp lines (failures results).length next]⟩ := by
  have hfailures {f : Except Diagnostic Statement → Option Diagnostic}
      (hf : ∀ r, f r = failure? r) : results.filterMap f = failures results :=
    List.filterMap_congr fun r _ => hf r
  have hstatements {f : Except Diagnostic Statement → Option Statement}
      (hf : ∀ r, f r = r.toOption) : results.filterMap f = statements results :=
    List.filterMap_congr fun r _ => hf r
  unfold collect
  dsimp only
  rewrite [hfailures fun r => by cases r <;> rfl, hstatements fun r => by cases r <;> rfl]
  cases (failures results).drop maxErrors <;> rfl

theorem Statement.MadeOf.exists_start {s : Statement} {ls : List Lexeme} (h : s.MadeOf ls) :
    ∃ l ∈ ls, l.span.start = s.span.start := by
  obtain ⟨l, hl, hstart⟩ := Option.map_eq_some_iff.mp h.start
  exact ⟨l, List.mem_of_mem_head? hl, hstart⟩

theorem Statement.MadeOf.exists_stop {s : Statement} {ls : List Lexeme} (h : s.MadeOf ls) :
    ∃ l ∈ ls, l.span.stop = s.span.stop := by
  obtain ⟨l, hl, hstop⟩ := Option.map_eq_some_iff.mp h.stop
  exact ⟨l, List.mem_of_mem_getLast? hl, hstop⟩

/-- Statements come in the order of the source. -/
theorem statements_apart (lines : LineIndex) (stop : Nat) {ls : List Lexeme}
    (apart : ls.Pairwise fun a b => a.span.stop ≤ b.span.start) :
    (statements (readRegions lines stop ls)).Pairwise fun a b => a.span.stop ≤ b.span.start := by
  rw [statements, filterMap_readRegions, List.pairwise_filterMap]
  rw [← flatten_regions ls, List.pairwise_flatten] at apart
  refine apart.2.imp fun {x y} hxy s hs t ht => ?_
  obtain ⟨a, ha, hstop⟩ := (madeOf_of_statement? hs).exists_stop
  obtain ⟨b, hb, hstart⟩ := (madeOf_of_statement? ht).exists_start
  rw [← hstop, ← hstart]
  exact hxy a ha b hb

/-- Diagnostics come in the order of the source. -/
theorem failures_ordered (lines : LineIndex) {stop : Nat} {ls : List Lexeme}
    (sorted : ls.Pairwise fun a b => a.span.start ≤ b.span.start)
    (bounded : ∀ l ∈ ls, l.span.start ≤ stop) :
    (failures (readRegions lines stop ls)).Pairwise fun a b => a.span.start ≤ b.span.start := by
  rw [← flatten_regions ls] at sorted bounded
  have hordered := withStops_ordered (nil_notMem_regions ls) sorted bounded
  rw [failures, readRegions_eq_map, List.filterMap_map, List.pairwise_filterMap]
  refine hordered.imp fun {x y} hxy d hd e he => ?_
  exact hxy _ (start_mem_of_failure? hd) _ (start_mem_of_failure? he)

/-! ## What is reported -/

theorem exists_prefix_of_place {source : String} {ls : List Lexeme} (h : lex source = .ok ls)
    {r : List Lexeme × Nat} (hr : r ∈ withStops source.utf8ByteSize (regions ls)) {place : Nat}
    (hplace : place ∈ places r) :
    ∃ before behind, source.toList = before ++ behind ∧ place = byteLength before := by
  rcases mem_places hr hplace with rfl | ⟨l, hl, rfl⟩
  · exact ⟨source.toList, [], (List.append_nil _).symm, (byteLength_toList source).symm⟩
  · rw [flatten_regions] at hl
    exact exists_start_of_lex h hl

theorem onLineOf_error {source : String} {span : Span} {before behind : List Char}
    (hsource : source.toList = before ++ behind) (hstart : span.start = byteLength before)
    (code : Code) (message : String) :
    (Diagnostic.error code span ((LineIndex.ofSource source).line span.start) message).OnLineOf
      source := by
  refine ⟨before, behind, hsource, hstart, ?_⟩
  rw [Diagnostic.error, LineIndex.ofSource, hsource, hstart, LineIndex.line_of_prefix]

theorem onLineOf_failure {source : String} {ls : List Lexeme} (h : lex source = .ok ls)
    {d : Diagnostic}
    (hd : d ∈ failures (readRegions (.ofSource source) source.utf8ByteSize ls)) :
    d.OnLineOf source := by
  rw [failures, readRegions_eq_map, List.filterMap_map] at hd
  obtain ⟨r, hr, hfailure⟩ := List.mem_filterMap.mp hd
  obtain ⟨before, behind, hsource, hstart⟩ :=
    exists_prefix_of_place h hr (start_mem_of_failure? hfailure)
  have haccounts := readRegion_accounts (.ofSource source) r
  cases hread : readRegion (.ofSource source) r with
  | ok s => simp [hread, failure?] at hfailure
  | error e =>
    obtain rfl : e = d := by simpa [hread, failure?] using hfailure
    rw [hread] at haccounts
    cases haccounts with
    | failure unspelled place => exact onLineOf_error hsource hstart _ _

theorem onLineOf_of_lex {source : String} {ls : List Lexeme} (h : lex source = .ok ls)
    {d : Diagnostic} (hd : d ∈ (parse source).errors) : d.OnLineOf source := by
  simp only [parse, h, collect_eq] at hd
  split at hd
  · exact onLineOf_failure h hd
  · rename_i next later hdrop
    have hnext : next ∈ failures (readRegions (.ofSource source) source.utf8ByteSize ls) :=
      List.mem_of_mem_drop (hdrop ▸ List.mem_cons_self)
    rcases List.mem_append.mp hd with htake | hlast
    · exact onLineOf_failure h (List.mem_of_mem_take htake)
    · -- the one that counts is where a failure is
      obtain ⟨before, behind, hsource, hstart, -⟩ := onLineOf_failure h hnext
      rw [List.mem_singleton.mp hlast]
      exact onLineOf_error hsource hstart _ _

theorem onLineOf_lexical {source : String} {e : LexicalError} (h : lex source = .error e) :
    e.diagnostic.OnLineOf source := by
  have hcovers : Tiles ((lexing source).failure = none) [] source.toList (lexing source).tiles :=
    lexFrom_tiles source (.start source) [] rfl rfl
  have hfailure : (lexing source).failure = some e := by
    simp only [lex] at h
    split at h
    · cases h
    · rename_i e' hsome
      cases h
      exact hsome
  have htile : e.tile ∈ (lexing source).tiles := by simp [Lexing.tiles, hfailure]
  obtain ⟨before, behind, hsource, hstart, hline⟩ := (Tiled.of_covers hcovers).lines _ htile
  exact ⟨before, behind, hsource, hstart, congrArg some hline⟩

/-- What is reported of a source with these lexemes, from one result for every region. -/
structure Reported (source : String) (ls : List Lexeme)
    (results : List (Except Diagnostic Statement)) : Prop where
  accounts : List.Forall₂ (fun r result => Accounts (.ofSource source) r.1 r.2 result)
    (withStops source.utf8ByteSize (regions ls)) results
  total : (statements results).length + (failures results).length = (regions ls).length
  statements_apart : (statements results).Pairwise fun a b => a.span.stop ≤ b.span.start
  failures_ordered : (failures results).Pairwise fun a b => a.span.start ≤ b.span.start
  /-- All are reported. -/
  few : (failures results).length ≤ maxErrors →
    parse source = ⟨some ⟨statements results, ⟨0, source.utf8ByteSize⟩⟩, failures results⟩
  /-- The first are reported, and one more counts them, where the first one that is left out is. -/
  many : maxErrors < (failures results).length →
    ∃ (next : Diagnostic) (line : Nat), (failures results)[maxErrors]? = some next ∧
      parse source = ⟨none, (failures results).take maxErrors ++
        [.error Code.tooManyErrors next.span line
          s!"too many errors ({(failures results).length}), giving up"]⟩

theorem reported_of_lex {source : String} {ls : List Lexeme} (h : lex source = .ok ls) :
    Reported source ls (readRegions (.ofSource source) source.utf8ByteSize ls) := by
  have hparse : parse source = collect (.ofSource source) source.utf8ByteSize
      (readRegions (.ofSource source) source.utf8ByteSize ls) := by
    simp only [parse, h]
  have hapart := apart_of_lex h
  have hsorted : ls.Pairwise fun a b => a.span.start ≤ b.span.start :=
    hapart.imp_of_mem fun {a b} ha _ hab =>
      Nat.le_trans (Nat.le_of_lt (exists_read_of_lex h ha).1) hab
  have hbounded : ∀ l ∈ ls, l.span.start ≤ source.utf8ByteSize := by
    intro l hl
    obtain ⟨before, behind, hsource, hstart⟩ := exists_start_of_lex h hl
    rw [hstart, ← byteLength_toList, hsource, byteLength_append]
    exact Nat.le_add_right _ _
  refine ⟨?_, ?_, Script.statements_apart _ _ hapart,
    Script.failures_ordered _ hsorted hbounded, fun hfew => ?_, fun hmany => ?_⟩
  · rw [readRegions_eq_map, List.forall₂_map_right_iff]
    exact List.forall₂_same.mpr fun r _ => readRegion_accounts _ r
  · rw [length_statements_add_failures, readRegions_eq_map, List.length_map,
      ← List.length_map (f := Prod.fst), withStops_fst]
  · rw [hparse, collect_eq, List.drop_eq_nil_of_le hfew]
  · rw [hparse, collect_eq]
    set fs := failures (readRegions (.ofSource source) source.utf8ByteSize ls)
    refine ⟨fs[maxErrors], (LineIndex.ofSource source).line fs[maxErrors].span.start,
      List.getElem?_eq_getElem hmany, ?_⟩
    rw [List.drop_eq_getElem_cons hmany]
    rfl

/-- The regions of any lexemes cut them, in order, into parts that are not empty. For a source that
lexes each of them gives the statement that it spells or one diagnostic; up to `maxErrors` diagnostics
are all reported beside a program of all the statements, and of more the first `maxErrors` are, with
one that counts them and no program. Every diagnostic names the line on which its place starts. -/
theorem parse_reports (source : String) :
    (∀ ls, [] ∉ regions ls ∧ (regions ls).flatten = ls) ∧
    (match lex source with
      | .error e => parse source = ⟨none, [e.diagnostic]⟩
      | .ok ls => ∃ results, Reported source ls results) ∧
    ∀ d ∈ (parse source).errors, d.OnLineOf source := by
  refine ⟨fun ls => ⟨nil_notMem_regions ls, flatten_regions ls⟩, ?_, fun d hd => ?_⟩
  · cases h : lex source with
    | error e => simp only [parse, h]
    | ok ls => exact ⟨_, reported_of_lex h⟩
  · cases h : lex source with
    | error e =>
      simp only [parse, h, List.mem_singleton] at hd
      rw [hd]
      exact onLineOf_lexical h
    | ok ls => exact onLineOf_of_lex h hd

/-- Seventeen assignments of nothing, one a line. -/
def unassignedLines : String :=
  "a=\nb=\nc=\nd=\ne=\nf=\ng=\nh=\ni=\nj=\nk=\nl=\nm=\nn=\no=\np=\nq="

/-- The last one is counted and not reported. It is malformed at the end of the source, which is on
its own line; the others are at the start of the next line. -/
theorem parse_reports_unassignedLines :
    (parse unassignedLines).program = none ∧ (parse unassignedLines).errors.length = 17 ∧
      ∃ d ∈ (parse unassignedLines).errors, d.code = some Code.tooManyErrors ∧
        d.message = "too many errors (17), giving up" ∧ d.line = some 17 ∧
        d.OnLineOf unassignedLines := by
  have hlast : (parse unassignedLines).errors.getLast? = some
      (.error Code.tooManyErrors (.point 50) 17 "too many errors (17), giving up") := by
    decide +kernel
  have hmem := List.mem_of_getLast? hlast
  exact ⟨by decide +kernel, by decide +kernel, _, hmem, rfl, rfl, rfl,
    (parse_reports unassignedLines).2.2 _ hmem⟩

end Script

end FrameGraph
