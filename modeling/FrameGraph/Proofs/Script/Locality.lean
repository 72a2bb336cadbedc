import FrameGraph.Proofs.Script.LineBreaks
import FrameGraph.Proofs.Script.Tiling
import Mathlib.Data.String.Basic

/-!
# Locality

The lexemes of a stretch of a source are those of the stretch alone, moved to its place: what comes
behind a lexeme decides only where it ends, and this is decided in the same way where the text ends.
So a stretch from the start of a lexeme to the end of another can be cut out and lexed on its own.
-/
namespace FrameGraph.Script

open Text

/-- The text of a stretch of the source. -/
def sourceText (source : String) (span : Span) : String :=
  String.Pos.Raw.extract source ⟨span.start⟩ ⟨span.stop⟩

theorem utf8Len_eq_byteLength (s : List Char) : String.utf8Len s = byteLength s := by
  rw [← String.utf8ByteSize_ofList, ← byteLength_toList, String.toList_ofList]

theorem sourceText_of_append {source : String} {before text behind : List Char}
    (h : source.toList = before ++ text ++ behind) :
    sourceText source ⟨byteLength before, byteLength (before ++ text)⟩ = String.ofList text := by
  rw [← String.ofList_toList (s := source), h, byteLength_append, ← utf8Len_eq_byteLength,
    ← utf8Len_eq_byteLength]
  exact String.extract_of_valid before text behind

/-! ## Cutting -/

theorem Passes.strip {gap rest : List Char} (h : Passes gap rest) : Passes [] rest := by
  induction h with
  | stop blank line block => exact .stop blank line block
  | blank _ _ ih => exact ih
  | line _ _ _ ih => exact ih
  | block _ _ ih => exact ih

/-- What is passed over in front of a text is passed over where the source ends with this text. -/
theorem Passes.cut {gap rest more : List Char} (h : Passes gap (rest ++ more)) (hrest : rest ≠ []) :
    Passes gap rest := by
  generalize hall : rest ++ more = all at h
  induction h with
  | stop blank line block =>
    subst hall
    refine .stop ?_ (fun hstarts => line (hstarts.trans (List.prefix_append rest more))) ?_
    · rwa [← head?_append_of_ne_nil hrest more]
    · rintro later rfl hend
      exact block (later ++ more) rfl (hend.trans (List.prefix_append later more).isInfix)
  | blank hblank _ ih => exact .blank hblank (ih hall)
  | @line body gap all within ends _ ih =>
    subst hall
    refine .line within ?_ (ih rfl)
    have hne : gap ++ rest ≠ [] := by simp [hrest]
    rwa [← head?_append_of_ne_nil hne more, List.append_assoc]
  | block within _ ih => exact .block within (ih hall)

/-- The longest text stays the longest where the source ends earlier, but not inside it. -/
theorem Munch.cut {p : Pattern} {text later more : List Char} (h : Munch p text (later ++ more)) :
    Munch p text later where
  declared := h.declared
  longest q t hq ht := by
    refine h.longest q t hq (ht.trans ?_)
    rw [← List.append_assoc]
    exact List.prefix_append (text ++ later) more
  preferred := h.preferred

/-- What a pattern reads as a token is what is matched. -/
theorem Munch.longestMatch_eq {p : Pattern} {text later : List Char} {t : Token}
    (h : Munch p text later) (hread : p.read text = .ok t) {c : Char} {rest : List Char}
    (hwhole : text ++ later = c :: rest) : longestMatch c rest = ⟨p, text, later⟩ := by
  have hstarts : text <+: c :: rest := ⟨later, hwhole⟩
  obtain ⟨hge, hlead⟩ := longestMatch_longest h.declared hstarts
  have hcomment : (longestMatch c rest).pattern ≠ .openComment := by
    intro hopen
    rw [hopen] at hlead
    cases p <;> cases hlead
    cases hread
  have hstray : (longestMatch c rest).pattern ≠ .stray := fun hnone =>
    (longestMatch_of_stray hnone).2 p text h.declared hstarts
  have hmunch := munch_longestMatch hcomment hstray
  have happend := (longestMatch_append c rest).trans hwhole.symm
  have hle := h.longest _ _ hmunch.declared ⟨_, happend⟩
  obtain ⟨htext, hlater⟩ := List.append_inj happend (Nat.le_antisymm hle hge)
  have hpattern : (longestMatch c rest).pattern = p := by
    rcases h.preferred _ (htext ▸ hmunch.declared) with hsame | ⟨hname, rfl⟩
    · exact hsame
    · rcases hmunch.preferred .keyword (htext.symm ▸ h.declared) with hsame | ⟨hother, -⟩
      · exact hsame.symm
      · cases hother
  cases hm : longestMatch c rest
  simp_all

/-! ## Stretches -/

/-- The lexeme of a text, with what stands before it in the source. -/
def Lexeme.of (token : Token) (before text : List Char) : Lexeme :=
  ⟨token, (Tile.of before text).span, (Tile.of before text).line⟩

/-- A stretch of a source, between what is before it and what is behind it, is made of these lexemes
and of the gaps in front of them. -/
inductive Lexed : List Char → List Char → List Lexeme → List Char → Prop where
  | nil {before behind : List Char} : Lexed before [] [] behind
  | cons {before gap text later behind : List Char} {p : Pattern} {t : Token} {ls : List Lexeme}
      (passes : Passes gap (text ++ (later ++ behind))) (munch : Munch p text (later ++ behind))
      (read : p.read text = .ok t) (rest : Lexed (before ++ gap ++ text) later ls behind) :
      Lexed before (gap ++ (text ++ later)) (.of t (before ++ gap) text :: ls) behind

namespace Lexed

variable {front before text behind more : List Char} {l : Lexeme} {ls ls' : List Lexeme}

/-- The stretch stays the same where the source ends earlier. -/
theorem cut (h : Lexed before text ls (behind ++ more)) : Lexed before text ls behind := by
  generalize hall : behind ++ more = all at h
  induction h with
  | nil => exact .nil
  | @cons before gap text later all p t ls passes munch read rest ih =>
    subst hall
    have hfilled : text ++ (later ++ behind) ≠ [] := by simp [munch.text_ne_nil]
    have hpasses : Passes gap (text ++ (later ++ behind) ++ more) := by simpa using passes
    have hmunch : Munch p text (later ++ behind ++ more) := by simpa using munch
    exact .cons (hpasses.cut hfilled) hmunch.cut read (ih rfl)

/-- A stretch is divided between two of its lexemes. -/
theorem split (h : Lexed before text (ls ++ ls') behind) :
    ∃ first last, text = first ++ last ∧ Lexed before first ls (last ++ behind) ∧
      Lexed (before ++ first) last ls' behind := by
  induction ls generalizing before text with
  | nil => exact ⟨[], text, rfl, .nil, by simpa using h⟩
  | cons l ls ih =>
    cases h with
    | @cons _ gap text later _ p t _ passes munch read rest =>
      obtain ⟨first, last, rfl, hfirst, hlast⟩ := ih rest
      refine ⟨gap ++ (text ++ first), last, by simp, ?_, by simpa using hlast⟩
      refine .cons ?_ ?_ read hfirst
      · simpa using passes
      · simpa using munch

/-- Without the gap in front, a stretch begins where its first lexeme does. -/
theorem strip (h : Lexed before text (l :: ls) behind) :
    ∃ gap body, text = gap ++ body ∧ Lexed (before ++ gap) body (l :: ls) behind ∧
      l.span.start = byteLength (before ++ gap) ∧ l.line = (before ++ gap).count '\n' + 1 := by
  cases h with
  | @cons _ gap text later _ p t _ passes munch read rest =>
    refine ⟨gap, text ++ later, rfl, ?_, rfl, rfl⟩
    have hrest : Lexed (before ++ gap ++ [] ++ text) later ls behind := by simpa using rest
    simpa using Lexed.cons passes.strip munch read hrest

/-- A stretch ends where its last lexeme does. -/
theorem getLast?_stop (h : Lexed before text ls behind) (hls : ls ≠ []) :
    ls.getLast?.map (·.span.stop) = some (byteLength (before ++ text)) := by
  induction h with
  | nil => exact absurd rfl hls
  | @cons before gap text later behind p t ls passes munch read rest ih =>
    cases rest with
    | nil => simp [Lexeme.of, Tile.of]
    | cons =>
      rw [List.getLast?_cons_cons, ih (List.cons_ne_nil _ _)]
      simp

/-- What stands in front of the source moves the lexemes. -/
theorem moved (h : Lexed (front ++ before) text ls behind) :
    ∃ ls', ls = ls'.map (·.shift (byteLength front) (front.count '\n')) ∧
      Lexed before text ls' behind := by
  generalize hall : front ++ before = all at h
  induction h generalizing before with
  | nil => exact ⟨[], rfl, .nil⟩
  | @cons all gap text later behind p t ls passes munch read rest ih =>
    subst hall
    have hplace : front ++ (before ++ gap ++ text) = front ++ before ++ gap ++ text := by simp
    obtain ⟨ls', rfl, hls'⟩ := ih hplace
    refine ⟨.of t (before ++ gap) text :: ls', ?_, .cons passes munch read hls'⟩
    rw [List.map_cons]
    congr 1
    simp only [Lexeme.of, Tile.of, Lexeme.shift, Span.shift, byteLength_append, List.count_append]
    congr 1
    · congr 1 <;> omega
    · omega

/-- The lexemes of a stretch tile it. -/
theorem tiles (h : Lexed before text ls behind) :
    Tiles False before (text ++ behind) (ls.map Lexeme.tile) := by
  induction h with
  | nil => exact .last False.elim
  | cons passes munch read rest ih =>
    rw [List.map_cons, List.append_assoc, List.append_assoc]
    exact .tile passes munch.text_ne_nil ih

/-- Every lexeme is what a pattern reads in the text that it stands for. -/
theorem exists_read (h : Lexed before text ls behind) (hl : l ∈ ls) :
    ∃ (p : Pattern) (front body rest : List Char), before ++ text ++ behind = front ++ body ++ rest ∧
      body ≠ [] ∧ p.read body = .ok l.token ∧ l = .of l.token front body := by
  induction h with
  | nil => cases hl
  | @cons before gap text later behind p t ls passes munch read rest ih =>
    rcases List.mem_cons.mp hl with rfl | hmem
    · exact ⟨p, before ++ gap, text, later ++ behind, by simp, munch.text_ne_nil, read, rfl⟩
    · obtain ⟨q, front, body, after, hwhole, hread⟩ := ih hmem
      exact ⟨q, front, body, after, by rw [← hwhole]; simp, hread⟩

/-- Lexing takes the lexemes of a stretch with nothing but a gap behind it. -/
theorem lexFrom_eq_of_passes (h : Lexed before text ls behind) (hgap : Passes behind []) :
    lexFrom (.ofChars (before ++ text ++ behind)) ⟨byteLength before, text ++ behind⟩ =
      ⟨ls, none⟩ := by
  induction h with
  | nil => exact lexFrom_of_passes_all hgap _ _
  | @cons before gap text later behind p t ls passes munch read rest ih =>
    have hlater := ih hgap
    obtain ⟨c, tail, hcons⟩ : ∃ c tail, text ++ (later ++ behind) = c :: tail :=
      List.exists_cons_of_ne_nil (by simp [munch.text_ne_nil])
    have hmatch := munch.longestMatch_eq read hcons
    have hwhole : before ++ (gap ++ (text ++ later)) ++ behind =
        before ++ gap ++ (text ++ (later ++ behind)) := by simp
    have hrest : before ++ gap ++ text ++ later ++ behind =
        before ++ gap ++ (text ++ (later ++ behind)) := by simp
    have hread : readLexeme (.ofChars (before ++ gap ++ (text ++ (later ++ behind))))
        (byteLength before + byteLength gap) (longestMatch c tail) =
          .ok (.of t (before ++ gap) text) := by
      rw [hmatch, ← byteLength_append]
      simp only [readLexeme, read, LineIndex.line_of_prefix, Lexeme.of, Tile.of,
        byteLength_append (before ++ gap) text]
    rw [hcons] at passes
    rw [hrest] at hlater
    have hstep := lexFrom_of_ok passes hread
    rw [hmatch] at hstep
    have hplace : gap ++ (text ++ later) ++ behind = gap ++ c :: tail := by
      rw [← hcons]
      simp
    rw [hwhole, hplace, hstep]
    simp only [Lexeme.of, Tile.of, hlater]

end Lexed

/-- What makes a lexeme is matched and read. -/
theorem exists_read_of_readLexeme {lines : LineIndex} {offset : Nat} {c : Char} {rest : List Char}
    {l : Lexeme} (h : readLexeme lines offset (longestMatch c rest) = .ok l) :
    ∃ t, (longestMatch c rest).pattern.read (longestMatch c rest).text = .ok t ∧
      Munch (longestMatch c rest).pattern (longestMatch c rest).text (longestMatch c rest).rest ∧
      l = ⟨t, ⟨offset, offset + byteLength (longestMatch c rest).text⟩, lines.line offset⟩ := by
  obtain ⟨-, hcomment⟩ := ends_of_readLexeme h
  simp only [readLexeme] at h
  split at h
  · rename_i t hread
    have hstray : (longestMatch c rest).pattern ≠ .stray := by
      intro hnone
      rw [hnone] at hread
      cases hread
    cases h
    exact ⟨t, hread, munch_longestMatch hcomment hstray, rfl⟩
  · cases h

/-- A source that lexes is a stretch of its lexemes with a gap behind it. -/
theorem lexed_of_lexFrom {source before s : List Char} (hsource : source = before ++ s)
    (h : (lexFrom (.ofChars source) ⟨byteLength before, s⟩).failure = none) :
    ∃ text gap, s = text ++ gap ∧ Passes gap [] ∧
      Lexed before text (lexFrom (.ofChars source) ⟨byteLength before, s⟩).lexemes gap := by
  induction hn : s.length using Nat.strong_induction_on generalizing before s with
  | _ n ih =>
    obtain hall | ⟨gap, c, rest, rfl, hpasses⟩ := exists_passes s
    · rw [lexFrom_of_passes_all hall]
      exact ⟨[], s, rfl, hall, .nil⟩
    cases hread : readLexeme (.ofChars source) (byteLength before + byteLength gap)
        (longestMatch c rest) with
    | error e =>
      rw [lexFrom_of_error hpasses hread] at h
      cases h
    | ok l =>
      obtain ⟨t, htoken, hmunch, hl⟩ := exists_read_of_readLexeme hread
      have happend := longestMatch_append c rest
      have hlength := longestMatch_rest_length c rest
      set m := longestMatch c rest
      have hnext : source = before ++ gap ++ m.text ++ m.rest := by simp [hsource, happend]
      have hlexeme : l = .of t (before ++ gap) m.text := by
        rw [hl, ← byteLength_append, hsource, ← List.append_assoc, LineIndex.line_of_prefix,
          ← byteLength_append]
        rfl
      have hstop : l.span.stop = byteLength (before ++ gap ++ m.text) := by rw [hlexeme]; rfl
      have hshorter : m.rest.length < n := by
        simp only [List.length_append, List.length_cons] at hn
        omega
      rw [lexFrom_of_ok hpasses hread] at h ⊢
      simp only [hstop] at h ⊢
      obtain ⟨text, last, hrest, hlast, hlater⟩ := ih _ hshorter hnext h rfl
      refine ⟨gap ++ (m.text ++ text), last, ?_, hlast, ?_⟩
      · rw [← happend, hrest]
        simp
      · rw [hrest] at hmunch
        rw [← happend, hrest] at hpasses
        rw [hlexeme]
        exact .cons hpasses hmunch htoken hlater

/-- A source that lexes, from its start. -/
theorem lexed_of_lex {source : String} {ls : List Lexeme} (h : lex source = .ok ls) :
    ∃ text gap, source.toList = text ++ gap ∧ Passes gap [] ∧ Lexed [] text ls gap := by
  simp only [lex] at h
  split at h
  · rename_i hnone
    cases h
    exact lexed_of_lexFrom (List.nil_append source.toList).symm hnone
  · cases h

/-- A stretch that is the whole source lexes to its lexemes. -/
theorem Lexed.lex_eq {text : List Char} {ls : List Lexeme} (h : Lexed [] text ls []) :
    lex (String.ofList text) = .ok ls := by
  have hlexing := h.lexFrom_eq_of_passes (.stop (by simp) (by simp) (by simp))
  simp only [List.nil_append, List.append_nil, byteLength_nil] at hlexing
  simp only [lex, lexing, LineIndex.ofSource, Place.start, String.toList_ofList, hlexing]

theorem apart_of_lex {source : String} {ls : List Lexeme} (h : lex source = .ok ls) :
    ls.Pairwise fun a b => a.span.stop ≤ b.span.start := by
  obtain ⟨text, gap, -, -, hlexed⟩ := lexed_of_lex h
  exact List.pairwise_map.mp hlexed.tiles.apart

/-- Every lexeme of a source is not empty, and is what a pattern reads in its text. -/
theorem exists_read_of_lex {source : String} {ls : List Lexeme} (h : lex source = .ok ls)
    {l : Lexeme} (hl : l ∈ ls) :
    l.span.start < l.span.stop ∧
      ∃ p : Pattern, p.read (sourceText source l.span).toList = .ok l.token := by
  obtain ⟨text, gap, hsource, -, hlexed⟩ := lexed_of_lex h
  obtain ⟨p, front, body, rest, hwhole, hbody, hread, hof⟩ := hlexed.exists_read hl
  have hspan : l.span = ⟨byteLength front, byteLength (front ++ body)⟩ := by rw [hof]; rfl
  have htext : sourceText source l.span = String.ofList body := by
    rw [hspan]
    exact sourceText_of_append (hsource.trans hwhole)
  refine ⟨?_, p, by rwa [htext, String.toList_ofList]⟩
  have := byteLength_pos hbody
  rw [hspan, byteLength_append]
  exact Nat.lt_add_of_pos_right this

/-- A lexeme starts between two characters of the source. -/
theorem exists_start_of_lex {source : String} {ls : List Lexeme} (h : lex source = .ok ls)
    {l : Lexeme} (hl : l ∈ ls) :
    ∃ before behind, source.toList = before ++ behind ∧ l.span.start = byteLength before := by
  obtain ⟨text, gap, hsource, -, hlexed⟩ := lexed_of_lex h
  obtain ⟨-, front, body, rest, hwhole, -, -, hof⟩ := hlexed.exists_read hl
  refine ⟨front, body ++ rest, ?_, by rw [hof]; rfl⟩
  rw [hsource, ← List.append_assoc, ← hwhole, List.nil_append]

/-- The stretch of some lexemes of a source, from the start of the first to the end of the last,
lexes on its own to the same lexemes, moved to the start. -/
theorem lex_stretch {source : String} {ls before group after : List Lexeme} {l : Lexeme}
    (h : lex source = .ok ls) (hls : ls = before ++ l :: group ++ after) :
    ∃ front text behind, source.toList = front ++ text ++ behind ∧
      l.span.start = byteLength front ∧ l.line = front.count '\n' + 1 ∧
      (l :: group).getLast?.map (·.span.stop) = some (byteLength (front ++ text)) ∧
      ∃ ls', l :: group = ls'.map (·.shift (byteLength front) (front.count '\n')) ∧
        lex (String.ofList text) = .ok ls' := by
  obtain ⟨text, gap, hsource, -, hlexed⟩ := lexed_of_lex h
  subst hls
  obtain ⟨whole, last, rfl, hwhole, -⟩ := hlexed.split
  obtain ⟨first, middle, rfl, -, hmiddle⟩ := hwhole.split
  obtain ⟨space, body, rfl, hbody, hstart, hline⟩ := hmiddle.strip
  refine ⟨[] ++ first ++ space, body, last ++ gap, by simp [hsource], hstart, hline,
    hbody.getLast?_stop (List.cons_ne_nil _ _), ?_⟩
  rw [← List.append_nil ([] ++ first ++ space)] at hbody
  obtain ⟨ls', hmoved, hfront⟩ := hbody.moved
  rw [← List.nil_append (last ++ gap)] at hfront
  exact ⟨ls', hmoved, hfront.cut.lex_eq⟩

end FrameGraph.Script
