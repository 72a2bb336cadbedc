import FrameGraph.Proofs.Script.Munch
import FrameGraph.Proofs.Script.Printing
import FrameGraph.Proofs.Source.Lines

/-!
# Line breaks

A source that lexes keeps its lexemes when a line feed and more text are put behind it, and the text
behind the line feed lexes as it does alone, further back in the source and on later lines. No match
and no comment reaches over the line feed, and no lexeme depends on what comes before it.
-/
namespace FrameGraph

/-- A stretch further back in the source. -/
def Span.shift (s : Span) (offset : Nat) : Span := ⟨s.start + offset, s.stop + offset⟩

namespace Script

open Text

/-! ## What is passed over -/

theorem skipBlock_of_within {body : List Char} (h : ¬['*', '/'] <:+: body ++ ['*'])
    (later : List Char) (opening : Place) (offset : Nat) :
    skipBlock opening offset (body ++ '*' :: '/' :: later) =
      skip (offset + byteLength body + 2) later := by
  induction body generalizing offset with
  | nil => simp [skipBlock]
  | cons c body ih =>
    rw [List.cons_append, List.infix_cons_iff, not_or] at h
    obtain ⟨hhead, htail⟩ := h
    have hopen : ¬['*', '/'] <+: c :: (body ++ '*' :: '/' :: later) := by
      rintro ⟨behind, hbehind⟩
      obtain ⟨rfl, hslash⟩ : '*' = c ∧ '/' :: behind = body ++ '*' :: '/' :: later := by
        simpa using hbehind
      cases body with
      | nil => simp at hslash
      | cons d body =>
        obtain ⟨rfl, -⟩ := List.cons.inj hslash
        exact hhead (List.prefix_append ['*', '/'] (body ++ ['*']))
    rw [List.cons_append, skipBlock_cons hopen, ih htail, byteLength_cons, Nat.add_assoc offset]

/-- What can be passed over is passed over. -/
theorem Passes.skip_eq {gap rest : List Char} (h : Passes gap rest) (offset : Nat) :
    skip offset (gap ++ rest) = ⟨offset + byteLength gap, rest⟩ := by
  have hslash : '/'.utf8Size = 1 := rfl
  have hstar : '*'.utf8Size = 1 := rfl
  induction h generalizing offset with
  | @stop rest blank line block =>
    cases rest with
    | nil => simp [skip]
    | cons c rest =>
      by_cases hopen : ['/', '*'] <+: c :: rest
      · obtain ⟨later, hlater⟩ := hopen
        obtain ⟨rfl, rfl⟩ : '/' = c ∧ '*' :: later = rest := by simpa using hlater
        rcases skipBlock_cases later with ⟨body, behind, rfl, -, -⟩ | ⟨-, hskip⟩
        · exact absurd ⟨body, behind, by simp⟩ (block _ rfl)
        · simp [skip, hskip]
      · have hblank : ¬isBlank c = true := by simpa using blank c rfl
        rw [List.nil_append, skip_of_not_comment line hopen, if_neg hblank]
        rfl
  | @blank c gap rest hblank _ ih =>
    have hne : c ≠ '/' := by
      rintro rfl
      cases hblank
    rw [List.cons_append, skip_of_ne hne, if_pos hblank, ih, byteLength_cons,
      utf8Size_of_isBlank hblank, Nat.add_assoc]
  | @line body gap rest within ends _ ih =>
    have hbody : ∀ c ∈ body, (decide (c ≠ '\n')) = true := fun c hc => by
      simpa using fun h : c = '\n' => within (h ▸ hc)
    have hends : ∀ c ∈ (gap ++ rest).head?, (decide (c ≠ '\n')) = false := fun c hc => by
      simpa using ends c hc
    rw [List.append_assoc, List.cons_append, List.cons_append, skip, skipLine_eq_skip,
      takeWhile_append_of_head hbody hends, dropWhile_append_of_head hbody hends, ih]
    simp [hslash]
    omega
  | @block body gap rest within _ ih =>
    simp only [List.cons_append, List.append_assoc, skip, skipBlock_of_within within, ih]
    simp [hslash, hstar]
    omega

theorem head?_append_of_ne_nil {s : List Char} (h : s ≠ []) (t : List Char) :
    (s ++ t).head? = s.head? := by
  cases s with
  | nil => exact absurd rfl h
  | cons c s => rfl

/-- A line feed makes no comment of what comes next. -/
theorem not_prefix_append_newline {a b : Char} {s : List Char} (hb : b ≠ '\n') (hs : s ≠ [])
    (h : ¬[a, b] <+: s) (t : List Char) : ¬[a, b] <+: s ++ '\n' :: t := by
  rintro ⟨later, hlater⟩
  match s, hs with
  | [c], _ =>
    have heq : b = '\n' := by simpa using (List.cons.inj (List.cons.inj hlater).2).1
    exact hb heq
  | c :: d :: s, _ =>
    obtain ⟨rfl, rfl, -⟩ : a = c ∧ b = d ∧ later = s ++ '\n' :: t := by simpa using hlater
    exact h (List.prefix_append [a, b] s)

/-- What is passed over in front of a lexeme stays the same when a line feed comes later. -/
theorem Passes.append_newline {gap rest : List Char} (h : Passes gap rest) (hrest : rest ≠ [])
    (hopen : ¬['/', '*'] <+: rest) (t : List Char) : Passes gap (rest ++ '\n' :: t) := by
  induction h with
  | @stop rest blank line block =>
    refine .stop ?_ (not_prefix_append_newline (by decide) hrest line t) fun later heq => ?_
    · rwa [head?_append_of_ne_nil hrest]
    · exact absurd ⟨later, heq.symm⟩ (not_prefix_append_newline (by decide) hrest hopen t)
  | blank hblank _ ih => exact .blank hblank (ih hrest hopen)
  | @line body gap rest within ends _ ih =>
    refine .line within ?_ (ih hrest hopen)
    have hne : gap ++ rest ≠ [] := by simp [hrest]
    rwa [← List.append_assoc, head?_append_of_ne_nil hne]
  | block within _ ih => exact .block within (ih hrest hopen)

/-- What is passed over up to the end of a text, then a line feed, then what is passed over behind
it: all of it is passed over. -/
theorem Passes.newline {gap gap' rest : List Char} (h : Passes gap []) (h' : Passes gap' rest) :
    Passes (gap ++ '\n' :: gap') rest := by
  generalize hnil : ([] : List Char) = none at h
  induction h with
  | stop => exact .blank rfl h'
  | blank hblank _ ih => exact .blank hblank (ih hnil)
  | @line body gap none within ends _ ih =>
    subst hnil
    have hends : ∀ c ∈ (gap ++ '\n' :: gap' ++ rest).head?, c = '\n' := by
      cases gap with
      | nil => exact forall_head?_cons rfl
      | cons d gap => exact ends
    simpa using Passes.line within hends (ih rfl)
  | @block body gap none within _ ih => simpa using Passes.block within (ih hnil)

/-! ## What is matched -/

/-- A match with more text behind it. -/
def Match.before (m : Match) (later : List Char) : Match := { m with rest := m.rest ++ later }

theorem takeWhile_append_cons {p : Char → Bool} {c : Char} (h : p c = false) (s t : List Char) :
    (s ++ c :: t).takeWhile p = s.takeWhile p := by
  induction s with
  | nil => simp [h]
  | cons d s ih => simp only [List.cons_append, List.takeWhile_cons, ih]

theorem dropWhile_append_cons {p : Char → Bool} {c : Char} (h : p c = false) (s t : List Char) :
    (s ++ c :: t).dropWhile p = s.dropWhile p ++ c :: t := by
  induction s with
  | nil => simp [h]
  | cons d s ih =>
    simp only [List.cons_append, List.dropWhile_cons, ih]
    split <;> rfl

/-- What follows a closed string is not looked at. -/
theorem stringBody_append_of_closed {s : List Char} (h : (stringBody s).2.1 = true)
    (t : List Char) :
    stringBody (s ++ t) = ((stringBody s).1, true, (stringBody s).2.2 ++ t) := by
  fun_induction stringBody s with
  | case1 => cases h
  | case2 rest => rfl
  | case3 => cases h
  | case4 c rest body closed later heq ih =>
    rw [heq] at ih
    simp only [List.cons_append, stringBody, ih h]
  | case5 c rest hquote hlast hescape body closed later heq ih =>
    have hbackslash : c ≠ '\\' := by
      rintro rfl
      cases rest with
      | nil => exact hlast rfl rfl
      | cons d rest => exact hescape d rest rfl rfl
    rw [heq] at ih
    rw [List.cons_append, stringBody, ih h]
    · exact hquote
    · exact fun hc => absurd hc hbackslash
    · exact fun _ _ hc => absurd hc hbackslash

theorem matchString_append_of_closed {s : List Char} (h : (matchString s).pattern ≠ .openString)
    (t : List Char) : matchString (s ++ t) = (matchString s).before t := by
  have hclosed : (stringBody s).2.1 = true := by
    by_contra hopen
    exact h (by simp [matchString, hopen])
  simp [matchString, stringBody_append_of_closed hclosed, hclosed, Match.before]

theorem matchDigits_append_newline (digits s t : List Char) :
    matchDigits digits (s ++ '\n' :: t) = (matchDigits digits s).before ('\n' :: t) := by
  have hfeed : Char.isDigit '\n' = false := rfl
  cases s with
  | nil => rfl
  | cons c s =>
    by_cases hpoint : c = '.'
    · subst hpoint
      cases s with
      | nil => rfl
      | cons d s =>
        simp only [List.cons_append, matchDigits, takeWhile_append_cons hfeed,
          dropWhile_append_cons hfeed]
        split <;> rfl
    · rw [matchDigits_of_head (forall_head?_cons hpoint), List.cons_append,
        matchDigits_of_head (forall_head?_cons hpoint)]
      rfl

theorem matchNumber_append_newline (d : Char) (s t : List Char) :
    matchNumber d (s ++ '\n' :: t) = (matchNumber d s).before ('\n' :: t) := by
  have hdigit : Char.isDigit '\n' = false := rfl
  have hhex : isHexDigit '\n' = false := rfl
  have hdigits : matchDigits (d :: (s ++ '\n' :: t).takeWhile Char.isDigit)
      ((s ++ '\n' :: t).dropWhile Char.isDigit) =
        (matchDigits (d :: s.takeWhile Char.isDigit) (s.dropWhile Char.isDigit)).before
          ('\n' :: t) := by
    rw [takeWhile_append_cons hdigit, dropWhile_append_cons hdigit, matchDigits_append_newline]
  match s with
  | [] => rwa [List.nil_append, matchNumber_of_head (forall_head?_cons (by decide)),
      matchNumber_of_head (by simp)]
  | [x] =>
    have hnone : matchNumber d ([x] ++ '\n' :: t) =
        matchDigits (d :: ([x] ++ '\n' :: t).takeWhile Char.isDigit)
          (([x] ++ '\n' :: t).dropWhile Char.isDigit) := by
      simp [matchNumber, hhex]
    rw [hnone, hdigits]
    rfl
  | x :: h :: more =>
    simp only [List.cons_append] at hdigits ⊢
    simp only [matchNumber, hdigits, takeWhile_append_cons hhex, dropWhile_append_cons hhex]
    split <;> rfl

theorem matchWord_append_newline (c : Char) (s t : List Char) :
    matchWord c (s ++ '\n' :: t) = (matchWord c s).before ('\n' :: t) := by
  have hfeed : continuesName '\n' = false := rfl
  simp only [matchWord, takeWhile_append_cons hfeed, dropWhile_append_cons hfeed, Match.before]

/-- Only strings and block comments reach over a line feed, so a match that has come to its end
without it stays the same when a line feed comes later. -/
theorem longestMatch_append_newline {c : Char} {s : List Char}
    (hstring : (longestMatch c s).pattern ≠ .openString)
    (hcomment : (longestMatch c s).pattern ≠ .openComment) (t : List Char) :
    longestMatch c (s ++ '\n' :: t) = (longestMatch c s).before ('\n' :: t) := by
  rw [longestMatch_eq_lead] at hstring hcomment ⊢
  rw [longestMatch_eq_lead]
  cases hlead : lead c with
  | symbol => rfl
  | quote =>
    rw [hlead] at hstring
    exact matchString_append_of_closed hstring _
  | slash =>
    rw [hlead] at hcomment
    have hs : ¬s.head? = some '*' := fun h => hcomment (by simp [h])
    have hlater : ¬(s ++ '\n' :: t).head? = some '*' := by
      cases s with
      | nil => simp
      | cons d s => exact hs
    simp only [if_neg hs, if_neg hlater, Match.before]
  | digit => exact matchNumber_append_newline c s t
  | name => exact matchWord_append_newline c s t
  | other => rfl

/-! ## What is read -/

/-- Behind a gap the match is read, and lexing goes on behind the match. -/
theorem nextLexeme_of_passes {gap rest : List Char} {c : Char} (h : Passes gap (c :: rest))
    (lines : LineIndex) (offset : Nat) :
    nextLexeme lines ⟨offset, gap ++ c :: rest⟩ =
      some ((readLexeme lines (offset + byteLength gap) (longestMatch c rest)).map fun l =>
        (l, ⟨l.span.stop, (longestMatch c rest).rest⟩)) := by
  simp only [nextLexeme, h.skip_eq]
  cases readLexeme lines (offset + byteLength gap) (longestMatch c rest) <;> rfl

theorem nextLexeme_of_passes_all {gap : List Char} (h : Passes gap []) (lines : LineIndex)
    (offset : Nat) : nextLexeme lines ⟨offset, gap⟩ = none := by
  have hskip := h.skip_eq offset
  rw [List.append_nil] at hskip
  simp only [nextLexeme, hskip]

/-- A text is a gap to its end, or a gap and what is matched behind it. -/
theorem exists_passes (s : List Char) :
    Passes s [] ∨ ∃ gap c rest, s = gap ++ c :: rest ∧ Passes gap (c :: rest) := by
  obtain ⟨gap, rest, rfl, -, hpasses⟩ := passes_skip 0 s
  cases rest with
  | nil => exact .inl (by rwa [List.append_nil])
  | cons c rest => exact .inr ⟨gap, c, rest, rfl, hpasses⟩

theorem lexFrom_of_passes_all {gap : List Char} (h : Passes gap []) (lines : LineIndex)
    (offset : Nat) : lexFrom lines ⟨offset, gap⟩ = ⟨[], none⟩ := by
  rw [lexFrom_eq, nextLexeme_of_passes_all h]

theorem lexFrom_of_ok {gap rest : List Char} {c : Char} (h : Passes gap (c :: rest))
    {lines : LineIndex} {offset : Nat} {l : Lexeme}
    (hread : readLexeme lines (offset + byteLength gap) (longestMatch c rest) = .ok l) :
    lexFrom lines ⟨offset, gap ++ c :: rest⟩ =
      let later := lexFrom lines ⟨l.span.stop, (longestMatch c rest).rest⟩
      ⟨l :: later.lexemes, later.failure⟩ := by
  rw [lexFrom_eq, nextLexeme_of_passes h, hread]
  rfl

theorem lexFrom_of_error {gap rest : List Char} {c : Char} (h : Passes gap (c :: rest))
    {lines : LineIndex} {offset : Nat} {e : LexicalError}
    (hread : readLexeme lines (offset + byteLength gap) (longestMatch c rest) = .error e) :
    lexFrom lines ⟨offset, gap ++ c :: rest⟩ = ⟨[], some e⟩ := by
  rw [lexFrom_eq, nextLexeme_of_passes h, hread]
  rfl

/-! ## Behind a line feed -/

theorem line_append_right (before rest later : List Char) :
    (LineIndex.ofChars (before ++ rest ++ later)).line (byteLength before) =
      (LineIndex.ofChars (before ++ rest)).line (byteLength before) := by
  rw [List.append_assoc, LineIndex.line_of_prefix, LineIndex.line_of_prefix]

theorem line_append_left (front before rest : List Char) :
    (LineIndex.ofChars (front ++ (before ++ rest))).line (byteLength before + byteLength front) =
      (LineIndex.ofChars (before ++ rest)).line (byteLength before) + front.count '\n' := by
  have hlength : byteLength before + byteLength front = byteLength (front ++ before) := by
    rw [byteLength_append, Nat.add_comm]
  rw [← List.append_assoc, hlength, LineIndex.line_of_prefix, LineIndex.line_of_prefix,
    List.count_append]
  omega

theorem readLexeme_of_line {lines lines' : LineIndex} {offset : Nat}
    (h : lines'.line offset = lines.line offset) (m : Match) :
    readLexeme lines' offset m = readLexeme lines offset m := by
  simp only [readLexeme, h]

/-- What a match makes does not depend on what follows it. -/
theorem readLexeme_before (lines : LineIndex) (offset : Nat) (m : Match) (later : List Char) :
    readLexeme lines offset (m.before later) = readLexeme lines offset m := rfl

/-- Behind a lexeme comes what its match has left. -/
theorem next_of_ok {lines : LineIndex} {source before gap rest : List Char} {c : Char} {l : Lexeme}
    (hsource : source = before ++ (gap ++ c :: rest))
    (h : readLexeme lines (byteLength before + byteLength gap) (longestMatch c rest) = .ok l) :
    ∃ behind, source = behind ++ (longestMatch c rest).rest ∧ l.span.stop = byteLength behind ∧
      (longestMatch c rest).rest.length < (gap ++ c :: rest).length := by
  refine ⟨before ++ gap ++ (longestMatch c rest).text, ?_, ?_, ?_⟩
  · rw [List.append_assoc, longestMatch_append, hsource, List.append_assoc]
  · simp only [readLexeme] at h
    split at h
    · cases h
      rw [byteLength_append, byteLength_append]
    · cases h
  · have := longestMatch_rest_length c rest
    simp only [List.length_append, List.length_cons]
    omega

/-- What makes a lexeme has come to its end. -/
theorem ends_of_readLexeme {lines : LineIndex} {offset : Nat} {m : Match} {l : Lexeme}
    (h : readLexeme lines offset m = .ok l) :
    m.pattern ≠ .openString ∧ m.pattern ≠ .openComment := by
  refine ⟨fun hp => ?_, fun hp => ?_⟩ <;> simp [readLexeme, hp, Pattern.read] at h

theorem longestMatch_comment (rest : List Char) :
    (longestMatch '/' ('*' :: rest)).pattern = .openComment := by
  simp [longestMatch]

/-- Past the end of a source, lexing goes on behind the line feed. -/
theorem lexFrom_newline {gap : List Char} (h : Passes gap []) (lines : LineIndex) (offset : Nat)
    (t : List Char) :
    lexFrom lines ⟨offset, gap ++ '\n' :: t⟩ = lexFrom lines ⟨offset + byteLength gap + 1, t⟩ := by
  have hfeed : '\n'.utf8Size = 1 := rfl
  obtain ⟨gap', rest, rfl, hskip, hpasses⟩ := passes_skip (offset + byteLength gap + 1) t
  have hfirst := (h.newline hpasses).skip_eq offset
  have hoffset : offset + byteLength (gap ++ '\n' :: gap') =
      offset + byteLength gap + 1 + byteLength gap' := by
    simp only [byteLength_append, byteLength_cons, hfeed]
    omega
  rw [hoffset, ← hskip, List.append_assoc, List.cons_append] at hfirst
  have hnext : nextLexeme lines ⟨offset, gap ++ '\n' :: (gap' ++ rest)⟩ =
      nextLexeme lines ⟨offset + byteLength gap + 1, gap' ++ rest⟩ := by
    rw [nextLexeme, nextLexeme, hfirst]
  rw [lexFrom_eq, hnext, ← lexFrom_eq]

/-- A lexeme is read in front of a line feed as it is read without it. -/
theorem lexFrom_of_ok_newline {gap rest : List Char} {c : Char} (h : Passes gap (c :: rest))
    {lines : LineIndex} {offset : Nat} {l : Lexeme}
    (hread : readLexeme lines (offset + byteLength gap) (longestMatch c rest) = .ok l)
    (t : List Char) :
    lexFrom lines ⟨offset, gap ++ c :: rest ++ '\n' :: t⟩ =
      let later := lexFrom lines ⟨l.span.stop, (longestMatch c rest).rest ++ '\n' :: t⟩
      ⟨l :: later.lexemes, later.failure⟩ := by
  obtain ⟨hstring, hcomment⟩ := ends_of_readLexeme hread
  have hopen : ¬['/', '*'] <+: c :: rest := by
    rintro ⟨inside, hinside⟩
    obtain ⟨rfl, rfl⟩ : '/' = c ∧ '*' :: inside = rest := by simpa using hinside
    exact hcomment (longestMatch_comment inside)
  have hmatch := longestMatch_append_newline hstring hcomment t
  have hpasses : Passes gap (c :: (rest ++ '\n' :: t)) :=
    h.append_newline (List.cons_ne_nil c rest) hopen t
  rw [← readLexeme_before lines _ _ ('\n' :: t), ← hmatch] at hread
  have hlexed := lexFrom_of_ok hpasses hread
  rw [hmatch] at hlexed
  rwa [List.append_assoc, List.cons_append]

/-- What lexes keeps its lexemes when a line feed and more text come behind it. -/
theorem lexFrom_append_newline {source before s : List Char} (hsource : source = before ++ s)
    (h : (lexFrom (.ofChars source) ⟨byteLength before, s⟩).failure = none) (t : List Char) :
    lexFrom (.ofChars (source ++ '\n' :: t)) ⟨byteLength before, s ++ '\n' :: t⟩ =
      let later := lexFrom (.ofChars (source ++ '\n' :: t)) ⟨byteLength source + 1, t⟩
      ⟨(lexFrom (.ofChars source) ⟨byteLength before, s⟩).lexemes ++ later.lexemes,
        later.failure⟩ := by
  induction hn : s.length using Nat.strong_induction_on generalizing before s with
  | _ n ih =>
    obtain hall | ⟨gap, c, rest, rfl, hpasses⟩ := exists_passes s
    · rw [lexFrom_newline hall, lexFrom_of_passes_all hall, hsource, byteLength_append]
      rfl
    cases hread : readLexeme (.ofChars source) (byteLength before + byteLength gap)
        (longestMatch c rest) with
    | error e =>
      rw [lexFrom_of_error hpasses hread] at h
      cases h
    | ok l =>
      have hline : (LineIndex.ofChars (source ++ '\n' :: t)).line
          (byteLength before + byteLength gap) =
            (LineIndex.ofChars source).line (byteLength before + byteLength gap) := by
        rw [hsource, ← List.append_assoc before, ← byteLength_append, line_append_right]
      have hread' := (readLexeme_of_line hline (longestMatch c rest)).trans hread
      obtain ⟨behind, hnext, hstop, hshorter⟩ := next_of_ok hsource hread
      rw [hn] at hshorter
      rw [lexFrom_of_ok hpasses hread, hstop] at h ⊢
      rw [lexFrom_of_ok_newline hpasses hread', hstop]
      have hlater := ih _ hshorter hnext h rfl
      simp only [hlater, List.cons_append]

/-! ## Further back -/

/-- A lexeme further back in the source, on a later line. -/
def Lexeme.shift (l : Lexeme) (offset lines : Nat) : Lexeme :=
  { l with span := l.span.shift offset, line := l.line + lines }

/-- A failure further back in the source, on a later line. -/
def LexicalError.shift (e : LexicalError) (offset lines : Nat) : LexicalError :=
  { e with span := e.span.shift offset, line := e.line + lines }

/-- What lexing gives further back in the source, on later lines. -/
def Lexing.shift (l : Lexing) (offset lines : Nat) : Lexing :=
  ⟨l.lexemes.map (·.shift offset lines), l.failure.map (·.shift offset lines)⟩

theorem readLexeme_shift {lines lines' : LineIndex} {offset n k : Nat}
    (h : lines'.line (offset + n) = lines.line offset + k) (m : Match) :
    readLexeme lines' (offset + n) m =
      match readLexeme lines offset m with
      | .ok l => .ok (l.shift n k)
      | .error e => .error (e.shift n k) := by
  have hstop : offset + n + byteLength m.text = offset + byteLength m.text + n := by omega
  simp only [readLexeme, h, hstop]
  cases m.pattern.read m.text <;> rfl

/-- What stands in front of a source moves what lexing gives, and changes nothing else. -/
theorem lexFrom_shift (front : List Char) {source before s : List Char}
    (hsource : source = before ++ s) :
    lexFrom (.ofChars (front ++ source)) ⟨byteLength before + byteLength front, s⟩ =
      (lexFrom (.ofChars source) ⟨byteLength before, s⟩).shift (byteLength front)
        (front.count '\n') := by
  induction hn : s.length using Nat.strong_induction_on generalizing before s with
  | _ n ih =>
    obtain hall | ⟨gap, c, rest, rfl, hpasses⟩ := exists_passes s
    · rw [lexFrom_of_passes_all hall, lexFrom_of_passes_all hall]
      rfl
    have hline : (LineIndex.ofChars (front ++ source)).line
        (byteLength before + byteLength gap + byteLength front) =
          (LineIndex.ofChars source).line (byteLength before + byteLength gap) +
            front.count '\n' := by
      rw [hsource, ← List.append_assoc before, ← byteLength_append, line_append_left]
    have hread' := readLexeme_shift hline (longestMatch c rest)
    rw [Nat.add_right_comm] at hread'
    cases hread : readLexeme (.ofChars source) (byteLength before + byteLength gap)
        (longestMatch c rest) with
    | error e =>
      rw [hread] at hread'
      rw [lexFrom_of_error hpasses hread, lexFrom_of_error hpasses hread']
      rfl
    | ok l =>
      rw [hread] at hread'
      obtain ⟨behind, hnext, hstop, hshorter⟩ := next_of_ok hsource hread
      rw [hn] at hshorter
      rw [lexFrom_of_ok hpasses hread, lexFrom_of_ok hpasses hread']
      have hlater := ih _ hshorter hnext rfl
      rw [← hstop] at hlater
      simp only [Lexeme.shift, Span.shift, hlater]
      rfl

/-! ## Whole sources -/

/-- A source that lexes, a line feed and another source give the lexemes of the first one, and then
what lexing gives for the second one, shifted by what stands in front of it. -/
theorem lexing_append_newline {front : String} (h : (lexing front).failure = none)
    (back : String) :
    lexing (front ++ "\n" ++ back) =
      let later := (lexing back).shift (front.utf8ByteSize + 1) (front.toList.count '\n' + 1)
      ⟨(lexing front).lexemes ++ later.lexemes, later.failure⟩ := by
  have hwhole : (front ++ "\n" ++ back).toList = front.toList ++ '\n' :: back.toList := by
    simp [String.toList_append]
  have hlength : byteLength (front.toList ++ ['\n']) = front.utf8ByteSize + 1 := by
    rw [byteLength_append, byteLength_toList]
    rfl
  have hcount : (front.toList ++ ['\n']).count '\n' = front.toList.count '\n' + 1 := by simp
  have hfront : lexFrom (.ofChars (front.toList ++ '\n' :: back.toList))
      ⟨0, front.toList ++ '\n' :: back.toList⟩ =
        let later := lexFrom (.ofChars (front.toList ++ '\n' :: back.toList))
          ⟨byteLength front.toList + 1, back.toList⟩
        ⟨(lexing front).lexemes ++ later.lexemes, later.failure⟩ :=
    lexFrom_append_newline (List.nil_append front.toList).symm h back.toList
  have hback : lexFrom (.ofChars (front.toList ++ '\n' :: back.toList))
      ⟨byteLength front.toList + 1, back.toList⟩ =
        (lexing back).shift (front.utf8ByteSize + 1) (front.toList.count '\n' + 1) := by
    have hshift := lexFrom_shift (front.toList ++ ['\n']) (List.nil_append back.toList).symm
    rw [hlength, hcount, List.append_assoc, byteLength_nil, Nat.zero_add] at hshift
    rw [byteLength_toList]
    exact hshift
  rw [hback] at hfront
  rw [lexing, LineIndex.ofSource, Place.start, hwhole]
  exact hfront

/-- A source that lexes, a line feed and another source lex as the first one and then, shifted by
what stands in front of it, as the second one, also where the second one fails. -/
theorem lex_append_newline {front : String} {lexemes : List Lexeme} (h : lex front = .ok lexemes)
    (back : String) :
    lex (front ++ "\n" ++ back) =
      match lex back with
      | .ok later => .ok (lexemes ++
          later.map (·.shift (front.utf8ByteSize + 1) (front.toList.count '\n' + 1)))
      | .error e => .error (e.shift (front.utf8ByteSize + 1) (front.toList.count '\n' + 1)) := by
  simp only [lex] at h
  split at h
  · rename_i hnone
    cases h
    rw [lex, lexing_append_newline hnone, lex]
    cases hfailure : (lexing back).failure <;> simp [Lexing.shift, hfailure]
  · cases h

/-- A quote in a comment that runs to the end of its line opens nothing, and the open one behind the
line feed is told of at its own place. -/
theorem lex_append_newline_comment :
    lex "w // \"" = .ok [⟨.identifier "w", ⟨0, 1⟩, 1⟩] ∧
      lex ("w // \"" ++ "\n" ++ "x \"") =
        .error ⟨.unterminatedString, ⟨9, 10⟩, 2, "\""⟩ := by
  have hfront : lex "w // \"" = .ok [⟨.identifier "w", ⟨0, 1⟩, 1⟩] := by decide +kernel
  have hback : lex "x \"" = .error ⟨.unterminatedString, ⟨2, 3⟩, 1, "\""⟩ := by decide +kernel
  refine ⟨hfront, ?_⟩
  rw [lex_append_newline hfront, hback]
  rfl

end Script

end FrameGraph
