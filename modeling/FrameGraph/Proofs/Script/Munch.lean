import FrameGraph.Proofs.Script.Longest

/-!
# Maximal munch

What stands at a place of a source is found character by character, but it is what the declared
patterns say: blanks, line comments and closed block comments are passed over, and then the longest
text in the language of any pattern is taken.
-/
namespace FrameGraph.Script

open Text

/-! ## What is passed over -/

/-- Between two lexemes: what is passed over in front of what comes next. A line comment ends with
its line or with the text, a block comment at the first end behind its opening, and what comes next
is neither blank nor a comment, unless it is a block comment without an end. -/
inductive Passes : List Char → List Char → Prop where
  | stop {rest : List Char} (blank : ∀ c ∈ rest.head?, isBlank c = false)
      (line : ¬['/', '/'] <+: rest)
      (block : ∀ later, rest = '/' :: '*' :: later → ¬['*', '/'] <:+: later) : Passes [] rest
  | blank {c : Char} {gap rest : List Char} (h : isBlank c = true) (later : Passes gap rest) :
      Passes (c :: gap) rest
  | line {body gap rest : List Char} (within : '\n' ∉ body)
      (ends : ∀ c ∈ (gap ++ rest).head?, c = '\n') (later : Passes gap rest) :
      Passes ('/' :: '/' :: body ++ gap) rest
  | block {body gap rest : List Char} (within : ¬['*', '/'] <:+: body ++ ['*'])
      (later : Passes gap rest) : Passes ('/' :: '*' :: body ++ '*' :: '/' :: gap) rest

theorem skipLine_eq_skip (offset : Nat) (s : List Char) :
    skipLine offset s =
      skip (offset + byteLength (s.takeWhile (· ≠ '\n'))) (s.dropWhile (· ≠ '\n')) := by
  induction s generalizing offset with
  | nil => simp [skipLine, skip]
  | cons c s ih =>
    rw [skipLine]
    split_ifs with hc
    · obtain rfl := hc
      simp [skip_of_ne, isBlank]
    · rw [List.takeWhile_cons_of_pos (by simpa using hc),
        List.dropWhile_cons_of_pos (by simpa using hc), ih, byteLength_cons, Nat.add_assoc]

theorem skipBlock_cons {c : Char} {s : List Char} (h : ¬['*', '/'] <+: c :: s) (opening : Place)
    (offset : Nat) :
    skipBlock opening offset (c :: s) = skipBlock opening (offset + c.utf8Size) s := by
  rw [skipBlock.eq_def]
  split
  · rename_i heq
    rw [heq] at h
    exact absurd (List.prefix_append ['*', '/'] _) h
  · rename_i heq
    obtain ⟨rfl, rfl⟩ := List.cons.inj heq
    rfl
  · rename_i heq
    cases heq

/-- A block comment goes on to its first end, or it has none. -/
theorem skipBlock_cases (s : List Char) :
    (∃ body later, s = body ++ '*' :: '/' :: later ∧ ¬['*', '/'] <:+: body ++ ['*'] ∧
      ∀ opening offset, skipBlock opening offset s = skip (offset + byteLength body + 2) later) ∨
    ¬['*', '/'] <:+: s ∧ ∀ opening offset, skipBlock opening offset s = opening := by
  induction s with
  | nil => exact .inr ⟨by simp, fun _ _ => by rw [skipBlock]⟩
  | cons c s ih =>
    by_cases hend : ['*', '/'] <+: c :: s
    · obtain ⟨later, hlater⟩ := hend
      obtain ⟨rfl, rfl⟩ : '*' = c ∧ '/' :: later = s := by simpa using hlater
      refine .inl ⟨[], later, rfl, ?_, fun opening offset => by rw [skipBlock]; rfl⟩
      intro hinfix
      have hlength := hinfix.length_le
      simp at hlength
    · rcases ih with ⟨body, later, rfl, hwithin, hskip⟩ | ⟨hnone, hskip⟩
      · refine .inl ⟨c :: body, later, rfl, ?_, fun opening offset => ?_⟩
        · rw [List.cons_append, List.infix_cons_iff, not_or]
          refine ⟨fun hclosed => hend (hclosed.trans ?_), hwithin⟩
          exact ⟨'/' :: later, by simp⟩
        · rw [skipBlock_cons hend, hskip, byteLength_cons, Nat.add_assoc offset]
      · refine .inr ⟨?_, fun opening offset => by rw [skipBlock_cons hend, hskip]⟩
        rw [List.infix_cons_iff, not_or]
        exact ⟨hend, hnone⟩

theorem skip_of_not_comment {c : Char} {s : List Char} (hline : ¬['/', '/'] <+: c :: s)
    (hblock : ¬['/', '*'] <+: c :: s) (offset : Nat) :
    skip offset (c :: s) = if isBlank c then skip (offset + 1) s else ⟨offset, c :: s⟩ := by
  rw [skip.eq_def]
  split
  · rename_i heq
    rw [heq] at hline
    exact absurd (List.prefix_append ['/', '/'] _) hline
  · rename_i heq
    rw [heq] at hblock
    exact absurd (List.prefix_append ['/', '*'] _) hblock
  · rename_i heq
    obtain ⟨rfl, rfl⟩ := List.cons.inj heq
    rfl
  · rename_i heq
    cases heq

/-- Skipping passes over what stands between lexemes, and over all of it. -/
theorem passes_skip (offset : Nat) (s : List Char) :
    ∃ gap rest, s = gap ++ rest ∧ skip offset s = ⟨offset + byteLength gap, rest⟩ ∧
      Passes gap rest := by
  have hslash : '/'.utf8Size = 1 := rfl
  have hstar : '*'.utf8Size = 1 := rfl
  induction hn : s.length using Nat.strong_induction_on generalizing s offset with
  | _ n ih =>
    cases s with
    | nil => exact ⟨[], [], rfl, by simp [skip], .stop (by simp) (by simp) (by simp)⟩
    | cons c s =>
      by_cases hline : ['/', '/'] <+: c :: s
      · obtain ⟨text, htext⟩ := hline
        obtain ⟨rfl, rfl⟩ : '/' = c ∧ '/' :: text = s := by simpa using htext
        have hlength := dropWhile_length (· ≠ '\n') text
        obtain ⟨gap, rest, hdrop, hrest, hpasses⟩ := ih (text.dropWhile (· ≠ '\n')).length
          (by simp only [List.length_cons] at hn; omega)
          (offset + 2 + byteLength (text.takeWhile (· ≠ '\n'))) (text.dropWhile (· ≠ '\n')) rfl
        have hends : ∀ c ∈ (gap ++ rest).head?, c = '\n' := by
          intro c hc
          rw [← hdrop] at hc
          have hnot := List.head?_dropWhile_not (· ≠ '\n') text
          rw [Option.mem_def.mp hc] at hnot
          simpa using hnot
        refine ⟨'/' :: '/' :: text.takeWhile (· ≠ '\n') ++ gap, rest, ?_, ?_,
          .line ?_ hends hpasses⟩
        · rw [List.append_assoc, ← hdrop]
          simp
        · rw [skip, skipLine_eq_skip, hrest]
          simp [hslash]
          omega
        · intro hmem
          simpa using List.mem_takeWhile_imp hmem
      by_cases hblock : ['/', '*'] <+: c :: s
      · obtain ⟨inside, hinside⟩ := hblock
        obtain ⟨rfl, rfl⟩ : '/' = c ∧ '*' :: inside = s := by simpa using hinside
        rcases skipBlock_cases inside with ⟨body, later, rfl, hwithin, hskip⟩ | ⟨hnone, hskip⟩
        · obtain ⟨gap, rest, rfl, hrest, hpasses⟩ :=
            ih later.length (by simp at hn; omega) (offset + 2 + byteLength body + 2) later rfl
          refine ⟨'/' :: '*' :: body ++ '*' :: '/' :: gap, rest, by simp, ?_,
            .block hwithin hpasses⟩
          rw [skip, hskip, hrest]
          simp [hslash, hstar]
          omega
        · refine ⟨[], _, rfl, by rw [skip, hskip]; rfl, .stop (by simp [isBlank]) hline ?_⟩
          rintro later heq
          obtain rfl : inside = later := by simpa using heq
          exact hnone
      rw [skip_of_not_comment hline hblock]
      split_ifs with hblank
      · obtain ⟨gap, rest, rfl, hrest, hpasses⟩ :=
          ih s.length (by simp at hn; omega) (offset + 1) s rfl
        refine ⟨c :: gap, rest, rfl, ?_, .blank hblank hpasses⟩
        rw [hrest, byteLength_cons, utf8Size_of_isBlank hblank, Nat.add_assoc]
      · refine ⟨[], c :: s, rfl, rfl, .stop (forall_head?_cons (by simpa using hblank)) hline ?_⟩
        rintro later heq
        exact absurd ⟨later, heq.symm⟩ hblock

/-! ## What stands at a place -/

/-- What the declared patterns make of the text at an offset: the token that the pattern of the
longest text gives, or its fault, at the place of this text. An opened comment is told of with all
that follows, and a text of no pattern with one character. -/
inductive Stands (lines : LineIndex) (offset : Nat) :
    List Char → Option (Except LexicalError (Lexeme × Place)) → Prop where
  | finished : Stands lines offset [] none
  | token {p : Pattern} {text later : List Char} {t : Token} (munch : Munch p text later)
      (read : p.read text = .ok t) :
      Stands lines offset (text ++ later) (some (.ok
        (⟨t, ⟨offset, offset + byteLength text⟩, lines.line offset⟩,
          ⟨offset + byteLength text, later⟩)))
  | fault {p : Pattern} {text later : List Char} {e : LexicalFault} (munch : Munch p text later)
      (comment : p ≠ .openComment) (read : p.read text = .error e) :
      Stands lines offset (text ++ later) (some (.error
        ⟨e, ⟨offset, offset + byteLength text⟩, lines.line offset,
          String.ofList (text.take shownLength)⟩))
  | comment {later : List Char} (munch : Munch .openComment ['/', '*'] later)
      (unclosed : ¬['*', '/'] <:+: later) :
      Stands lines offset ('/' :: '*' :: later) (some (.error
        ⟨.unterminatedComment, ⟨offset, offset + byteLength ('/' :: '*' :: later)⟩,
          lines.line offset, String.ofList (('/' :: '*' :: later).take shownLength)⟩))
  | stray {c : Char} {later : List Char}
      (none : ∀ (q : Pattern) (t : List Char), t ∈ q.language → ¬t <+: c :: later) :
      Stands lines offset (c :: later) (some (.error
        ⟨.unexpectedCharacter, ⟨offset, offset + c.utf8Size⟩, lines.line offset,
          String.ofList [c]⟩))

theorem Passes.unclosed {gap rest later : List Char} (h : Passes gap rest)
    (hrest : rest = '/' :: '*' :: later) : ¬['*', '/'] <:+: later := by
  induction h with
  | stop _ _ block => exact block later hrest
  | blank _ _ ih => exact ih hrest
  | line _ _ _ ih => exact ih hrest
  | block _ _ ih => exact ih hrest

theorem stands_longestMatch (lines : LineIndex) (offset : Nat) {c : Char} {rest : List Char}
    (hunclosed : ∀ later, c :: rest = '/' :: '*' :: later → ¬['*', '/'] <:+: later) :
    Stands lines offset (c :: rest) (some ((readLexeme lines offset (longestMatch c rest)).map
      fun l => (l, ⟨l.span.stop, (longestMatch c rest).rest⟩))) := by
  have hwhole := longestMatch_append c rest
  by_cases hcomment : (longestMatch c rest).pattern = .openComment
  · obtain ⟨later, hlater, htext⟩ := longestMatch_of_comment hcomment
    have hmunch : Stands lines offset _ _ := .comment (munch_comment later) (hunclosed later hlater)
    simpa [readLexeme, hcomment, htext, hlater, Pattern.read, Except.map] using hmunch
  by_cases hstray : (longestMatch c rest).pattern = .stray
  · obtain ⟨htext, hnone⟩ := longestMatch_of_stray hstray
    have hone : Stands lines offset _ _ := .stray hnone
    simpa [readLexeme, hstray, htext, Pattern.read, Except.map, shownLength] using hone
  have hmunch := munch_longestMatch hcomment hstray
  cases hread : (longestMatch c rest).pattern.read (longestMatch c rest).text with
  | ok t =>
    have htoken : Stands lines offset _ _ := .token hmunch hread
    rw [hwhole] at htoken
    simpa [readLexeme, hread, Except.map] using htoken
  | error e =>
    have hfault : Stands lines offset _ _ := .fault hmunch hcomment hread
    rw [hwhole] at hfault
    simpa [readLexeme, hread, Except.map] using hfault

/-- What is read at a place is what the declared patterns make of the text behind the gap. -/
theorem stands_nextLexeme (lines : LineIndex) (place : Place) :
    ∃ gap rest, place.rest = gap ++ rest ∧ Passes gap rest ∧
      Stands lines (place.offset + byteLength gap) rest (nextLexeme lines place) := by
  obtain ⟨gap, rest, hrest, hskip, hpasses⟩ := passes_skip place.offset place.rest
  refine ⟨gap, rest, hrest, hpasses, ?_⟩
  simp only [nextLexeme, hskip]
  cases rest with
  | nil => exact .finished
  | cons c rest =>
    have h := stands_longestMatch lines (place.offset + byteLength gap) fun _ => hpasses.unclosed
    cases hread : readLexeme lines (place.offset + byteLength gap) (longestMatch c rest) <;>
      simpa [hread, Except.map] using h

/-! ## Along a source -/

/-- The places that are arrived at: the start of the source, and behind every lexeme. -/
inductive Arrives (source : String) : Place → Prop where
  | start : Arrives source (.start source)
  | next {place next : Place} {l : Lexeme} (h : Arrives source place)
      (read : nextLexeme (.ofSource source) place = some (.ok (l, next))) : Arrives source next

/-- The place is in the text: its offset is the length of what comes before. -/
def Place.In (place : Place) (source : String) : Prop :=
  ∃ before, source.toList = before ++ place.rest ∧ place.offset = byteLength before

theorem Place.In.skip {place : Place} {source : String} (h : place.In source)
    {gap rest : List Char} (hrest : place.rest = gap ++ rest) :
    Place.In ⟨place.offset + byteLength gap, rest⟩ source := by
  obtain ⟨before, hsource, hoffset⟩ := h
  exact ⟨before ++ gap, by rw [hsource, hrest, List.append_assoc], by simp [hoffset]⟩

theorem Place.In.next {source : String} {place next : Place} {l : Lexeme} (h : place.In source)
    {lines : LineIndex} (hread : nextLexeme lines place = some (.ok (l, next))) :
    next.In source := by
  obtain ⟨gap, rest, hrest, -, hstands⟩ := stands_nextLexeme lines place
  rw [hread] at hstands
  cases hstands with
  | @token p text later t munch read => exact (h.skip hrest).skip rfl

theorem Arrives.in_source {source : String} {place : Place} (h : Arrives source place) :
    place.In source := by
  induction h with
  | start => exact ⟨[], rfl, rfl⟩
  | next _ hread ih => exact ih.next hread

theorem lexFrom_arrives {source : String} {place : Place} (h : Arrives source place) :
    (∀ l ∈ (lexFrom (.ofSource source) place).lexemes, ∃ place next, Arrives source place ∧
      nextLexeme (.ofSource source) place = some (.ok (l, next))) ∧
    ∀ e, (lexFrom (.ofSource source) place).failure = some e → ∃ place, Arrives source place ∧
      nextLexeme (.ofSource source) place = some (.error e) := by
  fun_induction lexFrom (.ofSource source) place with
  | case1 place hnone => simp
  | case2 place e hread =>
    refine ⟨by simp, fun d hd => ?_⟩
    cases hd
    exact ⟨place, h, hread⟩
  | case3 place l next hread later ih =>
    obtain ⟨hlexemes, hfailure⟩ := ih (h.next hread)
    exact ⟨List.forall_mem_cons.mpr ⟨⟨place, next, h, hread⟩, hlexemes⟩, hfailure⟩

namespace Cursor

/-- A reader after some calls. -/
def after (source : String) : Nat → Cursor
  | 0 => .start source
  | n + 1 => (after source n).next.2

/-- A reader stands where lexing arrives, and keeps the failure that is read there. -/
structure Arrived (source : String) (c : Cursor) : Prop where
  lines : c.lines = .ofSource source
  place : Arrives source c.place
  failure : ∀ e, c.failure = some e → nextLexeme (.ofSource source) c.place = some (.error e)

theorem Arrived.next {source : String} {c : Cursor} (h : Arrived source c) :
    Arrived source c.next.2 := by
  unfold Cursor.next
  split
  · exact h
  · rename_i hfailure
    split
    · exact h
    · rename_i e hread
      refine ⟨h.lines, h.place, fun d hd => ?_⟩
      cases hd
      rwa [← h.lines]
    · rename_i l place hread
      rw [h.lines] at hread
      exact ⟨h.lines, h.place.next hread, fun e he => by simp [hfailure] at he⟩

theorem arrived (source : String) (n : Nat) : Arrived source (after source n) := by
  induction n with
  | zero => exact ⟨rfl, .start, fun e he => by cases he⟩
  | succ n ih => exact ih.next

/-- What a reader tells of what is read at a place. -/
def told : Option (Except LexicalError (Lexeme × Place)) → Except LexicalError (Option Lexeme)
  | none => .ok none
  | some (.error e) => .error e
  | some (.ok (l, _)) => .ok (some l)

theorem Arrived.told {source : String} {c : Cursor} (h : Arrived source c) :
    c.next.1 = Cursor.told (nextLexeme (.ofSource source) c.place) := by
  unfold Cursor.next
  split
  · rename_i e he
    rw [h.failure e he]
    rfl
  · rw [h.lines]
    split <;> simp_all [Cursor.told]

end Cursor

/-- Wherever lexing arrives in a source, it passes over blanks and closed comments and then takes
the longest text that any declared pattern has, as the token or the fault of that pattern. All
lexemes of the source, and its failure, are taken in this way, at once or one at a time. -/
theorem lexing_munches (source : String) :
    (∀ place, Arrives source place → ∃ before gap rest,
      source.toList = before ++ gap ++ rest ∧ place = ⟨byteLength before, gap ++ rest⟩ ∧
      Passes gap rest ∧ Stands (.ofSource source) (byteLength (before ++ gap)) rest
        (nextLexeme (.ofSource source) place)) ∧
    (∀ l ∈ (lexing source).lexemes, ∃ place next, Arrives source place ∧
      nextLexeme (.ofSource source) place = some (.ok (l, next))) ∧
    (∀ e, (lexing source).failure = some e → ∃ place, Arrives source place ∧
      nextLexeme (.ofSource source) place = some (.error e)) ∧
    ∀ n, ∃ place, Arrives source place ∧
      (Cursor.after source n).next.1 = Cursor.told (nextLexeme (.ofSource source) place) := by
  have harrives : Arrives source (.start source) := .start
  obtain ⟨hlexemes, hfailure⟩ := lexFrom_arrives harrives
  refine ⟨fun place harrives => ?_, hlexemes, hfailure, fun n => ?_⟩
  · obtain ⟨before, hsource, hoffset⟩ := harrives.in_source
    obtain ⟨gap, rest, hrest, hpasses, hstands⟩ := stands_nextLexeme (.ofSource source) place
    refine ⟨before, gap, rest, ?_, ?_, hpasses, ?_⟩
    · rw [hsource, hrest, List.append_assoc]
    · rw [← hoffset, ← hrest]
    · rwa [byteLength_append, ← hoffset]
  · exact ⟨_, (Cursor.arrived source n).place, (Cursor.arrived source n).told⟩

/-- The comment ends at its second star, since its first belongs to the opening; the number is
hexadecimal and ends in front of the point, though a real could start with its zero. -/
theorem lexing_munches_overlapping :
    Arrives "/*/ */0x1F.5" (.start "/*/ */0x1F.5") ∧
    ∃ before gap rest, "/*/ */0x1F.5".toList = before ++ gap ++ rest ∧
      Place.start "/*/ */0x1F.5" = ⟨byteLength before, gap ++ rest⟩ ∧ Passes gap rest ∧
      Stands (.ofSource "/*/ */0x1F.5") (byteLength (before ++ gap)) rest (some (.ok
        (⟨.literal (.integer 31), ⟨6, 10⟩, 1⟩, ⟨10, ['.', '5']⟩))) := by
  have hread : nextLexeme (.ofSource "/*/ */0x1F.5") (.start "/*/ */0x1F.5") = some (.ok
      (⟨.literal (.integer 31), ⟨6, 10⟩, 1⟩, ⟨10, ['.', '5']⟩)) := by
    cbv
  have harrives : Arrives "/*/ */0x1F.5" (.start "/*/ */0x1F.5") := .start
  refine ⟨harrives, ?_⟩
  rw [← hread]
  exact (lexing_munches "/*/ */0x1F.5").1 _ harrives

end FrameGraph.Script
