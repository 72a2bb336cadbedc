import FrameGraph.Proofs.Script.Munch
import FrameGraph.Proofs.Script.Printing
import FrameGraph.Proofs.Source.Lines

/-!
# Tiling

The texts that lexing takes out of a source, up to and with the one it fails at, follow one another.
What lies between them is blank or a closed comment, so nothing of the source is lost and nothing is
read twice.
-/
namespace FrameGraph.Script

open Text

/-! ## Tiles -/

/-- Where something was taken out of the source, and the line that is told of it. -/
structure Tile where
  span : Span
  line : Nat

def Lexeme.tile (l : Lexeme) : Tile := ⟨l.span, l.line⟩

def LexicalError.tile (e : LexicalError) : Tile := ⟨e.span, e.line⟩

/-- All that is taken out of the source: the lexemes, and then the text of the failure. -/
def Lexing.tiles (l : Lexing) : List Tile :=
  l.lexemes.map Lexeme.tile ++ (l.failure.map LexicalError.tile).toList

/-- The tile of a text, with what stands before it in the source. -/
def Tile.of (before text : List Char) : Tile :=
  ⟨⟨byteLength before, byteLength (before ++ text)⟩, before.count '\n' + 1⟩

/-- The tiles of a text that has something before it: each is behind a gap and is not empty. When
the source has been read to its end, all that follows the last tile is a gap too. -/
inductive Tiles (toEnd : Prop) : List Char → List Char → List Tile → Prop where
  | last {before rest : List Char} (gap : toEnd → Passes rest []) : Tiles toEnd before rest []
  | tile {before gap text rest : List Char} {tiles : List Tile} (skipped : Passes gap (text ++ rest))
      (filled : text ≠ []) (later : Tiles toEnd (before ++ gap ++ text) rest tiles) :
      Tiles toEnd before (gap ++ (text ++ rest)) (.of (before ++ gap) text :: tiles)

variable {toEnd : Prop} {before rest : List Char} {tiles : List Tile}

/-- Every tile is cut out of the whole text, behind what comes before. -/
theorem Tiles.cut (h : Tiles toEnd before rest tiles) {t : Tile} (ht : t ∈ tiles) :
    ∃ front text behind, before ++ rest = front ++ text ++ behind ∧ text ≠ [] ∧ t = .of front text ∧
      byteLength before ≤ t.span.start := by
  induction h with
  | last => cases ht
  | @tile before gap text rest tiles skipped filled later ih =>
    rcases List.mem_cons.mp ht with rfl | hmem
    · exact ⟨before ++ gap, text, rest, by simp, filled, rfl, by simp [Tile.of]⟩
    · obtain ⟨front, inner, behind, hwhole, hinner, hof, hle⟩ := ih hmem
      refine ⟨front, inner, behind, by rw [← hwhole]; simp, hinner, hof, ?_⟩
      simp only [byteLength_append] at hle
      omega

/-- Every tile ends where a later one starts, or before. -/
theorem Tiles.apart (h : Tiles toEnd before rest tiles) :
    tiles.Pairwise fun a b => a.span.stop ≤ b.span.start := by
  induction h with
  | last => exact .nil
  | tile skipped filled later ih =>
    refine List.pairwise_cons.mpr ⟨fun t ht => ?_, ih⟩
    obtain ⟨-, -, -, -, -, -, hle⟩ := later.cut ht
    exact hle

theorem Tiles.length_le (h : Tiles toEnd before rest tiles) : tiles.length ≤ rest.length := by
  induction h with
  | last => simp
  | tile skipped filled later ih =>
    have := List.length_pos_of_ne_nil filled
    simp only [List.length_cons, List.length_append]
    omega

/-! ## What is taken -/

/-- A place between two characters of the source. -/
theorem isValid_of_append {source : String} {front behind : List Char}
    (h : source.toList = front ++ behind) : String.Pos.Raw.IsValid source ⟨byteLength front⟩ := by
  rw [String.Pos.Raw.isValid_iff_exists_append]
  refine ⟨String.ofList front, String.ofList behind, ?_, ?_⟩
  · rw [← String.ofList_append, ← h, String.ofList_toList]
  · rw [String.Pos.Raw.ext_iff, String.byteIdx_rawEndPos, ← byteLength_toList, String.toList_ofList]

theorem Munch.text_ne_nil {p : Pattern} {text later : List Char} (h : Munch p text later) :
    text ≠ [] := by
  obtain ⟨c, rest, rfl, -⟩ := lead_of_mem_language h.declared
  simp

/-- A lexeme is taken from the front of what stands there, and lexing goes on behind it. -/
theorem Stands.taken {lines : LineIndex} {offset : Nat} {s : List Char} {l : Lexeme} {next : Place}
    (h : Stands lines offset s (some (.ok (l, next)))) :
    ∃ text, s = text ++ next.rest ∧ text ≠ [] ∧ next.offset = offset + byteLength text ∧
      l.tile = ⟨⟨offset, offset + byteLength text⟩, lines.line offset⟩ := by
  cases h with
  | @token p text later t munch read => exact ⟨text, rfl, munch.text_ne_nil, rfl, rfl⟩

/-- What lexing fails at is at the front of what stands there. -/
theorem Stands.failed {lines : LineIndex} {offset : Nat} {s : List Char} {e : LexicalError}
    (h : Stands lines offset s (some (.error e))) :
    ∃ text behind, s = text ++ behind ∧ text ≠ [] ∧
      e.tile = ⟨⟨offset, offset + byteLength text⟩, lines.line offset⟩ := by
  cases h with
  | @fault p text later fault munch comment read => exact ⟨text, later, rfl, munch.text_ne_nil, rfl⟩
  | comment munch unclosed => exact ⟨_, [], (List.append_nil _).symm, by simp, rfl⟩
  | @stray c later none => exact ⟨[c], later, rfl, by simp, by simp [LexicalError.tile]⟩

/-- The tile of a text of the source is the one at its offset, on the line of this offset. -/
theorem tile_of {source : String} {before text behind : List Char}
    (h : source.toList = before ++ text ++ behind) :
    (⟨⟨byteLength before, byteLength before + byteLength text⟩,
      (LineIndex.ofSource source).line (byteLength before)⟩ : Tile) = .of before text := by
  rw [LineIndex.ofSource, h, List.append_assoc, LineIndex.line_of_prefix, Tile.of,
    byteLength_append]

/-- Lexing from a place on tiles what is left of the source. -/
theorem lexFrom_tiles (source : String) (place : Place) :
    ∀ before, source.toList = before ++ place.rest → place.offset = byteLength before →
      Tiles ((lexFrom (.ofSource source) place).failure = none) before place.rest
        (lexFrom (.ofSource source) place).tiles := by
  fun_induction lexFrom (.ofSource source) place with
  | case1 place hnone =>
    intro before hsource hoffset
    obtain ⟨gap, rest, hrest, hpasses, hstands⟩ := stands_nextLexeme (.ofSource source) place
    rw [hnone] at hstands
    cases hstands
    refine .last fun _ => ?_
    rwa [hrest, List.append_nil]
  | case2 place e hread =>
    intro before hsource hoffset
    obtain ⟨gap, rest, hrest, hpasses, hstands⟩ := stands_nextLexeme (.ofSource source) place
    rw [hread, hoffset, ← byteLength_append] at hstands
    obtain ⟨text, behind, rfl, hfilled, htile⟩ := hstands.failed
    have hwhole : source.toList = before ++ gap ++ text ++ behind := by
      rw [hsource, hrest]
      simp
    rw [tile_of hwhole] at htile
    rw [hrest, Lexing.tiles, List.map_nil, List.nil_append, Option.map_some, htile]
    exact .tile hpasses hfilled (.last fun h => absurd h (Option.some_ne_none _))
  | case3 place l next hread later ih =>
    intro before hsource hoffset
    obtain ⟨gap, rest, hrest, hpasses, hstands⟩ := stands_nextLexeme (.ofSource source) place
    rw [hread, hoffset, ← byteLength_append] at hstands
    obtain ⟨text, rfl, hfilled, hnext, htile⟩ := hstands.taken
    have hwhole : source.toList = before ++ gap ++ text ++ next.rest := by
      rw [hsource, hrest]
      simp
    rw [tile_of hwhole] at htile
    rw [hrest, Lexing.tiles, List.map_cons, List.cons_append, htile]
    exact .tile hpasses hfilled (ih _ hwhole (by rw [hnext, byteLength_append _ text]))

/-! ## One lexeme at a time -/

/-- What the reader tells at a call, when the lexing is this one. -/
def Lexing.call (l : Lexing) (n : Nat) : Except LexicalError (Option Lexeme) :=
  match l.lexemes[n]?, l.failure with
  | some lexeme, _ => .ok (some lexeme)
  | none, none => .ok none
  | none, some e => .error e

namespace Cursor

theorem next_of_failure {c : Cursor} {e : LexicalError} (h : c.failure = some e) :
    c.next = (.error e, c) := by
  simp [Cursor.next, h]

/-- What a reader tells in some number of calls from now on is what lexing gives there. -/
theorem next_iterate {c : Cursor} (hc : c.failure = none) (n : Nat) :
    ((fun c : Cursor => c.next.2)^[n] c).next.1 = (lexFrom c.lines c.place).call n := by
  induction n generalizing c with
  | zero =>
    rw [lexFrom_eq, Function.iterate_zero_apply, Cursor.next, hc]
    cases nextLexeme c.lines c.place with
    | none => rfl
    | some result => cases result <;> rfl
  | succ n ih =>
    rw [Function.iterate_succ_apply]
    cases hread : nextLexeme c.lines c.place with
    | none =>
      have hsame : c.next.2 = c := by simp [Cursor.next, hc, hread]
      rw [hsame, ih hc, lexFrom_eq, hread]
      rfl
    | some result =>
      cases result with
      | error e =>
        have hfailed : c.next.2.failure = some e := by simp [Cursor.next, hc, hread]
        have hfixed := Function.iterate_fixed (f := fun c : Cursor => c.next.2)
          (x := c.next.2) (by rw [next_of_failure hfailed]) n
        rw [hfixed, next_of_failure hfailed, lexFrom_eq, hread]
        rfl
      | ok taken =>
        have hnext : c.next.2 = { c with place := taken.2 } := by simp [Cursor.next, hc, hread]
        have hgoes : c.next.2.failure = none := by rw [hnext, hc]
        rw [ih hgoes, hnext, lexFrom_eq c.lines c.place, hread]
        rfl

theorem after_eq_iterate (source : String) (n : Nat) :
    after source n = (fun c : Cursor => c.next.2)^[n] (.start source) := by
  induction n with
  | zero => rfl
  | succ n ih => rw [Function.iterate_succ_apply', ← ih, after]

end Cursor

/-! ## The tiling of a source -/

/-- What is taken out of a source tiles it. -/
structure Tiled (source : String) (l : Lexing) : Prop where
  /-- Between the tiles there are gaps, and behind the last one if lexing comes to the end. -/
  covers : Tiles (l.failure = none) [] source.toList l.tiles
  filled : ∀ t ∈ l.tiles, t.span.start < t.span.stop
  increasing : l.tiles.Pairwise fun a b =>
    a.span.start < b.span.start ∧ a.span.stop < b.span.stop
  apart : l.tiles.Pairwise fun a b => a.span.stop ≤ b.span.start
  within : ∀ t ∈ l.tiles, t.span.stop ≤ source.utf8ByteSize
  boundaries : ∀ t ∈ l.tiles, String.Pos.Raw.IsValid source ⟨t.span.start⟩ ∧
    String.Pos.Raw.IsValid source ⟨t.span.stop⟩
  lines : ∀ t ∈ l.tiles, ∃ before behind, source.toList = before ++ behind ∧
    t.span.start = byteLength before ∧ t.line = before.count '\n' + 1

theorem Tiled.of_covers {source : String} {l : Lexing}
    (h : Tiles (l.failure = none) [] source.toList l.tiles) : Tiled source l := by
  have hcut : ∀ t ∈ l.tiles, ∃ front text behind,
      source.toList = front ++ text ++ behind ∧ text ≠ [] ∧ t = .of front text := by
    intro t ht
    obtain ⟨front, text, behind, hwhole, hfilled, hof, -⟩ := h.cut ht
    exact ⟨front, text, behind, hwhole, hfilled, hof⟩
  have hfilled : ∀ t ∈ l.tiles, t.span.start < t.span.stop := by
    intro t ht
    obtain ⟨front, text, -, -, htext, rfl⟩ := hcut t ht
    have := byteLength_pos htext
    simp only [Tile.of, byteLength_append]
    omega
  refine ⟨h, hfilled, ?_, h.apart, fun t ht => ?_, fun t ht => ?_, fun t ht => ?_⟩
  · refine h.apart.imp_of_mem fun {a b} ha hb hle => ?_
    have hstart := hfilled a ha
    have hstop := hfilled b hb
    omega
  · obtain ⟨front, text, behind, hwhole, -, rfl⟩ := hcut t ht
    rw [← byteLength_toList, hwhole, byteLength_append]
    exact Nat.le_add_right _ _
  · obtain ⟨front, text, behind, hwhole, -, rfl⟩ := hcut t ht
    exact ⟨isValid_of_append (hwhole.trans (List.append_assoc _ _ _)), isValid_of_append hwhole⟩
  · obtain ⟨front, text, behind, hwhole, -, rfl⟩ := hcut t ht
    exact ⟨front, text ++ behind, hwhole.trans (List.append_assoc _ _ _), rfl, rfl⟩

/-- The lexemes of a source and its failure tile it: they are filled and increasing, and what is
passed over before, between and behind them is blank or a closed comment. There are at most as many
as the source has characters, and a reader gives them one after another, before it tells of the end
or of the failure again and again. -/
theorem lexing_tiles (source : String) :
    Tiled source (lexing source) ∧ (lexing source).tiles.length ≤ source.toList.length ∧
    ∀ n, (Cursor.after source n).next.1 = (lexing source).call n := by
  have hcovers : Tiles ((lexing source).failure = none) [] source.toList (lexing source).tiles :=
    lexFrom_tiles source (.start source) [] rfl rfl
  refine ⟨.of_covers hcovers, hcovers.length_le, fun n => ?_⟩
  rw [Cursor.after_eq_iterate, Cursor.next_iterate rfl, Cursor.start, lexing]

end FrameGraph.Script
