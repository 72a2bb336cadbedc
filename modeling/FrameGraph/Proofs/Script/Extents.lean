import FrameGraph.Proofs.Script.Isolation
import FrameGraph.Proofs.Script.Locality

/-!
# Extents

A statement reaches from the start of its first lexeme to the end of its last, and its names and
values, in order, are those of its lexemes, with their places. So the places of its parts are nested
as the parts are and do not overlap, and the text of its stretch, read alone, is this statement,
moved to the start.
-/
namespace FrameGraph

/-- Stretches inside another, none of them empty, each behind the one before it. -/
structure Span.Holds (outer : Span) (inner : List Span) : Prop where
  within : ∀ s ∈ inner, outer.start ≤ s.start ∧ s.stop ≤ outer.stop
  filled : ∀ s ∈ inner, s.start < s.stop
  apart : inner.Pairwise fun a b => a.stop ≤ b.start

namespace Span

/-- From the first stretch to the last. -/
def hull : List Span → Span
  | [] => .point 0
  | a :: later => a.through (later.getLastD a)

variable {outer : Span} {inner : List Span}

theorem Holds.sublist {fewer : List Span} (h : outer.Holds inner) (hfewer : fewer.Sublist inner) :
    outer.Holds fewer :=
  ⟨fun s hs => h.within s (hfewer.subset hs), fun s hs => h.filled s (hfewer.subset hs),
    h.apart.sublist hfewer⟩

theorem exists_mem_hull (h : inner ≠ []) :
    ∃ a ∈ inner, ∃ b ∈ inner, (hull inner).start = a.start ∧ (hull inner).stop = b.stop := by
  obtain ⟨a, later, rfl⟩ := List.exists_cons_of_ne_nil h
  refine ⟨a, List.mem_cons_self, later.getLastD a, ?_, rfl, rfl⟩
  exact List.getLastD_mem_cons

theorem stop_le_getLastD {a : Span} {later : List Span} (filled : ∀ s ∈ later, s.start < s.stop)
    (apart : (a :: later).Pairwise fun a b => a.stop ≤ b.start) :
    ∀ s ∈ a :: later, s.stop ≤ (later.getLastD a).stop := by
  induction later generalizing a with
  | nil => simp
  | cons b later ih =>
    obtain ⟨hb, hfilled⟩ := List.forall_mem_cons.mp filled
    obtain ⟨hab, hlater⟩ := List.pairwise_cons.mp apart
    have hrest := ih hfilled hlater
    rw [List.getLastD_cons]
    refine List.forall_mem_cons.mpr ⟨?_, hrest⟩
    have hnext := hab b List.mem_cons_self
    have hlast := hrest b List.mem_cons_self
    omega

/-- Stretches in order lie between the start of the first and the stop of the last. -/
theorem holds_hull (filled : ∀ s ∈ inner, s.start < s.stop)
    (apart : inner.Pairwise fun a b => a.stop ≤ b.start) : (hull inner).Holds inner := by
  refine ⟨fun s hs => ?_, filled, apart⟩
  cases inner with
  | nil => cases hs
  | cons a later =>
    obtain ⟨ha, hlater⟩ := List.forall_mem_cons.mp filled
    refine ⟨?_, stop_le_getLastD hlater apart s hs⟩
    rcases List.mem_cons.mp hs with rfl | hmem
    · exact Nat.le_refl _
    · have hbehind := (List.pairwise_cons.mp apart).1 s hmem
      simp only [hull, through]
      omega

theorem Holds.hull_holds {blocks : List (List Span)} (h : outer.Holds blocks.flatten)
    {block : List Span} (hblock : block ∈ blocks) : (hull block).Holds block := by
  have hsub := h.sublist (List.sublist_flatten_of_mem hblock)
  exact holds_hull hsub.filled hsub.apart

/-- Stretches that are held in order are held as the hulls of blocks of them. -/
theorem Holds.hulls {blocks : List (List Span)} (h : outer.Holds blocks.flatten)
    (hblocks : ∀ block ∈ blocks, block ≠ []) : outer.Holds (blocks.map hull) := by
  refine ⟨fun s hs => ?_, fun s hs => ?_, ?_⟩
  · obtain ⟨block, hblock, rfl⟩ := List.mem_map.mp hs
    obtain ⟨a, ha, b, hb, hstart, hstop⟩ := exists_mem_hull (hblocks block hblock)
    rw [hstart, hstop]
    exact ⟨(h.within a (List.mem_flatten.mpr ⟨block, hblock, ha⟩)).1,
      (h.within b (List.mem_flatten.mpr ⟨block, hblock, hb⟩)).2⟩
  · obtain ⟨block, hblock, rfl⟩ := List.mem_map.mp hs
    obtain ⟨a, ha, -⟩ := exists_mem_hull (hblocks block hblock)
    have hheld := (h.hull_holds hblock).within a ha
    have hfilled := (h.hull_holds hblock).filled a ha
    omega
  · rw [List.pairwise_map]
    refine (List.pairwise_flatten.mp h.apart).2.imp_of_mem fun {x y} hx hy hxy => ?_
    obtain ⟨-, -, b, hb, -, hstop⟩ := exists_mem_hull (hblocks x hx)
    obtain ⟨a, ha, -, -, hstart, -⟩ := exists_mem_hull (hblocks y hy)
    rw [hstop, hstart]
    exact hxy b hb a ha

end Span

namespace Script

open Text

/-! ## The parts of a statement -/

/-- A name or a value, with its place. -/
inductive Part where
  | name (identifier : Identifier)
  | value (literal : Literal)

def Part.span : Part → Span
  | name i => i.span
  | value l => l.span

/-- The part that a lexeme is. -/
def Lexeme.part? (l : Lexeme) : Option Part :=
  match l.token with
  | .identifier n => some (.name ⟨n, l.span⟩)
  | .literal v => some (.value ⟨v, l.span⟩)
  | _ => none

/-- The parts of the lexemes. -/
def partsOf (ls : List Lexeme) : List Part := ls.filterMap Lexeme.part?

def Path.parts (p : Path) : List Part := p.segments.map .name

def Assignment.parts (a : Assignment) : List Part := [.name a.parameter, .value a.literal]

/-- The parts of a statement: of its paths, and of each of its assignments. -/
def Statement.blocks (s : Statement) : List (List Part) :=
  s.target.parts :: s.source.parts :: s.assignments.map Assignment.parts

@[simp] theorem partsOf_append (ls ls' : List Lexeme) :
    partsOf (ls ++ ls') = partsOf ls ++ partsOf ls' := List.filterMap_append

@[simp] theorem partsOf_cons (l : Lexeme) (ls : List Lexeme) :
    partsOf (l :: ls) = l.part?.toList ++ partsOf ls := by
  cases h : l.part? <;> simp [partsOf, h]

theorem partsOf_span_sublist (ls : List Lexeme) :
    ((partsOf ls).map Part.span).Sublist (ls.map Lexeme.span) := by
  induction ls with
  | nil => exact .slnil
  | cons l ls ih =>
    obtain ⟨token, span, line⟩ := l
    cases token with
    | identifier n => exact .cons_cons _ ih
    | literal v => exact .cons_cons _ ih
    | _ => exact .cons _ ih

/-- Where the last of the lexemes stops. -/
def stopOf (ls : List Lexeme) : Option Nat := ls.getLast?.map (·.span.stop)

theorem stopOf_append {ls ls' : List Lexeme} (h : ls' ≠ []) : stopOf (ls ++ ls') = stopOf ls' := by
  rw [stopOf, List.getLast?_append_of_ne_nil _ h, stopOf]

theorem stopOf_cons (l : Lexeme) (ls : List Lexeme) :
    stopOf (l :: ls) = some ((stopOf ls).getD l.span.stop) := by
  rw [stopOf, List.getLast?_cons, Option.map_some, stopOf, Option.getD_map]

theorem readTail_parts {ls rest : List Lexeme} {tail : List Identifier}
    (h : readTail ls = .ok (tail, rest)) :
    ∃ pre, ls = pre ++ rest ∧ partsOf pre = tail.map .name ∧
      stopOf pre = tail.getLast?.map (·.span.stop) := by
  induction ls using readTail.induct generalizing tail with
  | case1 s₁ k₁ name s₂ k₂ ls ih =>
    simp only [readTail, bind_eq_ok] at h
    obtain ⟨⟨later, rest'⟩, hread, he⟩ := h
    cases he
    obtain ⟨pre, rfl, hparts, hstop⟩ := ih hread
    refine ⟨⟨.dot, s₁, k₁⟩ :: ⟨.identifier name, s₂, k₂⟩ :: pre, rfl, ?_, ?_⟩
    · simp [hparts, Lexeme.part?]
    · rw [stopOf_cons, stopOf_cons, hstop, List.getLast?_cons, Option.map_some, Option.getD_some]
      exact congrArg some (Option.getD_map (·.span.stop) (⟨name, s₂⟩ : Identifier) later.getLast?)
  | case2 s k ls hother =>
    rw [readTail.eq_2 s k ls hother] at h
    cases h
  | case3 ls hdotted hdot =>
    rw [readTail.eq_3 ls hdotted hdot] at h
    cases h
    exact ⟨[], rfl, rfl, rfl⟩

theorem readPath_parts {ls rest : List Lexeme} {p : Path} (h : readPath ls = .ok (p, rest)) :
    ∃ l pre, ls = l :: pre ++ rest ∧ partsOf (l :: pre) = p.parts ∧
      l.span.start = p.span.start ∧ stopOf (l :: pre) = some p.span.stop := by
  unfold readPath at h
  split at h
  · rename_i name span line ls
    rw [bind_eq_ok] at h
    obtain ⟨⟨tail, rest'⟩, hread, he⟩ := h
    cases he
    obtain ⟨pre, rfl, hparts, hstop⟩ := readTail_parts hread
    refine ⟨⟨.identifier name, span, line⟩, pre, rfl, ?_, rfl, ?_⟩
    · simp [hparts, Lexeme.part?, Path.parts, Path.segments]
    · rw [stopOf_cons, hstop, Path.span, Path.last, Span.through, List.getLastD_eq_getLast?]
      exact congrArg some (Option.getD_map (·.span.stop) (⟨name, span⟩ : Identifier) tail.getLast?)
  · cases h

theorem readAssignments_parts {ls rest : List Lexeme} {as : List Assignment} {stop : Nat}
    (h : readAssignments ls = .ok ((as, stop), rest)) :
    ∃ pre, ls = pre ++ rest ∧ partsOf pre = (as.map Assignment.parts).flatten ∧
      stopOf pre = some stop := by
  induction ls using readAssignments.induct generalizing as with
  | case1 n s₁ k₁ s₂ k₂ v s₃ k₃ s₄ k₄ ls ih =>
    simp only [readAssignments, bind_eq_ok] at h
    obtain ⟨⟨⟨later, stop'⟩, rest'⟩, hread, he⟩ := h
    cases he
    obtain ⟨pre, rfl, hparts, hstop⟩ := ih hread
    have hpre : pre ≠ [] := by
      rintro rfl
      cases hstop
    refine ⟨[⟨.identifier n, s₁, k₁⟩, ⟨.equals, s₂, k₂⟩, ⟨.literal v, s₃, k₃⟩, ⟨.comma, s₄, k₄⟩] ++
      pre, rfl, ?_, ?_⟩
    · simp [hparts, Lexeme.part?, Assignment.parts]
    · rw [stopOf_append hpre, hstop]
  | case2 n s₁ k₁ s₂ k₂ v s₃ k₃ close k₄ ls =>
    cases h
    exact ⟨[⟨.identifier n, s₁, k₁⟩, ⟨.equals, s₂, k₂⟩, ⟨.literal v, s₃, k₃⟩,
      ⟨.closeParen, close, k₄⟩], rfl, rfl, rfl⟩
  | case3 n s₁ k₁ s₂ k₂ v s₃ k₃ ls hcomma hclose =>
    rw [readAssignments.eq_3 n s₁ k₁ s₂ k₂ v s₃ k₃ ls hcomma hclose] at h
    cases h
  | case4 n s₁ k₁ s₂ k₂ ls h₁ h₂ h₃ =>
    rw [readAssignments.eq_4 n s₁ k₁ s₂ k₂ ls h₁ h₂ h₃] at h
    cases h
  | case5 n s₁ k₁ ls h₁ h₂ h₃ h₄ =>
    rw [readAssignments.eq_5 n s₁ k₁ ls h₁ h₂ h₃ h₄] at h
    cases h
  | case6 ls h₁ h₂ h₃ h₄ h₅ =>
    rw [readAssignments.eq_6 ls h₁ h₂ h₃ h₄ h₅] at h
    cases h

theorem readArguments_parts {ls rest : List Lexeme} {as : List Assignment} {stop : Nat}
    (h : readArguments ls = .ok ((as, stop), rest)) :
    ∃ pre, ls = pre ++ rest ∧ partsOf pre = (as.map Assignment.parts).flatten ∧
      stopOf pre = some stop := by
  unfold readArguments at h
  split at h
  · rename_i close line ls
    cases h
    exact ⟨[⟨.closeParen, close, line⟩], rfl, rfl, rfl⟩
  · exact readAssignments_parts h
  · cases h

/-- What follows the source path stops where the statement does, unless nothing follows it. -/
theorem readEnding_parts {source : Path} {ls : List Lexeme} {as : Option (List Assignment)}
    {stop : Nat} (h : readEnding source ls = .ok (as, stop)) :
    partsOf ls = ((as.getD []).map Assignment.parts).flatten ∧
      (stopOf ls).getD source.span.stop = stop := by
  unfold readEnding at h
  split at h
  · cases h
    exact ⟨rfl, rfl⟩
  · rw [bind_eq_ok] at h
    obtain ⟨⟨⟨as', stop'⟩, rest⟩, hread, he⟩ := h
    obtain ⟨pre, rfl, hparts, hstop⟩ := readArguments_parts hread
    cases rest with
    | nil =>
      cases he
      have hpre : pre ≠ [] := by
        rintro rfl
        cases hstop
      refine ⟨by simp [hparts, Lexeme.part?], ?_⟩
      rw [List.append_nil, ← List.singleton_append, stopOf_append hpre, hstop, Option.getD_some]
    | cons l rest => cases he
  · cases h

/-- The lexemes make the statement: its parts are theirs, and it reaches from the first of them to
the last. -/
structure Statement.MadeOf (s : Statement) (ls : List Lexeme) : Prop where
  parts : s.blocks.flatten = partsOf ls
  start : ls.head?.map (·.span.start) = some s.span.start
  stop : stopOf ls = some s.span.stop
  line : ls.head?.map Lexeme.line = some s.line

theorem readStatement_madeOf {ls : List Lexeme} {s : Statement} (h : readStatement ls = .ok s) :
    s.MadeOf ls := by
  simp only [readStatement, bind_eq_ok] at h
  obtain ⟨⟨target, rest⟩, htarget, h⟩ := h
  obtain ⟨l, pre, rfl, hpre, hstart, -⟩ := readPath_parts htarget
  simp only at h
  split at h
  · rename_i span line rest
    simp only [bind_eq_ok] at h
    obtain ⟨⟨source, rest⟩, hsource, ⟨arguments, stop⟩, hending, h⟩ := h
    obtain ⟨k, mid, rfl, hmid, -, hmidStop⟩ := readPath_parts hsource
    obtain ⟨hparts, hstop⟩ := readEnding_parts hending
    cases h
    refine ⟨?_, by simp [hstart, Statement.span], ?_, rfl⟩
    · rw [partsOf_append, hpre, partsOf_cons, partsOf_append, hmid, hparts]
      simp [Statement.blocks, Statement.assignments, Lexeme.part?]
    · subst hstop
      rw [stopOf_append (List.cons_ne_nil _ _), ← List.singleton_append,
        stopOf_append (by simp), Statement.span]
      cases rest with
      | nil => rw [List.append_nil, hmidStop]; rfl
      | cons r rest =>
        rw [stopOf_append (List.cons_ne_nil r rest), stopOf,
          List.getLast?_eq_some_getLast (List.cons_ne_nil r rest)]
        rfl
  · cases h

/-! ## What the parts determine -/

theorem blocks_map_length (s : Statement) :
    s.blocks.map List.length =
      s.clause.target.length :: s.clause.source.length ::
        (s.clause.arguments.getD []).map fun _ => 2 := by
  simp only [Statement.blocks, Statement.clause, Statement.assignments, List.map_cons, List.map_map]
  cases s.arguments <;> simp [Path.parts, Path.names, Assignment.parts, Function.comp_def]

theorem Path.parts_injective : Function.Injective Path.parts := by
  intro p q h
  have hname : Function.Injective Part.name := fun _ _ h => Part.name.inj h
  obtain ⟨hhead, htail⟩ := List.cons.inj (List.map_injective_iff.mpr hname h)
  cases p
  cases q
  simp_all

theorem Assignment.parts_injective : Function.Injective Assignment.parts := by
  rintro ⟨i, l⟩ ⟨j, m⟩ h
  simpa [Assignment.parts] using h

/-- Lexemes make one statement of a clause at most. -/
theorem Statement.MadeOf.unique {s t : Statement} {ls : List Lexeme} (hs : s.MadeOf ls)
    (ht : t.MadeOf ls) (hclause : s.clause = t.clause) : s = t := by
  have hblocks : s.blocks = t.blocks := by
    rw [List.eq_iff_flatten_eq, hs.parts, ht.parts, blocks_map_length, blocks_map_length, hclause]
    exact ⟨rfl, rfl⟩
  obtain ⟨htarget, hmore⟩ := List.cons.inj hblocks
  obtain ⟨hsource, hassignments⟩ := List.cons.inj hmore
  have hstop : s.stop = t.stop := Option.some.inj (hs.stop.symm.trans ht.stop)
  have hline : s.line = t.line := Option.some.inj (hs.line.symm.trans ht.line)
  have harguments : s.arguments.isSome = t.arguments.isSome := by
    have hsome := congrArg (·.arguments.isSome) hclause
    simpa [Statement.clause] using hsome
  have hlist := List.map_injective_iff.mpr Assignment.parts_injective hassignments
  obtain ⟨target, source, arguments, stop, line⟩ := s
  obtain ⟨target', source', arguments', stop', line'⟩ := t
  obtain rfl : target = target' := Path.parts_injective htarget
  obtain rfl : source = source' := Path.parts_injective hsource
  obtain rfl : stop = stop' := hstop
  obtain rfl : line = line' := hline
  cases arguments <;> cases arguments' <;> simp_all [Statement.assignments]

/-! ## Further back in the source -/

def Identifier.shift (i : Identifier) (offset : Nat) : Identifier :=
  { i with span := i.span.shift offset }

def Path.shift (p : Path) (offset : Nat) : Path :=
  ⟨p.head.shift offset, p.tail.map (·.shift offset)⟩

def Literal.shift (l : Literal) (offset : Nat) : Literal := { l with span := l.span.shift offset }

def Assignment.shift (a : Assignment) (offset : Nat) : Assignment :=
  ⟨a.parameter.shift offset, a.literal.shift offset⟩

/-- A statement with all its parts further back in the source, on a later line. -/
def Statement.shift (s : Statement) (offset lines : Nat) : Statement where
  target := s.target.shift offset
  source := s.source.shift offset
  arguments := s.arguments.map (·.map (·.shift offset))
  stop := s.stop + offset
  line := s.line + lines

def Part.shift (offset : Nat) : Part → Part
  | name i => .name (i.shift offset)
  | value l => .value (l.shift offset)

theorem partsOf_map_shift (ls : List Lexeme) (offset lines : Nat) :
    partsOf (ls.map (·.shift offset lines)) = (partsOf ls).map (Part.shift offset) := by
  induction ls with
  | nil => rfl
  | cons l ls ih =>
    obtain ⟨token, span, line⟩ := l
    rw [List.map_cons, partsOf_cons, partsOf_cons, ih, List.map_append]
    cases token <;> rfl

theorem blocks_shift (s : Statement) (offset lines : Nat) :
    (s.shift offset lines).blocks = s.blocks.map (·.map (Part.shift offset)) := by
  have hpath (p : Path) : (p.shift offset).parts = p.parts.map (Part.shift offset) := by
    simp [Path.parts, Path.shift, Path.segments, Part.shift]
  simp only [Statement.blocks, Statement.shift, Statement.assignments, hpath, List.map_cons]
  cases s.arguments <;> simp [Assignment.parts, Assignment.shift, Part.shift]

@[simp] theorem span_shift (s : Statement) (offset lines : Nat) :
    (s.shift offset lines).span = s.span.shift offset := rfl

@[simp] theorem line_shift (s : Statement) (offset lines : Nat) :
    (s.shift offset lines).line = s.line + lines := rfl

theorem clause_shift (s : Statement) (offset lines : Nat) :
    (s.shift offset lines).clause = s.clause := by
  have hpath (p : Path) : (p.shift offset).names = p.names := by
    simp [Path.names, Path.shift, Path.segments, Identifier.shift]
  simp only [Statement.clause, Statement.shift, hpath]
  cases s.arguments <;>
    simp [Assignment.content, Assignment.shift, Identifier.shift, Literal.shift]

theorem Statement.MadeOf.shift {s : Statement} {ls : List Lexeme} (h : s.MadeOf ls)
    (offset lines : Nat) : (s.shift offset lines).MadeOf (ls.map (·.shift offset lines)) where
  parts := by rw [blocks_shift, partsOf_map_shift, ← h.parts, List.map_flatten]
  start := by
    have hstart := h.start
    cases ls with
    | nil => cases hstart
    | cons l ls => simpa [Lexeme.shift, Span.shift] using hstart
  stop := by
    have hstop := h.stop
    simp only [stopOf, Option.map_eq_some_iff] at hstop
    obtain ⟨l, hlast, hspan⟩ := hstop
    rw [stopOf, List.getLast?_map, hlast]
    simp [Lexeme.shift, Span.shift, hspan]
  line := by
    have hline := h.line
    cases ls with
    | nil => cases hline
    | cons l ls => simpa [Lexeme.shift] using hline

/-! ## Statements in a source -/

/-- The places of a statement's parts: those of its paths and assignments are in the statement, in
order, and those of the names and values are in the path or the assignment, in order. -/
structure Statement.Nested (s : Statement) : Prop where
  whole : s.span.Holds (s.target.span :: s.source.span :: s.assignments.map Assignment.span)
  target : s.target.span.Holds (s.target.segments.map Identifier.span)
  source : s.source.span.Holds (s.source.segments.map Identifier.span)
  assignments : ∀ a ∈ s.assignments, a.span.Holds [a.parameter.span, a.literal.span]

/-- All names in a statement, in order. -/
def Statement.identifiers (s : Statement) : List Identifier :=
  s.target.segments ++ s.source.segments ++ s.assignments.map Assignment.parameter

theorem hull_path (p : Path) : Span.hull (p.parts.map Part.span) = p.span := by
  simp only [Path.parts, Path.segments, Path.span, Path.last, List.map_cons, List.map_map,
    Span.hull, List.getLastD_eq_getLast?, List.getLast?_map]
  exact congrArg p.head.span.through
    (Option.getD_map (Part.span ∘ Part.name) p.head p.tail.getLast?)

theorem Statement.MadeOf.hull_lexemes {s : Statement} {ls : List Lexeme} (h : s.MadeOf ls) :
    Span.hull (ls.map Lexeme.span) = s.span := by
  have hstart := h.start
  have hstop := h.stop
  cases ls with
  | nil => cases hstart
  | cons l ls =>
    have hlast : ((ls.map Lexeme.span).getLastD l.span).stop = (stopOf ls).getD l.span.stop := by
      rw [List.getLastD_eq_getLast?, List.getLast?_map, Option.getD_map, stopOf]
      exact (Option.getD_map (·.span.stop) l ls.getLast?).symm
    have hfirst : l.span.start = s.span.start := Option.some.inj hstart
    rw [stopOf_cons, Option.some.injEq] at hstop
    rw [List.map_cons, Span.hull, Span.through, hlast, hstop, hfirst]

theorem Statement.MadeOf.nested {s : Statement} {ls : List Lexeme} (h : s.MadeOf ls)
    (filled : ∀ l ∈ ls, l.span.start < l.span.stop)
    (apart : ls.Pairwise fun a b => a.span.stop ≤ b.span.start) : s.Nested := by
  have hlexemes : s.span.Holds (ls.map Lexeme.span) := by
    rw [← h.hull_lexemes]
    exact Span.holds_hull (by simpa using filled) (List.pairwise_map.mpr apart)
  have hparts : s.span.Holds (s.blocks.map (·.map Part.span)).flatten := by
    rw [← List.map_flatten, h.parts]
    exact hlexemes.sublist (partsOf_span_sublist ls)
  have hfilled : ∀ block ∈ s.blocks.map (·.map Part.span), block ≠ [] := by
    simp [Statement.blocks, Path.parts, Path.segments, Assignment.parts]
  have hwhole := hparts.hulls hfilled
  have hblocks := fun (block : List Span) (hblock : block ∈ s.blocks.map (·.map Part.span)) =>
    hparts.hull_holds hblock
  simp only [Statement.blocks, List.map_cons, List.map_map, List.forall_mem_cons, hull_path]
    at hwhole hblocks
  obtain ⟨htarget, hsource, hassignments⟩ := hblocks
  refine ⟨hwhole, ?_, ?_, fun a ha => ?_⟩
  · simpa [Path.parts, Function.comp_def, Part.span] using htarget
  · simpa [Path.parts, Function.comp_def, Part.span] using hsource
  · exact hassignments _ (List.mem_map.mpr ⟨a, ha, rfl⟩)

/-- The names of a statement are those of its lexemes, with their places. -/
theorem Statement.MadeOf.exists_lexeme {s : Statement} {ls : List Lexeme} (h : s.MadeOf ls)
    {i : Identifier} (hi : i ∈ s.identifiers) :
    ∃ l ∈ ls, l.token = .identifier i.name ∧ l.span = i.span := by
  have hmem : Part.name i ∈ partsOf ls := by
    rw [← h.parts]
    simp only [Statement.identifiers, List.mem_append, List.mem_map] at hi
    simp only [Statement.blocks, List.flatten_cons, List.mem_append, List.mem_flatten]
    rcases hi with (htarget | hsource) | ⟨a, ha, rfl⟩
    · exact .inl (List.mem_map_of_mem htarget)
    · exact .inr (.inl (List.mem_map_of_mem hsource))
    · exact .inr (.inr ⟨a.parts, List.mem_map_of_mem ha, List.mem_cons_self⟩)
  obtain ⟨⟨token, span, line⟩, hl, hpart⟩ := List.mem_filterMap.mp hmem
  refine ⟨_, hl, ?_⟩
  cases token <;> cases hpart
  exact ⟨rfl, rfl⟩

theorem eq_of_read_identifier {p : Pattern} {text : List Char} {name : String}
    (h : p.read text = .ok (.identifier name)) : name = String.ofList text := by
  cases p with
  | identifier =>
    obtain ⟨-, h⟩ := limited_eq_ok h
    cases h
    rfl
  | symbol =>
    simp only [Pattern.read, readSymbol] at h
    split at h <;> cases h
  | decimal =>
    obtain ⟨-, h⟩ := limited_eq_ok h
    simp only [readDecimal] at h
    split_ifs at h
    cases h
  | hexadecimal =>
    obtain ⟨-, h⟩ := limited_eq_ok h
    simp only [readHexadecimal] at h
    split_ifs at h
    cases h
  | real =>
    obtain ⟨-, h⟩ := limited_eq_ok h
    cases h
  | string =>
    obtain ⟨-, h⟩ := limited_eq_ok h
    unfold readString at h
    split at h <;> cases h
  | _ => cases h

/-- Lexemes further back are read as the same statement further back. -/
theorem exists_readStatement_of_shift {ls : List Lexeme} {offset lines : Nat} {s : Statement}
    (h : readStatement (ls.map (·.shift offset lines)) = .ok s) :
    ∃ t, readStatement ls = .ok t ∧ s = t.shift offset lines := by
  have htokens : (ls.map (·.shift offset lines)).map Lexeme.token = ls.map Lexeme.token := by
    rw [List.map_map]
    rfl
  have hspells := (readStatement_iff _ _).mp ⟨s, h, rfl⟩
  rw [htokens] at hspells
  obtain ⟨t, hread, hclause⟩ := (readStatement_iff _ _).mpr hspells
  have hshifted := (readStatement_madeOf hread).shift offset lines
  exact ⟨t, hread, (readStatement_madeOf h).unique hshifted (by rw [clause_shift, hclause])⟩

/-- Lexemes that are read as one statement are a program of it. -/
theorem parse_of_readStatement {source : String} {ls : List Lexeme} {s : Statement}
    (hlex : lex source = .ok ls) (h : readStatement ls = .ok s) :
    parse source = ⟨some ⟨[s], ⟨0, source.utf8ByteSize⟩⟩, []⟩ := by
  have hspells : List.Forall₂ Spells [ls] [s.clause] :=
    .cons ((readStatement_iff _ _).mp ⟨s, h, rfl⟩) .nil
  have hregions : regions ls = [ls] := by simpa using regions_of_spells hspells
  have hunit : DerivesUnit (ls.map Lexeme.token) [s.clause] := by
    simpa using derivesUnit_of_spells hspells
  obtain ⟨ss, hreads, -, hparse⟩ := parse_of_derivesUnit hlex hunit
  obtain rfl : ss = [s] := by
    have hinj : Function.Injective (Except.ok : Statement → Except Mismatch Statement) :=
      fun _ _ h => Except.ok.inj h
    rw [hregions, List.map_singleton, h] at hreads
    have hmap : [s].map Except.ok = ss.map Except.ok := hreads
    exact (List.map_injective_iff.mpr hinj hmap).symm
  exact hparse

/-- The stretch of a statement among the lexemes of a source, read alone, is this statement. -/
theorem parse_stretch {source : String} {before region after : List Lexeme} {s : Statement}
    (hlex : lex source = .ok (before ++ region ++ after)) (hread : readStatement region = .ok s) :
    ∃ t : Statement, s = t.shift s.span.start (s.line - 1) ∧ t.line = 1 ∧
      parse (sourceText source s.span) =
        ⟨some ⟨[t], ⟨0, s.span.stop - s.span.start⟩⟩, []⟩ := by
  obtain ⟨l, group, rfl⟩ : ∃ l group, region = l :: group := by
    cases region with
    | nil => cases hread
    | cons l group => exact ⟨l, group, rfl⟩
  obtain ⟨front, text, behind, hsource, hfirst, hline, hlast, ls', hmoved, halone⟩ :=
    lex_stretch hlex rfl
  have hmade := readStatement_madeOf hread
  have hstart : s.span.start = byteLength front := by
    rw [← hfirst]
    exact (Option.some.inj hmade.start).symm
  have hstop : s.span.stop = byteLength (front ++ text) :=
    Option.some.inj (hmade.stop.symm.trans hlast)
  have hlines : s.line = front.count '\n' + 1 := by
    rw [← hline]
    exact (Option.some.inj hmade.line).symm
  have htext : sourceText source s.span = String.ofList text := by
    rw [← sourceText_of_append hsource, ← hstart, ← hstop]
  have hlength : (String.ofList text).utf8ByteSize = byteLength text := by
    rw [← byteLength_toList, String.toList_ofList]
  rw [hmoved] at hread
  obtain ⟨t, hown, hshift⟩ := exists_readStatement_of_shift hread
  refine ⟨t, ?_, ?_, ?_⟩
  · rwa [hstart, hlines, Nat.add_sub_cancel]
  · rw [hshift, line_shift] at hlines
    omega
  · rw [htext, parse_of_readStatement halone hown, hlength, hstart, hstop, byteLength_append,
      Nat.add_sub_cancel_left]

/-- The statements of a program are those of the regions of its lexemes. -/
theorem exists_region {source : String} {program : Program} {s : Statement}
    (h : (parse source).program = some program) (hs : s ∈ program.statements) :
    ∃ before region after, lex source = .ok (before ++ region ++ after) ∧
      readStatement region = .ok s := by
  cases hlex : lex source with
  | error e => simp [parse, hlex] at h
  | ok ls =>
    simp only [parse, hlex] at h
    rw [collect_statements h, filterMap_readRegions] at hs
    obtain ⟨region, hregion, hread⟩ := List.mem_filterMap.mp hs
    obtain ⟨front, back, hsplit⟩ := List.append_of_mem hregion
    refine ⟨front.flatten, region, back.flatten, ?_, ?_⟩
    · rw [← flatten_regions ls, hsplit]
      simp
    · cases hresult : readStatement region <;> simp_all [statement?, Except.toOption]

/-- Every statement of a program, also where other regions of the source are malformed, is exact:
the places of its parts are nested and in order, its names are the texts of their places, and the
text of its stretch, read alone, is this one statement and nothing else, moved to the start. -/
theorem parse_statement_exact {source : String} {program : Program} {s : Statement}
    (h : (parse source).program = some program) (hs : s ∈ program.statements) :
    s.Nested ∧ (∀ i ∈ s.identifiers, i.name = sourceText source i.span) ∧
      ∃ t : Statement, s = t.shift s.span.start (s.line - 1) ∧ t.line = 1 ∧
        parse (sourceText source s.span) =
          ⟨some ⟨[t], ⟨0, s.span.stop - s.span.start⟩⟩, []⟩ := by
  obtain ⟨before, region, after, hlex, hread⟩ := exists_region h hs
  have hmade := readStatement_madeOf hread
  have hregion {l : Lexeme} (hl : l ∈ region) : l ∈ before ++ region ++ after := by simp [hl]
  have hsublist : region.Sublist (before ++ region ++ after) := by
    rw [List.append_assoc]
    exact (List.sublist_append_left region after).trans (List.sublist_append_right before _)
  refine ⟨?_, fun i hi => ?_, parse_stretch hlex hread⟩
  · exact hmade.nested (fun l hl => (exists_read_of_lex hlex (hregion hl)).1)
      ((apart_of_lex hlex).sublist hsublist)
  · obtain ⟨l, hl, htoken, hspan⟩ := hmade.exists_lexeme hi
    obtain ⟨-, p, hp⟩ := exists_read_of_lex hlex (hregion hl)
    rw [htoken, hspan] at hp
    rw [eq_of_read_identifier hp, String.ofList_toList]

/-- Three assignments, of which only the one in the middle is a statement. -/
def beset : String := "x = = 3 // ü\n  a.b = s . t(n = 1, m = \"é\") /* ) */\nc = ("

/-- The statement in the middle: `a.b = s . t(n = 1, m = "é")`. -/
def besetStatement : Statement where
  target := ⟨⟨"a", ⟨16, 17⟩⟩, [⟨"b", ⟨18, 19⟩⟩]⟩
  source := ⟨⟨"s", ⟨22, 23⟩⟩, [⟨"t", ⟨26, 27⟩⟩]⟩
  arguments := some [⟨⟨"n", ⟨28, 29⟩⟩, ⟨.integer 1, ⟨32, 33⟩⟩⟩,
    ⟨⟨"m", ⟨35, 36⟩⟩, ⟨.string "é", ⟨39, 43⟩⟩⟩]
  stop := 44
  line := 2

/-- The comments before and behind the statement are not in its stretch, and the malformed
assignments around it are not either. -/
theorem parse_statement_exact_beset :
    ∃ program, (parse beset).program = some program ∧ besetStatement ∈ program.statements ∧
      (parse beset).errors.length = 2 ∧
      besetStatement.span.Holds [⟨16, 19⟩, ⟨22, 27⟩, ⟨28, 33⟩, ⟨35, 43⟩] ∧
      sourceText beset ⟨18, 19⟩ = "b" ∧
      ∃ t : Statement, besetStatement = t.shift 16 1 ∧
        parse (sourceText beset ⟨16, 44⟩) = ⟨some ⟨[t], ⟨0, 28⟩⟩, []⟩ := by
  have hprogram : (parse beset).program = some ⟨[besetStatement], ⟨0, beset.utf8ByteSize⟩⟩ := by
    decide +kernel
  have hmem : besetStatement ∈
      (⟨[besetStatement], ⟨0, beset.utf8ByteSize⟩⟩ : Program).statements := List.mem_singleton.mpr rfl
  obtain ⟨hnested, hnames, t, hshift, -, hparse⟩ := parse_statement_exact hprogram hmem
  have hname : ⟨"b", ⟨18, 19⟩⟩ ∈ besetStatement.identifiers := by decide
  exact ⟨_, hprogram, hmem, by decide +kernel, hnested.whole, (hnames _ hname).symm, t, hshift,
    hparse⟩

end Script

end FrameGraph
