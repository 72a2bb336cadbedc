import FrameGraph.Proofs.Assembly.Account
import FrameGraph.Proofs.Script.Isolation
import FrameGraph.Proofs.Script.Patterns
import FrameGraph.Proofs.World.Resolution

/-!
# The first definition

While a program is put together a path that leads to a member goes on leading to it, so a name that
has been taken stays taken. What the statements have made is remembered by the texts of their
targets, although names are looked up in scopes. The two agree: no name that is read from a script
has a dot in it, so a text stands for one path, and no two paths lead to the same node or scope.
-/
namespace FrameGraph

namespace Script

/-! ## Texts of paths -/

/-- No name in the path has a dot in it. -/
def Path.Undotted (p : Path) : Prop := ∀ name ∈ p.names, '.' ∉ name.toList

/-- So it is with all targets. -/
def Program.Undotted (p : Program) : Prop := ∀ s ∈ p.statements, s.target.Undotted

/-- If there are no dots in them, the names can be told from the text. -/
theorem Path.text_eq_iff {p q : Path} (hp : p.Undotted) (hq : q.Undotted) :
    p.text = q.text ↔ p.names = q.names := by
  refine ⟨fun h => ?_, fun h => by rw [text, text, chars, chars, h]⟩
  have hsplit {p : Path} (hp : p.Undotted) : p.chars.splitOn '.' = p.names.map String.toList := by
    refine List.splitOn_intercalate '.' (fun cs hcs => ?_) (by simp [names, segments])
    obtain ⟨name, hname, rfl⟩ := List.mem_map.mp hcs
    exact hp name hname
  have hchars : p.chars = q.chars := String.ofList_injective h
  have hnames := hsplit hp
  rw [hchars, hsplit hq] at hnames
  exact (List.map_injective_iff.mpr (fun _ _ h => String.toList_injective h) hnames).symm

theorem IsName.undotted {s : List Char} (h : IsName s) : '.' ∉ s := by
  intro hdot
  cases h.word with
  | word starts continues =>
    obtain rfl | hmem := List.mem_cons.mp hdot
    · exact absurd starts (by decide)
    · exact absurd (continues '.' hmem) (by decide)

theorem mem_pathTokens {name : String} {names : List String} (h : name ∈ names) :
    .identifier name ∈ pathTokens names := by
  cases names with
  | nil => cases h
  | cons n ns =>
    obtain rfl | hmem := List.mem_cons.mp h
    · exact List.mem_cons_self
    · exact List.mem_cons_of_mem _ (List.mem_flatMap.mpr ⟨name, hmem, by simp⟩)

/-- A statement that was read is made of tokens of the source, also if other statements could not be
read. -/
theorem statement_readable {source : String} {p : Program} (h : (parse source).program = some p)
    {s : Statement} (hs : s ∈ p.statements) : ∀ t ∈ s.clause.tokens, t.Readable := by
  rw [parse] at h
  cases hlex : lex source with
  | error e =>
    rw [hlex] at h
    cases h
  | ok ls =>
    rw [hlex] at h
    rw [collect_statements h, filterMap_readRegions] at hs
    obtain ⟨region, hregion, hread⟩ := List.mem_filterMap.mp hs
    have hstatement : readStatement region = .ok s := by
      rw [statement?] at hread
      cases hresult : readStatement region with
      | error e =>
        rw [hresult] at hread
        cases hread
      | ok s' =>
        rw [hresult] at hread
        cases hread
        rfl
    have hspells := (readStatement_iff region s.clause).mp ⟨s, hstatement, rfl⟩
    intro t ht
    rw [← ((derivesStatement_iff _ _).mp hspells).2] at ht
    obtain ⟨l, hl, rfl⟩ := List.mem_map.mp ht
    refine lex_readable hlex l ?_
    rw [← flatten_regions ls]
    exact List.mem_flatten.mpr ⟨region, hregion, hl⟩

/-- No name in a program that was read has a dot in it. -/
theorem undotted_of_parse {source : String} {p : Program}
    (h : (parse source).program = some p) : p.Undotted := by
  intro s hs name hname
  have hmem : .identifier name ∈ s.clause.tokens :=
    List.mem_append_left _ (mem_pathTokens hname)
  exact (statement_readable h hs _ hmem).1.undotted

end Script

namespace Assembly

open Script World

variable {w w' : World} {a : Assembly} {scope : ScopeId} {s : Statement}

/-! ## Names that are taken -/

/-- A statement whose target is there makes nothing and is reported as that. -/
theorem makeStep_taken (ht : a.world.Tabled) (hs : s.instantiates = true) {source r : Resolved}
    (hsource : a.world.resolve scope s.source.names = some source)
    (htarget : a.world.resolve scope s.target.names = some r) :
    makeStep scope a s =
      a.report [alreadyDefined s (a.definitions.lookup s.target.text)] := by
  obtain ⟨hhome, t, hscope, hmember⟩ := resolve_names_iff.mp htarget
  have htaken : t.members.contains s.target.last.name = true := by
    rw [Table.contains_eq (ht _ t hscope).sound, ← Scope.member?, hmember]
    rfl
  simp [makeStep, hs, instantiate, hsource, hhome, hscope, htaken, report]

theorem carryOut_holds (h : a.world.Tree) (scope : ScopeId) (s : Statement) (p : ScopeId)
    (name : String) (m : Member) (hm : a.world.Holds p name m) :
    (carryOut scope a s).world.Holds p name m := by
  rw [carryOut]
  split
  · exact (makeStep_grows scope a s (Forest.orderly h)).2.holds p name m hm
  · obtain hsame | ⟨target, source, index, hconnects⟩ := connectStep_cases scope a s
    · rwa [hsame]
    · exact (hconnects.sameTree.holds p name m).mpr hm

theorem Ready.foldl_holds (h : a.Ready) (scope : ScopeId) (statements : List Statement)
    (p : ScopeId) (name : String) (m : Member) (hm : a.world.Holds p name m) :
    (statements.foldl (Assembly.carryOut scope) a).world.Holds p name m := by
  induction statements generalizing a with
  | nil => exact hm
  | cons s rest ih => exact ih (h.carryOut scope s) (carryOut_holds h.tree scope s p name m hm)

/-! ## What statements have made -/

/-- What has been made, as a member. -/
def Made.member : Made → Member
  | .node id => .node id
  | .scope id => .scope id

theorem Made.isOwned_member (made : Made) : made.member.isOwned = true := by
  cases made <;> rfl

namespace Makes

variable {made : Made}

theorem beyond (h : Makes w w' scope s made) : w.Beyond made.member := by
  cases h with
  | node => exact Nat.le_refl _
  | scope => exact Nat.le_refl _

/-- The target of the statement leads to what it has made. -/
theorem resolve (h : Makes w w' scope s made)
    (hholds : ∀ p name m, w.Holds p name m → w'.Holds p name m) :
    ∃ container, w'.resolve scope s.target.names = some ⟨made.member, container⟩ := by
  have hreach {destination : ScopeId} {m : Member}
      (target : w.resolveScope scope s.target.leading = some destination)
      (gains : Gains w w' destination s.target.last.name m) :
      w'.resolve scope s.target.names = some ⟨m, destination⟩ := by
    obtain ⟨hpath, -⟩ := resolveScope_iff.mp target
    obtain ⟨t, members, ht, -⟩ := gains.holder
    rw [s.target.names_eq, resolve_concat_iff]
    exact ⟨hpath.mono hholds,
      (gains.holds _ _ _ (lt_size_of_scope? ht)).mpr (.inr ⟨rfl, rfl, rfl⟩)⟩
  cases h with
  | node source target values gains made => exact ⟨_, hreach target gains⟩
  | scope source target values gains made bare isSetUp => exact ⟨_, hreach target gains⟩

theorem lives (h : Makes w w' scope s made) : w'.Lives made.member := by
  cases h with
  | node source target values gains made => exact ⟨_, made⟩
  | scope source target values gains made bare isSetUp => exact ⟨_, made⟩

end Makes

/-- What a statement has made is remembered, and nothing else. -/
theorem carryOut_definitions (h : a.world.Tree) (scope : ScopeId) (s : Statement) :
    ((carryOut scope a s).definitions = a.definitions ∧
      ∀ made, ¬Makes a.world (carryOut scope a s).world scope s made) ∨
    ∃ made, Makes a.world (carryOut scope a s).world scope s made ∧
      (carryOut scope a s).definitions = (s.target.text, s.target.span) :: a.definitions := by
  have hstays {w' : World} {made : Made} (hunchanged : ∀ m, w'.Lives m → a.world.Lives m) :
      ¬Makes a.world w' scope s made :=
    fun hmakes => (hunchanged _ hmakes.lives).not_beyond hmakes.beyond
  rw [carryOut]
  by_cases hs : s.instantiates = true
  · rw [if_pos hs, makeStep, if_pos hs]
    have houtcome := instantiate_outcome h scope a.definitions s
    generalize instantiate a.world scope a.definitions s = result at houtcome ⊢
    cases houtcome with
    | reported report unchanged =>
      exact .inl ⟨rfl, fun made => hstays fun m hm => unchanged.lives hm⟩
    | @made w' made makes =>
      cases made with
      | node id => exact .inr ⟨_, makes, rfl⟩
      | scope id => exact .inr ⟨_, makes, rfl⟩
  · rw [if_neg hs]
    refine .inl ⟨?_, fun made => hstays fun m hm => ?_⟩
    · rw [connectStep, if_neg hs]
      split <;> rfl
    · obtain hsame | ⟨target, source, index, hconnects⟩ := connectStep_cases scope a s
      · rwa [hsame] at hm
      · exact (lives_congr hconnects.sameTree.nodeKey hconnects.sameTree.scopeKey m).mp hm

/-- Of the statements that have been carried out, `t` has made the member. -/
def MadeBy (scope : ScopeId) (a : Assembly) (statements : List Statement) (t : Statement)
    (m : Member) : Prop :=
  ∃ earlier between made, statements = earlier ++ t :: between ∧
    Makes (earlier.foldl (carryOut scope) a).world
      (carryOut scope (earlier.foldl (carryOut scope) a) t).world scope t made ∧
    made.member = m

namespace MadeBy

variable {statements : List Statement} {t : Statement} {m : Member}

theorem nil_iff : MadeBy scope a [] t m ↔ False := by
  refine iff_of_false ?_ id
  rintro ⟨earlier, between, made, hsplit, -⟩
  simp at hsplit

/-- It was made by the last statement or before. -/
theorem concat_iff : MadeBy scope a (statements ++ [s]) t m ↔ MadeBy scope a statements t m ∨
    t = s ∧ ∃ made, Makes (statements.foldl (carryOut scope) a).world
      (carryOut scope (statements.foldl (carryOut scope) a) s).world scope s made ∧
      made.member = m := by
  constructor
  · rintro ⟨earlier, between, made, hsplit, hmakes, hm⟩
    cases between using List.reverseRecOn with
    | nil =>
      obtain ⟨rfl, hlast⟩ := List.append_inj' hsplit rfl
      cases hlast
      exact .inr ⟨rfl, made, hmakes, hm⟩
    | append_singleton between last =>
      rw [← List.cons_append, ← List.append_assoc] at hsplit
      obtain ⟨rfl, -⟩ := List.append_inj' hsplit rfl
      exact .inl ⟨earlier, between, made, rfl, hmakes, hm⟩
  · rintro (⟨earlier, between, made, rfl, hmakes, hm⟩ | ⟨rfl, made, hmakes, hm⟩)
    · exact ⟨earlier, between ++ [s], made, by simp, hmakes, hm⟩
    · exact ⟨statements, [], made, rfl, hmakes, hm⟩

theorem isOwned (h : MadeBy scope a statements t m) : m.isOwned = true := by
  obtain ⟨-, -, made, -, -, rfl⟩ := h
  exact made.isOwned_member

/-- The target of the statement leads to what it has made, whatever comes after it. -/
theorem resolve (h : MadeBy scope a statements t m) (ha : a.Ready) : ∃ container,
    (statements.foldl (carryOut scope) a).world.resolve scope t.target.names =
      some ⟨m, container⟩ := by
  obtain ⟨earlier, between, made, rfl, hmakes, rfl⟩ := h
  have hearlier := ha.foldl scope earlier
  obtain ⟨container, hr⟩ := hmakes.resolve (carryOut_holds hearlier.tree scope t)
  rw [List.foldl_append, List.foldl_cons]
  exact ⟨container, resolve_mono ((hearlier.carryOut scope t).foldl_holds scope between) hr⟩

/-- What one statement has made no other statement has made. -/
theorem unique (h : MadeBy scope a statements t m) {t' : Statement}
    (h' : MadeBy scope a statements t' m) (ha : a.Ready) : t = t' := by
  induction statements using List.reverseRecOn with
  | nil => exact (nil_iff.mp h).elim
  | append_singleton statements s ih =>
    -- What the last statement has made was not there before.
    have hnew {t : Statement} (hold : MadeBy scope a statements t m) {made : Made}
        (hmakes : Makes (statements.foldl (carryOut scope) a).world
          (carryOut scope (statements.foldl (carryOut scope) a) s).world scope s made)
        (hm : made.member = m) : False := by
      obtain ⟨container, hr⟩ := hold.resolve ha
      obtain ⟨-, name, hheld⟩ := resolve_spec hr
      exact (Forest.orderly (ha.foldl scope statements).tree).known _ _ _ hheld (hm ▸ hmakes.beyond)
    obtain hold | ⟨rfl, made, hmakes, hm⟩ := concat_iff.mp h
    · obtain hold' | ⟨-, made, hmakes, hm⟩ := concat_iff.mp h'
      · exact ih hold hold'
      · exact (hnew hold hmakes hm).elim
    · obtain hold' | ⟨rfl, -⟩ := concat_iff.mp h'
      · exact (hnew hold' hmakes hm).elim
      · rfl

end MadeBy

/-- The texts that are remembered are those of the targets of the statements that have made
something. -/
theorem Ready.mem_definitions (ha : a.Ready) (hnone : a.definitions = []) (scope : ScopeId)
    (statements : List Statement) (text : String) (span : Span) :
    (text, span) ∈ (statements.foldl (Assembly.carryOut scope) a).definitions ↔
      ∃ t m, MadeBy scope a statements t m ∧ t.target.text = text ∧ t.target.span = span := by
  induction statements using List.reverseRecOn with
  | nil => simp [hnone, MadeBy.nil_iff]
  | append_singleton statements s ih =>
    rw [List.foldl_concat]
    simp only [MadeBy.concat_iff, or_and_right, exists_or, ← ih]
    obtain ⟨hsame, hnothing⟩ | ⟨made, hmakes, hnew⟩ :=
      carryOut_definitions (ha.foldl scope statements).tree scope s
    · rw [hsame]
      refine (or_iff_left ?_).symm
      rintro ⟨t, m, ⟨-, made, hmakes, -⟩, -⟩
      exact hnothing made hmakes
    · rw [hnew, List.mem_cons, Prod.mk.injEq, or_comm]
      refine or_congr_right ⟨?_, ?_⟩
      · rintro ⟨rfl, rfl⟩
        exact ⟨s, made.member, ⟨rfl, made, hmakes, rfl⟩, rfl, rfl⟩
      · rintro ⟨t, m, ⟨rfl, -⟩, rfl, rfl⟩
        exact ⟨rfl, rfl⟩

/-- What is remembered under the text of a path that leads to a member is the statement that has
made the member, if a statement has. -/
theorem Ready.lookup_definitions (ha : a.Ready) (hnone : a.definitions = [])
    {statements : List Statement} {path : Script.Path} {r : Resolved} (hpath : path.Undotted)
    (hundotted : ∀ t ∈ statements, t.target.Undotted)
    (hr : (statements.foldl (Assembly.carryOut scope) a).world.resolve scope path.names = some r)
    (span : Span) :
    (statements.foldl (Assembly.carryOut scope) a).definitions.lookup path.text = some span ↔
      ∃ t, MadeBy scope a statements t r.member ∧ t.target.span = span := by
  -- The statements remembered under the text have made the member.
  have hmade {t : Statement} {m : Member} (ht : MadeBy scope a statements t m)
      (htext : t.target.text = path.text) : m = r.member := by
    obtain ⟨container, hr'⟩ := ht.resolve ha
    obtain ⟨earlier, between, -, rfl, -⟩ := ht
    rw [(Path.text_eq_iff (hundotted t (by simp)) hpath).mp htext, hr] at hr'
    cases hr'
    rfl
  have hmem (span : Span) :
      (path.text, span) ∈ (statements.foldl (Assembly.carryOut scope) a).definitions ↔
        ∃ t, MadeBy scope a statements t r.member ∧ t.target.text = path.text ∧
          t.target.span = span := by
    rw [ha.mem_definitions hnone]
    constructor
    · rintro ⟨t, m, ht, htext, hspan⟩
      exact ⟨t, hmade ht htext ▸ ht, htext, hspan⟩
    · rintro ⟨t, ht, htext, hspan⟩
      exact ⟨t, _, ht, htext, hspan⟩
  have hfound {span : Span} (hlookup :
      (statements.foldl (Assembly.carryOut scope) a).definitions.lookup path.text = some span) :
      ∃ t, MadeBy scope a statements t r.member ∧ t.target.span = span := by
    obtain ⟨before, after, heq, -⟩ := List.lookup_eq_some_iff.mp hlookup
    obtain ⟨t, ht, -, hspan⟩ := (hmem span).mp (by rw [heq]; simp)
    exact ⟨t, ht, hspan⟩
  refine ⟨hfound, ?_⟩
  rintro ⟨t, ht, rfl⟩
  have htext : t.target.text = path.text := by
    obtain ⟨container, hr'⟩ := ht.resolve ha
    obtain ⟨earlier, between, -, hsplit, -⟩ := id ht
    refine (Path.text_eq_iff (hundotted t (by simp [hsplit])) hpath).mpr ?_
    exact resolve_injective (Forest.orderly (ha.foldl scope statements).tree) hr' hr rfl ht.isOwned
  have hthere := (hmem _).mpr ⟨t, ht, htext, rfl⟩
  cases hlookup : (statements.foldl (Assembly.carryOut scope) a).definitions.lookup path.text with
  | none => simpa using List.lookup_eq_none_iff.mp hlookup _ hthere
  | some span =>
    obtain ⟨t', ht', rfl⟩ := hfound hlookup
    rw [ht.unique ht' ha]

/-- In every world that can be reached from a new one, with setups that make things in their own
scope only, the first definition counts, whatever program is put together. A path that leads to a
member leads to it until the end. From then on a statement with this target makes nothing and is
reported once, as about a name that is taken. If there are no dots in names, and in a program from a
script there are none, what is reported points at an earlier statement exactly if it has made the
member itself: not if the member was there before the program, or if the setup of a scope has made
it. -/
theorem apply_first_definition (journal : Array Event) (ops : List Operation)
    (hops : ∀ op ∈ ops, op.Confined) (scope : ScopeId) (p : Program) :
    let upTo (statements : List Statement) : Assembly :=
      statements.foldl (carryOut scope) (start (ops.foldl Operation.run (World.new journal)))
    (∀ source, (parse source).program = some p → p.Undotted) ∧
    apply (ops.foldl Operation.run (World.new journal)) scope p = upTo (order p) ∧
    (∀ before between after path r, order p = before ++ between ++ after →
      (upTo before).world.resolve scope path = some r →
      (upTo (before ++ between)).world.resolve scope path = some r) ∧
    ∀ before s after source r, order p = before ++ s :: after → s.instantiates = true →
      (upTo before).world.resolve scope s.source.names = some source →
      (upTo before).world.resolve scope s.target.names = some r →
      ∃ first, carryOut scope (upTo before) s = (upTo before).report [alreadyDefined s first] ∧
        (p.Undotted → ∀ span, first = some span ↔
          ∃ earlier t between made, before = earlier ++ t :: between ∧
            Makes (upTo earlier).world (carryOut scope (upTo earlier) t).world scope t made ∧
            made.member = r.member ∧ t.target.span = span) := by
  intro upTo
  have htree := (new_tree journal).foldl_run ops hops
  have hready : (start (ops.foldl Operation.run (World.new journal))).Ready :=
    ⟨htree, Operation.foldl_run_slotted (new_tree journal) (new_slotted journal) ops hops⟩
  refine ⟨fun _ => undotted_of_parse, apply_eq _ scope p,
    fun before between after path r _ hr => ?_,
    fun before s after source r hsplit hs hsource htarget => ?_⟩
  · have happend : upTo (before ++ between) = between.foldl (carryOut scope) (upTo before) :=
      List.foldl_append
    rw [happend]
    exact resolve_mono ((hready.foldl scope before).foldl_holds scope between) hr
  · refine ⟨(upTo before).definitions.lookup s.target.text, ?_, fun hp span => ?_⟩
    · rw [carryOut, if_pos hs]
      exact makeStep_taken (Forest.tabled (hready.foldl scope before).tree) hs hsource htarget
    · have hin (t : Statement) (ht : t ∈ order p) : t.target.Undotted := by
        simp only [order, List.mem_append, List.mem_filter] at ht
        exact hp t (ht.elim And.left And.left)
      have hstatement := hin s (by simp [hsplit])
      have htargets (t : Statement) (ht : t ∈ before) := hin t (by simp [hsplit, ht])
      rw [hready.lookup_definitions rfl hstatement htargets htarget span]
      constructor
      · rintro ⟨t, ⟨earlier, between, made, hbefore, hmakes, hm⟩, hspan⟩
        exact ⟨earlier, t, between, made, hbefore, hmakes, hm, hspan⟩
      · rintro ⟨earlier, t, between, made, hbefore, hmakes, hm, hspan⟩
        exact ⟨t, ⟨earlier, between, made, hbefore, hmakes, hm⟩, hspan⟩

/-- Defines a node, defines it again, and then a room. -/
def namings : List Statement :=
  [⟨⟨⟨"a", ⟨0, 1⟩⟩, []⟩, ⟨⟨"source", ⟨4, 10⟩⟩, []⟩, none, 10, 1⟩,
    ⟨⟨⟨"a", ⟨11, 12⟩⟩, []⟩, ⟨⟨"sink", ⟨15, 19⟩⟩, []⟩, none, 19, 2⟩,
    ⟨⟨⟨"c", ⟨20, 21⟩⟩, []⟩, ⟨⟨"room", ⟨24, 28⟩⟩, []⟩, none, 28, 3⟩]

/-- Defines what the setup of the room has made. -/
def seating : Statement :=
  ⟨⟨⟨"c", ⟨29, 30⟩⟩, [⟨"chair", ⟨31, 36⟩⟩]⟩, ⟨⟨"sink", ⟨39, 43⟩⟩, []⟩, some [], 45, 4⟩

example : (parse "a = source\na = sink\nc = room\nc.chair = sink()").program =
    some ⟨namings ++ [seating], ⟨0, 45⟩⟩ := by decide +kernel

/-- The second definition of the node points at the first. That of the chair points nowhere, so none
of the statements before it has made the chair. -/
theorem apply_first_definition_seating :
    let p : Program := ⟨namings ++ [seating], ⟨0, 45⟩⟩
    let upTo (statements : List Statement) : Assembly :=
      statements.foldl (carryOut .root) (start furnished)
    (∀ op ∈ furnish, op.Confined) ∧ p.Undotted ∧
      (apply furnished .root p).diagnostics.map Diagnostic.related =
        [[⟨⟨0, 1⟩, "first defined here"⟩], []] ∧
      ∃ r, (upTo namings).world.resolve .root seating.target.names = some r ∧
        ∀ earlier t between made, namings = earlier ++ t :: between →
          Makes (upTo earlier).world (carryOut .root (upTo earlier) t).world .root t made →
          made.member ≠ r.member := by
  intro p upTo
  have hundotted : p.Undotted := by
    intro s hs name hname
    revert s name
    decide
  have hrelated : (apply furnished .root p).diagnostics.map Diagnostic.related =
      [[⟨⟨0, 1⟩, "first defined here"⟩], []] := by decide +kernel
  obtain ⟨-, hall, -, hfirst⟩ :=
    apply_first_definition #[] furnish furnish_confined .root p
  obtain ⟨source, hsource⟩ := Option.isSome_iff_exists.mp
    (show ((upTo namings).world.resolve .root seating.source.names).isSome by decide +kernel)
  obtain ⟨r, hr⟩ := Option.isSome_iff_exists.mp
    (show ((upTo namings).world.resolve .root seating.target.names).isSome by decide +kernel)
  refine ⟨furnish_confined, hundotted, hrelated, r, hr,
    fun earlier t between made hnamings hmakes hmember => ?_⟩
  obtain ⟨first, hreport, hspan⟩ := hfirst namings seating [] source r rfl rfl hsource hr
  have hpoints := (hspan hundotted _).mpr ⟨earlier, t, between, made, hnamings, hmakes, hmember, rfl⟩
  have hlast : (apply furnished .root p).diagnostics =
      (upTo namings).diagnostics ++ [alreadyDefined seating first] := by
    rw [show apply furnished .root p = carryOut .root (upTo namings) seating from hall]
    exact congrArg diagnostics hreport
  have hpointless := congrArg List.getLast? hrelated
  rw [hlast, hpoints, List.map_append, List.map_singleton, List.getLast?_concat] at hpointless
  exact absurd hpointless nofun

end Assembly

end FrameGraph
