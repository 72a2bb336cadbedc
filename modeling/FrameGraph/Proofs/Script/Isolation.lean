import FrameGraph.Proofs.Script.Acceptance

/-!
# Isolation

A statement between two pieces of script is a region, whatever stands before it, and what follows
it is divided as if it stood alone. Before the statement only one thing can change: the head of an
assignment between parentheses, with nothing behind it, begins a region of its own when a name
comes next. It is cut off from a region that could not be read, and neither part can be read.
-/
namespace FrameGraph.Script

/-- How many parentheses are open behind the lexemes. -/
def openAfter (depth : Nat) (ls : List Lexeme) : Nat :=
  (ls.map Lexeme.token).foldl depthAfter depth

/-- The tokens of the continuation of a path. -/
theorem foldl_depthAfter_tail (depth : Nat) (ns : List String) :
    (ns.flatMap fun m => [Token.dot, .identifier m]).foldl depthAfter depth = depth := by
  induction ns with
  | nil => rfl
  | cons n ns ih => simpa [depthAfter] using ih

theorem foldl_depthAfter_path (depth : Nat) (ns : List String) :
    (pathTokens ns).foldl depthAfter depth = depth := by
  cases ns with
  | nil => rfl
  | cons n ns => exact foldl_depthAfter_tail depth ns

theorem foldl_depthAfter_paramList (depth : Nat) (ps : List (String × Value)) :
    (paramListTokens ps).foldl depthAfter depth = depth := by
  induction ps with
  | nil => rfl
  | cons p ps ih =>
    cases ps with
    | nil => rfl
    | cons q ps => simpa [paramListTokens, paramTokens, depthAfter] using ih

theorem foldl_depthAfter_arguments (arguments : Option (List (String × Value))) :
    (argumentTokens arguments).foldl depthAfter 0 = 0 := by
  cases arguments with
  | none => rfl
  | some ps => simp [argumentTokens, depthAfter, foldl_depthAfter_paramList]

/-- A statement closes every parenthesis that it opens. -/
theorem openAfter_of_spells {group : List Lexeme} {c : Clause} (h : Spells group c) :
    openAfter 0 group = 0 := by
  obtain ⟨-, htokens⟩ := (derivesStatement_iff _ _).mp h
  simp [openAfter, htokens, Clause.tokens, foldl_depthAfter_path, foldl_depthAfter_arguments,
    depthAfter]

/-- The lexemes end with an equals sign. -/
def EndsOpen (ls : List Lexeme) : Prop := ls.getLast?.map Lexeme.token = some .equals

theorem getLast?_path_ne (ns : List String) : (pathTokens ns).getLast? ≠ some .equals := by
  cases ns with
  | nil => simp [pathTokens]
  | cons n ns =>
    induction ns generalizing n with
    | nil => simp [pathTokens]
    | cons m ns ih => simpa [pathTokens] using ih m

theorem getLast?_statement_ne {c : Clause} (hc : c.Named) : c.tokens.getLast? ≠ some .equals := by
  obtain ⟨target, source, arguments⟩ := c
  have hsource : pathTokens source ≠ [] := by
    obtain ⟨n, ns, rfl⟩ := List.exists_cons_of_ne_nil hc.source
    simp [pathTokens]
  have hlast := getLast?_path_ne source
  cases arguments with
  | none => simpa [Clause.tokens, argumentTokens, List.getLast?_append, List.getLast?_cons,
      List.getLast?_eq_some_getLast hsource] using hlast
  | some ps => simp [Clause.tokens, argumentTokens, List.getLast?_append, List.getLast?_cons]

theorem not_endsOpen_of_spells {group : List Lexeme} {c : Clause} (h : Spells group c) :
    ¬ EndsOpen group := by
  intro hopen
  obtain ⟨hnamed, htokens⟩ := (derivesStatement_iff _ _).mp h
  exact getLast?_statement_ne hnamed (by rw [← htokens, List.getLast?_map, hopen])

/-- The statement that a region is read as, if it is one. -/
def statement? (region : List Lexeme) : Option Statement := (readStatement region).toOption

theorem statement?_eq_none {region : List Lexeme} (h : ∀ c, ¬ Spells region c) :
    statement? region = none := by
  cases hread : readStatement region with
  | error m => simp [statement?, hread, Except.toOption]
  | ok s => exact absurd ((readStatement_iff region _).mp ⟨s, hread, rfl⟩) (h _)

/-- The regions are the same but for the end of the last, which is cut off: it ends with an equals
sign, and in front of it a parenthesis is open. -/
inductive Cut : Nat → List (List Lexeme) → List (List Lexeme) → Prop where
  | last {depth : Nat} {front head : List Lexeme} (opened : 0 < openAfter depth front)
      (head_open : EndsOpen head) : Cut depth [front ++ head] [front, head]
  | later {depth : Nat} {group : List Lexeme} {old new : List (List Lexeme)}
      (rest : Cut 0 old new) : Cut depth (group :: old) (group :: new)

theorem EndsOpen.append {ls : List Lexeme} (h : EndsOpen ls) (front : List Lexeme) :
    EndsOpen (front ++ ls) := by
  unfold EndsOpen at *
  obtain ⟨l, hl, htoken⟩ := Option.map_eq_some_iff.mp h
  simp [List.getLast?_append, hl, htoken]

/-- Cutting off loses no statement and makes none. -/
theorem Cut.statements {old new : List (List Lexeme)} (h : Cut 0 old new) :
    new.filterMap statement? = old.filterMap statement? := by
  generalize hd : 0 = depth at h
  induction h with
  | @last depth front head opened head_open =>
    subst hd
    have hfront : statement? front = none :=
      statement?_eq_none fun c hc => opened.ne' (openAfter_of_spells hc)
    have hhead : statement? head = none :=
      statement?_eq_none fun c hc => not_endsOpen_of_spells hc head_open
    have hwhole : statement? (front ++ head) = none :=
      statement?_eq_none fun c hc => not_endsOpen_of_spells hc (head_open.append front)
    simp [hfront, hhead, hwhole]
  | later rest ih => simp [List.filterMap_cons, ih rfl]

theorem Cut.cons {l : Lexeme} {depth : Nat} {first : List Lexeme} {old new : List (List Lexeme)}
    (h : Cut (depthAfter depth l.token) (first :: old) new) :
    ∃ piece rest, new = piece :: rest ∧ Cut depth ((l :: first) :: old) ((l :: piece) :: rest) := by
  generalize hold : first :: old = groups at h
  cases h with
  | @last _ front head opened head_open =>
    obtain ⟨rfl, rfl⟩ := List.cons.inj hold
    exact ⟨front, [head], rfl, @Cut.last depth (l :: front) head opened head_open⟩
  | later rest =>
    obtain ⟨rfl, rfl⟩ := List.cons.inj hold
    exact ⟨_, _, rfl, .later rest⟩

/-- A name comes next, and wherever the lexemes follow, a region begins with them. -/
structure Opens (after : List Lexeme) (groups : List (List Lexeme)) : Prop where
  name : after.head?.any Lexeme.isIdentifier
  divided : ∀ depth, divide depth false after = ([], groups)

theorem assigned?_eq_some {ls rest : List Lexeme} (h : assigned? ls = some rest) :
    ∃ (ns : List String) (pre : List Lexeme) (span : Span) (line : Nat),
      ls = pre ++ ⟨.equals, span, line⟩ :: rest ∧
        pre.map Lexeme.token = ns.flatMap fun m => [.dot, .identifier m] := by
  fun_induction assigned? ls with
  | case1 span line rest =>
    cases h
    exact ⟨[], [], span, line, rfl, rfl⟩
  | case2 s₁ k₁ name s₂ k₂ ls ih =>
    obtain ⟨ns, pre, span, line, rfl, hpre⟩ := ih h
    exact ⟨name :: ns, ⟨.dot, s₁, k₁⟩ :: ⟨.identifier name, s₂, k₂⟩ :: pre, span, line, rfl,
      by simp [hpre]⟩
  | case3 => cases h

theorem assigned?_of_name {after : List Lexeme} (h : after.head?.any Lexeme.isIdentifier) :
    assigned? after = none := by
  unfold assigned?
  split
  · cases h
  · cases h
  · rfl

/-- Nothing that follows with a name changes how an assignment begins, as long as the lexemes in
front do not stop at a dot. -/
theorem assigned?_append {before after : List Lexeme}
    (hbefore : before.getLast?.map Lexeme.token ≠ some .dot)
    (hafter : after.head?.any Lexeme.isIdentifier) :
    assigned? (before ++ after) = (assigned? before).map (· ++ after) := by
  fun_induction assigned? before with
  | case1 s k rest => simp [assigned?]
  | case2 s k name s' k' rest ih =>
    rw [← ih (by cases rest <;> simp_all)]
    simp [assigned?]
  | case3 before hequals hdotted =>
    cases before with
    | nil => exact assigned?_of_name hafter
    | cons l before =>
      obtain ⟨token, span, line⟩ := l
      cases token with
      | equals => exact absurd rfl (hequals span line before)
      | dot =>
        cases before with
        | nil => exact absurd rfl hbefore
        | cons l before =>
          obtain ⟨token, span', line'⟩ := l
          cases token with
          | identifier name => exact absurd rfl (hdotted span line name span' line' before)
          | _ => rfl
      | _ => rfl

theorem divide_of_begins {depth : Nat} {afterDot : Bool} {l : Lexeme} {ls : List Lexeme}
    (h : beginsRegion depth afterDot (l :: ls) = true) :
    divide depth afterDot (l :: ls) =
      ([], (l :: (divide 0 false ls).1) :: (divide 0 false ls).2) := by
  rw [divide, if_pos h]

/-- What the start of a region needs: a name that is no later part of a path, an equals sign, and
between parentheses a name behind it. -/
theorem beginsRegion_iff (depth : Nat) (afterDot : Bool) (l : Lexeme) (ls : List Lexeme) :
    beginsRegion depth afterDot (l :: ls) = true ↔
      l.isIdentifier ∧ afterDot = false ∧
        ∃ value, assigned? ls = some value ∧ (depth = 0 ∨ value.head?.any Lexeme.isIdentifier) := by
  obtain ⟨token, span, line⟩ := l
  cases token with
  | identifier n => cases h : assigned? ls <;> simp [beginsRegion, Lexeme.isIdentifier, h]
  | _ => simp [beginsRegion, Lexeme.isIdentifier]

theorem depthAfter_of_isIdentifier {l : Lexeme} (h : l.isIdentifier) (depth : Nat) :
    depthAfter depth l.token = depth ∧ (l.token = .dot) = False := by
  obtain ⟨token, span, line⟩ := l
  cases token with
  | identifier n => simp [depthAfter]
  | _ => cases h

/-- A name in front of more lexemes begins a region there and not alone only if nothing follows the
equals sign. -/
theorem assigned?_of_begins_append {depth : Nat} {afterDot : Bool} {l : Lexeme}
    {before after : List Lexeme} (hbefore : before.getLast?.map Lexeme.token ≠ some .dot)
    (hafter : after.head?.any Lexeme.isIdentifier)
    (halone : beginsRegion depth afterDot (l :: before) = false)
    (hmore : beginsRegion depth afterDot (l :: (before ++ after)) = true) :
    l.isIdentifier ∧ afterDot = false ∧ 0 < depth ∧ assigned? before = some [] := by
  obtain ⟨hname, hdot, value, hvalue, hbegins⟩ := (beginsRegion_iff _ _ _ _).mp hmore
  rw [assigned?_append hbefore hafter] at hvalue
  obtain ⟨rest, hrest, rfl⟩ := Option.map_eq_some_iff.mp hvalue
  have hnot : ¬ (depth = 0 ∨ rest.head?.any Lexeme.isIdentifier) := by
    intro h
    rw [(beginsRegion_iff _ _ _ _).mpr ⟨hname, hdot, rest, hrest, h⟩] at halone
    cases halone
  obtain ⟨hdepth, hhead⟩ := not_or.mp hnot
  refine ⟨hname, hdot, Nat.pos_of_ne_zero hdepth, ?_⟩
  cases rest with
  | nil => exact hrest
  | cons r rest => exact absurd (hbegins.resolve_left hdepth) hhead

theorem begins_append {depth : Nat} {afterDot : Bool} {l : Lexeme}
    {before after : List Lexeme} (hbefore : before.getLast?.map Lexeme.token ≠ some .dot)
    (hafter : after.head?.any Lexeme.isIdentifier)
    (h : beginsRegion depth afterDot (l :: before) = true) :
    beginsRegion depth afterDot (l :: (before ++ after)) = true := by
  obtain ⟨hname, hdot, value, hvalue, hbegins⟩ := (beginsRegion_iff _ _ _ _).mp h
  refine (beginsRegion_iff _ _ _ _).mpr ⟨hname, hdot, value ++ after, ?_, ?_⟩
  · rw [assigned?_append hbefore hafter, hvalue]
    rfl
  · cases value with
    | nil => exact .inr hafter
    | cons r value => exact hbegins

/-- The end of the head of an assignment continues the region that it stands in. -/
theorem continues_assigned {before : List Lexeme} (h : assigned? before = some [])
    (depth : Nat) (after : List Lexeme) :
    Continues depth false before depth false after ∧ EndsOpen before := by
  obtain ⟨ns, pre, span, line, rfl, hpre⟩ := assigned?_eq_some h
  refine ⟨(continues_tail depth ns hpre _).trans (.lexeme ?_), by simp [EndsOpen]⟩
  exact beginsRegion_of_isIdentifier_eq_false _ _ rfl _

/-- The groups are the same, or the end of the last is cut off. -/
def Recut (depth : Nat) (old new : List (List Lexeme)) : Prop := old = new ∨ Cut depth old new

/-- Lexemes with more behind them are divided as they are alone, but for a cut at their end. -/
theorem divide_append {after : List Lexeme} {groups : List (List Lexeme)}
    (hafter : Opens after groups) (depth : Nat) (afterDot : Bool) {before : List Lexeme}
    (hbefore : before.getLast?.map Lexeme.token ≠ some .dot)
    (hdot : afterDot = true → before ≠ []) :
    ∃ first later, divide depth afterDot (before ++ after) = (first, later ++ groups) ∧
      Recut depth ((divide depth afterDot before).1 :: (divide depth afterDot before).2)
        (first :: later) := by
  induction before generalizing depth afterDot with
  | nil =>
    cases afterDot with
    | true => exact absurd rfl (hdot rfl)
    | false => exact ⟨[], [], hafter.divided depth, .inl rfl⟩
  | cons l before ih =>
    have hrest : before.getLast?.map Lexeme.token ≠ some .dot := by
      cases before with
      | nil => simp
      | cons r before => simpa using hbefore
    cases halone : beginsRegion depth afterDot (l :: before) with
    | true =>
      obtain ⟨first, later, hmore, hcut⟩ := ih 0 false hrest (by simp)
      have hname := ((beginsRegion_iff _ _ _ _).mp halone).1
      refine ⟨[], (l :: first) :: later, ?_, ?_⟩
      · rw [List.cons_append, divide_of_begins (begins_append hrest hafter.name halone), hmore]
        rfl
      · rw [divide_of_begins halone]
        rcases hcut with hsame | hcut
        · obtain ⟨hfirst, hlater⟩ := List.cons.inj hsame
          exact .inl (by rw [hfirst, hlater])
        · have hzero := (depthAfter_of_isIdentifier hname 0).1
          obtain ⟨_, _, hnew, hcons⟩ := Cut.cons (by rw [hzero]; exact hcut)
          obtain ⟨rfl, rfl⟩ := List.cons.inj hnew
          exact .inr (.later hcons)
    | false =>
      have hstep := Continues.lexeme halone
      simp only [Continues, List.cons_append, List.nil_append] at hstep
      cases hmore : beginsRegion depth afterDot (l :: (before ++ after)) with
      | true =>
        obtain ⟨hname, rfl, hdepth, hassigned⟩ :=
          assigned?_of_begins_append hrest hafter.name halone hmore
        obtain ⟨hkeeps, hend⟩ := continues_assigned hassigned depth []
        have hkeeps' := (continues_assigned hassigned 0 after).1
        simp only [Continues, List.append_nil, divide] at hkeeps hkeeps'
        have hstate := depthAfter_of_isIdentifier hname depth
        refine ⟨[], [l :: before], ?_, .inr ?_⟩
        · rw [List.cons_append, divide_of_begins hmore, hkeeps', hafter.divided 0]
          simp
        · simp only [hstep, hstate, decide_false, hkeeps]
          exact @Cut.last depth [] (l :: before) hdepth (hend.append [l])
      | false =>
        have hdot' : decide (l.token = .dot) = true → before ≠ [] := by
          rintro h rfl
          exact hbefore (by simpa using h)
        obtain ⟨first, later, hdivide, hcut⟩ :=
          ih (depthAfter depth l.token) (l.token = .dot) hrest hdot'
        refine ⟨l :: first, later, ?_, ?_⟩
        · rw [List.cons_append, divide, if_neg (by simp [hmore]), hdivide]
        · rw [hstep]
          rcases hcut with hsame | hcut
          · obtain ⟨hfirst, hlater⟩ := List.cons.inj hsame
            exact .inl (by rw [hfirst, hlater])
          · obtain ⟨_, _, hnew, hcons⟩ := hcut.cons
            obtain ⟨rfl, rfl⟩ := List.cons.inj hnew
            exact .inr hcons

/-- The lexemes begin with the head of an assignment: a path and an equals sign. -/
def BeginsAssignment (ls : List Lexeme) : Prop :=
  ∃ head ns sign rest, DerivesPath (head.map Lexeme.token) ns ∧ sign.token = .equals ∧
    ls = head ++ sign :: rest

/-- A path and an equals sign behind it: the first name, and what is assigned. -/
theorem exists_name_of_path {head : List Lexeme} {ns : List String}
    (h : DerivesPath (head.map Lexeme.token) ns) {sign : Lexeme} (hsign : sign.token = .equals)
    (value : List Lexeme) :
    ∃ l rest, head ++ sign :: value = l :: rest ∧ l.isIdentifier ∧ assigned? rest = some value := by
  obtain ⟨hns, htokens⟩ := (derivesPath_iff _ _).mp h
  obtain ⟨n, ns, rfl⟩ := List.exists_cons_of_ne_nil hns
  obtain ⟨span, line, head, rfl, hhead⟩ := map_token_eq_cons htokens
  obtain ⟨token, s, k⟩ := sign
  obtain rfl : token = .equals := hsign
  exact ⟨_, _, rfl, rfl, assigned?_of_path ns hhead s k value⟩

theorem endsValue_of_isIdentifier {l : Lexeme} (h : l.isIdentifier) (rest : List Lexeme) :
    EndsValue (l :: rest) := by
  obtain ⟨token, span, line⟩ := l
  cases token with
  | identifier n => exact ⟨by simp [EndsPath], by simp⟩
  | _ => cases h

/-- Lexemes that begin with an assignment, or none at all, have no part before their regions. -/
theorem divide_of_beginsAssignment {ls : List Lexeme} (h : ls = [] ∨ BeginsAssignment ls) :
    EndsValue ls ∧ divide 0 false ls = ([], regions ls) := by
  rcases h with rfl | ⟨head, ns, sign, value, hpath, hsign, rfl⟩
  · exact ⟨⟨by simp [EndsPath], by simp⟩, rfl⟩
  · obtain ⟨l, rest, hls, hname, hassigned⟩ := exists_name_of_path hpath hsign value
    rw [hls]
    have hbegins := (beginsRegion_iff 0 false l rest).mpr ⟨hname, rfl, value, hassigned, .inl rfl⟩
    exact ⟨endsValue_of_isIdentifier hname rest, by rw [regions, divide_of_begins hbegins]⟩

/-- A statement begins a region at any depth, since a name stands behind its equals sign. -/
theorem opens_statement {group after : List Lexeme} {c : Clause} (h : Spells group c)
    (hafter : after = [] ∨ BeginsAssignment after) :
    Opens (group ++ after) (group :: regions after) := by
  obtain ⟨hend, hdivide⟩ := divide_of_beginsAssignment hafter
  have hzero := divide_statement h hend
  simp only [hdivide, List.append_nil] at hzero
  obtain ⟨⟨ht, hs⟩, htokens⟩ := (derivesStatement_iff _ _).mp h
  obtain ⟨path, value, rfl, hpath, hvalue⟩ := List.map_eq_append_iff.mp htokens
  obtain ⟨span, line, value, rfl, hmore⟩ := map_token_eq_cons hvalue
  obtain ⟨l, rest, hls, hname, hassigned⟩ := exists_name_of_path
    ((derivesPath_iff _ _).mpr ⟨ht, hpath⟩) (rfl : (⟨.equals, span, line⟩ : Lexeme).token = _)
    (value ++ after)
  obtain ⟨m, ms, hsource⟩ := List.exists_cons_of_ne_nil hs
  rw [hsource] at hmore
  obtain ⟨s, k, value, rfl, -⟩ := map_token_eq_cons hmore
  have hwhole : path ++ ⟨.equals, span, line⟩ :: ⟨.identifier m, s, k⟩ :: value ++ after =
      l :: rest := by
    rw [← hls, List.append_assoc, List.cons_append]
  rw [hwhole] at hzero ⊢
  have hbegins (depth : Nat) : beginsRegion depth false (l :: rest) = true :=
    (beginsRegion_iff _ _ _ _).mpr ⟨hname, rfl, _, hassigned, .inr rfl⟩
  refine ⟨hname, fun depth => ?_⟩
  rw [← hzero, divide_of_begins (hbegins depth), divide_of_begins (hbegins 0)]

theorem regions_of_divide {ls first : List Lexeme} {later : List (List Lexeme)}
    (h : divide 0 false ls = (first, later)) :
    regions ls = if first = [] then later else first :: later := by
  cases first <;> simp [regions, h]

theorem statement?_nil : statement? [] = none := rfl

theorem filterMap_regions {ls first : List Lexeme} {later : List (List Lexeme)}
    (h : divide 0 false ls = (first, later)) :
    (regions ls).filterMap statement? = (first :: later).filterMap statement? := by
  rw [regions_of_divide h]
  split_ifs with hfirst
  · rw [hfirst, List.filterMap_cons_none statement?_nil]
  · rfl

theorem Recut.statements {old new : List (List Lexeme)} (h : Recut 0 old new) :
    new.filterMap statement? = old.filterMap statement? := by
  rcases h with rfl | hcut
  · rfl
  · exact hcut.statements

/-- In front of lexemes that begin a region, the regions hold the statements that they hold
without them. -/
theorem regions_append {before after : List Lexeme} {groups : List (List Lexeme)}
    (hbefore : before.getLast?.map Lexeme.token ≠ some .dot) (hafter : Opens after groups) :
    ∃ pieces, regions (before ++ after) = pieces ++ groups ∧
      pieces.filterMap statement? = (regions before).filterMap statement? := by
  obtain ⟨first, later, hdivide, hcut⟩ := divide_append hafter 0 false hbefore (by simp)
  have hstatements := hcut.statements
  rw [← filterMap_regions rfl] at hstatements
  rw [regions_of_divide hdivide]
  split_ifs with hfirst
  · refine ⟨later, rfl, ?_⟩
    rw [← hstatements, hfirst, List.filterMap_cons_none statement?_nil]
  · exact ⟨first :: later, rfl, hstatements⟩

theorem withStops_append (stop : Nat) (pieces later : List (List Lexeme)) :
    ∃ stopped, stopped.map Prod.fst = pieces ∧
      withStops stop (pieces ++ later) = stopped ++ withStops stop later := by
  induction pieces with
  | nil => exact ⟨[], rfl, rfl⟩
  | cons piece pieces ih =>
    obtain ⟨stopped, hpieces, hrest⟩ := ih
    obtain ⟨next, hnext⟩ : ∃ next, withStops stop (piece :: (pieces ++ later)) =
        (piece, next) :: withStops stop (pieces ++ later) := ⟨_, rfl⟩
    exact ⟨(piece, next) :: stopped, by simp [hpieces], by simp [hnext, hrest]⟩

theorem toOption_mapError {ε ε' α : Type} (f : ε → ε') (x : Except ε α) :
    (x.mapError f).toOption = x.toOption := by
  cases x <;> rfl

/-- What reading gives for regions that end in those of other lexemes: for these it is what they
give alone. -/
theorem readRegions_of_append (lines : LineIndex) (stop : Nat) {ls after : List Lexeme}
    {pieces : List (List Lexeme)} (h : regions ls = pieces ++ regions after) :
    ∃ results, results.map Except.toOption = pieces.map statement? ∧
      readRegions lines stop ls = results ++ readRegions lines stop after := by
  obtain ⟨stopped, rfl, hstops⟩ := withStops_append stop pieces (regions after)
  refine ⟨stopped.map fun r => (readStatement r.1).mapError (Mismatch.diagnostic lines r.2), ?_, ?_⟩
  · simp [Function.comp_def, toOption_mapError, statement?]
  · simp [readRegions, h, hstops]

theorem readRegions_of_statement (lines : LineIndex) (stop : Nat) {ls group after : List Lexeme}
    {s : Statement} (h : regions ls = group :: regions after)
    (hread : readStatement group = .ok s) :
    readRegions lines stop ls = .ok s :: readRegions lines stop after := by
  simp [readRegions, h, withStops, hread, Except.mapError]

/-- The statements read are those of the regions. -/
theorem filterMap_readRegions (lines : LineIndex) (stop : Nat) (ls : List Lexeme) :
    (readRegions lines stop ls).filterMap Except.toOption = (regions ls).filterMap statement? := by
  have hregions := withStops_fst stop (regions ls)
  conv_rhs => rw [← hregions, List.filterMap_map]
  rw [readRegions, List.filterMap_map]
  refine List.filterMap_congr fun r _ => ?_
  simp [toOption_mapError, statement?]

theorem collect_statements {lines : LineIndex} {stop : Nat}
    {results : List (Except Diagnostic Statement)} {program : Program}
    (h : (collect lines stop results).program = some program) :
    program.statements = results.filterMap Except.toOption := by
  simp only [collect] at h
  split at h
  · cases h
    refine List.filterMap_congr fun r _ => ?_
    cases r <;> rfl
  · cases h

/-- A statement is read as it stands, whatever lexemes come before it (as long as they do not stop
at a dot) and whatever begins with an assignment behind it: it is one of the regions, the regions
behind it and what they give are those of the lexemes behind it alone, and the regions in front of
it hold the statements that they hold alone. If there are not too many malformed regions, a source
of these lexemes has a program of these statements. -/
theorem statement_isolated {before group after : List Lexeme} {c : Clause}
    (hbefore : before.getLast?.map Lexeme.token ≠ some .dot) (hgroup : Spells group c)
    (hafter : after = [] ∨ BeginsAssignment after) :
    ∃ (s : Statement) (pieces : List (List Lexeme)),
      readStatement group = .ok s ∧ s.clause = c ∧ pieces.flatten = before ∧
      regions (before ++ group ++ after) = pieces ++ group :: regions after ∧
      pieces.filterMap statement? = (regions before).filterMap statement? ∧
      (∀ lines stop, ∃ results,
        results.map Except.toOption = pieces.map statement? ∧
        readRegions lines stop (before ++ group ++ after) =
          results ++ .ok s :: readRegions lines stop after) ∧
      ∀ source, lex source = .ok (before ++ group ++ after) →
        parse source = collect (.ofSource source) source.utf8ByteSize
          (readRegions (.ofSource source) source.utf8ByteSize (before ++ group ++ after)) ∧
        ∀ program, (parse source).program = some program →
          program.statements = (regions before).filterMap statement? ++
            s :: (regions after).filterMap statement? := by
  obtain ⟨s, hread, hclause⟩ := (readStatement_iff group c).mpr hgroup
  have hopens := opens_statement hgroup hafter
  obtain ⟨pieces, hregions, hstatements⟩ := regions_append hbefore hopens
  rw [← List.append_assoc] at hregions
  have hflatten : pieces.flatten = before := by
    have hall := flatten_regions (before ++ group ++ after)
    rw [hregions] at hall
    simpa [flatten_regions] using hall
  have hown : regions (group ++ after) = group :: regions after := by
    rw [regions_of_divide (hopens.divided 0), if_pos rfl]
  have hresults (lines : LineIndex) (stop : Nat) : ∃ results,
      results.map Except.toOption = pieces.map statement? ∧
      readRegions lines stop (before ++ group ++ after) =
        results ++ .ok s :: readRegions lines stop after := by
    have hends : regions (before ++ group ++ after) = pieces ++ regions (group ++ after) := by
      rw [hregions, hown]
    obtain ⟨results, hpieces, hwhole⟩ := readRegions_of_append lines stop hends
    exact ⟨results, hpieces, by rw [hwhole, readRegions_of_statement lines stop hown hread]⟩
  refine ⟨s, pieces, hread, hclause, hflatten, hregions, hstatements, hresults, ?_⟩
  intro source hlex
  have hparse : parse source = collect (.ofSource source) source.utf8ByteSize
      (readRegions (.ofSource source) source.utf8ByteSize (before ++ group ++ after)) := by
    simp only [parse, hlex]
  refine ⟨hparse, fun program hprogram => ?_⟩
  rw [hparse] at hprogram
  rw [collect_statements hprogram, filterMap_readRegions, hregions, List.filterMap_append,
    List.filterMap_cons, hstatements]
  simp [statement?, hread, Except.toOption]

/-- The lexemes of `a = f(x =`, where a parenthesis and a parameter are left open. -/
def unclosed : List Lexeme :=
  [⟨.identifier "a", ⟨0, 1⟩, 1⟩, ⟨.equals, ⟨2, 3⟩, 1⟩, ⟨.identifier "f", ⟨4, 5⟩, 1⟩,
    ⟨.openParen, ⟨5, 6⟩, 1⟩, ⟨.identifier "x", ⟨6, 7⟩, 1⟩, ⟨.equals, ⟨8, 9⟩, 1⟩]

/-- The lexemes of `b = g(y=2)` on the next line. -/
def wellFormed : List Lexeme :=
  [⟨.identifier "b", ⟨10, 11⟩, 2⟩, ⟨.equals, ⟨12, 13⟩, 2⟩, ⟨.identifier "g", ⟨14, 15⟩, 2⟩,
    ⟨.openParen, ⟨15, 16⟩, 2⟩, ⟨.identifier "y", ⟨16, 17⟩, 2⟩, ⟨.equals, ⟨17, 18⟩, 2⟩,
    ⟨.literal (.integer 2), ⟨18, 19⟩, 2⟩, ⟨.closeParen, ⟨19, 20⟩, 2⟩]

/-- The lexemes of `c.d =` on the line behind it. -/
def unassigned : List Lexeme :=
  [⟨.identifier "c", ⟨21, 22⟩, 3⟩, ⟨.dot, ⟨22, 23⟩, 3⟩, ⟨.identifier "d", ⟨23, 24⟩, 3⟩,
    ⟨.equals, ⟨25, 26⟩, 3⟩]

/-- The open parameter is cut off in front of the statement; of the three malformed regions none
takes a part of it. -/
theorem statement_isolated_unclosed :
    unclosed.getLast?.map Lexeme.token ≠ some .dot ∧
    Spells wellFormed ⟨["b"], ["g"], some [("y", .integer 2)]⟩ ∧
    (unassigned = [] ∨ BeginsAssignment unassigned) ∧
    regions unclosed = [unclosed] ∧
    lex "a = f(x =\nb = g(y=2)\nc.d =" = .ok (unclosed ++ wellFormed ++ unassigned) ∧
    ∃ s pieces, readStatement wellFormed = .ok s ∧ pieces.flatten = unclosed ∧
      regions (unclosed ++ wellFormed ++ unassigned) = pieces ++ [wellFormed, unassigned] ∧
      (parse "a = f(x =\nb = g(y=2)\nc.d =").errors.length = 3 ∧
      ∀ program, (parse "a = f(x =\nb = g(y=2)\nc.d =").program = some program →
        program.statements = [s] := by
  have hdot : unclosed.getLast?.map Lexeme.token ≠ some .dot := by decide
  have hspells : Spells wellFormed ⟨["b"], ["g"], some [("y", .integer 2)]⟩ :=
    (derivesStatement_iff _ _).mpr ⟨⟨by simp, by simp⟩, rfl⟩
  have hbegins : BeginsAssignment unassigned :=
    ⟨unassigned.take 3, ["c", "d"], _, [], .dotted "c" (.name "d"), rfl, rfl⟩
  have hlex : lex "a = f(x =\nb = g(y=2)\nc.d =" = .ok (unclosed ++ wellFormed ++ unassigned) := by
    decide +kernel
  obtain ⟨s, pieces, hread, -, hpieces, hregions, -, -, hsource⟩ :=
    statement_isolated hdot hspells (.inr hbegins)
  refine ⟨hdot, hspells, .inr hbegins, by decide, hlex, s, pieces, hread, hpieces, hregions,
    by decide +kernel, fun program hprogram => ?_⟩
  exact (hsource _ hlex).2 program hprogram

end FrameGraph.Script
