import FrameGraph.Proofs.Diagram.Notation

/-!
# Lines

A name in quotes is read back as it is, whatever characters it has, and ends where it was written to
end. So each line of a diagram is read as what it shows, in the graphs that are open where it stands.
-/
namespace FrameGraph.Diagram

/-! ## Pieces of lines -/

theorem scan_word (word : List Char) {cs : List Char} (h : ∀ c ∈ cs, isWordChar c = true) :
    scan (.plain word) cs = some (.plain (word ++ cs), []) := by
  induction cs generalizing word with
  | nil => rw [scan, List.append_nil]
  | cons c cs ih =>
    obtain ⟨hc, hcs⟩ := List.forall_mem_cons.mp h
    rw [scan, Mode.step, if_pos hc, Option.bind_some, ih _ hcs, Option.map_some, List.append_assoc]
    rfl

/-- A word ends where something else begins. -/
theorem scan_behind (word : List Char) {cs : List Char} {m : Mode} {ts : List Token}
    (hhead : cs.head?.map isWordChar = some false) (h : scan (.plain []) cs = some (m, ts)) :
    scan (.plain word) cs = some (m, ended word ++ ts) := by
  cases cs with
  | nil => cases hhead
  | cons c cs =>
    have hc : isWordChar c = false := Option.some.inj hhead
    have hstep : Mode.step (.plain word) c =
        (Mode.step (.plain []) c).map fun next => (next.1, ended word ++ next.2) := by
      simp only [Mode.step, hc, Bool.false_eq_true, if_false]
      repeat' split
      all_goals simp [ended]
    rw [scan, Option.bind_eq_some_iff] at h
    obtain ⟨next, hnext, hcs⟩ := h
    obtain ⟨last, hlast, hends⟩ := Option.map_eq_some_iff.mp hcs
    cases hends
    rw [scan, hstep, hnext, Option.map_some, Option.bind_some, hlast, Option.map_some,
      List.append_assoc]

theorem ended_toList {word : String} (h : word ≠ "") : ended word.toList = [.word word] := by
  cases hw : word.toList with
  | nil => exact absurd (String.toList_eq_nil_iff.mp hw) h
  | cons c cs => rw [ended, ← hw, String.ofList_toList]

theorem scan_indent (depth : Nat) :
    scan (.plain []) (indent depth).toList = some (.plain [], []) := by
  rw [indent, String.toList_ofList]
  induction 4 * depth + 4 with
  | zero => rfl
  | succ n ih =>
    have hblank : Mode.step (.plain []) ' ' = some (.plain [], []) := rfl
    rw [List.replicate_succ, scan, hblank, Option.bind_some, ih]
    rfl

/-- Between quotes a text is read back, and the quotes stay open. -/
theorem scan_escape (text : List Glyph) (s : String) :
    scan (.quoted text) (escape s).toList = some (.quoted (text ++ glyphs s), []) := by
  rw [escape, String.toList_ofList, glyphs]
  induction s.toList generalizing text with
  | nil => rw [List.flatMap_nil, scan, List.map_nil, List.append_nil]
  | cons c cs ih =>
    have hc : scan (.quoted text) (escapeChar c) = some (.quoted (text ++ [.char c]), []) := by
      by_cases hbackslash : c = '\\'
      · subst hbackslash
        rfl
      · by_cases hquote : c = '"'
        · subst hquote
          rfl
        · have hplain : escapeChar c = [c] := by
            unfold escapeChar
            split <;> first | contradiction | rfl
          rw [hplain, scan, Mode.step, if_neg hquote, if_neg hbackslash]
          rfl
    rw [List.flatMap_cons, List.map_cons, ← List.singleton_append (l := cs.map Glyph.char),
      ← List.append_assoc]
    exact scan_append hc (ih _)

/-! ## Ids -/

theorem toList_nodeText (id : NodeId) : id.text.toList = 'n' :: Nat.toDigits 10 id.index := by
  simp [NodeId.text, toString]

theorem toList_scopeText (id : ScopeId) : id.text.toList = 's' :: Nat.toDigits 10 id.index := by
  simp [ScopeId.text, toString]

theorem toDigits_injective {a b : Nat} (h : Nat.toDigits 10 a = Nat.toDigits 10 b) : a = b := by
  have hvalue := congrArg (Nat.ofDigitChars 10 · 0) h
  simpa only [Nat.ofDigitChars_ten_toDigits] using hvalue

theorem nodeText_injective : Function.Injective NodeId.text := by
  intro a b h
  have hlist := congrArg String.toList h
  rw [toList_nodeText, toList_nodeText] at hlist
  exact congrArg NodeId.mk (toDigits_injective (List.cons.inj hlist).2)

theorem scopeText_injective : Function.Injective ScopeId.text := by
  intro a b h
  have hlist := congrArg String.toList h
  rw [toList_scopeText, toList_scopeText] at hlist
  exact congrArg ScopeId.mk (toDigits_injective (List.cons.inj hlist).2)

theorem isWordChar_digits (n : Nat) : ∀ c ∈ Nat.toDigits 10 n, isWordChar c = true := by
  intro c hc
  have hdigit : c.isDigit = true := Nat.isDigit_of_mem_toDigits (by decide) (by decide) hc
  simp [isWordChar, Char.isAlphanum, hdigit]

theorem isWordChar_nodeText (id : NodeId) : ∀ c ∈ id.text.toList, isWordChar c = true := by
  rw [toList_nodeText]
  exact List.forall_mem_cons.mpr ⟨rfl, isWordChar_digits _⟩

theorem isWordChar_scopeText (id : ScopeId) : ∀ c ∈ id.text.toList, isWordChar c = true := by
  rw [toList_scopeText]
  exact List.forall_mem_cons.mpr ⟨rfl, isWordChar_digits _⟩

theorem ended_nodeText (id : NodeId) : ended id.text.toList = [.word id.text] := by
  rw [toList_nodeText, ended, ← toList_nodeText, String.ofList_toList]

/-- There are only digits behind the letter of an id, and not in a keyword that begins with it. -/
theorem nodeText_not_mem_keywords (id : NodeId) : id.text ∉ keywords := by
  intro hmem
  have hkeyword : ∀ word ∈ keywords, word.toList.head? = some 'n' →
      word.toList.tail.all Char.isDigit = false := by decide
  have hdigits : id.text.toList.tail.all Char.isDigit = true := by
    rw [toList_nodeText, List.tail_cons, List.all_eq_true]
    exact fun c hc => Nat.isDigit_of_mem_toDigits (by decide) (by decide) hc
  rw [hkeyword _ hmem (by rw [toList_nodeText]; rfl)] at hdigits
  cases hdigits

/-- The name of the cluster for a scope. -/
def clusterName (id : ScopeId) : String := "cluster_" ++ id.text

theorem clusterName_injective : Function.Injective clusterName := by
  intro a b h
  have hlist := congrArg String.toList h
  rw [clusterName, clusterName, String.toList_append, String.toList_append] at hlist
  exact scopeText_injective (String.toList_inj.mp (List.append_cancel_left hlist))

/-! ## The tokens of a line -/

/-- A quoted text ends with the quote that was written to end it. -/
theorem scan_quote (text : List Glyph) :
    scan (.quoted text) "\"];\n".toList =
      some (.plain [], [.quoted text, .mark ']', .mark ';']) := rfl

/-- The color of a box. -/
def color (shows : Bool) : String := if shows then "lightblue" else "lightsalmon"

/-- The tokens before all nodes. -/
def openingTokens : List Token :=
  let defaults (sort size : String) : List Token :=
    [.word sort, .mark '[', .word "fontname", .mark '=', .quoted (glyphs "Helvetica"), .mark ',',
      .word "fontsize", .mark '=', .word size, .mark ']', .mark ';']
  [.word "digraph", .word "lumen", .mark '\x7b', .word "rankdir", .mark '=', .word "LR",
    .mark ';'] ++ defaults "node" "10" ++ defaults "edge" "9"

theorem scan_opening :
    scan (.plain []) Line.opening.render.toList = some (.plain [], openingTokens) := by
  decide +kernel

theorem scan_node (depth : Nat) (id : NodeId) (shows : Bool) (name typeName : String) :
    scan (.plain []) (Line.node depth id shows name typeName).render.toList = some (.plain [],
      [.word id.text, .mark '[', .word "shape", .mark '=', .word "box", .mark ',',
        .word "style", .mark '=', .word "filled", .mark ',',
        .word "fillcolor", .mark '=', .word (color shows), .mark ',',
        .word "label", .mark '=', .quoted (glyphs name ++ .escape 'n' :: glyphs typeName),
        .mark ']', .mark ';']) := by
  have hid := scan_word [] (isWordChar_nodeText id)
  have hstyle : scan (.plain id.text.toList) " [shape=box, style=filled, fillcolor=".toList =
      some (.plain [], ended id.text.toList ++ [.mark '[', .word "shape", .mark '=', .word "box",
        .mark ',', .word "style", .mark '=', .word "filled", .mark ',', .word "fillcolor",
        .mark '=']) := scan_behind _ rfl rfl
  have hletters : (color shows).toList.all isWordChar = true := by cases shows <;> rfl
  have hcolor := scan_word [] (List.all_eq_true.mp hletters)
  have hcomma : scan (.plain (color shows).toList) ", ".toList =
      some (.plain [], ended (color shows).toList ++ [.mark ',']) :=
    scan_behind _ rfl rfl
  have hlabel : scan (.plain []) "label=\"".toList =
      some (.quoted [], [.word "label", .mark '=']) := rfl
  have hbreak (text : List Glyph) : scan (.quoted text) "\\n".toList =
      some (.quoted (text ++ [.escape 'n']), []) := rfl
  have hended : ended (color shows).toList = [.word (color shows)] := by cases shows <;> rfl
  have hall := scan_append (scan_indent depth) <| scan_append hid <| scan_append hstyle <|
    scan_append hcolor <| scan_append hcomma <| scan_append hlabel <|
    scan_append (scan_escape [] name) <| scan_append (hbreak _) <|
    scan_append (scan_escape _ typeName) (scan_quote _)
  simp only [ended_nodeText, hended, List.nil_append, List.cons_append, List.append_assoc] at hall
  delta Line.render
  dsimp only [toString]
  simp only [String.toList_append, List.append_assoc]
  exact hall

theorem scan_openCluster (depth : Nat) (id : ScopeId) (typeName name : String) :
    scan (.plain []) (Line.openCluster depth id typeName name).render.toList = some (.plain [],
      [.word "subgraph", .word (clusterName id), .mark '\x7b',
        .word "label", .mark '=', .quoted (glyphs typeName ++ glyphs ": " ++ glyphs name),
        .mark ';', .word "style", .mark '=', .word "rounded", .mark ';',
        .word "color", .mark '=', .word "gray50", .mark ';']) := by
  have hfeed : scan (.plain []) "\n".toList = some (.plain [], []) := rfl
  have hkeyword : scan (.plain []) "subgraph cluster_".toList =
      some (.plain "cluster_".toList, [.word "subgraph"]) := rfl
  have hid := scan_word "cluster_".toList (isWordChar_scopeText id)
  have hbrace (word : List Char) : scan (.plain word) " \x7b\n".toList =
      some (.plain [], ended word ++ [.mark '\x7b']) := rfl
  have hlabel : scan (.plain []) "    label=\"".toList =
      some (.quoted [], [.word "label", .mark '=']) := rfl
  have hcolon (text : List Glyph) : scan (.quoted text) ": ".toList =
      some (.quoted (text ++ glyphs ": "), []) := scan_escape text ": "
  have hend (text : List Glyph) : scan (.quoted text) "\";\n".toList =
      some (.plain [], [.quoted text, .mark ';']) := rfl
  have hstyle : scan (.plain []) "    style=rounded;\n".toList =
      some (.plain [], [.word "style", .mark '=', .word "rounded", .mark ';']) := rfl
  have hcolor : scan (.plain []) "    color=gray50;\n".toList =
      some (.plain [], [.word "color", .mark '=', .word "gray50", .mark ';']) := rfl
  have hname : ended ("cluster_".toList ++ id.text.toList) = [.word (clusterName id)] := by
    have hne : clusterName id ≠ "" := mt (congrArg String.toList) (by simp [clusterName])
    rw [← String.toList_append]
    exact ended_toList hne
  have hindent := scan_indent depth
  have hall := scan_append hfeed <| scan_append hindent <| scan_append hkeyword <|
    scan_append hid <| scan_append (hbrace _) <| scan_append hindent <| scan_append hlabel <|
    scan_append (scan_escape [] typeName) <| scan_append (hcolon _) <|
    scan_append (scan_escape _ name) <| scan_append (hend _) <| scan_append hindent <|
    scan_append hstyle <| scan_append hindent hcolor
  simp only [hname, List.nil_append, List.cons_append, List.append_assoc] at hall
  delta Line.render
  dsimp only [toString]
  simp only [String.toList_append, List.append_assoc]
  exact hall

theorem scan_closeCluster (depth : Nat) :
    scan (.plain []) (Line.closeCluster depth).render.toList = some (.plain [], [.mark '\x7d']) := by
  have hbrace : scan (.plain []) "\x7d\n".toList = some (.plain [], [.mark '\x7d']) :=
    rfl
  have hall := scan_append (scan_indent depth) hbrace
  delta Line.render
  dsimp only [toString]
  rwa [String.toList_append]

theorem scan_edge (source target : NodeId) (slot : String) :
    scan (.plain []) (Line.edge source target slot).render.toList = some (.plain [],
      [.word source.text, .arrow, .word target.text, .mark '[', .word "label", .mark '=',
        .quoted (glyphs slot), .mark ']', .mark ';']) := by
  have hmargin : scan (.plain []) "    ".toList = some (.plain [], []) := rfl
  have hsource := scan_word [] (isWordChar_nodeText source)
  have htarget := scan_word [] (isWordChar_nodeText target)
  have harrow : scan (.plain source.text.toList) " -> ".toList =
      some (.plain [], ended source.text.toList ++ [.arrow]) :=
    scan_behind _ rfl rfl
  have hlabel : scan (.plain target.text.toList) " [label=\"".toList =
      some (.quoted [], ended target.text.toList ++ [.mark '[', .word "label", .mark '=']) :=
    scan_behind _ rfl rfl
  have hall := scan_append hmargin <| scan_append hsource <| scan_append harrow <|
    scan_append htarget <| scan_append hlabel <| scan_append (scan_escape [] slot) (scan_quote _)
  simp only [ended_nodeText, List.nil_append, List.cons_append] at hall
  delta Line.render
  dsimp only [toString]
  simp only [String.toList_append, List.append_assoc]
  exact hall

/-! ## What a line says -/

/-- What a text says: the graphs that are open before it and behind it, and the statements in it. -/
def Says (text : String) (nest nest' : List String) (items : List Placed) : Prop :=
  ∃ ts, scan (.plain []) text.toList = some (.plain [], ts) ∧
    ∀ placed, Sheet.run ⟨nest, [], placed⟩ ts = some ⟨nest', [], placed ++ items⟩

namespace Says

variable {text text' : String} {nest nest' nest'' : List String} {items items' : List Placed}

theorem empty (nest : List String) : Says "" nest nest [] :=
  ⟨[], rfl, fun placed => by rw [List.append_nil]; rfl⟩

theorem append (h : Says text nest nest' items) (h' : Says text' nest' nest'' items') :
    Says (text ++ text') nest nest'' (items ++ items') := by
  obtain ⟨ts, hscan, hrun⟩ := h
  obtain ⟨ts', hscan', hrun'⟩ := h'
  refine ⟨ts ++ ts', by rw [String.toList_append]; exact scan_append hscan hscan', fun placed => ?_⟩
  rw [Sheet.run_append (hrun placed), hrun', List.append_assoc]

end Says

/-- The settings of a box. -/
def boxSettings (shows : Bool) (name typeName : String) : Settings :=
  [("shape", glyphs "box"), ("style", glyphs "filled"), ("fillcolor", glyphs (color shows)),
    ("label", glyphs name ++ .escape 'n' :: glyphs typeName)]

theorem says_node {nest : List String} (hnest : nest ≠ []) (depth : Nat) (id : NodeId)
    (shows : Bool) (name typeName : String) :
    Says (Line.node depth id shows name typeName).render nest nest
      [⟨nest, .box id.text (boxSettings shows name typeName)⟩] := by
  refine ⟨_, scan_node depth id shows name typeName, fun placed => ?_⟩
  simp [Sheet.run, Sheet.step, Sheet.place, item?, settings?, Token.value?, boxSettings, hnest,
    nodeText_not_mem_keywords]

/-- A cluster, and what is set for it. -/
def clusterItems (nest : List String) (id : ScopeId) (typeName name : String) : List Placed :=
  let inside := nest ++ [clusterName id]
  [⟨nest, .graph "subgraph" (clusterName id)⟩,
    ⟨inside, .setting "label" (glyphs typeName ++ glyphs ": " ++ glyphs name)⟩,
    ⟨inside, .setting "style" (glyphs "rounded")⟩, ⟨inside, .setting "color" (glyphs "gray50")⟩]

theorem says_openCluster {nest : List String} (hnest : nest ≠ []) (depth : Nat) (id : ScopeId)
    (typeName name : String) :
    Says (Line.openCluster depth id typeName name).render nest (nest ++ [clusterName id])
      (clusterItems nest id typeName name) := by
  refine ⟨_, scan_openCluster depth id typeName name, fun placed => ?_⟩
  simp [Sheet.run, Sheet.step, Sheet.place, item?, Token.value?, clusterItems, hnest]

theorem says_closeCluster (nest : List String) (name : String) (depth : Nat) :
    Says (Line.closeCluster depth).render (nest ++ [name]) nest [] := by
  refine ⟨_, scan_closeCluster depth, fun placed => ?_⟩
  simp [Sheet.run, Sheet.step]

theorem says_edge {nest : List String} (hnest : nest ≠ []) (source target : NodeId)
    (slot : String) :
    Says (Line.edge source target slot).render nest nest
      [⟨nest, .arrow source.text target.text [("label", glyphs slot)]⟩] := by
  refine ⟨_, scan_edge source target slot, fun placed => ?_⟩
  simp [Sheet.run, Sheet.step, Sheet.place, item?, settings?, Token.value?, hnest,
    nodeText_not_mem_keywords]

theorem says_blank (nest : List String) : Says Line.blank.render nest nest [] :=
  ⟨[], rfl, fun placed => by rw [List.append_nil]; rfl⟩

theorem says_closing (name : String) : Says Line.closing.render [name] [] [] :=
  ⟨[.mark '\x7d'], rfl, fun placed => by rw [List.append_nil]; rfl⟩

/-- What comes before all nodes. -/
def heading : List Placed :=
  let defaults (size : String) : Settings :=
    [("fontname", glyphs "Helvetica"), ("fontsize", glyphs size)]
  [⟨[], .graph "digraph" "lumen"⟩, ⟨["lumen"], .setting "rankdir" (glyphs "LR")⟩,
    ⟨["lumen"], .defaults "node" (defaults "10")⟩, ⟨["lumen"], .defaults "edge" (defaults "9")⟩]

/-- What goes on after the opening is read as a whole. -/
theorem exists_tokens_of_says {text : String} {items : List Placed}
    (h : Says text ["lumen"] [] items) :
    ∃ ts, tokens? (Line.opening.render ++ text) = some ts ∧ placed? ts = some (heading ++ items) := by
  obtain ⟨ts, hscan, hrun⟩ := h
  have hopening : Sheet.run ⟨[], [], []⟩ openingTokens = some ⟨["lumen"], [], heading⟩ :=
    rfl
  refine ⟨openingTokens ++ ts, ?_, ?_⟩
  · rw [tokens?, String.toList_append, scan_append scan_opening hscan]
    exact congrArg some (List.append_nil _)
  · rw [placed?, Sheet.run_append hopening, hrun]

end FrameGraph.Diagram
