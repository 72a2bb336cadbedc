import FrameGraph.Diagram

/-!
# Reading the DOT language

A text is first cut into tokens, where quotes count: between them a backslash makes the next
character part of the text, or forms an escape sequence with it, and nothing else ends the text but
a quote. The tokens are then read as statements, each in the graphs that are open where it stands. A
graph is open from one brace to the other. Only a part of the language is read: statements end in a
semicolon, and there are no ports, comments or subgraphs without a name.
-/
namespace FrameGraph.Diagram

/-! ## Tokens -/

/-- What stands in a text between quotes: a character, or an escape sequence that is for none. -/
inductive Glyph where
  | char (c : Char)
  | escape (c : Char)
  deriving DecidableEq

/-- A text without escape sequences. -/
def glyphs (s : String) : List Glyph := s.toList.map .char

/-- What a text is cut into. -/
inductive Token where
  | word (text : String)
  | quoted (text : List Glyph)
  | arrow
  | mark (c : Char)
  deriving DecidableEq

/-- Where a place in a text is: after a piece of a word, after the first half of an arrow, or between
quotes, perhaps after a backslash. -/
inductive Mode where
  | plain (word : List Char)
  | dash
  | quoted (text : List Glyph)
  | backslash (text : List Glyph)
  deriving DecidableEq

/-- A word that has ended, if there is one. -/
def ended : List Char → List Token
  | [] => []
  | c :: cs => [.word (String.ofList (c :: cs))]

/-- The character can stand in a word. -/
def isWordChar (c : Char) : Bool := c.isAlphanum || c = '_'

/-- The mode behind a character, and the tokens that end there. -/
def Mode.step : Mode → Char → Option (Mode × List Token)
  | plain word, c =>
    if isWordChar c then some (plain (word ++ [c]), [])
    else if c.isWhitespace then some (plain [], ended word)
    else if c = '"' then some (quoted [], ended word)
    else if c = '-' then some (dash, ended word)
    else if c ∈ ['\x7b', '\x7d', '[', ']', ';', ',', '='] then
      some (plain [], ended word ++ [.mark c])
    else none
  | dash, c => if c = '>' then some (plain [], [.arrow]) else none
  | quoted text, c =>
    if c = '"' then some (plain [], [.quoted text])
    else if c = '\\' then some (backslash text, [])
    else some (quoted (text ++ [.char c]), [])
  | backslash text, c =>
    if c = '"' ∨ c = '\\' then some (quoted (text ++ [.char c]), [])
    -- A line feed is left out with its backslash.
    else if c = '\n' then some (quoted text, [])
    else some (quoted (text ++ [.escape c]), [])

/-- The mode behind a text, and the tokens that end in it. -/
def scan : Mode → List Char → Option (Mode × List Token)
  | m, [] => some (m, [])
  | m, c :: cs => (m.step c).bind fun next =>
    (scan next.1 cs).map fun last => (last.1, next.2 ++ last.2)

/-- The tokens of a text, which must not end between quotes. -/
def tokens? (text : String) : Option (List Token) :=
  match scan (.plain []) text.toList with
  | some (.plain word, ts) => some (ts ++ ended word)
  | _ => none

/-- A text is read piece by piece. -/
theorem scan_append {m m' m'' : Mode} {front back : List Char} {before after : List Token}
    (hfront : scan m front = some (m', before)) (hback : scan m' back = some (m'', after)) :
    scan m (front ++ back) = some (m'', before ++ after) := by
  induction front generalizing m before with
  | nil =>
    cases hfront
    exact hback
  | cons c cs ih =>
    rw [scan, Option.bind_eq_some_iff] at hfront
    obtain ⟨next, hstep, hcs⟩ := hfront
    obtain ⟨last, hlast, hends⟩ := Option.map_eq_some_iff.mp hcs
    cases hends
    rw [List.cons_append, scan, hstep, Option.bind_some, ih hlast, Option.map_some,
      List.append_assoc]

/-! ## Statements -/

/-- The words that are no ids. -/
def keywords : List String := ["strict", "graph", "digraph", "subgraph", "node", "edge"]

/-- What is set, in the order in which it is set. -/
abbrev Settings := List (String × List Glyph)

/-- What a statement says. -/
inductive Item where
  | graph (sort name : String)
  | setting (key : String) (value : List Glyph)
  | defaults (sort : String) (settings : Settings)
  | box (id : String) (settings : Settings)
  | arrow (source target : String) (settings : Settings)
  deriving DecidableEq

/-- A statement, and the graphs in which it stands, the outermost first. -/
structure Placed where
  nest : List String
  item : Item
  deriving DecidableEq

/-- The value that a token stands for. A word and the same text in quotes are one value. -/
def Token.value? : Token → Option (List Glyph)
  | word s => some (glyphs s)
  | quoted text => some text
  | arrow | mark _ => none

/-- The settings behind an opening bracket, with the closing one. -/
def settings? : List Token → Option Settings
  | [.word key, .mark '=', v, .mark ']'] => do return [(key, ← v.value?)]
  | .word key :: .mark '=' :: v :: .mark ',' :: rest => do
    return (key, ← v.value?) :: (← settings? rest)
  | _ => none

/-- The statement that tokens before a semicolon make. -/
def item? : List Token → Option Item
  | [.word key, .mark '=', v] => do return .setting key (← v.value?)
  | .word id :: .mark '[' :: rest => do
    let settings ← settings? rest
    if id ∉ keywords then some (.box id settings)
    else if id ∈ ["graph", "node", "edge"] then some (.defaults id settings)
    else none
  | .word source :: .arrow :: .word target :: .mark '[' :: rest => do
    let settings ← settings? rest
    if source ∈ keywords ∨ target ∈ keywords then none
    else some (.arrow source target settings)
  | _ => none

/-- A diagram that has been read in part: the graphs that are open, the tokens since the last
statement, and the statements so far. -/
structure Sheet where
  nest : List String
  pending : List Token
  placed : List Placed
  deriving DecidableEq

/-- A statement has ended. -/
def Sheet.place (s : Sheet) (item : Item) : Sheet :=
  { s with pending := [], placed := s.placed ++ [⟨s.nest, item⟩] }

/-- One token more. The one graph that is in no other comes first. -/
def Sheet.step (s : Sheet) : Token → Option Sheet
  | .mark '\x7b' =>
    match s.pending with
    | [.word sort, .word name] =>
      if sort = "digraph" ∧ s.nest = [] ∧ s.placed = [] ∨ sort = "subgraph" ∧ s.nest ≠ [] then
        some { s.place (.graph sort name) with nest := s.nest ++ [name] }
      else none
    | _ => none
  | .mark '\x7d' =>
    if s.pending = [] ∧ s.nest ≠ [] then some { s with nest := s.nest.dropLast } else none
  | .mark ';' => if s.nest = [] then none else (item? s.pending).map s.place
  | t => some { s with pending := s.pending ++ [t] }

/-- Reads tokens one after the other. -/
def Sheet.run (s : Sheet) (ts : List Token) : Option Sheet := ts.foldlM Sheet.step s

theorem Sheet.run_append {s s' : Sheet} {ts : List Token} (h : s.run ts = some s')
    (rest : List Token) : s.run (ts ++ rest) = s'.run rest := by
  rw [run, List.foldlM_append, ← run, h]
  rfl

/-- The statements that tokens make, if all graphs that are opened are closed. -/
def placed? (ts : List Token) : Option (List Placed) :=
  match Sheet.run ⟨[], [], []⟩ ts with
  | some ⟨[], [], placed⟩ => some placed
  | _ => none

/-- The statements of a text. -/
def read? (text : String) : Option (List Placed) := (tokens? text).bind placed?

/-! ## Braces -/

/-- How many braces are open behind tokens, if none is closed that is not open. -/
def braces? : List Token → Nat → Option Nat
  | [], depth => some depth
  | t :: ts, depth =>
    if t = .mark '\x7b' then braces? ts (depth + 1)
    else if t = .mark '\x7d' then
      if depth = 0 then none else braces? ts (depth - 1)
    else braces? ts depth

/-- Each brace that is opened is closed, and no other. -/
def Balanced (ts : List Token) : Prop := braces? ts 0 = some 0

theorem Sheet.braces?_cons {s s' : Sheet} {t : Token} (h : s.step t = some s') (ts : List Token) :
    braces? (t :: ts) s.nest.length = braces? ts s'.nest.length := by
  unfold step at h
  split at h
  · split at h
    · split at h
      · cases h
        simp [braces?]
      · cases h
    · cases h
  · split at h
    · rename_i hopen
      cases h
      have hlength : s.nest.length ≠ 0 := mt List.length_eq_zero_iff.mp hopen.2
      simp [braces?, hlength]
    · cases h
  · split at h
    · cases h
    · obtain ⟨item, -, rfl⟩ := Option.map_eq_some_iff.mp h
      simp [braces?, place]
  · rename_i hopen hclose _
    cases h
    rw [braces?, if_neg hopen, if_neg hclose]

/-- While tokens are read, as many graphs are open as braces. -/
theorem Sheet.braces?_run {s s' : Sheet} {ts : List Token} (h : s.run ts = some s') :
    braces? ts s.nest.length = some s'.nest.length := by
  induction ts generalizing s with
  | nil =>
    cases h
    rfl
  | cons t ts ih =>
    rw [run, List.foldlM_cons, Option.bind_eq_bind, Option.bind_eq_some_iff] at h
    obtain ⟨next, hstep, hrest⟩ := h
    rw [braces?_cons hstep, ih hrest]

/-- The braces of whatever can be read are balanced. -/
theorem balanced_of_placed? {ts : List Token} {placed : List Placed} (h : placed? ts = some placed) :
    Balanced ts := by
  rw [placed?] at h
  split at h
  · rename_i hrun
    exact Sheet.braces?_run hrun
  · cases h

end FrameGraph.Diagram
