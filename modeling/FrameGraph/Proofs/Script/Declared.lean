import FrameGraph.Proofs.Script.Spelling
import Mathlib.Computability.Language

/-!
# Declared patterns

The lexical patterns as languages, written as one writes regular expressions and without a word on
how a text is searched for them. What a text of a pattern starts with tells the patterns apart,
except for numbers among each other, strings with and without their end, and truth values, which
are the only texts of two patterns.
-/
namespace FrameGraph.Script

open Computability

/-- One character of a class. -/
def oneOf (p : Char → Prop) : Language Char := {s | ∃ c, p c ∧ s = [c]}

/-- At least one character of a class. -/
def runOf (p : Char → Prop) : Language Char := oneOf p * (oneOf p)∗

/-- Exactly this text. -/
def exactly (s : String) : Language Char := {s.toList}

/-- What stands between the quotes of a string: neither quote nor backslash, or a backslash with
any character behind it. -/
def stringItem : Language Char :=
  oneOf (fun c => c ≠ '"' ∧ c ≠ '\\') + exactly "\\" * oneOf fun _ => True

namespace Pattern

/-- The texts that are declared to have the pattern. A comment that is opened is declared by its
opening alone, and no text is declared to be stray. -/
def language : Pattern → Language Char
  | symbol => oneOf (· ∈ ['(', ')', ',', '.', '='])
  | keyword => exactly "true" + exactly "false"
  | decimal => runOf (·.isDigit)
  | hexadecimal => exactly "0" * oneOf (fun c => c = 'x' ∨ c = 'X') * runOf (isHexDigit ·)
  | real => runOf (·.isDigit) * exactly "." * runOf (·.isDigit)
  | string => exactly "\"" * stringItem∗ * exactly "\""
  | openString => exactly "\"" * stringItem∗
  | openComment => exactly "/*"
  | identifier => oneOf (startsName ·) * (oneOf (continuesName ·))∗
  | stray => 0

end Pattern

theorem mem_exactly {t : String} {s : List Char} : s ∈ exactly t ↔ s = t.toList := Iff.rfl

theorem mem_kstar_oneOf {p : Char → Prop} {s : List Char} : s ∈ (oneOf p)∗ ↔ ∀ c ∈ s, p c := by
  rw [Language.mem_kstar]
  constructor
  · rintro ⟨parts, rfl, hparts⟩ c hc
    obtain ⟨part, hpart, hc⟩ := List.mem_flatten.mp hc
    obtain ⟨d, hd, rfl⟩ := hparts part hpart
    rwa [List.mem_singleton.mp hc]
  · intro h
    refine ⟨s.map fun c => [c], ?_, ?_⟩
    · induction s with
      | nil => rfl
      | cons c s ih => simpa using ih fun d hd => h d (List.mem_cons_of_mem _ hd)
    · intro part hpart
      obtain ⟨c, hc, rfl⟩ := List.mem_map.mp hpart
      exact ⟨c, h c hc, rfl⟩

theorem mem_oneOf_mul {p : Char → Prop} {l : Language Char} {s : List Char} :
    s ∈ oneOf p * l ↔ ∃ c rest, p c ∧ rest ∈ l ∧ s = c :: rest := by
  rw [Language.mem_mul]
  constructor
  · rintro ⟨_, ⟨c, hc, rfl⟩, rest, hrest, rfl⟩
    exact ⟨c, rest, hc, hrest, rfl⟩
  · rintro ⟨c, rest, hc, hrest, rfl⟩
    exact ⟨[c], ⟨c, hc, rfl⟩, rest, hrest, rfl⟩

theorem mem_runOf {p : Char → Prop} {s : List Char} : s ∈ runOf p ↔ s ≠ [] ∧ ∀ c ∈ s, p c := by
  rw [runOf, mem_oneOf_mul]
  constructor
  · rintro ⟨c, rest, hc, hrest, rfl⟩
    exact ⟨List.cons_ne_nil _ _, List.forall_mem_cons.mpr ⟨hc, mem_kstar_oneOf.mp hrest⟩⟩
  · rintro ⟨hne, hall⟩
    obtain ⟨c, rest, rfl⟩ := List.exists_cons_of_ne_nil hne
    obtain ⟨hc, hrest⟩ := List.forall_mem_cons.mp hall
    exact ⟨c, rest, hc, mem_kstar_oneOf.mpr hrest, rfl⟩

theorem mem_kstar_cons {l : Language Char} {s t : List Char} (hs : s ∈ l) (ht : t ∈ l∗) :
    s ++ t ∈ l∗ := by
  rw [← Language.one_add_self_mul_kstar_eq_kstar]
  exact .inr (Language.append_mem_mul hs ht)

theorem mem_kstar_stringItem {s : List Char} : s ∈ stringItem∗ ↔ IsBody s := by
  constructor
  · intro h
    obtain ⟨parts, rfl, hparts⟩ := Language.mem_kstar.mp h
    clear h
    induction parts with
    | nil => exact .nil
    | cons part parts ih =>
      have hlater := ih fun p hp => hparts p (List.mem_cons_of_mem _ hp)
      rcases hparts part List.mem_cons_self with ⟨c, ⟨hquote, hbackslash⟩, rfl⟩ | hescape
      · exact .plain hquote hbackslash hlater
      · obtain ⟨_, rfl, _, ⟨c, -, rfl⟩, rfl⟩ := Language.mem_mul.mp hescape
        exact .escape c hlater
  · intro h
    induction h with
    | nil => exact Language.nil_mem_kstar _
    | @plain c rest hquote hbackslash _ ih =>
      exact mem_kstar_cons (s := [c]) (.inl ⟨c, ⟨hquote, hbackslash⟩, rfl⟩) ih
    | @escape c rest _ ih =>
      have hitem : ['\\', c] ∈ stringItem :=
        .inr (Language.append_mem_mul (mem_exactly.mpr rfl) ⟨c, trivial, rfl⟩)
      exact mem_kstar_cons hitem ih

/-- The language of a pattern has the texts of the pattern, and of an opened comment the
opening. -/
theorem mem_language_of_hasPattern {p : Pattern} {s : List Char} (h : HasPattern p s)
    (hcomment : p ≠ .openComment) (hstray : p ≠ .stray) : s ∈ p.language := by
  cases h with
  | symbol h => exact ⟨_, h, rfl⟩
  | keyword h => exact h
  | decimal hne hdigit => exact mem_runOf.mpr ⟨hne, hdigit⟩
  | @hexadecimal x digits hmark hne hdigit =>
    have hzero : ['0', x] ∈ exactly "0" * oneOf fun c => c = 'x' ∨ c = 'X' :=
      Language.append_mem_mul (mem_exactly.mpr rfl) ⟨x, hmark, rfl⟩
    exact Language.append_mem_mul hzero (mem_runOf.mpr ⟨hne, hdigit⟩)
  | @real text whole fraction h =>
    have hwhole := mem_runOf.mpr ⟨h.whole_ne_nil, h.whole_digits⟩
    have hfraction := mem_runOf.mpr ⟨h.fraction_ne_nil, h.fraction_digits⟩
    have hpoint := Language.append_mem_mul hwhole (mem_exactly (t := ".").mpr rfl)
    have hreal := Language.append_mem_mul hpoint hfraction
    rw [List.append_assoc] at hreal
    rwa [h.text]
  | @string body h =>
    have hopen :=
      Language.append_mem_mul (mem_exactly (t := "\"").mpr rfl) (mem_kstar_stringItem.mpr h)
    exact Language.append_mem_mul hopen (mem_exactly (t := "\"").mpr rfl)
  | openString h =>
    exact Language.append_mem_mul (mem_exactly (t := "\"").mpr rfl) (mem_kstar_stringItem.mpr h)
  | openComment rest => exact absurd rfl hcomment
  | @identifier s h =>
    obtain ⟨⟨hstarts, hcontinues⟩, -, -⟩ := h
    exact mem_oneOf_mul.mpr ⟨_, _, hstarts, mem_kstar_oneOf.mpr hcontinues, rfl⟩
  | stray c => exact absurd rfl hstray

/-- A text in the language of a pattern has the pattern, unless it is a truth value that is taken
for an identifier. -/
theorem hasPattern_of_mem_language {p : Pattern} {s : List Char} (h : s ∈ p.language) :
    HasPattern p s ∨ p = .identifier ∧ HasPattern .keyword s := by
  cases p with
  | symbol =>
    obtain ⟨c, hc, rfl⟩ := h
    exact .inl (.symbol hc)
  | keyword => exact .inl (.keyword h)
  | decimal =>
    obtain ⟨hne, hdigit⟩ := mem_runOf.mp h
    exact .inl (.decimal hne hdigit)
  | hexadecimal =>
    obtain ⟨_, hzero, digits, hdigits, rfl⟩ := Language.mem_mul.mp h
    obtain ⟨_, rfl, _, ⟨x, hmark, rfl⟩, rfl⟩ := Language.mem_mul.mp hzero
    obtain ⟨hne, hdigit⟩ := mem_runOf.mp hdigits
    exact .inl (.hexadecimal hmark hne hdigit)
  | real =>
    obtain ⟨_, hpoint, fraction, hfraction, rfl⟩ := Language.mem_mul.mp h
    obtain ⟨whole, hwhole, _, rfl, rfl⟩ := Language.mem_mul.mp hpoint
    obtain ⟨hwne, hwdigit⟩ := mem_runOf.mp hwhole
    obtain ⟨hfne, hfdigit⟩ := mem_runOf.mp hfraction
    exact .inl (.real ⟨by simp, hwne, hfne, hwdigit, hfdigit⟩)
  | string =>
    obtain ⟨_, hopen, _, rfl, rfl⟩ := Language.mem_mul.mp h
    obtain ⟨_, rfl, body, hbody, rfl⟩ := Language.mem_mul.mp hopen
    exact .inl (.string (mem_kstar_stringItem.mp hbody))
  | openString =>
    obtain ⟨_, rfl, body, hbody, rfl⟩ := Language.mem_mul.mp h
    exact .inl (.openString (mem_kstar_stringItem.mp hbody))
  | openComment =>
    obtain rfl : s = "/*".toList := h
    exact .inl (.openComment [])
  | identifier =>
    obtain ⟨c, rest, hstarts, hrest, rfl⟩ := mem_oneOf_mul.mp h
    have hword : IsWord (c :: rest) := .word hstarts (mem_kstar_oneOf.mp hrest)
    by_cases hkeyword : c :: rest = "true".toList ∨ c :: rest = "false".toList
    · exact .inr ⟨rfl, .keyword hkeyword⟩
    · obtain ⟨htrue, hfalse⟩ := not_or.mp hkeyword
      exact .inl (.identifier ⟨hword, htrue, hfalse⟩)
  | stray => exact absurd h (Language.notMem_zero s)

/-! ## The first character -/

/-- What the texts of a pattern start with. -/
def Pattern.lead : Pattern → Lead
  | symbol => .symbol
  | string => .quote
  | openString => .quote
  | openComment => .slash
  | decimal => .digit
  | hexadecimal => .digit
  | real => .digit
  | keyword => .name
  | identifier => .name
  | stray => .other

theorem lead_of_hasPattern {p : Pattern} {s : List Char} (h : HasPattern p s) (hp : p ≠ .stray) :
    ∃ c rest, s = c :: rest ∧ lead c = p.lead := by
  cases h with
  | symbol h => exact ⟨_, _, rfl, lead_of_symbol h⟩
  | keyword h => rcases h with rfl | rfl <;> exact ⟨_, _, rfl, rfl⟩
  | @decimal digits hne hdigit =>
    obtain ⟨d, digits, rfl⟩ := List.exists_cons_of_ne_nil hne
    exact ⟨d, digits, rfl, lead_of_isDigit (hdigit d List.mem_cons_self)⟩
  | hexadecimal => exact ⟨_, _, rfl, rfl⟩
  | @real text whole fraction h =>
    obtain ⟨d, whole, rfl⟩ := List.exists_cons_of_ne_nil h.whole_ne_nil
    exact ⟨d, _, h.text, lead_of_isDigit (h.whole_digits d List.mem_cons_self)⟩
  | string => exact ⟨_, _, rfl, rfl⟩
  | openString => exact ⟨_, _, rfl, rfl⟩
  | openComment => exact ⟨_, _, rfl, rfl⟩
  | @identifier s h =>
    obtain ⟨⟨hstarts, -⟩, -, -⟩ := h
    exact ⟨_, _, rfl, lead_of_startsName hstarts⟩
  | stray => exact absurd rfl hp

/-- A text in the language of a pattern starts as the pattern does. -/
theorem lead_of_mem_language {p : Pattern} {s : List Char} (h : s ∈ p.language) :
    ∃ c rest, s = c :: rest ∧ lead c = p.lead := by
  have hp : p ≠ .stray := by
    rintro rfl
    exact Language.notMem_zero s h
  rcases hasPattern_of_mem_language h with hpattern | ⟨rfl, hkeyword⟩
  · exact lead_of_hasPattern hpattern hp
  · obtain ⟨c, rest, hs, hlead⟩ := lead_of_hasPattern hkeyword (by decide)
    exact ⟨c, rest, hs, hlead⟩

/-! ## One text, one pattern -/

theorem notMem_of_isDigit {s : List Char} (hs : ∀ c ∈ s, c.isDigit = true) {d : Char}
    (hd : d.isDigit = false) : d ∉ s := fun hmem => ne_of_isDigit hd (hs d hmem) rfl

/-- Of the numbers only reals have a point. -/
theorem point_mem_iff {p : Pattern} {s : List Char} (h : HasPattern p s) (hp : p.lead = .digit) :
    '.' ∈ s ↔ p = .real := by
  cases h with
  | decimal hne hdigit => simpa using notMem_of_isDigit hdigit rfl
  | @hexadecimal x digits hmark hne hdigit =>
    have hx : '.' ≠ x := by rcases hmark with rfl | rfl <;> decide
    have hdigits : '.' ∉ digits := fun hpoint => by cases hdigit _ hpoint
    simp [hx, hdigits]
  | real h => simp [h.text]
  | _ => cases hp

/-- Of the numbers only hexadecimals have a letter behind their first digit. -/
theorem mark_mem_iff {p : Pattern} {s : List Char} (h : HasPattern p s) (hp : p.lead = .digit) :
    ('x' ∈ s ∨ 'X' ∈ s) ↔ p = .hexadecimal := by
  cases h with
  | decimal hne hdigit =>
    simpa using ⟨notMem_of_isDigit hdigit rfl, notMem_of_isDigit hdigit rfl⟩
  | hexadecimal hmark hne hdigit => rcases hmark with rfl | rfl <;> simp
  | real h =>
    have hnot {d : Char} (hd : d.isDigit = false) (hpoint : d ≠ '.') : d ∉ s := by
      simp [h.text, notMem_of_isDigit h.whole_digits hd, notMem_of_isDigit h.fraction_digits hd,
        hpoint]
    simp [hnot]
  | _ => cases hp

theorem isBody_cons {c : Char} {s : List Char} (h : IsBody (c :: s)) :
    c ≠ '"' ∧ c ≠ '\\' ∧ IsBody s ∨ c = '\\' ∧ ∃ d t, s = d :: t ∧ IsBody t := by
  cases h with
  | plain hquote hbackslash later => exact .inl ⟨hquote, hbackslash, later⟩
  | escape d later => exact .inr ⟨rfl, d, _, rfl, later⟩

theorem not_isBody_concat_quote {body : List Char} (h : IsBody body) : ¬IsBody (body ++ ['"']) := by
  induction h with
  | nil =>
    intro hquote
    rcases isBody_cons hquote with ⟨hne, -⟩ | ⟨heq, -⟩
    · exact hne rfl
    · cases heq
  | plain hquote hbackslash _ ih =>
    intro hwhole
    rcases isBody_cons hwhole with ⟨-, -, later⟩ | ⟨heq, -⟩
    · exact ih later
    · exact hbackslash heq
  | escape c _ ih =>
    intro hwhole
    rcases isBody_cons hwhole with ⟨-, hne, -⟩ | ⟨-, _, _, heq, later⟩
    · exact hne rfl
    · obtain ⟨rfl, rfl⟩ := List.cons.inj heq
      exact ih later

theorem not_string_and_openString {s : List Char} (hclosed : HasPattern .string s) :
    ¬HasPattern .openString s := by
  intro hopen
  cases hclosed with
  | @string body hbody =>
    cases hopen with
    | openString hwhole => exact not_isBody_concat_quote hbody hwhole

theorem not_keyword_and_identifier {s : List Char} (hkeyword : HasPattern .keyword s) :
    ¬HasPattern .identifier s := by
  rintro ⟨⟩
  rename_i hname
  cases hkeyword with
  | keyword h => exact h.elim hname.ne_true hname.ne_false

/-- No text has two patterns. -/
theorem HasPattern.unique {p q : Pattern} {s : List Char} (hp : HasPattern p s)
    (hq : HasPattern q s) (hpstray : p ≠ .stray) (hqstray : q ≠ .stray) : p = q := by
  obtain ⟨c, rest, rfl, hplead⟩ := lead_of_hasPattern hp hpstray
  obtain ⟨_, _, heq, hqlead⟩ := lead_of_hasPattern hq hqstray
  obtain ⟨rfl, rfl⟩ := List.cons.inj heq
  have hlead : p.lead = q.lead := hplead.symm.trans hqlead
  cases hfamily : p.lead with
  | digit =>
    have hpoint := (point_mem_iff hp hfamily).symm.trans (point_mem_iff hq (hlead ▸ hfamily))
    have hmark := (mark_mem_iff hp hfamily).symm.trans (mark_mem_iff hq (hlead ▸ hfamily))
    cases p <;> cases q <;> simp_all [Pattern.lead]
  | quote =>
    cases p <;> cases q <;> simp_all [Pattern.lead]
    · exact not_string_and_openString hp hq
    · exact not_string_and_openString hq hp
  | name =>
    cases p <;> cases q <;> simp_all [Pattern.lead]
    · exact not_keyword_and_identifier hp hq
    · exact not_keyword_and_identifier hq hp
  | _ => cases p <;> cases q <;> simp_all [Pattern.lead]

end FrameGraph.Script
