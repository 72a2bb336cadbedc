import FrameGraph.Proofs.Script.Patterns

/-!
# Spelling

How a token is written. A written token is the longest match at the head of its text, whatever
follows it as long as it is not continued, and it reads as the token again unless it is too long.
-/
namespace FrameGraph.Script

open Text
open Decimal (isDigit_range)

namespace Token

/-- A token as it is written. -/
def spelling : Token → List Char
  | openParen => ['(']
  | closeParen => [')']
  | comma => [',']
  | dot => ['.']
  | equals => ['=']
  | literal v => (literalText v).toList
  | identifier n => n.toList

/-- The text does not go on with the token. -/
def EndsBefore (t : Token) (rest : List Char) : Prop :=
  match t with
  | literal (.string _) => True
  | literal _ => ∀ c ∈ rest.head?, continuesName c = false ∧ c ≠ '.'
  | identifier _ => ∀ c ∈ rest.head?, continuesName c = false
  | _ => True

end Token

/-- At the head of a text stands a lexeme of the pattern, which reads as the token if it fits. -/
structure Reads (pattern : Pattern) (text rest : List Char) (t : Token) : Prop where
  stays : ∀ offset, skip offset (text ++ rest) = ⟨offset, text ++ rest⟩
  longest : ∃ c s, text = c :: s ∧ longestMatch c (s ++ rest) = ⟨pattern, text, rest⟩
  read : pattern.read text =
    if maxLexemeLength < byteLength text then .error .tokenTooLong else .ok t

theorem utf8Size_of_isBlank {c : Char} (h : isBlank c = true) : c.utf8Size = 1 := by
  simp only [isBlank, Bool.or_eq_true, decide_eq_true_eq] at h
  obtain (((rfl | rfl) | rfl) | rfl) | rfl := h <;> rfl

theorem skip_of_ne {c : Char} (h : c ≠ '/') (offset : Nat) (s : List Char) :
    skip offset (c :: s) = if isBlank c then skip (offset + 1) s else ⟨offset, c :: s⟩ := by
  rw [skip.eq_def]
  split
  · rename_i hc
    exact absurd (List.cons.inj hc).1 h
  · rename_i hc
    exact absurd (List.cons.inj hc).1 h
  · rename_i hc
    cases hc
    rfl
  · rename_i hc
    cases hc

theorem skip_of_not_blank {c : Char} (hblank : isBlank c = false) (hslash : c ≠ '/')
    (offset : Nat) (s : List Char) : skip offset (c :: s) = ⟨offset, c :: s⟩ := by
  rw [skip_of_ne hslash, hblank]
  rfl

/-! ## The first character -/

theorem startsName_range {c : Char} (h : startsName c = true) :
    (65 ≤ c.toNat ∧ c.toNat ≤ 90) ∨ c.toNat = 95 ∨ (97 ≤ c.toNat ∧ c.toNat ≤ 122) := by
  simp only [startsName, Char.isAlpha, Char.isUpper, Char.isLower, Bool.or_eq_true,
    Bool.and_eq_true, decide_eq_true_eq, UInt32.le_iff_toNat_le] at h
  obtain (h | h) | rfl := h
  · exact .inl h
  · exact .inr (.inr h)
  · exact .inr (.inl rfl)

theorem ne_of_toNat_ne {c d : Char} (h : c.toNat ≠ d.toNat) : c ≠ d := fun hcd => h (by rw [hcd])

theorem isBlank_of_lt {c : Char} (h : 32 < c.toNat) : isBlank c = false := by
  have hspace : c ≠ ' ' := ne_of_toNat_ne (by have : ' '.toNat = 32 := rfl; omega)
  have htab : c ≠ '\t' := ne_of_toNat_ne (by have : '\t'.toNat = 9 := rfl; omega)
  have hreturn : c ≠ '\r' := ne_of_toNat_ne (by have : '\r'.toNat = 13 := rfl; omega)
  have hfeed : c ≠ '\n' := ne_of_toNat_ne (by have : '\n'.toNat = 10 := rfl; omega)
  have hpage : c ≠ '\x0c' := ne_of_toNat_ne (by have : '\x0c'.toNat = 12 := rfl; omega)
  simp [isBlank, hspace, htab, hreturn, hfeed, hpage]

/-- What the first character of a text can be. -/
inductive Lead where
  | symbol
  | quote
  | slash
  | digit
  | name
  | other
  deriving DecidableEq

/-- What a character is at the start of a text. -/
def lead (c : Char) : Lead :=
  if c ∈ ['(', ')', ',', '.', '='] then .symbol
  else if c = '"' then .quote
  else if c = '/' then .slash
  else if c.isDigit then .digit
  else if startsName c then .name
  else .other

theorem lead_of_symbol {c : Char} (h : c ∈ ['(', ')', ',', '.', '=']) : lead c = .symbol := by
  rw [lead, if_pos h]

theorem lead_of_plain {c : Char} (h : c.isDigit = true ∨ startsName c = true) :
    lead c = if c.isDigit then .digit else .name := by
  have hne {d : Char} (hd : d.isDigit = false) (hs : startsName d = false) : c ≠ d := by
    rintro rfl
    simp [hd, hs] at h
  have hsymbol : c ∉ ['(', ')', ',', '.', '='] := by
    have hopen : c ≠ '(' := hne rfl rfl
    have hclose : c ≠ ')' := hne rfl rfl
    have hcomma : c ≠ ',' := hne rfl rfl
    have hdot : c ≠ '.' := hne rfl rfl
    have hequals : c ≠ '=' := hne rfl rfl
    simp [hopen, hclose, hcomma, hdot, hequals]
  have hquote : c ≠ '"' := hne rfl rfl
  have hslash : c ≠ '/' := hne rfl rfl
  rw [lead, if_neg hsymbol, if_neg hquote, if_neg hslash]
  by_cases hdigit : c.isDigit = true
  · rw [if_pos hdigit, if_pos hdigit]
  · rw [if_neg hdigit, if_neg hdigit, if_pos (h.resolve_left hdigit)]

theorem lead_of_isDigit {c : Char} (h : c.isDigit = true) : lead c = .digit := by
  rw [lead_of_plain (.inl h), if_pos h]

theorem lead_of_startsName {c : Char} (h : startsName c = true) : lead c = .name := by
  have hdigit : ¬c.isDigit = true := by
    intro hd
    have := isDigit_range hd
    have := startsName_range h
    omega
  rw [lead_of_plain (.inr h), if_neg hdigit]

/-- The first character decides how the longest match is found. -/
theorem longestMatch_eq_lead (c : Char) (rest : List Char) :
    longestMatch c rest =
      match lead c with
      | .symbol => ⟨.symbol, [c], rest⟩
      | .quote => matchString rest
      | .slash =>
        if rest.head? = some '*' then ⟨.openComment, c :: rest, []⟩ else ⟨.stray, [c], rest⟩
      | .digit => matchNumber c rest
      | .name => matchWord c rest
      | .other => ⟨.stray, [c], rest⟩ := by
  have hsymbol : (c ∈ ['(', ')', ',', '.', '=']) =
      ((c = '(' || c = ')' || c = ',' || c = '.' || c = '=') = true) := by
    simp [or_assoc]
  have hslash : startsName '/' = false := rfl
  unfold longestMatch lead
  simp only [← hsymbol]
  split_ifs <;> simp_all

theorem longestMatch_of_isDigit {c : Char} (h : c.isDigit = true) (rest : List Char) :
    longestMatch c rest = matchNumber c rest := by
  rw [longestMatch_eq_lead, lead_of_isDigit h]

theorem longestMatch_of_startsName {c : Char} (h : startsName c = true) (rest : List Char) :
    longestMatch c rest = matchWord c rest := by
  rw [longestMatch_eq_lead, lead_of_startsName h]

theorem skip_of_isDigit {c : Char} (h : c.isDigit = true) (offset : Nat) (s : List Char) :
    skip offset (c :: s) = ⟨offset, c :: s⟩ := by
  have hrange := isDigit_range h
  refine skip_of_not_blank (isBlank_of_lt (by omega)) ?_ offset s
  rintro rfl
  cases h

theorem skip_of_startsName {c : Char} (h : startsName c = true) (offset : Nat) (s : List Char) :
    skip offset (c :: s) = ⟨offset, c :: s⟩ := by
  have hrange := startsName_range h
  refine skip_of_not_blank (isBlank_of_lt (by omega)) ?_ offset s
  rintro rfl
  cases h

/-! ## Symbols and strings -/

theorem reads_symbol {c : Char} {t : Token} (rest : List Char) (hsize : c.utf8Size = 1)
    (hblank : isBlank c = false) (hslash : c ≠ '/')
    (hsymbol : (c = '(' || c = ')' || c = ',' || c = '.' || c = '=') = true)
    (hread : readSymbol [c] = t) : Reads .symbol [c] rest t := by
  refine ⟨fun offset => skip_of_not_blank hblank hslash offset rest, ⟨c, [], rfl, ?_⟩, ?_⟩
  · rw [longestMatch, if_pos hsymbol]
    rfl
  · have hfits : ¬maxLexemeLength < byteLength [c] := by
      simp [hsize, maxLexemeLength]
    rw [if_neg hfits]
    simp only [Pattern.read, hread]

theorem stringBody_escapeChars (s rest : List Char) :
    stringBody (escapeChars s ++ '"' :: rest) = (escapeChars s, true, rest) := by
  induction s with
  | nil => rfl
  | cons c s ih =>
    rw [escapeChars_cons, List.append_assoc]
    unfold escapeChar
    split
    · simp [stringBody, ih]
    · simp [stringBody, ih]
    · simp [stringBody, ih]
    · rename_i _ hbackslash hquote
      simp only [List.cons_append, List.nil_append]
      rw [stringBody]
      · simp [ih]
      · exact hquote
      · exact fun h => absurd h hbackslash
      · exact fun _ _ h => absurd h hbackslash

theorem reads_string (s : String) (rest : List Char) :
    Reads .string ('"' :: escapeChars s.toList ++ ['"']) rest (.literal (.string s)) := by
  refine ⟨fun offset => skip_of_not_blank rfl (by decide) offset _,
    ⟨'"', escapeChars s.toList ++ ['"'], rfl, ?_⟩, ?_⟩
  · have hbody := stringBody_escapeChars s.toList rest
    simp only [longestMatch, List.append_assoc, List.cons_append, List.nil_append, matchString]
    rw [hbody]
    rfl
  · have hdrop : ('"' :: escapeChars s.toList ++ ['"']).drop 1 = escapeChars s.toList ++ ['"'] :=
      rfl
    simp only [Pattern.read, hdrop, List.dropLast_concat, readString, unescapeChars_escapeChars,
      String.ofList_toList]

/-! ## Words -/

theorem takeWhile_append_of_head {p : Char → Bool} {s rest : List Char} (hs : ∀ c ∈ s, p c = true)
    (hrest : ∀ c ∈ rest.head?, p c = false) : (s ++ rest).takeWhile p = s := by
  rw [List.takeWhile_append_of_pos hs]
  cases rest with
  | nil => simp
  | cons c rest => rw [List.takeWhile_cons_of_neg (by simp [hrest c rfl]), List.append_nil]

theorem dropWhile_append_of_head {p : Char → Bool} {s rest : List Char} (hs : ∀ c ∈ s, p c = true)
    (hrest : ∀ c ∈ rest.head?, p c = false) : (s ++ rest).dropWhile p = rest := by
  rw [List.dropWhile_append_of_pos hs]
  cases rest with
  | nil => rfl
  | cons c rest => rw [List.dropWhile_cons_of_neg (by simp [hrest c rfl])]

theorem matchWord_append {c : Char} {s rest : List Char} (hs : ∀ d ∈ s, continuesName d = true)
    (hrest : ∀ d ∈ rest.head?, continuesName d = false) :
    matchWord c (s ++ rest) =
      ⟨if c :: s = "true".toList ∨ c :: s = "false".toList then .keyword else .identifier,
        c :: s, rest⟩ := by
  simp only [matchWord, takeWhile_append_of_head hs hrest, dropWhile_append_of_head hs hrest,
    Bool.or_eq_true, decide_eq_true_eq]

theorem reads_keyword (b : Bool) {rest : List Char}
    (hrest : ∀ c ∈ rest.head?, continuesName c = false) :
    Reads .keyword (literalText (.bool b)).toList rest (.literal (.bool b)) := by
  cases b with
  | true =>
    refine ⟨fun offset => skip_of_startsName rfl offset _, ⟨'t', "rue".toList, rfl, ?_⟩, rfl⟩
    rw [longestMatch_of_startsName rfl, matchWord_append (by simp [continuesName]) hrest]
    rfl
  | false =>
    refine ⟨fun offset => skip_of_startsName rfl offset _, ⟨'f', "alse".toList, rfl, ?_⟩, rfl⟩
    rw [longestMatch_of_startsName rfl, matchWord_append (by simp [continuesName]) hrest]
    rfl

theorem reads_identifier {n : String} (hname : IsName n.toList) {rest : List Char}
    (hrest : ∀ c ∈ rest.head?, continuesName c = false) :
    Reads .identifier n.toList rest (.identifier n) := by
  obtain ⟨hword, htrue, hfalse⟩ := hname
  have hread : Pattern.read .identifier n.toList =
      if maxLexemeLength < byteLength n.toList then .error .tokenTooLong
      else .ok (.identifier n) := by
    simp only [Pattern.read, String.ofList_toList]
  generalize n.toList = s at hword htrue hfalse hread
  cases hword with
  | @word c s hstarts hcontinues =>
    refine ⟨fun offset => skip_of_startsName hstarts offset _, ⟨c, s, rfl, ?_⟩, hread⟩
    rw [longestMatch_of_startsName hstarts, matchWord_append hcontinues hrest,
      if_neg (not_or.mpr ⟨htrue, hfalse⟩)]

/-! ## Numbers -/

theorem matchNumber_of_head {d : Char} {s : List Char} (h : ∀ x ∈ s.head?, x ≠ 'x' ∧ x ≠ 'X') :
    matchNumber d s = matchDigits (d :: s.takeWhile Char.isDigit) (s.dropWhile Char.isDigit) := by
  unfold matchNumber
  split
  · rename_i x _ _
    obtain ⟨hlower, hupper⟩ := h x rfl
    simp [hlower, hupper]
  · rfl

theorem matchDigits_of_head {digits rest : List Char} (h : ∀ c ∈ rest.head?, c ≠ '.') :
    matchDigits digits rest = ⟨.decimal, digits, rest⟩ := by
  unfold matchDigits
  split
  · exact absurd rfl (h '.' rfl)
  · rfl

theorem forall_head?_cons {p : Char → Prop} {c : Char} {rest : List Char} (h : p c) :
    ∀ d ∈ (c :: rest).head?, p d := by
  intro d hd
  cases hd
  exact h

theorem head?_digits_append {p : Char → Prop} {digits rest : List Char}
    (hdigits : ∀ c ∈ digits, c.isDigit = true) (hdigit : ∀ c : Char, c.isDigit = true → p c)
    (hrest : ∀ c ∈ rest.head?, p c) : ∀ c ∈ (digits ++ rest).head?, p c := by
  cases digits with
  | nil => exact hrest
  | cons d digits => exact forall_head?_cons (hdigit d (hdigits d List.mem_cons_self))

theorem ne_of_isDigit {c d : Char} (hd : d.isDigit = false) (hc : c.isDigit = true) : c ≠ d := by
  rintro rfl
  rw [hd] at hc
  cases hc

theorem readDecimal_toDigits {n : Nat} (h : n < 2 ^ 63) :
    readDecimal (Nat.toDigits 10 n) = .ok (.literal (.integer (Int64.ofNat n))) := by
  have hleading : ¬(1 < (Nat.toDigits 10 n).length && (Nat.toDigits 10 n).head? = some '0') =
      true := by
    intro hzero
    simp only [Bool.and_eq_true, decide_eq_true_eq] at hzero
    obtain ⟨hlength, hhead⟩ := hzero
    cases hdigits : Nat.toDigits 10 n with
    | nil => simp [hdigits] at hlength
    | cons d digits =>
      rw [hdigits, List.length_cons] at hlength
      rw [hdigits] at hhead
      cases hhead
      -- Without its leading zero the number is too small for so many digits.
      have hvalue : n = Decimal.digitsValue digits := by
        rw [← Decimal.digitsValue_toDigits n, hdigits]
        rfl
      have hall : ∀ c ∈ digits, c.isDigit = true := by
        intro c hc
        exact Decimal.isDigit_toDigits n c (by rw [hdigits]; exact List.mem_cons_of_mem _ hc)
      have hsmall : n < 10 ^ digits.length := hvalue ▸ Decimal.digitsValue_lt hall
      have hle := (Nat.length_toDigits_le_iff (by decide) (by omega)).mpr hsmall
      rw [hdigits, List.length_cons] at hle
      omega
  have hmax : Int64.maxValue.toInt = 2 ^ 63 - 1 := rfl
  simp only [readDecimal, if_neg hleading, Decimal.digitsValue_toDigits]
  rw [if_pos (by omega)]

theorem integerText {n : Int64} (h : 0 ≤ n.toInt) :
    (literalText (.integer n)).toList = Nat.toDigits 10 n.toInt.toNat := by
  have htext : literalText (.integer n) = n.toInt.toNat.repr := by
    rw [literalText, ← Int.toNat_of_nonneg h]
    rfl
  rw [htext, Nat.toList_repr]

theorem isDigit_of_continuesName {c : Char} (h : continuesName c = false) : c.isDigit = false := by
  simp only [continuesName, Char.isAlphanum, Bool.or_eq_false_iff] at h
  exact h.1.1.2

theorem ne_of_continuesName {c d : Char} (hd : continuesName d = true)
    (hc : continuesName c = false) : c ≠ d := by
  rintro rfl
  rw [hd] at hc
  cases hc

theorem matchNumber_digits {d : Char} {digits rest : List Char}
    (hdigits : ∀ c ∈ digits, c.isDigit = true)
    (hrest : ∀ c ∈ rest.head?, c.isDigit = false ∧ c ≠ 'x' ∧ c ≠ 'X') :
    matchNumber d (digits ++ rest) = matchDigits (d :: digits) rest := by
  have hmark : ∀ x ∈ (digits ++ rest).head?, x ≠ 'x' ∧ x ≠ 'X' :=
    head?_digits_append hdigits
      (fun c hc => ⟨ne_of_isDigit rfl hc, ne_of_isDigit rfl hc⟩) fun c hc => (hrest c hc).2
  have hend : ∀ c ∈ rest.head?, c.isDigit = false := fun c hc => (hrest c hc).1
  rw [matchNumber_of_head hmark, takeWhile_append_of_head hdigits hend,
    dropWhile_append_of_head hdigits hend]

theorem reads_integer {n : Int64} (h : 0 ≤ n.toInt) {rest : List Char}
    (hrest : ∀ c ∈ rest.head?, continuesName c = false ∧ c ≠ '.') :
    Reads .decimal (literalText (.integer n)).toList rest (.literal (.integer n)) := by
  have hall := Decimal.isDigit_toDigits n.toInt.toNat
  have hread : readDecimal (Nat.toDigits 10 n.toInt.toNat) = .ok (.literal (.integer n)) := by
    have hmax := n.toInt_lt
    rw [readDecimal_toDigits (by omega), ← Int64.ofInt_eq_ofNat, Int.toNat_of_nonneg h,
      Int64.ofInt_toInt]
  rw [integerText h]
  generalize hdigits : Nat.toDigits 10 n.toInt.toNat = text at hall hread
  cases text with
  | nil => exact absurd hdigits Nat.toDigits_ne_nil
  | cons d digits =>
    obtain ⟨hd, hdigits⟩ := List.forall_mem_cons.mp hall
    refine ⟨fun offset => skip_of_isDigit hd offset _, ⟨d, digits, rfl, ?_⟩, ?_⟩
    · have hnumber : ∀ c ∈ rest.head?, c.isDigit = false ∧ c ≠ 'x' ∧ c ≠ 'X' := fun c hc =>
        ⟨isDigit_of_continuesName (hrest c hc).1, ne_of_continuesName rfl (hrest c hc).1,
          ne_of_continuesName rfl (hrest c hc).1⟩
      rw [longestMatch_of_isDigit hd, matchNumber_digits hdigits hnumber,
        matchDigits_of_head fun c hc => (hrest c hc).2]
    · simp only [Pattern.read, hread]

theorem matchDigits_fraction {digits fraction rest : List Char} (hne : fraction ≠ [])
    (hfraction : ∀ c ∈ fraction, c.isDigit = true)
    (hrest : ∀ c ∈ rest.head?, c.isDigit = false) :
    matchDigits digits ('.' :: (fraction ++ rest)) =
      ⟨.real, digits ++ '.' :: fraction, rest⟩ := by
  cases fraction with
  | nil => exact absurd rfl hne
  | cons f fraction =>
    obtain ⟨hf, hfraction⟩ := List.forall_mem_cons.mp hfraction
    simp only [matchDigits, List.cons_append, if_pos hf, takeWhile_append_of_head hfraction hrest,
      dropWhile_append_of_head hfraction hrest]

theorem reads_isReal {text whole fraction : List Char} (hreal : Decimal.IsReal text whole fraction)
    {rest : List Char} (hrest : ∀ c ∈ rest.head?, continuesName c = false) :
    Reads .real text rest (.literal (.real (Decimal.read whole fraction))) := by
  have hread := readReal_of_isReal hreal
  rw [hreal.text] at hread ⊢
  cases whole with
  | nil => exact absurd rfl hreal.whole_ne_nil
  | cons d whole =>
    obtain ⟨hd, hwhole⟩ := List.forall_mem_cons.mp hreal.whole_digits
    refine ⟨fun offset => skip_of_isDigit hd offset _, ⟨d, whole ++ '.' :: fraction, rfl, ?_⟩, ?_⟩
    · have hpoint : ∀ c ∈ ('.' :: (fraction ++ rest)).head?,
          c.isDigit = false ∧ c ≠ 'x' ∧ c ≠ 'X' :=
        forall_head?_cons (by decide)
      rw [longestMatch_of_isDigit hd, List.append_assoc, List.cons_append,
        matchNumber_digits hwhole hpoint, matchDigits_fraction hreal.fraction_ne_nil
          hreal.fraction_digits fun c hc => isDigit_of_continuesName (hrest c hc)]
    · simp only [Pattern.read, hread]

theorem reads_real {p : Nat} (hp : p < Decimal.infinite) {rest : List Char}
    (hrest : ∀ c ∈ rest.head?, continuesName c = false) :
    Reads .real (literalText (.real (Float.ofBits p.toUInt64))).toList rest
      (.literal (.real (Float.ofBits p.toUInt64))) := by
  obtain ⟨whole, fraction, hreal, hvalue⟩ := Decimal.realText_reads hp
  have hreads := reads_isReal hreal hrest
  rwa [hvalue] at hreads

/-! ## Tokens -/

/-- A written token reads as itself, unless it is too long or what follows goes on with it. -/
theorem reads_spelling {t : Token} (ht : t.Readable) {rest : List Char}
    (hend : t.EndsBefore rest) : ∃ pattern, Reads pattern t.spelling rest t := by
  cases t with
  | openParen => exact ⟨_, reads_symbol rest rfl rfl (by decide) rfl rfl⟩
  | closeParen => exact ⟨_, reads_symbol rest rfl rfl (by decide) rfl rfl⟩
  | comma => exact ⟨_, reads_symbol rest rfl rfl (by decide) rfl rfl⟩
  | dot => exact ⟨_, reads_symbol rest rfl rfl (by decide) rfl rfl⟩
  | equals => exact ⟨_, reads_symbol rest rfl rfl (by decide) rfl rfl⟩
  | identifier n => exact ⟨_, reads_identifier ht.1 hend⟩
  | literal v =>
    cases v with
    | bool b => exact ⟨_, reads_keyword b fun c hc => (hend c hc).1⟩
    | integer n => exact ⟨_, reads_integer ht hend⟩
    | real x =>
      obtain ⟨p, hp, rfl⟩ := ht
      exact ⟨_, reads_real hp fun c hc => (hend c hc).1⟩
    | string s =>
      have htext : (literalText (.string s)).toList = '"' :: escapeChars s.toList ++ ['"'] := by
        simp [literalText, escape]
      exact ⟨_, by rw [Token.spelling, htext]; exact reads_string s rest⟩

end FrameGraph.Script
