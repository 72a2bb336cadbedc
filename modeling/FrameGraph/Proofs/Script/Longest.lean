import FrameGraph.Proofs.Script.Declared

/-!
# The longest match

A match is found by the first character and by going on as long as the text allows. It is as long
as every text in the language of any pattern that the input starts with, so the declared patterns
alone say what is matched: the longest text, with a truth value rather than an identifier.
-/
namespace FrameGraph.Script

theorem prefix_length_le {p : Char → Bool} {s l : List Char} (h : s <+: l)
    (hall : ∀ c ∈ s, p c = true) : s.length ≤ (l.takeWhile p).length := by
  obtain ⟨later, rfl⟩ := h
  rw [List.takeWhile_append_of_pos hall, List.length_append]
  omega

/-- The body of a string goes on as long as it can. -/
theorem stringBody_append {body : List Char} (h : IsBody body) (rest : List Char) :
    stringBody (body ++ rest) = (body ++ (stringBody rest).1, (stringBody rest).2) := by
  induction h with
  | nil => rfl
  | @plain c later hquote hbackslash _ ih =>
    rw [List.cons_append, stringBody, ih]
    · rfl
    · exact hquote
    · exact fun hc => absurd hc hbackslash
    · exact fun _ _ hc => absurd hc hbackslash
  | @escape c later _ ih =>
    rw [List.cons_append, List.cons_append, stringBody, ih]
    rfl

theorem stringBody_rest (s : List Char) :
    (stringBody s).1 ++ (if (stringBody s).2.1 then ['"'] else []) ++ (stringBody s).2.2 = s := by
  fun_induction stringBody s <;> simp_all

theorem matchString_append (s : List Char) :
    (matchString s).text ++ (matchString s).rest = '"' :: s := by
  have hrest := stringBody_rest s
  unfold matchString
  generalize stringBody s = result at hrest
  obtain ⟨body, closed, rest⟩ := result
  cases closed <;> simp_all

theorem matchString_longest {s t : List Char} {q : Pattern} (hq : HasPattern q t)
    (hlead : q.lead = .quote) (ht : t <+: '"' :: s) : t.length ≤ (matchString s).text.length := by
  cases hq with
  | @string body hbody =>
    obtain ⟨later, hlater⟩ := ht
    obtain rfl : body ++ '"' :: later = s := by simpa using hlater
    have hread : stringBody (body ++ '"' :: later) = (body, true, later) := by
      rw [stringBody_append hbody, stringBody, List.append_nil]
    simp [matchString, hread]
  | @openString body hbody =>
    obtain ⟨later, hlater⟩ := ht
    obtain rfl : body ++ later = s := by simpa using hlater
    simp only [matchString, stringBody_append hbody]
    split <;> simp
  | _ => cases hlead

theorem matchDigits_append (digits rest : List Char) :
    (matchDigits digits rest).text ++ (matchDigits digits rest).rest = digits ++ rest := by
  unfold matchDigits
  split
  · split <;> simp
  · rfl

theorem takeWhile_of_isReal {s whole fraction : List Char}
    (h : Decimal.IsReal s whole fraction) (later : List Char) :
    (s ++ later).takeWhile Char.isDigit = whole ∧
      (s ++ later).dropWhile Char.isDigit = '.' :: fraction ++ later := by
  have hhead : ∀ c ∈ ('.' :: fraction ++ later).head?, c.isDigit = false :=
    forall_head?_cons rfl
  rw [h.text, List.append_assoc]
  exact ⟨takeWhile_append_of_head h.whole_digits hhead,
    dropWhile_append_of_head h.whole_digits hhead⟩

/-- Behind all its digits a number goes on with a point and more digits, if it can. -/
theorem matchDigits_longest {s t : List Char} {q : Pattern} (hq : HasPattern q t)
    (hnumber : q = .decimal ∨ q = .real) (ht : t <+: s) :
    t.length ≤
      (matchDigits (s.takeWhile Char.isDigit) (s.dropWhile Char.isDigit)).text.length := by
  rcases hnumber with rfl | rfl
  · cases hq with
    | decimal _ hdigit =>
      have hdigits := prefix_length_le ht hdigit
      unfold matchDigits
      split
      · split
        · simp only [List.length_append]
          omega
        · exact hdigits
      · exact hdigits
  · cases hq with
    | @real _ whole fraction h =>
      obtain ⟨later, rfl⟩ := ht
      obtain ⟨htake, hdrop⟩ := takeWhile_of_isReal h later
      rw [htake, hdrop, h.text]
      obtain ⟨d, fraction, rfl⟩ := List.exists_cons_of_ne_nil h.fraction_ne_nil
      obtain ⟨hd, hfraction⟩ := List.forall_mem_cons.mp h.fraction_digits
      have hmore := prefix_length_le (List.prefix_append fraction later) hfraction
      simp only [List.cons_append, matchDigits, if_pos hd, List.length_append, List.length_cons]
      omega

theorem matchNumber_append (d : Char) (rest : List Char) :
    (matchNumber d rest).text ++ (matchNumber d rest).rest = d :: rest := by
  have hdigits : (matchDigits (d :: rest.takeWhile Char.isDigit)
      (rest.dropWhile Char.isDigit)).text ++ (matchDigits (d :: rest.takeWhile Char.isDigit)
      (rest.dropWhile Char.isDigit)).rest = d :: rest := by
    rw [matchDigits_append, List.cons_append, List.takeWhile_append_dropWhile]
  unfold matchNumber
  split
  · split
    · simp
    · exact hdigits
  · exact hdigits

theorem matchNumber_hexadecimal {x h : Char} (hmark : x = 'x' ∨ x = 'X')
    (hh : isHexDigit h = true) (more : List Char) :
    matchNumber '0' (x :: h :: more) =
      ⟨.hexadecimal, '0' :: x :: h :: more.takeWhile isHexDigit, more.dropWhile isHexDigit⟩ := by
  rcases hmark with rfl | rfl <;> simp [matchNumber, hh]

/-- Where no hexadecimal stands, a number is matched by its digits. -/
theorem matchNumber_digits_or (d : Char) (s : List Char) :
    matchNumber d s = matchDigits (d :: s.takeWhile Char.isDigit) (s.dropWhile Char.isDigit) ∨
      ∃ x h more, d = '0' ∧ (x = 'x' ∨ x = 'X') ∧ isHexDigit h = true ∧ s = x :: h :: more := by
  unfold matchNumber
  split
  · rename_i x h more
    split
    · rename_i hmark
      simp only [Bool.and_eq_true, Bool.or_eq_true, decide_eq_true_eq] at hmark
      obtain ⟨⟨hd, hx⟩, hh⟩ := hmark
      exact .inr ⟨x, h, more, hd, hx, hh, rfl⟩
    · exact .inl rfl
  · exact .inl rfl

theorem matchNumber_longest {d : Char} {s t : List Char} {q : Pattern} (hd : d.isDigit = true)
    (hq : HasPattern q t) (hlead : q.lead = .digit) (ht : t <+: d :: s) :
    t.length ≤ (matchNumber d s).text.length := by
  by_cases hnumber : q = .decimal ∨ q = .real
  · have hdigits := matchDigits_longest hq hnumber ht
    rcases matchNumber_digits_or d s with hmatch | ⟨x, h, more, rfl, hmark, hh, rfl⟩
    · rwa [hmatch, ← List.takeWhile_cons_of_pos hd, ← List.dropWhile_cons_of_pos hd]
    · have hx : x.isDigit = false := by rcases hmark with rfl | rfl <;> rfl
      have hpoint : x ≠ '.' := by rcases hmark with rfl | rfl <;> decide
      rw [List.takeWhile_cons_of_pos hd, List.dropWhile_cons_of_pos hd,
        List.takeWhile_cons_of_neg (by simp [hx]), List.dropWhile_cons_of_neg (by simp [hx]),
        matchDigits_of_head (forall_head?_cons hpoint)] at hdigits
      rw [matchNumber_hexadecimal hmark hh]
      simp only [List.length_cons, List.length_nil] at hdigits ⊢
      omega
  · cases hq with
    | @hexadecimal x digits hmark hne hdigit =>
      obtain ⟨h, digits, rfl⟩ := List.exists_cons_of_ne_nil hne
      obtain ⟨hh, hdigits⟩ := List.forall_mem_cons.mp hdigit
      obtain ⟨later, hlater⟩ := ht
      obtain ⟨rfl, rfl⟩ : '0' = d ∧ x :: h :: (digits ++ later) = s := by simpa using hlater
      have hmore := prefix_length_le (List.prefix_append digits later) hdigits
      rw [matchNumber_hexadecimal hmark hh]
      simp only [List.length_cons]
      omega
    | decimal => exact absurd (.inl rfl) hnumber
    | real => exact absurd (.inr rfl) hnumber
    | _ => cases hlead

theorem matchWord_append_rest (c : Char) (rest : List Char) :
    (matchWord c rest).text ++ (matchWord c rest).rest = c :: rest := by
  simp [matchWord]

theorem matchWord_longest {c : Char} {s t : List Char} {q : Pattern} (hq : HasPattern q t)
    (hlead : q.lead = .name) (ht : t <+: c :: s) : t.length ≤ (matchWord c s).text.length := by
  have htail : ∀ d ∈ t.tail, continuesName d = true := by
    cases hq with
    | keyword h => rcases h with rfl | rfl <;> simp [continuesName]
    | identifier h =>
      obtain ⟨⟨-, hcontinues⟩, -, -⟩ := h
      exact hcontinues
    | _ => cases hlead
  cases t with
  | nil => exact Nat.zero_le _
  | cons d t =>
    obtain ⟨rfl, hprefix⟩ := List.cons_prefix_cons.mp ht
    have hlength := prefix_length_le hprefix htail
    simp only [matchWord, List.length_cons]
    omega

theorem lead_eq_quote {c : Char} (h : lead c = .quote) : c = '"' := by
  unfold lead at h
  split_ifs at h
  assumption

theorem lead_eq_slash {c : Char} (h : lead c = .slash) : c = '/' := by
  unfold lead at h
  split_ifs at h
  assumption

theorem isDigit_of_lead {c : Char} (h : lead c = .digit) : c.isDigit = true := by
  unfold lead at h
  split_ifs at h
  assumption

/-- Nothing is lost between the match and what follows it. -/
theorem longestMatch_append (c : Char) (rest : List Char) :
    (longestMatch c rest).text ++ (longestMatch c rest).rest = c :: rest := by
  rw [longestMatch_eq_lead]
  cases hlead : lead c with
  | symbol => rfl
  | quote =>
    obtain rfl : c = '"' := lead_eq_quote hlead
    exact matchString_append rest
  | slash => simp only; split <;> simp
  | digit => exact matchNumber_append c rest
  | name => exact matchWord_append_rest c rest
  | other => rfl

theorem matchString_lead (s : List Char) : (matchString s).pattern.lead = .quote := by
  unfold matchString
  split
  split <;> rfl

theorem matchNumber_lead (d : Char) (s : List Char) :
    (matchNumber d s).pattern.lead = .digit := by
  rcases matchNumber_digits_or d s with h | ⟨x, h, more, rfl, hmark, hh, rfl⟩
  · rw [h]
    unfold matchDigits
    split
    · split <;> rfl
    · rfl
  · rw [matchNumber_hexadecimal hmark hh]
    rfl

theorem matchWord_lead (c : Char) (s : List Char) : (matchWord c s).pattern.lead = .name := by
  simp only [matchWord]
  split <;> rfl

theorem exists_hasPattern_of_mem_language {p : Pattern} {s : List Char} (h : s ∈ p.language) :
    ∃ q, HasPattern q s ∧ q.lead = p.lead := by
  rcases hasPattern_of_mem_language h with hpattern | ⟨rfl, hkeyword⟩
  · exact ⟨p, hpattern, rfl⟩
  · exact ⟨_, hkeyword, rfl⟩

theorem lead_ne_other_of_mem_language {p : Pattern} {s : List Char} (h : s ∈ p.language) :
    p.lead ≠ .other := by
  cases p with
  | stray => exact absurd h (Language.notMem_zero s)
  | _ => exact Lead.noConfusion

theorem eq_of_lead_symbol {p : Pattern} {s : List Char} (h : HasPattern p s)
    (hlead : p.lead = .symbol) : s.length = 1 := by
  cases h with
  | symbol => rfl
  | _ => cases hlead

theorem eq_of_lead_slash {p : Pattern} {s : List Char} (h : s ∈ p.language)
    (hlead : p.lead = .slash) : s = ['/', '*'] := by
  cases p with
  | openComment => exact h
  | _ => cases hlead

/-- No text in the language of a pattern that the input starts with is longer than the match, which
starts as the pattern does. -/
theorem longestMatch_longest {c : Char} {rest t : List Char} {q : Pattern} (hq : t ∈ q.language)
    (ht : t <+: c :: rest) :
    t.length ≤ (longestMatch c rest).text.length ∧
      (longestMatch c rest).pattern.lead = q.lead := by
  obtain ⟨d, later, hcons, hlead⟩ := lead_of_mem_language hq
  obtain ⟨rfl, -⟩ := List.cons_prefix_cons.mp (hcons ▸ ht)
  obtain ⟨r, hr, hfamily⟩ := exists_hasPattern_of_mem_language hq
  have hother := lead_ne_other_of_mem_language hq
  rw [longestMatch_eq_lead, hlead]
  cases hql : q.lead with
  | symbol => exact ⟨(eq_of_lead_symbol hr (hfamily.trans hql)).le, rfl⟩
  | quote =>
    obtain rfl : d = '"' := lead_eq_quote (hlead.trans hql)
    exact ⟨matchString_longest hr (hfamily.trans hql) ht, matchString_lead rest⟩
  | slash =>
    obtain rfl := eq_of_lead_slash hq hql
    obtain ⟨after, hafter⟩ := ht
    obtain ⟨rfl, rfl⟩ : '/' = d ∧ '*' :: after = rest := by simpa using hafter
    exact ⟨by simp, rfl⟩
  | digit =>
    have hd := isDigit_of_lead (hlead.trans hql)
    exact ⟨matchNumber_longest hd hr (hfamily.trans hql) ht, matchNumber_lead d rest⟩
  | name => exact ⟨matchWord_longest hr (hfamily.trans hql) ht, matchWord_lead d rest⟩
  | other => exact absurd hql hother

/-- The text is the longest at the head of the input that any pattern has, and the pattern is the
one it has, a truth value rather than an identifier. -/
structure Munch (p : Pattern) (text later : List Char) : Prop where
  declared : text ∈ p.language
  longest : ∀ (q : Pattern) (t : List Char), t ∈ q.language → t <+: text ++ later →
    t.length ≤ text.length
  preferred : ∀ q : Pattern, text ∈ q.language → q = p ∨ q = .identifier ∧ p = .keyword

/-- A match is the longest text of the pattern, unless it is an opened comment or stray. -/
theorem munch_longestMatch {c : Char} {rest : List Char}
    (hcomment : (longestMatch c rest).pattern ≠ .openComment)
    (hstray : (longestMatch c rest).pattern ≠ .stray) :
    Munch (longestMatch c rest).pattern (longestMatch c rest).text (longestMatch c rest).rest := by
  have hpattern := longestMatch_hasPattern c rest
  refine ⟨mem_language_of_hasPattern hpattern hcomment hstray, fun q t hq ht => ?_, fun q hq => ?_⟩
  · rw [longestMatch_append] at ht
    exact (longestMatch_longest hq ht).1
  · rcases hasPattern_of_mem_language hq with hother | ⟨rfl, hkeyword⟩
    · have hq' : q ≠ .stray := fun h => lead_ne_other_of_mem_language hq (by rw [h]; rfl)
      exact .inl (hother.unique hpattern hq' hstray)
    · exact .inr ⟨rfl, (hkeyword.unique hpattern (by decide) hstray).symm⟩

theorem munch_comment (later : List Char) : Munch .openComment ['/', '*'] later := by
  have hopening : HasPattern .openComment ['/', '*'] := .openComment []
  refine ⟨rfl, fun q t hq ht => ?_, fun q hq => ?_⟩
  · obtain ⟨c, rest, rfl, hlead⟩ := lead_of_mem_language hq
    obtain ⟨rfl, -⟩ := List.cons_prefix_cons.mp ht
    rw [eq_of_lead_slash hq hlead.symm]
  · obtain ⟨c, rest, hcons, hlead⟩ := lead_of_mem_language hq
    obtain ⟨rfl, rfl⟩ := List.cons.inj hcons
    cases q with
    | openComment => exact .inl rfl
    | _ => cases hlead

/-- Only what is opened as a comment is matched to the end of the text. -/
theorem longestMatch_of_comment {c : Char} {rest : List Char}
    (h : (longestMatch c rest).pattern = .openComment) :
    ∃ later, c :: rest = '/' :: '*' :: later ∧ (longestMatch c rest).text = c :: rest := by
  have hlead : (longestMatch c rest).pattern.lead = .slash := by rw [h]; rfl
  rw [longestMatch_eq_lead] at h hlead ⊢
  cases hc : lead c with
  | slash =>
    simp only [hc] at h ⊢
    split_ifs at h ⊢ with hstar
    obtain ⟨later, rfl⟩ := List.head?_eq_some_iff.mp hstar
    obtain rfl : c = '/' := lead_eq_slash hc
    exact ⟨later, rfl, rfl⟩
  | quote => cases (matchString_lead rest).symm.trans (by simpa only [hc] using hlead)
  | digit => cases (matchNumber_lead c rest).symm.trans (by simpa only [hc] using hlead)
  | name => cases (matchWord_lead c rest).symm.trans (by simpa only [hc] using hlead)
  | _ => simp only [hc, reduceCtorEq] at h

/-- Where the match is stray, no pattern has a text. -/
theorem longestMatch_of_stray {c : Char} {rest : List Char}
    (h : (longestMatch c rest).pattern = .stray) :
    (longestMatch c rest).text = [c] ∧
      ∀ (q : Pattern) (t : List Char), t ∈ q.language → ¬t <+: c :: rest := by
  refine ⟨?_, fun q t hq ht => ?_⟩
  · have hlead : (longestMatch c rest).pattern.lead = .other := by rw [h]; rfl
    rw [longestMatch_eq_lead] at h hlead ⊢
    cases hc : lead c with
    | slash =>
      simp only [hc] at h ⊢
      split_ifs at h ⊢
      rfl
    | other => rfl
    | symbol => simp only [hc, reduceCtorEq] at h
    | quote => cases (matchString_lead rest).symm.trans (by simpa only [hc] using hlead)
    | digit => cases (matchNumber_lead c rest).symm.trans (by simpa only [hc] using hlead)
    | name => cases (matchWord_lead c rest).symm.trans (by simpa only [hc] using hlead)
  · refine lead_ne_other_of_mem_language hq ?_
    rw [← (longestMatch_longest hq ht).2, h]
    rfl

end FrameGraph.Script
