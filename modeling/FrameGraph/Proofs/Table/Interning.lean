import FrameGraph.Proofs.Table.Validity
import FrameGraph.Table.Interner
import Mathlib.Data.Finset.Dedup
import Mathlib.Data.Finset.Card

/-!
# Interned texts

The number of a handle is the place of its text among the texts that were interned so far, in the
order of their first use. Texts are only ever added behind, so the place of a text stays, however
often the table has moved its entries in the meantime.
-/
namespace FrameGraph.Interner

variable {i : Interner} {known : List String}

/-- The handles of texts that are interned one after the other, each with the size behind it. -/
def handles (i : Interner) : List String → List (Handle × Nat)
  | [] => []
  | text :: texts =>
    ((i.intern text).1, (i.intern text).2.size) :: (i.intern text).2.handles texts

/-- The interner has given the texts their places as numbers. -/
structure Numbers (i : Interner) (known : List String) : Prop where
  valid : i.ids.Valid
  distinct : known.Nodup
  number : ∀ text n, i.ids.get? text = some n ↔ known[n]? = some text
  size : i.size = known.length

theorem empty_numbers : Numbers empty [] where
  valid := Table.empty_valid
  distinct := List.nodup_nil
  number text n := by
    rw [List.getElem?_nil]
    exact ⟨nofun, nofun⟩
  size := rfl

theorem intern_of_some (h : Numbers i known) {text : String} {n : Nat}
    (hn : i.ids.get? text = some n) : i.intern text = (⟨n, text⟩, i) := by
  have hentry := Table.getEntry?_eq h.valid.sound text
  rw [hn, Option.map_some] at hentry
  rw [intern, hentry]

/-- A text that was not found is inserted, so the table never hands its number back. -/
theorem intern_of_none (h : Numbers i known) {text : String} (hnone : i.ids.get? text = none) :
    ∃ ids, i.intern text = (⟨known.length, text⟩, ⟨ids⟩) ∧ Numbers ⟨ids⟩ (known ++ [text]) := by
  have hentry := Table.getEntry?_eq h.valid.sound text
  rw [hnone, Option.map_none] at hentry
  obtain ⟨ids, hinsert, hvalid, hperm⟩ := h.valid.insert_of_none hnone i.size
  have hnew : text ∉ known := fun hmem => by
    obtain ⟨n, hn⟩ := List.mem_iff_getElem?.mp hmem
    rw [(h.number text n).mpr hn] at hnone
    cases hnone
  have hintern : i.intern text = (⟨known.length, text⟩, ⟨ids⟩) := by
    rw [intern, hentry, ← h.size]
    simp only [hinsert]
  refine ⟨ids, hintern, hvalid, ?_, fun key n => ?_, ?_⟩
  · rw [← List.concat_eq_append]
    exact h.distinct.concat hnew
  · rw [Table.get?_of_perm_cons h.valid.sound hvalid.sound hperm]
    by_cases hkey : key = text
    · -- The one place of the new text is behind all others.
      subst hkey
      rw [if_pos rfl, Option.some.injEq, h.size]
      constructor
      · rintro rfl
        exact List.getElem?_concat_length
      · intro hn
        obtain hlt | hle := Nat.lt_or_ge n known.length
        · rw [List.getElem?_append_left hlt] at hn
          exact absurd (List.mem_of_getElem? hn) hnew
        · have hlast := (List.getElem?_eq_some_iff.mp hn).1
          rw [List.length_append, List.length_singleton] at hlast
          omega
    · rw [if_neg hkey, h.number, List.getElem?_append]
      split
      · rfl
      · rename_i hle
        rw [List.getElem?_eq_none (Nat.le_of_not_lt hle), List.getElem?_singleton]
        split <;> simp [Ne.symm hkey]
  · have hlength := hperm.length_eq
    rw [List.length_cons, ← hvalid.size, ← h.valid.size] at hlength
    rw [List.length_append, List.length_singleton, ← h.size]
    exact hlength

/-- Interning a text leaves all places as they are, and the handle has the place of the text. -/
theorem Numbers.intern (h : Numbers i known) (text : String) :
    ∃ known', known <+: known' ∧ known'.toFinset = insert text known.toFinset ∧
      Numbers (i.intern text).2 known' ∧ (i.intern text).1.text = text ∧
      known'[(i.intern text).1.id]? = some text := by
  cases hget : i.ids.get? text with
  | some n =>
    have hn := (h.number text n).mp hget
    have hmem : text ∈ known.toFinset := List.mem_toFinset.mpr (List.mem_of_getElem? hn)
    rw [intern_of_some h hget]
    exact ⟨known, List.prefix_rfl, (Finset.insert_eq_of_mem hmem).symm, h, rfl, hn⟩
  | none =>
    obtain ⟨ids, hintern, hnumbers⟩ := intern_of_none h hget
    rw [hintern]
    refine ⟨known ++ [text], List.prefix_append _ _, ?_, hnumbers, rfl,
      List.getElem?_concat_length⟩
    rw [List.toFinset_append, List.toFinset_cons, List.toFinset_nil, insert_empty_eq,
      Finset.union_comm, ← Finset.insert_eq]

theorem Numbers.size_eq_card (h : Numbers i known) : i.size = known.toFinset.card := by
  rw [h.size, List.toFinset_card_of_nodup h.distinct]

/-- In the end all handles have the places of their texts. -/
theorem Numbers.handles (h : Numbers i known) (texts : List String) :
    ∃ known', known <+: known' ∧ known'.Nodup ∧
      (i.handles texts).map (fun step => step.1.text) = texts ∧
      ∀ step ∈ i.handles texts, known'[step.1.id]? = some step.1.text := by
  induction texts generalizing i known with
  | nil => exact ⟨known, List.prefix_rfl, h.distinct, rfl, fun _ hstep => nomatch hstep⟩
  | cons text texts ih =>
    obtain ⟨known₁, hfront₁, -, hnumbers, htext, hplace⟩ := h.intern text
    obtain ⟨known₂, hfront₂, hdistinct, htexts, hplaces⟩ := ih hnumbers
    refine ⟨known₂, hfront₁.trans hfront₂, hdistinct, ?_, List.forall_mem_cons.mpr ⟨?_, hplaces⟩⟩
    · rw [Interner.handles, List.map_cons, htexts, htext]
    · obtain ⟨more, rfl⟩ := hfront₂
      rw [htext, List.getElem?_append_left (List.getElem?_eq_some_iff.mp hplace).1]
      exact hplace

theorem Numbers.handles_size (h : Numbers i known) (texts : List String) {k : Nat}
    {step : Handle × Nat} (hstep : (i.handles texts)[k]? = some step) :
    step.2 = (known.toFinset ∪ (texts.take (k + 1)).toFinset).card := by
  induction texts generalizing i known k with
  | nil => cases hstep
  | cons text texts ih =>
    obtain ⟨known', -, hset, hnumbers, -⟩ := h.intern text
    cases k with
    | zero =>
      obtain rfl := Option.some.inj hstep
      simp [hnumbers.size_eq_card, hset, Finset.union_comm _ {text}]
    | succ k =>
      rw [ih hnumbers hstep, hset]
      simp

/-- What interning gives, one text after the other. -/
structure Exact (texts : List String) (steps : List (Handle × Nat)) : Prop where
  /-- Every handle has the text that was interned. -/
  interned : steps.map (fun step => step.1.text) = texts
  /-- Handles are shared exactly by texts with the same bytes. -/
  shared : ∀ (j k : Nat) (a b : Handle × Nat), steps[j]? = some a → steps[k]? = some b →
    (a.1.id = b.1.id ↔ a.1.text.toUTF8 = b.1.text.toUTF8)
  /-- The size is the number of different texts up to there. -/
  sizes : ∀ (k : Nat) (a : Handle × Nat), steps[k]? = some a →
    a.2 = (texts.take (k + 1)).toFinset.card

/-- A new interner gives equal texts one handle and different texts different handles, and it
counts the different texts, whatever their hashes and however many there are. -/
theorem interned_exact (texts : List String) : Exact texts (empty.handles texts) := by
  obtain ⟨known, -, hdistinct, htexts, hplaces⟩ := empty_numbers.handles texts
  refine ⟨htexts, fun j k a b ha hb => ?_, fun k a ha => ?_⟩
  · have hplace := hplaces a (List.mem_of_getElem? ha)
    have hplace' := hplaces b (List.mem_of_getElem? hb)
    rw [String.toUTF8, String.toUTF8, String.toByteArray_inj]
    constructor
    · intro hid
      rw [hid, hplace'] at hplace
      exact (Option.some.inj hplace).symm
    · intro htext
      have hlt := (List.getElem?_eq_some_iff.mp hplace).1
      rw [htext, ← hplace'] at hplace
      exact (List.getElem?_inj hlt hdistinct).mp hplace
  · rw [empty_numbers.handles_size texts ha, List.toFinset_nil, Finset.empty_union]

example : (empty.handles ["display", "window", "display"]).map (fun step => (step.1.id, step.2)) =
    [(0, 1), (1, 2), (0, 2)] := by decide +kernel

end FrameGraph.Interner
