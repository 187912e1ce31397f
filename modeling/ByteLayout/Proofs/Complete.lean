/-
  ByteLayout.Proofs.Complete
  ──────────────────────────
  **WHAT IS COMPLETE BEFORE THE END.**

  Bytes and tokens are taken in one at a time, and one item of the input tells
  that a token or a term before it is complete.  So a reading that has come to
  some point has found what is complete up to there (`CompleteIn`), whether or
  not it ever comes to its end.

  The one theorem here says how to prove that this is all it has found, and
  nothing else (`isLongest_of_push`): an item adds at most one result, which
  it ends, and no result that an item ends is left out.
-/
import Mathlib.Data.List.Induction

namespace ByteLayout

section

variable {α β : Type}

/-- The list has the property, and every list with it is a part of this one's
front. -/
def IsLongest (P : List α → Prop) (as : List α) : Prop :=
  P as ∧ ∀ bs, P bs → bs <+: as

/-- Of the prefixes with a property one is the longest, if there are any. -/
theorem exists_isLongest_prefix {P : List α → Prop} {input : List α}
    (h : ∃ as, as <+: input ∧ P as) :
    ∃ as, IsLongest (fun as => as <+: input ∧ P as) as := by
  induction input using List.reverseRecOn with
  | nil =>
    obtain ⟨as, hfront, has⟩ := h
    obtain rfl : as = [] := List.prefix_nil.1 hfront
    exact ⟨[], ⟨hfront, has⟩, fun bs hbs => hbs.1⟩
  | append_singleton input a ih =>
    by_cases hall : P (input ++ [a])
    · exact ⟨input ++ [a], ⟨List.prefix_rfl, hall⟩, fun bs hbs => hbs.1⟩
    · -- Without the property of the whole, only shorter prefixes have it.
      have hshorter (bs : List α) :
          bs <+: input ++ [a] ∧ P bs ↔ bs <+: input ∧ P bs := by
        rw [List.prefix_concat_iff]
        constructor
        · rintro ⟨rfl | hfront, hbs⟩
          · exact absurd hbs hall
          · exact ⟨hfront, hbs⟩
        · exact fun hbs => ⟨.inr hbs.1, hbs.2⟩
      simp only [hshorter] at h ⊢
      exact ih h

/-- Some items at the front of the input make the results, and right after
them comes an item that ends the last of these. -/
def CompleteIn (makes : List α → List β → Prop) (ends : β → α → Prop)
    (input : List α) (found : List β) : Prop :=
  ∃ front, front <+: input ∧ makes front found
    ∧ ∀ last ∈ found.getLast?, ∃ a, front ++ [a] <+: input ∧ ends last a

variable {makes : List α → List β → Prop} {ends : β → α → Prop}
  {input : List α} {found : List β} {a : α} {b : β}

/-- The empty sequence is complete in any input. -/
theorem completeIn_nil (hmakes : makes [] []) (input : List α) :
    CompleteIn makes ends input [] :=
  ⟨[], List.nil_prefix, hmakes, nofun⟩

/-- Results are complete in the items that make them and one more that ends the
last of them. -/
theorem completeIn_concat (hmakes : makes input (found ++ [b])) (hends : ends b a) :
    CompleteIn makes ends (input ++ [a]) (found ++ [b]) := by
  refine ⟨input, List.prefix_append _ _, hmakes, fun last hlast => ⟨a, List.prefix_rfl, ?_⟩⟩
  rw [List.getLast?_concat] at hlast
  cases hlast
  exact hends

/-- More of the input leaves what is complete so. -/
theorem CompleteIn.append (h : CompleteIn makes ends input found) (more : List α) :
    CompleteIn makes ends (input ++ more) found := by
  obtain ⟨front, hfront, hmakes, hends⟩ := h
  have hmore : input <+: input ++ more := List.prefix_append input more
  refine ⟨front, hfront.trans hmore, hmakes, fun last hlast => ?_⟩
  obtain ⟨a, ha, hends⟩ := hends last hlast
  exact ⟨a, ha.trans hmore, hends⟩

/-- The item that ends the last result stands somewhere in the input. -/
theorem CompleteIn.exists_item (h : CompleteIn makes ends input (found ++ [b])) :
    ∃ front a rest, input = front ++ [a] ++ rest ∧ makes front (found ++ [b]) ∧ ends b a := by
  obtain ⟨front, -, hmakes, hends⟩ := h
  obtain ⟨a, ⟨rest, rfl⟩, ha⟩ := hends b List.getLast?_concat
  exact ⟨front, a, rest, rfl, hmakes, ha⟩

/-- What has been found is the longest sequence that is complete, if each item
adds nothing or one result that it ends, and if every sequence that an item
ends has been found after it. -/
theorem isLongest_of_push {f : List α → List β} (hnil : f [] = [])
    (hmakes : makes [] [])
    (hpush : ∀ front a, f (front ++ [a]) = f front
      ∨ ∃ b, f (front ++ [a]) = f front ++ [b] ∧ makes front (f front ++ [b])
        ∧ ends b a)
    (hfound : ∀ {front bs b a}, makes front (bs ++ [b]) → ends b a →
      bs ++ [b] <+: f (front ++ [a])) (input : List α) :
    IsLongest (CompleteIn makes ends input) (f input) := by
  constructor
  · induction input using List.reverseRecOn with
    | nil => exact hnil ▸ completeIn_nil hmakes []
    | append_singleton front a ih =>
      rcases hpush front a with hsame | ⟨b, hmore, hb, hends⟩
      · exact hsame ▸ ih.append [a]
      · exact hmore ▸ completeIn_concat hb hends
  · -- What has been found stays found.
    have hmono (front more : List α) : f front <+: f (front ++ more) := by
      induction more using List.reverseRecOn with
      | nil => exact (List.append_nil front).symm ▸ List.prefix_rfl
      | append_singleton more a ih =>
        rw [← List.append_assoc]
        rcases hpush (front ++ more) a with hsame | ⟨b, hmore, -⟩
        · exact hsame ▸ ih
        · exact hmore ▸ ih.trans (List.prefix_append _ [b])
    -- So a complete sequence is found after the item that ends its last result.
    intro bs hbs
    cases bs using List.reverseRecOn with
    | nil => exact List.nil_prefix
    | append_singleton bs b =>
      obtain ⟨front, a, rest, rfl, hb, hends⟩ := hbs.exists_item
      exact (hfound hb hends).trans (hmono _ rest)

end

end ByteLayout
