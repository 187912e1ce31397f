/-
  ByteLayout.Proofs.Grammar
  ─────────────────────────
  **WHICH TOKENS WRITE WHICH LAYOUT.**

  The grammar of layouts, as a relation between a layout and the tokens that
  write it (`Layout.WrittenBy`).  It says nothing of how tokens are read: a
  name may begin a list or a field, a part may be there or not, and the body
  of a list is any tokens whose brackets pair up (`Balanced`).
-/
import ByteLayout.Layout.Builder

namespace ByteLayout

/-! ## §1. Brackets that pair up. -/

/-- How many brackets the tokens open. -/
def opened (ts : List Token) : Nat :=
  ts.countP (·.kind = .mark .openBracket)

/-- How many brackets the tokens close. -/
def closed (ts : List Token) : Nat :=
  ts.countP (·.kind = .mark .closeBracket)

/-- The brackets of the tokens pair up: no prefix closes more of them than it
opens, and all that are opened are closed. -/
def Balanced (ts : List Token) : Prop :=
  (∀ pre, pre <+: ts → closed pre ≤ opened pre) ∧ opened ts = closed ts

/-- Tokens that lead from one depth of brackets to another without closing
more than are open. -/
def Nested (depth depth' : Nat) (ts : List Token) : Prop :=
  (∀ pre, pre <+: ts → closed pre ≤ opened pre + depth)
    ∧ opened ts + depth = closed ts + depth'

/-- Brackets are counted in one part and in the other. -/
theorem opened_append (ts us : List Token) :
    opened (ts ++ us) = opened ts + opened us :=
  List.countP_append

theorem closed_append (ts us : List Token) :
    closed (ts ++ us) = closed ts + closed us :=
  List.countP_append

/-- Tokens in balance lead from no depth to none. -/
theorem Balanced.nested {ts : List Token} (h : Balanced ts) : Nested 0 0 ts := h

theorem nested_nil_iff {depth depth' : Nat} :
    Nested depth depth' [] ↔ depth = depth' := by
  simp [Nested, opened, closed]

section

variable {depth mid depth' : Nat} {t : Token} {ts : List Token}

/-- The tokens after the first go on from the depth that it leads to. -/
theorem nested_cons_iff (ht : opened [t] + depth = closed [t] + mid) :
    Nested depth depth' (t :: ts) ↔ Nested mid depth' ts := by
  have ho (us : List Token) : opened (t :: us) = opened [t] + opened us :=
    opened_append [t] us
  have hc (us : List Token) : closed (t :: us) = closed [t] + closed us :=
    closed_append [t] us
  constructor
  · intro h
    obtain ⟨hpre, htotal⟩ := h
    rw [ho, hc] at htotal
    refine ⟨fun us hus => ?_, by omega⟩
    have hle := hpre (t :: us) ((List.prefix_cons_inj t).2 hus)
    rw [ho, hc] at hle
    omega
  · intro h
    obtain ⟨hpre, htotal⟩ := h
    refine ⟨fun pre hprefix => ?_, by rw [ho, hc]; omega⟩
    -- No prefix but the empty one is without the first token.
    rcases List.prefix_cons_iff.1 hprefix with rfl | ⟨us, rfl, hus⟩
    · exact Nat.zero_le _
    · have hle := hpre us hus
      rw [ho, hc]
      omega

theorem Nested.cons (ht : opened [t] + depth = closed [t] + mid)
    (h : Nested mid depth' ts) : Nested depth depth' (t :: ts) :=
  (nested_cons_iff ht).2 h

/-- The first token leads to some depth, as it closes no more than is open. -/
theorem Nested.exists_mid (h : Nested depth depth' (t :: ts)) :
    ∃ mid, opened [t] + depth = closed [t] + mid ∧ Nested mid depth' ts := by
  have hle : closed [t] ≤ opened [t] + depth :=
    h.1 [t] (List.prefix_append [t] ts)
  obtain ⟨mid, hmid⟩ := Nat.exists_eq_add_of_le hle
  exact ⟨mid, hmid, (nested_cons_iff hmid).1 h⟩

/-- Depths add up along the tokens. -/
theorem Nested.append {us : List Token} (h : Nested depth mid ts)
    (h' : Nested mid depth' us) : Nested depth depth' (ts ++ us) := by
  induction ts generalizing depth with
  | nil => rwa [nested_nil_iff.1 h]
  | cons t ts ih =>
    obtain ⟨n, hn, hts⟩ := h.exists_mid
    exact Nested.cons hn (ih hts)

theorem Nested.concat (h : Nested depth mid ts)
    (ht : opened [t] + mid = closed [t] + depth') :
    Nested depth depth' (ts ++ [t]) :=
  h.append (Nested.cons ht (nested_nil_iff.2 rfl))

/-- Tokens without brackets lead to no other depth. -/
theorem nested_of_forall (h : ∀ t ∈ ts, opened [t] = 0 ∧ closed [t] = 0) :
    Nested depth depth ts := by
  induction ts with
  | nil => exact nested_nil_iff.2 rfl
  | cons t ts ih =>
    obtain ⟨⟨ho, hc⟩, hts⟩ := List.forall_mem_cons.1 h
    exact Nested.cons (by rw [ho, hc]) (ih hts)

end

/-! ## §2. The grammar. -/

/-- Tokens that write a part if there is one, and none if there is none. -/
def Optionally {α : Type} (writtenBy : α → List Token → Prop) :
    Option α → List Token → Prop
  | none, ts => ts = []
  | some a, ts => writtenBy a ts

/-- A colon, and an integer, an identifier or three dots. -/
inductive Length.WrittenBy : Length → List Token → Prop
  | literal {colon t : Token} (hcolon : colon.kind = .mark .colon)
    (ht : t.kind = .integer) : WrittenBy (.literal t.text) [colon, t]
  | field {colon t : Token} (hcolon : colon.kind = .mark .colon)
    (ht : t.kind = .identifier) : WrittenBy (.field t.text) [colon, t]
  | rest {colon a b c : Token} (hcolon : colon.kind = .mark .colon)
    (ha : a.kind = .mark .dot) (hb : b.kind = .mark .dot)
    (hc : c.kind = .mark .dot) : WrittenBy .rest [colon, a, b, c]

/-- A slash, and an identifier that is the keyword of the type. -/
inductive FieldType.WrittenBy : FieldType → List Token → Prop
  | keyword {slash t : Token} {type : FieldType}
    (hslash : slash.kind = .mark .slash) (ht : t.kind = .identifier)
    (htype : t.text = type.keyword) : WrittenBy type [slash, t]

/-- A constant, a field, or a list, of which only the name and the length are
kept. -/
inductive Term.WrittenBy : Term → List Token → Prop
  | integer {t : Token} (ht : t.kind = .integer) :
    WrittenBy (.literal (.integer t.text)) [t]
  | string {t : Token} (ht : t.kind = .string) :
    WrittenBy (.literal (.string t.text)) [t]
  | field {t : Token} {length : Option Length} {type : Option FieldType}
    {ls ys : List Token} (ht : t.kind = .identifier)
    (hlength : Optionally Length.WrittenBy length ls)
    (htype : Optionally FieldType.WrittenBy type ys) :
    WrittenBy (.field t.text length type) (t :: (ls ++ ys))
  | list {t bracket close : Token} {length : Option Length}
    {body ls : List Token} (ht : t.kind = .identifier)
    (hopen : bracket.kind = .mark .openBracket) (hbody : Balanced body)
    (hclose : close.kind = .mark .closeBracket)
    (hlength : Optionally Length.WrittenBy length ls) :
    WrittenBy (.list t.text [] length) (t :: bracket :: (body ++ close :: ls))

/-- One or more terms, with a comma between each and the next. -/
inductive TermsWrittenBy : List Term → List Token → Prop
  | one {term : Term} {ts : List Token} (h : term.WrittenBy ts) :
    TermsWrittenBy [term] ts
  | more {term : Term} {terms : List Term} {ts us : List Token} {comma : Token}
    (h : term.WrittenBy ts) (hcomma : comma.kind = .mark .comma)
    (hrest : TermsWrittenBy terms us) :
    TermsWrittenBy (term :: terms) (ts ++ comma :: us)

/-- No tokens, or terms with commas between them. -/
inductive Layout.WrittenBy : Layout → List Token → Prop
  | empty : WrittenBy ⟨[]⟩ []
  | terms {terms : List Term} {ts : List Token} (h : TermsWrittenBy terms ts) :
    WrittenBy ⟨terms⟩ ts

end ByteLayout
