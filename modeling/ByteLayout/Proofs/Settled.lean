/-
  ByteLayout.Proofs.Settled
  ─────────────────────────
  **WHAT MORE INPUT LEAVES AS IT IS.**

  A source that is read as tokens may turn out to go on.  All of its tokens
  but the last were found before it ended, and stay found.  The last one was
  the lexeme in hand, and that may take some of the bytes which follow:

      `12`  goes on as  `123`       `0`  goes on as  `0x1f`

  A byte that a lexeme takes leaves its kind (`Lexeme.kind?_of_next`), so what
  it makes in the end is a token of this kind that begins with its bytes
  (`Lexeme.exists_first_of_scan`).  And a lexeme that is apart from what
  follows takes nothing.

  The main result is `tokens_settled`.
-/
import ByteLayout.Proofs.IntegerOutcome

namespace ByteLayout

/-! ## §1. The token that a lexeme in hand comes to. -/

namespace Lexeme

variable {l : Lexeme} {k : Kind} {rest : List UInt8} {found : List Sighting}

/-- A byte that a lexeme takes leaves the kind of token that it makes. -/
theorem kind?_of_next {b : UInt8} {s : Shape} (h : l.next (some b) = .more s) :
    s.kind? = l.shape.kind? := by
  cases hs : l.shape with
  | mark m =>
    rw [next_of_mark hs] at h
    cases h
  | blank =>
    rw [next_of_blank hs] at h
    split at h <;> cases h
    rfl
  | word =>
    rw [next_of_word hs] at h
    split at h <;> cases h
    rfl
  | zero =>
    -- A zero may announce a base, or go on as a number of base ten.
    rw [next_of_zero hs] at h
    split at h
    · cases h
      rfl
    · obtain ⟨rfl, -⟩ := nextInteger_eq_more h
      rfl
  | bare base =>
    rw [next_of_bare hs] at h
    obtain ⟨rfl, -⟩ := nextInteger_eq_more h
    rfl
  | digits base =>
    rw [next_of_digits hs] at h
    obtain ⟨rfl, -⟩ := nextInteger_eq_more h
    rfl
  | quoted q =>
    by_cases hq : q = .closed
    · rw [next_of_closed (hq ▸ hs)] at h
      cases h
    · rw [next_of_quoted hs hq] at h
      cases h
      rfl

/-- A lexeme that is complete is the next token, and the rest is scanned after
it. -/
theorem exists_first_of_complete (rest : List UInt8) (hk : l.shape.kind? = some k)
    (hn : l.next rest.head? = .complete) (h : l.scan rest = .ok found) :
    ∃ t others, found = ⟨t, l.start⟩ :: others ∧ t.kind = k
      ∧ Utf8.bytes t.text = l.bytes ∧ scanFrom l.stop rest = .ok others := by
  obtain ⟨first, others, ht, hothers, rfl⟩ := (scan_eq_ok_iff_of_complete rest hn).1 h
  obtain ⟨text, htext, rfl⟩ := (token_eq_ok_iff hk).1 ht
  exact ⟨⟨k, text⟩, others, rfl, rfl, htext, hothers⟩

/-- At the end of the source a lexeme in hand makes one token, of its own kind
and with its bytes. -/
theorem eq_singleton_of_scan_nil (hk : l.shape.kind? = some k)
    (h : l.scan [] = .ok found) :
    ∃ t, found = [⟨t, l.start⟩] ∧ t.kind = k ∧ Utf8.bytes t.text = l.bytes := by
  cases hn : l.next none with
  | more s => exact absurd hn (l.next_none_ne_more s)
  | refuse e =>
    rw [scan_of_refuse [] hn] at h
    cases h
  | complete =>
    obtain ⟨t, others, rfl, hkind, htext, hothers⟩ :=
      exists_first_of_complete [] hk hn h
    cases hothers
    exact ⟨t, rfl, hkind, htext⟩

/-- Whatever comes after it, a lexeme in hand makes the next token, of its own
kind and with its bytes at the front. -/
theorem exists_first_of_scan (hk : l.shape.kind? = some k) (h : l.scan rest = .ok found) :
    ∃ t others, found = ⟨t, l.start⟩ :: others ∧ t.kind = k
      ∧ l.bytes <+: Utf8.bytes t.text := by
  -- The induction is on the bytes ahead; those that are taken come after
  -- those in hand.
  induction rest generalizing l with
  | nil =>
    obtain ⟨t, rfl, hkind, htext⟩ := eq_singleton_of_scan_nil hk h
    exact ⟨t, [], rfl, hkind, htext ▸ List.prefix_rfl⟩
  | cons b bs ih =>
    cases hn : l.next (some b) with
    | more s =>
      rw [scan_of_more hn] at h
      obtain ⟨t, others, hfound, hkind, htext⟩ := ih ((kind?_of_next hn).trans hk) h
      rw [bytes_push] at htext
      exact ⟨t, others, hfound, hkind, (List.prefix_append _ _).trans htext⟩
    | refuse e =>
      rw [scan_of_refuse (b :: bs) hn] at h
      cases h
    | complete =>
      obtain ⟨t, others, hfound, hkind, htext, -⟩ :=
        exists_first_of_complete (b :: bs) hk hn h
      exact ⟨t, others, hfound, hkind, htext ▸ List.prefix_rfl⟩

end Lexeme

/-! ## §2. Tokens of which the last may grow. -/

/-- The other token is of the same kind, and its text begins with that of this
one. -/
def Token.GrowsInto (t u : Token) : Prop :=
  u.kind = t.kind ∧ ∃ more, u.text = t.text ++ more

/-- The tokens stand at the front of the others as they are, except that the
last of them may have grown. -/
def SettledIn (ts us : List Token) : Prop :=
  ts <+: us ∨ ∃ front t u others,
    ts = front ++ [t] ∧ us = front ++ u :: others ∧ t.GrowsInto u

theorem Token.GrowsInto.refl (t : Token) : t.GrowsInto t :=
  ⟨rfl, "", String.append_empty.symm⟩

/-- A text begins with another if its bytes do. -/
theorem Utf8.exists_append_of_bytes_prefix {s t : String} (h : bytes s <+: bytes t) :
    ∃ more, t = s ++ more := by
  obtain ⟨rest, hrest⟩ := h
  have hs : IsText (bytes s) := ⟨s, rfl⟩
  obtain ⟨more, rfl⟩ := hs.of_append ⟨t, hrest.symm⟩
  exact ⟨more, bytes_inj.1 (hrest.symm.trans (bytes_append s more).symm)⟩

namespace SettledIn

variable {ts us : List Token}

/-- There are no fewer tokens than before. -/
theorem length_le (h : SettledIn ts us) : ts.length ≤ us.length := by
  rcases h with hprefix | ⟨front, t, u, others, rfl, rfl, -⟩
  · exact hprefix.length_le
  · simp

/-- All but the last are as they were. -/
theorem dropLast_prefix (h : SettledIn ts us) : ts.dropLast <+: us := by
  rcases h with hprefix | ⟨front, t, u, others, rfl, rfl, -⟩
  · exact (List.dropLast_prefix ts).trans hprefix
  · rw [List.dropLast_concat]
    exact List.prefix_append _ _

/-- And where the last one was, there is one that it has grown into. -/
theorem exists_growsInto (h : SettledIn ts us) {last : Token} (hlast : last ∈ ts.getLast?) :
    ∃ t, us[ts.length - 1]? = some t ∧ last.GrowsInto t := by
  rcases h with ⟨others, rfl⟩ | ⟨front, t, u, others, rfl, rfl, hgrows⟩
  · obtain ⟨front, rfl⟩ := List.getLast?_eq_some_iff.1 hlast
    exact ⟨last, by simp, .refl last⟩
  · rw [List.getLast?_concat] at hlast
    cases hlast
    exact ⟨u, by simp, hgrows⟩

end SettledIn

/-! ## §3. A source that goes on. -/

section

variable {source more : List UInt8} {ts us : List Token}

/-- A source that goes on has the tokens found so far in front of those that
the lexeme in hand and the other bytes make. -/
theorem Lexer.exists_scan_of_tokensOf {l : Lexeme}
    (hx : (empty.pushAll source).state = .ok (some l))
    (h : tokensOf (source ++ more) = .ok us) :
    ∃ found, l.scan more = .ok found
      ∧ us = (empty.pushAll source).tokens ++ found.map Sighting.token := by
  rw [tokensOf, pushAll_append, outcome_of_lexeme hx] at h
  cases hscan : l.scan more with
  | error e =>
    rw [hscan] at h
    cases h
  | ok found =>
    rw [hscan] at h
    cases h
    exact ⟨found, rfl, List.map_append⟩

/-- The tokens of a source are settled when it goes on: the last of them is the
lexeme in hand at its end, and the others were found before. -/
theorem settledIn_of_tokensOf (h : tokensOf source = .ok ts)
    (hmore : tokensOf (source ++ more) = .ok us) : SettledIn ts us := by
  cases hx : (Lexer.empty.pushAll source).state with
  | error e => cases h.symm.trans (Lexer.outcome_of_error hx [])
  | ok inHand =>
    cases inHand with
    | none =>
      -- Before the first byte there are no tokens.
      cases (show source = [] from Lexer.inHand_pushAll hx)
      cases h
      exact .inl List.nil_prefix
    | some l =>
      rw [← List.append_nil source] at h
      obtain ⟨last, hlast, rfl⟩ := Lexer.exists_scan_of_tokensOf hx h
      obtain ⟨found, hfound, rfl⟩ := Lexer.exists_scan_of_tokensOf hx hmore
      cases hk : l.shape.kind? with
      | none =>
        -- Blank space is no token, and the end adds none.
        rw [Lexeme.scan_of_blank (Shape.eq_blank_of_kind? hk)] at hlast
        cases hlast
        exact .inl ((List.prefix_append_right_inj _).2 List.nil_prefix)
      | some k =>
        -- The token that the end makes of it is the one that may grow.
        obtain ⟨t, rfl, hkind, htext⟩ := Lexeme.eq_singleton_of_scan_nil hk hlast
        obtain ⟨u, others, rfl, hkind', htext'⟩ := Lexeme.exists_first_of_scan hk hfound
        refine .inr ⟨_, t, u, others.map Sighting.token, rfl, rfl, hkind'.trans hkind.symm, ?_⟩
        exact Utf8.exists_append_of_bytes_prefix (htext ▸ htext')

/-- After what is apart from it the rest of a source adds tokens, and changes
none. -/
theorem prefix_of_apart (h : tokensOf source = .ok ts)
    (hmore : tokensOf (source ++ more) = .ok us) (hapart : Apart source ts) :
    ts <+: us := by
  rw [(splits_of_apart h hapart more).tokensOf_append] at hmore
  cases hrest : tokensOf more with
  | error e =>
    rw [hrest] at hmore
    cases hmore
  | ok others =>
    rw [hrest] at hmore
    cases hmore
    exact List.prefix_append ts others

end

/-- **More input leaves tokens as they are.**  If a source is read as tokens
and so is what it goes on as, there are no fewer of them then, all but the last
are as they were, and where the last one was there is one of its kind whose
text begins with its text.  The last is as it was as well if it is a mark or a
string, or if blank space comes after it. -/
theorem tokens_settled (source more : List UInt8) (ts us : List Token)
    (h : (Intake.standard.read (.ofBytes source)).outcome = .ok ts)
    (hmore : (Intake.standard.read (.ofBytes (source ++ more))).outcome = .ok us) :
    ts.length ≤ us.length ∧ ts.dropLast <+: us
      ∧ (∀ last ∈ ts.getLast?, ∃ t, us[ts.length - 1]? = some t ∧ last.GrowsInto t)
      ∧ (Apart source ts → ts <+: us) := by
  rw [Intake.outcome_read_standard] at h hmore
  have hsettled : SettledIn ts us := settledIn_of_tokensOf h hmore
  exact ⟨hsettled.length_le, hsettled.dropLast_prefix,
    fun _ hlast => hsettled.exists_growsInto hlast, prefix_of_apart h hmore⟩

/-- A zero that goes on to announce a base, and one that blank space keeps from
doing so. -/
theorem tokens_settled_after_zero :
    ((Intake.standard.read (.ofBytes (Utf8.bytes "a, 0"))).outcome
          = .ok [⟨.identifier, "a"⟩, ⟨.mark .comma, ","⟩, ⟨.integer, "0"⟩]
        ∧ (Intake.standard.read (.ofBytes (Utf8.bytes "a, 0" ++ Utf8.bytes "x1f/b"))).outcome
          = .ok [⟨.identifier, "a"⟩, ⟨.mark .comma, ","⟩, ⟨.integer, "0x1f"⟩,
              ⟨.mark .slash, "/"⟩, ⟨.identifier, "b"⟩]
        ∧ Token.GrowsInto ⟨.integer, "0"⟩ ⟨.integer, "0x1f"⟩)
      ∧ ((Intake.standard.read (.ofBytes (Utf8.bytes "0\n"))).outcome
          = .ok [⟨.integer, "0"⟩]
        ∧ (Intake.standard.read (.ofBytes (Utf8.bytes "0\n" ++ Utf8.bytes "x1"))).outcome
          = .ok [⟨.integer, "0"⟩, ⟨.identifier, "x1"⟩]
        ∧ [(⟨.integer, "0"⟩ : Token)] <+: [⟨.integer, "0"⟩, ⟨.identifier, "x1"⟩]) := by
  have hzero : (Intake.standard.read (.ofBytes (Utf8.bytes "a, 0"))).outcome
      = .ok [⟨.identifier, "a"⟩, ⟨.mark .comma, ","⟩, ⟨.integer, "0"⟩] := by
    decide +kernel
  have hgrown : (Intake.standard.read
      (.ofBytes (Utf8.bytes "a, 0" ++ Utf8.bytes "x1f/b"))).outcome
      = .ok [⟨.identifier, "a"⟩, ⟨.mark .comma, ","⟩, ⟨.integer, "0x1f"⟩,
          ⟨.mark .slash, "/"⟩, ⟨.identifier, "b"⟩] := by decide +kernel
  have hline : (Intake.standard.read (.ofBytes (Utf8.bytes "0\n"))).outcome
      = .ok [⟨.integer, "0"⟩] := by decide +kernel
  have hapart : (Intake.standard.read (.ofBytes (Utf8.bytes "0\n" ++ Utf8.bytes "x1"))).outcome
      = .ok [⟨.integer, "0"⟩, ⟨.identifier, "x1"⟩] := by decide +kernel
  refine ⟨⟨hzero, hgrown, ?_⟩, hline, hapart, ?_⟩
  · obtain ⟨t, ht, hgrows⟩ := (tokens_settled _ _ _ _ hzero hgrown).2.2.1 _ rfl
    cases ht
    exact hgrows
  · exact (tokens_settled _ _ _ _ hline hapart).2.2.2
      (.inr (.inl ⟨'\n'.toUInt8, by decide +kernel, by decide⟩))

end ByteLayout
