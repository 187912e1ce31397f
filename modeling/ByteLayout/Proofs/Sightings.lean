/-
  ByteLayout.Proofs.Sightings
  ───────────────────────────
  **WHAT A LEXER HAS FOUND.**

  Between two bytes a lexer has found some tokens and has a lexeme in hand.
  The tokens found stand at the front of the bytes taken in, each at its offset
  and with blank space around them (`Sighted`), and together they are what is
  before the lexeme in hand (`Lexer.Shows`).  One lemma says that a byte keeps
  this (`Lexer.Shows.push`), and so it holds after any bytes
  (`Lexer.shows_pushAll`), also if one of them raised an error.

  Which tokens are found is decided by one byte of what comes after them: they
  are the longest sequence that the bytes spell up to a byte that may come
  after its last token (`Lexer.isLongest_pushAll`).
-/
import ByteLayout.Proofs.Complete
import ByteLayout.Proofs.InHand
import ByteLayout.Proofs.Utf8

namespace ByteLayout

/-! ## §1. Tokens at their offsets. -/

/-- The offset after the last byte of a sighting's text. -/
def Sighting.stop (s : Sighting) : Nat :=
  s.start + (Utf8.bytes s.token.text).length

/-- The bytes are the texts of the sightings, lexemes of their kinds, each at
its offset, with blank space around them. -/
inductive Sighted : List UInt8 → List Sighting → Prop
  | nil : Sighted [] []
  | blank {bs gap : List UInt8} {found : List Sighting} (h : Sighted bs found)
    (hgap : ∀ b ∈ gap, ByteClass.isBlank b) : Sighted (bs ++ gap) found
  | token {bs : List UInt8} {found : List Sighting} {t : Token} (h : Sighted bs found)
    (hlexeme : t.kind.Lexeme (Utf8.bytes t.text)) :
    Sighted (bs ++ Utf8.bytes t.text) (found ++ [⟨t, bs.length⟩])

/-- No lexeme is empty. -/
theorem Kind.Lexeme.length_pos {k : Kind} {bs : List UInt8} (h : k.Lexeme bs) :
    0 < bs.length := by
  obtain ⟨b, cs, _, _, rfl, -⟩ := h.taken 0
  exact Nat.succ_pos _

theorem ByteClass.toNat_lt_of_isBlank {b : UInt8} (h : isBlank b) : b.toNat < 128 := by
  revert b
  apply forall_byte
  decide +kernel

/-- Blank space is text. -/
theorem Utf8.isText_of_isBlank {bs : List UInt8} (h : ∀ b ∈ bs, ByteClass.isBlank b) :
    IsText bs :=
  exists_bytes_of_ascii (fun b hb => ByteClass.toNat_lt_of_isBlank (h b hb))

namespace Sighted

variable {bs : List UInt8} {found : List Sighting}

/-- Bytes that tokens have been found in to their end are text. -/
theorem isText (h : Sighted bs found) : Utf8.IsText bs := by
  induction h with
  | nil => exact Utf8.isText_nil
  | blank _ hgap ih => exact ih.append (Utf8.isText_of_isBlank hgap)
  | token _ _ ih => exact ih.append ⟨_, rfl⟩

/-- Every sighting has a byte, and ends within the bytes. -/
theorem start_lt_stop_and_le (h : Sighted bs found) :
    ∀ s ∈ found, s.start < s.stop ∧ s.stop ≤ bs.length := by
  induction h with
  | nil => exact List.forall_mem_nil _
  | blank _ _ ih =>
    intro s hs
    obtain ⟨hlt, hle⟩ := ih s hs
    exact ⟨hlt, by rw [List.length_append]; omega⟩
  | @token bs found t _ hlexeme ih =>
    intro s hs
    rw [List.length_append]
    rcases List.mem_append.1 hs with hs | hs
    · obtain ⟨hlt, hle⟩ := ih s hs
      exact ⟨hlt, by omega⟩
    · rw [List.mem_singleton.1 hs]
      exact ⟨Nat.lt_add_of_pos_right hlexeme.length_pos, Nat.le_refl _⟩

/-- The text of a sighting is what the bytes have at its offset. -/
theorem text_prefix (h : Sighted bs found) :
    ∀ s ∈ found, Utf8.bytes s.token.text <+: bs.drop s.start := by
  -- More bytes behind a token leave it where it is.
  have hmore {bs : List UInt8} {found : List Sighting} (h : Sighted bs found)
      (more : List UInt8) {s : Sighting} (hs : s ∈ found)
      (htext : Utf8.bytes s.token.text <+: bs.drop s.start) :
      Utf8.bytes s.token.text <+: (bs ++ more).drop s.start := by
    obtain ⟨hlt, hle⟩ := h.start_lt_stop_and_le s hs
    rw [List.drop_append_of_le_length (by omega)]
    exact htext.trans (List.prefix_append _ more)
  induction h with
  | nil => exact List.forall_mem_nil _
  | blank h _ ih => exact fun s hs => hmore h _ hs (ih s hs)
  | token h _ ih =>
    intro s hs
    rcases List.mem_append.1 hs with hs | hs
    · exact hmore h _ hs (ih s hs)
    · rw [List.mem_singleton.1 hs]
      exact List.drop_left.symm ▸ List.prefix_rfl

/-- The tokens come one after another and do not overlap. -/
theorem pairwise (h : Sighted bs found) :
    found.Pairwise (fun s t => s.start < t.start ∧ s.stop ≤ t.start) := by
  induction h with
  | nil => exact .nil
  | blank _ _ ih => exact ih
  | token h _ ih =>
    -- The new token starts where the bytes before it end.
    refine List.pairwise_append.2 ⟨ih, List.pairwise_singleton _ _, fun s hs t ht => ?_⟩
    obtain ⟨hlt, hle⟩ := h.start_lt_stop_and_le s hs
    rw [List.mem_singleton.1 ht]
    exact ⟨Nat.lt_of_lt_of_le hlt hle, hle⟩

/-- A byte that no sighting covers is blank. -/
theorem isBlank_of_not_covered (h : Sighted bs found) {i : Nat} {b : UInt8}
    (hb : bs[i]? = some b) (hi : ∀ s ∈ found, ¬ (s.start ≤ i ∧ i < s.stop)) :
    ByteClass.isBlank b := by
  -- The byte is in the last part of the bytes, or in those before it.
  induction h with
  | nil => cases hb
  | @blank bs gap found _ hgap ih =>
    by_cases hlt : i < bs.length
    · rw [List.getElem?_append_left hlt] at hb
      exact ih hb hi
    · rw [List.getElem?_append_right (by omega)] at hb
      exact hgap b (List.mem_of_getElem? hb)
  | @token bs found t _ _ ih =>
    obtain ⟨hfound, hlast⟩ := List.forall_mem_append.1 hi
    by_cases hlt : i < bs.length
    · rw [List.getElem?_append_left hlt] at hb
      exact ih hb hfound
    · -- The byte would be one of the last text.
      have hbound := (List.getElem?_eq_some_iff.1 hb).1
      rw [List.length_append] at hbound
      exact absurd ⟨Nat.le_of_not_lt hlt, hbound⟩ (hlast _ List.mem_cons_self)

end Sighted

/-! ## §2. What is found comes before what is in hand. -/

namespace Lexeme

variable {l : Lexeme} {source : List UInt8} {found : List Sighting}

/-- A complete lexeme comes after the tokens found, and is the next of them
unless it is blank space. -/
theorem EndOf.sighted (hl : l.EndOf source) (h : Sighted (source.take l.start) found)
    {ahead : Option UInt8} {first : Option Sighting} (hn : l.next ahead = .complete)
    (ht : l.token = .ok first) : Sighted source (found ++ first.toList) := by
  rw [← hl.take_append]
  cases hk : l.shape.kind? with
  | none =>
    have hs : l.shape = .blank := Shape.eq_blank_of_kind? hk
    cases (token_of_blank hk).symm.trans ht
    have hf := hl.fits
    rw [hs] at hf
    rw [Option.toList_none, List.append_nil]
    exact h.blank hf.2
  | some k =>
    obtain ⟨text, htext, rfl⟩ := (token_eq_ok_iff hk).1 ht
    obtain ⟨hlexeme, -⟩ := lexeme_of_next hl.fits hn hk
    rw [← htext] at hlexeme ⊢
    have htoken := h.token (t := ⟨k, text⟩) hlexeme
    rwa [List.length_take_of_le hl.start_le] at htoken

end Lexeme

namespace Lexer

/-- The tokens that a lexer has found in a source, by what it has in hand:
those before the lexeme in hand; all of them, if no lexeme is; and those of
some bytes at the front, if an error came after them. -/
def Shows (x : Lexer) (source : List UInt8) : Prop :=
  match x.state with
  | .ok none => Sighted source x.sightings
  | .ok (some l) => Sighted (source.take l.start) x.sightings
  | .error _ => ∃ front, front <+: source ∧ Sighted front x.sightings

variable {x : Lexer} {source front : List UInt8} {l : Lexeme} {b : UInt8}
  {e : LexicalError}

/-- What a lexer shows with nothing in hand covers all bytes taken in. -/
theorem shows_of_none (hx : x.state = .ok none) :
    x.Shows source ↔ Sighted source x.sightings := by
  rw [Shows, hx]

/-- With a lexeme in hand it covers those before the lexeme. -/
theorem shows_of_some (hx : x.state = .ok (some l)) :
    x.Shows source ↔ Sighted (source.take l.start) x.sightings := by
  rw [Shows, hx]

/-- And after an error it covers some of those at the front. -/
theorem shows_of_error (hx : x.state = .error e) :
    x.Shows source ↔ ∃ front, front <+: source ∧ Sighted front x.sightings := by
  rw [Shows, hx]

/-- In any case the tokens found are those of some bytes at the front. -/
theorem Shows.exists_front (h : x.Shows source) :
    ∃ front, front <+: source ∧ Sighted front x.sightings := by
  cases hx : x.state with
  | error e => exact (shows_of_error hx).1 h
  | ok inHand =>
    cases inHand with
    | none => exact ⟨source, List.prefix_rfl, (shows_of_none hx).1 h⟩
    | some l => exact ⟨_, List.take_prefix _ _, (shows_of_some hx).1 h⟩

/-- A byte met afresh comes after what has been found. -/
theorem shows_of_begin (h : Sighted source x.sightings)
    (hx : x.state = (Lexeme.begin? source.length b).map some) :
    x.Shows (source ++ [b]) := by
  cases hb : Lexeme.begin? source.length b with
  | error e =>
    rw [hb] at hx
    exact (shows_of_error hx).2 ⟨source, List.prefix_append _ _, h⟩
  | ok l =>
    rw [hb] at hx
    obtain ⟨s, -, rfl⟩ := Lexeme.begin?_eq_ok_iff.1 hb
    exact (shows_of_some hx).2 (by rwa [List.take_left])

theorem sightings_push_of_none (hx : x.state = .ok none) (b : UInt8) :
    (x.push b).sightings = x.sightings := by
  unfold push
  rw [hx]
  rfl

/-- Every byte keeps what has been found before what is in hand. -/
theorem Shows.push (h : x.Shows source)
    (hsource : ∀ inHand, x.state = .ok inHand → InHand source inHand) (b : UInt8) :
    (x.push b).Shows (source ++ [b]) := by
  cases hx : x.state with
  | error e =>
    obtain ⟨front, hfront, hfound⟩ := h.exists_front
    rw [push_of_error hx]
    exact (shows_of_error hx).2 ⟨front, hfront.trans (List.prefix_append _ _), hfound⟩
  | ok inHand =>
    cases inHand with
    | none =>
      cases (show source = [] from hsource none hx)
      refine shows_of_begin ?_ (state_push_of_none hx b)
      rw [sightings_push_of_none hx]
      exact (shows_of_none hx).1 h
    | some l =>
      have hl : l.EndOf source := hsource _ hx
      have hfound := (shows_of_some hx).1 h
      -- Of a lexeme at fault nothing is found.
      have hfault {e : LexicalError} (hs : (x.push b).state = .error e)
          (hsame : (x.push b).sightings = x.sightings) :
          (x.push b).Shows (source ++ [b]) := by
        refine (shows_of_error hs).2 ⟨source.take l.start, ?_, hsame ▸ hfound⟩
        exact (List.take_prefix _ _).trans (List.prefix_append _ _)
      rcases push_cases hx b with
        ⟨s, -, hs, hsame⟩ | ⟨e, -, hs, hsame⟩ | ⟨e, -, -, hs, hsame⟩
        | ⟨first, hn, ht, hs, hmore⟩
      · refine (shows_of_some hs).2 ?_
        rw [hsame]
        exact (List.take_append_of_le_length hl.start_le).symm ▸ hfound
      · exact hfault hs hsame
      · exact hfault hs hsame
      · exact shows_of_begin (hmore ▸ hl.sighted hfound hn ht) (hl.stop_eq ▸ hs)

/-- What a lexer has found after any bytes comes before what it has in
hand. -/
theorem shows_pushAll (source : List UInt8) :
    (Lexer.empty.pushAll source).Shows source := by
  induction source using List.reverseRecOn with
  | nil => exact .nil
  | append_singleton source b ih =>
    rw [pushAll_append, pushAll_cons, pushAll_nil]
    exact ih.push (fun _ hx => inHand_pushAll hx) b

/-- What the end of the input does to a lexer with a lexeme in hand: the
lexeme is refused, or complete but no text, or the last one found. -/
theorem close_cases (hx : x.state = .ok (some l)) :
    (∃ e, l.next none = .refuse e ∧ x.close.state = .error e
        ∧ x.close.sightings = x.sightings)
      ∨ (∃ e, l.next none = .complete ∧ l.token = .error e
        ∧ x.close.state = .error e ∧ x.close.sightings = x.sightings)
      ∨ (∃ found, l.next none = .complete ∧ l.token = .ok found
        ∧ x.close.state = .ok none
        ∧ x.close.sightings = x.sightings ++ found.toList) := by
  cases hn : l.next none with
  | more s => exact absurd hn (l.next_none_ne_more s)
  | refuse e =>
    rw [close_of_refuse hx hn]
    exact .inl ⟨e, rfl, rfl, rfl⟩
  | complete =>
    rw [close_of_complete hx hn]
    cases ht : l.token with
    | error e =>
      exact .inr (.inl ⟨e, rfl, rfl, state_retire_of_error ht,
        sightings_retire_of_error ht⟩)
    | ok found =>
      exact .inr (.inr ⟨found, rfl, rfl, state_retire ht, sightings_retire ht⟩)

/-- With nothing in hand the end of the input changes nothing. -/
theorem close_of_none (hx : x.state = .ok none) : x.close = x := by
  rw [close, hx]

/-- At the end of the input everything has been found, unless it is an
error. -/
theorem Shows.close (h : x.Shows source)
    (hsource : ∀ inHand, x.state = .ok inHand → InHand source inHand) :
    x.close.Shows source := by
  cases hx : x.state with
  | error e => rwa [close_of_error hx]
  | ok inHand =>
    cases inHand with
    | none => rwa [close_of_none hx]
    | some l =>
      have hl : l.EndOf source := hsource _ hx
      have hfound := (shows_of_some hx).1 h
      have hfront : source.take l.start <+: source := List.take_prefix _ _
      rcases close_cases hx with
        ⟨e, -, hs, hsame⟩ | ⟨e, -, -, hs, hsame⟩ | ⟨first, hn, ht, hs, hmore⟩
      · exact (shows_of_error hs).2 ⟨_, hfront, hsame ▸ hfound⟩
      · exact (shows_of_error hs).2 ⟨_, hfront, hsame ▸ hfound⟩
      · exact (shows_of_none hs).2 (hmore ▸ hl.sighted hfound hn ht)

/-- At the end of the input a lexer shows what is in the source. -/
theorem shows_close (source : List UInt8) :
    (Lexer.empty.pushAll source).close.Shows source :=
  (shows_pushAll source).close (fun _ hx => inHand_pushAll hx)

end Lexer

/-! ## §3. The tokens found are the longest sequence that is complete. -/

/-- Some bytes at the front of the source spell the tokens, and right after
them comes a byte that may stand after the last token. -/
def TokensCompleteIn : List UInt8 → List Token → Prop :=
  CompleteIn Spelled (fun t b => t.kind.EndsBefore (some b))

namespace Lexeme

variable {l : Lexeme} {ahead : Option UInt8}

/-- A lexeme that is complete before a byte is complete at the end of the
input. -/
theorem next_none_of_complete (h : l.next ahead = .complete) :
    l.next none = .complete := by
  cases hs : l.shape with
  | mark m => exact next_of_mark hs none
  | blank => exact next_of_blank hs none
  | word => exact next_of_word hs none
  | zero => exact next_of_zero hs none
  | bare base =>
    rw [next_of_bare hs] at h
    cases (nextInteger_eq_complete h).1
  | digits base => exact next_of_digits hs none
  | quoted q =>
    cases closed_of_complete hs h
    exact next_of_closed hs none

/-- One that is complete at the end of the input is complete before what may
come after its kind. -/
theorem next_of_endsBefore {k : Kind} (h : l.next none = .complete)
    (hk : l.shape.kind? = some k) (ha : k.EndsBefore ahead) :
    l.next ahead = .complete := by
  cases hs : l.shape with
  | mark m => exact next_of_mark hs ahead
  | blank =>
    rw [hs] at hk
    cases hk
  | word =>
    rw [hs] at hk
    cases hk
    rw [next_of_word hs]
    apply if_neg
    cases ahead with
    | none => decide
    | some b => exact fun hw => ha (ByteClass.isWordPart_of_iff.1 hw)
  | zero =>
    rw [hs] at hk
    cases hk
    exact next_zero_of_endsBefore hs ha
  | bare base =>
    -- The announcement of a base is not complete without digits.
    rw [next_of_bare hs] at h
    cases (nextInteger_eq_complete h).1
  | digits base =>
    rw [hs] at hk
    cases hk
    exact next_of_digits_of_endsBefore hs ha
  | quoted q =>
    cases closed_of_complete hs h
    exact next_of_closed hs ahead

end Lexeme

namespace Lexer

variable {x : Lexer} {source : List UInt8} {l : Lexeme} {b : UInt8}
  {ts : List Token}

/-- The tokens that a lexer has found. -/
def tokens (x : Lexer) : List Token :=
  x.sightings.map Sighting.token

/-- A lexeme that is complete at the end of the input is the last token. -/
theorem outcome_close_of_complete {found : Option Sighting}
    (hx : x.state = .ok (some l)) (hn : l.next none = .complete)
    (ht : l.token = .ok found) :
    x.close.outcome = .ok ((x.sightings ++ found.toList).map Sighting.token) := by
  rw [close_of_complete hx hn, outcome, state_retire ht, sightings_retire ht]

/-- And one that a byte completes is the last that is found so far. -/
theorem sightings_push_of_complete {found : Option Sighting}
    (hx : x.state = .ok (some l)) (hn : l.next (some b) = .complete)
    (ht : l.token = .ok found) :
    (x.push b).sightings = x.sightings ++ found.toList := by
  rw [push_of_lexeme hx, hn]
  exact sightings_retire ht

/-- A byte adds at most one token, that of the lexeme which it completes. -/
theorem sightings_push_cases (x : Lexer) (b : UInt8) :
    (x.push b).sightings = x.sightings
      ∨ ∃ l s, x.state = .ok (some l) ∧ l.next (some b) = .complete
        ∧ l.token = .ok (some s) ∧ (x.push b).sightings = x.sightings ++ [s] := by
  cases hx : x.state with
  | error e => exact .inl (by rw [push_of_error hx])
  | ok inHand =>
    cases inHand with
    | none => exact .inl (sightings_push_of_none hx b)
    | some l =>
      rcases push_cases hx b with
        ⟨_, -, -, hsame⟩ | ⟨_, -, -, hsame⟩ | ⟨_, -, -, -, hsame⟩ | ⟨found, hn, ht, -, hmore⟩
      · exact .inl hsame
      · exact .inl hsame
      · exact .inl hsame
      · cases found with
        | none => exact .inl (hmore.trans (List.append_nil _))
        | some s => exact .inr ⟨l, s, rfl, hn, ht, hmore⟩

/-- What has been found stays found. -/
theorem sightings_prefix_push (x : Lexer) (b : UInt8) :
    x.sightings <+: (x.push b).sightings := by
  rcases sightings_push_cases x b with hsame | ⟨_, s, -, -, -, hmore⟩
  · exact hsame ▸ List.prefix_rfl
  · exact hmore ▸ List.prefix_append _ [s]

/-- A token that is added is complete before the byte: the source ends with
its lexeme, and so spells it last. -/
theorem tokens_push_spelled (source : List UInt8) (b : UInt8) :
    ((empty.pushAll source).push b).tokens = (empty.pushAll source).tokens
      ∨ ∃ t, ((empty.pushAll source).push b).tokens = (empty.pushAll source).tokens ++ [t]
        ∧ Spelled source ((empty.pushAll source).tokens ++ [t])
        ∧ t.kind.EndsBefore (some b) := by
  rcases sightings_push_cases (empty.pushAll source) b with
    hsame | ⟨l, s, hx, hn, ht, hmore⟩
  · exact .inl (congrArg (List.map Sighting.token) hsame)
  · cases hk : l.shape.kind? with
    | none => cases (Lexeme.token_of_blank hk).symm.trans ht
    | some k =>
      obtain ⟨text, -, hs⟩ := (Lexeme.token_eq_ok_iff hk).1 ht
      cases hs
      -- What a byte completes would be complete at the end of the input, too,
      -- so that the bytes before it spell the tokens.
      have hl : l.EndOf source := inHand_pushAll hx
      have hspelled := tokensOf_eq_ok_iff.1
        (outcome_close_of_complete hx (Lexeme.next_none_of_complete hn) ht)
      rw [Option.toList_some, List.map_append, List.map_singleton] at hspelled
      refine .inr ⟨⟨k, text⟩, ?_, hspelled, (Lexeme.lexeme_of_next hl.fits hn hk).2⟩
      rw [tokens, hmore, List.map_append, List.map_singleton]
      rfl

/-- Tokens that are spelled are found as soon as a byte comes that may stand
after the last of them. -/
theorem prefix_push_of_spelled {t : Token} (h : Spelled source (ts ++ [t]))
    (hb : t.kind.EndsBefore (some b)) :
    ts ++ [t] <+: ((empty.pushAll source).push b).tokens := by
  have hclosed : (empty.pushAll source).close.outcome = .ok (ts ++ [t]) :=
    tokensOf_eq_ok_iff.2 h
  have hmono : (empty.pushAll source).tokens <+: ((empty.pushAll source).push b).tokens :=
    (sightings_prefix_push _ b).map Sighting.token
  cases hx : (empty.pushAll source).state with
  | error e => cases hclosed.symm.trans (outcome_of_error hx [])
  | ok inHand =>
    cases inHand with
    | none =>
      rw [close_of_none hx, outcome, hx] at hclosed
      exact Except.ok.inj hclosed ▸ hmono
    | some l =>
      rcases close_cases hx with
        ⟨e, -, hs, -⟩ | ⟨e, -, -, hs, -⟩ | ⟨found, hn, ht, -, -⟩
      · cases hclosed.symm.trans (outcome_eq_error hs)
      · cases hclosed.symm.trans (outcome_eq_error hs)
      · rw [outcome_close_of_complete hx hn ht, Except.ok.injEq] at hclosed
        cases hk : l.shape.kind? with
        | none =>
          cases (Lexeme.token_of_blank hk).symm.trans ht
          rw [Option.toList_none, List.append_nil] at hclosed
          exact hclosed ▸ hmono
        | some k =>
          -- The last token is the lexeme in hand, which the byte completes.
          obtain ⟨text, -, rfl⟩ := (Lexeme.token_eq_ok_iff hk).1 ht
          have hlast : (⟨k, text⟩ : Token) = t := by
            rw [Option.toList_some, List.map_append, List.map_singleton] at hclosed
            exact List.singleton_inj.1 (List.append_inj_right' hclosed rfl)
          subst hlast
          have hmore := sightings_push_of_complete hx (Lexeme.next_of_endsBefore hn hk hb) ht
          rw [← hclosed, ← hmore]
          exact List.prefix_rfl

/-- **The tokens found after some bytes are the longest sequence that is
complete in them.** -/
theorem isLongest_pushAll (source : List UInt8) :
    IsLongest (TokensCompleteIn source) (empty.pushAll source).tokens := by
  have hnil : Spelled [] [] := .gap (List.forall_mem_nil _)
  refine isLongest_of_push (f := fun bs => (empty.pushAll bs).tokens) rfl hnil
    (fun front b => ?_) (fun {front ts t b} hspelled hends => ?_) source
  · rw [pushAll_append, pushAll_cons, pushAll_nil]
    exact tokens_push_spelled front b
  · rw [pushAll_append, pushAll_cons, pushAll_nil]
    exact prefix_push_of_spelled hspelled hends

end Lexer

end ByteLayout
