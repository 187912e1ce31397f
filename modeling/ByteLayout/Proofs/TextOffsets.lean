/-
  ByteLayout.Proofs.TextOffsets
  ─────────────────────────────
  **WHERE A SOURCE STOPS BEING TEXT.**

  A source need not be text, and whether it is shows only where a string is
  complete.  Up to a string all bytes are ASCII or within strings that are
  text, so a string that is none is where the source stops being text
  (`Lexeme.EndOf.fitsText_of_token_eq_error`).  Every other error about a
  byte comes before that.

  One lemma says what errors a byte raises (`Lexer.fitsText_of_push`), one
  what errors the end of the source does (`Lexer.fitsText_of_close`).  The
  main result is `text_offsets`.
-/
import ByteLayout.Proofs.FirstError
import ByteLayout.Proofs.Quoted
import ByteLayout.Proofs.Sightings

namespace ByteLayout

/-! ## §1. Errors and the longest text at the front. -/

namespace LexicalError

/-- The offset that an error carries. -/
def offset? : LexicalError → Option Nat
  | .unknownByte _ offset | .fraction offset | .badFollower _ offset
  | .badDigit _ _ offset | .noDigits _ offset | .notUtf8 offset => some offset
  | .unreadable _ | .unfinished _ _ | .tooLong _ => none

/-- The error fits the longest text at the front of the source: if it is about
text, the source has more bytes than that text and the offset is where it
ends; else the offset is not after its end. -/
def FitsText (source : List UInt8) : LexicalError → Prop
  | .notUtf8 offset =>
    Utf8.validLength source < source.length ∧ offset = Utf8.validLength source
  | e => ∀ offset ∈ e.offset?, offset ≤ Utf8.validLength source

end LexicalError

/-- Of an error that is not about text, only the offset has to fit. -/
theorem LexicalError.fitsText_of_offset {e : LexicalError} {source : List UInt8}
    (hne : ∀ offset, e ≠ .notUtf8 offset)
    (h : ∀ offset ∈ e.offset?, offset ≤ Utf8.validLength source) : e.FitsText source := by
  cases e with
  | notUtf8 offset => exact absurd rfl (hne offset)
  | _ => exact h

/-- Bytes in hand that are of no string are text. -/
theorem Shape.Fits.isText {s : Shape} {bs : List UInt8} (h : s.Fits bs)
    (hs : ∀ q, s ≠ .quoted q) : Utf8.IsText bs := by
  cases s with
  | mark m => exact Kind.Lexeme.exists_bytes (k := .mark m) h nofun
  | blank => exact Utf8.isText_of_isBlank h.2
  | word => exact Kind.Lexeme.exists_bytes (k := .identifier) h nofun
  | zero => exact ⟨"0", by rw [show bs = _ from h]; rfl⟩
  | bare base => exact ⟨base.sign, h.2.symm⟩
  | digits base => exact Kind.Lexeme.exists_bytes (k := .integer) ⟨base, h⟩ nofun
  | quoted q => exact absurd rfl (hs q)

/-- A closed string that is no text is where the source stops being text. -/
theorem IsString.validLength_append {bs : List UInt8} (h : IsString bs)
    (hbs : ¬ Utf8.IsText bs) (more : List UInt8) :
    Utf8.validLength (bs ++ more) = Utf8.validLength bs := by
  obtain ⟨body, rfl, -⟩ := isString_iff.1 h
  rw [← List.cons_append] at hbs ⊢
  exact Utf8.validLength_append_of_not_isText (by decide) hbs more

/-! ## §2. What a byte and the end of the source can have against it. -/

namespace Lexeme

variable {l : Lexeme} {source more : List UInt8} {found : List Sighting}
  {ahead : Option UInt8} {e : LexicalError}

/-- Only integers are refused at a byte, and these are text. -/
theorem EndOf.isText_of_refuse (hl : l.EndOf source)
    (h : Sighted (source.take l.start) found) {b : UInt8}
    (hn : l.next (some b) = .refuse e) : Utf8.IsText source := by
  rw [← hl.take_append]
  refine h.isText.append (hl.fits.isText (fun q hs => ?_))
  by_cases hq : q = .closed
  · rw [next_of_closed (hq ▸ hs)] at hn
    cases hn
  · rw [next_of_quoted hs hq] at hn
    cases hn

/-- The error about a closed string that is no text is about the longest text
at the front of the source, whatever comes after the string. -/
theorem EndOf.fitsText_of_token_eq_error (hl : l.EndOf source)
    (h : Sighted (source.take l.start) found) (hn : l.next ahead = .complete)
    (ht : l.token = .error e) (more : List UInt8) : e.FitsText (source ++ more) := by
  have hnot : ¬ Utf8.IsText l.bytes := by
    intro htext
    obtain ⟨text, htext⟩ := htext
    cases hk : l.shape.kind? with
    | none => cases (token_of_blank hk).symm.trans ht
    | some k => cases ht.symm.trans ((token_eq_ok_iff hk).2 ⟨text, htext, rfl⟩)
  -- Of all lexemes only strings can fail to be text.
  have hstring : IsString l.bytes := by
    have hf := hl.fits
    rwa [closed_of_token_eq_error hf hn ht] at hf
  have hvalid : Utf8.validLength (source ++ more)
      = l.start + Utf8.validLength l.bytes := by
    conv_lhs => rw [← hl.take_append, List.append_assoc]
    rw [h.isText.validLength_append, List.length_take_of_le hl.start_le,
      hstring.validLength_append hnot]
  cases eq_notUtf8_of_token_eq_error ht
  refine ⟨?_, hvalid.symm⟩
  have hlt := Utf8.validLength_lt_of_not_isText hnot
  have hstop := hl.stop_eq
  rw [stop_eq_add_length] at hstop
  rw [hvalid, List.length_append]
  omega

end Lexeme

namespace Lexer

variable {x : Lexer} {source : List UInt8} {inHand : Option Lexeme} {b : UInt8}
  {e : LexicalError}

/-- An error that a byte raises fits the source, whatever comes after. -/
theorem fitsText_of_push (hx : x.state = .ok inHand) (hsource : InHand source inHand)
    (hfound : x.Shows source) (h : (x.push b).state = .error e) (after : List UInt8) :
    e.FitsText (source ++ b :: after) := by
  rcases push_error_cases hx hsource h with
    ⟨l, rfl, hn⟩ | ⟨l, rfl, hn, ht⟩ | ⟨rfl, hcomplete⟩
  · -- A lexeme that is refused is text, and the tokens before it are.
    have hl : l.EndOf source := hsource
    have hshown := (shows_of_some hx).1 hfound
    have hvalid := (hl.isText_of_refuse hshown hn).length_le_validLength (b :: after)
    have hstart : l.start ≤ source.length := hl.start_le
    have hstop : l.stop = source.length := hl.stop_eq
    cases Lexeme.refused_of_next hl.fits hn <;>
      refine LexicalError.fitsText_of_offset nofun (fun offset ho => ?_) <;>
      cases ho <;> omega
  · have hl : l.EndOf source := hsource
    exact hl.fitsText_of_token_eq_error ((shows_of_some hx).1 hfound) hn ht (b :: after)
  · -- A byte that begins nothing has text before it.
    have htext : Utf8.IsText source := by
      cases inHand with
      | none => exact ((shows_of_none hx).1 hfound).isText
      | some l =>
        have hl : l.EndOf source := hsource
        obtain ⟨hn, first, ht⟩ := hcomplete l rfl
        exact (hl.sighted ((shows_of_some hx).1 hfound) hn ht).isText
    refine LexicalError.fitsText_of_offset nofun (fun offset ho => ?_)
    cases ho
    exact htext.length_le_validLength _

/-- So does an error that the end of the source raises. -/
theorem fitsText_of_close (hx : x.state = .ok inHand) (hsource : InHand source inHand)
    (hfound : x.Shows source) (h : x.close.state = .error e) : e.FitsText source := by
  cases inHand with
  | none => cases hx.symm.trans ((congrArg state (close_of_none hx)).symm.trans h)
  | some l =>
    have hl : l.EndOf source := hsource
    have hshown := (shows_of_some hx).1 hfound
    rcases close_cases hx with
      ⟨e', hn, hs, -⟩ | ⟨e', hn, ht, hs, -⟩ | ⟨first, -, -, hs, -⟩
    · cases hs.symm.trans h
      refine LexicalError.fitsText_of_offset ?_ (fun offset ho => ?_)
      · rcases Lexeme.next_none_eq_refuse hn with ⟨_, -, -, rfl⟩ | ⟨_, -, rfl⟩ <;> nofun
      · -- Of these errors only the one about an integer carries an offset.
        have hvalid := hshown.isText.length_le_validLength (source.drop l.start)
        rw [List.take_append_drop, List.length_take_of_le hl.start_le] at hvalid
        rcases Lexeme.next_none_eq_refuse hn with ⟨_, -, -, rfl⟩ | ⟨_, -, rfl⟩ <;> cases ho
        exact hvalid
    · cases hs.symm.trans h
      have hfits := hl.fitsText_of_token_eq_error hshown hn ht []
      rwa [List.append_nil] at hfits
    · cases hs.symm.trans h

end Lexer

/-! ## §3. The longest text at the front. -/

section

variable {source : List UInt8} {ts : List Token} {e : LexicalError}

/-- What is spelled is text. -/
theorem Spelled.isText (h : Spelled source ts) : Utf8.IsText source := by
  induction h with
  | gap hblank => exact Utf8.isText_of_isBlank hblank
  | token hblank _ _ _ ih =>
    exact ((Utf8.isText_of_isBlank hblank).append ⟨_, rfl⟩).append ih

/-- Every error fits the longest text at the front of the source. -/
theorem fitsText_of_tokensOf (h : tokensOf source = .error e) : e.FitsText source := by
  rcases Lexer.fault_cases h with
    ⟨before, b, after, inHand, rfl, hbefore, hpush⟩ | ⟨inHand, hx, hclose⟩
  · exact Lexer.fitsText_of_push hbefore (Lexer.inHand_pushAll hbefore)
      (Lexer.shows_pushAll before) hpush after
  · exact Lexer.fitsText_of_close hx (Lexer.inHand_pushAll hx)
      (Lexer.shows_pushAll source) hclose

end

/-- **Where a source stops being text.**  The valid length of a source is that
of the longest text at its front.  A source that is read as tokens is text; an
error about text comes only if it is none, and with that length as the offset;
and no other error has an offset after it.  So no text is rejected for not
being text. -/
theorem text_offsets (source : List UInt8) :
    IsGreatest {n | n ≤ source.length ∧ Utf8.IsText (source.take n)}
        (Utf8.validLength source)
      ∧ (∀ ts, (Intake.standard.read (.ofBytes source)).outcome = .ok ts →
        Utf8.validLength source = source.length)
      ∧ (∀ e, (Intake.standard.read (.ofBytes source)).outcome = .error e →
        e.FitsText source)
      ∧ ∀ (text : String) (offset : Nat),
        (Intake.standard.read (.ofBytes (Utf8.bytes text))).outcome
            ≠ .error (.notUtf8 offset)
          ∧ (Intake.standard.read (.ofBytes (Utf8.bytes text))).layout
            ≠ .error (.lexical (.notUtf8 offset)) := by
  -- All of a text is valid, so that no offset could be where it ends.
  have htext (text : String) (offset : Nat) :
      tokensOf (Utf8.bytes text) ≠ .error (.notUtf8 offset) := by
    intro h
    have hvalid : Utf8.validLength (Utf8.bytes text) = (Utf8.bytes text).length :=
      Utf8.IsText.validLength_eq ⟨text, rfl⟩
    exact absurd (fitsText_of_tokensOf h).1 (by omega)
  refine ⟨Utf8.isGreatest_validLength source, fun ts h => ?_, fun e h => ?_,
    fun text offset => ⟨?_, fun h => ?_⟩⟩
  · rw [Intake.outcome_read_standard, tokensOf_eq_ok_iff] at h
    exact h.isText.validLength_eq
  · exact fitsText_of_tokensOf ((Intake.outcome_read_standard source).symm.trans h)
  · rw [Intake.outcome_read_standard]
    exact htext text offset
  · rw [Intake.layout_read_standard, Layout.ofBytes] at h
    cases ht : tokensOf (Utf8.bytes text) with
    | ok ts =>
      rw [ht, Layout.ofTokenized] at h
      cases hlayout : Layout.ofTokens ts <;> rw [hlayout] at h <;> cases h
    | error e =>
      rw [ht] at h
      cases h
      exact htext text offset ht

/-- A character that the closing quotation mark cuts short, after text. -/
example :
    (Intake.standard.read (.ofBytes (Utf8.bytes "a, \x22é" ++ [0xC3, 0x22, 0x20]))).outcome
      = .error (.notUtf8 6) := by
  decide +kernel

end ByteLayout
