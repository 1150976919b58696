import ConfigTree.Text.Utf8
import Mathlib.Tactic.Common

/-!
# What a text says of its bytes

The reading of bytes as UTF-8 loses something only where it puts the replacement character. What the
decoder has read of a character so far, together with the bytes that are due, is the encoding of the
character that it gives then; this is the invariant of its run.

* `DecoderState.Begun`: the bytes that have been read of a character.
* `DecoderState.begin_cases`: what the first byte of a character comes to.
* `DecoderState.HasRead.encode_run`: a run that puts no replacement character gives characters whose
  encoding is what has been read.
* `toByteArray_decodeLossy`: a text without that character has the bytes that it has been read from.
-/

namespace ConfigTree.Text

open String (utf8EncodeChar)

/-! ### Encodings -/

/-- A scalar value is that of its character. Without the bounds the code would be that of no
character, and the number would be lost. -/
theorem val_ofNat {n : Nat} (h : n < 0xD800 ∨ 0xDFFF < n ∧ n < 0x110000) :
    (Char.ofNat n).val.toNat = n := by
  have hvalid : n.isValidChar := h
  rw [Char.ofNat, dif_pos hvalid]
  rfl

variable {a b c d : UInt8}

theorem utf8EncodeChar_one (ha : a.toNat < 0x80) : utf8EncodeChar (Char.ofNat a.toNat) = [a] := by
  unfold utf8EncodeChar
  rw [val_ofNat (by omega)]
  dsimp only
  rw [if_pos (by omega), UInt8.ofNat_toNat]

theorem utf8EncodeChar_two (ha : 0xC2 ≤ a.toNat ∧ a.toNat ≤ 0xDF)
    (hb : 0x80 ≤ b.toNat ∧ b.toNat ≤ 0xBF) :
    utf8EncodeChar (Char.ofNat ((a.toNat - 0xC0) * 64 + (b.toNat - 0x80))) = [a, b] := by
  unfold utf8EncodeChar
  rw [val_ofNat (by omega)]
  dsimp only
  rw [if_neg (by omega), if_pos (by omega)]
  simp only [List.cons.injEq, ← UInt8.toNat_inj, UInt8.toNat_ofNat', and_true]
  omega

/-- Three bytes are no surrogate, and not more than are needed. The two bounds on the second byte
say so: they are those that the decoder sets after the first bytes `0xE0` and `0xED`. -/
theorem utf8EncodeChar_three (ha : 0xE0 ≤ a.toNat ∧ a.toNat ≤ 0xEF)
    (hb : 0x80 ≤ b.toNat ∧ b.toNat ≤ 0xBF) (hc : 0x80 ≤ c.toNat ∧ c.toNat ≤ 0xBF)
    (hlow : a.toNat = 0xE0 → 0xA0 ≤ b.toNat) (hhigh : a.toNat = 0xED → b.toNat ≤ 0x9F) :
    utf8EncodeChar (Char.ofNat
      (((a.toNat - 0xE0) * 64 + (b.toNat - 0x80)) * 64 + (c.toNat - 0x80))) = [a, b, c] := by
  unfold utf8EncodeChar
  rw [val_ofNat (by omega)]
  dsimp only
  rw [if_neg (by omega), if_neg (by omega), if_pos (by omega)]
  simp only [List.cons.injEq, ← UInt8.toNat_inj, UInt8.toNat_ofNat', and_true]
  omega

/-- Four bytes are not more than are needed, and not beyond the last character. -/
theorem utf8EncodeChar_four (ha : 0xF0 ≤ a.toNat ∧ a.toNat ≤ 0xF4)
    (hb : 0x80 ≤ b.toNat ∧ b.toNat ≤ 0xBF) (hc : 0x80 ≤ c.toNat ∧ c.toNat ≤ 0xBF)
    (hd : 0x80 ≤ d.toNat ∧ d.toNat ≤ 0xBF) (hlow : a.toNat = 0xF0 → 0x90 ≤ b.toNat)
    (hhigh : a.toNat = 0xF4 → b.toNat ≤ 0x8F) :
    utf8EncodeChar (Char.ofNat
      ((((a.toNat - 0xF0) * 64 + (b.toNat - 0x80)) * 64 + (c.toNat - 0x80)) * 64
        + (d.toNat - 0x80))) = [a, b, c, d] := by
  unfold utf8EncodeChar
  rw [val_ofNat (by omega)]
  dsimp only
  rw [if_neg (by omega), if_neg (by omega), if_neg (by omega)]
  simp only [List.cons.injEq, ← UInt8.toNat_inj, UInt8.toNat_ofNat', and_true]
  omega

/-! ### The decoder -/

namespace DecoderState

/-- The bytes that have been read of a character: each byte that is due takes them on, and the last
one makes them the encoding of the character that it completes. The bounds are those of the next
byte alone; all later ones range over everything that continues a character. -/
def Begun (read : List UInt8) : Nat → UInt8 → UInt8 → Nat → Prop
  | 0, low, high, code => ∀ b, low ≤ b → b ≤ high →
      utf8EncodeChar (Char.ofNat (code * 64 + (b.toNat - 0x80))) = read ++ [b]
  | more + 1, low, high, code => ∀ b, low ≤ b → b ≤ high →
      Begun (read ++ [b]) more 0x80 0xBF (code * 64 + (b.toNat - 0x80))

theorem begun_two (ha : 0xC2 ≤ a.toNat ∧ a.toNat ≤ 0xDF) :
    Begun [a] 0 0x80 0xBF (a.toNat - 0xC0) :=
  fun _ hlow hhigh => utf8EncodeChar_two ha ⟨hlow, hhigh⟩

theorem begun_three {low high : UInt8} (h : (0xE0 ≤ a.toNat ∧ a.toNat ≤ 0xEF) ∧
      (0x80 ≤ low.toNat ∧ high.toNat ≤ 0xBF) ∧ (a.toNat = 0xE0 → 0xA0 ≤ low.toNat) ∧
      (a.toNat = 0xED → high.toNat ≤ 0x9F)) : Begun [a] 1 low high (a.toNat - 0xE0) := by
  intro b hb hb' c hc hc'
  have htail : 0x80 ≤ c.toNat ∧ c.toNat ≤ 0xBF := ⟨hc, hc'⟩
  rw [UInt8.le_iff_toNat_le] at hb hb'
  exact utf8EncodeChar_three h.1 ⟨by omega, by omega⟩ htail (by omega) (by omega)

theorem begun_four {low high : UInt8} (h : (0xF0 ≤ a.toNat ∧ a.toNat ≤ 0xF4) ∧
      (0x80 ≤ low.toNat ∧ high.toNat ≤ 0xBF) ∧ (a.toNat = 0xF0 → 0x90 ≤ low.toNat) ∧
      (a.toNat = 0xF4 → high.toNat ≤ 0x8F)) : Begun [a] 2 low high (a.toNat - 0xF0) := by
  intro b hb hb' c hc hc' d hd hd'
  have htail : 0x80 ≤ c.toNat ∧ c.toNat ≤ 0xBF := ⟨hc, hc'⟩
  have htail' : 0x80 ≤ d.toNat ∧ d.toNat ≤ 0xBF := ⟨hd, hd'⟩
  rw [UInt8.le_iff_toNat_le] at hb hb'
  exact utf8EncodeChar_four h.1 ⟨by omega, by omega⟩ htail htail' (by omega) (by omega)

/-- **The first byte of a character** is its encoding, or begins it, or is replaced. The cases are
the ranges of first bytes that the decoder tells apart. -/
theorem begin_cases (a : UInt8) :
    (∃ c, begin a = (.start, [c]) ∧ (c = replacement ∨ utf8EncodeChar c = [a])) ∨
      ∃ more low high code, begin a = (.inside more low high code, []) ∧
        Begun [a] more low high code := by
  unfold begin
  simp only [UInt8.lt_iff_toNat_lt, UInt8.le_iff_toNat_le, Bool.and_eq_true, decide_eq_true_eq]
  split_ifs with hone htwo hE0 hED hthree hF0 hfour hF4
  · exact .inl ⟨_, rfl, .inr (utf8EncodeChar_one hone)⟩
  · exact .inr ⟨_, _, _, _, rfl, begun_two htwo⟩
  -- some bytes leave out a part of what could follow them
  · obtain rfl := hE0
    exact .inr ⟨_, _, _, _, rfl, begun_three (a := 0xE0) (by decide)⟩
  · obtain rfl := hED
    exact .inr ⟨_, _, _, _, rfl, begun_three (a := 0xED) (by decide)⟩
  · have hne : a.toNat ≠ 0xED := fun heq => hED (UInt8.toNat_inj.1 heq)
    have hrange : 0xE1 ≤ a.toNat ∧ a.toNat ≤ 0xEF := hthree
    exact .inr ⟨_, _, _, _, rfl, begun_three ⟨by omega, by decide, by omega, by omega⟩⟩
  · obtain rfl := hF0
    exact .inr ⟨_, _, _, _, rfl, begun_four (a := 0xF0) (by decide)⟩
  · have hrange : 0xF1 ≤ a.toNat ∧ a.toNat ≤ 0xF3 := hfour
    exact .inr ⟨_, _, _, _, rfl, begun_four ⟨by omega, by decide, by omega, by omega⟩⟩
  · obtain rfl := hF4
    exact .inr ⟨_, _, _, _, rfl, begun_four (a := 0xF4) (by decide)⟩
  · exact .inl ⟨_, rfl, .inl rfl⟩

/-- What has been read in a state, which between characters is nothing. -/
def HasRead (read : List UInt8) : DecoderState → Prop
  | .start => read = []
  | .inside more low high code => Begun read more low high code

theorem run_start (b : UInt8) (rest : List UInt8) :
    run .start (b :: rest) = (begin b).2 ++ run (begin b).1 rest := rfl

/-- **A run that puts no replacement character** gives characters whose encoding is what has been
read before it and in it. The induction is on the bytes; what has been read of a character that is
not complete goes along with the state. -/
theorem HasRead.encode_run {bytes read : List UInt8} {q : DecoderState} (h : HasRead read q)
    (hnone : replacement ∉ q.run bytes) : (q.run bytes).flatMap utf8EncodeChar = read ++ bytes := by
  have hstart : HasRead [] .start := rfl
  induction bytes generalizing q read with
  | nil =>
    cases q with
    | start =>
      obtain rfl : read = [] := h
      rfl
    -- bytes that end within a character are replaced
    | inside more low high code => exact absurd (List.mem_singleton.2 rfl) hnone
  | cons b rest ih =>
    cases q with
    | start =>
      obtain rfl : read = [] := h
      rw [run_start] at hnone ⊢
      rcases begin_cases b with ⟨c, hbegin, hc⟩ | ⟨more, low, high, code, hbegin, hbegun⟩
      · rw [hbegin, List.singleton_append] at hnone ⊢
        obtain ⟨hne, hnone⟩ := List.ne_and_not_mem_of_not_mem_cons hnone
        rw [List.flatMap_cons, hc.resolve_left hne.symm, ih hstart hnone]
        rfl
      · rw [hbegin] at hnone ⊢
        have hread : HasRead [b] (.inside more low high code) := hbegun
        exact ih hread hnone
    | inside more low high code =>
      -- a byte that is not due is where a replacement character comes
      rw [run] at hnone ⊢
      split at hnone
      · next hdue =>
        obtain ⟨hlow, hhigh⟩ := Bool.and_eq_true_iff.1 hdue
        have hlow := of_decide_eq_true hlow
        have hhigh := of_decide_eq_true hhigh
        rw [if_pos hdue]
        cases more with
        | zero =>
          have hread := h b hlow hhigh
          obtain ⟨-, hnone⟩ := List.ne_and_not_mem_of_not_mem_cons hnone
          rw [List.flatMap_cons, hread, ih hstart hnone, List.nil_append, List.append_assoc]
          rfl
        | succ more =>
          have hread : HasRead (read ++ [b]) (.inside more 0x80 0xBF _) := h b hlow hhigh
          rw [ih hread hnone, List.append_assoc]
          rfl
      · exact absurd List.mem_cons_self hnone

end DecoderState

/-! ### The text of bytes -/

variable {bytes bytes' : ByteArray}

/-- The text of what is UTF-8 has these bytes. -/
theorem toByteArray_of_fromUTF8? {s : String} (h : String.fromUTF8? bytes = some s) :
    s.toByteArray = bytes := by
  unfold String.fromUTF8? at h
  split at h
  · rw [← Option.some.inj h]
    rfl
  · cases h

/-- **A text without replacement characters has the bytes that it has been read from.** Bytes that
are UTF-8 are read without the decoder, which only sees what is not. -/
theorem toByteArray_decodeLossy (h : replacement ∉ (decodeLossy bytes).toList) :
    (decodeLossy bytes).toByteArray = bytes := by
  unfold decodeLossy at h ⊢
  cases hutf8 : String.fromUTF8? bytes with
  | some s =>
    rw [Option.getD_some]
    exact toByteArray_of_fromUTF8? hutf8
  | none =>
    rw [hutf8, Option.getD_none, String.toList_ofList] at h
    have hstart : DecoderState.HasRead [] .start := rfl
    rw [Option.getD_none, String.toByteArray_ofList, List.utf8Encode, hstart.encode_run h,
      List.nil_append]
    exact ByteArray.ext (by rw [List.data_toByteArray, Array.toArray_toList])

/-- **Bytes are told apart by their texts**, unless these have replacement characters. It is enough
to ask that of one text, since the other is the same. -/
theorem eq_of_decodeLossy_eq (h : decodeLossy bytes = decodeLossy bytes')
    (hnone : replacement ∉ (decodeLossy bytes).toList) : bytes = bytes' := by
  rw [← toByteArray_decodeLossy hnone, h, toByteArray_decodeLossy (h ▸ hnone)]

end ConfigTree.Text
