import GoldenTrace.Json.Reader
import Mathlib.Tactic.Common

/-!
# Text and its bytes

The bytes of a text are read as its characters again, without a fault. So a text that is written
to a file and read from it is the same text, and what is proved of the reading of texts holds of
the reading of files.
-/

namespace GoldenTrace.Text

/-! ## One character -/

theorem Begun.extend_eq (s : Begun) (b : Nat) : s.extend b = s.bits * 64 + (b - 0x80) := rfl

theorem decodeOnto_cons {b : Nat} (hb : b < 0x100) (done : List (Option Char))
    (state : Option Begun) (bs : List UInt8) :
    decodeOnto done state (UInt8.ofNat b :: bs) =
      decodeOnto ((advance state b).1.reverse ++ done) (advance state b).2 bs := by
  have hnat : (UInt8.ofNat b).toNat = b := UInt8.toNat_ofNat_of_lt' hb
  rw [decodeOnto, hnat]

theorem decodeOnto_begin {done : List (Option Char)} {s : Begun} {b : Nat} (hlow : 0x80 ≤ b)
    (hb : b < 0x100) (h : begin? b = some s) (bs : List UInt8) :
    decodeOnto done none (UInt8.ofNat b :: bs) = decodeOnto done (some s) bs := by
  have hstart : start b = ([], some s) := by
    rw [start, if_neg (Nat.not_lt.mpr hlow), h]
  rw [decodeOnto_cons hb, advance, hstart]
  rfl

theorem decodeOnto_middle {done : List (Option Char)} {s : Begun} {b : Nat} (hb : b < 0x100)
    (hrange : s.low ≤ b ∧ b ≤ s.high) (hmissing : 1 < s.missing) (bs : List UInt8) :
    decodeOnto done (some s) (UInt8.ofNat b :: bs) =
      decodeOnto done (some ⟨s.extend b, s.missing - 1, 0x80, 0xBF⟩) bs := by
  have hadvance : advance (some s) b = ([], some ⟨s.extend b, s.missing - 1, 0x80, 0xBF⟩) := by
    rw [advance, if_pos hrange, if_neg (Nat.not_le.mpr hmissing)]
  rw [decodeOnto_cons hb, hadvance]
  rfl

theorem decodeOnto_last {done : List (Option Char)} {s : Begun} {b : Nat} {c : Char}
    (hb : b < 0x100) (hrange : s.low ≤ b ∧ b ≤ s.high) (hmissing : s.missing = 1)
    (hbits : s.extend b = c.val.toNat) (bs : List UInt8) :
    decodeOnto done (some s) (UInt8.ofNat b :: bs) = decodeOnto (some c :: done) none bs := by
  have hc : Char.ofNat (s.extend b) = c := hbits ▸ Char.ofNat_toNat c
  have hadvance : advance (some s) b = ([some c], none) := by
    rw [advance, if_pos hrange, if_pos (Nat.le_of_eq hmissing), hc]
  rw [decodeOnto_cons hb, hadvance]
  rfl

theorem some_begun_eq {bits bits' : Nat} (h : bits = bits') (missing low high : Nat) :
    some (⟨bits, missing, low, high⟩ : Begun) = some ⟨bits', missing, low, high⟩ := by
  rw [h]

theorem begin?_of_two {v : Nat} (h : 0x80 ≤ v ∧ v < 0x800) :
    begin? (v / 64 % 32 + 192) = some ⟨v / 64, 1, 0x80, 0xBF⟩ := by
  rw [begin?, if_pos (by omega)]
  exact some_begun_eq (by omega) ..

/-- The first two bytes of three: no overlong form and no surrogate is begun. -/
theorem begin?_of_three {v : Nat} (h : 0x800 ≤ v ∧ v < 0x10000) (hv : v.isValidChar) :
    ∃ low high, begin? (v / 4096 % 16 + 224) = some ⟨v / 4096, 2, low, high⟩ ∧
      low ≤ v / 64 % 64 + 128 ∧ v / 64 % 64 + 128 ≤ high := by
  rw [Nat.isValidChar] at hv
  rw [begin?, if_neg (by omega)]
  split
  case isTrue hfirst => exact ⟨0xA0, 0xBF, some_begun_eq (by omega) .., by omega, by omega⟩
  case isFalse =>
    split
    case isTrue hsurrogates => exact ⟨0x80, 0x9F, some_begun_eq (by omega) .., by omega, by omega⟩
    case isFalse =>
      rw [if_pos (by omega)]
      exact ⟨0x80, 0xBF, some_begun_eq (by omega) .., by omega, by omega⟩

/-- The first two bytes of four: no overlong form is begun and nothing beyond the last code
point. -/
theorem begin?_of_four {v : Nat} (h : 0x10000 ≤ v) (hv : v.isValidChar) :
    ∃ low high, begin? (v / 262144 % 8 + 240) = some ⟨v / 262144, 3, low, high⟩ ∧
      low ≤ v / 4096 % 64 + 128 ∧ v / 4096 % 64 + 128 ≤ high := by
  rw [Nat.isValidChar] at hv
  rw [begin?, if_neg (by omega), if_neg (by omega), if_neg (by omega), if_neg (by omega)]
  split
  case isTrue hfirst => exact ⟨0x90, 0xBF, some_begun_eq (by omega) .., by omega, by omega⟩
  case isFalse =>
    split
    case isTrue hmiddle => exact ⟨0x80, 0xBF, some_begun_eq (by omega) .., by omega, by omega⟩
    case isFalse =>
      rw [if_pos (by omega)]
      exact ⟨0x80, 0x8F, some_begun_eq (by omega) .., by omega, by omega⟩

/-- The bytes of a character are read as this character, whatever comes after them. -/
theorem decodeOnto_encodeChar (done : List (Option Char)) (c : Char) (bs : List UInt8) :
    decodeOnto done none (String.utf8EncodeChar c ++ bs) = decodeOnto (some c :: done) none bs := by
  have hvalid : c.val.toNat.isValidChar := c.valid
  have hc : Char.ofNat c.val.toNat = c := Char.ofNat_toNat c
  rw [String.utf8EncodeChar]
  generalize hv : c.val.toNat = v at hvalid hc
  -- a character has one byte, two, three or four
  split
  case isTrue h =>
    rw [List.singleton_append, decodeOnto_cons (by omega), advance, start, if_pos (by omega), hc]
    rfl
  case isFalse =>
    split
    case isTrue h =>
      have hbegin := @begin?_of_two v (by omega)
      rw [List.cons_append, List.singleton_append, decodeOnto_begin (by omega) (by omega) hbegin]
      exact decodeOnto_last (by omega) (by simp only; omega) rfl
        (by simp only [Begun.extend_eq]; omega) bs
    case isFalse =>
      split
      case isTrue h =>
        obtain ⟨low, high, hbegin, hrange⟩ := @begin?_of_three v (by omega) hvalid
        rw [List.cons_append, List.cons_append, List.singleton_append,
          decodeOnto_begin (by omega) (by omega) hbegin,
          decodeOnto_middle (by omega) hrange (Nat.lt_succ_self 1)]
        exact decodeOnto_last (by omega) (by simp only; omega) rfl
          (by simp only [Begun.extend_eq]; omega) bs
      case isFalse =>
        obtain ⟨low, high, hbegin, hrange⟩ := @begin?_of_four v (by omega) hvalid
        rw [List.cons_append, List.cons_append, List.cons_append, List.singleton_append,
          decodeOnto_begin (by omega) (by omega) hbegin,
          decodeOnto_middle (by omega) hrange (by simp only; omega),
          decodeOnto_middle (by omega) (by simp only; omega) (Nat.lt_succ_self 1)]
        exact decodeOnto_last (by omega) (by simp only; omega) rfl
          (by simp only [Begun.extend_eq]; omega) bs

/-! ## Whole texts -/

theorem decodeOnto_encode (done : List (Option Char)) (cs : List Char) :
    decodeOnto done none (cs.flatMap String.utf8EncodeChar) = done.reverse ++ cs.map some := by
  induction cs generalizing done with
  | nil => rw [List.flatMap_nil, List.map_nil, List.append_nil, decodeOnto]
  | cons c cs ih =>
      rw [List.flatMap_cons, decodeOnto_encodeChar, ih, List.reverse_cons, List.append_assoc]
      rfl

/-- **Bytes of a text are read without a fault.** -/
theorem decode_encode (s : String) : decode (encode s) = s.toList.map some := by
  rw [decode, encode, decodeOnto_encode]
  rfl

theorem decodeLossy_encode (s : String) : decodeLossy (encode s) = s := by
  rw [decodeLossy, decode_encode, List.map_map]
  exact (congrArg String.ofList (List.map_id _)).trans s.ofList_toList

end GoldenTrace.Text

namespace GoldenTrace.Json

theorem textOf_encode (s : String) : textOf (Text.encode s) = s := by
  rw [textOf, Text.decode_encode, List.flatMap_map]
  exact (congrArg String.ofList (List.flatMap_singleton' _)).trans s.ofList_toList

/-- A file that holds a text is read as the text. -/
theorem readBytes_encode {α : Type} (read : Json → Read α) (s : String) :
    readBytes read (Text.encode s) = readText read s := by
  rw [readBytes, textOf_encode]

end GoldenTrace.Json
