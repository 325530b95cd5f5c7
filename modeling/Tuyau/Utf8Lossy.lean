import Mathlib.Data.UInt

/-! # Text from bytes that may not be UTF-8

`lossy` reads bytes as UTF-8 and puts a replacement character for each part that is none: a part is what
was looked at before the first byte that cannot follow, and at least one byte.  Bytes that are UTF-8 are
read as the text they are (`lossy_encode`). -/

namespace Utf8Lossy

/-- The character that bytes start with. -/
def decodeChar (bs : List UInt8) : Option Char := bs.toByteArray.utf8DecodeChar? 0

/-- A byte that continues a character. -/
def isCont (b : UInt8) : Bool := 0x80 ≤ b && b ≤ 0xbf

/-- The first two bytes of a character of three. -/
def startsThree (b₀ b₁ : UInt8) : Bool :=
  b₀ = 0xe0 && 0xa0 ≤ b₁ && b₁ ≤ 0xbf || 0xe1 ≤ b₀ && b₀ ≤ 0xec && isCont b₁ ||
    b₀ = 0xed && 0x80 ≤ b₁ && b₁ ≤ 0x9f || 0xee ≤ b₀ && b₀ ≤ 0xef && isCont b₁

/-- The first two bytes of a character of four. -/
def startsFour (b₀ b₁ : UInt8) : Bool :=
  b₀ = 0xf0 && 0x90 ≤ b₁ && b₁ ≤ 0xbf || 0xf1 ≤ b₀ && b₀ ≤ 0xf3 && isCont b₁ ||
    b₀ = 0xf4 && 0x80 ≤ b₁ && b₁ ≤ 0x8f

/-- The length of the part to replace, where bytes do not start with a character. -/
def invalidLen : List UInt8 → ℕ
  | b₀ :: b₁ :: rest =>
      if startsThree b₀ b₁ then 2
      else if startsFour b₀ b₁ then if rest.head?.any isCont then 3 else 2
      else 1
  | _ => 1

/-- `String::from_utf8_lossy`. -/
def lossy : List UInt8 → List Char
  | [] => []
  | b :: rest =>
      match decodeChar (b :: rest) with
      | some c => c :: lossy (rest.drop (c.utf8Size - 1))
      | none => Char.ofNat 0xfffd :: lossy (rest.drop (invalidLen (b :: rest) - 1))
termination_by bs => bs.length
decreasing_by all_goals simp only [List.length_drop, List.length_cons]; omega

theorem decodeChar_encode (c : Char) (rest : List UInt8) :
    decodeChar (String.utf8EncodeChar c ++ rest) = some c := by
  rw [decodeChar, List.toByteArray_append]
  exact ByteArray.utf8DecodeChar?_utf8EncodeChar_append

theorem lossy_encode (t : List Char) : lossy (t.flatMap String.utf8EncodeChar) = t := by
  induction t with
  | nil => rw [List.flatMap_nil, lossy]
  | cons c t ih =>
      have hlen := String.length_utf8EncodeChar c
      have hdecode := decodeChar_encode c (t.flatMap String.utf8EncodeChar)
      rw [List.flatMap_cons]
      cases henc : String.utf8EncodeChar c with
      | nil =>
          have hpos := c.utf8Size_pos
          rw [henc] at hlen
          simp at hlen
          omega
      | cons b tail =>
          rw [henc] at hlen hdecode
          rw [List.cons_append, lossy, ← List.cons_append, hdecode]
          dsimp only
          rw [← hlen, List.length_cons, Nat.add_sub_cancel, List.drop_left, ih]

end Utf8Lossy
