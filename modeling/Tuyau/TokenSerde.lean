import Tuyau.Codec
import Tuyau.SeqAccess

/-! # The token on the wire

A token is written as a CBOR byte string.  It is read by a visitor that takes a byte string or an array of
32 numbers: `visitBytes` compares the length, and `visitSeq` pulls one element for each of the 32 slots.

The main result is `token_forms_iff`: a byte string and an array are taken for a token only if they have 32
elements, and the two forms of the same bytes for the same token, exactly if the array has at most 32
elements.  Those behind the 32nd are never asked for. -/

namespace Tuyau

namespace TokenSerde

open AsciiText

/-! ### The visitor -/

/-- What the visitor expects. -/
def expecting : Text := "32 bytes".toList

/-- The message for a number of bytes that is not the expected one. -/
def invalidLength (len : ℕ) : Text :=
  "invalid length ".toList ++ Nat.toDigits 10 len ++ ", expected ".toList ++ expecting

def visitBytes (v : Bytes) : Except Text Token :=
  if h : v.length = 32 then .ok ⟨v.toArray, h⟩ else .error (invalidLength v.length)

def visitByteBuf (v : Bytes) : Except Text Token := visitBytes v

/-- The second component of the answer is the sequence behind the elements that were taken. -/
def visitSeq {σ : Type*} (nextElement : σ → Except Text (Option UInt8 × σ)) (seq : σ) :
    Except Text (Token × σ) :=
  SeqAccess.fill nextElement invalidLength (Vector.replicate 32 0) seq

/-- The forms of a token: a byte string, and an array of bytes. -/
inductive Item where
  | bytes (v : Bytes)
  | array (xs : List UInt8)
deriving DecidableEq

def serialize (token : Token) : Item := .bytes token.toList

/-- The library gives the visitor a byte string as a slice or as a buffer of its own, and an array as the
sequence of its elements. -/
def deserialize (owned : Bool) : Item → Except Text Token
  | .bytes v => if owned then visitByteBuf v else visitBytes v
  | .array xs => (visitSeq SeqAccess.pop xs).map Prod.fst

/-- A token is decoded from exactly 32 bytes in either form. -/
structure TokenForms (v xs : List UInt8) : Prop where
  bytes : (∃ token, visitBytes v = .ok token) ↔ v.length = 32
  bytesInOrder : ∀ token, visitBytes v = .ok token → token.toList = v
  byteBuf : visitByteBuf v = visitBytes v
  seq : (∃ token rest, visitSeq SeqAccess.pop xs = .ok (token, rest)) ↔ xs.length = 32
  seqInOrder : ∀ token rest, visitSeq SeqAccess.pop xs = .ok (token, rest) → token.toList = xs ∧ rest = []
  roundTrip : ∀ owned token, deserialize owned (serialize token) = .ok token
  sameTokens : ∀ owned token,
    deserialize owned (.bytes xs) = .ok token ↔ deserialize owned (.array xs) = .ok token

/-! ### What the visitor returns -/

variable {v xs : List UInt8} {token : Token}

theorem visitBytes_eq_ok_iff : visitBytes v = .ok token ↔ token.toList = v := by
  unfold visitBytes
  split_ifs with h
  · constructor
    · intro htoken
      cases htoken
      rfl
    · rintro rfl
      rfl
  · refine iff_of_false (by simp) ?_
    rintro rfl
    exact h token.length_toList

/-- Whatever follows the 32 elements is left unread. -/
theorem visitSeq_eq_ok_iff {rest : List UInt8} :
    visitSeq SeqAccess.pop xs = .ok (token, rest) ↔ xs = token.toList ++ rest := by
  rw [visitSeq, SeqAccess.fill_eq_ok_iff, SeqAccess.yields_pop]

theorem deserialize_bytes_eq_ok_iff {owned : Bool} :
    deserialize owned (.bytes v) = .ok token ↔ token.toList = v := by
  rw [← visitBytes_eq_ok_iff]
  cases owned <;> rfl

theorem deserialize_array_eq_ok_iff {owned : Bool} :
    deserialize owned (.array xs) = .ok token ↔ token.toList <+: xs := by
  change (visitSeq SeqAccess.pop xs).map Prod.fst = .ok token ↔ _
  constructor
  · intro h
    cases hseq : visitSeq SeqAccess.pop xs with
    | error e => rw [hseq] at h; cases h
    | ok answer =>
        rw [hseq] at h
        cases h
        exact ⟨answer.2, (visitSeq_eq_ok_iff.mp hseq).symm⟩
  · rintro ⟨rest, hrest⟩
    rw [visitSeq_eq_ok_iff.mpr hrest.symm]
    rfl

theorem exists_toList_eq : (∃ token : Token, token.toList = xs) ↔ xs.length = 32 := by
  constructor
  · rintro ⟨token, rfl⟩
    exact token.length_toList
  · intro h
    exact ⟨⟨xs.toArray, h⟩, rfl⟩

/-- An array that is not longer than a token holds it as a whole, with nothing behind it. -/
theorem visitSeq_of_length_le {rest : List UInt8} (hshort : xs.length ≤ 32)
    (h : visitSeq SeqAccess.pop xs = .ok (token, rest)) : token.toList = xs ∧ rest = [] := by
  obtain rfl := visitSeq_eq_ok_iff.mp h
  rw [List.length_append, token.length_toList] at hshort
  have hrest : rest = [] := List.eq_nil_of_length_eq_zero (by omega)
  rw [hrest, List.append_nil]
  exact ⟨rfl, rfl⟩

/-- **A token is decoded from exactly 32 bytes in either form if and only if the array is not longer.** -/
theorem token_forms_iff (v xs : List UInt8) : TokenForms v xs ↔ xs.length ≤ 32 := by
  constructor
  · intro h
    by_contra hlong
    -- the first 32 elements are taken for a token
    obtain ⟨token, htoken⟩ := exists_toList_eq.mpr (List.length_take_of_le (by omega : 32 ≤ xs.length))
    have hseq : visitSeq SeqAccess.pop xs = .ok (token, xs.drop 32) := by
      rw [visitSeq_eq_ok_iff, htoken, List.take_append_drop]
    have hlen := h.seq.mp ⟨token, _, hseq⟩
    omega
  · intro hshort
    exact {
      bytes := by
        simp only [visitBytes_eq_ok_iff]
        exact exists_toList_eq
      bytesInOrder := fun token h => visitBytes_eq_ok_iff.mp h
      byteBuf := rfl
      seq := by
        rw [← exists_toList_eq]
        constructor
        · rintro ⟨token, rest, h⟩
          exact ⟨token, (visitSeq_of_length_le hshort h).1⟩
        · rintro ⟨token, rfl⟩
          exact ⟨token, [], visitSeq_eq_ok_iff.mpr (List.append_nil _).symm⟩
      seqInOrder := fun token rest h => visitSeq_of_length_le hshort h
      roundTrip := fun owned token => deserialize_bytes_eq_ok_iff.mpr rfl
      sameTokens := by
        intro owned token
        rw [deserialize_bytes_eq_ok_iff, deserialize_array_eq_ok_iff]
        constructor
        · rintro rfl
          exact List.prefix_refl _
        · intro h
          exact h.eq_of_length_le (by rwa [token.length_toList]) }

/-- An array of 33 elements is taken for the token of the first 32, and one element is left. -/
theorem long_array_accepted :
    visitSeq SeqAccess.pop (List.replicate 33 0) = .ok (Vector.replicate 32 0, [0]) ∧
      deserialize false (.array (List.replicate 33 0)) = .ok (Vector.replicate 32 0) ∧
      deserialize false (.bytes (List.replicate 33 0)) = .error "invalid length 33, expected 32 bytes".toList ∧
      ¬ TokenForms [] (List.replicate 33 0) := by
  have hlist : List.replicate 33 0 = (Vector.replicate 32 (0 : UInt8)).toList ++ [0] := rfl
  have hseq := visitSeq_eq_ok_iff.mpr hlist
  refine ⟨hseq, deserialize_array_eq_ok_iff.mpr ⟨[0], hlist.symm⟩, rfl, fun h => ?_⟩
  exact absurd (h.seq.mp ⟨_, _, hseq⟩) (by decide)

end TokenSerde

end Tuyau
