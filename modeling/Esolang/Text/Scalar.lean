/-! Characters and their codes. A code names a character when it is a Unicode scalar value, and a
character is written as its UTF-8 bytes. -/

namespace Esolang

def scalar? (code : Int) : Option Char :=
  match code with
  | .ofNat n => if h : n.isValidChar then some (Char.ofNatAux n h) else none
  | .negSucc _ => none

/-- The character written by the first bytes of a list, read strictly. -/
def decodeFirst? (bytes : List UInt8) : Option Char :=
  bytes.toByteArray.utf8DecodeChar? 0

def encodeText (text : List Char) : List UInt8 :=
  text.flatMap String.utf8EncodeChar

theorem scalar?_toNat (c : Char) : scalar? (c.toNat : Int) = some c := by
  have h : c.toNat.isValidChar := c.valid
  show (if h : c.toNat.isValidChar then some (Char.ofNatAux c.toNat h) else none) = some c
  rw [dif_pos h]
  exact congrArg some (Char.ext (UInt32.toNat_inj.mp rfl))

theorem scalar?_eq_some_iff {code : Int} {c : Char} : scalar? code = some c ↔ code = c.toNat := by
  constructor
  · intro h
    match code with
    | .negSucc _ => cases h
    | .ofNat n =>
      by_cases hn : n.isValidChar
      · rw [scalar?, dif_pos hn] at h
        cases h
        rfl
      · rw [scalar?, dif_neg hn] at h
        cases h
  · rintro rfl
    exact scalar?_toNat c

@[simp] theorem encodeText_nil : encodeText [] = [] := rfl

@[simp] theorem encodeText_cons (c : Char) (text : List Char) :
    encodeText (c :: text) = String.utf8EncodeChar c ++ encodeText text := rfl

@[simp] theorem encodeText_append (s t : List Char) :
    encodeText (s ++ t) = encodeText s ++ encodeText t := by
  simp [encodeText]

theorem decodeFirst?_encode (c : Char) (rest : List UInt8) :
    decodeFirst? (String.utf8EncodeChar c ++ rest) = some c := by
  rw [decodeFirst?, List.toByteArray_append]
  exact ByteArray.utf8DecodeChar?_utf8EncodeChar_append

end Esolang
