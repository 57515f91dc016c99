/-!
# Texts from octets

Octets are read as UTF-8.  Where they are none, a replacement character stands for each longest
run that begins a character and does not go on as one, and for each octet that begins none.

Main definitions:

* `Utf8.Pending` — the start of a character, with what may follow;
* `Utf8.decode` — the characters of a list of octets;
* `Utf8.encode` — the octets of a list of characters.

Main statement:

* `Utf8.decode_encode` — the octets of characters are read as these characters.
-/

namespace FieldFilter.Utf8

/-- What stands where octets are no character. -/
def replacement : Char := '\uFFFD'

/-- The start of a character: its bits so far, how many octets are to come, and the least and the
greatest that the next of them may be. -/
structure Pending where
  bits : Nat
  owed : Nat
  low : Nat
  high : Nat
  deriving DecidableEq, Repr

/-- What an octet begins. -/
inductive Lead where
  | complete (c : Char)
  | partly (pending : Pending)
  | invalid

/-- What an octet begins.  The bounds on the second octet keep out characters that have a shorter
form, surrogates, and numbers beyond the last code point. -/
def lead (octet : Nat) : Lead :=
  if octet < 0x80 then .complete (Char.ofNat octet)
  else if octet < 0xC2 then .invalid
  else if octet < 0xE0 then .partly ⟨octet - 0xC0, 1, 0x80, 0xBF⟩
  else if octet < 0xF0 then
    .partly ⟨octet - 0xE0, 2, if octet = 0xE0 then 0xA0 else 0x80,
      if octet = 0xED then 0x9F else 0xBF⟩
  else if octet < 0xF5 then
    .partly ⟨octet - 0xF0, 3, if octet = 0xF0 then 0x90 else 0x80,
      if octet = 0xF4 then 0x8F else 0xBF⟩
  else .invalid

/-- The characters of a list of octets, after the start of one if there is any. -/
def decodeFrom (pending : Option Pending) : List UInt8 → List Char
  | [] =>
    match pending with
    | none => []
    | some _ => [replacement]
  | octet :: rest =>
    let begin : List Char :=
      match lead octet.toNat with
      | .complete c => c :: decodeFrom none rest
      | .partly next => decodeFrom (some next) rest
      | .invalid => replacement :: decodeFrom none rest
    match pending with
    | none => begin
    | some ⟨bits, owed, low, high⟩ =>
      if low ≤ octet.toNat ∧ octet.toNat ≤ high then
        let bits := bits * 0x40 + (octet.toNat - 0x80)
        if owed = 1 then Char.ofNat bits :: decodeFrom none rest
        else decodeFrom (some ⟨bits, owed - 1, 0x80, 0xBF⟩) rest
      else replacement :: begin

def decode (octets : List UInt8) : List Char :=
  decodeFrom none octets

def encode (text : List Char) : List UInt8 :=
  text.flatMap String.utf8EncodeChar

/-! ## What is encoded is decoded -/

theorem decodeFrom_complete {octet : UInt8} {c : Char} (h : lead octet.toNat = .complete c)
    (rest : List UInt8) : decodeFrom none (octet :: rest) = c :: decodeFrom none rest := by
  rw [decodeFrom, h]

theorem decodeFrom_partly {octet : UInt8} {pending : Pending}
    (h : lead octet.toNat = .partly pending) (rest : List UInt8) :
    decodeFrom none (octet :: rest) = decodeFrom (some pending) rest := by
  rw [decodeFrom, h]

/-- An octet within the bounds goes on with a character, and ends it if no more is to come. -/
theorem decodeFrom_within {bits owed low high : Nat} {octet : UInt8}
    (h : low ≤ octet.toNat ∧ octet.toNat ≤ high) (rest : List UInt8) :
    decodeFrom (some ⟨bits, owed, low, high⟩) (octet :: rest)
      = if owed = 1 then Char.ofNat (bits * 0x40 + (octet.toNat - 0x80)) :: decodeFrom none rest
        else decodeFrom
          (some ⟨bits * 0x40 + (octet.toNat - 0x80), owed - 1, 0x80, 0xBF⟩) rest := by
  rw [decodeFrom]
  exact if_pos h

section Codes

variable {code : Nat} (rest : List UInt8)

/-- Every octet but the first of a character has six bits of its code. -/
theorem toNat_next (code : Nat) : (UInt8.ofNat (code % 64 + 128)).toNat = code % 64 + 128 :=
  UInt8.toNat_ofNat_of_lt' (by change _ < 256; omega)

theorem decodeFrom_two (hlow : 127 < code) (hhigh : code ≤ 2047) :
    decodeFrom none
        (UInt8.ofNat (code / 64 % 32 + 192) :: UInt8.ofNat (code % 64 + 128) :: rest)
      = Char.ofNat code :: decodeFrom none rest := by
  have hfirst : (UInt8.ofNat (code / 64 % 32 + 192)).toNat = code / 64 % 32 + 192 :=
    UInt8.toNat_ofNat_of_lt' (by change _ < 256; omega)
  have hbits : code / 64 % 32 + 192 - 0xC0 = code / 64 := by omega
  have hlead : lead (UInt8.ofNat (code / 64 % 32 + 192)).toNat
      = .partly ⟨code / 64, 1, 0x80, 0xBF⟩ := by
    rw [hfirst, lead, if_neg (by omega), if_neg (by omega), if_pos (by omega), hbits]
  have hcode : code / 64 * 0x40 + (code % 64 + 128 - 0x80) = code := by omega
  rw [decodeFrom_partly hlead, decodeFrom_within (by rw [toNat_next]; omega), if_pos rfl,
    toNat_next, hcode]

theorem decodeFrom_three (hlow : 2047 < code) (hhigh : code ≤ 65535)
    (hvalid : code < 0xD800 ∨ 0xDFFF < code) :
    decodeFrom none
        (UInt8.ofNat (code / 4096 % 16 + 224) :: UInt8.ofNat (code / 64 % 64 + 128)
          :: UInt8.ofNat (code % 64 + 128) :: rest)
      = Char.ofNat code :: decodeFrom none rest := by
  have hfirst : (UInt8.ofNat (code / 4096 % 16 + 224)).toNat = code / 4096 + 224 := by
    rw [UInt8.toNat_ofNat_of_lt' (by change _ < 256; omega)]
    omega
  obtain ⟨low, high, hlead, hwithin⟩ : ∃ low high,
      lead (UInt8.ofNat (code / 4096 % 16 + 224)).toNat = .partly ⟨code / 4096, 2, low, high⟩
        ∧ low ≤ code / 64 % 64 + 128 ∧ code / 64 % 64 + 128 ≤ high := by
    have hbits : code / 4096 + 224 - 0xE0 = code / 4096 := by omega
    refine ⟨if code / 4096 + 224 = 0xE0 then 0xA0 else 0x80,
      if code / 4096 + 224 = 0xED then 0x9F else 0xBF, ?_, ?_, ?_⟩
    · rw [hfirst, lead, if_neg (by omega), if_neg (by omega), if_neg (by omega),
        if_pos (by omega), hbits]
    · -- a code with a shorter form is excluded
      split <;> omega
    · -- and so is a surrogate
      split <;> omega
  have hcode : (code / 4096 * 0x40 + (code / 64 % 64 + 128 - 0x80)) * 0x40
      + (code % 64 + 128 - 0x80) = code := by omega
  rw [decodeFrom_partly hlead, decodeFrom_within (by rw [toNat_next]; exact hwithin),
    if_neg (by decide), decodeFrom_within (by rw [toNat_next]; omega), if_pos rfl, toNat_next,
    toNat_next, hcode]

theorem decodeFrom_four (hlow : 65535 < code) (hhigh : code < 0x110000) :
    decodeFrom none
        (UInt8.ofNat (code / 262144 % 8 + 240) :: UInt8.ofNat (code / 4096 % 64 + 128)
          :: UInt8.ofNat (code / 64 % 64 + 128) :: UInt8.ofNat (code % 64 + 128) :: rest)
      = Char.ofNat code :: decodeFrom none rest := by
  have hfirst : (UInt8.ofNat (code / 262144 % 8 + 240)).toNat = code / 262144 + 240 := by
    rw [UInt8.toNat_ofNat_of_lt' (by change _ < 256; omega)]
    omega
  obtain ⟨low, high, hlead, hwithin⟩ : ∃ low high,
      lead (UInt8.ofNat (code / 262144 % 8 + 240)).toNat = .partly ⟨code / 262144, 3, low, high⟩
        ∧ low ≤ code / 4096 % 64 + 128 ∧ code / 4096 % 64 + 128 ≤ high := by
    have hbits : code / 262144 + 240 - 0xF0 = code / 262144 := by omega
    refine ⟨if code / 262144 + 240 = 0xF0 then 0x90 else 0x80,
      if code / 262144 + 240 = 0xF4 then 0x8F else 0xBF, ?_, ?_, ?_⟩
    · rw [hfirst, lead, if_neg (by omega), if_neg (by omega), if_neg (by omega),
        if_neg (by omega), if_pos (by omega), hbits]
    · split <;> omega
    · split <;> omega
  have hcode : ((code / 262144 * 0x40 + (code / 4096 % 64 + 128 - 0x80)) * 0x40
      + (code / 64 % 64 + 128 - 0x80)) * 0x40 + (code % 64 + 128 - 0x80) = code := by omega
  rw [decodeFrom_partly hlead, decodeFrom_within (by rw [toNat_next]; exact hwithin),
    if_neg (by decide), decodeFrom_within (by rw [toNat_next]; omega), if_neg (by decide),
    decodeFrom_within (by rw [toNat_next]; omega), if_pos rfl, toNat_next, toNat_next, toNat_next,
    hcode]

end Codes

/-- **The octets of a character are read as that character.** -/
theorem decodeFrom_utf8EncodeChar (c : Char) (rest : List UInt8) :
    decodeFrom none (String.utf8EncodeChar c ++ rest) = c :: decodeFrom none rest := by
  obtain ⟨code, hcode⟩ : ∃ code, c.val.toNat = code := ⟨_, rfl⟩
  have hc : Char.ofNat code = c := by
    rw [← hcode]
    exact Char.ofNat_toNat c
  have hvalid : code < 0xD800 ∨ 0xDFFF < code ∧ code < 0x110000 := by
    rw [← hcode]
    exact c.valid
  rw [String.utf8EncodeChar, hcode]
  by_cases h1 : code ≤ 127
  · have hlead : lead (UInt8.ofNat code).toNat = .complete c := by
      rw [UInt8.toNat_ofNat_of_lt' (by change _ < 256; omega), lead, if_pos (by omega), hc]
    rw [if_pos h1]
    exact decodeFrom_complete hlead rest
  · by_cases h2 : code ≤ 2047
    · rw [if_neg h1, if_pos h2, ← hc]
      exact decodeFrom_two rest (by omega) h2
    · by_cases h3 : code ≤ 65535
      · rw [if_neg h1, if_neg h2, if_pos h3, ← hc]
        exact decodeFrom_three rest (by omega) h3 (by omega)
      · rw [if_neg h1, if_neg h2, if_neg h3, ← hc]
        exact decodeFrom_four rest (by omega) (by omega)

/-- **The octets of characters are read as these characters.** -/
theorem decode_encode (text : List Char) : decode (encode text) = text := by
  rw [decode, encode]
  induction text with
  | nil => rfl
  | cons c rest ih => rw [List.flatMap_cons, decodeFrom_utf8EncodeChar, ih]

end FieldFilter.Utf8
