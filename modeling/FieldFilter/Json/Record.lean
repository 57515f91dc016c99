import FieldFilter.Json.Token

/-!
# Records from a JSON text

A record with named fields is read from an object or from an array.  In an object, members that
are no field of the record are skipped, whatever their value; a field that is given twice is
refused, and one that is not given keeps its default.  In an array the fields come in their
order, and only the last ones may be left out.  The text is read from left to right, so of two
faults the first one counts.

Main definitions:

* `JsonToken.skip` — what follows a value, if there is one;
* `Record` — the fields of a record and how each is set;
* `Record.read` — the record of a text.
-/

namespace FieldFilter

namespace JsonToken

/-! ## Skipping a value -/

inductive Frame where
  | array
  | object
  deriving DecidableEq, Repr

/-- What has to come next within a value. -/
inductive Expecting where
  | value
  | itemOrEnd
  | keyOrEnd
  | key
  | colon
  /-- A value is complete: a comma or the end of what it stands in. -/
  | separator
  deriving DecidableEq, Repr

def startValue (frames : List Frame) (token : JsonToken) : Option (List Frame × Expecting) :=
  match token with
  | .null | .bool _ | .number | .string _ => some (frames, .separator)
  | .openBracket => some (.array :: frames, .itemOrEnd)
  | .openBrace => some (.object :: frames, .keyOrEnd)
  | _ => none

/-- The effect of one token within a value, if it may come there. -/
def advance (frames : List Frame) (expecting : Expecting) (token : JsonToken) :
    Option (List Frame × Expecting) :=
  match expecting, token, frames with
  | .value, token, frames => startValue frames token
  | .itemOrEnd, .closeBracket, .array :: outer => some (outer, .separator)
  | .itemOrEnd, token, frames => startValue frames token
  | .keyOrEnd, .closeBrace, .object :: outer => some (outer, .separator)
  | .keyOrEnd, .string _, frames => some (frames, .colon)
  | .key, .string _, frames => some (frames, .colon)
  | .colon, .colon, frames => some (frames, .value)
  | .separator, .comma, .array :: outer => some (.array :: outer, .value)
  | .separator, .comma, .object :: outer => some (.object :: outer, .key)
  | .separator, .closeBracket, .array :: outer => some (outer, .separator)
  | .separator, .closeBrace, .object :: outer => some (outer, .separator)
  | _, _, _ => none

/-- What follows the value that is being read. -/
def skipFrom (frames : List Frame) (expecting : Expecting) :
    List JsonToken → Option (List JsonToken)
  | [] => none
  | token :: rest =>
    match advance frames expecting token with
    | none => none
    | some ([], .separator) => some rest
    | some (frames, expecting) => skipFrom frames expecting rest

/-- What follows a value, or none if the tokens do not start with one. -/
def skip (tokens : List JsonToken) : Option (List JsonToken) :=
  skipFrom [] .value tokens

theorem length_of_skipFrom {frames : List Frame} {expecting : Expecting}
    {tokens rest : List JsonToken} (h : skipFrom frames expecting tokens = some rest) :
    rest.length < tokens.length := by
  induction tokens generalizing frames expecting with
  | nil => simp [skipFrom] at h
  | cons token tokens ih =>
    unfold skipFrom at h
    split at h
    · cases h
    · cases h
      simp
    · exact Nat.lt_succ_of_lt (ih h)

end JsonToken

/-! ## Reading a record -/

/-- A record: its fields in order, how one is set, and the fault for a text that is malformed.
The value of a field is a single token. -/
structure Record (ε σ : Type) where
  fields : List String
  set : String → JsonToken → σ → Except ε σ
  malformed : ε

namespace Record

variable {ε σ : Type}

/-- A record from the members of an object, up to its end.  The fields `seen` were given
before. -/
def readMembers (record : Record ε σ) (seen : List String) (state : σ)
    (tokens : List JsonToken) : Except ε (σ × List JsonToken) :=
  match tokens with
  | .string (some key) :: .colon :: value :: rest =>
    if record.fields.contains key then
      if seen.contains key then .error record.malformed
      else
        match record.set key value state with
        | .error fault => .error fault
        | .ok state =>
          match rest with
          | .comma :: more => readMembers record (key :: seen) state more
          | .closeBrace :: more => .ok (state, more)
          | _ => .error record.malformed
    else
      match h : JsonToken.skip (value :: rest) with
      | none => .error record.malformed
      | some (.comma :: more) =>
        have : more.length < rest.length := by
          have := JsonToken.length_of_skipFrom h
          simp only [List.length_cons] at this
          omega
        readMembers record seen state more
      | some (.closeBrace :: more) => .ok (state, more)
      | some _ => .error record.malformed
  | _ => .error record.malformed
termination_by tokens.length

/-- A record from the items of an array, up to its end, for the given fields. -/
def readItems (record : Record ε σ) (state : σ) :
    List String → List JsonToken → Except ε (σ × List JsonToken)
  | field :: fields, value :: rest =>
    match record.set field value state with
    | .error fault => .error fault
    | .ok state =>
      match rest with
      | .comma :: more => readItems record state fields more
      | .closeBracket :: more => .ok (state, more)
      | _ => .error record.malformed
  | _, _ => .error record.malformed

/-- A record from tokens, and the tokens that follow it. -/
def readTokens (record : Record ε σ) (default : σ) (tokens : List JsonToken) :
    Except ε (σ × List JsonToken) :=
  match tokens with
  | .openBrace :: .closeBrace :: rest => .ok (default, rest)
  | .openBrace :: rest => record.readMembers [] default rest
  | .openBracket :: .closeBracket :: rest => .ok (default, rest)
  | .openBracket :: rest => record.readItems default record.fields rest
  | _ => .error record.malformed

/-- The record of a text, which holds nothing after it. -/
def read (record : Record ε σ) (default : σ) (text : String) : Except ε σ :=
  match record.readTokens default (JsonToken.scan text.toList) with
  | .error fault => .error fault
  | .ok (state, []) => .ok state
  | .ok (_, _ :: _) => .error record.malformed

end Record

end FieldFilter
