import FieldFilter.Query.Encoding
import FieldFilter.Request

/-!
# Every text survives the query

What is written in the form encoding is read as it was, whatever the texts hold: blanks, the marks
of the encoding itself, characters beyond the ASCII range, or nothing at all.  Two facts carry this.
The octets of a text are got back from any way to write them, and these octets are the text.  And
what is written for a name or value has none of the marks between which it stands, so that a query
falls into just the pieces it was put together from.

* `Query.Encodes.percentDecode` — the octets are got back.
* `Query.Encodes.free` — none of the marks of a query is in what is written.
* **`Query.pairs_of_encodes`** — names and values are read as they were written.
* `Query.encodesPairs_encode` — and all of them can be written.
* **`Exchange.requested_ofRequest`** — the filter of a request is the first value of its parameter.
-/

namespace FieldFilter.Query

/-! ## Octets -/

/-- A hexadecimal digit is read as what it stands for, and is an unreserved character. -/
theorem IsHexDigit.hexDigit? {value : Nat} {c : Char} (h : IsHexDigit value c) :
    Query.hexDigit? (UInt8.ofNat c.toNat) = some value ∧ isUnreserved c = true := by
  have hall : ∀ digit ∈ upperDigits.zipIdx ++ lowerDigits.zipIdx,
      Query.hexDigit? (UInt8.ofNat digit.1.toNat) = some digit.2
        ∧ isUnreserved digit.1 = true := by
    decide
  refine hall (c, value) (List.mem_append.2 (h.imp ?_ ?_))
  · exact fun hdigit => List.mem_zipIdx_iff_getElem?.2 hdigit
  · exact fun hdigit => List.mem_zipIdx_iff_getElem?.2 hdigit

/-- Unreserved characters are ASCII characters. -/
theorem lt_of_isUnreserved {c : Char} (h : isUnreserved c = true) : c.toNat < 0x80 := by
  simp only [isUnreserved, Bool.or_eq_true, beq_iff_eq] at h
  rcases h with ((((h | rfl) | rfl) | rfl) | rfl) | rfl
  · delta Char.isAlphanum Char.isAlpha Char.isUpper Char.isLower Char.isDigit at h
    simp only [Bool.or_eq_true, Bool.and_eq_true, decide_eq_true_eq, ge_iff_le,
      UInt32.le_iff_toNat_le] at h
    change c.val.toNat < 0x80
    have hlast : 'Z'.val.toNat < 0x80 ∧ 'z'.val.toNat < 0x80 ∧ '9'.val.toNat < 0x80 := by decide
    omega
  all_goals decide

/-- An ASCII character is one octet. -/
theorem utf8EncodeChar_of_lt {c : Char} (h : c.toNat < 0x80) :
    String.utf8EncodeChar c = [UInt8.ofNat c.toNat] :=
  if_pos (Nat.le_of_lt_succ h)

/-- The octet of an ASCII character tells the character. -/
theorem eq_of_octet {c d : Char} (hc : c.toNat < 0x80) (hd : d.toNat < 0x80)
    (h : UInt8.ofNat c.toNat = UInt8.ofNat d.toNat) : c = d := by
  have hn : (UInt8.ofNat c.toNat).toNat = (UInt8.ofNat d.toNat).toNat := by rw [h]
  rw [UInt8.toNat_ofNat_of_lt' (by change _ < 256; omega),
    UInt8.toNat_ofNat_of_lt' (by change _ < 256; omega)] at hn
  exact Char.toNat_inj.1 hn

/-- An octet that is no percent sign stands for itself. -/
theorem percentDecode_of_ne {octet : UInt8} (h : octet ≠ 0x25) (rest : List UInt8) :
    percentDecode (octet :: rest) = octet :: percentDecode rest := by
  match rest with
  | [] => rw [percentDecode.eq_def]
  | [_] => rw [percentDecode.eq_def]
  | _ :: _ :: _ =>
    rw [percentDecode]
    exact if_neg h

/-- A percent sign with two digits is one octet. -/
theorem percentDecode_percent {octet high low : UInt8}
    (hhigh : hexDigit? high = some (octet.toNat / 16))
    (hlow : hexDigit? low = some (octet.toNat % 16)) (rest : List UInt8) :
    percentDecode (0x25 :: high :: low :: rest) = octet :: percentDecode rest := by
  have hoctet : UInt8.ofNat (octet.toNat / 16 * 16 + octet.toNat % 16) = octet := by
    rw [Nat.div_add_mod' octet.toNat 16, UInt8.ofNat_toNat]
  rw [percentDecode, if_pos rfl, hhigh, hlow]
  exact congrArg (· :: percentDecode rest) hoctet

/-- What is written, with a blank for each plus sign, as octets. -/
def octets (written : List Char) : List UInt8 :=
  Utf8.encode (written.map fun c => if c = '+' then ' ' else c)

theorem octets_cons {c : Char} (h : c.toNat < 0x80) (hplus : c ≠ '+') (written : List Char) :
    octets (c :: written) = UInt8.ofNat c.toNat :: octets written := by
  rw [octets, List.map_cons, if_neg hplus, Utf8.encode, List.flatMap_cons, utf8EncodeChar_of_lt h]
  rfl

/-- Neither a plus sign nor a mark of a query is an unreserved character. -/
theorem ne_of_isUnreserved {c : Char} (h : isUnreserved c = true) :
    c ≠ '+' ∧ c ≠ '%' ∧ c ≠ '&' ∧ c ≠ '=' ∧ c ≠ '#' := by
  refine ⟨?_, ?_, ?_, ?_, ?_⟩
  all_goals
    rintro rfl
    exact absurd h (by decide)

/-- An unreserved character is its octet. -/
theorem octets_unreserved {c : Char} (h : isUnreserved c = true) (written : List Char) :
    octets (c :: written) = UInt8.ofNat c.toNat :: octets written :=
  octets_cons (lt_of_isUnreserved h) (ne_of_isUnreserved h).1 written

/-- **The octets are got back from any way to write them.** -/
theorem Encodes.percentDecode {given : List UInt8} {written : List Char}
    (h : Encodes given written) : Query.percentDecode (octets written) = given := by
  induction h with
  | nil => rfl
  | @blank given written _ ih =>
    have hblank : octets ('+' :: written) = 0x20 :: octets written := rfl
    rw [hblank, percentDecode_of_ne (by decide), ih]
  | @unreserved c given written hc _ ih =>
    have hne : UInt8.ofNat c.toNat ≠ 0x25 := fun heq =>
      (ne_of_isUnreserved hc).2.1 (eq_of_octet (d := '%') (lt_of_isUnreserved hc) (by decide) heq)
    rw [octets_unreserved hc, percentDecode_of_ne hne, ih]
  | @percent octet high low given written hhigh hlow _ ih =>
    obtain ⟨hhigh, hh⟩ := hhigh.hexDigit?
    obtain ⟨hlow, hl⟩ := hlow.hexDigit?
    have hpercent : octets ('%' :: high :: low :: written)
        = 0x25 :: UInt8.ofNat high.toNat :: UInt8.ofNat low.toNat :: octets written := by
      rw [octets_cons (by decide) (by decide), octets_unreserved hh, octets_unreserved hl]
      rfl
    rw [hpercent, percentDecode_percent hhigh hlow, ih]

/-- **None of the marks of a query is in what is written.** -/
theorem Encodes.free {given : List UInt8} {written : List Char} (h : Encodes given written) :
    '&' ∉ written ∧ '=' ∉ written ∧ '#' ∉ written := by
  suffices hall : ∀ c ∈ written, c ≠ '&' ∧ c ≠ '=' ∧ c ≠ '#' by
    exact ⟨fun hc => (hall _ hc).1 rfl, fun hc => (hall _ hc).2.1 rfl,
      fun hc => (hall _ hc).2.2 rfl⟩
  induction h with
  | nil => exact List.forall_mem_nil _
  | blank _ ih => exact List.forall_mem_cons.2 ⟨by decide, ih⟩
  | unreserved hc _ ih => exact List.forall_mem_cons.2 ⟨(ne_of_isUnreserved hc).2.2, ih⟩
  | percent hhigh hlow _ ih =>
    have hhigh := (ne_of_isUnreserved hhigh.hexDigit?.2).2.2
    have hlow := (ne_of_isUnreserved hlow.hexDigit?.2).2.2
    exact List.forall_mem_cons.2 ⟨by decide,
      List.forall_mem_cons.2 ⟨hhigh, List.forall_mem_cons.2 ⟨hlow, ih⟩⟩⟩

/-! ## Names and values -/

theorem decodeComponent_of_encodes {text : String} {written : List Char}
    (h : EncodesText text written) : decodeComponent written = text := by
  have hoctets : Query.percentDecode (octets written) = Utf8.encode text.toList :=
    Encodes.percentDecode h
  rw [decodeComponent]
  change String.ofList (Utf8.decode (Query.percentDecode (octets written))) = text
  rw [hoctets, Utf8.decode_encode, String.ofList_toList]

/-- A piece is cut at the equals sign that stands behind the name. -/
theorem EncodesPair.decodePair {pair : String × String} {piece : List Char}
    (h : EncodesPair pair piece) : decodePair piece = pair := by
  obtain ⟨name, value, hname, hvalue, rfl⟩ := h
  have hcut : Text.cut? '=' (name ++ '=' :: value) = some (name, value) :=
    Text.cut?_eq_some_iff.2 ⟨rfl, hname.free.2.1⟩
  rw [Query.decodePair, hcut]
  change (decodeComponent name, decodeComponent value) = pair
  rw [decodeComponent_of_encodes hname, decodeComponent_of_encodes hvalue]

theorem EncodesPair.free {pair : String × String} {piece : List Char}
    (h : EncodesPair pair piece) : piece ≠ [] ∧ '&' ∉ piece ∧ '#' ∉ piece := by
  obtain ⟨name, value, hname, hvalue, rfl⟩ := h
  obtain ⟨hname, -, hname'⟩ := hname.free
  obtain ⟨hvalue, -, hvalue'⟩ := hvalue.free
  simp [hname, hname', hvalue, hvalue']

/-! ## The query -/

/-- The pieces of a query are those it was put together from, apart from one empty piece if there
were none. -/
theorem filter_pieces {pieces : List (List Char)} (hfree : ∀ piece ∈ pieces, '&' ∉ piece)
    (hne : ∀ piece ∈ pieces, piece ≠ []) :
    (Text.pieces '&' (['&'].intercalate pieces)).filter (fun piece => !piece.isEmpty)
      = pieces := by
  cases pieces with
  | nil => rfl
  | cons first others =>
    rw [Text.pieces_intercalate (List.cons_ne_nil _ _) hfree, List.filter_eq_self]
    intro piece hpiece
    simp [hne piece hpiece]

/-- Pieces that pairs were written as are not empty, have no mark between pieces in them, and are
read as the pairs. -/
theorem map_decodePair {given : List (String × String)} {pieces : List (List Char)}
    (h : List.Forall₂ EncodesPair given pieces) :
    (∀ piece ∈ pieces, piece ≠ [] ∧ '&' ∉ piece ∧ '#' ∉ piece)
      ∧ pieces.map decodePair = given := by
  induction h with
  | nil => exact ⟨List.forall_mem_nil _, rfl⟩
  | cons hpair _ ih =>
    obtain ⟨hfree, hread⟩ := ih
    refine ⟨List.forall_mem_cons.2 ⟨hpair.free, hfree⟩, ?_⟩
    rw [List.map_cons, hpair.decodePair, hread]

/-- **Names and values are read as they were written.** -/
theorem pairs_of_encodes {given : List (String × String)} {query : List Char}
    (h : EncodesPairs given query) : pairs query = given := by
  obtain ⟨pieces, hpieces, rfl⟩ := h
  obtain ⟨hfree, hread⟩ := map_decodePair hpieces
  rw [pairs, filter_pieces (fun piece hpiece => (hfree piece hpiece).2.1)
    (fun piece hpiece => (hfree piece hpiece).1), hread]

/-- No fragment begins within a query. -/
theorem EncodesPairs.free {given : List (String × String)} {query : List Char}
    (h : EncodesPairs given query) : '#' ∉ query := by
  obtain ⟨pieces, hpieces, rfl⟩ := h
  obtain ⟨hfree, -⟩ := map_decodePair hpieces
  exact Text.not_mem_intercalate (by decide) fun piece hpiece => (hfree piece hpiece).2.2

/-- The query of a URI is what stands between its first question mark and the fragment. -/
theorem ofUri?_append {before query after : List Char} (hmark : '?' ∉ before)
    (hbefore : '#' ∉ before) (hquery : '#' ∉ query) (hafter : ∀ c ∈ after.head?, c = '#') :
    ofUri? (before ++ '?' :: query ++ after) = some query := by
  have hall : ∀ c ∈ before ++ '?' :: query, (c != '#') = true := by
    intro c hc
    rw [bne_iff_ne]
    rintro rfl
    rcases List.mem_append.1 hc with hc | hc
    · exact hbefore hc
    · rcases List.mem_cons.1 hc with hc | hc
      · exact absurd hc (by decide)
      · exact hquery hc
  have hstop : after.takeWhile (· != '#') = [] := by
    cases after with
    | nil => rfl
    | cons c rest =>
      have hc : c = '#' := hafter c rfl
      exact List.takeWhile_cons_of_neg (by simp [hc])
  have hcut : Text.cut? '?' (before ++ '?' :: query) = some (before, query) :=
    Text.cut?_eq_some_iff.2 ⟨rfl, hmark⟩
  rw [ofUri?, List.takeWhile_append_of_pos hall, hstop, List.append_nil, hcut]
  rfl

/-- The first value of a name in a URI is that of the first pair with this name. -/
theorem Carries.first? {uri : String} {given : List (String × String)} (h : Carries uri given)
    (name : String) : Query.first? uri name = given.lookup name := by
  obtain ⟨before, query, after, huri, hmark, hbefore, hquery, hafter⟩ := h
  rw [Query.first?, huri, ofUri?_append hmark hbefore hquery.free hafter]
  change (pairs query).lookup name = _
  rw [pairs_of_encodes hquery]

/-- A URI without a question mark has no values. -/
theorem first?_of_not_mem {uri : String} (h : '?' ∉ uri.toList) (name : String) :
    Query.first? uri name = none := by
  have hnone : ofUri? uri.toList = none := by
    rw [ofUri?, Option.map_eq_none_iff, Option.eq_none_iff_forall_ne_some]
    rintro ⟨before, query⟩ hcut
    obtain ⟨htext, -⟩ := Text.eq_of_cut? hcut
    have hmem : '?' ∈ uri.toList.takeWhile (· != '#') := by simp [htext]
    exact h ((List.takeWhile_sublist _).subset hmem)
  rw [Query.first?, hnone]

/-! ## The shortest way -/

/-- A number below sixteen has a digit. -/
theorem isHexDigit_upperDigit {value : Nat} (h : value < 16) :
    IsHexDigit value (upperDigit value) := by
  have hall : ∀ value < 16, upperDigits[value]? = some (upperDigit value) := by decide
  exact .inl (hall value h)

theorem encodes_flatMap (given : List UInt8) : Encodes given (given.flatMap encodeOctet) := by
  induction given with
  | nil => exact .nil
  | cons octet rest ih =>
    rw [List.flatMap_cons, encodeOctet]
    split
    · next h =>
      rw [Bool.and_eq_true, decide_eq_true_eq] at h
      obtain ⟨hlt, hc⟩ := h
      have hall : ∀ code < 0x80, UInt8.ofNat (Char.ofNat code).toNat = UInt8.ofNat code := by
        decide
      have hoctet : UInt8.ofNat (Char.ofNat octet.toNat).toNat = octet := by
        rw [hall _ hlt, UInt8.ofNat_toNat]
      have hencodes := Encodes.unreserved hc ih
      rw [hoctet] at hencodes
      exact hencodes
    · split
      · next h =>
        rw [h]
        exact .blank ih
      · have hoctet : octet.toNat < 256 := octet.toNat_lt
        exact .percent (isHexDigit_upperDigit (by omega)) (isHexDigit_upperDigit (by omega)) ih

/-- All pairs can be written. -/
theorem encodesPairs_encode (given : List (String × String)) :
    EncodesPairs given (encode given) := by
  refine ⟨_, ?_, rfl⟩
  induction given with
  | nil => exact .nil
  | cons pair rest ih =>
    exact .cons ⟨_, _, encodes_flatMap _, encodes_flatMap _, rfl⟩ ih

/-- A URI without a query to which pairs are added. -/
theorem carries_append (base : String) (given : List (String × String)) (hmark : '?' ∉ base.toList)
    (hfragment : '#' ∉ base.toList) :
    Carries (base ++ String.ofList ('?' :: encode given)) given :=
  ⟨base.toList, encode given, [], by simp, hmark, hfragment, encodesPairs_encode given,
    fun c hc => absurd hc (by simp)⟩

end FieldFilter.Query

namespace FieldFilter.Exchange

open Query

/-- **The filter of a request is the first value of its parameter.**  Whatever names and values are
written into the query, and in whichever way, the binding finds the value of the first pair that is
named as the parameter, and nothing if there is no such pair. -/
theorem requested_ofRequest (settings : RequestSettings) (customizer : Option Customizer)
    (request : Request) (status : Nat) (given : List (String × String))
    (h : Carries request.uri given) :
    (ofRequest settings customizer request status).requested = given.lookup settings.param :=
  h.first? settings.param

/-- A filter that holds marks of a query and characters beyond ASCII, behind another value and
before a second filter. -/
def orderPairs : List (String × String) :=
  [("a&b", "1 +"), ("fields", "na=me\x7bé,🙂\x7d#"), ("fields", "-id")]

def orderUri : String :=
  "/orders?a%26b=1+%2B&fields=na%3Dme%7B%C3%A9%2C%F0%9F%99%82%7D%23&fields=-id"

theorem carries_orders : Carries orderUri orderPairs := by
  have huri : "/orders" ++ String.ofList ('?' :: encode orderPairs) = orderUri := by
    decide +kernel
  have hcarries := carries_append "/orders" orderPairs (by decide) (by decide)
  rwa [huri] at hcarries

/-- The first filter is got whole, and the second one is not looked at. -/
theorem requested_orders :
    Carries orderUri orderPairs
      ∧ (ofRequest RequestSettings.default none ⟨"GET", orderUri, []⟩ 200).requested
        = some "na=me\x7bé,🙂\x7d#" := by
  have hfirst : orderPairs.lookup RequestSettings.default.param = some "na=me\x7bé,🙂\x7d#" := by
    decide
  refine ⟨carries_orders, ?_⟩
  rw [← hfirst]
  exact requested_ofRequest RequestSettings.default none ⟨"GET", orderUri, []⟩ 200 _ carries_orders

end FieldFilter.Exchange
