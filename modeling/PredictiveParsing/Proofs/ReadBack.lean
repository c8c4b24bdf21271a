import PredictiveParsing.Analysis

/-!
# Reading what was written

What a reported value says is found again in its text by a reader that follows a path of keys. The
texts of `JsonLibrary.compact` have such a reader: their characters are read back to the tokens of
the value, and these to the value.

## Main definitions

* `Json.at?`: the value at the end of a path of keys.
* `JsonReader.Reads`: a reader finds in a text what the written value says.
* `JsonReader.ofText`: the reader for texts without blanks.

## Main statements

* `Json.ofText?_text`: the text of a value is read back.
* `JsonReader.reads_compact`: `JsonReader.ofText` is such a reader.
-/

namespace PredictiveParsing

/-! ## Readers -/

/-- The value at the end of a path of keys, each of which stands once in its object. -/
def Json.at? : List String → Json → Option Json
  | [], v => some v
  | key :: path, .object fields =>
    match fields.filter (·.1 == key) with
    | [field] => field.2.at? path
    | _ => none
  | _ :: _, _ => none

/-- What is looked up in the text of a value, by a path of keys. -/
structure JsonReader where
  bool? : String → List String → Option Bool
  strings? : String → List String → Option (List String)

/-- Every value can be written, and what it says at the end of a path is found in its text. -/
structure JsonReader.Reads {Settings : Type} (reader : JsonReader)
    (library : JsonLibrary Settings) : Prop where
  exists_write : ∀ v, ∃ text, library.write v = .ok text
  bool? : ∀ {v text path b}, library.write v = .ok text → v.at? path = some (.bool b) →
    reader.bool? text path = some b
  strings? : ∀ {v text path names}, library.write v = .ok text →
    v.at? path = some (Json.strings names) → reader.strings? text path = some names

/-! ## The tokens of a value -/

namespace Json

/-- Induction on a value, with what holds of the values in it. -/
@[induction_eliminator]
theorem induction {motive : Json → Prop} (null : motive null) (bool : ∀ b, motive (bool b))
    (string : ∀ s, motive (string s))
    (array : ∀ items, (∀ item ∈ items, motive item) → motive (array items))
    (object : ∀ fields, (∀ field ∈ fields, motive field.2) → motive (object fields)) (v : Json) :
    motive v := by
  refine @Json.rec motive (fun items => ∀ item ∈ items, motive item)
    (fun fields => ∀ field ∈ fields, motive field.2) (fun field => motive field.2)
    null bool string array object ?_ ?_ ?_ ?_ ?_ v
  all_goals simp +contextual

theorem lt_array {item : Json} {items : List Json} (h : item ∈ items) :
    sizeOf item < sizeOf (array items) := by
  have := List.sizeOf_lt_of_mem h
  rw [array.sizeOf_spec]
  omega

theorem lt_object {field : String × Json} {fields : List (String × Json)} (h : field ∈ fields) :
    sizeOf field.2 < sizeOf (object fields) := by
  have := List.sizeOf_lt_of_mem h
  rw [Prod.mk.sizeOf_spec] at this
  rw [object.sizeOf_spec]
  omega

/-- The tokens of a written value. -/
def tokens : Json → List JsonToken
  | null => [.null]
  | bool b => [.bool b]
  | string s => [.string (some s)]
  | array items => .leftBracket :: [.comma].intercalate (items.map tokens) ++ [.rightBracket]
  | object fields =>
    .leftBrace ::
      [.comma].intercalate (fields.map fun field =>
        .string (some field.1) :: .colon :: field.2.tokens) ++
      [.rightBrace]
decreasing_by
  · exact lt_array ‹_›
  · exact lt_object ‹_›

/-- What a written value is read back as. -/
def data : Json → JsonData
  | null => .null
  | bool b => .bool b
  | string s => .string (some s)
  | array items => .array (items.map data)
  | object fields => .object (fields.map fun field => (some field.1, field.2.data))
decreasing_by
  · exact lt_array ‹_›
  · exact lt_object ‹_›

theorem itemTexts_eq (items : List Json) : itemTexts items = items.map text := by
  induction items with
  | nil => rfl
  | cons item items ih => simp [itemTexts, ih]

theorem fieldTexts_eq (fields : List (String × Json)) :
    fieldTexts fields = fields.map fun field => quote field.1 ++ ":" ++ field.2.text := by
  induction fields with
  | nil => rfl
  | cons field fields ih => simp [fieldTexts, ih]

end Json

/-! ## From characters to tokens -/

namespace JsonToken

/-- Some characters are read as some tokens, whatever comes after them. -/
def Spells (cs : List Char) (ts : List JsonToken) : Prop :=
  ∀ rest, readAll? (cs ++ rest) = (readAll? rest).map (ts ++ ·)

theorem readAll?_of_read? {cs rest : List Char} {t : JsonToken} (h : read? cs = some (t, rest)) :
    readAll? cs = (readAll? rest).map (t :: ·) := by
  cases cs with
  | nil => simp [read?] at h
  | cons c cs =>
    have hspace : ¬ isSpace c := by
      intro hc
      simp only [isSpace, Bool.or_eq_true, beq_iff_eq] at hc
      obtain ((rfl | rfl) | rfl) | rfl := hc <;> cases h
    rw [readAll?, if_neg hspace]
    split <;> simp_all

namespace Spells

variable {cs ds mark : List Char} {t : JsonToken} {ts us : List JsonToken}

theorem nil : Spells [] [] := by simp [Spells]

theorem one (h : ∀ rest, read? (cs ++ rest) = some (t, rest)) : Spells cs [t] :=
  fun rest => readAll?_of_read? (h rest)

theorem append (hs : Spells cs ts) (ht : Spells ds us) : Spells (cs ++ ds) (ts ++ us) := by
  intro rest
  rw [List.append_assoc, hs, ht, Option.map_map]
  simp [Function.comp_def]

/-- With a mark between any two. -/
theorem intercalate {α : Type} {f : α → List Char} {g : α → List JsonToken}
    (hmark : Spells mark us) {l : List α} (h : ∀ a ∈ l, Spells (f a) (g a)) :
    Spells (mark.intercalate (l.map f)) (us.intercalate (l.map g)) := by
  induction l with
  | nil => exact nil
  | cons a l ih =>
    rw [List.forall_mem_cons] at h
    cases l with
    | nil => simpa using h.1
    | cons b l => simpa using h.1.append (hmark.append (ih h.2))

end Spells

/-- However a character is written in a string, its code is read. -/
theorem readString?_escapeChar (c : Char) (rest : List Char) :
    readString? ((Json.escapeChar c).toList ++ rest)
      = (readString? rest).map fun (codes, rest) => (c.toNat :: codes, rest) := by
  have hhex : ∀ n < 0x20,
      hexValue4? '0' '0' (Json.hexDigit (n / 16)) (Json.hexDigit n) = some n := by decide
  unfold Json.escapeChar
  split
  case h_8 =>
    split
    case isTrue h => simp [readString?, hhex _ h]
    case isFalse h =>
      simp only [Char.toString_eq_singleton, String.toList_singleton, List.cons_append,
        List.nil_append]
      rw [readString?, if_neg h] <;> simp_all
  all_goals simp [readString?, escapeValue?]

theorem readString?_flatMap (cs rest : List Char) :
    readString? (cs.flatMap (fun c => (Json.escapeChar c).toList) ++ '"' :: rest)
      = some (cs.map Char.toNat, rest) := by
  induction cs with
  | nil => simp [readString?]
  | cons c cs ih => simp [List.flatMap_cons, List.append_assoc, readString?_escapeChar, ih]

/-- No character is half of a surrogate pair. -/
theorem characters?_map_toNat (cs : List Char) : characters? (cs.map Char.toNat) = some cs := by
  have hhalf (c : Char) : isHighHalf c.toNat = false ∧ isLowHalf c.toNat = false := by
    have hvalid : c.toNat < 0xD800 ∨ 0xDFFF < c.toNat ∧ c.toNat < 0x110000 := c.valid
    simp only [isHighHalf, isLowHalf, Bool.and_eq_false_iff, decide_eq_false_iff_not]
    omega
  induction cs with
  | nil => simp [characters?]
  | cons c cs ih => cases cs <;> simp_all [characters?]

theorem spells_quote (s : String) : Spells (Json.quote s).toList [string (some s)] := by
  refine .one fun rest => ?_
  simp [Json.quote, read?, readString?_flatMap, characters?_map_toNat, List.flatMap_map]

theorem spells_text (v : Json) : Spells v.text.toList v.tokens := by
  have hcomma : Spells [','] [comma] := .one fun _ => rfl
  induction v with
  | null =>
    have h : Spells ['n', 'u', 'l', 'l'] [null] := .one fun _ => rfl
    simpa [Json.text, Json.tokens] using h
  | bool b =>
    have htrue : Spells ['t', 'r', 'u', 'e'] [bool true] := .one fun _ => rfl
    have hfalse : Spells ['f', 'a', 'l', 's', 'e'] [bool false] := .one fun _ => rfl
    cases b <;> simpa [Json.text, Json.tokens]
  | string s => simpa [Json.text, Json.tokens] using spells_quote s
  | array items ih =>
    have hopen : Spells ['['] [leftBracket] := .one fun _ => rfl
    have hclose : Spells [']'] [rightBracket] := .one fun _ => rfl
    simpa [Json.text, Json.tokens, Json.itemTexts_eq, Function.comp_def] using
      (hopen.append (.intercalate hcomma ih)).append hclose
  | object fields ih =>
    have hopen : Spells ['\x7b'] [leftBrace] := .one fun _ => rfl
    have hclose : Spells ['\x7d'] [rightBrace] := .one fun _ => rfl
    have hcolon : Spells [':'] [colon] := .one fun _ => rfl
    have hfield : ∀ field ∈ fields,
        Spells ((Json.quote field.1).toList ++ [':'] ++ field.2.text.toList)
          ([string (some field.1)] ++ [colon] ++ field.2.tokens) := fun field hfield =>
      ((spells_quote field.1).append hcolon).append (ih field hfield)
    simpa [Json.text, Json.tokens, Json.fieldTexts_eq, Function.comp_def] using
      (hopen.append (.intercalate hcomma hfield)).append hclose

end JsonToken

/-! ## From tokens to the value -/

namespace JsonReading

variable {frames frames' : List JsonFrame}

/-- Where an array has been opened, its first value is read as any other. -/
theorem foldlM_arrayOpened {ts : List JsonToken} {v : JsonData}
    (h : ts.foldlM next? (value (.array [] :: frames)) = some (complete v frames')) :
    ts.foldlM next? (arrayOpened frames) = some (complete v frames') := by
  cases ts with
  | nil => simp at h
  | cons t ts =>
    rw [List.foldlM_cons] at h ⊢
    cases t <;> simp_all [next?, begin?]

/-- The values of an array are read one after the other, and the bracket closes it. -/
theorem foldlM_items {items : List Json}
    (h : ∀ item ∈ items, ∀ frames,
      item.tokens.foldlM next? (value frames) = some (complete item.data frames))
    (hne : items ≠ []) (done : List JsonData) :
    List.foldlM next? (value (.array done :: frames))
        ([.comma].intercalate (items.map Json.tokens) ++ [.rightBracket])
      = some (complete (.array (done.reverse ++ items.map Json.data)) frames) := by
  induction items generalizing done with
  | nil => contradiction
  | cons item items ih =>
    rw [List.forall_mem_cons] at h
    cases items with
    | nil =>
      have hclose : next? (complete item.data (.array done :: frames)) .rightBracket
          = some (complete (.array (item.data :: done).reverse) frames) := rfl
      simp [h.1, hclose]
    | cons next items =>
      have hcomma : next? (complete item.data (.array done :: frames)) .comma
          = some (value (.array (item.data :: done) :: frames)) := rfl
      simpa [List.foldlM_append, h.1, hcomma] using ih h.2 (by simp) (item.data :: done)

/-- The fields of an object are read one after the other, and the brace closes it. This begins
where a key may come. -/
theorem foldlM_fields {fields : List (String × Json)}
    (h : ∀ field ∈ fields, ∀ frames,
      field.2.tokens.foldlM next? (value frames) = some (complete field.2.data frames))
    (hne : fields ≠ []) (done : List (Option String × JsonData)) {r : JsonReading}
    (hr : ∀ name, next? r (.string name) = some (colon done name frames)) :
    List.foldlM next? r
        ([.comma].intercalate (fields.map fun field =>
          .string (some field.1) :: .colon :: field.2.tokens) ++ [.rightBrace])
      = some (complete (.object (done.reverse ++
          fields.map fun field => (some field.1, field.2.data))) frames) := by
  induction fields generalizing done r with
  | nil => contradiction
  | cons field fields ih =>
    rw [List.forall_mem_cons] at h
    obtain ⟨name, v⟩ := field
    have hcolon : next? (colon done (some name) frames) .colon
        = some (value (.object done (some name) :: frames)) := rfl
    cases fields with
    | nil =>
      have hclose : next? (complete v.data (.object done (some name) :: frames)) .rightBrace
          = some (complete (.object ((some name, v.data) :: done).reverse) frames) := rfl
      simp [h.1, hr, hcolon, hclose]
    | cons next fields =>
      have hcomma : next? (complete v.data (.object done (some name) :: frames)) .comma
          = some (key ((some name, v.data) :: done) frames) := rfl
      have hrest := ih h.2 (by simp) ((some name, v.data) :: done)
        (r := key ((some name, v.data) :: done) frames) fun _ => rfl
      simpa [List.foldlM_append, h.1, hr, hcolon, hcomma] using hrest

theorem foldlM_tokens (v : Json) (frames : List JsonFrame) :
    v.tokens.foldlM next? (value frames) = some (complete v.data frames) := by
  induction v generalizing frames with
  | null => simp [Json.tokens, Json.data, next?, begin?]
  | bool b => simp [Json.tokens, Json.data, next?, begin?]
  | string s => simp [Json.tokens, Json.data, next?, begin?]
  | array items ih =>
    simp only [Json.tokens, Json.data, List.cons_append, List.foldlM_cons, next?, begin?]
    by_cases hne : items = []
    · simp [hne, next?]
    · exact foldlM_arrayOpened (foldlM_items ih hne [])
  | object fields ih =>
    simp only [Json.tokens, Json.data, List.cons_append, List.foldlM_cons, next?, begin?]
    by_cases hne : fields = []
    · simp [hne, next?]
    · exact foldlM_fields ih hne [] fun _ => rfl

end JsonReading

/-- The text of a value is read back. -/
theorem Json.ofText?_text (v : Json) : JsonData.ofText? v.text = some v.data := by
  have htokens : JsonToken.readAll? v.text.toList = some v.tokens := by
    simpa [JsonToken.readAll?] using JsonToken.spells_text v []
  simp [JsonData.ofText?, JsonData.ofTokens?, htokens, JsonReading.foldlM_tokens,
    JsonReading.result?]

/-! ## The reader for texts without blanks -/

namespace JsonData

/-- The value at the end of a path of keys. Where a key stands several times in an object, the last
one counts. -/
def at? : List String → JsonData → Option JsonData
  | [], v => some v
  | key :: path, .object fields =>
    (fields.filter (·.1 == some key)).getLast?.bind fun field => field.2.at? path
  | _ :: _, _ => none

def strings? : JsonData → Option (List String)
  | .array items => items.mapM fun
    | .string s => s
    | _ => none
  | _ => none

end JsonData

theorem Json.at?_data {path : List String} {v w : Json} (h : v.at? path = some w) :
    v.data.at? path = some w.data := by
  induction path generalizing v with
  | nil => simp_all [Json.at?, JsonData.at?]
  | cons key path ih =>
    cases v with
    | object fields =>
      simp only [Json.at?] at h
      split at h
      next field hfield =>
        simp [Json.data, JsonData.at?, List.filter_map, Function.comp_def, hfield, ih h]
      · contradiction
    | _ => simp [Json.at?] at h

theorem Json.strings?_data (names : List String) :
    (Json.strings names).data.strings? = some names := by
  simp only [Json.strings, Json.data, JsonData.strings?, List.map_map]
  induction names with
  | nil => rfl
  | cons name names ih => simp_all [Json.data]

namespace JsonReader

/-- Looks up a path in the value that a text spells. -/
def ofText : JsonReader where
  bool? text path := (JsonData.ofText? text).bind (·.at? path) >>= JsonData.bool?
  strings? text path := (JsonData.ofText? text).bind (·.at? path) >>= JsonData.strings?

theorem reads_compact : ofText.Reads JsonLibrary.compact where
  exists_write v := ⟨v.text, rfl⟩
  bool? := by
    rintro v _ path b ⟨⟩ h
    simp [ofText, Json.ofText?_text, Json.at?_data h, Json.data, JsonData.bool?]
  strings? := by
    rintro v _ path names ⟨⟩ h
    simp [ofText, Json.ofText?_text, Json.at?_data h, Json.strings?_data]

end JsonReader

end PredictiveParsing
