import Mathlib.Data.List.Sort
import Mathlib.Data.String.Basic
import EngineCore.Lib.Text
import EngineCore.Recovery.Json

/-!
# Credentials in errors of an endpoint

The transport takes the credentials of its address and headers out of the errors that an endpoint
answers with, before anyone sees them.

* **`redacted_iff`**: no credential is left in the texts of an error exactly when none is in the
  decimal text of a number that stays in its data; **`number_kept`**: one that is.
-/

namespace EngineCore.Rpc

/-! ## Addresses -/

/-- A `Url`, by what its accessors return. The domain of an address on the web is ASCII, without
escapes. -/
structure Url where
  text : String
  host : Option String
  domain : Option String
  pathSegments : List String
  query : Option String
  username : String
  password : Option String
  plain : ∀ d ∈ domain, ∀ c ∈ d.toList, c.toNat < 128 ∧ c ≠ '%'

/-- `percent_decode_str(..).decode_utf8_lossy()`. -/
def percentDecoded (value : String) : String :=
  String.ofList (Text.lossy (Text.percentDecode (Text.utf8 value.toList)))

def formDecoded (value : String) : String :=
  String.ofList (Text.lossy (Text.percentDecode
    ((Text.utf8 value.toList).map fun b => if b = 43 then 32 else b)))

def urlSecretVariants (value : String) : List String := [value, percentDecoded value]

def isNumber (part : List Char) : Bool := !part.isEmpty && part.all Char.isDigit

def isPublicRoute (value : String) : Bool :=
  let value := percentDecoded value
  isNumber value.toList ||
    ["rpc", "bundler", "paymaster", "api", "eth", "evm", "mainnet", "testnet"].contains value ||
    (value.toList.head? == some 'v' && isNumber value.toList.tail)

/-- The labels of the domain but the last two. -/
def Url.labels (url : Url) : List String :=
  url.domain.toList.flatMap fun domain =>
    let labels := (domain.toList.splitOn '.').map String.ofList
    labels.take (labels.length - 2)

def Url.pairs (url : Url) : List (List Char) :=
  url.query.toList.flatMap fun query => query.toList.splitOn '&'

/-- What stands after the equals sign of a part that has one. -/
def Url.queryValues (url : Url) : List String :=
  url.pairs.filterMap fun pair => (Text.splitOnce (· == '=') pair).map fun x => String.ofList x.2

/-- The values of `query_pairs`: a part without an equals sign has an empty one. -/
def Url.queryPairs (url : Url) : List String :=
  (url.pairs.filter (· ≠ [])).map fun pair =>
    formDecoded (String.ofList ((Text.splitOnce (· == '=') pair).elim [] Prod.snd))

/-! ## Headers -/

/-- `HeaderValue::to_str`. -/
def headerText (bytes : List UInt8) : Option String :=
  if bytes.all fun b => 32 ≤ b && b < 127 || b == 9 then
    some (String.ofList (bytes.map fun b => Char.ofNat b.toNat))
  else none

/-- The token of a header with the bearer scheme. -/
def bearerToken (value : String) : Option String :=
  (Text.splitOnce Char.isWhitespace value.toList).bind fun x =>
    if x.1.map Char.toLower = "bearer".toList then
      some (String.ofList
        ((x.2.dropWhile Char.isWhitespace).reverse.dropWhile Char.isWhitespace).reverse)
    else none

/-- `HeaderInjectingTransport`; of the headers only the values are read. -/
structure Transport where
  url : Url
  customHeaders : List (List UInt8)

def Transport.headers (t : Transport) : List String := t.customHeaders.filterMap headerText

/-! ## Redaction -/

/-- The secrets, in the order they are collected. -/
def Transport.secrets (t : Transport) : List String :=
  [t.url.text] ++ t.url.host.toList ++ t.url.labels.filter (fun label => !isPublicRoute label) ++
    (t.url.pathSegments.filter fun segment => !isPublicRoute segment).flatMap urlSecretVariants ++
    t.url.queryValues.flatMap urlSecretVariants ++ t.url.queryPairs ++
    urlSecretVariants t.url.username ++ t.url.password.toList.flatMap urlSecretVariants ++
    t.headers.flatMap fun value => value :: (bearerToken value).toList

def redacted : List Char := "[redacted]".toList

/-- `HeaderInjectingTransport::redact`: the longest secret first. -/
def Transport.redact (t : Transport) (text : String) : String :=
  let secrets := t.secrets.insertionSort fun a b => b.utf8ByteSize ≤ a.utf8ByteSize
  String.ofList (Text.replaceAll redacted ((secrets.filter (· ≠ "")).map String.toList) text.toList)

def insertField : List (String × Json) → String → Json → List (String × Json)
  | [], key, value => [(key, value)]
  | (k, v) :: fields, key, value =>
    if key = k then (key, value) :: fields
    else if key < k then (key, value) :: (k, v) :: fields
    else (k, v) :: insertField fields key value

section Json

variable (redact : String → String)

mutual

/-- `redact_json`. A field may take the place of an earlier one whose redacted key is the same. -/
def redactJson : Json → Json
  | .str text => .str (redact text)
  | .arr items => .arr (redactItems items)
  | .obj fields => .obj (redactFields fields [])
  | v => v

def redactItems : List Json → List Json
  | [] => []
  | v :: items => redactJson v :: redactItems items

def redactFields : List (String × Json) → List (String × Json) → List (String × Json)
  | [], done => done
  | (key, value) :: fields, done =>
    redactFields fields (insertField done (redact key) (redactJson value))

end

mutual

/-- The numbers that are still there after redaction. -/
def keptNumbers : Json → List Number
  | .num n => [n]
  | .arr items => keptOfItems items
  | .obj fields => keptOfFields fields
  | _ => []

def keptOfItems : List Json → List Number
  | [] => []
  | v :: items => keptNumbers v ++ keptOfItems items

def keptOfFields : List (String × Json) → List Number
  | [] => []
  | (key, value) :: fields =>
    if redact key ∈ fields.map fun f => redact f.1 then keptOfFields fields
    else keptNumbers value ++ keptOfFields fields

end

end Json

mutual

/-- Every string, every key and the text of every number, at any depth. -/
def texts : Json → List String
  | .num n => [Json.renderNumber n]
  | .str s => [s]
  | .arr items => textsOfItems items
  | .obj fields => textsOfFields fields
  | _ => []

def textsOfItems : List Json → List String
  | [] => []
  | v :: items => texts v ++ textsOfItems items

def textsOfFields : List (String × Json) → List String
  | [] => []
  | (key, value) :: fields => key :: texts value ++ textsOfFields fields

end

/-- The data of an error: JSON text, by the value it has. -/
inductive RawValue
  | json (value : Json)
  | invalid

structure ErrorPayload where
  code : ℤ
  message : String
  data : Option RawValue

inductive ResponsePayload
  | success (result : RawValue)
  | failure (error : ErrorPayload)

def Transport.redactRaw (t : Transport) : RawValue → Option RawValue
  | .json value => some (.json (redactJson t.redact value))
  | .invalid => none

def Transport.redactResponse (t : Transport) : ResponsePayload → ResponsePayload
  | .failure error =>
    .failure { error with message := t.redact error.message, data := error.data.bind t.redactRaw }
  | payload => payload

/-! ## Credentials -/

def Occurs (word text : String) : Prop := word.toList <:+: text.toList

instance (word text : String) : Decidable (Occurs word text) :=
  inferInstanceAs (Decidable (word.toList <:+: text.toList))

/-- The parts of an address and of its headers that may be a credential. -/
inductive Transport.Part (t : Transport) : String → Prop
  | segment {value word : String} (hvalue : value ∈ t.url.pathSegments)
      (hroute : isPublicRoute value = false) (hword : word = value ∨ word = percentDecoded value) :
      t.Part word
  | label {value word : String} (hvalue : value ∈ t.url.labels)
      (hroute : isPublicRoute value = false) (hword : word = value ∨ word = percentDecoded value) :
      t.Part word
  | query {value word : String} (hvalue : value ∈ t.url.queryValues)
      (hword : word = value ∨ word = percentDecoded value ∨ word = formDecoded value) : t.Part word
  | username {word : String} (hword : word = t.url.username ∨ word = percentDecoded t.url.username) :
      t.Part word
  | password {value word : String} (hvalue : value ∈ t.url.password)
      (hword : word = value ∨ word = percentDecoded value) : t.Part word
  | header {value : String} (hvalue : value ∈ t.headers) : t.Part value
  | bearer {value token : String} (hvalue : value ∈ t.headers) (htoken : token ∈ bearerToken value) :
      t.Part token

def Transport.Credential (t : Transport) (word : String) : Prop := t.Part word ∧ word ≠ ""

/-- The replacement and the word cannot overlap. -/
def Fits (word : String) : Prop :=
  '[' ∉ word.toList ∧ ']' ∉ word.toList ∧ ¬Occurs word "redacted"

def RawValue.texts : RawValue → List String
  | .json value => Rpc.texts value
  | .invalid => []

def ResponsePayload.texts : ResponsePayload → List String
  | .success _ => []
  | .failure error => error.message :: error.data.toList.flatMap RawValue.texts

/-- The numbers that stay in the data of an error. -/
def Transport.numbers (t : Transport) : ResponsePayload → List Number
  | .failure ⟨_, _, some (.json value)⟩ => keptNumbers t.redact value
  | _ => []

/-! ## Strings -/

theorem percentDecoded_plain {value : String}
    (h : ∀ c ∈ value.toList, c.toNat < 128 ∧ c ≠ '%') : percentDecoded value = value := by
  have hascii : ∀ c ∈ value.toList, c.toNat < 128 := fun c hc => (h c hc).1
  have hbyte : 37 ∉ Text.utf8 value.toList := by
    intro hm
    obtain ⟨c, hc, hm⟩ := List.mem_flatMap.mp hm
    rw [Text.utf8EncodeChar_of_ascii (hascii c hc), List.mem_singleton] at hm
    refine (h c hc).2 (Char.toNat_inj.mp ?_)
    have heq := congrArg UInt8.toNat hm
    rw [UInt8.toNat_ofNat', Nat.mod_eq_of_lt (by have := hascii c hc; omega)] at heq
    exact heq.symm
  rw [percentDecoded, Text.percentDecode_of_notMem hbyte, Text.lossy_utf8_of_ascii hascii,
    String.ofList_toList]

theorem Url.percentDecoded_label {url : Url} {label : String} (h : label ∈ url.labels) :
    percentDecoded label = label := by
  obtain ⟨domain, hdomain, hlabel⟩ := List.mem_flatMap.mp h
  obtain ⟨piece, hpiece, rfl⟩ := List.mem_map.mp (List.mem_of_mem_take hlabel)
  refine percentDecoded_plain fun c hc => ?_
  rw [String.toList_ofList] at hc
  exact url.plain domain (Option.mem_toList.mp hdomain) c (Text.mem_of_mem_splitOn hpiece hc)

theorem Url.formDecoded_mem_queryPairs {url : Url} {value : String} (h : value ∈ url.queryValues) :
    formDecoded value ∈ url.queryPairs := by
  obtain ⟨pair, hpair, hvalue⟩ := List.mem_filterMap.mp h
  obtain ⟨x, hx, rfl⟩ := Option.map_eq_some_iff.mp hvalue
  refine List.mem_map.mpr ⟨pair, List.mem_filter.mpr ⟨hpair, ?_⟩, by rw [hx, Option.elim_some]⟩
  rw [decide_eq_true_iff]
  intro he
  rw [he, Text.splitOnce] at hx
  exact absurd hx (Option.some_ne_none x).symm

/-- **Every credential is among the secrets.** -/
theorem Transport.Part.mem_secrets {t : Transport} {word : String} (h : t.Part word) :
    word ∈ t.secrets := by
  -- the secrets are one long append, nested to the left
  simp only [Transport.secrets, List.mem_append]
  cases h with
  | @segment value _ hvalue hroute hword =>
    have hin : value ∈ t.url.pathSegments.filter fun segment => !isPublicRoute segment :=
      List.mem_filter.mpr ⟨hvalue, by rw [hroute]; rfl⟩
    exact .inl (.inl (.inl (.inl (.inl (.inr (List.mem_flatMap.mpr
      ⟨value, hin, List.mem_pair.mpr hword⟩))))))
  | @label value _ hvalue hroute hword =>
    have hin : value ∈ t.url.labels.filter fun label => !isPublicRoute label :=
      List.mem_filter.mpr ⟨hvalue, by rw [hroute]; rfl⟩
    rw [Url.percentDecoded_label hvalue, or_self] at hword
    rw [hword]
    exact .inl (.inl (.inl (.inl (.inl (.inl (.inr hin))))))
  | @query value _ hvalue hword =>
    rw [← or_assoc] at hword
    cases hword with
    | inl hword => exact .inl (.inl (.inl (.inl (.inr (List.mem_flatMap.mpr
        ⟨value, hvalue, List.mem_pair.mpr hword⟩)))))
    | inr hword =>
      rw [hword]
      exact .inl (.inl (.inl (.inr (Url.formDecoded_mem_queryPairs hvalue))))
  | username hword => exact .inl (.inl (.inr (List.mem_pair.mpr hword)))
  | @password value _ hvalue hword =>
    exact .inl (.inr (List.mem_flatMap.mpr
      ⟨value, Option.mem_toList.mpr hvalue, List.mem_pair.mpr hword⟩))
  | header hvalue => exact .inr (List.mem_flatMap.mpr ⟨_, hvalue, List.mem_cons_self⟩)
  | bearer hvalue htoken =>
    exact .inr (List.mem_flatMap.mpr
      ⟨_, hvalue, List.mem_cons_of_mem _ (Option.mem_toList.mpr htoken)⟩)

theorem Fits.outside {word : String} (h : Fits word) :
    Text.Outside '[' ']' "redacted".toList word.toList :=
  ⟨h.1, h.2.1, h.2.2⟩

theorem redacted_eq : redacted = '[' :: ("redacted".toList ++ [']']) := by decide

/-- **No credential is left in a redacted text.** -/
theorem Transport.Credential.not_occurs {t : Transport} {word : String} (h : t.Credential word)
    (hfits : Fits word) (text : String) : ¬Occurs word (t.redact text) := by
  unfold Occurs Transport.redact
  simp only [String.toList_ofList, redacted_eq]
  refine hfits.outside.not_infix_replaceAll _ _ (.inl (List.mem_map.mpr ⟨word, ?_, rfl⟩))
  refine List.mem_filter.mpr ⟨?_, decide_eq_true h.2⟩
  rw [List.mem_insertionSort]
  exact h.1.mem_secrets

/-! ## Objects -/

def Ordered (fields : List (String × Json)) : Prop := fields.Pairwise fun f g => f.1 < g.1

variable {fields : List (String × Json)}

theorem mem_insertField (h : Ordered fields) {key : String}
    {value : Json} {e : String × Json} :
    e ∈ insertField fields key value ↔ e = (key, value) ∨ e ∈ fields ∧ e.1 ≠ key := by
  induction fields with
  | nil => simp [insertField]
  | cons f fields ih =>
    obtain ⟨hf, hrest⟩ := List.pairwise_cons.mp h
    rw [insertField]
    split_ifs with heq hlt
    · have hne : ∀ g ∈ fields, g.1 ≠ key := fun g hg => heq ▸ (hf g hg).ne'
      rw [List.mem_cons, List.mem_cons]
      constructor
      · rintro (he | he)
        · exact .inl he
        · exact .inr ⟨.inr he, hne e he⟩
      · rintro (he | ⟨he | he, hkey⟩)
        · exact .inl he
        · exact absurd (by rw [he, heq]) hkey
        · exact .inr he
    · have hne : ∀ g ∈ f :: fields, g.1 ≠ key := by
        intro g hg
        cases List.mem_cons.mp hg with
        | inl hg => exact hg ▸ hlt.ne'
        | inr hg => exact (hlt.trans (hf g hg)).ne'
      rw [List.mem_cons]
      exact or_congr_right ⟨fun he => ⟨he, hne e he⟩, fun he => he.1⟩
    · rw [List.mem_cons, List.mem_cons, ih hrest]
      constructor
      · rintro (he | he | ⟨he, hkey⟩)
        · exact .inr ⟨.inl he, by rw [he]; exact fun hk => heq hk.symm⟩
        · exact .inl he
        · exact .inr ⟨.inr he, hkey⟩
      · rintro (he | ⟨he | he, hkey⟩)
        · exact .inr (.inl he)
        · exact .inl he
        · exact .inr (.inr ⟨he, hkey⟩)

theorem ordered_insertField (h : Ordered fields) (key : String)
    (value : Json) : Ordered (insertField fields key value) := by
  induction fields with
  | nil => exact List.pairwise_singleton _ _
  | cons f fields ih =>
    obtain ⟨hf, hrest⟩ := List.pairwise_cons.mp h
    rw [insertField]
    split_ifs with heq hlt
    · exact List.pairwise_cons.mpr ⟨fun g hg => heq ▸ hf g hg, hrest⟩
    · refine List.pairwise_cons.mpr ⟨fun g hg => ?_, h⟩
      cases List.mem_cons.mp hg with
      | inl hg => exact hg ▸ hlt
      | inr hg => exact hlt.trans (hf g hg)
    · refine List.pairwise_cons.mpr ⟨fun g hg => ?_, ih hrest⟩
      cases (mem_insertField hrest).mp hg with
      | inl hg =>
        rw [hg]
        exact lt_of_le_of_ne (not_lt.mp hlt) fun hk => heq hk.symm
      | inr hg => exact hf g hg.1

section Trees

variable {redact : String → String}

variable (redact) in
/-- The field is not displaced by a later one. -/
def Stays : List (String × Json) → String × Json → Prop
  | [], _ => False
  | g :: fields, f => (f = g ∧ redact g.1 ∉ fields.map fun f => redact f.1) ∨ Stays fields f

theorem Stays.mem {f : String × Json} (h : Stays redact fields f) :
    f ∈ fields := by
  induction fields with
  | nil => exact h.elim
  | cons g fields ih =>
    cases h with
    | inl h => exact List.mem_cons.mpr (.inl h.1)
    | inr h => exact List.mem_cons_of_mem _ (ih h)

theorem redactItems_eq_map (items : List Json) :
    redactItems redact items = items.map (redactJson redact) := by
  induction items with
  | nil => rfl
  | cons v items ih => rw [redactItems, List.map_cons, ih]

theorem mem_redactFields {fields done : List (String × Json)} (h : Ordered done)
    {e : String × Json} :
    e ∈ redactFields redact fields done ↔
      (e ∈ done ∧ e.1 ∉ fields.map fun f => redact f.1) ∨
      ∃ f, Stays redact fields f ∧ e = (redact f.1, redactJson redact f.2) := by
  induction fields generalizing done with
  | nil => simp [redactFields, Stays]
  | cons g fields ih =>
    rw [redactFields, ih (ordered_insertField h _ _), mem_insertField h, List.map_cons,
      List.mem_cons, not_or]
    constructor
    · rintro (⟨he | ⟨he, hkey⟩, hlater⟩ | ⟨f, hf, he⟩)
      · exact .inr ⟨g, .inl ⟨rfl, by rw [he] at hlater; exact hlater⟩, he⟩
      · exact .inl ⟨he, hkey, hlater⟩
      · exact .inr ⟨f, .inr hf, he⟩
    · rintro (⟨he, hkey, hlater⟩ | ⟨f, ⟨rfl, hlater⟩ | hf, he⟩)
      · exact .inl ⟨.inr ⟨he, hkey⟩, hlater⟩
      · exact .inl ⟨.inl he, by rw [he]; exact hlater⟩
      · exact .inr ⟨f, hf, he⟩

theorem mem_keptOfItems {items : List Json} {n : Number} :
    n ∈ keptOfItems redact items ↔ ∃ v ∈ items, n ∈ keptNumbers redact v := by
  induction items with
  | nil => simp [keptOfItems]
  | cons v items ih => simp [keptOfItems, ih]

theorem mem_keptOfFields {n : Number} :
    n ∈ keptOfFields redact fields ↔
      ∃ f, Stays redact fields f ∧ n ∈ keptNumbers redact f.2 := by
  induction fields with
  | nil => simp [keptOfFields, Stays]
  | cons g fields ih =>
    rw [keptOfFields]
    split_ifs with hlater
    · rw [ih]
      constructor
      · rintro ⟨f, hf, hn⟩
        exact ⟨f, .inr hf, hn⟩
      · rintro ⟨f, ⟨-, hno⟩ | hf, hn⟩
        · exact absurd hlater hno
        · exact ⟨f, hf, hn⟩
    · rw [List.mem_append, ih]
      constructor
      · rintro (hn | ⟨f, hf, hn⟩)
        · exact ⟨g, .inl ⟨rfl, hlater⟩, hn⟩
        · exact ⟨f, .inr hf, hn⟩
      · rintro ⟨f, ⟨rfl, -⟩ | hf, hn⟩
        · exact .inl hn
        · exact .inr ⟨f, hf, hn⟩

theorem mem_textsOfItems {items : List Json} {text : String} :
    text ∈ textsOfItems items ↔ ∃ v ∈ items, text ∈ texts v := by
  induction items with
  | nil => simp [textsOfItems]
  | cons v items ih => simp [textsOfItems, ih]

theorem mem_textsOfFields {text : String} :
    text ∈ textsOfFields fields ↔ ∃ f ∈ fields, text = f.1 ∨ text ∈ texts f.2 := by
  induction fields with
  | nil => simp [textsOfFields]
  | cons f fields ih => simp [textsOfFields, ih, or_assoc]

theorem mem_texts_redactObject {text : String} :
    text ∈ texts (redactJson redact (.obj fields)) ↔ ∃ f, Stays redact fields f ∧
      (text = redact f.1 ∨ text ∈ texts (redactJson redact f.2)) := by
  rw [redactJson, texts, mem_textsOfFields]
  constructor
  · rintro ⟨e, he, htext⟩
    cases (mem_redactFields List.Pairwise.nil).mp he with
    | inl h => exact absurd h.1 List.not_mem_nil
    | inr h =>
      obtain ⟨f, hf, rfl⟩ := h
      exact ⟨f, hf, htext⟩
  · rintro ⟨f, hf, htext⟩
    exact ⟨_, (mem_redactFields List.Pairwise.nil).mpr (.inr ⟨f, hf, rfl⟩), htext⟩

/-- **The texts of a redacted value are redacted texts and kept numbers.** -/
theorem mem_texts_redactJson {v : Json} {text : String} (h : text ∈ texts (redactJson redact v)) :
    (∃ s, text = redact s) ∨ ∃ n ∈ keptNumbers redact v, text = Json.renderNumber n := by
  induction v using Json.induction with
  | null | bool => simp [redactJson, texts] at h
  | num n =>
    simp only [redactJson, texts, List.mem_singleton] at h
    exact .inr ⟨n, List.mem_singleton.mpr rfl, h⟩
  | str s =>
    rw [redactJson, texts, List.mem_singleton] at h
    exact .inl ⟨s, h⟩
  | arr items ih =>
    rw [redactJson, redactItems_eq_map, texts, mem_textsOfItems] at h
    obtain ⟨w, hw, htext⟩ := h
    obtain ⟨v, hv, rfl⟩ := List.mem_map.mp hw
    refine (ih v hv htext).imp_right fun ⟨n, hn, he⟩ => ⟨n, ?_, he⟩
    rw [keptNumbers, mem_keptOfItems]
    exact ⟨v, hv, hn⟩
  | obj fields ih =>
    obtain ⟨f, hf, htext⟩ := mem_texts_redactObject.mp h
    cases htext with
    | inl htext => exact .inl ⟨f.1, htext⟩
    | inr htext =>
      refine (ih f hf.mem htext).imp_right fun ⟨n, hn, he⟩ => ⟨n, ?_, he⟩
      rw [keptNumbers, mem_keptOfFields]
      exact ⟨f, hf, hn⟩

theorem render_mem_texts_redactJson {v : Json} {n : Number} (h : n ∈ keptNumbers redact v) :
    Json.renderNumber n ∈ texts (redactJson redact v) := by
  induction v using Json.induction with
  | null | bool | str => simp [keptNumbers] at h
  | num m =>
    rw [keptNumbers, List.mem_singleton] at h
    rw [h]
    simp [redactJson, texts]
  | arr items ih =>
    rw [keptNumbers, mem_keptOfItems] at h
    obtain ⟨v, hv, hn⟩ := h
    rw [redactJson, redactItems_eq_map, texts, mem_textsOfItems]
    exact ⟨_, List.mem_map_of_mem hv, ih v hv hn⟩
  | obj fields ih =>
    rw [keptNumbers, mem_keptOfFields] at h
    obtain ⟨f, hf, hn⟩ := h
    exact mem_texts_redactObject.mpr ⟨f, hf, .inr (ih f hf.mem hn)⟩

end Trees

/-! ## Responses -/

theorem Transport.mem_texts_redactResponse {t : Transport} {payload : ResponsePayload}
    {text : String} (h : text ∈ (t.redactResponse payload).texts) :
    (∃ s, text = t.redact s) ∨ ∃ n ∈ t.numbers payload, text = Json.renderNumber n := by
  cases payload with
  | success result => exact absurd h List.not_mem_nil
  | failure error =>
    obtain ⟨code, message, data⟩ := error
    rw [Transport.redactResponse, ResponsePayload.texts, List.mem_cons] at h
    cases h with
    | inl h => exact .inl ⟨message, h⟩
    | inr h =>
      cases data with
      | none => exact absurd h List.not_mem_nil
      | some raw =>
        cases raw with
        | invalid => exact absurd h List.not_mem_nil
        | json value =>
          simp only [Option.bind_some, Transport.redactRaw, Option.toList_some,
            List.flatMap_singleton, RawValue.texts] at h
          exact mem_texts_redactJson h

theorem Transport.render_mem_texts_redactResponse {t : Transport} {payload : ResponsePayload}
    {n : Number} (h : n ∈ t.numbers payload) :
    Json.renderNumber n ∈ (t.redactResponse payload).texts := by
  unfold Transport.numbers at h
  split at h
  · rw [Transport.redactResponse, ResponsePayload.texts, List.mem_cons]
    simp only [Option.bind_some, Transport.redactRaw, Option.toList_some, List.flatMap_singleton,
      RawValue.texts]
    exact .inr (render_mem_texts_redactJson h)
  · exact absurd h List.not_mem_nil

/-- **No credential is left in an error exactly when none is in the text of a number of its data.**
Numbers are not redacted; only those count whose fields are not displaced by later ones. -/
theorem redacted_iff (t : Transport) (payload : ResponsePayload)
    (hfits : ∀ word, t.Credential word → Fits word) :
    (∀ word, t.Credential word → ∀ text ∈ (t.redactResponse payload).texts, ¬Occurs word text) ↔
      ∀ word, t.Credential word → ∀ n ∈ t.numbers payload, ¬Occurs word (Json.renderNumber n) := by
  constructor
  · intro h word hword n hn
    exact h word hword _ (Transport.render_mem_texts_redactResponse hn)
  · intro h word hword text htext
    cases Transport.mem_texts_redactResponse htext with
    | inl hs =>
      obtain ⟨s, rfl⟩ := hs
      exact hword.not_occurs (hfits word hword) s
    | inr hn =>
      obtain ⟨n, hn, rfl⟩ := hn
      exact h word hword n hn

/-! ## A key of digits -/

namespace Sample

def url : Url where
  text := "https://rpc.example.org/v2/k3y"
  host := some "rpc.example.org"
  domain := some "rpc.example.org"
  pathSegments := ["v2", "k3y"]
  query := none
  username := ""
  password := none
  plain := by
    intro d hd c hc
    obtain rfl := Option.mem_some.mp hd
    have hall : "rpc.example.org".toList.all (fun c => c.toNat < 128 ∧ c ≠ '%') = true := by decide
    simpa using List.all_eq_true.mp hall c hc

def transport (secret : String) : Transport := ⟨url, [Text.utf8 secret.toList]⟩

def echo (secret : String) (number : ℕ) : ResponsePayload :=
  .failure ⟨-32000, "unknown key " ++ secret,
    some (.json (.obj [(secret, .arr [.str "k3y", .num (.nat number)])]))⟩

theorem headers_transport {secret : String}
    (htext : headerText (Text.utf8 secret.toList) = some secret) :
    (transport secret).headers = [secret] := by
  rw [Transport.headers, transport, List.filterMap_cons_some htext, List.filterMap_nil]

theorem credential_cases {secret word : String}
    (htext : headerText (Text.utf8 secret.toList) = some secret)
    (htoken : bearerToken secret = none) (h : (transport secret).Credential word) :
    word = "k3y" ∨ word = secret := by
  have hheaders := headers_transport htext
  obtain ⟨hpart, hne⟩ := h
  cases hpart with
  | segment hvalue hroute hword =>
    cases List.mem_pair.mp hvalue with
    | inl hvalue =>
      rw [hvalue] at hroute
      exact absurd hroute (by decide +kernel)
    | inr hvalue =>
      have hplain : percentDecoded "k3y" = "k3y" := by decide +kernel
      rw [hvalue, hplain, or_self] at hword
      exact .inl hword
  | @label value _ hvalue hroute hword =>
    have hlabels : url.labels = ["rpc"] := by decide +kernel
    have hrpc : value ∈ url.labels := hvalue
    rw [hlabels, List.mem_singleton] at hrpc
    rw [hrpc] at hroute
    exact absurd hroute (by decide +kernel)
  | query hvalue hword => exact absurd hvalue List.not_mem_nil
  | username hword =>
    have hplain : percentDecoded "" = "" := by decide +kernel
    rw [show (transport secret).url.username = "" from rfl, hplain, or_self] at hword
    exact absurd hword hne
  | password hvalue hword => exact absurd hvalue (Option.not_mem_none _)
  | header hvalue =>
    rw [hheaders] at hvalue
    exact .inr (List.mem_singleton.mp hvalue)
  | bearer hvalue hword =>
    rw [hheaders] at hvalue
    rw [List.mem_singleton.mp hvalue, htoken] at hword
    exact absurd hword (Option.not_mem_none _)

theorem fits {secret : String} (htext : headerText (Text.utf8 secret.toList) = some secret)
    (htoken : bearerToken secret = none) (hfits : Fits secret) :
    ∀ word, (transport secret).Credential word → Fits word := by
  intro word hword
  cases credential_cases htext htoken hword with
  | inl h =>
    rw [h]
    unfold Fits
    decide
  | inr h => rwa [h]

end Sample

/-- **A number that is a credential passes.** The secret in the header is `12345`, and the data of
the error has the number 12345. -/
theorem number_kept : (∀ word, (Sample.transport "12345").Credential word → Fits word) ∧
    (Sample.transport "12345").Credential "12345" ∧
    ∃ text ∈ ((Sample.transport "12345").redactResponse (Sample.echo "12345" 12345)).texts,
      Occurs "12345" text := by
  have htext : headerText (Text.utf8 "12345".toList) = some "12345" := by decide +kernel
  refine ⟨Sample.fits htext (by decide +kernel) (by unfold Fits; decide), ⟨.header ?_, by decide⟩,
    "12345", ?_, by decide⟩
  · rw [Sample.headers_transport htext]
    exact List.mem_singleton.mpr rfl
  · exact Transport.render_mem_texts_redactResponse (n := .nat 12345) (by decide +kernel)

/-- The secret `t0ken` is taken out of the message, the key and the item; the number stays. -/
theorem redacted_iff_echo :
    ((Sample.transport "t0ken").redactResponse (Sample.echo "t0ken" 7)).texts =
      ["unknown key [redacted]", "[redacted]", "[redacted]", "7"] ∧
    ∀ word, (Sample.transport "t0ken").Credential word →
      ∀ text ∈ ((Sample.transport "t0ken").redactResponse (Sample.echo "t0ken" 7)).texts,
        ¬Occurs word text := by
  have htext : headerText (Text.utf8 "t0ken".toList) = some "t0ken" := by decide +kernel
  have htoken : bearerToken "t0ken" = none := by decide +kernel
  refine ⟨by decide +kernel, (redacted_iff _ _ ?_).mpr ?_⟩
  · exact Sample.fits htext htoken (by unfold Fits; decide)
  · intro word hword n hn
    have hseven : n = .nat 7 := by
      have hnumbers : (Sample.transport "t0ken").numbers (Sample.echo "t0ken" 7) = [.nat 7] := by
        decide +kernel
      exact List.mem_singleton.mp (hnumbers ▸ hn)
    rw [hseven]
    cases Sample.credential_cases htext htoken hword with
    | inl h => rw [h]; decide
    | inr h => rw [h]; decide

end EngineCore.Rpc
