import EngineCore.Eoa.Wire

/-!
# Canonical replay keys

The journal admits one transaction for each replay key, so a wallet's nonce must have one key only.

* `CanonicalKey`: the keys as texts; **`validateReplayKey_iff`**: they are the accepted ones;
* **`canonicalKey_eq`**: one key for each chain, address and nonce.
-/

namespace EngineCore.Eoa.Wire

open Recovery Executors
open Except (bind_ok pure_ok)

variable {X S : Type} {B : X → Type} {R : S → Type} {P : Primitives} {A : Alloy}

/-! ## Nonce fillers -/

/-- The signed transaction sends nothing from the sender to itself. -/
def Fills (A : Alloy) (chainId : ℕ) (sender : Address) (tx : Signed) : Prop :=
  tx.tx.chainId = some chainId ∧ tx.tx.recipient = some sender ∧ tx.tx.value = 0 ∧
    tx.tx.input = [] ∧ tx.tx.authorizationList.getD [] = [] ∧
    A.recover tx.tx tx.signature = some sender

instance (chainId : ℕ) (sender : Address) (tx : Signed) : Decidable (Fills A chainId sender tx) :=
  inferInstanceAs (Decidable (_ ∧ _))

def validateNoopWire (A : Alloy) (chainId : ℕ) (sender : Address) (tx : Signed) :
    Except WorkerError Unit := do
  validateSignedHash A tx
  if ¬Fills A chainId sender tx then
    .error (.recoveryRequired "Signed NOOP does not match its durable reservation")
  else .ok ()

def noopId (P : Primitives) (chainId : ℕ) (sender : Address) (nonce : ℕ) : String :=
  s!"__engine_noop:{chainId}:{P.addressText sender}:{nonce}"

def noopPayload (P : Primitives) (chainId : ℕ) (sender : Address) (nonce : ℕ) : Json :=
  .obj [("chainId", jsonNat chainId), ("sender", .str (P.addressText sender)),
    ("nonce", jsonNat nonce)]

def noopAttempt (P : Primitives) (A : Alloy) (chainId : ℕ) (sender : Address) (tx : Signed) :
    Json :=
  .obj [("transactionHash", .str (hashText tx.hash)), ("chainId", jsonNat chainId),
    ("sender", .str (P.addressText sender)), ("nonce", jsonNat tx.tx.nonce),
    ("signedTransaction", .str (Hex.text (tx.wire A)))]

/-- The durable authorization of a transaction that only fills its nonce. -/
def beforeNoop (P : Primitives) (A : Alloy) (id : String) (chainId : ℕ) (sender : Address)
    (tx : Signed) : Work B R WorkerError Unit := do
  lift (validateNoopWire A chainId sender tx)
  lift (if id ≠ noopId P chainId sender tx.tx.nonce then
    .error (.recoveryRequired "NOOP ID does not match its nonce reservation") else .ok ())
  eoa (journal (validatePayload P .eoaNoop id (noopPayload P chainId sender tx.tx.nonce)))
  eoa (journal (invoke (.beforeBroadcast "eoa_noop" id (evmKey P chainId sender tx.tx.nonce)
    (noopAttempt P A chainId sender tx))))

/-! ## Keys as texts -/

/-- The decimal text of a number of 64 bits: digits, without sign or leading zeros. -/
structure U64Text (text : String) (n : ℕ) : Prop where
  ne_nil : text.toList ≠ []
  digits : ∀ c ∈ text.toList, c.isDigit
  leading : ∀ rest, text.toList = '0' :: rest → rest = []
  value : decimal text.toList = n
  bound : n < 2 ^ 64

/-- `0x` and forty lower-case hexadecimal digits. -/
def AddressText (text : String) : Prop :=
  ∃ digits : List Char, text.toList = '0' :: 'x' :: digits ∧ digits.length = 40 ∧
    ∀ c ∈ digits, c ∈ Hex.lowerDigits

def CanonicalKey (key : String) : Prop :=
  ∃ chainText address nonceText chain nonce,
    key = "evm:" ++ chainText ++ ":" ++ address ++ ":" ++ nonceText ∧
    U64Text chainText chain ∧ AddressText address ∧ U64Text nonceText nonce

/-- The fields of the key read as this chain, this address and this nonce, in whatever spelling. -/
def Denotes (key : String) (chain : ℕ) (address : List UInt8) (nonce : ℕ) : Prop :=
  ∃ scheme chainText addressText nonceText, fields key = [scheme, chainText, addressText, nonceText]
    ∧ parseU64 chainText = some chain ∧ Hex.parse addressText = some address ∧
    parseU64 nonceText = some nonce

/-! ## Decimal texts -/

theorem range_of_isDigit {c : Char} (h : c.isDigit) : 48 ≤ c.toNat ∧ c.toNat ≤ 57 :=
  Char.isDigit_iff_toNat.mp h

theorem digitChar_of_isDigit {c : Char} (h : c.isDigit) : Nat.digitChar (c.toNat - 48) = c := by
  have hrange := range_of_isDigit h
  rw [← Char.toNat_inj, Nat.toNat_digitChar_of_lt_ten (by omega)]
  omega

/-- By induction from the last digit: what stands before it has no leading zero either. -/
theorem toDigits_decimal {cs : List Char} (hne : cs ≠ []) (hdig : ∀ c ∈ cs, c.isDigit)
    (hlead : ∀ rest, cs = '0' :: rest → rest = []) : Nat.toDigits 10 (decimal cs) = cs := by
  induction cs using List.reverseRecOn with
  | nil => exact absurd rfl hne
  | append_singleton l d ih =>
    have hd : d.isDigit := hdig d (by simp)
    have hlt : d.toNat - 48 < 10 := by
      have := range_of_isDigit hd
      omega
    have hlast : Nat.toDigits 10 (d.toNat - 48) = [d] := by
      rw [Nat.toDigits_of_lt_base hlt, digitChar_of_isDigit hd]
    have hval : decimal (l ++ [d]) = 10 * decimal l + (d.toNat - 48) := by
      simp [decimal, Nat.ofDigitChars_append, Nat.ofDigitChars_cons]
    by_cases hl : l = []
    · subst hl
      rw [hval]
      simpa [decimal] using hlast
    · have hfront : Nat.toDigits 10 (decimal l) = l := by
        refine ih hl (fun c hc => hdig c (by simp [hc])) fun rest hrest => ?_
        have := hlead (rest ++ [d]) (by rw [hrest]; rfl)
        simp at this
      have hpos : 0 < decimal l := by
        rcases Nat.eq_zero_or_pos (decimal l) with hzero | hpos
        · rw [hzero] at hfront
          have := hlead [d] (by rw [← hfront]; rfl)
          simp at this
        · exact hpos
      rw [hval, ← Nat.toDigits_append_toDigits (by decide) hpos hlt, hfront, hlast]

theorem leading_toDigits {n : ℕ} (hn : 0 < n) (rest : List Char) :
    Nat.toDigits 10 n ≠ '0' :: rest := by
  induction n using Nat.strongRecOn generalizing rest with
  | ind n ih =>
    intro h
    by_cases hlt : n < 10
    · rw [Nat.toDigits_of_lt_base hlt] at h
      have hzero : ∀ m < 10, 0 < m → Nat.digitChar m ≠ '0' := by decide
      exact hzero n hlt hn (List.cons.inj h).1
    · rw [Nat.toDigits_of_base_le (by decide) (by omega)] at h
      cases hq : Nat.toDigits 10 (n / 10) with
      | nil => exact Nat.toDigits_ne_nil hq
      | cons c cs =>
        rw [hq] at h
        exact ih (n / 10) (by omega) (by omega) cs (by rw [hq, (List.cons.inj h).1])

/-- **The decimal texts are the printed numbers.** -/
theorem u64Text_iff {text : String} {n : ℕ} : U64Text text n ↔ text = toString n ∧ n < 2 ^ 64 := by
  constructor
  · intro h
    refine ⟨String.toList_injective ?_, h.bound⟩
    rw [toList_toString, ← h.value, toDigits_decimal h.ne_nil h.digits h.leading]
  · rintro ⟨rfl, hn⟩
    refine ⟨?_, fun c hc => isDigit_of_mem_toString hc, fun rest hrest => ?_, ?_, hn⟩
    · rw [toList_toString]
      exact Nat.toDigits_ne_nil
    · rw [toList_toString] at hrest
      rcases Nat.eq_zero_or_pos n with rfl | hpos
      · exact (List.cons.inj hrest).2.symm
      · exact absurd hrest (leading_toDigits hpos rest)
    · rw [toList_toString]
      exact Nat.ofDigitChars_toDigits (by decide) (le_refl 10)

theorem lt_of_parseU64 {text : String} {n : ℕ} (h : parseU64 text = some n) : n < 2 ^ 64 := by
  simp only [parseU64] at h
  split_ifs at h with hok
  exact Option.some.inj h ▸ hok.2.2

/-! ## Address texts -/

theorem utf8ByteSize_ascii {cs : List Char} (h : ∀ c ∈ cs, c.val ≤ 127) :
    (String.ofList cs).utf8ByteSize = cs.length := by
  induction cs with
  | nil => rfl
  | cons c cs ih =>
    have hsplit : String.ofList (c :: cs) = String.singleton c ++ String.ofList cs := by
      rw [← String.toList_inj]
      simp
    rw [hsplit, String.utf8ByteSize_append, ih fun d hd => h d (List.mem_cons_of_mem _ hd),
      String.utf8ByteSize_singleton, Char.utf8Size_eq_one_iff.mpr (h c List.mem_cons_self),
      List.length_cons, Nat.add_comm]

theorem lowerHex_iff {c : Char} : lowerHex c ↔ c ∈ Hex.lowerDigits := by
  constructor
  · intro h
    have hrange : 48 ≤ c.toNat ∧ c.toNat ≤ 57 ∨ 97 ≤ c.toNat ∧ c.toNat ≤ 102 := by
      simp only [lowerHex, Bool.or_eq_true, Bool.and_eq_true, decide_eq_true_eq] at h
      exact h.imp range_of_isDigit id
    have hmem : ∀ n < 103, 48 ≤ n ∧ n ≤ 57 ∨ 97 ≤ n ∧ n ≤ 102 →
        Char.ofNat n ∈ Hex.lowerDigits := by decide
    exact Char.ofNat_toNat c ▸ hmem c.toNat (by omega) hrange
  · intro h
    obtain ⟨n, hn, rfl⟩ := Hex.mem_lowerDigits.mp h
    have hdigit : ∀ n < 16, lowerHex (Nat.digitChar n) := by decide
    exact hdigit n hn

theorem ascii_of_lowerDigits {c : Char} (h : c ∈ Hex.lowerDigits) : c.val ≤ 127 := by
  obtain ⟨n, hn, rfl⟩ := Hex.mem_lowerDigits.mp h
  have hval : ∀ n < 16, (Nat.digitChar n).val ≤ 127 := by decide
  exact hval n hn

theorem utf8ByteSize_lowerDigits {text : String} {digits : List Char}
    (htext : text.toList = '0' :: 'x' :: digits) (hlow : ∀ c ∈ digits, c ∈ Hex.lowerDigits) :
    text.utf8ByteSize = digits.length + 2 := by
  rw [← String.ofList_toList (s := text), htext]
  refine utf8ByteSize_ascii fun c hc => ?_
  rcases List.mem_cons.mp hc with rfl | hc
  · decide
  rcases List.mem_cons.mp hc with rfl | hc
  · decide
  exact ascii_of_lowerDigits (hlow c hc)

theorem canonicalAddress_iff {text : String} : canonicalAddress text ↔ AddressText text := by
  simp only [canonicalAddress, startsWith, Bool.and_eq_true, decide_eq_true_eq,
    List.isPrefixOf_iff_prefix, List.all_eq_true, lowerHex_iff]
  constructor
  · rintro ⟨⟨hsize, digits, hdigits⟩, hlow⟩
    have htext : text.toList = '0' :: 'x' :: digits := hdigits.symm
    rw [htext] at hlow
    have hlen := utf8ByteSize_lowerDigits htext hlow
    exact ⟨digits, htext, by omega, hlow⟩
  · rintro ⟨digits, htext, hlen, hlow⟩
    refine ⟨⟨?_, digits, htext.symm⟩, ?_⟩
    · rw [utf8ByteSize_lowerDigits htext hlow, hlen]
    · rw [htext]
      exact hlow

theorem AddressText.colon {text : String} (h : AddressText text) : ':' ∉ text.toList := by
  obtain ⟨digits, htext, _, hlow⟩ := h
  intro hmem
  rw [htext] at hmem
  have hin : ':' ∈ digits := by simpa using hmem
  exact absurd (hlow _ hin) (by decide)

theorem addressText_text {bytes : List UInt8} (h : bytes.length = 20) :
    AddressText (Hex.text bytes) :=
  ⟨(Hex.encode bytes).toList, by simp [Hex.text], by rw [Hex.length_encode, h],
    fun _ hc => Hex.mem_lowerDigits_of_mem_encode hc⟩

theorem AddressText.eq_text {text : String} {bytes : List UInt8} (h : AddressText text)
    (hparse : Hex.parse text = some bytes) : text = Hex.text bytes := by
  obtain ⟨digits, htext, _, hlow⟩ := h
  have hdecode : Hex.decode digits = some bytes := by
    simpa [Hex.parse, Hex.strip, htext] using hparse
  rw [← String.toList_inj, htext, ← Hex.encode_decode hlow hdecode]
  simp [Hex.text]

/-! ## Fields -/

theorem splitColon_ne_nil (cs : List Char) : splitColon cs ≠ [] := by
  cases cs with
  | nil => exact List.cons_ne_nil _ _
  | cons c cs =>
    rw [splitColon]
    split_ifs
    · exact List.cons_ne_nil _ _
    · cases splitColon cs <;> exact List.cons_ne_nil _ _

theorem splitColon_cons {cs f : List Char} {fs : List (List Char)} (h : splitColon cs = f :: fs) :
    cs = f ∧ fs = [] ∨ ∃ rest, cs = f ++ ':' :: rest ∧ splitColon rest = fs := by
  induction cs generalizing f fs with
  | nil =>
    obtain ⟨rfl, rfl⟩ := List.cons.inj h
    exact .inl ⟨rfl, rfl⟩
  | cons c cs ih =>
    rw [splitColon] at h
    by_cases hc : c = ':'
    · subst hc
      rw [if_pos rfl] at h
      obtain ⟨rfl, rfl⟩ := List.cons.inj h
      exact .inr ⟨cs, rfl, rfl⟩
    · rw [if_neg hc] at h
      cases hs : splitColon cs with
      | nil => exact absurd hs (splitColon_ne_nil cs)
      | cons g gs =>
        rw [hs] at h
        obtain ⟨rfl, rfl⟩ := List.cons.inj h
        rcases ih hs with ⟨rfl, hgs⟩ | ⟨rest, rfl, hgs⟩
        · exact .inl ⟨rfl, hgs⟩
        · exact .inr ⟨rest, rfl, hgs⟩

/-- A field that another one follows ends at a colon. -/
theorem splitColon_cons_cons {cs f g : List Char} {fs : List (List Char)}
    (h : splitColon cs = f :: g :: fs) :
    ∃ rest, cs = f ++ ':' :: rest ∧ splitColon rest = g :: fs :=
  (splitColon_cons h).resolve_left fun hnil => List.cons_ne_nil g fs hnil.2

theorem eq_of_fields {key a b c d : String} (h : fields key = [a, b, c, d]) :
    key = a ++ ":" ++ b ++ ":" ++ c ++ ":" ++ d := by
  have hsplit : splitColon key.toList = [a.toList, b.toList, c.toList, d.toList] := by
    have hmap := congrArg (List.map String.toList) h
    simpa [fields, Function.comp_def] using hmap
  obtain ⟨r₁, h₁, hs₁⟩ := splitColon_cons_cons hsplit
  obtain ⟨r₂, rfl, hs₂⟩ := splitColon_cons_cons hs₁
  obtain ⟨r₃, rfl, hs₃⟩ := splitColon_cons_cons hs₂
  rcases splitColon_cons hs₃ with ⟨rfl, _⟩ | ⟨r₄, _, hs₄⟩
  · rw [← String.toList_inj, h₁]
    simp
  · exact absurd hs₄ (splitColon_ne_nil r₄)

theorem fields_evm {chain nonce : ℕ} {address : String} (ha : ':' ∉ address.toList) :
    fields ("evm:" ++ toString chain ++ ":" ++ address ++ ":" ++ toString nonce)
      = ["evm", toString chain, address, toString nonce] := by
  have hlist : ("evm:" ++ toString chain ++ ":" ++ address ++ ":" ++ toString nonce).toList
      = "evm".toList ++ ':' :: ((toString chain).toList ++ ':' :: (address.toList ++
        ':' :: (toString nonce).toList)) := by simp
  unfold fields
  rw [hlist, splitColon_append _ (by decide), splitColon_append _ (colon_notMem_toString chain),
    splitColon_append _ ha, splitColon_of_notMem (colon_notMem_toString nonce)]
  simp only [List.map_cons, List.map_nil, String.ofList_toList]

/-! ## Accepted keys -/

theorem validateEoaKey_iff {key : String} : validateEoaKey key = .ok () ↔
    ∃ chain address nonce, fields key = ["evm", toString chain, address, toString nonce] ∧
      chain < 2 ^ 64 ∧ canonicalAddress address ∧ nonce < 2 ^ 64 := by
  constructor
  · intro h
    unfold validateEoaKey at h
    split at h
    · next scheme chainText address nonceText hfields =>
      simp only [bind_ok, refuse_ok, require_ok, not_or, not_not, exists_const] at h
      obtain ⟨rfl, chain, hchain, nonce, hnonce, rfl, rfl, haddress⟩ := h
      exact ⟨chain, address, nonce, hfields, lt_of_parseU64 hchain, haddress,
        lt_of_parseU64 hnonce⟩
    · cases h
  · rintro ⟨chain, address, nonce, hfields, hchain, haddress, hnonce⟩
    simp only [validateEoaKey, hfields, bind_ok, refuse_ok, require_ok, not_or, not_not,
      exists_const]
    exact ⟨trivial, chain, parseU64_toString hchain, nonce, parseU64_toString hnonce, rfl, rfl,
      haddress⟩

theorem utf8ByteSize_toString {n : ℕ} (h : n < 2 ^ 64) : (toString n).utf8ByteSize ≤ 20 := by
  rw [← String.ofList_toList (s := toString n), utf8ByteSize_ascii, toList_toString]
  · exact (Nat.length_toDigits_le_iff (by decide) (by decide)).mpr (by omega)
  · intro c hc
    have hrange := range_of_isDigit (isDigit_of_mem_toString hc)
    exact UInt32.le_iff_toNat_le.mpr (hrange.2.trans (by decide))

theorem canonicalKey_iff {key : String} : CanonicalKey key ↔
    ∃ chain address nonce, key = "evm:" ++ toString chain ++ ":" ++ address ++ ":" ++ toString nonce
      ∧ chain < 2 ^ 64 ∧ AddressText address ∧ nonce < 2 ^ 64 := by
  simp only [CanonicalKey, u64Text_iff]
  constructor
  · rintro ⟨_, address, _, chain, nonce, rfl, ⟨rfl, hchain⟩, haddress, rfl, hnonce⟩
    exact ⟨chain, address, nonce, rfl, hchain, haddress, hnonce⟩
  · rintro ⟨chain, address, nonce, rfl, hchain, haddress, hnonce⟩
    exact ⟨_, address, _, chain, nonce, rfl, ⟨rfl, hchain⟩, haddress, rfl, hnonce⟩

theorem CanonicalKey.short {key : String} (h : CanonicalKey key) :
    key ≠ "" ∧ key.utf8ByteSize ≤ 2048 := by
  obtain ⟨chain, address, nonce, rfl, hchain, ⟨digits, htext, hlen, hlow⟩, hnonce⟩ :=
    canonicalKey_iff.mp h
  have hc := utf8ByteSize_toString hchain
  have hn := utf8ByteSize_toString hnonce
  have ha := utf8ByteSize_lowerDigits htext hlow
  have hscheme : ("evm:" : String).utf8ByteSize = 4 := by decide
  have hcolon : (":" : String).utf8ByteSize = 1 := by decide
  have hsize : ("evm:" ++ toString chain ++ ":" ++ address ++ ":" ++ toString nonce).utf8ByteSize
      = 4 + (toString chain).utf8ByteSize + 1 + address.utf8ByteSize + 1 +
        (toString nonce).utf8ByteSize := by
    simp only [String.utf8ByteSize_append, hscheme, hcolon]
  refine ⟨fun hempty => ?_, by omega⟩
  rw [hempty] at hsize
  have hzero : ("" : String).utf8ByteSize = 0 := rfl
  omega

/-- **The accepted keys are the canonical ones.** -/
theorem validateReplayKey_iff {kind : Kind} (hkind : kind = .eoa ∨ kind = .eoaNoop) {key : String} :
    validateReplayKey kind key = .ok () ↔ CanonicalKey key := by
  have hbody : validateReplayKey kind key = .ok () ↔
      (key ≠ "" ∧ key.utf8ByteSize ≤ 2048) ∧ validateEoaKey key = .ok () := by
    rcases hkind with rfl | rfl <;>
      simp [validateReplayKey, bind_ok, refuse_ok]
  rw [hbody, validateEoaKey_iff]
  constructor
  · rintro ⟨_, chain, address, nonce, hfields, hchain, haddress, hnonce⟩
    have hkey := eq_of_fields hfields
    rw [show "evm" ++ ":" = "evm:" by decide] at hkey
    exact canonicalKey_iff.mpr ⟨chain, address, nonce, hkey, hchain,
      canonicalAddress_iff.mp haddress, hnonce⟩
  · intro h
    refine ⟨h.short, ?_⟩
    obtain ⟨chain, address, nonce, rfl, hchain, haddress, hnonce⟩ := canonicalKey_iff.mp h
    exact ⟨chain, address, nonce, fields_evm haddress.colon, hchain,
      canonicalAddress_iff.mpr haddress, hnonce⟩

/-- A canonical key is written from what it denotes. -/
theorem CanonicalKey.eq_of_denotes {key : String} {chain nonce : ℕ} {address : List UInt8}
    (h : CanonicalKey key) (hd : Denotes key chain address nonce) :
    key = "evm:" ++ toString chain ++ ":" ++ Hex.text address ++ ":" ++ toString nonce := by
  obtain ⟨c, a, n, rfl, hchain, haddress, hnonce⟩ := canonicalKey_iff.mp h
  obtain ⟨scheme, ct, at', nt, hfields, hct, hat, hnt⟩ := hd
  rw [fields_evm haddress.colon] at hfields
  simp only [List.cons.injEq, and_true] at hfields
  obtain ⟨_, rfl, rfl, rfl⟩ := hfields
  rw [parseU64_toString hchain] at hct
  rw [parseU64_toString hnonce] at hnt
  rw [Option.some.inj hct, Option.some.inj hnt, ← haddress.eq_text hat]

/-! ## The keys of a broadcast -/

-- The queries of a program are never computed here, only composed.
seal Within

/-- A broadcast is asked for under a key that the journal accepts for its kind. -/
def Keyed (q : Ask X S) : Prop :=
  ∀ kind id key attempt, q = .invoke (.beforeBroadcast kind id key attempt) →
    ∃ k, Kind.parse kind = some k ∧ validateReplayKey k key = .ok ()

theorem canonicalKey_evmKey {chainId nonce : ℕ} {sender : Address}
    (htext : P.addressText sender = Hex.text (Hex.bytesBE 20 sender.toNat))
    (hchain : chainId < 2 ^ 64) (hnonce : nonce < 2 ^ 64) :
    CanonicalKey (evmKey P chainId sender nonce) := by
  refine canonicalKey_iff.mpr ⟨chainId, P.addressText sender, nonce, rfl, hchain, ?_, hnonce⟩
  rw [htext]
  exact addressText_text (by simp [Hex.bytesBE])

theorem validatePayload_keyed (kind : Kind) (id : String) (payload : Json) :
    Within Keyed (validatePayload P kind id payload : Work B R RecoveryError Unit) := by
  have hread : ∀ r, Keyed (.read r : Ask X S) := fun r kind id key attempt h => by cases h
  refine .bind (.lift _) fun fingerprint => .bind ?_ fun _ => .bind (.read (hread _)) fun found =>
    .bind (.lift _) fun record => .bind (.lift _) fun stored => .bind (.lift _) fun own => .lift _
  refine .bind (.invoke ?_ ?_) fun _ => .bind (.read (hread _)) fun found =>
    .bind (.lift _) fun record => .bind (.lift _) fun _ => .lift _
  · intro kind id key attempt h
    cases h
  · intro ticket kind id key attempt h
    cases h

theorem beforeBroadcast_keyed {name id key : String} (attempt : Json) {kind : Kind}
    (hname : Kind.parse name = some kind) (hkind : kind = .eoa ∨ kind = .eoaNoop)
    (hkey : CanonicalKey key) :
    Within Keyed (eoa (journal (invoke (.beforeBroadcast name id key attempt))) :
      Work B R WorkerError Unit) := by
  refine Within.adapt (Within.adapt (Within.invoke ?_ ?_))
  · intro name' id' key' attempt' h
    cases h
    exact ⟨kind, hname, (validateReplayKey_iff hkind).mpr hkey⟩
  · intro ticket name id key attempt h
    cases h

theorem beforeEoa_keyed {request : EoaTransactionRequest} {tx : Signed}
    (hkey : CanonicalKey (evmKey P request.chainId request.sender tx.tx.nonce)) :
    Within Keyed (beforeEoa P A request tx : Work B R WorkerError Unit) := by
  unfold beforeEoa
  refine Within.bind (Within.adapt (Within.adapt ?_)) fun _ => Within.bind (Within.lift _) fun _ => ?_
  · exact validatePayload_keyed .eoa request.transactionId (request.toJson P)
  · exact beforeBroadcast_keyed _ (by decide : Kind.parse "eoa" = some .eoa) (.inl rfl) hkey

theorem beforeNoop_keyed {id : String} {chainId : ℕ} {sender : Address} {tx : Signed}
    (hkey : CanonicalKey (evmKey P chainId sender tx.tx.nonce)) :
    Within Keyed (beforeNoop P A id chainId sender tx : Work B R WorkerError Unit) := by
  unfold beforeNoop
  refine Within.bind (Within.lift _) fun _ => Within.bind (Within.lift _) fun _ =>
    Within.bind (Within.adapt (Within.adapt ?_)) fun _ => ?_
  · exact validatePayload_keyed .eoaNoop id _
  · exact beforeBroadcast_keyed _ (by decide : Kind.parse "eoa_noop" = some .eoaNoop) (.inr rfl) hkey

/-- **Replay keys have one spelling.** For both kinds of EOA transactions the journal accepts just
the keys `evm:chain:address:nonce` with decimal numbers of 64 bits and a lower-case address; two
accepted keys that denote one chain, address and nonce are equal; and the workers broadcast under
accepted keys. -/
theorem replayKeys_canonical (P : Primitives) (A : Alloy)
    (htext : ∀ a, P.addressText a = Hex.text (Hex.bytesBE 20 a.toNat)) :
    (∀ kind, kind = .eoa ∨ kind = .eoaNoop →
      ∀ key, validateReplayKey kind key = .ok () ↔ CanonicalKey key) ∧
    (∀ kind kind', (kind = .eoa ∨ kind = .eoaNoop) → (kind' = .eoa ∨ kind' = .eoaNoop) →
      ∀ key key', validateReplayKey kind key = .ok () → validateReplayKey kind' key' = .ok () →
      ∀ chain address nonce, Denotes key chain address nonce → Denotes key' chain address nonce →
        key = key') ∧
    (∀ request : EoaTransactionRequest, ∀ tx : Signed, request.chainId < 2 ^ 64 →
      tx.tx.nonce < 2 ^ 64 → Within Keyed (beforeEoa P A request tx : Work B R WorkerError Unit)) ∧
    ∀ id chainId sender, ∀ tx : Signed, chainId < 2 ^ 64 → tx.tx.nonce < 2 ^ 64 →
      Within Keyed (beforeNoop P A id chainId sender tx : Work B R WorkerError Unit) := by
  refine ⟨fun kind hkind key => validateReplayKey_iff hkind, ?_, ?_, ?_⟩
  · intro kind kind' hkind hkind' key key' hkey hkey' chain address nonce hd hd'
    rw [((validateReplayKey_iff hkind).mp hkey).eq_of_denotes hd,
      ((validateReplayKey_iff hkind').mp hkey').eq_of_denotes hd']
  · intro request tx hchain hnonce
    exact beforeEoa_keyed (canonicalKey_evmKey (htext request.sender) hchain hnonce)
  · intro id chainId sender tx hchain hnonce
    exact beforeNoop_keyed (canonicalKey_evmKey (htext sender) hchain hnonce)

namespace Sample

def lowerCase : Primitives :=
  { Recovery.Sample.primitives with
    addressText := fun a => Hex.text (Hex.bytesBE 20 a.toNat) }

def codec : Alloy := ⟨fun _ _ => [], fun _ => none, fun _ => 0, fun _ _ => none, fun _ => none⟩

def filler : Signed :=
  ⟨⟨.legacy, some 1, 7, some 10, 0, [], 21000, .gasPrice 1, [], none, []⟩, ⟨1, 1, false⟩, 0⟩

def fillerKey : String := "evm:1:0x000000000000000000000000000000000000000a:7"

end Sample

set_option maxRecDepth 4000 in
theorem replayKeys_canonical_filler :
    validateReplayKey .eoa Sample.fillerKey = .ok () ∧
    evmKey Sample.lowerCase 1 10 7 = Sample.fillerKey ∧
    Within (B := fun _ : Unit => Unit) (R := fun _ : Unit => Unit) Keyed
      (beforeNoop Sample.lowerCase Sample.codec (noopId Sample.lowerCase 1 10 7) 1 10
        Sample.filler) :=
  ⟨by decide +kernel, by decide +kernel,
    (replayKeys_canonical Sample.lowerCase Sample.codec fun _ => rfl).2.2.2 _ 1 10 Sample.filler
      (by decide) (by decide)⟩

end EngineCore.Eoa.Wire
