import EngineCore.Recovery.Ledger

/-!
# Identities, replay keys and canonical records

The checks a call makes on its arguments before it takes the journal's lock.

* `canonical`, `admissionFingerprint`, `terminalIdentity`: the canonical record, the fingerprint of
  an intent, and terminal evidence without its covering checkpoint.
-/

namespace EngineCore.Recovery

open Except (bind_ok pure_ok)

/-! ## Text -/

def splitColon : List Char → List (List Char)
  | [] => [[]]
  | c :: cs =>
    if c = ':' then [] :: splitColon cs
    else
      match splitColon cs with
      | [] => [[c]]
      | f :: fs => (c :: f) :: fs

def fields (key : String) : List String := (splitColon key.toList).map String.ofList

def chainOf (key : String) : Option String := (fields key)[1]?

def decimal (cs : List Char) : ℕ := Nat.ofDigitChars 10 cs 0

/-- The text of an unsigned 64-bit number: digits after an optional plus sign. -/
def parseU64 (s : String) : Option ℕ :=
  let digits := match s.toList with
    | '+' :: cs => cs
    | cs => cs
  if digits ≠ [] ∧ digits.all Char.isDigit ∧ decimal digits < 2 ^ 64 then some (decimal digits)
  else none

def startsWith (s start : String) : Bool := start.toList.isPrefixOf s.toList

/-! ## Argument checks -/

def Kind.parse (name : String) : Option Kind :=
  [Kind.eoa, .eoaNoop, .solana, .erc4337, .eip7702].find? fun k => k.text = name

/-- The kind is supported and the id is not empty and at most 1024 bytes long. -/
def identity (kind id : String) : Result Kind := do
  let k ← require (Kind.parse kind) (.invalid "unsupported kind or invalid transaction ID")
  refuse (id = "" ∨ 1024 < id.utf8ByteSize) (.invalid "unsupported kind or invalid transaction ID")
  return k

/-- A namespace is a short word of letters, digits, hyphens and underscores. -/
def namespaceValid (ns : Option String) : Result Unit :=
  match ns with
  | none => return ()
  | some s =>
    refuse (s = "" ∨ 128 < s.utf8ByteSize ∨
        ¬s.toList.all fun c => c.isAlphanum || c = '-' || c = '_')
      (.invalid "namespace must use ASCII letters, digits, hyphens or underscores")

def lowerHex (c : Char) : Bool := c.isDigit || ('a' ≤ c && c ≤ 'f')

/-- The address field of a replay key: `0x` and forty lower-case hexadecimal digits. -/
def canonicalAddress (s : String) : Bool :=
  s.utf8ByteSize = 42 && startsWith s "0x" && (s.toList.drop 2).all lowerHex

/-- The canonical form of an EOA replay key, `evm:chain:address:nonce`. -/
def validateEoaKey (key : String) : Result Unit :=
  match fields key with
  | [scheme, chainText, address, nonceText] => do
    refuse (scheme ≠ "evm") (.invalid "EOA replay key must be evm:chain:lowercase-address:nonce")
    let chain ← require (parseU64 chainText) (.invalid "invalid replay chain")
    let nonce ← require (parseU64 nonceText) (.invalid "invalid replay nonce")
    refuse (chainText ≠ toString chain ∨ nonceText ≠ toString nonce ∨ ¬canonicalAddress address)
      (.invalid "EOA replay key is not canonical")
  | _ => .error (.invalid "EOA replay key must be evm:chain:lowercase-address:nonce")

/-- Canonical keys prevent textual aliases from evading wallet and nonce uniqueness. -/
def validateReplayKey (kind : Kind) (key : String) : Result Unit := do
  refuse (key = "" ∨ 2048 < key.utf8ByteSize) (.invalid "invalid replay key")
  match kind with
  | .eoa | .eoaNoop => validateEoaKey key
  | _ => refuse (¬startsWith key (kind.text ++ ":")) (.invalid "replay key kind mismatch")

/-! ## Canonical records -/

def maxRecordBytes : ℕ := 16 * 1024 * 1024

/-- The canonical form of a record, refused when its text is too long. -/
def canonical (v : Json) : Result Json := do
  refuse (maxRecordBytes < v.sort.render.utf8ByteSize) (.invalid "record exceeds 16 MiB")
  return v.sort

/-- The part of a request that identifies the intent: fields the service fills in are left out. -/
def intentOf : Kind → Json → Json
  | .erc4337, payload => payload.remove "pregeneratedNonce"
  | .eip7702, payload => payload.remove "nonce"
  | _, payload => payload

def admissionFingerprint (P : Primitives) (kind : Kind) (payload : Json) : Result String := do
  let intent ← canonical (intentOf kind payload)
  return P.sha256 (kind.text ++ "\x00" ++ intent.render)

/-- Terminal evidence without the checkpoint that happened to cover it. -/
def withoutCheckpoint (evidence : Json) : Json :=
  evidence.modify "finality" fun f => (f.remove "checkpointNumber").remove "checkpointHash"

/-- What two observations of one outcome must agree on. -/
def terminalIdentity (evidence : Json) : Result Json := canonical (withoutCheckpoint evidence)

def digestOf (P : Primitives) (encoded : Json) : String := P.sha256 encoded.render

/-! ## Decimal text and fields -/

theorem toList_toString (n : ℕ) : (toString n).toList = Nat.toDigits 10 n := by
  simp [toString, Nat.repr]

theorem toString_injective {m n : ℕ} (h : toString m = toString n) : m = n := by
  have h' := congrArg (fun s => decimal s.toList) h
  simpa only [toList_toString, decimal, Nat.ofDigitChars_toDigits (by decide : 1 < 10) (le_refl 10)]
    using h'

theorem isDigit_of_mem_toString {n : ℕ} {c : Char} (h : c ∈ (toString n).toList) : c.isDigit :=
  Nat.isDigit_of_mem_toDigits (by decide) (by decide) (toList_toString n ▸ h)

theorem colon_notMem_toString (n : ℕ) : ':' ∉ (toString n).toList :=
  fun h => absurd (isDigit_of_mem_toString h) (by decide)

theorem parseU64_toString {n : ℕ} (h : n < 2 ^ 64) : parseU64 (toString n) = some n := by
  have hdec : decimal (toString n).toList = n := by
    rw [toList_toString]
    exact Nat.ofDigitChars_toDigits (by decide) (le_refl 10)
  have hsign : (match (toString n).toList with
      | '+' :: cs => cs
      | cs => cs) = (toString n).toList := by
    split
    · next cs hcs =>
      exact absurd (isDigit_of_mem_toString (hcs ▸ List.mem_cons_self)) (by decide)
    · rfl
  have hall : (toString n).toList.all Char.isDigit = true :=
    List.all_eq_true.mpr fun c hc => isDigit_of_mem_toString hc
  have hne : (toString n).toList ≠ [] := by
    intro hnil
    rw [toList_toString] at hnil
    exact Nat.toDigits_ne_nil hnil
  simp only [parseU64, hsign, hdec, hall]
  exact if_pos ⟨hne, trivial, h⟩

theorem splitColon_append {a : List Char} (b : List Char) (ha : ':' ∉ a) :
    splitColon (a ++ ':' :: b) = a :: splitColon b := by
  induction a with
  | nil => simp [splitColon]
  | cons c cs ih =>
    have hc : c ≠ ':' := fun h => ha (h ▸ List.mem_cons_self)
    rw [List.cons_append, splitColon, ih fun h => ha (List.mem_cons_of_mem _ h)]
    simp [hc]

theorem splitColon_of_notMem {a : List Char} (ha : ':' ∉ a) : splitColon a = [a] := by
  induction a with
  | nil => rfl
  | cons c cs ih =>
    have hc : c ≠ ':' := fun h => ha (h ▸ List.mem_cons_self)
    rw [splitColon, ih fun h => ha (List.mem_cons_of_mem _ h)]
    simp [hc]

/-! ## What the checks accept -/

theorem canonical_ok {v c : Json} (h : canonical v = .ok c) : c = v.sort := by
  simp only [canonical, bind_ok, refuse_ok, pure_ok] at h
  obtain ⟨_, _, h⟩ := h
  exact h.symm

theorem identity_ok {kind id : String} {k : Kind} (h : identity kind id = .ok k) :
    Kind.parse kind = some k := by
  simp only [identity, bind_ok, require_ok, pure_ok] at h
  obtain ⟨k', hk, _, _, rfl⟩ := h
  exact hk

end EngineCore.Recovery
