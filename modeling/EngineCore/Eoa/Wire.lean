import EngineCore.Eoa.Outcome
import EngineCore.Executors.Settlement

/-!
# Signed transactions and the admitted request

What an EOA worker signs, what it compares before a broadcast, and the attempt it commits.

* `Matches`, `validateEoaWire`: the signed transaction carries out the request;
* **`beforeEoa_does`**: where it succeeds, the wire is committed under the id of a request that the
  admission stores and that the wire carries out.
-/

namespace EngineCore.Eoa.Wire

open Interact Recovery Executors

/-! ## Transactions -/

structure SignedAuthorization where
  chainId : ℕ
  address : Address
  nonce : ℕ
  yParity : ℕ
  r : ℕ
  s : ℕ
  deriving DecidableEq, Repr

inductive Fees
  | gasPrice (price : ℕ)
  | dynamic (maxFeePerGas maxPriorityFeePerGas : ℕ)
  deriving DecidableEq, Repr

inductive TxType
  | legacy
  | eip2930
  | eip1559
  | eip4844
  | eip7702
  deriving DecidableEq, Repr

/-- `TypedTransaction`; `blobs` stands for the fields of a blob transaction. -/
structure TypedTransaction where
  txType : TxType
  chainId : Option ℕ
  nonce : ℕ
  recipient : Option Address
  value : ℕ
  input : List UInt8
  gasLimit : ℕ
  fees : Fees
  accessList : List (Address × List B256)
  authorizationList : Option (List SignedAuthorization)
  blobs : List UInt8
  deriving DecidableEq, Repr

structure EcdsaSignature where
  r : ℕ
  s : ℕ
  yParity : Bool
  deriving DecidableEq, Repr

/-- `Signed<TypedTransaction>`. The hash is cached: it need not be the hash of the bytes. -/
structure Signed where
  tx : TypedTransaction
  signature : EcdsaSignature
  hash : B256
  deriving DecidableEq, Repr

/-! ## Requests -/

inductive TransactionTypeData
  | eip7702 (authorizationList : Option (List SignedAuthorization))
      (maxFeePerGas maxPriorityFeePerGas : Option ℕ)
  | eip1559 (maxFeePerGas maxPriorityFeePerGas : Option ℕ)
  | legacy (gasPrice : Option ℕ)
  deriving DecidableEq, Repr

/-- `EoaTransactionRequest`; the webhooks and the credentials are kept as they are encoded. -/
structure EoaTransactionRequest where
  transactionId : String
  chainId : ℕ
  sender : Address
  recipient : Option Address
  value : ℕ
  data : List UInt8
  gasLimit : Option ℕ
  webhookOptions : Json
  signingCredential : Json
  rpcCredentials : Json
  transactionTypeData : Option TransactionTypeData

/-- The libraries that encode, decode and hash transactions, and recover their signers. -/
structure Alloy where
  /-- `encoded_2718` of the envelope. -/
  encode : TypedTransaction → EcdsaSignature → List UInt8
  /-- `decode_2718`, with the bytes it has not read. -/
  decode : List UInt8 → Option (Signed × List UInt8)
  keccak256 : List UInt8 → B256
  /-- The address recovered from the signature over the transaction's signature hash. -/
  recover : TypedTransaction → EcdsaSignature → Option Address
  /-- The decoder of a stored request. -/
  request : Json → Option EoaTransactionRequest

/-- Decoding undoes encoding: the bytes of a wire determine the transaction and its signature. -/
def Alloy.Lossless (A : Alloy) : Prop :=
  ∀ tx signature, ∃ hash, A.decode (A.encode tx signature) = some (⟨tx, signature, hash⟩, [])

def Signed.wire (A : Alloy) (tx : Signed) : List UInt8 := A.encode tx.tx tx.signature

section Encoding

variable (P : Primitives)

def jsonNat (n : ℕ) : Json := .num (.nat n)

def optional {α : Type} (encode : α → Json) : Option α → Json
  | some a => encode a
  | none => .null

def SignedAuthorization.toJson (a : SignedAuthorization) : Json :=
  .obj [("chainId", .str (Hex.quantity a.chainId)), ("address", .str (P.addressText a.address)),
    ("nonce", .str (Hex.quantity a.nonce)), ("yParity", .str (Hex.quantity a.yParity)),
    ("r", .str (Hex.quantity a.r)), ("s", .str (Hex.quantity a.s))]

/-- A field that is left out where it is absent. -/
def present {α : Type} (name : String) (encode : α → Json) : Option α → List (String × Json)
  | some a => [(name, encode a)]
  | none => []

/-- The fields that are flattened into the request. -/
def TransactionTypeData.fields : TransactionTypeData → List (String × Json)
  | .eip7702 authorizationList maxFeePerGas maxPriorityFeePerGas =>
    present "authorizationList" (fun l => .arr (l.map (SignedAuthorization.toJson P)))
      authorizationList ++
    present "maxFeePerGas" jsonNat maxFeePerGas ++
    present "maxPriorityFeePerGas" jsonNat maxPriorityFeePerGas
  | .eip1559 maxFeePerGas maxPriorityFeePerGas =>
    present "maxFeePerGas" jsonNat maxFeePerGas ++
    present "maxPriorityFeePerGas" jsonNat maxPriorityFeePerGas
  | .legacy gasPrice => present "gasPrice" jsonNat gasPrice

def EoaTransactionRequest.toJson (r : EoaTransactionRequest) : Json :=
  .obj ([("transactionId", .str r.transactionId), ("chainId", jsonNat r.chainId),
    ("from", .str (P.addressText r.sender)),
    ("to", optional (fun a => .str (P.addressText a)) r.recipient),
    ("value", .str (Hex.quantity r.value)), ("data", .str (Hex.text r.data)),
    ("gasLimit", optional jsonNat r.gasLimit), ("webhookOptions", r.webhookOptions),
    ("signingCredential", r.signingCredential), ("rpcCredentials", r.rpcCredentials)] ++
    (r.transactionTypeData.map (TransactionTypeData.fields P)).getD [])

/-- The attempt that is committed before a broadcast. -/
def eoaAttempt (A : Alloy) (request : EoaTransactionRequest) (tx : Signed) : Json :=
  .obj [("transactionHash", .str (hashText tx.hash)), ("chainId", jsonNat request.chainId),
    ("sender", .str (P.addressText request.sender)), ("nonce", jsonNat tx.tx.nonce),
    ("signedTransaction", .str (Hex.text (tx.wire A)))]

end Encoding

/-! ## Authorization -/

/-- The authorizations the request asks for. -/
def EoaTransactionRequest.authorizations (r : EoaTransactionRequest) : List SignedAuthorization :=
  match r.transactionTypeData with
  | some (.eip7702 authorizationList _ _) => authorizationList.getD []
  | _ => []

/-- The signed transaction carries out the request, and the request's sender signed it. -/
structure Matches (A : Alloy) (request : EoaTransactionRequest) (tx : TypedTransaction)
    (signature : EcdsaSignature) : Prop where
  chainId : tx.chainId = some request.chainId
  recipient : tx.recipient = request.recipient
  value : tx.value = request.value
  input : tx.input = request.data
  authorizations : tx.authorizationList.getD [] = request.authorizations
  sender : A.recover tx signature = some request.sender

instance (A : Alloy) (request : EoaTransactionRequest) (tx : TypedTransaction)
    (signature : EcdsaSignature) : Decidable (Matches A request tx signature) :=
  decidable_of_iff (tx.chainId = some request.chainId ∧ tx.recipient = request.recipient ∧
    tx.value = request.value ∧ tx.input = request.data ∧
    tx.authorizationList.getD [] = request.authorizations ∧
    A.recover tx signature = some request.sender)
    ⟨fun ⟨h₁, h₂, h₃, h₄, h₅, h₆⟩ => ⟨h₁, h₂, h₃, h₄, h₅, h₆⟩,
      fun ⟨h₁, h₂, h₃, h₄, h₅, h₆⟩ => ⟨h₁, h₂, h₃, h₄, h₅, h₆⟩⟩

def validateSignedHash (A : Alloy) (tx : Signed) : Except WorkerError Unit :=
  if A.keccak256 (tx.wire A) ≠ tx.hash then
    .error (.recoveryRequired "Cached transaction hash does not match signed wire bytes")
  else .ok ()

def validateEoaWire (A : Alloy) (request : EoaTransactionRequest) (tx : Signed) :
    Except WorkerError Unit := do
  validateSignedHash A tx
  if ¬Matches A request tx.tx tx.signature then
    .error (.recoveryRequired "Signed transaction does not match its durable admission")
  else .ok ()

theorem matches_of_validateEoaWire {A : Alloy} {request : EoaTransactionRequest} {tx : Signed}
    (h : validateEoaWire A request tx = .ok ()) : Matches A request tx.tx tx.signature := by
  unfold validateEoaWire at h
  cases hv : validateSignedHash A tx with
  | error e => simp [hv, bind, Except.bind] at h
  | ok u =>
    by_contra hm
    simp [hv, bind, Except.bind, hm] at h

variable {X S α : Type} {B : X → Type} {R : S → Type} {P : Primitives}

/-- `EngineError`'s `Display`. -/
def errorText : EngineError → String
  | .rpcConfigError message => s!"Bad RPC configuration: {message}"
  | .recoveryPending message => s!"Recovery publication pending: {message}"
  | .internalError message => s!"Internal error: {message}"
  | .other message => message

def eoaError : EngineError → WorkerError
  | .recoveryPending message => .recoveryPending message
  | e => .recoveryRequired (errorText e)

/-- An executor's operation inside the EOA worker. -/
def eoa (x : Work B R EngineError α) : Work B R WorkerError α := ExceptT.adapt eoaError x

def validate (P : Primitives) (kind : Kind) (id : String) (payload : Json) :
    Work B R EngineError Unit :=
  journal (validatePayload P kind id payload)

/-- The durable authorization of one wire. -/
def beforeEoa (P : Primitives) (A : Alloy) (request : EoaTransactionRequest) (tx : Signed) :
    Work B R WorkerError Unit := do
  eoa (validate P .eoa request.transactionId (request.toJson P))
  lift (validateEoaWire A request tx)
  eoa (journal (invoke (.beforeBroadcast "eoa" request.transactionId
    (evmKey P request.chainId request.sender tx.tx.nonce) (eoaAttempt P A request tx))))

/-! ## What it establishes -/

/-- The wire carries out a request that is admitted under its id, and is committed there. -/
structure Backed (P : Primitives) (A : Alloy) (request : EoaTransactionRequest) (tx : Signed)
    (db : Database) : Prop where
  carries : Matches A request tx.tx tx.signature
  admitted : Admits .eoa request.transactionId (request.toJson P) db
  attempted : Attempted P request.transactionId
    (evmKey P request.chainId request.sender tx.tx.nonce) (eoaAttempt P A request tx) db

theorem Backed.extends {A : Alloy} {request : EoaTransactionRequest} {tx : Signed}
    {db db' : Database} (h : Backed P A request tx db) (he : db.Extends db') :
    Backed P A request tx db' :=
  ⟨h.carries, h.admitted.extends he, h.attempted.extends he⟩

section Specs

variable {Φ : S → Database → Prop} {w : World S}

theorem Does.eoa {x : Work B R EngineError α} {K : α → World S → Prop} (hx : Does P Φ w x K) :
    Does P Φ w (eoa x) K :=
  hx.adapt

theorem validate_does (kind : Kind) (id : String) (payload : Json) :
    Does P Φ w (validate P kind id payload : Work B R EngineError Unit)
      fun _ w' => Admits kind id payload w'.db :=
  (validatePayload_does kind id payload).journal

/-- **An authorized wire is backed by the journal.** -/
theorem beforeEoa_does (A : Alloy) (request : EoaTransactionRequest) (tx : Signed) :
    Does P Φ w (beforeEoa P A request tx : Work B R WorkerError Unit)
      fun _ w' => Backed P A request tx w'.db := by
  unfold beforeEoa
  have hvalid : Does P Φ w
      (eoa (validate P .eoa request.transactionId (request.toJson P)) : Work B R WorkerError Unit)
      fun _ w' => Admits .eoa request.transactionId (request.toJson P) w'.db :=
    Does.eoa (validate_does .eoa request.transactionId (request.toJson P))
  refine hvalid.bind fun _ w₁ _ hw₁ hadmit => ?_
  refine .check fun _ hwire => ?_
  have hcommit : Does P Φ w₁ (eoa (journal (invoke (.beforeBroadcast "eoa" request.transactionId
      (evmKey P request.chainId request.sender tx.tx.nonce) (eoaAttempt P A request tx)))) :
        Work B R WorkerError Unit) fun _ w' => Attempted P request.transactionId
      (evmKey P request.chainId request.sender tx.tx.nonce) (eoaAttempt P A request tx) w'.db :=
    Does.eoa beforeBroadcast_does.journal
  refine hcommit.mono fun _ w₂ hl _ hattempt => ?_
  exact ⟨matches_of_validateEoaWire hwire, hadmit.extends (hw₁.extends hl), hattempt⟩

end Specs

end EngineCore.Eoa.Wire
