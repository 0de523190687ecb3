import EngineCore.Eoa.Outcome
import EngineCore.Executors.Settlement

/-!
# The Solana executor

One run of the handler: it takes a lock in Redis, looks for an attempt in Redis and in the journal,
reconciles what it finds, and otherwise builds, signs and reserves one. Answers of Redis, of the node
and of the signer may be anything; a lock may be lost at any moment.

* `SolanaTransactionAttempt`, `Sdk`: an attempt, and the library that encodes and verifies wires;
* `validatedAttemptWire`, `durableAttemptPayload`: the checks on a wire and what is recorded of it;
* `authorizeAttempt`, `restoreRetainedAttempt`, `broadcastAttempt`: the steps towards a send;
* `executeTransaction`, `process`: one run. The deadline of a run drops it: the run is lost.
-/

namespace EngineCore.Solana

open Interact Recovery Executors
open Twmq (JobError)
open Eoa (contains seconds millis)

/-! ## Wires and attempts -/

abbrev Hash := BitVec 256

abbrev Pubkey := BitVec 256

/-- A versioned transaction; `body` stands for the instructions of its message. -/
structure VersionedTransaction where
  signatures : List Signature
  recentBlockhash : Hash
  accountKeys : List Pubkey
  usesDurableNonce : Bool
  body : List UInt8
  deriving DecidableEq, Repr

structure SolanaTransactionAttempt where
  signature : Signature
  blockhash : Hash
  blockhashLastValidHeight : Option ℕ
  signedTransaction : Option String
  broadcastAttempts : ℕ := 0
  lastBroadcastAt : ℕ := 0
  reconciliationChecks : ℕ := 0
  restoredFromJournal : Bool := false
  sentAt : ℕ
  submissionAttemptNumber : ℕ
  deriving DecidableEq, Repr

/-- The library of the chain, and the decoder of a stored attempt. -/
structure Sdk where
  encode : VersionedTransaction → Option (List UInt8)
  decode : List UInt8 → Option VersionedTransaction
  /-- `verify_and_hash_message` succeeds. -/
  verify : VersionedTransaction → Bool
  base64 : List UInt8 → String
  unbase64 : String → Option (List UInt8)
  hashText : Hash → String
  attempt : Json → Option SolanaTransactionAttempt

/-- `SolanaExecutorJobData`: what the executor reads of a request, and the request as encoded. -/
structure SolanaExecutorJobData where
  transactionId : String
  chainId : String
  signerAddress : Pubkey
  serialized : Bool
  payload : Json

inductive SolanaExecutorError
  | transactionBuildFailed (innerError : String)
  | blockhashNotVisible
  | signingFailed (innerError : EngineError)
  | sendFailed (innerError : EngineError)
  | transactionFailed (reason : String)
  | rpcError (innerError : EngineError)
  | priorityFeeError (innerError : EngineError)
  | maxRetriesExceeded (maxRetries : ℕ)
  | transactionSent (signature : String) (submissionAttemptNumber : ℕ)
  | notYetConfirmed (signature : String)
  | lockHeldByAnotherWorker
  | lockLost
  | internalError (message : String)
  | recoveryRequired (signature reason : String)
  | userCancelled

structure SolanaExecutorResult where
  transactionId : String
  signature : String
  signerAddress : Pubkey
  chainId : String
  submissionAttemptNumber : ℕ
  slot : ℕ
  blockTime : Option ℤ
  transaction : Json

/-! ## Constants and errors -/

def confirmationRetryDelay : ℕ := millis 200

def networkErrorRetryDelay : ℕ := seconds 2

def maxSendAttemptsWithoutTransaction : ℕ := 500

def maxReconciliationChecks : ℕ := 500

def maxBroadcastsPerAttempt : ℕ := 20

def recoveryParkDelay : ℕ := seconds 3600

abbrev Failure := JobError SolanaExecutorError

def nackLast (e : SolanaExecutorError) (delay : ℕ) : Failure := .nack e (some delay) .last

def park (P : Primitives) (attempt : SolanaTransactionAttempt) (reason : String) : Failure :=
  nackLast (.recoveryRequired (P.signatureText attempt.signature) reason) recoveryParkDelay

/-- A pending publication is tried again soon; every other recovery error is parked. -/
def recoveryNack : EngineError → Failure
  | .recoveryPending message => nackLast (.rpcError (.recoveryPending message)) (seconds 2)
  | e => nackLast (.rpcError e) recoveryParkDelay

def rpcError (e : EngineError) : Failure := nackLast (.rpcError e) networkErrorRetryDelay

/-- `handle_redis_error`, given the text of the error. -/
def handleRedisError (text : String) : Failure :=
  if contains text "lock lost" then nackLast .lockLost confirmationRetryDelay
  else nackLast (.internalError s!"Redis error: {text}") networkErrorRetryDelay

/-! ## What a run asks and sends -/

inductive LockError
  | alreadyLocked
  | redisError (message : String)

/-- A status of `getSignatureStatuses`. `statusError` is the error of its second field `status`. -/
structure TransactionStatus where
  slot : ℕ
  err : Option String
  statusError : Option String
  satisfiesFinalized : Bool
  confirmedFinalized : Bool

structure SignatureStatuses where
  contextSlot : ℕ
  value : List (Option TransactionStatus)

/-- A transaction with its metadata; `signatures` are there if it came in the asked encoding. -/
structure TransactionDetails where
  signatures : Option (List String)
  slot : ℕ
  metaError : Option (Option String)
  blockTime : Option ℤ
  transaction : Json

inductive External
  | now
  | tryAcquireLock
  | stillHeld
  | release
  | getVerified
  | getAttempt
  | updateAttempt (attempt : SolanaTransactionAttempt)
  | storeAttemptIfNotExists (attempt : SolanaTransactionAttempt)
  | signatureStatuses (signature : Signature)
  | transaction (signature : Signature)
  | blockHeight
  | isBlockhashValid (hash : Hash)
  | latestBlockhash
  | build (hash : Hash)
  | sign (tx : VersionedTransaction)

@[reducible] def Reply : External → Type
  | .now => ℕ
  | .tryAcquireLock => Except LockError Unit
  | .stillHeld => Except String Bool
  | .release => Except String Unit
  | .getVerified => Except EngineError Unit
  | .getAttempt => Except String (Option SolanaTransactionAttempt)
  | .updateAttempt _ => Except String Unit
  | .storeAttemptIfNotExists _ => Except String Bool
  | .signatureStatuses _ => Except EngineError SignatureStatuses
  | .transaction _ => Except EngineError TransactionDetails
  | .blockHeight => Except EngineError ℕ
  | .isBlockhashValid _ => Except EngineError Bool
  | .latestBlockhash => Except EngineError (Hash × ℕ)
  | .build _ => Except Failure VersionedTransaction
  | .sign _ => Except EngineError VersionedTransaction

/-- `sendTransaction`: the id of the request and the wire. -/
structure Dispatch where
  id : String
  wire : String
  deriving DecidableEq, Repr

@[reducible] def Ack (_ : Dispatch) : Type := Except EngineError String

abbrev Flow (α : Type) := Work Reply Ack Failure α

def inquire (x : External) : Flow (Reply x) := ask x

def sendTransaction (d : Dispatch) : Flow (Except EngineError String) := send d

def stored {α : Type} (r : Except String α) : Flow α := lift (r.mapError handleRedisError)

def rpc {α : Type} (r : Except EngineError α) : Flow α := lift (r.mapError rpcError)

/-- An operation on the journal inside a run. -/
def recovery {α : Type} (x : Work Reply Ack EngineError α) : Flow α := ExceptT.adapt recoveryNack x

section Runs

variable (P : Primitives) (K : Sdk) (job : SolanaExecutorJobData)

/-! ## Records -/

def SolanaTransactionAttempt.toJson (a : SolanaTransactionAttempt) : Json :=
  .obj ([("signature", .str (P.signatureText a.signature)),
    ("blockhash", .str (K.hashText a.blockhash)),
    ("blockhash_last_valid_height",
      (a.blockhashLastValidHeight.map fun n => Json.num (.nat n)).getD .null),
    ("signed_transaction", (a.signedTransaction.map Json.str).getD .null),
    ("broadcast_attempts", .num (.nat a.broadcastAttempts)),
    ("last_broadcast_at", .num (.nat a.lastBroadcastAt)),
    ("reconciliation_checks", .num (.nat a.reconciliationChecks))] ++
    (if a.restoredFromJournal then [("restored_from_journal", .bool true)] else []) ++
    [("sent_at", .num (.nat a.sentAt)),
      ("submission_attempt_number", .num (.nat a.submissionAttemptNumber))])

/-- What is recorded of an attempt: the counters of Redis are left out. -/
def durableAttemptPayload (a : SolanaTransactionAttempt) : Json :=
  .obj [("chainId", .str job.chainId), ("signature", .str (P.signatureText a.signature)),
    ("attempt", SolanaTransactionAttempt.toJson P K { a with
      broadcastAttempts := 0, lastBroadcastAt := 0, reconciliationChecks := 0
      restoredFromJournal := false })]

/-- The wire is one of the attempt's own identity, signed by the request's signer. -/
structure Genuine (a : SolanaTransactionAttempt) (bytes : List UInt8) (tx : VersionedTransaction) :
    Prop where
  signature : tx.signatures.head? = some a.signature
  blockhash : tx.recentBlockhash = a.blockhash
  signer : tx.accountKeys.head? = some job.signerAddress
  nonce : tx.usesDurableNonce = false
  verified : K.verify tx = true
  encoded : K.encode tx = some bytes

instance (a : SolanaTransactionAttempt) (bytes : List UInt8) (tx : VersionedTransaction) :
    Decidable (Genuine K job a bytes tx) :=
  decidable_of_iff (tx.signatures.head? = some a.signature ∧ tx.recentBlockhash = a.blockhash ∧
    tx.accountKeys.head? = some job.signerAddress ∧ tx.usesDurableNonce = false ∧
    K.verify tx = true ∧ K.encode tx = some bytes)
    ⟨fun ⟨h₁, h₂, h₃, h₄, h₅, h₆⟩ => ⟨h₁, h₂, h₃, h₄, h₅, h₆⟩,
      fun ⟨h₁, h₂, h₃, h₄, h₅, h₆⟩ => ⟨h₁, h₂, h₃, h₄, h₅, h₆⟩⟩

def validatedAttemptWire (a : SolanaTransactionAttempt) : Except Failure String :=
  match a.signedTransaction with
  | none => .error (park P a "missing signed bytes")
  | some wire =>
    match K.unbase64 wire with
    | none => .error (park P a "invalid persisted wire encoding")
    | some bytes =>
      match K.decode bytes with
      | none => .error (park P a "invalid persisted transaction")
      | some tx =>
        if ¬Genuine K job a bytes tx then
          .error (park P a "persisted transaction identity does not match its attempt or signer")
        else .ok wire

/-! ## The lock and the journal -/

def verifyLock : Flow Unit := do
  match ← inquire .stillHeld with
  | .ok true => return ()
  | .ok false => throw (nackLast .lockLost confirmationRetryDelay)
  | .error e =>
    throw (nackLast (.internalError s!"Failed to check lock: {e}") networkErrorRetryDelay)

/-- Reserve the attempt's signature and wire, or find them reserved. -/
def authorizeAttempt (a : SolanaTransactionAttempt) : Flow Unit :=
  if a.restoredFromJournal then
    throw (park P a "restored attempts require a durable recovery send grant")
  else do
    recovery (journal (validatePayload P .solana job.transactionId job.payload))
    recovery (journal (invoke (.beforeBroadcast "solana" job.transactionId
      (solanaKey P job.chainId a.signature) (durableAttemptPayload P K job a))))

def invalidRetained : Failure :=
  nackLast (.internalError ("Retained Solana attempt is missing, inconsistent or unsupported; " ++
    "reconcile before execution")) recoveryParkDelay

/-- The retained attempt, as it is put back into Redis. -/
def retainedAttempt (binding : String) (retained : RetainedSolanaAttempt) :
    Except Failure SolanaTransactionAttempt :=
  match (retained.payload.get? "attempt").bind K.attempt with
  | none => .error invalidRetained
  | some a =>
    if retained.replayKey ≠ binding ∨ binding ≠ solanaKey P job.chainId a.signature ∨
        durableAttemptPayload P K job a ≠ retained.payload ∨
        maxBroadcastsPerAttempt < retained.recoveryBroadcasts then
      .error invalidRetained
    else do
      let _ ← validatedAttemptWire P K job a
      return { a with
        restoredFromJournal := true, broadcastAttempts := retained.recoveryBroadcasts
        lastBroadcastAt := retained.lastRecoveryBroadcastAt, reconciliationChecks := 0 }

/-- Put the retained attempt back into Redis. A value that is there meanwhile wins. -/
def restoreRetainedAttempt (binding : String) : Flow SolanaTransactionAttempt := do
  match ← recovery (journal (invoke (.prepareSolanaRestore job.transactionId job.payload))) with
  | none => throw invalidRetained
  | some retained => do
    let a ← lift (retainedAttempt P K job binding retained)
    if ← stored (← inquire (.storeAttemptIfNotExists a)) then do
      verifyLock
      return a
    else
      throw (nackLast (.internalError ("Solana attempt appeared during restoration; " ++
        "retry under its existing identity")) networkErrorRetryDelay)

/-! ## Reconciliation -/

def inconsistent (message : String) : Failure :=
  nackLast (.internalError message) networkErrorRetryDelay

/-- The details belong to the signature, the slot and the outcome of the status. -/
def detailsMatch (text : String) (status : TransactionStatus) (details : TransactionDetails) :
    Bool :=
  (details.signatures.bind List.head?) = some text && details.slot = status.slot &&
    details.metaError = some status.err

/-- Where a status is known, the outcome of the run; `none` where the node knows of no execution. -/
def reconcileStatus (confirmationPollInterval : ℕ) (a : SolanaTransactionAttempt) :
    Flow (Option (Except Failure SolanaExecutorResult)) := do
  let statuses ← rpc (← inquire (.signatureStatuses a.signature))
  match statuses.value with
  | [none] => return none
  | [some status] =>
    if status.err ≠ status.statusError ∨ statuses.contextSlot < status.slot then
      throw (inconsistent "RPC returned inconsistent transaction status")
    else if ¬status.satisfiesFinalized ∨ ¬status.confirmedFinalized then
      return some (.error (nackLast (.notYetConfirmed (P.signatureText a.signature))
        confirmationPollInterval))
    else do
      let details ← rpc (← inquire (.transaction a.signature))
      if ¬detailsMatch (P.signatureText a.signature) status details then
        throw (inconsistent "Inconsistent transaction receipt; retry reconciliation")
      else do
        recovery (journal (invoke (.recordTerminal "solana" job.transactionId
          (.obj [("chainId", .str job.chainId),
            ("signature", .str (P.signatureText a.signature)), ("slot", .num (.nat details.slot)),
            ("commitment", .str "finalized"),
            ("outcome", .str (if status.err.isNone then "success" else "reverted"))]))))
        match status.err with
        | some e => return some (.error (.fail (.transactionFailed e)))
        | none => return some (.ok ⟨job.transactionId, P.signatureText a.signature,
            job.signerAddress, job.chainId, a.submissionAttemptNumber, details.slot,
            details.blockTime, details.transaction⟩)
  | _ => throw (inconsistent "RPC returned wrong status count")

/-! ## Broadcast -/

/-- The last steps of a send: the attempt as counted in Redis, the lock, the authorization of an
original send, the wire. -/
def dispatchAttempt (confirmationPollInterval : ℕ) (a : SolanaTransactionAttempt) (wire : String) :
    Flow SolanaExecutorResult := do
  stored (← inquire (.updateAttempt a))
  verifyLock
  if ¬a.restoredFromJournal then authorizeAttempt P K job a
  match ← sendTransaction ⟨job.transactionId, wire⟩ with
  | .ok signature =>
    if signature = P.signatureText a.signature then
      throw (nackLast (.transactionSent signature a.submissionAttemptNumber)
        confirmationPollInterval)
    else throw (inconsistent "RPC returned a different signature; reconcile persisted transaction")
  | .error e => throw (nackLast (.sendFailed e) networkErrorRetryDelay)

def broadcastAttempt (confirmationPollInterval : ℕ) (a : SolanaTransactionAttempt) :
    Flow SolanaExecutorResult := do
  let now ← inquire .now
  if maxBroadcastsPerAttempt ≤ a.broadcastAttempts ∨
      (a.lastBroadcastAt ≠ 0 ∧ now - a.lastBroadcastAt < 2000) then
    throw (nackLast (.notYetConfirmed (P.signatureText a.signature)) confirmationPollInterval)
  else do
    let wire ← lift (validatedAttemptWire P K job a)
    if a.restoredFromJournal then do
      match ← recovery (journal (invoke (.beforeSolanaRecoveryBroadcast job.transactionId
        job.payload (durableAttemptPayload P K job a)))) with
      | .granted broadcasts atMs =>
        dispatchAttempt P K job confirmationPollInterval
          { a with broadcastAttempts := broadcasts, lastBroadcastAt := atMs } wire
      | .wait retryAfterMs =>
        throw (nackLast (.notYetConfirmed (P.signatureText a.signature)) (millis retryAfterMs))
      | .exhausted =>
        throw (nackLast (.notYetConfirmed (P.signatureText a.signature)) confirmationPollInterval)
    else
      dispatchAttempt P K job confirmationPollInterval
        { a with broadcastAttempts := a.broadcastAttempts + 1, lastBroadcastAt := now } wire

/-! ## One run -/

/-- The attempt of Redis, or the retained one where Redis lost it. -/
def boundAttempt (binding : String) : Option SolanaTransactionAttempt → Flow SolanaTransactionAttempt
  | some a => pure a
  | none => restoreRetainedAttempt P K job binding

/-- The attempt the run goes on with. The flag says that the journal knows the final outcome. -/
def knownAttempt (found : Option SolanaTransactionAttempt) :
    Flow (Option SolanaTransactionAttempt × Bool) := do
  match ← recovery (journal (read (.admission .solana job.transactionId))) with
  | none => return (found, false)
  | some record =>
    match record.replayKey with
    | none =>
      if found.isSome then
        throw (nackLast (.internalError ("Redis contains an attempt without a durable signature " ++
          "reservation; reconcile it before signing or broadcasting")) recoveryParkDelay)
      else return (none, record.state = .terminal)
    | some binding => do
      let a ← boundAttempt P K job binding found
      if binding ≠ solanaKey P job.chainId a.signature then
        throw (nackLast (.internalError ("Durable signature binding exists but Redis attempt is " ++
          "missing or changed; restore and reconcile before signing")) recoveryParkDelay)
      else return (some a, record.state = .terminal)

/-- Whether the blockhash of the attempt has expired. A serialized input has no expiry height: an
invalid blockhash ends the run. -/
def hasExpired (confirmationPollInterval : ℕ) (a : SolanaTransactionAttempt) :
    Flow (Except (Except Failure SolanaExecutorResult) Bool) :=
  match a.blockhashLastValidHeight with
  | some height => do
    let current ← rpc (← inquire .blockHeight)
    return .ok (height < current)
  | none => do
    if ← rpc (← inquire (.isBlockhashValid a.blockhash)) then return .ok false
    else do
      match ← reconcileStatus P job confirmationPollInterval a with
      | some result => return .error result
      | none =>
        return .error (.error (park P a "serialized blockhash no longer valid; expiry height unknown"))

/-- Reconcile an attempt, and send its wire again while its blockhash lives. -/
def reconcile (confirmationPollInterval : ℕ) (journalTerminal : Bool)
    (a : SolanaTransactionAttempt) : Flow SolanaExecutorResult := do
  if maxReconciliationChecks ≤ a.reconciliationChecks ∧ ¬journalTerminal then
    throw (park P a "reconciliation budget exhausted; resume explicitly")
  else do
    let a := { a with reconciliationChecks := a.reconciliationChecks + 1 }
    stored (← inquire (.updateAttempt a))
    match ← reconcileStatus P job confirmationPollInterval a with
    | some result => lift result
    | none =>
      if journalTerminal then
        throw (park P a "Durable final outcome awaits matching RPC evidence before Redis cleanup")
      else if a.signedTransaction.isNone then
        throw (park P a "legacy attempt lacks signed bytes")
      else do
        match ← hasExpired P job confirmationPollInterval a with
        | .error result => lift result
        | .ok false => broadcastAttempt P K job confirmationPollInterval a
        | .ok true => do
          match ← reconcileStatus P job confirmationPollInterval a with
          | some result => lift result
          | none => throw (park P a ("blockhash expired but execution outcome is unknown; " ++
              "automatic re-signing disabled"))

/-- The blockhash to build with, and its expiry height. A serialized input keeps its own. -/
def recentBlockhash : Flow (Hash × Option ℕ) :=
  if job.serialized then pure (0, none)
  else do
    let latest ← rpc (← inquire .latestBlockhash)
    return (latest.1, some latest.2)

/-- Whether the node knows the blockhash of a serialized input. -/
def blockhashVisible (tx : VersionedTransaction) : Flow Bool :=
  if job.serialized then do rpc (← inquire (.isBlockhashValid tx.recentBlockhash))
  else pure true

def signAttempt (height : Option ℕ) (tx : VersionedTransaction) :
    Flow SolanaTransactionAttempt := do
  let signed ← lift (Except.mapError (fun e => .fail (.signingFailed e)) (← inquire (.sign tx)))
  match signed.signatures with
  | [] => throw (.fail (.transactionBuildFailed "Signed transaction has no signature"))
  | signature :: _ =>
    match K.encode signed with
    | none => throw (.fail (.transactionBuildFailed "cannot encode transaction"))
    | some bytes => do
      let now ← inquire .now
      return ⟨signature, tx.recentBlockhash, height, some (K.base64 bytes), 0, 0, 0, false, now, 1⟩

/-- Build and sign the first attempt of a request. -/
def buildAttempt : Flow SolanaTransactionAttempt := do
  let recent ← recentBlockhash job
  let tx ← lift (← inquire (.build recent.1))
  if job.serialized ∧ tx.usesDurableNonce then
    throw (.fail (.transactionBuildFailed
      "Durable nonce transactions require a separate recovery policy"))
  else if ← blockhashVisible job tx then signAttempt K recent.2 tx
  else throw (nackLast .blockhashNotVisible networkErrorRetryDelay)

/-- The first attempt: it is reserved in the journal, then put into Redis, then sent. -/
def firstAttempt (confirmationPollInterval : ℕ) : Flow SolanaExecutorResult := do
  let a ← buildAttempt K job
  authorizeAttempt P K job a
  if ← stored (← inquire (.storeAttemptIfNotExists a)) then
    broadcastAttempt P K job confirmationPollInterval a
  else throw (nackLast .lockLost confirmationRetryDelay)

def executeTransaction (confirmationPollInterval jobAttemptNumber : ℕ) :
    Flow SolanaExecutorResult := do
  verifyLock
  let found ← stored (← inquire .getAttempt)
  match ← knownAttempt P K job found with
  | (some a, journalTerminal) => reconcile P K job confirmationPollInterval journalTerminal a
  | (none, _) =>
    if maxSendAttemptsWithoutTransaction < jobAttemptNumber then
      throw (.fail (.maxRetriesExceeded maxSendAttemptsWithoutTransaction))
    else firstAttempt P K job confirmationPollInterval

def process (confirmationPollInterval jobAttemptNumber : ℕ) : Flow SolanaExecutorResult := do
  recovery (validateReconciliationPayload .solana job.transactionId job.payload)
  match ← inquire .tryAcquireLock with
  | .error .alreadyLocked => throw (nackLast .lockHeldByAnotherWorker confirmationRetryDelay)
  | .error (.redisError message) => throw (inconsistent message)
  | .ok _ => do
    let result ← capture (do
      rpc (← inquire .getVerified)
      executeTransaction P K job confirmationPollInterval jobAttemptNumber)
    let _ ← inquire .release
    lift result

end Runs

end EngineCore.Solana
