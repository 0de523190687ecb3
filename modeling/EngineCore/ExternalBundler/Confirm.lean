import EngineCore.ExternalBundler.Send

/-!
# Confirming a user operation

One run of the confirmation handler. The bundler's receipt only says where to look: the outcome is
taken from the event of the entrypoint in the receipt that the chain itself gives, once that receipt
is final, and is recorded in the journal before it is reported.

* `useropIdentityMatches`, `useropEventMatches`: the checks on the two receipts;
* `validateDurableConfirmation`: the job against its admission and the recorded attempts;
* `Confirm.process`: one run. An age or a number of tries only changes the delay of the next run.
-/

namespace EngineCore.ExternalBundler

open Interact Recovery Executors
open Twmq (JobError BorrowedJob)
open Eoa (seconds)
open Eoa.Wire (errorText)
open Send (addressJson u256Json)

inductive UserOpConfirmationError
  | chainServiceError (chainId : ℕ) (message : String)
  | receiptNotAvailable (userOpHash : Bytes) (attemptNumber : ℕ)
  | receiptQueryFailed (userOpHash : Bytes) (message : String) (innerError : Option CallError)
  | finalityPending (message : String)
  | transactionFailed (receipt : UserOperationReceipt) (finality : FinalityEvidence)
  | internalError (message : String)
  | userCancelled
  deriving DecidableEq

structure UserOpConfirmationResult where
  userOpHash : Bytes
  receipt : UserOperationReceipt
  finality : FinalityEvidence
  deriving DecidableEq

structure ConfirmationOptions where
  maxConfirmationAttempts : ℕ := 50
  confirmationRetryDelay : ℕ := seconds 2

/-! ## The receipts -/

/-- The signature hash of
`UserOperationEvent(bytes32,address,address,uint256,bool,uint256,uint256)`. -/
def userOperationEventTopic : B256 :=
  0x49628fd1471006c1482da88028e9ce4dbb080b815c9b0344d39e5a8e6ec1419f

def useropIdentityMatches (job : UserOpConfirmationJobData) (receipt : UserOperationReceipt) :
    Bool :=
  job.userOpHash.length = 32 && receipt.userOpHash = job.userOpHash &&
    receipt.sender = job.accountAddress && receipt.nonce = job.nonce &&
    job.entrypointAddress = some receipt.entryPoint

/-- The log is the event of the job's operation. An address fills the low bytes of its topic. -/
def matchesLog (job : UserOpConfirmationJobData) (log : Log) : Bool :=
  !log.removed && some log.address = job.entrypointAddress &&
    match log.topics with
    | [topic, hash, sender, _] =>
      topic = userOperationEventTopic && hash = word job.userOpHash &&
        sender >>> 160 = 0 && sender.setWidth 160 = job.accountAddress
    | _ => false

/-- The words of the event: nonce, success, gas cost and gas used. -/
def matchesData (job : UserOpConfirmationJobData) (receipt : UserOperationReceipt) (data : Bytes) :
    Bool :=
  data.length = 128 && word (data.take 32) = job.nonce &&
    word ((data.drop 32).take 32) = (if receipt.success then 1 else 0) &&
    word ((data.drop 64).take 32) = receipt.actualGasCost &&
    word (data.drop 96) = receipt.actualGasUsed

def useropEventMatches (job : UserOpConfirmationJobData) (receipt : UserOperationReceipt)
    (canonical : TransactionReceipt) : Bool :=
  match canonical.logs.filter (matchesLog job) with
  | [log] => matchesData job receipt log.data
  | _ => false

/-- `status()`: a receipt with a state root counts as successful. -/
def TransactionReceipt.succeeded (receipt : TransactionReceipt) : Bool := receipt.status.getD true

/-- The chain's receipt bears out what the bundler says. -/
def corroborates (job : UserOpConfirmationJobData) (receipt : UserOperationReceipt)
    (canonical : TransactionReceipt) : Bool :=
  canonical.blockHash = receipt.blockHash && canonical.blockNumber = receipt.blockNumber &&
    canonical.succeeded && useropEventMatches job receipt canonical

namespace Confirm

abbrev Failure := JobError UserOpConfirmationError

abbrev Flow (α : Type) := Work Reply Ack Failure α

def provider : Provider Reply Ack := fun tag => Prog.query (Ask.outside (External.block tag))

/-! ## Records -/

def policyJson : FinalityPolicy → Json
  | .finalized => .obj [("mode", .str "finalized")]
  | .depth confirmations =>
    .obj [("mode", .str "depth"), ("confirmations", .num (.nat confirmations))]

def finalityJson (e : FinalityEvidence) : Json :=
  .obj [("blockNumber", .num (.nat e.blockNumber)), ("blockHash", .str (hashText e.blockHash)),
    ("checkpointNumber", .num (.nat e.checkpointNumber)),
    ("checkpointHash", .str (hashText e.checkpointHash)), ("policy", policyJson e.policy)]

section Runs

variable (P : Primitives) (K : Library) (options : ConfirmationOptions)
variable (job : BorrowedJob UserOpConfirmationJobData)

def durableIdentity (d : UserOpConfirmationJobData) : List (String × Json) :=
  [("chainId", .num (.nat d.chainId)), ("userOperationHash", .str (Hex.text d.userOpHash)),
    ("entrypoint", (d.entrypointAddress.map (addressJson P)).getD .null),
    ("sender", addressJson P d.accountAddress), ("nonce", u256Json d.nonce)]

def durableUseropIdentity (d : UserOpConfirmationJobData) : Json := .obj (durableIdentity P d)

def outcomeText (success : Bool) : String := if success then "success" else "reverted"

def proof (d : UserOpConfirmationJobData) (canonical : TransactionReceipt) (success : Bool)
    (finality : FinalityEvidence) : Json :=
  .obj (durableIdentity P d ++ [("transactionHash", .str (hashText canonical.transactionHash)),
    ("outcome", .str (outcomeText success)), ("finality", finalityJson finality)])

/-! ## The durable identity -/

def invalidIdentity : EngineError :=
  .internalError "Confirmation does not match its durable admission and broadcast identity"

/-- The job is the one a success of the admitted request leaves. -/
def agreesWith (d : UserOpConfirmationJobData) (admitted : ExternalBundlerSendJobData) : Bool :=
  admitted.transactionId = d.transactionId && admitted.chainId = d.chainId &&
    admitted.pregeneratedNonce = some d.nonce &&
    d.entrypointAddress = some admitted.entrypointAddress &&
    admitted.rpcCredentials = d.rpcCredentials && admitted.webhookOptions = d.webhookOptions

def validateDurableConfirmation (d : UserOpConfirmationJobData) : Work Reply Ack EngineError Unit := do
  match ← journal (read (.admission .erc4337 d.transactionId)) with
  | none => throw invalidIdentity
  | some record =>
    match K.decodeJob record.payload with
    | none => throw invalidIdentity
    | some admitted =>
      if record.state = .quarantined ∨ agreesWith d admitted = false then throw invalidIdentity
      else journal (validateAttemptIdentity .erc4337 d.transactionId (durableUseropIdentity P d))

/-! ## One run -/

def maxConfirmationJobAge : ℕ := 24 * 60 * 60

def retryDelay (age : ℕ) : ℕ :=
  if maxConfirmationJobAge < age then seconds 3600
  else if options.maxConfirmationAttempts ≤ job.attempts then
    max options.confirmationRetryDelay (seconds 10)
  else options.confirmationRetryDelay

def again (delay : ℕ) (e : UserOpConfirmationError) : Failure := .nack e (some delay) .last

/-- An operation whose errors are tried again. -/
def retrying {α : Type} (delay : ℕ) (wrap : EngineError → UserOpConfirmationError)
    (x : Work Reply Ack EngineError α) : Flow α :=
  ExceptT.adapt (recoveryNack wrap delay) x

def answered {ε α : Type} (delay : ℕ) (wrap : ε → UserOpConfirmationError) (r : Except ε α) :
    Flow α :=
  orElse (fun e => again delay (wrap e)) r

def queryFailed (d : UserOpConfirmationJobData) (e : CallError) : UserOpConfirmationError :=
  .receiptQueryFailed d.userOpHash e.text (some e)

/-- The receipt of the bundler and the chain's own, which bears it out. -/
def corroborated (delay : ℕ) : Flow (UserOperationReceipt × TransactionReceipt) := do
  let d := job.data
  match ← answered delay (queryFailed d) (← inquire (.userOpReceipt d.userOpHash)) with
  | none => throw (again delay (.receiptNotAvailable d.userOpHash job.attempts))
  | some receipt =>
    if useropIdentityMatches d receipt = false then
      throw (again delay (.finalityPending
        "Bundler receipt does not match persisted operation identity"))
    else
      match ← answered delay (queryFailed d)
          (← inquire (.transactionReceipt receipt.transactionHash)) with
      | none => throw (again delay (.finalityPending "Chain receipt unavailable"))
      | some canonical =>
        if corroborates d receipt canonical = false then
          throw (again delay (.finalityPending
            "Bundler outcome is not corroborated by the chain receipt"))
        else return (receipt, canonical)

/-- The outcome of the job, recorded in the journal. -/
def settle (delay : ℕ) (chain : Finality.Chain) :
    Flow (UserOperationReceipt × FinalityEvidence) := do
  let d := job.data
  let _ ← retrying delay (fun e => .receiptQueryFailed d.userOpHash
    "Finality checkpoint continuity unavailable" (some (.other e))) (checkContinuity provider chain)
  let (receipt, canonical) ← corroborated job delay
  match ← retrying delay (fun e => .receiptQueryFailed d.userOpHash "Finality query failed"
      (some (.other e))) (assess provider chain receipt.transactionHash canonical.toReceipt) with
  | .finalized finality => do
    retrying delay (fun e => .internalError (errorText e)) (journal (invoke (.recordTerminal
      "erc4337" d.transactionId (proof P d canonical receipt.success finality))))
    return (receipt, finality)
  | _ => throw (again delay (.finalityPending
      "Operation is not canonically settled under the configured policy"))

/-- The chain of the job, once the job has been found to be a durable one. -/
def admittedChain (delay : ℕ) : Flow Finality.Chain := do
  let d := job.data
  if job.id ≠ d.transactionId then
    throw (again delay (.internalError "Confirmation queue ID differs from admitted transaction ID"))
  else do
    retrying delay (fun e => .internalError (errorText e)) (validateDurableConfirmation P K d)
    let policy ← answered delay (fun e => .chainServiceError d.chainId
      s!"Failed to get chain instance: {e}") (← inquire (.getChain d.chainId))
    answered delay (fun e => .internalError
      s!"Bad RPC Credential values, unserialisable into headers: {e}") (K.headerMap d.rpcCredentials)
    return ⟨d.chainId, policy⟩

def report (d : UserOpConfirmationJobData) (receipt : UserOperationReceipt)
    (finality : FinalityEvidence) : Except Failure UserOpConfirmationResult :=
  if receipt.success then .ok ⟨d.userOpHash, receipt, finality⟩
  else .error (.fail (.transactionFailed receipt finality))

def process : Flow UserOpConfirmationResult := do
  let delay := retryDelay options job ((← inquire .now) - job.createdAt)
  let chain ← admittedChain P K job delay
  let (receipt, finality) ← settle P job delay chain
  lift (report job.data receipt finality)

end Runs

end Confirm

end EngineCore.ExternalBundler
