import EngineCore.Eoa.Wire

/-!
# User operations

What the send and the confirmation of an ERC-4337 request share: the job, what a send records in the
journal before it hands its operation to the bundler, what a success leaves to the confirmation, and
what a run may ask. Answers of nodes and of the bundler may be anything.
-/

namespace EngineCore.ExternalBundler

open Interact Recovery Executors
open Twmq (JobError BorrowedJob)
open Eoa (seconds)
open Eoa.Wire (errorText)

abbrev U256 := BitVec 256

abbrev Bytes := List UInt8

/-- `B256::from_slice` and `U256::from_be_slice` of 32 bytes. -/
def word (bytes : Bytes) : BitVec 256 :=
  BitVec.ofNat 256 (bytes.foldl (fun n b => 256 * n + b.toNat) 0)

/-! ## Requests -/

/-- `ExternalBundlerSendJobData`. The calls, the credentials and the webhooks are as encoded;
`gasLimits` are those of the calls. -/
structure ExternalBundlerSendJobData where
  transactionId : String
  chainId : ℕ
  transactions : Json
  gasLimits : List (Option ℕ)
  signerAddress : Address
  smartAccountAddress : Option Address
  accountSalt : String
  entrypointAddress : Address
  factoryAddress : Address
  signingCredential : Json
  webhookOptions : Json
  rpcCredentials : Json
  pregeneratedNonce : Option U256
  deriving DecidableEq

/-- `VersionedUserOp`, as its encoding. -/
structure VersionedUserOp where
  json : Json
  deriving DecidableEq

/-- The parts of the libraries a run needs: the encoding of a request and HTTP headers. -/
structure Library where
  encodeJob : ExternalBundlerSendJobData → Json
  decodeJob : Json → Option ExternalBundlerSendJobData
  headerMap : Json → Except String Unit

/-! ## Errors -/

/-- The `EngineError` of a call: those of a provider come with their text. -/
inductive CallError
  | provider (text : String)
  | other (error : EngineError)
  deriving DecidableEq, Repr

def CallError.text : CallError → String
  | .provider text => text
  | .other error => errorText error

/-- `recovery::nack`: only a pending publication bypasses the delay of the caller. -/
def recoveryNack {ε : Type} (wrap : EngineError → ε) (delay : ℕ) : EngineError → JobError ε
  | .recoveryPending message => .nack (wrap (.recoveryPending message)) (some (seconds 2)) .last
  | e => .nack (wrap e) (some delay) .last

/-! ## What a run asks and sends -/

structure Log where
  removed : Bool
  address : Address
  topics : List B256
  data : Bytes
  deriving DecidableEq, Repr

/-- `TransactionReceipt`: what an assessment reads of it, and its logs. -/
structure TransactionReceipt extends Finality.Receipt where
  logs : List Log
  deriving DecidableEq, Repr

/-- `UserOperationReceipt`, with the transaction hash and the block of its inner receipt. -/
structure UserOperationReceipt where
  userOpHash : Bytes
  entryPoint : Address
  sender : Address
  nonce : U256
  actualGasCost : U256
  actualGasUsed : U256
  success : Bool
  transactionHash : B256
  blockHash : Option B256
  blockNumber : Option ℕ
  deriving DecidableEq, Repr

inductive External
  | now
  | getChain (chainId : ℕ)
  | userOpReceipt (hash : Bytes)
  | transactionReceipt (hash : B256)
  | block (tag : Finality.BlockNumberOrTag)

/-- The answers. A chain comes with its finality policy. -/
@[reducible] def Reply : External → Type
  | .now => ℕ
  | .getChain _ => Except String FinalityPolicy
  | .userOpReceipt _ => Except CallError (Option UserOperationReceipt)
  | .transactionReceipt _ => Except CallError (Option TransactionReceipt)
  | .block tag => Finality.Block tag

/-- `eth_sendUserOperation`: the id of the request, its operation and the entrypoint. -/
structure Dispatch where
  id : String
  userOp : VersionedUserOp
  entrypoint : Address
  deriving DecidableEq

@[reducible] def Ack (_ : Dispatch) : Type := Except CallError Bytes

def inquire {ε : Type} (x : External) : Work Reply Ack ε (Reply x) := ask x

def orElse {ε ε' α : Type} (f : ε → ε') (r : Except ε α) : Work Reply Ack ε' α := lift (r.mapError f)

structure ExternalBundlerSendResult where
  accountAddress : Address
  nonce : U256
  userOpHash : Bytes
  userOperationSent : VersionedUserOp
  deploymentLockAcquired : Bool
  deploymentLockId : Option String
  deriving DecidableEq

namespace Send

/-! ## What a send reserves -/

section Reservation

variable (P : Primitives) (job : BorrowedJob ExternalBundlerSendJobData)

/-- The account, the lock and the signed operation of a run. -/
structure Built where
  account : Address
  nonce : U256
  lockId : Option String
  userOp : VersionedUserOp

def u256Json (n : U256) : Json := .str (Hex.quantity n.toNat)

def addressJson (a : Address) : Json := .str (P.addressText a)

/-- What is recorded of an operation before it is sent. -/
def attemptPayload (built : Built) : Json :=
  .obj [("chainId", .num (.nat job.data.chainId)), ("sender", addressJson P built.account),
    ("entrypoint", addressJson P job.data.entrypointAddress), ("nonce", u256Json built.nonce),
    ("userOperation", built.userOp.json)]

def replayKey (built : Built) : String :=
  erc4337Key P job.data.chainId job.data.entrypointAddress built.account built.nonce.toNat

end Reservation

end Send

/-! ## What a success leaves -/

structure UserOpConfirmationJobData where
  transactionId : String
  chainId : ℕ
  accountAddress : Address
  userOpHash : Bytes
  nonce : U256
  entrypointAddress : Option Address
  deploymentLockAcquired : Bool
  deploymentLockId : Option String
  webhookOptions : Json
  rpcCredentials : Json
  originalQueuedTimestamp : Option ℕ
  deriving DecidableEq

/-- The job that `on_success` queues. -/
def confirmationJob (job : BorrowedJob ExternalBundlerSendJobData)
    (result : ExternalBundlerSendResult) : UserOpConfirmationJobData where
  transactionId := job.data.transactionId
  chainId := job.data.chainId
  accountAddress := result.accountAddress
  userOpHash := result.userOpHash
  nonce := result.nonce
  entrypointAddress := some job.data.entrypointAddress
  deploymentLockAcquired := result.deploymentLockAcquired
  deploymentLockId := result.deploymentLockId
  webhookOptions := job.data.webhookOptions
  rpcCredentials := job.data.rpcCredentials
  originalQueuedTimestamp := some job.createdAt

end EngineCore.ExternalBundler
