import EngineCore.Eoa.Broadcast
import EngineCore.Eoa.Fees

/-!
# The ways a user transaction leaves the EOA worker

Four flows hand signed bytes to a node. They take the bytes and the request from different places:
a batch that was just signed, the borrowed entries of Redis, a replacement built for a stalled
nonce, and the history of the journal. Whatever comes from Redis, the node, the signer or the clock
is an answer of the outside and may be anything.
-/

namespace EngineCore.Eoa.Wire

open Interact Recovery Executors EngineCore.Finality

/-! ## What the flows ask and send -/

structure BorrowedTransaction where
  transactionId : String
  signedTransaction : Signed
  queuedAt : ℕ
  hash : String
  borrowedAt : ℕ
  userRequest : EoaTransactionRequest

/-- The row of the submitted set that a borrowed transaction becomes. -/
def BorrowedTransaction.submitted (b : BorrowedTransaction) (now : ℕ) : Submitted where
  nonce := b.signedTransaction.tx.nonce
  transactionHash := hashText b.signedTransaction.hash
  transactionId := b.transactionId
  submittedAt := now
  queuedAt := b.queuedAt

inductive SubmissionResultType
  | success
  | reconcile
  | uncertain
  deriving DecidableEq, Repr

structure SubmissionResult where
  transaction : Submitted
  userRequest : EoaTransactionRequest
  result : SubmissionResultType

/-- `TransactionData`, without its receipt and its attempts. -/
structure TransactionData where
  transactionId : String
  userRequest : EoaTransactionRequest
  createdAt : ℕ

/-- `EoaHealth`, the fields of the clocks. -/
structure EoaHealth where
  lastConfirmationAt : ℕ
  lastNonceMovementAt : ℕ
  deriving DecidableEq, Repr

/-- The window of a recovery. It is fixed at activation. -/
structure GapReplayState where
  throughNonce : ℕ
  latestObserved : ℕ
  nextAt : ℕ
  deriving DecidableEq, Repr

/-- A write of the window under the lock. -/
inductive GapWrite
  | del
  | set (state : GapReplayState)

/-- The questions to Redis, the node, the signer, the clock and the scheduler of futures. -/
inductive External
  | schedule
  | now
  | block (tag : BlockNumberOrTag)
  | receipt (hash : B256)
  | transactionCounts
  | ensureEoaLockOwned
  | reserve
  | processBorrowed (results : List SubmissionResult)
  | borrowed
  | submittedForNonce (nonce : ℕ)
  | highestSubmitted
  | transactionData (id : String)
  | buildTypedTransaction (request : EoaTransactionRequest) (nonce : ℕ)
  | noteBalance (error : WorkerError)
  | sign (tx : TypedTransaction) (credential : Json)
  | addGasBumpAttempt (row : Submitted) (tx : Signed)
  | health
  | updateHealth (health : EoaHealth)
  | gapState
  | writeGapState (write : GapWrite)
  | firstSubmitted (nonce : ℕ)

abbrev Rpc (α : Type) := Except (Option RpcErrorKind) α

/-- The answers. A reserved batch has been built, signed and moved to the borrowed state; `none`
means that there is nothing left to do. -/
@[reducible] def Reply : External → Type
  | .schedule => Poll
  | .now => ℕ
  | .block tag => Block tag
  | .receipt _ => Rpc (Option Finality.Receipt)
  | .transactionCounts => Rpc ℕ
  | .ensureEoaLockOwned => Except StoreError Unit
  | .reserve => Except WorkerError (Option (List BorrowedTransaction))
  | .processBorrowed _ => Except StoreError ℕ
  | .borrowed => Except StoreError (List BorrowedTransaction)
  | .submittedForNonce _ => Except StoreError (List Submitted)
  | .highestSubmitted => Except StoreError (List Submitted)
  | .transactionData _ => Except StoreError (Option TransactionData)
  | .buildTypedTransaction .. => Except WorkerError TypedTransaction
  | .noteBalance _ => Unit
  | .sign .. => Except WorkerError Signed
  | .addGasBumpAttempt .. => Except StoreError Unit
  | .health => Except WorkerError EoaHealth
  | .updateHealth _ => Except StoreError Unit
  | .gapState => Except String (Option GapReplayState)
  | .writeGapState _ => Except StoreError Unit
  | .firstSubmitted _ => Except String (List Submitted)

inductive Path
  | initialSend
  | borrowedRecovery
  | gasBump
  | gapReplay
  deriving DecidableEq, Repr

/-- Bytes handed to a node: the flow, the id of the request they were signed for, and the bytes. -/
structure Dispatch where
  path : Path
  id : String
  bytes : List UInt8
  deriving DecidableEq, Repr

/-- The node's answer: the hash it gives to the transaction. -/
@[reducible] def Ack (_ : Dispatch) : Type := Rpc B256

abbrev Flow (α : Type) := Work Reply Ack WorkerError α

abbrev Future (α : Type) := Prog (Ask External Dispatch) (Answer Reply Ack) α

/-- `EoaExecutorWorker`, as far as the flows read it. -/
structure Worker where
  chain : Chain
  eoa : Address
  broadcastConcurrency : ℕ

def inquire (x : External) : Flow (Reply x) := ask x

def handOver (d : Dispatch) : Flow (Rpc B256) := send d

def stored {α : Type} (r : Except StoreError α) : Flow α := lift (r.mapError .storeError)

def invalid (message : String) : WorkerError := .recoveryRequired message

def provider (tag : BlockNumberOrTag) : Future (Block tag) :=
  Prog.query (Q := Ask External Dispatch) (A := Answer Reply Ack) (.outside (.block tag))

def later {α : Type} (x : External) (k : Reply x → Future α) : Future α :=
  .ask (.outside x) k

/-- The outcome of a stream of futures, without the places of an index out of range. -/
def streamed (p : Future (Option (Except WorkerError (List (Option SubmissionResult))))) :
    Flow (List SubmissionResult) :=
  ExceptT.mk (p.bind fun r => .done ((r.getD (.error .internalError)).map (List.filterMap id)))

section Flows

variable (P : Primitives) (A : Alloy) (w : Worker)

/-! ## Initial send -/

def authorizeWhileOwned (authorization : Flow Unit) : Flow Unit := do
  stored (← inquire .ensureEoaLockOwned)
  authorization
  stored (← inquire .ensureEoaLockOwned)

/-- Send a borrowed transaction. An error says nothing about the outcome. -/
def dispatchBorrowed (path : Path) (b : BorrowedTransaction) : Future (Option SubmissionResult) :=
  .ask (.send ⟨path, b.userRequest.transactionId, b.signedTransaction.wire A⟩) fun sent =>
    later .now fun now => .done (some ⟨b.submitted now, b.userRequest,
      if sent.toOption.isSome then .success else .uncertain⟩)

def dispatchReservedTransactions (transactions : List BorrowedTransaction) (polls : ℕ) :
    Flow (List SubmissionResult) :=
  streamed (authorizeThenDispatch transactions.length w.broadcastConcurrency
    (fun i => match transactions[i]? with
      | some b => (authorizeWhileOwned (beforeEoa P A b.userRequest b.signedTransaction)).run
      | none => .done (.error .internalError))
    (fun i => match transactions[i]? with
      | some b => dispatchBorrowed A .initialSend b
      | none => .done none)
    (later .schedule .done) polls)

/-- Both loops of the send flow, over recycled and over new nonces: reserve, dispatch, process. -/
def processTransactions (polls : ℕ) : ℕ → ℕ → Flow ℕ
  | 0, total => return total
  | rounds + 1, total => do
    match ← lift (← inquire .reserve) with
    | none => return total
    | some [] => processTransactions polls rounds total
    | some batch => do
      let results ← dispatchReservedTransactions P A w batch polls
      let moved ← stored (← inquire (.processBorrowed results))
      processTransactions polls rounds (total + moved)

/-! ## Borrowed recovery -/

/-- Settle what the journal knows to be terminal, and authorize the rest in the order of nonces. -/
def authorizeBorrowed :
    List BorrowedTransaction → Flow (List SubmissionResult × List BorrowedTransaction)
  | [] => return ([], [])
  | b :: rest => do
    match ← eoa (terminalEoaProjection P b.userRequest.transactionId (b.userRequest.toJson P)
      b.userRequest.chainId b.userRequest.sender b.signedTransaction.tx.nonce) with
    | some hash => do
      let now ← inquire .now
      let (results, wires) ← authorizeBorrowed rest
      return (⟨{ b.submitted now with transactionHash := hashText hash }, b.userRequest,
        .reconcile⟩ :: results, wires)
    | none => do
      beforeEoa P A b.userRequest b.signedTransaction
      let (results, wires) ← authorizeBorrowed rest
      return (results, b :: wires)

/-- The receipt is one of this transaction, in a block. -/
def included (hash : B256) : Rpc (Option Finality.Receipt) → Bool
  | .ok (some receipt) =>
    receipt.transactionHash = hash && receipt.blockNumber.isSome && receipt.blockHash.isSome
  | _ => false

/-- Look for the receipt first; what is not included is sent again as it is. -/
def rebroadcast (b : BorrowedTransaction) : Future (Option SubmissionResult) :=
  later (.receipt b.signedTransaction.hash) fun receipt =>
    if included b.signedTransaction.hash receipt then
      later .now fun now => .done (some ⟨b.submitted now, b.userRequest, .reconcile⟩)
    else dispatchBorrowed A .borrowedRecovery b

def recoverBorrowedState (polls : ℕ) : Flow ℕ := do
  let borrowed ← stored (← inquire .borrowed)
  if borrowed.isEmpty then return 0
  else do
    let (results, wires) ← authorizeBorrowed P A (borrowed.insertionSort fun a b =>
      a.signedTransaction.tx.nonce ≤ b.signedTransaction.tx.nonce)
    let recovered ← streamed (buffered wires.length w.broadcastConcurrency
      (fun i => match wires[i]? with
        | some b => rebroadcast A b
        | none => .done none)
      (later .schedule .done) polls)
    stored (← inquire (.processBorrowed (results ++ recovered)))

/-! ## Gas bump -/

def nonceStallLimitMs : ℕ := 60000

/-- Whether one of the attempts may be on the chain, now or soon. -/
def mayBeIncluded : List Submitted → Flow Bool
  | [] => return false
  | attempt :: rest =>
    match P.b256 (.str attempt.transactionHash) with
    | none => return true
    | some hash => do
      let found ← inquire (.receipt hash)
      match found with
      | .error _ => return true
      | .ok none => mayBeIncluded rest
      | .ok (some receipt) => do
        match ← capture (onChain provider (assessReceiptFinality w.chain hash receipt)) with
        | .ok .orphaned => mayBeIncluded rest
        | .ok (.pending false) => mayBeIncluded rest
        | _ => return true

def newest (rows : List Submitted) : Option Submitted :=
  rows.foldl (fun best row => match best with
    | some b => if b.submittedAt ≤ row.submittedAt then some row else some b
    | none => some row) none

/-- The transaction could not be built: either its nonce has been consumed meanwhile, or the error
stands. -/
def afterFailedBuild (expectedNonce : ℕ) (e : WorkerError) : Flow Bool := do
  let _ ← inquire (.noteBalance e)
  let counts ← inquire .transactionCounts
  match counts with
  | .error _ => throw e
  | .ok preconfirmed =>
    if expectedNonce < preconfirmed then do
      let health ← inquire .health
      match health with
      | .error _ => return true
      | .ok _ => do
        let now ← inquire .now
        let _ ← inquire (.updateHealth ⟨now, now⟩)
        return true
    else throw e

/-- Sign the replacement, record it in Redis, authorize it and send it. -/
def sendReplacement (expectedNonce : ℕ) (data : TransactionData) (tx : TypedTransaction) :
    Flow Bool := do
  let signed ← lift (← inquire (.sign tx data.userRequest.signingCredential))
  let now ← inquire .now
  stored (← inquire (.addGasBumpAttempt
    ⟨expectedNonce, hashText signed.hash, data.transactionId, now, data.createdAt⟩ signed))
  beforeEoa P A data.userRequest signed
  let sent ← handOver ⟨.gasBump, data.userRequest.transactionId, signed.wire A⟩
  match sent with
  | .ok _ => return true
  | .error e => throw (.rpcError e)

def attemptGasBumpForStalledNonce (expectedNonce : ℕ) : Flow Bool := do
  let rows ← stored (← inquire (.submittedForNonce expectedNonce))
  if ← mayBeIncluded P w rows then return false
  else
    match newest rows with
    | none => return false
    | some row => do
      match ← stored (← inquire (.transactionData row.transactionId)) with
      | none => return false
      | some data => do
        let now ← inquire .now
        if now - data.createdAt < nonceStallLimitMs then return false
        else do
          let built ← inquire (.buildTypedTransaction data.userRequest expectedNonce)
          match built with
          | .error e => afterFailedBuild expectedNonce e
          | .ok tx =>
            match bumpTransactionFees tx 120 data.userRequest.transactionTypeData with
            | none => return false
            | some tx => sendReplacement P A expectedNonce data tx

/-! ## Gap replay -/

def gapReplayIntervalMs : ℕ := 5000

def gapReplayNonces : ℕ := 32

def u64Max : ℕ := 2 ^ 64 - 1

/-- The window in force: the stored one, or one that a rollback or a stall opens now. -/
def gapWindow (latest cachedHighWater now : ℕ) :
    Option GapReplayState → Flow (Option GapReplayState)
  | some state => return some state
  | none => do
    let health ← lift (← inquire .health)
    if ¬latest < cachedHighWater ∧ ¬nonceStallLimitMs ≤ now - health.lastNonceMovementAt then
      return none
    else do
      let highest ← stored (← inquire .highestSubmitted)
      match highest.head? with
      | none => return none
      | some row =>
        if row.nonce = u64Max then throw (invalid "Gap recovery nonce overflow")
        else if row.nonce + 1 ≤ latest then return none
        else return some ⟨row.nonce + 1, latest, 0⟩

/-- Progress of the chain's nonce refreshes the clock of the gas bump. -/
def observeProgress (latest now : ℕ) (state : GapReplayState) : Flow GapReplayState :=
  if state.latestObserved < latest then do
    let health ← lift (← inquire .health)
    stored (← inquire (.updateHealth { health with lastNonceMovementAt := now }))
    let state := { state with latestObserved := latest }
    stored (← inquire (.writeGapState (.set state)))
    return state
  else return state

/-- What follows `0x` in the recorded text. -/
def recordedWire (attempt : Json) : Except WorkerError (List UInt8) :=
  match strField attempt "signedTransaction" with
  | none => .error (invalid "Gap recovery wire is missing")
  | some text =>
    match Hex.strip text with
    | none => .error (invalid "Invalid wire prefix")
    | some digits =>
      match Hex.decode digits with
      | none => .error (invalid "Invalid wire")
      | some wire => .ok wire

/-- The recorded wire, decoded and compared with what was recorded beside it. -/
def retainedWire (request : EoaTransactionRequest) (id : String) (nonce : ℕ) (attempt : Json) :
    Except WorkerError (List UInt8 × Signed) := do
  let wire ← recordedWire attempt
  match A.decode wire with
  | none => .error (invalid "Invalid wire")
  | some (signed, remaining) =>
    if remaining ≠ [] ∨ signed.wire A ≠ wire ∨ signed.tx.nonce ≠ nonce then
      .error (invalid "Gap recovery wire or nonce is inconsistent")
    else
      match attempt.get? "transactionHash" with
      | none => .error (invalid "Gap recovery hash is missing")
      | some saved =>
        match P.b256 saved with
        | none => .error (invalid "Invalid hash")
        | some saved =>
          if signed.hash ≠ saved ∨ request.transactionId ≠ id then
            .error (invalid "Gap recovery identity is inconsistent")
          else .ok (wire, signed)

/-- Replay the wire that the journal retains for one nonce; `false` ends the round. -/
def replayNonce (state : GapReplayState) (nonce : ℕ) : Flow Bool := do
  let rows ← lift (Except.mapError invalid (← inquire (.firstSubmitted nonce)))
  match rows.head? with
  | none => return false
  | some member =>
    if member.nonce ≠ nonce ∨ member.transactionId = noOpTransactionId then return false
    else do
      match ← eoa (journal (latestEoaAttempt member.transactionId
        (evmKey P w.chain.chainId w.eoa nonce))) with
      | none => return false
      | some attempt => do
        let found ← eoa (journal (read (.admission .eoa member.transactionId)))
        match found with
        | none => throw (invalid "Gap recovery admission disappeared")
        | some record =>
          match A.request record.payload with
          | none => throw (invalid "Invalid request")
          | some request => do
            let (wire, signed) ← lift (retainedWire P A request member.transactionId nonce attempt)
            eoa (validateEoaConfirmation P .eoa member.transactionId w.chain.chainId w.eoa nonce
              signed.hash)
            stored (← inquire (.writeGapState (.set state)))
            beforeEoa P A request signed
            let sent ← handOver ⟨.gapReplay, request.transactionId, wire⟩
            match sent with
            | .ok hash => return hash = signed.hash
            | .error _ => return false

/-- A gap ends the round: higher nonces are not sent over it. -/
def replayNonces (state : GapReplayState) : List ℕ → Flow Unit
  | [] => return ()
  | nonce :: rest => do
    if ← replayNonce P A w state nonce then replayNonces state rest else return ()

def replaySubmittedGap (latest cachedHighWater : ℕ) : Flow Unit := do
  let found ← lift (Except.mapError invalid (← inquire .gapState))
  let now ← inquire .now
  match ← gapWindow latest cachedHighWater now found with
  | none => return ()
  | some state =>
    if state.throughNonce ≤ latest then stored (← inquire (.writeGapState .del))
    else do
      let state ← observeProgress latest now state
      if now < state.nextAt then return ()
      else do
        -- the cooldown is reserved before the node is asked anything
        let state := { state with nextAt := min (now + gapReplayIntervalMs) u64Max }
        stored (← inquire (.writeGapState (.set state)))
        let _ ← eoa (checkContinuity provider w.chain)
        replayNonces P A w state
          (List.range' latest (min (min (latest + gapReplayNonces) u64Max) state.throughNonce - latest))

/-! ## Jobs -/

/-- A flow that a worker runs. The number of polls bounds how far its futures are driven. -/
inductive Job
  | send (polls : ℕ)
  | recover (polls : ℕ)
  | gasBump (expectedNonce : ℕ)
  | replayGap (latest cachedHighWater : ℕ)

@[reducible] def Job.Value : Job → Type
  | .send _ => ℕ
  | .recover _ => ℕ
  | .gasBump _ => Bool
  | .replayGap .. => Unit

def Worker.run : (j : Job) → Flow j.Value
  | .send polls => processTransactions P A w polls 10 0
  | .recover polls => recoverBorrowedState P A w polls
  | .gasBump expectedNonce => attemptGasBumpForStalledNonce P A w expectedNonce
  | .replayGap latest cachedHighWater => replaySubmittedGap P A w latest cachedHighWater

end Flows

end EngineCore.Eoa.Wire
