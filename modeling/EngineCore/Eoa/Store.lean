import EngineCore.Twmq.Queue

/-!
# The store of one wallet

The Redis keys of one sender on one chain, and the transactions its workers run on them. A worker
commits a transaction only while it owns the wallet's lock; `Wallet.apply` is the transaction
itself.

Health data, the reset marker, attempt lists, webhooks and the map from hashes to ids are left
out: no operation below decides by them.
-/

namespace EngineCore.Eoa

open Redis Twmq

/-! ## Records -/

def noOpTransactionId : String := "noop"

def maxPendingTransactions : ℕ := 25000

/-- The rows one `clean_submitted_transactions` may read. -/
def cleanupGroupBudget : ℕ := 4096

/-- `TransactionStoreError`, without the fields that name the wallet. -/
inductive StoreError
  | capacityExceeded
  | redisError (message : String)
  | transactionConflict (transactionId : String)
  | lockLost
  | internalError (message : String)
  | nonceNotInRecycledSet (nonce : ℕ)
  | transactionNotInPendingQueue (transactionId : String)
  | unresolvedNonceReservations
  | nonceSyncRequired
  deriving DecidableEq, Repr

/-- Go on only where `c` holds. -/
def demand (c : Prop) [Decidable c] (e : StoreError) : Except StoreError Unit :=
  if c then .ok () else .error e

inductive Status
  | pending
  | submitted
  | confirmed
  | failed
  deriving DecidableEq, Repr

/-- The data hash of a transaction. Once it carries an expiry Redis may drop it. -/
structure Record where
  userRequest : Option String := none
  status : Option Status := none
  expiring : Bool := false
  deriving DecidableEq, Repr

/-- A signed transaction: its hash stands for its bytes. -/
structure Signed where
  nonce : ℕ
  hash : String
  deriving DecidableEq, Repr

structure BorrowedTransactionData where
  transactionId : String
  signed : Signed
  queuedAt : ℕ
  borrowedAt : ℕ
  deriving DecidableEq, Repr

/-- `SubmittedTransactionDehydrated`. -/
structure Submitted where
  nonce : ℕ
  transactionHash : String
  transactionId : String
  submittedAt : ℕ
  queuedAt : ℕ
  deriving DecidableEq, Repr

/-- A member of the submitted set: the text `hash:id:queuedAt:submittedAt`, where a noop has the
reserved id and no times. -/
inductive Row
  | real (hash id : String) (queuedAt submittedAt : ℕ)
  | noop (hash : String)
  deriving DecidableEq, Repr

def Row.hash : Row → String
  | .real hash _ _ _ => hash
  | .noop hash => hash

def Row.transactionId : Row → String
  | .real _ id _ _ => id
  | .noop _ => noOpTransactionId

/-- The transaction a row belongs to; a noop belongs to none. -/
def Row.owner : Row → Option String
  | .real _ id _ _ => some id
  | .noop _ => none

def Row.queuedAt : Row → ℕ
  | .real _ _ queuedAt _ => queuedAt
  | .noop _ => 0

def Row.text : Row → String
  | .real hash id queuedAt submittedAt => s!"{hash}:{id}:{queuedAt}:{submittedAt}"
  | .noop hash => s!"{hash}:{noOpTransactionId}:0:0"

/-- The text of a row splits at its colons into four parts. -/
def Row.Readable (row : Row) : Prop := ':' ∉ row.transactionId.toList

instance (row : Row) : Decidable row.Readable := by
  unfold Row.Readable
  infer_instance

/-- The member a hydrated row names: every row with the reserved id is read as a noop. -/
def Row.hydrated (row : Row) : Row :=
  if row.transactionId = noOpTransactionId then .noop row.hash else row

def Submitted.row (s : Submitted) : Row :=
  .real s.transactionHash s.transactionId s.queuedAt s.submittedAt

/-- The keys of one wallet. `born` counts the admissions of each id; no operation reads it. -/
structure Wallet where
  pending : List (String × ℕ) := []
  borrowed : List (String × BorrowedTransactionData) := []
  submitted : List (Row × ℕ) := []
  recycled : List ℕ := []
  optimistic : Option ℕ := none
  cached : Option ℕ := none
  records : String → Option Record := fun _ => none
  lock : Option LeaseToken := none
  born : String → ℕ := fun _ => 0

instance (w : Wallet) (entry : Row × ℕ) : Decidable (entry ∈ w.submitted) :=
  inferInstance

/-- `HSET` on a transaction's data, which creates it where it is missing. -/
def Wallet.setRecord (w : Wallet) (id : String) (f : Record → Record) : Wallet :=
  { w with records := Function.update w.records id (some (f ((w.records id).getD {}))) }

/-! ## Admission -/

/-- `add_transaction`: whether the request is new, and the wallet after. -/
def Wallet.addTransaction (w : Wallet) (id request : String) (now : ℕ) :
    Except StoreError (Wallet × Bool) :=
  match w.records id with
  | some record =>
    if record.userRequest = some request then .ok (w, false)
    else .error (.transactionConflict id)
  | none =>
    if maxPendingTransactions ≤ w.pending.length then .error .capacityExceeded
    else
      .ok ({ w with
        records := Function.update w.records id (some ⟨some request, some .pending, false⟩)
        pending := zadd w.pending id now
        born := Function.update w.born id (w.born id + 1) }, true)

/-! ## Moves to borrowed -/

def validateUniqueAllocations (txs : List BorrowedTransactionData) : Except StoreError Unit :=
  demand ((txs.map (·.signed.nonce)).Nodup ∧ (txs.map (·.transactionId)).Nodup)
    (.internalError "A nonce allocation batch must contain unique transaction IDs and nonces")

/-- The sorted nonces follow one another from `start`, without overflow. -/
def validateSequential (start : ℕ) : ℕ → List ℕ → Except StoreError Unit
  | _, [] => .ok ()
  | i, nonce :: nonces =>
    if 2 ^ 64 ≤ start + i then .error (.internalError "Nonce range overflow")
    else if nonce ≠ start + i then
      .error (.internalError s!"Non-sequential nonces detected: expected {start + i}, found {nonce} at position {i}")
    else validateSequential start (i + 1) nonces

def Wallet.validatePending (w : Wallet) : List String → Except StoreError Unit
  | [] => .ok ()
  | id :: ids =>
    if id ∈ keys w.pending then w.validatePending ids
    else .error (.transactionNotInPendingQueue id)

def Wallet.validateRecycled (w : Wallet) : List ℕ → Except StoreError Unit
  | [] => .ok ()
  | nonce :: nonces =>
    if nonce ∈ w.recycled then w.validateRecycled nonces
    else .error (.nonceNotInRecycledSet nonce)

/-- One transaction leaves the pending set for the borrowed map. -/
def Wallet.borrow (w : Wallet) (tx : BorrowedTransactionData) : Wallet :=
  { w with
    pending := hdel w.pending tx.transactionId
    borrowed := hset w.borrowed tx.transactionId tx }

def Wallet.moveIncremented (w : Wallet) (txs : List BorrowedTransactionData) :
    Except StoreError Wallet := do
  demand (txs ≠ []) (.internalError "Cannot process empty transaction list")
  validateUniqueAllocations txs
  let optimistic ← w.optimistic.elim (.error .nonceSyncRequired) .ok
  let nonces := (txs.map (·.signed.nonce)).insertionSort (· ≤ ·)
  validateSequential optimistic 0 nonces
  demand (nonces.getLast? ≠ some (2 ^ 64 - 1)) (.internalError "Nonce range overflow")
  w.validatePending (txs.map (·.transactionId))
  pure { txs.foldl Wallet.borrow w with optimistic := nonces.getLast?.map (· + 1) }

def Wallet.moveRecycled (w : Wallet) (txs : List BorrowedTransactionData) :
    Except StoreError Wallet := do
  demand (txs ≠ []) (.internalError "Cannot process empty transaction list")
  validateUniqueAllocations txs
  w.validateRecycled (txs.map (·.signed.nonce))
  w.validatePending (txs.map (·.transactionId))
  pure { txs.foldl Wallet.borrow w with
    recycled := (txs.map (·.signed.nonce)).foldl srem w.recycled }

/-! ## Borrowed transactions -/

inductive SubmissionResultType
  | success
  | reconcile
  | uncertain
  deriving DecidableEq, Repr

structure SubmissionResult where
  transaction : Submitted
  result : SubmissionResultType
  deriving DecidableEq, Repr

/-- One result of `ProcessBorrowedTransactions`: an uncertain one changes nothing. -/
def Wallet.processResult (w : Wallet) (r : SubmissionResult) : Wallet :=
  if r.result = .uncertain then w
  else
    { w with
      borrowed := hdel w.borrowed r.transaction.transactionId
      submitted := hset w.submitted r.transaction.row r.transaction.nonce }.setRecord
        r.transaction.transactionId fun record => { record with status := some .submitted }

/-- `ProcessBorrowedTransactions`: results for ids that are not borrowed are ignored. -/
def Wallet.processBorrowed (w : Wallet) (results : List SubmissionResult) : Wallet :=
  (results.filter fun r => r.transaction.transactionId ∈ keys w.borrowed).foldl
    Wallet.processResult w

/-! ## Submitted transactions -/

structure Receipt where
  transactionHash : String
  blockNumber : Option ℕ
  blockHash : Option String
  status : Bool
  deriving DecidableEq, Repr

structure Finality where
  blockNumber : ℕ
  blockHash : String
  checkpointNumber : ℕ
  deriving DecidableEq, Repr

structure ConfirmedTransaction where
  nonce : ℕ
  transactionHash : String
  transactionId : String
  receipt : Receipt
  finality : Finality
  deriving DecidableEq, Repr

/-- The evidence is about the receipt's own block. -/
def ConfirmedTransaction.Matches (c : ConfirmedTransaction) : Prop :=
  c.receipt.transactionHash = c.transactionHash ∧
    c.receipt.blockNumber = some c.finality.blockNumber ∧
    c.receipt.blockHash = some c.finality.blockHash ∧
    c.finality.blockNumber ≤ c.finality.checkpointNumber

instance (c : ConfirmedTransaction) : Decidable c.Matches := by
  unfold ConfirmedTransaction.Matches
  infer_instance

structure TransactionCounts where
  latest : ℕ
  preconfirmed : ℕ
  deriving DecidableEq, Repr

/-- What `CleanSubmittedTransactions` decides by: the counts, the receipts that fit a retained row
and the nonces they settle. -/
structure Evidence where
  counts : TransactionCounts
  confirmed : List ConfirmedTransaction
  noncesWithReceipts : List ℕ

/-- The receipt of an id; the last one wins, and the reserved id has none. -/
def Evidence.ofId (e : Evidence) (id : String) : Option ConfirmedTransaction :=
  e.confirmed.reverse.find? fun c => c.transactionId = id ∧ id ≠ noOpTransactionId

/-- The nonce group is settled by a receipt of another transaction. -/
def Evidence.Replaces (e : Evidence) (nonce : ℕ) : Prop :=
  nonce < e.counts.latest ∧ nonce ∈ e.noncesWithReceipts

instance (e : Evidence) (nonce : ℕ) : Decidable (e.Replaces nonce) := by
  unfold Evidence.Replaces
  infer_instance

/-- The wallet so far, the ids seen, and what goes back to pending at the end. -/
structure Cleanup where
  wallet : Wallet
  processed : List String := []
  replaced : List (String × ℕ) := []

/-- The outcome of an id at its first row. -/
def Cleanup.outcome (a : Cleanup) (e : Evidence) (row : Row) (nonce : ℕ) : Cleanup :=
  let id := row.transactionId
  if id = noOpTransactionId then a
  else
    match e.ofId id with
    | some c =>
      { a with wallet := a.wallet.setRecord id fun record =>
          { record with
            status := some (if c.receipt.status then .confirmed else .failed)
            expiring := true } }
    | none => if e.Replaces nonce then { a with replaced := a.replaced ++ [(id, row.queuedAt)] } else a

/-- A row is removed with its confirmed id, or with its settled nonce. -/
def Evidence.Removes (e : Evidence) (row : Row) (nonce : ℕ) : Prop :=
  (e.ofId row.transactionId).isSome ∨
    if row.transactionId = noOpTransactionId then nonce ∈ e.noncesWithReceipts
    else e.Replaces nonce

instance (e : Evidence) (row : Row) (nonce : ℕ) : Decidable (e.Removes row nonce) := by
  unfold Evidence.Removes
  infer_instance

/-- One row of `CleanSubmittedTransactions::operation`. -/
def Cleanup.row (e : Evidence) (a : Cleanup) (entry : Row × ℕ) : Cleanup :=
  if entry.2 < e.counts.preconfirmed ∨ entry.2 < e.counts.latest then
    let decided :=
      if entry.1.transactionId ∈ a.processed then a else a.outcome e entry.1 entry.2
    let marked := { decided with processed := sadd a.processed entry.1.transactionId }
    if e.Removes entry.1 entry.2 then
      { marked with wallet :=
        { marked.wallet with submitted := hdel marked.wallet.submitted entry.1.hydrated } }
    else marked
  else a

/-- The rows `CleanSubmittedTransactions` may change: those at a nonce with a receipt below the
larger count, by nonce and text. -/
def Wallet.receiptRows (w : Wallet) (confirmed : List ConfirmedTransaction)
    (counts : TransactionCounts) : List (Row × ℕ) :=
  (w.submitted.filter fun entry => entry.2 < max counts.preconfirmed counts.latest ∧
    entry.2 ∈ confirmed.map (·.nonce)).insertionSort
      fun a b => Before (a.1.text, a.2) (b.1.text, b.2)

/-- The receipts that fit a retained row exactly, and the nonces of the rows they name. -/
def Evidence.ofRows (counts : TransactionCounts) (confirmed : List ConfirmedTransaction)
    (rows : List (Row × ℕ)) : Evidence :=
  let retained := confirmed.filter fun c => ∃ entry ∈ rows,
    entry.1.hash = c.transactionHash ∧ entry.1.transactionId = c.transactionId ∧ entry.2 = c.nonce
  { counts
    confirmed := retained
    noncesWithReceipts := (rows.filter fun entry =>
      entry.1.hash ∈ retained.map (·.transactionHash)).map Prod.snd }

/-- The rows of a group that can be parsed. -/
def readable (group : List (Row × ℕ)) : List (Row × ℕ) :=
  group.filter fun entry => entry.1.Readable

def Wallet.cleaned (w : Wallet) (e : Evidence) (rows : List (Row × ℕ)) : Wallet :=
  let done := rows.foldl (Cleanup.row e) { wallet := w }
  { done.wallet with
    pending := done.replaced.foldl (fun z e => zadd z e.1 e.2) done.wallet.pending }

def Wallet.cleanSubmitted (w : Wallet) (confirmed : List ConfirmedTransaction)
    (counts : TransactionCounts) : Except StoreError Wallet := do
  demand (∀ c ∈ confirmed, c.Matches)
    (.internalError "Finality evidence does not match the receipt")
  let group := w.receiptRows confirmed counts
  demand (group.length ≤ cleanupGroupBudget)
    (.redisError "Finality cleanup group budget exceeded")
  demand (∀ entry ∈ readable group, entry.1.transactionId ≠ noOpTransactionId →
      ((w.records entry.1.transactionId).bind (·.userRequest)).isSome)
    (.redisError "Response was of incompatible type")
  pure (w.cleaned (Evidence.ofRows counts confirmed (readable group)) (readable group))

/-! ## Nonces and failures -/

def Wallet.resetNonces (w : Wallet) (count : ℕ) : Except StoreError Wallet :=
  if w.submitted = [] ∧ w.borrowed = [] then
    .ok { w with optimistic := some count, cached := some count, recycled := [] }
  else .error .unresolvedNonceReservations

/-- `CleanAndGetRecycledNonces`: nonces from the highest held or consumed one upwards are no
longer recycled, and the next nonce follows it. -/
def Wallet.cleanRecycled (w : Wallet) : Except StoreError Wallet :=
  match w.cached with
  | none => .error .nonceSyncRequired
  | some count =>
    let consumed := if count = 0 then [] else [count - 1]
    let highest := (w.submitted.map Prod.snd ++ w.borrowed.map (·.2.signed.nonce) ++ consumed).max?
    let next := (highest.map fun n => min (n + 1) (2 ^ 64 - 1)).getD 0
    .ok { w with
      recycled := w.recycled.filter (· < highest.getD 0)
      optimistic := w.optimistic.map fun n => min n next }

def Wallet.updateCached (w : Wallet) (count : ℕ) : Wallet :=
  { w with
    cached := some count
    optimistic := some (match w.optimistic with
      | some n => max n count
      | none => count) }

def Wallet.processNoop (w : Wallet) (noops : List Signed) : Wallet :=
  { w with
    recycled := (noops.map (·.nonce)).foldl srem w.recycled
    submitted := noops.foldl (fun z n => hset z (.noop n.hash) n.nonce) w.submitted }

def Wallet.failPending (w : Wallet) (ids : List String) : Except StoreError Wallet := do
  w.validatePending ids
  let failed := ids.foldl (fun w id => w.setRecord id fun record =>
    { record with status := some .failed, expiring := true }) w
  pure { failed with pending := ids.foldl hdel w.pending }

/-! ## The operations of the atomic store -/

inductive Operation
  | moveIncremented (txs : List BorrowedTransactionData)
  | moveRecycled (txs : List BorrowedTransactionData)
  | processBorrowed (results : List SubmissionResult)
  | cleanSubmitted (confirmed : List ConfirmedTransaction) (counts : TransactionCounts)
  | resetNonces (count : ℕ)
  | cleanRecycled
  | updateCached (count : ℕ)
  | processNoop (noops : List Signed)
  | failPending (ids : List String)

def Wallet.apply (w : Wallet) : Operation → Except StoreError Wallet
  | .moveIncremented txs => w.moveIncremented txs
  | .moveRecycled txs => w.moveRecycled txs
  | .processBorrowed results => .ok (w.processBorrowed results)
  | .cleanSubmitted confirmed counts => w.cleanSubmitted confirmed counts
  | .resetNonces count => w.resetNonces count
  | .cleanRecycled => w.cleanRecycled
  | .updateCached count => .ok (w.updateCached count)
  | .processNoop noops => .ok (w.processNoop noops)
  | .failPending ids => w.failPending ids

/-- `add_gas_bump_attempt`: one more row for a submitted transaction. -/
def Wallet.addGasBump (w : Wallet) (s : Submitted) : Wallet :=
  { w with submitted := hset w.submitted s.row s.nonce }

end EngineCore.Eoa
