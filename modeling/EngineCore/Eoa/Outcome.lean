import EngineCore.Eoa.Store
import Mathlib.Data.List.Infix

/-!
# What a worker run returns to the queue

The result of an EOA worker run, and the class each of its errors falls into.
-/

namespace EngineCore.Eoa

open Twmq

/-- A duration of `n` seconds, in nanoseconds. -/
def seconds (n : ℕ) : ℕ := n * 1000000000

/-- A duration of `n` milliseconds, in nanoseconds. -/
def millis (n : ℕ) : ℕ := n * 1000000

/-! ## Results -/

/-- `EoaExecutorCounts`, as the four replies of one pipeline. -/
structure Counts where
  pending : ℕ
  submitted : ℕ
  borrowed : ℕ
  recycled : ℕ
  deriving DecidableEq, Repr

/-- `EoaExecutorWorkerResult`. The counters have 32 bits. -/
structure WorkerResult where
  recoveredTransactions : ℕ
  confirmedTransactions : ℕ
  failedTransactions : ℕ
  sentTransactions : ℕ
  replacedTransactions : ℕ
  submittedTransactions : ℕ
  pendingTransactions : ℕ
  borrowedTransactions : ℕ
  recycledNonces : ℕ
  deriving DecidableEq, Repr

/-- What a run did, before its last counts. -/
structure Report where
  recovered : ℕ
  movedToSuccess : ℕ
  movedToFailed : ℕ
  sent : ℕ
  movedToPending : ℕ
  deriving DecidableEq, Repr

/-- The end of `execute_main_workflow`. -/
def Report.result (r : Report) (c : Counts) : WorkerResult where
  recoveredTransactions := r.recovered
  confirmedTransactions := r.movedToSuccess % 2 ^ 32
  failedTransactions := r.movedToFailed % 2 ^ 32
  sentTransactions := r.sent
  replacedTransactions := r.movedToPending % 2 ^ 32
  submittedTransactions := c.submitted % 2 ^ 32
  pendingTransactions := c.pending % 2 ^ 32
  borrowedTransactions := c.borrowed % 2 ^ 32
  recycledNonces := c.recycled % 2 ^ 32

def WorkerResult.IsWorkRemaining (r : WorkerResult) : Prop :=
  0 < r.pendingTransactions ∨ 0 < r.borrowedTransactions ∨ 0 < r.recycledNonces ∨
    0 < r.submittedTransactions

instance (r : WorkerResult) : Decidable r.IsWorkRemaining := by
  unfold WorkerResult.IsWorkRemaining
  infer_instance

/-- `into_job_result`; `delegation` is what was read of the account's delegation. -/
def WorkerResult.intoJobResult (r : WorkerResult) (delegation : Option Bool) : JobResult :=
  if ¬r.IsWorkRemaining then .success
  else
    let delay := match delegation with
      | some true => some (seconds 2)
      | some false =>
        if 0 < r.pendingTransactions ∧ (0 < r.sentTransactions ∨ 0 < r.recoveredTransactions) then
          none
        else some (millis 200)
      | none => some (millis 200)
    .nack delay .last

theorem intoJobResult_eq_success {r : WorkerResult} {delegation : Option Bool} :
    r.intoJobResult delegation = .success ↔ ¬r.IsWorkRemaining := by
  unfold WorkerResult.intoJobResult
  split_ifs with h <;> simp [h]

theorem counts_of_success {r : Report} {c : Counts} {delegation : Option Bool}
    (h : (r.result c).intoJobResult delegation = .success) (hp : c.pending < 2 ^ 32)
    (hs : c.submitted < 2 ^ 32) (hb : c.borrowed < 2 ^ 32) :
    c.pending = 0 ∧ c.submitted = 0 ∧ c.borrowed = 0 := by
  rw [intoJobResult_eq_success] at h
  unfold WorkerResult.IsWorkRemaining Report.result at h
  simp only [Nat.mod_eq_of_lt hp, Nat.mod_eq_of_lt hs, Nat.mod_eq_of_lt hb] at h
  omega

/-! ## Errors -/

/-- `RpcErrorKind`, as far as retries tell its cases apart. -/
inductive RpcErrorKind
  | transportHttpError (status : ℕ)
  | unsupportedFeature
  | errorResp (message : String)
  | other
  deriving DecidableEq, Repr

/-- `str::contains`. -/
def contains (text pattern : String) : Prop := pattern.toList <:+: text.toList

instance (text pattern : String) : Decidable (contains text pattern) := by
  unfold contains
  infer_instance

def isRetryableRpcError : RpcErrorKind → Bool
  | .transportHttpError status => !(decide (400 ≤ status) && decide (status < 500))
  | .unsupportedFeature => false
  | .errorResp message =>
    !(decide (contains message.toLower "invalid chain") ||
      decide (contains message.toLower "invalid opcode"))
  | .other => true

/-- `EoaExecutorWorkerError`; the inner error of an RPC error may be of another class. -/
inductive WorkerError
  | chainServiceError
  | storeError (inner : StoreError)
  | transactionNotFound
  | transactionSimulationFailed
  | transactionBuildFailed
  | rpcError (inner : Option RpcErrorKind)
  | transactionSendError
  | signatureParsingFailed
  | signingError
  | workRemaining
  | eoaOutOfFunds
  | internalError
  | recoveryPending (message : String)
  | recoveryRequired (message : String)
  | userCancelled
  deriving DecidableEq, Repr

def WorkerError.handle : WorkerError → JobResult
  | .recoveryPending _ => .nack (some (seconds 2)) .last
  | .eoaOutOfFunds => .nack (some (seconds 60)) .last
  | .storeError .lockLost => .fail
  | .rpcError inner =>
    if (inner.map isRetryableRpcError).getD false then .nack (some (seconds 10)) .last else .fail
  | _ => .nack (some (seconds 10)) .last

theorem handle_ne_success (e : WorkerError) : e.handle ≠ .success := by
  unfold WorkerError.handle
  split
  · simp
  · simp
  · simp
  · split_ifs <;> simp
  · simp

end EngineCore.Eoa
