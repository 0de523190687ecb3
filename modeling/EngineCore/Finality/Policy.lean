import Mathlib.Data.Nat.Notation

/-!
# Finality policies and evidence

What a chain counts as final, and the record of one qualified receipt.
-/

namespace EngineCore

abbrev B256 := BitVec 256

abbrev Address := BitVec 160

/-- `confirmations` counts blocks after the receipt's block. -/
inductive FinalityPolicy
  | finalized
  | depth (confirmations : ℕ)
  deriving DecidableEq, Repr

/-- The policy is usable on the chain: depth zero is restricted to the local chain. -/
def FinalityPolicy.validate (policy : FinalityPolicy) (chainId : ℕ) : Bool :=
  ¬(policy = .depth 0 ∧ chainId ≠ 31337)

/-- A receipt's block and the qualified checkpoint block that covers it. -/
structure FinalityEvidence where
  blockNumber : ℕ
  blockHash : B256
  checkpointNumber : ℕ
  checkpointHash : B256
  policy : FinalityPolicy
  deriving DecidableEq, Repr

inductive FinalityAssessment
  | pending (canonical : Bool)
  | orphaned
  | finalized (evidence : FinalityEvidence)
  deriving DecidableEq, Repr

end EngineCore
