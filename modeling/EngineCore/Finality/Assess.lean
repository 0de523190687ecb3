import EngineCore.Finality.Policy
import EngineCore.Lib.Prog
import Mathlib.Algebra.Order.Ring.Nat

/-!
# Is a receipt final?

`assess_receipt_finality` reads up to six blocks by number or tag. The chain may reorganise between
any two reads.

* `Reads`: programs that read blocks; `assessCheckpointContinuity`, `assessReceiptFinality`;
* **`assessReceiptFinality_sound`**: a receipt assessed as final is on the canonical chain for good,
  and so is the checkpoint above it.
-/

namespace EngineCore

open Interact

/-- `EngineError`, as far as the engine makes it itself; any other one is passed on with its
message. -/
inductive EngineError
  | rpcConfigError (message : String)
  | recoveryPending (message : String)
  | internalError (message : String)
  | other (message : String)
  deriving DecidableEq, Repr

namespace Finality

/-! ## Reading blocks -/

inductive BlockNumberOrTag
  | number (n : ℕ)
  | finalized
  | latest
  deriving DecidableEq, Repr

structure Header where
  number : ℕ
  hash : B256
  deriving DecidableEq, Repr

/-- A read fails, finds nothing, or finds a block. -/
abbrev Block := fun _ : BlockNumberOrTag => Except EngineError (Option Header)

abbrev Reads (α : Type) : Type := Task BlockNumberOrTag Block EngineError α

def getBlockByNumber (tag : BlockNumberOrTag) : Reads (Option Header) :=
  ExceptT.mk (Prog.query tag)

structure Chain where
  chainId : ℕ
  policy : FinalityPolicy
  deriving DecidableEq, Repr

/-- A receipt; `status` is missing where it carries a state root instead. -/
structure Receipt where
  transactionHash : B256
  status : Option Bool
  blockNumber : Option ℕ
  blockHash : Option B256
  deriving DecidableEq, Repr

def inconsistent (message : String) : EngineError := .internalError message

/-! ## Continuity of a checkpoint -/

inductive CheckpointContinuity
  | consistent
  | unavailable
  | conflict
  deriving DecidableEq, Repr

def assessCheckpointContinuity (previous : FinalityEvidence) : Reads CheckpointContinuity := do
  match ← getBlockByNumber (.number previous.checkpointNumber) with
  | none => return .unavailable
  | some block =>
    if block.number ≠ previous.checkpointNumber then
      throw (inconsistent "RPC returned the wrong checkpoint block number")
    else return if block.hash = previous.checkpointHash then .consistent else .conflict

/-! ## Finality of a receipt -/

/-- The tag of the head that qualifies blocks. -/
def headTag : FinalityPolicy → BlockNumberOrTag
  | .finalized => .finalized
  | .depth _ => .latest

/-- The height the head must have; the sum must fit 64 bits. -/
def requiredHeight (blockNumber : ℕ) : FinalityPolicy → Except EngineError ℕ
  | .finalized => .ok blockNumber
  | .depth confirmations =>
    if blockNumber + confirmations < 2 ^ 64 then .ok (blockNumber + confirmations)
    else .error (inconsistent "Finality depth exceeds representable block height")

/-- Go on while the block of the receipt is canonical. -/
def whileCanonical (blockNumber : ℕ) (blockHash : B256) (next : Reads FinalityAssessment) :
    Reads FinalityAssessment := do
  match ← getBlockByNumber (.number blockNumber) with
  | none => return .pending false
  | some block =>
    if block.number ≠ blockNumber then
      throw (inconsistent "RPC returned the wrong canonical block number")
    else if block.hash ≠ blockHash then return .orphaned
    else next

/-- Go on with the highest qualified block: the head itself, or the block `confirmations` below. -/
def withCheckpoint (head : Header) (next : Header → Reads FinalityAssessment) :
    FinalityPolicy → Reads FinalityAssessment
  | .finalized | .depth 0 => next head
  | .depth confirmations =>
    if head.number < confirmations then return .pending true
    else do
      match ← getBlockByNumber (.number (head.number - confirmations)) with
      | none => return .pending true
      | some qualified =>
        if qualified.number ≠ head.number - confirmations then
          throw (inconsistent "RPC returned the wrong depth boundary block number")
        else next qualified

/-- Go on while the checkpoint is canonical, and is the block of the receipt if it has its
height. -/
def whileCheckpoint (blockNumber : ℕ) (blockHash : B256) (checkpoint : Header)
    (next : Reads FinalityAssessment) : Reads FinalityAssessment := do
  match ← getBlockByNumber (.number checkpoint.number) with
  | none => return .pending true
  | some block =>
    if block.number ≠ checkpoint.number ∨ block.hash ≠ checkpoint.hash ∨
        (checkpoint.number = blockNumber ∧ checkpoint.hash ≠ blockHash) then
      throw (inconsistent "Finality checkpoint changed during receipt reconciliation")
    else next

/-- Go on while the head is canonical; a head that is the checkpoint was just read. -/
def whileHead (head checkpoint : Header) (next : Reads FinalityAssessment) :
    Reads FinalityAssessment :=
  if head.number = checkpoint.number then next
  else do
    match ← getBlockByNumber (.number head.number) with
    | none => return .pending true
    | some block =>
      if block.number ≠ head.number ∨ block.hash ≠ head.hash then
        throw (inconsistent "Observed head changed during depth reconciliation")
      else next

/-- The assessment of a receipt that names its block. -/
def assessBlock (policy : FinalityPolicy) (blockNumber : ℕ) (blockHash : B256) :
    Reads FinalityAssessment :=
  whileCanonical blockNumber blockHash do
    match ← getBlockByNumber (headTag policy) with
    | none => return .pending true
    | some head =>
      match requiredHeight blockNumber policy with
      | .error e => throw e
      | .ok required =>
        if head.number < required then return .pending true
        else
          withCheckpoint head (fun checkpoint =>
            -- the receipt can be orphaned between the first read and the head read
            whileCanonical blockNumber blockHash <|
              whileCheckpoint blockNumber blockHash checkpoint <|
                whileHead head checkpoint <|
                  return .finalized
                    ⟨blockNumber, blockHash, checkpoint.number, checkpoint.hash, policy⟩) policy

def assessReceiptFinality (chain : Chain) (expectedHash : B256) (receipt : Receipt) :
    Reads FinalityAssessment :=
  if ¬chain.policy.validate chain.chainId then
    throw (.rpcConfigError
      "Finality depth must be positive; zero is restricted to local chain 31337")
  else if receipt.transactionHash ≠ expectedHash then
    throw (inconsistent "Receipt transaction hash does not match stored attempt")
  else if receipt.status.isNone then
    throw (inconsistent "Receipt does not contain an execution status")
  else
    match receipt.blockNumber, receipt.blockHash with
    | some blockNumber, some blockHash => assessBlock chain.policy blockNumber blockHash
    | _, _ => return .pending false

/-! ## The chain over time -/

variable {T : Type}

/-- The canonical block at each height, at each instant, and the blocks a provider may report as
finalized at that instant. -/
structure Evolution (T : Type) where
  canonical : T → ℕ → Option B256
  contiguous : ∀ t n, (canonical t (n + 1)).isSome → (canonical t n).isSome
  finalized : T → Header → Prop

namespace Evolution

def Canonical (E : Evolution T) (t : T) (block : Header) : Prop :=
  E.canonical t block.number = some block.hash

/-- What a read may find: a canonical block, and for the finalized tag a finalized one. -/
def Reports (E : Evolution T) (t : T) (block : Header) : BlockNumberOrTag → Prop
  | .finalized => E.Canonical t block ∧ E.finalized t block
  | _ => E.Canonical t block

/-- Time passes between the reads; each read is of one instant. -/
def machine [LE T] (E : Evolution T) : Machine BlockNumberOrTag Block T where
  env t t' := t ≤ t'
  act tag t a t' := t' = t ∧ ∀ block, a = .ok (some block) → E.Reports t block tag

/-- From `t` on, the block stays canonical. -/
def Stays [LE T] (E : Evolution T) (t : T) (block : Header) : Prop :=
  ∀ t', t ≤ t' → E.Canonical t' block

/-- What a policy takes for granted: a block reported as finalized stays canonical with all its
ancestors; a block with `d` canonical blocks after it stays canonical. -/
def Settles [LE T] (E : Evolution T) : FinalityPolicy → Prop
  | .finalized => ∀ t head, E.Canonical t head → E.finalized t head →
      ∀ block, block.number ≤ head.number → E.Canonical t block → E.Stays t block
  | .depth d => ∀ t block, E.Canonical t block → (E.canonical t (block.number + d)).isSome →
      E.Stays t block

theorem isSome_of_le (E : Evolution T) {t : T} {m n : ℕ} (h : m ≤ n)
    (hn : (E.canonical t n).isSome) : (E.canonical t m).isSome := by
  induction n with
  | zero =>
    obtain rfl : m = 0 := by omega
    exact hn
  | succ n ih =>
    by_cases hm : m = n + 1
    · exact hm ▸ hn
    · exact ih (by omega) (E.contiguous t n hn)

theorem Canonical.hash_eq {E : Evolution T} {t : T} {a b : Header} (ha : E.Canonical t a)
    (hb : E.Canonical t b) (h : a.number = b.number) : a = b := by
  unfold Canonical at ha hb
  rw [h, hb] at ha
  have hhash : a.hash = b.hash := by simpa using ha.symm
  cases a
  cases b
  simp_all

variable [Preorder T] {E : Evolution T} {policy : FinalityPolicy} {t t₁ : T} {head : Header}

theorem Stays.mono {block : Header} (h : E.Stays t block) (ht : t ≤ t₁) : E.Stays t₁ block :=
  fun t' ht' => h t' (ht.trans ht')

/-- Blocks by which a policy is deep enough below its head. -/
def depth : FinalityPolicy → ℕ
  | .finalized => 0
  | .depth d => d

/-- **A block far enough below a head that was seen stays canonical.** -/
theorem Settles.below (h : E.Settles policy) (hhead : E.Reports t head (headTag policy)) {n : ℕ}
    (hn : n + depth policy ≤ head.number) : ∃ block, block.number = n ∧ E.Stays t block := by
  have hcanon : E.Canonical t head := by
    cases policy with
    | finalized => exact hhead.1
    | depth d => exact hhead
  have hsome : (E.canonical t head.number).isSome := by
    rw [show E.canonical t head.number = some head.hash from hcanon]
    rfl
  obtain ⟨hash, hhash⟩ := Option.isSome_iff_exists.mp
    (E.isSome_of_le (Nat.le_trans (Nat.le_add_right n _) hn) hsome)
  have hblock : E.Canonical t ⟨n, hash⟩ := hhash
  refine ⟨⟨n, hash⟩, rfl, ?_⟩
  cases policy with
  | finalized => exact h t head hcanon hhead.2 _ hn hblock
  | depth d => exact h t _ hblock (E.isSome_of_le hn hsome)

theorem Settles.stays (h : E.Settles policy) (hhead : E.Reports t head (headTag policy))
    {block : Header} (hn : block.number + depth policy ≤ head.number) (ht : t ≤ t₁)
    (hblock : E.Canonical t₁ block) : E.Stays t₁ block := by
  obtain ⟨settled, hnum, hstays⟩ := h.below hhead hn
  obtain rfl := (hstays t₁ ht).hash_eq hblock hnum
  exact hstays.mono ht

end Evolution

/-! ## Soundness -/

/-- One read with its answer, and the reads of an assessment. -/
abbrev Seen (T : Type) := Entry BlockNumberOrTag Block T

section Sound

variable [Preorder T] {E : Evolution T} {t : T} {l : List (Seen T)} {α : Type}
variable {K : FinalityEvidence → List (Seen T) → T → Prop}

/-- Whatever the reads find and whenever they are made, evidence meets `K`. -/
structure Proves (E : Evolution T) (x : Reads FinalityAssessment) (l : List (Seen T)) (t : T)
    (K : FinalityEvidence → List (Seen T) → T → Prop) : Prop where
  sat : Sat E.machine (fun _ _ => True)
    (fun r l t => ∀ evidence, r = .ok (.finalized evidence) → K evidence l t) x.run l t

theorem Proves.ret {a : FinalityAssessment} (h : ∀ evidence, a = .finalized evidence →
    K evidence l t) : Proves E (pure a) l t K := by
  refine ⟨fun evidence heq => h evidence ?_⟩
  simpa using heq

theorem Proves.fail {e : EngineError} : Proves E (throw e) l t K := by
  refine ⟨?_⟩
  rintro evidence ⟨⟩

/-- **One read**, at any later instant. -/
theorem Proves.read {tag : BlockNumberOrTag} {f : Option Header → Reads FinalityAssessment}
    (h : ∀ t₁ found, t ≤ t₁ → (∀ block, found = some block → E.Reports t₁ block tag) →
      Proves E (f found) (l ++ [⟨tag, .ok found, t₁, t₁⟩]) t₁ K) :
    Proves E (getBlockByNumber tag >>= f) l t K := by
  refine ⟨?_⟩
  rw [sat_run_bind]
  rintro t₁ ht a t₂ ⟨rfl, ha⟩
  refine ⟨trivial, ?_⟩
  cases a with
  | error e =>
    rintro evidence ⟨⟩
  | ok found => exact (h t₂ found ht fun block hb => ha block (by rw [hb])).sat

theorem Proves.canonical {n : ℕ} {hash : B256} {next : Reads FinalityAssessment}
    (h : ∀ t₁ l', t ≤ t₁ → l <+: l' → E.Canonical t₁ ⟨n, hash⟩ → Proves E next l' t₁ K) :
    Proves E (whileCanonical n hash next) l t K := by
  refine .read fun t₁ found ht hfound => ?_
  cases found with
  | none => exact .ret (by rintro e ⟨⟩)
  | some block =>
    dsimp only
    split_ifs with hnum hhash
    · exact .fail
    · exact .ret (by rintro e ⟨⟩)
    · refine h t₁ _ ht (List.prefix_append _ _) ?_
      obtain rfl : block.number = n := not_not.mp hnum
      obtain rfl : block.hash = hash := not_not.mp hhash
      exact hfound block rfl

theorem Proves.checkpoint {n : ℕ} {hash : B256} {checkpoint : Header}
    {next : Reads FinalityAssessment}
    (h : ∀ t₁ l', t ≤ t₁ → l <+: l' → E.Canonical t₁ checkpoint → Proves E next l' t₁ K) :
    Proves E (whileCheckpoint n hash checkpoint next) l t K := by
  refine .read fun t₁ found ht hfound => ?_
  cases found with
  | none => exact .ret (by rintro e ⟨⟩)
  | some block =>
    dsimp only
    split_ifs with hbad
    · exact .fail
    · refine h t₁ _ ht (List.prefix_append _ _) ?_
      simp only [not_or, not_not] at hbad
      have hblock : E.Canonical t₁ block := hfound block rfl
      unfold Evolution.Canonical at hblock ⊢
      rw [← hbad.1, ← hbad.2.1]
      exact hblock

theorem Proves.head {head checkpoint : Header} {next : Reads FinalityAssessment}
    (h : ∀ t₁ l', t ≤ t₁ → l <+: l' → Proves E next l' t₁ K) :
    Proves E (whileHead head checkpoint next) l t K := by
  unfold whileHead
  split_ifs with heq
  · exact h t l le_rfl List.prefix_rfl
  refine .read fun t₁ found ht _ => ?_
  cases found with
  | none => exact .ret (by rintro e ⟨⟩)
  | some block =>
    dsimp only
    split_ifs
    · exact .fail
    · exact h t₁ _ ht (List.prefix_append _ _)

/-- What evidence for a receipt vouches for, at the end of an assessment. -/
structure Final (E : Evolution T) (chain : Chain) (expectedHash : B256) (receipt : Receipt)
    (evidence : FinalityEvidence) (l : List (Seen T)) (t : T) : Prop where
  transaction : receipt.transactionHash = expectedHash
  number : receipt.blockNumber = some evidence.blockNumber
  hash : receipt.blockHash = some evidence.blockHash
  block : E.Stays t ⟨evidence.blockNumber, evidence.blockHash⟩
  checkpoint : E.Stays t ⟨evidence.checkpointNumber, evidence.checkpointHash⟩
  covers : evidence.blockNumber ≤ evidence.checkpointNumber
  policy : evidence.policy = chain.policy
  below : ∀ d, chain.policy = .depth d → ∃ head t₁,
    ⟨.latest, .ok (some head), t₁, t₁⟩ ∈ l ∧ evidence.checkpointNumber + d ≤ head.number

variable {policy : FinalityPolicy} {head : Header} {n : ℕ} {hash : B256}

/-- The head was read and is high enough for height `n`. -/
structure Observed (E : Evolution T) (policy : FinalityPolicy) (head : Header) (n : ℕ) (t : T)
    (l : List (Seen T)) : Prop where
  reports : E.Reports t head (headTag policy)
  high : n + Evolution.depth policy ≤ head.number
  seen : ⟨headTag policy, .ok (some head), t, t⟩ ∈ l

/-- The checkpoint is canonical and settled: it is the head of a policy without a depth, or
`confirmations` below the head. -/
theorem Proves.withCheckpoint {next : Header → Reads FinalityAssessment}
    (hsettles : E.Settles policy) (hhead : Observed E policy head n t l)
    (h : ∀ t₁ l' checkpoint, t ≤ t₁ → l <+: l' → n ≤ checkpoint.number →
      checkpoint.number + Evolution.depth policy ≤ head.number → E.Stays t₁ checkpoint →
      Proves E (next checkpoint) l' t₁ K) :
    Proves E (withCheckpoint head next policy) l t K := by
  have hself : Evolution.depth policy = 0 → Proves E (next head) l t K := by
    intro hzero
    have hhigh := hhead.high
    refine h t l head le_rfl List.prefix_rfl (by omega) (by omega) ?_
    refine hsettles.stays hhead.reports (by omega) le_rfl ?_
    cases policy with
    | finalized => exact hhead.reports.1
    | depth d => exact hhead.reports
  cases policy with
  | finalized => exact hself rfl
  | depth d =>
    cases d with
    | zero => exact hself rfl
    | succ d =>
      have hhigh : n + (d + 1) ≤ head.number := hhead.high
      simp only [Finality.withCheckpoint]
      split_ifs with hlow
      · exact .ret (by rintro e ⟨⟩)
      refine .read fun t₁ found ht hfound => ?_
      cases found with
      | none => exact .ret (by rintro e ⟨⟩)
      | some qualified =>
        dsimp only
        split_ifs with hnum
        · exact .fail
        · have hboundary : qualified.number = head.number - (d + 1) := not_not.mp hnum
          have hbelow : qualified.number + (d + 1) ≤ head.number := by omega
          refine h t₁ _ qualified ht (List.prefix_append _ _) (by omega) hbelow ?_
          exact hsettles.stays hhead.reports hbelow ht (hfound qualified rfl)

theorem requiredHeight_ok {required : ℕ} (h : requiredHeight n policy = .ok required) :
    required = n + Evolution.depth policy := by
  cases policy with
  | finalized =>
    simp only [requiredHeight] at h
    simp only [Evolution.depth]
    cases h
    rfl
  | depth d =>
    simp only [requiredHeight] at h
    split_ifs at h
    cases h
    rfl

theorem assessBlock_proves (hsettles : E.Settles policy) :
    Proves E (assessBlock policy n hash) l t fun evidence l' t' =>
      evidence.blockNumber = n ∧ evidence.blockHash = hash ∧ evidence.policy = policy ∧
      E.Stays t' ⟨n, hash⟩ ∧
      E.Stays t' ⟨evidence.checkpointNumber, evidence.checkpointHash⟩ ∧
      n ≤ evidence.checkpointNumber ∧
      ∃ head t₁, ⟨headTag policy, .ok (some head), t₁, t₁⟩ ∈ l' ∧
        evidence.checkpointNumber + Evolution.depth policy ≤ head.number := by
  refine .canonical fun t₁ l₁ _ _ _ => .read fun t₂ found _ hfound => ?_
  cases found with
  | none => exact .ret (by rintro e ⟨⟩)
  | some head =>
    cases hreq : requiredHeight n policy with
    | error e => simpa [hreq] using Proves.fail
    | ok required =>
      simp only
      split_ifs with hlow
      · exact .ret (by rintro e ⟨⟩)
      have hhead : Observed E policy head n t₂
          (l₁ ++ [⟨headTag policy, .ok (some head), t₂, t₂⟩]) := by
        refine ⟨hfound head rfl, ?_, List.mem_append_right _ (List.mem_singleton_self _)⟩
        rw [← requiredHeight_ok hreq]
        exact Nat.le_of_not_lt hlow
      refine .withCheckpoint hsettles hhead fun t₃ l₃ checkpoint ht₃ hl₃ hcover hbelow hstays => ?_
      -- from here on nothing below the head can change: each read finds what it found before
      refine .canonical fun t₄ l₄ ht₄ hl₄ hcanon => ?_
      have hblock : E.Stays t₄ ⟨n, hash⟩ :=
        hsettles.stays hhead.reports hhead.high (ht₃.trans ht₄) hcanon
      refine .checkpoint fun t₅ l₅ ht₅ hl₅ _ => .head fun t₆ l₆ ht₆ hl₆ => .ret ?_
      rintro evidence ⟨⟩
      have hseen := (((hl₃.trans hl₄).trans hl₅).trans hl₆).subset hhead.seen
      exact ⟨rfl, rfl, rfl, hblock.mono (ht₅.trans ht₆),
        hstays.mono ((ht₄.trans ht₅).trans ht₆), hcover, head, t₂, hseen, hbelow⟩

/-- **A receipt assessed as final is final.** For every evolution of the chain that honours the
policy, every receipt and every instant at which the reads are made: evidence names the expected
transaction's block, this block and the checkpoint stay canonical from then on, the checkpoint
covers the block, and under a depth policy it lies that deep below a head that was seen. -/
theorem assessReceiptFinality_sound (E : Evolution T) (chain : Chain)
    (hsettles : E.Settles chain.policy) (expectedHash : B256) (receipt : Receipt) (t : T) :
    Proves E (assessReceiptFinality chain expectedHash receipt) [] t
      (Final E chain expectedHash receipt) := by
  unfold assessReceiptFinality
  by_cases hvalid : ¬chain.policy.validate chain.chainId
  · rw [if_pos hvalid]
    exact .fail
  rw [if_neg hvalid]
  by_cases hhash : receipt.transactionHash ≠ expectedHash
  · rw [if_pos hhash]
    exact .fail
  rw [if_neg hhash]
  by_cases hstatus : receipt.status.isNone
  · rw [if_pos hstatus]
    exact .fail
  rw [if_neg hstatus]
  cases hnumber : receipt.blockNumber with
  | none => exact .ret (by rintro e ⟨⟩)
  | some n =>
    cases hblock : receipt.blockHash with
    | none => exact .ret (by rintro e ⟨⟩)
    | some hash =>
      refine ⟨(assessBlock_proves hsettles).sat.post_mono ?_⟩
      intro r l t' hr evidence heq
      obtain ⟨rfl, rfl, hpolicy, hb, hc, hcover, head, t₁, hseen, hbelow⟩ := hr evidence heq
      refine ⟨not_not.mp hhash, hnumber, hblock, hb, hc, hcover, hpolicy, ?_⟩
      intro d hd
      rw [hd] at hseen hbelow
      exact ⟨head, t₁, hseen, hbelow⟩

end Sound

/-! ## A chain that replaces its head -/

namespace Sample

/-- Eleven blocks; the last one is replaced at instant 3. -/
def evolution : Evolution ℕ where
  canonical t n := if n ≤ 10 then some (if n = 10 ∧ 3 ≤ t then 99 else BitVec.ofNat 256 n) else none
  contiguous := by
    intro t n h
    by_cases hn : n + 1 ≤ 10
    · simp [show n ≤ 10 by omega]
    · simp [hn] at h
  finalized _ _ := False

def chain : Chain := ⟨1, .depth 2⟩

def receipt : Receipt := ⟨5, some true, some 7, some 7⟩

/-- A provider that answers every read from the chain of the current instant. -/
def answer (tag : BlockNumberOrTag) (t : ℕ) : Block tag × ℕ :=
  let height := match tag with
    | .number n => n
    | .finalized | .latest => 10
  (.ok ((evolution.canonical t height).bind fun hash =>
    if tag = .finalized then none else some ⟨height, hash⟩), t)

theorem settles : evolution.Settles chain.policy := by
  intro t block hblock hdeep t' ht'
  have hnum : block.number + 2 ≤ 10 := by
    by_contra hnum
    have hnone : evolution.canonical t (block.number + 2) = none := by simp [evolution, hnum]
    simp [hnone] at hdeep
  have hne : ¬block.number = 10 := by omega
  simpa [Evolution.Canonical, evolution, hne, show block.number ≤ 10 by omega] using hblock

theorem act_answer (tag : BlockNumberOrTag) (t : ℕ) :
    evolution.machine.act tag t (answer tag t).1 (answer tag t).2 := by
  refine ⟨rfl, fun block hblock => ?_⟩
  have hfound : ∀ height, (evolution.canonical t height).bind
      (fun hash => if tag = .finalized then none else some (Header.mk height hash)) = some block →
      tag ≠ .finalized ∧ evolution.Canonical t block := by
    intro height h
    obtain ⟨hash, hhash, hh⟩ := Option.bind_eq_some_iff.mp h
    split_ifs at hh with htag
    cases hh
    exact ⟨htag, hhash⟩
  obtain ⟨htag, hcanon⟩ := hfound _ (Except.ok.inj hblock)
  cases tag with
  | finalized => exact absurd rfl htag
  | number n => exact hcanon
  | latest => exact hcanon

end Sample

set_option maxRecDepth 4000 in
theorem assessReceiptFinality_sound_sample : ∃ evidence l,
    evidence.checkpointNumber = 8 ∧
      Final Sample.evolution Sample.chain 5 Sample.receipt evidence l 0 := by
  have hfinal := (assessReceiptFinality_sound Sample.evolution Sample.chain Sample.settles 5
    Sample.receipt 0).sat.exec Sample.act_answer (fun t => le_refl t)
  exact ⟨⟨7, 7, 8, 8, .depth 2⟩, _, rfl, hfinal _ (by decide +kernel)⟩

end Finality

end EngineCore
