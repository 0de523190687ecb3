import EngineCore.Executors.Journal
import EngineCore.Lib.Hex

/-!
# Settlement of EVM receipts

Block reads of a chain inside a worker, and the fence that the journal puts around them: a receipt
counts as final only after its checkpoint has been accepted by the journal.

* `onChain`: the reads of an assessment, asked of the worker's provider;
* **`assess_does`**: final evidence was accepted by the journal during the assessment.
-/

namespace Interact

variable {Q Q' : Type} {A : Q → Type} {A' : Q' → Type} {α : Type}

/-- Put the queries of a program through another interface. -/
def Prog.embed (f : (q : Q) → Prog Q' A' (A q)) : Prog Q A α → Prog Q' A' α
  | .done a => .done a
  | .ask q k => (f q).bind fun a => (k a).embed f

end Interact

namespace EngineCore.Executors

open Interact Recovery Finality

variable {X S α : Type} {B : X → Type} {R : S → Type} {P : Primitives}

/-- A worker's access to the blocks of its chain. -/
abbrev Provider (B : X → Type) (R : S → Type) :=
  (tag : BlockNumberOrTag) → Prog (Ask X S) (Answer B R) (Block tag)

def onChain (provider : Provider B R) (x : Reads α) : Work B R EngineError α :=
  ExceptT.mk (x.run.embed provider)

/-! ## Continuity and acceptance -/

def unavailable (message : String) : EngineError := .internalError message

section Settlement

variable (provider : Provider B R) (chain : Chain)

/-- The committed checkpoint, after a look at the chain. A checkpoint that the chain contradicts
halts the chain for good. -/
def checkContinuity : Work B R EngineError (Option FinalityEvidence) := do
  match ← journal (loadCheckpoint chain.chainId) with
  | none => return none
  | some previous =>
    if previous.policy ≠ chain.policy then do
      let _ ← journal (invoke (.haltChain chain.chainId))
      throw (unavailable "Finality policy changed after accepted checkpoint; chain halted")
    else
      match ← onChain provider (assessCheckpointContinuity previous) with
      | .unavailable => throw (unavailable "Prior finality checkpoint is unavailable")
      | .conflict => do
        let _ ← journal (invoke (.haltChain chain.chainId))
        throw (unavailable "Previously settled checkpoint changed; chain halted")
      | .consistent => return some previous

/-- Offer the checkpoint of the evidence, at most `tries` times. -/
def offer (evidence : FinalityEvidence) :
    ℕ → Option FinalityEvidence → Work B R EngineError FinalityAssessment
  | 0, _ => return .pending true
  | tries + 1, previous =>
    if previous.any fun old => evidence.checkpointNumber < old.checkpointNumber then
      return .pending true
    else do
      let accepted ← journal (invoke (.commitCheckpoint chain.chainId previous evidence))
      if accepted then return .finalized evidence
      else if tries = 0 then return .pending true
      else do
        let previous ← checkContinuity provider chain
        offer evidence tries previous

def assess (hash : B256) (receipt : Receipt) : Work B R EngineError FinalityAssessment := do
  let previous ← checkContinuity provider chain
  match ← onChain provider (assessReceiptFinality chain hash receipt) with
  | .finalized evidence => offer provider chain evidence 3 previous
  | assessment => return assessment

end Settlement

/-! ## Transactions of a nonce -/

def evmKey (P : Primitives) (chainId : ℕ) (sender : Address) (nonce : ℕ) : String :=
  s!"evm:{chainId}:{P.addressText sender}:{nonce}"

def hashText (hash : B256) : String := Hex.text (Hex.bytesBE 32 hash.toNat)

/-- The durable reservation of the id is this nonce, and the hash is one of its attempts. -/
def validateEoaConfirmation (P : Primitives) (kind : Kind) (id : String) (chainId : ℕ)
    (sender : Address) (nonce : ℕ) (hash : B256) : Work B R EngineError Unit := do
  let found ← journal (read (.admission kind id))
  match found with
  | none => throw (unavailable "Missing durable confirmation admission")
  | some record =>
    if record.replayKey ≠ some (evmKey P chainId sender nonce) then
      throw (unavailable "Confirmation wallet or nonce differs from durable reservation")
    else
      journal (validateAttemptIdentity kind id
        (.obj [("chainId", .num (.nat chainId)), ("transactionHash", .str (hashText hash))]))

def validateReconciliationPayload (kind : Kind) (id : String) (payload : Json) :
    Work B R EngineError Unit := do
  journal (invoke .ensureHealthy)
  let found ← journal (read (.admission kind id))
  match found with
  | none => throw (unavailable "Missing durable admission")
  | some record =>
    if record.payload ≠ payload ∨ record.state = .quarantined then
      throw (unavailable "Reconciliation payload is changed or quarantined")
    else return ()

/-- The hash of the attempt that won, where the intent is terminal. -/
def terminalEoaProjection (P : Primitives) (id : String) (payload : Json) (chainId : ℕ)
    (sender : Address) (nonce : ℕ) : Work B R EngineError (Option B256) := do
  validateReconciliationPayload .eoa id payload
  match ← journal (read (.admission .eoa id)) with
  | none => throw (unavailable "Missing durable admission")
  | some record =>
    if record.state ≠ .terminal then return none
    else if record.replayKey ≠ some (evmKey P chainId sender nonce) then
      throw (unavailable "Terminal intent has a different nonce reservation")
    else
      match ← journal (read (.terminalEvidence .eoa id)) with
      | none => throw (unavailable "Terminal intent has no durable proof")
      | some proof =>
        if (proof.get? "chainId").bind Json.asU64 ≠ some chainId then
          throw (unavailable "Terminal proof belongs to another chain")
        else
          match strField proof "transactionHash" with
          | none => throw (unavailable "Missing terminal transaction hash")
          | some text =>
            match P.b256 (.str text) with
            | none => throw (unavailable "Invalid terminal transaction hash")
            | some hash => return some hash

/-! ## What they establish -/

section Specs

variable {provider : Provider B R} {chain : Chain} {Φ : S → Database → Prop} {w : World S}

theorem embed_still {provider : Provider B R} (hprovider : ∀ tag, Still P (provider tag))
    (p : Prog BlockNumberOrTag Block α) : Still P (p.embed provider) := by
  induction p with
  | done a => exact fun _ _ _ => trivial
  | ask tag k ih => exact (hprovider tag).bind ih

theorem onChain_silent (hprovider : ∀ tag, Still P (provider tag)) (x : Reads α) :
    Silent P (onChain provider x) :=
  .of_still (embed_still hprovider x.run)

theorem checkContinuity_silent (hprovider : ∀ tag, Still P (provider tag)) :
    Silent P (checkContinuity provider chain) := by
  refine .bind (loadCheckpoint_silent chain.chainId).journal fun previous => ?_
  cases previous with
  | none => exact .ret _
  | some previous =>
    dsimp only
    split_ifs
    · exact .bind (Silent.invoke _).journal fun _ => .fail _
    · refine .bind (onChain_silent hprovider _) fun continuity => ?_
      cases continuity with
      | unavailable => exact .fail _
      | conflict => exact .bind (Silent.invoke _).journal fun _ => .fail _
      | consistent => exact .ret _

/-- The journal accepted the checkpoint of the evidence at some moment between `w` and `w'`. -/
def Accepted (P : Primitives) (chain : Chain) (evidence : FinalityEvidence) (w w' : World S) :
    Prop :=
  ∃ previous, Returned P (.commitCheckpoint chain.chainId previous evidence) true w w'

theorem Accepted.later {evidence : FinalityEvidence} {w w₁ w' : World S}
    (h : Accepted P chain evidence w₁ w') (hl : Later P w w₁) : Accepted P chain evidence w w' := by
  obtain ⟨previous, hr⟩ := h
  exact ⟨previous, hr.later hl⟩

theorem offer_does (hprovider : ∀ tag, Still P (provider tag)) (evidence : FinalityEvidence)
    (tries : ℕ) (previous : Option FinalityEvidence) :
    Does P Φ w (offer provider chain evidence tries previous) fun r w' =>
      ∀ e, r = .finalized e → e = evidence ∧ Accepted P chain evidence w w' := by
  induction tries generalizing w previous with
  | zero => exact .ret (by rintro e ⟨⟩)
  | succ tries ih =>
    unfold offer
    by_cases hlow : previous.any fun old => evidence.checkpointNumber < old.checkpointNumber
    · rw [if_pos hlow]
      exact .ret (by rintro e ⟨⟩)
    rw [if_neg hlow]
    refine (Does.invoke (.commitCheckpoint chain.chainId previous evidence)).journal.bind
      fun accepted w₁ hl₁ _ hreturned => ?_
    split_ifs with haccepted
    · refine .ret ?_
      rintro e ⟨⟩
      obtain rfl : accepted = true := haccepted
      exact ⟨rfl, previous, hreturned⟩
    · exact .ret (by rintro e ⟨⟩)
    · refine (checkContinuity_silent hprovider Φ w₁).bind fun previous w₂ hl₂ _ _ => ?_
      refine (ih previous).mono fun r w' _ _ hr e he => ?_
      obtain ⟨rfl, hacc⟩ := hr e he
      exact ⟨rfl, hacc.later (hl₁.trans hl₂)⟩

/-- **Final evidence was accepted by the journal during the assessment.** -/
theorem assess_does (hprovider : ∀ tag, Still P (provider tag)) (hash : B256) (receipt : Receipt) :
    Does P Φ w (assess provider chain hash receipt) fun r w' =>
      ∀ e, r = .finalized e → Accepted P chain e w w' := by
  refine (checkContinuity_silent hprovider Φ w).bind fun previous w₁ hl₁ _ _ => ?_
  refine (onChain_silent hprovider _ Φ w₁).bind fun assessment w₂ hl₂ _ _ => ?_
  cases assessment with
  | pending canonical | orphaned => exact .ret (by rintro e ⟨⟩)
  | finalized evidence =>
    refine (offer_does hprovider evidence 3 previous).mono fun r w' _ _ hr e he => ?_
    obtain ⟨rfl, hacc⟩ := hr e he
    exact hacc.later (hl₁.trans hl₂)

theorem assess_played {hash : B256} {receipt : Receipt} {w' : World S} {a : FinalityAssessment}
    {l : List (Entry (Ask X S) (Answer B R) (World S))}
    (hp : Played (machine P B R) (assess provider chain hash receipt).run w l (.ok a) w') :
    receipt.transactionHash = hash ∧ receipt.status.isSome := by
  obtain ⟨_, h, _⟩ | ⟨previous, _, l₁, w₁, _, _, hp⟩ := played_bind hp
  · cases h
  obtain ⟨_, h, _⟩ | ⟨assessment, _, l₂, w₂, _, hreads, _⟩ := played_bind hp
  · cases h
  unfold assessReceiptFinality at hreads
  by_cases hvalid : ¬chain.policy.validate chain.chainId
  · rw [if_pos hvalid] at hreads
    cases hreads.2.1
  rw [if_neg hvalid] at hreads
  by_cases hhash : receipt.transactionHash ≠ hash
  · rw [if_pos hhash] at hreads
    cases hreads.2.1
  rw [if_neg hhash] at hreads
  by_cases hstatus : receipt.status.isNone
  · rw [if_pos hstatus] at hreads
    cases hreads.2.1
  exact ⟨not_not.mp hhash, Option.isSome_iff_ne_none.mpr (by simpa using hstatus)⟩

theorem validateEoaConfirmation_silent (kind : Kind) (id : String) (chainId : ℕ)
    (sender : Address) (nonce : ℕ) (hash : B256) :
    Silent P (validateEoaConfirmation P kind id chainId sender nonce hash :
      Work B R EngineError Unit) := by
  refine .bind (Silent.read _).journal fun found => ?_
  cases found with
  | none => exact .fail _
  | some record =>
    dsimp only
    split_ifs
    · exact .fail _
    · exact (validateAttemptIdentity_silent kind id _).journal

theorem validateReconciliationPayload_silent (kind : Kind) (id : String) (payload : Json) :
    Silent P (validateReconciliationPayload kind id payload : Work B R EngineError Unit) := by
  refine .bind (Silent.invoke _).journal fun _ => .bind (Silent.read _).journal fun found => ?_
  cases found with
  | none => exact .fail _
  | some record =>
    dsimp only
    split_ifs
    · exact .fail _
    · exact .ret _

theorem terminalEoaProjection_silent (id : String) (payload : Json) (chainId : ℕ)
    (sender : Address) (nonce : ℕ) :
    Silent P (terminalEoaProjection P id payload chainId sender nonce :
      Work B R EngineError (Option B256)) := by
  refine .bind (validateReconciliationPayload_silent .eoa id payload) fun _ => ?_
  refine .bind (Silent.read _).journal fun found => ?_
  cases found with
  | none => exact .fail _
  | some record =>
    dsimp only
    split_ifs
    · exact .ret _
    · exact .fail _
    · refine .bind (Silent.read _).journal fun proof => ?_
      cases proof with
      | none => exact .fail _
      | some proof =>
        dsimp only
        split_ifs
        · exact .fail _
        cases strField proof "transactionHash" with
        | none => exact .fail _
        | some text =>
          dsimp only
          cases P.b256 (.str text) with
          | none => exact .fail _
          | some hash => exact .ret _

end Specs

end EngineCore.Executors
