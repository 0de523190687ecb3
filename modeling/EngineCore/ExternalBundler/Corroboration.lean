import EngineCore.ExternalBundler.Confirm
import EngineCore.Recovery.Evidence

/-!
# What a settled confirmation rests on

A confirmation that reports an outcome has seen it on the chain, whatever the bundler said, and has
it recorded in the journal.

* `Recorded`: an attempt of the admission with the identity of the job; `RecordedOutcome`: a
  terminal record with an outcome;
* **`confirmation_sound`**: in every run of any number of confirmations, with any answers.
-/

namespace EngineCore.ExternalBundler

open Interact Recovery Executors
open Twmq (JobError BorrowedJob)
open Send (addressJson u256Json)
open Except (bind_ok pure_ok)

/-! ## Events -/

/-- What the entrypoint says of an operation it has executed. -/
structure UserOperationEvent where
  userOpHash : B256
  sender : Address
  nonce : U256
  success : Bool
  actualGasCost : U256
  actualGasUsed : U256
  deriving DecidableEq, Repr

def flag? (w : U256) : Option Bool :=
  if w = 1 then some true else if w = 0 then some false else none

def Log.event? (log : Log) : Option UserOperationEvent :=
  match log.topics with
  | [topic, hash, sender, _] =>
    if topic = userOperationEventTopic ∧ sender = (sender.setWidth 160).setWidth 256 ∧
        log.data.length = 128 then
      (flag? (word ((log.data.drop 32).take 32))).map fun success =>
        ⟨hash, sender.setWidth 160, word (log.data.take 32), success,
          word ((log.data.drop 64).take 32), word (log.data.drop 96)⟩
    else none
  | _ => none

/-- A live log of the entrypoint with the topics of an operation's event. -/
structure Log.Announces (entrypoint : Address) (hash : B256) (sender : Address) (log : Log) :
    Prop where
  live : log.removed = false
  emitter : log.address = entrypoint
  topics : ∃ paymaster,
    log.topics = [userOperationEventTopic, hash, sender.setWidth 256, paymaster]

/-- Just one entry of the list has the property. -/
def Sole {α : Type} (φ : α → Prop) (xs : List α) (x : α) : Prop :=
  ∃ before after, xs = before ++ x :: after ∧ φ x ∧ ∀ y ∈ before ++ after, ¬φ y

theorem Sole.of_filter {α : Type} {φ : α → Prop} {p : α → Bool} (hp : ∀ a, p a = true ↔ φ a)
    {xs : List α} {x : α} (h : xs.filter p = [x]) : Sole φ xs x := by
  obtain ⟨before, after, rfl, hbefore, hx, hafter⟩ := List.filter_eq_cons_iff.mp h
  refine ⟨before, after, rfl, (hp x).mp hx, fun y hy hφ => ?_⟩
  rcases List.mem_append.mp hy with hy | hy
  · exact hbefore y hy ((hp y).mpr hφ)
  · exact List.filter_eq_nil_iff.mp hafter y hy ((hp y).mpr hφ)

theorem topic_eq {t : B256} {a : Address} :
    (t >>> 160 = 0 ∧ t.setWidth 160 = a) ↔ t = a.setWidth 256 := by
  constructor
  · rintro ⟨hhigh, rfl⟩
    have hzero : t.toNat / 2 ^ 160 = 0 := by
      have := congrArg BitVec.toNat hhigh
      simpa [Nat.shiftRight_eq_div_pow] using this
    have hlt : t.toNat < 2 ^ 160 := by omega
    refine BitVec.eq_of_toNat_eq ?_
    rw [BitVec.toNat_setWidth, BitVec.toNat_setWidth, Nat.mod_eq_of_lt hlt,
      Nat.mod_eq_of_lt (by omega)]
  · rintro rfl
    have ha : a.toNat < 2 ^ 160 := a.isLt
    constructor
    · refine BitVec.eq_of_toNat_eq ?_
      rw [BitVec.toNat_ushiftRight, BitVec.toNat_setWidth, Nat.shiftRight_eq_div_pow,
        Nat.mod_eq_of_lt (by omega)]
      exact Nat.div_eq_of_lt ha
    · refine BitVec.eq_of_toNat_eq ?_
      rw [BitVec.toNat_setWidth, BitVec.toNat_setWidth, Nat.mod_eq_of_lt (by omega : a.toNat < 2 ^ 256),
        Nat.mod_eq_of_lt ha]

section Events

variable {job : UserOpConfirmationJobData} {receipt : UserOperationReceipt} {log : Log}

theorem matchesLog_iff {entrypoint : Address} (he : job.entrypointAddress = some entrypoint) :
    matchesLog job log = true ↔
      log.Announces entrypoint (word job.userOpHash) job.accountAddress := by
  unfold matchesLog
  constructor
  · intro h
    simp only [Bool.and_eq_true, Bool.not_eq_true', decide_eq_true_eq, he, Option.some.injEq] at h
    obtain ⟨⟨hlive, haddress⟩, htopics⟩ := h
    refine ⟨hlive, haddress, ?_⟩
    split at htopics
    · next topic hash sender paymaster heq =>
      simp only [Bool.and_eq_true, decide_eq_true_eq] at htopics
      obtain ⟨⟨⟨rfl, rfl⟩, hhigh⟩, hlow⟩ := htopics
      exact ⟨paymaster, by rw [heq, topic_eq.mp ⟨hhigh, hlow⟩]⟩
    · simp at htopics
  · rintro ⟨hlive, haddress, paymaster, htopics⟩
    obtain ⟨hhigh, hlow⟩ := topic_eq.mpr (rfl : job.accountAddress.setWidth 256 = _)
    simp [hlive, haddress, he, htopics, hhigh, hlow]

/-- The event of the job's operation, with the values of the bundler. -/
def expectedEvent (job : UserOpConfirmationJobData) (receipt : UserOperationReceipt) :
    UserOperationEvent where
  userOpHash := word job.userOpHash
  sender := job.accountAddress
  nonce := job.nonce
  success := receipt.success
  actualGasCost := receipt.actualGasCost
  actualGasUsed := receipt.actualGasUsed

theorem event_of_matches {entrypoint : Address}
    (hlog : log.Announces entrypoint (word job.userOpHash) job.accountAddress)
    (hdata : matchesData job receipt log.data = true) :
    log.event? = some (expectedEvent job receipt) := by
  obtain ⟨paymaster, htopics⟩ := hlog.topics
  have hsender : (job.accountAddress.setWidth 256).setWidth 160 = job.accountAddress :=
    (topic_eq.mpr rfl).2
  simp only [matchesData, Bool.and_eq_true, decide_eq_true_eq] at hdata
  obtain ⟨⟨⟨⟨hlen, hnonce⟩, hflag⟩, hcost⟩, hused⟩ := hdata
  have hsuccess : flag? (word ((log.data.drop 32).take 32)) = some receipt.success := by
    rw [hflag]
    cases receipt.success <;> rfl
  simp [Log.event?, htopics, hsender, hlen, hsuccess, expectedEvent, hnonce, hcost, hused]

theorem event_of_eventMatches {entrypoint : Address} {canonical : TransactionReceipt}
    (he : job.entrypointAddress = some entrypoint)
    (h : useropEventMatches job receipt canonical = true) :
    ∃ log, Sole (Log.Announces entrypoint (word job.userOpHash) job.accountAddress)
      canonical.logs log ∧ log.event? = some (expectedEvent job receipt) := by
  unfold useropEventMatches at h
  split at h
  · next log heq =>
    have hsole := Sole.of_filter (fun _ => matchesLog_iff he) heq
    obtain ⟨_, _, _, hlog, _⟩ := id hsole
    exact ⟨log, hsole, event_of_matches hlog h⟩
  · cases h

end Events

/-! ## The journal -/

/-- The decoders of the journal read back what the executors write. -/
structure Lawful (P : Primitives) : Prop where
  address : ∀ a, P.address (addressJson P a) = some a
  u256 : ∀ n, P.u256 (u256Json n) = some n.toNat
  b256 : ∀ bytes : Bytes, bytes.length = 32 → P.b256 (.str (Hex.text bytes)) = some (word bytes)

/-- The operation of the job is that of a recorded attempt of its admission. -/
structure RecordedAttempt (P : Primitives) (d : UserOpConfirmationJobData) (entrypoint : Address)
    (a : Attempt) : Prop where
  id : a.id = d.transactionId
  replayKey : a.replayKey = erc4337Key P d.chainId entrypoint d.accountAddress d.nonce.toNat
  chainId : field Json.asU64 a.payload "chainId" = .ok d.chainId
  sender : field P.address a.payload "sender" = .ok d.accountAddress
  target : field P.address a.payload "entrypoint" = .ok entrypoint
  nonce : field P.u256 a.payload "nonce" = .ok d.nonce.toNat
  operation : ∃ operation, field P.userOp a.payload "userOperation" = .ok operation ∧
    operation d.chainId entrypoint = some (word d.userOpHash)

/-- A terminal record of the job with an outcome. -/
def RecordedOutcome (d : UserOpConfirmationJobData) (success : Bool) (db : Database) : Prop :=
  (∃ r ∈ db.admissions, r.id = d.transactionId ∧ r.kind = .erc4337 ∧ r.state = .terminal) ∧
    ∃ e ∈ db.evidence, e.id = d.transactionId ∧
      strField e.evidence "userOperationHash" = some (Hex.text d.userOpHash) ∧
      strField e.evidence "outcome" = some (Confirm.outcomeText success)

section Records

variable {P : Primitives} {d : UserOpConfirmationJobData} {entrypoint : Address} {db : Database}

theorem field_ok {α : Type} {decode : Json → Option α} {v : Json} {name : String} {a : α} :
    field decode v name = .ok a ↔ ∃ x, v.get? name = some x ∧ decode x = some a := by
  simp [field, bind_ok, require_ok]

theorem toOption_eq_some {α : Type} {r : Result α} {a : α} : r.toOption = some a ↔ r = .ok a := by
  cases r <;> simp [Except.toOption]

theorem recordedAttempt_of_matches (hP : Lawful P) (hhash : d.userOpHash.length = 32)
    (hentry : d.entrypointAddress = some entrypoint) {a : Attempt} (hid : a.id = d.transactionId)
    (h : attemptMatches P .erc4337 a.replayKey (Confirm.durableUseropIdentity P d) a.payload
      = .ok true) : RecordedAttempt P d entrypoint a := by
  have hchain : ∀ c, field Json.asU64 (Confirm.durableUseropIdentity P d) "chainId" = .ok c →
      c = d.chainId := by
    intro c hc
    obtain ⟨x, hx, hdecode⟩ := field_ok.mp hc
    obtain rfl : Json.num (.nat d.chainId) = x := Option.some.inj hx
    simp only [Json.asU64] at hdecode
    split_ifs at hdecode
    exact (Option.some.inj hdecode).symm
  have hsender : field P.address (Confirm.durableUseropIdentity P d) "sender"
      = .ok d.accountAddress := field_ok.mpr ⟨_, rfl, hP.address _⟩
  have hentrypoint : field P.address (Confirm.durableUseropIdentity P d) "entrypoint"
      = .ok entrypoint := by
    refine field_ok.mpr ⟨addressJson P entrypoint, ?_, hP.address _⟩
    rw [Confirm.durableUseropIdentity, Confirm.durableIdentity, hentry]
    rfl
  have hnonce : field P.u256 (Confirm.durableUseropIdentity P d) "nonce" = .ok d.nonce.toNat :=
    field_ok.mpr ⟨_, rfl, hP.u256 _⟩
  have hwanted : field P.b256 (Confirm.durableUseropIdentity P d) "userOperationHash"
      = .ok (word d.userOpHash) := field_ok.mpr ⟨_, rfl, hP.b256 _ hhash⟩
  simp only [attemptMatches, bind_ok, hsender, hentrypoint, hnonce, hwanted, Except.ok.injEq,
    exists_eq_left', refuse_ok, not_not, exists_const, pure_ok, decide_eq_true_eq,
    toOption_eq_some] at h
  obtain ⟨chainId, hchainId, hkey, operation, hoperation, hc, hs, he, hn, hop⟩ := h
  obtain rfl := hchain chainId hchainId
  exact ⟨hid, hkey, hc, hs, he, hn, operation, hoperation, hop⟩

theorem recordedOutcome_iff {success : Bool} : RecordedOutcome d success db ↔
    db.Records .erc4337 d.transactionId [("userOperationHash", Hex.text d.userOpHash),
      ("outcome", Confirm.outcomeText success)] := by
  simp [RecordedOutcome, Database.Records]

theorem RecordedOutcome.steps {success : Bool} {s s' : State}
    (h : RecordedOutcome d success s.world.db) (hs : s.world.db.Intact) (hsteps : Steps P s s') :
    RecordedOutcome d success s'.world.db :=
  recordedOutcome_iff.mpr ((recordedOutcome_iff.mp h).steps hs hsteps)

/-- **A recorded proof is a terminal record with its outcome.** -/
theorem recordedOutcome_of_granted {canonical : TransactionReceipt} {success : Bool}
    {finality : FinalityEvidence} {l : Recovery.Log}
    (h : Granted P (.recordTerminal "erc4337" d.transactionId
      (Confirm.proof P d canonical success finality)) () l db) : RecordedOutcome d success db := by
  have hkeys : (Json.keys (Confirm.durableIdentity P d ++
      [("transactionHash", .str (hashText canonical.transactionHash)),
        ("outcome", .str (Confirm.outcomeText success)),
        ("finality", Confirm.finalityJson finality)])).Nodup := by
    simp [Confirm.durableIdentity, Json.keys]
  refine recordedOutcome_iff.mpr (h.records rfl hkeys fun t ht => ?_)
  rw [List.mem_cons, List.mem_singleton] at ht
  rcases ht with rfl | rfl
  · exact ⟨by simp, rfl⟩
  · exact ⟨by simp, rfl⟩

end Records

/-! ## What a run has done -/

abbrev Trace := List (Entry (Ask External Dispatch) (Answer Reply Ack) (World Dispatch))

def IsNack {ε : Type} (e : JobError ε) : Prop := ∃ error delay position, e = .nack error delay position

/-- The result is final for its job: it is not a request for another run. -/
def Decided {ε α : Type} (r : Except (JobError ε) α) : Prop := ∀ e, r = .error e → ¬IsNack e

namespace Confirm

section Nacks

variable {P : Primitives} {K : Library} {job : BorrowedJob UserOpConfirmationJobData} {delay : ℕ}

theorem recoveryNack_isNack {ε : Type} (wrap : EngineError → ε) (e : EngineError) :
    IsNack (recoveryNack wrap delay e) := by
  cases e <;> exact ⟨_, _, _, rfl⟩

theorem again_isNack (e : UserOpConfirmationError) : IsNack (again delay e) := ⟨_, _, _, rfl⟩

theorem retrying_raises {α : Type} {wrap : EngineError → UserOpConfirmationError}
    (x : Work Reply Ack EngineError α) : Raises IsNack (retrying delay wrap x) :=
  .adapt fun e => recoveryNack_isNack wrap e

theorem answered_raises {ε α : Type} {wrap : ε → UserOpConfirmationError} (r : Except ε α) :
    Raises IsNack (answered delay wrap r) := by
  intro e he
  cases r with
  | error e' =>
    cases he
    exact again_isNack _
  | ok a => cases he

theorem again_raises {α : Type} (e : UserOpConfirmationError) :
    Raises IsNack (throw (again delay e) : Flow α) := .fail (again_isNack e)

theorem admittedChain_raises : Raises IsNack (admittedChain P K job delay) := by
  unfold admittedChain
  by_cases hid : job.id ≠ job.data.transactionId
  · rw [if_pos hid]
    exact again_raises _
  rw [if_neg hid]
  refine .bind (retrying_raises _) fun _ => .bind (.query _) fun _ => ?_
  exact .bind (answered_raises _) fun _ => .bind (answered_raises _) fun _ => .ret _

theorem corroborated_raises : Raises IsNack (corroborated job delay) := by
  refine .bind (.query _) fun answer => .bind (answered_raises _) fun found => ?_
  cases found with
  | none => exact again_raises _
  | some receipt =>
    dsimp only
    by_cases hid : useropIdentityMatches job.data receipt = false
    · rw [if_pos hid]
      exact again_raises _
    rw [if_neg hid]
    refine .bind (.query _) fun answer => .bind (answered_raises _) fun found => ?_
    cases found with
    | none => exact again_raises _
    | some canonical =>
      dsimp only
      split_ifs
      · exact again_raises _
      · exact .ret _

theorem settle_raises (chain : Finality.Chain) : Raises IsNack (settle P job delay chain) := by
  refine .bind (retrying_raises _) fun _ => .bind corroborated_raises fun found => ?_
  obtain ⟨receipt, canonical⟩ := found
  refine .bind (retrying_raises _) fun assessment => ?_
  cases assessment with
  | finalized finality => exact .bind (retrying_raises _) fun _ => .ret _
  | pending | orphaned => exact again_raises _

end Nacks

section Played

variable {P : Primitives} {K : Library} {options : ConfirmationOptions}
variable {job : BorrowedJob UserOpConfirmationJobData} {delay : ℕ} {w w' : World Dispatch}
variable {l : Trace}

theorem answered_played {ε α : Type} {wrap : ε → UserOpConfirmationError} {r : Except ε α} {a : α}
    (hp : Played (machine P Reply Ack) (answered delay wrap r).run w l (.ok a) w') : r = .ok a := by
  have h := hp.2.1
  cases r with
  | error e => cases h
  | ok b => cases h; rfl

/-- The durable identity of a job, as it has been found in the tables. -/
def Validated (P : Primitives) (d : UserOpConfirmationJobData) (db : Database) : Prop :=
  d.entrypointAddress.isSome ∧ ∃ a ∈ db.attempts, a.id = d.transactionId ∧
    attemptMatches P .erc4337 a.replayKey (durableUseropIdentity P d) a.payload = .ok true

theorem Validated.extends {d : UserOpConfirmationJobData} {db db' : Database}
    (h : Validated P d db) (he : db.Extends db') : Validated P d db' := by
  obtain ⟨hentry, a, ha, hrest⟩ := h
  exact ⟨hentry, a, he.attempts.subset ha, hrest⟩

theorem validateDurableConfirmation_does {Φ : Dispatch → Database → Prop}
    (d : UserOpConfirmationJobData) :
    Does P Φ w (validateDurableConfirmation P K d) fun _ w' => Validated P d w'.db := by
  refine (Does.read (.admission .erc4337 d.transactionId)).journal.bind fun found w₁ _ _ _ => ?_
  cases found with
  | none => exact .fail
  | some record =>
    dsimp only
    cases K.decodeJob record.payload with
    | none => exact .fail
    | some admitted =>
      dsimp only
      by_cases hbad : record.state = .quarantined ∨ agreesWith d admitted = false
      · rw [if_pos hbad]
        exact .fail
      rw [if_neg hbad]
      have hentry : d.entrypointAddress = some admitted.entrypointAddress := by
        have hagrees := (not_or.mp hbad).2
        simp only [agreesWith, Bool.not_eq_false, Bool.and_eq_true, decide_eq_true_eq] at hagrees
        exact hagrees.1.1.2
      refine Does.journal ((Does.invoke _).bind fun _ w₂ _ _ _ => ?_)
      refine (Does.read (.attemptIdentity .erc4337 d.transactionId _)).mono fun _ w₃ _ hw₃ h => ?_
      simp only [Read.exec, Database.attemptIdentity, bind_ok, require_ok, refuse_ok, not_not] at h
      obtain ⟨r, hlookup, _, hkind, hvalid⟩ := h
      obtain ⟨hmem, hid⟩ := mem_of_lookup hlookup
      obtain ⟨a, ha, haid, hmatch⟩ := validateAttemptIdentity_match hw₃.intact hmem hvalid
      exact ⟨by simp [hentry], a, ha, haid.trans hid, hkind ▸ hmatch⟩

theorem admittedChain_played {chain : Finality.Chain} (hw : Reached P w.journal)
    (hp : Played (machine P Reply Ack) (admittedChain P K job delay).run w l (.ok chain) w') :
    chain.chainId = job.data.chainId ∧ Heard l (.getChain job.data.chainId) (.ok chain.policy) ∧
      Validated P job.data w'.db := by
  unfold admittedChain at hp
  by_cases hid : job.id ≠ job.data.transactionId
  · rw [if_pos hid] at hp
    cases hp.2.1
  rw [if_neg hid] at hp
  obtain ⟨_, h, _⟩ | ⟨_, l₁, l₂, w₁, rfl, hvalid, hp⟩ := played_bind hp
  · cases h
  obtain ⟨w₂, hl₂, hl₁, hrecorded⟩ :=
    (validateDurableConfirmation_does (Φ := fun _ _ => True) job.data).played hw (played_adapt hvalid)
  have hw₂ := hw.later hl₂
  have hlater : Later P w₂ w' := hl₁.trans (Played.later hp)
  obtain ⟨_, h, _⟩ | ⟨answer, l₃, l₄, w₃, rfl, hask, hp⟩ := played_bind hp
  · cases h
  obtain ⟨_, h, _⟩ | ⟨policy, l₅, l₆, w₄, rfl, hanswer, hp⟩ := played_bind hp
  · cases h
  obtain ⟨_, h, _⟩ | ⟨_, l₇, l₈, w₅, rfl, _, hp⟩ := played_bind hp
  · cases h
  have hchain := hp.2.1
  cases hchain
  rw [answered_played hanswer] at hask
  refine ⟨rfl, (played_ask hask).mono fun e he => ?_, hrecorded.extends (hw₂.extends hlater)⟩
  simp [he]

/-- The receipt of the bundler and the one of the chain, as they were heard. -/
structure Corroborated (d : UserOpConfirmationJobData) (l : Trace) (receipt : UserOperationReceipt)
    (canonical : TransactionReceipt) : Prop where
  bundler : Heard l (.userOpReceipt d.userOpHash) (.ok (some receipt))
  chain : Heard l (.transactionReceipt receipt.transactionHash) (.ok (some canonical))
  identity : useropIdentityMatches d receipt = true
  corroborates : corroborates d receipt canonical = true

theorem Corroborated.mono {d : UserOpConfirmationJobData} {l l' : Trace}
    {receipt : UserOperationReceipt} {canonical : TransactionReceipt}
    (h : Corroborated d l receipt canonical) (hl : l ⊆ l') : Corroborated d l' receipt canonical :=
  ⟨h.bundler.mono hl, h.chain.mono hl, h.identity, h.corroborates⟩

theorem corroborated_played {receipt : UserOperationReceipt} {canonical : TransactionReceipt}
    (hp : Played (machine P Reply Ack) (corroborated job delay).run w l (.ok (receipt, canonical)) w') :
    Corroborated job.data l receipt canonical := by
  obtain ⟨_, h, _⟩ | ⟨answer, l₁, l₂, w₁, rfl, hask, hp⟩ := played_bind hp
  · cases h
  obtain ⟨_, h, _⟩ | ⟨found, l₃, l₄, w₂, rfl, hanswer, hp⟩ := played_bind hp
  · cases h
  rw [answered_played hanswer] at hask
  have hbundler := played_ask hask
  cases found with
  | none => cases hp.2.1
  | some seen =>
    dsimp only at hp
    by_cases hid : useropIdentityMatches job.data seen = false
    · rw [if_pos hid] at hp
      cases hp.2.1
    rw [if_neg hid] at hp
    obtain ⟨_, h, _⟩ | ⟨answer, l₅, l₆, w₃, rfl, hask, hp⟩ := played_bind hp
    · cases h
    obtain ⟨_, h, _⟩ | ⟨found, l₇, l₈, w₄, rfl, hanswer, hp⟩ := played_bind hp
    · cases h
    rw [answered_played hanswer] at hask
    have hchain := played_ask hask
    cases found with
    | none => cases hp.2.1
    | some own =>
      dsimp only at hp
      by_cases hcorr : ExternalBundler.corroborates job.data seen own = false
      · rw [if_pos hcorr] at hp
        cases hp.2.1
      rw [if_neg hcorr] at hp
      have hret := hp.2.1
      cases hret
      refine ⟨hbundler.mono (List.subset_append_left _ _), hchain.mono ?_, by simpa using hid,
        by simpa using hcorr⟩
      intro e he
      simp [he]

def Assessed (P : Primitives) (chain : Finality.Chain) (hash : B256) (receipt : Finality.Receipt)
    (finality : FinalityEvidence) (l : Trace) : Prop :=
  ∃ before during after w w', l = before ++ during ++ after ∧
    Played (machine P Reply Ack) (assess provider chain hash receipt).run w during
      (.ok (.finalized finality)) w'

theorem settle_played {chain : Finality.Chain} {receipt : UserOperationReceipt}
    {finality : FinalityEvidence} (hw : Reached P w.journal)
    (hp : Played (machine P Reply Ack) (settle P job delay chain).run w l (.ok (receipt, finality)) w') :
    ∃ canonical, Corroborated job.data l receipt canonical ∧
      Assessed P chain receipt.transactionHash canonical.toReceipt finality l ∧
      RecordedOutcome job.data receipt.success w'.db := by
  obtain ⟨_, h, _⟩ | ⟨_, l₁, l₂, w₁, rfl, hcont, hp⟩ := played_bind hp
  · cases h
  obtain ⟨_, h, _⟩ | ⟨found, l₃, l₄, w₂, rfl, hcorr, hp⟩ := played_bind hp
  · cases h
  obtain ⟨seen, canonical⟩ := found
  obtain ⟨_, h, _⟩ | ⟨assessment, l₅, l₆, w₃, rfl, hassess, hp⟩ := played_bind hp
  · cases h
  have hw₃ := ((hw.later (Played.later hcont)).later (Played.later hcorr)).later (Played.later hassess)
  cases assessment with
  | pending => cases hp.2.1
  | orphaned => cases hp.2.1
  | finalized evidence =>
    dsimp only at hp
    obtain ⟨_, h, _⟩ | ⟨_, l₇, l₈, w₄, rfl, hrecord, hp⟩ := played_bind hp
    · cases h
    have hret := hp.2.1
    cases hret
    have hcall := played_adapt (played_adapt hrecord)
    obtain ⟨w₅, hl₅, hl₄, hreturned⟩ := (Does.invoke (Φ := fun _ _ => True) _).played hw₃ hcall
    obtain ⟨_, t, ht, ht', hgranted, _⟩ := hreturned
    have houtcome := (recordedOutcome_of_granted hgranted).steps (ht.intact hw₃.intact) ht'
    refine ⟨canonical, (corroborated_played hcorr).mono fun e he => ?_,
      ⟨l₁ ++ l₃, l₅, l₇ ++ l₈, w₂, w₃, ?_, played_adapt hassess⟩, ?_⟩
    · simp [he]
    · simp only [List.append_assoc]
    · have hlater := hl₄.trans (Played.later hp)
      exact houtcome.steps (hw₃.later hl₅).intact hlater.journal

theorem process_played {r : Except Failure UserOpConfirmationResult} (hr : Decided r)
    (hp : Played (machine P Reply Ack) (process P K options job).run w l r w') :
    ∃ delay chain receipt finality l₀ l₁ l₂ w₀ w₁, l = l₀ ++ (l₁ ++ l₂) ∧ Later P w w₀ ∧
      Played (machine P Reply Ack) (admittedChain P K job delay).run w₀ l₁ (.ok chain) w₁ ∧
      Played (machine P Reply Ack) (settle P job delay chain).run w₁ l₂ (.ok (receipt, finality)) w' ∧
      r = report job.data receipt finality := by
  have hnot : ∀ {α : Type} {x : Flow α} {l : Trace} {w w' : World Dispatch} {e : Failure},
      Raises IsNack x → r = .error e → ¬Played (machine P Reply Ack) x.run w l (.error e) w' :=
    fun hx he hp => hr _ he (Prog.Ends.played hx hp _ rfl)
  obtain ⟨_, he, hbad⟩ | ⟨now, l₀, _, w₀, rfl, hnow, hp⟩ := played_bind hp
  · exact absurd hbad (hnot (.query _) he)
  obtain ⟨_, he, hbad⟩ | ⟨chain, l₁, _, w₁, rfl, hadmitted, hp⟩ := played_bind hp
  · exact absurd hbad (hnot admittedChain_raises he)
  obtain ⟨_, he, hbad⟩ | ⟨found, l₂, l₃, w₂, rfl, hsettle, hp⟩ := played_bind hp
  · exact absurd hbad (hnot (settle_raises chain) he)
  obtain ⟨receipt, finality⟩ := found
  obtain ⟨rfl, hreport, hlater⟩ := hp
  refine ⟨_, chain, receipt, finality, l₀, l₁, l₂, w₀, w₁, ?_, Played.later hnow, hadmitted,
    hsettle.env (fun _ _ _ => Later.trans) hlater, hreport⟩
  rw [List.append_nil]

end Played

end Confirm

/-! ## Soundness -/

/-- Everything that an outcome reported by a run rests on. -/
structure Settled (P : Primitives) (d : UserOpConfirmationJobData) (l : Trace) (db : Database)
    (receipt : UserOperationReceipt) (canonical : TransactionReceipt) (finality : FinalityEvidence)
    (event : UserOperationEvent) : Prop where
  /-- What the bundler said of the operation, and the chain of the transaction it named. -/
  bundler : Heard l (.userOpReceipt d.userOpHash) (.ok (some receipt))
  chain : Heard l (.transactionReceipt receipt.transactionHash) (.ok (some canonical))
  transaction : canonical.transactionHash = receipt.transactionHash
  status : canonical.status = some true
  blockHash : canonical.blockHash = receipt.blockHash
  blockNumber : canonical.blockNumber = receipt.blockNumber
  hashLength : d.userOpHash.length = 32
  /-- The single event of the operation in the chain's receipt, and the recorded attempt. -/
  executed : ∃ entrypoint, d.entrypointAddress = some entrypoint ∧
    (∃ log, Sole (Log.Announces entrypoint (word d.userOpHash) d.accountAddress) canonical.logs log ∧
      log.event? = some event) ∧
    ∃ a ∈ db.attempts, RecordedAttempt P d entrypoint a
  values : event = expectedEvent d receipt
  assessed : ∃ policy, Heard l (.getChain d.chainId) (.ok policy) ∧
    Confirm.Assessed P ⟨d.chainId, policy⟩ receipt.transactionHash canonical.toReceipt finality l
  outcome : RecordedOutcome d event.success db

section Soundness

variable {P : Primitives} {K : Library} {options : ConfirmationOptions}

theorem settled_of_played (hP : Lawful P) {job : BorrowedJob UserOpConfirmationJobData}
    {w w' : World Dispatch} {l : Trace} {r : Except Confirm.Failure UserOpConfirmationResult}
    (hw : Reached P w.journal) (hr : Decided r)
    (hp : Played (machine P Reply Ack) (Confirm.process P K options job).run w l r w') :
    ∃ receipt canonical finality event,
      Settled P job.data l w'.db receipt canonical finality event ∧
      r = Confirm.report job.data receipt finality := by
  obtain ⟨delay, chain, receipt, finality, l₀, l₁, l₂, w₀, w₁, rfl, hl₀, hadmitted, hsettle, hreport⟩ :=
    Confirm.process_played hr hp
  have hw₀ := hw.later hl₀
  have hw₁ := hw₀.later (Played.later hadmitted)
  obtain ⟨hchain, hpolicy, hvalid⟩ := Confirm.admittedChain_played hw₀ hadmitted
  obtain ⟨canonical, hcorr, hassessed, houtcome⟩ := Confirm.settle_played hw₁ hsettle
  have hid := hcorr.identity
  simp only [useropIdentityMatches, Bool.and_eq_true, decide_eq_true_eq] at hid
  have hcan := hcorr.corroborates
  simp only [corroborates, Bool.and_eq_true, decide_eq_true_eq] at hcan
  obtain ⟨⟨⟨⟨hlen, _⟩, _⟩, _⟩, hentry⟩ := hid
  obtain ⟨⟨⟨hblockHash, hblockNumber⟩, hsucceeded⟩, hevent⟩ := hcan
  obtain ⟨before, during, after, u, u', rfl, hrun⟩ := hassessed
  obtain ⟨htransaction, hstatus⟩ := assess_played hrun
  have hin : ∀ e ∈ before ++ during ++ after, e ∈ l₀ ++ (l₁ ++ (before ++ during ++ after)) := by
    intro e he
    simp only [List.mem_append] at he ⊢
    exact .inr (.inr he)
  obtain ⟨_, a, ha, haid, hmatch⟩ := hvalid.extends (hw₁.extends (Played.later hsettle))
  refine ⟨receipt, canonical, finality, expectedEvent job.data receipt, ?_, hreport⟩
  exact {
    bundler := hcorr.bundler.mono hin
    chain := hcorr.chain.mono hin
    transaction := htransaction
    status := by
      obtain ⟨status, hsome⟩ := Option.isSome_iff_exists.mp hstatus
      rw [TransactionReceipt.succeeded, hsome] at hsucceeded
      rw [hsome, show status = true from hsucceeded]
    blockHash := hblockHash
    blockNumber := hblockNumber
    hashLength := hlen
    executed := ⟨receipt.entryPoint, hentry, event_of_eventMatches hentry hevent, a, ha,
      recordedAttempt_of_matches hP hlen hentry haid hmatch⟩
    values := rfl
    assessed := by
      refine ⟨chain.policy, hpolicy.mono fun e he => by simp [he], l₀ ++ (l₁ ++ before), during,
        after, u, u', ?_, ?_⟩
      · simp only [List.append_assoc]
      · rw [← hchain]
        exact hrun
    outcome := houtcome }

/-- **A reported outcome is the chain's own.** For every confirmation job, any number of runs side
by side, any answers of bundler, chain and Redis and any other use of the journal: a run that does
not ask for another one reports the outcome of the bundler's receipt, and everything `Settled` says
holds of it; it is a success just where the event says so. -/
theorem confirmation_sound (hP : Lawful P) {w : World Dispatch} (hw : Reached P w.journal)
    {s : Pool.State (Ask External Dispatch) (Answer Reply Ack) (World Dispatch)
      (BorrowedJob UserOpConfirmationJobData)
      (fun _ => Except Confirm.Failure UserOpConfirmationResult)}
    (hs : (pool P fun job => Confirm.process P K options job).Steps (.initial w) s) :
    ∀ o ∈ s.outcomes, Decided o.result → ∃ receipt canonical finality event,
      Settled P o.job.data o.log o.world.db receipt canonical finality event ∧
      o.result = Confirm.report o.job.data receipt finality ∧
      ((∃ v, o.result = .ok v) ↔ event.success = true) := by
  intro o ho hdecided
  obtain ⟨hstart, hplayed⟩ := played_of_steps hs o ho
  obtain ⟨receipt, canonical, finality, event, hsettled, hresult⟩ :=
    settled_of_played hP (hw.later hstart) hdecided hplayed
  refine ⟨receipt, canonical, finality, event, hsettled, hresult, ?_⟩
  rw [hresult, hsettled.values]
  simp only [Confirm.report, expectedEvent]
  cases receipt.success <;> simp

end Soundness

/-! ## A confirmed operation -/

namespace Sample

/-- The word in 32 bytes after `0x`. -/
def hash (v : Json) : Option B256 :=
  (v.asStr.bind Hex.parse).bind fun bytes => if bytes.length = 32 then some (word bytes) else none

/-- Decoders that read what the executors write; an operation is the number of its hash. -/
def primitives : Primitives :=
  { Recovery.Sample.primitives with
    sha256 := fun _ => ""
    b256 := hash
    address := fun v => (v.asStr.bind Hex.number).map (BitVec.ofNat 160)
    u256 := fun v => v.asStr.bind Hex.number
    addressText := fun a => Hex.quantity a.toNat
    userOp := fun v => v.asU64.map fun n _ _ => some (BitVec.ofNat 256 n) }

theorem lawful : Lawful primitives where
  address a := by
    change ((Hex.number (Hex.quantity a.toNat)).map (BitVec.ofNat 160)) = some a
    rw [Hex.number_quantity, Option.map_some, BitVec.ofNat_toNat, BitVec.setWidth_eq]
  u256 n := Hex.number_quantity n.toNat
  b256 bs hbs := by
    change hash (.str (Hex.text bs)) = _
    simp [hash, Json.asStr, Hex.parse_text, hbs]

def request : ExternalBundlerSendJobData where
  transactionId := "t1"
  chainId := 1
  transactions := .null
  gasLimits := []
  signerAddress := 1
  smartAccountAddress := some 7
  accountSalt := ""
  entrypointAddress := 5
  factoryAddress := 6
  signingCredential := .null
  webhookOptions := .null
  rpcCredentials := .null
  pregeneratedNonce := some 0

def library : Library where
  encodeJob _ := .null
  decodeJob _ := some request
  headerMap _ := .ok ()

def sendJob : BorrowedJob ExternalBundlerSendJobData := ⟨"t1", request, 1, 0, 0, ⟨0, "t1", 1, "p"⟩⟩

/-- The operation with hash `n`. -/
def operation (n : ℕ) : Send.Built := ⟨7, 0, none, ⟨.num (.nat n)⟩⟩

def opened : State :=
  State.after primitives none (.initial Recovery.Sample.world) (.openJournal none)

def admitted : State := State.after primitives none opened
  (.reserveAdmission "erc4337" "t1" "" .null)

/-- The journal after the operations with these hashes were reserved. -/
def reserved (hashes : List ℕ) : State :=
  hashes.foldl (fun s n => State.after primitives none s (.beforeBroadcast "erc4337" "t1"
    (Send.replayKey primitives sendJob (operation n))
    (Send.attemptPayload primitives sendJob (operation n)))) admitted

def job : BorrowedJob UserOpConfirmationJobData :=
  ⟨"t1", confirmationJob sendJob ⟨7, 0, Hex.bytesBE 32 9, ⟨.num (.nat 9)⟩, false, none⟩, 1, 0, 0,
    ⟨0, "t1", 1, "p"⟩⟩

/-- The event of the operation with hash `n`. -/
def eventLog (n : ℕ) : Log where
  removed := false
  address := 5
  topics := [userOperationEventTopic, BitVec.ofNat 256 n, 7, 0]
  data := Hex.bytesBE 32 0 ++ Hex.bytesBE 32 1 ++ Hex.bytesBE 32 3 ++ Hex.bytesBE 32 2

/-- A chain that has included the operation with hash `n`, and a bundler that knows it. -/
def outside (n : ℕ) : (x : External) → World Dispatch → Reply x
  | .now, _ => 1
  | .getChain _, _ => .ok .finalized
  | .userOpReceipt hash, _ =>
    .ok (if hash = Hex.bytesBE 32 n then
      some ⟨hash, 5, 7, 0, 3, 2, true, 11, some 4, some 4⟩ else none)
  | .transactionReceipt _, _ => .ok (some ⟨⟨11, some true, some 4, some 4⟩, [eventLog n]⟩)
  | .block tag, _ => .ok (some (match tag with
    | .number n => ⟨n, BitVec.ofNat 256 n⟩
    | _ => ⟨8, 8⟩))

def ack (_ : Dispatch) : Except CallError Bytes := .ok []

def workers := pool primitives fun job => Confirm.process primitives library {} job

set_option maxRecDepth 10000 in
theorem opened_up : opened.world.up = true := by decide +kernel

set_option maxRecDepth 10000 in
theorem admitted_up : admitted.world.up = true := by decide +kernel

theorem admitted_steps : Steps primitives (.initial Recovery.Sample.world) admitted :=
  (Steps.call _ _ rfl rfl).trans (Steps.call _ _ rfl opened_up)

theorem reserved_steps : Steps primitives (.initial Recovery.Sample.world) (reserved [9]) :=
  admitted_steps.trans (Steps.call _ _ rfl admitted_up)

set_option maxRecDepth 10000 in
theorem confirmed : ((workers.body job).exec (solo primitives (outside 9) ack)
    ⟨reserved [9], []⟩).1.isOk = true := by decide +kernel

end Sample

theorem confirmation_sound_confirmed : ∃ l db receipt canonical finality event,
    Settled Sample.primitives Sample.job.data l db receipt canonical finality event ∧
      event.success = true := by
  obtain ⟨s, hsteps, _, l, houtcomes⟩ := Pool.Steps.exec (S := Sample.workers)
    (solo_act (Sample.outside 9) Sample.ack) ⟨Sample.reserved [9], []⟩ Sample.job
  obtain ⟨v, hv⟩ : ∃ v, ((Sample.workers.body Sample.job).exec
      (solo Sample.primitives (Sample.outside 9) Sample.ack) ⟨Sample.reserved [9], []⟩).1 = .ok v := by
    have hok := Sample.confirmed
    cases hr : ((Sample.workers.body Sample.job).exec
      (solo Sample.primitives (Sample.outside 9) Sample.ack) ⟨Sample.reserved [9], []⟩).1 with
    | error e =>
      rw [hr] at hok
      cases hok
    | ok v => exact ⟨v, rfl⟩
  rw [hv] at houtcomes
  have hreached : Reached Sample.primitives (Sample.reserved [9]) :=
    ⟨_, Recovery.Sample.founded, Sample.reserved_steps⟩
  obtain ⟨receipt, canonical, finality, event, hsettled, _, hsuccess⟩ :=
    confirmation_sound (w := ⟨Sample.reserved [9], []⟩) Sample.lawful hreached hsteps _
      (by rw [houtcomes]; exact List.mem_singleton_self _) (by rintro e ⟨⟩)
  exact ⟨_, _, receipt, canonical, finality, event, hsettled, hsuccess.mp ⟨v, rfl⟩⟩

end EngineCore.ExternalBundler
