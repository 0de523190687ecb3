import EngineCore.Solana.Worker

/-!
# What a Solana run sends

* `Quiet`: the steps of a run that neither send nor build an attempt; `Tame`, `Still`: those that
  leave Redis and the reservations alone;
* **`process_sound`**: whatever happens meanwhile, a run sends only journaled wires.
-/

namespace EngineCore.Solana

open Interact Recovery Executors
open Except (bind_ok)

variable {P : Primitives} {K : Sdk} {job : SolanaExecutorJobData} {v : World Dispatch}

/-! ## Recorded attempts -/

/-- The journal holds the attempt, under the key of its signature. -/
def Reserved (P : Primitives) (K : Sdk) (job : SolanaExecutorJobData)
    (a : SolanaTransactionAttempt) (db : Database) : Prop :=
  ∃ row ∈ db.attempts, row.id = job.transactionId ∧
    row.replayKey = solanaKey P job.chainId a.signature ∧
    row.payload = (durableAttemptPayload P K job a).sort

variable {a : SolanaTransactionAttempt}

theorem Reserved.extends {db db' : Database}
    (h : Reserved P K job a db) (he : db.Extends db') : Reserved P K job a db' := by
  obtain ⟨row, hrow, hfacts⟩ := h
  exact ⟨row, he.attempts.subset hrow, hfacts⟩

/-- The attempt without the counters of Redis. -/
def SolanaTransactionAttempt.durable (a : SolanaTransactionAttempt) : SolanaTransactionAttempt :=
  { a with
    broadcastAttempts := 0, lastBroadcastAt := 0, reconciliationChecks := 0
    restoredFromJournal := false }

theorem durable_get? (a : SolanaTransactionAttempt) (k : String) :
    (durableAttemptPayload P K job a).sort.get? k
      = ((durableAttemptPayload P K job a).get? k).map Json.sort := by
  unfold durableAttemptPayload
  refine Json.get?_sort ?_ k
  simp [Json.keys]

theorem durable_attempt (a : SolanaTransactionAttempt) :
    (durableAttemptPayload P K job a).sort.get? "attempt"
      = some (SolanaTransactionAttempt.toJson P K a.durable).sort := by
  rw [durable_get?]
  simp [durableAttemptPayload, Json.get?, List.lookup_cons, SolanaTransactionAttempt.durable]

theorem attempt_get? (a : SolanaTransactionAttempt) (k : String) :
    (SolanaTransactionAttempt.toJson P K a.durable).sort.get? k
      = ((SolanaTransactionAttempt.toJson P K a.durable).get? k).map Json.sort := by
  unfold SolanaTransactionAttempt.toJson
  refine Json.get?_sort ?_ k
  simp [Json.keys, SolanaTransactionAttempt.durable]

theorem durable_wire (a : SolanaTransactionAttempt) :
    strField (SolanaTransactionAttempt.toJson P K a.durable).sort "signed_transaction"
      = a.signedTransaction := by
  unfold strField
  rw [attempt_get?]
  cases h : a.signedTransaction <;>
    simp [SolanaTransactionAttempt.toJson, Json.get?, List.lookup_cons, Json.sort, Json.asStr,
      SolanaTransactionAttempt.durable, h]

theorem durable_signature (a : SolanaTransactionAttempt) :
    strField (SolanaTransactionAttempt.toJson P K a.durable).sort "signature"
      = some (P.signatureText a.signature) := by
  unfold strField
  rw [attempt_get?]
  simp [SolanaTransactionAttempt.toJson, Json.get?, Json.sort, Json.asStr,
    SolanaTransactionAttempt.durable]

theorem durable_chain (a : SolanaTransactionAttempt) :
    strField (durableAttemptPayload P K job a).sort "chainId" = some job.chainId := by
  unfold strField
  rw [durable_get?]
  simp [durableAttemptPayload, Json.get?, Json.sort, Json.asStr]

def recordedWire (row : Attempt) : Option String :=
  (row.payload.get? "attempt").bind fun a => strField a "signed_transaction"

theorem recordedWire_eq {row : Attempt}
    (h : row.payload = (durableAttemptPayload P K job a).sort) :
    recordedWire row = a.signedTransaction := by
  unfold recordedWire
  rw [h, durable_attempt, Option.bind_some, durable_wire]

/-! ## The steps towards a send -/

/-- The signature that a wire carries: the first one of the transaction it encodes. -/
def wireSignature (K : Sdk) (wire : String) : Option Signature :=
  (K.unbase64 wire).bind fun bytes => (K.decode bytes).bind fun tx => tx.signatures.head?

/-- The wire is recorded for the id, under the key of the signature that it carries. -/
def Journaled (P : Primitives) (K : Sdk) (d : Dispatch) (db : Database) : Prop :=
  ∃ signature chain, wireSignature K d.wire = some signature ∧ ∃ row ∈ db.attempts,
    row.id = d.id ∧ row.replayKey = solanaKey P chain signature ∧ recordedWire row = some d.wire

abbrev Sound {α : Type} (P : Primitives) (K : Sdk) (x : Flow α) : Prop :=
  ∀ v, Does P (Journaled P K) v x fun _ _ => True

/-- The questions that build an attempt: for a blockhash, a transaction with it, a signature. -/
def External.Builds : External → Prop
  | .latestBlockhash => True
  | .build _ => True
  | .sign _ => True
  | _ => False

/-- Neither a message nor a question that builds an attempt. -/
def Calm : Ask External Dispatch → Prop
  | .send _ => False
  | .outside x => ¬x.Builds
  | _ => True

def Replays : Ask External Dispatch → Prop
  | .outside x => ¬x.Builds
  | _ => True

abbrev Quiet {α : Type} (x : Flow α) : Prop := Within Calm x

/-- The questions that change what Redis holds for an id. -/
def External.Stores : External → Prop
  | .tryAcquireLock => True
  | .release => True
  | .updateAttempt _ => True
  | .storeAttemptIfNotExists _ => True
  | _ => False

/-- Neither a message nor a change in Redis nor a reservation. -/
def Tame : Ask External Dispatch → Prop
  | .send _ => False
  | .outside x => ¬x.Stores
  | .invoke (.beforeBroadcast ..) => False
  | _ => True

/-- Tame, and no question that builds an attempt. -/
def Still (q : Ask External Dispatch) : Prop := Tame q ∧ Replays q

theorem Still.tame {α : Type} {x : Flow α} (hx : Within Still x) : Within Tame x :=
  Prog.Only.mono hx fun _ hq => hq.1

theorem Still.quiet {α : Type} {x : Flow α} (hx : Within Still x) : Quiet x := by
  refine Prog.Only.mono hx fun q hq => ?_
  cases q with
  | send m => exact hq.1
  | outside x => exact hq.2
  | _ => trivial

theorem Tame.silent {α : Type} {x : Flow α} (hx : Within Tame x) : Silent P x :=
  Within.silent hx fun _ h => h

theorem Quiet.silent {α : Type} {x : Flow α} (hx : Quiet x) : Silent P x :=
  Within.silent hx fun _ h => h

theorem Quiet.replays {α : Type} {x : Flow α} (hx : Quiet x) : Within Replays x := by
  refine Prog.Only.mono hx fun q hq => ?_
  cases q with
  | send m => exact absurd hq id
  | outside x => exact hq
  | _ => trivial

theorem inquire_quiet {x : External} (h : ¬x.Builds) : Quiet (inquire x) := .ask h

theorem stored_quiet {α : Type} (r : Except String α) : Quiet (stored r) := .lift _

theorem rpc_quiet {α : Type} (r : Except EngineError α) : Quiet (rpc r) := .lift _

theorem invoke_quiet (c : Call) : Quiet (recovery (journal (invoke c))) :=
  .adapt (.adapt (.invoke trivial fun _ => trivial))

theorem read_quiet (r : Read) : Quiet (recovery (journal (read r))) :=
  .adapt (.adapt (.read trivial))

theorem inquire_still {x : External} (h : ¬x.Stores) (h' : ¬x.Builds) :
    Within Still (inquire x) := .ask ⟨h, h'⟩

theorem invoke_still {c : Call} (h : Tame (.invoke c)) :
    Within Still (recovery (journal (invoke c))) :=
  .adapt (.adapt (.invoke ⟨h, trivial⟩ fun _ => ⟨trivial, trivial⟩))

theorem validatePayload_still :
    Within Still (recovery (journal (validatePayload P .solana job.transactionId job.payload))) := by
  refine .adapt (.adapt (.bind (.lift _) fun _ => .bind ?_ fun _ => ?_))
  · refine .bind (.invoke ⟨trivial, trivial⟩ fun _ => ⟨trivial, trivial⟩) fun _ => ?_
    refine .bind (.read ⟨trivial, trivial⟩) fun _ => ?_
    exact .bind (.lift _) fun _ => .bind (.lift _) fun _ => .lift _
  · refine .bind (.read ⟨trivial, trivial⟩) fun _ => .bind (.lift _) fun _ => ?_
    exact .bind (.lift _) fun _ => .bind (.lift _) fun _ => .lift _

theorem validatePayload_quiet :
    Quiet (recovery (journal (validatePayload P .solana job.transactionId job.payload))) :=
  Still.quiet validatePayload_still

theorem validateReconciliationPayload_still :
    Within Still
      (recovery (validateReconciliationPayload .solana job.transactionId job.payload)) := by
  refine .adapt (.bind (.adapt (.invoke ⟨trivial, trivial⟩ fun _ => ⟨trivial, trivial⟩)) fun _ => ?_)
  refine .bind (.adapt (.read ⟨trivial, trivial⟩)) fun found => ?_
  cases found with
  | none => exact .fail _
  | some record =>
    dsimp only
    split_ifs
    · exact .fail _
    · exact .ret _

theorem validateReconciliationPayload_quiet :
    Quiet (recovery (validateReconciliationPayload .solana job.transactionId job.payload)) :=
  Still.quiet validateReconciliationPayload_still

theorem verifyLock_still : Within Still verifyLock := by
  refine .bind (inquire_still id id) fun held => ?_
  cases held with
  | error e => exact .fail _
  | ok held =>
    cases held with
    | false => exact .fail _
    | true => exact .ret _

theorem verifyLock_quiet : Quiet verifyLock := Still.quiet verifyLock_still

/-- The wire is the attempt's own and begins with its signature. -/
def Carries (K : Sdk) (a : SolanaTransactionAttempt) (wire : String) : Prop :=
  a.signedTransaction = some wire ∧ wireSignature K wire = some a.signature

theorem validatedAttemptWire_ok {wire : String}
    (h : validatedAttemptWire P K job a = .ok wire) : Carries K a wire := by
  unfold validatedAttemptWire at h
  cases hwire : a.signedTransaction with
  | none => simp only [hwire, reduceCtorEq] at h
  | some text =>
    cases hbytes : K.unbase64 text with
    | none => simp only [hwire, hbytes, reduceCtorEq] at h
    | some bytes =>
      cases htx : K.decode bytes with
      | none => simp only [hwire, hbytes, htx, reduceCtorEq] at h
      | some tx =>
        by_cases hg : Genuine K job a bytes tx
        · simp only [hwire, hbytes, htx, hg, not_true, if_false, Except.ok.injEq] at h
          subst h
          refine ⟨hwire, ?_⟩
          simp only [wireSignature, hbytes, htx, Option.bind_some, hg.signature]
        · simp only [hwire, hbytes, htx, hg, not_false_eq_true, if_true, reduceCtorEq] at h

theorem authorizeAttempt_does (a : SolanaTransactionAttempt) :
    Does P (Journaled P K) v (authorizeAttempt P K job a)
      fun _ v' => Reserved P K job a v'.db := by
  unfold authorizeAttempt
  split_ifs
  · exact .fail
  refine (validatePayload_does .solana _ _).journal.adapt.bind fun _ v₁ _ _ _ => ?_
  refine beforeBroadcast_does.journal.adapt.mono fun _ v₂ _ _ hattempt => ?_
  obtain ⟨encoded, henc, hrow⟩ := hattempt
  exact ⟨_, hrow, rfl, rfl, canonical_ok henc⟩

theorem checkRetained_key {row : Attempt}
    (h : checkRetained P row = .ok ())
    (hpayload : row.payload.sort = (durableAttemptPayload P K job a).sort) :
    row.replayKey = solanaKey P job.chainId a.signature ∧
      row.payload = (durableAttemptPayload P K job a).sort := by
  simp only [checkRetained, bind_ok, require_ok, refuse_ok, exists_const, not_or, not_not] at h
  obtain ⟨encoded, hcanon, ⟨hsame, _⟩, _, _, signature, _, chain, hchain, hkey, attempt, hattempt,
    hsignature, _⟩ := h
  have hrow : row.payload = (durableAttemptPayload P K job a).sort := by
    rw [← hpayload, ← canonical_ok hcanon, hsame]
  rw [hrow, durable_chain] at hchain
  rw [hrow, durable_attempt] at hattempt
  obtain rfl := Option.some.inj hchain
  obtain rfl := Option.some.inj hattempt
  rw [durable_signature] at hsignature
  refine ⟨?_, hrow⟩
  rw [hkey]
  unfold solanaKey
  rw [Option.some.inj hsignature]

theorem recoveryGrant_does {Φ : Dispatch → Database → Prop} (a : SolanaTransactionAttempt) :
    Does P Φ v (invoke (.beforeSolanaRecoveryBroadcast job.transactionId job.payload
      (durableAttemptPayload P K job a)) : Work Reply Ack RecoveryError SolanaRecoveryBroadcast)
      fun r v' => ∀ n m, r = .granted n m → Reserved P K job a v'.db := by
  refine .of_reached fun hv => (Does.invoke (.beforeSolanaRecoveryBroadcast job.transactionId
    job.payload (durableAttemptPayload P K job a))).mono fun r v' _ _ hreturned => ?_
  rintro n m rfl
  obtain ⟨l, db, ⟨old, db₀, db₁, hg⟩, hext⟩ := hreturned.granted hv
  obtain ⟨now, _, _, _, hexec⟩ := hg.ran
  obtain ⟨stored, _, hretained, _, _, _, hpayload, hcase⟩ := claimBroadcast_ok hexec
  obtain ⟨record, _, _, _, ⟨hnone, _⟩ | ⟨row, _, hfound, hrow, hid, _, hcheck, _, hsame, _⟩⟩ :=
    retained_ok hretained
  · cases hnone
  obtain rfl := Option.some.inj hfound
  rw [hsame] at hpayload
  obtain ⟨hkey, hpayload⟩ := checkRetained_key hcheck hpayload
  refine Reserved.extends ⟨row, ?_, hid, hkey, hpayload⟩ hext
  rw [hg.tables]
  rcases hcase with ⟨_, hno, _⟩ | ⟨_, _, _, _, _, _, _, rfl⟩
  · exact absurd rfl (hno n m)
  · exact hrow

theorem Reserved.journaled {wire : String} {db : Database}
    (h : Reserved P K job a db) (hwire : Carries K a wire) :
    Journaled P K ⟨job.transactionId, wire⟩ db := by
  obtain ⟨row, hrow, hid, hkey, hpayload⟩ := h
  refine ⟨a.signature, job.chainId, hwire.2, row, hrow, hid, hkey, ?_⟩
  rw [recordedWire_eq hpayload, hwire.1]

/-! ## One run -/

theorem dispatched_still {interval : ℕ}
    (r : Except EngineError String) : Within Still (match r with
      | .ok signature =>
        if signature = P.signatureText a.signature then
          throw (nackLast (.transactionSent signature a.submissionAttemptNumber) interval)
        else throw (inconsistent
          "RPC returned a different signature; reconcile persisted transaction")
      | .error e => throw (nackLast (.sendFailed e) networkErrorRetryDelay) :
        Flow SolanaExecutorResult) := by
  cases r with
  | error e => exact .fail _
  | ok signature =>
    dsimp only
    split_ifs
    · exact .fail _
    · exact .fail _

theorem dispatchAttempt_sound {interval : ℕ} {wire : String}
    (hwire : Carries K a wire)
    (hrestored : a.restoredFromJournal = true → Reserved P K job a v.db) :
    Does P (Journaled P K) v (dispatchAttempt P K job interval a wire) fun _ _ => True := by
  unfold dispatchAttempt
  refine .of_reached fun hv => ?_
  refine ((inquire_quiet id).silent _ _).bind fun r v₁ hl₁ hv₁ _ => ?_
  refine ((stored_quiet r).silent _ _).bind fun _ v₂ hl₂ hv₂ _ => ?_
  refine (verifyLock_quiet.silent _ _).bind fun _ v₃ hl₃ hv₃ _ => ?_
  have hsend : ∀ v₄ : World Dispatch, Reached P v₄.journal → Reserved P K job a v₄.db →
      Does P (Journaled P K) v₄ (sendTransaction ⟨job.transactionId, wire⟩) fun _ _ => True := by
    intro v₄ hv₄ hreserved
    refine .send fun v₅ hl₅ _ => ?_
    exact (hreserved.extends (hv₄.extends hl₅)).journaled hwire
  by_cases hr : a.restoredFromJournal = true
  · rw [if_neg (not_not.mpr hr)]
    have hl := (hl₁.trans hl₂).trans hl₃
    refine (hsend v₃ hv₃ ((hrestored hr).extends (hv.extends hl))).bind fun r v₅ _ _ _ => ?_
    exact (Still.quiet (dispatched_still r)).silent _ _
  · rw [if_pos hr]
    refine (authorizeAttempt_does a).bind fun _ v₄ _ hv₄ hreserved => ?_
    refine (hsend v₄ hv₄ hreserved).bind fun r v₅ _ _ _ => ?_
    exact (Still.quiet (dispatched_still r)).silent _ _

theorem broadcastAttempt_sound (interval : ℕ) (a : SolanaTransactionAttempt) :
    Sound P K (broadcastAttempt P K job interval a) := by
  intro v
  unfold broadcastAttempt
  refine ((inquire_quiet id).silent _ _).bind fun now v₁ _ _ _ => ?_
  split_ifs with hbudget hr
  · exact .fail
  · refine .check fun wire hwire => ?_
    refine (recoveryGrant_does a).journal.adapt.bind fun grant v₂ _ _ hgrant => ?_
    have hcarries := validatedAttemptWire_ok hwire
    cases grant with
    | granted n m => exact dispatchAttempt_sound hcarries fun _ => hgrant n m rfl
    | wait ms => exact .fail
    | exhausted => exact .fail
  · refine .check fun wire hwire => ?_
    have hcarries := validatedAttemptWire_ok hwire
    exact dispatchAttempt_sound hcarries fun h => absurd h hr

theorem reconcileStatus_still (interval : ℕ) (a : SolanaTransactionAttempt) :
    Within Still (reconcileStatus P job interval a) := by
  unfold reconcileStatus
  refine .bind (inquire_still id id) fun r => .bind (.lift _) fun statuses => ?_
  split
  · exact .ret _
  · split
    · exact .fail _
    split
    · exact .ret _
    refine .bind (inquire_still id id) fun r => .bind (.lift _) fun details => ?_
    split
    · exact .fail _
    refine .bind (invoke_still trivial) fun _ => ?_
    split
    · exact .ret _
    · exact .ret _
  · exact .fail _

theorem reconcileStatus_quiet (interval : ℕ) (a : SolanaTransactionAttempt) :
    Quiet (reconcileStatus P job interval a) :=
  Still.quiet (reconcileStatus_still interval a)

theorem restoreRetainedAttempt_quiet (binding : String) :
    Quiet (restoreRetainedAttempt P K job binding) := by
  unfold restoreRetainedAttempt
  refine .bind (invoke_quiet _) fun found => ?_
  cases found with
  | none => exact .fail _
  | some retained =>
    refine .bind (.lift _) fun a => .bind (inquire_quiet id) fun r => ?_
    refine .bind (stored_quiet r) fun done => ?_
    split_ifs
    · exact .bind verifyLock_quiet fun _ => .ret a
    · exact .fail _

theorem boundAttempt_quiet (binding : String) (found : Option SolanaTransactionAttempt) :
    Quiet (boundAttempt P K job binding found) := by
  cases found with
  | none => exact restoreRetainedAttempt_quiet binding
  | some a => exact .ret a

theorem hasExpired_still (interval : ℕ) (a : SolanaTransactionAttempt) :
    Within Still (hasExpired P job interval a) := by
  unfold hasExpired
  cases a.blockhashLastValidHeight with
  | some height =>
    exact .bind (inquire_still id id) fun r => .bind (.lift _) fun _ => .ret _
  | none =>
    refine .bind (inquire_still id id) fun r => .bind (.lift _) fun valid => ?_
    split_ifs
    · exact .ret _
    refine .bind (reconcileStatus_still interval a) fun status => ?_
    cases status with
    | none => exact .ret _
    | some result => exact .ret _

theorem hasExpired_quiet (interval : ℕ) (a : SolanaTransactionAttempt) :
    Quiet (hasExpired P job interval a) :=
  Still.quiet (hasExpired_still interval a)

theorem recentBlockhash_tame : Within Tame (recentBlockhash job) := by
  unfold recentBlockhash
  split_ifs
  · exact .ret _
  · exact .bind (.ask id) fun r => .bind (.lift _) fun _ => .ret _

theorem blockhashVisible_tame (tx : VersionedTransaction) :
    Within Tame (blockhashVisible job tx) := by
  unfold blockhashVisible
  split_ifs
  · exact .bind (.ask id) fun r => (.lift _)
  · exact .ret _

theorem signAttempt_tame (height : Option ℕ) (tx : VersionedTransaction) :
    Within Tame (signAttempt K height tx) := by
  unfold signAttempt
  refine .bind (.ask id) fun r => .bind (.lift _) fun signed => ?_
  cases signed.signatures with
  | nil => exact .fail _
  | cons signature _ =>
    dsimp only
    cases K.encode signed with
    | none => exact .fail _
    | some bytes => exact .bind (.ask id) fun now => .ret _

theorem buildAttempt_tame : Within Tame (buildAttempt K job) := by
  unfold buildAttempt
  refine .bind recentBlockhash_tame fun recent => ?_
  refine .bind (.ask id) fun r => .bind (.lift r) fun tx => ?_
  split_ifs
  · exact .fail _
  refine .bind (blockhashVisible_tame tx) fun visible => ?_
  split_ifs
  · exact signAttempt_tame recent.2 tx
  · exact .fail _

/-! ## A run, step by step -/

/-- A logic of the parts of a run: from `X` the part leads to `M`; what lasts is not spoilt by
others. -/
structure Logic (V : Type) where
  Part : {α : Type} → (V → Prop) → Flow α → (α → V → Prop) → Prop
  Lasts : (V → Prop) → Prop
  mono : ∀ {α : Type} {X X' : V → Prop} {x : Flow α} {M M' : α → V → Prop}, Part X x M →
    (∀ v, X' v → X v) → (∀ a v, M a v → M' a v) → Part X' x M'
  bind : ∀ {α β : Type} {X : V → Prop} {x : Flow β} {f : β → Flow α} {N : β → V → Prop}
    {M : α → V → Prop}, Part X x N → (∀ b, Part (N b) (f b) M) → Part X (x >>= f) M
  lift : ∀ {α : Type} {X : V → Prop} {r : Except Failure α} {M : α → V → Prop},
    (∀ a v, r = .ok a → X v → M a v) → Part X (Executors.lift r) M
  still : ∀ {α : Type} {X : V → Prop} {x : Flow α}, Lasts X → Within Still x → Part X x fun _ => X
  capture : ∀ {α : Type} {X : V → Prop} {x : Flow α}, Part X x (fun _ _ => True) →
    Part X (Executors.capture x : Flow (Except Failure α)) fun _ _ => True

/-- What is known at the stages of a run: at its start, with what Redis holds, with an attempt to go
on with, and without one. -/
structure Stages (P : Primitives) (K : Sdk) (job : SolanaExecutorJobData) (interval : ℕ) {V : Type}
    (L : Logic V) where
  start : V → Prop
  found : Option SolanaTransactionAttempt → V → Prop
  known : SolanaTransactionAttempt → V → Prop
  absent : V → Prop
  starts : L.Lasts start
  knows : ∀ a, L.Lasts (known a)
  known_of_found : ∀ a v, found (some a) v → known a v
  lock : L.Part start (inquire .tryAcquireLock) fun _ => start
  get : L.Part start (inquire .getAttempt) fun r v => ∀ o, r = .ok o → found o v
  admission : ∀ o, L.Part (found o)
    (recovery (journal (read (.admission .solana job.transactionId)))) fun admission v =>
      found o v ∧ (admission.bind AdmissionRecord.replayKey = none → o = none → absent v)
  restore : ∀ binding, L.Part (found none) (restoreRetainedAttempt P K job binding) known
  touch : ∀ a checks, L.Part (known a)
    (inquire (.updateAttempt { a with reconciliationChecks := checks })) fun r v =>
      ∀ u, r = .ok u → known { a with reconciliationChecks := checks } v
  broadcast : ∀ a, L.Part (known a) (broadcastAttempt P K job interval a) fun _ _ => True
  first : L.Part absent (firstAttempt P K job interval) fun _ _ => True
  release : L.Part (fun _ => True) (inquire .release) fun _ _ => True

section Walk

variable {V : Type} {L : Logic V} {X : V → Prop} {α : Type} {M : α → V → Prop} {interval : ℕ}

theorem Logic.fail {e : Failure} : L.Part X (throw e) M := L.lift (r := .error e) nofun

theorem Logic.ret {a : α} (h : ∀ v, X v → M a v) : L.Part X (pure a) M :=
  L.lift (r := .ok a) fun _ v ha hv => Except.ok.inj ha ▸ h v hv

theorem Logic.stored {r : Except String α} (h : ∀ a v, r = .ok a → X v → M a v) :
    L.Part X (stored r) M := by
  refine L.lift fun a v ha hv => h a v ?_ hv
  cases r with
  | error e => cases ha
  | ok a' => exact congrArg Except.ok (Except.ok.inj ha)

theorem Logic.ends {r : Except Failure α} : L.Part X (Executors.lift r) fun _ _ => True :=
  L.lift fun _ _ _ _ => trivial

variable (S : Stages P K job interval L)

include S

theorem Stages.reconcile (journalTerminal : Bool) (a : SolanaTransactionAttempt) :
    L.Part (S.known a) (reconcile P K job interval journalTerminal a) fun _ _ => True := by
  unfold EngineCore.Solana.reconcile
  split
  · exact L.fail
  dsimp only
  refine L.bind (S.touch a _) fun r => L.bind (L.stored fun u v hu hv => hv u hu) fun _ => ?_
  refine L.bind (L.still (S.knows _) (reconcileStatus_still interval _)) fun status => ?_
  cases status with
  | some result => exact L.ends
  | none =>
    dsimp only
    split
    · exact L.fail
    split
    · exact L.fail
    refine L.bind (L.still (S.knows _) (hasExpired_still interval _)) fun expired => ?_
    rcases expired with result | (_ | _)
    · exact L.ends
    · exact S.broadcast _
    · refine L.bind (L.still (S.knows _) (reconcileStatus_still interval _)) fun status => ?_
      cases status with
      | some result => exact L.ends
      | none => exact L.fail

theorem Stages.knownAttempt (o : Option SolanaTransactionAttempt) :
    L.Part (S.found o) (knownAttempt P K job o) fun known v =>
      (∀ a, known.1 = some a → S.known a v) ∧ (known.1 = none → S.absent v) := by
  unfold EngineCore.Solana.knownAttempt
  refine L.bind (S.admission o) fun admission => ?_
  cases admission with
  | none =>
    refine L.ret fun v hv => ⟨?_, fun ho => hv.2 rfl ho⟩
    rintro a rfl
    exact S.known_of_found a v hv.1
  | some record =>
    dsimp only
    cases hkey : record.replayKey with
    | none =>
      dsimp only
      split_ifs with hsome
      · exact L.fail
      · exact L.ret fun v hv => ⟨fun a ha => (Option.some_ne_none a ha.symm).elim,
          fun _ => hv.2 hkey (by simpa using hsome)⟩
    | some binding =>
      refine L.bind (N := fun a => S.known a) ?_ fun a => ?_
      · cases o with
        | some a => exact L.ret fun v hv => S.known_of_found a v hv.1
        | none => exact L.mono (S.restore binding) (fun v hv => hv.1) fun _ _ hv => hv
      split_ifs
      · exact L.fail
      · exact L.ret fun v hv => ⟨fun a' ha' => Option.some.inj ha' ▸ hv, nofun⟩

theorem Stages.executeTransaction (number : ℕ) :
    L.Part S.start (executeTransaction P K job interval number) fun _ _ => True := by
  unfold EngineCore.Solana.executeTransaction
  refine L.bind (L.still S.starts verifyLock_still) fun _ => L.bind S.get fun r => ?_
  refine L.bind (N := fun o => S.found o) (L.stored fun o v ho hv => hv o ho) fun o => ?_
  refine L.bind (S.knownAttempt o) fun known => ?_
  obtain ⟨_ | a, journalTerminal⟩ := known
  · dsimp only
    split_ifs
    · exact L.fail
    · exact L.mono S.first (fun v hv => hv.2 rfl) fun _ _ hv => hv
  · exact L.mono (S.reconcile journalTerminal a) (fun v hv => hv.1 a rfl) fun _ _ hv => hv

/-- **A run goes through its stages.** -/
theorem Stages.process (number : ℕ) :
    L.Part S.start (process P K job interval number) fun _ _ => True := by
  unfold EngineCore.Solana.process
  refine L.bind (L.still S.starts validateReconciliationPayload_still) fun _ => ?_
  refine L.bind S.lock fun lock => ?_
  rcases lock with (_ | message) | _
  · exact L.fail
  · exact L.fail
  refine L.bind (L.capture ?_) fun result => L.bind S.release fun _ => L.ends
  refine L.bind (L.still S.starts (inquire_still id id)) fun r => ?_
  exact L.bind (N := fun _ => S.start) (L.lift fun _ _ _ hv => hv) fun _ =>
    S.executeTransaction number

end Walk

theorem firstAttempt_sound (interval : ℕ) : Sound P K (firstAttempt P K job interval) := by
  intro v
  unfold firstAttempt
  refine (Tame.silent buildAttempt_tame _ _).bind fun a v₁ _ _ _ => ?_
  refine (authorizeAttempt_does a).bind fun _ v₂ _ _ _ => ?_
  refine ((inquire_quiet id).silent _ _).bind fun r v₃ _ _ _ => ?_
  refine ((stored_quiet r).silent _ _).bind fun done v₄ _ _ _ => ?_
  split_ifs
  · exact broadcastAttempt_sound interval a v₄
  · exact .fail

/-- Whatever happens, only journaled wires are sent. -/
def soundness (P : Primitives) (K : Sdk) : Logic Unit where
  Part _ x _ := Sound P K x
  Lasts _ := True
  mono hx _ _ := hx
  bind hx hf v := (hx v).bind fun b v' _ _ _ => hf b v'
  lift _ := Silent.lift _ _
  still _ hx := Tame.silent (Still.tame hx) _
  capture hx v := (hx v).capture.mono fun _ _ _ _ _ => trivial

theorem inquire_sound {x : External} (h : ¬x.Builds) : Sound P K (inquire x) :=
  (inquire_quiet h).silent _

/-- **A run sends only journaled wires.** -/
theorem process_sound (interval number : ℕ) : Sound P K (process P K job interval number) :=
  Stages.process (L := soundness P K)
    { start _ := True, found _ _ := True, known _ _ := True, absent _ := True
      starts := trivial, knows _ := trivial, known_of_found _ _ _ := trivial
      lock := inquire_sound id
      get := inquire_sound id
      admission _ := (read_quiet _).silent _
      restore binding := (restoreRetainedAttempt_quiet binding).silent _
      touch _ _ := inquire_sound id
      broadcast := broadcastAttempt_sound interval
      first := firstAttempt_sound interval
      release := inquire_sound id } number

end EngineCore.Solana
