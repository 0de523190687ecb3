import EngineCore.Recovery.Evidence
import EngineCore.Solana.Admission
import EngineCore.Solana.Intent

/-!
# Outcomes of Solana requests

A run that has an attempt to reconcile reports the outcome of the chain or asks for another run. The
answers of the node and of Redis may be anything.

* **`solana_outcomes`**: every run with an attempt, and every deletion of a stored attempt.
-/

namespace EngineCore.Solana

open Interact Recovery Executors
open Twmq (JobError QueueOptions)
open Except (bind_ok pure_ok)

variable {P : Primitives} {K : Sdk} {job : SolanaExecutorJobData}

/-! ## Evidence -/

/-- Two replies of the node agree on the final outcome of the signature. -/
structure Finalized (P : Primitives) (signature : Signature) (l : Log) (status : TransactionStatus)
    (details : TransactionDetails) : Prop where
  reported : ∃ statuses, Heard l (.signatureStatuses signature) (.ok statuses) ∧
    statuses.value = [some status] ∧ status.slot ≤ statuses.contextSlot
  finalized : status.satisfiesFinalized = true ∧ status.confirmedFinalized = true
  consistent : status.err = status.statusError
  received : Heard l (.transaction signature) (.ok details)
  signature : details.signatures.bind List.head? = some (P.signatureText signature)
  slot : details.slot = status.slot
  error : details.metaError = some status.err

theorem Finalized.mono {signature : Signature} {l l' : Log} {status : TransactionStatus}
    {details : TransactionDetails} (h : Finalized P signature l status details) (hl : l ⊆ l') :
    Finalized P signature l' status details := by
  obtain ⟨statuses, hheard, hrest⟩ := h.reported
  exact { h with reported := ⟨statuses, hheard.mono hl, hrest⟩, received := h.received.mono hl }

def outcomeText (err : Option String) : String := if err.isNone then "success" else "reverted"

/-- The journal has the outcome of the signature on record. -/
def Recorded (P : Primitives) (job : SolanaExecutorJobData) (signature : Signature)
    (err : Option String) (db : Database) : Prop :=
  db.Records .solana job.transactionId
    [("signature", P.signatureText signature), ("outcome", outcomeText err)]

/-- The outcome of the signature is final, and on record. -/
def Proven (P : Primitives) (job : SolanaExecutorJobData) (signature : Signature) (l : Log)
    (db : Database) (err : Option String) : Prop :=
  ∃ status details, Finalized P signature l status details ∧ status.err = err ∧
    Recorded P job signature err db

theorem Proven.mono {signature : Signature} {l l' : Log} {w w' : World Dispatch}
    {err : Option String} (h : Proven P job signature l w.db err) (hl : l ⊆ l')
    (hw : Reached P w.journal) (hlater : Later P w w') :
    Proven P job signature l' w'.db err := by
  obtain ⟨status, details, hfinal, herr, hrecorded⟩ := h
  exact ⟨status, details, hfinal.mono hl, herr, hrecorded.steps hw.intact hlater.journal⟩

/-! ## Results -/

def Nacked (e : Failure) : Prop := ∃ error delay position, e = .nack error delay position

/-- The result is an outcome of the chain that meets `Φ`, or asks for another run. -/
inductive Judged {α : Type} (Φ : Option String → Prop) : Except Failure α → Prop
  | success {a : α} (h : Φ none) : Judged Φ (.ok a)
  | failure {reason : String} (h : Φ (some reason)) :
      Judged Φ (.error (.fail (.transactionFailed reason)))
  | again {e : Failure} (h : Nacked e) : Judged Φ (.error e)

theorem Judged.mono {α : Type} {Φ Ψ : Option String → Prop} {r : Except Failure α}
    (h : Judged Φ r) (hΦ : ∀ err, Φ err → Ψ err) : Judged Ψ r := by
  cases h with
  | success h => exact .success (hΦ _ h)
  | failure h => exact .failure (hΦ _ h)
  | again h => exact .again h

/-! ## Everything else is tried again -/

section Nacks

variable {α : Type}

theorem nackLast_nacked (e : SolanaExecutorError) (delay : ℕ) : Nacked (nackLast e delay) :=
  ⟨_, _, _, rfl⟩

theorem recoveryNack_nacked (e : EngineError) : Nacked (recoveryNack e) := by
  cases e <;> exact nackLast_nacked _ _

theorem handleRedisError_nacked (text : String) : Nacked (handleRedisError text) := by
  unfold handleRedisError
  split_ifs <;> exact nackLast_nacked _ _

theorem raises_lift {Θ : Failure → Prop} {r : Except Failure α} (h : ∀ e, r = .error e → Θ e) :
    Raises Θ (lift r : Flow α) := h

theorem raises_mapError {ε : Type} {Θ : Failure → Prop} {f : ε → Failure} (h : ∀ e, Θ (f e))
    (r : Except ε α) : Raises Θ (lift (r.mapError f) : Flow α) := by
  refine raises_lift fun e he => ?_
  cases r with
  | error e' =>
    cases he
    exact h e'
  | ok a => cases he

theorem recovery_raises (x : Work Reply Ack EngineError α) : Raises Nacked (recovery x) :=
  .adapt recoveryNack_nacked

theorem stored_raises (r : Except String α) : Raises Nacked (stored r) :=
  raises_mapError handleRedisError_nacked r

theorem rpc_raises (r : Except EngineError α) : Raises Nacked (rpc r) :=
  raises_mapError (fun _ => nackLast_nacked _ _) r

theorem nack_raises (e : SolanaExecutorError) (delay : ℕ) :
    Raises Nacked (throw (nackLast e delay) : Flow α) :=
  .fail (nackLast_nacked e delay)

theorem verifyLock_raises : Raises Nacked verifyLock := by
  refine .bind (.query _) fun held => ?_
  rcases held with e | (_ | _)
  · exact nack_raises _ _
  · exact nack_raises _ _
  · exact .ret _

theorem validatedAttemptWire_nacked {a : SolanaTransactionAttempt} {e : Failure}
    (h : validatedAttemptWire P K job a = .error e) : Nacked e := by
  unfold validatedAttemptWire at h
  split at h
  · cases h
    exact nackLast_nacked _ _
  split at h
  · cases h
    exact nackLast_nacked _ _
  split at h
  · cases h
    exact nackLast_nacked _ _
  split_ifs at h
  cases h
  exact nackLast_nacked _ _

theorem retainedAttempt_nacked {binding : String} {retained : RetainedSolanaAttempt} {e : Failure}
    (h : retainedAttempt P K job binding retained = .error e) : Nacked e := by
  unfold retainedAttempt at h
  split at h
  · cases h
    exact nackLast_nacked _ _
  split_ifs at h
  · cases h
    exact nackLast_nacked _ _
  rename_i a _ _
  cases hwire : validatedAttemptWire P K job a with
  | error e' =>
    rw [hwire] at h
    cases h
    exact validatedAttemptWire_nacked hwire
  | ok wire =>
    rw [hwire] at h
    cases h

theorem restoreRetainedAttempt_raises (binding : String) :
    Raises Nacked (restoreRetainedAttempt P K job binding) := by
  refine .bind (recovery_raises _) fun retained => ?_
  cases retained with
  | none => exact nack_raises _ _
  | some retained =>
    refine .bind (raises_lift fun _ => retainedAttempt_nacked) fun a => ?_
    refine .bind (.query _) fun r => .bind (stored_raises r) fun fresh => ?_
    split
    · exact .bind verifyLock_raises fun _ => .ret _
    · exact nack_raises _ _

theorem knownAttempt_raises (found : Option SolanaTransactionAttempt) :
    Raises Nacked (knownAttempt P K job found) := by
  refine .bind (recovery_raises _) fun admission => ?_
  cases admission with
  | none => exact .ret _
  | some record =>
    dsimp only
    cases record.replayKey with
    | none =>
      dsimp only
      split_ifs
      · exact nack_raises _ _
      · exact .ret _
    | some binding =>
      have hbound : Raises Nacked (boundAttempt P K job binding found) := by
        cases found with
        | none => exact restoreRetainedAttempt_raises binding
        | some a => exact .ret _
      refine .bind hbound fun a => ?_
      split_ifs
      · exact nack_raises _ _
      · exact .ret _

theorem authorizeAttempt_raises (a : SolanaTransactionAttempt) :
    Raises Nacked (authorizeAttempt P K job a) := by
  unfold authorizeAttempt
  split_ifs
  · exact nack_raises _ _
  · exact .bind (recovery_raises _) fun _ => recovery_raises _

/-- A send never ends a run with an outcome. -/
def Open (x : Flow α) : Prop := x.run.Ends fun r => ∃ e, r = .error e ∧ Nacked e

theorem Open.fail {e : Failure} (h : Nacked e) : Open (throw e : Flow α) := ⟨e, rfl, h⟩

theorem Open.bind {β : Type} {x : Flow β} {f : β → Flow α} (hx : Raises Nacked x)
    (hf : ∀ b, Open (f b)) : Open (x >>= f) := by
  refine Prog.Ends.bind hx ?_
  rintro (e | b) hr
  · exact ⟨e, rfl, hr e rfl⟩
  · exact hf b

theorem dispatchAttempt_open (interval : ℕ) (a : SolanaTransactionAttempt) (wire : String) :
    Open (dispatchAttempt P K job interval a wire) := by
  refine .bind (.query _) fun r => .bind (stored_raises r) fun _ => ?_
  refine .bind verifyLock_raises fun _ => ?_
  split_ifs
  on_goal 2 => refine .bind (authorizeAttempt_raises a) fun _ => ?_
  -- both go on to send
  all_goals
    refine .bind (.query _) fun reply => ?_
    cases reply with
    | error e => exact .fail (nackLast_nacked _ _)
    | ok signature =>
      dsimp only
      split_ifs
      · exact .fail (nackLast_nacked _ _)
      · exact .fail (nackLast_nacked _ _)

theorem broadcastAttempt_open (interval : ℕ) (a : SolanaTransactionAttempt) :
    Open (broadcastAttempt P K job interval a) := by
  refine .bind (.query _) fun now => ?_
  split_ifs
  · exact .fail (nackLast_nacked _ _)
  · refine .bind (raises_lift fun _ => validatedAttemptWire_nacked) fun wire => ?_
    refine .bind (recovery_raises _) fun grant => ?_
    cases grant with
    | granted n m => exact dispatchAttempt_open interval _ wire
    | wait ms | exhausted => exact .fail (nackLast_nacked _ _)
  · exact .bind (raises_lift fun _ => validatedAttemptWire_nacked) fun wire =>
      dispatchAttempt_open interval _ wire

end Nacks

/-! ## Reconciliation -/

section Reconciling

variable {w w' : World Dispatch} {l : Log} {interval : ℕ} {a : SolanaTransactionAttempt}

theorem reconcileStatus_raises : Raises Nacked (reconcileStatus P job interval a) := by
  refine .bind (.query _) fun r => .bind (rpc_raises r) fun statuses => ?_
  split
  · exact .ret _
  · split
    · exact nack_raises _ _
    split
    · exact .ret _
    refine .bind (.query _) fun r => .bind (rpc_raises r) fun details => ?_
    split
    · exact nack_raises _ _
    refine .bind (recovery_raises _) fun _ => ?_
    split <;> exact .ret _
  · exact nack_raises _ _

theorem played_rpc {α : Type} {r : Except EngineError α} {x : α}
    (hp : Played (machine P Reply Ack) (rpc r).run w l (.ok x) w') : r = .ok x := by
  have hr : Except.ok x = r.mapError rpcError := hp.2.1
  cases r with
  | error e => cases hr
  | ok y =>
    cases hr
    rfl

theorem reconcileStatus_judged {x : Except Failure SolanaExecutorResult} (hw : Reached P w.journal)
    (hp : Played (machine P Reply Ack) (reconcileStatus P job interval a).run w l
      (.ok (some x)) w') :
    Judged (Proven P job a.signature l w'.db) x := by
  obtain ⟨_, h, _⟩ | ⟨reply, l₁, _, w₁, rfl, hasked, hafter⟩ := played_bind hp
  · cases h
  obtain ⟨_, h, _⟩ | ⟨statuses, l₂, l₃, w₂, rfl, hreply, hp⟩ := played_bind hafter
  · cases h
  clear hafter
  obtain rfl := played_rpc hreply
  have hheard := played_ask hasked
  have hw₂ := (hw.later (Played.later hasked)).later (Played.later hreply)
  split at hp
  · cases hp.2.1
  · rename_i status hvalue
    split at hp
    · cases hp.2.1
    rename_i hbad
    split at hp
    · cases hp.2.1
      exact .again (nackLast_nacked _ _)
    rename_i hpending
    rw [not_or, not_not, not_lt] at hbad
    rw [not_or, not_not, not_not] at hpending
    obtain ⟨_, h, _⟩ | ⟨reply', l₄, _, w₃, rfl, hasked', hafter⟩ := played_bind hp
    · cases h
    obtain ⟨_, h, _⟩ | ⟨details, l₅, l₆, w₄, rfl, hreply', hp⟩ := played_bind hafter
    · cases h
    clear hafter
    obtain rfl := played_rpc hreply'
    have hheard' := played_ask hasked'
    split at hp
    · cases hp.2.1
    rename_i hmatch
    rw [not_not] at hmatch
    simp only [detailsMatch, Bool.and_eq_true, decide_eq_true_eq] at hmatch
    obtain ⟨⟨hsignature, hslot⟩, herror⟩ := hmatch
    have hfinal : Finalized P a.signature (l₁ ++ (l₂ ++ (l₄ ++ (l₅ ++ l₆)))) status details :=
      { reported := ⟨statuses, hheard.mono (by simp), hvalue, hbad.2⟩
        finalized := hpending
        consistent := hbad.1
        received := hheard'.mono (by intro e he; simp [he])
        signature := hsignature
        slot := hslot
        error := herror }
    obtain ⟨_, h, _⟩ | ⟨_, l₇, l₈, w₅, rfl, hrecord, hp⟩ := played_bind hp
    · cases h
    have hw₄ := (hw₂.later (Played.later hasked')).later (Played.later hreply')
    obtain ⟨w₆, hl₆, hl₅, hreturned⟩ := (Does.invoke (Φ := fun _ _ => True) _).played hw₄
      (played_adapt (played_adapt hrecord))
    obtain ⟨_, t, ht, ht', hgranted, _⟩ := hreturned
    have hrecorded : Recorded P job a.signature status.err t.world.db := by
      refine hgranted.records rfl (by simp [Json.keys]) fun text htext => ?_
      rw [List.mem_cons, List.mem_singleton] at htext
      rcases htext with rfl | rfl
      · exact ⟨by simp, rfl⟩
      · exact ⟨by simp, rfl⟩
    have hproven : Proven P job a.signature _ w'.db status.err :=
      ⟨status, details, hfinal, rfl, hrecorded.steps (ht.intact hw₄.intact)
        (ht'.trans (hl₅.trans (Played.later hp)).journal)⟩
    split at hp
    · rename_i reason hreason
      cases hp.2.1
      rw [hreason] at hproven
      exact .failure hproven
    · rename_i hnone
      cases hp.2.1
      rw [hnone] at hproven
      exact .success hproven
  · cases hp.2.1

theorem hasExpired_raises : Raises Nacked (hasExpired P job interval a) := by
  unfold hasExpired
  split
  · exact .bind (.query _) fun r => .bind (rpc_raises r) fun _ => .ret _
  · refine .bind (.query _) fun r => .bind (rpc_raises r) fun valid => ?_
    split
    · exact .ret _
    refine .bind reconcileStatus_raises fun result => ?_
    cases result <;> exact .ret _

theorem hasExpired_judged {x : Except Failure SolanaExecutorResult} (hw : Reached P w.journal)
    (hp : Played (machine P Reply Ack) (hasExpired P job interval a).run w l (.ok (.error x)) w') :
    Judged (Proven P job a.signature l w'.db) x := by
  unfold hasExpired at hp
  split at hp
  · obtain ⟨_, h, _⟩ | ⟨r, l₁, _, w₁, rfl, _, hafter⟩ := played_bind hp
    · cases h
    obtain ⟨_, h, _⟩ | ⟨current, l₂, l₃, w₂, rfl, _, hend⟩ := played_bind hafter
    · cases h
    cases hend.2.1
  · obtain ⟨_, h, _⟩ | ⟨r, l₁, _, w₁, rfl, hasked, hafter⟩ := played_bind hp
    · cases h
    obtain ⟨_, h, _⟩ | ⟨valid, l₂, l₃, w₂, rfl, hreply, hvalid⟩ := played_bind hafter
    · cases h
    have hw₂ := (hw.later (Played.later hasked)).later (Played.later hreply)
    split at hvalid
    · cases hvalid.2.1
    obtain ⟨_, h, _⟩ | ⟨result, l₄, l₅, w₃, rfl, hstatus, hend⟩ := played_bind hvalid
    · cases h
    cases result with
    | none =>
      cases hend.2.1
      exact .again (nackLast_nacked _ _)
    | some y =>
      cases hend.2.1
      have hw₃ := hw₂.later (Played.later hstatus)
      refine (reconcileStatus_judged hw₂ hstatus).mono fun err hproven => ?_
      exact hproven.mono (by intro e he; simp [he]) hw₃ (Played.later hend)

/-- **Every result of a reconciliation is an outcome with its evidence, or a nack.** -/
theorem reconcile_judged {journalTerminal : Bool} {r : Except Failure SolanaExecutorResult}
    (hw : Reached P w.journal)
    (hp : Played (machine P Reply Ack) (reconcile P K job interval journalTerminal a).run w l r
      w') :
    Judged (Proven P job a.signature l w'.db) r := by
  have hnack : ∀ {α : Type} {x : Flow α} {l : Log} {w w' : World Dispatch} {e : Failure},
      Raises Nacked x → Played (machine P Reply Ack) x.run w l (.error e) w' → Nacked e :=
    fun hx hp => Prog.Ends.played hx hp _ rfl
  unfold reconcile at hp
  split at hp
  · cases hp.2.1
    exact .again (nackLast_nacked _ _)
  obtain ⟨e, rfl, hbad⟩ | ⟨reply, l₁, _, w₁, rfl, hasked, hafter⟩ := played_bind hp
  · exact .again (hnack (.query _) hbad)
  obtain ⟨e, rfl, hbad⟩ | ⟨_, l₂, _, w₂, rfl, hreply, hupdated⟩ := played_bind hafter
  · exact .again (hnack (stored_raises _) hbad)
  have hw₂ := (hw.later (Played.later hasked)).later (Played.later hreply)
  obtain ⟨e, rfl, hbad⟩ | ⟨result, l₃, l₄, w₃, rfl, hstatus, hfirst⟩ := played_bind hupdated
  · exact .again (hnack reconcileStatus_raises hbad)
  have hw₃ := hw₂.later (Played.later hstatus)
  cases result with
  | some y =>
    obtain ⟨rfl, rfl, hlater⟩ := hfirst
    refine (reconcileStatus_judged hw₂ hstatus).mono fun err hproven => ?_
    exact hproven.mono (by intro e he; simp [he]) hw₃ hlater
  | none =>
    dsimp only at hfirst
    split at hfirst
    · cases hfirst.2.1
      exact .again (nackLast_nacked _ _)
    split at hfirst
    · cases hfirst.2.1
      exact .again (nackLast_nacked _ _)
    obtain ⟨e, rfl, hbad⟩ | ⟨expired, l₅, l₆, w₄, rfl, hexpired, hlast⟩ := played_bind hfirst
    · exact .again (hnack hasExpired_raises hbad)
    have hw₄ := hw₃.later (Played.later hexpired)
    rcases expired with y | (_ | _)
    · obtain ⟨rfl, rfl, hlater⟩ := hlast
      refine (hasExpired_judged hw₃ hexpired).mono fun err hproven => ?_
      exact hproven.mono (by intro e he; simp [he]) hw₄ hlater
    · obtain ⟨e, rfl, he⟩ := Prog.Ends.played (broadcastAttempt_open interval _) hlast
      exact .again he
    · obtain ⟨e, rfl, hbad⟩ | ⟨again, l₇, l₈, w₅, rfl, hagain, hend⟩ := played_bind hlast
      · exact .again (hnack reconcileStatus_raises hbad)
      have hw₅ := hw₄.later (Played.later hagain)
      cases again with
      | none =>
        cases hend.2.1
        exact .again (nackLast_nacked _ _)
      | some y =>
        obtain ⟨rfl, rfl, hlater⟩ := hend
        refine (reconcileStatus_judged hw₄ hagain).mono fun err hproven => ?_
        exact hproven.mono (by intro e he; simp [he]) hw₅ hlater

end Reconciling

/-! ## One run -/

section Running

variable {w w' : World Dispatch} {l : Log}

/-- The signature is that of the attempt in Redis, or the one the journal binds to the id. -/
def OfAttempt (P : Primitives) (job : SolanaExecutorJobData) (signature : Signature) (l : Log)
    (db : Database) : Prop :=
  (∃ a, Heard l .getAttempt (.ok (some a)) ∧ a.signature = signature) ∨
    ∃ r ∈ db.admissions, r.id = job.transactionId ∧
      r.replayKey = some (solanaKey P job.chainId signature)

/-- Redis gives an attempt of the id, or the journal has one. -/
def HasAttempt (id : String) (l : Log) (db : Database) : Prop :=
  (∀ found, Heard l .getAttempt (.ok found) → found.isSome) ∨ ∃ row ∈ db.attempts, row.id = id

theorem knownAttempt_played {found known : Option SolanaTransactionAttempt} {journalTerminal : Bool}
    (hw : Reached P w.journal)
    (hp : Played (machine P Reply Ack) (knownAttempt P K job found).run w l
      (.ok (known, journalTerminal)) w') :
    (known = none → found = none ∧ ∀ row ∈ w.db.attempts, row.id ≠ job.transactionId) ∧
    ∀ a, known = some a → found = some a ∨ ∃ r ∈ w'.db.admissions, r.id = job.transactionId ∧
      r.replayKey = some (solanaKey P job.chainId a.signature) := by
  obtain ⟨_, h, _⟩ | ⟨admission, l₁, l₂, w₁, rfl, hread, hrest⟩ := played_bind hp
  · cases h
  obtain ⟨w₂, hl₂, hl₁, hseen⟩ := (Does.read (Φ := fun _ _ => True) _).played hw
    (played_adapt (played_adapt hread))
  have hlookup : w₂.db.lookup job.transactionId = admission := by
    simp only [Read.exec, Database.admission, bind_ok, refuse_ok, pure_ok] at hseen
    exact hseen.choose_spec.2
  -- a row of the id would have shown as a replay key
  have hno : (∀ record, admission = some record → record.replayKey = none) →
      ∀ row ∈ w.db.attempts, row.id ≠ job.transactionId := by
    intro hnone row hrow hid
    have hi := (hw.later hl₂).intact
    obtain ⟨r, hr, hrid, hkey⟩ := hi.bound row ((hw.extends hl₂).attempts.subset hrow)
    have hr' : w₂.db.lookup r.id = some r := hi.lookup_eq hr
    rw [hrid, hid, hlookup] at hr'
    rw [hnone r hr'] at hkey
    cases hkey
  cases admission with
  | none =>
    cases hrest.2.1
    exact ⟨fun hknown => ⟨hknown, hno (by rintro record ⟨⟩)⟩, fun a ha => .inl ha⟩
  | some record =>
    dsimp only at hrest
    cases hkey : record.replayKey with
    | none =>
      rw [hkey] at hrest
      dsimp only at hrest
      split at hrest
      · cases hrest.2.1
      · rename_i hfound
        cases hrest.2.1
        refine ⟨fun _ => ⟨by simpa using hfound, hno ?_⟩, by rintro a ⟨⟩⟩
        rintro _ ⟨⟩
        exact hkey
    | some binding =>
      rw [hkey] at hrest
      obtain ⟨_, h, _⟩ | ⟨a, l₃, l₄, w₃, rfl, hbound, hend⟩ := played_bind hrest
      · cases h
      split at hend
      · cases hend.2.1
      · rename_i hsame
        rw [ne_eq, not_not] at hsame
        cases hend.2.1
        refine ⟨by rintro ⟨⟩, ?_⟩
        rintro _ ⟨⟩
        obtain ⟨hmem, hid⟩ := mem_of_lookup hlookup
        have hlater := (hl₁.trans (Played.later hbound)).trans (Played.later hend)
        obtain ⟨r', hr', hkeeps⟩ := ((hw.later hl₂).extends hlater).admissions record hmem
        rw [← hsame]
        exact .inr ⟨r', hr', hkeeps.id.trans hid, hkeeps.replayKey binding hkey⟩

/-- **A run with an attempt reports the outcome of its signature, or asks for another run.** -/
theorem executeTransaction_judged {interval number : ℕ} {r : Except Failure SolanaExecutorResult}
    (hw : Reached P w.journal)
    (hp : Played (machine P Reply Ack) (executeTransaction P K job interval number).run w l r w')
    (hhas : HasAttempt job.transactionId l w.db) :
    (∃ e, r = .error e ∧ Nacked e) ∨ ∃ signature, OfAttempt P job signature l w'.db ∧
      Judged (Proven P job signature l w'.db) r := by
  have hnack : ∀ {α : Type} {x : Flow α} {l : Log} {w w' : World Dispatch} {e : Failure},
      Raises Nacked x → Played (machine P Reply Ack) x.run w l (.error e) w' → Nacked e :=
    fun hx hp => Prog.Ends.played hx hp _ rfl
  obtain ⟨e, rfl, hbad⟩ | ⟨_, l₁, _, w₁, rfl, hlock, hrest⟩ := played_bind hp
  · exact .inl ⟨e, rfl, hnack verifyLock_raises hbad⟩
  obtain ⟨e, rfl, hbad⟩ | ⟨reply, l₂, _, w₂, rfl, hasked, hafter⟩ := played_bind hrest
  · exact .inl ⟨e, rfl, hnack (.query _) hbad⟩
  obtain ⟨e, rfl, hbad⟩ | ⟨found, l₃, _, w₃, rfl, hreply, hfound⟩ := played_bind hafter
  · exact .inl ⟨e, rfl, hnack (stored_raises _) hbad⟩
  obtain ⟨e, rfl, hbad⟩ | ⟨⟨known, journalTerminal⟩, l₄, l₅, w₄, rfl, hknown, hend⟩ :=
    played_bind hfound
  · exact .inl ⟨e, rfl, hnack (knownAttempt_raises _) hbad⟩
  have hl₃ := ((Played.later hlock).trans (Played.later hasked)).trans (Played.later hreply)
  have hw₃ := hw.later hl₃
  have hw₄ := hw₃.later (Played.later hknown)
  have hheard : Heard l₂ .getAttempt (.ok found) := by
    have hr : Except.ok found = reply.mapError handleRedisError := hreply.2.1
    cases reply with
    | error e => cases hr
    | ok y =>
      cases hr
      exact played_ask hasked
  obtain ⟨hnone, hsome⟩ := knownAttempt_played hw₃ hknown
  cases known with
  | none =>
    obtain ⟨rfl, hno⟩ := hnone rfl
    rcases hhas with hredis | ⟨row, hrow, hid⟩
    · cases hredis none (hheard.mono (by intro e he; simp [he]))
    · exact absurd hid (hno row ((hw.extends hl₃).attempts.subset hrow))
  | some a =>
    have hjudged := reconcile_judged hw₄ hend
    refine .inr ⟨a.signature, ?_, hjudged.mono fun err hproven => ?_⟩
    · rcases hsome a rfl with rfl | ⟨rec, hrec, hid, hkey⟩
      · exact .inl ⟨a, hheard.mono (by intro e he; simp [he]), rfl⟩
      · obtain ⟨rec', hrec', hkeeps⟩ := (hw₄.extends (Played.later hend)).admissions rec hrec
        exact .inr ⟨rec', hrec', hkeeps.id.trans hid, hkeeps.replayKey _ hkey⟩
    · exact hproven.mono (by intro e he; simp [he])
        (hw₄.later (Played.later hend)) (.refl _)

end Running

/-! ## Stored attempts -/

/-- The step completes the job of the id with a success or a failed transaction. -/
def AdmissionStep.Settles (id : String) : AdmissionStep → Prop
  | .complete job _ (.ok _) => job.data.transactionId = id
  | .complete job _ (.error (.fail (.transactionFailed _))) => job.data.transactionId = id
  | _ => False

section Deletions

variable {options : QueueOptions} {s : AdmissionSite} {id : String}

theorem attempts_terminalAdmission {store : SolanaStore} {i fingerprint : String}
    {state : AdmissionState} {requireNoAttempt : Bool} :
    (store.terminalAdmission i fingerprint state requireNoAttempt).attempts = store.attempts := by
  unfold SolanaStore.terminalAdmission
  split
  · rfl
  · split_ifs <;> rfl

theorem mem_attempts_onFail {store : SolanaStore} {data : SolanaExecutorJobData}
    {error : SolanaExecutorError} (h : id ∈ store.attempts)
    (herror : ∀ reason, error = .transactionFailed reason → data.transactionId ≠ id) :
    id ∈ (store.onFail P data error).attempts := by
  unfold SolanaStore.onFail
  split
  · rename_i reason
    have hne : id ≠ data.transactionId := (herror reason rfl).symm
    simp [SolanaStore.unregister, SolanaStore.deleteAttempt, attempts_terminalAdmission,
      Redis.mem_srem, h, hne]
  · simpa [SolanaStore.unregister, attempts_terminalAdmission] using h
  · simpa [SolanaStore.unregister, attempts_terminalAdmission] using h
  · simpa [SolanaStore.unregister, attempts_terminalAdmission] using h
  · exact h

/-- **A step keeps a stored attempt, or settles its id.** -/
theorem AdmissionStep.mem_attempts (step : AdmissionStep) (h : id ∈ s.store.attempts)
    (hnot : ¬step.Settles id) : id ∈ (step.apply P options s).store.attempts := by
  cases step with
  | admitRequest data now =>
    rw [AdmissionStep.apply]
    rcases admit_cases P s.store data now with ⟨refusal, -, he⟩ | ⟨existing, -, he⟩ | ⟨-, he⟩
    · rw [he]
      exact h
    · rw [he]
      exact h
    · rw [he]
      exact h
  | complete job now outcome =>
    rw [AdmissionStep.apply]
    split_ifs
    swap
    · exact h
    rcases outcome with (⟨error, delay, position⟩ | error) | _
    · exact h
    · refine mem_attempts_onFail h ?_
      rintro reason rfl
      exact hnot
    · have hne : id ≠ job.data.transactionId := fun he => hnot he.symm
      have hkept : id ∈ (s.store.onSuccess P job.data).attempts := by
        simp [SolanaStore.onSuccess, SolanaStore.unregister, SolanaStore.deleteAttempt,
          attempts_terminalAdmission, Redis.mem_srem, h, hne]
      exact hkept
  | queueError i token now | getJob i =>
    rw [AdmissionStep.apply]
    split_ifs <;> exact h
  | onCancelled data =>
    rw [AdmissionStep.apply]
    split_ifs
    · exact mem_attempts_onFail h (by rintro reason ⟨⟩)
    · exact h
  | storeAttempt i => exact Redis.mem_sadd.mpr (.inr h)
  | expireAdmission i =>
    rw [AdmissionStep.apply]
    split <;> exact h
  | _ => exact h

theorem AdmissionSite.settles_of_deleted {steps : List AdmissionStep} (h : id ∈ s.store.attempts)
    (hgone : id ∉ (s.run P options steps).store.attempts) : ∃ step ∈ steps, step.Settles id := by
  induction steps generalizing s with
  | nil => exact absurd h hgone
  | cons step steps ih =>
    by_cases hstep : step.Settles id
    · exact ⟨step, List.mem_cons_self, hstep⟩
    · obtain ⟨step', hmem, hsettles⟩ := ih (step.mem_attempts h hstep) hgone
      exact ⟨step', List.mem_cons_of_mem _ hmem, hsettles⟩

end Deletions

/-! ## Every run -/

/-- **Outcomes rest on finalized evidence.** For any number of runs side by side, any answers of the
node and of Redis and any other use of the journal: a run with an attempt asks for another run, or
reports the outcome of the attempt's signature that two replies of the node agree on and that the
journal has on record; it succeeds just where there is no error. And over every run of admissions,
polls, completions, cancellations and expiries, a stored attempt is deleted only by a completion
with a success or a failed transaction. -/
theorem solana_outcomes {w : World Dispatch} (hw : Reached P w.journal)
    {s : Pool.State (Ask External Dispatch) (Answer Reply Ack) (World Dispatch)
      (SolanaExecutorJobData × ℕ × ℕ) fun _ => Except Failure SolanaExecutorResult}
    (hs : (pool P fun j : SolanaExecutorJobData × ℕ × ℕ =>
      executeTransaction P K j.1 j.2.1 j.2.2).Steps (.initial w) s) :
    (∀ o ∈ s.outcomes, HasAttempt o.job.1.transactionId o.log o.start.db →
      (∃ e, o.result = .error e ∧ Nacked e) ∨
      ∃ signature status details, OfAttempt P o.job.1 signature o.log o.world.db ∧
        Finalized P signature o.log status details ∧
        Recorded P o.job.1 signature status.err o.world.db ∧
        ((∃ v, o.result = .ok v) ↔ status.err = none) ∧
        ∀ reason, o.result = .error (.fail (.transactionFailed reason)) ↔
          status.err = some reason) ∧
    ∀ (options : QueueOptions) (site : AdmissionSite) (steps : List AdmissionStep) (id : String),
      id ∈ site.store.attempts → id ∉ (site.run P options steps).store.attempts →
      ∃ step ∈ steps, step.Settles id := by
  refine ⟨fun o ho hhas => ?_, fun options site steps id h hgone =>
    AdmissionSite.settles_of_deleted h hgone⟩
  obtain ⟨hstart, hplayed⟩ := played_of_steps hs o ho
  rcases executeTransaction_judged (hw.later hstart) hplayed hhas with
    hnack | ⟨signature, hof, hjudged⟩
  · exact .inl hnack
  cases hresult : o.result with
  | ok v =>
    rw [hresult] at hjudged
    cases hjudged with
    | success hproven =>
      obtain ⟨status, details, hfinal, herr, hrecorded⟩ := hproven
      rw [← herr] at hrecorded
      exact .inr ⟨signature, status, details, hof, hfinal, hrecorded, by simp [herr],
        by simp [herr]⟩
  | error e =>
    rw [hresult] at hjudged
    cases hjudged with
    | again he => exact .inl ⟨e, rfl, he⟩
    | failure hproven =>
      obtain ⟨status, details, hfinal, herr, hrecorded⟩ := hproven
      rw [← herr] at hrecorded
      exact .inr ⟨signature, status, details, hof, hfinal, hrecorded, by simp [herr],
        by simp [herr]⟩

namespace SettledRun

open FirstRun (primitives sdk request opened opened_up admitted)

def attempt : SolanaTransactionAttempt := ⟨1, 5, some 10, some "wire", 0, 0, 0, false, 100000, 1⟩

def reserved : State := State.after primitives none admitted (.beforeBroadcast "solana" "t1"
  (solanaKey primitives request.chainId 1) (durableAttemptPayload primitives sdk request attempt))

/-- Redis has the attempt, and the node knows it as finalized. -/
def outside : (x : External) → World Dispatch → Reply x
  | .getAttempt, _ => .ok (some attempt)
  | .signatureStatuses _, _ => .ok ⟨9, [some ⟨8, none, none, true, true⟩]⟩
  | .transaction _, _ => .ok ⟨some ["1"], 8, some none, none, .null⟩
  | x, w => FirstRun.outside x w

def runs := pool primitives fun j : SolanaExecutorJobData × ℕ × ℕ =>
  executeTransaction primitives sdk j.1 j.2.1 j.2.2

set_option maxRecDepth 10000 in
theorem reserved_steps : Steps primitives (.initial Recovery.Sample.world) reserved := by
  have hopened : Steps primitives (.initial Recovery.Sample.world) opened := Steps.call _ _ rfl rfl
  have hadmitted : Steps primitives opened admitted := Steps.call _ _ rfl opened_up
  exact (hopened.trans hadmitted).trans (Steps.call _ _ rfl (by decide +kernel))

set_option maxRecDepth 10000 in
theorem succeeded : ((runs.body (request, 0, 0)).exec (solo primitives outside fun _ => .ok "1")
    ⟨reserved, []⟩).1.isOk := by decide +kernel

end SettledRun

set_option maxRecDepth 10000 in
theorem solana_outcomes_settled : ∃ signature l status details, ∃ db : Database,
    Finalized FirstRun.primitives signature l status details ∧ status.err = none ∧
      Recorded FirstRun.primitives FirstRun.request signature none db := by
  obtain ⟨s, hsteps, _, l, houtcomes⟩ := Pool.Steps.exec (S := SettledRun.runs)
    (solo_act SettledRun.outside fun _ => .ok "1") ⟨SettledRun.reserved, []⟩
    (FirstRun.request, 0, 0)
  obtain ⟨v, hv⟩ : ∃ v, ((SettledRun.runs.body (FirstRun.request, 0, 0)).exec
      (solo FirstRun.primitives SettledRun.outside fun _ => .ok "1")
      ⟨SettledRun.reserved, []⟩).1 = .ok v := by
    have hok := SettledRun.succeeded
    cases hr : ((SettledRun.runs.body (FirstRun.request, 0, 0)).exec
      (solo FirstRun.primitives SettledRun.outside fun _ => .ok "1")
      ⟨SettledRun.reserved, []⟩).1 with
    | error e =>
      rw [hr] at hok
      cases hok
    | ok v => exact ⟨v, rfl⟩
  rw [hv] at houtcomes
  have hreached : Reached FirstRun.primitives SettledRun.reserved :=
    ⟨_, Recovery.Sample.founded, SettledRun.reserved_steps⟩
  have hhas : HasAttempt FirstRun.request.transactionId l
      (World.db (S := Dispatch) ⟨SettledRun.reserved, []⟩) := .inr (by decide +kernel)
  have hall := (solana_outcomes (w := ⟨SettledRun.reserved, []⟩) hreached hsteps).1
  rw [houtcomes] at hall
  rcases hall _ (List.mem_singleton_self _) hhas with
    ⟨e, he, _⟩ | ⟨signature, status, details, _, hfinal, hrecorded, hsuccess, _⟩
  · cases he
  · have hnone : status.err = none := hsuccess.mp ⟨v, rfl⟩
    rw [hnone] at hrecorded
    exact ⟨signature, _, status, details, _, hfinal, hnone, hrecorded⟩

end EngineCore.Solana
