import EngineCore.Recovery.Grant

/-!
# Admissions that are closed for good

* **`changed_by`**, **`attempts_by`**: what changes the tables, and what adds an attempt;
* `Granted.not_quarantined`: an operation on an admission succeeds only while it is not quarantined;
* **`states_absorb`**: over every run, terminal and quarantined admissions stay so, an admission is
  closed only by `record_terminal` with evidence of one of its attempts, and after a recovery every
  id with an attempt is closed.
-/

namespace EngineCore.Recovery

open Interact
open Except (bind_ok pure_ok)

variable {P : Primitives} {db db' : Database}

/-! ## Whose transaction it is -/

/-- A query that neither reserves a broadcast nor closes an admission nor starts a new epoch. -/
def Query.Common : Query → Prop
  | .sql (.broadcast ..) => False
  | .sql (.terminal ..) => False
  | .sql (.recoverCommit ..) => False
  | _ => True

/-- Broadcasts are reserved by `before_broadcast`, admissions closed by `record_terminal`, and epochs
started by `recover`. -/
def Query.Of (P : Primitives) (c : Call) : Query → Prop
  | .sql (.broadcast kind id key digest encoded) =>
    ∃ name attempt, c = .beforeBroadcast name id key attempt ∧ identity name id = .ok kind ∧
      canonical attempt = .ok encoded ∧ digest = digestOf P encoded
  | .sql (.terminal kind id evidence normalized encoded) =>
    ∃ name, c = .recordTerminal name id evidence ∧ identity name id = .ok kind ∧
      terminalIdentity evidence = .ok normalized ∧ canonical evidence = .ok encoded
  | .sql (.recoverCommit _ ns _) => c = .recover ns
  | _ => True

theorem Query.Common.of {q : Query} (h : q.Common) (c : Call) : q.Of P c := by
  cases q with
  | sql t =>
    cases t with
    | broadcast => exact absurd h id
    | terminal => exact absurd h id
    | recoverCommit => exact absurd h id
    | _ => trivial
  | _ => trivial

abbrev Shared {α : Type} (x : Journal α) : Prop := Prog.Only Query.Common x.run

namespace Shared

variable {α : Type}

theorem query {q : Query} (h : q.Common) : Shared (Journal.query q) := ⟨h, fun _ => trivial⟩

theorem sql {t : Tx} (h : (Query.sql t).Common) : Shared (Journal.sql t) := ⟨h, fun _ => trivial⟩

theorem lift (r : Result α) : Shared (Journal.lift r) := trivial

theorem seq {β : Type} {x : Journal β} {f : β → Journal α} (hx : Shared x)
    (hf : ∀ b, Shared (f b)) : Shared (x >>= f) :=
  Prog.Only.seq hx hf

theorem observed (key : String) : Shared (Journal.observed key) :=
  .seq (.query trivial) fun _ => .lift _

theorem own {x : Journal α} (h : Shared x) (c : Call) : Prog.Only (Query.Of P c) x.run :=
  Prog.Only.mono h fun _ hq => hq.of c

end Shared

/-- A common query of the running journal: no offline command's. -/
def Query.Routine (q : Query) : Prop := q.Common ∧ q.offline = false

/-- The program puts only routine queries. -/
abbrev Routine {α : Type} (x : Journal α) : Prop := Prog.Only Query.Routine x.run

namespace Routine

variable {α : Type}

theorem query {q : Query} (h : q.Routine) : Routine (Journal.query q) := ⟨h, fun _ => trivial⟩

theorem sql {t : Tx} (h : (Query.sql t).Routine) : Routine (Journal.sql t) :=
  ⟨h, fun _ => trivial⟩

theorem lift (r : Result α) : Routine (Journal.lift r) := trivial

theorem seq {β : Type} {x : Journal β} {f : β → Journal α} (hx : Routine x)
    (hf : ∀ b, Routine (f b)) : Routine (x >>= f) :=
  Prog.Only.seq hx hf

theorem stop (reason : HaltReason) : Routine (Journal.stop reason : Journal α) :=
  .seq (.seq (.query ⟨trivial, rfl⟩) fun _ => .seq (.query ⟨trivial, rfl⟩) fun _ => .lift _) fun _ => .lift _

theorem storageResult (r : Result α) : Routine (Journal.storageResult r) := by
  unfold Journal.storageResult
  split
  · exact stop _
  · exact .lift _

theorem commit {t : Tx} (h : (Query.sql t).Routine) : Routine (Journal.commit t) :=
  .seq (.query h) fun r => storageResult r

theorem observeCheckpoint (c : Control) (p : Option PendingUpdate) :
    Routine (Journal.observeCheckpoint c p) := by
  refine .seq (.query ⟨trivial, rfl⟩) fun seen => ?_
  cases seen with
  | none =>
    dsimp only
    split_ifs
    · exact .lift _
    · exact stop _
  | some seen =>
    dsimp only
    split_ifs
    · exact stop _
    · exact stop _
    · exact stop _
    · exact .lift _

theorem observeTarget (c : Control) (p : PendingUpdate) : Routine (Journal.observeTarget c p) := by
  refine .seq (.query ⟨trivial, rfl⟩) fun seen => ?_
  cases seen with
  | none => exact .lift _
  | some seen =>
    dsimp only
    split_ifs
    · exact stop _
    · exact stop _
    · exact stop _
    · exact .lift _

theorem publishTarget (p : PendingUpdate) : Routine (Journal.publishTarget p) := by
  refine .seq (.query ⟨trivial, rfl⟩) fun done => ?_
  rcases done with _ | (_ | _)
  · exact .lift _
  · exact stop _
  · exact .lift _

theorem completePending (c : Control) (p : PendingUpdate) :
    Routine (Journal.completePending c p) :=
  .seq (publishTarget p) fun _ => .seq (observeTarget c p) fun _ =>
    .seq (commit ⟨trivial, rfl⟩) fun _ => observeCheckpoint c none

theorem healthyLocked : Routine Journal.healthyLocked := by
  refine .seq (.query ⟨trivial, rfl⟩) fun failed => .seq (.lift _) fun _ => ?_
  refine .seq (.query ⟨trivial, rfl⟩) fun state => ?_
  rcases state with e | ⟨current, pending⟩
  · exact stop _
  dsimp only
  split_ifs
  · exact .seq (.query ⟨trivial, rfl⟩) fun _ => .lift _
  refine .seq (observeCheckpoint current pending) fun _ => .seq ?_ fun _ => .lift _
  cases pending with
  | none => exact .lift _
  | some p => exact completePending current p

theorem mirror (old : Control) : Routine (Journal.mirror old) :=
  .seq (commit ⟨trivial, rfl⟩) fun found => .seq (observeCheckpoint found.1 (some found.2)) fun _ =>
    completePending found.1 found.2

theorem mirrorChange (old : Option Control) : Routine (Journal.mirrorChange old) := by
  cases old with
  | none => exact .lift _
  | some old => exact mirror old

theorem finishTerminal (old : Option Control) (conflict : Bool) :
    Routine (Journal.finishTerminal old conflict) := by
  unfold Journal.finishTerminal
  split_ifs
  · exact .seq (.query ⟨trivial, rfl⟩) fun _ => .lift _
  · exact mirrorChange old

theorem gated {t : Tx} {f : t.Result → Journal α} (ht : (Query.sql t).Routine)
    (hf : ∀ r, Routine (f r)) :
    Routine (do let _ ← Journal.healthyLocked; let r ← Journal.commit t; f r) :=
  .seq healthyLocked fun _ => .seq (commit ht) hf

theorem own {x : Journal α} (h : Routine x) (c : Call) :
    Prog.Only (fun q => q.Of P c ∧ q.offline = false) x.run :=
  Prog.Only.mono h fun _ hq => ⟨hq.1.of c, hq.2⟩

end Routine

theorem only_check {α β : Type} {Ψ : Query → Prop} {r : Result β} {f : β → Journal α}
    (hf : ∀ b, r = .ok b → Prog.Only Ψ (f b).run) : Prog.Only Ψ (Journal.lift r >>= f).run := by
  cases r with
  | error e => trivial
  | ok b => exact hf b rfl

theorem recordTerminal_own (name id : String) (evidence : Json) :
    Prog.Only (fun q => q.Of P (.recordTerminal name id evidence) ∧ q.offline = false)
      (Journal.recordTerminal name id evidence).run := by
  refine only_check fun k hk => only_check fun normalized hn => only_check fun encoded he => ?_
  refine .seq (Routine.healthyLocked.own _) fun _ => ?_
  refine .seq (.seq (x := Journal.query (.sql (.terminal k id evidence normalized encoded)))
    ⟨⟨⟨name, rfl, hk, hn, he⟩, rfl⟩, fun _ => trivial⟩ fun r => (Routine.storageResult r).own _)
    fun out => ?_
  exact (Routine.finishTerminal out.1 out.2).own _

theorem reattach_shared (ns : Option String) : Shared (Journal.reattach ns) := by
  refine .seq (.sql trivial) fun found => .seq (.observed _) fun seen => .seq (.lift _) fun _ => ?_
  refine .seq (.sql trivial) fun _ => .seq (.query trivial) fun again => ?_
  cases Journal.reattachFailure found.1 seen.runId again with
  | none => exact .sql trivial
  | some reason => exact .seq (.sql trivial) fun _ => .lift _

theorem emptyNamespace_shared (ns : Option String) : Shared (Journal.emptyNamespace ns) := by
  refine .seq (.lift _) fun _ => .seq (.query trivial) fun empty => ?_
  rcases empty with _ | (_ | _) <;> exact .lift _

theorem claimMarker_shared (c : Control) : Shared (Journal.claimMarker c) := by
  refine .seq (.query trivial) fun set => ?_
  rcases set with _ | (_ | _) <;> exact .lift _

theorem recover_own (ns : Option String) :
    Prog.Only (Query.Of P (.recover ns)) (Journal.recover ns).run := by
  refine .seq ((Shared.lift _).own _) fun _ => .seq ((Shared.lift _).own _) fun _ => ?_
  refine .seq (x := Journal.sql (.recoverState ns)) ⟨trivial, fun _ => trivial⟩ fun old => ?_
  refine .seq ((emptyNamespace_shared ns).own _) fun _ => ?_
  refine .seq ((Shared.observed _).own _) fun seen => .seq ((Shared.lift _).own _) fun _ => ?_
  refine .seq (x := Journal.sql (.recoverCommit old ns seen.runId)) ⟨rfl, fun _ => trivial⟩
    fun _ => Shared.own ?_ _
  refine .seq (.sql trivial) fun c => .seq (claimMarker_shared c) fun _ => ?_
  refine .seq (.observed _) fun now => .seq (.lift _) fun _ => ?_
  exact .seq (.sql trivial) fun _ => .sql trivial

theorem openJournal_routine (ns : Option String) : Routine (Journal.openJournal ns) := by
  refine .seq (.lift _) fun _ => .seq (.sql ⟨trivial, rfl⟩) fun c => .seq (.lift _) fun _ => ?_
  refine .seq (.commit ⟨trivial, rfl⟩) fun _ => .seq .healthyLocked fun _ => ?_
  refine .seq (.sql ⟨trivial, rfl⟩) fun _ => .seq .healthyLocked fun current => ?_
  unfold Journal.migrateLegacy
  split_ifs
  · exact .seq (.commit ⟨trivial, rfl⟩) fun _ => .healthyLocked
  · exact .lift _

theorem reserveAdmission_routine (kind id fingerprint : String) (payload : Json) :
    Routine (Journal.reserveAdmission P kind id fingerprint payload) :=
  .seq (.lift _) fun _ => .seq (.lift _) fun _ => .seq (.lift _) fun _ => .seq (.lift _) fun _ =>
    .gated ⟨trivial, rfl⟩ fun r => .seq (.mirrorChange r.2) fun _ => .lift _

theorem beforeBroadcast_own (name id key : String) (attempt : Json) :
    Prog.Only (fun q => q.Of P (.beforeBroadcast name id key attempt) ∧ q.offline = false)
      (Journal.beforeBroadcast P name id key attempt).run := by
  refine only_check fun k hk => only_check fun _ _ => only_check fun encoded he => ?_
  refine .seq (Routine.healthyLocked.own _) fun _ => ?_
  refine .seq (.seq (x := Journal.query (.sql (.broadcast k id key (digestOf P encoded) encoded)))
    ⟨⟨⟨name, attempt, rfl, hk, he, rfl⟩, rfl⟩, fun _ => trivial⟩
    fun r => (Routine.storageResult r).own _) fun old => ?_
  exact (Routine.mirrorChange old).own _

theorem prepareSolanaRestore_routine (id : String) (expected : Json) :
    Routine (Journal.prepareSolanaRestore id expected) :=
  .seq (.lift _) fun _ => .gated ⟨trivial, rfl⟩ fun r => .seq (.mirrorChange r.2) fun _ => .lift _

theorem beforeSolanaRecoveryBroadcast_routine (id : String) (expected attempt : Json) :
    Routine (Journal.beforeSolanaRecoveryBroadcast id expected attempt) :=
  .seq (.lift _) fun _ => .gated ⟨trivial, rfl⟩ fun r => .seq (.mirrorChange r.2) fun _ => .lift _

theorem commitCheckpoint_routine (chainId : ℕ) (expected : Option FinalityEvidence)
    (evidence : FinalityEvidence) :
    Routine (Journal.commitCheckpoint chainId expected evidence) :=
  .gated ⟨trivial, rfl⟩ fun r => .seq (.mirrorChange r.2.1) fun _ => .seq (.lift _) fun _ => .lift _

/-- **Every call but the repairing ones submits only its own transactions**, and no offline
command's. -/
theorem body_online (c : Call) (hc : c.repairs = false) :
    Prog.Only (fun q => q.Of P c ∧ q.offline = false) (c.body P).run := by
  cases c with
  | recordTerminal kind id evidence => exact recordTerminal_own kind id evidence
  | recover ns => cases hc
  | reattach ns => cases hc
  | openJournal ns => exact (openJournal_routine ns).own _
  | quarantine => exact Routine.own (x := Journal.quarantine) (.sql ⟨trivial, rfl⟩) _
  | ensureHealthy =>
    exact Routine.own (x := Journal.ensureHealthy) (.seq .healthyLocked fun _ => .lift _) _
  | reserveAdmission kind id fingerprint payload =>
    exact (reserveAdmission_routine kind id fingerprint payload).own _
  | validateReplayBinding kind id key =>
    exact Routine.own (x := Journal.validateReplayBinding kind id key) (.seq (.lift _) fun _ =>
      .seq (.lift _) fun _ => .seq .healthyLocked fun _ => .sql ⟨trivial, rfl⟩) _
  | beforeBroadcast kind id key attempt => exact beforeBroadcast_own kind id key attempt
  | prepareSolanaRestore id expected => exact (prepareSolanaRestore_routine id expected).own _
  | beforeSolanaRecoveryBroadcast id expected attempt =>
    exact (beforeSolanaRecoveryBroadcast_routine id expected attempt).own _
  | commitCheckpoint chainId expected evidence =>
    exact (commitCheckpoint_routine chainId expected evidence).own _
  | haltChain chainId =>
    exact Routine.own (x := Journal.haltChain chainId)
      (.gated ⟨trivial, rfl⟩ fun r => .mirror r) _

/-- **Every call submits only its own transactions.** -/
theorem body_own (c : Call) : Prog.Only (Query.Of P c) (c.body P).run := by
  by_cases hc : c.repairs = false
  · exact (body_online c hc).mono fun _ hq => hq.1
  cases c with
  | recover ns => exact recover_own ns
  | reattach ns => exact (reattach_shared ns).own _
  | _ => exact absurd rfl hc

/-! ## Evidence and recovery rows -/

/-- The transactions that write the table of restored Solana intents. -/
def Tx.restores : Tx → Bool
  | .prepareRestore .. | .claimBroadcast .. | .migrate | .recoverCommit .. => true
  | _ => false

/-- Only the transaction of `record_terminal` touches the evidence, only four others the restored
Solana intents, and only the one of `before_broadcast` the attempts. -/
theorem Tx.exec_tables {now : Option ℕ} {t : Tx} {r : t.Result}
    (h : t.exec P now db = .ok (r, db')) :
    (db'.evidence = db.evidence ∨ ∃ k id evidence normalized encoded,
      t = .terminal k id evidence normalized encoded) ∧
    (db'.solana = db.solana ∨ t.restores = true) ∧
    (db'.attempts = db.attempts ∨ ∃ k id key digest encoded,
      t = .broadcast k id key digest encoded) := by
  cases t with
  | terminal =>
    obtain ⟨old, conflict⟩ := r
    refine ⟨.inr ⟨_, _, _, _, _, rfl⟩, ?_⟩
    obtain ⟨_, _, _, _, ⟨_, _, _, _, _, _, ⟨_, _, rfl⟩ | ⟨_, _, rfl⟩⟩ | ⟨_, _, _, _, rfl⟩⟩ :=
      terminal_ok h <;> exact ⟨.inl rfl, .inl rfl⟩
  | control | state | mirrorState | replayBinding | validateSchema | historyIndexes
    | reattachState | recoverState | status =>
    obtain ⟨_, rfl⟩ := reading_ok h
    exact ⟨.inl rfl, .inl rfl, .inl rfl⟩
  | halt reason =>
    obtain rfl : db.halt reason = db' := Except.ok.inj (writing_ok h)
    exact ⟨.inl rfl, .inl rfl, .inl rfl⟩
  | acknowledge p =>
    obtain ⟨_, _, rows, _, rfl⟩ := acknowledge_ok (writing_ok (q := (·.acknowledge p)) h)
    exact ⟨.inl rfl, .inl rfl, .inl rfl⟩
  | reserve =>
    obtain ⟨r, old⟩ := r
    rcases reserve_ok h with ⟨_, _, _, _, _, _, _, rfl⟩ | ⟨_, _, _, _, rfl⟩ <;>
      exact ⟨.inl rfl, .inl rfl, .inl rfl⟩
  | broadcast =>
    obtain ⟨_, _, _, _, _, _, _, ⟨_, rfl, _⟩ | ⟨_, _, _, rfl⟩⟩ := broadcast_ok h <;>
      exact ⟨.inl rfl, .inl rfl, .inr ⟨_, _, _, _, _, rfl⟩⟩
  | prepareRestore =>
    obtain ⟨r, old⟩ := r
    rcases prepareRestore_ok h with ⟨_, _, _, rfl⟩ | ⟨_, _, _, ⟨_, _, rfl⟩ | ⟨_, _, _, rfl⟩⟩ <;>
      exact ⟨.inl rfl, .inr rfl, .inl rfl⟩
  | claimBroadcast =>
    obtain ⟨r, old⟩ := r
    obtain ⟨_, _, _, _, _, _, _, ⟨_, _, rfl⟩ | ⟨_, _, _, _, _, _, _, rfl⟩⟩ := claimBroadcast_ok h <;>
      exact ⟨.inl rfl, .inr rfl, .inl rfl⟩
  | commitCheckpoint =>
    obtain ⟨accepted, old, conflict⟩ := r
    rcases (commitCheckpoint_ok h).2 with ⟨_, _, _, rfl⟩ | ⟨_, _, _, rfl, _⟩ |
      ⟨_, _, _, _, _, rfl⟩ | ⟨_, _, _, _, rfl⟩ <;> exact ⟨.inl rfl, .inl rfl, .inl rfl⟩
  | haltChain =>
    obtain ⟨_, _, rfl⟩ := haltChain_ok h
    exact ⟨.inl rfl, .inl rfl, .inl rfl⟩
  | migrate =>
    rcases migrate_ok (writing_ok h) with ⟨_, rfl⟩ | ⟨_, _, _, rfl⟩ <;>
      exact ⟨.inl rfl, .inr rfl, .inl rfl⟩
  | quarantine =>
    have h' := writing_ok h
    simp only [Database.quarantine, bind_ok, pure_ok] at h'
    obtain ⟨_, _, rfl⟩ := h'
    exact ⟨.inl rfl, .inl rfl, .inl rfl⟩
  | reattachCommit =>
    obtain ⟨_, _, rows, _, rfl⟩ := reattachCommit_ok (writing_ok h)
    exact ⟨.inl rfl, .inl rfl, .inl rfl⟩
  | recoverCommit =>
    obtain ⟨_, rfl⟩ := recoverCommit_ok (writing_ok h)
    exact ⟨.inl rfl, .inr rfl, .inl rfl⟩
  | recoverFinish =>
    obtain rfl : db.recoverFinish = db' := Except.ok.inj (writing_ok h)
    exact ⟨.inl rfl, .inl rfl, .inl rfl⟩

theorem Tx.exec_evidence {now : Option ℕ} {t : Tx} {r : t.Result}
    (h : t.exec P now db = .ok (r, db')) :
    db'.evidence = db.evidence ∨ ∃ k id evidence normalized encoded,
      t = .terminal k id evidence normalized encoded :=
  (Tx.exec_tables h).1

/-! ## Operations on one admission -/

/-- The admission that an operation is for. -/
def Call.admission : Call → Option String
  | .reserveAdmission _ id _ _ => some id
  | .beforeBroadcast _ id _ _ => some id
  | .recordTerminal _ id _ => some id
  | .prepareSolanaRestore id _ => some id
  | .beforeSolanaRecoveryBroadcast id _ _ => some id
  | _ => none

theorem Granted.not_quarantined {c : Call} {a : c.Value} {l : Log} {id : String}
    (h : Granted P c a l db) (hc : c.admission = some id) :
    ∃ r ∈ db.admissions, r.id = id ∧ r.state ≠ .quarantined := by
  have hretained : ∀ {expected : Json} {found : Option Retained} {db₀ : Database},
      db₀.retained P id expected = .ok found → db.admissions = db₀.admissions →
      ∃ r ∈ db.admissions, r.id = id ∧ r.state ≠ .quarantined := by
    intro expected found db₀ hret hsame
    obtain ⟨record, hrec, _, hstate, _⟩ := retained_ok hret
    obtain ⟨hmem, hid⟩ := mem_of_lookup hrec
    exact ⟨record, hsame ▸ hmem, hid, hstate⟩
  cases c with
  | reserveAdmission kind id' fingerprint payload =>
    cases hc
    obtain ⟨_, _, _, _, _, _, _, _, hg⟩ := h
    obtain ⟨record, hmem, hid, _, _, hstate, _⟩ := hg.reserve
    exact ⟨record, hmem, hid, hstate⟩
  | recordTerminal kind id' evidence =>
    cases hc
    obtain ⟨_, _, _, _, _, _, _, _, _, hg⟩ := h
    obtain ⟨⟨record, hmem, hid, _, hstate⟩, _⟩ := hg.terminal
    exact ⟨record, hmem, hid, by simp [hstate]⟩
  | beforeBroadcast kind id' key attempt =>
    cases hc
    obtain ⟨_, _, _, _, _, _, _, _, hg⟩ := h
    obtain ⟨now, _, _, _, hexec⟩ := hg.ran
    obtain ⟨record, hrec, _, hstate, _, _, _, hcase⟩ := broadcast_ok hexec
    obtain ⟨hmem, hid⟩ := mem_of_lookup hrec
    rw [hg.tables]
    rcases hcase with ⟨_, rfl, _⟩ | ⟨_, _, _, rfl⟩
    · exact ⟨record, hmem, hid, by simp [hstate]⟩
    · refine ⟨record.bindKey key, mem_updateAdmission.mpr (.inl ⟨record, hmem, hid, rfl⟩), hid, ?_⟩
      simp [AdmissionRecord.bindKey, hstate]
  | prepareSolanaRestore id' expected =>
    cases hc
    obtain ⟨_, db₀, db₁, hg⟩ := h
    obtain ⟨now, _, _, _, hexec⟩ := hg.ran
    have htables := hg.tables
    rcases prepareRestore_ok hexec with ⟨hret, _, _, rfl⟩ |
      ⟨_, hret, _, ⟨_, _, rfl⟩ | ⟨_, _, _, rfl⟩⟩ <;> exact hretained hret (htables ▸ rfl)
  | beforeSolanaRecoveryBroadcast id' expected attempt =>
    cases hc
    obtain ⟨_, db₀, db₁, hg⟩ := h
    obtain ⟨now, _, _, _, hexec⟩ := hg.ran
    have htables := hg.tables
    obtain ⟨_, _, hret, _, _, _, _, ⟨_, _, rfl⟩ | ⟨_, _, _, _, _, _, _, rfl⟩⟩ :=
      claimBroadcast_ok hexec <;> exact hretained hret (htables ▸ rfl)
  | _ => cases hc

/-! ## Every run -/

theorem Database.Intact.lookup_eq (hi : db.Intact) {r : AdmissionRecord}
    (hr : r ∈ db.admissions) : db.lookup r.id = some r := by
  cases hrec : db.lookup r.id with
  | none => exact absurd rfl (lookup_eq_none.mp hrec r hr)
  | some record => rw [lookup_state hi hrec hr rfl]

theorem Steps.absorbs {s s' : State} (h : Steps P s s') (hs : s.world.db.Intact) {id : String}
    {r : AdmissionRecord} (hr : s.world.db.lookup id = some r) (hstate : r.state ≠ .admitted) :
    ∃ r', s'.world.db.lookup id = some r' ∧ r'.state = r.state := by
  refine (h.database (I := fun db => db.Intact ∧ ∃ r', db.lookup id = some r' ∧
    r'.state = r.state) ?_ ⟨hs, r, hr, rfl⟩).1.2
  rintro o db db' hc ⟨hi, r₁, hr₁, hsame⟩
  obtain ⟨hmem, hid⟩ := mem_of_lookup hr₁
  obtain ⟨r₂, hmem₂, hid₂, hkeep⟩ := hc.absorbs hi r₁ hmem
  refine ⟨hc.intact hi, r₂, ?_, (hkeep (hsame ▸ hstate)).trans hsame⟩
  rw [← hid, ← hid₂]
  exact (hc.intact hi).lookup_eq hmem₂

theorem scanAttempts_ok {kind : Kind} {key : String} {identity : Json} {attempts : List Attempt}
    (h : scanAttempts P kind key identity attempts = .ok ()) :
    ∃ a ∈ attempts, attemptMatches P kind key identity a.payload = .ok true := by
  induction attempts with
  | nil => cases h
  | cons a as ih =>
    simp only [scanAttempts, bind_ok] at h
    obtain ⟨found, hfound, h⟩ := h
    cases found with
    | true => exact ⟨a, List.mem_cons_self, hfound⟩
    | false =>
      obtain ⟨b, hb, hmatch⟩ := ih h
      exact ⟨b, List.mem_cons_of_mem _ hb, hmatch⟩

theorem validateAttemptIdentity_match {record : AdmissionRecord} {identity : Json}
    (hi : db.Intact) (hr : record ∈ db.admissions)
    (h : db.validateAttemptIdentity P record identity = .ok ()) :
    ∃ a ∈ db.attempts, a.id = record.id ∧
      attemptMatches P record.kind a.replayKey identity a.payload = .ok true := by
  simp only [Database.validateAttemptIdentity, bind_ok, require_ok] at h
  obtain ⟨_, _, key, hkey, chain, _, _, _, _, _, hscan⟩ := h
  obtain ⟨a, hown, hmatch⟩ := scanAttempts_ok hscan
  obtain ⟨ha, haid⟩ := List.mem_filter.mp hown
  replace haid : a.id = record.id := by simpa using haid
  obtain ⟨r, hmem, hid, hbound⟩ := hi.bound a ha
  rw [hi.eq_of_id hmem hr (hid.trans haid), hkey, Option.some.injEq] at hbound
  exact ⟨a, ha, haid, hbound ▸ hmatch⟩

/-- A transaction that closes an admission is the one of `record_terminal`, with evidence of one of
the attempts. -/
theorem Tx.exec_closes {now : Option ℕ} {t : Tx} {r : t.Result} {id : String}
    {r' : AdmissionRecord} (hi : db.Intact) (h : t.exec P now db = .ok (r, db'))
    (hr' : db'.lookup id = some r') (hstate : r'.state = .terminal)
    (hopen : ∀ r, db.lookup id = some r → r.state ≠ .terminal) :
    ∃ kind evidence normalized encoded, t = .terminal kind id evidence normalized encoded ∧
      ∃ a ∈ db.attempts, a.id = id ∧
        attemptMatches P r'.kind a.replayKey evidence a.payload = .ok true := by
  have hc := Tx.exec_commit h
  obtain ⟨hmem', hid'⟩ := mem_of_lookup hr'
  rcases hc.closes hmem' hstate with ⟨r₀, hr₀, hid₀, hterm⟩ | ⟨_, e, _, _, _, _, heid, hnew⟩
  · refine absurd hterm (hopen r₀ ?_)
    rw [← hid', ← hid₀]
    exact hi.lookup_eq hr₀
  rcases Tx.exec_evidence h with hev | ⟨kind, id₁, evidence, normalized, encoded, rfl⟩
  · rw [hev] at hnew
    simp at hnew
  obtain ⟨old, conflict⟩ := r
  obtain ⟨record, hrec, _, hidentity, hcase⟩ := terminal_ok h
  obtain ⟨hmem, hrid⟩ := mem_of_lookup hrec
  -- the evidence that closes the admission is the one of this transaction
  have hsame : id₁ = id := by
    have hlast : db'.evidence = db.evidence ∨ db'.evidence = db.evidence ++ [⟨id₁, encoded⟩] := by
      rcases hcase with ⟨_, _, _, _, _, _, ⟨_, _, rfl⟩ | ⟨_, _, rfl⟩⟩ | ⟨_, _, _, _, rfl⟩
      · exact .inl rfl
      · exact .inr rfl
      · exact .inr rfl
    rcases hlast with hlast | hlast
    · rw [hlast] at hnew
      simp at hnew
    · rw [hlast] at hnew
      have he : e = ⟨id₁, encoded⟩ := by simpa using hnew.symm
      rw [← hid', ← heid, he]
  subst hsame
  obtain ⟨r₂, hr₂, hkeeps⟩ := (hc.extends hi).admissions record hmem
  have hkind : r'.kind = record.kind := by
    rw [← hkeeps.kind, (hc.intact hi).eq_of_id hmem' hr₂ (hid'.trans (hrid.symm.trans hkeeps.id.symm))]
  obtain ⟨a, ha, haid, hmatch⟩ := validateAttemptIdentity_match hi hmem hidentity
  exact ⟨kind, evidence, normalized, encoded, rfl, a, ha, haid.trans hrid, hkind ▸ hmatch⟩

/-- **A step changes the tables only by a transaction of the running call.** -/
theorem changed_by {w : World} {s s' : State} (h : Steps P (.initial w) s)
    (hstep : (service P).Step s s') (hne : s'.world.db ≠ s.world.db) :
    ∃ c l t k now r, s.active = some ⟨c, l, .ask (.sql t) k⟩ ∧ (Query.sql t).Of P c ∧
      t.exec P now s.world.db = .ok (r, s'.world.db) := by
  cases hstep with
  | start c hfree hready => exact absurd rfl hne
  | finish hactive => exact absurd (settle_db _ _ _) hne
  | interfere henv => exact absurd henv.1 hne
  | crash => exact absurd rfl hne
  | @act c l q k a w' hactive hact =>
    have hown := (Service.Steps.only (Ψ := Query.Of P) body_own h hactive).1
    rcases act_exec hact with hsame | ⟨t, now, r, rfl, hexec⟩
    · exact absurd hsame hne
    · exact ⟨c, l, t, k, now, r, hactive, hown, hexec⟩

theorem closed_by {w : World} {s s' : State} (hfound : Founded w.db)
    (h : Steps P (.initial w) s) (hstep : (service P).Step s s') {id : String}
    {r' : AdmissionRecord} (hr' : s'.world.db.lookup id = some r') (hstate : r'.state = .terminal)
    (hopen : ∀ r, s.world.db.lookup id = some r → r.state ≠ .terminal) :
    ∃ kind evidence l rest, s.active = some ⟨.recordTerminal kind id evidence, l, rest⟩ ∧
      ∃ a ∈ s.world.db.attempts, a.id = id ∧
        attemptMatches P r'.kind a.replayKey evidence a.payload = .ok true := by
  have hsame : s'.world.db ≠ s.world.db := by
    intro hdb
    rw [hdb] at hr'
    exact hopen r' hr' hstate
  obtain ⟨c, l, t, k, now, r, hactive, hown, hexec⟩ := changed_by h hstep hsame
  obtain ⟨kind, evidence, normalized, encoded, rfl, hattempt⟩ :=
    Tx.exec_closes (h.intact hfound.intact) hexec hr' hstate hopen
  obtain ⟨name, rfl, _⟩ := hown
  exact ⟨name, evidence, l, _, hactive, hattempt⟩

/-- **Attempts are added by `before_broadcast`**, with its own id, key and wire. -/
theorem attempts_by {w : World} {s s' : State} (h : Steps P (.initial w) s)
    (hstep : (service P).Step s s') {row : Attempt} (hrow : row ∈ s'.world.db.attempts)
    (hnew : row ∉ s.world.db.attempts) :
    ∃ name attempt k l rest,
      s.active = some ⟨.beforeBroadcast name row.id row.replayKey attempt, l, rest⟩ ∧
      identity name row.id = .ok k ∧ canonical attempt = .ok row.payload ∧
      row.digest = digestOf P row.payload := by
  have hsame : s'.world.db ≠ s.world.db := fun hdb => hnew (hdb ▸ hrow)
  obtain ⟨c, l, t, next, now, r, hactive, hown, hexec⟩ := changed_by h hstep hsame
  rcases (Tx.exec_tables hexec).2.2 with hattempts | ⟨k, id, key, digest, encoded, rfl⟩
  · rw [hattempts] at hrow
    exact absurd hrow hnew
  obtain ⟨name, attempt, rfl, hk, he, hdigest⟩ := hown
  obtain ⟨_, _, _, _, _, _, _, ⟨_, hdb, _⟩ | ⟨_, _, _, hdb⟩⟩ := broadcast_ok hexec
  · exact absurd hdb hsame
  · rw [hdb] at hrow
    rcases List.mem_append.mp hrow with hold | hnow
    · exact absurd hold hnew
    · obtain rfl := List.mem_singleton.mp hnow
      exact ⟨name, attempt, k, l, _, hactive, hk, he, hdigest⟩

theorem refused_of_quarantined {w : World} {s s' : State} (hfound : Founded w.db)
    (h : Steps P (.initial w) s) (h' : Steps P s s') {id : String} {r : AdmissionRecord}
    (hr : s.world.db.lookup id = some r) (hstate : r.state = .quarantined) {c : Record}
    (hc : c ∈ s.since s') (hid : c.call.admission = some id) (v : c.call.Value) :
    c.result ≠ .ok v := by
  intro hv
  obtain ⟨t, ht, hworld, _⟩ := Service.Steps.mem_since h' hc
  have hgrant := (promise_of_record hfound (h.trans h') (Service.State.mem_since hc)).1 v hv
  obtain ⟨r₁, hr₁, hid₁, hopen⟩ := hgrant.not_quarantined hid
  obtain ⟨r₂, hr₂, hstate₂⟩ := Steps.absorbs ht (h.intact hfound.intact) hr (by simp [hstate])
  have hi := Steps.intact (h.trans ht) hfound.intact
  rw [hworld] at hr₂ hi
  rw [lookup_state hi hr₂ hr₁ hid₁, hstate₂] at hopen
  exact hopen hstate

/-- **States absorb.** In every run, whatever its calls, their order, the crashes and the changes of
Redis: a terminal or quarantined admission stays what it is; an admission is closed only by a running
`record_terminal` whose evidence names one of its attempts; and when a recovery commits, every id
with an attempt is terminal or quarantined, and no operation on a quarantined id succeeds after. -/
theorem states_absorb {w : World} {s : State} (hfound : Founded w.db)
    (h : Steps P (.initial w) s) :
    (∀ s' id r, Steps P s s' → s.world.db.lookup id = some r → r.state ≠ .admitted →
      ∃ r', s'.world.db.lookup id = some r' ∧ r'.state = r.state) ∧
    (∀ s' id r', (service P).Step s s' → s'.world.db.lookup id = some r' → r'.state = .terminal →
      (∀ r, s.world.db.lookup id = some r → r.state ≠ .terminal) →
      ∃ kind evidence l rest, s.active = some ⟨.recordTerminal kind id evidence, l, rest⟩ ∧
        ∃ a ∈ s.world.db.attempts, a.id = id ∧
          attemptMatches P r'.kind a.replayKey evidence a.payload = .ok true) ∧
    (∀ s' legacy ns run, (service P).Step s s' →
      s'.world.db = s.world.db.recovered legacy ns run →
      ∀ a ∈ s'.world.db.attempts, ∃ r, s'.world.db.lookup a.id = some r ∧
        (r.state = .terminal ∨ r.state = .quarantined ∧
          ∀ s'', Steps P s' s'' → ∀ c ∈ s'.since s'', c.call.admission = some a.id →
            ∀ v, c.result ≠ .ok v)) := by
  have hi := h.intact hfound.intact
  refine ⟨fun s' id r h' hr hstate => h'.absorbs hi hr hstate,
    fun s' id r' hstep => closed_by hfound h hstep, ?_⟩
  intro s' legacy ns run hstep hdb a ha
  have h' : Steps P (.initial w) s' := h.tail hstep
  have hi' := h'.intact hfound.intact
  obtain ⟨r, hr, hid, _⟩ := hi'.bound a ha
  have hlookup : s'.world.db.lookup a.id = some r := hid ▸ hi'.lookup_eq hr
  refine ⟨r, hlookup, ?_⟩
  have hclosed : r.state = .terminal ∨ r.state = .quarantined := by
    rw [hdb] at hr ha
    obtain ⟨r₀, _, rfl⟩ := List.mem_map.mp hr
    change s.world.db.recoveredState r₀ = _ ∨ s.world.db.recoveredState r₀ = _
    unfold Database.recoveredState
    by_cases hterm : r₀.state = .terminal
    · rw [if_neg (by simp [hterm])]
      exact .inl hterm
    · rw [if_pos ⟨hterm, a, ha, hid.symm⟩]
      exact .inr rfl
  refine hclosed.imp id fun hq => ⟨hq, fun s'' h'' c hc hcid v => ?_⟩
  exact refused_of_quarantined hfound h' h'' hlookup hq hc hcid v

namespace Sample

/-- A recovery into a new namespace, after a crash. -/
def moved : State := State.after primitives none sent.crashed (.recover (some "n2"))

theorem moved_steps : Steps primitives (.initial world) moved :=
  (sent_steps.tail (.crash sent)).trans (Steps.call _ _ rfl rfl)

set_option maxRecDepth 4000 in
theorem moved_quarantined : ∃ r, moved.world.db.lookup "t1" = some r ∧ r.state = .quarantined :=
  ⟨⟨"t1", .eoa, "eoa\x00null", .null, .quarantined, some key⟩, by decide +kernel, rfl⟩

end Sample

theorem states_absorb_moved : ∃ r', Sample.moved.crashed.world.db.lookup "t1" = some r' ∧
    r'.state = .quarantined := by
  obtain ⟨r, hr, hstate⟩ := Sample.moved_quarantined
  obtain ⟨r', hr', hsame⟩ := (states_absorb Sample.founded Sample.moved_steps).1
    Sample.moved.crashed "t1" r (.crash _ _) hr (by simp [hstate])
  exact ⟨r', hr', hsame.trans hstate⟩

end EngineCore.Recovery
