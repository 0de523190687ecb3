import EngineCore.Recovery.Transactions

/-!
# What a commit can do

Every transaction of the journal either leaves the tables alone or makes one of fifteen changes.
The changes are listed once, with the checks their transactions have passed; every invariant of
the ledger is a case analysis over them.

* **`Tx.exec_commit`**: a transaction that succeeds makes one of the listed changes.
-/

namespace EngineCore.Recovery

open Except (bind_ok pure_ok)

variable {P : Primitives} {db db' : Database}

/-- The checkpoint may advance: the last change has been seen and the counter has room. -/
structure Database.CanAdvance (db : Database) : Prop where
  pending : db.pending = some []
  schema : 2 ≤ db.control.schema ∧ db.control.schema ≤ schemaVersion
  checkpoint : db.control.checkpoint ≠ i64Max

def AdmissionRecord.bindKey (key : String) (r : AdmissionRecord) : AdmissionRecord :=
  { r with replayKey := some key }

def AdmissionRecord.close (r : AdmissionRecord) : AdmissionRecord := { r with state := .terminal }

/-- Adopt a Redis process and lift the halt. -/
def Control.attach (c : Control) (run : String) : Control :=
  { c with runId := run, halted := false, reason := none }

/-- The row a claim takes its broadcast from. -/
def SolanaRecovery.hit (id : String) (stored : RetainedSolanaAttempt) (m : SolanaRecovery) : Bool :=
  decide (m.id = id ∧ m.broadcasts = stored.recoveryBroadcasts ∧
    m.lastBroadcastAt = stored.lastRecoveryBroadcastAt)

/-- The tables with one more broadcast of a restored intent spent. -/
def Database.spent (db : Database) (id : String) (stored : RetainedSolanaAttempt) (now : ℕ)
    (modes : List SolanaRecovery) : Database :=
  { db with solana := some (modes.map fun m =>
      if m.hit id stored then
        { m with broadcasts := stored.recoveryBroadcasts + 1, lastBroadcastAt := now }
      else m) }

/-- One committed change of the tables, with the checks its transaction has passed. The flag marks
the changes of the offline commands. -/
inductive Commit (P : Primitives) : Bool → Database → Database → Prop
  | unchanged (o : Bool) (db : Database) : Commit P o db db
  | reserve {db : Database} (row : AdmissionRecord) (hnew : db.lookup row.id = none)
      (hstate : row.state = .admitted) (hkey : row.replayKey = none) (hadv : db.CanAdvance) :
      Commit P false db (db.insertAdmission row).advanced
  | attempt {db : Database} (record : AdmissionRecord) (a : Attempt)
      (hrec : db.lookup a.id = some record) (hstate : record.state = .admitted)
      (hgate : db.broadcastGate record.kind a.id a.replayKey = .ok ())
      (hkey : ∀ k, record.replayKey = some k → k = a.replayKey)
      (howner : ∀ o, db.owner a.replayKey = some o → o.id = a.id)
      (hnew : ∀ b ∈ db.attempts, b.id = a.id → b.digest ≠ a.digest) (hadv : db.CanAdvance) :
      Commit P false db
        ((db.updateAdmission a.id (AdmissionRecord.bindKey a.replayKey)).insertAttempt a).advanced
  | close {db : Database} (record : AdmissionRecord) (e : TerminalEvidence) (evidence : Json)
      (hrec : db.lookup e.id = some record)
      (hid : db.validateAttemptIdentity P record evidence = .ok ())
      (hstate : record.state ≠ .terminal) (hadv : db.CanAdvance) :
      Commit P false db ((db.insertEvidence e).updateAdmission e.id AdmissionRecord.close).advanced
  | contradict {db : Database} (record : AdmissionRecord) (e : TerminalEvidence) (evidence : Json)
      (hrec : db.lookup e.id = some record)
      (hid : db.validateAttemptIdentity P record evidence = .ok ())
      (hstate : record.state = .terminal) :
      Commit P false db
        { db.insertEvidence e with
          control.halted := true, control.reason := some .terminalEvidenceConflict }
  | restore {db : Database} (row : SolanaRecovery) (expected : Json) (stored : Retained)
      (hret : db.retained P row.id expected = .ok (some stored))
      (hmode : stored.recoveryMode = false) (hdigest : row.attemptDigest = stored.digest)
      (hzero : row.broadcasts = 0 ∧ row.lastBroadcastAt = 0) (hadv : db.CanAdvance) :
      Commit P false db (db.insertSolana row).advanced
  | spend {db : Database} (id : String) (expected : Json) (stored : Retained) (now : ℕ)
      (modes : List SolanaRecovery)
      (hret : db.retained P id expected = .ok (some stored)) (hmode : stored.recoveryMode = true)
      (hstate : stored.attempt.state = .admitted)
      (hbudget : stored.attempt.recoveryBroadcasts < maxSolanaRecoveryBroadcasts)
      (hmodes : db.solana = some modes)
      (hone : modes.countP (SolanaRecovery.hit id stored.attempt) = 1) (hadv : db.CanAdvance) :
      Commit P false db (db.spent id stored.attempt now modes).advanced
  | checkpoint {db : Database} (chain : String) (evidence : FinalityEvidence)
      (hhalt : chain ∉ db.halts)
      (hfence : ∀ previous, db.checkpointOf chain = some previous →
        ¬conflicts previous evidence ∧ previous.checkpointNumber < evidence.checkpointNumber)
      (hadv : db.CanAdvance) : Commit P false db (db.setCheckpoint chain evidence).advanced
  | haltChain {db : Database} (chain : String) (hadv : db.CanAdvance) :
      Commit P false db (db.insertHalt chain).advanced
  | halt {db : Database} (reason : HaltReason) : Commit P false db (db.halt reason)
  | acknowledge {db : Database} (p : PendingUpdate) (rows : List PendingUpdate)
      (hrows : db.pending = some (p :: rows)) (hvalid : p.Valid db.control)
      (hhalt : db.control.halted = false) : Commit P false db { db with pending := some rows }
  | migrate {db : Database}
      (hold : db.control.schema = 1 ∧ db.pending = none ∨
        db.control.schema = 2 ∧ db.pending = some [])
      (hhalt : db.control.halted = false) (hsolana : db.solana = none) : Commit P false db db.migrated
  | reattach {db : Database} (run : String) (rows : Option (List PendingUpdate))
      (hrows : db.control.schema = 1 ∧ rows = db.pending ∨
        ∃ l, db.pending = some l ∧ rows = some l.tail) :
      Commit P true db { db with pending := rows, control := db.control.attach run }
  | recover {db : Database} (legacy : Bool) (ns : Option String) (run : String)
      (hsolana : legacy = false → db.solana ≠ none) :
      Commit P true db (db.recovered legacy ns run)
  | finish {db : Database} : Commit P true db db.recoverFinish

/-! ## Reading a transaction back -/

theorem Database.CanAdvance.of_advance {old : Control} (h : db.advance = .ok (old, db')) :
    old = db.control ∧ db' = db.advanced ∧ db.CanAdvance := by
  obtain ⟨hold, hp, hmax, h₂, h₃, hdb⟩ := advance_ok h
  exact ⟨hold, hdb, hp, ⟨h₂, h₃⟩, hmax⟩

variable {old : Option Control}

theorem reserve_ok {kind : Kind} {id fingerprint : String} {payload encoded : Json}
    {r : AdmissionReservation}
    (h : db.reserve kind id fingerprint payload encoded = .ok ((r, old), db')) :
    (∃ record, db.lookup id = some record ∧ record.kind = kind ∧
        record.fingerprint = fingerprint ∧ record.state ≠ .quarantined ∧
        r = ⟨record.payload, record.state = .terminal⟩ ∧ old = none ∧ db' = db) ∨
      (db.lookup id = none ∧ r = ⟨payload, false⟩ ∧ old = some db.control ∧ db.CanAdvance ∧
        db' = (db.insertAdmission ⟨id, kind, fingerprint, encoded, .admitted, none⟩).advanced) := by
  unfold Database.reserve at h
  cases hl : db.lookup id with
  | some record =>
    simp only [hl, bind_ok, refuse_ok, pure_ok, Prod.mk.injEq, exists_const, not_or, not_not] at h
    obtain ⟨⟨hk, hf⟩, hq, ⟨rfl, rfl⟩, rfl⟩ := h
    exact .inl ⟨record, rfl, hk, hf, hq, rfl, rfl, rfl⟩
  | none =>
    simp only [hl, bind_ok, pure_ok, Prod.mk.injEq, Prod.exists] at h
    obtain ⟨c, db₁, hadv, ⟨rfl, rfl⟩, rfl⟩ := h
    obtain ⟨rfl, rfl, hcan⟩ := Database.CanAdvance.of_advance hadv
    exact .inr ⟨rfl, rfl, rfl, ⟨hcan.pending, hcan.schema, hcan.checkpoint⟩, rfl⟩

theorem broadcast_ok {kind : Kind} {id key digest : String} {encoded : Json}
    (h : db.broadcast kind id key digest encoded = .ok (old, db')) :
    ∃ record, db.lookup id = some record ∧ record.kind = kind ∧ record.state = .admitted ∧
      db.broadcastGate kind id key = .ok () ∧ (∀ k, record.replayKey = some k → k = key) ∧
      (∀ o, db.owner key = some o → o.id = id) ∧
      ((old = none ∧ db' = db ∧ record.replayKey = some key ∧
          ⟨id, key, digest, encoded⟩ ∈ db.attempts) ∨
        (old = some db.control ∧ db.CanAdvance ∧
          (∀ b ∈ db.attempts, b.id = id → b.digest ≠ digest) ∧
          db' = ((db.updateAdmission id (AdmissionRecord.bindKey key)).insertAttempt
            ⟨id, key, digest, encoded⟩).advanced)) := by
  simp only [Database.broadcast, bind_ok, require_ok, refuse_ok, exists_const, not_not,
    Option.any_eq_true, not_exists, not_and, decide_eq_true_eq] at h
  obtain ⟨record, hrec, hkind, hstate, _, hgate, hkey, howner, h⟩ := h
  refine ⟨record, hrec, hkind, hstate, hgate, hkey, howner, ?_⟩
  cases hfind : db.attempts.find? fun a => a.id = id ∧ a.digest = digest with
  | some a =>
    simp only [hfind, bind_ok, refuse_ok, pure_ok, exists_const, not_or, not_not,
      Prod.mk.injEq] at h
    obtain ⟨⟨hk, hp, hr⟩, rfl, rfl⟩ := h
    have hmem := List.mem_of_find?_eq_some hfind
    have hhit := List.find?_some hfind
    simp only [decide_eq_true_eq] at hhit
    refine .inl ⟨rfl, rfl, hr, ?_⟩
    obtain ⟨rfl, rfl⟩ := hhit
    subst hk hp
    exact hmem
  | none =>
    simp only [hfind, bind_ok, pure_ok, Prod.mk.injEq, Prod.exists] at h
    obtain ⟨c, db₁, hadv, rfl, rfl⟩ := h
    obtain ⟨rfl, rfl, hcan⟩ := Database.CanAdvance.of_advance hadv
    refine .inr ⟨rfl, ⟨hcan.pending, hcan.schema, hcan.checkpoint⟩, ?_, rfl⟩
    intro b hb hid hdigest
    have := List.find?_eq_none.mp hfind b hb
    simp [hid, hdigest] at this

theorem terminal_ok {kind : Kind} {id : String} {evidence normalized encoded : Json}
    {conflict : Bool}
    (h : db.terminal P kind id evidence normalized encoded = .ok ((old, conflict), db')) :
    ∃ record, db.lookup id = some record ∧ record.kind = kind ∧
      db.validateAttemptIdentity P record evidence = .ok () ∧
      ((record.state = .terminal ∧ ∃ previous was, db.firstEvidence id = some previous ∧
          terminalIdentity previous = .ok was ∧ old = none ∧
          ((was = normalized ∧ conflict = false ∧ db' = db) ∨
            (was ≠ normalized ∧ conflict = true ∧
              db' = { db.insertEvidence ⟨id, encoded⟩ with
                control.halted := true
                control.reason := some .terminalEvidenceConflict }))) ∨
        (record.state ≠ .terminal ∧ old = some db.control ∧ conflict = false ∧ db.CanAdvance ∧
          db' = ((db.insertEvidence ⟨id, encoded⟩).updateAdmission id
            AdmissionRecord.close).advanced)) := by
  simp only [Database.terminal, bind_ok, require_ok, refuse_ok, exists_const, not_not] at h
  obtain ⟨record, hrec, hkind, _, hid, h⟩ := h
  refine ⟨record, hrec, hkind, hid, ?_⟩
  by_cases hstate : record.state = .terminal
  · rw [if_pos hstate] at h
    simp only [bind_ok, require_ok] at h
    obtain ⟨previous, hprev, was, hwas, h⟩ := h
    refine .inl ⟨hstate, previous, was, hprev, hwas, ?_⟩
    by_cases heq : was = normalized
    · rw [if_pos heq, pure_ok] at h
      simp only [Prod.mk.injEq] at h
      obtain ⟨⟨rfl, rfl⟩, rfl⟩ := h
      exact ⟨rfl, .inl ⟨heq, rfl, rfl⟩⟩
    · rw [if_neg heq, pure_ok] at h
      simp only [Prod.mk.injEq] at h
      obtain ⟨⟨rfl, rfl⟩, rfl⟩ := h
      exact ⟨rfl, .inr ⟨heq, rfl, rfl⟩⟩
  · rw [if_neg hstate] at h
    simp only [bind_ok, pure_ok, Prod.mk.injEq, Prod.exists] at h
    obtain ⟨c, db₁, hadv, ⟨rfl, rfl⟩, rfl⟩ := h
    obtain ⟨rfl, rfl, hcan⟩ := Database.CanAdvance.of_advance hadv
    exact .inr ⟨hstate, rfl, rfl, ⟨hcan.pending, hcan.schema, hcan.checkpoint⟩, rfl⟩

theorem retained_ok {id : String} {expected : Json} {found : Option Retained}
    (h : db.retained P id expected = .ok found) :
    ∃ record, db.lookup id = some record ∧ record.kind = .solana ∧ record.state ≠ .quarantined ∧
      ((found = none ∧ db.attemptsOf id = [] ∧ record.state = .admitted) ∨
        ∃ row stored, found = some stored ∧ row ∈ db.attempts ∧ row.id = id ∧
          record.replayKey = some row.replayKey ∧ checkRetained P row = .ok () ∧
          stored.attempt.replayKey = row.replayKey ∧ stored.attempt.payload = row.payload ∧
          stored.attempt.state = record.state) := by
  simp only [Database.retained, bind_ok, require_ok, refuse_ok, exists_const, not_not] at h
  obtain ⟨record, hrec, hkind, _, _, _, _, _, _, _, _, hq, modes, _, h⟩ := h
  refine ⟨record, hrec, hkind, hq, ?_⟩
  cases hrows : db.attemptsOf id with
  | nil =>
    simp only [hrows, bind_ok, refuse_ok, exists_const, pure_ok, not_or, not_not] at h
    obtain ⟨⟨_, _, hstate⟩, rfl⟩ := h
    exact .inl ⟨rfl, rfl, hstate⟩
  | cons row rest =>
    simp only [hrows, bind_ok, refuse_ok, exists_const, not_or, not_not] at h
    obtain ⟨⟨_, hkey⟩, _, hcheck, h⟩ := h
    have hmem : row ∈ db.attempts ∧ row.id = id := by
      have : row ∈ db.attemptsOf id := by simp [hrows]
      simpa [Database.attemptsOf] using this
    refine .inr ⟨row, ?_⟩
    cases hmode : modes.find? fun m => decide (m.id = id) with
    | none =>
      simp only [hmode, pure_ok] at h
      subst h
      exact ⟨_, rfl, hmem.1, hmem.2, hkey, hcheck, rfl, rfl, rfl⟩
    | some m =>
      simp only [hmode, bind_ok, pure_ok] at h
      obtain ⟨_, _, rfl⟩ := h
      exact ⟨_, rfl, hmem.1, hmem.2, hkey, hcheck, rfl, rfl, rfl⟩

theorem prepareRestore_ok {id : String} {expected : Json} {r : Option RetainedSolanaAttempt}
    (h : db.prepareRestore P id expected = .ok ((r, old), db')) :
    (db.retained P id expected = .ok none ∧ r = none ∧ old = none ∧ db' = db) ∨
      ∃ stored, db.retained P id expected = .ok (some stored) ∧ r = some stored.attempt ∧
        ((stored.recoveryMode = true ∧ old = none ∧ db' = db) ∨
          (stored.recoveryMode = false ∧ old = some db.control ∧ db.CanAdvance ∧
            db' = (db.insertSolana ⟨id, stored.digest, 0, 0⟩).advanced)) := by
  simp only [Database.prepareRestore, bind_ok] at h
  obtain ⟨found, hret, h⟩ := h
  cases found with
  | none =>
    simp only [pure_ok, Prod.mk.injEq] at h
    obtain ⟨⟨rfl, rfl⟩, rfl⟩ := h
    exact .inl ⟨hret, rfl, rfl, rfl⟩
  | some stored =>
    refine .inr ⟨stored, hret, ?_⟩
    by_cases hmode : stored.recoveryMode = true
    · simp only [if_pos hmode, pure_ok, Prod.mk.injEq] at h
      obtain ⟨⟨rfl, rfl⟩, rfl⟩ := h
      exact ⟨rfl, .inl ⟨hmode, rfl, rfl⟩⟩
    · simp only [if_neg hmode, bind_ok, pure_ok, Prod.mk.injEq, Prod.exists] at h
      obtain ⟨c, db₁, hadv, ⟨rfl, rfl⟩, rfl⟩ := h
      obtain ⟨rfl, rfl, hcan⟩ := Database.CanAdvance.of_advance hadv
      refine ⟨rfl, .inr ⟨by simpa using hmode, rfl, ?_, rfl⟩⟩
      exact ⟨hcan.pending, hcan.schema, hcan.checkpoint⟩

theorem claim_ok {id : String} {stored : RetainedSolanaAttempt} {now : ℕ}
    {r : SolanaRecoveryBroadcast} (h : db.claim id stored now = .ok (r, db')) :
    ((r = .exhausted ∨ ∃ ms, r = .wait ms) ∧ db' = db) ∨
      ∃ modes, r = .granted (stored.recoveryBroadcasts + 1) now ∧
        stored.recoveryBroadcasts < maxSolanaRecoveryBroadcasts ∧
        (now ≠ 0 ∧ (stored.lastRecoveryBroadcastAt ≠ 0 →
          stored.lastRecoveryBroadcastAt + recoveryBroadcastInterval ≤ now)) ∧
        db.solana = some modes ∧ modes.countP (SolanaRecovery.hit id stored) = 1 ∧
        db' = db.spent id stored now modes := by
  unfold Database.claim at h
  dsimp only at h
  split_ifs at h with hmax hwait
  · simp only [pure_ok, Prod.mk.injEq] at h
    obtain ⟨rfl, rfl⟩ := h
    exact .inl ⟨.inl rfl, rfl⟩
  · simp only [pure_ok, Prod.mk.injEq] at h
    obtain ⟨rfl, rfl⟩ := h
    exact .inl ⟨.inr ⟨_, rfl⟩, rfl⟩
  · simp only [bind_ok, refuse_ok, require_ok, pure_ok, exists_const, not_not,
      Prod.mk.injEq] at h
    obtain ⟨hnow, modes, hmodes, hcount, rfl, rfl⟩ := h
    refine .inr ⟨modes, rfl, Nat.lt_of_not_le hmax, ⟨fun hzero => hnow (.inl hzero), fun hlast => ?_⟩,
      hmodes, hcount, ?_⟩
    · have hlate : ¬now - stored.lastRecoveryBroadcastAt < recoveryBroadcastInterval :=
        fun hlt => hwait ⟨hlast, hlt⟩
      have hpos : 0 < recoveryBroadcastInterval := by decide
      omega
    · simp [Database.spent, SolanaRecovery.hit]

theorem claimBroadcast_ok {id : String} {expected attempt : Json} {now : Option ℕ}
    {r : SolanaRecoveryBroadcast}
    (h : db.claimBroadcast P id expected attempt now = .ok ((r, old), db')) :
    ∃ stored at_, db.retained P id expected = .ok (some stored) ∧ stored.recoveryMode = true ∧
      stored.attempt.state = .admitted ∧ now = some at_ ∧
      stored.attempt.payload.sort = attempt.sort ∧
      ((old = none ∧ (∀ n m, r ≠ .granted n m) ∧ db' = db) ∨
        ∃ modes, r = .granted (stored.attempt.recoveryBroadcasts + 1) at_ ∧
          (stored.attempt.recoveryBroadcasts < maxSolanaRecoveryBroadcasts ∧ at_ ≠ 0 ∧
            (stored.attempt.lastRecoveryBroadcastAt ≠ 0 →
              stored.attempt.lastRecoveryBroadcastAt + recoveryBroadcastInterval ≤ at_)) ∧
          db.solana = some modes ∧ modes.countP (SolanaRecovery.hit id stored.attempt) = 1 ∧
          old = some db.control ∧ db.CanAdvance ∧
          db' = (db.spent id stored.attempt at_ modes).advanced) := by
  simp only [Database.claimBroadcast, bind_ok, require_ok, refuse_ok, exists_const, not_or,
    not_not, Prod.exists] at h
  obtain ⟨_, hret, stored, rfl, ⟨hmode, hstate⟩, kept, hkept, given, hgiven, heq, at_, hnow, r', db₁,
    hclaim, h⟩ := h
  refine ⟨stored, at_, hret, hmode, hstate, hnow, ?_, ?_⟩
  · rw [← canonical_ok hkept, ← canonical_ok hgiven, heq]
  rcases claim_ok hclaim with ⟨hr, rfl⟩ | ⟨modes, rfl, hmax, htime, hmodes, hone, rfl⟩
  · rcases hr with rfl | ⟨ms, rfl⟩
    all_goals
      simp only [pure_ok, Prod.mk.injEq] at h
      obtain ⟨⟨rfl, rfl⟩, rfl⟩ := h
      exact .inl ⟨rfl, by simp, rfl⟩
  · simp only [bind_ok, pure_ok, Prod.mk.injEq, Prod.exists] at h
    obtain ⟨c, db₂, hadv, ⟨rfl, rfl⟩, rfl⟩ := h
    obtain ⟨rfl, rfl, hcan⟩ := Database.CanAdvance.of_advance hadv
    exact .inr ⟨modes, rfl, ⟨hmax, htime⟩, hmodes, hone, rfl,
      ⟨hcan.pending, hcan.schema, hcan.checkpoint⟩, rfl⟩

theorem commitCheckpoint_ok {chain : String} {expected : Option FinalityEvidence}
    {evidence : FinalityEvidence} {accepted conflict : Bool}
    (h : db.commitCheckpoint chain expected evidence = .ok ((accepted, old, conflict), db')) :
    chain ∉ db.halts ∧
      ((accepted = false ∧ old = none ∧ conflict = false ∧ db' = db) ∨
        (accepted = true ∧ old = none ∧ conflict = false ∧ db' = db ∧
          ∃ previous, db.checkpointOf chain = some previous ∧ ¬conflicts previous evidence ∧
            previous.checkpointNumber = evidence.checkpointNumber) ∨
        (accepted = true ∧ old = some db.control ∧ conflict = false ∧ db.CanAdvance ∧
          (∀ previous, db.checkpointOf chain = some previous → ¬conflicts previous evidence ∧
            previous.checkpointNumber < evidence.checkpointNumber) ∧
          db' = (db.setCheckpoint chain evidence).advanced) ∨
        (accepted = false ∧ conflict = true ∧ (∃ c, old = some c) ∧ db.CanAdvance ∧
          db' = (db.insertHalt chain).advanced)) := by
  simp only [Database.commitCheckpoint, Database.ensureChainNotHalted, bind_ok, refuse_ok,
    exists_const] at h
  obtain ⟨hhalt, h⟩ := h
  refine ⟨hhalt, ?_⟩
  by_cases hexp : db.checkpointOf chain = expected
  swap
  · rw [if_pos hexp, pure_ok] at h
    simp only [Prod.mk.injEq] at h
    obtain ⟨⟨rfl, rfl, rfl⟩, rfl⟩ := h
    exact .inl ⟨rfl, rfl, rfl, rfl⟩
  rw [if_neg (not_not.mpr hexp)] at h
  cases hcur : db.checkpointOf chain with
  | none =>
    simp only [hcur, bind_ok, pure_ok, Prod.mk.injEq, Prod.exists] at h
    obtain ⟨c, db₁, hadv, ⟨rfl, rfl, rfl⟩, rfl⟩ := h
    obtain ⟨rfl, rfl, hcan⟩ := Database.CanAdvance.of_advance hadv
    refine .inr (.inr (.inl ⟨rfl, rfl, rfl, ?_, by simp, rfl⟩))
    exact ⟨hcan.pending, hcan.schema, hcan.checkpoint⟩
  | some previous =>
    simp only [hcur] at h
    split_ifs at h with hconf hlow heq
    · simp only [bind_ok, pure_ok, Prod.mk.injEq, Prod.exists] at h
      obtain ⟨c, db₁, hadv, ⟨rfl, rfl, rfl⟩, rfl⟩ := h
      obtain ⟨rfl, rfl, hcan⟩ := Database.CanAdvance.of_advance hadv
      refine .inr (.inr (.inr ⟨rfl, rfl, ⟨_, rfl⟩, ?_, rfl⟩))
      exact ⟨hcan.pending, hcan.schema, hcan.checkpoint⟩
    · simp only [pure_ok, Prod.mk.injEq] at h
      obtain ⟨⟨rfl, rfl, rfl⟩, rfl⟩ := h
      exact .inl ⟨rfl, rfl, rfl, rfl⟩
    · simp only [pure_ok, Prod.mk.injEq] at h
      obtain ⟨⟨rfl, rfl, rfl⟩, rfl⟩ := h
      exact .inr (.inl ⟨rfl, rfl, rfl, rfl, previous, rfl, hconf, heq.symm⟩)
    · simp only [bind_ok, pure_ok, Prod.mk.injEq, Prod.exists] at h
      obtain ⟨c, db₁, hadv, ⟨rfl, rfl, rfl⟩, rfl⟩ := h
      obtain ⟨rfl, rfl, hcan⟩ := Database.CanAdvance.of_advance hadv
      refine .inr (.inr (.inl ⟨rfl, rfl, rfl, ?_, ?_, rfl⟩))
      · exact ⟨hcan.pending, hcan.schema, hcan.checkpoint⟩
      · rintro _ ⟨⟩
        exact ⟨hconf, by omega⟩

theorem haltChain_ok {chain : String} {old : Control}
    (h : db.haltChain chain = .ok (old, db')) :
    old = db.control ∧ db.CanAdvance ∧ db' = (db.insertHalt chain).advanced := by
  obtain ⟨rfl, rfl, hcan⟩ := Database.CanAdvance.of_advance h
  exact ⟨rfl, ⟨hcan.pending, hcan.schema, hcan.checkpoint⟩, rfl⟩

theorem removeExact_ok {p : PendingUpdate} (h : db.removeExact p = .ok db') :
    ∃ rows, db.pending = some (p :: rows) ∧ db' = { db with pending := some rows } := by
  simp only [Database.removeExact, bind_ok, require_ok, refuse_ok, pure_ok, exists_const,
    not_not] at h
  obtain ⟨rows, hrows, hhead, rfl⟩ := h
  obtain ⟨tail, rfl⟩ := List.head?_eq_some_iff.mp hhead
  exact ⟨tail, hrows, rfl⟩

theorem reattachCommit_ok {c : Control} {pending : Option PendingUpdate} {run : String}
    (h : db.reattachCommit c pending run = .ok db') :
    c = db.control ∧ db.load db.control = .ok pending ∧ ∃ rows,
      (db.control.schema = 1 ∧ rows = db.pending ∨ ∃ l, db.pending = some l ∧ rows = some l.tail) ∧
      db' = { db with pending := rows, control := db.control.attach run } := by
  simp only [Database.reattachCommit, bind_ok, readControl_ok, refuse_ok, pure_ok, exists_const,
    not_not] at h
  obtain ⟨_, ⟨_, rfl⟩, rfl, found, hload, rfl, db₁, hdb₁, rfl⟩ := h
  refine ⟨rfl, hload, ?_⟩
  cases found with
  | some p =>
    obtain ⟨rows, hrows, rfl⟩ := removeExact_ok hdb₁
    exact ⟨some rows, .inr ⟨_, hrows, rfl⟩, rfl⟩
  | none =>
    obtain rfl : db = db₁ := Except.ok.inj hdb₁
    refine ⟨db.pending, ?_, rfl⟩
    rcases load_ok hload with ⟨hs, _⟩ | ⟨_, rows, hrows, hhead, _⟩
    · exact .inl ⟨hs, rfl⟩
    · rw [hrows, List.head?_eq_none_iff.mp hhead.symm]
      exact .inr ⟨[], rfl, rfl⟩

theorem recoverCommit_ok {old : Control} {ns : Option String} {run : String}
    (h : db.recoverCommit old ns run = .ok db') :
    (¬old.schema < schemaVersion → db.solana ≠ none) ∧
      db' = db.recovered (old.schema < schemaVersion) ns run := by
  simp only [Database.recoverCommit, Database.checkTables, bind_ok, refuse_ok, pure_ok,
    exists_const, not_and] at h
  obtain ⟨⟨_, _, htable, _⟩, rfl⟩ := h
  exact ⟨htable, rfl⟩

theorem reading_ok {α : Type} {q : Database → Result α} {a : α}
    (h : reading q db = .ok (a, db')) : q db = .ok a ∧ db' = db := by
  simp only [reading, bind_ok, pure_ok, Prod.mk.injEq] at h
  obtain ⟨_, hq, rfl, rfl⟩ := h
  exact ⟨hq, rfl⟩

theorem writing_ok {q : Database → Result Database} {u : Unit}
    (h : writing q db = .ok (u, db')) : q db = .ok db' := by
  simp only [writing, bind_ok, pure_ok, Prod.mk.injEq] at h
  obtain ⟨_, hq, _, rfl⟩ := h
  exact hq

/-- The transactions of the offline commands that lift a halt or move the ledger. -/
def Tx.offline : Tx → Bool
  | .reattachCommit .. | .recoverCommit .. | .recoverFinish => true
  | _ => false

/-- **Every transaction makes one of the listed changes.** -/
theorem Tx.exec_commit {now : Option ℕ} {t : Tx} {r : t.Result}
    (h : t.exec P now db = .ok (r, db')) : Commit P t.offline db db' := by
  cases t with
  | control | state | mirrorState | replayBinding | validateSchema | historyIndexes
    | reattachState | recoverState | status =>
    obtain ⟨_, rfl⟩ := reading_ok h
    exact .unchanged _ _
  | halt reason =>
    obtain rfl : db.halt reason = db' := Except.ok.inj (writing_ok h)
    exact .halt reason
  | acknowledge p =>
    obtain ⟨hv, hh, rows, hrows, rfl⟩ := acknowledge_ok (writing_ok (q := (·.acknowledge p)) h)
    exact .acknowledge p rows hrows hv hh
  | reserve kind id fingerprint payload encoded =>
    obtain ⟨r, old⟩ := r
    rcases reserve_ok h with ⟨_, _, _, _, _, _, _, rfl⟩ | ⟨hnew, _, _, hadv, rfl⟩
    · exact .unchanged _ _
    · exact .reserve ⟨id, kind, fingerprint, encoded, .admitted, none⟩ hnew rfl rfl hadv
  | broadcast kind id key digest encoded =>
    obtain ⟨record, hrec, rfl, hstate, hgate, hkey, howner, h⟩ := broadcast_ok h
    rcases h with ⟨_, rfl, _⟩ | ⟨_, hadv, hnew, rfl⟩
    · exact .unchanged _ _
    · exact .attempt record ⟨id, key, digest, encoded⟩ hrec hstate hgate hkey howner hnew hadv
  | terminal kind id evidence normalized encoded =>
    obtain ⟨old, conflict⟩ := r
    obtain ⟨record, hrec, _, hid, h⟩ := terminal_ok h
    rcases h with ⟨hstate, previous, was, _, _, _, ⟨_, _, rfl⟩ | ⟨_, _, rfl⟩⟩ |
      ⟨hstate, _, _, hadv, rfl⟩
    · exact .unchanged _ _
    · exact .contradict record ⟨id, encoded⟩ evidence hrec hid hstate
    · exact .close record ⟨id, encoded⟩ evidence hrec hid hstate hadv
  | prepareRestore id expected =>
    obtain ⟨r, old⟩ := r
    rcases prepareRestore_ok h with ⟨_, _, _, rfl⟩ |
      ⟨stored, hret, _, ⟨_, _, rfl⟩ | ⟨hmode, _, hadv, rfl⟩⟩
    · exact .unchanged _ _
    · exact .unchanged _ _
    · exact .restore ⟨id, stored.digest, 0, 0⟩ expected stored hret hmode rfl ⟨rfl, rfl⟩ hadv
  | claimBroadcast id expected attempt =>
    obtain ⟨r, old⟩ := r
    obtain ⟨stored, at_, hret, hmode, hstate, _, _, h⟩ := claimBroadcast_ok h
    rcases h with ⟨_, _, rfl⟩ | ⟨modes, _, hmax, hmodes, hone, _, hadv, rfl⟩
    · exact .unchanged _ _
    · exact .spend id expected stored at_ modes hret hmode hstate hmax.1 hmodes hone hadv
  | commitCheckpoint chain expected evidence =>
    obtain ⟨accepted, old, conflict⟩ := r
    obtain ⟨hhalt, h⟩ := commitCheckpoint_ok h
    rcases h with ⟨_, _, _, rfl⟩ | ⟨_, _, _, rfl, _⟩ | ⟨_, _, _, hadv, hfence, rfl⟩ |
      ⟨_, _, _, hadv, rfl⟩
    · exact .unchanged _ _
    · exact .unchanged _ _
    · exact .checkpoint chain evidence hhalt hfence hadv
    · exact .haltChain chain hadv
  | haltChain chain =>
    obtain ⟨_, hadv, rfl⟩ := haltChain_ok h
    exact .haltChain chain hadv
  | migrate =>
    rcases migrate_ok (writing_ok h) with ⟨_, rfl⟩ | ⟨hold, hhalt, hsolana, rfl⟩
    · exact .unchanged _ _
    · exact .migrate hold hhalt hsolana
  | quarantine =>
    have h' := writing_ok h
    simp only [Database.quarantine, bind_ok, pure_ok] at h'
    obtain ⟨_, _, rfl⟩ := h'
    exact .halt _
  | reattachCommit c pending run =>
    obtain ⟨_, _, rows, hrows, rfl⟩ := reattachCommit_ok (writing_ok h)
    exact .reattach run rows hrows
  | recoverCommit old ns run =>
    obtain ⟨htable, rfl⟩ := recoverCommit_ok (writing_ok h)
    exact .recover _ ns run fun hl => htable (by simpa using hl)
  | recoverFinish =>
    obtain rfl : db.recoverFinish = db' := Except.ok.inj (writing_ok h)
    exact .finish

end EngineCore.Recovery
