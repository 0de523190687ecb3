import EngineCore.Lib.Serial
import EngineCore.Recovery.Commits

/-!
# The journal's calls

The two-store protocol: a change is committed in SQLite together with a record of its token, the
token is published in Redis by a compare-and-set script, seen there, and the record is removed.
Calls run one at a time under the journal's lock; the caller may go away, the call goes on.

* `Query`, `machine`: the single steps of a call and their effects. A statement may fail without
  effect, a Redis reply may be lost after the command was applied, and Redis may change
  arbitrarily between any two steps.
-/

namespace EngineCore.Recovery

open Interact

/-! ## The world -/

/-- What one atomic observation of Redis returns. -/
structure Observation where
  runId : String
  role : String
  marker : Option String
  deriving DecidableEq, Repr

structure Redis where
  runId : String
  role : String
  value : String → Option String

def Redis.observe (r : Redis) (key : String) : Observation := ⟨r.runId, r.role, r.value key⟩

def Redis.set (r : Redis) (key v : String) : Redis :=
  { r with value := Function.update r.value key (some v) }

/-- The publishing script: compare with the target, then with the previous token, then set. -/
def Redis.publish (r : Redis) (key previous target : String) : Bool × Redis :=
  if r.value key = some target then (true, r)
  else if r.value key ≠ some previous then (false, r)
  else (true, r.set key target)

def Redis.setNx (r : Redis) (key v : String) : Bool × Redis :=
  if r.value key = none then (true, r.set key v) else (false, r)

/-- The tables, Redis, the latch of the process and whether a process holds the journal open. -/
structure World where
  db : Database
  redis : Redis
  failed : Bool
  up : Bool

/-! ## Queries -/

inductive Query
  | failed
  | latch
  | sql (t : Tx)
  | observe (key : String)
  | publish (key previous target : String)
  | setNx (key token : String)
  | scan (ns : Option String)

/-- Its answer. A lost or failed Redis reply is `none`. -/
@[reducible] def Answer : Query → Type
  | .failed => Bool
  | .latch => Unit
  | .sql t => Result t.Result
  | .observe _ => Option Observation
  | .publish .. => Option Bool
  | .setNx .. => Option Bool
  | .scan _ => Option Bool

/-- A Redis command that may be refused, applied, or applied without its reply. -/
def Applied {α : Type} (f : Redis → α × Redis) (w : World) (a : Option α) (w' : World) : Prop :=
  (a = none ∧ w' = w) ∨ (a = none ∧ w' = { w with redis := (f w.redis).2 }) ∨
    (a = some (f w.redis).1 ∧ w' = { w with redis := (f w.redis).2 })

/-- A transaction commits, refuses, or fails in storage and is rolled back. -/
def Submitted (P : Primitives) (t : Tx) (w : World) (a : Result t.Result) (w' : World) : Prop :=
  (∃ now r db, t.exec P now w.db = .ok (r, db) ∧ a = .ok r ∧ w' = { w with db }) ∨
    (∃ now e, t.exec P now w.db = .error e ∧ a = .error e ∧ w' = w) ∨
    (a = .error .storage ∧ w' = w)

def act (P : Primitives) : (q : Query) → World → Answer q → World → Prop
  | .failed, w, a, w' => a = w.failed ∧ w' = w
  | .latch, w, _, w' => w' = { w with failed := true }
  | .sql t, w, a, w' => Submitted P t w a w'
  | .observe key, w, a, w' => (a = none ∨ a = some (w.redis.observe key)) ∧ w' = w
  | .publish key previous target, w, a, w' =>
    Applied (fun r => r.publish key previous target) w a w'
  | .setNx key token, w, a, w' => Applied (fun r => r.setNx key token) w a w'
  | .scan _, w, _, w' => w' = w

/-- Between two steps only Redis may change. -/
def disturbs (w w' : World) : Prop := w'.db = w.db ∧ w'.failed = w.failed ∧ w'.up = w.up

def machine (P : Primitives) : Machine Query Answer World where
  env := disturbs
  act := act P

/-! ## The protocol -/

abbrev Journal (α : Type) : Type := Task Query Answer RecoveryError α

namespace Journal

def query (q : Query) : Journal (Answer q) := Task.query q

def lift {α : Type} (r : Result α) : Journal α := ExceptT.mk (Prog.done r)

/-- Submit a transaction and pass its error on. -/
def sql (t : Tx) : Journal t.Result := ExceptT.mk (Prog.query (Query.sql t))

/-- Latch the process, stop the ledger as far as it can be written, and return the error. -/
def halt (reason : HaltReason) : Journal RecoveryError := do
  let _ ← query .latch
  let _ ← query (.sql (.halt reason))
  return .recoveryRequired reason.text

def stop {α : Type} (reason : HaltReason) : Journal α := do throw (← halt reason)

def storageResult {α : Type} (r : Result α) : Journal α :=
  match r with
  | .error .storage => stop .ledgerUnavailable
  | r => lift r

/-- Submit a transaction; a storage error halts the journal. -/
def commit (t : Tx) : Journal t.Result := do storageResult (← query (.sql t))

/-- The marker must show the current token, or the previous one while its change is pending. -/
def observeCheckpoint (current : Control) (pending : Option PendingUpdate) : Journal Unit := do
  match ← query (.observe current.key) with
  | none =>
    if pending.isSome then throw .publicationPending
    else stop .continuityUnavailable
  | some seen =>
    if seen.marker ≠ some current.token ∧ ¬pending.any fun p => seen.marker = some p.previousToken
    then stop .checkpointMismatch
    else if seen.role ≠ "master" then stop .primaryRoleChanged
    else if seen.runId ≠ current.runId then stop .processChanged
    else return ()

/-- See the published token on the recorded process. -/
def observeTarget (current : Control) (pending : PendingUpdate) : Journal Unit := do
  match ← query (.observe current.key) with
  | none => throw .publicationPending
  | some seen =>
    if seen.marker ≠ some pending.targetToken then stop .checkpointMismatch
    else if seen.role ≠ "master" then stop .primaryRoleChanged
    else if seen.runId ≠ pending.runId then stop .processChanged
    else return ()

def publishTarget (pending : PendingUpdate) : Journal Unit := do
  match ← query (.publish pending.redisKey pending.previousToken pending.targetToken) with
  | some true => return ()
  | some false => stop .checkpointMismatch
  | none => throw .publicationPending

/-- Publish, see and acknowledge a pending change, then look once more. -/
def completePending (current : Control) (pending : PendingUpdate) : Journal Unit := do
  publishTarget pending
  observeTarget current pending
  commit (.acknowledge pending)
  observeCheckpoint current none

/-- Complete a change left over from an earlier call. -/
def completeLoaded (current : Control) : Option PendingUpdate → Journal Unit
  | some pending => completePending current pending
  | none => pure ()

/-- The ledger is not halted and Redis shows its token. -/
def healthyLocked : Journal Control := do
  let failed ← query .failed
  lift (refuse (failed = true) (.recoveryRequired "process safety gate is latched"))
  match ← query (.sql .state) with
  | .error _ => stop .ledgerUnavailable
  | .ok (current, pending) =>
    if current.halted then do
      let _ ← query .latch
      throw (.recoveryRequired "durable safety gate is halted")
    else do
      observeCheckpoint current pending
      completeLoaded current pending
      return current

/-- Bring Redis to the token of the change just committed. -/
def mirror (old : Control) : Journal Unit := do
  let (current, pending) ← commit (.mirrorState old)
  observeCheckpoint current (some pending)
  completePending current pending

def mirrorChange : Option Control → Journal Unit
  | some old => mirror old
  | none => pure ()

/-! ## Calls under the lock -/

section Calls

variable (P : Primitives)

def reserveAdmission (kind id fingerprint : String) (payload : Json) :
    Journal AdmissionReservation := do
  let kind ← lift (identity kind id)
  let own ← lift (admissionFingerprint P kind payload)
  lift (refuse (own ≠ fingerprint) .conflict)
  let encoded ← lift (canonical payload)
  let _ ← healthyLocked
  let (reservation, old) ← commit (.reserve kind id fingerprint payload encoded)
  mirrorChange old
  return reservation

def validateReplayBinding (kind id key : String) : Journal Unit := do
  let kind ← lift (identity kind id)
  lift (validateReplayKey kind key)
  let _ ← healthyLocked
  sql (.replayBinding kind id key)

def beforeBroadcast (kind id key : String) (attempt : Json) : Journal Unit := do
  let kind ← lift (identity kind id)
  lift (validateReplayKey kind key)
  let encoded ← lift (canonical attempt)
  let _ ← healthyLocked
  let old ← commit (.broadcast kind id key (digestOf P encoded) encoded)
  mirrorChange old

/-- Contradictory evidence latches the process after its commit. -/
def finishTerminal (old : Option Control) (conflict : Bool) : Journal Unit :=
  if conflict then do
    let _ ← query .latch
    throw (.recoveryRequired "terminal evidence conflict")
  else mirrorChange old

def recordTerminal (kind id : String) (evidence : Json) : Journal Unit := do
  let kind ← lift (identity kind id)
  let normalized ← lift (terminalIdentity evidence)
  let encoded ← lift (canonical evidence)
  let _ ← healthyLocked
  let (old, conflict) ← commit (.terminal kind id evidence normalized encoded)
  finishTerminal old conflict

def prepareSolanaRestore (id : String) (expected : Json) :
    Journal (Option RetainedSolanaAttempt) := do
  let _ ← lift (identity "solana" id)
  let _ ← healthyLocked
  let (record, old) ← commit (.prepareRestore id expected)
  mirrorChange old
  return record

def beforeSolanaRecoveryBroadcast (id : String) (expected attempt : Json) :
    Journal SolanaRecoveryBroadcast := do
  let _ ← lift (identity "solana" id)
  let _ ← healthyLocked
  let (permission, old) ← commit (.claimBroadcast id expected attempt)
  mirrorChange old
  return permission

def commitCheckpoint (chainId : ℕ) (expected : Option FinalityEvidence)
    (evidence : FinalityEvidence) : Journal Bool := do
  let _ ← healthyLocked
  let (accepted, old, conflict) ←
    commit (.commitCheckpoint (toString chainId) expected evidence)
  mirrorChange old
  lift (refuse (conflict = true) (.recoveryRequired "chain finality checkpoint conflicts"))
  return accepted

def haltChain (chainId : ℕ) : Journal Unit := do
  let _ ← healthyLocked
  let old ← commit (.haltChain (toString chainId))
  mirror old

def ensureHealthy : Journal Unit := do
  let _ ← healthyLocked
  return ()

end Calls

/-! ## Startup and offline commands -/

/-- Migrate an older ledger, then check its health again. -/
def migrateLegacy (current : Control) : Journal Control :=
  if current.schema < schemaVersion then do
    let _ ← commit .migrate
    healthyLocked
  else return current

def openJournal (ns : Option String) : Journal Control := do
  lift (namespaceValid ns)
  let c ← sql .control
  lift (refuse (c.nameSpace ≠ ns) (.invalid "configured namespace does not match ledger"))
  let _ ← commit .validateSchema
  let _ ← healthyLocked
  let _ ← sql .historyIndexes
  let current ← healthyLocked
  migrateLegacy current

/-- What is wrong with Redis after a reattach. -/
def reattachFailure (c : Control) (run : String) : Option Observation → Option HaltReason
  | none => some .continuityUnavailable
  | some seen =>
    if seen.marker ≠ some c.token then some .checkpointMismatch
    else if seen.role ≠ "master" then some .primaryRoleChanged
    else if seen.runId ≠ run then some .processChanged
    else none

/-- An observation whose failure ends an offline command. -/
def observed (key : String) : Journal Observation := do
  let seen ← query (.observe key)
  lift (require seen .storage)

def reattach (ns : Option String) : Journal RecoveryStatus := do
  let (c, pending) ← sql (.reattachState ns)
  let seen ← observed c.key
  lift (refuse (seen.role ≠ "master" ∨ seen.marker ≠ some c.token)
    (.recoveryRequired "reattach requires exact Redis checkpoint and primary role"))
  let _ ← sql (.reattachCommit c pending seen.runId)
  let again ← query (.observe c.key)
  match reattachFailure c seen.runId again with
  | some reason => do
    let _ ← sql (.halt reason)
    throw (.recoveryRequired reason.text)
  | none => sql .status

/-- The namespace is empty, as far as a scan can tell. -/
def emptyNamespace (ns : Option String) : Journal Unit := do
  lift (namespaceValid ns)
  let empty ← query (.scan ns)
  match empty with
  | some true => return ()
  | some false => throw (.invalid "destination Redis namespace is not empty")
  | none => throw .storage

def claimMarker (c : Control) : Journal Unit := do
  let set ← query (.setNx c.key c.token)
  match set with
  | some true => return ()
  | some false => throw (.recoveryRequired "recovery namespace collision")
  | none => throw .storage

def recover (ns : Option String) : Journal RecoveryStatus := do
  lift (namespaceValid ns)
  lift (refuse (ns = none) (.invalid "recovery requires a new explicit namespace"))
  let old ← sql (.recoverState ns)
  emptyNamespace ns
  let seen ← observed (markerKey ns)
  lift (refuse (seen.role ≠ "master") (.invalid "Redis must be a writable primary"))
  let _ ← sql (.recoverCommit old ns seen.runId)
  let c ← sql .control
  claimMarker c
  let now ← observed c.key
  lift (refuse (now.runId ≠ c.runId ∨ now.role ≠ "master" ∨ now.marker ≠ some c.token)
    (.recoveryRequired "Redis changed during recovery"))
  let _ ← sql .recoverFinish
  sql .status

def quarantine : Journal Unit := sql .quarantine

end Journal

/-! ## The service -/

inductive Call
  | ensureHealthy
  | reserveAdmission (kind id fingerprint : String) (payload : Json)
  | validateReplayBinding (kind id key : String)
  | beforeBroadcast (kind id key : String) (attempt : Json)
  | recordTerminal (kind id : String) (evidence : Json)
  | prepareSolanaRestore (id : String) (expected : Json)
  | beforeSolanaRecoveryBroadcast (id : String) (expected attempt : Json)
  | commitCheckpoint (chainId : ℕ) (expected : Option FinalityEvidence)
      (evidence : FinalityEvidence)
  | haltChain (chainId : ℕ)
  | openJournal (ns : Option String)
  | quarantine
  | reattach (ns : Option String)
  | recover (ns : Option String)

@[reducible] def Call.Value : Call → Type
  | .ensureHealthy => Unit
  | .reserveAdmission .. => AdmissionReservation
  | .validateReplayBinding .. => Unit
  | .beforeBroadcast .. => Unit
  | .recordTerminal .. => Unit
  | .prepareSolanaRestore .. => Option RetainedSolanaAttempt
  | .beforeSolanaRecoveryBroadcast .. => SolanaRecoveryBroadcast
  | .commitCheckpoint .. => Bool
  | .haltChain _ => Unit
  | .openJournal _ => Control
  | .quarantine => Unit
  | .reattach _ => RecoveryStatus
  | .recover _ => RecoveryStatus

def Call.body (P : Primitives) : (c : Call) → Journal c.Value
  | .ensureHealthy => Journal.ensureHealthy
  | .reserveAdmission kind id fingerprint payload =>
    Journal.reserveAdmission P kind id fingerprint payload
  | .validateReplayBinding kind id key => Journal.validateReplayBinding kind id key
  | .beforeBroadcast kind id key attempt => Journal.beforeBroadcast P kind id key attempt
  | .recordTerminal kind id evidence => Journal.recordTerminal kind id evidence
  | .prepareSolanaRestore id expected => Journal.prepareSolanaRestore id expected
  | .beforeSolanaRecoveryBroadcast id expected attempt =>
    Journal.beforeSolanaRecoveryBroadcast id expected attempt
  | .commitCheckpoint chainId expected evidence =>
    Journal.commitCheckpoint chainId expected evidence
  | .haltChain chainId => Journal.haltChain chainId
  | .openJournal ns => Journal.openJournal ns
  | .quarantine => Journal.quarantine
  | .reattach ns => Journal.reattach ns
  | .recover ns => Journal.recover ns

/-- A call that needs the owner's file lock for itself: no process holds the journal open. -/
def Call.offline : Call → Bool
  | .openJournal _ | .quarantine | .reattach _ | .recover _ => true
  | _ => false

/-- The world after a call: a successful open leaves the journal held by its process, a failed one
drops it together with its latch. -/
def Call.settle : (c : Call) → Result c.Value → World → World
  | .openJournal _, .ok _, w => { w with up := true }
  | .openJournal _, .error _, w => { w with failed := false }
  | _, _, w => w

/-- The journal as a service. A crash ends the process and with it the running call. -/
def service (P : Primitives) :
    Service Query Answer World Call (fun c => Result c.Value) where
  machine := machine P
  body c := (c.body P).run
  ready c w := w.up = !c.offline
  settle := Call.settle
  reboot w := { w with failed := false, up := false }

abbrev State := Service.State Query Answer World Call (fun c => Result c.Value)

abbrev Record := Service.Record Query Answer World Call (fun c => Result c.Value)

/-- Any number of steps of the journal, its environment and crashes. -/
abbrev Steps (P : Primitives) : State → State → Prop := (service P).Steps

/-! ## Undisturbed steps -/

/-- The answer of a working ledger and a reachable Redis that nobody else uses. -/
def answer (P : Primitives) (now : Option ℕ) : (q : Query) → World → Answer q × World
  | .failed, w => (w.failed, w)
  | .latch, w => ((), { w with failed := true })
  | .sql t, w =>
    match t.exec P now w.db with
    | .ok (r, db) => (.ok r, { w with db })
    | .error e => (.error e, w)
  | .observe key, w => (some (w.redis.observe key), w)
  | .publish key previous target, w =>
    let out := w.redis.publish key previous target
    (some out.1, { w with redis := out.2 })
  | .setNx key token, w =>
    let out := w.redis.setNx key token
    (some out.1, { w with redis := out.2 })
  | .scan _, w => (some true, w)

theorem act_answer (P : Primitives) (now : Option ℕ) (q : Query) (w : World) :
    (service P).machine.act q w (answer P now q w).1 (answer P now q w).2 := by
  change act P q w _ _
  cases q with
  | sql t =>
    cases h : t.exec P now w.db with
    | ok out => exact .inl ⟨now, out.1, out.2, h, by simp [answer, h], by simp [answer, h]⟩
    | error e => exact .inr (.inl ⟨now, e, h, by simp [answer, h], by simp [answer, h]⟩)
  | observe key => exact ⟨.inr rfl, rfl⟩
  | publish | setNx => exact .inr (.inr ⟨rfl, rfl⟩)
  | failed => exact ⟨rfl, rfl⟩
  | latch | scan => exact rfl

/-- A statement that fails in storage, or a Redis command that is lost. -/
def Query.refused : (q : Query) → World → Option (Answer q × World)
  | .failed, _ | .latch, _ => none
  | .sql _, w => some (.error .storage, w)
  | .observe _, w | .publish .., w | .setNx .., w | .scan _, w => some (none, w)

/-- The same, with the queries marked by `fault` refused. -/
def faulty (P : Primitives) (now : Option ℕ) (fault : Query → Bool) (q : Query) (w : World) :
    Answer q × World :=
  if fault q then (q.refused w).getD (answer P now q w) else answer P now q w

theorem act_faulty (P : Primitives) (now : Option ℕ) (fault : Query → Bool) (q : Query)
    (w : World) :
    (service P).machine.act q w (faulty P now fault q w).1 (faulty P now fault q w).2 := by
  unfold faulty
  split_ifs
  · cases q with
    | failed | latch => exact act_answer P now _ w
    | sql t => exact .inr (.inr ⟨rfl, rfl⟩)
    | observe key => exact ⟨.inl rfl, rfl⟩
    | publish | setNx => exact .inl ⟨rfl, rfl⟩
    | scan => exact rfl
  · exact act_answer P now q w

/-- The state after a call that ran undisturbed. -/
def State.after (P : Primitives) (now : Option ℕ) (s : State) (c : Call) : State :=
  Service.State.after (service P) (answer P now) s c

theorem Steps.call (P : Primitives) (now : Option ℕ) {s : State} (hfree : s.active = none)
    {c : Call} (hready : s.world.up = !c.offline) : Steps P s (State.after P now s c) :=
  Service.Steps.call (act_answer P now) hfree hready

def State.crashed (s : State) : State :=
  { s with world := { s.world with failed := false, up := false }, active := none }

theorem Steps.crash (P : Primitives) (s : State) : Steps P s s.crashed :=
  .single (Service.Step.crash s)

end EngineCore.Recovery
