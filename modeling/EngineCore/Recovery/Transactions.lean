import EngineCore.Recovery.Projection

/-!
# The journal's transactions

Each SQLite transaction of the journal as one function on the tables: it fails and leaves the
tables alone, or returns a value and the tables it committed.
-/

namespace EngineCore.Recovery

/-! ## Rows -/

namespace Database

def insertAdmission (db : Database) (row : AdmissionRecord) : Database :=
  { db with admissions := db.admissions ++ [row] }

def insertAttempt (db : Database) (row : Attempt) : Database :=
  { db with attempts := db.attempts ++ [row] }

def insertEvidence (db : Database) (row : TerminalEvidence) : Database :=
  { db with evidence := db.evidence ++ [row] }

def insertSolana (db : Database) (row : SolanaRecovery) : Database :=
  { db with solana := db.solana.map (· ++ [row]) }

def ensureChainNotHalted (db : Database) (chain : String) : Result Unit :=
  refuse (chain ∈ db.halts) (.recoveryRequired "chain finality conflict requires reconciliation")

/-- `INSERT OR IGNORE` into the chain halts. -/
def insertHalt (db : Database) (chain : String) : Database :=
  { db with halts := if chain ∈ db.halts then db.halts else db.halts ++ [chain] }

end Database

/-! ## Admission -/

structure AdmissionReservation where
  payload : Json
  terminal : Bool
  deriving DecidableEq

/-- Admit an id once; a repeated admission of the same intent returns the stored request. -/
def Database.reserve (kind : Kind) (id fingerprint : String) (payload encoded : Json)
    (db : Database) : Result ((AdmissionReservation × Option Control) × Database) :=
  match db.lookup id with
  | some old => do
    refuse (old.kind ≠ kind ∨ old.fingerprint ≠ fingerprint) .conflict
    refuse (old.state = .quarantined) (.recoveryRequired "transaction is quarantined")
    return ((⟨old.payload, old.state = .terminal⟩, none), db)
  | none => do
    let (old, db) ←
      (db.insertAdmission ⟨id, kind, fingerprint, encoded, .admitted, none⟩).advance
    return ((⟨payload, false⟩, some old), db)

/-! ## Broadcast -/

/-- The gate of a kind: a restored Solana intent has its own budget, every other kind its chain. -/
def Database.broadcastGate (kind : Kind) (id key : String) (db : Database) : Result Unit :=
  if kind = .solana then do
    let rows ← require db.solana .storage
    refuse (rows.any fun r => r.id = id)
      (.recoveryRequired "restored Solana intent requires a durable recovery broadcast claim")
  else do
    let chain ← require (chainOf key) (.invalid "replay key has no chain identity")
    db.ensureChainNotHalted chain

/-- Bind an id to its replay key and store the exact attempt, before any network use. -/
def Database.broadcast (kind : Kind) (id key digest : String) (encoded : Json) (db : Database) :
    Result (Option Control × Database) := do
  let record ← require (db.lookup id) (.recoveryRequired "untracked broadcast")
  refuse (record.kind ≠ kind) .conflict
  refuse (record.state ≠ .admitted) (.recoveryRequired "transaction is terminal or quarantined")
  db.broadcastGate kind id key
  refuse (record.replayKey.any fun k => k ≠ key) .conflict
  refuse ((db.owner key).any fun o => o.id ≠ id) .conflict
  match db.attempts.find? fun a => a.id = id ∧ a.digest = digest with
  | some old =>
    -- an exact retry is already committed: check it, write nothing
    refuse (old.replayKey ≠ key ∨ old.payload ≠ encoded ∨ record.replayKey ≠ some key) .storage
    return (none, db)
  | none =>
    let db := db.updateAdmission id fun r => { r with replayKey := some key }
    let (old, db) ← (db.insertAttempt ⟨id, key, digest, encoded⟩).advance
    return (some old, db)

/-- The read-only check made before signing. -/
def Database.replayBinding (kind : Kind) (id key : String) (db : Database) : Result Unit := do
  let record ← require (db.lookup id) (.recoveryRequired "untracked signing intent")
  refuse (record.kind ≠ kind ∨ record.replayKey.any fun k => k ≠ key) .conflict
  refuse (record.state ≠ .admitted) (.recoveryRequired "transaction is terminal or quarantined")
  refuse ((db.owner key).any fun o => o.id ≠ id) .conflict
  if kind = .solana then return ()
  else
    let chain ← require (chainOf key) (.invalid "missing replay chain")
    db.ensureChainNotHalted chain

/-! ## Terminal evidence -/

def field {α : Type} (decode : Json → Option α) (v : Json) (name : String) : Result α := do
  let x ← require (v.get? name) .conflict
  require (decode x) .conflict

def strField (v : Json) (name : String) : Option String := (v.get? name).bind Json.asStr

section Identity

variable (P : Primitives)

def solanaKey (chain : String) (signature : Signature) : String :=
  "solana:" ++ chain ++ ":" ++ P.signatureText signature

def erc4337Key (chainId : ℕ) (entrypoint sender : Address) (nonce : ℕ) : String :=
  "erc4337:" ++ toString chainId ++ ":" ++ P.addressText entrypoint ++ ":" ++
    P.addressText sender ++ ":" ++ toString nonce

/-- An attempt is the one an observation speaks of. -/
def attemptMatches (kind : Kind) (key : String) (identity attempt : Json) : Result Bool :=
  match kind with
  | .eoa | .eoaNoop => do
    let wanted ← field P.b256 identity "transactionHash"
    return (field P.b256 attempt "transactionHash").toOption = some wanted
  | .solana => do
    let text ← field Json.asStr identity "signature"
    let signature ← require (P.signature text) .conflict
    let chain ← field Json.asStr identity "chainId"
    return key = solanaKey P chain signature ∧
      (strField attempt "signature").bind P.signature = some signature
  | .erc4337 => do
    let chainId ← field Json.asU64 identity "chainId"
    let sender ← field P.address identity "sender"
    let entrypoint ← field P.address identity "entrypoint"
    let nonce ← field P.u256 identity "nonce"
    let wanted ← field P.b256 identity "userOperationHash"
    refuse (key ≠ erc4337Key P chainId entrypoint sender nonce) .conflict
    let operation ← field P.userOp attempt "userOperation"
    return (field Json.asU64 attempt "chainId").toOption = some chainId ∧
      (field P.address attempt "sender").toOption = some sender ∧
      (field P.address attempt "entrypoint").toOption = some entrypoint ∧
      (field P.u256 attempt "nonce").toOption = some nonce ∧
      operation chainId entrypoint = some wanted
  | .eip7702 => .error (.invalid "unsupported confirmation kind")

def scanAttempts (kind : Kind) (key : String) (identity : Json) : List Attempt → Result Unit
  | [] => .error (.recoveryRequired "confirmation identity is not a recorded broadcast attempt")
  | a :: as => do
    let found ← attemptMatches P kind key identity a.payload
    if found then return () else scanAttempts kind key identity as

/-- Outside Solana the observation names the chain of the key, and the chain is not halted. -/
def Database.checkChain (record : AdmissionRecord) (chain : String) (identity : Json)
    (db : Database) : Result Unit :=
  if record.kind = .solana then .ok ()
  else do
    let supplied ← field Json.asU64 identity "chainId"
    refuse (parseU64 chain ≠ some supplied) .conflict
    db.ensureChainNotHalted chain

/-- The observation belongs to a recorded attempt of the admission. -/
def Database.validateAttemptIdentity (record : AdmissionRecord) (identity : Json) (db : Database) :
    Result Unit := do
  refuse (record.state = .quarantined) (.recoveryRequired "transaction is quarantined")
  let key ← require record.replayKey
    (.recoveryRequired "confirmation has no recorded broadcast attempt")
  let chain ← require (chainOf key) .storage
  db.checkChain record chain identity
  refuse (record.kind = .eip7702)
    (.recoveryRequired "bundled EIP-7702 lacks a qualified canonical UID witness")
  scanAttempts P record.kind key identity (db.attemptsOf record.id)

/-- Record an outcome. Equivalent evidence changes nothing; contradictory evidence is kept and
halts the journal. -/
def Database.terminal (kind : Kind) (id : String) (evidence normalized encoded : Json)
    (db : Database) : Result ((Option Control × Bool) × Database) := do
  let record ← require (db.lookup id) (.recoveryRequired "untracked terminal observation")
  refuse (record.kind ≠ kind) .conflict
  db.validateAttemptIdentity P record evidence
  if record.state = .terminal then
    let previous ← require (db.firstEvidence id) .storage
    let was ← terminalIdentity previous
    if was = normalized then return ((none, false), db)
    else
      return ((none, true),
        { db.insertEvidence ⟨id, encoded⟩ with
          control.halted := true, control.reason := some .terminalEvidenceConflict })
  else
    let db := db.insertEvidence ⟨id, encoded⟩
    let (old, db) ← (db.updateAdmission id fun r => { r with state := .terminal }).advance
    return ((some old, false), db)

end Identity

/-! ## Restored Solana intents -/

def maxSolanaRecoveryBroadcasts : ℕ := 20

def recoveryBroadcastInterval : ℕ := 2000

/-- A retained attempt. It grants no permission to send. -/
structure RetainedSolanaAttempt where
  replayKey : String
  payload : Json
  state : AdmissionState
  recoveryBroadcasts : ℕ
  lastRecoveryBroadcastAt : ℕ
  deriving DecidableEq

inductive SolanaRecoveryBroadcast
  | granted (broadcasts atMs : ℕ)
  | wait (retryAfterMs : ℕ)
  | exhausted
  deriving DecidableEq, Repr

structure Retained where
  attempt : RetainedSolanaAttempt
  digest : String
  recoveryMode : Bool
  deriving DecidableEq

section Solana

variable (P : Primitives)

/-- The stored row of an attempt is intact and carries its own signature and wire. -/
def checkRetained (row : Attempt) : Result Unit := do
  let encoded ← canonical row.payload
  refuse (encoded ≠ row.payload ∨ digestOf P row.payload ≠ row.digest) .storage
  let text ← require (strField row.payload "signature") .storage
  let signature ← require (P.signature text) .storage
  let chain ← require (strField row.payload "chainId") .storage
  refuse (row.replayKey ≠ solanaKey P chain signature) .storage
  let attempt ← require (row.payload.get? "attempt") .storage
  refuse (strField attempt "signature" ≠ some (P.signatureText signature)) .storage
  refuse ((strField attempt "signed_transaction").getD "" = "")
    (.recoveryRequired "retained Solana attempt has no signed wire")

/-- The recovery row of an intent agrees with its attempt. -/
def checkMode (row : Attempt) (mode : SolanaRecovery) : Result Unit :=
  refuse (mode.attemptDigest ≠ row.digest ∨ maxSolanaRecoveryBroadcasts < mode.broadcasts ∨
    ¬(mode.broadcasts = 0 ↔ mode.lastBroadcastAt = 0)) .storage

/-- The one attempt of an admitted Solana request, if it has one. -/
def Database.retained (id : String) (expected : Json) (db : Database) :
    Result (Option Retained) := do
  let admission ← require (db.lookup id) (.recoveryRequired "untracked Solana projection recovery")
  refuse (admission.kind ≠ .solana) .conflict
  let fingerprint ← admissionFingerprint P .solana expected
  refuse (admission.fingerprint ≠ fingerprint) .conflict
  let stored ← canonical admission.payload
  let wanted ← canonical expected
  refuse (stored ≠ wanted) .conflict
  refuse (admission.state = .quarantined) (.recoveryRequired "transaction is quarantined")
  let modes ← require db.solana .storage
  let mode := modes.find? fun m => m.id = id
  match db.attemptsOf id with
  | [] =>
    refuse (admission.replayKey.isSome ∨ mode.isSome ∨ admission.state ≠ .admitted) .storage
    return none
  | row :: rest =>
    refuse (rest ≠ [] ∨ admission.replayKey ≠ some row.replayKey) .storage
    checkRetained P row
    match mode with
    | none =>
      return some ⟨⟨row.replayKey, row.payload, admission.state, 0, 0⟩, row.digest, false⟩
    | some m =>
      checkMode row m
      return some
        ⟨⟨row.replayKey, row.payload, admission.state, m.broadcasts, m.lastBroadcastAt⟩,
          row.digest, true⟩

/-- Put an intent into recovery mode and return its attempt. -/
def Database.prepareRestore (id : String) (expected : Json) (db : Database) :
    Result ((Option RetainedSolanaAttempt × Option Control) × Database) := do
  match ← db.retained P id expected with
  | none => return ((none, none), db)
  | some stored =>
    if stored.recoveryMode then return ((some stored.attempt, none), db)
    else
      let (old, db) ← (db.insertSolana ⟨id, stored.digest, 0, 0⟩).advance
      return ((some stored.attempt, some old), db)

def Database.claim (id : String) (stored : RetainedSolanaAttempt) (now : ℕ) (db : Database) :
    Result (SolanaRecoveryBroadcast × Database) := do
  let elapsed := now - stored.lastRecoveryBroadcastAt
  if maxSolanaRecoveryBroadcasts ≤ stored.recoveryBroadcasts then return (.exhausted, db)
  else if stored.lastRecoveryBroadcastAt ≠ 0 ∧ elapsed < recoveryBroadcastInterval then
    return (.wait (recoveryBroadcastInterval - elapsed), db)
  else
    refuse (now = 0 ∨ i64Max < now) .storage
    let modes ← require db.solana .storage
    let hit := fun m : SolanaRecovery => m.id = id ∧ m.broadcasts = stored.recoveryBroadcasts ∧
      m.lastBroadcastAt = stored.lastRecoveryBroadcastAt
    refuse (modes.countP hit ≠ 1) .storage
    let spent := stored.recoveryBroadcasts + 1
    let modes := modes.map fun m =>
      if hit m then { m with broadcasts := spent, lastBroadcastAt := now } else m
    return (.granted spent now, { db with solana := some modes })

/-- Grant one broadcast of a restored intent. `now` is the clock of the transaction, if it reads. -/
def Database.claimBroadcast (id : String) (expected attempt : Json) (now : Option ℕ)
    (db : Database) : Result ((SolanaRecoveryBroadcast × Option Control) × Database) := do
  let found ← db.retained P id expected
  let stored ← require found (.recoveryRequired "missing retained Solana attempt")
  refuse (¬stored.recoveryMode ∨ stored.attempt.state ≠ .admitted)
    (.recoveryRequired "Solana recovery broadcast is not allowed")
  let kept ← canonical stored.attempt.payload
  let given ← canonical attempt
  refuse (kept ≠ given) .conflict
  let now ← require now .storage
  match ← db.claim id stored.attempt now with
  | (.granted spent atMs, db) =>
    let (old, db) ← db.advance
    return ((.granted spent atMs, some old), db)
  | (answer, _) => return ((answer, none), db)

end Solana

/-! ## The chain fence -/

def Database.setCheckpoint (db : Database) (chain : String) (evidence : FinalityEvidence) :
    Database :=
  { db with checkpoints := (chain, evidence) :: db.checkpoints.filter fun c => c.1 ≠ chain }

/-- The new evidence contradicts the committed checkpoint. -/
def conflicts (previous evidence : FinalityEvidence) : Prop :=
  previous.policy ≠ evidence.policy ∨
    previous.checkpointNumber = evidence.checkpointNumber ∧
      previous.checkpointHash ≠ evidence.checkpointHash

instance (previous evidence : FinalityEvidence) : Decidable (conflicts previous evidence) :=
  inferInstanceAs (Decidable (_ ∨ _))

/-- Compare and swap the checkpoint whose canonicality the caller has checked. The answer says
whether it was accepted, what was advanced, and whether it contradicts the committed one. -/
def Database.commitCheckpoint (chain : String) (expected : Option FinalityEvidence)
    (evidence : FinalityEvidence) (db : Database) :
    Result ((Bool × Option Control × Bool) × Database) := do
  db.ensureChainNotHalted chain
  if db.checkpointOf chain ≠ expected then return ((false, none, false), db)
  else
    match db.checkpointOf chain with
    | none =>
      let (old, db) ← (db.setCheckpoint chain evidence).advance
      return ((true, some old, false), db)
    | some previous =>
      if conflicts previous evidence then
        let (old, db) ← (db.insertHalt chain).advance
        return ((false, some old, true), db)
      else if evidence.checkpointNumber < previous.checkpointNumber then
        return ((false, none, false), db)
      else if evidence.checkpointNumber = previous.checkpointNumber then
        return ((true, none, false), db)
      else
        let (old, db) ← (db.setCheckpoint chain evidence).advance
        return ((true, some old, false), db)

def Database.haltChain (chain : String) (db : Database) : Result (Control × Database) :=
  (db.insertHalt chain).advance

/-! ## Halts and offline commands -/

/-- Stop the journal; an earlier cause is kept. -/
def Database.halt (reason : HaltReason) (db : Database) : Database :=
  { db with control.halted := true, control.reason := db.control.reason.or (some reason) }

def Database.quarantine (db : Database) : Result Database := do
  let _ ← db.readControl
  return db.halt .operatorQuarantine

/-- The control row and the pending record. -/
def Database.state (db : Database) : Result (Control × Option PendingUpdate) := do
  let current ← db.readControl
  let pending ← db.load current
  return (current, pending)

/-- The state right after a change: its own record must be there. -/
def Database.mirrorState (old : Control) (db : Database) : Result (Control × PendingUpdate) := do
  let current ← db.readControl
  let found ← db.load current
  let pending ← require found .storage
  refuse (pending.previousToken ≠ old.token) .storage
  return (current, pending)

/-- The newest schema has its Solana table. -/
def Database.validateSchema (db : Database) : Result Unit := do
  let c ← db.readControl
  refuse (3 ≤ c.schema ∧ db.solana = none) .storage

/-- Physical indexes only: no row changes. -/
def Database.ensureHistoryIndexes (_ : Database) : Result Unit := .ok ()

def clearable (reason : Option HaltReason) : Prop :=
  reason = some .processChanged ∨ reason = some .continuityUnavailable ∨
    reason = some .primaryRoleChanged

instance (reason : Option HaltReason) : Decidable (clearable reason) :=
  inferInstanceAs (Decidable (_ ∨ _))

/-- The checks of a reattach before it looks at Redis. -/
def Database.reattachState (ns : Option String) (db : Database) :
    Result (Control × Option PendingUpdate) := do
  let c ← db.readControl
  db.validateSchema
  let pending ← db.load c
  refuse (c.nameSpace ≠ ns) (.invalid "configured namespace does not match ledger")
  refuse (c.halted ∧ ¬clearable c.reason) (.recoveryRequired "halt cannot be cleared by reattach")
  return (c, pending)

/-- Remove the record that was loaded, if there was one. -/
def Database.removePending (pending : Option PendingUpdate) (db : Database) : Result Database :=
  match pending with
  | some p => db.removeExact p
  | none => .ok db

/-- Adopt a Redis process that shows the exact token. -/
def Database.reattachCommit (c : Control) (pending : Option PendingUpdate) (run : String)
    (db : Database) : Result Database := do
  let now ← db.readControl
  let changed := .recoveryRequired "journal changed during reattach"
  refuse (now ≠ c) changed
  let found ← db.load c
  refuse (found ≠ pending) changed
  let db ← db.removePending pending
  return { db with control.runId := run, control.halted := false, control.reason := none }

/-- Some id has two pieces of terminal evidence. -/
def Database.TerminalConflict (db : Database) : Prop :=
  ∃ e ∈ db.evidence, 1 < (db.evidenceOf e.id).length

instance (db : Database) : Decidable db.TerminalConflict :=
  inferInstanceAs (Decidable (∃ e ∈ db.evidence, _))

/-- The checks of a recovery before it looks at Redis. -/
def Database.recoverState (ns : Option String) (db : Database) : Result Control := do
  let old ← db.readControl
  let _ ← db.load old
  refuse db.TerminalConflict
    (.recoveryRequired "conflicting terminal evidence requires dedicated reconciliation")
  refuse (old.nameSpace = ns) (.invalid "recovery must use a different empty namespace")
  refuse (old.epoch = i64Max) (.invalid "deployment epoch exhausted")
  return old

/-- The state of an admission after a recovery: what may have been sent is quarantined. -/
def Database.recoveredState (db : Database) (r : AdmissionRecord) : AdmissionState :=
  if r.state ≠ .terminal ∧ ∃ a ∈ db.attempts, a.id = r.id then .quarantined else r.state

def Control.recovered (c : Control) (ns : Option String) (run : String) : Control :=
  { c with
    schema := schemaVersion, nameSpace := ns, epoch := c.epoch + 1, checkpoint := 0
    runId := run, halted := true, reason := some .recoveryIncomplete }

/-- The tables after a recovery, from a `legacy` schema or the newest one. -/
def Database.recovered (db : Database) (legacy : Bool) (ns : Option String) (run : String) :
    Database :=
  { db with
    control := db.control.recovered ns run
    admissions := db.admissions.map fun r => { r with state := db.recoveredState r }
    pending := some []
    solana := if legacy then some [] else db.solana }

/-- The tables an older schema lacks can be created, the others are there. -/
def Database.checkTables (old : Control) (db : Database) : Result Unit := do
  -- `CREATE TABLE` fails on a table that is already there
  refuse (old.schema = 1 ∧ db.pending ≠ none) .storage
  refuse (old.schema < schemaVersion ∧ db.solana ≠ none) .storage
  refuse (¬old.schema < schemaVersion ∧ db.solana = none) .storage
  refuse (old.schema ≠ 1 ∧ db.pending = none) .storage

/-- Move to a new namespace and epoch, still halted. -/
def Database.recoverCommit (old : Control) (ns : Option String) (run : String) (db : Database) :
    Result Database := do
  db.checkTables old
  return db.recovered (old.schema < schemaVersion) ns run

def Database.recoverFinish (db : Database) : Database :=
  { db with control.halted := false, control.reason := none }

/-! ## Reads without the lock -/

/-- The admission of an id, of the given kind. -/
def Database.admission (kind : Kind) (id : String) (db : Database) :
    Result (Option AdmissionRecord) := do
  refuse ((db.lookup id).any fun r => r.kind ≠ kind) .conflict
  return db.lookup id

def Database.terminalEvidence (kind : Kind) (id : String) (db : Database) :
    Result (Option Json) :=
  match db.lookup id with
  | none => return none
  | some record => do
    refuse (record.kind ≠ kind) .conflict
    if record.state = .terminal then
      let body ← require (db.firstEvidence id) .storage
      return some body
    else return none

/-- The newest attempt of an admitted EOA transaction. -/
def Database.latestEoaAttempt (id key : String) (db : Database) : Result (Option Json) := do
  let record ← require (db.lookup id) (.recoveryRequired "untracked gap recovery")
  refuse (record.kind ≠ .eoa ∨ record.replayKey ≠ some key) .conflict
  refuse (record.state ≠ .admitted) (.recoveryRequired "gap recovery is terminal or quarantined")
  let chain ← require (chainOf key) .storage
  db.ensureChainNotHalted chain
  match (db.attemptsOf id).getLast? with
  | none => return none
  | some row =>
    refuse (row.replayKey ≠ key) .storage
    return some row.payload

/-- The observation belongs to a recorded attempt of the id. -/
def Database.attemptIdentity (P : Primitives) (kind : Kind) (id : String) (identity : Json)
    (db : Database) : Result Unit := do
  let record ← require (db.lookup id) (.recoveryRequired "untracked confirmation")
  refuse (record.kind ≠ kind) .conflict
  db.validateAttemptIdentity P record identity

/-! ## Inventory -/

structure RecoveryStatus where
  control : Control
  projectionPending : Bool
  admissions : ℕ
  attempts : ℕ
  terminal : ℕ
  quarantined : ℕ
  solanaRecoveryIntents : ℕ
  solanaRecoveryBroadcasts : ℕ
  deriving DecidableEq

def Database.status (db : Database) : Result RecoveryStatus := do
  let c ← db.readControl
  let pending ← db.load c
  let modes ← if c.schema < 3 then pure [] else require db.solana .storage
  return {
    control := c
    projectionPending := pending.isSome
    admissions := db.admissions.length
    attempts := db.attempts.length
    terminal := db.admissions.countP fun r => r.state = .terminal
    quarantined := db.admissions.countP fun r => r.state = .quarantined
    solanaRecoveryIntents := modes.length
    solanaRecoveryBroadcasts := (modes.map SolanaRecovery.broadcasts).sum }

/-! ## The transactions as one type -/

inductive Tx
  | control
  | state
  | mirrorState (old : Control)
  | halt (reason : HaltReason)
  | acknowledge (expected : PendingUpdate)
  | reserve (kind : Kind) (id fingerprint : String) (payload encoded : Json)
  | broadcast (kind : Kind) (id key digest : String) (encoded : Json)
  | replayBinding (kind : Kind) (id key : String)
  | terminal (kind : Kind) (id : String) (evidence normalized encoded : Json)
  | prepareRestore (id : String) (expected : Json)
  | claimBroadcast (id : String) (expected attempt : Json)
  | commitCheckpoint (chain : String) (expected : Option FinalityEvidence)
      (evidence : FinalityEvidence)
  | haltChain (chain : String)
  | validateSchema
  | historyIndexes
  | migrate
  | quarantine
  | reattachState (ns : Option String)
  | reattachCommit (c : Control) (pending : Option PendingUpdate) (run : String)
  | recoverState (ns : Option String)
  | recoverCommit (old : Control) (ns : Option String) (run : String)
  | recoverFinish
  | status

@[reducible] def Tx.Result : Tx → Type
  | .control => Control
  | .state => Control × Option PendingUpdate
  | .mirrorState _ => Control × PendingUpdate
  | .halt _ => Unit
  | .acknowledge _ => Unit
  | .reserve .. => AdmissionReservation × Option Control
  | .broadcast .. => Option Control
  | .replayBinding .. => Unit
  | .terminal .. => Option Control × Bool
  | .prepareRestore .. => Option RetainedSolanaAttempt × Option Control
  | .claimBroadcast .. => SolanaRecoveryBroadcast × Option Control
  | .commitCheckpoint .. => Bool × Option Control × Bool
  | .haltChain _ => Control
  | .validateSchema => Unit
  | .historyIndexes => Unit
  | .migrate => Unit
  | .quarantine => Unit
  | .reattachState _ => Control × Option PendingUpdate
  | .reattachCommit .. => Unit
  | .recoverState _ => Control
  | .recoverCommit .. => Unit
  | .recoverFinish => Unit
  | .status => RecoveryStatus

def reading {α : Type} (q : Database → Result α) (db : Database) : Result (α × Database) := do
  let a ← q db
  return (a, db)

def writing (q : Database → Result Database) (db : Database) : Result (Unit × Database) := do
  let db ← q db
  return ((), db)

/-- Run a transaction. `now` is the clock of the one transaction that reads it. -/
def Tx.exec (P : Primitives) (now : Option ℕ) :
    (t : Tx) → Database → Recovery.Result (t.Result × Database)
  | .control => reading Database.readControl
  | .state => reading Database.state
  | .mirrorState old => reading (Database.mirrorState old)
  | .halt reason => writing fun db => .ok (db.halt reason)
  | .acknowledge expected => writing fun db => db.acknowledge expected
  | .reserve kind id fingerprint payload encoded =>
    Database.reserve kind id fingerprint payload encoded
  | .broadcast kind id key digest encoded => Database.broadcast kind id key digest encoded
  | .replayBinding kind id key => reading (Database.replayBinding kind id key)
  | .terminal kind id evidence normalized encoded =>
    Database.terminal P kind id evidence normalized encoded
  | .prepareRestore id expected => Database.prepareRestore P id expected
  | .claimBroadcast id expected attempt => Database.claimBroadcast P id expected attempt now
  | .commitCheckpoint chain expected evidence =>
    Database.commitCheckpoint chain expected evidence
  | .haltChain chain => Database.haltChain chain
  | .validateSchema => reading Database.validateSchema
  | .historyIndexes => reading Database.ensureHistoryIndexes
  | .migrate => writing Database.migrate
  | .quarantine => writing Database.quarantine
  | .reattachState ns => reading (Database.reattachState ns)
  | .reattachCommit c pending run => writing (Database.reattachCommit c pending run)
  | .recoverState ns => reading (Database.recoverState ns)
  | .recoverCommit old ns run => writing (Database.recoverCommit old ns run)
  | .recoverFinish => writing fun db => .ok db.recoverFinish
  | .status => reading Database.status

end EngineCore.Recovery
