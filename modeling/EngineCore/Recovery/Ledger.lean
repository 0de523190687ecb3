import EngineCore.Finality.Policy
import EngineCore.Lib.Result
import EngineCore.Recovery.Json

/-!
# The recovery ledger

The rows the journal keeps in SQLite and the Redis state it is checked against.
-/

namespace EngineCore.Recovery

/-! ## Errors -/

inductive RecoveryError
  | publicationPending
  | busy
  | storage
  | locked
  | missing
  | recoveryRequired (why : String)
  | conflict
  | invalid (why : String)
  deriving DecidableEq, Repr

abbrev Result := Except RecoveryError

/-- Stop with `e` where `c` holds. -/
def refuse (c : Prop) [Decidable c] (e : RecoveryError) : Result Unit :=
  if c then .error e else .ok ()

/-- The value, or `e` where there is none. -/
def require {α : Type} (o : Option α) (e : RecoveryError) : Result α :=
  match o with
  | some a => .ok a
  | none => .error e

section Reading

variable {α : Type}

@[simp] theorem refuse_ok {c : Prop} [Decidable c] {e : RecoveryError} {u : Unit} :
    refuse c e = .ok u ↔ ¬c := by
  unfold refuse
  split_ifs with h <;> simp [h]

@[simp] theorem require_ok {o : Option α} {e : RecoveryError} {a : α} :
    require o e = .ok a ↔ o = some a := by
  cases o <;> simp [require]

end Reading

/-! ## Rows -/

inductive Kind
  | eoa
  | eoaNoop
  | solana
  | erc4337
  | eip7702
  deriving DecidableEq, Repr

def Kind.text : Kind → String
  | .eoa => "eoa"
  | .eoaNoop => "eoa_noop"
  | .solana => "solana"
  | .erc4337 => "erc4337"
  | .eip7702 => "eip7702"

inductive AdmissionState
  | admitted
  | terminal
  | quarantined
  deriving DecidableEq, Repr

inductive HaltReason
  | initializing
  | ledgerUnavailable
  | continuityUnavailable
  | checkpointMismatch
  | primaryRoleChanged
  | processChanged
  | terminalEvidenceConflict
  | operatorQuarantine
  | recoveryIncomplete
  deriving DecidableEq, Repr

def HaltReason.text : HaltReason → String
  | .initializing => "initializing"
  | .ledgerUnavailable => "ledger unavailable"
  | .continuityUnavailable => "Redis continuity unavailable"
  | .checkpointMismatch => "Redis checkpoint mismatch"
  | .primaryRoleChanged => "Redis primary role changed"
  | .processChanged => "Redis process changed"
  | .terminalEvidenceConflict => "terminal evidence conflict"
  | .operatorQuarantine => "operator quarantine"
  | .recoveryIncomplete => "recovery incomplete"

structure Control where
  schema : ℕ
  deployment : String
  epoch : ℕ
  checkpoint : ℕ
  nameSpace : Option String
  runId : String
  halted : Bool
  reason : Option HaltReason
  deriving DecidableEq, Repr

def i64Max : ℕ := 2 ^ 63 - 1

def schemaVersion : ℕ := 3

/-- The Redis key of the checkpoint marker. -/
def markerKey (ns : Option String) : String := ns.getD "engine" ++ ":recovery:checkpoint"

/-- The checkpoint token that Redis must show. -/
def Control.token (c : Control) : String :=
  "v" ++ toString c.schema ++ ":" ++ c.deployment ++ ":" ++ toString c.epoch ++ ":" ++
    toString c.checkpoint

def Control.key (c : Control) : String := markerKey c.nameSpace

structure AdmissionRecord where
  id : String
  kind : Kind
  fingerprint : String
  payload : Json
  state : AdmissionState
  replayKey : Option String
  deriving DecidableEq

/-- One possibly broadcast wire. Rows stand in the order of their sequence numbers. -/
structure Attempt where
  id : String
  replayKey : String
  digest : String
  payload : Json
  deriving DecidableEq

structure TerminalEvidence where
  id : String
  evidence : Json
  deriving DecidableEq

/-- A committed change of the token that Redis has not been seen to show. -/
structure PendingUpdate where
  previousToken : String
  targetToken : String
  redisKey : String
  runId : String
  deriving DecidableEq, Repr

structure SolanaRecovery where
  id : String
  attemptDigest : String
  broadcasts : ℕ
  lastBroadcastAt : ℕ
  deriving DecidableEq, Repr

/-- The tables. The two tables that older schemas lack are optional. -/
structure Database where
  control : Control
  admissions : List AdmissionRecord
  attempts : List Attempt
  evidence : List TerminalEvidence
  checkpoints : List (String × FinalityEvidence)
  halts : List String
  pending : Option (List PendingUpdate)
  solana : Option (List SolanaRecovery)
  deriving DecidableEq

/-! ## Row queries -/

namespace Database

/-- The control row, refused when its schema is not a known one. -/
def readControl (db : Database) : Result Control := do
  refuse (db.control.schema ∉ [1, 2, schemaVersion]) (.invalid "unknown ledger schema")
  return db.control

def lookup (db : Database) (id : String) : Option AdmissionRecord :=
  db.admissions.find? fun r => r.id = id

/-- The admission that holds a replay key. -/
def owner (db : Database) (key : String) : Option AdmissionRecord :=
  db.admissions.find? fun r => r.replayKey = some key

def attemptsOf (db : Database) (id : String) : List Attempt :=
  db.attempts.filter fun a => a.id = id

/-- The terminal evidence of an id, oldest first. -/
def evidenceOf (db : Database) (id : String) : List TerminalEvidence :=
  db.evidence.filter fun e => e.id = id

/-- The first committed terminal evidence of an id. -/
def firstEvidence (db : Database) (id : String) : Option Json :=
  (db.evidenceOf id).head?.map TerminalEvidence.evidence

def checkpointOf (db : Database) (chain : String) : Option FinalityEvidence :=
  db.checkpoints.lookup chain

def updateAdmission (db : Database) (id : String) (f : AdmissionRecord → AdmissionRecord) :
    Database :=
  { db with admissions := db.admissions.map fun r => if r.id = id then f r else r }

end Database

/-! ## Libraries -/

abbrev Signature := BitVec 512

/-- The decoders and digests that come from libraries. -/
structure Primitives where
  /-- SHA-256 in lower-case hexadecimal. -/
  sha256 : String → String
  b256 : Json → Option B256
  address : Json → Option Address
  u256 : Json → Option ℕ
  /-- The lower-case hexadecimal form of an address. -/
  addressText : Address → String
  signature : String → Option Signature
  signatureText : Signature → String
  /-- A user operation, as the hash it has on a chain under an entrypoint. -/
  userOp : Json → Option (ℕ → Address → Option B256)

end EngineCore.Recovery
