import EngineCore.Executors.Machine
import EngineCore.Finality.Assess

/-!
# The journal as the executors use it

Operations of the journal that are several steps of a worker: a health check under the lock and
reads outside of it. The tables may change between any two of them.

* **`validatePayload_does`**, **`beforeBroadcast_does`**: what a successful check and a granted
  broadcast leave in the tables.
-/

namespace EngineCore.Recovery

def RecoveryError.text : RecoveryError → String
  | .publicationPending => "Redis checkpoint publication is pending; retry the same transaction ID"
  | .busy =>
    "Recovery admission is busy; retry the same transaction ID after capacity is available"
  | .storage =>
    "Recovery ledger storage is unavailable or invalid; transaction execution is blocked"
  | .locked => "Recovery ledger is already owned by an active process"
  | .missing => "Recovery ledger is missing; initialize a fresh deployment explicitly"
  | .recoveryRequired why => s!"Recovery required: {why}"
  | .conflict => "Recovery request conflicts with immutable admitted intent or replay identity"
  | .invalid why => s!"Invalid recovery configuration: {why}"

end EngineCore.Recovery

namespace EngineCore.Executors

open Interact Recovery
open Except (bind_ok pure_ok)

variable {X S α : Type} {B : X → Type} {R : S → Type} {P : Primitives}

/-! ## Operations -/

def validateAdmission (kind : Kind) (id fingerprint : String) : Work B R RecoveryError Unit := do
  invoke .ensureHealthy
  let found ← read (.admission kind id)
  let record ← lift (require found (.recoveryRequired "untracked transaction"))
  lift (refuse (record.fingerprint ≠ fingerprint) .conflict)
  lift (refuse (record.state ≠ .admitted)
    (.recoveryRequired "transaction is terminal or quarantined"))

def validatePayload (P : Primitives) (kind : Kind) (id : String) (payload : Json) :
    Work B R RecoveryError Unit := do
  let fingerprint ← lift (admissionFingerprint P kind payload)
  validateAdmission kind id fingerprint
  let found ← read (.admission kind id)
  let record ← lift (require found (.recoveryRequired "untracked transaction"))
  let stored ← lift (canonical record.payload)
  let own ← lift (canonical payload)
  lift (refuse (stored ≠ own) .conflict)

def latestEoaAttempt (id key : String) : Work B R RecoveryError (Option Json) := do
  let _ ← lift (identity "eoa" id)
  lift (validateReplayKey .eoa key)
  invoke .ensureHealthy
  read (.latestEoaAttempt id key)

def validateAttemptIdentity (kind : Kind) (id : String) (identity : Json) :
    Work B R RecoveryError Unit := do
  invoke .ensureHealthy
  read (.attemptIdentity kind id identity)

def checkChainHealthy (chainId : ℕ) : Work B R RecoveryError Unit := do
  invoke .ensureHealthy
  read (.chainHealth (toString chainId))

def loadCheckpoint (chainId : ℕ) : Work B R RecoveryError (Option FinalityEvidence) := do
  checkChainHealthy chainId
  read (.checkpoint (toString chainId))

/-! ## Errors -/

/-- A pending publication is kept apart: it is no permission, but all gates may be tried again. -/
def fromJournalError : RecoveryError → EngineError
  | .publicationPending => .recoveryPending RecoveryError.publicationPending.text
  | e => .internalError e.text

/-- An operation of the journal inside an executor. -/
def journal (x : Work B R RecoveryError α) : Work B R EngineError α :=
  ExceptT.adapt fromJournalError x

/-! ## Lasting facts -/

/-- An admission of this kind and id whose payload has this canonical form. -/
def Admits (kind : Kind) (id : String) (payload : Json) (db : Database) : Prop :=
  ∃ r ∈ db.admissions, r.id = id ∧ r.kind = kind ∧
    ∃ encoded, canonical r.payload = .ok encoded ∧ canonical payload = .ok encoded

/-- A committed attempt under a replay key. -/
def Attempted (P : Primitives) (id key : String) (attempt : Json) (db : Database) : Prop :=
  ∃ encoded, canonical attempt = .ok encoded ∧
    ⟨id, key, digestOf P encoded, encoded⟩ ∈ db.attempts

section Lasting

variable {db db' : Database} {kind : Kind} {id key : String} {payload : Json}

theorem Admits.extends (h : Admits kind id payload db) (he : db.Extends db') :
    Admits kind id payload db' := by
  obtain ⟨r, hr, hid, hkind, encoded, hstored, hown⟩ := h
  obtain ⟨r', hr', hk⟩ := he.admissions r hr
  exact ⟨r', hr', hk.id.trans hid, hk.kind.trans hkind, encoded, by rw [hk.payload]; exact hstored,
    hown⟩

theorem Attempted.extends (h : Attempted P id key payload db) (he : db.Extends db') :
    Attempted P id key payload db' := by
  obtain ⟨encoded, henc, hmem⟩ := h
  exact ⟨encoded, henc, he.attempts.subset hmem⟩

end Lasting

/-! ## What the operations establish -/

section Specs

variable {Φ : S → Database → Prop} {w : World S}

theorem Returned.granted {c : Call} {a : c.Value} {w w' : World S} (h : Returned P c a w w')
    (hw : Reached P w.journal) : ∃ l db, Granted P c a l db ∧ db.Extends w'.db := by
  obtain ⟨l, t, ht, ht', hg, _⟩ := h
  exact ⟨l, t.world.db, hg, ht'.extends (ht.intact hw.intact)⟩

theorem Does.journal {x : Work B R RecoveryError α} {K : α → World S → Prop}
    (hx : Does P Φ w x K) : Does P Φ w (journal x) K :=
  hx.adapt

theorem Silent.journal {x : Work B R RecoveryError α} (hx : Silent P x) : Silent P (journal x) :=
  hx.adapt

theorem validateAttemptIdentity_silent (kind : Kind) (id : String) (identity : Json) :
    Silent P (validateAttemptIdentity kind id identity : Work B R RecoveryError Unit) :=
  .bind (.invoke _) fun _ => .read _

theorem latestEoaAttempt_silent (id key : String) :
    Silent P (latestEoaAttempt id key : Work B R RecoveryError (Option Json)) :=
  .bind (.lift _) fun _ => .bind (.lift _) fun _ => .bind (.invoke _) fun _ => .read _

theorem loadCheckpoint_silent (chainId : ℕ) :
    Silent P (loadCheckpoint chainId : Work B R RecoveryError (Option FinalityEvidence)) :=
  .bind (.bind (.invoke _) fun _ => .read _) fun _ => .read _

theorem admission_ok {kind : Kind} {id : String} {r : AdmissionRecord} {db : Database}
    (h : db.admission kind id = .ok (some r)) :
    r ∈ db.admissions ∧ r.id = id ∧ r.kind = kind := by
  simp only [Database.admission, bind_ok, refuse_ok, pure_ok] at h
  obtain ⟨_, hkind, hlookup⟩ := h
  obtain ⟨hmem, hid⟩ := mem_of_lookup hlookup
  refine ⟨hmem, hid, ?_⟩
  simpa [hlookup] using hkind

theorem validateAdmission_silent (kind : Kind) (id fingerprint : String) :
    Silent P (validateAdmission kind id fingerprint : Work B R RecoveryError Unit) :=
  .bind (.invoke _) fun _ => .bind (.read _) fun _ => .bind (.lift _) fun _ =>
    .bind (.lift _) fun _ => .lift _

/-- **A validated payload is the admitted one.** -/
theorem validatePayload_does (kind : Kind) (id : String) (payload : Json) :
    Does P Φ w (validatePayload P kind id payload : Work B R RecoveryError Unit)
      fun _ w' => Admits kind id payload w'.db := by
  refine .check fun fingerprint _ => ?_
  refine (validateAdmission_silent kind id fingerprint Φ w).bind fun _ w₂ _ _ _ => ?_
  refine (Does.read (.admission kind id)).bind fun found w₃ _ _ hfound => ?_
  refine .check fun record hrecord => .check fun stored hstored => .check fun own hown => ?_
  refine .lift fun _ heq => ?_
  obtain rfl := require_ok.mp hrecord
  obtain ⟨hmem, hid, hkind⟩ := admission_ok hfound
  obtain rfl : stored = own := by simpa using heq
  exact ⟨record, hmem, hid, hkind, stored, hstored, hown⟩

/-- **A granted broadcast is committed.** -/
theorem beforeBroadcast_does {kind id key : String} {attempt : Json} :
    Does P Φ w (invoke (.beforeBroadcast kind id key attempt) : Work B R RecoveryError Unit)
      fun _ w' => Attempted P id key attempt w'.db := by
  refine .of_reached fun hw => (Does.invoke (.beforeBroadcast kind id key attempt)).mono ?_
  intro _ w' _ _ h
  obtain ⟨l, db, ⟨k, encoded, old, db₀, db₁, _, _, henc, hg⟩, hext⟩ := h.granted hw
  exact Attempted.extends ⟨encoded, henc, hg.broadcast.1⟩ hext

end Specs

end EngineCore.Executors
