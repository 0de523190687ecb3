import EngineCore.Recovery.Journal

/-!
# Invariants of the ledger and the ledgers a journal starts from

* `act_exec`, `act_commit`: each step of a call runs one transaction at most, and makes one of the
  listed changes.
-/

namespace EngineCore.Recovery

open Interact

variable {P : Primitives} {db db' : Database}

/-! ## Invariants -/

/-- Replay keys belong to one admission each, and to its attempts. -/
structure Database.Intact (db : Database) : Prop where
  ids : (db.admissions.map AdmissionRecord.id).Nodup
  keys : ∀ r ∈ db.admissions, ∀ r' ∈ db.admissions, ∀ k,
    r.replayKey = some k → r'.replayKey = some k → r.id = r'.id
  bound : ∀ a ∈ db.attempts, ∃ r ∈ db.admissions, r.id = a.id ∧ r.replayKey = some a.replayKey
  sent : ∀ r ∈ db.admissions, ∀ k, r.replayKey = some k → ∃ a ∈ db.attempts, a.id = r.id

/-- Terminal admissions are those with evidence; a second piece of evidence halts the journal. -/
structure Database.Witnessed (db : Database) : Prop where
  closed : ∀ r ∈ db.admissions, r.state = .terminal → ∃ e ∈ db.evidence, e.id = r.id
  outcome : ∀ e ∈ db.evidence, ∃ r ∈ db.admissions, r.id = e.id ∧ r.state = .terminal
  conflict : db.TerminalConflict →
    db.control.halted = true ∧ db.control.reason = some .terminalEvidenceConflict

/-- The pending record is single and fits the control row; the tables follow the schema. -/
structure Database.Projected (db : Database) : Prop where
  schema : db.control.schema ∈ [1, 2, schemaVersion]
  first : db.control.schema = 1 → db.pending = none
  later : db.control.schema ≠ 1 → ∃ rows, db.pending = some rows
  single : ∀ rows, db.pending = some rows → rows.length ≤ 1
  valid : ∀ rows, db.pending = some rows → ∀ p ∈ rows, p.Valid db.control
  solana : db.solana = none ↔ db.control.schema ≠ schemaVersion

/-- What never changes in an admission. -/
structure AdmissionRecord.Keeps (r r' : AdmissionRecord) : Prop where
  id : r'.id = r.id
  kind : r'.kind = r.kind
  fingerprint : r'.fingerprint = r.fingerprint
  payload : r'.payload = r.payload
  replayKey : ∀ k, r.replayKey = some k → r'.replayKey = some k

/-- No row is lost and no identity changes. -/
structure Database.Extends (db db' : Database) : Prop where
  admissions : ∀ r ∈ db.admissions, ∃ r' ∈ db'.admissions, r.Keeps r'
  attempts : db.attempts <+: db'.attempts
  evidence : db.evidence <+: db'.evidence

theorem AdmissionRecord.Keeps.refl (r : AdmissionRecord) : r.Keeps r :=
  ⟨rfl, rfl, rfl, rfl, fun _ h => h⟩

theorem AdmissionRecord.Keeps.trans {r r' r'' : AdmissionRecord} (h : r.Keeps r')
    (h' : r'.Keeps r'') : r.Keeps r'' :=
  ⟨h'.id.trans h.id, h'.kind.trans h.kind, h'.fingerprint.trans h.fingerprint,
    h'.payload.trans h.payload, fun k hk => h'.replayKey k (h.replayKey k hk)⟩

theorem Database.Extends.refl (db : Database) : db.Extends db :=
  ⟨fun r hr => ⟨r, hr, .refl r⟩, List.prefix_rfl, List.prefix_rfl⟩

theorem Database.Extends.trans {db₁ db₂ db₃ : Database} (h : db₁.Extends db₂)
    (h' : db₂.Extends db₃) : db₁.Extends db₃ := by
  refine ⟨fun r hr => ?_, h.attempts.trans h'.attempts, h.evidence.trans h'.evidence⟩
  obtain ⟨r', hr', hk⟩ := h.admissions r hr
  obtain ⟨r'', hr'', hk'⟩ := h'.admissions r' hr'
  exact ⟨r'', hr'', hk.trans hk'⟩

/-! ## Lookups -/

theorem mem_of_lookup {id : String} {r : AdmissionRecord} (h : db.lookup id = some r) :
    r ∈ db.admissions ∧ r.id = id :=
  ⟨List.mem_of_find?_eq_some h, by simpa using List.find?_some h⟩

theorem lookup_eq_none {id : String} :
    db.lookup id = none ↔ ∀ r ∈ db.admissions, r.id ≠ id := by
  simp [Database.lookup, List.find?_eq_none]

theorem Database.Intact.lookup (h : db.Intact) {r : AdmissionRecord} (hr : r ∈ db.admissions) :
    db.lookup r.id = some r := by
  cases hl : db.lookup r.id with
  | none => exact absurd rfl (lookup_eq_none.mp hl r hr)
  | some r' =>
    obtain ⟨hr', hid⟩ := mem_of_lookup hl
    rw [List.inj_on_of_nodup_map h.ids hr' hr hid]

theorem Database.Intact.eq_of_id (h : db.Intact) {r r' : AdmissionRecord}
    (hr : r ∈ db.admissions) (hr' : r' ∈ db.admissions) (hid : r.id = r'.id) : r = r' :=
  List.inj_on_of_nodup_map h.ids hr hr' hid

theorem owner_eq_none {key : String} (h : db.owner key = none) :
    ∀ r ∈ db.admissions, r.replayKey ≠ some key := by
  simpa [Database.owner, List.find?_eq_none] using h

theorem owner_mem {key : String} {o : AdmissionRecord} (h : db.owner key = some o) :
    o ∈ db.admissions ∧ o.replayKey = some key :=
  ⟨List.mem_of_find?_eq_some h, by simpa using List.find?_some h⟩

/-! ## Ledgers to start from -/

/-- The ledger that initialization creates, still halted. -/
def Database.initial (deployment run : String) (ns : Option String) : Database where
  control := ⟨schemaVersion, deployment, 1, 0, ns, run, true, some .initializing⟩
  admissions := []
  attempts := []
  evidence := []
  checkpoints := []
  halts := []
  pending := some []
  solana := some []

/-- A ledger a journal may start from: just created, released by its initialization, or a
consistent ledger of an older schema. -/
inductive Founded : Database → Prop
  | created (deployment run : String) (ns : Option String) :
      Founded (.initial deployment run ns)
  | released (deployment run : String) (ns : Option String) :
      Founded (Database.initial deployment run ns).recoverFinish
  | legacy {db : Database} (hschema : db.control.schema < schemaVersion) (hintact : db.Intact)
      (hwitnessed : db.Witnessed) (hprojected : db.Projected) : Founded db

theorem Founded.intact (h : Founded db) : db.Intact := by
  cases h with
  | legacy _ h _ _ => exact h
  | _ => exact ⟨List.nodup_nil, by rintro _ ⟨⟩, by rintro _ ⟨⟩, by rintro _ ⟨⟩⟩

theorem Founded.witnessed (h : Founded db) : db.Witnessed := by
  cases h with
  | legacy _ _ h _ => exact h
  | _ => exact ⟨by rintro _ ⟨⟩, by rintro _ ⟨⟩, by rintro ⟨_, ⟨⟩, _⟩⟩

theorem Founded.projected (h : Founded db) : db.Projected := by
  cases h with
  | legacy _ _ _ h => exact h
  | _ =>
    refine ⟨by simp [Database.initial, Database.recoverFinish], by rintro ⟨⟩,
      fun _ => ⟨[], rfl⟩, ?_, ?_, by simp [Database.initial, Database.recoverFinish]⟩
    all_goals rintro _ ⟨⟩; simp

/-! ## Steps of a call -/

/-- A query that submits a transaction of the offline commands. -/
def Query.offline : Query → Bool
  | .sql t => t.offline
  | _ => false

theorem act_exec {q : Query} {w w' : World} {a : Answer q} (h : act P q w a w') :
    w'.db = w.db ∨ ∃ t now r, q = .sql t ∧ t.exec P now w.db = .ok (r, w'.db) := by
  cases q with
  | failed | observe => exact .inl (congrArg World.db h.2)
  | latch | scan => rw [show w' = _ from h]; exact .inl rfl
  | sql t =>
    rcases h with ⟨now, r, db, hexec, _, rfl⟩ | ⟨_, _, _, _, rfl⟩ | ⟨_, rfl⟩
    · exact .inr ⟨t, now, r, rfl, hexec⟩
    · exact .inl rfl
    · exact .inl rfl
  | publish | setNx =>
    rcases h with ⟨_, rfl⟩ | ⟨_, rfl⟩ | ⟨_, rfl⟩ <;> exact .inl rfl

/-- **Each step of a call changes the tables by one commit, or not at all.** -/
theorem act_commit {q : Query} {w w' : World} {a : Answer q} (h : act P q w a w') :
    Commit P q.offline w.db w'.db := by
  rcases act_exec h with hsame | ⟨t, now, r, rfl, hexec⟩
  · rw [hsame]
    exact .unchanged _ _
  · exact Tx.exec_commit hexec

theorem settle_db (c : Call) (r : Result c.Value) (w : World) : (c.settle r w).db = w.db := by
  cases c <;> cases r <;> rfl

section Runs

variable {I : Database → Prop} {s s' : State}

theorem Steps.tables
    (hI : ∀ (q : Query) (w : World) (a : Answer q) (w' : World), act P q w a w' → I w.db → I w'.db)
    (h : Steps P s s') (hs : I s.world.db) :
    I s'.world.db ∧ ∀ r ∈ s.since s', I r.world.db := by
  have henv : ∀ w w' : World, I w.db → disturbs w w' → I w'.db := by
    intro w w' hw henv
    rw [henv.1]
    exact hw
  have hsettle : ∀ (c : Call) (r : Result c.Value) (w : World), I w.db → I (c.settle r w).db := by
    intro c r w hw
    rw [settle_db]
    exact hw
  exact Service.Steps.world (I := fun w => I w.db) henv (fun q w a w' hw hact => hI q w a w' hact hw)
    hsettle (fun _ hw => hw) h hs

theorem Steps.database (hI : ∀ o db db', Commit P o db db' → I db → I db') (h : Steps P s s')
    (hs : I s.world.db) :
    I s'.world.db ∧ ∀ r ∈ s.since s', I r.world.db :=
  h.tables (fun _ _ _ _ hact => hI _ _ _ (act_commit hact)) hs

theorem Steps.executed
    (hI : ∀ (t : Tx) now (r : t.Result) db db', t.exec P now db = .ok (r, db') → I db → I db')
    (h : Steps P s s') (hs : I s.world.db) : I s'.world.db := by
  refine (h.tables (fun q w a w' hact hw => ?_) hs).1
  rcases act_exec hact with hsame | ⟨t, now, r, _, hexec⟩
  · rw [hsame]
    exact hw
  · exact hI t now r _ _ hexec hw

end Runs

/-! ## A small journal -/

namespace Sample

/-- Decoders that know one value of each type. -/
def primitives : Primitives where
  sha256 := id
  b256 _ := some 0
  address _ := some 0
  u256 _ := some 0
  addressText _ := "0x"
  signature _ := some 0
  signatureText _ := ""
  userOp _ := none

def world : World where
  db := (Database.initial "d" "run" none).recoverFinish
  redis := ⟨"run", "master", fun k =>
    if k = "engine:recovery:checkpoint" then some "v3:d:1:0" else none⟩
  failed := false
  up := false

def key : String := "evm:1:0x0000000000000000000000000000000000000001:0"

def opened : State := State.after primitives none (.initial world) (.openJournal none)

def admitted : State :=
  State.after primitives none opened (.reserveAdmission "eoa" "t1" "eoa\x00null" .null)

def sent : State := State.after primitives none admitted (.beforeBroadcast "eoa" "t1" key .null)

set_option maxRecDepth 4000 in
theorem opened_up : opened.world.up = true := by decide +kernel

set_option maxRecDepth 4000 in
theorem admitted_up : admitted.world.up = true := by decide +kernel

theorem founded : Founded world.db := .released "d" "run" none

theorem opened_steps : Steps primitives (.initial world) opened := Steps.call _ _ rfl rfl

theorem admitted_steps : Steps primitives (.initial world) admitted :=
  opened_steps.trans (Steps.call _ _ rfl opened_up)

theorem sent_steps : Steps primitives (.initial world) sent :=
  admitted_steps.trans (Steps.call _ _ rfl admitted_up)

set_option maxRecDepth 4000 in
theorem sent_record : ∃ l w,
    (⟨.beforeBroadcast "eoa" "t1" key .null, l, .ok (), w⟩ : Record) ∈ sent.records :=
  ⟨_, _, Service.State.mem_after (by decide +kernel)⟩

end Sample

end EngineCore.Recovery
