import EngineCore.Recovery.Continuity
import EngineCore.Recovery.States

/-!
# What a successful call has established

A call passes the health check, commits its transaction, and mirrors the change before it returns.

* **`promise_of_record`**: every finished call in every reachable state has kept its promise.
-/

namespace EngineCore.Recovery

open Interact
open Except (bind_ok pure_ok)

variable {P : Primitives}

/-! ## Gated transactions -/

/-- In the log, `t` took the tables from `db₀` to `db₁` and returned `r`. -/
def Ran (P : Primitives) (l : Log) (t : Tx) (r : t.Result) (db₀ db₁ : Database) : Prop :=
  ∃ now w₀, w₀.db = db₀ ∧ ⟨.sql t, .ok r, w₀, { w₀ with db := db₁ }⟩ ∈ l ∧
    t.exec P now db₀ = .ok (r, db₁)

theorem Ran.mono {l l' : Log} {t : Tx} {r : t.Result} {db₀ db₁ : Database}
    (h : Ran P l t r db₀ db₁) (hl : l <+: l') : Ran P l' t r db₀ db₁ := by
  obtain ⟨now, w₀, hw₀, hmem, hexec⟩ := h
  exact ⟨now, w₀, hw₀, hl.subset hmem, hexec⟩

theorem Confirmed.mono {l l' : Log} {db : Database} (h : Confirmed l db) (hl : l <+: l') :
    Confirmed l' db := by
  obtain ⟨hno, seen, ⟨e, he, hrest⟩, hshows⟩ := h
  exact ⟨hno, seen, ⟨e, hl.subset he, hrest⟩, hshows⟩

/-- The transaction ran on a ledger that was not halted and had no change pending; the tables `db`
are those it left, with its change acknowledged, and Redis was seen to agree with them. -/
structure Gated (P : Primitives) (l : Log) (t : Tx) (r : t.Result) (db₀ db₁ db : Database) :
    Prop where
  ran : Ran P l t r db₀ db₁
  running : db₀.control.halted = false
  settled : db₀.NoPending
  tables : db = db₁.acked
  confirmed : Confirmed l db

theorem acked_projected {db : Database} (h : db.Projected) : db.acked.Projected := by
  refine ⟨h.schema, fun h₁ => ?_, fun h₁ => ?_, ?_, ?_, h.solana⟩
  · simp [Database.acked, h.first h₁]
  · obtain ⟨rows, hrows⟩ := h.later h₁
    exact ⟨[], by simp [Database.acked, hrows]⟩
  · intro rows hrows
    simp [acked_noPending db rows hrows]
  · intro rows hrows p hp
    simp [acked_noPending db rows hrows] at hp

section Specs

variable {α : Type} {l : Log} {w : World}

theorem gated_spec {t : Tx} {f : t.Result → Journal α} {K : α → Log → World → Prop}
    (ht : t.offline = false) (hl : Clean l) (hdb : w.db.Projected)
    (hf : ∀ r l' w' db₀, Clean l' → Ran P l' t r db₀ w'.db → db₀.control.halted = false →
      Confirmed l' db₀ → w'.db.Projected → Spec P (f r) l' w' K) :
    Spec P (do let _ ← Journal.healthyLocked; let r ← Journal.commit t; f r) l w K := by
  refine (healthyLocked_spec hl hdb).seq fun c l₁ w₁ hl₁ h₁ => ?_
  obtain ⟨rfl, hhalt, hw₁, hconf⟩ := h₁
  have hdb₁ : w₁.db.Projected := hw₁ ▸ acked_projected hdb
  refine (commit_spec (K := fun r l' w' => Ran P l' t r w₁.db w'.db ∧ Confirmed l' w₁.db ∧
    w'.db.Projected) ht hl₁ ?_).seq fun r l₂ w₂ hl₂ h₂ => ?_
  · intro w₀ now a db' henv hexec _
    have hw₀ : w₀.db = w₁.db := henv.1
    refine ⟨⟨now, w₀, hw₀, List.mem_append_right _ (List.mem_singleton_self _), hw₀ ▸ hexec⟩,
      hconf.mono (List.prefix_append _ _), ?_⟩
    exact (Tx.exec_commit hexec).projected (hw₀ ▸ hdb₁)
  · exact hf r l₂ w₂ w₁.db hl₂ h₂.1 hhalt h₂.2.1 h₂.2.2

theorem mirrorGated_spec {t : Tx} {r : t.Result} {db₀ : Database} {o : Option Control}
    (hl : Clean l) (hran : Ran P l t r db₀ w.db) (hhalt : db₀.control.halted = false)
    (hconf : Confirmed l db₀) (hdb : w.db.Projected) (hnone : o = none → w.db = db₀) :
    Spec P (Journal.mirrorChange o) l w fun _ l' w' => Gated P l' t r db₀ w.db w'.db := by
  cases o with
  | none =>
    have hw : w.db = db₀ := hnone rfl
    have hconf' : Confirmed l w.db := hw ▸ hconf
    exact .ret hl ⟨hran, hhalt, hconf.1, (acked_of_noPending hconf'.1).symm, hconf'⟩
  | some c =>
    refine (mirror_spec hl hdb).grow.mono ?_
    rintro _ l' w' _ ⟨⟨hw', hconf'⟩, hpre⟩
    exact ⟨hran.mono hpre, hhalt, hconf.1, hw', hconf'⟩

end Specs

/-! ## What each call establishes -/

def Call.repairs : Call → Bool
  | .reattach _ | .recover _ => true
  | _ => false

/-- The call succeeds only on a ledger that is not halted. -/
def Call.grants : Call → Bool
  | .quarantine | .reattach _ | .recover _ => false
  | _ => true

/-- What a call has established when it succeeds, at its log and the tables at its return. -/
def Granted (P : Primitives) : (c : Call) → c.Value → Log → Database → Prop
  | .ensureHealthy, _, l, db => db.control.halted = false ∧ Confirmed l db
  | .reserveAdmission kind id fingerprint payload, r, l, db =>
    ∃ k encoded old db₀ db₁, identity kind id = .ok k ∧
      admissionFingerprint P k payload = .ok fingerprint ∧ canonical payload = .ok encoded ∧
      Gated P l (.reserve k id fingerprint payload encoded) (r, old) db₀ db₁ db
  | .validateReplayBinding kind id key, _, l, db =>
    ∃ k, identity kind id = .ok k ∧ validateReplayKey k key = .ok () ∧
      db.control.halted = false ∧ Confirmed l db ∧ db.replayBinding k id key = .ok ()
  | .beforeBroadcast kind id key attempt, _, l, db =>
    ∃ k encoded old db₀ db₁, identity kind id = .ok k ∧ validateReplayKey k key = .ok () ∧
      canonical attempt = .ok encoded ∧
      Gated P l (.broadcast k id key (digestOf P encoded) encoded) old db₀ db₁ db
  | .recordTerminal kind id evidence, _, l, db =>
    ∃ k normalized encoded old db₀ db₁, identity kind id = .ok k ∧
      terminalIdentity evidence = .ok normalized ∧ canonical evidence = .ok encoded ∧
      Gated P l (.terminal k id evidence normalized encoded) (old, false) db₀ db₁ db
  | .prepareSolanaRestore id expected, r, l, db =>
    ∃ old db₀ db₁, Gated P l (.prepareRestore id expected) (r, old) db₀ db₁ db
  | .beforeSolanaRecoveryBroadcast id expected attempt, r, l, db =>
    ∃ old db₀ db₁, Gated P l (.claimBroadcast id expected attempt) (r, old) db₀ db₁ db
  | .commitCheckpoint chainId expected evidence, r, l, db =>
    ∃ old db₀ db₁, Gated P l (.commitCheckpoint (toString chainId) expected evidence)
      (r, old, false) db₀ db₁ db
  | .haltChain chainId, _, l, db =>
    ∃ old db₀ db₁, Gated P l (.haltChain (toString chainId)) old db₀ db₁ db
  | .openJournal _, c, l, db =>
    c = db.control ∧ db.control.halted = false ∧ db.control.schema = schemaVersion ∧
      Confirmed l db
  | .quarantine, _, _, db => db.control.halted = true
  | .reattach _, _, _, db | .recover _, _, _, db => ¬db.TerminalConflict

section Calls

variable {w : World}

section

variable (hdb : w.db.Projected)

include hdb

theorem ensureHealthy_spec :
    Spec P Journal.ensureHealthy [] w fun a l w' => Granted P .ensureHealthy a l w'.db := by
  refine (healthyLocked_spec .nil hdb).seq fun c l w' hl h => .ret hl ?_
  obtain ⟨rfl, hhalt, _, hconf⟩ := h
  exact ⟨hhalt, hconf⟩

theorem reserveAdmission_spec (kind id fingerprint : String) (payload : Json) :
    Spec P (Journal.reserveAdmission P kind id fingerprint payload) [] w fun a l w' =>
      Granted P (.reserveAdmission kind id fingerprint payload) a l w'.db := by
  refine .check .nil fun k hk => .check .nil fun f hf => .check .nil fun _ heq => ?_
  obtain rfl : f = fingerprint := by simpa using heq
  refine .check .nil fun e he => ?_
  refine gated_spec rfl .nil hdb fun x l w₁ db₀ hl hran hhalt hconf hdb₁ => ?_
  obtain ⟨r, old⟩ := x
  refine (mirrorGated_spec hl hran hhalt hconf hdb₁ ?_).seq fun _ l₂ w₂ hl₂ hg => ?_
  · rintro rfl
    obtain ⟨now, w₀, _, _, hexec⟩ := hran
    rcases reserve_ok hexec with ⟨_, _, _, _, _, _, _, h⟩ | ⟨_, _, h, _⟩
    · exact h
    · cases h
  · exact .ret hl₂ ⟨k, e, old, db₀, w₁.db, hk, hf, he, hg⟩

theorem validateReplayBinding_spec (kind id key : String) :
    Spec P (Journal.validateReplayBinding kind id key) [] w fun a l w' =>
      Granted P (.validateReplayBinding kind id key) a l w'.db := by
  refine .check .nil fun k hk => .check .nil fun _ hkey => ?_
  refine (healthyLocked_spec .nil hdb).seq fun c l w₁ hl h₁ => ?_
  obtain ⟨rfl, hhalt, _, hconf⟩ := h₁
  refine sql_spec rfl hl fun w₀ now a db' henv hexec _ => ?_
  obtain ⟨hbind, rfl⟩ := reading_ok hexec
  have hw₀ : w₀.db = w₁.db := henv.1
  rw [hw₀] at hbind ⊢
  exact ⟨k, hk, hkey, hhalt, hconf.mono (List.prefix_append _ _), hbind⟩

theorem beforeBroadcast_spec (kind id key : String) (attempt : Json) :
    Spec P (Journal.beforeBroadcast P kind id key attempt) [] w fun a l w' =>
      Granted P (.beforeBroadcast kind id key attempt) a l w'.db := by
  refine .check .nil fun k hk => .check .nil fun _ hkey => .check .nil fun e he => ?_
  refine gated_spec rfl .nil hdb fun old l w₁ db₀ hl hran hhalt hconf hdb₁ => ?_
  refine (mirrorGated_spec hl hran hhalt hconf hdb₁ ?_).mono fun _ l₂ w₂ _ hg => ?_
  · rintro rfl
    obtain ⟨now, w₀, _, _, hexec⟩ := hran
    obtain ⟨_, _, _, _, _, _, _, ⟨_, h, _⟩ | ⟨h, _⟩⟩ := broadcast_ok hexec
    · exact h
    · cases h
  · exact ⟨k, e, old, db₀, w₁.db, hk, hkey, he, hg⟩

theorem recordTerminal_spec (kind id : String) (evidence : Json) :
    Spec P (Journal.recordTerminal kind id evidence) [] w fun a l w' =>
      Granted P (.recordTerminal kind id evidence) a l w'.db := by
  refine .check .nil fun k hk => .check .nil fun n hn => .check .nil fun e he => ?_
  refine gated_spec rfl .nil hdb fun x l w₁ db₀ hl hran hhalt hconf hdb₁ => ?_
  obtain ⟨old, conflict⟩ := x
  cases conflict with
  | true =>
    refine Spec.seq (M := fun _ _ _ => True) (.blind rfl hl (fun _ _ _ => rfl) ?_)
      fun _ l₂ w₂ hl₂ _ => .fail (.inl hl₂)
    exact fun _ _ _ _ _ => trivial
  | false =>
    refine (mirrorGated_spec hl hran hhalt hconf hdb₁ ?_).mono fun _ l₂ w₂ _ hg => ?_
    · rintro rfl
      obtain ⟨now, w₀, _, _, hexec⟩ := hran
      obtain ⟨_, _, _, _, ⟨_, _, _, _, _, _, ⟨_, _, h⟩ | ⟨_, h, _⟩⟩ | ⟨_, h, _⟩⟩ := terminal_ok hexec
      · exact h
      · cases h
      · cases h
    · exact ⟨k, n, e, old, db₀, w₁.db, hk, hn, he, hg⟩

theorem prepareSolanaRestore_spec (id : String) (expected : Json) :
    Spec P (Journal.prepareSolanaRestore id expected) [] w fun a l w' =>
      Granted P (.prepareSolanaRestore id expected) a l w'.db := by
  refine .check .nil fun _ _ => ?_
  refine gated_spec rfl .nil hdb fun x l w₁ db₀ hl hran hhalt hconf hdb₁ => ?_
  obtain ⟨r, old⟩ := x
  refine (mirrorGated_spec hl hran hhalt hconf hdb₁ ?_).seq fun _ l₂ w₂ hl₂ hg => ?_
  · rintro rfl
    obtain ⟨now, w₀, _, _, hexec⟩ := hran
    rcases prepareRestore_ok hexec with ⟨_, _, _, h⟩ | ⟨_, _, _, ⟨_, _, h⟩ | ⟨_, h, _⟩⟩
    · exact h
    · exact h
    · cases h
  · exact .ret hl₂ ⟨old, db₀, w₁.db, hg⟩

theorem beforeSolanaRecoveryBroadcast_spec (id : String) (expected attempt : Json) :
    Spec P (Journal.beforeSolanaRecoveryBroadcast id expected attempt) [] w fun a l w' =>
      Granted P (.beforeSolanaRecoveryBroadcast id expected attempt) a l w'.db := by
  refine .check .nil fun _ _ => ?_
  refine gated_spec rfl .nil hdb fun x l w₁ db₀ hl hran hhalt hconf hdb₁ => ?_
  obtain ⟨r, old⟩ := x
  refine (mirrorGated_spec hl hran hhalt hconf hdb₁ ?_).seq fun _ l₂ w₂ hl₂ hg => ?_
  · rintro rfl
    obtain ⟨now, w₀, _, _, hexec⟩ := hran
    obtain ⟨_, _, _, _, _, _, _, ⟨_, _, h⟩ | ⟨_, _, _, _, _, h, _⟩⟩ := claimBroadcast_ok hexec
    · exact h
    · cases h
  · exact .ret hl₂ ⟨old, db₀, w₁.db, hg⟩

theorem commitCheckpoint_spec (chainId : ℕ)
    (expected : Option FinalityEvidence) (evidence : FinalityEvidence) :
    Spec P (Journal.commitCheckpoint chainId expected evidence) [] w fun a l w' =>
      Granted P (.commitCheckpoint chainId expected evidence) a l w'.db := by
  refine gated_spec rfl .nil hdb
    fun x l w₁ db₀ hl hran hhalt hconf hdb₁ => ?_
  obtain ⟨accepted, old, conflict⟩ := x
  refine (mirrorGated_spec hl hran hhalt hconf hdb₁ ?_).seq fun _ l₂ w₂ hl₂ hg => ?_
  · rintro rfl
    obtain ⟨now, w₀, _, _, hexec⟩ := hran
    obtain ⟨_, ⟨_, _, _, h⟩ | ⟨_, _, _, h, _⟩ | ⟨_, h, _⟩ | ⟨_, _, ⟨_, h⟩, _⟩⟩ :=
      commitCheckpoint_ok hexec
    · exact h
    · exact h
    · cases h
    · cases h
  · refine .check hl₂ fun _ hconflict => .ret hl₂ ?_
    obtain rfl : conflict = false := by simpa using hconflict
    exact ⟨old, db₀, w₁.db, hg⟩

theorem haltChain_spec (chainId : ℕ) : Spec P (Journal.haltChain chainId) [] w fun a l w' =>
      Granted P (.haltChain chainId) a l w'.db := by
  refine gated_spec rfl .nil hdb fun old l w₁ db₀ hl hran hhalt hconf hdb₁ => ?_
  refine (mirrorGated_spec (o := some old) hl hran hhalt hconf hdb₁ (by simp)).mono ?_
  exact fun _ l₂ w₂ _ hg => ⟨old, db₀, w₁.db, hg⟩

theorem openJournal_spec (ns : Option String) :
    Spec P (Journal.openJournal ns) [] w fun a l w' => Granted P (.openJournal ns) a l w'.db := by
  refine .check .nil fun _ _ => ?_
  refine (sql_spec (t := .control) (K := fun _ _ w' => w'.db = w.db) rfl .nil ?_).seq
    fun c l₁ w₁ hl₁ hw₁ => .check hl₁ fun _ _ => ?_
  · intro w₀ now a db' henv hexec _
    obtain ⟨_, rfl⟩ := reading_ok hexec
    exact henv.1
  refine (commit_spec (t := .validateSchema) (K := fun _ _ w' => w'.db = w.db) rfl hl₁ ?_).seq
    fun _ l₂ w₂ hl₂ hw₂ => ?_
  · intro w₀ now a db' henv hexec _
    obtain ⟨_, rfl⟩ := reading_ok hexec
    exact henv.1.trans hw₁
  refine (healthyLocked_spec hl₂ (hw₂ ▸ hdb)).seq fun _ l₃ w₃ hl₃ h₃ => ?_
  have hdb₃ : w₃.db.Projected := h₃.2.2.1 ▸ acked_projected (hw₂ ▸ hdb)
  refine (sql_spec (t := .historyIndexes) (K := fun _ _ w' => w'.db = w₃.db) rfl hl₃ ?_).seq
    fun _ l₄ w₄ hl₄ hw₄ => ?_
  · intro w₀ now a db' henv hexec _
    obtain ⟨_, rfl⟩ := reading_ok hexec
    exact henv.1
  refine (healthyLocked_spec hl₄ (hw₄ ▸ hdb₃)).seq fun c l₅ w₅ hl₅ h₅ => ?_
  obtain ⟨rfl, hhalt, hw₅, hconf⟩ := h₅
  have hdb₅ : w₅.db.Projected := hw₅ ▸ acked_projected (hw₄ ▸ hdb₃)
  unfold Journal.migrateLegacy
  split_ifs with hschema
  · refine (commit_spec (t := .migrate) (K := fun _ _ w' => w'.db.Projected ∧
      w'.db.control.schema = schemaVersion) rfl hl₅ ?_).seq fun _ l₆ w₆ hl₆ h₆ => ?_
    · intro w₀ now a db' henv hexec _
      have hw₀ : w₀.db = w₅.db := henv.1
      refine ⟨(Tx.exec_commit hexec).projected (hw₀ ▸ hdb₅), ?_⟩
      rcases migrate_ok (writing_ok hexec) with ⟨h, rfl⟩ | ⟨_, _, _, rfl⟩
      · exact h
      · rfl
    · refine (healthyLocked_spec hl₆ h₆.1).mono ?_
      rintro _ l₇ w₇ _ ⟨rfl, hhalt₇, hw₇, hconf₇⟩
      refine ⟨rfl, hhalt₇, ?_, hconf₇⟩
      rw [hw₇]
      exact h₆.2
  · refine .ret hl₅ ⟨rfl, hhalt, ?_, hconf⟩
    have hmem := hdb₅.schema
    simp only [List.mem_cons, List.not_mem_nil, or_false, schemaVersion] at hmem hschema ⊢
    omega

end

theorem quarantine_spec : Spec P Journal.quarantine [] w fun a l w' =>
    Granted P .quarantine a l w'.db := by
  refine sql_spec rfl .nil fun w₀ now a db' henv hexec _ => ?_
  have h := writing_ok hexec
  simp only [Database.quarantine, bind_ok, pure_ok] at h
  obtain ⟨_, _, rfl⟩ := h
  rfl

end Calls

/-! ## Calls that repair a halted ledger -/

/-- From tables without contradictory evidence, every step of `x` starts and ends in such. -/
def Quiet (P : Primitives) {α : Type} (x : Journal α) : Prop :=
  ∀ l w, ¬w.db.TerminalConflict →
    Sat (machine P) (fun w _ => ¬w.db.TerminalConflict) (fun _ _ w => ¬w.db.TerminalConflict)
      x.run l w

section Repairs

variable {α β : Type} {w : World}

theorem Quiet.seq {x : Journal β} {f : β → Journal α} (hx : Quiet P x) (hf : ∀ b, Quiet P (f b)) :
    Quiet P (x >>= f) := by
  intro l w hw
  refine (sat_run_bind x f).mpr ((hx l w hw).post_mono ?_)
  rintro (e | b) l' w' h
  · exact h
  · exact hf b l' w' h

theorem Quiet.lift (r : Result α) : Quiet P (Journal.lift r) := fun _ _ hw => hw

theorem Quiet.query {q : Query}
    (hq : ∀ w a w', act P q w a w' → w'.db.evidence = w.db.evidence) :
    Quiet P (Journal.query q) := by
  intro l w hw w₁ henv a w₂ hact
  have hw₁ : ¬w₁.db.TerminalConflict := by
    rw [terminalConflict_congr (congrArg Database.evidence henv.1)]
    exact hw
  refine ⟨hw₁, ?_⟩
  change ¬w₂.db.TerminalConflict
  rw [terminalConflict_congr (hq w₁ a w₂ hact)]
  exact hw₁

theorem Quiet.sql {t : Tx}
    (ht : ∀ now db r db', t.exec P now db = .ok (r, db') → db'.evidence = db.evidence) :
    Quiet P (Journal.sql t) := by
  intro l w hw w₁ henv a w₂ (hact : Submitted P t w₁ a w₂)
  refine Quiet.query (q := .sql t) ?_ l w hw w₁ henv a w₂ hact
  rintro w a w' (⟨now, r, db, hexec, _, rfl⟩ | ⟨_, _, _, _, rfl⟩ | ⟨_, rfl⟩)
  · exact ht now w.db r db hexec
  · rfl
  · rfl

theorem Quiet.observed (key : String) : Quiet P (Journal.observed key) := by
  refine .seq (.query ?_) fun seen => .lift _
  rintro w a w' ⟨_, rfl⟩
  rfl

theorem Quiet.status : Quiet P (Journal.sql .status) := by
  refine .sql fun now db r db' hexec => ?_
  obtain ⟨_, rfl⟩ := reading_ok hexec
  rfl

/-- What a step of a repairing call may do to the halt. -/
def Repairs (w w' : World) : Prop := Online w.db w'.db ∨ ¬w.db.TerminalConflict

/-- What a repairing call owes: a success leaves no contradictory evidence. -/
def Repaired {α : Type} (r : Result α) (_ : Log) (w : World) : Prop :=
  ∀ a, r = .ok a → ¬w.db.TerminalConflict

theorem quiet_after {t : Tx} {f : t.Result → Journal α} (ht : t.offline = false)
    (hread : ∀ now r db', t.exec P now w.db = .ok (r, db') →
      db' = w.db ∧ ¬w.db.TerminalConflict)
    (hf : ∀ r, Quiet P (f r)) (l : Log) :
    Sat (machine P) Repairs Repaired (Journal.sql t >>= f).run l w := by
  refine (sat_run_bind _ _).mpr ?_
  intro w₁ henv a w₂ (hact : Submitted P t w₁ a w₂)
  have hw₁ : w₁.db = w.db := henv.1
  have hcommit : Commit P false w₁.db w₂.db := ht ▸ act_commit (q := .sql t) hact
  refine ⟨.inl hcommit.online, ?_⟩
  rcases hact with ⟨now, r, db, hexec, rfl, rfl⟩ | ⟨_, e, _, rfl, rfl⟩ | ⟨rfl, rfl⟩
  · obtain ⟨rfl, hno⟩ := hread now r db (hw₁ ▸ hexec)
    change Sat (machine P) Repairs Repaired (f r).run _ _
    refine Sat.mono (hf r _ _ hno) ?_ ?_
    · exact fun _ _ h => .inr h
    · exact fun _ _ _ h _ _ => h
  · rintro _ ⟨⟩
  · rintro _ ⟨⟩

theorem reattach_spec (hdb : w.db.Witnessed) (ns : Option String) :
    Sat (machine P) Repairs Repaired (Journal.reattach ns).run [] w := by
  refine quiet_after (t := .reattachState ns) rfl ?_ (fun x => ?_) []
  · rintro now ⟨c, pending⟩ db' hexec
    obtain ⟨hstate, rfl⟩ := reading_ok hexec
    refine ⟨rfl, fun hconf => ?_⟩
    simp only [Database.reattachState, bind_ok, readControl_ok, refuse_ok, pure_ok, exists_const,
      not_and, not_not, Prod.mk.injEq] at hstate
    obtain ⟨_, ⟨_, rfl⟩, _, _, _, _, _, hclear, _⟩ := hstate
    obtain ⟨hhalt, hreason⟩ := hdb.conflict hconf
    have := hclear hhalt
    simp [clearable, hreason] at this
  · obtain ⟨c, pending⟩ := x
    refine .seq (.observed _) fun seen => .seq (.lift _) fun _ => .seq (.sql ?_) fun _ => ?_
    · intro now db r db' hexec
      obtain ⟨_, _, rows, _, rfl⟩ := reattachCommit_ok (writing_ok hexec)
      rfl
    refine .seq (.query ?_) fun again => ?_
    · rintro w a w' ⟨_, rfl⟩
      rfl
    split
    · refine .seq (.sql ?_) fun _ => .lift (.error _)
      intro now db r db' hexec
      obtain rfl := Except.ok.inj (writing_ok hexec)
      rfl
    · exact .status

theorem check_then {r : Result β} {f : β → Journal α} {l : Log}
    (h : ∀ b, Sat (machine P) Repairs Repaired (f b).run l w) :
    Sat (machine P) Repairs Repaired (Journal.lift r >>= f).run l w := by
  cases r with
  | error e => rintro _ ⟨⟩
  | ok b => exact h b

theorem Quiet.emptyNamespace (ns : Option String) : Quiet P (Journal.emptyNamespace ns) := by
  refine .seq (.lift _) fun _ => .seq (.query fun w a w' h => ?_) fun empty => ?_
  · rw [show w' = w from h]
  · split
    · exact .lift (.ok _)
    · exact .lift (.error _)
    · exact .lift (.error _)

theorem Quiet.claimMarker (c : Control) : Quiet P (Journal.claimMarker c) := by
  refine .seq (.query fun w a w' h => ?_) fun set => ?_
  · rcases h with ⟨_, rfl⟩ | ⟨_, rfl⟩ | ⟨_, rfl⟩ <;> rfl
  · split
    · exact .lift (.ok _)
    · exact .lift (.error _)
    · exact .lift (.error _)

theorem recover_spec (ns : Option String) :
    Sat (machine P) Repairs Repaired (Journal.recover ns).run [] w := by
  refine check_then fun _ => check_then fun _ => ?_
  refine quiet_after (t := .recoverState ns) rfl ?_ (fun old => ?_) []
  · intro now c db' hexec
    obtain ⟨hstate, rfl⟩ := reading_ok hexec
    simp only [Database.recoverState, bind_ok, refuse_ok, exists_const] at hstate
    obtain ⟨_, _, _, _, hno, _⟩ := hstate
    exact ⟨rfl, hno⟩
  · refine .seq (.emptyNamespace ns) fun _ => .seq (.observed _) fun seen => .seq (.lift _)
      fun _ => .seq (.sql ?_) fun _ => .seq (.sql ?_) fun c => .seq (.claimMarker c)
      fun _ => .seq (.observed _) fun now => .seq (.lift _) fun _ => .seq (.sql ?_) fun _ => .status
    · intro now db r db' hexec
      obtain ⟨_, rfl⟩ := recoverCommit_ok (writing_ok hexec)
      rfl
    · intro now db r db' hexec
      obtain ⟨_, rfl⟩ := reading_ok hexec
      rfl
    · intro now db r db' hexec
      obtain rfl := Except.ok.inj (writing_ok hexec)
      rfl

end Repairs

/-! ## Every finished call -/

/-- What a finished call owes: a success grants what the call is for, and unless the call repairs,
a bad sight of Redis means a failure behind the fence. -/
def Promise (P : Primitives) (c : Call) (r : Result c.Value) (l : Log) (w : World) : Prop :=
  (∀ a, r = .ok a → Granted P c a l w.db) ∧
    (c.repairs = false → Outcome (fun _ _ _ => True) r l w)

/-- What a step of a call may do to the halt. -/
def Allowed (c : Call) (w w' : World) : Prop :=
  Online w.db w'.db ∨ c.repairs = true ∧ ¬w.db.TerminalConflict

/-- The invariants of the tables, together. -/
structure Database.Sound (db : Database) : Prop where
  intact : db.Intact
  witnessed : db.Witnessed
  projected : db.Projected

theorem Founded.sound {db : Database} (h : Founded db) : db.Sound :=
  ⟨h.intact, h.witnessed, h.projected⟩

theorem Commit.sound {o : Bool} {db db' : Database} (hc : Commit P o db db') (h : db.Sound)
    (hhalt : Online db db' ∨ ¬db.TerminalConflict) : db'.Sound :=
  ⟨hc.intact h.intact, hc.witnessed h.intact h.witnessed hhalt, hc.projected h.projected⟩

theorem Spec.promise {c : Call} {w : World}
    (h : Spec P (c.body P) [] w fun a l w' => Granted P c a l w'.db) :
    Sat (machine P) (Allowed c) (Promise P c) (c.body P).run [] w := by
  refine Sat.mono h (fun _ _ hon => .inl hon) ?_
  rintro (e | a) l w' hout
  · exact ⟨by rintro _ ⟨⟩, fun _ => hout⟩
  · refine ⟨?_, fun _ => ⟨hout.1, trivial⟩⟩
    rintro _ ⟨⟩
    exact hout.2

theorem repaired_promise {c : Call} {w : World} (hc : c.repairs = true)
    (hgrant : ∀ a l db, ¬db.TerminalConflict → Granted P c a l db)
    (h : Sat (machine P) Repairs Repaired (c.body P).run [] w) :
    Sat (machine P) (Allowed c) (Promise P c) (c.body P).run [] w := by
  refine Sat.mono h (fun _ _ hrep => hrep.imp id fun hno => ⟨hc, hno⟩) fun r l w' hout => ?_
  exact ⟨fun a ha => hgrant a l _ (hout a ha), fun hno => by simp [hc] at hno⟩

/-- **Every call keeps its promise**, from every sound ledger. -/
theorem body_promise (c : Call) {w : World} (hw : w.db.Sound) :
    Sat (machine P) (Allowed c) (Promise P c) (c.body P).run [] w := by
  have hproj := hw.projected
  cases c with
  | ensureHealthy => exact (ensureHealthy_spec hproj).promise
  | reserveAdmission kind id fingerprint payload =>
    exact (reserveAdmission_spec hproj kind id fingerprint payload).promise
  | validateReplayBinding kind id key =>
    exact (validateReplayBinding_spec hproj kind id key).promise
  | beforeBroadcast kind id key attempt =>
    exact (beforeBroadcast_spec hproj kind id key attempt).promise
  | recordTerminal kind id evidence => exact (recordTerminal_spec hproj kind id evidence).promise
  | prepareSolanaRestore id expected =>
    exact (prepareSolanaRestore_spec hproj id expected).promise
  | beforeSolanaRecoveryBroadcast id expected attempt =>
    exact (beforeSolanaRecoveryBroadcast_spec hproj id expected attempt).promise
  | commitCheckpoint chainId expected evidence =>
    exact (commitCheckpoint_spec hproj chainId expected evidence).promise
  | haltChain chainId => exact (haltChain_spec hproj chainId).promise
  | openJournal ns => exact (openJournal_spec hproj ns).promise
  | quarantine => exact quarantine_spec.promise
  | reattach ns => exact repaired_promise rfl (fun _ _ _ h => h) (reattach_spec hw.witnessed ns)
  | recover ns => exact repaired_promise rfl (fun _ _ _ h => h) (recover_spec ns)

theorem service_sound :
    (service P).Sound (fun w => w.db.Sound) Allowed (Promise P) where
  refl _ := ⟨rfl, rfl, rfl⟩
  trans _ _ _ h h' := ⟨h'.1.trans h.1, h'.2.1.trans h.2.1, h'.2.2.trans h.2.2⟩
  stable c r l w w' henv h := by
    have hdb : w'.db = w.db := henv.1
    unfold Promise at h ⊢
    cases r <;> simpa [Outcome, hdb] using h
  env w w' hw henv := by
    have hdb : w'.db = w.db := henv.1
    rw [hdb]
    exact hw
  act c q w a w' hw hact hallow := (act_commit hact).sound hw (hallow.imp id And.right)
  settle c r l w hw _ := by
    change (c.settle r w).db.Sound
    rw [settle_db]
    exact hw
  reboot w hw := hw
  body c w hw _ := body_promise c hw

/-- **Every reachable state** has sound tables, and every finished call has kept its promise. -/
theorem Steps.holds {w : World} {s : State} (hfound : Founded w.db) (h : Steps P (.initial w) s) :
    (service P).Holds (fun w => w.db.Sound) Allowed (Promise P) s :=
  service_sound.initial hfound.sound h

theorem promise_of_record {w : World} {s : State} (hfound : Founded w.db)
    (h : Steps P (.initial w) s) {r : Record} (hr : r ∈ s.records) :
    Promise P r.call r.result r.log r.world :=
  (h.holds hfound).records r hr

/-! ## The meaning of a grant -/

theorem Gated.broadcast {l : Log} {k : Kind} {id key digest : String} {encoded : Json}
    {old : Option Control} {db₀ db₁ db : Database}
    (h : Gated P l (.broadcast k id key digest encoded) old db₀ db₁ db) :
    ⟨id, key, digest, encoded⟩ ∈ db.attempts ∧
      (∃ record, db₀.lookup id = some record ∧ record.kind = k ∧ record.state = .admitted) ∧
      (k ≠ .solana → ∃ chain, chainOf key = some chain ∧ chain ∉ db₀.halts) := by
  obtain ⟨now, w₀, _, _, hexec⟩ := h.ran
  obtain ⟨record, hrec, hkind, hstate, hgate, _, _, hcase⟩ := broadcast_ok hexec
  refine ⟨?_, ⟨record, hrec, hkind, hstate⟩, fun hk => ?_⟩
  · rw [h.tables]
    rcases hcase with ⟨_, rfl, _, hmem⟩ | ⟨_, _, _, rfl⟩
    · exact hmem
    · exact List.mem_append_right _ (List.mem_singleton_self _)
  · simp only [Database.broadcastGate, if_neg hk, bind_ok, require_ok,
      Database.ensureChainNotHalted, refuse_ok] at hgate
    exact hgate

theorem Gated.reserve {l : Log} {k : Kind} {id fingerprint : String} {payload encoded : Json}
    {res : AdmissionReservation} {old : Option Control} {db₀ db₁ db : Database}
    (h : Gated P l (.reserve k id fingerprint payload encoded) (res, old) db₀ db₁ db) :
    ∃ record ∈ db.admissions, record.id = id ∧ record.kind = k ∧
      record.fingerprint = fingerprint ∧ record.state ≠ .quarantined ∧
      (record.payload = res.payload ∨ record.payload = encoded ∧ res.payload = payload) := by
  obtain ⟨now, w₀, _, _, hexec⟩ := h.ran
  rw [h.tables]
  rcases reserve_ok hexec with ⟨record, hrec, hk, hf, hq, rfl, _, rfl⟩ | ⟨_, rfl, _, _, rfl⟩
  · obtain ⟨hmem, hid⟩ := mem_of_lookup hrec
    exact ⟨record, hmem, hid, hk, hf, hq, .inl rfl⟩
  · exact ⟨_, List.mem_append_right _ (List.mem_singleton_self _), rfl, rfl, rfl, by simp,
      .inr ⟨rfl, rfl⟩⟩

theorem Gated.terminal {l : Log} {k : Kind} {id : String} {evidence normalized encoded : Json}
    {old : Option Control} {db₀ db₁ db : Database}
    (h : Gated P l (.terminal k id evidence normalized encoded) (old, false) db₀ db₁ db) :
    (∃ record ∈ db.admissions, record.id = id ∧ record.kind = k ∧ record.state = .terminal) ∧
      (⟨id, encoded⟩ ∈ db.evidence ∨
        ∃ first, db.firstEvidence id = some first ∧ terminalIdentity first = .ok normalized) := by
  obtain ⟨now, w₀, _, _, hexec⟩ := h.ran
  rw [h.tables]
  obtain ⟨record, hrec, hk, _, hcase⟩ := terminal_ok hexec
  obtain ⟨hmem, hid⟩ := mem_of_lookup hrec
  rcases hcase with ⟨hstate, first, was, hfirst, hwas, _, ⟨rfl, _, rfl⟩ | ⟨_, ⟨⟩, _⟩⟩ |
    ⟨_, _, _, _, rfl⟩
  · exact ⟨⟨record, hmem, hid, hk, hstate⟩, .inr ⟨first, hfirst, hwas⟩⟩
  · refine ⟨⟨record.close, ?_, hid, hk, rfl⟩, .inl ?_⟩
    · exact mem_updateAdmission.mpr (.inl ⟨record, hmem, hid, rfl⟩)
    · exact List.mem_append_right _ (List.mem_singleton_self _)

/-- **The meaning of a grant.** When a call has returned a success, whatever else has run, crashed
or been lost before: the row it is for stands in the tables at its return; the admission of a
broadcast was open and its chain not halted in the transaction that checked them; and within the
call, with exactly these tables and no pending record left, one atomic observation of Redis showed
the journal's current token on the recorded primary. -/
theorem grant_confirmed {w : World} {s : State} (hfound : Founded w.db)
    (h : Steps P (.initial w) s) :
    (∀ kind id key attempt l w',
      (⟨.beforeBroadcast kind id key attempt, l, .ok (), w'⟩ : Record) ∈ s.records →
      ∃ k encoded old db₀ db₁, identity kind id = .ok k ∧ canonical attempt = .ok encoded ∧
        ⟨id, key, digestOf P encoded, encoded⟩ ∈ w'.db.attempts ∧
        Ran P l (.broadcast k id key (digestOf P encoded) encoded) old db₀ db₁ ∧
        (∃ record, db₀.lookup id = some record ∧ record.kind = k ∧ record.state = .admitted) ∧
        (k ≠ .solana → ∃ chain, chainOf key = some chain ∧ chain ∉ db₀.halts) ∧
        Confirmed l w'.db) ∧
    (∀ kind id fingerprint payload res l w',
      (⟨.reserveAdmission kind id fingerprint payload, l, .ok res, w'⟩ : Record) ∈ s.records →
      ∃ k encoded, identity kind id = .ok k ∧ canonical payload = .ok encoded ∧
        admissionFingerprint P k payload = .ok fingerprint ∧
        (∃ record ∈ w'.db.admissions, record.id = id ∧ record.kind = k ∧
          record.fingerprint = fingerprint ∧ record.state ≠ .quarantined ∧
          (record.payload = res.payload ∨ record.payload = encoded ∧ res.payload = payload)) ∧
        Confirmed l w'.db) ∧
    (∀ kind id evidence l w',
      (⟨.recordTerminal kind id evidence, l, .ok (), w'⟩ : Record) ∈ s.records →
      ∃ k encoded, identity kind id = .ok k ∧ canonical evidence = .ok encoded ∧
        (∃ record ∈ w'.db.admissions, record.id = id ∧ record.kind = k ∧
          record.state = .terminal) ∧
        (⟨id, encoded⟩ ∈ w'.db.evidence ∨ ∃ first, w'.db.firstEvidence id = some first ∧
          terminalIdentity first = terminalIdentity evidence) ∧
        Confirmed l w'.db) := by
  refine ⟨?_, ?_, ?_⟩
  · intro kind id key attempt l w' hr
    obtain ⟨k, encoded, old, db₀, db₁, hk, _, henc, hg⟩ :=
      (promise_of_record hfound h hr).1 () rfl
    obtain ⟨hrow, hopen, hchain⟩ := hg.broadcast
    exact ⟨k, encoded, old, db₀, db₁, hk, henc, hrow, hg.ran, hopen, hchain, hg.confirmed⟩
  · intro kind id fingerprint payload res l w' hr
    obtain ⟨k, encoded, old, db₀, db₁, hk, hf, henc, hg⟩ :=
      (promise_of_record hfound h hr).1 res rfl
    exact ⟨k, encoded, hk, henc, hf, hg.reserve, hg.confirmed⟩
  · intro kind id evidence l w' hr
    obtain ⟨k, normalized, encoded, old, db₀, db₁, hk, hn, henc, hg⟩ :=
      (promise_of_record hfound h hr).1 () rfl
    obtain ⟨hterm, hev⟩ := hg.terminal
    exact ⟨k, encoded, hk, henc, hterm, hn ▸ hev, hg.confirmed⟩

theorem grant_confirmed_sent : ∃ encoded l, ∃ w' : World, canonical .null = .ok encoded ∧
    ⟨"t1", Sample.key, digestOf Sample.primitives encoded, encoded⟩ ∈ w'.db.attempts ∧
    Confirmed l w'.db := by
  obtain ⟨l, w', hr⟩ := Sample.sent_record
  obtain ⟨_, encoded, _, _, _, _, henc, hrow, _, _, _, hconf⟩ :=
    (grant_confirmed Sample.founded Sample.sent_steps).1 _ _ _ _ _ _ hr
  exact ⟨encoded, l, w', henc, hrow, hconf⟩

end EngineCore.Recovery
