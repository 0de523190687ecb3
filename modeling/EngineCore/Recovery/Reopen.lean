import EngineCore.Recovery.Grant

/-!
# Reopening after a crash

* **`healthyLocked_runs`**, **`openJournal_runs`**: from every such world the marker ends at the
  token, the pending record is gone, and the rows stay as they were committed;
* `Steps.lifted`: only a reattach or a recovery lifts a halt;
* **`projection_repair`**: tokens, repair and fence over every run.
-/

namespace EngineCore.Recovery

open Interact
open Except (bind_ok pure_ok)

variable {P : Primitives} {now : Option ℕ}

/-! ## Undisturbed programs -/

/-- Undisturbed, `x` returns a value in `w`, and `K` holds of it and of the world it leaves. -/
def Runs (P : Primitives) (now : Option ℕ) {α : Type} (x : Journal α) (w : World)
    (K : α → World → Prop) : Prop :=
  ∃ a w', x.run.exec (answer P now) w = (.ok a, w') ∧ K a w'
variable {db : Database}


section Rules

variable {α β : Type} {w : World} {K : α → World → Prop}

theorem Runs.seq {x : Journal β} {f : β → Journal α} {M : β → World → Prop}
    (hx : Runs P now x w M) (hf : ∀ b w', M b w' → Runs P now (f b) w' K) :
    Runs P now (x >>= f) w K := by
  obtain ⟨b, w₁, hexec, hb⟩ := hx
  obtain ⟨a, w₂, hexec', ha⟩ := hf b w₁ hb
  exact ⟨a, w₂, (exec_run_bind hexec).trans hexec', ha⟩

theorem Runs.mono {x : Journal α} {M : α → World → Prop} (hx : Runs P now x w M)
    (h : ∀ a w', M a w' → K a w') : Runs P now x w K := by
  obtain ⟨a, w', hexec, ha⟩ := hx
  exact ⟨a, w', hexec, h a w' ha⟩

theorem Runs.ret {a : α} (h : K a w) : Runs P now (pure a) w K := ⟨a, w, rfl, h⟩

theorem Runs.query {q : Query} {f : Answer q → Journal α}
    (h : Runs P now (f (answer P now q w).1) (answer P now q w).2 K) :
    Runs P now (Journal.query q >>= f) w K := by
  obtain ⟨a, w', hexec, ha⟩ := h
  exact ⟨a, w', (exec_run_bind rfl).trans hexec, ha⟩

theorem Runs.check {r : Result β} {b : β} {f : β → Journal α} (hr : r = .ok b)
    (h : Runs P now (f b) w K) : Runs P now (Journal.lift r >>= f) w K := by
  subst hr
  exact h

theorem answer_sql {t : Tx} {r : t.Result}
    (h : t.exec P now w.db = .ok (r, db)) :
    answer P now (.sql t) w = (.ok r, { w with db }) := by
  simp [answer, h]

theorem Runs.sql {t : Tx} {r : t.Result} {K : t.Result → World → Prop}
    (h : t.exec P now w.db = .ok (r, db)) (hK : K r { w with db }) :
    Runs P now (Journal.sql t) w K :=
  ⟨r, { w with db }, answer_sql h, hK⟩

theorem Runs.commit {t : Tx} {r : t.Result} {K : t.Result → World → Prop}
    (h : t.exec P now w.db = .ok (r, db)) (hK : K r { w with db }) :
    Runs P now (Journal.commit t) w K := by
  refine .query ?_
  rw [answer_sql h]
  exact .ret hK

end Rules

/-! ## The health check -/

/-- A health check succeeds here: the ledger runs, and Redis is the recorded primary and shows the
current token or the one before a pending change. -/
structure Healthy (w : World) : Prop where
  latch : w.failed = false
  running : w.db.control.halted = false
  projected : w.db.Projected
  role : w.redis.role = "master"
  run : w.redis.runId = w.db.control.runId
  marker : w.db.Expects (w.redis.value w.db.control.key)

/-- The pending change of `w` is completed in `w'`, and nothing else has happened. -/
structure Completed (w w' : World) : Prop where
  db : w'.db = w.db.acked
  latch : w'.failed = w.failed
  up : w'.up = w.up
  role : w'.redis.role = w.redis.role
  run : w'.redis.runId = w.redis.runId
  marker : w'.redis.value w.db.control.key = some w.db.control.token

theorem Completed.healthy {w w' : World} (h : Healthy w) (hc : Completed w w') : Healthy w' := by
  refine ⟨hc.latch.trans h.latch, ?_, ?_, hc.role.trans h.role, ?_, .inl ?_⟩
  · rw [hc.db]; exact h.running
  · rw [hc.db]; exact acked_projected h.projected
  · rw [hc.db]; exact hc.run.trans h.run
  · rw [hc.db]; exact hc.marker

theorem Completed.trans {w w' w'' : World} (h : Completed w w') (h' : Completed w' w'') :
    Completed w w'' := by
  have hdb : w''.db = w.db.acked := by
    rw [h'.db, h.db, acked_of_noPending (acked_noPending _)]
  refine ⟨hdb, h'.latch.trans h.latch, h'.up.trans h.up, h'.role.trans h.role, h'.run.trans h.run, ?_⟩
  have hm := h'.marker
  rw [h.db] at hm
  exact hm

theorem Database.Projected.load_eq (h : db.Projected) :
    ∃ o, db.load db.control = .ok o := by
  unfold Database.load
  by_cases hs : db.control.schema = 1
  · exact ⟨none, by rw [if_pos hs]; rfl⟩
  · obtain ⟨rows, hrows⟩ := h.later hs
    rw [if_neg hs, hrows]
    rcases rows with _ | ⟨p, rest⟩
    · exact ⟨none, rfl⟩
    · have hp := h.valid _ hrows p List.mem_cons_self
      exact ⟨some p, by simp [require, bind, Except.bind, PendingUpdate.validate, refuse, hp]⟩

theorem Database.Projected.readControl_eq (h : db.Projected) :
    db.readControl = .ok db.control :=
  readControl_ok.mpr ⟨h.schema, rfl⟩

section Health

variable {w : World}

theorem observeCheckpoint_runs (h : Healthy w) {o : Option PendingUpdate}
    (ho : w.redis.value w.db.control.key = some w.db.control.token ∨
      ∃ p, o = some p ∧ w.redis.value w.db.control.key = some p.previousToken) :
    Runs P now (Journal.observeCheckpoint w.db.control o) w fun _ w' => w' = w := by
  have hseen : ¬((w.redis.observe w.db.control.key).marker ≠ some w.db.control.token ∧
      ¬(o.any fun p => (w.redis.observe w.db.control.key).marker = some p.previousToken) = true) := by
    rintro ⟨hne, hany⟩
    rcases ho with hm | ⟨p, rfl, hm⟩
    · exact hne hm
    · exact hany (decide_eq_true hm)
  have hrole : (w.redis.observe w.db.control.key).role = "master" := h.role
  have hrun : (w.redis.observe w.db.control.key).runId = w.db.control.runId := h.run
  refine .query ?_
  dsimp only [answer]
  rw [if_neg hseen, if_neg (not_not.mpr hrole), if_neg (not_not.mpr hrun)]
  exact .ret rfl

theorem observeTarget_runs (h : Healthy w) {p : PendingUpdate} (hp : p.Valid w.db.control)
    (hmark : w.redis.value w.db.control.key = some w.db.control.token) :
    Runs P now (Journal.observeTarget w.db.control p) w fun _ w' => w' = w := by
  have hseen : (w.redis.observe w.db.control.key).marker = some p.targetToken := by
    rw [hp.target]
    exact hmark
  have hrole : (w.redis.observe w.db.control.key).role = "master" := h.role
  have hrun : (w.redis.observe w.db.control.key).runId = p.runId := h.run.trans hp.run.symm
  refine .query ?_
  dsimp only [answer]
  rw [if_neg (not_not.mpr hseen), if_neg (not_not.mpr hrole), if_neg (not_not.mpr hrun)]
  exact .ret rfl

theorem publish_expected {r : Redis} {key previous target : String}
    (h : r.value key = some target ∨ r.value key = some previous) :
    (r.publish key previous target).1 = true ∧
      (r.publish key previous target).2.value key = some target ∧
      (r.publish key previous target).2.role = r.role ∧
      (r.publish key previous target).2.runId = r.runId := by
  unfold Redis.publish
  by_cases ht : r.value key = some target
  · rw [if_pos ht]
    exact ⟨rfl, ht, rfl, rfl⟩
  · rw [if_neg ht, if_neg (not_not.mpr (h.resolve_left ht))]
    exact ⟨rfl, by simp [Redis.set], rfl, rfl⟩

theorem acknowledge_eq (h : db.Projected) {p : PendingUpdate}
    (hrows : db.pending = some [p]) (hhalt : db.control.halted = false) :
    db.acknowledge p = .ok db.acked := by
  have hp := h.valid _ hrows p List.mem_cons_self
  obtain ⟨o, hload⟩ := h.load_eq
  have ho : o = some p := by
    rcases h.load hload with ⟨_, hno⟩ | ⟨q, rfl, hq, _⟩
    · exact absurd (hno _ hrows) (by simp)
    · rw [hrows] at hq
      rw [(List.cons.inj (Option.some.inj hq)).1]
  subst ho
  simp only [Database.acknowledge, Database.removeExact, bind_ok, readControl_ok,
    PendingUpdate.validate_ok, refuse_ok, require_ok, pure_ok, exists_const, not_not]
  refine ⟨_, ⟨h.schema, rfl⟩, hp, by simp [hhalt], _, hload, rfl, [p], hrows, rfl, ?_⟩
  simp [Database.acked, hrows]

theorem completePending_runs (h : Healthy w) {p : PendingUpdate}
    (hrows : w.db.pending = some [p]) :
    Runs P now (Journal.completePending w.db.control p) w fun _ w' => Completed w w' := by
  have hp := h.projected.valid _ hrows p List.mem_cons_self
  have hmark : w.redis.value p.redisKey = some p.targetToken ∨
      w.redis.value p.redisKey = some p.previousToken := by
    rw [hp.key, hp.target]
    refine h.marker.imp id ?_
    rintro ⟨rows, hrows', q, hq, hm⟩
    rw [hrows] at hrows'
    obtain rfl := Option.some.inj hrows'
    rw [hm, List.mem_singleton.mp hq]
  obtain ⟨hok, hvalue, hrole, hrun⟩ := publish_expected hmark
  set r := (w.redis.publish p.redisKey p.previousToken p.targetToken).2 with hr
  have hw₁ : Healthy { w with redis := r } := by
    refine ⟨h.latch, h.running, h.projected, hrole.trans h.role, hrun.trans h.run, .inl ?_⟩
    rw [← hp.target, ← hp.key]
    exact hvalue
  have hvalue₁ : r.value w.db.control.key = some w.db.control.token := by
    rw [← hp.target, ← hp.key]
    exact hvalue
  refine Runs.seq (M := fun _ w' => w' = { w with redis := r }) ?_ ?_
  · refine .query ?_
    simp only [answer, hok]
    exact .ret rfl
  rintro _ _ rfl
  refine (observeTarget_runs hw₁ hp hvalue₁).seq ?_
  rintro _ _ rfl
  have hack : Tx.exec P now (.acknowledge p) w.db = .ok ((), w.db.acked) := by
    simp [Tx.exec, writing, acknowledge_eq h.projected hrows h.running, bind, Except.bind, pure,
      Except.pure]
  refine Runs.seq (M := fun _ w' => w' = { w with redis := r, db := w.db.acked })
    (.commit hack rfl) ?_
  rintro _ _ rfl
  have hdone : Completed w { w with redis := r, db := w.db.acked } :=
    ⟨rfl, rfl, rfl, hrole, hrun, hvalue₁⟩
  refine (observeCheckpoint_runs (hdone.healthy h) (.inl hvalue₁)).mono ?_
  rintro _ _ rfl
  exact hdone

/-- **A health check completes whatever a crash has left open.** -/
theorem healthyLocked_runs (h : Healthy w) :
    Runs P now Journal.healthyLocked w fun c w' => c = w.db.control ∧ Completed w w' := by
  obtain ⟨o, hload⟩ := h.projected.load_eq
  have hstate : Tx.exec P now .state w.db = .ok ((w.db.control, o), w.db) := by
    simp [Tx.exec, reading, Database.state, h.projected.readControl_eq, hload, bind, Except.bind,
      pure, Except.pure]
  refine .query (.check (b := ()) ?_ (.query ?_))
  · simp [answer, h.latch]
  rw [show (answer P now .failed w).2 = w from rfl, answer_sql hstate]
  dsimp only
  rw [if_neg (by simp [h.running])]
  rcases h.projected.load hload with ⟨rfl, hno⟩ | ⟨p, rfl, hrows, _⟩
  · have hmark : w.redis.value w.db.control.key = some w.db.control.token := by
      refine h.marker.resolve_right ?_
      rintro ⟨rows, hrows, q, hq, _⟩
      simp [hno rows hrows] at hq
    refine (observeCheckpoint_runs h (.inl hmark)).seq ?_
    rintro _ _ rfl
    refine .ret ⟨rfl, ?_, rfl, rfl, rfl, rfl, hmark⟩
    exact (acked_of_noPending hno).symm
  · refine Runs.seq (observeCheckpoint_runs h ?_) ?_
    · refine h.marker.imp id ?_
      rintro ⟨rows, hrows', q, hq, hm⟩
      rw [hrows] at hrows'
      obtain rfl := Option.some.inj hrows'
      exact ⟨p, rfl, (List.mem_singleton.mp hq) ▸ hm⟩
    rintro _ _ rfl
    exact (completePending_runs h hrows).seq fun _ w' hw' => .ret ⟨rfl, hw'⟩

end Health

/-! ## Reopening -/

/-- What a reopened journal has kept and what it has repaired. -/
structure Reopened (w w' : World) : Prop where
  admissions : w'.db.admissions = w.db.admissions
  attempts : w'.db.attempts = w.db.attempts
  evidence : w'.db.evidence = w.db.evidence
  checkpoints : w'.db.checkpoints = w.db.checkpoints
  halts : w'.db.halts = w.db.halts
  control : w'.db.control = { w.db.control with schema := schemaVersion }
  pending : w'.db.pending = some []
  marker : w'.redis.value w'.db.control.key = some w'.db.control.token

section Opening

variable {w : World}

theorem reading_eq {α : Type} {q : Database → Result α} {a : α}
    (h : q db = .ok a) : reading q db = .ok (a, db) := by
  simp [reading, h, bind, Except.bind, pure, Except.pure]

theorem writing_eq {q : Database → Result Database} {db db' : Database} (h : q db = .ok db') :
    writing q db = .ok ((), db') := by
  simp [writing, h, bind, Except.bind, pure, Except.pure]

theorem validateSchema_eq (h : db.Projected) : db.validateSchema = .ok () := by
  simp only [Database.validateSchema, bind_ok, readControl_ok, refuse_ok]
  refine ⟨_, ⟨h.schema, rfl⟩, fun hbad => h.solana.mp hbad.2 ?_⟩
  have hmem := h.schema
  simp only [List.mem_cons, List.not_mem_nil, or_false, schemaVersion] at hmem ⊢
  omega

theorem Database.Projected.older (h : db.Projected)
    (hs : db.control.schema < schemaVersion) (hno : db.NoPending) :
    db.control.schema = 1 ∧ db.pending = none ∨ db.control.schema = 2 ∧ db.pending = some [] := by
  have hmem := h.schema
  simp only [List.mem_cons, List.not_mem_nil, or_false, schemaVersion] at hmem hs
  by_cases h₁ : db.control.schema = 1
  · exact .inl ⟨h₁, h.first h₁⟩
  · obtain ⟨rows, hrows⟩ := h.later h₁
    exact .inr ⟨by omega, by rw [hrows, hno rows hrows]⟩

theorem migrate_eq (h : db.Projected) (hs : db.control.schema < schemaVersion)
    (hhalt : db.control.halted = false) (hno : db.NoPending) : db.migrate = .ok db.migrated := by
  have hne : db.control.schema ≠ schemaVersion := by omega
  obtain ⟨o, hload⟩ := h.load_eq
  have ho : o = none := by
    rcases h.load hload with ⟨ho, _⟩ | ⟨p, _, hp, _⟩
    · exact ho
    · exact absurd (hno _ hp) (by simp)
  subst ho
  simp only [Database.migrate, bind_ok, readControl_ok]
  refine ⟨_, ⟨h.schema, rfl⟩, ?_⟩
  rw [if_neg hne]
  have hvalid := valid_migrated db.control (by
    rcases h.older hs hno with h' | h'
    · exact .inl h'.1
    · exact .inr h'.1)
  simp only [Database.record, bind_ok, readControl_ok, PendingUpdate.validate_ok, require_ok,
    refuse_ok, pure_ok, exists_const, not_not, not_and]
  refine ⟨by simp [hhalt], none, hload, rfl, h.first, h.solana.mpr hne, _,
    ⟨by simp, rfl⟩, ?_⟩
  rcases h.older hs hno with ⟨h₁, _⟩ | ⟨h₂, hp⟩
  · simp only [if_pos h₁]
    exact ⟨hvalid, [], rfl, rfl, rfl⟩
  · rw [if_neg (by omega)]
    exact ⟨hvalid, [], hp, rfl, rfl⟩

theorem Completed.migrated {w' : World} (h : Healthy w) (hc : Completed w w')
    (hs : w.db.control.schema < schemaVersion) : Healthy { w' with db := w'.db.migrated } := by
  have hh := hc.healthy h
  have hno : w'.db.NoPending := hc.db ▸ acked_noPending _
  have hs' : w'.db.control.schema < schemaVersion := by rw [hc.db]; exact hs
  have hmig := migrated_projected (hh.projected.older hs' hno)
  refine ⟨hh.latch, hh.running, hmig, hh.role, hh.run, .inr ?_⟩
  refine ⟨_, rfl, _, List.mem_singleton_self _, ?_⟩
  have hm := hc.marker
  change w'.redis.value w'.db.control.key = some w'.db.control.token
  rw [hc.db]
  exact hm

/-- **Reopening repairs a journal that is not halted.** -/
theorem openJournal_runs (h : Healthy w) (hns : namespaceValid w.db.control.nameSpace = .ok ()) :
    Runs P now (Journal.openJournal w.db.control.nameSpace) w fun _ w' => Reopened w w' := by
  refine .check hns ?_
  refine Runs.seq (M := fun c w' => c = w.db.control ∧ w = w')
    (.sql (reading_eq h.projected.readControl_eq) ⟨rfl, rfl⟩) ?_
  rintro _ _ ⟨rfl, rfl⟩
  refine .check (b := ()) (by simp) ?_
  refine Runs.seq (M := fun _ w' => w = w')
    (.commit (reading_eq (validateSchema_eq h.projected)) rfl) ?_
  rintro _ _ rfl
  refine (healthyLocked_runs h).seq ?_
  rintro _ w₁ ⟨_, hw₁⟩
  refine Runs.seq (M := fun _ w' => w₁ = w') (.sql (reading_eq rfl) rfl) ?_
  rintro _ _ rfl
  refine (healthyLocked_runs (hw₁.healthy h)).seq ?_
  rintro c w₂ ⟨rfl, hw₂⟩
  have hdone := hw₁.trans hw₂
  have hh := hdone.healthy h
  have hno : w₂.db.NoPending := hdone.db ▸ acked_noPending _
  unfold Journal.migrateLegacy
  split_ifs with hs
  · have hs₂ : w₂.db.control.schema < schemaVersion := by rw [hw₂.db]; exact hs
    refine Runs.seq (M := fun _ w' => w' = { w₂ with db := w₂.db.migrated })
      (.commit (writing_eq (migrate_eq hh.projected hs₂ hh.running hno)) rfl) ?_
    rintro _ _ rfl
    have hs₀ : w.db.control.schema < schemaVersion := by rw [hw₁.db] at hs; exact hs
    refine (healthyLocked_runs (hdone.migrated h hs₀)).mono ?_
    rintro _ w₃ ⟨_, hw₃⟩
    have hdb : w₃.db = w.db.acked.migrated.acked := by
      rw [hw₃.db, ← hdone.db]
    have hmark : w₃.redis.value w₃.db.control.key = some w₃.db.control.token := by
      rw [hw₃.db]
      exact hw₃.marker
    refine ⟨?_, ?_, ?_, ?_, ?_, ?_, ?_, hmark⟩
    all_goals rw [hdb]; rfl
  · refine .ret ?_
    have hs₀ : w.db.control.schema = schemaVersion := by
      have hmem := h.projected.schema
      rw [hw₁.db] at hs
      simp only [List.mem_cons, List.not_mem_nil, or_false, schemaVersion, Database.acked]
        at hmem hs ⊢
      omega
    obtain ⟨rows, hrows⟩ := h.projected.later (by rw [hs₀]; decide)
    have hmark : w₂.redis.value w₂.db.control.key = some w₂.db.control.token := by
      rw [hdone.db]
      exact hdone.marker
    refine ⟨?_, ?_, ?_, ?_, ?_, ?_, ?_, hmark⟩
    all_goals rw [hdone.db]
    · rfl
    · rfl
    · rfl
    · rfl
    · rfl
    · rw [← hs₀]
      rfl
    · simp [Database.acked, hrows]

end Opening

/-! ## Lifting a halt -/

theorem Gated.running_at {l : Log} {t : Tx} {r : t.Result} {db₀ db₁ db : Database}
    (h : Gated P l t r db₀ db₁ db) (hkeep : db₁.control.halted = db₀.control.halted) :
    db.control.halted = false := by
  rw [h.tables]
  exact hkeep.trans h.running

theorem Granted.running {c : Call} {a : c.Value} {l : Log} (hc : c.grants = true)
    (h : Granted P c a l db) : db.control.halted = false := by
  cases c with
  | ensureHealthy => exact h.1
  | reserveAdmission =>
    obtain ⟨_, _, old, db₀, db₁, _, _, _, hg⟩ := h
    obtain ⟨now, w₀, _, _, hexec⟩ := hg.ran
    refine hg.running_at ?_
    rcases reserve_ok hexec with ⟨_, _, _, _, _, _, _, rfl⟩ | ⟨_, _, _, _, rfl⟩ <;> rfl
  | validateReplayBinding =>
    obtain ⟨_, _, _, hhalt, _⟩ := h
    exact hhalt
  | beforeBroadcast =>
    obtain ⟨_, _, old, db₀, db₁, _, _, _, hg⟩ := h
    obtain ⟨now, w₀, _, _, hexec⟩ := hg.ran
    refine hg.running_at ?_
    obtain ⟨_, _, _, _, _, _, _, ⟨_, rfl, _⟩ | ⟨_, _, _, rfl⟩⟩ := broadcast_ok hexec <;> rfl
  | recordTerminal =>
    obtain ⟨_, _, _, old, db₀, db₁, _, _, _, hg⟩ := h
    obtain ⟨now, w₀, _, _, hexec⟩ := hg.ran
    refine hg.running_at ?_
    obtain ⟨_, _, _, _, ⟨_, _, _, _, _, _, ⟨_, _, rfl⟩ | ⟨_, ⟨⟩, _⟩⟩ | ⟨_, _, _, _, rfl⟩⟩ :=
      terminal_ok hexec <;> rfl
  | prepareSolanaRestore =>
    obtain ⟨old, db₀, db₁, hg⟩ := h
    obtain ⟨now, w₀, _, _, hexec⟩ := hg.ran
    refine hg.running_at ?_
    rcases prepareRestore_ok hexec with ⟨_, _, _, rfl⟩ |
      ⟨_, _, _, ⟨_, _, rfl⟩ | ⟨_, _, _, rfl⟩⟩ <;> rfl
  | beforeSolanaRecoveryBroadcast =>
    obtain ⟨old, db₀, db₁, hg⟩ := h
    obtain ⟨now, w₀, _, _, hexec⟩ := hg.ran
    refine hg.running_at ?_
    obtain ⟨_, _, _, _, _, _, _, ⟨_, _, rfl⟩ | ⟨_, _, _, _, _, _, _, rfl⟩⟩ :=
      claimBroadcast_ok hexec <;> rfl
  | commitCheckpoint =>
    obtain ⟨old, db₀, db₁, hg⟩ := h
    obtain ⟨now, w₀, _, _, hexec⟩ := hg.ran
    refine hg.running_at ?_
    obtain ⟨_, ⟨_, _, _, rfl⟩ | ⟨_, _, _, rfl, _⟩ | ⟨_, _, _, _, _, rfl⟩ | ⟨_, ⟨⟩, _⟩⟩ :=
      commitCheckpoint_ok hexec <;> rfl
  | haltChain =>
    obtain ⟨old, db₀, db₁, hg⟩ := h
    obtain ⟨now, w₀, _, _, hexec⟩ := hg.ran
    refine hg.running_at ?_
    obtain ⟨_, _, rfl⟩ := haltChain_ok hexec
    rfl
  | openJournal => exact h.2.1
  | quarantine | reattach | recover => cases hc

/-- **Only a reattach or a recovery lifts a halt.** -/
theorem step_lifts {w : World} {s t : State} (hfound : Founded w.db)
    (h : Steps P (.initial w) s) (hstep : (service P).Step s t)
    (hs : s.world.db.control.halted = true) (ht : t.world.db.control.halted ≠ true) :
    ∃ a, s.active = some a ∧ a.call.repairs = true := by
  have hholds := h.holds hfound
  cases hstep with
  | start => exact absurd hs ht
  | act hactive hact =>
    have hrefl := (service_sound (P := P)).refl s.world
    obtain ⟨hallow, _⟩ := hholds.active _ hactive _ hrefl _ _ hact
    rcases hallow with hon | ⟨hrep, _⟩
    · exact absurd (hon.halted hs) ht
    · exact ⟨_, hactive, hrep⟩
  | finish hactive =>
    refine absurd ?_ ht
    change (Call.settle _ _ s.world).db.control.halted = true
    rw [settle_db]
    exact hs
  | interfere henv =>
    refine absurd ?_ ht
    rw [henv.1]
    exact hs
  | crash => exact absurd hs ht

theorem granted_after_halt {w : World} {s s' : State} (hfound : Founded w.db)
    (h : Steps P (.initial w) s) (hs : s.world.db.control.halted = true) (h' : Steps P s s')
    {r : Record} (hr : r ∈ s.since s') (hgrants : r.call.grants = true) {a : r.call.Value}
    (hok : r.result = .ok a) :
    ∃ t t', Steps P s t ∧ (service P).Step t t' ∧ Steps P t' s' ∧
      t.world.db.control.halted = true ∧ t'.world.db.control.halted = false ∧
      ∃ b, t.active = some b ∧ b.call.repairs = true := by
  rcases Service.Steps.leaves (fun w => w.db.control.halted = true) h' hs with
    ⟨_, hsince⟩ | ⟨t, t', ht, hstep, ht', hhalt, hlift⟩
  · have hpromise := promise_of_record hfound (h.trans h') (Service.State.mem_since hr)
    have hrun := (hpromise.1 a hok).running hgrants
    simp [hsince r hr] at hrun
  · refine ⟨t, t', ht, hstep, ht', hhalt, by simpa using hlift, ?_⟩
    exact step_lifts hfound (h.trans ht) hstep hhalt hlift

/-! ## The whole protocol -/

theorem Healthy.crashed {s : State} (hp : s.world.db.Projected)
    (hhalt : s.world.db.control.halted = false) (hrole : s.world.redis.role = "master")
    (hrun : s.world.redis.runId = s.world.db.control.runId)
    (hmark : s.world.db.Expects (s.world.redis.value s.world.db.control.key)) :
    Healthy s.crashed.world :=
  ⟨rfl, hhalt, hp, hrole, hrun, hmark⟩

theorem reopened {s : State} (now : Option ℕ) (h : Healthy s.crashed.world)
    (hns : namespaceValid s.world.db.control.nameSpace = .ok ()) :
    let s' := State.after P now s.crashed (.openJournal s.world.db.control.nameSpace)
    Steps P s s' ∧ s'.world.up = true ∧ Reopened s.world s'.world := by
  obtain ⟨c, w', hexec, hre⟩ := openJournal_runs (P := P) h hns
  have hbody : ((service P).body (.openJournal s.world.db.control.nameSpace)).exec (answer P now)
      s.crashed.world = (.ok c, w') := hexec
  have hw : (State.after P now s.crashed (.openJournal s.world.db.control.nameSpace)).world =
      { w' with up := true } := by
    change Call.settle _ (Prog.exec (answer P now) ((service P).body _) s.crashed.world).1
      (Prog.exec (answer P now) ((service P).body _) s.crashed.world).2 = _
    rw [hbody]
    rfl
  refine ⟨(Steps.crash P s).trans (Steps.call P now rfl rfl), ?_, ?_⟩
  · rw [hw]
  · rw [hw]
    exact { hre with }

/-- **Projection, repair and fence.** In every reachable state:

* at most one change is pending, and it fits the control row;
* a token stands for one schema, epoch and checkpoint, and once left it never comes back;
* after a crash at this point, reopening a journal that is not halted, with Redis the recorded
  primary and its marker at the current token or the one before the pending change, succeeds: the
  marker shows the token, nothing is pending and every row is as it was committed;
* an operation that saw anything else has failed and left the journal durably halted, unless the
  halt itself could not be written;
* and from a halt on, nothing is granted until a reattach or a recovery has lifted it. -/
theorem projection_repair {w : World} {s : State} (hfound : Founded w.db)
    (h : Steps P (.initial w) s) :
    (∀ rows, s.world.db.pending = some rows →
      rows.length ≤ 1 ∧ ∀ p ∈ rows, p.Valid s.world.db.control) ∧
    (∀ s', Steps P s s' → s'.world.db.control.token = s.world.db.control.token →
      s'.world.db.control.schema = s.world.db.control.schema ∧
      s'.world.db.control.epoch = s.world.db.control.epoch ∧
      s'.world.db.control.checkpoint = s.world.db.control.checkpoint) ∧
    (∀ s' s'', Steps P s s' → Steps P s' s'' →
      s''.world.db.control.token = s.world.db.control.token →
      s'.world.db.control.token = s.world.db.control.token) ∧
    (∀ now, s.world.db.control.halted = false → s.world.redis.role = "master" →
      s.world.redis.runId = s.world.db.control.runId →
      s.world.db.Expects (s.world.redis.value s.world.db.control.key) →
      namespaceValid s.world.db.control.nameSpace = .ok () →
      let s' := State.after P now s.crashed (.openJournal s.world.db.control.nameSpace)
      Steps P s s' ∧ s'.world.up = true ∧ Reopened s.world s'.world) ∧
    (∀ r ∈ s.records, r.call.repairs = false → (∃ e ∈ r.log, BadSight e) →
      (∀ e ∈ r.log, ¬HaltFault e) →
      (∀ a, r.result ≠ .ok a) ∧ r.world.db.control.halted = true) ∧
    (s.world.db.control.halted = true → ∀ s', Steps P s s' → ∀ r ∈ s.since s',
      r.call.grants = true → ∀ a, r.result = .ok a →
      ∃ t t', Steps P s t ∧ (service P).Step t t' ∧ Steps P t' s' ∧
        t.world.db.control.halted = true ∧ t'.world.db.control.halted = false ∧
        ∃ b, t.active = some b ∧ b.call.repairs = true) := by
  have hp := h.projected hfound.projected
  refine ⟨fun rows hrows => ⟨hp.single rows hrows, hp.valid rows hrows⟩, ?_, ?_, ?_, ?_, ?_⟩
  · exact fun s' h' htoken => Control.token_inj h'.later.deployment htoken
  · exact fun s' s'' h' h'' htoken => h'.token_mono h'' htoken
  · exact fun now hhalt hrole hrun hmark hns =>
      reopened now (.crashed hp hhalt hrole hrun hmark) hns
  · intro r hr hrep ⟨e, he, hbad⟩ hwritten
    have hout := (promise_of_record hfound h hr).2 hrep
    obtain ⟨c, l, res, w'⟩ := r
    cases res with
    | ok a => exact absurd hbad (hout.1 e he)
    | error err =>
      refine ⟨by simp, ?_⟩
      rcases hout with hclean | hhalt | ⟨e', he', hfault⟩
      · exact absurd hbad (hclean e he)
      · exact hhalt
      · exact absurd hfault (hwritten e' he')
  · exact fun hhalt s' h' r hr hgrants a hok => granted_after_halt hfound h hhalt h' hr hgrants hok


set_option maxRecDepth 4000 in
theorem projection_repair_sent :
    (State.after Sample.primitives none Sample.sent.crashed (.openJournal none)).world.up = true :=
  ((projection_repair Sample.founded Sample.sent_steps).2.2.2.1 none (by decide +kernel)
    (by decide +kernel) (by decide +kernel) (.inl (by decide +kernel)) (by decide +kernel)).2.1

namespace Sample

/-- The publication of an admission is lost: its change stays pending. -/
def unpublished : State :=
  Service.State.after (service primitives)
    (faulty primitives none fun | .publish .. => true | _ => false) opened
    (.reserveAdmission "eoa" "t1" "eoa\x00null" .null)

/-- The process has ended and the operator has stopped the journal. -/
def stopped : State := State.after primitives none unpublished.crashed .quarantine

def demoted : State :=
  { opened with world := { opened.world with redis := { opened.world.redis with role := "slave" } } }

/-- A health check sees it, but its halt cannot be written. -/
def unwritten : State :=
  Service.State.after (service primitives)
    (faulty primitives none fun | .sql (.halt _) => true | _ => false) demoted .ensureHealthy

set_option maxRecDepth 4000 in
theorem stopped_steps : Steps primitives (.initial world) stopped := by
  have hpending : Steps primitives opened unpublished :=
    Service.Steps.call (act_faulty primitives none _) rfl opened_up
  exact ((opened_steps.trans hpending).trans (Steps.crash _ _)).trans (Steps.call _ _ rfl rfl)

theorem unwritten_steps : Steps primitives (.initial world) unwritten := by
  have hdemoted : Steps primitives opened demoted :=
    .single (Service.Step.interfere ⟨rfl, rfl, rfl⟩)
  refine (opened_steps.trans hdemoted).trans ?_
  exact Service.Steps.call (act_faulty primitives none _) rfl opened_up

end Sample

set_option maxRecDepth 4000 in
/-- The two limits. A journal that is durably halted is not repaired by reopening it, although Redis
is the recorded primary and still shows the token before the pending change. And an operation that
saw a demoted Redis leaves the journal running when its halt cannot be written. -/
theorem projection_repair_limits :
    (∃ s, Steps Sample.primitives (.initial Sample.world) s ∧ s.active = none ∧
      s.world.redis.role = "master" ∧ s.world.redis.runId = s.world.db.control.runId ∧
      s.world.db.Expects (s.world.redis.value s.world.db.control.key) ∧
      let s' := State.after Sample.primitives none s.crashed
        (.openJournal s.world.db.control.nameSpace)
      s'.world.up = false ∧ s'.world.db.pending ≠ some [] ∧
        s'.world.redis.value s'.world.db.control.key ≠ some s'.world.db.control.token) ∧
    (∃ s, Steps Sample.primitives (.initial Sample.world) s ∧ ∃ r ∈ s.records,
      r.call = .ensureHealthy ∧ (∃ e ∈ r.log, BadSight e) ∧
        r.world.db.control.halted = false) := by
  refine ⟨⟨Sample.stopped, Sample.stopped_steps, rfl, ?_⟩,
    Sample.unwritten, Sample.unwritten_steps, _, List.mem_cons_self, rfl, ?_⟩
  · decide +kernel
  · decide +kernel

end EngineCore.Recovery
