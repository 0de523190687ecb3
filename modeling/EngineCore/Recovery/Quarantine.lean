import EngineCore.Recovery.Absorb
import EngineCore.Recovery.Reopen

/-!
# The operator's stop

A quarantine stops the journal durably, and only a recovery should start it again. The cause of a
halt is one column, and an earlier cause is kept: where Redis was lost first, the quarantine leaves
a halt that a reattach clears.

* **`quarantine_bars_iff`**: after a quarantine nothing but a recovery starts the journal, if and
  only if it was not already halted for a cause that a reattach clears;
* **`quarantine_cleared`**: a run in which a reattach does.
-/

namespace EngineCore.Recovery

open Interact
open Except (bind_ok pure_ok)

variable {P : Primitives} {db db' : Database}

/-- The journal's service without recoveries. -/
def unrecovered (P : Primitives) : Service Query Answer World Call (fun c => Result c.Value) :=
  { service P with ready := fun c w => (service P).ready c w ∧ ∀ ns, c ≠ .recover ns }

/-! ## A halt that stays -/

/-- Halted, for a cause that no reattach clears. -/
structure Barred (db : Database) : Prop where
  halted : db.control.halted = true
  reason : db.control.reason.isSome
  fixed : ¬clearable db.control.reason

theorem Barred.of_control (h : Barred db) (hhalted : db'.control.halted = db.control.halted)
    (hreason : db'.control.reason = db.control.reason) : Barred db' := by
  refine ⟨hhalted.trans h.halted, ?_, ?_⟩
  · rw [hreason]
    exact h.reason
  · rw [hreason]
    exact h.fixed

/-- **The running journal keeps it.** -/
theorem Commit.barred (hc : Commit P false db db') (h : Barred db) : Barred db' := by
  cases hc with
  | contradict => exact ⟨rfl, rfl, by simp [clearable]⟩
  | halt reason =>
    obtain ⟨cause, hcause⟩ := Option.isSome_iff_exists.mp h.reason
    refine h.of_control h.halted.symm ?_
    simp [Database.halt, hcause]
  | _ => exact h.of_control rfl rfl

theorem barred_quarantine (hfixed : ¬clearable db.control.reason) :
    Barred (db.halt .operatorQuarantine) := by
  cases hreason : db.control.reason with
  | none => exact ⟨rfl, by simp [Database.halt], by simp [Database.halt, hreason, clearable]⟩
  | some cause =>
    refine ⟨rfl, by simp [Database.halt], ?_⟩
    rw [hreason] at hfixed
    simpa [Database.halt, hreason] using hfixed

/-! ## Calls on a barred journal -/

section Calls

variable {w : World}

def KeepsBar (w w' : World) : Prop := Barred w.db → Barred w'.db

theorem sat_online {α : Type} {p : Prog Query Answer α} (hp : p.Only fun q => q.offline = false)
    {post : α → Log → World → Prop} (hpost : ∀ a l w, post a l w) (l : Log) :
    Sat (machine P) KeepsBar post p l w := by
  induction p generalizing l w with
  | done a => exact hpost a l w
  | ask q k ih =>
    intro w₁ henv a w₂ hact
    have hcommit : Commit P q.offline w₁.db w₂.db := act_commit hact
    rw [hp.1] at hcommit
    exact ⟨hcommit.barred, ih a (hp.2 a) _⟩

theorem reattach_barred (hw : Barred w.db) (ns : Option String) :
    Sat (machine P) KeepsBar (fun r _ _ => ∀ v, r ≠ .ok v) (Journal.reattach ns).run [] w := by
  refine (sat_run_bind _ _).mpr ?_
  intro w₁ henv a w₂ (hact : Submitted P (.reattachState ns) w₁ a w₂)
  have hcommit : Commit P false w₁.db w₂.db := act_commit (q := .sql (.reattachState ns)) hact
  refine ⟨hcommit.barred, ?_⟩
  rcases hact with ⟨now, ⟨c, pending⟩, db, hexec, -, -⟩ | ⟨_, e, _, rfl, rfl⟩ | ⟨rfl, rfl⟩
  · have hstate := (reading_ok hexec).1
    rw [henv.1] at hstate
    simp only [Database.reattachState, bind_ok, readControl_ok, refuse_ok, pure_ok, exists_const,
      not_and, not_not, Prod.mk.injEq] at hstate
    obtain ⟨_, ⟨_, rfl⟩, _, _, _, _, _, hclear, _⟩ := hstate
    exact absurd (hclear hw.halted) hw.fixed
  · rintro _ ⟨⟩
  · rintro _ ⟨⟩

/-- **Without a recovery a barred journal stays barred**, and no reattach succeeds. -/
theorem unrecovered_sound : (unrecovered P).Sound (fun w => Barred w.db) (fun _ => KeepsBar)
    (fun c r _ _ => c.repairs = true → ∀ v, r ≠ .ok v) where
  refl := (service_sound (P := P)).refl
  trans := (service_sound (P := P)).trans
  stable _ _ _ _ _ _ h := h
  env w w' h henv := by
    rw [henv.1]
    exact h
  act _ _ _ _ _ h _ hkeeps := hkeeps h
  settle c r _ w h _ := by
    change Barred (c.settle r w).db
    rw [settle_db]
    exact h
  reboot _ h := h
  body c w h hready := by
    by_cases hc : c.repairs = false
    · refine sat_online ?_ (fun _ _ _ hrep => ?_) []
      · exact (body_online c hc).mono fun _ hq => hq.2
      · rw [hc] at hrep
        cases hrep
    cases c with
    | reattach ns => exact (reattach_barred h ns).post_mono fun _ _ _ hr _ => hr
    | recover ns => exact absurd rfl (hready.2 ns)
    | _ => exact absurd rfl hc

end Calls

/-! ## Reattaching -/

section Reattaching

variable {w : World} {now : Option ℕ}

theorem observed_runs (key : String) :
    Runs P now (Journal.observed key) w fun seen w' => seen = w.redis.observe key ∧ w' = w :=
  ⟨_, _, rfl, rfl, rfl⟩

theorem removePending_eq (h : db.Projected) {o : Option PendingUpdate}
    (ho : db.load db.control = .ok o) : ∃ rows, db.removePending o = .ok { db with pending := rows } := by
  rcases h.load ho with ⟨rfl, -⟩ | ⟨p, rfl, hrows, -⟩
  · exact ⟨db.pending, rfl⟩
  · refine ⟨some [], ?_⟩
    simp [Database.removePending, Database.removeExact, hrows, require, refuse, bind, Except.bind,
      pure, Except.pure]

theorem status_eq (h : db.Projected) : ∃ status, db.status = .ok status := by
  obtain ⟨o, ho⟩ := h.load_eq
  by_cases hs : db.control.schema < 3
  · simp [Database.status, h.readControl_eq, ho, hs, bind, Except.bind, pure, Except.pure]
  · have hmem := h.schema
    simp only [List.mem_cons, List.not_mem_nil, or_false, schemaVersion] at hmem
    have hsome : db.solana ≠ none := fun hnone => h.solana.mp hnone (by simp [schemaVersion]; omega)
    obtain ⟨modes, hmodes⟩ := Option.ne_none_iff_exists'.mp hsome
    simp [Database.status, h.readControl_eq, ho, hs, hmodes, require, bind, Except.bind, pure,
      Except.pure]

theorem reattach_runs (h : w.db.Projected) (hclear : clearable w.db.control.reason)
    (hrole : w.redis.role = "master")
    (hmarker : w.redis.value w.db.control.key = some w.db.control.token) :
    Runs P now (Journal.reattach w.db.control.nameSpace) w fun _ w' =>
      w'.db.control.halted = false := by
  obtain ⟨o, ho⟩ := h.load_eq
  obtain ⟨rows, hremove⟩ := removePending_eq h ho
  have hstate : w.db.reattachState w.db.control.nameSpace = .ok (w.db.control, o) := by
    simp only [Database.reattachState, bind_ok, refuse_ok, pure_ok, not_not, not_and]
    exact ⟨_, h.readControl_eq, (), validateSchema_eq h, _, ho, (), rfl, (), fun _ => hclear, rfl⟩
  have hcommit : w.db.reattachCommit w.db.control o w.redis.runId = .ok { w.db with
      pending := rows, control := w.db.control.attach w.redis.runId } := by
    simp only [Database.reattachCommit, bind_ok, refuse_ok, pure_ok, not_not]
    exact ⟨_, h.readControl_eq, (), rfl, _, ho, (), rfl, _, hremove, rfl⟩
  have hafter : Database.Projected { w.db with
      pending := rows, control := w.db.control.attach w.redis.runId } := by
    have hexec : (Tx.reattachCommit w.db.control o w.redis.runId).exec P now w.db =
        .ok ((), _) := writing_eq hcommit
    exact (Tx.exec_commit hexec).projected h
  obtain ⟨status, hstatus⟩ := status_eq hafter
  refine Runs.seq (Runs.sql (K := fun r w' => r = (w.db.control, o) ∧ w' = w) (reading_eq hstate)
    ⟨rfl, rfl⟩) ?_
  rintro _ w' ⟨rfl, rfl⟩
  refine Runs.seq (observed_runs _) ?_
  rintro _ w' ⟨rfl, rfl⟩
  refine Runs.check (b := ()) (refuse_ok.mpr ?_) ?_
  · simp [Redis.observe, hrole, hmarker]
  refine Runs.seq (Runs.sql (K := fun _ w'' => w'' = { w' with db := { w'.db with
    pending := rows, control := w'.db.control.attach w'.redis.runId } }) (writing_eq hcommit) rfl) ?_
  rintro _ w'' rfl
  refine Runs.query ?_
  have hfine : Journal.reattachFailure w'.db.control w'.redis.runId
      (some (w'.redis.observe w'.db.control.key)) = none := by
    simp [Journal.reattachFailure, Redis.observe, hrole, hmarker]
  simp only [answer, Redis.observe] at hfine ⊢
  rw [hfine]
  exact Runs.sql (reading_eq hstatus) rfl

theorem reattach_lifts {s : State} (hfree : s.active = none) (hdown : s.world.up = false)
    (h : s.world.db.Projected) (hclear : clearable s.world.db.control.reason)
    (hrole : s.world.redis.role = "master")
    (hmarker : s.world.redis.value s.world.db.control.key = some s.world.db.control.token) :
    ∃ s', (unrecovered P).Steps s s' ∧ s'.world.db.control.halted = false := by
  have hruns : Runs P none (Journal.reattach s.world.db.control.nameSpace) s.world fun _ w' =>
      w'.db.control.halted = false := reattach_runs h hclear hrole hmarker
  obtain ⟨a, w', hexec, hlifted⟩ := hruns
  have hsteps : (unrecovered P).Steps s
      (Service.State.after (unrecovered P) (answer P none) s
        (.reattach s.world.db.control.nameSpace)) :=
    Service.Steps.call (S := unrecovered P) (act_answer P none) hfree ⟨hdown, by simp⟩
  refine ⟨_, hsteps, ?_⟩
  change (Call.settle _ _ _).db.control.halted = false
  rw [settle_db]
  change ((Journal.reattach s.world.db.control.nameSpace).run.exec (answer P none)
    s.world).2.db.control.halted = false
  rw [hexec]
  exact hlifted

end Reattaching

/-! ## The quarantine -/

/-- **After a quarantine nothing but a recovery starts the journal, if and only if it was not
already halted for a cause that a reattach clears.** -/
theorem quarantine_bars_iff {w : World} (hfound : Founded w.db) {s : State}
    (h : Steps P (.initial w) s) (hdown : s.world.up = false) :
    (∀ l w' s', Played (machine P) (Call.body P .quarantine).run s.world l (.ok ()) w' →
      (unrecovered P).Steps ⟨w', none, ⟨.quarantine, l, .ok (), w'⟩ :: s.records⟩ s' →
      s'.world.db.control.halted = true ∧
      ∀ r ∈ Service.State.since ⟨w', none, ⟨.quarantine, l, .ok (), w'⟩ :: s.records⟩ s',
        ∀ ns, r.call = .reattach ns → ∀ v, r.result ≠ .ok v) ↔
    ¬clearable s.world.db.control.reason := by
  have hprojected : s.world.db.Projected := h.projected hfound.projected
  constructor
  · intro hall hclear
    -- Redis comes to show the token of the ledger, and the journal is reattached
    let db := s.world.db.halt .operatorQuarantine
    let w' : World := { s.world with
      db := db, redis := ⟨"", "master", fun _ => some db.control.token⟩ }
    have hquarantine : s.world.db.quarantine = .ok db := by
      simp only [Database.quarantine, bind_ok, pure_ok]
      exact ⟨_, hprojected.readControl_eq, rfl⟩
    have hact : act P (.sql .quarantine) s.world (.ok ()) { s.world with db } :=
      .inl ⟨none, (), db, writing_eq hquarantine, rfl, rfl⟩
    have hplayed : Played (machine P) (Call.body P .quarantine).run s.world
        [⟨.sql .quarantine, .ok (), s.world, { s.world with db }⟩] (.ok ()) w' :=
      ⟨s.world, .ok (), { s.world with db }, [], ⟨rfl, rfl, rfl⟩, hact, rfl, rfl, rfl,
        ⟨rfl, rfl, rfl⟩⟩
    have hcommit : Commit P false s.world.db db := act_commit hact
    have hreason : clearable db.control.reason := by
      rcases hclear with hr | hr | hr <;> simp [db, Database.halt, hr, clearable]
    obtain ⟨s', hsteps, hlifted⟩ := reattach_lifts (P := P)
      (s := ⟨w', none, ⟨.quarantine, _, .ok (), w'⟩ :: s.records⟩) rfl hdown
      (hcommit.projected hprojected) hreason rfl rfl
    have hhalted := (hall _ w' s' hplayed hsteps).1
    rw [hlifted] at hhalted
    cases hhalted
  · intro hfixed l w' s' hplayed hsteps
    obtain ⟨w₁, a, w₂, l', henv, hact, -, -, rfl, henv'⟩ := hplayed
    have hbarred : Barred w'.db := by
      rw [henv'.1]
      rcases hact with ⟨now, _, db, hexec, -, rfl⟩ | ⟨_, e, _, ha, -⟩ | ⟨ha, -⟩
      · have hq := writing_ok hexec
        simp only [Database.quarantine, bind_ok, pure_ok] at hq
        obtain ⟨_, -, rfl⟩ := hq
        rw [henv.1]
        exact barred_quarantine hfixed
      · cases ha
      · cases ha
    obtain ⟨hworld, hrecords⟩ := unrecovered_sound.since rfl hbarred hsteps
    refine ⟨hworld.halted, fun r hr ns hcall => hrecords r hr ?_⟩
    rw [hcall]
    rfl

namespace Sample

/-- Redis is started again and a health check sees it. -/
def restarted : State :=
  State.after primitives none
    { opened with world := { opened.world with redis := { opened.world.redis with runId := "r" } } }
    .ensureHealthy

/-- The process has ended and the operator has stopped the journal. -/
def quarantined : State := State.after primitives none restarted.crashed .quarantine

theorem quarantined_steps : Steps primitives (.initial world) quarantined := by
  have hredis : Steps primitives opened { opened with
      world := { opened.world with redis := { opened.world.redis with runId := "r" } } } :=
    .single (Service.Step.interfere ⟨rfl, rfl, rfl⟩)
  have hchecked : Steps primitives opened restarted :=
    hredis.trans (Steps.call _ _ rfl opened_up)
  exact ((opened_steps.trans hchecked).trans (Steps.crash _ _)).trans (Steps.call _ _ rfl rfl)

end Sample

set_option maxRecDepth 4000 in
/-- Redis was lost before the operator's stop: the stop succeeds, and a reattach starts the
journal. -/
theorem quarantine_cleared :
    Steps Sample.primitives (.initial Sample.world) Sample.quarantined ∧
    (∃ l w, Sample.quarantined.records.head? = some ⟨.quarantine, l, .ok (), w⟩) ∧
    ∃ s, (unrecovered Sample.primitives).Steps Sample.quarantined s ∧
      (∃ l v w, s.records.head? = some ⟨.reattach none, l, .ok v, w⟩) ∧
      s.world.db.control.halted = false := by
  refine ⟨Sample.quarantined_steps, ⟨_, _, rfl⟩,
    Service.State.after (unrecovered Sample.primitives) (answer Sample.primitives none)
      Sample.quarantined (.reattach none), ?_, ⟨_, _, _, rfl⟩, ?_⟩
  · exact Service.Steps.call (S := unrecovered Sample.primitives) (act_answer _ none) rfl
      ⟨rfl, by simp⟩
  · decide +kernel

/-- A journal that runs well is stopped for good. -/
theorem quarantine_bars_crashed :
    (∀ l w' s', Played (machine Sample.primitives)
        (Call.body Sample.primitives .quarantine).run Sample.opened.crashed.world l (.ok ()) w' →
      (unrecovered Sample.primitives).Steps
        ⟨w', none, ⟨.quarantine, l, .ok (), w'⟩ :: Sample.opened.crashed.records⟩ s' →
      s'.world.db.control.halted = true ∧
      ∀ r ∈ Service.State.since
          ⟨w', none, ⟨.quarantine, l, .ok (), w'⟩ :: Sample.opened.crashed.records⟩ s',
        ∀ ns, r.call = .reattach ns → ∀ v, r.result ≠ .ok v) ↔
    ¬clearable Sample.opened.crashed.world.db.control.reason :=
  quarantine_bars_iff Sample.founded (Sample.opened_steps.trans (Steps.crash _ _)) rfl

end EngineCore.Recovery
