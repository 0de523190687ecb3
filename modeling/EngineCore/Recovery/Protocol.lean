import EngineCore.Recovery.Invariant

/-!
# The two-store protocol

What the journal's health check and mirroring establish, whatever Redis does and whichever
statement fails.

* `Fenced`: after a bad sight the ledger is halted, unless the halt itself could not be written;
* **`healthyLocked_spec`**, **`mirror_spec`**: a success of either confirms the tables.
-/

namespace EngineCore.Recovery

open Interact
open Except (bind_ok pure_ok)

variable {P : Primitives} {db db' : Database}

/-! ## What a log shows -/

abbrev Log := List (Entry Query Answer World)

/-- What a step saw of Redis, and under which key. -/
def sight : Entry Query Answer World → Option (String × Observation)
  | ⟨.observe key, some seen, _, _⟩ => some (key, seen)
  | _ => none

def Database.NoPending (db : Database) : Prop := ∀ rows, db.pending = some rows → rows = []

/-- With the tables at `db` the log saw `seen` at the journal's marker. -/
def Sighted (l : Log) (db : Database) (seen : Observation) : Prop :=
  ∃ e ∈ l, e.before.db = db ∧ sight e = some (db.control.key, seen) ∧
    seen = e.before.redis.observe db.control.key

/-- The observation shows the current token on the recorded primary. -/
def Shows (db : Database) (seen : Observation) : Prop :=
  seen.marker = some db.control.token ∧ seen.role = "master" ∧ seen.runId = db.control.runId

/-- Redis was seen to agree with the tables, with no change pending. -/
def Confirmed (l : Log) (db : Database) : Prop :=
  db.NoPending ∧ ∃ seen, Sighted l db seen ∧ Shows db seen

/-- The marker is the current token, or the token before a pending change. -/
def Database.Expects (db : Database) (marker : Option String) : Prop :=
  marker = some db.control.token ∨
    ∃ rows, db.pending = some rows ∧ ∃ p ∈ rows, marker = some p.previousToken

instance (db : Database) (marker : Option String) : Decidable (db.Expects marker) :=
  decidable_of_iff (marker = some db.control.token ∨
    ∃ p ∈ db.pending.getD [], marker = some p.previousToken) <| by
    cases h : db.pending <;> simp [Database.Expects, h]

/-- An observation of the journal's marker that does not fit the tables. -/
def BadSight (e : Entry Query Answer World) : Prop :=
  ∃ seen, sight e = some (e.before.db.control.key, seen) ∧
    ¬(e.before.db.Expects seen.marker ∧ seen.role = "master" ∧
      seen.runId = e.before.db.control.runId)

instance : DecidablePred BadSight := fun e =>
  decidable_of_iff (∃ x ∈ sight e, x.1 = e.before.db.control.key ∧
    ¬(e.before.db.Expects x.2.marker ∧ x.2.role = "master" ∧
      x.2.runId = e.before.db.control.runId)) <| by
    constructor
    · rintro ⟨⟨_, seen⟩, hsight, rfl, hbad⟩
      exact ⟨seen, hsight, hbad⟩
    · rintro ⟨seen, hsight, hbad⟩
      exact ⟨_, hsight, rfl, hbad⟩

def HaltFault : Entry Query Answer World → Prop
  | ⟨.sql (.halt _), .error _, _, _⟩ => True
  | _ => False

def Clean (l : Log) : Prop := ∀ e ∈ l, ¬BadSight e

/-- The ledger is halted, or the log shows that the halt could not be written. -/
def Stopped (l : Log) (db : Database) : Prop := db.control.halted = true ∨ ∃ e ∈ l, HaltFault e

def Fenced (l : Log) (db : Database) : Prop := Clean l ∨ Stopped l db

theorem Clean.nil : Clean [] := by rintro _ ⟨⟩

theorem Clean.append {l : Log} (h : Clean l) {e : Entry Query Answer World} (he : ¬BadSight e) :
    Clean (l ++ [e]) := by
  intro e' he'
  rcases List.mem_append.mp he' with he' | he'
  · exact h e' he'
  · rw [List.mem_singleton.mp he']
    exact he

theorem not_badSight_of_sight {e : Entry Query Answer World} (h : sight e = none) :
    ¬BadSight e := by
  rintro ⟨seen, hs, _⟩
  simp [h] at hs

/-! ## The halt while no offline command runs -/

/-- A halt stays, and so does the reason that only a reconciliation could lift. -/
structure Online (db db' : Database) : Prop where
  halted : db.control.halted = true → db'.control.halted = true
  conflict : db.control.reason = some .terminalEvidenceConflict →
    db'.control.reason = some .terminalEvidenceConflict

theorem Online.of_control (h : db'.control.halted = db.control.halted)
    (h' : db'.control.reason = db.control.reason) : Online db db' :=
  ⟨fun hh => h.trans hh, fun hr => h'.trans hr⟩

theorem Commit.online (hc : Commit P false db db') : Online db db' := by
  cases hc with
  | contradict => exact ⟨fun _ => rfl, fun _ => rfl⟩
  | halt reason =>
    refine ⟨fun _ => rfl, fun hr => ?_⟩
    simp [Database.halt, hr]
  | _ => exact .of_control rfl rfl

/-! ## Specifications -/

/-- What a journal program must meet: on success a clean log and `K`; on failure the fence. -/
def Outcome {α : Type} (K : α → Log → World → Prop) : Result α → Log → World → Prop
  | .ok a, l, w => Clean l ∧ K a l w
  | .error _, l, w => Fenced l w.db

/-- From the log `l` and the world `w`, every run of `x` keeps halts and ends in its outcome. -/
def Spec (P : Primitives) {α : Type} (x : Journal α) (l : Log) (w : World)
    (K : α → Log → World → Prop) : Prop :=
  Sat (machine P) (fun w w' => Online w.db w'.db) (Outcome K) x.run l w

section Rules

variable {α β : Type} {l : Log} {w : World} {K : α → Log → World → Prop}

theorem Spec.seq {x : Journal β} {f : β → Journal α} {M : β → Log → World → Prop}
    (hx : Spec P x l w M)
    (hf : ∀ b l' w', Clean l' → M b l' w' → Spec P (f b) l' w' K) :
    Spec P (x >>= f) l w K := by
  refine (sat_run_bind x f).mpr (hx.post_mono ?_)
  rintro (e | b) l' w' h
  · exact h
  · exact hf b l' w' h.1 h.2

theorem Spec.mono {x : Journal α} {K' : α → Log → World → Prop} (hx : Spec P x l w K')
    (h : ∀ a l' w', Clean l' → K' a l' w' → K a l' w') : Spec P x l w K := by
  refine hx.post_mono ?_
  rintro (e | a) l' w' h'
  · exact h'
  · exact ⟨h'.1, h a l' w' h'.1 h'.2⟩

theorem Spec.grow {x : Journal α} (hx : Spec P x l w K) :
    Spec P x l w fun a l' w' => K a l' w' ∧ l <+: l' := by
  refine (Sat.grow hx).post_mono ?_
  rintro (e | a) l' w' ⟨h, hl⟩
  · exact h
  · exact ⟨h.1, h.2, hl⟩

theorem Spec.ret {a : α} (hl : Clean l) (h : K a l w) : Spec P (pure a) l w K := ⟨hl, h⟩

theorem Spec.fail {e : RecoveryError} (h : Fenced l w.db) :
    Spec P (throw e : Journal α) l w K := h

theorem Spec.value {r : Result α} (hl : Clean l) (h : ∀ a, r = .ok a → K a l w) :
    Spec P (Journal.lift r) l w K := by
  cases r with
  | error e => exact .inl hl
  | ok a => exact ⟨hl, h a rfl⟩

theorem Spec.check {r : Result β} {f : β → Journal α} (hl : Clean l)
    (h : ∀ b, r = .ok b → Spec P (f b) l w K) : Spec P (Journal.lift r >>= f) l w K := by
  cases r with
  | error e => exact .inl hl
  | ok b => exact h b rfl

theorem Spec.step {q : Query} {K : Answer q → Log → World → Prop} (hq : q.offline = false)
    (h : ∀ w₁ a w₂, disturbs w w₁ → act P q w₁ a w₂ →
      Clean (l ++ [⟨q, a, w₁, w₂⟩]) ∧ K a (l ++ [⟨q, a, w₁, w₂⟩]) w₂) :
    Spec P (Journal.query q) l w K := by
  refine sat_query.mpr fun w₁ henv a w₂ hact => ⟨?_, h w₁ a w₂ henv hact⟩
  exact (hq ▸ act_commit hact).online

theorem Spec.blind {q : Query} {K : Answer q → Log → World → Prop} (hq : q.offline = false)
    (hl : Clean l) (hsight : ∀ a w₁ w₂, sight ⟨q, a, w₁, w₂⟩ = none)
    (h : ∀ w₁ a w₂, disturbs w w₁ → act P q w₁ a w₂ → K a (l ++ [⟨q, a, w₁, w₂⟩]) w₂) :
    Spec P (Journal.query q) l w K :=
  .step hq fun w₁ a w₂ henv hact =>
    ⟨hl.append (not_badSight_of_sight (hsight a w₁ w₂)), h w₁ a w₂ henv hact⟩

theorem Spec.stop (reason : HaltReason) : Spec P (Journal.stop reason : Journal α) l w K := by
  intro w₁ _ a₁ w₂ (hlatch : act P .latch w₁ a₁ w₂)
  refine ⟨(act_commit hlatch).online, ?_⟩
  intro w₃ _ a₂ w₄ (hhalt : act P (.sql (.halt reason)) w₃ a₂ w₄)
  refine ⟨(act_commit hhalt).online, .inr ?_⟩
  rcases hhalt with ⟨now, r, db, hexec, _, rfl⟩ | ⟨_, e, _, rfl, _⟩ | ⟨rfl, _⟩
  · obtain rfl : w₃.db.halt reason = db := Except.ok.inj (writing_ok hexec)
    exact .inl rfl
  · exact .inr ⟨_, List.mem_append_right _ (List.mem_singleton_self _), trivial⟩
  · exact .inr ⟨_, List.mem_append_right _ (List.mem_singleton_self _), trivial⟩

end Rules

/-! ## Observations -/

section Observations

variable {l : Log} {w : World}

theorem observe_spec {α : Type} {key : String} {f : Option Observation → Journal α}
    {K : α → Log → World → Prop}
    (h : ∀ w₁ a, disturbs w w₁ → (a = none ∨ a = some (w₁.redis.observe key)) →
      Spec P (f a) (l ++ [⟨.observe key, a, w₁, w₁⟩]) w₁ K) :
    Spec P (Journal.query (.observe key) >>= f) l w K := by
  refine (sat_run_bind _ _).mpr (sat_query.mpr fun w₁ henv a w₂ hact => ?_)
  obtain ⟨ha, rfl⟩ : (a = none ∨ a = some (w₁.redis.observe key)) ∧ w₂ = w₁ := hact
  exact ⟨.of_control rfl rfl, h w₂ a henv ha⟩

theorem sighted_last (key : String) (w₁ : World) (hkey : key = w₁.db.control.key) :
    Sighted (l ++ [⟨.observe key, some (w₁.redis.observe key), w₁, w₁⟩]) w₁.db
      (w₁.redis.observe key) := by
  subst hkey
  exact ⟨_, List.mem_append_right _ (List.mem_singleton_self _), rfl, rfl, rfl⟩

theorem Clean.fits (hl : Clean l) {key : String} {w₁ : World}
    (h : w₁.db.Expects (w₁.redis.observe key).marker) (hrole : (w₁.redis.observe key).role = "master")
    (hrun : (w₁.redis.observe key).runId = w₁.db.control.runId) :
    Clean (l ++ [⟨.observe key, some (w₁.redis.observe key), w₁, w₁⟩]) := by
  refine hl.append ?_
  rintro ⟨seen, hsight, hbad⟩
  obtain ⟨_, rfl⟩ := Prod.mk.inj (Option.some.inj hsight)
  exact hbad ⟨h, hrole, hrun⟩

theorem Clean.lost (hl : Clean l) {key : String} {w₁ : World} :
    Clean (l ++ [⟨.observe key, none, w₁, w₁⟩]) :=
  hl.append (not_badSight_of_sight rfl)

theorem observeCheckpoint_spec {c : Control} {o : Option PendingUpdate} (hl : Clean l)
    (hc : c = w.db.control)
    (ho : ∀ p, o = some p → ∃ rows, w.db.pending = some rows ∧ p ∈ rows) :
    Spec P (Journal.observeCheckpoint c o) l w fun _ l' w' => w'.db = w.db ∧
      ∃ seen, Sighted l' w.db seen ∧ seen.role = "master" ∧ seen.runId = c.runId ∧
        (seen.marker = some c.token ∨ ∃ p, o = some p ∧ seen.marker = some p.previousToken) := by
  subst hc
  refine observe_spec fun w₁ a henv ha => ?_
  rcases ha with rfl | rfl
  · dsimp only
    split_ifs
    · exact .fail (.inl hl.lost)
    · exact .stop _
  dsimp only
  split_ifs with hmark hrole hrun
  · exact .stop _
  · exact .stop _
  · exact .stop _
  · rw [not_not] at hrole hrun
    have hseen : (w₁.redis.observe w.db.control.key).marker = some w.db.control.token ∨
        ∃ p, o = some p ∧ (w₁.redis.observe w.db.control.key).marker = some p.previousToken := by
      by_contra hcon
      refine hmark ⟨fun h => hcon (.inl h), ?_⟩
      simp only [Option.any_eq_true, decide_eq_true_eq, not_exists, not_and]
      exact fun p hp h => hcon (.inr ⟨p, hp, h⟩)
    have hdb : w₁.db = w.db := henv.1
    refine .ret ?_ ⟨hdb, _, hdb ▸ sighted_last _ w₁ (by rw [hdb]), hrole, hrun, hseen⟩
    refine hl.fits ?_ hrole (hdb ▸ hrun)
    rw [hdb]
    refine hseen.imp id ?_
    rintro ⟨p, hp, hm⟩
    obtain ⟨rows, hrows, hmem⟩ := ho p hp
    exact ⟨rows, hrows, p, hmem, hm⟩

theorem observeTarget_spec {c : Control} {p : PendingUpdate} (hl : Clean l)
    (hc : c = w.db.control) (hp : p.Valid w.db.control) :
    Spec P (Journal.observeTarget c p) l w fun _ _ w' => w'.db = w.db := by
  subst hc
  refine observe_spec fun w₁ a henv ha => ?_
  rcases ha with rfl | rfl
  · exact .fail (.inl hl.lost)
  dsimp only
  split_ifs with hmark hrole hrun
  · exact .stop _
  · exact .stop _
  · exact .stop _
  · rw [not_not] at hmark hrole hrun
    have hdb : w₁.db = w.db := henv.1
    refine .ret (hl.fits (.inl ?_) hrole ?_) hdb
    · rw [hmark, hp.target, hdb]
    · rw [hrun, hp.run, hdb]

theorem publishTarget_spec {p : PendingUpdate} (hl : Clean l) :
    Spec P (Journal.publishTarget p) l w fun _ _ w' => w'.db = w.db := by
  refine Spec.seq (M := fun _ _ w' => w'.db = w.db) (.blind rfl hl (fun _ _ _ => rfl) ?_) ?_
  · intro w₁ a w₂ henv hact
    rcases hact with ⟨_, rfl⟩ | ⟨_, rfl⟩ | ⟨_, rfl⟩ <;> exact henv.1
  · rintro (_ | _ | _) l' w' hl' hdb
    · exact .fail (.inl hl')
    · exact .stop _
    · exact .ret hl' hdb

end Observations

/-! ## Publishing a change -/

/-- The tables with the pending record removed. -/
def Database.acked (db : Database) : Database :=
  { db with pending := db.pending.map fun _ => [] }

theorem acked_noPending (db : Database) : db.acked.NoPending := by
  intro rows h
  simp only [Database.acked, Option.map_eq_some_iff] at h
  obtain ⟨_, _, rfl⟩ := h
  rfl

theorem acked_of_noPending (h : db.NoPending) : db.acked = db := by
  obtain ⟨control, admissions, attempts, evidence, checkpoints, halts, pending, solana⟩ := db
  cases pending with
  | none => rfl
  | some rows =>
    obtain rfl := h rows rfl
    rfl

theorem Database.Projected.load (hdb : db.Projected) {o : Option PendingUpdate}
    (h : db.load db.control = .ok o) :
    (o = none ∧ db.NoPending) ∨ ∃ p, o = some p ∧ db.pending = some [p] ∧ p.Valid db.control := by
  rcases load_ok h with ⟨hs, rfl⟩ | ⟨_, rows, hrows, rfl, hvalid⟩
  · exact .inl ⟨rfl, fun rows hrows => by simp [hdb.first hs] at hrows⟩
  · have hlen := hdb.single rows hrows
    rcases rows with _ | ⟨p, _ | ⟨q, rest⟩⟩
    · exact .inl ⟨rfl, fun rows' h => by rw [hrows] at h; exact (Option.some.inj h).symm⟩
    · exact .inr ⟨p, rfl, hrows, hvalid p rfl⟩
    · simp at hlen

section Publishing

variable {l : Log} {w : World}

section Transactions

variable {t : Tx} {K : t.Result → Log → World → Prop} (ht : t.offline = false) (hl : Clean l)
  (h : ∀ w₀ now a db', disturbs w w₀ → t.exec P now w₀.db = .ok (a, db') →
    Clean (l ++ [⟨.sql t, .ok a, w₀, { w₀ with db := db' }⟩]) →
    K a (l ++ [⟨.sql t, .ok a, w₀, { w₀ with db := db' }⟩]) { w₀ with db := db' })
include ht hl h

theorem commit_spec : Spec P (Journal.commit t) l w K := by
  refine (sat_run_bind _ _).mpr (sat_query.mpr fun w₁ henv a w₂ (hact : Submitted P t w₁ a w₂) => ?_)
  have hcommit : Commit P false w₁.db w₂.db := ht ▸ act_commit (q := .sql t) hact
  refine ⟨hcommit.online, ?_⟩
  have hl' : Clean (l ++ [⟨.sql t, a, w₁, w₂⟩]) := hl.append (not_badSight_of_sight rfl)
  change Spec P (Journal.storageResult a) _ w₂ K
  rcases hact with ⟨now, r, db, hexec, rfl, rfl⟩ | ⟨_, e, _, rfl, rfl⟩ | ⟨rfl, rfl⟩
  · exact ⟨hl', h w₁ now r db henv hexec hl'⟩
  · cases e with
    | storage => exact .stop _
    | _ => exact .fail (.inl hl')
  · exact .stop _

theorem sql_spec : Spec P (Journal.sql t) l w K := by
  intro w₁ henv a w₂ (hact : Submitted P t w₁ a w₂)
  have hcommit : Commit P false w₁.db w₂.db := ht ▸ act_commit (q := .sql t) hact
  refine ⟨hcommit.online, ?_⟩
  have hl' : Clean (l ++ [⟨.sql t, a, w₁, w₂⟩]) := hl.append (not_badSight_of_sight rfl)
  change Outcome K a _ w₂
  rcases hact with ⟨now, r, db, hexec, rfl, rfl⟩ | ⟨_, e, _, rfl, rfl⟩ | ⟨rfl, rfl⟩
  · exact ⟨hl', h w₁ now r db henv hexec hl'⟩
  · exact .inl hl'
  · exact .inl hl'

end Transactions

theorem completePending_spec {c : Control} {p : PendingUpdate} (hl : Clean l)
    (hc : c = w.db.control) (hrows : w.db.pending = some [p]) (hp : p.Valid w.db.control) :
    Spec P (Journal.completePending c p) l w fun _ l' w' =>
      w'.db = w.db.acked ∧ Confirmed l' w'.db := by
  refine (publishTarget_spec hl).seq fun _ l₁ w₁ hl₁ hw₁ => ?_
  refine (observeTarget_spec hl₁ (by rw [hw₁]; exact hc) (hw₁ ▸ hp)).seq fun _ l₂ w₂ hl₂ hw₂ => ?_
  refine (commit_spec (K := fun _ _ w' => w'.db = w.db.acked) rfl hl₂ ?_).seq
    fun _ l₃ w₃ hl₃ hw₃ => ?_
  · intro w₀ now a db' henv hexec _
    have hw₀ : w₀.db = w.db := henv.1.trans (hw₂.trans hw₁)
    obtain ⟨_, _, rows, hrows', rfl⟩ := acknowledge_ok (writing_ok (q := (·.acknowledge p)) hexec)
    rw [hw₀, hrows] at hrows'
    obtain rfl := (List.cons.inj (Option.some.inj hrows')).2
    simp [Database.acked, hw₀, hrows]
  · have hc₃ : c = w₃.db.control := by rw [hw₃]; exact hc
    refine (observeCheckpoint_spec hl₃ hc₃ (by simp)).mono ?_
    rintro _ l₄ w₄ _ ⟨hw₄, seen, hseen, hrole, hrun, hmark⟩
    refine ⟨hw₄.trans hw₃, ?_⟩
    rw [hw₄]
    refine ⟨hw₃ ▸ acked_noPending _, seen, hseen, ?_, hrole, hc₃ ▸ hrun⟩
    rw [← hc₃]
    simpa using hmark

/-- **A health check that succeeds confirms the tables**, having completed a change left over. -/
theorem healthyLocked_spec (hl : Clean l) (hdb : w.db.Projected) :
    Spec P Journal.healthyLocked l w fun c l' w' =>
      c = w'.db.control ∧ c.halted = false ∧ w'.db = w.db.acked ∧ Confirmed l' w'.db := by
  refine Spec.seq (M := fun _ _ w' => w'.db = w.db) (.blind rfl hl (fun _ _ _ => rfl) ?_)
    fun failed l₁ w₁ hl₁ hw₁ => ?_
  · rintro w₁ a w₂ henv ⟨_, rfl⟩
    exact henv.1
  refine Spec.seq (M := fun _ _ w' => w'.db = w.db) (.value hl₁ fun _ _ => hw₁)
    fun _ l₂ w₂ hl₂ hw₂ => ?_
  refine Spec.seq (M := fun r _ w' => w'.db = w.db ∧
      ∀ c o, r = .ok (c, o) → c = w.db.control ∧ w.db.load w.db.control = .ok o)
    (.blind rfl hl₂ (fun _ _ _ => rfl) ?_) fun r l₃ w₃ hl₃ hw₃ => ?_
  · intro w₃ a w₄ henv hact
    have hw₃ : w₃.db = w.db := henv.1.trans hw₂
    rcases hact with ⟨now, r, db, hexec, rfl, rfl⟩ | ⟨_, _, _, rfl, rfl⟩ | ⟨rfl, rfl⟩
    · obtain ⟨hstate, rfl⟩ := reading_ok hexec
      refine ⟨hw₃, ?_⟩
      rintro c o ⟨⟩
      simp only [Database.state, bind_ok, readControl_ok, pure_ok, Prod.mk.injEq] at hstate
      obtain ⟨_, ⟨_, rfl⟩, _, hload, rfl, rfl⟩ := hstate
      exact ⟨by rw [hw₃], hw₃ ▸ hload⟩
    · exact ⟨hw₃, by simp⟩
    · exact ⟨hw₃, by simp⟩
  obtain ⟨hw₃, hr⟩ := hw₃
  rcases r with _ | ⟨c, o⟩
  · exact .stop _
  · obtain ⟨rfl, hload⟩ := hr c o rfl
    dsimp only
    split_ifs with hhalt
    · refine Spec.seq (M := fun _ _ _ => True) (.blind rfl hl₃ (fun _ _ _ => rfl) ?_)
        fun _ l₄ w₄ hl₄ _ => .fail (.inl hl₄)
      exact fun _ _ _ _ _ => trivial
    · have hrows : ∀ p, o = some p → ∃ rows, w₃.db.pending = some rows ∧ p ∈ rows := by
        rintro p rfl
        rcases hdb.load hload with ⟨h, _⟩ | ⟨_, ⟨⟩, h, _⟩
        · cases h
        · exact ⟨_, hw₃ ▸ h, List.mem_singleton_self _⟩
      refine (observeCheckpoint_spec hl₃ (by rw [hw₃]) hrows).seq fun _ l₄ w₄ hl₄ h₄ => ?_
      obtain ⟨hw₄, seen, hseen, hrole, hrun, hmark⟩ := h₄
      rw [hw₃] at hw₄ hseen
      refine Spec.seq (M := fun _ l' w' => w'.db = w.db.acked ∧ Confirmed l' w'.db) ?_
        fun _ l₅ w₅ hl₅ h₅ => .ret hl₅ ⟨by rw [h₅.1]; rfl, by simpa using hhalt, h₅⟩
      rcases hdb.load hload with ⟨rfl, hno⟩ | ⟨p, rfl, hrows, hvalid⟩
      · refine .ret hl₄ ⟨by rw [hw₄, acked_of_noPending hno], ?_⟩
        rw [hw₄]
        exact ⟨hno, seen, hseen, by simpa using hmark, hrole, hrun⟩
      · refine (completePending_spec hl₄ (by rw [hw₄]) (hw₄ ▸ hrows) (hw₄ ▸ hvalid)).mono ?_
        rintro _ l₅ w₅ _ ⟨hw₅, hconf⟩
        exact ⟨by rw [hw₅, hw₄], hconf⟩

/-- **A mirrored change is confirmed.** -/
theorem mirror_spec {old : Control} (hl : Clean l) (hdb : w.db.Projected) :
    Spec P (Journal.mirror old) l w fun _ l' w' =>
      w'.db = w.db.acked ∧ Confirmed l' w'.db := by
  refine (commit_spec (t := .mirrorState old) (K := fun (r : Control × PendingUpdate) _ w' =>
    w'.db = w.db ∧ r.1 = w.db.control ∧ w.db.pending = some [r.2] ∧ r.2.Valid w.db.control)
    rfl hl ?_).seq fun r l₁ w₁ hl₁ h₁ => ?_
  · rintro w₀ now ⟨c, p⟩ db' henv hexec _
    obtain ⟨hstate, rfl⟩ := reading_ok hexec
    have hw₀ : w₀.db = w.db := henv.1
    simp only [Database.mirrorState, bind_ok, readControl_ok, require_ok, refuse_ok, pure_ok,
      exists_const, Prod.mk.injEq] at hstate
    obtain ⟨_, ⟨_, rfl⟩, _, hload, _, rfl, _, rfl, rfl⟩ := hstate
    rw [hw₀] at hload
    rcases hdb.load hload with ⟨h, _⟩ | ⟨_, ⟨⟩, hrows, hvalid⟩
    · cases h
    · exact ⟨hw₀, by rw [hw₀], hrows, hvalid⟩
  · obtain ⟨c, p⟩ := r
    obtain ⟨hw₁, rfl, hrows, hvalid⟩ := h₁
    dsimp only at hrows hvalid
    refine (observeCheckpoint_spec hl₁ (by rw [hw₁]) ?_).seq fun _ l₂ w₂ hl₂ h₂ => ?_
    · rintro _ ⟨⟩
      exact ⟨_, hw₁ ▸ hrows, List.mem_singleton_self _⟩
    · have hw₂ : w₂.db = w.db := h₂.1.trans hw₁
      refine (completePending_spec hl₂ (by rw [hw₂]) (hw₂ ▸ hrows) (hw₂ ▸ hvalid)).mono ?_
      rintro _ l₃ w₃ _ ⟨hw₃, hconf⟩
      exact ⟨by rw [hw₃, hw₂], hconf⟩

end Publishing

end EngineCore.Recovery
