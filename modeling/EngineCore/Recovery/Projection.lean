import EngineCore.Recovery.Keys

/-!
# The pending checkpoint record

Every change of the ledger advances the checkpoint and leaves one record of the token that Redis
still has to show. The record is removed when the new token has been seen.

* **`advance_ok`**, **`migrate_ok`**, **`acknowledge_ok`**: what each of them does;
* **`Control.token_inj`**: one deployment never gives one token to two checkpoints.
-/

namespace EngineCore.Recovery

open Except (bind_ok pure_ok)

/-! ## Tokens -/

theorem append_sep_inj {α : Type} {a a' b b' : List α} {c : α} (ha : c ∉ a) (ha' : c ∉ a')
    (h : a ++ c :: b = a' ++ c :: b') : a = a' ∧ b = b' := by
  induction a generalizing a' with
  | nil =>
    cases a' with
    | nil => simpa using h
    | cons x xs =>
      simp only [List.nil_append, List.cons_append, List.cons.injEq] at h
      exact absurd (h.1 ▸ List.mem_cons_self) ha'
  | cons x xs ih =>
    cases a' with
    | nil =>
      simp only [List.nil_append, List.cons_append, List.cons.injEq] at h
      exact absurd (h.1 ▸ List.mem_cons_self) ha
    | cons y ys =>
      simp only [List.cons_append, List.cons.injEq] at h
      obtain ⟨rfl, h⟩ := h
      obtain ⟨rfl, rfl⟩ := ih (fun hx => ha (List.mem_cons_of_mem _ hx))
        (fun hx => ha' (List.mem_cons_of_mem _ hx)) h
      exact ⟨rfl, rfl⟩

/-- **Tokens identify checkpoints** of one deployment. -/
theorem Control.token_inj {c d : Control} (hdep : c.deployment = d.deployment)
    (h : c.token = d.token) :
    c.schema = d.schema ∧ c.epoch = d.epoch ∧ c.checkpoint = d.checkpoint := by
  have h' := congrArg String.toList h
  have hcolon : ":".toList = [':'] := rfl
  simp only [Control.token, hdep, hcolon, String.toList_append, List.append_assoc,
    List.append_cancel_left_eq, List.cons_append, List.nil_append] at h'
  obtain ⟨hs, h'⟩ := append_sep_inj (colon_notMem_toString _) (colon_notMem_toString _) h'
  simp only [List.append_cancel_left_eq, List.cons.injEq, true_and] at h'
  obtain ⟨he, hc⟩ := append_sep_inj (colon_notMem_toString _) (colon_notMem_toString _) h'
  exact ⟨toString_injective (String.toList_injective hs),
    toString_injective (String.toList_injective he), toString_injective (String.toList_injective hc)⟩

/-! ## The record -/

namespace PendingUpdate

/-- The record of a change from one control row to the next. -/
def between (previous target : Control) : PendingUpdate :=
  { previousToken := previous.token, targetToken := target.token
    redisKey := target.key, runId := target.runId }

/-- The previous token is that of the checkpoint just before. -/
def Sequential (p : PendingUpdate) (c : Control) : Prop :=
  0 < c.checkpoint ∧ p.previousToken = { c with checkpoint := c.checkpoint - 1 }.token

/-- The previous token is that of the same checkpoint under an older schema. -/
def Migration (p : PendingUpdate) (c : Control) : Prop :=
  ∃ schema ∈ List.range' 1 (c.schema - 1), p.previousToken = { c with schema }.token

/-- The record fits the control row. -/
structure Valid (p : PendingUpdate) (c : Control) : Prop where
  schema : 2 ≤ c.schema ∧ c.schema ≤ schemaVersion
  target : p.targetToken = c.token
  key : p.redisKey = c.key
  run : p.runId = c.runId
  previous : p.Sequential c ∨ p.Migration c

instance (p : PendingUpdate) (c : Control) : Decidable (p.Sequential c) :=
  inferInstanceAs (Decidable (_ ∧ _))

instance (p : PendingUpdate) (c : Control) : Decidable (p.Migration c) :=
  inferInstanceAs (Decidable (∃ schema ∈ _, _))

theorem valid_iff (p : PendingUpdate) (c : Control) :
    p.Valid c ↔ (2 ≤ c.schema ∧ c.schema ≤ schemaVersion) ∧ p.targetToken = c.token ∧
      p.redisKey = c.key ∧ p.runId = c.runId ∧ (p.Sequential c ∨ p.Migration c) :=
  ⟨fun h => ⟨h.schema, h.target, h.key, h.run, h.previous⟩,
    fun ⟨h₁, h₂, h₃, h₄, h₅⟩ => ⟨h₁, h₂, h₃, h₄, h₅⟩⟩

instance (p : PendingUpdate) (c : Control) : Decidable (p.Valid c) :=
  decidable_of_iff _ (valid_iff p c).symm

def validate (p : PendingUpdate) (c : Control) : Result Unit := refuse (¬p.Valid c) .storage

@[simp] theorem validate_ok {p : PendingUpdate} {c : Control} {u : Unit} :
    p.validate c = .ok u ↔ p.Valid c := by
  simp [validate]

theorem Valid.congr {p : PendingUpdate} {c d : Control} (h : p.Valid c) (hs : d.schema = c.schema)
    (hd : d.deployment = c.deployment) (he : d.epoch = c.epoch) (hc : d.checkpoint = c.checkpoint)
    (hn : d.nameSpace = c.nameSpace) (hr : d.runId = c.runId) : p.Valid d := by
  have htoken : d.token = c.token := by simp only [Control.token, hs, hd, he, hc]
  refine ⟨hs ▸ h.schema, htoken ▸ h.target, ?_, hr ▸ h.run, ?_⟩
  · rw [h.key, Control.key, Control.key, hn]
  · refine h.previous.imp (fun h => ?_) (fun h => ?_)
    · refine ⟨hc ▸ h.1, h.2.trans ?_⟩
      simp only [Control.token, hs, hd, he, hc]
    · obtain ⟨schema, hmem, h⟩ := h
      refine ⟨schema, hs ▸ hmem, h.trans ?_⟩
      simp only [Control.token, hd, he, hc]

end PendingUpdate

namespace Database

/-- The pending record, checked against the control row. Schema 1 has no such table. -/
def load (db : Database) (current : Control) : Result (Option PendingUpdate) :=
  if current.schema = 1 then return none
  else do
    let rows ← require db.pending .storage
    match rows.head? with
    | none => return none
    | some p =>
      p.validate current
      return some p

/-- Record a change in the transaction that makes it. -/
def record (db : Database) (previous target : Control) : Result Database := do
  let pending := PendingUpdate.between previous target
  pending.validate target
  let rows ← require db.pending .storage
  -- the table's primary key admits one row
  refuse (rows ≠ []) .storage
  return { db with pending := some [pending] }

/-- Advance the checkpoint and record the change; the old control row is returned. -/
def advance (db : Database) : Result (Control × Database) := do
  let old ← db.readControl
  refuse (old.checkpoint = i64Max) (.invalid "checkpoint exhausted")
  let db := { db with control.checkpoint := db.control.checkpoint + 1 }
  let target ← db.readControl
  let db ← db.record old target
  return (old, db)

def removeExact (db : Database) (expected : PendingUpdate) : Result Database := do
  let rows ← require db.pending .storage
  refuse (rows.head? ≠ some expected) .storage
  return { db with pending := some rows.tail }

/-- Remove the record once its target token has been seen. -/
def acknowledge (db : Database) (expected : PendingUpdate) : Result Database := do
  let current ← db.readControl
  expected.validate current
  let changed := .recoveryRequired "pending checkpoint changed before acknowledgement"
  refuse current.halted changed
  let found ← db.load current
  refuse (found ≠ some expected) changed
  db.removeExact expected

/-- Bring a healthy older ledger to the newest schema. -/
def migrate (db : Database) : Result Database := do
  let old ← db.readControl
  if old.schema = schemaVersion then return db
  else
    let unhealthy := .recoveryRequired "legacy journal is not healthy"
    refuse old.halted unhealthy
    let found ← db.load old
    refuse (found ≠ none) unhealthy
    -- `CREATE TABLE` fails on a table that is already there
    refuse (old.schema = 1 ∧ db.pending ≠ none) .storage
    refuse (db.solana ≠ none) .storage
    let db := if old.schema = 1 then { db with pending := some [] } else db
    let db := { db with solana := some [], control.schema := schemaVersion }
    let new ← db.readControl
    db.record old new

/-! ## What the statements do -/

def advanced (db : Database) : Database :=
  { db with
    control.checkpoint := db.control.checkpoint + 1
    pending := some
      [.between db.control { db.control with checkpoint := db.control.checkpoint + 1 }] }

def migrated (db : Database) : Database :=
  { db with
    control.schema := schemaVersion
    solana := some []
    pending := some [.between db.control { db.control with schema := schemaVersion }] }

end Database

variable {db db' : Database}

@[simp] theorem readControl_ok {c : Control} :
    db.readControl = .ok c ↔ db.control.schema ∈ [1, 2, schemaVersion] ∧ db.control = c := by
  simp only [Database.readControl, bind_ok, refuse_ok, pure_ok, not_not]
  constructor
  · rintro ⟨_, h, rfl⟩
    exact ⟨h, rfl⟩
  · rintro ⟨h, rfl⟩
    exact ⟨(), h, rfl⟩

theorem record_ok {previous target : Control} (h : db.record previous target = .ok db') :
    db.pending = some [] ∧ (PendingUpdate.between previous target).Valid target ∧
      db' = { db with pending := some [.between previous target] } := by
  simp only [Database.record, bind_ok, PendingUpdate.validate_ok, require_ok, refuse_ok, pure_ok,
    not_not, exists_const] at h
  obtain ⟨hv, rows, hrows, rfl, rfl⟩ := h
  exact ⟨hrows, hv, rfl⟩

/-- **`advance`** moves the checkpoint by one and leaves the one record of it. -/
theorem advance_ok {old : Control} (h : db.advance = .ok (old, db')) :
    old = db.control ∧ db.pending = some [] ∧ db.control.checkpoint ≠ i64Max ∧
      2 ≤ db.control.schema ∧ db.control.schema ≤ schemaVersion ∧ db' = db.advanced := by
  simp only [Database.advance, bind_ok, readControl_ok, refuse_ok, pure_ok, Prod.mk.injEq,
    exists_const] at h
  obtain ⟨_, ⟨_, rfl⟩, hmax, _, ⟨_, rfl⟩, db₁, hrec, rfl, rfl⟩ := h
  obtain ⟨hp, hv, rfl⟩ := record_ok hrec
  exact ⟨rfl, hp, hmax, hv.schema.1, hv.schema.2, rfl⟩

theorem load_ok {c : Control} {o : Option PendingUpdate} (h : db.load c = .ok o) :
    (c.schema = 1 ∧ o = none) ∨
      (c.schema ≠ 1 ∧ ∃ rows, db.pending = some rows ∧ o = rows.head? ∧ ∀ p, o = some p → p.Valid c) := by
  unfold Database.load at h
  split_ifs at h with hs
  · simp only [pure_ok] at h
    exact .inl ⟨hs, h.symm⟩
  · simp only [bind_ok, require_ok] at h
    obtain ⟨rows, hrows, h⟩ := h
    refine .inr ⟨hs, rows, hrows, ?_⟩
    cases hhead : rows.head? with
    | none =>
      simp only [hhead, pure_ok] at h
      subst h
      exact ⟨rfl, by simp⟩
    | some p =>
      simp only [hhead, bind_ok, PendingUpdate.validate_ok, pure_ok, exists_const] at h
      obtain ⟨hv, rfl⟩ := h
      refine ⟨rfl, ?_⟩
      rintro _ ⟨⟩
      exact hv

/-- **`acknowledge`** removes the one record of a ledger that is not halted. -/
theorem acknowledge_ok {p : PendingUpdate} (h : db.acknowledge p = .ok db') :
    p.Valid db.control ∧ db.control.halted = false ∧
      ∃ rows, db.pending = some (p :: rows) ∧ db' = { db with pending := some rows } := by
  simp only [Database.acknowledge, Database.removeExact, bind_ok, readControl_ok,
    PendingUpdate.validate_ok, refuse_ok, require_ok, pure_ok, exists_const, not_not,
    Bool.not_eq_true] at h
  obtain ⟨_, ⟨_, rfl⟩, hv, hhalt, found, hload, rfl, rows, hrows, hhead, rfl⟩ := h
  refine ⟨hv, hhalt, rows.tail, ?_, rfl⟩
  rw [hrows, List.head?_eq_some_iff.mp hhead |>.choose_spec]
  simp

/-- **`migrate`** leaves a current ledger alone; an older one must be healthy and becomes current,
with the record of its change of token. -/
theorem migrate_ok (h : db.migrate = .ok db') :
    (db.control.schema = schemaVersion ∧ db' = db) ∨
      ((db.control.schema = 1 ∧ db.pending = none ∨ db.control.schema = 2 ∧ db.pending = some []) ∧
        db.control.halted = false ∧ db.solana = none ∧ db' = db.migrated) := by
  simp only [Database.migrate, bind_ok, readControl_ok] at h
  obtain ⟨_, ⟨hschema, rfl⟩, h⟩ := h
  by_cases hnew : db.control.schema = schemaVersion
  · rw [if_pos hnew, pure_ok] at h
    exact .inl ⟨hnew, h.symm⟩
  · rw [if_neg hnew] at h
    simp only [bind_ok, readControl_ok, refuse_ok, exists_const, not_not, Bool.not_eq_true,
      not_and] at h
    obtain ⟨hhalt, found, hload, rfl, htable, hsolana, _, ⟨_, rfl⟩, hrec⟩ := h
    refine .inr ⟨?_, hhalt, hsolana, ?_⟩
    · rcases load_ok hload with ⟨hs, _⟩ | ⟨hs, rows, hrows, hhead, _⟩
      · exact .inl ⟨hs, htable hs⟩
      · refine .inr ⟨?_, ?_⟩
        · simp only [List.mem_cons, List.not_mem_nil, or_false] at hschema
          exact (hschema.resolve_left hs).resolve_right hnew
        · rw [hrows, List.head?_eq_none_iff.mp hhead.symm]
    · obtain ⟨_, _, rfl⟩ := record_ok hrec
      unfold Database.migrated
      split_ifs <;> rfl

end EngineCore.Recovery
