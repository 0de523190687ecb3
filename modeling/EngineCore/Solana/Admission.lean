import EngineCore.Solana.Worker
import EngineCore.Twmq.Runs

/-!
# Admission of Solana requests

A request is admitted by one script, which reserves its fingerprint under its id and puts its job
into the queue. The reservation outlives the history of the queue: it ends only by expiry, after a
completion has marked it.

* **`admission_idempotent`**: while a reservation exists its id is enqueued once and accepts one
  fingerprint; an accepted request has a live job or a recorded end; a request that reserves nothing
  changes nothing.
-/

namespace EngineCore.Solana

open Twmq Redis
open Recovery (Primitives)

deriving instance DecidableEq for SolanaExecutorJobData

/-! ## Keys -/

inductive AdmissionState
  | active
  | completed
  | failed
  deriving DecidableEq, Repr

structure Admission where
  fingerprint : Option String := none
  state : Option AdmissionState := none
  deriving DecidableEq, Repr

/-- The keys of the queue with its results and error lists, the admissions, the ids with an attempt,
the ids in the registry and the version of the admission schema. -/
structure SolanaStore where
  queue : Queue SolanaExecutorJobData := {}
  results : List String := []
  errors : List String := []
  admissions : String → Option Admission := fun _ => none
  attempts : List String := []
  registry : List String := []
  schema : Option String := none

def solanaAdmissionFingerprint (P : Primitives) (data : SolanaExecutorJobData) : String :=
  P.sha256 data.payload.sort.render

/-! ## The script -/

inductive AdmitResult
  | created
  | existing
  | conflict
  | incomplete
  | unresolved
  | unknownSchema
  | tooManyRecords
  deriving DecidableEq, Repr

/-- `check_records`: the ids seen after the list, if all its records are whole. -/
def checkRecords (q : Queue SolanaExecutorJobData) (terminal : Bool) :
    List String → List String → Option (List String)
  | [], seen => some seen
  | id :: ids, seen =>
    if id ∈ seen then none
    else if q.jobs id = {} ∨ (q.data id).isNone ∨ (q.jobs id).createdAt.isNone ∨
        (q.jobs id).attempts.isNone then none
    else if (q.jobs id).finishedAt.isSome ≠ terminal then none
    else if terminal = false ∧ id ∉ q.dedup then none
    else checkRecords q terminal ids (id :: seen)

/-- Why the schema refuses every request. A queue without one is checked as a whole. -/
def SolanaStore.checkSchema (s : SolanaStore) : Option AdmitResult :=
  match s.schema with
  | some schema => if schema ≠ "1" then some .unknownSchema else none
  | none =>
    let q := s.queue
    if 20000 < q.pending.length + q.active.length + q.delayed.length + q.success.length +
        q.failed.length then some .tooManyRecords
    else
      let checked := do
        let seen ← checkRecords q false q.pending []
        let seen ← checkRecords q false (keys q.active) seen
        let seen ← checkRecords q false (keys q.delayed) seen
        let seen ← checkRecords q true q.success seen
        checkRecords q true q.failed seen
      if checked.isNone then some .incomplete else none

/-- The job of an active admission has all its records and has not ended. -/
def SolanaStore.resumable (s : SolanaStore) (id : String) : Bool :=
  (s.queue.data id).isSome && (s.queue.jobs id).createdAt.isSome &&
    (s.queue.jobs id).attempts.isSome && (s.queue.jobs id).finishedAt.isNone && id ∈ s.queue.dedup

def SolanaStore.Occupied (s : SolanaStore) (id : String) : Prop :=
  (s.admissions id).isSome ∨ id ∈ s.attempts ∨ id ∈ s.registry ∨ (s.queue.data id).isSome ∨
    s.queue.jobs id ≠ {} ∨ id ∈ s.queue.dedup ∨ id ∈ keys s.queue.active ∨
    id ∈ keys s.queue.delayed ∨ id ∈ s.results ∨ id ∈ s.queue.cancellations ∨ id ∈ s.errors

instance (s : SolanaStore) (id : String) : Decidable (s.Occupied id) :=
  inferInstanceAs (Decidable (_ ∨ _))

def SolanaStore.create (P : Primitives) (s : SolanaStore) (data : SolanaExecutorJobData) (now : ℕ) :
    SolanaStore :=
  let id := data.transactionId
  { s with
    schema := some "1"
    admissions := Function.update s.admissions id
      (some ⟨some (solanaAdmissionFingerprint P data), some .active⟩)
    queue :=
      { s.queue with
        data := Function.update s.queue.data id (some data)
        jobs := Function.update s.queue.jobs id
          { s.queue.jobs id with createdAt := some now, attempts := some 0 }
        dedup := sadd s.queue.dedup id
        pending := s.queue.pending ++ [id] }
    registry := sadd s.registry id }

/-- What a request finds under an existing fingerprint. -/
def SolanaStore.found (P : Primitives) (s : SolanaStore) (data : SolanaExecutorJobData)
    (existing : String) : AdmitResult :=
  if existing ≠ solanaAdmissionFingerprint P data then .conflict
  else
    match (s.admissions data.transactionId).bind Admission.state with
    | some .completed | some .failed => .existing
    | some .active => if s.resumable data.transactionId then .existing else .unresolved
    | none => .incomplete

/-- The script of `admit`. -/
def SolanaStore.admitRequest (P : Primitives) (s : SolanaStore) (data : SolanaExecutorJobData) (now : ℕ) :
    SolanaStore × AdmitResult :=
  match s.checkSchema with
  | some refusal => (s, refusal)
  | none =>
    match (s.admissions data.transactionId).bind Admission.fingerprint with
    | some existing => (s, s.found P data existing)
    | none =>
      if s.Occupied data.transactionId then (s, .incomplete) else (s.create P data now, .created)

/-- What `admit` returns. A refusal is a `ValidationError`. -/
def AdmitResult.outcome : AdmitResult → Except EngineError Unit
  | .created | .existing => .ok ()
  | .conflict =>
    .error (.other "Solana idempotency key already belongs to a different request")
  | .unknownSchema =>
    .error (.other "Unknown Solana admission schema; migration is required")
  | .tooManyRecords =>
    .error (.other ("Solana queue exceeds the 20000-record online migration limit; " ++
      "stop old workers and reconcile or migrate offline"))
  | .unresolved =>
    .error (.other ("Solana request is unresolved without a live queue job; " ++
      "operator reconciliation is required"))
  | .incomplete =>
    .error (.other ("Existing or incomplete Solana recovery state requires operator " ++
      "reconciliation; request was not queued"))

/-! ## Hooks -/

/-- `add_terminal_admission_command`; the expiry it starts is a step of its own. -/
def SolanaStore.terminalAdmission (s : SolanaStore) (id fingerprint : String)
    (state : AdmissionState) (requireNoAttempt : Bool) : SolanaStore :=
  match s.admissions id with
  | none => s
  | some admission =>
    if admission.fingerprint = some fingerprint ∧ (requireNoAttempt = false ∨ id ∉ s.attempts) then
      { s with admissions := Function.update s.admissions id (some { admission with state := some state }) }
    else s

def SolanaStore.deleteAttempt (s : SolanaStore) (id : String) : SolanaStore :=
  { s with attempts := srem s.attempts id }

/-- `add_remove_command` of the registry. -/
def SolanaStore.unregister (s : SolanaStore) (id : String) : SolanaStore :=
  { s with registry := srem s.registry id }

def SolanaStore.onSuccess (P : Primitives) (s : SolanaStore) (data : SolanaExecutorJobData) :
    SolanaStore :=
  let id := data.transactionId
  ((s.terminalAdmission id (solanaAdmissionFingerprint P data) .completed false).deleteAttempt
    id).unregister id

/-- A cancellation or an infrastructure failure says nothing of the outcome on chain: the attempt
and the admission stay. -/
def SolanaStore.onFail (P : Primitives) (s : SolanaStore) (data : SolanaExecutorJobData)
    (error : SolanaExecutorError) : SolanaStore :=
  let id := data.transactionId
  let fingerprint := solanaAdmissionFingerprint P data
  match error with
  | .transactionFailed _ =>
    ((s.terminalAdmission id fingerprint .failed false).deleteAttempt id).unregister id
  | .transactionBuildFailed _ | .signingFailed _ | .maxRetriesExceeded _ =>
    (s.terminalAdmission id fingerprint .failed true).unregister id
  | _ => s.unregister id

/-! ## The system -/

abbrev Outcome := Except Failure Unit

def Outcome.result : Outcome → JobResult
  | .ok _ => .success
  | .error (.nack _ delay position) => .nack delay position
  | .error (.fail _) => .fail

/-- The commands of a completion: those of its hook, then those of the queue. -/
def SolanaStore.commit (P : Primitives) (options : QueueOptions) (s : SolanaStore)
    (job : BorrowedJob SolanaExecutorJobData) (now : ℕ) (outcome : Outcome) : SolanaStore :=
  let queue := s.queue.finish options job.id job.leaseToken now outcome.result
  match outcome with
  | .ok _ => { s.onSuccess P job.data with queue := queue, results := sadd s.results job.id }
  | .error (.nack ..) => { s with queue := queue, errors := sadd s.errors job.id }
  | .error (.fail error) =>
    { s.onFail P job.data error with queue := queue, errors := sadd s.errors job.id }

/-- The ids whose records a trimming deletes, given the queue with its list trimmed. -/
def unreferenced (q : Queue SolanaExecutorJobData) (ids : List String) : List String :=
  ids.filter fun id => id ∉ keys q.active ∧ id ∉ q.pending ∧ id ∉ keys q.delayed ∧
    id ∉ q.success ∧ id ∉ q.failed

def SolanaStore.pruneSuccess (options : QueueOptions) (s : SolanaStore) : SolanaStore :=
  let ids := unreferenced { s.queue with success := s.queue.success.take options.maxSuccess }
    (s.queue.success.drop options.maxSuccess)
  { s with
    queue := s.queue.pruneSuccess options
    results := s.results.filter (· ∉ ids)
    errors := s.errors.filter (· ∉ ids) }

def SolanaStore.pruneFailed (options : QueueOptions) (s : SolanaStore) : SolanaStore :=
  let ids := unreferenced { s.queue with failed := s.queue.failed.take options.maxFailed }
    (s.queue.failed.drop options.maxFailed)
  { s with
    queue := s.queue.pruneFailed options
    results := s.results.filter (· ∉ ids)
    errors := s.errors.filter (· ∉ ids) }

/-- The keys, the jobs workers hold, and the cancellation hooks to come: `due` have not read their
job, `read` have. -/
structure AdmissionSite where
  store : SolanaStore := {}
  borrowed : List (BorrowedJob SolanaExecutorJobData) := []
  due : List String := []
  read : List SolanaExecutorJobData := []

inductive AdmissionStep
  | admitRequest (data : SolanaExecutorJobData) (now : ℕ)
  | pop (now : ℕ) (popId : String) (batch : ℕ)
  | complete (job : BorrowedJob SolanaExecutorJobData) (now : ℕ) (outcome : Outcome)
  | queueError (id : String) (token : LeaseToken) (now : ℕ)
  | cancel (id : String) (now : ℕ)
  | getJob (id : String)
  | onCancelled (data : SolanaExecutorJobData)
  | storeAttempt (id : String)
  | expireLease (id : String) (token : LeaseToken)
  | expireAdmission (id : String)
  | pruneSuccess
  | pruneFailed

def AdmissionSite.withQueue (s : AdmissionSite) (queue : Queue SolanaExecutorJobData) :
    AdmissionSite :=
  { s with store := { s.store with queue := queue } }

def AdmissionStep.apply (P : Primitives) (options : QueueOptions) (s : AdmissionSite) :
    AdmissionStep → AdmissionSite
  | .admitRequest data now => { s with store := (s.store.admitRequest P data now).1 }
  | .pop now popId batch =>
    let popped := s.store.queue.popBatch now popId batch
    { s.withQueue popped.1 with
      borrowed := popped.2.1 ++ s.borrowed, due := popped.2.2 ++ s.due }
  | .complete job now outcome =>
    if job ∈ s.borrowed ∧ (job.id, job.leaseToken) ∈ s.store.queue.leases then
      { s with store := s.store.commit P options job now outcome }
    else s
  | .queueError id token now =>
    if (id, token) ∈ s.store.queue.leases then
      { s with
        store :=
          { s.store with
            queue := s.store.queue.finish options id token now .fail
            errors := sadd s.store.errors id } }
    else s
  | .cancel id now =>
    let stopped := s.store.queue.cancelJob id now
    { s.withQueue stopped.1 with
      due := if stopped.2 = .cancelledImmediately then id :: s.due else s.due }
  | .getJob id =>
    if id ∈ s.due then
      { s with due := s.due.erase id, read := (s.store.queue.data id).toList ++ s.read }
    else s
  | .onCancelled data =>
    if data ∈ s.read then
      { s with store := s.store.onFail P data .userCancelled, read := s.read.erase data }
    else s
  | .storeAttempt id =>
    { s with store := { s.store with attempts := sadd s.store.attempts id } }
  | .expireLease id token => s.withQueue (s.store.queue.expireLease id token)
  | .expireAdmission id =>
    match s.store.admissions id with
    | some ⟨_, some .completed⟩ | some ⟨_, some .failed⟩ =>
      { s with store := { s.store with admissions := Function.update s.store.admissions id none } }
    | _ => s
  | .pruneSuccess => { s with store := s.store.pruneSuccess options }
  | .pruneFailed => { s with store := s.store.pruneFailed options }

def AdmissionSite.run (P : Primitives) (options : QueueOptions) (s : AdmissionSite)
    (steps : List AdmissionStep) : AdmissionSite :=
  steps.foldl (AdmissionStep.apply P options) s

section Lifetime

variable (P : Primitives) (options : QueueOptions) (id : String)

/-- The id has an admission after each of the steps. -/
def AdmissionSite.Admitted : AdmissionSite → List AdmissionStep → Prop
  | _, [] => True
  | s, step :: steps => ((step.apply P options s).store.admissions id).isSome ∧
      (step.apply P options s).Admitted steps

def AdmissionStep.enqueued (s : AdmissionSite) : AdmissionStep → ℕ
  | .admitRequest data now =>
    if data.transactionId = id ∧ (s.store.admitRequest P data now).2 = .created then 1 else 0
  | _ => 0

def AdmissionSite.enqueued : AdmissionSite → List AdmissionStep → ℕ
  | _, [] => 0
  | s, step :: steps => step.enqueued P id s + (step.apply P options s).enqueued steps

/-- The fingerprint a step accepts for the id. -/
def AdmissionStep.accepted (s : AdmissionSite) : AdmissionStep → List String
  | .admitRequest data now =>
    if data.transactionId = id ∧ ((s.store.admitRequest P data now).2.outcome).isOk then
      [solanaAdmissionFingerprint P data]
    else []
  | _ => []

def AdmissionSite.accepted : AdmissionSite → List AdmissionStep → List String
  | _, [] => []
  | s, step :: steps => step.accepted P id s ++ (step.apply P options s).accepted steps

end Lifetime

/-! ## What the script can do -/

section Script

variable {P : Primitives} {s : SolanaStore} {data : SolanaExecutorJobData} {now : ℕ}

theorem admit_cases (P : Primitives) (s : SolanaStore) (data : SolanaExecutorJobData) (now : ℕ) :
    (∃ refusal, refusal.outcome.isOk = false ∧ s.admitRequest P data now = (s, refusal)) ∨
    (∃ existing, (s.admissions data.transactionId).bind Admission.fingerprint = some existing ∧
      s.admitRequest P data now = (s, s.found P data existing)) ∨
    (¬s.Occupied data.transactionId ∧ s.admitRequest P data now = (s.create P data now, .created)) := by
  have hschema : ∀ refusal, s.checkSchema = some refusal → refusal.outcome.isOk = false := by
    intro refusal hr
    unfold SolanaStore.checkSchema at hr
    split at hr
    · split_ifs at hr
      cases hr
      rfl
    · simp only at hr
      split_ifs at hr
      all_goals
        cases hr
        rfl
  unfold SolanaStore.admitRequest
  cases hs : s.checkSchema with
  | some refusal => exact .inl ⟨refusal, hschema refusal hs, rfl⟩
  | none =>
    cases he : (s.admissions data.transactionId).bind Admission.fingerprint with
    | some existing => exact .inr (.inl ⟨existing, rfl, rfl⟩)
    | none =>
      by_cases ho : s.Occupied data.transactionId
      · exact .inl ⟨.incomplete, rfl, if_pos ho⟩
      · exact .inr (.inr ⟨ho, if_neg ho⟩)

theorem found_ne_created {existing : String} : s.found P data existing ≠ .created := by
  unfold SolanaStore.found
  repeat' split
  all_goals simp

theorem found_ok {existing : String} (h : (s.found P data existing).outcome.isOk) :
    existing = solanaAdmissionFingerprint P data ∧
    ((s.admissions data.transactionId).bind Admission.state = some .completed ∨
      (s.admissions data.transactionId).bind Admission.state = some .failed ∨
      s.resumable data.transactionId) := by
  unfold SolanaStore.found at h
  by_cases he : existing = solanaAdmissionFingerprint P data
  swap
  · rw [if_pos he] at h
    cases h
  rw [if_neg (not_not_intro he)] at h
  refine ⟨he, ?_⟩
  split at h
  · exact .inl ‹_›
  · exact .inr (.inl ‹_›)
  · split_ifs at h with hr
    · exact .inr (.inr hr)
    · cases h
  · cases h

theorem admit_unchanged (h : (s.admitRequest P data now).2 ≠ .created) : (s.admitRequest P data now).1 = s := by
  rcases admit_cases P s data now with ⟨refusal, -, he⟩ | ⟨existing, -, he⟩ | ⟨-, he⟩
  · rw [he]
  · rw [he]
  · rw [he] at h
    exact absurd rfl h

theorem not_occupied_of_created (h : (s.admitRequest P data now).2 = .created) :
    ¬s.Occupied data.transactionId ∧ (s.admitRequest P data now).1 = s.create P data now := by
  rcases admit_cases P s data now with ⟨refusal, hr, he⟩ | ⟨existing, -, he⟩ | ⟨ho, he⟩
  · rw [he] at h
    rw [show refusal = .created from h] at hr
    cases hr
  · rw [he] at h
    exact absurd h found_ne_created
  · exact ⟨ho, by rw [he]⟩

theorem create_queue (ho : ¬s.Occupied data.transactionId) :
    (s.create P data now).queue = (s.queue.push data.transactionId data now 0 .last).1 := by
  have hnew : data.transactionId ∉ s.queue.dedup := fun hi => ho (by simp [SolanaStore.Occupied, hi])
  unfold Queue.push
  rw [if_neg hnew]
  rfl

end Script

/-! ## The other steps -/

/-- Admissions may end, but keep their fingerprints. -/
def SolanaStore.Keeps (s s' : SolanaStore) : Prop := ∀ i a', s'.admissions i = some a' →
  ∃ a, s.admissions i = some a ∧ a'.fingerprint = a.fingerprint

namespace SolanaStore.Keeps

variable {P : Primitives} {s s' : SolanaStore}

theorem of_eq (h : s'.admissions = s.admissions) : s.Keeps s' := fun _ a' ha => ⟨a', h ▸ ha, rfl⟩

theorem update {id : String} {v : Option Admission}
    (h : s'.admissions = Function.update s.admissions id v)
    (hv : ∀ a', v = some a' → ∃ a, s.admissions id = some a ∧ a'.fingerprint = a.fingerprint) :
    s.Keeps s' := by
  intro i a' ha
  rw [h] at ha
  by_cases hi : i = id
  · subst hi
    rw [Function.update_self] at ha
    exact hv a' ha
  · rw [Function.update_of_ne hi] at ha
    exact ⟨a', ha, rfl⟩

theorem terminalAdmission (s : SolanaStore) (id fingerprint : String) (state : AdmissionState)
    (requireNoAttempt : Bool) :
    s.Keeps (s.terminalAdmission id fingerprint state requireNoAttempt) := by
  unfold SolanaStore.terminalAdmission
  split
  · exact of_eq rfl
  rename_i admission hs
  split_ifs
  · refine update rfl fun a' ha => ?_
    cases ha
    exact ⟨admission, hs, rfl⟩
  · exact of_eq rfl

theorem onFail (s : SolanaStore) (data : SolanaExecutorJobData) (error : SolanaExecutorError) :
    s.Keeps (s.onFail P data error) := by
  cases error with
  | transactionFailed _ | transactionBuildFailed _ | signingFailed _ =>
    exact terminalAdmission s _ _ _ _
  | maxRetriesExceeded _ => exact terminalAdmission s _ _ _ _
  | _ => exact of_eq rfl

theorem commit (options : QueueOptions) (s : SolanaStore) (job : BorrowedJob SolanaExecutorJobData)
    (now : ℕ) (outcome : Outcome) : s.Keeps (s.commit P options job now outcome) := by
  rcases outcome with (_ | error) | _
  · exact of_eq rfl
  · exact onFail s job.data error
  · exact terminalAdmission s _ _ _ _

end SolanaStore.Keeps

theorem commit_queue (P : Primitives) (options : QueueOptions) (s : SolanaStore)
    (job : BorrowedJob SolanaExecutorJobData) (now : ℕ) (outcome : Outcome) :
    (s.commit P options job now outcome).queue =
      s.queue.finish options job.id job.leaseToken now outcome.result := by
  rcases outcome with (_ | _) | _ <;> rfl

/-- **A step is a request, or one operation of the queue at most, which pushes nothing**, and keeps
the fingerprints. -/
theorem AdmissionStep.effect (P : Primitives) (options : QueueOptions) (s : AdmissionSite)
    (step : AdmissionStep) :
    (∃ data now, step = .admitRequest data now) ∨
    s.store.Keeps (step.apply P options s).store ∧
      ((step.apply P options s).store.queue = s.store.queue ∨
      ∃ op : Op SolanaExecutorJobData,
        (∀ id data now delay position, op ≠ .push id data now delay position) ∧
        (step.apply P options s).store.queue = op.apply options s.store.queue) := by
  have hsame : s.store.Keeps s.store ∧ (s.store.queue = s.store.queue ∨
      ∃ op : Op SolanaExecutorJobData,
        (∀ id data now delay position, op ≠ .push id data now delay position) ∧
        s.store.queue = op.apply options s.store.queue) := ⟨.of_eq rfl, .inl rfl⟩
  cases step with
  | admitRequest data now => exact .inl ⟨data, now, rfl⟩
  | pop now popId batch => exact .inr ⟨.of_eq rfl, .inr ⟨.pop now popId batch, by simp, rfl⟩⟩
  | complete job now outcome =>
    rw [AdmissionStep.apply]
    split_ifs with hjob
    · refine .inr ⟨.commit options s.store job now outcome, .inr
        ⟨.complete job.id job.leaseToken now outcome.result, by simp, ?_⟩⟩
      rw [commit_queue, Op.apply, Queue.complete, if_pos hjob.2]
    · exact .inr hsame
  | queueError id token now =>
    rw [AdmissionStep.apply]
    split_ifs with hlease
    · refine .inr ⟨.of_eq rfl, .inr ⟨.complete id token now .fail, by simp, ?_⟩⟩
      rw [Op.apply, Queue.complete, if_pos hlease]
    · exact .inr hsame
  | cancel id now => exact .inr ⟨.of_eq rfl, .inr ⟨.cancel id now, by simp, rfl⟩⟩
  | getJob id =>
    rw [AdmissionStep.apply]
    split_ifs
    · exact .inr hsame
    · exact .inr hsame
  | onCancelled data =>
    rw [AdmissionStep.apply]
    split_ifs
    · have hfail : s.store.Keeps (s.store.onFail P data .userCancelled) := .onFail s.store data _
      exact .inr ⟨hfail, .inl rfl⟩
    · exact .inr hsame
  | storeAttempt id => exact .inr ⟨.of_eq rfl, .inl rfl⟩
  | expireLease id token => exact .inr ⟨.of_eq rfl, .inr ⟨.expire id token, by simp, rfl⟩⟩
  | expireAdmission id =>
    rw [AdmissionStep.apply]
    split
    · exact .inr ⟨.update rfl (fun a' ha => by cases ha), .inl rfl⟩
    · exact .inr ⟨.update rfl (fun a' ha => by cases ha), .inl rfl⟩
    · exact .inr hsame
  | pruneSuccess => exact .inr ⟨.of_eq rfl, .inr ⟨.pruneSuccess, by simp, rfl⟩⟩
  | pruneFailed => exact .inr ⟨.of_eq rfl, .inr ⟨.pruneFailed, by simp, rfl⟩⟩

/-! ## The invariant -/

/-- The queue keeps its own invariants, and the data of a job has the fingerprint of its admission. -/
structure AdmissionSite.Inv (P : Primitives) (s : AdmissionSite) : Prop where
  queue : s.store.queue.Exclusive (fun _ => True) []
  retains : ∀ i, s.store.queue.Retains i []
  timed : ∀ i, s.store.queue.Timed i
  bound : ∀ i a d, s.store.admissions i = some a → s.store.queue.data i = some d →
    a.fingerprint = some (solanaAdmissionFingerprint P d)

namespace AdmissionSite.Inv

variable {P : Primitives} {options : QueueOptions} {s s' : AdmissionSite}

theorem empty : ({} : AdmissionSite).Inv P where
  queue := .empty
  retains i := by constructor <;> simp [Queue.Referenced, Queue.index]
  timed i := by simp [Queue.Timed]
  bound i a d ha := by cases ha

theorem op (h : s.Inv P) (options : QueueOptions) (op : Op SolanaExecutorJobData)
    (hq : s'.store.queue = op.apply options s.store.queue)
    (hbound : ∀ i a d, s'.store.admissions i = some a → s'.store.queue.data i = some d →
      a.fingerprint = some (solanaAdmissionFingerprint P d)) : s'.Inv P := by
  have hdoes : s.store.queue.Does options (op.apply options s.store.queue) := Op.does h.queue op
  have hkeeps := hdoes.keeps (P := fun hand q => ∀ i, q.Retains i hand ∧ q.Timed i)
    (fun hx hp hm i => ⟨(hp i).1.move hx hm fun _ _ => trivial, (hp i).2.move hm⟩)
    (fun hp ht i => ⟨(hp i).1.prune ht, (hp i).2.prune ht⟩) h.queue
    fun i => ⟨h.retains i, h.timed i⟩
  rw [← hq] at hkeeps
  exact ⟨hkeeps.1, fun i => (hkeeps.2 i).1, fun i => (hkeeps.2 i).2, hbound⟩

theorem admitRequest (h : s.Inv P) (data : SolanaExecutorJobData) (now : ℕ) :
    ((AdmissionStep.admitRequest data now).apply P options s).Inv P := by
  by_cases hc : (s.store.admitRequest P data now).2 = .created
  swap
  · have he : (AdmissionStep.admitRequest data now).apply P options s = s := by
      rw [AdmissionStep.apply, admit_unchanged hc]
    rw [he]
    exact h
  obtain ⟨ho, he⟩ := not_occupied_of_created hc
  rw [AdmissionStep.apply, he]
  refine h.op options (.push data.transactionId data now 0 .last) (create_queue ho) fun i a d ha hd => ?_
  by_cases hi : i = data.transactionId
  · subst hi
    simp only [SolanaStore.create, Function.update_self, Option.some.injEq] at ha hd
    rw [← ha, hd]
  · simp only [SolanaStore.create, Function.update_of_ne hi] at ha hd
    exact h.bound i a d ha hd

/-- **Every step keeps the invariant.** -/
theorem step (h : s.Inv P) (step : AdmissionStep) : (step.apply P options s).Inv P := by
  rcases step.effect P options s with ⟨data, now, rfl⟩ | ⟨hkeeps, hq | ⟨op, hop, hq⟩⟩
  · exact h.admitRequest data now
  · refine ⟨hq ▸ h.queue, hq ▸ h.retains, hq ▸ h.timed, fun i a d ha hd => ?_⟩
    obtain ⟨a₀, ha₀, hf⟩ := hkeeps i a ha
    rw [hf]
    exact h.bound i a₀ d ha₀ (hq ▸ hd)
  · refine h.op options op hq fun i a d ha hd => ?_
    obtain ⟨a₀, ha₀, hf⟩ := hkeeps i a ha
    rw [hf]
    exact h.bound i a₀ d ha₀ (Op.data_of_apply h.queue hop (hq ▸ hd))

theorem run (h : s.Inv P) (steps : List AdmissionStep) : (s.run P options steps).Inv P := by
  induction steps generalizing s with
  | nil => exact h
  | cons step steps ih => exact ih (h.step step)

/-- **An accepted request has a live job, or a recorded end, under its fingerprint.** -/
theorem accepted (h : s.Inv P) {data : SolanaExecutorJobData} {now : ℕ}
    (hok : (s.store.admitRequest P data now).2.outcome.isOk) :
    (data.transactionId ∈ (s.store.admitRequest P data now).1.queue.index ∧
      ∃ d, (s.store.admitRequest P data now).1.queue.data data.transactionId = some d ∧
        solanaAdmissionFingerprint P d = solanaAdmissionFingerprint P data) ∨
    ∃ a, (s.store.admitRequest P data now).1.admissions data.transactionId = some a ∧
      a.fingerprint = some (solanaAdmissionFingerprint P data) ∧
      (a.state = some .completed ∨ a.state = some .failed) := by
  rcases admit_cases P s.store data now with ⟨refusal, hr, he⟩ | ⟨existing, hf, he⟩ | ⟨ho, he⟩
  · rw [he] at hok
    exact absurd hok (by simp [hr])
  · rw [he] at hok ⊢
    obtain ⟨hfp, hstate⟩ := found_ok hok
    obtain ⟨a, ha, hfa⟩ := Option.bind_eq_some_iff.mp hf
    rw [ha] at hstate
    simp only [Option.bind_some] at hstate
    rcases hstate with hs | hs | hlive
    · exact .inr ⟨a, ha, by rw [hfa, hfp], .inl hs⟩
    · exact .inr ⟨a, ha, by rw [hfa, hfp], .inr hs⟩
    · simp only [SolanaStore.resumable, Bool.and_eq_true, Option.isNone_iff_eq_none] at hlive
      obtain ⟨⟨⟨⟨hdata, -⟩, -⟩, hopen⟩, -⟩ := hlive
      refine .inl ⟨(h.timed _).live (h.retains _) hdata hopen, ?_⟩
      obtain ⟨d, hd⟩ := Option.isSome_iff_exists.mp hdata
      have hbound := h.bound _ a d ha hd
      rw [hfa, hfp, Option.some.injEq] at hbound
      exact ⟨d, hd, hbound.symm⟩
  · rw [he]
    exact .inl ⟨by simp [SolanaStore.create, Queue.index], data, by simp [SolanaStore.create], rfl⟩

end AdmissionSite.Inv

/-! ## The lifetime of an admission -/

section Lifetimes

variable {P : Primitives} {options : QueueOptions} {s : AdmissionSite} {id : String}

theorem step_enqueued_eq_zero (h : (s.store.admissions id).isSome) (step : AdmissionStep) :
    step.enqueued P id s = 0 := by
  cases step with
  | admitRequest data now =>
    refine if_neg fun ⟨hid, hc⟩ => (not_occupied_of_created hc).1 (.inl ?_)
    rw [hid]
    exact h
  | _ => rfl

theorem step_enqueued_le_one (step : AdmissionStep) : step.enqueued P id s ≤ 1 := by
  cases step with
  | admitRequest data now =>
    rw [AdmissionStep.enqueued]
    split_ifs <;> simp
  | _ => exact Nat.zero_le 1

theorem step_fingerprint (step : AdmissionStep) {f : String}
    (h : (s.store.admissions id).bind Admission.fingerprint = some f)
    (hstays : ((step.apply P options s).store.admissions id).isSome) :
    ((step.apply P options s).store.admissions id).bind Admission.fingerprint = some f := by
  obtain ⟨a, ha, hf⟩ := Option.bind_eq_some_iff.mp h
  rcases step.effect P options s with ⟨data, now, rfl⟩ | ⟨hkeeps, -⟩
  · rw [AdmissionStep.apply]
    by_cases hc : (s.store.admitRequest P data now).2 = .created
    · obtain ⟨ho, he⟩ := not_occupied_of_created hc
      have hne : id ≠ data.transactionId := by
        rintro rfl
        exact ho (.inl (by rw [ha]; rfl))
      simp only [he, SolanaStore.create, Function.update_of_ne hne]
      exact h
    · rw [admit_unchanged hc]
      exact h
  · obtain ⟨a', ha'⟩ := Option.isSome_iff_exists.mp hstays
    obtain ⟨a₀, ha₀, hfa⟩ := hkeeps id a' ha'
    rw [ha] at ha₀
    cases ha₀
    rw [ha', Option.bind_some, hfa, hf]

theorem step_accepted {step : AdmissionStep} {f : String} (hf : f ∈ step.accepted P id s) :
    ((step.apply P options s).store.admissions id).bind Admission.fingerprint = some f := by
  cases step with
  | admitRequest data now =>
    rw [AdmissionStep.accepted] at hf
    split_ifs at hf with hok
    · obtain ⟨rfl, hok⟩ := hok
      rw [List.mem_singleton.mp hf, AdmissionStep.apply]
      rcases admit_cases P s.store data now with ⟨refusal, hr, he⟩ | ⟨existing, hx, he⟩ | ⟨-, he⟩
      · rw [he] at hok
        exact absurd hok (by simp [hr])
      · rw [he] at hok ⊢
        simp only at hok ⊢
        rw [hx, (found_ok hok).1]
      · simp [he, SolanaStore.create]
    · cases hf
  | _ => cases hf

variable (steps : List AdmissionStep)

include steps

theorem enqueued_eq_zero (h : (s.store.admissions id).isSome)
    (hstays : s.Admitted P options id steps) : s.enqueued P options id steps = 0 := by
  induction steps generalizing s with
  | nil => rfl
  | cons step steps ih =>
    rw [AdmissionSite.enqueued, step_enqueued_eq_zero h, ih hstays.1 hstays.2]

theorem enqueued_le_one (hstays : s.Admitted P options id steps) :
    s.enqueued P options id steps ≤ 1 := by
  cases steps with
  | nil => exact Nat.zero_le 1
  | cons step steps =>
    rw [AdmissionSite.enqueued, enqueued_eq_zero steps hstays.1 hstays.2]
    exact step_enqueued_le_one step

theorem run_fingerprint {f : String}
    (h : (s.store.admissions id).bind Admission.fingerprint = some f)
    (hstays : s.Admitted P options id steps) :
    ((s.run P options steps).store.admissions id).bind Admission.fingerprint = some f := by
  induction steps generalizing s with
  | nil => exact h
  | cons step steps ih => exact ih (step_fingerprint step h hstays.1) hstays.2

theorem run_accepted {f : String}
    (hf : f ∈ s.accepted P options id steps) (hstays : s.Admitted P options id steps) :
    ((s.run P options steps).store.admissions id).bind Admission.fingerprint = some f := by
  induction steps generalizing s with
  | nil => cases hf
  | cons step steps ih =>
    rcases List.mem_append.mp hf with hf | hf
    · exact run_fingerprint steps (step_accepted hf) hstays.2
    · exact ih hf hstays.2

end Lifetimes

/-- **Admission is idempotent.** While the admission of an id exists, the id is enqueued once at most
and only requests with its fingerprint are accepted; an accepted request has a live job with its
fingerprint or a recorded end; a request that does not create the admission changes no key. -/
theorem admission_idempotent (P : Primitives) (options : QueueOptions)
    (before : List AdmissionStep) :
    (∀ id steps, (AdmissionSite.run P options {} before).Admitted P options id steps →
      (AdmissionSite.run P options {} before).enqueued P options id steps ≤ 1 ∧
      ∀ f ∈ (AdmissionSite.run P options {} before).accepted P options id steps,
        ((AdmissionSite.run P options {} (before ++ steps)).store.admissions id).bind
          Admission.fingerprint = some f) ∧
    (AdmissionSite.run P options {} before).store.queue.index.Nodup ∧
    ∀ data now,
      let store := (AdmissionSite.run P options {} before).store
      let after := (store.admitRequest P data now).1
      ((store.admitRequest P data now).2.outcome = .ok () →
        (data.transactionId ∈ after.queue.index ∧
          ∃ d, after.queue.data data.transactionId = some d ∧
            solanaAdmissionFingerprint P d = solanaAdmissionFingerprint P data) ∨
        ∃ a, after.admissions data.transactionId = some a ∧
          a.fingerprint = some (solanaAdmissionFingerprint P data) ∧
          (a.state = some .completed ∨ a.state = some .failed)) ∧
      ((store.admitRequest P data now).2 ≠ .created → after = store) := by
  have h : (AdmissionSite.run P options {} before).Inv P := AdmissionSite.Inv.empty.run before
  refine ⟨fun id steps hstays => ⟨enqueued_le_one steps hstays, fun f hf => ?_⟩,
    h.queue.nodup_index, fun data now => ⟨fun hok => ?_, admit_unchanged⟩⟩
  · have := run_accepted steps hf hstays
    rw [AdmissionSite.run, AdmissionSite.run, ← List.foldl_append] at this
    exact this
  · exact h.accepted (by rw [hok]; rfl)

def Sample.request : SolanaExecutorJobData := ⟨"a", "devnet", 0, false, .null⟩

/-- A request is cancelled and made again: it is not enqueued again. -/
theorem admission_idempotent_cancelled :
    (AdmissionSite.run Recovery.Sample.primitives ⟨.permanent, 1, 1⟩ {} []).enqueued
      Recovery.Sample.primitives ⟨.permanent, 1, 1⟩ "a"
      [.admitRequest Sample.request 0, .cancel "a" 1, .admitRequest Sample.request 2] ≤ 1 := by
  refine ((admission_idempotent Recovery.Sample.primitives ⟨.permanent, 1, 1⟩ []).1 "a" _ ?_).1
  exact ⟨by decide +kernel, by decide +kernel, by decide +kernel, trivial⟩

end EngineCore.Solana
