import EngineCore.Lib.Redis

/-!
# The single-lane job queue

The Redis state of one queue and its scripts. A script, and a pipeline run in `EXEC`, is one
function on the state.

Results, error records and log output are left out: no script reads them.
-/

namespace EngineCore.Twmq

open Redis

/-! ## Options and records -/

/-- `RequeuePosition`. -/
inductive Position
  | first
  | last
  deriving DecidableEq, Repr

/-- `JobError`: a handler's error with its retry, or a final failure. Delays are in nanoseconds. -/
inductive JobError (ε : Type)
  | nack (error : ε) (delay : Option ℕ) (position : Position)
  | fail (error : ε)

inductive IdempotencyMode
  | active
  | permanent
  deriving DecidableEq, Repr

structure QueueOptions where
  idempotencyMode : IdempotencyMode
  maxSuccess : ℕ
  maxFailed : ℕ

/-- A lease token is the text `now_job_attempts_pop`; its parts are kept apart. -/
structure LeaseToken where
  now : ℕ
  job : String
  attempts : ℕ
  pop : String
  deriving DecidableEq, Repr

/-- The metadata hash of a job. -/
structure JobMeta where
  createdAt : Option ℕ := none
  attempts : Option ℕ := none
  processedAt : Option ℕ := none
  finishedAt : Option ℕ := none
  leaseToken : Option LeaseToken := none
  reentryPosition : Option Position := none
  deriving DecidableEq, Repr

/-- `HINCRBY attempts 1`. -/
def JobMeta.attempt (m : JobMeta) : JobMeta := { m with attempts := some (m.attempts.getD 0 + 1) }

/-- A job in the hands of a worker. -/
structure BorrowedJob (δ : Type) where
  id : String
  data : δ
  attempts : ℕ
  createdAt : ℕ
  processedAt : ℕ
  leaseToken : LeaseToken
  deriving DecidableEq, Repr

/-- The keys of one queue. The head of a list is its left end. -/
structure Queue (δ : Type) where
  pending : List String := []
  delayed : List (String × ℕ) := []
  active : List (String × ℕ) := []
  success : List String := []
  failed : List String := []
  data : String → Option δ := fun _ => none
  jobs : String → JobMeta := fun _ => {}
  dedup : List String := []
  cancellations : List String := []
  leases : List (String × LeaseToken) := []

variable {δ : Type}

instance (q : Queue δ) (lease : String × LeaseToken) : Decidable (lease ∈ q.leases) :=
  inferInstance

/-- Whole seconds of a delay in nanoseconds; a delay under one second counts as one. -/
def delayToQueueSeconds (delay : ℕ) : ℕ :=
  if delay = 0 then 0 else if delay / 1000000000 = 0 then 1 else delay / 1000000000

def Queue.index (q : Queue δ) : List String := q.pending ++ keys q.delayed ++ keys q.active

def Queue.withMeta (q : Queue δ) (id : String) (f : JobMeta → JobMeta) : Queue δ :=
  { q with jobs := Function.update q.jobs id (f (q.jobs id)) }

/-- `LPUSH` or `RPUSH` to the pending list. -/
def Queue.enqueue (q : Queue δ) (id : String) : Position → Queue δ
  | .first => { q with pending := id :: q.pending }
  | .last => { q with pending := q.pending ++ [id] }

/-! ## Push -/

/-- `Queue::push`: whether the job is new, and the queue after. -/
def Queue.push (q : Queue δ) (id : String) (data : δ) (now delay : ℕ) (position : Position) :
    Queue δ × Bool :=
  if id ∈ q.dedup then (q, false)
  else
    let q := { q with data := Function.update q.data id (some data), dedup := sadd q.dedup id }
    let q := q.withMeta id fun m => { m with createdAt := some now, attempts := some 0 }
    if 0 < delayToQueueSeconds delay then
      let q := q.withMeta id fun m => { m with reentryPosition := some position }
      ({ q with delayed := zadd q.delayed id (now + delayToQueueSeconds delay) }, true)
    else (q.enqueue id .last, true)

/-! ## Pop -/

/-- The lease a job's metadata names has run out, or it names none. -/
def Queue.Lapsed (q : Queue δ) (id : String) : Prop :=
  ∀ token, (q.jobs id).leaseToken = some token → (id, token) ∉ q.leases

instance (q : Queue δ) (id : String) : Decidable (q.Lapsed id) :=
  match h : (q.jobs id).leaseToken with
  | none => isTrue fun token ht => by simp [h] at ht
  | some t => decidable_of_iff ((id, t) ∉ q.leases) (by simp [Queue.Lapsed, h])

def Queue.reclaim (q : Queue δ) (id : String) : Queue δ :=
  if q.Lapsed id then
    let q := q.withMeta id fun m => { m.attempt with leaseToken := none }
    { q with active := hdel q.active id, pending := id :: q.pending }
  else q

def Queue.reclaimAll (q : Queue δ) (ids : List String) : Queue δ := ids.foldl Queue.reclaim q

/-- Phase 2 for one cancellation request: the queue after, and whether the job was cancelled. -/
def Queue.cancelRequested (q : Queue δ) (now : ℕ) (id : String) : Queue δ × Bool :=
  if id ∈ keys q.active then (q, false)
  else if id ∉ q.pending ∧ id ∉ keys q.delayed ∧ id ∈ q.success then
    ({ q with cancellations := srem q.cancellations id }, false)
  else
    let q := q.withMeta id fun m => { m with finishedAt := some now }
    ({ q with
        pending := srem q.pending id
        delayed := hdel q.delayed id
        failed := id :: srem q.failed id
        cancellations := srem q.cancellations id }, true)

/-- Phase 2: the queue after, and the jobs whose cancellation hook is due. -/
def Queue.cancelAll (q : Queue δ) (now : ℕ) : List String → Queue δ × List String
  | [] => (q, [])
  | id :: ids =>
    let (q', cancelled) := q.cancelRequested now id
    let (q'', rest) := q'.cancelAll now ids
    (q'', if cancelled then id :: rest else rest)

/-- Phase 3 for one delayed job that is due. -/
def Queue.mature (q : Queue δ) (id : String) : Queue δ :=
  let position := (q.jobs id).reentryPosition.getD .last
  let q := { q with delayed := hdel q.delayed id }
  (q.withMeta id fun m => { m with reentryPosition := none }).enqueue id position

def Queue.matureAll (q : Queue δ) (ids : List String) : Queue δ := ids.foldl Queue.mature q

def Queue.nextToken (q : Queue δ) (now : ℕ) (pop id : String) : LeaseToken :=
  ⟨now, id, (q.jobs id).attempts.getD 0 + 1, pop⟩

/-- Phase 4 for one popped job that has data. -/
def Queue.lend (q : Queue δ) (now : ℕ) (pop id : String) : Queue δ :=
  let token := q.nextToken now pop id
  let q := q.withMeta id fun m =>
    { m.attempt with processedAt := some now, leaseToken := some token }
  { q with
    leases := sadd q.leases (id, token)
    active := hset q.active id token.attempts }

/-- Phase 4 for the popped ids; an id without data is dropped. -/
def Queue.lendAll (q : Queue δ) (now : ℕ) (pop : String) :
    List String → Queue δ × List (BorrowedJob δ)
  | [] => (q, [])
  | id :: ids =>
    match q.data id with
    | none => q.lendAll now pop ids
    | some data =>
      let token := q.nextToken now pop id
      let (q', jobs) := (q.lend now pop id).lendAll now pop ids
      (q', ⟨id, data, token.attempts, (q.jobs id).createdAt.getD now, now, token⟩ :: jobs)

/-- `Queue::pop_batch_jobs`: the queue after, the borrowed jobs and the cancelled ones. -/
def Queue.popBatch (q : Queue δ) (now : ℕ) (pop : String) (batch : ℕ) :
    Queue δ × List (BorrowedJob δ) × List String :=
  let q := q.reclaimAll (keys q.active)
  let (q, cancelled) := q.cancelAll now q.cancellations
  let q := q.matureAll (due q.delayed now)
  let (q, jobs) := { q with pending := q.pending.drop batch }.lendAll now pop
    (q.pending.take batch)
  (q, jobs, cancelled)

/-! ## Cancellation -/

inductive CancelResult
  | cancelledImmediately
  | cancellationPending
  | notFound
  deriving DecidableEq, Repr

def Queue.cancelJob (q : Queue δ) (id : String) (now : ℕ) : Queue δ × CancelResult :=
  let stopped := q.withMeta id fun m => { m with finishedAt := some now }
  if id ∈ q.pending then
    ({ stopped with pending := srem q.pending id, failed := id :: q.failed }, .cancelledImmediately)
  else if id ∈ keys q.delayed then
    ({ stopped with delayed := hdel q.delayed id, failed := id :: q.failed }, .cancelledImmediately)
  else if id ∈ keys q.active then
    ({ q with cancellations := sadd q.cancellations id }, .cancellationPending)
  else (q, .notFound)

/-! ## Completion -/

/-- What a handler returned: `Ok`, `JobError::Nack` or `JobError::Fail`. -/
inductive JobResult
  | success
  | nack (delay : Option ℕ) (position : Position)
  | fail
  deriving DecidableEq, Repr

/-- The commands every completion starts with: the lease is consumed, the job stops being
active. -/
def Queue.settle (q : Queue δ) (id : String) (token : LeaseToken) : Queue δ :=
  let q := { q with leases := srem q.leases (id, token), active := hdel q.active id }
  q.withMeta id fun m => { m with leaseToken := none }

/-- In the active mode a terminal completion frees the id. -/
def Queue.forget (options : QueueOptions) (q : Queue δ) (id : String) : Queue δ :=
  if options.idempotencyMode = .active then { q with dedup := srem q.dedup id } else q

/-- The pipeline of a completion: `add_success_operations`, `add_nack_operations`,
`add_fail_operations`. -/
def Queue.finish (options : QueueOptions) (q : Queue δ) (id : String) (token : LeaseToken)
    (now : ℕ) : JobResult → Queue δ
  | .success =>
    let q := (q.settle id token).withMeta id fun m => { m with finishedAt := some now }
    { q with success := id :: q.success }.forget options id
  | .nack (some delay) position =>
    let q := (q.settle id token).withMeta id fun m => { m with reentryPosition := some position }
    { q with delayed := zadd q.delayed id (now + delayToQueueSeconds delay) }
  | .nack none position => (q.settle id token).enqueue id position
  | .fail =>
    let q := (q.settle id token).withMeta id fun m => { m with finishedAt := some now }
    { q with failed := id :: q.failed }.forget options id

/-- `commit_if_leased`: the queue after, and whether the pipeline was applied. -/
def Queue.complete (options : QueueOptions) (q : Queue δ) (id : String) (token : LeaseToken)
    (now : ℕ) (result : JobResult) : Queue δ × Bool :=
  if (id, token) ∈ q.leases then (q.finish options id token now result, true) else (q, false)

def Queue.expireLease (q : Queue δ) (id : String) (token : LeaseToken) : Queue δ :=
  { q with leases := srem q.leases (id, token) }

/-! ## Pruning -/

/-- Delete the records of an id that no list names any more. -/
def Queue.pruneOne (q : Queue δ) (id : String) : Queue δ :=
  if id ∉ keys q.active ∧ id ∉ q.pending ∧ id ∉ keys q.delayed ∧
      id ∉ q.success ∧ id ∉ q.failed then
    { q with
      dedup := srem q.dedup id
      cancellations := srem q.cancellations id
      data := Function.update q.data id none
      jobs := Function.update q.jobs id {} }
  else q

/-- `post_success_completion`. -/
def Queue.pruneSuccess (options : QueueOptions) (q : Queue δ) : Queue δ :=
  (q.success.drop options.maxSuccess).foldl Queue.pruneOne
    { q with success := q.success.take options.maxSuccess }

/-- `post_fail_completion`. -/
def Queue.pruneFailed (options : QueueOptions) (q : Queue δ) : Queue δ :=
  (q.failed.drop options.maxFailed).foldl Queue.pruneOne
    { q with failed := q.failed.take options.maxFailed }

end EngineCore.Twmq
