import EngineCore.Twmq.Lease
import EngineCore.Twmq.Runs

/-!
# The multilane queue

A queue whose live indexes are kept lane by lane, with one set of records and terminal lists. What a
script does inside a lane is what the single-lane queue does (`MultilaneQueue.view`,
`MultilaneQueue.put`).

* **`run_inv`**: an id is in one lane after every run, and a completion whose lease is live has read
  the right lane.
-/

namespace EngineCore.Twmq

open Redis

/-! ## Keys -/

structure Lane where
  pending : List String := []
  delayed : List (String × ℕ) := []
  active : List (String × ℕ) := []

/-- The keys of a multilane queue. A lane's score is the time of its last visit. -/
structure MultilaneQueue (δ : Type) where
  lanes : List (String × ℕ) := []
  lane : String → Lane := fun _ => {}
  laneId : String → Option String := fun _ => none
  success : List String := []
  failed : List String := []
  data : String → Option δ := fun _ => none
  jobs : String → JobMeta := fun _ => {}
  dedup : List String := []
  cancellations : List String := []
  leases : List (String × LeaseToken) := []

variable {δ : Type}

namespace MultilaneQueue

variable (m : MultilaneQueue δ)

def view (lane : String) : Queue δ where
  pending := (m.lane lane).pending
  delayed := (m.lane lane).delayed
  active := (m.lane lane).active
  success := m.success
  failed := m.failed
  data := m.data
  jobs := m.jobs
  dedup := m.dedup
  cancellations := m.cancellations
  leases := m.leases

/-- Write one lane and the shared keys back. -/
def put (lane : String) (q : Queue δ) : MultilaneQueue δ :=
  { m with
    lane := Function.update m.lane lane ⟨q.pending, q.delayed, q.active⟩
    success := q.success
    failed := q.failed
    data := q.data
    jobs := q.jobs
    dedup := q.dedup
    cancellations := q.cancellations
    leases := q.leases }

/-- The id is in the live indexes of some lane. -/
def Live (id : String) : Prop := ∃ lane, id ∈ (m.view lane).index

/-! ## Scripts -/

/-- `push_to_lane`: whether the job is new, and the queue after. -/
def pushToLane (lane id : String) (data : δ) (now delay : ℕ) (position : Position) :
    MultilaneQueue δ × Bool :=
  if id ∈ m.dedup then (m, false)
  else
    let m := { m with laneId := Function.update m.laneId id (some lane) }
    let m := m.put lane ((m.view lane).push id data now delay position).1
    -- ZADD NX
    ({ m with lanes := if lane ∈ keys m.lanes then m.lanes else zadd m.lanes lane 0 }, true)

def cancelJob (id : String) (now : ℕ) : MultilaneQueue δ × CancelResult :=
  match m.laneId id with
  | none => (m, .notFound)
  | some lane =>
    let (q, result) := (m.view lane).cancelJob id now
    (m.put lane q, result)

def cleanupLaneLeases (lane : String) : MultilaneQueue δ := m.put lane (m.view lane).reclaimed

def processDelayedJobs (now : ℕ) (lane : String) : MultilaneQueue δ :=
  m.put lane ((m.view lane).matured now)

/-- `pop_job_from_lane`: the last pending job of the lane. A job without data is dropped and counts
as none. -/
def popJobFromLane (now : ℕ) (pop lane : String) : MultilaneQueue δ × Option (BorrowedJob δ) :=
  match (m.lane lane).pending.getLast? with
  | none => (m, none)
  | some id =>
    let q := { m.view lane with pending := (m.lane lane).pending.dropLast }
    let (q, jobs) := q.lendAll now pop [id]
    (m.put lane q, jobs.head?)

/-- Step 1 for one cancellation request: the queue after, and whether the job was cancelled. -/
def cancelRequested (now : ℕ) (id : String) : MultilaneQueue δ × Bool :=
  match m.laneId id with
  | none => (m, false)
  | some lane =>
    let m := m.cleanupLaneLeases lane
    let (q, cancelled) := (m.view lane).cancelRequested now id
    (m.put lane q, cancelled)

/-- Step 1: the queue after, and the jobs whose cancellation hook is due. -/
def cancelAll (m : MultilaneQueue δ) (now : ℕ) : List String → MultilaneQueue δ × List String
  | [] => (m, [])
  | id :: ids =>
    let (m', cancelled) := m.cancelRequested now id
    let (m'', rest) := m'.cancelAll now ids
    (m'', if cancelled then id :: rest else rest)

/-- The first time a pop comes to a lane that has not been visited this second. -/
def visit (now : ℕ) (lane : String) : MultilaneQueue δ :=
  let m := (m.cleanupLaneLeases lane).processDelayedJobs now lane
  { m with lanes := zadd m.lanes lane now }

/-- A lane that gave no job leaves the lane set if nothing is left in it. -/
def dropLane (lane : String) : MultilaneQueue δ :=
  if (m.view lane).index = [] then { m with lanes := hdel m.lanes lane } else m

/-- Step 2: the lanes still to be asked, in turn, until `n` more jobs are found. Every round uses up
a job or a lane, so `n` and the number of lanes bound the rounds. -/
def drain (now : ℕ) (pop : String) : ℕ → ℕ → List (String × ℕ) → MultilaneQueue δ →
    MultilaneQueue δ × List (BorrowedJob δ)
  | 0, _, _, m => (m, [])
  | _, 0, _, m => (m, [])
  | _, _, [], m => (m, [])
  | rounds + 1, n + 1, (lane, score) :: rest, m =>
    let m := if score = now then m else m.visit now lane
    match m.popJobFromLane now pop lane with
    | (m, some job) =>
      let (m, jobs) := m.drain now pop rounds n (rest ++ [(lane, now)])
      (m, job :: jobs)
    | (m, none) => (m.dropLane lane).drain now pop rounds (n + 1) rest

/-- `pop_batch_jobs`: the queue after, the borrowed jobs and the cancelled ones. -/
def popBatch (now : ℕ) (pop : String) (batch : ℕ) :
    MultilaneQueue δ × List (BorrowedJob δ) × List String :=
  let (m, cancelled) := m.cancelAll now m.cancellations
  let (m, jobs) := m.drain now pop (batch + m.lanes.length) batch m.lanes
  (m, jobs, cancelled)

/-- The pipeline of a completion in the lane its metadata named. -/
def finishIn (options : QueueOptions) (lane id : String) (token : LeaseToken) (now : ℕ)
    (result : JobResult) : MultilaneQueue δ :=
  m.put lane ((m.view lane).finish options id token now result)

def expireLease (id : String) (token : LeaseToken) : MultilaneQueue δ :=
  { m with leases := srem m.leases (id, token) }

/-- Delete the records of an id that neither a terminal list nor its lane names any more. -/
def pruneOne (id : String) : MultilaneQueue δ :=
  if id ∉ m.success ∧ id ∉ m.failed ∧ ∀ lane ∈ m.laneId id, id ∉ (m.view lane).index then
    { m with
      dedup := srem m.dedup id
      cancellations := srem m.cancellations id
      data := Function.update m.data id none
      jobs := Function.update m.jobs id {}
      laneId := Function.update m.laneId id none }
  else m

def pruneSuccess (options : QueueOptions) : MultilaneQueue δ :=
  (m.success.drop options.maxSuccess).foldl pruneOne
    { m with success := m.success.take options.maxSuccess }

def pruneFailed (options : QueueOptions) : MultilaneQueue δ :=
  (m.failed.drop options.maxFailed).foldl pruneOne
    { m with failed := m.failed.take options.maxFailed }

instance (m : MultilaneQueue δ) (lease : String × LeaseToken) : Decidable (lease ∈ m.leases) :=
  inferInstanceAs (Decidable (lease ∈ (m.view "").leases))

/-- The lane without its last pending job. -/
def shortened (lane : String) : Queue δ :=
  { m.view lane with pending := (m.lane lane).pending.dropLast }

theorem popJobFromLane_cases {lane : String} (now : ℕ) (pop : String)
    (hdata : ∀ id ∈ (m.lane lane).pending, (m.data id).isSome) :
    ((m.lane lane).pending = [] ∧ m.popJobFromLane now pop lane = (m, none)) ∨
    ∃ rest id data, (m.lane lane).pending = rest ++ [id] ∧ m.data id = some data ∧
      m.popJobFromLane now pop lane = (m.put lane ((m.shortened lane).lend now pop id),
          some ⟨id, data, ((m.view lane).nextToken now pop id).attempts,
            (m.jobs id).createdAt.getD now, now, (m.view lane).nextToken now pop id⟩) := by
  rcases List.eq_nil_or_concat (m.lane lane).pending with hnil | ⟨rest, id, hrest⟩
  · exact .inl ⟨hnil, by simp [popJobFromLane, hnil]⟩
  · rw [List.concat_eq_append] at hrest
    obtain ⟨data, hd⟩ := Option.isSome_iff_exists.mp (hdata id (by simp [hrest]))
    have hview : (m.view lane).data id = some data := hd
    refine .inr ⟨rest, id, data, hrest, hd, ?_⟩
    simp only [popJobFromLane, hrest, List.getLast?_concat, Queue.lendAll, hview, List.head?_cons,
      shortened]
    rfl

end MultilaneQueue

/-! ## Operations -/

/-- A completion that has read the lane of its job. -/
structure LaneCall where
  id : String
  token : LeaseToken
  lane : Option String
  deriving DecidableEq

/-- A handled job without a lane is an error; a job whose data could not be decoded is then taken to
be in the lane `unknown`. -/
def LaneCall.target (call : LaneCall) : Ending → Option String
  | .handled _ => call.lane
  | .queueError => some (call.lane.getD "unknown")

/-- A queue error is stored like a failure. -/
def Ending.result : Ending → JobResult
  | .handled result => result
  | .queueError => .fail

/-- The queue, the pop ids used and the completions that have read a lane. -/
structure Multilane (δ : Type) where
  queue : MultilaneQueue δ := {}
  pops : List String := []
  calls : List LaneCall := []

inductive LaneOp (δ : Type)
  | push (lane id : String) (data : δ) (now delay : ℕ) (position : Position)
  | pop (now : ℕ) (popId : String) (batch : ℕ)
  | cancel (id : String) (now : ℕ)
  | read (id : String) (token : LeaseToken)
  | complete (call : LaneCall) (now : ℕ) (ending : Ending)
  | expire (id : String) (token : LeaseToken)
  | pruneSuccess
  | pruneFailed

/-- No pop id is drawn twice, a completion knows its token from the pop that made it, and it has read
a lane before it commits: what is not so does not happen. -/
def LaneOp.apply (options : QueueOptions) (s : Multilane δ) : LaneOp δ → Multilane δ
  | .push lane id data now delay position =>
    { s with queue := (s.queue.pushToLane lane id data now delay position).1 }
  | .pop now popId batch =>
    if popId ∈ s.pops then s
    else { s with queue := (s.queue.popBatch now popId batch).1, pops := popId :: s.pops }
  | .cancel id now => { s with queue := (s.queue.cancelJob id now).1 }
  | .read id token =>
    if token.pop ∈ s.pops then { s with calls := ⟨id, token, s.queue.laneId id⟩ :: s.calls } else s
  | .complete call now ending =>
    if call ∈ s.calls ∧ (call.id, call.token) ∈ s.queue.leases then
      (call.target ending).elim s fun lane =>
        { s with queue := s.queue.finishIn options lane call.id call.token now ending.result }
    else s
  | .expire id token => { s with queue := s.queue.expireLease id token }
  | .pruneSuccess => { s with queue := s.queue.pruneSuccess options }
  | .pruneFailed => { s with queue := s.queue.pruneFailed options }

/-- The queue after the operations, starting from the empty one. -/
def Multilane.run (options : QueueOptions) (ops : List (LaneOp δ)) : Multilane δ :=
  ops.foldl (LaneOp.apply options) {}

/-! ## Lanes apart -/

namespace MultilaneQueue

variable {m : MultilaneQueue δ} {lane lane' : String} {q : Queue δ}

@[simp] theorem view_put_self : (m.put lane q).view lane = q := by
  simp [view, put]

theorem apart_view_put {i : String} (hne : lane' ≠ lane) (h : Queue.Apart i [] (m.view lane) [] q) :
    Queue.Apart i [] (m.view lane') [] ((m.put lane q).view lane') := by
  have hlane : (m.put lane q).lane lane' = m.lane lane' := by simp [put, hne]
  constructor
  all_goals simp only [view, hlane]
  · exact h.success
  · exact h.failed
  · exact h.data
  · exact h.jobs
  · exact h.dedup
  · exact h.cancellations
  · exact h.leases

/-- Every lane is exclusive among the jobs whose metadata name it, and a leased job has a lane. -/
structure Exclusive (m : MultilaneQueue δ) : Prop where
  lanes : ∀ lane, (m.view lane).Exclusive (fun id => m.laneId id = some lane) []
  leased : ∀ id token, (id, token) ∈ m.leases → (m.laneId id).isSome
variable {id : String}


namespace Exclusive

theorem empty : ({} : MultilaneQueue δ).Exclusive where
  lanes _ := Queue.Exclusive.empty
  leased := by simp

theorem laneId_of_mem (h : m.Exclusive) (hid : id ∈ (m.view lane).index) :
    m.laneId id = some lane :=
  (h.lanes lane).mine id hid

theorem known (h : m.Exclusive) (hid : m.Live id) : id ∈ m.dedup := by
  obtain ⟨lane, hid⟩ := hid
  exact (h.lanes lane).known id hid

theorem live_of_lease (h : m.Exclusive) {token : LeaseToken}
    (hl : (id, token) ∈ m.leases) : ∃ lane, m.laneId id = some lane ∧
      id ∈ keys (m.view lane).active ∧ (m.jobs id).leaseToken = some token := by
  obtain ⟨lane, hlane⟩ := Option.isSome_iff_exists.mp (h.leased id token hl)
  exact ⟨lane, hlane, (h.lanes lane).held id token hlane hl⟩

theorem put (h : m.Exclusive) (hq : q.Exclusive (fun id => m.laneId id = some lane) [])
    (hapart : ∀ i, m.laneId i ≠ some lane → Queue.Apart i [] (m.view lane) [] q) :
    (m.put lane q).Exclusive where
  lanes lane' := by
    by_cases hne : lane' = lane
    · subst hne
      rw [view_put_self]
      exact hq
    have hl := h.lanes lane'
    have hindex : ((m.put lane q).view lane').index = (m.view lane').index := by
      simp [view, MultilaneQueue.put, Queue.index, hne]
    have hview : ∀ i, m.laneId i = some lane' →
        Queue.Apart i [] (m.view lane') [] ((m.put lane q).view lane') := fun i hi =>
      apart_view_put hne (hapart i (by rw [hi]; exact fun he => hne (Option.some.inj he)))
    refine ⟨?_, ?_, fun id hid => ?_, fun id hid => ?_, fun id token hown hlease => ?_, hq.asked⟩
    · rw [hindex]
      exact hl.once
    · rw [hindex]
      exact hl.mine
    · rw [hindex] at hid
      exact (hview id (hl.mine id hid)).dedup.mpr (hl.known id hid)
    · rw [hindex] at hid
      have ha := hview id (hl.mine id hid)
      have hs := hl.stored id hid
      exact ⟨ha.data ▸ hs.data, ha.jobs ▸ hs.createdAt, ha.jobs ▸ hs.attempts⟩
    · have ha := hview id hown
      obtain ⟨hactive, htoken⟩ := hl.held id token hown ((ha.leases token).mp hlease)
      exact ⟨ha.active.mpr hactive, by rw [ha.jobs]; exact htoken⟩
  leased id token hlease := by
    by_cases hid : m.laneId id = some lane
    · exact Option.isSome_of_eq_some hid
    · exact h.leased id token (((hapart id hid).leases token).mp hlease)

theorem nodup_cancellations (h : m.Exclusive) : m.cancellations.Nodup := (h.lanes "").asked

end Exclusive

/-! ## A pop is moves in its lanes -/

/-- The moves of a pop inside one lane. The scores of the lanes may change as well. -/
inductive LanePolls (pop : String) : MultilaneQueue δ → MultilaneQueue δ → Prop
  | intro {m : MultilaneQueue δ} {lane : String} {q : Queue δ}
      (h : Queue.Polls pop (fun id => m.laneId id = some lane) ([], m.view lane) ([], q))
      (lanes : List (String × ℕ)) : LanePolls pop m { m.put lane q with lanes }

/-- Moves of a pop in one lane after the other. -/
def Polls (pop : String) : MultilaneQueue δ → MultilaneQueue δ → Prop :=
  Relation.ReflTransGen (LanePolls pop)

variable {m' : MultilaneQueue δ}

theorem Exclusive.lanePolls {pop : String} (h : m.Exclusive)
    (hp : LanePolls pop m m') : m'.Exclusive := by
  cases hp with
  | @intro lane q hp lanes =>
    have hput := h.put (hp.exclusive (h.lanes lane)) fun i hi => hp.apart hi
    exact ⟨hput.lanes, hput.leased⟩

theorem Polls.keeps {pop : String} {P : MultilaneQueue δ → Prop}
    (hP : ∀ {m m' : MultilaneQueue δ}, m.Exclusive → P m → LanePolls pop m m' → P m')
    (hp : Polls pop m m') (h : m.Exclusive) (hm : P m) : m'.Exclusive ∧ P m' := by
  induction hp with
  | refl => exact ⟨h, hm⟩
  | tail _ hstep ih => exact ⟨ih.1.lanePolls hstep, hP ih.1 ih.2 hstep⟩

theorem Polls.exclusive {pop : String} (hp : Polls pop m m')
    (h : m.Exclusive) : m'.Exclusive :=
  (hp.keeps (P := fun _ => True) (fun _ _ _ => trivial) h trivial).1

/-- A pop keeps the lanes of the jobs and the deduplication set; each lease after it is an old one
or its own. -/
theorem Polls.leases {pop : String} (hp : Polls pop m m') :
    m'.laneId = m.laneId ∧ m'.dedup = m.dedup ∧
      ∀ lease ∈ m'.leases, lease ∈ m.leases ∨ lease.2.pop = pop := by
  induction hp with
  | refl => exact ⟨rfl, rfl, fun _ => .inl⟩
  | tail _ hstep ih =>
    obtain ⟨hlane, hdedup, hlease⟩ := ih
    cases hstep with
    | intro hp lanes =>
      exact ⟨hlane, hp.leases.1.trans hdedup, fun lease hl =>
        (hp.leases.2 lease hl).elim (hlease lease) .inr⟩

theorem put_view : m.put lane (m.view lane) = m := by
  simp only [put, view, Function.update_eq_self]

section Chains

variable {pop : String}

theorem Polls.within (h : Queue.Polls pop (fun id => m.laneId id = some lane) ([], m.view lane) ([], q)) :
    Polls pop m (m.put lane q) :=
  .single (.intro h m.lanes)

theorem Polls.scores (lanes : List (String × ℕ)) : Polls pop m { m with lanes } := by
  have h : LanePolls pop m { m.put "" (m.view "") with lanes } := .intro .refl lanes
  rw [put_view] at h
  exact .single h

theorem Exclusive.cleanupLaneLeases (h : m.Exclusive) (lane : String) :
    Polls pop m (m.cleanupLaneLeases lane) :=
  .within ((h.lanes lane).reclaimed pop)

theorem Exclusive.processDelayedJobs (h : m.Exclusive) (now : ℕ) (lane : String) :
    Polls pop m (m.processDelayedJobs now lane) :=
  .within ((h.lanes lane).matured pop now)

theorem Exclusive.popJobFromLane (h : m.Exclusive) (now : ℕ) (lane : String) :
    Polls pop m (m.popJobFromLane now pop lane).1 := by
  unfold MultilaneQueue.popJobFromLane
  cases hlast : (m.lane lane).pending.getLast? with
  | none => exact .refl
  | some id =>
    have hperm : (m.view lane).pending.Perm ([id] ++ (m.lane lane).pending.dropLast) := by
      obtain ⟨rest, hrest⟩ := List.getLast?_eq_some_iff.mp hlast
      show (m.lane lane).pending.Perm _
      rw [hrest, List.dropLast_concat]
      exact List.perm_append_comm
    refine Polls.within ?_
    exact (Queue.Polls.all (.take hperm)).trans (((h.lanes lane).take hperm).lendAll_polls now [id])

theorem reclaimAll_cancellations (ids : List String) (q : Queue δ) :
    (q.reclaimAll ids).cancellations = q.cancellations := by
  refine List.foldlRecOn (motive := fun q' : Queue δ => q'.cancellations = q.cancellations) ids _ rfl
    fun q' h id _ => ?_
  unfold Queue.reclaim
  split_ifs <;> exact h

theorem Exclusive.cancelRequested (h : m.Exclusive) (now : ℕ)
    (hasked : id ∈ m.cancellations) : Polls pop m (m.cancelRequested now id).1 := by
  unfold MultilaneQueue.cancelRequested
  cases hlane : m.laneId id with
  | none => exact .refl
  | some lane =>
    refine (h.cleanupLaneLeases lane).trans (Polls.within ?_)
    refine Queue.Exclusive.cancelRequested_polls now hlane ?_
    show id ∈ ((m.cleanupLaneLeases lane).view lane).cancellations
    rw [MultilaneQueue.cleanupLaneLeases, view_put_self, Queue.reclaimed, reclaimAll_cancellations]
    exact hasked

theorem cancelAll_fst (now : ℕ) (ids : List String) (m : MultilaneQueue δ) :
    (m.cancelAll now ids).1 = ids.foldl (fun m id => (m.cancelRequested now id).1) m := by
  induction ids generalizing m with
  | nil => rfl
  | cons id ids ih => exact ih _

theorem mem_cancellations {now : ℕ} {id i : String} (hne : i ≠ id) (hi : i ∈ m.cancellations) :
    i ∈ (m.cancelRequested now id).1.cancellations := by
  unfold MultilaneQueue.cancelRequested
  cases hlane : m.laneId id with
  | none => exact hi
  | some lane =>
    refine mem_cancellations_cancelRequested hne ?_
    show i ∈ ((m.cleanupLaneLeases lane).view lane).cancellations
    rw [MultilaneQueue.cleanupLaneLeases, view_put_self, Queue.reclaimed, reclaimAll_cancellations]
    exact hi

theorem Exclusive.cancelAll (now : ℕ) (ids : List String) (h : m.Exclusive) (hn : ids.Nodup)
    (hids : ∀ i ∈ ids, i ∈ m.cancellations) : Polls pop m (m.cancelAll now ids).1 := by
  rw [cancelAll_fst]
  exact foldl_members (I := Polls pop m) .refl hn hids
    (fun _ _ hpolls hid => hpolls.trans ((hpolls.exclusive h).cancelRequested now hid))
    fun _ _ _ => mem_cancellations

theorem Exclusive.visit (h : m.Exclusive) (now : ℕ) (lane : String) :
    Polls pop m (m.visit now lane) := by
  have hclean : Polls pop m (m.cleanupLaneLeases lane) := h.cleanupLaneLeases lane
  refine hclean.trans (((hclean.exclusive h).processDelayedJobs now lane).trans ?_)
  exact Polls.scores _

theorem polls_dropLane : Polls pop m (m.dropLane lane) := by
  unfold MultilaneQueue.dropLane
  split_ifs
  · exact Polls.scores _
  · exact .refl

/-- The rule for step 2: what a visit, a popped job and a dropped lane keep, all rounds keep, and
what holds of a popped job holds of all. -/
theorem drain_keeps {P : MultilaneQueue δ → Prop} {J : BorrowedJob δ → Prop} {now : ℕ}
    (hvisit : ∀ m lane, P m → P (m.visit now lane))
    (hpop : ∀ m lane, P m → P (m.popJobFromLane now pop lane).1 ∧
      ∀ job ∈ (m.popJobFromLane now pop lane).2, J job)
    (hdrop : ∀ m lane, P m → P (m.dropLane lane)) (rounds n : ℕ) (todo : List (String × ℕ))
    (h : P m) : P (m.drain now pop rounds n todo).1 ∧
      ∀ job ∈ (m.drain now pop rounds n todo).2, J job := by
  induction rounds generalizing m n todo with
  | zero =>
    rw [MultilaneQueue.drain]
    exact ⟨h, by simp⟩
  | succ rounds ih =>
    cases n with
    | zero =>
      rw [MultilaneQueue.drain]
      · exact ⟨h, by simp⟩
      · simp
    | succ n =>
      cases todo with
      | nil =>
        rw [MultilaneQueue.drain]
        · exact ⟨h, by simp⟩
        · simp
        · simp
      | cons entry rest =>
        obtain ⟨lane, score⟩ := entry
        have hm₁ : P (if score = now then m else m.visit now lane) := by
          split_ifs
          · exact h
          · exact hvisit m lane h
        rw [MultilaneQueue.drain]
        generalize (if score = now then m else m.visit now lane) = m₁ at hm₁
        obtain ⟨hm₂, hjob⟩ := hpop m₁ lane hm₁
        cases hr : m₁.popJobFromLane now pop lane with
        | mk m₂ job =>
          rw [hr] at hm₂ hjob
          cases job with
          | some job =>
            obtain ⟨hm₃, hjobs⟩ := ih n (rest ++ [(lane, now)]) hm₂
            refine ⟨hm₃, fun j hj => ?_⟩
            rcases List.mem_cons.mp hj with rfl | hj
            · exact hjob j rfl
            · exact hjobs j hj
          | none => exact ih (n + 1) rest (hdrop m₂ lane hm₂)

theorem Exclusive.drain (now rounds n : ℕ) (todo : List (String × ℕ)) (h : m.Exclusive) :
    Polls pop m (m.drain now pop rounds n todo).1 := by
  refine (drain_keeps (P := fun m' => Polls pop m m' ∧ m'.Exclusive) (J := fun _ => True)
    (fun m' lane hm => ?_) (fun m' lane hm => ⟨?_, fun _ _ => trivial⟩) (fun m' lane hm => ?_) rounds
    n todo ⟨.refl, h⟩).1.1
  · have hvisit : Polls pop m' (m'.visit now lane) := hm.2.visit now lane
    exact ⟨hm.1.trans hvisit, hvisit.exclusive hm.2⟩
  · have hpop : Polls pop m' _ := hm.2.popJobFromLane now lane
    exact ⟨hm.1.trans hpop, hpop.exclusive hm.2⟩
  · have hdrop : Polls pop m' (m'.dropLane lane) := polls_dropLane
    exact ⟨hm.1.trans hdrop, hdrop.exclusive hm.2⟩

theorem Exclusive.popBatch (h : m.Exclusive) (now batch : ℕ) :
    Polls pop m (m.popBatch now pop batch).1 := by
  have hcancel : Polls pop m (m.cancelAll now m.cancellations).1 :=
    h.cancelAll now _ h.nodup_cancellations fun _ hi => hi
  exact hcancel.trans ((hcancel.exclusive h).drain now _ batch _)

end Chains

/-! ## The other operations -/

theorem Exclusive.move (h : m.Exclusive) (options : QueueOptions)
    (hid : m.laneId id = some lane) (hmove : (m.view lane).Move options (some id) [] [] q) :
    (m.put lane q).Exclusive := by
  refine h.put ((h.lanes lane).move hmove fun _ he => Option.some.inj he ▸ hid) fun i hi => ?_
  exact hmove.apart fun he => hi (Option.some.inj he ▸ hid)

section

variable (h : m.Exclusive)

include h

theorem Exclusive.no_lease (hnew : id ∉ m.dedup) (token : LeaseToken) : (id, token) ∉ m.leases := by
  intro hl
  obtain ⟨lane, -, hactive, -⟩ := h.live_of_lease hl
  exact hnew (h.known ⟨lane, mem_index.mpr (.inr (.inr hactive))⟩)

theorem Exclusive.relabel (hidle : ¬m.Live id)
    (hfree : ∀ token, (id, token) ∉ m.leases) (lane : Option String) :
    { m with laneId := Function.update m.laneId id lane }.Exclusive := by
  have hsame : ∀ i ≠ id, Function.update m.laneId id lane i = m.laneId i :=
    fun i hi => Function.update_of_ne hi _ _
  have hleased : ∀ {i token}, (i, token) ∈ m.leases → i ≠ id := by
    rintro i token hlease rfl
    exact hfree token hlease
  constructor
  · intro lane'
    have hl := h.lanes lane'
    refine ⟨hl.once, fun i hi => ?_, hl.known, fun i hi => ?_, fun i token hi hlease => ?_, hl.asked⟩
    · have hne : i ≠ id := by
        rintro rfl
        exact hidle ⟨lane', hi⟩
      exact (hsame i hne).trans (hl.mine i hi)
    · exact ⟨(hl.stored i hi).data, (hl.stored i hi).createdAt, (hl.stored i hi).attempts⟩
    · exact hl.held i token ((hsame i (hleased hlease)).symm.trans hi) hlease
  · intro i token hlease
    show (Function.update m.laneId id lane i).isSome
    rw [hsame i (hleased hlease)]
    exact h.leased i token hlease

theorem Exclusive.pushToLane (options : QueueOptions) (lane id : String) (data : δ) (now delay : ℕ)
    (position : Position) : (m.pushToLane lane id data now delay position).1.Exclusive := by
  unfold MultilaneQueue.pushToLane
  split_ifs with hnew
  · exact h
  have hm := h.relabel (fun hl => hnew (h.known hl)) (h.no_lease hnew) (some lane)
  have hput := hm.move options (Function.update_self ..)
    (.enter data now delay position hnew)
  exact ⟨hput.lanes, hput.leased⟩

theorem Exclusive.cancelJob (options : QueueOptions) (id : String) (now : ℕ) :
    (m.cancelJob id now).1.Exclusive := by
  unfold MultilaneQueue.cancelJob
  cases hlane : m.laneId id with
  | none => exact h
  | some lane =>
    rcases cancelJob_cases (m.view lane) id now with ⟨hidle, -⟩ | ⟨hactive, he⟩ | ⟨-, he⟩
    · exact h.move options hlane (.cancel now hidle)
    · simp only [he]
      exact h.move options hlane (.request hactive)
    · simp only [he, put_view]
      exact h

theorem Exclusive.expireLease (id : String) (token : LeaseToken) :
    (m.expireLease id token).Exclusive where
  lanes lane := (h.lanes lane).expire id token
  leased i t hl := h.leased i t (mem_srem.mp hl).1

theorem Exclusive.terminal (success failed : List String) :
    { m with success, failed }.Exclusive where
  lanes lane := by
    have hl := h.lanes lane
    exact ⟨hl.once, hl.mine, hl.known, fun i hi => ⟨(hl.stored i hi).data, (hl.stored i hi).createdAt,
      (hl.stored i hi).attempts⟩, hl.held, hl.asked⟩
  leased := h.leased

theorem Exclusive.pruneOne (id : String) : (m.pruneOne id).Exclusive ∧
    (m.pruneOne id).leases = m.leases ∧
    ∀ i token, (i, token) ∈ m.leases → (m.pruneOne id).laneId i = m.laneId i := by
  unfold MultilaneQueue.pruneOne
  split_ifs with hid
  swap
  · exact ⟨h, rfl, fun _ _ _ => rfl⟩
  obtain ⟨hsuccess, hfailed, hlane⟩ := hid
  have hidle : ¬m.Live id := fun ⟨lane, hin⟩ => hlane lane (h.laneId_of_mem hin) hin
  have hfree : ∀ token, (id, token) ∉ m.leases := by
    intro token hl
    obtain ⟨lane, -, hactive, -⟩ := h.live_of_lease hl
    exact hidle ⟨lane, mem_index.mpr (.inr (.inr hactive))⟩
  have hm := h.relabel hidle hfree none
  refine ⟨⟨fun lane => ?_, hm.leased⟩, rfl, fun i token hl => ?_⟩
  · refine (hm.lanes lane).trim ?_
    refine ⟨rfl, rfl, rfl, rfl, List.prefix_rfl, List.prefix_rfl, List.filter_sublist, fun i => ?_⟩
    by_cases hi : i = id
    · subst hi
      refine .inr ⟨?_, by constructor <;> simp [view]⟩
      rintro (hin | hin | hin)
      · exact hidle ⟨lane, hin⟩
      · exact hsuccess hin
      · exact hfailed hin
    · left
      constructor <;> simp [view, hi]
  · have hne : i ≠ id := by
      rintro rfl
      exact hfree token hl
    exact Function.update_of_ne hne _ _

end

theorem Exclusive.pruneAll (ids : List String) (h : m.Exclusive) :
    (ids.foldl MultilaneQueue.pruneOne m).Exclusive ∧
    (ids.foldl MultilaneQueue.pruneOne m).leases = m.leases ∧
    ∀ i token, (i, token) ∈ m.leases →
      (ids.foldl MultilaneQueue.pruneOne m).laneId i = m.laneId i := by
  induction ids generalizing m with
  | nil => exact ⟨h, rfl, fun _ _ _ => rfl⟩
  | cons id ids ih =>
    obtain ⟨h₁, hl₁, hi₁⟩ := h.pruneOne id
    obtain ⟨h₂, hl₂, hi₂⟩ := ih h₁
    exact ⟨h₂, hl₂.trans hl₁, fun i token hl => (hi₂ i token (hl₁ ▸ hl)).trans (hi₁ i token hl)⟩

end MultilaneQueue

/-! ## Every run -/

/-- The lanes are exclusive, and a completion whose lease is live has read the lane of its job. -/
structure Multilane.Inv (s : Multilane δ) : Prop where
  queue : s.queue.Exclusive
  calls : ∀ call ∈ s.calls, call.token.pop ∈ s.pops ∧
    ((call.id, call.token) ∈ s.queue.leases → call.lane = s.queue.laneId call.id)

namespace Multilane.Inv

variable {s : Multilane δ} {m : MultilaneQueue δ}

theorem of_leases (h : s.Inv) (hm : m.Exclusive) (hleases : ∀ lease ∈ m.leases, lease ∈ s.queue.leases)
    (hlane : ∀ i token, (i, token) ∈ m.leases → m.laneId i = s.queue.laneId i) :
    { s with queue := m }.Inv where
  queue := hm
  calls call hc := by
    refine ⟨(h.calls call hc).1, fun hl => ?_⟩
    exact ((h.calls call hc).2 (hleases _ hl)).trans (hlane call.id call.token hl).symm

theorem target (h : s.Inv) {call : LaneCall} (hcall : call ∈ s.calls)
    (hlease : (call.id, call.token) ∈ s.queue.leases) {ending : Ending} {lane : String}
    (hlane : call.target ending = some lane) : s.queue.laneId call.id = some lane := by
  obtain ⟨actual, hactual, -⟩ := h.queue.live_of_lease hlease
  have hread := (h.calls call hcall).2 hlease
  rw [hactual] at hread ⊢
  cases ending with
  | handled result => exact hread.symm.trans hlane
  | queueError =>
    rw [LaneCall.target, hread] at hlane
    exact hlane

theorem apply (h : s.Inv) (options : QueueOptions) (op : LaneOp δ) : (op.apply options s).Inv := by
  cases op with
  | push lane id data now delay position =>
    by_cases hnew : id ∈ s.queue.dedup
    · have he : (s.queue.pushToLane lane id data now delay position).1 = s.queue := by
        simp [MultilaneQueue.pushToLane, hnew]
      rw [LaneOp.apply, he]
      exact h
    have hleases : (s.queue.pushToLane lane id data now delay position).1.leases = s.queue.leases := by
      rw [MultilaneQueue.pushToLane, if_neg hnew]
      exact push_leases _ id data now delay position
    refine h.of_leases (h.queue.pushToLane options ..) (fun _ hl => hleases ▸ hl) fun i token hl => ?_
    have hne : i ≠ id := by
      rintro rfl
      exact h.queue.no_lease hnew token (hleases ▸ hl)
    rw [MultilaneQueue.pushToLane, if_neg hnew]
    exact Function.update_of_ne hne _ _
  | pop now popId batch =>
    rw [LaneOp.apply]
    split_ifs with hused
    · exact h
    have hp : s.queue.Polls popId (s.queue.popBatch now popId batch).1 := h.queue.popBatch now batch
    refine ⟨hp.exclusive h.queue, fun call hc => ⟨List.mem_cons_of_mem _ (h.calls call hc).1, fun hl => ?_⟩⟩
    show call.lane = (s.queue.popBatch now popId batch).1.laneId call.id
    rw [hp.leases.1]
    refine (h.calls call hc).2 ((hp.leases.2.2 _ hl).resolve_right ?_)
    rintro rfl
    exact hused (h.calls call hc).1
  | cancel id now =>
    have he : (s.queue.cancelJob id now).1.leases = s.queue.leases ∧
        (s.queue.cancelJob id now).1.laneId = s.queue.laneId := by
      unfold MultilaneQueue.cancelJob
      cases s.queue.laneId id with
      | none => exact ⟨rfl, rfl⟩
      | some lane => exact ⟨cancelJob_leases _ id now, rfl⟩
    exact h.of_leases (h.queue.cancelJob options id now) (fun _ hl => he.1 ▸ hl)
      fun _ _ _ => congrFun he.2 _
  | read id token =>
    rw [LaneOp.apply]
    split_ifs with hpop
    swap
    · exact h
    refine ⟨h.queue, fun call hc => ?_⟩
    rcases List.mem_cons.mp hc with rfl | hc
    · exact ⟨hpop, fun _ => rfl⟩
    · exact h.calls call hc
  | complete call now ending =>
    rw [LaneOp.apply]
    split_ifs with hcall
    swap
    · exact h
    obtain ⟨hcall, hlease⟩ := hcall
    cases hlane : call.target ending with
    | none => exact h
    | some lane =>
      refine h.of_leases (h.queue.move options (h.target hcall hlease hlane)
        (.finish now ending.result hlease)) (fun lease hl => ?_) fun _ _ _ => rfl
      have hl : lease ∈ ((s.queue.view lane).finish options call.id call.token now
        ending.result).leases := hl
      rw [leases_finish] at hl
      exact (mem_srem.mp hl).1
  | expire id token =>
    exact h.of_leases (h.queue.expireLease id token) (fun _ hl => (mem_srem.mp hl).1) fun _ _ _ => rfl
  | pruneSuccess =>
    obtain ⟨hm, hl, hi⟩ := (h.queue.terminal (s.queue.success.take options.maxSuccess)
      s.queue.failed).pruneAll (s.queue.success.drop options.maxSuccess)
    exact h.of_leases hm (fun _ hin => hl ▸ hin) fun i token hin => hi i token (hl ▸ hin)
  | pruneFailed =>
    obtain ⟨hm, hl, hi⟩ := (h.queue.terminal s.queue.success
      (s.queue.failed.take options.maxFailed)).pruneAll (s.queue.failed.drop options.maxFailed)
    exact h.of_leases hm (fun _ hin => hl ▸ hin) fun i token hin => hi i token (hl ▸ hin)

end Multilane.Inv

/-- **After every run the lanes are exclusive.** -/
theorem run_inv (options : QueueOptions) (ops : List (LaneOp δ)) : (Multilane.run options ops).Inv := by
  induction ops using List.reverseRecOn with
  | nil => exact ⟨.empty, by simp [Multilane.run]⟩
  | append_singleton ops op ih =>
    rw [Multilane.run, List.foldl_append]
    exact Multilane.Inv.apply ih options op

end EngineCore.Twmq
