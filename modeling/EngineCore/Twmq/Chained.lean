import EngineCore.Twmq.Runs

/-!
# Jobs that a hook schedules in another queue

A completion of the first queue writes a job with the same id into the second one, in its own
pipeline and without reading what the second queue has of that id.

* **`scheduled_exclusive`**: in a run of fresh steps the second queue has each id in one place, under
  one lease, and scheduling touches no live job; **`rescheduled_twice`**: a run where it does not.
-/

namespace EngineCore.Twmq

open Redis

variable {δ : Type}

structure DelayOptions where
  delay : ℕ
  position : Position

/-- `TransactionContext::queue_job`. The writes are applied whatever the queue has of the id, and a
delay, even of no time, goes to the delayed set. -/
def Queue.queueJob (q : Queue δ) (id : String) (data : δ) (now : ℕ)
    (delay : Option DelayOptions) : Queue δ :=
  let q := { q with data := Function.update q.data id (some data), dedup := sadd q.dedup id }
  let q := q.withMeta id fun m => { m with createdAt := some now, attempts := some 0 }
  match delay with
  | some options =>
    let q := q.withMeta id fun m => { m with reentryPosition := some options.position }
    { q with delayed := zadd q.delayed id (now + delayToQueueSeconds options.delay) }
  | none => q.enqueue id .last

theorem queueJob_other (q : Queue δ) {id i : String} (hi : i ≠ id) (data : δ) (now : ℕ)
    (delay : Option DelayOptions) :
    (q.queueJob id data now delay).data i = q.data i ∧
      (q.queueJob id data now delay).jobs i = q.jobs i := by
  cases delay <;> simp [Queue.queueJob, Queue.withMeta, Queue.enqueue, hi]

theorem Queue.Exclusive.queueJob {own : String → Prop} {hand : List String} {q : Queue δ}
    (h : q.Exclusive own hand) {id : String} (hown : own id) (data : δ) (now : ℕ)
    (delay : Option DelayOptions) (hfree : id ∉ hand ++ q.index) :
    (q.queueJob id data now delay).Exclusive own hand := by
  have hdelayed : id ∉ keys q.delayed := fun hi => hfree (by simp [Queue.index, hi])
  have hjobs : ∀ i ≠ id, (q.queueJob id data now delay).jobs i = q.jobs i :=
    fun i hi => (queueJob_other q hi data now delay).2
  cases delay with
  | some options =>
    refine h.put hown hfree (zadd_index_perm _ hdelayed _) rfl rfl rfl rfl hjobs ?_ ?_ rfl
    · simp [Queue.queueJob, Queue.withMeta]
    · simp [Queue.queueJob, Queue.withMeta]
  | none =>
    refine h.put hown hfree (enqueue_index_perm _ _ _) rfl rfl rfl rfl hjobs ?_ ?_ rfl
    · simp [Queue.queueJob, Queue.withMeta, Queue.enqueue]
    · simp [Queue.queueJob, Queue.withMeta, Queue.enqueue]

/-! ## Two queues -/

section Chain

variable {δ₁ δ₂ : Type}

variable (δ₁ δ₂) in
structure Chain where
  first : Queue δ₁ := {}
  second : Queue δ₂ := {}

variable (δ₁ δ₂) in
/-- An operation of one of the queues, or a success of the first one whose hook schedules a job with
the given data. The hook reads its own clock. -/
inductive ChainOp
  | first (op : Op δ₁)
  | second (op : Op δ₂)
  | schedule (id : String) (token : LeaseToken) (now : ℕ) (data : δ₂) (clock : ℕ)
      (delay : Option DelayOptions)

/-- The hook's writes are in the pipeline of the completion, so both are applied or none is. -/
def ChainOp.apply (options₁ options₂ : QueueOptions) (s : Chain δ₁ δ₂) : ChainOp δ₁ δ₂ → Chain δ₁ δ₂
  | .first op => { s with first := op.apply options₁ s.first }
  | .second op => { s with second := op.apply options₂ s.second }
  | .schedule id token now data clock delay =>
    if (id, token) ∈ s.first.leases then
      { first := (s.first.complete options₁ id token now .success).1
        second := s.second.queueJob id data clock delay }
    else s

/-- The two queues after the steps, starting from empty ones. -/
def Chain.run (options₁ options₂ : QueueOptions) (ops : List (ChainOp δ₁ δ₂)) : Chain δ₁ δ₂ :=
  ops.foldl (ChainOp.apply options₁ options₂) {}

/-- A completion schedules no id that is live in the second queue. -/
def ChainOp.Fresh (s : Chain δ₁ δ₂) : ChainOp δ₁ δ₂ → Prop
  | .schedule id token .. => (id, token) ∈ s.first.leases → id ∉ s.second.index
  | _ => True

instance (s : Chain δ₁ δ₂) : (op : ChainOp δ₁ δ₂) → Decidable (op.Fresh s)
  | .schedule id token .. =>
    inferInstanceAs (Decidable ((id, token) ∈ s.first.leases → id ∉ s.second.index))
  | .first _ | .second _ => isTrue trivial

def Chain.Fresh (options₁ options₂ : QueueOptions) : Chain δ₁ δ₂ → List (ChainOp δ₁ δ₂) → Prop
  | _, [] => True
  | s, op :: ops => op.Fresh s ∧ (op.apply options₁ options₂ s).Fresh options₁ options₂ ops

/-- Scheduling changes the data and the attempts of no live job. -/
def ChainOp.Gentle (options₁ options₂ : QueueOptions) (s : Chain δ₁ δ₂) : ChainOp δ₁ δ₂ → Prop
  | .schedule id token now data clock delay =>
    let s' := ChainOp.apply options₁ options₂ s (.schedule id token now data clock delay)
    ∀ i ∈ s.second.index, s'.second.data i = s.second.data i ∧
      (s'.second.jobs i).attempts = (s.second.jobs i).attempts
  | _ => True

instance (options₁ options₂ : QueueOptions) (s : Chain δ₁ δ₂) [DecidableEq δ₂] :
    (op : ChainOp δ₁ δ₂) → Decidable (op.Gentle options₁ options₂ s)
  | .schedule .. => inferInstanceAs (Decidable (∀ i ∈ s.second.index, _ ∧ _))
  | .first _ | .second _ => isTrue trivial

variable {options₁ options₂ : QueueOptions} {s : Chain δ₁ δ₂} {op : ChainOp δ₁ δ₂}

theorem ChainOp.Fresh.exclusive (hop : op.Fresh s) (h : s.second.Exclusive (fun _ => True) []) :
    (op.apply options₁ options₂ s).second.Exclusive (fun _ => True) [] := by
  cases op with
  | first op => exact h
  | second op => exact op.exclusive h
  | schedule id token now data clock delay =>
    rw [ChainOp.apply]
    split_ifs with hlease
    · exact h.queueJob trivial data clock delay (hop hlease)
    · exact h

theorem ChainOp.Fresh.gentle (hop : op.Fresh s) : op.Gentle options₁ options₂ s := by
  cases op with
  | first op => trivial
  | second op => trivial
  | schedule id token now data clock delay =>
    simp only [ChainOp.Gentle, ChainOp.apply]
    intro i hi
    split_ifs with hlease
    · have hne : i ≠ id := fun he => hop hlease (he ▸ hi)
      obtain ⟨hdata, hjobs⟩ := queueJob_other s.second hne data clock delay
      exact ⟨hdata, by rw [hjobs]⟩
    · exact ⟨rfl, rfl⟩

theorem Chain.Fresh.split {earlier later : List (ChainOp δ₁ δ₂)}
    (h : s.Fresh options₁ options₂ (earlier ++ later)) :
    s.Fresh options₁ options₂ earlier ∧
      (earlier.foldl (ChainOp.apply options₁ options₂) s).Fresh options₁ options₂ later := by
  induction earlier generalizing s with
  | nil => exact ⟨trivial, h⟩
  | cons op earlier ih =>
    obtain ⟨hearlier, hlater⟩ := ih h.2
    exact ⟨⟨h.1, hearlier⟩, hlater⟩

theorem Chain.Fresh.exclusive {ops : List (ChainOp δ₁ δ₂)} (hfresh : s.Fresh options₁ options₂ ops)
    (h : s.second.Exclusive (fun _ => True) []) :
    (ops.foldl (ChainOp.apply options₁ options₂) s).second.Exclusive (fun _ => True) [] := by
  induction ops generalizing s with
  | nil => exact h
  | cons op ops ih => exact ih hfresh.2 (hfresh.1.exclusive h)

/-! ## Runs -/

/-- **When no completion schedules a live id, the second queue has each id in one live index, under
one lease, and scheduling changes no live job.** -/
theorem scheduled_exclusive (options₁ options₂ : QueueOptions) (ops : List (ChainOp δ₁ δ₂))
    (hfresh : ({} : Chain δ₁ δ₂).Fresh options₁ options₂ ops) :
    (Chain.run options₁ options₂ ops).second.index.Nodup ∧
    (∀ id token token', (id, token) ∈ (Chain.run options₁ options₂ ops).second.leases →
      (id, token') ∈ (Chain.run options₁ options₂ ops).second.leases → token = token') ∧
    ∀ earlier op later, ops = earlier ++ op :: later →
      op.Gentle options₁ options₂ (Chain.run options₁ options₂ earlier) := by
  have h : (Chain.run options₁ options₂ ops).second.Exclusive (fun _ => True) [] :=
    hfresh.exclusive .empty
  refine ⟨h.nodup_index, ?_, ?_⟩
  · intro id token token' hl hl'
    have htoken := (h.held id token trivial hl).2
    have htoken' := (h.held id token' trivial hl').2
    rw [htoken] at htoken'
    exact Option.some.inj htoken'
  · intro earlier op later he
    rw [he] at hfresh
    exact hfresh.split.2.1.gentle

end Chain

/-! ## One id sent twice -/

namespace Chain.Sample

def options : QueueOptions := ⟨.permanent, 1, 1⟩

def soon : Option DelayOptions := some ⟨3000000000, .last⟩

/-- `a` is sent and scheduled, and a worker borrows its confirmation. -/
def sent : List (ChainOp Unit ℕ) :=
  [.first (.push "a" () 0 0 .last), .first (.pop 1 "p" 1),
    .schedule "a" ⟨1, "a", 1, "p"⟩ 2 7 2 soon, .second (.pop 5 "c" 1)]

/-- `b` takes the place of `a` in the success list, so `a` is pruned, pushed again and borrowed. -/
def again : List (ChainOp Unit ℕ) :=
  [.first (.push "b" () 6 0 .last), .first (.pop 6 "q" 1),
    .schedule "b" ⟨6, "b", 1, "q"⟩ 7 9 7 soon, .first .pruneSuccess,
    .first (.push "a" () 8 0 .last), .first (.pop 8 "r" 1)]

/-- The second send of `a` succeeds. -/
def resend : ChainOp Unit ℕ := .schedule "a" ⟨8, "a", 1, "r"⟩ 9 8 9 soon

end Chain.Sample

open Chain.Sample in
set_option maxRecDepth 10000 in
/-- While the confirmation of `a` is borrowed, `a` is pruned from the history of the first queue, sent
again and scheduled again: it is in two live indexes with other data and no attempts, and the next
poll lends it a second time. -/
theorem rescheduled_twice :
    ¬(Chain.run options options (sent ++ again ++ [resend])).second.index.Nodup ∧
    (("a", ⟨5, "a", 1, "c"⟩) ∈
        (Chain.run options options (sent ++ again ++ [resend, .second (.pop 12 "d" 2)])).second.leases ∧
      ("a", ⟨12, "a", 1, "d"⟩) ∈
        (Chain.run options options (sent ++ again ++ [resend, .second (.pop 12 "d" 2)])).second.leases) ∧
    ¬resend.Gentle options options (Chain.run options options (sent ++ again)) := by
  refine ⟨?_, ⟨?_, ?_⟩, ?_⟩
  all_goals decide +kernel

open Chain.Sample in
set_option maxRecDepth 10000 in
/-- The second send succeeds after the confirmation did. -/
theorem scheduled_exclusive_later :
    (Chain.run options options (sent ++ [.second (.complete "a" ⟨5, "a", 1, "c"⟩ 6 .success)] ++
      again ++ [resend])).second.index.Nodup := by
  refine (scheduled_exclusive _ _ _ ?_).1
  refine ⟨trivial, trivial, ?_, trivial, trivial, trivial, trivial, ?_, trivial, trivial, trivial, ?_,
    trivial⟩
  all_goals decide +kernel

end EngineCore.Twmq
