import EngineCore.Eoa.Holds
import EngineCore.Eoa.Outcome

/-!
# The workers of one wallet

The executor queue, the store of one wallet, the API calls that add transactions to it and the
worker runs of its job, as one transition system. A worker run may commit the operations of the
store in any order while it owns the lock; which ones it picks depends on RPC answers.

* `Event`, `System.step`: the atomic steps; `System.after`: a whole interleaving.
-/

namespace EngineCore.Eoa

open Redis Twmq

structure JobData where
  eoaAddress : String
  chainId : ℕ
  deriving DecidableEq, Repr

/-- A wallet and the history limits of the executor queue. -/
structure Setting where
  address : String
  chain : ℕ
  maxSuccess : ℕ
  maxFailed : ℕ

def Setting.job (S : Setting) : String := s!"eoa_{S.address}_{S.chain}"

/-- The executor queue runs in the active mode. -/
def Setting.options (S : Setting) : QueueOptions := ⟨.active, S.maxSuccess, S.maxFailed⟩

/-- An `execute_eoa` call whose `add_transaction` succeeded: the id, the admission it stands for,
and whether the call has returned `Ok`. -/
structure Call where
  id : String
  born : ℕ
  returned : Bool := false
  deriving DecidableEq, Repr

/-- How far a worker run has come. While it works it may have read a submitted row, by id and
nonce, that it is about to bump; the count pipeline is answered one reply at a time. -/
inductive Stage
  | popped
  | working (seen : Option (String × ℕ))
  | counting (replies : List ℕ)
  | ended (result : JobResult)
  | released (result : JobResult)
  deriving DecidableEq, Repr

/-- A worker run. `stale` says that since its first count reply a push was absorbed, or another
run committed to the store; no step of the code reads it. -/
structure Run where
  stage : Stage
  stale : Bool := false
  deriving DecidableEq, Repr

/-- The worker id of a run is its lease token, so `runs` and the lock name runs by it. `pops` are
the pop ids used so far. -/
structure System where
  queue : Queue JobData := {}
  wallet : Wallet := {}
  calls : List Call := []
  runs : LeaseToken → Option Run := fun _ => none
  pops : List String := []

/-- One atomic step of a client, of the queue, of a worker run or of Redis. -/
inductive Event
  | add (id request : String) (now : ℕ)
  | push (call now : ℕ)
  | pushOther (id : String) (data : JobData) (now delay : ℕ) (position : Position)
  | pop (now : ℕ) (pop : String) (batch : ℕ)
  | completeOther (id : String) (token : LeaseToken) (now : ℕ) (result : JobResult)
  | expireLease (id : String) (token : LeaseToken)
  | pruneSuccess
  | pruneFailed
  | expireRecord (id : String)
  | acquire (t : LeaseToken)
  | operate (t : LeaseToken) (op : Operation)
  | inspect (t : LeaseToken) (row : Row) (nonce : ℕ)
  | bump (t : LeaseToken) (hash : String) (queuedAt submittedAt : ℕ)
  | dropMissing (t : LeaseToken) (id : String)
  | count (t : LeaseToken)
  | conclude (t : LeaseToken) (report : Report) (delegation : Option Bool)
  | stop (t : LeaseToken) (e : WorkerError)
  | release (t : LeaseToken)
  | complete (t : LeaseToken) (now : ℕ)

/-- Every run past its first count reply misses something. -/
def System.outdated (s : System) (except : Option LeaseToken) : LeaseToken → Option Run :=
  fun t => if except = some t then s.runs t else (s.runs t).map fun r => { r with stale := true }

/-- The run of `t` moves to another stage. -/
def System.enter (s : System) (t : LeaseToken) (stage : Stage) : System :=
  { s with runs := Function.update s.runs t ((s.runs t).map fun r => { r with stage := stage }) }

def Wallet.reply (w : Wallet) : ℕ → ℕ
  | 0 => w.pending.length
  | 1 => w.submitted.length
  | 2 => w.borrowed.length
  | _ => w.recycled.length

def System.stage (s : System) (t : LeaseToken) : Option Stage := (s.runs t).map (·.stage)

def System.start (s : System) (jobs : List (BorrowedJob JobData)) (job : String) :
    LeaseToken → Option Run :=
  fun t => if ∃ b ∈ jobs, b.id = job ∧ b.leaseToken = t then some ⟨.popped, false⟩ else s.runs t

def System.step (S : Setting) (s : System) : Event → Option System
  | .add id request now =>
    match s.wallet.addTransaction id request now with
    | .ok (w, _) => some { s with wallet := w, calls := s.calls ++ [⟨id, w.born id, false⟩] }
    | .error _ => some s
  | .push i now =>
    match s.calls[i]? with
    | some ⟨id, born, false⟩ =>
      let pushed := s.queue.push S.job ⟨S.address, S.chain⟩ now 0 .last
      some { s with
        queue := pushed.1
        calls := s.calls.set i ⟨id, born, true⟩
        runs := if pushed.2 then s.runs else s.outdated none }
    | _ => none
  | .pushOther id data now delay position =>
    if id = S.job then none
    else some { s with queue := (s.queue.push id data now delay position).1 }
  | .pop now pop batch =>
    if pop ∈ s.pops then none
    else
      let popped := s.queue.popBatch now pop batch
      some { s with
        queue := popped.1
        runs := s.start popped.2.1 S.job
        pops := pop :: s.pops }
  | .completeOther id token now result =>
    if id = S.job then none
    else some { s with queue := (s.queue.complete S.options id token now result).1 }
  | .expireLease id token => some { s with queue := s.queue.expireLease id token }
  | .pruneSuccess => some { s with queue := s.queue.pruneSuccess S.options }
  | .pruneFailed => some { s with queue := s.queue.pruneFailed S.options }
  | .expireRecord id =>
    if (s.wallet.records id).any (·.expiring) then
      some { s with wallet := { s.wallet with records := Function.update s.wallet.records id none } }
    else none
  | .acquire t =>
    match s.stage t with
    | some .popped =>
      some ({ s with wallet := { s.wallet with lock := some t } }.enter t (.working none))
    | _ => none
  | .operate t op =>
    match s.stage t with
    | some (.working _) =>
      if s.wallet.lock = some t then
        match s.wallet.apply op with
        | .ok w => some ({ s with wallet := w, runs := s.outdated (some t) }.enter t (.working none))
        | .error _ => none
      else none
    | _ => none
  | .inspect t row nonce =>
    match s.stage t with
    | some (.working _) =>
      if (row, nonce) ∈ s.wallet.submitted then
        match row.owner with
        | some id => some (s.enter t (.working (some (id, nonce))))
        | none => none
      else none
    | _ => none
  | .bump t hash queuedAt submittedAt =>
    match s.stage t with
    | some (.working (some (id, nonce))) =>
      if s.wallet.lock = some t then
        some ({ s with
          wallet := s.wallet.addGasBump ⟨nonce, hash, id, submittedAt, queuedAt⟩
          runs := s.outdated (some t) }.enter t (.working none))
      else none
    | _ => none
  | .dropMissing t id =>
    match s.stage t with
    | some (.working _) => some { s with wallet := { s.wallet with
        pending := hdel s.wallet.pending id
        borrowed := hdel s.wallet.borrowed id } }
    | _ => none
  | .count t =>
    match s.runs t with
    | some ⟨.working _, _⟩ =>
      let first : Run := ⟨.counting [s.wallet.reply 0], false⟩
      some { s with runs := Function.update s.runs t (some first) }
    | some ⟨.counting replies, _⟩ =>
      if replies.length < 4 then
        some (s.enter t (.counting (replies ++ [s.wallet.reply replies.length])))
      else none
    | _ => none
  | .conclude t report delegation =>
    match s.stage t with
    | some (.counting [p, b, o, r]) =>
      some (s.enter t (.ended ((report.result ⟨p, b, o, r⟩).intoJobResult delegation)))
    | _ => none
  | .stop t e =>
    match s.stage t with
    | some .popped => some (s.enter t (.ended e.handle))
    | some (.working _) => some (s.enter t (.ended e.handle))
    | some (.counting _) => some (s.enter t (.ended e.handle))
    | _ => none
  | .release t =>
    match s.stage t with
    | some (.ended result) =>
      let lock := if s.wallet.lock = some t then none else s.wallet.lock
      some ({ s with wallet := { s.wallet with lock := lock } }.enter t (.released result))
    | _ => none
  | .complete t now =>
    match s.stage t with
    | some (.released result) =>
      some { s with
        queue := (s.queue.complete S.options S.job t now result).1
        runs := Function.update s.runs t none }
    | _ => none

def System.after (S : Setting) (s : System) : List Event → Option System
  | [] => some s
  | e :: es => (s.step S e).bind fun s' => s'.after S es

/-- While a returned call's transaction is held, the job is in a live index. -/
def System.Served (S : Setting) (s : System) : Prop :=
  ∀ c ∈ s.calls, c.returned = true → s.wallet.born c.id = c.born → s.wallet.Holds c.id →
    S.job ∈ s.queue.index

instance (S : Setting) (s : System) : Decidable (s.Served S) := by
  unfold System.Served
  infer_instance

end EngineCore.Eoa
