import EngineCore.Server.ExecutionRouter
import EngineCore.Twmq.Hooks
import EngineCore.Twmq.Readmission

/-!
# Cancelling an ERC-4337 transaction

The route reads the registry, then the journal, and then asks the send queue. A job that is being
processed is only marked: a later poll stops it, and a hook then removes its registry entry.

* `Action.apply`: a step of the route, the queue, a hook or the journal;
* **`reserved_spared`**: when no operation that may have been sent is cancelled;
  **`reserved_cancelled`**: one that is.
-/

namespace EngineCore.Server

open Recovery Twmq ExternalBundler
open Except (bind_ok pure_ok)

/-- How far a cancellation is: `cancel_transaction` has found the transaction in the send queue, it has
found no broadcast in the journal, or the job is cancelled and its registry entry to be removed. -/
inductive Progress
  | registered
  | unreserved
  | cancelled
  deriving DecidableEq, Repr

/-- The site with the calls of `cancel_transaction` and the hooks of cancelled jobs. -/
structure Desk extends Site where
  tasks : List (String × Progress) := []

/-- A step. `register` stands for the hooks of completions, `finish` for the hook and the route of a
cancelled job; a call or a hook may be lost at any time. -/
inductive Action
  | submit (data : ExternalBundlerSendJobData) (now : ℕ)
  | queue (op : Op ExternalBundlerSendJobData) (h : ∀ id, ¬op.Cancels id)
  | register (id : String) (entry : Option String)
  | journal (t : Tx) (now : Option ℕ)
  | request (id : String)
  | admission (id : String)
  | cancelJob (id : String) (now : ℕ)
  | finish (id : String)
  | lose (task : String × Progress)

/-- A broadcast attempt of the transaction is durably reserved. -/
def reserved (db : Database) (id : String) : Bool := (db.lookup id).any fun r => r.replayKey.isSome

/-- `cancel_transaction` goes on: the admission is read and has no replay key. -/
def goesOn (db : Database) (id : String) : Bool :=
  (db.admission .erc4337 id).toOption.any fun record => !record.any fun r => r.replayKey.isSome

section Actions

variable (P : Primitives) (K : Library)

def Action.apply (s : Desk) : Action → Desk
  | .submit data now => { s with toSite := (executeExternalBundler P K s.toSite data now).2 }
  | .queue op _ =>
    { s with
      send := op.apply queueOptions s.send
      tasks := (op.cancelled s.send).map (·, .cancelled) ++ s.tasks }
  | .register id entry => { s with toSite := s.register id entry }
  | .journal t now =>
    { s with journal := (t.exec P now s.journal).toOption.elim s.journal Prod.snd }
  | .request id =>
    if s.registry id = some sendQueueName then { s with tasks := (id, .registered) :: s.tasks } else s
  | .admission id =>
    if (id, .registered) ∈ s.tasks ∧ goesOn s.journal id then
      { s with tasks := (id, .unreserved) :: s.tasks.erase (id, .registered) }
    else s
  | .cancelJob id now =>
    if (id, .unreserved) ∈ s.tasks then
      -- a job that is cancelled at once leaves a hook and the removal by the route
      let stopped := ((Op.cancel id now).cancelled s.send).map (·, .cancelled)
      { s with
        send := (Op.cancel id now).apply queueOptions s.send
        tasks := stopped ++ stopped ++ s.tasks.erase (id, .unreserved) }
    else s
  | .finish id =>
    if (id, .cancelled) ∈ s.tasks then
      { s with toSite := s.register id none, tasks := s.tasks.erase (id, .cancelled) }
    else s
  | .lose task => { s with tasks := s.tasks.erase task }

/-- The transactions a step cancels: their job is moved to the failed list, or `on_fail` with the
error of a cancellation or the route removes their registry entry. -/
def Action.cancels (s : Desk) : Action → List String
  | .queue op _ => op.cancelled s.send
  | .cancelJob id now =>
    if (id, .unreserved) ∈ s.tasks then (Op.cancel id now).cancelled s.send else []
  | .finish id => if (id, .cancelled) ∈ s.tasks then [id] else []
  | _ => []

/-- No cancellation of the transaction has passed the check of the journal. -/
structure Desk.Calm (s : Desk) (id : String) : Prop where
  tasks : ∀ p, (id, p) ∈ s.tasks → p = .registered
  asked : id ∉ s.send.cancellations

/-- A broadcast is reserved only while no cancellation has passed the check. -/
def Action.Careful (s : Desk) (a : Action) : Prop :=
  ∀ id, reserved (a.apply P K s).journal id → reserved s.journal id ∨ s.Calm id

def Desk.run (s : Desk) (actions : List Action) : Desk := actions.foldl (Action.apply P K) s

def Desk.Careful : Desk → List Action → Prop
  | _, [] => True
  | s, a :: actions => a.Careful P K s ∧ Desk.Careful (a.apply P K s) actions

end Actions

variable {P : Primitives} {K : Library} {s : Desk} {id : String}

/-! ## One step -/

theorem not_reserved (h : goesOn s.journal id) : ¬reserved s.journal id := by
  unfold goesOn at h
  cases hadm : s.journal.admission .erc4337 id with
  | error e => simp [hadm, Except.toOption] at h
  | ok record =>
    have he := hadm
    simp only [Database.admission, bind_ok, pure_ok] at he
    obtain ⟨-, -, rfl⟩ := he
    simpa [hadm, Except.toOption, reserved] using h

theorem not_cancelled {q : Queue ExternalBundlerSendJobData} (hx : q.Exclusive (fun _ => True) [])
    (h : id ∉ q.cancellations) {op : Op ExternalBundlerSendJobData} (hop : ¬op.Cancels id) :
    id ∉ op.cancelled q := by
  cases op with
  | pop now popId batch => exact fun hin => h (asked_of_cancelled hx hin)
  | cancel i now =>
    rw [Op.cancelled]
    split_ifs
    · simpa using Ne.symm hop
    · exact List.not_mem_nil
  | _ => exact List.not_mem_nil

/-- The send queue makes a step that cancels nothing but what has passed the check. -/
theorem Action.send_cases (s : Desk) (a : Action) : (a.apply P K s).send = s.send ∨
    ∃ op : Op ExternalBundlerSendJobData, (a.apply P K s).send = op.apply queueOptions s.send ∧
      ∀ id, s.Calm id → ¬op.Cancels id := by
  cases a with
  | submit data now =>
    simp only [Action.apply, executeExternalBundler]
    cases reserveAdmission P K s.journal data with
    | error e => exact .inl rfl
    | ok x =>
      dsimp only
      split_ifs
      · exact .inl rfl
      · cases K.decodeJob x.1.payload with
        | none => exact .inl rfl
        | some job => exact .inr ⟨.push data.transactionId job now 0 .last, rfl, fun _ _ h => h⟩
  | queue op h => exact .inr ⟨op, rfl, fun id _ => h id⟩
  | cancelJob i now =>
    rw [Action.apply]
    split_ifs with hin
    · refine .inr ⟨.cancel i now, rfl, fun id hc he => ?_⟩
      cases hc.tasks _ (he ▸ hin)
    · exact .inl rfl
  | request i | admission i | finish i =>
    rw [Action.apply]
    split_ifs
    all_goals exact .inl rfl
  | _ => exact .inl rfl

theorem Action.not_calm (hx : s.send.Exclusive (fun _ => True) []) {a : Action}
    (h : id ∈ a.cancels s) : ¬s.Calm id := by
  intro hc
  cases a with
  | queue op hop => exact not_cancelled hx hc.asked (hop id) h
  | cancelJob i now =>
    rw [Action.cancels] at h
    split_ifs at h with hin
    · refine not_cancelled hx hc.asked (fun he => ?_) h
      cases hc.tasks _ (he ▸ hin)
    · exact List.not_mem_nil h
  | finish i =>
    rw [Action.cancels] at h
    split_ifs at h with hin
    · cases hc.tasks _ (List.mem_singleton.mp h ▸ hin)
    · exact List.not_mem_nil h
  | _ => exact List.not_mem_nil h

theorem Action.tasks_cases {p : Progress} {a : Action} (h : (id, p) ∈ (a.apply P K s).tasks) :
    (id, p) ∈ s.tasks ∨ p = .registered ∨ id ∈ a.cancels s ∨
      (a.apply P K s).journal = s.journal ∧ ¬reserved s.journal id := by
  cases a with
  | queue op hop =>
    simp only [Action.apply, List.mem_append, List.mem_map, Prod.mk.injEq] at h
    rcases h with ⟨i, hi, rfl, -⟩ | h
    · exact .inr (.inr (.inl hi))
    · exact .inl h
  | request i =>
    rw [Action.apply] at h
    split_ifs at h
    · rcases List.mem_cons.mp h with he | h
      · exact .inr (.inl (congrArg Prod.snd he))
      · exact .inl h
    · exact .inl h
  | admission i =>
    rw [Action.apply] at h ⊢
    split_ifs at h ⊢ with hgo
    · rcases List.mem_cons.mp h with he | h
      · obtain rfl : id = i := congrArg Prod.fst he
        exact .inr (.inr (.inr ⟨rfl, not_reserved hgo.2⟩))
      · exact .inl (List.mem_of_mem_erase h)
    · exact .inl h
  | cancelJob i now =>
    rw [Action.apply] at h
    rw [Action.cancels]
    split_ifs at h ⊢
    · simp only [List.mem_append, List.mem_map, Prod.mk.injEq, or_self] at h
      rcases h with ⟨j, hj, rfl, -⟩ | h
      · exact .inr (.inr (.inl hj))
      · exact .inl (List.mem_of_mem_erase h)
    · exact .inl h
  | finish i =>
    rw [Action.apply] at h
    split_ifs at h
    · exact .inl (List.mem_of_mem_erase h)
    · exact .inl h
  | lose task => exact .inl (List.mem_of_mem_erase h)
  | _ => exact .inl h

/-! ## Runs -/

structure Desk.Inv (s : Desk) : Prop where
  queue : s.send.Exclusive (fun _ => True) []
  calm : ∀ id, reserved s.journal id → s.Calm id

theorem Desk.Inv.apply (h : s.Inv) {a : Action} (ha : a.Careful P K s) : (a.apply P K s).Inv where
  queue := by
    rcases a.send_cases (P := P) (K := K) s with he | ⟨op, he, -⟩
    · exact he ▸ h.queue
    · exact he ▸ op.exclusive h.queue
  calm id hr := by
    have hc : s.Calm id := (ha id hr).elim (h.calm id) fun hc => hc
    constructor
    · intro p hp
      rcases Action.tasks_cases hp with hin | hp | hin | ⟨he, hnot⟩
      · exact hc.tasks p hin
      · exact hp
      · exact absurd hc (Action.not_calm h.queue hin)
      · exact absurd (he ▸ hr) hnot
    · rcases a.send_cases (P := P) (K := K) s with he | ⟨op, he, hop⟩
      · exact he ▸ hc.asked
      · exact he ▸ Op.not_asked h.queue hc.asked (hop id hc)

theorem Desk.Inv.run (h : s.Inv) {actions : List Action} (ha : s.Careful P K actions) :
    (s.run P K actions).Inv := by
  induction actions generalizing s with
  | nil => exact h
  | cons a actions ih => exact ih (h.apply ha.1) ha.2

/-- **An operation that may have been sent is not cancelled, if no broadcast is reserved during a
cancellation.** In every run, from any journal, in which no step reserves a broadcast of a transaction
while a cancellation of it is past its check, no step cancels a transaction whose admission has a
replay key. -/
theorem reserved_spared {db : Database} {actions : List Action}
    (h : Desk.Careful P K { journal := db } actions) {a : Action} {id : String}
    (hid : id ∈ a.cancels (Desk.run P K { journal := db } actions)) :
    ¬reserved (Desk.run P K { journal := db } actions).journal id := by
  have hempty : Desk.Inv { journal := db } :=
    ⟨.empty, fun _ _ => ⟨fun _ hin => absurd hin List.not_mem_nil, List.not_mem_nil⟩⟩
  have hinv := hempty.run h
  exact fun hr => Action.not_calm hinv.queue hid (hinv.calm id hr)

/-! ## A broadcast reserved during a cancellation -/

theorem Action.careful_reads (s : Desk) (id : String) :
    (Action.request id).Careful P K s ∧ (Action.admission id).Careful P K s := by
  constructor
  all_goals
    intro i h
    rw [Action.apply] at h
    split_ifs at h <;> exact .inl h

namespace Race

def built : Send.Built := ⟨3, 5, none, ⟨.null⟩⟩

def reservation : Tx :=
  .broadcast .erc4337 "t1" (Send.replayKey Recovery.Sample.primitives Retry.job built) "d"
    (Send.attemptPayload Recovery.Sample.primitives Retry.job built)

def checked : List Action := [.submit Retry.request 1, .request "t1", .admission "t1"]

/-- The send handler reserves its broadcast after the cancellation was asked for, and returns the job
after an unclear answer. -/
def returned : List Action :=
  [.submit Retry.request 1,
    .journal (.acknowledge ⟨"v3:d:1:0", "v3:d:1:1", "engine:recovery:checkpoint", "run"⟩) none,
    .queue (.pop 2 "p" 1) fun _ h => h, .request "t1", .admission "t1", .cancelJob "t1" 3,
    .journal reservation none,
    .queue (.complete "t1" ⟨2, "t1", 1, "p"⟩ 4 (.nack none .last)) fun _ h => h]

def poll : Action := .queue (.pop 5 "q" 1) fun _ h => h

abbrev after (actions : List Action) : Desk :=
  Desk.run Recovery.Sample.primitives Retry.library { journal := Recovery.Sample.world.db } actions

end Race

open Race in
set_option maxRecDepth 4000 in
/-- The next poll cancels the job, and its hook removes the registry entry. -/
theorem reserved_cancelled :
    reserved (after returned).journal "t1" = true ∧
    (after returned).registry "t1" = some sendQueueName ∧
    "t1" ∈ poll.cancels (after returned) ∧ "t1" ∈ (after (returned ++ [poll])).send.failed ∧
    (after (returned ++ [poll, .finish "t1"])).registry "t1" = none := by
  decide +kernel

open Race in
set_option maxRecDepth 4000 in
theorem reserved_spared_checked :
    "t1" ∈ (Action.cancelJob "t1" 2).cancels (after checked) ∧
    ¬reserved (after checked).journal "t1" := by
  have hcareful : Desk.Careful Recovery.Sample.primitives Retry.library
      { journal := Recovery.Sample.world.db } checked := by
    refine ⟨fun _ _ => .inr ?_, (Action.careful_reads _ _).1, (Action.careful_reads _ _).2, trivial⟩
    exact ⟨fun _ h => absurd h List.not_mem_nil, List.not_mem_nil⟩
  have hid : "t1" ∈ (Action.cancelJob "t1" 2).cancels (after checked) := by decide +kernel
  exact ⟨hid, reserved_spared hcareful hid⟩

end EngineCore.Server
