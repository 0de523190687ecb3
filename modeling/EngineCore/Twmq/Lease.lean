import EngineCore.Lib.Clients
import EngineCore.Twmq.Moves

/-!
# Completions behind a lease

`commit_if_leased` watches the lease key of a job, looks whether it exists and runs the pipeline of
the completion in `EXEC`, on a connection out of a pool. Workers pop and complete side by side,
leases expire, connections fail.

* **`lease_fencing`**: over every run, a lease token commits at most one completion, whole, while
  its key is there; what is reported as committed was committed; a completion without its lease key
  changes nothing; idle connections watch nothing.
-/

namespace EngineCore.Twmq

open Redis Interact

/-! ## Completions -/

abbrev LeaseKey := String × LeaseToken

/-- The commands a hook adds to a pipeline: they write anything but lease keys. -/
structure Hook (δ ρ : Type) where
  run : Queue δ × ρ → Queue δ × ρ
  leases : ∀ x, (run x).1.leases = x.1.leases

/-- What is completed: a handled job, or one whose data could not be decoded. -/
inductive Ending
  | handled (result : JobResult)
  | queueError
  deriving DecidableEq, Repr

/-- A completion by the task `holder`. The clock has been read and the hook has run; `encoded` says
whether the result, or the error record, could be encoded. -/
structure Completion (δ ρ : Type) where
  holder : ℕ
  id : String
  token : LeaseToken
  now : ℕ
  ending : Ending
  hook : Hook δ ρ
  encoded : Bool

variable {δ ρ : Type}

namespace Completion

def key (c : Completion δ ρ) : LeaseKey := (c.id, c.token)

/-- A queue error is stored like a failure. -/
def result (c : Completion δ ρ) : JobResult :=
  match c.ending with
  | .handled result => result
  | .queueError => .fail

/-- The commands of the hook, then those of the completion. -/
def pipeline (options : QueueOptions) (c : Completion δ ρ) (x : Queue δ × ρ) : Queue δ × ρ :=
  ((c.hook.run x).1.finish options c.id c.token c.now c.result, (c.hook.run x).2)

/-- `post_success_completion`, `post_nack_completion` and `post_fail_completion`. -/
def post (options : QueueOptions) (c : Completion δ ρ) (q : Queue δ) : Queue δ :=
  match c.result with
  | .success => q.pruneSuccess options
  | .nack .. => q
  | .fail => q.pruneFailed options

end Completion

/-! ## Redis -/

structure Commit (δ ρ : Type) where
  completion : Completion δ ρ
  before : Queue δ × ρ
  after : Queue δ × ρ

/-- The keys of the queue and the `rest` of Redis, the connections of the pool, and what has
happened: the pop ids used, the pipelines applied and the completions reported as committed. -/
structure Server (δ ρ : Type) where
  queue : Queue δ
  rest : ρ
  idle : List (Conn LeaseKey) := []
  pops : List String := []
  commits : List (Commit δ ρ) := []
  reported : List (Completion δ ρ) := []

namespace Server

/-- Every lease key that has changed is among the touched ones. -/
def Touches (w : Server δ ρ) (ts : List LeaseKey) (w' : Server δ ρ) : Prop :=
  ∀ k, k ∉ ts → (k ∈ w'.queue.leases ↔ k ∈ w.queue.leases)

/-- Other data, and the connections of the pool learn which keys were touched. -/
def written (w : Server δ ρ) (queue : Queue δ) (rest : ρ) (ts : List LeaseKey) : Server δ ρ :=
  { w with queue, rest, idle := w.idle.map (Conn.touch ts) }

/-- The pipeline of a completion is applied. -/
def committed (options : QueueOptions) (w : Server δ ρ) (c : Completion δ ρ) (ts : List LeaseKey) :
    Server δ ρ :=
  let after := c.pipeline options (w.queue, w.rest)
  { w.written after.1 after.2 ts with commits := ⟨c, (w.queue, w.rest), after⟩ :: w.commits }

/-- The end of a completion that has committed; the pruning script may fail. -/
def pruned (options : QueueOptions) (w : Server δ ρ) (c : Completion δ ρ) (ran : Bool) :
    Server δ ρ :=
  { w with
    queue := if ran then c.post options w.queue else w.queue
    reported := c :: w.reported }

end Server

/-- What goes on besides the completions: pops, each with an id of its own; leases that expire; and
anything that leaves the lease keys alone. -/
inductive Outside : Server δ ρ → List LeaseKey → Server δ ρ → Prop
  | pop {w : Server δ ρ} {ts : List LeaseKey} (now : ℕ) (pop : String) (batch : ℕ)
      (hnew : pop ∉ w.pops)
      (ht : w.Touches ts (w.written (w.queue.popBatch now pop batch).1 w.rest ts)) :
      Outside w ts
        { w.written (w.queue.popBatch now pop batch).1 w.rest ts with pops := pop :: w.pops }
  | expire {w : Server δ ρ} {ts : List LeaseKey} (id : String) (token : LeaseToken)
      (ht : (id, token) ∈ ts) : Outside w ts (w.written (w.queue.expireLease id token) w.rest ts)
  | other {w : Server δ ρ} {ts : List LeaseKey} (queue : Queue δ) (rest : ρ)
      (hleases : queue.leases = w.queue.leases) : Outside w ts (w.written queue rest ts)

/-! ## The program -/

inductive TwmqError
  | redis
  | encoding
  | runtime (message : String)
  deriving DecidableEq, Repr

inductive Ask
  | takeIdle
  | ping
  | connect
  | watch (key : LeaseKey)
  | exist (key : LeaseKey)
  | unwatch
  | exec
  | checkin
  | prune

/-- The answers. A command may fail; `EXEC` answers nil where a watched key was touched. -/
@[reducible] def Answer : Ask → Type
  | .takeIdle => Bool
  | .ping => Bool
  | .connect => Except TwmqError Unit
  | .watch _ => Except TwmqError Unit
  | .exist _ => Except TwmqError Bool
  | .unwatch => Except TwmqError Unit
  | .exec => Except TwmqError (Option Unit)
  | .checkin => Unit
  | .prune => Except TwmqError Unit

abbrev Client (α : Type) : Type := Task Ask Answer TwmqError α

def connect : Client Unit := ExceptT.mk (Prog.query Ask.connect)

def watch (key : LeaseKey) : Client Unit := ExceptT.mk (Prog.query (Ask.watch key))

def exist (key : LeaseKey) : Client Bool := ExceptT.mk (Prog.query (Ask.exist key))

def unwatch : Client Unit := ExceptT.mk (Prog.query Ask.unwatch)

def exec : Client (Option Unit) := ExceptT.mk (Prog.query Ask.exec)

def checkin : Client Unit := Task.query Ask.checkin

def prune : Client Unit := ExceptT.mk (Prog.query Ask.prune)

/-- An idle connection that answers, or a new one. -/
def checkout : Client Unit := do
  if ← Task.query Ask.takeIdle then
    if ← Task.query Ask.ping then return ()
    else connect
  else connect

/-- The lease-protected writes, at most `tries` times. -/
def commitIfLeased (key : LeaseKey) : ℕ → Client Bool
  | 0 => throw (.runtime "Lease changed repeatedly while completing a job")
  | tries + 1 => do
    watch key
    if ← exist key then
      match ← exec with
      | some () =>
        checkin
        return true
      | none => commitIfLeased key tries
    else
      unwatch
      checkin
      return false

/-- `complete_job` and `complete_job_queue_error`, once the hook has run. -/
def completeJob (c : Completion δ ρ) : Client Unit := do
  if c.encoded then
    checkout
    if ← commitIfLeased c.key 10 then prune
    else return ()
  else throw .encoding

/-- The effect of a command on the connection of the call and on Redis, with the touched keys. -/
def act (options : QueueOptions) (c : Completion δ ρ) :
    (q : Ask) → Option (Conn LeaseKey) × Server δ ρ → Answer q → List LeaseKey →
      Option (Conn LeaseKey) × Server δ ρ → Prop
  | .takeIdle, (_, w), a, _, y =>
    (w.idle = [] ∧ a = false ∧ y = (none, w)) ∨
      ∃ conn rest, w.idle = conn :: rest ∧ a = true ∧ y = (some conn, { w with idle := rest })
  | .ping, (l, w), a, _, y => y = (if a then l else none, w)
  | .connect, (_, w), a, _, y => y = (if a.isOk then some {} else none, w)
  | .watch key, (l, w), a, _, y =>
    y = (l.map (·.watch [key]), w) ∨ ((∃ e, a = .error e) ∧ y = (l, w))
  | .exist key, (l, w), a, _, y =>
    (a = .ok (decide (key ∈ w.queue.leases)) ∨ ∃ e, a = .error e) ∧ y = (l, w)
  | .unwatch, (l, w), a, _, y =>
    y = (l.map fun _ => {}, w) ∨ ((∃ e, a = .error e) ∧ y = (l, w))
  | .exec, (l, w), a, ts, y =>
    -- the commands did not reach Redis
    ((∃ e, a = .error e) ∧ y = (l, w)) ∨
    -- a watched key was touched; an error is a reply that was lost
    (∃ conn, l = some conn ∧ conn.dirty = true ∧ (a = .ok none ∨ ∃ e, a = .error e) ∧
      y = (some {}, w)) ∨
    ∃ conn, l = some conn ∧ conn.dirty = false ∧ (a = .ok (some ()) ∨ ∃ e, a = .error e) ∧
      w.Touches ts (w.committed options c ts) ∧ y = (some {}, w.committed options c ts)
  | .checkin, (l, w), _, _, y => y = (none, { w with idle := l.toList ++ w.idle })
  | .prune, (l, w), a, _, y => ∃ ran, (ran = false → ∃ e, a = .error e) ∧
    y = (l, w.pruned options c ran)

def completions (δ ρ : Type) (options : QueueOptions) :
    Clients Ask Answer (Server δ ρ) (Option (Conn LeaseKey)) (List LeaseKey) (Completion δ ρ) ℕ
      fun _ => Except TwmqError Unit where
  name := Completion.holder
  init _ := none
  body c := (completeJob c).run
  act := act options
  hear ts l := l.map (Conn.touch ts)
  outside := Outside

/-! ## Lease keys -/

section Leases

variable {q : Queue δ}

theorem leases_cancelAll (now : ℕ) (ids : List String) :
    (q.cancelAll now ids).1.leases = q.leases := by
  induction ids generalizing q with
  | nil => rfl
  | cons id ids ih =>
    have hone : (q.cancelRequested now id).1.leases = q.leases := by
      unfold Queue.cancelRequested
      split_ifs <;> rfl
    exact ih.trans hone

theorem leases_reclaimAll (ids : List String) : (q.reclaimAll ids).leases = q.leases := by
  refine List.foldlRecOn (motive := fun q' : Queue δ => q'.leases = q.leases) ids _ rfl
    fun q' h id _ => ?_
  unfold Queue.reclaim
  split_ifs <;> exact h

theorem leases_matureAll (ids : List String) : (q.matureAll ids).leases = q.leases := by
  refine List.foldlRecOn (motive := fun q' : Queue δ => q'.leases = q.leases) ids _ rfl
    fun q' h id _ => ?_
  unfold Queue.mature
  cases (q'.jobs id).reentryPosition.getD Position.last <;> exact h

/-- The key names the job of its token and comes from the pop. -/
def LeaseKey.From (k : LeaseKey) (pop : String) : Prop := k.2.pop = pop ∧ k.2.job = k.1

theorem leases_lendAll {now : ℕ} {pop : String} {ids : List String} {k : LeaseKey}
    (hk : k ∈ (q.lendAll now pop ids).1.leases) : k ∈ q.leases ∨ LeaseKey.From k pop := by
  induction ids generalizing q with
  | nil => exact .inl hk
  | cons id ids ih =>
    cases hd : q.data id with
    | none =>
      simp only [Queue.lendAll, hd] at hk
      exact ih hk
    | some data =>
      simp only [Queue.lendAll, hd] at hk
      rcases ih hk with hk | hk
      · rcases mem_sadd.1 hk with rfl | hk
        · exact .inr ⟨rfl, rfl⟩
        · exact .inl hk
      · exact .inr hk

theorem leases_popBatch {now : ℕ} {pop : String} {batch : ℕ} {k : LeaseKey}
    (hk : k ∈ (q.popBatch now pop batch).1.leases) : k ∈ q.leases ∨ LeaseKey.From k pop := by
  refine (leases_lendAll hk).imp_left fun hk => ?_
  rw [← leases_reclaimAll (keys q.active),
    ← leases_cancelAll now (q.reclaimAll (keys q.active)).cancellations,
    ← leases_matureAll (due ((q.reclaimAll (keys q.active)).cancelAll now
      (q.reclaimAll (keys q.active)).cancellations).1.delayed now)]
  exact hk

theorem leases_pruneAll (ids : List String) : (ids.foldl Queue.pruneOne q).leases = q.leases := by
  refine List.foldlRecOn (motive := fun q' : Queue δ => q'.leases = q.leases) ids _ rfl fun q' h id _ => ?_
  unfold Queue.pruneOne
  split_ifs <;> exact h

theorem leases_post {options : QueueOptions} {c : Completion δ ρ} :
    (c.post options q).leases = q.leases := by
  unfold Completion.post
  cases c.result with
  | success => exact leases_pruneAll _
  | nack => rfl
  | fail => exact leases_pruneAll _

theorem leases_finish {options : QueueOptions} {id : String} {token : LeaseToken} {now : ℕ}
    {result : JobResult} : (q.finish options id token now result).leases = srem q.leases (id, token) :=
  (finish_frame ..).1

theorem leases_pipeline {options : QueueOptions} {c : Completion δ ρ} {x : Queue δ × ρ} :
    (c.pipeline options x).1.leases = srem x.1.leases c.key := by
  rw [← c.hook.leases x]
  exact leases_finish

end Leases

/-! ## What a completion does -/

/-- All that an action of a completion does to Redis: it takes or gives back an idle connection, it
commits while its lease key is there, or it ends after it has committed. -/
inductive Effect (options : QueueOptions) (c : Completion δ ρ) (w : Server δ ρ) :
    Server δ ρ → Prop
  | quiet (idle : List (Conn LeaseKey)) (hidle : ∀ conn ∈ idle, conn ∈ w.idle ∨ conn.watched = []) :
      Effect options c w { w with idle }
  | commit (ts : List LeaseKey) (hkey : c.key ∈ w.queue.leases) :
      Effect options c w (w.committed options c ts)
  | report (ran : Bool) (hdone : ∃ d ∈ w.commits, d.completion = c) :
      Effect options c w (w.pruned options c ran)

structure Fenced (options : QueueOptions) (w : Server δ ρ) : Prop where
  /-- every lease key comes from a pop -/
  issued : ∀ k ∈ w.queue.leases, ∃ pop ∈ w.pops, LeaseKey.From k pop
  spent : ∀ d ∈ w.commits, d.completion.key ∉ w.queue.leases ∧
    ∃ pop ∈ w.pops, LeaseKey.From d.completion.key pop
  once : (w.commits.map fun d => d.completion.token).Nodup
  whole : ∀ d ∈ w.commits, d.completion.key ∈ d.before.1.leases ∧
    d.after = d.completion.pipeline options d.before
  told : ∀ c ∈ w.reported, ∃ d ∈ w.commits, d.completion = c
  idle : ∀ conn ∈ w.idle, conn.watched = []

section Invariant

variable {options : QueueOptions} {w w' : Server δ ρ} {ts : List LeaseKey} {c : Completion δ ρ}

theorem idle_touch (h : ∀ conn ∈ w.idle, conn.watched = []) :
    ∀ conn ∈ w.idle.map (Conn.touch ts), conn.watched = [] := by
  intro conn hconn
  obtain ⟨conn, hmem, rfl⟩ := List.mem_map.mp hconn
  exact h conn hmem

theorem Fenced.written (h : Fenced options w) {queue : Queue δ} {rest : ρ}
    (hleases : ∀ k ∈ queue.leases, k ∈ w.queue.leases) : Fenced options (w.written queue rest ts) :=
  ⟨fun k hk => h.issued k (hleases k hk),
    fun d hd => ⟨fun hk => (h.spent d hd).1 (hleases _ hk), (h.spent d hd).2⟩,
    h.once, h.whole, h.told, idle_touch h.idle⟩

theorem Fenced.outside (h : Fenced options w) (hout : Outside w ts w') : Fenced options w' := by
  cases hout with
  | pop now pop batch hnew ht =>
    have hold : ∀ k, (∃ p ∈ w.pops, LeaseKey.From k p) → ∃ p ∈ pop :: w.pops, LeaseKey.From k p := by
      rintro k ⟨p, hp, hfrom⟩
      exact ⟨p, List.mem_cons_of_mem _ hp, hfrom⟩
    refine ⟨fun k hk => ?_, fun d hd => ⟨fun hk => ?_, hold _ (h.spent d hd).2⟩, h.once, h.whole,
      h.told, idle_touch h.idle⟩
    · rcases leases_popBatch hk with hk | hk
      · exact hold k (h.issued k hk)
      · exact ⟨pop, List.mem_cons_self, hk⟩
    · -- a key that comes back would carry the new pop id
      obtain ⟨hgone, p, hp, hfrom⟩ := h.spent d hd
      rcases leases_popBatch hk with hk | hk
      · exact hgone hk
      · exact hnew (hk.1 ▸ hfrom.1 ▸ hp)
  | expire id token ht => exact h.written fun k hk => (mem_srem.1 hk).1
  | other queue rest hleases => exact h.written fun k hk => hleases ▸ hk

theorem Fenced.effect (h : Fenced options w) (he : Effect options c w w') : Fenced options w' := by
  cases he with
  | quiet idle hidle =>
    exact ⟨h.issued, h.spent, h.once, h.whole, h.told, fun conn hconn => (hidle conn hconn).elim
      (h.idle conn) id⟩
  | commit ts hkey =>
    have hleases : (c.pipeline options (w.queue, w.rest)).1.leases = srem w.queue.leases c.key :=
      leases_pipeline
    obtain ⟨pop, hpop, hfrom⟩ := h.issued _ hkey
    refine ⟨fun k hk => ?_, fun d hd => ?_, ?_, fun d hd => ?_, fun c' hc' => ?_, idle_touch h.idle⟩
    · exact h.issued k (mem_srem.1 (hleases ▸ hk)).1
    · show d.completion.key ∉ (c.pipeline options (w.queue, w.rest)).1.leases ∧ _
      rw [hleases, mem_srem]
      rcases List.mem_cons.mp hd with rfl | hd
      · exact ⟨fun hk => hk.2 rfl, pop, hpop, hfrom⟩
      · exact ⟨fun hk => (h.spent d hd).1 hk.1, (h.spent d hd).2⟩
    · refine List.nodup_cons.mpr ⟨fun hmem => ?_, h.once⟩
      obtain ⟨d, hd, heq⟩ := List.mem_map.mp hmem
      obtain ⟨hgone, _, _, hfrom'⟩ := h.spent d hd
      -- a token names its job, so an earlier commit of the token had the same key
      have hid : d.completion.id = c.id := calc
        d.completion.id = d.completion.token.job := hfrom'.2.symm
        _ = c.token.job := congrArg LeaseToken.job heq
        _ = c.id := hfrom.2
      have hsame : d.completion.key = c.key := Prod.ext hid heq
      exact hgone (hsame ▸ hkey)
    · rcases List.mem_cons.mp hd with rfl | hd
      · exact ⟨hkey, rfl⟩
      · exact h.whole d hd
    · obtain ⟨d, hd, heq⟩ := h.told c' hc'
      exact ⟨d, List.mem_cons_of_mem _ hd, heq⟩
  | report ran hdone =>
    have hleases : (w.pruned options c ran).queue.leases = w.queue.leases := by
      unfold Server.pruned
      cases ran
      · rfl
      · exact leases_post
    refine ⟨fun k hk => h.issued k (hleases ▸ hk), fun d hd => ?_, h.once, h.whole, fun c' hc' => ?_,
      h.idle⟩
    · exact ⟨fun hk => (h.spent d hd).1 (hleases ▸ hk), (h.spent d hd).2⟩
    · rcases List.mem_cons.mp hc' with rfl | hc'
      · exact hdone
      · exact h.told c' hc'

end Invariant

/-! ## What a completion establishes -/

/-- What a completion may rely on: a watched key tells it of every change of the key, and nothing
that was committed is forgotten. -/
def Rely (_ : ℕ) (ts : List LeaseKey) (w w' : Server δ ρ) : Prop :=
  w.Touches ts w' ∧ ∀ d ∈ w.commits, d ∈ w'.commits

section Programs

open Clients

variable {options : QueueOptions} {c : Completion δ ρ} {w : Server δ ρ} {α : Type}

/-- The call has a connection that meets `Φ`. -/
def With (Φ : Conn LeaseKey → Server δ ρ → Prop) (x : Option (Conn LeaseKey) × Server δ ρ) : Prop :=
  ∃ conn, x.1 = some conn ∧ Φ conn x.2

/-- As long as the connection is clean the key is there. -/
def Seen (key : LeaseKey) (conn : Conn LeaseKey) (w : Server δ ρ) : Prop :=
  key ∈ conn.watched ∧ (conn.dirty = false → key ∈ w.queue.leases)

/-- The pipeline was applied and the connection watches nothing. -/
def Applied (c : Completion δ ρ) (conn : Conn LeaseKey) (w : Server δ ρ) : Prop :=
  conn.watched = [] ∧ ∃ d ∈ w.commits, d.completion = c

/-- A program of the completion: what it does, what it returns and nothing of its errors. -/
abbrev Does (options : QueueOptions) (c : Completion δ ρ)
    (F : Option (Conn LeaseKey) × Server δ ρ → Prop) (x : Client α)
    (K : α → Option (Conn LeaseKey) × Server δ ρ → Prop) : Prop :=
  (completions δ ρ options).Triple Rely c (fun x y => Effect options c x.2 y.2) F x.run
    (Triple.Outcome K fun _ => True)

theorem stable_with {Φ : Conn LeaseKey → Server δ ρ → Prop}
    (h : ∀ conn ts w w', Rely c.holder ts w w' → Φ conn w → Φ (conn.touch ts) w') :
    (completions δ ρ options).Stable Rely ((completions δ ρ options).name c) (With Φ) := by
  rintro l ts w w' hrely ⟨conn, rfl, hconn⟩
  exact ⟨conn.touch ts, rfl, h conn ts w w' hrely hconn⟩

theorem stable_seen (key : LeaseKey) :
    (completions δ ρ options).Stable Rely ((completions δ ρ options).name c) (With (Seen key)) := by
  refine stable_with fun conn ts w w' hrely h => ⟨h.1, fun hclean => ?_⟩
  obtain ⟨hclean, hts⟩ := Conn.touch_clean.mp hclean
  exact (hrely.1 key (hts key h.1)).mpr (h.2 hclean)

theorem stable_applied :
    (completions δ ρ options).Stable Rely ((completions δ ρ options).name c) (With (Applied c)) := by
  refine stable_with fun conn ts w w' hrely h => ⟨h.1, ?_⟩
  obtain ⟨d, hd, heq⟩ := h.2
  exact ⟨d, hrely.2 d hd, heq⟩

theorem stable_any {F : Option (Conn LeaseKey) × Server δ ρ → Prop} (h : ∀ x, F x) :
    (completions δ ρ options).Stable Rely ((completions δ ρ options).name c) F :=
  fun _ _ _ _ _ _ => h _

theorem Effect.same : Effect options c w w := .quiet w.idle fun _ h => .inl h

theorem connect_does : Does options c (fun _ => True) connect fun _ => With fun _ _ => True := by
  refine Triple.query (stable_any fun _ => trivial) ?_
  rintro x a t y - rfl
  refine ⟨.same, ?_⟩
  cases a with
  | error e => trivial
  | ok => exact ⟨{}, rfl, trivial⟩

theorem ping_does : Does options c (With fun _ _ => True) (Task.query Ask.ping) fun answered x =>
    answered = true → With (fun _ _ => True) x := by
  refine Triple.ask (stable_with fun _ _ _ _ _ _ => trivial) ?_
  rintro x answered t y hx rfl
  refine ⟨.same, ?_⟩
  rintro rfl
  exact hx

theorem checkout_does : Does options c (fun _ => True) checkout fun _ => With fun _ _ => True := by
  refine Triple.seq (M := fun taken x => taken = true → With (fun _ _ => True) x)
    (Triple.ask (stable_any fun _ => trivial) ?_) ?_
  · rintro x a t y - (⟨_, rfl, rfl⟩ | ⟨conn, rest, hidle, rfl, rfl⟩)
    · exact ⟨.same, by rintro ⟨⟩⟩
    · exact ⟨.quiet rest fun conn h => .inl (hidle ▸ List.mem_cons_of_mem _ h), fun _ =>
        ⟨conn, rfl, trivial⟩⟩
  · intro taken
    cases taken with
    | false => exact connect_does.weaken (fun _ _ => trivial) fun _ _ h => h
    | true =>
      refine Triple.weaken (F := With fun _ _ => True) ?_ (fun _ h => h rfl) fun _ _ h => h
      refine Triple.seq ping_does fun answered => ?_
      cases answered with
      | false => exact connect_does.weaken (fun _ _ => trivial) fun _ _ h => h
      | true => exact Triple.ret fun _ h => h rfl

theorem watch_does (key : LeaseKey) : Does options c (With fun _ _ => True) (watch key) fun _ =>
    With fun conn _ => key ∈ conn.watched := by
  refine Triple.query (stable_with fun _ _ _ _ _ _ => trivial) ?_
  rintro ⟨_, w⟩ a t y ⟨conn, rfl, -⟩ (rfl | ⟨⟨e, rfl⟩, rfl⟩)
  · refine ⟨.same, ?_⟩
    cases a with
    | error e => trivial
    | ok => exact ⟨conn.watch [key], rfl, by simp [Conn.watch]⟩
  · exact ⟨.same, trivial⟩

theorem exist_does (key : LeaseKey) : Does options c (With fun conn _ => key ∈ conn.watched)
    (exist key) fun there x => (there = true → With (Seen key) x) ∧ With (fun _ _ => True) x := by
  refine Triple.query (stable_with fun conn ts w w' _ h => h) ?_
  rintro ⟨_, w⟩ a t y ⟨conn, rfl, hkey⟩ ⟨rfl | ⟨e, rfl⟩, rfl⟩
  · refine ⟨.same, fun hthere => ?_, conn, rfl, trivial⟩
    exact ⟨conn, rfl, hkey, fun _ => of_decide_eq_true hthere⟩
  · exact ⟨.same, trivial⟩

theorem exec_does : Does options c (With (Seen c.key)) exec fun applied x =>
    (applied.isSome → With (Applied c) x) ∧ With (fun _ _ => True) x := by
  refine Triple.query (stable_seen c.key) ?_
  rintro ⟨_, w⟩ a t y ⟨conn, rfl, hkey⟩ (⟨⟨e, rfl⟩, rfl⟩ | ⟨_, ⟨⟩, hdirty, ha, rfl⟩ |
    ⟨_, ⟨⟩, hclean, ha, ht, rfl⟩)
  · exact ⟨.same, trivial⟩
  · refine ⟨.same, ?_⟩
    rcases ha with rfl | ⟨e, rfl⟩
    · exact ⟨by rintro ⟨⟩, {}, rfl, trivial⟩
    · trivial
  · refine ⟨.commit t (hkey.2 hclean), ?_⟩
    rcases ha with rfl | ⟨e, rfl⟩
    · exact ⟨fun _ => ⟨{}, rfl, rfl, _, List.mem_cons_self, rfl⟩, {}, rfl, trivial⟩
    · trivial

theorem unwatch_does : Does options c (With fun _ _ => True) unwatch fun _ =>
    With fun conn _ => conn.watched = [] := by
  refine Triple.query (stable_with fun _ _ _ _ _ _ => trivial) ?_
  rintro ⟨_, w⟩ a t y ⟨conn, rfl, -⟩ (rfl | ⟨⟨e, rfl⟩, rfl⟩)
  · refine ⟨.same, ?_⟩
    cases a with
    | error e => trivial
    | ok => exact ⟨{}, rfl, rfl⟩
  · exact ⟨.same, trivial⟩

theorem checkin_does : Does options c (With fun conn _ => conn.watched = []) checkin
    fun _ _ => True := by
  refine Triple.ask (stable_with fun conn ts w w' _ h => h) ?_
  rintro ⟨_, w⟩ a t y ⟨conn, rfl, hconn⟩ rfl
  refine ⟨.quiet (conn :: w.idle) fun conn' h => ?_, trivial⟩
  rcases List.mem_cons.mp h with rfl | h
  · exact .inr hconn
  · exact .inl h

theorem checkin_applied : Does options c (With (Applied c)) checkin fun _ x =>
    ∃ d ∈ x.2.commits, d.completion = c := by
  refine Triple.ask stable_applied ?_
  rintro ⟨_, w⟩ a t y ⟨conn, rfl, hconn, hdone⟩ rfl
  refine ⟨.quiet (conn :: w.idle) fun conn' h => ?_, hdone⟩
  rcases List.mem_cons.mp h with rfl | h
  · exact .inr hconn
  · exact .inl h

theorem commitIfLeased_does (tries : ℕ) : Does options c (With fun _ _ => True)
    (commitIfLeased c.key tries) fun committed x =>
      committed = true → ∃ d ∈ x.2.commits, d.completion = c := by
  induction tries with
  | zero => exact Triple.fail fun _ _ => trivial
  | succ tries ih =>
    refine Triple.seq (watch_does c.key) fun _ => Triple.seq (exist_does c.key) fun there => ?_
    cases there with
    | false =>
      refine Triple.weaken (F := With fun _ _ => True) ?_ (fun _ h => h.2) fun _ _ h => h
      refine Triple.seq unwatch_does fun _ => Triple.seq checkin_does fun _ => ?_
      exact Triple.ret fun x _ => by rintro ⟨⟩
    | true =>
      refine Triple.weaken (F := With (Seen c.key)) ?_ (fun _ h => h.1 rfl) fun _ _ h => h
      refine Triple.seq exec_does fun applied => ?_
      cases applied with
      | none => exact ih.weaken (fun _ h => h.2) fun _ _ h => h
      | some u =>
        refine Triple.weaken (F := With (Applied c)) ?_ (fun _ h => h.1 rfl) fun _ _ h => h
        exact Triple.seq checkin_applied fun _ => Triple.ret fun x h _ => h

theorem prune_does : Does options c (fun x => ∃ d ∈ x.2.commits, d.completion = c) prune
    fun _ _ => True := by
  refine Triple.query ?_ ?_
  · rintro l ts w w' hrely ⟨d, hd, heq⟩
    exact ⟨d, hrely.2 d hd, heq⟩
  · rintro ⟨l, w⟩ a t y hdone ⟨ran, _, rfl⟩
    refine ⟨.report ran hdone, ?_⟩
    cases a <;> trivial

/-- **Every action of a completion is one of the three effects.** -/
theorem completeJob_does : Does options c (fun _ => True) (completeJob c) fun _ _ => True := by
  unfold completeJob
  split_ifs with hencoded
  · refine Triple.seq checkout_does fun _ => Triple.seq (commitIfLeased_does 10) fun committed => ?_
    cases committed with
    | false => exact Triple.ret fun _ _ => trivial
    | true => exact prune_does.weaken (fun _ h => h rfl) fun _ _ h => h
  · exact Triple.fail fun _ _ => trivial

end Programs

/-! ## Every run -/

section Runs

variable {options : QueueOptions} {w : Server δ ρ}

theorem Outside.rely {w w' : Server δ ρ} {ts : List LeaseKey} (h : Outside w ts w') (n : ℕ) :
    Rely n ts w w' := by
  cases h with
  | pop now pop batch hnew ht => exact ⟨ht, fun d hd => hd⟩
  | expire id token ht =>
    refine ⟨fun k hk => ?_, fun d hd => hd⟩
    have hne : k ≠ (id, token) := by
      rintro rfl
      exact hk ht
    exact mem_srem.trans (and_iff_left hne)
  | other queue rest hleases => exact ⟨fun k _ => by rw [← hleases]; rfl, fun d hd => hd⟩

theorem act_rely {c : Completion δ ρ} {q : Ask} {x y : Option (Conn LeaseKey) × Server δ ρ}
    {a : Answer q} {ts : List LeaseKey} (h : act options c q x a ts y) (n : ℕ) :
    Rely n ts x.2 y.2 := by
  have hsame : ∀ w w' : Server δ ρ, w'.queue.leases = w.queue.leases → w'.commits = w.commits →
      Rely n ts w w' :=
    fun w w' hl hc => ⟨fun k _ => by rw [hl], fun d hd => hc ▸ hd⟩
  cases q with
  | takeIdle =>
    rcases h with ⟨_, _, rfl⟩ | ⟨conn, rest, _, _, rfl⟩
    · exact hsame _ _ rfl rfl
    · exact hsame _ _ rfl rfl
  | ping | connect | checkin =>
    cases h
    exact hsame _ _ rfl rfl
  | watch key | unwatch =>
    rcases h with rfl | ⟨_, rfl⟩
    · exact hsame _ _ rfl rfl
    · exact hsame _ _ rfl rfl
  | exist key =>
    obtain ⟨_, rfl⟩ := h
    exact hsame _ _ rfl rfl
  | exec =>
    rcases h with ⟨_, rfl⟩ | ⟨conn, _, _, _, rfl⟩ | ⟨conn, _, _, _, ht, rfl⟩
    · exact hsame _ _ rfl rfl
    · exact hsame _ _ rfl rfl
    · exact ⟨ht, fun d hd => List.mem_cons_of_mem _ hd⟩
  | prune =>
    obtain ⟨ran, _, rfl⟩ := h
    refine hsame _ _ ?_ rfl
    cases ran
    · rfl
    · exact leases_post

theorem completions_sound : (completions δ ρ options).Sound (Fenced options) Rely
    (fun c x y => Effect options c x.2 y.2) fun _ _ => True where
  fresh _ _ _ _ _ _ := trivial
  outside _ _ _ hw hout := ⟨hw.outside hout, hout.rely⟩
  act _ _ _ _ _ _ hw hact he := ⟨hw.effect he, fun n _ => act_rely hact n⟩
  body _ w _ _ := (completeJob_does [] (none, w) trivial).post_mono fun _ _ _ _ => trivial

/-- A start: every lease key comes from a pop, nothing has been completed yet, and the connections
of the pool watch nothing. -/
structure Server.Initial (w : Server δ ρ) : Prop where
  issued : ∀ k ∈ w.queue.leases, ∃ pop ∈ w.pops, LeaseKey.From k pop
  commits : w.commits = []
  reported : w.reported = []
  idle : ∀ conn ∈ w.idle, conn.watched = []

theorem Server.Initial.fenced (h : w.Initial) : Fenced options w := by
  refine ⟨h.issued, ?_, ?_, ?_, ?_, h.idle⟩
  · rw [h.commits]
    rintro d ⟨⟩
  · rw [h.commits]
    exact List.nodup_nil
  · rw [h.commits]
    rintro d ⟨⟩
  · rw [h.reported]
    rintro c ⟨⟩

/-- **The lease fence.** In every run of any number of completions, with pops, expiring leases and
failing connections: a lease token commits at most one completion; a completion is applied whole,
hook and all, while its lease key is there; what is reported as committed was committed; the
connections of the pool watch nothing; and a completion that has not committed and whose lease key
is gone changes nothing. -/
theorem lease_fencing (hw : w.Initial)
    {s : Clients.State Ask Answer (Server δ ρ) (Option (Conn LeaseKey)) (Completion δ ρ) ℕ
      fun _ => Except TwmqError Unit}
    (hs : (completions δ ρ options).Steps (.initial w) s) :
    (s.world.commits.map fun d => d.completion.token).Nodup ∧
    (∀ d ∈ s.world.commits, d.completion.key ∈ d.before.1.leases ∧
      d.after = d.completion.pipeline options d.before) ∧
    (∀ c ∈ s.world.reported, ∃ d ∈ s.world.commits, d.completion = c) ∧
    (∀ conn ∈ s.world.idle, conn.watched = []) ∧
    ∀ x ∈ s.strands, x.job.key ∉ s.world.queue.leases →
      (∀ d ∈ s.world.commits, d.completion ≠ x.job) →
      ∀ q k, x.rest = .ask q k → ∀ a ts y, act options x.job q (x.own, s.world) a ts y →
        y.2.queue = s.world.queue ∧ y.2.rest = s.world.rest ∧ y.2.commits = s.world.commits := by
  have h := completions_sound.initial hw.fenced (fun _ => trivial) hs
  refine ⟨h.world.once, h.world.whole, h.world.told, h.world.idle, ?_⟩
  intro x hx hgone hnot q k hrest a ts y hact
  have he : Effect options x.job s.world y.2 := h.guarantee hx hrest hact
  generalize hw' : y.2 = w' at he
  cases he with
  | quiet => exact ⟨rfl, rfl, rfl⟩
  | commit ts hkey => exact absurd hkey hgone
  | report ran hdone =>
    obtain ⟨d, hd, heq⟩ := hdone
    exact absurd heq (hnot d hd)

end Runs

namespace Sample

/-- Answers for a completion that is alone with Redis. -/
def alone (options : QueueOptions) (c : Completion δ ρ) :
    (q : Ask) → Option (Conn LeaseKey) × Server δ ρ → Answer q × (Option (Conn LeaseKey) × Server δ ρ)
  | .takeIdle, (_, w) =>
    match w.idle with
    | [] => (false, none, w)
    | conn :: rest => (true, some conn, { w with idle := rest })
  | .ping, x => (true, x)
  | .connect, (_, w) => (.ok (), some {}, w)
  | .watch key, (l, w) => (.ok (), l.map (·.watch [key]), w)
  | .exist key, (l, w) => (.ok (decide (key ∈ w.queue.leases)), l, w)
  | .unwatch, (l, w) => (.ok (), l.map fun _ => {}, w)
  | .exec, (l, w) =>
    match l with
    | none => (.error .redis, l, w)
    | some conn =>
      if conn.dirty then (.ok none, some {}, w)
      else (.ok (some ()), some {}, w.committed options c [c.key])
  | .checkin, (l, w) => ((), none, { w with idle := l.toList ++ w.idle })
  | .prune, (l, w) => (.ok (), l, w.pruned options c true)

theorem touches_committed {options : QueueOptions} {c : Completion δ ρ} {w : Server δ ρ} :
    w.Touches [c.key] (w.committed options c [c.key]) := by
  intro k hk
  have hne : k ≠ c.key := fun heq => hk (List.mem_singleton.mpr heq)
  show k ∈ (c.pipeline options (w.queue, w.rest)).1.leases ↔ _
  rw [leases_pipeline, mem_srem]
  exact and_iff_left hne

theorem alone_act (options : QueueOptions) (c : Completion δ ρ) (q : Ask)
    (x : Option (Conn LeaseKey) × Server δ ρ) :
    ∃ ts, act options c q x (alone options c q x).1 ts (alone options c q x).2 := by
  obtain ⟨l, w⟩ := x
  cases q with
  | takeIdle =>
    cases hidle : w.idle with
    | nil => exact ⟨[], .inl (by simp [alone, hidle])⟩
    | cons conn rest => exact ⟨[], .inr ⟨conn, rest, hidle, by simp [alone, hidle]⟩⟩
  | ping | connect => exact ⟨[], rfl⟩
  | watch key => exact ⟨[], .inl rfl⟩
  | exist key => exact ⟨[], .inl rfl, rfl⟩
  | unwatch => exact ⟨[], .inl rfl⟩
  | exec =>
    cases l with
    | none => exact ⟨[], .inl ⟨⟨_, rfl⟩, rfl⟩⟩
    | some conn =>
      cases hdirty : conn.dirty with
      | true => exact ⟨[], .inr (.inl ⟨conn, rfl, hdirty, by simp [alone, hdirty]⟩)⟩
      | false =>
        refine ⟨[c.key], .inr (.inr ⟨conn, rfl, hdirty, ?_, touches_committed, ?_⟩)⟩
        · simp [alone, hdirty]
        · simp [alone, hdirty]
  | checkin => exact ⟨[], rfl⟩
  | prune => exact ⟨[], true, by rintro ⟨⟩, rfl⟩

def options : QueueOptions := ⟨.active, 10, 10⟩

/-- A queue with one job that has been pushed. -/
def start : Server Unit Unit := ⟨(({} : Queue Unit).push "a" () 0 0 .last).1, (), [], [], [], []⟩

def token : LeaseToken := ⟨1, "a", 1, "p"⟩

def popped : Server Unit Unit :=
  { start.written (start.queue.popBatch 1 "p" 1).1 () [("a", token)] with pops := ["p"] }

def done : Completion Unit Unit := ⟨0, "a", token, 2, .handled .success, ⟨id, fun _ => rfl⟩, true⟩

def completed : Server Unit Unit :=
  (((completeJob done).run).exec (alone options done) (none, popped)).2.2

set_option maxRecDepth 4000 in
theorem completed_once : completed.commits.map (fun d => d.completion.token) = [token] ∧
    completed.queue.success = ["a"] := by decide +kernel

theorem start_initial : start.Initial := by
  refine ⟨?_, rfl, rfl, ?_⟩
  · rintro k ⟨⟩
  · rintro conn ⟨⟩

theorem popped_outside : Outside start [("a", token)] popped := by
  refine .pop 1 "p" 1 (by rintro ⟨⟩) fun k hk => ?_
  have hleases : (start.queue.popBatch 1 "p" 1).1.leases = [("a", token)] := by decide +kernel
  show k ∈ (start.queue.popBatch 1 "p" 1).1.leases ↔ k ∈ []
  rw [hleases]
  exact iff_of_false hk (by rintro ⟨⟩)

end Sample

theorem lease_fencing_completed :
    Sample.completed.commits.map (fun d => d.completion.token) = [Sample.token] ∧
      ∀ conn ∈ Sample.completed.idle, conn.watched = [] := by
  obtain ⟨log, hrun⟩ := Clients.Answers.exec (S := completions Unit Unit Sample.options)
    (j := Sample.done) (.of_act (Sample.alone_act Sample.options Sample.done)) (completeJob Sample.done).run
    Sample.popped none [] [0] trivial
  have hpop := Clients.Step.outside (S := completions Unit Unit Sample.options)
    (s := .initial Sample.start) Sample.popped_outside
  have hstart := Clients.Step.start (S := completions Unit Unit Sample.options)
    (s := .initial Sample.popped) Sample.done (by rintro ⟨⟩)
  have hfence := lease_fencing Sample.start_initial (.head hpop (.head hstart hrun))
  exact ⟨Sample.completed_once.1, hfence.2.2.2.1⟩

end EngineCore.Twmq
