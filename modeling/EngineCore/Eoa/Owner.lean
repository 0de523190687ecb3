import EngineCore.Lib.Clients
import EngineCore.Eoa.Store

/-!
# The owner of a wallet

A worker takes the lock of a wallet from whoever has it, and commits to the store only while the
lock names it: it watches the lock and the keys of the operation on a connection of its own, reads
the owner, validates and runs the pipeline in `EXEC`. Any number of workers do so side by side.

* **`owner_fencing`**: over every run, a call is applied only while its worker has the lock, to the
  very state its validation read, and at most once; nobody deletes the lock of another worker; a
  worker that has lost the lock commits no more.
-/

namespace EngineCore.Eoa.Owner

open Redis Interact

variable {κ : Type} [DecidableEq κ] {ν : κ → Type}

/-! ## Operations -/

/-- The values of the keys of a wallet, the lock apart. -/
abbrev Data (ν : κ → Type) : Type := (k : κ) → ν k

/-- The commands of a pipeline: writes, or the deletion of the lock. -/
inductive Pipeline (ν : κ → Type)
  | write (f : Data ν → Data ν)
  | unlock

def Pipeline.run : Pipeline ν → Option String × Data ν → Option String × Data ν
  | .write f, (lock, data) => (lock, f data)
  | .unlock, (_, data) => (none, data)

/-- `SafeRedisTransaction`. The validation reads keys, watched or not, and knows the time; from what
it has read the operation builds its commands. -/
structure SafeTransaction (ν : κ → Type) where
  name : String
  watchKeys : List κ
  validation : ℕ → Prog κ ν (Except StoreError (Data ν → Data ν))

inductive Call (ν : κ → Type)
  | locked (f : Data ν → Data ν)
  | safe (tx : SafeTransaction ν)
  | release

/-- The keys a call watches besides the lock. -/
def Call.watchKeys : Call ν → List κ
  | .locked _ => []
  | .safe tx => tx.watchKeys
  | .release => []

/-! ## Redis -/

inductive Key (κ : Type)
  | lock
  | data (k : κ)
  deriving DecidableEq

/-- A pipeline that `EXEC` has applied, in a call of a worker; `seen` are the values the call had
found since it last put its watch. -/
structure Commit (ν : κ → Type) where
  worker : String
  number : ℕ
  call : Call ν
  pipeline : Pipeline ν
  seen : List (Data ν)
  before : Option String × Data ν
  after : Option String × Data ν

/-- The keys of one wallet, and what has happened: the pipelines applied, the workers that the lock
has named, and the calls that have returned `Ok`. -/
structure Server (ν : κ → Type) where
  lock : Option String
  data : Data ν
  commits : List (Commit ν) := []
  acquired : List String := []
  returned : List (String × ℕ) := []

namespace Server

/-- Every key that has changed is among the touched ones. -/
def Touches (w : Server ν) (ts : List (Key κ)) (w' : Server ν) : Prop :=
  (.lock ∉ ts → w'.lock = w.lock) ∧ ∀ k, .data k ∉ ts → w'.data k = w.data k

def taken (w : Server ν) (id : String) : Server ν :=
  { w with lock := some id, acquired := id :: w.acquired }

def applied (w : Server ν) (c : Commit ν) : Server ν :=
  { w with lock := c.after.1, data := c.after.2, commits := c :: w.commits }

end Server

/-- What a worker has of its own: its connection, the number of calls it has begun and what the
current call has found. -/
structure Own (ν : κ → Type) where
  conn : Conn (Key κ) := {}
  calls : ℕ := 0
  seen : List (Data ν) := []

/-! ## The program -/

/-- The commands of a worker. The connection is behind a mutex: a call begins when it gets the
guard and ends when it drops it. -/
inductive Ask (ν : κ → Type)
  | connect
  | setNx
  | setLock
  | lockGuard
  | dropGuard (ok : Bool)
  | watch (keys : List κ)
  | owner
  | get (k : κ)
  | clock
  | unwatch
  | exec (call : Call ν) (pipeline : Pipeline ν)

/-- The answers. A command may fail; `EXEC` answers nil where a watched key was touched. -/
@[reducible] def Answer : Ask ν → Type
  | .connect => Except StoreError Unit
  | .setNx => Except StoreError Bool
  | .setLock => Except StoreError Unit
  | .lockGuard => Unit
  | .dropGuard _ => Unit
  | .watch _ => Except StoreError Unit
  | .owner => Except StoreError (Option String)
  | .get k => Except StoreError (ν k)
  | .clock => ℕ
  | .unwatch => Except StoreError Unit
  | .exec .. => Except StoreError (Option Unit)

abbrev Client (ν : κ → Type) (α : Type) : Type := Task (Ask ν) Answer StoreError α

section Commands

variable {α : Type}

def connect : Client ν Unit := ExceptT.mk (Prog.query Ask.connect)

def setNx : Client ν Bool := ExceptT.mk (Prog.query Ask.setNx)

def setLock : Client ν Unit := ExceptT.mk (Prog.query Ask.setLock)

def watch (keys : List κ) : Client ν Unit := ExceptT.mk (Prog.query (Ask.watch keys))

def owner : Client ν (Option String) := ExceptT.mk (Prog.query Ask.owner)

def get (k : κ) : Client ν (ν k) := ExceptT.mk (Prog.query (Ask.get k))

def clock : Client ν ℕ := Task.query Ask.clock

def unwatch : Client ν Unit := ExceptT.mk (Prog.query Ask.unwatch)

def exec (call : Call ν) (pipeline : Pipeline ν) : Client ν (Option Unit) :=
  ExceptT.mk (Prog.query (Ask.exec call pipeline))

end Commands

def maxRetries : ℕ := 10

structure Place where
  eoa : String
  chainId : ℕ

/-- Try the normal acquisition, then take the lock over. -/
def acquireEoaLockAggressively : Client ν Unit := do
  connect
  if ← setNx then return ()
  else
    let _ ← owner
    setLock

/-- After a nil answer: whether the lock is still ours decides between a retry and the end. -/
def whileOwned (id : String) (next : Client ν Unit) : Client ν Unit := do
  if (← owner) = some id then next else throw .lockLost

/-- `with_lock_check`, with `tries` attempts left. -/
def withLockCheck (place : Place) (id : String) (call : Call ν) (pipeline : Pipeline ν) :
    ℕ → Client ν Unit
  | 0 => throw (.internalError
      s!"Exceeded max retries ({maxRetries}) for lock check on {place.eoa}:{place.chainId}")
  | tries + 1 => do
    watch []
    if (← owner) = some id then
      match ← exec call pipeline with
      | some () => return ()
      | none => whileOwned id (withLockCheck place id call pipeline tries)
    else
      unwatch
      throw .lockLost

def validate : Prog κ ν (Except StoreError (Data ν → Data ν)) → Client ν (Data ν → Data ν)
  | .done r => ExceptT.mk (.done r)
  | .ask k next => do
    let v ← get k
    validate (next v)

/-- Take the outcome of a program as a value. -/
def attempt {α : Type} (x : Client ν α) : Client ν (Except StoreError α) :=
  ExceptT.mk (x.run.bind fun r => .done (.ok r))

/-- `execute_with_watch_and_retry`, with `tries` attempts left. -/
def executeWithWatchAndRetry (place : Place) (id : String) (tx : SafeTransaction ν) :
    ℕ → Client ν Unit
  | 0 => throw (.internalError
      s!"Exceeded max retries ({maxRetries}) for {tx.name} on {place.eoa}:{place.chainId}")
  | tries + 1 => do
    watch tx.watchKeys
    if (← owner) = some id then
      let now ← clock
      match ← attempt (validate (tx.validation now)) with
      | .ok f =>
        match ← exec (.safe tx) (.write f) with
        | some () => return ()
        | none => whileOwned id (executeWithWatchAndRetry place id tx tries)
      | .error e =>
        unwatch
        throw e
    else
      unwatch
      throw .lockLost

def Call.body (place : Place) (id : String) : Call ν → Client ν Unit
  | .locked f => withLockCheck place id (.locked f) (.write f) maxRetries
  | .safe tx => executeWithWatchAndRetry place id tx maxRetries
  | .release => withLockCheck place id .release .unlock maxRetries

def Call.guarded (place : Place) (id : String) (call : Call ν) :
    Prog (Ask ν) Answer (Except StoreError Unit) :=
  (Prog.query Ask.lockGuard).bind fun _ =>
    (call.body place id).run.bind fun r =>
      (Prog.query (Ask.dropGuard r.isOk)).bind fun _ => .done r

/-- A worker: what it does with the lock depends on the results of its calls. -/
structure Worker (ν : κ → Type) where
  id : String
  session : Prog (Call ν) (fun _ => Except StoreError Unit) Unit

def session (place : Place) (id : String) :
    Prog (Call ν) (fun _ => Except StoreError Unit) Unit → Prog (Ask ν) Answer Unit
  | .done u => .done u
  | .ask call next => (call.guarded place id).bind fun r => session place id (next r)

def Worker.body (place : Place) (worker : Worker ν) : Client ν Unit := do
  acquireEoaLockAggressively
  ExceptT.lift (Owner.session place worker.id worker.session)

/-- The effect of a command on what the worker has of its own and on Redis, with the touched
keys. -/
def act (worker : Worker ν) :
    (q : Ask ν) → Own ν × Server ν → Answer q → List (Key κ) → Own ν × Server ν → Prop
  | .connect, (l, w), _, _, y => y = ({ l with conn := {} }, w)
  | .setNx, (l, w), a, ts, y =>
    ((∃ e, a = .error e) ∧ y = (l, w)) ∨
    (w.lock ≠ none ∧ a = .ok false ∧ y = (l, w)) ∨
    (w.lock = none ∧ (a = .ok true ∨ ∃ e, a = .error e) ∧ .lock ∈ ts ∧
      y = (l, w.taken worker.id))
  | .setLock, (l, w), a, ts, y =>
    ((∃ e, a = .error e) ∧ y = (l, w)) ∨ (.lock ∈ ts ∧ y = (l, w.taken worker.id))
  | .lockGuard, (l, w), _, _, y => y = ({ l with calls := l.calls + 1, seen := [] }, w)
  | .dropGuard ok, (l, w), _, _, y =>
    y = (l, if ok then { w with returned := (worker.id, l.calls) :: w.returned } else w)
  | .watch keys, (l, w), a, _, y =>
    y = ({ l with conn := l.conn.watch (.lock :: keys.map .data), seen := [] }, w) ∨
      ((∃ e, a = .error e) ∧ y = (l, w))
  | .owner, (l, w), a, _, y =>
    (a = .ok w.lock ∨ ∃ e, a = .error e) ∧ y = ({ l with seen := w.data :: l.seen }, w)
  | .get k, (l, w), a, _, y =>
    (a = .ok (w.data k) ∨ ∃ e, a = .error e) ∧ y = ({ l with seen := w.data :: l.seen }, w)
  | .clock, (l, w), _, _, y => y = (l, w)
  | .unwatch, (l, w), a, _, y =>
    y = ({ l with conn := {} }, w) ∨ ((∃ e, a = .error e) ∧ y = (l, w))
  | .exec call pipeline, (l, w), a, ts, y =>
    -- the commands did not reach Redis
    ((∃ e, a = .error e) ∧ y = (l, w)) ∨
    -- a watched key was touched; an error is a reply that was lost
    (l.conn.dirty = true ∧ (a = .ok none ∨ ∃ e, a = .error e) ∧ y = ({ l with conn := {} }, w)) ∨
    (l.conn.dirty = false ∧ (a = .ok (some ()) ∨ ∃ e, a = .error e) ∧
      ∃ c : Commit ν, c = ⟨worker.id, l.calls, call, pipeline, l.seen, (w.lock, w.data),
        pipeline.run (w.lock, w.data)⟩ ∧ w.Touches ts (w.applied c) ∧
        y = ({ l with conn := {} }, w.applied c))

/-- Writes without the lock: the API admits transactions, records expire. -/
def Outside (w : Server ν) (ts : List (Key κ)) (w' : Server ν) : Prop :=
  ∃ data, w' = { w with data } ∧ w.Touches ts w'

def workers (ν : κ → Type) (place : Place) :
    Clients (Ask ν) Answer (Server ν) (Own ν) (List (Key κ)) (Worker ν) String
      fun _ => Except StoreError Unit where
  name := Worker.id
  init _ := {}
  body worker := (worker.body place).run
  act := act
  hear ts l := { l with conn := l.conn.touch ts }
  outside := Outside

/-! ## Pipelines and what they are built from -/

/-- The validation builds the pipeline `g` when every watched key it reads has its value in `d`;
what it reads elsewhere may be anything. -/
def Computes (watched : List κ) (d : Data ν) :
    Prog κ ν (Except StoreError (Data ν → Data ν)) → (Data ν → Data ν) → Prop
  | .done (.ok f), g => f = g
  | .done (.error _), _ => False
  | .ask k next, g =>
    if k ∈ watched then Computes watched d (next (d k)) g else ∃ v, Computes watched d (next v) g

theorem computes_congr {watched : List κ} {d d' : Data ν} (h : ∀ k ∈ watched, d k = d' k)
    {p : Prog κ ν (Except StoreError (Data ν → Data ν))} {g : Data ν → Data ν}
    (hp : Computes watched d p g) : Computes watched d' p g := by
  induction p with
  | done r =>
    cases r with
    | error e => exact hp
    | ok f => exact hp
  | ask k next ih =>
    unfold Computes at hp ⊢
    split_ifs at hp ⊢ with hk
    · rw [← h k hk]
      exact ih _ hp
    · obtain ⟨v, hv⟩ := hp
      exact ⟨v, ih v hv⟩

/-- The pipeline is the one the call makes from this state. -/
def Call.Built (call : Call ν) (pipeline : Pipeline ν) (before : Option String × Data ν) : Prop :=
  match call with
  | .locked f => pipeline = .write f
  | .release => pipeline = .unlock
  | .safe tx => ∃ now f, Computes tx.watchKeys before.2 (tx.validation now) f ∧ pipeline = .write f

/-- The commit is what it should be: its worker had the lock, the pipeline was made from the state
it was applied to, and no key it watched had changed since the call looked. -/
structure Commit.Sound (c : Commit ν) : Prop where
  owned : c.before.1 = some c.worker
  whole : c.after = c.pipeline.run c.before
  built : c.call.Built c.pipeline c.before
  seen : ∀ d ∈ c.seen, ∀ k ∈ c.call.watchKeys, d k = c.before.2 k

/-! ## What a worker does -/

/-- All that an action of a worker does to Redis. -/
inductive Effect (n : String) (w : Server ν) : Server ν → Prop
  | quiet : Effect n w w
  | take (hnew : n ∉ w.acquired) : Effect n w (w.taken n)
  | commit (c : Commit ν) (hworker : c.worker = n) (hbefore : c.before = (w.lock, w.data))
      (hsound : c.Sound) (hacquired : n ∈ w.acquired)
      (hnew : ∀ d ∈ w.commits, d.worker = n → d.number ≠ c.number) : Effect n w (w.applied c)
  | ret (number : ℕ) (hdone : ∃ c ∈ w.commits, c.worker = n ∧ c.number = number) :
      Effect n w { w with returned := (n, number) :: w.returned }

structure Fenced (w : Server ν) : Prop where
  sound : ∀ c ∈ w.commits, c.Sound
  once : (w.commits.map fun c => (c.worker, c.number)).Nodup
  told : ∀ r ∈ w.returned, ∃ c ∈ w.commits, (c.worker, c.number) = r

/-- What the worker `n` may rely on: a watched key tells it of every change of the key, and nobody
else acts in its name. -/
structure Rely (n : String) (ts : List (Key κ)) (w w' : Server ν) : Prop where
  touches : w.Touches ts w'
  lock : w'.lock = some n → w.lock = some n
  acquired : n ∈ w'.acquired ↔ n ∈ w.acquired
  commits : ∀ c : Commit ν, c.worker = n → (c ∈ w'.commits ↔ c ∈ w.commits)

section Invariant

variable {n : String} {w w' : Server ν} {ts : List (Key κ)}

theorem Fenced.effect (h : Fenced w) (he : Effect n w w') : Fenced w' := by
  cases he with
  | quiet => exact h
  | take hnew => exact ⟨h.sound, h.once, h.told⟩
  | commit c hworker hbefore hsound hacquired hnew =>
    refine ⟨fun d hd => ?_, List.nodup_cons.mpr ⟨fun hmem => ?_, h.once⟩, fun r hr => ?_⟩
    · rcases List.mem_cons.mp hd with rfl | hd
      · exact hsound
      · exact h.sound d hd
    · obtain ⟨d, hd, heq⟩ := List.mem_map.mp hmem
      obtain ⟨hw, hn⟩ := Prod.mk.inj heq
      exact hnew d hd (hw.trans hworker) hn
    · obtain ⟨d, hd, heq⟩ := h.told r hr
      exact ⟨d, List.mem_cons_of_mem _ hd, heq⟩
  | ret number hdone =>
    refine ⟨h.sound, h.once, fun r hr => ?_⟩
    rcases List.mem_cons.mp hr with rfl | hr
    · obtain ⟨c, hc, rfl, rfl⟩ := hdone
      exact ⟨c, hc, rfl⟩
    · exact h.told r hr

omit [DecidableEq κ] in
theorem Outside.rely (h : Outside w ts w') (n : String) : Rely n ts w w' := by
  obtain ⟨data, rfl, ht⟩ := h
  exact ⟨ht, fun h => h, .rfl, fun _ _ => .rfl⟩

omit [DecidableEq κ] in
theorem run_lock (p : Pipeline ν) (x : Option String × Data ν) :
    (p.run x).1 = x.1 ∨ (p.run x).1 = none := by
  cases p with
  | write f => exact .inl rfl
  | unlock => exact .inr rfl

theorem Effect.rely {m : String} (h : Effect m w w') (hne : n ≠ m) (ht : w.Touches ts w') :
    Rely n ts w w' := by
  cases h with
  | quiet | ret => exact ⟨ht, fun h => h, .rfl, fun _ _ => .rfl⟩
  | take hnew =>
    refine ⟨ht, fun h => absurd (Option.some.inj h).symm hne, ?_, fun _ _ => .rfl⟩
    exact List.mem_cons.trans (or_iff_right hne)
  | commit c hworker hbefore hsound hacquired hnew =>
    refine ⟨ht, fun h => ?_, .rfl, fun d hd => ?_⟩
    · have howned := hsound.owned
      have hafter : c.after.1 = some n := h
      rw [hsound.whole] at hafter
      rcases run_lock c.pipeline c.before with hrun | hrun
      · rw [hafter, howned] at hrun
        exact absurd ((Option.some.inj hrun).trans hworker) hne
      · rw [hafter] at hrun
        cases hrun
    · refine List.mem_cons.trans (or_iff_right ?_)
      rintro rfl
      exact hne (hd.symm.trans hworker)

end Invariant

/-! ## What a call establishes -/

section Programs

open Clients

variable {place : Place} {worker : Worker ν} {α : Type} {n : String} {keys : List κ}
variable {Ψ Ψ' : Option String × Data ν → Prop} {x : Own ν × Server ν}

def Fresh (n : String) (w : Server ν) : Prop := n ∉ w.acquired ∧ ∀ c ∈ w.commits, c.worker ≠ n

/-- Between two calls: the worker has had the lock, and its commits are those of its calls. -/
structure Idle (n : String) (x : Own ν × Server ν) : Prop where
  acquired : n ∈ x.2.acquired
  past : ∀ c ∈ x.2.commits, c.worker = n → c.number ≤ x.1.calls

structure Inside (n : String) (x : Own ν × Server ν) : Prop where
  acquired : n ∈ x.2.acquired
  past : ∀ c ∈ x.2.commits, c.worker = n → c.number < x.1.calls

structure Committed (n : String) (x : Own ν × Server ν) : Prop extends Idle n x where
  done : ∃ c ∈ x.2.commits, c.worker = n ∧ c.number = x.1.calls

/-- In a call that watches the lock and the keys: as long as the connection is clean the keys are
as the call has found them and `Ψ` holds of the state. -/
structure Holding (n : String) (keys : List κ) (Ψ : Option String × Data ν → Prop)
    (x : Own ν × Server ν) : Prop extends Inside n x where
  watched : ∀ k ∈ .lock :: keys.map .data, k ∈ x.1.conn.watched
  clean : x.1.conn.dirty = false →
    (∀ d ∈ x.1.seen, ∀ k ∈ keys, d k = x.2.data k) ∧ Ψ (x.2.lock, x.2.data)

/-- The property is about the lock and the watched keys only. -/
def Local (keys : List κ) (Ψ : Option String × Data ν → Prop) : Prop :=
  ∀ y y', y'.1 = y.1 → (∀ k ∈ keys, y'.2 k = y.2 k) → Ψ y → Ψ y'

omit [DecidableEq κ] in
theorem Inside.idle (h : Inside n x) : Idle n x :=
  ⟨h.acquired, fun c hc hn => (h.past c hc hn).le⟩

omit [DecidableEq κ] in
theorem Holding.idle (h : Holding n keys Ψ x) : Idle n x := h.toInside.idle

omit [DecidableEq κ] in
theorem Holding.mono (h : Holding n keys Ψ x) (hΨ : ∀ y, Ψ y → Ψ' y) : Holding n keys Ψ' x :=
  ⟨h.toInside, h.watched, fun hclean => ⟨(h.clean hclean).1, hΨ _ (h.clean hclean).2⟩⟩

omit [DecidableEq κ] in
theorem Fresh.rely {w w' : Server ν} {ts : List (Key κ)} (h : Fresh n w) (hrely : Rely n ts w w') :
    Fresh n w' := by
  refine ⟨fun hn => h.1 (hrely.acquired.mp hn), fun c hc hn => ?_⟩
  exact h.2 c ((hrely.commits c hn).mp hc) hn

theorem stable_fresh : (workers ν place).Stable Rely n fun x => Fresh n x.2 :=
  fun _ _ _ _ hrely h => h.rely hrely

theorem stable_idle : (workers ν place).Stable Rely n (Idle n) := by
  intro l ts w w' hrely h
  exact ⟨hrely.acquired.mpr h.acquired, fun c hc hn => h.past c ((hrely.commits c hn).mp hc) hn⟩

theorem stable_inside : (workers ν place).Stable Rely n (Inside n) := by
  intro l ts w w' hrely h
  exact ⟨hrely.acquired.mpr h.acquired, fun c hc hn => h.past c ((hrely.commits c hn).mp hc) hn⟩

theorem stable_committed : (workers ν place).Stable Rely n (Committed n) := by
  intro l ts w w' hrely h
  obtain ⟨c, hc, hn, hnumber⟩ := h.done
  exact ⟨stable_idle l ts w w' hrely h.toIdle, c, (hrely.commits c hn).mpr hc, hn, hnumber⟩

theorem stable_holding (hΨ : Local keys Ψ) :
    (workers ν place).Stable Rely n (Holding n keys Ψ) := by
  intro l ts w w' hrely h
  refine ⟨stable_inside l ts w w' hrely h.toInside, h.watched, fun hclean => ?_⟩
  obtain ⟨hclean, hts⟩ := Conn.touch_clean.mp hclean
  obtain ⟨hseen, hstate⟩ := h.clean hclean
  have hlock : w'.lock = w.lock :=
    hrely.touches.1 (hts .lock (h.watched .lock List.mem_cons_self))
  have hdata : ∀ k ∈ keys, w'.data k = w.data k := by
    intro k hk
    refine hrely.touches.2 k (hts (.data k) (h.watched (.data k) ?_))
    exact List.mem_cons_of_mem _ (List.mem_map_of_mem hk)
  exact ⟨fun d hd k hk => (hseen d hd k hk).trans (hdata k hk).symm, hΨ _ _ hlock hdata hstate⟩

/-- A program of the worker in one of its calls; an error leaves the worker between calls. -/
abbrev Does (place : Place) (worker : Worker ν) (F : Own ν × Server ν → Prop) (x : Client ν α)
    (K : α → Own ν × Server ν → Prop) : Prop :=
  (workers ν place).Triple Rely worker (fun x y => Effect worker.id x.2 y.2) F x.run
    (Triple.Outcome K (Idle worker.id))

theorem watch_does (keys : List κ) : Does place worker (Inside worker.id) (watch keys) fun _ =>
    Holding worker.id keys fun _ => True := by
  refine Triple.query stable_inside ?_
  rintro ⟨l, w⟩ a t y hin (rfl | ⟨⟨e, rfl⟩, rfl⟩)
  · refine ⟨.quiet, ?_⟩
    cases a with
    | error e => exact ⟨hin.acquired, hin.idle.past⟩
    | ok =>
      refine ⟨⟨hin.acquired, hin.past⟩, fun k hk => ?_, fun _ => ⟨?_, trivial⟩⟩
      · exact List.mem_append_right _ hk
      · rintro d ⟨⟩
  · exact ⟨.quiet, hin.idle⟩

omit [DecidableEq κ] in
theorem Holding.found {l : Own ν} {w : Server ν} (h : Holding n keys Ψ (l, w))
    (hΨ : Ψ (w.lock, w.data) → Ψ' (w.lock, w.data)) :
    Holding n keys Ψ' ({ l with seen := w.data :: l.seen }, w) := by
  refine ⟨⟨h.acquired, h.past⟩, h.watched, fun hclean => ?_⟩
  obtain ⟨hseen, hstate⟩ := h.clean hclean
  refine ⟨fun d hd k hk => ?_, hΨ hstate⟩
  rcases List.mem_cons.mp hd with rfl | hd
  · rfl
  · exact hseen d hd k hk

theorem owner_does : Does place worker (Holding worker.id keys fun _ => True) owner fun o =>
    Holding worker.id keys fun y => y.1 = o := by
  refine Triple.query (stable_holding fun _ _ _ _ _ => trivial) ?_
  rintro ⟨l, w⟩ a t y h ⟨rfl | ⟨e, rfl⟩, rfl⟩
  · exact ⟨.quiet, h.found fun _ => rfl⟩
  · exact ⟨.quiet, ⟨h.acquired, h.idle.past⟩⟩

theorem get_does (hΨ : Local keys Ψ) (k : κ) : Does place worker (Holding worker.id keys Ψ) (get k)
    fun v => Holding worker.id keys fun y => Ψ y ∧ y.2 k = v := by
  refine Triple.query (stable_holding hΨ) ?_
  rintro ⟨l, w⟩ a t y h ⟨rfl | ⟨e, rfl⟩, rfl⟩
  · exact ⟨.quiet, h.found fun hstate => ⟨hstate, rfl⟩⟩
  · exact ⟨.quiet, ⟨h.acquired, h.idle.past⟩⟩

theorem clock_does (hΨ : Local keys Ψ) : Does place worker (Holding worker.id keys Ψ) clock
    fun _ => Holding worker.id keys Ψ := by
  refine Triple.ask (stable_holding hΨ) ?_
  rintro ⟨l, w⟩ a t y h rfl
  exact ⟨.quiet, h⟩

theorem unwatch_does : Does place worker (Idle worker.id) unwatch fun _ => Idle worker.id := by
  refine Triple.query stable_idle ?_
  rintro ⟨l, w⟩ a t y h (rfl | ⟨⟨e, rfl⟩, rfl⟩)
  · refine ⟨.quiet, ?_⟩
    cases a <;> exact ⟨h.acquired, h.past⟩
  · exact ⟨.quiet, h⟩

theorem exec_does {call : Call ν} {pipeline : Pipeline ν} (hkeys : call.watchKeys = keys)
    (hlocal : Local keys Ψ) (hΨ : ∀ y, Ψ y → y.1 = some worker.id ∧ call.Built pipeline y) :
    Does place worker (Holding worker.id keys Ψ) (exec call pipeline) fun applied x =>
      (applied.isSome → Committed worker.id x) ∧ (applied = none → Inside worker.id x) := by
  refine Triple.query (stable_holding hlocal) ?_
  rintro ⟨l, w⟩ a t y h (⟨⟨e, rfl⟩, rfl⟩ | ⟨_, ha, rfl⟩ | ⟨hclean, ha, c, hc, _, rfl⟩)
  · exact ⟨.quiet, h.idle⟩
  · refine ⟨.quiet, ?_⟩
    rcases ha with rfl | ⟨e, rfl⟩
    · exact ⟨by rintro ⟨⟩, fun _ => ⟨h.acquired, h.past⟩⟩
    · exact ⟨h.acquired, h.idle.past⟩
  · obtain ⟨hseen, hstate⟩ := h.clean hclean
    obtain ⟨howned, hbuilt⟩ := hΨ _ hstate
    subst hc hkeys
    have hidle : Idle worker.id (({ l with conn := {} } : Own ν), w.applied
        ⟨worker.id, l.calls, call, pipeline, l.seen, (w.lock, w.data),
          pipeline.run (w.lock, w.data)⟩) := by
      refine ⟨h.acquired, fun d hd hn => ?_⟩
      rcases List.mem_cons.mp hd with rfl | hd
      · exact le_rfl
      · exact (h.past d hd hn).le
    refine ⟨.commit _ rfl rfl ⟨howned, rfl, hbuilt, hseen⟩ h.acquired fun d hd hn =>
      (h.past d hd hn).ne, ?_⟩
    rcases ha with rfl | ⟨e, rfl⟩
    · exact ⟨fun _ => ⟨hidle, _, List.mem_cons_self, rfl, rfl⟩, by rintro ⟨⟩⟩
    · exact hidle

theorem whileOwned_does {next : Client ν Unit} {K : Unit → Own ν × Server ν → Prop}
    (hnext : Does place worker (Inside worker.id) next K) :
    Does place worker (Inside worker.id) (whileOwned worker.id next) K := by
  refine Triple.seq (M := fun _ => Inside worker.id) (Triple.query stable_inside ?_) fun o => ?_
  · rintro ⟨l, w⟩ a t y h ⟨ha, rfl⟩
    refine ⟨.quiet, ?_⟩
    rcases ha with rfl | ⟨e, rfl⟩
    · exact ⟨h.acquired, h.past⟩
    · exact ⟨h.acquired, h.idle.past⟩
  · split_ifs
    · exact hnext
    · exact Triple.fail fun _ h => h.idle

theorem withLockCheck_does {call : Call ν} {pipeline : Pipeline ν} (hkeys : call.watchKeys = [])
    (hbuilt : ∀ y, call.Built pipeline y) (tries : ℕ) :
    Does place worker (Inside worker.id) (withLockCheck place worker.id call pipeline tries)
      fun _ => Committed worker.id := by
  induction tries with
  | zero => exact Triple.fail fun _ h => h.idle
  | succ tries ih =>
    refine Triple.seq (watch_does []) fun _ => Triple.seq owner_does fun o => ?_
    split_ifs with ho
    · subst ho
      refine Triple.seq (exec_does hkeys ?_ fun y hy => ⟨hy, hbuilt y⟩) fun applied => ?_
      · intro y y' hlock _ hy
        exact hlock.trans hy
      cases applied with
      | none => exact (whileOwned_does ih).weaken (fun _ h => h.2 rfl) fun _ _ h => h
      | some u => exact Triple.ret fun _ h => h.1 rfl
    · refine Triple.seq (unwatch_does.weaken (fun _ h => h.idle) fun _ _ h => h) fun _ => ?_
      exact Triple.fail fun _ h => h

/-- What the worker knows in a validation `p₀` of which `p` is left. -/
def Validating (n : String) (keys : List κ) (p₀ p : Prog κ ν (Except StoreError (Data ν → Data ν)))
    (y : Option String × Data ν) : Prop :=
  y.1 = some n ∧ ∀ g, Computes keys y.2 p g → Computes keys y.2 p₀ g

theorem local_validating (p₀ p : Prog κ ν (Except StoreError (Data ν → Data ν))) :
    Local keys (Validating n keys p₀ p) := by
  rintro y y' hlock hdata ⟨hy, hp⟩
  refine ⟨hlock.trans hy, fun g hg => ?_⟩
  exact computes_congr (fun k hk => (hdata k hk).symm) (hp g (computes_congr hdata hg))

theorem validate_does (p₀ p : Prog κ ν (Except StoreError (Data ν → Data ν))) :
    Does place worker (Holding worker.id keys (Validating worker.id keys p₀ p)) (validate p)
      fun f => Holding worker.id keys fun y => y.1 = some worker.id ∧ Computes keys y.2 p₀ f := by
  induction p with
  | done r =>
    cases r with
    | error e => exact Triple.fail fun _ h => h.idle
    | ok f => exact Triple.ret fun _ h => h.mono fun y hy => ⟨hy.1, hy.2 f rfl⟩
  | ask k next ih =>
    refine Triple.seq (get_does (local_validating p₀ _) k) fun v => ?_
    refine (ih v).weaken (fun _ h => h.mono fun y hy => ⟨hy.1.1, fun g hg => hy.1.2 g ?_⟩)
      fun _ _ h => h
    unfold Computes
    split_ifs with hk
    · rw [hy.2]
      exact hg
    · exact ⟨v, hg⟩

theorem attempt_does {F : Own ν × Server ν → Prop} {x : Client ν α}
    {K : α → Own ν × Server ν → Prop} (hx : Does place worker F x K) :
    Does place worker F (attempt x) (Triple.Outcome K (Idle worker.id)) :=
  Triple.bind hx fun _ => Triple.done fun _ h => h

theorem executeWithWatchAndRetry_does (tx : SafeTransaction ν) (tries : ℕ) :
    Does place worker (Inside worker.id) (executeWithWatchAndRetry place worker.id tx tries)
      fun _ => Committed worker.id := by
  induction tries with
  | zero => exact Triple.fail fun _ h => h.idle
  | succ tries ih =>
    refine Triple.seq (watch_does tx.watchKeys) fun _ => Triple.seq owner_does fun o => ?_
    split_ifs with ho
    · subst ho
      refine Triple.seq (clock_does ?_) fun now => ?_
      · intro y y' hlock _ hy
        exact hlock.trans hy
      refine Triple.seq (attempt_does ((validate_does (tx.validation now) (tx.validation now)).weaken
        (fun _ h => h.mono fun y hy => ⟨hy, fun _ hg => hg⟩) fun _ _ h => h)) fun r => ?_
      cases r with
      | error e =>
        refine Triple.seq (unwatch_does.weaken (fun _ h => h) fun _ _ h => h) fun _ => ?_
        exact Triple.fail fun _ h => h
      | ok f =>
        have hkeys : (Call.safe tx).watchKeys = tx.watchKeys := rfl
        refine Triple.seq (exec_does hkeys ?_ fun y hy => ?_) fun applied => ?_
        · rintro y y' hlock hdata ⟨hy, hf⟩
          exact ⟨hlock.trans hy, computes_congr (fun k hk => (hdata k hk).symm) hf⟩
        · exact ⟨hy.1, now, f, hy.2, rfl⟩
        · cases applied with
          | none => exact (whileOwned_does ih).weaken (fun _ h => h.2 rfl) fun _ _ h => h
          | some u => exact Triple.ret fun _ h => h.1 rfl
    · refine Triple.seq (unwatch_does.weaken (fun _ h => h.idle) fun _ _ h => h) fun _ => ?_
      exact Triple.fail fun _ h => h

theorem body_does (call : Call ν) : Does place worker (Inside worker.id)
    (call.body place worker.id) fun _ => Committed worker.id := by
  cases call with
  | locked f =>
    have hbuilt : ∀ y, (Call.locked f).Built (.write f) y := fun _ => rfl
    exact withLockCheck_does rfl hbuilt maxRetries
  | safe tx => exact executeWithWatchAndRetry_does tx maxRetries
  | release =>
    have hbuilt : ∀ y, (Call.release : Call ν).Built .unlock y := fun _ => rfl
    exact withLockCheck_does rfl hbuilt maxRetries

theorem guarded_does (call : Call ν) :
    (workers ν place).Triple Rely worker (fun x y => Effect worker.id x.2 y.2) (Idle worker.id)
      (call.guarded place worker.id) fun _ => Idle worker.id := by
  refine Triple.bind (M := fun _ => Inside worker.id) (Triple.query stable_idle ?_) fun _ =>
    Triple.bind (body_does call) fun r => ?_
  · rintro ⟨l, w⟩ a t y h rfl
    exact ⟨.quiet, h.acquired, fun c hc hn => Nat.lt_succ_of_le (h.past c hc hn)⟩
  · refine Triple.bind (M := fun _ => Idle worker.id) ?_ fun _ => Triple.done fun _ h => h
    cases r with
    | error e =>
      refine Triple.query stable_idle ?_
      rintro ⟨l, w⟩ a t y h rfl
      exact ⟨.quiet, h⟩
    | ok u =>
      refine Triple.query stable_committed ?_
      rintro ⟨l, w⟩ a t y h rfl
      exact ⟨.ret l.calls h.done, h.acquired, h.past⟩

theorem session_does (p : Prog (Call ν) (fun _ => Except StoreError Unit) Unit) :
    (workers ν place).Triple Rely worker (fun x y => Effect worker.id x.2 y.2) (Idle worker.id)
      (session place worker.id p) fun _ => Idle worker.id := by
  induction p with
  | done u => exact Triple.done fun _ h => h
  | ask call next ih => exact Triple.bind (guarded_does call) ih

omit [DecidableEq κ] in
theorem idle_taken {l : Own ν} {w : Server ν} (h : Fresh n w) : Idle n (l, w.taken n) :=
  ⟨List.mem_cons_self, fun c hc hn => absurd hn (h.2 c hc)⟩

theorem acquire_does :
    (workers ν place).Triple Rely worker (fun x y => Effect worker.id x.2 y.2)
      (fun x => Fresh worker.id x.2) (acquireEoaLockAggressively : Client ν Unit).run
      (Triple.Outcome (fun _ => Idle worker.id) fun _ => True) := by
  refine Triple.seq (M := fun _ x => Fresh worker.id x.2) (Triple.query stable_fresh ?_) fun _ => ?_
  · rintro ⟨l, w⟩ a t y h rfl
    refine ⟨.quiet, ?_⟩
    cases a with
    | error e => trivial
    | ok => exact h
  refine Triple.seq (M := fun b x => if b then Idle worker.id x else Fresh worker.id x.2)
    (Triple.query stable_fresh ?_) fun b => ?_
  · rintro ⟨l, w⟩ a t y h (⟨⟨e, rfl⟩, rfl⟩ | ⟨_, rfl, rfl⟩ | ⟨_, ha, _, rfl⟩)
    · exact ⟨.quiet, trivial⟩
    · exact ⟨.quiet, h⟩
    · refine ⟨.take h.1, ?_⟩
      rcases ha with rfl | ⟨e, rfl⟩
      · exact idle_taken h
      · trivial
  cases b with
  | true => exact Triple.ret fun _ h => h
  | false =>
    refine Triple.seq (M := fun _ x => Fresh worker.id x.2) (Triple.query stable_fresh ?_) fun _ =>
      Triple.query stable_fresh ?_
    · rintro ⟨l, w⟩ a t y h ⟨ha, rfl⟩
      refine ⟨.quiet, ?_⟩
      cases a with
      | error e => trivial
      | ok => exact h
    · rintro ⟨l, w⟩ a t y h (⟨⟨e, rfl⟩, rfl⟩ | ⟨_, rfl⟩)
      · exact ⟨.quiet, trivial⟩
      · refine ⟨.take h.1, ?_⟩
        cases a with
        | error e => trivial
        | ok => exact idle_taken h

/-- **Every action of a worker is one of the effects.** -/
theorem worker_does :
    (workers ν place).Triple Rely worker (fun x y => Effect worker.id x.2 y.2)
      (fun x => Fresh worker.id x.2) (worker.body place).run fun _ _ => True := by
  refine Triple.weaken (Triple.seq (K := fun _ _ => True) acquire_does fun _ => ?_) (fun _ h => h)
    fun _ _ _ => trivial
  exact Triple.bind (session_does worker.session) fun _ => Triple.done fun _ _ => trivial

end Programs

/-! ## Every run -/

section Runs

variable {place : Place} {w : Server ν}

omit [DecidableEq κ] in
theorem act_touches {worker : Worker ν} {q : Ask ν} {x y : Own ν × Server ν} {a : Answer q}
    {ts : List (Key κ)} (h : act worker q x a ts y) : x.2.Touches ts y.2 := by
  have hsame : ∀ w w' : Server ν, w'.lock = w.lock → w'.data = w.data → w.Touches ts w' :=
    fun w w' hl hd => ⟨fun _ => hl, fun k _ => congrFun hd k⟩
  have htaken : ∀ (w : Server ν) (id : String), .lock ∈ ts → w.Touches ts (w.taken id) :=
    fun w id ht => ⟨fun hn => absurd ht hn, fun k _ => rfl⟩
  cases q with
  | connect | lockGuard | clock => cases h; exact hsame _ _ rfl rfl
  | setNx =>
    rcases h with ⟨_, rfl⟩ | ⟨_, _, rfl⟩ | ⟨_, _, ht, rfl⟩
    · exact hsame _ _ rfl rfl
    · exact hsame _ _ rfl rfl
    · exact htaken _ _ ht
  | setLock =>
    rcases h with ⟨_, rfl⟩ | ⟨ht, rfl⟩
    · exact hsame _ _ rfl rfl
    · exact htaken _ _ ht
  | dropGuard ok => cases h; cases ok <;> exact hsame _ _ rfl rfl
  | watch | unwatch => rcases h with rfl | ⟨_, rfl⟩ <;> exact hsame _ _ rfl rfl
  | owner | get k => obtain ⟨_, rfl⟩ := h; exact hsame _ _ rfl rfl
  | exec call pipeline =>
    rcases h with ⟨_, rfl⟩ | ⟨_, _, rfl⟩ | ⟨_, _, c, _, ht, rfl⟩
    · exact hsame _ _ rfl rfl
    · exact hsame _ _ rfl rfl
    · exact ht

theorem workers_sound : (workers ν place).Sound Fenced Rely
    (fun worker x y => Effect worker.id x.2 y.2) Fresh where
  fresh _ _ _ _ hrely h := h.rely hrely
  outside w ts w' hw hout := by
    refine ⟨?_, hout.rely⟩
    obtain ⟨data, rfl, _⟩ := hout
    exact ⟨hw.sound, hw.once, hw.told⟩
  act _ _ _ _ _ _ hw hact he := ⟨hw.effect he, fun _ hne => he.rely hne (act_touches hact)⟩
  body _ w _ hfresh := worker_does [] ({}, w) hfresh

/-- A start: nobody has had the lock yet, except perhaps a worker that is gone. -/
structure Server.Initial (w : Server ν) : Prop where
  commits : w.commits = []
  acquired : w.acquired = []
  returned : w.returned = []

theorem Server.Initial.fenced (h : w.Initial) : Fenced w := by
  refine ⟨?_, ?_, ?_⟩
  · rw [h.commits]
    rintro c ⟨⟩
  · rw [h.commits]
    exact List.nodup_nil
  · rw [h.returned]
    rintro r ⟨⟩

omit [DecidableEq κ] in
theorem Server.Initial.fresh (h : w.Initial) (n : String) : Fresh n w := by
  refine ⟨?_, ?_⟩
  · rw [h.acquired]
    exact List.not_mem_nil
  · rw [h.commits]
    rintro c ⟨⟩

theorem Commit.Sound.release {c : Commit ν} (h : c.Sound) (hlock : c.after.1 ≠ c.before.1) :
    c.call = .release := by
  have hwrite : ∀ f, c.pipeline ≠ .write f := by
    intro f hf
    refine hlock ?_
    rw [h.whole, hf]
    rfl
  have hbuilt := h.built
  cases hcall : c.call with
  | locked f =>
    rw [hcall] at hbuilt
    exact absurd hbuilt (hwrite f)
  | safe tx =>
    rw [hcall] at hbuilt
    obtain ⟨now, f, _, hf⟩ := hbuilt
    exact absurd hf (hwrite f)
  | release => rfl

/-- The worker has had the lock, does not have it any more, and its commits are among these. -/
structure Lost (n : String) (commits : List (Commit ν)) (w : Server ν) : Prop where
  acquired : n ∈ w.acquired
  lock : w.lock ≠ some n
  commits : ∀ c ∈ w.commits, c.worker = n → c ∈ commits

theorem Lost.effect {n m : String} {commits : List (Commit ν)} {w' : Server ν}
    (h : Lost n commits w) (he : Effect m w w') : Lost n commits w' := by
  cases he with
  | quiet => exact h
  | take hnew =>
    refine ⟨List.mem_cons_of_mem _ h.acquired, fun heq => ?_, h.commits⟩
    obtain rfl : m = n := Option.some.inj heq
    exact hnew h.acquired
  | commit c hworker hbefore hsound hacquired hnew =>
    have howned : w.lock = some m := by
      rw [← hworker, ← hsound.owned, hbefore]
    refine ⟨h.acquired, fun heq => ?_, fun d hd hn => ?_⟩
    · have hafter : c.after.1 = some n := heq
      rw [hsound.whole, hbefore] at hafter
      rcases run_lock c.pipeline (w.lock, w.data) with hrun | hrun
      · exact h.lock (hrun.symm.trans hafter)
      · rw [hafter] at hrun
        cases hrun
    · rcases List.mem_cons.mp hd with rfl | hd
      · rw [hworker] at hn
        exact absurd (hn ▸ howned) h.lock
      · exact h.commits d hd hn
  | ret number hdone => exact ⟨h.acquired, h.lock, h.commits⟩

/-- **The owner fence.** In every run of any number of workers that take the lock from one another,
with failing connections and writes from outside:

* every commit was made while the lock named its worker, by the pipeline its call builds from the
  state it was applied to, and no key it watched had changed since the call had found it;
* a call commits at most once, and has committed if it returned `Ok`;
* the only commits that change the lock are releases;
* whatever a worker does next is to take the lock for the first time, such a commit, or nothing;
* a worker that has lost the lock commits no more. -/
theorem owner_fencing (hw : w.Initial)
    {s : Clients.State (Ask ν) Answer (Server ν) (Own ν) (Worker ν) String
      fun _ => Except StoreError Unit}
    (hs : (workers ν place).Steps (.initial w) s) :
    (∀ c ∈ s.world.commits, c.before.1 = some c.worker ∧ c.after = c.pipeline.run c.before ∧
      c.call.Built c.pipeline c.before ∧
      ∀ d ∈ c.seen, ∀ k ∈ c.call.watchKeys, d k = c.before.2 k) ∧
    (s.world.commits.map fun c => (c.worker, c.number)).Nodup ∧
    (∀ r ∈ s.world.returned, ∃ c ∈ s.world.commits, (c.worker, c.number) = r) ∧
    (∀ c ∈ s.world.commits, c.after.1 ≠ c.before.1 →
      c.call = .release ∧ c.before.1 = some c.worker) ∧
    (∀ x ∈ s.strands, ∀ q k, x.rest = .ask q k → ∀ a ts y, act x.job q (x.own, s.world) a ts y →
      Effect x.job.id s.world y.2) ∧
    ∀ n ∈ s.world.acquired, s.world.lock ≠ some n → ∀ s', (workers ν place).Steps s s' →
      ∀ c ∈ s'.world.commits, c.worker = n → c ∈ s.world.commits := by
  have h := workers_sound.initial hw.fenced hw.fresh hs
  refine ⟨fun c hc => ?_, h.world.once, h.world.told, fun c hc hlock => ?_, ?_, ?_⟩
  · have hc := h.world.sound c hc
    exact ⟨hc.owned, hc.whole, hc.built, hc.seen⟩
  · have hc := h.world.sound c hc
    exact ⟨hc.release hlock, hc.owned⟩
  · intro x hx q k hrest a ts y hact
    exact h.guarantee hx hrest hact
  · intro n hacquired hlock s' hs'
    have hlost : Lost n s.world.commits s'.world := by
      refine workers_sound.keeps ?_ (fun _ _ _ _ he hP => hP.effect he) h hs'
        ⟨hacquired, hlock, fun c hc _ => hc⟩
      rintro w' ts _ _ ⟨data, rfl, _⟩ hP
      exact ⟨hP.acquired, hP.lock, hP.commits⟩
    exact hlost.commits

end Runs

namespace Sample

abbrev Count : Unit → Type := fun _ => ℕ

/-- Read the number and write its successor. -/
def increment : SafeTransaction Count where
  name := "increment"
  watchKeys := [()]
  validation _ := .ask () fun v => .done (.ok fun _ _ => v + 1)

def place : Place := ⟨"0x1", 1⟩

def worker : Worker Count :=
  ⟨"w", .ask (.safe increment) fun _ => .ask .release fun _ => .done ()⟩

/-- Answers for a worker that is alone with Redis. -/
def alone : (q : Ask Count) → Own Count × Server Count → Answer q × (Own Count × Server Count)
  | .connect, (l, w) => (.ok (), { l with conn := {} }, w)
  | .setNx, (l, w) => if w.lock = none then (.ok true, l, w.taken "w") else (.ok false, l, w)
  | .setLock, (l, w) => (.ok (), l, w.taken "w")
  | .lockGuard, (l, w) => ((), { l with calls := l.calls + 1, seen := [] }, w)
  | .dropGuard ok, (l, w) =>
    ((), l, if ok then { w with returned := ("w", l.calls) :: w.returned } else w)
  | .watch keys, (l, w) =>
    (.ok (), { l with conn := l.conn.watch (.lock :: keys.map .data), seen := [] }, w)
  | .owner, (l, w) => (.ok w.lock, { l with seen := w.data :: l.seen }, w)
  | .get k, (l, w) => (.ok (w.data k), { l with seen := w.data :: l.seen }, w)
  | .clock, x => (0, x)
  | .unwatch, (l, w) => (.ok (), { l with conn := {} }, w)
  | .exec call pipeline, (l, w) =>
    if l.conn.dirty then (.ok none, { l with conn := {} }, w)
    else (.ok (some ()), { l with conn := {} }, w.applied ⟨"w", l.calls, call, pipeline, l.seen,
      (w.lock, w.data), pipeline.run (w.lock, w.data)⟩)

theorem touches_all (w w' : Server Count) : w.Touches [.lock, .data ()] w' :=
  ⟨fun h => absurd List.mem_cons_self h,
    fun _ h => absurd (List.mem_cons_of_mem _ List.mem_cons_self) h⟩

theorem alone_act (q : Ask Count) (x : Own Count × Server Count) :
    ∃ ts, act worker q x (alone q x).1 ts (alone q x).2 := by
  obtain ⟨l, w⟩ := x
  cases q with
  | connect | lockGuard | dropGuard | clock => exact ⟨[], rfl⟩
  | setNx =>
    by_cases hlock : w.lock = none
    · refine ⟨[.lock], .inr (.inr ⟨hlock, .inl ?_, List.mem_cons_self, ?_⟩)⟩
      · simp [alone, hlock]
      · simp [alone, hlock, worker]
    · refine ⟨[], .inr (.inl ⟨hlock, ?_, ?_⟩)⟩
      · simp [alone, hlock]
      · simp [alone, hlock]
  | setLock => exact ⟨[.lock], .inr ⟨List.mem_cons_self, rfl⟩⟩
  | watch | unwatch => exact ⟨[], .inl rfl⟩
  | owner | get k => exact ⟨[], .inl rfl, rfl⟩
  | exec call pipeline =>
    cases hdirty : l.conn.dirty with
    | true => exact ⟨[], .inr (.inl ⟨hdirty, by simp [alone, hdirty]⟩)⟩
    | false =>
      refine ⟨[.lock, .data ()], .inr (.inr ⟨hdirty, ?_, _, rfl, touches_all _ _, ?_⟩)⟩
      · simp [alone, hdirty]
      · simp [alone, hdirty, worker]

def start : Server Count := { lock := some "gone", data := fun _ => 7 }

def finished : Server Count := ((worker.body place).run.exec alone ({}, start)).2.2

set_option maxRecDepth 4000 in
theorem finished_twice : finished.lock = none ∧ finished.data () = 8 ∧
    finished.commits.map (fun c => (c.worker, c.number)) = [("w", 2), ("w", 1)] := by decide +kernel

end Sample

theorem owner_fencing_finished : Sample.finished.lock = none ∧ Sample.finished.data () = 8 ∧
    Sample.finished.commits.map (fun c => (c.worker, c.number)) = [("w", 2), ("w", 1)] ∧
    ∀ c ∈ Sample.finished.commits, c.before.1 = some c.worker := by
  obtain ⟨log, hrun⟩ := Clients.Answers.exec (S := workers Sample.Count Sample.place)
    (j := Sample.worker) (.of_act Sample.alone_act) (Sample.worker.body Sample.place).run Sample.start {} []
    ["w"] trivial
  have hstart := Clients.Step.start (S := workers Sample.Count Sample.place)
    (s := .initial Sample.start) Sample.worker (by rintro ⟨⟩)
  have hfence := owner_fencing ⟨rfl, rfl, rfl⟩ (.head hstart hrun)
  have hend := Sample.finished_twice
  exact ⟨hend.1, hend.2.1, hend.2.2, fun c hc => (hfence.1 c hc).1⟩

end EngineCore.Eoa.Owner
