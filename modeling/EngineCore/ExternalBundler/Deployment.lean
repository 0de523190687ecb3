import EngineCore.Lib.Clients
import Mathlib.Order.Nat

/-!
# Deploying an account once

A send job for an account that is not on chain takes a lock in Redis before it builds an operation
with init code. The lock expires, and may be reclaimed when it looks abandoned; the confirmation
gives it up and notes in the cache that the account exists (**`deployment_fenced`**).
-/

namespace EngineCore.ExternalBundler.Deployment

open Interact

abbrev LockId := String

structure LockData where
  lockId : LockId
  acquiredAt : ℕ

/-- What Redis did for a job, and when. -/
inductive Event
  | acquired (data : LockData) (job time : ℕ)
  | released (data : LockData) (job time : ℕ)

/-- The clock, in seconds, the keys of an account with their expiry, and what has happened. -/
structure Store where
  now : ℕ := 0
  lock : Option (LockData × ℕ) := none
  cache : Option (Bool × ℕ) := none
  events : List Event := []

namespace Store

/-- `SET NX EX`, with `LOCK_TTL_SECONDS`, where there is no lock. -/
def acquire (s : Store) (job : ℕ) (data : LockData) : Store :=
  { s with lock := some (data, s.now + 300), events := .acquired data job s.now :: s.events }

/-- `RELEASE_OWNED_LOCK`, which is also the script of `release_lock_if_owner`. -/
def release (s : Store) (job : ℕ) (id : LockId) (isDeployed : Option Bool) : Store :=
  s.lock.elim s fun l =>
    if l.1.lockId = id then
      { s with
        lock := none
        cache := isDeployed.elim s.cache fun b => some (b, s.now + 3600)
        events := .released l.1 job s.now :: s.events }
    else s

def wait (s : Store) (d : ℕ) : Store :=
  { s with
    now := s.now + d
    lock := s.lock.filter fun l => s.now + d < l.2
    cache := s.cache.filter fun c => s.now + d < c.2 }

end Store

/-! ## The program -/

/-- The last asks how a job with the lock ends: with a verified success, or giving the lock up. -/
inductive Query
  | cache
  | lock
  | clock
  | chain
  | setNx (acquiredAt : ℕ)
  | release (id : LockId) (isDeployed : Option Bool)
  | confirmed

@[reducible] def Reply : Query → Type
  | .cache => Option Bool
  | .lock => Option LockData
  | .clock => ℕ
  | .setNx _ => Option LockId
  | .chain | .release .. | .confirmed => Bool

@[reducible] def Answer (q : Query) : Type := Except String (Reply q)

abbrev Flow (α : Type) : Type := Task Query Answer String α

def ask (q : Query) : Flow (Reply q) := ExceptT.mk (Prog.query q)

def attempt (q : Query) : Flow (Option (Reply q)) := return (← Task.query q).toOption

inductive DeploymentStatus
  | deployed
  | beingDeployed (lockId : LockId)
  | notDeployed

def isDeployed : Flow (Option Bool) := return (← attempt .cache).join

/-- Token and age of the lock. -/
def checkLock : Flow (Option (LockId × ℕ)) := do
  (← attempt .lock).join.elim (return none) fun data => do
    return (← attempt .clock).map fun now => (data.lockId, now - data.acquiredAt)

/-- A new token, or none where the lock is taken. -/
def acquireLock : Flow (Option LockId) := do ask (.setNx (← ask .clock))

def checkLocked (threshold : ℕ) : Flow DeploymentStatus := do
  (← checkLock).elim
    (do if ← ask .chain then return .deployed else return .notDeployed)
    fun lock =>
      if threshold < lock.2 then do
        if ← ask .chain then return .deployed
        else
          let _ ← ask (.release lock.1 none)
          return .notDeployed
      else return .beingDeployed lock.1

def checkDeploymentStatus (threshold : ℕ) : Flow DeploymentStatus := do
  if (← isDeployed) = some true then return .deployed else checkLocked threshold

/-- The rest of a send, up to its confirmation. -/
def proceed : DeploymentStatus → Flow Unit
  | .deployed => return ()
  | .beingDeployed _ => throw "DeploymentLocked"
  | .notDeployed => do
    (← acquireLock).elim (throw "DeploymentLocked") fun id => do
      if ← ask .confirmed then discard (ask (.release id (some true)))
      else discard (ask (.release id none))

/-- A send job, as far as it touches the account. -/
def job : Flow Unit := do proceed (← checkDeploymentStatus 60)

/-! ## Jobs side by side -/

/-- One query of a job. Workers read the clock of Redis; a command that fails may have been
executed. -/
inductive Act (job : ℕ) (s : Store) : (q : Query) → Answer q → Store → Prop
  | cache : Act job s .cache (.ok (s.cache.map Prod.fst)) s
  | lock : Act job s .lock (.ok (s.lock.map Prod.fst)) s
  | clock : Act job s .clock (.ok s.now) s
  | chain (b : Bool) : Act job s .chain (.ok b) s
  | acquired {t : ℕ} (id : LockId) (hfree : s.lock = none)
      (hnew : ∀ d j u, .acquired d j u ∈ s.events → d.lockId ≠ id) :
      Act job s (.setNx t) (.ok (some id)) (s.acquire job ⟨id, t⟩)
  | taken {t : ℕ} (h : s.lock ≠ none) : Act job s (.setNx t) (.ok none) s
  | release {id : LockId} {b : Option Bool} :
      Act job s (.release id b) (.ok (s.lock.any (·.1.lockId = id))) (s.release job id b)
  | confirmed (b : Bool) : Act job s .confirmed (.ok b) s
  | unheard {q : Query} {s' : Store} {a : Answer q} (e : String) (h : Act job s q a s') :
      Act job s q (.error e) s'
  | unsent {q : Query} (e : String) : Act job s q (.error e) s

def jobs : Clients Query Answer Store Unit Unit ℕ ℕ fun _ => Except String Unit where
  name := id
  init _ := ()
  body _ := job.run
  act j q x a _ y := Act j x.2 q a y.2
  hear _ _ := ()
  outside s _ s' := ∃ d, s' = s.wait d

/-! ## The history of the lock -/

/-- The lock was taken less than five minutes ago, and the cache was written by the job that had the
lock, in the last hour. Who has taken the lock still has it, has given it up, or has stamped it more
than a minute ago. -/
structure Fenced (s : Store) : Prop where
  lock : ∀ l, s.lock = some l → s.now < l.2 ∧ ∃ j t, .acquired l.1 j t ∈ s.events ∧ l.2 = t + 300
  cache : ∀ c, s.cache = some c → c.1 = true ∧ s.now < c.2 ∧
    ∃ d j t u, .acquired d j t ∈ s.events ∧ .released d j u ∈ s.events ∧ t ≤ u ∧ u < t + 300 ∧
      c.2 = u + 3600
  acquired : ∀ d j t, .acquired d j t ∈ s.events → d.acquiredAt ≤ t ∧ t ≤ s.now ∧
    (s.lock = some (d, t + 300) ∨ d.acquiredAt + 60 < s.now ∨ ∃ u, .released d j u ∈ s.events)
  token : ∀ d j t d' j' t', .acquired d j t ∈ s.events → .acquired d' j' t' ∈ s.events →
    d.lockId = d'.lockId → d = d' ∧ j = j'

/-- What the program ensures before a query. -/
def Allowed (s : Store) (job : ℕ) : Query → Prop
  | .setNx t => t ≤ s.now
  | .release id b => ∃ d j t, .acquired d j t ∈ s.events ∧ d.lockId = id ∧
      (j = job ∧ b ≠ some false ∨ b = none ∧ d.acquiredAt + 60 < s.now)
  | _ => True

namespace Fenced

variable {s : Store} (h : Fenced s)

include h

theorem wait (d : ℕ) : Fenced (s.wait d) := by
  cases h
  constructor <;> grind [Store.wait, Option.filter_eq_some_iff]

theorem acquire {job t : ℕ} {id : LockId} (hfree : s.lock = none) (ht : t ≤ s.now)
    (hnew : ∀ d j u, .acquired d j u ∈ s.events → d.lockId ≠ id) :
    Fenced (s.acquire job ⟨id, t⟩) := by
  cases h
  constructor <;> grind [Store.acquire]

/-- The token tells who took the lock. -/
theorem release {job : ℕ} {id : LockId} {b : Option Bool} (hq : Allowed s job (.release id b)) :
    Fenced (s.release job id b) := by
  unfold Store.release
  cases hlock : s.lock with
  | none => exact h
  | some l =>
    rw [Option.elim_some]
    split_ifs with hid
    swap
    · exact h
    obtain ⟨hlive, i, t, htook, he⟩ := h.lock l hlock
    obtain ⟨d, j, u, hd, hdid, hwhy⟩ := hq
    obtain ⟨rfl, rfl⟩ := h.token _ _ _ _ _ _ hd htook (hdid.trans hid.symm)
    obtain ⟨_, hcache, hacquired, htoken⟩ := h
    refine ⟨by grind, fun c hc => ?_, by grind, by grind⟩
    cases b with
    | none => grind
    | some v =>
      cases hc
      obtain ⟨rfl, hv⟩ := hwhy.resolve_right (by simp)
      exact ⟨by simpa using hv, by simp, _, j, t, s.now, .tail _ htook, .head _,
        (hacquired _ _ _ htook).2.1, he ▸ hlive, rfl⟩

end Fenced

/-! ## What a job keeps -/

structure Later (s s' : Store) : Prop where
  now : s.now ≤ s'.now
  events : s.events ⊆ s'.events
  fenced : Fenced s → Fenced s'

theorem Later.rfl {s : Store} : Later s s := ⟨le_rfl, fun _ => id, id⟩

theorem Later.trans {s s' t : Store} (h : Later s s') (h' : Later s' t) : Later s t :=
  ⟨h.now.trans h'.now, fun _ he => h'.events (h.events he), h'.fenced ∘ h.fenced⟩

theorem Act.later {job : ℕ} {q : Query} {s s' : Store} {a : Answer q} (h : Act job s q a s')
    (hq : Allowed s job q) : Later s s' := by
  induction h with
  | acquired id hfree hnew =>
    exact ⟨le_rfl, List.subset_cons_self _ _, fun h => h.acquire hfree hq hnew⟩
  | release =>
    refine ⟨?_, ?_, fun h => h.release hq⟩ <;> cases hlock : s.lock <;> grind [Store.release]
  | unheard _ _ ih => exact ih hq
  | _ => exact .rfl

/-- From a fenced store, every query is allowed. -/
def Safe {α : Type} (j : ℕ) (p : Prog Query Answer α) (s : Store) : Prop :=
  Fenced s → ∀ l, Sat ((jobs.machine fun _ _ => Later) j) (fun x y => Later x.2 y.2)
    (fun _ _ _ => True) p l ((), s)

section Program

variable {j : ℕ} {s₀ : Store}

theorem Safe.done {α : Type} {a : α} : Safe j (.done a) s₀ := fun _ _ => trivial

theorem Safe.ask {α : Type} {q : Query} {k : Answer q → Prog Query Answer α}
    (hk : ∀ a s s', Fenced s → Act j s q a s' → Later s₀ s' → Safe j (k a) s')
    (hq : ∀ s, Later s₀ s → Allowed s j q := by exact fun _ _ => trivial) :
    Safe j (.ask q k) s₀ := by
  rintro hs l ⟨⟨⟩, s⟩ henv a ⟨⟨⟩, s'⟩ ⟨_, hact⟩
  have henv : jobs.Env (fun _ _ => Later) j ((), s₀) ((), s) := henv
  have hl := Clients.Stable.env (F := fun x => Later s₀ x.2) (fun _ _ _ _ h hx => hx.trans h) henv .rfl
  have hl' := hact.later (hq s hl)
  exact ⟨hl', hk a s s' (hl.fenced hs) hact (hl.trans hl') ((hl.trans hl').fenced hs) _⟩

theorem safe_deploy : Safe j (proceed .notDeployed).run s₀ := by
  refine Safe.ask (q := .clock) fun r s _ _ hact _ => ?_
  obtain e | now := r
  · exact .done
  cases hact
  refine Safe.ask (q := .setNx s.now) (fun r t _ _ hact _ => ?_) fun _ hl => hl.now
  obtain e | _ | id := r
  · exact .done
  · exact .done
  cases hact
  have hlast : ∀ b ≠ some false, ∀ s', Later (t.acquire j ⟨id, s.now⟩) s' →
      Safe j (discard (ask (.release id b)) : Flow Unit).run s' := by
    intro b hb s' hl
    refine Safe.ask (fun r _ _ _ _ _ => by cases r <;> exact .done) fun _ h => ?_
    exact ⟨_, j, t.now, (hl.trans h).events List.mem_cons_self, rfl, .inl ⟨rfl, hb⟩⟩
  refine Safe.ask (q := .confirmed) fun r _ _ _ _ hl => ?_
  obtain e | _ | _ := r
  · exact .done
  · exact hlast none nofun _ hl
  · exact hlast (some true) (by simp) _ hl

theorem safe_chain {x : Flow DeploymentStatus}
    (hx : ∀ s, Later s₀ s → Safe j (x >>= proceed).run s) :
    Safe j ((do if ← ask .chain then return .deployed else x) >>= proceed).run s₀ := by
  refine Safe.ask (q := .chain) fun r _ s _ _ hl => ?_
  obtain e | _ | _ := r
  · exact .done
  · exact hx s hl
  · exact .done

theorem safe_locked : Safe j (checkLocked 60 >>= proceed).run s₀ := by
  refine Safe.ask (q := .lock) fun r s _ hs hact _ => ?_
  cases hact with
  | unheard | unsent => exact safe_chain fun _ _ => safe_deploy
  | lock =>
    cases hlock : s.lock with
    | none => exact safe_chain fun _ _ => safe_deploy
    | some l =>
      obtain ⟨_, i, t, htook, _⟩ := hs.lock l hlock
      refine Safe.ask (q := .clock) fun r s₁ _ _ hact hl => ?_
      obtain e | now := r
      · exact safe_chain fun _ _ => safe_deploy
      cases hact
      show Safe j ((if 60 < s₁.now - l.1.acquiredAt then _ else _) >>= proceed).run s₁
      split_ifs with hold
      · refine safe_chain fun s₂ hl₂ => ?_
        refine Safe.ask (q := .release l.1.lockId none) (fun r _ _ _ _ _ => ?_) fun s₃ h => ?_
        · obtain e | b := r
          · exact .done
          · exact safe_deploy
        · have hnow := (hl₂.trans h).now
          exact ⟨l.1, i, t, (hl.trans (hl₂.trans h)).events htook, rfl, .inr ⟨rfl, by omega⟩⟩
      · exact .done

theorem safe_job : Safe j job.run s₀ := by
  refine Safe.ask (q := .cache) fun a _ _ _ _ _ => ?_
  obtain e | _ | _ | _ := a
  · exact safe_locked
  · exact safe_locked
  · exact safe_locked
  · exact .done

end Program

theorem sound_jobs : jobs.Sound Fenced (fun _ _ => Later) (fun _ x y => Later x.2 y.2)
    fun _ _ => True where
  fresh _ _ _ _ _ _ := trivial
  outside _ _ _ hs := by
    rintro ⟨d, rfl⟩
    exact ⟨hs.wait d, fun _ => ⟨Nat.le_add_right .., fun _ => id, (·.wait d)⟩⟩
  act _ _ _ _ _ _ hs _ h := ⟨h.fenced hs, fun _ _ => h⟩
  body _ _ hs _ := safe_job hs []

/-- **Along every run of any number of jobs**, whatever fails and wherever a job is abandoned. -/
theorem deployment_fenced {s} (h : jobs.Steps (.initial {}) s) : Fenced s.world :=
  (sound_jobs.initial (by constructor <;> simp) (fun _ => trivial) h).world

theorem deployment_confirmed : ∃ s, jobs.Steps (.initial {}) s ∧
    s.world.cache = some (true, 3600) ∧ Fenced s.world := by
  have act {s s' : Store} {l q k a} (h : Act 7 s q a s') :=
    Clients.Step.act (S := jobs) (s := ⟨s, [⟨7, (), l, .ask q k⟩], [7]⟩)
      (List.nil_append [_]).symm (show jobs.act 7 q ((), s) a () ((), s') from h)
  have h := Relation.ReflTransGen.single (Clients.Step.start (S := jobs) (s := .initial {}) 7 nofun)
  have h := ((h.tail (act .cache)).tail (act .lock)).tail (act (.chain false))
  have h := (h.tail (act .clock)).tail (act (.acquired "a" rfl nofun))
  have h := (h.tail (act (.confirmed true))).tail (act .release)
  exact ⟨_, h, rfl, deployment_fenced h⟩

end EngineCore.ExternalBundler.Deployment
