import EngineCore.Executors.Bench
import EngineCore.Recovery.Restore
import EngineCore.Solana.Intent

/-!
# The retained attempt of a Solana request

Any number of runs for one request share the lock and the attempt in Redis. The deadline of a run
drops it and releases its lock; a reservation that it has asked for goes on in the journal. A later
run may then find no attempt and reserve one of its own.

* `executor`: the runs of the request; `Guarded`: an attempt is recorded only while the run that
  asked for it holds the lock;
* **`one_retained_attempt`**: where every step of the journal is guarded, the request has one attempt
  at most and can be restored; **`two_retained_attempts`**: a run in which it has two.
-/

namespace EngineCore.Solana

open Interact Recovery Executors
open Except (bind_ok pure_ok)

/-! ## Redis -/

structure Shelf where
  lock : Option String := none
  attempt : Option SolanaTransactionAttempt := none

/-- A run: the value of its lock, its poll interval and its attempt number. -/
structure Run where
  lock : String
  interval : ℕ
  number : ℕ

/-- The scripts of the store, for the run with this lock value. A reply may be lost, with or without
the effect. One message is always signed to one transaction. -/
def Shelf.act (signer : VersionedTransaction → VersionedTransaction) (lock : String) :
    (x : External) → Shelf → Reply x → Shelf → Prop
  | .tryAcquireLock, e, r, e' =>
    (e.lock = none ∧ e' = { e with lock := some lock } ∧
      (r = .ok () ∨ ∃ m, r = .error (.redisError m))) ∨
    (e' = e ∧ (e.lock ≠ none ∧ r = .error .alreadyLocked ∨ ∃ m, r = .error (.redisError m)))
  | .stillHeld, e, r, e' => e' = e ∧ (r = .ok (e.lock = some lock) ∨ ∃ m, r = .error m)
  | .release, e, r, e' =>
    e' = (if e.lock = some lock then { e with lock := none } else e) ∨
    (e' = e ∧ ∃ m, r = .error m)
  | .getAttempt, e, r, e' => e' = e ∧ (e.lock = some lock ∧ r = .ok e.attempt ∨ ∃ m, r = .error m)
  | .updateAttempt a, e, r, e' =>
    (e.lock = some lock ∧ e' = { e with attempt := some a }) ∨ (e' = e ∧ ∃ m, r = .error m)
  | .storeAttemptIfNotExists a, e, r, e' =>
    (e.lock = some lock ∧ e.attempt = none ∧ e' = { e with attempt := some a } ∧
      (r = .ok true ∨ ∃ m, r = .error m)) ∨
    (e' = e ∧ (e.lock = some lock ∧ e.attempt ≠ none ∧ r = .ok false ∨ ∃ m, r = .error m))
  | .sign tx, e, r, e' => e' = e ∧ (r = .ok (signer tx) ∨ ∃ m, r = .error m)
  | _, e, _, e' => e' = e

/-- What else happens: the lock expires or is released for a run that was dropped, the attempt is
lost, and its reconciliation checks are replenished. -/
inductive Shelf.Changes : Shelf → Shelf → Prop
  | unlock (e : Shelf) : Changes e { e with lock := none }
  | lose (e : Shelf) : Changes e { e with attempt := none }
  | resume (e : Shelf) : Changes e
      { e with attempt := e.attempt.map fun a => { a with reconciliationChecks := 0 } }

def Shelf.Holds (lock : String) (e : Shelf) : Prop := e.lock = some lock

/-! ## The runs of a request -/

section System

variable (P : Primitives) (K : Sdk) (job : SolanaExecutorJobData)

def reservation (a : SolanaTransactionAttempt) : Call :=
  .beforeBroadcast "solana" job.transactionId (solanaKey P job.chainId a.signature)
    (durableAttemptPayload P K job a)

def executor (signer : VersionedTransaction → VersionedTransaction)
    (turn : Bench String Shelf → Bench String Shelf → Prop) :
    Plan Reply Ack Failure Run String Shelf fun _ => SolanaExecutorResult where
  id := job.transactionId
  name := Run.lock
  body j := process P K job j.interval j.number
  reads _ _ _ e := e
  ext j := Shelf.act signer j.lock
  env := Shelf.Changes
  turn := turn

def Held (a : SolanaTransactionAttempt) (db : Database) : Prop :=
  Attempted P job.transactionId (solanaKey P job.chainId a.signature)
    (durableAttemptPayload P K job a) db

/-- An attempt that is recorded, or that the holder of the lock has asked for. -/
def Due (b : Bench String Shelf) (row : Attempt) : Prop :=
  (row ∈ b.db.attempts ∧ row.id = job.transactionId) ∨
    ∃ n c, b.rest.lock = some n ∧ b.Asked job.transactionId n c ∧ Claims P c row

/-- The runs reserve attempts of their own request; the attempts that are due are one; what Redis
holds is recorded, or was restored. -/
structure Inv (b : Bench String Shelf) : Prop where
  reached : Reached P b.journal
  fair : b.Fair job.transactionId
  digested : b.db.Digested job.transactionId
  asked : ∀ n c, b.Asked job.transactionId n c → ∃ a, c = reservation P K job a
  rows : ∀ row ∈ b.db.attempts, row.id = job.transactionId → ∃ a, Claims P (reservation P K job a) row
  due : ∀ row row', Due P job b row → Due P job b row' → row = row'
  shelf : ∀ a, b.rest.attempt = some a → a.restoredFromJournal = false → Held P K job a b.db

def Idle (n : String) (b : Bench String Shelf) : Prop := ∀ c, ¬b.Asked job.transactionId n c

/-- What a run may rely on between two of its actions. -/
structure Rely (n : String) (b b' : Bench String Shelf) : Prop where
  inv : Inv P K job b'
  steps : Steps P b.journal b'.journal
  idle : Idle job n b → Idle job n b'
  clear : Idle job n b → b.Clear job.transactionId Shelf.Holds n →
    b'.Clear job.transactionId Shelf.Holds n

def Keeps (n : String) (b b' : Bench String Shelf) : Prop :=
  Inv P K job b' ∧ ∀ m, m ≠ n → Rely P K job m b b'

end System

section Guarded

variable {P : Primitives} {K : Sdk} {job : SolanaExecutorJobData}
variable {signer : VersionedTransaction → VersionedTransaction}
variable {turn : Bench String Shelf → Bench String Shelf → Prop}
variable {b b' : Bench String Shelf} {n : String} {a : SolanaTransactionAttempt}

/-! ## Steps keep the invariant -/

theorem reserves_reservation : reserves job.transactionId (reservation P K job a) = true := by
  simp [reserves, reservation]

theorem claims_id {row : Attempt} (h : Claims P (reservation P K job a) row) :
    row.id = job.transactionId := by
  obtain ⟨_, _, _, hcall, -⟩ := h
  exact (Call.beforeBroadcast.inj hcall).2.1.symm

section

variable (h : Inv P K job b)

include h

theorem Held.steps (hs : Steps P b.journal b'.journal)
    (ha : Held P K job a b.db) : Held P K job a b'.db :=
  Attempted.extends ha (hs.extends h.reached.intact)

theorem Inv.turned (ht : Turn P job.transactionId b b')
    (hguard : Guarded job.transactionId Shelf.Holds b b') : Inv P K job b' := by
  obtain ⟨w, hf, hrun⟩ := h.reached
  have hstep : Steps P b.journal b'.journal := .single ht.step
  have hnew : ∀ row ∈ b'.db.attempts, row ∉ b.db.attempts → row.id = job.transactionId →
      ∃ n c, b.rest.lock = some n ∧ b.Asked job.transactionId n c ∧ Claims P c row := by
    intro row hrow hold hid
    obtain ⟨n, hn, hheld⟩ := hguard row hrow hold hid
    obtain ⟨n', c, hn', hasked, hclaims⟩ := ht.rows hrun h.fair hrow hold hid
    obtain rfl : n = n' := Option.some.inj (hn.symm.trans hn')
    exact ⟨n, c, hheld, hasked, hclaims⟩
  have hdue : ∀ row, Due P job b' row → Due P job b row := by
    rintro row (⟨hrow, hid⟩ | ⟨n, c, hlock, hasked, hclaims⟩)
    · by_cases hold : row ∈ b.db.attempts
      · exact .inl ⟨hold, hid⟩
      · exact .inr (hnew row hrow hold hid)
    · exact .inr ⟨n, c, ht.rest ▸ hlock, ht.asked hasked, hclaims⟩
  refine ⟨⟨w, hf, hrun.trans hstep⟩, ht.fair h.fair, hstep.digested h.digested,
    fun n c hc => h.asked n c (ht.asked hc), ?_, fun row row' hrow hrow' =>
      h.due row row' (hdue row hrow) (hdue row' hrow'), ?_⟩
  · intro row hrow hid
    by_cases hold : row ∈ b.db.attempts
    · exact h.rows row hold hid
    · obtain ⟨n, c, -, hasked, hclaims⟩ := hnew row hrow hold hid
      obtain ⟨a, rfl⟩ := h.asked n c hasked
      exact ⟨a, hclaims⟩
  · intro a ha hrestored
    rw [ht.rest] at ha
    exact (h.shelf a ha hrestored).steps h hstep

theorem Inv.turned_rely (ht : Turn P job.transactionId b b')
    (hguard : Guarded job.transactionId Shelf.Holds b b') (n : String) : Rely P K job n b b' := by
  obtain ⟨w, -, hrun⟩ := h.reached
  refine ⟨h.turned ht hguard, .single ht.step, fun hidle c hc => hidle c (ht.asked hc), ?_⟩
  intro hidle hclear
  refine ht.clear hrun h.fair hguard (fun m hn hm => ?_) hidle hclear
  exact Option.some.inj (hm.symm.trans hn)

theorem Inv.shelf_change {e : Shelf}
    (hlock : ∀ m, e.lock = some m → b.rest.lock = some m ∨ Idle job m b)
    (hattempt : ∀ a, e.attempt = some a → a.restoredFromJournal = false → Held P K job a b.db) :
    Inv P K job { b with rest := e } := by
  have hdue : ∀ row, Due P job { b with rest := e } row → Due P job b row := by
    rintro row (hrow | ⟨n, c, hn, hasked, hclaims⟩)
    · exact .inl hrow
    · rcases hlock n hn with hn | hidle
      · exact .inr ⟨n, c, hn, hasked, hclaims⟩
      · exact absurd hasked (hidle c)
  exact ⟨h.reached, h.fair, h.digested, h.asked, h.rows,
    fun row row' hrow hrow' => h.due row row' (hdue row hrow) (hdue row' hrow'), hattempt⟩

theorem Inv.shelf_rely {e : Shelf} {m : String}
    (hlock : ∀ m, e.lock = some m → b.rest.lock = some m ∨ Idle job m b)
    (hattempt : ∀ a, e.attempt = some a → a.restoredFromJournal = false → Held P K job a b.db)
    (hm : e.lock = some m → b.rest.lock = some m) : Rely P K job m b { b with rest := e } :=
  ⟨h.shelf_change hlock hattempt, .refl, id, fun _ hclear hheld => hclear (hm hheld)⟩

theorem Inv.keeps {e : Shelf}
    (hlock : ∀ m, e.lock = some m → b.rest.lock = some m ∨ m = n ∧ Idle job n b)
    (hattempt : ∀ a, e.attempt = some a → a.restoredFromJournal = false → Held P K job a b.db) :
    Keeps P K job n b { b with rest := e } := by
  have hidle : ∀ m, e.lock = some m → b.rest.lock = some m ∨ Idle job m b := by
    intro m hm
    rcases hlock m hm with hm | ⟨rfl, hidle⟩
    · exact .inl hm
    · exact .inr hidle
  refine ⟨h.shelf_change hidle hattempt, fun m hne => h.shelf_rely hidle hattempt fun hm => ?_⟩
  exact (hlock m hm).resolve_right fun heq => hne heq.1

theorem Inv.keeps_same : Keeps P K job n b b :=
  h.keeps (e := b.rest) (fun _ hm => .inl hm) h.shelf

end

/-- The run may ask for a reservation of the attempt. -/
def May (P : Primitives) (K : Sdk) (job : SolanaExecutorJobData) (n : String)
    (a : SolanaTransactionAttempt) (b : Bench String Shelf) : Prop :=
  Held P K job a b.db ∨ Idle job n b ∧ b.Clear job.transactionId Shelf.Holds n

theorem Inv.keeps_ask (h : Inv P K job b) (hmay : May P K job n a b) :
    Keeps P K job n b { b with waiting := (n, reservation P K job a) :: b.waiting } := by
  set b' : Bench String Shelf := { b with waiting := (n, reservation P K job a) :: b.waiting }
    with hb'
  have hasked : ∀ m c, b'.Asked job.transactionId m c →
      b.Asked job.transactionId m c ∨ m = n ∧ c = reservation P K job a := by
    rintro m c (hc | hc)
    · rcases List.mem_cons.mp hc with hc | hc
      · cases hc
        exact .inr ⟨rfl, rfl⟩
      · exact .inl (.inl hc)
    · exact .inl (.inr hc)
  have hinv : Inv P K job b' := by
    refine ⟨h.reached, h.fair, h.digested, ?_, h.rows, ?_, h.shelf⟩
    · intro m c hc
      rcases hasked m c hc with hc | ⟨-, rfl⟩
      · exact h.asked m c hc
      · exact ⟨a, rfl⟩
    · -- what is due was due before, or is the attempt asked for
      have hdue : ∀ row, Due P job b' row → Due P job b row ∨
          b.rest.lock = some n ∧ Claims P (reservation P K job a) row := by
        rintro row (hrow | ⟨m, c, hm, hc, hclaims⟩)
        · exact .inl (.inl hrow)
        · rcases hasked m c hc with hc | ⟨rfl, rfl⟩
          · exact .inl (.inr ⟨m, c, hm, hc, hclaims⟩)
          · exact .inr ⟨hm, hclaims⟩
      intro row row' hrow hrow'
      rcases hmay with hheld | ⟨hidle, hclear⟩
      · -- it is recorded already
        have hsame : ∀ row, Due P job b' row → Due P job b row := by
          intro row hrow
          rcases hdue row hrow with hrow | ⟨-, hclaims⟩
          · exact hrow
          · exact .inl ⟨hclaims.mem hheld, claims_id hclaims⟩
        exact h.due row row' (hsame row hrow) (hsame row' hrow')
      · -- the holder of the lock finds no other
        have hnone : b.rest.lock = some n → ∀ row, ¬Due P job b row := by
          rintro hlock row (⟨hrow, hid⟩ | ⟨m, c, hm, hc, -⟩)
          · exact hclear hlock row hrow hid
          · obtain rfl : n = m := Option.some.inj (hlock.symm.trans hm)
            exact hidle c hc
        rcases hdue row hrow with hold | ⟨hlock, hclaims⟩
        · rcases hdue row' hrow' with hold' | ⟨hlock, -⟩
          · exact h.due row row' hold hold'
          · exact absurd hold (hnone hlock row)
        · rcases hdue row' hrow' with hold' | ⟨-, hclaims'⟩
          · exact absurd hold' (hnone hlock row')
          · exact hclaims.unique hclaims'
  refine ⟨hinv, fun m hne => ⟨hinv, .refl, fun hidle c hc => ?_, fun _ hclear => hclear⟩⟩
  rcases hasked m c hc with hc | ⟨rfl, -⟩
  · exact hidle c hc
  · exact absurd rfl hne

/-! ## Parts of a run -/

section Parts

variable {j : Run} {α β ε ε' : Type} {X Y : Bench String Shelf → Prop}

def Stays (P : Primitives) (K : Sdk) (job : SolanaExecutorJobData) (n : String)
    (X : Bench String Shelf → Prop) : Prop :=
  ∀ b b', Inv P K job b → Rely P K job n b b' → X b → X b'

theorem stays_true : Stays P K job n fun _ => True := fun _ _ _ _ _ => trivial

theorem stays_idle : Stays P K job n (Idle job n) := fun _ _ _ hrely hidle => hrely.idle hidle

theorem stays_clear : Stays P K job n fun b =>
    Idle job n b ∧ b.Clear job.transactionId Shelf.Holds n :=
  fun _ _ _ hrely h => ⟨hrely.idle h.1, hrely.clear h.1 h.2⟩

theorem stays_held : Stays P K job n fun b => Held P K job a b.db :=
  fun _ _ hb hrely h => Held.steps hb hrely.steps h

theorem stays_may : Stays P K job n (May P K job n a) := by
  rintro b b' hb hrely (h | h)
  · exact .inl (stays_held b b' hb hrely h)
  · exact .inr (stays_clear b b' hb hrely h)

/-- The attempt is recorded, or was restored. -/
def Known (P : Primitives) (K : Sdk) (job : SolanaExecutorJobData)
    (a : SolanaTransactionAttempt) (b : Bench String Shelf) : Prop :=
  a.restoredFromJournal = false → Held P K job a b.db

theorem stays_known : Stays P K job n (Known P K job a) :=
  fun b b' hb hrely h hrestored => stays_held b b' hb hrely (h hrestored)

/-- The part of the run `j` keeps the invariant from `X` on, and a value it returns meets `M`. -/
def Part (P : Primitives) (K : Sdk) (job : SolanaExecutorJobData)
    (signer : VersionedTransaction → VersionedTransaction)
    (turn : Bench String Shelf → Bench String Shelf → Prop) (j : Run)
    (X : Bench String Shelf → Prop) (x : Work Reply Ack ε α) (M : α → Bench String Shelf → Prop) :
    Prop :=
  Plan.Triple P (executor P K job signer turn) (Rely P K job) j (Keeps P K job j.lock)
    (fun b => Inv P K job b ∧ X b) x fun r b => Inv P K job b ∧ ∀ v, r = .ok v → M v b

theorem lasts (hX : Stays P K job j.lock X) :
    (executor P K job signer turn).Lasts P (Rely P K job) j fun b => Inv P K job b ∧ X b :=
  ⟨fun b b' hrely hb => ⟨hrely.inv, hX b b' hb.1 hrely hb.2⟩, fun _ hb => hb.1.reached⟩

namespace Part

theorem mono {x : Work Reply Ack ε α} {M M' : α → Bench String Shelf → Prop}
    (hx : Part P K job signer turn j X x M) (hX : ∀ b, Y b → X b)
    (hM : ∀ v b, M v b → M' v b) : Part P K job signer turn j Y x M' :=
  Plan.Triple.weaken hx (fun b hb => ⟨hb.1, hX b hb.2⟩)
    fun _ b hr => ⟨hr.1, fun v hv => hM v b (hr.2 v hv)⟩

variable {M : α → Bench String Shelf → Prop}

theorem bind {x : Work Reply Ack ε β} {f : β → Work Reply Ack ε α}
    {N : β → Bench String Shelf → Prop}
    (hx : Part P K job signer turn j X x N) (hf : ∀ v, Part P K job signer turn j (N v) (f v) M) :
    Part P K job signer turn j X (x >>= f) M :=
  Plan.Triple.bind hx
    (fun v => Plan.Triple.weaken (hf v) (fun _ hb => ⟨hb.1, hb.2 v rfl⟩) fun _ _ hr => hr)
    fun _ _ hb => ⟨hb.1, nofun⟩

theorem adapt {f : ε → ε'} {x : Work Reply Ack ε α}
    (hx : Part P K job signer turn j X x M) : Part P K job signer turn j X (ExceptT.adapt f x) M := by
  refine Plan.Triple.adapt (Plan.Triple.weaken hx (fun _ hb => hb) fun r b hr => ⟨hr.1, ?_⟩)
  intro v hv
  cases r with
  | error e => cases hv
  | ok v' => exact hr.2 v (congrArg Except.ok (Except.ok.inj hv))

theorem lift {r : Except ε α}
    (h : ∀ v b, r = .ok v → X b → M v b) : Part P K job signer turn j X (Executors.lift r) M :=
  Plan.Triple.lift fun b hb => ⟨hb.1, fun v hv => h v b hv hb.2⟩

theorem ret {v : α} (h : ∀ b, X b → M v b) :
    Part P K job signer turn j X (pure v : Work Reply Ack ε α) M :=
  Plan.Triple.ret fun b hb => ⟨hb.1, fun v' hv => by cases hv; exact h b hb.2⟩

theorem fail {e : ε} :
    Part P K job signer turn j X (throw e : Work Reply Ack ε α) M :=
  Plan.Triple.fail fun _ hb => ⟨hb.1, nofun⟩

theorem tame {x : Flow α} (hX : Stays P K job j.lock X) (hx : Within Tame x) :
    Part P K job signer turn j X x fun _ => X := by
  refine Plan.Triple.weaken (Plan.Triple.within (lasts hX) hx ?_) (fun _ hb => hb)
    fun _ _ hb => ⟨hb.1, fun _ _ => hb.2⟩
  intro q b v b' hq hb hact
  have hsame : b' = b := by
    cases q with
    | invoke c =>
      obtain ⟨-, rfl⟩ := hact
      cases c with
      | beforeBroadcast => exact absurd hq id
      | _ => rfl
    | await c ticket => exact hact.1
    | read r => exact hact.2
    | send m => exact absurd hq id
    | outside x =>
      obtain ⟨e, hext, rfl⟩ := hact
      have he : e = b.rest := by
        cases x with
        | tryAcquireLock | release | updateAttempt | storeAttemptIfNotExists =>
          exact absurd trivial hq
        | stillHeld | getAttempt | sign => exact hext.1
        | _ => exact hext
      rw [he]
  subst hsame
  exact ⟨hb.1.keeps_same, hb⟩

theorem ask {x : External} {M : Reply x → Bench String Shelf → Prop} (hX : Stays P K job j.lock X)
    (h : ∀ b r e, Inv P K job b → X b → Shelf.act signer j.lock x b.rest r e →
      Keeps P K job j.lock b { b with rest := e } ∧ M r { b with rest := e }) :
    Part P K job signer turn j X (inquire x) M := by
  refine Plan.Triple.ask (lasts hX) fun b r e hb hext => ?_
  obtain ⟨hkeeps, hM⟩ := h b r e hb.1 hb.2 hext
  exact ⟨hkeeps, hkeeps.1, fun v hv => by cases hv; exact hM⟩

end Part

/-! ## One run -/

theorem authorizeAttempt_part :
    Part P K job signer turn j
      (fun b => a.restoredFromJournal = false → May P K job j.lock a b) (authorizeAttempt P K job a)
      fun _ b => Held P K job a b.db := by
  unfold authorizeAttempt
  split_ifs with hrestored
  · exact .fail
  rw [Bool.not_eq_true] at hrestored
  refine .mono (X := May P K job j.lock a) ?_ (fun b hb => hb hrestored) fun _ _ hv => hv
  refine (Part.tame stays_may (Still.tame validatePayload_still)).bind fun _ => ?_
  refine .adapt (.adapt ?_)
  refine Plan.Triple.invoke (lasts stays_may) (lasts (X := fun _ => True) stays_true) ?_ ?_ ?_ ?_
  · intro hother
    have hother : reserves job.transactionId (reservation P K job a) = false := hother
    rw [reserves_reservation] at hother
    cases hother
  · intro _ b hb
    exact ⟨hb.1.keeps_ask hb.2, (hb.1.keeps_ask hb.2).1, trivial⟩
  · exact fun _ b hb => ⟨hb.1.keeps_same, hb.1, nofun⟩
  · exact fun _ b hb hanswer => ⟨hb.1.keeps_same, hb.1, fun _ _ => hanswer.attempted⟩

/-- A question that stores the attempt, or changes nothing. -/
theorem write_part {x : External}
    (hx : ∀ e r e', Shelf.act signer j.lock x e r e' → e' = { e with attempt := some a } ∨ e' = e) :
    Part P K job signer turn j (Known P K job a) (inquire x) fun _ => Known P K job a := by
  refine Part.ask stays_known fun b r e hb hknown hact => ⟨?_, hknown⟩
  rcases hx b.rest r e hact with rfl | rfl
  · refine hb.keeps (fun m hm => .inl hm) fun a' ha' hrestored => ?_
    obtain rfl := Option.some.inj ha'
    exact hknown hrestored
  · exact hb.keeps_same

theorem updateAttempt_part :
    Part P K job signer turn j (Known P K job a) (inquire (.updateAttempt a))
      fun _ => Known P K job a :=
  write_part fun _ _ _ hact => hact.imp (·.2) (·.1)

theorem storeAttempt_part :
    Part P K job signer turn j (Known P K job a) (inquire (.storeAttemptIfNotExists a))
      fun _ => Known P K job a :=
  write_part fun _ _ _ hact => hact.imp (·.2.2.1) (·.1)

theorem stored_part {r : Except String α} :
    Part P K job signer turn j X (stored r) fun _ => X :=
  .lift fun _ _ _ hb => hb

theorem dispatchAttempt_part (interval : ℕ) (wire : String) :
    Part P K job signer turn j (Known P K job a) (dispatchAttempt P K job interval a wire)
      fun _ _ => True := by
  have hsend : Part P K job signer turn j (fun _ => True)
      (sendTransaction ⟨job.transactionId, wire⟩) fun _ _ => True :=
    Plan.Triple.send (lasts stays_true)
      fun b r hb => ⟨hb.1.keeps_same, hb.1, fun _ _ => trivial⟩
  unfold dispatchAttempt
  refine updateAttempt_part.bind fun r => stored_part.bind fun _ => ?_
  refine (Part.tame stays_known (Still.tame verifyLock_still)).bind fun _ => ?_
  split_ifs
  · refine Part.mono (hsend.bind fun r => ?_) (fun _ _ => trivial) fun _ _ hv => hv
    exact Part.tame stays_true (Still.tame (dispatched_still r))
  · refine Part.bind (N := fun _ _ => True) (authorizeAttempt_part.mono
      (fun b hb hr => .inl (hb hr)) fun _ _ _ => trivial) fun _ => hsend.bind fun r => ?_
    exact Part.tame stays_true (Still.tame (dispatched_still r))

theorem broadcastAttempt_part (interval : ℕ) :
    Part P K job signer turn j (Known P K job a) (broadcastAttempt P K job interval a)
      fun _ _ => True := by
  unfold broadcastAttempt
  refine Part.bind (Part.tame stays_known (Still.tame (inquire_still id id))) fun now => ?_
  split
  · exact .fail
  refine Part.bind (N := fun _ => Known P K job a) (.lift fun _ _ _ hb => hb) fun wire => ?_
  split
  · rename_i hrestored
    refine Part.bind (Part.tame stays_known (Still.tame (invoke_still trivial))) fun grant => ?_
    cases grant with
    | granted broadcasts atMs =>
      refine (dispatchAttempt_part interval wire).mono (fun b _ hr => ?_) fun _ _ hv => hv
      exact absurd (hrestored.symm.trans hr) (by simp)
    | wait ms => exact .fail
    | exhausted => exact .fail
  · exact (dispatchAttempt_part interval wire).mono (fun b hb => hb) fun _ _ hv => hv

theorem retainedAttempt_ok {binding : String} {retained : RetainedSolanaAttempt}
    (h : retainedAttempt P K job binding retained = .ok a) : a.restoredFromJournal = true := by
  unfold retainedAttempt at h
  split at h
  · cases h
  split at h
  · cases h
  cases hwire : validatedAttemptWire P K job _ with
  | error e =>
    rw [hwire] at h
    cases h
  | ok wire =>
    rw [hwire] at h
    cases h
    rfl

theorem restoreRetainedAttempt_part (binding : String) :
    Part P K job signer turn j (fun _ => True) (restoreRetainedAttempt P K job binding)
      (Known P K job) := by
  unfold restoreRetainedAttempt
  refine Part.bind (Part.tame stays_true (Still.tame (invoke_still trivial))) fun retained => ?_
  cases retained with
  | none => exact .fail
  | some retained =>
    refine Part.bind (N := Known P K job) (.lift fun a b ha _ hr => ?_) fun a => ?_
    · exact absurd ((retainedAttempt_ok ha).symm.trans hr) (by simp)
    refine storeAttempt_part.bind fun r => stored_part.bind fun done => ?_
    split
    · refine (Part.tame stays_known (Still.tame verifyLock_still)).bind fun _ => ?_
      exact .ret fun _ hb => hb
    · exact .fail

/-- What Redis holds is recorded or was restored, and nothing has been asked for. -/
def Found (P : Primitives) (K : Sdk) (job : SolanaExecutorJobData) (n : String)
    (found : Option SolanaTransactionAttempt) (b : Bench String Shelf) : Prop :=
  Idle job n b ∧ ∀ a, found = some a → Known P K job a b

/-- Without a key at the admission there is no attempt: it would have bound one. -/
theorem admission_part (found : Option SolanaTransactionAttempt) :
    Part P K job signer turn j (Found P K job j.lock found)
      (recovery (journal (read (.admission .solana job.transactionId)))) fun admission b =>
        Found P K job j.lock found b ∧ (admission.bind AdmissionRecord.replayKey = none →
          found = none → Idle job j.lock b ∧ b.Clear job.transactionId Shelf.Holds j.lock) := by
  have hstays : Stays P K job j.lock (Found P K job j.lock found) :=
    fun b b' hb hrely h => ⟨stays_idle b b' hb hrely h.1,
      fun a ha => stays_known b b' hb hrely (h.2 a ha)⟩
  refine .adapt (.adapt (Plan.Triple.read (lasts hstays) fun b r hb hr => ?_))
  refine ⟨hb.1.keeps_same, hb.1, fun admission hv => ⟨hb.2, fun hkey _ => ⟨hb.2.1, ?_⟩⟩⟩
  intro _ row hrow hid
  obtain rfl : r = _ := hr.resolve_right fun he => by rw [he] at hv; cases hv
  obtain ⟨record, hrecord, hrid, hbound⟩ := hb.1.reached.intact.bound row hrow
  have hlookup : b.db.lookup job.transactionId = admission := by
    have hv' : b.db.admission .solana job.transactionId = .ok admission := hv
    simp only [Database.admission, bind_ok, refuse_ok, pure_ok] at hv'
    exact hv'.choose_spec.2
  have hfound : b.db.lookup job.transactionId = some record := by
    rw [← hid, ← hrid]
    exact hb.1.reached.intact.lookup_eq hrecord
  rw [← hlookup, hfound, Option.bind_some, hbound] at hkey
  cases hkey

theorem firstAttempt_part (interval : ℕ) :
    Part P K job signer turn j
      (fun b => Idle job j.lock b ∧ b.Clear job.transactionId Shelf.Holds j.lock)
      (firstAttempt P K job interval) fun _ _ => True := by
  unfold firstAttempt
  refine (Part.tame stays_clear buildAttempt_tame).bind fun a => ?_
  refine Part.bind (authorizeAttempt_part.mono (fun b hb _ => .inr hb) fun _ _ hv => hv) fun _ => ?_
  refine Part.mono (X := Known P K job a) ?_ (fun b hb _ => hb) fun _ _ hv => hv
  refine storeAttempt_part.bind fun r => stored_part.bind fun done => ?_
  split
  · exact broadcastAttempt_part interval
  · exact .fail

theorem get_part : Part P K job signer turn j (Idle job j.lock) (inquire .getAttempt)
    fun r b => ∀ o, r = .ok o → Found P K job j.lock o b := by
  refine .ask stays_idle fun b r e hb hidle hact => ?_
  obtain ⟨rfl, hr⟩ := hact
  refine ⟨hb.keeps_same, fun o ho => ⟨hidle, fun a ha => hb.shelf a ?_⟩⟩
  subst ha
  rcases hr with ⟨-, hr⟩ | ⟨m, hr⟩
  · exact Except.ok.inj (hr.symm.trans ho)
  · cases hr.symm.trans ho

theorem lock_part : Part P K job signer turn j (Idle job j.lock) (inquire .tryAcquireLock)
    fun _ => Idle job j.lock := by
  refine .ask stays_idle fun b r e hb hidle hact => ?_
  refine ⟨hb.keeps (fun m hm => ?_) fun a ha => hb.shelf a ?_, hidle⟩
  · rcases hact with ⟨-, rfl, -⟩ | ⟨rfl, -⟩
    · exact .inr ⟨(Option.some.inj hm).symm, hidle⟩
    · exact .inl hm
  · rcases hact with ⟨-, rfl, -⟩ | ⟨rfl, -⟩ <;> exact ha

theorem release_part : Part P K job signer turn j (fun _ => True) (inquire .release)
    fun _ _ => True := by
  refine .ask stays_true fun b r e hb _ hact => ?_
  refine ⟨hb.keeps (fun m hm => .inl ?_) fun a ha => hb.shelf a ?_, trivial⟩
  · rcases hact with rfl | ⟨rfl, -⟩
    · by_cases hlock : b.rest.lock = some j.lock
      · rw [if_pos hlock] at hm
        exact (Option.some_ne_none m hm.symm).elim
      · rwa [if_neg hlock] at hm
    · exact hm
  · rcases hact with rfl | ⟨rfl, -⟩
    · split_ifs at ha <;> exact ha
    · exact ha

theorem touch_part (a : SolanaTransactionAttempt) (checks : ℕ) :
    Part P K job signer turn j (Known P K job a)
      (inquire (.updateAttempt { a with reconciliationChecks := checks }))
      fun (r : Except String Unit) b => ∀ u, r = .ok u →
        Known P K job { a with reconciliationChecks := checks } b :=
  Part.mono updateAttempt_part (fun _ hb => hb) fun _ _ hv _ _ => hv

/-- The parts of the run `j`. -/
def parts (P : Primitives) (K : Sdk) (job : SolanaExecutorJobData)
    (signer : VersionedTransaction → VersionedTransaction)
    (turn : Bench String Shelf → Bench String Shelf → Prop) (j : Run) :
    Logic (Bench String Shelf) where
  Part := Part P K job signer turn j
  Lasts := Stays P K job j.lock
  mono := Part.mono
  bind := Part.bind
  lift := Part.lift
  still hX hx := Part.tame hX (Still.tame hx)
  capture hx := Plan.Triple.weaken (Plan.Triple.capture hx) (fun _ hb => hb)
    fun _ _ hr => ⟨hr.choose_spec.2.1, fun _ _ => trivial⟩

theorem process_part (interval number : ℕ) :
    Part P K job signer turn j (Idle job j.lock) (process P K job interval number)
      fun _ _ => True :=
  Stages.process (L := parts P K job signer turn j)
    { start := Idle job j.lock
      found := Found P K job j.lock
      known := Known P K job
      absent := fun b => Idle job j.lock b ∧ b.Clear job.transactionId Shelf.Holds j.lock
      starts := stays_idle
      knows := fun _ => stays_known
      known_of_found := fun a _ h => h.2 a rfl
      lock := lock_part
      get := get_part
      admission := admission_part
      restore := fun binding => (restoreRetainedAttempt_part binding).mono (fun _ _ => trivial)
        fun _ _ hv => hv
      touch := touch_part
      broadcast := fun _ => broadcastAttempt_part interval
      first := firstAttempt_part interval
      release := release_part } number

end Parts

/-! ## A recorded attempt can be restored -/

theorem durable_text : strField (durableAttemptPayload P K job a).sort "signature"
    = some (P.signatureText a.signature) := by
  unfold strField
  rw [durable_get?]
  simp [durableAttemptPayload, Json.get?, List.lookup_cons, Json.sort, Json.asStr]

theorem checkRetained_ne (hparse : ∀ signature, P.signature (P.signatureText signature) = some signature)
    {row : Attempt} (h : Claims P (reservation P K job a) row) :
    checkRetained P row ≠ .error .storage := by
  obtain ⟨_, _, _, hcall, -, hpayload, hdigest⟩ := h
  obtain ⟨-, -, hkey, rfl⟩ := Call.beforeBroadcast.inj hcall
  replace hpayload := canonical_ok hpayload
  refine bind_ne (canonical_ne _) fun encoded hencoded => bind_ne (refuse_ne fun hne => ?_) fun _ _ => ?_
  · rw [canonical_ok hencoded, hpayload, Json.sort_sort, ← hpayload] at hne
    exact absurd hdigest.symm (hne.resolve_left fun hne => hne rfl)
  rw [hpayload]
  refine bind_ne (require_ne fun hn => ?_) fun text htext => ?_
  · rw [durable_text] at hn
    cases hn
  obtain rfl : P.signatureText a.signature = text :=
    Option.some.inj (durable_text.symm.trans (require_ok.mp htext))
  refine bind_ne (require_ne fun hn => ?_) fun signature hsignature => ?_
  · rw [hparse] at hn
    cases hn
  obtain rfl : a.signature = signature :=
    Option.some.inj ((hparse _).symm.trans (require_ok.mp hsignature))
  refine bind_ne (require_ne fun hn => ?_) fun chain hchain => bind_ne (refuse_ne fun hne => ?_)
    fun _ _ => bind_ne (require_ne fun hn => ?_) fun attempt hattempt => ?_
  · rw [durable_chain] at hn
    cases hn
  · obtain rfl : job.chainId = chain :=
      Option.some.inj ((durable_chain a).symm.trans (require_ok.mp hchain))
    exact absurd hkey.symm hne
  · rw [durable_attempt] at hn
    cases hn
  obtain rfl := Option.some.inj ((durable_attempt a).symm.trans (require_ok.mp hattempt))
  refine bind_ne (refuse_ne fun hne => ?_) fun _ _ => refuse_ne fun _ => nofun
  rw [durable_signature] at hne
  exact absurd rfl hne

/-! ## Every run -/

theorem Shelf.Changes.rely (h : Inv P K job b) {e : Shelf} (he : Shelf.Changes b.rest e)
    (n : String) : Rely P K job n b { b with rest := e } := by
  cases he with
  | unlock => exact h.shelf_rely nofun h.shelf nofun
  | lose =>
    exact h.shelf_rely (fun _ hm => .inl hm) (fun a ha => (Option.some_ne_none a ha.symm).elim)
      fun hm => hm
  | resume =>
    refine h.shelf_rely (fun _ hm => .inl hm) (fun a ha hrestored => ?_) fun hm => hm
    obtain ⟨a', ha', rfl⟩ := Option.map_eq_some_iff.mp ha
    exact h.shelf a' ha' hrestored

theorem executor_sound :
    ((executor P K job signer (Guarded job.transactionId Shelf.Holds)).clients P).Sound
      (Inv P K job) (fun n _ => Rely P K job n) (fun j x y => Keeps P K job j.lock x.2 y.2)
      (Idle job) where
  fresh _ _ _ _ hrely hidle := hrely.idle hidle
  outside b _ b' hb hout := by
    cases hout with
    | turn hturn hguard => exact ⟨hb.turned hturn hguard, hb.turned_rely hturn hguard⟩
    | rest hrest => exact ⟨(hrest.rely hb "").inv, hrest.rely hb⟩
  act _ _ _ _ _ _ _ _ hkeeps := hkeeps
  body j b hb hidle :=
    (process_part j.interval j.number [] ((), b) ⟨hb, hidle⟩).post_mono fun _ _ _ _ => trivial

theorem length_le_one_of_nodup {α β : Type} {f : α → β} {l : List α} (h : (l.map f).Nodup)
    (hone : ∀ x ∈ l, ∀ y ∈ l, x = y) : l.length ≤ 1 := by
  rcases l with _ | ⟨x, _ | ⟨y, l⟩⟩
  · simp
  · simp
  · obtain rfl := hone x (by simp) y (by simp)
    simp at h

def bench (w : Recovery.World) : Bench String Shelf := ⟨.initial w, [], none, {}⟩

theorem bench_inv {w : Recovery.World} (hfound : Founded w.db)
    (hnone : ∀ row ∈ w.db.attempts, row.id ≠ job.transactionId) : Inv P K job (bench w) where
  reached := ⟨w, hfound, .refl⟩
  fair := nofun
  digested := by
    have hrows : w.db.attemptsOf job.transactionId = [] := by
      simpa [Database.attemptsOf] using hnone
    change ((w.db.attemptsOf job.transactionId).map Attempt.digest).Nodup
    rw [hrows]
    exact List.nodup_nil
  asked := by rintro n c (⟨⟨⟩⟩ | ⟨⟨⟩, -⟩)
  rows row hrow hid := absurd hid (hnone row hrow)
  due := by rintro row row' (⟨hrow, hid⟩ | ⟨n, c, ⟨⟩, -⟩) -; exact absurd hid (hnone row hrow)
  shelf := by rintro a ⟨⟩

/-- **One retained attempt.** Where attempts of the request are recorded only while the run that asked
for them holds its lock, the request has one attempt at most in every state reached, and with a
replay key it can be restored without a storage error. -/
theorem one_retained_attempt
    (hparse : ∀ signature, P.signature (P.signatureText signature) = some signature)
    {w : Recovery.World} (hfound : Founded w.db)
    (hnone : ∀ row ∈ w.db.attempts, row.id ≠ job.transactionId)
    {s : Clients.State (Ask External Dispatch) (Answer Reply Ack) (Bench String Shelf) Unit Run String
      fun _ => Except Failure SolanaExecutorResult}
    (hs : ((executor P K job signer (Guarded job.transactionId Shelf.Holds)).clients P).Steps
      (.initial (bench w)) s) :
    (s.world.db.attemptsOf job.transactionId).length ≤ 1 ∧
    ∀ record expected now, s.world.db.control.schema = schemaVersion →
      s.world.db.pending = some [] → s.world.db.lookup job.transactionId = some record →
      record.replayKey.isSome →
      (Tx.prepareRestore job.transactionId expected).exec P now s.world.db ≠ .error .storage := by
  have hinv : Inv P K job s.world := (executor_sound.initial (bench_inv hfound hnone)
    (fun n c => by rintro (⟨⟨⟩⟩ | ⟨⟨⟩, -⟩)) hs).world
  obtain ⟨w', hfound', hrun⟩ := hinv.reached
  have hone : (s.world.db.attemptsOf job.transactionId).length ≤ 1 := by
    refine length_le_one_of_nodup hinv.digested fun row hrow row' hrow' => ?_
    simp only [Database.attemptsOf, List.mem_filter, decide_eq_true_eq] at hrow hrow'
    exact hinv.due row row' (.inl hrow) (.inl hrow')
  refine ⟨hone, fun record expected now hschema hpending hrec hkey => ?_⟩
  refine prepareRestore_healthy hinv.reached.intact (hrun.tallied hfound')
    (hrun.projected hfound'.projected) hschema hpending hone (fun row hrow hid => ?_) hrec hkey expected
  obtain ⟨a, ha⟩ := hinv.rows row hrow hid
  exact checkRetained_ne hparse ha

end Guarded

/-! ## A reservation that outlives its run -/

namespace TwoRuns

/-- Signatures with a text that can be read back. -/
def primitives : Primitives :=
  { FirstRun.primitives with
    signature := fun text => some (BitVec.ofNat 512 text.length)
    signatureText := fun signature => String.ofList (List.replicate signature.toNat 'x') }

theorem parse (signature : Signature) :
    primitives.signature (primitives.signatureText signature) = some signature := by
  simp [primitives]

def signer : VersionedTransaction → VersionedTransaction := fun _ => FirstRun.tx

/-- Redis, a node and a signer at work, at this time. -/
def redis (lock : String) (now : ℕ) : (x : External) → Shelf → Reply x × Shelf
  | .now, e => (now, e)
  | .tryAcquireLock, e =>
    if e.lock = none then (.ok (), { e with lock := some lock }) else (.error .alreadyLocked, e)
  | .stillHeld, e => (.ok (e.lock = some lock), e)
  | .release, e => (.ok (), if e.lock = some lock then { e with lock := none } else e)
  | .getAttempt, e => (if e.lock = some lock then .ok e.attempt else .error "lock lost", e)
  | .updateAttempt a, e =>
    if e.lock = some lock then (.ok (), { e with attempt := some a }) else (.error "lock lost", e)
  | .storeAttemptIfNotExists a, e =>
    if e.lock = some lock ∧ e.attempt = none then (.ok true, { e with attempt := some a })
    else (.error "lock lost", e)
  | .sign tx, e => (.ok (signer tx), e)
  | x, e => (FirstRun.outside x ⟨.initial Recovery.Sample.world, []⟩, e)

theorem redis_act (lock : String) (now : ℕ) (x : External) (e : Shelf) :
    Shelf.act signer lock x e (redis lock now x e).1 (redis lock now x e).2 := by
  cases x with
  | tryAcquireLock =>
    by_cases h : e.lock = none
    · simp [Shelf.act, redis, h]
    · simp [Shelf.act, redis, h]
  | stillHeld => exact ⟨rfl, .inl rfl⟩
  | release => exact .inl rfl
  | getAttempt | updateAttempt a =>
    by_cases h : e.lock = some lock
    · simp [Shelf.act, redis, h]
    · simp [Shelf.act, redis, h]
  | storeAttemptIfNotExists a =>
    by_cases h : e.lock = some lock ∧ e.attempt = none
    · simp [Shelf.act, redis, h]
    · simp [Shelf.act, redis, h]
  | sign tx => exact ⟨rfl, .inl rfl⟩
  | _ => rfl

def runs (turn : Bench String Shelf → Bench String Shelf → Prop) :
    Plan Reply Ack Failure Run String Shelf fun _ => SolanaExecutorResult :=
  executor primitives FirstRun.sdk FirstRun.request signer turn

def first : Run := ⟨"a", 0, 0⟩

def second : Run := ⟨"b", 0, 0⟩

def opened : State :=
  State.after primitives none (.initial Recovery.Sample.world) (.openJournal none)

def admitted : State := State.after primitives none opened
  (.reserveAdmission "solana" "t1" FirstRun.fingerprint FirstRun.request.payload)

def start : Bench String Shelf := { bench Recovery.Sample.world with journal := admitted }

/-- A run up to the reservation that it asks for: the seventeenth query. -/
def asked (j : Run) (now : ℕ) (b : Bench String Shelf) : Bench String Shelf :=
  ((process primitives FirstRun.sdk FirstRun.request j.interval j.number).run.after
    ((runs fun _ _ => True).solo primitives j (redis j.lock now) fun _ => .ok "x") 17 ((), b)).2.2

/-- The journal takes up the last reservation that was asked for. -/
def served (b : Bench String Shelf) : Bench String Shelf :=
  match b.waiting with
  | [] => b
  | (_, c) :: rest =>
    { b with
      journal := State.after primitives none b.journal c, waiting := rest, running := none }

/-- A reservation waits for a journal that is free. -/
def Ready (b : Bench String Shelf) : Prop :=
  b.waiting ≠ [] ∧ b.journal.active.isNone ∧ b.journal.world.up = true ∧ b.running = none ∧
    ∀ x ∈ b.waiting, x.2.offline = false

/-- The deadline of a run: its lock is released. -/
def released (b : Bench String Shelf) : Bench String Shelf :=
  { b with rest := { b.rest with lock := none } }

def one : Bench String Shelf := asked first 1 start

def two : Bench String Shelf := asked second 2 (released one)

section Steps

variable {turn : Bench String Shelf → Bench String Shelf → Prop}

abbrev Runs (turn : Bench String Shelf → Bench String Shelf → Prop) :=
  ((runs turn).clients primitives).Steps

set_option maxRecDepth 4000 in
theorem opened_up : opened.world.up = true := by decide +kernel

/-- What is known of the journal along these runs. -/
abbrev Sane (b : Bench String Shelf) : Prop := Reached primitives b.journal ∧ b.Fair "t1"

theorem start_steps
    (hturn : ∀ b b', Sane b → Turn primitives "t1" b b' → b.running = none → turn b b') :
    Sane start ∧ Runs turn (.initial (bench Recovery.Sample.world)) (.initial start) := by
  have hopen : Turns primitives "t1" none (bench Recovery.Sample.world)
      { bench Recovery.Sample.world with journal := opened } := Turns.call none rfl rfl rfl rfl
  have hadmit : Turns primitives "t1" none
      { bench Recovery.Sample.world with journal := opened } start :=
    Turns.call none rfl opened_up rfl rfl
  have hturns := hopen.trans hadmit
  obtain ⟨hjournal, hfair, -⟩ := Turns.journal hturns
  refine ⟨⟨⟨_, Recovery.Sample.founded, hjournal⟩, hfair nofun⟩, ?_⟩
  refine Plan.steps_of_turns (p := runs turn) hturns ⟨_, Recovery.Sample.founded, .refl⟩ nofun
    (fun b₁ b₂ hb hfair _ hstep hrun => hturn b₁ b₂ ⟨hb, hfair⟩ hstep ?_) [] []
  cases hrunning : b₁.running with
  | none => rfl
  | some m => cases hrun m hrunning

theorem asked_steps
    (hturn : ∀ b b', Sane b → Turn primitives "t1" b b' → b.running = none → turn b b')
    (j : Run) (now : ℕ) {b : Bench String Shelf} (hb : Sane b) (names : List String)
    (hnew : j.lock ∉ names) :
    Sane (asked j now b) ∧ ∃ x, Runs turn ⟨b, [], names⟩ ⟨asked j now b, [x], j.lock :: names⟩ := by
  have hstart := Clients.Step.start (S := (runs turn).clients primitives) (s := ⟨b, [], names⟩) j hnew
  obtain ⟨hsane, log, hrun⟩ := Clients.Answers.advance (Plan.solo_answers (p := runs turn) (j := j)
    (fun _ => .ok "x") (redis_act j.lock now)
    fun b₁ b₂ hb hfair => hturn b₁ b₂ ⟨hb, hfair⟩) 17
    (process primitives FirstRun.sdk FirstRun.request j.interval j.number).run b () []
    (j.lock :: names) hb
  exact ⟨hsane, _, .head hstart hrun⟩

theorem served_turns {b : Bench String Shelf} (h : Ready b) :
    ∃ n ∈ b.waiting.map Prod.fst, Turns primitives "t1" (some n) b (served b) := by
  obtain ⟨hwaiting, hfree, hup, hrun, hcalls⟩ := h
  unfold served
  cases hlist : b.waiting with
  | nil => exact absurd hlist hwaiting
  | cons x rest =>
    obtain ⟨n, c⟩ := x
    have hoffline : c.offline = false := hcalls (n, c) (by simp [hlist])
    have hready : b.journal.world.up = !c.offline := by
      rw [hup, hoffline]
      rfl
    have hlist : b.waiting = [] ++ (n, c) :: rest := hlist
    exact ⟨n, by simp, Turns.reserve none hlist (Option.isNone_iff_eq_none.mp hfree) hready hrun⟩

theorem dropped_steps (b : Bench String Shelf) {names : List String} (strands) :
    Runs turn ⟨b, strands, names⟩ ⟨released b, [], names⟩ := by
  have hlose := Clients.Step.lose (S := (runs turn).clients primitives)
    (s := ⟨b, strands, names⟩) (List.nil_sublist strands)
  have hunlock := Clients.Step.outside (S := (runs turn).clients primitives) (t := ())
    (s := ⟨b, [], names⟩) (Plan.Outside.rest (Shelf.Changes.unlock b.rest))
  exact .head hlose (.single hunlock)

end Steps

end TwoRuns

namespace TwoRuns

def both : Bench String Shelf := served (served two)

set_option maxRecDepth 10000 in
theorem both_committed : (Ready two ∧ Ready (served two)) ∧
    (both.db.attemptsOf "t1").length = 2 ∧
    (both.db.lookup "t1").any (fun record => record.replayKey.isSome) = true ∧
    (Tx.prepareRestore "t1" FirstRun.request.payload).exec primitives none both.db
      = .error .storage := by
  unfold Ready
  decide +kernel

end TwoRuns

/-- **Two retained attempts.** The first run asks for its reservation and is dropped; the second
finds no attempt and signs the same message later; the journal commits both reservations, and the
request can no longer be restored. -/
theorem two_retained_attempts : ∃ s,
    TwoRuns.Runs (fun _ _ => True) (.initial (bench Recovery.Sample.world)) s ∧
    (s.world.db.attemptsOf "t1").length = 2 ∧
    (s.world.db.lookup "t1").any (fun record => record.replayKey.isSome) = true ∧
    (Tx.prepareRestore "t1" FirstRun.request.payload).exec TwoRuns.primitives none s.world.db
      = .error .storage := by
  have hturn : ∀ b b' : Bench String Shelf, TwoRuns.Sane b → Turn TwoRuns.primitives "t1" b b' →
      b.running = none → True := fun _ _ _ _ _ => trivial
  obtain ⟨hready, hlen, hkey, hrestore⟩ := TwoRuns.both_committed
  obtain ⟨hs, hstart⟩ := TwoRuns.start_steps hturn
  obtain ⟨hone, x, hfirst⟩ := TwoRuns.asked_steps hturn TwoRuns.first 1 hs [] nofun
  obtain ⟨htwo, y, hsecond⟩ := TwoRuns.asked_steps hturn TwoRuns.second 2
    (b := TwoRuns.released TwoRuns.one) hone ["a"] (by decide)
  obtain ⟨n, -, hserve⟩ := TwoRuns.served_turns hready.1
  obtain ⟨m, -, hserve'⟩ := TwoRuns.served_turns hready.2
  obtain ⟨hjournal, hfair, -⟩ := Turns.journal hserve
  obtain ⟨w, hfound, hsteps⟩ := htwo.1
  have hlater := (Plan.steps_of_turns (p := TwoRuns.runs fun _ _ => True) hserve htwo.1 htwo.2
    (fun _ _ _ _ _ _ _ => trivial) [y] ["b", "a"]).trans
    (Plan.steps_of_turns (p := TwoRuns.runs fun _ _ => True) hserve'
      ⟨w, hfound, hsteps.trans hjournal⟩ (hfair htwo.2) (fun _ _ _ _ _ _ _ => trivial) [y]
      ["b", "a"])
  exact ⟨_, (((hstart.trans hfirst).trans (TwoRuns.dropped_steps TwoRuns.one [x])).trans
    hsecond).trans hlater, hlen, hkey, hrestore⟩

namespace TwoRuns

set_option maxRecDepth 10000 in
theorem one_committed : Ready one ∧ one.waiting.map Prod.fst = ["a"] ∧ one.rest.lock = some "a" ∧
    ((served one).db.attemptsOf "t1").length = 1 ∧
    (served one).db.control.schema = schemaVersion ∧ (served one).db.pending = some [] ∧
    (((served one).db.lookup "t1").bind AdmissionRecord.replayKey).isSome = true := by
  unfold Ready
  decide +kernel

theorem one_steps : ∃ x, Runs (Guarded "t1" Shelf.Holds) (.initial (bench Recovery.Sample.world))
    ⟨served one, [x], ["a"]⟩ := by
  have hturn : ∀ b b' : Bench String Shelf, Sane b → Turn primitives "t1" b b' →
      (∀ n, b.running = some n → Shelf.Holds n b.rest) → Guarded "t1" Shelf.Holds b b' := by
    rintro b b' ⟨⟨w, -, hsteps⟩, hfair⟩ hstep hholds
    exact hstep.guarded hsteps hfair hholds
  have hidle : ∀ b b' : Bench String Shelf, Sane b → Turn primitives "t1" b b' →
      b.running = none → Guarded "t1" Shelf.Holds b b' := by
    intro b b' hb hstep hrun
    refine hturn b b' hb hstep fun n hn => ?_
    rw [hrun] at hn
    cases hn
  obtain ⟨hready, hwho, hlock, -⟩ := one_committed
  obtain ⟨hs, hstart⟩ := start_steps hidle
  obtain ⟨hone, x, hfirst⟩ := asked_steps hidle first 1 hs [] nofun
  obtain ⟨n, hn, hserve⟩ := served_turns hready
  rw [hwho] at hn
  obtain rfl := List.mem_singleton.mp hn
  refine ⟨x, (hstart.trans hfirst).trans (Plan.steps_of_turns
    (p := runs (Guarded "t1" Shelf.Holds)) hserve hone.1 hone.2 ?_ [x] ["a"])⟩
  intro b₁ b₂ hb hfair hrest hstep hrun
  refine hturn b₁ b₂ ⟨hb, hfair⟩ hstep fun m hm => ?_
  obtain rfl := Option.some.inj (hrun m hm)
  rw [hrest]
  exact hlock

end TwoRuns

theorem one_retained_attempt_first : ∃ s,
    TwoRuns.Runs (Guarded "t1" Shelf.Holds) (.initial (bench Recovery.Sample.world)) s ∧
    (s.world.db.attemptsOf "t1").length = 1 ∧
    (Tx.prepareRestore "t1" FirstRun.request.payload).exec TwoRuns.primitives none s.world.db
      ≠ .error .storage := by
  obtain ⟨x, hsteps⟩ := TwoRuns.one_steps
  obtain ⟨-, -, -, hlen, hschema, hpending, hkey⟩ := TwoRuns.one_committed
  obtain ⟨key, hkey⟩ := Option.isSome_iff_exists.mp hkey
  obtain ⟨record, hrec, hkey⟩ := Option.bind_eq_some_iff.mp hkey
  generalize TwoRuns.served TwoRuns.one = b at hsteps hlen hschema hpending hrec
  have hall := one_retained_attempt TwoRuns.parse Recovery.Sample.founded (by rintro row ⟨⟩) hsteps
  exact ⟨_, hsteps, hlen, hall.2 record _ none hschema hpending hrec (by rw [hkey]; rfl)⟩

end EngineCore.Solana
