import EngineCore.Executors.Journal
import EngineCore.Lib.Clients
import EngineCore.Recovery.Absorb

/-!
# Runs that reserve broadcasts

Any number of runs work for one admission, and every reservation of a broadcast for it is asked for
by one of them. A reservation that has been asked for is the journal's own: it may begin at any later
moment, also when the run that asked has been dropped, until the process ends.

* `Turn`: one step of the journal; `Turn.asked`, **`Turn.rows`**: an attempt of the admission comes
  from a reservation that was asked for;
* `Turn.clear`: where only the holder of a lock reserves, a holder that has found no attempt and has
  asked for none finds none later.
-/

namespace EngineCore.Executors

open Interact Recovery

/-! ## The journal and its callers -/

/-- The call reserves a broadcast of the id. -/
def reserves (id : String) : Call → Bool
  | .beforeBroadcast _ i _ _ => i = id
  | _ => false

/-- The journal, the reservations that have not begun, who asked for the one that runs, and the rest
of the world. -/
structure Bench (N E : Type) where
  journal : State
  waiting : List (N × Call)
  running : Option N
  rest : E

section Turns

variable {N E : Type} {P : Primitives} {id : String} {b b' : Bench N E} {n : N} {c : Call}

def Bench.db (b : Bench N E) : Database := b.journal.world.db

/-- One step of the journal. The end of the process takes the reservations with it. -/
inductive Turn (P : Primitives) (id : String) : Bench N E → Bench N E → Prop
  | start {b : Bench N E} (c : Call) (hfree : b.journal.active = none)
      (hready : (service P).ready c b.journal.world) (hother : reserves id c = false) :
      Turn P id b
        { b with journal := { b.journal with active := some ⟨c, [], (service P).body c⟩ } }
  | reserve {b : Bench N E} {before after : List (N × Call)} {n : N} {c : Call}
      (hwaiting : b.waiting = before ++ (n, c) :: after) (hfree : b.journal.active = none)
      (hready : (service P).ready c b.journal.world) :
      Turn P id b
        { b with
          journal := { b.journal with active := some ⟨c, [], (service P).body c⟩ }
          waiting := before ++ after
          running := some n }
  | go {b : Bench N E} {s : State} (hstep : (service P).Step b.journal s)
      (hcall : s.active.map (·.call) = b.journal.active.map (·.call)) :
      Turn P id b { b with journal := s }
  | finish {b : Bench N E} {s : State} {r : Record} (hstep : (service P).Step b.journal s)
      (hdone : s.records = r :: b.journal.records) :
      Turn P id b { b with journal := s, running := none }
  | crash (b : Bench N E) :
      Turn P id b { b with journal := b.journal.crashed, waiting := [], running := none }

theorem Turn.step (h : Turn P id b b') : (service P).Step b.journal b'.journal := by
  cases h with
  | start c hfree hready _ => exact .start c hfree hready
  | reserve _ hfree hready => exact .start _ hfree hready
  | go hstep _ => exact hstep
  | finish hstep _ => exact hstep
  | crash => exact .crash _

/-- Whoever asked for the running reservation is known. -/
def Bench.Fair (id : String) (b : Bench N E) : Prop :=
  ∀ a, b.journal.active = some a → reserves id a.call = true → b.running.isSome

theorem idle_of_finish {s s' : State} {r : Record} (hstep : (service P).Step s s')
    (hdone : s'.records = r :: s.records) : s'.active = none := by
  have hne : ∀ l : List Record, l ≠ r :: l := fun l h => by
    simpa using congrArg List.length h
  cases hstep with
  | finish => rfl
  | _ => exact absurd hdone (hne _)

theorem Turn.fair (h : Turn P id b b') (hb : b.Fair id) : b'.Fair id := by
  intro a ha hr
  cases h with
  | start c hfree hready hother =>
    cases ha
    rw [hother] at hr
    cases hr
  | reserve => rfl
  | go hstep hcall =>
    rw [ha] at hcall
    cases hb₀ : b.journal.active with
    | none => simp [hb₀] at hcall
    | some a₀ =>
      refine hb a₀ hb₀ ?_
      simp only [hb₀, Option.map_some, Option.some.injEq] at hcall
      rw [← hcall]
      exact hr
  | finish hstep hdone =>
    rw [idle_of_finish hstep hdone] at ha
    cases ha
  | crash => cases ha

/-- The run has asked for the reservation, and it has not ended. -/
def Bench.Asked (id : String) (b : Bench N E) (n : N) (c : Call) : Prop :=
  (n, c) ∈ b.waiting ∨ b.running = some n ∧ reserves id c = true ∧
    b.journal.active.map (·.call) = some c

theorem Turn.asked (h : Turn P id b b') (ha : b'.Asked id n c) : b.Asked id n c := by
  cases h with
  | start c' hfree hready hother =>
    rcases ha with ha | ⟨_, hr, hcall⟩
    · exact .inl ha
    · cases hcall
      rw [hother] at hr
      cases hr
  | reserve hwaiting hfree hready =>
    rcases ha with ha | ⟨hrun, _, hcall⟩
    · refine .inl ?_
      rw [hwaiting]
      rcases List.mem_append.mp ha with ha | ha <;> simp [ha]
    · cases hrun
      cases hcall
      exact .inl (by simp [hwaiting])
  | go hstep hcall =>
    rcases ha with ha | ⟨hrun, hr, hcall'⟩
    · exact .inl ha
    · exact .inr ⟨hrun, hr, hcall ▸ hcall'⟩
  | finish hstep hdone =>
    rcases ha with ha | ⟨hrun, _⟩
    · exact .inl ha
    · cases hrun
  | crash =>
    rcases ha with ha | ⟨hrun, _⟩
    · cases ha
    · cases hrun

def Claims (P : Primitives) (c : Call) (row : Attempt) : Prop :=
  ∃ name attempt k, c = .beforeBroadcast name row.id row.replayKey attempt ∧
    identity name row.id = .ok k ∧ canonical attempt = .ok row.payload ∧
    row.digest = digestOf P row.payload

theorem Claims.unique {row row' : Attempt} (h : Claims P c row) (h' : Claims P c row') :
    row = row' := by
  obtain ⟨name, attempt, k, rfl, -, hpayload, hdigest⟩ := h
  obtain ⟨_, _, _, hcall, -, hpayload', hdigest'⟩ := h'
  obtain ⟨i, key, digest, payload⟩ := row
  obtain ⟨i', key', digest', payload'⟩ := row'
  cases hcall
  rw [hpayload] at hpayload'
  obtain rfl : payload = payload' := Except.ok.inj hpayload'
  rw [show digest = _ from hdigest, show digest' = _ from hdigest']

theorem Claims.mem {name i key : String} {attempt : Json} {row : Attempt} {db : Database}
    (h : Claims P (.beforeBroadcast name i key attempt) row) (ha : Attempted P i key attempt db) :
    row ∈ db.attempts := by
  obtain ⟨encoded, henc, hmem⟩ := ha
  obtain ⟨_, _, _, hcall, -, hpayload, hdigest⟩ := h
  obtain ⟨_, _, digest, payload⟩ := row
  cases hcall
  rw [henc] at hpayload
  obtain rfl : encoded = payload := Except.ok.inj hpayload
  rw [show digest = _ from hdigest]
  exact hmem

/-- **An attempt of the admission comes from the reservation that runs.** -/
theorem Turn.rows {w : Recovery.World} (hrun : Steps P (.initial w) b.journal) (hb : b.Fair id)
    (h : Turn P id b b') {row : Attempt} (hrow : row ∈ b'.db.attempts) (hnew : row ∉ b.db.attempts)
    (hid : row.id = id) : ∃ n c, b.running = some n ∧ b.Asked id n c ∧ Claims P c row := by
  obtain ⟨name, attempt, k, l, rest, hactive, hk, hpayload, hdigest⟩ :=
    attempts_by hrun h.step hrow hnew
  have hres : reserves id (.beforeBroadcast name row.id row.replayKey attempt) = true := by
    simpa [reserves] using hid
  obtain ⟨n, hn⟩ := Option.isSome_iff_exists.mp (hb _ hactive hres)
  refine ⟨n, _, hn, .inr ⟨hn, hres, ?_⟩, name, attempt, k, rfl, hk, hpayload, hdigest⟩
  rw [hactive]
  rfl

/-- An attempt of the id is recorded only while the run that asked for it holds the lock. -/
def Guarded (id : String) (holds : N → E → Prop) (b b' : Bench N E) : Prop :=
  ∀ row ∈ b'.db.attempts, row ∉ b.db.attempts → row.id = id →
    ∃ n, b.running = some n ∧ holds n b.rest

/-- Where the run holds the lock, no attempt of the id is recorded. -/
def Bench.Clear (id : String) (holds : N → E → Prop) (n : N) (b : Bench N E) : Prop :=
  holds n b.rest → ∀ row ∈ b.db.attempts, row.id ≠ id

theorem Turn.rest (h : Turn P id b b') : b'.rest = b.rest := by
  cases h <;> rfl

theorem Turn.clear {w : Recovery.World} {holds : N → E → Prop}
    (hrun : Steps P (.initial w) b.journal) (hb : b.Fair id) (h : Turn P id b b')
    (hguard : Guarded id holds b b') (hone : ∀ m, holds n b.rest → holds m b.rest → m = n)
    (hidle : ∀ c, ¬b.Asked id n c) (hclear : b.Clear id holds n) : b'.Clear id holds n := by
  intro hholds row hrow hid
  rw [h.rest] at hholds
  by_cases hold : row ∈ b.db.attempts
  · exact hclear hholds row hold hid
  obtain ⟨m, hm, hheld⟩ := hguard row hrow hold hid
  obtain ⟨m', c, hm', hasked, -⟩ := h.rows hrun hb hrow hold hid
  obtain rfl : m = m' := Option.some.inj (hm.symm.trans hm')
  obtain rfl := hone m hholds hheld
  exact hidle c hasked

theorem Turn.guarded {w : Recovery.World} {holds : N → E → Prop}
    (hrun : Steps P (.initial w) b.journal) (hb : b.Fair id) (h : Turn P id b b')
    (hholds : ∀ n, b.running = some n → holds n b.rest) : Guarded id holds b b' := by
  intro row hrow hold hid
  obtain ⟨n, -, hn, -⟩ := h.rows hrun hb hrow hold hid
  exact ⟨n, hn, hholds n hn⟩

/-! ## Whole calls -/

/-- Steps of the journal while nobody but `n` has a reservation running. -/
def Turns (P : Primitives) (id : String) (n : Option N) : Bench N E → Bench N E → Prop :=
  Relation.ReflTransGen fun b b' => Turn P id b b' ∧ ∀ m, b.running = some m → n = some m

theorem Turns.journal {n : Option N} (h : Turns P id n b b') :
    Steps P b.journal b'.journal ∧ (b.Fair id → b'.Fair id) ∧ b'.rest = b.rest := by
  induction h with
  | refl => exact ⟨.refl, fun h => h, rfl⟩
  | tail _ hstep ih =>
    obtain ⟨hjournal, hfair, hrest⟩ := ih
    exact ⟨hjournal.tail hstep.1.step, fun h => hstep.1.fair (hfair h), hstep.1.rest.trans hrest⟩

theorem Turns.rest {n : Option N} (hrun : ∀ m, b.running = some m → n = some m) {s : State}
    (h : Relation.ReflTransGen (service P).Runs b.journal s) :
    Turns P id n b { b with journal := s } := by
  induction h with
  | refl => exact .refl
  | @tail t t' _ hstep ih => exact ih.tail ⟨Turn.go (b := { b with journal := t }) hstep.1 hstep.2, hrun⟩

theorem Turns.begun {n : Option N} (now : Option ℕ) (s : State)
    (hrun : ∀ m, b.running = some m → n = some m) :
    Turns P id n
      { b with journal := { s with active := some ⟨c, [], (service P).body c⟩ } }
      { b with journal := State.after P now s c, running := none } := by
  refine Relation.ReflTransGen.tail (Turns.rest
    (b := { b with journal := { s with active := some ⟨c, [], (service P).body c⟩ } }) hrun
    (Service.Runs.rest (act_answer P now) ((service P).body c) rfl)) ?_
  exact ⟨Turn.finish (Service.Step.finish rfl) rfl, hrun⟩

theorem Turns.call (now : Option ℕ) (hfree : b.journal.active = none)
    (hready : b.journal.world.up = !c.offline) (hother : reserves id c = false)
    (hrun : b.running = none) :
    Turns P id none b { b with journal := State.after P now b.journal c, running := none } := by
  have hnone : ∀ m, b.running = some m → (none : Option N) = some m :=
    fun m hm => absurd (hrun.symm.trans hm) (Option.some_ne_none m).symm
  exact .head ⟨.start c hfree hready hother, hnone⟩ (Turns.begun now b.journal hnone)

theorem Turns.reserve (now : Option ℕ) {before after : List (N × Call)}
    (hwaiting : b.waiting = before ++ (n, c) :: after) (hfree : b.journal.active = none)
    (hready : b.journal.world.up = !c.offline) (hrun : b.running = none) :
    Turns P id (some n) b
      { b with
        journal := State.after P now b.journal c, waiting := before ++ after, running := none } := by
  have hnone : ∀ m, b.running = some m → some n = some m :=
    fun m hm => absurd (hrun.symm.trans hm) (Option.some_ne_none m).symm
  exact .head ⟨.reserve hwaiting hfree hready, hnone⟩
    (Turns.begun (b := { b with waiting := before ++ after, running := some n }) now b.journal
      fun _ hm => hm)

end Turns

/-! ## Runs -/

/-- Jobs `J` for one admission: their programs, what a read of the tables leaves behind in the rest
of the world, what a question to it does, what happens there meanwhile, and which steps the journal
takes. -/
structure Plan {X S : Type} (B : X → Type) (R : S → Type) (ε J N E : Type) (V : J → Type) where
  id : String
  name : J → N
  body : (j : J) → Work B R ε (V j)
  reads : N → (r : Read) → Result r.Value → E → E
  ext : J → (x : X) → E → B x → E → Prop
  env : E → E → Prop
  turn : Bench N E → Bench N E → Prop

namespace Plan

variable {X S ε J N E α β : Type} {B : X → Type} {R : S → Type} {V : J → Type}

/-- The effect of a query. A reservation of the id is only asked for. -/
def act (P : Primitives) (p : Plan B R ε J N E V) (j : J) : (q : Ask X S) → Bench N E →
    Answer B R q → Bench N E → Prop
  | .invoke c, b, ticket, b' => ticket = b.journal.begun ∧
    b' = if reserves p.id c then { b with waiting := (p.name j, c) :: b.waiting } else b
  | .await c ticket, b, a, b' => b' = b ∧ ((∃ e, a = .error e) ∨ ∃ l v,
      ⟨c, l, a, v⟩ ∈ b.journal.records.take (b.journal.records.length - ticket))
  | .read r, b, a, b' => (a = r.exec P b.db ∨ a = .error .storage) ∧
      b' = { b with rest := p.reads (p.name j) r a b.rest }
  | .outside e, b, a, b' => ∃ rest, p.ext j e b.rest a rest ∧ b' = { b with rest := rest }
  | .send _, b, _, b' => b' = b

/-- What happens outside of the runs. -/
inductive Outside (P : Primitives) (p : Plan B R ε J N E V) : Bench N E → Bench N E → Prop
  | turn {b b' : Bench N E} (hturn : Turn P p.id b b') (hallowed : p.turn b b') : Outside P p b b'
  | rest {b : Bench N E} {rest : E} (hrest : p.env b.rest rest) :
      Outside P p b { b with rest := rest }

def clients (P : Primitives) (p : Plan B R ε J N E V) :
    Clients (Ask X S) (Answer B R) (Bench N E) Unit Unit J N fun j => Except ε (V j) where
  name := p.name
  init _ := ()
  body j := (p.body j).run
  act j q x a _ y := p.act P j q x.2 a y.2
  hear _ own := own
  outside b _ b' := p.Outside P b b'

/-! ## Rules -/

section Rules

open Clients

variable {P : Primitives} {p : Plan B R ε J N E V}
variable {rely : N → Bench N E → Bench N E → Prop} {j : J}
variable {G : Bench N E → Bench N E → Prop} {F F' : Bench N E → Prop} {ε' ε'' : Type}

/-- From `F`, every action of the program keeps `G` and every result meets `K`. -/
def Triple (P : Primitives) (p : Plan B R ε J N E V) (rely : N → Bench N E → Bench N E → Prop)
    (j : J) (G : Bench N E → Bench N E → Prop) (F : Bench N E → Prop) (x : Work B R ε' α)
    (K : Except ε' α → Bench N E → Prop) : Prop :=
  (p.clients P).Triple (fun n _ => rely n) j (fun x y => G x.2 y.2) (fun x => F x.2) x.run
    fun r x => K r x.2

/-- A fact that lasts while the others go on, about a journal that was founded properly. -/
structure Lasts (P : Primitives) (p : Plan B R ε J N E V)
    (rely : N → Bench N E → Bench N E → Prop) (j : J) (F : Bench N E → Prop) : Prop where
  stable : ∀ b b', rely (p.name j) b b' → F b → F b'
  reached : ∀ b, F b → Reached P b.journal

theorem Lasts.clients (h : p.Lasts P rely j F) :
    (p.clients P).Stable (fun n _ => rely n) (p.name j) fun x => F x.2 :=
  fun _ _ b b' hrely hF => h.stable b b' hrely hF

namespace Triple

theorem weaken {x : Work B R ε' α} {K K' : Except ε' α → Bench N E → Prop}
    (hx : Triple P p rely j G F x K) (hF : ∀ b, F' b → F b) (hK : ∀ r b, K r b → K' r b) :
    Triple P p rely j G F' x K' :=
  Clients.Triple.weaken hx (fun x => hF x.2) fun r x => hK r x.2

theorem bind {x : Work B R ε' α} {f : α → Work B R ε' β} {M : Except ε' α → Bench N E → Prop}
    {K : Except ε' β → Bench N E → Prop} (hx : Triple P p rely j G F x M)
    (hf : ∀ a, Triple P p rely j G (M (.ok a)) (f a) K)
    (he : ∀ e b, M (.error e) b → K (.error e) b) : Triple P p rely j G F (x >>= f) K :=
  Clients.Triple.andThen hx hf fun e x => he e x.2

theorem adapt {f : ε' → ε''} {x : Work B R ε' α} {K : Except ε'' α → Bench N E → Prop}
    (hx : Triple P p rely j G F x fun r => K (r.mapError f)) :
    Triple P p rely j G F (ExceptT.adapt f x) K :=
  Clients.Triple.adapt hx

variable {K : Except ε' α → Bench N E → Prop}

theorem lift {r : Except ε' α} (h : ∀ b, F b → K r b) :
    Triple P p rely j G F (Executors.lift r) K := fun _ x hx => h x.2 hx

theorem ret {a : α} (h : ∀ b, F b → K (.ok a) b) :
    Triple P p rely j G F (pure a) K := fun _ x hx => h x.2 hx

theorem fail {e : ε'} (h : ∀ b, F b → K (.error e) b) :
    Triple P p rely j G F (throw e) K := fun _ x hx => h x.2 hx

theorem ask {e : X} {K : Except ε' (B e) → Bench N E → Prop} (hF : p.Lasts P rely j F)
    (h : ∀ b a rest, F b → p.ext j e b.rest a rest →
      G b { b with rest := rest } ∧ K (.ok a) { b with rest := rest }) :
    Triple P p rely j G F (Executors.ask e) K := by
  refine Clients.Triple.bind (Clients.Triple.query (q := Ask.outside e) hF.clients ?_)
    (M := fun a x => K (.ok a) x.2) fun a => Clients.Triple.done fun x hx => hx
  rintro ⟨_, b⟩ a _ ⟨_, _⟩ hx ⟨rest, hext, rfl⟩
  exact h b a rest hx hext

theorem send {m : S} {K : Except ε' (R m) → Bench N E → Prop} (hF : p.Lasts P rely j F)
    (h : ∀ b a, F b → G b b ∧ K (.ok a) b) :
    Triple P p rely j G F (Executors.send m) K := by
  refine Clients.Triple.bind (Clients.Triple.query (q := Ask.send m) hF.clients ?_)
    (M := fun a x => K (.ok a) x.2) fun a => Clients.Triple.done fun x hx => hx
  rintro ⟨_, b⟩ a _ ⟨_, _⟩ hx rfl
  exact h _ a hx

theorem read {r : Read} {K : Result r.Value → Bench N E → Prop} (hF : p.Lasts P rely j F)
    (h : ∀ b a, F b → (a = r.exec P b.db ∨ a = .error .storage) →
      G b { b with rest := p.reads (p.name j) r a b.rest } ∧
        K a { b with rest := p.reads (p.name j) r a b.rest }) :
    Triple P p rely j G F (Executors.read r) K := by
  have hquery : (p.clients P).Triple (fun n _ => rely n) j (fun x y => G x.2 y.2) (fun x => F x.2)
      (Task.query (Ask.read r) : Work B R RecoveryError (Result r.Value)).run
      (Triple.Outcome (fun a x => K a x.2) fun _ => False) := by
    refine Clients.Triple.ask hF.clients ?_
    rintro ⟨_, b⟩ a _ ⟨_, _⟩ hx ⟨ha, rfl⟩
    exact h b a hx ha
  exact hquery.andThen (fun a => lift fun b hb => hb) fun e x hx => False.elim hx

theorem capture {x : Work B R ε'' α} {K : Except ε'' α → Bench N E → Prop}
    (hx : Triple P p rely j G F x K) :
    Triple P p rely j G F (Executors.capture x : Work B R ε' (Except ε'' α))
      fun r b => ∃ r', r = .ok r' ∧ K r' b :=
  Clients.Triple.bind hx fun r => Clients.Triple.done fun _ hr => ⟨r, rfl, hr⟩

theorem within {Ψ : Ask X S → Prop} {x : Work B R ε' α} (hF : p.Lasts P rely j F)
    (hx : Within Ψ x) (h : ∀ q b a b', Ψ q → F b → p.act P j q b a b' → G b b' ∧ F b') :
    Triple P p rely j G F x fun _ => F :=
  Clients.Triple.only hF.clients hx fun q y a _ z hq hy hact => h q y.2 a z.2 hq hy hact

end Triple

/-- A value was returned by a call at some moment before. -/
def Answered (P : Primitives) (c : Call) (a : c.Value) (s : State) : Prop :=
  ∃ l t, Steps P t s ∧ Reached P t ∧ Granted P c a l t.world.db

theorem answered_of_record {c : Call} {a : c.Value} {l : Recovery.Log} {v : Recovery.World}
    {s : State} (hs : Reached P s) (hrec : (⟨c, l, .ok a, v⟩ : Record) ∈ s.records) :
    Answered P c a s := by
  obtain ⟨w, hfound, hsteps⟩ := hs
  obtain ⟨u, hu, hworld, hu'⟩ := Service.Steps.mem_since hsteps
    (r := ⟨c, l, .ok a, v⟩) (by simpa [Service.State.since, Service.State.initial] using hrec)
  refine ⟨l, u, hu', ⟨w, hfound, hu⟩, ?_⟩
  rw [hworld]
  exact (promise_of_record hfound hsteps hrec).1 a rfl

theorem Answered.attempted {kind id key : String} {attempt : Json} {u : Unit} {s : State}
    (h : Answered P (.beforeBroadcast kind id key attempt) u s) :
    Attempted P id key attempt s.world.db := by
  obtain ⟨l, t, hsteps, ht, k, encoded, old, db₀, db₁, -, -, henc, hg⟩ := h
  exact Attempted.extends ⟨encoded, henc, hg.broadcast.1⟩ (hsteps.extends ht.intact)

theorem Triple.invoke {c : Call} {K : Result c.Value → Bench N E → Prop}
    (hF : p.Lasts P rely j F) (hF' : p.Lasts P rely j F')
    (hother : reserves p.id c = false → ∀ b, F b → G b b ∧ F' b)
    (hask : reserves p.id c = true → ∀ b, F b →
      G b { b with waiting := (p.name j, c) :: b.waiting } ∧
        F' { b with waiting := (p.name j, c) :: b.waiting })
    (hfail : ∀ e b, F' b → G b b ∧ K (.error e) b)
    (hok : ∀ a b, F' b → Answered P c a b.journal → G b b ∧ K (.ok a) b) :
    Triple P p rely j G F (Executors.invoke c) K := by
  refine Clients.Triple.andThen (M := Triple.Outcome (fun _ x => F' x.2) fun _ => False)
    (x := Task.query (Ask.invoke c)) ?_ (fun ticket => ?_) fun e x hx => False.elim hx
  · refine Clients.Triple.ask hF.clients ?_
    rintro ⟨_, b⟩ a _ ⟨_, _⟩ hx ⟨_, rfl⟩
    split_ifs with hres
    · exact hask hres b hx
    · exact hother (by simpa using hres) b hx
  · have hquery : (p.clients P).Triple (fun n _ => rely n) j (fun x y => G x.2 y.2)
        (fun x => F' x.2)
        (Task.query (Ask.await c ticket) : Work B R RecoveryError (Result c.Value)).run
        (Triple.Outcome (fun a x => K a x.2) fun _ => False) := by
      refine Clients.Triple.ask hF'.clients ?_
      rintro ⟨_, b⟩ a _ ⟨_, _⟩ hx ⟨rfl, ha⟩
      rcases ha with ⟨e, rfl⟩ | ⟨l, v, hmem⟩
      · exact hfail e _ hx
      · cases a with
        | error e => exact hfail e _ hx
        | ok a =>
          exact hok a _ hx (answered_of_record (hF'.reached _ hx) (List.mem_of_mem_take hmem))
    exact hquery.andThen (fun a => lift fun b hb => hb) fun e x hx => False.elim hx

end Rules

/-! ## A run by itself -/

section Alone

variable {P : Primitives} {p : Plan B R ε J N E V} {j : J}

theorem steps_of_turns {n : Option N} {b b' : Bench N E} (h : Turns P p.id n b b')
    (hb : Reached P b.journal) (hfair : b.Fair p.id)
    (hturn : ∀ b₁ b₂, Reached P b₁.journal → b₁.Fair p.id → b₁.rest = b.rest →
      Turn P p.id b₁ b₂ → (∀ m, b₁.running = some m → n = some m) → p.turn b₁ b₂)
    (strands : List (Clients.Strand (Ask X S) (Answer B R) (Bench N E) Unit J
      fun j => Except ε (V j))) (names : List N) :
    (p.clients P).Steps ⟨b, strands, names⟩ ⟨b', strands, names⟩ := by
  induction h with
  | refl => exact .refl
  | @tail b₁ b₂ hturns hstep ih =>
    obtain ⟨hjournal, hkept, hrest⟩ := Turns.journal hturns
    obtain ⟨w, hfound, hsteps⟩ := hb
    have hout := Clients.Step.outside (S := p.clients P) (t := ()) (s := ⟨b₁, strands, names⟩)
      (.turn hstep.1 (hturn b₁ b₂ ⟨w, hfound, hsteps.trans hjournal⟩ (hkept hfair) hrest hstep.1
        hstep.2))
    -- nobody hears of it
    have hsame : strands.map (Clients.Strand.hears (p.clients P).hear ()) = strands :=
      List.map_id'' (fun _ => rfl) strands
    rw [hsame] at hout
    exact ih.tail hout

/-- Answers for a run that is alone with the journal: a call that reserves nothing runs when it is
awaited. -/
def solo (P : Primitives) (p : Plan B R ε J N E V) (j : J) (ext : (x : X) → E → B x × E)
    (ack : (m : S) → R m) : (q : Ask X S) → Unit × Bench N E → Answer B R q × (Unit × Bench N E)
  | .invoke c, x => (x.2.journal.begun, (),
      if reserves p.id c then { x.2 with waiting := (p.name j, c) :: x.2.waiting } else x.2)
  | .await c ticket, x =>
    if x.2.journal.active.isNone ∧ x.2.journal.world.up = !c.offline ∧
        ticket ≤ x.2.journal.records.length ∧ reserves p.id c = false ∧ x.2.running.isNone then
      (((service P).body c).exec (answer P none) x.2.journal.world |>.1, (),
        { x.2 with journal := State.after P none x.2.journal c, running := none })
    else (.error .storage, x)
  | .read r, x => (r.exec P x.2.db, (),
      { x.2 with rest := p.reads (p.name j) r (r.exec P x.2.db) x.2.rest })
  | .outside x, b => ((ext x b.2.rest).1, (), { b.2 with rest := (ext x b.2.rest).2 })
  | .send m, x => (ack m, x)

theorem solo_answers {ext : (x : X) → E → B x × E} (ack : (m : S) → R m)
    (hext : ∀ x e, p.ext j x e (ext x e).1 (ext x e).2)
    (hturn : ∀ b₁ b₂, Reached P b₁.journal → b₁.Fair p.id → Turn P p.id b₁ b₂ →
      b₁.running = none → p.turn b₁ b₂) :
    (p.clients P).Answers (fun b => Reached P b.journal ∧ b.Fair p.id) j (p.solo P j ext ack) := by
  intro q k b l log names hb
  have hact : ∀ b₁ b₂ a, (p.clients P).Steps ⟨b, [⟨j, l, log, .ask q k⟩], names⟩
      ⟨b₁, [⟨j, l, log, .ask q k⟩], names⟩ → p.act P j q b₁ a b₂ →
      ∃ log', (p.clients P).Steps ⟨b, [⟨j, l, log, .ask q k⟩], names⟩
        ⟨b₂, [⟨j, (), log', k a⟩], names⟩ := by
    intro b₁ b₂ a hsteps hact
    have hact : (p.clients P).act j q (l, b₁) a () ((), b₂) := hact
    have hone : [(⟨j, l, log, .ask q k⟩ : Clients.Strand (Ask X S) (Answer B R) (Bench N E) Unit J
        fun j => Except ε (V j))] = [] ++ ⟨j, l, log, .ask q k⟩ :: [] := rfl
    have hstep := Clients.Step.act (s := ⟨b₁, [⟨j, l, log, .ask q k⟩], names⟩) hone hact
    exact ⟨_, hsteps.tail hstep⟩
  cases q with
  | invoke c =>
    refine ⟨?_, hact b _ _ .refl ⟨rfl, rfl⟩⟩
    simp only [solo]
    split_ifs <;> exact hb
  | read r => exact ⟨hb, hact b _ _ .refl ⟨.inl rfl, rfl⟩⟩
  | outside x => exact ⟨hb, hact b _ _ .refl ⟨_, hext x b.rest, rfl⟩⟩
  | send m => exact ⟨hb, hact b _ _ .refl rfl⟩
  | await c ticket =>
    simp only [solo]
    split_ifs with hready
    · obtain ⟨hfree, hup, hticket, hother, hrun⟩ := hready
      have hcall := Turns.call (P := P) none (Option.isNone_iff_eq_none.mp hfree) hup hother
        (Option.isNone_iff_eq_none.mp hrun)
      obtain ⟨hjournal, hfair, -⟩ := Turns.journal hcall
      obtain ⟨w, hfound, hsteps⟩ := hb.1
      refine ⟨⟨⟨w, hfound, hsteps.trans hjournal⟩, hfair hb.2⟩, hact _ _ _ (steps_of_turns hcall
        hb.1 hb.2 (fun b₁ b₂ hb₁ hfair₁ _ hstep hnone => hturn b₁ b₂ hb₁ hfair₁ hstep ?_) _ _)
        ⟨rfl, .inr ?_⟩⟩
      · cases hrunning : b₁.running with
        | none => rfl
        | some m => cases hnone m hrunning
      · have hlen : (State.after P none b.journal c).records.length - ticket
            = b.journal.records.length - ticket + 1 := by
          change b.journal.records.length + 1 - ticket = _
          omega
        rw [hlen]
        exact ⟨_, _, List.mem_cons_self⟩
    · exact ⟨hb, hact b _ _ .refl ⟨rfl, .inl ⟨_, rfl⟩⟩⟩

end Alone

end Plan

end EngineCore.Executors
