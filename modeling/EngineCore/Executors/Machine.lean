import EngineCore.Lib.Pool
import EngineCore.Recovery.Grant

/-!
# Workers over the journal

A worker is a program that calls the journal, reads its tables outside the lock, asks the rest of
the world (Redis, nodes, signers, clocks) and hands messages to the network. Nothing is assumed of
the answers of the rest of the world. A call of the journal runs in the journal's own task: the
worker registers it and later takes the answer of a call that has returned since.

* **`sends_of_steps`**: in every run of any number of such workers, with abandoned ones, crashes and
  any other use of the journal, every message sent meets what each worker alone was shown to meet.
-/

namespace EngineCore.Executors

open Interact Recovery

/-! ## Queries -/

/-- A read of the tables outside the journal's lock. -/
inductive Read
  | admission (kind : Kind) (id : String)
  | terminalEvidence (kind : Kind) (id : String)
  | latestEoaAttempt (id key : String)
  | attemptIdentity (kind : Kind) (id : String) (identity : Json)
  | chainHealth (chain : String)
  | checkpoint (chain : String)

@[reducible] def Read.Value : Read → Type
  | .admission .. => Option AdmissionRecord
  | .terminalEvidence .. => Option Json
  | .latestEoaAttempt .. => Option Json
  | .attemptIdentity .. => Unit
  | .chainHealth _ => Unit
  | .checkpoint _ => Option FinalityEvidence

def Read.exec (P : Primitives) : (r : Read) → Database → Result r.Value
  | .admission kind id => Database.admission kind id
  | .terminalEvidence kind id => Database.terminalEvidence kind id
  | .latestEoaAttempt id key => Database.latestEoaAttempt id key
  | .attemptIdentity kind id identity => Database.attemptIdentity P kind id identity
  | .chainHealth chain => fun db => db.ensureChainNotHalted chain
  | .checkpoint chain => fun db => .ok (db.checkpointOf chain)

/-- What a worker asks: `X` of the rest of the world, and messages `S` to the network. -/
inductive Ask (X S : Type)
  | invoke (c : Call)
  | await (c : Call) (ticket : ℕ)
  | read (r : Read)
  | outside (x : X)
  | send (m : S)

/-- The answers. A registered call gets a ticket, the number of calls that have begun so far. -/
@[reducible] def Answer {X S : Type} (B : X → Type) (R : S → Type) : Ask X S → Type
  | .invoke _ => ℕ
  | .await c _ => Result c.Value
  | .read r => Result r.Value
  | .outside x => B x
  | .send m => R m

/-! ## The world of the workers -/

/-- A message given to the network, with the journal's tables at that moment. -/
structure Sent (S : Type) where
  message : S
  db : Database

structure World (S : Type) where
  journal : State
  sent : List (Sent S)

variable {X S ε α β : Type} {B : X → Type} {R : S → Type} {P : Primitives}

def World.db (w : World S) : Database := w.journal.world.db

def World.sending (w : World S) (m : S) : World S := { w with sent := w.sent ++ [⟨m, w.db⟩] }

/-- The effect of a query. A call whose task could not be started or was lost fails. -/
def act (P : Primitives) (B : X → Type) (R : S → Type) :
    (q : Ask X S) → World S → Answer B R q → World S → Prop
  | .invoke _, w, ticket, w' => ticket = w.journal.begun ∧ w' = w
  | .await c ticket, w, a, w' => w' = w ∧ ((∃ e, a = .error e) ∨ ∃ l v,
      ⟨c, l, a, v⟩ ∈ w.journal.records.take (w.journal.records.length - ticket))
  | .read r, w, a, w' => w' = w ∧ (a = r.exec P w.db ∨ a = .error .storage)
  | .outside _, w, _, w' => w' = w
  | .send m, w, _, w' => w' = w.sending m

/-- Meanwhile the journal goes on and other workers send. -/
structure Later (P : Primitives) (w w' : World S) : Prop where
  journal : Steps P w.journal w'.journal
  sent : w.sent <+: w'.sent

theorem Later.refl (w : World S) : Later P w w := ⟨.refl, List.prefix_rfl⟩

theorem Later.trans {w₁ w₂ w₃ : World S} (h : Later P w₁ w₂) (h' : Later P w₂ w₃) :
    Later P w₁ w₃ :=
  ⟨h.journal.trans h'.journal, h.sent.trans h'.sent⟩

theorem Later.of_journal {w w' : World S} (h : Steps P w.journal w'.journal)
    (hsent : w'.sent = w.sent) : Later P w w' :=
  ⟨h, hsent ▸ List.prefix_rfl⟩

def machine (P : Primitives) (B : X → Type) (R : S → Type) :
    Machine (Ask X S) (Answer B R) (World S) where
  env := Later P
  act := act P B R

theorem act_cases {q : Ask X S} {w w' : World S} {a : Answer B R q} (h : act P B R q w a w') :
    w' = w ∨ ∃ m, w' = w.sending m := by
  cases q with
  | invoke => exact .inl h.2
  | await => exact .inl h.1
  | read => exact .inl h.1
  | outside => exact .inl h
  | send m => exact .inr ⟨m, h⟩

theorem act_later {q : Ask X S} {w w' : World S} {a : Answer B R q} (h : act P B R q w a w') :
    Later P w w' := by
  rcases act_cases h with rfl | ⟨m, rfl⟩
  · exact .refl _
  · exact ⟨.refl, List.prefix_append _ _⟩

/-! ## Programs -/

abbrev Work (B : X → Type) (R : S → Type) (ε α : Type) : Type := Task (Ask X S) (Answer B R) ε α

def lift (r : Except ε α) : Work B R ε α := ExceptT.mk (Prog.done r)

def invoke (c : Call) : Work B R RecoveryError c.Value := do
  let ticket ← Task.query (.invoke c)
  let r ← Task.query (.await c ticket)
  lift r

def read (r : Read) : Work B R RecoveryError r.Value := do
  let a ← Task.query (.read r)
  lift a

def ask (x : X) : Work B R ε (B x) := Task.query (Q := Ask X S) (A := Answer B R) (.outside x)

def send (m : S) : Work B R ε (R m) := Task.query (Q := Ask X S) (A := Answer B R) (.send m)

variable {ε' : Type}

/-- Take the outcome of a program as a value. -/
def capture (x : Work B R ε α) : Work B R ε' (Except ε α) :=
  ExceptT.mk (x.run.bind fun r => .done (.ok r))

/-! ## Specifications -/

/-- The journal was founded properly and has run since. -/
def Reached (P : Primitives) (s : State) : Prop :=
  ∃ w₀ : Recovery.World, Founded w₀.db ∧ Steps P (.initial w₀) s

theorem Reached.later {w w' : World S} (h : Reached P w.journal) (hl : Later P w w') :
    Reached P w'.journal := by
  obtain ⟨w₀, hf, hs⟩ := h
  exact ⟨w₀, hf, hs.trans hl.journal⟩

theorem Reached.intact {s : State} (h : Reached P s) : s.world.db.Intact := by
  obtain ⟨w₀, hf, hs⟩ := h
  exact hs.intact hf.intact

theorem Reached.extends {w w' : World S} (h : Reached P w.journal) (hl : Later P w w') :
    w.db.Extends w'.db :=
  hl.journal.extends h.intact

/-- An action sends nothing, or a message that meets `Φ`. -/
def Sends (Φ : S → Database → Prop) (w w' : World S) : Prop :=
  w' = w ∨ ∃ m, Φ m w.db ∧ w' = w.sending m

/-- Whatever happens meanwhile, the program sends only messages that meet `Φ`, and a value it
returns meets `K`. -/
structure Does (P : Primitives) (Φ : S → Database → Prop) (w : World S) (x : Work B R ε α)
    (K : α → World S → Prop) : Prop where
  sat : Reached P w.journal →
    Sat (machine P B R) (Sends Φ) (fun r _ w' => ∀ a, r = .ok a → K a w') x.run [] w

/-- Between `w` and `w'` the call `c` ran and returned `a`. -/
def Returned (P : Primitives) (c : Call) (a : c.Value) (w w' : World S) : Prop :=
  ∃ l t, Steps P w.journal t ∧ Steps P t w'.journal ∧ Granted P c a l t.world.db ∧
    ∀ e ∈ l, (service P).Made w.journal t e

theorem Returned.later {c : Call} {a : c.Value} {w w₁ w' : World S} (h : Returned P c a w₁ w')
    (hl : Later P w w₁) : Returned P c a w w' := by
  obtain ⟨l, t, ht, ht', hg, hmade⟩ := h
  refine ⟨l, t, hl.journal.trans ht, ht', hg, fun e he => ?_⟩
  obtain ⟨u, u', hu, hrest⟩ := hmade e he
  exact ⟨u, u', hl.journal.trans hu, hrest⟩

theorem Returned.mono {c : Call} {a : c.Value} {w w₁ w' : World S} (h : Returned P c a w w₁)
    (hl : Later P w₁ w') : Returned P c a w w' := by
  obtain ⟨l, t, ht, ht', hg⟩ := h
  exact ⟨l, t, ht, ht'.trans hl.journal, hg⟩

section Rules

variable {Φ : S → Database → Prop} {w : World S} {K : α → World S → Prop} {x : Work B R ε α}

theorem Does.of_reached
    (h : Reached P w.journal → Does P Φ w x K) : Does P Φ w x K :=
  ⟨fun hw => (h hw).sat hw⟩

theorem Does.mono {K K' : α → World S → Prop} (hx : Does P Φ w x K)
    (hK : ∀ a w', Later P w w' → Reached P w'.journal → K a w' → K' a w') :
    Does P Φ w x K' := by
  refine ⟨fun hw => ?_⟩
  refine ((hx.sat hw).follows Later.refl (fun _ _ _ => Later.trans)
    (fun _ _ _ _ => act_later)).post_mono ?_
  rintro r _ w' ⟨hr, hl⟩ a rfl
  exact hK a w' hl (hw.later hl) (hr a rfl)

theorem Does.ret {a : α} (h : K a w) :
    Does P Φ w (pure a : Work B R ε α) K := by
  refine ⟨fun _ => ?_⟩
  rintro b ⟨⟩
  exact h

theorem Does.lift {r : Except ε α} (h : ∀ a, r = .ok a → K a w) :
    Does P Φ w (lift r : Work B R ε α) K := ⟨fun _ => h⟩

theorem Does.fail {e : ε} :
    Does P Φ w (throw e : Work B R ε α) K := by
  refine ⟨fun _ => ?_⟩
  rintro b ⟨⟩

/-- **Sequencing.** -/
theorem Does.bind {x : Work B R ε β} {f : β → Work B R ε α} {M : β → World S → Prop}
    (hx : Does P Φ w x M)
    (hf : ∀ b w', Later P w w' → Reached P w'.journal → M b w' → Does P Φ w' (f b) K) :
    Does P Φ w (x >>= f) K := by
  refine ⟨fun hw => ?_⟩
  rw [sat_run_bind]
  refine ((hx.sat hw).follows Later.refl (fun _ _ _ => Later.trans)
    (fun _ _ _ _ => act_later)).post_mono ?_
  rintro (e | b) l w' ⟨hr, hl⟩
  · rintro a ⟨⟩
  · have hw' := hw.later hl
    exact ((hf b w' hl hw' (hr b rfl)).sat hw').relog l

theorem Does.check {r : Except ε β} {f : β → Work B R ε α}
    (hf : ∀ b, r = .ok b → Does P Φ w (f b) K) : Does P Φ w (Executors.lift r >>= f) K := by
  cases r with
  | error e =>
    refine ⟨fun _ => ?_⟩
    rintro a ⟨⟩
  | ok b => exact ⟨(hf b rfl).sat⟩

theorem Does.query {q : Ask X S} {K : Answer B R q → World S → Prop}
    (h : ∀ w₁ a w₂, Later P w w₁ → act P B R q w₁ a w₂ → Sends Φ w₁ w₂ ∧ K a w₂) :
    Does P Φ w (Task.query q : Work B R ε (Answer B R q)) K := by
  refine ⟨fun _ w₁ hl a w₂ hact => ?_⟩
  obtain ⟨hs, hK⟩ := h w₁ a w₂ hl hact
  refine ⟨hs, ?_⟩
  rintro b ⟨⟩
  exact hK

theorem Does.adapt {f : ε → ε'}
    (hx : Does P Φ w x K) : Does P Φ w (ExceptT.adapt f x) K := by
  refine ⟨fun hw => ?_⟩
  refine (sat_bind (M := machine P B R) (G := Sends Φ) x.run _).mpr ((hx.sat hw).post_mono ?_)
  rintro (e | a) l w' h b hb
  · cases hb
  · cases hb
    exact h a rfl

theorem Does.capture
    (hx : Does P Φ w x K) :
    Does P Φ w (capture x : Work B R ε' (Except ε α)) fun r w' => ∀ a, r = .ok a → K a w' := by
  refine ⟨fun hw => (sat_bind (M := machine P B R) (G := Sends Φ) x.run _).mpr ?_⟩
  refine (hx.sat hw).post_mono fun r l w' h b hb => ?_
  cases hb
  exact h

theorem Does.ask (x : X) : Does P Φ w (ask x : Work B R ε (B x)) fun _ _ => True :=
  .query (q := .outside x) fun _ _ _ _ hact => ⟨.inl hact, trivial⟩

theorem Does.send {m : S} (h : ∀ w', Later P w w' → Reached P w'.journal → Φ m w'.db) :
    Does P Φ w (send m : Work B R ε (R m)) fun _ _ => True := by
  refine ⟨fun hw => (Does.query (q := .send m) (K := fun _ _ => True) ?_).sat hw⟩
  intro w₁ a w₂ hl hact
  exact ⟨.inr ⟨m, h w₁ hl (hw.later hl), hact⟩, trivial⟩

theorem Does.read (r : Read) :
    Does P Φ w (read r : Work B R RecoveryError r.Value) fun a w' => r.exec P w'.db = .ok a := by
  refine Does.bind (M := fun a w' => a = r.exec P w'.db ∨ a = .error .storage)
    (.query ?_) ?_
  · rintro w₁ a w₂ _ ⟨rfl, ha⟩
    exact ⟨.inl rfl, ha⟩
  · rintro a w' _ _ ha
    refine .lift ?_
    rintro b rfl
    rcases ha with ha | ha
    · exact ha.symm
    · cases ha

/-- **A call** that succeeds returned at some moment since it was made. -/
theorem Does.invoke (c : Call) :
    Does P Φ w (invoke c : Work B R RecoveryError c.Value) fun a w' => Returned P c a w w' := by
  refine Does.bind (M := fun ticket w₁ => ticket = w₁.journal.begun ∧ Later P w w₁) (.query ?_) ?_
  · rintro w₁ ticket w₂ hl ⟨rfl, rfl⟩
    exact ⟨.inl rfl, rfl, hl⟩
  rintro ticket w₁ _ hw₁ ⟨rfl, hl₁⟩
  refine Does.bind (M := fun a w₂ => ∀ v, a = .ok v → Returned P c v w₁ w₂) (.query ?_) ?_
  · rintro w₂ a w₃ hl₂ ⟨rfl, ha⟩
    refine ⟨.inl rfl, ?_⟩
    rintro v rfl
    obtain ⟨e, ⟨⟩⟩ | ⟨l, u, hmem⟩ := ha
    obtain ⟨t, ht, hwt, ht', hmade⟩ := Service.Steps.ended hl₂.journal hmem
    obtain ⟨w₀, hf, hs⟩ := hw₁.later hl₂
    have hgrant : Granted P c v l u.db :=
      (promise_of_record hf hs (List.mem_of_mem_take hmem)).1 v rfl
    exact ⟨l, t, ht, ht', by rw [hwt]; exact hgrant, hmade⟩
  · intro a w₂ _ _ ha
    exact .lift fun v hv => (ha v hv).later hl₁

variable {l : List (Entry (Ask X S) (Answer B R) (World S))}

theorem Does.played (hx : Does P Φ w x K)
    (hw : Reached P w.journal) {a : α}
    {w' : World S} (hp : Played (machine P B R) x.run w l (.ok a) w') :
    ∃ w₁, Later P w w₁ ∧ Later P w₁ w' ∧ K a w₁ := by
  have hsat := (hx.sat hw).follows Later.refl (fun _ _ _ => Later.trans) fun _ _ _ _ => act_later
  obtain ⟨w₁, hlater, hK, hw₁⟩ := hsat.played hp
  exact ⟨w₁, hw₁, hlater, hK a rfl⟩

theorem played_bind {x : Work B R ε β} {f : β → Work B R ε α}
    {r : Except ε α} {w' : World S}
    (hp : Played (machine P B R) (x >>= f).run w l r w') :
    (∃ e, r = .error e ∧ Played (machine P B R) x.run w l (.error e) w') ∨
      ∃ b l₁ l₂ w₁, l = l₁ ++ l₂ ∧ Played (machine P B R) x.run w l₁ (.ok b) w₁ ∧
        Played (machine P B R) (f b).run w₁ l₂ r w' :=
  Played.of_run_bind (M := machine P B R) Later.refl (fun _ _ _ => Later.trans) hp

theorem played_adapt {f : ε → ε'}
    {a : α} {w' : World S}
    (hp : Played (machine P B R) (ExceptT.adapt f x).run w l (.ok a) w') :
    Played (machine P B R) x.run w l (.ok a) w' := by
  obtain ⟨r, l₁, l₂, w₁, rfl, hx, rfl, hr, hlater⟩ :=
    Played.of_bind (M := machine P B R) Later.refl (p := x.run) hp
  cases r with
  | error e => cases hr
  | ok b =>
    cases hr
    rw [List.append_nil]
    exact hx.env (fun _ _ _ => Later.trans) hlater

def Heard (l : List (Entry (Ask X S) (Answer B R) (World S))) (x : X) (a : B x) : Prop :=
  ∃ w w', (⟨.outside x, a, w, w'⟩ : Entry (Ask X S) (Answer B R) (World S)) ∈ l

theorem played_ask {x : X} {a : B x}
    {w' : World S} (hp : Played (machine P B R) (ask x : Work B R ε (B x)).run w l (.ok a) w') :
    Heard l x a := by
  obtain ⟨w₁, b, w₂, l', _, _, rfl, _, hb, _⟩ := hp
  cases hb
  exact ⟨w₁, w₂, List.mem_cons_self⟩

theorem Heard.mono {x : X} {a : B x} {l l' : List (Entry (Ask X S) (Answer B R) (World S))}
    (h : Heard l x a) (hl : l ⊆ l') : Heard l' x a := by
  obtain ⟨w, w', hmem⟩ := h
  exact ⟨w, w', hl hmem⟩

theorem Played.later {p : Prog (Ask X S) (Answer B R) α} {r : α} {w' : World S}
    (hp : Played (machine P B R) p w l r w') : Later P w w' := by
  induction p generalizing w l with
  | done a => exact hp.2.2
  | ask q k ih =>
    obtain ⟨w₁, a, w₂, l', henv, hact, _, hk⟩ := hp
    exact (Later.trans henv (act_later hact)).trans (ih a hk)

end Rules

/-! ## Programs that send nothing -/

/-- The program sends no message, whatever it returns. -/
def Still (P : Primitives) (p : Prog (Ask X S) (Answer B R) α) : Prop :=
  ∀ (Φ : S → Database → Prop) (w : World S), Reached P w.journal →
    Sat (machine P B R) (Sends Φ) (fun _ _ _ => True) p [] w

theorem Still.bind {p : Prog (Ask X S) (Answer B R) β} {f : β → Prog (Ask X S) (Answer B R) α}
    (hp : Still P p) (hf : ∀ b, Still P (f b)) : Still P (p.bind f) := by
  intro Φ w hw
  refine (sat_bind (M := machine P B R) (G := Sends Φ) p f).mpr ?_
  refine ((hp Φ w hw).follows Later.refl (fun _ _ _ => Later.trans)
    (fun _ _ _ _ => act_later)).post_mono ?_
  rintro b l w' ⟨-, hl⟩
  exact (hf b Φ w' (hw.later hl)).relog l

theorem Still.outside (x : X) :
    Still P (Prog.query (Ask.outside x) : Prog (Ask X S) (Answer B R) (B x)) :=
  fun _ _ _ _ _ _ _ hact => ⟨.inl hact, trivial⟩

def Silent (P : Primitives) (x : Work B R ε α) : Prop :=
  ∀ (Φ : S → Database → Prop) (w : World S), Does P Φ w x fun _ _ => True

namespace Silent

theorem of_still {p : Prog (Ask X S) (Answer B R) (Except ε α)} (hp : Still P p) :
    Silent P (ExceptT.mk p : Work B R ε α) :=
  fun Φ w => ⟨fun hw => (hp Φ w hw).post_mono fun _ _ _ _ _ _ => trivial⟩

theorem ret (a : α) : Silent P (pure a : Work B R ε α) := fun _ _ => .ret trivial

theorem lift (r : Except ε α) : Silent P (Executors.lift r : Work B R ε α) :=
  fun _ _ => .lift fun _ _ => trivial

theorem fail (e : ε) : Silent P (throw e : Work B R ε α) := fun _ _ => .fail

theorem bind {x : Work B R ε β} {f : β → Work B R ε α} (hx : Silent P x)
    (hf : ∀ b, Silent P (f b)) : Silent P (x >>= f) :=
  fun Φ w => (hx Φ w).bind fun b w' _ _ _ => hf b Φ w'

theorem ask (x : X) : Silent P (Executors.ask x : Work B R ε (B x)) := fun _ _ => .ask x

theorem read (r : Read) : Silent P (Executors.read r : Work B R RecoveryError r.Value) :=
  fun _ _ => (Does.read r).mono fun _ _ _ _ _ => trivial

theorem invoke (c : Call) : Silent P (Executors.invoke c : Work B R RecoveryError c.Value) :=
  fun _ _ => (Does.invoke c).mono fun _ _ _ _ _ => trivial

theorem adapt {f : ε → ε'} {x : Work B R ε α} (hx : Silent P x) :
    Silent P (ExceptT.adapt f x) :=
  fun Φ w => (hx Φ w).adapt

end Silent

/-! ## What a program asks -/

/-- Whatever the answers, the program puts only queries that meet `Ψ`. -/
def Within (Ψ : Ask X S → Prop) (x : Work B R ε α) : Prop := x.run.Only Ψ

/-- A program that only asks the outside sends nothing. -/
theorem Silent.of_outside {x : Work B R ε α} (hx : Within (fun q => ∃ e, q = .outside e) x) :
    Silent P x := by
  have key : ∀ p : Prog (Ask X S) (Answer B R) (Except ε α),
      p.Only (fun q => ∃ e, q = .outside e) → Still P p := by
    intro p hp
    induction p with
    | done r => exact fun _ _ _ => trivial
    | ask q k ih =>
      obtain ⟨⟨e, rfl⟩, hk⟩ := hp
      exact (Still.outside e).bind fun a => ih a (hk a)
  exact .of_still (key x.run hx)

namespace Within

variable {Ψ : Ask X S → Prop}

theorem ret (a : α) : Within Ψ (pure a : Work B R ε α) := trivial

theorem lift (r : Except ε α) : Within Ψ (Executors.lift r : Work B R ε α) := trivial

theorem fail (e : ε) : Within Ψ (throw e : Work B R ε α) := trivial

theorem bind {x : Work B R ε β} {f : β → Work B R ε α} (hx : Within Ψ x)
    (hf : ∀ b, Within Ψ (f b)) : Within Ψ (x >>= f) :=
  Prog.Only.seq hx hf

theorem ask {x : X} (h : Ψ (.outside x)) : Within Ψ (Executors.ask x : Work B R ε (B x)) :=
  ⟨h, fun _ => trivial⟩

theorem send {m : S} (h : Ψ (.send m)) : Within Ψ (Executors.send m : Work B R ε (R m)) :=
  ⟨h, fun _ => trivial⟩

theorem read {r : Read} (h : Ψ (.read r)) :
    Within Ψ (Executors.read r : Work B R RecoveryError r.Value) :=
  ⟨h, fun _ => trivial⟩

theorem invoke {c : Call} (h : Ψ (.invoke c)) (h' : ∀ ticket, Ψ (.await c ticket)) :
    Within Ψ (Executors.invoke c : Work B R RecoveryError c.Value) :=
  ⟨h, fun ticket => ⟨h' ticket, fun _ => trivial⟩⟩

theorem adapt {f : ε → ε'} {x : Work B R ε α} (hx : Within Ψ x) :
    Within Ψ (ExceptT.adapt f x) :=
  Prog.Only.bind hx fun _ => trivial

theorem capture {x : Work B R ε α} (hx : Within Ψ x) :
    Within Ψ (Executors.capture x : Work B R ε' (Except ε α)) :=
  Prog.Only.bind hx fun _ => trivial

theorem silent {x : Work B R ε α} (hx : Within Ψ x) (hΨ : ∀ m, ¬Ψ (.send m)) : Silent P x := by
  refine fun Φ w => ⟨fun _ => ?_⟩
  have hstill : ∀ (p : Prog (Ask X S) (Answer B R) (Except ε α)) l w, p.Only Ψ →
      Sat (machine P B R) (Sends Φ) (fun r _ _ => ∀ a, r = .ok a → True) p l w := by
    intro p
    induction p with
    | done r => exact fun _ _ _ _ _ => trivial
    | ask q k ih =>
      intro l w hp w₁ _ a w₂ hact
      refine ⟨?_, ih a _ _ (hp.2 a)⟩
      cases q with
      | send m => exact absurd hp.1 (hΨ m)
      | invoke => exact .inl hact.2
      | await => exact .inl hact.1
      | read => exact .inl hact.1
      | outside => exact .inl hact
  exact hstill x.run [] w hx

end Within

/-! ## Any number of workers -/

section Workers

variable {J : Type} {V : J → Type} {body : (j : J) → Work B R ε (V j)} {Φ : S → Database → Prop}

/-- Workers side by side. Outside of them the journal answers other callers, crashes and is opened
again. -/
def pool (P : Primitives) (body : (j : J) → Work B R ε (V j)) :
    Pool (Ask X S) (Answer B R) (World S) J (fun j => Except ε (V j)) where
  machine := machine P B R
  body j := (body j).run
  outside w w' := Steps P w.journal w'.journal ∧ w'.sent = w.sent

/-- The journal has run properly and every message met `Φ` when it was sent. -/
def Kept (P : Primitives) (Φ : S → Database → Prop) (w : World S) : Prop :=
  Reached P w.journal ∧ ∀ d ∈ w.sent, Φ d.message d.db

theorem Kept.sends {w w' : World S} (h : Kept P Φ w) (hs : Sends Φ w w') : Kept P Φ w' := by
  rcases hs with rfl | ⟨m, hm, rfl⟩
  · exact h
  refine ⟨h.1, fun d hd => ?_⟩
  rcases List.mem_append.mp hd with hd | hd
  · exact h.2 d hd
  · obtain rfl := List.mem_singleton.mp hd
    exact hm

theorem pool_sound {K : (j : J) → World S → V j → World S → Prop}
    (hstable : ∀ j w₀ a w w', Later P w w' → K j w₀ a w → K j w₀ a w')
    (h : ∀ j w, Does P Φ w (body j) (K j w)) :
    (pool P body).Sound (Kept P Φ) (fun _ => Sends Φ)
      (fun j w₀ r _ w => ∀ a, r = .ok a → K j w₀ a w) where
  refl := Later.refl
  trans _ _ _ := Later.trans
  others _ _ _ _ := act_later
  outer _ _ hout := .of_journal hout.1 hout.2
  stable j w₀ _ _ w w' hl hr a ha := hstable j w₀ a w w' hl (hr a ha)
  env _ _ hw hout := ⟨hw.1.later (.of_journal hout.1 hout.2), by rw [hout.2]; exact hw.2⟩
  act _ _ _ _ _ hw _ hs := hw.sends hs
  body j w hw := (h j w).sat hw.1

variable {s : Pool.State (Ask X S) (Answer B R) (World S) J (fun j => Except ε (V j))}

/-- **Every message sent in a run meets `Φ`** at the journal's tables of that moment. -/
theorem sends_of_steps (h : ∀ j w, Does P Φ w (body j) fun _ _ => True) {w : World S}
    (hw : Reached P w.journal) (hsent : w.sent = [])
    (hs : (pool P body).Steps (.initial w) s) : ∀ d ∈ s.world.sent, Φ d.message d.db :=
  ((pool_sound (K := fun _ _ _ _ => True) (fun _ _ _ _ _ _ _ => trivial) h).initial
    ⟨hw, by rw [hsent]; rintro d ⟨⟩⟩ hs).world.2

theorem sent_of_steps {w : World S} (hw : Reached P w.journal) (hsent : w.sent = [])
    (hs : (pool P body).Steps (.initial w) s) :
    Reached P s.world.journal ∧ ∀ d ∈ s.world.sent, d.db.Extends s.world.db := by
  have houtside : ∀ {w w' : World S}, Later P w w' → w'.sent = w.sent →
      (Reached P w.journal ∧ ∀ d ∈ w.sent, d.db.Extends w.db) →
      Reached P w'.journal ∧ ∀ d ∈ w'.sent, d.db.Extends w'.db := by
    rintro w w' hl hsame ⟨hw, hd⟩
    refine ⟨hw.later hl, fun d hmem => ?_⟩
    rw [hsame] at hmem
    exact (hd d hmem).trans (hw.extends hl)
  induction hs with
  | refl =>
    refine ⟨hw, ?_⟩
    change ∀ d ∈ w.sent, _
    rw [hsent]
    rintro d ⟨⟩
  | tail _ hstep ih =>
    cases hstep with
    | start j => exact ih
    | finish hstrands => exact ih
    | lose hsub => exact ih
    | outside hout => exact houtside (.of_journal hout.1 hout.2) hout.2 ih
    | act hstrands hact =>
      rcases act_cases hact with rfl | ⟨m, rfl⟩
      · exact ih
      refine ⟨ih.1, fun d hd => ?_⟩
      rcases List.mem_append.mp hd with hd | hd
      · exact ih.2 d hd
      · obtain rfl := List.mem_singleton.mp hd
        exact .refl _

theorem played_of_steps {w : World S}
    (hs : (pool P body).Steps (.initial w) s) : ∀ o ∈ s.outcomes, Later P w o.start ∧
      Played (machine P B R) (body o.job).run o.start o.log o.result o.world := by
  refine Pool.Steps.played (S := pool P body) Later.refl (fun _ _ _ => Later.trans)
    (fun _ _ _ _ => act_later) ?_ hs
  exact fun _ _ hout => .of_journal hout.1 hout.2

/-- Answers for a worker that is alone with the journal: a call runs when it is awaited. -/
def solo (P : Primitives) (outside : (x : X) → World S → B x) (ack : (m : S) → R m) :
    (q : Ask X S) → World S → Answer B R q × World S
  | .invoke _, w => (w.journal.begun, w)
  | .await c ticket, w =>
    if w.journal.active.isNone ∧ w.journal.world.up = !c.offline ∧
        ticket ≤ w.journal.records.length then
      (((service P).body c).exec (answer P none) w.journal.world |>.1,
        { w with journal := State.after P none w.journal c })
    else (.error .storage, w)
  | .read r, w => (r.exec P w.db, w)
  | .outside x, w => (outside x w, w)
  | .send m, w => (ack m, w.sending m)

theorem solo_act (outside : (x : X) → World S → B x) (ack : (m : S) → R m) (q : Ask X S)
    (w : World S) : ∃ w₁, (pool P body).outside w w₁ ∧
      act P B R q w₁ (solo P outside ack q w).1 (solo P outside ack q w).2 := by
  have hstay : (pool P body).outside w w := ⟨.refl, rfl⟩
  cases q with
  | invoke c => exact ⟨w, hstay, rfl, rfl⟩
  | read r => exact ⟨w, hstay, rfl, .inl rfl⟩
  | outside x | send m => exact ⟨w, hstay, rfl⟩
  | await c ticket =>
    simp only [solo]
    split_ifs with hready
    · obtain ⟨hfree, hup, hticket⟩ := hready
      have hcall := Steps.call P none (Option.isNone_iff_eq_none.mp hfree) hup
      refine ⟨{ w with journal := State.after P none w.journal c }, ⟨hcall, rfl⟩, rfl, .inr ?_⟩
      have hlen : (State.after P none w.journal c).records.length - ticket
          = w.journal.records.length - ticket + 1 := by
        change w.journal.records.length + 1 - ticket = _
        omega
      rw [hlen]
      exact ⟨_, _, List.mem_cons_self⟩
    · exact ⟨w, hstay, rfl, .inl ⟨_, rfl⟩⟩

end Workers

end EngineCore.Executors
