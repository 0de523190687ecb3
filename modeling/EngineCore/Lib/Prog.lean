import Mathlib.Logic.Relation

/-!
# Programs that question a shared world

A program either is finished or puts one query and continues with the answer. Between two
queries the world may change under it (`Machine.env`); each query is answered by one atomic action
(`Machine.act`).

* **`sat_bind`**, **`Sat.mono`**, **`Sat.env`**: the rules of the logic;
* `Played M p w l r w'`: a whole run of `p`, with its log and its result; **`Sat.played`**;
* `Prog.exec`: the run of a program against a world that answers by itself, and **`Sat.exec`**,
  which reads a postcondition off at that run.
-/

namespace Interact

variable {Q : Type} {A : Q → Type} {W α β ε : Type}

/-! ## Programs -/

/-- A program over queries `q : Q` answered in `A q`. -/
inductive Prog (Q : Type) (A : Q → Type) (α : Type) : Type
  | done (a : α) : Prog Q A α
  | ask (q : Q) (k : A q → Prog Q A α) : Prog Q A α

namespace Prog

def bind : Prog Q A α → (α → Prog Q A β) → Prog Q A β
  | done a, f => f a
  | ask q k, f => ask q fun a => (k a).bind f

instance : Monad (Prog Q A) where
  pure := done
  bind := bind

/-- The program that puts one query and returns its answer. -/
def query (q : Q) : Prog Q A (A q) := ask q done

end Prog

abbrev Task (Q : Type) (A : Q → Type) (ε α : Type) : Type := ExceptT ε (Prog Q A) α

namespace Task

def query (q : Q) : Task Q A ε (A q) := ExceptT.lift (Prog.query q)

end Task

/-! ## Worlds, logs and the meaning of a specification -/

/-- One answered query. -/
structure Entry (Q : Type) (A : Q → Type) (W : Type) where
  query : Q
  answer : A query
  before : W
  after : W

/-- How the world changes between the actions of a program, and in each action. -/
structure Machine (Q : Type) (A : Q → Type) (W : Type) where
  env : W → W → Prop
  act : (q : Q) → W → A q → W → Prop

/-- Every run of the program from log `l` and world `w` keeps `G` at each of its own actions and
ends, if it ends, in `post`. -/
def Sat (M : Machine Q A W) (G : W → W → Prop) (post : α → List (Entry Q A W) → W → Prop) :
    Prog Q A α → List (Entry Q A W) → W → Prop
  | .done a, l, w => post a l w
  | .ask q k, l, w => ∀ w₁, M.env w w₁ → ∀ a w₂, M.act q w₁ a w₂ →
      G w₁ w₂ ∧ Sat M G post (k a) (l ++ [⟨q, a, w₁, w₂⟩]) w₂
variable {p : Prog Q A α}


section Rules

variable {M : Machine Q A W} {G G' : W → W → Prop}
variable {post post' : α → List (Entry Q A W) → W → Prop}
variable {l : List (Entry Q A W)} {w w' : W}

@[simp] theorem sat_done (a : α) : Sat M G post (.done a) l w ↔ post a l w := Iff.rfl

theorem sat_ask (q : Q) (k : A q → Prog Q A α) :
    Sat M G post (.ask q k) l w ↔ ∀ w₁, M.env w w₁ → ∀ a w₂, M.act q w₁ a w₂ →
      G w₁ w₂ ∧ Sat M G post (k a) (l ++ [⟨q, a, w₁, w₂⟩]) w₂ := Iff.rfl

/-- **Sequencing**: the continuation is specified by the postcondition of the first part. -/
theorem sat_bind {post : β → List (Entry Q A W) → W → Prop} (p : Prog Q A α)
    (f : α → Prog Q A β) :
    Sat M G post (p.bind f) l w ↔ Sat M G (fun a l w => Sat M G post (f a) l w) p l w := by
  induction p generalizing l w with
  | done a => rfl
  | ask q k ih =>
    simp only [Prog.bind, sat_ask, ih]

section

variable (h : Sat M G post p l w)

include h

/-- **Consequence**: guarantee and postcondition may be weakened. -/
theorem Sat.mono (hG : ∀ w₁ w₂, G w₁ w₂ → G' w₁ w₂)
    (hp : ∀ a l w, post a l w → post' a l w) : Sat M G' post' p l w := by
  induction p generalizing l w with
  | done a => exact hp _ _ _ h
  | ask q k ih =>
    intro w₁ henv a w₂ hact
    obtain ⟨hg, hk⟩ := h w₁ henv a w₂ hact
    exact ⟨hG _ _ hg, ih a hk⟩

theorem Sat.post_mono (hp : ∀ a l w, post a l w → post' a l w) : Sat M G post' p l w :=
  h.mono (fun _ _ hg => hg) hp

/-- **Invariants**: what the actions and the interference keep holds at the end. -/
theorem Sat.invariant {I : W → Prop}
    (henv : ∀ w w', M.env w w' → I w → I w') (hG : ∀ w w', G w w' → I w → I w') (hI : I w) :
    Sat M G (fun a l w => post a l w ∧ I w) p l w := by
  induction p generalizing l w with
  | done a => exact ⟨h, hI⟩
  | ask q k ih =>
    intro w₁ hw a w₂ hact
    obtain ⟨hg, hk⟩ := h w₁ hw a w₂ hact
    exact ⟨hg, ih a hk (hG _ _ hg (henv _ _ hw hI))⟩

theorem Sat.grow : Sat M G (fun a l' w' => post a l' w' ∧ l <+: l') p l w := by
  induction p generalizing l w with
  | done a => exact ⟨h, List.prefix_rfl⟩
  | ask q k ih =>
    intro w₁ henv a w₂ hact
    obtain ⟨hg, hk⟩ := h w₁ henv a w₂ hact
    refine ⟨hg, (ih a hk).post_mono ?_⟩
    exact fun _ _ _ h => ⟨h.1, (List.prefix_append _ _).trans h.2⟩

end

/-- **Interference**: a specification with a stable postcondition survives a change of the
world by the environment. -/
theorem Sat.env (htrans : ∀ w₁ w₂ w₃, M.env w₁ w₂ → M.env w₂ w₃ → M.env w₁ w₃)
    (hstable : ∀ a l w w', M.env w w' → post a l w → post a l w')
    (h : Sat M G post p l w) (hw : M.env w w') : Sat M G post p l w' := by
  cases p with
  | done a => exact hstable a l w w' hw h
  | ask q k => exact fun w₁ henv => h w₁ (htrans _ _ _ hw henv)

end Rules

/-! ## Programs that may fail -/

section Failing

variable {M : Machine Q A W} {G : W → W → Prop}
variable {post : Except ε α → List (Entry Q A W) → W → Prop}
variable {l : List (Entry Q A W)} {w : W}

/-- What is asked of the rest of a failing program: an error ends it, a value goes on. -/
def Continue (post : Except ε β → List (Entry Q A W) → W → Prop)
    (next : α → List (Entry Q A W) → W → Prop) : Except ε α → List (Entry Q A W) → W → Prop
  | .ok a, l, w => next a l w
  | .error e, l, w => post (.error e) l w

theorem sat_run_bind {post : Except ε β → List (Entry Q A W) → W → Prop} (x : Task Q A ε α)
    (f : α → Task Q A ε β) :
    Sat M G post (x >>= f).run l w ↔
      Sat M G (Continue post fun a l w => Sat M G post (f a).run l w) x.run l w := by
  refine (sat_bind (M := M) (G := G) (l := l) (w := w) x.run _).trans ?_
  constructor <;> refine fun h => h.post_mono ?_ <;> rintro (e | a) l w h <;> exact h

theorem sat_query {q : Q} {post : Except ε (A q) → List (Entry Q A W) → W → Prop} :
    Sat M G post (Task.query q : Task Q A ε (A q)).run l w ↔
      ∀ w₁, M.env w w₁ → ∀ a w₂, M.act q w₁ a w₂ →
        G w₁ w₂ ∧ post (.ok a) (l ++ [⟨q, a, w₁, w₂⟩]) w₂ := Iff.rfl

end Failing

/-! ## The queries of a program -/

/-- Whatever the answers, every query of the program meets `Ψ`. -/
def Prog.Only (Ψ : Q → Prop) : Prog Q A α → Prop
  | .done _ => True
  | .ask q k => Ψ q ∧ ∀ a, (k a).Only Ψ

theorem Prog.Only.bind {Ψ : Q → Prop} {f : α → Prog Q A β} (hp : p.Only Ψ)
    (hf : ∀ a, (f a).Only Ψ) : (p.bind f).Only Ψ := by
  induction p with
  | done a => exact hf a
  | ask q k ih => exact ⟨hp.1, fun a => ih a (hp.2 a)⟩

theorem Prog.Only.mono {Ψ Ψ' : Q → Prop} (hp : p.Only Ψ)
    (h : ∀ q, Ψ q → Ψ' q) : p.Only Ψ' := by
  induction p with
  | done a => trivial
  | ask q k ih => exact ⟨h q hp.1, fun a => ih a (hp.2 a)⟩

variable {f : α → Task Q A ε β} {x : Task Q A ε α}

theorem Prog.Only.seq {Ψ : Q → Prop}
    (hx : Prog.Only Ψ x.run) (hf : ∀ a, Prog.Only Ψ (f a).run) : Prog.Only Ψ (x >>= f).run := by
  refine Prog.Only.bind hx ?_
  rintro (e | a)
  · trivial
  · exact hf a

/-- Every query of the program meets `Ψ` at the log before it, and a result meets `post`. -/
def Asks (M : Machine Q A W) (Ψ : List (Entry Q A W) → Q → Prop)
    (post : α → List (Entry Q A W) → Prop) : Prog Q A α → List (Entry Q A W) → Prop
  | .done a, l => post a l
  | .ask q k, l => Ψ l q ∧ ∀ w a w', M.act q w a w' →
      Asks M Ψ post (k a) (l ++ [⟨q, a, w, w'⟩])

section Asking

variable {M : Machine Q A W} {Ψ : List (Entry Q A W) → Q → Prop} {l : List (Entry Q A W)}

theorem Asks.bind {N : α → List (Entry Q A W) → Prop} {post : β → List (Entry Q A W) → Prop}
    {f : α → Prog Q A β} (hp : Asks M Ψ N p l)
    (hf : ∀ a l', l <+: l' → N a l' → Asks M Ψ post (f a) l') : Asks M Ψ post (p.bind f) l := by
  induction p generalizing l with
  | done a => exact hf a l List.prefix_rfl hp
  | ask q k ih =>
    refine ⟨hp.1, fun w a w' hact => ih a (hp.2 w a w' hact) fun b l' hl' => hf b l' ?_⟩
    exact (List.prefix_append _ _).trans hl'

theorem Asks.mono {post post' : α → List (Entry Q A W) → Prop}
    (h : Asks M Ψ post p l) (hpost : ∀ a l', post a l' → post' a l') : Asks M Ψ post' p l := by
  induction p generalizing l with
  | done a => exact hpost a l h
  | ask q k ih => exact ⟨h.1, fun w a w' hact => ih a (h.2 w a w' hact)⟩

theorem Asks.of_stable (h : ∀ l' q, l <+: l' → Ψ l' q) (p : Prog Q A α) :
    Asks M Ψ (fun _ _ => True) p l := by
  induction p generalizing l with
  | done a => trivial
  | ask q k ih =>
    refine ⟨h l q List.prefix_rfl, fun w a w' _ => ih a fun l' q' hl' => h l' q' ?_⟩
    exact (List.prefix_append _ _).trans hl'

/-- `Asks` for a program that may fail: a value meets `K`. -/
def Puts (M : Machine Q A W) (Ψ : List (Entry Q A W) → Q → Prop)
    (K : α → List (Entry Q A W) → Prop) (x : Task Q A ε α) (l : List (Entry Q A W)) : Prop :=
  Asks M Ψ (fun r l' => ∀ a, r = .ok a → K a l') x.run l

theorem Puts.bind {N : α → List (Entry Q A W) → Prop} {K : β → List (Entry Q A W) → Prop}
    (hx : Puts M Ψ N x l)
    (hf : ∀ a l', l <+: l' → N a l' → Puts M Ψ K (f a) l') : Puts M Ψ K (x >>= f) l := by
  refine Asks.bind hx ?_
  rintro (e | a) l' hl' hN
  · rintro b ⟨⟩
  · exact hf a l' hl' (hN a rfl)

theorem Puts.query {q : Q} {K : A q → List (Entry Q A W) → Prop} (hq : Ψ l q)
    (hK : ∀ w a w', M.act q w a w' → K a (l ++ [⟨q, a, w, w'⟩])) :
    Puts M Ψ K (Task.query q : Task Q A ε (A q)) l := by
  refine ⟨hq, fun w a w' hact b hb => ?_⟩
  cases hb
  exact hK w a w' hact

theorem Prog.Only.puts {Θ : Q → Prop} (hx : Prog.Only Θ x.run)
    (h : ∀ l q, Θ q → Ψ l q) (l : List (Entry Q A W)) : Puts M Ψ (fun _ _ => True) x l := by
  have hall : ∀ (p : Prog Q A (Except ε α)) l, p.Only Θ →
      Asks M Ψ (fun r _ => ∀ a, r = .ok a → True) p l := by
    intro p
    induction p with
    | done r => exact fun _ _ _ _ => trivial
    | ask q k ih => exact fun l hp => ⟨h l q hp.1, fun w a w' _ => ih a _ (hp.2 a)⟩
  exact hall x.run l hx

end Asking

/-! ## The results of a program -/

/-- Whatever the answers, every result of the program meets `Θ`. -/
def Prog.Ends (Θ : α → Prop) : Prog Q A α → Prop
  | .done a => Θ a
  | .ask _ k => ∀ a, (k a).Ends Θ

theorem Prog.Ends.mono {Θ Θ' : α → Prop} (hp : p.Ends Θ)
    (h : ∀ a, Θ a → Θ' a) : p.Ends Θ' := by
  induction p with
  | done a => exact h a hp
  | ask q k ih => exact fun a => ih a (hp a)

theorem Prog.Ends.bind {Θ : α → Prop} {Θ' : β → Prop} {f : α → Prog Q A β}
    (hp : p.Ends Θ) (hf : ∀ a, Θ a → (f a).Ends Θ') : (p.bind f).Ends Θ' := by
  induction p with
  | done a => exact hf a hp
  | ask q k ih => exact fun a => ih a (hp a)

theorem Prog.ends_true (p : Prog Q A α) : p.Ends fun _ => True := by
  induction p with
  | done a => trivial
  | ask q k ih => exact ih

/-- Every error of the program meets `Θ`. -/
def Raises (Θ : ε → Prop) (x : Task Q A ε α) : Prop :=
  x.run.Ends fun r => ∀ e, r = .error e → Θ e

namespace Raises

variable {Θ : ε → Prop}

theorem ret (a : α) : Raises Θ (pure a : Task Q A ε α) := by
  rintro e ⟨⟩

theorem fail {e : ε} (h : Θ e) : Raises Θ (throw e : Task Q A ε α) := by
  rintro e ⟨⟩
  exact h

theorem query (q : Q) : Raises Θ (Task.query q : Task Q A ε (A q)) := by
  rintro a e ⟨⟩

theorem bind (hx : Raises Θ x)
    (hf : ∀ a, Raises Θ (f a)) : Raises Θ (x >>= f) := by
  refine Prog.Ends.bind hx ?_
  rintro (e | a) hr
  · rintro e' ⟨⟩
    exact hr e rfl
  · exact hf a

theorem adapt {ε' : Type} {f : ε' → ε} {x : Task Q A ε' α} (h : ∀ e, Θ (f e)) :
    Raises Θ (ExceptT.adapt f x) := by
  refine Prog.Ends.bind x.run.ends_true ?_
  rintro (e | a) _
  · rintro e' ⟨⟩
    exact h e
  · rintro e' ⟨⟩

end Raises

/-! ## Whole runs -/

/-- A run of the program from `w`: its log, its result, and the world some time after its last
action. -/
def Played (M : Machine Q A W) : Prog Q A α → W → List (Entry Q A W) → α → W → Prop
  | .done a, w, l, r, w' => l = [] ∧ r = a ∧ M.env w w'
  | .ask q k, w, l, r, w' => ∃ w₁ a w₂ l', M.env w w₁ ∧ M.act q w₁ a w₂ ∧
      l = ⟨q, a, w₁, w₂⟩ :: l' ∧ Played M (k a) w₂ l' r w'

section Playing

variable {M : Machine Q A W} {l : List (Entry Q A W)} {w w' w'' : W}

theorem Played.env (htrans : ∀ w₁ w₂ w₃, M.env w₁ w₂ → M.env w₂ w₃ → M.env w₁ w₃)
    {r : α} (h : Played M p w l r w') (hw : M.env w' w'') :
    Played M p w l r w'' := by
  induction p generalizing w l with
  | done a => exact ⟨h.1, h.2.1, htrans _ _ _ h.2.2 hw⟩
  | ask q k ih =>
    obtain ⟨w₁, a, w₂, l', henv, hact, hl, hk⟩ := h
    exact ⟨w₁, a, w₂, l', henv, hact, hl, ih a hk⟩

theorem Played.head (htrans : ∀ w₁ w₂ w₃, M.env w₁ w₂ → M.env w₂ w₃ → M.env w₁ w₃)
    {r : α} (h : Played M p w' l r w'') (hw : M.env w w') :
    Played M p w l r w'' := by
  cases p with
  | done a => exact ⟨h.1, h.2.1, htrans _ _ _ hw h.2.2⟩
  | ask q k =>
    obtain ⟨w₁, a, w₂, l', henv, hrest⟩ := h
    exact ⟨w₁, a, w₂, l', htrans _ _ _ hw henv, hrest⟩

theorem Played.of_bind (hrefl : ∀ w, M.env w w) {f : α → Prog Q A β} {r : β}
    (h : Played M (p.bind f) w l r w') :
    ∃ a l₁ l₂ w₁, l = l₁ ++ l₂ ∧ Played M p w l₁ a w₁ ∧ Played M (f a) w₁ l₂ r w' := by
  induction p generalizing w l with
  | done a => exact ⟨a, [], l, w, rfl, ⟨rfl, rfl, hrefl w⟩, h⟩
  | ask q k ih =>
    obtain ⟨w₁, a, w₂, l', henv, hact, rfl, hk⟩ := h
    obtain ⟨b, l₁, l₂, w₃, rfl, hp, hf⟩ := ih a hk
    exact ⟨b, _ :: l₁, l₂, w₃, rfl, ⟨w₁, a, w₂, l₁, henv, hact, rfl, hp⟩, hf⟩

theorem Played.of_run_bind (hrefl : ∀ w, M.env w w)
    (htrans : ∀ w₁ w₂ w₃, M.env w₁ w₂ → M.env w₂ w₃ → M.env w₁ w₃)
    {r : Except ε β} (h : Played M (x >>= f).run w l r w') :
    (∃ e, r = .error e ∧ Played M x.run w l (.error e) w') ∨
      ∃ a l₁ l₂ w₁, l = l₁ ++ l₂ ∧ Played M x.run w l₁ (.ok a) w₁ ∧
        Played M (f a).run w₁ l₂ r w' := by
  obtain ⟨a, l₁, l₂, w₁, rfl, hx, hf⟩ := Played.of_bind hrefl (p := x.run) h
  cases a with
  | error e =>
    obtain ⟨rfl, rfl, henv⟩ := hf
    exact .inl ⟨e, rfl, by rw [List.append_nil]; exact hx.env htrans henv⟩
  | ok a => exact .inr ⟨a, l₁, l₂, w₁, rfl, hx, hf⟩

/-- **A specification holds of every run.** -/
theorem Sat.played {G : W → W → Prop} {post : α → List (Entry Q A W) → W → Prop}
    {r : α} {l₀ : List (Entry Q A W)} (h : Sat M G post p l₀ w)
    (hp : Played M p w l r w') : ∃ w₁, M.env w₁ w' ∧ post r (l₀ ++ l) w₁ := by
  induction p generalizing w l l₀ with
  | done a =>
    obtain ⟨rfl, rfl, henv⟩ := hp
    exact ⟨w, henv, by rw [List.append_nil]; exact h⟩
  | ask q k ih =>
    obtain ⟨w₁, a, w₂, l', henv, hact, rfl, hk⟩ := hp
    obtain ⟨w₃, henv₃, hpost⟩ := ih a (h w₁ henv a w₂ hact).2 hk
    exact ⟨w₃, henv₃, by rw [List.append_assoc] at hpost; exact hpost⟩

theorem Prog.Ends.played {Θ : α → Prop} {r : α} (h : p.Ends Θ)
    (hp : Played M p w l r w') : Θ r := by
  induction p generalizing w l with
  | done a =>
    obtain ⟨_, rfl, _⟩ := hp
    exact h
  | ask q k ih =>
    obtain ⟨w₁, a, w₂, l', _, _, _, hk⟩ := hp
    exact ih a (h a) hk

end Playing

/-! ## Runs against a world that answers by itself -/

/-- The run of a program when every query is answered by `step` and nothing interferes. -/
def Prog.exec (step : (q : Q) → W → A q × W) : Prog Q A α → W → α × W
  | .done a, w => (a, w)
  | .ask q k, w => (k (step q w).1).exec step (step q w).2

/-- What is left of a program after `n` queries of that run, and the world then. -/
def Prog.after (step : (q : Q) → W → A q × W) : Nat → Prog Q A α → W → Prog Q A α × W
  | 0, p, w => (p, w)
  | _ + 1, .done a, w => (.done a, w)
  | n + 1, .ask q k, w => (k (step q w).1).after step n (step q w).2

def Prog.trace (step : (q : Q) → W → A q × W) : Prog Q A α → W → List (Entry Q A W)
  | .done _, _ => []
  | .ask q k, w => ⟨q, (step q w).1, w, (step q w).2⟩ :: (k (step q w).1).trace step (step q w).2

theorem Prog.exec_bind (step : (q : Q) → W → A q × W) (p : Prog Q A α) (f : α → Prog Q A β)
    (w : W) : (p.bind f).exec step w = (f (p.exec step w).1).exec step (p.exec step w).2 := by
  induction p generalizing w with
  | done a => rfl
  | ask q k ih => exact ih _ _

theorem Prog.played_exec {M : Machine Q A W} {step : (q : Q) → W → A q × W}
    (hstep : ∀ q w, M.act q w (step q w).1 (step q w).2) (hrefl : ∀ w, M.env w w)
    (p : Prog Q A α) (w : W) :
    Played M p w (p.trace step w) (p.exec step w).1 (p.exec step w).2 := by
  induction p generalizing w with
  | done a => exact ⟨rfl, rfl, hrefl w⟩
  | ask q k ih =>
    exact ⟨w, (step q w).1, (step q w).2, (k (step q w).1).trace step (step q w).2, hrefl w,
      hstep q w, rfl, ih _ _⟩

theorem Prog.Ends.exec {Θ : α → Prop} (h : p.Ends Θ)
    (step : (q : Q) → W → A q × W) (w : W) : Θ (p.exec step w).1 := by
  induction p generalizing w with
  | done a => exact h
  | ask q k ih => exact ih _ (h _) _

theorem exec_run_bind {step : (q : Q) → W → A q × W}
    {w w' : W} {a : α} (h : x.run.exec step w = (.ok a, w')) :
    (x >>= f).run.exec step w = (f a).run.exec step w' := by
  refine (Prog.exec_bind step x.run _ w).trans ?_
  rw [h]
  rfl

theorem Sat.exec {M : Machine Q A W} {G : W → W → Prop}
    {post : α → List (Entry Q A W) → W → Prop} {step : (q : Q) → W → A q × W}
    (hstep : ∀ q w, M.act q w (step q w).1 (step q w).2) (hrefl : ∀ w, M.env w w)
    {l : List (Entry Q A W)} {w : W} (h : Sat M G post p l w) :
    post (p.exec step w).1 (l ++ p.trace step w) (p.exec step w).2 := by
  induction p generalizing l w with
  | done a => simpa [Prog.exec, Prog.trace] using h
  | ask q k ih =>
    have := ih _ (h w (hrefl w) _ _ (hstep q w)).2
    simpa [Prog.exec, Prog.trace] using this

end Interact
