import EngineCore.Lib.Prog
import Mathlib.Data.List.Nodup

/-!
# Clients of one server

Any number of clients work on one shared world, each with a state of its own that nobody else
reaches. What a client does to the world the others hear as a signal, and so does everything that
happens outside the clients. A client may be abandoned at any point.

* `Clients.machine`: the world as one client sees it, under what it may rely on;
* `Clients.Sound`: an invariant of the world, what each client relies on and what it guarantees;
  **`Clients.Sound.steps`**: a sound system keeps its invariant along every run;
* **`Clients.Answers.exec`**, `Clients.Answers.advance`: a client that is alone can run from start to
  end, and up to any query.
-/

namespace Interact

variable {Q : Type} {A : Q → Type} {W L T J N : Type} {R : J → Type}

/-- Jobs `J` with names `N`, over a shared world `W`, own states `L` and signals `T`. -/
structure Clients (Q : Type) (A : Q → Type) (W L T J N : Type) (R : J → Type) where
  name : J → N
  init : J → L
  body : (j : J) → Prog Q A (R j)
  act : (j : J) → (q : Q) → L × W → A q → T → L × W → Prop
  hear : T → L → L
  outside : W → T → W → Prop

namespace Clients

/-- A client at work: its own state, its log and what is left of its body. -/
structure Strand (Q : Type) (A : Q → Type) (W L J : Type) (R : J → Type) where
  job : J
  own : L
  log : List (Entry Q A (L × W))
  rest : Prog Q A (R job)

/-- The strand, after a signal of somebody else. -/
def Strand.hears (hear : T → L → L) (t : T) (x : Strand Q A W L J R) : Strand Q A W L J R :=
  { x with own := hear t x.own }

/-- The world, the clients at work and every name used so far. -/
structure State (Q : Type) (A : Q → Type) (W L J N : Type) (R : J → Type) where
  world : W
  strands : List (Strand Q A W L J R)
  names : List N

/-- One step of a client or of the world outside, or a loss of clients. -/
inductive Step (S : Clients Q A W L T J N R) : State Q A W L J N R → State Q A W L J N R → Prop
  | start {s : State Q A W L J N R} (j : J) (hnew : S.name j ∉ s.names) :
      Step S s
        { s with strands := ⟨j, S.init j, [], S.body j⟩ :: s.strands, names := S.name j :: s.names }
  | act {s : State Q A W L J N R} {before after : List (Strand Q A W L J R)} {j : J} {l l' : L}
      {log : List (Entry Q A (L × W))} {q : Q} {k : A q → Prog Q A (R j)} {a : A q} {t : T} {w : W}
      (hstrands : s.strands = before ++ ⟨j, l, log, .ask q k⟩ :: after)
      (hact : S.act j q (l, s.world) a t (l', w)) :
      Step S s
        { s with
          world := w
          strands := before.map (Strand.hears S.hear t) ++
            ⟨j, l', log ++ [⟨q, a, (l, s.world), (l', w)⟩], k a⟩ ::
              after.map (Strand.hears S.hear t) }
  | finish {s : State Q A W L J N R} {before after : List (Strand Q A W L J R)} {j : J} {l : L}
      {log : List (Entry Q A (L × W))} {r : R j}
      (hstrands : s.strands = before ++ ⟨j, l, log, .done r⟩ :: after) :
      Step S s { s with strands := before ++ after }
  | outside {s : State Q A W L J N R} {t : T} {w : W} (hout : S.outside s.world t w) :
      Step S s { s with world := w, strands := s.strands.map (Strand.hears S.hear t) }
  | lose {s : State Q A W L J N R} {strands : List (Strand Q A W L J R)}
      (hsub : strands.Sublist s.strands) : Step S s { s with strands := strands }

abbrev Steps (S : Clients Q A W L T J N R) : State Q A W L J N R → State Q A W L J N R → Prop :=
  Relation.ReflTransGen S.Step

def State.initial (w : W) : State Q A W L J N R := ⟨w, [], []⟩

/-- What a client of name `n` may see happen between two of its actions. -/
def Env (S : Clients Q A W L T J N R) (rely : N → T → W → W → Prop) (n : N) :
    L × W → L × W → Prop :=
  Relation.ReflTransGen fun x y => ∃ t, rely n t x.2 y.2 ∧ y.1 = S.hear t x.1

def machine (S : Clients Q A W L T J N R) (rely : N → T → W → W → Prop) (j : J) :
    Machine Q A (L × W) where
  env := S.Env rely (S.name j)
  act q x a y := ∃ t, S.act j q x a t y

/-- An invariant `I` of the world, what a name relies on, what a job guarantees at its actions, and
what holds of a name that is not in use yet. -/
structure Sound (S : Clients Q A W L T J N R) (I : W → Prop) (rely : N → T → W → W → Prop)
    (G : J → L × W → L × W → Prop) (Fresh : N → W → Prop) : Prop where
  fresh : ∀ n t w w', rely n t w w' → Fresh n w → Fresh n w'
  outside : ∀ w t w', I w → S.outside w t w' → I w' ∧ ∀ n, rely n t w w'
  act : ∀ j q x a t y, I x.2 → S.act j q x a t y → G j x y →
    I y.2 ∧ ∀ n, n ≠ S.name j → rely n t x.2 y.2
  body : ∀ j w, I w → Fresh (S.name j) w →
    Sat (S.machine rely j) (G j) (fun _ _ _ => True) (S.body j) [] (S.init j, w)

/-- The invariant, the obligation of every client at work, and the names not yet in use. -/
structure Holds (S : Clients Q A W L T J N R) (I : W → Prop) (rely : N → T → W → W → Prop)
    (G : J → L × W → L × W → Prop) (Fresh : N → W → Prop) (s : State Q A W L J N R) : Prop where
  world : I s.world
  strands : ∀ x ∈ s.strands,
    Sat (S.machine rely x.job) (G x.job) (fun _ _ _ => True) x.rest x.log (x.own, s.world)
  names : (s.strands.map fun x => S.name x.job).Nodup
  used : ∀ x ∈ s.strands, S.name x.job ∈ s.names
  fresh : ∀ n, n ∉ s.names → Fresh n s.world

section Rule

variable {S : Clients Q A W L T J N R} {I : W → Prop} {rely : N → T → W → W → Prop}
variable {G : J → L × W → L × W → Prop} {Fresh : N → W → Prop} {s s' : State Q A W L J N R}

theorem Sat.hears {x : Strand Q A W L J R} {t : T} {w w' : W}
    (h : Sat (S.machine rely x.job) (G x.job) (fun _ _ _ => True) x.rest x.log (x.own, w))
    (ht : rely (S.name x.job) t w w') :
    Sat (S.machine rely x.job) (G x.job) (fun _ _ _ => True) x.rest x.log (S.hear t x.own, w') :=
  h.env (fun _ _ _ => Relation.ReflTransGen.trans) (fun _ _ _ _ _ _ => trivial)
    (.single ⟨t, ht, rfl⟩)

@[simp] theorem Strand.hears_name (t : T) :
    ((fun x : Strand Q A W L J R => S.name x.job) ∘ Strand.hears S.hear t)
      = fun x => S.name x.job := rfl

theorem Sound.step (hs : S.Sound I rely G Fresh) (h : S.Holds I rely G Fresh s)
    (hstep : S.Step s s') : S.Holds I rely G Fresh s' := by
  cases hstep with
  | start j hnew =>
    refine ⟨h.world, ?_, ?_, ?_, fun n hn => h.fresh n fun hmem => hn (List.mem_cons_of_mem _ hmem)⟩
    · intro x hx
      rcases List.mem_cons.mp hx with rfl | hx
      · exact hs.body j _ h.world (h.fresh _ hnew)
      · exact h.strands x hx
    · refine List.nodup_cons.mpr ⟨fun hmem => ?_, h.names⟩
      obtain ⟨x, hx, hname⟩ := List.mem_map.mp hmem
      have hused := h.used x hx
      rw [hname] at hused
      exact hnew hused
    · intro x hx
      rcases List.mem_cons.mp hx with rfl | hx
      · exact List.mem_cons_self
      · exact List.mem_cons_of_mem _ (h.used x hx)
  | @act before after j l l' log q k a t w hstrands hact =>
    have hmine := h.strands ⟨j, l, log, .ask q k⟩ (by simp [hstrands])
    obtain ⟨hg, hk⟩ := hmine _ .refl a (l', w) ⟨t, hact⟩
    obtain ⟨hworld, hothers⟩ := hs.act j q _ a t _ h.world hact hg
    have hnames := h.names
    rw [hstrands, List.map_append, List.map_cons, List.nodup_middle] at hnames
    have hapart : ∀ x ∈ before ++ after, S.name x.job ≠ S.name j := by
      intro x hx heq
      refine (List.nodup_cons.mp hnames).1 ?_
      rw [← List.map_append]
      exact List.mem_map.mpr ⟨x, hx, heq⟩
    have hmoved : ∀ x ∈ before ++ after, Sat (S.machine rely x.job) (G x.job) (fun _ _ _ => True)
        x.rest x.log (S.hear t x.own, w) := by
      intro x hx
      refine Sat.hears (h.strands x ?_) (hothers _ (hapart x hx))
      rw [hstrands]
      rcases List.mem_append.mp hx with hx | hx <;> simp [hx]
    refine ⟨hworld, ?_, ?_, ?_, ?_⟩
    · intro x hx
      rcases List.mem_append.mp hx with hx | hx
      · obtain ⟨y, hy, rfl⟩ := List.mem_map.mp hx
        exact hmoved y (List.mem_append_left _ hy)
      rcases List.mem_cons.mp hx with rfl | hx
      · exact hk
      · obtain ⟨y, hy, rfl⟩ := List.mem_map.mp hx
        exact hmoved y (List.mem_append_right _ hy)
    · simpa [hstrands] using h.names
    · intro x hx
      rcases List.mem_append.mp hx with hx | hx
      · obtain ⟨y, hy, rfl⟩ := List.mem_map.mp hx
        exact h.used y (by simp [hstrands, hy])
      rcases List.mem_cons.mp hx with rfl | hx
      · exact h.used ⟨j, l, log, .ask q k⟩ (by simp [hstrands])
      · obtain ⟨y, hy, rfl⟩ := List.mem_map.mp hx
        exact h.used y (by simp [hstrands, hy])
    · intro n hn
      have hne : n ≠ S.name j := by
        rintro rfl
        exact hn (h.used ⟨j, l, log, .ask q k⟩ (by simp [hstrands]))
      exact hs.fresh n t _ _ (hothers n hne) (h.fresh n hn)
  | @finish before after j l log r hstrands =>
    have hsub : (before ++ after).Sublist s.strands := by
      rw [hstrands]
      exact List.Sublist.append_left (List.sublist_cons_self _ _) _
    exact ⟨h.world, fun x hx => h.strands x (hsub.subset hx), h.names.sublist (hsub.map _),
      fun x hx => h.used x (hsub.subset hx), h.fresh⟩
  | @outside t w hout =>
    obtain ⟨hworld, hrely⟩ := hs.outside _ t w h.world hout
    refine ⟨hworld, ?_, by simpa using h.names, ?_, fun n hn => hs.fresh n t _ _ (hrely n) (h.fresh n hn)⟩
    · intro x hx
      obtain ⟨y, hy, rfl⟩ := List.mem_map.mp hx
      exact Sat.hears (h.strands y hy) (hrely _)
    · intro x hx
      obtain ⟨y, hy, rfl⟩ := List.mem_map.mp hx
      exact h.used y hy
  | lose hsub =>
    exact ⟨h.world, fun x hx => h.strands x (hsub.subset hx), h.names.sublist (hsub.map _),
      fun x hx => h.used x (hsub.subset hx), h.fresh⟩

/-- **The rule**: a sound system keeps its invariant and its obligations along every run. -/
theorem Sound.steps (hs : S.Sound I rely G Fresh) (h : S.Holds I rely G Fresh s)
    (hsteps : S.Steps s s') : S.Holds I rely G Fresh s' := by
  induction hsteps with
  | refl => exact h
  | tail _ hstep ih => exact hs.step ih hstep

theorem Holds.guarantee (h : S.Holds I rely G Fresh s) {x : Strand Q A W L J R} (hx : x ∈ s.strands)
    {q : Q} {k : A q → Prog Q A (R x.job)} (hrest : x.rest = .ask q k) {a : A q} {t : T} {y : L × W}
    (hact : S.act x.job q (x.own, s.world) a t y) : G x.job (x.own, s.world) y := by
  have hsat := h.strands x hx
  rw [hrest] at hsat
  exact (hsat _ .refl a y ⟨t, hact⟩).1

/-- A property of the world that every guaranteed action and everything outside keeps holds along
the rest of the run. -/
theorem Sound.keeps (hs : S.Sound I rely G Fresh) {P : W → Prop}
    (hout : ∀ w t w', I w → S.outside w t w' → P w → P w')
    (hact : ∀ j x y, I x.2 → G j x y → P x.2 → P y.2) (h : S.Holds I rely G Fresh s)
    (hsteps : S.Steps s s') (hP : P s.world) : P s'.world := by
  induction hsteps with
  | refl => exact hP
  | @tail t t' hsteps hstep ih =>
    have ht := hs.steps h hsteps
    cases hstep with
    | @act before after j l l' log q k a t w hstrands hact' =>
      have hmem : ⟨j, l, log, .ask q k⟩ ∈ before ++ ⟨j, l, log, .ask q k⟩ :: after := by simp
      exact hact j _ _ ht.world (ht.guarantee (hstrands ▸ hmem) rfl hact') ih
    | outside hout' => exact hout _ _ _ ht.world hout' ih
    | _ => exact ih

theorem Sound.initial (hs : S.Sound I rely G Fresh) {w : W} (hw : I w)
    (hfresh : ∀ n, Fresh n w) (hsteps : S.Steps (.initial w) s) : S.Holds I rely G Fresh s :=
  hs.steps (s := .initial w)
    ⟨hw, by rintro x ⟨⟩, List.nodup_nil, by rintro x ⟨⟩, fun n _ => hfresh n⟩ hsteps

end Rule

/-! ## Pre- and postconditions -/

variable {S : Clients Q A W L T J N R} {rely : N → T → W → W → Prop} {α β ε : Type}

/-- A fact about a client's own state and the world that nobody else can spoil. -/
def Stable (S : Clients Q A W L T J N R) (rely : N → T → W → W → Prop) (n : N)
    (F : L × W → Prop) : Prop :=
  ∀ l t w w', rely n t w w' → F (l, w) → F (S.hear t l, w')

theorem Stable.env {n : N} {F : L × W → Prop} (hF : S.Stable rely n F) {x y : L × W}
    (h : S.Env rely n x y) (hx : F x) : F y := by
  induction h with
  | refl => exact hx
  | @tail y z _ hstep ih =>
    obtain ⟨t, ht, hown⟩ := hstep
    obtain ⟨l, w⟩ := z
    obtain rfl : l = S.hear t y.1 := hown
    exact hF y.1 t y.2 w ht ih

/-- From `F`, every action of the program keeps `G` and every result meets `K`. -/
def Triple (S : Clients Q A W L T J N R) (rely : N → T → W → W → Prop) (j : J)
    (G : L × W → L × W → Prop) (F : L × W → Prop) (p : Prog Q A α) (K : α → L × W → Prop) : Prop :=
  ∀ log x, F x → Sat (S.machine rely j) G (fun a _ y => K a y) p log x

namespace Triple

variable {j : J} {G : L × W → L × W → Prop} {F F' : L × W → Prop}

theorem done {a : α} {K : α → L × W → Prop} (h : ∀ x, F x → K a x) :
    S.Triple rely j G F (.done a) K := fun _ x hx => h x hx

theorem weaken {p : Prog Q A α} {K K' : α → L × W → Prop} (hp : S.Triple rely j G F p K)
    (hF : ∀ x, F' x → F x) (hK : ∀ a x, K a x → K' a x) : S.Triple rely j G F' p K' :=
  fun log x hx => (hp log x (hF x hx)).post_mono fun a _ y => hK a y

theorem bind {p : Prog Q A α} {f : α → Prog Q A β} {M : α → L × W → Prop} {K : β → L × W → Prop}
    (hp : S.Triple rely j G F p M) (hf : ∀ a, S.Triple rely j G (M a) (f a) K) :
    S.Triple rely j G F (p.bind f) K :=
  fun log x hx => (sat_bind p f).mpr ((hp log x hx).post_mono fun a l y hy => hf a l y hy)

theorem query {q : Q} {K : A q → L × W → Prop} (hF : S.Stable rely (S.name j) F)
    (h : ∀ x a t y, F x → S.act j q x a t y → G x y ∧ K a y) :
    S.Triple rely j G F (Prog.query q) K := by
  intro log x hx y henv a z ⟨t, hact⟩
  exact h y a t z (hF.env henv hx) hact

theorem only {Ψ : Q → Prop} {p : Prog Q A α} (hF : S.Stable rely (S.name j) F) (hp : p.Only Ψ)
    (h : ∀ q x a t y, Ψ q → F x → S.act j q x a t y → G x y ∧ F y) :
    S.Triple rely j G F p fun _ => F := by
  intro log x hx
  induction p generalizing log x with
  | done r => exact hx
  | ask q k ih =>
    rintro y henv a z ⟨t, hact⟩
    obtain ⟨hG, hz⟩ := h q y a t z hp.1 (hF.env henv hx) hact
    exact ⟨hG, ih a (hp.2 a) _ z hz⟩

/-! ### Programs that may fail -/

/-- A value meets `K`, an error meets `E`. -/
def Outcome (K : α → L × W → Prop) (E : L × W → Prop) : Except ε α → L × W → Prop
  | .ok a, x => K a x
  | .error _, x => E x

theorem andThen {x : Task Q A ε α} {f : α → Task Q A ε β} {M : Except ε α → L × W → Prop}
    {K : Except ε β → L × W → Prop} (hx : S.Triple rely j G F x.run M)
    (hf : ∀ a, S.Triple rely j G (M (.ok a)) (f a).run K)
    (he : ∀ e x, M (.error e) x → K (.error e) x) : S.Triple rely j G F (x >>= f).run K := by
  refine Triple.bind hx ?_
  rintro (e | a)
  · exact done (he e)
  · exact hf a

theorem adapt {ε' : Type} {f : ε → ε'} {x : Task Q A ε α} {K : Except ε' α → L × W → Prop}
    (hx : S.Triple rely j G F x.run fun r => K (r.mapError f)) :
    S.Triple rely j G F (ExceptT.adapt f x).run K := by
  refine Triple.bind hx ?_
  rintro (e | a)
  · exact done fun x hx => hx
  · exact done fun x hx => hx

theorem seq {x : Task Q A ε α} {f : α → Task Q A ε β} {M : α → L × W → Prop}
    {K : β → L × W → Prop} {E : L × W → Prop} (hx : S.Triple rely j G F x.run (Outcome M E))
    (hf : ∀ a, S.Triple rely j G (M a) (f a).run (Outcome K E)) :
    S.Triple rely j G F (x >>= f).run (Outcome K E) :=
  hx.andThen hf fun _ _ h => h

theorem ret {a : α} {K : α → L × W → Prop} {E : L × W → Prop} (h : ∀ x, F x → K a x) :
    S.Triple rely j G F (pure a : Task Q A ε α).run (Outcome K E) := fun _ x hx => h x hx

theorem fail {e : ε} {K : α → L × W → Prop} {E : L × W → Prop} (h : ∀ x, F x → E x) :
    S.Triple rely j G F (throw e : Task Q A ε α).run (Outcome K E) := fun _ x hx => h x hx

theorem ask {q : Q} {K : A q → L × W → Prop} {E : L × W → Prop}
    (hF : S.Stable rely (S.name j) F)
    (h : ∀ x a t y, F x → S.act j q x a t y → G x y ∧ K a y) :
    S.Triple rely j G F (Task.query q : Task Q A ε (A q)).run (Outcome K E) := by
  intro log x hx y henv a z ⟨t, hact⟩
  exact h y a t z (hF.env henv hx) hact

end Triple

/-! ## A client by itself -/

/-- A client that is alone in a world that meets `I` can have its queries answered by `step`, whatever
happens before. -/
def Answers (S : Clients Q A W L T J N R) (I : W → Prop) (j : J)
    (step : (q : Q) → L × W → A q × (L × W)) : Prop :=
  ∀ q (k : A q → Prog Q A (R j)) w l log names, I w → I (step q (l, w)).2.2 ∧
    ∃ log', S.Steps ⟨w, [⟨j, l, log, .ask q k⟩], names⟩
      ⟨(step q (l, w)).2.2, [⟨j, (step q (l, w)).2.1, log', k (step q (l, w)).1⟩], names⟩

variable {step : (q : Q) → L × W → A q × (L × W)}

theorem Answers.of_act {j : J}
    (hstep : ∀ q x, ∃ t, S.act j q x (step q x).1 t (step q x).2) :
    S.Answers (fun _ => True) j step := by
  intro q k w l log names _
  obtain ⟨t, hact⟩ := hstep q (l, w)
  have hone : [(⟨j, l, log, .ask q k⟩ : Strand Q A W L J R)] = [] ++ ⟨j, l, log, .ask q k⟩ :: [] :=
    rfl
  have hone := Step.act (s := ⟨w, [⟨j, l, log, .ask q k⟩], names⟩) hone hact
  exact ⟨trivial, _, .single hone⟩

variable {I : W → Prop}

/-- **A client that is alone can run from start to end**, its queries answered by `step`. -/
theorem Answers.exec {j : J} (h : S.Answers I j step)
    (p : Prog Q A (R j)) (w : W) (l : L) (log : List (Entry Q A (L × W))) (names : List N)
    (hw : I w) :
    ∃ log', S.Steps ⟨w, [⟨j, l, log, p⟩], names⟩
      ⟨(p.exec step (l, w)).2.2, [⟨j, (p.exec step (l, w)).2.1, log', .done (p.exec step (l, w)).1⟩],
        names⟩ := by
  induction p generalizing w l log with
  | done r => exact ⟨log, .refl⟩
  | ask q k ih =>
    obtain ⟨hw', log₁, hfirst⟩ := h q k w l log names hw
    obtain ⟨log', hrest⟩ := ih (step q (l, w)).1 (step q (l, w)).2.2 (step q (l, w)).2.1 log₁ hw'
    exact ⟨log', hfirst.trans hrest⟩

theorem Answers.advance {j : J} (h : S.Answers I j step)
    (n : ℕ) (p : Prog Q A (R j)) (w : W) (l : L) (log : List (Entry Q A (L × W))) (names : List N)
    (hw : I w) :
    I (p.after step n (l, w)).2.2 ∧ ∃ log', S.Steps ⟨w, [⟨j, l, log, p⟩], names⟩
      ⟨(p.after step n (l, w)).2.2,
        [⟨j, (p.after step n (l, w)).2.1, log', (p.after step n (l, w)).1⟩], names⟩ := by
  induction n generalizing p w l log with
  | zero => exact ⟨hw, log, .refl⟩
  | succ n ih =>
    cases p with
    | done r => exact ⟨hw, log, .refl⟩
    | ask q k =>
      obtain ⟨hw', log₁, hfirst⟩ := h q k w l log names hw
      obtain ⟨hlast, log', hrest⟩ :=
        ih (k (step q (l, w)).1) (step q (l, w)).2.2 (step q (l, w)).2.1 log₁ hw'
      exact ⟨hlast, log', hfirst.trans hrest⟩

end Clients

end Interact
