import EngineCore.Lib.Prog

/-!
# Programs that run side by side

Any number of strands work over one world. Each puts its queries when it is scheduled, so the
actions of the others are interference to it, like everything that happens outside the pool. A
strand may be abandoned at any point: its caller gave up, or its process died.

* **`Pool.Sound.steps`**: a sound triple holds along every run;
* `Sat.relog`, `Sat.follows`: logs that nobody reads, and where the world may have gone;
* **`Pool.Steps.keeps`**: what each body asks at its log, each strand has asked;
  **`Pool.Steps.played`**: each finished job is a whole run of its body;
* **`Pool.Steps.exec`**: a job can run from start to end by itself.
-/

namespace Interact

variable {Q : Type} {A : Q → Type} {W J : Type} {R : J → Type} {α : Type}

/-- Jobs `J` with results `R`, run side by side over a machine. -/
structure Pool (Q : Type) (A : Q → Type) (W J : Type) (R : J → Type) where
  machine : Machine Q A W
  body : (j : J) → Prog Q A (R j)
  outside : W → W → Prop

namespace Pool

/-- A job under way: the world it started in, its log so far and what is left of its body. -/
structure Strand (Q : Type) (A : Q → Type) (W J : Type) (R : J → Type) where
  job : J
  start : W
  log : List (Entry Q A W)
  rest : Prog Q A (R job)

/-- A finished job, with the worlds at its start and its end. -/
structure Outcome (Q : Type) (A : Q → Type) (W J : Type) (R : J → Type) where
  job : J
  start : W
  log : List (Entry Q A W)
  result : R job
  world : W

structure State (Q : Type) (A : Q → Type) (W J : Type) (R : J → Type) where
  world : W
  strands : List (Strand Q A W J R)
  outcomes : List (Outcome Q A W J R)

/-- One step of a strand, of the world outside, or a loss of strands. -/
inductive Step (S : Pool Q A W J R) : State Q A W J R → State Q A W J R → Prop
  | start (s : State Q A W J R) (j : J) :
      Step S s { s with strands := ⟨j, s.world, [], S.body j⟩ :: s.strands }
  | act {s : State Q A W J R} {before after : List (Strand Q A W J R)} {j : J}
      {w₀ : W} {l : List (Entry Q A W)} {q : Q} {k : A q → Prog Q A (R j)} {a : A q} {w : W}
      (hstrands : s.strands = before ++ ⟨j, w₀, l, .ask q k⟩ :: after)
      (hact : S.machine.act q s.world a w) :
      Step S s
        { s with
          world := w
          strands := before ++ ⟨j, w₀, l ++ [⟨q, a, s.world, w⟩], k a⟩ :: after }
  | finish {s : State Q A W J R} {before after : List (Strand Q A W J R)} {j : J}
      {w₀ : W} {l : List (Entry Q A W)} {r : R j}
      (hstrands : s.strands = before ++ ⟨j, w₀, l, .done r⟩ :: after) :
      Step S s
        { s with strands := before ++ after, outcomes := ⟨j, w₀, l, r, s.world⟩ :: s.outcomes }
  | outside {s : State Q A W J R} {w : W} (hout : S.outside s.world w) :
      Step S s { s with world := w }
  | lose {s : State Q A W J R} {strands : List (Strand Q A W J R)}
      (hsub : strands.Sublist s.strands) : Step S s { s with strands := strands }

abbrev Steps (S : Pool Q A W J R) : State Q A W J R → State Q A W J R → Prop :=
  Relation.ReflTransGen S.Step

def State.initial (w : W) : State Q A W J R := ⟨w, [], []⟩

/-- An invariant `I` of the world that the actions of a job keep under its guarantee `G`, and a
postcondition that each body meets and interference does not spoil. -/
structure Sound (S : Pool Q A W J R) (I : W → Prop) (G : J → W → W → Prop)
    (post : (j : J) → W → R j → List (Entry Q A W) → W → Prop) : Prop where
  refl : ∀ w, S.machine.env w w
  trans : ∀ w₁ w₂ w₃, S.machine.env w₁ w₂ → S.machine.env w₂ w₃ → S.machine.env w₁ w₃
  others : ∀ q w a w', S.machine.act q w a w' → S.machine.env w w'
  outer : ∀ w w', S.outside w w' → S.machine.env w w'
  stable : ∀ j w₀ r l w w', S.machine.env w w' → post j w₀ r l w → post j w₀ r l w'
  env : ∀ w w', I w → S.outside w w' → I w'
  act : ∀ j q w a w', I w → S.machine.act q w a w' → G j w w' → I w'
  body : ∀ j w, I w → Sat S.machine (G j) (post j w) (S.body j) [] w

/-- The invariant, the obligation of every strand, and the promise of every finished job. -/
structure Holds (S : Pool Q A W J R) (I : W → Prop) (G : J → W → W → Prop)
    (post : (j : J) → W → R j → List (Entry Q A W) → W → Prop) (s : State Q A W J R) : Prop where
  world : I s.world
  strands : ∀ t ∈ s.strands, Sat S.machine (G t.job) (post t.job t.start) t.rest t.log s.world
  outcomes : ∀ o ∈ s.outcomes, post o.job o.start o.result o.log o.world

section Rule

variable {S : Pool Q A W J R} {I : W → Prop} {G : J → W → W → Prop}
variable {post : (j : J) → W → R j → List (Entry Q A W) → W → Prop} {s s' : State Q A W J R}

theorem Sound.step (hs : S.Sound I G post) (h : S.Holds I G post s) (hstep : S.Step s s') :
    S.Holds I G post s' := by
  have hkeep : ∀ {w : W}, S.machine.env s.world w → ∀ t ∈ s.strands,
      Sat S.machine (G t.job) (post t.job t.start) t.rest t.log w := by
    intro w henv t ht
    exact (h.strands t ht).env hs.trans (hs.stable t.job t.start) henv
  cases hstep with
  | start j =>
    refine ⟨h.world, ?_, h.outcomes⟩
    intro t ht
    rcases List.mem_cons.mp ht with rfl | ht
    · exact hs.body j _ h.world
    · exact h.strands t ht
  | @act before after j w₀ l q k a w hstrands hact =>
    have hmine := h.strands ⟨j, w₀, l, .ask q k⟩ (by simp [hstrands])
    obtain ⟨hg, hk⟩ := hmine _ (hs.refl _) a w hact
    refine ⟨hs.act j q _ a w h.world hact hg, ?_, h.outcomes⟩
    intro t ht
    rcases List.mem_append.mp ht with ht | ht
    · exact hkeep (hs.others q _ a w hact) t (by simp [hstrands, ht])
    rcases List.mem_cons.mp ht with rfl | ht
    · exact hk
    · exact hkeep (hs.others q _ a w hact) t (by simp [hstrands, ht])
  | @finish before after j w₀ l r hstrands =>
    have hmine := h.strands ⟨j, w₀, l, .done r⟩ (by simp [hstrands])
    refine ⟨h.world, ?_, ?_⟩
    · intro t ht
      refine h.strands t ?_
      rw [hstrands]
      rcases List.mem_append.mp ht with ht | ht <;> simp [ht]
    · intro o ho
      rcases List.mem_cons.mp ho with rfl | ho
      · exact hmine
      · exact h.outcomes o ho
  | @outside w hout => exact ⟨hs.env _ _ h.world hout, hkeep (hs.outer _ _ hout), h.outcomes⟩
  | lose hsub => exact ⟨h.world, fun t ht => h.strands t (hsub.subset ht), h.outcomes⟩

/-- **The rule**: a sound triple holds along every run. -/
theorem Sound.steps (hs : S.Sound I G post) (h : S.Holds I G post s) (hsteps : S.Steps s s') :
    S.Holds I G post s' := by
  induction hsteps with
  | refl => exact h
  | tail _ hstep ih => exact hs.step ih hstep

theorem Sound.initial (hs : S.Sound I G post) {w : W} (hw : I w)
    (hsteps : S.Steps (State.initial w) s) : S.Holds I G post s :=
  hs.steps ⟨hw, by rintro t ⟨⟩, by rintro r ⟨⟩⟩ hsteps

end Rule

/-! ## The logs of the strands -/

/-- Each query of the log meets `Ψ` at the log before it. -/
def Asked (Ψ : List (Entry Q A W) → Q → Prop) (l : List (Entry Q A W)) : Prop :=
  ∀ l₁ e l₂, l = l₁ ++ e :: l₂ → Ψ l₁ e.query

theorem Asked.snoc {Ψ : List (Entry Q A W) → Q → Prop} {l : List (Entry Q A W)}
    {e : Entry Q A W} (h : Asked Ψ l) (he : Ψ l e.query) : Asked Ψ (l ++ [e]) := by
  intro l₁ e' l₂ heq
  rcases List.eq_nil_or_concat l₂ with rfl | ⟨l₃, e₃, rfl⟩
  · obtain ⟨rfl, hlast⟩ := List.append_inj' heq rfl
    rw [← List.singleton_inj.mp hlast]
    exact he
  · rw [List.concat_eq_append, ← List.cons_append, ← List.append_assoc] at heq
    exact h l₁ e' l₃ (List.append_inj' heq rfl).1

section Logs

variable {S : Pool Q A W J R} {Ψ : J → List (Entry Q A W) → Q → Prop}

/-- The log of every strand keeps `Ψ`, and what is left of its body does. -/
structure Keeps (S : Pool Q A W J R) (Ψ : J → List (Entry Q A W) → Q → Prop)
    (s : State Q A W J R) : Prop where
  strands : ∀ t ∈ s.strands, Asked (Ψ t.job) t.log ∧
    Asks S.machine (Ψ t.job) (fun _ _ => True) t.rest t.log
  outcomes : ∀ o ∈ s.outcomes, Asked (Ψ o.job) o.log

theorem Keeps.step {s s' : State Q A W J R}
    (hbody : ∀ j, Asks S.machine (Ψ j) (fun _ _ => True) (S.body j) []) (h : S.Keeps Ψ s)
    (hstep : S.Step s s') : S.Keeps Ψ s' := by
  cases hstep with
  | start j =>
    refine ⟨fun t ht => ?_, h.outcomes⟩
    rcases List.mem_cons.mp ht with rfl | ht
    · exact ⟨fun l₁ e l₂ heq => by simp at heq, hbody j⟩
    · exact h.strands t ht
  | @act before after j w₀ l q k a w hstrands hact =>
    obtain ⟨hlog, hask, hrest⟩ := h.strands ⟨j, w₀, l, .ask q k⟩ (by simp [hstrands])
    refine ⟨fun t ht => ?_, h.outcomes⟩
    rcases List.mem_append.mp ht with ht | ht
    · exact h.strands t (by simp [hstrands, ht])
    rcases List.mem_cons.mp ht with rfl | ht
    · exact ⟨hlog.snoc hask, hrest _ _ _ hact⟩
    · exact h.strands t (by simp [hstrands, ht])
  | @finish before after j w₀ l r hstrands =>
    have hmine := h.strands ⟨j, w₀, l, .done r⟩ (by simp [hstrands])
    refine ⟨fun t ht => h.strands t ?_, fun o ho => ?_⟩
    · rw [hstrands]
      rcases List.mem_append.mp ht with ht | ht <;> simp [ht]
    rcases List.mem_cons.mp ho with rfl | ho
    · exact hmine.1
    · exact h.outcomes o ho
  | outside hout => exact ⟨h.strands, h.outcomes⟩
  | lose hsub => exact ⟨fun t ht => h.strands t (hsub.subset ht), h.outcomes⟩

/-- **What each body asks, each strand has asked.** -/
theorem Steps.keeps {w : W} {s : State Q A W J R}
    (hbody : ∀ j, Asks S.machine (Ψ j) (fun _ _ => True) (S.body j) [])
    (hsteps : S.Steps (.initial w) s) : S.Keeps Ψ s := by
  induction hsteps with
  | refl => exact ⟨by rintro t ⟨⟩, by rintro o ⟨⟩⟩
  | tail _ hstep ih => exact ih.step hbody hstep

end Logs

/-- **Each finished job is a whole run of its body.** -/
theorem Steps.played {S : Pool Q A W J R} (hrefl : ∀ w, S.machine.env w w)
    (htrans : ∀ w₁ w₂ w₃, S.machine.env w₁ w₂ → S.machine.env w₂ w₃ → S.machine.env w₁ w₃)
    (hothers : ∀ q w a w', S.machine.act q w a w' → S.machine.env w w')
    (houter : ∀ w w', S.outside w w' → S.machine.env w w') {w : W} {s : State Q A W J R}
    (hsteps : S.Steps (.initial w) s) : ∀ o ∈ s.outcomes, S.machine.env w o.start ∧
      Played S.machine (S.body o.job) o.start o.log o.result o.world := by
  -- what a strand has done so far is the beginning of a run: whatever ends it, ends the body
  suffices h : S.machine.env w s.world ∧ (∀ t ∈ s.strands, S.machine.env w t.start ∧
      ∀ l r w', Played S.machine t.rest s.world l r w' →
        Played S.machine (S.body t.job) t.start (t.log ++ l) r w') ∧
      ∀ o ∈ s.outcomes, S.machine.env w o.start ∧
        Played S.machine (S.body o.job) o.start o.log o.result o.world from h.2.2
  induction hsteps with
  | refl => exact ⟨hrefl w, by rintro t ⟨⟩, by rintro o ⟨⟩⟩
  | @tail s s' _ hstep ih =>
    obtain ⟨ihw, ihs, iho⟩ := ih
    cases hstep with
    | start j =>
      refine ⟨ihw, fun t ht => ?_, iho⟩
      rcases List.mem_cons.mp ht with rfl | ht
      · exact ⟨ihw, fun l r w' hp => hp⟩
      · exact ihs t ht
    | @act before after j w₀ l q k a w₁ hstrands hact =>
      have hmoved : S.machine.env s.world w₁ := hothers q _ a w₁ hact
      have hkeep : ∀ t ∈ s.strands, S.machine.env w t.start ∧
          ∀ l r w', Played S.machine t.rest w₁ l r w' →
            Played S.machine (S.body t.job) t.start (t.log ++ l) r w' :=
        fun t ht => ⟨(ihs t ht).1, fun l r w' hp => (ihs t ht).2 l r w' (hp.head htrans hmoved)⟩
      refine ⟨htrans _ _ _ ihw hmoved, fun t ht => ?_, iho⟩
      rcases List.mem_append.mp ht with ht | ht
      · exact hkeep t (by simp [hstrands, ht])
      rcases List.mem_cons.mp ht with rfl | ht
      · obtain ⟨hstart, hrest⟩ := ihs ⟨j, w₀, l, .ask q k⟩ (by simp [hstrands])
        refine ⟨hstart, fun l' r w' hp => ?_⟩
        rw [List.append_assoc]
        exact hrest _ r w' ⟨s.world, a, w₁, l', hrefl _, hact, rfl, hp⟩
      · exact hkeep t (by simp [hstrands, ht])
    | @finish before after j w₀ l r hstrands =>
      refine ⟨ihw, fun t ht => ihs t ?_, fun o ho => ?_⟩
      · rw [hstrands]
        rcases List.mem_append.mp ht with ht | ht <;> simp [ht]
      rcases List.mem_cons.mp ho with rfl | ho
      · obtain ⟨hstart, hrest⟩ := ihs ⟨j, w₀, l, .done r⟩ (by simp [hstrands])
        have hdone := hrest [] r s.world ⟨rfl, rfl, hrefl _⟩
        rw [List.append_nil] at hdone
        exact ⟨hstart, hdone⟩
      · exact iho o ho
    | outside hout =>
      have hmoved := houter _ _ hout
      refine ⟨htrans _ _ _ ihw hmoved, fun t ht => ?_, iho⟩
      exact ⟨(ihs t ht).1, fun l r w' hp => (ihs t ht).2 l r w' (hp.head htrans hmoved)⟩
    | lose hsub => exact ⟨ihw, fun t ht => ihs t (hsub.subset ht), iho⟩

/-! ## One job by itself -/

section Solo

variable {S : Pool Q A W J R} {step : (q : Q) → W → A q × W}

theorem Steps.rest
    (hstep : ∀ q w, ∃ w₁, S.outside w w₁ ∧ S.machine.act q w₁ (step q w).1 (step q w).2) {j : J}
    (p : Prog Q A (R j)) {s : State Q A W J R} {w₀ : W} {l : List (Entry Q A W)}
    {others : List (Strand Q A W J R)} (hstrands : s.strands = ⟨j, w₀, l, p⟩ :: others) :
    ∃ l', S.Steps s
      { world := (p.exec step s.world).2
        strands := ⟨j, w₀, l', .done (p.exec step s.world).1⟩ :: others
        outcomes := s.outcomes } := by
  induction p generalizing s l with
  | done r =>
    obtain ⟨w, strands, outcomes⟩ := s
    subst hstrands
    exact ⟨l, .refl⟩
  | ask q k ih =>
    obtain ⟨w₁, hout, hact⟩ := hstep q s.world
    have hfirst : ({ s with world := w₁ } : State Q A W J R).strands
        = [] ++ ⟨j, w₀, l, .ask q k⟩ :: others := hstrands
    obtain ⟨l', hrest⟩ := ih (step q s.world).1 (s := { s with
      world := (step q s.world).2
      strands := ⟨j, w₀, l ++ [⟨q, (step q s.world).1, w₁, (step q s.world).2⟩],
        k (step q s.world).1⟩ :: others }) rfl
    exact ⟨l', .head (Step.outside hout) (.head (Step.act hfirst hact) hrest)⟩

theorem Step.finish_first {s : State Q A W J R} {j : J} {w₀ : W} {l : List (Entry Q A W)} {r : R j}
    {others : List (Strand Q A W J R)} (hstrands : s.strands = ⟨j, w₀, l, .done r⟩ :: others) :
    S.Step s { s with strands := others, outcomes := ⟨j, w₀, l, r, s.world⟩ :: s.outcomes } := by
  have hfirst : s.strands = [] ++ ⟨j, w₀, l, .done r⟩ :: others := hstrands
  exact Step.finish hfirst

/-- **A job can run from start to end** by itself. -/
theorem Steps.exec
    (hstep : ∀ q w, ∃ w₁, S.outside w w₁ ∧ S.machine.act q w₁ (step q w).1 (step q w).2) (w : W)
    (j : J) : ∃ s, S.Steps (.initial w) s ∧ s.world = ((S.body j).exec step w).2 ∧
      ∃ l, s.outcomes = [⟨j, w, l, ((S.body j).exec step w).1, ((S.body j).exec step w).2⟩] := by
  obtain ⟨l, hrest⟩ := Steps.rest hstep (S.body j)
    (s := { State.initial w with strands := [⟨j, w, [], S.body j⟩] }) rfl
  exact ⟨_, .head (Step.start (.initial w) j) (.tail hrest (Step.finish_first rfl)), rfl, l, rfl⟩

end Solo

end Pool

/-! ## Interference between strands -/

theorem Sat.relog {M : Machine Q A W} {G : W → W → Prop} {post : α → W → Prop} {p : Prog Q A α}
    {l : List (Entry Q A W)} {w : W} (h : Sat M G (fun a _ => post a) p l w)
    (l' : List (Entry Q A W)) : Sat M G (fun a _ => post a) p l' w := by
  induction p generalizing l l' w with
  | done a => exact h
  | ask q k ih =>
    intro w₁ henv a w₂ hact
    obtain ⟨hg, hk⟩ := h w₁ henv a w₂ hact
    exact ⟨hg, ih a hk _⟩

/-- Where every action may also be interference, the world a program ends in is one the
environment could have led to. -/
theorem Sat.follows {M : Machine Q A W} {G : W → W → Prop}
    {post : α → List (Entry Q A W) → W → Prop} (hrefl : ∀ w, M.env w w)
    (htrans : ∀ w₁ w₂ w₃, M.env w₁ w₂ → M.env w₂ w₃ → M.env w₁ w₃)
    (hact : ∀ q w a w', M.act q w a w' → M.env w w') {p : Prog Q A α}
    {l : List (Entry Q A W)} {w : W} (h : Sat M G post p l w) :
    Sat M G (fun a l' w' => post a l' w' ∧ M.env w w') p l w := by
  induction p generalizing l w with
  | done a => exact ⟨h, hrefl w⟩
  | ask q k ih =>
    intro w₁ henv a w₂ ha
    obtain ⟨hg, hk⟩ := h w₁ henv a w₂ ha
    refine ⟨hg, (ih a hk).post_mono ?_⟩
    rintro b l' w' ⟨hpost, hlater⟩
    exact ⟨hpost, htrans _ _ _ (htrans _ _ _ henv (hact q w₁ a w₂ ha)) hlater⟩

end Interact
