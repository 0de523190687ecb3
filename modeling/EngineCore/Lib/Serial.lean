import EngineCore.Lib.Prog

/-!
# Services whose calls run one at a time

A service owns a world and answers calls. A call runs its program inside one critical section:
no other call acts until it has finished or the service has crashed. Between any two actions the
environment may change the world.

* **`Sound.steps`**: a sound pair holds along every run, for the running call and for each
  finished one.
-/

namespace Interact

variable {Q : Type} {A : Q → Type} {W C : Type} {R : C → Type}

/-- Calls `C` with results `R`, run one at a time over a machine. -/
structure Service (Q : Type) (A : Q → Type) (W C : Type) (R : C → Type) where
  machine : Machine Q A W
  body : (c : C) → Prog Q A (R c)
  ready : C → W → Prop
  settle : (c : C) → R c → W → W
  reboot : W → W

namespace Service

/-- The call inside the critical section: its log so far and what is left of its body. -/
structure Active (Q : Type) (A : Q → Type) (W C : Type) (R : C → Type) where
  call : C
  log : List (Entry Q A W)
  rest : Prog Q A (R call)

/-- A finished call, with the world at its return. -/
structure Record (Q : Type) (A : Q → Type) (W C : Type) (R : C → Type) where
  call : C
  log : List (Entry Q A W)
  result : R call
  world : W

/-- The world, the running call and every finished one. -/
structure State (Q : Type) (A : Q → Type) (W C : Type) (R : C → Type) where
  world : W
  active : Option (Active Q A W C R)
  records : List (Record Q A W C R)

/-- One step of the service, of its environment, or a crash. -/
inductive Step (S : Service Q A W C R) : State Q A W C R → State Q A W C R → Prop
  | start {s : State Q A W C R} (c : C) (hfree : s.active = none) (hready : S.ready c s.world) :
      Step S s { s with active := some ⟨c, [], S.body c⟩ }
  | act {s : State Q A W C R} {c : C} {l : List (Entry Q A W)} {q : Q} {k : A q → Prog Q A (R c)}
      {a : A q} {w : W} (hactive : s.active = some ⟨c, l, .ask q k⟩)
      (hact : S.machine.act q s.world a w) :
      Step S s { s with world := w, active := some ⟨c, l ++ [⟨q, a, s.world, w⟩], k a⟩ }
  | finish {s : State Q A W C R} {c : C} {l : List (Entry Q A W)} {r : R c}
      (hactive : s.active = some ⟨c, l, .done r⟩) :
      Step S s
        { world := S.settle c r s.world, active := none
          records := ⟨c, l, r, s.world⟩ :: s.records }
  | interfere {s : State Q A W C R} {w : W} (henv : S.machine.env s.world w) :
      Step S s { s with world := w }
  | crash (s : State Q A W C R) : Step S s { s with world := S.reboot s.world, active := none }

abbrev Steps (S : Service Q A W C R) : State Q A W C R → State Q A W C R → Prop :=
  Relation.ReflTransGen S.Step

/-- The service at rest in `w`, with no call made yet. -/
def State.initial (w : W) : State Q A W C R := ⟨w, none, []⟩

/-- An invariant `I` of the world that the actions of a call keep under its guarantee `G`, and a
postcondition that each body meets and interference does not spoil. -/
structure Sound (S : Service Q A W C R) (I : W → Prop) (G : C → W → W → Prop)
    (post : (c : C) → R c → List (Entry Q A W) → W → Prop) : Prop where
  refl : ∀ w, S.machine.env w w
  trans : ∀ w₁ w₂ w₃, S.machine.env w₁ w₂ → S.machine.env w₂ w₃ → S.machine.env w₁ w₃
  stable : ∀ c r l w w', S.machine.env w w' → post c r l w → post c r l w'
  env : ∀ w w', I w → S.machine.env w w' → I w'
  act : ∀ c q w a w', I w → S.machine.act q w a w' → G c w w' → I w'
  settle : ∀ c r l w, I w → post c r l w → I (S.settle c r w)
  reboot : ∀ w, I w → I (S.reboot w)
  body : ∀ c w, I w → S.ready c w → Sat S.machine (G c) (post c) (S.body c) [] w

variable {S : Service Q A W C R}

/-- The invariant, the running call's remaining obligation, and every finished call's promise. -/
structure Holds (S : Service Q A W C R) (I : W → Prop) (G : C → W → W → Prop)
    (post : (c : C) → R c → List (Entry Q A W) → W → Prop) (s : State Q A W C R) : Prop where
  world : I s.world
  active : ∀ a, s.active = some a → Sat S.machine (G a.call) (post a.call) a.rest a.log s.world
  records : ∀ r ∈ s.records, post r.call r.result r.log r.world

section Rule

variable {I : W → Prop} {G : C → W → W → Prop}
variable {post : (c : C) → R c → List (Entry Q A W) → W → Prop}
variable {s s' : State Q A W C R}

theorem Sound.step (hs : S.Sound I G post) (h : S.Holds I G post s) (hstep : S.Step s s') :
    S.Holds I G post s' := by
  cases hstep with
  | start c hfree hready =>
    refine ⟨h.world, ?_, h.records⟩
    rintro a ⟨⟩
    exact hs.body c _ h.world hready
  | act hactive hact =>
    obtain ⟨hg, hk⟩ := h.active _ hactive _ (hs.refl _) _ _ hact
    refine ⟨hs.act _ _ _ _ _ h.world hact hg, ?_, h.records⟩
    rintro a ⟨⟩
    exact hk
  | finish hactive =>
    have hpost := h.active _ hactive
    refine ⟨hs.settle _ _ _ _ h.world hpost, by rintro a ⟨⟩, ?_⟩
    intro r hr
    rcases List.mem_cons.mp hr with rfl | hr
    · exact hpost
    · exact h.records r hr
  | interfere henv =>
    refine ⟨hs.env _ _ h.world henv, fun a ha => ?_, h.records⟩
    exact (h.active a ha).env hs.trans (hs.stable a.call) henv
  | crash => exact ⟨hs.reboot _ h.world, by rintro a ⟨⟩, h.records⟩

/-- **The rule**: a sound invariant and its postconditions hold along every run. -/
theorem Sound.steps (hs : S.Sound I G post) (h : S.Holds I G post s) (hsteps : S.Steps s s') :
    S.Holds I G post s' := by
  induction hsteps with
  | refl => exact h
  | tail _ hstep ih => exact hs.step ih hstep

theorem Sound.initial (hs : S.Sound I G post) {w : W} (hw : I w)
    (hsteps : S.Steps (State.initial w) s) : S.Holds I G post s :=
  hs.steps ⟨hw, by rintro a ⟨⟩, by rintro r ⟨⟩⟩ hsteps

end Rule

/-- The calls that have finished since `s`. -/
def State.since (s s' : State Q A W C R) : List (Record Q A W C R) :=
  s'.records.take (s'.records.length - s.records.length)

theorem State.mem_since {s s' : State Q A W C R} {r : Record Q A W C R} (h : r ∈ s.since s') :
    r ∈ s'.records :=
  List.mem_of_mem_take h

theorem State.since_eq {s s' : State Q A W C R} {new : List (Record Q A W C R)}
    (h : s'.records = new ++ s.records) : s.since s' = new := by
  simp [State.since, h]

section Records

variable {s s' : State Q A W C R} {r : Record Q A W C R}

/-- Only a return adds a record. -/
theorem Step.records (h : S.Step s s') : s'.records = s.records ∨
    ∃ c l r, s.active = some ⟨c, l, .done r⟩ ∧ s' =
      { world := S.settle c r s.world, active := none
        records := ⟨c, l, r, s.world⟩ :: s.records } := by
  cases h with
  | finish hactive => exact .inr ⟨_, _, _, hactive, rfl⟩
  | _ => exact .inl rfl

theorem Steps.records_length (h : S.Steps s s') : s.records.length ≤ s'.records.length := by
  induction h with
  | refl => exact Nat.le_refl _
  | tail _ hstep ih =>
    rcases hstep.records with hrec | ⟨c, l, r, _, rfl⟩
    · rwa [hrec]
    · exact Nat.le_succ_of_le ih

theorem Steps.mem_since (h : S.Steps s s') (hr : r ∈ s.since s') :
    ∃ t, S.Steps s t ∧ t.world = r.world ∧ S.Steps t s' := by
  induction h with
  | refl => simp [State.since] at hr
  | @tail t t' hsteps hstep ih =>
    have hlen := Steps.records_length hsteps
    have hold : r ∈ s.since t → ∃ u, S.Steps s u ∧ u.world = r.world ∧ S.Steps u t' := by
      intro hr
      obtain ⟨u, hu, hw, hu'⟩ := ih hr
      exact ⟨u, hu, hw, hu'.tail hstep⟩
    rcases hstep.records with hrec | ⟨c, l, r', hactive, rfl⟩
    · rw [State.since, hrec] at hr
      exact hold hr
    · have hsub : t.records.length + 1 - s.records.length =
          t.records.length - s.records.length + 1 := by omega
      simp only [State.since, List.length_cons, hsub, List.take_succ_cons] at hr
      rcases List.mem_cons.mp hr with rfl | hr
      · exact ⟨t, hsteps, rfl, .single hstep⟩
      · exact hold hr

theorem Steps.returned (h : S.Steps s s') {new old : List (Record Q A W C R)}
    (hr : s'.records = new ++ r :: old) (hold : s.records.length ≤ old.length) :
    ∃ t, S.Steps s t ∧ t.active = none ∧ t.records = r :: old ∧
      t.world = S.settle r.call r.result r.world ∧ S.Steps t s' := by
  induction h generalizing new with
  | refl =>
    rw [hr, List.length_append, List.length_cons] at hold
    omega
  | @tail t t' hsteps hstep ih =>
    have hbefore : ∀ {new}, t.records = new ++ r :: old → ∃ u, S.Steps s u ∧ u.active = none ∧
        u.records = r :: old ∧ u.world = S.settle r.call r.result r.world ∧ S.Steps u t' := by
      intro new hr
      obtain ⟨u, hu, hfree, hrec, hworld, hu'⟩ := ih hr
      exact ⟨u, hu, hfree, hrec, hworld, hu'.tail hstep⟩
    rcases hstep.records with hrec | ⟨c, l, r', hactive, rfl⟩
    · exact hbefore (hrec ▸ hr)
    cases new with
    | nil =>
      obtain ⟨rfl, rfl⟩ := List.cons.inj hr
      exact ⟨_, hsteps.tail hstep, rfl, rfl, rfl, .refl⟩
    | cons x new => exact hbefore (List.cons.inj hr).2

theorem Steps.forget (h : S.Steps s s') :
    S.Steps { s with records := [] } { s' with records := s.since s' } := by
  have hnew : ∃ new, s'.records = new ++ s.records ∧
      S.Steps { s with records := [] } { s' with records := new } := by
    induction h with
    | refl => exact ⟨[], rfl, .refl⟩
    | @tail t t' hsteps hstep ih =>
      obtain ⟨new, hnew, hrun⟩ := ih
      cases hstep with
      | start c hfree hready => exact ⟨new, hnew, hrun.tail (.start c hfree hready)⟩
      | act hactive hact => exact ⟨new, hnew, hrun.tail (.act hactive hact)⟩
      | finish hactive =>
        exact ⟨_ :: new, congrArg (List.cons _) hnew, hrun.tail (.finish hactive)⟩
      | interfere henv => exact ⟨new, hnew, hrun.tail (.interfere henv)⟩
      | crash => exact ⟨new, hnew, hrun.tail (.crash { t with records := new })⟩
  obtain ⟨new, hnew, hrun⟩ := hnew
  rw [State.since_eq hnew]
  exact hrun

end Records

theorem Sound.since {I : W → Prop} {G : C → W → W → Prop}
    {post : (c : C) → R c → List (Entry Q A W) → W → Prop} (hs : S.Sound I G post)
    {s s' : State Q A W C R} (hfree : s.active = none) (h : I s.world) (hsteps : S.Steps s s') :
    I s'.world ∧ ∀ r ∈ s.since s', post r.call r.result r.log r.world := by
  have hholds := hs.steps (s := { s with records := [] })
    ⟨h, by rw [hfree]; rintro a ⟨⟩, by rintro r ⟨⟩⟩ hsteps.forget
  exact ⟨hholds.world, hholds.records⟩

/-- The calls that have begun: every finished one, and the one that is running. -/
def State.begun (s : State Q A W C R) : Nat := s.records.length + s.active.toList.length

/-- The entry was made in the run from `s` to `s'`. -/
def Made (S : Service Q A W C R) (s s' : State Q A W C R) (e : Entry Q A W) : Prop :=
  ∃ t t', S.Steps s t ∧ t.world = e.before ∧ S.Step t t' ∧ t'.world = e.after ∧ S.Steps t' s'

theorem Made.tail {s t t' : State Q A W C R} {e : Entry Q A W}
    (h : S.Made s t e) (hstep : S.Step t t') : S.Made s t' e := by
  obtain ⟨u, u', hu, hbefore, hstep', hafter, hu'⟩ := h
  exact ⟨u, u', hu, hbefore, hstep', hafter, hu'.tail hstep⟩

/-- The call finished at some moment of the run, after all of its actions. -/
def Ended (S : Service Q A W C R) (s s' : State Q A W C R) (r : Record Q A W C R) : Prop :=
  ∃ t, S.Steps s t ∧ t.world = r.world ∧ S.Steps t s' ∧ ∀ e ∈ r.log, S.Made s t e

theorem Ended.tail {s t t' : State Q A W C R} {r : Record Q A W C R}
    (h : S.Ended s t r) (hstep : S.Step t t') : S.Ended s t' r := by
  obtain ⟨u, hu, hw, hu', hlog⟩ := h
  exact ⟨u, hu, hw, hu'.tail hstep, hlog⟩

theorem Steps.ended {s s' : State Q A W C R} (h : S.Steps s s')
    {r : Record Q A W C R} (hr : r ∈ s'.records.take (s'.records.length - s.begun)) :
    S.Ended s s' r := by
  -- while a call that had begun is unfinished, there are fewer records than had begun
  suffices hboth : (s.begun ≤ s'.records.length → ∀ a, s'.active = some a →
      ∀ e ∈ a.log, S.Made s s' e) ∧
      ∀ r ∈ s'.records.take (s'.records.length - s.begun), S.Ended s s' r from hboth.2 r hr
  clear hr r
  induction h with
  | refl =>
    refine ⟨fun hle a ha => ?_, fun r hr => ?_⟩
    · simp only [State.begun, ha, Option.toList_some, List.length_singleton] at hle
      omega
    · have hzero : s.records.length - s.begun = 0 := by
        unfold State.begun
        omega
      simp [hzero] at hr
  | @tail t t' hsteps hstep ih =>
    obtain ⟨hactive, hrecords⟩ := ih
    cases hstep with
    | start c hfree hready =>
      have hstep : S.Step t { t with active := some ⟨c, [], S.body c⟩ } := .start c hfree hready
      refine ⟨?_, fun r hr => (hrecords r hr).tail hstep⟩
      rintro _ a ⟨⟩ e he
      cases he
    | @act c l q k a w hact ha =>
      have hstep : S.Step t { t with
          world := w, active := some ⟨c, l ++ [⟨q, a, t.world, w⟩], k a⟩ } := .act hact ha
      refine ⟨?_, fun r hr => (hrecords r hr).tail hstep⟩
      rintro hle b ⟨⟩ e he
      rcases List.mem_append.mp he with he | he
      · exact (hactive hle _ hact e he).tail hstep
      · obtain rfl := List.mem_singleton.mp he
        exact ⟨t, _, hsteps, rfl, hstep, rfl, .refl⟩
    | @finish c l r hact =>
      have hstep := Step.finish (S := S) hact
      refine ⟨by rintro _ a ⟨⟩, fun r' hr => ?_⟩
      simp only [List.length_cons] at hr
      by_cases hle : s.begun ≤ t.records.length
      · have hsub : t.records.length + 1 - s.begun = t.records.length - s.begun + 1 := by omega
        rw [hsub, List.take_succ_cons] at hr
        rcases List.mem_cons.mp hr with rfl | hr
        · exact ⟨t, hsteps, rfl, .single hstep, fun e he => hactive hle _ hact e he⟩
        · exact (hrecords r' hr).tail hstep
      · have hzero : t.records.length + 1 - s.begun = 0 := by omega
        simp [hzero] at hr
    | interfere henv =>
      refine ⟨fun hle a ha e he => ?_, fun r hr => (hrecords r hr).tail (.interfere henv)⟩
      exact (hactive hle a ha e he).tail (.interfere henv)
    | crash =>
      exact ⟨by rintro _ a ⟨⟩, fun r hr => (hrecords r hr).tail (.crash t)⟩

theorem Steps.pairwise {w : W} {s : State Q A W C R}
    {Φ : Record Q A W C R → Record Q A W C R → Prop} (h : S.Steps (.initial w) s)
    (hΦ : ∀ t r r', S.Steps (.initial w) t → t.records.head? = some r →
      t.world = S.settle r.call r.result r.world → S.Steps t s → S.Ended t s r' →
      r' ∈ s.records → Φ r' r) : s.records.Pairwise Φ := by
  have hsplit : ∀ new r old, s.records = new ++ r :: old → ∀ r' ∈ new, Φ r' r := by
    intro new r old hr r' hr'
    obtain ⟨t, ht, hfree, hrec, hworld, hrun⟩ := Steps.returned h hr (Nat.zero_le _)
    have hbegun : s.records.length - t.begun = new.length := by
      rw [State.begun, hfree, hrec, hr]
      simp
    have hended : S.Ended t s r' := by
      refine Steps.ended hrun ?_
      rw [hbegun, hr, List.take_left]
      exact hr'
    exact hΦ t r r' ht (by rw [hrec]; rfl) hworld hrun hended
      (by rw [hr]; exact List.mem_append_left _ hr')
  clear hΦ
  generalize s.records = l at hsplit
  induction l with
  | nil => exact .nil
  | cons x l ih =>
    refine .cons (fun r hr => ?_) (ih fun new r old hl r' hr' => ?_)
    · obtain ⟨new, old, rfl⟩ := List.append_of_mem hr
      exact hsplit (x :: new) r old rfl x (List.mem_cons_self ..)
    · exact hsplit (x :: new) r old (congrArg (List.cons x) hl) r' (List.mem_cons_of_mem _ hr')

/-- A property of the world holds until some step leaves it; as long as none has, it holds in the
world of every call that has finished since. -/
theorem Steps.leaves (I : W → Prop) {s s' : State Q A W C R}
    (hsteps : S.Steps s s') (h : I s.world) :
    (I s'.world ∧ ∀ r ∈ s.since s', I r.world) ∨
      ∃ t t', S.Steps s t ∧ S.Step t t' ∧ S.Steps t' s' ∧ I t.world ∧ ¬I t'.world := by
  have hnew : (I s'.world ∧ ∃ new, s'.records = new ++ s.records ∧ ∀ r ∈ new, I r.world) ∨
      ∃ t t', S.Steps s t ∧ S.Step t t' ∧ S.Steps t' s' ∧ I t.world ∧ ¬I t'.world := by
    induction hsteps with
    | refl => exact .inl ⟨h, [], rfl, by simp⟩
    | @tail t t' hsteps hstep ih =>
      rcases ih with ⟨ht, new, hnew, hI⟩ | ⟨u, u', hu, hstep', hu', hIu⟩
      · by_cases ht' : I t'.world
        · refine .inl ⟨ht', ?_⟩
          rcases hstep.records with hrec | ⟨c, l, r', hactive, rfl⟩
          · exact ⟨new, hrec.trans hnew, hI⟩
          · exact ⟨_ :: new, congrArg (List.cons _) hnew, List.forall_mem_cons.mpr ⟨ht, hI⟩⟩
        · exact .inr ⟨t, t', hsteps, hstep, .refl, ht, ht'⟩
      · exact .inr ⟨u, u', hu, hstep', hu'.tail hstep, hIu⟩
  refine hnew.imp ?_ id
  rintro ⟨hs', new, hnew, hI⟩
  rw [State.since_eq hnew]
  exact ⟨hs', hI⟩

/-- A property of the world that every action, interference, return and crash keeps holds along
every run, and in the world of every call that has finished since; nothing is asked of the calls'
bodies. -/
theorem Steps.world {I : W → Prop} {s s' : State Q A W C R}
    (henv : ∀ w w', I w → S.machine.env w w' → I w')
    (hact : ∀ q w a w', I w → S.machine.act q w a w' → I w')
    (hsettle : ∀ c r w, I w → I (S.settle c r w)) (hreboot : ∀ w, I w → I (S.reboot w))
    (hsteps : S.Steps s s') (h : I s.world) : I s'.world ∧ ∀ r ∈ s.since s', I r.world := by
  refine (Steps.leaves I hsteps h).resolve_right ?_
  rintro ⟨t, t', _, hstep, _, ht, ht'⟩
  refine ht' ?_
  cases hstep with
  | start => exact ht
  | act _ ha => exact hact _ _ _ _ ht ha
  | finish => exact hsettle _ _ _ ht
  | interfere he => exact henv _ _ ht he
  | crash => exact hreboot _ ht

theorem Steps.only {Ψ : C → Q → Prop} {w : W} {s : State Q A W C R}
    (hbody : ∀ c, (S.body c).Only (Ψ c)) (hsteps : S.Steps (.initial w) s)
    {a : Active Q A W C R} (ha : s.active = some a) : a.rest.Only (Ψ a.call) := by
  induction hsteps generalizing a with
  | refl => cases ha
  | tail _ hstep ih =>
    cases hstep with
    | start c hfree hready =>
      cases ha
      exact hbody c
    | act hactive hact =>
      cases ha
      exact (ih hactive).2 _
    | finish hactive => cases ha
    | interfere henv => exact ih ha
    | crash => cases ha

/-- The state after a call that ran undisturbed, its queries answered by `step`. -/
def State.after (S : Service Q A W C R) (step : (q : Q) → W → A q × W) (s : State Q A W C R)
    (c : C) : State Q A W C R :=
  let out := (S.body c).exec step s.world
  { world := S.settle c out.1 out.2, active := none
    records := ⟨c, (S.body c).trace step s.world, out.1, out.2⟩ :: s.records }

theorem State.mem_after {step : (q : Q) → W → A q × W}
    {s : State Q A W C R} {c : C} {r : R c} (h : ((S.body c).exec step s.world).1 = r) :
    ⟨c, (S.body c).trace step s.world, r, ((S.body c).exec step s.world).2⟩ ∈
      (s.after S step c).records := by
  rw [← h]
  exact List.mem_cons_self

def Runs (S : Service Q A W C R) (s s' : State Q A W C R) : Prop :=
  S.Step s s' ∧ s'.active.map Active.call = s.active.map Active.call

theorem Runs.rest {step : (q : Q) → W → A q × W}
    (hstep : ∀ q w, S.machine.act q w (step q w).1 (step q w).2) {c : C} (p : Prog Q A (R c))
    {s : State Q A W C R} {l : List (Entry Q A W)} (hactive : s.active = some ⟨c, l, p⟩) :
    Relation.ReflTransGen S.Runs s
      { world := (p.exec step s.world).2
        active := some ⟨c, l ++ p.trace step s.world, .done (p.exec step s.world).1⟩
        records := s.records } := by
  induction p generalizing s l with
  | done r =>
    obtain ⟨w, act, rs⟩ := s
    subst hactive
    simpa [Prog.exec, Prog.trace] using Relation.ReflTransGen.refl
  | ask q k ih =>
    refine .head ⟨Step.act hactive (hstep q s.world), by simp [hactive]⟩ ?_
    have := ih (step q s.world).1 (s := { s with
      world := (step q s.world).2
      active := some ⟨c, l ++ [⟨q, (step q s.world).1, s.world, (step q s.world).2⟩],
        k (step q s.world).1⟩ }) rfl
    simpa [Prog.exec, Prog.trace] using this

theorem Steps.call {step : (q : Q) → W → A q × W}
    (hstep : ∀ q w, S.machine.act q w (step q w).1 (step q w).2) {s : State Q A W C R}
    (hfree : s.active = none) {c : C} (hready : S.ready c s.world) :
    S.Steps s (s.after S step c) := by
  have hrun := Runs.rest hstep (S.body c) (s := { s with active := some ⟨c, [], S.body c⟩ }) rfl
  have hsteps := Relation.ReflTransGen.mono (fun _ _ h => h.1) _ _ hrun
  exact .head (Step.start c hfree hready) (.tail hsteps (Step.finish rfl))

end Service

end Interact
