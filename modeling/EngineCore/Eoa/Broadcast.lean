import EngineCore.Lib.Pool
import Mathlib.Data.Nat.Notation
import Mathlib.Tactic.SplitIfs

/-!
# Authorize in order, dispatch side by side

`authorize_then_dispatch` drives two kinds of futures: authorizations, one at a time and in input
order, and dispatches, at most `concurrency` in the buffer. A future is a program; to poll it is to
put its next query. What is polled next is up to the executor, so a run is driven by the answers of
a `pick` program.

* **`sat_authorizeThenDispatch`**: if an authorization that succeeds makes an index ready, and a
  dispatch keeps the guarantee where its index is ready, then the whole stream keeps it.
-/

namespace Interact

variable {Q : Type} {A : Q → Type} {W α : Type}

def Prog.poll : Prog Q A α → Prog Q A (Prog Q A α)
  | .done a => .done (.done a)
  | .ask q k => .ask q fun a => .done (k a)

theorem Sat.poll {M : Machine Q A W} {G : W → W → Prop} {post : α → W → Prop} {p : Prog Q A α}
    {w : W} (h : Sat M G (fun a _ => post a) p [] w) (l : List (Entry Q A W)) :
    Sat M G (fun p' _ w' => Sat M G (fun a _ => post a) p' [] w') p.poll l w := by
  cases p with
  | done a => exact h
  | ask q k =>
    intro w₁ henv a w₂ hact
    obtain ⟨hg, hk⟩ := h w₁ henv a w₂ hact
    exact ⟨hg, hk.relog []⟩

end Interact

namespace EngineCore.Eoa

open Interact

variable {Q : Type} {A : Q → Type} {W ε τ : Type}

/-! ## The stream -/

/-- A future in the buffer: not polled yet, with its authorization; started; or finished. -/
inductive Slot (Q : Type) (A : Q → Type) (ε τ : Type)
  | queued (index : ℕ) (authorization : Except ε Unit)
  | started (future : Prog Q A τ)
  | ready (outcome : Except ε (Option τ))

/-- The producer, the flag it shares with the futures, the buffer and what has left it. -/
structure Stream (Q : Type) (A : Q → Type) (ε τ : Type) where
  index : ℕ := 0
  stopped : Bool := false
  authorizing : Option (Prog Q A (Except ε Unit)) := none
  authorizationFailed : Bool := false
  slots : List (Slot Q A ε τ) := []
  outcomes : List (Except ε (Option τ)) := []

/-- What is polled next: the producer, or one future of the buffer. -/
inductive Poll
  | producer
  | slot (position : ℕ)
  deriving DecidableEq, Repr

def Slot.outcome : Slot Q A ε τ → Option (Except ε (Option τ))
  | .ready outcome => some outcome
  | _ => none

/-- Finished futures leave the buffer in order. -/
def Stream.collect (s : Stream Q A ε τ) : Stream Q A ε τ :=
  { s with
    slots := s.slots.dropWhile fun slot => slot.outcome.isSome
    outcomes := s.outcomes ++
      (s.slots.takeWhile fun slot => slot.outcome.isSome).filterMap Slot.outcome }

/-- An authorization has ended: its index enters the buffer, and an error stops the producer. -/
def Stream.yield (s : Stream Q A ε τ) (authorization : Except ε Unit) : Stream Q A ε τ :=
  { s with
    index := s.index + 1
    stopped := authorization.toOption.isNone
    authorizing := none
    authorizationFailed := s.authorizationFailed || authorization.toOption.isNone
    slots := s.slots ++ [.queued s.index authorization] }

def Stream.authorize (s : Stream Q A ε τ) (future : Prog Q A (Except ε Unit)) :
    Prog Q A (Stream Q A ε τ) := do
  match ← future.poll with
  | .done authorization => return s.yield authorization
  | future => return { s with authorizing := some future }

def Slot.dispatch (future : Prog Q A τ) : Prog Q A (Slot Q A ε τ) := do
  match ← future.poll with
  | .done t => return .ready (.ok (some t))
  | future => return .started future

section Driver

variable (count concurrency : ℕ) (authorize : ℕ → Prog Q A (Except ε Unit))
variable (dispatch : ℕ → Prog Q A τ)

/-- Poll a future of the buffer. A known failure suppresses what has not started. -/
def Slot.poll (authorizationFailed : Bool) : Slot Q A ε τ → Prog Q A (Slot Q A ε τ)
  | .queued _ (.error e) => return .ready (.error e)
  | .queued index (.ok _) =>
    if authorizationFailed then return .ready (.ok none) else Slot.dispatch (dispatch index)
  | .started future => Slot.dispatch future
  | .ready outcome => return .ready outcome

/-- Poll the producer, while the buffer has room. -/
def Stream.produce (s : Stream Q A ε τ) : Prog Q A (Stream Q A ε τ) :=
  if concurrency ≤ s.slots.length then return s
  else
    match s.authorizing with
    | some future => s.authorize future
    | none => if s.stopped ∨ s.index = count then return s else s.authorize (authorize s.index)

def Stream.poll (s : Stream Q A ε τ) : Poll → Prog Q A (Stream Q A ε τ)
  | .producer => s.produce count concurrency authorize
  | .slot position =>
    match s.slots[position]? with
    | none => return s
    | some slot => do
      let slot ← slot.poll dispatch s.authorizationFailed
      return { s with slots := s.slots.set position slot }.collect

def Stream.Finished (s : Stream Q A ε τ) : Prop :=
  s.authorizing.isNone ∧ (s.stopped ∨ s.index = count) ∧ s.slots.isEmpty

instance (s : Stream Q A ε τ) : Decidable (s.Finished count) := by
  unfold Stream.Finished
  infer_instance

/-- The first error, or what was dispatched. -/
def Stream.result (s : Stream Q A ε τ) : Except ε (List τ) :=
  (s.outcomes.mapM id).map fun outcomes => outcomes.filterMap id

/-- At most `fuel` polls; `none` if the futures were dropped before the end. -/
def Stream.drive (pick : Prog Q A Poll) : ℕ → Stream Q A ε τ →
    Prog Q A (Option (Except ε (List τ)))
  | 0, _ => return none
  | fuel + 1, s =>
    if s.Finished count then return some s.result
    else do
      let next ← pick
      let s ← s.poll count concurrency authorize dispatch next
      s.drive pick fuel

/-- The whole stream. With no room in the buffer the call panics. -/
def authorizeThenDispatch (pick : Prog Q A Poll) (fuel : ℕ) :
    Prog Q A (Option (Except ε (List τ))) :=
  if concurrency = 0 then return none
  else Stream.drive count concurrency authorize dispatch pick fuel {}

/-- `buffered` over futures that are there from the start. -/
def buffered (pick : Prog Q A Poll) (fuel : ℕ) : Prog Q A (Option (Except ε (List τ))) :=
  authorizeThenDispatch count concurrency (fun _ => return .ok ()) dispatch pick fuel

end Driver

/-! ## Its guarantee -/

section Guarantee

variable {M : Machine Q A W} {G : W → W → Prop} {Ready : ℕ → W → Prop} {w w' : W}

def Slot.Safe (M : Machine Q A W) (G : W → W → Prop) (Ready : ℕ → W → Prop) (w : W) :
    Slot Q A ε τ → Prop
  | .queued index (.ok _) => Ready index w
  | .queued _ (.error _) => True
  | .started future => Sat M G (fun _ _ _ => True) future [] w
  | .ready _ => True

/-- An authorized index is ready, and every future under way keeps the guarantee. -/
structure Stream.Safe (M : Machine Q A W) (G : W → W → Prop) (Ready : ℕ → W → Prop) (w : W)
    (s : Stream Q A ε τ) : Prop where
  authorizing : ∀ future, s.authorizing = some future →
    Sat M G (fun r _ w => r.toOption.isSome → Ready s.index w) future [] w
  slots : ∀ slot ∈ s.slots, slot.Safe M G Ready w

/-- What the driver assumes of the machine, of `pick` and of the two families of futures. -/
structure Drives (M : Machine Q A W) (G : W → W → Prop) (I : W → Prop) (Ready : ℕ → W → Prop)
    (authorize : ℕ → Prog Q A (Except ε Unit)) (dispatch : ℕ → Prog Q A τ)
    (pick : Prog Q A Poll) : Prop where
  refl : ∀ w, M.env w w
  trans : ∀ w₁ w₂ w₃, M.env w₁ w₂ → M.env w₂ w₃ → M.env w₁ w₃
  others : ∀ q w a w', M.act q w a w' → M.env w w'
  keeps : ∀ w w', M.env w w' → I w → I w'
  ready : ∀ i w w', M.env w w' → Ready i w → Ready i w'
  pick : ∀ w, I w → Sat M G (fun _ _ _ => True) pick [] w
  authorize : ∀ i w, I w →
    Sat M G (fun r _ w => r.toOption.isSome → Ready i w) (authorize i) [] w
  dispatch : ∀ i w, I w → Ready i w → Sat M G (fun _ _ _ => True) (dispatch i) [] w

variable {I : W → Prop} {authorize : ℕ → Prog Q A (Except ε Unit)} {dispatch : ℕ → Prog Q A τ}
variable {pick : Prog Q A Poll} {count concurrency : ℕ} {s : Stream Q A ε τ}

theorem Slot.Safe.env (h : Drives M G I Ready authorize dispatch pick) {slot : Slot Q A ε τ}
    (hs : slot.Safe M G Ready w) (hw : M.env w w') : slot.Safe M G Ready w' := by
  cases slot with
  | queued index authorization =>
    cases authorization with
    | error e => trivial
    | ok u => exact h.ready index w w' hw hs
  | started future => exact Sat.env h.trans (fun _ _ _ _ _ _ => trivial) hs hw
  | ready outcome => trivial

theorem Stream.Safe.env (h : Drives M G I Ready authorize dispatch pick) (hs : s.Safe M G Ready w)
    (hw : M.env w w') : s.Safe M G Ready w' := by
  refine ⟨fun future hf => ?_, fun slot hslot => (hs.slots slot hslot).env h hw⟩
  refine (hs.authorizing future hf).env h.trans ?_ hw
  exact fun r _ w w' henv hr hok => h.ready _ w w' henv (hr hok)

theorem Stream.Safe.collect (hs : s.Safe M G Ready w) : s.collect.Safe M G Ready w :=
  ⟨hs.authorizing, fun slot hslot => hs.slots slot ((List.dropWhile_sublist _).subset hslot)⟩

theorem Stream.Safe.sat_authorize (hs : s.Safe M G Ready w) {future : Prog Q A (Except ε Unit)}
    (h : Drives M G I Ready authorize dispatch pick)
    (hf : Sat M G (fun r _ w => r.toOption.isSome → Ready s.index w) future [] w)
    (l : List (Entry Q A W)) :
    Sat M G (fun s' _ w' => Stream.Safe M G Ready w' s') (s.authorize future) l w := by
  refine (sat_bind (M := M) (G := G) future.poll _).mpr ?_
  refine ((hf.poll l).follows h.refl h.trans h.others).post_mono ?_
  rintro p l' w' ⟨hp, hw⟩
  have hs' := hs.env h hw
  cases p with
  | done r =>
    refine ⟨by rintro p ⟨⟩, fun slot hslot => ?_⟩
    rcases List.mem_append.mp hslot with hslot | hslot
    · exact hs'.slots slot hslot
    · obtain rfl := List.mem_singleton.mp hslot
      cases r with
      | error e => trivial
      | ok u => exact hp rfl
  | ask q k =>
    refine ⟨?_, hs'.slots⟩
    rintro p ⟨⟩
    exact hp

theorem Slot.sat_dispatch {future : Prog Q A τ} (hf : Sat M G (fun _ _ _ => True) future [] w)
    (l : List (Entry Q A W)) :
    Sat M G (fun slot _ w' => Slot.Safe M G Ready w' slot)
      (Slot.dispatch future : Prog Q A (Slot Q A ε τ)) l w := by
  refine (sat_bind (M := M) (G := G) future.poll _).mpr ?_
  refine (hf.poll l).post_mono ?_
  rintro p l' w' hp
  cases p with
  | done t => trivial
  | ask q k => exact hp

variable (h : Drives M G I Ready authorize dispatch pick)

include h

theorem Slot.Safe.sat_poll (hI : I w)
    {slot : Slot Q A ε τ} (hs : slot.Safe M G Ready w) (failed : Bool) (l : List (Entry Q A W)) :
    Sat M G (fun slot' _ w' => Slot.Safe M G Ready w' slot') (slot.poll dispatch failed) l w := by
  cases slot with
  | queued index authorization =>
    cases authorization with
    | error e => trivial
    | ok u =>
      unfold Slot.poll
      split_ifs
      · trivial
      · exact Slot.sat_dispatch (h.dispatch index w hI hs) l
  | started future => exact Slot.sat_dispatch hs l
  | ready outcome => trivial

theorem Stream.Safe.sat_produce (hI : I w) (hs : s.Safe M G Ready w) (l : List (Entry Q A W)) :
    Sat M G (fun s' _ w' => Stream.Safe M G Ready w' s')
      (s.produce count concurrency authorize) l w := by
  unfold Stream.produce
  by_cases hroom : concurrency ≤ s.slots.length
  · rw [if_pos hroom]
    exact hs
  rw [if_neg hroom]
  cases hf : s.authorizing with
  | some future => exact hs.sat_authorize h (hs.authorizing future hf) l
  | none =>
    by_cases hend : s.stopped ∨ s.index = count
    · simp only [if_pos hend]
      exact hs
    · simp only [if_neg hend]
      exact hs.sat_authorize h (h.authorize s.index w hI) l

/-- **One poll.** -/
theorem Stream.Safe.sat_poll (hI : I w)
    (hs : s.Safe M G Ready w) (next : Poll) (l : List (Entry Q A W)) :
    Sat M G (fun s' _ w' => Stream.Safe M G Ready w' s')
      (s.poll count concurrency authorize dispatch next) l w := by
  cases next with
  | producer => exact hs.sat_produce h hI l
  | slot position =>
    cases hslot : s.slots[position]? with
    | none =>
      simp only [Stream.poll, hslot]
      exact hs
    | some slot =>
      simp only [Stream.poll, hslot]
      have hmem : slot ∈ s.slots := List.mem_of_getElem? hslot
      refine (sat_bind (M := M) (G := G) _ _).mpr ?_
      refine (((hs.slots slot hmem).sat_poll h hI _ l).follows h.refl h.trans
        h.others).post_mono ?_
      rintro slot' l' w' ⟨hslot', hw⟩
      refine Stream.Safe.collect ⟨(hs.env h hw).authorizing, fun t ht => ?_⟩
      rcases List.mem_or_eq_of_mem_set ht with ht | rfl
      · exact (hs.env h hw).slots t ht
      · exact hslot'

theorem Stream.Safe.sat_drive (fuel : ℕ)
    (hI : I w) (hs : s.Safe M G Ready w) (l : List (Entry Q A W)) :
    Sat M G (fun _ _ _ => True)
      (s.drive count concurrency authorize dispatch pick fuel) l w := by
  induction fuel generalizing s w l with
  | zero => trivial
  | succ fuel ih =>
    unfold Stream.drive
    split_ifs
    · trivial
    refine (sat_bind (M := M) (G := G) pick _).mpr ?_
    refine (((h.pick w hI).relog l).follows h.refl h.trans h.others).post_mono ?_
    rintro next l₁ w₁ ⟨-, hw₁⟩
    have hI₁ := h.keeps w w₁ hw₁ hI
    refine (sat_bind (M := M) (G := G) _ _).mpr ?_
    refine (((hs.env h hw₁).sat_poll h hI₁ next l₁).follows h.refl h.trans
      h.others).post_mono ?_
    rintro s' l₂ w₂ ⟨hs', hw₂⟩
    exact ih (h.keeps w₁ w₂ hw₂ hI₁) hs' l₂

/-- **The stream keeps the guarantee** of its futures. -/
theorem sat_authorizeThenDispatch (fuel : ℕ) (hI : I w) (l : List (Entry Q A W)) :
    Sat M G (fun _ _ _ => True)
      (authorizeThenDispatch count concurrency authorize dispatch pick fuel) l w := by
  unfold authorizeThenDispatch
  split_ifs
  · trivial
  · refine Stream.Safe.sat_drive h fuel hI ⟨?_, ?_⟩ l
    · rintro p ⟨⟩
    · rintro slot ⟨⟩

end Guarantee

end EngineCore.Eoa
