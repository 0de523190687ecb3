import EngineCore.Eoa.Broadcast
import Mathlib.Data.List.TakeWhile
import Mathlib.Data.Set.List

/-!
# The order of authorizations and dispatches

`authorize_then_dispatch` once more, with the calls it makes of its two closures and their ends
written down as they happen.

* `Stream.driveSeen`, `authorizeThenDispatchSeen`: the stream with its log, and
  **`authorizeThenDispatchSeen_fst`**: without its log it is the stream;
* **`Stream.Good.poll`**: one poll keeps what the log says of the stream;
* **`authorizeThenDispatch_ordered`**: authorizations come one by one and in order, a dispatch
  starts only behind them, and the result is the first error or every outcome in order;
* **`Stream.Good.finishes`**: from wherever the executor left it, the stream can be driven to its
  end.
-/

namespace Interact

variable {Q : Type} {A : Q → Type} {α β γ δ : Type}

theorem Prog.bind_assoc (p : Prog Q A α) (f : α → Prog Q A β) (g : β → Prog Q A γ) :
    (p.bind f).bind g = p.bind fun a => (f a).bind g := by
  induction p with
  | done a => rfl
  | ask q k ih => exact congrArg (Prog.ask q) (funext fun a => ih a)

def Prog.fst (p : Prog Q A (α × β)) : Prog Q A α := p.bind fun x => .done x.1

theorem Prog.fst_bind (p : Prog Q A α) (f : α → Prog Q A (β × γ)) :
    (p.bind f).fst = p.bind fun a => (f a).fst :=
  Prog.bind_assoc p f _

theorem Prog.fst_bind_fst {p : Prog Q A (α × β)} {f : α × β → Prog Q A (γ × δ)}
    {g : α → Prog Q A γ} (h : ∀ x, (f x).fst = g x.1) : (p.bind f).fst = p.fst.bind g := by
  rw [Prog.fst_bind, Prog.fst, Prog.bind_assoc]
  exact congrArg (Prog.bind p) (funext h)

end Interact

namespace EngineCore.Eoa

open Interact

variable {Q : Type} {A : Q → Type} {W ε τ : Type}

/-! ## The stream with its log -/

/-- A call of one of the two closures, or the end of the future it returned. -/
inductive Seen (ε τ : Type)
  | authorize (index : ℕ)
  | authorized (index : ℕ) (result : Except ε Unit)
  | dispatch (index : ℕ)
  | dispatched (index : ℕ) (outcome : τ)

/-- A call, and then what its future shows at its first poll. -/
def Seen.before (event : Seen ε τ) {σ : Type} (p : Prog Q A (σ × List (Seen ε τ))) :
    Prog Q A (σ × List (Seen ε τ)) :=
  p.bind fun x => .done (x.1, event :: x.2)

def Stream.authorizeSeen (s : Stream Q A ε τ) (future : Prog Q A (Except ε Unit)) :
    Prog Q A (Stream Q A ε τ × List (Seen ε τ)) := do
  match ← future.poll with
  | .done authorization => return (s.yield authorization, [.authorized s.index authorization])
  | future => return ({ s with authorizing := some future }, [])

def Slot.dispatchSeen (index : ℕ) (future : Prog Q A τ) :
    Prog Q A (Slot Q A ε τ × List (Seen ε τ)) := do
  match ← future.poll with
  | .done t => return (.ready (.ok (some t)), [.dispatched index t])
  | future => return (.started future, [])

section Driver

variable (count concurrency : ℕ) (authorize : ℕ → Prog Q A (Except ε Unit))
variable (dispatch : ℕ → Prog Q A τ)

/-- Poll the future of the buffer that stands for `index`. -/
def Slot.pollSeen (authorizationFailed : Bool) (index : ℕ) :
    Slot Q A ε τ → Prog Q A (Slot Q A ε τ × List (Seen ε τ))
  | .queued _ (.error e) => return (.ready (.error e), [])
  | .queued called (.ok _) =>
    if authorizationFailed then return (.ready (.ok none), [])
    else (Seen.dispatch called).before (Slot.dispatchSeen called (dispatch called))
  | .started future => Slot.dispatchSeen index future
  | .ready outcome => return (.ready outcome, [])

def Stream.produceSeen (s : Stream Q A ε τ) : Prog Q A (Stream Q A ε τ × List (Seen ε τ)) :=
  if concurrency ≤ s.slots.length then return (s, [])
  else
    match s.authorizing with
    | some future => s.authorizeSeen future
    | none =>
      if s.stopped ∨ s.index = count then return (s, [])
      else (Seen.authorize s.index).before (s.authorizeSeen (authorize s.index))

def Stream.pollSeen (s : Stream Q A ε τ) : Poll → Prog Q A (Stream Q A ε τ × List (Seen ε τ))
  | .producer => s.produceSeen count concurrency authorize
  | .slot position =>
    match s.slots[position]? with
    | none => return (s, [])
    | some slot => do
      let x ← slot.pollSeen dispatch s.authorizationFailed (s.outcomes.length + position)
      return ({ s with slots := s.slots.set position x.1 }.collect, x.2)

def Stream.driveSeen (pick : Prog Q A Poll) : ℕ → Stream Q A ε τ → List (Seen ε τ) →
    Prog Q A (Option (Except ε (List τ)) × List (Seen ε τ))
  | 0, _, log => return (none, log)
  | fuel + 1, s, log =>
    if s.Finished count then return (some s.result, log)
    else do
      let next ← pick
      let x ← s.pollSeen count concurrency authorize dispatch next
      x.1.driveSeen pick fuel (log ++ x.2)

def authorizeThenDispatchSeen (pick : Prog Q A Poll) (fuel : ℕ) :
    Prog Q A (Option (Except ε (List τ)) × List (Seen ε τ)) :=
  if concurrency = 0 then return (none, [])
  else Stream.driveSeen count concurrency authorize dispatch pick fuel {} []

end Driver

/-! ### Without its log it is the stream -/

section Erase

variable {count concurrency : ℕ} {authorize : ℕ → Prog Q A (Except ε Unit)}
variable {dispatch : ℕ → Prog Q A τ}

theorem Seen.fst_before (event : Seen ε τ) {σ : Type} (p : Prog Q A (σ × List (Seen ε τ))) :
    (event.before p).fst = p.fst :=
  Prog.fst_bind p _

theorem Stream.authorizeSeen_fst (s : Stream Q A ε τ) (future : Prog Q A (Except ε Unit)) :
    (s.authorizeSeen future).fst = s.authorize future := by
  refine (Prog.fst_bind future.poll _).trans (congrArg (Prog.bind future.poll) ?_)
  funext p
  cases p <;> rfl

theorem Slot.dispatchSeen_fst (index : ℕ) (future : Prog Q A τ) :
    (Slot.dispatchSeen index future : Prog Q A (Slot Q A ε τ × _)).fst = Slot.dispatch future := by
  refine (Prog.fst_bind future.poll _).trans (congrArg (Prog.bind future.poll) ?_)
  funext p
  cases p <;> rfl

theorem Slot.pollSeen_fst (failed : Bool) (index : ℕ) (slot : Slot Q A ε τ) :
    (slot.pollSeen dispatch failed index).fst = slot.poll dispatch failed := by
  cases slot with
  | queued called authorization =>
    cases authorization with
    | error e => rfl
    | ok u =>
      unfold Slot.pollSeen Slot.poll
      split_ifs
      · rfl
      · exact (Seen.fst_before _ _).trans (Slot.dispatchSeen_fst called _)
  | started future => exact Slot.dispatchSeen_fst index future
  | ready outcome => rfl

theorem Stream.produceSeen_fst (s : Stream Q A ε τ) :
    (s.produceSeen count concurrency authorize).fst = s.produce count concurrency authorize := by
  unfold Stream.produceSeen Stream.produce
  by_cases hroom : concurrency ≤ s.slots.length
  · rw [if_pos hroom, if_pos hroom]
    rfl
  rw [if_neg hroom, if_neg hroom]
  cases s.authorizing with
  | some future => exact s.authorizeSeen_fst future
  | none =>
    by_cases hend : s.stopped ∨ s.index = count
    · simp only [if_pos hend]
      rfl
    · simp only [if_neg hend]
      exact (Seen.fst_before _ _).trans (s.authorizeSeen_fst _)

theorem Stream.pollSeen_fst (s : Stream Q A ε τ) (next : Poll) :
    (s.pollSeen count concurrency authorize dispatch next).fst =
      s.poll count concurrency authorize dispatch next := by
  cases next with
  | producer => exact s.produceSeen_fst
  | slot position =>
    cases hslot : s.slots[position]? with
    | none =>
      simp only [Stream.pollSeen, Stream.poll, hslot]
      rfl
    | some slot =>
      simp only [Stream.pollSeen, Stream.poll, hslot]
      rw [← slot.pollSeen_fst s.authorizationFailed (s.outcomes.length + position)]
      exact Prog.fst_bind_fst fun x => rfl

theorem Stream.driveSeen_fst (pick : Prog Q A Poll) (fuel : ℕ) (s : Stream Q A ε τ)
    (log : List (Seen ε τ)) :
    (s.driveSeen count concurrency authorize dispatch pick fuel log).fst =
      s.drive count concurrency authorize dispatch pick fuel := by
  induction fuel generalizing s log with
  | zero => rfl
  | succ fuel ih =>
    unfold Stream.driveSeen Stream.drive
    split_ifs
    · rfl
    refine (Prog.fst_bind pick _).trans (congrArg (Prog.bind pick) ?_)
    funext next
    show Prog.fst (Prog.bind _ _) = Prog.bind _ _
    rw [← s.pollSeen_fst next]
    exact Prog.fst_bind_fst fun x => ih x.1 _

/-- **The log is only written, never read.** -/
theorem authorizeThenDispatchSeen_fst (pick : Prog Q A Poll) (fuel : ℕ) :
    (authorizeThenDispatchSeen count concurrency authorize dispatch pick fuel).fst =
      authorizeThenDispatch count concurrency authorize dispatch pick fuel := by
  unfold authorizeThenDispatchSeen authorizeThenDispatch
  split_ifs
  · rfl
  · exact Stream.driveSeen_fst pick fuel {} []

end Erase

/-! ## What a log says -/

/-- The calls of `authorize` and their ends. -/
def Seen.isAuthorization : Seen ε τ → Bool
  | .authorize _ => true
  | .authorized _ _ => true
  | _ => false

def Seen.isStart : Seen ε τ → Bool
  | .dispatch _ => true
  | _ => false

def Seen.isEnd : Seen ε τ → Bool
  | .dispatched _ _ => true
  | _ => false

/-- The call of `dispatch` for an index, and its end. -/
def Seen.concerns (index : ℕ) : Seen ε τ → Bool
  | .dispatch i => i == index
  | .dispatched i _ => i == index
  | _ => false

/-- The first `n` authorizations, one after the other, all granted. -/
def authorizations (n : ℕ) : List (Seen ε τ) :=
  (List.range n).flatMap fun i => [.authorize i, .authorized i (.ok ())]

theorem authorizations_succ (n : ℕ) : (authorizations (n + 1) : List (Seen ε τ)) =
    authorizations n ++ [.authorize n, .authorized n (.ok ())] := by
  simp [authorizations, List.range_succ]

theorem authorized_mem_authorizations {n i : ℕ} {r : Except ε Unit} :
    Seen.authorized i r ∈ (authorizations n : List (Seen ε τ)) ↔ i < n ∧ r = .ok () := by
  simp only [authorizations, List.mem_flatMap, List.mem_range, List.mem_cons, List.not_mem_nil,
    reduceCtorEq, false_or, or_false, Seen.authorized.injEq]
  constructor
  · rintro ⟨j, hj, rfl, hr⟩
    exact ⟨hj, hr⟩
  · exact fun ⟨hi, hr⟩ => ⟨i, hi, rfl, hr⟩

/-- The authorization a future of the buffer carries, or got past. -/
def Slot.authorization : Slot Q A ε τ → Except ε Unit
  | .queued _ authorization => authorization
  | .ready (.error e) => .error e
  | _ => .ok ()

/-- The part of the log that concerns the dispatch of one future of the buffer. -/
def Slot.calls (index : ℕ) : Slot Q A ε τ → List (Seen ε τ)
  | .started _ => [.dispatch index]
  | .ready (.ok (some t)) => [.dispatch index, .dispatched index t]
  | _ => []

def Slot.isStarted : Slot Q A ε τ → Bool
  | .started _ => true
  | _ => false

/-- The log and the future for `index` agree. -/
structure Slot.Fits (log : List (Seen ε τ)) (index : ℕ) (slot : Slot Q A ε τ) : Prop where
  called : ∀ i r, slot = .queued i r → i = index
  authorized : .authorized index slot.authorization ∈ log
  calls : log.filter (Seen.concerns index) = slot.calls index
  suppressed : slot = .ready (.ok none) → ∃ i e, .authorized i (.error e) ∈ log

/-- Every future there has been, in order: those that left the buffer and those in it. -/
def Stream.entries (s : Stream Q A ε τ) : List (Slot Q A ε τ) :=
  s.outcomes.map .ready ++ s.slots

/-- A dispatch starts behind all the authorizations up to its own, and none has failed. -/
def Behind (log : List (Seen ε τ)) (event : Seen ε τ) : Prop :=
  ∀ i, event = .dispatch i →
    (∀ j ≤ i, .authorized j (.ok ()) ∈ log) ∧ ∀ j e, .authorized j (.error e) ∉ log

/-- What the log says of the state of the stream. -/
structure Stream.Good (count concurrency : ℕ) (s : Stream Q A ε τ) (log : List (Seen ε τ)) :
    Prop where
  entries : ∀ i (slot : Slot Q A ε τ), s.entries[i]? = some slot → slot.Fits log i
  length : s.entries.length = s.index
  later : ∀ i, s.index ≤ i → log.filter (Seen.concerns i) = []
  bound : s.index ≤ count
  flag : s.authorizationFailed = s.stopped
  going : s.stopped = false → log.filter Seen.isAuthorization =
    authorizations s.index ++ (s.authorizing.map fun _ => .authorize s.index).toList
  halted : s.stopped = true → s.authorizing = none ∧ ∃ n e, s.index = n + 1 ∧
    log.filter Seen.isAuthorization = authorizations n ++ [.authorize n, .authorized n (.error e)]
  awaited : s.authorizing.isSome → s.index < count
  room : s.slots.length ≤ concurrency
  running : log.countP Seen.isStart = log.countP Seen.isEnd + s.slots.countP Slot.isStarted
  behind : ∀ n event, log[n]? = some event → Behind (log.take n) event
  busy : ∀ n, (log.take n).countP Seen.isStart ≤ (log.take n).countP Seen.isEnd + concurrency

variable {log : List (Seen ε τ)}

theorem authorized_mem_filter {i : ℕ} {r : Except ε Unit} :
    Seen.authorized i r ∈ log.filter Seen.isAuthorization ↔ Seen.authorized i r ∈ log := by
  simp [Seen.isAuthorization]

variable {slot : Slot Q A ε τ}

theorem Slot.Fits.append {index : ℕ}
    (h : slot.Fits log index) {event : Seen ε τ} (he : event.concerns index = false) :
    slot.Fits (log ++ [event]) index where
  called := h.called
  authorized := List.mem_append_left _ h.authorized
  calls := by
    rw [List.filter_append, h.calls]
    simp [he]
  suppressed hs := by
    obtain ⟨i, e, hmem⟩ := h.suppressed hs
    exact ⟨i, e, List.mem_append_left _ hmem⟩

theorem behind_concat {event : Seen ε τ}
    (h : ∀ n x, log[n]? = some x → Behind (log.take n) x) (he : Behind log event) (n : ℕ)
    (x : Seen ε τ) (hx : (log ++ [event])[n]? = some x) : Behind ((log ++ [event]).take n) x := by
  by_cases hn : n < log.length
  · rw [List.getElem?_append_left hn] at hx
    rw [List.take_append_of_le_length (by omega)]
    exact h n x hx
  · have hlen : n = log.length := by
      have := (List.getElem?_eq_some_iff.mp hx).1
      simp only [List.length_append, List.length_singleton] at this
      omega
    subst hlen
    rw [List.getElem?_concat_length] at hx
    obtain rfl : event = x := Option.some.inj hx
    rw [List.take_left]
    exact he

theorem busy_concat {event : Seen ε τ} {concurrency : ℕ}
    (h : ∀ n, (log.take n).countP Seen.isStart ≤ (log.take n).countP Seen.isEnd + concurrency)
    (he : (log ++ [event]).countP Seen.isStart ≤
      (log ++ [event]).countP Seen.isEnd + concurrency) (n : ℕ) :
    ((log ++ [event]).take n).countP Seen.isStart ≤
      ((log ++ [event]).take n).countP Seen.isEnd + concurrency := by
  by_cases hn : n ≤ log.length
  · rw [List.take_append_of_le_length hn]
    exact h n
  · rw [List.take_of_length_le (by simp; omega)]
    exact he

/-! ## One poll -/

section Steps

variable {count concurrency : ℕ} {s : Stream Q A ε τ}

theorem Stream.good_init : ({} : Stream Q A ε τ).Good count concurrency [] where
  entries i slot h := by simp [Stream.entries] at h
  length := rfl
  later _ _ := rfl
  bound := Nat.zero_le _
  flag := rfl
  going _ := rfl
  halted h := by simp at h
  awaited h := by simp at h
  room := Nat.zero_le _
  running := rfl
  behind n event h := by simp at h
  busy n := by simp

section

variable (h : s.Good count concurrency log)

include h

theorem Stream.Good.starts_le : log.countP Seen.isStart ≤ log.countP Seen.isEnd + concurrency := by
  have hle : s.slots.countP Slot.isStarted ≤ s.slots.length := List.countP_le_length
  have hroom := h.room
  rw [h.running]
  omega

theorem Stream.Good.call (hnone : s.authorizing = none)
    (hgo : s.stopped = false) (hlt : s.index < count) (future : Prog Q A (Except ε Unit)) :
    { s with authorizing := some future }.Good count concurrency
      (log ++ [Seen.authorize s.index]) where
  __ := h
  entries i slot hi := (h.entries i slot hi).append rfl
  later i hi := by
    rw [List.filter_append, h.later i hi]
    rfl
  going _ := by
    rw [List.filter_append, h.going hgo, hnone]
    simp [Seen.isAuthorization]
  halted hs := absurd (hgo.symm.trans hs) (by simp)
  awaited _ := hlt
  running := by
    simp only [List.countP_append, h.running]
    rfl
  behind := behind_concat h.behind fun _ he => by simp at he
  busy := busy_concat h.busy (by
    simp only [List.countP_append]
    exact h.starts_le)

theorem Stream.Good.await (hsome : s.authorizing.isSome) (future : Prog Q A (Except ε Unit)) :
    { s with authorizing := some future }.Good count concurrency log where
  __ := h
  going hs := by
    obtain ⟨f, hf⟩ := Option.isSome_iff_exists.mp hsome
    rw [h.going hs, hf]
    rfl
  halted hs := by
    rw [(h.halted hs).1] at hsome
    simp at hsome
  awaited _ := h.awaited hsome

theorem Stream.Good.not_stopped (hsome : s.authorizing.isSome) : s.stopped = false := by
  by_contra hs
  rw [(h.halted (by simpa using hs)).1] at hsome
  simp at hsome

theorem Stream.Good.yield (hsome : s.authorizing.isSome)
    (hroom : s.slots.length < concurrency) (r : Except ε Unit) :
    (s.yield r).Good count concurrency (log ++ [.authorized s.index r]) where
  entries i slot hi := by
    have hentries : (s.yield r).entries = s.entries ++ [.queued s.index r] :=
      (List.append_assoc _ _ _).symm
    rw [hentries, ← h.length] at hi
    by_cases hlt : i < s.entries.length
    · rw [List.getElem?_append_left hlt] at hi
      exact (h.entries i slot hi).append rfl
    · have hlen := (List.getElem?_eq_some_iff.mp hi).1
      rw [List.length_append, List.length_singleton] at hlen
      obtain rfl : i = s.entries.length := by omega
      rw [List.getElem?_concat_length] at hi
      obtain rfl := Option.some.inj hi
      refine ⟨fun j r' hj => ?_, ?_, ?_, nofun⟩
      · injection hj with hj
        exact hj.symm
      · rw [h.length]
        exact List.mem_append_right _ (List.mem_singleton_self _)
      · rw [List.filter_append, h.later _ h.length.ge]
        rfl
  length := by
    show (s.outcomes.map Slot.ready ++ (s.slots ++ [_])).length = s.index + 1
    rw [← List.append_assoc, List.length_append]
    exact congrArg (· + 1) h.length
  later i hi := by
    rw [List.filter_append, h.later i (Nat.le_of_succ_le hi)]
    rfl
  bound := h.awaited hsome
  flag := by
    show (s.authorizationFailed || r.toOption.isNone) = r.toOption.isNone
    rw [h.flag, h.not_stopped hsome]
    rfl
  going hs := by
    obtain ⟨f, hf⟩ := Option.isSome_iff_exists.mp hsome
    have hold := h.going (h.not_stopped hsome)
    rw [hf] at hold
    cases r with
    | error e => exact absurd hs (by simp [Stream.yield, Except.toOption])
    | ok u =>
      rw [List.filter_append, hold]
      show _ = authorizations (s.index + 1) ++ []
      rw [authorizations_succ]
      simp [Seen.isAuthorization]
  halted hs := by
    obtain ⟨f, hf⟩ := Option.isSome_iff_exists.mp hsome
    have hold := h.going (h.not_stopped hsome)
    rw [hf] at hold
    cases r with
    | ok u => exact absurd hs (by simp [Stream.yield, Except.toOption])
    | error e =>
      refine ⟨rfl, s.index, e, rfl, ?_⟩
      rw [List.filter_append, hold]
      simp [Seen.isAuthorization]
  awaited hs := by simp [Stream.yield] at hs
  room := by
    show (s.slots ++ [_]).length ≤ concurrency
    rw [List.length_append]
    exact hroom
  running := by
    show _ = _ + (s.slots ++ [_]).countP Slot.isStarted
    simp only [List.countP_append, h.running]
    rfl
  behind := behind_concat h.behind fun _ he => by simp at he
  busy := busy_concat h.busy (by
    simp only [List.countP_append]
    exact h.starts_le)

end

theorem Stream.entries_collect (s : Stream Q A ε τ) : s.collect.entries = s.entries := by
  have hready : ∀ slots : List (Slot Q A ε τ), (∀ slot ∈ slots, slot.outcome.isSome) →
      (slots.filterMap Slot.outcome).map .ready = slots := by
    intro slots
    induction slots with
    | nil => exact fun _ => rfl
    | cons slot slots ih =>
      intro hall
      have hrest := ih fun x hx => hall x (List.mem_cons_of_mem _ hx)
      have hslot := hall slot List.mem_cons_self
      cases slot with
      | ready outcome => simpa [Slot.outcome] using hrest
      | queued i r | started f => simp [Slot.outcome] at hslot
  show (s.outcomes ++ _).map .ready ++ s.slots.dropWhile _ = s.outcomes.map .ready ++ s.slots
  rw [List.map_append, hready _ fun _ => List.mem_takeWhile_imp (p := fun slot : Slot Q A ε τ => slot.outcome.isSome),
    List.append_assoc,
    List.takeWhile_append_dropWhile]

theorem Stream.Good.collect (h : s.Good count concurrency log) :
    s.collect.Good count concurrency log where
  __ := h
  entries := by
    rw [Stream.entries_collect]
    exact h.entries
  length := by
    rw [Stream.entries_collect]
    exact h.length
  room := (List.length_dropWhile_le _ _).trans h.room
  running := by
    have hsplit := List.takeWhile_append_dropWhile (l := s.slots)
      (p := fun slot : Slot Q A ε τ => slot.outcome.isSome)
    have hnone : (s.slots.takeWhile fun slot => slot.outcome.isSome).countP Slot.isStarted = 0 := by
      rw [List.countP_eq_zero]
      intro slot hs
      have hout := List.mem_takeWhile_imp (p := fun slot : Slot Q A ε τ => slot.outcome.isSome) hs
      cases slot with
      | started f => simp [Slot.outcome] at hout
      | queued i r | ready o => simp [Slot.isStarted]
    have hcount := congrArg (List.countP Slot.isStarted) hsplit
    rw [List.countP_append, hnone, Nat.zero_add] at hcount
    rw [h.running, ← hcount]
    rfl

theorem Stream.entries_set (s : Stream Q A ε τ) (position : ℕ) (slot : Slot Q A ε τ) :
    { s with slots := s.slots.set position slot }.entries =
      s.entries.set (s.outcomes.length + position) slot := by
  have hlen : (s.outcomes.map Slot.ready : List (Slot Q A ε τ)).length = s.outcomes.length :=
    List.length_map _
  show s.outcomes.map Slot.ready ++ s.slots.set position slot =
    (s.outcomes.map Slot.ready ++ s.slots).set (s.outcomes.length + position) slot
  rw [List.set_append_right _ _ (by omega), hlen, Nat.add_sub_cancel_left]

variable {position : ℕ}

theorem Stream.entries_of_slot
    (h : s.slots[position]? = some slot) :
    s.entries[s.outcomes.length + position]? = some slot := by
  have hlen : (s.outcomes.map Slot.ready : List (Slot Q A ε τ)).length = s.outcomes.length :=
    List.length_map _
  show (s.outcomes.map Slot.ready ++ s.slots)[s.outcomes.length + position]? = some slot
  rw [List.getElem?_append_right (by omega), hlen, Nat.add_sub_cancel_left]
  exact h

theorem countP_set {α : Type} {l : List α} {i : ℕ} {a b : α} (p : α → Bool)
    (h : l[i]? = some a) :
    (l.set i b).countP p + (p a).toNat = l.countP p + (p b).toNat := by
  induction l generalizing i with
  | nil => simp at h
  | cons x l ih =>
    cases i with
    | zero =>
      obtain rfl : x = a := Option.some.inj h
      cases ha : p x <;> cases hb : p b <;> simp [ha, hb]
    | succ i =>
      have := ih (i := i) h
      simp only [List.set_cons_succ, List.countP_cons]
      omega

section

variable (h : s.Good count concurrency log)

include h

theorem Stream.Good.still {slot slot' : Slot Q A ε τ} (hslot : s.slots[position]? = some slot)
    (hfits : slot'.Fits log (s.outcomes.length + position))
    (hstarted : slot'.isStarted = slot.isStarted) :
    { s with slots := s.slots.set position slot' }.Good count concurrency log where
  __ := h
  entries i x hi := by
    rw [Stream.entries_set] at hi
    by_cases heq : s.outcomes.length + position = i
    · have hlen := (List.getElem?_eq_some_iff.mp (Stream.entries_of_slot hslot)).1
      rw [← heq, List.getElem?_set_self hlen] at hi
      rw [← heq, ← Option.some.inj hi]
      exact hfits
    · rw [List.getElem?_set_ne heq] at hi
      exact h.entries i x hi
  length := by
    rw [Stream.entries_set, List.length_set]
    exact h.length
  room := by
    show (s.slots.set position slot').length ≤ concurrency
    rw [List.length_set]
    exact h.room
  running := by
    have hcount := countP_set (b := slot') Slot.isStarted hslot
    rw [hstarted] at hcount
    show _ = _ + (s.slots.set position slot').countP Slot.isStarted
    rw [h.running]
    omega

theorem Stream.Good.move (event : Seen ε τ) (slot' : Slot Q A ε τ)
    (hslot : s.slots[position]? = some slot)
    (hfits : slot'.Fits (log ++ [event]) (s.outcomes.length + position))
    (hevent : event = .dispatch (s.outcomes.length + position) ∧ slot.isStarted = false ∧
        slot'.isStarted = true ∧ Behind log event ∨
      (∃ t, event = .dispatched (s.outcomes.length + position) t) ∧ slot.isStarted = true ∧
        slot'.isStarted = false) :
    { s with slots := s.slots.set position slot' }.Good count concurrency (log ++ [event]) := by
  have hlen := (List.getElem?_eq_some_iff.mp (Stream.entries_of_slot hslot)).1
  have hother : ∀ i, s.outcomes.length + position ≠ i → event.concerns i = false := by
    intro i hi
    rcases hevent with ⟨rfl, _⟩ | ⟨⟨t, rfl⟩, _⟩ <;> simp [Seen.concerns, hi]
  have hauth : [event].filter Seen.isAuthorization = [] := by
    rcases hevent with ⟨rfl, _⟩ | ⟨⟨t, rfl⟩, _⟩ <;> rfl
  have hroom : (s.slots.set position slot').length ≤ concurrency := by
    rw [List.length_set]
    exact h.room
  have hrunning : (log ++ [event]).countP Seen.isStart =
      (log ++ [event]).countP Seen.isEnd + (s.slots.set position slot').countP Slot.isStarted := by
    have hcount := countP_set (b := slot') Slot.isStarted hslot
    rw [List.countP_append, List.countP_append, h.running]
    rcases hevent with ⟨rfl, hs, hs', _⟩ | ⟨⟨t, rfl⟩, hs, hs'⟩ <;>
      simp only [hs, hs', Bool.toNat_true, Bool.toNat_false] at hcount <;>
      simp only [List.countP_singleton, Seen.isStart, Seen.isEnd] <;> simp <;> omega
  refine ⟨?_, ?_, ?_, h.bound, h.flag, ?_, ?_, h.awaited, hroom, hrunning, ?_, ?_⟩
  · intro i x hi
    rw [Stream.entries_set] at hi
    by_cases heq : s.outcomes.length + position = i
    · rw [← heq, List.getElem?_set_self hlen] at hi
      rw [← heq, ← Option.some.inj hi]
      exact hfits
    · rw [List.getElem?_set_ne heq] at hi
      exact (h.entries i x hi).append (hother i heq)
  · rw [Stream.entries_set, List.length_set]
    exact h.length
  · intro i hi
    have hne : s.outcomes.length + position ≠ i := by
      have hle : s.index ≤ i := hi
      rw [h.length] at hlen
      omega
    rw [List.filter_append, h.later i hi]
    simp [hother i hne]
  · intro hs
    rw [List.filter_append, hauth, List.append_nil]
    exact h.going hs
  · intro hs
    rw [List.filter_append, hauth, List.append_nil]
    exact h.halted hs
  · refine behind_concat h.behind ?_
    rcases hevent with ⟨_, _, _, hb⟩ | ⟨⟨t, rfl⟩, _⟩
    · exact hb
    · exact fun _ he => by simp at he
  · refine busy_concat h.busy ?_
    have hle : (s.slots.set position slot').countP Slot.isStarted ≤
        (s.slots.set position slot').length := List.countP_le_length
    rw [hrunning]
    omega

theorem Stream.Good.unrevoked (hs : s.stopped = false)
    (j : ℕ) (e : ε) : Seen.authorized j (.error e) ∉ log := by
  intro hmem
  rw [← authorized_mem_filter, h.going hs, List.mem_append, authorized_mem_authorizations] at hmem
  cases hf : s.authorizing <;> simp [hf] at hmem

theorem Stream.Good.granted (hs : s.stopped = false)
    {j : ℕ} (hj : j < s.index) : Seen.authorized j (.ok ()) ∈ log := by
  rw [← authorized_mem_filter, h.going hs]
  exact List.mem_append_left _ (authorized_mem_authorizations.mpr ⟨hj, rfl⟩)

theorem Stream.Good.revoked (hs : s.stopped = true) :
    ∃ n e, s.index = n + 1 ∧ .authorized n (.error e) ∈ log ∧
      (∀ j e', .authorized j (.error e') ∈ log → j = n ∧ e' = e) ∧
      .authorized n (.ok ()) ∉ log := by
  obtain ⟨-, n, e, hn, hlog⟩ := h.halted hs
  have hmem : ∀ j (r : Except ε Unit), Seen.authorized j r ∈ log ↔
      (j < n ∧ r = .ok ()) ∨ j = n ∧ r = .error e := by
    intro j r
    rw [← authorized_mem_filter, hlog, List.mem_append, authorized_mem_authorizations]
    simp
  refine ⟨n, e, hn, (hmem n _).mpr (.inr ⟨rfl, rfl⟩), fun j e' hj => ?_, fun hok => ?_⟩
  · rcases (hmem j _).mp hj with ⟨_, hr⟩ | ⟨hj, hr⟩
    · simp at hr
    · exact ⟨hj, Except.error.inj hr⟩
  · rcases (hmem n _).mp hok with ⟨hlt, _⟩ | ⟨_, hr⟩
    · exact absurd hlt (lt_irrefl n)
    · simp at hr

end

variable {authorize : ℕ → Prog Q A (Except ε Unit)} {dispatch : ℕ → Prog Q A τ}

def Stream.Extends (count concurrency : ℕ) (log : List (Seen ε τ))
    (x : Stream Q A ε τ × List (Seen ε τ)) : Prop :=
  x.1.Good count concurrency (log ++ x.2)

theorem Stream.Good.ends_authorize (h : s.Good count concurrency log)
    (hsome : s.authorizing.isSome) (hroom : s.slots.length < concurrency)
    (future : Prog Q A (Except ε Unit)) :
    (s.authorizeSeen future).Ends (Stream.Extends count concurrency log) := by
  cases future with
  | done r => exact h.yield hsome hroom r
  | ask q k =>
    intro a
    show Prog.Ends _ (Prog.bind (.done (k a)) _)
    cases hk : k a with
    | done r => exact h.yield hsome hroom r
    | ask q' k' =>
      show Stream.Good count concurrency _ (log ++ [])
      rw [List.append_nil]
      exact h.await hsome _

theorem Seen.ends_before {σ : Type} {event : Seen ε τ} {p : Prog Q A (σ × List (Seen ε τ))}
    {Θ : σ × List (Seen ε τ) → Prop} (h : p.Ends fun x => Θ (x.1, event :: x.2)) :
    (event.before p).Ends Θ :=
  Prog.Ends.bind h fun _ hx => hx

theorem Stream.Good.ends_produce (h : s.Good count concurrency log) :
    (s.produceSeen count concurrency authorize).Ends (Stream.Extends count concurrency log) := by
  have hsame : Stream.Extends count concurrency log (s, []) := by
    show Stream.Good count concurrency s (log ++ [])
    rw [List.append_nil]
    exact h
  unfold Stream.produceSeen
  by_cases hroom : concurrency ≤ s.slots.length
  · rw [if_pos hroom]
    exact hsame
  rw [if_neg hroom]
  cases hf : s.authorizing with
  | some future => exact h.ends_authorize (by rw [hf]; rfl) (by omega) future
  | none =>
    by_cases hend : s.stopped ∨ s.index = count
    · simp only [if_pos hend]
      exact hsame
    simp only [if_neg hend]
    have hgo : s.stopped = false := by
      simpa using fun hs => hend (.inl hs)
    have hlt : s.index < count := lt_of_le_of_ne h.bound fun he => hend (.inr he)
    refine Seen.ends_before ?_
    -- the call, and then the first poll of its future from the state that awaits it
    have hcall := h.call hf hgo hlt (authorize s.index)
    refine (hcall.ends_authorize rfl (by show s.slots.length < _; omega) _).mono ?_
    rintro ⟨s', events⟩ hs'
    show Stream.Good count concurrency s' (log ++ _ :: events)
    rw [← List.singleton_append, ← List.append_assoc]
    exact hs'

def Stream.SetExtends (count concurrency : ℕ) (s : Stream Q A ε τ) (log : List (Seen ε τ))
    (position : ℕ) (x : Slot Q A ε τ × List (Seen ε τ)) : Prop :=
  { s with slots := s.slots.set position x.1 }.Good count concurrency (log ++ x.2)

theorem Stream.Good.stillExtends (h : s.Good count concurrency log)
    {slot slot' : Slot Q A ε τ} (hslot : s.slots[position]? = some slot)
    (hfits : slot'.Fits log (s.outcomes.length + position))
    (hstarted : slot'.isStarted = slot.isStarted) :
    s.SetExtends count concurrency log position (slot', []) := by
  show Stream.Good count concurrency _ (log ++ [])
  rw [List.append_nil]
  exact h.still hslot hfits hstarted

theorem Stream.Good.ends_dispatch (h : s.Good count concurrency log)
    {future : Prog Q A τ} (hslot : s.slots[position]? = some (.started future))
    (next : Prog Q A τ) :
    (Slot.dispatchSeen (s.outcomes.length + position) next).Ends
      (s.SetExtends count concurrency log position) := by
  have hfits := h.entries _ _ (Stream.entries_of_slot hslot)
  have hend : ∀ t, s.SetExtends count concurrency log position
      (.ready (.ok (some t)), [.dispatched (s.outcomes.length + position) t]) := by
    intro t
    refine h.move _ _ hslot ⟨nofun, ?_, ?_, by simp⟩ (.inr ⟨⟨t, rfl⟩, rfl, rfl⟩)
    · exact List.mem_append_left _ hfits.authorized
    · rw [List.filter_append, hfits.calls]
      simp [Slot.calls, Seen.concerns]
  cases next with
  | done t => exact hend t
  | ask q k =>
    intro a
    show Prog.Ends _ (Prog.bind (.done (k a)) _)
    cases hk : k a with
    | done t => exact hend t
    | ask q' k' => exact h.stillExtends hslot ⟨nofun, hfits.authorized, hfits.calls, nofun⟩ rfl

theorem Stream.Good.ends_slot (h : s.Good count concurrency log)
    (hslot : s.slots[position]? = some slot) :
    (slot.pollSeen dispatch s.authorizationFailed (s.outcomes.length + position)).Ends
      (s.SetExtends count concurrency log position) := by
  have hfits := h.entries _ _ (Stream.entries_of_slot hslot)
  cases slot with
  | ready outcome => exact h.stillExtends hslot hfits rfl
  | started future => exact h.ends_dispatch hslot future
  | queued called authorization =>
    obtain rfl := hfits.called called authorization rfl
    cases authorization with
    | error e => exact h.stillExtends hslot ⟨nofun, hfits.authorized, hfits.calls, by simp⟩ rfl
    | ok u =>
      by_cases hfailed : s.authorizationFailed = true
      · simp only [Slot.pollSeen, if_pos hfailed]
        refine h.stillExtends hslot ⟨nofun, hfits.authorized, hfits.calls, fun _ => ?_⟩ rfl
        obtain ⟨n, e, _, hmem, _⟩ := h.revoked (h.flag ▸ hfailed)
        exact ⟨n, e, hmem⟩
      · simp only [Slot.pollSeen, if_neg hfailed]
        have hgo : s.stopped = false := by
          rw [← h.flag]
          simpa using hfailed
        have hlen := (List.getElem?_eq_some_iff.mp (Stream.entries_of_slot hslot)).1
        rw [h.length] at hlen
        have hbehind : Behind log (.dispatch (s.outcomes.length + position)) := by
          rintro i hi
          obtain rfl : s.outcomes.length + position = i := Seen.dispatch.inj hi
          exact ⟨fun j hj => h.granted hgo (by omega), h.unrevoked hgo⟩
        -- the call, and then the first poll of its future from the buffer where it has started
        have hstart := h.move (.dispatch (s.outcomes.length + position))
          (.started (dispatch (s.outcomes.length + position))) hslot
          ⟨nofun, List.mem_append_left _ hfits.authorized, by
            rw [List.filter_append, hfits.calls]
            simp [Slot.calls, Seen.concerns], nofun⟩
          (.inl ⟨rfl, rfl, rfl, hbehind⟩)
        refine Seen.ends_before ?_
        have hset := List.getElem?_set_self (a := Slot.started (dispatch
          (s.outcomes.length + position))) (List.getElem?_eq_some_iff.mp hslot).1
        refine (hstart.ends_dispatch hset _).mono ?_
        · rintro ⟨slot', events⟩ hs'
          unfold Stream.SetExtends at hs' ⊢
          simp only [List.set_set, List.append_assoc, List.singleton_append] at hs'
          exact hs'

variable (authorize dispatch) in
/-- **One poll keeps what the log says.** -/
theorem Stream.Good.poll (h : s.Good count concurrency log) (next : Poll) :
    (s.pollSeen count concurrency authorize dispatch next).Ends
      (Stream.Extends count concurrency log) := by
  cases next with
  | producer => exact h.ends_produce
  | slot position =>
    cases hslot : s.slots[position]? with
    | none =>
      simp only [Stream.pollSeen, hslot]
      show Stream.Good count concurrency s (log ++ [])
      rw [List.append_nil]
      exact h
    | some slot =>
      simp only [Stream.pollSeen, hslot]
      refine Prog.Ends.bind (h.ends_slot hslot) fun x hx => ?_
      exact Stream.Good.collect hx

/-! ## The whole call -/

/-- What the log of a call says, with the result if there is one. -/
structure Ordered (count concurrency : ℕ) (result : Option (Except ε (List τ)))
    (log : List (Seen ε τ)) : Prop where
  /-- `authorize` is called for `0, 1, 2, …`, each once the one before has succeeded. -/
  authorizations : ∃ n ≤ count,
    log.filter Seen.isAuthorization = authorizations n ∨
    n < count ∧ log.filter Seen.isAuthorization = authorizations n ++ [.authorize n] ∨
    n < count ∧ ∃ e, log.filter Seen.isAuthorization =
      authorizations n ++ [.authorize n, .authorized n (.error e)]
  /-- A dispatch starts behind every authorization up to its own, and behind no failed one. -/
  dispatches : ∀ n i, log[n]? = some (.dispatch i) →
    (∀ j ≤ i, .authorized j (.ok ()) ∈ log.take n) ∧ ∀ j e, .authorized j (.error e) ∉ log.take n
  /-- At no point more than `concurrency` dispatches run. -/
  running : ∀ n, (log.take n).countP Seen.isStart ≤ (log.take n).countP Seen.isEnd + concurrency
  /-- A failed authorization is the result, and every dispatch that started has ended. -/
  failed : ∀ j e, .authorized j (.error e) ∈ log → ∀ r, result = some r →
    r = .error e ∧ ∀ i, log.filter (Seen.concerns i) = [] ∨
      ∃ t, log.filter (Seen.concerns i) = [.dispatch i, .dispatched i t]
  /-- Without one the result is every outcome, in order. -/
  succeeded : (∀ j e, .authorized j (.error e) ∉ log) → ∀ r, result = some r →
    ∃ outcomes, r = .ok outcomes ∧ outcomes.length = count ∧ ∀ i t, outcomes[i]? = some t →
      log.filter (Seen.concerns i) = [.dispatch i, .dispatched i t]

theorem Stream.Good.authorizations (h : s.Good count concurrency log) : ∃ n ≤ count,
    log.filter Seen.isAuthorization = Eoa.authorizations n ∨
    n < count ∧ log.filter Seen.isAuthorization = Eoa.authorizations n ++ [.authorize n] ∨
    n < count ∧ ∃ e, log.filter Seen.isAuthorization =
      Eoa.authorizations n ++ [.authorize n, .authorized n (.error e)] := by
  have hbound := h.bound
  cases hs : s.stopped with
  | true =>
    obtain ⟨-, n, e, hn, hlog⟩ := h.halted hs
    exact ⟨n, by omega, .inr (.inr ⟨by omega, e, hlog⟩)⟩
  | false =>
    have hlog := h.going hs
    cases hf : s.authorizing with
    | none =>
      rw [hf] at hlog
      exact ⟨s.index, hbound, .inl (hlog.trans (List.append_nil _))⟩
    | some future =>
      rw [hf] at hlog
      exact ⟨s.index, hbound, .inr (.inl ⟨h.awaited (by rw [hf]; rfl), hlog⟩)⟩

theorem mapM_id_ok {α : Type} {l : List (Except ε (Option α))} {ts : List α}
    (h : l = ts.map fun t => .ok (some t)) :
    (l.mapM id).map (fun outcomes => outcomes.filterMap id) = .ok ts := by
  subst h
  have hall : (ts.map fun t => (.ok (some t) : Except ε (Option α))).mapM id =
      .ok (ts.map some) := by
    induction ts with
    | nil => rfl
    | cons t ts ih =>
      rw [List.map_cons, List.mapM_cons, ih]
      rfl
  rw [hall]
  show Except.ok ((ts.map some).filterMap id) = Except.ok ts
  simp

theorem mapM_id_error {α : Type} {l : List (Except ε (Option α))} {e : ε}
    (hmem : .error e ∈ l) (hall : ∀ e', .error e' ∈ l → e' = e) :
    (l.mapM id).map (fun outcomes => outcomes.filterMap id) = .error e := by
  have herr : l.mapM id = .error e := by
    induction l with
    | nil => simp at hmem
    | cons x l ih =>
      rw [List.mapM_cons]
      cases x with
      | error e' =>
        rw [hall e' List.mem_cons_self]
        rfl
      | ok o =>
        have hrest := ih (by simpa using hmem) fun e' he' => hall e' (List.mem_cons_of_mem _ he')
        rw [hrest]
        rfl
  rw [herr]
  rfl

section

variable (h : s.Good count concurrency log)

include h

theorem Stream.Good.fits_outcome {i : ℕ}
    {outcome : Except ε (Option τ)} (hi : s.outcomes[i]? = some outcome) :
    (Slot.ready outcome : Slot Q A ε τ).Fits log i := by
  refine h.entries i _ ?_
  have hlt : i < (s.outcomes.map Slot.ready : List (Slot Q A ε τ)).length := by
    rw [List.length_map]
    exact (List.getElem?_eq_some_iff.mp hi).1
  unfold Stream.entries
  rw [List.getElem?_append_left hlt, List.getElem?_map, hi]
  rfl

theorem Stream.Good.length_outcomes (hfin : s.Finished count) : s.outcomes.length = s.index := by
  have hlen := h.length
  have hslots : s.slots = [] := List.isEmpty_iff.mp hfin.2.2
  unfold Stream.entries at hlen
  rw [hslots, List.append_nil, List.length_map] at hlen
  exact hlen

theorem Stream.Good.succeeded (hfin : s.Finished count)
    (hnone : ∀ j e, .authorized j (.error e) ∉ log) :
    ∃ outcomes, s.result = .ok outcomes ∧ outcomes.length = count ∧
      ∀ i t, outcomes[i]? = some t →
        log.filter (Seen.concerns i) = [.dispatch i, .dispatched i t] := by
  have hgo : s.stopped = false := by
    by_contra hs
    obtain ⟨n, e, _, hmem, _⟩ := h.revoked (by simpa using hs)
    exact hnone n e hmem
  have hall : ∀ x ∈ s.outcomes, ∃ t, (.ok (some t) : Except ε (Option τ)) = x := by
    intro x hx
    obtain ⟨i, hi⟩ := List.getElem?_of_mem hx
    have hfits := h.fits_outcome hi
    cases x with
    | error e => exact absurd hfits.authorized (hnone i e)
    | ok o =>
      cases o with
      | some t => exact ⟨t, rfl⟩
      | none =>
        obtain ⟨j, e, hmem⟩ := hfits.suppressed rfl
        exact absurd hmem (hnone j e)
  obtain ⟨ts, hts⟩ : s.outcomes ∈ Set.range (List.map fun t => .ok (some t)) := by
    rw [Set.range_list_map]
    exact fun x hx => hall x hx
  refine ⟨ts, mapM_id_ok hts.symm, ?_, fun i t hi => ?_⟩
  · have hlen := h.length_outcomes hfin
    have hindex : s.index = count := hfin.2.1.resolve_left (by simp [hgo])
    rw [← hts, List.length_map] at hlen
    exact hlen.trans hindex
  · have hout : s.outcomes[i]? = some (.ok (some t)) := by
      rw [← hts, List.getElem?_map, hi]
      rfl
    exact (h.fits_outcome hout).calls

theorem Stream.Good.failed (hfin : s.Finished count)
    {j : ℕ} {e : ε} (hj : .authorized j (.error e) ∈ log) :
    s.result = .error e ∧ ∀ i, log.filter (Seen.concerns i) = [] ∨
      ∃ t, log.filter (Seen.concerns i) = [.dispatch i, .dispatched i t] := by
  have hstop : s.stopped = true := by
    by_contra hs
    exact h.unrevoked (by simpa using hs) j e hj
  have hlen := h.length_outcomes hfin
  obtain ⟨n, e', hn, _, honly, hok⟩ := h.revoked hstop
  obtain ⟨-, rfl⟩ := honly j e hj
  constructor
  · refine mapM_id_error ?_ fun e' he' => ?_
    · have hlt : n < s.outcomes.length := by omega
      have hget := List.getElem?_eq_getElem hlt
      have hfits := h.fits_outcome hget
      have hmem := List.getElem_mem hlt
      cases hx : s.outcomes[n] with
      | error e' =>
        rw [hx] at hfits hmem
        rw [← (honly n e' hfits.authorized).2]
        exact hmem
      | ok o =>
        rw [hx] at hfits
        exact absurd hfits.authorized hok
    · obtain ⟨i, hi⟩ := List.getElem?_of_mem he'
      exact (honly i e' (h.fits_outcome hi).authorized).2
  · intro i
    by_cases hi : i < s.outcomes.length
    · have hcalls := (h.fits_outcome (List.getElem?_eq_getElem hi)).calls
      rw [hcalls]
      cases s.outcomes[i] with
      | error e' => exact .inl rfl
      | ok o =>
        cases o with
        | none => exact .inl rfl
        | some t => exact .inr ⟨t, rfl⟩
    · exact .inl (h.later i (by omega))

theorem Stream.Good.ordered {result : Option (Except ε (List τ))}
    (hr : ∀ r, result = some r → s.Finished count ∧ r = s.result) :
    Ordered count concurrency result log where
  authorizations := h.authorizations
  dispatches n i hi := h.behind n _ hi i rfl
  running := h.busy
  failed j e hj r hres := by
    obtain ⟨hfin, rfl⟩ := hr r hres
    exact h.failed hfin hj
  succeeded hnone r hres := by
    obtain ⟨hfin, rfl⟩ := hr r hres
    exact h.succeeded hfin hnone

end

theorem Stream.Good.drive (pick : Prog Q A Poll) (fuel : ℕ) (h : s.Good count concurrency log) :
    (s.driveSeen count concurrency authorize dispatch pick fuel log).Ends
      fun x => Ordered count concurrency x.1 x.2 := by
  induction fuel generalizing s log with
  | zero => exact h.ordered nofun
  | succ fuel ih =>
    unfold Stream.driveSeen
    split_ifs with hfin
    · refine h.ordered fun r hr => ⟨hfin, ?_⟩
      exact (Option.some.inj hr).symm
    refine Prog.Ends.bind pick.ends_true fun next _ => ?_
    exact Prog.Ends.bind (h.poll authorize dispatch next) fun x hx => ih hx

end Steps

/-! ## Every order of polls -/

section Orders

variable (count concurrency : ℕ) (authorize : ℕ → Prog Q A (Except ε Unit))
variable (dispatch : ℕ → Prog Q A τ)

/-- The polls of an executor, one after the other. -/
def Stream.pollsSeen : List Poll → Stream Q A ε τ → List (Seen ε τ) →
    Prog Q A (Stream Q A ε τ × List (Seen ε τ))
  | [], s, log => .done (s, log)
  | next :: order, s, log =>
    (s.pollSeen count concurrency authorize dispatch next).bind fun x =>
      x.1.pollsSeen order (log ++ x.2)

def Stream.returned (s : Stream Q A ε τ) : Option (Except ε (List τ)) :=
  if s.Finished count then some s.result else none

end Orders

section Total

variable {count concurrency : ℕ} {authorize : ℕ → Prog Q A (Except ε Unit)}
variable {dispatch : ℕ → Prog Q A τ} {s : Stream Q A ε τ}

variable (authorize dispatch) in
theorem Stream.Good.polls (h : s.Good count concurrency log) (order : List Poll) :
    (s.pollsSeen count concurrency authorize dispatch order log).Ends
      fun x => x.1.Good count concurrency x.2 := by
  induction order generalizing s log with
  | nil => exact h
  | cons next order ih => exact Prog.Ends.bind (h.poll authorize dispatch next) fun x hx => ih hx

theorem Stream.Good.ordered_returned (h : s.Good count concurrency log) :
    Ordered count concurrency (s.returned count) log := by
  refine h.ordered fun r hr => ?_
  unfold Stream.returned at hr
  split_ifs at hr with hfin
  exact ⟨hfin, (Option.some.inj hr).symm⟩

variable (step : (q : Q) → W → A q × W)

/-- One poll, answered by a world that answers by itself. -/
def Polled (count concurrency : ℕ) (authorize : ℕ → Prog Q A (Except ε Unit))
    (dispatch : ℕ → Prog Q A τ) (x y : Stream Q A ε τ × W) : Prop :=
  ∃ next, (x.1.poll count concurrency authorize dispatch next).exec step x.2 = y

/-- The producer is where it was. -/
structure Stream.SameProducer (s s' : Stream Q A ε τ) : Prop where
  index : s'.index = s.index
  stopped : s'.stopped = s.stopped
  authorizing : s'.authorizing = s.authorizing

theorem Stream.SameProducer.trans {s₁ s₂ s₃ : Stream Q A ε τ} (h : s₁.SameProducer s₂)
    (h' : s₂.SameProducer s₃) : s₁.SameProducer s₃ :=
  ⟨h'.index.trans h.index, h'.stopped.trans h.stopped, h'.authorizing.trans h.authorizing⟩

variable {step} {w : W} {rest : List (Slot Q A ε τ)}

variable (count concurrency authorize dispatch step) in
theorem exec_poll_head
    (hs : s.slots = slot :: rest) :
    (s.poll count concurrency authorize dispatch (.slot 0)).exec step w =
      ({ s with slots := ((slot.poll dispatch s.authorizationFailed).exec step w).1 :: rest }.collect,
        ((slot.poll dispatch s.authorizationFailed).exec step w).2) := by
  have hget : s.slots[0]? = some slot := by rw [hs]; rfl
  simp only [Stream.poll, hget]
  refine (Prog.exec_bind step _ _ w).trans ?_
  rw [hs]
  rfl

theorem Stream.collect_ready {outcome : Except ε (Option τ)} :
    s.SameProducer { s with slots := .ready outcome :: rest }.collect ∧
      { s with slots := .ready outcome :: rest }.collect.slots.length ≤ rest.length := by
  refine ⟨⟨rfl, rfl, rfl⟩, ?_⟩
  show (rest.dropWhile _).length ≤ _
  exact List.length_dropWhile_le _ _

/-- The slot of a dispatch that has been polled. -/
def Slot.ofFuture : Prog Q A τ → Slot Q A ε τ
  | .done t => .ready (.ok (some t))
  | future => .started future

theorem Slot.exec_dispatch (future : Prog Q A τ) :
    (Slot.dispatch future : Prog Q A (Slot Q A ε τ)).exec step w =
      (Slot.ofFuture (future.poll.exec step w).1, (future.poll.exec step w).2) := by
  refine (Prog.exec_bind step future.poll _ w).trans ?_
  cases (future.poll.exec step w).1 <;> rfl

variable (count concurrency authorize dispatch step) in
theorem drain_started (future : Prog Q A τ) {s : Stream Q A ε τ} {w : W}
    (hs : s.slots = .started future :: rest) :
    ∃ y, Relation.ReflTransGen (Polled step count concurrency authorize dispatch) (s, w) y ∧
      s.SameProducer y.1 ∧ y.1.slots.length ≤ rest.length := by
  induction future generalizing s w with
  | done t => exact ⟨_, .single ⟨.slot 0, exec_poll_head _ _ _ _ _ hs⟩, Stream.collect_ready⟩
  | ask q k ih =>
    have hfirst := exec_poll_head count concurrency authorize dispatch step (w := w) hs
    rw [show Slot.poll dispatch s.authorizationFailed (.started (.ask q k)) =
      Slot.dispatch (.ask q k) from rfl, Slot.exec_dispatch] at hfirst
    cases hk : k (step q w).1 with
    | done t =>
      refine ⟨_, .single ⟨.slot 0, hfirst⟩, ?_⟩
      simp only [Prog.poll, Prog.exec, hk]
      exact Stream.collect_ready
    | ask q' k' =>
      simp only [Prog.poll, Prog.exec, hk] at hfirst
      obtain ⟨y, hy, hsame, hlen⟩ := ih (step q w).1 (w := (step q w).2)
        (s := { s with slots := .started (.ask q' k') :: rest }.collect) (by rw [hk]; rfl)
      exact ⟨y, .head ⟨.slot 0, hfirst⟩ hy, ⟨hsame.index, hsame.stopped, hsame.authorizing⟩, hlen⟩

variable (count concurrency authorize dispatch step) in
theorem drain_head
    (hs : s.slots = slot :: rest) :
    ∃ y, Relation.ReflTransGen (Polled step count concurrency authorize dispatch) (s, w) y ∧
      s.SameProducer y.1 ∧ y.1.slots.length ≤ rest.length := by
  have hfirst := exec_poll_head count concurrency authorize dispatch step (w := w) hs
  cases slot with
  | ready outcome => exact ⟨_, .single ⟨.slot 0, hfirst⟩, Stream.collect_ready⟩
  | started future => exact drain_started _ _ _ _ _ future hs
  | queued index authorization =>
    cases authorization with
    | error e => exact ⟨_, .single ⟨.slot 0, hfirst⟩, Stream.collect_ready⟩
    | ok u =>
      by_cases hfailed : s.authorizationFailed = true
      · simp only [Slot.poll, if_pos hfailed] at hfirst
        exact ⟨_, .single ⟨.slot 0, hfirst⟩, Stream.collect_ready⟩
      simp only [Slot.poll, if_neg hfailed, Slot.exec_dispatch] at hfirst
      cases hf : ((dispatch index).poll.exec step w).1 with
      | done t =>
        rw [hf] at hfirst
        exact ⟨_, .single ⟨.slot 0, hfirst⟩, Stream.collect_ready⟩
      | ask q k =>
        rw [hf] at hfirst
        obtain ⟨y, hy, hsame, hlen⟩ := drain_started count concurrency authorize dispatch step
          (.ask q k) (w := ((dispatch index).poll.exec step w).2)
          (s := { s with slots := .started (.ask q k) :: rest }.collect) rfl
        exact ⟨y, .head ⟨.slot 0, hfirst⟩ hy, ⟨hsame.index, hsame.stopped, hsame.authorizing⟩,
          hlen⟩

variable (count concurrency authorize dispatch step) in
theorem drain (n : ℕ) {s : Stream Q A ε τ} {w : W} (hs : s.slots.length ≤ n) :
    ∃ y, Relation.ReflTransGen (Polled step count concurrency authorize dispatch) (s, w) y ∧
      s.SameProducer y.1 ∧ y.1.slots = [] := by
  induction n generalizing s w with
  | zero => exact ⟨_, .refl, ⟨rfl, rfl, rfl⟩, List.length_eq_zero_iff.mp (Nat.le_zero.mp hs)⟩
  | succ n ih =>
    cases hslots : s.slots with
    | nil => exact ⟨_, .refl, ⟨rfl, rfl, rfl⟩, hslots⟩
    | cons slot rest =>
      obtain ⟨y, hy, hsame, hlen⟩ := drain_head count concurrency authorize dispatch step
        (w := w) hslots
      rw [hslots, List.length_cons] at hs
      obtain ⟨z, hz, hsame', hnil⟩ := ih (s := y.1) (w := y.2) (by omega)
      exact ⟨z, hy.trans hz, hsame.trans hsame', hnil⟩

/-- The producer with an authorization that has been polled. -/
def Stream.ofFuture (s : Stream Q A ε τ) : Prog Q A (Except ε Unit) → Stream Q A ε τ
  | .done r => s.yield r
  | future => { s with authorizing := some future }

theorem Stream.exec_authorize (s : Stream Q A ε τ) (future : Prog Q A (Except ε Unit)) :
    (s.authorize future).exec step w =
      (s.ofFuture (future.poll.exec step w).1, (future.poll.exec step w).2) := by
  refine (Prog.exec_bind step future.poll _ w).trans ?_
  cases (future.poll.exec step w).1 <;> rfl

variable (count concurrency authorize dispatch step) in
theorem authorize_ends (hpos : 0 < concurrency) (future : Prog Q A (Except ε Unit))
    {s : Stream Q A ε τ} {w : W} (hs : s.slots = []) (hf : s.authorizing = some future) :
    ∃ y, Relation.ReflTransGen (Polled step count concurrency authorize dispatch) (s, w) y ∧
      y.1.index = s.index + 1 := by
  have hfirst : (s.poll count concurrency authorize dispatch .producer).exec step w =
      (s.authorize future).exec step w := by
    simp only [Stream.poll, Stream.produce, hs, hf, List.length_nil, Nat.not_le.mpr hpos,
      if_false]
  rw [Stream.exec_authorize] at hfirst
  induction future generalizing s w with
  | done r => exact ⟨_, .single ⟨.producer, hfirst⟩, rfl⟩
  | ask q k ih =>
    cases hk : k (step q w).1 with
    | done r =>
      simp only [Prog.poll, Prog.exec, hk] at hfirst
      exact ⟨_, .single ⟨.producer, hfirst⟩, rfl⟩
    | ask q' k' =>
      simp only [Prog.poll, Prog.exec, hk] at hfirst
      obtain ⟨y, hy, hindex⟩ := ih (step q w).1 (w := (step q w).2)
        (s := { s with authorizing := some (.ask q' k') }) hs (by rw [hk]) (by
          rw [← Stream.exec_authorize, hk]
          simp only [Stream.poll, Stream.produce, hs, List.length_nil, Nat.not_le.mpr hpos,
            if_false])
      exact ⟨y, .head ⟨.producer, hfirst⟩ hy, hindex⟩

variable (count concurrency authorize dispatch step) in
theorem produce_ends (hpos : 0 < concurrency) (hs : s.slots = [])
    (hfin : ¬s.Finished count) :
    ∃ y, Relation.ReflTransGen (Polled step count concurrency authorize dispatch) (s, w) y ∧
      y.1.index = s.index + 1 := by
  cases hf : s.authorizing with
  | some future => exact authorize_ends _ _ _ _ _ hpos future hs hf
  | none =>
    have hend : ¬(s.stopped ∨ s.index = count) := fun hend =>
      hfin ⟨by rw [hf]; rfl, hend, by rw [hs]; rfl⟩
    have hfirst : (s.poll count concurrency authorize dispatch .producer).exec step w =
        (s.authorize (authorize s.index)).exec step w := by
      simp only [Stream.poll, Stream.produce, hs, hf, List.length_nil, Nat.not_le.mpr hpos,
        if_false, hend]
    rw [Stream.exec_authorize] at hfirst
    cases hk : ((authorize s.index).poll.exec step w).1 with
    | done r =>
      rw [hk] at hfirst
      exact ⟨_, .single ⟨.producer, hfirst⟩, rfl⟩
    | ask q k =>
      rw [hk] at hfirst
      obtain ⟨y, hy, hindex⟩ := authorize_ends count concurrency authorize dispatch step hpos
        (.ask q k)
        (w := ((authorize s.index).poll.exec step w).2)
        (s := { s with authorizing := some (.ask q k) }) hs rfl
      exact ⟨y, .head ⟨.producer, hfirst⟩ hy, hindex⟩

theorem exec_pollSeen (next : Poll) :
    (s.poll count concurrency authorize dispatch next).exec step w =
      (((s.pollSeen count concurrency authorize dispatch next).exec step w).1.1,
        ((s.pollSeen count concurrency authorize dispatch next).exec step w).2) := by
  rw [← s.pollSeen_fst next]
  exact Prog.exec_bind step _ _ w

theorem Stream.Good.order_of_polled (h : s.Good count concurrency log)
    {y : Stream Q A ε τ × W}
    (hy : Relation.ReflTransGen (Polled step count concurrency authorize dispatch) (s, w) y) :
    ∃ order log', (s.pollsSeen count concurrency authorize dispatch order log).exec step w =
      ((y.1, log'), y.2) ∧ y.1.Good count concurrency log' := by
  generalize hx : (s, w) = x at hy
  induction hy using Relation.ReflTransGen.head_induction_on generalizing s w log with
  | refl =>
    subst hx
    exact ⟨[], log, rfl, h⟩
  | head hstep _ ih =>
    subst hx
    obtain ⟨next, hnext⟩ := hstep
    rw [exec_pollSeen] at hnext
    have hgood := (h.poll authorize dispatch next).exec step w
    obtain ⟨order, log', horder, hy⟩ := ih hgood hnext
    refine ⟨next :: order, log', ?_, hy⟩
    exact (Prog.exec_bind step _ _ w).trans horder

theorem exec_pollsSeen_append (order more : List Poll) (s : Stream Q A ε τ)
    (log : List (Seen ε τ)) (w : W) :
    (s.pollsSeen count concurrency authorize dispatch (order ++ more) log).exec step w =
      (((s.pollsSeen count concurrency authorize dispatch order log).exec step w).1.1.pollsSeen
        count concurrency authorize dispatch more
        ((s.pollsSeen count concurrency authorize dispatch order log).exec step w).1.2).exec step
        ((s.pollsSeen count concurrency authorize dispatch order log).exec step w).2 := by
  induction order generalizing s log w with
  | nil => rfl
  | cons next order ih =>
    simp only [List.cons_append, Stream.pollsSeen, Prog.exec_bind]
    exact ih _ _ _

variable (authorize dispatch step w) in
/-- **From wherever it stands, some order of polls brings the stream to its end**: the buffer is
emptied, then the producer comes to its next index, by induction on what is left of the input. -/
theorem Stream.Good.finishes (hpos : 0 < concurrency) (h : s.Good count concurrency log) :
    ∃ order, ((s.pollsSeen count concurrency authorize dispatch order log).exec
      step w).1.1.Finished count := by
  generalize hd : count - s.index = d
  induction d using Nat.strong_induction_on generalizing s w log with
  | h d ih =>
    obtain ⟨y, hy, hsame, hnil⟩ := drain count concurrency authorize dispatch step
      s.slots.length (s := s) (w := w) le_rfl
    obtain ⟨order, log', horder, hgood⟩ := h.order_of_polled hy
    by_cases hfin : y.1.Finished count
    · exact ⟨order, by rw [horder]; exact hfin⟩
    obtain ⟨z, hz, hindex⟩ := produce_ends count concurrency authorize dispatch step
      (w := y.2) hpos hnil hfin
    obtain ⟨order', log'', horder', hgood'⟩ := hgood.order_of_polled hz
    have hlt : count - z.1.index < d := by
      have hbound := hgood'.bound
      have heq := hsame.index
      omega
    obtain ⟨rest, hrest⟩ := ih _ hlt (w := z.2) hgood' rfl
    refine ⟨order ++ (order' ++ rest), ?_⟩
    rw [exec_pollsSeen_append, horder, exec_pollsSeen_append, horder']
    exact hrest

end Total

/-- **Ordered authorization before dispatch**: whatever the futures and the answers, under every
executor the log of the call is in order, and from wherever the executor left it the call can be
driven to its end. -/
theorem authorizeThenDispatch_ordered (count concurrency : ℕ) (hpos : 0 < concurrency)
    (authorize : ℕ → Prog Q A (Except ε Unit)) (dispatch : ℕ → Prog Q A τ) :
    (∀ pick fuel,
      (authorizeThenDispatchSeen count concurrency authorize dispatch pick fuel).fst =
        authorizeThenDispatch count concurrency authorize dispatch pick fuel ∧
      (authorizeThenDispatchSeen count concurrency authorize dispatch pick fuel).Ends
        fun x => Ordered count concurrency x.1 x.2) ∧
    (∀ order : List Poll,
      (Stream.pollsSeen count concurrency authorize dispatch order {} []).Ends
        fun x => Ordered count concurrency (x.1.returned count) x.2) ∧
    ∀ (W : Type) (step : (q : Q) → W → A q × W) (w : W) (order : List Poll), ∃ more,
      ((Stream.pollsSeen count concurrency authorize dispatch (order ++ more) {} []).exec
        step w).1.1.Finished count := by
  refine ⟨fun pick fuel => ⟨authorizeThenDispatchSeen_fst pick fuel, ?_⟩, fun order => ?_,
    fun W step w order => ?_⟩
  · unfold authorizeThenDispatchSeen
    rw [if_neg (by omega)]
    exact Stream.good_init.drive pick fuel
  · exact (Stream.good_init.polls authorize dispatch order).mono fun x hx => hx.ordered_returned
  · have hstart : ({} : Stream Q A ε τ).Good count concurrency [] := Stream.good_init
    have hgood := (hstart.polls authorize dispatch order).exec step w
    obtain ⟨more, hmore⟩ := hgood.finishes authorize dispatch step _ hpos
    exact ⟨more, by rw [exec_pollsSeen_append]; exact hmore⟩

/-- A batch of two, of which the second authorization fails while the first send is under way. -/
theorem authorizeThenDispatch_ordered_revoked :
    0 < 2 ∧ Ordered 2 2 (some (.error "Lost EOA lock"))
      [.authorize 0, .authorized 0 (.ok ()), .dispatch 0, .authorize 1,
        .authorized 1 (.error "Lost EOA lock"), .dispatched 0 7] := by
  have hpos : 0 < 2 := by decide
  refine ⟨hpos, ?_⟩
  have h := (authorizeThenDispatch_ordered (Q := Unit) (A := fun _ => ℕ) (τ := ℕ) 2 2 hpos
    (fun i => .done (if i = 1 then .error "Lost EOA lock" else .ok ()))
    (fun _ => .ask () fun n => .ask () fun _ => .done n)).2.1
    [.producer, .slot 0, .producer, .slot 1, .slot 0]
  exact h.exec (fun _ _ => (7, ())) ()

end EngineCore.Eoa
