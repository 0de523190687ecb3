import EngineCore.Eoa.Stages
import EngineCore.Eoa.Nonces

/-!
# Workers that take a wallet from one another

The store of one wallet, the API calls that add transactions to it, and any number of workers. A
worker takes the lock once, from whoever has it, and commits operations only while the lock names
it. Which operations it commits is left open; their arguments are made of what it has read since it
took the lock and of answers from outside, which may be anything.

* **`Orderly.after`**: every run keeps the stages and the nonces of the wallet in order;
* **`one_stage`**: a transaction is at one stage; **`one_intent`**: a held nonce has one intent.
-/

namespace EngineCore.Eoa

open Redis Twmq

/-! ## Workers -/

/-- What a worker has read since it took the lock, as far as later operations use it: the borrowed
transactions it has read or moved, the recycled nonces that were left, a submitted row, and the
cached transaction count. -/
structure Memory where
  borrowed : List BorrowedTransactionData := []
  recycled : List ℕ := []
  row : Option (String × ℕ) := none
  cached : Option (Option ℕ) := none
  deriving DecidableEq, Repr

def SubmissionResult.key (r : SubmissionResult) : String × ℕ :=
  (r.transaction.transactionId, r.transaction.nonce)

def BorrowedTransactionData.key (b : BorrowedTransactionData) : String × ℕ :=
  (b.transactionId, b.signed.nonce)

/-- The operations a worker can make: at most one result for each borrowed transaction it knows, at
most one noop for each recycled nonce, and a transaction count above the cached one. Counts have 64
bits. -/
def Memory.Forms (m : Memory) : Operation → Prop
  | .processBorrowed results => (results.map (·.key)).Subperm (m.borrowed.map (·.key))
  | .processNoop noops => (noops.map (·.nonce)).Nodup ∧ ∀ n ∈ noops, n.nonce ∈ m.recycled
  | .updateCached count => count < 2 ^ 64 ∧ match m.cached with
    | none => False
    | some none => True
    | some (some c) => c < count
  | .resetNonces count => count < 2 ^ 64
  | _ => True

instance decidableForms (m : Memory) : (op : Operation) → Decidable (m.Forms op)
  | .processBorrowed results =>
    inferInstanceAs (Decidable ((results.map (·.key)).Subperm (m.borrowed.map (·.key))))
  | .processNoop noops =>
    inferInstanceAs (Decidable ((noops.map (·.nonce)).Nodup ∧ ∀ n ∈ noops, n.nonce ∈ m.recycled))
  | .updateCached count =>
    match hm : m.cached with
    | none => isFalse fun h => by simp [Memory.Forms, hm] at h
    | some none => decidable_of_iff (count < 2 ^ 64) (by simp [Memory.Forms, hm])
    | some (some c) => decidable_of_iff (count < 2 ^ 64 ∧ c < count) (by simp [Memory.Forms, hm])
  | .resetNonces count => inferInstanceAs (Decidable (count < 2 ^ 64))
  | .moveIncremented _ => isTrue trivial
  | .moveRecycled _ => isTrue trivial
  | .cleanSubmitted _ _ => isTrue trivial
  | .cleanRecycled => isTrue trivial
  | .failPending _ => isTrue trivial

/-- What is left of the memory after an operation: what the operation returns, and what it cannot
have changed. -/
def Memory.after (m : Memory) (w' : Wallet) : Operation → Memory
  | .moveIncremented txs => { borrowed := txs, cached := m.cached }
  | .moveRecycled txs => { borrowed := txs, cached := m.cached }
  | .cleanRecycled => { recycled := w'.recycled, cached := m.cached }
  | .updateCached _ => {}
  | .resetNonces _ => {}
  | _ => { cached := m.cached }

/-- The wallet and its workers; a worker that has not had the lock yet has no memory. -/
structure Crew where
  wallet : Wallet := {}
  memory : LeaseToken → Option Memory := fun _ => none

namespace Crew

/-- One atomic step: of the API, of Redis, or of a worker. -/
inductive Event
  | add (id request : String) (now : ℕ)
  | expireRecord (id : String)
  | acquire (t : LeaseToken)
  | readBorrowed (t : LeaseToken)
  | readCached (t : LeaseToken)
  | inspect (t : LeaseToken) (row : Row) (nonce : ℕ)
  | operate (t : LeaseToken) (op : Operation)
  | bump (t : LeaseToken) (hash : String) (queuedAt submittedAt : ℕ)
  | dropMissing (t : LeaseToken) (id : String)
  | release (t : LeaseToken)

def remember (s : Crew) (t : LeaseToken) (m : Memory) : Crew :=
  { s with memory := Function.update s.memory t (some m) }

/-- One event, where it is enabled. A read needs no lock, and neither does the removal of an id
whose record was missing. -/
def step (s : Crew) : Event → Option Crew
  | .add id request now =>
    match s.wallet.addTransaction id request now with
    | .ok (w, _) => some { s with wallet := w }
    | .error _ => some s
  | .expireRecord id =>
    if (s.wallet.records id).any (·.expiring) then
      some { s with wallet := { s.wallet with records := Function.update s.wallet.records id none } }
    else none
  | .acquire t =>
    match s.memory t with
    | none => some ({ s with wallet := { s.wallet with lock := some t } }.remember t {})
    | some _ => none
  | .readBorrowed t =>
    (s.memory t).map fun m => s.remember t { m with borrowed := s.wallet.borrowed.map Prod.snd }
  | .readCached t => (s.memory t).map fun m => s.remember t { m with cached := some s.wallet.cached }
  | .inspect t row nonce =>
    if (row, nonce) ∈ s.wallet.submitted ∧ row.Readable then
      (s.memory t).map fun m => s.remember t { m with row := some (row.transactionId, nonce) }
    else none
  | .operate t op =>
    match s.memory t with
    | some m =>
      if s.wallet.lock = some t ∧ m.Forms op then
        match s.wallet.apply op with
        | .ok w => some ({ s with wallet := w }.remember t (m.after w op))
        | .error _ => none
      else none
    | none => none
  | .bump t hash queuedAt submittedAt =>
    match s.memory t with
    | some m =>
      match m.row with
      | some (id, nonce) =>
        if s.wallet.lock = some t then
          some ({ s with
            wallet := s.wallet.addGasBump ⟨nonce, hash, id, submittedAt, queuedAt⟩ }.remember t
              { cached := m.cached })
        else none
      | none => none
    | none => none
  | .dropMissing t id =>
    (s.memory t).map fun _ => { s with wallet := { s.wallet with
      pending := hdel s.wallet.pending id
      borrowed := hdel s.wallet.borrowed id } }
  | .release t =>
    (s.memory t).map fun _ => { s with wallet := { s.wallet with
      lock := if s.wallet.lock = some t then none else s.wallet.lock } }

def after (s : Crew) : List Event → Option Crew
  | [] => some s
  | e :: es => (s.step e).bind fun s' => s'.after es

theorem after_append (s : Crew) (es es' : List Event) :
    s.after (es ++ es') = (s.after es).bind fun s' => s'.after es' := by
  induction es generalizing s with
  | nil => rfl
  | cons e es ih =>
    rw [List.cons_append, after, after, Option.bind_assoc]
    exact congrArg _ (funext ih)

end Crew

namespace Crew

variable {s s' : Crew} {t : LeaseToken}

theorem step_operate {op : Operation} (h : s.step (.operate t op) = some s') :
    ∃ m w', s.memory t = some m ∧ s.wallet.lock = some t ∧ m.Forms op ∧ s.wallet.apply op = .ok w' ∧
      s' = { s with wallet := w' }.remember t (m.after w' op) := by
  simp only [step] at h
  cases hm : s.memory t with
  | none => simp [hm] at h
  | some m =>
    simp only [hm] at h
    split_ifs at h with hmay
    cases hop : s.wallet.apply op with
    | error e => simp [hop] at h
    | ok w' =>
      rw [hop] at h
      exact ⟨m, w', rfl, hmay.1, hmay.2, rfl, (Option.some.inj h).symm⟩

theorem step_bump {hash : String} {queuedAt submittedAt : ℕ}
    (h : s.step (.bump t hash queuedAt submittedAt) = some s') :
    ∃ m id nonce, s.memory t = some m ∧ s.wallet.lock = some t ∧ m.row = some (id, nonce) ∧
      s' = { s with
        wallet := s.wallet.addGasBump ⟨nonce, hash, id, submittedAt, queuedAt⟩ }.remember t
          { cached := m.cached } := by
  simp only [step] at h
  cases hm : s.memory t with
  | none => simp [hm] at h
  | some m =>
    simp only [hm] at h
    cases hrow : m.row with
    | none => simp [hrow] at h
    | some seen =>
      simp only [hrow] at h
      split_ifs at h with hlock
      exact ⟨m, seen.1, seen.2, rfl, hlock, hrow, (Option.some.inj h).symm⟩

end Crew

/-! ## What a worker knows -/

variable {w w' : Wallet} {m : Memory}

/-- What the worker has read is so, of a borrowed transaction as long as it is borrowed. -/
structure Informed (w : Wallet) (m : Memory) : Prop where
  ids : (m.borrowed.map (·.transactionId)).Nodup
  borrowed : ∀ b ∈ m.borrowed, ∀ d, (b.transactionId, d) ∈ w.borrowed → d = b
  recycled : ∀ n ∈ m.recycled, n < w.next ∧ ∀ id, ¬w.HeldBy n id
  row : ∀ id n, m.row = some (id, n) → w.SubmittedAt id n
  cached : ∀ seen, m.cached = some seen → w.cached = seen

namespace Informed

theorem only (hc : ∀ seen, m.cached = some seen → w.cached = seen) :
    Informed w { cached := m.cached } :=
  ⟨List.nodup_nil, by rintro b ⟨⟩, by rintro n ⟨⟩, by rintro id n ⟨⟩, hc⟩

theorem mono (h : Informed w m) (hb : ∀ e ∈ w'.borrowed, e ∈ w.borrowed)
    (hs : w'.submitted = w.submitted) (ho : w'.optimistic = w.optimistic)
    (hc : w'.cached = w.cached) : Informed w' m := by
  refine ⟨h.ids, fun b hm d hd => h.borrowed b hm d (hb _ hd), fun n hn => ?_, fun id n hrow => ?_,
    fun seen hseen => hc.trans (h.cached seen hseen)⟩
  · obtain ⟨hlt, hfree⟩ := h.recycled n hn
    refine ⟨?_, fun id hid => hfree id ?_⟩
    · unfold Wallet.next at hlt ⊢
      rwa [ho]
    · rcases hid with hs' | ⟨b, hmem, hn⟩
      · exact .inl (hs'.congr hs)
      · exact .inr ⟨b, hb _ hmem, hn⟩
  · obtain ⟨row, hmem, hid⟩ := h.row id n hrow
    exact ⟨row, hs ▸ hmem, hid⟩

theorem fits (h : Informed w m) {op : Operation} (hf : m.Forms op) : op.Fits w := by
  cases op with
  | processBorrowed results =>
    obtain ⟨l, hperm, hsub⟩ := hf
    refine ⟨?_, fun r hr b hb => ?_⟩
    · have hids : (l.map Prod.fst).Nodup := by
        refine List.Nodup.sublist (hsub.map Prod.fst) ?_
        rw [List.map_map]
        exact h.ids
      have hresults := (hperm.map Prod.fst).nodup_iff.mp hids
      rwa [List.map_map] at hresults
    · have hkey : r.key ∈ m.borrowed.map (·.key) :=
        hsub.subset (hperm.mem_iff.mpr (List.mem_map.mpr ⟨r, hr, rfl⟩))
      obtain ⟨b', hb', heq⟩ := List.mem_map.mp hkey
      obtain ⟨hid, hnonce⟩ := Prod.mk.inj heq
      rw [h.borrowed b' hb' b (hid ▸ hb)]
      exact hnonce
  | processNoop noops => exact ⟨hf.1, fun n hn => h.recycled n.nonce (hf.2 n hn)⟩
  | updateCached count =>
    refine ⟨hf.1, fun c hc => ?_⟩
    have hseen := hf.2
    cases hm : m.cached with
    | none => simp [hm] at hseen
    | some seen =>
      obtain rfl := (h.cached seen hm).symm.trans hc
      simpa [hm] using hseen
  | resetNonces count => exact hf
  | _ => trivial

theorem moved {txs : List BorrowedTransactionData} (h : Informed w m) (hm : w.Moved txs w') :
    Informed w' { borrowed := txs, cached := m.cached } := by
  refine ⟨hm.ids, fun b hb d hd => ?_, by rintro n ⟨⟩, by rintro id n ⟨⟩, fun seen hseen => ?_⟩
  · rcases (hm.borrowed _).mp hd with ⟨tx, htx, heq⟩ | ⟨_, hnot⟩
    · obtain ⟨hid, rfl⟩ := Prod.mk.inj heq
      exact List.inj_on_of_nodup_map hm.ids htx hb hid.symm
    · exact absurd (List.mem_map.mpr ⟨b, hb, rfl⟩) hnot
  · exact hm.cached.trans (h.cached seen hseen)

theorem after (h : Informed w m) {op : Operation} (hop : w.apply op = .ok w') (hw' : w'.Allotted) :
    Informed w' (m.after w' op) := by
  cases op with
  | moveIncremented txs => exact h.moved (Wallet.moveIncremented_ok hop).1
  | moveRecycled txs => exact h.moved (Wallet.moveRecycled_ok hop).1
  | processBorrowed results =>
    obtain rfl := Except.ok.inj hop
    exact only fun seen hseen =>
      (Wallet.processBorrowed_spec results).cached.trans (h.cached seen hseen)
  | cleanSubmitted confirmed counts =>
    exact only fun seen hseen => (Wallet.cleanSubmitted_ok hop).cached.trans (h.cached seen hseen)
  | resetNonces count => exact only (m := {}) (by rintro seen ⟨⟩)
  | cleanRecycled =>
    obtain ⟨_, _, _, heq, _⟩ := Wallet.cleanRecycled_ok hop
    refine ⟨List.nodup_nil, by rintro b ⟨⟩, fun n hn => ?_, by rintro id n ⟨⟩, fun seen hseen => ?_⟩
    · exact hw'.recycled n hn
    · rw [heq]
      exact h.cached seen hseen
  | updateCached count => exact only (m := {}) (by rintro seen ⟨⟩)
  | processNoop noops =>
    obtain rfl := Except.ok.inj hop
    exact only h.cached
  | failPending ids =>
    obtain ⟨_, rfl⟩ := Wallet.failPending_ok hop
    exact only h.cached

end Informed

/-! ## Every run -/

/-- Stages and nonces are in order, and the worker that has the lock knows what it has read. -/
structure Orderly (s : Crew) : Prop where
  staged : s.wallet.Staged
  allotted : s.wallet.Allotted
  informed : ∀ t m, s.wallet.lock = some t → s.memory t = some m → Informed s.wallet m

namespace Orderly

variable {s s' : Crew} {t : LeaseToken}

theorem remember (h : Orderly s) (hm : s.wallet.lock = some t → Informed s.wallet m) :
    Orderly (s.remember t m) := by
  refine ⟨h.staged, h.allotted, fun t' m' hlock hm' => ?_⟩
  by_cases heq : t' = t
  · subst heq
    have hm' : Function.update s.memory t' (some m) t' = some m' := hm'
    rw [Function.update_self] at hm'
    exact Option.some.inj hm' ▸ hm hlock
  · have hm' : Function.update s.memory t (some m) t' = some m' := hm'
    rw [Function.update_of_ne heq] at hm'
    exact h.informed t' m' hlock hm'

theorem changed (h : Orderly s) (hst : w'.Staged) (hal : w'.Allotted)
    (hb : ∀ e ∈ w'.borrowed, e ∈ s.wallet.borrowed) (hs : w'.submitted = s.wallet.submitted)
    (ho : w'.optimistic = s.wallet.optimistic) (hc : w'.cached = s.wallet.cached)
    (hlock : ∀ t, w'.lock = some t → s.wallet.lock = some t) : Orderly { s with wallet := w' } :=
  ⟨hst, hal, fun t m ht hm => (h.informed t m (hlock t ht) hm).mono hb hs ho hc⟩

theorem committed (hst : w'.Staged) (hal : w'.Allotted)
    (hlock : s.wallet.lock = some t) (hsame : w'.lock = s.wallet.lock) (hm : Informed w' m) :
    Orderly ({ s with wallet := w' }.remember t m) := by
  refine ⟨hst, hal, fun t' m' hlock' hm' => ?_⟩
  have heq : t' = t := Option.some.inj ((hsame.symm.trans hlock').symm.trans hlock)
  subst heq
  have hm' : Function.update s.memory t' (some m) t' = some m' := hm'
  rw [Function.update_self] at hm'
  exact Option.some.inj hm' ▸ hm

theorem add (h : Orderly s) {id request : String} {now : ℕ} {new : Bool}
    (hadd : s.wallet.addTransaction id request now = .ok (w', new)) :
    Orderly { s with wallet := w' } := by
  have hst := h.staged.addTransaction hadd
  unfold Wallet.addTransaction at hadd
  split at hadd
  · split_ifs at hadd
    obtain ⟨rfl, _⟩ := Prod.mk.inj (Except.ok.inj hadd)
    exact h
  · split_ifs at hadd
    obtain ⟨rfl, _⟩ := Prod.mk.inj (Except.ok.inj hadd)
    exact h.changed hst (h.allotted.shrink (fun _ _ hid => hid) le_rfl (fun _ hn => hn)
      h.allotted.bounded h.allotted.counted) (fun _ he => he) rfl rfl rfl fun _ ht => ht

theorem readBorrowed (h : Orderly s) (hm : s.wallet.lock = some t → Informed s.wallet m) :
    Orderly (s.remember t { m with borrowed := s.wallet.borrowed.map Prod.snd }) := by
  refine h.remember fun hlock => ⟨?_, ?_, (hm hlock).recycled, (hm hlock).row, (hm hlock).cached⟩
  · have hkeys : (s.wallet.borrowed.map Prod.snd).map (·.transactionId) = keys s.wallet.borrowed := by
      rw [List.map_map]
      exact List.map_congr_left h.staged.keyed
    rw [hkeys]
    exact h.staged.distinct
  · intro b hb d hd
    obtain ⟨e, he, rfl⟩ := List.mem_map.mp hb
    rw [h.staged.keyed e he] at hd
    exact value_unique h.staged.distinct hd he

/-- **One step keeps stages and nonces in order.** -/
theorem step (h : Orderly s) {e : Crew.Event} (hstep : s.step e = some s') : Orderly s' := by
  cases e with
  | add id request now =>
    simp only [Crew.step] at hstep
    cases hadd : s.wallet.addTransaction id request now with
    | error e =>
      rw [hadd] at hstep
      exact Option.some.inj hstep ▸ h
    | ok r =>
      rw [hadd] at hstep
      exact Option.some.inj hstep ▸ h.add hadd
  | expireRecord id =>
    simp only [Crew.step] at hstep
    split_ifs at hstep with hexp
    obtain rfl := Option.some.inj hstep
    exact h.changed (h.staged.expire hexp) (h.allotted.shrink (fun _ _ hid => hid) le_rfl
      (fun _ hn => hn) h.allotted.bounded h.allotted.counted) (fun _ he => he) rfl rfl rfl
      fun _ ht => ht
  | acquire t =>
    simp only [Crew.step] at hstep
    cases hm : s.memory t with
    | some m => simp [hm] at hstep
    | none =>
      rw [hm] at hstep
      obtain rfl := Option.some.inj hstep
      refine ⟨h.staged.congr rfl rfl rfl rfl, h.allotted.shrink (fun _ _ hid => hid) le_rfl
        (fun _ hn => hn) h.allotted.bounded h.allotted.counted, fun t' m' hlock hm' => ?_⟩
      obtain rfl : t = t' := Option.some.inj hlock
      have hm' : Function.update s.memory t (some {}) t = some m' := hm'
      rw [Function.update_self] at hm'
      exact Option.some.inj hm' ▸ Informed.only (m := {}) (by rintro seen ⟨⟩)
  | readBorrowed t =>
    simp only [Crew.step] at hstep
    obtain ⟨m, hm, rfl⟩ := Option.map_eq_some_iff.mp hstep
    exact h.readBorrowed fun hlock => h.informed t m hlock hm
  | readCached t =>
    simp only [Crew.step] at hstep
    obtain ⟨m, hm, rfl⟩ := Option.map_eq_some_iff.mp hstep
    refine h.remember fun hlock => ?_
    have hi := h.informed t m hlock hm
    exact ⟨hi.ids, hi.borrowed, hi.recycled, hi.row, by rintro seen ⟨⟩; rfl⟩
  | inspect t row nonce =>
    simp only [Crew.step] at hstep
    split_ifs at hstep with hrow
    obtain ⟨m, hm, rfl⟩ := Option.map_eq_some_iff.mp hstep
    refine h.remember fun hlock => ?_
    have hi := h.informed t m hlock hm
    exact ⟨hi.ids, hi.borrowed, hi.recycled, by rintro id n ⟨⟩; exact ⟨row, hrow.1, rfl⟩, hi.cached⟩
  | operate t op =>
    obtain ⟨m, w', hm, hlock, hforms, hop, rfl⟩ := Crew.step_operate hstep
    have hi := h.informed t m hlock hm
    have hfit := hi.fits hforms
    have hal := h.allotted.apply hop hfit
    refine .committed (h.staged.apply hop ?_) hal hlock (Wallet.apply_tame hop).lock
      (hi.after hop hal)
    rintro results rfl
    exact hfit.1
  | bump t hash queuedAt submittedAt =>
    obtain ⟨m, id, nonce, hm, hlock, hrow, rfl⟩ := Crew.step_bump hstep
    have hi := h.informed t m hlock hm
    have hat := hi.row id nonce hrow
    exact .committed (h.staged.addGasBump fun _ => hat) (h.allotted.addGasBump (.inl hat)) hlock rfl
      (.only hi.cached)
  | dropMissing t id =>
    simp only [Crew.step] at hstep
    obtain ⟨m, hm, rfl⟩ := Option.map_eq_some_iff.mp hstep
    exact h.changed (h.staged.drop id) (h.allotted.drop id) (fun e he => (mem_hdel.mp he).1) rfl rfl
      rfl fun _ ht => ht
  | release t =>
    simp only [Crew.step] at hstep
    obtain ⟨m, hm, rfl⟩ := Option.map_eq_some_iff.mp hstep
    refine h.changed (h.staged.congr rfl rfl rfl rfl) (h.allotted.shrink (fun _ _ hid => hid) le_rfl
      (fun _ hn => hn) h.allotted.bounded h.allotted.counted) (fun _ he => he) rfl rfl rfl
      fun t' ht' => ?_
    have ht' : (if s.wallet.lock = some t then none else s.wallet.lock) = some t' := ht'
    split_ifs at ht'
    exact ht'

/-- **Every run keeps stages and nonces in order.** -/
theorem after (h : Orderly s) {es : List Crew.Event} (hrun : s.after es = some s') : Orderly s' := by
  induction es generalizing s with
  | nil => exact Option.some.inj hrun ▸ h
  | cons e es ih =>
    obtain ⟨s₁, hstep, hrest⟩ := Option.bind_eq_some_iff.mp hrun
    exact ih (h.step hstep) hrest

theorem start (hst : w.Staged) (hal : w.Allotted) : Orderly { wallet := w } :=
  ⟨hst, hal, by rintro t m _ ⟨⟩⟩

end Orderly

/-- **One stage for each transaction.** In every run from the empty store a transaction is pending,
borrowed or submitted, and in one of these only; its rows are at one nonce; its record is there as
long as it is held; and an admission of an id whose record is there does not make it pending. -/
theorem one_stage {es : List Crew.Event} {s : Crew} (hrun : ({} : Crew).after es = some s)
    {id : String} (hid : id ≠ noOpTransactionId) :
    (id ∈ keys s.wallet.pending → id ∉ keys s.wallet.borrowed ∧ ∀ n, ¬s.wallet.SubmittedAt id n) ∧
    (id ∈ keys s.wallet.borrowed → ∀ n, ¬s.wallet.SubmittedAt id n) ∧
    (∀ n n', s.wallet.SubmittedAt id n → s.wallet.SubmittedAt id n' → n = n') ∧
    (id ∈ keys s.wallet.pending ∨ id ∈ keys s.wallet.borrowed ∨ (∃ n, s.wallet.SubmittedAt id n) →
      (s.wallet.records id).isSome) ∧
    ∀ request now s', s.step (.add id request now) = some s' → (s.wallet.records id).isSome →
      id ∈ keys s'.wallet.pending → id ∈ keys s.wallet.pending := by
  have h := (Orderly.start .empty .empty).after hrun
  refine ⟨fun hp => ⟨(h.staged.pending id hp).1, (h.staged.pending id hp).2 hid⟩,
    fun hb => h.staged.borrowed id hb hid, h.staged.nonce id hid, fun hheld => ?_, ?_⟩
  · have hret : s.wallet.Retains id := by
      rcases hheld with hp | hb | ⟨n, hat⟩
      · exact h.staged.retainsPending id hp
      · exact h.staged.retainsBorrowed id hb
      · exact h.staged.retainsSubmitted id hid n hat
    obtain ⟨record, hr, _⟩ := hret
    exact Option.isSome_of_eq_some hr
  · intro request now s' hadd hsome hp
    obtain ⟨record, hr⟩ := Option.isSome_iff_exists.mp hsome
    have hsame : s'.wallet = s.wallet := by
      simp only [Crew.step, Wallet.addTransaction, hr] at hadd
      split_ifs at hadd <;> obtain rfl := Option.some.inj hadd <;> rfl
    rwa [hsame] at hp

/-- All that one step does to the wallet: pending transactions, records and the lock apart, an
operation that fits, or one more row for a submitted transaction. -/
inductive Turn (w : Wallet) (e : Crew.Event) : Wallet → Prop
  | aside {w' : Wallet} (hborrowed : ∀ e ∈ w'.borrowed, e ∈ w.borrowed)
      (hsubmitted : w'.submitted = w.submitted) (hrecycled : w'.recycled = w.recycled)
      (hoptimistic : w'.optimistic = w.optimistic) (hcached : w'.cached = w.cached) : Turn w e w'
  | operate {w' : Wallet} (t : LeaseToken) (op : Operation) (he : e = .operate t op)
      (hop : w.apply op = .ok w') (hfit : op.Fits w) : Turn w e w'
  | bump (t : LeaseToken) (s : Submitted)
      (he : e = .bump t s.transactionHash s.queuedAt s.submittedAt)
      (hat : w.SubmittedAt s.transactionId s.nonce) : Turn w e (w.addGasBump s)

theorem Orderly.turn {s s' : Crew} (h : Orderly s) {e : Crew.Event} (hstep : s.step e = some s') :
    Turn s.wallet e s'.wallet := by
  have hsame : s'.wallet = s.wallet → Turn s.wallet e s'.wallet := by
    intro heq
    rw [heq]
    exact .aside (fun _ he => he) rfl rfl rfl rfl
  cases e with
  | add id request now =>
    simp only [Crew.step, Wallet.addTransaction] at hstep
    split at hstep
    · rename_i hadd
      split at hadd
      · split_ifs at hadd
        obtain ⟨rfl, _⟩ := Prod.mk.inj (Except.ok.inj hadd)
        exact hsame (congrArg Crew.wallet (Option.some.inj hstep).symm)
      · split_ifs at hadd
        obtain ⟨rfl, _⟩ := Prod.mk.inj (Except.ok.inj hadd)
        obtain rfl := Option.some.inj hstep
        exact .aside (fun _ he => he) rfl rfl rfl rfl
    · exact hsame (congrArg Crew.wallet (Option.some.inj hstep).symm)
  | expireRecord id =>
    simp only [Crew.step] at hstep
    split_ifs at hstep
    obtain rfl := Option.some.inj hstep
    exact .aside (fun _ he => he) rfl rfl rfl rfl
  | acquire t =>
    simp only [Crew.step] at hstep
    split at hstep
    · obtain rfl := Option.some.inj hstep
      exact .aside (fun _ he => he) rfl rfl rfl rfl
    · cases hstep
  | readBorrowed t | readCached t =>
    obtain ⟨m, _, rfl⟩ := Option.map_eq_some_iff.mp hstep
    exact hsame rfl
  | inspect t row nonce =>
    simp only [Crew.step] at hstep
    split_ifs at hstep
    obtain ⟨m, _, rfl⟩ := Option.map_eq_some_iff.mp hstep
    exact hsame rfl
  | operate t op =>
    obtain ⟨m, w', hm, hlock, hforms, hop, rfl⟩ := Crew.step_operate hstep
    exact .operate t op rfl hop ((h.informed t m hlock hm).fits hforms)
  | bump t hash queuedAt submittedAt =>
    obtain ⟨m, id, nonce, hm, hlock, hrow, rfl⟩ := Crew.step_bump hstep
    exact .bump t _ rfl ((h.informed t m hlock hm).row id nonce hrow)
  | dropMissing t id =>
    obtain ⟨m, _, rfl⟩ := Option.map_eq_some_iff.mp hstep
    exact .aside (fun e he => (mem_hdel.mp he).1) rfl rfl rfl rfl
  | release t =>
    obtain ⟨m, _, rfl⟩ := Option.map_eq_some_iff.mp hstep
    exact .aside (fun _ he => he) rfl rfl rfl rfl

theorem Orderly.stays {s s' : Crew} (h : Orderly s) {e : Crew.Event} (hstep : s.step e = some s')
    {id : String} {b b' : BorrowedTransactionData} (hb : (id, b) ∈ s.wallet.borrowed)
    (hb' : (id, b') ∈ s'.wallet.borrowed) : b' = b := by
  have hturn := h.turn hstep
  generalize s'.wallet = w' at hb' hturn
  cases hturn with
  | aside hborrowed => exact value_unique h.staged.distinct (hborrowed _ hb') hb
  | operate t op he hop => exact h.staged.stays hop hb hb'
  | bump => exact value_unique h.staged.distinct hb' hb

/-- **One intent for each held nonce.** In every run from a wallet in order: a nonce that is
borrowed or submitted has one intent, a transaction or the noop; the optimistic count is above every
held nonce; a recycled nonce is free and below the count; a move gives away free nonces only, and a
noop takes a free one or its own; and as long as a transaction stays borrowed, its nonce and its
signed bytes do not change. -/
theorem one_intent (hst : w.Staged) (hal : w.Allotted) {es : List Crew.Event} {s : Crew}
    (hrun : ({ wallet := w } : Crew).after es = some s) :
    (∀ n id id', s.wallet.HeldBy n id → s.wallet.HeldBy n id' → id = id') ∧
    (∀ n id, s.wallet.HeldBy n id → ∃ o, s.wallet.optimistic = some o ∧ n < o) ∧
    (∀ n ∈ s.wallet.recycled, (∀ id, ¬s.wallet.HeldBy n id) ∧
      ∃ o, s.wallet.optimistic = some o ∧ n < o) ∧
    ∀ e s', s.step e = some s' →
      (∀ t op, e = .operate t op → ∀ n ∈ op.allocates, ∀ id, ¬s.wallet.HeldBy n id) ∧
      (∀ t noops, e = .operate t (.processNoop noops) → ∀ n ∈ noops, ∀ id,
        s.wallet.HeldBy n.nonce id → id = noOpTransactionId) ∧
      ∀ id b b', (id, b) ∈ s.wallet.borrowed → (id, b') ∈ s'.wallet.borrowed →
        b'.signed = b.signed := by
  have h := (Orderly.start hst hal).after hrun
  refine ⟨h.allotted.single, fun n id hid => Wallet.lt_next.mp (h.allotted.above n id hid),
    fun n hn => ?_, fun e s' hstep => ⟨?_, ?_, fun id b b' hb hb' => ?_⟩⟩
  · obtain ⟨hlt, hfree⟩ := h.allotted.recycled n hn
    exact ⟨hfree, Wallet.lt_next.mp hlt⟩
  · rintro t op rfl n hn id
    obtain ⟨_, w', _, _, _, hop, _⟩ := Crew.step_operate hstep
    exact h.allotted.allocates_free hop hn
  · rintro t noops rfl n hn
    obtain ⟨m, _, hm, hlock, hforms, _, _⟩ := Crew.step_operate hstep
    exact fun id hid => absurd hid ((((h.informed t m hlock hm).fits hforms).2 n hn).2 id)
  · rw [h.stays hstep hb hb']

namespace Crew.Sample

def worker (n : ℕ) : LeaseToken := ⟨n, "eoa", n, "p"⟩

def borrowed : BorrowedTransactionData := ⟨"x", ⟨5, "0xa"⟩, 1, 2⟩

def sent : SubmissionResult := ⟨⟨5, "0xa", "x", 3, 1⟩, .success⟩

/-- A worker moves a transaction to nonce 5; another one takes the lock, finds it borrowed, and
submits it. -/
def run : List Event :=
  [.acquire (worker 1), .readCached (worker 1), .operate (worker 1) (.updateCached 5),
    .add "x" "request" 1, .operate (worker 1) (.moveIncremented [borrowed]), .acquire (worker 2),
    .readBorrowed (worker 2), .operate (worker 2) (.processBorrowed [sent])]

set_option maxRecDepth 4000 in
theorem run_ends : (({} : Crew).after run).map (fun s => (s.wallet.submitted, s.wallet.optimistic))
    = some ([(.real "0xa" "x" 1 3, 5)], some 6) := by decide +kernel

end Crew.Sample

theorem one_stage_run : ∃ s, ({} : Crew).after Crew.Sample.run = some s ∧
    s.wallet.SubmittedAt "x" 5 ∧ "x" ∉ keys s.wallet.borrowed := by
  obtain ⟨s, hrun, hend⟩ := Option.map_eq_some_iff.mp Crew.Sample.run_ends
  have hat : s.wallet.SubmittedAt "x" 5 := by
    refine ⟨.real "0xa" "x" 1 3, ?_, rfl⟩
    rw [(Prod.mk.inj hend).1]
    exact List.mem_cons_self
  have hone := one_stage hrun (show "x" ≠ noOpTransactionId by decide)
  exact ⟨s, hrun, hat, fun hb => hone.2.1 hb 5 hat⟩

theorem one_intent_run : ∃ s, ({ wallet := {} } : Crew).after Crew.Sample.run = some s ∧
    s.wallet.HeldBy 5 "x" ∧ ∀ id, s.wallet.HeldBy 5 id → id = "x" := by
  obtain ⟨s, hrun, hend⟩ := Option.map_eq_some_iff.mp Crew.Sample.run_ends
  have hheld : s.wallet.HeldBy 5 "x" := by
    refine .inl ⟨.real "0xa" "x" 1 3, ?_, rfl⟩
    rw [(Prod.mk.inj hend).1]
    exact List.mem_cons_self
  have hone := one_intent .empty .empty hrun
  exact ⟨s, hrun, hheld, fun id hid => hone.1 5 id "x" hid hheld⟩

end EngineCore.Eoa
