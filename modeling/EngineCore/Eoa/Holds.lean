import EngineCore.Eoa.Store
import EngineCore.Lib.Result

/-!
# What a wallet holds

* **`Wallet.apply_tame`**: every operation of the atomic store is tame;
* `Wallet.addGasBump_holds`: a gas bump adds its own transaction at most.
-/

namespace EngineCore.Eoa

open Redis Twmq
open Except (bind_ok pure_ok)

/-- The transaction is pending, borrowed or submitted. -/
def Wallet.Holds (w : Wallet) (id : String) : Prop :=
  id ∈ keys w.pending ∨ id ∈ keys w.borrowed ∨ some id ∈ (keys w.submitted).map Row.owner

instance (w : Wallet) (id : String) : Decidable (w.Holds id) := by
  unfold Wallet.Holds
  infer_instance

/-- `w'` holds no transaction beyond those of `w`, under the same lock and admissions. -/
structure Wallet.Tame (w w' : Wallet) : Prop where
  holds : ∀ id, w'.Holds id → w.Holds id
  born : w'.born = w.born
  lock : w'.lock = w.lock

namespace Wallet

variable {w w' : Wallet}

theorem validatePending_ok {ids : List String} (h : w.validatePending ids = .ok ()) :
    ∀ id ∈ ids, id ∈ keys w.pending := by
  induction ids with
  | nil => simp
  | cons id ids ih =>
    unfold validatePending at h
    split_ifs at h with hid
    intro i hi
    rcases List.mem_cons.1 hi with rfl | hi
    · exact hid
    · exact ih h i hi

theorem borrowAll_tame (txs : List BorrowedTransactionData) :
    (∀ id, (txs.foldl borrow w).Holds id → w.Holds id ∨ id ∈ txs.map (·.transactionId)) ∧
      (txs.foldl borrow w).born = w.born ∧ (txs.foldl borrow w).lock = w.lock := by
  induction txs generalizing w with
  | nil => exact ⟨fun _ h => Or.inl h, rfl, rfl⟩
  | cons tx txs ih =>
    obtain ⟨hh, hb, hl⟩ := ih (w := w.borrow tx)
    refine ⟨fun id h => ?_, hb, hl⟩
    rw [List.map_cons, List.mem_cons]
    rcases hh id h with h | h
    · rcases h with h | h | h
      · exact Or.inl (Or.inl (mem_keys_hdel.1 h).1)
      · rcases mem_keys_hset.1 h with rfl | h
        · exact Or.inr (Or.inl rfl)
        · exact Or.inl (Or.inr (Or.inl h))
      · exact Or.inl (Or.inr (Or.inr h))
    · exact Or.inr (Or.inr h)

theorem Tame.congr {w₁ : Wallet} (h : w.Tame w₁) (hp : w'.pending = w₁.pending)
    (hb : w'.borrowed = w₁.borrowed) (hs : w'.submitted = w₁.submitted) (hn : w'.born = w₁.born)
    (hl : w'.lock = w₁.lock) : w.Tame w' := by
  refine ⟨fun id hid => h.holds id ?_, hn.trans h.born, hl.trans h.lock⟩
  unfold Holds at hid ⊢
  rwa [hp, hb, hs] at hid

theorem Tame.refl (w : Wallet) : w.Tame w := ⟨fun _ h => h, rfl, rfl⟩

variable {txs : List BorrowedTransactionData}

theorem Tame.borrowAll
    (hp : w.validatePending (txs.map (·.transactionId)) = .ok ()) :
    w.Tame (txs.foldl borrow w) := by
  obtain ⟨hh, hb, hl⟩ := borrowAll_tame (w := w) txs
  refine ⟨fun id h => ?_, hb, hl⟩
  rcases hh id h with h | h
  · exact h
  · exact Or.inl (validatePending_ok hp id h)

theorem moveIncremented_tame
    (h : w.moveIncremented txs = .ok w') : w.Tame w' := by
  unfold moveIncremented at h
  simp only [bind_ok, pure_ok] at h
  obtain ⟨_, -, _, -, _, -, _, -, _, -, _, hp, rfl⟩ := h
  exact (Tame.borrowAll hp).congr rfl rfl rfl rfl rfl

theorem moveRecycled_tame
    (h : w.moveRecycled txs = .ok w') : w.Tame w' := by
  unfold moveRecycled at h
  simp only [bind_ok, pure_ok] at h
  obtain ⟨_, -, _, -, _, -, _, hp, rfl⟩ := h
  exact (Tame.borrowAll hp).congr rfl rfl rfl rfl rfl

theorem processAll_tame (rs : List SubmissionResult) :
    (∀ id, (rs.foldl processResult w).Holds id →
      w.Holds id ∨ id ∈ rs.map (·.transaction.transactionId)) ∧
      (rs.foldl processResult w).born = w.born ∧ (rs.foldl processResult w).lock = w.lock := by
  induction rs generalizing w with
  | nil => exact ⟨fun _ h => Or.inl h, rfl, rfl⟩
  | cons r rs ih =>
    obtain ⟨hh, hb, hl⟩ := ih (w := w.processResult r)
    have hr : (∀ id, (w.processResult r).Holds id →
        w.Holds id ∨ id = r.transaction.transactionId) ∧
        (w.processResult r).born = w.born ∧ (w.processResult r).lock = w.lock := by
      unfold processResult
      split_ifs
      · exact ⟨fun _ h => Or.inl h, rfl, rfl⟩
      · refine ⟨fun id h => ?_, rfl, rfl⟩
        rcases h with h | h | h
        · exact Or.inl (Or.inl h)
        · exact Or.inl (Or.inr (Or.inl (mem_keys_hdel.1 h).1))
        · obtain ⟨row, hrow, ho⟩ := List.mem_map.1 h
          rcases mem_keys_hset.1 hrow with rfl | hrow
          · exact Or.inr (Option.some.inj ho).symm
          · exact Or.inl (Or.inr (Or.inr (List.mem_map.2 ⟨row, hrow, ho⟩)))
    refine ⟨fun id h => ?_, hb.trans hr.2.1, hl.trans hr.2.2⟩
    rw [List.map_cons, List.mem_cons]
    rcases hh id h with h | h
    · rcases hr.1 id h with h | h
      · exact Or.inl h
      · exact Or.inr (Or.inl h)
    · exact Or.inr (Or.inr h)

theorem processBorrowed_tame (results : List SubmissionResult) :
    w.Tame (w.processBorrowed results) := by
  obtain ⟨hh, hb, hl⟩ := processAll_tame (w := w)
    (results.filter fun r => r.transaction.transactionId ∈ keys w.borrowed)
  refine ⟨fun id h => ?_, hb, hl⟩
  rcases hh id h with h | h
  · exact h
  · obtain ⟨r, hr, rfl⟩ := List.mem_map.1 h
    exact Or.inr (Or.inl (by simpa using (List.mem_filter.1 hr).2))

/-- Rows are only removed, and what goes back to pending was submitted. -/
structure Cleans (w : Wallet) (a : Cleanup) : Prop where
  pending : a.wallet.pending = w.pending
  borrowed : a.wallet.borrowed = w.borrowed
  submitted : ∀ row ∈ keys a.wallet.submitted, row ∈ keys w.submitted
  born : a.wallet.born = w.born
  lock : a.wallet.lock = w.lock
  replaced : ∀ e ∈ a.replaced, some e.1 ∈ (keys w.submitted).map Row.owner

theorem owner_eq {row : Row} (h : row.transactionId ≠ noOpTransactionId) :
    row.owner = some row.transactionId := by
  cases row with
  | real => rfl
  | noop => exact absurd rfl h

theorem Cleans.outcome {a : Cleanup} (h : w.Cleans a) (e : Evidence) {row : Row} (nonce : ℕ)
    (hrow : row ∈ keys w.submitted) : w.Cleans (a.outcome e row nonce) := by
  unfold Cleanup.outcome
  dsimp only
  by_cases hid : row.transactionId = noOpTransactionId
  · rw [if_pos hid]
    exact h
  rw [if_neg hid]
  cases e.ofId row.transactionId with
  | some c => exact { h with }
  | none =>
    by_cases hr : e.Replaces nonce
    · simp only [if_pos hr]
      refine ⟨h.pending, h.borrowed, h.submitted, h.born, h.lock, fun x hx => ?_⟩
      rcases List.mem_append.1 hx with hx | hx
      · exact h.replaced x hx
      · rw [List.mem_singleton.1 hx]
        exact List.mem_map.2 ⟨row, hrow, owner_eq hid⟩
    · simp only [if_neg hr]
      exact h

theorem Cleans.row {a : Cleanup} (h : w.Cleans a) (e : Evidence) {entry : Row × ℕ}
    (hrow : entry.1 ∈ keys w.submitted) : w.Cleans (Cleanup.row e a entry) := by
  have ho := h.outcome e entry.2 hrow
  unfold Cleanup.row
  split_ifs
  · exact ⟨h.pending, h.borrowed, fun r hr => h.submitted r (mem_keys_hdel.1 hr).1, h.born, h.lock,
      h.replaced⟩
  · exact { h with }
  · exact ⟨ho.pending, ho.borrowed, fun r hr => ho.submitted r (mem_keys_hdel.1 hr).1, ho.born,
      ho.lock, ho.replaced⟩
  · exact { ho with }
  · exact h

theorem Cleans.rows (e : Evidence) (rows : List (Row × ℕ)) {a : Cleanup} (h : w.Cleans a)
    (hrows : ∀ entry ∈ rows, entry.1 ∈ keys w.submitted) :
    w.Cleans (rows.foldl (Cleanup.row e) a) := by
  induction rows generalizing a with
  | nil => exact h
  | cons entry rows ih =>
    refine ih (h.row e (hrows entry (List.mem_cons_self ..))) fun x hx => ?_
    exact hrows x (List.mem_cons_of_mem _ hx)

theorem mem_keys_zaddAll (es : List (String × ℕ)) (z : List (String × ℕ)) {id : String}
    (h : id ∈ keys (es.foldl (fun z e => zadd z e.1 e.2) z)) : id ∈ keys z ∨ id ∈ keys es := by
  induction es generalizing z with
  | nil => exact Or.inl h
  | cons e es ih =>
    rw [keys_cons, List.mem_cons]
    rcases ih _ h with h | h
    · rcases mem_keys_zadd.1 h with h | h
      · exact Or.inr (Or.inl h)
      · exact Or.inl h
    · exact Or.inr (Or.inr h)

theorem cleanSubmitted_tame {confirmed : List ConfirmedTransaction} {counts : TransactionCounts}
    (h : w.cleanSubmitted confirmed counts = .ok w') : w.Tame w' := by
  unfold cleanSubmitted at h
  simp only [bind_ok, pure_ok] at h
  obtain ⟨_, -, _, -, _, -, rfl⟩ := h
  have hrows : ∀ entry ∈ readable (w.receiptRows confirmed counts), entry.1 ∈ keys w.submitted := by
    intro entry he
    have he := (List.mem_filter.1 he).1
    unfold receiptRows at he
    rw [List.mem_insertionSort, List.mem_filter] at he
    exact List.mem_map.2 ⟨entry, he.1, rfl⟩
  have hc := Cleans.rows (w := w)
    (Evidence.ofRows counts confirmed (readable (w.receiptRows confirmed counts))) _
    (a := { wallet := w }) ⟨rfl, rfl, fun _ hr => hr, rfl, rfl, by simp⟩ hrows
  refine ⟨fun id hid => ?_, hc.born, hc.lock⟩
  rcases hid with hid | hid | hid
  · rcases mem_keys_zaddAll _ _ hid with hid | hid
    · rw [hc.pending] at hid
      exact Or.inl hid
    · obtain ⟨e, he, rfl⟩ := List.mem_map.1 hid
      exact Or.inr (Or.inr (hc.replaced e he))
  · exact Or.inr (Or.inl (hc.borrowed ▸ hid))
  · obtain ⟨row, hrow, ho⟩ := List.mem_map.1 hid
    exact Or.inr (Or.inr (List.mem_map.2 ⟨row, hc.submitted row hrow, ho⟩))

theorem resetNonces_tame {count : ℕ} (h : w.resetNonces count = .ok w') : w.Tame w' := by
  unfold resetNonces at h
  split_ifs at h
  obtain rfl := Except.ok.inj h
  exact (Tame.refl w).congr rfl rfl rfl rfl rfl

theorem cleanRecycled_tame (h : w.cleanRecycled = .ok w') : w.Tame w' := by
  unfold cleanRecycled at h
  cases hc : w.cached with
  | none => simp [hc] at h
  | some count =>
    simp only [hc, Except.ok.injEq] at h
    obtain rfl := h
    exact (Tame.refl w).congr rfl rfl rfl rfl rfl

theorem processNoop_tame (noops : List Signed) : w.Tame (w.processNoop noops) := by
  have key : ∀ (ns : List Signed) (z : List (Row × ℕ)) (id : String),
      some id ∈ (keys (ns.foldl (fun z n => hset z (Row.noop n.hash) n.nonce) z)).map Row.owner →
      some id ∈ (keys z).map Row.owner := by
    intro ns
    induction ns with
    | nil => exact fun _ _ h => h
    | cons n ns ih =>
      intro z id h
      obtain ⟨row, hrow, ho⟩ := List.mem_map.1 (ih _ id h)
      rcases mem_keys_hset.1 hrow with rfl | hrow
      · cases ho
      · exact List.mem_map.2 ⟨row, hrow, ho⟩
  refine ⟨fun id hid => ?_, rfl, rfl⟩
  rcases hid with hid | hid | hid
  · exact Or.inl hid
  · exact Or.inr (Or.inl hid)
  · exact Or.inr (Or.inr (key _ _ id hid))

theorem setRecords_tame (ids : List String) (f : Record → Record) :
    w.Tame (ids.foldl (fun w id => w.setRecord id f) w) := by
  induction ids generalizing w with
  | nil => exact Tame.refl w
  | cons id ids ih =>
    have h := ih (w := w.setRecord id f)
    exact ⟨fun i hi => h.holds i hi, h.born, h.lock⟩

theorem failPending_tame {ids : List String} (h : w.failPending ids = .ok w') : w.Tame w' := by
  unfold failPending at h
  simp only [bind_ok, pure_ok] at h
  obtain ⟨_, -, rfl⟩ := h
  have hs := setRecords_tame (w := w) ids fun record =>
    { record with status := some .failed, expiring := true }
  refine ⟨fun id hid => ?_, hs.born, hs.lock⟩
  rcases hid with hid | hid | hid
  · exact Or.inl (mem_keys_hdelAll.1 hid).1
  · exact hs.holds id (Or.inr (Or.inl hid))
  · exact hs.holds id (Or.inr (Or.inr hid))

/-- **No operation of the atomic store adds a transaction to the wallet.** -/
theorem apply_tame {op : Operation} (h : w.apply op = .ok w') : w.Tame w' := by
  cases op with
  | moveIncremented txs => exact moveIncremented_tame h
  | moveRecycled txs => exact moveRecycled_tame h
  | processBorrowed results =>
    obtain rfl := Except.ok.inj h
    exact processBorrowed_tame results
  | cleanSubmitted confirmed counts => exact cleanSubmitted_tame h
  | resetNonces count => exact resetNonces_tame h
  | cleanRecycled => exact cleanRecycled_tame h
  | updateCached count =>
    obtain rfl := Except.ok.inj h
    exact (Tame.refl w).congr rfl rfl rfl rfl rfl
  | processNoop noops =>
    obtain rfl := Except.ok.inj h
    exact processNoop_tame noops
  | failPending ids => exact failPending_tame h

theorem addGasBump_holds {s : Submitted} {id : String} (h : (w.addGasBump s).Holds id) :
    w.Holds id ∨ id = s.transactionId := by
  rcases h with h | h | h
  · exact Or.inl (Or.inl h)
  · exact Or.inl (Or.inr (Or.inl h))
  · obtain ⟨row, hrow, ho⟩ := List.mem_map.1 h
    rcases mem_keys_hset.1 hrow with rfl | hrow
    · exact Or.inr (Option.some.inj ho).symm
    · exact Or.inl (Or.inr (Or.inr (List.mem_map.2 ⟨row, hrow, ho⟩)))

end Wallet

end EngineCore.Eoa
