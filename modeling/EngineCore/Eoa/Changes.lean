import EngineCore.Eoa.Holds
import Mathlib.Data.List.Induction

/-!
# What the operations of a wallet change

One lemma for each operation of the atomic store, in terms of membership: who is pending, which data
is borrowed, which rows are submitted, and what happens to records and nonces. Later invariants are
derived from these and never open an operation again.

* `Wallet.Cleared`: the cleanup of settled rows; **`cleanSubmitted_ok`**;
* `failPending_ok`, `cleanRecycled_ok`, `processNoop_submitted`: the rest.
-/

namespace EngineCore.Eoa

open Redis Twmq
open Except (bind_ok pure_ok)

namespace Wallet

variable {w w' : Wallet}

/-- A row of the transaction is submitted at the nonce. -/
def SubmittedAt (w : Wallet) (id : String) (nonce : ℕ) : Prop :=
  ∃ row, (row, nonce) ∈ w.submitted ∧ row.transactionId = id

/-! ## Moves to borrowed -/

/-- The transactions have left the pending set for the borrowed map. -/
structure Moved (w : Wallet) (txs : List BorrowedTransactionData) (w' : Wallet) : Prop where
  ids : (txs.map (·.transactionId)).Nodup
  nonces : (txs.map (·.signed.nonce)).Nodup
  were : ∀ id ∈ txs.map (·.transactionId), id ∈ keys w.pending
  pending : ∀ id, id ∈ keys w'.pending ↔ id ∈ keys w.pending ∧ id ∉ txs.map (·.transactionId)
  borrowed : ∀ e, e ∈ w'.borrowed ↔
    (∃ tx ∈ txs, e = (tx.transactionId, tx)) ∨ e ∈ w.borrowed ∧ e.1 ∉ txs.map (·.transactionId)
  keyed : (keys w.borrowed).Nodup → (keys w'.borrowed).Nodup
  submitted : w'.submitted = w.submitted
  records : w'.records = w.records
  cached : w'.cached = w.cached
  lock : w'.lock = w.lock

theorem demand_ok {c : Prop} [Decidable c] {e : StoreError} : demand c e = .ok () ↔ c := by
  unfold demand
  split_ifs with hc <;> simp [hc]

variable {txs : List BorrowedTransactionData}

theorem validateUniqueAllocations_ok
    (h : validateUniqueAllocations txs = .ok ()) :
    (txs.map (·.signed.nonce)).Nodup ∧ (txs.map (·.transactionId)).Nodup :=
  demand_ok.mp h

theorem validateRecycled_ok {nonces : List ℕ} (h : w.validateRecycled nonces = .ok ()) :
    ∀ n ∈ nonces, n ∈ w.recycled := by
  induction nonces with
  | nil => simp
  | cons n nonces ih =>
    unfold validateRecycled at h
    split_ifs at h with hn
    intro m hm
    rcases List.mem_cons.mp hm with rfl | hm
    · exact hn
    · exact ih h m hm

theorem validateSequential_ok {start i : ℕ} {nonces : List ℕ}
    (h : validateSequential start i nonces = .ok ()) :
    nonces = List.range' (start + i) nonces.length ∧ ∀ n ∈ nonces, n < 2 ^ 64 := by
  induction nonces generalizing i with
  | nil => simp
  | cons n nonces ih =>
    unfold validateSequential at h
    split_ifs at h with hbig hn
    have hn : n = start + i := not_not.mp hn
    obtain ⟨heq, hlt⟩ := ih h
    refine ⟨?_, fun m hm => ?_⟩
    · rw [List.length_cons, List.range'_succ, ← hn, hn, Nat.add_assoc, ← heq]
    · rcases List.mem_cons.mp hm with rfl | hm
      · omega
      · exact hlt m hm

theorem borrowAll_spec (txs : List BorrowedTransactionData)
    (hids : (txs.map (·.transactionId)).Nodup) :
    (∀ id, id ∈ keys (txs.foldl borrow w).pending ↔
      id ∈ keys w.pending ∧ id ∉ txs.map (·.transactionId)) ∧
    (∀ e, e ∈ (txs.foldl borrow w).borrowed ↔
      (∃ tx ∈ txs, e = (tx.transactionId, tx)) ∨
        e ∈ w.borrowed ∧ e.1 ∉ txs.map (·.transactionId)) ∧
    ((keys w.borrowed).Nodup → (keys (txs.foldl borrow w).borrowed).Nodup) := by
  induction txs generalizing w with
  | nil => simp
  | cons tx txs ih =>
    rw [List.map_cons, List.nodup_cons] at hids
    obtain ⟨hp, hb, hk⟩ := ih (w := w.borrow tx) hids.2
    refine ⟨fun id => ?_, fun e => ?_, fun hn => ?_⟩
    · rw [List.foldl_cons, hp, List.map_cons, List.mem_cons]
      show id ∈ keys (hdel w.pending tx.transactionId) ∧ _ ↔ _
      rw [mem_keys_hdel]
      tauto
    · rw [List.foldl_cons, hb, List.map_cons, List.mem_cons]
      show _ ∨ e ∈ hset w.borrowed tx.transactionId tx ∧ _ ↔ _
      rw [mem_hset]
      constructor
      · rintro (⟨x, hx, rfl⟩ | ⟨rfl | ⟨he, hne⟩, hnot⟩)
        · exact .inl ⟨x, List.mem_cons_of_mem _ hx, rfl⟩
        · exact .inl ⟨tx, List.mem_cons_self, rfl⟩
        · exact .inr ⟨he, not_or.mpr ⟨hne, hnot⟩⟩
      · rintro (⟨x, hx, rfl⟩ | ⟨he, hnot⟩)
        · rcases List.mem_cons.mp hx with rfl | hx
          · exact .inr ⟨.inl rfl, hids.1⟩
          · exact .inl ⟨x, hx, rfl⟩
        · exact .inr ⟨.inr ⟨he, (not_or.mp hnot).1⟩, (not_or.mp hnot).2⟩
    · exact hk (nodup_keys_hset hn _ _)

theorem borrowAll_rest (txs : List BorrowedTransactionData) :
    (txs.foldl borrow w).submitted = w.submitted ∧ (txs.foldl borrow w).records = w.records ∧
      (txs.foldl borrow w).recycled = w.recycled ∧ (txs.foldl borrow w).cached = w.cached ∧
      (txs.foldl borrow w).optimistic = w.optimistic ∧ (txs.foldl borrow w).lock = w.lock := by
  induction txs generalizing w with
  | nil => exact ⟨rfl, rfl, rfl, rfl, rfl, rfl⟩
  | cons tx txs ih => exact ih (w := w.borrow tx)

theorem Moved.borrowAll {o : Option ℕ} {recycled : List ℕ}
    (hunique : validateUniqueAllocations txs = .ok ())
    (hpending : w.validatePending (txs.map (·.transactionId)) = .ok ()) :
    w.Moved txs { txs.foldl borrow w with optimistic := o, recycled := recycled } := by
  obtain ⟨hnonces, hids⟩ := validateUniqueAllocations_ok hunique
  obtain ⟨hp, hb, hk⟩ := borrowAll_spec (w := w) txs hids
  obtain ⟨hs, hr, _, hc, _, hl⟩ := borrowAll_rest (w := w) txs
  exact ⟨hids, hnonces, validatePending_ok hpending, hp, hb, hk, hs, hr, hc, hl⟩

theorem moveIncremented_ok
    (h : w.moveIncremented txs = .ok w') :
    w.Moved txs w' ∧ w'.recycled = w.recycled ∧ ∃ o o', w.optimistic = some o ∧
      w'.optimistic = some o' ∧ o < o' ∧ o' < 2 ^ 64 ∧
      ∀ tx ∈ txs, o ≤ tx.signed.nonce ∧ tx.signed.nonce < o' := by
  unfold moveIncremented at h
  simp only [bind_ok, pure_ok] at h
  obtain ⟨_, hne, _, hunique, o, ho, _, hseq, _, hlast, _, hp, rfl⟩ := h
  have hsome : w.optimistic = some o := by
    cases hw : w.optimistic with
    | none => simp [hw] at ho
    | some n =>
      rw [hw] at ho
      exact congrArg some (Except.ok.inj ho)
  have hne : txs ≠ [] := demand_ok.mp hne
  have hlast := demand_ok.mp hlast
  generalize hsorted : (txs.map (·.signed.nonce)).insertionSort (· ≤ ·) = nonces at hseq hlast ⊢
  obtain ⟨hrange, hlt⟩ := validateSequential_ok hseq
  have hmem : ∀ tx ∈ txs, tx.signed.nonce ∈ nonces := by
    intro tx htx
    rw [← hsorted, List.mem_insertionSort]
    exact List.mem_map.mpr ⟨tx, htx, rfl⟩
  have hpos : 0 < nonces.length := by
    obtain ⟨tx, htx⟩ := List.exists_mem_of_ne_nil txs hne
    exact List.length_pos_of_mem (hmem tx htx)
  have hend : nonces.getLast? = some (o + nonces.length - 1) := by
    rw [hrange, List.getLast?_range']
    rw [List.length_range', if_neg hpos.ne']
    congr 1
  have hmax : o + nonces.length - 1 < 2 ^ 64 := hlt _ (List.mem_of_getLast? hend)
  have hnot : o + nonces.length - 1 ≠ 2 ^ 64 - 1 := by
    rintro heq
    exact hlast (by rw [hend, heq])
  refine ⟨.borrowAll hunique hp, ?_, o, o + nonces.length - 1 + 1, hsome, ?_, by omega, by omega, ?_⟩
  · exact (borrowAll_rest (w := w) txs).2.2.1
  · rw [hend]
    rfl
  · intro tx htx
    have hin := hmem tx htx
    rw [hrange, List.mem_range'_1] at hin
    omega

theorem moveRecycled_ok (h : w.moveRecycled txs = .ok w') :
    w.Moved txs w' ∧ w'.optimistic = w.optimistic ∧
      (∀ tx ∈ txs, tx.signed.nonce ∈ w.recycled) ∧
      ∀ n, n ∈ w'.recycled ↔ n ∈ w.recycled ∧ n ∉ txs.map (·.signed.nonce) := by
  unfold moveRecycled at h
  simp only [bind_ok, pure_ok] at h
  obtain ⟨_, -, _, hunique, _, hrec, _, hp, rfl⟩ := h
  refine ⟨.borrowAll hunique hp, ?_, fun tx htx => ?_, fun n => mem_sremAll⟩
  · exact (borrowAll_rest (w := w) txs).2.2.2.2.1
  · exact validateRecycled_ok hrec _ (List.mem_map.mpr ⟨tx, htx, rfl⟩)

/-! ## Results of dispatches -/

def Kept (r r' : Option Record) : Prop :=
  ∀ x, r = some x → ∃ x', r' = some x' ∧ x'.expiring = x.expiring

theorem Kept.refl (r : Option Record) : Kept r r := fun x hx => ⟨x, hx, rfl⟩

theorem Kept.trans {r r' r'' : Option Record} (h : Kept r r') (h' : Kept r' r'') : Kept r r'' := by
  intro x hx
  obtain ⟨y, hy, hyx⟩ := h x hx
  obtain ⟨z, hz, hzy⟩ := h' y hy
  exact ⟨z, hz, hzy.trans hyx⟩

/-- The transaction of a result that is not uncertain leaves the borrowed map for a submitted
row. -/
structure Processed (w : Wallet) (results : List SubmissionResult) (w' : Wallet) : Prop where
  pending : w'.pending = w.pending
  borrowed : ∀ e, e ∈ w'.borrowed ↔ e ∈ w.borrowed ∧
    ∀ r ∈ results, r.result ≠ .uncertain → e.1 ≠ r.transaction.transactionId
  keyed : (keys w.borrowed).Nodup → (keys w'.borrowed).Nodup
  submitted : ∀ e ∈ w'.submitted, e ∈ w.submitted ∨ ∃ r ∈ results, r.result ≠ .uncertain ∧
    r.transaction.transactionId ∈ keys w.borrowed ∧ e = (r.transaction.row, r.transaction.nonce)
  records : ∀ id, Kept (w.records id) (w'.records id)
  recycled : w'.recycled = w.recycled
  optimistic : w'.optimistic = w.optimistic
  cached : w'.cached = w.cached
  lock : w'.lock = w.lock

theorem setRecord_kept {id i : String} {f : Record → Record} (hf : ∀ r, (f r).expiring = r.expiring) :
    Kept (w.records i) ((w.setRecord id f).records i) := by
  intro x hx
  by_cases hi : i = id
  · subst hi
    refine ⟨f x, ?_, hf x⟩
    show Function.update w.records i _ i = _
    rw [Function.update_self, hx]
    rfl
  · refine ⟨x, ?_, rfl⟩
    show Function.update w.records id _ i = _
    rw [Function.update_of_ne hi, hx]

theorem Processed.step {rs : List SubmissionResult} (h : w.Processed rs w') {r : SubmissionResult}
    (hr : r.transaction.transactionId ∈ keys w.borrowed) :
    w.Processed (rs ++ [r]) (w'.processResult r) := by
  have hold : ∀ e ∈ w'.submitted, e ∈ w.submitted ∨ ∃ x ∈ rs ++ [r], x.result ≠ .uncertain ∧
      x.transaction.transactionId ∈ keys w.borrowed ∧ e = (x.transaction.row, x.transaction.nonce) := by
    intro e he
    refine (h.submitted e he).imp_right ?_
    rintro ⟨x, hx, hrest⟩
    exact ⟨x, List.mem_append_left _ hx, hrest⟩
  unfold processResult
  split_ifs with hu
  · refine ⟨h.pending, fun e => ?_, h.keyed, hold, h.records, h.recycled, h.optimistic, h.cached,
      h.lock⟩
    rw [h.borrowed e, List.forall_mem_append, List.forall_mem_singleton]
    simp only [hu, ne_eq, not_true_eq_false, false_implies, and_true]
  · refine ⟨h.pending, fun e => ?_, fun hn => nodup_keys_hdel (h.keyed hn) _, fun e he => ?_,
      fun id => (h.records id).trans ?_, h.recycled, h.optimistic, h.cached, h.lock⟩
    · show e ∈ hdel _ r.transaction.transactionId ↔ _
      rw [mem_hdel, h.borrowed e, List.forall_mem_append, List.forall_mem_singleton, and_assoc]
      simp only [hu, ne_eq, not_false_eq_true, true_implies]
    · rcases mem_hset.mp he with rfl | ⟨he, _⟩
      · exact .inr ⟨r, by simp, hu, hr, rfl⟩
      · exact hold e he
    · exact setRecord_kept (f := fun record => { record with status := some .submitted })
        fun _ => rfl

theorem processAll_spec (rs : List SubmissionResult) (hrs : ∀ r ∈ rs,
    r.transaction.transactionId ∈ keys w.borrowed) :
    w.Processed rs (rs.foldl processResult w) := by
  induction rs using List.reverseRecOn with
  | nil =>
    exact ⟨rfl, by simp, fun h => h, fun e he => .inl he, fun id => .refl _, rfl, rfl, rfl, rfl⟩
  | append_singleton rs r ih =>
    rw [List.foldl_append]
    exact (ih fun r hr => hrs r (List.mem_append_left _ hr)).step (hrs r (by simp))

theorem processBorrowed_spec (results : List SubmissionResult) :
    w.Processed results (w.processBorrowed results) := by
  have hmem : ∀ r, r ∈ results.filter (fun r => r.transaction.transactionId ∈ keys w.borrowed) ↔
      r ∈ results ∧ r.transaction.transactionId ∈ keys w.borrowed := by
    intro r
    rw [List.mem_filter, decide_eq_true_iff]
  have h := processAll_spec (w := w)
    (results.filter fun r => r.transaction.transactionId ∈ keys w.borrowed)
    fun r hr => ((hmem r).mp hr).2
  refine ⟨h.pending, fun e => ?_, h.keyed, fun e he => ?_, h.records, h.recycled, h.optimistic,
    h.cached, h.lock⟩
  · refine (h.borrowed e).trans (and_congr_right fun he => ⟨fun hall r hr hu heq => ?_, ?_⟩)
    · refine hall r ((hmem r).mpr ⟨hr, ?_⟩) hu heq
      rw [← heq]
      exact mem_keys.mpr ⟨e.2, he⟩
    · exact fun hall r hr => hall r ((hmem r).mp hr).1
  · refine (h.submitted e he).imp_right ?_
    rintro ⟨r, hr, hrest⟩
    exact ⟨r, ((hmem r).mp hr).1, hrest⟩

end Wallet

/-! ## Settled rows -/

def Evidence.Reaches (e : Evidence) (nonce : ℕ) : Prop :=
  nonce < e.counts.preconfirmed ∨ nonce < e.counts.latest

instance (e : Evidence) (nonce : ℕ) : Decidable (e.Reaches nonce) := by
  unfold Evidence.Reaches
  infer_instance

/-- The members that the cleanup of these rows removes. -/
def Evidence.removed (e : Evidence) (rows : List (Row × ℕ)) : List Row :=
  (rows.filter fun y => e.Reaches y.2 ∧ e.Removes y.1 y.2).map (·.1.hydrated)

namespace Wallet

variable {w w' : Wallet}

/-- The cleanup has looked at the rows `done` and removed the members `gone`. -/
structure Cleaning (w : Wallet) (e : Evidence) (done : List (Row × ℕ)) (gone : List Row)
    (a : Cleanup) : Prop where
  pending : a.wallet.pending = w.pending
  borrowed : a.wallet.borrowed = w.borrowed
  submitted : ∀ x, x ∈ a.wallet.submitted ↔ x ∈ w.submitted ∧ x.1 ∉ gone
  replaced : ∀ x ∈ a.replaced, x.1 ≠ noOpTransactionId ∧ e.ofId x.1 = none ∧
    ∃ y ∈ done, y.1.transactionId = x.1 ∧ e.Reaches y.2 ∧ e.Replaces y.2
  records : ∀ id, a.wallet.records id = w.records id ∨ id ≠ noOpTransactionId ∧
    ∃ y ∈ done, y.1.transactionId = id ∧ e.Reaches y.2 ∧ ∃ c, e.ofId id = some c ∧
      a.wallet.records id = some { (w.records id).getD {} with
        status := some (if c.receipt.status then .confirmed else .failed), expiring := true }
  recycled : a.wallet.recycled = w.recycled
  optimistic : a.wallet.optimistic = w.optimistic
  cached : a.wallet.cached = w.cached
  lock : a.wallet.lock = w.lock

section Cleaning

variable {e : Evidence} {done : List (Row × ℕ)} {gone : List Row} {a : Cleanup} {entry : Row × ℕ}

section

variable (h : w.Cleaning e done gone a)

include h

theorem Cleaning.look (entry : Row × ℕ) : w.Cleaning e (done ++ [entry]) gone a := by
  refine ⟨h.pending, h.borrowed, h.submitted, fun x hx => ?_, fun id => ?_, h.recycled,
    h.optimistic, h.cached, h.lock⟩
  · obtain ⟨hid, hc, y, hy, hrest⟩ := h.replaced x hx
    exact ⟨hid, hc, y, List.mem_append_left _ hy, hrest⟩
  · refine (h.records id).imp_right ?_
    rintro ⟨hid, y, hy, hrest⟩
    exact ⟨hid, y, List.mem_append_left _ hy, hrest⟩

theorem Cleaning.outcome (hreach : e.Reaches entry.2)
    (hdone : entry ∈ done) : w.Cleaning e done gone (a.outcome e entry.1 entry.2) := by
  unfold Cleanup.outcome
  dsimp only
  by_cases hid : entry.1.transactionId = noOpTransactionId
  · rw [if_pos hid]
    exact h
  rw [if_neg hid]
  cases hc : e.ofId entry.1.transactionId with
  | some c =>
    refine ⟨h.pending, h.borrowed, h.submitted, h.replaced, fun id => ?_, h.recycled, h.optimistic,
      h.cached, h.lock⟩
    by_cases hi : id = entry.1.transactionId
    · subst hi
      refine .inr ⟨hid, entry, hdone, rfl, hreach, c, hc, ?_⟩
      show Function.update a.wallet.records entry.1.transactionId _ _ = _
      rw [Function.update_self]
      rcases h.records entry.1.transactionId with hr | ⟨_, _, _, _, _, c', hc', hr⟩
      · rw [hr]
      · rw [hr]
        rfl
    · have hsame : (a.wallet.setRecord entry.1.transactionId fun record =>
          { record with
            status := some (if c.receipt.status then .confirmed else .failed)
            expiring := true }).records id = a.wallet.records id := Function.update_of_ne hi _ _
      rw [hsame]
      exact h.records id
  | none =>
    by_cases hr : e.Replaces entry.2
    · simp only [if_pos hr]
      refine ⟨h.pending, h.borrowed, h.submitted, fun x hx => ?_, h.records, h.recycled,
        h.optimistic, h.cached, h.lock⟩
      rcases List.mem_append.mp hx with hx | hx
      · exact h.replaced x hx
      · rw [List.mem_singleton.mp hx]
        exact ⟨hid, hc, entry, hdone, rfl, hreach, hr⟩
    · simp only [if_neg hr]
      exact h

theorem Cleaning.mark (processed : List String) : w.Cleaning e done gone { a with processed } :=
  { h with }

theorem Cleaning.remove (row : Row) : w.Cleaning e done (gone ++ [row])
      { a with wallet := { a.wallet with submitted := hdel a.wallet.submitted row } } := by
  refine ⟨h.pending, h.borrowed, fun x => ?_, h.replaced, h.records, h.recycled, h.optimistic,
    h.cached, h.lock⟩
  show x ∈ hdel a.wallet.submitted row ↔ _
  rw [mem_hdel, h.submitted x, List.mem_append, List.mem_singleton, and_assoc, not_or]

end

theorem Cleaning.row (h : w.Cleaning e done (e.removed done) a) (entry : Row × ℕ) :
    w.Cleaning e (done ++ [entry]) (e.removed (done ++ [entry])) (Cleanup.row e a entry) := by
  have hlook := h.look entry
  have hremoved : e.removed (done ++ [entry]) = e.removed done ++
      if e.Reaches entry.2 ∧ e.Removes entry.1 entry.2 then [entry.1.hydrated] else [] := by
    unfold Evidence.removed
    rw [List.filter_append, List.map_append, List.filter_singleton]
    by_cases hgone : e.Reaches entry.2 ∧ e.Removes entry.1 entry.2 <;> simp [hgone]
  unfold Cleanup.row
  by_cases hreach : entry.2 < e.counts.preconfirmed ∨ entry.2 < e.counts.latest
  · have hdecided : w.Cleaning e (done ++ [entry]) (e.removed done)
        (if entry.1.transactionId ∈ a.processed then a else a.outcome e entry.1 entry.2) := by
      split_ifs
      · exact hlook
      · exact hlook.outcome hreach (by simp)
    rw [if_pos hreach]
    dsimp only
    generalize (if entry.1.transactionId ∈ a.processed then a else a.outcome e entry.1 entry.2)
      = decided at hdecided ⊢
    by_cases hrem : e.Removes entry.1 entry.2
    · rw [hremoved, if_pos ⟨hreach, hrem⟩, if_pos hrem]
      exact (hdecided.mark (sadd a.processed entry.1.transactionId)).remove entry.1.hydrated
    · rw [hremoved, if_neg fun hgone => hrem hgone.2, if_neg hrem, List.append_nil]
      exact hdecided.mark _
  · rw [if_neg hreach, hremoved, if_neg fun hgone => hreach hgone.1, List.append_nil]
    exact hlook

theorem Cleaning.rows (e : Evidence) (rows : List (Row × ℕ)) :
    w.Cleaning e rows (e.removed rows) (rows.foldl (Cleanup.row e) { wallet := w }) := by
  induction rows using List.reverseRecOn with
  | nil =>
    refine ⟨rfl, rfl, fun x => ?_, ?_, fun id => .inl rfl, rfl, rfl, rfl, rfl⟩
    · simp [Evidence.removed]
    · rintro x ⟨⟩
  | append_singleton rows entry ih =>
    rw [List.foldl_append]
    exact ih.row entry

end Cleaning

/-- The cleanup with evidence `e` over `rows` is done. -/
structure Cleared (w : Wallet) (e : Evidence) (rows : List (Row × ℕ)) (w' : Wallet) : Prop where
  pending : ∀ id ∈ keys w'.pending, id ∈ keys w.pending ∨ id ≠ noOpTransactionId ∧
    e.ofId id = none ∧ ∃ y ∈ rows, y.1.transactionId = id ∧ e.Reaches y.2 ∧ e.Replaces y.2
  borrowed : w'.borrowed = w.borrowed
  submitted : ∀ x, x ∈ w'.submitted ↔ x ∈ w.submitted ∧ x.1 ∉ e.removed rows
  records : ∀ id, w'.records id = w.records id ∨ id ≠ noOpTransactionId ∧
    ∃ y ∈ rows, y.1.transactionId = id ∧ e.Reaches y.2 ∧ ∃ c, e.ofId id = some c ∧
      w'.records id = some { (w.records id).getD {} with
        status := some (if c.receipt.status then .confirmed else .failed), expiring := true }
  recycled : w'.recycled = w.recycled
  optimistic : w'.optimistic = w.optimistic
  cached : w'.cached = w.cached
  lock : w'.lock = w.lock

theorem cleaned_spec (e : Evidence) (rows : List (Row × ℕ)) :
    w.Cleared e rows (w.cleaned e rows) := by
  have h := Cleaning.rows (w := w) e rows
  refine ⟨fun id hid => ?_, h.borrowed, h.submitted, h.records, h.recycled, h.optimistic, h.cached,
    h.lock⟩
  rcases mem_keys_zaddAll _ _ hid with hid | hid
  · exact .inl (h.pending ▸ hid)
  · obtain ⟨x, hx, rfl⟩ := List.mem_map.mp hid
    exact .inr (h.replaced x hx)

variable {confirmed : List ConfirmedTransaction}

theorem cleanSubmitted_ok {counts : TransactionCounts}
    (h : w.cleanSubmitted confirmed counts = .ok w') :
    w.Cleared (.ofRows counts confirmed (readable (w.receiptRows confirmed counts)))
      (readable (w.receiptRows confirmed counts)) w' := by
  unfold cleanSubmitted at h
  simp only [bind_ok, pure_ok] at h
  obtain ⟨_, -, _, -, _, -, rfl⟩ := h
  exact cleaned_spec _ _

theorem mem_readable_receiptRows
    {counts : TransactionCounts} {x : Row × ℕ} :
    x ∈ readable (w.receiptRows confirmed counts) ↔ x ∈ w.submitted ∧ x.1.Readable ∧
      x.2 < max counts.preconfirmed counts.latest ∧ x.2 ∈ confirmed.map (·.nonce) := by
  unfold readable receiptRows
  rw [List.mem_filter, List.mem_insertionSort, List.mem_filter]
  simp only [decide_eq_true_eq]
  tauto

theorem hydrated_eq {row : Row} (h : row.transactionId ≠ noOpTransactionId) :
    row.hydrated = row := if_neg h

theorem Cleared.gone {counts : TransactionCounts}
    {e : Evidence} (h : w.Cleared e (readable (w.receiptRows confirmed counts)) w') {id : String}
    (hid : id ≠ noOpTransactionId)
    (hone : ∀ n n', w.SubmittedAt id n → w.SubmittedAt id n' → n = n') {y : Row × ℕ}
    (hy : y ∈ readable (w.receiptRows confirmed counts)) (hyid : y.1.transactionId = id)
    (hreach : e.Reaches y.2) (hrem : e.Removes y.1 y.2) (n : ℕ) : ¬w'.SubmittedAt id n := by
  rintro ⟨row, hrow, hrowid⟩
  obtain ⟨hold, hnot⟩ := (h.submitted _).mp hrow
  obtain ⟨hin, hreadable, hlt, hnonce⟩ := mem_readable_receiptRows.mp hy
  obtain rfl : n = y.2 := hone n y.2 ⟨row, hold, hrowid⟩ ⟨y.1, hin, hyid⟩
  refine hnot (List.mem_map.mpr ⟨(row, y.2), List.mem_filter.mpr ⟨?_, ?_⟩, ?_⟩)
  · refine mem_readable_receiptRows.mpr ⟨hold, ?_, hlt, hnonce⟩
    unfold Row.Readable at hreadable ⊢
    rwa [hrowid, ← hyid]
  · refine decide_eq_true ⟨hreach, ?_⟩
    unfold Evidence.Removes at hrem ⊢
    rwa [hrowid, ← hyid]
  · exact hydrated_eq (hrowid ▸ hid)

/-! ## Nonces, noops and failures -/

theorem cleanRecycled_ok (h : w.cleanRecycled = .ok w') :
    ∃ count next, w.cached = some count ∧ w' = { w with
      recycled := w'.recycled, optimistic := w.optimistic.map (min · next) } ∧
      (∀ n ∈ w'.recycled, n ∈ w.recycled) ∧ (∀ n ∈ w'.recycled, n + 1 < 2 ^ 64 → n < next) ∧
      (count < 2 ^ 64 → count ≤ next) ∧ next < 2 ^ 64 ∧
      (∀ e ∈ w.submitted, e.2 + 1 < 2 ^ 64 → e.2 < next) ∧
      ∀ e ∈ w.borrowed, e.2.signed.nonce + 1 < 2 ^ 64 → e.2.signed.nonce < next := by
  unfold cleanRecycled at h
  cases hcached : w.cached with
  | none => simp [hcached] at h
  | some count =>
    simp only [hcached] at h
    obtain rfl := Except.ok.inj h
    generalize hall : w.submitted.map Prod.snd ++ w.borrowed.map (·.2.signed.nonce) ++
      (if count = 0 then [] else [count - 1]) = all
    have hnext : ∀ n ∈ all, n + 1 < 2 ^ 64 →
        n < (all.max?.map fun n => min (n + 1) (2 ^ 64 - 1)).getD 0 := by
      intro n hn hlt
      cases hmax : all.max? with
      | none =>
        rw [List.max?_eq_none_iff] at hmax
        rw [hmax] at hn
        cases hn
      | some m =>
        have hle : n ≤ m := (List.max?_le_iff hmax).mp le_rfl n hn
        show n < min (m + 1) (2 ^ 64 - 1)
        omega
    refine ⟨count, _, rfl, rfl, fun n hn => (List.mem_filter.mp hn).1, fun n hn hlt => ?_,
      fun hcount => ?_, ?_, fun e he hlt => ?_, fun e he hlt => ?_⟩
    · have hlow := of_decide_eq_true (List.mem_filter.mp hn).2
      cases hmax : all.max? with
      | none => simp [hmax] at hlow
      | some m =>
        rw [hmax] at hlow
        have hlow : n < m := hlow
        show n < min (m + 1) (2 ^ 64 - 1)
        omega
    · by_cases hzero : count = 0
      · omega
      have hmem : count - 1 ∈ all := by
        rw [← hall, if_neg hzero]
        simp
      have := hnext (count - 1) hmem (by omega)
      omega
    · cases all.max? with
      | none => exact Nat.two_pow_pos 64
      | some m =>
        show min (m + 1) (2 ^ 64 - 1) < 2 ^ 64
        omega
    · refine hnext e.2 ?_ hlt
      rw [← hall]
      exact List.mem_append_left _ (List.mem_append_left _ (List.mem_map.mpr ⟨e, he, rfl⟩))
    · refine hnext e.2.signed.nonce ?_ hlt
      rw [← hall]
      exact List.mem_append_left _ (List.mem_append_right _ (List.mem_map.mpr ⟨e, he, rfl⟩))

theorem processNoop_submitted {noops : List Signed} {x : Row × ℕ}
    (h : x ∈ (w.processNoop noops).submitted) :
    x ∈ w.submitted ∨ ∃ n ∈ noops, x = (.noop n.hash, n.nonce) := by
  have key : ∀ (ns : List Signed) (z : List (Row × ℕ)),
      x ∈ ns.foldl (fun z n => hset z (Row.noop n.hash) n.nonce) z →
      x ∈ z ∨ ∃ n ∈ ns, x = (.noop n.hash, n.nonce) := by
    intro ns
    induction ns with
    | nil => exact fun z hx => .inl hx
    | cons n ns ih =>
      intro z hx
      rcases ih _ hx with hx | ⟨m, hm, rfl⟩
      · rcases mem_hset.mp hx with rfl | ⟨hx, _⟩
        · exact .inr ⟨n, List.mem_cons_self, rfl⟩
        · exact .inl hx
      · exact .inr ⟨m, List.mem_cons_of_mem _ hm, rfl⟩
  exact key noops w.submitted h

theorem setRecords_spec (ids : List String) (f : Record → Record) (hf : ∀ r, f (f r) = f r) :
    (ids.foldl (fun w id => w.setRecord id f) w) = { w with
      records := fun id => if id ∈ ids then some (f ((w.records id).getD {})) else w.records id } := by
  induction ids generalizing w with
  | nil => simp
  | cons i ids ih =>
    rw [List.foldl_cons, ih]
    unfold setRecord
    congr 1
    funext id
    by_cases hi : id = i
    · subst hi
      simp [hf]
    · simp [hi]

theorem failPending_ok {ids : List String} (h : w.failPending ids = .ok w') :
    (∀ id ∈ ids, id ∈ keys w.pending) ∧ w' = { w with
      pending := ids.foldl hdel w.pending
      records := fun id => if id ∈ ids then
          some { (w.records id).getD {} with status := some .failed, expiring := true }
        else w.records id } := by
  unfold failPending at h
  simp only [bind_ok, pure_ok] at h
  obtain ⟨_, hp, rfl⟩ := h
  refine ⟨validatePending_ok hp, ?_⟩
  rw [setRecords_spec ids (fun record => { record with status := some .failed, expiring := true })
    fun _ => rfl]

end Wallet

end EngineCore.Eoa
