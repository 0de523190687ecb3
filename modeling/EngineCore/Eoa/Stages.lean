import EngineCore.Eoa.Changes

/-!
# One stage for each transaction

* **`Wallet.Staged.apply`**: the operations of the atomic store keep the stages.
-/

namespace EngineCore.Eoa.Wallet

open Redis Twmq

variable {w w' : Wallet}

/-- The record of the transaction is there and does not expire. -/
def Retains (w : Wallet) (id : String) : Prop :=
  ∃ record, w.records id = some record ∧ record.expiring = false

/-- Every transaction is at one stage. The reserved id is shared by noops and is submitted at any
number of nonces. -/
structure Staged (w : Wallet) : Prop where
  pending : ∀ id ∈ keys w.pending, id ∉ keys w.borrowed ∧
    (id ≠ noOpTransactionId → ∀ n, ¬w.SubmittedAt id n)
  borrowed : ∀ id ∈ keys w.borrowed, id ≠ noOpTransactionId → ∀ n, ¬w.SubmittedAt id n
  nonce : ∀ id ≠ noOpTransactionId, ∀ n n', w.SubmittedAt id n → w.SubmittedAt id n' → n = n'
  retainsPending : ∀ id ∈ keys w.pending, w.Retains id
  retainsBorrowed : ∀ id ∈ keys w.borrowed, w.Retains id
  retainsSubmitted : ∀ id ≠ noOpTransactionId, ∀ n, w.SubmittedAt id n → w.Retains id
  keyed : ∀ e ∈ w.borrowed, e.2.transactionId = e.1
  distinct : (keys w.borrowed).Nodup

theorem Retains.kept {id : String} (h : w.Retains id) (hk : Kept (w.records id) (w'.records id)) :
    w'.Retains id := by
  obtain ⟨record, hr, hexp⟩ := h
  obtain ⟨record', hr', heq⟩ := hk record hr
  exact ⟨record', hr', heq.trans hexp⟩

theorem Retains.congr {id : String} (h : w.Retains id) (hr : w'.records id = w.records id) :
    w'.Retains id := by
  obtain ⟨record, hrecord, hexp⟩ := h
  exact ⟨record, hr.trans hrecord, hexp⟩

theorem SubmittedAt.congr {id : String} {n : ℕ} (h : w'.SubmittedAt id n)
    (hs : w'.submitted = w.submitted) : w.SubmittedAt id n := by
  unfold SubmittedAt at h ⊢
  rwa [hs] at h

namespace Staged

theorem empty : Staged {} := by
  have hnone : ∀ id n, ¬SubmittedAt {} id n := by
    rintro id n ⟨row, ⟨⟩, _⟩
  exact ⟨by rintro id ⟨⟩, by rintro id ⟨⟩, fun id _ n _ hat => absurd hat (hnone id n),
    by rintro id ⟨⟩, by rintro id ⟨⟩, fun id _ n hat => absurd hat (hnone id n), by rintro e ⟨⟩,
    List.nodup_nil⟩

variable (h : w.Staged)

include h

theorem congr (hp : w'.pending = w.pending) (hb : w'.borrowed = w.borrowed)
    (hs : w'.submitted = w.submitted) (hr : w'.records = w.records) : w'.Staged := by
  have hsub : ∀ id n, w'.SubmittedAt id n → w.SubmittedAt id n := fun id n hat => hat.congr hs
  have hret : ∀ id, w.Retains id → w'.Retains id := fun id hr' => hr'.congr (congrFun hr id)
  refine ⟨?_, ?_, ?_, ?_, ?_, ?_, ?_, ?_⟩
  · rw [hp, hb]
    exact fun id hid => ⟨(h.pending id hid).1, fun hne n hat => (h.pending id hid).2 hne n (hsub id n hat)⟩
  · rw [hb]
    exact fun id hid hne n hat => h.borrowed id hid hne n (hsub id n hat)
  · exact fun id hne n n' hat hat' => h.nonce id hne n n' (hsub id n hat) (hsub id n' hat')
  · rw [hp]
    exact fun id hid => hret id (h.retainsPending id hid)
  · rw [hb]
    exact fun id hid => hret id (h.retainsBorrowed id hid)
  · exact fun id hne n hat => hret id (h.retainsSubmitted id hne n (hsub id n hat))
  · rw [hb]
    exact h.keyed
  · rw [hb]
    exact h.distinct

theorem moved {txs : List BorrowedTransactionData} (hm : w.Moved txs w') : w'.Staged := by
  have hsub : ∀ id n, w'.SubmittedAt id n → w.SubmittedAt id n :=
    fun id n hat => hat.congr hm.submitted
  have hret : ∀ id, w.Retains id → w'.Retains id := fun id hr => hr.congr (congrFun hm.records id)
  -- a borrowed transaction is one of those moved, or was borrowed before
  have hborrowed : ∀ id ∈ keys w'.borrowed, id ∈ txs.map (·.transactionId) ∨
      id ∈ keys w.borrowed ∧ id ∉ txs.map (·.transactionId) := by
    intro id hid
    obtain ⟨b, hb⟩ := mem_keys.mp hid
    rcases (hm.borrowed _).mp hb with ⟨tx, htx, heq⟩ | ⟨hold, hnot⟩
    · exact .inl (List.mem_map.mpr ⟨tx, htx, (congrArg Prod.fst heq).symm⟩)
    · exact .inr ⟨mem_keys.mpr ⟨b, hold⟩, hnot⟩
  refine ⟨fun id hid => ?_, fun id hid hne n hat => ?_, fun id hne n n' hat hat' => ?_,
    fun id hid => ?_, fun id hid => ?_, fun id hne n hat => ?_, fun e he => ?_, hm.keyed h.distinct⟩
  · obtain ⟨hold, hnot⟩ := (hm.pending id).mp hid
    refine ⟨fun hb => ?_, fun hne n hat => (h.pending id hold).2 hne n (hsub id n hat)⟩
    rcases hborrowed id hb with hb | ⟨hb, _⟩
    · exact hnot hb
    · exact (h.pending id hold).1 hb
  · rcases hborrowed id hid with hid | ⟨hid, _⟩
    · exact (h.pending id (hm.were id hid)).2 hne n (hsub id n hat)
    · exact h.borrowed id hid hne n (hsub id n hat)
  · exact h.nonce id hne n n' (hsub id n hat) (hsub id n' hat')
  · exact hret id (h.retainsPending id ((hm.pending id).mp hid).1)
  · rcases hborrowed id hid with hid | ⟨hid, _⟩
    · exact hret id (h.retainsPending id (hm.were id hid))
    · exact hret id (h.retainsBorrowed id hid)
  · exact hret id (h.retainsSubmitted id hne n (hsub id n hat))
  · rcases (hm.borrowed e).mp he with ⟨tx, _, rfl⟩ | ⟨hold, _⟩
    · rfl
    · exact h.keyed e hold

theorem processed {results : List SubmissionResult} (hp : w.Processed results w')
    (hids : (results.map (·.transaction.transactionId)).Nodup) : w'.Staged := by
  have hborrowed : ∀ id ∈ keys w'.borrowed, id ∈ keys w.borrowed ∧
      ∀ r ∈ results, r.result ≠ .uncertain → id ≠ r.transaction.transactionId := by
    intro id hid
    obtain ⟨b, hb⟩ := mem_keys.mp hid
    obtain ⟨hold, hnot⟩ := (hp.borrowed _).mp hb
    exact ⟨mem_keys.mpr ⟨b, hold⟩, hnot⟩
  -- a row is an old one, or that of a result for a borrowed transaction
  have hsub : ∀ id n, w'.SubmittedAt id n → w.SubmittedAt id n ∨ ∃ r ∈ results,
      r.result ≠ .uncertain ∧ r.transaction.transactionId = id ∧ id ∈ keys w.borrowed ∧
        n = r.transaction.nonce := by
    rintro id n ⟨row, hrow, hid⟩
    rcases hp.submitted _ hrow with hrow | ⟨r, hr, hu, hmem, heq⟩
    · exact .inl ⟨row, hrow, hid⟩
    · obtain ⟨rfl, rfl⟩ := Prod.mk.inj heq
      have hid : r.transaction.transactionId = id := hid
      exact .inr ⟨r, hr, hu, hid, hid ▸ hmem, rfl⟩
  refine ⟨fun id hid => ?_, fun id hid hne n hat => ?_, fun id hne n n' hat hat' => ?_,
    fun id hid => ?_, fun id hid => ?_, fun id hne n hat => ?_, fun e he => ?_, hp.keyed h.distinct⟩
  · rw [hp.pending] at hid
    refine ⟨fun hb => (h.pending id hid).1 (hborrowed id hb).1, fun hne n hat => ?_⟩
    rcases hsub id n hat with hat | ⟨_, _, _, _, hb, _⟩
    · exact (h.pending id hid).2 hne n hat
    · exact (h.pending id hid).1 hb
  · obtain ⟨hold, hnot⟩ := hborrowed id hid
    rcases hsub id n hat with hat | ⟨r, hr, hu, hrid, _, _⟩
    · exact h.borrowed id hold hne n hat
    · exact hnot r hr hu hrid.symm
  · rcases hsub id n hat with hat | ⟨r, hr, _, hrid, hb, rfl⟩
    · rcases hsub id n' hat' with hat' | ⟨_, _, _, _, hb, _⟩
      · exact h.nonce id hne n n' hat hat'
      · exact absurd hat (h.borrowed id hb hne n)
    · rcases hsub id n' hat' with hat' | ⟨r', hr', _, hrid', _, rfl⟩
      · exact absurd hat' (h.borrowed id hb hne n')
      · rw [List.inj_on_of_nodup_map hids hr hr' (hrid.trans hrid'.symm)]
  · rw [hp.pending] at hid
    exact (h.retainsPending id hid).kept (hp.records id)
  · exact (h.retainsBorrowed id (hborrowed id hid).1).kept (hp.records id)
  · rcases hsub id n hat with hat | ⟨_, _, _, _, hb, _⟩
    · exact (h.retainsSubmitted id hne n hat).kept (hp.records id)
    · exact (h.retainsBorrowed id hb).kept (hp.records id)
  · exact h.keyed e ((hp.borrowed e).mp he).1

theorem cleared {confirmed : List ConfirmedTransaction} {counts : TransactionCounts} {e : Evidence}
    (hc : w.Cleared e (readable (w.receiptRows confirmed counts)) w') :
    w'.Staged := by
  have hsub : ∀ id n, w'.SubmittedAt id n → w.SubmittedAt id n := by
    rintro id n ⟨row, hrow, hid⟩
    exact ⟨row, ((hc.submitted _).mp hrow).1, hid⟩
  have hin : ∀ {y : Row × ℕ}, y ∈ readable (w.receiptRows confirmed counts) →
      w.SubmittedAt y.1.transactionId y.2 :=
    fun {y} hy => ⟨y.1, (mem_readable_receiptRows.mp hy).1, rfl⟩
  -- what goes back to pending leaves no row
  have hpending : ∀ id ∈ keys w'.pending, id ∈ keys w.pending ∨ id ≠ noOpTransactionId ∧
      e.ofId id = none ∧ (∃ n, w.SubmittedAt id n) ∧ ∀ n, ¬w'.SubmittedAt id n := by
    intro id hid
    refine (hc.pending id hid).imp_right ?_
    rintro ⟨hne, hnone, y, hy, rfl, hreach, hrep⟩
    refine ⟨hne, hnone, ⟨y.2, hin hy⟩, hc.gone hne (h.nonce _ hne) hy rfl hreach ?_⟩
    unfold Evidence.Removes
    rw [if_neg hne]
    exact .inr hrep
  -- and so does what is confirmed
  have hrecords : ∀ id, w'.records id = w.records id ∨ id ≠ noOpTransactionId ∧
      (e.ofId id).isSome ∧ (∃ n, w.SubmittedAt id n) ∧ ∀ n, ¬w'.SubmittedAt id n := by
    intro id
    refine (hc.records id).imp_right ?_
    rintro ⟨hne, y, hy, rfl, hreach, c, hsome, _⟩
    have hsome : (e.ofId y.1.transactionId).isSome := by
      rw [hsome]
      rfl
    exact ⟨hne, hsome, ⟨y.2, hin hy⟩, hc.gone hne (h.nonce _ hne) hy rfl hreach (.inl hsome)⟩
  refine ⟨fun id hid => ?_, fun id hid hne n hat => ?_, fun id hne n n' hat hat' => ?_,
    fun id hid => ?_, fun id hid => ?_, fun id hne n hat => ?_, ?_, ?_⟩
  · rw [hc.borrowed]
    rcases hpending id hid with hid | ⟨hne, _, ⟨n, hat⟩, hgone⟩
    · exact ⟨(h.pending id hid).1, fun hne n hat => (h.pending id hid).2 hne n (hsub id n hat)⟩
    · exact ⟨fun hb => h.borrowed id hb hne n hat, fun _ => hgone⟩
  · rw [hc.borrowed] at hid
    exact h.borrowed id hid hne n (hsub id n hat)
  · exact h.nonce id hne n n' (hsub id n hat) (hsub id n' hat')
  · rcases hpending id hid with hid | ⟨hne, hnone, ⟨n, hat⟩, _⟩
    · rcases hrecords id with hr | ⟨hne, _, ⟨n, hat⟩, _⟩
      · exact (h.retainsPending id hid).congr hr
      · exact absurd hat ((h.pending id hid).2 hne n)
    · rcases hrecords id with hr | ⟨_, hsome, _⟩
      · exact (h.retainsSubmitted id hne n hat).congr hr
      · simp [hnone] at hsome
  · rw [hc.borrowed] at hid
    rcases hrecords id with hr | ⟨hne, _, ⟨n, hat⟩, _⟩
    · exact (h.retainsBorrowed id hid).congr hr
    · exact absurd hat (h.borrowed id hid hne n)
  · rcases hrecords id with hr | ⟨_, _, _, hgone⟩
    · exact (h.retainsSubmitted id hne n (hsub id n hat)).congr hr
    · exact absurd hat (hgone n)
  · rw [hc.borrowed]
    exact h.keyed
  · rw [hc.borrowed]
    exact h.distinct

theorem failed {ids : List String} (hf : w.failPending ids = .ok w') : w'.Staged := by
  obtain ⟨hids, rfl⟩ := failPending_ok hf
  have hret : ∀ id, id ∉ ids → w.Retains id → Retains { w with
      pending := ids.foldl hdel w.pending
      records := fun id => if id ∈ ids then
          some { (w.records id).getD {} with status := some .failed, expiring := true }
        else w.records id } id :=
    fun id hid hr => hr.congr (if_neg hid)
  refine ⟨fun id hid => ?_, h.borrowed, h.nonce, fun id hid => ?_, fun id hid => ?_,
    fun id hne n hat => ?_, h.keyed, h.distinct⟩
  · exact h.pending id (mem_keys_hdelAll.mp hid).1
  · obtain ⟨hold, hnot⟩ := mem_keys_hdelAll.mp hid
    exact hret id hnot (h.retainsPending id hold)
  · exact hret id (fun hmem => (h.pending id (hids id hmem)).1 hid) (h.retainsBorrowed id hid)
  · refine hret id (fun hmem => ?_) (h.retainsSubmitted id hne n hat)
    exact (h.pending id (hids id hmem)).2 hne n hat

theorem added {submitted : List (Row × ℕ)}
    (hs : ∀ x ∈ submitted, x.1.transactionId ≠ noOpTransactionId →
      w.SubmittedAt x.1.transactionId x.2) : Staged { w with submitted } := by
  have hsub : ∀ id ≠ noOpTransactionId, ∀ n, SubmittedAt { w with submitted } id n →
      w.SubmittedAt id n := by
    rintro id hne n ⟨row, hrow, rfl⟩
    exact hs _ hrow hne
  exact ⟨fun id hid => ⟨(h.pending id hid).1, fun hne n hat =>
      (h.pending id hid).2 hne n (hsub id hne n hat)⟩,
    fun id hid hne n hat => h.borrowed id hid hne n (hsub id hne n hat),
    fun id hne n n' hat hat' => h.nonce id hne n n' (hsub id hne n hat) (hsub id hne n' hat'),
    h.retainsPending, h.retainsBorrowed,
    fun id hne n hat => h.retainsSubmitted id hne n (hsub id hne n hat), h.keyed, h.distinct⟩

/-- **The operations of the atomic store keep every transaction at one stage**, where a worker has
at most one result for each transaction. -/
theorem apply {op : Operation} (hop : w.apply op = .ok w')
    (hresults : ∀ results, op = .processBorrowed results →
      (results.map (·.transaction.transactionId)).Nodup) : w'.Staged := by
  cases op with
  | moveIncremented txs => exact h.moved (moveIncremented_ok hop).1
  | moveRecycled txs => exact h.moved (moveRecycled_ok hop).1
  | processBorrowed results =>
    obtain rfl := Except.ok.inj hop
    exact h.processed (processBorrowed_spec results) (hresults results rfl)
  | cleanSubmitted confirmed counts => exact h.cleared (cleanSubmitted_ok hop)
  | resetNonces count =>
    have hop : w.resetNonces count = .ok w' := hop
    unfold resetNonces at hop
    split_ifs at hop
    obtain rfl := Except.ok.inj hop
    exact h.congr rfl rfl rfl rfl
  | cleanRecycled =>
    obtain ⟨_, _, _, heq, _⟩ := cleanRecycled_ok hop
    rw [heq]
    exact h.congr rfl rfl rfl rfl
  | updateCached count =>
    obtain rfl := Except.ok.inj hop
    exact h.congr rfl rfl rfl rfl
  | processNoop noops =>
    obtain rfl := Except.ok.inj hop
    have hrows : ∀ x ∈ (w.processNoop noops).submitted, x.1.transactionId ≠ noOpTransactionId →
        w.SubmittedAt x.1.transactionId x.2 := by
      intro x hx hne
      rcases processNoop_submitted hx with hx | ⟨n, _, rfl⟩
      · exact ⟨x.1, hx, rfl⟩
      · exact absurd rfl hne
    exact (h.added hrows).congr rfl rfl rfl rfl
  | failPending ids => exact h.failed hop

theorem addTransaction {id request : String} {now : ℕ} {new : Bool}
    (hadd : w.addTransaction id request now = .ok (w', new)) : w'.Staged := by
  unfold Wallet.addTransaction at hadd
  cases hrecord : w.records id with
  | some record =>
    simp only [hrecord] at hadd
    split_ifs at hadd
    obtain ⟨rfl, _⟩ := Prod.mk.inj (Except.ok.inj hadd)
    exact h
  | none =>
    simp only [hrecord] at hadd
    split_ifs at hadd
    obtain ⟨rfl, _⟩ := Prod.mk.inj (Except.ok.inj hadd)
    have hfree : ¬w.Retains id := by
      rintro ⟨record, hr, _⟩
      rw [hrecord] at hr
      cases hr
    have hret : ∀ i, w.Retains i → i ≠ id := by
      rintro i hr rfl
      exact hfree hr
    refine ⟨fun i hi => ?_, h.borrowed, h.nonce, fun i hi => ?_, fun i hi => ?_,
      fun i hne n hat => ?_, h.keyed, h.distinct⟩
    · rcases mem_keys_zadd.mp hi with rfl | hi
      · exact ⟨fun hb => hfree (h.retainsBorrowed i hb), fun hne n hat =>
          hfree (h.retainsSubmitted i hne n hat)⟩
      · exact h.pending i hi
    · rcases mem_keys_zadd.mp hi with rfl | hi
      · exact ⟨_, Function.update_self .., rfl⟩
      · have hr := h.retainsPending i hi
        exact hr.congr (Function.update_of_ne (hret i hr) ..)
    · have hr := h.retainsBorrowed i hi
      exact hr.congr (Function.update_of_ne (hret i hr) ..)
    · have hr := h.retainsSubmitted i hne n hat
      exact hr.congr (Function.update_of_ne (hret i hr) ..)

theorem expire {id : String} (hexp : (w.records id).any (·.expiring)) :
    Staged { w with records := Function.update w.records id none } := by
  have hret : ∀ i, w.Retains i → Retains { w with records := Function.update w.records id none } i := by
    rintro i ⟨record, hr, hno⟩
    have hne : i ≠ id := by
      rintro rfl
      rw [hr] at hexp
      have hexp : record.expiring = true := hexp
      rw [hno] at hexp
      cases hexp
    exact ⟨record, (Function.update_of_ne hne ..).trans hr, hno⟩
  exact ⟨h.pending, h.borrowed, h.nonce, fun i hi => hret i (h.retainsPending i hi),
    fun i hi => hret i (h.retainsBorrowed i hi),
    fun i hne n hat => hret i (h.retainsSubmitted i hne n hat), h.keyed, h.distinct⟩

theorem drop (id : String) :
    Staged { w with pending := hdel w.pending id, borrowed := hdel w.borrowed id } := by
  refine ⟨fun i hi => ?_, fun i hi => ?_, h.nonce, fun i hi => ?_, fun i hi => ?_,
    h.retainsSubmitted, fun e he => ?_, nodup_keys_hdel h.distinct id⟩
  · have hold := h.pending i (mem_keys_hdel.mp hi).1
    exact ⟨fun hb => hold.1 (mem_keys_hdel.mp hb).1, hold.2⟩
  · exact h.borrowed i (mem_keys_hdel.mp hi).1
  · exact h.retainsPending i (mem_keys_hdel.mp hi).1
  · exact h.retainsBorrowed i (mem_keys_hdel.mp hi).1
  · exact h.keyed e (mem_hdel.mp he).1

theorem addGasBump {s : Submitted}
    (hs : s.transactionId ≠ noOpTransactionId → w.SubmittedAt s.transactionId s.nonce) :
    (w.addGasBump s).Staged := by
  refine h.added fun x hx hne => ?_
  rcases mem_hset.mp hx with rfl | ⟨hx, _⟩
  · exact hs hne
  · exact ⟨x.1, hx, rfl⟩

theorem stays {op : Operation} (hop : w.apply op = .ok w') {id : String}
    {b b' : BorrowedTransactionData} (hb : (id, b) ∈ w.borrowed) (hb' : (id, b') ∈ w'.borrowed) :
    b' = b := by
  have hold : (id, b') ∈ w.borrowed → b' = b := fun hmem => value_unique h.distinct hmem hb
  -- a borrowed transaction is not pending, so no move takes it
  have hmoved : ∀ txs, w.Moved txs w' → b' = b := by
    intro txs hm
    rcases (hm.borrowed _).mp hb' with ⟨tx, htx, heq⟩ | ⟨hmem, _⟩
    · have hid : id ∈ txs.map (·.transactionId) :=
        List.mem_map.mpr ⟨tx, htx, (congrArg Prod.fst heq).symm⟩
      exact absurd (mem_keys.mpr ⟨b, hb⟩) (h.pending id (hm.were id hid)).1
    · exact hold hmem
  cases op with
  | moveIncremented txs => exact hmoved txs (moveIncremented_ok hop).1
  | moveRecycled txs => exact hmoved txs (moveRecycled_ok hop).1
  | processBorrowed results =>
    obtain rfl := Except.ok.inj hop
    exact hold (((processBorrowed_spec results).borrowed _).mp hb').1
  | cleanSubmitted confirmed counts => exact hold ((cleanSubmitted_ok hop).borrowed ▸ hb')
  | resetNonces count =>
    have hop : w.resetNonces count = .ok w' := hop
    unfold resetNonces at hop
    split_ifs at hop
    obtain rfl := Except.ok.inj hop
    exact hold hb'
  | cleanRecycled =>
    obtain ⟨_, _, _, heq, _⟩ := cleanRecycled_ok hop
    rw [heq] at hb'
    exact hold hb'
  | updateCached count | processNoop noops =>
    obtain rfl := Except.ok.inj hop
    exact hold hb'
  | failPending ids =>
    obtain ⟨_, rfl⟩ := failPending_ok hop
    exact hold hb'

end Staged

end EngineCore.Eoa.Wallet
