import EngineCore.Eoa.Changes

/-!
# One intent for each held nonce

* **`Wallet.Allotted.apply`**: operations that fit keep the nonces in order; `allocates_free`: what they allocate was
  free.
-/

namespace EngineCore.Eoa

open Redis Twmq

namespace Wallet

variable {w w' : Wallet} {n : ℕ} {id : String}

/-- The nonce is held by the transaction, borrowed or submitted; noops hold under the reserved
id. -/
def HeldBy (w : Wallet) (n : ℕ) (id : String) : Prop :=
  w.SubmittedAt id n ∨ ∃ b, (id, b) ∈ w.borrowed ∧ b.signed.nonce = n

/-- The counter of the next nonce; a missing one counts as zero. -/
def next (w : Wallet) : ℕ := w.optimistic.getD 0

structure Allotted (w : Wallet) : Prop where
  single : ∀ n id id', w.HeldBy n id → w.HeldBy n id' → id = id'
  above : ∀ n id, w.HeldBy n id → n < w.next
  recycled : ∀ n ∈ w.recycled, n < w.next ∧ ∀ id, ¬w.HeldBy n id
  bounded : w.next < 2 ^ 64
  counted : ∀ c, w.cached = some c → c < 2 ^ 64

theorem lt_next : n < w.next ↔ ∃ o, w.optimistic = some o ∧ n < o := by
  unfold next
  cases w.optimistic <;> simp

namespace Allotted

theorem empty : Allotted {} := by
  have hnone : ∀ n id, ¬HeldBy {} n id := by
    rintro n id (⟨row, ⟨⟩, _⟩ | ⟨b, ⟨⟩, _⟩)
  exact ⟨fun n id _ hid => absurd hid (hnone n id), fun n id hid => absurd hid (hnone n id),
    by rintro n ⟨⟩, Nat.two_pow_pos 64, by rintro c ⟨⟩⟩

theorem grow (h : w.Allotted) (New : ℕ → String → Prop)
    (hheld : ∀ n id, w'.HeldBy n id → w.HeldBy n id ∨ New n id)
    (hnew : ∀ n id id', New n id → New n id' → id = id')
    (hold : ∀ n id id', New n id → w.HeldBy n id' → id' = id)
    (habove : ∀ n id, New n id → n < w'.next) (hnext : w.next ≤ w'.next)
    (hrecycled : ∀ n ∈ w'.recycled, n ∈ w.recycled ∧ ∀ id, ¬New n id) (hbounded : w'.next < 2 ^ 64)
    (hcounted : ∀ c, w'.cached = some c → c < 2 ^ 64) : w'.Allotted := by
  refine ⟨fun n id id' hid hid' => ?_, fun n id hid => ?_, fun n hn => ?_, hbounded, hcounted⟩
  · rcases hheld n id hid with hid | hid
    · rcases hheld n id' hid' with hid' | hid'
      · exact h.single n id id' hid hid'
      · exact hold n id' id hid' hid
    · rcases hheld n id' hid' with hid' | hid'
      · exact (hold n id id' hid hid').symm
      · exact hnew n id id' hid hid'
  · rcases hheld n id hid with hid | hid
    · exact (h.above n id hid).trans_le hnext
    · exact habove n id hid
  · obtain ⟨hin, hnot⟩ := hrecycled n hn
    refine ⟨(h.recycled n hin).1.trans_le hnext, fun id hid => ?_⟩
    rcases hheld n id hid with hid | hid
    · exact (h.recycled n hin).2 id hid
    · exact hnot id hid

theorem shrink (h : w.Allotted) (hheld : ∀ n id, w'.HeldBy n id → w.HeldBy n id)
    (hnext : w.next ≤ w'.next) (hrecycled : ∀ n ∈ w'.recycled, n ∈ w.recycled)
    (hbounded : w'.next < 2 ^ 64) (hcounted : ∀ c, w'.cached = some c → c < 2 ^ 64) :
    w'.Allotted :=
  h.grow (fun _ _ => False) (fun n id hid => .inl (hheld n id hid)) (fun _ _ _ hno => hno.elim)
    (fun _ _ _ hno => hno.elim) (fun _ _ hno => hno.elim) hnext
    (fun n hn => ⟨hrecycled n hn, fun _ hno => hno⟩) hbounded hcounted

end Allotted

theorem Moved.heldBy {txs : List BorrowedTransactionData} (hm : w.Moved txs w')
    (h : w'.HeldBy n id) :
    w.HeldBy n id ∨ ∃ tx ∈ txs, tx.transactionId = id ∧ tx.signed.nonce = n := by
  rcases h with ⟨row, hrow, hid⟩ | ⟨b, hb, hn⟩
  · rw [hm.submitted] at hrow
    exact .inl (.inl ⟨row, hrow, hid⟩)
  · rcases (hm.borrowed _).mp hb with ⟨tx, htx, heq⟩ | ⟨hold, _⟩
    · obtain ⟨rfl, rfl⟩ := Prod.mk.inj heq
      exact .inr ⟨b, htx, rfl, hn⟩
    · exact .inl (.inr ⟨b, hold, hn⟩)

theorem Allotted.moved {txs : List BorrowedTransactionData} (h : w.Allotted) (hm : w.Moved txs w')
    (hfree : ∀ tx ∈ txs, ∀ id, ¬w.HeldBy tx.signed.nonce id)
    (hbelow : ∀ tx ∈ txs, tx.signed.nonce < w'.next) (hnext : w.next ≤ w'.next)
    (hrecycled : ∀ n ∈ w'.recycled, n ∈ w.recycled ∧ n ∉ txs.map (·.signed.nonce))
    (hbounded : w'.next < 2 ^ 64) : w'.Allotted := by
  refine h.grow (fun n id => ∃ tx ∈ txs, tx.transactionId = id ∧ tx.signed.nonce = n)
    (fun n id hid => hm.heldBy hid) ?_ ?_ ?_ hnext (fun n hn => ⟨(hrecycled n hn).1, ?_⟩) hbounded ?_
  · rintro n _ _ ⟨tx, htx, rfl, hn⟩ ⟨tx', htx', rfl, hn'⟩
    rw [List.inj_on_of_nodup_map hm.nonces htx htx' (hn.trans hn'.symm)]
  · rintro n _ id' ⟨tx, htx, rfl, rfl⟩ hid'
    exact absurd hid' (hfree tx htx id')
  · rintro n _ ⟨tx, htx, rfl, rfl⟩
    exact hbelow tx htx
  · rintro _ ⟨tx, htx, rfl, rfl⟩
    exact (hrecycled _ hn).2 (List.mem_map.mpr ⟨tx, htx, rfl⟩)
  · rw [hm.cached]
    exact h.counted

end Wallet

/-- The arguments of the operation are about what the wallet holds: a result is for the nonce its
transaction has, and at most one for each transaction; noops take free nonces, one each; a
transaction count is above the cached one. -/
def Operation.Fits (w : Wallet) : Operation → Prop
  | .processBorrowed results => (results.map (·.transaction.transactionId)).Nodup ∧
      ∀ r ∈ results, ∀ b, (r.transaction.transactionId, b) ∈ w.borrowed →
        b.signed.nonce = r.transaction.nonce
  | .processNoop noops => (noops.map (·.nonce)).Nodup ∧
      ∀ n ∈ noops, n.nonce < w.next ∧ ∀ id, ¬w.HeldBy n.nonce id
  | .updateCached count => count < 2 ^ 64 ∧ ∀ c, w.cached = some c → c < count
  | .resetNonces count => count < 2 ^ 64
  | _ => True

/-- The nonces an operation gives to transactions, or to noops. -/
def Operation.allocates : Operation → List ℕ
  | .moveIncremented txs => txs.map (·.signed.nonce)
  | .moveRecycled txs => txs.map (·.signed.nonce)
  | _ => []

namespace Wallet

variable {w w' : Wallet} {n : ℕ} {id : String}

/-- What the moves allocate is the next nonce or later, or a recycled one. -/
theorem allocates_cases {op : Operation} (hop : w.apply op = .ok w') (hn : n ∈ op.allocates) :
    w.next ≤ n ∨ n ∈ w.recycled := by
  cases op with
  | moveIncremented txs =>
    obtain ⟨_, _, o, o', ho, _, _, _, hnonces⟩ := moveIncremented_ok hop
    obtain ⟨tx, htx, rfl⟩ := List.mem_map.mp hn
    refine .inl ?_
    unfold next
    rw [ho]
    exact (hnonces tx htx).1
  | moveRecycled txs =>
    obtain ⟨_, _, hrecycled, _⟩ := moveRecycled_ok hop
    obtain ⟨tx, htx, rfl⟩ := List.mem_map.mp hn
    exact .inr (hrecycled tx htx)
  | _ => cases hn

/-- **What the moves allocate was free.** -/
theorem Allotted.allocates_free (h : w.Allotted) {op : Operation} (hop : w.apply op = .ok w')
    (hn : n ∈ op.allocates) : ¬w.HeldBy n id := by
  intro hid
  rcases allocates_cases hop hn with hle | hin
  · exact absurd (h.above n id hid) hle.not_gt
  · exact (h.recycled n hin).2 id hid

theorem Processed.heldBy {results : List SubmissionResult} (hp : w.Processed results w')
    (hfit : ∀ r ∈ results, ∀ b, (r.transaction.transactionId, b) ∈ w.borrowed →
      b.signed.nonce = r.transaction.nonce) (h : w'.HeldBy n id) : w.HeldBy n id := by
  rcases h with ⟨row, hrow, hid⟩ | ⟨b, hb, hn⟩
  · rcases hp.submitted _ hrow with hrow | ⟨r, hr, _, hmem, heq⟩
    · exact .inl ⟨row, hrow, hid⟩
    · obtain ⟨rfl, rfl⟩ := Prod.mk.inj heq
      obtain rfl : r.transaction.transactionId = id := hid
      obtain ⟨b, hb⟩ := mem_keys.mp hmem
      exact .inr ⟨b, hb, hfit r hr b hb⟩
  · exact .inr ⟨b, ((hp.borrowed _).mp hb).1, hn⟩

theorem Cleared.heldBy {e : Evidence} {rows : List (Row × ℕ)} (hc : w.Cleared e rows w')
    (h : w'.HeldBy n id) : w.HeldBy n id := by
  rcases h with ⟨row, hrow, hid⟩ | ⟨b, hb, hn⟩
  · exact .inl ⟨row, ((hc.submitted _).mp hrow).1, hid⟩
  · rw [hc.borrowed] at hb
    exact .inr ⟨b, hb, hn⟩

theorem processNoop_heldBy {noops : List Signed} (h : (w.processNoop noops).HeldBy n id) :
    w.HeldBy n id ∨ id = noOpTransactionId ∧ ∃ s ∈ noops, s.nonce = n := by
  rcases h with ⟨row, hrow, hid⟩ | ⟨b, hb, hn⟩
  · rcases processNoop_submitted hrow with hrow | ⟨s, hs, heq⟩
    · exact .inl (.inl ⟨row, hrow, hid⟩)
    · obtain ⟨rfl, rfl⟩ := Prod.mk.inj heq
      exact .inr ⟨hid.symm, s, hs, rfl⟩
  · exact .inl (.inr ⟨b, hb, hn⟩)

theorem updateCached_next (count : ℕ) : (w.updateCached count).next = max w.next count := by
  unfold updateCached next
  cases w.optimistic with
  | none => exact (Nat.zero_max count).symm
  | some o => rfl

namespace Allotted

theorem cleanRecycled (h : w.Allotted) (hop : w.cleanRecycled = .ok w') : w'.Allotted := by
  obtain ⟨count, next, _, heq, hsub, hrecycled, _, _, hsubmitted, hborrowed⟩ := cleanRecycled_ok hop
  have hheld : ∀ n id, w'.HeldBy n id → w.HeldBy n id := by
    rw [heq]
    exact fun _ _ hid => hid
  have hlow : ∀ n, n < w.next → n < next → n < w'.next := by
    intro n hn hnext
    rw [heq]
    unfold Wallet.next at hn ⊢
    cases ho : w.optimistic with
    | none =>
      rw [ho] at hn
      exact absurd hn (Nat.not_lt_zero n)
    | some o =>
      rw [ho] at hn
      exact lt_min hn hnext
  have hle : w'.next ≤ w.next := by
    rw [heq]
    unfold Wallet.next
    cases w.optimistic with
    | none => exact le_rfl
    | some o => exact min_le_left o next
  have hbound : ∀ n, n < w.next → n + 1 < 2 ^ 64 := by
    intro n hn
    have := h.bounded
    omega
  refine ⟨fun n id id' hid hid' => h.single n id id' (hheld n id hid) (hheld n id' hid'),
    fun n id hid => ?_, fun n hn => ?_, hle.trans_lt h.bounded, ?_⟩
  · have hbelow := h.above n id (hheld n id hid)
    refine hlow n hbelow ?_
    rcases hheld n id hid with ⟨row, hrow, _⟩ | ⟨b, hb, rfl⟩
    · exact hsubmitted _ hrow (hbound n hbelow)
    · exact hborrowed _ hb (hbound _ hbelow)
  · obtain ⟨hbelow, hfree⟩ := h.recycled n (hsub n hn)
    exact ⟨hlow n hbelow (hrecycled n hn (hbound n hbelow)), fun id hid => hfree id (hheld n id hid)⟩
  · rw [heq]
    exact h.counted

/-- **Operations that fit keep one intent for each held nonce.** -/
theorem apply (h : w.Allotted) {op : Operation} (hop : w.apply op = .ok w') (hfit : op.Fits w) :
    w'.Allotted := by
  have hfree : ∀ n ∈ op.allocates, ∀ id, ¬w.HeldBy n id := fun n hn id => h.allocates_free hop hn
  cases op with
  | moveIncremented txs =>
    obtain ⟨hm, hrec, o, o', ho, ho', hlt, hmax, hnonces⟩ := moveIncremented_ok hop
    have hnext : w.next = o := by
      unfold next
      rw [ho]
      rfl
    have hnext' : w'.next = o' := by
      unfold next
      rw [ho']
      rfl
    refine h.moved hm (fun tx htx => hfree _ (List.mem_map.mpr ⟨tx, htx, rfl⟩)) (fun tx htx => ?_) ?_
      (fun n hn => ?_) ?_
    · rw [hnext']
      exact (hnonces tx htx).2
    · rw [hnext, hnext']
      exact hlt.le
    · rw [hrec] at hn
      refine ⟨hn, fun hmem => ?_⟩
      obtain ⟨tx, htx, rfl⟩ := List.mem_map.mp hmem
      have hlow := (h.recycled _ hn).1
      rw [hnext] at hlow
      exact absurd hlow (hnonces tx htx).1.not_gt
    · rw [hnext']
      exact hmax
  | moveRecycled txs =>
    obtain ⟨hm, ho, hrecycled, hleft⟩ := moveRecycled_ok hop
    have hnext : w'.next = w.next := congrArg (Option.getD · 0) ho
    refine h.moved hm (fun tx htx => hfree _ (List.mem_map.mpr ⟨tx, htx, rfl⟩)) (fun tx htx => ?_)
      hnext.ge (fun n hn => (hleft n).mp hn) (hnext ▸ h.bounded)
    rw [hnext]
    exact (h.recycled _ (hrecycled tx htx)).1
  | processBorrowed results =>
    obtain rfl := Except.ok.inj hop
    have hp := processBorrowed_spec (w := w) results
    have hnext : (w.processBorrowed results).next = w.next :=
      congrArg (Option.getD · 0) hp.optimistic
    refine h.shrink (fun n id hid => hp.heldBy hfit.2 hid) hnext.ge (fun n hn => ?_)
      (hnext ▸ h.bounded) ?_
    · rwa [hp.recycled] at hn
    · rw [hp.cached]
      exact h.counted
  | cleanSubmitted confirmed counts =>
    have hc := cleanSubmitted_ok hop
    have hnext : w'.next = w.next := congrArg (Option.getD · 0) hc.optimistic
    refine h.shrink (fun n id hid => hc.heldBy hid) hnext.ge (fun n hn => ?_) (hnext ▸ h.bounded) ?_
    · rwa [hc.recycled] at hn
    · rw [hc.cached]
      exact h.counted
  | resetNonces count =>
    have hop : w.resetNonces count = .ok w' := hop
    unfold resetNonces at hop
    split_ifs at hop with hempty
    obtain rfl := Except.ok.inj hop
    have hnone : ∀ n id, ¬HeldBy { w with
        optimistic := some count, cached := some count, recycled := [] } n id := by
      rintro n id (⟨row, hrow, _⟩ | ⟨b, hb, _⟩)
      · rw [hempty.1] at hrow
        cases hrow
      · rw [hempty.2] at hb
        cases hb
    refine ⟨fun n id _ hid => absurd hid (hnone n id), fun n id hid => absurd hid (hnone n id), ?_,
      hfit, ?_⟩
    · rintro n ⟨⟩
    · rintro c ⟨⟩
      exact hfit
  | cleanRecycled => exact h.cleanRecycled hop
  | updateCached count =>
    obtain rfl := Except.ok.inj hop
    refine h.shrink (fun n id hid => hid) ?_ (fun n hn => hn) ?_ ?_
    · rw [updateCached_next]
      exact le_max_left _ _
    · rw [updateCached_next]
      exact max_lt h.bounded hfit.1
    · rintro c ⟨⟩
      exact hfit.1
  | processNoop noops =>
    obtain rfl := Except.ok.inj hop
    refine h.grow (fun n id => id = noOpTransactionId ∧ ∃ s ∈ noops, s.nonce = n)
      (fun n id hid => processNoop_heldBy hid) ?_ ?_ ?_ le_rfl (fun n hn => ?_) h.bounded h.counted
    · rintro n id id' ⟨rfl, _⟩ ⟨rfl, _⟩
      rfl
    · rintro n id id' ⟨rfl, s, hs, rfl⟩ hid'
      exact absurd hid' ((hfit.2 s hs).2 id')
    · rintro n id ⟨_, s, hs, rfl⟩
      exact (hfit.2 s hs).1
    · obtain ⟨hin, hnot⟩ := mem_sremAll.mp hn
      refine ⟨hin, ?_⟩
      rintro id ⟨_, s, hs, rfl⟩
      exact hnot (List.mem_map.mpr ⟨s, hs, rfl⟩)
  | failPending ids =>
    obtain ⟨_, rfl⟩ := failPending_ok hop
    exact h.shrink (fun n id hid => hid) le_rfl (fun n hn => hn) h.bounded h.counted

theorem addGasBump (h : w.Allotted) {s : Submitted}
    (hs : w.HeldBy s.nonce s.transactionId) : (w.addGasBump s).Allotted := by
  refine h.shrink (fun n id hid => ?_) le_rfl (fun n hn => hn) h.bounded h.counted
  rcases hid with ⟨row, hrow, hid⟩ | hb
  · rcases mem_hset.mp hrow with heq | ⟨hrow, _⟩
    · obtain ⟨rfl, rfl⟩ := Prod.mk.inj heq
      obtain rfl : s.transactionId = id := hid
      exact hs
    · exact .inl ⟨row, hrow, hid⟩
  · exact .inr hb

theorem drop (h : w.Allotted) (id : String) :
    Allotted { w with pending := hdel w.pending id, borrowed := hdel w.borrowed id } := by
  refine h.shrink (fun n i hi => ?_) le_rfl (fun n hn => hn) h.bounded h.counted
  rcases hi with hs | ⟨b, hb, hn⟩
  · exact .inl hs
  · exact .inr ⟨b, (mem_hdel.mp hb).1, hn⟩

end Allotted

end Wallet

end EngineCore.Eoa
