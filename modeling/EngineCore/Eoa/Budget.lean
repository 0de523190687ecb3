import EngineCore.Eoa.Crew

/-!
# The rows of one nonce

The cleanup of settled rows reads every row at a nonce with a receipt, and refuses more of them
than its budget. Rows come from the submission of a borrowed transaction, from noops, and from gas
bumps of a stalled nonce.

* `Wallet.rowsAt`, `Wallet.Grouped`: a borrowed nonce has no row, and no nonce more than the budget;
* **`Grouped.apply`**: every operation of the atomic store keeps this: the first row of a nonce is
  the only one an operation adds;
* `Crew.Paced`: a gas bump is recorded only at a nonce that has room for it;
* **`paced_within_budget`**: then the cleanup of one receipt always finds a group within its budget;
* **`stalled_over_budget`**: a nonce that stays stalled gets more rows than that.
-/

namespace EngineCore.Eoa

open Redis Twmq
open Except (bind_ok pure_ok)

namespace Wallet

variable {w w' : Wallet} {n : ℕ}

def rowsAt (w : Wallet) (nonce : ℕ) : List (Row × ℕ) := w.submitted.filter fun entry => entry.2 = nonce

theorem mem_rowsAt {x : Row × ℕ} : x ∈ w.rowsAt n ↔ x ∈ w.submitted ∧ x.2 = n := by
  unfold rowsAt
  rw [List.mem_filter, decide_eq_true_iff]

structure Grouped (w : Wallet) : Prop where
  distinct : (keys w.submitted).Nodup
  apart : ∀ e ∈ w.borrowed, ∀ row, (row, e.2.signed.nonce) ∉ w.submitted
  budget : ∀ n, (w.rowsAt n).length ≤ cleanupGroupBudget

theorem heldBy_of_row {row : Row} (h : (row, n) ∈ w.submitted) : w.HeldBy n row.transactionId :=
  .inl ⟨row, h, rfl⟩

theorem nodup_rowsAt (h : (keys w.submitted).Nodup) (n : ℕ) : (w.rowsAt n).Nodup :=
  (List.Nodup.of_map Prod.fst h).filter _

theorem length_rowsAt_le (h : (keys w'.submitted).Nodup) {l : List (Row × ℕ)}
    (hsub : ∀ x ∈ w'.rowsAt n, x ∈ l) : (w'.rowsAt n).length ≤ l.length :=
  (List.subperm_of_subset (nodup_rowsAt h n) hsub).length_le

namespace Grouped

theorem empty : Grouped {} :=
  ⟨List.nodup_nil, by rintro e ⟨⟩, fun _ => Nat.zero_le _⟩

theorem shrink (h : w.Grouped) (hd : (keys w'.submitted).Nodup)
    (hb : ∀ e ∈ w'.borrowed, e ∈ w.borrowed) (hs : ∀ x ∈ w'.submitted, x ∈ w.submitted) :
    w'.Grouped := by
  refine ⟨hd, fun e he row hrow => h.apart e (hb e he) row (hs _ hrow), fun n => ?_⟩
  refine (length_rowsAt_le hd fun x hx => ?_).trans (h.budget n)
  obtain ⟨hx, hn⟩ := mem_rowsAt.mp hx
  exact mem_rowsAt.mpr ⟨hs x hx, hn⟩

theorem congr (h : w.Grouped) (hb : w'.borrowed = w.borrowed) (hs : w'.submitted = w.submitted) :
    w'.Grouped :=
  h.shrink (hs ▸ h.distinct) (fun _ he => hb ▸ he) fun _ hx => hs ▸ hx

theorem moved (h : w.Grouped) {txs : List BorrowedTransactionData} (hm : w.Moved txs w')
    (hfree : ∀ tx ∈ txs, ∀ id, ¬w.HeldBy tx.signed.nonce id) : w'.Grouped := by
  refine ⟨hm.submitted ▸ h.distinct, fun e he row hrow => ?_, fun n => ?_⟩
  · rw [hm.submitted] at hrow
    rcases (hm.borrowed e).mp he with ⟨tx, htx, rfl⟩ | ⟨he, _⟩
    · exact hfree tx htx _ (heldBy_of_row hrow)
    · exact h.apart e he row hrow
  · unfold rowsAt
    rw [hm.submitted]
    exact h.budget n

theorem added (h : w.Grouped) (hd : (keys w'.submitted).Nodup)
    (hb : ∀ e ∈ w'.borrowed, e ∈ w.borrowed) {New : Row × ℕ → Prop}
    (hs : ∀ x ∈ w'.submitted, x ∈ w.submitted ∨ New x)
    (hold : ∀ x, New x → ∀ row, (row, x.2) ∉ w.submitted)
    (hone : ∀ x y, New x → New y → x.2 = y.2 → x = y)
    (hborrowed : ∀ e ∈ w'.borrowed, ∀ x, New x → e.2.signed.nonce ≠ x.2) : w'.Grouped := by
  refine ⟨hd, fun e he row hrow => ?_, fun n => ?_⟩
  · rcases hs _ hrow with hrow | hnew
    · exact h.apart e (hb e he) row hrow
    · exact hborrowed e he _ hnew rfl
  · by_cases hex : ∃ x, New x ∧ x.2 = n
    · obtain ⟨x, hx, rfl⟩ := hex
      have hsub : ∀ y ∈ w'.rowsAt x.2, y ∈ [x] := by
        intro y hy
        obtain ⟨hy, hn⟩ := mem_rowsAt.mp hy
        rcases hs y hy with hy | hy
        · exact absurd (show (y.1, x.2) ∈ w.submitted from hn ▸ hy) (hold x hx y.1)
        · exact List.mem_singleton.mpr (hone y x hy hx hn)
      exact (length_rowsAt_le hd hsub).trans (show 1 ≤ cleanupGroupBudget by decide)
    · refine (length_rowsAt_le hd fun y hy => ?_).trans (h.budget n)
      obtain ⟨hy, hn⟩ := mem_rowsAt.mp hy
      refine mem_rowsAt.mpr ⟨(hs y hy).resolve_right fun hnew => hex ⟨y, hnew, hn⟩, hn⟩

end Grouped

/-! ## The operations -/

theorem nodup_processBorrowed (h : (keys w.submitted).Nodup) (results : List SubmissionResult) :
    (keys (w.processBorrowed results).submitted).Nodup := by
  have key : ∀ (rs : List SubmissionResult) (w : Wallet), (keys w.submitted).Nodup →
      (keys (rs.foldl processResult w).submitted).Nodup := by
    intro rs
    induction rs with
    | nil => exact fun _ h => h
    | cons r rs ih =>
      intro w h
      refine ih _ ?_
      unfold processResult
      split_ifs
      · exact h
      · exact nodup_keys_hset h _ _
  exact key _ w h

theorem nodup_processNoop (h : (keys w.submitted).Nodup) (noops : List Signed) :
    (keys (w.processNoop noops).submitted).Nodup := by
  have key : ∀ (ns : List Signed) (z : List (Row × ℕ)), (keys z).Nodup →
      (keys (ns.foldl (fun z n => hset z (Row.noop n.hash) n.nonce) z)).Nodup := by
    intro ns
    induction ns with
    | nil => exact fun _ h => h
    | cons n ns ih => exact fun z h => ih _ (nodup_keys_hset h _ _)
  exact key noops w.submitted h

theorem outcome_submitted (a : Cleanup) (e : Evidence) (row : Row) (nonce : ℕ) :
    (a.outcome e row nonce).wallet.submitted = a.wallet.submitted := by
  unfold Cleanup.outcome
  dsimp only
  split
  · rfl
  · split
    · rfl
    · split <;> rfl

theorem nodup_cleaned (h : (keys w.submitted).Nodup) (e : Evidence) (rows : List (Row × ℕ)) :
    (keys (w.cleaned e rows).submitted).Nodup := by
  have key : ∀ (rows : List (Row × ℕ)) (a : Cleanup), (keys a.wallet.submitted).Nodup →
      (keys (rows.foldl (Cleanup.row e) a).wallet.submitted).Nodup := by
    intro rows
    induction rows with
    | nil => exact fun _ h => h
    | cons entry rows ih =>
      intro a ha
      refine ih _ ?_
      have hdecided : (keys (if entry.1.transactionId ∈ a.processed then a
          else a.outcome e entry.1 entry.2).wallet.submitted).Nodup := by
        split
        · exact ha
        · rw [outcome_submitted]
          exact ha
      unfold Cleanup.row
      dsimp only
      split
      · split
        · exact nodup_keys_hdel hdecided _
        · exact hdecided
      · exact ha
  exact key rows { wallet := w } h

theorem Grouped.processed (h : w.Grouped) (hal : w.Allotted) {results : List SubmissionResult}
    (hfit : (Operation.processBorrowed results).Fits w) : (w.processBorrowed results).Grouped := by
  have hp := processBorrowed_spec (w := w) results
  -- a new row is at the nonce of its borrowed transaction
  have hheld : ∀ r ∈ results, r.transaction.transactionId ∈ keys w.borrowed →
      ∃ b, (r.transaction.transactionId, b) ∈ w.borrowed ∧ b.signed.nonce = r.transaction.nonce := by
    intro r hr hmem
    obtain ⟨b, hb⟩ := mem_keys.mp hmem
    exact ⟨b, hb, hfit.2 r hr b hb⟩
  refine h.added (nodup_processBorrowed h.distinct results)
    (fun e he => ((hp.borrowed e).mp he).1) hp.submitted ?_ ?_ ?_
  · rintro x ⟨r, hr, _, hmem, rfl⟩ row hrow
    obtain ⟨b, hb, hn⟩ := hheld r hr hmem
    exact h.apart _ hb row (hn ▸ hrow)
  · rintro x y ⟨r, hr, _, hmem, rfl⟩ ⟨r', hr', _, hmem', rfl⟩ hn
    have hn : r.transaction.nonce = r'.transaction.nonce := hn
    obtain ⟨b, hb, hbn⟩ := hheld r hr hmem
    obtain ⟨b', hb', hbn'⟩ := hheld r' hr' hmem'
    have hid := hal.single r.transaction.nonce _ _ (.inr ⟨b, hb, hbn⟩)
      (.inr ⟨b', hb', hbn'.trans hn.symm⟩)
    rw [List.inj_on_of_nodup_map hfit.1 hr hr' hid]
  · rintro e he x ⟨r, hr, hu, hmem, rfl⟩ hn
    obtain ⟨he, hnot⟩ := (hp.borrowed e).mp he
    obtain ⟨b, hb, hbn⟩ := hheld r hr hmem
    exact hnot r hr hu (hal.single r.transaction.nonce _ _ (.inr ⟨e.2, he, hn⟩)
      (.inr ⟨b, hb, hbn⟩))

theorem Grouped.noops (h : w.Grouped) {noops : List Signed}
    (hfit : (Operation.processNoop noops).Fits w) : (w.processNoop noops).Grouped := by
  refine h.added (nodup_processNoop h.distinct noops) (fun e he => he)
    (fun x hx => processNoop_submitted hx) ?_ ?_ ?_
  · rintro x ⟨n, hn, rfl⟩ row hrow
    exact (hfit.2 n hn).2 _ (heldBy_of_row hrow)
  · rintro x y ⟨n, hn, rfl⟩ ⟨n', hn', rfl⟩ heq
    rw [List.inj_on_of_nodup_map hfit.1 hn hn' heq]
  · rintro e he x ⟨n, hn, rfl⟩ heq
    exact (hfit.2 n hn).2 e.1 (.inr ⟨e.2, he, heq⟩)

/-- **Every operation keeps the rows of a nonce within the budget.** -/
theorem Grouped.apply (h : w.Grouped) (hal : w.Allotted) {op : Operation}
    (hop : w.apply op = .ok w') (hfit : op.Fits w) : w'.Grouped := by
  cases op with
  | moveIncremented txs =>
    refine h.moved (moveIncremented_ok hop).1 fun tx htx id => ?_
    exact hal.allocates_free hop (List.mem_map.mpr ⟨tx, htx, rfl⟩)
  | moveRecycled txs =>
    refine h.moved (moveRecycled_ok hop).1 fun tx htx id => ?_
    exact hal.allocates_free hop (List.mem_map.mpr ⟨tx, htx, rfl⟩)
  | processBorrowed results =>
    obtain rfl := Except.ok.inj hop
    exact h.processed hal hfit
  | cleanSubmitted confirmed counts =>
    have hc := cleanSubmitted_ok hop
    refine h.shrink ?_ (fun e he => hc.borrowed ▸ he) fun x hx => ((hc.submitted x).mp hx).1
    have hop : w.cleanSubmitted confirmed counts = .ok w' := hop
    unfold cleanSubmitted at hop
    simp only [bind_ok, pure_ok] at hop
    obtain ⟨_, -, _, -, _, -, rfl⟩ := hop
    exact nodup_cleaned h.distinct _ _
  | resetNonces count =>
    have hop : w.resetNonces count = .ok w' := hop
    unfold resetNonces at hop
    split_ifs at hop
    obtain rfl := Except.ok.inj hop
    exact h.congr rfl rfl
  | cleanRecycled =>
    obtain ⟨_, _, _, heq, _⟩ := cleanRecycled_ok hop
    rw [heq]
    exact h.congr rfl rfl
  | updateCached count =>
    obtain rfl := Except.ok.inj hop
    exact h.congr rfl rfl
  | processNoop noops =>
    obtain rfl := Except.ok.inj hop
    exact h.noops hfit
  | failPending ids =>
    obtain ⟨_, rfl⟩ := failPending_ok hop
    exact h.congr rfl rfl

theorem Grouped.addGasBump (h : w.Grouped) {s : Submitted}
    (hat : w.SubmittedAt s.transactionId s.nonce)
    (hroom : (w.rowsAt s.nonce).length < cleanupGroupBudget) : (w.addGasBump s).Grouped := by
  have hd : (keys (w.addGasBump s).submitted).Nodup := nodup_keys_hset h.distinct _ _
  refine ⟨hd, fun e he row hrow => ?_, fun n => ?_⟩
  · rcases mem_hset.mp hrow with heq | ⟨hrow, _⟩
    · obtain ⟨_, hn⟩ := Prod.mk.inj heq
      obtain ⟨old, hold, _⟩ := hat
      exact h.apart e he old (hn ▸ hold)
    · exact h.apart e he row hrow
  · have hsub : ∀ x ∈ (w.addGasBump s).rowsAt n, x = (s.row, s.nonce) ∧ s.nonce = n ∨
        x ∈ w.rowsAt n := by
      intro x hx
      obtain ⟨hx, hn⟩ := mem_rowsAt.mp hx
      rcases mem_hset.mp hx with rfl | ⟨hx, _⟩
      · exact .inl ⟨rfl, hn⟩
      · exact .inr (mem_rowsAt.mpr ⟨hx, hn⟩)
    by_cases hn : s.nonce = n
    · subst hn
      refine (length_rowsAt_le (l := (s.row, s.nonce) :: w.rowsAt s.nonce) hd
        fun x hx => ?_).trans hroom
      rcases hsub x hx with ⟨rfl, _⟩ | hx
      · exact List.mem_cons_self
      · exact List.mem_cons_of_mem _ hx
    · refine (length_rowsAt_le hd fun x hx => ?_).trans (h.budget n)
      exact (hsub x hx).resolve_left fun heq => hn heq.2

theorem length_receiptRows_le (c : ConfirmedTransaction) (counts : TransactionCounts) :
    (w.receiptRows [c] counts).length ≤ (w.rowsAt c.nonce).length := by
  unfold receiptRows rowsAt
  rw [List.length_insertionSort]
  refine (List.monotone_filter_right _ fun entry hentry => ?_).length_le
  simp only [List.map_cons, List.map_nil, List.mem_singleton, decide_eq_true_eq] at hentry ⊢
  exact hentry.2

theorem cleanSubmitted_within (c : ConfirmedTransaction) (counts : TransactionCounts)
    (h : (w.rowsAt c.nonce).length ≤ cleanupGroupBudget) :
    w.cleanSubmitted [c] counts ≠ .error (.redisError "Finality cleanup group budget exceeded") := by
  have hgroup := (w.length_receiptRows_le c counts).trans h
  unfold cleanSubmitted
  simp only [demand, hgroup, if_true]
  split_ifs <;> simp [bind, Except.bind, pure, Except.pure]

end Wallet

/-! ## Every run -/

namespace Crew

/-- A gas bump finds room at the nonce of the row it is for. -/
def HasRoom (s : Crew) : Event → Prop
  | .bump t _ _ _ => ∀ m id nonce, s.memory t = some m → m.row = some (id, nonce) →
      (s.wallet.rowsAt nonce).length < cleanupGroupBudget
  | _ => True

def Paced : Crew → List Event → Prop
  | _, [] => True
  | s, e :: es => s.HasRoom e ∧ ∀ s', s.step e = some s' → s'.Paced es

theorem paced_append {s : Crew} {es es' : List Event} (h : s.Paced es)
    (h' : ∀ s', s.after es = some s' → s'.Paced es') : s.Paced (es ++ es') := by
  induction es generalizing s with
  | nil => exact h' s rfl
  | cons e es ih =>
    refine ⟨h.1, fun s₁ hstep => ih (h.2 s₁ hstep) fun s' hs' => h' s' ?_⟩
    rw [after, hstep]
    exact hs'

theorem after_cycle {s : Crew} {m : Memory} {row : Row} {nonce : ℕ} (t : LeaseToken)
    (hash : String) (queuedAt submittedAt : ℕ)
    (hrow : (row, nonce) ∈ s.wallet.submitted ∧ row.Readable)
    (hlock : s.wallet.lock = some t) (hm : s.memory t = some m) :
    ∃ s', s.after [.inspect t row nonce, .bump t hash queuedAt submittedAt] = some s' ∧
      s'.wallet = s.wallet.addGasBump ⟨nonce, hash, row.transactionId, submittedAt, queuedAt⟩ ∧
      (s'.memory t).isSome := by
  let seen := s.remember t { m with row := some (row.transactionId, nonce) }
  have hseen : seen.memory t = some { m with row := some (row.transactionId, nonce) } :=
    Function.update_self _ _ _
  let bumped : Submitted := ⟨nonce, hash, row.transactionId, submittedAt, queuedAt⟩
  refine ⟨{ seen with wallet := s.wallet.addGasBump bumped }.remember t { cached := m.cached },
    ?_, rfl, ?_⟩
  · have hinspect : s.step (.inspect t row nonce) = some seen := by
      simp only [step, if_pos hrow, hm]
      rfl
    have hbump : seen.step (.bump t hash queuedAt submittedAt) = some
        ({ seen with wallet := s.wallet.addGasBump bumped }.remember t { cached := m.cached }) := by
      simp only [step, hseen]
      exact if_pos hlock
    simp only [after, hinspect, hbump, Option.bind_some]
  · show Option.isSome (Function.update seen.memory t _ t)
    rw [Function.update_self]
    rfl

end Crew

theorem Orderly.grouped {s s' : Crew} (h : Orderly s) (hg : s.wallet.Grouped) {e : Crew.Event}
    (hstep : s.step e = some s') (hroom : s.HasRoom e) : s'.wallet.Grouped := by
  have hturn := h.turn hstep
  by_cases hbump : ∃ t hash queuedAt submittedAt, e = .bump t hash queuedAt submittedAt
  · obtain ⟨t, hash, queuedAt, submittedAt, rfl⟩ := hbump
    obtain ⟨m, id, nonce, hm, hlock, hrow, rfl⟩ := Crew.step_bump hstep
    exact hg.addGasBump ((h.informed t m hlock hm).row id nonce hrow) (hroom m id nonce hm hrow)
  · generalize s'.wallet = w' at hturn ⊢
    cases hturn with
    | aside hborrowed hsubmitted =>
      exact hg.shrink (hsubmitted ▸ hg.distinct) hborrowed fun x hx => hsubmitted ▸ hx
    | operate t op he hop hfit => exact hg.apply h.allotted hop hfit
    | bump t s he hat => exact absurd ⟨t, _, _, _, he⟩ hbump

theorem Orderly.grouped_after {s s' : Crew} (h : Orderly s) (hg : s.wallet.Grouped)
    {es : List Crew.Event} (hpaced : s.Paced es) (hrun : s.after es = some s') :
    s'.wallet.Grouped := by
  induction es generalizing s with
  | nil => exact Option.some.inj hrun ▸ hg
  | cons e es ih =>
    obtain ⟨s₁, hstep, hrest⟩ := Option.bind_eq_some_iff.mp hrun
    exact ih (h.step hstep) (h.grouped hg hstep hpaced.1) (hpaced.2 s₁ hstep) hrest

/-- **Finalized evidence can be applied as long as gas bumps leave room**: in every run from the
empty store whose gas bumps are recorded only at nonces with fewer rows than the budget, no nonce
ever has more rows than the budget, and the cleanup of one receipt does not exceed it. -/
theorem paced_within_budget {es : List Crew.Event} {s : Crew} (hpaced : ({} : Crew).Paced es)
    (hrun : ({} : Crew).after es = some s) :
    (∀ n, (s.wallet.rowsAt n).length ≤ 4096) ∧ ∀ c counts, s.wallet.cleanSubmitted [c] counts ≠
      .error (.redisError "Finality cleanup group budget exceeded") := by
  have hg := (Orderly.start .empty .empty).grouped_after .empty hpaced hrun
  exact ⟨hg.budget, fun c counts => Wallet.cleanSubmitted_within c counts (hg.budget c.nonce)⟩

/-! ## A stalled nonce -/

namespace Crew.Sample

/-- The worker that has submitted `x` at nonce 5 looks at its row and bumps it, in every cycle. -/
def stalled (cycles : ℕ) : List Event :=
  (List.range cycles).flatMap fun i =>
    [.inspect (worker 2) (.real "0xa" "x" 1 3) 5, .bump (worker 2) "0xb" 1 (10 + i)]

/-- The rows then: the one submitted, and one for each cycle. -/
def stalledRows : ℕ → List (Row × ℕ)
  | 0 => [(.real "0xa" "x" 1 3, 5)]
  | cycles + 1 => (.real "0xb" "x" 1 (10 + cycles), 5) :: stalledRows cycles

def stalledReceipt : ConfirmedTransaction :=
  ⟨5, "0xa", "x", ⟨"0xa", some 9, some "0xc", true⟩, ⟨9, "0xc", 9⟩⟩

theorem mem_stalledRows {cycles : ℕ} {x : Row × ℕ} (h : x ∈ stalledRows cycles) :
    x = (.real "0xa" "x" 1 3, 5) ∨ ∃ i < cycles, x = (.real "0xb" "x" 1 (10 + i), 5) := by
  induction cycles with
  | zero => exact .inl (List.mem_singleton.mp h)
  | succ cycles ih =>
    rcases List.mem_cons.mp h with rfl | h
    · exact .inr ⟨cycles, Nat.lt_succ_self _, rfl⟩
    · refine (ih h).imp_right ?_
      rintro ⟨i, hi, rfl⟩
      exact ⟨i, Nat.lt_succ_of_lt hi, rfl⟩

theorem submitted_mem_stalledRows (cycles : ℕ) :
    (.real "0xa" "x" 1 3, 5) ∈ stalledRows cycles := by
  induction cycles with
  | zero => exact List.mem_singleton_self _
  | succ cycles ih => exact List.mem_cons_of_mem _ ih

theorem length_stalledRows (cycles : ℕ) : (stalledRows cycles).length = cycles + 1 := by
  induction cycles with
  | zero => rfl
  | succ cycles ih => exact congrArg (· + 1) ih

theorem hset_stalledRows (cycles : ℕ) :
    hset (stalledRows cycles) (.real "0xb" "x" 1 (10 + cycles)) 5 = stalledRows (cycles + 1) := by
  refine congrArg (List.cons _) (List.filter_eq_self.mpr fun x hx => decide_eq_true ?_)
  rcases mem_stalledRows hx with rfl | ⟨i, hi, rfl⟩
  · simp
  · simp only [ne_eq, Row.real.injEq, true_and]
    omega

set_option maxRecDepth 4000 in
theorem run_owner : (({} : Crew).after run).map
    (fun s => (s.wallet.submitted, s.wallet.lock, (s.memory (worker 2)).isSome)) =
      some (stalledRows 0, some (worker 2), true) := by decide +kernel

theorem after_stalled {s : Crew} (hrows : s.wallet.submitted = stalledRows 0)
    (hlock : s.wallet.lock = some (worker 2)) (hm : (s.memory (worker 2)).isSome) (cycles : ℕ) :
    ∃ s', s.after (stalled cycles) = some s' ∧ s'.wallet.submitted = stalledRows cycles ∧
      s'.wallet.lock = some (worker 2) ∧ (s'.memory (worker 2)).isSome := by
  induction cycles with
  | zero => exact ⟨s, rfl, hrows, hlock, hm⟩
  | succ cycles ih =>
    obtain ⟨s₁, hrun, hrows₁, hlock₁, hm₁⟩ := ih
    obtain ⟨m, hm₁⟩ := Option.isSome_iff_exists.mp hm₁
    have hsplit : stalled (cycles + 1) = stalled cycles ++
        [.inspect (worker 2) (.real "0xa" "x" 1 3) 5, .bump (worker 2) "0xb" 1 (10 + cycles)] := by
      simp [stalled, List.range_succ]
    have hrow : (Row.real "0xa" "x" 1 3, 5) ∈ s₁.wallet.submitted ∧
        (Row.real "0xa" "x" 1 3).Readable :=
      ⟨hrows₁ ▸ submitted_mem_stalledRows cycles, by decide⟩
    obtain ⟨s', hcycle, hw, hm'⟩ := after_cycle (worker 2) "0xb" 1 (10 + cycles) hrow hlock₁ hm₁
    refine ⟨s', ?_, ?_, ?_, hm'⟩
    · rw [hsplit, after_append, hrun]
      exact hcycle
    · rw [hw]
      show hset s₁.wallet.submitted _ _ = _
      rw [hrows₁]
      exact hset_stalledRows cycles
    · rw [hw]
      exact hlock₁

end Crew.Sample

/-- A run with one gas bump, which finds one row. -/
theorem paced_within_budget_bump : ∃ s,
    ({} : Crew).Paced (Crew.Sample.run ++ Crew.Sample.stalled 1) ∧
    ({} : Crew).after (Crew.Sample.run ++ Crew.Sample.stalled 1) = some s ∧
    s.wallet.submitted = Crew.Sample.stalledRows 1 ∧ (s.wallet.rowsAt 5).length ≤ 4096 := by
  obtain ⟨s₀, hrun, hend⟩ := Option.map_eq_some_iff.mp Crew.Sample.run_owner
  obtain ⟨hrows, hend⟩ := Prod.mk.inj hend
  obtain ⟨hlock, hm⟩ := Prod.mk.inj hend
  obtain ⟨s, hafter, hrows', _⟩ := Crew.Sample.after_stalled hrows hlock hm 1
  have hall : ({} : Crew).after (Crew.Sample.run ++ Crew.Sample.stalled 1) = some s := by
    rw [Crew.after_append, hrun, Option.bind_some, hafter]
  have hpaced : ({} : Crew).Paced (Crew.Sample.run ++ Crew.Sample.stalled 1) := by
    refine Crew.paced_append ?_ fun s' hs' => ?_
    · exact ⟨trivial, fun _ _ => ⟨trivial, fun _ _ => ⟨trivial, fun _ _ => ⟨trivial, fun _ _ =>
        ⟨trivial, fun _ _ => ⟨trivial, fun _ _ => ⟨trivial, fun _ _ => ⟨trivial, fun _ _ =>
          trivial⟩⟩⟩⟩⟩⟩⟩⟩
    · obtain rfl : s₀ = s' := Option.some.inj (hrun.symm.trans hs')
      refine ⟨trivial, fun s₁ hs₁ => ⟨fun m id nonce _ _ => ?_, fun _ _ => trivial⟩⟩
      have hwallet : s₁.wallet = s₀.wallet := by
        simp only [Crew.step] at hs₁
        split_ifs at hs₁
        obtain ⟨m', _, rfl⟩ := Option.map_eq_some_iff.mp hs₁
        rfl
      have hle : (s₁.wallet.rowsAt nonce).length ≤ s₁.wallet.submitted.length :=
        List.length_filter_le _ _
      rw [hwallet, hrows] at hle
      rw [hwallet]
      exact hle.trans_lt (by decide)
  exact ⟨s, hpaced, hall, hrows', (paced_within_budget hpaced hall).1 5⟩

/-- **A nonce that stays stalled outgrows the cleanup.** After 4096 gas bumps there are 4097 rows at
the nonce, and the receipt of one of them is refused. -/
theorem stalled_over_budget : ∃ s,
    ({} : Crew).after (Crew.Sample.run ++ Crew.Sample.stalled 4096) = some s ∧
    (.real "0xa" "x" 1 3, 5) ∈ s.wallet.submitted ∧ (s.wallet.rowsAt 5).length = 4097 ∧
    s.wallet.cleanSubmitted [Crew.Sample.stalledReceipt] ⟨6, 6⟩ =
      .error (.redisError "Finality cleanup group budget exceeded") := by
  obtain ⟨s₀, hrun, hend⟩ := Option.map_eq_some_iff.mp Crew.Sample.run_owner
  obtain ⟨hrows, hend⟩ := Prod.mk.inj hend
  obtain ⟨hlock, hm⟩ := Prod.mk.inj hend
  obtain ⟨s, hafter, hrows, _⟩ := Crew.Sample.after_stalled hrows hlock hm 4096
  have hall : ∀ x ∈ s.wallet.submitted, x.2 = 5 := by
    intro x hx
    rcases Crew.Sample.mem_stalledRows (hrows ▸ hx) with rfl | ⟨_, _, rfl⟩ <;> rfl
  have hlen : s.wallet.submitted.length = 4097 := by
    rw [hrows, Crew.Sample.length_stalledRows]
  refine ⟨s, ?_, hrows ▸ Crew.Sample.submitted_mem_stalledRows 4096, ?_, ?_⟩
  · rw [Crew.after_append, hrun, Option.bind_some, hafter]
  · unfold Wallet.rowsAt
    rw [List.filter_eq_self.mpr fun x hx => decide_eq_true (hall x hx)]
    exact hlen
  · have hgroup : (s.wallet.receiptRows [Crew.Sample.stalledReceipt] ⟨6, 6⟩).length = 4097 := by
      unfold Wallet.receiptRows
      rw [List.length_insertionSort, List.filter_eq_self.mpr, hlen]
      intro x hx
      rw [hall x hx]
      decide
    unfold Wallet.cleanSubmitted
    have hmatch : ∀ c ∈ [Crew.Sample.stalledReceipt], c.Matches := by decide
    rw [demand, if_pos hmatch]
    simp only [hgroup, demand]
    rfl

end EngineCore.Eoa
