import EngineCore.Eoa.Crew

/-!
# Settled nonces

A cleanup removes the rows of a nonce below the larger of two transaction counts, while the floor of
the allocator follows only the cached one.

* **`settled_nonce_kept`**: a nonce that is settled below the cached count is never allocated again.
-/

namespace EngineCore.Eoa

open Redis Twmq

/-- The nonce is below the cached count and below the next nonce, and is not recycled. -/
structure Wallet.Past (w : Wallet) (n : ℕ) : Prop where
  cached : ∃ c, w.cached = some c ∧ n < c
  next : n < w.next
  recycled : n ∉ w.recycled

namespace Wallet.Past

variable {w w' : Wallet} {n : ℕ}

theorem congr (h : w.Past n) (hc : w'.cached = w.cached) (hr : ∀ m ∈ w'.recycled, m ∈ w.recycled)
    (hn : w.next ≤ w'.next) : w'.Past n := by
  refine ⟨?_, h.next.trans_le hn, fun hmem => h.recycled (hr n hmem)⟩
  rw [hc]
  exact h.cached

theorem apply (h : w.Past n) (hal : w.Allotted) {op : Operation} (hop : w.apply op = .ok w')
    (hfit : op.Fits w) (hreset : ∀ count, op ≠ .resetNonces count) : w'.Past n := by
  cases op with
  | moveIncremented txs =>
    obtain ⟨hm, hrec, o, o', ho, ho', hlt, _⟩ := moveIncremented_ok hop
    refine h.congr hm.cached (fun m hm => hrec ▸ hm) ?_
    unfold Wallet.next
    rw [ho, ho']
    exact hlt.le
  | moveRecycled txs =>
    obtain ⟨hm, ho, _, hleft⟩ := moveRecycled_ok hop
    exact h.congr hm.cached (fun m hm => ((hleft m).mp hm).1) (congrArg (Option.getD · 0) ho).ge
  | processBorrowed results =>
    obtain rfl := Except.ok.inj hop
    have hp := processBorrowed_spec (w := w) results
    exact h.congr hp.cached (fun m hm => hp.recycled ▸ hm) (congrArg (Option.getD · 0) hp.optimistic).ge
  | cleanSubmitted confirmed counts =>
    have hc := cleanSubmitted_ok hop
    exact h.congr hc.cached (fun m hm => hc.recycled ▸ hm) (congrArg (Option.getD · 0) hc.optimistic).ge
  | resetNonces count => exact absurd rfl (hreset count)
  | cleanRecycled =>
    obtain ⟨count, next, hcount, heq, hsub, _, hfloor, _⟩ := cleanRecycled_ok hop
    obtain ⟨c, hc, hlt⟩ := h.cached
    obtain rfl : c = count := Option.some.inj (hc.symm.trans hcount)
    refine ⟨?_, ?_, fun hmem => h.recycled (hsub n hmem)⟩
    · rw [heq]
      exact h.cached
    · obtain ⟨o, ho, hno⟩ := lt_next.mp h.next
      refine lt_next.mpr ⟨min o next, ?_, ?_⟩
      · rw [heq, ho]
        rfl
      · have := hfloor (hal.counted c hc)
        omega
  | updateCached count =>
    obtain rfl := Except.ok.inj hop
    obtain ⟨c, hc, hlt⟩ := h.cached
    refine ⟨⟨count, rfl, hlt.trans (hfit.2 c hc)⟩, ?_, h.recycled⟩
    rw [updateCached_next]
    exact lt_max_of_lt_left h.next
  | processNoop noops =>
    obtain rfl := Except.ok.inj hop
    exact h.congr rfl (fun m hm => (mem_sremAll.mp hm).1) le_rfl
  | failPending ids =>
    obtain ⟨_, rfl⟩ := failPending_ok hop
    exact h.congr rfl (fun m hm => hm) le_rfl

theorem not_allocated (h : w.Past n) {op : Operation} (hop : w.apply op = .ok w') :
    n ∉ op.allocates := by
  intro hn
  rcases allocates_cases hop hn with hle | hin
  · exact absurd h.next hle.not_gt
  · exact h.recycled hin

end Wallet.Past

def Crew.Event.NoReset (e : Crew.Event) : Prop := ∀ t count, e ≠ .operate t (.resetNonces count)

theorem Orderly.past {s s' : Crew} {n : ℕ} (h : Orderly s) (hn : s.wallet.Past n)
    {e : Crew.Event} (hstep : s.step e = some s') (he : e.NoReset) : s'.wallet.Past n := by
  have hturn := h.turn hstep
  generalize s'.wallet = w' at hturn ⊢
  cases hturn with
  | aside _ _ hrecycled hoptimistic hcached =>
    exact hn.congr hcached (fun m hm => hrecycled ▸ hm) (congrArg (Option.getD · 0) hoptimistic).ge
  | operate t op heq hop hfit =>
    refine hn.apply h.allotted hop hfit ?_
    rintro count rfl
    exact he t count heq
  | bump => exact hn.congr rfl (fun m hm => hm) le_rfl

theorem Orderly.past_after {s s' : Crew} {n : ℕ} (h : Orderly s) (hn : s.wallet.Past n)
    {es : List Crew.Event} (hrun : s.after es = some s') (hes : ∀ e ∈ es, e.NoReset) :
    s'.wallet.Past n := by
  induction es generalizing s with
  | nil => exact Option.some.inj hrun ▸ hn
  | cons e es ih =>
    obtain ⟨s₁, hstep, hrest⟩ := Option.bind_eq_some_iff.mp hrun
    refine ih (h.step hstep) (h.past hn hstep (hes e List.mem_cons_self)) hrest fun e' he' => ?_
    exact hes e' (List.mem_cons_of_mem _ he')

theorem Orderly.past_of_removed {s s' : Crew} (h : Orderly s) {t : LeaseToken}
    {confirmed : List ConfirmedTransaction} {counts : TransactionCounts}
    (hclean : s.step (.operate t (.cleanSubmitted confirmed counts)) = some s') {row : Row} {n : ℕ}
    (hrow : (row, n) ∈ s.wallet.submitted) (hcached : ∃ c, s.wallet.cached = some c ∧ n < c) :
    s'.wallet.Past n := by
  have hheld : s.wallet.HeldBy n row.transactionId := .inl ⟨row, hrow, rfl⟩
  have hpast : s.wallet.Past n :=
    ⟨hcached, h.allotted.above n _ hheld, fun hmem => (h.allotted.recycled n hmem).2 _ hheld⟩
  refine h.past hpast hclean ?_
  rintro t count ⟨⟩

/-- **A settled nonce is never allocated again**, where the cached count had passed it when its row
was removed: in every run without resets the next nonce stays above it and no move gives it to a
transaction. -/
theorem settled_nonce_kept {w : Wallet} (hst : w.Staged) (hal : w.Allotted)
    {es es' : List Crew.Event} {s s₁ s₂ : Crew}
    (hrun : ({ wallet := w } : Crew).after es = some s) {t : LeaseToken}
    {confirmed : List ConfirmedTransaction} {counts : TransactionCounts}
    (hclean : s.step (.operate t (.cleanSubmitted confirmed counts)) = some s₁) {row : Row} {n : ℕ}
    (hrow : (row, n) ∈ s.wallet.submitted) (hcached : ∃ c, s.wallet.cached = some c ∧ n < c)
    (hrest : s₁.after es' = some s₂) (hreset : ∀ e ∈ es', e.NoReset) :
    (∃ o, s₂.wallet.optimistic = some o ∧ n < o) ∧
    ∀ t' op s₃, s₂.step (.operate t' op) = some s₃ → n ∉ op.allocates := by
  have h := (Orderly.start hst hal).after hrun
  have hpast := (h.step hclean).past_after (h.past_of_removed hclean hrow hcached) hrest hreset
  refine ⟨Wallet.lt_next.mp hpast.next, fun t' op s₃ hop => ?_⟩
  obtain ⟨_, _, _, _, _, happly, _⟩ := Crew.step_operate hop
  exact hpast.not_allocated happly

namespace Crew.Sample

def other : BorrowedTransactionData := ⟨"y", ⟨5, "0xb"⟩, 10, 11⟩

def receipt : ConfirmedTransaction :=
  ⟨5, "0xa", "x", ⟨"0xa", some 100, some "0xblock", true⟩, ⟨100, "0xblock", 100⟩⟩

/-- The first cycle: transaction counts are 5, and the transaction `x` is sent with nonce 5. -/
def firstCycle : List Event :=
  [.add "x" "request" 1, .acquire (worker 1), .readBorrowed (worker 1), .readCached (worker 1),
    .operate (worker 1) (.updateCached 5), .operate (worker 1) .cleanRecycled,
    .operate (worker 1) .cleanRecycled, .operate (worker 1) (.moveIncremented [borrowed]),
    .operate (worker 1) (.processBorrowed [sent]), .release (worker 1)]

/-- The second cycle up to the cleanup: the latest count lags behind at 5. -/
def secondCycle : List Event :=
  [.add "y" "request" 10, .acquire (worker 2), .readBorrowed (worker 2), .readCached (worker 2)]

/-- The cleanup of the second cycle, by a final receipt and a preconfirmed count of 6. -/
def cleanup : Event := .operate (worker 2) (.cleanSubmitted [receipt] ⟨5, 6⟩)

/-- Its send flow asks for recycled nonces twice, then moves the transaction `y`. -/
def asks : List Event :=
  [.operate (worker 2) .cleanRecycled, .operate (worker 2) .cleanRecycled]

def moves : Event := .operate (worker 2) (.moveIncremented [other])

/-- The rows before and after the cleanup, the next nonce after it, and what is borrowed at last. -/
def observed : Option (List (Row × ℕ) × List (Row × ℕ) × Option ℕ × List String) := do
  let s ← ({} : Crew).after (firstCycle ++ secondCycle)
  let s₁ ← s.step cleanup
  let s₂ ← s₁.after asks
  let s₃ ← s₂.step moves
  return (s.wallet.submitted, s₁.wallet.submitted, s₂.wallet.optimistic, keys s₃.wallet.borrowed)

set_option maxRecDepth 10000 in
theorem observed_eq : observed = some ([(.real "0xa" "x" 1 3, 5)], [], some 5, ["y"]) := by
  decide +kernel

/-- The second cycle with a latest count of 6, which is cached first. -/
def caughtUp : List Event := secondCycle ++ [.operate (worker 2) (.updateCached 6)]

def seen : Option (List (Row × ℕ) × Option ℕ × Option ℕ) := do
  let s ← ({} : Crew).after (firstCycle ++ caughtUp)
  let s₁ ← s.step (.operate (worker 2) (.cleanSubmitted [receipt] ⟨6, 6⟩))
  let s₂ ← s₁.after asks
  return (s.wallet.submitted, s.wallet.cached, s₂.wallet.optimistic)

set_option maxRecDepth 10000 in
theorem seen_eq : seen = some ([(.real "0xa" "x" 1 3, 5)], some 6, some 6) := by decide +kernel

theorem asks_noReset : ∀ e ∈ asks, e.NoReset := by
  intro e he t count heq
  simp only [asks, List.mem_cons, List.not_mem_nil, or_false, or_self] at he
  rw [he] at heq
  cases heq

end Crew.Sample

/-- With a latest count that lags behind the preconfirmed one, the nonce of a settled transaction
becomes the next nonce again and is given to another transaction. -/
theorem settled_nonce_reallocated : ∃ s s₁ s₂ s₃ : Crew,
    ({} : Crew).after (Crew.Sample.firstCycle ++ Crew.Sample.secondCycle) = some s ∧
    s.step Crew.Sample.cleanup = some s₁ ∧
    s.wallet.submitted = [(.real "0xa" "x" 1 3, 5)] ∧ s₁.wallet.submitted = [] ∧
    s₁.after Crew.Sample.asks = some s₂ ∧ (∀ e ∈ Crew.Sample.asks, e.NoReset) ∧
    s₂.wallet.optimistic = some 5 ∧ s₂.step Crew.Sample.moves = some s₃ ∧
    keys s₃.wallet.borrowed = ["y"] ∧ Crew.Sample.other.signed.nonce = 5 := by
  have h := Crew.Sample.observed_eq
  unfold Crew.Sample.observed at h
  simp only [Option.bind_eq_bind, Option.bind_eq_some_iff, Option.pure_def, Option.some.injEq,
    Prod.mk.injEq] at h
  obtain ⟨s, hs, s₁, hs₁, s₂, hs₂, s₃, hs₃, hrow, hgone, hnext, hborrowed⟩ := h
  exact ⟨s, s₁, s₂, s₃, hs, hs₁, hrow, hgone, hs₂, Crew.Sample.asks_noReset, hnext, hs₃, hborrowed,
    rfl⟩

theorem settled_nonce_kept_caughtUp : ∃ s s₁ s₂ : Crew,
    ({ wallet := {} } : Crew).after (Crew.Sample.firstCycle ++ Crew.Sample.caughtUp) = some s ∧
    s.step (.operate (Crew.Sample.worker 2)
      (.cleanSubmitted [Crew.Sample.receipt] ⟨6, 6⟩)) = some s₁ ∧
    s₁.after Crew.Sample.asks = some s₂ ∧ ∃ o, s₂.wallet.optimistic = some o ∧ 5 < o := by
  have h := Crew.Sample.seen_eq
  unfold Crew.Sample.seen at h
  simp only [Option.bind_eq_bind, Option.bind_eq_some_iff, Option.pure_def, Option.some.injEq,
    Prod.mk.injEq] at h
  obtain ⟨s, hs, s₁, hs₁, s₂, hs₂, hrow, hcached, _⟩ := h
  have hmem : (Row.real "0xa" "x" 1 3, 5) ∈ s.wallet.submitted := by
    rw [hrow]
    exact List.mem_cons_self
  exact ⟨s, s₁, s₂, hs, hs₁, hs₂, (settled_nonce_kept .empty .empty hs hs₁ hmem
    ⟨6, hcached, by decide⟩ hs₂ Crew.Sample.asks_noReset).1⟩

end EngineCore.Eoa
