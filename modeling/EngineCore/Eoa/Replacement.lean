import EngineCore.Eoa.Dispatch

/-!
# The fees of successive replacements

A stalled nonce is replaced in one confirm cycle after the other. Every cycle builds the transaction
afresh, from the caller's settings and an estimate of the node, and raises the fees of what it has
built.

* `estimateGasFees`, `builtFees`: the fees of a freshly built transaction;
* **`recorded_above`**: where every build is at least at the fees recorded before, every recorded
  replacement is above all of them;
* **`same_estimate_same_bump`**: with an estimate that stays, the second replacement is the first
  one again.
-/

namespace EngineCore.Eoa.Wire

open Interact Recovery Executors EngineCore.Finality

/-! ## Fees of a freshly built transaction -/

/-- The fee fields of the transaction request. -/
structure FeeFields where
  gasPrice : Option ℕ := none
  maxFeePerGas : Option ℕ := none
  maxPriorityFeePerGas : Option ℕ := none
  deriving DecidableEq, Repr

/-- What the node says of fees: an EIP-1559 estimate, or that there is none and perhaps a gas
price, or another error. -/
inductive FeeEstimate
  | eip1559 (maxFeePerGas maxPriorityFeePerGas : ℕ)
  | unsupported (gasPrice : Option ℕ)
  | failed
  deriving DecidableEq, Repr

def estimateGasFees (authorized : Bool) (fees : FeeFields) (estimate : FeeEstimate) :
    Option FeeFields :=
  if fees.gasPrice.isSome then some fees
  else if fees.maxFeePerGas.isSome ∧ fees.maxPriorityFeePerGas.isSome then some fees
  else
    match estimate with
    -- only the fees that are missing
    | .eip1559 fee priority => some { fees with
        maxFeePerGas := some (fees.maxFeePerGas.getD fee)
        maxPriorityFeePerGas := some (fees.maxPriorityFeePerGas.getD priority) }
    -- a legacy price would discard the caller's limits, or the authorizations
    | .unsupported price =>
      if fees.maxFeePerGas.isSome ∨ fees.maxPriorityFeePerGas.isSome then none
      else if authorized then none
      else price.map fun price => { fees with gasPrice := some price }
    | .failed => none

/-- The caller's dynamic fees, and an estimate of those that are missing. -/
def dynamicFees (authorized : Bool) (maxFeePerGas maxPriorityFeePerGas : Option ℕ)
    (estimate : FeeEstimate) : Option FeeFields :=
  let fees : FeeFields := { maxFeePerGas, maxPriorityFeePerGas }
  if maxFeePerGas.isNone ∨ maxPriorityFeePerGas.isNone then
    estimateGasFees authorized fees estimate
  else some fees

def requestedFees (estimate : FeeEstimate) : Option TransactionTypeData → Option FeeFields
  | some (.eip1559 fee priority) => dynamicFees false fee priority estimate
  | some (.legacy (some price)) => some { gasPrice := some price }
  | some (.legacy none) => estimateGasFees false {} estimate
  | some (.eip7702 authorizations fee priority) =>
    dynamicFees (authorizations.any (· ≠ [])) fee priority estimate
  | none => estimateGasFees false {} estimate

/-- The fees of the transaction that is built from the request. -/
def FeeFields.fees (f : FeeFields) : Option Fees :=
  match f.gasPrice, f.maxFeePerGas, f.maxPriorityFeePerGas with
  | some price, _, _ => some (.gasPrice price)
  | none, some fee, some priority => some (.dynamic fee priority)
  | none, _, _ => none

/-- `build_typed_transaction`, the fees. -/
def builtFees (requested : Option TransactionTypeData) (estimate : FeeEstimate) : Option Fees :=
  (requestedFees estimate requested).bind FeeFields.fees

/-! ## Bids -/

/-- A higher bid: neither fee is lower, and they are not both the same. -/
def Fees.Above (new old : Fees) : Prop :=
  new.AtLeast old ∧ ¬(new.maxFee = old.maxFee ∧ new.priorityFee = old.priorityFee)

theorem Fees.AtLeast.trans {f₁ f₂ f₃ : Fees} (h : f₁.AtLeast f₂) (h' : f₂.AtLeast f₃) :
    f₁.AtLeast f₃ :=
  ⟨h'.maxFee.trans h.maxFee, h'.priorityFee.trans h.priorityFee⟩

theorem Fees.Above.trans {f₁ f₂ f₃ : Fees} (h : f₁.Above f₂) (h' : f₂.AtLeast f₃) :
    f₁.Above f₃ := by
  refine ⟨h.1.trans h', fun ⟨hfee, hpriority⟩ => h.2 ⟨?_, ?_⟩⟩
  · have := h.1.maxFee
    have := h'.maxFee
    omega
  · have := h.1.priorityFee
    have := h'.priorityFee
    omega

theorem dynamicFees_keep {authorized : Bool} {fee priority : Option ℕ} {estimate : FeeEstimate}
    {f : FeeFields} (h : dynamicFees authorized fee priority estimate = some f) :
    (∀ c ∈ fee, f.gasPrice = none ∧ f.maxFeePerGas = some c) ∧
      ∀ c ∈ priority, f.gasPrice = none ∧ f.maxPriorityFeePerGas = some c := by
  unfold dynamicFees estimateGasFees at h
  cases fee <;> cases priority <;> cases estimate <;>
    simp at h <;> (try subst h) <;> simp

theorem fees_eq_some {f : FeeFields} {fees : Fees} (h : f.fees = some fees) :
    (∀ c, f.gasPrice = none → f.maxFeePerGas = some c → fees.maxFee = c) ∧
      ∀ c, f.gasPrice = none → f.maxPriorityFeePerGas = some c → fees.priorityFee = c := by
  unfold FeeFields.fees at h
  constructor
  · intro c hprice hfee
    rw [hprice, hfee] at h
    cases hp : f.maxPriorityFeePerGas with
    | none => simp [hp] at h
    | some priority =>
      rw [hp] at h
      rw [← Option.some.inj h]
      rfl
  · intro c hprice hpriority
    rw [hprice, hpriority] at h
    cases hf : f.maxFeePerGas with
    | none => simp [hf] at h
    | some fee =>
      rw [hf] at h
      rw [← Option.some.inj h]
      rfl

theorem builtFees_under {requested : Option TransactionTypeData} {estimate : FeeEstimate}
    {fees : Fees} (h : builtFees requested estimate = some fees) :
    fees.Under (feeCaps requested) := by
  obtain ⟨f, hf, hfees⟩ := Option.bind_eq_some_iff.mp h
  obtain ⟨hmax, htip⟩ := fees_eq_some hfees
  have hdynamic : ∀ authorized fee priority, dynamicFees authorized fee priority estimate = some f →
      fees.Under (fee, priority) := by
    intro authorized fee priority hd
    obtain ⟨hfee, hpriority⟩ := dynamicFees_keep hd
    refine ⟨fun c hc => (hmax c (hfee c hc).1 (hfee c hc).2).le, ?_⟩
    rintro c hc x y rfl
    exact (htip c (hpriority c hc).1 (hpriority c hc).2).le
  cases requested with
  | none => exact ⟨by rintro c ⟨⟩, by rintro c ⟨⟩⟩
  | some typeData =>
    cases typeData with
    | eip1559 fee priority => exact hdynamic false fee priority hf
    | eip7702 authorizations fee priority => exact hdynamic _ fee priority hf
    | legacy price =>
      cases price with
      | none => exact ⟨by rintro c ⟨⟩, by rintro c ⟨⟩⟩
      | some price =>
        obtain rfl := Option.some.inj hf
        obtain rfl := Option.some.inj hfees
        exact ⟨by rintro c ⟨⟩; exact le_rfl, by rintro c ⟨⟩⟩

theorem bumpTransactionFees_above {tx tx' : TypedTransaction}
    {requested : Option TransactionTypeData} {estimate : FeeEstimate}
    (hbuilt : builtFees requested estimate = some tx.fees) (hfit : tx.fees.Fit)
    (htip : tx.fees.priorityFee ≤ tx.fees.maxFee)
    (h : bumpTransactionFees tx 120 requested = some tx') : tx'.fees.Above tx.fees := by
  have hne := (bumpTransactionFees_ok h).1
  have hfees := bumpTransactionFees_fees h
  refine ⟨hfees ▸ Fees.le_bump (by decide) hfit (builtFees_under hbuilt) htip, fun heq => hne ?_⟩
  rw [hfees] at heq ⊢
  cases hf : tx.fees with
  | gasPrice price =>
    rw [hf] at heq
    exact congrArg Fees.gasPrice heq.1
  | dynamic fee priority =>
    rw [hf] at heq
    exact congrArg₂ Fees.dynamic heq.1 heq.2

/-! ## Confirm cycles on a stalled nonce -/

/-- A wire recorded for a transaction, with its row. -/
structure Recorded where
  row : Submitted
  signed : Signed
  deriving DecidableEq, Repr

/-- Both are wires of one transaction at one nonce. -/
def Recorded.Rivals (x y : Recorded) : Prop :=
  x.row.transactionId = y.row.transactionId ∧ x.row.nonce = y.row.nonce

/-- What may be built next, for a request at a nonce, after the wires recorded so far. -/
abbrev Market := List Recorded → EoaTransactionRequest → ℕ → Fees → Prop

/-- The answers of the outside: the stored data is that of the id, a transaction is built from the
caller's settings and some estimate, and the signer signs what it is given. A wire is recorded,
unless the reply is an error. -/
def stallReply (market : Market) :
    (x : External) → List Recorded → Reply x → List Recorded → Prop
  | .transactionData id, w, a, w' => w' = w ∧ ∀ data, a = .ok (some data) →
      data.transactionId = id ∧ data.userRequest.transactionId = id
  | .buildTypedTransaction request nonce, w, a, w' => w' = w ∧ ∀ tx, a = .ok tx →
      (∃ estimate, builtFees request.transactionTypeData estimate = some tx.fees) ∧ tx.fees.Fit ∧
        market w request nonce tx.fees
  | .sign tx _, w, a, w' => w' = w ∧ ∀ signed, a = .ok signed → signed.tx = tx
  | .addGasBumpAttempt row signed, w, a, w' =>
      w' = w ++ [⟨row, signed⟩] ∨ w' = w ∧ ∃ e, a = .error e
  | _, w, _, w' => w' = w

/-- The wires recorded for a stalled nonce; only the worker that has the lock records any. -/
def stall (market : Market) :
    Machine (Ask External Dispatch) (Answer Reply Ack) (List Recorded) where
  env w w' := w' = w
  act
    | .outside x, w, a, w' => stallReply market x w a w'
    | .invoke _, w, _, w' => w' = w
    | .await _ _, w, _, w' => w' = w
    | .read _, w, _, w' => w' = w
    | .send _, w, _, w' => w' = w

/-- One gas bump after the other; whatever it ends with, the next cycle follows. -/
def confirmCycles (P : Primitives) (A : Alloy) (w : Worker) : List ℕ → Flow Unit
  | [] => return ()
  | nonce :: nonces => do
    let _ ← (capture (attemptGasBumpForStalledNonce P A w nonce) : Flow _)
    confirmCycles P A w nonces

/-- What is built is at least at the fees recorded before, and its tip is within its fee. -/
structure Rising (w : List Recorded) (request : EoaTransactionRequest) (nonce : ℕ) (fees : Fees) :
    Prop where
  atLeast : ∀ x ∈ w, x.row.transactionId = request.transactionId → x.row.nonce = nonce →
    fees.AtLeast x.signed.tx.fees
  tip : fees.priorityFee ≤ fees.maxFee

instance (new old : Fees) : Decidable (new.AtLeast old) :=
  decidable_of_iff (old.maxFee ≤ new.maxFee ∧ old.priorityFee ≤ new.priorityFee)
    ⟨fun h => ⟨h.1, h.2⟩, fun h => ⟨h.maxFee, h.priorityFee⟩⟩

instance (w : List Recorded) (request : EoaTransactionRequest) (nonce : ℕ) (fees : Fees) :
    Decidable (Rising w request nonce fees) :=
  decidable_of_iff ((∀ x ∈ w, x.row.transactionId = request.transactionId → x.row.nonce = nonce →
    fees.AtLeast x.signed.tx.fees) ∧ fees.priorityFee ≤ fees.maxFee)
    ⟨fun h => ⟨h.1, h.2⟩, fun h => ⟨h.atLeast, h.tip⟩⟩

/-- At most one wire is recorded, and it is above those it competes with. -/
def Outbids (w w' : List Recorded) : Prop :=
  w' = w ∨ ∃ x, w' = w ++ [x] ∧ ∀ y ∈ w, x.Rivals y → x.signed.tx.fees.Above y.signed.tx.fees

/-! ### Queries that record nothing -/

/-- The query is not a gas bump to be recorded. -/
def Unrecorded (q : Ask External Dispatch) : Prop :=
  ∀ row signed, q ≠ .outside (.addGasBumpAttempt row signed)

theorem unrecorded (x : External) (hx : ∀ row signed, x ≠ .addGasBumpAttempt row signed) :
    Unrecorded (.outside x) := fun row signed h => hx row signed (Ask.outside.inj h)

section Cycles

variable {ε ε' α β : Type}

/-- Whatever the answers, the program records nothing. -/
structure Idle (x : Work Reply Ack ε α) : Prop where
  within : Within Unrecorded x

namespace Idle

theorem ret (a : α) : Idle (pure a : Work Reply Ack ε α) := ⟨.ret a⟩

theorem lift (r : Except ε α) : Idle (Executors.lift r : Work Reply Ack ε α) := ⟨.lift r⟩

theorem fail (e : ε) : Idle (throw e : Work Reply Ack ε α) := ⟨.fail e⟩

theorem bind {x : Work Reply Ack ε α} {f : α → Work Reply Ack ε β} (hx : Idle x)
    (hf : ∀ a, Idle (f a)) : Idle (x >>= f) :=
  ⟨hx.within.bind fun a => (hf a).within⟩

theorem adapt {f : ε → ε'} {x : Work Reply Ack ε α} (hx : Idle x) : Idle (ExceptT.adapt f x) :=
  ⟨hx.within.adapt⟩

theorem send (d : Dispatch) : Idle (Executors.send d : Work Reply Ack ε (Ack d)) :=
  ⟨.send (by rintro row signed ⟨⟩)⟩

theorem read (r : Read) : Idle (Executors.read r : Work Reply Ack RecoveryError r.Value) :=
  ⟨.read (by rintro row signed ⟨⟩)⟩

theorem invoke (c : Recovery.Call) :
    Idle (Executors.invoke c : Work Reply Ack RecoveryError c.Value) :=
  ⟨.invoke (by rintro row signed ⟨⟩) (by rintro ticket row signed ⟨⟩)⟩

end Idle

variable {P : Primitives} {A : Alloy} {worker : Worker} {market : Market} {w : List Recorded}

theorem Unrecorded.same {q : Ask External Dispatch} (hq : Unrecorded q) {a : Answer Reply Ack q}
    {w' : List Recorded} (h : (stall market).act q w a w') : w' = w := by
  cases q with
  | invoke => exact h
  | await => exact h
  | read => exact h
  | send => exact h
  | outside x =>
    cases x with
    | transactionData id => exact h.1
    | buildTypedTransaction request nonce => exact h.1
    | sign tx credential => exact h.1
    | addGasBumpAttempt row signed => exact absurd rfl (hq row signed)
    | _ => exact h

theorem sat_of_idle {x : Flow α} (hx : Idle x) (l : List (Entry _ _ (List Recorded))) :
    Sat (stall market) Outbids (fun _ _ w' => w' = w) x.run l w := by
  have key : ∀ (p : Prog (Ask External Dispatch) (Answer Reply Ack) (Except WorkerError α)) l,
      p.Only Unrecorded → Sat (stall market) Outbids (fun _ _ w' => w' = w) p l w := by
    intro p
    induction p with
    | done r => exact fun _ _ => rfl
    | ask q k ih =>
      intro l hp w₁ hw a w₂ hact
      obtain rfl : w₁ = w := hw
      obtain rfl := hp.1.same hact
      exact ⟨.inl rfl, ih a _ (hp.2 a)⟩
  exact key x.run l hx.within

/-- Whatever it ends with, the program records only wires that outbid their rivals. -/
def Bids (market : Market) (w : List Recorded) (x : Flow α) : Prop :=
  ∀ l, Sat (stall market) Outbids (fun _ _ _ => True) x.run l w

namespace Bids

theorem ret (a : α) : Bids market w (pure a : Flow α) := fun _ => trivial

theorem bind_idle {x : Flow α} {f : α → Flow β} (hx : Idle x)
    (hf : ∀ a, Bids market w (f a)) : Bids market w (x >>= f) := by
  intro l
  rw [sat_run_bind]
  refine (sat_of_idle hx l).post_mono ?_
  rintro (e | a) l' w' rfl
  · trivial
  · exact hf a l'

theorem of_idle {x : Flow α} (hx : Idle x) : Bids market w x :=
  fun l => (sat_of_idle hx l).post_mono fun _ _ _ _ => trivial

theorem bind_inquire {x : External} {f : Reply x → Flow β} (hx : Unrecorded (.outside x))
    (hf : ∀ a, stallReply market x w a w → Bids market w (f a)) :
    Bids market w (inquire x >>= f) := by
  intro l
  rw [sat_run_bind]
  intro w₁ hw a w₂ hact
  obtain rfl : w₁ = w := hw
  obtain rfl := hx.same hact
  exact ⟨.inl rfl, hf a hact _⟩

theorem bind_lift {r : Except WorkerError α} {f : α → Flow β}
    (hf : ∀ a, r = .ok a → Bids market w (f a)) : Bids market w (lift r >>= f) := by
  cases r with
  | error e => exact fun _ => trivial
  | ok a => exact hf a rfl

theorem bind_stored {r : Except StoreError α} {f : α → Flow β}
    (hf : ∀ a, r = .ok a → Bids market w (f a)) : Bids market w (stored r >>= f) := by
  refine bind_lift fun a ha => hf a ?_
  cases r with
  | error e => cases ha
  | ok b => rw [Except.ok.inj ha]

end Bids

theorem journal_idle {x : Work Reply Ack RecoveryError α} (hx : Idle x) :
    Idle (eoa (journal x)) := hx.adapt.adapt

theorem validatePayload_idle {kind : Kind} {id : String} {payload : Json} :
    Idle (validatePayload P kind id payload : Work Reply Ack RecoveryError Unit) := by
  refine .bind (.lift _) fun fingerprint => .bind ?_ fun _ => .bind (Idle.read _) fun found =>
    .bind (.lift _) fun record => .bind (.lift _) fun stored => .bind (.lift _) fun own => .lift _
  exact .bind (Idle.invoke _) fun _ => .bind (Idle.read _) fun found =>
    .bind (.lift _) fun record => .bind (.lift _) fun _ => .lift _

theorem beforeEoa_idle {request : EoaTransactionRequest} {tx : Signed} :
    Idle (beforeEoa P A request tx : Flow Unit) := by
  have hvalid : Idle (eoa (validate P .eoa request.transactionId (request.toJson P)) : Flow Unit) :=
    journal_idle validatePayload_idle
  exact .bind hvalid fun _ => .bind (.lift _) fun _ => journal_idle (.invoke _)

theorem mayBeIncluded_idle (rows : List Submitted) : Idle (mayBeIncluded P worker rows) :=
  ⟨mayBeIncluded_within unrecorded rows⟩

theorem afterFailedBuild_idle (nonce : ℕ) (e : WorkerError) : Idle (afterFailedBuild nonce e) :=
  ⟨afterFailedBuild_within unrecorded nonce e⟩

/-! ### One cycle -/

theorem recorded_idle {authorization : Flow Unit} (h : Idle authorization)
    {d : Dispatch} (r : Except StoreError Unit) :
    Idle (do
      stored r
      authorization
      let sent ← handOver d
      match sent with
      | .ok _ => return true
      | .error e => throw (.rpcError e) : Flow Bool) := by
  refine .bind (.lift _) fun _ => .bind h fun _ => .bind (.send d) fun sent => ?_
  cases sent with
  | ok _ => exact .ret _
  | error _ => exact .fail _

theorem sendReplacement_bids {nonce : ℕ} {data : TransactionData} {tx : TypedTransaction}
    (habove : ∀ y ∈ w, y.row.transactionId = data.transactionId → y.row.nonce = nonce →
      tx.fees.Above y.signed.tx.fees) : Bids market w (sendReplacement P A nonce data tx) := by
  unfold sendReplacement
  refine .bind_inquire (by rintro row signed ⟨⟩) fun r hr => .bind_lift fun signed hsigned => ?_
  obtain rfl : signed.tx = tx := hr.2 signed hsigned
  refine .bind_inquire (by rintro row signed ⟨⟩) fun now _ => ?_
  intro l
  rw [sat_run_bind]
  intro w₁ hw a w₂ hact
  obtain rfl : w₁ = w := hw
  refine ⟨?_, Bids.of_idle (recorded_idle beforeEoa_idle a) _⟩
  rcases hact with hact | ⟨hact, _⟩
  · refine .inr ⟨_, hact, fun y hy hrival => habove y hy hrival.1.symm hrival.2.symm⟩
  · exact .inl hact

/-- **One cycle**: what it records is a raise of what it has built. -/
theorem attemptGasBump_bids (nonce : ℕ) :
    Bids Rising w (attemptGasBumpForStalledNonce P A worker nonce) := by
  unfold attemptGasBumpForStalledNonce
  refine .bind_inquire (by rintro row signed ⟨⟩) fun r _ => .bind_stored fun rows _ => ?_
  refine .bind_idle (mayBeIncluded_idle rows) fun found => ?_
  by_cases hfound : found
  · rw [if_pos hfound]
    exact .ret _
  rw [if_neg hfound]
  cases newest rows with
  | none => exact .ret _
  | some row =>
    refine .bind_inquire (by rintro row signed ⟨⟩) fun r hdata => .bind_stored fun found hr => ?_
    cases found with
    | none => exact .ret _
    | some data =>
      obtain ⟨hid, hrequest⟩ := hdata.2 data hr
      refine .bind_inquire (by rintro row signed ⟨⟩) fun now _ => ?_
      by_cases hyoung : now - data.createdAt < nonceStallLimitMs
      · rw [if_pos hyoung]
        exact .ret _
      rw [if_neg hyoung]
      refine .bind_inquire (by rintro row signed ⟨⟩) fun built hbuilt => ?_
      cases built with
      | error e => exact .of_idle (afterFailedBuild_idle nonce e)
      | ok tx =>
        obtain ⟨⟨estimate, hfees⟩, hfit, hrising⟩ := hbuilt.2 tx rfl
        dsimp only
        cases hbump : bumpTransactionFees tx 120 data.userRequest.transactionTypeData with
        | none => exact .ret _
        | some tx' =>
          have hraise := bumpTransactionFees_above hfees hfit hrising.tip hbump
          refine sendReplacement_bids fun y hy hsame hnonce => hraise.trans ?_
          refine hrising.atLeast y hy ?_ hnonce
          rw [hsame, hid, hrequest]

theorem confirmCycles_bids (nonces : List ℕ) (w : List Recorded) :
    Bids Rising w (confirmCycles P A worker nonces) := by
  induction nonces generalizing w with
  | nil => exact .ret _
  | cons nonce nonces ih =>
    intro l
    rw [confirmCycles, sat_run_bind]
    refine (sat_bind _ _).mpr ((attemptGasBump_bids nonce l).post_mono fun r l' w' _ => ?_)
    exact ih w' l'

end Cycles

/-- Every wire that was added is above all of its rivals before it. -/
def Escalates (w w' : List Recorded) : Prop :=
  ∃ added, w' = w ++ added ∧ ∀ i x, added[i]? = some x → ∀ y ∈ w ++ added.take i, x.Rivals y →
    x.signed.tx.fees.Above y.signed.tx.fees

theorem Escalates.outbids {w₀ w w' : List Recorded} (h : Escalates w₀ w) (hb : Outbids w w') :
    Escalates w₀ w' := by
  obtain ⟨added, rfl, hall⟩ := h
  rcases hb with rfl | ⟨x, rfl, hx⟩
  · exact ⟨added, rfl, hall⟩
  · refine ⟨added ++ [x], List.append_assoc _ _ _, fun i y hy => ?_⟩
    by_cases hi : i < added.length
    · rw [List.getElem?_append_left hi] at hy
      rw [List.take_append_of_le_length hi.le]
      exact hall i y hy
    · have hlen := (List.getElem?_eq_some_iff.mp hy).1
      rw [List.length_append, List.length_singleton] at hlen
      obtain rfl : i = added.length := by omega
      rw [List.getElem?_concat_length] at hy
      obtain rfl := Option.some.inj hy
      rw [List.take_left]
      exact hx

/-- **Gas bumps are real replacements where the market rises.** In every run of confirm cycles in
which each build is at least at the fees recorded before for its transaction at its nonce, with a
tip within its fee, every recorded replacement bids above the original and all earlier ones. -/
theorem recorded_above {P : Primitives} {A : Alloy} {worker : Worker} {nonces : List ℕ}
    {w w' : List Recorded} {l : List (Entry (Ask External Dispatch) (Answer Reply Ack) _)}
    {r : Except WorkerError Unit}
    (hrun : Played (stall Rising) (confirmCycles P A worker nonces).run w l r w') :
    Escalates w w' := by
  have hbids : Bids Rising w (confirmCycles P A worker nonces) := confirmCycles_bids nonces w
  have hsat := (hbids []).invariant (I := Escalates w) (by rintro v v' rfl h; exact h) (fun _ _ hb h => h.outbids hb)
    ⟨[], (List.append_nil w).symm, by simp⟩
  obtain ⟨w₁, hw, _, h⟩ := hsat.played hrun
  obtain rfl : w' = w₁ := hw
  exact h

/-! ## A market that stands still, and one that rises -/

namespace Sample

def original : Recorded := ⟨⟨0, "", "t1", 0, 0⟩, ⟨{ tx with fees := .dynamic 10 5 }, signature, 0⟩⟩

/-- The transaction is built with the node's estimate, where the market permits it. -/
def quoted (permits : List Recorded → EoaTransactionRequest → ℕ → Fees → Bool)
    (estimate : List Recorded → ℕ × ℕ) (w : List Recorded) (request : EoaTransactionRequest)
    (nonce : ℕ) : Except WorkerError TypedTransaction :=
  let fees := Fees.dynamic (estimate w).1 (estimate w).2
  if request.transactionTypeData = none ∧ fees.maxFee ≤ u128Max ∧ fees.priorityFee ≤ u128Max ∧
      permits w request nonce fees then .ok { tx with fees }
  else .error .internalError

/-- A transaction that stays stalled; the journal is not reached. -/
def stalling (permits : List Recorded → EoaTransactionRequest → ℕ → Fees → Bool)
    (estimate : List Recorded → ℕ × ℕ) :
    (q : Ask External Dispatch) → List Recorded → Answer Reply Ack q × List Recorded
  | .outside (.addGasBumpAttempt row signed), w => (.ok (), w ++ [⟨row, signed⟩])
  | .outside (.buildTypedTransaction request nonce), w =>
    (quoted permits estimate w request nonce, w)
  | .outside (.transactionData id), w =>
    (.ok (if id = "t1" then some ⟨"t1", request, 0⟩ else none), w)
  | .outside .now, w => (100000 + w.length, w)
  | .outside x, w => (outside x ⟨admitted, []⟩, w)
  | .invoke _, w => (0, w)
  | .await _ _, w => (.error .storage, w)
  | .read _, w => (.error .storage, w)
  | .send _, w => (.error none, w)

theorem stalling_act (market : Market)
    {permits : List Recorded → EoaTransactionRequest → ℕ → Fees → Bool}
    {estimate : List Recorded → ℕ × ℕ}
    (h : ∀ w request nonce fees, permits w request nonce fees → market w request nonce fees)
    (q : Ask External Dispatch) (w : List Recorded) : (stall market).act q w
      (stalling permits estimate q w).1 (stalling permits estimate q w).2 := by
  cases q with
  | outside x =>
    cases x with
    | addGasBumpAttempt row signed => exact .inl rfl
    | transactionData id =>
      refine ⟨rfl, fun data hdata => ?_⟩
      have hdata := Except.ok.inj hdata
      split_ifs at hdata with hid
      rw [← Option.some.inj hdata, hid]
      exact ⟨rfl, rfl⟩
    | buildTypedTransaction request nonce =>
      refine ⟨rfl, fun t ht => ?_⟩
      have ht : quoted permits estimate w request nonce = .ok t := ht
      unfold quoted at ht
      dsimp only at ht
      split_ifs at ht with hcond
      rw [← Except.ok.inj ht, hcond.1]
      refine ⟨⟨.eip1559 (estimate w).1 (estimate w).2, rfl⟩, ⟨hcond.2.1, hcond.2.2.1⟩, ?_⟩
      exact h w request nonce _ hcond.2.2.2
    | sign t credential =>
      refine ⟨rfl, fun signed hs => ?_⟩
      rw [← Except.ok.inj hs]
    | _ => rfl
  | _ => rfl

/-- Two cycles under an estimate that stays. -/
noncomputable def still : List Recorded :=
  ((confirmCycles primitives alloy worker [0, 0]).run.exec
    (stalling (fun _ _ _ _ => true) fun _ => (10, 5)) [original]).2

set_option maxRecDepth 10000 in
theorem still_wires : still.map (fun x => (x.row.transactionId, x.row.nonce, x.signed.tx.fees)) =
    [("t1", 0, .dynamic 10 5), ("t1", 0, .dynamic 12 6), ("t1", 0, .dynamic 12 6)] := by
  decide +kernel

/-- Two cycles under an estimate that doubles. -/
def doubling (w : List Recorded) : ℕ × ℕ := if w.length = 1 then (10, 5) else (20, 10)

noncomputable def rising : List Recorded :=
  ((confirmCycles primitives alloy worker [0, 0]).run.exec
    (stalling (fun w request nonce fees => decide (Rising w request nonce fees)) doubling)
    [original]).2

set_option maxRecDepth 10000 in
theorem rising_wires : rising.map (fun x => (x.row.transactionId, x.row.nonce, x.signed.tx.fees)) =
    [("t1", 0, .dynamic 10 5), ("t1", 0, .dynamic 12 6), ("t1", 0, .dynamic 24 12)] := by
  decide +kernel

end Sample

/-- The estimates double, and so do the replacements. -/
theorem recorded_above_doubling : Escalates [Sample.original] Sample.rising ∧
    Sample.rising.map (fun x => (x.row.transactionId, x.row.nonce, x.signed.tx.fees)) =
      [("t1", 0, .dynamic 10 5), ("t1", 0, .dynamic 12 6), ("t1", 0, .dynamic 24 12)] := by
  refine ⟨?_, Sample.rising_wires⟩
  exact recorded_above (Prog.played_exec
    (Sample.stalling_act Rising fun _ _ _ _ h => of_decide_eq_true h) (fun _ => rfl)
    (confirmCycles Sample.primitives Sample.alloy Sample.worker [0, 0]).run [Sample.original])

/-- **An estimate that stays gives the same replacement again.** The second gas bump has the fees of
the first one. -/
theorem same_estimate_same_bump : ∃ l r w',
    Played (stall fun _ _ _ _ => True)
      (confirmCycles Sample.primitives Sample.alloy Sample.worker [0, 0]).run [Sample.original]
      l r w' ∧
    w'.map (fun x => (x.row.transactionId, x.row.nonce, x.signed.tx.fees)) =
      [("t1", 0, .dynamic 10 5), ("t1", 0, .dynamic 12 6), ("t1", 0, .dynamic 12 6)] ∧
    ¬Escalates [Sample.original] w' := by
  refine ⟨_, _, Sample.still, Prog.played_exec (Sample.stalling_act _ fun _ _ _ _ _ => trivial)
    (fun _ => rfl) _ _, Sample.still_wires, ?_⟩
  rintro ⟨added, heq, hall⟩
  have hwires := Sample.still_wires
  rw [heq] at hwires
  rcases added with _ | ⟨x, _ | ⟨y, rest⟩⟩
  · simp at hwires
  · simp at hwires
  · simp only [List.cons_append, List.nil_append, List.map_cons, List.cons.injEq, Prod.mk.injEq,
      List.map_eq_nil_iff] at hwires
    obtain ⟨_, ⟨hxid, hxnonce, hxfees⟩, ⟨hyid, hynonce, hyfees⟩, _⟩ := hwires
    have habove := hall 1 y rfl x (by simp) ⟨hyid.trans hxid.symm, hynonce.trans hxnonce.symm⟩
    rw [hxfees, hyfees] at habove
    exact habove.2 ⟨rfl, rfl⟩

end EngineCore.Eoa.Wire
