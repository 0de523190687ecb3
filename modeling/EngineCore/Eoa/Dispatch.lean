import EngineCore.Eoa.Paths
import Mathlib.Data.Countable.Basic
import Mathlib.Logic.Equiv.List
import Mathlib.Tactic.DeriveCountable

/-!
# Every dispatched wire is journaled

* **`dispatched_wires`**: in every run of any number of workers, dispatched bytes are recorded ones
  of the admitted request.
-/

namespace EngineCore.Eoa.Wire

open Interact Recovery Executors EngineCore.Finality

variable {P : Primitives} {A : Alloy} {w : Worker} {v : World Dispatch}

/-! ## One flow -/

/-- The bytes are a committed wire of the request that is admitted under the id. -/
def Journaled (P : Primitives) (A : Alloy) (d : Dispatch) (db : Database) : Prop :=
  ∃ request tx, d.id = request.transactionId ∧ d.bytes = tx.wire A ∧ Backed P A request tx db

abbrev Sound {α : Type} (P : Primitives) (A : Alloy) (x : Flow α) : Prop :=
  ∀ v, Does P (Journaled P A) v x fun _ _ => True

theorem inquire_silent (x : External) : Silent P (inquire x) := .ask x

theorem stored_silent {α : Type} (r : Except StoreError α) : Silent P (stored r) := .lift _

theorem provider_still (tag : BlockNumberOrTag) : Still P (provider tag) :=
  .outside (External.block tag)

theorem handOver_does {request : EoaTransactionRequest} {tx : Signed} {path : Path}
    (hv : Reached P v.journal) (hb : Backed P A request tx v.db) :
    Does P (Journaled P A) v (handOver ⟨path, request.transactionId, tx.wire A⟩)
      fun _ _ => True :=
  .send fun _ hl _ => ⟨request, tx, rfl, rfl, hb.extends (hv.extends hl)⟩

/-! ## Streams of futures -/

/-- Every transaction of the list is backed by the journal. -/
def AllBacked (P : Primitives) (A : Alloy) (ts : List BorrowedTransaction) (v : World Dispatch) :
    Prop :=
  Reached P v.journal ∧ ∀ b ∈ ts, Backed P A b.userRequest b.signedTransaction v.db

theorem AllBacked.later {ts : List BorrowedTransaction} {v v' : World Dispatch}
    (h : AllBacked P A ts v) (hl : Later P v v') : AllBacked P A ts v' :=
  ⟨h.1.later hl, fun b hb => (h.2 b hb).extends (h.1.extends hl)⟩

theorem sat_dispatchBorrowed {b : BorrowedTransaction} (path : Path) (hv : Reached P v.journal)
    (hb : Backed P A b.userRequest b.signedTransaction v.db)
    (l : List (Entry (Ask External Dispatch) (Answer Reply Ack) (World Dispatch))) :
    Sat (machine P Reply Ack) (Sends (Journaled P A)) (fun _ _ _ => True)
      (dispatchBorrowed A path b) l v := by
  intro v₁ hl sent v₂ hsend
  refine ⟨.inr ⟨_, ⟨b.userRequest, b.signedTransaction, rfl, rfl, hb.extends (hv.extends hl)⟩,
    hsend⟩, ?_⟩
  exact fun _ _ _ _ hact => ⟨.inl hact, trivial⟩

theorem sat_rebroadcast {b : BorrowedTransaction} (hv : Reached P v.journal)
    (hb : Backed P A b.userRequest b.signedTransaction v.db) :
    Sat (machine P Reply Ack) (Sends (Journaled P A)) (fun _ _ _ => True)
      (rebroadcast A b) [] v := by
  intro v₁ hl receipt v₂ hact
  obtain rfl : v₂ = v₁ := hact
  refine ⟨.inl rfl, ?_⟩
  dsimp only
  split_ifs
  · exact fun _ _ _ _ hact => ⟨.inl hact, trivial⟩
  · exact sat_dispatchBorrowed .borrowedRecovery (hv.later hl) (hb.extends (hv.extends hl)) _

theorem sat_schedule : Sat (machine P Reply Ack) (Sends (Journaled P A)) (fun _ _ _ => True)
    (later .schedule .done) [] v :=
  fun _ _ _ _ hact => ⟨.inl hact, trivial⟩

section Streams

variable {I : World Dispatch → Prop} {K : ℕ → World Dispatch → Prop}
variable {authorize : ℕ → Future (Except WorkerError Unit)}
variable {dispatch : ℕ → Future (Option SubmissionResult)}

theorem drives_of (hkeeps : ∀ v v', Later P v v' → I v → I v')
    (hready : ∀ i v v', Later P v v' → K i v → K i v')
    (hauthorize : ∀ i v, I v → Sat (machine P Reply Ack) (Sends (Journaled P A))
      (fun r _ v => r.toOption.isSome → K i v) (authorize i) [] v)
    (hdispatch : ∀ i v, I v → K i v → Sat (machine P Reply Ack) (Sends (Journaled P A))
      (fun _ _ _ => True) (dispatch i) [] v) :
    Drives (machine P Reply Ack) (Sends (Journaled P A)) I K authorize dispatch
      (later .schedule .done) where
  refl := Later.refl
  trans _ _ _ := Later.trans
  others _ _ _ _ := act_later
  keeps := hkeeps
  ready := hready
  pick _ _ := sat_schedule
  authorize := hauthorize
  dispatch := hdispatch

theorem streamed_does {count concurrency polls : ℕ}
    (h : Drives (machine P Reply Ack) (Sends (Journaled P A)) I K authorize dispatch
      (later .schedule .done)) (hI : I v) :
    Does P (Journaled P A) v (streamed (authorizeThenDispatch count concurrency authorize dispatch
      (later .schedule .done) polls)) fun _ _ => True := by
  refine ⟨fun _ => (sat_bind (M := machine P Reply Ack) (G := Sends (Journaled P A)) _ _).mpr ?_⟩
  refine (sat_authorizeThenDispatch h polls hI []).post_mono fun r _ _ _ => ?_
  exact fun _ _ => trivial

end Streams

/-! ## Initial send and borrowed recovery -/

theorem authorizeWhileOwned_does (request : EoaTransactionRequest) (tx : Signed) :
    Does P (Journaled P A) v (authorizeWhileOwned (beforeEoa P A request tx))
      fun _ v' => Reached P v'.journal ∧ Backed P A request tx v'.db := by
  refine (inquire_silent _ _ v).bind fun r v₁ _ _ _ => ?_
  refine (stored_silent r _ v₁).bind fun _ v₂ _ _ _ => ?_
  refine (beforeEoa_does A request tx).bind fun _ v₃ _ hv₃ hbacked => ?_
  refine (inquire_silent _ _ v₃).bind fun r v₄ hl₄ hv₄ _ => ?_
  refine (stored_silent r _ v₄).mono fun _ v₅ hl₅ hv₅ _ => ?_
  exact ⟨hv₅, hbacked.extends (hv₃.extends (hl₄.trans hl₅))⟩

theorem dispatchReservedTransactions_sound (ts : List BorrowedTransaction) (polls : ℕ) :
    Sound P A (dispatchReservedTransactions P A w ts polls) := by
  refine fun v => .of_reached fun hv => streamed_does (I := fun v => Reached P v.journal)
    (K := fun i v => Reached P v.journal ∧
      ∀ b, ts[i]? = some b → Backed P A b.userRequest b.signedTransaction v.db)
    (drives_of (fun _ _ hl h => h.later hl) ?_ ?_ ?_) hv
  · exact fun i v v' hl h => ⟨h.1.later hl, fun b hb => (h.2 b hb).extends (h.1.extends hl)⟩
  · intro i v hv
    cases hb : ts[i]? with
    | none => exact fun h => by cases h
    | some b =>
      refine ((authorizeWhileOwned_does b.userRequest b.signedTransaction).sat hv).post_mono ?_
      intro r _ v' hr hok
      cases r with
      | error e => cases hok
      | ok u =>
        refine ⟨(hr u rfl).1, ?_⟩
        rintro b' ⟨⟩
        exact (hr u rfl).2
  · intro i v hv hready
    cases hb : ts[i]? with
    | none => trivial
    | some b => exact sat_dispatchBorrowed .initialSend hv (hready.2 b hb) []

theorem processTransactions_sound (polls rounds total : ℕ) :
    Sound P A (processTransactions P A w polls rounds total) := by
  induction rounds generalizing total with
  | zero => exact fun v => .ret trivial
  | succ rounds ih =>
    intro v
    refine (inquire_silent _ _ v).bind fun r v₁ _ _ _ => .check fun batch _ => ?_
    cases batch with
    | none => exact .ret trivial
    | some batch =>
      cases batch with
      | nil => exact ih total v₁
      | cons b bs =>
        refine (dispatchReservedTransactions_sound (b :: bs) polls v₁).bind
          fun results v₂ _ _ _ => ?_
        refine (inquire_silent _ _ v₂).bind fun r v₃ _ _ _ => ?_
        exact (stored_silent r _ v₃).bind fun moved v₄ _ _ _ => ih (total + moved) v₄

theorem authorizeBorrowed_does (ts : List BorrowedTransaction) :
    Does P (Journaled P A) v (authorizeBorrowed P A ts) fun r v' => AllBacked P A r.2 v' := by
  induction ts generalizing v with
  | nil => exact .of_reached fun hv => .ret ⟨hv, by rintro b ⟨⟩⟩
  | cons b ts ih =>
    refine (Does.eoa (terminalEoaProjection_silent _ _ _ _ _ _ v)).bind fun hash v₁ _ _ _ => ?_
    cases hash with
    | some hash =>
      refine (inquire_silent _ _ v₁).bind fun now v₂ _ _ _ => ?_
      exact ih.bind fun r v₃ _ _ hr => .ret hr
    | none =>
      refine (beforeEoa_does A b.userRequest b.signedTransaction).bind fun _ v₂ _ hv₂ hb => ?_
      refine ih.bind fun r v₃ hl _ hr => .ret ⟨hr.1, fun b' hb' => ?_⟩
      rcases List.mem_cons.mp hb' with rfl | hb'
      · exact hb.extends (hv₂.extends hl)
      · exact hr.2 b' hb'

theorem recoverBorrowedState_sound (polls : ℕ) : Sound P A (recoverBorrowedState P A w polls) := by
  intro v
  refine (inquire_silent _ _ v).bind fun r v₁ _ _ _ => ?_
  refine (stored_silent r _ v₁).bind fun borrowed v₂ _ _ _ => ?_
  by_cases hempty : borrowed.isEmpty
  · rw [if_pos hempty]
    exact .ret trivial
  rw [if_neg hempty]
  refine (authorizeBorrowed_does _).bind fun r v₃ _ _ hbacked => ?_
  refine Does.bind (M := fun _ _ => True) (streamed_does (I := AllBacked P A r.2)
    (K := fun _ => AllBacked P A r.2)
    (drives_of (fun _ _ hl h => h.later hl) (fun _ _ _ hl h => h.later hl) ?_ ?_) hbacked) ?_
  · exact fun i v hv _ => hv
  · intro i v hv _
    cases hb : r.2[i]? with
    | none => trivial
    | some b => exact sat_rebroadcast hv.1 (hv.2 b (List.mem_of_getElem? hb))
  · intro recovered v₄ _ _ _
    refine (inquire_silent _ _ v₄).bind fun r v₅ _ _ _ => stored_silent r _ v₅

/-! ## Gas bump -/

section Outside

variable {Ψ : Ask External Dispatch → Prop}
  (hΨ : ∀ x, (∀ row signed, x ≠ .addGasBumpAttempt row signed) → Ψ (.outside x))

include hΨ

theorem onChain_within {α : Type} (x : Reads α) :
    Within Ψ (onChain provider x : Work Reply Ack EngineError α) := by
  have key : ∀ p : Prog BlockNumberOrTag Block (Except EngineError α), (p.embed provider).Only Ψ := by
    intro p
    induction p with
    | done r => trivial
    | ask tag k ih => exact Prog.Only.bind ⟨hΨ _ (by rintro row signed ⟨⟩), fun _ => trivial⟩ ih
  exact key x.run

theorem mayBeIncluded_within (rows : List Submitted) : Within Ψ (mayBeIncluded P w rows) := by
  induction rows with
  | nil => exact .ret _
  | cons row rows ih =>
    unfold mayBeIncluded
    cases P.b256 (.str row.transactionHash) with
    | none => exact .ret _
    | some hash =>
      refine .bind (.ask (hΨ _ (by rintro row signed ⟨⟩))) fun found => ?_
      cases found with
      | error _ => exact .ret _
      | ok found =>
        cases found with
        | none => exact ih
        | some receipt =>
          refine .bind (onChain_within hΨ _).capture fun assessment => ?_
          cases assessment with
          | error _ => exact .ret _
          | ok assessment =>
            cases assessment with
            | orphaned => exact ih
            | finalized _ => exact .ret _
            | pending canonical =>
              cases canonical with
              | false => exact ih
              | true => exact .ret _

theorem afterFailedBuild_within (nonce : ℕ) (e : WorkerError) :
    Within Ψ (afterFailedBuild nonce e) := by
  refine .bind (.ask (hΨ _ (by rintro row signed ⟨⟩))) fun _ =>
    .bind (.ask (hΨ _ (by rintro row signed ⟨⟩))) fun counts => ?_
  cases counts with
  | error _ => exact .fail _
  | ok preconfirmed =>
    dsimp only
    split_ifs
    · refine .bind (.ask (hΨ _ (by rintro row signed ⟨⟩))) fun health => ?_
      cases health with
      | error _ => exact .ret _
      | ok _ =>
        exact .bind (.ask (hΨ _ (by rintro row signed ⟨⟩))) fun _ =>
          .bind (.ask (hΨ _ (by rintro row signed ⟨⟩))) fun _ => .ret _
    · exact .fail _

end Outside

theorem sendReplacement_sound (expectedNonce : ℕ) (data : TransactionData) (tx : TypedTransaction) :
    Sound P A (sendReplacement P A expectedNonce data tx) := by
  intro v
  refine (inquire_silent _ _ v).bind fun r v₁ _ _ _ => .check fun signed _ => ?_
  refine (inquire_silent _ _ v₁).bind fun now v₂ _ _ _ => ?_
  refine (inquire_silent _ _ v₂).bind fun r v₃ _ _ _ => ?_
  refine (stored_silent r _ v₃).bind fun _ v₄ _ _ _ => ?_
  refine (beforeEoa_does A data.userRequest signed).bind fun _ v₅ _ hv₅ hbacked => ?_
  refine (handOver_does hv₅ hbacked).bind fun sent v₆ _ _ _ => ?_
  cases sent with
  | ok _ => exact .ret trivial
  | error _ => exact .fail

theorem attemptGasBumpForStalledNonce_sound (expectedNonce : ℕ) :
    Sound P A (attemptGasBumpForStalledNonce P A w expectedNonce) := by
  intro v
  refine (inquire_silent _ _ v).bind fun r v₁ _ _ _ => ?_
  refine (stored_silent r _ v₁).bind fun rows v₂ _ _ _ => ?_
  have hrows : Silent P (mayBeIncluded P w rows) :=
    .of_outside (mayBeIncluded_within (fun x _ => ⟨x, rfl⟩) rows)
  refine (hrows _ v₂).bind fun found v₃ _ _ _ => ?_
  by_cases hfound : found
  · rw [if_pos hfound]
    exact .ret trivial
  rw [if_neg hfound]
  cases newest rows with
  | none => exact .ret trivial
  | some row =>
    refine (inquire_silent _ _ v₃).bind fun r v₄ _ _ _ => ?_
    refine (stored_silent r _ v₄).bind fun data v₅ _ _ _ => ?_
    cases data with
    | none => exact .ret trivial
    | some data =>
      refine (inquire_silent _ _ v₅).bind fun now v₆ _ _ _ => ?_
      by_cases hyoung : now - data.createdAt < nonceStallLimitMs
      · rw [if_pos hyoung]
        exact .ret trivial
      rw [if_neg hyoung]
      refine (inquire_silent _ _ v₆).bind fun built v₇ _ _ _ => ?_
      cases built with
      | error e => exact Silent.of_outside (afterFailedBuild_within (fun x _ => ⟨x, rfl⟩) _ e) _ v₇
      | ok tx =>
        dsimp only
        cases bumpTransactionFees tx 120 data.userRequest.transactionTypeData with
        | none => exact .ret trivial
        | some tx => exact sendReplacement_sound expectedNonce data tx v₇

/-! ## Gap replay -/

theorem gapWindow_silent (latest cachedHighWater now : ℕ) (found : Option GapReplayState) :
    Silent P (gapWindow latest cachedHighWater now found) := by
  cases found with
  | some state => exact .ret _
  | none =>
    refine .bind (inquire_silent _) fun r => .bind (.lift _) fun health => ?_
    split_ifs
    · exact .ret _
    refine .bind (inquire_silent _) fun r => .bind (stored_silent _) fun highest => ?_
    cases highest.head? with
    | none => exact .ret _
    | some row =>
      dsimp only
      split_ifs
      · exact .fail _
      · exact .ret _
      · exact .ret _

theorem observeProgress_silent (latest now : ℕ) (state : GapReplayState) :
    Silent P (observeProgress latest now state) := by
  unfold observeProgress
  split_ifs
  · exact .bind (inquire_silent _) fun _ => .bind (.lift _) fun _ => .bind (inquire_silent _)
      fun _ => .bind (stored_silent _) fun _ => .bind (inquire_silent _) fun _ =>
      .bind (stored_silent _) fun _ => .ret _
  · exact .ret _

theorem retainedWire_ok {request : EoaTransactionRequest} {id : String} {nonce : ℕ}
    {attempt : Json} {wire : List UInt8} {signed : Signed}
    (h : retainedWire P A request id nonce attempt = .ok (wire, signed)) :
    wire = signed.wire A := by
  unfold retainedWire at h
  cases hw : recordedWire attempt with
  | error e => simp [hw, bind, Except.bind] at h
  | ok bytes =>
    simp only [hw, bind, Except.bind] at h
    split at h
    · cases h
    split_ifs at h with hbad
    split at h
    · cases h
    split at h
    · cases h
    split_ifs at h
    obtain ⟨rfl, rfl⟩ := Prod.mk.inj (Except.ok.inj h)
    push Not at hbad
    exact hbad.2.1.symm

theorem replayNonce_sound (state : GapReplayState) (nonce : ℕ) :
    Sound P A (replayNonce P A w state nonce) := by
  intro v
  refine (inquire_silent _ _ v).bind fun r v₁ _ _ _ => .check fun rows _ => ?_
  cases rows.head? with
  | none => exact .ret trivial
  | some member =>
    dsimp only
    split_ifs
    · exact .ret trivial
    refine (Does.eoa (latestEoaAttempt_silent _ _ _ v₁).journal).bind fun attempt v₂ _ _ _ => ?_
    cases attempt with
    | none => exact .ret trivial
    | some attempt =>
      refine (Does.eoa (Silent.read _ _ v₂).journal).bind fun found v₃ _ _ _ => ?_
      cases found with
      | none => exact .fail
      | some record =>
        dsimp only
        cases A.request record.payload with
        | none => exact .fail
        | some request =>
          refine .check fun retained hretained => ?_
          obtain ⟨wire, signed⟩ := retained
          obtain rfl := retainedWire_ok hretained
          refine (Does.eoa (validateEoaConfirmation_silent _ _ _ _ _ _ _ v₃)).bind
            fun _ v₄ _ _ _ => ?_
          refine (inquire_silent _ _ v₄).bind fun r v₅ _ _ _ => ?_
          refine (stored_silent r _ v₅).bind fun _ v₆ _ _ _ => ?_
          refine (beforeEoa_does A request signed).bind fun _ v₇ _ hv₇ hbacked => ?_
          refine (handOver_does hv₇ hbacked).bind fun sent v₈ _ _ _ => ?_
          cases sent with
          | ok _ => exact .ret trivial
          | error _ => exact .ret trivial

theorem replayNonces_sound (state : GapReplayState) (nonces : List ℕ) :
    Sound P A (replayNonces P A w state nonces) := by
  induction nonces with
  | nil => exact fun v => .ret trivial
  | cons nonce nonces ih =>
    intro v
    refine (replayNonce_sound state nonce v).bind fun sent v₁ _ _ _ => ?_
    split_ifs
    · exact ih v₁
    · exact .ret trivial

theorem replaySubmittedGap_sound (latest cachedHighWater : ℕ) :
    Sound P A (replaySubmittedGap P A w latest cachedHighWater) := by
  intro v
  refine (inquire_silent _ _ v).bind fun r v₁ _ _ _ => .check fun found _ => ?_
  refine (inquire_silent _ _ v₁).bind fun now v₂ _ _ _ => ?_
  refine (gapWindow_silent latest cachedHighWater now found _ v₂).bind fun state v₃ _ _ _ => ?_
  cases state with
  | none => exact .ret trivial
  | some state =>
    dsimp only
    split_ifs
    · exact (inquire_silent _ _ v₃).bind fun r v₄ _ _ _ => stored_silent r _ v₄
    refine (observeProgress_silent latest now state _ v₃).bind fun state v₄ _ _ _ => ?_
    by_cases hearly : now < state.nextAt
    · rw [if_pos hearly]
      exact .ret trivial
    rw [if_neg hearly]
    refine (inquire_silent _ _ v₄).bind fun r v₅ _ _ _ => ?_
    refine (stored_silent r _ v₅).bind fun _ v₆ _ _ _ => ?_
    refine (Does.eoa (checkContinuity_silent provider_still _ v₆)).bind fun _ v₇ _ _ _ => ?_
    exact replayNonces_sound _ _ v₇

/-- **Every flow sends only journaled wires.** -/
theorem run_sound (j : Job) : Sound P A (w.run P A j) := by
  cases j with
  | send polls => exact processTransactions_sound polls 10 0
  | recover polls => exact recoverBorrowedState_sound polls
  | gasBump expectedNonce => exact attemptGasBumpForStalledNonce_sound expectedNonce
  | replayGap latest cachedHighWater => exact replaySubmittedGap_sound latest cachedHighWater

/-! ## All runs -/

/-- The transaction has the chain, recipient, value, calldata and authorizations of an admitted
payload, given in its canonical form, and the payload's sender signed it. -/
structure Fulfils (P : Primitives) (A : Alloy) (payload : Json) (tx : TypedTransaction)
    (signature : EcdsaSignature) (chainId : ℕ) (sender : Address) : Prop where
  chainId : tx.chainId = some chainId ∧ payload.get? "chainId" = some (jsonNat chainId)
  recipient : payload.get? "to" = some (optional (fun a => .str (P.addressText a)) tx.recipient)
  value : payload.get? "value" = some (.str (Hex.quantity tx.value))
  data : payload.get? "data" = some (.str (Hex.text tx.input))
  authorizations : (payload.get? "authorizationList").getD (.arr []) =
    (Json.arr ((tx.authorizationList.getD []).map (SignedAuthorization.toJson P))).sort
  sender : A.recover tx signature = some sender ∧
    payload.get? "from" = some (.str (P.addressText sender))

theorem toJson_keys (request : EoaTransactionRequest) :
    ∃ fields, request.toJson P = .obj fields ∧ (Json.keys fields).Nodup := by
  refine ⟨_, rfl, ?_⟩
  rcases request.transactionTypeData with _ | ⟨_ | _, _ | _, _ | _⟩ | ⟨_ | _, _ | _⟩ | _ | _ <;>
    simp [Json.keys, TransactionTypeData.fields, present]

theorem toJson_sort_get? (request : EoaTransactionRequest) (k : String) :
    (request.toJson P).sort.get? k = ((request.toJson P).get? k).map Json.sort := by
  obtain ⟨fields, heq, hkeys⟩ := toJson_keys (P := P) request
  rw [heq]
  exact Json.get?_sort hkeys k

theorem authorizations_of_toJson (request : EoaTransactionRequest) :
    ((request.toJson P).sort.get? "authorizationList").getD (.arr []) =
      (Json.arr (request.authorizations.map (SignedAuthorization.toJson P))).sort := by
  rw [toJson_sort_get?]
  rcases h : request.transactionTypeData with _ | ⟨_ | l, _ | _, _ | _⟩ | ⟨_ | _, _ | _⟩ | _ | _ <;>
    simp [EoaTransactionRequest.toJson, EoaTransactionRequest.authorizations, h, Json.get?,
      List.lookup_cons, TransactionTypeData.fields, present, Json.sort, Json.sortItems]

theorem Matches.fulfils {request : EoaTransactionRequest} {tx : TypedTransaction}
    {signature : EcdsaSignature} (h : Matches A request tx signature) :
    Fulfils P A (request.toJson P).sort tx signature request.chainId request.sender where
  chainId := ⟨h.chainId, by
    rw [toJson_sort_get?]
    simp [EoaTransactionRequest.toJson, Json.get?, List.lookup_cons, jsonNat, Json.sort]⟩
  recipient := by
    rw [toJson_sort_get?, h.recipient]
    cases hr : request.recipient <;>
      simp [EoaTransactionRequest.toJson, Json.get?, List.lookup_cons, optional, Json.sort, hr]
  value := by
    rw [toJson_sort_get?, h.value]
    simp [EoaTransactionRequest.toJson, Json.get?, List.lookup_cons, Json.sort]
  data := by
    rw [toJson_sort_get?, h.input]
    simp [EoaTransactionRequest.toJson, Json.get?, List.lookup_cons, Json.sort]
  authorizations := by
    rw [h.authorizations]
    exact authorizations_of_toJson request
  sender := ⟨h.sender, by
    rw [toJson_sort_get?]
    simp [EoaTransactionRequest.toJson, Json.get?, List.lookup_cons, Json.sort]⟩

theorem eoaAttempt_wire (request : EoaTransactionRequest) (tx : Signed) :
    (strField (eoaAttempt P A request tx).sort "signedTransaction").bind Hex.parse
      = some (tx.wire A) := by
  have hkeys : (Json.keys [("transactionHash", Json.str (hashText tx.hash)),
      ("chainId", jsonNat request.chainId), ("sender", .str (P.addressText request.sender)),
      ("nonce", jsonNat tx.tx.nonce),
      ("signedTransaction", .str (Hex.text (tx.wire A)))]).Nodup := by
    simp [Json.keys]
  unfold strField eoaAttempt
  rw [Json.get?_sort hkeys]
  simp [Json.get?, List.lookup_cons, Json.sort, Json.asStr, Hex.parse_text]

/-- **Every dispatched wire is a journaled wire of the admitted intent.** In every run of any number
of workers, whatever Redis, the node, the signer and the clock answer, whichever workers are lost
and however the journal is used, crashes and is opened again meanwhile: when bytes are handed to a
node for an id, the attempts table holds exactly these bytes under that id and under the key of the
nonce in them, and the bytes decode to a transaction with the fields of the payload admitted under
that id, signed by its sender. -/
theorem dispatched_wires (hA : A.Lossless) {w₀ : Recovery.World} (hfound : Founded w₀.db)
    {s : Pool.State (Ask External Dispatch) (Answer Reply Ack) (World Dispatch) (Worker × Job)
      fun j => Except WorkerError j.2.Value}
    (hs : (pool P fun j : Worker × Job => j.1.run P A j.2).Steps
      (.initial ⟨.initial w₀, []⟩) s) :
    ∀ d ∈ s.world.sent, ∃ tx signature hash chainId sender,
      A.decode d.message.bytes = some (⟨tx, signature, hash⟩, []) ∧
      (∃ row ∈ d.db.attempts, row.id = d.message.id ∧
        row.replayKey = evmKey P chainId sender tx.nonce ∧
        (strField row.payload "signedTransaction").bind Hex.parse = some d.message.bytes) ∧
      ∃ r ∈ d.db.admissions, r.id = d.message.id ∧ r.kind = .eoa ∧
        ∃ payload, canonical r.payload = .ok payload ∧
          Fulfils P A payload tx signature chainId sender := by
  intro d hd
  have hrun := sends_of_steps (fun j v => run_sound j.2 v) ⟨w₀, hfound, .refl⟩ rfl hs d hd
  obtain ⟨request, tx, hid, hbytes, hbacked⟩ := hrun
  obtain ⟨hash, hdecode⟩ := hA tx.tx tx.signature
  obtain ⟨r, hr, hrid, hkind, payload, hstored, hown⟩ := hbacked.admitted
  obtain ⟨encoded, henc, hrow⟩ := hbacked.attempted
  refine ⟨tx.tx, tx.signature, hash, request.chainId, request.sender, ?_, ?_, ?_⟩
  · rw [hbytes]
    exact hdecode
  · refine ⟨_, hrow, hid.symm, rfl, ?_⟩
    rw [canonical_ok henc, hbytes]
    exact eoaAttempt_wire request tx
  · refine ⟨r, hr, hrid.trans hid.symm, hkind, payload, hstored, ?_⟩
    rw [canonical_ok hown]
    exact hbacked.carries.fulfils

/-! ## A replacement -/

namespace Sample

instance countable_bitVec (n : ℕ) : Countable (BitVec n) :=
  Function.Injective.countable (f := BitVec.toNat) fun _ _ => BitVec.eq_of_toNat_eq

instance countable_uint8 : Countable UInt8 :=
  Function.Injective.countable (f := UInt8.toNat) fun _ _ => UInt8.toNat_inj.mp

deriving instance Countable for TxType, Fees, SignedAuthorization, TypedTransaction, EcdsaSignature

def tx : TypedTransaction where
  txType := .eip1559
  chainId := some 1
  nonce := 0
  recipient := some 2
  value := 3
  input := [4]
  gasLimit := 21000
  fees := .dynamic 12 6
  accessList := []
  authorizationList := none
  blobs := []

def signature : EcdsaSignature := ⟨1, 1, false⟩

noncomputable def code (t : TypedTransaction × EcdsaSignature) : ℕ :=
  (exists_injective_nat (TypedTransaction × EcdsaSignature)).choose t

theorem code_injective : Function.Injective code :=
  (exists_injective_nat (TypedTransaction × EcdsaSignature)).choose_spec

open Classical in
/-- A library that gives the sample's transaction one byte, and any other one a number. -/
noncomputable def alloy : Alloy where
  encode t s := if t = tx ∧ s = signature then [1] else 0 :: List.replicate (code (t, s)) 0
  decode bytes :=
    if bytes = [1] then some (⟨tx, signature, 0⟩, [])
    else if h : ∃ t, 0 :: List.replicate (code t) 0 = bytes then
      some (⟨h.choose.1, h.choose.2, 0⟩, [])
    else none
  keccak256 _ := 0
  recover _ _ := some 1
  request _ := none

theorem lossless : alloy.Lossless := by
  intro t s
  refine ⟨0, ?_⟩
  by_cases hs : t = tx ∧ s = signature
  · obtain ⟨rfl, rfl⟩ := hs
    simp [alloy]
  · have hne : ¬(0 :: List.replicate (code (t, s)) 0 : List UInt8) = [1] := by simp
    have hex : ∃ t', (0 :: List.replicate (code t') 0 : List UInt8)
        = 0 :: List.replicate (code (t, s)) 0 := ⟨(t, s), rfl⟩
    have hchoose : hex.choose = (t, s) := by
      refine code_injective ?_
      have := congrArg List.length hex.choose_spec
      simpa using this
    simp only [alloy, if_neg hs, if_neg hne, dif_pos hex, hchoose]

def request : EoaTransactionRequest where
  transactionId := "t1"
  chainId := 1
  sender := 1
  recipient := some 2
  value := 3
  data := [4]
  gasLimit := none
  webhookOptions := .null
  signingCredential := .null
  rpcCredentials := .null
  transactionTypeData := none

def primitives : Primitives :=
  { Recovery.Sample.primitives with addressText a := Hex.text (Hex.bytesBE 20 a.toNat) }

def fingerprint : String :=
  ((admissionFingerprint primitives .eoa (request.toJson primitives)).toOption).getD ""

def opened : State := State.after primitives none (.initial Recovery.Sample.world) (.openJournal none)

def admitted : State := State.after primitives none opened
  (.reserveAdmission "eoa" "t1" fingerprint (request.toJson primitives))

def worker : Worker := ⟨⟨1, .finalized⟩, 1, 32⟩

/-- A stalled transaction that can be replaced. -/
def outside : (x : External) → World Dispatch → Reply x
  | .schedule, _ => .producer
  | .now, _ => 100000
  | .block _, _ => .error (.other "")
  | .receipt _, _ => .ok none
  | .transactionCounts, _ => .ok 0
  | .ensureEoaLockOwned, _ => .ok ()
  | .reserve, _ => .ok none
  | .processBorrowed _, _ => .ok 0
  | .borrowed, _ => .ok []
  | .submittedForNonce _, _ => .ok [⟨0, "", "t1", 0, 0⟩]
  | .highestSubmitted, _ => .ok []
  | .transactionData _, _ => .ok (some ⟨"t1", request, 0⟩)
  | .buildTypedTransaction .., _ => .ok { tx with fees := .dynamic 10 5 }
  | .noteBalance _, _ => ()
  | .sign t _, _ => .ok ⟨t, signature, 0⟩
  | .addGasBumpAttempt .., _ => .ok ()
  | .health, _ => .ok ⟨0, 0⟩
  | .updateHealth _, _ => .ok ()
  | .gapState, _ => .ok none
  | .writeGapState _, _ => .ok ()
  | .firstSubmitted _, _ => .ok []

noncomputable def workers := pool primitives fun j : Worker × Job => j.1.run primitives alloy j.2

/-- The world after the replacement has been sent. -/
noncomputable def bumped : World Dispatch :=
  ((workers.body (worker, .gasBump 0)).exec (solo primitives outside fun _ => .ok 0)
    ⟨admitted, []⟩).2

set_option maxRecDepth 4000 in
theorem opened_up : opened.world.up = true := by decide +kernel

set_option maxRecDepth 10000 in
theorem bumped_sent : bumped.sent.map Sent.message = [⟨.gasBump, "t1", [1]⟩] := by decide +kernel

theorem admitted_steps : Steps primitives (.initial Recovery.Sample.world) admitted :=
  (Steps.call _ _ rfl rfl).trans (Steps.call _ _ rfl opened_up)

theorem bumped_steps :
    ∃ s, workers.Steps (.initial ⟨.initial Recovery.Sample.world, []⟩) s ∧ s.world = bumped := by
  have hjournal : workers.outside ⟨.initial Recovery.Sample.world, []⟩ ⟨admitted, []⟩ :=
    ⟨admitted_steps, rfl⟩
  obtain ⟨s, hjob, hworld, _⟩ := Pool.Steps.exec (S := workers) (solo_act outside fun _ => .ok 0)
    ⟨admitted, []⟩ (worker, .gasBump 0)
  exact ⟨s, .head (Pool.Step.outside hjournal) hjob, hworld⟩

end Sample

theorem dispatched_wires_bumped : ∃ d : Sent Dispatch, d.message = ⟨.gasBump, "t1", [1]⟩ ∧
    ∃ row ∈ d.db.attempts, row.id = "t1" ∧
      (strField row.payload "signedTransaction").bind Hex.parse = some [1] := by
  obtain ⟨s, hs, hworld⟩ := Sample.bumped_steps
  have hmem : (⟨.gasBump, "t1", [1]⟩ : Dispatch) ∈ s.world.sent.map Sent.message := by
    rw [hworld, Sample.bumped_sent]
    exact List.mem_singleton_self _
  obtain ⟨d, hd, hmessage⟩ := List.mem_map.mp hmem
  obtain ⟨_, _, _, _, _, _, ⟨row, hrow, hid, _, hwire⟩, _⟩ :=
    dispatched_wires Sample.lossless Recovery.Sample.founded hs d hd
  rw [hmessage] at hid hwire
  exact ⟨d, hmessage, row, hrow, hid, hwire⟩

end EngineCore.Eoa.Wire
