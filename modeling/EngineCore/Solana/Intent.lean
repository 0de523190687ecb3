import EngineCore.Solana.Signature

/-!
# One signature for each Solana request

A run that finds an attempt, in Redis or in the journal, only replays it. Two runs may both find
none and both sign; the journal then reserves one of the signatures.

* `Within Replays x`: the part `x` of a run asks for no blockhash and no signature;
* **`process_puts`**: a run builds an attempt only where it has found none;
* **`one_signature`**: in every run of any number of workers, all wires of one id carry one
  signature, and each is a recorded wire of the id.
-/

namespace EngineCore.Solana

open Interact Recovery Executors
open Except (bind_ok pure_ok)

variable {P : Primitives} {K : Sdk} {job : SolanaExecutorJobData}

/-! ## Nothing is rebuilt -/

theorem authorizeAttempt_quiet (a : SolanaTransactionAttempt) :
    Quiet (authorizeAttempt P K job a) := by
  unfold authorizeAttempt
  split_ifs
  · exact .fail _
  · exact .bind validatePayload_quiet fun _ => invoke_quiet _

theorem dispatchAttempt_replays (interval : ℕ) (a : SolanaTransactionAttempt) (wire : String) :
    Within Replays (dispatchAttempt P K job interval a wire) := by
  have hsend : Within Replays (sendTransaction ⟨job.transactionId, wire⟩) := .send trivial
  unfold dispatchAttempt
  refine .bind (inquire_quiet id).replays fun r => .bind (stored_quiet r).replays fun _ => ?_
  refine .bind verifyLock_quiet.replays fun _ => ?_
  split_ifs
  · exact .bind hsend fun r => (Still.quiet (dispatched_still r)).replays
  · refine .bind (authorizeAttempt_quiet a).replays fun _ => ?_
    exact .bind hsend fun r => (Still.quiet (dispatched_still r)).replays

theorem broadcastAttempt_replays (interval : ℕ) (a : SolanaTransactionAttempt) :
    Within Replays (broadcastAttempt P K job interval a) := by
  unfold broadcastAttempt
  refine .bind (inquire_quiet id).replays fun now => ?_
  split_ifs
  · exact .fail _
  · refine .bind (.lift _) fun wire => .bind (invoke_quiet _).replays fun grant => ?_
    cases grant with
    | granted n m => exact dispatchAttempt_replays interval _ wire
    | wait ms => exact .fail _
    | exhausted => exact .fail _
  · exact .bind (.lift _) fun wire => dispatchAttempt_replays interval _ wire

theorem reconcile_replays (interval : ℕ) (journalTerminal : Bool) (a : SolanaTransactionAttempt) :
    Within Replays (reconcile P K job interval journalTerminal a) := by
  unfold reconcile
  split
  · exact .fail _
  refine .bind (inquire_quiet id).replays fun r => .bind (stored_quiet r).replays fun _ => ?_
  refine .bind (reconcileStatus_quiet interval _).replays fun status => ?_
  cases status with
  | some result => exact .lift result
  | none =>
    dsimp only
    split
    · exact .fail _
    split
    · exact .fail _
    refine .bind (hasExpired_quiet interval _).replays fun expired => ?_
    rcases expired with result | (_ | _)
    · exact .lift result
    · exact broadcastAttempt_replays interval _
    · refine .bind (reconcileStatus_quiet interval _).replays fun status => ?_
      cases status with
      | some result => exact .lift result
      | none => exact .fail _

abbrev Log := List (Entry (Ask External Dispatch) (Answer Reply Ack) (World Dispatch))

/-- The journal binds no signature to the id. -/
def Unbound (id : String) (db : Database) : Prop :=
  ∀ r, db.lookup id = some r → r.replayKey = none

/-- The run has read the admission while no signature was bound to the id. -/
def ReadUnbound (id : String) (l : Log) : Prop :=
  ∃ a w w', ⟨.read (.admission .solana id), a, w, w'⟩ ∈ l ∧ Unbound id w.db

/-- The run has found no attempt, neither in Redis nor in the journal. -/
def Cleared (id : String) (l : Log) : Prop :=
  (∃ w w', ⟨.outside .getAttempt, .ok none, w, w'⟩ ∈ l) ∧ ReadUnbound id l

/-- A run may build an attempt where it has found none. -/
def FirstBuild (id : String) (l : Log) (q : Ask External Dispatch) : Prop :=
  ¬Replays q → Cleared id l

theorem Within.first {α : Type} {x : Flow α} (hx : Within Replays x) (id : String) (l : Log) :
    Puts (machine P Reply Ack) (FirstBuild id) (fun _ _ => True) x l :=
  Prog.Only.puts hx (fun _ _ hq hn => absurd hq hn) l

theorem knownAttempt_puts (found : Option SolanaTransactionAttempt) (l : Log) :
    Puts (machine P Reply Ack) (FirstBuild job.transactionId)
      (fun known l' => known.1 = none → found = none ∧ ReadUnbound job.transactionId l')
      (knownAttempt P K job found) l := by
  unfold knownAttempt
  refine Puts.bind (N := fun r l' => ∃ w w', ⟨.read (.admission .solana job.transactionId), .ok r, w,
    w'⟩ ∈ l' ∧ w.db.admission .solana job.transactionId = .ok r) ?_ fun admission l₁ _ hread => ?_
  · refine ⟨fun h => absurd trivial h, fun w a w' hact r hr => ?_⟩
    rcases a with e | a
    · cases hr
    cases hr
    refine ⟨w, w', by simp, ?_⟩
    rcases hact.2 with h | h
    · exact h.symm
    · cases h
  obtain ⟨w, w', hmem, hread⟩ := hread
  have hlookup : w.db.lookup job.transactionId = admission := by
    simp only [Database.admission, bind_ok, refuse_ok, pure_ok] at hread
    exact hread.choose_spec.2
  cases admission with
  | none =>
    rintro known ⟨⟩ hnone
    refine ⟨hnone, _, w, w', hmem, fun r hr => ?_⟩
    rw [hlookup] at hr
    cases hr
  | some record =>
    dsimp only
    cases hkey : record.replayKey with
    | none =>
      cases found with
      | some a =>
        rintro known ⟨⟩
      | none =>
        rintro known ⟨⟩ _
        refine ⟨rfl, _, w, w', hmem, fun r hr => ?_⟩
        rw [hlookup] at hr
        cases hr
        exact hkey
    | some binding =>
      refine Puts.bind (Within.first (boundAttempt_quiet binding found).replays _ _)
        fun a l₂ _ _ => ?_
      split_ifs
      · rintro known ⟨⟩
      · rintro known ⟨⟩ ⟨⟩

theorem executeTransaction_puts (interval number : ℕ) (l : Log) :
    Puts (machine P Reply Ack) (FirstBuild job.transactionId) (fun _ _ => True)
      (executeTransaction P K job interval number) l := by
  unfold executeTransaction
  refine (Within.first verifyLock_quiet.replays _ _).bind fun _ l₁ _ _ => ?_
  refine Puts.bind (N := fun r l' => ∃ w w', ⟨.outside .getAttempt, r, w, w'⟩ ∈ l')
    (.query (fun h => absurd id h) fun w a w' _ => ⟨w, w', by simp⟩) fun r l₂ _ hget => ?_
  refine Puts.bind (N := fun found _ => r = .ok found) ?_ fun found l₃ hl₃ hr => ?_
  · rintro found hfound
    cases r with
    | error e => cases hfound
    | ok a =>
      cases hfound
      rfl
  refine (knownAttempt_puts found l₃).bind fun known l₄ hl₄ hknown => ?_
  obtain ⟨_ | a, journalTerminal⟩ := known
  · obtain ⟨rfl, hread⟩ := hknown rfl
    obtain ⟨w, w', hget⟩ := hget
    rw [hr] at hget
    have hclear : Cleared job.transactionId l₄ :=
      ⟨⟨w, w', hl₄.subset (hl₃.subset hget)⟩, hread⟩
    refine (Asks.of_stable (fun l' q hl' _ => ?_) _).mono ?_
    · obtain ⟨⟨w, w', h⟩, a, u, u', h', hu⟩ := hclear
      exact ⟨⟨w, w', hl'.subset h⟩, a, u, u', hl'.subset h', hu⟩
    · exact fun _ _ _ _ _ => trivial
  · exact Within.first (reconcile_replays interval journalTerminal a) _ _

/-- **A run builds an attempt only where it has found none.** -/
theorem process_puts (interval number : ℕ) (l : Log) :
    Puts (machine P Reply Ack) (FirstBuild job.transactionId) (fun _ _ => True)
      (process P K job interval number) l := by
  unfold process
  refine (Within.first validateReconciliationPayload_quiet.replays _ _).bind fun _ l₁ _ _ => ?_
  refine (Within.first (inquire_quiet id).replays _ _).bind fun lock l₂ _ _ => ?_
  rcases lock with (_ | message) | _
  · rintro _ ⟨⟩
  · rintro _ ⟨⟩
  refine Puts.bind (N := fun _ _ => True) ?_ fun result l₃ _ _ => ?_
  · refine Asks.bind (N := fun _ _ => True) ?_ fun _ _ _ _ _ _ => trivial
    refine Asks.mono (Puts.bind (K := fun _ _ => True)
      (Within.first (inquire_quiet id).replays _ _) fun r l₄ _ _ => ?_) fun _ _ _ => trivial
    refine (Within.first (rpc_quiet r).replays _ _).bind fun _ l₅ _ _ => ?_
    exact executeTransaction_puts interval number l₅
  · refine (Within.first (inquire_quiet id).replays _ _).bind fun _ l₄ _ _ => ?_
    exact fun _ _ => trivial

/-! ## One signature -/

/-- The text of a signature identifies it, and has no colon. -/
structure Base58 (P : Primitives) : Prop where
  injective : Function.Injective P.signatureText
  plain : ∀ signature, ':' ∉ (P.signatureText signature).toList

theorem eq_of_append_colon {a a' b b' : List Char} (hb : ':' ∉ b) (hb' : ':' ∉ b')
    (h : a ++ ':' :: b = a' ++ ':' :: b') : b = b' := by
  have hrev : b.reverse ++ ':' :: a.reverse = b'.reverse ++ ':' :: a'.reverse := by
    simpa using congrArg List.reverse h
  have hsplit := congrArg splitColon hrev
  rw [splitColon_append _ (by simpa using hb), splitColon_append _ (by simpa using hb')] at hsplit
  exact List.reverse_injective (List.cons.inj hsplit).1

theorem solanaKey_inj (h58 : Base58 P) {chain chain' : String} {signature signature' : Signature}
    (h : solanaKey P chain signature = solanaKey P chain' signature') : signature = signature' := by
  have hlist := congrArg String.toList h
  simp only [solanaKey, String.toList_append] at hlist
  have hcolon : ":".toList = [':'] := rfl
  rw [hcolon, List.append_assoc, List.append_assoc _ _ (P.signatureText signature').toList,
    List.singleton_append, List.singleton_append] at hlist
  exact h58.injective (String.toList_injective
    (eq_of_append_colon (h58.plain _) (h58.plain _) hlist))

/-- Any number of executors: each run has its request, its poll interval and its attempt number. -/
def executors (P : Primitives) (K : Sdk) :=
  pool P fun j : SolanaExecutorJobData × ℕ × ℕ => process P K j.1 j.2.1 j.2.2

theorem Journaled.signature_eq (h58 : Base58 P) {d d' : Dispatch} {db db₁ db₂ : Database}
    (hdb : db.Intact) (h : Journaled P K d db₁) (h' : Journaled P K d' db₂)
    (he : db₁.Extends db) (he' : db₂.Extends db) (hid : d.id = d'.id) :
    wireSignature K d.wire = wireSignature K d'.wire := by
  obtain ⟨signature, chain, hwire, row, hrow, hrid, hkey, _⟩ := h
  obtain ⟨signature', chain', hwire', row', hrow', hrid', hkey', _⟩ := h'
  obtain ⟨r, hr, hr₁, hr₂⟩ := hdb.bound row (he.attempts.subset hrow)
  obtain ⟨r', hr', hr₁', hr₂'⟩ := hdb.bound row' (he'.attempts.subset hrow')
  have hsame : r = r' := by
    refine List.inj_on_of_nodup_map hdb.ids hr hr' ?_
    rw [hr₁, hr₁', hrid, hrid', hid]
  subst hsame
  rw [hr₂, Option.some.injEq, hkey, hkey'] at hr₂'
  rw [hwire, hwire', solanaKey_inj h58 hr₂']

/-- **One signature for each intent.** In every run, all wires of an id carry one signature, each is
a recorded wire of its id, and a run builds an attempt only where it has found none. -/
theorem one_signature (h58 : Base58 P) {w₀ : Recovery.World} (hf : Founded w₀.db)
    {s : Pool.State (Ask External Dispatch) (Answer Reply Ack) (World Dispatch)
      (SolanaExecutorJobData × ℕ × ℕ) fun _ => Except Failure SolanaExecutorResult}
    (hs : (executors P K).Steps (.initial ⟨.initial w₀, []⟩) s) :
    (∀ id, ∃ signature, ∀ d ∈ s.world.sent, d.message.id = id →
      wireSignature K d.message.wire = some signature ∧
      ∃ row ∈ d.db.attempts, row.id = id ∧ recordedWire row = some d.message.wire) ∧
    (∀ t ∈ s.strands, Pool.Asked (FirstBuild t.job.1.transactionId) t.log) ∧
    ∀ o ∈ s.outcomes, Pool.Asked (FirstBuild o.job.1.transactionId) o.log := by
  have hw : Reached P (World.journal (S := Dispatch) ⟨.initial w₀, []⟩) := ⟨w₀, hf, .refl⟩
  have hsends := sends_of_steps (fun j w => process_sound j.2.1 j.2.2 w) hw rfl hs
  obtain ⟨hreached, hextends⟩ := sent_of_steps hw rfl hs
  have hkeeps := Pool.Steps.keeps (Ψ := fun j => FirstBuild j.1.transactionId)
    (fun j => (process_puts j.2.1 j.2.2 []).mono fun _ _ _ => trivial) hs
  refine ⟨fun id => ?_, fun t ht => (hkeeps.strands t ht).1, hkeeps.outcomes⟩
  by_cases hany : ∃ d ∈ s.world.sent, d.message.id = id
  · obtain ⟨d₀, hd₀, hid₀⟩ := hany
    obtain ⟨signature, chain, hwire, _⟩ := hsends d₀ hd₀
    refine ⟨signature, fun d hd hid => ⟨?_, ?_⟩⟩
    · rw [← hwire]
      exact (hsends d hd).signature_eq h58 hreached.intact (hsends d₀ hd₀) (hextends d hd)
        (hextends d₀ hd₀) (hid.trans hid₀.symm)
    · obtain ⟨_, _, _, row, hrow, hrid, _, hrecorded⟩ := hsends d hd
      exact ⟨row, hrow, hrid.trans hid, hrecorded⟩
  · exact ⟨0, fun d hd hid => absurd ⟨d, hd, hid⟩ hany⟩

namespace FirstRun

def primitives : Primitives :=
  { Recovery.Sample.primitives with
    signature := fun _ => some 1
    signatureText := fun signature => toString signature.toNat }

def tx : VersionedTransaction := ⟨[1], 5, [7], false, []⟩

def sdk : Sdk where
  encode _ := some [1]
  decode _ := some tx
  verify _ := true
  base64 _ := "wire"
  unbase64 _ := some [1]
  hashText _ := "5"
  attempt _ := none

def request : SolanaExecutorJobData := ⟨"t1", "solana:devnet", 7, false, .obj []⟩

def fingerprint : String := ((admissionFingerprint primitives .solana request.payload).toOption).getD ""

def opened : State := State.after primitives none (.initial Recovery.Sample.world) (.openJournal none)

def admitted : State := State.after primitives none opened
  (.reserveAdmission "solana" "t1" fingerprint request.payload)

/-- A signer and a node at work, and a Redis that has no attempt yet. -/
def outside : (x : External) → World Dispatch → Reply x
  | .now, _ => 100000
  | .tryAcquireLock, _ => .ok ()
  | .stillHeld, _ => .ok true
  | .release, _ => .ok ()
  | .getVerified, _ => .ok ()
  | .getAttempt, _ => .ok none
  | .updateAttempt _, _ => .ok ()
  | .storeAttemptIfNotExists _, _ => .ok true
  | .signatureStatuses _, _ => .ok ⟨0, [none]⟩
  | .transaction _, _ => .error (.other "")
  | .blockHeight, _ => .ok 0
  | .isBlockhashValid _, _ => .ok true
  | .latestBlockhash, _ => .ok (5, 10)
  | .build _, _ => .ok { tx with signatures := [] }
  | .sign _, _ => .ok tx

def sent : World Dispatch :=
  (((executors primitives sdk).body (request, 0, 0)).exec (solo primitives outside fun _ => .ok "1")
    ⟨admitted, []⟩).2

set_option maxRecDepth 4000 in
theorem opened_up : opened.world.up = true := by decide +kernel

set_option maxRecDepth 10000 in
theorem sent_message : sent.sent.map Sent.message = [⟨"t1", "wire"⟩] := by decide +kernel

theorem base58 : Base58 primitives where
  injective _ _ h := BitVec.eq_of_toNat_eq (toString_injective h)
  plain _ := colon_notMem_toString _

theorem sent_steps : ∃ s, (executors primitives sdk).Steps
    (.initial ⟨.initial Recovery.Sample.world, []⟩) s ∧ s.world = sent := by
  have hjournal : (executors primitives sdk).outside ⟨.initial Recovery.Sample.world, []⟩
      ⟨admitted, []⟩ := ⟨(Steps.call _ _ rfl rfl).trans (Steps.call _ _ rfl opened_up), rfl⟩
  obtain ⟨s, hjob, hworld, _⟩ := Pool.Steps.exec (S := executors primitives sdk)
    (solo_act outside fun _ => .ok "1") ⟨admitted, []⟩ (request, 0, 0)
  exact ⟨s, .head (Pool.Step.outside hjournal) hjob, hworld⟩

end FirstRun

theorem one_signature_first : ∃ d : Sent Dispatch, d.message = ⟨"t1", "wire"⟩ ∧
    ∃ row ∈ d.db.attempts, row.id = "t1" ∧ recordedWire row = some "wire" := by
  obtain ⟨s, hs, hworld⟩ := FirstRun.sent_steps
  have hmem : (⟨"t1", "wire"⟩ : Dispatch) ∈ s.world.sent.map Sent.message := by
    rw [hworld, FirstRun.sent_message]
    exact List.mem_singleton_self _
  obtain ⟨d, hd, hmessage⟩ := List.mem_map.mp hmem
  obtain ⟨signature, hone⟩ := (one_signature FirstRun.base58 Recovery.Sample.founded hs).1 "t1"
  obtain ⟨_, row, hrow, hid, hwire⟩ := hone d hd (by rw [hmessage])
  rw [hmessage] at hwire
  exact ⟨d, hmessage, row, hrow, hid, hwire⟩

end EngineCore.Solana
