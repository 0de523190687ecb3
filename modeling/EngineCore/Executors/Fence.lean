import EngineCore.Recovery.Absorb
import EngineCore.Executors.Settlement

/-!
# The fence around a chain

* **`Granted.chain_running`**: what a halted chain refuses;
* `Database.unhalt`: the tables but for the halt of one chain; **`exec_unhalt`**, `read_unhalt`:
  transactions and reads elsewhere do not notice it;
* **`chain_fence`**: all of it over every run, and a final assessment was accepted by a commit inside
  the assessment.
-/

namespace EngineCore.Recovery

open Interact
open Except (bind_ok pure_ok)

variable {P : Primitives} {db db' : Database} {o : Bool}

/-! ## Checkpoints and halts over time -/

/-- The committed checkpoint of the chain stays, or gives way to a higher one of its policy. -/
def Fence (chain : String) (db db' : Database) : Prop :=
  ∀ e, db.checkpointOf chain = some e → ∃ e', db'.checkpointOf chain = some e' ∧
    e.checkpointNumber ≤ e'.checkpointNumber ∧ e'.policy = e.policy ∧
    (e'.checkpointNumber = e.checkpointNumber → e' = e)

theorem Fence.refl (chain : String) (db : Database) : Fence chain db db :=
  fun e he => ⟨e, he, le_refl _, rfl, fun _ => rfl⟩

theorem Fence.trans {chain : String} {db₁ db₂ db₃ : Database} (h : Fence chain db₁ db₂)
    (h' : Fence chain db₂ db₃) : Fence chain db₁ db₃ := by
  intro e₁ he₁
  obtain ⟨e₂, he₂, hle, hpolicy, hsame⟩ := h e₁ he₁
  obtain ⟨e₃, he₃, hle', hpolicy', hsame'⟩ := h' e₂ he₂
  refine ⟨e₃, he₃, hle.trans hle', hpolicy'.trans hpolicy, fun heq => ?_⟩
  -- a height that is reached again was never left
  have h₂ : e₂.checkpointNumber = e₁.checkpointNumber := by omega
  rw [hsame' (heq.trans h₂.symm), hsame h₂]

theorem lookup_filter_ne {l : List (String × FinalityEvidence)} {chain c : String} (h : c ≠ chain) :
    (l.filter fun e => e.1 ≠ chain).lookup c = l.lookup c := by
  induction l with
  | nil => rfl
  | cons e l ih =>
    obtain ⟨name, evidence⟩ := e
    by_cases hname : name = chain
    · subst hname
      have hne : (c == name) = false := by simpa using h
      simp only [List.filter_cons, ne_eq, not_true_eq_false, decide_false, Bool.false_eq_true,
        if_false, List.lookup_cons, hne]
      exact ih
    · simp only [List.filter_cons, ne_eq, hname, not_false_eq_true, decide_true, if_true,
        List.lookup_cons]
      cases c == name with
      | true => rfl
      | false => exact ih

theorem checkpointOf_set (chain c : String) (evidence : FinalityEvidence) :
    (db.setCheckpoint chain evidence).checkpointOf c
      = if c = chain then some evidence else db.checkpointOf c := by
  simp only [Database.checkpointOf, Database.setCheckpoint, List.lookup_cons]
  by_cases h : c = chain
  · simp [h]
  · have hne : (c == chain) = false := by simpa using h
    rw [if_neg h, hne]
    exact lookup_filter_ne h

/-- **Every change of the ledger respects the fence.** -/
theorem Commit.fence (hc : Commit P o db db') (chain : String) : Fence chain db db' := by
  cases hc with
  | checkpoint c evidence hhalt hfence =>
    intro e he
    by_cases hchain : chain = c
    · subst hchain
      obtain ⟨hno, hlt⟩ := hfence e he
      refine ⟨evidence, ?_, hlt.le, ?_, fun heq => absurd heq hlt.ne'⟩
      · exact (checkpointOf_set chain chain evidence).trans (if_pos rfl)
      · by_contra hpolicy
        exact hno (.inl fun h => hpolicy h.symm)
    · refine ⟨e, ?_, le_refl _, rfl, fun _ => rfl⟩
      exact ((checkpointOf_set c chain evidence).trans (if_neg hchain)).trans he
  | _ => exact Fence.refl chain db

theorem Commit.halts (hc : Commit P o db db') {chain : String} (h : chain ∈ db.halts) :
    chain ∈ db'.halts := by
  have hinsert : ∀ c, chain ∈ (db.insertHalt c).halts := by
    intro c
    unfold Database.insertHalt
    dsimp only
    split_ifs
    · exact h
    · exact List.mem_append_left _ h
  cases hc with
  | haltChain c => exact hinsert c
  | _ => exact h

theorem Steps.fence {s s' : State} (h : Steps P s s') (chain : String) :
    Fence chain s.world.db s'.world.db := by
  refine (h.database (I := Fence chain s.world.db) ?_ (.refl chain _)).1
  exact fun _ _ _ hc hdb => hdb.trans (hc.fence chain)

theorem Steps.halts {s s' : State} (h : Steps P s s') {chain : String}
    (hs : chain ∈ s.world.db.halts) :
    chain ∈ s'.world.db.halts ∧ ∀ r ∈ s.since s', chain ∈ r.world.db.halts :=
  h.database (I := fun db => chain ∈ db.halts) (fun _ _ _ hc => hc.halts) hs

/-! ## What a halted chain refuses -/

/-- The chain that the success of an operation depends on: that of its key, or of the key that its
admission is bound to; Solana has none. -/
def Call.GatedBy (chain : String) (db : Database) : Call → Prop
  | .beforeBroadcast kind _ key _ => kind ≠ Kind.solana.text ∧ chainOf key = some chain
  | .recordTerminal kind id _ => kind ≠ Kind.solana.text ∧
    ∃ r key, db.lookup id = some r ∧ r.replayKey = some key ∧ chainOf key = some chain
  | .commitCheckpoint chainId _ _ => toString chainId = chain
  | _ => False

theorem identity_solana {name id : String} (h : identity name id = .ok .solana) :
    name = Kind.solana.text := by
  simp only [identity, bind_ok, require_ok, refuse_ok, pure_ok] at h
  obtain ⟨k, hk, _, _, rfl⟩ := h
  have htext := List.find?_some hk
  exact (of_decide_eq_true htext).symm

theorem lookup_updateAdmission {id : String} {f : AdmissionRecord → AdmissionRecord}
    (hf : ∀ r, (f r).id = r.id) : (db.updateAdmission id f).lookup id = (db.lookup id).map f := by
  simp only [Database.lookup, Database.updateAdmission, List.find?_map]
  have hcongr : ((fun r : AdmissionRecord => decide (r.id = id)) ∘ fun r => if r.id = id then f r else r)
      = fun r => decide (r.id = id) := by
    funext r
    simp only [Function.comp_apply]
    split_ifs with h <;> simp [hf, h]
  rw [hcongr]
  cases hr : db.admissions.find? fun r => decide (r.id = id) with
  | none => rfl
  | some r =>
    have hid : r.id = id := by simpa using List.find?_some hr
    simp [hid]

theorem validateAttemptIdentity_running {record : AdmissionRecord} {evidence : Json}
    {key chain : String} (h : db.validateAttemptIdentity P record evidence = .ok ())
    (hkind : record.kind ≠ .solana) (hkey : record.replayKey = some key)
    (hchain : chainOf key = some chain) : chain ∉ db.halts := by
  simp only [Database.validateAttemptIdentity, bind_ok, require_ok, refuse_ok, hkey,
    Option.some.injEq, exists_eq_left', hchain, Database.checkChain, if_neg hkind,
    Database.ensureChainNotHalted] at h
  obtain ⟨_, _, _, ⟨_, _, _, _, hrunning⟩, _⟩ := h
  exact hrunning

/-- **A halted chain refuses**: an operation that succeeds is on a running chain. -/
theorem Granted.chain_running {c : Call} {a : c.Value} {l : Log} {chain : String}
    (h : Granted P c a l db) (hc : c.GatedBy chain db) : chain ∉ db.halts := by
  cases c with
  | beforeBroadcast kind id key attempt =>
    obtain ⟨k, _, _, db₀, db₁, hk, _, _, hg⟩ := h
    have hne : k ≠ .solana := by
      rintro rfl
      exact hc.1 (identity_solana hk)
    obtain ⟨chain', hchain', hrunning⟩ := hg.broadcast.2.2 hne
    obtain rfl : chain = chain' := Option.some.inj (hc.2.symm.trans hchain')
    obtain ⟨now, _, _, _, hexec⟩ := hg.ran
    rw [hg.tables]
    obtain ⟨_, _, _, _, _, _, _, ⟨_, rfl, _⟩ | ⟨_, _, _, rfl⟩⟩ := broadcast_ok hexec <;>
      exact hrunning
  | recordTerminal name id evidence =>
    obtain ⟨k, _, _, _, db₀, db₁, hk, _, _, hg⟩ := h
    obtain ⟨hname, r, key, hr, hkey, hchain⟩ := hc
    have hne : k ≠ .solana := by
      rintro rfl
      exact hname (identity_solana hk)
    obtain ⟨now, _, _, _, hexec⟩ := hg.ran
    obtain ⟨record, hrec, hkind, hid, hcase⟩ := terminal_ok hexec
    obtain ⟨hmem, hrid⟩ := mem_of_lookup hrec
    rw [hg.tables] at hr ⊢
    have hkept : record.replayKey = some key ∧ db₁.halts = db₀.halts := by
      rcases hcase with ⟨_, _, _, _, _, _, ⟨_, _, rfl⟩ | ⟨_, ⟨⟩, _⟩⟩ | ⟨_, _, _, _, rfl⟩
      · have hsame : some record = some r := hrec.symm.trans hr
        rw [Option.some.inj hsame]
        exact ⟨hkey, rfl⟩
      · have hclose : ((db₀.insertEvidence ⟨id, _⟩).updateAdmission id AdmissionRecord.close).lookup id
            = some r := hr
        rw [lookup_updateAdmission (f := AdmissionRecord.close) fun _ => rfl] at hclose
        have hsame : (some record).map AdmissionRecord.close = some r := hrec ▸ hclose
        rw [← Option.some.inj hsame] at hkey
        exact ⟨hkey, rfl⟩
    rw [show db₁.acked.halts = db₁.halts from rfl, hkept.2]
    exact validateAttemptIdentity_running hid (hkind ▸ hne) hkept.1 hchain
  | commitCheckpoint chainId expected evidence =>
    obtain ⟨_, db₀, db₁, hg⟩ := h
    obtain ⟨now, _, _, _, hexec⟩ := hg.ran
    obtain ⟨hrunning, hcase⟩ := commitCheckpoint_ok hexec
    obtain rfl : toString chainId = chain := hc
    rw [hg.tables]
    rcases hcase with ⟨_, _, _, rfl⟩ | ⟨_, _, _, rfl, _⟩ | ⟨_, _, _, _, _, rfl⟩ | ⟨_, ⟨⟩, _⟩ <;>
      exact hrunning
  | _ => exact absurd hc id

/-! ## What a halted chain leaves alone -/

/-- The same tables, but the chain is not halted. -/
def Database.unhalt (chain : String) (db : Database) : Database :=
  { db with halts := db.halts.filter fun c => c ≠ chain }

/-- The transaction belongs to other chains, or to Solana. -/
def Tx.Elsewhere (chain : String) (db : Database) : Tx → Prop
  | .broadcast kind _ key _ _ | .replayBinding kind _ key =>
    kind = .solana ∨ chainOf key ≠ some chain
  | .terminal _ id .. => ∀ r key, db.lookup id = some r → r.replayKey = some key →
    r.kind = .solana ∨ chainOf key ≠ some chain
  | .commitCheckpoint c .. | .haltChain c => c ≠ chain
  | _ => True

section Frame

variable {chain : String}

theorem mem_unhalt {c : String} (h : c ≠ chain) : c ∈ (db.unhalt chain).halts ↔ c ∈ db.halts := by
  simp [Database.unhalt, h]

theorem ensureChainNotHalted_unhalt {c : String} (h : c ≠ chain) :
    (db.unhalt chain).ensureChainNotHalted c = db.ensureChainNotHalted c := by
  simp only [Database.ensureChainNotHalted, mem_unhalt h]

theorem insertHalt_unhalt {c : String} (h : c ≠ chain) :
    (db.unhalt chain).insertHalt c = (db.insertHalt c).unhalt chain := by
  unfold Database.insertHalt
  rw [if_congr (mem_unhalt h) rfl rfl]
  unfold Database.unhalt
  split_ifs <;> simp [h]

/-- What a transaction returns, with the tables it leaves but for the halt. -/
def unhalted {α : Type} (chain : String) (out : α × Database) : α × Database :=
  (out.1, out.2.unhalt chain)

theorem advance_unhalt : (db.unhalt chain).advance = unhalted chain <$> db.advance := by
  simp only [Database.advance, Database.record, map_bind, map_pure, bind_assoc, pure_bind]
  rfl

theorem reading_unhalt {α : Type} {q : Database → Result α} (h : q (db.unhalt chain) = q db) :
    reading q (db.unhalt chain) = unhalted chain <$> reading q db := by
  simp only [reading, map_bind, map_pure, h]
  rfl

theorem writing_unhalt {q : Database → Result Database}
    (h : q (db.unhalt chain) = Database.unhalt chain <$> q db) :
    writing q (db.unhalt chain) = unhalted chain <$> writing q db := by
  simp only [writing, map_bind, map_pure, h, bind_map_left]
  rfl

theorem advance_bind_unhalt {α : Type} (db : Database) {f : Control × Database → Result (α × Database)}
    (hf : ∀ out, f (unhalted chain out) = unhalted chain <$> f out) :
    (db.unhalt chain).advance >>= f = unhalted chain <$> (db.advance >>= f) := by
  rw [advance_unhalt, map_bind, bind_map_left]
  exact bind_congr hf

theorem ensureChain_unhalt {key : String} {e : RecoveryError} (h : chainOf key ≠ some chain) :
    (require (chainOf key) e >>= fun c => (db.unhalt chain).ensureChainNotHalted c)
      = require (chainOf key) e >>= fun c => db.ensureChainNotHalted c := by
  cases hc : chainOf key with
  | none => rfl
  | some c => exact ensureChainNotHalted_unhalt fun heq => h (heq ▸ hc)

theorem broadcastGate_unhalt {kind : Kind} {id key : String}
    (h : kind = .solana ∨ chainOf key ≠ some chain) :
    (db.unhalt chain).broadcastGate kind id key = db.broadcastGate kind id key := by
  unfold Database.broadcastGate
  split_ifs with hk
  · rfl
  · exact ensureChain_unhalt (h.resolve_left hk)

theorem broadcast_unhalt {kind : Kind} {id key digest : String} {encoded : Json}
    (h : kind = .solana ∨ chainOf key ≠ some chain) :
    (db.unhalt chain).broadcast kind id key digest encoded
      = unhalted chain <$> db.broadcast kind id key digest encoded := by
  simp only [Database.broadcast, broadcastGate_unhalt h, map_bind]
  refine bind_congr fun record => bind_congr fun _ => bind_congr fun _ => bind_congr fun _ =>
    bind_congr fun _ => bind_congr fun _ => ?_
  rw [show (db.unhalt chain).attempts = db.attempts from rfl]
  cases db.attempts.find? fun a => a.id = id ∧ a.digest = digest with
  | some old =>
    dsimp only
    rw [map_bind]
    rfl
  | none =>
    exact advance_bind_unhalt ((db.updateAdmission id _).insertAttempt ⟨id, key, digest, encoded⟩)
      fun _ => rfl

theorem replayBinding_unhalt {kind : Kind} {id key : String}
    (h : kind = .solana ∨ chainOf key ≠ some chain) :
    (db.unhalt chain).replayBinding kind id key = db.replayBinding kind id key := by
  unfold Database.replayBinding
  refine bind_congr fun record => bind_congr fun _ => bind_congr fun _ => bind_congr fun _ => ?_
  split_ifs with hk
  · rfl
  · exact ensureChain_unhalt (h.resolve_left hk)

theorem checkChain_unhalt {record : AdmissionRecord} {c : String} {evidence : Json}
    (h : record.kind = .solana ∨ c ≠ chain) :
    (db.unhalt chain).checkChain record c evidence = db.checkChain record c evidence := by
  unfold Database.checkChain
  split_ifs with hk
  · rfl
  · exact bind_congr fun _ => bind_congr fun _ => ensureChainNotHalted_unhalt (h.resolve_left hk)

theorem validateAttemptIdentity_unhalt {record : AdmissionRecord} {evidence : Json}
    (h : ∀ key, record.replayKey = some key → record.kind = .solana ∨ chainOf key ≠ some chain) :
    (db.unhalt chain).validateAttemptIdentity P record evidence
      = db.validateAttemptIdentity P record evidence := by
  unfold Database.validateAttemptIdentity
  refine bind_congr fun _ => ?_
  cases hkey : record.replayKey with
  | none => rfl
  | some key =>
    show (require (chainOf key) _ >>= _) = (require (chainOf key) _ >>= _)
    cases hc : chainOf key with
    | none => rfl
    | some c =>
      show ((db.unhalt chain).checkChain record c evidence >>= _) = (db.checkChain record c evidence >>= _)
      have hother : record.kind = .solana ∨ c ≠ chain :=
        (h key hkey).imp_right fun hne heq => hne (heq ▸ hc)
      rw [checkChain_unhalt hother]
      rfl

theorem terminal_unhalt {kind : Kind} {id : String} {evidence normalized encoded : Json}
    (h : ∀ r key, db.lookup id = some r → r.replayKey = some key →
      r.kind = .solana ∨ chainOf key ≠ some chain) :
    (db.unhalt chain).terminal P kind id evidence normalized encoded
      = unhalted chain <$> db.terminal P kind id evidence normalized encoded := by
  unfold Database.terminal
  show (require (db.lookup id) _ >>= _) = _
  cases hr : db.lookup id with
  | none => rfl
  | some r =>
    show (refuse (r.kind ≠ kind) _ >>= _) = unhalted chain <$> (refuse (r.kind ≠ kind) _ >>= _)
    rw [map_bind]
    refine bind_congr fun _ => ?_
    rw [validateAttemptIdentity_unhalt (h r · hr), map_bind]
    refine bind_congr fun _ => ?_
    split_ifs with hstate
    · show (require (db.firstEvidence id) _ >>= _) = _
      rw [map_bind]
      refine bind_congr fun previous => ?_
      rw [map_bind]
      refine bind_congr fun was => ?_
      split_ifs <;> rfl
    · exact advance_bind_unhalt ((db.insertEvidence ⟨id, encoded⟩).updateAdmission id _) fun _ => rfl

theorem prepareRestore_unhalt {id : String} {expected : Json} :
    (db.unhalt chain).prepareRestore P id expected
      = unhalted chain <$> db.prepareRestore P id expected := by
  unfold Database.prepareRestore
  rw [map_bind]
  refine bind_congr fun stored => ?_
  cases stored with
  | none => rfl
  | some stored =>
    dsimp only
    split_ifs
    · rfl
    · exact advance_bind_unhalt (db.insertSolana ⟨id, stored.digest, 0, 0⟩) fun _ => rfl

theorem claim_unhalt {id : String} {stored : RetainedSolanaAttempt} {now : ℕ} :
    (db.unhalt chain).claim id stored now = unhalted chain <$> db.claim id stored now := by
  unfold Database.claim
  dsimp only
  split_ifs
  · rfl
  · rfl
  · simp only [map_bind, map_pure]
    rfl

theorem claimBroadcast_unhalt {id : String} {expected attempt : Json} {now : Option ℕ} :
    (db.unhalt chain).claimBroadcast P id expected attempt now
      = unhalted chain <$> db.claimBroadcast P id expected attempt now := by
  simp only [Database.claimBroadcast, map_bind]
  refine bind_congr fun found => bind_congr fun stored => bind_congr fun _ => bind_congr fun _ =>
    bind_congr fun _ => bind_congr fun _ => bind_congr fun t => ?_
  rw [claim_unhalt, bind_map_left]
  refine bind_congr fun out => ?_
  obtain ⟨answer, db'⟩ := out
  cases answer with
  | granted spent atMs => exact advance_bind_unhalt db' fun _ => rfl
  | wait => rfl
  | exhausted => rfl

theorem commitCheckpoint_unhalt {c : String} {expected : Option FinalityEvidence}
    {evidence : FinalityEvidence} (h : c ≠ chain) :
    (db.unhalt chain).commitCheckpoint c expected evidence
      = unhalted chain <$> db.commitCheckpoint c expected evidence := by
  unfold Database.commitCheckpoint
  rw [ensureChainNotHalted_unhalt h, map_bind]
  refine bind_congr fun _ => ?_
  show (if db.checkpointOf c ≠ expected then _ else _) = _
  split_ifs with hexp
  · rfl
  · rw [show (db.unhalt chain).checkpointOf c = db.checkpointOf c from rfl]
    cases db.checkpointOf c with
    | none => exact advance_bind_unhalt (db.setCheckpoint c evidence) fun _ => rfl
    | some previous =>
      dsimp only
      split_ifs
      · rw [insertHalt_unhalt h]
        exact advance_bind_unhalt (db.insertHalt c) fun _ => rfl
      · rfl
      · rfl
      · exact advance_bind_unhalt (db.setCheckpoint c evidence) fun _ => rfl

theorem reserve_unhalt {kind : Kind} {id fingerprint : String} {payload encoded : Json} :
    (db.unhalt chain).reserve kind id fingerprint payload encoded
      = unhalted chain <$> db.reserve kind id fingerprint payload encoded := by
  unfold Database.reserve
  rw [show (db.unhalt chain).lookup id = db.lookup id from rfl]
  cases db.lookup id with
  | some old =>
    simp only [map_bind, map_pure]
    rfl
  | none =>
    exact advance_bind_unhalt (db.insertAdmission ⟨id, kind, fingerprint, encoded, .admitted, none⟩)
      fun _ => rfl

theorem acknowledge_unhalt {expected : PendingUpdate} :
    (db.unhalt chain).acknowledge expected = Database.unhalt chain <$> db.acknowledge expected := by
  simp only [Database.acknowledge, Database.removeExact, map_bind, map_pure]
  rfl

theorem migrate_unhalt : (db.unhalt chain).migrate = Database.unhalt chain <$> db.migrate := by
  simp only [Database.migrate, Database.record, map_bind]
  refine bind_congr fun old => ?_
  split_ifs
  · rfl
  · simp only [map_bind, map_pure]
    rfl
  · simp only [map_bind, map_pure]
    rfl

theorem reattachCommit_unhalt {c : Control} {pending : Option PendingUpdate} {run : String} :
    (db.unhalt chain).reattachCommit c pending run
      = Database.unhalt chain <$> db.reattachCommit c pending run := by
  simp only [Database.reattachCommit, map_bind, map_pure]
  refine bind_congr fun now => bind_congr fun _ => bind_congr fun found => bind_congr fun _ => ?_
  cases pending with
  | none => rfl
  | some p =>
    simp only [Database.removePending, Database.removeExact, bind_assoc, pure_bind]
    rfl

/-- **A halted chain is no matter elsewhere**: every transaction of other chains and of Solana does
what it would do if the chain were running. -/
theorem exec_unhalt {t : Tx} {now : Option ℕ} (h : t.Elsewhere chain db) :
    t.exec P now (db.unhalt chain) = unhalted chain <$> t.exec P now db := by
  cases t with
  | control | state | mirrorState | validateSchema | historyIndexes | reattachState | recoverState
  | status => exact reading_unhalt rfl
  | halt reason => rfl
  | acknowledge expected =>
    exact writing_unhalt (q := fun db => db.acknowledge expected) acknowledge_unhalt
  | reserve => exact reserve_unhalt
  | broadcast => exact broadcast_unhalt h
  | replayBinding => exact reading_unhalt (replayBinding_unhalt h)
  | terminal => exact terminal_unhalt h
  | prepareRestore => exact prepareRestore_unhalt
  | claimBroadcast => exact claimBroadcast_unhalt
  | commitCheckpoint => exact commitCheckpoint_unhalt h
  | haltChain c =>
    show ((db.unhalt chain).insertHalt c).advance = _
    rw [insertHalt_unhalt h]
    exact advance_unhalt
  | migrate => exact writing_unhalt migrate_unhalt
  | quarantine => exact writing_unhalt (by simp only [Database.quarantine, map_bind, map_pure]; rfl)
  | reattachCommit => exact writing_unhalt reattachCommit_unhalt
  | recoverCommit => exact writing_unhalt (by simp only [Database.recoverCommit, map_bind, map_pure]; rfl)
  | recoverFinish => rfl

theorem latestEoaAttempt_unhalt {id key : String} (h : chainOf key ≠ some chain) :
    (db.unhalt chain).latestEoaAttempt id key = db.latestEoaAttempt id key := by
  unfold Database.latestEoaAttempt
  refine bind_congr fun record => bind_congr fun _ => bind_congr fun _ => ?_
  cases hc : chainOf key with
  | none => rfl
  | some c =>
    show ((db.unhalt chain).ensureChainNotHalted c >>= _) = (db.ensureChainNotHalted c >>= _)
    have hother : c ≠ chain := fun heq => h (heq ▸ hc)
    rw [ensureChainNotHalted_unhalt hother]
    rfl

theorem attemptIdentity_unhalt {kind : Kind} {id : String} {identity : Json}
    (h : ∀ r key, db.lookup id = some r → r.replayKey = some key →
      r.kind = .solana ∨ chainOf key ≠ some chain) :
    (db.unhalt chain).attemptIdentity P kind id identity = db.attemptIdentity P kind id identity := by
  unfold Database.attemptIdentity
  show (require (db.lookup id) _ >>= _) = _
  cases hr : db.lookup id with
  | none => rfl
  | some r =>
    show (refuse (r.kind ≠ kind) _ >>= _) = (refuse (r.kind ≠ kind) _ >>= _)
    exact bind_congr fun _ => validateAttemptIdentity_unhalt (h r · hr)

end Frame

end EngineCore.Recovery

namespace EngineCore.Executors

open Interact Recovery Finality

variable {P : Primitives}

/-- The read belongs to other chains, or to Solana. -/
def Read.Elsewhere (chain : String) (db : Database) : Read → Prop
  | .latestEoaAttempt _ key => chainOf key ≠ some chain
  | .attemptIdentity _ id _ => ∀ r key, db.lookup id = some r → r.replayKey = some key →
    r.kind = .solana ∨ chainOf key ≠ some chain
  | .chainHealth c => c ≠ chain
  | _ => True

theorem read_unhalt {chain : String} {db : Database} {r : Read} (h : r.Elsewhere chain db) :
    r.exec P (db.unhalt chain) = r.exec P db := by
  cases r with
  | latestEoaAttempt => exact latestEoaAttempt_unhalt h
  | attemptIdentity => exact attemptIdentity_unhalt h
  | chainHealth => exact ensureChainNotHalted_unhalt h
  | _ => rfl

/-! ## Workers that assess receipts -/

structure Assessment where
  chain : Chain
  hash : B256
  receipt : Receipt

def anyProvider : Provider (S := Empty) Block Empty.elim := fun tag => Prog.query (Ask.outside tag)

def Assessment.body (j : Assessment) :
    Work (S := Empty) Block Empty.elim EngineError FinalityAssessment :=
  assess anyProvider j.chain j.hash j.receipt

/-- Any number of workers that assess receipts. -/
abbrev assessors (P : Primitives) :
    Pool (Ask BlockNumberOrTag Empty) (Answer Block Empty.elim) (World Empty) Assessment
      fun _ => Except EngineError FinalityAssessment :=
  pool P Assessment.body

/-- The checkpoint of the evidence was accepted when the tables went from `db` to `db'`: the chain
was running, nothing was committed above it, no conflict stood at its height, and it is what is
committed now. -/
structure AcceptedBy (chain : String) (e : FinalityEvidence) (db db' : Database) : Prop where
  running : chain ∉ db.halts
  above : ∀ p, db.checkpointOf chain = some p →
    ¬conflicts p e ∧ p.checkpointNumber ≤ e.checkpointNumber
  committed : ∃ p, db'.checkpointOf chain = some p ∧ p.policy = e.policy ∧
    p.checkpointNumber = e.checkpointNumber ∧ p.checkpointHash = e.checkpointHash

theorem AcceptedBy.of_commit {chain : String} {expected old} {e : FinalityEvidence}
    {db db' : Database}
    (h : db.commitCheckpoint chain expected e = .ok ((true, old, false), db')) :
    AcceptedBy chain e db db' := by
  obtain ⟨hrunning, hcase⟩ := commitCheckpoint_ok h
  rcases hcase with ⟨⟨⟩, _⟩ | ⟨_, _, _, rfl, p, hp, hno, hnumber⟩ |
    ⟨_, _, _, _, habove, rfl⟩ | ⟨⟨⟩, _⟩
  · refine ⟨hrunning, fun q hq => ?_, p, hp, ?_, hnumber, ?_⟩
    · obtain rfl : p = q := Option.some.inj (hp.symm.trans hq)
      exact ⟨hno, hnumber.le⟩
    · by_contra hpolicy
      exact hno (.inl hpolicy)
    · by_contra hhash
      exact hno (.inr ⟨hnumber, hhash⟩)
  · refine ⟨hrunning, fun q hq => ⟨(habove q hq).1, (habove q hq).2.le⟩, e, ?_, rfl, rfl, rfl⟩
    exact (checkpointOf_set chain chain e).trans (if_pos rfl)

theorem Accepted.commit {S : Type} {chain : Chain} {e : FinalityEvidence} {w w' : World S}
    (h : Accepted P chain e w w') : ∃ t t', Steps P w.journal t ∧ (service P).Step t t' ∧
      Steps P t' w'.journal ∧ AcceptedBy (toString chain.chainId) e t.world.db t'.world.db := by
  obtain ⟨previous, l, t, _, ht', ⟨old, db₀, db₁, hg⟩, hmade⟩ := h
  obtain ⟨now, w₀, rfl, hmem, hexec⟩ := hg.ran
  obtain ⟨u, u', hu, hbefore, hstep, hafter, hu'⟩ := hmade _ hmem
  refine ⟨u, u', hu, hstep, hu'.trans ht', ?_⟩
  rw [hbefore, hafter]
  exact .of_commit hexec

theorem later_of_steps {X S J ε : Type} {B : X → Type} {R : S → Type} {V : J → Type}
    {body : (j : J) → Work B R ε (V j)}
    {s s' : Pool.State (Ask X S) (Answer B R) (World S) J (fun j => Except ε (V j))}
    (h : (pool P body).Steps s s') : Later P s.world s'.world := by
  induction h with
  | refl => exact .refl _
  | tail _ hstep ih =>
    refine ih.trans ?_
    cases hstep with
    | outside hout => exact .of_journal hout.1 hout.2
    | act _ hact => exact act_later hact
    | _ => exact .refl _

theorem accepted_of_finalized {w : World Empty} (hw : Reached P w.journal)
    {s : Pool.State (Ask BlockNumberOrTag Empty) (Answer Block Empty.elim) (World Empty)
      Assessment fun _ => Except EngineError FinalityAssessment}
    {o : Pool.Outcome (Ask BlockNumberOrTag Empty) (Answer Block Empty.elim) (World Empty)
      Assessment fun _ => Except EngineError FinalityAssessment} {e : FinalityEvidence}
    (hs : (assessors P).Steps (.initial w) s) (ho : o ∈ s.outcomes)
    (he : o.result = .ok (.finalized e)) : Accepted P o.job.chain e o.start o.world := by
  let K (j : Assessment) (w₀ : World Empty) (r : FinalityAssessment) (w : World Empty) : Prop :=
    ∀ e, r = .finalized e → Accepted P j.chain e w₀ w
  have hstable : ∀ j w₀ r w w', Later P w w' → K j w₀ r w → K j w₀ r w' := by
    intro j w₀ r w w' hl hr e he
    obtain ⟨previous, hret⟩ := hr e he
    exact ⟨previous, hret.mono hl⟩
  have hbody : ∀ j w, Does P (fun _ _ => True) w j.body (K j w) :=
    fun j w => assess_does (fun tag => .outside tag) j.hash j.receipt
  have hholds := (pool_sound hstable hbody).initial ⟨hw, fun _ _ => trivial⟩ hs
  exact hholds.outcomes o ho _ he e rfl

/-- **The fence around a chain.** In every run of any number of assessments, with arbitrary answers
of the provider and any other use of the journal: the committed checkpoint of a chain does not go
back and does not change at its height, and its policy stays; a halted chain stays halted, and
refuses broadcasts, outcomes and checkpoints, while everything elsewhere does what it would do
without the halt; a receipt is assessed as final only if the journal accepted its checkpoint during
the assessment. -/
theorem chain_fence {w : World Empty} (hw : Reached P w.journal)
    {s s' : Pool.State (Ask BlockNumberOrTag Empty) (Answer Block Empty.elim) (World Empty)
      Assessment fun _ => Except EngineError FinalityAssessment}
    (hs : (assessors P).Steps (.initial w) s) (hs' : (assessors P).Steps s s') (chain : String) :
    Fence chain s.world.db s'.world.db ∧
    (chain ∈ s.world.db.halts → chain ∈ s'.world.db.halts ∧
      ∀ r ∈ s.world.journal.since s'.world.journal, r.call.GatedBy chain r.world.db →
        ∀ a, r.result ≠ .ok a) ∧
    (∀ (t : Tx) (now : Option ℕ), t.Elsewhere chain s.world.db →
      t.exec P now (s.world.db.unhalt chain) = unhalted chain <$> t.exec P now s.world.db) ∧
    (∀ r : Read, r.Elsewhere chain s.world.db →
      r.exec P (s.world.db.unhalt chain) = r.exec P s.world.db) ∧
    ∀ o ∈ s'.outcomes, ∀ e, o.result = .ok (.finalized e) → ∃ t t',
      Steps P o.start.journal t ∧ (service P).Step t t' ∧ Steps P t' o.world.journal ∧
        AcceptedBy (toString o.job.chain.chainId) e t.world.db t'.world.db := by
  have hl : Later P s.world s'.world := later_of_steps hs'
  have hreached : Reached P s.world.journal :=
    hw.later (later_of_steps hs)
  refine ⟨hl.journal.fence chain, fun hhalt => ?_, fun t now => exec_unhalt, fun r => read_unhalt,
    ?_⟩
  · obtain ⟨hstill, hrecords⟩ := hl.journal.halts hhalt
    refine ⟨hstill, fun r hr hgated a ha => ?_⟩
    obtain ⟨w₀, hf, hrun⟩ := hreached
    have hgrant : Granted P r.call a r.log r.world.db :=
      (promise_of_record hf (hrun.trans hl.journal) (Service.State.mem_since hr)).1 a ha
    exact hgrant.chain_running hgated (hrecords r hr)
  · intro o ho e he
    exact (accepted_of_finalized hw (hs.trans hs') ho he).commit

namespace Assessed

def opened : State :=
  State.after Sample.primitives none (.initial Sample.world) (.openJournal none)

def job : Assessment := ⟨⟨1, .finalized⟩, 7, ⟨7, some true, some 10, some 5⟩⟩

def evidence : FinalityEvidence := ⟨10, 5, 10, 5, .finalized⟩

/-- A chain of equal hashes, final up to the tenth block. -/
def blocks : (tag : BlockNumberOrTag) → World Empty → Block tag
  | .number n, _ => .ok (some ⟨n, 5⟩)
  | _, _ => .ok (some ⟨10, 5⟩)

def ran : Except EngineError FinalityAssessment × World Empty :=
  ((assessors Sample.primitives).body job).exec (solo Sample.primitives blocks fun m => m.elim)
    ⟨opened, []⟩

set_option maxRecDepth 10000 in
theorem ran_final : ran.1 = .ok (.finalized evidence) := by decide +kernel

theorem reached : Reached Sample.primitives opened :=
  ⟨Sample.world, Sample.founded, Steps.call _ _ rfl rfl⟩

end Assessed

theorem chain_fence_accepted : ∃ t t', Steps Sample.primitives Assessed.opened t ∧
    (service Sample.primitives).Step t t' ∧
      AcceptedBy (toString 1) Assessed.evidence t.world.db t'.world.db := by
  obtain ⟨s, hs, _, l, ho⟩ := Pool.Steps.exec (S := assessors Sample.primitives)
    (solo_act Assessed.blocks fun m => m.elim) ⟨Assessed.opened, []⟩ Assessed.job
  obtain ⟨_, _, _, _, haccepted⟩ := chain_fence Assessed.reached hs .refl "1"
  obtain ⟨t, t', ht, hstep, _, hby⟩ := haccepted _ (ho ▸ List.mem_singleton_self _)
    Assessed.evidence Assessed.ran_final
  exact ⟨t, t', ht, hstep, hby⟩

end EngineCore.Executors
