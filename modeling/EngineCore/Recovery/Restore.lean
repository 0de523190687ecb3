import EngineCore.Recovery.Budget

/-!
# Restoring a Solana intent

A storage error of the journal halts it. The transaction that puts an intent back into Redis checks
the attempt of the intent against its admission and its recovery row, and takes every disagreement
for a storage error.

* `Database.Tallied`: recovery rows count for recorded attempts, within the budget;
  `Steps.tallied`: over every run; `Steps.digested`: so do the digests of attempts differ;
* **`prepareRestore_healthy`**: where the one attempt of an intent is well formed, restoring it is no
  storage error.
-/

namespace EngineCore.Recovery

open Except (bind_ok pure_ok)

variable {P : Primitives} {db db' : Database} {id : String}

/-! ## Errors that do not occur -/

section Errors

variable {α β : Type} {e e' : RecoveryError}

theorem bind_ne {x : Result α} {f : α → Result β} (hx : x ≠ .error e)
    (hf : ∀ a, x = .ok a → f a ≠ .error e) : (x >>= f) ≠ .error e := by
  cases x with
  | error e' => exact fun h => hx (congrArg Except.error (Except.error.inj h))
  | ok a => exact hf a rfl

theorem refuse_ne {c : Prop} [Decidable c] (h : c → e' ≠ e) : refuse c e' ≠ .error e := by
  unfold refuse
  split_ifs with hc
  · simpa using h hc
  · simp

theorem require_ne {o : Option α} (h : o = none → e' ≠ e) : require o e' ≠ .error e := by
  cases o with
  | none => simpa [require] using h rfl
  | some a => simp [require]

theorem pure_ne {a : α} : (pure a : Result α) ≠ .error e := nofun

end Errors

theorem canonical_ne (v : Json) : canonical v ≠ .error .storage :=
  bind_ne (refuse_ne fun _ => by simp) fun _ _ => pure_ne

theorem admissionFingerprint_ne (kind : Kind) (v : Json) :
    admissionFingerprint P kind v ≠ .error .storage :=
  bind_ne (canonical_ne _) fun _ _ => pure_ne

theorem readControl_ne : db.readControl ≠ .error .storage :=
  bind_ne (refuse_ne fun _ => by simp) fun _ _ => pure_ne

theorem advance_ne (hschema : db.control.schema = schemaVersion) (hpending : db.pending = some []) :
    db.advance ≠ .error .storage := by
  refine bind_ne readControl_ne fun old hold => bind_ne (refuse_ne fun _ => by simp) fun _ _ => ?_
  refine bind_ne readControl_ne fun target htarget => ?_
  obtain ⟨-, rfl⟩ := readControl_ok.mp hold
  obtain ⟨-, rfl⟩ := readControl_ok.mp htarget
  refine bind_ne (bind_ne (refuse_ne fun hv => absurd ?_ hv) fun _ _ => ?_) fun _ _ => pure_ne
  · refine ⟨by simp [hschema, schemaVersion], rfl, rfl, rfl, .inl ⟨Nat.succ_pos _, ?_⟩⟩
    simp [PendingUpdate.between]
  · refine bind_ne (require_ne fun h => ?_) fun rows hrows => ?_
    · rw [show _ = some [] from hpending] at h
      cases h
    · obtain rfl : [] = rows := Option.some.inj (hpending.symm.trans (require_ok.mp hrows))
      exact bind_ne (refuse_ne fun h => absurd rfl h) fun _ _ => pure_ne

/-! ## Recovery rows -/

/-- The row counts for an attempt of its intent, within the budget. -/
structure SolanaRecovery.Tallies (m : SolanaRecovery) (db : Database) : Prop where
  attempt : ∃ row ∈ db.attempts, row.id = m.id ∧ m.attemptDigest = row.digest
  budget : m.broadcasts ≤ maxSolanaRecoveryBroadcasts
  zero : m.broadcasts = 0 ↔ m.lastBroadcastAt = 0

def Database.Tallied (db : Database) : Prop :=
  ∀ rows, db.solana = some rows → ∀ m ∈ rows, m.Tallies db

theorem SolanaRecovery.Tallies.extends {m : SolanaRecovery} (h : m.Tallies db)
    (he : db.Extends db') : m.Tallies db' := by
  obtain ⟨row, hrow, hfacts⟩ := h.attempt
  exact ⟨⟨row, he.attempts.subset hrow, hfacts⟩, h.budget, h.zero⟩

theorem Tx.exec_tallied {now : Option ℕ} {t : Tx} {r : t.Result}
    (h : t.exec P now db = .ok (r, db')) (hi : db.Intact) (ht : db.Tallied) : db'.Tallied := by
  have he : db.Extends db' := (Tx.exec_commit h).extends hi
  have hsame : db'.solana = db.solana → db'.Tallied :=
    fun hs rows hrows m hm => (ht rows (hs ▸ hrows) m hm).extends he
  rcases (Tx.exec_tables h).2.1 with hs | hrestores
  · exact hsame hs
  cases t with
  | prepareRestore i expected =>
    obtain ⟨a, old⟩ := r
    rcases prepareRestore_ok h with
      ⟨_, _, _, rfl⟩ | ⟨stored, hret, _, ⟨_, _, rfl⟩ | ⟨_, _, _, rfl⟩⟩
    · exact hsame rfl
    · exact hsame rfl
    · obtain ⟨row, hrow, ⟨-, hdigest⟩, ⟨modes, hmodes⟩, -⟩ := retained_mode hret
      have hmem : row ∈ db.attempts ∧ row.id = i := by
        have : row ∈ db.attemptsOf i := by simp [hrow]
        simpa [Database.attemptsOf] using this
      intro rows hrows m hm
      have hrows' : (db.solana.map (· ++ [⟨i, stored.digest, 0, 0⟩])) = some rows := hrows
      rw [hmodes] at hrows'
      obtain rfl := Option.some.inj hrows'
      rcases List.mem_append.mp hm with hm | hm
      · exact (ht modes hmodes m hm).extends he
      · obtain rfl := List.mem_singleton.mp hm
        exact ⟨⟨row, he.attempts.subset hmem.1, hmem.2, hdigest⟩, Nat.zero_le _, Iff.rfl⟩
  | claimBroadcast i expected attempt =>
    obtain ⟨a, old⟩ := r
    obtain ⟨stored, at_, hret, -, -, -, -, hcase⟩ := claimBroadcast_ok h
    rcases hcase with ⟨-, -, rfl⟩ | ⟨modes, -, ⟨hmax, hnow, -⟩, hmodes, -, -, -, rfl⟩
    · exact hsame rfl
    · intro rows hrows m hm
      obtain rfl := Option.some.inj hrows
      obtain ⟨m₀, hm₀, rfl⟩ := List.mem_map.mp hm
      have hm₀ := (ht modes hmodes m₀ hm₀).extends he
      split_ifs
      · exact ⟨hm₀.attempt, hmax, iff_of_false (Nat.succ_ne_zero _) hnow⟩
      · exact hm₀
  | migrate =>
    rcases migrate_ok (writing_ok h) with ⟨_, rfl⟩ | ⟨_, _, _, rfl⟩
    · exact hsame rfl
    · rintro rows ⟨⟩ m ⟨⟩
  | recoverCommit old ns run =>
    have h' := writing_ok h
    simp only [Database.recoverCommit, bind_ok, pure_ok] at h'
    obtain ⟨_, _, rfl⟩ := h'
    by_cases hs : old.schema < schemaVersion
    · intro rows hrows m hm
      simp only [Database.recovered, hs, decide_true, if_true, Option.some.injEq] at hrows
      subst hrows
      cases hm
    · exact hsame (by simp [Database.recovered, hs])
  | _ => cases hrestores

theorem Founded.tallied (h : Founded db) : db.Tallied := by
  intro rows hrows m hm
  cases h with
  | legacy hschema _ _ hprojected =>
    rw [hprojected.solana.mpr (by omega)] at hrows
    cases hrows
  | _ =>
    obtain rfl := Option.some.inj hrows
    cases hm

/-- **Over every run, recovery rows count for recorded attempts.** -/
theorem Steps.tallied {w : World} {s : State} (hfound : Founded w.db)
    (h : Steps P (.initial w) s) : s.world.db.Tallied :=
  (Steps.executed (I := fun db => db.Intact ∧ db.Tallied)
    (fun _ _ _ _ _ hexec hdb =>
      ⟨(Tx.exec_commit hexec).intact hdb.1, Tx.exec_tallied hexec hdb.1 hdb.2⟩)
    h ⟨hfound.intact, hfound.tallied⟩).2

/-! ## Attempts -/

/-- Two attempts of an id differ in their digest. -/
def Database.Digested (id : String) (db : Database) : Prop :=
  ((db.attemptsOf id).map Attempt.digest).Nodup

theorem Commit.digested {o : Bool} (hc : Commit P o db db') (h : db.Digested id) :
    db'.Digested id := by
  cases hc with
  | attempt record a _ _ _ _ _ hnew _ =>
    have hrows : (((db.updateAdmission a.id (AdmissionRecord.bindKey a.replayKey)).insertAttempt
        a).advanced.attemptsOf id) = db.attemptsOf id ++ [a].filter fun row => row.id = id :=
      List.filter_append ..
    unfold Database.Digested
    rw [hrows, List.map_append, List.nodup_append]
    refine ⟨h, ?_, ?_⟩
    · by_cases ha : a.id = id <;> simp [ha]
    · intro d hd d' hd'
      obtain ⟨row, hrow, rfl⟩ := List.mem_map.mp hd
      obtain ⟨row', hrow', rfl⟩ := List.mem_map.mp hd'
      simp only [Database.attemptsOf, List.mem_filter, List.mem_singleton, decide_eq_true_eq]
        at hrow hrow'
      obtain ⟨rfl, hid⟩ := hrow'
      exact hnew row hrow.1 (hrow.2.trans hid.symm)
  | _ => exact h

theorem Steps.digested {s s' : State} (h : Steps P s s') (hs : s.world.db.Digested id) :
    s'.world.db.Digested id :=
  (h.database (fun _ _ _ hc => hc.digested) hs).1

/-! ## The transaction -/

theorem retained_ne (hi : db.Intact) (ht : db.Tallied) (hsolana : db.solana.isSome)
    (hone : (db.attemptsOf id).length ≤ 1)
    (hform : ∀ row ∈ db.attempts, row.id = id → checkRetained P row ≠ .error .storage)
    {record : AdmissionRecord} (hrec : db.lookup id = some record)
    (hkey : record.replayKey.isSome) (expected : Json) :
    db.retained P id expected ≠ .error .storage := by
  obtain ⟨hmem, hid⟩ := mem_of_lookup hrec
  obtain ⟨key, hkey⟩ := Option.isSome_iff_exists.mp hkey
  obtain ⟨modes, hmodes⟩ := Option.isSome_iff_exists.mp hsolana
  -- the one attempt of the intent
  obtain ⟨row, hrow, hrowid⟩ := hi.sent record hmem key hkey
  rw [hid] at hrowid
  have hof : db.attemptsOf id = [row] := by
    have hin : row ∈ db.attemptsOf id := by simp [Database.attemptsOf, hrow, hrowid]
    obtain ⟨x, hx⟩ := List.length_eq_one_iff.mp
      (Nat.le_antisymm hone (List.length_pos_of_mem hin))
    rw [hx] at hin ⊢
    rw [List.mem_singleton.mp hin]
  have hbound : record.replayKey = some row.replayKey := by
    obtain ⟨r, hr, hrid, hrkey⟩ := hi.bound row hrow
    obtain rfl := hi.eq_of_id hr hmem (hrid.trans (hrowid.trans hid.symm))
    exact hrkey
  unfold Database.retained
  refine bind_ne (require_ne fun _ => by simp) fun admission hadm => ?_
  obtain rfl : record = admission := Option.some.inj (hrec.symm.trans (require_ok.mp hadm))
  refine bind_ne (refuse_ne fun _ => by simp) fun _ _ => bind_ne (admissionFingerprint_ne _ _) fun _ _ => ?_
  refine bind_ne (refuse_ne fun _ => by simp) fun _ _ => bind_ne (canonical_ne _) fun _ _ => ?_
  refine bind_ne (canonical_ne _) fun _ _ => bind_ne (refuse_ne fun _ => by simp) fun _ _ => ?_
  refine bind_ne (refuse_ne fun _ => by simp) fun _ _ => ?_
  refine bind_ne (require_ne fun h => by rw [hmodes] at h; cases h) fun modes' hmodes' => ?_
  obtain rfl : modes = modes' := Option.some.inj (hmodes.symm.trans (require_ok.mp hmodes'))
  simp only [hof]
  refine bind_ne (refuse_ne fun h => ?_) fun _ _ => bind_ne (hform row hrow hrowid) fun _ _ => ?_
  · simp [hbound] at h
  cases hmode : modes.find? fun m => decide (m.id = id) with
  | none => exact pure_ne
  | some m =>
    have hmid : m.id = id := by simpa using List.find?_some hmode
    have hm := ht modes hmodes m (List.mem_of_find?_eq_some hmode)
    obtain ⟨row', hrow', hrowid', hdigest⟩ := hm.attempt
    obtain rfl : row' = row := by
      have hin : row' ∈ db.attemptsOf id := by simp [Database.attemptsOf, hrow', hrowid', hmid]
      rw [hof] at hin
      exact List.mem_singleton.mp hin
    refine bind_ne (refuse_ne fun h => ?_) fun _ _ => pure_ne
    rcases h with h | h | h
    · exact absurd hdigest h
    · exact absurd hm.budget (Nat.not_le.mpr h)
    · exact absurd hm.zero h

/-- **Restoring an intent with one well-formed attempt is no storage error.** -/
theorem prepareRestore_healthy (hi : db.Intact) (ht : db.Tallied) (hproj : db.Projected)
    (hschema : db.control.schema = schemaVersion) (hpending : db.pending = some [])
    (hone : (db.attemptsOf id).length ≤ 1)
    (hform : ∀ row ∈ db.attempts, row.id = id → checkRetained P row ≠ .error .storage)
    {record : AdmissionRecord} (hrec : db.lookup id = some record)
    (hkey : record.replayKey.isSome) (expected : Json) :
    db.prepareRestore P id expected ≠ .error .storage := by
  have hsolana : db.solana.isSome := by
    rw [Option.isSome_iff_ne_none, ne_eq, hproj.solana, not_not]
    exact hschema
  refine bind_ne (retained_ne hi ht hsolana hone hform hrec hkey expected) fun found _ => ?_
  cases found with
  | none => exact pure_ne
  | some stored =>
    dsimp only
    split_ifs
    · exact pure_ne
    · exact bind_ne (advance_ne hschema hpending) fun _ _ => pure_ne

end EngineCore.Recovery
