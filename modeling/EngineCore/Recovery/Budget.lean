import EngineCore.Recovery.Absorb

/-!
# The budget of a restored Solana intent

Once the attempt of an intent has been put back into Redis, each further send of its wire is taken
out of a durable budget: twenty in total, two seconds apart, whatever the clock does.

* **`solana_budget`**: the grants of every run stay within the budget.
-/

namespace EngineCore.Recovery

open Interact
open Except (bind_ok pure_ok)

variable {P : Primitives} {db db' : Database} {id : String}

/-! ## The recovery row -/

def Database.mode (id : String) (db : Database) : Option SolanaRecovery :=
  db.solana.bind fun rows => rows.find? fun m => m.id = id

/-- The same row, or one with more spent, later than the interval allows. -/
def SolanaRecovery.Later (m m' : SolanaRecovery) : Prop :=
  m' = m ∨ m.broadcasts < m'.broadcasts ∧ (m.broadcasts = 0 ∨
    m.lastBroadcastAt + recoveryBroadcastInterval ≤ m'.lastBroadcastAt)

theorem SolanaRecovery.Later.trans {m m' m'' : SolanaRecovery} (h : m.Later m')
    (h' : m'.Later m'') : m.Later m'' := by
  rcases h with rfl | ⟨hlt, htime⟩
  · exact h'
  rcases h' with rfl | ⟨hlt', htime'⟩
  · exact .inr ⟨hlt, htime⟩
  · refine .inr ⟨hlt.trans hlt', htime.imp_right fun ht => ?_⟩
    have := htime'.resolve_left (by omega)
    omega

theorem mode_of_solana (h : db'.solana = db.solana) : db'.mode id = db.mode id := by
  rw [Database.mode, Database.mode, h]

theorem retained_mode {expected : Json} {stored : Retained}
    (h : db.retained P id expected = .ok (some stored)) :
    ∃ row, db.attemptsOf id = [row] ∧
      (stored.attempt.payload = row.payload ∧ stored.digest = row.digest) ∧
      (∃ modes, db.solana = some modes) ∧ (stored.recoveryMode = true → ∃ m, db.mode id = some m ∧
        m.broadcasts = stored.attempt.recoveryBroadcasts ∧
        m.lastBroadcastAt = stored.attempt.lastRecoveryBroadcastAt ∧
        (m.broadcasts = 0 ↔ m.lastBroadcastAt = 0)) := by
  simp only [Database.retained, bind_ok, require_ok, refuse_ok, exists_const, not_not] at h
  obtain ⟨record, _, _, _, _, _, _, _, _, _, _, _, modes, hmodes, h⟩ := h
  cases hrows : db.attemptsOf id with
  | nil =>
    simp only [hrows, bind_ok, refuse_ok, exists_const, pure_ok] at h
    cases h.2
  | cons row rest =>
    simp only [hrows, bind_ok, refuse_ok, exists_const, not_or, not_not] at h
    obtain ⟨⟨rfl, _⟩, _, _, h⟩ := h
    refine ⟨row, rfl, ?_⟩
    cases hmode : modes.find? fun m => decide (m.id = id) with
    | none =>
      simp only [hmode, pure_ok, Option.some.injEq] at h
      subst h
      exact ⟨⟨rfl, rfl⟩, ⟨modes, hmodes⟩, by rintro ⟨⟩⟩
    | some m =>
      simp only [hmode, bind_ok, pure_ok, Option.some.injEq, checkMode, refuse_ok, not_or,
        not_not] at h
      obtain ⟨_, ⟨_, _, hzero⟩, rfl⟩ := h
      refine ⟨⟨rfl, rfl⟩, ⟨modes, hmodes⟩, fun _ => ⟨m, ?_, rfl, rfl, hzero⟩⟩
      rw [Database.mode, hmodes]
      exact hmode

/-! ## Spending -/

/-- A grant takes one broadcast out of the budget, for the retained attempt. -/
structure Spends (id : String) (attempt : Json) (broadcasts atMs : ℕ) (db db' : Database) : Prop where
  row : ∃ m, db.mode id = some m ∧ m.broadcasts + 1 = broadcasts ∧
    (m.broadcasts = 0 ∨ m.lastBroadcastAt + recoveryBroadcastInterval ≤ atMs) ∧
    db'.mode id = some { m with broadcasts := broadcasts, lastBroadcastAt := atMs }
  budget : broadcasts ≤ maxSolanaRecoveryBroadcasts
  retained : ∃ row, db'.attemptsOf id = [row] ∧ row.payload.sort = attempt.sort

theorem mode_spent {stored : RetainedSolanaAttempt} {now : ℕ} {modes : List SolanaRecovery}
    (hmodes : db.solana = some modes) (i : String) :
    (db.spent id stored now modes).mode i = (db.mode i).map fun m => if m.hit id stored then
      { m with broadcasts := stored.recoveryBroadcasts + 1, lastBroadcastAt := now } else m := by
  rw [Database.mode, Database.mode, hmodes, Database.spent]
  simp only [Option.bind_some, List.find?_map]
  congr 2
  funext m
  simp only [Function.comp]
  split_ifs <;> rfl

theorem claimBroadcast_spends {expected attempt : Json} {now : Option ℕ}
    {r : SolanaRecoveryBroadcast} {old : Option Control}
    (h : db.claimBroadcast P id expected attempt now = .ok ((r, old), db')) :
    ((∀ n at_, r ≠ .granted n at_) ∧ db' = db) ∨
      ∃ n at_, r = .granted n at_ ∧ at_ ≠ 0 ∧ Spends id attempt n at_ db db' ∧
        ∀ i ≠ id, db'.mode i = db.mode i := by
  obtain ⟨stored, at_, hret, hmode, -, -, hsame, hcase⟩ := claimBroadcast_ok h
  obtain ⟨row, hrow, ⟨hpayload, -⟩, -, hrecovery⟩ := retained_mode hret
  obtain ⟨m, hm, hb, hl, hzero⟩ := hrecovery hmode
  rcases hcase with ⟨-, hno, rfl⟩ | ⟨modes, rfl, ⟨hmax, hnow, htime⟩, hmodes, -, -, -, rfl⟩
  · exact .inl ⟨hno, rfl⟩
  have hafter : ∀ i, (db.spent id stored.attempt at_ modes).advanced.mode i =
      (db.spent id stored.attempt at_ modes).mode i := fun i => mode_of_solana rfl
  refine .inr ⟨_, at_, rfl, hnow, ⟨⟨m, hm, by rw [hb], ?_, ?_⟩, hmax, row, hrow, ?_⟩, ?_⟩
  · rw [hzero, or_iff_not_imp_left, hl]
    exact htime
  · have hhit : m.hit id stored.attempt = true := by
      have hid : m.id = id := by
        rw [Database.mode, hmodes] at hm
        simpa using List.find?_some hm
      simp [SolanaRecovery.hit, hid, hb, hl]
    rw [hafter, mode_spent hmodes, hm]
    simp [hhit]
  · rw [← hpayload, hsame]
  · intro i hi
    rw [hafter, mode_spent hmodes]
    cases hmi : db.mode i with
    | none => rfl
    | some m' =>
      have hid : m'.id = i := by
        rw [Database.mode, hmodes] at hmi
        simpa using List.find?_some hmi
      simp [SolanaRecovery.hit, hid, hi]

/-- **Every transaction leaves a recovery row or spends from it.** -/
theorem Tx.exec_mode {now : Option ℕ} {t : Tx} {r : t.Result} (h : t.exec P now db = .ok (r, db'))
    {m : SolanaRecovery} (hm : db.mode id = some m) : ∃ m', db'.mode id = some m' ∧ m.Later m' := by
  have hsame : db'.solana = db.solana → ∃ m', db'.mode id = some m' ∧ m.Later m' :=
    fun hs => ⟨m, (mode_of_solana hs).trans hm, .inl rfl⟩
  rcases (Tx.exec_tables h).2.1 with hs | hrestores
  · exact hsame hs
  cases t with
  | prepareRestore i expected =>
    obtain ⟨a, old⟩ := r
    rcases prepareRestore_ok h with ⟨_, _, _, rfl⟩ | ⟨_, _, _, ⟨_, _, rfl⟩ | ⟨_, _, _, rfl⟩⟩
    · exact hsame rfl
    · exact hsame rfl
    · refine ⟨m, ?_, .inl rfl⟩
      obtain ⟨modes, hmodes, hfind⟩ := Option.bind_eq_some_iff.mp hm
      unfold Database.mode Database.advanced Database.insertSolana
      simp [hmodes, List.find?_append, hfind]
  | claimBroadcast i expected attempt =>
    obtain ⟨a, old⟩ := r
    rcases claimBroadcast_spends h with ⟨_, rfl⟩ | ⟨n, at_, _, _, hspends, hother⟩
    · exact hsame rfl
    by_cases hi : id = i
    · subst hi
      obtain ⟨m₀, hm₀, hn, htime, hafter⟩ := hspends.row
      rw [hm] at hm₀
      cases hm₀
      refine ⟨_, hafter, .inr ⟨?_, htime⟩⟩
      simp only
      omega
    · exact ⟨m, (hother id hi).trans hm, .inl rfl⟩
  | migrate =>
    rcases migrate_ok (writing_ok h) with ⟨_, rfl⟩ | ⟨_, _, hnone, rfl⟩
    · exact hsame rfl
    · rw [Database.mode, hnone] at hm
      cases hm
  | recoverCommit old ns run =>
    have h' := writing_ok h
    simp only [Database.recoverCommit, Database.checkTables, bind_ok, refuse_ok, pure_ok,
      exists_const, not_and, not_not] at h'
    obtain ⟨⟨_, hlegacy, _, _⟩, rfl⟩ := h'
    by_cases hs : old.schema < schemaVersion
    · rw [Database.mode, hlegacy hs] at hm
      cases hm
    · exact hsame (by simp [Database.recovered, hs])
  | _ => cases hrestores

/-- **Over every run a recovery row stays, and is only spent from.** -/
theorem Steps.mode {s s' : State} (h : Steps P s s') {m : SolanaRecovery}
    (hm : s.world.db.mode id = some m) : ∃ m', s'.world.db.mode id = some m' ∧ m.Later m' := by
  refine Steps.executed (I := fun db => ∃ m', db.mode id = some m' ∧ m.Later m') ?_ h
    ⟨m, hm, .inl rfl⟩
  rintro t now r db db' hexec ⟨m', hm', hlater⟩
  obtain ⟨m'', hm'', hlater'⟩ := Tx.exec_mode hexec hm'
  exact ⟨m'', hm'', hlater.trans hlater'⟩

/-! ## Whose rows they are -/

/-- Recovery rows belong to Solana admissions. -/
def Database.Restored (db : Database) : Prop := ∀ id m, db.mode id = some m →
  ∃ r ∈ db.admissions, r.id = id ∧ r.kind = .solana

theorem Commit.restored {o : Bool} (hc : Commit P o db db') (hi : db.Intact) (h : db.Restored) :
    db'.Restored := by
  intro id m hm
  -- the row was there before, or its transaction has found the admission
  have hbefore : (∃ m₀, db.mode id = some m₀) ∨ ∃ r ∈ db.admissions, r.id = id ∧ r.kind = .solana := by
    have hsame : db'.solana = db.solana → ∃ m₀, db.mode id = some m₀ :=
      fun hs => ⟨m, (mode_of_solana hs).symm.trans hm⟩
    cases hc with
    | restore row expected stored hret hmode hdigest hzero hadv =>
      obtain ⟨record, hrec, hkind, -⟩ := retained_ok hret
      obtain ⟨hmem, hid⟩ := mem_of_lookup hrec
      by_cases hrow : row.id = id
      · exact .inr ⟨record, hmem, hid.trans hrow, hkind⟩
      · refine .inl ⟨m, ?_⟩
        obtain ⟨_, happ, hfind⟩ := Option.bind_eq_some_iff.mp hm
        obtain ⟨modes, hmodes, rfl⟩ := Option.map_eq_some_iff.mp happ
        unfold Database.mode
        rw [hmodes]
        simpa [List.find?_append, hrow] using hfind
    | spend i expected stored now modes hret hmode hstate hbudget hmodes hone hadv =>
      have hspent : (db.spent i stored.attempt now modes).mode id = some m := hm
      rw [mode_spent hmodes] at hspent
      obtain ⟨m₀, hm₀, -⟩ := Option.map_eq_some_iff.mp hspent
      exact .inl ⟨m₀, hm₀⟩
    | migrate => cases hm
    | recover legacy ns run hsolana =>
      cases legacy with
      | true => cases hm
      | false => exact .inl (hsame rfl)
    | _ => exact .inl (hsame rfl)
  obtain ⟨r, hr, hid, hkind⟩ : ∃ r ∈ db.admissions, r.id = id ∧ r.kind = .solana := by
    rcases hbefore with ⟨m₀, hm₀⟩ | hfound
    · exact h id m₀ hm₀
    · exact hfound
  obtain ⟨r', hr', hkeeps⟩ := (hc.extends hi).admissions r hr
  exact ⟨r', hr', hkeeps.id.trans hid, hkeeps.kind.trans hkind⟩

theorem Founded.restored (h : Founded db) : db.Restored := by
  intro id m hm
  cases h with
  | legacy hschema _ _ hprojected =>
    rw [Database.mode, hprojected.solana.mpr (by omega)] at hm
    cases hm
  | _ => cases hm

theorem Steps.restored {w : World} {s : State} (hfound : Founded w.db)
    (h : Steps P (.initial w) s) : s.world.db.Restored :=
  (h.database (I := fun db => db.Intact ∧ db.Restored)
    (fun _ _ _ hc hdb => ⟨hc.intact hdb.1, hc.restored hdb.1 hdb.2⟩)
    ⟨hfound.intact, hfound.restored⟩).1.2

/-! ## Grants -/

/-- The count and the time a call was granted for the intent. -/
def grantOf (id : String) : Record → Option (ℕ × ℕ)
  | ⟨.beforeSolanaRecoveryBroadcast i _ _, _, .ok (.granted broadcasts atMs), _⟩ =>
    if i = id then some (broadcasts, atMs) else none
  | _ => none

/-- The grants of an intent, the latest first. -/
def State.grants (id : String) (s : State) : List (ℕ × ℕ) := s.records.filterMap (grantOf id)

theorem grantOf_eq {r : Record} {g : ℕ × ℕ} (h : grantOf id r = some g) :
    ∃ expected attempt l w,
      r = ⟨.beforeSolanaRecoveryBroadcast id expected attempt, l, .ok (.granted g.1 g.2), w⟩ := by
  unfold grantOf at h
  split at h
  · split_ifs at h with hid
    cases h
    subst hid
    exact ⟨_, _, _, _, rfl⟩
  · cases h

theorem granted_spends {w : World} {s : State} (hfound : Founded w.db)
    (h : Steps P (.initial w) s) {expected attempt : Json} {l : Log} {w' : World} {n at_ : ℕ}
    (hr : (⟨.beforeSolanaRecoveryBroadcast id expected attempt, l, .ok (.granted n at_), w'⟩ : Record)
      ∈ s.records) :
    ∃ e ∈ l, at_ ≠ 0 ∧ Spends id attempt n at_ e.before.db w'.db := by
  obtain ⟨old, db₀, db₁, hg⟩ := (promise_of_record hfound h hr).1 _ rfl
  obtain ⟨now, w₀, rfl, hmem, hexec⟩ := hg.ran
  rcases claimBroadcast_spends hexec with ⟨hno, -⟩ | ⟨n', at', heq, hat, hspends, -⟩
  · exact absurd rfl (hno n at_)
  cases heq
  refine ⟨_, hmem, hat, ?_⟩
  have hsame : db₁.acked.mode id = db₁.mode id := mode_of_solana rfl
  rw [hg.tables]
  obtain ⟨m, hm, hn, htime, hafter⟩ := hspends.row
  exact ⟨⟨m, hm, hn, htime, hsame.trans hafter⟩, hspends.budget, hspends.retained⟩

def Spaced (later earlier : ℕ × ℕ) : Prop :=
  earlier.1 < later.1 ∧ earlier.2 + recoveryBroadcastInterval ≤ later.2

theorem grants_spaced {w : World} {s : State} (hfound : Founded w.db)
    (h : Steps P (.initial w) s) (id : String) : (s.grants id).Pairwise Spaced := by
  refine List.Pairwise.filterMap (R := fun r' r => ∀ g' g, grantOf id r' = some g' →
    grantOf id r = some g → Spaced g' g) (grantOf id) (fun r' r hΦ g' hg' g hg => hΦ g' g hg' hg) ?_
  refine Service.Steps.pairwise h ?_
  intro t r r' ht hhead hworld hrun hended hr' g' g hg' hg
  obtain ⟨expected, attempt, l, w₁, rfl⟩ := grantOf_eq hg
  obtain ⟨expected', attempt', l', w₂, rfl⟩ := grantOf_eq hg'
  -- the earlier grant, at its return
  obtain ⟨e, -, hat, hspends⟩ := granted_spends hfound ht (List.mem_of_mem_head? hhead)
  obtain ⟨m, -, -, -, hafter⟩ := hspends.row
  have hdb : t.world.db = w₁.db := by
    rw [hworld]
    exact settle_db _ _ _
  -- the later one, at its commit
  obtain ⟨e', he', hat', hspends'⟩ := granted_spends hfound h hr'
  obtain ⟨m₁, hm₁, hn₁, htime₁, -⟩ := hspends'.row
  obtain ⟨u, -, -, -, hmade⟩ := hended
  obtain ⟨v, v', hv, hbefore, -⟩ := hmade e' he'
  obtain ⟨m₂, hm₂, hlater⟩ := Steps.mode hv (by rw [hdb]; exact hafter)
  rw [hbefore, hm₁] at hm₂
  cases hm₂
  have hpos : 0 < g.1 := by
    obtain ⟨m₀, -, hn₀, -⟩ := hspends.row
    omega
  rcases hlater with rfl | ⟨hlt, htime⟩
  · refine ⟨by simp only at hn₁; omega, htime₁.resolve_left ?_⟩
    simp only
    omega
  · simp only at hlt htime
    have hlast := htime₁.resolve_left (by omega)
    have hstep := htime.resolve_left (by omega)
    exact ⟨by omega, by omega⟩

theorem length_le_of_falling {l : List (ℕ × ℕ)} {bound : ℕ} (h : l.Pairwise Spaced)
    (hb : ∀ g ∈ l, 0 < g.1 ∧ g.1 ≤ bound) : l.length ≤ bound := by
  have hnodup : (l.map Prod.fst).Nodup := by
    refine List.Pairwise.map Prod.fst (fun a b hab => ?_) h
    exact (Nat.ne_of_lt hab.1).symm
  have hsub : l.map Prod.fst ⊆ List.range' 1 bound := by
    intro n hn
    obtain ⟨g, hg, rfl⟩ := List.mem_map.mp hn
    have := hb g hg
    rw [List.mem_range'_1]
    omega
  have hlen := (List.subperm_of_subset hnodup hsub).length_le
  rwa [List.length_map, List.length_range'] at hlen

/-! ## The ordinary path -/

theorem Gated.not_restored {l : Log} {k : Kind} {key digest : String} {encoded : Json}
    {old : Option Control} {db₀ db₁ : Database}
    (h : Gated P l (.broadcast k id key digest encoded) old db₀ db₁ db) (hi : db.Intact)
    (hr : db.Restored) : db.mode id = none := by
  obtain ⟨now, w₀, _, _, hexec⟩ := h.ran
  obtain ⟨record, hrec, hkind, _, hgate, _, _, hcase⟩ := broadcast_ok hexec
  obtain ⟨hmem, hid⟩ := mem_of_lookup hrec
  have htables := h.tables
  -- the record keeps its kind
  have hkept : ∃ r ∈ db.admissions, r.id = id ∧ r.kind = k := by
    rw [htables]
    rcases hcase with ⟨_, rfl, _, _⟩ | ⟨_, _, _, rfl⟩
    · exact ⟨record, hmem, hid, hkind⟩
    · exact ⟨record.bindKey key, mem_updateAdmission.mpr (.inl ⟨record, hmem, hid, rfl⟩), hid, hkind⟩
  have hsolana : db.solana = db₀.solana := by
    rw [htables]
    rcases hcase with ⟨_, rfl, _, _⟩ | ⟨_, _, _, rfl⟩ <;> rfl
  cases hm : db.mode id with
  | none => rfl
  | some m =>
    obtain ⟨r, hr, hrid, hrkind⟩ := hr id m hm
    obtain ⟨r', hr', hrid', hrkind'⟩ := hkept
    obtain rfl := hi.eq_of_id hr hr' (hrid.trans hrid'.symm)
    have hk : k = .solana := hrkind'.symm.trans hrkind
    rw [Database.mode, hsolana] at hm
    obtain ⟨modes, hmodes, hfind⟩ := Option.bind_eq_some_iff.mp hm
    simp only [Database.broadcastGate, if_pos hk, hmodes, bind_ok, require_ok, Option.some.injEq,
      refuse_ok, List.any_eq_true, not_exists, not_and] at hgate
    obtain ⟨_, rfl, hno⟩ := hgate
    exact absurd (by simpa using List.find?_some hfind) (hno m (List.mem_of_find?_eq_some hfind))

/-! ## Every run -/

/-- **The budget of a restored intent.** Over every run, whatever its calls, crashes and clocks: an
intent is granted twenty broadcasts at most, each two seconds after the one before; a grant is
returned with its count and time committed, and for the retained attempt; and once the intent is in
recovery mode it stays so, and no ordinary broadcast of it is granted. -/
theorem solana_budget {w : World} {s : State} (hfound : Founded w.db)
    (h : Steps P (.initial w) s) (id : String) :
    (s.grants id).length ≤ 20 ∧
    (s.grants id).Pairwise (fun later earlier => earlier.2 + 2000 ≤ later.2) ∧
    (∀ expected attempt l w' n at_,
      (⟨.beforeSolanaRecoveryBroadcast id expected attempt, l, .ok (.granted n at_), w'⟩ : Record) ∈
        s.records →
      (∃ m, w'.db.mode id = some m ∧ m.broadcasts = n ∧ m.lastBroadcastAt = at_) ∧
      ∃ row, w'.db.attemptsOf id = [row] ∧ row.payload.sort = attempt.sort) ∧
    (∀ now expected a old db',
      (Tx.prepareRestore id expected).exec P now s.world.db = .ok ((some a, old), db') →
      (db'.mode id).isSome) ∧
    ∀ s', Steps P s s' → (s.world.db.mode id).isSome → (s'.world.db.mode id).isSome ∧
      ∀ r ∈ s.since s', ∀ kind key attempt, r.call = .beforeBroadcast kind id key attempt →
        ∀ v, r.result ≠ .ok v := by
  have hspaced := grants_spaced hfound h id
  refine ⟨length_le_of_falling hspaced fun g hg => ?_, hspaced.imp fun hs => hs.2, ?_, ?_, ?_⟩
  · obtain ⟨r, hr, hgrant⟩ := List.mem_filterMap.mp hg
    obtain ⟨expected, attempt, l, w', rfl⟩ := grantOf_eq hgrant
    obtain ⟨e, -, -, hspends⟩ := granted_spends hfound h hr
    obtain ⟨m, -, hn, -⟩ := hspends.row
    exact ⟨by omega, hspends.budget⟩
  · intro expected attempt l w' n at_ hr
    obtain ⟨e, -, -, hspends⟩ := granted_spends hfound h hr
    obtain ⟨m, -, -, -, hafter⟩ := hspends.row
    exact ⟨⟨_, hafter, rfl, rfl⟩, hspends.retained⟩
  · intro now expected a old db' hexec
    rcases prepareRestore_ok hexec with ⟨_, hnone, _⟩ | ⟨stored, hret, _, hcase⟩
    · cases hnone
    obtain ⟨_, _, _, ⟨modes, hmodes⟩, hrecovery⟩ := retained_mode hret
    rcases hcase with ⟨hmode, _, rfl⟩ | ⟨_, _, _, rfl⟩
    · obtain ⟨m, hm, -⟩ := hrecovery hmode
      rw [hm]
      rfl
    · unfold Database.mode Database.advanced Database.insertSolana
      simp [hmodes, List.find?_append]
  · intro s' h' hmode
    obtain ⟨m, hm⟩ := Option.isSome_iff_exists.mp hmode
    have hstays : ∀ t, Steps P s t → (t.world.db.mode id).isSome := by
      intro t ht
      obtain ⟨m', hm', -⟩ := Steps.mode ht hm
      rw [hm']
      rfl
    refine ⟨hstays s' h', fun r hr kind key attempt hcall v hv => ?_⟩
    obtain ⟨t, ht, hworld, ht'⟩ := Service.Steps.mem_since h' hr
    have hpromise := promise_of_record hfound (h.trans h') (Service.State.mem_since hr)
    obtain ⟨call, l, result, w'⟩ := r
    subst hcall
    obtain ⟨k, encoded, old, db₀, db₁, _, _, _, hg⟩ := hpromise.1 v hv
    have hreached : Steps P (.initial w) t := h.trans ht
    have hnone := hg.not_restored (hworld ▸ hreached.intact hfound.intact)
      (hworld ▸ hreached.restored hfound)
    have hsome := hstays t ht
    rw [hworld, hnone] at hsome
    cases hsome

namespace Sample

def wire : Json :=
  .obj [("attempt", .obj [("signature", .str ""), ("signed_transaction", .str "w")]),
    ("chainId", .str "c"), ("signature", .str "")]

def reserved : State :=
  State.after primitives none opened (.reserveAdmission "solana" "t1" "solana\x00null" .null)

def held : State :=
  State.after primitives none reserved (.beforeBroadcast "solana" "t1" "solana:c:" wire)

def restored : State := State.after primitives none held (.prepareSolanaRestore "t1" .null)

def granted : State :=
  State.after primitives (some 5) restored (.beforeSolanaRecoveryBroadcast "t1" .null wire)

set_option maxRecDepth 4000 in
theorem granted_steps : Steps primitives (.initial world) granted := by
  have hreserved : Steps primitives opened reserved := Steps.call _ _ rfl opened_up
  have hheld : Steps primitives reserved held := Steps.call _ _ rfl (by decide +kernel)
  have hrestored : Steps primitives held restored := Steps.call _ _ rfl (by decide +kernel)
  have hgranted : Steps primitives restored granted := Steps.call _ _ rfl (by decide +kernel)
  exact (((opened_steps.trans hreserved).trans hheld).trans hrestored).trans hgranted

end Sample

set_option maxRecDepth 4000 in
theorem solana_budget_granted : Sample.granted.grants "t1" = [(1, 5)] ∧
    (Sample.granted.world.db.mode "t1").isSome ∧ (Sample.granted.grants "t1").length ≤ 20 ∧
    (Sample.granted.crashed.world.db.mode "t1").isSome :=
  have h := solana_budget Sample.founded Sample.granted_steps "t1"
  have hmode : (Sample.granted.world.db.mode "t1").isSome := by decide +kernel
  ⟨by decide +kernel, hmode, h.1, (h.2.2.2.2 _ (.single (.crash _)) hmode).1⟩

end EngineCore.Recovery
