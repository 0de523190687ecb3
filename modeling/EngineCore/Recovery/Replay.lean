import EngineCore.Recovery.Invariant

/-!
# Replay identity

Admissions, attempts and evidence only grow, an admission is bound to one replay key for good, and
no two admissions share one.

* **`replay_identity`**: both hold in every reachable state of the journal.
-/

namespace EngineCore.Recovery

open Interact

variable {P : Primitives} {db db' : Database}

/-! ## Rows that change in place -/

theorem map_ids (f : AdmissionRecord → AdmissionRecord) (hf : ∀ r, (f r).id = r.id)
    (l : List AdmissionRecord) :
    (l.map f).map AdmissionRecord.id = l.map AdmissionRecord.id := by
  simp [Function.comp_def, hf]

theorem Database.Intact.map (h : db.Intact) (f : AdmissionRecord → AdmissionRecord)
    (hid : ∀ r, (f r).id = r.id) (hkey : ∀ r, (f r).replayKey = r.replayKey)
    (ha : db'.admissions = db.admissions.map f) (hb : db'.attempts = db.attempts) : db'.Intact := by
  refine ⟨?_, ?_, ?_, ?_⟩
  · rw [ha, map_ids f hid]
    exact h.ids
  · rw [ha]
    intro r hr r' hr' k hk hk'
    obtain ⟨s, hs, rfl⟩ := List.mem_map.mp hr
    obtain ⟨s', hs', rfl⟩ := List.mem_map.mp hr'
    rw [hid, hid]
    exact h.keys s hs s' hs' k (hkey s ▸ hk) (hkey s' ▸ hk')
  · rw [ha, hb]
    intro a hmem
    obtain ⟨r, hr, hi, hk⟩ := h.bound a hmem
    exact ⟨f r, List.mem_map_of_mem hr, (hid r).trans hi, (hkey r).trans hk⟩
  · rw [ha, hb]
    intro r hr k hk
    obtain ⟨s, hs, rfl⟩ := List.mem_map.mp hr
    rw [hid]
    exact h.sent s hs k (hkey s ▸ hk)

theorem Database.Intact.close (h : db.Intact) (id : String) :
    (db.updateAdmission id AdmissionRecord.close).Intact := by
  refine h.map (fun r => if r.id = id then r.close else r) ?_ ?_ rfl rfl
  all_goals intro r; split_ifs <;> rfl

theorem keeps_map {l : List AdmissionRecord} (f : AdmissionRecord → AdmissionRecord)
    (hf : ∀ r ∈ l, r.Keeps (f r)) : ∀ r ∈ l, ∃ r' ∈ l.map f, r.Keeps r' :=
  fun r hr => ⟨f r, List.mem_map_of_mem hr, hf r hr⟩

theorem Database.Intact.congr (h : db.Intact) (ha : db'.admissions = db.admissions)
    (hb : db'.attempts = db.attempts) : db'.Intact :=
  h.map id (fun _ => rfl) (fun _ => rfl) (by simpa using ha) hb

theorem Database.Extends.congr (ha : db'.admissions = db.admissions)
    (hb : db'.attempts = db.attempts) (he : db'.evidence = db.evidence) : db.Extends db' :=
  ⟨fun r hr => ⟨r, ha ▸ hr, .refl r⟩, hb ▸ List.prefix_rfl, he ▸ List.prefix_rfl⟩

/-! ## Binding a key -/

theorem Database.Intact.reserve (h : db.Intact) {row : AdmissionRecord}
    (hnew : db.lookup row.id = none) (hkey : row.replayKey = none) :
    (db.insertAdmission row).Intact := by
  have hfresh := lookup_eq_none.mp hnew
  have hkeyed : ∀ r ∈ db.admissions ++ [row], ∀ k, r.replayKey = some k → r ∈ db.admissions := by
    intro r hr k hk
    rcases List.mem_append.mp hr with hr | hr
    · exact hr
    · obtain rfl := List.mem_singleton.mp hr
      simp [hkey] at hk
  refine ⟨?_, ?_, ?_, ?_⟩
  · simp only [Database.insertAdmission, List.map_append, List.map_cons, List.map_nil]
    refine List.nodup_append.mpr ⟨h.ids, List.nodup_singleton _, ?_⟩
    intro i hi j hj
    obtain ⟨r, hr, rfl⟩ := List.mem_map.mp hi
    obtain rfl := List.mem_singleton.mp hj
    exact hfresh r hr
  · intro r hr r' hr' k hk hk'
    exact h.keys r (hkeyed r hr k hk) r' (hkeyed r' hr' k hk') k hk hk'
  · intro a ha
    obtain ⟨r, hr, hrest⟩ := h.bound a ha
    exact ⟨r, List.mem_append_left _ hr, hrest⟩
  · intro r hr k hk
    exact h.sent r (hkeyed r hr k hk) k hk

theorem mem_updateAdmission {id : String} {f : AdmissionRecord → AdmissionRecord}
    {r : AdmissionRecord} :
    r ∈ (db.updateAdmission id f).admissions ↔
      (∃ s ∈ db.admissions, s.id = id ∧ r = f s) ∨ (r ∈ db.admissions ∧ r.id ≠ id) := by
  simp only [Database.updateAdmission, List.mem_map]
  constructor
  · rintro ⟨s, hs, rfl⟩
    by_cases hid : s.id = id
    · exact .inl ⟨s, hs, hid, by simp [hid]⟩
    · exact .inr (by simp [hid, hs])
  · rintro (⟨s, hs, hid, rfl⟩ | ⟨hr, hid⟩)
    · exact ⟨s, hs, by simp [hid]⟩
    · exact ⟨r, hr, by simp [hid]⟩

theorem Database.Intact.attempt (h : db.Intact) {record : AdmissionRecord} {a : Attempt}
    (hrec : db.lookup a.id = some record) (hkey : ∀ k, record.replayKey = some k → k = a.replayKey)
    (howner : ∀ o, db.owner a.replayKey = some o → o.id = a.id) :
    ((db.updateAdmission a.id (AdmissionRecord.bindKey a.replayKey)).insertAttempt a).Intact := by
  obtain ⟨hmem, hid⟩ := mem_of_lookup hrec
  -- the row of the id is `record`, and whoever holds the key already is that row
  have hself : ∀ s ∈ db.admissions, s.id = a.id → s = record := fun s hs hs' =>
    h.eq_of_id hs hmem (hs'.trans hid.symm)
  have hother : ∀ s ∈ db.admissions, s.replayKey = some a.replayKey → s.id = a.id := by
    intro s hs hs'
    cases ho : db.owner a.replayKey with
    | none => exact absurd hs' (owner_eq_none ho s hs)
    | some o =>
      obtain ⟨homem, hokey⟩ := owner_mem ho
      exact (h.keys s hs o homem _ hs' hokey).trans (howner o ho)
  refine ⟨?_, ?_, ?_, ?_⟩
  · change ((db.admissions.map _).map _).Nodup
    rw [map_ids _ fun r => by split_ifs <;> rfl]
    exact h.ids
  · intro r hr r' hr' k hk hk'
    rcases mem_updateAdmission.mp hr with ⟨s, hs, hsid, rfl⟩ | ⟨hr, hrid⟩ <;>
      rcases mem_updateAdmission.mp hr' with ⟨s', hs', hsid', rfl⟩ | ⟨hr', hrid'⟩
    · exact hsid.trans hsid'.symm
    · obtain rfl : a.replayKey = k := Option.some.inj hk
      exact absurd (hother r' hr' hk') hrid'
    · obtain rfl : a.replayKey = k := Option.some.inj hk'
      exact absurd (hother r hr hk) hrid
    · exact h.keys r hr r' hr' k hk hk'
  · intro b hb
    rcases List.mem_append.mp hb with hb | hb
    · obtain ⟨r, hr, hrid, hrkey⟩ := h.bound b hb
      by_cases hra : r.id = a.id
      · refine ⟨r.bindKey a.replayKey, mem_updateAdmission.mpr (.inl ⟨r, hr, hra, rfl⟩), hrid, ?_⟩
        obtain rfl := hself r hr hra
        rw [hkey _ hrkey]
        rfl
      · exact ⟨r, mem_updateAdmission.mpr (.inr ⟨hr, hra⟩), hrid, hrkey⟩
    · obtain rfl := List.mem_singleton.mp hb
      exact ⟨_, mem_updateAdmission.mpr (.inl ⟨record, hmem, hid, rfl⟩), hid, rfl⟩
  · intro r hr k hk
    rcases mem_updateAdmission.mp hr with ⟨s, _, hsid, rfl⟩ | ⟨hr, _⟩
    · exact ⟨a, List.mem_append_right _ (List.mem_singleton_self a), hsid.symm⟩
    · obtain ⟨b, hb, hbid⟩ := h.sent r hr k hk
      exact ⟨b, List.mem_append_left _ hb, hbid⟩

theorem Database.Intact.attempt_keeps (h : db.Intact) {record : AdmissionRecord} {a : Attempt}
    (hrec : db.lookup a.id = some record)
    (hkey : ∀ k, record.replayKey = some k → k = a.replayKey) :
    ∀ r ∈ db.admissions, ∃ r' ∈ (db.updateAdmission a.id
      (AdmissionRecord.bindKey a.replayKey)).admissions, r.Keeps r' := by
  obtain ⟨hmem, hid⟩ := mem_of_lookup hrec
  refine keeps_map _ fun r hr => ?_
  split_ifs with hra
  · obtain rfl := h.eq_of_id hr hmem (hra.trans hid.symm)
    exact ⟨rfl, rfl, rfl, rfl, fun k hk => congrArg some (hkey k hk).symm⟩
  · exact .refl r

/-! ## Every change -/

/-- **Every committed change keeps the invariant.** -/
theorem Commit.intact {o : Bool} (hc : Commit P o db db') (h : db.Intact) : db'.Intact := by
  cases hc with
  | reserve row hnew _ hkey _ => exact (h.reserve hnew hkey).congr rfl rfl
  | attempt record a hrec _ _ hkey howner _ _ =>
    exact (h.attempt hrec hkey howner).congr rfl rfl
  | close _ e _ _ _ _ _ => exact (h.close e.id).congr rfl rfl
  | recover legacy ns run _ =>
    exact h.map (fun r => { r with state := db.recoveredState r }) (fun _ => rfl) (fun _ => rfl)
      rfl rfl
  | _ => exact h.congr rfl rfl

/-- **Every committed change extends the ledger.** -/
theorem Commit.extends {o : Bool} (hc : Commit P o db db') (h : db.Intact) : db.Extends db' := by
  cases hc with
  | reserve row =>
    refine ⟨fun r hr => ⟨r, List.mem_append_left _ hr, .refl r⟩, ?_, ?_⟩ <;> exact List.prefix_rfl
  | attempt record a hrec _ _ hkey _ _ _ =>
    exact ⟨h.attempt_keeps hrec hkey, List.prefix_append _ _, List.prefix_rfl⟩
  | close _ e _ _ _ _ _ =>
    refine ⟨keeps_map _ fun r _ => ?_, List.prefix_rfl, List.prefix_append _ _⟩
    split_ifs
    · exact ⟨rfl, rfl, rfl, rfl, fun _ hk => hk⟩
    · exact .refl r
  | contradict =>
    exact ⟨fun r hr => ⟨r, hr, .refl r⟩, List.prefix_rfl, List.prefix_append _ _⟩
  | recover legacy ns run _ =>
    exact ⟨keeps_map _ fun r _ => ⟨rfl, rfl, rfl, rfl, fun _ hk => hk⟩, List.prefix_rfl,
      List.prefix_rfl⟩
  | _ => exact .congr rfl rfl rfl

/-! ## Every run -/

theorem Steps.intact {s s' : State} (h : Steps P s s') (hs : s.world.db.Intact) :
    s'.world.db.Intact :=
  (h.database (fun _ _ _ hc => hc.intact) hs).1

theorem Steps.extends {s s' : State} (h : Steps P s s') (hs : s.world.db.Intact) :
    s.world.db.Extends s'.world.db := by
  have hI := h.database (I := fun db => db.Intact ∧ s.world.db.Extends db)
    (fun _ _ _ hc hdb => ⟨hc.intact hdb.1, hdb.2.trans (hc.extends hdb.1)⟩) ⟨hs, .refl _⟩
  exact hI.1.2

/-- **Replay identity.** In every reachable state of a journal, whatever its calls, their order,
the crashes and the changes of Redis: different admissions hold different replay keys; an attempt
carries the key of its admission, which has a key exactly when it has an attempt; and from then on
no row is lost, and no kind, fingerprint, payload or replay key changes. -/
theorem replay_identity {w : World} {s : State} (hfound : Founded w.db)
    (h : Steps P (.initial w) s) :
    (∀ r ∈ s.world.db.admissions, ∀ r' ∈ s.world.db.admissions, ∀ k,
        r.replayKey = some k → r'.replayKey = some k → r = r') ∧
      (∀ a ∈ s.world.db.attempts, ∃ r ∈ s.world.db.admissions,
        r.id = a.id ∧ r.replayKey = some a.replayKey) ∧
      (∀ r ∈ s.world.db.admissions,
        r.replayKey.isSome ↔ ∃ a ∈ s.world.db.attempts, a.id = r.id) ∧
      ∀ s', Steps P s s' → s.world.db.Extends s'.world.db := by
  have hI := h.intact hfound.intact
  refine ⟨?_, hI.bound, ?_, fun s' h' => h'.extends hI⟩
  · intro r hr r' hr' k hk hk'
    exact hI.eq_of_id hr hr' (hI.keys r hr r' hr' k hk hk')
  · intro r hr
    constructor
    · intro hk
      obtain ⟨k, hk⟩ := Option.isSome_iff_exists.mp hk
      exact hI.sent r hr k hk
    · rintro ⟨a, ha, haid⟩
      obtain ⟨r', hr', hid, hkey⟩ := hI.bound a ha
      obtain rfl := hI.eq_of_id hr hr' (haid.symm.trans hid.symm)
      simp [hkey]

theorem replay_identity_sent : ∃ r ∈ Sample.sent.world.db.admissions,
    r.id = "t1" ∧ r.replayKey = some Sample.key :=
  (replay_identity Sample.founded Sample.sent_steps).2.1 ⟨"t1", Sample.key, "null", .null⟩
    (by decide +kernel)

end EngineCore.Recovery
