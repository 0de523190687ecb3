import EngineCore.Recovery.Protocol
import EngineCore.Recovery.Replay

/-!
# Admission states and terminal evidence

* **`Commit.witnessed`**: terminal admissions are those with evidence, and a second piece of
  evidence is kept together with its halt.
-/

namespace EngineCore.Recovery

open Except (bind_ok)

variable {P : Primitives} {db db' : Database} {o : Bool}

/-! ## States -/

theorem lookup_state (hi : db.Intact) {id : String} {record r : AdmissionRecord}
    (hrec : db.lookup id = some record) (hr : r ∈ db.admissions) (hid : r.id = id) :
    r = record := by
  obtain ⟨hmem, hid'⟩ := mem_of_lookup hrec
  exact hi.eq_of_id hr hmem (hid.trans hid'.symm)

theorem not_quarantined {record : AdmissionRecord} {identity : Json}
    (h : db.validateAttemptIdentity P record identity = .ok ()) :
    record.state ≠ .quarantined := by
  simp only [Database.validateAttemptIdentity, bind_ok, refuse_ok, exists_const] at h
  exact h.1

/-- **Terminal and quarantined admissions keep their state.** -/
theorem Commit.absorbs (hc : Commit P o db db') (hi : db.Intact) :
    ∀ r ∈ db.admissions, ∃ r' ∈ db'.admissions,
      r'.id = r.id ∧ (r.state ≠ .admitted → r'.state = r.state) := by
  have hsame : ∀ r ∈ db.admissions, ∃ r' ∈ db.admissions,
      r'.id = r.id ∧ (r.state ≠ .admitted → r'.state = r.state) :=
    fun r hr => ⟨r, hr, rfl, fun _ => rfl⟩
  cases hc with
  | reserve row =>
    exact fun r hr => ⟨r, List.mem_append_left _ hr, rfl, fun _ => rfl⟩
  | attempt record a =>
    intro r hr
    refine ⟨_, List.mem_map_of_mem hr, ?_⟩
    split_ifs <;> exact ⟨rfl, fun _ => rfl⟩
  | close record e evidence hrec hid hstate _ =>
    intro r hr
    refine ⟨_, List.mem_map_of_mem hr, ?_⟩
    split_ifs with hre
    · obtain rfl := lookup_state hi hrec hr hre
      refine ⟨rfl, fun hadm => ?_⟩
      have hq := not_quarantined hid
      cases hs : r.state <;> simp_all
    · exact ⟨rfl, fun _ => rfl⟩
  | recover legacy ns run =>
    intro r hr
    refine ⟨_, List.mem_map_of_mem hr, rfl, fun hadm => ?_⟩
    change db.recoveredState r = r.state
    unfold Database.recoveredState
    split_ifs with h
    · cases hs : r.state <;> simp_all
    · rfl
  | _ => exact hsame

/-- **An admission becomes terminal only with evidence that names one of its attempts.** -/
theorem Commit.closes (hc : Commit P o db db') {r' : AdmissionRecord}
    (hr' : r' ∈ db'.admissions) (hstate : r'.state = .terminal) :
    (∃ r ∈ db.admissions, r.id = r'.id ∧ r.state = .terminal) ∨
      ∃ record e evidence, db.lookup r'.id = some record ∧ record.state = .admitted ∧
        db.validateAttemptIdentity P record evidence = .ok () ∧
        e.id = r'.id ∧ db'.evidence = db.evidence ++ [e] := by
  cases hc with
  | reserve row _ hadm =>
    rcases List.mem_append.mp hr' with hr | hr
    · exact .inl ⟨r', hr, rfl, hstate⟩
    · obtain rfl := List.mem_singleton.mp hr
      simp [hadm] at hstate
  | attempt record a =>
    obtain ⟨r, hr, rfl⟩ := List.mem_map.mp hr'
    refine .inl ⟨r, hr, ?_⟩
    split_ifs at hstate ⊢ <;> exact ⟨rfl, hstate⟩
  | close record e evidence hrec hid hopen _ =>
    obtain ⟨r, hr, rfl⟩ := List.mem_map.mp hr'
    by_cases hre : r.id = e.id
    · rw [if_pos hre]
      refine .inr ⟨record, e, evidence, ?_, ?_, hid, hre.symm, rfl⟩
      · change db.lookup r.id = _
        rw [hre]
        exact hrec
      · have hq := not_quarantined hid
        cases hs : record.state <;> simp_all
    · rw [if_neg hre] at hstate ⊢
      exact .inl ⟨r, hr, rfl, hstate⟩
  | recover legacy ns run =>
    obtain ⟨r, hr, rfl⟩ := List.mem_map.mp hr'
    have hrec : db.recoveredState r = .terminal := hstate
    unfold Database.recoveredState at hrec
    split_ifs at hrec
    exact .inl ⟨r, hr, rfl, hrec⟩
  | _ => exact .inl ⟨r', hr', rfl, hstate⟩

/-! ## Evidence -/

theorem terminalConflict_congr (h : db'.evidence = db.evidence) :
    db'.TerminalConflict ↔ db.TerminalConflict := by
  simp [Database.TerminalConflict, Database.evidenceOf, h]

theorem terminalConflict_insert {e : TerminalEvidence} (hnew : ∀ e' ∈ db.evidence, e'.id ≠ e.id)
    (h : (db.insertEvidence e).TerminalConflict) : db.TerminalConflict := by
  obtain ⟨e', he', hlen⟩ := h
  simp only [Database.evidenceOf, Database.insertEvidence, List.filter_append,
    List.length_append] at he' hlen
  rcases List.mem_append.mp he' with he' | he'
  · have hne : e.id ≠ e'.id := fun heq => hnew e' he' heq.symm
    exact ⟨e', he', by simpa [Database.evidenceOf, hne] using hlen⟩
  · obtain rfl := List.mem_singleton.mp he'
    have hnil : db.evidence.filter (fun x => decide (x.id = e'.id)) = [] := by
      simpa [List.filter_eq_nil_iff] using hnew
    simp [hnil] at hlen

theorem Commit.terminalConflict (hc : Commit P o db db') (hi : db.Intact) (h : db.Witnessed)
    (hconf : db'.TerminalConflict) :
    db.TerminalConflict ∨
      db'.control.halted = true ∧ db'.control.reason = some .terminalEvidenceConflict := by
  cases hc with
  | close record e evidence hrec hid hstate _ =>
    refine .inl (terminalConflict_insert (e := e) ?_ ((terminalConflict_congr ?_).mp hconf))
    · intro e' he' hid'
      obtain ⟨r, hr, hrid, hterm⟩ := h.outcome e' he'
      rw [← lookup_state hi hrec hr (hrid.trans hid')] at hstate
      exact hstate hterm
    · rfl
  | contradict => exact .inr ⟨rfl, rfl⟩
  | _ => exact .inl ((terminalConflict_congr rfl).mp hconf)

theorem Commit.evidence (hc : Commit P o db db') :
    db'.evidence = db.evidence ∨
      ∃ e, db'.evidence = db.evidence ++ [e] ∧
        ∃ r' ∈ db'.admissions, r'.id = e.id ∧ r'.state = .terminal := by
  cases hc with
  | close record e evidence hrec hid _ _ =>
    obtain ⟨hmem, hre⟩ := mem_of_lookup hrec
    refine .inr ⟨e, rfl, record.close, ?_, hre, rfl⟩
    exact mem_updateAdmission.mpr (.inl ⟨record, hmem, hre, rfl⟩)
  | contradict record e evidence hrec _ hstate =>
    obtain ⟨hmem, hre⟩ := mem_of_lookup hrec
    exact .inr ⟨e, rfl, record, hmem, hre, hstate⟩
  | _ => exact .inl rfl

/-- **Every committed change keeps states and evidence in step**, provided it lifts no halt of a
ledger with contradictory evidence. -/
theorem Commit.witnessed (hc : Commit P o db db') (hi : db.Intact) (h : db.Witnessed)
    (hhalt : Online db db' ∨ ¬db.TerminalConflict) : db'.Witnessed := by
  refine ⟨?_, ?_, ?_⟩
  · intro r' hr' hstate
    rcases hc.closes hr' hstate with ⟨r, hr, hid, hterm⟩ | ⟨_, e, _, _, _, _, hid, hev⟩
    · obtain ⟨e, he, heid⟩ := h.closed r hr hterm
      exact ⟨e, (hc.extends hi).evidence.subset he, heid.trans hid⟩
    · exact ⟨e, hev ▸ List.mem_append_right _ (List.mem_singleton_self e), hid⟩
  · intro e he
    have hold : e ∈ db.evidence → ∃ r ∈ db'.admissions, r.id = e.id ∧ r.state = .terminal := by
      intro he
      obtain ⟨r, hr, hid, hterm⟩ := h.outcome e he
      obtain ⟨r', hr', hid', hstate⟩ := hc.absorbs hi r hr
      exact ⟨r', hr', hid'.trans hid, (hstate (by simp [hterm])).trans hterm⟩
    rcases hc.evidence with hev | ⟨e', hev, hclosed⟩
    · exact hold (hev ▸ he)
    · rw [hev] at he
      rcases List.mem_append.mp he with he | he
      · exact hold he
      · obtain rfl := List.mem_singleton.mp he
        exact hclosed
  · intro hconf
    rcases hc.terminalConflict hi h hconf with hold | hnew
    · rcases hhalt with hon | hno
      · exact ⟨hon.halted (h.conflict hold).1, hon.conflict (h.conflict hold).2⟩
      · exact absurd hold hno
    · exact hnew

end EngineCore.Recovery
