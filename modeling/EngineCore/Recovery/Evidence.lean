import EngineCore.Recovery.Absorb
import EngineCore.Recovery.Reopen

/-!
# The first terminal witness

* `terminal_agrees`, `terminal_disagrees`: what `record_terminal` does to a terminal admission;
* **`first_witness`**: over every run the first witness of an id is permanent, agreeing evidence
  changes nothing, and any other evidence is kept and stops the journal for good.
-/

namespace EngineCore.Recovery

open Interact
open Except (bind_ok)

variable {P : Primitives} {db db' : Database}

/-! ## Agreement -/

/-- Equality up to the order of object keys and the checkpoint fields of `finality`. -/
def Agrees (first evidence : Json) : Prop :=
  Json.Reorder (withoutCheckpoint first) (withoutCheckpoint evidence)

theorem withoutCheckpoint_distinct {v : Json} (h : v.Distinct) : (withoutCheckpoint v).Distinct :=
  h.modify "finality" fun _ hu => (hu.remove "checkpointNumber").remove "checkpointHash"

theorem canonical_congr {v w : Json} (h : v.sort = w.sort) : canonical v = canonical w := by
  unfold canonical
  rw [h]

theorem Agrees.identity_eq {first evidence : Json} (h : Agrees first evidence)
    (hd : first.Distinct) : terminalIdentity first = terminalIdentity evidence :=
  canonical_congr (h.sort_eq (withoutCheckpoint_distinct hd))

/-- **Agreement is what the normalized forms compare.** -/
theorem agrees_iff {first evidence was normalized : Json} (hd : first.Distinct)
    (hwas : terminalIdentity first = .ok was) (hn : terminalIdentity evidence = .ok normalized) :
    Agrees first evidence ↔ was = normalized := by
  constructor
  · intro h
    rw [h.identity_eq hd, hn] at hwas
    exact (Except.ok.inj hwas).symm
  · rintro rfl
    have hsort : (withoutCheckpoint first).sort = (withoutCheckpoint evidence).sort := by
      rw [← canonical_ok hwas, ← canonical_ok hn]
    refine .trans (Json.reorder_sort _) ?_
    rw [hsort]
    exact (Json.reorder_sort _).symm

/-! ## The transaction -/

variable {id : String}

theorem terminalEvidence_ok {kind : Kind} {first : Json} :
    db.terminalEvidence kind id = .ok (some first) ↔
      ∃ record, db.lookup id = some record ∧ record.kind = kind ∧ record.state = .terminal ∧
        db.firstEvidence id = some first := by
  unfold Database.terminalEvidence
  cases hrec : db.lookup id with
  | none => simp [pure, Except.pure]
  | some record =>
    simp only [bind_ok, refuse_ok, exists_const, not_not, Option.some.injEq, exists_eq_left']
    by_cases hstate : record.state = .terminal
    · simp only [hstate, if_true, true_and, and_congr_right_iff]
      cases db.firstEvidence id <;> simp [require, bind, Except.bind, pure, Except.pure]
    · simp [hstate, pure, Except.pure]

/-- The tables with contradictory evidence. -/
def Database.contradicted (db : Database) (id : String) (encoded : Json) : Database :=
  { db.insertEvidence ⟨id, encoded⟩ with
    control.halted := true, control.reason := some .terminalEvidenceConflict }

/-- An admission that is terminal, with its first witness, and evidence that names an attempt. -/
structure Observes (P : Primitives) (db : Database) (kind : Kind) (id : String)
    (first evidence : Json) : Prop where
  witness : db.terminalEvidence kind id = .ok (some first)
  identity : ∀ record, db.lookup id = some record →
    db.validateAttemptIdentity P record evidence = .ok ()

theorem Observes.terminal_eq {kind : Kind}
    {first evidence was normalized encoded : Json} (h : Observes P db kind id first evidence)
    (hwas : terminalIdentity first = .ok was) :
    db.terminal P kind id evidence normalized encoded = .ok (if was = normalized then
      ((none, false), db) else ((none, true), db.contradicted id encoded)) := by
  obtain ⟨record, hrec, hkind, hstate, hfirst⟩ := terminalEvidence_ok.mp h.witness
  have hid := h.identity record hrec
  simp only [Database.terminal, hrec, hkind, hid, hstate, hfirst, hwas, require, refuse, bind,
    Except.bind, pure, Except.pure, ne_eq, not_true_eq_false, if_false, if_true]
  split_ifs <;> rfl

section Undisturbed

variable {now : Option ℕ} {w : World} {name id : String} {kind : Kind}
variable {first evidence was normalized encoded : Json}

theorem recordTerminal_exec (hw : Healthy w) (hname : identity name id = .ok kind)
    (hn : terminalIdentity evidence = .ok normalized) (he : canonical evidence = .ok encoded) :
    ∃ w₁, Completed w w₁ ∧ (Journal.recordTerminal name id evidence).run.exec (answer P now) w
      = (do let (old, conflict) ← Journal.commit (.terminal kind id evidence normalized encoded)
            Journal.finishTerminal old conflict : Journal Unit).run.exec (answer P now) w₁ := by
  have hruns : Runs P now Journal.healthyLocked w _ := healthyLocked_runs hw
  obtain ⟨c, w₁, hexec, _, hdone⟩ := hruns
  refine ⟨w₁, hdone, ?_⟩
  unfold Journal.recordTerminal
  rw [hname, hn, he]
  exact exec_run_bind hexec

theorem Observes.acked (h : Observes P db kind id first evidence) :
    Observes P db.acked kind id first evidence :=
  ⟨h.witness, h.identity⟩

theorem Observes.commit_exec (h : Observes P w.db kind id first evidence)
    (hwas : terminalIdentity first = .ok was) :
    (do let (old, conflict) ← Journal.commit (.terminal kind id evidence normalized encoded)
        Journal.finishTerminal old conflict : Journal Unit).run.exec (answer P now) w
      = if was = normalized then (.ok (), w) else
        (.error (.recoveryRequired "terminal evidence conflict"),
          { w with db := w.db.contradicted id encoded, failed := true }) := by
  have htx : w.db.terminal P kind id evidence normalized encoded = .ok _ := h.terminal_eq hwas
  by_cases heq : was = normalized
  · rw [if_pos heq] at htx ⊢
    have hruns : Runs P now (Journal.commit (.terminal kind id evidence normalized encoded)) w
        fun r w' => r = (none, false) ∧ w' = w := .commit htx ⟨rfl, rfl⟩
    obtain ⟨_, _, hexec, rfl, rfl⟩ := hruns
    exact exec_run_bind hexec
  · rw [if_neg heq] at htx ⊢
    have hruns : Runs P now (Journal.commit (.terminal kind id evidence normalized encoded)) w
        fun r w' => r = (none, true) ∧ w' = { w with db := w.db.contradicted id encoded } :=
      .commit htx ⟨rfl, rfl⟩
    obtain ⟨_, _, hexec, rfl, rfl⟩ := hruns
    exact exec_run_bind hexec

/-- **Undisturbed, agreeing evidence is accepted and changes nothing**, and any other is kept, stops
the journal and fails. At most a pending publication is completed before. -/
theorem recordTerminal_decides (hw : Healthy w) (hname : identity name id = .ok kind)
    (hn : terminalIdentity evidence = .ok normalized) (he : canonical evidence = .ok encoded)
    (h : Observes P w.db kind id first evidence) (hwas : terminalIdentity first = .ok was)
    (hd : first.Distinct) :
    ∃ w', (Agrees first evidence →
        (Journal.recordTerminal name id evidence).run.exec (answer P now) w = (.ok (), w') ∧
          w'.db = w.db.acked) ∧
      (¬Agrees first evidence →
        (Journal.recordTerminal name id evidence).run.exec (answer P now) w
          = (.error (.recoveryRequired "terminal evidence conflict"), w') ∧
        w'.db = w.db.acked.contradicted id encoded) := by
  obtain ⟨w₁, hdone, hexec⟩ := recordTerminal_exec (P := P) hw hname hn he
  have hobs : Observes P w₁.db kind id first evidence := hdone.db ▸ h.acked
  rw [hobs.commit_exec hwas] at hexec
  rw [agrees_iff hd hwas hn, hexec]
  by_cases heq : was = normalized
  · exact ⟨w₁, fun _ => ⟨if_pos heq, hdone.db⟩, fun hne => absurd heq hne⟩
  · refine ⟨_, fun h => absurd h heq, fun _ => ⟨if_neg heq, ?_⟩⟩
    rw [hdone.db]

end Undisturbed

/-! ## The fields of evidence -/

theorem get?_modify {v : Json} {name k : String} {f : Json → Json} (hk : k ≠ name) :
    (v.modify name f).get? k = v.get? k := by
  cases v with
  | obj fields =>
    induction fields with
    | nil => rfl
    | cons e fields ih =>
      obtain ⟨key, u⟩ := e
      simp only [Json.modify, Json.get?, List.map_cons] at ih ⊢
      by_cases he : key = name
      · have hne : (k == key) = false := by simpa [he] using hk
        rw [if_pos he, List.lookup_cons, List.lookup_cons, hne]
        exact ih
      · rw [if_neg he, List.lookup_cons, List.lookup_cons, ih]
  | _ => rfl

variable {fs : List (String × Json)}

theorem strField_sort (hkeys : (Json.keys fs).Nodup) (k : String) :
    strField (Json.obj fs).sort k = strField (.obj fs) k := by
  rw [strField, strField, Json.get?_sort hkeys]
  cases (Json.obj fs).get? k with
  | none => rfl
  | some u => cases u <;> simp [Json.sort, Json.asStr]

theorem strField_of_sort_eq {v : Json} (hkeys : (Json.keys fs).Nodup)
    (h : v.sort = (Json.obj fs).sort) (k : String) : strField v k = strField (.obj fs) k := by
  cases v with
  | obj gs =>
    simp only [Json.sort, Json.obj.injEq, Json.sortFields_eq_map, Json.sortKeys] at h
    have hperm := ((List.perm_insertionSort _ _).symm.trans (.of_eq h)).trans
      (List.perm_insertionSort _ _)
    have hkeys' : (Json.keys gs).Nodup := by
      have := (hperm.map Prod.fst).nodup_iff
      simp only [List.map_map, Function.comp_def] at this
      exact this.mpr hkeys
    have hsame : (Json.obj gs).sort = (Json.obj fs).sort := by
      simp only [Json.sort, Json.sortFields_eq_map, Json.sortKeys, h]
    rw [← strField_sort hkeys', hsame, strField_sort hkeys]
  | _ => simp [Json.sort] at h

theorem strField_of_identity {v normalized : Json}
    (hkeys : (Json.keys fs).Nodup) (hv : terminalIdentity v = .ok normalized)
    (hfs : terminalIdentity (.obj fs) = .ok normalized) {k : String} (hk : k ≠ "finality") :
    strField v k = strField (.obj fs) k := by
  have hsort : (withoutCheckpoint v).sort = (withoutCheckpoint (.obj fs)).sort :=
    (canonical_ok hv).symm.trans (canonical_ok hfs)
  have hsame : Json.keys (fs.map fun e => if e.1 = "finality" then
      (e.1, (e.2.remove "checkpointNumber").remove "checkpointHash") else e) = Json.keys fs := by
    simp only [Json.keys, List.map_map]
    refine List.map_congr_left fun e _ => ?_
    by_cases he : e.1 = "finality" <;> simp [he]
  have hfield := strField_of_sort_eq (hsame ▸ hkeys) hsort k
  have hget : ∀ u : Json, (withoutCheckpoint u).get? k = u.get? k := fun u => get?_modify hk
  unfold strField at hfield ⊢
  rw [← hget v, ← hget (.obj fs)]
  exact hfield

/-! ## Outcomes on record -/

/-- A closed admission with evidence that has these texts. -/
def Database.Records (kind : Kind) (id : String) (texts : List (String × String)) (db : Database) :
    Prop :=
  (∃ r ∈ db.admissions, r.id = id ∧ r.kind = kind ∧ r.state = .terminal) ∧
    ∃ e ∈ db.evidence, e.id = id ∧ ∀ t ∈ texts, strField e.evidence t.1 = some t.2

/-- **A recorded outcome stays on record.** -/
theorem Database.Records.steps {kind : Kind} {texts : List (String × String)}
    {s s' : State} (h : s.world.db.Records kind id texts) (hs : s.world.db.Intact)
    (hsteps : Steps P s s') : s'.world.db.Records kind id texts := by
  obtain ⟨⟨r, hr, hid, hkind, hstate⟩, e, he, hrest⟩ := h
  have hext := hsteps.extends hs
  obtain ⟨r₁, hr₁, hkeeps⟩ := hext.admissions r hr
  obtain ⟨r₂, hr₂, hstate₂⟩ := hsteps.absorbs hs (hs.lookup_eq hr) (by simp [hstate])
  have hsame : r₁ = r₂ := lookup_state (hsteps.intact hs) hr₂ hr₁ hkeeps.id
  refine ⟨⟨r₁, hr₁, hkeeps.id.trans hid, hkeeps.kind.trans hkind, ?_⟩, e,
    hext.evidence.subset he, hrest⟩
  rw [hsame, hstate₂, hstate]

/-- **What a returned `record_terminal` leaves on record**: its own evidence, or the first one, which
agrees with it. -/
theorem Granted.records {name id : String} {kind : Kind} {l : Log}
    (h : Granted P (.recordTerminal name id (.obj fs)) () l db) (hname : Kind.parse name = some kind)
    (hkeys : (Json.keys fs).Nodup) {texts : List (String × String)}
    (htexts : ∀ t ∈ texts, t.1 ≠ "finality" ∧ strField (.obj fs) t.1 = some t.2) :
    db.Records kind id texts := by
  obtain ⟨k, normalized, encoded, old, db₀, db₁, hk, hn, he, hg⟩ := h
  have hparse := identity_ok hk
  rw [hname, Option.some.injEq] at hparse
  subst hparse
  obtain ⟨hadmission, hevidence⟩ := hg.terminal
  refine ⟨hadmission, ?_⟩
  rcases hevidence with hmem | ⟨first, hfirst, hidentity⟩
  · refine ⟨_, hmem, rfl, fun t ht => ?_⟩
    rw [canonical_ok he, strField_sort hkeys]
    exact (htexts t ht).2
  · obtain ⟨e, he, rfl⟩ := Option.map_eq_some_iff.mp hfirst
    obtain ⟨hmem, hid⟩ := List.mem_filter.mp (List.mem_of_mem_head? he)
    refine ⟨e, hmem, by simpa using hid, fun t ht => ?_⟩
    rw [← (htexts t ht).2]
    exact strField_of_identity hkeys hidentity hn (htexts t ht).1

/-! ## Every run -/

theorem Database.Extends.firstEvidence_eq (h : db.Extends db') {first : Json}
    (hfirst : db.firstEvidence id = some first) : db'.firstEvidence id = some first := by
  obtain ⟨rows, hrows⟩ := h.evidence
  obtain ⟨e, he, rfl⟩ := Option.map_eq_some_iff.mp hfirst
  have hof : db'.evidenceOf id = db.evidenceOf id ++ rows.filter fun e => e.id = id := by
    simp only [Database.evidenceOf, ← hrows, List.filter_append]
  simp only [Database.firstEvidence, hof, List.head?_append, he, Option.some_or, Option.map_some]

theorem Steps.terminalEvidence {s s' : State} (h : Steps P s s') (hs : s.world.db.Intact)
    {kind : Kind} {first : Json}
    (hfirst : s.world.db.terminalEvidence kind id = .ok (some first)) :
    s'.world.db.terminalEvidence kind id = .ok (some first) := by
  obtain ⟨record, hrec, hkind, hstate, hev⟩ := terminalEvidence_ok.mp hfirst
  have he := h.extends hs
  obtain ⟨r', hr', hstate'⟩ := h.absorbs hs hrec (by simp [hstate])
  obtain ⟨hmem, hid⟩ := mem_of_lookup hrec
  obtain ⟨r₂, hr₂, hkeeps⟩ := he.admissions record hmem
  have hsame : r₂ = r' := lookup_state (h.intact hs) hr' hr₂ (hkeeps.id.trans hid)
  refine terminalEvidence_ok.mpr ⟨r', hr', ?_, hstate'.trans hstate, he.firstEvidence_eq hev⟩
  rw [← hsame, hkeeps.kind, hkind]

theorem terminal_adds {kind : Kind} {evidence normalized encoded : Json}
    {r : Option Control × Bool} (hs : db.Sound)
    (h : db.terminal P kind id evidence normalized encoded = .ok (r, db'))
    (hne : db'.evidence ≠ db.evidence) :
    db'.evidence = db.evidence ++ [⟨id, encoded⟩] ∧ ((∀ e ∈ db.evidence, e.id ≠ id) ∨
      ∃ first was, db.firstEvidence id = some first ∧ terminalIdentity first = .ok was ∧
        was ≠ normalized ∧ db' = db.contradicted id encoded) := by
  obtain ⟨old, conflict⟩ := r
  obtain ⟨record, hrec, _, _, hcase⟩ := terminal_ok h
  rcases hcase with ⟨_, first, was, hfirst, hwas, _, ⟨_, _, rfl⟩ | ⟨hdiff, _, rfl⟩⟩ |
    ⟨hstate, _, _, _, rfl⟩
  · exact absurd rfl hne
  · exact ⟨rfl, .inr ⟨first, was, hfirst, hwas, hdiff, rfl⟩⟩
  · refine ⟨rfl, .inl fun e he heid => hstate ?_⟩
    obtain ⟨r, hr, hid, hterm⟩ := hs.witnessed.outcome e he
    rw [← lookup_state hs.intact hrec hr (hid.trans heid)]
    exact hterm

/-- **How evidence gets into the tables**: the running `record_terminal` adds its own, the first of
the id or one that contradicts the first and stops the journal. -/
theorem evidence_by {w : World} {s s' : State} (hfound : Founded w.db)
    (h : Steps P (.initial w) s) (hstep : (service P).Step s s')
    (hne : s'.world.db.evidence ≠ s.world.db.evidence) :
    ∃ name id evidence encoded l rest,
      s.active = some ⟨.recordTerminal name id evidence, l, rest⟩ ∧
      canonical evidence = .ok encoded ∧
      s'.world.db.evidence = s.world.db.evidence ++ [⟨id, encoded⟩] ∧
      ((∀ e ∈ s.world.db.evidence, e.id ≠ id) ∨ ∃ first, s.world.db.firstEvidence id = some first ∧
        (first.Distinct → ¬Agrees first evidence) ∧
        s'.world.db = s.world.db.contradicted id encoded) := by
  have hsame : s'.world.db ≠ s.world.db := fun hdb => hne (congrArg _ hdb)
  obtain ⟨c, l, t, next, now, r, hactive, hown, hexec⟩ := changed_by h hstep hsame
  rcases Tx.exec_evidence hexec with hev | ⟨kind, id, evidence, normalized, encoded, rfl⟩
  · exact absurd hev hne
  obtain ⟨name, rfl, _, hn, he⟩ := hown
  obtain ⟨hadds, hcase⟩ := terminal_adds (h.holds hfound).world hexec hne
  refine ⟨name, id, evidence, encoded, l, _, hactive, he, hadds, hcase.imp (fun h => h) ?_⟩
  rintro ⟨first, was, hfirst, hwas, hdiff, hdb⟩
  exact ⟨first, hfirst, fun hd hagree => hdiff ((agrees_iff hd hwas hn).mp hagree), hdb⟩

theorem Database.Extends.terminalConflict (h : db.Extends db') (hc : db.TerminalConflict) :
    db'.TerminalConflict := by
  obtain ⟨e, he, hlen⟩ := hc
  refine ⟨e, h.evidence.subset he, Nat.lt_of_lt_of_le hlen ?_⟩
  exact (h.evidence.sublist.filter _).length_le

theorem contradicted_conflict {first encoded : Json}
    (h : db.firstEvidence id = some first) : (db.contradicted id encoded).TerminalConflict := by
  obtain ⟨e, he, _⟩ := Option.map_eq_some_iff.mp h
  have hmem := List.mem_of_mem_head? he
  have hid : e.id = id := by simpa using (List.mem_filter.mp hmem).2
  refine ⟨e, List.mem_append_left _ (List.mem_of_mem_filter hmem), ?_⟩
  have hof : (db.contradicted id encoded).evidenceOf e.id = db.evidenceOf id ++ [⟨id, encoded⟩] := by
    simp [Database.contradicted, Database.insertEvidence, Database.evidenceOf, hid]
  rw [hof, List.length_append]
  have := List.length_pos_of_mem hmem
  simp only [List.length_singleton]
  omega

theorem stopped_for_good {w : World} {s s' : State} (hfound : Founded w.db)
    (h : Steps P (.initial w) s) (hc : s.world.db.TerminalConflict) (h' : Steps P s s') :
    s'.world.db.control.halted = true ∧
      ∀ c ∈ s.since s', c.call ≠ .quarantine → ∀ v, c.result ≠ .ok v := by
  have hi := h.intact hfound.intact
  refine ⟨?_, fun c hmem hq v hv => ?_⟩
  · have hsound := (Steps.holds hfound (h.trans h')).world
    exact (hsound.witnessed.conflict ((h'.extends hi).terminalConflict hc)).1
  · obtain ⟨t, ht, hworld, _⟩ := Service.Steps.mem_since h' hmem
    have hsound := (Steps.holds hfound (h.trans ht)).world
    have hconflict := (Steps.extends ht hi).terminalConflict hc
    have hgrant := (promise_of_record hfound (h.trans h') (Service.State.mem_since hmem)).1 v hv
    rw [hworld] at hsound hconflict
    have hhalt := (hsound.witnessed.conflict hconflict).1
    by_cases hg : c.call.grants = true
    · rw [hgrant.running hg] at hhalt
      cases hhalt
    · obtain ⟨call, l, result, w'⟩ := c
      cases call with
      | quarantine => exact hq rfl
      | reattach ns | recover ns => exact hgrant hconflict
      | _ => exact hg rfl

theorem recorded_agrees {w : World} {s : State} (hfound : Founded w.db)
    (h : Steps P (.initial w) s) {name id : String} {evidence : Json} {l : Log} {w' : World}
    (hr : (⟨.recordTerminal name id evidence, l, .ok (), w'⟩ : Record) ∈ s.records) :
    ∃ kind first, identity name id = .ok kind ∧
      w'.db.terminalEvidence kind id = .ok (some first) ∧
      (canonical evidence = .ok first ∨ (first.Distinct → Agrees first evidence)) := by
  have hgrant := (promise_of_record hfound h hr).1 () rfl
  have hrunning := hgrant.running rfl
  obtain ⟨kind, normalized, encoded, old, db₀, db₁, hk, hn, he, hg⟩ := hgrant
  have hsince : ⟨.recordTerminal name id evidence, l, .ok (), w'⟩ ∈
      Service.State.since (.initial w) s := by
    simpa [Service.State.since, Service.State.initial] using hr
  obtain ⟨t, ht, hworld, _⟩ := Service.Steps.mem_since h hsince
  replace hworld : t.world = w' := hworld
  have hsound : w'.db.Sound := hworld ▸ (Steps.holds hfound ht).world
  obtain ⟨⟨record, hmem, hid, hkind, hstate⟩, hev⟩ := hg.terminal
  have hlookup : w'.db.lookup id = some record := hid ▸ hsound.intact.lookup_eq hmem
  rcases hev with hev | ⟨first, hfirst, hidentity⟩
  · -- the ledger runs, so this is the only evidence of the id
    have hno : ¬w'.db.TerminalConflict := fun hc => by
      rw [(hsound.witnessed.conflict hc).1] at hrunning
      cases hrunning
    have hof : w'.db.evidenceOf id = [⟨id, encoded⟩] := by
      have hin : ⟨id, encoded⟩ ∈ w'.db.evidenceOf id := List.mem_filter.mpr ⟨hev, by simp⟩
      have hlen : (w'.db.evidenceOf id).length ≤ 1 := by
        by_contra hlt
        exact hno ⟨_, hev, Nat.lt_of_not_le hlt⟩
      obtain ⟨e, he⟩ := List.length_eq_one_iff.mp
        (Nat.le_antisymm hlen (List.length_pos_of_mem hin))
      rw [he] at hin ⊢
      rw [List.mem_singleton.mp hin]
    refine ⟨kind, encoded, hk, terminalEvidence_ok.mpr ⟨record, hlookup, hkind, hstate, ?_⟩, .inl he⟩
    simp [Database.firstEvidence, hof]
  · refine ⟨kind, first, hk, terminalEvidence_ok.mpr ⟨record, hlookup, hkind, hstate, hfirst⟩,
      .inr fun hd => (agrees_iff hd hidentity hn).mpr rfl⟩

/-- **The first witness is permanent.** In every run, whatever its calls, their order, the crashes
and the changes of Redis: once an id has a terminal witness, that witness is returned forever; the
evidence of an id is added by a running `record_terminal`, and it is the first, or it disagrees with
the first and stops the journal in the same commit; a `record_terminal` that has succeeded recorded
the first witness or evidence that agrees with it; undisturbed on a healthy journal, agreeing
evidence succeeds and changes nothing, any other is kept and fails; and once two pieces of evidence
of an id are kept, the journal stays stopped, and no call but a quarantine succeeds, neither a
reattach nor a recovery. -/
theorem first_witness {w : World} {s : State} (hfound : Founded w.db)
    (h : Steps P (.initial w) s) :
    (∀ s' kind id first, Steps P s s' →
      s.world.db.terminalEvidence kind id = .ok (some first) →
      s'.world.db.terminalEvidence kind id = .ok (some first)) ∧
    (∀ s', (service P).Step s s' → s'.world.db.evidence ≠ s.world.db.evidence →
      ∃ name id evidence encoded l rest,
        s.active = some ⟨.recordTerminal name id evidence, l, rest⟩ ∧
        canonical evidence = .ok encoded ∧
        s'.world.db.evidence = s.world.db.evidence ++ [⟨id, encoded⟩] ∧
        ((∀ e ∈ s.world.db.evidence, e.id ≠ id) ∨
          ∃ first, s.world.db.firstEvidence id = some first ∧
            (first.Distinct → ¬Agrees first evidence) ∧
            s'.world.db = s.world.db.contradicted id encoded ∧
            s'.world.db.TerminalConflict)) ∧
    (∀ name id evidence l w',
      (⟨.recordTerminal name id evidence, l, .ok (), w'⟩ : Record) ∈ s.records →
      ∃ kind first, identity name id = .ok kind ∧
        w'.db.terminalEvidence kind id = .ok (some first) ∧
        (canonical evidence = .ok first ∨ (first.Distinct → Agrees first evidence))) ∧
    (∀ now name id kind first was evidence normalized encoded, Healthy s.world →
      identity name id = .ok kind → terminalIdentity evidence = .ok normalized →
      canonical evidence = .ok encoded → Observes P s.world.db kind id first evidence →
      terminalIdentity first = .ok was → first.Distinct →
      ∃ w', (Agrees first evidence →
          (Journal.recordTerminal name id evidence).run.exec (answer P now) s.world = (.ok (), w') ∧
            w'.db = s.world.db.acked) ∧
        (¬Agrees first evidence →
          (Journal.recordTerminal name id evidence).run.exec (answer P now) s.world
            = (.error (.recoveryRequired "terminal evidence conflict"), w') ∧
          w'.db = s.world.db.acked.contradicted id encoded ∧ w'.db.TerminalConflict)) ∧
    (s.world.db.TerminalConflict → ∀ s', Steps P s s' → s'.world.db.control.halted = true ∧
      ∀ c ∈ s.since s', c.call ≠ .quarantine → ∀ v, c.result ≠ .ok v) := by
  have hi := h.intact hfound.intact
  refine ⟨fun s' kind id first h' hfirst => h'.terminalEvidence hi hfirst, ?_,
    fun name id evidence l w' hr => recorded_agrees hfound h hr, ?_,
    fun hc s' h' => stopped_for_good hfound h hc h'⟩
  · intro s' hstep hne
    obtain ⟨name, id, evidence, encoded, l, rest, hactive, he, hadds, hcase⟩ :=
      evidence_by hfound h hstep hne
    refine ⟨name, id, evidence, encoded, l, rest, hactive, he, hadds, hcase.imp (fun h => h) ?_⟩
    rintro ⟨first, hfirst, hdiff, hdb⟩
    exact ⟨first, hfirst, hdiff, hdb, hdb ▸ contradicted_conflict hfirst⟩
  · intro now name id kind first was evidence normalized encoded hw hname hn he hobs hwas hd
    obtain ⟨w', hagree, hother⟩ := recordTerminal_decides (P := P) hw hname hn he hobs hwas hd
    refine ⟨w', hagree, fun hno => ?_⟩
    obtain ⟨hexec, hdb⟩ := hother hno
    obtain ⟨record, _, _, _, hfirst⟩ := terminalEvidence_ok.mp hobs.witness
    have hfirst' : s.world.db.acked.firstEvidence id = some first := hfirst
    exact ⟨hexec, hdb, hdb ▸ contradicted_conflict hfirst'⟩

namespace Sample

/-- The intent is sent under a transaction hash. -/
def hashed : State := State.after primitives none admitted
  (.beforeBroadcast "eoa" "t1" key (.obj [("transactionHash", .str "0x")]))

def outcome : Json := .obj [("chainId", .num (.nat 1)), ("transactionHash", .str "0x")]

def closed : State := State.after primitives none hashed (.recordTerminal "eoa" "t1" outcome)

set_option maxRecDepth 4000 in
theorem hashed_up : hashed.world.up = true := by decide +kernel

set_option maxRecDepth 4000 in
theorem closed_witness : closed.world.db.terminalEvidence .eoa "t1" = .ok (some outcome) := by
  decide +kernel

theorem hashed_steps : Steps primitives (.initial world) hashed :=
  admitted_steps.trans (Steps.call _ _ rfl admitted_up)

theorem closed_steps : Steps primitives (.initial world) closed :=
  hashed_steps.trans (Steps.call _ _ rfl hashed_up)

end Sample

theorem first_witness_closed :
    Sample.closed.crashed.world.db.terminalEvidence .eoa "t1" = .ok (some Sample.outcome) :=
  (first_witness Sample.founded Sample.closed_steps).1 Sample.closed.crashed .eoa "t1" _
    (.crash _ _) Sample.closed_witness

end EngineCore.Recovery
