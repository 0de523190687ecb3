import EngineCore.Recovery.Absorb

/-!
# What an admission fingerprint identifies

A fingerprint is the digest of the kind and of the canonical text of the intent. The digest is taken
to be injective, and so is the text on the canonical forms of the values that occur.

* **`fingerprint_identity`**: equal fingerprints are the same intent, the canonical form does not
  depend on the order of keys, and a retry of an admission is accepted exactly if it is the same
  intent as the request that was stored.
-/

namespace EngineCore.Recovery

open Json
open Except (bind_ok pure_ok)

variable {P : Primitives} {V : Json → Prop}

/-- The same kind of request, and the same intent up to the order of object keys. -/
def SameIntent (kind : Kind) (payload : Json) (kind' : Kind) (payload' : Json) : Prop :=
  kind = kind' ∧ Reorder (intentOf kind payload) (intentOf kind' payload')

/-- The values that occur: objects have distinct keys, an intent is again such a value, and no two
canonical forms have one text. -/
structure Values (V : Json → Prop) : Prop where
  distinct : ∀ v, V v → Distinct v
  intent : ∀ kind v, V v → V (intentOf kind v)
  render : ∀ v w, V v → V w → v.sort.render = w.sort.render → v.sort = w.sort

/-! ## Canonical forms -/

theorem canonical_eq_ok {v e : Json} :
    canonical v = .ok e ↔ v.sort.render.utf8ByteSize ≤ maxRecordBytes ∧ e = v.sort := by
  simp only [canonical, bind_ok, refuse_ok, pure_ok, exists_const, not_lt]
  exact and_congr_right fun _ => eq_comm

theorem canonical_canonical {v e : Json} (h : canonical v = .ok e) : canonical e = .ok e := by
  obtain ⟨hsize, rfl⟩ := canonical_eq_ok.mp h
  rw [canonical_eq_ok, sort_sort]
  exact ⟨hsize, rfl⟩

theorem canonical_of_reorder {v w : Json} (h : Reorder v w) (hv : Distinct v) :
    canonical v = canonical w := by
  rw [canonical, canonical, h.sort_eq hv]

theorem admissionFingerprint_ok {kind : Kind} {payload : Json} {fingerprint : String} :
    admissionFingerprint P kind payload = .ok fingerprint ↔
      (intentOf kind payload).sort.render.utf8ByteSize ≤ maxRecordBytes ∧
      fingerprint = P.sha256 (kind.text ++ "\x00" ++ (intentOf kind payload).sort.render) := by
  simp only [admissionFingerprint, bind_ok, canonical_eq_ok, pure_ok]
  constructor
  · rintro ⟨e, ⟨hsize, rfl⟩, rfl⟩
    exact ⟨hsize, rfl⟩
  · rintro ⟨hsize, rfl⟩
    exact ⟨_, ⟨hsize, rfl⟩, rfl⟩

/-! ## Equal fingerprints -/

theorem Kind.nul_notMem (kind : Kind) : '\x00' ∉ kind.text.toList := by
  cases kind <;> decide

theorem Kind.text_injective {kind kind' : Kind} (h : kind.text = kind'.text) : kind = kind' := by
  cases kind <;> cases kind' <;> first | rfl | exact absurd h (by decide)

theorem digested_injective {kind kind' : Kind} {text text' : String}
    (h : kind.text ++ "\x00" ++ text = kind'.text ++ "\x00" ++ text') :
    kind = kind' ∧ text = text' := by
  have hhead : ∀ (k : Kind) (t : String),
      (k.text ++ "\x00" ++ t).toList.takeWhile (· ≠ '\x00') = k.text.toList := by
    intro k t
    have hnul : ("\x00" : String).toList = ['\x00'] := rfl
    rw [String.toList_append, String.toList_append, hnul, List.append_assoc,
      List.takeWhile_append_of_pos]
    · simp
    · intro c hc
      have hne : c ≠ '\x00' := fun he => k.nul_notMem (he ▸ hc)
      simpa using hne
  have hkind : kind.text = kind'.text := by
    have := congrArg (fun s : String => s.toList.takeWhile (· ≠ '\x00')) h
    simp only [hhead] at this
    exact String.toList_injective this
  rw [hkind, String.append_assoc, String.append_assoc] at h
  have htail := String.append_right_inj _ |>.mp (String.append_right_inj _ |>.mp h)
  exact ⟨Kind.text_injective hkind, htail⟩

theorem fingerprint_eq_iff (hV : Values V) (hsha : Function.Injective P.sha256) {kind kind' : Kind}
    {payload payload' : Json} {fingerprint fingerprint' : String} (hp : V payload) (hp' : V payload')
    (h : admissionFingerprint P kind payload = .ok fingerprint)
    (h' : admissionFingerprint P kind' payload' = .ok fingerprint') :
    fingerprint = fingerprint' ↔ SameIntent kind payload kind' payload' := by
  obtain ⟨-, rfl⟩ := admissionFingerprint_ok.mp h
  obtain ⟨-, rfl⟩ := admissionFingerprint_ok.mp h'
  have hi := hV.intent kind payload hp
  have hi' := hV.intent kind' payload' hp'
  constructor
  · intro he
    obtain ⟨rfl, htext⟩ := digested_injective (hsha he)
    have hsort := hV.render _ _ hi hi' htext
    refine ⟨rfl, (reorder_sort _).trans ?_⟩
    rw [hsort]
    exact (reorder_sort _).symm
  · rintro ⟨rfl, hr⟩
    rw [hr.sort_eq (hV.distinct _ hi)]

/-! ## Retries -/

theorem reserve_of_lookup {db : Database} {id : String} {row : AdmissionRecord}
    (hrow : db.lookup id = some row) (kind : Kind) (fingerprint : String) (payload encoded : Json) :
    ((∃ reservation old, db.reserve kind id fingerprint payload encoded =
        .ok ((reservation, old), db) ∧ reservation.payload = row.payload) ↔
      row.kind = kind ∧ row.fingerprint = fingerprint ∧ row.state ≠ .quarantined) ∧
    (¬(row.kind = kind ∧ row.fingerprint = fingerprint) →
      db.reserve kind id fingerprint payload encoded = .error .conflict) := by
  rw [Database.reserve, hrow]
  by_cases hsame : row.kind = kind ∧ row.fingerprint = fingerprint
  · have hpass : ¬(row.kind ≠ kind ∨ row.fingerprint ≠ fingerprint) := by tauto
    refine ⟨?_, fun hnot => absurd hsame hnot⟩
    by_cases hq : row.state = .quarantined
    · simp [refuse, hpass, hq, bind, Except.bind]
    · simp [refuse, hq, hsame, bind, Except.bind, pure, Except.pure]
  · have hstop : row.kind ≠ kind ∨ row.fingerprint ≠ fingerprint := by tauto
    refine ⟨⟨fun h => ?_, fun h => absurd ⟨h.1, h.2.1⟩ hsame⟩, fun _ => ?_⟩
    · obtain ⟨_, _, h, -⟩ := h
      simp [refuse, hstop, bind, Except.bind] at h
    · simp [refuse, hstop, bind, Except.bind]

theorem reserve_stores {db db' : Database} {id fingerprint : String} {kind : Kind}
    {payload encoded : Json} {reservation : AdmissionReservation} {old : Option Control}
    (hnew : db.lookup id = none)
    (h : db.reserve kind id fingerprint payload encoded = .ok ((reservation, old), db')) :
    ∃ row, db'.lookup id = some row ∧ row.kind = kind ∧ row.fingerprint = fingerprint ∧
      row.payload = encoded := by
  rcases reserve_ok h with ⟨record, hrec, -⟩ | ⟨-, -, -, -, rfl⟩
  · rw [hnew] at hrec
    cases hrec
  · refine ⟨⟨id, kind, fingerprint, encoded, .admitted, none⟩, ?_, rfl, rfl, rfl⟩
    have hnone : db.admissions.find? (fun r => decide (r.id = id)) = none := hnew
    have hrows : ∀ row : AdmissionRecord, (db.insertAdmission row).advanced.lookup id =
        (db.admissions ++ [row]).find? fun r => decide (r.id = id) := fun _ => rfl
    rw [hrows, List.find?_append, hnone]
    simp

theorem Steps.row_keeps {s s' : State} (h : Steps P s s') (hs : s.world.db.Intact) {id : String}
    {row : AdmissionRecord} (hrow : s.world.db.lookup id = some row) :
    ∃ row', s'.world.db.lookup id = some row' ∧ row'.kind = row.kind ∧
      row'.fingerprint = row.fingerprint ∧ row'.payload = row.payload := by
  obtain ⟨hmem, hid⟩ := mem_of_lookup hrow
  obtain ⟨row', hmem', hk⟩ := (h.extends hs).admissions row hmem
  refine ⟨row', ?_, hk.kind, hk.fingerprint, hk.payload⟩
  rw [← hid, ← hk.id]
  exact (h.intact hs).lookup hmem'

/-- **Admission fingerprints.** Two fingerprints are equal exactly if the requests are the same
intent; the canonical form is its own canonical form and does not depend on the order of keys; and
after a request was stored, in every later state of the journal the same id with another request is
accepted, with the stored payload, exactly if it is the same intent, and is a conflict otherwise. -/
theorem fingerprint_identity (hV : Values V) (hsha : Function.Injective P.sha256) :
    (∀ kind kind' payload payload' fingerprint fingerprint', V payload → V payload' →
      admissionFingerprint P kind payload = .ok fingerprint →
      admissionFingerprint P kind' payload' = .ok fingerprint' →
      (fingerprint = fingerprint' ↔ SameIntent kind payload kind' payload')) ∧
    (∀ v e, canonical v = .ok e → canonical e = .ok e) ∧
    (∀ v w, V v → Reorder v w → canonical v = canonical w) ∧
    (∀ (db db' : Database) kind id payload fingerprint encoded reservation old,
      db.lookup id = none →
      db.reserve kind id fingerprint payload encoded = .ok ((reservation, old), db') →
      ∃ row, db'.lookup id = some row ∧ row.kind = kind ∧ row.fingerprint = fingerprint ∧
        row.payload = encoded) ∧
    ∀ (w : World) (s s' : State) id row payload kind' payload' fingerprint' encoded',
      Founded w.db → Steps P (.initial w) s → Steps P s s' →
      s.world.db.lookup id = some row → V payload →
      admissionFingerprint P row.kind payload = .ok row.fingerprint →
      canonical payload = .ok row.payload → V payload' →
      admissionFingerprint P kind' payload' = .ok fingerprint' →
      ∃ row', s'.world.db.lookup id = some row' ∧
        ((∃ reservation old, s'.world.db.reserve kind' id fingerprint' payload' encoded' =
            .ok ((reservation, old), s'.world.db) ∧ reservation.payload = row.payload) ↔
          SameIntent row.kind payload kind' payload' ∧ row'.state ≠ .quarantined) ∧
        (¬SameIntent row.kind payload kind' payload' →
          s'.world.db.reserve kind' id fingerprint' payload' encoded' = .error .conflict) := by
  refine ⟨fun kind kind' payload payload' f f' hp hp' h h' => fingerprint_eq_iff hV hsha hp hp' h h',
    fun v e => canonical_canonical, fun v w hv h => canonical_of_reorder h (hV.distinct v hv),
    fun db db' kind id payload f e r old hnew h => reserve_stores hnew h, ?_⟩
  intro w s s' id row payload kind' payload' f' e' hfound hsteps hlater hrow hp hf hc hp' hf'
  obtain ⟨row', hrow', hkind, hprint, hstored⟩ :=
    hlater.row_keeps (hsteps.intact hfound.intact) hrow
  have hsame := fingerprint_eq_iff hV hsha hp hp' hf hf'
  obtain ⟨haccept, hrefuse⟩ :=
    reserve_of_lookup hrow' kind' f' payload' e'
  rw [hkind, hprint, hstored] at haccept
  rw [hkind, hprint] at hrefuse
  refine ⟨row', hrow', haccept.trans ?_, fun hnot => hrefuse fun he => hnot (hsame.mp he.2)⟩
  rw [hsame, ← and_assoc]
  exact and_congr_left fun _ => ⟨fun h => h.2, fun h => ⟨h.1, h⟩⟩

namespace Sample

/-- A small request, and the same with its keys in another order and a chosen nonce. -/
def request : Json := .obj [("data", .null), ("value", .bool true)]
def reordered : Json := .obj [("value", .bool true), ("nonce", .null), ("data", .null)]
def stripped : Json := .obj [("value", .bool true), ("data", .null)]

def values : List Json := [.null, request, reordered, stripped]

theorem values_ok : Values (· ∈ values) where
  distinct := by
    have h : ∀ b, Distinct (.bool b) := .bool
    simp only [values, List.forall_mem_cons, List.not_mem_nil, false_imp_iff, implies_true, and_true]
    refine ⟨.null, .obj (by decide) ?_, .obj (by decide) ?_, .obj (by decide) ?_⟩ <;>
      simp [h, Distinct.null]
  intent := by
    have h : ∀ v ∈ values, ∀ kind ∈ [Kind.eoa, .eoaNoop, .solana, .erc4337, .eip7702],
        intentOf kind v ∈ values := by
      decide +kernel
    exact fun kind v hv => h v hv kind (by cases kind <;> decide)
  render := by
    have h : ∀ v ∈ values, ∀ w ∈ values, v.sort.render = w.sort.render → v.sort = w.sort := by
      decide +kernel
    exact fun v w hv => h v hv w

end Sample

/-- **A quarantined admission refuses its own request.** After a recovery into a new namespace the
request that was stored is not accepted again. -/
theorem fingerprint_identity_quarantined :
    Steps Sample.primitives (.initial Sample.world) Sample.admitted ∧
    Steps Sample.primitives Sample.admitted Sample.moved ∧
    admissionFingerprint Sample.primitives .eoa .null = .ok "eoa\x00null" ∧
    (∃ row, Sample.admitted.world.db.lookup "t1" = some row ∧ row.kind = .eoa ∧
      row.fingerprint = "eoa\x00null" ∧ row.payload = .null) ∧
    Sample.moved.world.db.reserve .eoa "t1" "eoa\x00null" .null .null =
      .error (.recoveryRequired "transaction is quarantined") := by
  refine ⟨Sample.admitted_steps, ?_, by decide +kernel,
    ⟨⟨"t1", .eoa, "eoa\x00null", .null, .admitted, none⟩, by decide +kernel, rfl, rfl, rfl⟩,
    by decide +kernel⟩
  have hsent : Steps Sample.primitives Sample.admitted Sample.sent :=
    Steps.call _ _ rfl Sample.admitted_up
  exact (hsent.tail (.crash Sample.sent)).trans (Steps.call _ _ rfl rfl)

theorem fingerprint_identity_reordered :
    (admissionFingerprint Sample.primitives .eip7702 Sample.request =
      admissionFingerprint Sample.primitives .eip7702 Sample.reordered) ∧
    SameIntent .eip7702 Sample.request .eip7702 Sample.reordered := by
  have h := (@fingerprint_identity Sample.primitives _ Sample.values_ok fun _ _ h => h).1
    .eip7702 .eip7702 Sample.request Sample.reordered
    "eip7702\x00\x7b\"data\":null,\"value\":true\x7d"
    "eip7702\x00\x7b\"data\":null,\"value\":true\x7d" (by decide +kernel) (by decide +kernel)
    (by decide +kernel) (by decide +kernel)
  exact ⟨by decide +kernel, h.mp rfl⟩

end EngineCore.Recovery
