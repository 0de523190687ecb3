import EngineCore.Recovery.Protocol

/-!
# Tokens along a run

* **`Steps.token_mono`**: a token that has been left is never the journal's token again.
-/

namespace EngineCore.Recovery

open Interact

variable {P : Primitives} {db db' : Database} {o : Bool}

/-! ## The pending record -/

theorem Database.Projected.congr (h : db.Projected) (hc : db'.control = db.control)
    (hp : db'.pending = db.pending) (hs : db'.solana = none ↔ db.solana = none) :
    db'.Projected := by
  refine ⟨?_, ?_, ?_, ?_, ?_, ?_⟩
  · rw [hc]; exact h.schema
  · rw [hc, hp]; exact h.first
  · rw [hc, hp]; exact h.later
  · rw [hp]; exact h.single
  · rw [hc, hp]; exact h.valid
  · rw [hc, hs]; exact h.solana

theorem Database.Projected.halts (h : db.Projected) (halted : Bool) (reason : Option HaltReason) :
    { db with control.halted := halted, control.reason := reason }.Projected :=
  ⟨h.schema, h.first, h.later, h.single,
    fun rows hrows p hp => (h.valid rows hrows p hp).congr rfl rfl rfl rfl rfl rfl, h.solana⟩

theorem Database.Projected.tail (h : db.Projected) {p : PendingUpdate} {rows : List PendingUpdate}
    (hrows : db.pending = some (p :: rows)) : { db with pending := some rows }.Projected := by
  have hnil : rows = [] := by
    have := h.single _ hrows
    simpa using this
  subst hnil
  refine ⟨h.schema, fun h₁ => ?_, fun _ => ⟨[], rfl⟩, ?_, ?_, h.solana⟩
  · simp [h.first h₁] at hrows
  all_goals rintro _ ⟨⟩; simp

theorem valid_advanced (c : Control) (h : 2 ≤ c.schema ∧ c.schema ≤ schemaVersion) :
    (PendingUpdate.between c { c with checkpoint := c.checkpoint + 1 }).Valid
      { c with checkpoint := c.checkpoint + 1 } :=
  ⟨h, rfl, rfl, rfl, .inl ⟨Nat.succ_pos _, rfl⟩⟩

theorem valid_migrated (c : Control) (h : c.schema = 1 ∨ c.schema = 2) :
    (PendingUpdate.between c { c with schema := schemaVersion }).Valid
      { c with schema := schemaVersion } := by
  refine ⟨by simp [schemaVersion], rfl, rfl, rfl, .inr ⟨c.schema, ?_, rfl⟩⟩
  rcases h with h | h <;> simp [h, schemaVersion]

theorem Database.Projected.advanced (h : db.Projected) (hadv : db.CanAdvance)
    (hc : db'.control = db.control) (hs : db'.solana = none ↔ db.solana = none) :
    db'.advanced.Projected := by
  refine ⟨?_, fun h₁ => ?_, fun _ => ⟨_, rfl⟩, ?_, ?_, ?_⟩
  · change db'.control.schema ∈ _
    rw [hc]
    exact h.schema
  · have h₂ : db.control.schema = 1 := hc ▸ h₁
    have h₃ : 2 ≤ db.control.schema := hadv.schema.1
    omega
  · rintro _ ⟨⟩
    simp
  · rintro _ ⟨⟩ p hp
    obtain rfl := List.mem_singleton.mp hp
    exact valid_advanced _ (hc ▸ hadv.schema)
  · change db'.solana = none ↔ db'.control.schema ≠ _
    rw [hs, hc]
    exact h.solana

theorem migrated_projected
    (hold : db.control.schema = 1 ∧ db.pending = none ∨
      db.control.schema = 2 ∧ db.pending = some []) : db.migrated.Projected := by
  refine ⟨by simp [Database.migrated], by rintro ⟨⟩, fun _ => ⟨_, rfl⟩, ?_, ?_, ?_⟩
  · rintro _ ⟨⟩
    simp
  · rintro _ ⟨⟩ p hp
    obtain rfl := List.mem_singleton.mp hp
    exact valid_migrated _ (hold.imp And.left And.left)
  · simp [Database.migrated]

/-- **The pending record stays single and fits the control row.** -/
theorem Commit.projected (hc : Commit P o db db') (h : db.Projected) : db'.Projected := by
  cases hc with
  | unchanged => exact h
  | reserve row _ _ _ hadv | attempt _ _ _ _ _ _ _ _ hadv | close _ _ _ _ _ _ hadv =>
    exact h.advanced hadv rfl Iff.rfl
  | contradict record e =>
    have he : (db.insertEvidence e).Projected := h.congr rfl rfl Iff.rfl
    exact he.halts _ _
  | restore row _ _ _ _ _ _ hadv =>
    exact h.advanced hadv rfl (by simp [Database.insertSolana])
  | spend _ _ _ _ _ _ _ _ _ hmodes _ hadv =>
    exact h.advanced hadv rfl (by simp [Database.spent, hmodes])
  | checkpoint _ _ _ _ hadv | haltChain _ hadv => exact h.advanced hadv rfl Iff.rfl
  | halt reason => exact h.halts _ _
  | acknowledge p rows hrows _ _ => exact h.tail hrows
  | migrate hold _ _ => exact migrated_projected hold
  | reattach run rows hrows =>
    have hnil : ∀ l, rows = some l → l = [] := by
      rintro l rfl
      rcases hrows with ⟨h₁, h₂⟩ | ⟨l', hl', h₂⟩
      · simp [h.first h₁] at h₂
      · obtain rfl := Option.some.inj h₂
        have := h.single _ hl'
        exact List.length_eq_zero_iff.mp (by rw [List.length_tail]; omega)
    refine ⟨h.schema, fun h₁ => ?_, fun h₁ => ?_, ?_, ?_, h.solana⟩
    · rcases hrows with ⟨_, h₂⟩ | ⟨l, hl, _⟩
      · exact h₂.trans (h.first h₁)
      · simp [h.first h₁] at hl
    · rcases hrows with ⟨h₂, _⟩ | ⟨l, _, h₂⟩
      · exact absurd h₂ h₁
      · exact ⟨_, h₂⟩
    · intro l hl
      simp [hnil l hl]
    · intro l hl p hp
      simp [hnil l hl] at hp
  | recover legacy ns run hsolana =>
    refine ⟨?_, by rintro ⟨⟩, fun _ => ⟨_, rfl⟩, ?_, ?_, ?_⟩
    · simp [Database.recovered, Control.recovered]
    · rintro _ ⟨⟩
      simp
    · rintro _ ⟨⟩ p ⟨⟩
    · cases legacy with
      | true => simp [Database.recovered, Control.recovered]
      | false => simpa [Database.recovered, Control.recovered] using hsolana rfl
  | finish => exact h.halts _ _

theorem Steps.projected {s s' : State} (h : Steps P s s') (hs : s.world.db.Projected) :
    s'.world.db.Projected :=
  (h.database (fun _ _ _ hc => hc.projected) hs).1

/-! ## The order of tokens -/

/-- A later control row of the same deployment: a later epoch, or within one epoch no earlier
checkpoint and no older schema. -/
structure Control.Later (c d : Control) : Prop where
  deployment : d.deployment = c.deployment
  order : c.epoch < d.epoch ∨
    c.epoch = d.epoch ∧ c.checkpoint ≤ d.checkpoint ∧ c.schema ≤ d.schema

theorem Control.Later.refl (c : Control) : c.Later c := ⟨rfl, .inr ⟨rfl, le_rfl, le_rfl⟩⟩

theorem Control.Later.trans {c d e : Control} (h : c.Later d) (h' : d.Later e) : c.Later e := by
  refine ⟨h'.deployment.trans h.deployment, ?_⟩
  rcases h.order with h₁ | h₁ <;> rcases h'.order with h₂ | h₂ <;> omega

theorem Control.Later.token_eq {c d e : Control} (h : c.Later d) (h' : d.Later e)
    (htoken : e.token = c.token) : d.token = c.token := by
  have hdep : e.deployment = c.deployment := h'.deployment.trans h.deployment
  obtain ⟨hs, he, hk⟩ := Control.token_inj hdep htoken
  have heq : d.schema = c.schema ∧ d.epoch = c.epoch ∧ d.checkpoint = c.checkpoint := by
    rcases h.order with h₁ | h₁ <;> rcases h'.order with h₂ | h₂ <;> omega
  simp only [Control.token, heq.1, heq.2.1, heq.2.2, h.deployment]

theorem Control.Later.advanced (db : Database) : db.control.Later db.advanced.control :=
  ⟨rfl, .inr ⟨rfl, Nat.le_succ _, le_rfl⟩⟩

/-- **Every committed change moves forward.** -/
theorem Commit.later (hc : Commit P o db db') : db.control.Later db'.control := by
  cases hc with
  | reserve | attempt | close | restore | spend | checkpoint | haltChain => exact .advanced db
  | migrate hold =>
    refine ⟨rfl, .inr ⟨rfl, le_rfl, ?_⟩⟩
    change db.control.schema ≤ schemaVersion
    rcases hold with h | h <;> simp [h.1, schemaVersion]
  | recover => exact ⟨rfl, .inl (Nat.lt_succ_self _)⟩
  | _ => exact ⟨rfl, .inr ⟨rfl, le_rfl, le_rfl⟩⟩

theorem Steps.later {s s' : State} (h : Steps P s s') :
    s.world.db.control.Later s'.world.db.control :=
  (h.database (I := fun db => s.world.db.control.Later db.control)
    (fun _ _ _ hc hdb => hdb.trans hc.later) (.refl _)).1

/-- **A token that has been left never comes back.** -/
theorem Steps.token_mono {s s' s'' : State} (h : Steps P s s') (h' : Steps P s' s'')
    (htoken : s''.world.db.control.token = s.world.db.control.token) :
    s'.world.db.control.token = s.world.db.control.token :=
  h.later.token_eq h'.later htoken

end EngineCore.Recovery
