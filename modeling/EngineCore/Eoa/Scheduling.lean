import EngineCore.Eoa.System
import EngineCore.Twmq.Coherent

/-!
# No stranded work

* `System.Sound`: the invariant, kept by every careful step (`System.Sound.step`);
* **`served_of_careful`**: after a careful interleaving the wallet is served.
-/

namespace EngineCore.Eoa

open Redis Twmq

/-! ## Careful runs -/

/-- A job of the wallet is not completed as failed while the wallet holds anything, nor as
successful after the counts have become stale; counts fit 32 bits. -/
def Event.Careful (S : Setting) (s : System) : Event → Prop
  | .count _ => s.wallet.pending.length < 2 ^ 32 ∧ s.wallet.submitted.length < 2 ^ 32 ∧
      s.wallet.borrowed.length < 2 ^ 32
  | .complete t _ => (S.job, t) ∈ s.queue.leases → ∀ r ∈ s.runs t,
      (r.stage = .released .success → r.stale = false) ∧
      (r.stage = .released .fail →
        s.wallet.pending = [] ∧ s.wallet.submitted = [] ∧ s.wallet.borrowed = [])
  | _ => True

/-- Every event of the interleaving is careful in the state it meets. -/
def System.Careful (S : Setting) (s : System) : List Event → Prop
  | [] => True
  | e :: es => e.Careful S s ∧ ∀ s' ∈ s.step S e, s'.Careful S es

instance (S : Setting) (s : System) (e : Event) : Decidable (e.Careful S s) := by
  cases e <;> dsimp only [Event.Careful] <;> infer_instance

instance System.decidableCareful (S : Setting) (s : System) :
    (es : List Event) → Decidable (s.Careful S es)
  | [] => inferInstanceAs (Decidable True)
  | _ :: es =>
    have : ∀ s' : System, Decidable (s'.Careful S es) := fun s' => decidableCareful S s' es
    inferInstanceAs (Decidable (_ ∧ _))

/-! ## The invariant -/

/-- No pending transaction belongs to a returned call. -/
def System.Clear (s : System) : Prop :=
  ∀ c ∈ s.calls, c.returned = true → s.wallet.born c.id = c.born → c.id ∉ keys s.wallet.pending

/-- What the count replies of an up-to-date run still mean. -/
def System.Idle (s : System) : Stage → Prop
  | .counting replies =>
    (∀ n ∈ replies.take 3, n < 2 ^ 32) ∧ (replies[0]? = some 0 → s.Clear) ∧
      (replies[1]? = some 0 → s.wallet.submitted = []) ∧
      (replies[2]? = some 0 → s.wallet.borrowed = [])
  | .ended .success => s.Clear ∧ s.wallet.submitted = [] ∧ s.wallet.borrowed = []
  | .released .success => s.Clear ∧ s.wallet.submitted = [] ∧ s.wallet.borrowed = []
  | _ => True

theorem System.Idle.mono {s s' : System} {stage : Stage} (h : s.Idle stage)
    (hc : s.Clear → s'.Clear) (hs : s.wallet.submitted = [] → s'.wallet.submitted = [])
    (hb : s.wallet.borrowed = [] → s'.wallet.borrowed = []) : s'.Idle stage := by
  unfold System.Idle at h ⊢
  split at h
  · obtain ⟨hlt, h0, h1, h2⟩ := h
    exact ⟨hlt, fun he => hc (h0 he), fun he => hs (h1 he), fun he => hb (h2 he)⟩
  · exact ⟨hc h.1, hs h.2.1, hb h.2.2⟩
  · exact ⟨hc h.1, hs h.2.1, hb h.2.2⟩
  · trivial

structure System.Sound (S : Setting) (s : System) : Prop where
  queue : s.queue.Coherent []
  pops : ∀ t r, s.runs t = some r → t.pop ∈ s.pops
  born : ∀ c ∈ s.calls, c.born ≤ s.wallet.born c.id
  served : s.Served S
  /-- The owner of the lock has seen only rows that are still there. -/
  seen : ∀ t, s.wallet.lock = some t → ∀ id nonce, s.stage t = some (.working (some (id, nonce))) →
    some id ∈ (keys s.wallet.submitted).map Row.owner
  idle : ∀ t r, s.runs t = some r → (S.job, t) ∈ s.queue.leases → r.stale = false → s.Idle r.stage

namespace System.Sound

variable {S : Setting} {s : System}

theorem initial : ({} : System).Sound S where
  queue := Queue.Uncancelled.empty.coherent
  pops := by simp
  born := by simp
  served := by simp [Served]
  seen := by simp [stage]
  idle := by simp

variable {t : LeaseToken}

theorem of_enter (h : s.Sound S) {stage : Stage}
    (hseen : ∀ id nonce, stage = .working (some (id, nonce)) →
      some id ∈ (keys s.wallet.submitted).map Row.owner)
    (hidle : ∀ r, s.runs t = some r → (S.job, t) ∈ s.queue.leases → r.stale = false →
      s.Idle stage) : (s.enter t stage).Sound S where
  __ := h
  pops t' r hr := by
    by_cases ht : t' = t
    · subst ht
      simp only [enter, Function.update_self, Option.map_eq_some_iff] at hr
      obtain ⟨r₀, hr₀, -⟩ := hr
      exact h.pops t' r₀ hr₀
    · simp only [enter, Function.update_of_ne ht] at hr
      exact h.pops t' r hr
  seen t' hlock id nonce hst := by
    by_cases ht : t' = t
    · subst ht
      simp only [System.stage, enter, Function.update_self, Option.map_map,
        Option.map_eq_some_iff] at hst
      obtain ⟨_, _, hst⟩ := hst
      exact hseen id nonce hst
    · simp only [System.stage, enter, Function.update_of_ne ht] at hst
      exact h.seen t' hlock id nonce hst
  idle t' r hr hmem hs := by
    by_cases ht : t' = t
    · subst ht
      simp only [enter, Function.update_self, Option.map_eq_some_iff] at hr
      obtain ⟨r₀, hr₀, rfl⟩ := hr
      exact hidle r₀ hr₀ hmem hs
    · simp only [enter, Function.update_of_ne ht] at hr
      exact h.idle t' r hr hmem hs

theorem of_wallet (h : s.Sound S) {w : Wallet}
    (hp : ∀ id ∈ keys w.pending, id ∈ keys s.wallet.pending)
    (hb : ∀ id ∈ keys w.borrowed, id ∈ keys s.wallet.borrowed)
    (hs : w.submitted = s.wallet.submitted) (hn : w.born = s.wallet.born)
    (hl : ∀ t, w.lock = some t → s.wallet.lock = some t ∨
      ∀ id nonce, s.stage t ≠ some (.working (some (id, nonce)))) :
    { s with wallet := w }.Sound S := by
  have hholds : ∀ id, w.Holds id → s.wallet.Holds id := by
    intro id hid
    rcases hid with hid | hid | hid
    · exact Or.inl (hp id hid)
    · exact Or.inr (Or.inl (hb id hid))
    · rw [hs] at hid
      exact Or.inr (Or.inr hid)
  have hclear : s.Clear → { s with wallet := w }.Clear := by
    intro hc c hmem hr hborn hpend
    rw [hn] at hborn
    exact hc c hmem hr hborn (hp c.id hpend)
  have hempty : s.wallet.borrowed = [] → w.borrowed = [] := by
    intro he
    rw [List.eq_nil_iff_forall_not_mem]
    intro e hmem
    have := hb e.1 (List.mem_map.2 ⟨e, hmem, rfl⟩)
    simp [he] at this
  refine ⟨h.queue, h.pops, ?_, ?_, ?_, ?_⟩
  · intro c hc
    rw [hn]
    exact h.born c hc
  · intro c hc hr hborn hh
    rw [hn] at hborn
    exact h.served c hc hr hborn (hholds c.id hh)
  · intro t hlock id nonce hst
    rw [hs]
    rcases hl t hlock with hlock | hnot
    · exact h.seen t hlock id nonce hst
    · exact absurd hst (hnot id nonce)
  · intro t r hr hmem hstale
    exact (h.idle t r hr hmem hstale).mono hclear (fun he => hs.trans he) hempty

theorem of_lock (h : s.Sound S) {l : Option LeaseToken}
    (hl : ∀ t, l = some t → s.wallet.lock = some t ∨
      ∀ id nonce, s.stage t ≠ some (.working (some (id, nonce)))) :
    { s with wallet := { s.wallet with lock := l } }.Sound S :=
  h.of_wallet (fun _ hi => hi) (fun _ hi => hi) rfl rfl hl

theorem outdated_some {except : Option LeaseToken} {r : Run}
    (h : s.outdated except t = some r) :
    ∃ r₀, s.runs t = some r₀ ∧ (except = some t ∨ r.stale = true) := by
  unfold outdated at h
  split_ifs at h with he
  · exact ⟨r, h, Or.inl he⟩
  · obtain ⟨r₀, hr₀, rfl⟩ := Option.map_eq_some_iff.1 h
    exact ⟨r₀, hr₀, Or.inr rfl⟩

theorem of_commit (h : s.Sound S) {w : Wallet} (hlock : s.wallet.lock = some t)
    (hholds : ∀ id, w.Holds id → s.wallet.Holds id) (hn : w.born = s.wallet.born)
    (hl : w.lock = s.wallet.lock) :
    ({ s with wallet := w, runs := s.outdated (some t) }.enter t (.working none)).Sound S := by
  refine ⟨h.queue, ?_, ?_, ?_, ?_, ?_⟩
  · intro t' r hr
    by_cases ht : t' = t
    · subst ht
      simp only [enter, Function.update_self, Option.map_eq_some_iff] at hr
      obtain ⟨r₀, hr₀, -⟩ := hr
      obtain ⟨r₁, hr₁, -⟩ := outdated_some hr₀
      exact h.pops t' r₁ hr₁
    · simp only [enter, Function.update_of_ne ht] at hr
      obtain ⟨r₁, hr₁, -⟩ := outdated_some hr
      exact h.pops t' r₁ hr₁
  · intro c hc
    change c.born ≤ w.born c.id
    rw [hn]
    exact h.born c hc
  · intro c hc hr hborn hh
    change w.born c.id = c.born at hborn
    rw [hn] at hborn
    exact h.served c hc hr hborn (hholds c.id hh)
  · intro t' ht' id nonce hst
    have he : t' = t := by
      change w.lock = some t' at ht'
      rw [hl, hlock] at ht'
      exact (Option.some.inj ht').symm
    subst he
    simp [System.stage, enter] at hst
  · intro t' r hr hmem hstale
    by_cases ht : t' = t
    · subst ht
      simp only [enter, Function.update_self, Option.map_eq_some_iff] at hr
      obtain ⟨r₀, -, rfl⟩ := hr
      trivial
    · simp only [enter, Function.update_of_ne ht] at hr
      obtain ⟨r₁, -, he | hs⟩ := outdated_some hr
      · exact absurd (Option.some.inj he).symm ht
      · simp [hs] at hstale

/-! ### Calls -/

theorem returned_old {calls : List Call} {id : String} {n : ℕ} {c : Call}
    (hc : c ∈ calls ++ [Call.mk id n false]) (hr : c.returned = true) : c ∈ calls := by
  rcases List.mem_append.1 hc with hc | hc
  · exact hc
  · rw [List.mem_singleton.1 hc] at hr
    cases hr

theorem of_add (h : s.Sound S) {w : Wallet} {id : String} (hb : w.borrowed = s.wallet.borrowed)
    (hs : w.submitted = s.wallet.submitted) (hl : w.lock = s.wallet.lock)
    (hp : ∀ i ∈ keys w.pending, i ≠ id → i ∈ keys s.wallet.pending)
    (hnew : w.born id = s.wallet.born id + 1) (hn : ∀ i ≠ id, w.born i = s.wallet.born i) :
    { s with wallet := w, calls := s.calls ++ [Call.mk id (w.born id) false] }.Sound S := by
  -- The new admission is not the one an old call stands for.
  have hne : ∀ c ∈ s.calls, w.born c.id = c.born →
      c.id ≠ id ∧ s.wallet.born c.id = c.born := by
    intro c hc hborn
    have hle := h.born c hc
    have hid : c.id ≠ id := by
      intro he
      rw [he] at hborn hle
      omega
    exact ⟨hid, (hn c.id hid).symm.trans hborn⟩
  refine ⟨h.queue, h.pops, ?_, ?_, ?_, ?_⟩
  · intro c hc
    change c.born ≤ w.born c.id
    rcases List.mem_append.1 hc with hc | hc
    · have hle := h.born c hc
      by_cases hid : c.id = id
      · rw [hid] at hle ⊢
        omega
      · rw [hn c.id hid]
        exact hle
    · rw [List.mem_singleton.1 hc]
  · intro c hc hr hborn hh
    have hmem := returned_old hc hr
    obtain ⟨hid, hborn⟩ := hne c hmem hborn
    refine h.served c hmem hr hborn ?_
    rcases hh with hh | hh | hh
    · exact Or.inl (hp c.id hh hid)
    · exact Or.inr (Or.inl (hb ▸ hh))
    · exact Or.inr (Or.inr (hs ▸ hh))
  · intro t hlock i nonce hst
    change some i ∈ (keys w.submitted).map Row.owner
    rw [hs]
    exact h.seen t (hl.symm.trans hlock) i nonce hst
  · intro t r hr hmem hstale
    refine (h.idle t r hr hmem hstale).mono ?_ (fun he => hs.trans he) (fun he => hb.trans he)
    intro hc c hcall hret hborn hpend
    have hcall := returned_old hcall hret
    obtain ⟨hid, hborn⟩ := hne c hcall hborn
    exact hc c hcall hret hborn (hp c.id hpend hid)

theorem of_repeat (h : s.Sound S) (id : String) :
    { s with calls := s.calls ++ [Call.mk id (s.wallet.born id) false] }.Sound S := by
  refine ⟨h.queue, h.pops, ?_, fun c hc hr => h.served c (returned_old hc hr) hr, h.seen, ?_⟩
  · intro c hc
    rcases List.mem_append.1 hc with hc | hc
    · exact h.born c hc
    · rw [List.mem_singleton.1 hc]
  · intro t r hr hmem hstale
    refine (h.idle t r hr hmem hstale).mono ?_ (fun he => he) (fun he => he)
    exact fun hc c hcall hret => hc c (returned_old hcall hret) hret

theorem stage_outdated (except : Option LeaseToken) (t : LeaseToken) :
    (s.outdated except t).map (·.stage) = s.stage t := by
  unfold outdated System.stage
  split_ifs
  · rfl
  · rw [Option.map_map]
    rfl

theorem step_queue (hq : s.queue.Uncancelled) {e : Event} {s' : System}
    (hstep : s.step S e = some s') : s'.queue.Uncancelled := by
  have hop := hq.apply S.maxSuccess S.maxFailed
  cases e <;> simp only [System.step] at hstep
  all_goals repeat' split at hstep
  all_goals cases hstep
  all_goals first
    | exact hq
    | exact hop (.push _ _ _ _ _) fun _ h => h
    | exact hop (.pop _ _ _) fun _ h => h
    | exact hop (.complete _ _ _ _) fun _ h => h
    | exact hop (.expire _ _) fun _ h => h
    | exact hop .pruneSuccess fun _ h => h
    | exact hop .pruneFailed fun _ h => h

section

variable (h : s.Sound S) (hq : s.queue.Uncancelled)

include h hq

theorem of_op (op : Op JobData) (hop : ∀ i, ¬op.Cancels i)
    (hpop : ∀ now pop batch, op ≠ .pop now pop batch)
    (hend : ∀ token now result, op ≠ .complete S.job token now result) :
    { s with queue := op.apply S.options s.queue }.Sound S where
  __ := h
  queue := (hq.apply _ _ op hop).coherent
  served c hc hr hb hh := hq.live _ _ op hop (h.served c hc hr hb hh)
    fun token now result he => absurd he (hend token now result)
  idle t r hr hmem hs := by
    rcases hq.leases _ _ op hmem with hl | ⟨now, pop, batch, he, -⟩
    · exact h.idle t r hr hl hs
    · exact absurd he (hpop now pop batch)

theorem of_push {i : ℕ} {id : String} {born : ℕ} (now : ℕ)
    (hi : s.calls[i]? = some ⟨id, born, false⟩) :
    { s with
      queue := (s.queue.push S.job ⟨S.address, S.chain⟩ now 0 .last).1
      calls := s.calls.set i ⟨id, born, true⟩
      runs := if (s.queue.push S.job ⟨S.address, S.chain⟩ now 0 .last).2 then s.runs
        else s.outdated none }.Sound S := by
  have hq' : (s.queue.push S.job ⟨S.address, S.chain⟩ now 0 .last).1.Coherent [] :=
    (hq.apply 0 0 (.push S.job ⟨S.address, S.chain⟩ now 0 .last) fun _ h => h).coherent
  have hborn : ∀ c ∈ s.calls.set i ⟨id, born, true⟩, c.born ≤ s.wallet.born c.id := by
    intro c hc
    rcases List.mem_or_eq_of_mem_set hc with hc | hc
    · exact h.born c hc
    · rw [hc]
      exact h.born ⟨id, born, false⟩ (List.mem_of_getElem? hi)
  have hserved : S.job ∈ (s.queue.push S.job ⟨S.address, S.chain⟩ now 0 .last).1.index :=
    hq.mem_index_pushed ..
  cases hp : (s.queue.push S.job ⟨S.address, S.chain⟩ now 0 .last).2 with
  | true =>
    -- A push that enqueues the job found it unknown, so no run of it holds a lease.
    have hnew : S.job ∉ s.queue.dedup := by
      rw [← push_absorbed s.queue S.job ⟨S.address, S.chain⟩ now 0 .last, hp]
      simp
    rw [if_pos rfl]
    refine ⟨hq', h.pops, hborn, fun _ _ _ _ _ => hserved, h.seen, ?_⟩
    intro t r _ hl _
    rw [push_leases] at hl
    exact absurd (hq.mem_dedup_of_lease hl) hnew
  | false =>
    rw [if_neg Bool.false_ne_true]
    refine ⟨hq', ?_, hborn, fun _ _ _ _ _ => hserved, ?_, ?_⟩
    · intro t r hr
      change s.outdated none t = some r at hr
      obtain ⟨r₀, hr₀, -⟩ := outdated_some hr
      exact h.pops t r₀ hr₀
    · intro t hlock j nonce hst
      refine h.seen t hlock j nonce ?_
      rw [← stage_outdated none t]
      exact hst
    · intro t r hr _ hstale
      change s.outdated none t = some r at hr
      obtain ⟨r₀, -, he | hs⟩ := outdated_some hr
      · cases he
      · simp [hs] at hstale

/-! ### Runs -/

theorem of_pop (now : ℕ) {pop : String} (batch : ℕ) (hfresh : pop ∉ s.pops) : { s with
      queue := (s.queue.popBatch now pop batch).1
      runs := s.start (s.queue.popBatch now pop batch).2.1 S.job
      pops := pop :: s.pops }.Sound S := by
  have hnot : ∀ i, ¬(Op.pop now pop batch : Op JobData).Cancels i := fun _ h => h
  -- A run after the pop is an old one under an old token, or has just been popped.
  have hrun : ∀ t r, s.start (s.queue.popBatch now pop batch).2.1 S.job t = some r →
      (t.pop = pop ∧ r.stage = .popped) ∨ s.runs t = some r := by
    intro t r hr
    unfold start at hr
    split_ifs at hr with hb
    · obtain ⟨b, hb, -, rfl⟩ := hb
      exact Or.inl ⟨(Queue.mem_of_lent now _ hb).2, by rw [← Option.some.inj hr]⟩
    · exact Or.inr hr
  refine ⟨(hq.apply 0 0 _ hnot).coherent, ?_, h.born, ?_, ?_, ?_⟩
  · intro t r hr
    rcases hrun t r hr with ⟨hpop, -⟩ | hr
    · rw [hpop]
      exact List.mem_cons_self ..
    · exact List.mem_cons_of_mem _ (h.pops t r hr)
  · intro c hc hr hborn hh
    exact hq.live 0 0 _ hnot (h.served c hc hr hborn hh) (by simp)
  · intro t hlock id nonce hst
    obtain ⟨r, hr, hstage⟩ := Option.map_eq_some_iff.1 hst
    rcases hrun t r hr with ⟨-, hpopped⟩ | hr
    · rw [hpopped] at hstage
      cases hstage
    · exact h.seen t hlock id nonce (Option.map_eq_some_iff.2 ⟨r, hr, hstage⟩)
  · intro t r hr hl hstale
    rcases hrun t r hr with ⟨-, hpopped⟩ | hr
    · rw [hpopped]
      trivial
    · rcases hq.leases 0 0 (.pop now pop batch) hl with hl | ⟨_, _, _, he, hnew⟩
      · exact h.idle t r hr hl hstale
      · cases he
        exact absurd (hnew ▸ h.pops t r hr) hfresh

theorem of_complete {r : Run} {result : JobResult} (now : ℕ)
    (hr : s.runs t = some r) (hst : r.stage = .released result)
    (hcare : (Event.complete t now).Careful S s) :
    { s with
      queue := (s.queue.complete S.options S.job t now result).1
      runs := Function.update s.runs t none }.Sound S := by
  have hnot : ∀ i, ¬(Op.complete S.job t now result : Op JobData).Cancels i := fun _ h => h
  refine ⟨(hq.apply _ _ _ hnot).coherent, ?_, h.born, ?_, ?_, ?_⟩
  · intro t' r' hr'
    by_cases ht : t' = t
    · subst ht
      simp at hr'
    · simp only [Function.update_of_ne ht] at hr'
      exact h.pops t' r' hr'
  · intro c hc hret hborn hh
    have hold := h.served c hc hret hborn hh
    by_cases hl : (S.job, t) ∈ s.queue.leases
    · obtain ⟨hsuccess, hfail⟩ := hcare hl r hr
      cases result with
      | nack delay position =>
        exact hq.live _ _ _ hnot hold (by simp)
      | success =>
        have hidle := h.idle t r hr hl (hsuccess hst)
        rw [hst] at hidle
        obtain ⟨hclear, hsub, hbor⟩ := hidle
        rcases hh with hh | hh | hh
        · exact absurd hh (hclear c hc hret hborn)
        · simp [hbor] at hh
        · simp [hsub] at hh
      | fail =>
        obtain ⟨hpend, hsub, hbor⟩ := hfail hst
        simp [Wallet.Holds, hpend, hsub, hbor] at hh
    · change S.job ∈ (s.queue.complete S.options S.job t now result).1.index
      rw [Queue.complete, if_neg hl]
      exact hold
  · intro t' hlock id nonce hst'
    by_cases ht : t' = t
    · subst ht
      simp [System.stage] at hst'
    · simp only [System.stage, Function.update_of_ne ht] at hst'
      exact h.seen t' hlock id nonce hst'
  · intro t' r' hr' hl hstale
    by_cases ht : t' = t
    · subst ht
      simp at hr'
    · simp only [Function.update_of_ne ht] at hr'
      exact h.idle t' r' hr' ((hq.leases _ _ (.complete ..) hl).resolve_right (by simp)) hstale

omit hq

theorem of_first_count {r : Run} (hr : s.runs t = some r) (hlt : s.wallet.pending.length < 2 ^ 32) :
    { s with
      runs := Function.update s.runs t (some ⟨.counting [s.wallet.reply 0], false⟩) }.Sound S := by
  refine ⟨h.queue, ?_, h.born, h.served, ?_, ?_⟩
  · intro t' r' hr'
    by_cases ht : t' = t
    · rw [ht]
      exact h.pops t r hr
    · simp only [Function.update_of_ne ht] at hr'
      exact h.pops t' r' hr'
  · intro t' hlock id nonce hst
    by_cases ht : t' = t
    · subst ht
      simp [System.stage] at hst
    · simp only [System.stage, Function.update_of_ne ht] at hst
      exact h.seen t' hlock id nonce hst
  · intro t' r' hr' hl hstale
    by_cases ht : t' = t
    · subst ht
      simp only [Function.update_self] at hr'
      obtain rfl := Option.some.inj hr'
      refine ⟨by simpa [Wallet.reply] using hlt, fun he => ?_, by simp, by simp⟩
      have hnil : s.wallet.pending = [] := by
        simpa [Wallet.reply] using he
      intro c _ _ _
      simp [hnil]
    · simp only [Function.update_of_ne ht] at hr'
      exact h.idle t' r' hr' hl hstale

theorem of_count {replies : List ℕ} {b : Bool}
    (hr : s.runs t = some ⟨.counting replies, b⟩) (hp : s.wallet.pending.length < 2 ^ 32)
    (hs : s.wallet.submitted.length < 2 ^ 32) (hb : s.wallet.borrowed.length < 2 ^ 32) :
    (s.enter t (.counting (replies ++ [s.wallet.reply replies.length]))).Sound S := by
  refine h.of_enter (by simp) ?_
  intro r hr' hl hstale
  rw [hr] at hr'
  obtain rfl := Option.some.inj hr'
  obtain ⟨hlt, h0, h1, h2⟩ := h.idle t _ hr hl hstale
  -- The new reply is the one at its own position.
  have hget : ∀ k, (replies ++ [s.wallet.reply replies.length])[k]? = some 0 →
      replies[k]? = some 0 ∨ (k = replies.length ∧ s.wallet.reply k = 0) := by
    intro k hk
    rw [List.getElem?_append] at hk
    split_ifs at hk with hlt
    · exact Or.inl hk
    · rw [List.getElem?_singleton] at hk
      split_ifs at hk with hz
      have hkl : k = replies.length := by omega
      exact Or.inr ⟨hkl, by rw [hkl]; exact Option.some.inj hk⟩
  refine ⟨fun n hn => ?_, fun he => ?_, fun he => ?_, fun he => ?_⟩
  · rw [List.take_append, List.mem_append] at hn
    rcases hn with hn | hn
    · exact hlt n hn
    · have hn' := List.mem_of_mem_take hn
      rw [List.mem_singleton] at hn'
      have hlen : replies.length < 3 := by
        by_contra hge
        have hz : 3 - replies.length = 0 := by omega
        rw [hz] at hn
        simp at hn
      rw [hn']
      obtain h0 | h1 | h2 : replies.length = 0 ∨ replies.length = 1 ∨ replies.length = 2 := by omega
      · rw [h0]
        exact hp
      · rw [h1]
        exact hs
      · rw [h2]
        exact hb
  · rcases hget 0 he with he | ⟨-, hz⟩
    · exact h0 he
    · have hnil : s.wallet.pending = [] := List.length_eq_zero_iff.1 hz
      intro c _ _ _
      simp [hnil]
  · rcases hget 1 he with he | ⟨-, hz⟩
    · exact h1 he
    · exact List.length_eq_zero_iff.1 hz
  · rcases hget 2 he with he | ⟨-, hz⟩
    · exact h2 he
    · exact List.length_eq_zero_iff.1 hz

theorem of_conclude {p q u v : ℕ} (report : Report)
    (delegation : Option Bool) (hst : s.stage t = some (.counting [p, q, u, v])) :
    (s.enter t (.ended ((report.result ⟨p, q, u, v⟩).intoJobResult delegation))).Sound S := by
  refine h.of_enter (by simp) ?_
  intro r hr hl hstale
  cases hres : (report.result ⟨p, q, u, v⟩).intoJobResult delegation with
  | success =>
    have hstage : r.stage = .counting [p, q, u, v] := by
      rw [System.stage, hr] at hst
      exact Option.some.inj hst
    have hidle := h.idle t r hr hl hstale
    rw [hstage] at hidle
    obtain ⟨hlt, h0, h1, h2⟩ := hidle
    obtain ⟨hp, hq, hu⟩ := counts_of_success hres (hlt p (by simp)) (hlt q (by simp))
      (hlt u (by simp))
    subst hp hq hu
    exact ⟨h0 rfl, h1 rfl, h2 rfl⟩
  | nack delay position => trivial
  | fail => trivial

end

/-! ### Whole runs -/

theorem addTransaction_ok {w w' : Wallet} {id request : String} {now : ℕ} {fresh : Bool}
    (h : w.addTransaction id request now = .ok (w', fresh)) :
    w' = w ∨ (w'.pending = zadd w.pending id now ∧ w'.borrowed = w.borrowed ∧
      w'.submitted = w.submitted ∧ w'.lock = w.lock ∧
      w'.born = Function.update w.born id (w.born id + 1)) := by
  unfold Wallet.addTransaction at h
  split at h
  · split_ifs at h
    obtain ⟨rfl, -⟩ := Prod.mk.inj (Except.ok.inj h)
    exact Or.inl rfl
  · split_ifs at h
    obtain ⟨rfl, -⟩ := Prod.mk.inj (Except.ok.inj h)
    exact Or.inr ⟨rfl, rfl, rfl, rfl, rfl⟩

theorem stage_some {stage : Stage} (h : s.stage t = some stage) :
    ∃ r, s.runs t = some r ∧ r.stage = stage := by
  obtain ⟨r, hr, he⟩ := Option.map_eq_some_iff.1 h
  exact ⟨r, hr, he⟩

theorem step (h : s.Sound S) (hq : s.queue.Uncancelled) {e : Event} {s' : System}
    (hcare : e.Careful S s) (hstep : s.step S e = some s') : s'.Sound S := by
  cases e with
  | add id request now =>
    simp only [System.step] at hstep
    split at hstep
    · rename_i w fresh hadd
      obtain rfl := Option.some.inj hstep
      rcases addTransaction_ok hadd with rfl | ⟨hp, hb, hs, hl, hn⟩
      · exact h.of_repeat id
      · refine h.of_add hb hs hl ?_ ?_ ?_
        · intro i hi hne
          rw [hp, mem_keys_zadd] at hi
          exact hi.resolve_left hne
        · rw [hn, Function.update_self]
        · intro i hi
          rw [hn, Function.update_of_ne hi]
    · obtain rfl := Option.some.inj hstep
      exact h
  | push i now =>
    simp only [System.step] at hstep
    split at hstep
    · rename_i id born hi
      obtain rfl := Option.some.inj hstep
      exact h.of_push hq now hi
    · cases hstep
  | pushOther id data now delay position =>
    simp only [System.step] at hstep
    split_ifs at hstep with hid
    obtain rfl := Option.some.inj hstep
    exact h.of_op hq (.push id data now delay position) (fun _ h => h) (by simp) (by simp)
  | pop now pop batch =>
    simp only [System.step] at hstep
    split_ifs at hstep with hfresh
    obtain rfl := Option.some.inj hstep
    exact h.of_pop hq now batch hfresh
  | completeOther id token now result =>
    simp only [System.step] at hstep
    split_ifs at hstep with hid
    obtain rfl := Option.some.inj hstep
    exact h.of_op hq (.complete id token now result) (fun _ h => h) (by simp) (by simp [hid])
  | expireLease id token =>
    obtain rfl := Option.some.inj hstep
    exact h.of_op hq (.expire id token) (fun _ h => h) (by simp) (by simp)
  | pruneSuccess =>
    obtain rfl := Option.some.inj hstep
    exact h.of_op hq .pruneSuccess (fun _ h => h) (by simp) (by simp)
  | pruneFailed =>
    obtain rfl := Option.some.inj hstep
    exact h.of_op hq .pruneFailed (fun _ h => h) (by simp) (by simp)
  | expireRecord id =>
    simp only [System.step] at hstep
    split_ifs at hstep
    obtain rfl := Option.some.inj hstep
    exact h.of_wallet (fun _ hi => hi) (fun _ hi => hi) rfl rfl fun t ht => Or.inl ht
  | acquire t =>
    simp only [System.step] at hstep
    split at hstep
    · rename_i hst
      obtain rfl := Option.some.inj hstep
      have hw : { s with wallet := { s.wallet with lock := some t } }.Sound S := by
        refine h.of_lock fun t' ht' => ?_
        obtain rfl := Option.some.inj ht'
        exact Or.inr (by simp [hst])
      exact hw.of_enter (by simp) fun _ _ _ _ => trivial
    · cases hstep
  | operate t op =>
    simp only [System.step] at hstep
    split at hstep
    · split_ifs at hstep with hlock
      split at hstep
      · rename_i w happly
        obtain rfl := Option.some.inj hstep
        have htame := Wallet.apply_tame happly
        exact h.of_commit hlock htame.holds htame.born htame.lock
      · cases hstep
    · cases hstep
  | inspect t row nonce =>
    simp only [System.step] at hstep
    split at hstep
    · split_ifs at hstep with hrow
      split at hstep
      · rename_i id hid
        obtain rfl := Option.some.inj hstep
        refine h.of_enter ?_ fun _ _ _ _ => trivial
        intro i n he
        simp only [Stage.working.injEq, Option.some.injEq, Prod.mk.injEq] at he
        obtain ⟨rfl, -⟩ := he
        exact List.mem_map.2 ⟨row, mem_keys.2 ⟨nonce, hrow⟩, hid⟩
      · cases hstep
    · cases hstep
  | bump t hash queuedAt submittedAt =>
    simp only [System.step] at hstep
    split at hstep
    · rename_i id nonce hst
      split_ifs at hstep with hlock
      obtain rfl := Option.some.inj hstep
      refine h.of_commit hlock ?_ rfl rfl
      intro i hi
      rcases Wallet.addGasBump_holds hi with hi | rfl
      · exact hi
      · exact Or.inr (Or.inr (h.seen t hlock _ nonce hst))
    · cases hstep
  | dropMissing t id =>
    simp only [System.step] at hstep
    split at hstep
    · obtain rfl := Option.some.inj hstep
      exact h.of_wallet (fun _ hi => (mem_keys_hdel.1 hi).1) (fun _ hi => (mem_keys_hdel.1 hi).1) rfl
        rfl fun t ht => Or.inl ht
    · cases hstep
  | count t =>
    obtain ⟨hp, hs, hb⟩ := hcare
    simp only [System.step] at hstep
    split at hstep
    · rename_i hr
      obtain rfl := Option.some.inj hstep
      exact h.of_first_count hr hp
    · rename_i hr
      split_ifs at hstep
      obtain rfl := Option.some.inj hstep
      exact h.of_count hr hp hs hb
    · cases hstep
  | conclude t report delegation =>
    simp only [System.step] at hstep
    split at hstep
    · rename_i hst
      obtain rfl := Option.some.inj hstep
      exact h.of_conclude report delegation hst
    · cases hstep
  | stop t e =>
    have hidle : s.Idle (.ended e.handle) := by
      have hne := handle_ne_success e
      cases hres : e.handle with
      | success => exact absurd hres hne
      | nack delay position => trivial
      | fail => trivial
    simp only [System.step] at hstep
    split at hstep
    · obtain rfl := Option.some.inj hstep
      exact h.of_enter (by simp) fun _ _ _ _ => hidle
    · obtain rfl := Option.some.inj hstep
      exact h.of_enter (by simp) fun _ _ _ _ => hidle
    · obtain rfl := Option.some.inj hstep
      exact h.of_enter (by simp) fun _ _ _ _ => hidle
    · cases hstep
  | release t =>
    simp only [System.step] at hstep
    split at hstep
    · rename_i result hst
      obtain rfl := Option.some.inj hstep
      have hw : { s with wallet := { s.wallet with
          lock := if s.wallet.lock = some t then none else s.wallet.lock } }.Sound S := by
        refine h.of_lock fun t' ht' => Or.inl ?_
        split_ifs at ht'
        exact ht'
      refine hw.of_enter (by simp) ?_
      intro r hr hl hstale
      obtain ⟨r₀, hr₀, he⟩ := stage_some hst
      obtain rfl := Option.some.inj (hr₀.symm.trans hr)
      have hidle := h.idle t r₀ hr hl hstale
      rw [he] at hidle
      cases result with
      | success => exact hidle
      | nack delay position => trivial
      | fail => trivial
    · cases hstep
  | complete t now =>
    simp only [System.step] at hstep
    split at hstep
    · rename_i result hst
      obtain rfl := Option.some.inj hstep
      obtain ⟨r, hr, he⟩ := stage_some hst
      exact h.of_complete hq now hr he hcare
    · cases hstep

theorem after (es : List Event) {s s' : System} (h : s.Sound S) (hq : s.queue.Uncancelled)
    (hcare : s.Careful S es) (hafter : s.after S es = some s') : s'.Sound S := by
  induction es generalizing s with
  | nil =>
    obtain rfl := Option.some.inj hafter
    exact h
  | cons e es ih =>
    obtain ⟨s₁, hstep, hrest⟩ := Option.bind_eq_some_iff.1 hafter
    exact ih (h.step hq hcare.1 hstep) (step_queue hq hstep) (hcare.2 s₁ hstep) hrest

end System.Sound

/-! ## Served and stranded work -/

/-- **No stranded work in a careful run.** Whatever the interleaving, while the transaction of a
returned call is held the job of the wallet is pending, delayed or active. -/
theorem served_of_careful (S : Setting) (es : List Event) (s : System)
    (hcare : ({} : System).Careful S es) (hafter : ({} : System).after S es = some s) :
    s.Served S :=
  (System.Sound.initial.after es .empty hcare hafter).served

namespace Sample

def wallet : Setting := ⟨"0xa", 1, 10, 10⟩

def token : LeaseToken := ⟨0, wallet.job, 1, "p"⟩

/-- A call, and a worker run that took its job and the lock. -/
def started : List Event := [.add "tx" "request" 0, .push 0 0, .pop 0 "p" 1, .acquire token]

/-- The provider is unreachable, so the run is retried. -/
def retried : List Event :=
  started ++ [.stop token (.rpcError (some .other)), .release token, .complete token 0]

/-- The provider answers with the HTTP status 401, so the run fails for good. -/
def refused : List Event :=
  started ++ [.stop token (.rpcError (some (.transportHttpError 401))), .release token,
    .complete token 0]

/-- A second call is made between the first count reply of the run and its completion. -/
def absorbed : List Event :=
  started ++ [.operate token (.failPending ["tx"]), .count token, .add "next" "request" 0,
    .push 1 0, .count token, .count token, .count token,
    .conclude token ⟨0, 0, 0, 0, 0⟩ none, .release token, .complete token 0]

end Sample

set_option maxRecDepth 4000 in
theorem served_of_careful_retried :
    ∃ s, ({} : System).after Sample.wallet Sample.retried = some s ∧
      s.wallet.Holds "tx" ∧ s.Served Sample.wallet := by
  have hcare : ({} : System).Careful Sample.wallet Sample.retried := by decide +kernel
  have hheld : (({} : System).after Sample.wallet Sample.retried).any
      fun s => decide (s.wallet.Holds "tx") := by decide +kernel
  obtain ⟨s, hs, hh⟩ := (Option.any_eq_true _ _).1 hheld
  exact ⟨s, hs, of_decide_eq_true hh, served_of_careful _ _ s hcare hs⟩

set_option maxRecDepth 4000 in
/-- A failed run, and a call absorbed by a run that has already counted, leave a transaction of a
returned call without a job. -/
theorem served_fails :
    (∃ s, ({} : System).after Sample.wallet Sample.refused = some s ∧
      ¬s.Served Sample.wallet) ∧
    ∃ s, ({} : System).after Sample.wallet Sample.absorbed = some s ∧ ¬s.Served Sample.wallet := by
  have hrefused : (({} : System).after Sample.wallet Sample.refused).any
      fun s => decide ¬s.Served Sample.wallet := by decide +kernel
  have habsorbed : (({} : System).after Sample.wallet Sample.absorbed).any
      fun s => decide ¬s.Served Sample.wallet := by decide +kernel
  obtain ⟨s, hs, hno⟩ := (Option.any_eq_true _ _).1 hrefused
  obtain ⟨s', hs', hno'⟩ := (Option.any_eq_true _ _).1 habsorbed
  exact ⟨⟨s, hs, of_decide_eq_true hno⟩, s', hs', of_decide_eq_true hno'⟩

end EngineCore.Eoa
