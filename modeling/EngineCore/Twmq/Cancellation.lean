import EngineCore.Twmq.Multilane

/-!
# A cancelled job is not borrowed again

A cancellation of an active job is only recorded. It takes effect at a later pop, which looks at the
requests after it has taken back the jobs with lapsed leases and before it gives out any job.

* **`cancelled_not_borrowed`**: a cancelled job is not borrowed again, for both queues.
-/

namespace EngineCore.Twmq

open Redis

variable {δ : Type}

/-! ## A requested job -/

/-- If the id is live, its cancellation is asked for. -/
def Queue.Awaits (i : String) (hand : List String) (q : Queue δ) : Prop :=
  i ∈ hand ∨ i ∈ q.index → i ∈ q.cancellations

namespace Queue.Awaits

variable {i : String} {hand hand' : List String} {q q' : Queue δ}

theorem apart (h : q.Awaits i hand) (ha : Queue.Apart i hand q hand' q') : q'.Awaits i hand' :=
  fun hi => ha.cancellations.mpr (h (ha.index.mp hi))

theorem of_live (h : q.Awaits i hand) (hlive : i ∈ hand' ∨ i ∈ q'.index → i ∈ hand ∨ i ∈ q.index)
    (hasked : q'.cancellations = q.cancellations) : q'.Awaits i hand' :=
  fun hi => hasked ▸ h (hlive hi)

theorem poll (h : q.Awaits i hand) {pop : String} {who : Option String}
    (hpoll : q.Poll pop who hand hand' q') : q'.Awaits i hand' := by
  by_cases hi : who = some i
  swap
  · exact h.apart (hpoll.apart hi)
  subst hi
  cases hpoll with
  | reclaim hactive hlapsed =>
    unfold Queue.reclaim
    rw [if_pos hlapsed]
    exact h.of_live (fun _ => .inr (by simp [mem_index, hactive])) rfl
  | resolve hidle hdone => exact fun hi => absurd (hi.resolve_left List.not_mem_nil) hidle
  | stop now hasked hactive hopen =>
    intro hi
    have hi := mem_index.mp (hi.resolve_left List.not_mem_nil)
    simp [Queue.stop, Queue.withMeta, hactive] at hi
  | mature hdelayed =>
    refine h.of_live (fun _ => .inr (by simp [mem_index, hdelayed])) ?_
    unfold Queue.mature
    cases (q.jobs i).reentryPosition.getD Position.last <;> rfl
  | lend now hdata | drop hdata => exact h.of_live (fun _ => .inl (List.mem_cons_self ..)) rfl

theorem cancelJob (h : q.Awaits i []) (id : String) (now : ℕ) :
    (q.cancelJob id now).1.Awaits i [] := by
  rcases cancelJob_cases q id now with ⟨hidle, -⟩ | ⟨hactive, he⟩ | ⟨-, he⟩
  · by_cases hi : i = id
    · subst hi
      refine h.of_live (fun _ => .inr (by rw [mem_index]; tauto)) ?_
      unfold Queue.cancelJob
      simp only
      split_ifs
      all_goals first
        | rfl
        | tauto
    · exact h.apart (apart_cancelJob hi now)
  · rw [he]
    exact fun hi => mem_sadd.mpr (.inr (h hi))
  · rw [he]
    exact h

theorem finish {own : String → Prop} (hx : q.Exclusive own []) (h : q.Awaits i [])
    (options : QueueOptions) {id : String} {token : LeaseToken} (hown : own id)
    (hlease : (id, token) ∈ q.leases) (now : ℕ) (result : JobResult) :
    (q.finish options id token now result).Awaits i [] := by
  by_cases hi : i = id
  swap
  · exact h.apart (apart_finish hi options token now result)
  subst hi
  refine h.of_live (fun _ => .inr (by simp [mem_index, (hx.held i token hown hlease).1])) ?_
  exact (finish_frame ..).2.1

theorem trim (h : q.Awaits i []) (ht : q.Trimmed q') : q'.Awaits i [] := by
  intro hi
  have hi := hi.resolve_left List.not_mem_nil
  rcases ht.records i with hs | hs
  · rw [ht.index] at hi
    exact hs.cancellations.mpr (h (.inr hi))
  · exact absurd (.inl hi) hs.1

end Queue.Awaits

/-! ## A quiet job -/

/-- An active job with this id has a live lease. -/
def Queue.Steady (i : String) (q : Queue δ) : Prop := i ∈ keys q.active → ¬q.Lapsed i

/-- The job is not about to be borrowed. -/
structure Queue.Quiet (i : String) (hand : List String) (q : Queue δ) : Prop where
  hand : i ∉ hand
  pending : i ∉ q.pending
  delayed : i ∉ keys q.delayed
  steady : q.Steady i

namespace Queue

variable {i : String} {hand hand' : List String} {q q' : Queue δ} {pop : String}

theorem Steady.apart (h : q.Steady i) (ha : Queue.Apart i hand q hand' q') : q'.Steady i :=
  fun hi hl => h (ha.active.mp hi) (ha.lapsed.mp hl)

theorem Steady.poll (h : q.Steady i) {who : Option String} (hpoll : q.Poll pop who hand hand' q') :
    q'.Steady i := by
  by_cases hi : who = some i
  swap
  · exact h.apart (hpoll.apart hi)
  subst hi
  cases hpoll with
  | reclaim hactive hlapsed => exact absurd hlapsed (h hactive)
  | resolve hidle hdone => exact h
  | stop now hasked hactive hopen => exact fun hi => absurd hi hactive
  | mature hdelayed =>
    intro hi hl
    unfold Queue.mature at hi hl
    cases hp : (q.jobs i).reentryPosition.getD Position.last
    all_goals
      rw [hp] at hi hl
      refine h hi fun token ht => hl token ?_
      simp [Queue.enqueue, Queue.withMeta, ht]
  | lend now hdata =>
    intro _ hl
    refine hl (q.nextToken now pop i) ?_ (mem_sadd.mpr (.inl rfl))
    simp [Queue.lend, Queue.withMeta]
  | drop hdata => exact h

theorem Quiet.apart (h : q.Quiet i hand) (ha : Queue.Apart i hand q hand' q') : q'.Quiet i hand' := by
  have hp := mt ha.pending.mp (not_or.mpr ⟨h.hand, h.pending⟩)
  exact ⟨(not_or.mp hp).1, (not_or.mp hp).2, mt ha.delayed.mp h.delayed, h.steady.apart ha⟩

theorem Quiet.poll (h : q.Quiet i hand) {who : Option String} (hpoll : q.Poll pop who hand hand' q') :
    q'.Quiet i hand' := by
  have hsteady := h.steady.poll hpoll
  by_cases hi : who = some i
  swap
  · exact h.apart (hpoll.apart hi)
  subst hi
  cases hpoll with
  | reclaim hactive hlapsed => exact absurd hlapsed (h.steady hactive)
  | resolve hidle hdone => exact ⟨h.hand, h.pending, h.delayed, hsteady⟩
  | stop now hasked hactive hopen => exact ⟨h.hand, by simp [Queue.stop], by simp [Queue.stop], hsteady⟩
  | mature hdelayed => exact absurd hdelayed h.delayed
  | lend now hdata | drop hdata => exact absurd (List.mem_cons_self ..) h.hand

theorem quiet_of_idle (hi : i ∉ q.index) : q.Quiet i [] := by
  rw [mem_index, not_or, not_or] at hi
  exact ⟨List.not_mem_nil, hi.1, hi.2.1, fun ha => absurd ha hi.2.2⟩

theorem steady_reclaim {id : String} (h : i = id ∨ q.Steady i) : (q.reclaim id).Steady i := by
  unfold Queue.reclaim
  split_ifs with hl
  · intro hi hlapsed
    obtain ⟨hactive, hne⟩ := mem_keys_hdel.mp hi
    refine h.resolve_left hne hactive fun token ht => hlapsed token ?_
    simpa [Queue.withMeta, hne] using ht
  · rcases h with rfl | h
    · exact fun _ => hl
    · exact h

theorem steady_reclaimAll (ids : List String) (h : i ∈ ids ∨ q.Steady i) :
    (q.reclaimAll ids).Steady i := by
  induction ids generalizing q with
  | nil => exact h.resolve_left List.not_mem_nil
  | cons id ids ih =>
    refine ih ?_
    rcases h with hi | hs
    · rcases List.mem_cons.mp hi with rfl | hi
      · exact .inr (steady_reclaim (.inl rfl))
      · exact .inl hi
    · exact .inr (steady_reclaim (.inr hs))

theorem steady_reclaimed (q : Queue δ) (i : String) : q.reclaimed.Steady i := by
  refine steady_reclaimAll _ ?_
  by_cases hi : i ∈ keys q.active
  · exact .inl hi
  · exact .inr fun ha => absurd ha hi

theorem quiet_cancelRequested {own : String → Prop} (hx : q.Exclusive own []) (hs : q.Steady i)
    (now : ℕ) : (q.cancelRequested now i).1.Quiet i [] := by
  rcases cancelRequested_cases q now i with ⟨hactive, he⟩ | ⟨hidle, -, he⟩ | ⟨hactive, -, he⟩
  · rw [he]
    obtain ⟨hhand, hpending, hdelayed⟩ := hx.active_only hactive
    exact ⟨hhand, hpending, hdelayed, hs⟩
  · rw [he]
    exact quiet_of_idle hidle
  · rw [he]
    refine quiet_of_idle ?_
    simp [mem_index, Queue.stop, Queue.withMeta, hactive]

theorem quiet_cancelAll {own : String → Prop} (hall : ∀ id, own id) (now : ℕ) (ids : List String)
    (hx : q.Exclusive own []) (hn : ids.Nodup) (hids : ∀ j ∈ ids, j ∈ q.cancellations)
    (hs : q.Steady i) (h : i ∈ ids ∨ q.Quiet i []) : (q.cancelAll now ids).1.Quiet i [] := by
  have hpolls : ∀ (q : Queue δ) (j : String), j ∈ q.cancellations →
      Queue.Polls "" own ([], q) ([], (q.cancelRequested now j).1) :=
    fun _ j hj => Queue.Exclusive.cancelRequested_polls now (hall j) hj
  rw [cancelAll_fst]
  refine foldl_reaches (E := fun j (q : Queue δ) => j ∈ q.cancellations)
    (I := fun q => q.Exclusive own [] ∧ q.Steady i) (R := fun q => q.Quiet i []) ⟨hx, hs⟩ hn hids (fun q j h hj => ?_)
    (fun _ _ _ => mem_cancellations_cancelRequested) h
    (fun q h => quiet_cancelRequested h.1 h.2 now) fun q j h hj hq => ?_
  · exact ⟨(hpolls q j hj).exclusive h.1,
      ((hpolls q j hj).keeps (P := fun _ q => q.Steady i) (fun _ hs hp _ => hs.poll hp) h.1 h.2).2⟩
  · exact ((hpolls q j hj).keeps (fun _ hq hp _ => hq.poll hp) h.1 hq).2

theorem mem_of_lent (now : ℕ) (ids : List String) {job : BorrowedJob δ}
    (hjob : job ∈ (q.lendAll now pop ids).2) : job.id ∈ ids ∧ job.leaseToken.pop = pop := by
  induction ids generalizing q with
  | nil => exact absurd hjob List.not_mem_nil
  | cons id ids ih =>
    cases hd : q.data id with
    | none =>
      simp only [Queue.lendAll, hd] at hjob
      exact (ih hjob).imp_left (List.mem_cons_of_mem _)
    | some data =>
      simp only [Queue.lendAll, hd] at hjob
      rcases List.mem_cons.mp hjob with rfl | hjob
      · exact ⟨List.mem_cons_self .., rfl⟩
      · exact (ih hjob).imp_left (List.mem_cons_of_mem _)

/-- **A pop does not borrow a job that awaits its cancellation.** -/
theorem Awaits.not_borrowed {own : String → Prop} (hall : ∀ id, own id) (hx : q.Exclusive own [])
    (h : q.Awaits i []) (now batch : ℕ) {job : BorrowedJob δ}
    (hjob : job ∈ (q.popBatch now pop batch).2.1) : job.id ≠ i := by
  have hpolls := hx.reclaimed pop
  have hx₁ := hpolls.exclusive hx
  have ha : q.reclaimed.Awaits i [] := (hpolls.keeps (fun _ ha hp _ => ha.poll hp) hx h).2
  have hq₂ : (q.stopped now).1.Quiet i [] := by
    refine quiet_cancelAll hall now _ hx₁ hx₁.asked (fun _ hi => hi) (steady_reclaimed q i) ?_
    by_cases hi : i ∈ q.reclaimed.index
    · exact .inl (ha (.inr hi))
    · exact .inr (quiet_of_idle hi)
  have hx₂ := (hx₁.stopping pop hall now).exclusive hx₁
  have hq₃ : ((q.stopped now).1.matured now).Quiet i [] :=
    ((hx₂.matured pop now).keeps (fun _ hq hp _ => hq.poll hp) hx₂ hq₂).2
  rw [popBatch_eq] at hjob
  rintro rfl
  exact hq₃.pending (List.mem_of_mem_take (mem_of_lent now _ hjob).1)

end Queue

/-! ## The lanes -/

namespace MultilaneQueue

variable {i : String} {m : MultilaneQueue δ} {lane : String} {q : Queue δ} {pop : String}

/-- A property of one id that only its place and its records matter to, and that holds of an id that
is not live, holds in every lane when it holds in the lane of the id. -/
theorem put_keeps {p : Queue δ → Prop}
    (hp : ∀ {q q' : Queue δ}, Queue.Apart i [] q [] q' → p q → p q')
    (hidle : ∀ {q : Queue δ}, i ∉ q.index → p q) (hx : m.Exclusive)
    (h : m.laneId i ≠ some lane → ∀ lane', p (m.view lane'))
    (hq : m.laneId i = some lane → p q)
    (hapart : m.laneId i ≠ some lane → Queue.Apart i [] (m.view lane) [] q) (lane' : String) :
    p ((m.put lane q).view lane') := by
  by_cases hi : m.laneId i = some lane
  · by_cases he : lane' = lane
    · subst he
      rw [view_put_self]
      exact hq hi
    · refine hidle fun hin => he ?_
      have hin : i ∈ (m.view lane').index := by
        simpa [view, put, Queue.index, he] using hin
      exact Option.some.inj ((hx.laneId_of_mem hin).symm.trans hi)
  · by_cases he : lane' = lane
    · subst he
      rw [view_put_self]
      exact hp (hapart hi) (h hi _)
    · exact hp (apart_view_put he (hapart hi)) (h hi lane')

theorem Polls.keeps_local {p : List String → Queue δ → Prop} {m' : MultilaneQueue δ}
    (hp : ∀ {q q' : Queue δ}, Queue.Apart i [] q [] q' → p [] q → p [] q')
    (hidle : ∀ {q : Queue δ}, i ∉ q.index → p [] q)
    (hpoll : ∀ {who hand hand'} {q q' : Queue δ}, p hand q → q.Poll pop who hand hand' q' → p hand' q')
    (hm : Polls pop m m') (hx : m.Exclusive) (h : ∀ lane, p [] (m.view lane)) :
    ∀ lane, p [] (m'.view lane) := by
  refine (hm.keeps (P := fun m => ∀ lane, p [] (m.view lane)) (fun hx h hl => ?_) hx h).2
  cases hl with
  | @intro lane q hpolls lanes =>
    refine put_keeps hp hidle hx (fun _ => h) (fun _ => ?_) fun hi => hpolls.apart hi
    exact (hpolls.keeps (fun _ hq hpl _ => hpoll hq hpl) (hx.lanes lane) (h lane)).2

/-- In every lane the job is not about to be borrowed. -/
def Quiet (i : String) (m : MultilaneQueue δ) : Prop := ∀ lane, (m.view lane).Quiet i []

theorem Quiet.polls {m' : MultilaneQueue δ} (hm : Polls pop m m') (hx : m.Exclusive)
    (h : m.Quiet i) : m'.Quiet i :=
  hm.keeps_local (fun ha hq => hq.apart ha) Queue.quiet_of_idle (fun hq hp => hq.poll hp) hx h

theorem quiet_cancelRequested (hx : m.Exclusive) (now : ℕ) :
    (m.cancelRequested now i).1.Quiet i := by
  unfold MultilaneQueue.cancelRequested
  cases hlane : m.laneId i with
  | none =>
    refine fun lane => Queue.quiet_of_idle fun hi => ?_
    rw [hx.laneId_of_mem hi] at hlane
    cases hlane
  | some lane =>
    have hclean : Polls "" m (m.cleanupLaneLeases lane) := hx.cleanupLaneLeases lane
    have hx₁ := hclean.exclusive hx
    refine put_keeps (fun ha hq => hq.apart ha) Queue.quiet_of_idle hx₁ ?_ (fun _ => ?_) ?_
    · exact fun hne => absurd hlane hne
    · refine Queue.quiet_cancelRequested (hx₁.lanes lane) ?_ now
      rw [cleanupLaneLeases, view_put_self]
      exact Queue.steady_reclaimed _ i
    · exact fun hne => absurd hlane hne

theorem quiet_cancelAll (now : ℕ) (ids : List String) (hx : m.Exclusive) (hn : ids.Nodup)
    (hids : ∀ j ∈ ids, j ∈ m.cancellations) (h : i ∈ ids ∨ m.Quiet i) :
    (m.cancelAll now ids).1.Quiet i := by
  have hpolls : ∀ (m : MultilaneQueue δ) (j : String), m.Exclusive → j ∈ m.cancellations →
      Polls "" m (m.cancelRequested now j).1 := fun _ _ hx hj => hx.cancelRequested now hj
  rw [cancelAll_fst]
  exact foldl_reaches (I := MultilaneQueue.Exclusive) (R := fun m => m.Quiet i) hx hn hids
    (fun m j hx hj => (hpolls m j hx hj).exclusive hx) (fun _ _ _ => mem_cancellations) h
    (fun m hx => quiet_cancelRequested hx now) fun m j hx hj hq => hq.polls (hpolls m j hx hj) hx

theorem mem_of_popped {now : ℕ} {job : BorrowedJob δ}
    (hjob : (m.popJobFromLane now pop lane).2 = some job) : job.id ∈ (m.view lane).pending := by
  unfold MultilaneQueue.popJobFromLane at hjob
  cases hlast : (m.lane lane).pending.getLast? with
  | none =>
    rw [hlast] at hjob
    cases hjob
  | some id =>
    rw [hlast] at hjob
    have hid := (Queue.mem_of_lent now [id] (List.mem_of_head? hjob)).1
    rw [List.mem_singleton.mp hid]
    exact List.mem_of_getLast? hlast

theorem not_drained (now rounds n : ℕ) (todo : List (String × ℕ)) (hx : m.Exclusive)
    (h : m.Quiet i) : ∀ job ∈ (m.drain now pop rounds n todo).2, job.id ≠ i := by
  refine (drain_keeps (P := fun m => m.Exclusive ∧ m.Quiet i) (fun m lane hm => ?_)
    (fun m lane hm => ⟨?_, fun job hjob => ?_⟩) (fun m lane hm => ?_) rounds n todo ⟨hx, h⟩).2
  · have hvisit : Polls pop m (m.visit now lane) := hm.1.visit now lane
    exact ⟨hvisit.exclusive hm.1, hm.2.polls hvisit hm.1⟩
  · have hpop : Polls pop m _ := hm.1.popJobFromLane now lane
    exact ⟨hpop.exclusive hm.1, hm.2.polls hpop hm.1⟩
  · rintro rfl
    exact (hm.2 lane).pending (mem_of_popped hjob)
  · have hdrop : Polls pop m (m.dropLane lane) := polls_dropLane
    exact ⟨hdrop.exclusive hm.1, hm.2.polls hdrop hm.1⟩

/-- **A pop does not borrow a job that awaits its cancellation.** -/
theorem not_borrowed (hx : m.Exclusive) (h : ∀ lane, (m.view lane).Awaits i []) (now batch : ℕ)
    {job : BorrowedJob δ} (hjob : job ∈ (m.popBatch now pop batch).2.1) : job.id ≠ i := by
  have hpolls : Polls pop m (m.cancelAll now m.cancellations).1 :=
    hx.cancelAll now _ hx.nodup_cancellations fun _ hi => hi
  have hq : (m.cancelAll now m.cancellations).1.Quiet i := by
    refine quiet_cancelAll now _ hx hx.nodup_cancellations (fun _ hi => hi) ?_
    by_cases hi : m.Live i
    · obtain ⟨lane, hi⟩ := hi
      exact .inl (h lane (.inr hi))
    · exact .inr fun lane => Queue.quiet_of_idle fun hin => hi ⟨lane, hin⟩
  exact not_drained now _ batch _ (hpolls.exclusive hx) hq job hjob

end MultilaneQueue

/-! ## Runs -/

/-- The operation is a push of the id that is accepted. -/
def Op.Admits (id : String) (q : Queue δ) : Op δ → Prop
  | .push i .. => i = id ∧ id ∉ q.dedup
  | _ => False

def Queue.Unadmitted (options : QueueOptions) (id : String) : Queue δ → List (Op δ) → Prop
  | _, [] => True
  | q, op :: ops => ¬op.Admits id q ∧ (op.apply options q).Unadmitted options id ops

def LaneOp.Admits (id : String) (m : MultilaneQueue δ) : LaneOp δ → Prop
  | .push _ i .. => i = id ∧ id ∉ m.dedup
  | _ => False

def Multilane.Unadmitted (options : QueueOptions) (id : String) :
    Multilane δ → List (LaneOp δ) → Prop
  | _, [] => True
  | s, op :: ops => ¬op.Admits id s.queue ∧ (op.apply options s).Unadmitted options id ops

section Single

variable {options : QueueOptions} {q : Queue δ} {i : String}

theorem Op.awaits (hx : q.Exclusive (fun _ => True) []) (h : q.Awaits i []) {op : Op δ}
    (hop : ¬op.Admits i q) : (op.apply options q).Awaits i [] := by
  cases op with
  | push id data now delay position =>
    by_cases hnew : id ∈ q.dedup
    · have he : (q.push id data now delay position).1 = q := by simp [Queue.push, hnew]
      rw [Op.apply, he]
      exact h
    · refine h.apart (apart_push (fun he => hop ⟨he.symm, he ▸ hnew⟩) data now delay position)
  | pop now popId batch =>
    have hpolls : Queue.Polls popId (fun _ => True) _ _ := hx.popBatch_polls (fun _ => trivial) now batch
    exact (hpolls.keeps (fun _ ha hp _ => ha.poll hp) hx h).2
  | cancel id now => exact h.cancelJob id now
  | complete id token now result =>
    rw [Op.apply, Queue.complete]
    split_ifs with hlease
    · exact h.finish hx options trivial hlease now result
    · exact h
  | expire id token => exact h
  | pruneSuccess => exact h.trim (pruned_pruneSuccess options q).toTrimmed
  | pruneFailed => exact h.trim (pruned_pruneFailed options q).toTrimmed

theorem awaits_run (ops : List (Op δ)) (hx : q.Exclusive (fun _ => True) []) (h : q.Awaits i [])
    (hops : q.Unadmitted options i ops) :
    (ops.foldl (Op.apply options) q).Exclusive (fun _ => True) [] ∧
      (ops.foldl (Op.apply options) q).Awaits i [] := by
  induction ops generalizing q with
  | nil => exact ⟨hx, h⟩
  | cons op ops ih => exact ih (Op.exclusive hx op) (Op.awaits hx h hops.1) hops.2

theorem awaits_cancelJob {now : ℕ} (hresult : (q.cancelJob i now).2 = .cancellationPending) :
    (q.cancelJob i now).1.Awaits i [] := by
  rcases cancelJob_cases q i now with ⟨-, he⟩ | ⟨-, he⟩ | ⟨-, he⟩
  · rw [he] at hresult
    cases hresult
  · rw [he]
    exact fun _ => mem_sadd.mpr (.inl rfl)
  · rw [he] at hresult
    cases hresult

end Single

section Lanes

variable {options : QueueOptions} {s : Multilane δ} {m : MultilaneQueue δ} {i : String}

/-- In every lane the job awaits its cancellation. -/
def MultilaneQueue.Awaits (i : String) (m : MultilaneQueue δ) : Prop :=
  ∀ lane, (m.view lane).Awaits i []

namespace MultilaneQueue.Awaits

theorem put {lane : String} {q : Queue δ} (hx : m.Exclusive) (h : m.Awaits i)
    (hq : m.laneId i = some lane → q.Awaits i [])
    (hapart : m.laneId i ≠ some lane → Queue.Apart i [] (m.view lane) [] q) :
    (m.put lane q).Awaits i :=
  put_keeps (fun ha h => h.apart ha) (fun hi hin => absurd (hin.resolve_left List.not_mem_nil) hi) hx
    (fun _ => h) hq hapart

theorem polls {pop : String} {m' : MultilaneQueue δ} (hm : Polls pop m m') (hx : m.Exclusive)
    (h : m.Awaits i) : m'.Awaits i :=
  hm.keeps_local (fun ha h => h.apart ha)
    (fun hi hin => absurd (hin.resolve_left List.not_mem_nil) hi) (fun h hp => h.poll hp) hx h

theorem pushToLane (hx : m.Exclusive) (h : m.Awaits i) {lane id : String} {data : δ} {now delay : ℕ}
    {position : Position} (hop : ¬(id = i ∧ i ∉ m.dedup)) :
    (m.pushToLane lane id data now delay position).1.Awaits i := by
  unfold MultilaneQueue.pushToLane
  split_ifs with hnew
  · exact h
  have hne : i ≠ id := by
    rintro rfl
    exact hop ⟨rfl, hnew⟩
  have hm := hx.relabel (fun hl => hnew (hx.known hl)) (hx.no_lease hnew) (some lane)
  have hapart : Queue.Apart i [] (m.view lane) [] _ := apart_push hne data now delay position
  exact put hm h (fun _ => (h lane).apart hapart) fun _ => hapart

theorem cancelJob (hx : m.Exclusive) (h : m.Awaits i) (id : String) (now : ℕ) :
    (m.cancelJob id now).1.Awaits i := by
  unfold MultilaneQueue.cancelJob
  cases hlane : m.laneId id with
  | none => exact h
  | some lane =>
    refine put hx h (fun _ => (h lane).cancelJob id now) fun hne => apart_cancelJob ?_ now
    rintro rfl
    exact hne hlane

theorem pruneOne (hx : m.Exclusive) (h : m.Awaits i) (id : String) : (m.pruneOne id).Awaits i := by
  unfold MultilaneQueue.pruneOne
  split_ifs with hid
  swap
  · exact h
  intro lane hin
  have hlive : i ∈ (m.view lane).index := hin.resolve_left List.not_mem_nil
  have hne : i ≠ id := by
    rintro rfl
    exact hid.2.2 lane (hx.laneId_of_mem hlive) hlive
  exact mem_srem.mpr ⟨h lane (.inr hlive), hne⟩

theorem pruneAll (ids : List String) (hx : m.Exclusive) (h : m.Awaits i) :
    (ids.foldl MultilaneQueue.pruneOne m).Awaits i := by
  induction ids generalizing m with
  | nil => exact h
  | cons id ids ih => exact ih (hx.pruneOne id).1 (pruneOne hx h id)

end MultilaneQueue.Awaits

theorem LaneOp.awaits (hx : s.Inv) (h : s.queue.Awaits i) {op : LaneOp δ}
    (hop : ¬op.Admits i s.queue) : (op.apply options s).queue.Awaits i := by
  cases op with
  | push lane id data now delay position => exact h.pushToLane hx.queue hop
  | pop now popId batch =>
    rw [LaneOp.apply]
    split_ifs
    · exact h
    · exact h.polls (hx.queue.popBatch now batch) hx.queue
  | cancel id now => exact h.cancelJob hx.queue id now
  | read id token =>
    rw [LaneOp.apply]
    split_ifs
    · exact h
    · exact h
  | complete call now ending =>
    rw [LaneOp.apply]
    split_ifs with hcall
    swap
    · exact h
    cases hlane : call.target ending with
    | none => exact h
    | some lane =>
      have htarget := hx.target hcall.1 hcall.2 hlane
      refine MultilaneQueue.Awaits.put hx.queue h (fun _ => ?_) fun hne => apart_finish ?_ ..
      · exact (h lane).finish (hx.queue.lanes lane) options htarget hcall.2 now ending.result
      · rintro rfl
        exact hne htarget
  | expire id token => exact h
  | pruneSuccess | pruneFailed => exact MultilaneQueue.Awaits.pruneAll _ (hx.queue.terminal _ _) h

theorem awaits_runLanes (ops : List (LaneOp δ)) (hx : s.Inv) (h : s.queue.Awaits i)
    (hops : s.Unadmitted options i ops) :
    (ops.foldl (LaneOp.apply options) s).Inv ∧
      (ops.foldl (LaneOp.apply options) s).queue.Awaits i := by
  induction ops generalizing s with
  | nil => exact ⟨hx, h⟩
  | cons op ops ih => exact ih (hx.apply options op) (LaneOp.awaits hx h hops.1) hops.2

theorem awaits_cancelLane {now : ℕ} (hx : m.Exclusive)
    (hresult : (m.cancelJob i now).2 = .cancellationPending) : (m.cancelJob i now).1.Awaits i := by
  unfold MultilaneQueue.cancelJob at hresult ⊢
  cases hlane : m.laneId i with
  | none =>
    rw [hlane] at hresult
    cases hresult
  | some lane =>
    rw [hlane] at hresult
    refine MultilaneQueue.put_keeps (fun ha h => Queue.Awaits.apart h ha)
      (fun hi hin => absurd (hin.resolve_left List.not_mem_nil) hi) hx
      (fun hne => absurd hlane hne) (fun _ => awaits_cancelJob hresult) fun hne => absurd hlane hne

end Lanes

/-- **A job whose cancellation is pending is not borrowed before the id is admitted again**, by
either queue; and an id is admitted only when it is in no live index. -/
theorem cancelled_not_borrowed (options : QueueOptions) (id : String) (now : ℕ) :
    (∀ before after : List (Op δ),
      ((Queue.run options before).cancelJob id now).2 = .cancellationPending →
      ((Queue.run options before).cancelJob id now).1.Unadmitted options id after →
      ∀ now' pop batch, id ∉ ((Queue.run options (before ++ .cancel id now :: after)).popBatch
        now' pop batch).2.1.map BorrowedJob.id) ∧
    (∀ before after : List (LaneOp δ),
      ((Multilane.run options before).queue.cancelJob id now).2 = .cancellationPending →
      ((LaneOp.cancel id now).apply options (Multilane.run options before)).Unadmitted options id
        after →
      ∀ now' pop batch, id ∉ ((Multilane.run options
        (before ++ .cancel id now :: after)).queue.popBatch now' pop batch).2.1.map
          BorrowedJob.id) ∧
    (∀ (ops : List (Op δ)) (op : Op δ), op.Admits id (Queue.run options ops) →
      id ∉ (Queue.run options ops).index) ∧
    ∀ (ops : List (LaneOp δ)) (op : LaneOp δ), op.Admits id (Multilane.run options ops).queue →
      ¬(Multilane.run options ops).queue.Live id := by
  refine ⟨fun before after hpending hops now' pop batch hin => ?_,
    fun before after hpending hops now' pop batch hin => ?_, fun ops op hop hin => ?_,
    fun ops op hop hin => ?_⟩
  · obtain ⟨job, hjob, he⟩ := List.mem_map.mp hin
    have hx : (Queue.run options before).Exclusive (fun _ => True) [] := run_exclusive before
    obtain ⟨hx', ha⟩ := awaits_run after (hx.cancel now) (awaits_cancelJob hpending) hops
    rw [Queue.run, List.foldl_append, List.foldl_cons] at hjob
    exact ha.not_borrowed (fun _ => trivial) hx' now' batch hjob he
  · obtain ⟨job, hjob, he⟩ := List.mem_map.mp hin
    have hx := run_inv options before
    obtain ⟨hx', ha⟩ := awaits_runLanes after (hx.apply options (.cancel id now))
      (awaits_cancelLane hx.queue hpending) hops
    rw [Multilane.run, List.foldl_append, List.foldl_cons] at hjob
    exact MultilaneQueue.not_borrowed hx'.queue ha now' batch hjob he
  · cases op with
    | push i data now delay position => exact hop.2 ((run_exclusive ops).known id hin)
    | _ => exact hop
  · cases op with
    | push lane i data now delay position => exact hop.2 ((run_inv options ops).queue.known hin)
    | _ => exact hop

/-- The job `a` is running in its lane when it is cancelled; its lease runs out. -/
theorem cancelled_not_borrowed_expired :
    ((Multilane.run ⟨.active, 1, 1⟩ [.push "l" "a" () 0 0 .last, .pop 1 "p" 1]).queue.cancelJob
      "a" 2).2 = .cancellationPending ∧
    "a" ∉ ((Multilane.run ⟨.active, 1, 1⟩ ([.push "l" "a" () 0 0 .last, .pop 1 "p" 1] ++
      .cancel "a" 2 :: [.expire "a" ⟨1, "a", 1, "p"⟩])).queue.popBatch 3 "r" 1).2.1.map
        BorrowedJob.id := by
  have hpending : ((Multilane.run ⟨.active, 1, 1⟩
      [.push "l" "a" () 0 0 .last, .pop 1 "p" 1]).queue.cancelJob "a" 2).2 =
      .cancellationPending := by decide +kernel
  exact ⟨hpending, (cancelled_not_borrowed ⟨.active, 1, 1⟩ "a" 2).2.1 _
    [.expire "a" ⟨1, "a", 1, "p"⟩] hpending ⟨id, trivial⟩ 3 "r" 1⟩

end EngineCore.Twmq
