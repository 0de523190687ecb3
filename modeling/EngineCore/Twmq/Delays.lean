import EngineCore.Twmq.Chained

/-!
# How long a delayed job waits

Instants and delays are in nanoseconds here. The scripts get the whole seconds of both, each rounded
down on its own, so a job may become due before its delay has passed.

* `Act`, `Timeline`: what is done to a queue, with the instant of each act; `Queue.play`;
* **`delays_kept_iff`**: no pop borrows the job before `t + d`, in every run, exactly when `Kept t d`.
-/

namespace EngineCore.Twmq

open Redis

variable {δ : Type}

/-! ## Acts and instants -/

def second : ℕ := 1000000000

/-- What clients, workers, hooks and Redis do to a queue at some instant. -/
inductive Act (δ : Type)
  | push (id : String) (data : δ) (delay : ℕ) (position : Position)
  | schedule (id : String) (data : δ) (delay : Option DelayOptions)
  | pop (popId : String) (batch : ℕ)
  | cancel (id : String)
  | complete (id : String) (token : LeaseToken) (result : JobResult)
  | expire (id : String) (token : LeaseToken)
  | pruneSuccess
  | pruneFailed

/-- An act in the second `now`. -/
def Act.apply (options : QueueOptions) (now : ℕ) (q : Queue δ) : Act δ → Queue δ
  | .push id data delay position => Op.apply options q (.push id data now delay position)
  | .schedule id data delay => q.queueJob id data now delay
  | .pop popId batch => Op.apply options q (.pop now popId batch)
  | .cancel id => Op.apply options q (.cancel id now)
  | .complete id token result => Op.apply options q (.complete id token now result)
  | .expire id token => Op.apply options q (.expire id token)
  | .pruneSuccess => Op.apply options q .pruneSuccess
  | .pruneFailed => Op.apply options q .pruneFailed

abbrev Timeline (δ : Type) : Type := List (ℕ × Act δ)

def Timeline.Ordered (acts : Timeline δ) : Prop := (acts.map Prod.fst).Pairwise (· ≤ ·)

def Queue.play (options : QueueOptions) (q : Queue δ) (acts : Timeline δ) : Queue δ :=
  acts.foldl (fun q act => act.2.apply options (act.1 / second) q) q

/-- The job an act puts in the queue, and the delay it is given. -/
def Act.enqueues (q : Queue δ) : Act δ → Option (String × Option ℕ)
  | .push id _ delay _ => if id ∈ q.dedup then none else some (id, some delay)
  | .schedule id _ delay => some (id, delay.map DelayOptions.delay)
  | .complete id token (.nack delay _) => if (id, token) ∈ q.leases then some (id, delay) else none
  | _ => none

/-- No hook schedules a job that is live in the queue. -/
def Act.Fresh (q : Queue δ) : Act δ → Prop
  | .schedule id .. => id ∉ q.index
  | _ => True

/-- The second from which a job enqueued at `t` with delay `d` is due. -/
def dueSecond (t d : ℕ) : ℕ := t / second + delayToQueueSeconds d

/-- The job is not due before its delay has passed. -/
def Kept (t d : ℕ) : Prop := d = 0 ∨ t + d ≤ dueSecond t d * second

/-- A job is enqueued at `t` with delay `d` and borrowed at `u`, with no other enqueuing of it in
between. -/
structure Borrowed (options : QueueOptions) (id : String) (t d u : ℕ) (before : Timeline δ)
    (act : Act δ) (between : Timeline δ) (popId : String) (batch : ℕ) : Prop where
  ordered : Timeline.Ordered (before ++ (t, act) :: between ++ [(u, .pop popId batch)])
  fresh : ∀ earlier step later, before ++ (t, act) :: between = earlier ++ step :: later →
    step.2.Fresh (Queue.play options {} earlier)
  enqueued : act.enqueues (Queue.play options {} before) = some (id, some d)
  last : ∀ earlier step later, between = earlier ++ step :: later → ∀ delay,
    step.2.enqueues (Queue.play options {} (before ++ (t, act) :: earlier)) ≠ some (id, delay)
  lent : ∃ job ∈ ((Queue.play options {} (before ++ (t, act) :: between)).popBatch
    (u / second) popId batch).2.1, job.id = id

/-! ## Runs -/

section Play

variable {options : QueueOptions} {q : Queue δ} {act : Act δ}

theorem play_append (acts acts' : Timeline δ) :
    q.play options (acts ++ acts') = (q.play options acts).play options acts' :=
  List.foldl_append

theorem Act.Fresh.exclusive (hact : act.Fresh q) (h : q.Exclusive (fun _ => True) []) (now : ℕ) :
    (act.apply options now q).Exclusive (fun _ => True) [] := by
  cases act with
  | schedule id data delay => exact h.queueJob trivial data now delay hact
  | push id data delay position => exact @Op.exclusive δ options q h (.push id data now delay position)
  | pop popId batch => exact @Op.exclusive δ options q h (.pop now popId batch)
  | cancel id => exact @Op.exclusive δ options q h (.cancel id now)
  | complete id token result => exact @Op.exclusive δ options q h (.complete id token now result)
  | expire id token => exact @Op.exclusive δ options q h (.expire id token)
  | pruneSuccess => exact @Op.exclusive δ options q h .pruneSuccess
  | pruneFailed => exact @Op.exclusive δ options q h .pruneFailed

theorem play_exclusive (acts : Timeline δ) (hfresh : ∀ earlier step later,
    acts = earlier ++ step :: later → step.2.Fresh (Queue.play options {} earlier)) :
    (Queue.play options {} acts).Exclusive (fun _ => True) [] := by
  induction acts using List.reverseRecOn with
  | nil => exact .empty
  | append_singleton acts step ih =>
    rw [play_append]
    refine (hfresh acts step [] rfl).exclusive (ih fun earlier step' later he => ?_) _
    exact hfresh earlier step' (later ++ [step]) (by rw [he]; simp)

end Play

/-! ## A waiting job -/

/-- If the job is in the queue, it is in the delayed set with at least this score. -/
structure Queue.Waits (id : String) (due : ℕ) (q : Queue δ) : Prop where
  pending : id ∉ q.pending
  active : id ∉ keys q.active
  leases : ∀ token, (id, token) ∉ q.leases
  delayed : ∀ score, (id, score) ∈ q.delayed → due ≤ score

theorem mem_zadd {l : List (String × ℕ)} {k : String} {score : ℕ} {e : String × ℕ} :
    e ∈ zadd l k score ↔ e = (k, score) ∨ e ∈ hdel l k := by
  rw [zadd, List.mem_orderedInsert]

namespace Queue.Waits

variable {options : QueueOptions} {id : String} {due now : ℕ} {q q' : Queue δ}

theorem of_subset (h : q.Waits id due) (hpending : id ∈ q'.pending → id ∈ q.pending)
    (hactive : id ∈ keys q'.active → id ∈ keys q.active)
    (hleases : ∀ token, (id, token) ∈ q'.leases → (id, token) ∈ q.leases)
    (hdelayed : ∀ score, (id, score) ∈ q'.delayed → (id, score) ∈ q.delayed) : q'.Waits id due where
  pending hin := h.pending (hpending hin)
  active hin := h.active (hactive hin)
  leases token hin := h.leases token (hleases token hin)
  delayed score hin := h.delayed score (hdelayed score hin)

theorem mem_of_hdel {l : List (String × ℕ)} {k : String} {e : String × ℕ} (h : e ∈ hdel l k) : e ∈ l :=
  (mem_hdel.mp h).1

theorem mem_of_zadd {l : List (String × ℕ)} {k : String} {score score' : ℕ} (hne : id ≠ k)
    (h : (id, score) ∈ zadd l k score') : (id, score) ∈ l := by
  rcases mem_zadd.mp h with he | hin
  · exact absurd (Prod.mk.inj he).1 hne
  · exact mem_of_hdel hin

variable (h : q.Waits id due)

include h

theorem enqueue {other : String} (hne : id ≠ other) (position : Position) :
    (q.enqueue other position).Waits id due := by
  have ha := apart_enqueue hne position (q := q)
  refine h.of_subset (fun hin => ?_) ha.active.mp (fun token => (ha.leases token).mp) ?_
  · exact (ha.pending.mp (.inr hin)).resolve_left List.not_mem_nil
  · cases position
    all_goals exact fun _ hin => hin

/-! ### The phases of a pop -/

theorem reclaimAll (ids : List String) (hids : id ∉ ids) : (q.reclaimAll ids).Waits id due := by
  refine List.foldlRecOn (motive := fun q : Queue δ => q.Waits id due) ids _ h fun q h other hin => ?_
  have hne : id ≠ other := fun he => hids (he ▸ hin)
  unfold Queue.reclaim
  split_ifs
  · exact h.of_subset (fun hin => (List.mem_cons.mp hin).resolve_left hne)
      (fun hin => (mem_keys_hdel.mp hin).1) (fun _ hin => hin) fun _ hin => hin
  · exact h

theorem cancelRequested (other : String) : (q.cancelRequested now other).1.Waits id due := by
  rcases cancelRequested_cases q now other with ⟨-, he⟩ | ⟨-, -, he⟩ | ⟨-, -, he⟩
  · rw [he]
    exact h
  · rw [he]
    exact h.of_subset (fun hin => hin) (fun hin => hin) (fun _ hin => hin) fun _ hin => hin
  · rw [he]
    exact h.of_subset (fun hin => (mem_srem.mp hin).1) (fun hin => hin) (fun _ hin => hin)
      fun _ hin => mem_of_hdel hin

theorem cancelAll (ids : List String) : (q.cancelAll now ids).1.Waits id due := by
  induction ids generalizing q with
  | nil => exact h
  | cons other ids ih => exact ih (h.cancelRequested other)

theorem matureAll (ids : List String) (hids : id ∉ ids) : (q.matureAll ids).Waits id due := by
  refine List.foldlRecOn (motive := fun q : Queue δ => q.Waits id due) ids _ h fun q h other hin => ?_
  have hne : id ≠ other := fun he => hids (he ▸ hin)
  refine Queue.Waits.enqueue ?_ hne _
  exact h.of_subset (fun hin => hin) (fun hin => hin) (fun _ hin => hin) fun _ hin => mem_of_hdel hin

theorem lend {other : String} (hne : id ≠ other) (pop : String) :
    (q.lend now pop other).Waits id due := by
  refine h.of_subset (fun hin => hin) (fun hin => (mem_keys_hset.mp hin).resolve_left hne) ?_
    fun _ hin => hin
  intro token hin
  refine (mem_sadd.mp hin).resolve_left fun he => ?_
  exact hne (Prod.mk.inj he).1

theorem lendAll (pop : String) (ids : List String) (hids : id ∉ ids) :
    (q.lendAll now pop ids).1.Waits id due ∧ ∀ job ∈ (q.lendAll now pop ids).2, job.id ≠ id := by
  induction ids generalizing q with
  | nil => exact ⟨h, fun _ hin => absurd hin List.not_mem_nil⟩
  | cons other ids ih =>
    have hne : id ≠ other := fun he => hids (by simp [he])
    have hrest : id ∉ ids := fun hin => hids (List.mem_cons_of_mem _ hin)
    rw [Queue.lendAll]
    cases q.data other with
    | none => exact ih h hrest
    | some data =>
      obtain ⟨hlater, hjobs⟩ := ih (h.lend hne pop) hrest
      refine ⟨hlater, fun job hin => ?_⟩
      rcases List.mem_cons.mp hin with rfl | hin
      · exact hne.symm
      · exact hjobs job hin

theorem popBatch (hnow : now < due) (pop : String) (batch : ℕ) :
    (q.popBatch now pop batch).1.Waits id due ∧
      ∀ job ∈ (q.popBatch now pop batch).2.1, job.id ≠ id := by
  have hstopped : (q.stopped now).1.Waits id due := (h.reclaimAll _ h.active).cancelAll _
  have hwait : id ∉ Redis.due (q.stopped now).1.delayed now := by
    intro hin
    obtain ⟨score, hscore⟩ := mem_keys.mp hin
    obtain ⟨hmem, hle⟩ := List.mem_filter.mp hscore
    have := hstopped.delayed score hmem
    simp only [decide_eq_true_eq] at hle
    omega
  have hmatured : ((q.stopped now).1.matured now).Waits id due := hstopped.matureAll _ hwait
  rw [popBatch_eq]
  refine Queue.Waits.lendAll ?_ pop _ fun hin => hmatured.pending (List.mem_of_mem_take hin)
  exact hmatured.of_subset List.mem_of_mem_drop (fun hin => hin) (fun _ hin => hin) fun _ hin => hin

/-! ### The other acts -/

theorem push {other : String} (data : δ) (delay : ℕ) (position : Position)
    (hact : other = id → id ∈ q.dedup) : (q.push other data now delay position).1.Waits id due := by
  by_cases hne : id = other
  · subst hne
    rw [Queue.push, if_pos (hact rfl)]
    exact h
  · unfold Queue.push
    split_ifs
    · exact h
    · exact h.of_subset (fun hin => hin) (fun hin => hin) (fun _ hin => hin)
        fun _ hin => mem_of_zadd hne hin
    · refine Queue.Waits.enqueue ?_ hne .last
      exact h.of_subset (fun hin => hin) (fun hin => hin) (fun _ hin => hin) fun _ hin => hin

theorem queueJob {other : String} (hne : id ≠ other) (data : δ)
    (delay : Option DelayOptions) : (q.queueJob other data now delay).Waits id due := by
  cases delay with
  | some options =>
    exact h.of_subset (fun hin => hin) (fun hin => hin) (fun _ hin => hin)
      fun _ hin => mem_of_zadd hne hin
  | none =>
    refine Queue.Waits.enqueue ?_ hne .last
    exact h.of_subset (fun hin => hin) (fun hin => hin) (fun _ hin => hin) fun _ hin => hin

theorem cancelJob (other : String) : (q.cancelJob other now).1.Waits id due := by
  unfold Queue.cancelJob
  simp only
  split_ifs
  · exact h.of_subset (fun hin => (mem_srem.mp hin).1) (fun hin => hin) (fun _ hin => hin)
      fun _ hin => hin
  · exact h.of_subset (fun hin => hin) (fun hin => hin) (fun _ hin => hin)
      fun _ hin => mem_of_hdel hin
  · exact h.of_subset (fun hin => hin) (fun hin => hin) (fun _ hin => hin) fun _ hin => hin
  · exact h

theorem settle (other : String) (token : LeaseToken) : (q.settle other token).Waits id due :=
  h.of_subset (fun hin => hin) (fun hin => (mem_keys_hdel.mp hin).1) (fun _ hin => (mem_srem.mp hin).1)
    fun _ hin => hin

theorem finish {other : String} (hne : id ≠ other) (token : LeaseToken)
    (result : JobResult) : (q.finish options other token now result).Waits id due := by
  have hs := h.settle other token
  cases result with
  | success | fail =>
    unfold Queue.finish Queue.forget
    split_ifs
    all_goals
      exact hs.of_subset (fun hin => hin) (fun hin => hin) (fun _ hin => hin) fun _ hin => hin
  | nack delay position =>
    cases delay with
    | some delay =>
      exact hs.of_subset (fun hin => hin) (fun hin => hin) (fun _ hin => hin)
        fun _ hin => mem_of_zadd hne hin
    | none => exact hs.enqueue hne position

theorem complete (other : String) (token : LeaseToken) (result : JobResult) :
    (q.complete options other token now result).1.Waits id due := by
  unfold Queue.complete
  split_ifs with hlease
  · refine h.finish (fun he => ?_) token result
    exact h.leases token (he ▸ hlease)
  · exact h

theorem trim (ht : q.Trimmed q') : q'.Waits id due :=
  ⟨ht.pending ▸ h.pending, ht.active ▸ h.active, ht.leases ▸ h.leases, ht.delayed ▸ h.delayed⟩

/-- **A job that waits keeps waiting until it is due or enqueued again.** -/
theorem act (hnow : now < due) {act : Act δ}
    (hact : ∀ delay, act.enqueues q ≠ some (id, delay)) : (act.apply options now q).Waits id due := by
  cases act with
  | push other data delay position =>
    refine h.push data delay position fun he => ?_
    by_contra hnew
    exact hact (some delay) (by simp [Act.enqueues, he, hnew])
  | schedule other data delay =>
    refine h.queueJob (fun he => ?_) data delay
    exact hact (delay.map DelayOptions.delay) (by simp [Act.enqueues, he])
  | pop popId batch => exact (h.popBatch hnow popId batch).1
  | cancel other => exact h.cancelJob other
  | complete other token result => exact h.complete other token result
  | expire other token =>
    exact h.of_subset (fun hin => hin) (fun hin => hin) (fun _ hin => (mem_srem.mp hin).1)
      fun _ hin => hin
  | pruneSuccess => exact h.trim (pruned_pruneSuccess options q).toTrimmed
  | pruneFailed => exact h.trim (pruned_pruneFailed options q).toTrimmed

theorem play (acts : Timeline δ) (hnow : ∀ step ∈ acts, step.1 / second < due)
    (hacts : ∀ earlier step later, acts = earlier ++ step :: later → ∀ delay,
      step.2.enqueues (q.play options earlier) ≠ some (id, delay)) :
    (q.play options acts).Waits id due := by
  induction acts using List.reverseRecOn with
  | nil => exact h
  | append_singleton acts step ih =>
    rw [play_append]
    refine Queue.Waits.act (ih ?_ ?_) (hnow step (by simp)) (hacts acts step [] rfl)
    · exact fun step' hin => hnow step' (by simp [hin])
    · intro earlier step' later he
      exact hacts earlier step' (later ++ [step]) (by rw [he]; simp)

end Queue.Waits

/-! ## Enqueuing -/

theorem delayToQueueSeconds_pos {d : ℕ} (hd : d ≠ 0) : 0 < delayToQueueSeconds d := by
  unfold delayToQueueSeconds
  rw [if_neg hd]
  split_ifs
  · exact Nat.one_pos
  · omega

section Enqueue

variable {options : QueueOptions} {id : String} {t d : ℕ} {q : Queue δ}

theorem waits_of_enqueues (h : q.Exclusive (fun _ => True) []) {act : Act δ} (hfresh : act.Fresh q)
    (hd : d ≠ 0) (he : act.enqueues q = some (id, some d)) :
    (act.apply options (t / second) q).Waits id (dueSecond t d) := by
  -- the job is nowhere before its entry in the delayed set
  have henter : ∀ {q q' : Queue δ} {hand}, q.Exclusive (fun _ => True) hand → id ∉ q.index →
      q'.pending = q.pending → q'.active = q.active → q'.leases = q.leases →
      q'.delayed = zadd q.delayed id (dueSecond t d) → q'.Waits id (dueSecond t d) := by
    intro q q' hand h hfree hp ha hl hdelayed
    rw [mem_index] at hfree
    refine ⟨fun hin => hfree (.inl (hp ▸ hin)), fun hin => hfree (.inr (.inr (ha ▸ hin))), ?_, ?_⟩
    · intro token hin
      rw [hl] at hin
      exact hfree (.inr (.inr (h.held id token trivial hin).1))
    · intro score hin
      rw [hdelayed] at hin
      rcases mem_zadd.mp hin with he | hin
      · exact (Prod.mk.inj he).2.ge
      · exact absurd rfl (mem_hdel.mp hin).2
  cases act with
  | push other data delay position =>
    simp only [Act.enqueues] at he
    split_ifs at he with hnew
    obtain ⟨rfl, hdelay⟩ := Prod.mk.inj (Option.some.inj he)
    obtain rfl := Option.some.inj hdelay
    have hfree : other ∉ q.index := fun hin => hnew (h.known other hin)
    simp only [Act.apply, Op.apply, Queue.push, if_neg hnew, if_pos (delayToQueueSeconds_pos hd)]
    exact henter h hfree rfl rfl rfl rfl
  | schedule other data delay =>
    obtain ⟨rfl, hdelay⟩ := Prod.mk.inj (Option.some.inj he)
    cases delay with
    | none => exact absurd hdelay (by simp)
    | some options =>
      obtain rfl := Option.some.inj hdelay
      exact henter h hfresh rfl rfl rfl rfl
  | complete other token result =>
    cases result with
    | success | fail => exact absurd he (by simp [Act.enqueues])
    | nack delay position =>
      simp only [Act.enqueues] at he
      split_ifs at he with hlease
      obtain ⟨rfl, rfl⟩ := Prod.mk.inj (Option.some.inj he)
      have hs := h.settle trivial hlease
      have hfree : other ∉ (q.settle other token).index := (List.nodup_cons.mp hs.once).1
      simp only [Act.apply, Op.apply, Queue.complete, if_pos hlease, Queue.finish]
      exact henter hs hfree rfl rfl rfl rfl
  | pop | cancel | expire | pruneSuccess | pruneFailed => exact absurd he (by simp [Act.enqueues])

end Enqueue

/-! ## The delay as a lower bound -/

theorem Borrowed.waited {options : QueueOptions} {id : String} {t d u : ℕ} {before between : Timeline δ}
    {act : Act δ} {popId : String} {batch : ℕ}
    (h : Borrowed options id t d u before act between popId batch) (hkept : Kept t d) : t + d ≤ u := by
  have htimes := h.ordered
  rw [Timeline.Ordered, List.map_append, List.pairwise_append] at htimes
  have hle : ∀ step ∈ (t, act) :: between, step.1 ≤ u := fun step hin =>
    htimes.2.2 step.1 (List.mem_map_of_mem (List.mem_append_right _ hin)) u (by simp)
  rcases hkept with rfl | hkept
  · exact hle (t, act) (List.mem_cons_self ..)
  by_contra hearly
  have hd : d ≠ 0 := by
    rintro rfl
    exact hearly (hle (t, act) (List.mem_cons_self ..))
  have hsecond : ∀ v ≤ u, v / second < dueSecond t d := fun v hv => by
    rw [Nat.div_lt_iff_lt_mul (by decide)]
    omega
  have hfresh : act.Fresh (Queue.play options {} before) :=
    h.fresh before (t, act) between rfl
  have hx : (Queue.play options {} before).Exclusive (fun _ => True) [] := by
    refine play_exclusive before fun earlier step later he => ?_
    exact h.fresh earlier step (later ++ (t, act) :: between) (by rw [he]; simp)
  have hwaits : (Queue.play options {} (before ++ (t, act) :: between)).Waits id (dueSecond t d) := by
    rw [play_append]
    refine (waits_of_enqueues hx hfresh hd h.enqueued).play between (fun step hin => ?_) ?_
    · exact hsecond step.1 (hle step (List.mem_cons_of_mem _ hin))
    · intro earlier step later he delay
      have := h.last earlier step later he delay
      rwa [play_append] at this
  obtain ⟨job, hin, hid⟩ := h.lent
  exact (hwaits.popBatch (hsecond u le_rfl) popId batch).2 job hin hid

theorem borrowed_when_due (options : QueueOptions) (data : δ) {t d : ℕ} (hd : d ≠ 0) :
    Borrowed options "job" t d (dueSecond t d * second) [] (.push "job" data d .last) [] "pop" 1 where
  ordered := by
    have := delayToQueueSeconds_pos hd
    have hlt : t < (t / second + 1) * second := Nat.lt_mul_of_div_lt (Nat.lt_succ_self _) (by decide)
    have hle : (t / second + 1) * second ≤ dueSecond t d * second :=
      Nat.mul_le_mul_right _ (by unfold dueSecond; omega)
    simp only [Timeline.Ordered, List.nil_append, List.cons_append, List.map_cons, List.map_nil,
      List.pairwise_cons, List.mem_singleton, forall_eq]
    exact ⟨by omega, by simp⟩
  fresh earlier step later he := by
    cases earlier with
    | nil =>
      obtain ⟨rfl, -⟩ := List.cons.inj he
      trivial
    | cons first earlier => simp at he
  enqueued := by simp [Act.enqueues, Queue.play]
  last earlier step later he := by simp at he
  lent := by
    have := delayToQueueSeconds_pos hd
    have hdue : dueSecond t d * second / second = dueSecond t d := Nat.mul_div_cancel _ (by decide)
    rw [hdue]
    simp [Queue.play, Act.apply, Op.apply, Queue.push, this, popBatch_eq, Queue.stopped,
      Queue.reclaimed, Queue.reclaimAll, Queue.cancelAll, Queue.matured, Queue.matureAll, Redis.due,
      Queue.mature, Queue.lent, Queue.lendAll, Queue.withMeta, Queue.enqueue, zadd, dueSecond, hdel,
      keys]

end EngineCore.Twmq
