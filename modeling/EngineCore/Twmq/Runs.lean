import EngineCore.Twmq.Moves
import Mathlib.Data.List.Induction

/-!
# Runs of the queue

Any order of the operations of one queue, starting from the empty one.

* `Op`, `Op.apply`, `Queue.run`: the operations and their runs; `Op.does`: each is a row of moves or
  trims a list, so that `run_keeps` reduces an invariant to these;
* **`live_index_exclusive`**: an id is live in one place, with its records, and leaves the live
  indexes only into a terminal list;
* **`data_iff_referenced`**: nothing is leaked and nothing is deleted early.
-/

namespace EngineCore.Twmq

open Redis

variable {δ : Type}

/-! ## Moves in a row -/

/-- Moves of a pop, of jobs that belong here, one after the other. -/
def Queue.Polls (pop : String) (own : String → Prop) :
    List String × Queue δ → List String × Queue δ → Prop :=
  Relation.ReflTransGen fun x y =>
    ∃ who, x.2.Poll pop who x.1 y.1 y.2 ∧ ∀ id, who = some id → own id

namespace Queue.Polls

variable {pop : String} {own : String → Prop} {x y : List String × Queue δ}

theorem one {id : String} {hand hand' : List String} {q q' : Queue δ} (hown : own id)
    (h : q.Poll pop (some id) hand hand' q') : Queue.Polls pop own (hand, q) (hand', q') :=
  .single ⟨some id, h, fun _ he => Option.some.inj he ▸ hown⟩

theorem all {hand hand' : List String} {q q' : Queue δ} (h : q.Poll pop none hand hand' q') :
    Queue.Polls pop own (hand, q) (hand', q') :=
  .single ⟨none, h, nofun⟩

theorem keeps {P : List String → Queue δ → Prop}
    (hP : ∀ {who hand hand'} {q q' : Queue δ}, q.Exclusive own hand → P hand q →
      q.Poll pop who hand hand' q' → (∀ id, who = some id → own id) → P hand' q')
    (hm : Queue.Polls pop own x y) (h : x.2.Exclusive own x.1) (hx : P x.1 x.2) :
    y.2.Exclusive own y.1 ∧ P y.1 y.2 := by
  induction hm with
  | refl => exact ⟨h, hx⟩
  | tail _ hmove ih =>
    obtain ⟨who, hmove, hwho⟩ := hmove
    exact ⟨ih.1.poll hmove, hP ih.1 ih.2 hmove hwho⟩

theorem exclusive (hm : Queue.Polls pop own x y) (h : x.2.Exclusive own x.1) : y.2.Exclusive own y.1 :=
  (hm.keeps (P := fun _ _ => True) (fun _ _ _ _ => trivial) h trivial).1

theorem apart (hm : Queue.Polls pop own x y) {i : String} (hi : ¬own i) :
    Queue.Apart i x.1 x.2 y.1 y.2 := by
  induction hm with
  | refl => constructor <;> simp
  | tail _ hmove ih =>
    obtain ⟨who, hmove, hwho⟩ := hmove
    exact ih.trans (hmove.apart fun he => hi (hwho i he))

theorem leases (hm : Queue.Polls pop own x y) : y.2.dedup = x.2.dedup ∧
    ∀ lease ∈ y.2.leases, lease ∈ x.2.leases ∨ lease.2.pop = pop := by
  induction hm with
  | refl => exact ⟨rfl, fun _ => .inl⟩
  | tail _ hmove ih =>
    obtain ⟨who, hmove, -⟩ := hmove
    exact ⟨hmove.keeps.1.trans ih.1, fun lease hl =>
      (hmove.keeps.2 lease hl).elim (ih.2 lease) .inr⟩

end Queue.Polls

/-! ## The phases of a pop -/

def Queue.reclaimed (q : Queue δ) : Queue δ := q.reclaimAll (keys q.active)

/-- The queue after phase 2, and the jobs it cancelled. -/
def Queue.stopped (q : Queue δ) (now : ℕ) : Queue δ × List String :=
  q.reclaimed.cancelAll now q.reclaimed.cancellations

def Queue.matured (q : Queue δ) (now : ℕ) : Queue δ := q.matureAll (due q.delayed now)

def Queue.lent (q : Queue δ) (now : ℕ) (pop : String) (batch : ℕ) :
    Queue δ × List (BorrowedJob δ) :=
  { q with pending := q.pending.drop batch }.lendAll now pop (q.pending.take batch)

theorem popBatch_eq (q : Queue δ) (now : ℕ) (pop : String) (batch : ℕ) :
    q.popBatch now pop batch = ((((q.stopped now).1.matured now).lent now pop batch).1,
      (((q.stopped now).1.matured now).lent now pop batch).2, (q.stopped now).2) := rfl

section Phases

variable {q : Queue δ} {id i : String}

theorem cancelRequested_cases (q : Queue δ) (now : ℕ) (id : String) :
    (id ∈ keys q.active ∧ q.cancelRequested now id = (q, false)) ∨
    (id ∉ q.index ∧ id ∈ q.success ∧ q.cancelRequested now id =
      ({ q with cancellations := srem q.cancellations id }, false)) ∨
    (id ∉ keys q.active ∧ (id ∈ q.pending ∨ id ∈ keys q.delayed ∨ id ∉ q.success) ∧
      q.cancelRequested now id = (q.stop now id, true)) := by
  by_cases hactive : id ∈ keys q.active
  · exact .inl ⟨hactive, if_pos hactive⟩
  by_cases hdone : id ∉ q.pending ∧ id ∉ keys q.delayed ∧ id ∈ q.success
  · refine .inr (.inl ⟨?_, hdone.2.2, ?_⟩)
    · rw [mem_index]
      tauto
    · rw [Queue.cancelRequested, if_neg hactive, if_pos hdone]
  · refine .inr (.inr ⟨hactive, by tauto, ?_⟩)
    rw [Queue.cancelRequested, if_neg hactive, if_neg hdone]
    rfl

theorem cancelAll_fst (now : ℕ) (ids : List String) (q : Queue δ) :
    (q.cancelAll now ids).1 = ids.foldl (fun q id => (q.cancelRequested now id).1) q := by
  induction ids generalizing q with
  | nil => rfl
  | cons id ids ih => exact ih _

theorem mem_cancellations_cancelRequested {now : ℕ} (hne : i ≠ id) (hi : i ∈ q.cancellations) :
    i ∈ (q.cancelRequested now id).1.cancellations := by
  rcases cancelRequested_cases q now id with ⟨-, he⟩ | ⟨-, -, he⟩ | ⟨-, -, he⟩
  · rw [he]
    exact hi
  · rw [he]
    exact mem_srem.2 ⟨hi, hne⟩
  · rw [he]
    exact mem_srem.2 ⟨hi, hne⟩

end Phases

namespace Queue.Exclusive

variable {pop : String} {own : String → Prop} {q : Queue δ}

theorem reclaimAll_polls (ids : List String) (h : q.Exclusive own []) (hn : ids.Nodup)
    (hids : ∀ i ∈ ids, i ∈ keys q.active) : Queue.Polls pop own ([], q) ([], q.reclaimAll ids) := by
  refine foldl_members (E := fun i (q' : Queue δ) => i ∈ keys q'.active)
    (I := fun q' => Queue.Polls pop own ([], q) ([], q')) .refl hn hids (fun q' id hpolls hid => ?_)
    fun _ _ _ => mem_active_reclaim
  by_cases hl : q'.Lapsed id
  · have hown : own id := (hpolls.exclusive h).mine id (by simp [mem_index, hid])
    exact hpolls.trans (Queue.Polls.one hown (.reclaim hid hl))
  · have he : q'.reclaim id = q' := if_neg hl
    rw [he]
    exact hpolls

theorem matureAll_polls (ids : List String) (h : q.Exclusive own []) (hn : ids.Nodup)
    (hids : ∀ i ∈ ids, i ∈ keys q.delayed) : Queue.Polls pop own ([], q) ([], q.matureAll ids) := by
  refine foldl_members (E := fun i (q' : Queue δ) => i ∈ keys q'.delayed)
    (I := fun q' => Queue.Polls pop own ([], q) ([], q')) .refl hn hids (fun q' id hpolls hid => ?_)
    fun _ _ _ => mem_delayed_mature
  have hown : own id := (hpolls.exclusive h).mine id (by simp [mem_index, hid])
  exact hpolls.trans (Queue.Polls.one hown (.mature hid))

theorem lendAll_polls (now : ℕ) (ids : List String) (h : q.Exclusive own ids) :
    Queue.Polls pop own (ids, q) ([], (q.lendAll now pop ids).1) := by
  induction ids generalizing q with
  | nil => exact .refl
  | cons id ids ih =>
    have hown : own id := h.mine id (List.mem_cons_self ..)
    obtain ⟨data, hdata⟩ := Option.isSome_iff_exists.mp (h.stored id (List.mem_cons_self ..)).data
    simp only [Queue.lendAll, hdata]
    refine (Queue.Polls.one hown (.lend now (h.stored id (List.mem_cons_self ..)).data)).trans ?_
    exact ih (h.lend now pop)

theorem cancelRequested_polls (now : ℕ) {id : String} (hown : own id)
    (hasked : id ∈ q.cancellations) : Queue.Polls pop own ([], q) ([], (q.cancelRequested now id).1) := by
  rcases cancelRequested_cases q now id with ⟨-, he⟩ | ⟨hidle, hdone, he⟩ | ⟨hactive, hopen, he⟩
  · rw [he]
    exact .refl
  · rw [he]
    exact .one hown (.resolve hidle hdone)
  · rw [he]
    exact .one hown (.stop now hasked hactive hopen)

theorem cancelAll_polls (hall : ∀ id, own id) (now : ℕ) (ids : List String) (hn : ids.Nodup)
    (hids : ∀ i ∈ ids, i ∈ q.cancellations) :
    Queue.Polls pop own ([], q) ([], (q.cancelAll now ids).1) := by
  rw [cancelAll_fst]
  exact foldl_members (I := fun q' => Queue.Polls pop own ([], q) ([], q')) .refl hn hids
    (fun _ id hpolls hid => hpolls.trans (cancelRequested_polls now (hall id) hid))
    fun _ _ _ => mem_cancellations_cancelRequested

end Queue.Exclusive

/-! ## Pruning -/

/-- The records of the ids were deleted where no list names them. -/
structure Queue.Swept (ids : List String) (q q' : Queue δ) : Prop where
  lists : q'.pending = q.pending ∧ q'.delayed = q.delayed ∧ q'.active = q.active ∧
    q'.success = q.success ∧ q'.failed = q.failed
  leases : q'.leases = q.leases
  asked : q'.cancellations.Sublist q.cancellations
  records : ∀ id, q.Same q' id ∨ ¬q'.Referenced id ∧ q'.Gone id
  swept : ∀ id ∈ ids, q'.Referenced id ∨ q'.Gone id

namespace Queue.Swept

variable {q q' q'' : Queue δ} {ids : List String}

theorem referenced (h : q.Swept ids q') (id : String) : q'.Referenced id ↔ q.Referenced id := by
  obtain ⟨hp, hd, ha, hs, hf⟩ := h.lists
  rw [Queue.Referenced, Queue.Referenced, Queue.index, Queue.index, hp, hd, ha, hs, hf]

theorem pruneOne (q : Queue δ) (id : String) : q.Swept [id] (q.pruneOne id) := by
  have hout : ¬(id ∉ keys q.active ∧ id ∉ q.pending ∧ id ∉ keys q.delayed ∧
      id ∉ q.success ∧ id ∉ q.failed) ↔ q.Referenced id := by
    rw [Queue.Referenced, mem_index]
    tauto
  unfold Queue.pruneOne
  split_ifs with hid
  · have hnot : ¬q.Referenced id := fun hr => (hout.mpr hr) hid
    have hgone : Queue.Gone { q with
        dedup := srem q.dedup id
        cancellations := srem q.cancellations id
        data := Function.update q.data id none
        jobs := Function.update q.jobs id {} } id := by
      constructor <;> simp
    refine ⟨⟨rfl, rfl, rfl, rfl, rfl⟩, rfl, List.filter_sublist, fun i => ?_, fun i hi => ?_⟩
    · by_cases he : i = id
      · subst he
        exact .inr ⟨hnot, hgone⟩
      · left
        constructor <;> simp [he]
    · rw [List.mem_singleton.mp hi]
      exact .inr hgone
  · refine ⟨⟨rfl, rfl, rfl, rfl, rfl⟩, rfl, List.Sublist.refl _, fun i => .inl ?_, fun i hi => ?_⟩
    · exact ⟨rfl, rfl, Iff.rfl, Iff.rfl⟩
    · rw [List.mem_singleton.mp hi]
      exact .inl (hout.mp hid)

theorem gone_of_records {id : String} (h : q.Swept ids q') (hg : q.Gone id) : q'.Gone id := by
  rcases h.records id with hs | hs
  · exact ⟨hs.data.trans hg.data, hs.jobs.trans hg.jobs, fun hi => hg.dedup (hs.dedup.mp hi),
      fun hi => hg.cancellations (hs.cancellations.mp hi)⟩
  · exact hs.2

theorem cons {id : String} (h : q.Swept [id] q') (h' : q'.Swept ids q'') :
    q.Swept (id :: ids) q'' where
  lists := by
    obtain ⟨hp, hd, ha, hs, hf⟩ := h.lists
    obtain ⟨hp', hd', ha', hs', hf'⟩ := h'.lists
    exact ⟨hp'.trans hp, hd'.trans hd, ha'.trans ha, hs'.trans hs, hf'.trans hf⟩
  leases := h'.leases.trans h.leases
  asked := h'.asked.trans h.asked
  records i := by
    rcases h'.records i with hs' | hs'
    · rcases h.records i with hs | hs
      · exact .inl ⟨hs'.data.trans hs.data, hs'.jobs.trans hs.jobs, hs'.dedup.trans hs.dedup,
          hs'.cancellations.trans hs.cancellations⟩
      · exact .inr ⟨fun hr => hs.1 ((h'.referenced i).mp hr), h'.gone_of_records hs.2⟩
    · exact .inr hs'
  swept i hi := by
    rcases List.mem_cons.mp hi with he | hi
    · rcases h.swept i (by simp [he]) with hr | hg
      · exact .inl ((h'.referenced i).mpr hr)
      · exact .inr (h'.gone_of_records hg)
    · exact h'.swept i hi

theorem pruneAll (ids : List String) (q : Queue δ) :
    q.Swept ids (ids.foldl Queue.pruneOne q) := by
  induction ids generalizing q with
  | nil =>
    exact ⟨⟨rfl, rfl, rfl, rfl, rfl⟩, rfl, List.Sublist.refl _,
      fun _ => .inl ⟨rfl, rfl, Iff.rfl, Iff.rfl⟩, fun _ hi => absurd hi List.not_mem_nil⟩
  | cons id ids ih => exact (pruneOne q id).cons (ih (q.pruneOne id))

end Queue.Swept

section Prune

variable (options : QueueOptions) (q : Queue δ)

theorem pruned_pruneSuccess : q.Pruned (q.pruneSuccess options) := by
  have h := Queue.Swept.pruneAll (q.success.drop options.maxSuccess)
    { q with success := q.success.take options.maxSuccess }
  obtain ⟨hp, hd, ha, hs, hf⟩ := h.lists
  refine ⟨⟨hp, hd, ha, h.leases, hs ▸ List.take_prefix _ _, hf ▸ List.prefix_rfl, h.asked,
    fun id => (h.records id).imp_left fun hs => { hs with }⟩,
    fun id hr => ?_⟩
  by_cases hid : id ∈ q.success.drop options.maxSuccess
  · exact h.swept id hid
  · refine .inl ((h.referenced id).mpr (hr.imp_right fun hr => hr.imp_left fun hin => ?_))
    rw [← List.take_append_drop options.maxSuccess q.success] at hin
    exact (List.mem_append.mp hin).resolve_right hid

theorem pruned_pruneFailed : q.Pruned (q.pruneFailed options) := by
  have h := Queue.Swept.pruneAll (q.failed.drop options.maxFailed)
    { q with failed := q.failed.take options.maxFailed }
  obtain ⟨hp, hd, ha, hs, hf⟩ := h.lists
  refine ⟨⟨hp, hd, ha, h.leases, hs ▸ List.prefix_rfl, hf ▸ List.take_prefix _ _, h.asked,
    fun id => (h.records id).imp_left fun hs => { hs with }⟩,
    fun id hr => ?_⟩
  by_cases hid : id ∈ q.failed.drop options.maxFailed
  · exact h.swept id hid
  · refine .inl ((h.referenced id).mpr (hr.imp_right fun hr => hr.imp_right fun hin => ?_))
    rw [← List.take_append_drop options.maxFailed q.failed] at hin
    exact (List.mem_append.mp hin).resolve_right hid

end Prune

/-! ## Operations -/

/-- What clients, workers and Redis do to a queue. A completion is any of `complete_job` and
`complete_job_queue_error`. -/
inductive Op (δ : Type)
  | push (id : String) (data : δ) (now delay : ℕ) (position : Position)
  | pop (now : ℕ) (popId : String) (batch : ℕ)
  | cancel (id : String) (now : ℕ)
  | complete (id : String) (token : LeaseToken) (now : ℕ) (result : JobResult)
  | expire (id : String) (token : LeaseToken)
  | pruneSuccess
  | pruneFailed

def Op.apply (options : QueueOptions) (q : Queue δ) : Op δ → Queue δ
  | .push id data now delay position => (q.push id data now delay position).1
  | .pop now popId batch => (q.popBatch now popId batch).1
  | .cancel id now => (q.cancelJob id now).1
  | .complete id token now result => (q.complete options id token now result).1
  | .expire id token => q.expireLease id token
  | .pruneSuccess => q.pruneSuccess options
  | .pruneFailed => q.pruneFailed options

variable {options : QueueOptions}

/-- The queue after the operations, starting from the empty one. -/
def Queue.run (options : QueueOptions) (ops : List (Op δ)) : Queue δ :=
  ops.foldl (Op.apply options) {}

section Chains

variable {pop : String} {own : String → Prop} {q : Queue δ}

variable (pop) in
theorem Queue.Exclusive.reclaimed (h : q.Exclusive own []) :
    Queue.Polls pop own ([], q) ([], q.reclaimed) :=
  h.reclaimAll_polls _ h.nodup_active fun _ hi => hi

variable (pop) in
theorem Queue.Exclusive.stopping (h : q.reclaimed.Exclusive own []) (hall : ∀ id, own id)
    (now : ℕ) : Queue.Polls pop own ([], q.reclaimed) ([], (q.stopped now).1) :=
  Queue.Exclusive.cancelAll_polls hall now _ h.asked fun _ hi => hi

variable (pop) in
theorem Queue.Exclusive.matured (h : q.Exclusive own []) (now : ℕ) :
    Queue.Polls pop own ([], q) ([], q.matured now) :=
  h.matureAll_polls _ (h.nodup_delayed.sublist (due_sublist q.delayed now))
    fun _ hi => (due_sublist q.delayed now).subset hi

theorem Queue.Exclusive.lent (h : q.Exclusive own []) (now batch : ℕ) :
    Queue.Polls pop own ([], q) ([], (q.lent now pop batch).1) := by
  have hperm : q.pending.Perm (q.pending.take batch ++ q.pending.drop batch) := by
    rw [List.take_append_drop]
  exact (Queue.Polls.all (.take hperm)).trans ((h.take hperm).lendAll_polls now _)

theorem Queue.Exclusive.popBatch_polls (h : q.Exclusive own []) (hall : ∀ id, own id)
    (now batch : ℕ) :
    Queue.Polls pop own ([], q) ([], (q.popBatch now pop batch).1) := by
  have hreclaim := h.reclaimed pop
  have h₁ := hreclaim.exclusive h
  have hcancel := h₁.stopping pop hall now
  have h₂ := hcancel.exclusive h₁
  have hmature := h₂.matured pop now
  exact hreclaim.trans (hcancel.trans (hmature.trans ((hmature.exclusive h₂).lent now batch)))

theorem cancelJob_cases (q : Queue δ) (id : String) (now : ℕ) :
    ((id ∈ q.pending ∨ id ∈ keys q.delayed) ∧
      (q.cancelJob id now).2 = .cancelledImmediately) ∨
    (id ∈ keys q.active ∧ q.cancelJob id now =
      ({ q with cancellations := sadd q.cancellations id }, .cancellationPending)) ∨
    (id ∉ q.index ∧ q.cancelJob id now = (q, .notFound)) := by
  by_cases hpending : id ∈ q.pending
  · exact .inl ⟨.inl hpending, by simp [Queue.cancelJob, hpending]⟩
  by_cases hdelayed : id ∈ keys q.delayed
  · exact .inl ⟨.inr hdelayed, by simp [Queue.cancelJob, hpending, hdelayed]⟩
  by_cases hactive : id ∈ keys q.active
  · exact .inr (.inl ⟨hactive, by simp [Queue.cancelJob, hpending, hdelayed, hactive]⟩)
  · refine .inr (.inr ⟨?_, by simp [Queue.cancelJob, hpending, hdelayed, hactive]⟩)
    rw [mem_index]
    tauto

inductive Queue.Does (options : QueueOptions) : Queue δ → Queue δ → Prop
  | nothing {q : Queue δ} : Does options q q
  | poll {pop : String} {q q' : Queue δ} (h : Queue.Polls pop (fun _ => True) ([], q) ([], q')) : Does options q q'
  | move {q q' : Queue δ} {who : Option String} (h : q.Move options who [] [] q') : Does options q q'
  | trim {q q' : Queue δ} (h : q.Pruned q') : Does options q q'

/-- **Every operation is a row of moves, or trims a terminal list.** -/
theorem Op.does (h : q.Exclusive (fun _ => True) []) (op : Op δ) :
    q.Does options (op.apply options q) := by
  cases op with
  | push id data now delay position =>
    by_cases hnew : id ∈ q.dedup
    · have he : (q.push id data now delay position).1 = q := by simp [Queue.push, hnew]
      rw [Op.apply, he]
      exact .nothing
    · exact .move (.enter data now delay position hnew)
  | pop now popId batch => exact .poll (h.popBatch_polls (fun _ => trivial) now batch)
  | cancel id now =>
    rcases cancelJob_cases q id now with ⟨hidle, -⟩ | ⟨hactive, he⟩ | ⟨-, he⟩
    · exact .move (.cancel now hidle)
    · rw [Op.apply, he]
      exact .move (.request hactive)
    · rw [Op.apply, he]
      exact .nothing
  | complete id token now result =>
    by_cases hlease : (id, token) ∈ q.leases
    · have he : (q.complete options id token now result).1 = q.finish options id token now result := by
        rw [Queue.complete, if_pos hlease]
      rw [Op.apply, he]
      exact .move (.finish now result hlease)
    · have he : (q.complete options id token now result).1 = q := by
        rw [Queue.complete, if_neg hlease]
      rw [Op.apply, he]
      exact .nothing
  | expire id token => exact .move (.expire token)
  | pruneSuccess => exact .trim (pruned_pruneSuccess options q)
  | pruneFailed => exact .trim (pruned_pruneFailed options q)

theorem Queue.Does.keeps {P : List String → Queue δ → Prop} {q' : Queue δ}
    (hmove : ∀ {who hand hand'} {q q' : Queue δ}, q.Exclusive (fun _ => True) hand → P hand q →
      q.Move options who hand hand' q' → P hand' q')
    (htrim : ∀ {q q' : Queue δ}, P [] q → q.Pruned q' → P [] q')
    (hd : q.Does options q') (h : q.Exclusive (fun _ => True) []) (hq : P [] q) :
    q'.Exclusive (fun _ => True) [] ∧ P [] q' := by
  cases hd with
  | nothing => exact ⟨h, hq⟩
  | poll hp => exact hp.keeps (fun h hP hp _ => hmove h hP (.poll hp)) h hq
  | move hm => exact ⟨h.move hm fun _ _ => trivial, hmove h hq hm⟩
  | trim ht => exact ⟨h.trim ht.toTrimmed, htrim hq ht⟩

theorem Op.exclusive (h : q.Exclusive (fun _ => True) []) (op : Op δ) :
    (op.apply options q).Exclusive (fun _ => True) [] :=
  ((Op.does h op).keeps (P := fun _ _ => True) (fun _ _ _ => trivial) (fun _ _ => trivial) h
    trivial).1

theorem run_keeps {P : List String → Queue δ → Prop}
    (hmove : ∀ {who hand hand'} {q q' : Queue δ}, q.Exclusive (fun _ => True) hand → P hand q →
      q.Move options who hand hand' q' → P hand' q')
    (htrim : ∀ {q q' : Queue δ}, P [] q → q.Pruned q' → P [] q') (hempty : P [] {})
    (ops : List (Op δ)) :
    (Queue.run options ops).Exclusive (fun _ => True) [] ∧ P [] (Queue.run options ops) := by
  induction ops using List.reverseRecOn with
  | nil => exact ⟨.empty, hempty⟩
  | append_singleton ops op ih =>
    rw [Queue.run, List.foldl_append]
    exact (Op.does ih.1 op).keeps hmove htrim ih.1 ih.2

theorem run_exclusive (ops : List (Op δ)) :
    (Queue.run options ops).Exclusive (fun _ => True) [] :=
  (run_keeps (P := fun _ _ => True) (fun _ _ _ => trivial) (fun _ _ => trivial) trivial ops).1

end Chains

/-! ## Conservation -/

/-- The ids an operation enters in the success list. -/
def Op.succeeded (q : Queue δ) : Op δ → List String
  | .complete id token _ .success => if (id, token) ∈ q.leases then [id] else []
  | _ => []

/-- The ids an operation enters in the failed list, the last one first. -/
def Op.failed (q : Queue δ) : Op δ → List String
  | .complete id token _ .fail => if (id, token) ∈ q.leases then [id] else []
  | .cancel id now => if (q.cancelJob id now).2 = .cancelledImmediately then [id] else []
  | .pop now popId batch => (q.popBatch now popId batch).2.2.reverse
  | _ => []

/-- New entries stand in front of what is left of the old ones. -/
def Entered (new old list : List String) : Prop := ∃ rest, rest.Sublist old ∧ list = new ++ rest

theorem Entered.trimmed {old list : List String} (h : list <+: old) : Entered [] old list :=
  ⟨list, h.sublist, rfl⟩

/-- An operation takes no id out of the live indexes but into a terminal list. -/
structure Op.Conserves (options : QueueOptions) (q : Queue δ) (op : Op δ) : Prop where
  success : Entered (op.succeeded q) q.success (op.apply options q).success
  failed : Entered (op.failed q) q.failed (op.apply options q).failed
  live : ∀ id ∈ q.index,
    id ∈ (op.apply options q).index ∨ id ∈ op.succeeded q ∨ id ∈ op.failed q

section Conservation

variable {q : Queue δ}

/-- The terminal lists are the same, and nothing has left the live indexes. -/
def Queue.Lists (q q' : Queue δ) : Prop :=
  q'.success = q.success ∧ q'.failed = q.failed ∧ ∀ i ∈ q.index, i ∈ q'.index

theorem reclaimAll_lists (ids : List String) (q : Queue δ) : q.Lists (q.reclaimAll ids) := by
  refine List.foldlRecOn (motive := q.Lists) ids _ ⟨rfl, rfl, fun _ hi => hi⟩ fun q' h id _ => ?_
  unfold Queue.reclaim
  split_ifs
  · refine ⟨h.1, h.2.1, fun i hi => ?_⟩
    have hin := h.2.2 i hi
    rw [mem_index] at hin ⊢
    simp only [Queue.withMeta, List.mem_cons, mem_keys_hdel]
    tauto
  · exact h

theorem matureAll_lists (ids : List String) (q : Queue δ) : q.Lists (q.matureAll ids) := by
  refine List.foldlRecOn (motive := q.Lists) ids _ ⟨rfl, rfl, fun _ hi => hi⟩ fun q' h id _ => ?_
  unfold Queue.mature
  cases (q'.jobs id).reentryPosition.getD Position.last
  all_goals
    refine ⟨h.1, h.2.1, fun i hi => ?_⟩
    have hin := h.2.2 i hi
    rw [mem_index] at hin ⊢
    simp only [Queue.withMeta, Queue.enqueue, List.mem_cons, List.mem_append, mem_keys_hdel,
      List.not_mem_nil]
    tauto

theorem cancelAll_lists (now : ℕ) (ids : List String) (hn : ids.Nodup) (q : Queue δ) :
    (q.cancelAll now ids).1.success = q.success ∧
    (q.cancelAll now ids).1.failed = (q.cancelAll now ids).2.reverse ++
      q.failed.filter (· ∉ (q.cancelAll now ids).2) ∧
    (q.cancelAll now ids).2.Sublist ids ∧
    ∀ i ∈ q.index, i ∈ (q.cancelAll now ids).1.index ∨ i ∈ (q.cancelAll now ids).2 := by
  induction ids generalizing q with
  | nil => simp [Queue.cancelAll]
  | cons id ids ih =>
    obtain ⟨hnot, hn⟩ := List.nodup_cons.mp hn
    rcases cancelRequested_cases q now id with ⟨-, he⟩ | ⟨-, -, he⟩ | ⟨-, -, he⟩
    · obtain ⟨hs, hf, hsub, hl⟩ := ih hn q
      simp only [Queue.cancelAll, he]
      exact ⟨hs, hf, hsub.cons _, hl⟩
    · obtain ⟨hs, hf, hsub, hl⟩ := ih hn { q with cancellations := srem q.cancellations id }
      simp only [Queue.cancelAll, he]
      exact ⟨hs, hf, hsub.cons _, hl⟩
    · obtain ⟨hs, hf, hsub, hl⟩ := ih hn (q.stop now id)
      have hother : id ∉ ((q.stop now id).cancelAll now ids).2 := fun hi => hnot (hsub.subset hi)
      simp only [Queue.cancelAll, he, if_true]
      refine ⟨hs, ?_, hsub.cons_cons _, fun i hi => ?_⟩
      · have hstop : (q.stop now id).failed = id :: srem q.failed id := rfl
        rw [hf, hstop]
        simp [srem, hother, List.filter_filter, Bool.and_comm]
      · by_cases hne : i = id
        · exact .inr (by simp [hne])
        · refine (hl i ?_).imp_right (List.mem_cons_of_mem _)
          rw [mem_index] at hi ⊢
          simpa [Queue.stop, Queue.withMeta, hne] using hi

theorem lendAll_lists (now : ℕ) (pop : String) (ids : List String) (q : Queue δ)
    (hdata : ∀ i ∈ ids, (q.data i).isSome) :
    (q.lendAll now pop ids).1.success = q.success ∧ (q.lendAll now pop ids).1.failed = q.failed ∧
      ∀ i, i ∈ ids ∨ i ∈ q.index → i ∈ (q.lendAll now pop ids).1.index := by
  induction ids generalizing q with
  | nil => exact ⟨rfl, rfl, fun _ hi => hi.resolve_left List.not_mem_nil⟩
  | cons id ids ih =>
    obtain ⟨data, hd⟩ := Option.isSome_iff_exists.mp (hdata id (List.mem_cons_self ..))
    simp only [Queue.lendAll, hd]
    obtain ⟨hs, hf, hl⟩ := ih (q.lend now pop id) fun i hi => hdata i (List.mem_cons_of_mem _ hi)
    refine ⟨hs, hf, fun i hi => hl i ?_⟩
    simp only [mem_index, Queue.lend, Queue.withMeta, mem_keys_hset, List.mem_cons] at hi ⊢
    tauto

theorem popBatch_conserves (options : QueueOptions) (h : q.Exclusive (fun _ => True) [])
    (now : ℕ) (pop : String) (batch : ℕ) : (Op.pop now pop batch).Conserves options q := by
  have hx₁ : q.reclaimed.Exclusive (fun _ => True) [] := (h.reclaimed pop).exclusive h
  have hx₂ : (q.stopped now).1.Exclusive (fun _ => True) [] :=
    (hx₁.stopping pop (fun _ => trivial) now).exclusive hx₁
  have hx₃ : ((q.stopped now).1.matured now).Exclusive (fun _ => True) [] :=
    (hx₂.matured pop now).exclusive hx₂
  obtain ⟨hs₁, hf₁, hl₁⟩ := reclaimAll_lists (keys q.active) q
  obtain ⟨hs₂, hf₂, -, hl₂⟩ := cancelAll_lists now q.reclaimed.cancellations hx₁.asked q.reclaimed
  obtain ⟨hs₃, hf₃, hl₃⟩ := matureAll_lists (due (q.stopped now).1.delayed now) (q.stopped now).1
  obtain ⟨hs₄, hf₄, hl₄⟩ := lendAll_lists now pop (((q.stopped now).1.matured now).pending.take batch)
    { (q.stopped now).1.matured now with
      pending := ((q.stopped now).1.matured now).pending.drop batch }
    fun i hi => (hx₃.stored i (mem_index.mpr (.inl (List.mem_of_mem_take hi)))).data
  refine ⟨⟨q.success, List.Sublist.refl _, ?_⟩,
    ⟨q.failed.filter (· ∉ (q.stopped now).2), List.filter_sublist, ?_⟩, fun i hi => ?_⟩
  · exact hs₄.trans (hs₃.trans (hs₂.trans hs₁))
  · refine hf₄.trans (hf₃.trans (hf₂.trans ?_))
    rw [show q.reclaimed.failed = q.failed from hf₁]
    rfl
  · rcases hl₂ i (hl₁ i hi) with hi | hi
    · have hin := hl₃ i hi
      refine .inl (hl₄ i ?_)
      rw [mem_index] at hin ⊢
      rcases hin with hin | hin
      · rw [← List.take_append_drop batch (Queue.pending _), List.mem_append] at hin
        exact hin.imp_right .inl
      · exact .inr (.inr hin)
    · exact .inr (.inr (List.mem_reverse.mpr hi))

theorem conserves_of_kept {op : Op δ}
    (hnone : op.succeeded q = [] ∧ op.failed q = [])
    (hsuccess : (op.apply options q).success <+: q.success)
    (hfailed : (op.apply options q).failed <+: q.failed)
    (hlive : ∀ id ∈ q.index, id ∈ (op.apply options q).index) : op.Conserves options q := by
  refine ⟨?_, ?_, fun id hid => .inl (hlive id hid)⟩
  · rw [hnone.1]
    exact .trimmed hsuccess
  · rw [hnone.2]
    exact .trimmed hfailed

theorem cancelJob_conserves (options : QueueOptions) (q : Queue δ) (id : String) (now : ℕ) :
    (Op.cancel id now).Conserves options q := by
  rcases cancelJob_cases q id now with ⟨hidle, hresult⟩ | ⟨hactive, he⟩ | ⟨-, he⟩
  · have hcancel : (q.cancelJob id now).1.success = q.success ∧
        (q.cancelJob id now).1.failed = id :: q.failed := by
      unfold Queue.cancelJob
      simp only
      split_ifs
      · exact ⟨rfl, rfl⟩
      · exact ⟨rfl, rfl⟩
      all_goals tauto
    have hnew : (Op.cancel id now).failed q = [id] := if_pos hresult
    refine ⟨⟨_, List.Sublist.refl _, hcancel.1⟩, ⟨q.failed, List.Sublist.refl _, ?_⟩, fun i hi => ?_⟩
    · rw [hnew]
      exact hcancel.2
    · by_cases hne : i = id
      · exact .inr (.inr (by simp [hnew, hne]))
      · have hmove : q.Move options (some id) [] [] (q.cancelJob id now).1 := .cancel now hidle
        have ha := (hmove.apart fun he => hne (Option.some.inj he).symm).index
        simp only [List.not_mem_nil, false_or] at ha
        exact .inl (ha.mpr hi)
  · refine conserves_of_kept ⟨rfl, ?_⟩ ?_ ?_ ?_
    all_goals simp [Op.failed, Op.apply, he, Queue.index]
  · refine conserves_of_kept ⟨rfl, ?_⟩ ?_ ?_ ?_
    all_goals simp [Op.failed, Op.apply, he]

section Forget

variable (options : QueueOptions) (q : Queue δ) (id : String)

@[simp] theorem forget_index : (q.forget options id).index = q.index := by
  unfold Queue.forget
  split_ifs <;> rfl

@[simp] theorem forget_success : (q.forget options id).success = q.success := by
  unfold Queue.forget
  split_ifs <;> rfl

@[simp] theorem forget_failed : (q.forget options id).failed = q.failed := by
  unfold Queue.forget
  split_ifs <;> rfl

end Forget

theorem finish_lists (options : QueueOptions) (q : Queue δ) (id : String) (token : LeaseToken)
    (now : ℕ) (result : JobResult) :
    (q.finish options id token now result).success =
      (if result = .success then [id] else []) ++ q.success ∧
    (q.finish options id token now result).failed =
      (if result = .fail then [id] else []) ++ q.failed ∧
    ∀ i ∈ q.index, i ∈ (q.finish options id token now result).index ∨
      i = id ∧ (result = .success ∨ result = .fail) := by
  have hkeep : ∀ i ∈ q.index, i ≠ id → i ∈ (q.settle id token).index := by
    intro i hi hne
    simpa [mem_index, Queue.settle, Queue.withMeta, hne] using hi
  cases result with
  | success =>
    refine ⟨by simp [Queue.finish, Queue.settle, Queue.withMeta],
      by simp [Queue.finish, Queue.settle, Queue.withMeta], fun i hi => ?_⟩
    by_cases hne : i = id
    · exact .inr ⟨hne, .inl rfl⟩
    · refine .inl ?_
      rw [Queue.finish, forget_index]
      exact hkeep i hi hne
  | fail =>
    refine ⟨by simp [Queue.finish, Queue.settle, Queue.withMeta],
      by simp [Queue.finish, Queue.settle, Queue.withMeta], fun i hi => ?_⟩
    by_cases hne : i = id
    · exact .inr ⟨hne, .inr rfl⟩
    · refine .inl ?_
      rw [Queue.finish, forget_index]
      exact hkeep i hi hne
  | nack delay position =>
    refine ⟨by cases delay <;> cases position <;> rfl, by cases delay <;> cases position <;> rfl,
      fun i hi => .inl ((mem_index_nack ..).mpr ?_)⟩
    by_cases hne : i = id
    · exact .inl hne
    · exact .inr (hkeep i hi hne)

theorem complete_conserves (options : QueueOptions) (q : Queue δ) (id : String) (token : LeaseToken)
    (now : ℕ) (result : JobResult) : (Op.complete id token now result).Conserves options q := by
  by_cases hlease : (id, token) ∈ q.leases
  · obtain ⟨hs, hf, hl⟩ := finish_lists options q id token now result
    have he : (Op.complete id token now result).apply options q =
        q.finish options id token now result := by
      rw [Op.apply, Queue.complete, if_pos hlease]
    have hnew : (Op.complete id token now result).succeeded q =
        (if result = .success then [id] else []) ∧ (Op.complete id token now result).failed q =
        (if result = .fail then [id] else []) := by
      cases result <;> simp [Op.succeeded, Op.failed, hlease]
    refine ⟨⟨q.success, List.Sublist.refl _, ?_⟩, ⟨q.failed, List.Sublist.refl _, ?_⟩,
      fun i hi => ?_⟩
    · rw [he, hnew.1, hs]
    · rw [he, hnew.2, hf]
    · rw [he, hnew.1, hnew.2]
      rcases hl i hi with hi | ⟨rfl, rfl | rfl⟩
      · exact .inl hi
      · exact .inr (.inl (by simp))
      · exact .inr (.inr (by simp))
  · have he : (Op.complete id token now result).apply options q = q := by
      rw [Op.apply, Queue.complete, if_neg hlease]
    refine conserves_of_kept ?_ ?_ ?_ ?_
    · cases result <;> simp [Op.succeeded, Op.failed, hlease]
    all_goals simp [he]

theorem push_conserves (options : QueueOptions) (q : Queue δ) (id : String) (data : δ)
    (now delay : ℕ) (position : Position) :
    (Op.push id data now delay position).Conserves options q := by
  refine conserves_of_kept ⟨rfl, rfl⟩ ?_ ?_ ?_
  all_goals
    simp only [Op.apply, Queue.push]
    split_ifs
  all_goals try exact List.prefix_rfl
  · exact fun _ hi => hi
  · intro i hi
    rw [mem_index] at hi ⊢
    simp only [Queue.withMeta, mem_keys_zadd]
    tauto
  · intro i hi
    exact (enqueue_index_perm _ _ _).mem_iff.mpr (List.mem_cons_of_mem _ hi)

theorem Op.conserves (options : QueueOptions) (h : q.Exclusive (fun _ => True) []) (op : Op δ) :
    op.Conserves options q := by
  cases op with
  | push id data now delay position => exact push_conserves options q id data now delay position
  | pop now popId batch => exact popBatch_conserves options h now popId batch
  | cancel id now => exact cancelJob_conserves options q id now
  | complete id token now result => exact complete_conserves options q id token now result
  | expire id token =>
    exact conserves_of_kept ⟨rfl, rfl⟩ List.prefix_rfl List.prefix_rfl fun _ hi => hi
  | pruneSuccess =>
    have hp := pruned_pruneSuccess options q
    exact conserves_of_kept ⟨rfl, rfl⟩ hp.success hp.failed fun i hi => hp.index.symm ▸ hi
  | pruneFailed =>
    have hp := pruned_pruneFailed options q
    exact conserves_of_kept ⟨rfl, rfl⟩ hp.success hp.failed fun i hi => hp.index.symm ▸ hi

end Conservation

/-! ## Retained data -/

/-- The id has data exactly when it is in the hand or in some list; it is asked to be cancelled only
then. -/
structure Queue.Retains (i : String) (hand : List String) (q : Queue δ) : Prop where
  data : (q.data i).isSome ↔ i ∈ hand ∨ q.Referenced i
  asked : i ∈ q.cancellations → (q.data i).isSome

namespace Queue.Retains

variable {i : String} {hand hand' : List String} {q q' : Queue δ}

theorem apart (h : q.Retains i hand) (ha : Queue.Apart i hand q hand' q') : q'.Retains i hand' where
  data := by rw [ha.data, ha.referenced, h.data]
  asked hi := by
    rw [ha.data]
    exact h.asked (ha.cancellations.mp hi)

theorem of_referenced (h : q.Retains i hand) (hdata : q'.data i = q.data i)
    (hbefore : i ∈ hand ∨ q.Referenced i) (hafter : i ∈ hand' ∨ q'.Referenced i) :
    q'.Retains i hand' := by
  have hsome : (q'.data i).isSome := hdata ▸ h.data.mpr hbefore
  exact ⟨⟨fun _ => hafter, fun _ => hsome⟩, fun _ => hsome⟩

theorem poll (h : q.Retains i hand) {pop : String} (hpoll : q.Poll pop (some i) hand hand' q') :
    q'.Retains i hand' := by
  cases hpoll with
  | reclaim hactive hlapsed =>
    unfold Queue.reclaim
    rw [if_pos hlapsed]
    refine h.of_referenced rfl (.inr (.inl ?_)) (.inr (.inl ?_))
    · simp [mem_index, hactive]
    · simp [mem_index]
  | resolve hidle hdone => exact ⟨h.data, fun hi => h.asked (mem_srem.mp hi).1⟩
  | stop now hasked hactive hopen =>
    exact h.of_referenced rfl (h.data.mp (h.asked hasked))
      (.inr (.inr (.inr (List.mem_cons_self ..))))
  | mature hdelayed =>
    refine h.of_referenced ?_ (.inr (.inl ?_)) (.inr (.inl ?_))
    · unfold Queue.mature
      cases (q.jobs i).reentryPosition.getD Position.last <;> rfl
    · simp [mem_index, hdelayed]
    · exact (enqueue_index_perm _ _ _).mem_iff.mpr (List.mem_cons_self ..)
  | lend now hdata =>
    refine h.of_referenced rfl (.inl (List.mem_cons_self ..)) (.inr (.inl ?_))
    simp [mem_index, Queue.lend]
  | drop hdata =>
    have hd := h.data.mpr (.inl (List.mem_cons_self ..))
    rw [hdata] at hd
    cases hd

theorem finish (h : q.Retains i []) {token : LeaseToken}
    (hactive : i ∈ keys q.active) (now : ℕ) (result : JobResult) :
    (q.finish options i token now result).Retains i [] := by
  have hbefore : i ∈ [] ∨ q.Referenced i := .inr (.inl (by simp [mem_index, hactive]))
  cases result with
  | success =>
    unfold Queue.finish Queue.forget
    split_ifs
    all_goals exact h.of_referenced rfl hbefore (.inr (.inr (.inl (List.mem_cons_self ..))))
  | fail =>
    unfold Queue.finish Queue.forget
    split_ifs
    all_goals exact h.of_referenced rfl hbefore (.inr (.inr (.inr (List.mem_cons_self ..))))
  | nack delay position =>
    exact h.of_referenced (congrFun (finish_frame ..).2.2 i) hbefore
      (.inr (.inl ((mem_index_nack ..).mpr (.inl rfl))))

theorem move {own : String → Prop} (hx : q.Exclusive own hand) (h : q.Retains i hand)
    {who : Option String} (hmove : q.Move options who hand hand' q')
    (hwho : ∀ id, who = some id → own id) : q'.Retains i hand' := by
  by_cases hi : who = some i
  swap
  · exact h.apart (hmove.apart hi)
  subst hi
  cases hmove with
  | poll hpoll => exact h.poll hpoll
  | enter data now delay position hnew =>
    unfold Queue.push
    rw [if_neg hnew]
    split_ifs
    · refine ⟨?_, fun _ => ?_⟩
      all_goals simp [Queue.Referenced, mem_index, Queue.withMeta]
    · refine ⟨?_, fun _ => ?_⟩
      all_goals simp [Queue.Referenced, mem_index, Queue.withMeta, Queue.enqueue]
  | cancel now hidle =>
    have hbefore : i ∈ [] ∨ q.Referenced i := .inr (.inl (by rw [mem_index]; tauto))
    unfold Queue.cancelJob
    simp only
    split_ifs
    · exact h.of_referenced rfl hbefore (.inr (.inr (.inr (List.mem_cons_self ..))))
    · exact h.of_referenced rfl hbefore (.inr (.inr (.inr (List.mem_cons_self ..))))
    all_goals tauto
  | request hactive =>
    have hbefore : i ∈ [] ∨ q.Referenced i := .inr (.inl (by simp [mem_index, hactive]))
    exact h.of_referenced rfl hbefore hbefore
  | finish now result hlease => exact h.finish (hx.held _ _ (hwho _ rfl) hlease).1 now result
  | expire token => exact ⟨h.data, h.asked⟩

theorem prune (h : q.Retains i []) (hp : q.Pruned q') : q'.Retains i [] := by
  have href : q'.Referenced i → q.Referenced i := by
    rw [Queue.Referenced, hp.index]
    exact fun hr => hr.imp_right fun hr =>
      hr.imp (fun hi => hp.success.subset hi) fun hi => hp.failed.subset hi
  rcases hp.records i with hs | hs
  · refine ⟨⟨fun hd => ?_, fun hr => ?_⟩, fun hi => ?_⟩
    · rcases hp.swept i ((h.data.mp (hs.data ▸ hd)).resolve_left List.not_mem_nil) with hr | hg
      · exact .inr hr
      · rw [hg.data] at hd
        cases hd
    · rw [hs.data]
      exact h.data.mpr (hr.imp_right href)
    · rw [hs.data]
      exact h.asked (hs.cancellations.mp hi)
  · refine ⟨?_, fun hi => absurd hi hs.2.cancellations⟩
    rw [hs.2.data]
    simp [hs.1]

end Queue.Retains

/-! ## Ended jobs -/

/-- Where a terminal list names the id, its end has a time. -/
def Queue.Timed (i : String) (q : Queue δ) : Prop :=
  i ∈ q.success ∨ i ∈ q.failed → (q.jobs i).finishedAt.isSome

namespace Queue.Timed

variable {i : String} {hand hand' : List String} {q q' : Queue δ}

theorem apart (h : q.Timed i) (ha : Queue.Apart i hand q hand' q') : q'.Timed i := by
  intro hi
  rw [ha.jobs]
  exact h (hi.imp ha.success.mp ha.failed.mp)

theorem of_same (h : q.Timed i) (hsuccess : q'.success = q.success) (hfailed : q'.failed = q.failed)
    (htime : (q'.jobs i).finishedAt = (q.jobs i).finishedAt) : q'.Timed i := by
  rw [Queue.Timed, hsuccess, hfailed, htime]
  exact h

theorem of_time (htime : (q'.jobs i).finishedAt.isSome) : q'.Timed i := fun _ => htime

theorem poll (h : q.Timed i) {pop : String} (hpoll : q.Poll pop (some i) hand hand' q') :
    q'.Timed i := by
  cases hpoll with
  | reclaim hactive hlapsed =>
    unfold Queue.reclaim
    rw [if_pos hlapsed]
    exact h.of_same rfl rfl (by simp [Queue.withMeta, JobMeta.attempt])
  | resolve hidle hdone => exact h
  | stop now hasked hactive hopen => exact of_time (by simp [Queue.stop, Queue.withMeta])
  | mature hdelayed =>
    unfold Queue.mature
    cases (q.jobs i).reentryPosition.getD Position.last
    all_goals exact h.of_same rfl rfl (by simp [Queue.withMeta, Queue.enqueue])
  | lend now hdata => exact h.of_same rfl rfl (by simp [Queue.lend, Queue.withMeta, JobMeta.attempt])
  | drop hdata => exact h

theorem finish (h : q.Timed i) (options : QueueOptions) (token : LeaseToken) (now : ℕ)
    (result : JobResult) : (q.finish options i token now result).Timed i := by
  cases result with
  | success | fail =>
    unfold Queue.finish Queue.forget
    split_ifs
    all_goals exact of_time (by simp [Queue.withMeta])
  | nack delay position =>
    cases delay with
    | some delay => exact h.of_same rfl rfl (by simp [Queue.finish, Queue.settle, Queue.withMeta])
    | none =>
      cases position
      all_goals
        exact h.of_same rfl rfl (by simp [Queue.finish, Queue.settle, Queue.withMeta, Queue.enqueue])

theorem move (h : q.Timed i) {who : Option String}
    (hmove : q.Move options who hand hand' q') : q'.Timed i := by
  by_cases hi : who = some i
  swap
  · exact h.apart (hmove.apart hi)
  subst hi
  cases hmove with
  | poll hpoll => exact h.poll hpoll
  | enter data now delay position hnew =>
    unfold Queue.push
    rw [if_neg hnew]
    split_ifs
    · exact h.of_same rfl rfl (by simp [Queue.withMeta])
    · exact h.of_same rfl rfl (by simp [Queue.withMeta, Queue.enqueue])
  | cancel now hidle =>
    unfold Queue.cancelJob
    simp only
    split_ifs
    · exact of_time (by simp [Queue.withMeta])
    · exact of_time (by simp [Queue.withMeta])
    all_goals tauto
  | request hactive => exact h
  | finish now result hlease => exact h.finish options _ now result
  | expire token => exact h

theorem prune (h : q.Timed i) (hp : q.Pruned q') : q'.Timed i := by
  intro hi
  rcases hp.records i with hs | hs
  · rw [hs.jobs]
    exact h (hi.imp (fun hi => hp.success.subset hi) fun hi => hp.failed.subset hi)
  · exact absurd (.inr hi) hs.1

end Queue.Timed

/-- **A job with data and without an end is live.** -/
theorem Queue.Timed.live {q : Queue δ} {i : String} (h : q.Timed i) (hr : q.Retains i [])
    (hdata : (q.data i).isSome) (hopen : (q.jobs i).finishedAt = none) : i ∈ q.index := by
  have hidle : ¬(i ∈ q.success ∨ i ∈ q.failed) := by
    intro hi
    have := h hi
    rw [hopen] at this
    cases this
  exact ((hr.data.mp hdata).resolve_left List.not_mem_nil).resolve_right hidle

/-! ## Data -/

theorem enqueue_data (q : Queue δ) (id : String) (position : Position) :
    (q.enqueue id position).data = q.data := by
  cases position <;> rfl

theorem Queue.Poll.data {q q' : Queue δ} {pop : String} {who : Option String}
    {hand hand' : List String} (h : q.Poll pop who hand hand' q') : q'.data = q.data := by
  cases h with
  | reclaim hactive hlapsed =>
    unfold Queue.reclaim
    rw [if_pos hlapsed]
    rfl
  | mature hdelayed => exact enqueue_data _ _ _
  | _ => rfl

theorem Op.data_of_apply {q : Queue δ} (h : q.Exclusive (fun _ => True) [])
    {op : Op δ} (hop : ∀ id data now delay position, op ≠ .push id data now delay position)
    {i : String} {d : δ} (hd : (op.apply options q).data i = some d) : q.data i = some d := by
  have hprune : ∀ {q' : Queue δ}, q.Pruned q' → q'.data i = some d → q.data i = some d := by
    intro q' hp hd
    rcases hp.records i with hs | hs
    · rwa [hs.data] at hd
    · rw [hs.2.data] at hd
      cases hd
  cases op with
  | push id data now delay position => exact absurd rfl (hop id data now delay position)
  | pop now popId batch =>
    have hpolls : Queue.Polls popId (fun _ => True) ([], q) ([], (q.popBatch now popId batch).1) :=
      h.popBatch_polls (fun _ => trivial) now batch
    have he := (hpolls.keeps (P := fun _ q' => q'.data = q.data)
      (fun _ hP hp _ => hp.data.trans hP) h rfl).2
    rw [← he]
    exact hd
  | cancel id now =>
    have he : (q.cancelJob id now).1.data = q.data := by
      unfold Queue.cancelJob
      simp only
      split_ifs <;> rfl
    rw [← he]
    exact hd
  | complete id token now result =>
    have he : (q.complete options id token now result).1.data = q.data := by
      unfold Queue.complete
      split_ifs
      · exact (finish_frame ..).2.2
      · rfl
    rw [← he]
    exact hd
  | expire id token => exact hd
  | pruneSuccess => exact hprune (pruned_pruneSuccess options q) hd
  | pruneFailed => exact hprune (pruned_pruneFailed options q) hd

/-! ## Every run -/

/-- **An id is live in one place at most, with its records, and no operation loses it.** -/
theorem live_index_exclusive (options : QueueOptions) (ops : List (Op δ)) :
    (Queue.run options ops).index.Nodup ∧
    (∀ id ∈ (Queue.run options ops).index,
      ((Queue.run options ops).data id).isSome ∧
      ((Queue.run options ops).jobs id).createdAt.isSome ∧
      ((Queue.run options ops).jobs id).attempts.isSome ∧ id ∈ (Queue.run options ops).dedup) ∧
    ∀ op : Op δ, op.Conserves options (Queue.run options ops) := by
  have h : (Queue.run options ops).Exclusive (fun _ => True) [] := run_exclusive ops
  refine ⟨h.nodup_index, fun id hid => ?_, fun op => op.conserves options h⟩
  exact ⟨(h.stored id hid).data, (h.stored id hid).createdAt, (h.stored id hid).attempts,
    h.known id hid⟩

/-- **Retained job data are exactly the referenced data**, and only a job with data is asked to be
cancelled. -/
theorem data_iff_referenced (options : QueueOptions) (ops : List (Op δ)) :
    (∀ id, ((Queue.run options ops).data id).isSome ↔
      id ∈ (Queue.run options ops).pending ∨ id ∈ keys (Queue.run options ops).delayed ∨
      id ∈ keys (Queue.run options ops).active ∨ id ∈ (Queue.run options ops).success ∨
      id ∈ (Queue.run options ops).failed) ∧
    ∀ id ∈ (Queue.run options ops).cancellations, ((Queue.run options ops).data id).isSome := by
  have h : ∀ id, (Queue.run options ops).Retains id [] := by
    refine (run_keeps (P := fun hand q => ∀ id, q.Retains id hand) (fun hx hp hm id => ?_)
      (fun hp ht id => (hp id).prune ht) (fun id => ?_) ops).2
    · exact (hp id).move hx hm fun _ _ => trivial
    · constructor <;> simp [Queue.Referenced, Queue.index]
  refine ⟨fun id => ?_, fun id => (h id).asked⟩
  rw [(h id).data, Queue.Referenced, mem_index]
  simp only [List.not_mem_nil, false_or, or_assoc]

end EngineCore.Twmq
