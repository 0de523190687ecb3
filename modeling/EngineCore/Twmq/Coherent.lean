import EngineCore.Twmq.Dedup
import EngineCore.Twmq.Readmission

/-!
# A coherent queue

In a queue in the active mode whose jobs are never cancelled the live indexes, the deduplication
set, the job data and the lease keys stay in step.

* **`Uncancelled.apply`**: every operation but a cancellation keeps them so.
-/

namespace EngineCore.Twmq

open Redis

variable {δ : Type}

/-- The indexes, the deduplication set, the data and the leases agree. The ids in `hand` have been
taken out of the indexes by a script that has not placed them yet. -/
structure Queue.Coherent (hand : List String) (q : Queue δ) : Prop where
  once : (hand ++ q.index).Nodup
  known : ∀ id, id ∈ q.dedup ↔ id ∈ hand ++ q.index
  stored : ∀ id ∈ hand ++ q.index, (q.data id).isSome
  held : ∀ id token, (id, token) ∈ q.leases →
    id ∈ keys q.active ∧ (q.jobs id).leaseToken = some token
  calm : q.cancellations = []

structure Queue.Uncancelled (q : Queue δ) : Prop where
  exclusive : q.Exclusive (fun _ => True) []
  exact : q.Exact
  calm : q.cancellations = []

namespace Queue.Uncancelled

variable {q : Queue δ} {i : String}

theorem empty : ({} : Queue δ).Uncancelled := by
  have hx : ({} : Queue δ).Exclusive (fun _ => True) [] := .empty
  exact ⟨hx, (exact_iff hx).mpr (by simp), rfl⟩

section

variable (h : q.Uncancelled)

include h

theorem coherent : q.Coherent [] where
  once := h.exclusive.once
  known id := (h.exact id).1
  stored id hid := (h.exclusive.stored id hid).data
  held id token := h.exclusive.held id token trivial
  calm := h.calm

theorem not_asked (i : String) : i ∉ q.cancellations := by
  rw [h.calm]
  exact List.not_mem_nil

theorem mem_dedup_of_lease {token : LeaseToken} (hl : (i, token) ∈ q.leases) : i ∈ q.dedup := by
  refine h.exclusive.known i (mem_index.mpr (.inr (.inr ?_)))
  exact (h.exclusive.held i token trivial hl).1

theorem mem_index_pushed (data : δ) (now delay : ℕ) (position : Position) :
    i ∈ (q.push i data now delay position).1.index := by
  by_cases hknown : i ∈ q.dedup
  · have he : (q.push i data now delay position).1 = q := by simp [Queue.push, hknown]
    rw [he]
    exact (h.exact i).1.mp hknown
  · exact mem_index_push hknown

variable (maxSuccess maxFailed : ℕ) (op : Op δ) (hop : ∀ i, ¬op.Cancels i)

include hop

theorem apply : (op.apply ⟨.active, maxSuccess, maxFailed⟩ q).Uncancelled := by
  refine ⟨Op.exclusive h.exclusive op, (Op.exact_iff h.exclusive h.exact op).mpr ?_,
    List.eq_nil_iff_forall_not_mem.mpr fun i => Op.not_asked h.exclusive (h.not_asked i) (hop i)⟩
  cases op with
  | cancel id now => exact absurd rfl (hop id)
  | pop now pop batch => exact fun i hi => absurd (asked_of_cancelled h.exclusive hi) (h.not_asked i)
  | _ => trivial

/-- A live job stays live, unless it is completed for good. -/
theorem live (hi : i ∈ q.index) (hend : ∀ token now result, op = .complete i token now result →
    ∃ delay position, result = .nack delay position) :
    i ∈ (op.apply ⟨.active, maxSuccess, maxFailed⟩ q).index := by
  refine ((Op.conserves _ h.exclusive op).live i hi).resolve_right ?_
  cases op with
  | cancel id now => exact absurd rfl (hop id)
  | pop now pop batch =>
    rintro (hs | hf)
    · cases hs
    · exact h.not_asked i (asked_of_cancelled h.exclusive (List.mem_reverse.mp hf))
  | complete id token now result =>
    cases result with
    | nack delay position => simp [Op.succeeded, Op.failed]
    | success | fail =>
      have hne : i ≠ id := by
        rintro rfl
        simpa using hend token now _ rfl
      simp [Op.succeeded, Op.failed, hne]
  | _ => simp [Op.succeeded, Op.failed]

omit hop in
theorem leases {l : String × LeaseToken} (hl : l ∈ (op.apply ⟨.active, maxSuccess, maxFailed⟩ q).leases) :
    l ∈ q.leases ∨ ∃ now pop batch, op = .pop now pop batch ∧ l.2.pop = pop := by
  cases op with
  | push id data now delay position => exact .inl (push_leases q id data now delay position ▸ hl)
  | pop now pop batch =>
    have hpolls : Queue.Polls pop (fun _ => True) ([], q) ([], (q.popBatch now pop batch).1) :=
      h.exclusive.popBatch_polls (fun _ => trivial) now batch
    exact (hpolls.leases.2 l hl).imp_right fun hpop => ⟨now, pop, batch, rfl, hpop⟩
  | cancel id now => exact .inl (cancelJob_leases q id now ▸ hl)
  | complete id token now result =>
    rw [Op.apply, Queue.complete] at hl
    split_ifs at hl
    · rw [(finish_frame ..).1] at hl
      exact .inl (mem_srem.mp hl).1
    · exact .inl hl
  | expire id token => exact .inl (mem_srem.mp hl).1
  | pruneSuccess => exact .inl ((pruned_pruneSuccess _ q).leases ▸ hl)
  | pruneFailed => exact .inl ((pruned_pruneFailed _ q).leases ▸ hl)

end

end Queue.Uncancelled

end EngineCore.Twmq
