import EngineCore.Twmq.Cancellation

/-!
# Deduplication of live jobs

In the active mode an id should be known to deduplication exactly while it is live. A completion
takes care of this; a cancellation does not: it ends a job and leaves its id in the set.

* **`dedup_exact_iff`**: when the set is exact along a whole run;
* **`dedup_keeps_cancelled`**: a run in which it is not.
-/

namespace EngineCore.Twmq

open Redis

variable {δ : Type}

/-- The deduplication set holds the live ids. -/
def Queue.Exact (q : Queue δ) : Prop := ∀ id, (id ∈ q.dedup ↔ id ∈ q.index) ∧
  ∀ data now delay position, (q.push id data now delay position).2 = false ↔ id ∈ q.index

def MultilaneQueue.Exact (m : MultilaneQueue δ) : Prop := ∀ id, (id ∈ m.dedup ↔ m.Live id) ∧
  ∀ lane data now delay position,
    (m.pushToLane lane id data now delay position).2 = false ↔ m.Live id

/-- The operation does not end a live job by a cancellation. -/
def Op.Spares (q : Queue δ) : Op δ → Prop
  | .cancel id now => (q.cancelJob id now).2 ≠ .cancelledImmediately
  | .pop now popId batch => ∀ id ∈ (q.popBatch now popId batch).2.2, id ∉ q.index
  | _ => True

def LaneOp.Spares (s : Multilane δ) : LaneOp δ → Prop
  | .cancel id now => (s.queue.cancelJob id now).2 ≠ .cancelledImmediately
  | .pop now popId batch =>
    popId ∈ s.pops ∨ ∀ id ∈ (s.queue.popBatch now popId batch).2.2, ¬s.queue.Live id
  | _ => True

/-! ## Ids that are not live -/

namespace Queue

variable {i : String} {hand hand' : List String} {q q' : Queue δ} {pop : String}

theorem idle_poll (h : i ∉ hand ∧ i ∉ q.index) {who : Option String}
    (hpoll : q.Poll pop who hand hand' q') : i ∉ hand' ∧ i ∉ q'.index := by
  rw [← not_or] at h ⊢
  by_cases hi : who = some i
  swap
  · exact mt (hpoll.apart hi).index.mp h
  subst hi
  cases hpoll with
  | reclaim hactive hlapsed => exact absurd (.inr (by simp [mem_index, hactive])) h
  | resolve hidle hdone => exact h
  | stop now hasked hactive hopen => simp [mem_index, Queue.stop, Queue.withMeta, hactive]
  | mature hdelayed => exact absurd (.inr (by simp [mem_index, hdelayed])) h
  | lend now hdata | drop hdata => exact absurd (.inl (List.mem_cons_self ..)) h

theorem idle_polls {own : String → Prop} (hx : q.Exclusive own []) (h : i ∉ q.index)
    (hm : Queue.Polls pop own ([], q) ([], q')) : i ∉ q'.index :=
  (hm.keeps (P := fun hand q => i ∉ hand ∧ i ∉ q.index) (fun _ h hp _ => idle_poll h hp) hx
    ⟨List.not_mem_nil, h⟩).2.2

theorem idle_of_cancelled {own : String → Prop} (hall : ∀ id, own id) (now : ℕ) (ids : List String)
    (hx : q.Exclusive own []) (hn : ids.Nodup) (hids : ∀ j ∈ ids, j ∈ q.cancellations)
    (hi : i ∈ (q.cancelAll now ids).2) : i ∉ (q.cancelAll now ids).1.index := by
  induction ids generalizing q with
  | nil => exact absurd hi List.not_mem_nil
  | cons id ids ih =>
    obtain ⟨hnot, hnodup⟩ := List.nodup_cons.mp hn
    have hpolls : Queue.Polls "" own ([], q) ([], (q.cancelRequested now id).1) :=
      Queue.Exclusive.cancelRequested_polls now (hall id) (hids id (List.mem_cons_self ..))
    have hx₁ := hpolls.exclusive hx
    have hids₁ : ∀ j ∈ ids, j ∈ (q.cancelRequested now id).1.cancellations := fun j hj =>
      mem_cancellations_cancelRequested (fun he => hnot (he ▸ hj)) (hids j (List.mem_cons_of_mem _ hj))
    rw [Queue.cancelAll] at hi ⊢
    by_cases hrest : i ∈ ((q.cancelRequested now id).1.cancelAll now ids).2
    · exact ih hx₁ hnodup hids₁ hrest
    · have hone : (q.cancelRequested now id).2 = true ∧ i = id := by
        by_cases hc : (q.cancelRequested now id).2 = true
        · simp only [hc, if_true] at hi
          exact ⟨hc, (List.mem_cons.mp hi).resolve_right hrest⟩
        · simp only [hc] at hi
          exact absurd hi hrest
      obtain ⟨hc, rfl⟩ := hone
      have hlater : Queue.Polls "" own ([], (q.cancelRequested now i).1)
          ([], ((q.cancelRequested now i).1.cancelAll now ids).1) :=
        Queue.Exclusive.cancelAll_polls hall now _ hnodup hids₁
      refine idle_polls hx₁ ?_ hlater
      rcases cancelRequested_cases q now i with ⟨-, he⟩ | ⟨-, -, he⟩ | ⟨hactive, -, he⟩
      · rw [he] at hc
        cases hc
      · rw [he] at hc
        cases hc
      · rw [he]
        simp [mem_index, Queue.stop, Queue.withMeta, hactive]

theorem idle_of_cancelJob {own : String → Prop} (hx : q.Exclusive own []) {now : ℕ}
    (hresult : (q.cancelJob i now).2 = .cancelledImmediately) :
    i ∈ q.index ∧ i ∉ (q.cancelJob i now).1.index ∧ (q.cancelJob i now).1.dedup = q.dedup := by
  have hactive : i ∈ q.pending ∨ i ∈ keys q.delayed → i ∉ keys q.active := fun hidle ha =>
    hidle.elim (hx.active_only ha).2.1 (hx.active_only ha).2.2
  have hdelayed : i ∈ q.pending → i ∉ keys q.delayed := by
    intro hp hd
    have hn := hx.nodup_index
    unfold Queue.index at hn
    exact (List.nodup_append.mp hn.of_append_left).2.2 i hp i hd rfl
  unfold Queue.cancelJob at hresult ⊢
  simp only at hresult ⊢
  split_ifs at hresult ⊢ with hp hd
  · refine ⟨by simp [mem_index, hp], ?_, rfl⟩
    simp [mem_index, Queue.withMeta, hdelayed hp, hactive (.inl hp)]
  · refine ⟨by simp [mem_index, hd], ?_, rfl⟩
    simp [mem_index, Queue.withMeta, hp, hactive (.inr hd)]

end Queue

/-! ## One operation of the single-lane queue -/

section Single

variable {q : Queue δ} {maxSuccess maxFailed : ℕ}

theorem exact_iff {own : String → Prop} (hx : q.Exclusive own []) :
    q.Exact ↔ ∀ id ∈ q.dedup, id ∈ q.index := by
  refine ⟨fun h id => (h id).1.mp, fun h id => ?_⟩
  have hid : id ∈ q.dedup ↔ id ∈ q.index := ⟨h id, hx.known id⟩
  refine ⟨hid, fun data now delay position => ?_⟩
  rw [push_absorbed, hid]

theorem mem_dedup_apart {i : String} {q' : Queue δ} (ha : Queue.Apart i [] q [] q')
    (h : i ∈ q.dedup → i ∈ q.index) (hi : i ∈ q'.dedup) : i ∈ q'.index := by
  have hindex := ha.index
  simp only [List.not_mem_nil, false_or] at hindex
  exact hindex.mpr (h (ha.dedup.mp hi))

theorem mem_dedup_finish {id : String} {token : LeaseToken} {now : ℕ} {result : JobResult}
    (hi : id ∈ (q.finish ⟨.active, maxSuccess, maxFailed⟩ id token now result).dedup) :
    id ∈ (q.finish ⟨.active, maxSuccess, maxFailed⟩ id token now result).index := by
  cases result with
  | success | fail => simp [Queue.finish, Queue.forget] at hi
  | nack delay position => exact (mem_index_nack ..).mpr (.inl rfl)

theorem mem_index_push {id : String} {data : δ} {now delay : ℕ} {position : Position}
    (hnew : id ∉ q.dedup) : id ∈ (q.push id data now delay position).1.index := by
  unfold Queue.push
  rw [if_neg hnew]
  split_ifs
  · simp [mem_index]
  · exact (enqueue_index_perm _ _ _).mem_iff.mpr (List.mem_cons_self ..)

theorem mem_dedup_pruned {q' : Queue δ} {i : String} (hp : q.Pruned q')
    (h : i ∈ q.dedup → i ∈ q.index) (hi : i ∈ q'.dedup) : i ∈ q'.index := by
  rw [hp.index]
  rcases hp.records i with hs | hs
  · exact h (hs.dedup.mp hi)
  · exact absurd hi hs.2.dedup

theorem idle_of_popped (hx : q.Exclusive (fun _ => True) []) (now : ℕ) (pop : String) (batch : ℕ)
    {i : String} (hi : i ∈ (q.popBatch now pop batch).2.2) :
    i ∉ (q.popBatch now pop batch).1.index := by
  have hx₁ := (hx.reclaimed pop).exclusive hx
  have hx₂ := (hx₁.stopping pop (fun _ => trivial) now).exclusive hx₁
  have hidle : i ∉ (q.stopped now).1.index :=
    Queue.idle_of_cancelled (fun _ => trivial) now _ hx₁ hx₁.asked (fun _ hj => hj) hi
  have hmature := hx₂.matured pop now
  exact Queue.idle_polls hx₂ hidle (hmature.trans ((hmature.exclusive hx₂).lent now batch))

/-- **An operation keeps the set exact if and only if it spares the live jobs.** -/
theorem Op.exact_iff (hx : q.Exclusive (fun _ => True) []) (h : q.Exact) (op : Op δ) :
    (op.apply ⟨.active, maxSuccess, maxFailed⟩ q).Exact ↔ op.Spares q := by
  have hlive : ∀ id ∈ q.dedup, id ∈ q.index := fun id => (h id).1.mp
  rw [Twmq.exact_iff (Op.exclusive hx op)]
  cases op with
  | push id data now delay position =>
    refine ⟨fun _ => trivial, fun _ i hi => ?_⟩
    by_cases hne : i = id
    · subst hne
      by_cases hknown : i ∈ q.dedup
      · have he : (q.push i data now delay position).1 = q := by simp [Queue.push, hknown]
        rw [Op.apply, he]
        exact hlive i hknown
      · exact mem_index_push hknown
    · exact mem_dedup_apart (apart_push hne data now delay position) (hlive i) hi
  | pop now popId batch =>
    have hpolls : Queue.Polls popId (fun _ => True) ([], q) _ :=
      hx.popBatch_polls (fun _ => trivial) now batch
    have hdedup : (q.popBatch now popId batch).1.dedup = q.dedup := hpolls.leases.1
    refine ⟨fun hexact id hid hin => ?_, fun hspares id hid => ?_⟩
    · exact idle_of_popped hx now popId batch hid (hexact id (hdedup ▸ hx.known id hin))
    · have hin := hlive id (hdedup ▸ hid)
      rcases (popBatch_conserves ⟨.active, maxSuccess, maxFailed⟩ hx now popId batch).live id hin with
        hin' | hnone | hcancelled
      · exact hin'
      · exact absurd hnone List.not_mem_nil
      · exact absurd hin (hspares id (List.mem_reverse.mp hcancelled))
  | cancel id now =>
    rw [Op.apply, Op.Spares]
    by_cases hresult : (q.cancelJob id now).2 = .cancelledImmediately
    · obtain ⟨hin, hout, hdedup⟩ := Queue.idle_of_cancelJob hx hresult
      refine ⟨fun hexact => absurd (hexact id (hdedup ▸ hx.known id hin)) hout, fun hspares => ?_⟩
      exact absurd hresult hspares
    · refine ⟨fun _ => hresult, fun _ => ?_⟩
      rcases cancelJob_cases q id now with ⟨-, he⟩ | ⟨-, he⟩ | ⟨-, he⟩
      · exact absurd he hresult
      · rw [he]
        exact hlive
      · rw [he]
        exact hlive
  | complete id token now result =>
    refine ⟨fun _ => trivial, fun _ i hi => ?_⟩
    rw [Op.apply, Queue.complete] at hi ⊢
    split_ifs at hi ⊢
    · by_cases hne : i = id
      · subst hne
        exact mem_dedup_finish hi
      · exact mem_dedup_apart (apart_finish hne _ token now result) (hlive i) hi
    · exact hlive i hi
  | expire id token => exact ⟨fun _ => trivial, fun _ => hlive⟩
  | pruneSuccess =>
    exact ⟨fun _ => trivial, fun _ i => mem_dedup_pruned (pruned_pruneSuccess _ q) (hlive i)⟩
  | pruneFailed =>
    exact ⟨fun _ => trivial, fun _ i => mem_dedup_pruned (pruned_pruneFailed _ q) (hlive i)⟩

end Single

/-! ## One operation of the multilane queue -/

namespace MultilaneQueue

variable {i : String} {m : MultilaneQueue δ} {lane : String} {q : Queue δ} {pop : String}

theorem index_put_of_ne {lane' : String} (hne : lane' ≠ lane) :
    ((m.put lane q).view lane').index = (m.view lane').index := by
  simp [view, put, Queue.index, hne]

theorem live_put (h : i ∈ (m.view lane).index → i ∈ q.index) (hl : m.Live i) :
    (m.put lane q).Live i := by
  obtain ⟨lane', hi⟩ := hl
  by_cases he : lane' = lane
  · subst he
    refine ⟨lane', ?_⟩
    rw [view_put_self]
    exact h hi
  · refine ⟨lane', ?_⟩
    rw [index_put_of_ne he]
    exact hi

theorem live_cleanupLaneLeases (hl : m.Live i) : (m.cleanupLaneLeases lane).Live i :=
  live_put ((reclaimAll_lists _ _).2.2 i) hl

theorem live_cancelRequested {id : String} {now : ℕ} (hl : m.Live i) :
    (m.cancelRequested now id).1.Live i ∨ i = id ∧ (m.cancelRequested now id).2 = true := by
  unfold MultilaneQueue.cancelRequested
  cases m.laneId id with
  | none => exact .inl hl
  | some lane =>
    have hclean : (m.cleanupLaneLeases lane).Live i := live_cleanupLaneLeases hl
    simp only
    rcases cancelRequested_cases ((m.cleanupLaneLeases lane).view lane) now id with
      ⟨-, he⟩ | ⟨-, -, he⟩ | ⟨-, -, he⟩
    · rw [he]
      exact .inl (live_put (fun hi => hi) hclean)
    · rw [he]
      exact .inl (live_put (fun hi => hi) hclean)
    · rw [he]
      by_cases hne : i = id
      · exact .inr ⟨hne, rfl⟩
      · refine .inl (live_put (fun hi => ?_) hclean)
        rw [mem_index] at hi ⊢
        simpa [Queue.stop, Queue.withMeta, hne] using hi

theorem live_cancelAll (now : ℕ) (ids : List String) (hl : m.Live i) :
    (m.cancelAll now ids).1.Live i ∨ i ∈ (m.cancelAll now ids).2 := by
  induction ids generalizing m with
  | nil => exact .inl hl
  | cons id ids ih =>
    have hone : (m.cancelRequested now id).1.Live i ∨ i = id ∧ (m.cancelRequested now id).2 = true :=
      live_cancelRequested hl
    simp only [MultilaneQueue.cancelAll]
    rcases hone with hl | ⟨rfl, hc⟩
    · refine (ih hl).imp_right fun hi => ?_
      split_ifs
      · exact List.mem_cons_of_mem _ hi
      · exact hi
    · refine .inr ?_
      simp only [hc, if_true]
      exact List.mem_cons_self ..

theorem live_popJobFromLane (hx : m.Exclusive) (now : ℕ) (hl : m.Live i) :
    (m.popJobFromLane now pop lane).1.Live i := by
  unfold MultilaneQueue.popJobFromLane
  cases hlast : (m.lane lane).pending.getLast? with
  | none => exact hl
  | some id =>
    obtain ⟨rest, hrest⟩ := List.getLast?_eq_some_iff.mp hlast
    have hpending : (m.view lane).pending = rest ++ [id] := hrest
    have hdata : ∀ j ∈ [id], (m.data j).isSome := by
      intro j hj
      refine ((hx.lanes lane).stored j (mem_index.mpr (.inl ?_))).data
      rw [hpending, List.mem_singleton.mp hj]
      simp
    refine live_put (fun hi => ?_) hl
    refine (lendAll_lists now pop [id] _ hdata).2.2 i ?_
    rw [mem_index] at hi ⊢
    rw [hpending] at hi
    simp only [hrest, List.dropLast_concat]
    simp only [List.mem_append] at hi
    tauto

theorem live_drain (now rounds n : ℕ) (todo : List (String × ℕ)) (hx : m.Exclusive)
    (hl : m.Live i) : (m.drain now pop rounds n todo).1.Live i := by
  refine (drain_keeps (P := fun m => m.Exclusive ∧ m.Live i) (J := fun _ => True)
    (fun m lane hm => ?_) (fun m lane hm => ⟨?_, fun _ _ => trivial⟩) (fun m lane hm => ?_) rounds n
    todo ⟨hx, hl⟩).1.2
  · have hvisit : Polls pop m (m.visit now lane) := hm.1.visit now lane
    refine ⟨hvisit.exclusive hm.1, ?_⟩
    exact live_put ((matureAll_lists _ _).2.2 i) (live_cleanupLaneLeases hm.2)
  · have hpop : Polls pop m _ := hm.1.popJobFromLane now lane
    exact ⟨hpop.exclusive hm.1, live_popJobFromLane hm.1 now hm.2⟩
  · have hdrop : Polls pop m (m.dropLane lane) := polls_dropLane
    refine ⟨hdrop.exclusive hm.1, ?_⟩
    unfold MultilaneQueue.dropLane
    split_ifs
    · exact hm.2
    · exact hm.2

theorem live_popBatch (hx : m.Exclusive) (now batch : ℕ) (hl : m.Live i) :
    (m.popBatch now pop batch).1.Live i ∨ i ∈ (m.popBatch now pop batch).2.2 := by
  have hpolls : Polls pop m (m.cancelAll now m.cancellations).1 :=
    hx.cancelAll now _ hx.nodup_cancellations fun _ hi => hi
  rcases live_cancelAll now m.cancellations hl with hl | hi
  · exact .inl (live_drain now _ batch _ (hpolls.exclusive hx) hl)
  · exact .inr hi

theorem idle_polls {m' : MultilaneQueue δ} (hm : Polls pop m m') (hx : m.Exclusive)
    (h : ¬m.Live i) : ¬m'.Live i := by
  have hall := hm.keeps_local (p := fun hand q => i ∉ hand ∧ i ∉ q.index)
    (fun ha hq => ⟨List.not_mem_nil, by simpa [hq.2] using ha.index⟩)
    (fun hi => ⟨List.not_mem_nil, hi⟩) (fun hq hp => Queue.idle_poll hq hp) hx
    fun lane => ⟨List.not_mem_nil, fun hi => h ⟨lane, hi⟩⟩
  exact fun ⟨lane, hi⟩ => (hall lane).2 hi

theorem idle_put (hx : m.Exclusive) (hlane : m.laneId i = some lane) (hi : i ∉ q.index) :
    ¬(m.put lane q).Live i := by
  rintro ⟨lane', hin⟩
  by_cases he : lane' = lane
  · subst he
    rw [view_put_self] at hin
    exact hi hin
  · rw [index_put_of_ne he] at hin
    exact he (Option.some.inj ((hx.laneId_of_mem hin).symm.trans hlane))

theorem idle_of_cancelRequested (hx : m.Exclusive) {now : ℕ}
    (hc : (m.cancelRequested now i).2 = true) : ¬(m.cancelRequested now i).1.Live i := by
  unfold MultilaneQueue.cancelRequested at hc ⊢
  cases hlane : m.laneId i with
  | none =>
    rw [hlane] at hc
    cases hc
  | some lane =>
    rw [hlane] at hc
    have hclean : Polls "" m (m.cleanupLaneLeases lane) := hx.cleanupLaneLeases lane
    refine idle_put (hclean.exclusive hx) hlane ?_
    rcases cancelRequested_cases ((m.cleanupLaneLeases lane).view lane) now i with
      ⟨-, he⟩ | ⟨-, -, he⟩ | ⟨hactive, -, he⟩
    · simp [he] at hc
    · simp [he] at hc
    · rw [he]
      simp [mem_index, Queue.stop, Queue.withMeta, hactive]

theorem idle_of_cancelled (now : ℕ) (ids : List String) (hx : m.Exclusive) (hn : ids.Nodup)
    (hids : ∀ j ∈ ids, j ∈ m.cancellations) (hi : i ∈ (m.cancelAll now ids).2) :
    ¬(m.cancelAll now ids).1.Live i := by
  induction ids generalizing m with
  | nil => exact absurd hi List.not_mem_nil
  | cons id ids ih =>
    obtain ⟨hnot, hnodup⟩ := List.nodup_cons.mp hn
    have hpolls : Polls "" m (m.cancelRequested now id).1 :=
      hx.cancelRequested now (hids id (List.mem_cons_self ..))
    have hx₁ := hpolls.exclusive hx
    have hids₁ : ∀ j ∈ ids, j ∈ (m.cancelRequested now id).1.cancellations := fun j hj =>
      mem_cancellations (fun he => hnot (he ▸ hj)) (hids j (List.mem_cons_of_mem _ hj))
    rw [MultilaneQueue.cancelAll] at hi ⊢
    by_cases hrest : i ∈ ((m.cancelRequested now id).1.cancelAll now ids).2
    · exact ih hx₁ hnodup hids₁ hrest
    · have hone : (m.cancelRequested now id).2 = true ∧ i = id := by
        by_cases hc : (m.cancelRequested now id).2 = true
        · simp only [hc, if_true] at hi
          exact ⟨hc, (List.mem_cons.mp hi).resolve_right hrest⟩
        · simp only [hc] at hi
          exact absurd hi hrest
      obtain ⟨hc, rfl⟩ := hone
      have hlater : Polls "" (m.cancelRequested now i).1
          ((m.cancelRequested now i).1.cancelAll now ids).1 := hx₁.cancelAll now _ hnodup hids₁
      exact idle_polls hlater hx₁ (idle_of_cancelRequested hx hc)

theorem idle_of_popped (hx : m.Exclusive) (now batch : ℕ)
    (hi : i ∈ (m.popBatch now pop batch).2.2) : ¬(m.popBatch now pop batch).1.Live i := by
  have hpolls : Polls pop m (m.cancelAll now m.cancellations).1 :=
    hx.cancelAll now _ hx.nodup_cancellations fun _ hj => hj
  have hx₁ := hpolls.exclusive hx
  have hidle := idle_of_cancelled now _ hx hx.nodup_cancellations (fun _ hj => hj) hi
  exact idle_polls (hx₁.drain now _ batch _) hx₁ hidle

theorem exact_iff (hx : m.Exclusive) : m.Exact ↔ ∀ id ∈ m.dedup, m.Live id := by
  refine ⟨fun h id => (h id).1.mp, fun h id => ?_⟩
  have hid : id ∈ m.dedup ↔ m.Live id := ⟨h id, hx.known⟩
  refine ⟨hid, fun lane data now delay position => ?_⟩
  rw [← hid]
  unfold MultilaneQueue.pushToLane
  split_ifs with hknown <;> simp [hknown]

theorem idle_of_cancelJob (hx : m.Exclusive) {now : ℕ}
    (hresult : (m.cancelJob i now).2 = .cancelledImmediately) :
    m.Live i ∧ ¬(m.cancelJob i now).1.Live i ∧ (m.cancelJob i now).1.dedup = m.dedup := by
  unfold MultilaneQueue.cancelJob at hresult ⊢
  cases hlane : m.laneId i with
  | none =>
    rw [hlane] at hresult
    cases hresult
  | some lane =>
    rw [hlane] at hresult
    obtain ⟨hin, hout, hdedup⟩ := Queue.idle_of_cancelJob (hx.lanes lane) hresult
    exact ⟨⟨lane, hin⟩, idle_put hx hlane hout, hdedup⟩

theorem cancelJob_spares {id : String} {now : ℕ}
    (hresult : (m.cancelJob id now).2 ≠ .cancelledImmediately) :
    (m.cancelJob id now).1.dedup = m.dedup ∧ (m.Live i → (m.cancelJob id now).1.Live i) := by
  unfold MultilaneQueue.cancelJob at hresult ⊢
  cases hlane : m.laneId id with
  | none => exact ⟨rfl, fun hl => hl⟩
  | some lane =>
    rw [hlane] at hresult
    simp only at hresult ⊢
    rcases cancelJob_cases (m.view lane) id now with ⟨-, he⟩ | ⟨-, he⟩ | ⟨-, he⟩
    · exact absurd he hresult
    · rw [he]
      exact ⟨rfl, live_put fun hi => hi⟩
    · rw [he]
      exact ⟨rfl, live_put fun hi => hi⟩

theorem mem_dedup_pruneOne {id : String} (h : ∀ i ∈ m.dedup, m.Live i) :
    ∀ i ∈ (m.pruneOne id).dedup, (m.pruneOne id).Live i := by
  intro i hi
  unfold MultilaneQueue.pruneOne at hi ⊢
  split_ifs at hi ⊢ with hid
  · exact h i (mem_srem.mp hi).1
  · exact h i hi

theorem mem_dedup_pruneAll (ids : List String) (h : ∀ i ∈ m.dedup, m.Live i) :
    ∀ i ∈ (ids.foldl MultilaneQueue.pruneOne m).dedup, (ids.foldl MultilaneQueue.pruneOne m).Live i := by
  induction ids generalizing m with
  | nil => exact h
  | cons id ids ih => exact ih (mem_dedup_pruneOne h)

theorem mem_dedup_put (id : String) (h : i ∈ m.dedup → m.Live i)
    (hapart : i ≠ id → Queue.Apart i [] (m.view lane) [] q)
    (hid : id ∈ q.dedup → id ∈ q.index) (hi : i ∈ q.dedup) : (m.put lane q).Live i := by
  by_cases hne : i = id
  · subst hne
    refine ⟨lane, ?_⟩
    rw [view_put_self]
    exact hid hi
  · have ha := hapart hne
    have hindex := ha.index
    simp only [List.not_mem_nil, false_or] at hindex
    exact live_put hindex.mpr (h (ha.dedup.mp hi))

end MultilaneQueue

section Lanes

variable {s : Multilane δ} {maxSuccess maxFailed : ℕ}

/-- **An operation keeps the set exact if and only if it spares the live jobs.** -/
theorem LaneOp.exact_iff (hx : s.Inv) (h : s.queue.Exact) (op : LaneOp δ) :
    (op.apply ⟨.active, maxSuccess, maxFailed⟩ s).queue.Exact ↔ op.Spares s := by
  have hlive : ∀ id ∈ s.queue.dedup, s.queue.Live id := fun id => (h id).1.mp
  rw [MultilaneQueue.exact_iff (hx.apply _ op).queue]
  cases op with
  | push lane id data now delay position =>
    refine ⟨fun _ => trivial, fun _ i hi => ?_⟩
    rw [LaneOp.apply, MultilaneQueue.pushToLane] at hi ⊢
    split_ifs at hi ⊢ with hknown
    · exact hlive i hi
    · have hput : MultilaneQueue.Live (MultilaneQueue.put
          { s.queue with laneId := Function.update s.queue.laneId id (some lane) } lane _) i :=
        MultilaneQueue.mem_dedup_put id (hlive i) (fun hne => apart_push hne data now delay position)
          (fun _ => mem_index_push hknown) hi
      exact hput
  | pop now popId batch =>
    rw [LaneOp.apply, LaneOp.Spares]
    by_cases hused : popId ∈ s.pops
    · rw [if_pos hused]
      exact ⟨fun _ => .inl hused, fun _ => hlive⟩
    rw [if_neg hused]
    have hpolls : s.queue.Polls popId (s.queue.popBatch now popId batch).1 :=
      hx.queue.popBatch now batch
    have hdedup := hpolls.leases.2.1
    refine ⟨fun hexact => .inr fun id hid hin => ?_, fun hspares id hid => ?_⟩
    · exact MultilaneQueue.idle_of_popped hx.queue now batch hid
        (hexact id (hdedup ▸ hx.queue.known hin))
    · have hin := hlive id (hdedup ▸ hid)
      refine (MultilaneQueue.live_popBatch hx.queue now batch hin).resolve_right fun hc => ?_
      exact hspares.resolve_left hused id hc hin
  | cancel id now =>
    rw [LaneOp.apply, LaneOp.Spares]
    by_cases hresult : (s.queue.cancelJob id now).2 = .cancelledImmediately
    · obtain ⟨hin, hout, hdedup⟩ := MultilaneQueue.idle_of_cancelJob hx.queue hresult
      refine ⟨fun hexact => absurd (hexact id (hdedup ▸ hx.queue.known hin)) hout, fun hspares => ?_⟩
      exact absurd hresult hspares
    · refine ⟨fun _ => hresult, fun _ i hi => ?_⟩
      obtain ⟨hdedup, hkeep⟩ := MultilaneQueue.cancelJob_spares (i := i) hresult
      exact hkeep (hlive i (hdedup ▸ hi))
  | read id token =>
    refine ⟨fun _ => trivial, fun _ => ?_⟩
    rw [LaneOp.apply]
    split_ifs
    · exact hlive
    · exact hlive
  | complete call now ending =>
    refine ⟨fun _ => trivial, fun _ => ?_⟩
    rw [LaneOp.apply]
    split_ifs with hcall
    swap
    · exact hlive
    cases call.target ending with
    | none => exact hlive
    | some lane =>
      intro i hi
      exact MultilaneQueue.mem_dedup_put call.id (hlive i) (fun hne => apart_finish hne _ _ _ _)
        mem_dedup_finish hi
  | expire id token => exact ⟨fun _ => trivial, fun _ => hlive⟩
  | pruneSuccess | pruneFailed =>
    exact ⟨fun _ => trivial, fun _ => MultilaneQueue.mem_dedup_pruneAll _ hlive⟩

end Lanes

/-! ## Runs -/

/-- A property that each step keeps exactly under a condition holds along a run exactly if the
condition does. -/
theorem prefixes_iff {α : Type} {P : List α → Prop} {C : List α → α → Prop} (hnil : P [])
    (hstep : ∀ pre a, P pre → (P (pre ++ [a]) ↔ C pre a)) (l : List α) :
    (∀ pre, pre <+: l → P pre) ↔ ∀ pre a, pre ++ [a] <+: l → C pre a := by
  constructor
  · intro h pre a hpre
    exact (hstep pre a (h pre ((List.prefix_append pre [a]).trans hpre))).mp (h _ hpre)
  · intro h pre hpre
    induction pre using List.reverseRecOn with
    | nil => exact hnil
    | append_singleton pre a ih =>
      exact (hstep pre a (ih ((List.prefix_append pre [a]).trans hpre))).mpr (h pre a hpre)

/-- **The set is exact along a run if and only if no operation ends a live job by a cancellation**,
in both queues. -/
theorem dedup_exact_iff (maxSuccess maxFailed : ℕ) :
    (∀ ops : List (Op δ),
      (∀ pre, pre <+: ops → (Queue.run ⟨.active, maxSuccess, maxFailed⟩ pre).Exact) ↔
      ∀ pre op, pre ++ [op] <+: ops → op.Spares (Queue.run ⟨.active, maxSuccess, maxFailed⟩ pre)) ∧
    ∀ ops : List (LaneOp δ),
      (∀ pre, pre <+: ops → (Multilane.run ⟨.active, maxSuccess, maxFailed⟩ pre).queue.Exact) ↔
      ∀ pre op, pre ++ [op] <+: ops →
        op.Spares (Multilane.run ⟨.active, maxSuccess, maxFailed⟩ pre) := by
  refine ⟨prefixes_iff ?_ fun pre op h => ?_, prefixes_iff ?_ fun pre op h => ?_⟩
  · have hempty : ({} : Queue δ).Exclusive (fun _ => True) [] := .empty
    exact (exact_iff hempty).mpr (by simp)
  · rw [Queue.run, List.foldl_append]
    exact Op.exact_iff (run_exclusive pre) h op
  · exact (MultilaneQueue.exact_iff .empty).mpr (by simp)
  · rw [Multilane.run, List.foldl_append]
    exact LaneOp.exact_iff (run_inv _ pre) h op

/-- A pending job `a` is cancelled: its id stays in the set and cannot be pushed again. -/
theorem dedup_keeps_cancelled :
    ¬(Queue.run ⟨.active, 100, 100⟩ [.push "a" () 0 0 .last, .cancel "a" 1]).Exact ∧
    ¬(Multilane.run ⟨.active, 100, 100⟩
      [.push "l" "a" () 0 0 .last, .cancel "a" 1]).queue.Exact := by
  constructor
  · intro h
    have hlive := (h "a").1.mp (by decide)
    exact absurd hlive (by decide)
  · intro h
    have hinv := run_inv (δ := Unit) ⟨.active, 100, 100⟩ [.push "l" "a" () 0 0 .last]
    have hresult : ((Multilane.run ⟨.active, 100, 100⟩
        [.push "l" "a" () 0 0 .last]).queue.cancelJob "a" 1).2 = .cancelledImmediately := by decide
    exact (MultilaneQueue.idle_of_cancelJob hinv.queue hresult).2.1 ((h "a").1.mp (by decide))

end EngineCore.Twmq
