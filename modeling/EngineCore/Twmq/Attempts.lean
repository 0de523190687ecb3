import EngineCore.Twmq.Cancellation

/-!
# What the attempt counter counts

The counter of a job goes up when the job is borrowed, and also when a pop finds its lease lapsed and
takes it back.

* **`attempts_eq_iff`**: for both queues, the attempts handed out with a job are the borrows since its
  admission exactly when no pop since then took it back; **`attempts_count_lapses`**: runs where one
  did.
-/

namespace EngineCore.Twmq

open Redis

variable {δ : Type}

/-! ## Counting -/

/-- The job is active and its lease has lapsed. -/
def Queue.Overdue (q : Queue δ) (i : String) : Prop := i ∈ keys q.active ∧ q.Lapsed i

instance (q : Queue δ) (i : String) : Decidable (q.Overdue i) :=
  inferInstanceAs (Decidable (_ ∧ _))

def MultilaneQueue.Overdue (m : MultilaneQueue δ) (i : String) : Prop :=
  (m.laneId i).elim False fun lane => (m.view lane).Overdue i

instance (m : MultilaneQueue δ) (i : String) : Decidable (m.Overdue i) :=
  match h : m.laneId i with
  | none => isFalse (by simp [MultilaneQueue.Overdue, h])
  | some lane => decidable_of_iff ((m.view lane).Overdue i) (by simp [MultilaneQueue.Overdue, h])

/-- How often each job was borrowed, and how often it was taken back, since its admission. -/
structure Tally where
  borrowed : String → ℕ := fun _ => 0
  reclaimed : String → ℕ := fun _ => 0

def Tally.enter (t : Tally) (id : String) : Tally where
  borrowed := Function.update t.borrowed id 0
  reclaimed := Function.update t.reclaimed id 0

/-- A pop lends the jobs. It takes back those that were overdue before it and are not after it. -/
def Tally.pop (t : Tally) (jobs : List (BorrowedJob δ)) (before after : String → Prop)
    [DecidablePred before] [DecidablePred after] : Tally where
  borrowed i := t.borrowed i + (jobs.map BorrowedJob.id).count i
  reclaimed i := t.reclaimed i + if before i ∧ ¬after i then 1 else 0

def Op.tally (q : Queue δ) (t : Tally) : Op δ → Tally
  | .push id .. => if id ∈ q.dedup then t else t.enter id
  | .pop now popId batch =>
    t.pop (q.popBatch now popId batch).2.1 q.Overdue (q.popBatch now popId batch).1.Overdue
  | _ => t

def LaneOp.tally (s : Multilane δ) (t : Tally) : LaneOp δ → Tally
  | .push _ id .. => if id ∈ s.queue.dedup then t else t.enter id
  | .pop now popId batch =>
    if popId ∈ s.pops then t
    else t.pop (s.queue.popBatch now popId batch).2.1 s.queue.Overdue
      (s.queue.popBatch now popId batch).1.Overdue
  | _ => t

def Queue.tally (options : QueueOptions) (ops : List (Op δ)) : Tally :=
  (ops.foldl (fun s op => (op.apply options s.1, op.tally s.1 s.2)) (({} : Queue δ), {})).2

def Multilane.tally (options : QueueOptions) (ops : List (LaneOp δ)) : Tally :=
  (ops.foldl (fun s op => (op.apply options s.1, op.tally s.1 s.2)) (({} : Multilane δ), {})).2

theorem foldl_pair_fst {σ τ α : Type} (f : σ → α → σ) (g : σ → τ → α → τ) (l : List α) (s : σ)
    (t : τ) : (l.foldl (fun s a => (f s.1 a, g s.1 s.2 a)) (s, t)).1 = l.foldl f s := by
  induction l generalizing s t with
  | nil => rfl
  | cons a l ih => exact ih (f s a) (g s t a)

theorem tally_snoc (options : QueueOptions) (ops : List (Op δ)) (op : Op δ) :
    Queue.tally options (ops ++ [op]) = op.tally (Queue.run options ops) (Queue.tally options ops) := by
  rw [Queue.tally, List.foldl_append, List.foldl_cons, List.foldl_nil, foldl_pair_fst, Queue.run,
    Queue.tally]

theorem Multilane.tally_snoc (options : QueueOptions) (ops : List (LaneOp δ)) (op : LaneOp δ) :
    Multilane.tally options (ops ++ [op]) =
      op.tally (Multilane.run options ops) (Multilane.tally options ops) := by
  rw [Multilane.tally, List.foldl_append, List.foldl_cons, List.foldl_nil, foldl_pair_fst,
    Multilane.run, Multilane.tally]

/-! ## The counter of one job -/

/-- The counters of the jobs, and the jobs a pop would take back. -/
structure Ledger where
  attempts : String → ℕ
  overdue : String → Prop

namespace Ledger

open Classical in
/-- The counter as it will be once the job is taken back. -/
noncomputable def worth (l : Ledger) (i : String) : ℕ := l.attempts i + if l.overdue i then 1 else 0

/-- A pop borrowed the job `n` times. -/
structure Lends (i : String) (n : ℕ) (l l' : Ledger) : Prop where
  worth : l'.worth i = l.worth i + n
  overdue : l'.overdue i → l.overdue i

/-- A pop lent these jobs: each is counted, and is handed out with its counter. -/
structure Gives (jobs : List (BorrowedJob δ)) (l l' : Ledger) : Prop where
  nodup : (jobs.map BorrowedJob.id).Nodup
  lends : ∀ i, Lends i ((jobs.map BorrowedJob.id).count i) l l'
  attempts : ∀ job ∈ jobs, job.attempts = l.worth job.id + 1 ∧ ¬l'.overdue job.id

/-- The counters of the known jobs are what was counted. -/
def Counted (t : Tally) (known : List String) (l : Ledger) : Prop :=
  ∀ i ∈ known, l.attempts i = t.borrowed i + t.reclaimed i

variable {i : String} {n n' : ℕ} {l l' l'' : Ledger} {jobs : List (BorrowedJob δ)}

theorem worth_of_overdue (h : l.overdue i) : l.worth i = l.attempts i + 1 := by
  rw [Ledger.worth, if_pos h]

theorem worth_of_not_overdue (h : ¬l.overdue i) : l.worth i = l.attempts i := by
  rw [Ledger.worth, if_neg h, Nat.add_zero]

theorem Lends.refl : Lends i 0 l l := ⟨rfl, id⟩

theorem Lends.trans (h : Lends i n l l') (h' : Lends i n' l' l'') : Lends i (n + n') l l'' where
  worth := by rw [h'.worth, h.worth, Nat.add_assoc]
  overdue ho := h.overdue (h'.overdue ho)

theorem Lends.of_same (hattempts : l'.attempts i = l.attempts i)
    (hoverdue : l'.overdue i ↔ l.overdue i) : Lends i 0 l l' := by
  refine ⟨?_, hoverdue.mp⟩
  by_cases ho : l.overdue i
  · rw [worth_of_overdue ho, worth_of_overdue (hoverdue.mpr ho), hattempts]
  · rw [worth_of_not_overdue ho, worth_of_not_overdue (fun h => ho (hoverdue.mp h)), hattempts,
      Nat.add_zero]

theorem Gives.nothing (h : ∀ i, Lends i 0 l l') : Gives ([] : List (BorrowedJob δ)) l l' :=
  ⟨List.nodup_nil, h, fun _ hin => absurd hin List.not_mem_nil⟩

theorem Gives.after (hbefore : ∀ i, Lends i 0 l l') (h : Gives jobs l' l'') : Gives jobs l l'' where
  nodup := h.nodup
  lends i := by
    have := (hbefore i).trans (h.lends i)
    rwa [Nat.zero_add] at this
  attempts job hin := by
    obtain ⟨hattempts, hover⟩ := h.attempts job hin
    rw [(hbefore job.id).worth, Nat.add_zero] at hattempts
    exact ⟨hattempts, hover⟩

theorem Gives.cons {job : BorrowedJob δ} (h : Gives [job] l l') (h' : Gives jobs l' l'')
    (hnew : job.id ∉ jobs.map BorrowedJob.id) : Gives (job :: jobs) l l'' where
  nodup := List.nodup_cons.mpr ⟨hnew, h'.nodup⟩
  lends i := by
    have hcount : ([job].map BorrowedJob.id).count i + (jobs.map BorrowedJob.id).count i =
        ((job :: jobs).map BorrowedJob.id).count i := by
      simp only [List.map_cons, List.map_nil, List.count_cons, List.count_nil]
      omega
    rw [← hcount]
    exact (h.lends i).trans (h'.lends i)
  attempts job' hin := by
    rcases List.mem_cons.mp hin with rfl | hin
    · obtain ⟨hattempts, hover⟩ := h.attempts job' (List.mem_singleton_self _)
      exact ⟨hattempts, fun ho => hover ((h'.lends job'.id).overdue ho)⟩
    · obtain ⟨hattempts, hover⟩ := h'.attempts job' hin
      have hne : job.id ≠ job'.id := fun he => hnew (he ▸ List.mem_map_of_mem hin)
      have hw := (h.lends job'.id).worth
      rw [List.map_singleton, List.count_singleton, beq_false_of_ne hne] at hw
      exact ⟨by rw [hattempts, hw]; rfl, hover⟩

section Pop

variable {t : Tally} {known : List String} [DecidablePred l.overdue] [DecidablePred l'.overdue]

theorem Counted.pop (h : Counted t known l) (hg : Gives jobs l l') :
    Counted (t.pop jobs l.overdue l'.overdue) known l' := by
  intro i hi
  have hbefore := h i hi
  have hworth := (hg.lends i).worth
  have hover := (hg.lends i).overdue
  simp only [Tally.pop]
  by_cases ho : l.overdue i
  · rw [worth_of_overdue ho] at hworth
    by_cases ho' : l'.overdue i
    · rw [worth_of_overdue ho'] at hworth
      rw [if_neg fun hx => hx.2 ho']
      omega
    · rw [worth_of_not_overdue ho'] at hworth
      rw [if_pos ⟨ho, ho'⟩]
      omega
  · rw [worth_of_not_overdue ho, worth_of_not_overdue fun hx => ho (hover hx)] at hworth
    rw [if_neg fun hx => ho hx.1]
    omega

theorem Counted.attempts_iff (h : Counted t known l) (hg : Gives jobs l l') {job : BorrowedJob δ}
    (hjob : job ∈ jobs) (hknown : job.id ∈ known) :
    job.attempts = (t.pop jobs l.overdue l'.overdue).borrowed job.id ↔
      (t.pop jobs l.overdue l'.overdue).reclaimed job.id = 0 := by
  obtain ⟨hattempts, hover⟩ := hg.attempts job hjob
  have hbefore := h job.id hknown
  have hone : (jobs.map BorrowedJob.id).count job.id = 1 :=
    List.count_eq_one_of_mem hg.nodup (List.mem_map_of_mem hjob)
  simp only [Tally.pop, hone]
  by_cases ho : l.overdue job.id
  · rw [hattempts, worth_of_overdue ho, if_pos ⟨ho, hover⟩]
    omega
  · rw [hattempts, worth_of_not_overdue ho, if_neg fun hx => ho hx.1]
    omega

end Pop

end Ledger

/-! ## The single-lane queue -/

def Queue.ledger (q : Queue δ) : Ledger := ⟨fun i => (q.jobs i).attempts.getD 0, q.Overdue⟩

instance (q : Queue δ) : DecidablePred q.ledger.overdue := inferInstanceAs (DecidablePred q.Overdue)

namespace Queue

open Ledger

variable {i : String} {q q' : Queue δ} {own : String → Prop}

theorem lends_of_same (hattempts : (q'.jobs i).attempts = (q.jobs i).attempts)
    (htoken : (q'.jobs i).leaseToken = (q.jobs i).leaseToken)
    (hactive : i ∈ keys q'.active ↔ i ∈ keys q.active)
    (hleases : ∀ token, (i, token) ∈ q'.leases ↔ (i, token) ∈ q.leases) :
    Lends i 0 q.ledger q'.ledger := by
  refine .of_same (by simp only [Queue.ledger, hattempts]) ?_
  simp only [Queue.ledger, Queue.Overdue, Queue.Lapsed, htoken, hactive, hleases]

theorem lends_of_apart (h : Queue.Apart i [] q [] q') : Lends i 0 q.ledger q'.ledger :=
  lends_of_same (by rw [h.jobs]) (by rw [h.jobs]) h.active h.leases

theorem lends_reclaim {id : String} (hactive : id ∈ keys q.active) :
    Lends i 0 q.ledger (q.reclaim id).ledger := by
  by_cases hlapsed : q.Lapsed id
  · by_cases hi : i = id
    · subst hi
      have hbefore : q.ledger.overdue i := ⟨hactive, hlapsed⟩
      have hafter : ¬(q.reclaim i).ledger.overdue i := by
        rw [Queue.reclaim, if_pos hlapsed]
        exact fun ho => (mem_keys_hdel.mp ho.1).2 rfl
      refine ⟨?_, fun ho => absurd ho hafter⟩
      rw [worth_of_not_overdue hafter, worth_of_overdue hbefore]
      simp [Queue.ledger, Queue.reclaim, hlapsed, Queue.withMeta, JobMeta.attempt]
    · have hpoll : q.Poll "" (some id) [] [] (q.reclaim id) := .reclaim hactive hlapsed
      exact lends_of_apart (hpoll.apart fun he => hi (Option.some.inj he).symm)
  · have he : q.reclaim id = q := if_neg hlapsed
    rw [he]
    exact .refl

theorem lends_reclaimAll (ids : List String) (hn : ids.Nodup)
    (hids : ∀ id ∈ ids, id ∈ keys q.active) : Lends i 0 q.ledger (q.reclaimAll ids).ledger :=
  foldl_members (I := fun q' : Queue δ => Lends i 0 q.ledger q'.ledger) .refl hn hids
    (fun _ _ h hid => h.trans (lends_reclaim hid)) fun _ _ _ => mem_active_reclaim

theorem lends_reclaimed (hx : q.Exclusive own []) : Lends i 0 q.ledger q.reclaimed.ledger :=
  lends_reclaimAll _ hx.nodup_active fun _ hin => hin

theorem lends_cancelRequested (now : ℕ) (id : String) :
    Lends i 0 q.ledger (q.cancelRequested now id).1.ledger := by
  have hmeta : ((q.stop now id).jobs i).attempts = (q.jobs i).attempts ∧
      ((q.stop now id).jobs i).leaseToken = (q.jobs i).leaseToken := by
    by_cases hi : i = id
    · subst hi
      simp [Queue.stop, Queue.withMeta]
    · simp [Queue.stop, Queue.withMeta, hi]
  rcases cancelRequested_cases q now id with ⟨-, he⟩ | ⟨-, -, he⟩ | ⟨-, -, he⟩
  · rw [he]
    exact .refl
  · rw [he]
    exact lends_of_same rfl rfl Iff.rfl fun _ => Iff.rfl
  · rw [he]
    exact lends_of_same hmeta.1 hmeta.2 Iff.rfl fun _ => Iff.rfl

theorem lends_cancelAll (now : ℕ) (ids : List String) :
    Lends i 0 q.ledger (q.cancelAll now ids).1.ledger := by
  induction ids generalizing q with
  | nil => exact .refl
  | cons id ids ih => exact (lends_cancelRequested now id).trans ih

theorem lends_mature (id : String) : Lends i 0 q.ledger (q.mature id).ledger := by
  have hmeta : ((q.mature id).jobs i).attempts = (q.jobs i).attempts ∧
      ((q.mature id).jobs i).leaseToken = (q.jobs i).leaseToken := by
    unfold Queue.mature
    by_cases hi : i = id
    · subst hi
      cases (q.jobs i).reentryPosition.getD .last <;> simp [Queue.withMeta, Queue.enqueue]
    · cases (q.jobs id).reentryPosition.getD .last <;> simp [Queue.withMeta, Queue.enqueue, hi]
  have hrest : (q.mature id).active = q.active ∧ (q.mature id).leases = q.leases := by
    unfold Queue.mature
    cases (q.jobs id).reentryPosition.getD .last <;> exact ⟨rfl, rfl⟩
  exact lends_of_same hmeta.1 hmeta.2 (by rw [hrest.1]) fun _ => by rw [hrest.2]

theorem lends_matureAll (ids : List String) : Lends i 0 q.ledger (q.matureAll ids).ledger := by
  induction ids generalizing q with
  | nil => exact .refl
  | cons id ids ih => exact (lends_mature id).trans ih

theorem gives_lend {id : String} (now : ℕ) (pop : String) (hidle : id ∉ keys q.active) (data : δ)
    (created : ℕ) :
    Gives [⟨id, data, (q.nextToken now pop id).attempts, created, now, q.nextToken now pop id⟩]
      q.ledger (q.lend now pop id).ledger := by
  have hbefore : ¬q.ledger.overdue id := fun ho => hidle ho.1
  have hafter : ¬(q.lend now pop id).ledger.overdue id := fun ho =>
    ho.2 (q.nextToken now pop id) (by simp [Queue.lend, Queue.withMeta]) (mem_sadd.mpr (.inl rfl))
  have hworth : q.ledger.worth id = (q.jobs id).attempts.getD 0 := worth_of_not_overdue hbefore
  refine ⟨List.nodup_singleton _, fun i => ?_, fun job hin => ?_⟩
  · by_cases hi : i = id
    · subst hi
      refine ⟨?_, fun ho => absurd ho hafter⟩
      rw [hworth, worth_of_not_overdue hafter]
      simp [Queue.ledger, Queue.lend, Queue.withMeta, JobMeta.attempt]
    · have hcount : ([id]).count i = 0 := List.count_eq_zero.mpr (by simpa using hi)
      rw [List.map_singleton, hcount]
      refine lends_of_apart ?_
      constructor <;> simp [Queue.lend, Queue.withMeta, hi]
  · obtain rfl := List.mem_singleton.mp hin
    exact ⟨by rw [hworth]; rfl, hafter⟩

theorem lendAll_ids (now : ℕ) (pop : String) (ids : List String) (hx : q.Exclusive own ids) :
    (q.lendAll now pop ids).2.map BorrowedJob.id = ids := by
  induction ids generalizing q with
  | nil => rfl
  | cons id ids ih =>
    obtain ⟨data, hdata⟩ := Option.isSome_iff_exists.mp (hx.stored id (List.mem_cons_self ..)).data
    simp only [Queue.lendAll, hdata, List.map_cons]
    rw [ih (hx.lend now pop)]

theorem gives_lendAll (now : ℕ) (pop : String) (ids : List String) (hx : q.Exclusive own ids) :
    Gives (q.lendAll now pop ids).2 q.ledger (q.lendAll now pop ids).1.ledger := by
  induction ids generalizing q with
  | nil => exact .nothing fun _ => .refl
  | cons id ids ih =>
    obtain ⟨data, hdata⟩ := Option.isSome_iff_exists.mp (hx.stored id (List.mem_cons_self ..)).data
    have hfree : id ∉ ids ++ q.index := (List.nodup_cons.mp hx.once).1
    have hidle : id ∉ keys q.active := fun hin => hfree (by simp [Queue.index, hin])
    simp only [Queue.lendAll, hdata]
    refine (gives_lend now pop hidle data _).cons (ih (hx.lend now pop)) ?_
    rw [lendAll_ids now pop ids (hx.lend now pop)]
    exact fun hin => hfree (List.mem_append_left _ hin)

theorem gives_popBatch (hx : q.Exclusive (fun _ => True) []) (now : ℕ) (pop : String) (batch : ℕ) :
    Gives (q.popBatch now pop batch).2.1 q.ledger (q.popBatch now pop batch).1.ledger := by
  have hx₁ : q.reclaimed.Exclusive (fun _ => True) [] := (hx.reclaimed pop).exclusive hx
  have hx₂ : (q.stopped now).1.Exclusive (fun _ => True) [] :=
    (hx₁.stopping pop (fun _ => trivial) now).exclusive hx₁
  have hx₃ : ((q.stopped now).1.matured now).Exclusive (fun _ => True) [] :=
    (hx₂.matured pop now).exclusive hx₂
  have hperm : ((q.stopped now).1.matured now).pending.Perm
      (((q.stopped now).1.matured now).pending.take batch ++
        ((q.stopped now).1.matured now).pending.drop batch) := by
    rw [List.take_append_drop]
  rw [popBatch_eq]
  refine Gives.after (fun i => ?_) (gives_lendAll now pop _ (hx₃.take hperm))
  exact ((lends_reclaimed hx).trans (lends_cancelAll now _)).trans (lends_matureAll _)

theorem known_of_borrowed (hx : q.Exclusive (fun _ => True) []) (now : ℕ) (pop : String) (batch : ℕ)
    {job : BorrowedJob δ} (hjob : job ∈ (q.popBatch now pop batch).2.1) : job.id ∈ q.dedup := by
  have hreclaim := hx.reclaimed pop
  have hx₁ := hreclaim.exclusive hx
  have hcancel := hx₁.stopping pop (fun _ => trivial) now
  have hx₂ := hcancel.exclusive hx₁
  have hmature := hx₂.matured pop now
  rw [popBatch_eq] at hjob
  have hpending : job.id ∈ ((q.stopped now).1.matured now).pending :=
    List.mem_of_mem_take (Queue.mem_of_lent now _ hjob).1
  have hknown := (hmature.exclusive hx₂).known job.id (mem_index.mpr (.inl hpending))
  rwa [hmature.leases.1, hcancel.leases.1, hreclaim.leases.1] at hknown

end Queue

/-! ## The multilane queue -/

def MultilaneQueue.ledger (m : MultilaneQueue δ) : Ledger :=
  ⟨fun i => (m.jobs i).attempts.getD 0, m.Overdue⟩

instance (m : MultilaneQueue δ) : DecidablePred m.ledger.overdue :=
  inferInstanceAs (DecidablePred m.Overdue)

namespace MultilaneQueue

open Ledger

variable {m m' : MultilaneQueue δ} {lane i : String} {n : ℕ} {q : Queue δ}

theorem overdue_view (h : m.laneId i = some lane) : m.Overdue i ↔ (m.view lane).Overdue i := by
  rw [MultilaneQueue.Overdue, h, Option.elim_some]

theorem worth_view (h : m.laneId i = some lane) : m.ledger.worth i = (m.view lane).ledger.worth i := by
  have hover : m.ledger.overdue i ↔ (m.view lane).ledger.overdue i := overdue_view h
  have hsame : Lends i 0 (m.view lane).ledger m.ledger := .of_same rfl hover
  rw [hsame.worth, Nat.add_zero]

theorem lends_of_view (hlane : m.laneId i = some lane) (hlane' : m'.laneId i = some lane)
    (h : Lends i n (m.view lane).ledger (m'.view lane).ledger) : Lends i n m.ledger m'.ledger where
  worth := by rw [worth_view hlane, worth_view hlane', h.worth]
  overdue ho := (overdue_view hlane).mpr (h.overdue ((overdue_view hlane').mp ho))

theorem lends_put (hown : m.laneId i = some lane → Lends i n (m.view lane).ledger q.ledger)
    (hother : m.laneId i ≠ some lane → n = 0 ∧ Queue.Apart i [] (m.view lane) [] q) :
    Lends i n m.ledger (m.put lane q).ledger := by
  by_cases hlane : m.laneId i = some lane
  · refine lends_of_view hlane hlane ?_
    rw [view_put_self]
    exact hown hlane
  · obtain ⟨rfl, hapart⟩ := hother hlane
    cases hin : m.laneId i with
    | some lane' =>
      have hne : lane' ≠ lane := by
        rintro rfl
        exact hlane hin
      exact lends_of_view hin hin (Queue.lends_of_apart (apart_view_put hne hapart))
    | none =>
      refine .of_same ?_ ?_
      · exact congrArg (fun job : JobMeta => job.attempts.getD 0) hapart.jobs
      · simp only [MultilaneQueue.ledger, MultilaneQueue.Overdue, MultilaneQueue.put, hin,
          Option.elim_none]

theorem lends_lanes (lanes : List (String × ℕ)) : Lends i 0 m.ledger { m with lanes }.ledger := by
  cases hlane : m.laneId i with
  | some lane => exact lends_of_view hlane hlane .refl
  | none => exact .of_same rfl (by simp [MultilaneQueue.ledger, MultilaneQueue.Overdue, hlane])

theorem lends_cleanupLaneLeases (hx : m.Exclusive) (lane : String) :
    Lends i 0 m.ledger (m.cleanupLaneLeases lane).ledger :=
  lends_put (fun _ => Queue.lends_reclaimed (hx.lanes lane))
    fun hi => ⟨rfl, ((hx.lanes lane).reclaimed "").apart hi⟩

theorem lends_visit (hx : m.Exclusive) (now : ℕ) (lane : String) :
    Lends i 0 m.ledger (m.visit now lane).ledger := by
  have hclean : Polls "" m (m.cleanupLaneLeases lane) := hx.cleanupLaneLeases lane
  have hx' : (m.cleanupLaneLeases lane).Exclusive := hclean.exclusive hx
  have hmature : Lends i 0 (m.cleanupLaneLeases lane).ledger
      ((m.cleanupLaneLeases lane).processDelayedJobs now lane).ledger :=
    lends_put (fun _ => Queue.lends_matureAll _)
      fun hi => ⟨rfl, ((hx'.lanes lane).matured "" now).apart hi⟩
  exact ((lends_cleanupLaneLeases hx lane).trans hmature).trans (lends_lanes _)

theorem lends_dropLane : Lends i 0 m.ledger (m.dropLane lane).ledger := by
  unfold MultilaneQueue.dropLane
  split_ifs
  · exact lends_lanes _
  · exact .refl

theorem lends_cancelRequested (hx : m.Exclusive) (now : ℕ) {id : String} (hasked : id ∈ m.cancellations) :
    Lends i 0 m.ledger (m.cancelRequested now id).1.ledger := by
  unfold MultilaneQueue.cancelRequested
  cases hlane : m.laneId id with
  | none => exact .refl
  | some lane =>
    have hin : id ∈ ((m.cleanupLaneLeases lane).view lane).cancellations := by
      rw [MultilaneQueue.cleanupLaneLeases, view_put_self, Queue.reclaimed, reclaimAll_cancellations]
      exact hasked
    have hpolls : Queue.Polls "" (fun j => m.laneId j = some lane)
        ([], (m.cleanupLaneLeases lane).view lane)
        ([], (((m.cleanupLaneLeases lane).view lane).cancelRequested now id).1) :=
      Queue.Exclusive.cancelRequested_polls now hlane hin
    have hcancel : Lends i 0 (m.cleanupLaneLeases lane).ledger ((m.cleanupLaneLeases lane).put lane
        (((m.cleanupLaneLeases lane).view lane).cancelRequested now id).1).ledger :=
      lends_put (fun _ => Queue.lends_cancelRequested now id) fun hi => ⟨rfl, hpolls.apart hi⟩
    exact (lends_cleanupLaneLeases hx lane).trans hcancel

theorem lends_cancelAll (now : ℕ) (ids : List String) (hx : m.Exclusive) (hn : ids.Nodup)
    (hids : ∀ id ∈ ids, id ∈ m.cancellations) :
    Lends i 0 m.ledger (m.cancelAll now ids).1.ledger := by
  rw [cancelAll_fst]
  refine (foldl_members (E := fun j (m' : MultilaneQueue δ) => j ∈ m'.cancellations)
    (I := fun m' => m'.Exclusive ∧ Lends i 0 m.ledger m'.ledger) ⟨hx, .refl⟩ hn hids (fun m' id h hid => ?_) fun _ _ _ => mem_cancellations).2
  have hone : Polls "" m' (m'.cancelRequested now id).1 := h.1.cancelRequested now hid
  exact ⟨hone.exclusive h.1, h.2.trans (lends_cancelRequested h.1 now hid)⟩

theorem quiet_of_active (hx : m.Exclusive) (hactive : i ∈ keys (m.view lane).active)
    (hover : ¬m.Overdue i) : m.Quiet i := by
  have hlane : m.laneId i = some lane := hx.laneId_of_mem (mem_index.mpr (.inr (.inr hactive)))
  intro lane'
  by_cases he : lane' = lane
  · subst he
    obtain ⟨hhand, hpending, hdelayed⟩ := (hx.lanes lane').active_only hactive
    refine ⟨hhand, hpending, hdelayed, fun _ hlapsed => hover ?_⟩
    exact (overdue_view hlane).mpr ⟨hactive, hlapsed⟩
  · refine Queue.quiet_of_idle fun hin => he ?_
    exact Option.some.inj ((hx.laneId_of_mem hin).symm.trans hlane)

theorem gives_popJobFromLane (hx : m.Exclusive) (now : ℕ) (pop lane : String) :
    Gives (m.popJobFromLane now pop lane).2.toList m.ledger (m.popJobFromLane now pop lane).1.ledger ∧
      ∀ job ∈ (m.popJobFromLane now pop lane).2,
        (m.popJobFromLane now pop lane).1.Quiet job.id := by
  have hx' : (m.popJobFromLane now pop lane).1.Exclusive := (hx.popJobFromLane now lane).exclusive hx
  have hdata : ∀ id ∈ (m.lane lane).pending, (m.data id).isSome := fun id hin =>
    ((hx.lanes lane).stored id (mem_index.mpr (.inl hin))).data
  rcases m.popJobFromLane_cases now pop hdata with ⟨-, he⟩ | ⟨rest, id, data, hrest, hd, he⟩
  · rw [he]
    exact ⟨.nothing fun _ => .refl, fun _ hjob => absurd hjob (by simp)⟩
  have hlane : m.laneId id = some lane :=
    hx.laneId_of_mem (mem_index.mpr (.inl (by simp [view, hrest])))
  have hidle : id ∉ keys (m.view lane).active := by
    intro hin
    exact ((hx.lanes lane).active_only hin).2.1 (by simp [view, hrest])
  have hgive := Queue.gives_lend (q := m.shortened lane) now pop hidle data
    ((m.jobs id).createdAt.getD now)
  rw [he] at hx' ⊢
  have hlends : ∀ i, Lends i (([id]).count i) m.ledger
      (m.put lane ((m.shortened lane).lend now pop id)).ledger := by
    intro i
    refine lends_put (fun _ => hgive.lends i) fun hi => ?_
    have hne : i ≠ id := by
      rintro rfl
      exact hi hlane
    refine ⟨List.count_eq_zero.mpr (by simpa using hne), ?_⟩
    constructor <;> simp [Queue.lend, Queue.withMeta, view, shortened, hrest, hne]
  obtain ⟨hattempts, hover⟩ := hgive.attempts _ (List.mem_singleton_self _)
  have hlane' : (m.put lane ((m.shortened lane).lend now pop id)).laneId id = some lane := hlane
  have hover' : ¬(m.put lane ((m.shortened lane).lend now pop id)).Overdue id := by
    rw [overdue_view hlane', view_put_self]
    exact hover
  refine ⟨⟨List.nodup_singleton _, hlends, fun job hjob => ?_⟩, fun job hjob => ?_⟩
  · obtain rfl := List.mem_singleton.mp hjob
    exact ⟨by rw [worth_view hlane]; exact hattempts, hover'⟩
  · obtain rfl := Option.some.inj hjob
    have hactive : id ∈ keys ((m.put lane ((m.shortened lane).lend now pop id)).view lane).active := by
      rw [view_put_self]
      exact mem_keys_hset.mpr (.inl rfl)
    exact quiet_of_active hx' hactive hover'

theorem gives_drain (now : ℕ) (pop : String) (rounds n : ℕ) (todo : List (String × ℕ))
    (hx : m.Exclusive) :
    Gives (m.drain now pop rounds n todo).2 m.ledger (m.drain now pop rounds n todo).1.ledger := by
  induction rounds generalizing m n todo with
  | zero =>
    rw [MultilaneQueue.drain]
    exact .nothing fun _ => .refl
  | succ rounds ih =>
    cases n with
    | zero =>
      rw [MultilaneQueue.drain]
      · exact .nothing fun _ => .refl
      · simp
    | succ n =>
      cases todo with
      | nil =>
        rw [MultilaneQueue.drain]
        · exact .nothing fun _ => .refl
        · simp
        · simp
      | cons entry rest =>
        obtain ⟨lane, score⟩ := entry
        rw [MultilaneQueue.drain]
        have hvisit : Polls pop m (if score = now then m else m.visit now lane) ∧
            ∀ i, Lends i 0 m.ledger (if score = now then m else m.visit now lane).ledger := by
          split_ifs
          · exact ⟨.refl, fun _ => .refl⟩
          · exact ⟨hx.visit now lane, fun _ => lends_visit hx now lane⟩
        refine Gives.after hvisit.2 ?_
        have hx₁ := hvisit.1.exclusive hx
        generalize (if score = now then m else m.visit now lane) = m₁ at hx₁
        obtain ⟨hone, hquiet⟩ := gives_popJobFromLane hx₁ now pop lane
        have hpolls : Polls pop m₁ (m₁.popJobFromLane now pop lane).1 := hx₁.popJobFromLane now lane
        have hx₂ := hpolls.exclusive hx₁
        cases hr : m₁.popJobFromLane now pop lane with
        | mk m₂ job =>
          rw [hr] at hone hquiet hx₂
          cases job with
          | some job =>
            refine hone.cons (ih n (rest ++ [(lane, now)]) hx₂) fun hin => ?_
            obtain ⟨job', hjob, he⟩ := List.mem_map.mp hin
            exact not_drained now rounds n _ hx₂ (hquiet job rfl) job' hjob he
          | none =>
            have hdrop : Polls pop m₂ (m₂.dropLane lane) := polls_dropLane
            refine Gives.after (fun i => ?_) (ih (n + 1) rest (hdrop.exclusive hx₂))
            exact (hone.lends i).trans lends_dropLane

theorem gives_popBatch (hx : m.Exclusive) (now : ℕ) (pop : String) (batch : ℕ) :
    Gives (m.popBatch now pop batch).2.1 m.ledger (m.popBatch now pop batch).1.ledger := by
  have hcancel : Polls pop m (m.cancelAll now m.cancellations).1 :=
    hx.cancelAll now _ hx.nodup_cancellations fun _ hi => hi
  refine Gives.after (fun i => ?_) (gives_drain now pop _ batch _ (hcancel.exclusive hx))
  exact lends_cancelAll now _ hx hx.nodup_cancellations fun _ hin => hin

theorem known_of_borrowed (hx : m.Exclusive) (now : ℕ) (pop : String) (batch : ℕ)
    {job : BorrowedJob δ} (hjob : job ∈ (m.popBatch now pop batch).2.1) : job.id ∈ m.dedup := by
  have hcancel : Polls pop m (m.cancelAll now m.cancellations).1 :=
    hx.cancelAll now _ hx.nodup_cancellations fun _ hi => hi
  refine (drain_keeps (P := fun m' => m'.Exclusive ∧ m'.dedup = m.dedup)
    (J := fun job => job.id ∈ m.dedup) (fun m' lane hm => ?_) (fun m' lane hm => ⟨?_, ?_⟩)
    (fun m' lane hm => ?_) _ batch _ ⟨hcancel.exclusive hx, hcancel.leases.2.1⟩).2 job hjob
  · have hvisit : Polls pop m' (m'.visit now lane) := hm.1.visit now lane
    exact ⟨hvisit.exclusive hm.1, hvisit.leases.2.1.trans hm.2⟩
  · have hpop : Polls pop m' (m'.popJobFromLane now pop lane).1 := hm.1.popJobFromLane now lane
    exact ⟨hpop.exclusive hm.1, hpop.leases.2.1.trans hm.2⟩
  · intro job hjob
    have hlive : m'.Live job.id := ⟨lane, mem_index.mpr (.inl (mem_of_popped hjob))⟩
    exact hm.2 ▸ hm.1.known hlive
  · have hdrop : Polls pop m' (m'.dropLane lane) := polls_dropLane
    exact ⟨hdrop.exclusive hm.1, hdrop.leases.2.1.trans hm.2⟩

end MultilaneQueue

/-! ## Runs -/

theorem Ledger.Counted.of_same {t : Tally} {known known' : List String} {l l' : Ledger}
    (h : Ledger.Counted t known l)
    (hsame : ∀ i ∈ known', i ∈ known ∧ l'.attempts i = l.attempts i) :
    Ledger.Counted t known' l' :=
  fun i hi => (hsame i hi).2.trans (h i (hsame i hi).1)

theorem Ledger.Counted.enter {t : Tally} {known : List String} {l l' : Ledger} {id : String}
    (h : Ledger.Counted t known l) (hnew : l'.attempts id = 0)
    (hsame : ∀ i ≠ id, l'.attempts i = l.attempts i) :
    Ledger.Counted (t.enter id) (sadd known id) l' := by
  intro i hi
  by_cases he : i = id
  · subst he
    simp [Tally.enter, hnew]
  · rw [hsame i he, h i ((mem_sadd.mp hi).resolve_left he)]
    simp [Tally.enter, he]

section Attempts

variable {options : QueueOptions} {q : Queue δ} {id : String}

theorem attempts_update {jobs : String → JobMeta} {m : JobMeta} (i : String)
    (h : m.attempts = (jobs id).attempts) :
    (Function.update jobs id m i).attempts = (jobs i).attempts := by
  by_cases hi : i = id
  · subst hi
    rw [Function.update_self, h]
  · rw [Function.update_of_ne hi]

theorem attempts_cancelJob (q : Queue δ) (id : String) (now : ℕ) (i : String) :
    ((q.cancelJob id now).1.jobs i).attempts = (q.jobs i).attempts ∧
      (q.cancelJob id now).1.dedup = q.dedup := by
  unfold Queue.cancelJob
  simp only
  split_ifs
  · exact ⟨attempts_update i rfl, rfl⟩
  · exact ⟨attempts_update i rfl, rfl⟩
  · exact ⟨rfl, rfl⟩
  · exact ⟨rfl, rfl⟩

theorem attempts_finish (options : QueueOptions) (q : Queue δ) (id : String) (token : LeaseToken)
    (now : ℕ) (result : JobResult) (i : String) :
    ((q.finish options id token now result).jobs i).attempts = (q.jobs i).attempts ∧
      (i ∈ (q.finish options id token now result).dedup → i ∈ q.dedup) := by
  have hsettle : ((q.settle id token).jobs i).attempts = (q.jobs i).attempts :=
    attempts_update i rfl
  have hend : (((q.settle id token).withMeta id fun m => { m with finishedAt := some now }).jobs
      i).attempts = (q.jobs i).attempts := by
    rw [← hsettle]
    exact attempts_update i rfl
  cases result with
  | success | fail =>
    unfold Queue.finish Queue.forget
    split_ifs
    · exact ⟨hend, fun hin => (mem_srem.mp hin).1⟩
    · exact ⟨hend, fun hin => hin⟩
  | nack delay position =>
    cases delay with
    | some delay =>
      have hback : (((q.settle id token).withMeta id fun m =>
          { m with reentryPosition := some position }).jobs i).attempts = (q.jobs i).attempts := by
        rw [← hsettle]
        exact attempts_update i rfl
      exact ⟨hback, fun hin => hin⟩
    | none => cases position <;> exact ⟨hsettle, fun hin => hin⟩

theorem attempts_push (data : δ) (now delay : ℕ) (position : Position) (hnew : id ∉ q.dedup) :
    ((q.push id data now delay position).1.jobs id).attempts = some 0 ∧
      (q.push id data now delay position).1.dedup = sadd q.dedup id ∧
      ∀ i ≠ id, ((q.push id data now delay position).1.jobs i).attempts = (q.jobs i).attempts := by
  unfold Queue.push
  rw [if_neg hnew]
  split_ifs
  · refine ⟨?_, rfl, fun i hi => ?_⟩
    · simp [Queue.withMeta]
    · simp [Queue.withMeta, hi]
  · refine ⟨?_, rfl, fun i hi => ?_⟩
    · simp [Queue.withMeta, Queue.enqueue]
    · simp [Queue.withMeta, Queue.enqueue, hi]

theorem Queue.Trimmed.counted {t : Tally} {q' : Queue δ} (h : q.Trimmed q')
    (hq : Ledger.Counted t q.dedup q.ledger) : Ledger.Counted t q'.dedup q'.ledger := by
  refine hq.of_same fun i hi => ?_
  rcases h.records i with hs | ⟨-, hgone⟩
  · exact ⟨hs.dedup.mp hi, by simp only [Queue.ledger, hs.jobs]⟩
  · exact absurd hi hgone.dedup

/-- **An operation keeps the counts right.** -/
theorem Op.counted {t : Tally} (hx : q.Exclusive (fun _ => True) [])
    (h : Ledger.Counted t q.dedup q.ledger) (op : Op δ) :
    Ledger.Counted (op.tally q t) (op.apply options q).dedup (op.apply options q).ledger := by
  cases op with
  | push id data now delay position =>
    by_cases hnew : id ∈ q.dedup
    · have he : (q.push id data now delay position).1 = q := by simp [Queue.push, hnew]
      rw [Op.apply, Op.tally, if_pos hnew, he]
      exact h
    · obtain ⟨hattempts, hdedup, hother⟩ := attempts_push data now delay position hnew
      rw [Op.apply, Op.tally, if_neg hnew, hdedup]
      refine h.enter ?_ fun i hi => ?_
      · simp only [Queue.ledger, hattempts, Option.getD_some]
      · simp only [Queue.ledger, hother i hi]
  | pop now popId batch =>
    have hpolls : Queue.Polls popId (fun _ => True) ([], q) ([], (q.popBatch now popId batch).1) :=
      hx.popBatch_polls (fun _ => trivial) now batch
    rw [Op.apply, hpolls.leases.1]
    exact Ledger.Counted.pop h (Queue.gives_popBatch hx now popId batch)
  | cancel id now =>
    refine h.of_same fun i hi => ?_
    obtain ⟨hattempts, hdedup⟩ := attempts_cancelJob q id now i
    exact ⟨hdedup ▸ hi, by simp only [Op.apply, Queue.ledger, hattempts]⟩
  | complete id token now result =>
    refine h.of_same fun i hi => ?_
    by_cases hlease : (id, token) ∈ q.leases
    · have he : Op.apply options q (.complete id token now result) =
          q.finish options id token now result := by
        rw [Op.apply, Queue.complete, if_pos hlease]
      rw [he] at hi ⊢
      obtain ⟨hattempts, hdedup⟩ := attempts_finish options q id token now result i
      exact ⟨hdedup hi, by simp only [Queue.ledger, hattempts]⟩
    · have he : Op.apply options q (.complete id token now result) = q := by
        rw [Op.apply, Queue.complete, if_neg hlease]
      rw [he] at hi ⊢
      exact ⟨hi, rfl⟩
  | expire id token => exact h
  | pruneSuccess => exact (pruned_pruneSuccess options q).toTrimmed.counted h
  | pruneFailed => exact (pruned_pruneFailed options q).toTrimmed.counted h

theorem counted_run (options : QueueOptions) (ops : List (Op δ)) :
    Ledger.Counted (Queue.tally options ops) (Queue.run options ops).dedup
      (Queue.run options ops).ledger := by
  induction ops using List.reverseRecOn with
  | nil => exact fun i hi => absurd hi List.not_mem_nil
  | append_singleton ops op ih =>
    rw [Queue.run, List.foldl_append, tally_snoc]
    exact Op.counted (run_exclusive ops) ih op

namespace MultilaneQueue

variable {m : MultilaneQueue δ} {t : Tally}

theorem counted_pruneOne (h : Ledger.Counted t m.dedup m.ledger) (id : String) :
    Ledger.Counted t (m.pruneOne id).dedup (m.pruneOne id).ledger := by
  unfold MultilaneQueue.pruneOne
  split_ifs
  · refine h.of_same fun i hi => ?_
    obtain ⟨hin, hne⟩ := mem_srem.mp hi
    exact ⟨hin, by simp [MultilaneQueue.ledger, hne]⟩
  · exact h

theorem counted_pruneAll (ids : List String) (h : Ledger.Counted t m.dedup m.ledger) :
    Ledger.Counted t (ids.foldl pruneOne m).dedup (ids.foldl pruneOne m).ledger := by
  exact List.foldlRecOn (motive := fun m : MultilaneQueue δ => Ledger.Counted t m.dedup m.ledger) ids _ h
    fun _ h id _ => counted_pruneOne h id

end MultilaneQueue

/-- **The same for the multilane queue.** -/
theorem LaneOp.counted {s : Multilane δ} {t : Tally} (hs : s.Inv)
    (h : Ledger.Counted t s.queue.dedup s.queue.ledger) (op : LaneOp δ) :
    Ledger.Counted (op.tally s t) (op.apply options s).queue.dedup
      (op.apply options s).queue.ledger := by
  cases op with
  | push lane id data now delay position =>
    by_cases hnew : id ∈ s.queue.dedup
    · have he : (s.queue.pushToLane lane id data now delay position).1 = s.queue := by
        simp [MultilaneQueue.pushToLane, hnew]
      rw [LaneOp.apply, LaneOp.tally, if_pos hnew, he]
      exact h
    · have hview : id ∉ (s.queue.view lane).dedup := hnew
      obtain ⟨hattempts, hdedup, hother⟩ := attempts_push data now delay position hview
      rw [LaneOp.apply, LaneOp.tally, if_neg hnew, MultilaneQueue.pushToLane, if_neg hnew]
      show Ledger.Counted (t.enter id)
        ((s.queue.view lane).push id data now delay position).1.dedup _
      rw [hdedup]
      refine h.enter ?_ fun i hi => ?_
      · exact congrArg (fun n : Option ℕ => n.getD 0) hattempts
      · exact congrArg (fun n : Option ℕ => n.getD 0) (hother i hi)
  | pop now popId batch =>
    rw [LaneOp.apply, LaneOp.tally]
    split_ifs
    · exact h
    have hpolls : s.queue.Polls popId (s.queue.popBatch now popId batch).1 :=
      hs.queue.popBatch now batch
    show Ledger.Counted _ (s.queue.popBatch now popId batch).1.dedup _
    rw [hpolls.leases.2.1]
    exact Ledger.Counted.pop h (MultilaneQueue.gives_popBatch hs.queue now popId batch)
  | cancel id now =>
    refine h.of_same fun i hi => ?_
    simp only [LaneOp.apply, MultilaneQueue.cancelJob] at hi ⊢
    cases hlane : s.queue.laneId id with
    | none =>
      rw [hlane] at hi
      exact ⟨hi, rfl⟩
    | some lane =>
      rw [hlane] at hi
      obtain ⟨hattempts, hdedup⟩ := attempts_cancelJob (s.queue.view lane) id now i
      have hin : i ∈ ((s.queue.view lane).cancelJob id now).1.dedup := hi
      rw [hdedup] at hin
      exact ⟨hin, congrArg (fun n : Option ℕ => n.getD 0) hattempts⟩
  | read id token =>
    rw [LaneOp.apply]
    split_ifs
    all_goals exact h
  | complete call now ending =>
    rw [LaneOp.apply]
    split_ifs with hcall
    swap
    · exact h
    cases hlane : call.target ending with
    | none => exact h
    | some lane =>
      refine h.of_same fun i hi => ?_
      obtain ⟨hattempts, hdedup⟩ := attempts_finish options (s.queue.view lane) call.id call.token now
        ending.result i
      exact ⟨hdedup hi, congrArg (fun n : Option ℕ => n.getD 0) hattempts⟩
  | expire id token => exact h.of_same fun i hi => ⟨hi, rfl⟩
  | pruneSuccess | pruneFailed =>
    exact MultilaneQueue.counted_pruneAll _ (h.of_same fun i hi => ⟨hi, rfl⟩)

theorem counted_runLanes (options : QueueOptions) (ops : List (LaneOp δ)) :
    Ledger.Counted (Multilane.tally options ops) (Multilane.run options ops).queue.dedup
      (Multilane.run options ops).queue.ledger := by
  induction ops using List.reverseRecOn with
  | nil => exact fun i hi => absurd hi List.not_mem_nil
  | append_singleton ops op ih =>
    rw [Multilane.run, List.foldl_append, Multilane.tally_snoc]
    exact LaneOp.counted (run_inv options ops) ih op

end Attempts

/-! ## The attempts of a borrowed job -/

/-- **In both queues a job is handed out with the number of its borrows since its admission, this one
included, exactly when no pop since then took it back with a lapsed lease.** -/
theorem attempts_eq_iff :
    (∀ (options : QueueOptions) (ops : List (Op δ)) (now : ℕ) (popId : String) (batch : ℕ),
      ∀ job ∈ ((Queue.run options ops).popBatch now popId batch).2.1,
        (job.attempts = (Queue.tally options (ops ++ [.pop now popId batch])).borrowed job.id ↔
          (Queue.tally options (ops ++ [.pop now popId batch])).reclaimed job.id = 0)) ∧
    ∀ (options : QueueOptions) (ops : List (LaneOp δ)) (now : ℕ) (popId : String) (batch : ℕ),
      popId ∉ (Multilane.run options ops).pops →
      ∀ job ∈ ((Multilane.run options ops).queue.popBatch now popId batch).2.1,
        (job.attempts = (Multilane.tally options (ops ++ [.pop now popId batch])).borrowed job.id ↔
          (Multilane.tally options (ops ++ [.pop now popId batch])).reclaimed job.id = 0) := by
  constructor
  · intro options ops now popId batch job hjob
    have hx : (Queue.run options ops).Exclusive (fun _ => True) [] := run_exclusive ops
    rw [tally_snoc, Op.tally]
    exact (counted_run options ops).attempts_iff (Queue.gives_popBatch hx now popId batch) hjob
      (Queue.known_of_borrowed hx now popId batch hjob)
  · intro options ops now popId batch hnew job hjob
    have hs := run_inv options ops
    rw [Multilane.tally_snoc, LaneOp.tally, if_neg hnew]
    exact (counted_runLanes options ops).attempts_iff
      (MultilaneQueue.gives_popBatch hs.queue now popId batch) hjob
      (MultilaneQueue.known_of_borrowed hs.queue now popId batch hjob)

namespace Attempts.Sample

def options : QueueOptions := ⟨.active, 1, 1⟩

/-- A job is borrowed and its lease runs out. -/
def lapsed : List (Op Unit) :=
  [.push "a" () 0 0 .last, .pop 1 "p" 1, .expire "a" ⟨1, "a", 1, "p"⟩]

def lapsedInLane : List (LaneOp Unit) :=
  [.push "l" "a" () 0 0 .last, .pop 1 "p" 1, .expire "a" ⟨1, "a", 1, "p"⟩]

def nacked : List (Op Unit) :=
  [.push "a" () 0 0 .last, .pop 1 "p" 1, .complete "a" ⟨1, "a", 1, "p"⟩ 2 (.nack none .last)]

end Attempts.Sample

open Attempts.Sample in
set_option maxRecDepth 10000 in
/-- A job whose first lease ran out is handed out with three attempts at its second borrow. -/
theorem attempts_count_lapses :
    ((((Queue.run options lapsed).popBatch 9 "q" 1).2.1.map BorrowedJob.attempts = [3]) ∧
      (Queue.tally options (lapsed ++ [.pop 9 "q" 1])).borrowed "a" = 2) ∧
    ((((Multilane.run options lapsedInLane).queue.popBatch 9 "q" 1).2.1.map BorrowedJob.attempts =
        [3]) ∧
      (Multilane.tally options (lapsedInLane ++ [.pop 9 "q" 1])).borrowed "a" = 2) := by
  refine ⟨⟨?_, ?_⟩, ?_, ?_⟩
  all_goals decide +kernel

open Attempts.Sample in
set_option maxRecDepth 10000 in
/-- A job that was given back is handed out with two. -/
theorem attempts_eq_iff_nacked :
    2 = (Queue.tally options (nacked ++ [.pop 9 "q" 1])).borrowed "a" := by
  refine ((attempts_eq_iff (δ := Unit)).1 options nacked 9 "q" 1
    ⟨"a", (), 2, 0, 9, ⟨9, "a", 2, "q"⟩⟩ ?_).mpr ?_
  all_goals decide +kernel

end EngineCore.Twmq
