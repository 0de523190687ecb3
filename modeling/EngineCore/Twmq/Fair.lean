import EngineCore.Lib.Rounds
import EngineCore.Twmq.Cancellation
import Mathlib.Data.List.ReduceOption

/-!
# The batch of a multilane pop

Step 2 of the multilane pop walks a table of the lanes with an index. A lane that gave no job becomes
a hole of the table, the walk steps over holes and goes back to the start at the end, and it stops
when the batch is full or every lane is a hole.

* `Walk.cycle`: the table from the index on. **`Walk.runs`**: the loop ends, with what `rotate` finds
  when it asks the lanes in that order; `drain_eq_rotate`: so does the model used elsewhere;
* **`fair_batch`**: no lane is two jobs ahead of one that has jobs left.
-/

namespace EngineCore.Twmq

open Redis Rounds

variable {δ : Type}

/-! ## The loop -/

/-- Ask one lane of the table with its score: the queue after, and the job with the new score. -/
def MultilaneQueue.serve (now : ℕ) (pop : String) (m : MultilaneQueue δ) (lane : String) (score : ℕ) :
    MultilaneQueue δ × Option (ℕ × BorrowedJob δ) :=
  let m := if score = now then m else m.visit now lane
  match m.popJobFromLane now pop lane with
  | (m, some job) => (m, some (now, job))
  | (m, none) => (m.dropLane lane, none)

/-- The variables of the loop. The index counts from 0. -/
structure Walk (δ : Type) where
  queue : MultilaneQueue δ
  lanesWithScores : List (Option (String × ℕ))
  laneIndex : ℕ := 0
  emptyLanesCount : ℕ := 0
  resultJobs : List (String × BorrowedJob δ) := []

namespace Walk

def start (m : MultilaneQueue δ) : Walk δ := ⟨m, m.lanes.map some, 0, 0, []⟩

def Going (batch : ℕ) (w : Walk δ) : Prop :=
  w.resultJobs.length < batch ∧ w.emptyLanesCount < w.lanesWithScores.length

instance (batch : ℕ) (w : Walk δ) : Decidable (w.Going batch) :=
  inferInstanceAs (Decidable (_ ∧ _))

def next (w : Walk δ) : Walk δ :=
  { w with
    laneIndex := if w.lanesWithScores.length < w.laneIndex + 2 then 0 else w.laneIndex + 1 }

def step (now : ℕ) (pop : String) (w : Walk δ) : Walk δ :=
  match w.lanesWithScores[w.laneIndex]? with
  | some (some (lane, score)) =>
    match w.queue.serve now pop lane score with
    | (m, some (score, job)) =>
      next { w with
        queue := m
        lanesWithScores := w.lanesWithScores.set w.laneIndex (some (lane, score))
        resultJobs := w.resultJobs ++ [(lane, job)] }
    | (m, none) =>
      next { w with
        queue := m
        lanesWithScores := w.lanesWithScores.set w.laneIndex none
        emptyLanesCount := w.emptyLanesCount + 1 }
  | _ => w.next

def run (now : ℕ) (pop : String) (batch : ℕ) : ℕ → Walk δ → Option (Walk δ)
  | 0, w => if w.Going batch then none else some w
  | rounds + 1, w => if w.Going batch then (w.step now pop).run now pop batch rounds else some w

/-! ### The order of the lanes -/

def cycle (w : Walk δ) : List (Option (String × ℕ)) :=
  w.lanesWithScores.drop w.laneIndex ++ w.lanesWithScores.take w.laneIndex

/-- The index is in the table, and the holes are counted. -/
structure Sound (w : Walk δ) : Prop where
  index : w.laneIndex < w.lanesWithScores.length ∨ w.lanesWithScores = [] ∧ w.laneIndex = 0
  holes : w.emptyLanesCount + w.cycle.reduceOption.length = w.lanesWithScores.length

variable {w : Walk δ} {now : ℕ} {pop : String} {batch : ℕ}

theorem cycle_length (w : Walk δ) : w.cycle.length = w.lanesWithScores.length := by
  rw [cycle, List.length_append, List.length_drop, List.length_take]
  omega

variable {rest : List (Option (String × ℕ))}

theorem cycle_next {e : Option (String × ℕ)} (hs : w.Sound)
    (hc : w.cycle = e :: rest) (e' : Option (String × ℕ)) :
    w.lanesWithScores[w.laneIndex]? = some e ∧
    (next { w with lanesWithScores := w.lanesWithScores.set w.laneIndex e' }).cycle = rest ++ [e'] ∧
    (next { w with lanesWithScores := w.lanesWithScores.set w.laneIndex e' }).laneIndex <
      w.lanesWithScores.length := by
  have hindex : w.laneIndex < w.lanesWithScores.length := by
    refine hs.index.resolve_right fun h => ?_
    have := w.cycle_length
    rw [hc, h.1] at this
    simp at this
  rw [cycle, List.drop_eq_getElem_cons hindex, List.cons_append] at hc
  obtain ⟨rfl, rfl⟩ := List.cons.inj hc
  refine ⟨List.getElem?_eq_getElem hindex, ?_, ?_⟩
  · rw [next, cycle]
    simp only [List.length_set]
    split_ifs with hlast
    · -- the index was the last one
      have hdrop : w.lanesWithScores.drop (w.laneIndex + 1) = [] := by
        rw [List.drop_eq_nil_iff]
        omega
      rw [hdrop, List.drop_zero, List.take_zero, List.append_nil, List.nil_append,
        List.set_eq_take_append_cons_drop, if_pos hindex, hdrop]
    · rw [List.drop_set_of_lt (Nat.lt_succ_self _), List.take_set, List.append_assoc]
      congr 1
      rw [List.take_succ_eq_append_getElem hindex, List.set_append_right _ _ (by simp [hindex.le])]
      simp [hindex.le]
  · rw [next]
    simp only [List.length_set]
    split_ifs
    · omega
    · omega

/-- The loop stays sound if it counts the hole it makes. -/
theorem sound_next {w₁ : Walk δ} {e e' : Option (String × ℕ)} (hs : w.Sound)
    (hc : w.cycle = e :: rest) (htable : w₁.lanesWithScores = w.lanesWithScores.set w.laneIndex e')
    (hindex : w₁.laneIndex = w.laneIndex)
    (hcount : w₁.emptyLanesCount + [e'].reduceOption.length =
      w.emptyLanesCount + [e].reduceOption.length) :
    w₁.next.Sound ∧ w₁.next.cycle = rest ++ [e'] := by
  obtain ⟨-, hcycle, hlt⟩ := cycle_next hs hc e'
  have hnext : w₁.next.cycle = rest ++ [e'] := by
    rw [← hcycle]
    simp only [next, cycle, htable, hindex]
  refine ⟨⟨.inl ?_, ?_⟩, hnext⟩
  · simpa [next, htable, hindex] using hlt
  · have hholes := hs.holes
    rw [hc, ← List.singleton_append, List.reduceOption_append, List.length_append] at hholes
    show w₁.emptyLanesCount + w₁.next.cycle.reduceOption.length = w₁.lanesWithScores.length
    rw [hnext, htable, List.length_set, List.reduceOption_append, List.length_append]
    omega

theorem sound_hole (now : ℕ) (pop : String) (hs : w.Sound)
    (hc : w.cycle = none :: rest) :
    w.step now pop = w.next ∧ w.next.Sound ∧ w.next.cycle = rest ++ [none] := by
  obtain ⟨hentry, -⟩ := cycle_next hs hc none
  refine ⟨by rw [step, hentry], sound_next hs hc ?_ rfl rfl⟩
  rw [List.getElem?_eq_some_iff] at hentry
  obtain ⟨hlt, he⟩ := hentry
  rw [← he, List.set_getElem_self]

theorem sound_some {lane : String} {score score' : ℕ}
    {m : MultilaneQueue δ} {job : BorrowedJob δ} (hs : w.Sound)
    (hc : w.cycle = some (lane, score) :: rest)
    (hserve : w.queue.serve now pop lane score = (m, some (score', job))) :
    (w.step now pop).Sound ∧ (w.step now pop).cycle = rest ++ [some (lane, score')] ∧
      (w.step now pop).queue = m ∧
      (w.step now pop).resultJobs = w.resultJobs ++ [(lane, job)] := by
  obtain ⟨hentry, -⟩ := cycle_next hs hc none
  simp only [step, hentry, hserve, ← and_assoc]
  exact ⟨⟨sound_next hs hc rfl rfl rfl, rfl⟩, rfl⟩

theorem sound_none {lane : String} {score : ℕ}
    {m : MultilaneQueue δ} (hs : w.Sound) (hc : w.cycle = some (lane, score) :: rest)
    (hserve : w.queue.serve now pop lane score = (m, none)) :
    (w.step now pop).Sound ∧ (w.step now pop).cycle = rest ++ [none] ∧
      (w.step now pop).queue = m ∧ (w.step now pop).resultJobs = w.resultJobs := by
  obtain ⟨hentry, -⟩ := cycle_next hs hc none
  simp only [step, hentry, hserve, ← and_assoc]
  exact ⟨⟨sound_next hs hc rfl rfl rfl, rfl⟩, rfl⟩

/-- The lanes still in the table, in the order they will be asked. -/
def line (w : Walk δ) : List (String × ℕ) := w.cycle.reduceOption

theorem run_of_step {rounds : ℕ} {w' : Walk δ} (hgoing : w.Going batch)
    (h : (w.step now pop).run now pop batch rounds = some w') :
    w.run now pop batch (rounds + 1) = some w' := by
  rw [run, if_pos hgoing]
  exact h

def Ends (now : ℕ) (pop : String) (batch : ℕ) (w w' : Walk δ) : Prop :=
  ∃ rounds, w.run now pop batch rounds = some w'

theorem Ends.step {w' : Walk δ} (hgoing : w.Going batch)
    (h : Ends now pop batch (w.step now pop) w') : Ends now pop batch w w' := by
  obtain ⟨rounds, hrounds⟩ := h
  exact ⟨rounds + 1, run_of_step hgoing hrounds⟩

theorem exists_entry (now : ℕ) (pop : String) {e : String × ℕ} (holes : ℕ)
    (hs : w.Sound) (hgoing : w.Going batch) (hc : w.cycle = List.replicate holes none ++ some e :: rest) :
    ∃ (w₁ : Walk δ) (rest' : List (Option (String × ℕ))), w₁.Sound ∧ w₁.Going batch ∧
      w₁.cycle = some e :: rest' ∧ w₁.line = w.line ∧ w₁.queue = w.queue ∧
      w₁.resultJobs = w.resultJobs ∧
      ∀ w', Ends now pop batch w₁ w' → Ends now pop batch w w' := by
  induction holes generalizing w rest with
  | zero => exact ⟨w, rest, hs, hgoing, hc, rfl, rfl, rfl, fun _ h => h⟩
  | succ holes ih =>
    rw [List.replicate_succ, List.cons_append] at hc
    obtain ⟨hstep, hsound, hcycle⟩ := sound_hole now pop hs hc
    have hline : w.next.line = w.line := by
      rw [line, line, hc, hcycle, List.reduceOption_append, List.reduceOption_cons_of_none]
      simp
    rw [List.append_assoc, List.cons_append] at hcycle
    obtain ⟨w₁, rest', hs₁, hgoing₁, hc₁, hline₁, hqueue, hjobs, hends⟩ := ih hsound hgoing hcycle
    refine ⟨w₁, rest', hs₁, hgoing₁, hc₁, hline₁.trans hline, hqueue, hjobs, fun w' h => ?_⟩
    refine Ends.step hgoing ?_
    rw [hstep]
    exact hends w' h

theorem exists_holes {cycle : List (Option (String × ℕ))} {e : String × ℕ} {line : List (String × ℕ)}
    (h : cycle.reduceOption = e :: line) :
    ∃ holes rest, cycle = List.replicate holes none ++ some e :: rest := by
  induction cycle with
  | nil => exact absurd h (by simp)
  | cons entry cycle ih =>
    cases entry with
    | none =>
      rw [List.reduceOption_cons_of_none] at h
      obtain ⟨holes, rest, he⟩ := ih h
      exact ⟨holes + 1, rest, by rw [he, List.replicate_succ, List.cons_append]⟩
    | some e' =>
      rw [List.reduceOption_cons_of_some] at h
      obtain ⟨rfl, -⟩ := List.cons.inj h
      exact ⟨0, cycle, rfl⟩

/-- **The loop ends, with what the lanes give when they are asked in turn.** -/
theorem ends_rotate (now : ℕ) (pop : String) (batch rounds : ℕ) (hs : w.Sound)
    (hrounds : rounds = batch - w.resultJobs.length + w.line.length) :
    ∃ w', Ends now pop batch w w' ∧
      w'.queue = (rotate (MultilaneQueue.serve now pop) rounds (batch - w.resultJobs.length) w.line
        w.queue).1 ∧
      w'.resultJobs = w.resultJobs ++ (rotate (MultilaneQueue.serve now pop) rounds
        (batch - w.resultJobs.length) w.line w.queue).2 := by
  induction rounds generalizing w with
  | zero =>
    have hstop : ¬w.Going batch := fun hg => by
      have := hg.1
      omega
    exact ⟨w, ⟨0, by rw [run, if_neg hstop]⟩, by simp⟩
  | succ rounds ih =>
    by_cases hgoing : w.Going batch
    swap
    · have hstop : batch - w.resultJobs.length = 0 ∨ w.line = [] := by
        rw [Going, not_and_or] at hgoing
        refine hgoing.imp (fun h => by omega) fun h => ?_
        have hholes := hs.holes
        rw [← List.length_eq_zero_iff, line]
        omega
      refine ⟨w, ⟨0, by rw [run, if_neg hgoing]⟩, ?_⟩
      rcases hstop with h | h
      · rw [h]
        simp
      · rw [h]
        simp
    · have hjobs := hgoing.1
      cases hline : w.line with
      | nil =>
        have hholes := hs.holes
        have hlength : w.cycle.reduceOption.length = 0 := by
          rw [List.length_eq_zero_iff]
          exact hline
        have := hgoing.2
        omega
      | cons e line =>
        obtain ⟨lane, score⟩ := e
        obtain ⟨holes, rest, hc⟩ := exists_holes hline
        obtain ⟨w₁, rest', hs₁, hgoing₁, hc₁, hline₁, hqueue, hresult, hends⟩ :=
          exists_entry now pop holes hs hgoing hc
        have htail : line = rest'.reduceOption := by
          rw [hline, Walk.line, hc₁, List.reduceOption_cons_of_some] at hline₁
          exact (List.cons.inj hline₁).2.symm
        obtain ⟨n, hn⟩ : ∃ n, batch - w.resultJobs.length = n + 1 :=
          ⟨batch - w.resultJobs.length - 1, by omega⟩
        rw [hline, List.length_cons, hn] at hrounds
        rw [hn]
        cases hserve : w.queue.serve now pop lane score with
        | mk m answer =>
          rw [← hqueue] at hserve
          cases answer with
          | some answer =>
            obtain ⟨score', job⟩ := answer
            obtain ⟨hsound, hcycle, hm, hjob⟩ := sound_some hs₁ hc₁ hserve
            have hline' : (w₁.step now pop).line = line ++ [(lane, score')] := by
              rw [Walk.line, hcycle, List.reduceOption_append, htail]
              simp
            have hleft : batch - (w₁.step now pop).resultJobs.length = n := by
              rw [hjob, hresult, List.length_append, List.length_singleton]
              omega
            have hmeasure : rounds = batch - (w₁.step now pop).resultJobs.length +
                (w₁.step now pop).line.length := by
              rw [hleft, hline', List.length_append, List.length_singleton]
              omega
            obtain ⟨w', hw', hq, hj⟩ := ih hsound hmeasure
            rw [hleft, hline', hm] at hq hj
            rw [hqueue] at hserve
            rw [rotate_some hserve]
            refine ⟨w', hends w' (Ends.step hgoing₁ hw'), hq, ?_⟩
            rw [hj, hjob, hresult, List.append_assoc, List.singleton_append]
          | none =>
            obtain ⟨hsound, hcycle, hm, hjob⟩ := sound_none hs₁ hc₁ hserve
            have hline' : (w₁.step now pop).line = line := by
              rw [Walk.line, hcycle, List.reduceOption_append, htail]
              simp
            have hleft : batch - (w₁.step now pop).resultJobs.length = n + 1 := by
              rw [hjob, hresult, hn]
            have hmeasure : rounds = batch - (w₁.step now pop).resultJobs.length +
                (w₁.step now pop).line.length := by
              rw [hleft, hline']
              omega
            obtain ⟨w', hw', hq, hj⟩ := ih hsound hmeasure
            rw [hleft, hline', hm] at hq hj
            rw [hqueue] at hserve
            rw [rotate_none hserve]
            refine ⟨w', hends w' (Ends.step hgoing₁ hw'), hq, ?_⟩
            rw [hj, hjob, hresult]

theorem sound_start (m : MultilaneQueue δ) : (start m).Sound ∧ (start m).line = m.lanes := by
  have hcycle : (start m).cycle = m.lanes.map some := by simp [cycle, start]
  have hline : (m.lanes.map some).reduceOption = m.lanes := by
    induction m.lanes with
    | nil => rfl
    | cons e lanes ih => rw [List.map_cons, List.reduceOption_cons_of_some, ih]
  refine ⟨⟨?_, ?_⟩, ?_⟩
  · cases hl : m.lanes with
    | nil => exact .inr ⟨by simp [start, hl], rfl⟩
    | cons e lanes => exact .inl (by simp [start, hl])
  · rw [hcycle, hline]
    simp [start]
  · rw [line, hcycle, hline]

theorem runs (m : MultilaneQueue δ) (now : ℕ) (pop : String) (batch : ℕ) :
    ∃ rounds w, (start m).run now pop batch rounds = some w ∧
      (w.queue, w.resultJobs) =
        rotate (MultilaneQueue.serve now pop) (batch + m.lanes.length) batch m.lanes m := by
  obtain ⟨hsound, hline⟩ := sound_start m
  obtain ⟨w, ⟨rounds, hrun⟩, hqueue, hjobs⟩ :=
    ends_rotate now pop batch (batch + m.lanes.length) hsound (by rw [hline]; rfl)
  refine ⟨rounds, w, hrun, ?_⟩
  rw [hqueue, hjobs, hline]
  rfl

end Walk

namespace MultilaneQueue

variable {m m' : MultilaneQueue δ} {now : ℕ} {pop lane : String}

theorem serve_some {score : ℕ} {job : BorrowedJob δ}
    (h : (if score = now then m else m.visit now lane).popJobFromLane now pop lane = (m', some job)) :
    m.serve now pop lane score = (m', some (now, job)) := by
  rw [serve]
  simp only [h]

theorem serve_none {score : ℕ}
    (h : (if score = now then m else m.visit now lane).popJobFromLane now pop lane = (m', none)) :
    m.serve now pop lane score = (m'.dropLane lane, none) := by
  rw [serve]
  simp only [h]

theorem drain_eq_rotate (now : ℕ) (pop : String) (rounds n : ℕ) (todo : List (String × ℕ))
    (m : MultilaneQueue δ) :
    m.drain now pop rounds n todo = ((rotate (serve now pop) rounds n todo m).1,
      (rotate (serve now pop) rounds n todo m).2.map Prod.snd) := by
  induction rounds generalizing n todo m with
  | zero => rw [drain, rotate_fuel_zero, List.map_nil]
  | succ rounds ih =>
    cases n with
    | zero => rw [rotate_zero, drain, List.map_nil]; simp
    | succ n =>
      cases todo with
      | nil => rw [rotate_nil, drain, List.map_nil] <;> simp
      | cons entry rest =>
        obtain ⟨lane, score⟩ := entry
        rw [drain]
        cases hr : (if score = now then m else m.visit now lane).popJobFromLane now pop lane with
        | mk m₂ job =>
          cases job with
          | some job =>
            rw [rotate_some (serve_some hr), List.map_cons]
            simp only [ih]
          | none =>
            rw [rotate_none (serve_none hr)]
            simp only [ih]

end MultilaneQueue

/-! ## What asking a lane keeps -/

/-- The live ids change places, and keep their data. -/
structure Queue.Rearranged (q q' : Queue δ) : Prop where
  index : q'.index.Perm q.index
  data : q'.data = q.data

namespace Queue.Rearranged

variable {q q' q'' : Queue δ}

theorem refl : q.Rearranged q := ⟨.refl _, rfl⟩

theorem trans (h : q.Rearranged q') (h' : q'.Rearranged q'') : q.Rearranged q'' :=
  ⟨h'.index.trans h.index, h'.data.trans h.data⟩

theorem reclaim {id : String} (hn : q.index.Nodup) (hid : id ∈ keys q.active) :
    q.Rearranged (q.reclaim id) := by
  unfold Queue.reclaim
  split_ifs
  · have hactive : (keys q.active).Nodup := hn.of_append_right
    exact ⟨(hdel_active_index_perm q hactive hid).symm, rfl⟩
  · exact refl

theorem reclaimAll (ids : List String) (hn : q.index.Nodup) (hids : ids.Nodup)
    (hactive : ∀ id ∈ ids, id ∈ keys q.active) : q.Rearranged (q.reclaimAll ids) :=
  foldl_members (I := q.Rearranged) refl hids hactive
    (fun _ _ h hid => h.trans (reclaim (h.index.nodup_iff.mpr hn) hid)) fun _ _ _ => mem_active_reclaim

theorem reclaimed (hn : q.index.Nodup) : q.Rearranged q.reclaimed :=
  reclaimAll _ hn hn.of_append_right fun _ hin => hin

theorem mature {id : String} (hn : q.index.Nodup) (hid : id ∈ keys q.delayed) :
    q.Rearranged (q.mature id) := by
  have hdelayed : (keys q.delayed).Nodup := hn.of_append_left.of_append_right
  refine ⟨(enqueue_index_perm _ _ _).trans (hdel_delayed_index_perm q hdelayed hid).symm, ?_⟩
  unfold Queue.mature
  rw [enqueue_data]
  rfl

theorem matureAll (ids : List String) (hn : q.index.Nodup) (hids : ids.Nodup)
    (hdelayed : ∀ id ∈ ids, id ∈ keys q.delayed) : q.Rearranged (q.matureAll ids) :=
  foldl_members (I := q.Rearranged) refl hids hdelayed
    (fun _ _ h hid => h.trans (mature (h.index.nodup_iff.mpr hn) hid)) fun _ _ _ => mem_delayed_mature

theorem matured (hn : q.index.Nodup) (now : ℕ) : q.Rearranged (q.matured now) := by
  have hdelayed : (keys q.delayed).Nodup := hn.of_append_left.of_append_right
  exact matureAll _ hn (hdelayed.sublist (due_sublist q.delayed now))
    fun _ hin => (due_sublist q.delayed now).subset hin

end Queue.Rearranged

/-- The lease of the job is live, and it is neither pending nor delayed. -/
structure Queue.Spent (i : String) (q : Queue δ) : Prop where
  pending : i ∉ q.pending
  delayed : i ∉ keys q.delayed
  held : ∃ token, (q.jobs i).leaseToken = some token ∧ (i, token) ∈ q.leases

namespace Queue.Spent

variable {i : String} {q : Queue δ}

theorem reclaimAll (h : q.Spent i) (ids : List String) : (q.reclaimAll ids).Spent i := by
  induction ids generalizing q with
  | nil => exact h
  | cons id ids ih =>
    refine ih ?_
    unfold Queue.reclaim
    split_ifs with hlapsed
    · obtain ⟨token, htoken, hlease⟩ := h.held
      have hne : i ≠ id := by
        rintro rfl
        exact hlapsed token htoken hlease
      refine ⟨fun hin => h.pending ((List.mem_cons.mp hin).resolve_left hne), h.delayed, token, ?_,
        hlease⟩
      simpa [Queue.withMeta, hne] using htoken
    · exact h

theorem matureAll (h : q.Spent i) (ids : List String) (hids : i ∉ ids) : (q.matureAll ids).Spent i := by
  induction ids generalizing q with
  | nil => exact h
  | cons id ids ih =>
    have hne : i ≠ id := fun he => hids (by simp [he])
    refine ih ?_ fun hin => hids (List.mem_cons_of_mem _ hin)
    obtain ⟨token, htoken, hlease⟩ := h.held
    unfold Queue.mature
    cases (q.jobs id).reentryPosition.getD .last
    all_goals
      refine ⟨?_, fun hin => h.delayed (mem_keys_hdel.mp hin).1, token, ?_, hlease⟩
      · simpa [Queue.enqueue, Queue.withMeta, hne] using h.pending
      · simpa [Queue.enqueue, Queue.withMeta, hne] using htoken

end Queue.Spent

namespace MultilaneQueue

variable {m m' : MultilaneQueue δ} {now : ℕ} {pop lane : String}

/-- Every id is in one place only and has data, and a lane that is not empty is in the lane set. -/
structure Tidy (m : MultilaneQueue δ) : Prop where
  nodup : ∀ lane, (m.view lane).index.Nodup
  apart : ∀ lane lane' id, id ∈ (m.view lane).index → id ∈ (m.view lane').index → lane = lane'
  data : ∀ lane, ∀ id ∈ (m.view lane).index, (m.data id).isSome
  listed : ∀ lane, (m.view lane).index ≠ [] → lane ∈ keys m.lanes

/-- The live ids of every lane change places only, and the lanes that are not empty stay listed. -/
structure Rearranged (m m' : MultilaneQueue δ) : Prop where
  lanes : ∀ lane, (m.view lane).Rearranged (m'.view lane)
  listed : ∀ lane, (m'.view lane).index ≠ [] → lane ∈ keys m.lanes → lane ∈ keys m'.lanes

theorem Tidy.rearranged (h : m.Tidy) (hr : m.Rearranged m') : m'.Tidy where
  nodup lane := (hr.lanes lane).index.nodup_iff.mpr (h.nodup lane)
  apart lane lane' id hin hin' :=
    h.apart lane lane' id ((hr.lanes lane).index.mem_iff.mp hin) ((hr.lanes lane').index.mem_iff.mp hin')
  data lane id hin := by
    have hdata : m'.data = m.data := (hr.lanes lane).data
    rw [hdata]
    exact h.data lane id ((hr.lanes lane).index.mem_iff.mp hin)
  listed lane hne := by
    refine hr.listed lane hne (h.listed lane fun hnil => hne ?_)
    have hperm := (hr.lanes lane).index
    rw [hnil] at hperm
    exact hperm.eq_nil

theorem Rearranged.put {q : Queue δ} (hq : (m.view lane).Rearranged q) : m.Rearranged (m.put lane q) where
  lanes lane' := by
    by_cases he : lane' = lane
    · subst he
      rw [view_put_self]
      exact hq
    · have hlane : (m.put lane q).lane lane' = m.lane lane' := by simp [MultilaneQueue.put, he]
      refine ⟨?_, hq.data⟩
      rw [Queue.index, Queue.index]
      simp only [view, hlane]
      exact .refl _
  listed _ _ h := h

theorem Rearranged.refl : m.Rearranged m := ⟨fun _ => .refl, fun _ _ h => h⟩

theorem Rearranged.trans {m'' : MultilaneQueue δ} (h : m.Rearranged m') (h' : m'.Rearranged m'') :
    m.Rearranged m'' where
  lanes lane := (h.lanes lane).trans (h'.lanes lane)
  listed lane hne hin := by
    refine h'.listed lane hne (h.listed lane (fun hnil => hne ?_) hin)
    have hperm := (h'.lanes lane).index
    rw [hnil] at hperm
    exact hperm.eq_nil

theorem Tidy.cleanup (h : m.Tidy) (lane : String) : m.Rearranged (m.cleanupLaneLeases lane) :=
  .put (.reclaimed (h.nodup lane))

theorem Tidy.process (h : m.Tidy) (now : ℕ) (lane : String) :
    m.Rearranged (m.processDelayedJobs now lane) :=
  .put (.matured (h.nodup lane) now)

theorem Tidy.visit (h : m.Tidy) (now : ℕ) (lane : String) : m.Rearranged (m.visit now lane) := by
  have hclean := h.cleanup lane
  refine (hclean.trans ((h.rearranged hclean).process now lane)).trans ⟨fun _ => .refl, ?_⟩
  exact fun lane' _ hin => mem_keys_zadd.mpr (.inr hin)

theorem Tidy.dropLane (lane : String) : m.Rearranged (m.dropLane lane) := by
  unfold MultilaneQueue.dropLane
  split_ifs with hempty
  · refine ⟨fun _ => .refl, fun lane' hne hin => mem_keys_hdel.mpr ⟨hin, ?_⟩⟩
    rintro rfl
    exact hne hempty
  · exact .refl

theorem Tidy.popJobFromLane (h : m.Tidy) (now : ℕ) (pop lane : String) :
    m.Rearranged (m.popJobFromLane now pop lane).1 ∧
      ((m.popJobFromLane now pop lane).2 = none →
        ((m.popJobFromLane now pop lane).1.lane lane).pending = []) := by
  have hdata : ∀ id ∈ (m.lane lane).pending, (m.data id).isSome :=
    fun id hin => h.data lane id (mem_index.mpr (.inl hin))
  rcases m.popJobFromLane_cases now pop hdata with ⟨hnil, he⟩ | ⟨rest, id, data, hrest, -, he⟩
  · rw [he]
    exact ⟨.refl, fun _ => hnil⟩
  · rw [he]
    refine ⟨.put ⟨?_, rfl⟩, fun hnone => absurd hnone (by simp)⟩
    have hperm : (m.view lane).index.Perm (id :: (m.shortened lane).index) := by
      have hpending : (m.view lane).pending = rest ++ [id] := hrest
      have hshort : (m.shortened lane).pending = rest := by simp [shortened, hrest]
      rw [Queue.index, Queue.index, hpending, hshort]
      simp only [List.append_assoc, List.singleton_append]
      exact List.perm_middle
    have hidle : id ∉ keys (m.shortened lane).active := by
      have hn : (id :: (m.shortened lane).index).Nodup := hperm.nodup_iff.mp (h.nodup lane)
      exact fun hin => (List.nodup_cons.mp hn).1 (mem_index.mpr (.inr (.inr hin)))
    exact (hset_active_index_perm (m.shortened lane) hidle _).trans hperm.symm

theorem Tidy.asked (h : m.Tidy) (now : ℕ) (lane : String) (score : ℕ) :
    m.Rearranged (if score = now then m else m.visit now lane) := by
  split_ifs
  · exact .refl
  · exact h.visit now lane

/-- **Asking a lane keeps the queue tidy, and a lane that gives no job has none pending.** -/
theorem Tidy.serve (h : m.Tidy) (now : ℕ) (pop lane : String) (score : ℕ) :
    m.Rearranged (m.serve now pop lane score).1 ∧
      ((m.serve now pop lane score).2 = none →
        ((m.serve now pop lane score).1.lane lane).pending = []) := by
  have hasked := h.asked now lane score
  obtain ⟨hpop, hnone⟩ := (h.rearranged hasked).popJobFromLane now pop lane
  cases hr : (if score = now then m else m.visit now lane).popJobFromLane now pop lane with
  | mk m' job =>
    rw [hr] at hpop hnone
    cases job with
    | some job =>
      rw [serve_some hr]
      exact ⟨hasked.trans hpop, fun he => absurd he (by simp)⟩
    | none =>
      rw [serve_none hr]
      have hlanes : (m'.dropLane lane).lane = m'.lane := by
        unfold MultilaneQueue.dropLane
        split_ifs <;> rfl
      refine ⟨(hasked.trans hpop).trans (Tidy.dropLane lane), fun _ => ?_⟩
      rw [hlanes]
      exact hnone rfl

theorem serve_other {lane' : String} (hne : lane' ≠ lane) (score : ℕ) :
    (m.serve now pop lane score).1.lane lane' = m.lane lane' := by
  have hasked : (if score = now then m else m.visit now lane).lane lane' = m.lane lane' := by
    split_ifs
    · rfl
    · simp [visit, processDelayedJobs, cleanupLaneLeases, put, hne]
  have hpop : ∀ m : MultilaneQueue δ, (m.popJobFromLane now pop lane).1.lane lane' = m.lane lane' := by
    intro m
    unfold MultilaneQueue.popJobFromLane
    cases (m.lane lane).pending.getLast? with
    | none => rfl
    | some id => simp [put, hne]
  have hdrop : ∀ m : MultilaneQueue δ, (m.dropLane lane).lane = m.lane := by
    intro m
    unfold MultilaneQueue.dropLane
    split_ifs <;> rfl
  have hafter := (hpop (if score = now then m else m.visit now lane)).trans hasked
  cases hr : (if score = now then m else m.visit now lane).popJobFromLane now pop lane with
  | mk m' job =>
    rw [hr] at hafter
    cases job with
    | some job =>
      rw [serve_some hr]
      exact hafter
    | none =>
      rw [serve_none hr]
      exact (congrFun (hdrop m') lane').trans hafter

/-! ### Each job once -/

def Spent (i : String) (m : MultilaneQueue δ) : Prop := ∀ lane, (m.view lane).Spent i

theorem Spent.put {i : String} {q : Queue δ} (h : m.Spent i) (hq : q.Spent i) :
    (m.put lane q).Spent i := by
  intro lane'
  by_cases he : lane' = lane
  · subst he
    rw [view_put_self]
    exact hq
  · have hlane : (m.put lane q).lane lane' = m.lane lane' := by simp [MultilaneQueue.put, he]
    refine ⟨?_, ?_, hq.held⟩
    · simp only [view, hlane]
      exact (h lane').pending
    · simp only [view, hlane]
      exact (h lane').delayed

theorem Spent.visit {i : String} (h : m.Spent i) (now : ℕ) (lane : String) : (m.visit now lane).Spent i := by
  have hclean : (m.cleanupLaneLeases lane).Spent i := h.put ((h lane).reclaimAll _)
  have hmature : (((m.cleanupLaneLeases lane).view lane).matured now).Spent i :=
    (hclean lane).matureAll _ fun hin => (hclean lane).delayed ((due_sublist _ now).subset hin)
  exact hclean.put hmature

theorem Tidy.spent_popJobFromLane (h : m.Tidy) (now : ℕ) (pop lane : String) {m' : MultilaneQueue δ}
    {job : BorrowedJob δ} (hpop : m.popJobFromLane now pop lane = (m', some job)) :
    m'.Spent job.id ∧ ∀ i, m.Spent i → i ≠ job.id ∧ m'.Spent i := by
  have hdata : ∀ id ∈ (m.lane lane).pending, (m.data id).isSome :=
    fun id hin => h.data lane id (mem_index.mpr (.inl hin))
  rcases m.popJobFromLane_cases now pop hdata with ⟨-, he⟩ | ⟨rest, id, data, hrest, -, he⟩
  · rw [he] at hpop
    exact absurd (Prod.mk.inj hpop).2 (by simp)
  rw [he] at hpop
  obtain ⟨rfl, hjob⟩ := Prod.mk.inj hpop
  obtain rfl := Option.some.inj hjob
  have hin : id ∈ (m.view lane).pending := by simp [view, hrest]
  have hother : ∀ lane', lane' ≠ lane →
      (m.put lane ((m.shortened lane).lend now pop id)).lane lane' = m.lane lane' :=
    fun lane' hne => by simp [put, hne]
  have hheld : ((m.shortened lane).lend now pop id).Spent id := by
    have hn : (m.view lane).index.Nodup := h.nodup lane
    have hpending : (rest ++ [id]).Nodup := by
      have : (m.view lane).pending.Nodup := hn.of_append_left.of_append_left
      rwa [show (m.view lane).pending = rest ++ [id] from hrest] at this
    refine ⟨?_, ?_, (m.shortened lane).nextToken now pop id, ?_, ?_⟩
    · rw [← List.concat_eq_append, List.nodup_concat] at hpending
      simpa [Queue.lend, Queue.withMeta, shortened, hrest] using hpending.1
    · have hdisjoint := List.disjoint_of_nodup_append hn.of_append_left
      exact fun hd => hdisjoint hin hd
    · simp [Queue.lend, Queue.withMeta]
    · exact mem_sadd.mpr (.inl rfl)
  refine ⟨fun lane' => ?_, fun i hi => ?_⟩
  · by_cases he : lane' = lane
    · subst he
      rw [view_put_self]
      exact hheld
    · refine ⟨fun hp => he ?_, fun hd => he ?_, hheld.held⟩
      · simp only [view, hother lane' he] at hp
        exact h.apart lane' lane id (mem_index.mpr (.inl hp)) (mem_index.mpr (.inl hin))
      · simp only [view, hother lane' he] at hd
        exact h.apart lane' lane id (mem_index.mpr (.inr (.inl hd))) (mem_index.mpr (.inl hin))
  · have hne : i ≠ id := by
      rintro rfl
      exact (hi lane).pending hin
    refine ⟨hne, hi.put ?_⟩
    obtain ⟨token, htoken, hlease⟩ := (hi lane).held
    refine ⟨fun hp => (hi lane).pending ?_, (hi lane).delayed, token, ?_, mem_sadd.mpr (.inr hlease)⟩
    · exact List.dropLast_subset _ hp
    · simpa [Queue.lend, Queue.withMeta, shortened, hne] using htoken

theorem Spent.asked {i : String} (h : m.Spent i) (now : ℕ) (lane : String) (score : ℕ) :
    (if score = now then m else m.visit now lane).Spent i := by
  split_ifs
  · exact h
  · exact h.visit now lane

theorem Tidy.spent_of_none (h : m.Tidy) (now : ℕ) (pop lane : String) {m' : MultilaneQueue δ}
    (hpop : m.popJobFromLane now pop lane = (m', none)) {i : String} (hi : m.Spent i) :
    (m'.dropLane lane).Spent i := by
  have hdata : ∀ id ∈ (m.lane lane).pending, (m.data id).isSome :=
    fun id hin => h.data lane id (mem_index.mpr (.inl hin))
  rcases m.popJobFromLane_cases now pop hdata with ⟨-, he⟩ | ⟨rest, id, data, -, -, he⟩
  · rw [he] at hpop
    obtain ⟨rfl, -⟩ := Prod.mk.inj hpop
    unfold MultilaneQueue.dropLane
    split_ifs
    all_goals exact hi
  · rw [he] at hpop
    exact absurd (Prod.mk.inj hpop).2 (by simp)

def ids (found : List (String × BorrowedJob δ)) : List String := found.map fun e => e.2.id

/-- **The jobs that are found are distinct, and none is spent before.** -/
theorem Tidy.found_nodup (now : ℕ) (pop : String) (rounds n : ℕ) (line : List (String × ℕ))
    (h : m.Tidy) :
    (ids (rotate (MultilaneQueue.serve now pop) rounds n line m).2).Nodup ∧
      ∀ i, m.Spent i → i ∉ ids (rotate (MultilaneQueue.serve now pop) rounds n line m).2 := by
  refine rotate_induction (motive := fun _ _ _ m r => m.Tidy →
    (ids r.2).Nodup ∧ ∀ i, m.Spent i → i ∉ ids r.2) ?_ ?_ ?_ rounds n line m h
  · exact fun _ _ _ _ _ _ => ⟨List.nodup_nil, fun _ _ => List.not_mem_nil⟩
  · intro rounds n lane score line m m' score' job hserve ih h
    have hm' := h.rearranged (h.serve now pop lane score).1
    rw [hserve] at hm'
    have hasked := h.rearranged (h.asked now lane score)
    cases hr : (if score = now then m else m.visit now lane).popJobFromLane now pop lane with
    | mk m₁ found =>
      cases found with
      | none =>
        rw [serve_none hr] at hserve
        exact absurd (Prod.mk.inj hserve).2 (by simp)
      | some job' =>
        rw [serve_some hr] at hserve
        obtain ⟨rfl, he⟩ := Prod.mk.inj hserve
        obtain ⟨-, rfl⟩ := Prod.mk.inj (Option.some.inj he)
        obtain ⟨hspent, hothers⟩ := hasked.spent_popJobFromLane now pop lane hr
        obtain ⟨hnodup, hnot⟩ := ih hm'
        refine ⟨List.nodup_cons.mpr ⟨hnot _ hspent, hnodup⟩, fun i hi hin => ?_⟩
        obtain ⟨hne, hi'⟩ := hothers i (hi.asked now lane score)
        exact (List.mem_cons.mp hin).elim hne (hnot i hi')
  · intro rounds n lane score line m m' hserve ih h
    have hm' := h.rearranged (h.serve now pop lane score).1
    rw [hserve] at hm'
    have hasked := h.rearranged (h.asked now lane score)
    cases hr : (if score = now then m else m.visit now lane).popJobFromLane now pop lane with
    | mk m₁ found =>
      cases found with
      | some job =>
        rw [serve_some hr] at hserve
        exact absurd (Prod.mk.inj hserve).2 (by simp)
      | none =>
        rw [serve_none hr] at hserve
        obtain ⟨rfl, -⟩ := Prod.mk.inj hserve
        obtain ⟨hnodup, hnot⟩ := ih hm'
        exact ⟨hnodup, fun i hi =>
          hnot i (hasked.spent_of_none now pop lane hr (hi.asked now lane score))⟩

theorem Tidy.found_mem (now : ℕ) (pop : String) (rounds n : ℕ) (line : List (String × ℕ))
    (h : m.Tidy) : ∀ e ∈ (rotate (MultilaneQueue.serve now pop) rounds n line m).2,
      e.2.id ∈ (m.view e.1).index := by
  refine rotate_induction (motive := fun _ _ _ m r => m.Tidy →
    ∀ e ∈ r.2, BorrowedJob.id e.2 ∈ (m.view e.1).index) ?_ ?_ ?_ rounds n line m h
  · exact fun _ _ _ _ _ _ _ hin => absurd hin List.not_mem_nil
  · intro rounds n lane score line m m' score' job hserve ih h e hin
    have hr := (h.serve now pop lane score).1
    rw [hserve] at hr
    rcases List.mem_cons.mp hin with rfl | hin
    · have hasked := h.asked now lane score
      refine (hasked.lanes lane).index.mem_iff.mp ?_
      cases hp : (if score = now then m else m.visit now lane).popJobFromLane now pop lane with
      | mk m₁ found =>
        cases found with
        | none =>
          rw [serve_none hp] at hserve
          exact absurd (Prod.mk.inj hserve).2 (by simp)
        | some job' =>
          rw [serve_some hp] at hserve
          obtain ⟨-, rfl⟩ := Prod.mk.inj (Option.some.inj (Prod.mk.inj hserve).2)
          exact mem_index.mpr (.inl (mem_of_popped (congrArg Prod.snd hp)))
    · exact (hr.lanes e.1).index.mem_iff.mp (ih (h.rearranged hr) e hin)
  · intro rounds n lane score line m m' hserve ih h e hin
    have hr := (h.serve now pop lane score).1
    rw [hserve] at hr
    exact (hr.lanes e.1).index.mem_iff.mp (ih (h.rearranged hr) e hin)

theorem listed_pushToLane (lane id : String) (data : δ) (now delay : ℕ) (position : Position)
    (h : ∀ lane', (m.view lane').index ≠ [] → lane' ∈ keys m.lanes) (lane' : String)
    (hne : ((m.pushToLane lane id data now delay position).1.view lane').index ≠ []) :
    lane' ∈ keys (m.pushToLane lane id data now delay position).1.lanes := by
  by_cases hknown : id ∈ m.dedup
  · rw [MultilaneQueue.pushToLane, if_pos hknown] at hne ⊢
    exact h lane' hne
  rw [MultilaneQueue.pushToLane, if_neg hknown] at hne ⊢
  show lane' ∈ keys (if lane ∈ keys m.lanes then m.lanes else zadd m.lanes lane 0)
  by_cases he : lane' = lane
  · subst he
    split_ifs with hin
    · exact hin
    · exact mem_keys_zadd.mpr (.inl rfl)
  · have hin : lane' ∈ keys m.lanes := h lane' (by simpa [view, put, Queue.index, he] using hne)
    split_ifs
    · exact hin
    · exact mem_keys_zadd.mpr (.inr hin)

end MultilaneQueue

/-! ## The batch -/

/-- **The loop of a pop ends, and its batch is fair**: it has at most `batch` jobs, each once and from
its own lane; a batch that is not full leaves no job pending; a lane gives at most one job less than
another unless it has none left; and lanes that are not empty stay in the lane set. -/
theorem fair_batch (m : MultilaneQueue δ) (h : m.Tidy) (hlanes : (keys m.lanes).Nodup)
    (hnone : m.cancellations = []) (now : ℕ) (pop : String) (batch : ℕ) :
    ∃ rounds w, (Walk.start m).run now pop batch rounds = some w ∧
      m.popBatch now pop batch = (w.queue, w.resultJobs.map Prod.snd, []) ∧
      w.resultJobs.length ≤ batch ∧ (MultilaneQueue.ids w.resultJobs).Nodup ∧
      (∀ e ∈ w.resultJobs, e.2.id ∈ (m.view e.1).index) ∧
      (w.resultJobs.length < batch → ∀ lane, (w.queue.lane lane).pending = []) ∧
      (∀ lane lane', (w.resultJobs.map Prod.fst).count lane ≤
        (w.resultJobs.map Prod.fst).count lane' + 1 ∨ (w.queue.lane lane').pending = []) ∧
      ∀ lane, (w.queue.view lane).index ≠ [] → lane ∈ keys w.queue.lanes := by
  obtain ⟨rounds, w, hrun, hw⟩ := Walk.runs m now pop batch
  have hpop : m.popBatch now pop batch = (w.queue, w.resultJobs.map Prod.snd, []) := by
    rw [MultilaneQueue.popBatch, hnone]
    simp only [MultilaneQueue.cancelAll, MultilaneQueue.drain_eq_rotate, ← hw]
  obtain ⟨hqueue, hjobs⟩ := Prod.mk.inj hw
  have hserve : ∀ (m' : MultilaneQueue δ) lane score, m.Rearranged m' ∧ m'.Tidy →
      m.Rearranged (m'.serve now pop lane score).1 ∧ (m'.serve now pop lane score).1.Tidy := by
    intro m' lane score hm
    have hr := (hm.2.serve now pop lane score).1
    exact ⟨hm.1.trans hr, hm.2.rearranged hr⟩
  have hdry : ∀ (m' : MultilaneQueue δ) lane score, m.Rearranged m' ∧ m'.Tidy →
      (m'.serve now pop lane score).2 = none →
      ((m'.serve now pop lane score).1.lane lane).pending = [] :=
    fun m' lane score hm => (hm.2.serve now pop lane score).2
  have hkeep : ∀ (m' : MultilaneQueue δ) lane score lane', m.Rearranged m' ∧ m'.Tidy → lane' ≠ lane →
      (m'.lane lane').pending = [] →
      ((m'.serve now pop lane score).1.lane lane').pending = [] := by
    intro m' lane score lane' _ hne hd
    rw [MultilaneQueue.serve_other hne]
    exact hd
  have hinit : m.Rearranged m ∧ m.Tidy := ⟨.refl, h⟩
  obtain ⟨hfinal, htidy⟩ := rotate_keeps hserve (batch + m.lanes.length) batch m.lanes m hinit
  rw [← hqueue] at hfinal htidy
  -- a lane that is not in the table was empty, and still is
  have houtside : ∀ lane, lane ∉ keys m.lanes → (w.queue.lane lane).pending = [] := by
    intro lane hout
    have hempty : (m.view lane).index = [] := by
      by_contra hne
      exact hout (h.listed lane hne)
    have hperm := (hfinal.lanes lane).index
    rw [hempty] at hperm
    exact (List.append_eq_nil_iff.mp (List.append_eq_nil_iff.mp hperm.eq_nil).1).1
  refine ⟨rounds, w, hrun, hpop, ?_, ?_, ?_, fun hfew lane => ?_, fun lane lane' => ?_, htidy.listed⟩
  · rw [hjobs]
    exact rotate_length _ _ _ _
  · rw [hjobs]
    exact (h.found_nodup now pop _ _ _).1
  · rw [hjobs]
    exact h.found_mem now pop _ _ _
  · by_cases hin : lane ∈ keys m.lanes
    · rw [hjobs] at hfew
      rw [hqueue]
      exact rotate_dry (fun lane m' => (m'.lane lane).pending = []) hserve hdry hkeep _ batch
        m.lanes m hinit hlanes le_rfl hfew lane hin
    · exact houtside lane hin
  · by_cases hin : lane' ∈ keys m.lanes
    · rw [hjobs, hqueue]
      exact rotate_fair (fun lane m' => (m'.lane lane).pending = []) hserve hdry hkeep _ batch
        m.lanes m hinit hlanes lane lane' hin
    · exact .inr (houtside lane' hin)

/-- Two jobs in one lane and one in another. -/
def Fair.sample : MultilaneQueue Unit :=
  (Multilane.run ⟨.active, 1, 1⟩ [.push "l" "a" () 0 0 .last, .push "l" "b" () 0 0 .last,
    .push "k" "c" () 0 0 .last]).queue

theorem Fair.sample_tidy : Fair.sample.Tidy := by
  have hx : Fair.sample.Exclusive := (run_inv _ _).queue
  refine ⟨fun lane => (hx.lanes lane).nodup_index, fun lane lane' id hin hin' => ?_,
    fun lane id hin => ((hx.lanes lane).stored id hin).data, ?_⟩
  · exact Option.some.inj ((hx.laneId_of_mem hin).symm.trans (hx.laneId_of_mem hin'))
  · refine MultilaneQueue.listed_pushToLane _ _ _ _ _ _ ?_
    refine MultilaneQueue.listed_pushToLane _ _ _ _ _ _ ?_
    exact MultilaneQueue.listed_pushToLane _ _ _ _ _ _ fun _ hne => absurd rfl hne

/-- A batch of two takes one job from each lane. -/
theorem fair_batch_sample : ∃ rounds w, (Walk.start Fair.sample).run 1 "p" 2 rounds = some w ∧
    w.resultJobs.length ≤ 2 ∧
    ((w.resultJobs.map Prod.fst).count "l" ≤ (w.resultJobs.map Prod.fst).count "k" + 1 ∨
      (w.queue.lane "k").pending = []) := by
  obtain ⟨rounds, w, hrun, -, hlength, -, -, -, hfair, -⟩ := fair_batch Fair.sample Fair.sample_tidy
    (by decide +kernel) (by decide +kernel) 1 "p" 2
  exact ⟨rounds, w, hrun, hlength, hfair "l" "k"⟩

end EngineCore.Twmq
