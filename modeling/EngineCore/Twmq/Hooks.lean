import EngineCore.Twmq.Dedup

/-!
# Terminal hooks

A completion applies the commands of its hook in its own pipeline. A cancellation moves the job in a
script; its hook is run later, by a task that first reads the job and then applies the commands.

* **`hooks_orderly`**: runs of careful steps are orderly; **`hooks_twice`**: a run that is not.
-/

namespace EngineCore.Twmq

open Redis

/-- The hooks that end a job: `on_success`, or `on_fail` with the handler's error or with the error
of a cancellation by the user. -/
inductive TerminalHook
  | success
  | failed
  | cancelled
  deriving DecidableEq, Repr

inductive HookEntry
  | admitted (id : String)
  | hook (id : String) (kind : TerminalHook)
  deriving DecidableEq, Repr

/-- The terminal hooks applied for an id since its last admission. The last entry of the log comes
first. -/
def hooks (id : String) : List HookEntry → List TerminalHook
  | [] => []
  | .admitted i :: log => if i = id then [] else hooks id log
  | .hook i kind :: log => if i = id then kind :: hooks id log else hooks id log

/-- One terminal hook at most since the last admission, and none of a cancellation after one of a
completion. -/
def Orderly (log : List HookEntry) : Prop := ∀ id, (hooks id log).length ≤ 1 ∧
  ∀ later earlier, hooks id log = later ++ .cancelled :: earlier → ∀ kind ∈ earlier, kind = .cancelled

/-- The queue with the cancellation hooks to come: `due` have not read their job, `read` have. -/
structure HookSite (δ : Type) where
  queue : Queue δ := {}
  due : List String := []
  read : List String := []
  log : List HookEntry := []

variable {δ : Type}

/-- The jobs whose cancellation hook becomes due. -/
def Op.cancelled (q : Queue δ) : Op δ → List String
  | .pop now popId batch => (q.popBatch now popId batch).2.2
  | .cancel id now => if (q.cancelJob id now).2 = .cancelledImmediately then [id] else []
  | _ => []

/-- The admission or the hook that is part of an operation. -/
def Op.entries (q : Queue δ) : Op δ → List HookEntry
  | .push id .. => if id ∈ q.dedup then [] else [.admitted id]
  | .complete id token _ .success => if (id, token) ∈ q.leases then [.hook id .success] else []
  | .complete id token _ .fail => if (id, token) ∈ q.leases then [.hook id .failed] else []
  | _ => []

/-- A step: an operation of the queue; a completion by a queue error, which has a hook of its own; or
a step of `process_cancelled_job`, which may fail at any point. -/
inductive HookOp (δ : Type)
  | queue (op : Op δ)
  | queueError (id : String) (token : LeaseToken) (now : ℕ)
  | getJob (id : String)
  | onFail (id : String)
  | giveUp (id : String)

def HookOp.apply (options : QueueOptions) (s : HookSite δ) : HookOp δ → HookSite δ
  | .queue op =>
    { s with
      queue := op.apply options s.queue
      due := op.cancelled s.queue ++ s.due
      log := op.entries s.queue ++ s.log }
  | .queueError id token now => { s with queue := (s.queue.complete options id token now .fail).1 }
  | .getJob id =>
    if id ∈ s.due then
      { s with
        due := s.due.erase id
        read := if (s.queue.data id).isSome then id :: s.read else s.read }
    else s
  | .onFail id =>
    if id ∈ s.read then
      { s with read := s.read.erase id, log := .hook id .cancelled :: s.log }
    else s
  | .giveUp id => { s with due := s.due.erase id, read := s.read.erase id }

def HookSite.run (options : QueueOptions) (ops : List (HookOp δ)) : HookSite δ :=
  ops.foldl (HookOp.apply options) {}

/-- A pop cancels live jobs only, and an id is not admitted while a cancellation hook of it is still
to come. -/
def HookOp.Careful (s : HookSite δ) : HookOp δ → Prop
  | .queue (.pop now popId batch) => ∀ id ∈ (s.queue.popBatch now popId batch).2.2, id ∈ s.queue.index
  | .queue (.push id ..) => id ∉ s.queue.dedup → id ∉ s.due ∧ id ∉ s.read
  | _ => True

instance (s : HookSite δ) : (op : HookOp δ) → Decidable (op.Careful s)
  | .queue (.pop now popId batch) =>
    inferInstanceAs (Decidable (∀ id ∈ (s.queue.popBatch now popId batch).2.2, id ∈ s.queue.index))
  | .queue (.push id ..) =>
    inferInstanceAs (Decidable (id ∉ s.queue.dedup → id ∉ s.due ∧ id ∉ s.read))
  | .queue (.cancel ..) | .queue (.complete ..) | .queue (.expire ..) | .queue .pruneSuccess
  | .queue .pruneFailed | .queueError .. | .getJob .. | .onFail .. | .giveUp .. => isTrue trivial

def HookSite.Careful (options : QueueOptions) : HookSite δ → List (HookOp δ) → Prop
  | _, [] => True
  | s, op :: ops => op.Careful s ∧ (op.apply options s).Careful options ops

/-! ## The invariant -/

/-- The hooks of an id since its last admission, with those still to come. -/
def HookSite.load (s : HookSite δ) (id : String) : ℕ :=
  (hooks id s.log).length + s.due.count id + s.read.count id

/-- One hook at most has been applied or is to come, and none while the job is live. -/
structure HookSite.Inv (s : HookSite δ) : Prop where
  queue : s.queue.Exclusive (fun _ => True) []
  load : ∀ id, s.load id ≤ 1
  live : ∀ id ∈ s.queue.index, s.load id = 0

namespace HookSite.Inv

variable {s : HookSite δ} {options : QueueOptions}

theorem orderly (h : s.Inv) : Orderly s.log := by
  intro id
  have hlen : (hooks id s.log).length ≤ 1 := by
    have := h.load id
    unfold HookSite.load at this
    omega
  refine ⟨hlen, fun later earlier he kind hk => ?_⟩
  rw [he, List.length_append, List.length_cons] at hlen
  have hnil : earlier = [] := List.length_eq_zero_iff.mp (by omega)
  rw [hnil] at hk
  exact absurd hk List.not_mem_nil

theorem count_erase_add {l : List String} {a : String} (ha : a ∈ l) (b : String) :
    (l.erase a).count b + (if a == b then 1 else 0) = l.count b := by
  rw [← List.count_cons]
  exact (List.perm_cons_erase ha).symm.count_eq b

theorem quiet (h : s.Inv) {s' : HookSite δ} (hq : s'.queue.Exclusive (fun _ => True) [])
    (hindex : ∀ id ∈ s'.queue.index, id ∈ s.queue.index) (hload : ∀ id, s'.load id ≤ s.load id) :
    s'.Inv where
  queue := hq
  load id := (hload id).trans (h.load id)
  live id hid := Nat.le_zero.mp ((hload id).trans (h.live id (hindex id hid)).le)

theorem ends (h : s.Inv) {s' : HookSite δ} {ids : List String} (hn : ids.Nodup)
    (hq : s'.queue.Exclusive (fun _ => True) []) (hids : ∀ id ∈ ids, id ∈ s.queue.index)
    (hindex : ∀ id ∈ s'.queue.index, id ∈ s.queue.index ∧ id ∉ ids)
    (hload : ∀ id, s'.load id = s.load id + ids.count id) : s'.Inv where
  queue := hq
  load id := by
    rw [hload]
    by_cases hid : id ∈ ids
    · rw [h.live id (hids id hid), List.count_eq_one_of_mem hn hid]
    · rw [List.count_eq_zero_of_not_mem hid]
      exact h.load id
  live id hid := by
    rw [hload, h.live id (hindex id hid).1, List.count_eq_zero_of_not_mem (hindex id hid).2]

/-! ## Steps of the queue -/

theorem load_queue (op : Op δ) (i : String) :
    ((HookOp.queue op).apply options s).load i = (hooks i (op.entries s.queue ++ s.log)).length +
      ((op.cancelled s.queue).count i + s.due.count i) + s.read.count i := by
  rw [← List.count_append]
  rfl

theorem push (h : s.Inv) {id : String} {data : δ} {now delay : ℕ} {position : Position}
    (hcareful : (HookOp.queue (.push id data now delay position)).Careful s) :
    ((HookOp.queue (.push id data now delay position)).apply options s).Inv := by
  by_cases hnew : id ∈ s.queue.dedup
  · have he : (s.queue.push id data now delay position).1 = s.queue := by simp [Queue.push, hnew]
    have hentries : (Op.push id data now delay position).entries s.queue = [] := if_pos hnew
    refine h.quiet ?_ (fun i hi => he ▸ hi) fun i => ?_
    · show (s.queue.push id data now delay position).1.Exclusive _ _
      rw [he]
      exact h.queue
    · rw [load_queue, hentries]
      simp [Op.cancelled, HookSite.load]
  · obtain ⟨hdue, hread⟩ := hcareful hnew
    have hentries : (Op.push id data now delay position).entries s.queue = [.admitted id] :=
      if_neg hnew
    have hload : ∀ i, ((HookOp.queue (.push id data now delay position)).apply options s).load i =
        if i = id then 0 else s.load i := by
      intro i
      rw [load_queue, hentries]
      by_cases hi : i = id
      · subst hi
        simp [Op.cancelled, hooks, hdue, hread, List.count_eq_zero_of_not_mem]
      · simp [Op.cancelled, hooks, HookSite.load, hi, Ne.symm hi]
    refine ⟨h.queue.push trivial data now delay position hnew, fun i => ?_, fun i hi => ?_⟩
    · rw [hload]
      split_ifs
      · exact Nat.zero_le 1
      · exact h.load i
    · rw [hload]
      split_ifs with hne
      · rfl
      · have hindex := (apart_push (q := s.queue) hne data now delay position).index
        simp only [List.not_mem_nil, false_or] at hindex
        exact h.live i (hindex.mp hi)

theorem pop (h : s.Inv) {now batch : ℕ} {popId : String}
    (hcareful : (HookOp.queue (.pop now popId batch)).Careful s) :
    ((HookOp.queue (.pop now popId batch)).apply options s).Inv := by
  have hpolls : Queue.Polls popId (fun _ => True) ([], s.queue)
      ([], (s.queue.popBatch now popId batch).1) := h.queue.popBatch_polls (fun _ => trivial) now batch
  have hasked := ((h.queue.reclaimed popId).exclusive h.queue).asked
  have hn : (s.queue.popBatch now popId batch).2.2.Nodup :=
    hasked.sublist (cancelAll_lists now _ hasked s.queue.reclaimed).2.2.1
  refine h.ends hn (hpolls.exclusive h.queue) hcareful (fun i hi => ⟨?_, fun hc => ?_⟩) fun i => ?_
  · by_contra hidle
    exact Queue.idle_polls h.queue hidle hpolls hi
  · exact idle_of_popped h.queue now popId batch hc hi
  · have hentries : (Op.pop now popId batch).entries s.queue = [] := rfl
    rw [load_queue, HookSite.load, Op.cancelled, hentries, List.nil_append]
    omega

theorem cancel (h : s.Inv) (id : String) (now : ℕ) :
    ((HookOp.queue (.cancel id now)).apply options s).Inv := by
  have hq : (s.queue.cancelJob id now).1.Exclusive (fun _ => True) [] := h.queue.cancel now
  have hentries : (Op.cancel id now).entries s.queue = [] := rfl
  by_cases hresult : (s.queue.cancelJob id now).2 = .cancelledImmediately
  · obtain ⟨hin, hout, -⟩ := Queue.idle_of_cancelJob h.queue hresult
    have hdue : (Op.cancel id now).cancelled s.queue = [id] := if_pos hresult
    refine h.ends (List.nodup_singleton id) hq (fun i hi => ?_) (fun i hi => ?_) fun i => ?_
    · rw [List.mem_singleton.mp hi]
      exact hin
    · have hne : i ≠ id := by
        rintro rfl
        exact hout hi
      have hindex := (apart_cancelJob (q := s.queue) hne now).index
      simp only [List.not_mem_nil, false_or] at hindex
      exact ⟨hindex.mp hi, by simpa using hne⟩
    · rw [load_queue, HookSite.load, hdue, hentries, List.nil_append]
      omega
  · have hdue : (Op.cancel id now).cancelled s.queue = [] := if_neg hresult
    refine h.quiet hq (fun i hi => ?_) fun i => ?_
    · rcases cancelJob_cases s.queue id now with ⟨-, he⟩ | ⟨-, he⟩ | ⟨-, he⟩
      · exact absurd he hresult
      · simp only [HookOp.apply, Op.apply, he] at hi
        exact hi
      · simp only [HookOp.apply, Op.apply, he] at hi
        exact hi
    · rw [load_queue, HookSite.load, hdue, hentries, List.nil_append, List.count_nil, Nat.zero_add]

/-! ## Completions -/

theorem mem_of_finish {q : Queue δ} (hx : q.Exclusive (fun _ => True) []) {id i : String}
    {token : LeaseToken} (hlease : (id, token) ∈ q.leases) {now : ℕ} {result : JobResult}
    (hi : i ∈ (q.finish options id token now result).index) : i ∈ q.index := by
  by_cases hne : i = id
  · rw [hne]
    exact mem_index.mpr (.inr (.inr (hx.held id token trivial hlease).1))
  · have hindex := (apart_finish (q := q) hne options token now result).index
    simp only [List.not_mem_nil, false_or] at hindex
    exact hindex.mp hi

theorem idle_finish {q : Queue δ} (hx : q.Exclusive (fun _ => True) []) {id : String}
    {token : LeaseToken} (hlease : (id, token) ∈ q.leases) {now : ℕ} {result : JobResult}
    (hresult : result = .success ∨ result = .fail) :
    id ∉ (q.finish options id token now result).index := by
  have hout : id ∉ (q.settle id token).index :=
    (List.nodup_cons.mp (hx.settle trivial hlease).once).1
  rcases hresult with rfl | rfl
  · rw [Queue.finish, forget_index]
    exact hout
  · rw [Queue.finish, forget_index]
    exact hout

theorem complete (h : s.Inv) (id : String) (token : LeaseToken) (now : ℕ) (result : JobResult) :
    ((HookOp.queue (.complete id token now result)).apply options s).Inv := by
  by_cases hlease : (id, token) ∈ s.queue.leases
  swap
  · have he : (s.queue.complete options id token now result).1 = s.queue := by
      rw [Queue.complete, if_neg hlease]
    have hentries : (Op.complete id token now result).entries s.queue = [] := by
      cases result <;> simp [Op.entries, hlease]
    refine h.quiet ?_ (fun i hi => he ▸ hi) fun i => ?_
    · show (s.queue.complete options id token now result).1.Exclusive _ _
      rw [he]
      exact h.queue
    · rw [load_queue, hentries]
      simp [Op.cancelled, HookSite.load]
  have he : (s.queue.complete options id token now result).1 =
      s.queue.finish options id token now result := by
    rw [Queue.complete, if_pos hlease]
  have hq : (s.queue.complete options id token now result).1.Exclusive (fun _ => True) [] := by
    rw [he]
    exact h.queue.finish trivial hlease now result
  have hin : id ∈ s.queue.index :=
    mem_index.mpr (.inr (.inr (h.queue.held id token trivial hlease).1))
  -- a terminal result ends the job and applies its hook
  have hend : ∀ kind, result = .success ∨ result = .fail →
      (Op.complete id token now result).entries s.queue = [.hook id kind] →
      ((HookOp.queue (.complete id token now result)).apply options s).Inv := by
    intro kind hresult hentries
    refine h.ends (List.nodup_singleton id) hq (fun i hi => ?_) (fun i hi => ?_) fun i => ?_
    · rw [List.mem_singleton.mp hi]
      exact hin
    · have hi : i ∈ (s.queue.finish options id token now result).index := he ▸ hi
      refine ⟨mem_of_finish h.queue hlease hi, fun hc => ?_⟩
      rw [List.mem_singleton.mp hc] at hi
      exact idle_finish h.queue hlease hresult hi
    · rw [load_queue, hentries, HookSite.load]
      by_cases hi : id = i
      · subst hi
        simp [Op.cancelled, hooks]
        omega
      · simp [Op.cancelled, hooks, hi]
  cases result with
  | success => exact hend .success (.inl rfl) (if_pos hlease)
  | fail => exact hend .failed (.inr rfl) (if_pos hlease)
  | nack delay position =>
    refine h.quiet hq (fun i hi => ?_) fun i => ?_
    · have hi : i ∈ (s.queue.finish options id token now (.nack delay position)).index := he ▸ hi
      exact mem_of_finish h.queue hlease hi
    · rw [load_queue]
      simp [HookSite.load, Op.entries, Op.cancelled]

/-- **A careful step keeps the invariant.** -/
theorem apply (h : s.Inv) {op : HookOp δ} (hcareful : op.Careful s) : (op.apply options s).Inv := by
  cases op with
  | queue op =>
    cases op with
    | push id data now delay position => exact h.push hcareful
    | pop now popId batch => exact h.pop hcareful
    | cancel id now => exact h.cancel id now
    | complete id token now result => exact h.complete id token now result
    | expire id token =>
      exact h.quiet (h.queue.expire id token) (fun _ hi => hi) fun _ => le_rfl
    | pruneSuccess =>
      have hp := pruned_pruneSuccess options s.queue
      exact h.quiet (h.queue.trim hp.toTrimmed) (fun _ hi => hp.index ▸ hi) fun _ => le_rfl
    | pruneFailed =>
      have hp := pruned_pruneFailed options s.queue
      exact h.quiet (h.queue.trim hp.toTrimmed) (fun _ hi => hp.index ▸ hi) fun _ => le_rfl
  | queueError id token now =>
    rw [HookOp.apply, Queue.complete]
    split_ifs with hlease
    · refine h.quiet (h.queue.finish trivial hlease now .fail) (fun i hi => ?_) fun _ => le_rfl
      exact mem_of_finish h.queue hlease hi
    · exact h
  | getJob id =>
    rw [HookOp.apply]
    by_cases hdue : id ∈ s.due
    swap
    · rw [if_neg hdue]
      exact h
    rw [if_pos hdue]
    refine h.quiet h.queue (fun _ hi => hi) fun i => ?_
    have hcount := count_erase_add hdue i
    unfold HookSite.load
    split_ifs
    · simp only [List.count_cons]
      omega
    · simp only
      omega
  | onFail id =>
    rw [HookOp.apply]
    split_ifs with hread
    swap
    · exact h
    refine h.quiet h.queue (fun _ hi => hi) fun i => ?_
    have hcount := count_erase_add hread i
    unfold HookSite.load
    by_cases hi : id = i
    · subst hi
      simp only [hooks, beq_self_eq_true, if_true, List.length_cons] at hcount ⊢
      omega
    · simp only [hooks, beq_iff_eq, hi, if_false] at hcount ⊢
      omega
  | giveUp id =>
    refine h.quiet h.queue (fun _ hi => hi) fun i => ?_
    have hdue : (s.due.erase id).count i ≤ s.due.count i := List.erase_sublist.count_le i
    have hread : (s.read.erase id).count i ≤ s.read.count i := List.erase_sublist.count_le i
    unfold HookSite.load HookOp.apply
    simp only
    omega

end HookSite.Inv

/-! ## Runs -/

theorem HookSite.Inv.run {options : QueueOptions} {s : HookSite δ} (h : s.Inv)
    (ops : List (HookOp δ)) (hcareful : s.Careful options ops) :
    (ops.foldl (HookOp.apply options) s).Inv := by
  induction ops generalizing s with
  | nil => exact h
  | cons op ops ih => exact ih (h.apply hcareful.1) hcareful.2

/-- **In a run of careful steps each job has one terminal hook at most.** -/
theorem hooks_orderly (options : QueueOptions) (ops : List (HookOp δ))
    (hcareful : ({} : HookSite δ).Careful options ops) :
    Orderly (HookSite.run options ops).log := by
  have hempty : ({} : HookSite δ).Inv :=
    ⟨.empty, by simp [HookSite.load, hooks], by simp [Queue.index]⟩
  exact (hempty.run ops hcareful).orderly

/-- The handler of `a` fails after its cancellation was asked for: the failure's hook is applied, and
the cancellation's one after it. -/
theorem hooks_twice : ¬Orderly (HookSite.run ⟨.active, 100, 100⟩ [.queue (.push "a" () 0 0 .last),
    .queue (.pop 1 "p" 1), .queue (.cancel "a" 2),
    .queue (.complete "a" ⟨1, "a", 1, "p"⟩ 3 .fail), .queue (.pop 4 "r" 1), .getJob "a",
    .onFail "a"]).log := by
  intro h
  exact absurd (h "a").1 (by decide +kernel)

/-- The handler of `a` succeeds after its cancellation was asked for. -/
theorem hooks_orderly_succeeded : Orderly (HookSite.run ⟨.active, 100, 100⟩
    [.queue (.push "a" () 0 0 .last), .queue (.pop 1 "p" 1), .queue (.cancel "a" 2),
    .queue (.complete "a" ⟨1, "a", 1, "p"⟩ 3 .success), .queue (.pop 4 "r" 1)]).log := by
  refine hooks_orderly _ _ ⟨?_, ?_, trivial, trivial, ?_, trivial⟩
  all_goals decide +kernel

end EngineCore.Twmq
