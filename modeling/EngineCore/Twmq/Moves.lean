import EngineCore.Twmq.Queue

/-!
# What a queue does to one job

Every script and every pipeline of a queue is a sequence of moves of single jobs, or trims a
terminal list. Invariants are shown for these; the operations inherit them.

* `Queue.Apart`: the place and the records of an id that a move is not about; **`Move.apart`**;
* **`Exclusive.move`**, **`Exclusive.trim`**: the moves and the trimming keep one place for each id.
-/

namespace EngineCore.Twmq

open Redis

variable {δ : Type}

/-! ## Records -/

/-- The records a live job needs. -/
structure Queue.Stored (q : Queue δ) (id : String) : Prop where
  data : (q.data id).isSome
  createdAt : (q.jobs id).createdAt.isSome
  attempts : (q.jobs id).attempts.isSome

def Queue.Referenced (q : Queue δ) (id : String) : Prop :=
  id ∈ q.index ∨ id ∈ q.success ∨ id ∈ q.failed

/-- No record of the id is left. -/
structure Queue.Gone (q : Queue δ) (id : String) : Prop where
  data : q.data id = none
  jobs : q.jobs id = {}
  dedup : id ∉ q.dedup
  cancellations : id ∉ q.cancellations

/-- The records of the id are the same. -/
structure Queue.Same (q q' : Queue δ) (id : String) : Prop where
  data : q'.data id = q.data id
  jobs : q'.jobs id = q.jobs id
  dedup : id ∈ q'.dedup ↔ id ∈ q.dedup
  cancellations : id ∈ q'.cancellations ↔ id ∈ q.cancellations

/-- Terminal lists were trimmed, and records were deleted that nothing names any more. -/
structure Queue.Trimmed (q q' : Queue δ) : Prop where
  pending : q'.pending = q.pending
  delayed : q'.delayed = q.delayed
  active : q'.active = q.active
  leases : q'.leases = q.leases
  success : q'.success <+: q.success
  failed : q'.failed <+: q.failed
  asked : q'.cancellations.Sublist q.cancellations
  records : ∀ id, q.Same q' id ∨ ¬q'.Referenced id ∧ q'.Gone id

/-- All such records were deleted. -/
structure Queue.Pruned (q q' : Queue δ) : Prop extends q.Trimmed q' where
  swept : ∀ id, q.Referenced id → q'.Referenced id ∨ q'.Gone id

theorem Queue.Trimmed.index {q q' : Queue δ} (h : q.Trimmed q') : q'.index = q.index := by
  rw [Queue.index, Queue.index, h.pending, h.delayed, h.active]

theorem mem_index {q : Queue δ} {id : String} :
    id ∈ q.index ↔ id ∈ q.pending ∨ id ∈ keys q.delayed ∨ id ∈ keys q.active := by
  simp [Queue.index]

/-! ## Moves -/

/-- Phase 2 ends a job: it is listed as failed, and nowhere else but perhaps as an older success. -/
def Queue.stop (q : Queue δ) (now : ℕ) (id : String) : Queue δ :=
  let q := q.withMeta id fun m => { m with finishedAt := some now }
  { q with
    pending := srem q.pending id
    delayed := hdel q.delayed id
    failed := id :: srem q.failed id
    cancellations := srem q.cancellations id }

/-- One move of the pop with this id, from a hand and a queue to a hand and a queue. -/
inductive Queue.Poll (pop : String) :
    Option String → List String → Queue δ → List String → Queue δ → Prop
  | reclaim {q : Queue δ} {id : String} (hactive : id ∈ keys q.active) (hlapsed : q.Lapsed id) :
      Poll pop (some id) [] q [] (q.reclaim id)
  | resolve {q : Queue δ} {id : String} (hidle : id ∉ q.index) (hdone : id ∈ q.success) :
      Poll pop (some id) [] q [] { q with cancellations := srem q.cancellations id }
  | stop {q : Queue δ} {id : String} (now : ℕ) (hasked : id ∈ q.cancellations)
      (hactive : id ∉ keys q.active)
      (hopen : id ∈ q.pending ∨ id ∈ keys q.delayed ∨ id ∉ q.success) :
      Poll pop (some id) [] q [] (q.stop now id)
  | mature {q : Queue δ} {id : String} (hdelayed : id ∈ keys q.delayed) :
      Poll pop (some id) [] q [] (q.mature id)
  | take {q : Queue δ} {ids rest : List String} (hpending : q.pending.Perm (ids ++ rest)) :
      Poll pop none [] q ids { q with pending := rest }
  | lend {hand : List String} {q : Queue δ} {id : String} (now : ℕ)
      (hdata : (q.data id).isSome) : Poll pop (some id) (id :: hand) q hand (q.lend now pop id)
  | drop {hand : List String} {q : Queue δ} {id : String} (hdata : q.data id = none) :
      Poll pop (some id) (id :: hand) q hand q

inductive Queue.Move (options : QueueOptions) :
    Option String → List String → Queue δ → List String → Queue δ → Prop
  | poll {pop : String} {who : Option String} {hand hand' : List String} {q q' : Queue δ}
      (hpoll : q.Poll pop who hand hand' q') : Move options who hand q hand' q'
  | enter {q : Queue δ} {id : String} (data : δ) (now delay : ℕ) (position : Position)
      (hnew : id ∉ q.dedup) : Move options (some id) [] q [] (q.push id data now delay position).1
  | cancel {q : Queue δ} {id : String} (now : ℕ) (hidle : id ∈ q.pending ∨ id ∈ keys q.delayed) :
      Move options (some id) [] q [] (q.cancelJob id now).1
  | request {q : Queue δ} {id : String} (hactive : id ∈ keys q.active) :
      Move options (some id) [] q [] { q with cancellations := sadd q.cancellations id }
  | finish {q : Queue δ} {id : String} {token : LeaseToken} (now : ℕ) (result : JobResult)
      (hlease : (id, token) ∈ q.leases) :
      Move options (some id) [] q [] (q.finish options id token now result)
  | expire {q : Queue δ} {id : String} (token : LeaseToken) :
      Move options (some id) [] q [] (q.expireLease id token)

/-! ## Where the ids go -/

section Places

variable (q : Queue δ) {id : String}

theorem enqueue_index_perm (id : String) (position : Position) :
    ((q.enqueue id position).index).Perm (id :: q.index) := by
  cases position with
  | first => exact List.Perm.refl _
  | last =>
    unfold Queue.enqueue Queue.index
    simp only [List.append_assoc]
    exact List.perm_middle

theorem hdel_active_index_perm (hn : (keys q.active).Nodup) (hid : id ∈ keys q.active) :
    q.index.Perm (id :: { q with active := hdel q.active id }.index) := by
  unfold Queue.index
  refine ((perm_cons_hdel hn hid).append_left _).trans ?_
  exact List.perm_middle

theorem hdel_delayed_index_perm (hn : (keys q.delayed).Nodup) (hid : id ∈ keys q.delayed) :
    q.index.Perm (id :: { q with delayed := hdel q.delayed id }.index) := by
  unfold Queue.index
  refine (((perm_cons_hdel hn hid).append_left q.pending).append_right _).trans ?_
  exact List.perm_middle.append_right _

theorem zadd_index_perm (hid : id ∉ keys q.delayed) (score : ℕ) :
    ({ q with delayed := zadd q.delayed id score }.index).Perm (id :: q.index) := by
  unfold Queue.index
  have hz : (keys (zadd q.delayed id score)).Perm (id :: keys q.delayed) := by
    have := keys_zadd_perm q.delayed id score
    rwa [hdel_of_not_mem hid] at this
  refine ((hz.append_left q.pending).append_right _).trans ?_
  exact List.perm_middle.append_right _

theorem hset_active_index_perm (hid : id ∉ keys q.active) (n : ℕ) :
    ({ q with active := hset q.active id n }.index).Perm (id :: q.index) := by
  unfold Queue.index hset
  rw [hdel_of_not_mem hid]
  exact List.perm_middle

end Places

theorem mem_active_reclaim {q : Queue δ} {id i : String} (hne : i ≠ id) (hi : i ∈ keys q.active) :
    i ∈ keys (q.reclaim id).active := by
  unfold Queue.reclaim
  split_ifs
  · exact mem_keys_hdel.2 ⟨hi, hne⟩
  · exact hi

theorem mature_delayed (q : Queue δ) (id : String) : (q.mature id).delayed = hdel q.delayed id := by
  unfold Queue.mature
  cases (q.jobs id).reentryPosition.getD Position.last <;> rfl

theorem mem_delayed_mature {q : Queue δ} {id i : String} (hne : i ≠ id) (hi : i ∈ keys q.delayed) :
    i ∈ keys (q.mature id).delayed := by
  rw [mature_delayed]
  exact mem_keys_hdel.2 ⟨hi, hne⟩

/-! ## Other ids -/

/-- The id keeps its place and its records. -/
structure Queue.Apart (i : String) (hand : List String) (q : Queue δ) (hand' : List String)
    (q' : Queue δ) : Prop where
  pending : i ∈ hand' ∨ i ∈ q'.pending ↔ i ∈ hand ∨ i ∈ q.pending
  delayed : i ∈ keys q'.delayed ↔ i ∈ keys q.delayed
  active : i ∈ keys q'.active ↔ i ∈ keys q.active
  success : i ∈ q'.success ↔ i ∈ q.success
  failed : i ∈ q'.failed ↔ i ∈ q.failed
  data : q'.data i = q.data i
  jobs : q'.jobs i = q.jobs i
  dedup : i ∈ q'.dedup ↔ i ∈ q.dedup
  cancellations : i ∈ q'.cancellations ↔ i ∈ q.cancellations
  leases : ∀ token, (i, token) ∈ q'.leases ↔ (i, token) ∈ q.leases

namespace Queue.Apart

variable {i : String} {hand hand' : List String} {q q' : Queue δ}

theorem index (h : Queue.Apart i hand q hand' q') :
    i ∈ hand' ∨ i ∈ q'.index ↔ i ∈ hand ∨ i ∈ q.index := by
  rw [mem_index, mem_index, ← or_assoc, h.pending, h.delayed, h.active, or_assoc]

theorem referenced (h : Queue.Apart i hand q hand' q') :
    i ∈ hand' ∨ q'.Referenced i ↔ i ∈ hand ∨ q.Referenced i := by
  rw [Queue.Referenced, Queue.Referenced, ← or_assoc, h.index, h.success, h.failed, or_assoc]

theorem lapsed (h : Queue.Apart i hand q hand' q') : q'.Lapsed i ↔ q.Lapsed i := by
  simp only [Queue.Lapsed, h.jobs, h.leases]

end Queue.Apart

section Frames

variable {q : Queue δ} {id i : String}

theorem apart_enqueue (hi : i ≠ id) (position : Position) :
    Queue.Apart i [] q [] (q.enqueue id position) := by
  cases position
  all_goals constructor <;> simp [Queue.enqueue, hi]

theorem Queue.Apart.trans {hand hand' hand'' : List String} {q q' q'' : Queue δ}
    (h : Queue.Apart i hand q hand' q') (h' : Queue.Apart i hand' q' hand'' q'') :
    Queue.Apart i hand q hand'' q'' where
  pending := h'.pending.trans h.pending
  delayed := h'.delayed.trans h.delayed
  active := h'.active.trans h.active
  success := h'.success.trans h.success
  failed := h'.failed.trans h.failed
  data := h'.data.trans h.data
  jobs := h'.jobs.trans h.jobs
  dedup := h'.dedup.trans h.dedup
  cancellations := h'.cancellations.trans h.cancellations
  leases token := (h'.leases token).trans (h.leases token)

theorem apart_forget (hi : i ≠ id) (options : QueueOptions) :
    Queue.Apart i [] q [] (q.forget options id) := by
  unfold Queue.forget
  split_ifs
  all_goals constructor <;> simp [hi]

end Frames

theorem Queue.Poll.apart {pop : String} {who : Option String} {hand hand' : List String}
    {q q' : Queue δ} (h : q.Poll pop who hand hand' q') {i : String} (hi : who ≠ some i) :
    Queue.Apart i hand q hand' q' := by
  have hne : ∀ {id : String}, some id ≠ some i → i ≠ id := fun h he => h (he ▸ rfl)
  cases h with
  | reclaim hactive hlapsed =>
    have hi := hne hi
    unfold Queue.reclaim
    rw [if_pos hlapsed]
    constructor <;> simp [Queue.withMeta, hi]
  | resolve hidle hdone | drop hdata =>
    constructor <;> simp [hne hi]
  | stop now hasked hactive hopen =>
    have hi := hne hi
    constructor <;> simp [Queue.stop, Queue.withMeta, hi]
  | mature hdelayed =>
    have hi := hne hi
    refine Queue.Apart.trans ?_ (apart_enqueue hi _)
    constructor <;> simp [Queue.withMeta, hi]
  | take hpending =>
    constructor <;> simp [hpending.mem_iff]
  | lend now hdata =>
    have hi := hne hi
    constructor <;> simp [Queue.lend, Queue.withMeta, hi]

theorem Queue.Poll.keeps {pop : String} {who : Option String} {hand hand' : List String}
    {q q' : Queue δ} (h : q.Poll pop who hand hand' q') :
    q'.dedup = q.dedup ∧ ∀ lease ∈ q'.leases, lease ∈ q.leases ∨ lease.2.pop = pop := by
  cases h with
  | reclaim hactive hlapsed =>
    unfold Queue.reclaim
    rw [if_pos hlapsed]
    exact ⟨rfl, fun _ => .inl⟩
  | resolve _ _ | stop _ _ _ _ | take _ | drop _ => exact ⟨rfl, fun _ => .inl⟩
  | mature hdelayed =>
    unfold Queue.mature
    cases (q.jobs _).reentryPosition.getD Position.last
    all_goals exact ⟨rfl, fun _ => .inl⟩
  | lend now hdata =>
    refine ⟨rfl, fun lease hl => ?_⟩
    rcases mem_sadd.mp hl with rfl | hl
    · exact .inr rfl
    · exact .inl hl

section Frames

variable {q : Queue δ} {id i : String} (hi : i ≠ id)
include hi

theorem apart_push (data : δ) (now delay : ℕ) (position : Position) :
    Queue.Apart i [] q [] (q.push id data now delay position).1 := by
  unfold Queue.push
  split_ifs
  · constructor <;> simp
  · constructor <;> simp [Queue.withMeta, hi]
  · constructor <;> simp [Queue.withMeta, Queue.enqueue, hi]

theorem apart_cancelJob (now : ℕ) : Queue.Apart i [] q [] (q.cancelJob id now).1 := by
  unfold Queue.cancelJob
  simp only
  split_ifs
  all_goals constructor <;> simp [Queue.withMeta, hi]

theorem apart_finish (options : QueueOptions) (token : LeaseToken) (now : ℕ) (result : JobResult) :
    Queue.Apart i [] q [] (q.finish options id token now result) := by
  have hsettle : Queue.Apart i [] q [] (q.settle id token) := by
    constructor <;> simp [Queue.settle, Queue.withMeta, hi]
  cases result with
  | success | fail =>
    refine Queue.Apart.trans (hsettle.trans ?_) (apart_forget hi options)
    constructor <;> simp [Queue.withMeta, hi]
  | nack delay position =>
    cases delay with
    | some delay =>
      refine hsettle.trans ?_
      constructor <;> simp [Queue.finish, Queue.withMeta, hi]
    | none => exact hsettle.trans (apart_enqueue hi position)

end Frames

section Finish

variable (options : QueueOptions) (q : Queue δ) (id : String) (token : LeaseToken) (now : ℕ)

theorem finish_frame (result : JobResult) :
    (q.finish options id token now result).leases = srem q.leases (id, token) ∧
    (q.finish options id token now result).cancellations = q.cancellations ∧
    (q.finish options id token now result).data = q.data := by
  cases result with
  | success | fail =>
    unfold Queue.finish Queue.forget
    split_ifs <;> exact ⟨rfl, rfl, rfl⟩
  | nack delay position => cases delay <;> cases position <;> exact ⟨rfl, rfl, rfl⟩

theorem mem_index_nack {i : String} (delay : Option ℕ) (position : Position) :
    i ∈ (q.finish options id token now (.nack delay position)).index ↔
      i = id ∨ i ∈ (q.settle id token).index := by
  cases delay with
  | some delay =>
    simp only [Queue.finish, mem_index, Queue.withMeta, mem_keys_zadd]
    tauto
  | none => exact (enqueue_index_perm _ _ _).mem_iff.trans List.mem_cons

end Finish

/-- **A move is about one job only.** -/
theorem Queue.Move.apart {options : QueueOptions} {who : Option String} {hand hand' : List String}
    {q q' : Queue δ} (h : q.Move options who hand hand' q') {i : String} (hi : who ≠ some i) :
    Queue.Apart i hand q hand' q' := by
  have hne : ∀ {id : String}, some id ≠ some i → i ≠ id := fun h he => h (he ▸ rfl)
  cases h with
  | poll hpoll => exact hpoll.apart hi
  | enter data now delay position hnew => exact apart_push (hne hi) data now delay position
  | cancel now hidle => exact apart_cancelJob (hne hi) now
  | request hactive => constructor <;> simp [hne hi]
  | finish now result hlease => exact apart_finish (hne hi) options _ now result
  | expire token => constructor <;> simp [Queue.expireLease, hne hi]

/-! ## Replies and leases -/

theorem push_leases (q : Queue δ) (id : String) (data : δ) (now delay : ℕ)
    (position : Position) : (q.push id data now delay position).1.leases = q.leases := by
  unfold Queue.push
  split_ifs <;> rfl

theorem push_absorbed (q : Queue δ) (id : String) (data : δ) (now delay : ℕ)
    (position : Position) : (q.push id data now delay position).2 = false ↔ id ∈ q.dedup := by
  unfold Queue.push
  split_ifs with h <;> simp [h]

theorem cancelJob_leases (q : Queue δ) (id : String) (now : ℕ) :
    (q.cancelJob id now).1.leases = q.leases := by
  unfold Queue.cancelJob
  simp only
  split_ifs <;> rfl

/-! ## One place for each id -/

/-- Each id is at most once in the hand and the live indexes, it belongs here, is known to
deduplication and has its records; a live lease is the one its active job names. -/
structure Queue.Exclusive (own : String → Prop) (hand : List String) (q : Queue δ) : Prop where
  once : (hand ++ q.index).Nodup
  mine : ∀ id ∈ hand ++ q.index, own id
  known : ∀ id ∈ hand ++ q.index, id ∈ q.dedup
  stored : ∀ id ∈ hand ++ q.index, q.Stored id
  held : ∀ id token, own id → (id, token) ∈ q.leases →
    id ∈ keys q.active ∧ (q.jobs id).leaseToken = some token
  asked : q.cancellations.Nodup

/-- The fields of the metadata that every live job has are kept. -/
def JobMeta.Keeps (m m' : JobMeta) : Prop :=
  (m.createdAt.isSome → m'.createdAt.isSome) ∧ (m.attempts.isSome → m'.attempts.isSome)

theorem Queue.Stored.keep {q q' : Queue δ} {id : String} (h : q.Stored id)
    (hdata : q'.data id = q.data id) (hjobs : (q.jobs id).Keeps (q'.jobs id)) : q'.Stored id :=
  ⟨hdata ▸ h.data, hjobs.1 h.createdAt, hjobs.2 h.attempts⟩

theorem keeps_update {jobs : String → JobMeta} {id : String} {m : JobMeta} (i : String)
    (hm : (jobs id).Keeps m) : (jobs i).Keeps (Function.update jobs id m i) := by
  by_cases hi : i = id
  · subst hi
    rw [Function.update_self]
    exact hm
  · rw [Function.update_of_ne hi]
    exact ⟨fun h => h, fun h => h⟩

theorem leaseToken_update {jobs : String → JobMeta} {id : String} {m : JobMeta} (i : String)
    (hm : m.leaseToken = (jobs id).leaseToken) :
    (Function.update jobs id m i).leaseToken = (jobs i).leaseToken := by
  by_cases hi : i = id
  · subst hi
    simpa using hm
  · rw [Function.update_of_ne hi]

namespace Queue.Exclusive

variable {own : String → Prop} {hand hand' : List String} {q q' : Queue δ}

theorem empty : ({} : Queue δ).Exclusive own [] := by
  constructor <;> simp [Queue.index]

section

variable (h : q.Exclusive own hand)

include h

theorem nodup_index : q.index.Nodup := h.once.of_append_right

theorem nodup_active : (keys q.active).Nodup :=
  h.nodup_index.of_append_right

theorem nodup_delayed : (keys q.delayed).Nodup :=
  h.nodup_index.of_append_left.of_append_right

theorem active_only {id : String} (hid : id ∈ keys q.active) :
    id ∉ hand ∧ id ∉ q.pending ∧ id ∉ keys q.delayed := by
  have hn := h.once
  unfold Queue.index at hn
  rw [← List.append_assoc] at hn
  have hno := (List.nodup_append.mp hn).2.2
  refine ⟨fun hi => ?_, fun hi => ?_, fun hi => ?_⟩
  · exact hno id (by simp [hi]) id hid rfl
  · exact hno id (by simp [hi]) id hid rfl
  · exact hno id (by simp [hi]) id hid rfl

theorem lease_unique {id : String} {t t' : LeaseToken} (hown : own id)
    (ht : (id, t) ∈ q.leases) (ht' : (id, t') ∈ q.leases) : t' = t := by
  have he := (h.held id t hown ht).2
  rw [(h.held id t' hown ht').2] at he
  exact Option.some.inj he

theorem sub (hs : (hand' ++ q'.index).Subperm (hand ++ q.index))
    (hdedup : ∀ id ∈ hand' ++ q'.index, id ∈ q.dedup → id ∈ q'.dedup)
    (hstored : ∀ id ∈ hand' ++ q'.index, q.Stored id → q'.Stored id)
    (hheld : ∀ id token, own id → (id, token) ∈ q'.leases →
      id ∈ keys q'.active ∧ (q'.jobs id).leaseToken = some token)
    (hasked : q'.cancellations.Nodup) : q'.Exclusive own hand' where
  once := by
    obtain ⟨l, hl, hsub⟩ := hs
    exact hl.nodup_iff.mp (h.once.sublist hsub)
  mine id hid := h.mine id (hs.subset hid)
  known id hid := hdedup id hid (h.known id (hs.subset hid))
  stored id hid := hstored id hid (h.stored id (hs.subset hid))
  held := hheld
  asked := hasked

theorem same (hs : (hand' ++ q'.index).Subperm (hand ++ q.index))
    (hdedup : q'.dedup = q.dedup) (hdata : q'.data = q.data)
    (hjobs : ∀ i, (q.jobs i).Keeps (q'.jobs i) ∧ (q'.jobs i).leaseToken = (q.jobs i).leaseToken)
    (hactive : q'.active = q.active) (hleases : q'.leases = q.leases)
    (hasked : q'.cancellations.Nodup) : q'.Exclusive own hand' := by
  refine h.sub hs (fun id _ hid => hdedup ▸ hid) (fun id _ hst => ?_) (fun id token hown hl => ?_)
    hasked
  · exact hst.keep (congrFun hdata id) (hjobs id).1
  · rw [hleases] at hl
    rw [hactive, (hjobs id).2]
    exact h.held id token hown hl

/-! ## Push -/

theorem put {q' : Queue δ} {id : String} {data : δ} (hown : own id)
    (hfree : id ∉ hand ++ q.index) (hp : q'.index.Perm (id :: q.index))
    (hdedup : q'.dedup = sadd q.dedup id) (hdata : q'.data = Function.update q.data id (some data))
    (hleases : q'.leases = q.leases) (hactive : q'.active = q.active)
    (hjobs : ∀ i ≠ id, q'.jobs i = q.jobs i) (hcreated : (q'.jobs id).createdAt.isSome)
    (hattempts : (q'.jobs id).attempts.isSome) (hasked : q'.cancellations = q.cancellations) :
    q'.Exclusive own hand := by
  have hperm : (hand ++ q'.index).Perm (id :: (hand ++ q.index)) :=
    (hp.append_left hand).trans List.perm_middle
  refine ⟨?_, ?_, ?_, ?_, ?_, hasked ▸ h.asked⟩
  · rw [hperm.nodup_iff, List.nodup_cons]
    exact ⟨hfree, h.once⟩
  · intro i hi
    rcases List.mem_cons.mp (hperm.mem_iff.mp hi) with rfl | hi
    · exact hown
    · exact h.mine i hi
  · intro i hi
    rw [hdedup, mem_sadd]
    exact (List.mem_cons.mp (hperm.mem_iff.mp hi)).imp_right (h.known i)
  · intro i hi
    by_cases he : i = id
    · subst he
      exact ⟨by simp [hdata], hcreated, hattempts⟩
    · have hold := (List.mem_cons.mp (hperm.mem_iff.mp hi)).resolve_left he
      refine (h.stored i hold).keep ?_ ?_
      · rw [hdata, Function.update_of_ne he]
      · rw [hjobs i he]
        exact ⟨fun h => h, fun h => h⟩
  · intro i token hi hl
    rw [hleases] at hl
    obtain ⟨hin, htoken⟩ := h.held i token hi hl
    have he : i ≠ id := by
      rintro rfl
      exact hfree (List.mem_append_right _ (by simp [Queue.index, hin]))
    rw [hactive, hjobs i he]
    exact ⟨hin, htoken⟩

theorem push {id : String} (hown : own id) (data : δ) (now delay : ℕ)
    (position : Position) (hnew : id ∉ q.dedup) :
    (q.push id data now delay position).1.Exclusive own hand := by
  have hfree : id ∉ hand ++ q.index := fun hi => hnew (h.known id hi)
  have hdelayed : id ∉ keys q.delayed := fun hi => hfree (by simp [Queue.index, hi])
  unfold Queue.push
  rw [if_neg hnew]
  split_ifs
  · refine h.put hown hfree (zadd_index_perm _ hdelayed _) rfl rfl rfl rfl ?_ ?_ ?_ rfl
    · intro i hi
      simp [Queue.withMeta, Function.update_of_ne hi]
    · simp [Queue.withMeta]
    · simp [Queue.withMeta]
  · refine h.put hown hfree (enqueue_index_perm _ _ _) rfl rfl rfl rfl ?_ ?_ ?_ rfl
    · intro i hi
      simp [Queue.withMeta, Queue.enqueue, Function.update_of_ne hi]
    · simp [Queue.withMeta, Queue.enqueue]
    · simp [Queue.withMeta, Queue.enqueue]

/-! ## Pop -/

theorem reclaim {id : String} (hactive : id ∈ keys q.active)
    (hlapsed : q.Lapsed id) : (q.reclaim id).Exclusive own hand := by
  unfold Queue.reclaim
  rw [if_pos hlapsed]
  refine h.sub ?_ (fun _ _ hi => hi) (fun i _ hst => ?_) ?_ h.asked
  · exact ((hdel_active_index_perm q h.nodup_active hactive).symm.append_left hand).subperm
  · exact hst.keep rfl (keeps_update i ⟨fun h => h, fun _ => rfl⟩)
  · intro i token hown hl
    obtain ⟨hin, htoken⟩ := h.held i token hown hl
    have hne : i ≠ id := by
      rintro rfl
      exact hlapsed token htoken hl
    refine ⟨mem_keys_hdel.2 ⟨hin, hne⟩, ?_⟩
    simpa [Queue.withMeta, Function.update_of_ne hne] using htoken

theorem stop (now : ℕ) {id : String} : (q.stop now id).Exclusive own hand := by
  refine h.same ?_ rfl rfl (fun i => ⟨keeps_update i ⟨fun h => h, fun h => h⟩,
    leaseToken_update i rfl⟩) rfl rfl (h.asked.filter _)
  refine List.Sublist.subperm (List.Sublist.append_left ?_ hand)
  exact (List.filter_sublist.append (List.filter_sublist.map Prod.fst)).append_right _

theorem mature {id : String} (hdelayed : id ∈ keys q.delayed) :
    (q.mature id).Exclusive own hand := by
  have hp : (q.mature id).index.Perm q.index :=
    (enqueue_index_perm _ _ _).trans (hdel_delayed_index_perm q h.nodup_delayed hdelayed).symm
  refine h.same (hp.append_left hand).subperm ?_ ?_ ?_ ?_ ?_ ?_
  all_goals
    unfold Queue.mature
    cases (q.jobs id).reentryPosition.getD Position.last
  all_goals first
    | rfl
    | exact h.asked
    | exact fun i => ⟨keeps_update i ⟨fun h => h, fun h => h⟩, leaseToken_update i rfl⟩

end

theorem take (h : q.Exclusive own []) {ids rest : List String}
    (hpending : q.pending.Perm (ids ++ rest)) : { q with pending := rest }.Exclusive own ids := by
  refine h.same ?_ rfl rfl (fun _ => ⟨⟨fun h => h, fun h => h⟩, rfl⟩) rfl rfl h.asked
  have hp : (ids ++ { q with pending := rest }.index).Perm q.index := by
    unfold Queue.index
    simp only [← List.append_assoc]
    exact (hpending.symm.append_right _).append_right _
  exact hp.subperm

theorem lend {id : String} (h : q.Exclusive own (id :: hand)) (now : ℕ) (pop : String) :
    (q.lend now pop id).Exclusive own hand := by
  have hfree : id ∉ hand ++ q.index := (List.nodup_cons.mp h.once).1
  have hidle : id ∉ keys q.active := fun hi => hfree (by simp [Queue.index, hi])
  refine h.sub ?_ (fun _ _ hi => hi) (fun i _ hst => ?_) ?_ h.asked
  · exact ((hset_active_index_perm q hidle _).append_left hand |>.trans List.perm_middle).subperm
  · exact hst.keep rfl (keeps_update i ⟨fun h => h, fun _ => rfl⟩)
  · intro i token hown hl
    have hcase : (i, token) = (id, q.nextToken now pop id) ∨ (i, token) ∈ q.leases := mem_sadd.1 hl
    rcases hcase with he | hl
    · obtain ⟨rfl, rfl⟩ := Prod.mk.inj he
      exact ⟨mem_keys_hset.2 (Or.inl rfl), by simp [Queue.lend, Queue.withMeta]⟩
    · obtain ⟨hin, htoken⟩ := h.held i token hown hl
      have hne : i ≠ id := by
        rintro rfl
        exact hidle hin
      refine ⟨mem_keys_hset.2 (Or.inr hin), ?_⟩
      simpa [Queue.lend, Queue.withMeta, Function.update_of_ne hne] using htoken

/-! ## Cancellation, completion and pruning -/

theorem request (h : q.Exclusive own hand) (id : String) :
    { q with cancellations := sadd q.cancellations id }.Exclusive own hand := by
  refine h.same (List.Subperm.refl _) rfl rfl (fun _ => ⟨⟨fun h => h, fun h => h⟩, rfl⟩) rfl rfl ?_
  unfold sadd
  split_ifs with hin
  · exact h.asked
  · exact List.nodup_cons.mpr ⟨hin, h.asked⟩

theorem cancel (h : q.Exclusive own hand) (now : ℕ) {id : String} :
    (q.cancelJob id now).1.Exclusive own hand := by
  have hstay : ∀ i, (q.jobs i).Keeps ((q.withMeta id fun m => { m with finishedAt := some now }).jobs i) ∧
      ((q.withMeta id fun m => { m with finishedAt := some now }).jobs i).leaseToken
        = (q.jobs i).leaseToken :=
    fun i => ⟨keeps_update i ⟨fun h => h, fun h => h⟩, leaseToken_update i rfl⟩
  unfold Queue.cancelJob
  simp only
  split_ifs
  · refine h.same (List.Sublist.subperm (List.Sublist.append_left ?_ hand)) rfl rfl hstay rfl rfl h.asked
    exact (List.filter_sublist.append_right _).append_right _
  · refine h.same (List.Sublist.subperm (List.Sublist.append_left ?_ hand)) rfl rfl hstay rfl rfl h.asked
    exact ((List.filter_sublist.map Prod.fst).append_left _).append_right _
  · exact h.request id
  · exact h

theorem resolve (h : q.Exclusive own hand) (id : String) :
    { q with cancellations := srem q.cancellations id }.Exclusive own hand :=
  h.same (List.Subperm.refl _) rfl rfl (fun _ => ⟨⟨fun h => h, fun h => h⟩, rfl⟩) rfl rfl
    (h.asked.filter _)

theorem expire (h : q.Exclusive own hand) (id : String) (token : LeaseToken) :
    (q.expireLease id token).Exclusive own hand :=
  h.sub (List.Subperm.refl _) (fun _ _ hi => hi) (fun _ _ hst => ⟨hst.data, hst.createdAt, hst.attempts⟩)
    (fun i t hown hl => h.held i t hown (mem_srem.1 hl).1) h.asked

theorem settle (h : q.Exclusive own []) {id : String} {token : LeaseToken} (hown : own id)
    (hlease : (id, token) ∈ q.leases) : (q.settle id token).Exclusive own [id] := by
  have hactive := (h.held id token hown hlease).1
  refine h.sub ?_ (fun _ _ hi => hi) (fun i _ hst => ?_) ?_ h.asked
  · exact (hdel_active_index_perm q h.nodup_active hactive).symm.subperm
  · exact hst.keep rfl (keeps_update i ⟨fun h => h, fun h => h⟩)
  · intro i t hi hl
    obtain ⟨hold, hne⟩ : (i, t) ∈ q.leases ∧ (i, t) ≠ (id, token) := mem_srem.1 hl
    obtain ⟨hin, htoken⟩ := h.held i t hi hold
    have hid : i ≠ id := by
      rintro rfl
      exact hne (by rw [h.lease_unique hown hlease hold])
    refine ⟨mem_keys_hdel.2 ⟨hin, hid⟩, ?_⟩
    simpa [Queue.settle, Queue.withMeta, Function.update_of_ne hid] using htoken

theorem discard {id : String} (h : q.Exclusive own [id]) (hindex : q'.index = q.index)
    (hdedup : ∀ i ≠ id, i ∈ q.dedup → i ∈ q'.dedup) (hdata : q'.data = q.data)
    (hjobs : ∀ i, (q.jobs i).Keeps (q'.jobs i) ∧ (q'.jobs i).leaseToken = (q.jobs i).leaseToken)
    (hactive : q'.active = q.active) (hleases : q'.leases = q.leases)
    (hasked : q'.cancellations = q.cancellations) : q'.Exclusive own [] := by
  have hfree : id ∉ q.index := (List.nodup_cons.mp h.once).1
  refine h.sub ?_ (fun i hi hin => hdedup i ?_ hin) (fun i _ hst => ?_) (fun i token hown hl => ?_)
    (hasked ▸ h.asked)
  · rw [hindex]
    exact (List.sublist_cons_self _ _).subperm
  · rintro rfl
    rw [List.nil_append, hindex] at hi
    exact hfree hi
  · exact hst.keep (congrFun hdata i) (hjobs i).1
  · rw [hleases] at hl
    rw [hactive, (hjobs i).2]
    exact h.held i token hown hl

theorem finish (h : q.Exclusive own []) {options : QueueOptions} {id : String} {token : LeaseToken}
    (hown : own id) (hlease : (id, token) ∈ q.leases) (now : ℕ) (result : JobResult) :
    (q.finish options id token now result).Exclusive own [] := by
  have hs := h.settle hown hlease
  have hdelayed : id ∉ keys (q.settle id token).delayed := fun hi =>
    (List.nodup_cons.mp hs.once).1 (by simp [Queue.index, hi])
  have hend : ∀ q' : Queue δ, q'.dedup = (q.settle id token).dedup →
      ∀ i ≠ id, i ∈ (q.settle id token).dedup → i ∈ (q'.forget options id).dedup := by
    intro q' hdedup i hi hin
    unfold Queue.forget
    split_ifs
    · exact mem_srem.2 ⟨hdedup ▸ hin, hi⟩
    · exact hdedup ▸ hin
  have hjobs : ∀ i, ((q.settle id token).jobs i).Keeps
      (((q.settle id token).withMeta id fun m => { m with finishedAt := some now }).jobs i) ∧
      (((q.settle id token).withMeta id fun m => { m with finishedAt := some now }).jobs i).leaseToken
        = ((q.settle id token).jobs i).leaseToken :=
    fun i => ⟨keeps_update i ⟨fun h => h, fun h => h⟩, leaseToken_update i rfl⟩
  cases result with
  | success | fail =>
    refine hs.discard ?_ (hend _ rfl) ?_ ?_ ?_ ?_ ?_
    all_goals
      unfold Queue.finish Queue.forget
      split_ifs
    all_goals first
      | rfl
      | exact hjobs
  | nack delay position =>
    cases delay with
    | some delay =>
      refine hs.same (zadd_index_perm _ hdelayed _).subperm rfl rfl ?_ rfl rfl hs.asked
      exact fun i => ⟨keeps_update i ⟨fun h => h, fun h => h⟩, leaseToken_update i rfl⟩
    | none =>
      refine hs.same (enqueue_index_perm _ _ _).subperm ?_ ?_ ?_ ?_ ?_ ?_
      all_goals cases position
      all_goals first
        | rfl
        | exact fun i => ⟨⟨fun h => h, fun h => h⟩, rfl⟩
        | exact hs.asked

theorem trim (h : q.Exclusive own []) (htrim : q.Trimmed q') : q'.Exclusive own [] := by
  have hlive : ∀ id ∈ q'.index, q.Same q' id := fun id hid =>
    (htrim.records id).resolve_right fun hgone => hgone.1 (.inl hid)
  refine h.sub ?_ (fun id hid hin => (hlive id hid).dedup.mpr hin) (fun id hid hst => ?_)
    (fun id token hown hl => ?_) (h.asked.sublist htrim.asked)
  · rw [htrim.index]
  · refine hst.keep (hlive id hid).data ?_
    rw [(hlive id hid).jobs]
    exact ⟨fun h => h, fun h => h⟩
  · rw [htrim.leases] at hl
    obtain ⟨hin, htoken⟩ := h.held id token hown hl
    rw [htrim.active]
    refine ⟨hin, ?_⟩
    rw [(hlive id (htrim.index ▸ mem_index.mpr (.inr (.inr hin)))).jobs]
    exact htoken

theorem poll (h : q.Exclusive own hand) {pop : String} {who : Option String}
    (hpoll : q.Poll pop who hand hand' q') : q'.Exclusive own hand' := by
  cases hpoll with
  | reclaim hactive hlapsed => exact h.reclaim hactive hlapsed
  | resolve hidle hdone => exact h.resolve _
  | stop now hasked hactive hopen => exact h.stop now
  | mature hdelayed => exact h.mature hdelayed
  | take hpending => exact h.take hpending
  | lend now hdata => exact h.lend now _
  | drop hdata =>
    exact h.sub (List.sublist_cons_self _ _).subperm (fun _ _ hi => hi) (fun _ _ hst => hst) h.held
      h.asked

/-- **The moves keep it**, where the job they are about belongs here. -/
theorem move (h : q.Exclusive own hand) {options : QueueOptions} {who : Option String}
    (hmove : q.Move options who hand hand' q') (hwho : ∀ id, who = some id → own id) :
    q'.Exclusive own hand' := by
  cases hmove with
  | poll hpoll => exact h.poll hpoll
  | enter data now delay position hnew => exact h.push (hwho _ rfl) data now delay position hnew
  | cancel now hidle => exact h.cancel now
  | request hactive => exact h.request _
  | finish now result hlease => exact h.finish (hwho _ rfl) hlease now result
  | expire token => exact h.expire _ token

end Queue.Exclusive

end EngineCore.Twmq
