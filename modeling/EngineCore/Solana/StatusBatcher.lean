import EngineCore.Solana.Worker

/-!
# Coalesced status polls

Callers ask for the status of one signature each. One actor collects their polls, sends them in
batches and hands every caller its own entry of the reply. Callers may leave at any time, and batches
come back in any order.

* `validateResponse`, `validateStatus`, `fanOut`: what a batch makes of a reply;
* `Batcher.outstanding`, `Effect`: what a step does to the polls under way, **`Step.effect`**;
* **`batching_transparent`**: batching is transparent to the callers.
-/

namespace EngineCore.Solana.StatusBatcher

open Recovery
open Except (bind_ok)

def maxSignatures : ℕ := 32

def maxOutstanding : ℕ := 256

def maxInFlight : ℕ := 4

def collectionDelay : ℕ := 5

/-! ## Replies -/

inductive ClientError
  | custom (message : String)
  | rpcResponse (code : ℤ) (message : String)
  | other (text : String)
  deriving DecidableEq, Repr

abbrev ClientResult := Except ClientError

/-- `Response<Vec<Value>>`; `context` is the context as it is copied to the callers. -/
structure Response where
  slot : ℕ
  context : Json
  value : List Json

/-- The decoders of a reply and of one entry, and the encoder of a status. -/
structure Codec where
  response : Json → Option Response
  status : Json → Option (Option TransactionStatus)
  encode : Option TransactionStatus → Json

structure Poll where
  id : ℕ
  signature : String
  deriving DecidableEq, Repr

/-- Only the numeric code of a provider's error is copied. -/
def copyBatchError : ClientError → ClientError
  | .rpcResponse code _ =>
    .rpcResponse code "Solana status batch rejected; provider details withheld"
  | _ => .custom "Solana status batch failed; retry reconciliation"

section Replies

variable (C : Codec)

def validateResponse (value : Json) (count : ℕ) : ClientResult Response :=
  if (((value.get? "context").bind (·.get? "apiVersion")).bind Json.asStr).any
      (·.utf8ByteSize > 128) then
    .error (.custom "Solana status batch returned invalid context")
  else
    (C.response value).elim
      (.error (.custom "Solana status batch returned malformed values or context")) fun response =>
      if response.value.length ≠ count then
        .error (.custom "Solana status batch returned an invalid value count")
      else .ok response

def validateStatus (value : Json) (contextSlot : ℕ) : ClientResult (Option TransactionStatus) :=
  (C.status value).elim
    (.error (.custom "Solana status entry is malformed; retry reconciliation")) fun status =>
    if status.any fun status => status.slot > contextSlot ∨ status.err ≠ status.statusError then
      .error (.custom "Solana status entry is inconsistent; retry reconciliation")
    else .ok status

def entryReply (response : Response) (entry : Json) : ClientResult Json :=
  (validateStatus C entry response.slot).map fun status =>
    .obj [("context", response.context), ("value", .arr [C.encode status])]

def fanOut (polls : List Poll) (result : ClientResult Json) : List (Poll × ClientResult Json) :=
  (result >>= fun value => validateResponse C value polls.length).either
    (fun source => polls.map fun p => (p, .error (copyBatchError source)))
    fun response => (polls.zip response.value).map fun e => (e.1, entryReply C response e.2)

theorem validateResponse_ok {value : Json} {count : ℕ} {response : Response}
    (h : validateResponse C value count = .ok response) :
    C.response value = some response ∧ response.value.length = count := by
  unfold validateResponse at h
  split_ifs at h
  cases hr : C.response value with
  | none =>
    rw [hr] at h
    cases h
  | some r =>
    rw [hr, Option.elim_some] at h
    split_ifs at h with hlen
    obtain rfl := Except.ok.inj h
    exact ⟨rfl, not_not.mp hlen⟩

theorem fanOut_polls (polls : List Poll) (result : ClientResult Json) :
    (fanOut C polls result).map Prod.fst = polls := by
  unfold fanOut
  cases hr : result >>= fun value => validateResponse C value polls.length with
  | error source => simp [Except.either, Function.comp_def]
  | ok response =>
    obtain ⟨value, -, hvalid⟩ := bind_ok.mp hr
    have hlen := (validateResponse_ok C hvalid).2
    simp only [Except.either, List.map_map]
    exact List.map_fst_zip hlen.ge

end Replies

/-! ## The batcher -/

/-- A vector in the middle of `retain`: the polls that were kept and those not looked at yet. -/
structure Retain where
  kept : List Poll
  rest : List Poll
  deriving DecidableEq, Repr

def Retain.polls (r : Retain) : List Poll := r.kept ++ r.rest

/-- A batch in flight. `number` is the place of its exchange in the record. -/
inductive Batch
  | starting (polls : Retain)
  | sent (polls : List Poll)
  | answering (number : ℕ) (rest : List (Poll × ClientResult Json))

def Batch.polls : Batch → List Poll
  | .starting polls => polls.polls
  | .sent polls => polls
  | .answering _ rest => rest.map Prod.fst

inductive Phase
  | retain
  | decide
  | select
  | stopped
  deriving DecidableEq, Repr

structure Exchange where
  polls : List Poll
  signatures : List String
  result : ClientResult Json

/-- One `reply.send`. -/
structure Answer where
  id : ℕ
  result : ClientResult Json
  delivered : Bool

/-- `closed` are the callers that have left; `asked`, `exchanges` and `answers` are the record. A poll
is known by its place in `asked`. -/
structure Batcher where
  free : ℕ
  channel : List Poll
  pending : Retain
  phase : Phase
  deadline : Option ℕ
  inFlight : List Batch
  closed : List ℕ
  asked : List Poll
  exchanges : List Exchange
  answers : List Answer

def stoppedError : ClientError := .custom "Solana status coordinator stopped; retry later"

namespace Batcher

def new : Batcher := ⟨maxOutstanding, [], ⟨[], []⟩, .retain, none, [], [], [], [], []⟩

def outstanding (s : Batcher) : List Poll :=
  s.channel ++ s.pending.polls ++ s.inFlight.flatMap Batch.polls

/-- The actor goes to the top of its loop. -/
def again (s : Batcher) (polls : List Poll) : Batcher :=
  { s with pending := ⟨[], polls⟩, phase := .retain }

/-- A full batch, or one whose collection time is over. -/
def Due (s : Batcher) (now : ℕ) : Prop :=
  s.inFlight.length < maxInFlight ∧ s.pending.kept ≠ [] ∧
    (s.pending.kept.length = maxSignatures ∨ s.deadline.any (· ≤ now) = true)

end Batcher

variable (C : Codec)

inductive Step : Batcher → Batcher → Prop
  -- callers
  | accept (s : Batcher) (signature : String) (hphase : s.phase ≠ .stopped) (hfree : 0 < s.free)
      (hroom : s.channel.length < maxOutstanding) :
      Step s { s with
        free := s.free - 1
        channel := s.channel ++ [⟨s.asked.length, signature⟩]
        asked := s.asked ++ [⟨s.asked.length, signature⟩] }
  | leave {s : Batcher} {id : ℕ} (hasked : id < s.asked.length) :
      Step s { s with closed := id :: s.closed }
  -- the top of the loop
  | keep {s : Batcher} {kept rest : List Poll} {p : Poll} (hphase : s.phase = .retain)
      (hpending : s.pending = ⟨kept, p :: rest⟩) (hopen : p.id ∉ s.closed) :
      Step s { s with pending := ⟨kept ++ [p], rest⟩ }
  | discard {s : Batcher} {kept rest : List Poll} {p : Poll} (hphase : s.phase = .retain)
      (hpending : s.pending = ⟨kept, p :: rest⟩) (hclosed : p.id ∈ s.closed) :
      Step s { s with pending := ⟨kept, rest⟩, free := s.free + 1 }
  | retained {s : Batcher} {kept : List Poll} (hphase : s.phase = .retain)
      (hpending : s.pending = ⟨kept, []⟩) :
      Step s { s with phase := .decide, deadline := if kept = [] then none else s.deadline }
  | flush {s : Batcher} {kept : List Poll} (now : ℕ) (hphase : s.phase = .decide)
      (hpending : s.pending = ⟨kept, []⟩) (hdue : s.Due now) :
      Step s { s.again [] with
        deadline := none
        inFlight := s.inFlight ++ [.starting ⟨[], kept⟩] }
  | wait {s : Batcher} (now : ℕ) (hphase : s.phase = .decide) (hdue : ¬s.Due now) :
      Step s { s with phase := .select }
  -- `select!`
  | receive {s : Batcher} {kept channel : List Poll} {p : Poll} (now : ℕ)
      (hphase : s.phase = .select) (hpending : s.pending = ⟨kept, []⟩)
      (hroom : kept.length < maxSignatures) (hchannel : s.channel = p :: channel)
      (hopen : p.id ∉ s.closed) :
      Step s { s.again (kept ++ [p]) with
        channel := channel
        deadline := if kept = [] then some (now + collectionDelay) else s.deadline }
  | skip {s : Batcher} {kept channel : List Poll} {p : Poll} (hphase : s.phase = .select)
      (hpending : s.pending = ⟨kept, []⟩) (hroom : kept.length < maxSignatures)
      (hchannel : s.channel = p :: channel) (hclosed : p.id ∈ s.closed) :
      Step s { s.again kept with channel := channel, free := s.free + 1 }
  | timer {s : Batcher} {kept : List Poll} (hphase : s.phase = .select)
      (hpending : s.pending = ⟨kept, []⟩) (hdeadline : s.deadline ≠ none)
      (hroom : s.inFlight.length < maxInFlight) : Step s (s.again kept)
  -- the batches in flight
  | batchKeep {s : Batcher} {before after : List Batch} {kept rest : List Poll} {p : Poll}
      (hphase : s.phase = .select)
      (hbatch : s.inFlight = before ++ .starting ⟨kept, p :: rest⟩ :: after)
      (hopen : p.id ∉ s.closed) :
      Step s { s with inFlight := before ++ .starting ⟨kept ++ [p], rest⟩ :: after }
  | batchDiscard {s : Batcher} {before after : List Batch} {kept rest : List Poll} {p : Poll}
      (hphase : s.phase = .select)
      (hbatch : s.inFlight = before ++ .starting ⟨kept, p :: rest⟩ :: after)
      (hclosed : p.id ∈ s.closed) :
      Step s { s with inFlight := before ++ .starting ⟨kept, rest⟩ :: after, free := s.free + 1 }
  | empty {s : Batcher} {before after : List Batch} {kept : List Poll} (hphase : s.phase = .select)
      (hpending : s.pending = ⟨kept, []⟩)
      (hbatch : s.inFlight = before ++ .starting ⟨[], []⟩ :: after) :
      Step s { s.again kept with inFlight := before ++ after }
  | send {s : Batcher} {before after : List Batch} {polls : List Poll} (hphase : s.phase = .select)
      (hbatch : s.inFlight = before ++ .starting ⟨polls, []⟩ :: after) (hne : polls ≠ []) :
      Step s { s with inFlight := before ++ .sent polls :: after }
  | reply {s : Batcher} {before after : List Batch} {polls : List Poll}
      (result : ClientResult Json) (hphase : s.phase = .select)
      (hbatch : s.inFlight = before ++ .sent polls :: after) :
      Step s { s with
        inFlight := before ++ .answering s.exchanges.length (fanOut C polls result) :: after
        exchanges := s.exchanges ++ [⟨polls, polls.map Poll.signature, result⟩] }
  | answer {s : Batcher} {before after : List Batch} {number : ℕ} {p : Poll}
      {result : ClientResult Json} {rest : List (Poll × ClientResult Json)}
      (hphase : s.phase = .select)
      (hbatch : s.inFlight = before ++ .answering number ((p, result) :: rest) :: after) :
      Step s { s with
        inFlight := before ++ .answering number rest :: after
        answers := s.answers ++ [⟨p.id, result, p.id ∉ s.closed⟩]
        free := s.free + 1 }
  | finish {s : Batcher} {before after : List Batch} {kept : List Poll} {number : ℕ}
      (hphase : s.phase = .select) (hpending : s.pending = ⟨kept, []⟩)
      (hbatch : s.inFlight = before ++ .answering number [] :: after) :
      Step s { s.again kept with inFlight := before ++ after }
  -- the actor is aborted where it waits; a dropped sender wakes its caller with an error
  | stop {s : Batcher} (hphase : s.phase = .select)
      (hidle : ∀ number rest, Batch.answering number rest ∉ s.inFlight) :
      Step s { s with
        free := s.free + s.outstanding.length
        channel := []
        pending := ⟨[], []⟩
        phase := .stopped
        inFlight := []
        answers := s.answers ++
          s.outstanding.map fun p => ⟨p.id, .error stoppedError, p.id ∉ s.closed⟩ }

def Steps : Batcher → Batcher → Prop := Relation.ReflTransGen (Step C)

/-! ## The polls under way -/

/-- What a step does to them: it moves them, adds one, or lets some go that are answered or whose
callers have left. -/
inductive Effect (s s' : Batcher) : Prop
  | same (hpolls : s'.outstanding.Perm s.outstanding) (hfree : s'.free = s.free)
      (hasked : s'.asked = s.asked) (hanswers : s'.answers = s.answers)
      (hclosed : s.closed ⊆ s'.closed)
  | accept (p : Poll) (hpolls : s'.outstanding.Perm (p :: s.outstanding))
      (hid : p.id = s.asked.length) (hfree : s'.free + 1 = s.free)
      (hasked : s'.asked = s.asked ++ [p]) (hanswers : s'.answers = s.answers)
      (hclosed : s'.closed = s.closed)
  | settle (gone : List Poll) (new : List Answer)
      (hpolls : s.outstanding.Perm (gone ++ s'.outstanding))
      (hfree : s'.free = s.free + gone.length) (hasked : s'.asked = s.asked)
      (hanswers : s'.answers = s.answers ++ new)
      (hgone : new.map Answer.id = gone.map Poll.id ∨ new = [] ∧ ∀ p ∈ gone, p.id ∈ s.closed)
      (hclosed : s'.closed = s.closed)

variable {C} {s s' : Batcher}

open Batcher

/-- **Every step** has one of these effects. -/
theorem Step.effect (h : Step C s s') : Effect s s' := by
  cases h with
  | accept signature _ hfree _ =>
    refine .accept ⟨s.asked.length, signature⟩ ?_ rfl ?_ rfl rfl rfl
    · refine List.perm_iff_count.mpr fun x => ?_
      simp [outstanding, List.count_cons]
      omega
    · simp only
      omega
  | leave _ => exact .same .rfl rfl rfl rfl fun _ h => List.mem_cons_of_mem _ h
  | retained _ _ | wait _ _ _ => exact .same .rfl rfl rfl rfl fun _ h => h
  | keep _ hpending _ | timer _ hpending _ _ =>
    refine .same (.of_eq ?_) rfl rfl rfl fun _ h => h
    simp [outstanding, again, Retain.polls, hpending]
  | batchKeep _ hbatch _ | send _ hbatch _ =>
    refine .same (.of_eq ?_) rfl rfl rfl fun _ h => h
    simp [outstanding, Batch.polls, Retain.polls, hbatch]
  | empty _ hpending hbatch | finish _ hpending hbatch =>
    refine .same (.of_eq ?_) rfl rfl rfl fun _ h => h
    simp [outstanding, again, Batch.polls, Retain.polls, hbatch, hpending]
  | reply _ _ hbatch =>
    refine .same (.of_eq ?_) rfl rfl rfl fun _ h => h
    simp [outstanding, Batch.polls, hbatch, fanOut_polls]
  | flush _ _ hpending _ =>
    refine .same (List.perm_iff_count.mpr fun x => ?_) rfl rfl rfl fun _ h => h
    simp [outstanding, again, Retain.polls, Batch.polls, hpending]
    omega
  | receive _ _ hpending _ hchannel _ =>
    refine .same (List.perm_iff_count.mpr fun x => ?_) rfl rfl rfl fun _ h => h
    simp [outstanding, again, Retain.polls, hpending, hchannel, List.count_cons]
    omega
  | @discard kept rest p _ hpending hclosed =>
    refine .settle [p] [] ?_ rfl rfl (by simp) (.inr ⟨rfl, by simpa using hclosed⟩) rfl
    refine List.perm_iff_count.mpr fun x => ?_
    simp [outstanding, Retain.polls, hpending, List.count_cons]
    omega
  | @skip kept channel p _ hpending _ hchannel hclosed =>
    refine .settle [p] [] ?_ rfl rfl (by simp [again]) (.inr ⟨rfl, by simpa using hclosed⟩) rfl
    refine List.perm_iff_count.mpr fun x => ?_
    simp [outstanding, again, Retain.polls, hpending, hchannel, List.count_cons]
  | @batchDiscard before after kept rest p _ hbatch hclosed =>
    refine .settle [p] [] ?_ rfl rfl (by simp) (.inr ⟨rfl, by simpa using hclosed⟩) rfl
    refine List.perm_iff_count.mpr fun x => ?_
    simp [outstanding, Batch.polls, Retain.polls, hbatch, List.count_cons]
    omega
  | @answer before after number p result rest _ hbatch =>
    refine .settle [p] [_] ?_ rfl rfl rfl (.inl rfl) rfl
    refine List.perm_iff_count.mpr fun x => ?_
    simp [outstanding, Batch.polls, hbatch, List.count_cons]
    omega
  | stop _ _ =>
    refine .settle s.outstanding _ (.of_eq ?_) rfl rfl rfl (.inl ?_) rfl
    · simp [outstanding, Retain.polls]
    · simp

theorem getElem?_of_prefix {α : Type} {l l' : List α} (h : l <+: l') {i : ℕ} {x : α}
    (hx : l[i]? = some x) : l'[i]? = some x := by
  obtain ⟨t, rfl⟩ := h
  rw [List.getElem?_append_left (List.getElem?_eq_some_iff.mp hx).1, hx]

/-- Every accepted poll is under way, answered or given up by its caller, and only one of the first
two; each poll under way holds a permit. -/
structure Tickets (s : Batcher) : Prop where
  ids : (s.outstanding.map Poll.id ++ s.answers.map Answer.id).Nodup
  asked : ∀ p ∈ s.outstanding, s.asked[p.id]? = some p
  old : ∀ n ∈ s.answers.map Answer.id, n < s.asked.length
  permits : s.free + s.outstanding.length = maxOutstanding
  kept : ∀ n < s.asked.length,
    n ∈ s.outstanding.map Poll.id ∨ n ∈ s.answers.map Answer.id ∨ n ∈ s.closed

theorem tickets_new : Tickets new := by
  constructor <;> simp [new, outstanding, Retain.polls]

theorem Tickets.of_effect (ht : Tickets s) (h : Effect s s') : Tickets s' := by
  obtain ⟨hids, hasked, hold, hpermits, hkept⟩ := ht
  cases h with
  | same hpolls hfree hsame hanswers hclosed =>
    have hmap := hpolls.map Poll.id
    constructor
    · rw [hanswers]
      exact (hmap.append_right _).nodup_iff.mpr hids
    · intro p hp
      rw [hsame]
      exact hasked p (hpolls.mem_iff.mp hp)
    · rwa [hanswers, hsame]
    · rwa [hfree, hpolls.length_eq]
    · intro n hn
      rw [hsame] at hn
      rw [hmap.mem_iff, hanswers]
      exact (hkept n hn).imp id (Or.imp id fun h => hclosed h)
  | accept p hpolls hid hfree hmore hanswers hclosed =>
    have hmap := hpolls.map Poll.id
    -- a new poll's place is beyond those of all before it
    have hfresh : p.id ∉ s.outstanding.map Poll.id ++ s.answers.map Answer.id := by
      rw [List.mem_append, hid]
      rintro (h | h)
      · obtain ⟨q, hq, he⟩ := List.mem_map.mp h
        have := (List.getElem?_eq_some_iff.mp (hasked q hq)).1
        omega
      · exact absurd (hold _ h) (lt_irrefl _)
    constructor
    · rw [hanswers]
      refine (hmap.append_right _).nodup_iff.mpr ?_
      exact List.nodup_cons.mpr ⟨hfresh, hids⟩
    · intro q hq
      rw [hmore]
      rcases List.mem_cons.mp (hpolls.mem_iff.mp hq) with rfl | hq
      · simp [hid]
      · exact getElem?_of_prefix (List.prefix_append _ _) (hasked q hq)
    · intro n hn
      rw [hanswers] at hn
      have := hold n hn
      simp only [hmore, List.length_append]
      omega
    · rw [hpolls.length_eq, List.length_cons]
      omega
    · intro n hn
      rw [hmap.mem_iff, hanswers, hclosed, List.map_cons, List.mem_cons]
      rw [hmore, List.length_append, List.length_singleton] at hn
      rcases Nat.lt_succ_iff_lt_or_eq.mp hn with hn | rfl
      · exact (hkept n hn).imp .inr id
      · exact .inl (.inl hid.symm)
  | settle gone new hpolls hfree hsame hanswers hgone hclosed =>
    have hmap := hpolls.map Poll.id
    rw [List.map_append] at hmap
    have hmem : ∀ p ∈ s'.outstanding, p ∈ s.outstanding := fun p hp =>
      hpolls.mem_iff.mpr (List.mem_append_right _ hp)
    have hall := (hmap.append_right _).nodup_iff.mp hids
    constructor
    · rw [hanswers, List.map_append]
      rcases hgone with hnew | ⟨rfl, -⟩
      · rw [hnew]
        refine List.Perm.nodup ?_ hall
        refine List.perm_iff_count.mpr fun x => ?_
        simp only [List.count_append]
        omega
      · rw [List.append_assoc] at hall
        simpa using hall.of_append_right
    · intro p hp
      rw [hsame]
      exact hasked p (hmem p hp)
    · intro n hn
      rw [hanswers, List.map_append, List.mem_append] at hn
      rw [hsame]
      rcases hn with hn | hn
      · exact hold n hn
      · rcases hgone with hnew | ⟨rfl, -⟩
        · rw [hnew] at hn
          obtain ⟨q, hq, rfl⟩ := List.mem_map.mp hn
          have hq := hasked q (hpolls.mem_iff.mpr (List.mem_append_left _ hq))
          exact (List.getElem?_eq_some_iff.mp hq).1
        · cases hn
    · have := hpolls.length_eq
      rw [List.length_append] at this
      omega
    · intro n hn
      rw [hsame] at hn
      rw [hanswers, List.map_append, List.mem_append, hclosed]
      rcases hkept n hn with h | h | h
      · rcases List.mem_append.mp (hmap.mem_iff.mp h) with h | h
        · rcases hgone with hnew | ⟨-, hleft⟩
          · exact .inr (.inl (.inr (hnew ▸ h)))
          · obtain ⟨q, hq, rfl⟩ := List.mem_map.mp h
            exact .inr (.inr (hleft q hq))
        · exact .inl h
      · exact .inr (.inl (.inl h))
      · exact .inr (.inr h)

/-! ## The bounds -/

structure Room (s : Batcher) : Prop where
  pending : s.pending.polls.length ≤ maxSignatures
  inFlight : s.inFlight.length ≤ maxInFlight
  batch : ∀ b ∈ s.inFlight, b.polls.length ≤ maxSignatures
  exchange : ∀ e ∈ s.exchanges, e.signatures.length ≤ maxSignatures

theorem within_replace {before after : List Batch} {b b' : Batch}
    (h : ∀ x ∈ before ++ b :: after, x.polls.length ≤ maxSignatures)
    (hle : b'.polls.length ≤ b.polls.length) :
    ∀ x ∈ before ++ b' :: after, x.polls.length ≤ maxSignatures := by
  simp only [List.mem_append, List.mem_cons, or_imp, forall_and, forall_eq] at h ⊢
  exact ⟨h.1, hle.trans h.2.1, h.2.2⟩

theorem Room.step (hr : Room s) (h : Step C s s') : Room s' := by
  obtain ⟨hpending, hcount, hbatches, hexchanges⟩ := hr
  cases h with
  | accept | leave | retained | wait => exact ⟨hpending, hcount, hbatches, hexchanges⟩
  | keep _ hp _ =>
    refine ⟨?_, hcount, hbatches, hexchanges⟩
    simpa [Retain.polls, hp, Nat.add_assoc] using hpending
  | discard _ hp _ =>
    refine ⟨?_, hcount, hbatches, hexchanges⟩
    simp only [Retain.polls, hp, List.length_append, List.length_cons] at hpending ⊢
    omega
  | flush now _ hp hdue =>
    refine ⟨by simp [again, Retain.polls], ?_, ?_, hexchanges⟩
    · simpa using Nat.succ_le_of_lt hdue.1
    · intro b hb
      rcases List.mem_append.mp hb with hb | hb
      · exact hbatches b hb
      · rw [List.mem_singleton.mp hb]
        simpa [Batch.polls, Retain.polls, hp] using hpending
  | receive now _ hp hroom _ _ =>
    refine ⟨?_, hcount, hbatches, hexchanges⟩
    simpa [again, Retain.polls] using Nat.succ_le_of_lt hroom
  | skip _ hp hroom _ _ =>
    refine ⟨?_, hcount, hbatches, hexchanges⟩
    simpa [again, Retain.polls] using hroom.le
  | timer _ hp _ _ =>
    refine ⟨?_, hcount, hbatches, hexchanges⟩
    simpa [again, Retain.polls, hp] using hpending
  | batchKeep _ hb _ | batchDiscard _ hb _ | send _ hb _ | answer _ hb =>
    rw [hb] at hcount hbatches
    refine ⟨hpending, by simpa using hcount, within_replace hbatches ?_, hexchanges⟩
    simp [Batch.polls, Retain.polls]
  | empty _ hp hb | finish _ hp hb =>
    rw [hb] at hcount hbatches
    refine ⟨by simpa [again, Retain.polls, hp] using hpending, ?_, ?_, hexchanges⟩
    · simp only [List.length_append, List.length_cons] at hcount ⊢
      omega
    · intro b hmem
      refine hbatches b ?_
      simp only [List.mem_append, List.mem_cons] at hmem ⊢
      exact hmem.imp id .inr
  | @reply before after polls result _ hb =>
    rw [hb] at hcount hbatches
    have hlen : polls.length ≤ maxSignatures := hbatches (.sent polls) (by simp)
    refine ⟨hpending, by simpa using hcount, within_replace hbatches ?_, ?_⟩
    · rw [Batch.polls, Batch.polls, fanOut_polls]
    · intro e he
      rcases List.mem_append.mp he with he | he
      · exact hexchanges e he
      · rw [List.mem_singleton.mp he]
        simpa using hlen
  | stop => exact ⟨by simp [Retain.polls], by simp, by simp, hexchanges⟩

/-! ## The replies -/

def Exchange.replies (C : Codec) (e : Exchange) : List (Poll × ClientResult Json) :=
  fanOut C e.polls e.result

variable (C) in
/-- An answer is a reply of an exchange, and a reply of an exchange is under way or given. -/
structure Faithful (s : Batcher) : Prop where
  known : ∀ a ∈ s.answers, a.result = .error stoppedError ∨
    ∃ e ∈ s.exchanges, ∃ p, (p, a.result) ∈ e.replies C ∧ p.id = a.id
  going : ∀ number rest, .answering number rest ∈ s.inFlight →
    ∃ e, s.exchanges[number]? = some e ∧ rest ⊆ e.replies C
  told : ∀ number e, s.exchanges[number]? = some e → ∀ x ∈ e.replies C,
    (∃ rest, .answering number rest ∈ s.inFlight ∧ x ∈ rest) ∨
      ∃ a ∈ s.answers, a.id = x.1.id ∧ a.result = x.2 ∧ (a.delivered = true ∨ a.id ∈ s.closed)
  polls : ∀ e ∈ s.exchanges, e.signatures = e.polls.map Poll.signature ∧
    ∀ p ∈ e.polls, s.asked[p.id]? = some p

theorem Faithful.of_same (hf : Faithful C s) (hexchanges : s'.exchanges = s.exchanges)
    (hanswers : s'.answers = s.answers) (hclosed : s.closed ⊆ s'.closed)
    (hasked : s.asked <+: s'.asked)
    (hflight : ∀ number rest, .answering number rest ∈ s'.inFlight ↔
      .answering number rest ∈ s.inFlight) : Faithful C s' := by
  constructor
  · rw [hanswers, hexchanges]
    exact hf.known
  · intro number rest h
    rw [hexchanges]
    exact hf.going number rest ((hflight _ _).mp h)
  · intro number e he x hx
    rw [hexchanges] at he
    refine (hf.told number e he x hx).imp ?_ ?_
    · rintro ⟨rest, hrest, hx⟩
      exact ⟨rest, (hflight _ _).mpr hrest, hx⟩
    · rintro ⟨a, ha, hid, hresult, hdelivered⟩
      exact ⟨a, hanswers ▸ ha, hid, hresult, hdelivered.imp id fun h => hclosed h⟩
  · intro e he
    rw [hexchanges] at he
    refine ⟨(hf.polls e he).1, fun p hp => ?_⟩
    exact getElem?_of_prefix hasked ((hf.polls e he).2 p hp)

theorem Faithful.step (hf : Faithful C s) (ht : Tickets s) (h : Step C s s') :
    Faithful C s' := by
  cases h with
  | accept | keep | discard | retained | wait | receive | skip | timer =>
    exact hf.of_same rfl rfl (fun _ h => h) (by simp [again]) fun _ _ => .rfl
  | leave _ =>
    exact hf.of_same rfl rfl (fun _ h => List.mem_cons_of_mem _ h) List.prefix_rfl fun _ _ => .rfl
  | flush _ _ _ _ => exact hf.of_same rfl rfl (fun _ h => h) List.prefix_rfl (by simp)
  | batchKeep _ hb _ | batchDiscard _ hb _ | empty _ _ hb | send _ hb _ =>
    exact hf.of_same rfl rfl (fun _ h => h) List.prefix_rfl (by simp [hb])
  | @reply before after polls result _ hb =>
    have hnew : (s.exchanges ++ [⟨polls, polls.map Poll.signature, result⟩])[
        s.exchanges.length]? = some ⟨polls, polls.map Poll.signature, result⟩ := by simp
    have hold : ∀ {number e}, s.exchanges[number]? = some e →
        (s.exchanges ++ [⟨polls, polls.map Poll.signature, result⟩])[number]? = some e :=
      getElem?_of_prefix (List.prefix_append _ _)
    constructor
    · intro a ha
      refine (hf.known a ha).imp id ?_
      rintro ⟨e, he, h⟩
      exact ⟨e, List.mem_append_left _ he, h⟩
    · intro number rest h
      rcases List.mem_append.mp h with h | h
      · obtain ⟨e, he, hrest⟩ := hf.going number rest (by simp [hb, h])
        exact ⟨e, hold he, hrest⟩
      · rcases List.mem_cons.mp h with h | h
        · cases h
          exact ⟨_, hnew, fun _ h => h⟩
        · obtain ⟨e, he, hrest⟩ := hf.going number rest (by simp [hb, h])
          exact ⟨e, hold he, hrest⟩
    · intro number e he x hx
      rw [List.getElem?_append] at he
      split at he
      · refine (hf.told number e he x hx).imp ?_ id
        rintro ⟨rest, hrest, hx⟩
        refine ⟨rest, ?_, hx⟩
        rw [hb] at hrest
        simp only [List.mem_append, List.mem_cons, reduceCtorEq, false_or] at hrest ⊢
        exact hrest.imp id .inr
      · obtain ⟨hnumber, rfl⟩ : number = s.exchanges.length ∧
            (⟨polls, polls.map Poll.signature, result⟩ : Exchange) = e := by
          have := (List.getElem?_eq_some_iff.mp he).1
          rw [List.length_singleton] at this
          have hnumber : number = s.exchanges.length := by omega
          refine ⟨hnumber, ?_⟩
          simpa [hnumber] using he
        exact .inl ⟨fanOut C polls result, by simp [hnumber], hx⟩
    · intro e he
      rcases List.mem_append.mp he with he | he
      · exact hf.polls e he
      · rw [List.mem_singleton.mp he]
        refine ⟨rfl, fun p hp => ht.asked p ?_⟩
        simp only [outstanding, hb, List.mem_append, List.mem_flatMap]
        exact .inr ⟨.sent polls, by simp, hp⟩
  | @answer before after number p result rest _ hb =>
    obtain ⟨e, he, hrest⟩ := hf.going number ((p, result) :: rest) (by simp [hb])
    have hp : (p, result) ∈ e.replies C := hrest List.mem_cons_self
    constructor
    · intro a ha
      rcases List.mem_append.mp ha with ha | ha
      · exact hf.known a ha
      · rw [List.mem_singleton.mp ha]
        exact .inr ⟨e, List.mem_of_getElem? he, p, hp, rfl⟩
    · intro n r h
      rcases List.mem_append.mp h with h | h
      · exact hf.going n r (by simp [hb, h])
      · rcases List.mem_cons.mp h with h | h
        · cases h
          exact ⟨e, he, fun _ h => hrest (List.mem_cons_of_mem _ h)⟩
        · exact hf.going n r (by simp [hb, h])
    · intro n e' he' x hx
      rcases hf.told n e' he' x hx with ⟨r, hr, hxr⟩ | ⟨a, ha, h⟩
      · rw [hb] at hr
        rcases List.mem_append.mp hr with hr | hr
        · exact .inl ⟨r, List.mem_append_left _ hr, hxr⟩
        · rcases List.mem_cons.mp hr with hr | hr
          · cases hr
            rcases List.mem_cons.mp hxr with rfl | hxr
            · refine .inr ⟨_, List.mem_append_right _ List.mem_cons_self, rfl, rfl, ?_⟩
              simp only [decide_eq_true_eq]
              exact (em _).symm
            · exact .inl ⟨rest, by simp, hxr⟩
          · exact .inl ⟨r, by simp [hr], hxr⟩
      · exact .inr ⟨a, List.mem_append_left _ ha, h⟩
    · exact hf.polls
  | @finish before after kept number _ _ hb =>
    -- nothing of this batch is left to answer
    constructor
    · exact hf.known
    · intro n r h
      refine hf.going n r ?_
      rw [hb]
      exact (List.mem_append.mp h).elim (List.mem_append_left _)
        fun h => List.mem_append_right _ (List.mem_cons_of_mem _ h)
    · intro n e he x hx
      refine (hf.told n e he x hx).imp ?_ id
      rintro ⟨r, hr, hxr⟩
      refine ⟨r, ?_, hxr⟩
      rw [hb] at hr
      rcases List.mem_append.mp hr with hr | hr
      · exact List.mem_append_left _ hr
      · rcases List.mem_cons.mp hr with hr | hr
        · cases hr
          cases hxr
        · exact List.mem_append_right _ hr
    · exact hf.polls
  | stop _ hidle =>
    constructor
    · intro a ha
      rcases List.mem_append.mp ha with ha | ha
      · exact hf.known a ha
      · obtain ⟨p, -, rfl⟩ := List.mem_map.mp ha
        exact .inl rfl
    · intro n r h
      cases h
    · intro n e he x hx
      rcases hf.told n e he x hx with ⟨r, hr, -⟩ | ⟨a, ha, h⟩
      · exact absurd hr (hidle n r)
      · exact .inr ⟨a, List.mem_append_left _ ha, h⟩
    · exact hf.polls

variable (C) in
structure Sound (s : Batcher) : Prop where
  tickets : Tickets s
  room : Room s
  faithful : Faithful C s

/-- **What holds in every run.** -/
theorem Steps.sound (h : Steps C new s) : Sound C s := by
  induction h with
  | refl =>
    refine ⟨tickets_new, ⟨?_, ?_, ?_, ?_⟩, ⟨?_, ?_, ?_, ?_⟩⟩ <;> simp [new, Retain.polls]
  | tail _ hstep ih =>
    exact ⟨ih.tickets.of_effect hstep.effect, ih.room.step hstep,
      ih.faithful.step ih.tickets hstep⟩

theorem Sound.answer_unique (hs : Sound C s) {a a' : Answer} (ha : a ∈ s.answers)
    (ha' : a' ∈ s.answers) (hid : a.id = a'.id) : a = a' :=
  List.inj_on_of_nodup_map hs.tickets.ids.of_append_right ha ha' hid

theorem Sound.answer_of_reply (hs : Sound C s) {e : Exchange} (he : e ∈ s.exchanges) {p : Poll}
    {r : ClientResult Json} (hr : (p, r) ∈ e.replies C) {a : Answer} (ha : a ∈ s.answers)
    (hid : a.id = p.id) : a.result = r := by
  obtain ⟨number, hnumber⟩ := List.mem_iff_getElem?.mp he
  rcases hs.faithful.told number e hnumber _ hr with ⟨rest, hrest, hmem⟩ | ⟨a', ha', hid', hr', -⟩
  · -- a poll that is under way has no answer yet
    have hp : p ∈ s.outstanding := by
      simp only [outstanding, List.mem_append, List.mem_flatMap]
      exact .inr ⟨_, hrest, List.mem_map_of_mem hmem⟩
    have hdisjoint := (List.nodup_append.mp hs.tickets.ids).2.2
    exact absurd hid.symm (hdisjoint _ (List.mem_map_of_mem hp) _ (List.mem_map_of_mem ha))
  · rw [hs.answer_unique ha ha' (hid.trans hid'.symm), hr']

section Replies

variable {polls : List Poll} {p : Poll} {reply entry : Json} {response : Response} {i : ℕ}

theorem fanOut_valid (h : validateResponse C reply polls.length = .ok response) :
    fanOut C polls (.ok reply) =
      (polls.zip response.value).map fun e => (e.1, entryReply C response e.2) := by
  rw [fanOut, show (Except.ok reply >>= fun value => validateResponse C value polls.length) =
    .ok response from h, Except.either]

theorem fanOut_ok {result : ClientResult Json} {v : Json} (h : (p, .ok v) ∈ fanOut C polls result) :
    ∃ reply response, ∃ i : ℕ, ∃ entry, result = .ok reply ∧
      validateResponse C reply polls.length = .ok response ∧ polls[i]? = some p ∧
      response.value[i]? = some entry ∧ entryReply C response entry = .ok v := by
  cases hr : result >>= fun value => validateResponse C value polls.length with
  | error source => simp [fanOut, hr, Except.either] at h
  | ok response =>
    obtain ⟨reply, rfl, hvalid⟩ := bind_ok.mp hr
    rw [fanOut_valid hvalid] at h
    obtain ⟨⟨q, entry⟩, hmem, he⟩ := List.mem_map.mp h
    obtain ⟨i, hi⟩ := List.mem_iff_getElem?.mp hmem
    rw [List.getElem?_zip_eq_some] at hi
    obtain ⟨rfl, hv⟩ := Prod.ext_iff.mp he
    exact ⟨reply, response, i, entry, rfl, hvalid, hi.1, hi.2, hv⟩

theorem mem_fanOut (h : validateResponse C reply polls.length = .ok response)
    (hp : polls[i]? = some p) (hentry : response.value[i]? = some entry) :
    (p, entryReply C response entry) ∈ fanOut C polls (.ok reply) := by
  rw [fanOut_valid h]
  refine List.mem_map.mpr ⟨(p, entry), ?_, rfl⟩
  exact List.mem_of_getElem? (List.getElem?_zip_eq_some.mpr ⟨hp, hentry⟩)

end Replies

/-- **Batching is transparent.** However polls, departures, batches and replies interleave: an `Ok`
is the entry at the place of the caller's own signature; a caller of a valid reply is told what its
own entry says; a reply with a wrong number of entries is an error for each of its callers; nobody is
answered twice, a batch that is done has answered all its callers, and no caller that waits is lost;
and the bounds hold. -/
theorem batching_transparent (h : Steps C new s) :
    (∀ a ∈ s.answers, ∀ v, a.result = .ok v → ∃ e ∈ s.exchanges, ∃ reply response, ∃ i : ℕ,
      ∃ p entry status, s.asked[a.id]? = some p ∧ e.signatures[i]? = some p.signature ∧
        e.polls[i]? = some p ∧ e.result = .ok reply ∧
        validateResponse C reply e.polls.length = .ok response ∧
        response.value[i]? = some entry ∧ validateStatus C entry response.slot = .ok status ∧
        v = .obj [("context", response.context), ("value", .arr [C.encode status])]) ∧
    (∀ e ∈ s.exchanges, ∀ reply response, e.result = .ok reply →
      validateResponse C reply e.polls.length = .ok response → ∀ (i : ℕ) (p : Poll) (entry : Json),
        e.polls[i]? = some p → response.value[i]? = some entry →
        ∀ a ∈ s.answers, a.id = p.id → a.result = entryReply C response entry) ∧
    (∀ e ∈ s.exchanges, ∀ reply response, e.result = .ok reply → C.response reply = some response →
      response.value.length ≠ e.signatures.length → ∀ p ∈ e.polls, ∀ a ∈ s.answers, a.id = p.id →
        ∃ error, a.result = .error error) ∧
    (s.answers.map Answer.id).Nodup ∧
    (∀ (number : ℕ) (e : Exchange), s.exchanges[number]? = some e →
      (∀ rest, .answering number rest ∉ s.inFlight) → ∀ p ∈ e.polls,
        ∃ a ∈ s.answers, a.id = p.id ∧ (a.delivered = true ∨ p.id ∈ s.closed)) ∧
    (∀ id < s.asked.length, id ∉ s.closed →
      id ∈ s.outstanding.map Poll.id ∨ id ∈ s.answers.map Answer.id) ∧
    s.inFlight.length ≤ 4 ∧ (∀ b ∈ s.inFlight, b.polls.length ≤ 32) ∧
    (∀ e ∈ s.exchanges, e.signatures.length ≤ 32) ∧ s.outstanding.length ≤ 256 := by
  have hs := h.sound
  have hreply : ∀ e : Exchange, ∀ p ∈ e.polls, ∃ r, (p, r) ∈ e.replies C := by
    intro e p hp
    rw [← fanOut_polls C e.polls e.result] at hp
    obtain ⟨⟨q, r⟩, hr, rfl⟩ := List.mem_map.mp hp
    exact ⟨r, hr⟩
  refine ⟨?_, ?_, ?_, hs.tickets.ids.of_append_right, ?_, ?_, hs.room.inFlight, hs.room.batch,
    hs.room.exchange, ?_⟩
  · intro a ha v hv
    rcases hs.faithful.known a ha with hstop | ⟨e, he, p, hp, hid⟩
    · rw [hv] at hstop
      cases hstop
    · rw [hv] at hp
      obtain ⟨reply, response, i, entry, hresult, hvalid, hi, hentry, hok⟩ := fanOut_ok hp
      obtain ⟨hsignatures, hasked⟩ := hs.faithful.polls e he
      unfold entryReply at hok
      cases hstatus : validateStatus C entry response.slot with
      | error source =>
        rw [hstatus] at hok
        cases hok
      | ok status =>
        rw [hstatus] at hok
        refine ⟨e, he, reply, response, i, p, entry, status, ?_, ?_, hi, hresult, hvalid, hentry,
          hstatus, (Except.ok.inj hok).symm⟩
        · exact hid ▸ hasked p (List.mem_of_getElem? hi)
        · rw [hsignatures, List.getElem?_map, hi, Option.map_some]
  · intro e he reply response hresult hvalid i p entry hp hentry a ha hid
    refine hs.answer_of_reply he ?_ ha hid
    rw [Exchange.replies, hresult]
    exact mem_fanOut hvalid hp hentry
  · intro e he reply response hresult hresponse hlen p hp a ha hid
    obtain ⟨r, hr⟩ := hreply e p hp
    rw [hs.answer_of_reply he hr ha hid]
    cases r with
    | error error => exact ⟨error, rfl⟩
    | ok v =>
      obtain ⟨reply', response', i, entry, hresult', hvalid, -⟩ := fanOut_ok hr
      rw [hresult] at hresult'
      obtain rfl := Except.ok.inj hresult'
      obtain ⟨hresponse', hcount⟩ := validateResponse_ok C hvalid
      rw [hresponse] at hresponse'
      obtain rfl := Option.some.inj hresponse'
      rw [(hs.faithful.polls e he).1, List.length_map] at hlen
      exact absurd hcount hlen
  · intro number e he hdone p hp
    obtain ⟨r, hr⟩ := hreply e p hp
    rcases hs.faithful.told number e he _ hr with ⟨rest, hrest, -⟩ | ⟨a, ha, hid, -, hdelivered⟩
    · exact absurd hrest (hdone rest)
    · exact ⟨a, ha, hid, hid ▸ hdelivered⟩
  · intro id hid hopen
    rcases hs.tickets.kept id hid with h | h | h
    · exact .inl h
    · exact .inr h
    · exact absurd h hopen
  · have : s.free + s.outstanding.length = 256 := hs.tickets.permits
    omega

namespace Sample

def codec : Codec := ⟨fun _ => some ⟨7, .null, [.null]⟩, fun _ => some none, fun _ => .null⟩

end Sample

/-- One poll is batched and answered. -/
theorem batching_transparent_answered :
    ∃ s, Steps Sample.codec new s ∧ s.answers.map Answer.id = [0] ∧ s.outstanding.length ≤ 256 := by
  have h : Steps Sample.codec new new := .refl
  have h := h.tail (.accept _ "signature" (by decide) (by decide) (by decide))
  have h := h.tail (.retained rfl rfl)
  have h := h.tail (.wait 0 rfl fun hdue => hdue.2.1 rfl)
  have h := h.tail (.receive 0 rfl rfl (by decide) rfl (by decide))
  have h := h.tail (.keep rfl rfl (by decide))
  have h := h.tail (.retained rfl rfl)
  have h := h.tail (.flush 5 rfl rfl ⟨by decide, by decide, .inr rfl⟩)
  have h := h.tail (.retained rfl rfl)
  have h := h.tail (.wait 5 rfl fun hdue => hdue.2.1 rfl)
  have h := h.tail (.batchKeep rfl (List.nil_append _).symm (by decide))
  have h := h.tail (.send rfl (List.nil_append _).symm (by decide))
  have h := h.tail (.reply (.ok .null) rfl (List.nil_append _).symm)
  have h := h.tail (.answer rfl (List.nil_append _).symm)
  refine ⟨_, h, rfl, ?_⟩
  exact (batching_transparent h).2.2.2.2.2.2.2.2.2

end EngineCore.Solana.StatusBatcher
