import EngineCore.Lib.Semaphore
import Mathlib.Data.List.Nodup
import Mathlib.Logic.Relation

/-!
# One contender for the journal per chain

Every journal operation first takes the permit of its chain's lane. A lane is looked up under the
mutex of the map; references to lanes are dropped, and the lanes of other scopes taken, at any time,
also in the middle of a lookup.

* `Agrees`: what holds at any time, **`Step.agrees`** and **`Steps.agrees`**;
* **`one_contender`**: all references of a chain are to one lane, at most one of them has its permit,
  there are at most 32 dedicated lanes, and none with a reference is ever removed.
-/

namespace EngineCore.Recovery.Fairness

open Semaphore

inductive SolanaChainId
  | solanaMainnet
  | solanaDevnet
  | solanaLocal
  deriving DecidableEq, Repr

inductive ChainScope
  | evm (id : ℕ)
  | solana (chain : SolanaChainId)
  | unknown
  deriving DecidableEq, Repr

def maxEvmLanes : ℕ := 32

def unscopedHealthConcurrency : ℕ := 2

/-- The semaphores; dedicated lanes are numbered as they are allocated. -/
inductive Lane
  | dedicated (number : ℕ)
  | solana (chain : SolanaChainId)
  | fallback
  | unscopedHealth
  deriving DecidableEq, Repr

def Lane.capacity : Lane → ℕ
  | .unscopedHealth => unscopedHealthConcurrency
  | _ => 1

/-! ## Lookups -/

/-- Where a lookup inside the mutex is. -/
inductive Phase
  | get
  | overflow
  | room
  | retain (rest : List (ℕ × ℕ))
  | roomAgain
  | insert
  | share
  deriving DecidableEq, Repr

structure Lookup where
  chain : ℕ
  phase : Phase
  deriving DecidableEq, Repr

/-- `evm` is the map; `lookup` is the lookup that has its mutex. -/
structure JournalFairness where
  evm : List (ℕ × ℕ)
  allocated : ℕ
  gates : Gates Lane ChainScope
  lookup : Option Lookup

namespace JournalFairness

def new : JournalFairness := ⟨[], 0, ⟨Lane.capacity, []⟩, none⟩

/-- `Arc::strong_count`: the map or the record itself, and the outstanding references. -/
def strongCount (s : JournalFairness) : Lane → ℕ
  | .dedicated number => s.evm.countP (fun e => e.2 = number) + s.gates.held (.dedicated number)
  | lane => 1 + s.gates.held lane

def clone (s : JournalFairness) (scope : ChainScope) (lane : Lane) : JournalFairness :=
  { s with gates := s.gates.claim scope lane }

def goto (s : JournalFairness) (chain : ℕ) (phase : Phase) : JournalFairness :=
  { s with lookup := some ⟨chain, phase⟩ }

/-- The lookup returns a reference and leaves the mutex. -/
def answer (s : JournalFairness) (chain : ℕ) (lane : Lane) : JournalFairness :=
  { s.clone (.evm chain) lane with lookup := none }

def advance (s : JournalFairness) (chain : ℕ) : Phase → JournalFairness
  | .get => (s.evm.lookup chain).elim (s.goto chain .overflow) fun number =>
      s.answer chain (.dedicated number)
  -- an overflow operation may belong to this chain
  | .overflow => if s.strongCount .fallback > 1 then s.goto chain .share else s.goto chain .room
  | .room => if s.evm.length = maxEvmLanes then s.goto chain (.retain s.evm) else s.goto chain .insert
  | .retain [] => s.goto chain .roomAgain
  | .retain (e :: rest) =>
    if s.strongCount (.dedicated e.2) > 1 then s.goto chain (.retain rest)
    else { s.goto chain (.retain rest) with evm := s.evm.erase e }
  | .roomAgain => if s.evm.length = maxEvmLanes then s.goto chain .share else s.goto chain .insert
  | .insert =>
    { s with evm := s.evm ++ [(chain, s.allocated)], allocated := s.allocated + 1 }.answer chain
      (.dedicated s.allocated)
  | .share => s.answer chain .fallback

end JournalFairness

open JournalFairness

/-- The lanes of scopes that are not looked up; `health` asks for a health check. -/
def directLane (health : Bool) : ChainScope → Option Lane
  | .evm _ => none
  | .solana chain => some (.solana chain)
  | .unknown => some (if health then .unscopedHealth else .fallback)

inductive Step : JournalFairness → JournalFairness → Prop
  | lock (s : JournalFairness) (chain : ℕ) (h : s.lookup = none) : Step s (s.goto chain .get)
  | advance (s : JournalFairness) (l : Lookup) (h : s.lookup = some l) :
      Step s (s.advance l.chain l.phase)
  | direct (s : JournalFairness) (health : Bool) (scope : ChainScope) (lane : Lane)
      (h : directLane health scope = some lane) : Step s (s.clone scope lane)
  | move (s : JournalFairness) (gates : Gates Lane ChainScope) (h : s.gates.Move gates) :
      Step s { s with gates := gates }

def Steps : JournalFairness → JournalFairness → Prop := Relation.ReflTransGen Step

/-! ## The invariant -/

def Idle (s : JournalFairness) (chain : ℕ) : Prop :=
  ∀ c ∈ s.gates.claims, c.user ≠ .evm chain

/-- What a lookup knows: the chain has no dedicated lane and, past the check of the fallback, no
reference either. -/
def Phase.Knows (s : JournalFairness) (chain : ℕ) : Phase → Prop
  | .get => True
  | .overflow | .share => chain ∉ s.evm.map Prod.fst
  | .room | .roomAgain => chain ∉ s.evm.map Prod.fst ∧ Idle s chain
  | .retain rest => (chain ∉ s.evm.map Prod.fst ∧ Idle s chain) ∧ rest.Sublist s.evm
  | .insert => (chain ∉ s.evm.map Prod.fst ∧ Idle s chain) ∧ s.evm.length < maxEvmLanes

/-- The lane of a chain: its dedicated one, or else the fallback. -/
inductive Serves (s : JournalFairness) (chain : ℕ) : Lane → Prop
  | dedicated {number : ℕ} (h : (chain, number) ∈ s.evm) : Serves s chain (.dedicated number)
  | fallback (h : chain ∉ s.evm.map Prod.fst) : Serves s chain .fallback

/-- The references agree with the map. -/
structure Agrees (s : JournalFairness) : Prop where
  chains : (s.evm.map Prod.fst).Nodup
  numbers : (s.evm.map Prod.snd).Nodup
  allocated : ∀ e ∈ s.evm, e.2 < s.allocated
  size : s.evm.length ≤ maxEvmLanes
  serves : ∀ c ∈ s.gates.claims, ∀ chain, c.user = .evm chain → Serves s chain c.gate
  dedicated : ∀ c ∈ s.gates.claims, ∀ number, c.gate = .dedicated number →
    ∃ chain, c.user = .evm chain
  permits : ∀ lane, s.gates.free lane + s.gates.granted lane = lane.capacity
  knows : ∀ l, s.lookup = some l → l.phase.Knows s l.chain

variable {s s' : JournalFairness} {chain : ℕ}

theorem Serves.unique (hs : Agrees s) {lane lane' : Lane} (h : Serves s chain lane)
    (h' : Serves s chain lane') : lane = lane' := by
  cases h with
  | dedicated hmem =>
    cases h' with
    | dedicated hmem' =>
      have hsame := List.inj_on_of_nodup_map hs.chains hmem hmem' rfl
      rw [(Prod.mk.inj hsame).2]
    | fallback hnot => exact absurd (List.mem_map_of_mem hmem) hnot
  | fallback hnot =>
    cases h' with
    | dedicated hmem' => exact absurd (List.mem_map_of_mem hmem') hnot
    | fallback _ => rfl

theorem Serves.congr {lane : Lane} (h : Serves s chain lane) (hevm : s'.evm = s.evm) :
    Serves s' chain lane := by
  cases h with
  | dedicated h => exact .dedicated (hevm ▸ h)
  | fallback h => exact .fallback (hevm ▸ h)

theorem Phase.Knows.congr {phase : Phase} (h : phase.Knows s chain) (hevm : s'.evm = s.evm)
    (hidle : Idle s chain → Idle s' chain) : phase.Knows s' chain := by
  cases phase with
  | get => trivial
  | overflow | share => simpa only [Phase.Knows, hevm] using h
  | room | roomAgain => exact ⟨hevm ▸ h.1, hidle h.2⟩
  | retain rest | insert => exact ⟨⟨hevm ▸ h.1.1, hidle h.1.2⟩, hevm ▸ h.2⟩

namespace Agrees

theorem new : Agrees new where
  chains := List.nodup_nil
  numbers := List.nodup_nil
  allocated := by simp [JournalFairness.new]
  size := Nat.zero_le _
  serves := by simp [JournalFairness.new]
  dedicated := by simp [JournalFairness.new]
  permits lane := by simp [JournalFairness.new, Gates.granted]
  knows := by simp [JournalFairness.new]

theorem goto (hs : Agrees s) {phase : Phase} (hknows : phase.Knows s chain) :
    Agrees (s.goto chain phase) where
  __ := hs
  serves c hc chain hu := (hs.serves c hc chain hu).congr rfl
  knows l hl := by
    obtain rfl := Option.some.inj hl
    exact hknows.congr rfl id

theorem claim (hs : Agrees s) {scope : ChainScope} {lane : Lane} (lookup : Option Lookup)
    (hserves : ∀ chain, scope = .evm chain → Serves s chain lane)
    (hdedicated : ∀ number, lane = .dedicated number → ∃ chain, scope = .evm chain)
    (hknows : ∀ l, lookup = some l → s.lookup = some l ∧ scope ≠ .evm l.chain) :
    Agrees { s.clone scope lane with lookup := lookup } where
  __ := hs
  serves c hc chain hu := by
    refine Serves.congr (s := s) ?_ rfl
    rcases List.mem_append.mp hc with hc | hc
    · exact hs.serves c hc chain hu
    · obtain rfl := List.mem_singleton.mp hc
      exact hserves chain hu
  dedicated c hc := by
    rcases List.mem_append.mp hc with hc | hc
    · exact hs.dedicated c hc
    · obtain rfl := List.mem_singleton.mp hc
      exact hdedicated
  permits j := by
    rw [← hs.permits j]
    exact congrArg (s.gates.free j + ·) (Gates.granted_claim s.gates scope lane j)
  knows l hl := by
    obtain ⟨hl, hne⟩ := hknows l hl
    refine (hs.knows l hl).congr rfl fun hidle c hc => ?_
    rcases List.mem_append.mp hc with hc | hc
    · exact hidle c hc
    · obtain rfl := List.mem_singleton.mp hc
      exact hne

theorem answer (hs : Agrees s) {lane : Lane} (h : Serves s chain lane) :
    Agrees (s.answer chain lane) := by
  refine hs.claim none ?_ (fun _ _ => ⟨chain, rfl⟩) fun l hl => by cases hl
  intro chain' he
  obtain rfl := ChainScope.evm.inj he
  exact h

theorem move (hs : Agrees s) {gates : Gates Lane ChainScope} (h : s.gates.Move gates) :
    Agrees { s with gates := gates } where
  __ := hs
  serves c hc chain hu := by
    obtain ⟨c₀, hc₀, huser, hgate⟩ := h.origin c hc
    rw [← hgate]
    exact (hs.serves c₀ hc₀ chain (huser.trans hu)).congr rfl
  dedicated c hc number hg := by
    obtain ⟨c₀, hc₀, huser, hgate⟩ := h.origin c hc
    rw [← huser]
    exact hs.dedicated c₀ hc₀ number (hgate.trans hg)
  permits lane := (h.conserves lane).trans (hs.permits lane)
  knows l hl := by
    refine (hs.knows l hl).congr rfl fun hidle c hc => ?_
    obtain ⟨c₀, hc₀, huser, -⟩ := h.origin c hc
    rw [← huser]
    exact hidle c₀ hc₀

theorem sole {e : ℕ × ℕ} (he : e ∈ s.evm)
    (hcount : ¬s.strongCount (.dedicated e.2) > 1) :
    ∀ c ∈ s.gates.claims, c.gate ≠ .dedicated e.2 := by
  have hpos : 0 < s.evm.countP (fun x => x.2 = e.2) :=
    List.countP_pos_iff.mpr ⟨e, he, by simp⟩
  have hzero : s.gates.held (.dedicated e.2) = 0 := by
    simp only [strongCount] at hcount
    omega
  exact Gates.held_eq_zero.mp hzero

theorem reclaim (hs : Agrees s) {e : ℕ × ℕ} {rest : List (ℕ × ℕ)}
    (hknows : (Phase.retain (e :: rest)).Knows s chain)
    (hsole : ∀ c ∈ s.gates.claims, c.gate ≠ .dedicated e.2) :
    Agrees { s.goto chain (.retain rest) with evm := s.evm.erase e } where
  __ := hs
  chains := hs.chains.sublist (List.erase_sublist.map _)
  numbers := hs.numbers.sublist (List.erase_sublist.map _)
  allocated x hx := hs.allocated x (List.mem_of_mem_erase hx)
  size := Nat.le_trans List.length_erase_le hs.size
  serves c hc chain' hu := by
    have hserves := hs.serves c hc chain' hu
    have hne := hsole c hc
    generalize c.gate = lane at hserves hne
    cases hserves with
    | @dedicated number hmem =>
      refine .dedicated ((List.mem_erase_of_ne fun heq => hne ?_).mpr hmem)
      rw [← heq]
    | fallback hnot => exact .fallback fun hin => hnot ((List.erase_sublist.map _).subset hin)
  knows l hl := by
    obtain rfl := Option.some.inj hl
    obtain ⟨⟨hnot, hidle⟩, hrest⟩ := hknows
    refine ⟨⟨fun hin => hnot ((List.erase_sublist.map _).subset hin), hidle⟩, ?_⟩
    have := hrest.erase e
    rwa [List.erase_cons_head] at this

theorem insert (hs : Agrees s) (hknows : Phase.insert.Knows s chain) :
    Agrees { s with evm := s.evm ++ [(chain, s.allocated)], allocated := s.allocated + 1,
                    lookup := none } where
  __ := hs
  chains := by
    rw [List.map_append, List.nodup_append]
    refine ⟨hs.chains, List.nodup_singleton _, fun a ha b hb => ?_⟩
    obtain rfl := List.mem_singleton.mp hb
    exact fun heq => hknows.1.1 (heq ▸ ha)
  numbers := by
    rw [List.map_append, List.nodup_append]
    refine ⟨hs.numbers, List.nodup_singleton _, fun a ha b hb => ?_⟩
    obtain rfl := List.mem_singleton.mp hb
    obtain ⟨e, he, rfl⟩ := List.mem_map.mp ha
    exact Nat.ne_of_lt (hs.allocated e he)
  allocated e he := by
    rcases List.mem_append.mp he with he | he
    · exact Nat.lt_succ_of_lt (hs.allocated e he)
    · obtain rfl := List.mem_singleton.mp he
      exact Nat.lt_succ_self _
  size := by
    rw [List.length_append]
    exact hknows.2
  serves c hc chain' hu := by
    have hne : chain' ≠ chain := fun heq => hknows.1.2 c hc (heq ▸ hu)
    have hserves := hs.serves c hc chain' hu
    generalize c.gate = lane at hserves
    cases hserves with
    | dedicated hmem => exact .dedicated (List.mem_append_left _ hmem)
    | fallback hnot =>
      refine .fallback fun hin => ?_
      rw [List.map_append, List.mem_append] at hin
      rcases hin with hin | hin
      · exact hnot hin
      · exact hne (List.mem_singleton.mp hin)
  knows l hl := by cases hl

theorem advance (hs : Agrees s) {phase : Phase} (hknows : phase.Knows s chain) :
    Agrees (s.advance chain phase) := by
  cases phase with
  | get =>
    cases hget : s.evm.lookup chain with
    | none =>
      simp only [JournalFairness.advance, hget, Option.elim_none]
      refine hs.goto fun hin => ?_
      obtain ⟨e, he, rfl⟩ := List.mem_map.mp hin
      have := List.lookup_eq_none_iff.mp hget e he
      simp at this
    | some number =>
      simp only [JournalFairness.advance, hget, Option.elim_some]
      obtain ⟨l₁, l₂, heq, -⟩ := List.lookup_eq_some_iff.mp hget
      exact hs.answer (.dedicated (by simp [heq]))
  | overflow =>
    rw [JournalFairness.advance]
    split_ifs with hcount
    · exact hs.goto hknows
    · refine hs.goto ⟨hknows, fun c hc hu => ?_⟩
      -- the references of a chain without a dedicated lane would be to the fallback
      have hzero : s.gates.held .fallback = 0 := by
        simp only [strongCount] at hcount
        omega
      have hserves := hs.serves c hc chain hu
      exact Gates.held_eq_zero.mp hzero c hc (hserves.unique hs (.fallback hknows))
  | room =>
    rw [JournalFairness.advance]
    split_ifs with hfull
    · exact hs.goto ⟨hknows, List.Sublist.refl _⟩
    · exact hs.goto ⟨hknows, Nat.lt_of_le_of_ne hs.size hfull⟩
  | retain rest =>
    cases rest with
    | nil => exact hs.goto hknows.1
    | cons e rest =>
      rw [JournalFairness.advance]
      split_ifs with hcount
      · exact hs.goto ⟨hknows.1, (List.sublist_cons_self e rest).trans hknows.2⟩
      · exact hs.reclaim hknows (sole (hknows.2.subset List.mem_cons_self) hcount)
  | roomAgain =>
    rw [JournalFairness.advance]
    split_ifs with hfull
    · exact hs.goto hknows.1
    · exact hs.goto ⟨hknows, Nat.lt_of_le_of_ne hs.size hfull⟩
  | insert =>
    refine (hs.insert hknows).answer (.dedicated ?_)
    exact List.mem_append_right _ (List.mem_singleton.mpr rfl)
  | share => exact hs.answer (.fallback hknows)

end Agrees

/-- **Every step** keeps the references in agreement with the map. -/
theorem Step.agrees (h : Step s s') (hs : Agrees s) : Agrees s' := by
  cases h with
  | lock chain _ => exact hs.goto trivial
  | advance l hl => exact hs.advance (hs.knows l hl)
  | direct health scope lane hlane =>
    have hnot : ∀ chain, scope ≠ .evm chain := by
      rintro chain rfl
      cases hlane
    refine hs.claim s.lookup (fun chain he => absurd he (hnot chain)) ?_
      fun l hl => ⟨hl, hnot _⟩
    rintro number rfl
    cases scope <;> simp [directLane] at hlane
    split_ifs at hlane
  | move gates hmove => exact hs.move hmove

theorem Steps.agrees (h : Steps s s') (hs : Agrees s) : Agrees s' := by
  induction h with
  | refl => exact hs
  | tail _ hstep ih => exact hstep.agrees ih

/-! ## Contenders -/

/-- The operations of a chain that hold a permit. -/
def contenders (s : JournalFairness) (chain : ℕ) : ℕ :=
  s.gates.claims.countP fun c => c.user = .evm chain ∧ c.stage = .granted

theorem Agrees.contenders_le (hs : Agrees s) (chain : ℕ) : contenders s chain ≤ 1 := by
  by_cases hnone : ∀ c ∈ s.gates.claims, c.user ≠ .evm chain
  · have hzero : contenders s chain = 0 := by
      rw [contenders, List.countP_eq_zero]
      intro c hc
      simp [hnone c hc]
    omega
  · obtain ⟨c, hc, hu⟩ : ∃ c ∈ s.gates.claims, c.user = .evm chain := by
      simpa using hnone
    have hserves := hs.serves c hc chain hu
    have hle : contenders s chain ≤ s.gates.granted c.gate := by
      refine List.countP_mono_left fun x hx hxc => ?_
      simp only [decide_eq_true_eq] at hxc ⊢
      exact ⟨(hs.serves x hx chain hxc.1).unique hs hserves, hxc.2⟩
    have hcap : c.gate.capacity = 1 := by
      cases hg : c.gate with
      | unscopedHealth =>
        rw [hg] at hserves
        cases hserves
      | _ => rfl
    have := hs.permits c.gate
    omega

theorem Step.keeps_lane (h : Step s s') (hs : Agrees s) {e : ℕ × ℕ} (he : e ∈ s.evm)
    {c : Claim Lane ChainScope} (hc : c ∈ s.gates.claims) (hgate : c.gate = .dedicated e.2) :
    e ∈ s'.evm := by
  cases h with
  | lock chain _ => exact he
  | direct health scope lane _ => exact he
  | move gates _ => exact he
  | advance l hl =>
    have hknows := hs.knows l hl
    obtain ⟨chain, phase⟩ := l
    cases phase with
    | get =>
      simp only [JournalFairness.advance]
      cases s.evm.lookup chain <;> exact he
    | overflow | room | roomAgain =>
      simp only [JournalFairness.advance]
      split_ifs <;> exact he
    | share => exact he
    | insert => exact List.mem_append_left _ he
    | retain rest =>
      cases rest with
      | nil => exact he
      | cons x rest =>
        simp only [JournalFairness.advance]
        split_ifs with hcount
        · exact he
        · have hx : x ∈ s.evm := hknows.2.subset List.mem_cons_self
          have hne : e ≠ x := fun heq => Agrees.sole hx hcount c hc (heq ▸ hgate)
          exact (List.mem_erase_of_ne hne).mpr he

/-- **One journal contender per chain.** Whatever lookups, acquisitions, releases and dropped waiters
interleave: all outstanding references of a chain are to one semaphore, and at most one of them holds
a permit; there are at most 32 dedicated lanes; and no step removes one with a reference. -/
theorem one_contender (h : Steps new s) :
    (∀ c ∈ s.gates.claims, ∀ c' ∈ s.gates.claims, ∀ chain, c.user = .evm chain →
      c'.user = .evm chain → c.gate = c'.gate) ∧
    (∀ chain, contenders s chain ≤ 1) ∧
    s.evm.length ≤ maxEvmLanes ∧
    ∀ s', Step s s' → ∀ e ∈ s.evm, (∃ c ∈ s.gates.claims, c.gate = .dedicated e.2) → e ∈ s'.evm := by
  have hs := h.agrees .new
  refine ⟨fun c hc c' hc' chain hu hu' => ?_, hs.contenders_le, hs.size, ?_⟩
  · exact (hs.serves c hc chain hu).unique hs (hs.serves c' hc' chain hu')
  · rintro s' hstep e he ⟨c, hc, hgate⟩
    exact hstep.keeps_lane hs he hc hgate

/-- A chain has looked up its lane and taken the permit, and looks it up once more. -/
theorem one_contender_relocked : ∃ s, Steps new s ∧ s.gates.claims.map Claim.stage = [.granted] ∧
    s.lookup = some ⟨7, .get⟩ ∧ contenders s 7 ≤ 1 := by
  have hlock : Steps new (new.goto 7 .get) := .single (.lock _ _ rfl)
  have hget : Steps new (new.goto 7 .overflow) := hlock.tail (.advance _ ⟨7, .get⟩ rfl)
  have hover : Steps new (new.goto 7 .room) := hget.tail (.advance _ ⟨7, .overflow⟩ rfl)
  have hroom : Steps new (new.goto 7 .insert) := hover.tail (.advance _ ⟨7, .room⟩ rfl)
  have hlane : Steps new ⟨[(7, 0)], 1, ⟨Lane.capacity, [⟨.evm 7, .dedicated 0, .pending⟩]⟩, none⟩ :=
    hroom.tail (.advance _ ⟨7, .insert⟩ rfl)
  have hpermit : Gates.Move ⟨Lane.capacity, [⟨ChainScope.evm 7, .dedicated 0, .pending⟩]⟩
      ⟨Function.update Lane.capacity (.dedicated 0) 0, [⟨.evm 7, .dedicated 0, .granted⟩]⟩ :=
    @Gates.Move.take Lane ChainScope _ Lane.capacity [] [] (.evm 7) (.dedicated 0) Nat.one_pos
  have htake := hlane.tail (.move _ _ hpermit)
  have hagain := htake.tail (.lock _ 7 rfl)
  exact ⟨_, hagain, rfl, rfl, (one_contender hagain).2.1 7⟩

end EngineCore.Recovery.Fairness
