import Mathlib.Data.List.Count
import Mathlib.Logic.Function.Basic

/-!
# Counting semaphores

A gate lets a number of claims through at a time. A claim is a reference to its gate from the moment
it is made until it is dropped; in between it may wait, hold a permit, and have given it back. The
permit of a claim goes to the one that has waited longest, if there is any.

* **`Gates.Move.conserves`**: free permits and permits held stay the same number;
* **`Gates.Move.origin`**: a move makes no claim.
-/

namespace Semaphore

inductive Stage
  | pending
  | queued
  | granted
  | released
  deriving DecidableEq, Repr

structure Claim (K U : Type) where
  user : U
  gate : K
  stage : Stage
  deriving DecidableEq, Repr

/-- The free permits of each gate, and the claims; those that wait are in the order in which they
began to. -/
structure Gates (K U : Type) where
  free : K → ℕ
  claims : List (Claim K U)

variable {K U : Type} [DecidableEq K]

/-- The longest waiting claim on a gate gets a permit. -/
def passOn (k : K) : List (Claim K U) → Option (List (Claim K U))
  | [] => none
  | c :: cs =>
    if c.gate = k ∧ c.stage = .queued then some ({ c with stage := .granted } :: cs)
    else (passOn k cs).map (c :: ·)

namespace Gates

def granted (g : Gates K U) (k : K) : ℕ :=
  g.claims.countP fun c => c.gate = k ∧ c.stage = .granted

def held (g : Gates K U) (k : K) : ℕ := g.claims.countP fun c => c.gate = k

def claim (g : Gates K U) (user : U) (k : K) : Gates K U :=
  { g with claims := g.claims ++ [⟨user, k, .pending⟩] }

def give (g : Gates K U) (k : K) : Gates K U :=
  (passOn k g.claims).elim { g with free := Function.update g.free k (g.free k + 1) }
    fun claims => { g with claims := claims }

inductive Move : Gates K U → Gates K U → Prop
  | take {free : K → ℕ} {before after : List (Claim K U)} {user : U} {k : K} (h : 0 < free k) :
      Move ⟨free, before ++ ⟨user, k, .pending⟩ :: after⟩
        ⟨Function.update free k (free k - 1), before ++ ⟨user, k, .granted⟩ :: after⟩
  | wait {free : K → ℕ} {before after : List (Claim K U)} {user : U} {k : K} (h : free k = 0) :
      Move ⟨free, before ++ ⟨user, k, .pending⟩ :: after⟩
        ⟨free, before ++ after ++ [⟨user, k, .queued⟩]⟩
  | release {free : K → ℕ} {before after : List (Claim K U)} {user : U} {k : K} :
      Move ⟨free, before ++ ⟨user, k, .granted⟩ :: after⟩
        (give ⟨free, before ++ ⟨user, k, .released⟩ :: after⟩ k)
  | drop {free : K → ℕ} {before after : List (Claim K U)} {c : Claim K U}
      (h : c.stage ≠ .granted) : Move ⟨free, before ++ c :: after⟩ ⟨free, before ++ after⟩

end Gates

/-! ## Permits -/

theorem passOn_granted {k : K} : ∀ {cs cs' : List (Claim K U)}, passOn k cs = some cs' →
    ∀ j, cs'.countP (fun c => c.gate = j ∧ c.stage = .granted)
      = cs.countP (fun c => c.gate = j ∧ c.stage = .granted) + if j = k then 1 else 0
  | [], cs', h, j => by simp [passOn] at h
  | c :: cs, cs', h, j => by
    rw [passOn] at h
    split_ifs at h with hc
    · obtain rfl := Option.some.inj h
      rw [List.countP_cons, List.countP_cons]
      simp [hc.1, hc.2, eq_comm]
    · obtain ⟨rest, hrest, rfl⟩ := Option.map_eq_some_iff.mp h
      rw [List.countP_cons, List.countP_cons, passOn_granted hrest j]
      omega

theorem passOn_origin {k : K} : ∀ {cs cs' : List (Claim K U)}, passOn k cs = some cs' →
    ∀ c' ∈ cs', ∃ c ∈ cs, c.user = c'.user ∧ c.gate = c'.gate
  | [], cs', h, c', hc' => by simp [passOn] at h
  | c :: cs, cs', h, c', hc' => by
    rw [passOn] at h
    split_ifs at h with hc
    · obtain rfl := Option.some.inj h
      rcases List.mem_cons.mp hc' with rfl | hc'
      · exact ⟨c, List.mem_cons_self, rfl, rfl⟩
      · exact ⟨c', List.mem_cons_of_mem c hc', rfl, rfl⟩
    · obtain ⟨rest, hrest, rfl⟩ := Option.map_eq_some_iff.mp h
      rcases List.mem_cons.mp hc' with rfl | hc'
      · exact ⟨c', List.mem_cons_self, rfl, rfl⟩
      · obtain ⟨c₀, hc₀, hsame⟩ := passOn_origin hrest c' hc'
        exact ⟨c₀, List.mem_cons_of_mem c hc₀, hsame⟩

namespace Gates

variable {g g' : Gates K U}

theorem give_conserves (g : Gates K U) (k j : K) :
    (g.give k).free j + (g.give k).granted j
      = g.free j + g.granted j + if j = k then 1 else 0 := by
  cases h : passOn k g.claims with
  | none =>
    simp only [give, h, Option.elim_none, granted]
    by_cases hj : j = k
    · subst hj
      simp
      omega
    · simp [hj]
  | some cs =>
    simp only [give, h, Option.elim_some, granted, passOn_granted h j]
    omega

/-- **Permits are neither lost nor made.** -/
theorem Move.conserves (h : Move g g') (j : K) :
    g'.free j + g'.granted j = g.free j + g.granted j := by
  cases h with
  | @take free before after user k hfree =>
    simp only [granted, List.countP_append, List.countP_cons]
    by_cases hj : j = k
    · subst hj
      simp
      omega
    · simp [hj, Ne.symm hj]
  | @wait free before after user k hfree =>
    simp only [granted, List.countP_append, List.countP_cons]
    simp
  | @release free before after user k =>
    rw [give_conserves]
    simp only [granted, List.countP_append, List.countP_cons]
    by_cases hj : j = k
    · subst hj
      simp
      omega
    · simp [hj, Ne.symm hj]
  | @drop free before after c hc =>
    simp only [granted, List.countP_append, List.countP_cons]
    simp [hc]

theorem granted_claim (g : Gates K U) (user : U) (k j : K) :
    (g.claim user k).granted j = g.granted j := by
  simp [granted, claim, List.countP_append]

/-! ## Claims -/

theorem give_origin (g : Gates K U) (k : K) :
    ∀ c' ∈ (g.give k).claims, ∃ c ∈ g.claims, c.user = c'.user ∧ c.gate = c'.gate := by
  intro c' hc'
  cases h : passOn k g.claims with
  | none =>
    simp only [give, h, Option.elim_none] at hc'
    exact ⟨c', hc', rfl, rfl⟩
  | some cs =>
    simp only [give, h, Option.elim_some] at hc'
    exact passOn_origin h c' hc'

/-- **A move makes no claim.** -/
theorem Move.origin (h : Move g g') :
    ∀ c' ∈ g'.claims, ∃ c ∈ g.claims, c.user = c'.user ∧ c.gate = c'.gate := by
  intro c' hc'
  cases h with
  | @take free before after user k _ =>
    rcases List.mem_append.mp hc' with hc' | hc'
    · exact ⟨c', List.mem_append_left _ hc', rfl, rfl⟩
    · rcases List.mem_cons.mp hc' with rfl | hc'
      · exact ⟨⟨user, k, .pending⟩, by simp, rfl, rfl⟩
      · exact ⟨c', by simp [hc'], rfl, rfl⟩
  | @wait free before after user k _ =>
    rcases List.mem_append.mp hc' with hc' | hc'
    · refine ⟨c', ?_, rfl, rfl⟩
      rcases List.mem_append.mp hc' with hc' | hc' <;> simp [hc']
    · obtain rfl := List.mem_singleton.mp hc'
      exact ⟨⟨user, k, .pending⟩, by simp, rfl, rfl⟩
  | @release free before after user k =>
    obtain ⟨c, hc, huser, hgate⟩ := give_origin _ _ c' hc'
    rcases List.mem_append.mp hc with hc | hc
    · exact ⟨c, List.mem_append_left _ hc, huser, hgate⟩
    · rcases List.mem_cons.mp hc with rfl | hc
      · exact ⟨⟨user, k, .granted⟩, by simp, huser, hgate⟩
      · exact ⟨c, by simp [hc], huser, hgate⟩
  | @drop free before after c _ =>
    refine ⟨c', ?_, rfl, rfl⟩
    rcases List.mem_append.mp hc' with hc' | hc' <;> simp [hc']

theorem held_eq_zero {k : K} : g.held k = 0 ↔ ∀ c ∈ g.claims, c.gate ≠ k := by
  simp [held, List.countP_eq_zero]

end Gates

end Semaphore
