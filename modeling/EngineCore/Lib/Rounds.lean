import Mathlib.Data.List.Basic
import Mathlib.Data.List.Nodup
import Mathlib.Logic.Function.Basic

/-!
# Taking turns

A server asks clients in turn for up to `n` results. A client that has one goes to the end of the
line, with a new tag; a client that has none leaves the line.

* `rotate serve fuel n line s`: the state at the end, and the results with their clients in the order
  they were found. Every round uses up a result or a client, so `n + line.length` rounds are enough;
* `Dry`, a section variable: what is known of a client that had no result. **`rotate_dry`**: with fewer
  than `n` results every client is dry at the end;
* **`rotate_fair`**: no client is two results ahead of one that is not dry.
-/

namespace EngineCore.Rounds

variable {σ κ τ α : Type}

def rotate (serve : σ → κ → τ → σ × Option (τ × α)) :
    ℕ → ℕ → List (κ × τ) → σ → σ × List (κ × α)
  | 0, _, _, s => (s, [])
  | _, 0, _, s => (s, [])
  | _, _, [], s => (s, [])
  | fuel + 1, n + 1, (k, t) :: line, s =>
    match serve s k t with
    | (s, some (t, a)) =>
      let (s, found) := rotate serve fuel n (line ++ [(k, t)]) s
      (s, (k, a) :: found)
    | (s, none) => rotate serve fuel (n + 1) line s

variable (serve : σ → κ → τ → σ × Option (τ × α))

@[simp] theorem rotate_fuel_zero (n : ℕ) (line : List (κ × τ)) (s : σ) :
    rotate serve 0 n line s = (s, []) := by
  rw [rotate]

@[simp] theorem rotate_zero (fuel : ℕ) (line : List (κ × τ)) (s : σ) :
    rotate serve fuel 0 line s = (s, []) := by
  cases fuel <;> rw [rotate]
  simp

@[simp] theorem rotate_nil (fuel n : ℕ) (s : σ) :
    rotate serve fuel n [] s = (s, []) := by
  cases fuel with
  | zero => rw [rotate]
  | succ fuel =>
    cases n with
    | zero => rw [rotate_zero]
    | succ n => rw [rotate] <;> simp

variable {serve} {line : List (κ × τ)}

theorem rotate_some {fuel n : ℕ} {k : κ} {t t' : τ} {s s' : σ} {a : α}
    (h : serve s k t = (s', some (t', a))) :
    rotate serve (fuel + 1) (n + 1) ((k, t) :: line) s =
      ((rotate serve fuel n (line ++ [(k, t')]) s').1,
        (k, a) :: (rotate serve fuel n (line ++ [(k, t')]) s').2) := by
  rw [rotate]
  simp only [h]

theorem rotate_none {fuel n : ℕ} {k : κ} {t : τ} {s s' : σ}
    (h : serve s k t = (s', none)) :
    rotate serve (fuel + 1) (n + 1) ((k, t) :: line) s = rotate serve fuel (n + 1) line s' := by
  rw [rotate]
  simp only [h]

theorem rotate_induction {motive : ℕ → ℕ → List (κ × τ) → σ → σ × List (κ × α) → Prop}
    (stop : ∀ fuel n line s, fuel = 0 ∨ n = 0 ∨ line = [] → motive fuel n line s (s, []))
    (found : ∀ fuel n k t line s s' t' a, serve s k t = (s', some (t', a)) →
      motive fuel n (line ++ [(k, t')]) s' (rotate serve fuel n (line ++ [(k, t')]) s') →
      motive (fuel + 1) (n + 1) ((k, t) :: line) s
        ((rotate serve fuel n (line ++ [(k, t')]) s').1,
          (k, a) :: (rotate serve fuel n (line ++ [(k, t')]) s').2))
    (left : ∀ fuel n k t line s s', serve s k t = (s', none) →
      motive fuel (n + 1) line s' (rotate serve fuel (n + 1) line s') →
      motive (fuel + 1) (n + 1) ((k, t) :: line) s (rotate serve fuel (n + 1) line s'))
    (fuel n : ℕ) (line : List (κ × τ)) (s : σ) :
    motive fuel n line s (rotate serve fuel n line s) := by
  induction fuel generalizing n line s with
  | zero =>
    rw [rotate_fuel_zero]
    exact stop 0 n line s (.inl rfl)
  | succ fuel ih =>
    cases n with
    | zero =>
      rw [rotate_zero]
      exact stop _ 0 line s (.inr (.inl rfl))
    | succ n =>
      cases line with
      | nil =>
        rw [rotate_nil]
        exact stop _ _ [] s (.inr (.inr rfl))
      | cons entry line =>
        obtain ⟨k, t⟩ := entry
        cases hs : serve s k t with
        | mk s' answer =>
          cases answer with
          | some answer =>
            rw [rotate_some hs]
            exact found fuel n k t line s s' answer.1 answer.2 hs (ih n _ s')
          | none =>
            rw [rotate_none hs]
            exact left fuel n k t line s s' hs (ih (n + 1) line s')

theorem rotate_length (fuel n : ℕ) (line : List (κ × τ)) (s : σ) :
    (rotate serve fuel n line s).2.length ≤ n := by
  refine rotate_induction (motive := fun _ n _ _ r => r.2.length ≤ n) ?_ ?_ ?_ fuel n line s
  · exact fun _ n _ _ _ => Nat.zero_le n
  · exact fun _ _ _ _ _ _ _ _ _ _ ih => Nat.succ_le_succ ih
  · exact fun _ _ _ _ _ _ _ _ ih => ih

theorem nodup_moved {k : κ} {t t' : τ}
    (h : (((k, t) :: line).map Prod.fst).Nodup) : ((line ++ [(k, t')]).map Prod.fst).Nodup := by
  rw [List.map_append, List.map_singleton, ← List.concat_eq_append, List.nodup_concat]
  exact List.nodup_cons.mp h

theorem mem_moved {k k' : κ} {t t' : τ} :
    k' ∈ (line ++ [(k, t')]).map Prod.fst ↔ k' ∈ ((k, t) :: line).map Prod.fst := by
  simp only [List.map_cons, List.mem_cons, List.map_append, List.map_nil, List.mem_append,
    List.not_mem_nil, or_false]
  exact or_comm

section Rules

variable {Inv : σ → Prop}

theorem rotate_keeps (hserve : ∀ s k t, Inv s → Inv (serve s k t).1) (fuel n : ℕ)
    (line : List (κ × τ)) (s : σ) (h : Inv s) : Inv (rotate serve fuel n line s).1 := by
  refine rotate_induction (motive := fun _ _ _ s r => Inv s → Inv r.1) ?_ ?_ ?_ fuel n line s h
  · exact fun _ _ _ _ _ h => h
  · intro fuel n k t line s s' t' a hs ih h
    have hs' := hserve s k t h
    rw [hs] at hs'
    exact ih hs'
  · intro fuel n k t line s s' hs ih h
    have hs' := hserve s k t h
    rw [hs] at hs'
    exact ih hs'

variable (Dry : κ → σ → Prop) (hserve : ∀ s k t, Inv s → Inv (serve s k t).1)
  (hdry : ∀ s k t, Inv s → (serve s k t).2 = none → Dry k (serve s k t).1)
  (hkeep : ∀ s k t k', Inv s → k' ≠ k → Dry k' s → Dry k' (serve s k t).1)

include hserve hkeep in
theorem dry_rotate (fuel n : ℕ) (line : List (κ × τ)) (s : σ) (h : Inv s) {k : κ}
    (hk : k ∉ line.map Prod.fst) (hd : Dry k s) : Dry k (rotate serve fuel n line s).1 := by
  refine rotate_induction
    (motive := fun _ _ line s r => Inv s → k ∉ line.map Prod.fst → Dry k s → Dry k r.1) ?_ ?_ ?_ fuel n
    line s h hk hd
  · exact fun _ _ _ _ _ _ _ hd => hd
  · intro fuel n k' t line s s' t' a hs ih h hk hd
    have hne : k ≠ k' := fun he => hk (by simp [he])
    have hinv := hserve s k' t h
    have hd' := hkeep s k' t k h hne hd
    rw [hs] at hinv hd'
    exact ih hinv (fun hin => hk (mem_moved.mp hin)) hd'
  · intro fuel n k' t line s s' hs ih h hk hd
    have hne : k ≠ k' := fun he => hk (by simp [he])
    have hinv := hserve s k' t h
    have hd' := hkeep s k' t k h hne hd
    rw [hs] at hinv hd'
    exact ih hinv (fun hin => hk (List.mem_cons_of_mem _ hin)) hd'

include hserve hdry hkeep in
/-- **If fewer than `n` results are found, every client of the line is dry.** -/
theorem rotate_dry (fuel n : ℕ) (line : List (κ × τ)) (s : σ) (h : Inv s)
    (hline : (line.map Prod.fst).Nodup) (hfuel : n + line.length ≤ fuel)
    (hfew : (rotate serve fuel n line s).2.length < n) :
    ∀ k ∈ line.map Prod.fst, Dry k (rotate serve fuel n line s).1 := by
  refine rotate_induction (motive := fun fuel n line s r => Inv s → (line.map Prod.fst).Nodup →
    n + line.length ≤ fuel → r.2.length < n → ∀ k ∈ line.map Prod.fst, Dry k r.1) ?_ ?_ ?_ fuel n line s
    h hline hfuel hfew
  · intro fuel n line s hstop h hline hfuel hfew
    have hlength : (([] : List (κ × α))).length = 0 := rfl
    rcases hstop with rfl | rfl | rfl
    · omega
    · omega
    · exact fun _ hin => absurd hin List.not_mem_nil
  · intro fuel n k t line s s' t' a hs ih h hline hfuel hfew k' hk'
    have hinv := hserve s k t h
    rw [hs] at hinv
    simp only [List.length_cons] at hfuel hfew
    refine ih hinv (nodup_moved hline) ?_ (by omega) k' (mem_moved.mpr hk')
    rw [List.length_append, List.length_singleton]
    omega
  · intro fuel n k t line s s' hs ih h hline hfuel hfew k' hk'
    obtain ⟨hnot, hnodup⟩ : k ∉ line.map Prod.fst ∧ (line.map Prod.fst).Nodup :=
      List.nodup_cons.mp hline
    have hinv := hserve s k t h
    have hempty := hdry s k t h
    rw [hs] at hinv hempty
    rw [List.length_cons] at hfuel
    rcases List.mem_cons.mp hk' with rfl | hk'
    · exact dry_rotate Dry hserve hkeep fuel (n + 1) line s' hinv hnot (hempty rfl)
    · exact ih hinv hnodup (by omega) hfew k' hk'

end Rules

/-! ## Fairness -/

section Fair

/-- The line has the clients with `m` results before those with `m + 1`, and nobody has more. -/
structure Even (m : ℕ) (before : κ → ℕ) (line : List (κ × τ)) : Prop where
  split : ∃ first second, line = first ++ second ∧ (∀ e ∈ first, before e.1 = m) ∧
    ∀ e ∈ second, before e.1 = m + 1
  most : ∀ k, before k ≤ m + 1

theorem Even.turn [DecidableEq κ] {m : ℕ} {before : κ → ℕ} {k : κ} {t : τ}
    (h : Even m before ((k, t) :: line)) (t' : τ) (hnot : k ∉ line.map Prod.fst) :
    ∃ m', Even m' (Function.update before k (before k + 1)) (line ++ [(k, t')]) := by
  have hother : ∀ e ∈ line, Function.update before k (before k + 1) e.1 = before e.1 := by
    intro e he
    refine Function.update_of_ne ?_ _ _
    rintro rfl
    exact hnot (List.mem_map_of_mem he)
  -- a line in which all have `m + 1` begins a new round
  obtain ⟨m', rest, second, hline, hk, hrest, hsecond, hmost⟩ : ∃ m' rest second,
      line = rest ++ second ∧ before k = m' ∧ (∀ e ∈ rest, before e.1 = m') ∧
      (∀ e ∈ second, before e.1 = m' + 1) ∧ ∀ k', before k' ≤ m' + 1 := by
    obtain ⟨first, second, he, hfirst, hsecond⟩ := h.split
    cases first with
    | nil =>
      obtain rfl : (k, t) :: line = second := he
      refine ⟨m + 1, line, [], by simp, hsecond (k, t) (by simp), ?_, by simp, ?_⟩
      · exact fun e hin => hsecond e (List.mem_cons_of_mem _ hin)
      · exact fun k' => Nat.le_succ_of_le (h.most k')
    | cons head rest =>
      obtain ⟨rfl, hline⟩ := List.cons.inj he
      refine ⟨m, rest, second, hline, hfirst (k, t) (by simp), ?_, hsecond, h.most⟩
      exact fun e hin => hfirst e (List.mem_cons_of_mem _ hin)
  refine ⟨m', ⟨rest, second ++ [(k, t')], by rw [hline, List.append_assoc], fun e hin => ?_,
    fun e hin => ?_⟩, fun k' => ?_⟩
  · rw [hother e (hline ▸ List.mem_append_left _ hin)]
    exact hrest e hin
  · rcases List.mem_append.mp hin with hin | hin
    · rw [hother e (hline ▸ List.mem_append_right _ hin)]
      exact hsecond e hin
    · obtain rfl := List.mem_singleton.mp hin
      rw [Function.update_self, hk]
  · by_cases he : k' = k
    · subst he
      rw [Function.update_self]
      omega
    · rw [Function.update_of_ne he]
      exact hmost k'

theorem Even.leave {m : ℕ} {before : κ → ℕ} {e : κ × τ}
    (h : Even m before (e :: line)) : Even m before line := by
  obtain ⟨first, second, he, hfirst, hsecond⟩ := h.split
  cases first with
  | nil =>
    obtain rfl : e :: line = second := he
    exact ⟨⟨[], line, rfl, by simp, fun e' hin => hsecond e' (List.mem_cons_of_mem _ hin)⟩, h.most⟩
  | cons head rest =>
    obtain ⟨rfl, rfl⟩ := List.cons.inj he
    exact ⟨⟨rest, second, rfl, fun e' hin => hfirst e' (List.mem_cons_of_mem _ hin), hsecond⟩, h.most⟩

theorem Even.close {m : ℕ} {before : κ → ℕ} (h : Even m before line) (k : κ)
    {k' : κ} (hk' : k' ∈ line.map Prod.fst) : before k ≤ before k' + 1 := by
  obtain ⟨e, he, rfl⟩ := List.mem_map.mp hk'
  obtain ⟨first, second, rfl, hfirst, hsecond⟩ := h.split
  have hmost := h.most k
  rcases List.mem_append.mp he with hin | hin
  · have := hfirst e hin
    omega
  · have := hsecond e hin
    omega

variable [DecidableEq κ] {Inv : σ → Prop} (Dry : κ → σ → Prop)
  (hserve : ∀ s k t, Inv s → Inv (serve s k t).1)
  (hdry : ∀ s k t, Inv s → (serve s k t).2 = none → Dry k (serve s k t).1)
  (hkeep : ∀ s k t k', Inv s → k' ≠ k → Dry k' s → Dry k' (serve s k t).1)

/-- How often each client had a result, given how often before. -/
def counts (before : κ → ℕ) (found : List (κ × α)) (k : κ) : ℕ :=
  before k + (found.map Prod.fst).count k

theorem counts_cons (before : κ → ℕ) (k : κ) (a : α) (found : List (κ × α)) :
    counts before ((k, a) :: found) = counts (Function.update before k (before k + 1)) found := by
  funext i
  by_cases hi : i = k
  · subst hi
    simp only [counts, Function.update_self, List.map_cons, List.count_cons_self]
    omega
  · simp only [counts, Function.update_of_ne hi, List.map_cons, List.count_cons_of_ne (Ne.symm hi)]

include hserve hdry hkeep in
theorem rotate_even (fuel n m : ℕ) (before : κ → ℕ) (line : List (κ × τ)) (s : σ) (h : Inv s)
    (hline : (line.map Prod.fst).Nodup) (heven : Even m before line) (k k' : κ)
    (hk' : k' ∈ line.map Prod.fst) :
    counts before (rotate serve fuel n line s).2 k ≤
        counts before (rotate serve fuel n line s).2 k' + 1 ∨
      Dry k' (rotate serve fuel n line s).1 := by
  refine rotate_induction (motive := fun _ _ line s r => Inv s → (line.map Prod.fst).Nodup →
    ∀ m before, Even m before line → k' ∈ line.map Prod.fst →
      counts before r.2 k ≤ counts before r.2 k' + 1 ∨ Dry k' r.1) ?_ ?_ ?_ fuel n line s h hline m
    before heven hk'
  · intro fuel n line s hstop h hline m before heven hk'
    exact .inl (by simpa [counts] using heven.close k hk')
  · intro fuel n c t line s s' t' a hs ih h hline m before heven hk'
    have hinv := hserve s c t h
    rw [hs] at hinv
    obtain ⟨m', heven'⟩ := heven.turn t' (List.nodup_cons.mp hline).1
    rw [counts_cons]
    exact ih hinv (nodup_moved hline) m' _ heven' (mem_moved.mpr hk')
  · intro fuel n c t line s s' hs ih h hline m before heven hk'
    obtain ⟨hnot, hnodup⟩ : c ∉ line.map Prod.fst ∧ (line.map Prod.fst).Nodup :=
      List.nodup_cons.mp hline
    have hinv := hserve s c t h
    have hempty := hdry s c t h
    rw [hs] at hinv hempty
    rcases List.mem_cons.mp hk' with rfl | hin
    · exact .inr (dry_rotate Dry hserve hkeep fuel (n + 1) line s' hinv hnot (hempty rfl))
    · exact ih hinv hnodup m before heven.leave hin

include hserve hdry hkeep in
/-- **No client is two results ahead of one that is not dry.** -/
theorem rotate_fair (fuel n : ℕ) (line : List (κ × τ)) (s : σ) (h : Inv s)
    (hline : (line.map Prod.fst).Nodup) (k k' : κ) (hk' : k' ∈ line.map Prod.fst) :
    ((rotate serve fuel n line s).2.map Prod.fst).count k ≤
        ((rotate serve fuel n line s).2.map Prod.fst).count k' + 1 ∨
      Dry k' (rotate serve fuel n line s).1 := by
  have heven : Even 0 (fun _ : κ => 0) line := ⟨⟨line, [], by simp, by simp, by simp⟩, by simp⟩
  have := rotate_even Dry hserve hdry hkeep fuel n 0 (fun _ => 0) line s h hline heven k k' hk'
  simpa only [counts, Nat.zero_add] using this

end Fair

end EngineCore.Rounds
