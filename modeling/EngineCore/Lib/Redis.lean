import Mathlib.Data.List.Sort
import Mathlib.Data.List.Dedup
import Mathlib.Algebra.BigOperators.Group.List.Basic
import Mathlib.Algebra.Order.Ring.Nat

/-!
# Redis collections

Hashes, sorted sets and sets as lists. A hash or a sorted set is a list of pairs, the key first;
commands that add a key drop its old entry.

* **`perm_cons_hdel`**: what removing a present key does to the list of keys.
-/

namespace Redis

variable {κ ν : Type} [DecidableEq κ]

/-! ## Hashes and sorted sets -/

/-- The keys of a hash, or the members of a sorted set. -/
def keys (l : List (κ × ν)) : List κ := l.map Prod.fst

/-- `HDEL` and `ZREM`. -/
def hdel (l : List (κ × ν)) (k : κ) : List (κ × ν) := l.filter fun e => e.1 ≠ k

/-- `HSET`. -/
def hset (l : List (κ × ν)) (k : κ) (v : ν) : List (κ × ν) := (k, v) :: hdel l k

variable {l : List (κ × ν)}

omit [DecidableEq κ] in
theorem mem_keys {k : κ} : k ∈ keys l ↔ ∃ v, (k, v) ∈ l := by
  simp [keys]

omit [DecidableEq κ] in
@[simp] theorem keys_nil : keys ([] : List (κ × ν)) = [] := rfl

omit [DecidableEq κ] in
@[simp] theorem keys_cons (e : κ × ν) (l : List (κ × ν)) : keys (e :: l) = e.1 :: keys l := rfl

theorem keys_hdel (l : List (κ × ν)) (k : κ) : keys (hdel l k) = (keys l).filter (· ≠ k) := by
  unfold keys hdel
  rw [List.filter_map]
  rfl

@[simp] theorem mem_keys_hdel {k k' : κ} :
    k' ∈ keys (hdel l k) ↔ k' ∈ keys l ∧ k' ≠ k := by
  rw [keys_hdel, List.mem_filter]
  simp

@[simp] theorem mem_keys_hset {k k' : κ} {v : ν} :
    k' ∈ keys (hset l k v) ↔ k' = k ∨ k' ∈ keys l := by
  unfold hset
  rw [keys_cons, List.mem_cons, mem_keys_hdel]
  by_cases h : k' = k <;> simp [h]

theorem mem_hdel {k : κ} {e : κ × ν} : e ∈ hdel l k ↔ e ∈ l ∧ e.1 ≠ k := by
  unfold hdel
  rw [List.mem_filter]
  simp

theorem mem_hset {k : κ} {v : ν} {e : κ × ν} :
    e ∈ hset l k v ↔ e = (k, v) ∨ e ∈ l ∧ e.1 ≠ k := by
  unfold hset
  rw [List.mem_cons, mem_hdel]

theorem nodup_keys_hdel (h : (keys l).Nodup) (k : κ) :
    (keys (hdel l k)).Nodup := by
  rw [keys_hdel]
  exact h.filter _

theorem nodup_keys_hset (h : (keys l).Nodup) (k : κ) (v : ν) :
    (keys (hset l k v)).Nodup := by
  refine List.nodup_cons.mpr ⟨fun hk => ?_, nodup_keys_hdel h k⟩
  exact (mem_keys_hdel.mp hk).2 rfl

omit [DecidableEq κ] in
theorem value_unique (h : (keys l).Nodup) {k : κ} {v v' : ν} (hv : (k, v) ∈ l)
    (hv' : (k, v') ∈ l) : v = v' :=
  congrArg Prod.snd (List.inj_on_of_nodup_map h hv hv' rfl)

theorem mem_keys_hdelAll {ks : List κ} {k : κ} :
    k ∈ keys (ks.foldl hdel l) ↔ k ∈ keys l ∧ k ∉ ks := by
  induction ks generalizing l with
  | nil => simp
  | cons a ks ih =>
    rw [List.foldl_cons, ih, mem_keys_hdel, List.mem_cons]
    tauto

theorem perm_cons_hdel {k : κ} (hn : (keys l).Nodup) (hk : k ∈ keys l) :
    (keys l).Perm (k :: keys (hdel l k)) := by
  rw [keys_hdel]
  have he : (keys l).filter (· ≠ k) = (keys l).erase k := by
    rw [List.Nodup.erase_eq_filter hn]
    congr 1
    funext x
    by_cases h : x = k <;> simp [h]
  rw [he]
  exact List.perm_cons_erase hk

theorem hdel_of_not_mem {k : κ} (hk : k ∉ keys l) : hdel l k = l := by
  unfold hdel
  rw [List.filter_eq_self]
  intro e he
  have : e.1 ≠ k := by
    rintro rfl
    exact hk (mem_keys.2 ⟨e.2, he⟩)
  simpa using this

/-! ## Sorted sets in order -/

section Ordered

variable [LE κ] [DecidableLE κ]

/-- The order of a sorted set: by score, then by member. -/
def Before (a b : κ × ℕ) : Prop := a.2 < b.2 ∨ a.2 = b.2 ∧ a.1 ≤ b.1

instance (a b : κ × ℕ) : Decidable (Before a b) := by
  unfold Before
  infer_instance

/-- `ZADD`: the member moves to the place of its new score. -/
def zadd (l : List (κ × ℕ)) (k : κ) (score : ℕ) : List (κ × ℕ) :=
  List.orderedInsert Before (k, score) (hdel l k)

/-- `ZRANGEBYSCORE` from zero: the members with a score up to `max`. -/
def due (l : List (κ × ℕ)) (max : ℕ) : List κ := keys (l.filter fun e => e.2 ≤ max)

theorem keys_zadd_perm (l : List (κ × ℕ)) (k : κ) (score : ℕ) :
    (keys (zadd l k score)).Perm (k :: keys (hdel l k)) :=
  (List.perm_orderedInsert Before (k, score) (hdel l k)).map Prod.fst

@[simp] theorem mem_keys_zadd {l : List (κ × ℕ)} {k k' : κ} {score : ℕ} :
    k' ∈ keys (zadd l k score) ↔ k' = k ∨ k' ∈ keys l := by
  rw [(keys_zadd_perm l k score).mem_iff, List.mem_cons, mem_keys_hdel]
  by_cases h : k' = k <;> simp [h]

omit [DecidableEq κ] [LE κ] [DecidableLE κ] in
theorem due_sublist (l : List (κ × ℕ)) (max : ℕ) : (due l max).Sublist (keys l) :=
  List.filter_sublist.map Prod.fst

end Ordered

/-! ## Sets -/

/-- `SADD`. -/
def sadd (s : List κ) (k : κ) : List κ := if k ∈ s then s else k :: s

/-- `SREM`, and `LREM` of every occurrence. -/
def srem (s : List κ) (k : κ) : List κ := s.filter (· ≠ k)

@[simp] theorem mem_sadd {s : List κ} {k k' : κ} : k' ∈ sadd s k ↔ k' = k ∨ k' ∈ s := by
  unfold sadd
  split_ifs with h
  · constructor
    · exact Or.inr
    · rintro (rfl | h')
      · exact h
      · exact h'
  · exact List.mem_cons

@[simp] theorem mem_srem {s : List κ} {k k' : κ} : k' ∈ srem s k ↔ k' ∈ s ∧ k' ≠ k := by
  unfold srem
  rw [List.mem_filter]
  simp

theorem mem_sremAll {s ks : List κ} {k : κ} : k ∈ ks.foldl srem s ↔ k ∈ s ∧ k ∉ ks := by
  induction ks generalizing s with
  | nil => simp
  | cons a ks ih =>
    rw [List.foldl_cons, ih, mem_srem, List.mem_cons]
    tauto

/-! ## Walks -/

section Walk

variable {σ ι : Type} {step : σ → ι → σ} {E : ι → σ → Prop} {I R : σ → Prop} {ids : List ι} {s : σ}

/-- A script walks over the distinct members of an index and removes at most the one it is at. -/
theorem foldl_members (h : I s) (hn : ids.Nodup) (hids : ∀ i ∈ ids, E i s)
    (hstep : ∀ s i, I s → E i s → I (step s i))
    (hrest : ∀ s i j, j ≠ i → E j s → E j (step s i)) : I (ids.foldl step s) := by
  induction ids generalizing s with
  | nil => exact h
  | cons i ids ih =>
    obtain ⟨hnot, hn⟩ := List.nodup_cons.mp hn
    refine ih (hstep s i h (hids i List.mem_cons_self)) hn fun j hj => ?_
    exact hrest s i j (fun he => hnot (he ▸ hj)) (hids j (List.mem_cons_of_mem _ hj))

/-- What the walk does to a member when it is there lasts to its end. -/
theorem foldl_reaches {i : ι} (h : I s) (hn : ids.Nodup) (hids : ∀ i ∈ ids, E i s)
    (hstep : ∀ s i, I s → E i s → I (step s i))
    (hrest : ∀ s i j, j ≠ i → E j s → E j (step s i)) (hi : i ∈ ids ∨ R s)
    (hat : ∀ s, I s → R (step s i)) (hlasts : ∀ s j, I s → E j s → R s → R (step s j)) :
    R (ids.foldl step s) := by
  induction ids generalizing s with
  | nil => exact hi.resolve_left List.not_mem_nil
  | cons j ids ih =>
    obtain ⟨hnot, hn⟩ := List.nodup_cons.mp hn
    have hj := hids j List.mem_cons_self
    refine ih (hstep s j h hj) hn (fun k hk => ?_) ?_
    · exact hrest s j k (fun he => hnot (he ▸ hk)) (hids k (List.mem_cons_of_mem _ hk))
    · rcases hi with hi | hR
      · rcases List.mem_cons.mp hi with rfl | hi
        · exact .inr (hat s h)
        · exact .inl hi
      · exact .inr (hlasts s j h hj hR)

end Walk

/-! ## Connections -/

/-- A connection: the keys it watches, and whether one of them was touched since. -/
structure Conn (κ : Type) where
  watched : List κ := []
  dirty : Bool := false
  deriving DecidableEq, Repr

namespace Conn

/-- `WATCH`. -/
def watch (c : Conn κ) (ks : List κ) : Conn κ := { c with watched := c.watched ++ ks }

def touch (ts : List κ) (c : Conn κ) : Conn κ :=
  { c with dirty := c.dirty || c.watched.any fun k => k ∈ ts }

theorem touch_clean {ts : List κ} {c : Conn κ} :
    (c.touch ts).dirty = false ↔ c.dirty = false ∧ ∀ k ∈ c.watched, k ∉ ts := by
  simp [touch]

end Conn

end Redis
