import EngineCore.Lib.Redis
import Mathlib.Data.List.Rotate

/-!
# Ranks of a sorted set

A sorted set whose members are read by rank, and windows of a list that wrap around its end.

* `ZSet.below`: the entries under a bound; **`ZSet.below_eq_take`**: they come first;
* **`exists_mem_window`**: windows that follow one another reach every element after one turn.
-/

namespace Redis

section Sets

variable {κ : Type} [LE κ]

/-- A sorted set: distinct members in the order of their scores, less than 2³² of them. -/
structure ZSet (κ : Type) [LE κ] where
  entries : List (κ × ℕ)
  distinct : (keys entries).Nodup
  ordered : entries.Pairwise Before
  bounded : entries.length < 2 ^ 32

namespace ZSet

variable (z : ZSet κ)

/-- The entries with a score under the bound. -/
def below (bound : ℕ) : List (κ × ℕ) := z.entries.filter fun e => e.2 < bound

/-- `ZCOUNT` from minus infinity to an exclusive bound. -/
def count (bound : ℕ) : ℕ := (z.below bound).length

/-- `ZRANGE`: the entries from one rank to another. -/
def range (start stop : ℕ) : List (κ × ℕ) := (z.entries.drop start).take (stop + 1 - start)

theorem below_eq_take (bound : ℕ) : z.below bound = z.entries.take (z.count bound) := by
  unfold count below
  generalize hl : z.entries = l
  have h : l.Pairwise Before := hl ▸ z.ordered
  clear hl
  induction l with
  | nil => rfl
  | cons e l ih =>
    obtain ⟨hhead, htail⟩ := List.pairwise_cons.mp h
    by_cases he : e.2 < bound
    · rw [List.filter_cons_of_pos (by simpa using he), List.length_cons, List.take_succ_cons,
        ← ih htail]
    · have hnone : l.filter (fun e => e.2 < bound) = [] := by
        rw [List.filter_eq_nil_iff]
        intro x hx
        have hle : e.2 ≤ x.2 := by
          rcases hhead x hx with hlt | ⟨heq, -⟩
          · exact Nat.le_of_lt hlt
          · exact Nat.le_of_eq heq
        simp only [decide_eq_true_eq]
        omega
      rw [List.filter_cons_of_neg (by simpa using he), hnone]
      rfl

theorem nodup_below (bound : ℕ) : (z.below bound).Nodup :=
  (List.Nodup.of_map Prod.fst z.distinct).filter _

theorem count_lt (bound : ℕ) : z.count bound < 2 ^ 32 :=
  Nat.lt_of_le_of_lt (List.length_filter_le _ _) z.bounded

theorem range_eq (bound first size : ℕ) (h : first + size ≤ z.count bound) (hsize : 0 < size) :
    z.range first (first + size - 1) = ((z.below bound).drop first).take size := by
  have hstop : first + size - 1 + 1 - first = size := by omega
  have hmin : min size (z.count bound - first) = size := by omega
  rw [range, hstop, below_eq_take, List.drop_take, List.take_take, hmin]

end ZSet

end Sets

/-! ## Windows -/

section Windows

variable {α : Type} {l : List α} {first size : ℕ}

/-- So many elements from a rank on, around the end of the list. -/
def window (l : List α) (first size : ℕ) : List α := (l.rotate first).take size

theorem window_mod (l : List α) (first size : ℕ) :
    window l (first % l.length) size = window l first size := by
  unfold window
  rw [List.rotate_mod]

theorem window_congr {start : ℕ} (h : first % l.length = start % l.length) :
    window l first size = window l start size := by
  rw [← window_mod, h, window_mod]

theorem window_min (l : List α) (first size : ℕ) :
    window l first (min size l.length) = window l first size := by
  unfold window
  rw [← List.length_rotate (l := l) (n := first), ← List.take_eq_take_min]

theorem window_eq_append (hfirst : first < l.length) (hsize : size ≤ l.length) :
    window l first size = (l.drop first).take (min size (l.length - first)) ++
      l.take (size - min size (l.length - first)) := by
  unfold window
  rw [List.rotate_eq_drop_append_take (Nat.le_of_lt hfirst), List.take_append, List.length_drop,
    List.take_eq_take_min (l := l.drop first), List.length_drop, List.take_take]
  congr 2
  omega

theorem length_window (l : List α) (first size : ℕ) :
    (window l first size).length = min size l.length := by
  unfold window
  rw [List.length_take, List.length_rotate]

theorem window_subset : window l first size ⊆ l := by
  intro x hx
  exact List.mem_rotate.mp (List.mem_of_mem_take hx)

theorem nodup_window (h : l.Nodup) : (window l first size).Nodup :=
  (List.nodup_rotate.mpr h).sublist (List.take_sublist size _)

theorem exists_add_mod (first : ℕ) {rank length : ℕ} (hrank : rank < length) :
    ∃ far < length, (first + far) % length = rank := by
  have hfirst : first % length < length := Nat.mod_lt _ (Nat.zero_lt_of_lt hrank)
  by_cases h : first % length ≤ rank
  · refine ⟨rank - first % length, by omega, ?_⟩
    rw [Nat.add_mod, Nat.mod_eq_of_lt (a := rank - first % length) (by omega),
      show first % length + (rank - first % length) = rank by omega, Nat.mod_eq_of_lt hrank]
  · refine ⟨rank + length - first % length, by omega, ?_⟩
    rw [Nat.add_mod, Nat.mod_eq_of_lt (a := rank + length - first % length) (by omega),
      show first % length + (rank + length - first % length) = rank + length by omega,
      Nat.add_mod_right, Nat.mod_eq_of_lt hrank]

/-- **One turn reaches everything.** Of windows that follow one another, as many as the list fills
hold every element. -/
theorem exists_mem_window {x : α} (hx : x ∈ l) (first : ℕ) {turns : ℕ} (hsize : 0 < size)
    (hturns : l.length ≤ turns * size) :
    ∃ i < turns, x ∈ window l (first + i * size) size := by
  obtain ⟨rank, hrank, rfl⟩ := List.getElem_of_mem hx
  obtain ⟨far, hfar, hback⟩ := exists_add_mod first hrank
  have hsplit : far / size * size + far % size = far := Nat.div_add_mod' far size
  refine ⟨far / size, ?_, ?_⟩
  · rw [Nat.div_lt_iff_lt_mul hsize]
    exact Nat.lt_of_lt_of_le hfar hturns
  · have hlt : far % size < (l.rotate (first + far / size * size)).length := by
      rw [List.length_rotate]
      exact Nat.lt_of_le_of_lt (Nat.mod_le _ _) hfar
    refine List.mem_take_iff_getElem.mpr
      ⟨far % size, Nat.lt_min.mpr ⟨Nat.mod_lt _ hsize, hlt⟩, ?_⟩
    have hrank' : (far % size + (first + far / size * size)) % l.length = rank := by
      rw [← hback]
      congr 1
      omega
    rw [List.getElem_rotate]
    simp only [hrank']

end Windows

end Redis
