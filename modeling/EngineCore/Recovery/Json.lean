import Mathlib.Algebra.BigOperators.Group.List.Basic
import Mathlib.Algebra.Order.Ring.Nat
import Mathlib.Data.List.Sort

/-!
# JSON values of the recovery journal

The journal stores admitted requests, attempted wires and terminal evidence as JSON text in one
canonical form: object keys sorted at every depth, no blanks. A text column is modelled by the
value it encodes; `render` gives the text where its bytes matter (the size limit and digests).

* `Json.sort`: the canonical order of keys, at every depth;
* **`Json.Reorder.sort_eq`**: values with distinct keys that differ only in key order have one
  canonical form.
-/

namespace EngineCore

/-- A JSON number: a natural literal, or the text of any other literal. -/
inductive Number
  | nat (n : ℕ)
  | text (s : String)
  deriving DecidableEq, Repr

inductive Json
  | null
  | bool (b : Bool)
  | num (n : Number)
  | str (s : String)
  | arr (items : List Json)
  | obj (fields : List (String × Json))
  deriving Repr

namespace Json

/-! ## Equality -/

mutual

def same : Json → Json → Bool
  | .null, .null => true
  | .bool a, .bool b => a = b
  | .num a, .num b => a = b
  | .str a, .str b => a = b
  | .arr a, .arr b => sameItems a b
  | .obj a, .obj b => sameFields a b
  | _, _ => false

def sameItems : List Json → List Json → Bool
  | [], [] => true
  | a :: as, b :: bs => same a b && sameItems as bs
  | _, _ => false

def sameFields : List (String × Json) → List (String × Json) → Bool
  | [], [] => true
  | (k, a) :: as, (k', b) :: bs => k = k' && (same a b && sameFields as bs)
  | _, _ => false

end

mutual

theorem same_iff : (a b : Json) → (same a b = true ↔ a = b)
  | a, b => by
    cases a <;> cases b <;> simp [same]
    · exact sameItems_iff _ _
    · exact sameFields_iff _ _

theorem sameItems_iff : (a b : List Json) → (sameItems a b = true ↔ a = b)
  | [], [] => by simp [sameItems]
  | [], _ :: _ => by simp [sameItems]
  | _ :: _, [] => by simp [sameItems]
  | a :: as, b :: bs => by simp [sameItems, same_iff a b, sameItems_iff as bs]

theorem sameFields_iff : (a b : List (String × Json)) → (sameFields a b = true ↔ a = b)
  | [], [] => by simp [sameFields]
  | [], _ :: _ => by simp [sameFields]
  | _ :: _, [] => by simp [sameFields]
  | (k, a) :: as, (k', b) :: bs => by
    simp [sameFields, same_iff a b, sameFields_iff as bs, and_assoc]

end

instance : DecidableEq Json := fun a b => decidable_of_iff _ (same_iff a b)

theorem induction {P : Json → Prop} (null : P .null) (bool : ∀ b, P (.bool b))
    (num : ∀ n, P (.num n)) (str : ∀ s, P (.str s))
    (arr : ∀ items : List Json, (∀ v ∈ items, P v) → P (.arr items))
    (obj : ∀ fields : List (String × Json), (∀ f ∈ fields, P f.2) → P (.obj fields)) :
    (v : Json) → P v
  | .null => null
  | .bool b => bool b
  | .num n => num n
  | .str s => str s
  | .arr items => arr items fun v _hv => Json.induction null bool num str arr obj v
  | .obj fields => obj fields fun f _hf => Json.induction null bool num str arr obj f.2
termination_by v => sizeOf v
decreasing_by
  · have := List.sizeOf_lt_of_mem _hv
    simp only [Json.arr.sizeOf_spec]
    omega
  · have := List.sizeOf_lt_of_mem _hf
    have : sizeOf f.2 < sizeOf f := by
      rw [Prod.mk.sizeOf_spec f.1 f.2]
      omega
    simp only [Json.obj.sizeOf_spec]
    omega

/-! ## Access -/

def get? : Json → String → Option Json
  | .obj fields, name => fields.lookup name
  | _, _ => none

def asStr : Json → Option String
  | .str s => some s
  | _ => none

/-- A number that fits in 64 unsigned bits. -/
def asU64 : Json → Option ℕ
  | .num (.nat n) => if n < 2 ^ 64 then some n else none
  | _ => none

def remove (name : String) : Json → Json
  | .obj fields => .obj (fields.filter fun f => f.1 ≠ name)
  | v => v

/-- Change the value of one field, where it is present. -/
def modify (name : String) (f : Json → Json) : Json → Json
  | .obj fields => .obj (fields.map fun e => if e.1 = name then (e.1, f e.2) else e)
  | v => v

/-! ## Canonical order and text -/

def sortKeys (fields : List (String × Json)) : List (String × Json) :=
  fields.insertionSort fun a b => a.1 ≤ b.1

mutual

def sort : Json → Json
  | .obj fields => .obj (sortKeys (sortFields fields))
  | .arr items => .arr (sortItems items)
  | v => v

def sortItems : List Json → List Json
  | [] => []
  | v :: vs => sort v :: sortItems vs

def sortFields : List (String × Json) → List (String × Json)
  | [] => []
  | (k, v) :: fs => (k, sort v) :: sortFields fs

end

def renderChar (c : Char) : String :=
  if c = '"' then "\\\""
  else if c = '\\' then "\\\\"
  else if c = '\n' then "\\n"
  else if c = '\r' then "\\r"
  else if c = '\t' then "\\t"
  else if c.toNat = 8 then "\\b"
  else if c.toNat = 12 then "\\f"
  else if c.toNat < 16 then "\\u000" ++ String.ofList (Nat.toDigits 16 c.toNat)
  else if c.toNat < 32 then "\\u00" ++ String.ofList (Nat.toDigits 16 c.toNat)
  else c.toString

def renderStr (s : String) : String :=
  "\"" ++ String.join (s.toList.map renderChar) ++ "\""

def renderNumber : Number → String
  | .nat n => toString n
  | .text s => s

mutual

def render : Json → String
  | .null => "null"
  | .bool b => if b then "true" else "false"
  | .num n => renderNumber n
  | .str s => renderStr s
  | .arr items => "[" ++ String.intercalate "," (renderItems items) ++ "]"
  | .obj fields => "\x7b" ++ String.intercalate "," (renderFields fields) ++ "\x7d"

def renderItems : List Json → List String
  | [] => []
  | v :: vs => render v :: renderItems vs

def renderFields : List (String × Json) → List String
  | [] => []
  | (k, v) :: fs => (renderStr k ++ ":" ++ render v) :: renderFields fs

end

/-! ## Key order does not matter -/

theorem sortItems_eq_map (vs : List Json) : sortItems vs = vs.map sort := by
  induction vs with
  | nil => rfl
  | cons v vs ih => simp [sortItems, ih]

theorem sortFields_eq_map (fs : List (String × Json)) :
    sortFields fs = fs.map fun f => (f.1, sort f.2) := by
  induction fs with
  | nil => rfl
  | cons f fs ih => simp [sortFields, ih]

def keys (fields : List (String × Json)) : List String := fields.map Prod.fst

/-- Each object has one value for each of its keys, as a map has. -/
inductive Distinct : Json → Prop
  | null : Distinct .null
  | bool (b : Bool) : Distinct (.bool b)
  | num (n : Number) : Distinct (.num n)
  | str (s : String) : Distinct (.str s)
  | arr {items : List Json} (h : ∀ v ∈ items, Distinct v) : Distinct (.arr items)
  | obj {fields : List (String × Json)} (hkeys : (keys fields).Nodup)
      (h : ∀ f ∈ fields, Distinct f.2) : Distinct (.obj fields)

/-- Equality up to the order of object keys, at every depth. -/
inductive Reorder : Json → Json → Prop
  | refl (v : Json) : Reorder v v
  | trans {u v w : Json} (h : Reorder u v) (h' : Reorder v w) : Reorder u w
  | perm {fs gs : List (String × Json)} (h : fs.Perm gs) : Reorder (.obj fs) (.obj gs)
  | item {v w : Json} (xs ys : List Json) (h : Reorder v w) :
      Reorder (.arr (xs ++ v :: ys)) (.arr (xs ++ w :: ys))
  | field {v w : Json} (xs ys : List (String × Json)) (k : String) (h : Reorder v w) :
      Reorder (.obj (xs ++ (k, v) :: ys)) (.obj (xs ++ (k, w) :: ys))

theorem Reorder.distinct {v w : Json} (h : Reorder v w) (hv : Distinct v) : Distinct w := by
  induction h with
  | refl => exact hv
  | trans _ _ ih ih' => exact ih' (ih hv)
  | perm h =>
    cases hv with
    | obj hkeys hf =>
      exact .obj ((h.map _).nodup_iff.mp hkeys) fun f hm => hf f (h.mem_iff.mpr hm)
  | item xs ys _ ih =>
    cases hv with
    | arr hi =>
      refine .arr fun u hu => ?_
      rcases List.mem_append.mp hu with hu | hu
      · exact hi u (by simp [hu])
      · rcases List.mem_cons.mp hu with rfl | hu
        · exact ih (hi _ (by simp))
        · exact hi u (by simp [hu])
  | field xs ys k _ ih =>
    cases hv with
    | obj hkeys hf =>
      refine .obj (by simpa [keys] using hkeys) fun f hm => ?_
      rcases List.mem_append.mp hm with hm | hm
      · exact hf f (by simp [hm])
      · rcases List.mem_cons.mp hm with rfl | hm
        · exact ih (hf (k, _) (by simp))
        · exact hf f (by simp [hm])

theorem Distinct.remove {v : Json} (h : Distinct v) (name : String) :
    Distinct (v.remove name) := by
  cases h with
  | obj hkeys hf =>
    refine .obj (hkeys.sublist (List.filter_sublist.map _)) fun f hm => ?_
    exact hf f (List.mem_of_mem_filter hm)
  | arr h => exact .arr h
  | _ => constructor

theorem Distinct.modify {v : Json} (h : Distinct v) (name : String) {g : Json → Json}
    (hg : ∀ u, Distinct u → Distinct (g u)) : Distinct (v.modify name g) := by
  cases h with
  | @obj fields hkeys hf =>
    refine .obj ?_ fun f hm => ?_
    · have hsame : keys (fields.map fun e => if e.1 = name then (e.1, g e.2) else e)
          = keys fields := by
        simp only [keys, List.map_map]
        refine List.map_congr_left fun e _ => ?_
        by_cases he : e.1 = name <;> simp [he]
      rw [hsame]
      exact hkeys
    · obtain ⟨e, he, rfl⟩ := List.mem_map.mp hm
      split_ifs
      · exact hg _ (hf e he)
      · exact hf e he
  | arr h => exact .arr h
  | _ => constructor

variable {fs : List (String × Json)}

theorem field_eq_of_key_eq (h : (keys fs).Nodup)
    {a b : String × Json} (ha : a ∈ fs) (hb : b ∈ fs) (hab : a.1 = b.1) : a = b :=
  List.inj_on_of_nodup_map h ha hb hab

theorem sortKeys_eq_of_perm {fs gs : List (String × Json)} (h : fs.Perm gs)
    (hkeys : (keys fs).Nodup) : sortKeys fs = sortKeys gs := by
  have hperm : (sortKeys fs).Perm (sortKeys gs) :=
    ((List.perm_insertionSort _ fs).trans h).trans (List.perm_insertionSort _ gs).symm
  refine hperm.eq_of_pairwise ?_ (List.pairwise_insertionSort _ _) (List.pairwise_insertionSort _ _)
  intro a b ha hb hab hba
  have ha' : a ∈ fs := (List.perm_insertionSort _ fs).mem_iff.mp ha
  have hb' : b ∈ fs := h.mem_iff.mpr ((List.perm_insertionSort _ gs).mem_iff.mp hb)
  exact field_eq_of_key_eq hkeys ha' hb' (String.le_antisymm hab hba)

theorem lookup_eq_some (h : (keys fs).Nodup) {k : String} {v : Json} :
    fs.lookup k = some v ↔ (k, v) ∈ fs := by
  induction fs with
  | nil => simp
  | cons f fs ih =>
    obtain ⟨name, u⟩ := f
    obtain ⟨hf, hfs⟩ := List.nodup_cons.mp h
    by_cases hk : k = name
    · subst hk
      have hnot : ∀ u, (k, u) ∉ fs := fun u hu => hf (List.mem_map.mpr ⟨_, hu, rfl⟩)
      simp [hnot, eq_comm]
    · have hne : (k == name) = false := by simpa using hk
      simp [List.lookup_cons, hne, ih hfs, hk]

theorem get?_sort (h : (keys fs).Nodup) (k : String) :
    (sort (.obj fs)).get? k = (get? (.obj fs) k).map sort := by
  have hperm := List.perm_insertionSort (fun a b : String × Json => a.1 ≤ b.1)
    (fs.map fun f => (f.1, sort f.2))
  have hkeys : (keys (fs.map fun f => (f.1, sort f.2))).Nodup := by
    simpa [keys, Function.comp_def] using h
  have hsorted := ((hperm.map Prod.fst).nodup_iff).mpr hkeys
  ext v
  simp only [sort, sortFields_eq_map, get?, Option.map_eq_some_iff, sortKeys]
  rw [lookup_eq_some hsorted, hperm.mem_iff]
  simp only [lookup_eq_some h, List.mem_map, Prod.ext_iff, Prod.exists]
  constructor
  · rintro ⟨k', u, hmem, rfl, rfl⟩
    exact ⟨u, hmem, rfl⟩
  · rintro ⟨u, hmem, rfl⟩
    exact ⟨k, u, hmem, rfl, rfl⟩

/-- **One canonical form**: values with distinct keys that differ only in key order sort to the
same value. -/
theorem Reorder.sort_eq {v w : Json} (h : Reorder v w) (hv : Distinct v) : sort v = sort w := by
  induction h with
  | refl => rfl
  | trans h _ ih ih' => exact (ih hv).trans (ih' (h.distinct hv))
  | perm h =>
    cases hv with
    | obj hkeys _ =>
      simp only [sort, sortFields_eq_map]
      congr 1
      refine sortKeys_eq_of_perm (h.map _) ?_
      simpa [keys, Function.comp_def] using hkeys
  | item xs ys _ ih =>
    cases hv with
    | arr hi => simp [sort, sortItems_eq_map, ih (hi _ (by simp))]
  | field xs ys k _ ih =>
    cases hv with
    | obj hkeys hf => simp [sort, sortFields_eq_map, ih (hf (k, _) (by simp))]

theorem Reorder.symm {v w : Json} (h : Reorder v w) : Reorder w v := by
  induction h with
  | refl v => exact .refl v
  | trans _ _ ih ih' => exact .trans ih' ih
  | perm h => exact .perm h.symm
  | item xs ys _ ih => exact .item xs ys ih
  | field xs ys k _ ih => exact .field xs ys k ih

theorem Reorder.items {f : Json → Json} {vs : List Json} (h : ∀ v ∈ vs, Reorder v (f v))
    (xs : List Json) : Reorder (.arr (xs ++ vs)) (.arr (xs ++ vs.map f)) := by
  induction vs generalizing xs with
  | nil => exact .refl _
  | cons v vs ih =>
    have hrest := ih (fun u hu => h u (List.mem_cons_of_mem _ hu)) (xs ++ [f v])
    refine .trans (.item xs vs (h v List.mem_cons_self)) ?_
    simpa using hrest

theorem Reorder.fields {f : Json → Json}
    (h : ∀ e ∈ fs, Reorder e.2 (f e.2)) (xs : List (String × Json)) :
    Reorder (.obj (xs ++ fs)) (.obj (xs ++ fs.map fun e => (e.1, f e.2))) := by
  induction fs generalizing xs with
  | nil => exact .refl _
  | cons e fs ih =>
    have hrest := ih (fun u hu => h u (List.mem_cons_of_mem _ hu)) (xs ++ [(e.1, f e.2)])
    refine .trans (.field xs fs e.1 (h e List.mem_cons_self)) ?_
    simpa using hrest

theorem reorder_sort (v : Json) : Reorder v (sort v) := by
  induction v using Json.induction with
  | null | bool | num | str => exact .refl _
  | arr items ih =>
    rw [sort, sortItems_eq_map]
    exact Reorder.items ih []
  | obj fs ih =>
    rw [sort, sortFields_eq_map]
    exact .trans (Reorder.fields (f := sort) ih []) (.perm (List.perm_insertionSort _ _).symm)

theorem sort_sort (v : Json) : v.sort.sort = v.sort := by
  induction v using Json.induction with
  | null | bool | num | str => simp only [sort]
  | arr items ih =>
    simp only [sort, sortItems_eq_map, List.map_map]
    exact congrArg arr (List.map_congr_left ih)
  | obj fs ih =>
    have hfix : ∀ e ∈ sortKeys (sortFields fs), (e.1, e.2.sort) = id e := by
      intro e he
      rw [sortFields_eq_map] at he
      obtain ⟨f, hf, rfl⟩ := List.mem_map.mp ((List.perm_insertionSort _ _).mem_iff.mp he)
      exact congrArg (Prod.mk f.1) (ih f hf)
    rw [sort, sort, sortFields_eq_map (sortKeys _), List.map_congr_left hfix, List.map_id]
    exact congrArg obj (List.pairwise_insertionSort _ _).insertionSort_eq

end Json

end EngineCore
