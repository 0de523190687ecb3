import Mathlib.Data.List.Infix
import EngineCore.Lib.Hex

/-!
# Replacing words in a text

* **`not_infix_replaceAll`**: where the new word is fenced by two symbols that a word does not have,
  and the word does not occur between them, it does not occur in the result.
-/

namespace Text

section Replace

variable {α : Type}

/-- A word that cannot overlap the fenced one. -/
structure Outside (l r : α) (mid w : List α) : Prop where
  left : l ∉ w
  right : r ∉ w
  mid : ¬w <:+: mid

variable {l r : α} {old mid w : List α}

theorem Outside.ne_nil (h : Outside l r mid w) : w ≠ [] := fun he => h.mid (he ▸ List.nil_infix)

theorem prefix_of_prefix_append_cons {a b : List α} (hr : r ∉ w) (h : w <+: a ++ r :: b) :
    w <+: a := by
  induction a generalizing w with
  | nil =>
    cases w with
    | nil => exact List.nil_prefix
    | cons x w =>
      rw [List.nil_append, List.cons_prefix_cons] at h
      exact absurd (by rw [h.1]; exact List.mem_cons_self) hr
  | cons y a ih =>
    cases w with
    | nil => exact List.nil_prefix
    | cons x w =>
      rw [List.cons_append, List.cons_prefix_cons] at h
      rw [List.cons_prefix_cons]
      exact ⟨h.1, ih (fun hm => hr (List.mem_cons_of_mem _ hm)) h.2⟩

theorem infix_append_cons {a b : List α} (hr : r ∉ w) (h : w <:+: a ++ r :: b) :
    w <:+: a ∨ w <:+: b := by
  induction a with
  | nil =>
    rw [List.nil_append, List.infix_cons_iff] at h
    cases h with
    | inl h => exact .inl (prefix_of_prefix_append_cons hr (a := []) h).isInfix
    | inr h => exact .inr h
  | cons x a ih =>
    rw [List.cons_append, List.infix_cons_iff] at h
    cases h with
    | inl h => exact .inl (prefix_of_prefix_append_cons hr (a := x :: a) h).isInfix
    | inr h => exact (ih h).imp_left List.infix_cons

theorem Outside.infix_fenced {rest : List α} (hw : Outside l r mid w)
    (h : w <:+: l :: (mid ++ [r]) ++ rest) : w <:+: rest := by
  rw [List.cons_append, List.append_assoc, List.singleton_append] at h
  cases infix_append_cons hw.left (a := []) h with
  | inl h => exact absurd (List.infix_nil.mp h) hw.ne_nil
  | inr h => exact (infix_append_cons hw.right h).resolve_left hw.mid

variable [DecidableEq α]

/-- Copy a text without its first `skip` symbols, which belong to an occurrence already replaced. -/
def replaceFrom (old new : List α) : ℕ → List α → List α
  | _, [] => []
  | skip + 1, _ :: text => replaceFrom old new skip text
  | 0, c :: text =>
    if old <+: c :: text then new ++ replaceFrom old new (old.length - 1) text
    else c :: replaceFrom old new 0 text

/-- Replace the occurrences of a word that is not empty. -/
def replace (old new text : List α) : List α := replaceFrom old new 0 text

/-- Replace the words one after the other. -/
def replaceAll (new : List α) (words : List (List α)) (text : List α) : List α :=
  words.foldl (fun text word => replace word new text) text

variable (old mid) in
theorem prefix_of_prefix_replaceFrom (hl : l ∉ w) (skip : ℕ) (text : List α)
    (h : w <+: replaceFrom old (l :: mid) skip text) : w <+: text.drop skip := by
  induction text generalizing w skip with
  | nil => simpa [replaceFrom] using h
  | cons c text ih =>
    cases skip with
    | succ skip => exact ih hl skip h
    | zero =>
      cases w with
      | nil => exact List.nil_prefix
      | cons x w =>
        rw [replaceFrom] at h
        split_ifs at h with hold
        · rw [List.cons_append, List.cons_prefix_cons] at h
          exact absurd (by rw [h.1]; exact List.mem_cons_self) hl
        · rw [List.cons_prefix_cons] at h
          rw [List.drop_zero, List.cons_prefix_cons]
          exact ⟨h.1, ih (fun hm => hl (List.mem_cons_of_mem _ hm)) 0 h.2⟩

theorem prefix_of_prefix_copied {c : α} {text : List α} (hl : l ∉ w) (hold : ¬old <+: c :: text)
    (h : w <+: c :: replaceFrom old (l :: mid) 0 text) : w <+: c :: text := by
  refine prefix_of_prefix_replaceFrom old mid hl 0 (c :: text) ?_
  rw [replaceFrom, if_neg hold]
  exact h

/-- **Replacing makes no word appear.** -/
theorem Outside.infix_of_infix_replaceFrom (hw : Outside l r mid w) (skip : ℕ) (text : List α)
    (h : w <:+: replaceFrom old (l :: (mid ++ [r])) skip text) : w <:+: text := by
  induction text generalizing skip with
  | nil => simpa [replaceFrom] using h
  | cons c text ih =>
    cases skip with
    | succ skip => exact List.infix_cons (ih skip h)
    | zero =>
      rw [replaceFrom] at h
      split_ifs at h with hold
      · exact List.infix_cons (ih _ (hw.infix_fenced h))
      · rw [List.infix_cons_iff] at h
        cases h with
        | inl h =>
          exact (prefix_of_prefix_copied hw.left hold h).isInfix
        | inr h => exact List.infix_cons (ih 0 h)

/-- **The replaced word is gone.** -/
theorem Outside.not_infix_replaceFrom (hw : Outside l r mid old) (skip : ℕ) (text : List α) :
    ¬old <:+: replaceFrom old (l :: (mid ++ [r])) skip text := by
  induction text generalizing skip with
  | nil =>
    intro h
    rw [replaceFrom] at h
    exact hw.ne_nil (List.infix_nil.mp h)
  | cons c text ih =>
    cases skip with
    | succ skip => exact ih skip
    | zero =>
      intro h
      rw [replaceFrom] at h
      split_ifs at h with hold
      · exact ih _ (hw.infix_fenced h)
      · rw [List.infix_cons_iff] at h
        cases h with
        | inl h =>
          exact hold (prefix_of_prefix_copied hw.left hold h)
        | inr h => exact ih 0 h

/-- **None of the replaced words is left**, in whatever order they were replaced: each is gone after
its turn, and the later turns do not bring it back. -/
theorem Outside.not_infix_replaceAll (hw : Outside l r mid w) (words : List (List α))
    (text : List α) (h : w ∈ words ∨ ¬w <:+: text) :
    ¬w <:+: replaceAll (l :: (mid ++ [r])) words text := by
  induction words generalizing text with
  | nil => exact h.resolve_left List.not_mem_nil
  | cons word words ih =>
    refine ih _ ?_
    cases h with
    | inr h => exact .inr fun hi => h (hw.infix_of_infix_replaceFrom 0 text hi)
    | inl h =>
      rw [List.mem_cons] at h
      cases h with
      | inl h =>
        subst h
        exact .inr (hw.not_infix_replaceFrom 0 text)
      | inr h => exact .inl h

end Replace

/-! ## Pieces of a text -/

/-- The text before and after the first symbol that meets a condition. -/
def splitOnce {α : Type} (p : α → Bool) : List α → Option (List α × List α)
  | [] => none
  | c :: text => if p c then some ([], text) else (splitOnce p text).map fun x => (c :: x.1, x.2)

theorem mem_intersperse {α : Type} {sep x : α} {xs : List α} (h : x ∈ xs) :
    x ∈ xs.intersperse sep := by
  induction xs with
  | nil => exact h
  | cons y xs ih =>
    cases xs with
    | nil => exact h
    | cons z xs =>
      rw [List.intersperse_cons_cons]
      cases List.mem_cons.mp h with
      | inl h => exact List.mem_cons.mpr (.inl h)
      | inr h => exact List.mem_cons_of_mem _ (List.mem_cons_of_mem _ (ih h))

theorem mem_of_mem_splitOn {α : Type} [BEq α] [LawfulBEq α] {sep c : α} {piece text : List α}
    (hpiece : piece ∈ text.splitOn sep) (hc : c ∈ piece) : c ∈ text := by
  have hjoin : c ∈ [sep].intercalate (text.splitOn sep) :=
    List.mem_flatten.mpr ⟨piece, mem_intersperse hpiece, hc⟩
  rwa [List.intercalate_splitOn] at hjoin

/-! ## Escaped bytes -/

def escaped (a b c : UInt8) : Option UInt8 :=
  if a = 37 then do
    let high ← Hex.nibble (Char.ofNat b.toNat)
    let low ← Hex.nibble (Char.ofNat c.toNat)
    return UInt8.ofNat (16 * high + low)
  else none

/-- Undo percent escapes; what is no escape stays. -/
def percentDecode : List UInt8 → List UInt8
  | a :: b :: c :: bytes =>
    (escaped a b c).elim (a :: percentDecode (b :: c :: bytes)) fun byte => byte :: percentDecode bytes
  | bytes => bytes

theorem percentDecode_of_notMem {bytes : List UInt8} (h : 37 ∉ bytes) :
    percentDecode bytes = bytes := by
  fun_induction percentDecode bytes with
  | case1 a b c bytes ih =>
    have ha : a ≠ 37 := fun he => h (by rw [he]; exact List.mem_cons_self)
    rw [escaped, if_neg ha, Option.elim_none, ih fun hm => h (List.mem_cons_of_mem _ hm)]
  | case2 => rfl

/-! ## UTF-8 -/

/-- The start of a character: how many bytes are to come after the next one, the bits so far, and the
bounds of the next byte. -/
structure Unfinished where
  more : ℕ
  bits : ℕ
  low : UInt8
  high : UInt8

/-- What stands for bytes that are no character. -/
def replacement : Char := Char.ofNat 0xFFFD

def lead (b : UInt8) : List Char × Option Unfinished :=
  if b ≤ 0x7F then ([Char.ofNat b.toNat], none)
  else if 0xC2 ≤ b ∧ b ≤ 0xDF then ([], some ⟨0, b.toNat - 0xC0, 0x80, 0xBF⟩)
  else if b = 0xE0 then ([], some ⟨1, 0, 0xA0, 0xBF⟩)
  else if b = 0xED then ([], some ⟨1, 0xD, 0x80, 0x9F⟩)
  else if 0xE1 ≤ b ∧ b ≤ 0xEF then ([], some ⟨1, b.toNat - 0xE0, 0x80, 0xBF⟩)
  else if b = 0xF0 then ([], some ⟨2, 0, 0x90, 0xBF⟩)
  else if b = 0xF4 then ([], some ⟨2, 4, 0x80, 0x8F⟩)
  else if 0xF1 ≤ b ∧ b ≤ 0xF3 then ([], some ⟨2, b.toNat - 0xF0, 0x80, 0xBF⟩)
  else ([replacement], none)

/-- The next byte: the characters it completes, and the one it leaves unfinished. -/
def advance : Option Unfinished → UInt8 → List Char × Option Unfinished
  | none, b => lead b
  | some u, b =>
    if u.low ≤ b ∧ b ≤ u.high then
      if u.more = 0 then ([Char.ofNat (64 * u.bits + b.toNat % 64)], none)
      else ([], some ⟨u.more - 1, 64 * u.bits + b.toNat % 64, 0x80, 0xBF⟩)
    else (replacement :: (lead b).1, (lead b).2)

def lossyFrom : Option Unfinished → List UInt8 → List Char
  | u, [] => if u.isSome then [replacement] else []
  | u, b :: bytes => (advance u b).1 ++ lossyFrom (advance u b).2 bytes

/-- The text of some bytes, each longest part that starts no character replaced. -/
def lossy (bytes : List UInt8) : List Char := lossyFrom none bytes

def utf8 (text : List Char) : List UInt8 := text.flatMap String.utf8EncodeChar

theorem utf8EncodeChar_of_ascii {c : Char} (h : c.toNat < 128) :
    String.utf8EncodeChar c = [UInt8.ofNat c.toNat] := by
  rw [String.utf8EncodeChar]
  exact if_pos (Nat.le_of_lt_succ h)

theorem lossy_utf8_of_ascii {text : List Char} (h : ∀ c ∈ text, c.toNat < 128) :
    lossy (utf8 text) = text := by
  induction text with
  | nil => rfl
  | cons c text ih =>
    have hc : c.toNat < 128 := h c List.mem_cons_self
    have hbyte : (UInt8.ofNat c.toNat).toNat = c.toNat := by
      rw [UInt8.toNat_ofNat', Nat.mod_eq_of_lt (by omega)]
    have hlead : lead (UInt8.ofNat c.toNat) = ([c], none) := by
      rw [lead, if_pos (by rw [UInt8.le_iff_toNat_le, hbyte]; exact Nat.le_of_lt_succ hc), hbyte,
        Char.ofNat_toNat]
    rw [utf8, List.flatMap_cons, utf8EncodeChar_of_ascii hc, List.singleton_append, lossy,
      lossyFrom, advance, hlead]
    exact congrArg (c :: ·) (ih fun d hd => h d (List.mem_cons_of_mem _ hd))

end Text
