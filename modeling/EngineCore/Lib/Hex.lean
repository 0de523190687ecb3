import Mathlib.Algebra.Order.Ring.Nat

/-!
# Bytes as hexadecimal text

* `Hex.encode`, `Hex.decode`: two digits for each byte, lower case when written, either case when
  read; **`Hex.decode_encode`**, **`Hex.encode_decode`**;
* `Hex.text`, `Hex.parse`: the same after `0x`; **`Hex.parse_text`**;
* `Hex.quantity`, `Hex.bytesBE`: numbers without leading zeros, and as a fixed number of bytes;
  `Hex.number`, `Hex.ofBytesBE` read them back.
-/

namespace Hex

def encode (bytes : List UInt8) : String :=
  String.ofList (bytes.flatMap fun b => [Nat.digitChar (b.toNat / 16), Nat.digitChar (b.toNat % 16)])

def nibble (c : Char) : Option ℕ :=
  if '0' ≤ c ∧ c ≤ '9' then some (c.toNat - '0'.toNat)
  else if 'a' ≤ c ∧ c ≤ 'f' then some (c.toNat - 'a'.toNat + 10)
  else if 'A' ≤ c ∧ c ≤ 'F' then some (c.toNat - 'A'.toNat + 10)
  else none

/-- The bytes of an even number of digits. -/
def decode : List Char → Option (List UInt8)
  | [] => some []
  | [_] => none
  | a :: b :: rest => do
    let high ← nibble a
    let low ← nibble b
    let bytes ← decode rest
    return UInt8.ofNat (16 * high + low) :: bytes

/-- Bytes after `0x`. -/
def text (bytes : List UInt8) : String := "0x" ++ encode bytes

/-- What follows `0x`. -/
def strip (text : String) : Option (List Char) :=
  match text.toList with
  | '0' :: 'x' :: rest => some rest
  | _ => none

/-- The bytes after `0x`. -/
def parse (text : String) : Option (List UInt8) := (strip text).bind decode

def bytesBE (size n : ℕ) : List UInt8 :=
  (List.range size).map fun i => UInt8.ofNat (n / 256 ^ (size - 1 - i))

def quantity (n : ℕ) : String := "0x" ++ String.ofList (Nat.toDigits 16 n)

/-- The number after `0x`. -/
def number (text : String) : Option ℕ :=
  (strip text).bind fun cs => cs.foldlM (fun n c => (nibble c).map (16 * n + ·)) 0

def ofBytesBE (bytes : List UInt8) : ℕ := bytes.foldl (fun n b => 256 * n + b.toNat) 0

theorem nibble_digitChar : ∀ n < 16, nibble (Nat.digitChar n) = some n := by decide

theorem decode_encode (bytes : List UInt8) : decode (encode bytes).toList = some bytes := by
  induction bytes with
  | nil => rfl
  | cons b bytes ih =>
    have hb : b.toNat < 256 := b.toNat_lt
    have hbyte : UInt8.ofNat (16 * (b.toNat / 16) + b.toNat % 16) = b := by
      rw [Nat.div_add_mod]
      exact UInt8.ofNat_toNat
    simp only [encode, String.toList_ofList, List.flatMap_cons, List.cons_append,
      List.nil_append, decode] at ih ⊢
    rw [nibble_digitChar _ (by omega), nibble_digitChar _ (by omega), ih]
    exact congrArg some (congrArg (· :: bytes) hbyte)

theorem parse_text (bytes : List UInt8) : parse (text bytes) = some bytes := by
  have hlist : (text bytes).toList = '0' :: 'x' :: (encode bytes).toList := by simp [text]
  simp [parse, strip, hlist, decode_encode]

theorem strip_append (cs : List Char) : strip ("0x" ++ String.ofList cs) = some cs := by
  simp [strip]

theorem number_quantity (n : ℕ) : number (quantity n) = some n := by
  have hdigits : (Nat.toDigits 16 n).foldlM (fun n c => (nibble c).map (16 * n + ·)) 0
      = some n := by
    induction n using Nat.strongRecOn with
    | ind n ih =>
      by_cases hn : n < 16
      · rw [Nat.toDigits_of_lt_base hn]
        simp [nibble_digitChar n hn]
      · have hmod : n % 16 < 16 := Nat.mod_lt _ (by decide)
        rw [Nat.toDigits_of_base_le (by decide) (by omega), List.foldlM_append,
          ih (n / 16) (by omega)]
        simp [nibble_digitChar _ hmod, Nat.div_add_mod]
  unfold number quantity
  rw [strip_append]
  exact hdigits

theorem bytesBE_succ (size n : ℕ) :
    bytesBE (size + 1) n = bytesBE size (n / 256) ++ [UInt8.ofNat n] := by
  unfold bytesBE
  rw [List.range_succ, List.map_append]
  congr 1
  · refine List.map_congr_left fun i hi => ?_
    have hpow : 256 ^ (size + 1 - 1 - i) = 256 * 256 ^ (size - 1 - i) := by
      rw [← Nat.pow_succ']
      congr 1
      have := List.mem_range.mp hi
      omega
    rw [hpow, Nat.div_div_eq_div_mul]
  · simp

theorem ofBytesBE_bytesBE {size n : ℕ} (h : n < 256 ^ size) : ofBytesBE (bytesBE size n) = n := by
  induction size generalizing n with
  | zero =>
    obtain rfl : n = 0 := by omega
    rfl
  | succ size ih =>
    have hdiv : n / 256 < 256 ^ size := by
      rw [Nat.div_lt_iff_lt_mul (by decide), ← Nat.pow_succ]
      exact h
    have hfold := ih hdiv
    unfold ofBytesBE at hfold ⊢
    rw [bytesBE_succ, List.foldl_append, hfold]
    simp only [List.foldl_cons, List.foldl_nil, UInt8.toNat_ofNat']
    omega

/-! ## Lower-case digits -/

def lowerDigits : List Char := "0123456789abcdef".toList

theorem mem_lowerDigits {c : Char} : c ∈ lowerDigits ↔ ∃ n < 16, Nat.digitChar n = c := by
  rw [show lowerDigits = (List.range 16).map Nat.digitChar by decide]
  simp only [List.mem_map, List.mem_range]

theorem mem_lowerDigits_of_mem_encode {bytes : List UInt8} {c : Char}
    (h : c ∈ (encode bytes).toList) : c ∈ lowerDigits := by
  simp only [encode, String.toList_ofList, List.mem_flatMap, List.mem_cons, List.not_mem_nil,
    or_false] at h
  obtain ⟨b, _, rfl | rfl⟩ := h
  · exact mem_lowerDigits.mpr ⟨b.toNat / 16, by have := b.toNat_lt; omega, rfl⟩
  · exact mem_lowerDigits.mpr ⟨b.toNat % 16, by omega, rfl⟩

theorem length_encode (bytes : List UInt8) : (encode bytes).toList.length = 2 * bytes.length := by
  simp [encode, List.length_flatMap, List.map_const', Nat.mul_comm]

/-- **Lower-case text is what its bytes are written as.** -/
theorem encode_decode {cs : List Char} {bytes : List UInt8} (hlow : ∀ c ∈ cs, c ∈ lowerDigits)
    (h : decode cs = some bytes) : (encode bytes).toList = cs := by
  induction cs using decode.induct generalizing bytes with
  | case1 =>
    obtain rfl : [] = bytes := by simpa [decode] using h
    rfl
  | case2 c => simp [decode] at h
  | case3 a b rest ih =>
    obtain ⟨n, hn, rfl⟩ := mem_lowerDigits.mp (hlow a (by simp))
    obtain ⟨m, hm, rfl⟩ := mem_lowerDigits.mp (hlow b (by simp))
    simp only [decode, nibble_digitChar n hn, nibble_digitChar m hm, Option.bind_eq_bind,
      Option.bind_some, Option.bind_eq_some_iff, Option.pure_def, Option.some.injEq] at h
    obtain ⟨tail, htail, rfl⟩ := h
    have hrest := ih (fun c hc => hlow c (by simp [hc])) htail
    have hbyte : (UInt8.ofNat (16 * n + m)).toNat = 16 * n + m :=
      UInt8.toNat_ofNat_of_lt' (by simp only [UInt8.size]; omega)
    simp only [encode, String.toList_ofList, List.flatMap_cons, hbyte] at hrest ⊢
    rw [hrest, show (16 * n + m) / 16 = n by omega, show (16 * n + m) % 16 = m by omega]
    rfl

end Hex
