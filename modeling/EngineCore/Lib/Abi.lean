import EngineCore.Lib.Hex

/-!
# Static values in the contract ABI

A static value is a sequence of words of 32 bytes.

* `Hex.bytesBE_length`, `Hex.bytesBE_inj`: numbers in a fixed number of bytes;
* `Abi.encode`: the words one after the other;
* **`Abi.encode_injective`**: the bytes determine the words, and how many there are.
-/

namespace Hex

@[simp] theorem bytesBE_length (size n : ℕ) : (bytesBE size n).length = size := by
  simp [bytesBE]

theorem bytesBE_inj {size m n : ℕ} (hm : m < 256 ^ size) (hn : n < 256 ^ size)
    (h : bytesBE size m = bytesBE size n) : m = n := by
  rw [← ofBytesBE_bytesBE hm, h, ofBytesBE_bytesBE hn]

theorem bytesBE_toNat_inj {size : ℕ} {x y : BitVec (8 * size)}
    (h : bytesBE size x.toNat = bytesBE size y.toNat) : x = y := by
  have hpow : 2 ^ (8 * size) = 256 ^ size := Nat.pow_mul 2 8 size
  exact BitVec.eq_of_toNat_eq (bytesBE_inj (hpow ▸ x.isLt) (hpow ▸ y.isLt) h)

end Hex

namespace Abi

def word (x : BitVec 256) : List UInt8 := Hex.bytesBE 32 x.toNat

def encode (words : List (BitVec 256)) : List UInt8 := words.flatMap word

theorem word_length (x : BitVec 256) : (word x).length = 32 := Hex.bytesBE_length 32 _

theorem encode_length (words : List (BitVec 256)) : (encode words).length = 32 * words.length := by
  induction words with
  | nil => rfl
  | cons x words ih =>
    rw [encode, List.flatMap_cons, List.length_append, word_length, ← encode, ih, List.length_cons]
    omega

theorem encode_injective : Function.Injective encode := by
  intro xs
  induction xs with
  | nil =>
    intro ys h
    have hlen := congrArg List.length h
    rw [encode_length, encode_length] at hlen
    exact (List.length_eq_zero_iff.mp (by simpa using hlen.symm)).symm
  | cons x xs ih =>
    intro ys h
    cases ys with
    | nil =>
      have hlen := congrArg List.length h
      rw [encode_length, encode_length] at hlen
      simp at hlen
    | cons y ys =>
      obtain ⟨hword, hrest⟩ := List.append_inj h ((word_length x).trans (word_length y).symm)
      rw [@Hex.bytesBE_toNat_inj 32 x y hword, ih hrest]

end Abi
