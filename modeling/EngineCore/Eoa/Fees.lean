import EngineCore.Eoa.Wire

/-!
# Fees of a replacement

* `cappedIncrease`, `cappedDynamicFees`: the arithmetic, in 128 bits that saturate;
* `bumpTransactionFees`: the transaction with raised fees, where the caller's ceilings allow any;
* **`cappedIncrease_eq`**: the arithmetic is exact up to its bounds;
* **`bumpTransactionFees_ok`**: a replacement differs from its transaction in the fees, and only
  there;
* **`Fees.le_bump`**: a raise lowers neither fee, where the tip is within the fee;
* **`fee_increase`**: what a raise does to fees within the caller's ceilings.
-/

namespace EngineCore.Eoa.Wire

/-! ## Arithmetic -/

def u128Max : ℕ := 2 ^ 128 - 1

def saturatingAdd (a b : ℕ) : ℕ := min (a + b) u128Max

def saturatingMul (a b : ℕ) : ℕ := min (a * b) u128Max

def divisionParts (value : ℕ) : ℕ × ℕ := (value / 100, value % 100)

def cappedIncreaseParts (quotient remainder multiplier : ℕ) (cap : Option ℕ) : ℕ :=
  min (saturatingAdd (saturatingMul quotient multiplier) (remainder * multiplier / 100))
    (cap.getD u128Max)

def cappedIncrease (value multiplier : ℕ) (cap : Option ℕ) : ℕ :=
  cappedIncreaseParts (divisionParts value).1 (divisionParts value).2 multiplier cap

def cappedDynamicFees (fee priority multiplier : ℕ) (feeCap priorityCap : Option ℕ) : ℕ × ℕ :=
  let fee := cappedIncrease fee multiplier feeCap
  (fee, min (cappedIncrease priority multiplier priorityCap) fee)

theorem mul_div_hundred (value multiplier : ℕ) :
    value * multiplier / 100 = value / 100 * multiplier + value % 100 * multiplier / 100 := by
  have hsplit : value * multiplier
      = value % 100 * multiplier + 100 * (value / 100 * multiplier) := by
    conv_lhs => rw [← Nat.mod_add_div value 100]
    rw [Nat.add_mul, Nat.mul_assoc]
  rw [hsplit, Nat.add_mul_div_left _ _ (by decide)]
  exact Nat.add_comm _ _

/-- **The increase is exact** up to the ceiling and the width. -/
theorem cappedIncrease_eq (value multiplier : ℕ) (cap : Option ℕ) :
    cappedIncrease value multiplier cap
      = min (min (value * multiplier / 100) u128Max) (cap.getD u128Max) := by
  unfold cappedIncrease cappedIncreaseParts divisionParts saturatingAdd saturatingMul
  rw [mul_div_hundred value]
  dsimp only
  omega

theorem cappedIncrease_le {value multiplier c : ℕ} {cap : Option ℕ} (hc : c ∈ cap) :
    cappedIncrease value multiplier cap ≤ c := by
  obtain rfl := Option.mem_def.mp hc
  exact min_le_right _ _

/-! ## Transactions -/

def feeCaps : Option TransactionTypeData → Option ℕ × Option ℕ
  | some (.legacy gasPrice) => (gasPrice, none)
  | some (.eip1559 maxFeePerGas maxPriorityFeePerGas) => (maxFeePerGas, maxPriorityFeePerGas)
  | some (.eip7702 _ maxFeePerGas maxPriorityFeePerGas) => (maxFeePerGas, maxPriorityFeePerGas)
  | none => (none, none)

def Fees.bump (multiplier : ℕ) (caps : Option ℕ × Option ℕ) : Fees → Fees
  | .gasPrice price => .gasPrice (cappedIncrease price multiplier caps.1)
  | .dynamic fee priority =>
    let fees := cappedDynamicFees fee priority multiplier caps.1 caps.2
    .dynamic fees.1 fees.2

def bumpTransactionFees (tx : TypedTransaction) (multiplier : ℕ)
    (requested : Option TransactionTypeData) : Option TypedTransaction :=
  if multiplier ≤ 100 then none
  else
    let fees := tx.fees.bump multiplier (feeCaps requested)
    if tx.fees = fees then none else some { tx with fees := fees }

variable {requested : Option TransactionTypeData}

/-- **A replacement** has other fees and is otherwise its transaction. -/
theorem bumpTransactionFees_ok {tx tx' : TypedTransaction} {multiplier : ℕ}
    (h : bumpTransactionFees tx multiplier requested = some tx') :
    tx'.fees ≠ tx.fees ∧ tx' = { tx with fees := tx'.fees } := by
  unfold bumpTransactionFees at h
  dsimp only at h
  split_ifs at h with hlow hsame
  obtain rfl := Option.some.inj h
  exact ⟨fun heq => hsame heq.symm, rfl⟩

theorem bumpTransactionFees_fees {tx tx' : TypedTransaction} {multiplier : ℕ}
    (h : bumpTransactionFees tx multiplier requested = some tx') :
    tx'.fees = tx.fees.bump multiplier (feeCaps requested) := by
  unfold bumpTransactionFees at h
  dsimp only at h
  split_ifs at h
  rw [← Option.some.inj h]

theorem bumpTransactionFees_none {tx : TypedTransaction} {multiplier : ℕ}
    (hm : 100 < multiplier) :
    bumpTransactionFees tx multiplier requested = none ↔
      tx.fees.bump multiplier (feeCaps requested) = tx.fees := by
  rw [bumpTransactionFees, if_neg (Nat.not_le.mpr hm)]
  by_cases hsame : tx.fees = tx.fees.bump multiplier (feeCaps requested)
  · simp [← hsame]
  · simp [hsame, Ne.symm hsame]

/-! ## Bids -/

def Fees.maxFee : Fees → ℕ
  | .gasPrice price => price
  | .dynamic fee _ => fee

def Fees.priorityFee : Fees → ℕ
  | .gasPrice price => price
  | .dynamic _ priority => priority

/-- Neither fee is lower. -/
structure Fees.AtLeast (new old : Fees) : Prop where
  maxFee : old.maxFee ≤ new.maxFee
  priorityFee : old.priorityFee ≤ new.priorityFee

def Fees.Fit (fees : Fees) : Prop := fees.maxFee ≤ u128Max ∧ fees.priorityFee ≤ u128Max

/-- Fees within the ceilings of the caller. -/
def Fees.Under (fees : Fees) (caps : Option ℕ × Option ℕ) : Prop :=
  (∀ cap ∈ caps.1, fees.maxFee ≤ cap) ∧
    ∀ cap ∈ caps.2, ∀ fee priority, fees = .dynamic fee priority → priority ≤ cap

theorem le_cappedIncrease {value multiplier : ℕ} {cap : Option ℕ} (hm : 100 ≤ multiplier)
    (hfit : value ≤ u128Max) (hcap : ∀ c ∈ cap, value ≤ c) :
    value ≤ cappedIncrease value multiplier cap := by
  have hraise : value ≤ value * multiplier / 100 := by
    rw [Nat.le_div_iff_mul_le (by decide)]
    exact Nat.mul_le_mul_left value hm
  have hlimit : value ≤ cap.getD u128Max := by
    cases cap with
    | none => exact hfit
    | some c => exact hcap c rfl
  rw [cappedIncrease_eq]
  exact le_min (le_min hraise hfit) hlimit

/-- **A raise lowers neither fee**, where the tip is within the fee. -/
theorem Fees.le_bump {fees : Fees} {multiplier : ℕ} {caps : Option ℕ × Option ℕ}
    (hm : 100 ≤ multiplier) (hfit : fees.Fit) (hcaps : fees.Under caps)
    (htip : fees.priorityFee ≤ fees.maxFee) : (fees.bump multiplier caps).AtLeast fees := by
  cases fees with
  | gasPrice price =>
    have hle := le_cappedIncrease hm hfit.1 hcaps.1
    exact ⟨hle, hle⟩
  | dynamic fee priority =>
    have hfee : fee ≤ cappedIncrease fee multiplier caps.1 := le_cappedIncrease hm hfit.1 hcaps.1
    have hpriority : priority ≤ cappedIncrease priority multiplier caps.2 :=
      le_cappedIncrease hm hfit.2 fun c hc => hcaps.2 c hc fee priority rfl
    exact ⟨hfee, le_min hpriority (htip.trans hfee)⟩

/-- **A raise stays within the ceilings**, and keeps the tip within the fee. -/
theorem Fees.bump_under (fees : Fees) (multiplier : ℕ) (caps : Option ℕ × Option ℕ) :
    (fees.bump multiplier caps).Under caps ∧
      (fees.bump multiplier caps).priorityFee ≤ (fees.bump multiplier caps).maxFee := by
  cases fees with
  | gasPrice price =>
    refine ⟨⟨fun cap hcap => cappedIncrease_le hcap, fun cap _ fee priority h => ?_⟩, le_rfl⟩
    cases h
  | dynamic fee priority =>
    refine ⟨⟨fun cap hcap => cappedIncrease_le hcap, fun cap hcap fee' priority' h => ?_⟩,
      min_le_right _ _⟩
    obtain ⟨-, rfl⟩ := Fees.dynamic.inj h
    exact (min_le_left _ _).trans (cappedIncrease_le hcap)

/-- **Fee increases.** The increase is the exact one up to the ceiling and the width, and nothing in
it overflows; a replacement stays within the caller's ceilings, lowers neither fee, keeps the tip
within the fee and is otherwise its transaction; and there is none exactly if both fees stay. -/
theorem fee_increase :
    (∀ value multiplier cap, multiplier < 2 ^ 32 →
      (divisionParts value).2 * multiplier ≤ u128Max ∧
        cappedIncrease value multiplier cap
          = min (cap.getD u128Max) (min u128Max (value * multiplier / 100))) ∧
    ∀ (tx : TypedTransaction) (multiplier : ℕ) (requested : Option TransactionTypeData),
      tx.fees.Fit → 100 < multiplier → tx.fees.Under (feeCaps requested) →
      tx.fees.priorityFee ≤ tx.fees.maxFee →
      (∀ tx', bumpTransactionFees tx multiplier requested = some tx' →
        tx'.fees.Under (feeCaps requested) ∧ tx'.fees.AtLeast tx.fees ∧
          tx'.fees.priorityFee ≤ tx'.fees.maxFee ∧ tx' = { tx with fees := tx'.fees } ∧
          tx'.fees = tx.fees.bump multiplier (feeCaps requested)) ∧
      (bumpTransactionFees tx multiplier requested = none ↔
        tx.fees.bump multiplier (feeCaps requested) = tx.fees) := by
  refine ⟨fun value multiplier cap hm => ⟨?_, ?_⟩, ?_⟩
  · have hrem : value % 100 ≤ 99 := Nat.le_of_lt_succ (Nat.mod_lt value (by decide))
    calc value % 100 * multiplier ≤ 99 * 2 ^ 32 := Nat.mul_le_mul hrem hm.le
      _ ≤ u128Max := by decide
  · rw [cappedIncrease_eq, min_comm, min_comm u128Max]
  · intro tx multiplier requested hfit hm hcaps htip
    refine ⟨fun tx' h => ?_, bumpTransactionFees_none hm⟩
    have hfees := bumpTransactionFees_fees h
    obtain ⟨hunder, hwithin⟩ := tx.fees.bump_under multiplier (feeCaps requested)
    rw [← hfees] at hunder hwithin
    refine ⟨hunder, ?_, hwithin, (bumpTransactionFees_ok h).2, hfees⟩
    rw [hfees]
    exact Fees.le_bump hm.le hfit hcaps htip

/-- A transaction whose tip is at its ceiling. -/
def capped : TypedTransaction where
  txType := .eip1559
  chainId := some 1
  nonce := 0
  recipient := none
  value := 0
  input := []
  gasLimit := 21000
  fees := .dynamic 100 90
  accessList := []
  authorizationList := none
  blobs := []

theorem fee_increase_capped : ∃ tx',
    bumpTransactionFees capped 120 (some (.eip1559 (some 130) (some 90))) = some tx' ∧
      tx'.fees = .dynamic 120 90 ∧ tx'.fees.AtLeast capped.fees := by
  have hunder : capped.fees.Under (some 130, some 90) := by
    refine ⟨by simp [capped, Fees.maxFee], ?_⟩
    rintro cap ⟨⟩ fee priority h
    obtain ⟨-, rfl⟩ := Fees.dynamic.inj h
    exact le_rfl
  have hfit : capped.fees.Fit := ⟨by decide +kernel, by decide +kernel⟩
  have h := fee_increase.2 capped 120 (some (.eip1559 (some 130) (some 90))) hfit (by decide) hunder
    (by decide)
  exact ⟨_, rfl, by decide, (h.1 _ rfl).2.1⟩

end EngineCore.Eoa.Wire
