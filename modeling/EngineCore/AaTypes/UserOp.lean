import EngineCore.Finality.Policy
import EngineCore.Lib.Abi
import EngineCore.Lib.Result

/-!
# The hash of a user operation

Two versions of a user operation are hashed: their byte fields, the words of the operation, and these
with the entry point and the chain.

* `computeUserOpV06Hash`, `computeUserOpV07Hash`: the hashes of the two versions;
* **`computeUserOpV07Hash_error`**: the hash of the second version fails exactly if a packed field is
  too large;
* **`user_op_hash_binds`**: where the digest has no collision among the strings that are hashed, equal
  hashes are hashes of the same signed fields.
-/

namespace EngineCore.AaTypes

open Except (bind_ok pure_ok)

abbrev U256 := BitVec 256

abbrev Bytes := List UInt8

abbrev ChainId := BitVec 64

inductive UserOpError
  | unexpectedError (message : String)
  deriving DecidableEq, Repr

/-! ## Operations -/

structure UserOperation where
  sender : Address
  nonce : U256
  initCode : Bytes
  callData : Bytes
  callGasLimit : U256
  verificationGasLimit : U256
  preVerificationGas : U256
  maxFeePerGas : U256
  maxPriorityFeePerGas : U256
  paymasterAndData : Bytes
  signature : Bytes
  deriving DecidableEq, Repr

structure PackedUserOperation where
  sender : Address
  nonce : U256
  factory : Option Address
  factoryData : Option Bytes
  callData : Bytes
  callGasLimit : U256
  verificationGasLimit : U256
  preVerificationGas : U256
  maxFeePerGas : U256
  maxPriorityFeePerGas : U256
  paymaster : Option Address
  paymasterVerificationGasLimit : Option U256
  paymasterPostOpGasLimit : Option U256
  paymasterData : Option Bytes
  signature : Bytes
  deriving DecidableEq, Repr

inductive VersionedUserOp
  | v06 (op : UserOperation)
  | v07 (op : PackedUserOperation)
  deriving DecidableEq, Repr

def entrypointAddressV06 : Address := 0x5FF137D4b0FDCD49DcA30c7CF57E578a026d2789

def entrypointAddressV07 : Address := 0x0000000071727De22E5E9d8BAf0edAc6f37da032

/-! ## Hashes -/

/-- `try_into` of a word into 128 bits. -/
def u128 (x : U256) (message : String) : Except UserOpError (BitVec 128) :=
  if x.toNat < 2 ^ 128 then .ok (x.setWidth 128) else .error (.unexpectedError message)

def packed (high low : U256) (highMessage lowMessage : String) : Except UserOpError B256 := do
  let high ← u128 high highMessage
  let low ← u128 low lowMessage
  return high ++ low

def addressBytes (a : Address) : Bytes := Hex.bytesBE 20 a.toNat

def u128Bytes (x : BitVec 128) : Bytes := Hex.bytesBE 16 x.toNat

namespace PackedUserOperation

def initCode (op : PackedUserOperation) : Bytes :=
  op.factory.elim [] fun factory =>
    if factory ≠ 0 then addressBytes factory ++ op.factoryData.getD [] else op.factoryData.getD []

def accountGasLimits (op : PackedUserOperation) : Except UserOpError B256 :=
  packed op.verificationGasLimit op.callGasLimit "verification_gas_limit too large"
    "call_gas_limit too large"

def gasFees (op : PackedUserOperation) : Except UserOpError B256 :=
  packed op.maxPriorityFeePerGas op.maxFeePerGas "max_priority_fee_per_gas too large"
    "max_fee_per_gas too large"

def paymasterAndData (op : PackedUserOperation) : Except UserOpError Bytes :=
  op.paymaster.elim (.ok []) fun paymaster =>
    if paymaster ≠ 0 then do
      let verification ← u128 (op.paymasterVerificationGasLimit.getD 0)
        "paymaster_verification_gas_limit too large"
      let postOp ← u128 (op.paymasterPostOpGasLimit.getD 0)
        "paymaster_post_op_gas_limit too large"
      return addressBytes paymaster ++ u128Bytes verification ++ u128Bytes postOp
        ++ op.paymasterData.getD []
    else .ok (op.paymasterData.getD [])

end PackedUserOperation

section Hash

variable (keccak256 : Bytes → B256)

/-- The words of an operation, after its byte fields were hashed. -/
def UserOperation.innerTuple (op : UserOperation) : List U256 :=
  [op.sender.setWidth 256, op.nonce, keccak256 op.initCode, keccak256 op.callData, op.callGasLimit,
    op.verificationGasLimit, op.preVerificationGas, op.maxFeePerGas, op.maxPriorityFeePerGas,
    keccak256 op.paymasterAndData]

def PackedUserOperation.innerTuple (op : PackedUserOperation) (accountGasLimits gasFees : B256)
    (paymasterAndData : Bytes) : List U256 :=
  [op.sender.setWidth 256, op.nonce, keccak256 op.initCode, keccak256 op.callData, accountGasLimits,
    op.preVerificationGas, gasFees, keccak256 paymasterAndData]

def outerTuple (inner : List U256) (entrypoint : Address) (chainId : ChainId) : List U256 :=
  [keccak256 (Abi.encode inner), entrypoint.setWidth 256, chainId.setWidth 256]

def computeUserOpV06Hash (op : UserOperation) (entrypoint : Address) (chainId : ChainId) :
    Except UserOpError B256 :=
  .ok (keccak256 (Abi.encode (outerTuple keccak256 (op.innerTuple keccak256) entrypoint chainId)))

def computeUserOpV07Hash (op : PackedUserOperation) (entrypoint : Address) (chainId : ChainId) :
    Except UserOpError B256 := do
  let accountGasLimits ← op.accountGasLimits
  let gasFees ← op.gasFees
  let paymasterAndData ← op.paymasterAndData
  let inner := op.innerTuple keccak256 accountGasLimits gasFees paymasterAndData
  return keccak256 (Abi.encode (outerTuple keccak256 inner entrypoint chainId))

namespace VersionedUserOp

def compute (entrypoint : Address) (chainId : ChainId) : VersionedUserOp → Except UserOpError B256
  | .v06 op => computeUserOpV06Hash keccak256 op entrypoint chainId
  | .v07 op => computeUserOpV07Hash keccak256 op entrypoint chainId

def hash (op : VersionedUserOp) (chainId : ChainId) : Except UserOpError B256 :=
  match op with
  | .v06 _ => op.compute keccak256 entrypointAddressV06 chainId
  | .v07 _ => op.compute keccak256 entrypointAddressV07 chainId

/-- What is hashed of an operation: its byte fields, and its words. -/
structure Preimage where
  fields : List Bytes
  inner : List U256

def preimage : VersionedUserOp → Except UserOpError Preimage
  | .v06 op => .ok ⟨[op.initCode, op.callData, op.paymasterAndData], op.innerTuple keccak256⟩
  | .v07 op => do
    let accountGasLimits ← op.accountGasLimits
    let gasFees ← op.gasFees
    let paymasterAndData ← op.paymasterAndData
    return ⟨[op.initCode, op.callData, paymasterAndData],
      op.innerTuple keccak256 accountGasLimits gasFees paymasterAndData⟩

/-- The byte strings whose digests make up a hash. -/
def Hashed (op : VersionedUserOp) (entrypoint : Address) (chainId : ChainId) : Set Bytes :=
  { x | ∃ p, op.preimage keccak256 = .ok p ∧ (x ∈ p.fields ∨ x = Abi.encode p.inner ∨
    x = Abi.encode (outerTuple keccak256 p.inner entrypoint chainId)) }

end VersionedUserOp

end Hash

/-! ## Packed fields -/

theorem u128_ok {x : U256} {message : String} {y : BitVec 128} :
    u128 x message = .ok y ↔ x = y.setWidth 256 := by
  have hback : (y.setWidth 256).toNat = y.toNat := by
    rw [BitVec.toNat_setWidth]
    exact Nat.mod_eq_of_lt (y.isLt.trans (by decide))
  unfold u128
  split_ifs with h
  · rw [Except.ok.injEq]
    constructor
    · intro hy
      refine BitVec.eq_of_toNat_eq ?_
      rw [hback, ← hy, BitVec.toNat_setWidth, Nat.mod_eq_of_lt h]
    · intro hx
      refine BitVec.eq_of_toNat_eq ?_
      rw [BitVec.toNat_setWidth, Nat.mod_eq_of_lt h, hx, hback]
  · refine ⟨fun he => (by cases he), fun hx => ?_⟩
    rw [hx, hback] at h
    exact absurd y.isLt h

theorem u128_fits (x : U256) (message : String) :
    (∃ y, u128 x message = .ok y) ↔ x.toNat < 2 ^ 128 := by
  unfold u128
  split_ifs with h
  · exact ⟨fun _ => h, fun _ => ⟨_, rfl⟩⟩
  · exact ⟨fun ⟨_, he⟩ => (by cases he), fun hlt => absurd hlt h⟩

theorem append_inj {x y x' y' : BitVec 128} (h : x ++ y = x' ++ y') : x = x' ∧ y = y' := by
  have hleft := congrArg (BitVec.extractLsb' 128 128) h
  have hright := congrArg (BitVec.extractLsb' 0 128) h
  rw [BitVec.extractLsb'_append_eq_left, BitVec.extractLsb'_append_eq_left] at hleft
  rw [BitVec.extractLsb'_append_eq_right, BitVec.extractLsb'_append_eq_right] at hright
  exact ⟨hleft, hright⟩

theorem packed_inj {x y x' y' : U256} {m n m' n' : String} {w : B256} (h : packed x y m n = .ok w)
    (h' : packed x' y' m' n' = .ok w) : x = x' ∧ y = y' := by
  simp only [packed, bind_ok, pure_ok, u128_ok] at h h'
  obtain ⟨a, ha, b, hb, rfl⟩ := h
  obtain ⟨a', ha', b', hb', hw⟩ := h'
  obtain ⟨rfl, rfl⟩ := append_inj hw
  exact ⟨ha.trans ha'.symm, hb.trans hb'.symm⟩

theorem packed_fits {x y : U256} {m n : String} :
    (∃ w, packed x y m n = .ok w) ↔ x.toNat < 2 ^ 128 ∧ y.toNat < 2 ^ 128 := by
  rw [← u128_fits x m, ← u128_fits y n]
  simp only [packed, bind_ok, pure_ok]
  constructor
  · rintro ⟨_, a, ha, b, hb, -⟩
    exact ⟨⟨a, ha⟩, b, hb⟩
  · rintro ⟨⟨a, ha⟩, b, hb⟩
    exact ⟨_, a, ha, b, hb, rfl⟩

theorem addressBytes_inj {a b : Address} (h : addressBytes a = addressBytes b) : a = b :=
  @Hex.bytesBE_toNat_inj 20 a b h

theorem u128Bytes_inj {x y : BitVec 128} (h : u128Bytes x = u128Bytes y) : x = y :=
  @Hex.bytesBE_toNat_inj 16 x y h

theorem setWidth_inj {w : ℕ} (hw : w ≤ 256) {x y : BitVec w}
    (h : x.setWidth 256 = y.setWidth 256) : x = y := by
  have hpow : 2 ^ w ≤ 2 ^ 256 := Nat.pow_le_pow_right (by decide) hw
  have hnat := congrArg BitVec.toNat h
  rw [BitVec.toNat_setWidth, BitVec.toNat_setWidth, Nat.mod_eq_of_lt (x.isLt.trans_le hpow),
    Nat.mod_eq_of_lt (y.isLt.trans_le hpow)] at hnat
  exact BitVec.eq_of_toNat_eq hnat

namespace PackedUserOperation

variable {op op' : PackedUserOperation}

/-- Its factory and its paymaster are absent or not zero. -/
structure Proper (op : PackedUserOperation) : Prop where
  factory : op.factory ≠ some 0
  paymaster : op.paymaster ≠ some 0

theorem initCode_inj (h : op.factory ≠ some 0) (h' : op'.factory ≠ some 0)
    (heq : op.initCode = op'.initCode) : op.factory = op'.factory ∧
      (op.factory ≠ none → op.factoryData.getD [] = op'.factoryData.getD []) := by
  unfold initCode at heq
  cases hf : op.factory with
  | none =>
    cases hf' : op'.factory with
    | none => simp
    | some factory' =>
      rw [hf'] at h'
      have hne : factory' ≠ 0 := fun hz => h' (congrArg some hz)
      simp only [hf, hf', Option.elim_none, Option.elim_some, if_pos hne] at heq
      have hlen := congrArg List.length heq
      simp [addressBytes] at hlen
      omega
  | some factory =>
    rw [hf] at h
    have hne : factory ≠ 0 := fun hz => h (congrArg some hz)
    cases hf' : op'.factory with
    | none =>
      simp only [hf, hf', Option.elim_none, Option.elim_some, if_pos hne] at heq
      have hlen := congrArg List.length heq
      simp [addressBytes] at hlen
    | some factory' =>
      rw [hf'] at h'
      have hne' : factory' ≠ 0 := fun hz => h' (congrArg some hz)
      simp only [hf, hf', Option.elim_some, if_pos hne, if_pos hne'] at heq
      obtain ⟨haddr, hdata⟩ := List.append_inj heq (by simp [addressBytes])
      exact ⟨congrArg some (addressBytes_inj haddr), fun _ => hdata⟩

theorem paymasterAndData_ok (hp : op.paymaster ≠ some 0) {b : Bytes} :
    op.paymasterAndData = .ok b ↔ (op.paymaster = none ∧ b = []) ∨
      ∃ paymaster, ∃ v c : BitVec 128, op.paymaster = some paymaster ∧
        op.paymasterVerificationGasLimit.getD 0 = v.setWidth 256 ∧
        op.paymasterPostOpGasLimit.getD 0 = c.setWidth 256 ∧
        b = addressBytes paymaster ++ u128Bytes v ++ u128Bytes c ++ op.paymasterData.getD [] := by
  unfold paymasterAndData
  cases hpm : op.paymaster with
  | none =>
    refine ⟨fun h => .inl ⟨rfl, (Except.ok.inj h).symm⟩, ?_⟩
    rintro (⟨-, rfl⟩ | ⟨_, _, _, h, -⟩)
    · rfl
    · cases h
  | some paymaster =>
    rw [hpm] at hp
    have hne : paymaster ≠ 0 := fun hz => hp (congrArg some hz)
    simp only [Option.elim_some, if_pos hne, bind_ok, pure_ok, u128_ok]
    constructor
    · rintro ⟨v, hv, c, hc, rfl⟩
      exact .inr ⟨paymaster, v, c, rfl, hv, hc, rfl⟩
    · rintro (⟨h, -⟩ | ⟨_, v, c, h, hv, hc, rfl⟩)
      · cases h
      · obtain rfl := Option.some.inj h
        exact ⟨v, hv, c, hc, rfl⟩

theorem paymasterAndData_inj (hp : op.paymaster ≠ some 0) (hp' : op'.paymaster ≠ some 0) {b : Bytes}
    (h : op.paymasterAndData = .ok b) (h' : op'.paymasterAndData = .ok b) :
    op.paymaster = op'.paymaster ∧ (op.paymaster ≠ none →
      op.paymasterVerificationGasLimit.getD 0 = op'.paymasterVerificationGasLimit.getD 0 ∧
      op.paymasterPostOpGasLimit.getD 0 = op'.paymasterPostOpGasLimit.getD 0 ∧
      op.paymasterData.getD [] = op'.paymasterData.getD []) := by
  rcases (paymasterAndData_ok hp).mp h with ⟨hnone, rfl⟩ | ⟨pm, v, c, hpm, hv, hc, rfl⟩
  · rcases (paymasterAndData_ok hp').mp h' with ⟨hnone', -⟩ | ⟨pm', v', c', -, -, -, hb⟩
    · exact ⟨hnone.trans hnone'.symm, fun hsome => absurd hnone hsome⟩
    · have hlen := congrArg List.length hb
      simp only [List.length_append, List.length_nil, addressBytes, Hex.bytesBE_length] at hlen
      omega
  · rcases (paymasterAndData_ok hp').mp h' with ⟨-, hb⟩ | ⟨pm', v', c', hpm', hv', hc', hb⟩
    · have hlen := congrArg List.length hb
      simp only [List.length_append, List.length_nil, addressBytes, Hex.bytesBE_length] at hlen
      omega
    · -- four parts, the first three of a fixed length
      obtain ⟨hb, hdata⟩ := List.append_inj hb (by simp [addressBytes, u128Bytes])
      obtain ⟨hb, hpost⟩ := List.append_inj hb (by simp [addressBytes, u128Bytes])
      obtain ⟨haddr, hver⟩ := List.append_inj hb (by simp [addressBytes])
      obtain rfl := addressBytes_inj haddr
      obtain rfl := u128Bytes_inj hver
      obtain rfl := u128Bytes_inj hpost
      exact ⟨hpm.trans hpm'.symm, fun _ => ⟨hv.trans hv'.symm, hc.trans hc'.symm, hdata⟩⟩

/-- A packed field is too large; the gas limits of the paymaster are packed where there is one. -/
def TooLarge (op : PackedUserOperation) : Prop :=
  2 ^ 128 ≤ op.verificationGasLimit.toNat ∨ 2 ^ 128 ≤ op.callGasLimit.toNat ∨
  2 ^ 128 ≤ op.maxPriorityFeePerGas.toNat ∨ 2 ^ 128 ≤ op.maxFeePerGas.toNat ∨
  (∃ paymaster, op.paymaster = some paymaster ∧ paymaster ≠ 0) ∧
    (2 ^ 128 ≤ (op.paymasterVerificationGasLimit.getD 0).toNat ∨
      2 ^ 128 ≤ (op.paymasterPostOpGasLimit.getD 0).toNat)

theorem paymasterAndData_fits : (∃ b, op.paymasterAndData = .ok b) ↔
    ((∃ paymaster, op.paymaster = some paymaster ∧ paymaster ≠ 0) →
      (op.paymasterVerificationGasLimit.getD 0).toNat < 2 ^ 128 ∧
        (op.paymasterPostOpGasLimit.getD 0).toNat < 2 ^ 128) := by
  rw [← u128_fits _ "paymaster_verification_gas_limit too large",
    ← u128_fits _ "paymaster_post_op_gas_limit too large"]
  unfold paymasterAndData
  cases hpm : op.paymaster with
  | none => simp
  | some paymaster =>
    rw [Option.elim_some]
    split_ifs with hne
    · simp only [bind_ok, pure_ok]
      constructor
      · rintro ⟨_, v, hv, c, hc, -⟩ -
        exact ⟨⟨v, hv⟩, c, hc⟩
      · intro h
        obtain ⟨⟨v, hv⟩, c, hc⟩ := h ⟨paymaster, rfl, hne⟩
        exact ⟨_, v, hv, c, hc, rfl⟩
    · refine ⟨fun _ h => ?_, fun _ => ⟨_, rfl⟩⟩
      obtain ⟨_, hsome, hnz⟩ := h
      exact absurd (Option.some.inj hsome ▸ hnz) hne

/-- The fields that are signed. What belongs to a factory or a paymaster counts where there is one. -/
structure SameSigned (op op' : PackedUserOperation) : Prop where
  sender : op.sender = op'.sender
  nonce : op.nonce = op'.nonce
  factory : op.factory = op'.factory
  factoryData : op.factory ≠ none → op.factoryData.getD [] = op'.factoryData.getD []
  callData : op.callData = op'.callData
  callGasLimit : op.callGasLimit = op'.callGasLimit
  verificationGasLimit : op.verificationGasLimit = op'.verificationGasLimit
  preVerificationGas : op.preVerificationGas = op'.preVerificationGas
  maxFeePerGas : op.maxFeePerGas = op'.maxFeePerGas
  maxPriorityFeePerGas : op.maxPriorityFeePerGas = op'.maxPriorityFeePerGas
  paymaster : op.paymaster = op'.paymaster
  paymasterFields : op.paymaster ≠ none →
    op.paymasterVerificationGasLimit.getD 0 = op'.paymasterVerificationGasLimit.getD 0 ∧
    op.paymasterPostOpGasLimit.getD 0 = op'.paymasterPostOpGasLimit.getD 0 ∧
    op.paymasterData.getD [] = op'.paymasterData.getD []

end PackedUserOperation

/-! ## What a hash binds -/

section Binds

variable {keccak256 : Bytes → B256}

/-- **The hash of a packed operation fails** exactly if a packed field is too large. -/
theorem computeUserOpV07Hash_error (op : PackedUserOperation) (entrypoint : Address)
    (chainId : ChainId) :
    (∃ e, computeUserOpV07Hash keccak256 op entrypoint chainId = .error e) ↔ op.TooLarge := by
  have hok : (∃ h, computeUserOpV07Hash keccak256 op entrypoint chainId = .ok h) ↔
      (∃ w, op.accountGasLimits = .ok w) ∧ (∃ w, op.gasFees = .ok w) ∧
        ∃ b, op.paymasterAndData = .ok b := by
    simp only [computeUserOpV07Hash, bind_ok, pure_ok]
    constructor
    · rintro ⟨_, w, hw, w', hw', b, hb, -⟩
      exact ⟨⟨w, hw⟩, ⟨w', hw'⟩, b, hb⟩
    · rintro ⟨⟨w, hw⟩, ⟨w', hw'⟩, b, hb⟩
      exact ⟨_, w, hw, w', hw', b, hb, rfl⟩
  have hnot : (∃ e, computeUserOpV07Hash keccak256 op entrypoint chainId = .error e) ↔
      ¬∃ h, computeUserOpV07Hash keccak256 op entrypoint chainId = .ok h := by
    cases computeUserOpV07Hash keccak256 op entrypoint chainId <;> simp
  rw [hnot, hok, PackedUserOperation.accountGasLimits, PackedUserOperation.gasFees, packed_fits,
    packed_fits, PackedUserOperation.paymasterAndData_fits, PackedUserOperation.TooLarge]
  simp only [not_and_or, Classical.not_imp, not_lt, or_assoc]

namespace VersionedUserOp

/-- The fields of an operation that are signed, in the same version. -/
inductive SameSigned : VersionedUserOp → VersionedUserOp → Prop
  | v06 {op op' : UserOperation} (h : op' = { op with signature := op'.signature }) :
      SameSigned (.v06 op) (.v06 op')
  | v07 {op op' : PackedUserOperation} (h : op.SameSigned op') : SameSigned (.v07 op) (.v07 op')

/-- The factory and the paymaster of a packed operation are absent or not zero. -/
def Proper : VersionedUserOp → Prop
  | .v06 _ => True
  | .v07 op => op.Proper

variable {op op' : VersionedUserOp} {entrypoint entrypoint' : Address} {chainId chainId' : ChainId}

theorem compute_ok {h : B256} : op.compute keccak256 entrypoint chainId = .ok h ↔
    ∃ p, op.preimage keccak256 = .ok p ∧
      h = keccak256 (Abi.encode (outerTuple keccak256 p.inner entrypoint chainId)) := by
  cases op with
  | v06 op =>
    refine ⟨fun h => ⟨_, rfl, (Except.ok.inj h).symm⟩, ?_⟩
    rintro ⟨p, hp, rfl⟩
    obtain rfl := Except.ok.inj hp
    rfl
  | v07 op =>
    simp only [compute, computeUserOpV07Hash, preimage, bind_ok, pure_ok]
    constructor
    · rintro ⟨w, hw, w', hw', b, hb, rfl⟩
      exact ⟨_, ⟨w, hw, w', hw', b, hb, rfl⟩, rfl⟩
    · rintro ⟨p, ⟨w, hw, w', hw', b, hb, rfl⟩, rfl⟩
      exact ⟨w, hw, w', hw', b, hb, rfl⟩

theorem SameSigned.of_inner {S : Set Bytes} (hinj : Set.InjOn keccak256 S) {p p' : Preimage}
    (hp : op.preimage keccak256 = .ok p) (hp' : op'.preimage keccak256 = .ok p')
    (hS : ∀ x ∈ p.fields, x ∈ S) (hS' : ∀ x ∈ p'.fields, x ∈ S) (hop : op.Proper)
    (hop' : op'.Proper) (h : p.inner = p'.inner) : op.SameSigned op' := by
  cases op with
  | v06 op =>
    obtain rfl := Except.ok.inj hp
    cases op' with
    | v06 op' =>
      obtain rfl := Except.ok.inj hp'
      simp only [List.forall_mem_cons, List.not_mem_nil, false_imp_iff, implies_true,
        and_true] at hS hS'
      simp only [UserOperation.innerTuple, List.cons.injEq, and_true] at h
      obtain ⟨hsender, hnonce, hinit, hcall, hcgl, hvgl, hpvg, hmf, hmp, hpm⟩ := h
      have hsender := setWidth_inj (by decide) hsender
      have hinit := hinj hS.1 hS'.1 hinit
      have hcall := hinj hS.2.1 hS'.2.1 hcall
      have hpm := hinj hS.2.2 hS'.2.2 hpm
      exact .v06 (by rw [hsender, hnonce, hinit, hcall, hcgl, hvgl, hpvg, hmf, hmp, hpm])
    | v07 op' =>
      -- ten words against eight
      simp only [preimage, bind_ok, pure_ok] at hp'
      obtain ⟨w, -, w', -, b, -, rfl⟩ := hp'
      have hlen : 10 = 8 := congrArg List.length h
      exact absurd hlen (by decide)
  | v07 op =>
    simp only [preimage, bind_ok, pure_ok] at hp
    obtain ⟨limits, hlimits, fees, hfees, b, hb, rfl⟩ := hp
    cases op' with
    | v06 op' =>
      obtain rfl := Except.ok.inj hp'
      have hlen : 8 = 10 := congrArg List.length h
      exact absurd hlen (by decide)
    | v07 op' =>
      simp only [preimage, bind_ok, pure_ok] at hp'
      obtain ⟨limits', hlimits', fees', hfees', b', hb', rfl⟩ := hp'
      simp only [List.forall_mem_cons, List.not_mem_nil, false_imp_iff, implies_true,
        and_true] at hS hS'
      simp only [PackedUserOperation.innerTuple, List.cons.injEq, and_true] at h
      obtain ⟨hsender, hnonce, hinit, hcall, rfl, hpvg, rfl, hpm⟩ := h
      obtain rfl := hinj hS.2.2 hS'.2.2 hpm
      obtain ⟨hfactory, hdata⟩ := PackedUserOperation.initCode_inj hop.factory hop'.factory
        (hinj hS.1 hS'.1 hinit)
      obtain ⟨hvgl, hcgl⟩ := packed_inj hlimits hlimits'
      obtain ⟨hmp, hmf⟩ := packed_inj hfees hfees'
      obtain ⟨hpaymaster, hfields⟩ :=
        PackedUserOperation.paymasterAndData_inj hop.paymaster hop'.paymaster hb hb'
      exact .v07 {
        sender := setWidth_inj (by decide) hsender
        nonce := hnonce
        factory := hfactory
        factoryData := hdata
        callData := hinj hS.2.1 hS'.2.1 hcall
        callGasLimit := hcgl
        verificationGasLimit := hvgl
        preVerificationGas := hpvg
        maxFeePerGas := hmf
        maxPriorityFeePerGas := hmp
        paymaster := hpaymaster
        paymasterFields := hfields }

end VersionedUserOp

/-- **A hash binds the signed fields.** Where the digest has no collision among the strings that the
two hashes are made of, equal hashes are of one version, one entry point, one chain and the same
signed fields; and the hash of a packed operation fails exactly if a packed field is too large. -/
theorem user_op_hash_binds (keccak256 : Bytes → B256) :
    (∀ (op op' : VersionedUserOp) (entrypoint entrypoint' : Address) (chainId chainId' : ChainId)
      (h : B256), op.Proper → op'.Proper →
      Set.InjOn keccak256 (op.Hashed keccak256 entrypoint chainId ∪
        op'.Hashed keccak256 entrypoint' chainId') →
      op.compute keccak256 entrypoint chainId = .ok h →
      op'.compute keccak256 entrypoint' chainId' = .ok h →
      entrypoint = entrypoint' ∧ chainId = chainId' ∧ op.SameSigned op') ∧
    ∀ (op : PackedUserOperation) (entrypoint : Address) (chainId : ChainId),
      (∃ e, computeUserOpV07Hash keccak256 op entrypoint chainId = .error e) ↔ op.TooLarge := by
  refine ⟨?_, computeUserOpV07Hash_error⟩
  intro op op' entrypoint entrypoint' chainId chainId' h hop hop' hinj hok hok'
  obtain ⟨p, hp, rfl⟩ := VersionedUserOp.compute_ok.mp hok
  obtain ⟨p', hp', hsame⟩ := VersionedUserOp.compute_ok.mp hok'
  have hmem : ∀ x, (x ∈ p.fields ∨ x = Abi.encode p.inner ∨
      x = Abi.encode (outerTuple keccak256 p.inner entrypoint chainId)) →
      x ∈ op.Hashed keccak256 entrypoint chainId ∪ op'.Hashed keccak256 entrypoint' chainId' :=
    fun x hx => .inl ⟨p, hp, hx⟩
  have hmem' : ∀ x, (x ∈ p'.fields ∨ x = Abi.encode p'.inner ∨
      x = Abi.encode (outerTuple keccak256 p'.inner entrypoint' chainId')) →
      x ∈ op.Hashed keccak256 entrypoint chainId ∪ op'.Hashed keccak256 entrypoint' chainId' :=
    fun x hx => .inr ⟨p', hp', hx⟩
  have houter := Abi.encode_injective
    (hinj (hmem _ (.inr (.inr rfl))) (hmem' _ (.inr (.inr rfl))) hsame)
  simp only [outerTuple, List.cons.injEq, and_true] at houter
  obtain ⟨hinner, hentry, hchain⟩ := houter
  have hwords := Abi.encode_injective
    (hinj (hmem _ (.inr (.inl rfl))) (hmem' _ (.inr (.inl rfl))) hinner)
  exact ⟨setWidth_inj (by decide) hentry, setWidth_inj (by decide) hchain,
    .of_inner hinj hp hp' (fun x hx => hmem x (.inl hx)) (fun x hx => hmem' x (.inl hx)) hop hop'
      hwords⟩

end Binds

/-- **Data without its owner is not bound**: without a factory its data is not hashed, and without a
paymaster neither its data nor its gas limits are. -/
theorem user_op_hash_unbound : ∃ op op' : PackedUserOperation, op.Proper ∧ op'.Proper ∧
    (∀ keccak256 entrypoint chainId, ∃ h,
      computeUserOpV07Hash keccak256 op entrypoint chainId = .ok h ∧
      computeUserOpV07Hash keccak256 op' entrypoint chainId = .ok h) ∧
    op.factoryData.getD [] ≠ op'.factoryData.getD [] ∧
    op.paymasterData.getD [] ≠ op'.paymasterData.getD [] ∧
    op.paymasterVerificationGasLimit.getD 0 ≠ op'.paymasterVerificationGasLimit.getD 0 := by
  refine ⟨⟨0, 0, none, none, [], 0, 0, 0, 0, 0, none, none, none, none, []⟩,
    ⟨0, 0, none, some [1], [], 0, 0, 0, 0, 0, none, some 1, none, some [1], []⟩,
    ⟨by decide, by decide⟩, ⟨by decide, by decide⟩,
    fun keccak256 entrypoint chainId => ⟨_, rfl, rfl⟩, by decide, by decide, by decide⟩

namespace Sample

/-- A digest that tells strings of different lengths apart. -/
def size (bytes : Bytes) : B256 := BitVec.ofNat 256 bytes.length

def operation (signature : Bytes) : UserOperation :=
  ⟨1, 0, [], [7], 21000, 50000, 21000, 3, 2, [], signature⟩

/-- What is hashed of it, with any signature. -/
def strings : List Bytes :=
  let inner := (operation []).innerTuple size
  [[], [7], Abi.encode inner, Abi.encode (outerTuple size inner 5 1)]

theorem hashed_strings {x signature : Bytes}
    (h : x ∈ (VersionedUserOp.v06 (operation signature)).Hashed size 5 1) : x ∈ strings := by
  obtain ⟨p, hp, hx⟩ := h
  obtain rfl := Except.ok.inj hp
  rcases hx with hx | rfl | rfl
  · simp only [operation, List.mem_cons, List.not_mem_nil, or_false] at hx
    rcases hx with rfl | rfl | rfl <;> simp [strings]
  · exact List.mem_of_getElem? (i := 2) rfl
  · exact List.mem_of_getElem? (i := 3) rfl

end Sample

theorem user_op_hash_binds_signature :
    (VersionedUserOp.v06 (Sample.operation [])).SameSigned (.v06 (Sample.operation [1])) := by
  have hinj : ∀ x ∈ Sample.strings, ∀ y ∈ Sample.strings,
      Sample.size x = Sample.size y → x = y := by
    decide +kernel
  refine ((user_op_hash_binds Sample.size).1 (.v06 (Sample.operation []))
    (.v06 (Sample.operation [1])) 5 5 1 1 _ trivial trivial ?_ rfl rfl).2.2
  intro x hx y hy
  exact hinj x (hx.elim Sample.hashed_strings Sample.hashed_strings) y
    (hy.elim Sample.hashed_strings Sample.hashed_strings)

end EngineCore.AaTypes
