import Nightfall.Evm.Word

/-!
# The data of the Nightfall contract

The structures of `Nightfall.sol`, its storage and the hash functions it uses.  The hash
functions of the EVM are parameters.
-/

namespace Nightfall

namespace Contract

open Evm

/-- An address. -/
abbrev Address := BitVec 160

/-- A transaction of a block. -/
structure OnChainTransaction where
  fee : U256
  commitments : Fin 4 → U256
  nullifiers : Fin 4 → U256
  /-- The compressed secrets of the client's proof. -/
  publicData : Fin 4 → U256

/-- A layer 2 block. -/
structure Block where
  commitmentsRoot : U256
  nullifierRoot : U256
  commitmentsRootRoot : U256
  transactions : List OnChainTransaction
  /-- The sum of the fees, two accumulators and the proof. -/
  rollupProof : Bytes

/-- What a deposit commits to. -/
structure DepositCommitment where
  nfTokenId : U256
  nfSlotId : U256
  value : U256
  secretHash : U256
  deriving DecidableEq, Repr

/-- The state of a deposit. -/
structure DepositFeeState where
  fee : U256
  escrowed : BitVec 8
  redeemed : BitVec 8
  deriving DecidableEq, Repr

/-- What a withdraw pays to whom. -/
structure WithdrawData where
  nfTokenId : U256
  recipientAddress : Address
  value : U256
  withdrawFundSalt : U256
  deriving DecidableEq, Repr

/-- The kinds of tokens. -/
inductive TokenType
  | ERC20
  | ERC1155
  | ERC721
  | ERC3525
  deriving DecidableEq, Repr

/-- The token behind a Nightfall token id. -/
structure TokenIdValue where
  ercAddress : Address
  tokenId : U256
  deriving DecidableEq, Repr

/-- The hash functions of the EVM. -/
structure Hashes where
  sha256 : Bytes → U256
  keccak256 : Bytes → U256

/-- The storage of the contract and its balance. -/
structure State where
  feeBinding : U256 → DepositFeeState
  /-- 1 for the withdraws that are in a block and have not been paid. -/
  withdrawalIncluded : U256 → BitVec 8
  tokenIdMapping : U256 → TokenIdValue
  layer2BlockNumber : ℤ
  commitmentRoot : U256
  nullifierRoot : U256
  historicRootsRoot : U256
  feeId : U256
  /-- The balance in wei. -/
  balance : ℕ

/-- `sha256_and_shift`. -/
def sha256AndShift (sha256 : Bytes → U256) (inputs : Bytes) : U256 := sha256 inputs >>> 4

/-- `a + b`, which reverts on overflow. -/
def checkedAdd (a b : U256) : Option U256 :=
  if a.toNat + b.toNat < 2 ^ 256 then some (a + b) else none

/-- `a * b`, which reverts on overflow. -/
def checkedMul (a b : U256) : Option U256 :=
  if a.toNat * b.toNat < 2 ^ 256 then some (a * b) else none

theorem checkedMul_eq {a b c : U256} (h : checkedMul a b = some c) : c = a * b := by
  unfold checkedMul at h
  split_ifs at h
  exact (Option.some.inj h).symm

theorem checkedMul_toNat {a b c : U256} (h : checkedMul a b = some c) :
    c.toNat = a.toNat * b.toNat := by
  unfold checkedMul at h
  split_ifs at h with hlt
  cases h
  rw [BitVec.toNat_mul, Nat.mod_eq_of_lt hlt]

/-- An address as a word. -/
def Address.toWord (a : Address) : U256 := a.zeroExtend 256

end Contract

end Nightfall
