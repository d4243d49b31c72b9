import Nightfall.Wallet.CommitmentDb

/-!
# The selection of commitments

A transfer or a withdraw spends at most two commitments for its value and two for its fee
(`findUsableCommitments`).  Of the unspent commitments of the token the pair or the single one with
the least change is taken, and the pair if both have the same change.  What is selected is marked in
the database as pending (`PendingSpend`), before anything else of the request is done.

Values are compared as numbers and added as field elements, as the code does.
-/

namespace Nightfall

namespace Wallet

open Node Stateful

/-- `MAX_POSSIBLE_COMMITMENTS`. -/
def maxPossibleCommitments : ℕ := 2

/-- Sort by the value. -/
def sortByValue (commitments : List Preimage) : List Preimage :=
  commitments.insertionSort fun a b => a.value.val ≤ b.value.val

/-- The sum of the values. -/
def totalValue (commitments : List Preimage) : Fr254 :=
  commitments.foldl (fun acc c => acc + c.value) 0

/-! ### Two commitments -/

/-- The loop of `find_subset_two_commitments`: the right pointer is `gap` ahead of the left one. -/
def twoPointers (targetVal : Fr254) (valuesBelow : List Preimage) :
    ℕ → ℕ → Fr254 → List Preimage → List Preimage
  | 0, _, _, commitmentsToUse => commitmentsToUse
  | gap + 1, lhs, change, commitmentsToUse =>
    let left := valuesBelow.getD lhs .default
    let right := valuesBelow.getD (lhs + (gap + 1)) .default
    let twoSum := left.value + right.value
    if twoSum = targetVal then [left, right]
    else if targetVal.val < twoSum.val then
      if (twoSum - targetVal).val < change.val then
        twoPointers targetVal valuesBelow gap lhs (twoSum - targetVal) [left, right]
      else twoPointers targetVal valuesBelow gap lhs change commitmentsToUse
    else twoPointers targetVal valuesBelow gap (lhs + 1) change commitmentsToUse

/-- `find_subset_two_commitments`. -/
def findSubsetTwoCommitments (targetVal : Fr254) (valuesBelow : List Preimage) : List Preimage :=
  twoPointers targetVal valuesBelow (valuesBelow.length - 1) 0 (((frModulus - 1) / 2 : ℕ) : Fr254) []

/-! ### One or two commitments -/

/-- `find_subset_commitments`. -/
def findSubsetCommitments (commitments : List Preimage) (targetVal : Fr254) (n : ℕ)
    (acc : List Preimage) : Except String (List Preimage) :=
  let valuesBelow := commitments.filter fun a => decide (a.value.val < targetVal.val)
  if valuesBelow.length ≤ 1 ∨ n = 1 then
    match commitments.find? fun a => decide (targetVal.val ≤ a.value.val) with
    | some c => .ok (acc ++ [c])
    | none => .error "Failed to find a matching commitment"
  else if n = 2 ∧ 1 < valuesBelow.length ∧ targetVal.val ≤ (totalValue valuesBelow).val then
    .ok (acc ++ findSubsetTwoCommitments targetVal valuesBelow)
  else .ok acc

/-- The change that a subset leaves. -/
def changeOf (targetVal : Fr254) (subset : List Preimage) : Fr254 := totalValue subset - targetVal

/-- The order of the subsets: less change first, then more commitments. -/
def Preferred (targetVal : Fr254) (a b : List Preimage) : Prop :=
  (changeOf targetVal a).val < (changeOf targetVal b).val ∨
    (changeOf targetVal a = changeOf targetVal b ∧ b.length ≤ a.length)

instance (targetVal : Fr254) : DecidableRel (Preferred targetVal) := fun a b => by
  unfold Preferred
  infer_instance

/-- The subsets of the sizes that are tried. -/
def candidateSubsets (commitments : List Preimage) (targetVal : Fr254) (min max : ℕ) :
    Except String (List (List Preimage)) :=
  if min = maxPossibleCommitments ∨ max = 1 then do
    let subset ← findSubsetCommitments commitments targetVal min []
    pure [subset]
  else (List.range' min (maxPossibleCommitments + 1 - min)).foldlM (fun subsets i => do
    let subset ← findSubsetCommitments commitments targetVal i []
    pure (if subset.isEmpty then subsets else subsets ++ [subset])) []

/-- `select_commitment`: default preimages fill the subset up. -/
def selectCommitment (commitments : List Preimage) (targetVal : Fr254) (min max : ℕ) :
    Except String (Fin 2 → Preimage) := do
  let subsets ← candidateSubsets commitments targetVal min max
  match (subsets.insertionSort (Preferred targetVal)).head? with
  | none => .error "No valid subsets found"
  | some res => .ok fun i => res.getD i .default

/-! ### Enough commitments -/

/-- The loop of `calculate_minimum_commitments`. -/
def countCommitments (targetValue : Fr254) : List Preimage → Fr254 → ℕ → Except String ℕ
  | [], _, _ => .error "Not enough commitments to cover the value"
  | c :: cs, sum, count =>
    if targetValue.val ≤ (sum + c.value).val then .ok (count + 1)
    else countCommitments targetValue cs (sum + c.value) (count + 1)

/-- `calculate_minimum_commitments`. -/
def calculateMinimumCommitments (commitments : List Preimage) (targetValue : Fr254) :
    Except String ℕ :=
  countCommitments targetValue ((sortByValue commitments).reverse.take maxPossibleCommitments) 0 0

/-- `fetch_on_chain_commitments`. -/
def fetchOnChainCommitments (c : Commitments) (tokenId : Fr254) : Except String (List Preimage) :=
  match c.getAvailableCommitments tokenId with
  | none => .error "No commmitments found in the db"
  | some commitments => .ok (commitments.map CommitmentEntry.preimage)

/-- `verify_enough_commitments`. -/
def verifyEnoughCommitments (c : Commitments) (targetTokenId targetValue : Fr254) :
    Except String (List Preimage × ℕ) := do
  let fetched ← fetchOnChainCommitments c targetTokenId
  let sorted := sortByValue fetched
  let minC ← calculateMinimumCommitments sorted targetValue
  if maxPossibleCommitments < minC then
    .error "Too many dust commitments found; only up to two commitments can be used to cover the value"
  else .ok (sorted, minC)

/-- The part of `find_usable_commitments` before the marks: what is selected. -/
def usableCommitments (c : Commitments) (targetTokenId targetValue : Fr254) :
    Except String (Fin 2 → Preimage) := do
  let available ← verifyEnoughCommitments c targetTokenId targetValue
  selectCommitment available.1 targetValue available.2
    (if available.1.length < maxPossibleCommitments then available.1.length
      else maxPossibleCommitments)

/-- The keys of selected preimages. -/
def pendingKeys (poseidon : List Fr254 → Fr254) (selected : Fin 2 → Preimage) : List Fr254 :=
  List.ofFn fun i => (selected i).hash poseidon

/-- `find_usable_commitments`, with the error that is returned for its text. -/
def findUsableCommitments {ε : Type} (cfg : ClientConfig) (toError : String → ε)
    (targetTokenId targetValue : Fr254) : ClientM ε (Fin 2 → Preimage) := do
  let s ← get
  let selected ← okOrElse toError (usableCommitments s.commitments targetTokenId targetValue)
  modify fun s => { s with
    commitments := s.commitments.markCommitmentsPendingSpend (pendingKeys cfg.poseidon selected) }
  pure selected

end Wallet

end Nightfall
