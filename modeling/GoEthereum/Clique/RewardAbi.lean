import GoEthereum.Common

/-!
# Decoding the data of a `RewardSetUpdated` event

`rewardABI.UnpackIntoInterface` for the one event of the reward contract,

    RewardSetUpdated(address indexed signer, address[] receivers, uint256[] weights)

that is `Arguments.UnpackValues` at the two non-indexed slices, with
`toGoType`, `lengthPrefixPointsTo` and `forEachUnpack` of package
`accounts/abi`. The caller drops the error, so a refused input is `none`.
-/

namespace GoEthereum.Clique

/-- `output[i : i+32]`. -/
def word (output : Bytes) (i : Nat) : Bytes := (output.drop i).take 32

/-- `lengthPrefixPointsTo`: start and number of elements of the slice whose
offset stands at `index`. -/
def lengthPrefixPointsTo (index : Nat) (output : Bytes) : Option (Nat × Nat) :=
  let offsetEnd := beNat (word output index) + 32
  if output.length < offsetEnd then none
  else if 2 ^ 63 ≤ offsetEnd then none
  else
    let length := beNat (word output (offsetEnd - 32))
    let totalSize := offsetEnd + length
    if 2 ^ 63 ≤ totalSize then none
    else if output.length < totalSize then none
    else some (offsetEnd, length)

/-- `forEachUnpack` for a slice whose elements take one word each. -/
def forEachUnpack {α : Type} (elem : Bytes → α) (output : Bytes) (size : Nat) : Option (List α) :=
  if output.length < 32 * size then none
  else some ((List.range size).map fun j => elem (word output (32 * j)))

/-- `toGoType` at a slice type. -/
def toGoSlice {α : Type} (elem : Bytes → α) (index : Nat) (output : Bytes) : Option (List α) :=
  if output.length < index + 32 then none
  else
    match lengthPrefixPointsTo index output with
    | none => none
    | some (start, length) => forEachUnpack elem (output.drop start) length

/-- `rewardABI.UnpackIntoInterface(&decoded, "RewardSetUpdated", data)`: the
receivers and the weights as the 256-bit integers that were announced. -/
def unpackRewardSet (data : Bytes) : Option (List Address × List Nat) :=
  if data = [] then none
  else
    match toGoSlice bytesToAddress 0 data with
    | none => none
    | some receivers =>
      match toGoSlice beNat 32 data with
      | none => none
      | some weights => some (receivers, weights)

end GoEthereum.Clique
