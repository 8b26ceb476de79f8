import GoEthereum.Abi.Pack

/-!
# Unpacking

`toGoType` of `accounts/abi/unpack.go` with everything it calls, and
`Arguments.UnpackValues`. Data may be anything, so an index is a Go `int` that
can wrap, and every slice expression panics when its bounds are not within
the data. Memory for the result is not limited; a Go type that cannot be built
panics.
-/

namespace GoEthereum.Abi

/-- `b[lo:hi]`. -/
def subslice (b : Bytes) (lo hi : Int) : Except Err Bytes :=
  if 0 ≤ lo ∧ lo ≤ hi ∧ hi ≤ b.length then .ok ((b.drop lo.toNat).take (hi - lo).toNat)
  else .error .panic

/-- `b[lo:]`. -/
def sliceFrom (b : Bytes) (lo : Int) : Except Err Bytes := subslice b lo b.length

/-! ## Single words -/

/-- An integer that has to lie in the range of its Go type. -/
def narrow (kind : Kind) (lo hi n : Int) : Except Err Value :=
  if lo ≤ n ∧ n ≤ hi then .ok (.num kind n) else .error (.badInteger kind)

/-- `ReadInteger` of an unsigned type. -/
def readUint (size : Nat) (b : Bytes) : Except Err Value :=
  let ret : Int := beNat b
  match size with
  | 8 => narrow .uint8 0 (2 ^ 8 - 1) ret
  | 16 => narrow .uint16 0 (2 ^ 16 - 1) ret
  | 32 => narrow .uint32 0 (2 ^ 32 - 1) ret
  | 64 => narrow .uint64 0 (2 ^ 64 - 1) ret
  | _ => .ok (.num .ptr ret)

/-- The number a word holds in two's complement. -/
def signed (b : Bytes) : Int :=
  if (beNat b).testBit 255 then -((2 ^ 256 - 1 - beNat b) + 1) else beNat b

/-- `ReadInteger` of a signed type. -/
def readInt (size : Nat) (b : Bytes) : Except Err Value :=
  match size with
  | 8 => narrow .int8 (-2 ^ 7) (2 ^ 7 - 1) (signed b)
  | 16 => narrow .int16 (-2 ^ 15) (2 ^ 15 - 1) (signed b)
  | 32 => narrow .int32 (-2 ^ 31) (2 ^ 31 - 1) (signed b)
  | 64 => narrow .int64 (-2 ^ 63) (2 ^ 63 - 1) (signed b)
  | _ => .ok (.num .ptr (signed b))

/-- `readBool` of a word. -/
def readBool (word : Bytes) : Except Err Value :=
  if (word.take 31).all (· == 0) then
    match word.drop 31 with
    | [b] => if b = 0 then .ok (.bool false) else if b = 1 then .ok (.bool true)
        else .error .badBool
    | _ => .error .panic
  else .error .badBool

/-- `readFunctionType` of a word. -/
def readFunctionType (word : Bytes) : Except Err Value :=
  if beNat (word.drop 24) ≠ 0 then .error .badFunction else .ok (.fixed (word.take 24))

/-! ## Offsets -/

def lengthPrefixPointsTo (index : Int) (output : Bytes) : Except Err (Nat × Nat) := do
  let word ← subslice output index (int64 (index + 32))
  let bigOffsetEnd := beNat word + 32
  if bigOffsetEnd > output.length then .error .overBoundary
  else if 2 ^ 63 ≤ bigOffsetEnd then .error .offsetTooLarge
  else
    let lengthBig ← beNat <$> subslice output (bigOffsetEnd - 32) bigOffsetEnd
    let totalSize := bigOffsetEnd + lengthBig
    if 2 ^ 63 ≤ totalSize then .error .lengthTooLarge
    else if totalSize > output.length then .error .lengthInsufficient
    else .ok (bigOffsetEnd, lengthBig)

def tuplePointsTo (index : Int) (output : Bytes) : Except Err Nat := do
  let offset ← beNat <$> subslice output index (int64 (index + 32))
  if offset > output.length then .error .overBoundary
  else if 2 ^ 63 ≤ offset then .error .offsetTooLarge
  else .ok offset

/-! ## Values -/

/-- The loop of `forEachUnpack`. -/
def unpackEach (unpack : Int → Except Err Value) (elemSize : Int) :
    Nat → Int → Except Err (List Value)
  | 0, _ => .ok []
  | n + 1, i => do
      let inter ← unpack i
      let rest ← unpackEach unpack elemSize n (int64 (i + elemSize))
      return inter :: rest

/-- `forEachUnpack` for a type `t` of elements `elem`. -/
def forEachUnpack (t elem : Ty) (unpack : Int → Except Err Value) (output : Bytes)
    (start size : Int) : Except Err (List Value) :=
  if size < 0 then .error .negativeSize
  else if int64 (start + int64 (32 * size)) > output.length then .error .overBoundary
  else do
    let _ ← getTypeKind t
    unpackEach unpack (getTypeSize elem) size.toNat start

/-- The length check and the word `toGoType` starts with. -/
def firstWord (index : Int) (output : Bytes) : Except Err Bytes :=
  if int64 (index + 32) > output.length then .error .lengthInsufficient
  else subslice output index (int64 (index + 32))

/-- The start of a value with a length in front: the length check, then the
place and the length the word points to. -/
def lengthPrefix (index : Int) (output : Bytes) : Except Err (Nat × Nat) :=
  if int64 (index + 32) > output.length then .error .lengthInsufficient
  else lengthPrefixPointsTo index output

/-- Where the elements of an array start: at the offset in the last eight
bytes of the word, or in place. -/
def arrayStart (elem : Ty) (index : Int) (returnOutput : Bytes) : Int :=
  if isDynamicType elem then beNat (returnOutput.drop 24) else index

/-- Where the components of a tuple start. -/
def tupleStart (elems : List Ty) (index : Int) (output : Bytes) : Except Err Int :=
  if anyDynamic elems then Int.ofNat <$> tuplePointsTo index output else .ok index

/-- What a static array or tuple adds to the number of words passed. -/
def virtualArgsOf (t : Ty) : Int :=
  if t.nests && !isDynamicType t then (getTypeSize t).tdiv 32 - 1 else 0

mutual
def toGoType : Ty → Int → Bytes → Except Err Value
  | .tuple rawNames elems, index, output => do
      let _ ← firstWord index output
      let start ← tupleStart elems index output
      let inner ← sliceFrom output start
      let vs ← unpackFields elems 0 0 inner
      return .struct (fieldNames rawNames) vs
  | .slice elem, index, output => do
      let (start, length) ← lengthPrefix index output
      let inner ← sliceFrom output start
      let vs ← forEachUnpack (.slice elem) elem (fun i => toGoType elem i inner) inner 0 length
      return .slice elem.kind vs
  | .array n elem, index, output => do
      let returnOutput ← firstWord index output
      if isDynamicType elem ∧ arrayStart elem index returnOutput > output.length then
        .error .overBoundary
      else
        let inner ← sliceFrom output (arrayStart elem index returnOutput)
        let vs ← forEachUnpack (.array n elem) elem (fun i => toGoType elem i inner) inner 0 n
        return .array elem.kind vs
  | .string, index, output => do
      let (start, length) ← lengthPrefix index output
      return .string (← subslice output start (start + length))
  | .bytes, index, output => do
      let (start, length) ← lengthPrefix index output
      return .bytes (← subslice output start (start + length))
  | .int size, index, output => do readInt size (← firstWord index output)
  | .uint size, index, output => do readUint size (← firstWord index output)
  | .bool, index, output => do readBool (← firstWord index output)
  | .address, index, output => return .fixed (setBytes 20 (← firstWord index output))
  | .fixedBytes n, index, output => return .fixed ((← firstWord index output).take n)
  | .function, index, output => do readFunctionType (← firstWord index output)

/-- The loop of `forTupleUnpack` and of `UnpackValues`. -/
def unpackFields : List Ty → Int → Int → Bytes → Except Err (List Value)
  | [], _, _, _ => .ok []
  | elem :: elems, index, virtualArgs, output => do
      let v ← toGoType elem (int64 ((index + virtualArgs) * 32)) output
      let rest ← unpackFields elems (index + 1) (int64 (virtualArgs + virtualArgsOf elem)) output
      return v :: rest
end

/-- `Arguments.UnpackValues`. -/
def UnpackValues (arguments : List Ty) (data : Bytes) : Except Err (List Value) :=
  unpackFields arguments 0 0 data

end GoEthereum.Abi
