import GoEthereum.Abi.Type

/-!
# Packing

`Type.pack`, `packElement` and `Arguments.Pack` of `accounts/abi`, with the
type checks of `error_handling.go` and the name resolution of `reflect.go`.

A value is a Go value as `reflect` shows it. The values of a tuple are structs
of the type `NewType` has built, so their fields have no `abi` tags and the
first round of `mapArgNamesToStructFields` finds nothing. Pointers, which
`indirect` follows, are left out; a `*big.Int` is the number it holds.
-/

namespace GoEthereum.Abi

/-- The errors of packing and unpacking, and a Go panic. -/
inductive Err where
  | panic
  | typeErr
  | purelyUnderscored
  | multipleVariables (argName : Name)
  | multipleOutputs (structFieldName : Name)
  | fieldNotFound (rawName : Name)
  | argumentCount (got want : Nat)
  | notBytes
  | lengthInsufficient
  | negativeSize
  | overBoundary
  | offsetTooLarge
  | lengthTooLarge
  | badInteger (kind : Kind)
  | badBool
  | badFunction

/-- A Go value: the integers with their kind, `fixed` a `[n]byte` (an address
among them), slices and arrays with the kind of their elements. -/
inductive Value where
  | num (kind : Kind) (n : Int)
  | bool (b : Bool)
  | string (s : Bytes)
  | bytes (b : Bytes)
  | fixed (b : Bytes)
  | slice (elemKind : Kind) (vs : List Value)
  | array (elemKind : Kind) (vs : List Value)
  | struct (names : List Name) (vs : List Value)

namespace Value

def kind : Value → Kind
  | .num k _ => k
  | .bool _ => .bool
  | .string _ => .string
  | .bytes _ => .slice
  | .fixed _ => .array
  | .slice _ _ => .slice
  | .array _ _ => .array
  | .struct _ _ => .struct

/-- `v.Index(i)` for every index of a slice or an array. -/
def elems : Value → List Value
  | .bytes b => b.map fun x => .num .uint8 x.toNat
  | .fixed b => b.map fun x => .num .uint8 x.toNat
  | .slice _ vs => vs
  | .array _ vs => vs
  | _ => []

/-- `v.Type().Elem().Kind()` of a slice or an array. -/
def elemKind : Value → Kind
  | .slice k _ => k
  | .array k _ => k
  | _ => .uint8

def fieldNames : Value → List Name
  | .struct names _ => names
  | _ => []

/-- `v.FieldByName`. -/
def fieldByName (name : Name) : Value → Option Value
  | .struct names vs => (names.zip vs).lookup name
  | _ => none

end Value

/-! ## Type checks -/

/-- `t.GetType().Kind()`. -/
def getTypeKind (t : Ty) : Except Err Kind := if t.buildable then .ok t.kind else .error .panic

/-- `typeErr` with the types it formats. -/
def typeErrOf (t : Ty) : Except Err Unit := do
  let _ ← getTypeKind t
  .error .typeErr

def Ty.isSeq : Ty → Bool
  | .slice _ => true
  | .array _ _ => true
  | _ => false

/-- The end of `sliceTypeCheck`: nested slices and arrays are checked at their
first element, everything else by the kind of the elements. -/
def elemCheck (inner : Value → Except Err Unit) (elem : Ty) (val : Value) : Except Err Unit :=
  match elem.isSeq, val.elems with
  | true, x :: _ => inner x
  | _, _ => do
      let k ← getTypeKind elem
      if val.elemKind ≠ k then .error .typeErr else .ok ()

def sliceTypeCheck : Ty → Value → Except Err Unit
  | .slice elem, val =>
    if val.kind ≠ .slice ∧ val.kind ≠ .array then typeErrOf (.slice elem)
    else elemCheck (sliceTypeCheck elem) elem val
  | .array n elem, val =>
    if val.kind ≠ .slice ∧ val.kind ≠ .array then typeErrOf (.array n elem)
    else if val.elems.length ≠ n then typeErrOf elem
    else elemCheck (sliceTypeCheck elem) elem val
  | t, _ => typeErrOf t

/-- `value.Len()` of a `[n]byte`. -/
def Value.fixedLen : Value → Nat
  | .fixed b => b.length
  | v => v.elems.length

def typeCheck (t : Ty) (value : Value) : Except Err Unit :=
  match t with
  | .slice _ => sliceTypeCheck t value
  | .array _ _ => sliceTypeCheck t value
  | .fixedBytes n =>
    if t.kind ≠ value.kind then .error .typeErr
    else if n ≠ value.fixedLen then .error .typeErr
    else .ok ()
  | _ => if t.kind ≠ value.kind then .error .typeErr else .ok ()

/-! ## Elements -/

/-- `U256Bytes`: the number modulo `2^256` in 32 bytes. -/
def u256Bytes (n : Int) : Bytes := beBytes 32 (n % 2 ^ 256).toNat

def packNum : Value → Except Err Bytes
  | .num _ n => .ok (u256Bytes n)
  | _ => .error .panic

/-- `common.LeftPadBytes`. -/
def leftPadBytes (b : Bytes) (l : Nat) : Bytes := List.replicate (l - b.length) 0 ++ b

/-- `common.RightPadBytes`. -/
def rightPadBytes (b : Bytes) (l : Nat) : Bytes := b ++ List.replicate (l - b.length) 0

def packBytesSlice (b : Bytes) : Bytes :=
  u256Bytes b.length ++ rightPadBytes b ((b.length + 31) / 32 * 32)

/-- `mustArrayToByteSlice`, and `Bytes` of a byte slice. -/
def Value.byteSlice : Value → Except Err Bytes
  | .bytes b => .ok b
  | .fixed b => .ok b
  | _ => .error .panic

def packElement (t : Ty) (v : Value) : Except Err Bytes :=
  match t with
  | .int _ => packNum v
  | .uint _ => packNum v
  | .string =>
    match v with
    | .string s => .ok (packBytesSlice s)
    | _ => .error .panic
  | .address => return leftPadBytes (← v.byteSlice) 32
  | .bool =>
    match v with
    | .bool b => .ok (u256Bytes (if b then 1 else 0))
    | _ => .error .panic
  | .bytes =>
    match v with
    | .bytes b => .ok (packBytesSlice b)
    | .fixed b => .ok (packBytesSlice b)
    | _ => .error .notBytes
  | .fixedBytes _ => return rightPadBytes (← v.byteSlice) 32
  | .function => return rightPadBytes (← v.byteSlice) 32
  | _ => .error .panic

/-! ## Names of tuple components -/

/-- The two maps of `mapArgNamesToStructFields`; a name that is not paired
reads as the empty string. -/
structure Pairing where
  abi2struct : Name → Name
  struct2abi : Name → Name

/-- One round of the second loop of `mapArgNamesToStructFields`. -/
def pairName (fields : List Name) (p : Pairing) (argName : Name) : Except Err Pairing :=
  let structFieldName := toCamelCase argName
  if structFieldName = [] then .error .purelyUnderscored
  else if p.abi2struct argName ≠ [] then
    if p.abi2struct argName ≠ structFieldName ∧ p.struct2abi structFieldName = [] ∧
        structFieldName ∈ fields then .error (.multipleVariables argName)
    else .ok p
  else if p.struct2abi structFieldName ≠ [] then .error (.multipleOutputs structFieldName)
  else if structFieldName ∈ fields then
    .ok ⟨Function.update p.abi2struct argName structFieldName,
      Function.update p.struct2abi structFieldName argName⟩
  else .ok { p with struct2abi := Function.update p.struct2abi structFieldName argName }

def pairNames (fields : List Name) (p : Pairing) : List Name → Except Err Pairing
  | [] => .ok p
  | argName :: rest => do pairNames fields (← pairName fields p argName) rest

/-- `mapArgNamesToStructFields` for a struct without `abi` tags. -/
def mapArgNamesToStructFields (argNames fields : List Name) : Except Err Pairing :=
  pairNames fields ⟨fun _ => [], fun _ => []⟩ argNames

/-! ## Packing -/

/-- What the loops of `pack` and `Pack` carry: head, tail and next offset. -/
structure Packed where
  ret : Bytes
  tail : Bytes
  offset : Int

/-- One packed value: in place, or behind an offset. -/
def Packed.add (p : Packed) (dynamic : Bool) (val : Bytes) : Packed :=
  if dynamic then
    ⟨p.ret ++ u256Bytes p.offset, p.tail ++ val, int64 (p.offset + val.length)⟩
  else { p with ret := p.ret ++ val }

def Packed.bytes (p : Packed) : Bytes := p.ret ++ p.tail

/-- The loop of `pack` over the elements of a slice or an array. -/
def packEach (packElem : Value → Except Err Bytes) (offsetReq : Bool) :
    Packed → List Value → Except Err Packed
  | p, [] => .ok p
  | p, v :: vs => do
      let val ← packElem v
      packEach packElem offsetReq (p.add offsetReq val) vs

/-- Where the first dynamic element of a slice or an array comes to stand. -/
def firstOffset (elem : Ty) (v : Value) : Int :=
  if isDynamicType elem then int64 (getTypeSize elem * v.elems.length) else 0

mutual
/-- `Type.pack`. -/
def pack : Ty → Value → Except Err Bytes
  | .slice elem, v => do
      typeCheck (.slice elem) v
      let p ← packEach (pack elem) (isDynamicType elem)
        ⟨u256Bytes v.elems.length, [], firstOffset elem v⟩ v.elems
      return p.bytes
  | .array n elem, v => do
      typeCheck (.array n elem) v
      let p ← packEach (pack elem) (isDynamicType elem) ⟨[], [], firstOffset elem v⟩ v.elems
      return p.bytes
  | .tuple rawNames elems, v => do
      typeCheck (.tuple rawNames elems) v
      let fieldmap ← mapArgNamesToStructFields rawNames v.fieldNames
      let p ← packFields elems rawNames v fieldmap ⟨[], [], totalSize elems⟩
      return p.bytes
  | t, v => do
      typeCheck t v
      packElement t v

/-- The loop of `pack` over the components of a tuple. -/
def packFields : List Ty → List Name → Value → Pairing → Packed → Except Err Packed
  | elem :: elems, rawName :: rawNames, v, fieldmap, p =>
    match v.fieldByName (fieldmap.abi2struct rawName) with
    | none => .error (.fieldNotFound rawName)
    | some field => do
        let val ← pack elem field
        packFields elems rawNames v fieldmap (p.add (isDynamicType elem) val)
  | _, _, _, _, p => .ok p
end

/-- The loop of `Arguments.Pack`. -/
def packArgs : List Ty → List Value → Packed → Except Err Packed
  | t :: ts, v :: vs, p => do
      let packed ← pack t v
      packArgs ts vs (p.add (isDynamicType t) packed)
  | _, _, p => .ok p

/-- `Arguments.Pack`. -/
def Pack (arguments : List Ty) (args : List Value) : Except Err Bytes :=
  if args.length ≠ arguments.length then
    .error (.argumentCount args.length arguments.length)
  else do
    let p ← packArgs arguments args ⟨[], [], totalSize arguments⟩
    return p.bytes

end GoEthereum.Abi
