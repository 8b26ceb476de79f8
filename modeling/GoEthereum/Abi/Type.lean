import GoEthereum.Common

/-!
# Types of the contract ABI

`accounts/abi/type.go`: the types `NewType` builds, the size of their heads,
and what `GetType` asks of package `reflect`.

A tuple keeps the component names of the ABI. `NewType` turns them into the
field names of a Go struct: camel case, and a number behind a name that is
taken (`fieldNames`). The struct type of a tuple is built once, by `NewType`;
the Go type of a slice or an array is built again at every call of `GetType`,
and `reflect.ArrayOf` panics when the array would not fit the address space
(`buildable`).

Go's `int` has 64 bits here: `int64` is what an operation leaves of its
result.
-/

namespace GoEthereum.Abi

/-- What a 64-bit `int` keeps of a number. -/
def int64 (x : Int) : Int := x.bmod (2 ^ 64)

theorem int64_of_lt {x : Int} (h0 : 0 ≤ x) (h : x < 2 ^ 63) : int64 x = x := by
  unfold int64
  exact Int.bmod_eq_of_le_mul_two (by omega) (by omega)

/-! ## Names -/

/-- The name of a tuple component or of a struct field. -/
abbrev Name : Type := List Char

instance : LawfulBEq Name := inferInstance

def capitalize : Name → Name
  | [] => []
  | c :: s => c.toUpper :: s

/-- `ToCamelCase`. Component names are ASCII where it matters: `NewType`
refuses a name with a part that starts with any other letter. -/
def toCamelCase (input : Name) : Name := (input.splitOn '_').flatMap capitalize

/-- The numbered names `ResolveNameConflict` tries, from `idx` on. -/
def nextName (rawName : Name) (used : List Name) : Nat → Nat → Name
  | 0, idx => rawName ++ Nat.toDigits 10 idx
  | fuel + 1, idx =>
    if rawName ++ Nat.toDigits 10 idx ∈ used then nextName rawName used fuel (idx + 1)
    else rawName ++ Nat.toDigits 10 idx

/-- `ResolveNameConflict`. As many numbers as there are used names are enough
to find a free one. -/
def resolveNameConflict (rawName : Name) (used : List Name) : Name :=
  if rawName ∈ used then nextName rawName used used.length 0 else rawName

/-- The field names of a tuple's struct type. -/
def fieldNames (rawNames : List Name) : List Name :=
  rawNames.foldl (fun used n => used ++ [resolveNameConflict (toCamelCase n) used]) []

/-- Names that differ in camel case are kept. -/
theorem fieldNames_eq {rawNames : List Name} (h : (rawNames.map toCamelCase).Nodup) :
    fieldNames rawNames = rawNames.map toCamelCase := by
  have key : ∀ (ns : List Name) (used : List Name), (used ++ ns.map toCamelCase).Nodup →
      ns.foldl (fun used n => used ++ [resolveNameConflict (toCamelCase n) used]) used =
        used ++ ns.map toCamelCase := by
    intro ns
    induction ns with
    | nil => simp
    | cons n ns ih =>
      intro used hnd
      have hfree : toCamelCase n ∉ used := by
        intro hmem
        exact (List.nodup_append.mp hnd).2.2 _ hmem _ (List.mem_cons_self ..) rfl
      have hstep : used ++ [resolveNameConflict (toCamelCase n) used] =
          used ++ [toCamelCase n] := by
        rw [resolveNameConflict, if_neg hfree]
      rw [List.foldl_cons, hstep, ih (used ++ [toCamelCase n]) (by simpa using hnd)]
      simp
  rw [fieldNames, key rawNames [] h, List.nil_append]

/-! ## Types -/

/-- `Type`. A `Size` is a Go `int`. -/
inductive Ty where
  | int (size : Nat)
  | uint (size : Nat)
  | bool
  | string
  | slice (elem : Ty)
  | array (size : Nat) (elem : Ty)
  | tuple (rawNames : List Name) (elems : List Ty)
  | address
  | fixedBytes (size : Nat)
  | bytes
  | function

mutual
def isDynamicType : Ty → Bool
  | .tuple _ elems => anyDynamic elems
  | .string => true
  | .bytes => true
  | .slice _ => true
  | .array _ elem => isDynamicType elem
  | _ => false

def anyDynamic : List Ty → Bool
  | [] => false
  | t :: ts => isDynamicType t || anyDynamic ts
end

/-- `t.T == ArrayTy || t.T == TupleTy`: the types with a head of several
words. -/
def Ty.nests : Ty → Bool
  | .array _ _ => true
  | .tuple _ _ => true
  | _ => false

mutual
def getTypeSize : Ty → Int
  | .array n elem =>
    if isDynamicType elem then 32
    else if elem.nests then int64 (n * getTypeSize elem)
    else int64 (n * 32)
  | .tuple _ elems => if anyDynamic elems then 32 else totalSize elems
  | _ => 32

/-- The sum of the sizes of some types. -/
def totalSize : List Ty → Int
  | [] => 0
  | t :: ts => int64 (getTypeSize t + totalSize ts)
end

/-! ## Go types -/

/-- `reflect.Kind`; `ptr` is the kind of `*big.Int`. -/
inductive Kind where
  | uint8 | uint16 | uint32 | uint64
  | int8 | int16 | int32 | int64
  | ptr | bool | string | slice | array | struct
  deriving DecidableEq

def reflectIntType (unsigned : Bool) (size : Nat) : Kind :=
  match unsigned, size with
  | true, 8 => .uint8
  | true, 16 => .uint16
  | true, 32 => .uint32
  | true, 64 => .uint64
  | false, 8 => .int8
  | false, 16 => .int16
  | false, 32 => .int32
  | false, 64 => .int64
  | _, _ => .ptr

def Ty.kind : Ty → Kind
  | .int size => reflectIntType false size
  | .uint size => reflectIntType true size
  | .bool => .bool
  | .string => .string
  | .slice _ => .slice
  | .array _ _ => .array
  | .tuple _ _ => .struct
  | .address => .array
  | .fixedBytes _ => .array
  | .bytes => .slice
  | .function => .array

/-- The bytes an integer, or the pointer to a large one, takes. -/
def intBytes (size : Nat) : Nat :=
  match size with
  | 8 => 1
  | 16 => 2
  | 32 => 4
  | _ => 8

def roundUp (n align : Nat) : Nat := (n + align - 1) / align * align

mutual
/-- `reflect.Type.Align` on a 64-bit machine. -/
def goAlign : Ty → Nat
  | .int size => intBytes size
  | .uint size => intBytes size
  | .string => 8
  | .slice _ => 8
  | .array _ elem => goAlign elem
  | .tuple _ elems => maxAlign elems
  | .bytes => 8
  | _ => 1

def maxAlign : List Ty → Nat
  | [] => 1
  | t :: ts => max (goAlign t) (maxAlign ts)
end

mutual
/-- `reflect.Type.Size` on a 64-bit machine. -/
def goSize : Ty → Nat
  | .int size => intBytes size
  | .uint size => intBytes size
  | .bool => 1
  | .string => 16
  | .slice _ => 24
  | .array n elem => n * goSize elem
  | .tuple _ elems => roundUp (fieldsEnd 0 elems) (maxAlign elems)
  | .address => 20
  | .fixedBytes n => n
  | .bytes => 24
  | .function => 24

/-- Where the last of some fields ends, if the first may start at `offset`. -/
def fieldsEnd : Nat → List Ty → Nat
  | offset, [] => offset
  | offset, t :: ts => fieldsEnd (roundUp offset (goAlign t) + goSize t) ts
end

/-- Whether `reflect` can build the Go type of `t`: `reflect.ArrayOf` panics
for an array that is larger than the address space. -/
def Ty.buildable : Ty → Bool
  | .slice elem => elem.buildable
  | .array n elem => elem.buildable && decide (n * goSize elem ≤ 2 ^ 64 - 1)
  | _ => true

mutual
/-- The types `NewType` builds, apart from arrays of length zero and empty
tuples: sizes are those of the ABI, an array's length is a Go `int`, component
names are distinct and the struct type of a tuple could be built. -/
def Ty.WellFormed : Ty → Prop
  | .int size => 0 < size ∧ size ≤ 256
  | .uint size => 0 < size ∧ size ≤ 256
  | .slice elem => elem.WellFormed
  | .array n elem => 0 < n ∧ n < 2 ^ 63 ∧ elem.WellFormed
  | .tuple rawNames elems =>
    elems ≠ [] ∧ rawNames.length = elems.length ∧ rawNames.Nodup ∧
      (∀ n ∈ rawNames, toCamelCase n ≠ []) ∧ AllWellFormed elems
  | .fixedBytes n => 0 < n ∧ n ≤ 32
  | _ => True

/-- The components of a tuple: well-formed types whose Go types exist. -/
def AllWellFormed : List Ty → Prop
  | [] => True
  | t :: ts => t.WellFormed ∧ t.buildable = true ∧ AllWellFormed ts
end

end GoEthereum.Abi
