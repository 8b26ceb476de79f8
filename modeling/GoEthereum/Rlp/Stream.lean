import GoEthereum.Rlp.Raw
import GoEthereum.Rlp.Value

/-!
# The streaming decoder

`Stream` of `rlp/decode.go` over a byte slice, and `DecodeBytes` into an empty interface.
The stream keeps what is left of each list it is in, the kind and size of a value whose
header is read, and the number of bytes left in the input. The limits are `uint64`:
`List` subtracts without a check.
-/

namespace GoEthereum.Rlp

/-- The errors of the decoder. -/
inductive StreamErr where
  | eol                  -- rlp: end of list
  | eof                  -- EOF
  | unexpectedEOF        -- unexpected EOF
  | expectedString       -- rlp: expected String or Byte
  | expectedList         -- rlp: expected List
  | canonSize            -- rlp: non-canonical size information
  | elemTooLarge         -- rlp: element is larger than containing list
  | valueTooLarge        -- rlp: value size exceeds available input length
  | moreThanOneValue     -- rlp: input contains more than one value
  | notInList            -- rlp: call of ListEnd outside of any list
  | notAtEOL             -- rlp: call of ListEnd not positioned at EOL
  | decode (msg : String) (ctx : List Nat)   -- a decodeError with the indices of its context
  | fuel
deriving DecidableEq, Repr

def wrapStreamError : StreamErr → StreamErr
  | .canonSize => .decode "non-canonical size information" []
  | .expectedList => .decode "expected input list" []
  | .expectedString => .decode "expected input string or byte" []
  | .notAtEOL => .decode "input list has too many elements" []
  | e => e

/-- `addErrorContext`, with the index of an element. -/
def addErrorContext (i : Nat) : StreamErr → StreamErr
  | .decode msg ctx => .decode msg (ctx ++ [i])
  | e => e

/-- `Stream`; the innermost list stands first, and no kind is `-1`. -/
structure Stream where
  r : Bytes                    -- what the reader has left
  remaining : Nat              -- number of bytes remaining to be read from r
  size : Nat                   -- size of value ahead
  kinderr : Option StreamErr   -- error from last readKind
  stack : List Nat             -- list sizes
  kind : Option Kind           -- kind of value ahead
  byteval : UInt8              -- value of single byte in type tag
  limited : Bool               -- true if input limit is in effect

/-- Subtraction of `uint64`. -/
def sub64 (a b : Nat) : Nat := (a + 2 ^ 64 - b % 2 ^ 64) % 2 ^ 64

namespace Stream

variable (s : Stream)

/-- `Reset` with a `sliceReader` and the length of the slice. -/
def reset (b : Bytes) : Stream where
  r := b
  remaining := b.length
  size := 0
  kinderr := none
  stack := []
  kind := none
  byteval := 0
  limited := decide (0 < b.length)

/-- The second half of `willRead`: the input limit. -/
def takeRemaining (n : Nat) : Stream × Except StreamErr Unit :=
  if s.limited then
    if s.remaining < n then (s, .error .valueTooLarge)
    else ({ s with remaining := s.remaining - n }, .ok ())
  else (s, .ok ())

def willRead (n : Nat) : Stream × Except StreamErr Unit :=
  let s := { s with kind := none }
  match s.stack with
  | [] => s.takeRemaining n
  | limit :: stack =>
    if limit < n then (s, .error .elemTooLarge)
    else takeRemaining { s with stack := (limit - n) :: stack } n

def readByte : Stream × Except StreamErr UInt8 :=
  match s.willRead 1 with
  | (s, .error e) => (s, .error e)
  | (s, .ok ()) =>
    match s.r with
    | [] => (s, .error .unexpectedEOF)
    | b :: r => ({ s with r := r }, .ok b)

/-- `readFull` into a buffer of a given length. -/
def readFull (n : Nat) : Stream × Except StreamErr Bytes :=
  match s.willRead n with
  | (s, .error e) => (s, .error e)
  | (s, .ok ()) =>
    if s.r.length < n then ({ s with r := [] }, .error .unexpectedEOF)
    else ({ s with r := s.r.drop n }, .ok (s.r.take n))

def readUint (s : Stream) : (size : Nat) → Stream × Except StreamErr Nat
  | 0 => ({ s with kind := none }, .ok 0)
  | 1 =>
    match s.readByte with
    | (s, .error e) => (s, .error e)
    | (s, .ok b) => (s, .ok b.toNat)
  | size =>
    match s.readFull size with
    | (s, .error e) => (s, .error e)
    | (s, .ok buffer) =>
      if buffer.head? = some 0 then (s, .error .canonSize) else (s, .ok (beNat buffer))

/-- The sizes of long strings and lists. -/
def readSize (kind : Kind) (size : Nat) : Stream × Kind × Nat × Option StreamErr :=
  match s.readUint size with
  | (s, .error e) => (s, kind, 0, some e)
  | (s, .ok size) => (s, kind, size, if size < 56 then some .canonSize else none)

/-- `readKind`: kind, size and error. -/
def readKind : Stream × Kind × Nat × Option StreamErr :=
  match s.readByte with
  | (s, .error e) =>
    -- at toplevel the error is adjusted to actual EOF
    if s.stack = [] ∧ (e = .unexpectedEOF ∨ e = .valueTooLarge) then (s, .byte, 0, some .eof)
    else (s, .byte, 0, some e)
  | (s, .ok b) =>
    let s := { s with byteval := 0 }
    if b.toNat < 0x80 then ({ s with byteval := b }, .byte, 0, none)
    else if b.toNat < 0xB8 then (s, .string, b.toNat - 0x80, none)
    else if b.toNat < 0xC0 then s.readSize .string (b.toNat - 0xB7)
    else if b.toNat < 0xF8 then (s, .list, b.toNat - 0xC0, none)
    else s.readSize .list (b.toNat - 0xF7)

/-- The limits that `Kind` checks a size against: that of the list is the one before the
header was read. -/
def checkSize (limit : Option Nat) (size : Nat) : Option StreamErr :=
  if limit.any (· < size) then some .elemTooLarge
  else if s.limited ∧ s.remaining < size then some .valueTooLarge
  else none

def Kind : Stream × Rlp.Kind × Nat × Option StreamErr :=
  match s.kind with
  | some kind => (s, kind, s.size, s.kinderr)
  | none =>
    if s.stack.head? = some 0 then (s, .byte, 0, some .eol)
    else
      let limit := s.stack.head?
      match s.readKind with
      | (s, kind, size, err) =>
        let err := match err with
          | some e => some e
          | none => s.checkSize limit size
        ({ s with kind := some kind, size := size, kinderr := err }, kind, size, err)

def Bytes : Stream × Except StreamErr GoEthereum.Bytes :=
  match s.Kind with
  | (s, _, _, some e) => (s, .error e)
  | (s, .byte, _, none) => ({ s with kind := none }, .ok [s.byteval])
  | (s, .string, size, none) =>
    match s.readFull size with
    | (s, .error e) => (s, .error e)
    | (s, .ok b) =>
      if size = 1 ∧ b.head?.any (fun c => c.toNat < 128) then (s, .error .canonSize)
      else (s, .ok b)
  | (s, .list, _, none) => (s, .error .expectedString)

def List : Stream × Except StreamErr Nat :=
  match s.Kind with
  | (s, _, _, some e) => (s, .error e)
  | (s, .list, size, none) =>
    -- the size of the inner list is removed from the outer one
    let stack := match s.stack with
      | [] => []
      | limit :: stack => sub64 limit size :: stack
    ({ s with stack := size :: stack, kind := none, size := 0 }, .ok size)
  | (s, _, _, none) => (s, .error .expectedList)

def ListEnd : Stream × Except StreamErr Unit :=
  match s.stack with
  | [] => (s, .error .notInList)
  | limit :: stack =>
    if 0 < limit then (s, .error .notAtEOL)
    else ({ s with stack := stack, kind := none, size := 0 }, .ok ())

end Stream

/-- The end of `decodeListSlice`. -/
def endList (s : Stream) (items : List Value) : Stream × Except StreamErr Value :=
  match s.ListEnd with
  | (s, .error e) => (s, .error e)
  | (s, .ok ()) => (s, .ok (.list items))

/-- The string of `decodeInterface`. -/
def decodeString (s : Stream) : Stream × Except StreamErr Value :=
  match s.Bytes with
  | (s, .error e) => (s, .error e)
  | (s, .ok b) => (s, .ok (.bytes b))

mutual

/-- `decodeInterface`, with `decodeListSlice` for a list. -/
def decodeInterface : Nat → Stream → Stream × Except StreamErr Value
  | 0, s => (s, .error .fuel)
  | fuel + 1, s =>
    match s.Kind with
    | (s, _, _, some e) => (s, .error e)
    | (s, .list, _, none) =>
      match s.List with
      | (s, .error e) => (s, .error (wrapStreamError e))
      | (s, .ok size) =>
        if size = 0 then endList s []
        else
          match decodeSliceElems fuel s 0 with
          | (s, .error e) => (s, .error e)
          | (s, .ok items) => endList s items
    | (s, .byte, _, none) => decodeString s
    | (s, .string, _, none) => decodeString s

/-- `decodeSliceElems`, from an index on. -/
def decodeSliceElems : Nat → Stream → Nat → Stream × Except StreamErr (List Value)
  | 0, s, _ => (s, .error .fuel)
  | fuel + 1, s, i =>
    match decodeInterface fuel s with
    | (s, .error .eol) => (s, .ok [])
    | (s, .error e) => (s, .error (addErrorContext i e))
    | (s, .ok item) =>
      match decodeSliceElems fuel s (i + 1) with
      | (s, .error e) => (s, .error e)
      | (s, .ok items) => (s, .ok (item :: items))

end

/-- `DecodeBytes` into an empty interface. Every round reads a byte, or ends a list. -/
def DecodeBytes (b : Bytes) : Except StreamErr Value :=
  match decodeInterface (2 * b.length + 1) (.reset b) with
  | (_, .error e) => .error e
  | (s, .ok v) => if 0 < s.r.length then .error .moreThanOneValue else .ok v

end GoEthereum.Rlp
