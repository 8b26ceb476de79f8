import Mathlib

/-!
# Keccak-256

The hash function itself, over lists of 25 lanes of 64 bits kept as natural
numbers; the rounds name the lanes so that they evaluate fast in the kernel.
The models of this development take the hash as a parameter; this definition
is what the parameter is in the field, and what concrete inputs are hashed
with.
-/

namespace Keccak

abbrev Bytes : Type := List UInt8

def lane (s : List Nat) (i : Nat) : Nat := s.getD i 0

def rotl (x n : Nat) : Nat :=
  ((x <<< n) ||| (x >>> (64 - n))) % 2 ^ 64

def theta : List Nat → List Nat
  | [a0, a1, a2, a3, a4, a5, a6, a7, a8, a9, a10, a11, a12, a13, a14, a15, a16, a17,
     a18, a19, a20, a21, a22, a23, a24] =>
    let c0 := a0 ^^^ a5 ^^^ a10 ^^^ a15 ^^^ a20
    let c1 := a1 ^^^ a6 ^^^ a11 ^^^ a16 ^^^ a21
    let c2 := a2 ^^^ a7 ^^^ a12 ^^^ a17 ^^^ a22
    let c3 := a3 ^^^ a8 ^^^ a13 ^^^ a18 ^^^ a23
    let c4 := a4 ^^^ a9 ^^^ a14 ^^^ a19 ^^^ a24
    let d0 := c4 ^^^ rotl c1 1
    let d1 := c0 ^^^ rotl c2 1
    let d2 := c1 ^^^ rotl c3 1
    let d3 := c2 ^^^ rotl c4 1
    let d4 := c3 ^^^ rotl c0 1
    [a0 ^^^ d0, a1 ^^^ d1, a2 ^^^ d2, a3 ^^^ d3, a4 ^^^ d4, a5 ^^^ d0, a6 ^^^ d1,
       a7 ^^^ d2, a8 ^^^ d3, a9 ^^^ d4, a10 ^^^ d0, a11 ^^^ d1, a12 ^^^ d2, a13 ^^^ d3,
       a14 ^^^ d4, a15 ^^^ d0, a16 ^^^ d1, a17 ^^^ d2, a18 ^^^ d3, a19 ^^^ d4,
       a20 ^^^ d0, a21 ^^^ d1, a22 ^^^ d2, a23 ^^^ d3, a24 ^^^ d4]
  | s => s

/-- The steps `ρ` and `π`: every lane is rotated and moved. -/
def rhoPi : List Nat → List Nat
  | [a0, a1, a2, a3, a4, a5, a6, a7, a8, a9, a10, a11, a12, a13, a14, a15, a16, a17,
     a18, a19, a20, a21, a22, a23, a24] =>
    [rotl a0 0, rotl a6 44, rotl a12 43, rotl a18 21, rotl a24 14, rotl a3 28,
       rotl a9 20, rotl a10 3, rotl a16 45, rotl a22 61, rotl a1 1, rotl a7 6,
       rotl a13 25, rotl a19 8, rotl a20 18, rotl a4 27, rotl a5 36, rotl a11 10,
       rotl a17 15, rotl a23 56, rotl a2 62, rotl a8 55, rotl a14 39, rotl a15 41,
       rotl a21 2]
  | s => s

def chiLane (a b c : Nat) : Nat := a ^^^ ((2 ^ 64 - 1 - b) &&& c)

def chi : List Nat → List Nat
  | a :: b :: c :: d :: e :: s =>
    chiLane a b c :: chiLane b c d :: chiLane c d e :: chiLane d e a :: chiLane e a b :: chi s
  | s => s

def iota (rc : Nat) : List Nat → List Nat
  | [] => []
  | a :: s => (a ^^^ rc) :: s

def roundConstants : List Nat :=
  [0x0000000000000001, 0x0000000000008082, 0x800000000000808A,
    0x8000000080008000, 0x000000000000808B, 0x0000000080000001,
    0x8000000080008081, 0x8000000000008009, 0x000000000000008A,
    0x0000000000000088, 0x0000000080008009, 0x000000008000000A,
    0x000000008000808B, 0x800000000000008B, 0x8000000000008089,
    0x8000000000008003, 0x8000000000008002, 0x8000000000000080,
    0x000000000000800A, 0x800000008000000A, 0x8000000080008081,
    0x8000000000008080, 0x0000000080000001, 0x8000000080008008]

def permute (s : List Nat) : List Nat :=
  roundConstants.foldl (fun s rc => iota rc (chi (rhoPi (theta s)))) s

/-- Bytes absorbed per permutation. -/
def rate : Nat := 136

def leLane : Bytes → Nat
  | [] => 0
  | b :: bs => b.toNat + 256 * leLane bs

def absorbBlock (s : List Nat) (block : Bytes) : List Nat :=
  permute (s.zipIdx.map fun e =>
    e.1 ^^^ leLane ((block.drop (8 * e.2)).take 8))

/-- The original Keccak padding (a single `1` bit, not the later SHA-3 one). -/
def pad (m : Bytes) : Bytes :=
  let n := rate - m.length % rate
  if n = 1 then m ++ [0x81]
  else m ++ [0x01] ++ List.replicate (n - 2) 0 ++ [0x80]

def absorb : Nat → List Nat → Bytes → List Nat
  | 0, s, _ => s
  | n + 1, s, m => absorb n (absorbBlock s (m.take rate)) (m.drop rate)

def laneBytes (x : Nat) : Bytes :=
  [0, 1, 2, 3, 4, 5, 6, 7].map fun i => UInt8.ofNat (x >>> (8 * i))

/-- The 256-bit digest. -/
def keccak256 (m : Bytes) : List.Vector UInt8 32 :=
  let p := pad m
  let s := absorb (p.length / rate) (List.replicate 25 0) p
  ⟨laneBytes (lane s 0) ++ laneBytes (lane s 1) ++ laneBytes (lane s 2) ++
    laneBytes (lane s 3), by simp [laneBytes]⟩

/-- The digest of the empty string, as every implementation lists it. -/
example : (keccak256 []).1 =
    [0xc5, 0xd2, 0x46, 0x01, 0x86, 0xf7, 0x23, 0x3c, 0x92, 0x7e, 0x7d, 0xb2,
      0xdc, 0xc7, 0x03, 0xc0, 0xe5, 0x00, 0xb6, 0x53, 0xca, 0x82, 0x27, 0x3b,
      0x7b, 0xfa, 0xd8, 0x04, 0x5d, 0x85, 0xa4, 0x70] := by decide +kernel

end Keccak
