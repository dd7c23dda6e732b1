/-!
# SHA3-256

The hash function SHA3-256 over bytes: the Keccak permutation of 25 lanes of 64 bits, a sponge
that takes 136 bytes a block, and the first 32 bytes of the last state.
-/

namespace Evomark.Digest

/-- The state of the permutation: lane `(x, y)` stands at index `x + 5 * y`. -/
abbrev Lanes := Array UInt64

/-- The lane at `(x, y)`, both taken modulo five. -/
def lane (a : Lanes) (x y : Nat) : UInt64 := a.getD (x % 5 + 5 * (y % 5)) 0

/-- The state whose lane at `(x, y)` is `f x y`. -/
def build (f : Nat → Nat → UInt64) : Lanes := Array.ofFn fun i : Fin 25 => f (i.val % 5) (i.val / 5)

/-- `x` rotated to the left by `n` places. -/
def rotate (x : UInt64) (n : Nat) : UInt64 :=
  if n % 64 = 0 then x
  else (x <<< UInt64.ofNat (n % 64)) ||| (x >>> UInt64.ofNat (64 - n % 64))

/-- By how much each lane is rotated. -/
def rotations : Array Nat :=
  #[0, 1, 62, 28, 27, 36, 44, 6, 55, 20, 3, 10, 43, 25, 39, 41, 45, 15, 21, 8, 18, 2, 61, 56, 14]

/-- What is added to the first lane in each round. -/
def roundConstants : List UInt64 :=
  [0x0000000000000001, 0x0000000000008082, 0x800000000000808A, 0x8000000080008000,
   0x000000000000808B, 0x0000000080000001, 0x8000000080008081, 0x8000000000008009,
   0x000000000000008A, 0x0000000000000088, 0x0000000080008009, 0x000000008000000A,
   0x000000008000808B, 0x800000000000008B, 0x8000000000008089, 0x8000000000008003,
   0x8000000000008002, 0x8000000000000080, 0x000000000000800A, 0x800000008000000A,
   0x8000000080008081, 0x8000000000008080, 0x0000000080000001, 0x8000000080008008]

/-- Adds to each lane the parities of two columns. -/
def theta (a : Lanes) : Lanes :=
  let column := Array.ofFn fun i : Fin 5 =>
    lane a i 0 ^^^ lane a i 1 ^^^ lane a i 2 ^^^ lane a i 3 ^^^ lane a i 4
  let effect := Array.ofFn fun i : Fin 5 =>
    column.getD ((i.val + 4) % 5) 0 ^^^ rotate (column.getD ((i.val + 1) % 5) 0) 1
  build fun x y => lane a x y ^^^ effect.getD x 0

/-- Rotates each lane, and moves the lanes about. -/
def rhoPi (a : Lanes) : Lanes :=
  build fun x y =>
    let u := (x + 3 * y) % 5
    rotate (lane a u x) (rotations.getD (u + 5 * x) 0)

/-- The step that is not linear: each row is mixed with itself. -/
def chi (a : Lanes) : Lanes :=
  build fun x y => lane a x y ^^^ (~~~ lane a (x + 1) y &&& lane a (x + 2) y)

/-- One round. -/
def round (a : Lanes) (constant : UInt64) : Lanes :=
  let b := chi (rhoPi (theta a))
  b.setIfInBounds 0 (b.getD 0 0 ^^^ constant)

/-- All rounds. -/
def permute (a : Lanes) : Lanes := roundConstants.foldl round a

/-- The number of bytes in a block. -/
def blockSize : Nat := 136

/-- Eight bytes as a number, the least significant first. -/
def laneOfBytes (bytes : List UInt8) : UInt64 :=
  bytes.foldr (fun b acc => (acc <<< 8) ||| b.toUInt64) 0

/-- A block added to the state, then permuted. -/
def absorb (a : Lanes) (block : Array UInt8) : Lanes :=
  permute <| build fun x y =>
    let i := x + 5 * y
    let added := if i < 17 then laneOfBytes (block.extract (8 * i) (8 * i + 8)).toList else 0
    lane a x y ^^^ added

/-- The bytes with the padding of SHA-3, a whole number of blocks. -/
def pad (bytes : Array UInt8) : Array UInt8 :=
  let missing := blockSize - bytes.size % blockSize
  if missing = 1 then bytes.push 0x86
  else bytes.push 0x06 ++ Array.replicate (missing - 2) 0 ++ #[0x80]

/-- The bytes of a lane, the least significant first. -/
def bytesOfLane (x : UInt64) : List UInt8 :=
  (List.range 8).map fun i => (x >>> UInt64.ofNat (8 * i)).toUInt8

/-- The digest of a sequence of bytes. -/
def sha3 (bytes : Array UInt8) : List UInt8 :=
  let padded := pad bytes
  let final := (List.range (padded.size / blockSize)).foldl
    (fun a i => absorb a (padded.extract (blockSize * i) (blockSize * (i + 1))))
    (build fun _ _ => 0)
  (List.range 4).flatMap fun i => bytesOfLane (final.getD i 0)

/-- The digest of the UTF-8 form of a text, in lower-case hexadecimal. -/
def sha3Text (s : String) : String :=
  String.ofList <| (sha3 s.toUTF8.data).flatMap fun b =>
    [Nat.digitChar (b.toNat / 16), Nat.digitChar (b.toNat % 16)]

end Evomark.Digest
