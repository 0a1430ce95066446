-- The Keccak-256 hash with its first padding rule, which puts a single one bit behind the message.
namespace RustContracts.Abi.Keccak

-- Twenty-five words; the word at column `x` and row `y` has the index `x + 5 * y`.
abbrev Lanes := Array UInt64

def lanes (f : Nat → Nat → UInt64) : Lanes :=
  (Array.range 25).map fun i => f (i % 5) (i / 5)

def lane (a : Lanes) (x y : Nat) : UInt64 := a.getD (x % 5 + 5 * (y % 5)) 0

def rotateLeft (w : UInt64) (n : Nat) : UInt64 :=
  if n = 0 then w else (w <<< n.toUInt64) ||| (w >>> (64 - n).toUInt64)

def roundConstants : List UInt64 :=
  [0x0000000000000001, 0x0000000000008082, 0x800000000000808a, 0x8000000080008000,
   0x000000000000808b, 0x0000000080000001, 0x8000000080008081, 0x8000000000008009,
   0x000000000000008a, 0x0000000000000088, 0x0000000080008009, 0x000000008000000a,
   0x000000008000808b, 0x800000000000008b, 0x8000000000008089, 0x8000000000008003,
   0x8000000000008002, 0x8000000000000080, 0x000000000000800a, 0x800000008000000a,
   0x8000000080008081, 0x8000000000008080, 0x0000000080000001, 0x8000000080008008]

def rotations : Array Nat :=
  #[0, 1, 62, 28, 27, 36, 44, 6, 55, 20, 3, 10, 43, 25, 39, 41, 45, 15, 21, 8, 18, 2, 61, 56, 14]

-- Each word with the parities of two columns beside it.
def theta (a : Lanes) : Lanes :=
  let parity (x : Nat) : UInt64 :=
    lane a x 0 ^^^ lane a x 1 ^^^ lane a x 2 ^^^ lane a x 3 ^^^ lane a x 4
  let columns := (Array.range 5).map parity
  let column (x : Nat) : UInt64 := columns.getD (x % 5) 0
  lanes fun x y => lane a x y ^^^ column (x + 4) ^^^ rotateLeft (column (x + 1)) 1

-- Words are rotated and moved: the word at (x, y) goes to (y, 2x + 3y).
def rhoPi (a : Lanes) : Lanes :=
  lanes fun x y =>
    let fromX := (x + 3 * y) % 5
    rotateLeft (lane a fromX x) (rotations.getD (fromX + 5 * x) 0)

def chi (a : Lanes) : Lanes :=
  lanes fun x y => lane a x y ^^^ (~~~ lane a (x + 1) y &&& lane a (x + 2) y)

def round (a : Lanes) (constant : UInt64) : Lanes :=
  (chi (rhoPi (theta a))).modify 0 (· ^^^ constant)

def permute (a : Lanes) : Lanes := roundConstants.foldl round a

-- Bytes that are taken in at once.
def rate : Nat := 136

-- A word from eight bytes, least significant first.
def wordOfBytes (bytes : List UInt8) : UInt64 :=
  bytes.foldr (fun b w => (w <<< 8) ||| b.toUInt64) 0

def absorb (a : Lanes) (block : List UInt8) : Lanes :=
  permute (lanes fun x y =>
    let i := x + 5 * y
    lane a x y ^^^ wordOfBytes ((block.drop (8 * i)).take 8))

-- The message filled up to a whole number of blocks.
def pad (message : List UInt8) : List UInt8 :=
  let missing := rate - message.length % rate
  if missing = 1 then message ++ [0x81]
  else message ++ 0x01 :: (List.replicate (missing - 2) 0x00 ++ [0x80])

-- The first `n` blocks of a padded message.
def blocks : Nat → List UInt8 → List (List UInt8)
  | 0, _ => []
  | n + 1, bytes => bytes.take rate :: blocks n (bytes.drop rate)

def hash (message : List UInt8) : List UInt8 :=
  let padded := pad message
  let final := (blocks (padded.length / rate) padded).foldl absorb (lanes fun _ _ => 0)
  (List.range 32).map fun i => ((final.getD (i / 8) 0) >>> (8 * (i % 8)).toUInt64).toUInt8

end RustContracts.Abi.Keccak
