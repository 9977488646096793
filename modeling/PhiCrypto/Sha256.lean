import PhiCrypto.ByteString

/-!
# SHA-256

The compression function, the padding and the digest of FIPS 180-4. Words are natural
numbers below `2 ^ 32`. The loops recurse on a list or a counter, and every word is
evaluated when it is made (`strict`), so that digests of concrete messages are computed
by the kernel.
-/

namespace PhiCrypto

/-- Apply `f` to `x` once `x` is a numeral. The match changes no value; it only stops
    evaluation from carrying `x` around unevaluated. -/
def strict {α : Type} (x : Nat) (f : Nat → α) : α :=
  match x with
  | 0 => f 0
  | m + 1 => f (m + 1)

namespace Sha256

def add (x y : Nat) : Nat := (x + y) % 0x100000000

def rotateRight (x n : Nat) : Nat := (x >>> n) ||| ((x <<< (32 - n)) % 0x100000000)

def bigSigma0 (x : Nat) : Nat := rotateRight x 2 ^^^ rotateRight x 13 ^^^ rotateRight x 22

def bigSigma1 (x : Nat) : Nat := rotateRight x 6 ^^^ rotateRight x 11 ^^^ rotateRight x 25

def sigma0 (x : Nat) : Nat := rotateRight x 7 ^^^ rotateRight x 18 ^^^ (x >>> 3)

def sigma1 (x : Nat) : Nat := rotateRight x 17 ^^^ rotateRight x 19 ^^^ (x >>> 10)

def choose (x y z : Nat) : Nat := z ^^^ (x &&& (y ^^^ z))

def majority (x y z : Nat) : Nat := (x &&& y) ^^^ (x &&& z) ^^^ (y &&& z)

/-- `K32`. -/
def k32 : List Nat :=
  [0x428a2f98, 0x71374491, 0xb5c0fbcf, 0xe9b5dba5, 0x3956c25b, 0x59f111f1, 0x923f82a4, 0xab1c5ed5,
   0xd807aa98, 0x12835b01, 0x243185be, 0x550c7dc3, 0x72be5d74, 0x80deb1fe, 0x9bdc06a7, 0xc19bf174,
   0xe49b69c1, 0xefbe4786, 0x0fc19dc6, 0x240ca1cc, 0x2de92c6f, 0x4a7484aa, 0x5cb0a9dc, 0x76f988da,
   0x983e5152, 0xa831c66d, 0xb00327c8, 0xbf597fc7, 0xc6e00bf3, 0xd5a79147, 0x06ca6351, 0x14292967,
   0x27b70a85, 0x2e1b2138, 0x4d2c6dfc, 0x53380d13, 0x650a7354, 0x766a0abb, 0x81c2c92e, 0x92722c85,
   0xa2bfe8a1, 0xa81a664b, 0xc24b8b70, 0xc76c51a3, 0xd192e819, 0xd6990624, 0xf40e3585, 0x106aa070,
   0x19a4c116, 0x1e376c08, 0x2748774c, 0x34b0bcb5, 0x391c0cb3, 0x4ed8aa4a, 0x5b9cca4f, 0x682e6ff3,
   0x748f82ee, 0x78a5636f, 0x84c87814, 0x8cc70208, 0x90befffa, 0xa4506ceb, 0xbef9a3f7, 0xc67178f2]

/-- The eight words between two blocks. -/
structure State where
  a : Nat
  b : Nat
  c : Nat
  d : Nat
  e : Nat
  f : Nat
  g : Nat
  h : Nat
deriving DecidableEq, Repr

/-- `H256_256`. -/
def initial : State :=
  ⟨0x6a09e667, 0xbb67ae85, 0x3c6ef372, 0xa54ff53a, 0x510e527f, 0x9b05688c, 0x1f83d9ab, 0x5be0cd19⟩

/-- The message schedule from a window of sixteen words: `n` more words are computed,
    each from the window in front of it. -/
def schedule : Nat → List Nat → List Nat
  | n + 1, w :: window =>
    strict (add (add w (sigma0 (window.getD 0 0)))
        (add (window.getD 8 0) (sigma1 (window.getD 13 0)))) fun next =>
      w :: schedule n (window ++ [next])
  | _, window => window

def round : State → Nat → Nat → State
  | ⟨a, b, c, d, e, f, g, h⟩, k, w =>
    strict (add (add (bigSigma1 e) (choose e f g)) (add (add k w) h)) fun x =>
    strict (add x (add (bigSigma0 a) (majority a b c))) fun a' =>
    strict (add x d) fun e' =>
      ⟨a', a, b, c, e', e, f, g⟩

def rounds : List Nat → List Nat → State → State
  | k :: ks, w :: ws, st => rounds ks ws (round st k w)
  | _, _, st => st

/-- The big-endian words of a block. -/
def words : Nat → Bytes → List Nat
  | 0, _ => []
  | n + 1, block => strict (beNat (block.take 4)) fun w => w :: words n (block.drop 4)

def compress (st : State) (block : Bytes) : State :=
  match st, rounds k32 (schedule 48 (words 16 block)) st with
  | ⟨a, b, c, d, e, f, g, h⟩, ⟨a', b', c', d', e', f', g', h'⟩ =>
    ⟨add a a', add b b', add c c', add d d', add e e', add f f', add g g', add h h'⟩

/-- One `0x80`, zeros, and the length in bits, up to a whole number of blocks. -/
def pad (msg : Bytes) : Bytes :=
  msg ++ 0x80 :: List.replicate ((119 - msg.length % 64) % 64) 0 ++ beBytes 8 (8 * msg.length)

def compressBlocks : Nat → State → Bytes → State
  | 0, st, _ => st
  | n + 1, st, data => compressBlocks n (compress st (data.take 64)) (data.drop 64)

def State.digest : State → Bytes
  | ⟨a, b, c, d, e, f, g, h⟩ =>
    beBytes 4 a ++ beBytes 4 b ++ beBytes 4 c ++ beBytes 4 d
      ++ beBytes 4 e ++ beBytes 4 f ++ beBytes 4 g ++ beBytes 4 h

end Sha256

open Sha256 in
/-- `Sha256::digest`. -/
def sha256 (msg : Bytes) : Bytes :=
  (compressBlocks ((pad msg).length / 64) initial (pad msg)).digest

namespace Sha256

theorem digest_length (st : State) : st.digest.length = 32 := by
  simp [State.digest]

end Sha256

@[simp] theorem sha256_length (msg : Bytes) : (sha256 msg).length = 32 := Sha256.digest_length _

/-- The digest of `abc`, from FIPS 180-4. -/
example : sha256 [0x61, 0x62, 0x63] =
    [0xba, 0x78, 0x16, 0xbf, 0x8f, 0x01, 0xcf, 0xea, 0x41, 0x41, 0x40, 0xde, 0x5d, 0xae, 0x22, 0x23,
     0xb0, 0x03, 0x61, 0xa3, 0x96, 0x17, 0x7a, 0x9c, 0xb4, 0x10, 0xff, 0x61, 0xf2, 0x00, 0x15, 0xad] := by
  decide +kernel

end PhiCrypto
