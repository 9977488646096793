import PhiCrypto.Sha256

/-!
# SHA-512, HMAC and PBKDF2

The hash of FIPS 180-4 on words below `2 ^ 64`, with the round functions and the state of
`Sha256`, and the two constructions on it by which a phrase becomes a seed and a seed a key.
-/

namespace PhiCrypto

namespace Sha512

open Sha256 (State choose majority)

def add (x y : Nat) : Nat := (x + y) % 0x10000000000000000

def rotateRight (x n : Nat) : Nat := (x >>> n) ||| ((x <<< (64 - n)) % 0x10000000000000000)

def bigSigma0 (x : Nat) : Nat := rotateRight x 28 ^^^ rotateRight x 34 ^^^ rotateRight x 39

def bigSigma1 (x : Nat) : Nat := rotateRight x 14 ^^^ rotateRight x 18 ^^^ rotateRight x 41

def sigma0 (x : Nat) : Nat := rotateRight x 1 ^^^ rotateRight x 8 ^^^ (x >>> 7)

def sigma1 (x : Nat) : Nat := rotateRight x 19 ^^^ rotateRight x 61 ^^^ (x >>> 6)

/-- `K64`. -/
def k64 : List Nat :=
  [0x428a2f98d728ae22, 0x7137449123ef65cd, 0xb5c0fbcfec4d3b2f, 0xe9b5dba58189dbbc,
   0x3956c25bf348b538, 0x59f111f1b605d019, 0x923f82a4af194f9b, 0xab1c5ed5da6d8118,
   0xd807aa98a3030242, 0x12835b0145706fbe, 0x243185be4ee4b28c, 0x550c7dc3d5ffb4e2,
   0x72be5d74f27b896f, 0x80deb1fe3b1696b1, 0x9bdc06a725c71235, 0xc19bf174cf692694,
   0xe49b69c19ef14ad2, 0xefbe4786384f25e3, 0x0fc19dc68b8cd5b5, 0x240ca1cc77ac9c65,
   0x2de92c6f592b0275, 0x4a7484aa6ea6e483, 0x5cb0a9dcbd41fbd4, 0x76f988da831153b5,
   0x983e5152ee66dfab, 0xa831c66d2db43210, 0xb00327c898fb213f, 0xbf597fc7beef0ee4,
   0xc6e00bf33da88fc2, 0xd5a79147930aa725, 0x06ca6351e003826f, 0x142929670a0e6e70,
   0x27b70a8546d22ffc, 0x2e1b21385c26c926, 0x4d2c6dfc5ac42aed, 0x53380d139d95b3df,
   0x650a73548baf63de, 0x766a0abb3c77b2a8, 0x81c2c92e47edaee6, 0x92722c851482353b,
   0xa2bfe8a14cf10364, 0xa81a664bbc423001, 0xc24b8b70d0f89791, 0xc76c51a30654be30,
   0xd192e819d6ef5218, 0xd69906245565a910, 0xf40e35855771202a, 0x106aa07032bbd1b8,
   0x19a4c116b8d2d0c8, 0x1e376c085141ab53, 0x2748774cdf8eeb99, 0x34b0bcb5e19b48a8,
   0x391c0cb3c5c95a63, 0x4ed8aa4ae3418acb, 0x5b9cca4f7763e373, 0x682e6ff3d6b2b8a3,
   0x748f82ee5defb2fc, 0x78a5636f43172f60, 0x84c87814a1f0ab72, 0x8cc702081a6439ec,
   0x90befffa23631e28, 0xa4506cebde82bde9, 0xbef9a3f7b2c67915, 0xc67178f2e372532b,
   0xca273eceea26619c, 0xd186b8c721c0c207, 0xeada7dd6cde0eb1e, 0xf57d4f7fee6ed178,
   0x06f067aa72176fba, 0x0a637dc5a2c898a6, 0x113f9804bef90dae, 0x1b710b35131c471b,
   0x28db77f523047d84, 0x32caab7b40c72493, 0x3c9ebe0a15c9bebc, 0x431d67c49c100d4c,
   0x4cc5d4becb3e42b6, 0x597f299cfc657e2a, 0x5fcb6fab3ad6faec, 0x6c44198c4a475817]

/-- `H512_512`. -/
def initial : State :=
  ⟨0x6a09e667f3bcc908, 0xbb67ae8584caa73b, 0x3c6ef372fe94f82b, 0xa54ff53a5f1d36f1,
    0x510e527fade682d1, 0x9b05688c2b3e6c1f, 0x1f83d9abfb41bd6b, 0x5be0cd19137e2179⟩

/-- The message schedule from a window of sixteen words, `n` more words. -/
def schedule : Nat → List Nat → List Nat
  | n + 1, w :: window =>
    strict (add (add w (sigma0 (window.getD 0 0)))
        (add (window.getD 8 0) (sigma1 (window.getD 13 0)))) fun next =>
      w :: schedule n (window ++ [next])
  | _, window => window

def round : State → Nat → Nat → State
  | ⟨a, b, c, d, e, f, g, h⟩, k, w =>
    strict (add (add (bigSigma1 e) (choose e f g)) (add (add k w) h)) fun x =>
    strict (add x (add (bigSigma0 a) (majority a b c))) fun a' =>
    strict (add x d) fun e' =>
      ⟨a', a, b, c, e', e, f, g⟩

def rounds : List Nat → List Nat → State → State
  | k :: ks, w :: ws, st => rounds ks ws (round st k w)
  | _, _, st => st

/-- The big-endian words of a block. -/
def words : Nat → Bytes → List Nat
  | 0, _ => []
  | n + 1, block => strict (beNat (block.take 8)) fun w => w :: words n (block.drop 8)

def compress (st : State) (block : Bytes) : State :=
  match st, rounds k64 (schedule 64 (words 16 block)) st with
  | ⟨a, b, c, d, e, f, g, h⟩, ⟨a', b', c', d', e', f', g', h'⟩ =>
    ⟨add a a', add b b', add c c', add d d', add e e', add f f', add g g', add h h'⟩

/-- One `0x80`, zeros, and the length in bits, up to a whole number of blocks. -/
def pad (msg : Bytes) : Bytes :=
  msg ++ 0x80 :: List.replicate ((239 - msg.length % 128) % 128) 0 ++ beBytes 16 (8 * msg.length)

def compressBlocks : Nat → State → Bytes → State
  | 0, st, _ => st
  | n + 1, st, data => compressBlocks n (compress st (data.take 128)) (data.drop 128)

def digest : State → Bytes
  | ⟨a, b, c, d, e, f, g, h⟩ =>
    beBytes 8 a ++ beBytes 8 b ++ beBytes 8 c ++ beBytes 8 d
      ++ beBytes 8 e ++ beBytes 8 f ++ beBytes 8 g ++ beBytes 8 h

end Sha512

open Sha512 in
/-- `Sha512::digest`. -/
def sha512 (msg : Bytes) : Bytes :=
  digest (compressBlocks ((pad msg).length / 128) initial (pad msg))

@[simp] theorem sha512_length (msg : Bytes) : (sha512 msg).length = 64 := by
  simp [sha512, Sha512.digest]

/-! ### HMAC -/

/-- `get_der_key`: a key of one block, zeros behind it. -/
def getDerKey (key : Bytes) : Bytes :=
  let short := if key.length ≤ 128 then key else sha512 key
  short ++ List.replicate (128 - short.length) 0

/-- `Hmac<Sha512>`. -/
def hmacSha512 (key msg : Bytes) : Bytes :=
  let derKey := getDerKey key
  sha512 (derKey.map (· ^^^ 0x5c) ++ sha512 (derKey.map (· ^^^ 0x36) ++ msg))

@[simp] theorem hmacSha512_length (key msg : Bytes) : (hmacSha512 key msg).length = 64 :=
  sha512_length _

/-! ### PBKDF2 -/

/-- The loop of `pbkdf2_body`: each round hashes the last output and adds it to the block. -/
def pbkdf2Rounds (password : Bytes) : Nat → Bytes → Bytes → Bytes
  | 0, _, block => block
  | rounds + 1, last, block =>
    let next := hmacSha512 password last
    pbkdf2Rounds password rounds next (List.zipWith (· ^^^ ·) block next)

/-- `pbkdf2_hmac::<Sha512>` for one block of output. -/
def pbkdf2HmacSha512 (password salt : Bytes) (rounds : Nat) : Bytes :=
  let first := hmacSha512 password (salt ++ beBytes 4 1)
  pbkdf2Rounds password (rounds - 1) first first

theorem pbkdf2Rounds_length (password : Bytes) (rounds : Nat) {last block : Bytes}
    (hblock : block.length = 64) : (pbkdf2Rounds password rounds last block).length = 64 := by
  induction rounds generalizing last block with
  | zero => exact hblock
  | succ rounds ih =>
    apply ih
    rw [List.length_zipWith, hblock, hmacSha512_length, Nat.min_self]

@[simp] theorem pbkdf2HmacSha512_length (password salt : Bytes) (rounds : Nat) :
    (pbkdf2HmacSha512 password salt rounds).length = 64 :=
  pbkdf2Rounds_length password _ (hmacSha512_length _ _)

end PhiCrypto
