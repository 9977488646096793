import Mathlib.Data.Nat.Bitwise
import PhiCrypto.ByteLanes

/-!
# Scanning JSON strings

`SliceRead::skip_to_escape` of `serde_json` looks for the end of a run of ordinary
characters, a word at a time. A chunk is marked where it holds a control character, a
quotation mark or a backslash, and the lowest mark is where the run ends; marks above it may
be wrong. The search stops where a search byte by byte stops, whatever the size of a word.
-/

namespace PhiCrypto

namespace SerdeJson

open ByteLanes

/-! ### The model -/

/-- `is_escape`, control characters included. -/
def isEscape (ch : UInt8) : Bool := ch == 0x22 || ch == 0x5c || decide (ch < 0x20)

/-- `skip_to_escape_slow`. -/
def skipToEscapeSlow : Bytes → Bytes
  | [] => []
  | ch :: rest => if isEscape ch then ch :: rest else skipToEscapeSlow rest

/-- The marks of a chunk of `step` bytes. -/
def chunkMask (step : Nat) (chunk : Bytes) : Nat :=
  let chars := leNat chunk
  let containsCtrl := wrappingSub step chars (oneBytes step * 0x20) &&& complement step chars
  let charsQuote := chars ^^^ (oneBytes step * 0x22)
  let containsQuote := wrappingSub step charsQuote (oneBytes step) &&& complement step charsQuote
  let charsBackslash := chars ^^^ (oneBytes step * 0x5c)
  let containsBackslash :=
    wrappingSub step charsBackslash (oneBytes step) &&& complement step charsBackslash
  (containsCtrl ||| containsQuote ||| containsBackslash) &&& (oneBytes step <<< 7)

/-- The loop over `chunks_exact`, and what comes behind it. -/
def skipChunks (step : Nat) : Nat → Bytes → Bytes
  | 0, rest => skipToEscapeSlow rest
  | fuel + 1, rest =>
    if rest.length < step then skipToEscapeSlow rest
    else
      let masked := chunkMask step (rest.take step)
      if masked ≠ 0 then rest.drop (trailingZeros (8 * step) masked / 8)
      else skipChunks step fuel (rest.drop step)

/-- `skip_to_escape(true)`, on words of `step` bytes. -/
def skipToEscape (step : Nat) : Bytes → Bytes
  | [] => []
  | ch :: rest => if isEscape ch then ch :: rest else skipChunks step rest.length rest

/-! ### One chunk -/

theorem isEscape_iff (ch : UInt8) :
    isEscape ch = true ↔ ch.toNat < 0x20 ∨ ch.toNat = 0x22 ∨ ch.toNat = 0x5c := by
  simp only [isEscape, Bool.or_eq_true, beq_iff_eq, decide_eq_true_eq, UInt8.lt_iff_toNat_lt,
    ← UInt8.toNat_inj]
  change (ch.toNat = 0x22 ∨ ch.toNat = 0x5c) ∨ ch.toNat < 0x20 ↔ _
  omega

/-- The three searches of a chunk are marks of small bytes. -/
theorem chunkMask_eq (step : Nat) (chunk : Bytes) :
    chunkMask step chunk
      = (mark step 0x20 (leNat chunk) &&& topBits step) |||
        (mark step 1 (leNat chunk ^^^ (oneBytes step * 0x22)) &&& topBits step) |||
        (mark step 1 (leNat chunk ^^^ (oneBytes step * 0x5c)) &&& topBits step) := by
  simp only [chunkMask, mark, topBits, Nat.mul_one, Nat.and_or_distrib_right]

section Lane

variable {n b k q x : Nat}

theorem mark_mod (hb : b < 256) (hk : k ≤ 128) (hx : x < 256 ^ n) :
    (mark (n + 1) k (b + 256 * x) &&& topBits (n + 1)) % 256 = if b < k then 128 else 0 := by
  split
  next hlt => exact mark_mod_of_lt hlt hk hx
  next hle =>
    rw [mark_lanes_of_le hb hk (by omega) hx]
    omega

/-- A difference that is zero in one byte, seen in a whole word. -/
theorem xor_oneBytes (hb : b < 256) (hq : q < 256) :
    (b + 256 * x) ^^^ (oneBytes (n + 1) * q) = (b ^^^ q) + 256 * (x ^^^ (oneBytes n * q)) := by
  rw [oneBytes_succ, Nat.add_mul, Nat.one_mul, Nat.mul_assoc, xor_lanes hb hq]

theorem xor_lt_word (hq : q ≤ 128) (hx : x < 256 ^ n) : x ^^^ (oneBytes n * q) < 256 ^ n := by
  have hy := oneBytes_mul_le (n := n) hq
  rw [show (256 : Nat) = 2 ^ 8 from rfl, ← pow_mul] at *
  exact Nat.xor_lt_two_pow hx hy

end Lane

variable {ch : UInt8} {chunk : Bytes}

theorem leNat_lt_word (chunk : Bytes) : leNat chunk < 256 ^ chunk.length := leNat_lt chunk

theorem chunkMask_of_not_escape (h : isEscape ch = false) :
    chunkMask (chunk.length + 1) (ch :: chunk) = 256 * chunkMask chunk.length chunk := by
  have hb : ch.toNat < 256 := ch.toNat_lt
  have hx := leNat_lt_word chunk
  have hplain : ¬ (ch.toNat < 0x20 ∨ ch.toNat = 0x22 ∨ ch.toNat = 0x5c) := by
    rw [← isEscape_iff, h]
    exact Bool.false_ne_true
  have hmark : ∀ q ≤ 128, ch.toNat ≠ q →
      mark (chunk.length + 1) 1 (leNat (ch :: chunk) ^^^ (oneBytes (chunk.length + 1) * q))
          &&& topBits (chunk.length + 1)
        = 256 * (mark chunk.length 1 (leNat chunk ^^^ (oneBytes chunk.length * q))
          &&& topBits chunk.length) := by
    intro q hq hne
    have hxor : ch.toNat ^^^ q < 256 := Nat.xor_lt_two_pow (n := 8) hb (by omega)
    have hpos : 1 ≤ ch.toNat ^^^ q := Nat.one_le_iff_ne_zero.mpr (Nat.xor_ne_zero_iff.mpr hne)
    rw [leNat, xor_oneBytes hb (by omega), mark_lanes_of_le hxor (by decide) hpos (xor_lt_word hq hx)]
  have hctrl := mark_lanes_of_le (k := 0x20) hb (by decide) (by omega) hx
  have hor : ∀ u v : Nat, 256 * u ||| 256 * v = 256 * (u ||| v) := by
    intro u v
    have h := or_lanes (r := 0) (s := 0) (x := u) (y := v) (by decide) (by decide)
    simpa using h
  rw [chunkMask_eq, chunkMask_eq, leNat, hctrl, ← leNat, hmark 0x22 (by decide) (by omega),
    hmark 0x5c (by decide) (by omega), hor, hor]

theorem chunkMask_of_escape (h : isEscape ch = true) :
    chunkMask (chunk.length + 1) (ch :: chunk) % 256 = 128 := by
  have hb : ch.toNat < 256 := ch.toNat_lt
  have hx := leNat_lt_word chunk
  have hmark : ∀ q ≤ 128,
      (mark (chunk.length + 1) 1 (leNat (ch :: chunk) ^^^ (oneBytes (chunk.length + 1) * q))
          &&& topBits (chunk.length + 1)) % 256
        = if ch.toNat = q then 128 else 0 := by
    intro q hq
    have hxor : ch.toNat ^^^ q < 256 := Nat.xor_lt_two_pow (n := 8) hb (by omega)
    rw [leNat, xor_oneBytes hb (by omega), mark_mod hxor (by decide) (xor_lt_word hq hx)]
    simp only [Nat.lt_one_iff, Nat.xor_eq_zero_iff]
  have hor : ∀ u v : Nat, (u ||| v) % 256 = (u % 256) ||| (v % 256) := fun u v =>
    Nat.or_mod_two_pow (n := 8)
  rw [chunkMask_eq, hor, hor, hmark 0x22 (by decide), hmark 0x5c (by decide), leNat,
    mark_mod hb (by decide) hx]
  rcases (isEscape_iff ch).mp h with hctrl | hquote | hbackslash
  · rw [if_pos hctrl]
    split <;> split <;> rfl
  · rw [if_pos hquote]
    split <;> split <;> rfl
  · rw [if_pos hbackslash]
    split <;> split <;> rfl

/-- A chunk without marks is passed over, and the lowest mark of any other chunk is where
    the slow search stops. -/
theorem chunkMask_spec (more : Bytes) :
    ∀ chunk : Bytes,
      (chunkMask chunk.length chunk = 0 →
        skipToEscapeSlow (chunk ++ more) = skipToEscapeSlow more) ∧
      (chunkMask chunk.length chunk ≠ 0 →
        (chunk ++ more).drop (trailingZeros (8 * chunk.length) (chunkMask chunk.length chunk) / 8)
          = skipToEscapeSlow (chunk ++ more)) := by
  intro chunk
  induction chunk with
  | nil => exact ⟨fun _ => rfl, fun h => absurd rfl h⟩
  | cons ch chunk ih =>
    rw [List.length_cons, Nat.mul_succ, List.cons_append, skipToEscapeSlow]
    cases hescape : isEscape ch with
    | true =>
      have hmask : chunkMask (chunk.length + 1) (ch :: chunk) % 256 = 128 :=
        chunkMask_of_escape hescape
      refine ⟨fun hzero => absurd hmask (by rw [hzero]; decide), fun _ => ?_⟩
      rw [trailingZeros_of_mod hmask]
      rfl
    | false =>
      rw [chunkMask_of_not_escape hescape, trailingZeros_lanes, Nat.add_div_right _ (by decide)]
      constructor
      · intro hzero
        exact ih.1 (by omega)
      · intro hne
        exact ih.2 (by omega)

/-! ### The whole search -/

theorem skipChunks_eq {step : Nat} :
    ∀ (fuel : Nat) (rest : Bytes), skipChunks step fuel rest = skipToEscapeSlow rest := by
  intro fuel
  induction fuel with
  | zero => exact fun _ => rfl
  | succ fuel ih =>
    intro rest
    rw [skipChunks]
    split
    next => rfl
    next hlen =>
      have htake : (rest.take step).length = step := by
        rw [List.length_take]
        omega
      obtain ⟨hpassed, hfound⟩ := chunkMask_spec (rest.drop step) (rest.take step)
      rw [htake, List.take_append_drop] at hpassed hfound
      dsimp only
      split
      next hmarked => exact hfound hmarked
      next hzero => rw [ih, hpassed (not_not.mp hzero)]

/-- The search by words stops where the byte-by-byte search does. -/
theorem skipToEscape_eq_slow (step : Nat) (s : Bytes) :
    skipToEscape step s = skipToEscapeSlow s := by
  cases s with
  | nil => rfl
  | cons ch rest => rw [skipToEscape, skipToEscapeSlow, skipChunks_eq]

theorem skipToEscapeSlow_split (s : Bytes) :
    ∃ passed, s = passed ++ skipToEscapeSlow s ∧ (∀ b ∈ passed, isEscape b = false) ∧
      ∀ b ∈ (skipToEscapeSlow s).head?, isEscape b = true := by
  induction s with
  | nil => exact ⟨[], rfl, fun _ h => (by cases h), fun _ h => (by cases h)⟩
  | cons ch rest ih =>
    rw [skipToEscapeSlow]
    cases hescape : isEscape ch with
    | true =>
      refine ⟨[], rfl, fun _ h => (by cases h), fun b hb => ?_⟩
      cases hb
      exact hescape
    | false =>
      obtain ⟨passed, hsplit, hpassed, hfound⟩ := ih
      refine ⟨ch :: passed, congrArg (ch :: ·) hsplit, fun b hb => ?_, hfound⟩
      rcases List.mem_cons.mp hb with rfl | hb
      · exact hescape
      · exact hpassed b hb

/-- **Search by words.** For every width of a word, nothing that the search passes over is
    an escape, and it stops at one or at the end of the text. -/
theorem escape_search (step : Nat) (s : Bytes) :
    ∃ passed, s = passed ++ skipToEscape step s ∧ (∀ b ∈ passed, isEscape b = false) ∧
      ∀ b ∈ (skipToEscape step s).head?, isEscape b = true := by
  rw [skipToEscape_eq_slow]
  exact skipToEscapeSlow_split s

end SerdeJson

end PhiCrypto
