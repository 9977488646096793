import PhiCrypto.PrefixDecoder
import PhiCrypto.Suite

/-!
# The wire reader

Both proof formats are read by the same cursor, `Reader`, and both end in the
same counted loop over revealed claims. `Reader` is modelled as it is written:
a buffer, a position, `checked_add`, and slices that would panic out of range.

Beside it stands the format itself, as decoders that consume a prefix
(`Wire.u32`, `Wire.bytes`, `Wire.revealed`). The format is canonical, and the
cursor follows it (`Reader.Follows`): it never panics, it accepts only what the
format accepts, and on any buffer that fits a 64-bit address space it reports
the same errors.
-/

namespace PhiCrypto

open Exec

def truncated : CryptoError := .invalidInput "truncated"

/-- The error of an index that does not exceed the one before it. -/
def notIncreasing : CryptoError := .invalidInput "revealed indices must be strictly increasing"

/-- `Reader`: a buffer and a position in it. -/
structure Reader where
  b : Bytes
  pos : Nat

/-- A `Result` that needs no further computation. -/
def ofExcept {α : Type} (x : Except CryptoError α) : RustResult α := ExceptT.mk (pure x)

theorem meets_ofExcept_bind {α β : Type} {P : Event → Prop} {T : Except CryptoError β → Prop}
    {x : Except CryptoError α} {f : α → RustResult β}
    (hok : ∀ a, x = .ok a → MeetsResult P T (f a)) (herr : ∀ k, x = .error k → T (.error k)) :
    MeetsResult P T (ofExcept x >>= f) := by
  refine MeetsResult.bind (S := (· = x)) (meetsResult_ofExcept rfl) ?_ ?_
  · intro a ha
    exact hok a ha.symm
  · intro k hk
    exact herr k hk.symm

namespace Reader

/-- The next `n` bytes: what `Reader::u32` and `Reader::bytes` both do once they
    know how many they want. -/
def advance (r : Reader) (n : Nat) : RustResult (Bytes × Reader) :=
  match checkedAdd r.pos n with
  | none => throw truncated
  | some stop => do
    rejectIf (stop > r.b.length) truncated
    let v ← liftM (sliceAt r.b r.pos stop : Exec Event Bytes)
    pure (v, { r with pos := stop })

def u32 (r : Reader) : RustResult (UInt32 × Reader) := do
  let (chunk, r) ← r.advance 4
  pure (UInt32.ofNat (beNat chunk), r)

def bytes (r : Reader) : RustResult (Bytes × Reader) := do
  let (len, r) ← r.u32
  r.advance len.toNat

end Reader

/-- The decoding loop over revealed claims, for `n` entries still to come. The
    formats differ only in what they `check` of an index before comparing it
    with the previous one. -/
def readRevealed (check : UInt32 → Except CryptoError Unit) :
    Nat → Option UInt32 → Reader → RustResult (List (UInt32 × Bytes) × Reader)
  | 0, _, r => pure ([], r)
  | n + 1, prev, r => do
    let (idx, r) ← r.u32
    ofExcept (check idx)
    rejectIf (prev.any (idx ≤ ·)) notIncreasing
    let (claim, r) ← r.bytes
    let (rest, r) ← readRevealed check n (some idx) r
    pure ((idx, claim) :: rest, r)

/-! ### The format -/

namespace Wire

def u32 : Decoder CryptoError UInt32 := do
  let b ← Decoder.take 4 truncated
  pure (UInt32.ofNat (beNat b))

def bytes : Decoder CryptoError Bytes := do
  let len ← u32
  Decoder.take len.toNat truncated

/-- A check that reads nothing. -/
def guard (x : Except CryptoError Unit) : Decoder CryptoError Unit := fun s =>
  match x with
  | .ok () => .ok ((), s)
  | .error k => .error k

/-- `n` revealed claims whose indices pass `check` and increase from `prev` on. -/
def revealed (check : UInt32 → Except CryptoError Unit) :
    Nat → Option UInt32 → Decoder CryptoError (List (UInt32 × Bytes))
  | 0, _ => pure []
  | n + 1, prev => do
    let idx ← u32
    guard (check idx)
    rejectIf (prev.any (idx ≤ ·)) notIncreasing
    let claim ← bytes
    let rest ← revealed check n (some idx)
    pure ((idx, claim) :: rest)

def entryBytes (entry : UInt32 × Bytes) : Bytes :=
  beBytes 4 entry.1.toNat ++ frame 4 entry.2

/-- The revealed claims on the wire, one after another. -/
def revealedBytes (entries : List (UInt32 × Bytes)) : Bytes :=
  (entries.map entryBytes).flatten

@[simp] theorem revealedBytes_cons (entry : UInt32 × Bytes) (entries : List (UInt32 × Bytes)) :
    revealedBytes (entry :: entries) = entryBytes entry ++ revealedBytes entries := by
  simp [revealedBytes]

theorem revealedBytes_length_le {entries : List (UInt32 × Bytes)}
    (hshort : ∀ entry ∈ entries, entry.2.length < 2 ^ 32) :
    (revealedBytes entries).length ≤ entries.length * (2 ^ 32 + 8) := by
  induction entries with
  | nil => simp [revealedBytes]
  | cons entry entries ih =>
    have hhead := hshort entry List.mem_cons_self
    have htail := ih fun e he => hshort e (List.mem_cons_of_mem _ he)
    simp only [revealedBytes_cons, entryBytes, List.length_append, beBytes_length, frame_length,
      List.length_cons]
    omega

/-- The entries that the loop accepts when `prev` was the index before them. -/
structure WellFormed (check : UInt32 → Except CryptoError Unit) (n : Nat) (prev : Option UInt32)
    (entries : List (UInt32 × Bytes)) : Prop where
  length_eq : entries.length = n
  after_prev : ∀ p ∈ prev, ∀ entry ∈ entries, p < entry.1
  increasing : (entries.map Prod.fst).Pairwise (· < ·)
  checked : ∀ entry ∈ entries, check entry.1 = .ok ()
  short : ∀ entry ∈ entries, entry.2.length < 2 ^ 32

variable {check : UInt32 → Except CryptoError Unit}

theorem WellFormed.cons_iff {n : Nat} {prev : Option UInt32} {idx : UInt32} {claim : Bytes}
    {rest : List (UInt32 × Bytes)} :
    WellFormed check (n + 1) prev ((idx, claim) :: rest) ↔
      check idx = .ok () ∧ prev.any (idx ≤ ·) = false ∧ claim.length < 2 ^ 32 ∧
        WellFormed check n (some idx) rest := by
  have hprev : prev.any (idx ≤ ·) = false ↔ ∀ p ∈ prev, p < idx := by
    cases prev <;> simp
  rw [hprev]
  constructor
  · rintro ⟨hlen, hafter, hinc, hcheck, hshort⟩
    simp only [List.map_cons, List.pairwise_cons, List.mem_map] at hinc
    have hmem : (idx, claim) ∈ (idx, claim) :: rest := List.mem_cons_self
    refine ⟨hcheck _ hmem, fun p hp => hafter p hp _ hmem, hshort _ hmem, ?_⟩
    refine ⟨by simpa using hlen, ?_, hinc.2, fun e he => hcheck e (by simp [he]),
      fun e he => hshort e (by simp [he])⟩
    intro p hp e he
    cases hp
    exact hinc.1 e.1 ⟨e, he, rfl⟩
  · rintro ⟨hcheck, hlast, hclaim, hrest⟩
    refine ⟨by simp [hrest.length_eq], ?_, ?_, ?_, ?_⟩
    · intro p hp e he
      rcases List.mem_cons.mp he with rfl | hmem
      · exact hlast p hp
      · exact UInt32.lt_trans (hlast p hp) (hrest.after_prev idx rfl e hmem)
    · simp only [List.map_cons, List.pairwise_cons, List.mem_map]
      refine ⟨?_, hrest.increasing⟩
      rintro i ⟨e, he, rfl⟩
      exact hrest.after_prev idx rfl e he
    · intro e he
      rcases List.mem_cons.mp he with rfl | hmem
      · exact hcheck
      · exact hrest.checked e hmem
    · intro e he
      rcases List.mem_cons.mp he with rfl | hmem
      · exact hclaim
      · exact hrest.short e hmem

theorem wellFormed_nil (check : UInt32 → Except CryptoError Unit) (prev : Option UInt32) :
    WellFormed check 0 prev [] :=
  ⟨rfl, by simp, by simp, by simp, by simp⟩

/-! ### The format is canonical -/

theorem canonical_u32 :
    Decoder.Canonical u32 (fun v => beBytes 4 v.toNat) (fun _ => True) where
  complete := by
    intro v s _
    have hread := Decoder.take_append truncated (beBytes_length 4 v.toNat) s
    have hlt : v.toNat < 256 ^ 4 := v.toNat_lt
    rw [u32, Decoder.bind_ok hread, Decoder.pure_apply, beNat_beBytes hlt, UInt32.ofNat_toNat]
  sound := by
    intro s t v h
    rw [u32, Decoder.bind_eq_ok_iff] at h
    rcases h with ⟨b, u, hread, h⟩
    cases h
    obtain ⟨hlen, rfl⟩ := Decoder.take_sound hread
    have hlt := beNat_lt b
    have hback := beBytes_beNat b
    rw [hlen] at hlt hback
    refine ⟨trivial, ?_⟩
    rw [UInt32.toNat_ofNat', Nat.mod_eq_of_lt (by omega), hback]

theorem canonical_bytes : Decoder.Canonical bytes (frame 4) (·.length < 2 ^ 32) where
  complete := by
    intro b s hlen
    have hval : (UInt32.ofNat b.length).toNat = b.length := by
      rw [UInt32.toNat_ofNat', Nat.mod_eq_of_lt hlen]
    have hread := canonical_u32.complete (a := UInt32.ofNat b.length) (b ++ s) trivial
    rw [hval] at hread
    rw [frame, List.append_assoc, bytes, Decoder.bind_ok hread, hval]
    exact Decoder.take_append truncated rfl s
  sound := by
    intro s t b h
    rw [bytes, Decoder.bind_eq_ok_iff] at h
    rcases h with ⟨len, u, hread, h⟩
    obtain ⟨-, rfl⟩ := canonical_u32.sound hread
    obtain ⟨hlen, rfl⟩ := Decoder.take_sound h
    rw [frame, hlen, List.append_assoc]
    exact ⟨len.toNat_lt, rfl⟩

theorem guard_bind_apply {β : Type} (x : Except CryptoError Unit)
    (f : Unit → Decoder CryptoError β) (s : Bytes) :
    (guard x >>= f) s = match x with
      | .ok () => f () s
      | .error k => .error k := by
  rw [Decoder.bind_apply]
  cases x <;> rfl

/-- The loop over revealed claims accepts exactly the encodings of well-formed
    lists. -/
theorem canonical_revealed (check : UInt32 → Except CryptoError Unit) (n : Nat) :
    ∀ prev, Decoder.Canonical (revealed check n prev) revealedBytes (WellFormed check n prev) := by
  induction n with
  | zero =>
    intro prev
    constructor
    · intro entries s hwf
      obtain rfl := List.length_eq_zero_iff.mp hwf.length_eq
      exact Decoder.pure_apply [] s
    · intro s t entries h
      cases h
      exact ⟨wellFormed_nil check prev, rfl⟩
  | succ n ih =>
    intro prev
    constructor
    · intro entries s hwf
      obtain ⟨⟨idx, claim⟩, rest, rfl⟩ := List.exists_cons_of_length_eq_add_one hwf.length_eq
      obtain ⟨hcheck, hlast, hclaim, hrest⟩ := WellFormed.cons_iff.mp hwf
      simp only [revealedBytes_cons, entryBytes, List.append_assoc]
      rw [revealed, Decoder.bind_ok (canonical_u32.complete _ trivial), guard_bind_apply, hcheck]
      dsimp only
      rw [Decoder.rejectIf_bind_apply, if_neg (by simp [hlast]),
        Decoder.bind_ok (canonical_bytes.complete _ hclaim),
        Decoder.bind_ok ((ih (some idx)).complete s hrest), Decoder.pure_apply]
    · intro s t entries h
      rw [revealed, Decoder.bind_eq_ok_iff] at h
      rcases h with ⟨idx, u, hidx, h⟩
      obtain ⟨-, rfl⟩ := canonical_u32.sound hidx
      rw [guard_bind_apply] at h
      cases hcheck : check idx with
      | error k => rw [hcheck] at h; cases h
      | ok _ =>
        rw [hcheck] at h
        dsimp only at h
        rw [Decoder.rejectIf_bind_eq_ok_iff] at h
        obtain ⟨hlast, h⟩ := h
        rw [Decoder.bind_eq_ok_iff] at h
        rcases h with ⟨claim, v, hclaim, h⟩
        rw [Decoder.bind_eq_ok_iff] at h
        rcases h with ⟨rest, w, hrest, h⟩
        cases h
        obtain ⟨hshort, rfl⟩ := canonical_bytes.sound hclaim
        obtain ⟨hwf, rfl⟩ := (ih (some idx)).sound hrest
        refine ⟨WellFormed.cons_iff.mpr ⟨hcheck, by simpa using hlast, hshort, hwf⟩, ?_⟩
        simp [entryBytes]

end Wire

/-! ### The cursor follows the format -/

namespace Reader

variable {α β : Type} {P : Event → Prop}

def rest (r : Reader) : Bytes := r.b.drop r.pos

/-- A read from `r` ends as the format prescribes (`out`): with the same value
    and the cursor moved to the same place, or with the same error. Only on a
    buffer too long for the address space may it fail where the format does
    not. -/
def Follows (r : Reader) (out : Except CryptoError (α × Bytes)) :
    Except CryptoError (α × Reader) → Prop
  | .ok (v, r') => r'.b = r.b ∧ r'.pos ≤ r'.b.length ∧ out = .ok (v, r'.rest)
  | .error k => r.b.length < 2 ^ 64 → out = .error k

/-- The outcome of a whole decoding is the one the format prescribes. -/
def Agrees (b : Bytes) (out : Except CryptoError α) : Except CryptoError α → Prop
  | .ok v => out = .ok v
  | .error k => b.length < 2 ^ 64 → out = .error k

theorem meets_advance {r : Reader} (hpos : r.pos ≤ r.b.length) (n : Nat) :
    MeetsResult P (r.Follows (Decoder.take n truncated r.rest)) (r.advance n) := by
  have hrest : r.rest.length = r.b.length - r.pos := List.length_drop
  unfold advance checkedAdd
  by_cases hadd : r.pos + n < 2 ^ 64
  · rw [if_pos hadd]
    refine MeetsResult.rejectIf_bind ?_ ?_
    · intro hbad _
      rw [Decoder.take, if_neg (by omega)]
    · intro hok
      have hbounds : r.pos ≤ r.pos + n ∧ r.pos + n ≤ r.b.length := ⟨by omega, by omega⟩
      apply MeetsResult.lift_bind (meets_sliceAt hbounds)
      rintro v rfl
      refine meetsResult_pure ⟨rfl, by simpa using hok, ?_⟩
      rw [Decoder.take, if_pos (by omega), rest, rest, List.drop_drop,
        List.drop_take, Nat.add_sub_cancel_left]
  · rw [if_neg hadd]
    apply meetsResult_throw
    intro hlen
    rw [Decoder.take, if_neg (by omega)]

/-- One step of a decoder, with a cursor at both ends. -/
theorem follows_bind {r : Reader} {d : Decoder CryptoError α} {f : α → Decoder CryptoError β}
    {x : RustResult (α × Reader)} {g : α × Reader → RustResult (β × Reader)}
    (hx : MeetsResult P (r.Follows (d r.rest)) x)
    (hg : ∀ v r', r'.pos ≤ r'.b.length → d r.rest = .ok (v, r'.rest) →
      MeetsResult P (r'.Follows (f v r'.rest)) (g (v, r'))) :
    MeetsResult P (r.Follows ((d >>= f) r.rest)) (x >>= g) := by
  refine MeetsResult.bind hx ?_ ?_
  · rintro ⟨v, r'⟩ ⟨hb, hpos, hd⟩
    rw [Decoder.bind_ok hd]
    apply (hg v r' hpos hd).post
    rintro (k | ⟨w, r''⟩) hres
    · intro hlen
      exact hres (by rwa [hb])
    · exact ⟨hres.1.trans hb, hres.2⟩
  · intro k hk hlen
    rw [Decoder.bind_error (hk hlen)]

theorem agrees_bind {r : Reader} {trailing : CryptoError} {d : Decoder CryptoError α}
    {f : α → Decoder CryptoError β} {x : RustResult (α × Reader)}
    {g : α × Reader → RustResult β}
    (hx : MeetsResult P (r.Follows (d r.rest)) x)
    (hg : ∀ v r', r'.b = r.b → r'.pos ≤ r'.b.length → d r.rest = .ok (v, r'.rest) →
      MeetsResult P (Agrees r'.b (Decoder.runAll (f v) trailing r'.rest)) (g (v, r'))) :
    MeetsResult P (Agrees r.b (Decoder.runAll (d >>= f) trailing r.rest)) (x >>= g) := by
  refine MeetsResult.bind hx ?_ ?_
  · rintro ⟨v, r'⟩ ⟨hb, hpos, hd⟩
    rw [Decoder.runAll, Decoder.bind_ok hd, ← hb]
    exact hg v r' hb hpos hd
  · intro k hk hlen
    rw [Decoder.runAll, Decoder.bind_error (hk hlen)]

theorem agrees_rejectIf {b s : Bytes} {trailing k : CryptoError} {bad : Prop} [Decidable bad]
    {f : Unit → Decoder CryptoError β} {g : Unit → RustResult β}
    (hg : ¬ bad → MeetsResult P (Agrees b (Decoder.runAll (f ()) trailing s)) (g ())) :
    MeetsResult P (Agrees b (Decoder.runAll (rejectIf bad k >>= f) trailing s))
      (rejectIf bad k >>= g) := by
  rw [Decoder.runAll, Decoder.rejectIf_bind_apply]
  refine MeetsResult.rejectIf_bind (fun hbad _ => by rw [if_pos hbad]) ?_
  intro hok
  rw [if_neg hok]
  exact hg hok

theorem meets_u32 {r : Reader} (hpos : r.pos ≤ r.b.length) :
    MeetsResult P (r.Follows (Wire.u32 r.rest)) r.u32 := by
  apply follows_bind (meets_advance hpos 4)
  intro chunk r' hpos' _
  exact meetsResult_pure ⟨rfl, hpos', rfl⟩

theorem meets_bytes {r : Reader} (hpos : r.pos ≤ r.b.length) :
    MeetsResult P (r.Follows (Wire.bytes r.rest)) r.bytes := by
  apply follows_bind (meets_u32 hpos)
  intro len r' hpos' _
  exact meets_advance hpos' len.toNat

/-- The final test for trailing bytes: what the cursor reports is what
    `Decoder.runAll` reports. -/
theorem meets_finish {r : Reader} (hpos : r.pos ≤ r.b.length) (trailing : CryptoError) (v : α) :
    MeetsResult P (Agrees r.b (Decoder.runAll (pure v) trailing r.rest))
      (do rejectIf (r.pos ≠ r.b.length) trailing; pure v) := by
  have hrest : r.rest.isEmpty = true ↔ r.pos = r.b.length := by
    rw [List.isEmpty_iff, rest, List.drop_eq_nil_iff]
    omega
  rw [Decoder.runAll, Decoder.pure_apply]
  dsimp only
  refine MeetsResult.rejectIf_bind ?_ ?_
  · intro hne _
    rw [if_neg (fun h => hne (hrest.mp h))]
  · intro heq
    rw [if_pos (hrest.mpr (not_not.mp heq))]
    exact meetsResult_pure rfl

/-- A decoder that follows a canonical format accepts exactly the encodings of
    the well-formed values, provided these fit the address space. -/
theorem returns_iff_of_agrees {x : RustResult α} {format : Decoder CryptoError α}
    {trailing : CryptoError} {enc : α → Bytes} {wf : α → Prop} {b : Bytes}
    (hx : MeetsResult P (Agrees b (Decoder.runAll format trailing b)) x)
    (hcanon : Decoder.Canonical format enc wf) (hlen : ∀ a, wf a → (enc a).length < 2 ^ 64)
    (a : α) : x.run.Returns (.ok a) ↔ wf a ∧ b = enc a := by
  have hformat : Decoder.runAll format trailing b = .ok a ↔ wf a ∧ b = enc a := hcanon.runAll_iff
  rw [← hformat]
  constructor
  · intro hret
    exact Meets.of_returns hx hret
  · intro hformat
    obtain ⟨res, hret, hagrees⟩ := Meets.exists_returns hx
    cases res with
    | ok v =>
      have hv : (Except.ok v : Except CryptoError α) = .ok a := hagrees.symm.trans hformat
      rwa [hv] at hret
    | error k =>
      obtain ⟨hwf, rfl⟩ := hcanon.runAll_iff.mp hformat
      cases hformat.symm.trans (hagrees (hlen a hwf))

end Reader

theorem meets_readRevealed {P : Event → Prop} (check : UInt32 → Except CryptoError Unit)
    (n : Nat) : ∀ (prev : Option UInt32) {r : Reader}, r.pos ≤ r.b.length →
      MeetsResult P (r.Follows (Wire.revealed check n prev r.rest))
        (readRevealed check n prev r) := by
  induction n with
  | zero =>
    intro prev r hpos
    exact meetsResult_pure ⟨rfl, hpos, rfl⟩
  | succ n ih =>
    intro prev r hpos
    rw [readRevealed, Wire.revealed]
    apply Reader.follows_bind (Reader.meets_u32 hpos)
    intro idx r₁ hpos₁ _
    rw [Wire.guard_bind_apply]
    refine meets_ofExcept_bind ?_ ?_
    · intro _ hcheck
      rw [hcheck]
      dsimp only
      rw [Decoder.rejectIf_bind_apply]
      refine MeetsResult.rejectIf_bind (fun hbad _ => by rw [if_pos hbad]) ?_
      intro hok
      rw [if_neg hok]
      apply Reader.follows_bind (Reader.meets_bytes hpos₁)
      intro claim r₂ hpos₂ _
      apply Reader.follows_bind (ih (some idx) hpos₂)
      intro rest r₃ hpos₃ _
      exact meetsResult_pure ⟨rfl, hpos₃, rfl⟩
    · intro k hk _
      rw [hk]

end PhiCrypto
