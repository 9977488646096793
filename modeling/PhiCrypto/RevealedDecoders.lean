import PhiCrypto.Ffi
import PhiCrypto.SmallSuite

/-!
# The revealed list on the wire

Three hand-written decoders read a list of revealed claims: `decode_revealed` of
the C ABI, `SelectiveProof::from_bytes` and `VoteProof::from_bytes`. They differ in
their cursors, in their bounds on the count and in the checks on an index. Here
`decode_revealed` is brought into the form of the other two: it accepts exactly
the encodings of increasing lists of at most 64 claims. What is left of the
difference are the index checks, since increasing indices below `message_count`
cannot be more than `message_count`.
-/

namespace PhiCrypto

open Exec

variable {S : Suite}

theorem usizeEntries_injective : Function.Injective usizeEntries := by
  apply List.map_injective_iff.mpr
  rintro ⟨idx, claim⟩ ⟨idx', claim'⟩ h
  simp only [Prod.mk.injEq, UInt32.toNat_inj] at h
  exact Prod.ext h.1 h.2

/-! ### Slices -/

section Slices

variable {b v t : Bytes} {lo hi : Nat}

theorem getRange_sound (h : getRange b lo hi = some v) :
    lo + v.length = hi ∧ hi ≤ b.length ∧ b.drop lo = v ++ b.drop hi := by
  unfold getRange at h
  split at h
  · next hle =>
    cases h
    have hlen : ((b.take hi).drop lo).length = hi - lo := by simp; omega
    refine ⟨by omega, hle.2, ?_⟩
    rw [List.drop_take]
    conv_lhs => rw [← List.take_append_drop (hi - lo) (b.drop lo)]
    rw [List.drop_drop, Nat.add_sub_cancel' hle.1]
  · cases h

theorem getRange_complete (hlo : lo ≤ b.length) (h : b.drop lo = v ++ t) :
    getRange b lo (lo + v.length) = some v := by
  have hlen := congrArg List.length h
  rw [List.length_drop, List.length_append] at hlen
  rw [getRange, if_pos ⟨by omega, by omega⟩, List.drop_take, h, Nat.add_sub_cancel_left,
    List.take_left]

theorem checkedAdd_sound {m n fin : Nat} (h : checkedAdd m n = some fin) : fin = m + n := by
  unfold checkedAdd at h
  split at h
  · exact (Option.some.inj h).symm
  · cases h

theorem u32At_sound {pos value fin : Nat} (h : u32At b pos = some (value, fin)) :
    ∃ x : UInt32, value = x.toNat ∧ fin = pos + 4 ∧ fin ≤ b.length ∧
      b.drop pos = beBytes 4 x.toNat ++ b.drop fin := by
  simp only [u32At, Option.bind_eq_bind, Option.bind_eq_some_iff] at h
  rcases h with ⟨fin', hfin, octets, hrange, h⟩
  cases h
  obtain rfl := checkedAdd_sound hfin
  obtain ⟨hlen, hle, hdrop⟩ := getRange_sound hrange
  have hfour : octets.length = 4 := by omega
  have hlt := beNat_lt octets
  have hback := beBytes_beNat octets
  rw [hfour] at hlt hback
  have hvalue : (UInt32.ofNat (beNat octets)).toNat = beNat octets := by
    rw [UInt32.toNat_ofNat', Nat.mod_eq_of_lt (by omega)]
  exact ⟨UInt32.ofNat (beNat octets), hvalue.symm, rfl, hle, by rw [hvalue, hback, hdrop]⟩

theorem u32At_complete {pos : Nat} {x : UInt32} (hpos : pos ≤ b.length) (hb : b.length < 2 ^ 64)
    (h : b.drop pos = beBytes 4 x.toNat ++ t) : u32At b pos = some (x.toNat, pos + 4) := by
  have hlen := congrArg List.length h
  rw [List.length_drop, List.length_append, beBytes_length] at hlen
  have hfin : checkedAdd pos 4 = some (pos + 4) := if_pos (by omega)
  have hrange := getRange_complete hpos h
  rw [beBytes_length] at hrange
  have hlt : x.toNat < 256 ^ 4 := x.toNat_lt
  simp [u32At, hfin, hrange, beNat_beBytes hlt]

end Slices

/-! ### The loop of `decode_revealed` -/

/-- No check on an index other than the order. -/
def anyIndex (_idx : UInt32) : Except CryptoError Unit := .ok ()

/-- What the loop accepts is the encoding of an increasing list. -/
theorem decodeRevealedEntries_sound (prev : Option UInt32) {b : Bytes} {n pos fin : Nat}
    {out : List (Nat × Bytes)}
    (h : decodeRevealedEntries b n (prev.map UInt32.toNat) pos = some (out, fin))
    (hpos : pos ≤ b.length) :
    ∃ entries, out = usizeEntries entries ∧ Wire.WellFormed anyIndex n prev entries ∧
      fin ≤ b.length ∧ b.drop pos = Wire.revealedBytes entries ++ b.drop fin := by
  induction n generalizing prev pos out with
  | zero =>
    cases h
    exact ⟨[], rfl, Wire.wellFormed_nil anyIndex prev, hpos, rfl⟩
  | succ n ih =>
    simp only [decodeRevealedEntries, Option.bind_eq_bind, Option.bind_eq_some_iff] at h
    rcases h with ⟨⟨index, pos₁⟩, hindex, h⟩
    obtain ⟨idx, rfl, rfl, hle₁, hdrop₁⟩ := u32At_sound hindex
    split at h
    · cases h
    next hprev =>
    simp only [Option.bind_eq_some_iff] at h
    rcases h with ⟨⟨len, pos₂⟩, hlen, next, hnext, claim, hclaim, ⟨rest, pos₃⟩, hrest, h⟩
    cases h
    obtain ⟨len, rfl, rfl, hle₂, hdrop₂⟩ := u32At_sound hlen
    obtain rfl := checkedAdd_sound hnext
    obtain ⟨hclaimLen, hle₃, hdrop₃⟩ := getRange_sound hclaim
    obtain ⟨entries, rfl, hwf, hfin, hdrop₄⟩ := ih (some idx) hrest hle₃
    have hcount : len.toNat = claim.length := by omega
    have hlast : prev.any (idx ≤ ·) = false := by
      cases prev with
      | none => rfl
      | some p =>
        have hlt : ¬ idx.toNat ≤ p.toNat := fun hge => hprev ⟨p.toNat, rfl, hge⟩
        simpa [UInt32.le_iff_toNat_le] using hlt
    refine ⟨(idx, claim) :: entries, rfl,
      Wire.WellFormed.cons_iff.mpr ⟨rfl, hlast, hcount ▸ len.toNat_lt, hwf⟩, hfin, ?_⟩
    rw [hdrop₁, hdrop₂, hdrop₃, hdrop₄, hcount, Wire.revealedBytes_cons, Wire.entryBytes, frame]
    simp only [List.append_assoc]

/-- Every such encoding is accepted, wherever it stands in the buffer. -/
theorem decodeRevealedEntries_complete {b t : Bytes} (hb : b.length < 2 ^ 64) {n : Nat}
    {prev : Option UInt32} {pos : Nat} {entries : List (UInt32 × Bytes)}
    (hwf : Wire.WellFormed anyIndex n prev entries) (hpos : pos ≤ b.length)
    (h : b.drop pos = Wire.revealedBytes entries ++ t) :
    decodeRevealedEntries b n (prev.map UInt32.toNat) pos
      = some (usizeEntries entries, b.length - t.length) := by
  induction n generalizing prev pos entries with
  | zero =>
    obtain rfl := List.length_eq_zero_iff.mp hwf.length_eq
    have hlen := congrArg List.length h
    simp only [Wire.revealedBytes, List.map_nil, List.flatten_nil, List.nil_append,
      List.length_drop] at hlen
    rw [decodeRevealedEntries, ← hlen, Nat.sub_sub_self hpos]
    rfl
  | succ n ih =>
    obtain ⟨⟨idx, claim⟩, rest, rfl⟩ := List.exists_cons_of_length_eq_add_one hwf.length_eq
    obtain ⟨-, hlast, hshort, hrest⟩ := Wire.WellFormed.cons_iff.mp hwf
    have hlen : (UInt32.ofNat claim.length).toNat = claim.length := by
      rw [UInt32.toNat_ofNat', Nat.mod_eq_of_lt hshort]
    simp only [Wire.revealedBytes_cons, Wire.entryBytes, frame, List.append_assoc] at h
    have htotal := congrArg List.length h
    simp only [List.length_drop, List.length_append, beBytes_length] at htotal
    have hdrop₁ : b.drop (pos + 4)
        = beBytes 4 (UInt32.ofNat claim.length).toNat
          ++ (claim ++ (Wire.revealedBytes rest ++ t)) := by
      rw [← List.drop_drop, h, hlen, List.drop_left' (beBytes_length 4 _)]
    have hdrop₂ : b.drop (pos + 4 + 4) = claim ++ (Wire.revealedBytes rest ++ t) := by
      rw [← List.drop_drop, hdrop₁, List.drop_left' (beBytes_length 4 _)]
    have hdrop₃ : b.drop (pos + 4 + 4 + claim.length) = Wire.revealedBytes rest ++ t := by
      rw [← List.drop_drop, hdrop₂, List.drop_left]
    have hindex := u32At_complete hpos hb h
    have hcount := u32At_complete (by omega) hb hdrop₁
    have hrange := getRange_complete (by omega) hdrop₂
    have hnext : checkedAdd (pos + 4 + 4) claim.length = some (pos + 4 + 4 + claim.length) :=
      if_pos (by omega)
    have hprev : ¬ ∃ p ∈ prev.map UInt32.toNat, idx.toNat ≤ p := by
      cases prev with
      | none => simp
      | some p => simpa [UInt32.le_iff_toNat_le] using hlast
    have hloop := ih hrest (by omega) hdrop₃
    rw [hlen] at hcount
    simp only [Option.map_some] at hloop
    simp only [decodeRevealedEntries, hindex, Option.bind_eq_bind, Option.bind_some]
    rw [if_neg hprev]
    simp [hcount, hnext, hrange, hloop, usizeEntries]

/-! ### `decode_revealed` -/

/-- The lists that `decode_revealed` can return. -/
structure DecodedList (entries : List (UInt32 × Bytes)) : Prop where
  length_le : entries.length ≤ 64
  increasing : (entries.map Prod.fst).Pairwise (· < ·)
  short : ∀ entry ∈ entries, entry.2.length < 2 ^ 32

def listBytes (entries : List (UInt32 × Bytes)) : Bytes :=
  beBytes 4 entries.length ++ Wire.revealedBytes entries

namespace DecodedList

variable {entries : List (UInt32 × Bytes)}

theorem wellFormed (h : DecodedList entries) :
    Wire.WellFormed anyIndex entries.length none entries :=
  ⟨rfl, by simp, h.increasing, fun _ _ => rfl, h.short⟩

theorem listBytes_length_lt (h : DecodedList entries) : (listBytes entries).length < 2 ^ 64 := by
  have hentries := Wire.revealedBytes_length_le h.short
  have hmul := Nat.mul_le_mul_right (2 ^ 32 + 8) h.length_le
  rw [listBytes, List.length_append, beBytes_length]
  omega

end DecodedList

/-- `decode_revealed` accepts exactly the encodings of increasing lists within the
    claim ceiling. -/
theorem decodeRevealed_returns_iff {r : Bytes} {l : List (Nat × Bytes)} :
    (decodeRevealed r).Returns (some l) ↔
      ∃ entries, DecodedList entries ∧ l = usizeEntries entries ∧ r = listBytes entries := by
  constructor
  · intro h
    unfold decodeRevealed at h
    split at h
    · cases h
    next count pos hcount =>
    obtain ⟨n, rfl, rfl, hle, hdrop⟩ := u32At_sound hcount
    split at h
    · cases h
    next hmax =>
    obtain ⟨⟨⟩, -, h⟩ := returns_bind_iff.mp h
    split at h
    · cases h
    next out fin hentries =>
    split at h
    · cases h
    next hfin =>
    cases h
    obtain ⟨entries, rfl, hwf, -, hbytes⟩ := decodeRevealedEntries_sound none hentries hle
    unfold maxBbsMessages at hmax
    refine ⟨entries, ⟨by rw [hwf.length_eq]; omega, hwf.increasing, hwf.short⟩, rfl, ?_⟩
    rw [not_not.mp hfin, List.drop_length, List.append_nil] at hbytes
    rw [List.drop_zero] at hdrop
    rw [hdrop, hbytes, listBytes, hwf.length_eq]
  · rintro ⟨entries, hlist, rfl, rfl⟩
    have hle := hlist.length_le
    have hn : (UInt32.ofNat entries.length).toNat = entries.length := by
      rw [UInt32.toNat_ofNat', Nat.mod_eq_of_lt (by omega)]
    have hb := hlist.listBytes_length_lt
    have hcount := u32At_complete (x := UInt32.ofNat entries.length) (t := Wire.revealedBytes entries)
      (Nat.zero_le _) hb (by rw [hn, List.drop_zero, listBytes])
    have hdrop : (listBytes entries).drop 4 = Wire.revealedBytes entries ++ [] := by
      rw [listBytes, List.drop_left' (beBytes_length 4 _), List.append_nil]
    have hfour : 4 ≤ (listBytes entries).length := by simp [listBytes]
    have hentries := decodeRevealedEntries_complete hb hlist.wellFormed hfour hdrop
    have hmax : ¬ entries.length > maxBbsMessages := by unfold maxBbsMessages; omega
    rw [hn, Nat.zero_add] at hcount
    simp only [Option.map_none, List.length_nil, Nat.sub_zero] at hentries
    rw [decodeRevealed, hcount]
    dsimp only
    rw [if_neg hmax, returns_bind_iff]
    refine ⟨(), rfl, ?_⟩
    rw [hentries]
    dsimp only
    rw [if_neg (not_not.mpr rfl)]
    rfl

/-! ### The accepted language -/

/-- The lists that `decode_revealed` can return, as it returns them. -/
structure IncreasingList (l : List (Nat × Bytes)) : Prop where
  length_le : l.length ≤ 64
  increasing : (l.map Prod.fst).Pairwise (· < ·)
  index_lt : ∀ entry ∈ l, entry.1 < 2 ^ 32
  short : ∀ entry ∈ l, entry.2.length < 2 ^ 32

theorem usizeEntries_increasing_iff {entries : List (UInt32 × Bytes)} :
    ((usizeEntries entries).map Prod.fst).Pairwise (· < ·) ↔
      (entries.map Prod.fst).Pairwise (· < ·) := by
  simp only [usizeEntries, List.pairwise_map, UInt32.lt_iff_toNat_lt]

theorem flatten_usizeEntries (entries : List (UInt32 × Bytes)) :
    ((usizeEntries entries).map fun e => beBytes 4 e.1 ++ beBytes 4 e.2.length ++ e.2).flatten
      = Wire.revealedBytes entries := by
  have hentry : ∀ e ∈ entries,
      beBytes 4 e.1.toNat ++ beBytes 4 e.2.length ++ e.2 = Wire.entryBytes e := by
    intro e _
    rw [Wire.entryBytes, frame, List.append_assoc]
  rw [usizeEntries, List.map_map, Wire.revealedBytes, ← List.map_congr_left hentry]
  rfl

theorem IncreasingList.exists_entries {l : List (Nat × Bytes)} (h : IncreasingList l) :
    ∃ entries, DecodedList entries ∧ l = usizeEntries entries := by
  have hl : l = usizeEntries (l.map fun e => (UInt32.ofNat e.1, e.2)) := by
    rw [usizeEntries, List.map_map]
    conv_lhs => rw [← List.map_id l]
    apply List.map_congr_left
    intro e he
    simp only [id_eq, Function.comp_apply, UInt32.toNat_ofNat', Nat.mod_eq_of_lt (h.index_lt e he)]
  refine ⟨_, ⟨by simpa using h.length_le, ?_, ?_⟩, hl⟩
  · rw [← usizeEntries_increasing_iff, ← hl]
    exact h.increasing
  · intro entry hentry
    obtain ⟨e, he, rfl⟩ := List.mem_map.mp hentry
    exact h.short e he

theorem DecodedList.increasingList {entries : List (UInt32 × Bytes)} (h : DecodedList entries) :
    IncreasingList (usizeEntries entries) where
  length_le := by
    rw [length_usizeEntries]
    exact h.length_le
  increasing := usizeEntries_increasing_iff.mpr h.increasing
  index_lt := by
    intro entry hentry
    obtain ⟨e, -, rfl⟩ := List.mem_map.mp hentry
    exact e.1.toNat_lt
  short := by
    intro entry hentry
    obtain ⟨e, he, rfl⟩ := List.mem_map.mp hentry
    exact h.short e he

theorem decodeRevealed_iff_increasingList {b : Bytes} {l : List (Nat × Bytes)} :
    (decodeRevealed b).Returns (some l) ↔
      IncreasingList l ∧ b = beBytes 4 l.length
        ++ (l.map fun e => beBytes 4 e.1 ++ beBytes 4 e.2.length ++ e.2).flatten := by
  rw [decodeRevealed_returns_iff]
  constructor
  · intro h
    obtain ⟨entries, hlist, rfl, rfl⟩ := h
    exact ⟨hlist.increasingList, by rw [flatten_usizeEntries, length_usizeEntries, listBytes]⟩
  · intro h
    obtain ⟨hl, hb⟩ := h
    obtain ⟨entries, hlist, rfl⟩ := hl.exists_entries
    refine ⟨entries, hlist, rfl, ?_⟩
    rw [hb, flatten_usizeEntries, length_usizeEntries, listBytes]

/-- Increasing lists that denote one map are equal. -/
theorem IncreasingList.eq_of_lookup {l l' : List (Nat × Bytes)} (h : IncreasingList l)
    (h' : IncreasingList l') (hlookup : ∀ i, l.lookup i = l'.lookup i) : l = l' := by
  have hmaps : OrderedMap.mk l (List.pairwise_map.mp h.increasing)
      = OrderedMap.mk l' (List.pairwise_map.mp h'.increasing) := OrderedMap.ext_get? hlookup
  exact congrArg OrderedMap.entries hmaps

/-- **One encoding for each revealed set.** `decode_revealed` returns a list exactly
    when the list has at most 64 entries, its indices increase and are below `2^32`,
    its values are shorter than `2^32` bytes, and the input is the count followed by
    the entries in order. Two different inputs do not decode to lists that map the
    indices to the same values. -/
theorem decodeRevealed_one_encoding :
    (∀ (b : Bytes) (l : List (Nat × Bytes)), (decodeRevealed b).Returns (some l) ↔
      l.length ≤ 64 ∧ (l.map Prod.fst).Pairwise (· < ·) ∧ (∀ entry ∈ l, entry.1 < 2 ^ 32) ∧
      (∀ entry ∈ l, entry.2.length < 2 ^ 32) ∧
      b = beBytes 4 l.length
        ++ (l.map fun e => beBytes 4 e.1 ++ beBytes 4 e.2.length ++ e.2).flatten) ∧
    (∀ (b b' : Bytes) (l l' : List (Nat × Bytes)), (decodeRevealed b).Returns (some l) →
      (decodeRevealed b').Returns (some l') → (∀ i, l.lookup i = l'.lookup i) → b = b') := by
  constructor
  · intro b l
    rw [decodeRevealed_iff_increasingList]
    constructor
    · intro h
      obtain ⟨⟨hlen, hinc, hindex, hshort⟩, hb⟩ := h
      exact ⟨hlen, hinc, hindex, hshort, hb⟩
    · intro h
      obtain ⟨hlen, hinc, hindex, hshort, hb⟩ := h
      exact ⟨⟨hlen, hinc, hindex, hshort⟩, hb⟩
  · intro b b' l l' h h' hlookup
    obtain ⟨hl, hb⟩ := decodeRevealed_iff_increasingList.mp h
    obtain ⟨hl', hb'⟩ := decodeRevealed_iff_increasingList.mp h'
    rw [hb, hb', hl.eq_of_lookup hl' hlookup]

/-! ### The three decoders -/

/-- The increasing lists below `bound` are within every ceiling that `bound` is. -/
theorem decodedList_of_lt {entries : List (UInt32 × Bytes)} {bound : UInt32}
    (hbound : bound.toNat ≤ 64) (hincreasing : (entries.map Prod.fst).Pairwise (· < ·))
    (hlt : ∀ entry ∈ entries, entry.1 < bound)
    (hshort : ∀ entry ∈ entries, entry.2.length < 2 ^ 32) : DecodedList entries where
  length_le := (length_le_of_increasing hincreasing
    fun e he => UInt32.lt_iff_toNat_lt.mp (hlt e he)).trans hbound
  increasing := hincreasing
  short := hshort

/-- The list that was decoded determines the bytes, so it may be compared as `u32`. -/
theorem decodeRevealed_usizeEntries_iff {r : Bytes} {l : List (UInt32 × Bytes)} :
    (decodeRevealed r).Returns (some (usizeEntries l)) ↔ DecodedList l ∧ r = listBytes l := by
  rw [decodeRevealed_returns_iff]
  constructor
  · rintro ⟨entries, hlist, heq, hr⟩
    cases usizeEntries_injective heq
    exact ⟨hlist, hr⟩
  · rintro ⟨hlist, hr⟩
    exact ⟨l, hlist, rfl, hr⟩

theorem SelectiveProof.fromBytes_revealed_iff {r body : Bytes} {count : UInt32}
    (hpos : 1 ≤ count.toNat) (hle : count.toNat ≤ 64) (hbody : body.length < 2 ^ 32)
    {l : List (UInt32 × Bytes)} :
    (∃ p, (SelectiveProof.fromBytes (beBytes 4 count.toNat ++ frame 4 body ++ r)).run.Returns (.ok p) ∧
        p.revealed = l) ↔
      (decodeRevealed r).Returns (some (usizeEntries l)) ∧ ∀ entry ∈ l, entry.1 < count := by
  rw [decodeRevealed_usizeEntries_iff]
  constructor
  · rintro ⟨p, hp, rfl⟩
    obtain ⟨hwf, hbytes⟩ := (SelectiveProof.fromBytes_returns_iff _ p).mp hp
    rw [SelectiveProof.toBytes] at hbytes
    simp only [List.append_assoc] at hbytes
    obtain ⟨hcount, hrest⟩ := append_split (by simp) hbytes
    have hshort := hwf.proof_short
    obtain ⟨-, hr⟩ := frame_append_split (by omega) (by omega) hrest
    cases beBytes_toNat_injective hcount
    exact ⟨⟨decodedList_of_lt hle hwf.increasing hwf.in_range hwf.claims_short, hr⟩, hwf.in_range⟩
  · rintro ⟨⟨hlist, rfl⟩, hlt⟩
    refine ⟨⟨count, body, l⟩, (SelectiveProof.fromBytes_returns_iff _ _).mpr ⟨?_, ?_⟩, rfl⟩
    · exact ⟨hpos, hle, hlist.increasing, hlt, hbody, hlist.short⟩
    · rw [SelectiveProof.toBytes, listBytes]
      simp only [List.append_assoc]

theorem VoteProof.fromBytes_revealed_iff {r bbsProof dlProof : Bytes} {nullifier : S.G1}
    {count : UInt32} (hpos : 1 ≤ count.toNat) (hle : count.toNat ≤ 64)
    (hbbs : bbsProof.length < 2 ^ 32) (hdl : dlProof.length < 2 ^ 32) (hnull : nullifier ≠ 0)
    {l : List (UInt32 × Bytes)} :
    (∃ p : VoteProof S, (VoteProof.fromBytes (beBytes 4 count.toNat ++ frame 4 bbsProof
        ++ frame 4 dlProof ++ frame 4 (S.g1Codec.ser nullifier) ++ r)).run.Returns (.ok p) ∧
        p.revealed = l) ↔
      (decodeRevealed r).Returns (some (usizeEntries l)) ∧ (∀ entry ∈ l, entry.1 < count) ∧
        ∀ entry ∈ l, entry.1 ≠ 0 := by
  rw [decodeRevealed_usizeEntries_iff]
  have hpoint : ∀ P : S.G1, (S.g1Codec.ser P).length < 256 ^ 4 := by
    intro P
    rw [S.g1Codec.ser_length]
    decide
  have hnonzero : ∀ idx : UInt32, 1 ≤ idx.toNat ↔ idx ≠ 0 := by
    intro idx
    rw [ne_eq, ← UInt32.toNat_inj, UInt32.toNat_zero]
    omega
  constructor
  · rintro ⟨p, hp, rfl⟩
    obtain ⟨hwf, hbytes⟩ := (VoteProof.fromBytes_returns_iff _ p).mp hp
    rw [VoteProof.encoding] at hbytes
    simp only [List.append_assoc] at hbytes
    obtain ⟨hcount, hrest⟩ := append_split (by simp) hbytes
    have hbbs' := hwf.bbs_short
    have hdl' := hwf.dl_short
    obtain ⟨-, hrest⟩ := frame_append_split (by omega) (by omega) hrest
    obtain ⟨-, hrest⟩ := frame_append_split (by omega) (by omega) hrest
    obtain ⟨-, hr⟩ := frame_append_split (hpoint _) (hpoint _) hrest
    cases beBytes_toNat_injective hcount
    exact ⟨⟨decodedList_of_lt hle hwf.increasing hwf.in_range hwf.claims_short, hr⟩, hwf.in_range,
      fun e he => (hnonzero e.1).mp (hwf.secret_hidden e he)⟩
  · rintro ⟨⟨hlist, rfl⟩, hlt, hsecret⟩
    refine ⟨⟨count, l, bbsProof, dlProof, nullifier⟩,
      (VoteProof.fromBytes_returns_iff _ _).mpr ⟨?_, ?_⟩, rfl⟩
    · exact ⟨hpos, hle, hnull, hlist.increasing, fun e he => (hnonzero e.1).mpr (hsecret e he), hlt,
        hbbs, hdl, hlist.short⟩
    · rw [VoteProof.encoding, listBytes]
      simp only [List.append_assoc]

/-- **One reading of the revealed list.** After a well-formed head, the two proof
    decoders accept exactly the lists that `decode_revealed` accepts with all
    indices below `message_count`; the vote decoder, those without index 0. -/
theorem revealed_decoders_agree (S : Suite) (r : Bytes) (count : UInt32)
    (hpos : 1 ≤ count.toNat) (hle : count.toNat ≤ 64) :
    (∀ l', (decodeRevealed r).Returns (some l') → ∃ l, l' = usizeEntries l) ∧
    (∀ (body : Bytes) (l : List (UInt32 × Bytes)), body.length < 2 ^ 32 →
      ((∃ p, (SelectiveProof.fromBytes (beBytes 4 count.toNat ++ beBytes 4 body.length ++ body
          ++ r)).run.Returns (.ok p) ∧ p.revealed = l) ↔
        (decodeRevealed r).Returns (some (usizeEntries l)) ∧ ∀ entry ∈ l, entry.1 < count)) ∧
    (∀ (bbsProof dlProof : Bytes) (nullifier : S.G1) (l : List (UInt32 × Bytes)),
      bbsProof.length < 2 ^ 32 → dlProof.length < 2 ^ 32 → nullifier ≠ 0 →
      ((∃ p : VoteProof S, (VoteProof.fromBytes (beBytes 4 count.toNat ++ frame 4 bbsProof
          ++ frame 4 dlProof ++ frame 4 (S.g1Codec.ser nullifier) ++ r)).run.Returns (.ok p) ∧
          p.revealed = l) ↔
        (decodeRevealed r).Returns (some (usizeEntries l)) ∧ (∀ entry ∈ l, entry.1 < count) ∧
          ∀ entry ∈ l, entry.1 ≠ 0)) := by
  refine ⟨?_, ?_, ?_⟩
  · intro l' h
    obtain ⟨l, -, hl, -⟩ := decodeRevealed_returns_iff.mp h
    exact ⟨l, hl⟩
  · intro body l hbody
    rw [← SelectiveProof.fromBytes_revealed_iff hpos hle hbody, frame]
    simp only [List.append_assoc]
  · intro bbsProof dlProof nullifier l hbbs hdl hnull
    exact VoteProof.fromBytes_revealed_iff hpos hle hbbs hdl hnull

/-- One claim at index 1, read by all three decoders. -/
theorem revealed_decoders_agree_example :
    (∃ p, (SelectiveProof.fromBytes [0, 0, 0, 2, 0, 0, 0, 0, 0, 0, 0, 1, 0, 0, 0, 1, 0, 0, 0, 1,
        7]).run.Returns (.ok p) ∧ p.revealed = [(1, [7])]) ∧
      (∃ p : VoteProof smallSuite, (VoteProof.fromBytes (beBytes 4 2 ++ frame 4 [] ++ frame 4 []
          ++ frame 4 (smallSuite.g1Codec.ser (1 : ZMod 7))
          ++ [0, 0, 0, 1, 0, 0, 0, 1, 0, 0, 0, 1, 7])).run.Returns (.ok p) ∧
        p.revealed = [(1, [7])]) ∧
      (decodeRevealed [0, 0, 0, 1, 0, 0, 0, 1, 0, 0, 0, 1, 7]).Returns (some [(1, [7])]) := by
  have hdecoded : (decodeRevealed [0, 0, 0, 1, 0, 0, 0, 1, 0, 0, 0, 1, 7]).Returns
      (some [(1, [7])]) := by decide +kernel
  obtain ⟨-, hselective, hvote⟩ := revealed_decoders_agree smallSuite
    [0, 0, 0, 1, 0, 0, 0, 1, 0, 0, 0, 1, 7] 2 (by decide) (by decide)
  refine ⟨?_, ?_, hdecoded⟩
  · exact (hselective [] [(1, [7])] (by decide)).mpr ⟨hdecoded, by decide⟩
  · exact (hvote [] [] (1 : ZMod 7) [(1, [7])] (by decide) (by decide)
      (show (1 : ZMod 7) ≠ 0 by decide)).mpr ⟨hdecoded, by decide, by decide⟩

end PhiCrypto
