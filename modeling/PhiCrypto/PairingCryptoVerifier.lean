import PhiCrypto.PairingCrypto

/-!
# What the `pairing_crypto` verifier accepts

On distinct revealed indices the verifier stays within `m_hat_list`, and it
accepts exactly the proofs that satisfy `Proof.Valid` (`meets_proofVerify`). On a
repeated index the total counts more messages than the map and `m_hat_list` hold
between them, so the loop over the generators runs out of responses: it panics
whenever it is reached (`proofVerify_panics`).
-/

namespace PhiCrypto

open Exec

namespace PairingCrypto

variable {S : Suite} {P : Event → Prop} {B : Blstrs S}

/-! ### Generators -/

@[simp] theorem generatorsFrom_length (B : Blstrs S) (count n : Nat) (v : Bytes) :
    (generatorsFrom B count n v).length = count := by
  induction count generalizing n v with
  | zero => rfl
  | succ count ih => simp [generatorsFrom, ih]

/-- The generators that `create_generators` makes of a seed. -/
def seededGenerators (B : Blstrs S) (seed : Bytes) (count : Nat) : List S.G1 :=
  generatorsFrom B count 1 (B.expandMessage seed generatorSeedDst xofNoOfBytes)

/-- The value of `p1`. -/
def basePoint (B : Blstrs S) : S.G1 := (seededGenerators B bpGeneratorSeed 1).headD 0

/-- The generators for `count` messages. -/
def Generators.derive (B : Blstrs S) (count : Nat) : Generators S where
  q := (seededGenerators B generatorSeed (count + 1)).headD 0
  hList := (seededGenerators B generatorSeed (count + 1)).tail

@[simp] theorem derive_hList_length (B : Blstrs S) (count : Nat) :
    (Generators.derive B count).hList.length = count := by
  simp [Generators.derive, seededGenerators]

theorem meets_createGenerators {seed : Bytes} {count : Nat}
    (hP : P (.capacity .generators count)) :
    (createGenerators B seed count).Meets P (· = seededGenerators B seed count) :=
  (meets_emit (Q := fun _ => True) hP trivial).bind fun _ _ => meets_pure rfl

theorem meets_p1 (hP : P (.capacity .generators 1)) : (p1 B).Meets P (· = basePoint B) := by
  apply (meets_createGenerators hP).bind
  rintro generators rfl
  exact meets_indexAt rfl

theorem meets_new {count : Nat} (hP : P (.capacity .generators (count + 1))) :
    (Generators.new B count).Meets P (· = Generators.derive B count) := by
  apply (meets_createGenerators hP).bind
  intro generators hgenerators
  have hlen : generators.length = count + 1 := by rw [hgenerators]; simp [seededGenerators]
  apply (meets_sliceAt ⟨by omega, by omega⟩).bind
  rintro hList rfl
  obtain ⟨q, hList, rfl⟩ := List.exists_cons_of_length_eq_add_one hlen
  refine (meets_indexAt (b := q :: hList) (i := 0) rfl).bind ?_
  intro head hhead
  rw [hhead]
  apply meets_pure
  have htake : (q :: hList).take (1 + count) = q :: hList :=
    List.take_of_length_le (by rw [hlen, Nat.add_comm])
  rw [htake, Generators.derive, ← hgenerators]
  rfl

/-! ### Digests -/

/-- The scalar of a message. -/
def messageScalar (B : Blstrs S) (message : Bytes) : S.Fr :=
  (beNat (B.expandMessage message defaultMapMessageToScalarAsHashDst xofNoOfBytes) : ZMod S.r)

/-- A message is too large for the hash from `2^64` bytes on. -/
theorem mapMessageToScalarAsHash_eq_ok_iff {message : Bytes} {m : S.Fr} :
    mapMessageToScalarAsHash B message = .ok m ↔
      message.length < 2 ^ 64 ∧ m = messageScalar B message := by
  have hascii : ¬ ∃ x ∈ defaultMapMessageToScalarAsHashDst, x ≥ 128 := by decide +kernel
  have hdst : ¬ defaultMapMessageToScalarAsHashDst.length > 255 := by decide +kernel
  rw [mapMessageToScalarAsHash, rejectIf_bind_eq_ok_iff, rejectIf_bind_eq_ok_iff,
    rejectIf_bind_eq_ok_iff, hashToScalar, rejectIf_bind_eq_ok_iff]
  constructor
  · rintro ⟨-, hlen, -, -, h⟩
    cases h
    exact ⟨by omega, rfl⟩
  · rintro ⟨hlen, rfl⟩
    exact ⟨hascii, by omega, hdst, hascii, rfl⟩

/-- The messages of a revealed list, by index. -/
def disclosedOf (B : Blstrs S) (messages : List (Nat × Bytes)) : OrderedMap S.Fr :=
  OrderedMap.ofList (messages.map fun entry => (entry.1, messageScalar B entry.2))

/-- A list of messages is digested one by one. -/
theorem mapM_digest_eq_ok_iff {α β : Type} {f : α → S.Fr → β} {messages : List (α × Bytes)}
    {digested : List β} :
    (messages.mapM fun entry => do
        let m ← mapMessageToScalarAsHash B entry.2
        pure (f entry.1 m)) = Except.ok digested ↔
      (∀ entry ∈ messages, entry.2.length < 2 ^ 64) ∧
        digested = messages.map fun entry => f entry.1 (messageScalar B entry.2) := by
  induction messages generalizing digested with
  | nil =>
    rw [List.mapM_nil]
    constructor
    · intro h
      cases h
      simp
    · rintro ⟨-, rfl⟩
      rfl
  | cons entry messages ih =>
    rw [List.mapM_cons, except_bind_eq_ok_iff]
    simp only [except_bind_eq_ok_iff, mapMessageToScalarAsHash_eq_ok_iff, ih, List.mem_cons,
      forall_eq_or_imp, List.map_cons]
    constructor
    · rintro ⟨_, ⟨_, ⟨hlen, rfl⟩, ⟨⟩⟩, _, ⟨hshort, rfl⟩, ⟨⟩⟩
      exact ⟨⟨hlen, hshort⟩, rfl⟩
    · rintro ⟨⟨hlen, hshort⟩, rfl⟩
      exact ⟨_, ⟨_, ⟨hlen, rfl⟩, rfl⟩, _, ⟨hshort, rfl⟩, rfl⟩

theorem digestRevealedProofMessages_eq_ok_iff {messages : List (Nat × Bytes)} {total : Nat}
    {digested : OrderedMap S.Fr} :
    digestRevealedProofMessages B messages total = .ok digested ↔
      (∀ entry ∈ messages, entry.1 < total) ∧ (∀ entry ∈ messages, entry.2.length < 2 ^ 64) ∧
        digested = disclosedOf B messages := by
  rw [digestRevealedProofMessages, rejectIf_bind_eq_ok_iff, except_bind_eq_ok_iff]
  simp only [mapM_digest_eq_ok_iff (f := Prod.mk)]
  constructor
  · rintro ⟨hrange, _, ⟨hshort, rfl⟩, ⟨⟩⟩
    refine ⟨fun entry hentry => ?_, hshort, rfl⟩
    by_contra hge
    exact hrange ⟨entry, hentry, not_lt.mp hge⟩
  · rintro ⟨hrange, hshort, rfl⟩
    refine ⟨?_, _, ⟨hshort, rfl⟩, rfl⟩
    rintro ⟨entry, hentry, hge⟩
    exact absurd (hrange entry hentry) (not_lt.mpr hge)

theorem i2osp_eight_eq_ok_iff {integer : Nat} {octets : Bytes} :
    i2osp integer 8 = .ok octets ↔ integer < 2 ^ 64 ∧ octets = beBytes 8 integer := by
  rw [i2osp, rejectIf_bind_eq_ok_iff, rejectIf_bind_eq_ok_iff]
  constructor
  · rintro ⟨-, hlt, h⟩
    cases h
    exact ⟨by omega, rfl⟩
  · rintro ⟨hlt, rfl⟩
    exact ⟨by decide, by omega, rfl⟩

theorem exists_hashToScalar_eq_ok (octets : Bytes) :
    ∃ x : S.Fr, hashToScalar B octets defaultHashToScalarDst = .ok x := by
  have hascii : ¬ ∃ x ∈ defaultHashToScalarDst, x ≥ 128 := by decide +kernel
  exact ⟨_, rejectIf_bind_eq_ok_iff.mpr ⟨hascii, rfl⟩⟩

/-- The domain exists unless a length does not fit its eight octets. -/
theorem exists_computeDomain_eq_ok_iff {pk : S.G2} {header : Option Bytes} {l : Nat}
    {generators : Generators S} :
    (∃ domain, computeDomain B pk header l generators = .ok domain) ↔
      l = generators.hList.length ∧ l < 2 ^ 64 ∧ (header.getD []).length < 2 ^ 64 := by
  simp only [computeDomain, rejectIf_bind_eq_ok_iff, not_not]
  simp only [i2ospWithData, except_bind_eq_ok_iff, i2osp_eight_eq_ok_iff]
  constructor
  · rintro ⟨domain, hl, _, ⟨hcount, -⟩, _, ⟨_, ⟨hheader, -⟩, -⟩, -⟩
    exact ⟨hl, hcount, hheader⟩
  · rintro ⟨hl, hcount, hheader⟩
    obtain ⟨domain, hdomain⟩ := exists_hashToScalar_eq_ok (B := B) (B.g2ToCompressed pk
      ++ beBytes 8 l ++ B.g1ToCompressed generators.q
      ++ (generators.hList.map B.g1ToCompressed).flatten ++ ciphersuiteId
      ++ (beBytes 8 (header.getD []).length ++ header.getD []))
    exact ⟨domain, hl, _, ⟨hcount, rfl⟩, _, ⟨_, ⟨hheader, rfl⟩, rfl⟩, hdomain⟩

/-! ### What a valid proof satisfies -/

/-- The commitment that the verifier rebuilds, with the revealed messages on one side and
    the hidden responses on the other. -/
def Proof.commitment (B : Blstrs S) (p : Proof S) (disclosed : OrderedMap S.Fr) (total : Nat)
    (domain : S.Fr) : S.G1 :=
  let generators := Generators.derive B total
  let terms := revealedTerms disclosed 0 generators.hList
  let t := msm (basePoint B :: generators.q :: terms.map Prod.fst)
    (1 :: domain :: terms.map Prod.snd)
  msm (t :: p.aBar :: p.bBar :: hiddenPart disclosed 0 generators.hList)
    (p.c :: p.r2Hat :: p.zHat :: p.mHatList)

/-- What `verify` checks of a proof, for `total` messages. -/
structure Proof.Valid (B : Blstrs S) (p : Proof S) (pk : S.G2) (header ph : Option Bytes)
    (disclosed : OrderedMap S.Fr) (total : Nat) : Prop where
  nonempty : ¬ (header = none ∧ total = 0)
  pk_ne_zero : pk ≠ 0
  challenge : ∃ domain,
    computeDomain B pk header total (Generators.derive B total) = .ok domain ∧
    computeChallenge B p.aBar p.bBar (p.commitment B disclosed total domain) disclosed domain ph
      = .ok p.c
  aBar_ne_zero : p.aBar ≠ 0
  pairing : S.pairing p.aBar pk + S.pairing p.bBar (-B.g2Generator) = 0

/-! ### The verifier on distinct indices -/

theorem meets_multiExp {points : List S.G1} {scalars : List S.Fr} (hne : points ≠ [])
    (hlen : points.length = scalars.length) (hP : P (.capacity .scalarBytes (points.length * 32))) :
    (multiExp points scalars).Meets P (· = msm points scalars) := by
  have hpos := List.length_pos_iff.mpr hne
  refine (meets_indexAt (List.getElem?_eq_getElem hpos)).bind ?_
  rintro _ -
  rw [← hlen, min_self]
  refine (meets_emit (Q := fun _ => True) hP trivial).bind ?_
  rintro ⟨⟩ -
  rw [if_neg (lt_irrefl _)]
  exact meets_pure rfl

/-- The scan uses one hidden response for each generator that is not disclosed. -/
theorem meets_scanGenerators {mHatList : List S.Fr} {disclosed : OrderedMap S.Fr}
    {generators : List S.G1} :
    ∀ {i j : Nat}, j + (hiddenPart disclosed i generators).length ≤ mHatList.length →
      (scanGenerators mHatList disclosed i j generators).Meets P
        (fun terms => terms.1 = revealedTerms disclosed i generators ∧
          terms.2 = (hiddenPart disclosed i generators).zip (mHatList.drop j)) := by
  induction generators with
  | nil => intro i j _; exact meets_pure ⟨rfl, rfl⟩
  | cons generator rest ih =>
    intro i j hlen
    rw [scanGenerators]
    rw [hiddenPart] at hlen ⊢
    cases hget : disclosed.get? i with
    | some m =>
      have hcontains : disclosed.contains i = true := by simp [OrderedMap.contains, hget]
      rw [if_pos hcontains] at hlen ⊢
      rw [if_pos hcontains]
      apply (meets_pure (Q := (· = m)) rfl).bind
      rintro _ rfl
      apply (ih hlen).bind
      rintro ⟨t, c⟩ ⟨rfl, rfl⟩
      exact meets_pure ⟨by simp [revealedTerms, hget], rfl⟩
    | none =>
      have hcontains : ¬ disclosed.contains i = true := by simp [OrderedMap.contains, hget]
      rw [if_neg hcontains] at hlen ⊢
      rw [if_neg hcontains]
      rw [List.length_cons] at hlen
      have hj : j < mHatList.length := by omega
      refine (meets_indexAt (List.getElem?_eq_getElem hj)).bind ?_
      rintro _ rfl
      apply (ih (by omega)).bind
      rintro ⟨t, c⟩ ⟨rfl, rfl⟩
      refine meets_pure ⟨by simp [revealedTerms, hget], ?_⟩
      rw [List.drop_eq_getElem_cons hj, List.zip_cons_cons]

/-- The checks before the loop, for indices in range. -/
theorem meets_checkParams {p : Proof S} {pk : S.G2} {header : Option Bytes}
    {generators : Generators S} {disclosed : OrderedMap S.Fr} {total : Nat}
    (hcount : total = generators.hList.length) (hrange : ∀ r ∈ disclosed.keys, r < total) :
    MeetsResult P (fun res => res = .ok () ↔ ¬ (header = none ∧ total = 0) ∧ pk ≠ 0)
      (p.checkParams pk header generators disclosed total) := by
  refine MeetsResult.rejectIf_bind ?_ ?_
  · intro hempty
    exact iff_of_false (by simp) (fun h => h.1 hempty)
  intro hempty
  refine MeetsResult.rejectIf_bind (fun hne => absurd hcount hne) (fun _ => ?_)
  have hin : ¬ ∃ r ∈ disclosed.keys, r ≥ total := by
    rintro ⟨r, hr, hge⟩
    exact absurd (hrange r hr) (not_lt.mpr hge)
  rw [if_neg hin]
  refine meetsResult_rejectIf ?_ ?_
  · intro hpk
    exact iff_of_false (by simp) (fun h => h.2 hpk)
  · intro hpk
    exact iff_of_true rfl ⟨hempty, hpk⟩

/-- The checks after the commitment is rebuilt, for the challenge that it gives. -/
theorem meets_finalChecks (p : Proof S) (pk : S.G2) (challenge : Except Error S.Fr) :
    MeetsResult P
      (fun res => res = .ok true ↔ challenge = .ok p.c ∧ p.aBar ≠ 0 ∧
        S.pairing p.aBar pk + S.pairing p.bBar (-B.g2Generator) = 0)
      (do
        let cv ← ExceptT.mk (pure challenge)
        if p.c ≠ cv then pure false
        else do
          rejectIf (p.aBar = 0) Error.pointIsIdentity
          pure (S.pair p.aBar pk + S.pair p.bBar (-B.g2Generator) = 0) : Result Bool) := by
  refine MeetsResult.bind (S := (· = challenge)) (meetsResult_ofExcept rfl) ?_ ?_
  swap
  · rintro k rfl
    exact iff_of_false (by simp) (by simp)
  rintro cv rfl
  split
  · next hne =>
    refine meetsResult_pure (iff_of_false (by simp) fun h => hne ?_)
    exact (Except.ok.inj h.1).symm
  · next heq =>
    refine MeetsResult.rejectIf_bind ?_ ?_
    · intro hzero
      exact iff_of_false (by simp) fun h => h.2.1 hzero
    · intro hne
      apply meetsResult_pure
      simp [not_not.mp heq, hne, Suite.pair]

/-- The allocations of the verifier for `hidden` and `disclosed` messages. -/
structure VerifyEvents (P : Event → Prop) (hidden disclosed : Nat) : Prop where
  base : P (.capacity .generators 1)
  disclosedTerms : P (.capacity .verifierTerms (1 + 1 + disclosed))
  hiddenTerms : P (.capacity .verifierTerms hidden)
  allTerms : P (.capacity .verifierTerms (1 + 1 + 1 + hidden))
  disclosedScalars : P (.capacity .scalarBytes ((disclosed + 2) * 32))
  hiddenScalars : P (.capacity .scalarBytes ((hidden + 3) * 32))

/-- `verify` does not panic when the total counts every entry of the map, and accepts
    exactly the valid proofs. -/
theorem meets_verify {p : Proof S} {pk : S.G2} {header ph : Option Bytes}
    {disclosed : OrderedMap S.Fr} {total : Nat}
    (htotal : total = p.mHatList.length + disclosed.length)
    (hrange : ∀ r ∈ disclosed.keys, r < total)
    (hP : VerifyEvents P p.mHatList.length disclosed.length) :
    MeetsResult P (fun res => res = .ok true ↔ p.Valid B pk header ph disclosed total)
      (p.verify B pk header ph (Generators.derive B total) disclosed total) := by
  have hcount : total = (Generators.derive B total).hList.length := by simp
  refine MeetsResult.bind (meets_checkParams hcount hrange) ?_ ?_
  swap
  · intro k hk
    refine iff_of_false (by simp) (fun h => ?_)
    cases hk.mpr ⟨h.nonempty, h.pk_ne_zero⟩
  rintro ⟨⟩ hchecks
  obtain ⟨hempty, hpk⟩ := hchecks.mp rfl
  refine MeetsResult.bind (S := (· = computeDomain B pk header
    (Generators.derive B total).hList.length (Generators.derive B total)))
    (meetsResult_ofExcept rfl) ?_ ?_
  swap
  · intro k hk
    refine iff_of_false (by simp) (fun h => ?_)
    obtain ⟨domain, hdomain, -⟩ := h.challenge
    rw [← hcount, hdomain] at hk
    cases hk
  intro domain hdomain
  rw [← hcount] at hdomain
  apply MeetsResult.emit_bind hP.disclosedTerms
  apply MeetsResult.emit_bind hP.disclosedTerms
  apply MeetsResult.lift_bind (meets_p1 hP.base)
  rintro base rfl
  apply MeetsResult.emit_bind hP.hiddenTerms
  apply MeetsResult.emit_bind hP.hiddenTerms
  have hkeys : ∀ k ∈ disclosed.keys, k < (Generators.derive B total).hList.length :=
    fun k hk => hcount ▸ hrange k hk
  have hsplit := length_hiddenPart_add hkeys
  have hterms := length_revealedTerms_add_hiddenPart disclosed (Generators.derive B total).hList 0
  apply MeetsResult.lift_bind (meets_scanGenerators (by omega))
  rintro ⟨t, c⟩ ⟨rfl, rfl⟩
  have ht : (revealedTerms disclosed 0 (Generators.derive B total).hList).length
      = disclosed.length := by omega
  have hhidden : (hiddenPart disclosed 0 (Generators.derive B total).hList).length
      = p.mHatList.length := by omega
  have hfst : ((hiddenPart disclosed 0 (Generators.derive B total).hList).zip
      (p.mHatList.drop 0)).map Prod.fst = hiddenPart disclosed 0 (Generators.derive B total).hList :=
    List.map_fst_zip hhidden.le
  have hsnd : ((hiddenPart disclosed 0 (Generators.derive B total).hList).zip
      (p.mHatList.drop 0)).map Prod.snd = p.mHatList :=
    List.map_snd_zip hhidden.ge
  refine MeetsResult.lift_bind (meets_multiExp (by simp) (by simp) ?_) ?_
  · simpa [ht] using hP.disclosedScalars
  rintro t rfl
  apply MeetsResult.emit_bind hP.allTerms
  apply MeetsResult.emit_bind hP.allTerms
  rw [hfst, hsnd]
  refine MeetsResult.lift_bind (meets_multiExp (by simp) (by simp [hhidden]) ?_) ?_
  · rw [List.length_cons, List.length_cons, List.length_cons, hhidden]
    exact hP.hiddenScalars
  rintro c rfl
  refine (meets_finalChecks p pk _).post fun res hres => ?_
  rw [hres]
  constructor
  · rintro ⟨hchallenge, hne, hpairing⟩
    exact ⟨hempty, hpk, ⟨domain, hdomain.symm, hchallenge⟩, hne, hpairing⟩
  · intro h
    obtain ⟨domain', hdomain', hchallenge⟩ := h.challenge
    cases hdomain.trans hdomain'
    exact ⟨hchallenge, h.aBar_ne_zero, h.pairing⟩

/-! ### `proof_verify` -/

theorem fromOctets_length {buffer : Bytes} {p : Proof S}
    (h : (Proof.fromOctets B buffer).run.Returns (.ok p)) :
    192 + 32 * p.mHatList.length = buffer.length :=
  (meets_fromOctets (P := fun _ => True) B (fun _ _ => trivial)).of_returns h p rfl

/-- A request that the verifier accepts, with its key and proof decoded. -/
structure Accepts (B : Blstrs S) (publicKey : Bytes) (header ph : Option Bytes) (proof : Bytes)
    (messages : List (Nat × Bytes)) (pk : S.G2) (p : Proof S) : Prop where
  key_eq : B.g2FromCompressed publicKey = some pk
  proof_eq : (Proof.fromOctets B proof).run.Returns (.ok p)
  in_range : ∀ entry ∈ messages, entry.1 < p.mHatList.length + messages.length
  short : ∀ entry ∈ messages, entry.2.length < 2 ^ 64
  valid : p.Valid B pk header ph (disclosedOf B messages) (p.mHatList.length + messages.length)

/-- The allocations of `proof_verify` for a proof of `n` bytes and `revealed`
    messages. -/
structure ProofVerifyEvents (P : Event → Prop) (n revealed : Nat) : Prop where
  hiddenResponses : ∀ hidden, 192 + 32 * hidden = n → P (.capacity .hiddenResponses hidden)
  generators : ∀ hidden, 192 + 32 * hidden = n → P (.capacity .generators (hidden + revealed + 1))
  verify : ∀ hidden, 192 + 32 * hidden = n → VerifyEvents P hidden revealed

theorem proofVerifyEvents_trivial {n revealed : Nat} :
    ProofVerifyEvents (fun _ => True) n revealed :=
  ⟨fun _ _ => trivial, fun _ _ => trivial, fun _ _ => by constructor <;> trivial⟩

theorem mem_keys_disclosedOf {messages : List (Nat × Bytes)} {k : Nat} :
    k ∈ (disclosedOf B messages).keys ↔ k ∈ messages.map Prod.fst := by
  rw [disclosedOf, OrderedMap.mem_keys_ofList, List.map_map]
  rfl

theorem lt_of_mem_keys_disclosedOf {messages : List (Nat × Bytes)} {total : Nat}
    (hrange : ∀ entry ∈ messages, entry.1 < total) :
    ∀ k ∈ (disclosedOf B messages).keys, k < total := by
  intro k hk
  obtain ⟨entry, hentry, rfl⟩ := List.mem_map.mp (mem_keys_disclosedOf.mp hk)
  exact hrange entry hentry

/-- `proof_verify` does not panic on distinct revealed indices. -/
theorem meets_proofVerify (publicKey : Bytes) (header ph : Option Bytes) (proof : Bytes)
    (messages : Option (List (Nat × Bytes)))
    (hdistinct : ((messages.getD []).map Prod.fst).Nodup)
    (hcall : P (.pairingCryptoVerify ((messages.getD []).map Prod.fst)))
    (hP : ProofVerifyEvents P proof.length (messages.getD []).length) :
    MeetsResult P (fun res => res = .ok true ↔
        ∃ pk p, Accepts B publicKey header ph proof (messages.getD []) pk p)
      (proofVerify B publicKey header ph proof messages) := by
  apply MeetsResult.emit_bind hcall
  cases hkey : B.g2FromCompressed publicKey with
  | none =>
    refine meetsResult_throw (iff_of_false (by simp) ?_)
    rintro ⟨pk, p, h⟩
    cases hkey.symm.trans h.key_eq
  | some pk =>
  dsimp only
  refine MeetsResult.bind (meets_fromOctets B hP.hiddenResponses).and_returns ?_ ?_
  swap
  · rintro k ⟨-, hret⟩
    apply iff_of_false (by simp)
    rintro ⟨pk', p, h⟩
    cases hret.unique h.proof_eq
  rintro p ⟨hp, hret⟩
  have hlen := hp p rfl
  refine MeetsResult.bind (S := (· = digestRevealedProofMessages B
    (messages.getD []) (p.mHatList.length + (messages.getD []).length)))
    (meetsResult_ofExcept rfl) ?_ ?_
  swap
  · intro k hk
    apply iff_of_false (by simp)
    rintro ⟨pk', p', h⟩
    cases hret.unique h.proof_eq
    cases hk.trans (digestRevealedProofMessages_eq_ok_iff.mpr ⟨h.in_range, h.short, rfl⟩)
  intro digested hdigested
  obtain ⟨hrange, hshort, rfl⟩ := digestRevealedProofMessages_eq_ok_iff.mp hdigested.symm
  have hcount : (disclosedOf B (messages.getD [])).length = (messages.getD []).length := by
    rw [disclosedOf, OrderedMap.length_ofList, List.length_map]
    rw [List.map_map]
    exact hdistinct
  apply MeetsResult.lift_bind (meets_new (hP.generators _ hlen))
  rintro generators rfl
  refine (meets_verify (by rw [hcount]) (lt_of_mem_keys_disclosedOf hrange)
    (by rw [hcount]; exact hP.verify _ hlen)).post ?_
  intro res hres
  rw [hres]
  constructor
  · intro hvalid
    exact ⟨pk, p, hkey, hret, hrange, hshort, hvalid⟩
  · rintro ⟨pk', p', h⟩
    cases hkey.symm.trans h.key_eq
    cases hret.unique h.proof_eq
    exact h.valid

/-! ### Repeated indices -/

/-- A request that is decoded and passes every check before the loop over the
    generators. -/
structure ReachesScan (B : Blstrs S) (publicKey : Bytes) (header : Option Bytes) (proof : Bytes)
    (messages : List (Nat × Bytes)) (pk : S.G2) (p : Proof S) : Prop where
  key_eq : B.g2FromCompressed publicKey = some pk
  pk_ne_zero : pk ≠ 0
  proof_eq : (Proof.fromOctets B proof).run.Returns (.ok p)
  in_range : ∀ entry ∈ messages, entry.1 < p.mHatList.length + messages.length
  short : ∀ entry ∈ messages, entry.2.length < 2 ^ 64
  header_short : (header.getD []).length < 2 ^ 64
  count_short : p.mHatList.length + messages.length < 2 ^ 64

/-- The scan panics when there are fewer responses than generators to answer for. -/
theorem scanGenerators_panics {mHatList : List S.Fr} {disclosed : OrderedMap S.Fr}
    {generators : List S.G1} :
    ∀ {i j : Nat}, j ≤ mHatList.length →
      mHatList.length < j + (hiddenPart disclosed i generators).length →
      (scanGenerators mHatList disclosed i j generators).Panics := by
  induction generators with
  | nil =>
    intro i j hj hlen
    simp only [hiddenPart, List.length_nil] at hlen
    omega
  | cons generator rest ih =>
    intro i j hj hlen
    rw [scanGenerators]
    rw [hiddenPart] at hlen
    cases hget : disclosed.get? i with
    | some m =>
      have hcontains : disclosed.contains i = true := by simp [OrderedMap.contains, hget]
      rw [if_pos hcontains] at hlen ⊢
      apply (meets_pure (P := fun _ => True) (Q := (· = m)) rfl).bind_panics
      rintro _ rfl
      exact (ih hj hlen).bind _
    | none =>
      have hcontains : ¬ disclosed.contains i = true := by simp [OrderedMap.contains, hget]
      rw [if_neg hcontains] at hlen ⊢
      rw [List.length_cons] at hlen
      rcases Nat.eq_or_lt_of_le hj with heq | hlt
      · have hnone : mHatList[j]? = none := by simp [heq]
        rw [indexAt, hnone]
        rfl
      · refine (meets_indexAt (P := fun _ => True) (List.getElem?_eq_getElem hlt)).bind_panics ?_
        intro m _
        exact (ih hlt (by omega)).bind _

/-- With fewer entries in the map than were counted, `verify` panics in its loop. -/
theorem verify_panics {p : Proof S} {pk : S.G2} {header ph : Option Bytes}
    {disclosed : OrderedMap S.Fr} {total : Nat} (hpos : total ≠ 0) (hpk : pk ≠ 0)
    (hheader : (header.getD []).length < 2 ^ 64) (hshort : total < 2 ^ 64)
    (hrange : ∀ r ∈ disclosed.keys, r < total)
    (hmany : p.mHatList.length + disclosed.length < total) :
    (p.verify B pk header ph (Generators.derive B total) disclosed total).run.Panics := by
  have hcount : total = (Generators.derive B total).hList.length := by simp
  refine MeetsResult.bind_panics (P := fun _ => True) (meets_checkParams hcount hrange) ?_ ?_
  swap
  · intro k hk
    cases hk.mpr ⟨fun h => hpos h.2, hpk⟩
  rintro ⟨⟩ -
  have hexists : ∃ domain, computeDomain B pk header (Generators.derive B total).hList.length
      (Generators.derive B total) = .ok domain :=
    exists_computeDomain_eq_ok_iff.mpr ⟨rfl, hcount ▸ hshort, hheader⟩
  obtain ⟨domain, hdomain⟩ := hexists
  rw [hdomain]
  refine MeetsResult.bind_panics (P := fun _ => True) (S := (· = .ok domain))
    (meetsResult_ofExcept rfl) ?_ (fun k hk => by cases hk)
  rintro _ ⟨⟩
  have hkeys : ∀ k ∈ disclosed.keys, k < (Generators.derive B total).hList.length :=
    fun k hk => hcount ▸ hrange k hk
  have hsplit := length_hiddenPart_add hkeys
  have hscan : (scanGenerators p.mHatList disclosed 0 0 (Generators.derive B total).hList).Panics :=
    scanGenerators_panics (Nat.zero_le _) (by omega)
  apply Panics.emit_bind
  apply Panics.emit_bind
  apply MeetsResult.lift_bind_panics (P := fun _ => True) (meets_p1 trivial)
  rintro base -
  apply Panics.emit_bind
  apply Panics.emit_bind
  exact hscan.lift_bind _

/-- On a repeated index the map holds fewer entries than were counted, so `proof_verify`
    panics once it reaches the loop. -/
theorem proofVerify_panics {publicKey : Bytes} {header ph : Option Bytes} {proof : Bytes}
    {messages : Option (List (Nat × Bytes))} {pk : S.G2} {p : Proof S}
    (hrepeat : ¬ ((messages.getD []).map Prod.fst).Nodup)
    (h : ReachesScan B publicKey header proof (messages.getD []) pk p) :
    (proofVerify B publicKey header ph proof messages).run.Panics := by
  have hfewer : (disclosedOf B (messages.getD [])).length < (messages.getD []).length := by
    have hkeys : ¬ (((messages.getD []).map
        fun entry => (entry.1, messageScalar B entry.2)).map Prod.fst).Nodup := by
      rw [List.map_map]
      exact hrepeat
    simpa [disclosedOf] using OrderedMap.length_ofList_lt hkeys
  apply Panics.emit_bind
  rw [h.key_eq]
  refine MeetsResult.bind_panics (P := fun _ => True) h.proof_eq.meets ?_ (fun k hk => by cases hk)
  rintro _ ⟨⟩
  refine MeetsResult.bind_panics (P := fun _ => True) (S := (· = .ok (disclosedOf B
    (messages.getD [])))) (meetsResult_ofExcept ?_) ?_ (fun k hk => by cases hk)
  · exact digestRevealedProofMessages_eq_ok_iff.mpr ⟨h.in_range, h.short, rfl⟩
  rintro _ ⟨⟩
  apply MeetsResult.lift_bind_panics (P := fun _ => True) (meets_new trivial)
  rintro generators rfl
  exact verify_panics (by omega) h.pk_ne_zero h.header_short h.count_short
    (lt_of_mem_keys_disclosedOf h.in_range) (by omega)

/-- A request that does not reach the loop is an error. -/
theorem meets_proofVerify_of_not_reaches {publicKey : Bytes} {header ph : Option Bytes}
    {proof : Bytes} {messages : Option (List (Nat × Bytes))}
    (h : ¬ ∃ pk p, ReachesScan B publicKey header proof (messages.getD []) pk p) :
    MeetsResult (fun _ => True) (fun res => res ≠ .ok true)
      (proofVerify B publicKey header ph proof messages) := by
  apply MeetsResult.emit_bind trivial
  cases hkey : B.g2FromCompressed publicKey with
  | none => exact meetsResult_throw (by simp)
  | some pk =>
  dsimp only
  refine MeetsResult.bind (meets_fromOctets B fun _ _ => trivial).and_returns ?_ (by simp)
  rintro p ⟨-, hret⟩
  refine MeetsResult.bind (S := (· = digestRevealedProofMessages B
    (messages.getD []) (p.mHatList.length + (messages.getD []).length)))
    (meetsResult_ofExcept rfl) ?_ (by simp)
  intro digested hdigested
  obtain ⟨hrange, hshort, rfl⟩ := digestRevealedProofMessages_eq_ok_iff.mp hdigested.symm
  apply MeetsResult.lift_bind (meets_new trivial)
  rintro generators rfl
  have hcount : p.mHatList.length + (messages.getD []).length
      = (Generators.derive B (p.mHatList.length + (messages.getD []).length)).hList.length := by simp
  refine MeetsResult.bind (meets_checkParams hcount (lt_of_mem_keys_disclosedOf hrange)) ?_ (by simp)
  rintro ⟨⟩ hchecks
  obtain ⟨-, hpk⟩ := hchecks.mp rfl
  cases hdomain : computeDomain B pk header
    (Generators.derive B (p.mHatList.length + (messages.getD []).length)).hList.length
    (Generators.derive B (p.mHatList.length + (messages.getD []).length)) with
  | error k => exact meetsResult_ofExcept (by simp)
  | ok domain =>
    exfalso
    obtain ⟨-, hlarge, hheader⟩ := exists_computeDomain_eq_ok_iff.mp ⟨domain, hdomain⟩
    exact h ⟨pk, p, hkey, hpk, hret, hrange, hshort, hheader, hcount ▸ hlarge⟩

end PairingCrypto

end PhiCrypto
