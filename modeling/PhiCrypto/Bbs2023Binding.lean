import PhiCrypto.Bbs2023Wire
import PhiCrypto.NonMalleability

/-!
# A proof of the second suite fixes what it was made for

The challenge of a `bbs-2023` proof hashes the disclosed messages, the domain and the
presentation header; the domain hashes the issuer key and the header. Both hash inputs
can be read back. So one proof string is accepted in one context only, up to the order
of the revealed list, unless one of the hashes collides on the inputs at hand
(`proof_fixes_context`).
-/

namespace PhiCrypto

open Exec

variable {S : Suite}

namespace PairingCrypto

variable {B : Blstrs S}

/-! ### What is hashed -/

/-- The value of `hash_to_scalar` under the default domain tag. -/
def octetsScalar (B : Blstrs S) (octets : Bytes) : S.Fr :=
  (beNat (B.expandMessage octets defaultHashToScalarDst xofNoOfBytes) : ZMod S.r)

theorem hashToScalar_eq_ok_iff {octets : Bytes} {x : S.Fr} :
    hashToScalar B octets defaultHashToScalarDst = .ok x ↔ x = octetsScalar B octets := by
  have hascii : ¬ ∃ x ∈ defaultHashToScalarDst, x ≥ 128 := by decide +kernel
  rw [hashToScalar, rejectIf_bind_eq_ok_iff, and_iff_right hascii]
  constructor
  · intro h
    cases h
    rfl
  · rintro rfl
    rfl

/-- The octets that `compute_domain` hashes. -/
def domainOctets (B : Blstrs S) (pk : S.G2) (header : Bytes) (total : Nat) : Bytes :=
  let generators := Generators.derive B total
  B.g2ToCompressed pk ++ beBytes 8 total ++ B.g1ToCompressed generators.q
    ++ (generators.hList.map B.g1ToCompressed).flatten ++ ciphersuiteId ++ frame 8 header

theorem computeDomain_eq_ok_iff {pk : S.G2} {header : Option Bytes} {total : Nat} {domain : S.Fr} :
    computeDomain B pk header total (Generators.derive B total) = .ok domain ↔
      total < 2 ^ 64 ∧ (header.getD []).length < 2 ^ 64 ∧
        domain = octetsScalar B (domainOctets B pk (header.getD []) total) := by
  rw [computeDomain, rejectIf_bind_eq_ok_iff, derive_hList_length, not_not]
  simp only [i2ospWithData, except_bind_eq_ok_iff, i2osp_eight_eq_ok_iff, hashToScalar_eq_ok_iff]
  constructor
  · rintro ⟨-, _, ⟨hcount, rfl⟩, _, ⟨_, ⟨hheader, rfl⟩, ⟨⟩⟩, rfl⟩
    exact ⟨hcount, hheader, rfl⟩
  · rintro ⟨hcount, hheader, rfl⟩
    exact ⟨trivial, _, ⟨hcount, rfl⟩, _, ⟨_, ⟨hheader, rfl⟩, rfl⟩, rfl⟩

/-- The octets that `compute_challenge` hashes, up to the presentation header. -/
def challengeHead (B : Blstrs S) (aBar bBar c : S.G1) (disclosed : OrderedMap S.Fr)
    (domain : S.Fr) : Bytes :=
  B.g1ToCompressed aBar ++ B.g1ToCompressed bBar ++ B.g1ToCompressed c
    ++ beBytes 8 disclosed.length ++ (disclosed.keys.map (beBytes 8)).flatten
    ++ (disclosed.entries.map fun e => beBytes 32 e.2.val).flatten ++ beBytes 32 domain.val

/-- The octets that `compute_challenge` hashes. -/
def challengeOctets (B : Blstrs S) (aBar bBar c : S.G1) (disclosed : OrderedMap S.Fr)
    (domain : S.Fr) (ph : Bytes) : Bytes :=
  challengeHead B aBar bBar c disclosed domain ++ frame 8 ph

theorem mapM_i2osp_eq_ok_iff {indices : List Nat} {octets : List Bytes} :
    indices.mapM (fun i => i2osp i 8) = .ok octets ↔
      (∀ i ∈ indices, i < 2 ^ 64) ∧ octets = indices.map (beBytes 8) := by
  induction indices generalizing octets with
  | nil =>
    rw [List.mapM_nil]
    constructor
    · intro h
      cases h
      simp
    · rintro ⟨-, rfl⟩
      rfl
  | cons i indices ih =>
    rw [List.mapM_cons, except_bind_eq_ok_iff]
    simp only [except_bind_eq_ok_iff, i2osp_eight_eq_ok_iff, ih, List.mem_cons, forall_eq_or_imp,
      List.map_cons]
    constructor
    · rintro ⟨_, ⟨hi, rfl⟩, _, ⟨hrest, rfl⟩, ⟨⟩⟩
      exact ⟨⟨hi, hrest⟩, rfl⟩
    · rintro ⟨⟨hi, hrest⟩, rfl⟩
      exact ⟨_, ⟨hi, rfl⟩, _, ⟨hrest, rfl⟩, rfl⟩

theorem computeChallenge_eq_ok_iff {aBar bBar c : S.G1} {disclosed : OrderedMap S.Fr}
    {domain : S.Fr} {ph : Option Bytes} {challenge : S.Fr} :
    computeChallenge B aBar bBar c disclosed domain ph = .ok challenge ↔
      disclosed.length < 2 ^ 64 ∧ (∀ i ∈ disclosed.keys, i < 2 ^ 64) ∧
        (ph.getD []).length < 2 ^ 64 ∧
        challenge = octetsScalar B
          (challengeOctets B aBar bBar c disclosed domain (ph.getD [])) := by
  simp only [computeChallenge, i2ospWithData, except_bind_eq_ok_iff, i2osp_eight_eq_ok_iff,
    mapM_i2osp_eq_ok_iff, hashToScalar_eq_ok_iff]
  constructor
  · rintro ⟨_, ⟨hcount, rfl⟩, _, ⟨hindices, rfl⟩, _, ⟨_, ⟨hph, rfl⟩, ⟨⟩⟩, rfl⟩
    exact ⟨hcount, hindices, hph, rfl⟩
  · rintro ⟨hcount, hindices, hph, rfl⟩
    exact ⟨_, ⟨hcount, rfl⟩, _, ⟨hindices, rfl⟩, _, ⟨_, ⟨hph, rfl⟩, rfl⟩, rfl⟩

/-! ### The hash inputs can be read back -/

/-- The issuer key, the number of messages and the header stand in the domain octets. -/
theorem domainOctets_injective (hB : B.Canonical) {pk pk' : S.G2} {header header' : Bytes}
    {total total' : Nat} (htotal : total < 2 ^ 64) (htotal' : total' < 2 ^ 64)
    (h : domainOctets B pk header total = domainOctets B pk' header' total') :
    pk = pk' ∧ total = total' ∧ header = header' := by
  simp only [domainOctets, List.append_assoc] at h
  obtain ⟨hpk, h⟩ := append_split (by rw [hB.g2_length, hB.g2_length]) h
  obtain ⟨hcount, h⟩ := append_split (by simp) h
  obtain rfl : total = total' := beBytes_injective (by omega) (by omega) hcount
  have hframe : frame 8 header = frame 8 header' :=
    List.append_cancel_left (List.append_cancel_left (List.append_cancel_left h))
  exact ⟨hB.g2_injective hpk, rfl, frame_injective hframe⟩

theorem map_beBytes_injective {ks ks' : List Nat} (hks : ∀ k ∈ ks, k < 2 ^ 64)
    (hks' : ∀ k ∈ ks', k < 2 ^ 64) (h : ks.map (beBytes 8) = ks'.map (beBytes 8)) : ks = ks' := by
  have hback : ∀ l : List Nat, (∀ k ∈ l, k < 2 ^ 64) → (l.map (beBytes 8)).map beNat = l := by
    intro l hl
    rw [List.map_map]
    refine Eq.trans (List.map_congr_left ?_) (List.map_id l)
    intro k hk
    exact beNat_beBytes (by have := hl k hk; omega)
  rw [← hback ks hks, h, hback ks' hks']

theorem beBytes_val_injective {x y : S.Fr} (h : beBytes 32 x.val = beBytes 32 y.val) : x = y := by
  have hread := scalarFromBytesBe_beBytes x
  rw [h, scalarFromBytesBe_beBytes] at hread
  exact (Option.some.inj hread).symm

/-- So do the points of the proof, the disclosed messages and the domain in the challenge
    octets. What follows them is read off as well. -/
theorem challengeHead_append_split (hB : B.Canonical) {aBar aBar' bBar bBar' c c' : S.G1}
    {disclosed disclosed' : OrderedMap S.Fr} {domain domain' : S.Fr} {s s' : Bytes}
    (hcount : disclosed.length < 2 ^ 64) (hcount' : disclosed'.length < 2 ^ 64)
    (hkeys : ∀ k ∈ disclosed.keys, k < 2 ^ 64) (hkeys' : ∀ k ∈ disclosed'.keys, k < 2 ^ 64)
    (h : challengeHead B aBar bBar c disclosed domain ++ s
      = challengeHead B aBar' bBar' c' disclosed' domain' ++ s') :
    (aBar = aBar' ∧ bBar = bBar' ∧ c = c' ∧ disclosed = disclosed' ∧ domain = domain') ∧
      s = s' := by
  have hpoint (P P' : S.G1) : (B.g1ToCompressed P).length = (B.g1ToCompressed P').length := by
    rw [hB.g1_length, hB.g1_length]
  simp only [challengeHead, List.append_assoc] at h
  obtain ⟨haBar, h⟩ := append_split (hpoint _ _) h
  obtain ⟨hbBar, h⟩ := append_split (hpoint _ _) h
  obtain ⟨hc, h⟩ := append_split (hpoint _ _) h
  obtain ⟨hlen, h⟩ := append_split (by simp) h
  have hlen : disclosed.length = disclosed'.length :=
    beBytes_injective (by omega) (by omega) hlen
  obtain ⟨hindices, h⟩ := flatten_append_split (beBytes_length 8) (beBytes_length 8)
    (by rw [OrderedMap.length_keys, OrderedMap.length_keys, hlen]) h
  have hindices := map_beBytes_injective hkeys hkeys' hindices
  obtain ⟨hvalues, h⟩ := flatten_append_split (fun _ => beBytes_length 32 _)
    (fun _ => beBytes_length 32 _) hlen h
  obtain ⟨hdomain, h⟩ := append_split (by simp) h
  refine ⟨⟨hB.g1_injective haBar, hB.g1_injective hbBar, hB.g1_injective hc, ?_,
    beBytes_val_injective hdomain⟩, h⟩
  -- The entries agree since their keys do and their values do, position by position.
  have hentries : disclosed.entries = disclosed'.entries := by
    apply List.ext_getElem hlen
    intro i hi hi'
    have hkey : (disclosed.keys)[i]? = (disclosed'.keys)[i]? := by rw [hindices]
    have hvalue := congrArg (fun l => l[i]?) hvalues
    simp only [OrderedMap.keys, List.getElem?_map, List.getElem?_eq_getElem hi,
      List.getElem?_eq_getElem hi', Option.map_some, Option.some.injEq] at hkey hvalue
    exact Prod.ext hkey (beBytes_val_injective hvalue)
  cases disclosed
  cases disclosed'
  cases hentries
  rfl

end PairingCrypto

/-! ### Contexts -/

/-- What `bbs_2023::proof_verify` takes beside the proof. -/
structure Bbs2023Context where
  publicKey : Bytes
  header : Bytes
  presentationHeader : Bytes
  revealed : List (Nat × Bytes)

namespace Bbs2023Context

variable {B : Blstrs S} {ctx ctx' : Bbs2023Context}

def verify (B : Blstrs S) (ctx : Bbs2023Context) (proof : Bytes) : Exec Event Bool :=
  bbs2023ProofVerify B ctx.publicKey ctx.header ctx.presentationHeader proof ctx.revealed

/-- The issuer key as a point. -/
def key (B : Blstrs S) (ctx : Bbs2023Context) : S.G2 := (B.g2FromCompressed ctx.publicKey).getD 0

def total (ctx : Bbs2023Context) (p : PairingCrypto.Proof S) : Nat :=
  p.mHatList.length + ctx.revealed.length

def domainOctets (B : Blstrs S) (ctx : Bbs2023Context) (p : PairingCrypto.Proof S) : Bytes :=
  PairingCrypto.domainOctets B (ctx.key B) ctx.header (ctx.total p)

def domain (B : Blstrs S) (ctx : Bbs2023Context) (p : PairingCrypto.Proof S) : S.Fr :=
  PairingCrypto.octetsScalar B (ctx.domainOctets B p)

def disclosed (B : Blstrs S) (ctx : Bbs2023Context) : OrderedMap S.Fr :=
  PairingCrypto.disclosedOf B ctx.revealed

/-- The commitment that the verifier rebuilds. -/
def commitment (B : Blstrs S) (ctx : Bbs2023Context) (p : PairingCrypto.Proof S) : S.G1 :=
  p.commitment B (ctx.disclosed B) (ctx.total p) (ctx.domain B p)

def challengeHead (B : Blstrs S) (ctx : Bbs2023Context) (p : PairingCrypto.Proof S) : Bytes :=
  PairingCrypto.challengeHead B p.aBar p.bBar (ctx.commitment B p) (ctx.disclosed B)
    (ctx.domain B p)

/-- What the verifier hashes for the challenge of `p` in this context. -/
def challengeOctets (B : Blstrs S) (ctx : Bbs2023Context) (p : PairingCrypto.Proof S) : Bytes :=
  ctx.challengeHead B p ++ frame 8 ctx.presentationHeader

/-- The same context, up to the order of the revealed list. -/
structure Same (ctx ctx' : Bbs2023Context) : Prop where
  publicKey_eq : ctx.publicKey = ctx'.publicKey
  header_eq : ctx.header = ctx'.header
  presentationHeader_eq : ctx.presentationHeader = ctx'.presentationHeader
  revealed_perm : ctx.revealed.Perm ctx'.revealed

theorem opt_getD (b : Bytes) : (opt b).getD [] = b := by
  cases b <;> rfl

/-- What acceptance says of a context, in terms of the hash inputs. -/
structure Accepted (B : Blstrs S) (ctx : Bbs2023Context) (p : PairingCrypto.Proof S) : Prop where
  key_length : ctx.publicKey.length = 96
  key_eq : B.g2FromCompressed ctx.publicKey = some (ctx.key B)
  key_ne : ctx.key B ≠ 0
  distinct : (ctx.revealed.map Prod.fst).Nodup
  in_range : ∀ k ∈ (ctx.disclosed B).keys, k < ctx.total p
  total_lt : ctx.total p < 2 ^ 64
  header_lt : ctx.header.length < 2 ^ 64
  nonempty : ¬ (opt ctx.header = none ∧ ctx.total p = 0)
  challenge_eq : p.c = PairingCrypto.octetsScalar B (ctx.challengeOctets B p)
  pairing : S.pairing p.aBar (ctx.key B) + S.pairing p.bBar (-B.g2Generator) = 0

theorem accepted_of_returns {proof : Bytes} {p : PairingCrypto.Proof S}
    (hp : (PairingCrypto.Proof.fromOctets B proof).run.Returns (.ok p))
    (h : (ctx.verify B proof).Returns true) : ctx.Accepted B p := by
  have hacc := bbs2023ProofVerify_returns_true_iff.mp h
  obtain ⟨pk, p', haccepts⟩ := hacc.accepts
  cases hp.unique haccepts.proof_eq
  have hkey : ctx.key B = pk := by rw [key, haccepts.key_eq]; rfl
  obtain ⟨domain, hdomain, hchallenge⟩ := haccepts.valid.challenge
  obtain ⟨htotal, hheader, rfl⟩ := PairingCrypto.computeDomain_eq_ok_iff.mp hdomain
  obtain ⟨-, -, -, hc⟩ := PairingCrypto.computeChallenge_eq_ok_iff.mp hchallenge
  rw [opt_getD] at hheader
  rw [opt_getD, opt_getD, ← hkey] at hc
  exact
    { key_length := hacc.key_length
      key_eq := hkey ▸ haccepts.key_eq
      key_ne := hkey ▸ haccepts.valid.pk_ne_zero
      distinct := hacc.distinct
      in_range := PairingCrypto.lt_of_mem_keys_disclosedOf haccepts.in_range
      total_lt := htotal
      header_lt := hheader
      nonempty := haccepts.valid.nonempty
      challenge_eq := hc
      pairing := hkey ▸ haccepts.valid.pairing }

theorem Accepted.length_disclosed {p : PairingCrypto.Proof S} (h : ctx.Accepted B p) :
    (ctx.disclosed B).length = ctx.revealed.length := by
  rw [disclosed, PairingCrypto.disclosedOf, OrderedMap.length_ofList, List.length_map]
  rw [List.map_map]
  exact h.distinct

theorem Accepted.length_disclosed_lt {p : PairingCrypto.Proof S} (h : ctx.Accepted B p) :
    (ctx.disclosed B).length < 2 ^ 64 := by
  have htotal : ctx.total p = p.mHatList.length + ctx.revealed.length := rfl
  have hlt := h.total_lt
  rw [h.length_disclosed]
  omega

theorem Accepted.keys_lt {p : PairingCrypto.Proof S} (h : ctx.Accepted B p) :
    ∀ k ∈ (ctx.disclosed B).keys, k < 2 ^ 64 :=
  fun k hk => (h.in_range k hk).trans h.total_lt

/-- Equal disclosed messages come from the same revealed entries, unless two messages at one
    index have the same scalar. -/
theorem revealed_subset (h : (ctx.revealed.map Prod.fst).Nodup)
    (h' : (ctx'.revealed.map Prod.fst).Nodup) (hdisclosed : ctx.disclosed B = ctx'.disclosed B)
    (hmessages : ∀ e ∈ ctx.revealed, ∀ e' ∈ ctx'.revealed, e.1 = e'.1 →
      NoCollision (PairingCrypto.messageScalar B) e.2 e'.2) :
    ctx.revealed ⊆ ctx'.revealed := by
  intro e he
  have hperm : ∀ ctx : Bbs2023Context, (ctx.revealed.map Prod.fst).Nodup →
      (ctx.disclosed B).entries.Perm
        (ctx.revealed.map fun e => (e.1, PairingCrypto.messageScalar B e.2)) := by
    intro ctx hnodup
    apply OrderedMap.perm_entries_ofList
    rw [List.map_map]
    exact hnodup
  have hmem : (e.1, PairingCrypto.messageScalar B e.2) ∈ (ctx.disclosed B).entries :=
    (hperm ctx h).mem_iff.mpr (List.mem_map.mpr ⟨e, he, rfl⟩)
  rw [hdisclosed, (hperm ctx' h').mem_iff, List.mem_map] at hmem
  obtain ⟨e', he', heq⟩ := hmem
  obtain ⟨hindex, hscalar⟩ := Prod.mk.inj heq
  have hvalue := hmessages e he e' he' hindex.symm hscalar.symm
  have hentry : e = e' := Prod.ext hindex.symm hvalue
  exact hentry ▸ he'

theorem Same.verify_iff {proof : Bytes} (hsame : ctx.Same ctx') :
    (ctx.verify B proof).Returns true ↔ (ctx'.verify B proof).Returns true := by
  obtain ⟨hkey, hheader, hph, hperm⟩ := hsame
  have hnodup := (hperm.map Prod.fst).nodup_iff
  rw [verify, verify, bbs2023ProofVerify_returns_true_iff, bbs2023ProofVerify_returns_true_iff,
    hkey, hheader, hph]
  have hlength := hperm.length_eq
  have hdisclosed (hdistinct : (ctx.revealed.map Prod.fst).Nodup) :
      PairingCrypto.disclosedOf B ctx.revealed = PairingCrypto.disclosedOf B ctx'.revealed := by
    apply OrderedMap.ofList_perm (hperm.map _)
    rw [List.map_map]
    exact hdistinct
  constructor
  · rintro ⟨hlen, hdistinct, pk, p, h⟩
    refine ⟨hlen, hnodup.mp hdistinct, pk, p, h.key_eq, h.proof_eq, ?_, ?_, ?_⟩
    · exact fun e he => hlength ▸ h.in_range e (hperm.mem_iff.mpr he)
    · exact fun e he => h.short e (hperm.mem_iff.mpr he)
    · exact hdisclosed hdistinct ▸ hlength ▸ h.valid
  · rintro ⟨hlen, hdistinct', pk, p, h⟩
    have hdistinct := hnodup.mpr hdistinct'
    refine ⟨hlen, hdistinct, pk, p, h.key_eq, h.proof_eq, ?_, ?_, ?_⟩
    · exact fun e he => hlength.symm ▸ h.in_range e (hperm.mem_iff.mp he)
    · exact fun e he => h.short e (hperm.mem_iff.mp he)
    · exact (hdisclosed hdistinct).symm ▸ hlength.symm ▸ h.valid

end Bbs2023Context

variable {B : Blstrs S}

/-- **One context.** A proof string that is accepted in one context is accepted in another
    exactly when they are the same up to the order of the revealed list: the issuer key, the
    header, the presentation header and every revealed claim at its index are bound. The
    hashes do not collide on the domains, the challenges and the revealed claims at hand. -/
theorem proof_fixes_context (hB : B.Canonical) {proof : Bytes} {p : PairingCrypto.Proof S}
    (hp : (PairingCrypto.Proof.fromOctets B proof).run.Returns (.ok p))
    (ctx ctx' : Bbs2023Context) (h : (ctx.verify B proof).Returns true)
    (hchallenge : NoCollision (PairingCrypto.octetsScalar B) (ctx.challengeOctets B p)
      (ctx'.challengeOctets B p))
    (hdomain : NoCollision (PairingCrypto.octetsScalar B) (ctx.domainOctets B p)
      (ctx'.domainOctets B p))
    (hmessages : ∀ e ∈ ctx.revealed, ∀ e' ∈ ctx'.revealed, e.1 = e'.1 →
      NoCollision (PairingCrypto.messageScalar B) e.2 e'.2) :
    (ctx'.verify B proof).Returns true ↔ ctx.Same ctx' := by
  refine ⟨fun h' => ?_, fun hsame => hsame.verify_iff.mp h⟩
  have hacc := Bbs2023Context.accepted_of_returns hp h
  have hacc' := Bbs2023Context.accepted_of_returns hp h'
  have hoctets := hchallenge (hacc.challenge_eq.symm.trans hacc'.challenge_eq)
  obtain ⟨⟨-, -, -, hdisclosed, hscalar⟩, hph⟩ := PairingCrypto.challengeHead_append_split hB
    hacc.length_disclosed_lt hacc'.length_disclosed_lt hacc.keys_lt hacc'.keys_lt hoctets
  have hph := frame_injective hph
  obtain ⟨hkey, -, hheader⟩ :=
    PairingCrypto.domainOctets_injective hB hacc.total_lt hacc'.total_lt (hdomain hscalar)
  refine ⟨?_, hheader, hph, ?_⟩
  · rw [hB.g2_canonical _ _ hacc.key_length hacc.key_eq hacc.key_ne, hkey]
    exact (hB.g2_canonical _ _ hacc'.key_length hacc'.key_eq hacc'.key_ne).symm
  · apply (List.perm_ext_iff_of_nodup hacc.distinct.of_map hacc'.distinct.of_map).mpr
    intro e
    refine ⟨fun he => ?_, fun he => ?_⟩
    · exact Bbs2023Context.revealed_subset hacc.distinct hacc'.distinct hdisclosed hmessages he
    · refine Bbs2023Context.revealed_subset hacc'.distinct hacc.distinct hdisclosed.symm ?_ he
      intro e he e' he' hindex heq
      exact (hmessages e' he' e he hindex.symm heq.symm).symm

/-- A proof that reveals the claims `[4]` and `[1]` under the presentation header `[7]`. -/
def bothRevealedProof : PairingCrypto.Proof smallSuite where
  aBar := SmallSuite.elem 3
  bBar := SmallSuite.elem 5
  r2Hat := SmallSuite.elem 4
  zHat := SmallSuite.elem 2
  mHatList := []
  c := SmallSuite.elem 5

def bothRevealedContext : Bbs2023Context where
  publicKey := smallBbs2023Key
  header := []
  presentationHeader := [7]
  revealed := [(0, [4]), (1, [1])]

/-- The revealed list may be reordered; the presentation header may not be changed. -/
theorem bothRevealedProof_fixes_context :
    (Bbs2023Context.verify smallBlstrs { bothRevealedContext with revealed := [(1, [1]), (0, [4])] }
        (bothRevealedProof.toOctets smallBlstrs)).Returns true ∧
      ¬ (Bbs2023Context.verify smallBlstrs { bothRevealedContext with presentationHeader := [8] }
        (bothRevealedProof.toOctets smallBlstrs)).Returns true := by
  have hne : bothRevealedProof.NonZero :=
    ⟨by decide, by decide, by decide, by decide, by decide, by decide⟩
  have hp := (PairingCrypto.returns_fromOctets_iff smallBlstrs_canonical).mpr ⟨hne, rfl⟩
  have haccepted : (bothRevealedContext.verify smallBlstrs
      (bothRevealedProof.toOctets smallBlstrs)).Returns true := by
    decide +kernel
  have hmessages : ∀ revealed : List (Nat × Bytes), revealed ⊆ bothRevealedContext.revealed →
      ∀ e ∈ bothRevealedContext.revealed, ∀ e' ∈ revealed, e.1 = e'.1 →
        NoCollision (PairingCrypto.messageScalar smallBlstrs) e.2 e'.2 := by
    intro revealed hsub e he e' he' hindex _
    have hdistinct : (bothRevealedContext.revealed.map Prod.fst).Nodup := by decide
    rw [List.inj_on_of_nodup_map hdistinct he (hsub he') hindex]
  constructor
  · refine (proof_fixes_context smallBlstrs_canonical hp bothRevealedContext _ haccepted ?_ ?_
      (hmessages _ (by decide))).mpr ⟨rfl, rfl, rfl, List.Perm.swap _ _ _⟩
    · intro _
      decide +kernel
    · exact fun _ => rfl
  · intro hreplayed
    have hsame := (proof_fixes_context smallBlstrs_canonical hp bothRevealedContext
      { bothRevealedContext with presentationHeader := [8] } haccepted
      (fun hcollision => absurd hcollision (by decide +kernel)) (fun _ => rfl)
      (hmessages _ (List.Subset.refl _))).mp hreplayed
    exact absurd hsame.presentationHeader_eq (by decide)

end PhiCrypto
