import PhiCrypto.BbsPlusProver
import PhiCrypto.Voting

/-!
# The provers

`DocknetBbsPlus::derive_proof` and `voting_snark::prove_vote`, with the random
tape explicit. For inputs that pass their checks both draw their coins and
compute on them: `deriveProof_run` and `proveOpened_run` say what comes out.
-/

namespace PhiCrypto

open MessageOrBlinding

variable {S : Suite}

/-- A `Result` that draws nothing. -/
def liftExcept {κ F α : Type} (x : Except κ α) : ExceptT κ (Rng F) α := ExceptT.mk (pure x)

/-- The revealed messages that a prover puts into its transcript. -/
def provenMessages (revealSet : OrderedMap Unit) (messages : List S.Fr) : OrderedMap S.Fr :=
  OrderedMap.ofList (revealSet.keys.map fun i => (i, messages.getD i 0))

/-- The revealed claims that a prover puts into its proof. -/
def provenClaims (revealSet : OrderedMap Unit) (claims : List Bytes) : List (UInt32 × Bytes) :=
  revealSet.keys.map fun i => (UInt32.ofNat i, claims.getD i [])

/-- The error of a reveal index that is no claim. -/
def revealOutOfRange : CryptoError := .invalidInput "reveal index out of range"

/-! ### `derive_proof` -/

/-- How `derive_proof` treats each message. -/
def deriveMarks (revealSet : OrderedMap Unit) (messages : List S.Fr) :
    List (MessageOrBlinding S.Fr) :=
  messages.zipIdx.map fun e =>
    if revealSet.contains e.2 then revealMessage e.1 else blindMessageRandomly e.1

def deriveProof (H : Bytes → S.Fr) (claims : List Bytes) (signature : Bytes) (reveal : List Nat)
    (nonce : Bytes) : ExceptT CryptoError (Rng S.Fr) SelectiveProof := do
  rejectIf (claims = []) (CryptoError.invalidInput "no claims")
  rejectIf (claims.length > maxBbsMessages) countRangeError
  let count := claims.length
  let params := paramsOf S count
  let sig ← liftExcept (deser SignatureG1.decoder signature)
  let messages := claims.map (claimToFr S)
  let revealSet := OrderedMap.ofKeys reveal
  rejectIf (∃ i ∈ revealSet.keys, i ≥ count) revealOutOfRange
  let pok ← ExceptT.adapt (fun _ => CryptoError.backend "bbs pok init")
    (PoKOfSignatureG1Protocol.init sig params (deriveMarks revealSet messages))
  let c := H (proofTranscript (pok.contribution (provenMessages revealSet messages) params) nonce)
  let proof ← liftExcept ((pok.genProof c).mapError fun _ => CryptoError.backend "bbs gen_proof")
  pure
    { messageCount := UInt32.ofNat count, proof := proof.ser,
      revealed := provenClaims revealSet claims }

/-! ### `prove_vote` -/

/-- `blinded_mul`, for the blind that it draws. -/
def blindedMul (base : S.G1) (scalar blind : S.Fr) : S.G1 :=
  (scalar + blind) • base - blind • base

theorem blindedMul_eq (base : S.G1) (scalar blind : S.Fr) :
    blindedMul base scalar blind = scalar • base := by
  rw [blindedMul, add_smul, add_sub_cancel_right]

structure PokDiscreteLogProtocol (S : Suite) where
  t : S.G1
  blinding : S.Fr
  witness : S.Fr

namespace PokDiscreteLogProtocol

def init (witness blinding : S.Fr) (base : S.G1) : PokDiscreteLogProtocol S where
  t := blinding • base
  blinding := blinding
  witness := witness

def genProof (p : PokDiscreteLogProtocol S) (challenge : S.Fr) : PokDiscreteLog S where
  t := p.t
  response := p.blinding + p.witness * challenge

end PokDiscreteLogProtocol

/-- How `prove_vote` treats each message: the voter secret is blinded with `r0`,
    the blinding of the discrete-logarithm proof. -/
def voteMarks (revealSet : OrderedMap Unit) (r0 : S.Fr) (messages : List S.Fr) :
    List (MessageOrBlinding S.Fr) :=
  messages.zipIdx.map fun e =>
    if e.2 = voterSecretMsgIndex then blindMessageWithConcreteBlinding e.1 r0
    else if revealSet.contains e.2 then revealMessage e.1
    else blindMessageRandomly e.1

/-- The second half of `prove_vote`: the inputs are checked and decoded, the
    nullifier and the two proofs are computed. -/
def proveOpened (H : Bytes → S.Fr) (claims : List Bytes) (sig : SignatureG1 S) (issuerPk : S.G2)
    (revealSet : OrderedMap Unit) (chainId electionId signal : Bytes) :
    ExceptT CryptoError (Rng S.Fr) (VoteProof S) := do
  let count := claims.length
  let params := paramsOf S count
  let messages := claims.map (claimToFr S)
  let m0 := messages.getD voterSecretMsgIndex 0
  let r0 ← liftM (Rng.draw : Rng S.Fr S.Fr)
  let hE ← liftExcept (hashToG1 S electionId)
  let blind ← liftM (Rng.draw : Rng S.Fr S.Fr)
  let nullifier := blindedMul hE m0 blind
  rejectIf (nullifier = 0) nullifierIsIdentity
  let pok ← ExceptT.adapt (fun _ => CryptoError.backend "bbs pok init")
    (PoKOfSignatureG1Protocol.init sig params (voteMarks revealSet r0 messages))
  let dl := PokDiscreteLogProtocol.init m0 r0 hE
  let c ← liftExcept (computeChallenge H
    (pok.contribution (provenMessages revealSet messages) params)
    (PokDiscreteLog.challengeContribution hE nullifier dl.t) (UInt32.ofNat count)
    (S.g2Codec.ser issuerPk) chainId electionId (S.g1Codec.ser nullifier) signal)
  let bbsProof ← liftExcept ((pok.genProof c).mapError fun _ => CryptoError.backend "bbs gen_proof")
  pure
    { messageCount := UInt32.ofNat count, revealed := provenClaims revealSet claims,
      bbsProof := bbsProof.ser, dlProof := (dl.genProof c).ser, nullifier }

def proveVote (H : Bytes → S.Fr) (claims : List Bytes) (signature issuerPublicKey : Bytes)
    (reveal : List Nat) (chainId electionId signal : Bytes) :
    ExceptT CryptoError (Rng S.Fr) (VoteProof S) := do
  rejectIf (claims = []) (CryptoError.invalidInput "no claims")
  rejectIf (claims.length > maxBbsMessages) countRangeError
  rejectIf (claims[voterSecretMsgIndex]? = none) (CryptoError.invalidInput "no voter-secret message")
  let revealSet := OrderedMap.ofKeys reveal
  rejectIf (∃ i ∈ revealSet.keys, i ≥ claims.length) revealOutOfRange
  rejectIf (revealSet.contains voterSecretMsgIndex = true) voterSecretRevealed
  let sig ← liftExcept (deser SignatureG1.decoder signature)
  let issuerPk ← liftExcept (deser (publicKeyDecoder S) issuerPublicKey)
  proveOpened H claims sig issuerPk revealSet chainId electionId signal

def proveVoteBytes (H : Bytes → S.Fr) (claims : List Bytes) (signature issuerPublicKey : Bytes)
    (reveal : List Nat) (chainId electionId signal : Bytes) :
    ExceptT CryptoError (Rng S.Fr) Bytes := do
  let proof ← proveVote H claims signature issuerPublicKey reveal chainId electionId signal
  liftExcept proof.toBytes

/-! ### Marks -/

section Marks

variable (revealSet : OrderedMap Unit) (messages : List S.Fr)

@[simp] theorem deriveMarks_length : (deriveMarks revealSet messages).length = messages.length := by
  simp [deriveMarks]

@[simp] theorem voteMarks_length (r0 : S.Fr) :
    (voteMarks revealSet r0 messages).length = messages.length := by
  simp [voteMarks]

/-- A marking by index: what each index is turned into, and that the messages stay. -/
theorem marks_zipIdx {F : Type} {f : F × Nat → MessageOrBlinding F}
    (hreveal : ∀ e, (f e).isRevealed = revealSet.contains e.2) (xs : List F) :
    ∀ i, Marks revealSet i ((xs.zipIdx i).map f) := by
  induction xs with
  | nil => intro i; trivial
  | cons x xs ih =>
    intro i
    rw [List.zipIdx_cons, List.map_cons]
    exact ⟨hreveal (x, i), ih (i + 1)⟩

theorem map_message_zipIdx {F : Type} {f : F × Nat → MessageOrBlinding F}
    (hmessage : ∀ e, (f e).message = e.1) (xs : List F) (i : Nat) :
    ((xs.zipIdx i).map f).map message = xs := by
  rw [List.map_map]
  have hcomp : message ∘ f = Prod.fst := funext hmessage
  rw [hcomp, List.zipIdx_map_fst]

theorem marks_deriveMarks : Marks revealSet 0 (deriveMarks revealSet messages) := by
  refine marks_zipIdx revealSet ?_ messages 0
  intro e
  by_cases h : revealSet.contains e.2 = true
  · simp [h, isRevealed]
  · simp [h, isRevealed]

theorem deriveMarks_message : (deriveMarks revealSet messages).map message = messages := by
  refine map_message_zipIdx ?_ messages 0
  intro e
  by_cases h : revealSet.contains e.2 = true
  · simp [h, message]
  · simp [h, message]

variable {revealSet}

theorem marks_voteMarks (hsecret : revealSet.contains voterSecretMsgIndex = false) (r0 : S.Fr) :
    Marks revealSet 0 (voteMarks revealSet r0 messages) := by
  refine marks_zipIdx revealSet ?_ messages 0
  intro e
  by_cases hzero : e.2 = voterSecretMsgIndex
  · simp [hzero, hsecret, isRevealed]
  · by_cases h : revealSet.contains e.2 = true
    · simp [hzero, h, isRevealed]
    · simp [hzero, h, isRevealed]

theorem voteMarks_message (r0 : S.Fr) :
    (voteMarks revealSet r0 messages).map message = messages := by
  refine map_message_zipIdx ?_ messages 0
  intro e
  by_cases hzero : e.2 = voterSecretMsgIndex
  · simp [hzero, message]
  · by_cases h : revealSet.contains e.2 = true
    · simp [hzero, h, message]
    · simp [hzero, h, message]

end Marks

/-! ### The revealed messages of a prover -/

section Proven

variable {revealSet : OrderedMap Unit} {messages messages' : List S.Fr}

theorem mem_keys_provenMessages {k : Nat} :
    k ∈ (provenMessages revealSet messages).keys ↔ k ∈ revealSet.keys := by
  rw [provenMessages, OrderedMap.mem_keys_ofList, List.map_map]
  simp

/-- The prover's map holds revealed messages only. -/
theorem getElem?_of_get?_provenMessages {j : Nat} {m : S.Fr}
    (hget : (provenMessages revealSet messages).get? j = some m) (hj : j < messages.length) :
    messages[j]? = some m := by
  have hkey : j ∈ revealSet.keys := by
    have hproven : j ∈ (provenMessages revealSet messages).keys := by
      rw [OrderedMap.mem_keys_iff, hget]
      rfl
    exact mem_keys_provenMessages.mp hproven
  have hnodup : ((revealSet.keys.map fun i => (i, messages.getD i 0)).map Prod.fst).Nodup := by
    rw [List.map_map]
    simpa [Function.comp_def] using revealSet.keys_nodup
  have hmem : (j, messages.getD j 0) ∈ revealSet.keys.map fun i => (i, messages.getD i 0) :=
    List.mem_map.mpr ⟨j, hkey, rfl⟩
  have hvalue := OrderedMap.get?_ofList_of_mem hnodup hmem
  cases hget.symm.trans hvalue
  simp [List.getD, hj]

theorem provenMessages_congr (h : ∀ i ∈ revealSet.keys, messages[i]? = messages'[i]?) :
    provenMessages revealSet messages = provenMessages revealSet messages' := by
  rw [provenMessages, provenMessages]
  congr 1
  refine List.map_congr_left fun i hi => ?_
  rw [List.getD_eq_getElem?_getD, List.getD_eq_getElem?_getD, h i hi]

theorem provenClaims_congr {claims claims' : List Bytes}
    (h : ∀ i ∈ revealSet.keys, claims[i]? = claims'[i]?) :
    provenClaims revealSet claims = provenClaims revealSet claims' := by
  rw [provenClaims, provenClaims]
  refine List.map_congr_left fun i hi => ?_
  rw [List.getD_eq_getElem?_getD, List.getD_eq_getElem?_getD, h i hi]

theorem marks_provenMessages {mbs : List (MessageOrBlinding S.Fr)} {i : Nat}
    (h : Marks revealSet i mbs) : Marks (provenMessages revealSet messages) i mbs := by
  induction mbs generalizing i with
  | nil => trivial
  | cons mb mbs ih =>
    refine ⟨h.1.trans ?_, ih h.2⟩
    rw [Bool.eq_iff_iff, OrderedMap.contains_iff, OrderedMap.contains_iff, mem_keys_provenMessages]

/-! The revealed claims of a prover, as a verifier reads them. -/

variable {claims : List Bytes}

/-- The cast of an index to `u32` loses nothing below `2^32`. -/
theorem toNat_ofNat_of_lt {i : Nat} (h : i < 2 ^ 32) : (UInt32.ofNat i).toNat = i :=
  UInt32.toNat_ofNat_of_lt' (by rwa [UInt32.size])

/-- A count or an index within the claim ceiling survives the cast to `u32`. -/
theorem toNat_ofNat_of_le {i : Nat} (h : i ≤ 64) : (UInt32.ofNat i).toNat = i :=
  toNat_ofNat_of_lt (by omega)

/-- The claims that the prover writes out are the messages of its transcript. -/
theorem messagesOf_provenClaims (hkeys : ∀ i ∈ revealSet.keys, i < claims.length)
    (hcount : claims.length ≤ 64) :
    messagesOf S (provenClaims revealSet claims)
      = provenMessages revealSet (claims.map (claimToFr S)) := by
  rw [messagesOf, provenMessages, provenClaims, List.map_map]
  congr 1
  refine List.map_congr_left fun i hi => ?_
  have hlt := hkeys i hi
  simp only [Function.comp_apply, toNat_ofNat_of_le (hlt.le.trans hcount), List.getD,
    List.getElem?_map, List.getElem?_eq_getElem hlt, Option.map_some, Option.getD_some]

theorem mem_provenClaims {entry : UInt32 × Bytes} (h : entry ∈ provenClaims revealSet claims) :
    ∃ i ∈ revealSet.keys, entry = (UInt32.ofNat i, claims.getD i []) := by
  obtain ⟨i, hi, heq⟩ := List.mem_map.mp h
  exact ⟨i, hi, heq.symm⟩

theorem revealedIndices_provenClaims (hkeys : ∀ i ∈ revealSet.keys, i < claims.length)
    (hcount : claims.length ≤ 2 ^ 32) :
    revealedIndices (provenClaims revealSet claims) = revealSet.keys := by
  rw [revealedIndices, provenClaims, List.map_map]
  refine (List.map_congr_left fun i hi => ?_).trans (List.map_id _)
  have hlt := hkeys i hi
  exact toNat_ofNat_of_lt (hlt.trans_le hcount)

theorem provenClaims_increasing (hkeys : ∀ i ∈ revealSet.keys, i < claims.length)
    (hcount : claims.length ≤ 2 ^ 32) :
    ((provenClaims revealSet claims).map Prod.fst).Pairwise (· < ·) := by
  have hindices := revealedIndices_provenClaims hkeys hcount
  have hsorted := revealSet.keys_sorted
  rw [← hindices, revealedIndices, List.pairwise_map] at hsorted
  exact List.pairwise_map.mpr (hsorted.imp fun h => UInt32.lt_iff_toNat_lt.mpr h)

theorem provenClaims_short (hkeys : ∀ i ∈ revealSet.keys, i < claims.length)
    (hshort : ∀ claim ∈ claims, claim.length < 2 ^ 32) :
    ∀ entry ∈ provenClaims revealSet claims, entry.2.length < 2 ^ 32 := by
  intro entry hentry
  obtain ⟨i, hi, rfl⟩ := mem_provenClaims hentry
  have hlt := hkeys i hi
  apply hshort
  rw [List.getD, List.getElem?_eq_getElem hlt, Option.getD_some]
  exact List.getElem_mem hlt

end Proven

/-! ### What the provers return -/

section Steps

variable {κ κ' F α β : Type}

theorem liftExcept_ok_bind (a : α) (f : α → ExceptT κ (Rng F) β) :
    (liftExcept (.ok a) >>= f) = f a := rfl

theorem liftExcept_error_bind (e : κ) (f : α → ExceptT κ (Rng F) β) :
    (liftExcept (.error e) >>= f) = throw e := rfl

theorem adapt_liftM (f : κ → κ') (x : Rng F α) :
    ExceptT.adapt f (liftM x : ExceptT κ (Rng F) α) = liftM x := by
  funext tape
  change ((x tape).bind fun p => some (Except.ok p.1, p.2)).bind
    (fun p => some (Except.mapError f p.1, p.2)) = (x tape).bind fun p => some (Except.ok p.1, p.2)
  cases x tape <;> rfl

theorem run_liftM_bind (x : Rng F α) (f : α → ExceptT κ (Rng F) β) (tape : List F) :
    ((liftM x : ExceptT κ (Rng F) α) >>= f).run tape
      = (x tape).bind fun p => (f p.1).run p.2 := by
  change ((x tape).bind fun p => some (Except.ok p.1, p.2)).bind _ = _
  cases x tape <;> rfl

theorem rejectIf_false_bind {bad : Prop} [Decidable bad] (h : ¬ bad) (k : κ)
    (f : Unit → ExceptT κ (Rng F) β) : (rejectIf bad k >>= f) = f () := by
  rw [rejectIf, if_neg h, pure_bind]

theorem rejectIf_true_bind {bad : Prop} [Decidable bad] (h : bad) (k : κ)
    (f : Unit → ExceptT κ (Rng F) β) : (rejectIf bad k >>= f) = throw k := by
  rw [rejectIf, if_pos h]
  rfl

end Steps

/-! ### Runs that succeed -/

/-- Some tape makes the program return `a`. -/
def Succeeds {κ F α : Type} (x : ExceptT κ (Rng F) α) (a : α) : Prop :=
  ∃ tape rest, x.run tape = some (.ok a, rest)

section Succeeds

variable {κ F α β : Type}

/-- A run that has been evaluated on one tape. -/
theorem exists_succeeds {x : ExceptT κ (Rng F) α} (tape : List F)
    (h : (x.run tape).any (fun out => out.1.isOk) = true) : ∃ a, Succeeds x a := by
  obtain ⟨⟨out, rest⟩, hrun, hok⟩ := (Option.any_eq_true _ _).mp h
  cases out with
  | error k => cases hok
  | ok a => exact ⟨a, tape, rest, hrun⟩

theorem succeeds_rejectIf_bind {bad : Prop} [Decidable bad] {k : κ}
    {f : Unit → ExceptT κ (Rng F) β} {b : β} (h : Succeeds (rejectIf bad k >>= f) b) :
    ¬ bad ∧ Succeeds (f ()) b := by
  by_cases hbad : bad
  · rw [rejectIf_true_bind hbad] at h
    rcases h with ⟨tape, rest, hrun⟩
    cases hrun
  · rw [rejectIf_false_bind hbad] at h
    exact ⟨hbad, h⟩

theorem succeeds_liftExcept_bind {x : Except κ α} {f : α → ExceptT κ (Rng F) β} {b : β}
    (h : Succeeds (liftExcept x >>= f) b) : ∃ a, x = .ok a ∧ Succeeds (f a) b := by
  cases x with
  | error e =>
    rw [liftExcept_error_bind] at h
    rcases h with ⟨tape, rest, hrun⟩
    cases hrun
  | ok a =>
    rw [liftExcept_ok_bind] at h
    exact ⟨a, rfl, h⟩

theorem succeeds_liftM_bind {x : Rng F α} {f : α → ExceptT κ (Rng F) β} {b : β}
    (h : Succeeds (liftM x >>= f) b) :
    ∃ a, (∃ tape rest, x tape = some (a, rest)) ∧ Succeeds (f a) b := by
  rcases h with ⟨tape, rest, hrun⟩
  rw [run_liftM_bind, Option.bind_eq_some_iff] at hrun
  rcases hrun with ⟨⟨a, middle⟩, hx, hrest⟩
  exact ⟨a, ⟨tape, middle, hx⟩, middle, rest, hrest⟩

theorem succeeds_bind {x : ExceptT κ (Rng F) α} {f : α → ExceptT κ (Rng F) β} {b : β}
    (h : Succeeds (x >>= f) b) : ∃ a, Succeeds x a ∧ Succeeds (f a) b := by
  rcases h with ⟨tape, rest, hrun⟩
  rw [ExceptT.run_bind, Rng.bind_eq_some_iff] at hrun
  rcases hrun with ⟨out, middle, hx, hrun⟩
  cases out with
  | error k => cases hrun
  | ok a => exact ⟨a, ⟨tape, middle, hx⟩, middle, rest, hrun⟩

theorem succeeds_adapt {κ' : Type} {g : κ' → κ} {x : ExceptT κ' (Rng F) α} {a : α}
    (h : Succeeds (ExceptT.adapt g x) a) : Succeeds x a := by
  rcases h with ⟨tape, rest, hrun⟩
  have hx : (ExceptT.adapt g x).run tape = (x.run tape).map fun p => (p.1.mapError g, p.2) :=
    Rng.map_apply _ x.run tape
  rw [hx, Option.map_eq_some_iff] at hrun
  rcases hrun with ⟨⟨out, rest'⟩, hout, hresult⟩
  cases out with
  | error k => cases hresult
  | ok a' =>
    cases hresult
    exact ⟨tape, rest', hout⟩

end Succeeds

variable {H : Bytes → S.Fr} {claims : List Bytes} {signature : Bytes} {sig : SignatureG1 S}
  {reveal : List Nat} {nonce : Bytes}

/-- The proof that `derive_proof` makes of its coins. -/
def derivedProof (H : Bytes → S.Fr) (claims : List Bytes) (sig : SignatureG1 S)
    (revealSet : OrderedMap Unit) (nonce : Bytes) (k : InitCoins S.Fr) : SelectiveProof :=
  let params := paramsOf S claims.length
  let messages := claims.map (claimToFr S)
  let mbs := deriveMarks revealSet messages
  let c := H (proofTranscript
    ((protocolOf sig params mbs k).contribution (provenMessages revealSet messages) params) nonce)
  { messageCount := UInt32.ofNat claims.length
    proof := (proofOf sig params mbs k c).ser
    revealed := provenClaims revealSet claims }

/-- On inputs that pass its checks, `derive_proof` draws its coins and succeeds. -/
theorem deriveProof_run (H : Bytes → S.Fr) (nonce : Bytes) (hne : claims ≠ []) (hle : claims.length ≤ 64)
    (hsig : deser SignatureG1.decoder signature = .ok sig)
    (hreveal : ∀ i ∈ (OrderedMap.ofKeys reveal).keys, i < claims.length) (tape : List S.Fr) :
    (deriveProof H claims signature reveal nonce).run tape
      = (drawInitCoins ((deriveMarks (OrderedMap.ofKeys reveal)
          (claims.map (claimToFr S))).countP isRandom) tape).map fun p =>
            (.ok (derivedProof H claims sig (OrderedMap.ofKeys reveal) nonce p.1), p.2) := by
  have hmax : ¬ claims.length > maxBbsMessages := by unfold maxBbsMessages; omega
  have hrange : ¬ ∃ i ∈ (OrderedMap.ofKeys reveal).keys, i ≥ claims.length := by
    rintro ⟨i, hi, hge⟩
    have := hreveal i hi
    omega
  have hmarks := marks_deriveMarks (OrderedMap.ofKeys reveal) (claims.map (claimToFr S))
  have hlen : (deriveMarks (OrderedMap.ofKeys reveal) (claims.map (claimToFr S))).length
      = (paramsOf S claims.length).h.length := by simp
  rw [deriveProof, rejectIf_false_bind hne, rejectIf_false_bind hmax, hsig, liftExcept_ok_bind]
  dsimp only
  rw [rejectIf_false_bind hrange, init_eq hlen, adapt_liftM, run_liftM_bind, Rng.map_apply]
  cases hdraw : drawInitCoins ((deriveMarks (OrderedMap.ofKeys reveal)
      (claims.map (claimToFr S))).countP isRandom) tape with
  | none => rfl
  | some p =>
    obtain ⟨k, rest⟩ := p
    have hk := ((lossless_drawInitCoins _).sound hdraw).1
    simp only [Option.map_some, Option.bind_some, genProof_eq hmarks hk]
    rfl

/-- What `prove_vote` draws. -/
structure VoteCoins (F : Type) where
  r0 : F
  blind : F
  init : InitCoins F

/-- The draws of `prove_vote` when `n` messages are blinded randomly. -/
def drawVoteCoins {F : Type} [Zero F] [DecidableEq F] (n : Nat) : Rng F (VoteCoins F) := do
  let r0 ← Rng.draw
  let blind ← Rng.draw
  let init ← drawInitCoins n
  pure { r0, blind, init }

def VoteCoins.tape {F : Type} [Zero F] (k : VoteCoins F) : List F :=
  k.r0 :: k.blind :: k.init.tape

theorem lossless_drawVoteCoins {F : Type} [Zero F] [DecidableEq F] (n : Nat) :
    Rng.Lossless (drawVoteCoins (F := F) n) VoteCoins.tape (fun k => k.init.Drawn n) where
  complete := by
    intro k rest hk
    have hinit := (lossless_drawInitCoins n).complete rest hk
    rw [drawVoteCoins, Rng.bind_eq_some_iff]
    refine ⟨k.r0, k.blind :: (k.init.tape ++ rest), rfl, Rng.bind_eq_some_iff.mpr ?_⟩
    exact ⟨k.blind, k.init.tape ++ rest, rfl, Rng.bind_eq_some_iff.mpr ⟨k.init, rest, hinit, rfl⟩⟩
  sound := by
    intro tape rest k h
    rw [drawVoteCoins, Rng.bind_eq_some_iff] at h
    rcases h with ⟨r0, t₁, hr0, h⟩
    rw [Rng.bind_eq_some_iff] at h
    rcases h with ⟨blind, t₂, hblind, h⟩
    rw [Rng.bind_eq_some_iff] at h
    rcases h with ⟨init, t₃, hinit, h⟩
    cases h
    obtain ⟨-, rfl⟩ := Rng.lossless_draw.sound hr0
    obtain ⟨-, rfl⟩ := Rng.lossless_draw.sound hblind
    obtain ⟨hk, rfl⟩ := (lossless_drawInitCoins n).sound hinit
    exact ⟨hk, rfl⟩

/-- How many blindings are drawn does not depend on the concrete one. -/
theorem countP_voteMarks (revealSet : OrderedMap Unit) (r0 r0' : S.Fr) (messages : List S.Fr) :
    (voteMarks revealSet r0 messages).countP isRandom
      = (voteMarks revealSet r0' messages).countP isRandom := by
  rw [voteMarks, voteMarks, List.countP_map, List.countP_map]
  congr 1
  funext e
  by_cases hzero : e.2 = voterSecretMsgIndex
  · simp [hzero, isRandom]
  · simp [hzero]

/-- The vote that `prove_vote` makes of its coins and the challenge. -/
def voteOf (claims : List Bytes) (sig : SignatureG1 S) (revealSet : OrderedMap Unit) (hE : S.G1)
    (k : VoteCoins S.Fr) (c : S.Fr) : VoteProof S :=
  let messages := claims.map (claimToFr S)
  let m0 := messages.getD voterSecretMsgIndex 0
  { messageCount := UInt32.ofNat claims.length
    revealed := provenClaims revealSet claims
    bbsProof := (proofOf sig (paramsOf S claims.length) (voteMarks revealSet k.r0 messages)
      k.init c).ser
    dlProof := PokDiscreteLog.ser { t := k.r0 • hE, response := k.r0 + m0 * c }
    nullifier := m0 • hE }

/-- The challenge of `prove_vote`. -/
def provenChallenge (H : Bytes → S.Fr) (claims : List Bytes) (sig : SignatureG1 S) (pk : S.G2)
    (revealSet : OrderedMap Unit) (hE : S.G1) (chainId electionId signal : Bytes)
    (k : VoteCoins S.Fr) : Except CryptoError S.Fr :=
  let params := paramsOf S claims.length
  let messages := claims.map (claimToFr S)
  let nullifier := messages.getD voterSecretMsgIndex 0 • hE
  computeChallenge H
    ((protocolOf sig params (voteMarks revealSet k.r0 messages) k.init).contribution
      (provenMessages revealSet messages) params)
    (PokDiscreteLog.challengeContribution hE nullifier (k.r0 • hE)) (UInt32.ofNat claims.length)
    (S.g2Codec.ser pk) chainId electionId (S.g1Codec.ser nullifier) signal

/-- What `prove_vote` computes on its coins. -/
def provenVote (H : Bytes → S.Fr) (claims : List Bytes) (sig : SignatureG1 S) (pk : S.G2)
    (revealSet : OrderedMap Unit) (hE : S.G1) (chainId electionId signal : Bytes)
    (k : VoteCoins S.Fr) : Except CryptoError (VoteProof S) :=
  (provenChallenge H claims sig pk revealSet hE chainId electionId signal k).map
    (voteOf claims sig revealSet hE k)

theorem provenVote_eq_ok_iff {H : Bytes → S.Fr} {claims : List Bytes} {sig : SignatureG1 S}
    {pk : S.G2} {revealSet : OrderedMap Unit} {hE : S.G1} {chainId electionId signal : Bytes}
    {k : VoteCoins S.Fr} {p : VoteProof S} :
    provenVote H claims sig pk revealSet hE chainId electionId signal k = .ok p ↔
      ∃ c, provenChallenge H claims sig pk revealSet hE chainId electionId signal k = .ok c ∧
        p = voteOf claims sig revealSet hE k c := by
  rw [provenVote]
  cases provenChallenge H claims sig pk revealSet hE chainId electionId signal k with
  | error e => simp [Except.map]
  | ok c => simp [Except.map, eq_comm]

/-- The inputs of `prove_vote` that pass the checks made before anything is drawn. -/
structure VoteInputs (claims : List Bytes) (signature issuerPublicKey : Bytes) (reveal : List Nat)
    (sig : SignatureG1 S) (pk : S.G2) : Prop where
  claims_ne : claims ≠ []
  count_le : claims.length ≤ 64
  reveal_lt : ∀ i ∈ (OrderedMap.ofKeys reveal).keys, i < claims.length
  secret_hidden : (OrderedMap.ofKeys reveal).contains voterSecretMsgIndex = false
  sig_eq : deser SignatureG1.decoder signature = .ok sig
  pk_eq : deser (publicKeyDecoder S) issuerPublicKey = .ok pk

/-- The second half fails only in the hash to the curve, on an identity
    nullifier or on a degenerate challenge; else it draws its coins and computes
    the vote. -/
theorem proveOpened_run (H : Bytes → S.Fr) (sig : SignatureG1 S) (pk : S.G2)
    {revealSet : OrderedMap Unit} (chainId signal : Bytes)
    (hhidden : revealSet.contains voterSecretMsgIndex = false)
    {electionId : Bytes} {hE : S.G1} (hhE : hashToG1 S electionId = .ok hE)
    (hnull : (claims.map (claimToFr S)).getD voterSecretMsgIndex 0 • hE ≠ 0)
    (tape : List S.Fr) :
    (proveOpened H claims sig pk revealSet chainId electionId signal).run tape
      = (drawVoteCoins ((voteMarks revealSet 0 (claims.map (claimToFr S))).countP isRandom)
          tape).map fun p =>
            (provenVote H claims sig pk revealSet hE chainId electionId signal p.1, p.2) := by
  rw [proveOpened, run_liftM_bind, drawVoteCoins, Rng.bind_apply]
  cases tape with
  | nil => rfl
  | cons r0 tape =>
  simp only [Rng.draw, Option.bind_some, Rng.bind_apply]
  rw [hhE, liftExcept_ok_bind, run_liftM_bind]
  cases tape with
  | nil => rfl
  | cons blind tape =>
  have hlen : (voteMarks revealSet r0 (claims.map (claimToFr S))).length
      = (paramsOf S claims.length).h.length := by simp
  have hmarks := marks_voteMarks (claims.map (claimToFr S)) hhidden r0
  simp only [Rng.draw, Option.bind_some, blindedMul_eq]
  rw [rejectIf_false_bind hnull, init_eq hlen, adapt_liftM, run_liftM_bind, Rng.map_apply,
    countP_voteMarks _ r0 0]
  cases hdraw : drawInitCoins ((voteMarks revealSet 0
      (claims.map (claimToFr S))).countP isRandom) tape with
  | none => rfl
  | some p =>
    obtain ⟨k, rest⟩ := p
    have hk := ((lossless_drawInitCoins _).sound hdraw).1
    rw [countP_voteMarks _ 0 r0] at hk
    simp only [Rng.pure_apply, Option.map_some, Option.bind_some, provenVote,
      PokDiscreteLogProtocol.init]
    change ((liftExcept (provenChallenge H claims sig pk revealSet hE chainId electionId signal
      ⟨r0, blind, k⟩) >>= _ : ExceptT CryptoError (Rng S.Fr) (VoteProof S))).run rest = _
    cases provenChallenge H claims sig pk revealSet hE chainId electionId signal
      ⟨r0, blind, k⟩ with
    | error e => rfl
    | ok c =>
      rw [liftExcept_ok_bind, genProof_eq hmarks hk]
      rfl

end PhiCrypto
