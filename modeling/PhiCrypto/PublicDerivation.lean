import PhiCrypto.Seed

/-!
# Derivation from public halves

`bip32::ExtendedPublicKey` derives children too, but no hardened ones. Along every other
step it goes where the private key goes, and this has a price: a public half tells the
tweaks of all steps below it, so that with the scalar of one descendant it gives the scalar
it belongs to. The pinned path ends in two steps of this kind.
-/

namespace PhiCrypto

/-- `ExtendedPublicKey`. -/
structure ExtendedPublicKey (C : CurveArithmetic) where
  publicKey : C.Point
  attrs : ExtendedKeyAttrs

/-- `ExtendedPrivateKey::public_key`. -/
def ExtendedPrivateKey.publicHalf {C : CurveArithmetic} (key : ExtendedPrivateKey C) :
    ExtendedPublicKey C :=
  ⟨C.mulByGenerator key.privateKey.d, key.attrs⟩

namespace ExtendedPublicKey

variable {C : CurveArithmetic}

/-- `PublicKey::derive_tweak`. -/
def deriveTweak (key : ExtendedPublicKey C) (childNumber : ChildNumber) :
    Except Bip32Error (Bytes × ChainCode) := do
  rejectIf (childNumber.isHardened = true) Bip32Error.childNumber
  pure (hmacSplit key.attrs.chainCode (C.toEncodedPoint key.publicKey true ++ childNumber.toBytes))

section Derivation

-- The test for the point at infinity, which is no public key.
variable (isIdentity : C.Point → Bool)

/-- `PublicKey::derive_child`: the sum with the tweak times the generator. -/
def pointChild (point : C.Point) (tweak : Bytes) : Except Bip32Error C.Point := do
  let childScalar ← SigningKey.fromBytes C.order tweak
  let childPoint := C.lincomb childScalar.d point 1
  if isIdentity childPoint then throw Bip32Error.crypto else pure childPoint

/-- `derive_child`. -/
def deriveChild (key : ExtendedPublicKey C) (childNumber : ChildNumber) :
    Except Bip32Error (ExtendedPublicKey C) := do
  let depth ← key.attrs.depth.next
  let (tweak, chainCode) ← key.deriveTweak childNumber
  let publicKey ← pointChild isIdentity key.publicKey tweak
  pure { publicKey, attrs := { depth, childNumber, chainCode } }

/-- The descent from a public half, child by child. -/
def deriveAlong (key : ExtendedPublicKey C) (path : List ChildNumber) :
    Except Bip32Error (ExtendedPublicKey C) :=
  path.foldlM (deriveChild isIdentity) key

/-- What a public half makes of the scalar of a descendant: it takes the tweaks off again. -/
def ancestorScalar : ExtendedPublicKey C → List ChildNumber → Nat → Except Bip32Error Nat
  | _, [], scalar => .ok scalar
  | key, childNumber :: path, scalar => do
    let (tweak, _) ← key.deriveTweak childNumber
    let child ← deriveChild isIdentity key childNumber
    let scalar ← ancestorScalar child path scalar
    pure ((scalar + (C.order - beNat tweak)) % C.order)

end Derivation

end ExtendedPublicKey

/-- The multiples of the generator add up, and none of them below the order is the identity
    but the first. -/
structure CurveArithmetic.Additive (C : CurveArithmetic) (isIdentity : C.Point → Bool) : Prop where
  order_le : C.order ≤ 2 ^ 256
  lincomb_mulByGenerator : ∀ d u, d < C.order → u < C.order →
    C.lincomb u (C.mulByGenerator d) 1 = C.mulByGenerator ((d + u) % C.order)
  isIdentity_mulByGenerator : ∀ d, d < C.order →
    isIdentity (C.mulByGenerator d) = decide (d = 0)

/-! ### One step -/

section Step

variable {C : CurveArithmetic} {isIdentity : C.Point → Bool}

open ExtendedPublicKey

theorem deriveTweak_publicHalf {key : ExtendedPrivateKey C} {childNumber : ChildNumber}
    (hsoft : childNumber.isHardened = false) :
    key.publicHalf.deriveTweak childNumber = .ok (key.deriveTweak childNumber) := by
  rw [ExtendedPublicKey.deriveTweak, rejectIf, if_neg (by simp [hsoft])]
  rw [ExtendedPrivateKey.deriveTweak, ExtendedPrivateKey.tweakInput, if_neg (by simp [hsoft])]
  rfl

/-- The point of a sum of scalars. -/
theorem pointChild_mulByGenerator (hC : C.Additive isIdentity) (key : SigningKey C.order)
    (tweak : Bytes) :
    pointChild isIdentity (C.mulByGenerator key.d) tweak
      = (fun child => C.mulByGenerator child.d) <$> key.deriveChild tweak := by
  rw [pointChild, SigningKey.deriveChild, map_bind]
  refine bind_congr fun scalar => ?_
  have hlt : (key.d + scalar.d) % C.order < C.order := Nat.mod_lt _ (Nat.zero_lt_of_lt key.lt)
  dsimp only
  rw [hC.lincomb_mulByGenerator _ _ key.lt scalar.lt, hC.isIdentity_mulByGenerator _ hlt]
  by_cases hzero : (key.d + scalar.d) % C.order = 0
  · rw [if_pos (decide_eq_true hzero), dif_neg (by omega)]
    rfl
  · rw [if_neg (by simpa using hzero), dif_pos ⟨by omega, hlt⟩]
    rfl

theorem publicHalf_deriveChild (hC : C.Additive isIdentity) (key : ExtendedPrivateKey C)
    {childNumber : ChildNumber} (hsoft : childNumber.isHardened = false) :
    ExtendedPrivateKey.publicHalf <$> key.deriveChild childNumber
      = deriveChild isIdentity key.publicHalf childNumber := by
  rw [ExtendedPrivateKey.deriveChild, ExtendedPublicKey.deriveChild, deriveTweak_publicHalf hsoft,
    map_bind]
  -- Both sides read one HMAC; what is in it does not matter.
  generalize key.deriveTweak childNumber = split
  obtain ⟨tweak, chainCode⟩ := split
  refine bind_congr fun depth => ?_
  change _ = pointChild isIdentity (C.mulByGenerator key.privateKey.d) tweak >>= _
  rw [pointChild_mulByGenerator hC, map_bind, bind_map_left]
  rfl

theorem deriveChild_hardened (isIdentity : C.Point → Bool) (key : ExtendedPublicKey C)
    {childNumber : ChildNumber} (hhard : childNumber.isHardened = true) :
    ∃ e, deriveChild isIdentity key childNumber = .error e := by
  unfold ExtendedPublicKey.deriveChild ExtendedPublicKey.deriveTweak
  rw [rejectIf, if_pos hhard]
  cases key.attrs.depth.next with
  | error e => exact ⟨e, rfl⟩
  | ok depth => exact ⟨_, rfl⟩

/-- Adding what is missing to the order takes a tweak off again. -/
theorem take_tweak_off {n d t : Nat} (hd : d < n) (ht : t < n) :
    ((d + t) % n + (n - t)) % n = d := by
  rw [Nat.mod_add_mod, Nat.add_assoc, Nat.add_sub_cancel' ht.le, Nat.add_mod_right,
    Nat.mod_eq_of_lt hd]

end Step

/-! ### A path -/

section Path

variable {C : CurveArithmetic} {isIdentity : C.Point → Bool}

open ExtendedPublicKey

theorem publicHalf_deriveAlong (hC : C.Additive isIdentity) :
    ∀ {path : List ChildNumber} (key : ExtendedPrivateKey C),
      (∀ childNumber ∈ path, childNumber.isHardened = false) →
      ExtendedPrivateKey.publicHalf <$> key.deriveAlong path
        = deriveAlong isIdentity key.publicHalf path
  | [], _, _ => rfl
  | childNumber :: path, key, hsoft => by
    obtain ⟨hfirst, hrest⟩ := List.forall_mem_cons.mp hsoft
    rw [ExtendedPrivateKey.deriveAlong, List.foldlM_cons, map_bind, deriveAlong, List.foldlM_cons,
      ← publicHalf_deriveChild hC key hfirst, bind_map_left]
    exact bind_congr fun child => publicHalf_deriveAlong hC child hrest

theorem deriveAlong_hardened :
    ∀ {path : List ChildNumber} (key : ExtendedPublicKey C),
      (∃ childNumber ∈ path, childNumber.isHardened = true) →
      ∃ e, deriveAlong isIdentity key path = .error e
  | childNumber :: path, key, hhard => by
    rw [deriveAlong, List.foldlM_cons]
    cases hchild : deriveChild isIdentity key childNumber with
    | error e => exact ⟨e, rfl⟩
    | ok child =>
      refine deriveAlong_hardened child ?_
      obtain ⟨i, hi, hhard⟩ := hhard
      rcases List.mem_cons.mp hi with rfl | hi
      · obtain ⟨e, herror⟩ := deriveChild_hardened isIdentity key hhard
        cases hchild.symm.trans herror
      · exact ⟨i, hi, hhard⟩

/-- The tweaks of a descent come off in the order opposite to the one they came in. -/
theorem ancestorScalar_of_descends (hC : C.Additive isIdentity) {key leaf : ExtendedPrivateKey C}
    {path : List ChildNumber} {tweaks : List Nat} (h : key.Descends path tweaks leaf)
    (hsoft : ∀ childNumber ∈ path, childNumber.isHardened = false) :
    ancestorScalar isIdentity key.publicHalf path leaf.privateKey.d = .ok key.privateKey.d := by
  induction h with
  | nil key => rfl
  | @cons key child leaf childNumber path tweaks hchild hdescends ih =>
    obtain ⟨hfirst, hrest⟩ := List.forall_mem_cons.mp hsoft
    have hpublic := publicHalf_deriveChild hC key hfirst
    rw [ExtendedPrivateKey.deriveChild_eq_ok_iff.mpr hchild] at hpublic
    rw [ancestorScalar, deriveTweak_publicHalf hfirst, ← hpublic]
    change (ancestorScalar isIdentity child.publicHalf path leaf.privateKey.d >>= _) = _
    rw [ih hrest]
    refine congrArg Except.ok ?_
    rw [hchild.key_eq]
    exact take_tweak_off key.privateKey.lt hchild.tweak_lt

end Path

/-- The key of the account, three levels down the pinned path. -/
def accountPath : List ChildNumber := pinnedPath.take 3

theorem pinnedPath_eq : pinnedPath = accountPath ++ [⟨0⟩, ⟨0⟩] := rfl

/-- **Public halves.** Along steps that are not hardened the public half descends with the
    private key and fails with it; a hardened step it refuses. A descendant's scalar with the
    public half of an ancestor gives the scalar of the ancestor, and so an identity of the
    pinned path with the public half of its account gives the account. -/
theorem public_halves_descend (curves : SigningCurves) (isIdentity : curves.k256.Point → Bool)
    (hC : curves.k256.Additive isIdentity) :
    (∀ (key : ExtendedPrivateKey curves.k256) path,
      (∀ childNumber ∈ path, childNumber.isHardened = false) →
      ExtendedPrivateKey.publicHalf <$> key.deriveAlong path
        = ExtendedPublicKey.deriveAlong isIdentity key.publicHalf path) ∧
    (∀ (key : ExtendedPublicKey curves.k256) path,
      (∃ childNumber ∈ path, childNumber.isHardened = true) →
      ∃ e, key.deriveAlong isIdentity path = .error e) ∧
    (∀ (key leaf : ExtendedPrivateKey curves.k256) path,
      (∀ childNumber ∈ path, childNumber.isHardened = false) → key.deriveAlong path = .ok leaf →
      key.publicHalf.ancestorScalar isIdentity path leaf.privateKey.d = .ok key.privateKey.d) ∧
    ∀ nfkd mnemonic passphrase pair,
      deriveK1Keypair nfkd curves mnemonic passphrase = .ok pair →
      ∃ entropy, trim mnemonic = generateMnemonic entropy ∧
        ∃ account, ExtendedPrivateKey.deriveFromPath curves.k256
            ((Phrase.fromEntropy entropy).toSeed (nfkd passphrase)) accountPath = .ok account ∧
          account.publicHalf.ancestorScalar isIdentity [⟨0⟩, ⟨0⟩] (beNat pair.secret)
            = .ok account.privateKey.d := by
  have hancestor : ∀ (key leaf : ExtendedPrivateKey curves.k256) path,
      (∀ childNumber ∈ path, childNumber.isHardened = false) → key.deriveAlong path = .ok leaf →
      key.publicHalf.ancestorScalar isIdentity path leaf.privateKey.d = .ok key.privateKey.d := by
    intro key leaf path hsoft hleaf
    obtain ⟨tweaks, hdescends⟩ := ExtendedPrivateKey.deriveAlong_eq_ok_iff.mp hleaf
    exact ancestorScalar_of_descends hC hdescends hsoft
  refine ⟨fun key path => publicHalf_deriveAlong hC key, fun key path => deriveAlong_hardened key,
    hancestor, ?_⟩
  intro nfkd mnemonic passphrase pair h
  obtain ⟨entropy, p, xprv, -, htrim, hp, hxprv, rfl⟩ := deriveK1KeypairAt_eq_ok_iff.mp h
  have hpath := fromStr_k1DerivationPath.symm.trans (DerivationPath.fromStr_eq_ok_iff.mpr hp)
  rw [← Except.ok.inj hpath, pinnedPath_eq, ExtendedPrivateKey.deriveFromPath_eq] at hxprv
  obtain ⟨root, hroot, hxprv⟩ := except_bind_eq_ok_iff.mp hxprv
  rw [ExtendedPrivateKey.deriveAlong_append] at hxprv
  obtain ⟨account, haccount, hleaf⟩ := except_bind_eq_ok_iff.mp hxprv
  refine ⟨entropy, htrim, account, ?_, ?_⟩
  · rw [ExtendedPrivateKey.deriveFromPath_eq, hroot]
    exact haccount
  · have hlt : xprv.privateKey.d < 256 ^ 32 := by
      have := xprv.privateKey.lt
      have := hC.order_le
      omega
    have hsecret : beNat (KeyPair.ofSigningKey curves .secp256k1 xprv.privateKey).secret
        = xprv.privateKey.d := beNat_beBytes hlt
    rw [hsecret]
    exact hancestor account xprv _ (by decide) hleaf

def additiveCurveIsIdentity (q : Nat) : Bool := decide (q = 0)

theorem additiveCurve_additive : additiveCurve.Additive additiveCurveIsIdentity where
  order_le := by decide
  lincomb_mulByGenerator := by
    intro d u _ _
    change (u + 1 * d) % _ = (d + u) % _
    rw [Nat.one_mul, Nat.add_comm]
    rfl
  isIdentity_mulByGenerator := fun _ _ => rfl

/-- Two steps below the root of a seed of seven in every byte. -/
theorem additiveCurve_ancestor :
    ∃ key leaf : ExtendedPrivateKey additiveCurve,
      key.deriveAlong [⟨0⟩, ⟨1⟩] = .ok leaf ∧
      key.publicHalf.ancestorScalar additiveCurveIsIdentity [⟨0⟩, ⟨1⟩] leaf.privateKey.d
        = .ok key.privateKey.d := by
  have hok : (ExtendedPrivateKey.deriveFromPath additiveCurve (List.replicate 16 7)
      [⟨0⟩, ⟨1⟩]).isOk = true := by decide +kernel
  cases hleaf : ExtendedPrivateKey.deriveFromPath additiveCurve (List.replicate 16 7)
      [⟨0⟩, ⟨1⟩] with
  | error e =>
    rw [hleaf] at hok
    cases hok
  | ok leaf =>
    rw [ExtendedPrivateKey.deriveFromPath_eq] at hleaf
    obtain ⟨root, -, hleaf⟩ := except_bind_eq_ok_iff.mp hleaf
    exact ⟨root, leaf, hleaf,
      (public_halves_descend ⟨additiveCurve, additiveCurve⟩ _ additiveCurve_additive).2.2.1
        root leaf _ (by decide) hleaf⟩

end PhiCrypto
