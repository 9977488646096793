import Mathlib.Data.List.DropRight
import PhiCrypto.ExtendedKey

/-!
# Keys from a recovery phrase

`derive_k1_keypair`: a phrase and a passphrase give a BIP-39 seed, and the seed gives, along
the pinned path, the key pair of an identity. Whatever surrounds the phrase is trimmed, and
the passphrase is brought into normal form first. The only phrases are those of 32 bytes of
entropy; `derive_k1_keypair_at` fails on any other text before it looks at the path.
-/

namespace PhiCrypto

/-! ### Texts -/

/-- `char::is_whitespace`, the property `White_Space`. -/
def isWhitespace (c : Char) : Bool :=
  let v := c.toNat
  (9 ≤ v && v ≤ 13) || v == 0x20 || v == 0x85 || v == 0xa0 || v == 0x1680 ||
    (0x2000 ≤ v && v ≤ 0x200a) || v == 0x2028 || v == 0x2029 || v == 0x202f || v == 0x205f ||
    v == 0x3000

/-- `str::trim`. -/
def trim (s : Str) : Str := (s.dropWhile isWhitespace).rdropWhile isWhitespace

/-- `str::as_bytes`. -/
def utf8 (s : Str) : Bytes := s.flatMap String.utf8EncodeChar

/-- Whitespace in front of a text and behind it goes. -/
theorem trim_append {pre post : Str} (hpre : ∀ c ∈ pre, isWhitespace c = true)
    (hpost : ∀ c ∈ post, isWhitespace c = true) (s : Str) : trim (pre ++ s ++ post) = trim s := by
  rw [trim, trim, List.append_assoc, List.dropWhile_append_of_pos hpre, List.dropWhile_append]
  split
  next hnil =>
    rw [List.isEmpty_iff.mp hnil, List.dropWhile_eq_nil_iff.mpr hpost]
  next =>
    rw [List.rdropWhile, List.reverse_append,
      List.dropWhile_append_of_pos fun c hc => hpost c (List.mem_reverse.mp hc)]
    rfl

/-- A text with other characters at both ends stays as it is. -/
theorem trim_eq_self {s : Str} (hfirst : ∀ c ∈ s.head?, isWhitespace c = false)
    (hlast : ∀ c ∈ s.getLast?, isWhitespace c = false) : trim s = s := by
  have hdrop : s.dropWhile isWhitespace = s := by
    cases s with
    | nil => rfl
    | cons c s => exact List.dropWhile_cons_of_neg (by simp [hfirst c rfl])
  rw [trim, hdrop, List.rdropWhile_eq_self_iff]
  intro hne
  rw [hlast _ (List.getLast?_eq_some_getLast hne)]
  exact Bool.false_ne_true

/-! ### The seed -/

/-- `PBKDF2_ROUNDS`. -/
def pbkdf2RoundCount : Nat := 2048

/-- `Phrase::to_seed`. -/
def Phrase.toSeed (m : Phrase) (password : Str) : Bytes :=
  pbkdf2HmacSha512 (utf8 m.phrase) (utf8 (chars "mnemonic" ++ password)) pbkdf2RoundCount

/-- `K1_DERIVATION_PATH`. -/
def k1DerivationPath : Str := chars "m/44'/118'/0'/0/0"

/-- `generate_mnemonic`, for the entropy that `Mnemonic::random` draws. -/
def generateMnemonic (random : Bytes) : Str := (Phrase.fromEntropy random).phrase

def phraseError : CryptoError := .invalidInput "mnemonic is not a valid BIP-39 phrase"

def pathError : CryptoError := .invalidInput "invalid BIP-32 derivation path"

def derivationError : CryptoError := .backend "BIP-32 derivation failed"

section Derivation

-- The normal form is read from the Unicode tables.
variable (nfkd : Str → Str) (curves : SigningCurves)

def deriveK1KeypairAt (mnemonic passphrase path : Str) : Except CryptoError KeyPair := do
  let mnemonic ← (Phrase.new (trim mnemonic)).mapError fun _ => phraseError
  let path ← (DerivationPath.fromStr path).mapError fun _ => pathError
  let seed := mnemonic.toSeed (nfkd passphrase)
  let xprv ← (ExtendedPrivateKey.deriveFromPath curves.k256 seed path.path).mapError fun _ =>
    derivationError
  pure (KeyPair.ofSigningKey curves .secp256k1 xprv.privateKey)

def deriveK1Keypair (mnemonic passphrase : Str) : Except CryptoError KeyPair :=
  deriveK1KeypairAt nfkd curves mnemonic passphrase k1DerivationPath

end Derivation

/-! ### Phrases are trimmed texts -/

theorem ne_nil_of_mem_englishWords : ∀ word ∈ englishWords, word ≠ [] := by decide +kernel

theorem isWhitespace_of_isLower {c : Char} (h : c.isLower = true) : isWhitespace c = false := by
  change (decide (97 ≤ c.val) && decide (c.val ≤ 122)) = true at h
  simp only [Bool.and_eq_true, decide_eq_true_eq, UInt32.le_iff_toNat_le] at h
  change 97 ≤ c.toNat ∧ c.toNat ≤ 122 at h
  simp only [isWhitespace, Bool.or_eq_false_iff, Bool.and_eq_false_iff, decide_eq_false_iff_not,
    beq_eq_false_iff_ne]
  omega

theorem isWhitespace_of_mem_word {word : Str} (hword : word ∈ englishWords) {c : Char}
    (hc : c ∈ word) : isWhitespace c = false :=
  isWhitespace_of_isLower
    (List.all_eq_true.mp ((checkWords_spec checkWords_english).1 word hword) c hc)

/-- Joined words begin with a word and end with one. -/
theorem exists_ends_intercalate (sep : Str) :
    ∀ {words : List Str}, words ≠ [] →
      (∃ word ∈ words, ∃ rest, sep.intercalate words = word ++ rest) ∧
        ∃ word ∈ words, ∃ front, sep.intercalate words = front ++ word
  | [word], _ =>
    ⟨⟨word, by simp, [], by simp⟩, ⟨word, by simp, [], by simp⟩⟩
  | word :: next :: words, _ => by
    obtain ⟨-, last, hlast, front, hfront⟩ :=
      exists_ends_intercalate sep (List.cons_ne_nil next words)
    rw [List.intercalate_cons_cons]
    exact ⟨⟨word, by simp, sep ++ sep.intercalate (next :: words), List.append_assoc ..⟩,
      last, List.mem_cons_of_mem _ hlast, word ++ sep ++ front, by simp [hfront]⟩

theorem trim_generateMnemonic {entropy : Bytes} (hlen : entropy.length = keySize) :
    trim (generateMnemonic entropy) = generateMnemonic entropy := by
  have hwords : ∀ word ∈ (wordIndices entropy).map getWord, word ∈ englishWords := by
    intro word hword
    obtain ⟨i, hi, rfl⟩ := List.mem_map.mp hword
    exact getWord_mem ((Phrase.regroups_wordIndices hlen).bounded i hi)
  have hne : (wordIndices entropy).map getWord ≠ [] := by
    have hcount := Phrase.length_wordIndices hlen
    intro hnil
    rw [List.map_eq_nil_iff.mp hnil] at hcount
    cases hcount
  obtain ⟨⟨first, hfirst, rest, hrest⟩, last, hlast, front, hfront⟩ :=
    exists_ends_intercalate [' '] hne
  refine trim_eq_self ?_ ?_
  · intro c hc
    rw [generateMnemonic, Phrase.fromEntropy, hrest,
      List.head?_append_of_ne_nil _ (ne_nil_of_mem_englishWords first (hwords first hfirst))] at hc
    exact isWhitespace_of_mem_word (hwords first hfirst) (List.mem_of_mem_head? hc)
  · intro c hc
    rw [generateMnemonic, Phrase.fromEntropy, hfront,
      List.getLast?_append_of_ne_nil _ (ne_nil_of_mem_englishWords last (hwords last hlast))] at hc
    exact isWhitespace_of_mem_word (hwords last hlast) (List.mem_of_mem_getLast? hc)

/-! ### What derivation returns -/

/-- The end of `derive_k1_keypair_at`, for a seed and a path. -/
def deriveK1FromSeed (curves : SigningCurves) (seed : Bytes) (path : List ChildNumber) :
    Except CryptoError KeyPair :=
  (ExtendedPrivateKey.deriveFromPath curves.k256 seed path).mapError (fun _ => derivationError)
    >>= fun xprv => pure (KeyPair.ofSigningKey curves .secp256k1 xprv.privateKey)

theorem deriveK1FromSeed_cases (curves : SigningCurves) (seed : Bytes) (path : List ChildNumber) :
    (∃ pair, deriveK1FromSeed curves seed path = .ok pair) ∨
      deriveK1FromSeed curves seed path = .error derivationError := by
  unfold deriveK1FromSeed
  cases ExtendedPrivateKey.deriveFromPath curves.k256 seed path with
  | error e => exact .inr rfl
  | ok xprv => exact .inl ⟨_, rfl⟩

/-- A text that is, trimmed, the phrase of an entropy. -/
def IsPhrase (mnemonic : Str) : Prop :=
  ∃ entropy : Bytes, entropy.length = keySize ∧ trim mnemonic = generateMnemonic entropy

section Derivation

variable {nfkd : Str → Str} {curves : SigningCurves} {mnemonic passphrase path : Str}

/-- `Phrase::new` keeps an accepted text. -/
theorem new_trim_eq_ok_iff {m : Phrase} :
    Phrase.new (trim mnemonic) = .ok m ↔
      ∃ entropy : Bytes, entropy.length = keySize ∧ m = Phrase.fromEntropy entropy ∧
        trim mnemonic = generateMnemonic entropy := by
  rw [Phrase.new_eq_ok_iff]
  refine exists_congr fun entropy => and_congr_right fun _ => and_congr_right fun hm => ?_
  rw [hm, generateMnemonic]

theorem exists_new_trim_iff : (∃ m, Phrase.new (trim mnemonic) = .ok m) ↔ IsPhrase mnemonic := by
  simp only [new_trim_eq_ok_iff]
  constructor
  · intro ⟨_, entropy, hlen, _, htrim⟩
    exact ⟨entropy, hlen, htrim⟩
  · intro ⟨entropy, hlen, htrim⟩
    exact ⟨_, entropy, hlen, rfl, htrim⟩

/-- The three ends of a derivation that fails, in their order. -/
theorem deriveK1KeypairAt_cases (nfkd : Str → Str) (curves : SigningCurves)
    (mnemonic passphrase path : Str) :
    (¬ IsPhrase mnemonic ∧
      deriveK1KeypairAt nfkd curves mnemonic passphrase path = .error phraseError) ∨
    (IsPhrase mnemonic ∧ (¬ ∃ p : DerivationPath, p.Spelled path) ∧
      deriveK1KeypairAt nfkd curves mnemonic passphrase path = .error pathError) ∨
    ∃ entropy p, entropy.length = keySize ∧ trim mnemonic = generateMnemonic entropy ∧
      DerivationPath.Spelled p path ∧
      deriveK1KeypairAt nfkd curves mnemonic passphrase path
        = deriveK1FromSeed curves ((Phrase.fromEntropy entropy).toSeed (nfkd passphrase))
            p.path := by
  unfold deriveK1KeypairAt
  cases hm : Phrase.new (trim mnemonic) with
  | error e =>
    refine .inl ⟨fun hphrase => ?_, rfl⟩
    obtain ⟨m, hnew⟩ := exists_new_trim_iff.mpr hphrase
    cases hm.symm.trans hnew
  | ok m =>
    cases hp : DerivationPath.fromStr path with
    | error e =>
      refine .inr (.inl ⟨exists_new_trim_iff.mp ⟨m, hm⟩, fun ⟨p, hspelled⟩ => ?_, rfl⟩)
      cases hp.symm.trans (DerivationPath.fromStr_eq_ok_iff.mpr hspelled)
    | ok p =>
      obtain ⟨entropy, hlen, rfl, htrim⟩ := new_trim_eq_ok_iff.mp hm
      refine .inr (.inr ⟨entropy, p, hlen, htrim, DerivationPath.fromStr_eq_ok_iff.mp hp, ?_⟩)
      rfl

theorem deriveK1KeypairAt_eq_ok_iff {pair : KeyPair} :
    deriveK1KeypairAt nfkd curves mnemonic passphrase path = .ok pair ↔
      ∃ entropy p xprv, entropy.length = keySize ∧ trim mnemonic = generateMnemonic entropy ∧
        DerivationPath.Spelled p path ∧
        ExtendedPrivateKey.deriveFromPath curves.k256
          ((Phrase.fromEntropy entropy).toSeed (nfkd passphrase)) p.path = .ok xprv ∧
        pair = KeyPair.ofSigningKey curves .secp256k1 xprv.privateKey := by
  unfold deriveK1KeypairAt
  simp only [except_bind_eq_ok_iff, mapError_eq_ok_iff, new_trim_eq_ok_iff,
    DerivationPath.fromStr_eq_ok_iff]
  constructor
  · intro ⟨m, ⟨entropy, hlen, hm, htrim⟩, p, hp, xprv, hxprv, h⟩
    cases h
    exact ⟨entropy, p, xprv, hlen, htrim, hp, hm ▸ hxprv, rfl⟩
  · intro ⟨entropy, p, xprv, hlen, htrim, hp, hxprv, hpair⟩
    exact ⟨_, ⟨entropy, hlen, rfl, htrim⟩, p, hp, xprv, hxprv, congrArg Except.ok hpair.symm⟩

end Derivation

/-- The child numbers of `m/44'/118'/0'/0/0`. -/
def pinnedPath : List ChildNumber := [⟨0x8000002c⟩, ⟨0x80000076⟩, ⟨0x80000000⟩, ⟨0⟩, ⟨0⟩]

theorem fromStr_k1DerivationPath : DerivationPath.fromStr k1DerivationPath = .ok ⟨pinnedPath⟩ := by
  decide +kernel

/-- A generated phrase fails, if it fails at all, in the derivation. -/
theorem deriveK1Keypair_generateMnemonic (nfkd : Str → Str) (curves : SigningCurves)
    {entropy : Bytes} (hlen : entropy.length = keySize) (passphrase : Str) :
    deriveK1Keypair nfkd curves (generateMnemonic entropy) passphrase
      = deriveK1FromSeed curves ((Phrase.fromEntropy entropy).toSeed (nfkd passphrase))
          pinnedPath := by
  have htrim := trim_generateMnemonic hlen
  have hspelled := DerivationPath.fromStr_eq_ok_iff.mp fromStr_k1DerivationPath
  rcases deriveK1KeypairAt_cases nfkd curves (generateMnemonic entropy) passphrase
      k1DerivationPath with hphrase | hpath | hderives
  · exact absurd ⟨entropy, hlen, htrim⟩ hphrase.1
  · exact absurd ⟨_, hspelled⟩ hpath.2.1
  · obtain ⟨entropy', p, hlen', htrim', hp, h⟩ := hderives
    obtain rfl := Phrase.phrase_injective hlen hlen' (htrim.symm.trans htrim')
    have hpinned := fromStr_k1DerivationPath.symm.trans (DerivationPath.fromStr_eq_ok_iff.mpr hp)
    rw [← Except.ok.inj hpinned] at h
    rw [deriveK1Keypair, h]

/-- **Recovery.** Derivation succeeds exactly on the texts that are, trimmed, the phrase of
    32 bytes of entropy, with a spelling of a path along which the seed derives; each failure
    has its own error, a bad phrase before a bad path. Whitespace around the phrase changes
    nothing, and a generated phrase is never refused as input. -/
theorem phrases_derive_keys (nfkd : Str → Str) (curves : SigningCurves) :
    (∀ mnemonic passphrase path pair,
      deriveK1KeypairAt nfkd curves mnemonic passphrase path = .ok pair ↔
        ∃ entropy p xprv, entropy.length = keySize ∧ trim mnemonic = generateMnemonic entropy ∧
          DerivationPath.Spelled p path ∧
          ExtendedPrivateKey.deriveFromPath curves.k256
            ((Phrase.fromEntropy entropy).toSeed (nfkd passphrase)) p.path = .ok xprv ∧
          pair = KeyPair.ofSigningKey curves .secp256k1 xprv.privateKey) ∧
    (∀ mnemonic passphrase path,
      (deriveK1KeypairAt nfkd curves mnemonic passphrase path = .error phraseError ↔
        ¬ IsPhrase mnemonic) ∧
      (deriveK1KeypairAt nfkd curves mnemonic passphrase path = .error pathError ↔
        IsPhrase mnemonic ∧ ¬ ∃ p : DerivationPath, p.Spelled path) ∧
      ∀ e, deriveK1KeypairAt nfkd curves mnemonic passphrase path = .error e →
        e ∈ [phraseError, pathError, derivationError]) ∧
    (∀ pre mnemonic post passphrase path, (∀ c ∈ pre, isWhitespace c = true) →
      (∀ c ∈ post, isWhitespace c = true) →
      deriveK1KeypairAt nfkd curves (pre ++ mnemonic ++ post) passphrase path
        = deriveK1KeypairAt nfkd curves mnemonic passphrase path) ∧
    (∀ entropy passphrase, entropy.length = keySize →
      deriveK1Keypair nfkd curves (generateMnemonic entropy) passphrase
        = deriveK1FromSeed curves ((Phrase.fromEntropy entropy).toSeed (nfkd passphrase))
            pinnedPath) := by
  refine ⟨fun _ _ _ _ => deriveK1KeypairAt_eq_ok_iff, ?_, ?_,
    fun _ passphrase hlen => deriveK1Keypair_generateMnemonic nfkd curves hlen passphrase⟩
  · intro mnemonic passphrase path
    rcases deriveK1KeypairAt_cases nfkd curves mnemonic passphrase path
      with hphrase | hpath | hderives
    · rw [hphrase.2]
      simp [hphrase.1, phraseError, pathError]
    · rw [hpath.2.2]
      simp [hpath.1, hpath.2.1, phraseError, pathError]
    · obtain ⟨entropy, p, hlen, htrim, hp, h⟩ := hderives
      have hphrase : IsPhrase mnemonic := ⟨entropy, hlen, htrim⟩
      have hpath : ∃ p : DerivationPath, p.Spelled path := ⟨p, hp⟩
      rw [h]
      rcases deriveK1FromSeed_cases curves ((Phrase.fromEntropy entropy).toSeed (nfkd passphrase))
        p.path with ⟨pair, hpair⟩ | herror
      · simp [hpair, hphrase, hpath]
      · simp [herror, hphrase, hpath, phraseError, pathError, derivationError]
  · intro pre mnemonic post passphrase path hpre hpost
    rw [deriveK1KeypairAt, trim_append hpre hpost, deriveK1KeypairAt]

/-- **Ordinary identities.** A generated pair, and a pair that derives from a phrase, sign
    and verify through `did`, under a public key that is its own canonical form. -/
theorem key_pairs_are_identities (S : Suite) (curves : SigningCurves)
    (hlaw : ∀ curve, (curves.of curve).Lawful) (hsec1 : ∀ curve, (curves.of curve).Sec1Lawful)
    (hkey : ∀ curve d, 1 ≤ d → d < (curves.of curve).order →
      (curves.of curve).IsKey ((curves.of curve).mulByGenerator d)) :
    (∀ curve random, (KeyPair.generateKeypair curves curve random).curve = curve ∧
      (KeyPair.generateKeypair curves curve random).IsIdentity S curves) ∧
    ∀ nfkd mnemonic passphrase path pair,
      deriveK1KeypairAt nfkd curves mnemonic passphrase path = .ok pair →
      pair.curve = .secp256k1 ∧ pair.IsIdentity S curves := by
  have hidentity : ∀ curve key, (KeyPair.ofSigningKey curves curve key).IsIdentity S curves :=
    fun curve key => KeyPair.isIdentity_ofSigningKey S (hlaw curve) (hsec1 curve) key
      (hkey curve key.d key.pos key.lt)
  constructor
  · intro curve random
    cases curve with
    | secp256k1 => exact ⟨rfl, hidentity .secp256k1 random⟩
    | secp256r1 => exact ⟨rfl, hidentity .secp256r1 random⟩
  · intro nfkd mnemonic passphrase path pair h
    obtain ⟨entropy, p, xprv, hlen, htrim, hp, hxprv, rfl⟩ := deriveK1KeypairAt_eq_ok_iff.mp h
    exact ⟨rfl, hidentity .secp256k1 xprv.privateKey⟩

theorem SmallCurve.isKey_mulByGenerator {d : Nat} (hpos : 1 ≤ d) (hlt : d < 13) :
    SmallCurve.arithmetic.IsKey (SmallCurve.arithmetic.mulByGenerator d) := by
  refine ⟨_, SmallCurve.fromSec1Bytes_toEncodedPoint (Fin.ofNat 13 d) ?_ true⟩
  intro hzero
  have hmod : d % 13 = 0 := congrArg Fin.val hzero
  omega

theorem smallCurves_isKey (curve : Curve) (d : Nat) (hpos : 1 ≤ d)
    (hlt : d < (smallCurves.of curve).order) :
    (smallCurves.of curve).IsKey ((smallCurves.of curve).mulByGenerator d) := by
  cases curve with
  | secp256k1 => exact SmallCurve.isKey_mulByGenerator hpos hlt
  | secp256r1 => exact SmallCurve.isKey_mulByGenerator hpos hlt

/-- The pairs of the secret key 5. -/
theorem smallCurves_key_pairs :
    (KeyPair.generateKeypair smallCurves .secp256k1 ⟨5, by decide, by decide⟩).IsIdentity
        sha256Suite smallCurves ∧
      (KeyPair.generateKeypair smallCurves .secp256r1 ⟨5, by decide, by decide⟩).IsIdentity
        sha256Suite smallCurves := by
  have hpairs := (key_pairs_are_identities sha256Suite smallCurves smallCurves_lawful
    smallCurves_sec1Lawful smallCurves_isKey).1
  exact ⟨(hpairs .secp256k1 _).2, (hpairs .secp256r1 _).2⟩

end PhiCrypto
