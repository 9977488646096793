import PhiCrypto.Did

/-!
# The SHA-256 preimages of the crate

Five functions of the crate hash a byte string of their own. Four open it with a
domain label and frame their arguments; `did_from_public` opens it with the tag
byte of the curve. No label is a prefix of another, so a preimage tells which
function it belongs to, whatever the arguments are (`purpose_eq_of_preimage_eq`).
The label is then cancelled and the arguments are read back field by field.

The hash itself is not injective. What the encodings give is that two equal
digests have equal arguments or exhibit a collision.
-/

namespace PhiCrypto

variable {S : Suite}

/-- Two distinct byte strings with one digest. -/
def Suite.Collision (S : Suite) (b b' : Bytes) : Prop := b ≠ b' ∧ S.sha256 b = S.sha256 b'

theorem Suite.eq_or_collision {b b' : Bytes} (h : S.sha256 b = S.sha256 b') :
    b = b' ∨ S.Collision b b' := by
  by_cases heq : b = b'
  · exact .inl heq
  · exact .inr ⟨heq, h⟩

/-! ### Labels -/

/-- What a digest is computed for. -/
inductive Purpose where
  | nullifier
  | externalNullifier
  | bindNonce
  | bindContext
  | did (curve : Curve)
deriving DecidableEq, Repr

/-- The bytes that open the preimage. -/
def Purpose.label : Purpose → Bytes
  | nullifier => ascii "phi-nullifier-v1"
  | externalNullifier => ascii "phi-extnull-v1"
  | bindNonce => ascii "phi-vote-bind-v2"
  | bindContext => bindDomain
  | did curve => [curve.tag]

/-- No label is a prefix of another. -/
theorem Purpose.eq_of_label_prefix {p q : Purpose} (h : p.label <+: q.label) : p = q := by
  -- the labels differ within their first ten bytes, the tags in the first
  rcases p with _ | _ | _ | _ | (_ | _) <;> rcases q with _ | _ | _ | _ | (_ | _) <;>
    first
    | rfl
    | exact absurd h (by decide)

/-! ### Hash inputs -/

/-- The arguments of one of the five functions. -/
inductive HashInput where
  | nullifier (secret topic : Bytes)
  | externalNullifier (electionId : Bytes)
  | bindNonce (electionId nullifier signal : Bytes)
  | bindContext (chainId electionId nullifier signal : Bytes)
  | did (curve : Curve) (canonical : Bytes)

namespace HashInput

def purpose : HashInput → Purpose
  | nullifier _ _ => .nullifier
  | externalNullifier _ => .externalNullifier
  | bindNonce _ _ _ => .bindNonce
  | bindContext _ _ _ _ => .bindContext
  | did curve _ => .did curve

def preimage : HashInput → Bytes
  | nullifier secret topic => nullifierPreimage secret topic
  | externalNullifier electionId => externalNullifierPreimage electionId
  | bindNonce electionId tag signal => bindNoncePreimage electionId tag signal
  | bindContext chainId electionId tag signal =>
    bindContextPreimage chainId electionId tag signal
  | did curve canonical => didPreimage curve canonical

/-- Every argument is shorter than `2^64` bytes, the range of its length prefix. -/
def InRange : HashInput → Prop
  | nullifier secret topic => secret.length < 2 ^ 64 ∧ topic.length < 2 ^ 64
  | externalNullifier electionId => electionId.length < 2 ^ 64
  | bindNonce electionId tag signal =>
    electionId.length < 2 ^ 64 ∧ tag.length < 2 ^ 64 ∧ signal.length < 2 ^ 64
  | bindContext chainId electionId tag signal =>
    chainId.length < 2 ^ 64 ∧ electionId.length < 2 ^ 64 ∧ tag.length < 2 ^ 64 ∧
      signal.length < 2 ^ 64
  | did _ canonical => canonical.length < 2 ^ 64

theorem label_prefix_preimage (x : HashInput) : x.purpose.label <+: x.preimage := by
  cases x with
  | nullifier secret topic => exact ⟨_, (List.append_assoc _ _ _).symm⟩
  | externalNullifier electionId => exact ⟨_, rfl⟩
  | bindNonce electionId tag signal =>
    rw [preimage, bindNoncePreimage, List.append_assoc, List.append_assoc]
    exact ⟨_, rfl⟩
  | bindContext chainId electionId tag signal =>
    rw [preimage, bindContextPreimage, List.append_assoc, List.append_assoc, List.append_assoc]
    exact ⟨_, rfl⟩
  | did curve canonical => exact ⟨canonical, rfl⟩

/-- A preimage belongs to one function, for arguments of any lengths. -/
theorem purpose_eq_of_preimage_eq {x y : HashInput} (h : x.preimage = y.preimage) :
    x.purpose = y.purpose := by
  have hx := x.label_prefix_preimage
  have hy := y.label_prefix_preimage
  rw [h] at hx
  rcases List.prefix_or_prefix_of_prefix hx hy with hle | hle
  · exact Purpose.eq_of_label_prefix hle
  · exact (Purpose.eq_of_label_prefix hle).symm

/-- Within the range of the length prefixes it determines the arguments too. -/
theorem eq_of_preimage_eq {x y : HashInput} (hx : x.InRange) (hy : y.InRange)
    (h : x.preimage = y.preimage) : x = y := by
  have hpurpose := purpose_eq_of_preimage_eq h
  cases x with
  | nullifier secret topic =>
    cases y with
    | nullifier secret' topic' =>
      obtain ⟨rfl, rfl⟩ := nullifierPreimage_injective hx.1 hy.1 h
      rfl
    | _ => cases hpurpose
  | externalNullifier electionId =>
    cases y with
    | externalNullifier electionId' =>
      obtain rfl := externalNullifierPreimage_injective h
      rfl
    | _ => cases hpurpose
  | bindNonce electionId tag signal =>
    cases y with
    | bindNonce electionId' tag' signal' =>
      obtain ⟨rfl, rfl, rfl⟩ := bindNoncePreimage_injective hx.1 hy.1 hx.2.2 hy.2.2 h
      rfl
    | _ => cases hpurpose
  | bindContext chainId electionId tag signal =>
    cases y with
    | bindContext chainId' electionId' tag' signal' =>
      obtain ⟨rfl, rfl, rfl, rfl⟩ := bindContextPreimage_injective hx.1 hy.1 hx.2.1 hy.2.1
        hx.2.2.2 hy.2.2.2 h
      rfl
    | _ => cases hpurpose
  | did curve canonical =>
    cases y with
    | did curve' canonical' =>
      cases hpurpose
      obtain rfl := (List.cons.inj h).2
      rfl
    | _ => cases hpurpose

/-- Equal digests have equal arguments, or their preimages collide. -/
theorem eq_or_collision {x y : HashInput} (hx : x.InRange) (hy : y.InRange)
    (h : S.sha256 x.preimage = S.sha256 y.preimage) :
    x = y ∨ S.Collision x.preimage y.preimage := by
  rcases Suite.eq_or_collision h with heq | hcollision
  · exact .inl (eq_of_preimage_eq hx hy heq)
  · exact .inr hcollision

end HashInput

/-! ### The nullifier of an election -/

/-- `semaphore::nullifier`. -/
def semaphoreNullifier (S : Suite) (secret electionId : Bytes) : Bytes :=
  computeNullifier S secret (externalNullifier S electionId)

/-- The nullifier determines the secret and the election, up to collisions. -/
theorem semaphoreNullifier_eq_imp {secret secret' electionId electionId' : Bytes}
    (hsecret : secret.length < 2 ^ 64) (hsecret' : secret'.length < 2 ^ 64)
    (helection : electionId.length < 2 ^ 64) (helection' : electionId'.length < 2 ^ 64)
    (h : semaphoreNullifier S secret electionId = semaphoreNullifier S secret' electionId') :
    (secret = secret' ∧ electionId = electionId') ∨
      S.Collision (nullifierPreimage secret (externalNullifier S electionId))
        (nullifierPreimage secret' (externalNullifier S electionId')) ∨
      S.Collision (externalNullifierPreimage electionId)
        (externalNullifierPreimage electionId') := by
  have hshort : ∀ e, (externalNullifier S e).length < 2 ^ 64 := by
    intro e
    rw [externalNullifier, S.sha256_length]
    decide
  rcases HashInput.eq_or_collision (S := S) (x := .nullifier secret (externalNullifier S electionId))
    (y := .nullifier secret' (externalNullifier S electionId')) ⟨hsecret, hshort _⟩
    ⟨hsecret', hshort _⟩ h with heq | hcollision
  swap
  · exact .inr (.inl hcollision)
  obtain ⟨rfl, htopic⟩ := HashInput.nullifier.inj heq
  rcases HashInput.eq_or_collision (S := S) (x := .externalNullifier electionId)
    (y := .externalNullifier electionId') helection helection' htopic with heq | hcollision
  · exact .inl ⟨rfl, HashInput.externalNullifier.inj heq⟩
  · exact .inr (.inr hcollision)

/-- **Preimages are injective and disjoint.** Within the range of the length prefixes a
    preimage determines the function and its arguments; the function even for
    arguments of any lengths. So two equal digests belong to one function and one
    list of arguments, and `semaphore::nullifier` determines the secret and the
    election, unless two distinct preimages collide under SHA-256. -/
theorem preimages_injective_disjoint (S : Suite) :
    (∀ x y : HashInput, x.InRange → y.InRange → x.preimage = y.preimage → x = y) ∧
    (∀ x y : HashInput, x.preimage = y.preimage → x.purpose = y.purpose) ∧
    (∀ x y : HashInput, x.InRange → y.InRange →
      S.sha256 x.preimage = S.sha256 y.preimage →
        x = y ∨ S.Collision x.preimage y.preimage) ∧
    (∀ x y : HashInput, S.sha256 x.preimage = S.sha256 y.preimage →
        x.purpose = y.purpose ∨ S.Collision x.preimage y.preimage) ∧
    (∀ secret secret' electionId electionId' : Bytes, secret.length < 2 ^ 64 →
      secret'.length < 2 ^ 64 → electionId.length < 2 ^ 64 → electionId'.length < 2 ^ 64 →
      semaphoreNullifier S secret electionId = semaphoreNullifier S secret' electionId' →
        (secret = secret' ∧ electionId = electionId') ∨
        S.Collision (nullifierPreimage secret (externalNullifier S electionId))
          (nullifierPreimage secret' (externalNullifier S electionId')) ∨
        S.Collision (externalNullifierPreimage electionId)
          (externalNullifierPreimage electionId')) := by
  refine ⟨fun _ _ => HashInput.eq_of_preimage_eq, fun _ _ => HashInput.purpose_eq_of_preimage_eq,
    fun _ _ => HashInput.eq_or_collision, ?_, fun _ _ _ _ => semaphoreNullifier_eq_imp⟩
  intro x y h
  rcases Suite.eq_or_collision h with heq | hcollision
  · exact .inl (HashInput.purpose_eq_of_preimage_eq heq)
  · exact .inr hcollision

end PhiCrypto
