import PhiCrypto.ByteString
import PhiCrypto.TracedExec

/-!
# Decoders that consume a prefix

A `Decoder` reads a value off the front of a byte string and returns the rest.
`Decoder.Canonical d enc wf` says that `d` accepts exactly the encodings of the
well-formed values: it reads `enc a` back to `a` whatever follows, and whatever
it accepts was an encoding. From that one law come round trips and injectivity of a
complete format (`Decoder.runAll`).

`Decoder.Stable` is weaker: bytes appended to the input are left over. It is kept by
sequencing, whatever the values that are read, and makes the accepted inputs of a
complete format prefix-free.
-/

namespace PhiCrypto

/-- Reads a value off the front of the input, or fails with a `κ`. -/
abbrev Decoder (κ α : Type) := StateT Bytes (Except κ) α

namespace Decoder

variable {κ α β : Type}

theorem bind_apply (d : Decoder κ α) (f : α → Decoder κ β) (s : Bytes) :
    (d >>= f) s = match d s with
      | .ok (a, t) => f a t
      | .error k => .error k := by
  change (d s >>= fun p => f p.1 p.2) = _
  cases d s <;> rfl

theorem bind_ok {d : Decoder κ α} {f : α → Decoder κ β} {s t : Bytes} {a : α}
    (h : d s = .ok (a, t)) : (d >>= f) s = f a t := by
  rw [bind_apply, h]

theorem bind_error {d : Decoder κ α} {f : α → Decoder κ β} {s : Bytes} {k : κ}
    (h : d s = .error k) : (d >>= f) s = .error k := by
  rw [bind_apply, h]

theorem bind_eq_ok_iff {d : Decoder κ α} {f : α → Decoder κ β} {s u : Bytes} {b : β} :
    (d >>= f) s = .ok (b, u) ↔ ∃ a t, d s = .ok (a, t) ∧ f a t = .ok (b, u) := by
  rw [bind_apply]
  cases hd : d s with
  | error k => simp
  | ok p =>
    constructor
    · intro h
      exact ⟨p.1, p.2, rfl, h⟩
    · rintro ⟨a, t, hp, h⟩
      cases hp
      exact h

@[simp] theorem pure_apply (a : α) (s : Bytes) :
    (pure a : Decoder κ α) s = .ok (a, s) := rfl

@[simp] theorem throw_apply (k : κ) (s : Bytes) :
    (throw k : Decoder κ α) s = .error k := rfl

theorem rejectIf_bind_apply (bad : Prop) [Decidable bad] (k : κ) (f : Unit → Decoder κ β)
    (s : Bytes) :
    (rejectIf bad k >>= f) s = if bad then .error k else f () s := by
  rw [bind_apply, rejectIf]
  by_cases h : bad
  · rw [if_pos h, if_pos h, throw_apply]
  · rw [if_neg h, if_neg h, pure_apply]

/-- The inversion of a check: it passed, and the rest ran. -/
theorem rejectIf_bind_eq_ok_iff {bad : Prop} [Decidable bad] {k : κ} {f : Unit → Decoder κ β}
    {s u : Bytes} {b : β} :
    (rejectIf bad k >>= f) s = .ok (b, u) ↔ ¬ bad ∧ f () s = .ok (b, u) := by
  rw [rejectIf_bind_apply]
  by_cases h : bad
  · rw [if_pos h]
    exact iff_of_false (fun herror => by cases herror) (fun hand => hand.1 h)
  · rw [if_neg h]
    exact (and_iff_right h).symm

/-- The next `n` bytes. -/
def take (n : Nat) (short : κ) : Decoder κ Bytes := fun s =>
  if n ≤ s.length then .ok (s.take n, s.drop n) else .error short

/-- Read `n` values in a row. -/
def replicate (d : Decoder κ α) : Nat → Decoder κ (List α)
  | 0 => pure []
  | n + 1 => do
    let a ← d
    let rest ← replicate d n
    pure (a :: rest)

/-- Decode a whole input: bytes left over are an error. -/
def runAll (d : Decoder κ α) (trailing : κ) (s : Bytes) : Except κ α :=
  match d s with
  | .ok (a, rest) => if rest.isEmpty then .ok a else .error trailing
  | .error k => .error k

theorem runAll_eq_ok_iff {d : Decoder κ α} {trailing : κ} {s : Bytes} {a : α} :
    runAll d trailing s = .ok a ↔ d s = .ok (a, []) := by
  unfold runAll
  cases hd : d s with
  | error k => simp
  | ok p =>
    obtain ⟨b, rest⟩ := p
    cases rest with
    | nil => simp
    | cons x xs => simp

/-! ### The canonical-format law -/

/-- `d` accepts exactly the encodings of well-formed values. -/
structure Canonical (d : Decoder κ α) (enc : α → Bytes) (wf : α → Prop) : Prop where
  complete : ∀ {a : α} (s : Bytes), wf a → d (enc a ++ s) = .ok (a, s)
  sound : ∀ {s t : Bytes} {a : α}, d s = .ok (a, t) → wf a ∧ s = enc a ++ t

namespace Canonical

variable {d : Decoder κ α} {enc : α → Bytes} {wf : α → Prop} {trailing : κ}

/-- A complete format: the accepted inputs are the encodings, each read back to
    the value it encodes. -/
theorem runAll_iff (h : Canonical d enc wf) {s : Bytes} {a : α} :
    runAll d trailing s = .ok a ↔ wf a ∧ s = enc a := by
  rw [runAll_eq_ok_iff]
  constructor
  · intro hd
    simpa using h.sound hd
  · rintro ⟨hwf, rfl⟩
    simpa using h.complete [] hwf

end Canonical

theorem take_append {n : Nat} (short : κ) {b : Bytes} (hlen : b.length = n) (s : Bytes) :
    take n short (b ++ s) = .ok (b, s) := by
  have hle : n ≤ (b ++ s).length := by simp; omega
  rw [take, if_pos hle]
  simp [← hlen]

theorem take_sound {n : Nat} {short : κ} {s t b : Bytes} (h : take n short s = .ok (b, t)) :
    b.length = n ∧ s = b ++ t := by
  unfold take at h
  split at h
  · next hle =>
    cases h
    exact ⟨List.length_take_of_le hle, (List.take_append_drop n s).symm⟩
  · cases h

/-- Reading a list: the encodings of its elements one after another. -/
theorem Canonical.replicate {d : Decoder κ α} {enc : α → Bytes} {wf : α → Prop}
    (h : Canonical d enc wf) (n : Nat) :
    Canonical (Decoder.replicate d n) (fun as => (as.map enc).flatten)
      (fun as => as.length = n ∧ ∀ a ∈ as, wf a) where
  complete := by
    induction n with
    | zero =>
      rintro as s ⟨hlen, -⟩
      obtain rfl := List.length_eq_zero_iff.mp hlen
      rfl
    | succ n ih =>
      rintro as s ⟨hlen, hwf⟩
      obtain ⟨a, rest, rfl⟩ := List.exists_cons_of_length_eq_add_one hlen
      have hread : d (enc a ++ ((rest.map enc).flatten ++ s))
          = .ok (a, (rest.map enc).flatten ++ s) := h.complete _ (hwf a (by simp))
      have hrest := ih s ⟨by simpa using hlen, fun b hb => hwf b (by simp [hb])⟩
      simp only [List.map_cons, List.flatten_cons, List.append_assoc]
      rw [Decoder.replicate, bind_ok hread, bind_ok hrest, pure_apply]
  sound := by
    induction n with
    | zero =>
      intro s t as hd
      cases hd
      exact ⟨⟨rfl, by simp⟩, rfl⟩
    | succ n ih =>
      intro s t as hd
      rw [Decoder.replicate, bind_eq_ok_iff] at hd
      rcases hd with ⟨a, u, ha, hd⟩
      rw [bind_eq_ok_iff] at hd
      rcases hd with ⟨rest, v, hrest, hd⟩
      cases hd
      obtain ⟨hwfa, rfl⟩ := h.sound ha
      obtain ⟨⟨hlen, hwf⟩, rfl⟩ := ih hrest
      refine ⟨⟨by simp [hlen], ?_⟩, by simp⟩
      intro b hb
      rcases List.mem_cons.mp hb with rfl | hmem
      · exact hwfa
      · exact hwf b hmem

/-! ### Stability and prefix-freeness -/

/-- A result that reads nothing. -/
def ofResult (x : Except κ α) : Decoder κ α := fun s =>
  match x with
  | .ok a => .ok (a, s)
  | .error k => .error k

@[simp] theorem ofResult_ok (a : α) (s : Bytes) :
    ofResult (.ok a : Except κ α) s = .ok (a, s) := rfl

@[simp] theorem ofResult_error (k : κ) (s : Bytes) :
    ofResult (.error k : Except κ α) s = .error k := rfl

/-- Bytes appended to an accepted input are left over. -/
structure Stable (d : Decoder κ α) : Prop where
  append : ∀ {s t : Bytes} {a : α} (u : Bytes), d s = .ok (a, t) → d (s ++ u) = .ok (a, t ++ u)

theorem Canonical.stable {d : Decoder κ α} {enc : α → Bytes} {wf : α → Prop}
    (h : Canonical d enc wf) : Stable d where
  append := by
    intro s t a u hd
    obtain ⟨hwf, rfl⟩ := h.sound hd
    rw [List.append_assoc]
    exact h.complete (t ++ u) hwf

theorem stable_pure (a : α) : Stable (pure a : Decoder κ α) where
  append := by
    intro s t b u hd
    cases hd
    rfl

theorem stable_ofResult (x : Except κ α) : Stable (ofResult x) where
  append := by
    intro s t a u hd
    cases x with
    | ok b =>
      cases hd
      rfl
    | error k => cases hd

theorem stable_rejectIf (bad : Prop) [Decidable bad] (k : κ) :
    Stable (rejectIf bad k : Decoder κ Unit) where
  append := by
    intro s t a u hd
    unfold rejectIf at hd ⊢
    split at hd
    · cases hd
    · next hok =>
      cases hd
      rw [if_neg hok]
      rfl

theorem Stable.bind {d : Decoder κ α} {f : α → Decoder κ β} (hd : Stable d)
    (hf : ∀ a, Stable (f a)) : Stable (d >>= f) where
  append := by
    intro s t b u h
    rw [bind_eq_ok_iff] at h ⊢
    obtain ⟨a, v, ha, hb⟩ := h
    exact ⟨a, v ++ u, hd.append u ha, (hf a).append u hb⟩

/-- No word of the language is a proper prefix of another. -/
def PrefixFree (accepts : Bytes → Prop) : Prop :=
  ∀ b b', accepts b → accepts b' → b <+: b' → b = b'

theorem PrefixFree.mono {accepts accepts' : Bytes → Prop} (h : PrefixFree accepts')
    (hsub : ∀ b, accepts b → accepts' b) : PrefixFree accepts := by
  intro b b' hb hb' hprefix
  exact h b b' (hsub b hb) (hsub b' hb') hprefix

/-- An accepted word has no accepted proper prefix and no accepted proper extension. -/
theorem prefixFree_iff {accepts : Bytes → Prop} :
    PrefixFree accepts ↔ ∀ b, accepts b →
      (∀ b', b' <+: b → b' ≠ b → ¬ accepts b') ∧ (∀ b', b <+: b' → b' ≠ b → ¬ accepts b') := by
  constructor
  · intro h b hb
    constructor
    · intro b' hprefix hne hb'
      exact hne (h b' b hb' hb hprefix)
    · intro b' hprefix hne hb'
      exact hne (h b b' hb hb' hprefix).symm
  · intro h b b' hb hb' hprefix
    by_contra hne
    exact (h b hb).2 b' hprefix (Ne.symm hne) hb'

theorem Stable.prefixFree {d : Decoder κ α} {trailing : κ} (h : Stable d) :
    PrefixFree fun b => ∃ a, runAll d trailing b = .ok a := by
  intro b b' hb hb' hprefix
  obtain ⟨a, ha⟩ := hb
  obtain ⟨a', ha'⟩ := hb'
  obtain ⟨u, rfl⟩ := hprefix
  rw [runAll_eq_ok_iff] at ha ha'
  -- the longer input leaves over what was appended to the shorter one
  have hlong := h.append u ha
  rw [ha'] at hlong
  cases hlong
  rw [List.append_nil]

end Decoder

end PhiCrypto
