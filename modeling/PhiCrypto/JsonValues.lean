import PhiCrypto.JsonStrings

/-!
# Values that `serde_json` skips

`ignore_value` runs over a value without recursion: the brackets that are open are on a
stack, the innermost one beside it. What the stack still demands of the text is `Closes`,
and with it the loop accepts the values of the grammar and nothing else. Only a number has
no end of its own, so that what follows it must not continue it.
-/

namespace PhiCrypto

namespace SerdeJson

open Json

/-! ### The model -/

/-- `peek_or_null`. -/
def peekOrNull (s : Bytes) : UInt8 := s.headD 0

/-- The loop over `b'0'..=b'9'`. -/
def skipDigits : Bytes → Bytes
  | [] => []
  | b :: rest => if 0x30 ≤ b ∧ b ≤ 0x39 then skipDigits rest else b :: rest

/-- `ignore_exponent`, behind the letter. -/
def ignoreExponent (s : Bytes) : Option Bytes :=
  let s := if peekOrNull s = 0x2b ∨ peekOrNull s = 0x2d then s.drop 1 else s
  if 0x30 ≤ peekOrNull s ∧ peekOrNull s ≤ 0x39 then some (skipDigits (s.drop 1)) else none

/-- `ignore_decimal`, behind the point. -/
def ignoreDecimal (s : Bytes) : Option Bytes :=
  let left := skipDigits s
  if left.length = s.length then none
  else if peekOrNull left = 0x65 ∨ peekOrNull left = 0x45 then ignoreExponent (left.drop 1)
  else some left

/-- The end of `ignore_integer`, behind the digits. -/
def ignoreFraction (s : Bytes) : Option Bytes :=
  if peekOrNull s = 0x2e then ignoreDecimal (s.drop 1)
  else if peekOrNull s = 0x65 ∨ peekOrNull s = 0x45 then ignoreExponent (s.drop 1)
  else some s

/-- `ignore_integer`. -/
def ignoreInteger : Bytes → Option Bytes
  | [] => none
  | b :: rest =>
    if b = 0x30 then
      if 0x30 ≤ peekOrNull rest ∧ peekOrNull rest ≤ 0x39 then none else ignoreFraction rest
    else if 0x31 ≤ b ∧ b ≤ 0x39 then ignoreFraction (skipDigits rest)
    else none

/-- An open bracket. -/
inductive Frame where
  | array
  | object
deriving DecidableEq, Repr

def Frame.closing : Frame → UInt8
  | .array => 0x5d
  | .object => 0x7d

/-- The arms of `ignore_value` for a value that opens no bracket. -/
def ignoreScalar (step : Nat) (peek : UInt8) (rest : Bytes) : Option Bytes :=
  if peek = 0x6e then parseIdent [0x75, 0x6c, 0x6c] rest
  else if peek = 0x74 then parseIdent [0x72, 0x75, 0x65] rest
  else if peek = 0x66 then parseIdent [0x61, 0x6c, 0x73, 0x65] rest
  else if peek = 0x2d then ignoreInteger rest
  else if 0x30 ≤ peek ∧ peek ≤ 0x39 then ignoreInteger (peek :: rest)
  else if peek = 0x22 then ignoreStr step rest
  else none

/-- How the inner loop of `ignore_value` ends. -/
inductive Closed where
  /-- The outermost bracket is closed. -/
  | done (rest : Bytes)
  /-- Another element or member follows. -/
  | next (frame : Frame) (scratch : List Frame) (rest : Bytes)

/-- The inner loop of `ignore_value`. -/
def closeFrames (acceptComma : Bool) (frame : Frame) (scratch : List Frame) (s : Bytes) :
    Option Closed :=
  match parseWhitespace s with
  | [] => none
  | b :: rest =>
    if b = 0x2c ∧ acceptComma = true then some (.next frame scratch rest)
    else if b = frame.closing then
      match scratch with
      | [] => some (.done rest)
      | outer :: scratch => closeFrames true outer scratch rest
    else if acceptComma = true then none
    else some (.next frame scratch (b :: rest))

/-- The key of a member and its colon. -/
def ignoreKey (step : Nat) (frame : Frame) (s : Bytes) : Option Bytes :=
  match frame with
  | .array => some s
  | .object =>
    match parseWhitespace s with
    | [] => none
    | quote :: s =>
      if quote ≠ 0x22 then none
      else
        match ignoreStr step s with
        | none => none
        | some s =>
          match parseWhitespace s with
          | [] => none
          | colon :: s => if colon ≠ 0x3a then none else some s

/-- The outer loop of `ignore_value` as far as its inner loop: a value up to its first
    bracket, and the brackets that close behind it. -/
def ignoreHead (step : Nat) (enclosing : Option Frame) (scratch : List Frame) (s : Bytes) :
    Option Closed :=
  match parseWhitespace s with
  | [] => none
  | peek :: rest =>
    if peek = 0x5b then closeFrames false .array (enclosing.toList ++ scratch) rest
    else if peek = 0x7b then closeFrames false .object (enclosing.toList ++ scratch) rest
    else
      match ignoreScalar step peek rest with
      | none => none
      | some rest =>
        match enclosing with
        | some frame => closeFrames true frame scratch rest
        | none =>
          match scratch with
          | frame :: scratch => closeFrames true frame scratch rest
          | [] => some (.done rest)

/-- The outer loop of `ignore_value`. -/
def ignoreValueLoop (step : Nat) : Nat → Option Frame → List Frame → Bytes → Option Bytes
  | 0, _, _, _ => none
  | fuel + 1, enclosing, scratch, s =>
    match ignoreHead step enclosing scratch s with
    | none => none
    | some (.done rest) => some rest
    | some (.next frame scratch rest) =>
      match ignoreKey step frame rest with
      | none => none
      | some rest => ignoreValueLoop step fuel (some frame) scratch rest

/-- `ignore_value`. -/
def ignoreValue (step : Nat) (s : Bytes) : Option Bytes :=
  ignoreValueLoop step (s.length + 1) none [] s

/-! ### Numbers -/

/-- A text that continues no number. -/
def EndsNumber (t : Bytes) : Prop := ∀ b ∈ t.head?, ¬ IsDigit b ∧ b ≠ 0x2e ∧ ¬ IsE b

def NoDigit (t : Bytes) : Prop := ∀ b ∈ t.head?, ¬ IsDigit b

theorem digits_skipDigits (s : Bytes) : Digits s (skipDigits s) ∧ NoDigit (skipDigits s) := by
  induction s with
  | nil => exact ⟨.nil [], by simp [skipDigits, NoDigit]⟩
  | cons b rest ih =>
    rw [skipDigits]
    split
    next hdigit => exact ⟨.cons hdigit ih.1, ih.2⟩
    next hdigit =>
      refine ⟨.nil _, ?_⟩
      intro c hc
      cases hc
      exact hdigit

/-- Whatever digits a derivation passes over, the loop passes over exactly those. -/
theorem skipDigits_eq {s t : Bytes} (h : Digits s t) (ht : NoDigit t) : skipDigits s = t := by
  induction h with
  | nil s =>
    cases s with
    | nil => rfl
    | cons b rest => exact if_neg (ht b rfl)
  | cons hdigit _ ih =>
    rw [skipDigits]
    exact (if_pos hdigit).trans (ih ht)

theorem skipDigits_cons {b : UInt8} (hb : IsDigit b) (s : Bytes) :
    skipDigits (b :: s) = skipDigits s := by
  rw [skipDigits]
  exact if_pos hb

theorem skipDigits_length_le (s : Bytes) : (skipDigits s).length ≤ s.length := by
  induction s with
  | nil => exact le_rfl
  | cons b rest ih =>
    rw [skipDigits]
    split
    next => exact ih.trans (Nat.le_succ _)
    next => exact le_rfl

/-- `peek_or_null` is a digit, a letter or a point only where one is there. -/
theorem cons_of_peekOrNull {p : UInt8 → Prop} {s : Bytes} (hnull : ¬ p 0)
    (h : p (peekOrNull s)) : ∃ b rest, s = b :: rest ∧ p b := by
  cases s with
  | nil => exact absurd h hnull
  | cons b rest => exact ⟨b, rest, rfl, h⟩

theorem not_peekOrNull {p : UInt8 → Prop} {s : Bytes} (hnull : ¬ p 0)
    (h : ∀ b ∈ s.head?, ¬ p b) : ¬ p (peekOrNull s) := by
  cases s with
  | nil => exact hnull
  | cons b rest => exact h b rfl

theorem not_isDigit_zero : ¬ IsDigit 0 := by decide

theorem not_isE_zero : ¬ IsE 0 := by simp [IsE]

theorem not_isSign_zero : ¬ IsSign 0 := by simp [IsSign]

theorem ignoreExponent_sound {e : UInt8} {s t : Bytes} (he : IsE e)
    (h : ignoreExponent s = some t) : ExpPart (e :: s) t := by
  unfold ignoreExponent at h
  by_cases hsign : IsSign (peekOrNull s)
  · rw [if_pos (show peekOrNull s = 0x2b ∨ peekOrNull s = 0x2d from hsign)] at h
    obtain ⟨sign, rest, rfl, hsign⟩ := cons_of_peekOrNull not_isSign_zero hsign
    dsimp only [List.drop_succ_cons, List.drop_zero] at h
    split at h
    next hdigit =>
      obtain ⟨b, rest, rfl, hdigit⟩ := cons_of_peekOrNull not_isDigit_zero hdigit
      cases h
      exact .signed he hsign hdigit (digits_skipDigits rest).1
    next => cases h
  · rw [if_neg (show ¬ (peekOrNull s = 0x2b ∨ peekOrNull s = 0x2d) from hsign)] at h
    dsimp only at h
    split at h
    next hdigit =>
      obtain ⟨b, rest, rfl, hdigit⟩ := cons_of_peekOrNull not_isDigit_zero hdigit
      cases h
      exact .unsigned he hdigit (digits_skipDigits rest).1
    next => cases h

/-- Behind the digits, an exponent or none. -/
def ignoreExponentPart (s : Bytes) : Option Bytes :=
  if peekOrNull s = 0x65 ∨ peekOrNull s = 0x45 then ignoreExponent (s.drop 1) else some s

theorem ignoreExponentPart_sound {s t : Bytes} (h : ignoreExponentPart s = some t) :
    ExpPart s t := by
  unfold ignoreExponentPart at h
  split at h
  next he =>
    obtain ⟨e, rest, rfl, he⟩ := cons_of_peekOrNull (p := IsE) not_isE_zero he
    exact ignoreExponent_sound he h
  next =>
    cases h
    exact .none s

theorem ignoreExponentPart_complete {s t : Bytes} (h : ExpPart s t) (ht : EndsNumber t) :
    ignoreExponentPart s = some t := by
  have hdigit : NoDigit t := fun b hb => (ht b hb).1
  unfold ignoreExponentPart
  cases h with
  | none =>
    exact if_neg (not_peekOrNull (p := IsE) not_isE_zero fun b hb => (ht b hb).2.2)
  | @unsigned e b s t he hb hdigits =>
    have hsign : ¬ (b = 0x2b ∨ b = 0x2d) := by
      rintro (rfl | rfl)
      · exact absurd hb (by decide)
      · exact absurd hb (by decide)
    rw [if_pos (show peekOrNull (e :: b :: s) = 0x65 ∨ peekOrNull (e :: b :: s) = 0x45 from he)]
    rw [List.drop_succ_cons, List.drop_zero, ignoreExponent]
    rw [if_neg (show ¬ (peekOrNull (b :: s) = 0x2b ∨ peekOrNull (b :: s) = 0x2d) from hsign)]
    exact (if_pos hb).trans (congrArg some (skipDigits_eq hdigits hdigit))
  | @signed e sign b s t he hsign hb hdigits =>
    rw [if_pos (show peekOrNull (e :: sign :: b :: s) = 0x65 ∨
      peekOrNull (e :: sign :: b :: s) = 0x45 from he)]
    rw [List.drop_succ_cons, List.drop_zero, ignoreExponent]
    rw [if_pos (show peekOrNull (sign :: b :: s) = 0x2b ∨
      peekOrNull (sign :: b :: s) = 0x2d from hsign)]
    exact (if_pos hb).trans (congrArg some (skipDigits_eq hdigits hdigit))

theorem skipDigits_length_eq_iff {s : Bytes} :
    (skipDigits s).length = s.length ↔ NoDigit s := by
  cases s with
  | nil => simp [skipDigits, NoDigit]
  | cons b rest =>
    constructor
    · intro h c hc hdigit
      cases hc
      have hle := skipDigits_length_le rest
      rw [skipDigits_cons hdigit, List.length_cons] at h
      omega
    · intro h
      rw [skipDigits_eq (.nil _) h]

theorem ignoreFraction_sound {s v : Bytes} (h : ignoreFraction s = some v) :
    ∃ u, FracPart s u ∧ ExpPart u v := by
  unfold ignoreFraction at h
  split at h
  next hpoint =>
    obtain ⟨point, rest, rfl, rfl⟩ := cons_of_peekOrNull (p := (· = 0x2e)) (by decide) hpoint
    rw [List.drop_succ_cons, List.drop_zero, ignoreDecimal] at h
    split at h
    next => cases h
    next hlength =>
      have hexp : ExpPart (skipDigits rest) v := ignoreExponentPart_sound h
      cases rest with
      | nil => exact absurd rfl hlength
      | cons b rest =>
        have hdigit : IsDigit b := by
          rw [skipDigits_length_eq_iff] at hlength
          simpa [NoDigit] using hlength
        rw [skipDigits_cons hdigit] at hexp
        exact ⟨_, .some hdigit (digits_skipDigits rest).1, hexp⟩
  next => exact ⟨s, .none s, ignoreExponentPart_sound h⟩

/-- What an exponent begins with is no digit. -/
theorem noDigit_of_expPart {u v : Bytes} (h : ExpPart u v) (hv : EndsNumber v) : NoDigit u := by
  have hletter : ∀ e : UInt8, IsE e → ¬ IsDigit e := by
    rintro e (rfl | rfl) <;> decide
  cases h with
  | none => exact fun b hb => (hv b hb).1
  | unsigned he => exact fun b hb => by cases hb; exact hletter _ he
  | signed he => exact fun b hb => by cases hb; exact hletter _ he

theorem noPoint_of_expPart {u v : Bytes} (h : ExpPart u v) (hv : EndsNumber v) :
    ∀ b ∈ u.head?, b ≠ 0x2e := by
  have hletter : ∀ e : UInt8, IsE e → e ≠ 0x2e := by
    rintro e (rfl | rfl) <;> decide
  cases h with
  | none => exact fun b hb => (hv b hb).2.1
  | unsigned he => exact fun b hb => by cases hb; exact hletter _ he
  | signed he => exact fun b hb => by cases hb; exact hletter _ he

theorem ignoreFraction_complete {t u v : Bytes} (hfrac : FracPart t u) (hexp : ExpPart u v)
    (hv : EndsNumber v) : ignoreFraction t = some v := by
  unfold ignoreFraction
  cases hfrac with
  | none =>
    rw [if_neg (not_peekOrNull (p := (· = 0x2e)) (by decide) (noPoint_of_expPart hexp hv))]
    exact ignoreExponentPart_complete hexp hv
  | @some b s _ hb hdigits =>
    have hskip : skipDigits (b :: s) = u := by
      rw [skipDigits_cons hb, skipDigits_eq hdigits (noDigit_of_expPart hexp hv)]
    have hlength : (skipDigits (b :: s)).length ≠ (b :: s).length := by
      rw [ne_eq, skipDigits_length_eq_iff]
      intro hnone
      exact hnone b rfl hb
    rw [if_pos (show peekOrNull (0x2e :: b :: s) = 0x2e from rfl), List.drop_succ_cons,
      List.drop_zero, ignoreDecimal]
    rw [if_neg hlength, hskip]
    exact ignoreExponentPart_complete hexp hv

theorem noDigit_of_fracPart {t u v : Bytes} (hfrac : FracPart t u) (hexp : ExpPart u v)
    (hv : EndsNumber v) : NoDigit t := by
  cases hfrac with
  | none => exact noDigit_of_expPart hexp hv
  | some => exact fun b hb => by cases hb; decide

theorem ignoreInteger_sound {s v : Bytes} (h : ignoreInteger s = some v) : Unsigned s v := by
  unfold ignoreInteger at h
  split at h
  next => cases h
  next b rest =>
  split at h
  next hzero =>
    split at h
    next => cases h
    next =>
      obtain ⟨u, hfrac, hexp⟩ := ignoreFraction_sound h
      rw [hzero]
      exact ⟨rest, u, .zero rest, hfrac, hexp⟩
  next hzero =>
  split at h
  next hdigit =>
    obtain ⟨u, hfrac, hexp⟩ := ignoreFraction_sound h
    have hb : IsDigit b := ⟨UInt8.le_trans (by decide) hdigit.1, hdigit.2⟩
    exact ⟨skipDigits rest, u, .nonzero hb hzero (digits_skipDigits rest).1, hfrac, hexp⟩
  next => cases h

/-- A number is skipped to its end, where nothing continues it. -/
theorem ignoreInteger_complete {s v : Bytes} (h : Unsigned s v) (hv : EndsNumber v) :
    ignoreInteger s = some v := by
  obtain ⟨t, u, hint, hfrac, hexp⟩ := h
  have ht : NoDigit t := noDigit_of_fracPart hfrac hexp hv
  cases hint with
  | zero =>
    rw [ignoreInteger, if_pos rfl]
    refine (if_neg (not_peekOrNull not_isDigit_zero ht)).trans ?_
    exact ignoreFraction_complete hfrac hexp hv
  | @nonzero b rest _ hb hzero hdigits =>
    have hpos : 0x31 ≤ b ∧ b ≤ 0x39 := by
      have hall : ∀ b : UInt8, IsDigit b → b ≠ 0x30 → 0x31 ≤ b ∧ b ≤ 0x39 :=
        forall_byte (by decide +kernel)
      exact hall b hb hzero
    rw [ignoreInteger, if_neg hzero, if_pos hpos, skipDigits_eq hdigits ht]
    exact ignoreFraction_complete hfrac hexp hv

/-! ### Values that open no bracket -/

section Scalar

variable {step : Nat} {peek : UInt8} {s t v w r rest : Bytes}

theorem ignoreScalar_sound (h : ignoreScalar step peek rest = some w) : Value (peek :: rest) w := by
  unfold ignoreScalar at h
  split at h
  next hn =>
    rw [parseIdent_eq_some_iff] at h
    rw [hn, h]
    exact .nullLit rfl
  next =>
  split at h
  next ht =>
    rw [parseIdent_eq_some_iff] at h
    rw [ht, h]
    exact .boolLit (.inl ⟨rfl, rfl⟩)
  next =>
  split at h
  next hf =>
    rw [parseIdent_eq_some_iff] at h
    rw [hf, h]
    exact .boolLit (.inr ⟨rfl, rfl⟩)
  next =>
  split at h
  next hminus =>
    rw [hminus]
    exact .negative (ignoreInteger_sound h)
  next =>
  split at h
  next => exact .unsigned (ignoreInteger_sound h)
  next =>
  split at h
  next hquote =>
    rw [hquote]
    exact .string (ignoreStr_eq_some_iff.mp h)
  next => cases h

/-- The first byte of a number without its sign. -/
theorem isDigit_of_unsigned (h : Unsigned (peek :: rest) w) : IsDigit peek := by
  obtain ⟨t, u, hint, _⟩ := h
  cases hint with
  | zero => decide
  | nonzero hb => exact hb

theorem ignoreScalar_complete (h : Value (peek :: rest) w) (harray : peek ≠ 0x5b)
    (hobject : peek ≠ 0x7b) (hw : EndsNumber w) : ignoreScalar step peek rest = some w := by
  have hletters : ∀ b : UInt8, IsDigit b → b ≠ 0x6e ∧ b ≠ 0x74 ∧ b ≠ 0x66 ∧ b ≠ 0x2d :=
    forall_byte (by decide +kernel)
  unfold ignoreScalar
  cases h with
  | nullLit hnull =>
    obtain ⟨rfl, rfl⟩ := List.cons.inj hnull
    exact (if_pos rfl).trans (parseIdent_eq_some_iff.mpr rfl)
  | boolLit hbool =>
    rcases hbool with ⟨_, htrue⟩ | ⟨_, hfalse⟩
    · obtain ⟨rfl, rfl⟩ := List.cons.inj htrue
      rw [if_neg (by decide), if_pos rfl]
      exact parseIdent_eq_some_iff.mpr rfl
    · obtain ⟨rfl, rfl⟩ := List.cons.inj hfalse
      rw [if_neg (by decide), if_neg (by decide), if_pos rfl]
      exact parseIdent_eq_some_iff.mpr rfl
  | unsigned hnumber =>
    have hdigit := isDigit_of_unsigned hnumber
    obtain ⟨hn, ht, hf, hminus⟩ := hletters peek hdigit
    rw [if_neg hn, if_neg ht, if_neg hf, if_neg hminus]
    exact (if_pos hdigit).trans (ignoreInteger_complete hnumber hw)
  | negative hnumber =>
    rw [if_neg (by decide), if_neg (by decide), if_neg (by decide), if_pos rfl]
    exact ignoreInteger_complete hnumber hw
  | string hbody =>
    rw [if_neg (by decide), if_neg (by decide), if_neg (by decide), if_neg (by decide),
      if_neg (by decide), if_pos rfl]
    exact ignoreStr_eq_some_iff.mpr hbody
  | emptyArray | array => exact absurd rfl harray
  | emptyObject | object => exact absurd rfl hobject

end Scalar

/-! ### Open brackets -/

theorem spaces_trans {s t u : Bytes} (hst : Spaces s t) (htu : Spaces t u) : Spaces s u := by
  induction hst with
  | nil => exact htu
  | cons hspace _ ih => exact .cons hspace (ih htu)

def Frame.opening : Frame → UInt8
  | .array => 0x5b
  | .object => 0x7b

/-- What is read in front of a value: nothing, or the key of the member. -/
def Frame.Lead : Frame → Bytes → Bytes → Prop
  | .array => Spaces
  | .object => SkippedKey

def Frame.Items : Frame → Bytes → Bytes → Prop
  | .array => Elements
  | .object => Members

/-- What an open bracket demands behind one of its values. -/
def Frame.Rest (frame : Frame) (s t : Bytes) : Prop :=
  Spaces s (frame.closing :: t) ∨ ∃ u, Spaces s (0x2c :: u) ∧ frame.Items u t

/-- What the stack of open brackets demands, the innermost first. -/
inductive Closes : List Frame → Bytes → Bytes → Prop where
  | nil (r : Bytes) : Closes [] r r
  | cons {frame : Frame} {frames : List Frame} {s t r : Bytes} :
      frame.Rest s t → Closes frames t r → Closes (frame :: frames) s r

section Stack

variable {step : Nat} {frame : Frame} {scratch : List Frame} {s t u v w r : Bytes}

theorem items_iff :
    frame.Items s t ↔ ∃ v w, frame.Lead s v ∧ Value v w ∧ frame.Rest w t := by
  cases frame with
  | array =>
    constructor
    · intro h
      cases h with
      | last hlead hvalue hclose => exact ⟨_, _, hlead, hvalue, .inl hclose⟩
      | more hlead hvalue hcomma hitems => exact ⟨_, _, hlead, hvalue, .inr ⟨_, hcomma, hitems⟩⟩
    · rintro ⟨v, w, hlead, hvalue, hclose | ⟨u, hcomma, hitems⟩⟩
      · exact .last hlead hvalue hclose
      · exact .more hlead hvalue hcomma hitems
  | object =>
    constructor
    · intro h
      cases h with
      | last hlead hvalue hclose => exact ⟨_, _, hlead, hvalue, .inl hclose⟩
      | more hlead hvalue hcomma hitems => exact ⟨_, _, hlead, hvalue, .inr ⟨_, hcomma, hitems⟩⟩
    · rintro ⟨v, w, hlead, hvalue, hclose | ⟨u, hcomma, hitems⟩⟩
      · exact .last hlead hvalue hclose
      · exact .more hlead hvalue hcomma hitems

theorem lead_of_spaces (hspaces : Spaces s u) (hlead : frame.Lead u v) : frame.Lead s v := by
  cases frame with
  | array => exact spaces_trans hspaces hlead
  | object =>
    obtain ⟨body, t, w, hquote, hbody, hcolon, hvalue⟩ := hlead
    exact ⟨body, t, w, spaces_trans hspaces hquote, hbody, hcolon, hvalue⟩

theorem items_of_spaces (hspaces : Spaces s u) (hitems : frame.Items u t) : frame.Items s t := by
  obtain ⟨v, w, hlead, hvalue, hrest⟩ := items_iff.mp hitems
  exact items_iff.mpr ⟨v, w, lead_of_spaces hspaces hlead, hvalue, hrest⟩

/-- A value begins with none of the bytes that stand between values. -/
theorem value_head (h : Value v w) :
    ∃ b rest, v = b :: rest ∧ ¬ IsSpace b ∧ b ≠ 0x2c ∧ b ≠ 0x5d ∧ b ≠ 0x7d := by
  have hdigits : ∀ b : UInt8, IsDigit b → ¬ IsSpace b ∧ b ≠ 0x2c ∧ b ≠ 0x5d ∧ b ≠ 0x7d :=
    forall_byte (by decide +kernel)
  cases h with
  | nullLit hnull => exact ⟨_, _, hnull, by decide, by decide, by decide, by decide⟩
  | boolLit hbool =>
    rcases hbool with ⟨_, htrue⟩ | ⟨_, hfalse⟩
    · exact ⟨_, _, htrue, by decide, by decide, by decide, by decide⟩
    · exact ⟨_, _, hfalse, by decide, by decide, by decide, by decide⟩
  | unsigned hnumber =>
    cases v with
    | nil =>
      obtain ⟨t, u, hint, _⟩ := hnumber
      cases hint
    | cons b rest => exact ⟨b, rest, rfl, hdigits b (isDigit_of_unsigned hnumber)⟩
  | negative => exact ⟨_, _, rfl, by decide, by decide, by decide, by decide⟩
  | string => exact ⟨_, _, rfl, by decide, by decide, by decide, by decide⟩
  | emptyArray | array => exact ⟨_, _, rfl, by decide, by decide, by decide, by decide⟩
  | emptyObject | object => exact ⟨_, _, rfl, by decide, by decide, by decide, by decide⟩

/-- An opened bracket is closed at once or has values. -/
theorem value_opening_iff :
    Value (frame.opening :: s) t ↔ Spaces s (frame.closing :: t) ∨ frame.Items s t := by
  have hletter : frame.opening ≠ 0x6e ∧ frame.opening ≠ 0x74 ∧ frame.opening ≠ 0x66 ∧
      ¬ IsDigit frame.opening := by
    cases frame <;> decide
  obtain ⟨hn, ht, hf, hdigit⟩ := hletter
  constructor
  · intro h
    generalize hv : frame.opening :: s = v at h
    cases h with
    | nullLit hnull => exact absurd (List.cons.inj (hv.trans hnull)).1 hn
    | boolLit hbool =>
      rcases hbool with ⟨_, htrue⟩ | ⟨_, hfalse⟩
      · exact absurd (List.cons.inj (hv.trans htrue)).1 ht
      · exact absurd (List.cons.inj (hv.trans hfalse)).1 hf
    | unsigned hnumber =>
      rw [← hv] at hnumber
      exact absurd (isDigit_of_unsigned hnumber) hdigit
    | negative => cases frame <;> cases hv
    | string => cases frame <;> cases hv
    | emptyArray hclose => cases frame <;> cases hv; exact .inl hclose
    | array hitems => cases frame <;> cases hv; exact .inr hitems
    | emptyObject hclose => cases frame <;> cases hv; exact .inl hclose
    | object hitems => cases frame <;> cases hv; exact .inr hitems
  · rintro (hclose | hitems)
    · cases frame with
      | array => exact .emptyArray hclose
      | object => exact .emptyObject hclose
    · cases frame with
      | array => exact .array hitems
      | object => exact .object hitems

/-- What stands between values continues no number. -/
theorem endsNumber_of_spaces {b : UInt8} (hb : b = 0x2c ∨ b = 0x5d ∨ b = 0x7d)
    (h : Spaces s (b :: u)) : EndsNumber s := by
  have hends : ∀ b : UInt8, IsSpace b ∨ b = 0x2c ∨ b = 0x5d ∨ b = 0x7d →
      ¬ IsDigit b ∧ b ≠ 0x2e ∧ ¬ (b = 0x65 ∨ b = 0x45) := forall_byte (by decide +kernel)
  cases h with
  | nil =>
    intro c hc
    cases hc
    exact hends b (.inr hb)
  | cons hspace =>
    intro c hc
    cases hc
    exact hends _ (.inl hspace)

theorem endsNumber_of_closes {frames : List Frame} (hne : frames ≠ []) (h : Closes frames s r) :
    EndsNumber s := by
  cases h with
  | nil => exact absurd rfl hne
  | @cons frame _ _ _ _ hrest =>
    rcases hrest with hclose | ⟨u, hcomma, _⟩
    · exact endsNumber_of_spaces (by cases frame <;> decide) hclose
    · exact endsNumber_of_spaces (by decide) hcomma

/-! ### The loops -/

/-- What is left to read where the inner loop ended. -/
def Closed.Leads : Closed → Bytes → Prop
  | .done rest, r => rest = r
  | .next frame scratch rest, r => ∃ t, frame.Items rest t ∧ Closes scratch t r

theorem not_isSpace_closing (frame : Frame) : ¬ IsSpace frame.closing ∧ frame.closing ≠ 0x2c := by
  cases frame <;> decide

/-- How the inner loop goes on behind a value. -/
theorem closeFrames_cases {closed : Closed} :
    closeFrames true frame scratch s = some closed →
      (∃ u, Spaces s (0x2c :: u) ∧ closed = .next frame scratch u) ∨
        ∃ u, Spaces s (frame.closing :: u) ∧
          (match scratch with
            | [] => some (.done u)
            | outer :: scratch => closeFrames true outer scratch u) = some closed := by
  intro h
  rw [closeFrames.eq_def] at h
  have hspaces := spaces_parseWhitespace s
  generalize parseWhitespace s = left at h hspaces
  split at h
  next => cases h
  next b rest =>
  split at h
  next hcomma =>
    cases h
    rw [hcomma.1] at hspaces
    exact .inl ⟨rest, hspaces, rfl⟩
  next =>
  split at h
  next hclosing =>
    rw [hclosing] at hspaces
    exact .inr ⟨rest, hspaces, h⟩
  next => cases h

theorem closeFrames_sound {closed : Closed} (h : closeFrames true frame scratch s = some closed)
    (hleads : closed.Leads r) : Closes (frame :: scratch) s r := by
  induction scratch generalizing frame s with
  | nil =>
    rcases closeFrames_cases h with ⟨u, hcomma, rfl⟩ | ⟨u, hclose, hdone⟩
    · obtain ⟨t, hitems, hcloses⟩ := hleads
      exact .cons (.inr ⟨u, hcomma, hitems⟩) hcloses
    · cases hdone
      cases hleads
      exact .cons (.inl hclose) (.nil _)
  | cons outer scratch ih =>
    rcases closeFrames_cases h with ⟨u, hcomma, rfl⟩ | ⟨u, hclose, houter⟩
    · obtain ⟨t, hitems, hcloses⟩ := hleads
      exact .cons (.inr ⟨u, hcomma, hitems⟩) hcloses
    · exact .cons (.inl hclose) (ih houter)

theorem closeFrames_comma (h : Spaces s (0x2c :: u)) :
    closeFrames true frame scratch s = some (.next frame scratch u) := by
  rw [closeFrames.eq_def, (parseWhitespace_eq_cons_iff (by decide)).mpr h]
  rfl

theorem closeFrames_closing {acceptComma : Bool} (h : Spaces s (frame.closing :: u)) :
    closeFrames acceptComma frame scratch s
      = match scratch with
        | [] => some (.done u)
        | outer :: scratch => closeFrames true outer scratch u := by
  obtain ⟨hspace, hcomma⟩ := not_isSpace_closing frame
  rw [closeFrames.eq_def, (parseWhitespace_eq_cons_iff hspace).mpr h]
  dsimp only
  rw [if_neg (fun h => hcomma h.1), if_pos rfl]

theorem closeFrames_complete (h : Closes (frame :: scratch) s r) :
    ∃ closed, closeFrames true frame scratch s = some closed ∧ closed.Leads r := by
  induction scratch generalizing frame s with
  | nil =>
    cases h with
    | @cons _ _ _ t _ hrest hcloses =>
    rcases hrest with hclose | ⟨u, hcomma, hitems⟩
    · cases hcloses
      exact ⟨.done r, closeFrames_closing hclose, rfl⟩
    · exact ⟨_, closeFrames_comma hcomma, t, hitems, hcloses⟩
  | cons outer scratch ih =>
    cases h with
    | @cons _ _ _ t _ hrest hcloses =>
    rcases hrest with hclose | ⟨u, hcomma, hitems⟩
    · rw [closeFrames_closing hclose]
      exact ih hcloses
    · exact ⟨_, closeFrames_comma hcomma, t, hitems, hcloses⟩

/-- Behind an opening bracket the value in it is still to come. -/
theorem closeFrames_opened_sound {closed : Closed}
    (h : closeFrames false frame scratch s = some closed) (hleads : closed.Leads r) :
    ∃ t, Value (frame.opening :: s) t ∧ Closes scratch t r := by
  have hspaces := spaces_parseWhitespace s
  unfold closeFrames at h
  split at h
  next => cases h
  next b rest hleft =>
  rw [hleft] at hspaces
  rw [if_neg (fun h => Bool.false_ne_true h.2)] at h
  split at h
  next hclosing =>
    rw [hclosing] at hspaces
    refine ⟨rest, value_opening_iff.mpr (.inl hspaces), ?_⟩
    cases scratch with
    | nil =>
      cases h
      cases hleads
      exact .nil _
    | cons outer scratch => exact closeFrames_sound h hleads
  next =>
    rw [if_neg Bool.false_ne_true] at h
    cases h
    obtain ⟨t, hitems, hcloses⟩ := hleads
    exact ⟨t, value_opening_iff.mpr (.inr (items_of_spaces hspaces hitems)), hcloses⟩

/-- What leads a value begins neither with a closing bracket nor at the end of the text. -/
theorem lead_head (hlead : frame.Lead s v) (hvalue : Value v w) :
    ∃ b rest, parseWhitespace s = b :: rest ∧ b ≠ frame.closing ∧ frame.Lead (b :: rest) v := by
  cases frame with
  | array =>
    obtain ⟨b, rest, rfl, hspace, _, hclosing, _⟩ := value_head hvalue
    exact ⟨b, rest, (parseWhitespace_eq_cons_iff hspace).mpr hlead, hclosing, .nil _⟩
  | object =>
    obtain ⟨body, t, u, hquote, hrest⟩ := hlead
    exact ⟨0x22, body, (parseWhitespace_eq_cons_iff (by decide)).mpr hquote, by decide,
      body, t, u, .nil _, hrest⟩

theorem closeFrames_opened_complete (hvalue : Value (frame.opening :: s) t)
    (hcloses : Closes scratch t r) :
    ∃ closed, closeFrames false frame scratch s = some closed ∧ closed.Leads r := by
  rcases value_opening_iff.mp hvalue with hclose | hitems
  · rw [closeFrames_closing hclose]
    cases scratch with
    | nil =>
      cases hcloses
      exact ⟨.done t, rfl, rfl⟩
    | cons outer scratch => exact closeFrames_complete hcloses
  · obtain ⟨v, w, hlead, hinner, hrest⟩ := items_iff.mp hitems
    obtain ⟨b, rest, hleft, hclosing, hlead⟩ := lead_head hlead hinner
    refine ⟨.next frame scratch (b :: rest), ?_, t, items_iff.mpr ⟨v, w, hlead, hinner, hrest⟩,
      hcloses⟩
    rw [closeFrames.eq_def, hleft]
    dsimp only
    rw [if_neg (fun h => Bool.false_ne_true h.2), if_neg hclosing, if_neg Bool.false_ne_true]

theorem lead_iff :
    frame.Lead s v ↔ ∃ u, ignoreKey step frame s = some u ∧ Spaces u v := by
  cases frame with
  | array =>
    constructor
    · intro hlead
      exact ⟨s, rfl, hlead⟩
    · rintro ⟨u, hkey, hspaces⟩
      cases hkey
      exact hspaces
  | object =>
    constructor
    · rintro ⟨body, t, u, hquote, hbody, hcolon, hspaces⟩
      refine ⟨u, ?_, hspaces⟩
      rw [ignoreKey, (parseWhitespace_eq_cons_iff (by decide)).mpr hquote]
      dsimp only
      rw [if_neg (not_not.mpr rfl), ignoreStr_eq_some_iff.mpr hbody]
      dsimp only
      rw [(parseWhitespace_eq_cons_iff (by decide)).mpr hcolon]
      exact if_neg (not_not.mpr rfl)
    · rintro ⟨u, hkey, hspaces⟩
      rw [ignoreKey] at hkey
      split at hkey
      next => cases hkey
      next quote body hquote =>
      split at hkey
      next => cases hkey
      next heq =>
      rw [not_not] at heq
      split at hkey
      next => cases hkey
      next t hbody =>
      split at hkey
      next => cases hkey
      next colon left hcolon =>
      split at hkey
      next => cases hkey
      next heq' =>
      rw [not_not] at heq'
      cases hkey
      rw [heq, parseWhitespace_eq_cons_iff (by decide)] at hquote
      rw [heq', parseWhitespace_eq_cons_iff (by decide)] at hcolon
      exact ⟨body, t, _, hquote, ignoreStr_eq_some_iff.mp hbody, hcolon, hspaces⟩

end Stack

/-! ### Lengths -/

section Length

variable {step : Nat} {frame : Frame} {scratch : List Frame} {s t u v w r : Bytes}

theorem spaces_length (h : Spaces s t) : t.length ≤ s.length := by
  induction h with
  | nil => exact le_rfl
  | cons _ _ ih => exact ih.trans (Nat.le_succ _)

theorem skippedBody_length (h : SkippedBody s t) : t.length < s.length := by
  induction h with
  | close => exact Nat.lt_succ_self _
  | plain _ _ ih => exact ih.trans (Nat.lt_succ_self _)
  | short _ _ ih => exact ih.trans ((Nat.lt_succ_self _).trans (Nat.lt_succ_self _))
  | unicode hdigits _ ih =>
    have := hex4_length hdigits
    simp only [List.length_cons]
    omega

theorem digits_length (h : Digits s t) : t.length ≤ s.length := by
  induction h with
  | nil => exact le_rfl
  | cons _ _ ih => exact ih.trans (Nat.le_succ _)

theorem unsigned_length (h : Unsigned s v) : v.length < s.length := by
  obtain ⟨t, u, hint, hfrac, hexp⟩ := h
  have ht : t.length < s.length := by
    cases hint with
    | zero => exact Nat.lt_succ_self _
    | nonzero _ _ hdigits => exact Nat.lt_succ_of_le (digits_length hdigits)
  have hu : u.length ≤ t.length := by
    cases hfrac with
    | none => exact le_rfl
    | some _ hdigits =>
      have := digits_length hdigits
      simp only [List.length_cons]
      omega
  have hv : v.length ≤ u.length := by
    cases hexp with
    | none => exact le_rfl
    | unsigned _ _ hdigits =>
      have := digits_length hdigits
      simp only [List.length_cons]
      omega
    | signed _ _ _ hdigits =>
      have := digits_length hdigits
      simp only [List.length_cons]
      omega
  omega

theorem skippedKey_length (h : SkippedKey s v) : v.length < s.length := by
  obtain ⟨body, t, u, hquote, hbody, hcolon, hspaces⟩ := h
  have hquote := spaces_length hquote
  have hbody := skippedBody_length hbody
  have hcolon := spaces_length hcolon
  have hspaces := spaces_length hspaces
  rw [List.length_cons] at hquote hcolon
  omega

mutual

theorem value_length : ∀ {s t : Bytes}, Value s t → t.length < s.length
  | _, _, .nullLit hnull => by
    rw [hnull]
    simp only [List.length_cons]
    omega
  | _, _, .boolLit hbool => by
    rcases hbool with ⟨_, rfl⟩ | ⟨_, rfl⟩
    · simp only [List.length_cons]
      omega
    · simp only [List.length_cons]
      omega
  | _, _, .unsigned hnumber => unsigned_length hnumber
  | _, _, .negative hnumber => (unsigned_length hnumber).trans (Nat.lt_succ_self _)
  | _, _, .string hbody => (skippedBody_length hbody).trans (Nat.lt_succ_self _)
  | _, _, .emptyArray hclose => (spaces_length hclose).trans (Nat.le_succ _)
  | _, _, .array helements => (elements_length helements).trans (Nat.lt_succ_self _)
  | _, _, .emptyObject hclose => (spaces_length hclose).trans (Nat.le_succ _)
  | _, _, .object hmembers => (members_length hmembers).trans (Nat.lt_succ_self _)

theorem elements_length : ∀ {s t : Bytes}, Elements s t → t.length < s.length
  | _, _, .last hlead hvalue hclose => by
    have hlead := spaces_length hlead
    have hvalue := value_length hvalue
    have hclose := spaces_length hclose
    rw [List.length_cons] at hclose
    omega
  | _, _, .more hlead hvalue hcomma helements => by
    have hlead := spaces_length hlead
    have hvalue := value_length hvalue
    have hcomma := spaces_length hcomma
    have helements := elements_length helements
    rw [List.length_cons] at hcomma
    omega

theorem members_length : ∀ {s t : Bytes}, Members s t → t.length < s.length
  | _, _, .last hlead hvalue hclose => by
    have hlead := skippedKey_length hlead
    have hvalue := value_length hvalue
    have hclose := spaces_length hclose
    rw [List.length_cons] at hclose
    omega
  | _, _, .more hlead hvalue hcomma hmembers => by
    have hlead := skippedKey_length hlead
    have hvalue := value_length hvalue
    have hcomma := spaces_length hcomma
    have hmembers := members_length hmembers
    rw [List.length_cons] at hcomma
    omega

end

theorem ignoreScalar_length {peek : UInt8} (h : ignoreScalar step peek s = some t) :
    t.length ≤ s.length :=
  Nat.le_of_lt_succ (value_length (ignoreScalar_sound h))

theorem ignoreKey_length (h : ignoreKey step frame s = some t) : t.length ≤ s.length := by
  have hlead : frame.Lead s t := lead_iff.mpr ⟨t, h, .nil t⟩
  cases frame with
  | array => exact spaces_length hlead
  | object => exact (skippedKey_length hlead).le

theorem closeFrames_length {acceptComma : Bool} {frame' : Frame} {scratch' : List Frame}
    (h : closeFrames acceptComma frame scratch s = some (.next frame' scratch' t)) :
    t.length ≤ s.length := by
  induction scratch generalizing acceptComma frame s with
  | nil =>
    have hle := parseWhitespace_length_le s
    unfold closeFrames at h
    grind
  | cons outer scratch ih =>
    have hle := parseWhitespace_length_le s
    unfold closeFrames at h
    grind

theorem ignoreHead_length {enclosing : Option Frame}
    (h : ignoreHead step enclosing scratch s = some (.next frame scratch' t)) :
    t.length < s.length := by
  have hle := parseWhitespace_length_le s
  unfold ignoreHead at h
  split at h
  next => cases h
  next peek rest hleft =>
  rw [hleft, List.length_cons] at hle
  split at h
  next => exact (closeFrames_length h).trans_lt hle
  next =>
  split at h
  next => exact (closeFrames_length h).trans_lt hle
  next =>
  split at h
  next => cases h
  next rest' hscalar =>
  have hscalar := ignoreScalar_length hscalar
  split at h
  next => exact ((closeFrames_length h).trans hscalar).trans_lt hle
  next =>
  split at h
  next => exact ((closeFrames_length h).trans hscalar).trans_lt hle
  next => cases h

end Length

/-! ### `ignore_value` -/

section Value

variable {step fuel : Nat} {enclosing : Option Frame} {scratch : List Frame} {s v w r : Bytes}

theorem ignoreHead_sound {closed : Closed}
    (h : ignoreHead step enclosing scratch s = some closed) (hleads : closed.Leads r) :
    ∃ v w, Spaces s v ∧ Value v w ∧ Closes (enclosing.toList ++ scratch) w r := by
  have hspaces := spaces_parseWhitespace s
  unfold ignoreHead at h
  split at h
  next => cases h
  next peek rest hleft =>
  rw [hleft] at hspaces
  split at h
  next harray =>
    obtain ⟨w, hvalue, hcloses⟩ := closeFrames_opened_sound h hleads
    rw [harray] at hspaces
    exact ⟨_, w, hspaces, hvalue, hcloses⟩
  next =>
  split at h
  next hobject =>
    obtain ⟨w, hvalue, hcloses⟩ := closeFrames_opened_sound h hleads
    rw [hobject] at hspaces
    exact ⟨_, w, hspaces, hvalue, hcloses⟩
  next =>
  split at h
  next => cases h
  next w hscalar =>
  refine ⟨_, w, hspaces, ignoreScalar_sound hscalar, ?_⟩
  cases enclosing with
  | some frame => exact closeFrames_sound h hleads
  | none =>
    cases scratch with
    | cons frame scratch => exact closeFrames_sound h hleads
    | nil =>
      cases h
      cases hleads
      exact .nil _

theorem ignoreHead_complete (hspaces : Spaces s v) (hvalue : Value v w)
    (hcloses : Closes (enclosing.toList ++ scratch) w r)
    (hends : enclosing.toList ++ scratch = [] → EndsNumber r) :
    ∃ closed, ignoreHead step enclosing scratch s = some closed ∧ closed.Leads r := by
  obtain ⟨peek, rest, rfl, hspace, _⟩ := value_head hvalue
  have hw : EndsNumber w := by
    by_cases hstack : enclosing.toList ++ scratch = []
    · have hr := hends hstack
      rw [hstack] at hcloses
      cases hcloses
      exact hr
    · exact endsNumber_of_closes hstack hcloses
  rw [ignoreHead, (parseWhitespace_eq_cons_iff hspace).mpr hspaces]
  dsimp only
  split
  next harray =>
    rw [harray] at hvalue
    have hopened : Value (Frame.array.opening :: rest) w := hvalue
    exact closeFrames_opened_complete hopened hcloses
  next harray =>
  split
  next hobject =>
    rw [hobject] at hvalue
    have hopened : Value (Frame.object.opening :: rest) w := hvalue
    exact closeFrames_opened_complete hopened hcloses
  next hobject =>
  rw [ignoreScalar_complete hvalue harray hobject hw]
  cases enclosing with
  | some frame => exact closeFrames_complete hcloses
  | none =>
    cases scratch with
    | cons frame scratch => exact closeFrames_complete hcloses
    | nil =>
      cases hcloses
      exact ⟨.done _, rfl, rfl⟩

theorem ignoreValueLoop_sound (h : ignoreValueLoop step fuel enclosing scratch s = some r) :
    ∃ v w, Spaces s v ∧ Value v w ∧ Closes (enclosing.toList ++ scratch) w r := by
  induction fuel generalizing enclosing scratch s with
  | zero => cases h
  | succ fuel ih =>
    unfold ignoreValueLoop at h
    split at h
    next => cases h
    next rest hhead =>
      cases h
      exact ignoreHead_sound hhead rfl
    next frame scratch' rest hhead =>
    split at h
    next => cases h
    next u hkey =>
    obtain ⟨v, w, hspaces, hvalue, hcloses⟩ := ih h
    cases hcloses with
    | cons hrest hcloses =>
    refine ignoreHead_sound hhead ⟨_, ?_, hcloses⟩
    exact items_iff.mpr ⟨v, w, lead_iff.mpr ⟨u, hkey, hspaces⟩, hvalue, hrest⟩

theorem ignoreValueLoop_complete (hfuel : s.length < fuel) (hspaces : Spaces s v)
    (hvalue : Value v w) (hcloses : Closes (enclosing.toList ++ scratch) w r)
    (hends : enclosing.toList ++ scratch = [] → EndsNumber r) :
    ignoreValueLoop step fuel enclosing scratch s = some r := by
  induction fuel generalizing enclosing scratch s v w with
  | zero => cases hfuel
  | succ fuel ih =>
    obtain ⟨closed, hhead, hleads⟩ :
        ∃ closed, ignoreHead step enclosing scratch s = some closed ∧ closed.Leads r :=
      ignoreHead_complete hspaces hvalue hcloses hends
    rw [ignoreValueLoop, hhead]
    cases closed with
    | done rest => exact congrArg some hleads
    | next frame scratch' rest =>
      obtain ⟨t, hitems, hcloses⟩ := hleads
      obtain ⟨v, w, hlead, hvalue, hrest⟩ := items_iff.mp hitems
      obtain ⟨u, hkey, hspaces⟩ := lead_iff.mp hlead
      dsimp only
      rw [hkey]
      have hhead := ignoreHead_length hhead
      have hkey := ignoreKey_length hkey
      exact ih (by omega) hspaces hvalue (.cons hrest hcloses) (fun h => by cases h)

theorem ignoreValue_sound (h : ignoreValue step s = some r) : ∃ v, Spaces s v ∧ Value v r := by
  obtain ⟨v, w, hspaces, hvalue, hcloses⟩ := ignoreValueLoop_sound h
  cases hcloses
  exact ⟨v, hspaces, hvalue⟩

theorem ignoreValue_complete (hspaces : Spaces s v) (hvalue : Value v r) (hr : EndsNumber r) :
    ignoreValue step s = some r :=
  ignoreValueLoop_complete (Nat.lt_succ_self _) hspaces hvalue (.nil r) fun _ => hr

/-- **Skipped values.** Where nothing continues a number, `ignore_value` ends at `r` exactly
    if the text up to there is one value of the grammar, however deeply it nests. -/
theorem ignores_values_exactly (step : Nat) (s : Bytes) {r : Bytes} (hr : EndsNumber r) :
    ignoreValue step s = some r ↔ ∃ v, Spaces s v ∧ Value v r := by
  constructor
  · exact ignoreValue_sound
  · intro ⟨v, hspaces, hvalue⟩
    exact ignoreValue_complete hspaces hvalue hr

/-- An array, a number and an object with one member in it, up to the next comma. -/
def nestedText : Bytes :=
  [0x20, 0x5b, 0x2d, 0x31, 0x2e, 0x35, 0x65, 0x33, 0x2c, 0x7b, 0x22, 0x61, 0x22, 0x3a, 0x6e, 0x75,
    0x6c, 0x6c, 0x7d, 0x5d, 0x2c]

theorem nestedText_ignored :
    ignoreValue 8 nestedText = some [0x2c] ∧ ∃ v, Spaces nestedText v ∧ Value v [0x2c] := by
  have hcomma : EndsNumber [0x2c] := by
    intro b hb
    cases hb
    refine ⟨by decide, by decide, ?_⟩
    rintro (h | h)
    · exact absurd h (by decide)
    · exact absurd h (by decide)
  have hskip : ignoreValue 8 nestedText = some [0x2c] := by decide +kernel
  exact ⟨hskip, (ignores_values_exactly 8 nestedText hcomma).mp hskip⟩

end Value

end SerdeJson

end PhiCrypto
