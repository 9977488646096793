import PhiCrypto.JsonValues

/-!
# Deserializers of `serde_json`

Strings, booleans and options, and the access to the members of an object and to the elements
of an array that a visitor has. A deserializer reads a production of the grammar, behind
whitespace (`Deserializes`); the visitors are read off this.
-/

namespace PhiCrypto

namespace SerdeJson

open Json

/-! ### The model -/

/-- A byte that must come next, behind whitespace. -/
def expectByte (byte : UInt8) (s : Bytes) : Option Bytes :=
  match parseWhitespace s with
  | [] => none
  | peek :: s => if peek = byte then some s else none

/-- `deserialize_str`. -/
def deserializeStr (step : Nat) (s : Bytes) : Option (Bytes × Bytes) :=
  (expectByte 0x22 s).bind (parseStr step)

/-- `deserialize_bool`. -/
def deserializeBool (s : Bytes) : Option (Bool × Bytes) :=
  match parseWhitespace s with
  | [] => none
  | peek :: s =>
    if peek = 0x74 then (parseIdent [0x72, 0x75, 0x65] s).map fun s => (true, s)
    else if peek = 0x66 then (parseIdent [0x61, 0x6c, 0x73, 0x65] s).map fun s => (false, s)
    else none

/-- `deserialize_option` over the deserializer of the value. -/
def deserializeOption {α : Type} (value : Bytes → Option (α × Bytes)) (s : Bytes) :
    Option (Option α × Bytes) :=
  match parseWhitespace s with
  | [] => (value []).map fun p => (some p.1, p.2)
  | peek :: s =>
    if peek = 0x6e then (parseIdent [0x75, 0x6c, 0x6c] s).map fun s => (none, s)
    else (value (peek :: s)).map fun p => (some p.1, p.2)

/-- `parse_object_colon`. -/
def parseObjectColon (s : Bytes) : Option Bytes := expectByte 0x3a s

/-- `has_next_key`, with the text from the key on. -/
def hasNextKey (first : Bool) (s : Bytes) : Option (Bool × Bytes) :=
  match parseWhitespace s with
  | [] => none
  | peek :: rest =>
    if peek = 0x7d then some (false, peek :: rest)
    else if first = true then if peek = 0x22 then some (true, peek :: rest) else none
    else if peek = 0x2c then
      match parseWhitespace rest with
      | [] => none
      | peek :: rest => if peek = 0x22 then some (true, peek :: rest) else none
    else none

/-- `has_next_element`, with the text from the element on. -/
def hasNextElement (first : Bool) (s : Bytes) : Option (Bool × Bytes) :=
  match parseWhitespace s with
  | [] => none
  | peek :: rest =>
    if peek = 0x5d then some (false, peek :: rest)
    else if first = true then some (true, peek :: rest)
    else if peek = 0x2c then
      match parseWhitespace rest with
      | [] => none
      | peek :: rest => if peek = 0x5d then none else some (true, peek :: rest)
    else none

/-- `next_element`. -/
def nextElement {α : Type} (first : Bool) (value : Bytes → Option (α × Bytes)) (s : Bytes) :
    Option (Option α × Bytes) :=
  match hasNextElement first s with
  | none => none
  | some (false, s) => some (none, s)
  | some (true, s) => (value s).map fun p => (some p.1, p.2)

/-- `next_value`. -/
def nextValue {α : Type} (value : Bytes → Option (α × Bytes)) (s : Bytes) :
    Option (α × Bytes) :=
  (parseObjectColon s).bind value

/-- `end_map`. -/
def endMap (s : Bytes) : Option Bytes := expectByte 0x7d s

/-- `end_seq`. -/
def endSeq (s : Bytes) : Option Bytes := expectByte 0x5d s

/-! ### What the deserializers read -/

section Deserializers

variable {step : Nat} {byte : UInt8} {s t u v : Bytes}

theorem expectByte_eq_some_iff (hbyte : ¬ IsSpace byte) :
    expectByte byte s = some t ↔ Spaces s (byte :: t) := by
  rw [← parseWhitespace_eq_cons_iff hbyte, expectByte]
  cases parseWhitespace s with
  | nil => simp
  | cons peek rest =>
    by_cases hpeek : peek = byte <;> simp [hpeek]

theorem parseObjectColon_eq_some_iff : parseObjectColon s = some t ↔ Spaces s (0x3a :: t) :=
  expectByte_eq_some_iff (by decide)

theorem endMap_eq_some_iff : endMap s = some t ↔ Spaces s (0x7d :: t) :=
  expectByte_eq_some_iff (by decide)

theorem endSeq_eq_some_iff : endSeq s = some t ↔ Spaces s (0x5d :: t) :=
  expectByte_eq_some_iff (by decide)

/-- A deserializer reads a production, behind whitespace. -/
def Deserializes {α : Type} (value : Bytes → Option (α × Bytes))
    (production : Bytes → α → Bytes → Prop) : Prop :=
  ∀ s a t, value s = some (a, t) ↔ ∃ v, Spaces s v ∧ production v a t

theorem deserializeStr_reads : Deserializes (deserializeStr step) StringLit := by
  intro s text t
  rw [deserializeStr, Option.bind_eq_some_iff]
  constructor
  · intro ⟨body, hquote, hstr⟩
    obtain ⟨hbody, hutf8⟩ := parseStr_eq_some_iff.mp hstr
    exact ⟨_, (expectByte_eq_some_iff (by decide)).mp hquote, body, rfl, hbody, hutf8⟩
  · rintro ⟨_, hspaces, body, rfl, hbody, hutf8⟩
    exact ⟨body, (expectByte_eq_some_iff (by decide)).mpr hspaces,
      parseStr_eq_some_iff.mpr ⟨hbody, hutf8⟩⟩

theorem deserializeBool_reads : Deserializes deserializeBool BoolLit := by
  intro s b t
  have hspaces := spaces_parseWhitespace s
  constructor
  · intro h
    unfold deserializeBool at h
    split at h
    next => cases h
    next peek rest hleft =>
    rw [hleft] at hspaces
    split at h
    next htrue =>
      obtain ⟨rest', hident, heq⟩ := Option.map_eq_some_iff.mp h
      cases heq
      exact ⟨_, hspaces, .inl ⟨rfl, by rw [htrue, parseIdent_eq_some_iff.mp hident]; rfl⟩⟩
    next =>
    split at h
    next hfalse =>
      obtain ⟨rest', hident, heq⟩ := Option.map_eq_some_iff.mp h
      cases heq
      exact ⟨_, hspaces, .inr ⟨rfl, by rw [hfalse, parseIdent_eq_some_iff.mp hident]; rfl⟩⟩
    next => cases h
  · rintro ⟨v, hspaces, ⟨rfl, rfl⟩ | ⟨rfl, rfl⟩⟩
    · rw [deserializeBool, (parseWhitespace_eq_cons_iff (by decide)).mpr hspaces]
      rfl
    · rw [deserializeBool, (parseWhitespace_eq_cons_iff (by decide)).mpr hspaces]
      rfl

/-- A production that begins neither with whitespace nor with the byte. -/
def BeginsApart {α : Type} (byte : UInt8) (production : Bytes → α → Bytes → Prop) : Prop :=
  ∀ v a t, production v a t → ∃ b rest, v = b :: rest ∧ ¬ IsSpace b ∧ b ≠ byte

theorem stringLit_beginsApart (hbyte : byte ≠ 0x22) : BeginsApart byte StringLit := by
  rintro v text t ⟨body, rfl, _⟩
  exact ⟨0x22, body, rfl, by decide, hbyte.symm⟩

theorem boolLit_beginsApart (htrue : byte ≠ 0x74) (hfalse : byte ≠ 0x66) :
    BeginsApart byte BoolLit := by
  rintro v b t (⟨_, rfl⟩ | ⟨_, rfl⟩)
  · exact ⟨0x74, _, rfl, by decide, htrue.symm⟩
  · exact ⟨0x66, _, rfl, by decide, hfalse.symm⟩

theorem nullable_beginsApart {α : Type} {production : Bytes → α → Bytes → Prop}
    (hbegins : BeginsApart byte production) (hnull : byte ≠ 0x6e) :
    BeginsApart byte (Nullable production) := by
  rintro v o t (⟨_, h⟩ | ⟨a, _, h⟩)
  · exact ⟨0x6e, _, h, by decide, hnull.symm⟩
  · exact hbegins v a t h

theorem deserializeOption_reads {α : Type} {value : Bytes → Option (α × Bytes)}
    {production : Bytes → α → Bytes → Prop} (hvalue : Deserializes value production)
    (hbegins : BeginsApart 0x6e production) :
    Deserializes (deserializeOption value) (Nullable production) := by
  intro s o t
  have hspaces := spaces_parseWhitespace s
  constructor
  · intro h
    unfold deserializeOption at h
    split at h
    next hleft =>
      obtain ⟨⟨a, rest⟩, hsome, heq⟩ := Option.map_eq_some_iff.mp h
      cases heq
      obtain ⟨v, hv, hproduction⟩ := (hvalue _ _ _).mp hsome
      obtain ⟨b, rest, rfl, _⟩ := hbegins v a _ hproduction
      cases hv
    next peek rest hleft =>
    rw [hleft] at hspaces
    split at h
    next hnull =>
      obtain ⟨rest', hident, heq⟩ := Option.map_eq_some_iff.mp h
      cases heq
      refine ⟨_, hspaces, .inl ⟨rfl, ?_⟩⟩
      rw [hnull, parseIdent_eq_some_iff.mp hident]
      rfl
    next =>
      obtain ⟨⟨a, rest⟩, hsome, heq⟩ := Option.map_eq_some_iff.mp h
      cases heq
      obtain ⟨v, hv, hproduction⟩ := (hvalue _ _ _).mp hsome
      exact ⟨v, spaces_trans hspaces hv, .inr ⟨a, rfl, hproduction⟩⟩
  · rintro ⟨v, hspaces, ⟨rfl, hnull⟩ | ⟨a, rfl, hproduction⟩⟩
    · rw [NullLit] at hnull
      rw [hnull] at hspaces
      rw [deserializeOption, (parseWhitespace_eq_cons_iff (by decide)).mpr hspaces]
      rfl
    · obtain ⟨b, rest, rfl, hspace, hnull⟩ := hbegins v a t hproduction
      rw [deserializeOption, (parseWhitespace_eq_cons_iff hspace).mpr hspaces]
      dsimp only
      rw [if_neg hnull, (hvalue _ _ _).mpr ⟨_, .nil _, hproduction⟩]
      rfl

theorem nextValue_eq_some_iff {α : Type} {value : Bytes → Option (α × Bytes)}
    {production : Bytes → α → Bytes → Prop} (hvalue : Deserializes value production) {a : α} :
    nextValue value s = some (a, t) ↔
      ∃ u v, Spaces s (0x3a :: u) ∧ Spaces u v ∧ production v a t := by
  rw [nextValue, Option.bind_eq_some_iff]
  constructor
  · intro ⟨u, hcolon, hsome⟩
    obtain ⟨v, hspaces, hproduction⟩ := (hvalue u a t).mp hsome
    exact ⟨u, v, parseObjectColon_eq_some_iff.mp hcolon, hspaces, hproduction⟩
  · intro ⟨u, v, hcolon, hspaces, hproduction⟩
    exact ⟨u, parseObjectColon_eq_some_iff.mpr hcolon, (hvalue u a t).mpr ⟨v, hspaces, hproduction⟩⟩

/-- What stands in front of an item of a list: nothing, or a comma. -/
def Starts (first : Bool) (s u : Bytes) : Prop := if first then u = s else Spaces s (0x2c :: u)

theorem hasNextKey_false_iff {first : Bool} :
    hasNextKey first s = some (false, v) ↔ ∃ t, v = 0x7d :: t ∧ Spaces s v := by
  have hspaces := spaces_parseWhitespace s
  constructor
  · intro h
    unfold hasNextKey at h
    split at h
    next => cases h
    next peek rest hleft =>
    rw [hleft] at hspaces
    split at h
    next hclose =>
      cases h
      exact ⟨rest, by rw [hclose], hspaces⟩
    next => grind
  · rintro ⟨t, rfl, h⟩
    rw [hasNextKey, (parseWhitespace_eq_cons_iff (by decide)).mpr h]
    rfl

theorem hasNextKey_true_iff {first : Bool} :
    hasNextKey first s = some (true, v) ↔
      ∃ body u, v = 0x22 :: body ∧ Starts first s u ∧ Spaces u v := by
  have hspaces := spaces_parseWhitespace s
  constructor
  · intro h
    unfold hasNextKey at h
    split at h
    next => cases h
    next peek rest hleft =>
    rw [hleft] at hspaces
    split at h
    next => cases h
    next =>
    split at h
    next hfirst =>
      split at h
      next hquote =>
        cases h
        exact ⟨rest, s, by rw [hquote], by rw [hfirst]; rfl, hspaces⟩
      next => cases h
    next hfirst =>
    split at h
    next hcomma =>
      rw [hcomma] at hspaces
      split at h
      next => cases h
      next peek' rest' hleft' =>
      split at h
      next hquote =>
        cases h
        refine ⟨rest', rest, by rw [hquote], ?_, ?_⟩
        · rw [Starts, if_neg hfirst]
          exact hspaces
        · rw [← hleft']
          exact spaces_parseWhitespace rest
      next => cases h
    next => cases h
  · rintro ⟨body, u, rfl, hstarts, h⟩
    cases first with
    | true =>
      cases hstarts
      rw [hasNextKey, (parseWhitespace_eq_cons_iff (by decide)).mpr h]
      rfl
    | false =>
      have hcomma : Spaces s (0x2c :: u) := hstarts
      rw [hasNextKey, (parseWhitespace_eq_cons_iff (by decide)).mpr hcomma]
      dsimp only
      rw [(parseWhitespace_eq_cons_iff (by decide)).mpr h]
      rfl

theorem nextElement_none_iff {α : Type} {value : Bytes → Option (α × Bytes)} {first : Bool} :
    nextElement first value s = some (none, v) ↔ ∃ t, v = 0x5d :: t ∧ Spaces s v := by
  have hspaces := spaces_parseWhitespace s
  constructor
  · intro h
    unfold nextElement at h
    split at h
    next => cases h
    next hnext =>
      cases h
      unfold hasNextElement at hnext
      split at hnext
      next => cases hnext
      next peek rest hleft =>
      rw [hleft] at hspaces
      split at hnext
      next hclose =>
        cases hnext
        exact ⟨rest, by rw [hclose], hspaces⟩
      next => grind
    next =>
      obtain ⟨p, _, heq⟩ := Option.map_eq_some_iff.mp h
      cases heq
  · rintro ⟨t, rfl, h⟩
    rw [nextElement, hasNextElement, (parseWhitespace_eq_cons_iff (by decide)).mpr h]
    rfl

theorem hasNextElement_true {first : Bool} (h : hasNextElement first s = some (true, v)) :
    ∃ u, Starts first s u ∧ Spaces u v := by
  have hspaces := spaces_parseWhitespace s
  unfold hasNextElement at h
  split at h
  next => cases h
  next peek rest hleft =>
  rw [hleft] at hspaces
  split at h
  next => cases h
  next =>
  split at h
  next hfirst =>
    cases h
    exact ⟨s, by rw [hfirst]; rfl, hspaces⟩
  next hfirst =>
  split at h
  next hcomma =>
    rw [hcomma] at hspaces
    split at h
    next => cases h
    next peek' rest' hleft' =>
    split at h
    next => cases h
    next =>
      cases h
      refine ⟨rest, ?_, ?_⟩
      · rw [Starts, if_neg hfirst]
        exact hspaces
      · rw [← hleft']
        exact spaces_parseWhitespace rest
  next => cases h

theorem hasNextElement_of_starts {first : Bool} {b : UInt8} {rest : Bytes} (hb : ¬ IsSpace b)
    (hclose : b ≠ 0x5d) (hstarts : Starts first s u) (hspaces : Spaces u (b :: rest)) :
    hasNextElement first s = some (true, b :: rest) := by
  cases first with
  | true =>
    cases hstarts
    rw [hasNextElement, (parseWhitespace_eq_cons_iff hb).mpr hspaces]
    dsimp only
    rw [if_neg hclose, if_pos rfl]
  | false =>
    have hcomma : Spaces s (0x2c :: u) := hstarts
    rw [hasNextElement, (parseWhitespace_eq_cons_iff (by decide)).mpr hcomma]
    dsimp only
    rw [if_neg (by decide), if_neg Bool.false_ne_true, if_pos rfl,
      (parseWhitespace_eq_cons_iff hb).mpr hspaces]
    exact if_neg hclose

theorem nextElement_some_iff {α : Type} {value : Bytes → Option (α × Bytes)}
    {production : Bytes → α → Bytes → Prop} (hvalue : Deserializes value production)
    (hbegins : BeginsApart 0x5d production) {first : Bool} {a : α} :
    nextElement first value s = some (some a, t) ↔
      ∃ u v, Starts first s u ∧ Spaces u v ∧ production v a t := by
  constructor
  · intro h
    unfold nextElement at h
    split at h
    next => cases h
    next => cases h
    next w hnext =>
      obtain ⟨p, hsome, heq⟩ := Option.map_eq_some_iff.mp h
      cases heq
      obtain ⟨u, hstarts, hspaces⟩ := hasNextElement_true hnext
      obtain ⟨v, hv, hproduction⟩ := (hvalue _ _ _).mp hsome
      exact ⟨u, v, hstarts, spaces_trans hspaces hv, hproduction⟩
  · intro ⟨u, v, hstarts, hspaces, hproduction⟩
    obtain ⟨b, rest, rfl, hb, hclose⟩ := hbegins v a t hproduction
    rw [nextElement, hasNextElement_of_starts hb hclose hstarts hspaces]
    dsimp only
    rw [(hvalue _ _ _).mpr ⟨_, .nil _, hproduction⟩]
    rfl

/-! ### Lengths -/

theorem stringLit_length {text : Bytes} (h : StringLit s text t) : t.length < s.length := by
  obtain ⟨body, rfl, hbody, _⟩ := h
  have hlength : ∀ {s v t : Bytes}, StringBody s v t → t.length < s.length := by
    intro s v t h
    induction h with
    | close => exact Nat.lt_succ_self _
    | part hpart _ ih => exact ih.trans (stringPart_length hpart)
  exact (hlength hbody).trans (Nat.lt_succ_self _)

theorem boolLit_length {b : Bool} (h : BoolLit s b t) : t.length < s.length := by
  rcases h with ⟨_, rfl⟩ | ⟨_, rfl⟩
  · simp only [List.length_cons]
    omega
  · simp only [List.length_cons]
    omega

theorem nullable_length {α : Type} {production : Bytes → α → Bytes → Prop} {value : Option α}
    (hlength : ∀ a, production s a t → t.length < s.length)
    (h : Nullable production s value t) : t.length < s.length := by
  rcases h with ⟨_, hnull⟩ | ⟨a, _, hproduction⟩
  · rw [hnull]
    simp only [List.length_cons]
    omega
  · exact hlength a hproduction

theorem starts_length {first : Bool} (h : Starts first s u) : u.length ≤ s.length := by
  cases first with
  | true => exact (congrArg List.length h).le
  | false =>
    have hcomma := spaces_length (show Spaces s (0x2c :: u) from h)
    rw [List.length_cons] at hcomma
    omega

end Deserializers

end SerdeJson

end PhiCrypto
