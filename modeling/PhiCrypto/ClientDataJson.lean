import PhiCrypto.JsonAccess
import PhiCrypto.WebAuthnCeremony

/-!
# The parser for `clientDataJSON`

`serde_json::from_slice` at the derived visitor of `ClientData`. The visitor keeps a value for
each field that it has met (`Visited`); a second one is an error, and an unknown field is
skipped. As every derived visitor of a structure, it takes the fields from an array, too.

What a text stands for is said twice over the grammar: by its members, each field once
(`Denotes`), or by its elements in order. The parser returns exactly that.
-/

namespace PhiCrypto

namespace ClientData

open SerdeJson Json

/-- The derived `__Field`. -/
inductive Field where
  | typ
  | challenge
  | origin
  | crossOrigin
  | topOrigin
  | ignore
deriving DecidableEq, Repr

/-- `visit_str` of the field. -/
def fieldOf (key : Bytes) : Field :=
  if key = ascii "type" then .typ
  else if key = ascii "challenge" then .challenge
  else if key = ascii "origin" then .origin
  else if key = ascii "crossOrigin" then .crossOrigin
  else if key = ascii "topOrigin" then .topOrigin
  else .ignore

/-- What `visit_map` has met so far. -/
@[ext]
structure Visited where
  typ : Option Bytes
  challenge : Option Bytes
  origin : Option Bytes
  crossOrigin : Option (Option Bool)
  topOrigin : Option (Option Bytes)

/-- The arm that is derived for a field: a second value is a `duplicate_field`. -/
def visitOnce {α : Type} (before : Option α) (value : Bytes → Option (α × Bytes))
    (store : α → Visited) (s : Bytes) : Option (Visited × Bytes) :=
  if before.isSome then none else (nextValue value s).map fun p => (store p.1, p.2)

/-- One round of the loop of `visit_map`, behind the key. -/
def visitField (step : Nat) (met : Visited) (field : Field) (s : Bytes) :
    Option (Visited × Bytes) :=
  match field with
  | .typ => visitOnce met.typ (deserializeStr step) (fun text => { met with typ := some text }) s
  | .challenge =>
    visitOnce met.challenge (deserializeStr step)
      (fun text => { met with challenge := some text }) s
  | .origin =>
    visitOnce met.origin (deserializeStr step) (fun text => { met with origin := some text }) s
  | .crossOrigin =>
    visitOnce met.crossOrigin (deserializeOption deserializeBool)
      (fun value => { met with crossOrigin := some value }) s
  | .topOrigin =>
    visitOnce met.topOrigin (deserializeOption (deserializeStr step))
      (fun value => { met with topOrigin := some value }) s
  | .ignore => (parseObjectColon s).bind fun s => (ignoreValue step s).map fun s => (met, s)

/-- The loop of `visit_map`. -/
def visitMapLoop (step : Nat) : Nat → Bool → Visited → Bytes → Option (Visited × Bytes)
  | 0, _, _, _ => none
  | fuel + 1, first, met, s =>
    match hasNextKey first s with
    | none => none
    | some (false, s) => some (met, s)
    | some (true, s) =>
      match parseStr step (s.drop 1) with
      | none => none
      | some (key, s) =>
        match visitField step met (fieldOf key) s with
        | none => none
        | some (met, s) => visitMapLoop step fuel false met s

/-- The end of `visit_map`: a field that was not met is missing, or has a default. -/
def Visited.finish (met : Visited) : Option ClientData := do
  let typ ← met.typ
  let challenge ← met.challenge
  let origin ← met.origin
  let cd : ClientData :=
    { typ, challenge, origin
      crossOrigin := met.crossOrigin.getD none
      topOrigin := met.topOrigin.getD none }
  return cd

/-- `visit_map`. -/
def visitMap (step : Nat) (s : Bytes) : Option (ClientData × Bytes) := do
  let (met, s) ← visitMapLoop step (s.length + 1) true ⟨none, none, none, none, none⟩ s
  let cd ← met.finish
  return (cd, s)

/-- `visit_seq`. -/
def visitSeq (step : Nat) (s : Bytes) : Option (ClientData × Bytes) := do
  let (typ, s) ← nextElement true (deserializeStr step) s
  let typ ← typ
  let (challenge, s) ← nextElement false (deserializeStr step) s
  let challenge ← challenge
  let (origin, s) ← nextElement false (deserializeStr step) s
  let origin ← origin
  let (crossOrigin, s) ← nextElement false (deserializeOption deserializeBool) s
  let (topOrigin, s) ← nextElement false (deserializeOption (deserializeStr step)) s
  let cd : ClientData :=
    { typ, challenge, origin
      crossOrigin := crossOrigin.getD none
      topOrigin := topOrigin.getD none }
  return (cd, s)

/-- `deserialize_struct` at the visitor. -/
def deserializeStruct (step : Nat) (s : Bytes) : Option (ClientData × Bytes) :=
  match parseWhitespace s with
  | [] => none
  | peek :: s =>
    if peek = 0x5b then do
      let (cd, s) ← visitSeq step s
      let s ← endSeq s
      return (cd, s)
    else if peek = 0x7b then do
      let (cd, s) ← visitMap step s
      let s ← endMap s
      return (cd, s)
    else none

/-- `from_slice::<ClientData>`. -/
def fromSlice (step : Nat) (s : Bytes) : Option ClientData := do
  let (cd, s) ← deserializeStruct step s
  if parseWhitespace s = [] then some cd else none

/-! ### Fields that are met once -/

/-- A place for one value takes the values of a list. -/
def Takes {α : Type} (before : Option α) (values : List α) (after : Option α) : Prop :=
  after.toList = before.toList ++ values

section Takes

variable {α : Type} {before after : Option α} {values values' : List α} {a : α}

theorem takes_nil_iff : Takes before [] after ↔ after = before := by
  rw [Takes, List.append_nil]
  cases before <;> cases after <;> simp

theorem takes_singleton_iff : Takes before [a] after ↔ before = none ∧ after = some a := by
  rw [Takes]
  cases before <;> cases after <;> simp

/-- A part of what fits into the place fits into it. -/
theorem exists_of_append {l l' : List α} {o : Option α} (h : o.toList = l ++ l') :
    ∃ m : Option α, m.toList = l := by
  have hlength := congrArg List.length h
  rw [List.length_append] at hlength
  cases l with
  | nil => exact ⟨none, rfl⟩
  | cons b l =>
    cases o with
    | none => cases h
    | some a =>
      rw [Option.length_toList, List.length_cons] at hlength
      have hnil : l = [] := List.eq_nil_of_length_eq_zero (by simp at hlength; omega)
      exact ⟨some b, by rw [hnil]; rfl⟩

theorem takes_append_iff :
    Takes before (values ++ values') after ↔
      ∃ m, Takes before values m ∧ Takes m values' after := by
  unfold Takes
  constructor
  · intro h
    rw [← List.append_assoc] at h
    obtain ⟨m, hm⟩ := exists_of_append h
    exact ⟨m, hm, by rw [hm, h]⟩
  · intro ⟨m, hm, h⟩
    rw [h, hm, List.append_assoc]

/-- From the start, an obligatory field is met once. -/
theorem takes_some_iff : Takes none values (some a) ↔ values = [a] := by
  rw [Takes, Option.toList_none, List.nil_append, Option.toList_some, eq_comm]

/-- A field that has a default is met at most once. -/
def DefaultsTo (values : List (Option α)) (value : Option α) : Prop :=
  (values = [] ∧ value = none) ∨ values = [value]

theorem defaultsTo_iff {values : List (Option α)} {value : Option α} :
    DefaultsTo values value ↔ ∃ met, Takes none values met ∧ value = met.getD none := by
  constructor
  · rintro (⟨rfl, rfl⟩ | rfl)
    · exact ⟨none, rfl, rfl⟩
    · exact ⟨some value, rfl, rfl⟩
  · rintro ⟨met, hmet, rfl⟩
    rw [Takes, Option.toList_none, List.nil_append] at hmet
    cases met with
    | none => exact .inl ⟨hmet.symm, rfl⟩
    | some value => exact .inr hmet.symm

end Takes

/-! ### What the visitor reads -/

/-- A member of the object. -/
inductive Entry where
  | typ (text : Bytes)
  | challenge (text : Bytes)
  | origin (text : Bytes)
  | crossOrigin (value : Option Bool)
  | topOrigin (value : Option Bytes)
  | other

def Entry.typ? : Entry → Option Bytes
  | .typ text => some text
  | _ => none

def Entry.challenge? : Entry → Option Bytes
  | .challenge text => some text
  | _ => none

def Entry.origin? : Entry → Option Bytes
  | .origin text => some text
  | _ => none

def Entry.crossOrigin? : Entry → Option (Option Bool)
  | .crossOrigin value => some value
  | _ => none

def Entry.topOrigin? : Entry → Option (Option Bytes)
  | .topOrigin value => some value
  | _ => none

def fieldNames : List Bytes :=
  [ascii "type", ascii "challenge", ascii "origin", ascii "crossOrigin", ascii "topOrigin"]

/-- The value of a member, by its key. -/
inductive Entry.Reads : Bytes → Bytes → Entry → Bytes → Prop where
  | typ {v text t : Bytes} : StringLit v text t → Reads (ascii "type") v (.typ text) t
  | challenge {v text t : Bytes} :
      StringLit v text t → Reads (ascii "challenge") v (.challenge text) t
  | origin {v text t : Bytes} : StringLit v text t → Reads (ascii "origin") v (.origin text) t
  | crossOrigin {v t : Bytes} {value : Option Bool} :
      Nullable BoolLit v value t → Reads (ascii "crossOrigin") v (.crossOrigin value) t
  | topOrigin {v t : Bytes} {value : Option Bytes} :
      Nullable StringLit v value t → Reads (ascii "topOrigin") v (.topOrigin value) t
  | other {key v t : Bytes} : key ∉ fieldNames → Value v t → Reads key v .other t

/-- The key of a member behind the opening quotation mark, and its value. -/
def Member (s : Bytes) (entry : Entry) (t : Bytes) : Prop :=
  ∃ key u v w x, Spaces s v ∧ StringLit v key u ∧ Spaces u (0x3a :: w) ∧ Spaces w x ∧
    Entry.Reads key x entry t

/-- The members of an object, with the closing brace. -/
inductive Entries : Bytes → List Entry → Bytes → Prop where
  | last {s w t : Bytes} {entry : Entry} :
      Member s entry w → Spaces w (0x7d :: t) → Entries s [entry] t
  | more {s w u t : Bytes} {entry : Entry} {entries : List Entry} :
      Member s entry w → Spaces w (0x2c :: u) → Entries u entries t →
      Entries s (entry :: entries) t

/-- The members of an object as a value of the structure. -/
structure Denotes (entries : List Entry) (cd : ClientData) : Prop where
  typ : entries.filterMap Entry.typ? = [cd.typ]
  challenge : entries.filterMap Entry.challenge? = [cd.challenge]
  origin : entries.filterMap Entry.origin? = [cd.origin]
  crossOrigin : DefaultsTo (entries.filterMap Entry.crossOrigin?) cd.crossOrigin
  topOrigin : DefaultsTo (entries.filterMap Entry.topOrigin?) cd.topOrigin

/-- What the loop has met behind some members. -/
structure Meets (met : Visited) (entries : List Entry) (met' : Visited) : Prop where
  typ : Takes met.typ (entries.filterMap Entry.typ?) met'.typ
  challenge : Takes met.challenge (entries.filterMap Entry.challenge?) met'.challenge
  origin : Takes met.origin (entries.filterMap Entry.origin?) met'.origin
  crossOrigin : Takes met.crossOrigin (entries.filterMap Entry.crossOrigin?) met'.crossOrigin
  topOrigin : Takes met.topOrigin (entries.filterMap Entry.topOrigin?) met'.topOrigin

section Visit

variable {step fuel : Nat} {first : Bool} {met met' : Visited} {entry : Entry}
  {entries : List Entry} {s t u v w key : Bytes} {cd : ClientData}

theorem meets_nil_iff : Meets met [] met' ↔ met' = met := by
  constructor
  · intro ⟨htyp, hchallenge, horigin, hcross, htop⟩
    simp only [List.filterMap_nil, takes_nil_iff] at htyp hchallenge horigin hcross htop
    cases met
    cases met'
    simp_all
  · rintro rfl
    constructor <;> exact takes_nil_iff.mpr rfl

theorem meets_other_iff : Meets met [.other] met' ↔ met' = met := by
  rw [← meets_nil_iff]
  constructor
  · intro h
    exact ⟨h.typ, h.challenge, h.origin, h.crossOrigin, h.topOrigin⟩
  · intro h
    exact ⟨h.typ, h.challenge, h.origin, h.crossOrigin, h.topOrigin⟩

theorem meets_cons_iff :
    Meets met (entry :: entries) met' ↔ ∃ m, Meets met [entry] m ∧ Meets m entries met' := by
  have happend : ∀ {β : Type} (f : Entry → Option β),
      (entry :: entries).filterMap f = [entry].filterMap f ++ entries.filterMap f :=
    fun f => List.filterMap_append (l := [entry])
  constructor
  · intro ⟨htyp, hchallenge, horigin, hcross, htop⟩
    rw [happend, takes_append_iff] at htyp hchallenge horigin hcross htop
    obtain ⟨typ, htyp, htyp'⟩ := htyp
    obtain ⟨challenge, hchallenge, hchallenge'⟩ := hchallenge
    obtain ⟨origin, horigin, horigin'⟩ := horigin
    obtain ⟨crossOrigin, hcross, hcross'⟩ := hcross
    obtain ⟨topOrigin, htop, htop'⟩ := htop
    exact ⟨⟨typ, challenge, origin, crossOrigin, topOrigin⟩,
      ⟨htyp, hchallenge, horigin, hcross, htop⟩, htyp', hchallenge', horigin', hcross', htop'⟩
  · intro ⟨m, h, h'⟩
    constructor
    · exact happend _ ▸ takes_append_iff.mpr ⟨m.typ, h.typ, h'.typ⟩
    · exact happend _ ▸ takes_append_iff.mpr ⟨m.challenge, h.challenge, h'.challenge⟩
    · exact happend _ ▸ takes_append_iff.mpr ⟨m.origin, h.origin, h'.origin⟩
    · exact happend _ ▸ takes_append_iff.mpr ⟨m.crossOrigin, h.crossOrigin, h'.crossOrigin⟩
    · exact happend _ ▸ takes_append_iff.mpr ⟨m.topOrigin, h.topOrigin, h'.topOrigin⟩

theorem visited_finish_iff :
    met.finish = some cd ↔
      met.typ = some cd.typ ∧ met.challenge = some cd.challenge ∧ met.origin = some cd.origin ∧
        cd.crossOrigin = met.crossOrigin.getD none ∧ cd.topOrigin = met.topOrigin.getD none := by
  rw [Visited.finish]
  simp only [Option.bind_eq_bind, Option.bind_eq_some_iff, Option.pure_def, Option.some_inj]
  constructor
  · rintro ⟨typ, htyp, challenge, hchallenge, origin, horigin, rfl⟩
    exact ⟨htyp, hchallenge, horigin, rfl, rfl⟩
  · intro ⟨htyp, hchallenge, horigin, hcross, htop⟩
    refine ⟨cd.typ, htyp, cd.challenge, hchallenge, cd.origin, horigin, ?_⟩
    rw [← hcross, ← htop]

/-- The members met from the start make up the structure. -/
theorem denotes_iff :
    Denotes entries cd ↔
      ∃ met, Meets ⟨none, none, none, none, none⟩ entries met ∧ met.finish = some cd := by
  constructor
  · intro h
    obtain ⟨crossOrigin, hcross, hcross'⟩ := defaultsTo_iff.mp h.crossOrigin
    obtain ⟨topOrigin, htop, htop'⟩ := defaultsTo_iff.mp h.topOrigin
    refine ⟨⟨some cd.typ, some cd.challenge, some cd.origin, crossOrigin, topOrigin⟩, ?_,
      visited_finish_iff.mpr ⟨rfl, rfl, rfl, hcross', htop'⟩⟩
    exact ⟨takes_some_iff.mpr h.typ, takes_some_iff.mpr h.challenge, takes_some_iff.mpr h.origin,
      hcross, htop⟩
  · intro ⟨met, hmeets, hfinish⟩
    obtain ⟨htyp, hchallenge, horigin, hcross, htop⟩ := visited_finish_iff.mp hfinish
    exact ⟨takes_some_iff.mp (htyp ▸ hmeets.typ), takes_some_iff.mp (hchallenge ▸ hmeets.challenge),
      takes_some_iff.mp (horigin ▸ hmeets.origin),
      defaultsTo_iff.mpr ⟨_, hmeets.crossOrigin, hcross⟩, defaultsTo_iff.mpr ⟨_, hmeets.topOrigin, htop⟩⟩

/-! ### The visitor -/

theorem fieldOf_ignore_iff : fieldOf key = .ignore ↔ key ∉ fieldNames := by
  unfold fieldOf fieldNames
  simp only [List.mem_cons, List.not_mem_nil, or_false, not_or]
  grind

theorem visitOnce_iff {α : Type} {value : Bytes → Option (α × Bytes)}
    {production : Bytes → α → Bytes → Prop} (hvalue : Deserializes value production)
    {before : Option α} {store : α → Visited} :
    visitOnce before value store s = some (met, t) ↔
      before = none ∧
        ∃ a u v, Spaces s (0x3a :: u) ∧ Spaces u v ∧ production v a t ∧ met = store a := by
  unfold visitOnce
  cases before with
  | some => simp
  | none =>
    rw [Option.isSome_none, if_neg Bool.false_ne_true, Option.map_eq_some_iff]
    constructor
    · rintro ⟨⟨a, t⟩, hnext, heq⟩
      cases heq
      obtain ⟨u, v, hcolon, hspaces, hproduction⟩ := (nextValue_eq_some_iff hvalue).mp hnext
      exact ⟨rfl, a, u, v, hcolon, hspaces, hproduction, rfl⟩
    · rintro ⟨_, a, u, v, hcolon, hspaces, hproduction, rfl⟩
      exact ⟨(a, t), (nextValue_eq_some_iff hvalue).mpr ⟨u, v, hcolon, hspaces, hproduction⟩, rfl⟩

/-- The value of a member, behind its key. -/
def Entry.Follows (key s : Bytes) (entry : Entry) (t : Bytes) : Prop :=
  ∃ u v, Spaces s (0x3a :: u) ∧ Spaces u v ∧ Entry.Reads key v entry t

theorem visitField_sound (h : visitField step met (fieldOf key) s = some (met', t)) :
    ∃ entry, Entry.Follows key s entry t ∧ Meets met [entry] met' := by
  have hsame : ∀ {α : Type} {o : Option α}, Takes o [] o := takes_nil_iff.mpr rfl
  generalize hfield : fieldOf key = field at h
  unfold visitField at h
  cases field with
  | typ =>
    have hkey : key = ascii "type" := by unfold fieldOf at hfield; grind
    obtain ⟨hnone, text, u, v, hcolon, hspaces, hread, rfl⟩ :=
      (visitOnce_iff deserializeStr_reads).mp h
    exact ⟨.typ text, ⟨u, v, hcolon, hspaces, hkey ▸ .typ hread⟩,
      takes_singleton_iff.mpr ⟨hnone, rfl⟩, hsame, hsame, hsame, hsame⟩
  | challenge =>
    have hkey : key = ascii "challenge" := by unfold fieldOf at hfield; grind
    obtain ⟨hnone, text, u, v, hcolon, hspaces, hread, rfl⟩ :=
      (visitOnce_iff deserializeStr_reads).mp h
    exact ⟨.challenge text, ⟨u, v, hcolon, hspaces, hkey ▸ .challenge hread⟩, hsame,
      takes_singleton_iff.mpr ⟨hnone, rfl⟩, hsame, hsame, hsame⟩
  | origin =>
    have hkey : key = ascii "origin" := by unfold fieldOf at hfield; grind
    obtain ⟨hnone, text, u, v, hcolon, hspaces, hread, rfl⟩ :=
      (visitOnce_iff deserializeStr_reads).mp h
    exact ⟨.origin text, ⟨u, v, hcolon, hspaces, hkey ▸ .origin hread⟩, hsame, hsame,
      takes_singleton_iff.mpr ⟨hnone, rfl⟩, hsame, hsame⟩
  | crossOrigin =>
    have hkey : key = ascii "crossOrigin" := by unfold fieldOf at hfield; grind
    obtain ⟨hnone, value, u, v, hcolon, hspaces, hread, rfl⟩ :=
      (visitOnce_iff (deserializeOption_reads deserializeBool_reads
        (boolLit_beginsApart (by decide) (by decide)))).mp h
    exact ⟨.crossOrigin value, ⟨u, v, hcolon, hspaces, hkey ▸ .crossOrigin hread⟩, hsame, hsame,
      hsame, takes_singleton_iff.mpr ⟨hnone, rfl⟩, hsame⟩
  | topOrigin =>
    have hkey : key = ascii "topOrigin" := by unfold fieldOf at hfield; grind
    obtain ⟨hnone, value, u, v, hcolon, hspaces, hread, rfl⟩ :=
      (visitOnce_iff (deserializeOption_reads deserializeStr_reads
        (stringLit_beginsApart (by decide)))).mp h
    exact ⟨.topOrigin value, ⟨u, v, hcolon, hspaces, hkey ▸ .topOrigin hread⟩, hsame, hsame,
      hsame, hsame, takes_singleton_iff.mpr ⟨hnone, rfl⟩⟩
  | ignore =>
    obtain ⟨u, hcolon, hskip⟩ := Option.bind_eq_some_iff.mp h
    obtain ⟨rest, hskip, heq⟩ := Option.map_eq_some_iff.mp hskip
    cases heq
    obtain ⟨v, hspaces, hvalue⟩ := ignoreValue_sound hskip
    exact ⟨.other, ⟨u, v, parseObjectColon_eq_some_iff.mp hcolon, hspaces,
      .other (fieldOf_ignore_iff.mp hfield) hvalue⟩, meets_other_iff.mpr rfl⟩

theorem visitField_complete (hfollows : Entry.Follows key s entry t)
    (hmeets : Meets met [entry] met') (ht : EndsNumber t) :
    visitField step met (fieldOf key) s = some (met', t) := by
  obtain ⟨u, v, hcolon, hspaces, hread⟩ := hfollows
  cases hread with
  | typ hread =>
    have hkey : fieldOf (ascii "type") = .typ := by decide
    obtain ⟨hnone, hsome⟩ := takes_singleton_iff.mp hmeets.typ
    rw [hkey, visitField]
    exact (visitOnce_iff deserializeStr_reads).mpr ⟨hnone, _, u, v, hcolon, hspaces, hread,
      Visited.ext hsome (takes_nil_iff.mp hmeets.challenge) (takes_nil_iff.mp hmeets.origin)
        (takes_nil_iff.mp hmeets.crossOrigin) (takes_nil_iff.mp hmeets.topOrigin)⟩
  | challenge hread =>
    have hkey : fieldOf (ascii "challenge") = .challenge := by decide
    obtain ⟨hnone, hsome⟩ := takes_singleton_iff.mp hmeets.challenge
    rw [hkey, visitField]
    exact (visitOnce_iff deserializeStr_reads).mpr ⟨hnone, _, u, v, hcolon, hspaces, hread,
      Visited.ext (takes_nil_iff.mp hmeets.typ) hsome (takes_nil_iff.mp hmeets.origin)
        (takes_nil_iff.mp hmeets.crossOrigin) (takes_nil_iff.mp hmeets.topOrigin)⟩
  | origin hread =>
    have hkey : fieldOf (ascii "origin") = .origin := by decide
    obtain ⟨hnone, hsome⟩ := takes_singleton_iff.mp hmeets.origin
    rw [hkey, visitField]
    exact (visitOnce_iff deserializeStr_reads).mpr ⟨hnone, _, u, v, hcolon, hspaces, hread,
      Visited.ext (takes_nil_iff.mp hmeets.typ) (takes_nil_iff.mp hmeets.challenge) hsome
        (takes_nil_iff.mp hmeets.crossOrigin) (takes_nil_iff.mp hmeets.topOrigin)⟩
  | crossOrigin hread =>
    have hkey : fieldOf (ascii "crossOrigin") = .crossOrigin := by decide
    obtain ⟨hnone, hsome⟩ := takes_singleton_iff.mp hmeets.crossOrigin
    rw [hkey, visitField]
    exact (visitOnce_iff (deserializeOption_reads deserializeBool_reads
      (boolLit_beginsApart (by decide) (by decide)))).mpr
        ⟨hnone, _, u, v, hcolon, hspaces, hread,
          Visited.ext (takes_nil_iff.mp hmeets.typ) (takes_nil_iff.mp hmeets.challenge)
            (takes_nil_iff.mp hmeets.origin) hsome (takes_nil_iff.mp hmeets.topOrigin)⟩
  | topOrigin hread =>
    have hkey : fieldOf (ascii "topOrigin") = .topOrigin := by decide
    obtain ⟨hnone, hsome⟩ := takes_singleton_iff.mp hmeets.topOrigin
    rw [hkey, visitField]
    exact (visitOnce_iff (deserializeOption_reads deserializeStr_reads
      (stringLit_beginsApart (by decide)))).mpr
        ⟨hnone, _, u, v, hcolon, hspaces, hread,
          Visited.ext (takes_nil_iff.mp hmeets.typ) (takes_nil_iff.mp hmeets.challenge)
            (takes_nil_iff.mp hmeets.origin) (takes_nil_iff.mp hmeets.crossOrigin) hsome⟩
  | other hkey hvalue =>
    rw [fieldOf_ignore_iff.mpr hkey, visitField, parseObjectColon_eq_some_iff.mpr hcolon,
      Option.bind_some, ignoreValue_complete hspaces hvalue ht, meets_other_iff.mp hmeets]
    rfl

/-- What is left of an object: its brace, or more members. -/
def Left (first : Bool) (s : Bytes) (entries : List Entry) (t : Bytes) : Prop :=
  (entries = [] ∧ Spaces s (0x7d :: t)) ∨ ∃ u, Starts first s u ∧ Entries u entries t

theorem entries_iff :
    Entries s entries t ↔
      ∃ entry rest w, entries = entry :: rest ∧ Member s entry w ∧ Left false w rest t := by
  constructor
  · intro h
    cases h with
    | last hmember hclose => exact ⟨_, [], _, rfl, hmember, .inl ⟨rfl, hclose⟩⟩
    | more hmember hcomma hentries =>
      exact ⟨_, _, _, rfl, hmember, .inr ⟨_, hcomma, hentries⟩⟩
  · rintro ⟨entry, rest, w, rfl, hmember, ⟨rfl, hclose⟩ | ⟨u, hcomma, hentries⟩⟩
    · exact .last hmember hclose
    · exact .more hmember hcomma hentries

theorem visitMapLoop_sound (h : visitMapLoop step fuel first met s = some (met', v))
    (hend : endMap v = some t) : ∃ entries, Left first s entries t ∧ Meets met entries met' := by
  induction fuel generalizing first met s with
  | zero => cases h
  | succ fuel ih =>
    unfold visitMapLoop at h
    split at h
    next => cases h
    next hnext =>
      cases h
      obtain ⟨_, _, hspaces⟩ := hasNextKey_false_iff.mp hnext
      exact ⟨[], .inl ⟨rfl, spaces_trans hspaces (endMap_eq_some_iff.mp hend)⟩,
        meets_nil_iff.mpr rfl⟩
    next q hnext =>
    obtain ⟨body, u, rfl, hstarts, hspaces⟩ := hasNextKey_true_iff.mp hnext
    split at h
    next => cases h
    next key w hkey =>
    obtain ⟨hbody, hutf8⟩ := parseStr_eq_some_iff.mp hkey
    split at h
    next => cases h
    next met1 x hfield =>
    obtain ⟨entry, ⟨y, z, hcolon, hvalue, hread⟩, hmeets⟩ := visitField_sound hfield
    obtain ⟨entries, hleft, hrest⟩ := ih h
    refine ⟨entry :: entries, .inr ⟨u, hstarts, entries_iff.mpr ?_⟩,
      meets_cons_iff.mpr ⟨met1, hmeets, hrest⟩⟩
    exact ⟨entry, entries, x, rfl,
      ⟨key, w, _, y, z, hspaces, ⟨body, rfl, hbody, hutf8⟩, hcolon, hvalue, hread⟩, hleft⟩

theorem reads_length (h : Entry.Reads key s entry t) : t.length < s.length := by
  cases h with
  | typ h | challenge h | origin h => exact stringLit_length h
  | crossOrigin h => exact nullable_length (fun _ => boolLit_length) h
  | topOrigin h => exact nullable_length (fun _ => stringLit_length) h
  | other _ h => exact value_length h

theorem member_length (h : Member s entry t) : t.length < s.length := by
  obtain ⟨key, u, v, w, x, hspaces, hkey, hcolon, hvalue, hread⟩ := h
  have hspaces := spaces_length hspaces
  have hkey := stringLit_length hkey
  have hcolon := spaces_length hcolon
  have hvalue := spaces_length hvalue
  have hread := reads_length hread
  rw [List.length_cons] at hcolon
  omega

/-- Behind a member no number goes on. -/
theorem endsNumber_of_left (h : Left false s entries t) : EndsNumber s := by
  rcases h with ⟨_, hclose⟩ | ⟨u, hcomma, _⟩
  · exact endsNumber_of_spaces (by decide) hclose
  · exact endsNumber_of_spaces (show (0x2c : UInt8) = 0x2c ∨ _ from .inl rfl) hcomma

theorem visitMapLoop_complete (hfuel : s.length < fuel) (hleft : Left first s entries t)
    (hmeets : Meets met entries met') :
    ∃ v, visitMapLoop step fuel first met s = some (met', v) ∧ endMap v = some t := by
  induction fuel generalizing first met s entries with
  | zero => cases hfuel
  | succ fuel ih =>
    rcases hleft with ⟨rfl, hclose⟩ | ⟨u, hstarts, hentries⟩
    · refine ⟨0x7d :: t, ?_, endMap_eq_some_iff.mpr (.nil _)⟩
      rw [visitMapLoop, hasNextKey_false_iff.mpr ⟨t, rfl, hclose⟩, meets_nil_iff.mp hmeets]
    · obtain ⟨entry, rest, w, rfl, hmember, hleft⟩ := entries_iff.mp hentries
      have hlength : w.length < s.length := (member_length hmember).trans_le (starts_length hstarts)
      obtain ⟨key, x, _, y, z, hspaces, ⟨body, rfl, hbody, hutf8⟩, hcolon, hvalue, hread⟩ := hmember
      obtain ⟨met1, hmeets, hrest⟩ := meets_cons_iff.mp hmeets
      rw [visitMapLoop, hasNextKey_true_iff.mpr ⟨body, u, rfl, hstarts, hspaces⟩]
      dsimp only
      rw [List.drop_succ_cons, List.drop_zero, parseStr_eq_some_iff.mpr ⟨hbody, hutf8⟩]
      dsimp only
      rw [visitField_complete ⟨y, z, hcolon, hvalue, hread⟩ hmeets (endsNumber_of_left hleft)]
      exact ih (by omega) hleft hrest

/-- The object form: what the members denote. -/
theorem visitMap_iff :
    (∃ v, visitMap step s = some (cd, v) ∧ endMap v = some t) ↔
      ∃ entries, Entries s entries t ∧ Denotes entries cd := by
  constructor
  · intro ⟨v, h, hend⟩
    simp only [visitMap, Option.bind_eq_bind, Option.bind_eq_some_iff, Prod.exists,
      Option.pure_def, Option.some_inj, Prod.mk.injEq] at h
    obtain ⟨met, _, hloop, _, hfinish, rfl, rfl⟩ := h
    obtain ⟨entries, hleft, hmeets⟩ := visitMapLoop_sound hloop hend
    have hdenotes : Denotes entries _ := denotes_iff.mpr ⟨met, hmeets, hfinish⟩
    rcases hleft with ⟨rfl, _⟩ | ⟨u, hstarts, hentries⟩
    · cases hdenotes.typ
    · cases hstarts
      exact ⟨entries, hentries, hdenotes⟩
  · intro ⟨entries, hentries, hdenotes⟩
    obtain ⟨met, hmeets, hfinish⟩ := denotes_iff.mp hdenotes
    obtain ⟨v, hloop, hend⟩ := @visitMapLoop_complete step _ _ _ _ _ _ _ (Nat.lt_succ_self s.length)
      (.inr ⟨s, show Starts true s s from rfl, hentries⟩) hmeets
    refine ⟨v, ?_, hend⟩
    simp only [visitMap, Option.bind_eq_bind, Option.bind_eq_some_iff, Prod.exists,
      Option.pure_def, Option.some_inj, Prod.mk.injEq]
    exact ⟨met, v, hloop, cd, hfinish, rfl, rfl⟩

/-- The next element of an array. -/
def Element {α : Type} (production : Bytes → α → Bytes → Prop) (first : Bool) (s : Bytes) (a : α)
    (t : Bytes) : Prop :=
  ∃ u v, Starts first s u ∧ Spaces u v ∧ production v a t

/-- An element that may be missing where the array ends. -/
def Trailing {α : Type} (production : Bytes → Option α → Bytes → Prop) (s : Bytes)
    (value : Option α) (t : Bytes) : Prop :=
  Element production false s value t ∨
    (value = none ∧ Spaces s t ∧ ∃ u, t = 0x5d :: u)

/-- The array form: the fields in their order, with the closing bracket. -/
def Elements (s : Bytes) (cd : ClientData) (t : Bytes) : Prop :=
  ∃ u v w x y, Element StringLit true s cd.typ u ∧ Element StringLit false u cd.challenge v ∧
    Element StringLit false v cd.origin w ∧ Trailing (Nullable BoolLit) w cd.crossOrigin x ∧
    Trailing (Nullable StringLit) x cd.topOrigin y ∧ Spaces y (0x5d :: t)

theorem trailing_iff {α : Type} {value : Bytes → Option (Option α × Bytes)}
    {production : Bytes → Option α → Bytes → Prop} (hvalue : Deserializes value production)
    (hbegins : BeginsApart 0x5d production) {o : Option α} :
    Trailing production s o t ↔
      ∃ found, nextElement false value s = some (found, t) ∧ o = found.getD none := by
  constructor
  · rintro (helement | ⟨rfl, hspaces, u, rfl⟩)
    · exact ⟨some o, (nextElement_some_iff hvalue hbegins).mpr helement, rfl⟩
    · exact ⟨none, nextElement_none_iff.mpr ⟨u, rfl, hspaces⟩, rfl⟩
  · rintro ⟨found, hnext, rfl⟩
    cases found with
    | none =>
      obtain ⟨u, hu, hspaces⟩ := nextElement_none_iff.mp hnext
      exact .inr ⟨rfl, hspaces, u, hu⟩
    | some a => exact .inl ((nextElement_some_iff hvalue hbegins).mp hnext)

theorem visitSeq_iff :
    (∃ v, visitSeq step s = some (cd, v) ∧ endSeq v = some t) ↔ Elements s cd t := by
  have hstr : ∀ {first : Bool} {s text t : Bytes},
      nextElement first (deserializeStr step) s = some (some text, t) ↔
        Element StringLit first s text t :=
    nextElement_some_iff deserializeStr_reads (stringLit_beginsApart (by decide))
  have hcross : ∀ {s t : Bytes} {o : Option Bool}, Trailing (Nullable BoolLit) s o t ↔
      ∃ found, nextElement false (deserializeOption deserializeBool) s = some (found, t) ∧
        o = found.getD none :=
    trailing_iff
      (deserializeOption_reads deserializeBool_reads (boolLit_beginsApart (by decide) (by decide)))
      (nullable_beginsApart (boolLit_beginsApart (by decide) (by decide)) (by decide))
  have htop : ∀ {s t : Bytes} {o : Option Bytes}, Trailing (Nullable StringLit) s o t ↔
      ∃ found, nextElement false (deserializeOption (deserializeStr step)) s = some (found, t) ∧
        o = found.getD none :=
    trailing_iff
      (deserializeOption_reads deserializeStr_reads (stringLit_beginsApart (by decide)))
      (nullable_beginsApart (stringLit_beginsApart (by decide)) (by decide))
  unfold Elements
  simp only [visitSeq, Option.bind_eq_bind, Option.bind_eq_some_iff, Prod.exists, Option.pure_def,
    Option.some_inj, Prod.mk.injEq, ← hstr, hcross, htop]
  constructor
  · rintro ⟨_, ⟨typ, u, htyp, _, rfl, challenge, v, hchallenge, _, rfl, origin, w, horigin, _, rfl,
      crossOrigin, x, hcross, topOrigin, y, htop, rfl, rfl⟩, hend⟩
    exact ⟨u, v, w, x, y, htyp, hchallenge, horigin, ⟨_, hcross, rfl⟩, ⟨_, htop, rfl⟩,
      endSeq_eq_some_iff.mp hend⟩
  · rintro ⟨u, v, w, x, y, htyp, hchallenge, horigin, ⟨crossOrigin, hcross, hc⟩,
      ⟨topOrigin, htop, ht⟩, hend⟩
    refine ⟨y, ⟨_, u, htyp, _, rfl, _, v, hchallenge, _, rfl, _, w, horigin, _, rfl, _, x, hcross,
      _, y, htop, ?_, rfl⟩, endSeq_eq_some_iff.mpr hend⟩
    rw [← hc, ← ht]

/-- A text and the value that it stands for, in the object form or in the array form. -/
def Text (s : Bytes) (cd : ClientData) : Prop :=
  ∃ t, Spaces t [] ∧
    ((∃ u entries, Spaces s (0x7b :: u) ∧ Entries u entries t ∧ Denotes entries cd) ∨
      ∃ u, Spaces s (0x5b :: u) ∧ Elements u cd t)

theorem deserializeStruct_iff :
    deserializeStruct step s = some (cd, t) ↔
      (∃ u entries, Spaces s (0x7b :: u) ∧ Entries u entries t ∧ Denotes entries cd) ∨
        ∃ u, Spaces s (0x5b :: u) ∧ Elements u cd t := by
  have hseq : ∀ {u : Bytes}, ((visitSeq step u).bind fun p => (endSeq p.2).bind fun s =>
      some (p.1, s)) = some (cd, t) ↔ Elements u cd t := by
    intro u
    rw [← @visitSeq_iff step]
    simp [Option.bind_eq_some_iff]
  have hmap : ∀ {u : Bytes}, ((visitMap step u).bind fun p => (endMap p.2).bind fun s =>
      some (p.1, s)) = some (cd, t) ↔ ∃ entries, Entries u entries t ∧ Denotes entries cd := by
    intro u
    rw [← @visitMap_iff step]
    simp [Option.bind_eq_some_iff]
  have hspaces := spaces_parseWhitespace s
  constructor
  · intro h
    unfold deserializeStruct at h
    split at h
    next => cases h
    next peek rest hleft =>
    rw [hleft] at hspaces
    split at h
    next harray =>
      rw [harray] at hspaces
      exact .inr ⟨rest, hspaces, hseq.mp h⟩
    next =>
    split at h
    next hobject =>
      rw [hobject] at hspaces
      obtain ⟨entries, hentries⟩ := hmap.mp h
      exact .inl ⟨rest, entries, hspaces, hentries⟩
    next => cases h
  · rintro (⟨u, entries, hopen, hentries⟩ | ⟨u, hopen, helements⟩)
    · rw [deserializeStruct, (parseWhitespace_eq_cons_iff (by decide)).mpr hopen]
      exact hmap.mpr ⟨entries, hentries⟩
    · rw [deserializeStruct, (parseWhitespace_eq_cons_iff (by decide)).mpr hopen]
      exact hseq.mpr helements

theorem fromSlice_eq_some_iff : fromSlice step s = some cd ↔ Text s cd := by
  have hend : ∀ {t : Bytes}, parseWhitespace t = [] ↔ Spaces t [] := by
    intro t
    constructor
    · intro h
      rw [← h]
      exact spaces_parseWhitespace t
    · intro h
      exact parseWhitespace_eq h (by simp [NoSpace])
  simp only [fromSlice, Option.bind_eq_bind, Option.bind_eq_some_iff, Prod.exists, Text,
    ← @deserializeStruct_iff step, ← hend]
  constructor
  · rintro ⟨cd', t, h, hif⟩
    split at hif
    next hspaces =>
      cases hif
      exact ⟨t, hspaces, h⟩
    next => cases hif
  · rintro ⟨t, hspaces, h⟩
    exact ⟨cd, t, h, if_pos hspaces⟩

/-! ### Such a text is JSON -/

theorem value_of_stringLit {text : Bytes} (h : StringLit s text t) : Value s t := by
  obtain ⟨body, rfl, hbody, _⟩ := h
  exact .string (skippedBody_of_stringBody hbody)

theorem value_of_nullable {α : Type} {production : Bytes → α → Bytes → Prop} {value : Option α}
    (hvalue : ∀ a, production s a t → Value s t) (h : Nullable production s value t) :
    Value s t := by
  rcases h with ⟨_, hnull⟩ | ⟨a, _, hproduction⟩
  · exact .nullLit hnull
  · exact hvalue a hproduction

theorem value_of_reads (h : Entry.Reads key s entry t) : Value s t := by
  cases h with
  | typ h | challenge h | origin h => exact value_of_stringLit h
  | crossOrigin h => exact value_of_nullable (fun _ => .boolLit) h
  | topOrigin h => exact value_of_nullable (fun _ => value_of_stringLit) h
  | other _ h => exact h

theorem skippedKey_of_member (h : Member s entry t) : ∃ v, SkippedKey s v ∧ Value v t := by
  obtain ⟨key, u, _, w, x, hspaces, ⟨body, rfl, hbody, _⟩, hcolon, hvalue, hread⟩ := h
  exact ⟨x, ⟨body, u, w, hspaces, skippedBody_of_stringBody hbody, hcolon, hvalue⟩,
    value_of_reads hread⟩

theorem members_of_entries (h : Entries s entries t) : Members s t := by
  induction h with
  | last hmember hclose =>
    obtain ⟨v, hkey, hvalue⟩ := skippedKey_of_member hmember
    exact .last hkey hvalue hclose
  | more hmember hcomma _ ih =>
    obtain ⟨v, hkey, hvalue⟩ := skippedKey_of_member hmember
    exact .more hkey hvalue hcomma ih

theorem rest_of_spaces {frame : Frame} (hspaces : Spaces s u) (h : frame.Rest u t) :
    frame.Rest s t := by
  rcases h with hclose | ⟨v, hcomma, hitems⟩
  · exact .inl (spaces_trans hspaces hclose)
  · exact .inr ⟨v, spaces_trans hspaces hcomma, hitems⟩

theorem rest_of_element {α : Type} {production : Bytes → α → Bytes → Prop} {a : α}
    (hvalue : ∀ {v a t}, production v a t → Value v t) (h : Element production false s a w)
    (hrest : Frame.array.Rest w t) : Frame.array.Rest s t := by
  obtain ⟨u, v, hcomma, hspaces, hproduction⟩ := h
  exact .inr ⟨u, hcomma, items_iff.mpr ⟨v, w, hspaces, hvalue hproduction, hrest⟩⟩

theorem rest_of_trailing {α : Type} {production : Bytes → Option α → Bytes → Prop}
    {value : Option α} (hvalue : ∀ {v o t}, production v o t → Value v t)
    (h : Trailing production s value w) (hrest : Frame.array.Rest w t) :
    Frame.array.Rest s t := by
  rcases h with helement | ⟨_, hspaces, _⟩
  · exact rest_of_element hvalue helement hrest
  · exact rest_of_spaces hspaces hrest

theorem array_of_elements (h : Elements s cd t) : Json.Elements s t := by
  obtain ⟨u, v, w, x, y, hfirst, hchallenge, horigin, hcross, htop, hclose⟩ := h
  obtain ⟨_, z, hstart, hspaces, htyp⟩ := hfirst
  cases hstart
  refine (@items_iff .array _ _).mpr ⟨z, u, hspaces, value_of_stringLit htyp, ?_⟩
  refine rest_of_element value_of_stringLit hchallenge ?_
  refine rest_of_element value_of_stringLit horigin ?_
  refine rest_of_trailing (value_of_nullable fun _ => .boolLit) hcross ?_
  exact rest_of_trailing (value_of_nullable fun _ => value_of_stringLit) htop (.inl hclose)

/-- What is accepted is one JSON value. -/
theorem value_of_text (h : Text s cd) : ∃ v t, Spaces s v ∧ Value v t ∧ Spaces t [] := by
  obtain ⟨t, hend, ⟨u, entries, hopen, hentries, _⟩ | ⟨u, hopen, helements⟩⟩ := h
  · exact ⟨_, t, hopen, .object (members_of_entries hentries), hend⟩
  · exact ⟨_, t, hopen, .array (array_of_elements helements), hend⟩

/-- Whitespace continues no number. -/
theorem endsNumber_of_end (h : Spaces s []) : EndsNumber s := by
  have hspace : ∀ b : UInt8, IsSpace b → ¬ IsDigit b ∧ b ≠ 0x2e ∧ ¬ (b = 0x65 ∨ b = 0x45) :=
    forall_byte (by decide +kernel)
  intro b hb
  cases h with
  | nil => cases hb
  | cons hfirst =>
    cases hb
    exact hspace _ hfirst

end Visit

/-- **Client data texts.** `from_slice` returns a value exactly for the texts that stand for
    it: an object in which each obligatory field occurs once and each other one at most
    once, or the fields in an array. Such a text is one JSON value, which `ignore_value`
    skips to its end. -/
theorem client_data_texts (step : Nat) (s : Bytes) (cd : ClientData) :
    (fromSlice step s = some cd ↔ Text s cd) ∧
      (fromSlice step s = some cd → ∃ r, ignoreValue step s = some r ∧ Spaces r []) := by
  refine ⟨fromSlice_eq_some_iff, ?_⟩
  intro h
  obtain ⟨v, r, hspaces, hvalue, hend⟩ := value_of_text (fromSlice_eq_some_iff.mp h)
  exact ⟨r, ignoreValue_complete hspaces hvalue (endsNumber_of_end hend), hend⟩

end ClientData

end PhiCrypto
