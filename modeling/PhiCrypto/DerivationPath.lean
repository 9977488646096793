import PhiCrypto.Decimal
import PhiCrypto.Mnemonic
import Mathlib.Data.Nat.Bitwise

/-!
# Derivation paths

`bip32::DerivationPath` and its parts. A part has several spellings: zeros and a plus sign
may stand in front, and a hardened one ends in an apostrophe or in `h`. Parsing accepts these
spellings and no other text, and reads back what `Display` writes.
-/

namespace PhiCrypto

/-- `ChildNumber`. -/
structure ChildNumber where
  number : UInt32
deriving DecidableEq, Repr

namespace ChildNumber

/-- `HARDENED_FLAG`, the highest bit. -/
def hardenedFlag : UInt32 := 0x80000000

def new (index : UInt32) (hardened : Bool) : Except Bip32Error ChildNumber :=
  if index ≥ hardenedFlag then .error .childNumber
  else if hardened then .ok ⟨index ||| hardenedFlag⟩
  else .ok ⟨index⟩

def index (n : ChildNumber) : UInt32 := n.number &&& ~~~hardenedFlag

def isHardened (n : ChildNumber) : Bool := n.number &&& hardenedFlag != 0

def toBytes (n : ChildNumber) : Bytes := beBytes 4 n.number.toNat

def apostrophe : Char := Char.ofNat 39

/-- `Display`. -/
def display (n : ChildNumber) : Str :=
  Nat.toDigits 10 n.index.toNat ++ if n.isHardened then [apostrophe] else []

end ChildNumber

/-- `u32::from_str`. -/
def parseU32 (s : Str) : Option UInt32 :=
  if s = [] ∨ s = ['+'] ∨ s = ['-'] then none
  else
    let digits := match s with
      | '+' :: rest => rest
      | _ => s
    (digits.foldlM (Decimal.step (2 ^ 32)) 0).map UInt32.ofNat

/-- `strip_suffix`, for one character. -/
def stripSuffix (c : Char) (s : Str) : Option Str :=
  if s.getLast? = some c then some s.dropLast else none

/-- A part without its mark, and whether it had one. -/
def ChildNumber.splitMark (child : Str) : Str × Bool :=
  match stripSuffix apostrophe child with
  | some c => (c, true)
  | none =>
    match stripSuffix 'h' child with
    | some c => (c, true)
    | none => (child, false)

/-- `ChildNumber::from_str`. -/
def ChildNumber.fromStr (child : Str) : Except Bip32Error ChildNumber :=
  let (child, hardened) := splitMark child
  match parseU32 child with
  | none => .error .childNumber
  | some index => ChildNumber.new index hardened

/-- `DerivationPath`. -/
structure DerivationPath where
  path : List ChildNumber
deriving DecidableEq, Repr

namespace DerivationPath

/-- `Display`. -/
def display (p : DerivationPath) : Str := 'm' :: p.path.flatMap fun n => '/' :: n.display

/-- `from_str`; splitting gives at least one part. -/
def fromStr (path : Str) : Except Bip32Error DerivationPath :=
  match path.splitOn '/' with
  | [] => .error .decode
  | first :: parts => do
    rejectIf (first ≠ ['m']) Bip32Error.decode
    let path ← parts.mapM ChildNumber.fromStr
    pure ⟨path⟩

end DerivationPath

/-! ### Child numbers -/

namespace ChildNumber

theorem toNat_index (n : ChildNumber) : n.index.toNat = n.number.toNat % 2 ^ 31 := by
  have hmask : (~~~hardenedFlag).toNat = 2 ^ 31 - 1 := by decide
  rw [index, UInt32.toNat_and, hmask, Nat.and_two_pow_sub_one_eq_mod]

theorem isHardened_eq (n : ChildNumber) : n.isHardened = decide (2 ^ 31 ≤ n.number.toNat) := by
  have hflag : hardenedFlag.toNat = 2 ^ 31 := by decide
  have hlt : n.number.toNat < 2 ^ 32 := n.number.toNat_lt
  have hbit : n.number.toNat.testBit 31 = decide (2 ^ 31 ≤ n.number.toNat) := by
    rw [Nat.testBit_eq_decide_div_mod_eq]
    apply decide_eq_decide.mpr
    omega
  rw [← hbit, Bool.eq_iff_iff, isHardened, bne_iff_ne, ne_eq, ← UInt32.toNat_inj, UInt32.toNat_and,
    hflag, UInt32.toNat_zero, Nat.and_two_pow]
  cases n.number.toNat.testBit 31 <;> simp

/-- Index and flag make up the number. -/
theorem ext_iff {n n' : ChildNumber} :
    n = n' ↔ n.index = n'.index ∧ n.isHardened = n'.isHardened := by
  constructor
  · rintro rfl
    exact ⟨rfl, rfl⟩
  · rintro ⟨hindex, hhardened⟩
    have hindex := congrArg UInt32.toNat hindex
    rw [toNat_index, toNat_index] at hindex
    rw [isHardened_eq, isHardened_eq, decide_eq_decide] at hhardened
    have hlt := n.number.toNat_lt
    have hlt' := n'.number.toNat_lt
    have hnumber : n.number.toNat = n'.number.toNat := by omega
    cases n
    cases n'
    exact congrArg ChildNumber.mk (UInt32.toNat_inj.mp hnumber)

theorem index_lt (n : ChildNumber) : n.index < hardenedFlag := by
  have hflag : hardenedFlag.toNat = 2 ^ 31 := by decide
  rw [UInt32.lt_iff_toNat_lt, toNat_index, hflag]
  exact Nat.mod_lt _ (by decide)

theorem toNat_or_hardenedFlag {i : UInt32} (hi : i < hardenedFlag) :
    (i ||| hardenedFlag).toNat = 2 ^ 31 + i.toNat := by
  have hflag : hardenedFlag.toNat = 2 ^ 31 * 1 := by decide
  have hlt : i.toNat < 2 ^ 31 := by
    rw [UInt32.lt_iff_toNat_lt, hflag] at hi
    exact hi
  rw [UInt32.toNat_or, hflag, Nat.or_comm, ← Nat.two_pow_add_eq_or_of_lt hlt, Nat.mul_one]

/-- `new` makes the child number of an index and a flag, or fails on a large index. -/
theorem new_eq_ok_iff {i : UInt32} {hardened : Bool} {n : ChildNumber} :
    new i hardened = .ok n ↔ n.index = i ∧ n.isHardened = hardened := by
  have hflag : hardenedFlag.toNat = 2 ^ 31 := by decide
  unfold new
  by_cases hi : i ≥ hardenedFlag
  · rw [if_pos hi]
    refine iff_of_false (by simp) ?_
    rintro ⟨rfl, -⟩
    exact absurd n.index_lt (UInt32.not_lt.mpr hi)
  · rw [if_neg hi]
    have hlt : i < hardenedFlag := UInt32.not_le.mp hi
    have hlt' : i.toNat < 2 ^ 31 := by
      rw [UInt32.lt_iff_toNat_lt, hflag] at hlt
      exact hlt
    have hmade (h : Bool) : (ChildNumber.mk (if h then i ||| hardenedFlag else i)).index = i ∧
        (ChildNumber.mk (if h then i ||| hardenedFlag else i)).isHardened = h := by
      rw [← UInt32.toNat_inj, toNat_index, isHardened_eq]
      cases h with
      | false =>
        simp only [Bool.false_eq_true, if_false, decide_eq_false_iff_not]
        omega
      | true =>
        simp only [if_true, toNat_or_hardenedFlag hlt, decide_eq_true_eq]
        omega
    have hnew : (if hardened then Except.ok ⟨i ||| hardenedFlag⟩ else .ok ⟨i⟩ :
        Except Bip32Error ChildNumber) = .ok ⟨if hardened then i ||| hardenedFlag else i⟩ := by
      cases hardened <;> rfl
    rw [hnew, Except.ok.injEq, eq_comm, ext_iff, (hmade hardened).1, (hmade hardened).2]

end ChildNumber

/-! ### Spellings -/

theorem sign_not_mem_digits {sign : Char} (hsign : sign.isDigit = false) (zeros n : Nat) :
    sign ∉ List.replicate zeros '0' ++ Nat.toDigits 10 n := by
  intro hmem
  rcases List.mem_append.mp hmem with hzero | hdigit
  · rw [(List.mem_replicate.mp hzero).2] at hsign
    cases hsign
  · rw [Nat.isDigit_of_mem_toDigits (by decide) (by decide) hdigit] at hsign
    cases hsign

/-- The numerals of a machine integer, without a sign. -/
theorem foldlM_step_eq_toNat_iff {s : Str} {i : UInt32} (hs : s ≠ []) :
    (s.foldlM (Decimal.step (2 ^ 32)) 0).map UInt32.ofNat = some i ↔
      ∃ zeros, s = List.replicate zeros '0' ++ Nat.toDigits 10 i.toNat := by
  rw [Option.map_eq_some_iff]
  constructor
  · rintro ⟨n, hn, rfl⟩
    obtain ⟨hlt, hdigits⟩ := (Decimal.foldlM_step_eq_some_iff hs).mp hn
    rwa [UInt32.toNat_ofNat_of_lt' hlt]
  · intro hdigits
    exact ⟨i.toNat, (Decimal.foldlM_step_eq_some_iff hs).mpr ⟨i.toNat_lt, hdigits⟩,
      UInt32.ofNat_toNat⟩

theorem parseU32_eq_some_iff {s : Str} {i : UInt32} :
    parseU32 s = some i ↔ ∃ sign ∈ ([[], ['+']] : List Str), ∃ zeros,
      s = sign ++ (List.replicate zeros '0' ++ Nat.toDigits 10 i.toNat) := by
  have hne : ∀ zeros, List.replicate zeros '0' ++ Nat.toDigits 10 i.toNat ≠ [] := by
    simp
  unfold parseU32
  constructor
  · intro h
    split at h
    · cases h
    next hs =>
    rw [not_or, not_or] at hs
    dsimp only at h
    split at h
    · next rest =>
      have hrest : rest ≠ [] := fun hnil => hs.2.1 (by rw [hnil])
      obtain ⟨zeros, hzeros⟩ := (foldlM_step_eq_toNat_iff hrest).mp h
      exact ⟨['+'], by simp, zeros, by rw [hzeros]; rfl⟩
    · obtain ⟨zeros, hzeros⟩ := (foldlM_step_eq_toNat_iff hs.1).mp h
      exact ⟨[], by simp, zeros, hzeros⟩
  · rintro ⟨sign, hsign, zeros, rfl⟩
    have hread := (foldlM_step_eq_toNat_iff (hne zeros)).mpr ⟨zeros, rfl⟩
    have hplus := sign_not_mem_digits (show '+'.isDigit = false by rfl) zeros i.toNat
    have hminus := sign_not_mem_digits (show '-'.isDigit = false by rfl) zeros i.toNat
    have hne := hne zeros
    generalize List.replicate zeros '0' ++ Nat.toDigits 10 i.toNat = digits at hread hplus hminus hne
    rcases List.mem_pair.mp hsign with rfl | rfl
    · have hs : ¬ (digits = [] ∨ digits = ['+'] ∨ digits = ['-']) := by
        rintro (rfl | rfl | rfl)
        · exact hne rfl
        · exact hplus (by simp)
        · exact hminus (by simp)
      rw [List.nil_append, if_neg hs]
      dsimp only
      split
      · exact absurd List.mem_cons_self hplus
      · exact hread
    · rw [if_neg (by simp [hne])]
      exact hread

namespace ChildNumber

theorem stripSuffix_concat (c : Char) (s : Str) : stripSuffix c (s ++ [c]) = some s := by
  simp [stripSuffix]

theorem stripSuffix_eq_some_iff {c : Char} {s body : Str} :
    stripSuffix c s = some body ↔ s = body ++ [c] := by
  constructor
  · intro h
    unfold stripSuffix at h
    split at h
    · next hlast =>
      cases h
      exact (List.dropLast_append_getLast? c hlast).symm
    · cases h
  · rintro rfl
    exact stripSuffix_concat c body

/-- A part without a mark ends in a digit. -/
theorem stripSuffix_digits {c : Char} (hc : c.isDigit = false) (sign : Str) (zeros n : Nat) :
    stripSuffix c (sign ++ (List.replicate zeros '0' ++ Nat.toDigits 10 n)) = none := by
  rw [Option.eq_none_iff_forall_ne_some]
  intro body h
  rw [stripSuffix_eq_some_iff] at h
  obtain ⟨ds, d, hds⟩ := (List.eq_nil_or_concat (Nat.toDigits 10 n)).resolve_left Nat.toDigits_ne_nil
  have hd : d ∈ Nat.toDigits 10 n := by simp [hds]
  rw [hds, List.concat_eq_append, ← List.append_assoc, ← List.append_assoc] at h
  obtain ⟨-, hlast⟩ := List.append_inj' h rfl
  cases hlast
  rw [Nat.isDigit_of_mem_toDigits (by decide) (by decide) hd] at hc
  cases hc

/-- The marks of a part. -/
def marks (hardened : Bool) : List Str := if hardened then [[apostrophe], ['h']] else [[]]

theorem splitMark_spec (child : Str) :
    ∃ mark ∈ marks (splitMark child).2, child = (splitMark child).1 ++ mark := by
  unfold splitMark
  cases hquote : stripSuffix apostrophe child with
  | some c => exact ⟨[apostrophe], by simp [marks], stripSuffix_eq_some_iff.mp hquote⟩
  | none =>
    cases hletter : stripSuffix 'h' child with
    | some c => exact ⟨['h'], by simp [marks], stripSuffix_eq_some_iff.mp hletter⟩
    | none => exact ⟨[], by simp [marks], by simp⟩

theorem splitMark_append (sign : Str) (zeros n : Nat) {hardened : Bool} {mark : Str}
    (hmark : mark ∈ marks hardened) :
    splitMark (sign ++ (List.replicate zeros '0' ++ Nat.toDigits 10 n) ++ mark)
      = (sign ++ (List.replicate zeros '0' ++ Nat.toDigits 10 n), hardened) := by
  have hquote := stripSuffix_digits (show apostrophe.isDigit = false by decide) sign zeros n
  have hletter := stripSuffix_digits (show 'h'.isDigit = false by decide) sign zeros n
  generalize sign ++ (List.replicate zeros '0' ++ Nat.toDigits 10 n) = body at hquote hletter ⊢
  unfold splitMark
  cases hardened with
  | false =>
    obtain rfl := List.mem_singleton.mp hmark
    rw [List.append_nil, hquote, hletter]
  | true =>
    rcases List.mem_pair.mp hmark with rfl | rfl
    · rw [stripSuffix_concat]
    · have hnone : stripSuffix apostrophe (body ++ ['h']) = none := by
        simp [stripSuffix, apostrophe]
      rw [hnone, stripSuffix_concat]

/-- A spelling of a part. -/
def Spelled (n : ChildNumber) (part : Str) : Prop :=
  ∃ sign ∈ ([[], ['+']] : List Str), ∃ zeros, ∃ mark ∈ marks n.isHardened,
    part = sign ++ (List.replicate zeros '0' ++ Nat.toDigits 10 n.index.toNat) ++ mark

/-- Parsing accepts the spellings of a child number and no other text. -/
theorem fromStr_eq_ok_iff {part : Str} {n : ChildNumber} :
    fromStr part = .ok n ↔ n.Spelled part := by
  unfold fromStr
  constructor
  · intro h
    obtain ⟨mark, hmark, hpart⟩ := splitMark_spec part
    generalize splitMark part = split at h hmark hpart
    obtain ⟨body, hardened⟩ := split
    dsimp only at h hmark hpart
    cases hindex : parseU32 body with
    | none => simp [hindex] at h
    | some index =>
      rw [hindex] at h
      obtain ⟨rfl, rfl⟩ := new_eq_ok_iff.mp h
      obtain ⟨sign, hsign, zeros, rfl⟩ := parseU32_eq_some_iff.mp hindex
      exact ⟨sign, hsign, zeros, mark, hmark, hpart⟩
  · rintro ⟨sign, hsign, zeros, mark, hmark, rfl⟩
    rw [splitMark_append sign zeros _ hmark]
    dsimp only
    rw [parseU32_eq_some_iff.mpr ⟨sign, hsign, zeros, rfl⟩]
    exact new_eq_ok_iff.mpr ⟨rfl, rfl⟩

/-- Every other text is refused with one error. -/
theorem fromStr_error {part : Str} {k : Bip32Error} (h : fromStr part = .error k) :
    k = .childNumber := by
  unfold fromStr at h
  generalize splitMark part = split at h
  obtain ⟨body, hardened⟩ := split
  dsimp only at h
  split at h
  · cases h
    rfl
  · unfold new at h
    split at h
    · cases h
      rfl
    · split at h <;> cases h

theorem spelled_display (n : ChildNumber) : n.Spelled n.display := by
  refine ⟨[], by simp, 0, if n.isHardened then [apostrophe] else [], ?_, by simp [display]⟩
  rw [marks]
  split <;> simp

theorem slash_not_mem_of_spelled {n : ChildNumber} {part : Str} (h : n.Spelled part) :
    '/' ∉ part := by
  obtain ⟨sign, hsign, zeros, mark, hmark, rfl⟩ := h
  intro hmem
  rw [List.mem_append, List.mem_append] at hmem
  rcases hmem with (hmem | hmem) | hmem
  · rcases List.mem_pair.mp hsign with rfl | rfl
    · cases hmem
    · simp at hmem
  · exact sign_not_mem_digits (by decide) _ _ hmem
  · rw [marks] at hmark
    split at hmark
    · rcases List.mem_pair.mp hmark with rfl | rfl
      · simp [apostrophe] at hmem
      · simp at hmem
    · rw [List.mem_singleton.mp hmark] at hmem
      cases hmem

end ChildNumber

/-! ### Paths -/

namespace DerivationPath

theorem mapM_fromStr_eq_ok_iff {parts : List Str} {path : List ChildNumber} :
    parts.mapM ChildNumber.fromStr = .ok path ↔
      List.Forall₂ (fun part n => ChildNumber.Spelled n part) parts path := by
  induction parts generalizing path with
  | nil =>
    rw [List.mapM_nil, List.forall₂_nil_left_iff]
    exact ⟨fun h => (Except.ok.inj h).symm, fun h => by rw [h]; rfl⟩
  | cons part parts ih =>
    rw [List.mapM_cons, except_bind_eq_ok_iff, List.forall₂_cons_left_iff]
    constructor
    · rintro ⟨n, hn, h⟩
      obtain ⟨rest, hrest, h⟩ := except_bind_eq_ok_iff.mp h
      cases h
      exact ⟨n, rest, ChildNumber.fromStr_eq_ok_iff.mp hn, ih.mp hrest, rfl⟩
    · rintro ⟨n, rest, hn, hrest, rfl⟩
      exact ⟨n, ChildNumber.fromStr_eq_ok_iff.mpr hn,
        except_bind_eq_ok_iff.mpr ⟨rest, ih.mpr hrest, rfl⟩⟩

theorem mapM_fromStr_error {parts : List Str} {k : Bip32Error}
    (h : parts.mapM ChildNumber.fromStr = .error k) : k = .childNumber := by
  induction parts with
  | nil => cases h
  | cons part parts ih =>
    rw [List.mapM_cons] at h
    cases hpart : ChildNumber.fromStr part with
    | error k' =>
      rw [hpart] at h
      cases h
      exact ChildNumber.fromStr_error hpart
    | ok n =>
      rw [hpart] at h
      cases hparts : parts.mapM ChildNumber.fromStr with
      | error k' =>
        rw [hparts] at h
        cases h
        exact ih hparts
      | ok rest =>
        rw [hparts] at h
        cases h

/-- The parts of a path, spelled and joined. -/
def Spelled (p : DerivationPath) (text : Str) : Prop :=
  ∃ parts, List.Forall₂ (fun part n => ChildNumber.Spelled n part) parts p.path ∧
    text = ['/'].intercalate (['m'] :: parts)

theorem slash_not_mem_parts {parts : List Str} {path : List ChildNumber}
    (h : List.Forall₂ (fun part n => ChildNumber.Spelled n part) parts path) :
    ∀ part ∈ ['m'] :: parts, '/' ∉ part := by
  rw [List.forall_mem_cons]
  refine ⟨by simp, ?_⟩
  induction h with
  | nil => simp
  | cons hpart _ ih => exact List.forall_mem_cons.mpr ⟨ChildNumber.slash_not_mem_of_spelled hpart, ih⟩

theorem fromStr_eq_ok_iff {text : Str} {p : DerivationPath} :
    fromStr text = .ok p ↔ p.Spelled text := by
  unfold fromStr
  constructor
  · intro h
    split at h
    · cases h
    next first parts hsplit =>
    obtain ⟨hfirst, h⟩ := rejectIf_bind_eq_ok_iff.mp h
    obtain ⟨path, hpath, h⟩ := except_bind_eq_ok_iff.mp h
    cases h
    refine ⟨parts, mapM_fromStr_eq_ok_iff.mp hpath, ?_⟩
    rw [← not_not.mp hfirst, ← hsplit, List.intercalate_splitOn]
  · rintro ⟨parts, hparts, rfl⟩
    rw [List.splitOn_intercalate '/' (slash_not_mem_parts hparts) (by simp)]
    exact rejectIf_bind_eq_ok_iff.mpr ⟨not_not.mpr rfl,
      except_bind_eq_ok_iff.mpr ⟨_, mapM_fromStr_eq_ok_iff.mpr hparts, rfl⟩⟩

theorem display_eq (p : DerivationPath) :
    p.display = ['/'].intercalate (['m'] :: p.path.map ChildNumber.display) := by
  obtain ⟨path⟩ := p
  rw [display]
  suffices h : ∀ head : Str, head ++ path.flatMap (fun n => '/' :: n.display)
      = ['/'].intercalate (head :: path.map ChildNumber.display) from h ['m']
  induction path with
  | nil => simp
  | cons n path ih =>
    intro head
    rw [List.map_cons, List.intercalate_cons_cons, ← ih, List.flatMap_cons]
    simp

theorem spelled_display (p : DerivationPath) : p.Spelled p.display := by
  refine ⟨p.path.map ChildNumber.display, ?_, p.display_eq⟩
  rw [List.forall₂_map_left_iff, List.forall₂_same]
  exact fun n _ => n.spelled_display

/-- **Path texts.** `parse` accepts exactly the spellings of a path and reads each as this
    path, among them what `Display` writes; any other text is refused, with `Decode` if it
    does not start with the part `m` and with `ChildNumber` if one of its parts is wrong. -/
theorem parse_accepts_spellings :
    (∀ text p, fromStr text = .ok p ↔ p.Spelled text) ∧
      (∀ p : DerivationPath, fromStr p.display = .ok p) ∧
      ∀ text k, fromStr text = .error k →
        k = if (text.splitOn '/').head? = some ['m'] then .childNumber else .decode := by
  refine ⟨fun _ _ => fromStr_eq_ok_iff, fun p => fromStr_eq_ok_iff.mpr p.spelled_display, ?_⟩
  intro text k h
  unfold fromStr at h
  split at h
  next hsplit => exact absurd hsplit (List.splitOn_ne_nil _ _)
  next first parts hsplit =>
  rw [hsplit, List.head?_cons]
  by_cases hfirst : first = ['m']
  · rw [if_pos (congrArg some hfirst)]
    rw [rejectIf, if_neg (not_not.mpr hfirst)] at h
    cases hpath : parts.mapM ChildNumber.fromStr with
    | error k' =>
      rw [hpath] at h
      cases h
      exact mapM_fromStr_error hpath
    | ok path =>
      rw [hpath] at h
      cases h
  · rw [if_neg (fun heq => hfirst (Option.some.inj heq))]
    rw [rejectIf, if_pos hfirst] at h
    cases h
    rfl

/-- Another text of the path `m/44'/118'/0'/0/0`, and a text with an index that is too large. -/
theorem pinnedPath_spelled :
    Spelled ⟨[⟨0x8000002c⟩, ⟨0x80000076⟩, ⟨0x80000000⟩, ⟨0⟩, ⟨0⟩]⟩
        (chars "m/44h/+118h/000h/0/00") ∧
      Bip32Error.childNumber
        = if ((chars "m/2147483648").splitOn '/').head? = some ['m'] then .childNumber
          else .decode :=
  ⟨(parse_accepts_spellings.1 _ _).mp (by decide +kernel),
    parse_accepts_spellings.2.2 _ _ (by decide +kernel)⟩

end DerivationPath

end PhiCrypto
