import Mathlib.Data.List.Forall2
import Quartz.Format.ObjectId

/-! The text form of object ids. The printer leaves the separators where it skips a place; the parser
skips every hyphen and counts the digits, which leaves no room for a hyphen elsewhere. -/

namespace Quartz.Format.ObjectId

section Weaving

/-- Puts a hyphen at each separator and the digits, in order, at the other places. -/
def weave : List Bool → List Char → List Char
  | [], _ => []
  | true :: flags, digits => '-' :: weave flags digits
  | false :: flags, digit :: digits => digit :: weave flags digits
  | false :: _, [] => []

def digits (text : List Char) : List Char := text.filter (· ≠ '-')

variable {flags : List Bool} {text : List Char}

/-- The hyphens of the text are just its separators. -/
def Separated (flags : List Bool) (text : List Char) : Prop :=
  List.Forall₂ (fun separator c => c = '-' ↔ separator = true) flags text

theorem digits_hyphen (text : List Char) : digits ('-' :: text) = digits text := List.filter_cons_of_neg (by decide)

theorem digits_cons {c : Char} (digit : c ≠ '-') (text : List Char) : digits (c :: text) = c :: digits text :=
  List.filter_cons_of_pos (by simpa using digit)

theorem Separated.weave_digits (separated : Separated flags text) : weave flags (digits text) = text := by
  induction separated with
  | nil => rfl
  | @cons separator c flags text here _ ih =>
    cases separator with
    | true =>
      obtain rfl := here.mpr rfl
      rw [digits_hyphen, weave, ih]
    | false =>
      rw [digits_cons fun hyphen => Bool.false_ne_true (here.mp hyphen), weave, ih]

theorem Separated.digits_length (separated : Separated flags text) : (digits text).length = flags.count false := by
  induction separated with
  | nil => rfl
  | @cons separator c flags text here _ ih =>
    cases separator with
    | true =>
      obtain rfl := here.mpr rfl
      rw [digits_hyphen, ih, List.count_cons_of_ne (by decide)]
    | false =>
      rw [digits_cons fun hyphen => Bool.false_ne_true (here.mp hyphen), List.length_cons, ih, List.count_cons_self]

theorem separated_of_digits (hyphens : List.Forall₂ (fun separator c => separator = true → c = '-') flags text) :
    (digits text).length ≤ flags.count false ∧ ((digits text).length = flags.count false → Separated flags text) := by
  induction hyphens with
  | nil => exact ⟨Nat.le_refl _, fun _ => .nil⟩
  | @cons separator c flags text here _ ih =>
    obtain ⟨most, separated⟩ := ih
    cases separator with
    | true =>
      obtain rfl := here rfl
      rw [digits_hyphen, List.count_cons_of_ne (by decide)]
      exact ⟨most, fun all => .cons (iff_of_true rfl rfl) (separated all)⟩
    | false =>
      rw [List.count_cons_self]
      by_cases hyphen : c = '-'
      · rw [hyphen, digits_hyphen]
        exact ⟨by omega, fun all => by omega⟩
      · rw [digits_cons hyphen, List.length_cons]
        exact ⟨by omega, fun all => .cons (iff_of_false hyphen Bool.false_ne_true) (separated (by omega))⟩

theorem weave_separated {woven : List Char} (none : ∀ c ∈ woven, c ≠ '-') (all : woven.length = flags.count false) :
    digits (weave flags woven) = woven ∧ Separated flags (weave flags woven) := by
  induction flags generalizing woven with
  | nil => exact ⟨(List.eq_nil_of_length_eq_zero all).symm, .nil⟩
  | cons separator flags ih =>
    cases separator with
    | true =>
      obtain ⟨same, separated⟩ := ih none (by rwa [List.count_cons_of_ne (by decide)] at all)
      exact ⟨by rw [weave, digits_hyphen, same], .cons (iff_of_true rfl rfl) separated⟩
    | false =>
      rw [List.count_cons_self] at all
      cases woven with
      | nil => cases all
      | cons digit rest =>
        have digits := none digit List.mem_cons_self
        obtain ⟨same, separated⟩ := ih (fun c member => none c (List.mem_cons_of_mem _ member)) (by simpa using all)
        exact ⟨by rw [weave, digits_cons digits, same], .cons (iff_of_false digits Bool.false_ne_true) separated⟩

theorem weave_map {woven : List Char} (change : Char → Char) (kept : change '-' = '-') :
    (weave flags woven).map change = weave flags (woven.map change) := by
  fun_induction weave flags woven with
  | case1 => rfl
  | case2 flags woven ih => rw [List.map_cons, kept, ih, weave]
  | case3 flags digit woven ih => rw [List.map_cons, ih, List.map_cons, weave]
  | case4 => rfl

end Weaving

section Printing

/-- The places of the bytes from the given one on: two digits each, behind a separator where one is skipped. -/
def shapeFrom (i : Nat) : Nat → List Bool
  | 0 => []
  | count + 1 => (if i = 4 ∨ i = 6 ∨ i = 8 ∨ i = 10 then [true] else []) ++ false :: false :: shapeFrom (i + 1) count

/-- The places of a text: four separators among 36. -/
def shape : List Bool := (List.range 36).map (· ∈ [8, 13, 18, 23])

theorem shapeFrom_zero : shapeFrom 0 16 = shape := by decide

def digitPair (byte : UInt8) : List Char := [hexDigit ((byte >>> 4) &&& 0x0F).toNat, hexDigit (byte &&& 0x0F).toNat]

theorem length_digitPairs (bytes : List UInt8) : (bytes.flatMap digitPair).length = 2 * bytes.length := by
  induction bytes with
  | nil => rfl
  | cons byte rest ih =>
    rw [List.flatMap_cons, List.length_append, ih, List.length_cons, Nat.mul_add, Nat.add_comm]
    rfl

theorem print_pair (byte : UInt8) (rest : List UInt8) (i : Nat) (front tail : List Char) {outIdx : Nat}
    (place : (if i = 4 ∨ i = 6 ∨ i = 8 ∨ i = 10 then outIdx + 1 else outIdx) = front.length) :
    print (byte :: rest) i outIdx (front ++ '-' :: '-' :: tail) =
      print rest (i + 1) (front ++ digitPair byte).length (front ++ digitPair byte ++ tail) := by
  simp [print, place, digitPair]

theorem print_eq (bytes : List UInt8) (i : Nat) (done : List Char) :
    print bytes i done.length (done ++ List.replicate (shapeFrom i bytes.length).length '-') =
      done ++ weave (shapeFrom i bytes.length) (bytes.flatMap digitPair) := by
  induction bytes generalizing i done with
  | nil => simp [print, shapeFrom, weave]
  | cons byte rest ih =>
    by_cases skips : i = 4 ∨ i = 6 ∨ i = 8 ∨ i = 10
    · have hyphens : done ++ List.replicate (shapeFrom i (rest.length + 1)).length '-' =
          (done ++ ['-']) ++ '-' :: '-' :: List.replicate (shapeFrom (i + 1) rest.length).length '-' := by
        simp [shapeFrom, skips, List.replicate_succ]
      rw [List.length_cons, hyphens, print_pair _ _ _ _ _ (by rw [if_pos skips, List.length_append]; rfl), ih]
      simp [shapeFrom, skips, weave, digitPair]
    · have hyphens : done ++ List.replicate (shapeFrom i (rest.length + 1)).length '-' =
          done ++ '-' :: '-' :: List.replicate (shapeFrom (i + 1) rest.length).length '-' := by
        simp [shapeFrom, skips, List.replicate_succ]
      rw [List.length_cons, hyphens, print_pair _ _ _ _ _ (by rw [if_neg skips]), ih]
      simp [shapeFrom, skips, weave, digitPair]

theorem toString_eq (id : ObjectId) : toString id = weave shape (id.bytes.bytes.flatMap digitPair) := by
  have printed := print_eq id.bytes.bytes 0 []
  rw [id.bytes.sized, shapeFrom_zero] at printed
  exact printed

end Printing

section Parsing

variable {text : List Char}

def nybbles (text : List Char) : List Nat := (digits text).filterMap hexToNybble

def fill : List Nat → Nat → ObjectId → ObjectId
  | [], _, out => out
  | nybble :: rest, hexPos, out => fill rest (hexPos + 1) (out.put hexPos nybble)

theorem collect_digits (all : ∀ c ∈ digits text, (hexToNybble c).isSome = true) (i hexPos : Nat) (out : ObjectId) :
    collect text i hexPos out = (Status.success, hexPos + (digits text).length, fill (nybbles text) hexPos out) := by
  induction text generalizing i hexPos out with
  | nil => rfl
  | cons c rest ih =>
    by_cases hyphen : c = '-'
    · rw [hyphen, digits_hyphen] at all
      rw [collect, if_pos hyphen, hyphen, nybbles, digits_hyphen]
      exact ih all _ _ _
    · rw [digits_cons hyphen] at all
      obtain ⟨nybble, value⟩ := Option.isSome_iff_exists.mp (all c List.mem_cons_self)
      rw [collect, if_neg hyphen, value, nybbles, digits_cons hyphen, List.filterMap_cons_some value, List.length_cons, fill]
      dsimp only
      rw [ih (fun other member => all other (List.mem_cons_of_mem _ member)), Nat.add_assoc, Nat.add_comm 1]
      rfl

theorem collect_refused {c : Char} (member : c ∈ digits text) (none : hexToNybble c = none) (i hexPos : Nat) (out : ObjectId) :
    (collect text i hexPos out).1.ok = false := by
  induction text generalizing i hexPos out with
  | nil => cases member
  | cons first rest ih =>
    by_cases hyphen : first = '-'
    · rw [hyphen, digits_hyphen] at member
      rw [collect, if_pos hyphen]
      exact ih member _ _ _
    · rw [collect, if_neg hyphen]
      cases value : hexToNybble first with
      | none => rfl
      | some nybble =>
        rw [digits_cons hyphen] at member
        rcases List.mem_cons.mp member with rfl | later
        · rw [none] at value
          cases value
        · exact ih later _ _ _

def pack : List Nat → List UInt8
  | high :: low :: rest => (UInt8.ofNat (high <<< 4) ||| UInt8.ofNat low) :: pack rest
  | _ => []

theorem modify_behind (done rest : List UInt8) (byte : UInt8) (change : UInt8 → UInt8) :
    (done ++ byte :: rest).modify done.length change = done ++ change byte :: rest := by
  induction done with
  | nil => rfl
  | cons first done ih => exact congrArg (first :: ·) ih

theorem fill_pack {values : List Nat} {done old : List UInt8} (pairs : values.length = 2 * old.length) {out : ObjectId}
    (bytes : out.bytes.bytes = done ++ old) : (fill values (2 * done.length) out).bytes.bytes = done ++ pack values := by
  induction old generalizing values done out with
  | nil =>
    obtain rfl := List.eq_nil_of_length_eq_zero pairs
    exact bytes
  | cons byte rest ih =>
    rw [List.length_cons] at pairs
    match values, pairs with
    | high :: low :: values, pairs =>
      simp only [List.length_cons] at pairs
      have stored : ((out.put (2 * done.length) high).put (2 * done.length + 1) low).bytes.bytes =
          (done ++ [UInt8.ofNat (high <<< 4) ||| UInt8.ofNat low]) ++ rest := by
        have even : 2 * done.length / 2 = done.length ∧ 2 * done.length % 2 = 0 := by omega
        have odd : (2 * done.length + 1) / 2 = done.length ∧ ¬ (2 * done.length + 1) % 2 = 0 := by omega
        simp [put, even, odd, bytes, modify_behind]
      have rest := ih (show values.length = 2 * rest.length by omega) stored
      rw [List.length_append, List.length_singleton, Nat.mul_add] at rest
      rw [fill, fill, pack, rest, List.append_assoc]
      rfl

theorem fill_whole {values : List Nat} (all : values.length = 32) (out : ObjectId) :
    (fill values 0 out).bytes.bytes = pack values :=
  @fill_pack values [] out.bytes.bytes (by rw [all, out.bytes.sized]) out rfl

end Parsing

section Digits

theorem hexDigit_reads : ∀ nybble < 16, hexToNybble (hexDigit nybble) = some nybble ∧ hexDigit nybble ≠ '-' := by decide

theorem lower_digits : (∀ code ∈ List.range' 48 10, hexDigit (code - 48) = (Char.ofNat code).toLower) ∧
    (∀ code ∈ List.range' 97 6, hexDigit (code - 97 + 10) = (Char.ofNat code).toLower) ∧
    ∀ code ∈ List.range' 65 6, hexDigit (code - 65 + 10) = (Char.ofNat code).toLower := by decide

theorem code_between {low high c : Char} (between : low ≤ c ∧ c ≤ high) : low.toNat ≤ c.toNat ∧ c.toNat ≤ high.toNat :=
  ⟨UInt32.le_iff_toNat_le.mp (Char.le_def.mp between.1), UInt32.le_iff_toNat_le.mp (Char.le_def.mp between.2)⟩

theorem nybble_cases {c : Char} {nybble : Nat} (value : hexToNybble c = some nybble) :
    nybble < 16 ∧ hexDigit nybble = c.toLower := by
  obtain ⟨decimals, lowers, uppers⟩ := lower_digits
  rw [hexToNybble] at value
  rw [← Char.ofNat_toNat c]
  split at value
  next between =>
    obtain ⟨least, most⟩ : 48 ≤ c.toNat ∧ c.toNat ≤ 57 := code_between between
    obtain rfl := Option.some.inj value
    exact ⟨show c.toNat - 48 < 16 by omega, decimals _ (List.mem_range'_1.mpr (by omega))⟩
  split at value
  next between =>
    obtain ⟨least, most⟩ : 97 ≤ c.toNat ∧ c.toNat ≤ 102 := code_between between
    obtain rfl := Option.some.inj value
    exact ⟨show c.toNat - 97 + 10 < 16 by omega, lowers _ (List.mem_range'_1.mpr (by omega))⟩
  split at value
  next between =>
    obtain ⟨least, most⟩ : 65 ≤ c.toNat ∧ c.toNat ≤ 70 := code_between between
    obtain rfl := Option.some.inj value
    exact ⟨show c.toNat - 65 + 10 < 16 by omega, uppers _ (List.mem_range'_1.mpr (by omega))⟩
  next => cases value

theorem digitPair_pack : ∀ high < 16, ∀ low < 16,
    digitPair (UInt8.ofNat (high <<< 4) ||| UInt8.ofNat low) = [hexDigit high, hexDigit low] := by decide

theorem byte_halves (byte : UInt8) :
    ((byte >>> 4) &&& 0x0F).toNat < 16 ∧ (byte &&& 0x0F).toNat < 16 ∧
      UInt8.ofNat (((byte >>> 4) &&& 0x0F).toNat <<< 4) ||| UInt8.ofNat (byte &&& 0x0F).toNat = byte := by
  have each : ∀ code < 256,
      ((UInt8.ofNat code >>> 4) &&& 0x0F).toNat < 16 ∧ (UInt8.ofNat code &&& 0x0F).toNat < 16 ∧
      UInt8.ofNat (((UInt8.ofNat code >>> 4) &&& 0x0F).toNat <<< 4) ||| UInt8.ofNat (UInt8.ofNat code &&& 0x0F).toNat =
        UInt8.ofNat code := by decide +kernel
  have here := each byte.toNat byte.toNat_lt
  rwa [UInt8.ofNat_toNat] at here

theorem digitPair_reads (byte : UInt8) :
    (digitPair byte).filterMap hexToNybble = [((byte >>> 4) &&& 0x0F).toNat, (byte &&& 0x0F).toNat] ∧
      ∀ c ∈ digitPair byte, c ≠ '-' ∧ (hexToNybble c).isSome = true := by
  obtain ⟨high, low, -⟩ := byte_halves byte
  obtain ⟨first, digit⟩ := hexDigit_reads _ high
  obtain ⟨second, other⟩ := hexDigit_reads _ low
  rw [digitPair, List.filterMap_cons_some first, List.filterMap_cons_some second]
  refine ⟨rfl, fun c member => ?_⟩
  rcases List.mem_pair.mp member with rfl | rfl
  · exact ⟨digit, Option.isSome_of_eq_some first⟩
  · exact ⟨other, Option.isSome_of_eq_some second⟩

theorem pack_digitPairs (bytes : List UInt8) : pack ((bytes.flatMap digitPair).filterMap hexToNybble) = bytes := by
  induction bytes with
  | nil => rfl
  | cons byte rest ih =>
    obtain ⟨-, -, packed⟩ := byte_halves byte
    have values := (digitPair_reads byte).1
    rw [List.flatMap_cons, List.filterMap_append, values, List.cons_append, List.cons_append, List.nil_append, pack, packed, ih]

theorem digitPairs_pack (count : Nat) {values : List Nat} (pairs : values.length = 2 * count)
    (small : ∀ value ∈ values, value < 16) : (pack values).flatMap digitPair = values.map hexDigit := by
  induction count generalizing values with
  | zero =>
    obtain rfl := List.eq_nil_of_length_eq_zero pairs
    rfl
  | succ count ih =>
    match values, pairs, small with
    | high :: low :: values, pairs, small =>
      simp only [List.length_cons] at pairs
      have rest := ih (show values.length = 2 * count by omega) fun value member =>
        small value (List.mem_cons_of_mem _ (List.mem_cons_of_mem _ member))
      rw [pack, List.flatMap_cons, rest, digitPair_pack high (small high (by simp)) low (small low (by simp))]
      rfl

end Digits

section Text

variable {text : List Char}

def IsHex (c : Char) : Prop := ('0' ≤ c ∧ c ≤ '9') ∨ ('a' ≤ c ∧ c ≤ 'f') ∨ ('A' ≤ c ∧ c ≤ 'F')

theorem hexToNybble_isSome (c : Char) : (hexToNybble c).isSome = true ↔ IsHex c := by
  rw [hexToNybble, IsHex]
  split
  · simp [*]
  split
  · simp [*]
  split <;> simp [*]

/-- 36 characters, a hyphen at each of the four places and hexadecimal digits everywhere else. -/
structure WellFormed (text : List Char) : Prop where
  length : text.length = 36
  separators : ∀ i ∈ [8, 13, 18, 23], text[i]? = some '-'
  digits : ∀ i c, i ∉ [8, 13, 18, 23] → text[i]? = some c → IsHex c

theorem forall₂_shape {related : Bool → Char → Prop} :
    List.Forall₂ related shape text ↔
      text.length = 36 ∧ ∀ i c, text[i]? = some c → related (decide (i ∈ [8, 13, 18, 23])) c := by
  have length : shape.length = 36 := rfl
  rw [List.forall₂_iff_get]
  constructor
  · rintro ⟨sized, each⟩
    refine ⟨sized.symm.trans length, fun i c here => ?_⟩
    obtain ⟨inside, rfl⟩ := List.getElem?_eq_some_iff.mp here
    have found := each i (by omega) inside
    simpa [shape] using found
  · rintro ⟨sized, each⟩
    refine ⟨length.trans sized.symm, fun i first second => ?_⟩
    have found := each i _ (List.getElem?_eq_getElem second)
    simpa [shape] using found

theorem isHex_ne_hyphen {c : Char} (hex : IsHex c) : c ≠ '-' := by
  rintro rfl
  revert hex
  simp [IsHex]

theorem wellFormed_iff : WellFormed text ↔ Separated shape text ∧ ∀ c ∈ digits text, IsHex c := by
  rw [Separated, forall₂_shape]
  constructor
  · rintro ⟨length, separators, hex⟩
    refine ⟨⟨length, fun i c here => ?_⟩, fun c member => ?_⟩
    · rw [decide_eq_true_eq]
      constructor
      · intro hyphen
        by_contra elsewhere
        exact isHex_ne_hyphen (hex i c elsewhere here) hyphen
      · intro place
        exact Option.some.inj (here.symm.trans (separators i place))
    · obtain ⟨inside, digit⟩ := List.mem_filter.mp member
      obtain ⟨i, here⟩ := List.mem_iff_getElem?.mp inside
      refine hex i c (fun place => ?_) here
      exact of_decide_eq_true digit (Option.some.inj (here.symm.trans (separators i place)))
  · rintro ⟨⟨length, each⟩, hex⟩
    refine ⟨length, fun i place => ?_, fun i c elsewhere here => ?_⟩
    · have inside : i < text.length := by
        rw [length]
        simp only [List.mem_cons, List.not_mem_nil, or_false] at place
        omega
      have hyphen := (each i _ (List.getElem?_eq_getElem inside)).mpr (decide_eq_true place)
      rw [List.getElem?_eq_getElem inside, hyphen]
    · have digit : c ≠ '-' := fun hyphen => elsewhere (of_decide_eq_true ((each i c here).mp hyphen))
      exact hex c (List.mem_filter.mpr ⟨List.mem_of_getElem? here, decide_eq_true digit⟩)

theorem fromString_accepts (wellFormed : WellFormed text) (out : ObjectId) :
    fromString text out = (Status.success, fill (nybbles text) 0 out) := by
  obtain ⟨separated, hex⟩ := wellFormed_iff.mp wellFormed
  have places : ¬ (text[8]? ≠ some '-' ∨ text[13]? ≠ some '-' ∨ text[18]? ≠ some '-' ∨ text[23]? ≠ some '-') := by
    have each := wellFormed.separators
    simp only [List.forall_mem_cons] at each
    simp [each.1, each.2.1, each.2.2.1, each.2.2.2.1]
  rw [fromString, if_neg (not_not.mpr wellFormed.length), if_neg places,
    collect_digits (fun c member => (hexToNybble_isSome c).mpr (hex c member)), separated.digits_length]
  rfl

theorem fromString_refuses (malformed : ¬ WellFormed text) (out : ObjectId) : (fromString text out).1.ok = false := by
  rw [fromString]
  split
  · rfl
  next length =>
  split
  · rfl
  next places =>
  by_cases hex : ∀ c ∈ digits text, IsHex c
  · have hyphens : List.Forall₂ (fun separator c => separator = true → c = '-') shape text := by
      refine forall₂_shape.mpr ⟨not_not.mp length, fun i c here place => ?_⟩
      simp only [not_or, not_not] at places
      simp only [decide_eq_true_eq, List.mem_cons, List.not_mem_nil, or_false] at place
      rcases place with rfl | rfl | rfl | rfl
      · exact Option.some.inj (here.symm.trans places.1)
      · exact Option.some.inj (here.symm.trans places.2.1)
      · exact Option.some.inj (here.symm.trans places.2.2.1)
      · exact Option.some.inj (here.symm.trans places.2.2.2)
    have few : (digits text).length ≠ 32 := fun all =>
      malformed (wellFormed_iff.mpr ⟨(separated_of_digits hyphens).2 all, hex⟩)
    rw [collect_digits fun c member => (hexToNybble_isSome c).mpr (hex c member)]
    simp [few]
  · simp only [not_forall] at hex
    obtain ⟨c, member, other⟩ := hex
    have none : hexToNybble c = none := by
      rw [← hexToNybble_isSome, Bool.not_eq_true, Option.isSome_eq_false_iff, Option.isNone_iff_eq_none] at other
      exact other
    have refused := collect_refused member none 0 0 out
    simp only [refused, Bool.not_false, if_true]

theorem values_of_digits {cs : List Char} (hex : ∀ c ∈ cs, IsHex c) :
    (cs.filterMap hexToNybble).length = cs.length ∧ (∀ value ∈ cs.filterMap hexToNybble, value < 16) ∧
      (cs.filterMap hexToNybble).map hexDigit = cs.map Char.toLower := by
  induction cs with
  | nil => exact ⟨rfl, nofun, rfl⟩
  | cons c rest ih =>
    obtain ⟨lengths, small, same⟩ := ih fun other member => hex other (List.mem_cons_of_mem _ member)
    obtain ⟨nybble, value⟩ := Option.isSome_iff_exists.mp ((hexToNybble_isSome c).mpr (hex c List.mem_cons_self))
    obtain ⟨less, lower⟩ := nybble_cases value
    rw [List.filterMap_cons_some value]
    exact ⟨congrArg _ lengths, List.forall_mem_cons.mpr ⟨less, small⟩, by rw [List.map_cons, List.map_cons, lower, same]⟩

theorem toString_wellFormed (id : ObjectId) :
    WellFormed id.toString ∧ digits id.toString = id.bytes.bytes.flatMap digitPair := by
  have reads : ∀ c ∈ id.bytes.bytes.flatMap digitPair, c ≠ '-' ∧ (hexToNybble c).isSome = true := by
    intro c member
    obtain ⟨byte, -, here⟩ := List.mem_flatMap.mp member
    exact (digitPair_reads byte).2 c here
  have all : (id.bytes.bytes.flatMap digitPair).length = shape.count false := by
    rw [length_digitPairs, id.bytes.sized]
    rfl
  obtain ⟨same, separated⟩ := weave_separated (fun c member => (reads c member).1) all
  rw [toString_eq]
  refine ⟨wellFormed_iff.mpr ⟨separated, fun c member => ?_⟩, same⟩
  rw [same] at member
  exact (hexToNybble_isSome c).mp (reads c member).2

/-- Every id is read back from its text, and just the well-formed texts are read. -/
theorem object_id_text_is_exact :
    (∀ id out : ObjectId, fromString id.toString out = (Status.success, id)) ∧
      ∀ (text : List Char) (out : ObjectId), ((fromString text out).1.ok = true ↔ WellFormed text) ∧
        (WellFormed text → (fromString text out).2.toString = text.map Char.toLower) := by
  have values {text : List Char} (wellFormed : WellFormed text) : (nybbles text).length = 32 ∧
      (∀ value ∈ nybbles text, value < 16) ∧ (nybbles text).map hexDigit = (digits text).map Char.toLower := by
    obtain ⟨separated, hex⟩ := wellFormed_iff.mp wellFormed
    obtain ⟨lengths, small, same⟩ := values_of_digits hex
    exact ⟨lengths.trans separated.digits_length, small, same⟩
  refine ⟨fun id out => ?_, fun text out => ⟨⟨fun accepted => ?_, fun wellFormed => ?_⟩, fun wellFormed => ?_⟩⟩
  · obtain ⟨wellFormed, printed⟩ := id.toString_wellFormed
    have whole := fill_whole (values wellFormed).1 out
    rw [nybbles, printed, pack_digitPairs] at whole
    rw [fromString_accepts wellFormed, nybbles, printed]
    obtain ⟨bytes⟩ := id
    exact congrArg _ (congrArg ObjectId.mk (Bytes.Block.ext whole))
  · by_contra malformed
    rw [fromString_refuses malformed] at accepted
    cases accepted
  · rw [fromString_accepts wellFormed]
    rfl
  · obtain ⟨lengths, small, same⟩ := values wellFormed
    rw [fromString_accepts wellFormed, toString_eq, fill_whole lengths, digitPairs_pack 16 lengths small, same,
      ← weave_map Char.toLower (by decide), (wellFormed_iff.mp wellFormed).1.weave_digits]

theorem upper_case_id_is_read :
    let text := ['0', '1', '2', '3', '4', '5', '6', '7', '-', '8', '9', 'A', 'B', '-', 'C', 'D', 'E', 'F', '-',
      'a', 'b', 'c', 'd', '-', 'e', 'f', '0', '0', '0', '0', '0', '0', '0', '0', '0', '1']
    (fromString text {}).2.toString = text.map Char.toLower :=
  (object_id_text_is_exact.2 _ {}).2 ((object_id_text_is_exact.2 _ {}).1.mp (by decide +kernel))

end Text

end Quartz.Format.ObjectId
