import Mathlib.Data.Nat.Size
import MugOS.PrintfText

/-!
# The Numbers of `sprintf_uint`

What `sprintf_uint` and `sprintf_int` print, compared with the law of `printf`: spaces, sign,
prefix, digits and spaces, where the digits read back in the radix, there are at least as many
as the precision, and the whole is as long as the longer of the width and of what has to be
there. The source computes the two paddings as `int64_t`s that may be negative, and the law
fails in three kinds of cases: a decimal number is charged for a prefix that it does not have,
the difference of precision and digits is added to the zero padding where it is negative, and
the zero padding replaces what the precision asks for.

## Main results

* `sprintfNumber_law_iff`: the law holds exactly for the numbers whose width is reached without
  one of the three.
* `sprintfNumber_le_size`: no number is longer than what `getSizeOfNumberToPrint` predicts.
-/

namespace MugOS.Printf

/-! ### Statements -/

/-- `sprintf_uint(str, number, spec)` or `sprintf_int(str, number, spec)`. -/
def sprintfNumber (str : ℤ) (number : Number) (spec : SpecifierState) : Out :=
  sprintfUint str (magnitude number spec).1 (magnitude number spec).2

/-- The absolute value. -/
def Number.abs : Number → ℕ
  | .signed n => n.natAbs
  | .unsigned n => n

/-- The numbers of 64 bits. -/
def Number.InRange : Number → Prop
  | .signed n => -2 ^ 63 ≤ n ∧ n < 2 ^ 63
  | .unsigned n => n < 2 ^ 64

/-- The sign that is asked for: that of a negative number, else the one of the flags. -/
def Number.sign (spec : SpecifierState) : Number → List UInt8
  | .signed n => if n < 0 then [byte '-'] else if spec.sign ≠ 0 then [spec.sign] else []
  | .unsigned _ => if spec.sign ≠ 0 then [spec.sign] else []

/-- The prefix that is asked for by a specifier, empty if there is none. -/
def requestedPrefix (spec : SpecifierState) : List UInt8 :=
  if spec.putPrefix then numberPrefix spec.radix spec.uppercase else []

/-- The fields of a conversion specification: one of the three radices, a width and a precision
that is not set or small. -/
structure SpecifierState.Regular (spec : SpecifierState) : Prop where
  radix : spec.radix = 8 ∨ spec.radix = 10 ∨ spec.radix = 16
  width : spec.width < 2 ^ 30
  precision : spec.precision = -1 ∨ 0 ≤ spec.precision ∧ spec.precision < 2 ^ 30

/-- The value of a digit in a radix of at most 16. -/
def digitValue (radix : ℕ) (c : UInt8) : Option ℕ :=
  let value :=
    if 48 ≤ c.toNat ∧ c.toNat ≤ 57 then c.toNat - 48
    else if 97 ≤ c.toNat ∧ c.toNat ≤ 102 then c.toNat - 87
    else if 65 ≤ c.toNat ∧ c.toNat ≤ 70 then c.toNat - 55
    else radix
  if value < radix then some value else none

/-- The number that some digits stand for, the most significant one first. -/
def readBack (radix : ℕ) (digits : List UInt8) : Option ℕ :=
  (digits.reverse.mapM (digitValue radix)).map (Nat.ofDigits radix)

/-- The least number of digits of a number in a radix, where zero has one. -/
def digitCount (radix number : ℕ) : ℕ := Nat.log radix number + 1

/-- What has to be there: the sign, the prefix, and as many digits as the number needs or the
precision asks for. -/
def requiredLength (number : Number) (spec : SpecifierState) : ℕ :=
  (number.sign spec).length + (requestedPrefix spec).length +
    max (digitCount spec.radix number.abs) spec.precision.toNat

/-- The law of `printf` for a number that is printed at `str`. -/
def PrintsNumber (str : ℤ) (number : Number) (spec : SpecifierState) : Prop :=
  ∃ (left right : ℕ) (digits : List UInt8),
    let text := List.replicate left (byte ' ') ++ number.sign spec ++ requestedPrefix spec ++
      digits ++ List.replicate right (byte ' ')
    Placed str (sprintfNumber str number spec) text ∧
    readBack spec.radix digits = some number.abs ∧
    spec.precision ≤ digits.length ∧
    text.length = max spec.width (requiredLength number spec)

/-- The room that `sprintf_uint` charges for a prefix. -/
def chargedPrefix (spec : SpecifierState) : ℕ :=
  if spec.putPrefix then if spec.radix > 9 then 2 else 1 else 0

/-- Zeros take the place of the spaces before the number. -/
def SpecifierState.ZeroPadded (spec : SpecifierState) : Prop :=
  spec.padWithZeros = true ∧ spec.padRight = false

instance (spec : SpecifierState) : Decidable spec.ZeroPadded :=
  inferInstanceAs (Decidable (_ ∧ _))

/-- A prefix is asked for, and a decimal number has none. -/
def SpecifierState.DecimalPrefix (spec : SpecifierState) : Prop :=
  spec.putPrefix = true ∧ spec.radix = 10

/-- The width is not more than what has to be there, or no room is charged for a prefix of a
decimal number and no zeros are taken away for digits beyond the precision; and zeros up to the
width do not replace a longer padding up to the precision. -/
def HonoursWidth (number : Number) (spec : SpecifierState) : Prop :=
  (requiredLength number spec < spec.width →
    ¬ spec.DecimalPrefix ∧
    ¬ (spec.ZeroPadded ∧ 0 ≤ spec.precision ∧
      spec.precision < digitCount spec.radix number.abs)) ∧
  ¬ (spec.ZeroPadded ∧ digitCount spec.radix number.abs < spec.precision ∧
    spec.precision < spec.width ∧
    spec.width < (number.sign spec).length + chargedPrefix spec + spec.precision)

/-! ### Digits -/

/-- A character of the table has the value of its index. -/
theorem digitValue_hexChars {radix k : ℕ} (uppercase : Bool) (hradix : radix ≤ 16)
    (hk : k < radix) : digitValue radix ((hexChars uppercase).getD k 0) = some k := by
  have htable : ∀ uppercase, ∀ radix < 17, ∀ k < radix,
      digitValue radix ((hexChars uppercase).getD k 0) = some k := by decide
  exact htable uppercase radix (by omega) k hk

/-- The digits of a number, the last one first, where zero has one. -/
def numerals (radix number : ℕ) : List ℕ := if number = 0 then [0] else Nat.digits radix number

/-- The numerals of a number, read in their radix, stand for this number. -/
theorem ofDigits_numerals (radix number : ℕ) :
    Nat.ofDigits radix (numerals radix number) = number := by
  unfold numerals
  split
  next h => simp [h]
  next => exact Nat.ofDigits_digits radix number

/-- Each of the numerals of a number is below the radix. -/
theorem numerals_lt {radix number k : ℕ} (hradix : 1 < radix) (hk : k ∈ numerals radix number) :
    k < radix := by
  unfold numerals at hk
  split at hk
  next => simp only [List.mem_singleton] at hk; omega
  next => exact Nat.digits_lt_base hradix hk

/-- There are as many numerals as the number needs digits in the radix. -/
theorem length_numerals {radix : ℕ} (hradix : 1 < radix) (number : ℕ) :
    (numerals radix number).length = digitCount radix number := by
  unfold numerals digitCount
  split
  next h => simp [h]
  next h => exact Nat.length_digits radix number hradix h

/-- A number of several digits has its last digit as first numeral, before those of the
quotient. -/
theorem numerals_div {radix number : ℕ} (hradix : 1 < radix) (h : 0 < number / radix) :
    numerals radix number = number % radix :: numerals radix (number / radix) := by
  have hpos : 0 < number := Nat.pos_of_ne_zero (by rintro rfl; simp at h)
  unfold numerals
  rw [if_neg hpos.ne', if_neg h.ne', Nat.digits_def' hradix hpos]

/-- A number below the radix has itself as its only numeral. -/
theorem numerals_of_div_eq_zero {radix number : ℕ} (hradix : 1 < radix)
    (h : number / radix = 0) : numerals radix number = [number % radix] := by
  have hlt : number < radix := (Nat.div_eq_zero_iff_lt (by omega)).1 h
  unfold numerals
  split
  next hzero => simp [hzero]
  next hpos => rw [Nat.digits_of_lt radix number hpos hlt, Nat.mod_eq_of_lt hlt]

/-- The loop of `sprintf_uint` gives the digits of a number for which there is room. -/
theorem convertDigits_eq {radix : ℕ} (chars : List UInt8) (hradix : 1 < radix) {room : ℕ}
    (number : ℕ) (hlt : number < radix ^ (room + 1)) :
    convertDigits radix chars (room + 1) number =
      (numerals radix number).map fun k => chars.getD k 0 := by
  induction room generalizing number with
  | zero =>
      have hdiv : number / radix = 0 := Nat.div_eq_of_lt (by simpa using hlt)
      rw [convertDigits, numerals_of_div_eq_zero hradix hdiv, if_neg (by omega)]
      rfl
  | succ room ih =>
      rw [convertDigits]
      split
      next hdiv =>
          rw [numerals_div hradix hdiv, List.map_cons, ih]
          rw [Nat.div_lt_iff_lt_mul (by omega), ← pow_succ]
          exact hlt
      next hdiv =>
          rw [numerals_of_div_eq_zero hradix (Nat.eq_zero_of_not_pos hdiv)]
          rfl

/-- The characters of digits below the radix are read back as these digits, in either case. -/
theorem mapM_digitValue {radix : ℕ} (uppercase : Bool) (hradix : radix ≤ 16) {ks : List ℕ}
    (hks : ∀ k ∈ ks, k < radix) :
    (ks.map fun k => (hexChars uppercase).getD k 0).mapM (digitValue radix) = some ks := by
  induction ks with
  | nil => rfl
  | cons k ks ih =>
      rw [List.map_cons, List.mapM_cons,
        digitValue_hexChars uppercase hradix (hks k List.mem_cons_self),
        ih fun k hk => hks k (List.mem_cons_of_mem _ hk)]
      rfl

/-- The characters of a number, behind any number of zeros, are read back as this number. -/
theorem readBack_zeros {radix : ℕ} (uppercase : Bool) (hone : 1 < radix) (hradix : radix ≤ 16)
    (zeros number : ℕ) :
    readBack radix (List.replicate zeros (byte '0') ++
      ((numerals radix number).map fun k => (hexChars uppercase).getD k 0).reverse) =
        some number := by
  have hzeros : List.replicate zeros (byte '0') =
      (List.replicate zeros 0).map fun k => (hexChars uppercase).getD k 0 := by
    rw [List.map_replicate]
    cases uppercase <;> rfl
  have hks : ∀ k ∈ numerals radix number ++ List.replicate zeros 0, k < radix := by
    intro k hk
    rcases List.mem_append.1 hk with hk | hk
    · exact numerals_lt hone hk
    · rw [List.eq_of_mem_replicate hk]
      omega
  unfold readBack
  rw [List.reverse_append, List.reverse_reverse, List.reverse_replicate, hzeros,
    ← List.map_append, mapM_digitValue uppercase hradix hks, Option.map_some,
    Nat.ofDigits_append, ofDigits_numerals, Nat.ofDigits_replicate_zero, mul_zero, add_zero]

/-! ### Regular specifications -/

/-- The radix of a regular specifier is at least 2. -/
theorem SpecifierState.Regular.one_lt {spec : SpecifierState} (h : spec.Regular) :
    1 < spec.radix := by
  rcases h.radix with hr | hr | hr <;> omega

/-- The radix of a regular specifier is at most 16. -/
theorem SpecifierState.Regular.radix_le {spec : SpecifierState} (h : spec.Regular) :
    spec.radix ≤ 16 := by
  rcases h.radix with hr | hr | hr <;> omega

/-- The magnitude of a number is its absolute value, and the sign is that of the number. -/
theorem magnitude_spec {number : Number} (spec : SpecifierState) (hrange : number.InRange) :
    ∃ sign, magnitude number spec = (number.abs, { spec with sign := sign }) ∧
      (if sign ≠ 0 then [sign] else []) = number.sign spec := by
  cases number with
  | unsigned n => exact ⟨spec.sign, rfl, rfl⟩
  | signed n =>
      simp only [Number.InRange] at hrange
      simp only [magnitude, Number.abs, Number.sign, wrapUInt64, wrapInt64]
      split
      next hneg =>
          refine ⟨byte '-', ?_, rfl⟩
          simp only [Prod.mk.injEq, and_true]
          have hmod : (-n).bmod (2 ^ 64) % 2 ^ 64 = -n % 2 ^ 64 := Int.bmod_emod
          rw [hmod, Int.emod_eq_of_lt (by omega) (by omega)]
          omega
      next hpos =>
          refine ⟨spec.sign, ?_, rfl⟩
          simp only [Prod.mk.injEq, and_true]
          rw [Int.emod_eq_of_lt (by omega) (by omega)]
          omega

/-- The absolute value of a number of 64 bits, signed or not, is below `2 ^ 64`. -/
theorem Number.InRange.abs_lt {number : Number} (h : number.InRange) : number.abs < 2 ^ 64 := by
  cases number with
  | unsigned n => exact h
  | signed n =>
      simp only [Number.InRange] at h
      change n.natAbs < 2 ^ 64
      omega

/-- A number below `2 ^ 64` has at most 64 digits in any radix. -/
theorem digitCount_le {radix number : ℕ} (hradix : 1 < radix) (hlt : number < 2 ^ 64) :
    digitCount radix number ≤ 64 := by
  unfold digitCount
  have hpow : number < radix ^ 64 := hlt.trans_le (Nat.pow_le_pow_left hradix 64)
  exact Nat.log_lt_of_lt_pow' (by norm_num) hpow

/-- The characters of the buffer are those of the digits. -/
theorem buffer_eq {number : ℕ} {spec : SpecifierState} (hspec : spec.Regular)
    (hlt : number < 2 ^ 64) :
    buffer number spec =
      (numerals spec.radix number).map fun k => (hexChars spec.uppercase).getD k 0 := by
  apply convertDigits_eq _ hspec.one_lt
  calc number < 2 ^ 64 := hlt
    _ ≤ 2 ^ 128 := Nat.pow_le_pow_right (by omega) (by omega)
    _ ≤ spec.radix ^ 128 := Nat.pow_le_pow_left hspec.one_lt 128

/-- The digit loop leaves as many characters in the buffer as the number needs digits. -/
theorem length_buffer {number : ℕ} {spec : SpecifierState} (hspec : spec.Regular)
    (hlt : number < 2 ^ 64) : (buffer number spec).length = digitCount spec.radix number := by
  rw [buffer_eq hspec hlt, List.length_map, length_numerals hspec.one_lt]

/-! ### Paddings -/

/-- The length of the sign that is printed, which is one character or none. -/
def signLength (spec : SpecifierState) : ℕ := if spec.sign ≠ 0 then 1 else 0

/-- `padding_spaces` before zeros may replace it: the width less what is charged for. -/
def spareRoom (spec : SpecifierState) (pos : ℕ) : ℤ :=
  spec.width - max (pos : ℤ) spec.precision - chargedPrefix spec - signLength spec

/-- Integers of 32 bits are unchanged by the conversion to `int64_t`. -/
theorem wrapInt64_of_small {z : ℤ} (hle : -2 ^ 31 ≤ z) (hlt : z < 2 ^ 31) : wrapInt64 z = z := by
  unfold wrapInt64
  apply Int.bmod_eq_of_le <;> omega

/-- Integers of 32 bits are unchanged by the conversion to `int`. -/
theorem wrapInt_of_small {z : ℤ} (hle : -2 ^ 31 ≤ z) (hlt : z < 2 ^ 31) : wrapInt z = z := by
  unfold wrapInt
  apply Int.bmod_eq_of_le <;> omega

/-- The room of the prefix is taken from the spaces without a wrap: one character, or two above
radix 9. -/
theorem sub_chargedPrefix (spec : SpecifierState) {spaces : ℤ} (hle : -2 ^ 30 ≤ spaces)
    (hlt : spaces < 2 ^ 30) :
    (if spec.putPrefix then wrapInt64 (spaces - if spec.radix > 9 then 2 else 1) else spaces) =
      spaces - chargedPrefix spec := by
  unfold chargedPrefix
  split
  next =>
      rw [wrapInt64_of_small (by split <;> omega) (by split <;> omega)]
      split <;> rfl
  next => simp

/-- The room of the sign is taken from the spaces without a wrap: one character, if there is a
sign. -/
theorem sub_signLength (spec : SpecifierState) {spaces : ℤ} (hle : -2 ^ 30 - 2 ≤ spaces)
    (hlt : spaces < 2 ^ 30) :
    (if spec.sign ≠ 0 then wrapInt64 (spaces - 1) else spaces) = spaces - signLength spec := by
  unfold signLength
  split
  next => exact wrapInt64_of_small (by omega) (by omega)
  next => simp

/-- At most two characters are charged for a prefix. -/
theorem chargedPrefix_le (spec : SpecifierState) : chargedPrefix spec ≤ 2 := by
  unfold chargedPrefix
  split
  · split <;> omega
  · omega

/-- A sign takes at most one character. -/
theorem signLength_le (spec : SpecifierState) : signLength spec ≤ 1 := by
  unfold signLength
  split <;> omega

/-- The spare room, from a width and a precision below `2 ^ 30`, is far from the ends of an
`int64_t`. -/
theorem spareRoom_small {spec : SpecifierState} (hspec : spec.Regular) {pos : ℕ}
    (hpos : pos ≤ 64) : -2 ^ 30 - 3 ≤ spareRoom spec pos ∧ spareRoom spec pos < 2 ^ 30 := by
  have hwidth := hspec.width
  have hprecision := hspec.precision
  have hcharged := chargedPrefix_le spec
  have hsign := signLength_le spec
  unfold spareRoom
  omega

/-- The paddings of a number, none of whose subtractions wraps around. -/
theorem paddings_eq {spec : SpecifierState} (hspec : spec.Regular) {pos : ℕ} (hpos : pos ≤ 64) :
    paddings spec pos =
      if spec.padWithZeros && !spec.padRight then
        if spec.precision < 0 then (0, spareRoom spec pos)
        else if spec.precision < spec.width then
          (0, spec.precision - pos + spareRoom spec pos)
        else (spareRoom spec pos, spec.precision - pos)
      else (spareRoom spec pos, spec.precision - pos) := by
  have hwidth := hspec.width
  have hprecision := hspec.precision
  have hcharged := chargedPrefix_le spec
  have hspare := spareRoom_small hspec hpos
  have hmax : (if pos > spec.precision then (pos : ℤ) else spec.precision) =
      max (pos : ℤ) spec.precision := by
    split <;> omega
  have hspaces : spec.width - max (pos : ℤ) spec.precision - chargedPrefix spec -
      signLength spec = spareRoom spec pos := rfl
  unfold paddings
  simp only [hmax]
  rw [wrapInt64_of_small (z := (spec.width : ℤ)) (by omega) (by omega),
    wrapInt64_of_small (z := (spec.width : ℤ) - _) (by omega) (by omega),
    sub_chargedPrefix spec (by omega) (by omega), sub_signLength spec (by omega) (by omega),
    hspaces, wrapInt64_of_small (z := spec.precision - _) (by omega) (by omega)]
  split
  next =>
      split
      next => rfl
      next hnonneg =>
          have hunsigned : wrapUInt64 spec.precision = spec.precision.toNat := by
            unfold wrapUInt64
            rw [Int.emod_eq_of_lt (by omega) (by omega)]
          rw [hunsigned, wrapInt64_of_small (by omega) (by omega)]
          split <;> split <;> first | rfl | omega
  next => rfl

/-- Both paddings of a number are integers of 32 bits, so no conversion changes them. -/
theorem paddings_small {spec : SpecifierState} (hspec : spec.Regular) {pos : ℕ}
    (hpos : pos ≤ 64) :
    (-2 ^ 31 ≤ (paddings spec pos).1 ∧ (paddings spec pos).1 < 2 ^ 31) ∧
      -2 ^ 31 ≤ (paddings spec pos).2 ∧ (paddings spec pos).2 < 2 ^ 31 := by
  have hprecision := hspec.precision
  have hwidth := hspec.width
  have hspare := spareRoom_small hspec hpos
  rw [paddings_eq hspec hpos]
  split
  · split
    · constructor <;> omega
    · split <;> constructor <;> omega
  · constructor <;> omega

/-! ### The text of a number -/

/-- A padding of a length of 32 bits has that many characters, and none if the length is
negative. -/
theorem padding_of_small {n : ℤ} (c : Char) (h : -2 ^ 31 ≤ n ∧ n < 2 ^ 31) :
    padding n c = List.replicate n.toNat (byte c) := by
  rw [padding, wrapInt_of_small h.1 h.2]

/-- A number is printed as spaces, sign, prefix, zeros, digits and spaces. -/
theorem uintText_eq {number : ℕ} {spec : SpecifierState} (hspec : spec.Regular)
    (hlt : number < 2 ^ 64) (hprinted : ¬ (spec.precision = 0 ∧ number = 0)) :
    ∃ left right : ℕ,
      left + right = (paddings spec (digitCount spec.radix number)).1.toNat ∧
      uintText number spec = List.replicate left (byte ' ') ++
        (if spec.sign ≠ 0 then [spec.sign] else []) ++ requestedPrefix spec ++
        (List.replicate (paddings spec (digitCount spec.radix number)).2.toNat (byte '0') ++
          (buffer number spec).reverse) ++ List.replicate right (byte ' ') := by
  have hsmall := paddings_small hspec (digitCount_le hspec.one_lt hlt)
  unfold uintText
  simp only [if_neg hprinted, length_buffer hspec hlt, padding_of_small ' ' hsmall.1,
    padding_of_small '0' hsmall.2]
  cases hright : spec.padRight with
  | true =>
      refine ⟨0, (paddings spec (digitCount spec.radix number)).1.toNat, Nat.zero_add _, ?_⟩
      simp [requestedPrefix]
  | false =>
      refine ⟨(paddings spec (digitCount spec.radix number)).1.toNat, 0, Nat.add_zero _, ?_⟩
      simp [requestedPrefix]

/-! ### Lengths -/

/-- The prefix of a decimal number is empty, and charged for two characters. -/
theorem length_requestedPrefix_decimal {spec : SpecifierState} (h : spec.DecimalPrefix) :
    (requestedPrefix spec).length = 0 ∧ chargedPrefix spec = 2 := by
  obtain ⟨hput, hradix⟩ := h
  simp [requestedPrefix, chargedPrefix, hput, hradix, numberPrefix]

/-- Another prefix is as long as what is charged for it. -/
theorem length_requestedPrefix {spec : SpecifierState} (hspec : spec.Regular)
    (h : ¬ spec.DecimalPrefix) : (requestedPrefix spec).length = chargedPrefix spec := by
  unfold requestedPrefix chargedPrefix
  cases hput : spec.putPrefix with
  | false => rfl
  | true =>
      rcases hspec.radix with hradix | hradix | hradix
      · simp [hradix, numberPrefix, bytes]
      · exact absurd ⟨hput, hradix⟩ h
      · simp only [hradix, numberPrefix]
        cases spec.uppercase <;> decide

/-- The length of the text of a number of `pos` digits. -/
def printedLength (spec : SpecifierState) (pos : ℕ) : ℕ :=
  (paddings spec pos).1.toNat + signLength spec + (requestedPrefix spec).length +
    ((paddings spec pos).2.toNat + pos)

/-- The length of the text of a number, by the kind of its padding. -/
theorem printedLength_cases {spec : SpecifierState} (hspec : spec.Regular) {pos : ℕ}
    (hpos : pos ≤ 64) :
    printedLength spec pos = signLength spec + (requestedPrefix spec).length +
      if spec.ZeroPadded ∧ 0 ≤ spec.precision ∧ spec.precision < spec.width then
        pos + (spec.precision - pos + spareRoom spec pos).toNat
      else max pos spec.precision.toNat + (spareRoom spec pos).toNat := by
  have hzero : (spec.padWithZeros && !spec.padRight) = true ↔ spec.ZeroPadded := by
    simp [SpecifierState.ZeroPadded]
  unfold printedLength
  rw [paddings_eq hspec hpos]
  simp only [hzero]
  by_cases hpadded : spec.ZeroPadded
  · by_cases hnegative : spec.precision < 0
    · simp only [hpadded, hnegative, if_true, true_and]
      rw [if_neg (by omega)]
      omega
    · by_cases hwidth : spec.precision < spec.width
      · simp only [hpadded, hnegative, hwidth, if_true, if_false, true_and, and_true]
        rw [if_pos (by omega)]
        omega
      · simp only [hpadded, hnegative, hwidth, if_true, if_false, and_false]
        omega
  · simp only [hpadded, if_false, false_and]
    omega

/-- The length of the text is right exactly if the width is honoured. -/
theorem printedLength_iff {spec : SpecifierState} (hspec : spec.Regular) {pos : ℕ}
    (hone : 1 ≤ pos) (hpos : pos ≤ 64) {required : ℕ} (hrequired : required =
      signLength spec + (requestedPrefix spec).length + max pos spec.precision.toNat) :
    printedLength spec pos = max spec.width required ↔
      (required < spec.width → ¬ spec.DecimalPrefix ∧
        ¬ (spec.ZeroPadded ∧ 0 ≤ spec.precision ∧ spec.precision < pos)) ∧
      ¬ (spec.ZeroPadded ∧ pos < spec.precision ∧ spec.precision < spec.width ∧
        spec.width < signLength spec + chargedPrefix spec + spec.precision) := by
  have hspare : spareRoom spec pos = spec.width - max (pos : ℤ) spec.precision -
    chargedPrefix spec - signLength spec := rfl
  have hsign := signLength_le spec
  rw [printedLength_cases hspec hpos]
  by_cases hdecimal : spec.DecimalPrefix
  · obtain ⟨hput, hcharged⟩ := length_requestedPrefix_decimal hdecimal
    by_cases hpadded : spec.ZeroPadded
    · simp only [hdecimal, hpadded, true_and, not_true, false_and, imp_false]
      split <;> omega
    · simp only [hdecimal, hpadded, false_and, if_false, not_true, imp_false, not_false_eq_true,
        and_true]
      omega
  · have hput := length_requestedPrefix hspec hdecimal
    by_cases hpadded : spec.ZeroPadded
    · simp only [hdecimal, hpadded, true_and, not_false_eq_true]
      split <;> omega
    · simp only [hdecimal, hpadded, false_and, if_false, not_false_eq_true, and_self, implies_true,
        iff_true]
      have hmax : max (pos : ℤ) spec.precision = (max pos spec.precision.toNat : ℕ) := by omega
      rw [hmax] at hspare
      omega

/-- A text of the right length has the zeros that the precision asks for. -/
theorem precision_le_of_honoured {spec : SpecifierState} (hspec : spec.Regular) {pos : ℕ}
    (hpos : pos ≤ 64)
    (hhonoured : ¬ (spec.ZeroPadded ∧ pos < spec.precision ∧ spec.precision < spec.width ∧
      spec.width < signLength spec + chargedPrefix spec + spec.precision)) :
    spec.precision ≤ (paddings spec pos).2.toNat + pos := by
  have hspare : spareRoom spec pos = spec.width - max (pos : ℤ) spec.precision -
    chargedPrefix spec - signLength spec := rfl
  have hzero : (spec.padWithZeros && !spec.padRight) = true ↔ spec.ZeroPadded := by
    simp [SpecifierState.ZeroPadded]
  rw [paddings_eq hspec hpos]
  simp only [hzero]
  by_cases hpadded : spec.ZeroPadded
  · simp only [hpadded, true_and, if_true] at hhonoured ⊢
    split
    next => omega
    next => split <;> omega
  · simp only [hpadded, if_false]
    omega

/-- A text is not longer than the width or than what is charged for. -/
theorem printedLength_le {spec : SpecifierState} (hspec : spec.Regular) {pos : ℕ}
    (hpos : pos ≤ 64) :
    printedLength spec pos ≤
      max spec.width (signLength spec + chargedPrefix spec + max pos spec.precision.toNat) := by
  have hspare : spareRoom spec pos = spec.width - max (pos : ℤ) spec.precision -
    chargedPrefix spec - signLength spec := rfl
  have hput : (requestedPrefix spec).length ≤ chargedPrefix spec := by
    by_cases hdecimal : spec.DecimalPrefix
    · rw [(length_requestedPrefix_decimal hdecimal).1]
      exact Nat.zero_le _
    · exact (length_requestedPrefix hspec hdecimal).le
  rw [printedLength_cases hspec hpos]
  split <;> omega

/-- The text of a number has the length that is computed from its number of digits. -/
theorem length_uintText {number : ℕ} {spec : SpecifierState} (hspec : spec.Regular)
    (hlt : number < 2 ^ 64) (hprinted : ¬ (spec.precision = 0 ∧ number = 0)) :
    (uintText number spec).length = printedLength spec (digitCount spec.radix number) := by
  obtain ⟨left, right, hsum, htext⟩ := uintText_eq hspec hlt hprinted
  have hsign : (if spec.sign ≠ 0 then [spec.sign] else []).length = signLength spec := by
    unfold signLength
    split <;> rfl
  rw [htext, printedLength, ← hsum]
  simp only [List.length_append, List.length_replicate, List.length_reverse, hsign,
    length_buffer hspec hlt]
  omega

/-! ### The law -/

/-- The text of a number that is printed at all is put at `str`, byte by byte. -/
theorem placed_sprintfUint (str : ℤ) {number : ℕ} {spec : SpecifierState} (hspec : spec.Regular)
    (hlt : number < 2 ^ 64) (hprinted : ¬ (spec.precision = 0 ∧ number = 0)) :
    Placed str (sprintfUint str number spec) (uintText number spec) := by
  have hpos := digitCount_le hspec.one_lt hlt
  have hle := printedLength_le hspec hpos
  have hlength := length_uintText hspec hlt hprinted
  have hwidth := hspec.width
  have hprecision := hspec.precision
  have hcharged := chargedPrefix_le spec
  have hsign := signLength_le spec
  have hsegments := flatten_segments number spec
  rw [sprintfUint_eq, ← hsegments]
  refine Placed.foldl (t := []) ⟨rfl, rfl⟩ ?_
  rw [hsegments, List.nil_append]
  omega

/-- Two texts that are both put at `str` by the same output have the same length. -/
theorem Placed.unique {str : ℤ} {o : Out} {t u : List UInt8} (ht : Placed str o t)
    (hu : Placed str o u) : t.length = u.length := by
  have hlength := ht.printed.symm.trans hu.printed
  exact_mod_cast hlength

/-- The sign of an unsigned number is the one of the flags. -/
theorem length_sign_unsigned (n : ℕ) (spec : SpecifierState) :
    ((Number.unsigned n).sign spec).length = signLength spec := by
  simp only [Number.sign, signLength]
  split <;> rfl

/-- The width of an unsigned number is honoured exactly if its text has the right length. -/
theorem honoursWidth_unsigned_iff {number : ℕ} {spec : SpecifierState} (hspec : spec.Regular)
    (hlt : number < 2 ^ 64) :
    HonoursWidth (.unsigned number) spec ↔
      printedLength spec (digitCount spec.radix number) =
        max spec.width (requiredLength (.unsigned number) spec) := by
  unfold HonoursWidth
  rw [length_sign_unsigned]
  refine (printedLength_iff hspec (Nat.succ_pos _) (digitCount_le hspec.one_lt hlt) ?_).symm
  rw [requiredLength, length_sign_unsigned]
  rfl

/-- An unsigned number is printed as the law asks exactly if its width is honoured. -/
theorem printsNumber_unsigned_iff (str : ℤ) {number : ℕ} {spec : SpecifierState}
    (hspec : spec.Regular) (hlt : number < 2 ^ 64)
    (hprinted : ¬ (spec.precision = 0 ∧ number = 0)) :
    PrintsNumber str (.unsigned number) spec ↔ HonoursWidth (.unsigned number) spec := by
  have hplaced := placed_sprintfUint str hspec hlt hprinted
  have hlength := length_uintText hspec hlt hprinted
  constructor
  · rintro ⟨left, right, digits, hput, -, -, htotal⟩
    rw [honoursWidth_unsigned_iff hspec hlt, ← htotal, ← hlength]
    exact hplaced.unique hput
  · intro hhonours
    obtain ⟨left, right, -, htext⟩ := uintText_eq hspec hlt hprinted
    refine ⟨left, right, List.replicate
      (paddings spec (digitCount spec.radix number)).2.toNat (byte '0') ++
        (buffer number spec).reverse, ?_, ?_, ?_, ?_⟩
    · rw [htext] at hplaced
      exact hplaced
    · rw [buffer_eq hspec hlt]
      exact readBack_zeros spec.uppercase hspec.one_lt hspec.radix_le _ number
    · have hnot := hhonours.2
      rw [length_sign_unsigned] at hnot
      have hprecision := precision_le_of_honoured hspec (digitCount_le hspec.one_lt hlt) hnot
      rw [List.length_append, List.length_replicate, List.length_reverse,
        length_buffer hspec hlt]
      exact_mod_cast hprecision
    · rw [honoursWidth_unsigned_iff hspec hlt, ← hlength, htext] at hhonours
      exact hhonours

/-- What the law says about the result of `sprintf_uint`. -/
theorem PrintsNumber.printed {str : ℤ} {number : Number} {spec : SpecifierState}
    (h : PrintsNumber str number spec) :
    (sprintfNumber str number spec).printed = max spec.width (requiredLength number spec) := by
  obtain ⟨left, right, digits, hput, -, -, htotal⟩ := h
  rw [hput.printed, htotal]

/-- A number is printed as the law asks exactly if its width is honoured. -/
theorem sprintfNumber_law_iff (str : ℤ) {number : Number} {spec : SpecifierState}
    (hrange : number.InRange) (hspec : spec.Regular)
    (hprinted : ¬ (number.abs = 0 ∧ spec.precision = 0)) :
    PrintsNumber str number spec ↔ HonoursWidth number spec := by
  -- a signed number is printed like its absolute value, with a sign of its own
  obtain ⟨sign, hmagnitude, hsign⟩ := magnitude_spec spec hrange
  have hunsigned := @printsNumber_unsigned_iff str number.abs { spec with sign := sign }
    ⟨hspec.radix, hspec.width, hspec.precision⟩ hrange.abs_lt fun h => hprinted ⟨h.2, h.1⟩
  have hprints : PrintsNumber str number spec ↔
      PrintsNumber str (.unsigned number.abs) { spec with sign := sign } := by
    unfold PrintsNumber sprintfNumber requiredLength
    rw [hmagnitude, ← hsign]
    rfl
  have hhonours : HonoursWidth number spec ↔
      HonoursWidth (.unsigned number.abs) { spec with sign := sign } := by
    unfold HonoursWidth requiredLength
    rw [← hsign]
    rfl
  rw [hprints, hhonours]
  exact hunsigned

/-- `%08.4d`. -/
def zerosBeyondPrecision : SpecifierState :=
  { resetSpecifierState with
    padWithZeros := true, width := 8, precision := 4, numberSigned := true }

/-- A negative number with a width beyond its precision. -/
theorem sprintfNumber_law_negative : PrintsNumber 0 (.signed (-42)) zerosBeyondPrecision := by
  have hcount : digitCount zerosBeyondPrecision.radix (Number.signed (-42)).abs = 2 := by decide
  refine (sprintfNumber_law_iff 0 (by unfold Number.InRange; omega)
    ⟨.inr (.inl rfl), by decide, .inr (by decide)⟩ (by decide)).2 ⟨fun _ => ⟨?_, ?_⟩, ?_⟩
  · exact fun h => absurd h.1 (by decide)
  · rw [hcount]
    decide
  · rw [hcount]
    decide

/-- `%05.1d`. -/
def zerosBelowDigits : SpecifierState :=
  { resetSpecifierState with
    padWithZeros := true, width := 5, precision := 1, numberSigned := true }

/-- `%#5d`. -/
def decimalPrefix : SpecifierState :=
  { resetSpecifierState with putPrefix := true, width := 5, numberSigned := true }

/-- `%#04.3x`. -/
def zerosForPrecision : SpecifierState :=
  { resetSpecifierState with
    putPrefix := true, padWithZeros := true, width := 4, precision := 3, radix := 16 }

/-- `%05.1d` of 42 is `0042`, `%#5d` of 42 has three characters, and `%#04.3x` of 1 is `0x01`:
one of each kind of failure. -/
theorem sprintfNumber_law_fails :
    (zerosBelowDigits.Regular ∧ ¬ PrintsNumber 0 (.signed 42) zerosBelowDigits) ∧
    (decimalPrefix.Regular ∧ ¬ PrintsNumber 0 (.signed 42) decimalPrefix) ∧
    zerosForPrecision.Regular ∧ ¬ PrintsNumber 0 (.unsigned 1) zerosForPrecision := by
  refine ⟨⟨⟨.inr (.inl rfl), by decide, .inr (by decide)⟩, fun h => ?_⟩,
    ⟨⟨.inr (.inl rfl), by decide, .inl rfl⟩, fun h => ?_⟩,
    ⟨.inr (.inr rfl), by decide, .inr (by decide)⟩, fun h => ?_⟩
  · exact absurd h.printed (by decide)
  · exact absurd h.printed (by decide)
  · exact absurd h.printed (by decide)

/-! ### The predicted size -/

/-- The loop that shifts digits out counts the digits of the number in its power of two. -/
theorem shiftCount_eq {bits : ℕ} (hbits : 0 < bits) {fuel : ℕ} (number : ℕ)
    (hlt : number < 2 ^ (bits * fuel)) :
    shiftCount bits fuel number = (Nat.digits (2 ^ bits) number).length := by
  have hradix : 1 < 2 ^ bits := Nat.one_lt_two_pow (by omega)
  induction fuel generalizing number with
  | zero =>
      have hzero : number = 0 := by simpa using hlt
      rw [hzero]
      simp [shiftCount]
  | succ fuel ih =>
      rw [shiftCount]
      split
      next hpos =>
          rw [Nat.digits_def' hradix hpos, List.length_cons, Nat.shiftRight_eq_div_pow, ih]
          rw [Nat.div_lt_iff_lt_mul (by omega), ← pow_add]
          rwa [mul_add, mul_one] at hlt
      next hzero =>
          rw [Nat.eq_zero_of_not_pos hzero]
          simp

/-- The entry of the table for a number of bits is the number of digits of some number with as
many bits, less one. -/
theorem guess_spec : ∀ bits < 64,
    (guess.getD (bits + 1) 0 = 0 ∨ 10 ^ (guess.getD (bits + 1) 0 - 1) ≤ 2 ^ bits) ∧
      2 ^ (bits + 1) ≤ 10 ^ (guess.getD (bits + 1) 0 + 1) := by
  decide +kernel

/-- The table and one comparison give the number of digits in base ten. -/
theorem getNumberOfDigitsBase10_eq {number : ℕ} (hlt : number < 2 ^ 64) :
    getNumberOfDigitsBase10 number = digitCount 10 number := by
  unfold getNumberOfDigitsBase10 digitCount
  split
  next hzero => simp [hzero]
  next hpos =>
      obtain ⟨bits, hbits⟩ : ∃ bits, number.size = bits + 1 :=
        Nat.exists_eq_succ_of_ne_zero (by rwa [Ne, Nat.size_eq_zero])
      have hsize : number < 2 ^ (bits + 1) := hbits ▸ Nat.lt_size_self number
      have hge : 2 ^ bits ≤ number := Nat.lt_size.1 (by omega)
      have hbound : bits < 64 := by
        have hle := Nat.size_le.2 hlt
        omega
      obtain ⟨hlow, hhigh⟩ := guess_spec bits hbound
      simp only [hbits]
      generalize guess.getD (bits + 1) 0 = digits at *
      split
      next hmore =>
          rw [Nat.log_eq_of_pow_le_of_lt_pow hmore (hsize.trans_le hhigh)]
      next hless =>
          rcases hlow with rfl | hlow
          · exact absurd (Nat.pos_of_ne_zero hpos) (by simpa using hless)
          · have hdigits : digits ≠ 0 := by
              rintro rfl
              exact hless (Nat.pos_of_ne_zero hpos)
            rw [Nat.log_eq_of_pow_le_of_lt_pow (hlow.trans hge)
              (by rw [Nat.sub_add_cancel (by omega)]; omega)]
            omega

/-- `getNumberOfDigits` gives the least number of digits. -/
theorem getNumberOfDigits_eq {radix number : ℕ} (hradix : radix = 8 ∨ radix = 10 ∨ radix = 16)
    (hlt : number < 2 ^ 64) : getNumberOfDigits number radix = digitCount radix number := by
  have hone : 1 < radix := by omega
  unfold getNumberOfDigits
  by_cases hzero : number = 0
  · subst hzero
    rcases hradix with rfl | rfl | rfl <;> decide
  · have hcount : ∀ bits, 0 < bits → 64 ≤ bits * 64 → radix = 2 ^ bits →
        shiftCount bits 64 number = digitCount radix number := by
      rintro bits hbits hle rfl
      rw [shiftCount_eq hbits number (hlt.trans_le (Nat.pow_le_pow_right (by omega) hle)),
        Nat.length_digits _ _ hone hzero, digitCount]
    rcases hradix with rfl | rfl | rfl
    · simp only [hzero, if_false]
      exact hcount 3 (by omega) (by omega) rfl
    · simp only [if_true]
      exact getNumberOfDigitsBase10_eq hlt
    · simp only [hzero, if_false, if_true]
      exact hcount 4 (by omega) (by omega) rfl

/-- **The fast digit counts are exact**: they are the number of turns of the loop of `sprintf_uint`
that converts a number, and the length of the number without leading zeros. -/
theorem getNumberOfDigits_counts {number : ℕ} {spec : SpecifierState}
    (hradix : spec.radix = 8 ∨ spec.radix = 10 ∨ spec.radix = 16) (hlt : number < 2 ^ 64) :
    getNumberOfDigits number spec.radix = (buffer number spec).length ∧
      getNumberOfDigits number spec.radix =
        if number = 0 then 1 else (Nat.digits spec.radix number).length := by
  have hone : 1 < spec.radix := by omega
  have hbuffer : number < spec.radix ^ (127 + 1) :=
    calc number < 2 ^ 64 := hlt
      _ ≤ 2 ^ 128 := Nat.pow_le_pow_right (by omega) (by omega)
      _ ≤ spec.radix ^ 128 := Nat.pow_le_pow_left hone 128
  have hcount := getNumberOfDigits_eq hradix hlt
  refine ⟨?_, ?_⟩
  · rw [buffer, convertDigits_eq _ hone number hbuffer, List.length_map, length_numerals hone,
      hcount]
  · rw [hcount, ← length_numerals hone, numerals]
    split <;> rfl

/-- The largest number of nineteen decimal digits has as many digits as the digit loop leaves
in its buffer. -/
theorem getNumberOfDigits_counts_nineteen :
    getNumberOfDigits (10 ^ 19 - 1) 10 = (buffer (10 ^ 19 - 1) resetSpecifierState).length :=
  (@getNumberOfDigits_counts (10 ^ 19 - 1) resetSpecifierState (.inr (.inl rfl)) (by norm_num)).1

/-- The predicted size of a number: the width, or what is charged for. -/
theorem getSizeOfNumberToPrintUnsigned_eq {number : ℕ} {spec : SpecifierState}
    (hspec : spec.Regular) (hlt : number < 2 ^ 64)
    (hprinted : ¬ (spec.precision = 0 ∧ number = 0)) :
    getSizeOfNumberToPrintUnsigned number spec = max spec.width (signLength spec +
      chargedPrefix spec + max (digitCount spec.radix number) spec.precision.toNat) := by
  have hpos := digitCount_le hspec.one_lt hlt
  have hwidth := hspec.width
  have hprecision := hspec.precision
  have hcharged := chargedPrefix_le spec
  have hsign := signLength_le spec
  unfold getSizeOfNumberToPrintUnsigned
  rw [if_neg hprinted, getNumberOfDigits_eq hspec.radix hlt]
  have hmax : (if spec.precision > 0 ∧ spec.precision > digitCount spec.radix number then
      spec.precision.toNat else digitCount spec.radix number) =
      max (digitCount spec.radix number) spec.precision.toNat := by
    split <;> omega
  have hput : ∀ size < 2 ^ 32,
      (if spec.putPrefix then wadd size (if spec.radix > 9 then 2 else 1) else size) =
        size + chargedPrefix spec := by
    intro size hsize
    unfold wadd chargedPrefix
    split
    · split <;> omega
    · rfl
  have hsigned : ∀ size < 2 ^ 33,
      (if spec.sign ≠ 0 then wadd size 1 else size) = size + signLength spec := by
    intro size hsize
    unfold wadd signLength
    split <;> omega
  simp only [hmax]
  rw [hput _ (by omega), hsigned _ (by omega)]
  split <;> omega

/-- A number is printed with no more characters, and no more writes, than its predicted
size. -/
theorem sprintfNumber_le_size (str : ℤ) {number : Number} {spec : SpecifierState}
    (hrange : number.InRange) (hspec : spec.Regular) :
    (sprintfNumber str number spec).printed ≤ getSizeOfNumberToPrint number spec ∧
      (sprintfNumber str number spec).writes.length ≤ getSizeOfNumberToPrint number spec := by
  obtain ⟨sign, hmagnitude, -⟩ := magnitude_spec spec hrange
  have hregular : { spec with sign := sign }.Regular :=
    ⟨hspec.radix, hspec.width, hspec.precision⟩
  unfold sprintfNumber getSizeOfNumberToPrint
  rw [hmagnitude]
  simp only
  generalize { spec with sign := sign } = signed at hregular
  have hlt := hrange.abs_lt
  by_cases hprinted : signed.precision = 0 ∧ number.abs = 0
  · unfold sprintfUint
    rw [if_pos hprinted]
    exact ⟨Int.natCast_nonneg _, Nat.zero_le _⟩
  · have hplaced := placed_sprintfUint str hregular hlt hprinted
    have hle : (uintText number.abs signed).length ≤
        getSizeOfNumberToPrintUnsigned number.abs signed := by
      rw [length_uintText hregular hlt hprinted,
        getSizeOfNumberToPrintUnsigned_eq hregular hlt hprinted]
      exact printedLength_le hregular (digitCount_le hregular.one_lt hlt)
    rw [hplaced.printed, hplaced.writes, length_place]
    exact ⟨by exact_mod_cast hle, hle⟩

/-- The least number of 64 bits in octal, with a width and a precision. -/
theorem sprintfNumber_le_size_least :
    (sprintfNumber 0 (.signed (-2 ^ 63)) { resetSpecifierState with
        putPrefix := true, width := 30, precision := 25, radix := 8 }).printed ≤ 30 := by
  have h := (@sprintfNumber_le_size 0 (.signed (-2 ^ 63)) { resetSpecifierState with
      putPrefix := true, width := 30, precision := 25, radix := 8 }
    (by unfold Number.InRange; omega) ⟨.inl rfl, by decide, .inr (by decide)⟩).1
  have hsize : getSizeOfNumberToPrint (.signed (-2 ^ 63)) { resetSpecifierState with
      putPrefix := true, width := 30, precision := 25, radix := 8 } = 30 := by decide +kernel
  rw [hsize] at h
  exact h

end MugOS.Printf
