import Mathlib.Data.Bool.AllAny
import Mathlib.Data.List.GetD
import MugOS.Logging

/-!
# When a Dump Shows Its Bytes

The last line of a dump is put into the buffer byte by byte. For the byte at the index `i` there
seems to be room for `512 - i - offset` characters, in the arithmetic of `size_t`: enough as long as
the index is small, and again when it is so large that the difference wraps around; in between, a
byte for which there seem to be less than three characters ends the dump.

## Main results

* `Dump.snprintf_fits`: a text that fits is appended to the text in the buffer.
* `hexdump_shows_iff`: the numbers of bytes that are shown.
* `hexdump_cramped`: a number of bytes of which the last ones are not.
-/

namespace MugOS.Logging

open Printf

/-! ### The text in the buffer -/

/-- The buffer begins with a text, whatever stands behind it. -/
def Begins (buff : ℤ → UInt8) (t : List UInt8) : Prop := ∀ k < t.length, buff k = t.getD k 0

/-- The buffer holds a text and its terminator, so that it is the C string of the text. -/
def Holds (buff : ℤ → UInt8) (t : List UInt8) : Prop := ∀ k ≤ t.length, buff k = t.getD k 0

/-- A buffer that holds a text and its terminator begins with this text. -/
theorem Holds.begins {buff : ℤ → UInt8} {t : List UInt8} (h : Holds buff t) : Begins buff t :=
  fun k hk => h k hk.le

/-- The contents of the buffer after some bytes are put at an index. -/
theorem store_place (buff : ℤ → UInt8) (index : ℤ) (bs : List UInt8) (x : ℤ) :
    store buff (place index bs) x =
      if index ≤ x ∧ x < index + bs.length then bs.getD (x - index).toNat 0 else buff x := by
  induction bs generalizing buff index with
  | nil =>
      rw [if_neg (by simp)]
      rfl
  | cons b bs ih =>
      have hstep : store buff (place index (b :: bs)) x =
          store (Function.update buff index b) (place (index + 1) bs) x := rfl
      rw [hstep, ih, List.length_cons]
      rcases lt_trichotomy x index with hlt | rfl | hgt
      · rw [if_neg (by omega), if_neg (by omega), Function.update_of_ne hlt.ne]
      · rw [if_neg (by omega), if_pos (by omega), Function.update_self]
        simp
      · by_cases hx : x < index + 1 + bs.length
        · rw [if_pos (by omega), if_pos (by push_cast; omega),
            show (x - index).toNat = (x - (index + 1)).toNat + 1 by omega, List.getD_cons_succ]
        · rw [if_neg (by omega), if_neg (by push_cast; omega), Function.update_of_ne hgt.ne']

/-- Writes that are carried out one list after the other are those of the two lists in a
row. -/
theorem store_append (buff : ℤ → UInt8) (ws ws' : List (ℤ × UInt8)) :
    store buff (ws ++ ws') = store (store buff ws) ws' := by
  rw [store, List.foldl_append]
  rfl

/-- **A text that is put where another one ends**, with a terminator. -/
theorem Begins.append {buff : ℤ → UInt8} {t : List UInt8} (h : Begins buff t) (u : List UInt8) :
    Holds (store buff (place t.length u ++ [((t.length : ℤ) + u.length, 0)])) (t ++ u) := by
  intro k hk
  rw [List.length_append] at hk
  have hlast : ∀ b : ℤ → UInt8, store b [((t.length : ℤ) + u.length, 0)] k =
      if (k : ℤ) = t.length + u.length then 0 else b k := by
    intro b
    simp [store, Function.update_apply]
  rw [store_append, hlast, store_place]
  rcases Nat.lt_or_ge k t.length with hlt | hge
  · rw [if_neg (by omega), if_neg (by omega), h k hlt, List.getD_append _ _ _ _ hlt]
  · rw [List.getD_append_right _ _ _ _ hge]
    rcases Nat.lt_or_eq_of_le hk with hlt | rfl
    · rw [if_neg (by omega), if_pos (by omega),
        show ((k : ℤ) - t.length).toNat = k - t.length by omega]
    · rw [if_pos (by omega), List.getD_eq_default _ _ (by omega)]

/-- The C string in a buffer that holds a text without zero bytes is this text. -/
theorem Holds.bytes_cString {buff : ℤ → UInt8} {t : List UInt8} (h : Holds buff t)
    (hlt : t.length < buffSize) (hplain : ∀ b ∈ t, b ≠ 0) : (cString buff).bytes = t := by
  have hsplit : (List.range buffSize).map (fun k : ℕ => buff k) =
      t ++ 0 :: (List.range (buffSize - (t.length + 1))).map fun k : ℕ =>
        buff ((t.length + 1 + k : ℕ) : ℤ) := by
    refine List.ext_getElem? fun k => ?_
    rcases Nat.lt_trichotomy k t.length with hk | rfl | hk
    · rw [List.getElem?_append_left hk, List.getElem?_map, List.getElem?_range (by omega),
        Option.map_some, h k hk.le, List.getD_eq_getElem _ _ hk, List.getElem?_eq_getElem hk]
    · rw [List.getElem?_append_right le_rfl, Nat.sub_self, List.getElem?_cons_zero,
        List.getElem?_map, List.getElem?_range hlt, Option.map_some, h _ le_rfl,
        List.getD_eq_default _ _ le_rfl]
    · obtain ⟨m, rfl⟩ := Nat.exists_eq_add_of_lt hk
      rw [List.getElem?_append_right (by omega),
        show t.length + m + 1 - t.length = m + 1 by omega, List.getElem?_cons_succ]
      by_cases hm : t.length + m + 1 < buffSize
      · rw [List.getElem?_map, List.getElem?_range hm, List.getElem?_map,
          List.getElem?_range (by omega), Option.map_some, Option.map_some,
          show t.length + m + 1 = t.length + 1 + m by omega]
      · rw [List.getElem?_eq_none (by simpa using hm),
          List.getElem?_eq_none (by rw [List.length_map, List.length_range]; omega)]
  rw [cString]
  simp only [hsplit]
  rw [List.takeWhile_append_of_pos (fun b hb => by simpa using hplain b hb)]
  simp

/-! ### Formatting into the buffer -/

/-- What is put where the text in the buffer ends: the buffer holds both texts, and the writes are
inside if they fit. -/
structure Appended (d : Dump) (t u : List UInt8) (d' : Dump) : Prop where
  buff : Holds d'.buff (t ++ u)
  calls : d'.calls = d.calls
  writes : (∀ w ∈ d.writes, Inside buffSize w.1) → (t ++ u).length < buffSize →
    ∀ w ∈ d'.writes, Inside buffSize w.1

/-- The writes of a text from an index on, shifted by an offset, are those from the sum of both
on. -/
theorem map_place (offset index : ℤ) (bs : List UInt8) :
    (place index bs).map (fun w => (offset + w.1, w.2)) = place (offset + index) bs := by
  induction bs generalizing index with
  | nil => rfl
  | cons b bs ih => rw [place, place, List.map_cons, ih, add_assoc]

/-- The predicted size of every number is that of its text. -/
def Exact (ps : List Piece) : Prop :=
  ∀ n spec, Piece.number n spec ∈ ps →
    getSizeOfNumberToPrint n spec ≤ (Piece.number n spec).text.length

/-- Pieces whose sizes are predicted exactly fit a buffer if their text is shorter than it. -/
theorem Exact.fits {size : ℕ} {ps : List Piece} (h : Exact ps) (hlt : (text ps).length < size)
    (hsize : size ≤ 2 ^ 64) (hint : (text ps).length < 2 ^ 31) : Fits size ps := by
  refine ⟨hlt, hint, ?_⟩
  rintro front n spec back rfl
  have hexact := h n spec (by simp)
  rw [text_append, text_cons, List.length_append, List.length_append] at hlt
  rw [wadd, Nat.mod_eq_of_lt (by omega)]
  omega

/-- **A text that fits** is appended to the text in the buffer. -/
theorem Dump.snprintf_fits {d : Dump} {t : List UInt8} (h : Begins d.buff t) {size : ℕ}
    {format : CString} {args rest : List Arg} {ps : List Piece}
    (hmatch : pieces appendPrecisionOrReset format.bytes .normal resetSpecifierState args =
      some (ps, rest)) (hpos : 1 ≤ size) (hsize : size < 2 ^ 64) (hfits : Fits size ps) :
    ∃ d', d.snprintf t.length size format args = some (((text ps).length : ℤ), d') ∧
      Appended d t (text ps) d' := by
  obtain ⟨args', hloop, -⟩ := vsnprintfLoop_eq size true ⟨0, []⟩ hmatch
  obtain ⟨o, hemits, ho⟩ := emits_ok size true ps (⟨rfl, rfl⟩ : Placed 0 ⟨0, []⟩ [])
    (by simpa using hfits.length_lt_int)
    fun _ => ⟨hsize, by simpa using hfits.length_lt, by simpa using hfits.asked_lt⟩
  rw [List.nil_append] at ho
  rw [hemits, atEnd] at hloop
  have hne : (true && decide (size = 0)) = false := by
    rw [Bool.true_and, decide_eq_false_iff_not]
    omega
  have hwrites : (o.writes ++ [(o.printed, (0 : UInt8))]).map
      (fun w => ((t.length : ℤ) + w.1, w.2)) =
      place t.length (text ps) ++ [((t.length : ℤ) + (text ps).length, 0)] := by
    rw [List.map_append, ho.writes, map_place, ho.printed, add_zero]
    rfl
  set writes := place t.length (text ps) ++ [((t.length : ℤ) + (text ps).length, (0 : UInt8))]
  refine ⟨{ d with buff := store d.buff writes, writes := d.writes ++ writes }, ?_,
    ⟨h.append (text ps), rfl, ?_⟩⟩
  · rw [Dump.snprintf, vsnprintfInternal, hne]
    simp only [Bool.false_eq_true, if_false, hloop, Option.map_some, hwrites]
    rw [ho.printed]
  · intro hinside hlt w hw
    rw [List.length_append] at hlt
    rcases List.mem_append.mp hw with hw | hw
    · exact hinside w hw
    · unfold Inside
      rcases List.mem_append.mp hw with hw | hw
      · obtain ⟨k, hk, hindex⟩ := index_of_mem_place hw
        omega
      · rw [List.mem_singleton.mp hw]
        omega

/-! ### The formats -/

/-- A hexadecimal number of a fixed number of digits. -/
def hexSpec (putPrefix : Bool) (digits : ℕ) (length : Length) : SpecifierState :=
  { resetSpecifierState with
    putPrefix := putPrefix, precision := digits, length := length, radix := 16 }

/-- `%.2hhx`. -/
def byteSpec : SpecifierState := hexSpec false 2 .shortShort

/-- `%#.8x`. -/
def offsetSpec : SpecifierState := hexSpec true 8 .default

/-- The text of a byte: its two hexadecimal digits. -/
def byteText (b : UInt8) : List UInt8 := uintText b.toNat byteSpec

/-- The text of an offset: its eight hexadecimal digits, behind `0x`. -/
def offsetText (i : ℕ) : List UInt8 := uintText i offsetSpec

/-- An unsigned argument below `2 ^ 32` is read back as itself, for a length that takes an
`int`. -/
theorem vaNumber_intArg {n : ℕ} (hn : n < 2 ^ 32) (spec : SpecifierState)
    (hlength : spec.length = .default ∨ spec.length = .shortShort)
    (hsigned : spec.numberSigned = false) (args : List Arg) :
    vaNumber spec (intArg n :: args) = some (.unsigned n, args) := by
  have hword : ((BitVec.ofNat 64 n).setWidth 32).toNat = n := by
    rw [BitVec.toNat_setWidth, BitVec.toNat_ofNat]
    omega
  unfold intArg vaNumber vaWord
  rw [Option.map_some, hword, hsigned]
  rcases hlength with hlength | hlength <;> rw [hlength] <;> rfl

/-- A character of a format that is not a `'%'` is a piece of its own, in front of the pieces
of the rest. -/
theorem pieces_char {c : UInt8} (hc : chr c ≠ '%') (format : List UInt8) (args : List Arg) :
    pieces appendPrecisionOrReset (c :: format) .normal resetSpecifierState args =
      (pieces appendPrecisionOrReset format .normal resetSpecifierState args).map
        fun r => (.char c :: r.1, r.2) := by
  rw [pieces, scan, if_neg hc]

/-- The conversion `%.2hhx` with a byte is a number with two hexadecimal digits, in front of
the pieces of the rest. -/
theorem pieces_byte (b : UInt8) (format : List UInt8) (args : List Arg) :
    pieces appendPrecisionOrReset (bytes "%.2hhx" ++ format) .normal resetSpecifierState
        (intArg b.toNat :: args) =
      (pieces appendPrecisionOrReset format .normal resetSpecifierState args).map
        fun r => (.number (.unsigned b.toNat) byteSpec :: r.1, r.2) := by
  have hb := b.toNat_lt
  have hargs := vaNumber_intArg (n := b.toNat) (by omega) byteSpec (.inr rfl) rfl args
  have hbytes : bytes "%.2hhx" = [37, 46, 50, 104, 104, 120] := by decide
  set spec₁ : SpecifierState := { resetSpecifierState with precision := 2 } with hspec₁
  have hscan : ∀ args,
      scan appendPrecisionOrReset .normal resetSpecifierState 37 args =
        some (.next .flags resetSpecifierState args) ∧
      scan appendPrecisionOrReset .flags resetSpecifierState 46 args =
        some (.next .precision { resetSpecifierState with precision := 0 } args) ∧
      scan appendPrecisionOrReset .precision { resetSpecifierState with precision := 0 } 50 args =
        some (.next .precision { resetSpecifierState with
          precision := appendPrecisionOrReset 0 2 } args) ∧
      scan appendPrecisionOrReset .precision spec₁ 104 args =
        some (.next .lengthShort { spec₁ with length := .short } args) ∧
      scan appendPrecisionOrReset .lengthShort { spec₁ with length := .short } 104 args =
        some (.next .spec { spec₁ with length := .shortShort } args) ∧
      scan appendPrecisionOrReset .spec { spec₁ with length := .shortShort } 120 args =
        some (.convert { spec₁ with length := .shortShort }) :=
    fun _ => ⟨rfl, rfl, rfl, rfl, rfl, rfl⟩
  obtain ⟨h₁, h₂, h₃, h₄, h₅, h₆⟩ := hscan (intArg b.toNat :: args)
  have hpiece : piece { spec₁ with length := .shortShort } 120 (intArg b.toNat :: args) =
      (vaNumber byteSpec (intArg b.toNat :: args)).map
        fun r => ([Piece.number r.1 byteSpec], r.2) := rfl
  have happend : appendPrecisionOrReset 0 2 = 2 := by decide
  rw [happend] at h₃
  rw [hargs] at hpiece
  rw [hbytes]
  simp only [List.cons_append, List.nil_append, pieces, h₁, h₂, h₃, ← hspec₁, h₄, h₅, h₆, hpiece,
    Option.map_some]

/-- The conversion `%#.8x` with an offset is a number with eight hexadecimal digits, in front
of the pieces of the rest. -/
theorem pieces_offset {i : ℕ} (hi : i < 2 ^ 32) (format : List UInt8) (args : List Arg) :
    pieces appendPrecisionOrReset (bytes "%#.8x" ++ format) .normal resetSpecifierState
        (intArg i :: args) =
      (pieces appendPrecisionOrReset format .normal resetSpecifierState args).map
        fun r => (.number (.unsigned i) offsetSpec :: r.1, r.2) := by
  have hargs := vaNumber_intArg hi offsetSpec (.inl rfl) rfl args
  have hbytes : bytes "%#.8x" = [37, 35, 46, 56, 120] := by decide
  set spec₁ : SpecifierState := { resetSpecifierState with putPrefix := true } with hspec₁
  have hscan : ∀ args,
      scan appendPrecisionOrReset .normal resetSpecifierState 37 args =
        some (.next .flags resetSpecifierState args) ∧
      scan appendPrecisionOrReset .flags resetSpecifierState 35 args =
        some (.next .flags spec₁ args) ∧
      scan appendPrecisionOrReset .flags spec₁ 46 args =
        some (.next .precision { spec₁ with precision := 0 } args) ∧
      scan appendPrecisionOrReset .precision { spec₁ with precision := 0 } 56 args =
        some (.next .precision { spec₁ with precision := appendPrecisionOrReset 0 8 } args) ∧
      scan appendPrecisionOrReset .precision { spec₁ with precision := 8 } 120 args =
        some (.convert { spec₁ with precision := 8 }) :=
    fun _ => ⟨rfl, rfl, rfl, rfl, rfl⟩
  obtain ⟨h₁, h₂, h₃, h₄, h₅⟩ := hscan (intArg i :: args)
  have hpiece : piece { spec₁ with precision := 8 } 120 (intArg i :: args) =
      (vaNumber offsetSpec (intArg i :: args)).map
        fun r => ([Piece.number r.1 offsetSpec], r.2) := rfl
  have happend : appendPrecisionOrReset 0 8 = 8 := by decide
  rw [happend] at h₄
  rw [hargs] at hpiece
  rw [hbytes]
  simp only [List.cons_append, List.nil_append, pieces, h₁, h₂, h₃, h₄, h₅, hpiece,
    Option.map_some]

/-! ### Hexadecimal digits -/

/-- **A number of a fixed number of digits** is printed with as many, and predicted so. -/
theorem uintText_hexSpec (putPrefix : Bool) {digits number : ℕ} (length : Length)
    (hpos : 1 ≤ digits) (hle : digits ≤ 16) (hlt : number < 16 ^ digits) :
    ∃ ds : List UInt8, ds.length = digits ∧ readBack 16 ds = some number ∧
      uintText number (hexSpec putPrefix digits length) =
        (if putPrefix then bytes "0x" else []) ++ ds ∧
      getSizeOfNumberToPrintUnsigned number (hexSpec putPrefix digits length) =
        (uintText number (hexSpec putPrefix digits length)).length := by
  set spec := hexSpec putPrefix digits length with hspec
  have hregular : spec.Regular :=
    ⟨.inr (.inr rfl), show 0 < 2 ^ 30 by norm_num, .inr ⟨Int.natCast_nonneg _, by
      have : spec.precision = (digits : ℤ) := rfl
      omega⟩⟩
  have hword : number < 2 ^ 64 :=
    calc number < 16 ^ digits := hlt
      _ ≤ 16 ^ 16 := Nat.pow_le_pow_right (by omega) hle
      _ = 2 ^ 64 := by norm_num
  have hcount : digitCount 16 number ≤ digits := by
    rw [digitCount]
    exact Nat.log_lt_of_lt_pow' (by omega) hlt
  have hcount64 : digitCount 16 number ≤ 64 := digitCount_le (by omega) hword
  have hprinted : ¬ (spec.precision = 0 ∧ number = 0) := by
    rintro ⟨h0, -⟩
    have : (digits : ℤ) = 0 := h0
    omega
  obtain ⟨left, right, hsum, htext⟩ := uintText_eq hregular hword hprinted
  have hpad : paddings spec (digitCount 16 number) =
      (spareRoom spec (digitCount 16 number), (digits : ℤ) - digitCount 16 number) := by
    rw [paddings_eq hregular hcount64]
    rfl
  have hspare : spareRoom spec (digitCount 16 number) ≤ 0 := by
    unfold spareRoom
    have hwidth : (spec.width : ℤ) = 0 := rfl
    have hprecision : spec.precision = (digits : ℤ) := rfl
    omega
  have hradix : spec.radix = 16 := rfl
  rw [hradix, hpad] at hsum htext
  obtain ⟨rfl, rfl⟩ : left = 0 ∧ right = 0 := by
    simp only at hsum
    omega
  have hzeros := @readBack_zeros 16 false (by omega) le_rfl
    ((digits : ℤ) - digitCount 16 number).toNat number
  have hbuffer : buffer number spec =
      (numerals 16 number).map fun k => (hexChars false).getD k 0 := buffer_eq hregular hword
  have hlength : (List.replicate ((digits : ℤ) - digitCount 16 number).toNat (byte '0') ++
      (buffer number spec).reverse).length = digits := by
    rw [List.length_append, List.length_replicate, List.length_reverse,
      length_buffer hregular hword, hradix]
    omega
  have hprefix : requestedPrefix spec = if putPrefix then bytes "0x" else [] := by
    rw [requestedPrefix]
    rfl
  have htext' : uintText number spec = (if putPrefix then bytes "0x" else []) ++
      (List.replicate ((digits : ℤ) - digitCount 16 number).toNat (byte '0') ++
        (buffer number spec).reverse) := by
    rw [htext, hprefix]
    simp [hspec, hexSpec, resetSpecifierState]
  refine ⟨_, hlength, by rw [hbuffer]; exact hzeros, htext', ?_⟩
  rw [getSizeOfNumberToPrintUnsigned_eq hregular hword hprinted, htext', List.length_append,
    hlength]
  have hcharged : chargedPrefix spec = (if putPrefix then bytes "0x" else []).length := by
    cases putPrefix <;> rfl
  have hsign : signLength spec = 0 := rfl
  have hprecision : spec.precision.toNat = digits := rfl
  have hwidth : spec.width = 0 := rfl
  rw [hcharged, hsign, hprecision, hwidth, hradix]
  omega

/-- Digits that are read back are neither terminators nor spaces. -/
theorem plain_of_readBack {ds : List UInt8} {number : ℕ} (h : readBack 16 ds = some number)
    {c : UInt8}
    (hc : c ∈ ds) : c ≠ 0 ∧ c ≠ 32 := by
  have hall : ∀ (l : List UInt8) (ks : List ℕ), l.mapM (digitValue 16) = some ks →
      ∀ c ∈ l, (digitValue 16 c).isSome := by
    intro l
    induction l with
    | nil => intro ks _ c hc; simp at hc
    | cons a l ih =>
        intro ks hks c hc
        rw [List.mapM_cons] at hks
        obtain ⟨v, hv, hrest⟩ := Option.bind_eq_some_iff.mp hks
        obtain ⟨vs, hvs, -⟩ := Option.bind_eq_some_iff.mp hrest
        rcases List.mem_cons.mp hc with rfl | hc
        · rw [hv]
          rfl
        · exact ih vs hvs c hc
  unfold readBack at h
  obtain ⟨ks, hks, -⟩ := Option.map_eq_some_iff.mp h
  have hsome := hall _ ks hks c (List.mem_reverse.mpr hc)
  constructor
  · rintro rfl
    exact absurd hsome (by decide)
  · rintro rfl
    exact absurd hsome (by decide)

/-- The text of a byte: two digits, which the formatter predicts. -/
theorem byteText_spec (b : UInt8) :
    (∃ x y, byteText b = [x, y] ∧ x ≠ 0 ∧ y ≠ 0 ∧ x ≠ 32 ∧ readBack 16 [x, y] = some b.toNat) ∧
      getSizeOfNumberToPrint (.unsigned b.toNat) byteSpec = (byteText b).length := by
  have hb := b.toNat_lt
  obtain ⟨ds, hlength, hread, htext, hsize⟩ := uintText_hexSpec false .shortShort
    (show 1 ≤ 2 by omega) (by omega) (show b.toNat < 16 ^ 2 by omega)
  obtain ⟨x, y, rfl⟩ := List.length_eq_two.mp hlength
  refine ⟨⟨x, y, htext, ?_, ?_, ?_, hread⟩, hsize⟩
  · exact (plain_of_readBack hread (by simp)).1
  · exact (plain_of_readBack hread (by simp)).1
  · exact (plain_of_readBack hread (by simp)).2

/-- The text of an offset: eight digits after the prefix, which the formatter predicts. -/
theorem offsetText_spec {i : ℕ} (hi : i < 2 ^ 32) :
    (∃ ds : List UInt8, offsetText i = bytes "0x" ++ ds ∧ ds.length = 8 ∧
      readBack 16 ds = some i) ∧
      getSizeOfNumberToPrint (.unsigned i) offsetSpec = (offsetText i).length := by
  obtain ⟨ds, hlength, hread, htext, hsize⟩ := uintText_hexSpec true .default
    (show 1 ≤ 8 by omega) (by omega) (show i < 16 ^ 8 by norm_num; omega)
  exact ⟨⟨ds, htext, hlength, hread⟩, hsize⟩

/-! ### The texts of the formats -/

/-- A format and its arguments stand for a text, whose numbers have their predicted sizes. -/
def Formats (format : List UInt8) (args : List Arg) (t : List UInt8) : Prop :=
  ∃ ps rest, pieces appendPrecisionOrReset format .normal resetSpecifierState args =
    some (ps, rest) ∧ Exact ps ∧ text ps = t

/-- The empty format with no arguments formats to the empty text. -/
theorem Formats.nil : Formats [] [] [] :=
  ⟨[], [], rfl, fun _ _ h => absurd h List.not_mem_nil, rfl⟩

/-- Characters in front of a format that are not a `'%'` are put in front of its text. -/
theorem Formats.chars {format : List UInt8} {args : List Arg} {t : List UInt8}
    (h : Formats format args t) {cs : List UInt8} (hcs : ∀ c ∈ cs, chr c ≠ '%') :
    Formats (cs ++ format) args (cs ++ t) := by
  induction cs with
  | nil => exact h
  | cons c cs ih =>
      obtain ⟨ps, rest, hps, hexact, htext⟩ := ih fun c' hc' => hcs c' (List.mem_cons_of_mem _ hc')
      refine ⟨.char c :: ps, rest, ?_, ?_, ?_⟩
      · rw [List.cons_append, pieces_char (hcs c List.mem_cons_self), hps]
        rfl
      · intro n spec hmem
        exact hexact n spec (by simpa using hmem)
      · rw [text_cons, htext]
        rfl

/-- A `%.2hhx` in front of a format puts the two digits of its byte in front of the text. -/
theorem Formats.byte {format : List UInt8} {args : List Arg} {t : List UInt8}
    (h : Formats format args t) (b : UInt8) :
    Formats (bytes "%.2hhx" ++ format) (intArg b.toNat :: args) (byteText b ++ t) := by
  obtain ⟨ps, rest, hps, hexact, rfl⟩ := h
  refine ⟨.number (.unsigned b.toNat) byteSpec :: ps, rest, by rw [pieces_byte, hps]; rfl, ?_, rfl⟩
  intro n spec hmem
  rcases List.mem_cons.mp hmem with heq | hmem
  · obtain ⟨rfl, rfl⟩ := Piece.number.inj heq
    exact (byteText_spec b).2.le
  · exact hexact n spec hmem

/-- A `%#.8x` in front of a format puts the digits of its offset in front of the text. -/
theorem Formats.offset {format : List UInt8} {args : List Arg} {t : List UInt8}
    (h : Formats format args t) {i : ℕ} (hi : i < 2 ^ 32) :
    Formats (bytes "%#.8x" ++ format) (intArg i :: args) (offsetText i ++ t) := by
  obtain ⟨ps, rest, hps, hexact, rfl⟩ := h
  refine ⟨.number (.unsigned i) offsetSpec :: ps, rest, by rw [pieces_offset hi, hps]; rfl, ?_, rfl⟩
  intro n spec hmem
  rcases List.mem_cons.mp hmem with heq | hmem
  · obtain ⟨rfl, rfl⟩ := Piece.number.inj heq
    exact (offsetText_spec hi).2.le
  · exact hexact n spec hmem

/-- The beginning of a line: the name of the function and the offset. -/
def headText (i : ℕ) : List UInt8 := bytes "Hexdump: " ++ (offsetText i ++ bytes " - ")

/-- Byte fields, each with what separates it from the next. -/
def fieldsText (fields : List (UInt8 × List UInt8)) : List UInt8 :=
  fields.flatMap fun f => byteText f.1 ++ f.2

/-- The beginning of the format of a line puts the offset of the line and its spaces in front
of the text. -/
theorem Formats.head {format : List UInt8} {args : List Arg} {t : List UInt8}
    (h : Formats format args t) {i : ℕ} (hi : i < 2 ^ 32) :
    Formats (headFormat.bytes ++ format) (intArg i :: args) (headText i ++ t) := by
  have hformat : headFormat.bytes = bytes "Hexdump: " ++ (bytes "%#.8x" ++ bytes " - ") := by
    decide
  rw [hformat, headText]
  simp only [List.append_assoc]
  have hhead : ∀ c ∈ bytes "Hexdump: ", chr c ≠ '%' := List.all_iff_forall_prop.mp (by decide)
  have hdash : ∀ c ∈ bytes " - ", chr c ≠ '%' := List.all_iff_forall_prop.mp (by decide)
  exact ((h.chars hdash).offset hi).chars hhead

/-- A format of byte fields, each followed by spaces, formats its bytes to the text of these
fields. -/
theorem Formats.fields (fields : List (UInt8 × List UInt8))
    (hspaces : ∀ f ∈ fields, ∀ c ∈ f.2, c = 32) :
    Formats (fields.flatMap fun f => bytes "%.2hhx" ++ f.2)
      (fields.map fun f => intArg f.1.toNat) (fieldsText fields) := by
  induction fields with
  | nil => exact .nil
  | cons f fields ih =>
      rw [List.flatMap_cons, List.map_cons, fieldsText, List.flatMap_cons, List.append_assoc,
        List.append_assoc]
      refine ((ih fun g hg => hspaces g (List.mem_cons_of_mem _ hg)).chars fun c hc => ?_).byte f.1
      rw [hspaces f List.mem_cons_self c hc]
      decide

/-- **A format is appended** to the text in the buffer if its text fits. -/
theorem Dump.snprintf_formats {d : Dump} {t : List UInt8} (h : Begins d.buff t) {size : ℕ}
    {format : CString} {args : List Arg} {u : List UInt8} (hformat : Formats format.bytes args u)
    (hlt : u.length < size) (hsize : size < 2 ^ 64) (hint : u.length < 2 ^ 31) :
    ∃ d', d.snprintf t.length size format args = some ((u.length : ℤ), d') ∧ Appended d t u d' := by
  obtain ⟨ps, rest, hps, hexact, rfl⟩ := hformat
  exact d.snprintf_fits h hps (by omega) hsize (hexact.fits hlt hsize.le hint)

/-! ### Reading a line -/

/-- Reading fields from the two digits of a byte and a further text gives this byte in front of
the fields of the text. -/
theorem readFields_byteText (b : UInt8) (t : List UInt8) :
    readFields (byteText b ++ t) = (readFields t).map (b :: ·) := by
  obtain ⟨⟨x, y, htext, -, -, hspace, hread⟩, -⟩ := byteText_spec b
  rw [htext, List.cons_append, List.cons_append, List.nil_append, readFields, if_neg hspace, hread]
  cases readFields t <;> simp

/-- Spaces in front of a text do not change the fields that are read from it. -/
theorem readFields_spaces {cs : List UInt8} (hcs : ∀ c ∈ cs, c = 32) (t : List UInt8) :
    readFields (cs ++ t) = readFields t := by
  induction cs with
  | nil => rfl
  | cons c cs ih =>
      rw [List.cons_append, readFields.eq_def]
      simp only
      rw [if_pos (hcs c List.mem_cons_self), ih fun c' hc' => hcs c' (List.mem_cons_of_mem _ hc')]

/-- **Byte fields** that are separated by spaces are read back from their text. -/
theorem readFields_fieldsText {fields : List (UInt8 × List UInt8)}
    (hspaces : ∀ f ∈ fields, ∀ c ∈ f.2, c = 32) :
    readFields (fieldsText fields) = some (fields.map Prod.fst) := by
  induction fields with
  | nil => rfl
  | cons f fields ih =>
      have ih := ih fun g hg => hspaces g (List.mem_cons_of_mem _ hg)
      rw [fieldsText] at ih
      rw [fieldsText, List.flatMap_cons, List.append_assoc, readFields_byteText,
        readFields_spaces (hspaces f List.mem_cons_self), ih]
      rfl

/-- **A line** is read back as its offset and the fields behind it. -/
theorem readLine_headText {i : ℕ} (hi : i < 2 ^ 32) (t : List UInt8) :
    readLine (headText i ++ t) = (readFields t).map (i, ·) := by
  obtain ⟨⟨ds, htext, hlength, hread⟩, -⟩ := offsetText_spec hi
  have hbytes : bytes "Hexdump: 0x" = bytes "Hexdump: " ++ bytes "0x" := by decide
  have hfirst : (bytes "Hexdump: 0x").length = 11 := by decide
  have hdash : (bytes " - ").length = 3 := by decide
  have hline : headText i ++ t = bytes "Hexdump: 0x" ++ (ds ++ (bytes " - " ++ t)) := by
    rw [headText, htext, hbytes]
    simp only [List.append_assoc]
  have hline₁₉ : headText i ++ t = (bytes "Hexdump: 0x" ++ ds) ++ (bytes " - " ++ t) := by
    rw [hline, List.append_assoc]
  have hline₂₂ : headText i ++ t = (bytes "Hexdump: 0x" ++ ds ++ bytes " - ") ++ t := by
    rw [hline₁₉]
    simp only [List.append_assoc]
  have htake : (headText i ++ t).take 11 = bytes "Hexdump: 0x" := by
    rw [hline, List.take_left' hfirst]
  have hdigits : ((headText i ++ t).drop 11).take 8 = ds := by
    rw [hline, List.drop_left' hfirst, List.take_left' hlength]
  have hmiddle : ((headText i ++ t).drop 19).take 3 = bytes " - " := by
    rw [hline₁₉, List.drop_left' (by rw [List.length_append, hfirst, hlength]),
      List.take_left' hdash]
  have hrest : (headText i ++ t).drop 22 = t := by
    rw [hline₂₂, List.drop_left' (by rw [List.length_append, List.length_append, hfirst, hlength,
      hdash])]
  rw [readLine, htake, hdigits, hmiddle, hrest, if_pos ⟨rfl, rfl⟩, hread]
  cases readFields t <;> rfl

/-- The beginning of a line, with the offset and its spaces, has 22 characters. -/
theorem length_headText {i : ℕ} (hi : i < 2 ^ 32) : (headText i).length = 22 := by
  obtain ⟨⟨ds, htext, hlength, -⟩, -⟩ := offsetText_spec hi
  rw [headText, htext, List.length_append, List.length_append, List.length_append, hlength]
  rfl

/-- The text of byte fields has two characters for each field, and the spaces behind it. -/
theorem length_fieldsText (fields : List (UInt8 × List UInt8)) :
    (fieldsText fields).length = 2 * fields.length + (fields.map fun f => f.2.length).sum := by
  induction fields with
  | nil => rfl
  | cons f fields ih =>
      obtain ⟨⟨x, y, htext, -⟩, -⟩ := byteText_spec f.1
      rw [fieldsText] at ih
      rw [fieldsText, List.flatMap_cons, List.length_append, List.length_append, ih, htext,
        List.map_cons, List.sum_cons, List.length_cons, List.length_cons, List.length_cons,
        List.length_nil]
      omega

/-- Neither the beginning of a line nor its fields contain a zero byte, so a buffer holds them
as one string. -/
theorem plain_line {i : ℕ} (hi : i < 2 ^ 32) {fields : List (UInt8 × List UInt8)}
    (hspaces : ∀ f ∈ fields, ∀ c ∈ f.2, c = 32) : ∀ b ∈ headText i ++ fieldsText fields, b ≠ 0 := by
  obtain ⟨⟨ds, htext, -, hread⟩, -⟩ := offsetText_spec hi
  intro b hb
  rw [headText, htext, fieldsText] at hb
  simp only [List.mem_append, List.mem_flatMap] at hb
  rcases hb with (hb | (hb | hb) | hb) | ⟨f, hf, hb | hb⟩
  · exact (show ∀ b ∈ bytes "Hexdump: ", b ≠ 0 from List.all_iff_forall_prop.mp (by decide)) b hb
  · exact (show ∀ b ∈ bytes "0x", b ≠ 0 from List.all_iff_forall_prop.mp (by decide)) b hb
  · exact (plain_of_readBack hread hb).1
  · exact (show ∀ b ∈ bytes " - ", b ≠ 0 from List.all_iff_forall_prop.mp (by decide)) b hb
  · obtain ⟨⟨x, y, hfield, hx, hy, -⟩, -⟩ := byteText_spec f.1
    rw [hfield] at hb
    rcases List.mem_cons.mp hb with rfl | hb
    · exact hx
    · rw [List.mem_singleton.mp hb]
      exact hy
  · rw [hspaces f hf b hb]
    decide

/-! ### Logging a line -/

/-- A call of `log` with a format and arguments shows the text that they format to. -/
theorem Formats.text_eq {format : CString} {args : List Arg} {t : List UInt8}
    (h : Formats format.bytes args t) (logLevel : ℤ) (moduleName : Option CString) :
    LogCall.text ⟨logLevel, moduleName, format, args⟩ = some t := by
  obtain ⟨ps, rest, hps, -, rfl⟩ := h
  rw [LogCall.text, hps]
  rfl

/-- A buffer that holds a line is logged as this line, and is read back as its offset and
bytes. -/
theorem Holds.text_logBuff {buff : ℤ → UInt8} {i : ℕ} (hi : i < 2 ^ 32)
    {fields : List (UInt8 × List UInt8)} (h : Holds buff (headText i ++ fieldsText fields))
    (hspaces : ∀ f ∈ fields, ∀ c ∈ f.2, c = 32)
    (hlt : (headText i ++ fieldsText fields).length < buffSize) (logLevel : ℤ)
    (moduleName : Option CString) :
    (LogCall.text ⟨logLevel, moduleName, stringFormat,
        [.str (some (cString buff))]⟩).bind readLine =
      some (i, fields.map Prod.fst) := by
  have htext : LogCall.text ⟨logLevel, moduleName, stringFormat, [.str (some (cString buff))]⟩ =
      some ((cString buff).bytes ++ []) := rfl
  rw [htext, List.append_nil, h.bytes_cString hlt (plain_line hi hspaces), Option.bind_some,
    readLine_headText hi, readFields_fieldsText hspaces]
  rfl

/-! ### The full lines -/

section

variable (logLevel : ℤ) (moduleName : Option CString) (data : ℕ → UInt8)

/-- What separates a byte of a full line from the next. -/
def lineSpace (k : ℕ) : List UInt8 := if k = 15 then [] else if k = 7 then [32, 32] else [32]

/-- The fields of a full line: its sixteen bytes, each with the spaces behind it. -/
def lineFields (i : ℕ) : List (UInt8 × List UInt8) :=
  (List.range 16).map fun k => (data (i + k), lineSpace k)

/-- The bytes of a line of the data, from an offset on. -/
def lineBytes (i count : ℕ) : List UInt8 := (List.range count).map fun k => data (i + k)

/-- Some lines are logged: the calls of `log` so far show these lines and no others. -/
structure Logged (lines : ℕ) (d : Dump) : Prop where
  calls : ∀ c ∈ d.calls, c.logLevel = logLevel ∧ c.moduleName = moduleName
  lines : (d.calls.map fun c => c.text.bind readLine) =
    (List.range lines).map fun k => some (16 * k, lineBytes data (16 * k) 16)
  writes : ∀ w ∈ d.writes, Inside buffSize w.1

variable {logLevel moduleName data}

/-- The fields of a full line are separated by spaces. -/
theorem lineFields_spaces (i : ℕ) : ∀ f ∈ lineFields data i, ∀ c ∈ f.2, c = 32 := by
  intro f hf
  obtain ⟨k, hk, rfl⟩ := List.mem_map.mp hf
  rw [List.mem_range] at hk
  have hspaces : ∀ k < 16, (lineSpace k).all (· = 32) = true := by decide
  exact List.all_iff_forall_prop.mp (hspaces k hk)

variable (data) in
/-- **The format of a full line** formats an offset and its sixteen bytes to the text of this
line. -/
theorem formats_line {i : ℕ} (hi : i < 2 ^ 32) :
    Formats lineFormat.bytes (intArg i :: (List.range 16).map fun k => intArg (data (i + k)).toNat)
      (headText i ++ fieldsText (lineFields data i)) := by
  have hformat : lineFormat.bytes = headFormat.bytes ++
      (lineFields data i).flatMap fun f => bytes "%.2hhx" ++ f.2 := by
    rw [lineFields, List.flatMap_map]
    exact (show lineFormat.bytes = headFormat.bytes ++
      (List.range 16).flatMap fun k => bytes "%.2hhx" ++ lineSpace k by decide +kernel)
  have hargs : ((List.range 16).map fun k => intArg (data (i + k)).toNat) =
      (lineFields data i).map fun f => intArg f.1.toNat := by
    rw [lineFields, List.map_map]
    rfl
  rw [hformat, hargs]
  exact (Formats.fields _ (lineFields_spaces i)).head hi

variable (data) in
/-- A full line has 70 characters, fewer than the buffer has. -/
theorem length_line {i : ℕ} (hi : i < 2 ^ 32) :
    (headText i ++ fieldsText (lineFields data i)).length = 70 := by
  have hsum : ((lineFields data i).map fun f => f.2.length).sum = 16 := by
    rw [lineFields, List.map_map]
    exact (show ((List.range 16).map fun k => (lineSpace k).length).sum = 16 by decide +kernel)
  rw [List.length_append, length_headText hi, length_fieldsText, hsum, lineFields, List.length_map,
    List.length_range]

/-- **A full line is logged**: its `snprintf` returns 70, and what is logged then has one line
more. -/
theorem Logged.line {lines : ℕ} {d : Dump} (h : Logged logLevel moduleName data lines d)
    (hi : 16 * lines < 2 ^ 32) :
    ∃ d', d.snprintf 0 buffSize lineFormat (intArg (16 * lines) ::
        (List.range 16).map fun k => intArg (data (16 * lines + k)).toNat) = some (70, d') ∧
      Logged logLevel moduleName data (lines + 1) (d'.logBuff logLevel moduleName) := by
  have hlength := length_line data hi
  obtain ⟨d', hd', happ⟩ := d.snprintf_formats (t := []) (fun k hk => absurd hk (by simp))
    (formats_line data hi) (show _ < buffSize by rw [hlength]; decide) (by decide)
    (by rw [hlength]; norm_num)
  rw [hlength] at hd'
  refine ⟨d', hd', ⟨?_, ?_, happ.writes h.writes (by rw [List.nil_append, hlength]; decide)⟩⟩
  · intro c hc
    rw [Dump.logBuff, Dump.log, happ.calls] at hc
    rcases List.mem_append.mp hc with hc | hc
    · exact h.calls c hc
    · rw [List.mem_singleton.mp hc]
      exact ⟨rfl, rfl⟩
  · have hbuff : Holds d'.buff
        (headText (16 * lines) ++ fieldsText (lineFields data (16 * lines))) :=
      happ.buff
    have hline := hbuff.text_logBuff hi (lineFields_spaces _) (by rw [hlength]; decide) logLevel
      moduleName
    rw [Dump.logBuff, Dump.log, happ.calls, List.map_append, h.lines, List.range_succ (n := lines),
      List.map_append]
    have hbytes : (lineFields data (16 * lines)).map Prod.fst = lineBytes data (16 * lines) 16 := by
      rw [lineFields, lineBytes, List.map_map]
      rfl
    rw [hbytes] at hline
    simp only [List.map_cons, List.map_nil, hline]

/-- **The loop over the full lines** logs all of them. -/
theorem dumpLines_logs {n : ℕ} (hn : n < 2 ^ 31) {rounds lines : ℕ} {d : Dump}
    (h : Logged logLevel moduleName data lines d) (hle : lines ≤ n / 16)
    (hrounds : n / 16 ≤ lines + rounds) :
    ∃ d', dumpLines logLevel moduleName data n rounds (16 * lines) d =
        some (.ok (16 * (n / 16), d')) ∧ Logged logLevel moduleName data (n / 16) d' := by
  induction rounds generalizing lines d with
  | zero =>
      obtain rfl : lines = n / 16 := by omega
      refine ⟨d, ?_, h⟩
      unfold dumpLines
      rw [if_neg (by omega)]
  | succ rounds ih =>
      unfold dumpLines
      by_cases hlast : lines = n / 16
      · subst hlast
        rw [if_neg (by omega)]
        exact ⟨d, rfl, h⟩
      · obtain ⟨d₁, hline, h₁⟩ := h.line (by omega)
        rw [if_pos (by omega), hline]
        simp only
        rw [if_neg (by decide)]
        obtain ⟨d', hrest, h'⟩ := ih h₁ (by omega) (by omega)
        exact ⟨d', by rw [← hrest, Nat.mul_succ], h'⟩

/-! ### The last line -/

/-- What follows a byte of the last line: a space, and one more behind every eighth. -/
def restSpace (k : ℕ) : List UInt8 := [32] ++ if k % 8 = 7 then [32] else []

/-- The first fields of the last line, each a byte with the spaces behind it. -/
def restFields (data : ℕ → UInt8) (i count : ℕ) : List (UInt8 × List UInt8) :=
  (List.range count).map fun k => (data (i + k), restSpace k)

/-- The last line after some of its fields have been put behind its beginning. -/
def restText (data : ℕ → UInt8) (i count : ℕ) : List UInt8 :=
  headText i ++ fieldsText (restFields data i count)

/-- The fields of the last line are separated by spaces. -/
theorem restFields_spaces (i count : ℕ) : ∀ f ∈ restFields data i count, ∀ c ∈ f.2, c = 32 := by
  intro f hf c hc
  obtain ⟨k, -, rfl⟩ := List.mem_map.mp hf
  simp only [restSpace] at hc
  split at hc <;> simpa using hc

/-- The text of the last line with one more field is the earlier text with this byte and its
spaces behind. -/
theorem restText_succ (i count : ℕ) : restText data i (count + 1) =
    restText data i count ++ (byteText (data (i + count)) ++ restSpace count) := by
  rw [restText, restText, restFields, List.range_succ (n := count), List.map_append, fieldsText,
    List.flatMap_append, List.append_assoc]
  simp [fieldsText, restFields]

/-- A field of the last line has three characters, and one more for the last field of a
half. -/
theorem length_restField (b : UInt8) (k : ℕ) :
    (byteText b ++ restSpace k).length = 3 + if k % 8 = 7 then 1 else 0 := by
  obtain ⟨⟨x, y, htext, -⟩, -⟩ := byteText_spec b
  rw [htext, restSpace]
  split <;> rfl

variable (data) in
/-- The length of the last line after some of its fields. -/
theorem length_restText {i : ℕ} (hi : i < 2 ^ 32) (count : ℕ) :
    (restText data i count).length = 22 + 3 * count + count / 8 := by
  induction count with
  | zero => simp [restText, restFields, fieldsText, length_headText hi]
  | succ count ih =>
      rw [restText_succ, List.length_append, ih, length_restField]
      split <;> omega

/-- The room that seems to be left, as long as the index is small. -/
theorem sizeLeft_of_le {i offset : ℕ} (h : i + offset ≤ buffSize) :
    sizeLeft i offset = buffSize - (i + offset) := by
  rw [sizeLeft, wrapUInt64, Int.emod_eq_of_lt (by omega) (by unfold buffSize; omega)]
  omega

/-- The room that seems to be left after the subtraction wraps around. -/
theorem sizeLeft_of_gt {i offset : ℕ} (h : buffSize < i + offset) (h' : i + offset < 2 ^ 32) :
    sizeLeft i offset = 2 ^ 64 + buffSize - (i + offset) := by
  have hsize : buffSize = 512 := rfl
  have hwrap : ((buffSize : ℤ) - i - offset) % 2 ^ 64 = 2 ^ 64 + buffSize - (i + offset) := by
    rw [← Int.add_emod_right, Int.emod_eq_of_lt (by omega) (by omega)]
    omega
  rw [sizeLeft, wrapUInt64, hwrap]
  omega

/-- There seems to be enough room for a few characters, except near the end of the buffer. -/
theorem sizeLeft_enough {i offset k : ℕ} (h : i + offset + k < buffSize ∨ buffSize < i + offset)
    (h' : i + offset < 2 ^ 32) (hk : k < 2 ^ 32) :
    k < sizeLeft i offset ∧ sizeLeft i offset < 2 ^ 64 := by
  have hsize : buffSize = 512 := rfl
  rcases h with h | h
  · rw [sizeLeft_of_le (by omega)]
    omega
  · rw [sizeLeft_of_gt h h']
    omega

/-- Some fields of the last line are in the buffer. -/
structure Assembled (data : ℕ → UInt8) (i : ℕ) (calls : List LogCall) (count : ℕ) (d : Dump) :
    Prop where
  buff : Holds d.buff (restText data i count)
  calls : d.calls = calls
  writes : ∀ w ∈ d.writes, Inside buffSize w.1

variable {i count n : ℕ} {calls : List LogCall} {d : Dump}

/-- **A byte of the last line** for which there seems to be room: the next turn of the loop. -/
theorem Assembled.byte (h : Assembled data i calls count d) (hfull : i % 16 = 0)
    (hcount : count < 15) (hroom : i + 4 * count ≠ 488) (hlt : i + count < n) (hn : n < 2 ^ 31)
    (rounds : ℕ) :
    ∃ d', Assembled data i calls (count + 1) d' ∧
      dumpBytes data n (rounds + 1) (i + count) (restText data i count).length d =
        dumpBytes data n rounds (i + (count + 1)) (restText data i (count + 1)).length d' := by
  have hi : i < 2 ^ 32 := by omega
  have hsize : buffSize = 512 := rfl
  have hlength := length_restText data hi count
  have hlength' := length_restText data hi (count + 1)
  set b := data (i + count) with hb
  have hformat : Formats byteFormat.bytes [intArg b.toNat] (byteText b ++ [32]) := by
    have hbytes : byteFormat.bytes = bytes "%.2hhx" ++ ([32] ++ []) := by decide
    rw [hbytes]
    exact (Formats.nil.chars (List.forall_mem_singleton.mpr (by decide))).byte b
  obtain ⟨⟨x, y, htext, -⟩, -⟩ := byteText_spec b
  have hthree : (byteText b ++ [32]).length = 3 := by rw [htext]; rfl
  have hleft := @sizeLeft_enough (i + count) (restText data i count).length 3
    (by rw [hlength]; omega) (by rw [hlength]; omega) (by norm_num)
  obtain ⟨d₁, hd₁, happ₁⟩ := d.snprintf_formats h.buff.begins hformat
    (by rw [hthree]; exact hleft.1)
    hleft.2 (by rw [hthree]; norm_num)
  rw [hthree] at hd₁
  have hwrites₁ := happ₁.writes h.writes (by
    rw [List.length_append, hthree, hlength]
    omega)
  have hoffset : wrapInt (((restText data i count).length : ℤ) + (3 : ℕ)) =
      (restText data i count ++ (byteText b ++ [32])).length := by
    rw [List.length_append, hthree, ← Nat.cast_add, wrapInt_of_lt (by omega)]
  by_cases hmiddle : (i + count) % 8 = 7
  · have hspace : restSpace count = [32] ++ [32] := by
      rw [restSpace, if_pos (by omega)]
    have hspaces : Formats spaceFormat.bytes [] [32] := by
      have hbytes : spaceFormat.bytes = [32] ++ [] := by decide
      rw [hbytes]
      exact Formats.nil.chars (List.forall_mem_singleton.mpr (by decide))
    have hlength₁ : (restText data i count ++ (byteText b ++ [32])).length =
        22 + 3 * count + count / 8 + 3 := by
      rw [List.length_append, hthree, hlength]
    have hleft₁ := @sizeLeft_enough (i + count)
      (restText data i count ++ (byteText b ++ [32])).length 1 (by rw [hlength₁]; omega)
      (by rw [hlength₁]; omega) (by norm_num)
    obtain ⟨d₂, hd₂, happ₂⟩ := d₁.snprintf_formats happ₁.buff.begins hspaces hleft₁.1 hleft₁.2
      (by decide)
    have hnext : restText data i count ++ (byteText b ++ [32]) ++ [32] =
        restText data i (count + 1) := by
      rw [restText_succ, ← hb, hspace]
      simp only [List.append_assoc]
    refine ⟨d₂, ⟨hnext ▸ happ₂.buff, (happ₂.calls.trans happ₁.calls).trans h.calls,
      happ₂.writes hwrites₁ (by rw [hnext, hlength']; omega)⟩, ?_⟩
    have hadd : (restText data i (count + 1)).length =
        (restText data i count ++ (byteText b ++ [32])).length + ([32] : List UInt8).length := by
      rw [← hnext, List.length_append]
    have hoffset₂ : wrapInt (((restText data i count ++ (byteText b ++ [32])).length : ℤ) +
        ([32] : List UInt8).length) = (restText data i (count + 1)).length := by
      rw [← Nat.cast_add, ← hadd, wrapInt_of_lt (by omega)]
    conv_lhs => unfold dumpBytes
    rw [if_pos hlt, hd₁]
    simp only
    rw [if_neg (by omega), hoffset, if_pos hmiddle, hd₂]
    simp only
    rw [if_neg (by simp), hoffset₂]
    rfl
  · have hnext : restText data i count ++ (byteText b ++ [32]) = restText data i (count + 1) := by
      rw [restText_succ, ← hb, restSpace, if_neg (by omega), List.append_nil]
    have hbuff := happ₁.buff
    rw [hnext] at hbuff
    refine ⟨d₁, ⟨hbuff, happ₁.calls.trans h.calls, hwrites₁⟩, ?_⟩
    conv_lhs => unfold dumpBytes
    rw [if_pos hlt, hd₁]
    simp only
    rw [if_neg (by omega), hoffset, if_neg hmiddle, hnext]
    rfl

/-- **A byte for which there seems to be no room** is not put into the buffer. -/
theorem Dump.snprintf_cramped (d : Dump) (offset : ℤ) {size : ℕ} (hpos : 1 ≤ size) (hle : size ≤ 2)
    (b : UInt8) :
    ∃ d', d.snprintf offset size byteFormat [intArg b.toNat] = some (-1, d') ∧
      d'.calls = d.calls := by
  have hpieces : pieces appendPrecisionOrReset byteFormat.bytes .normal resetSpecifierState
      [intArg b.toNat] = some ([.number (.unsigned b.toNat) byteSpec, .char 32], []) := by
    have hbytes : byteFormat.bytes = bytes "%.2hhx" ++ [32] := by decide
    rw [hbytes, pieces_byte, pieces_char (by decide)]
    rfl
  have hasked : getSizeOfNumberToPrint (.unsigned b.toNat) byteSpec = 2 := by
    obtain ⟨⟨x, y, htext, -⟩, hsize⟩ := byteText_spec b
    rw [hsize, htext]
    rfl
  have hemits : emits size true ⟨0, []⟩ [.number (.unsigned b.toNat) byteSpec, .char 32] =
      .error ⟨-1, []⟩ := by
    have hcheck := checkBoundaries_error (n := 2) (⟨rfl, rfl⟩ : Placed 0 ⟨0, []⟩ [])
      (by simp) hpos (by omega) (show size ≤ wadd 0 2 from hle)
    rw [emits, emit, putNumber, hasked, hcheck]
    rfl
  obtain ⟨args', hloop, -⟩ := vsnprintfLoop_eq size true ⟨0, []⟩ hpieces
  rw [hemits, atEnd] at hloop
  have hne : (true && decide (size = 0)) = false := by
    rw [Bool.true_and, decide_eq_false_iff_not]
    omega
  refine ⟨{ d with
    buff := store d.buff [(offset + -1, 0)]
    writes := d.writes ++ [(offset + -1, 0)] }, ?_, rfl⟩
  rw [Dump.snprintf, vsnprintfInternal, hne]
  simp only [Bool.false_eq_true, if_false, hloop, Option.map_some]
  rfl

/-- **The loop over the bytes of the last line** puts all of them into the buffer if there is no
byte for which there seems to be no room. -/
theorem Assembled.all (h : Assembled data i calls count d) (hfull : i % 16 = 0)
    (hcount : i + count ≤ n) (hlast : n < i + 16) (hn : n < 2 ^ 31)
    (hroom : ∀ j, count ≤ j → i + j < n → i + 4 * j ≠ 488) {rounds : ℕ}
    (hrounds : n ≤ i + count + rounds) :
    ∃ d', dumpBytes data n rounds (i + count) (restText data i count).length d = some (.ok d') ∧
      Assembled data i calls (n - i) d' := by
  induction rounds generalizing count d with
  | zero =>
      obtain rfl : count = n - i := by omega
      refine ⟨d, ?_, h⟩
      unfold dumpBytes
      rw [if_neg (by omega)]
  | succ rounds ih =>
      by_cases hend : i + count = n
      · obtain rfl : count = n - i := by omega
        refine ⟨d, ?_, h⟩
        unfold dumpBytes
        rw [if_neg (by omega)]
      · obtain ⟨d₁, h₁, hturn⟩ := h.byte hfull (by omega) (hroom count le_rfl (by omega)) (by omega)
          hn rounds
        obtain ⟨d', hrest, h'⟩ := ih h₁ (by omega) (fun j hj => hroom j (by omega)) (by omega)
        exact ⟨d', hturn.trans hrest, h'⟩

/-- **The loop over the bytes of the last line** ends at a byte for which there seems to be no
room. -/
theorem Assembled.cramped (h : Assembled data i calls count d) (hfull : i % 16 = 0)
    (hn : n < 2 ^ 31)
    (hlast : n < i + 16) {j : ℕ} (hj : count ≤ j) (hlt : i + j < n) (hroom : i + 4 * j = 488)
    {rounds : ℕ} (hrounds : n ≤ i + count + rounds) :
    ∃ d' : Dump, dumpBytes data n rounds (i + count) (restText data i count).length d =
        some (.error d'.failure) ∧ d'.calls = calls := by
  induction rounds generalizing count d with
  | zero => omega
  | succ rounds ih =>
      by_cases hnow : count = j
      · subst hnow
        have hsize : buffSize = 512 := rfl
        have hlength := length_restText data (show i < 2 ^ 32 by omega) count
        have hleft : sizeLeft (i + count) (restText data i count).length =
            buffSize - (i + count + (restText data i count).length) :=
          sizeLeft_of_le (by omega)
        obtain ⟨d', hd', hcalls⟩ := d.snprintf_cramped (restText data i count).length
          (show 1 ≤ sizeLeft (i + count) (restText data i count).length by omega) (by omega)
          (data (i + count))
        refine ⟨d', ?_, hcalls.trans h.calls⟩
        unfold dumpBytes
        rw [if_pos hlt, hd']
        simp only
        rw [if_pos (by decide)]
      · obtain ⟨d₁, h₁, hturn⟩ := h.byte hfull (by omega) (by omega) (by omega) hn rounds
        obtain ⟨d', hrest, hcalls⟩ := ih h₁ (by omega) (by omega)
        exact ⟨d', hturn.trans hrest, hcalls⟩

end

/-! ### The dump -/

/-- The numbers of bytes of which the last ones seem to have no room in the buffer. -/
def Cramped (n : ℕ) : Prop :=
  n = 447 ∨ (459 ≤ n ∧ n ≤ 463) ∨ (471 ≤ n ∧ n ≤ 479) ∨ (483 ≤ n ∧ n ≤ 495)

/-- The lengths are those of a last line with a byte whose field would start at offset 488 of
the buffer. -/
theorem cramped_iff (n : ℕ) :
    Cramped n ↔ n % 16 ≠ 0 ∧ ∃ j, 16 * (n / 16) + j < n ∧ 16 * (n / 16) + 4 * j = 488 := by
  unfold Cramped
  constructor
  · intro h
    exact ⟨by omega, (488 - 16 * (n / 16)) / 4, by omega, by omega⟩
  · rintro ⟨h, j, hj, heq⟩
    omega

section

variable {logLevel : ℤ} {moduleName : Option CString} {data : ℕ → UInt8} {n : ℕ}

/-- The bytes of successive full lines, put together, are the bytes of the data from its
beginning on. -/
theorem flatten_lineBytes (lines : ℕ) :
    ((List.range lines).map fun k => lineBytes data (16 * k) 16).flatten =
      (List.range (16 * lines)).map data := by
  induction lines with
  | zero => rfl
  | succ lines ih =>
      rw [List.range_succ (n := lines), List.map_append, List.flatten_append, ih, Nat.mul_succ,
        List.range_add, List.map_append, List.map_map]
      congr 1

/-- The lines of a dump, each with its offset: full ones, and a rest if there is one. -/
def dumpedLines (data : ℕ → UInt8) (n : ℕ) : List (ℕ × List UInt8) :=
  ((List.range (n / 16)).map fun k => (16 * k, lineBytes data (16 * k) 16)) ++
    if n % 16 = 0 then [] else [(16 * (n / 16), lineBytes data (16 * (n / 16)) (n % 16))]

/-- The lines of a dump of `n` bytes, put together, show all `n` bytes in order. -/
theorem flatten_dumpedLines :
    ((dumpedLines data n).map Prod.snd).flatten = (List.range n).map data := by
  have hfull : (((List.range (n / 16)).map fun k => (16 * k, lineBytes data (16 * k) 16)).map
      Prod.snd).flatten = (List.range (16 * (n / 16))).map data := by
    rw [List.map_map]
    exact flatten_lineBytes _
  have hsplit : List.range n = List.range (16 * (n / 16)) ++
      (List.range (n % 16)).map fun k => 16 * (n / 16) + k := by
    rw [← List.range_add]
    congr 1
    omega
  rw [dumpedLines, List.map_append, List.flatten_append, hfull, hsplit, List.map_append,
    List.map_map]
  congr 1
  by_cases h : n % 16 = 0
  · rw [if_pos h, h]
    rfl
  · rw [if_neg h]
    simp only [List.map_cons, List.map_nil, List.flatten_cons, List.flatten_nil, List.append_nil]
    rfl

/-- The lines of a dump have their own offsets and sixteen bytes each, but for the last one,
which may have fewer. -/
theorem dumpedLines_shape {k : ℕ} {line : ℕ × List UInt8}
    (h : (dumpedLines data n)[k]? = some line) : line.1 = 16 * k ∧
      (k + 1 < (dumpedLines data n).length → line.2.length = 16) ∧ 1 ≤ line.2.length ∧
      line.2.length ≤ 16 := by
  have hlength : ((List.range (n / 16)).map fun k =>
      (16 * k, lineBytes data (16 * k) 16)).length = n / 16 := by
    rw [List.length_map, List.length_range]
  have hcount : ∀ i count, (lineBytes data i count).length = count := by
    intro i count
    rw [lineBytes, List.length_map, List.length_range]
  unfold dumpedLines at h ⊢
  rcases Nat.lt_or_ge k (n / 16) with hlt | hge
  · rw [List.getElem?_append_left (by rw [hlength]; exact hlt), List.getElem?_map,
      List.getElem?_range hlt] at h
    obtain rfl := Option.some.inj h
    refine ⟨rfl, fun _ => hcount _ _, ?_, ?_⟩
    · rw [hcount]
      omega
    · rw [hcount]
  · rw [List.getElem?_append_right (by rw [hlength]; exact hge), hlength] at h
    split at h
    · simp at h
    · rename_i hrest
      rw [if_neg hrest, List.length_append, hlength, List.length_singleton]
      obtain ⟨hk, rfl⟩ : k = n / 16 ∧ (16 * (n / 16), lineBytes data (16 * (n / 16)) (n % 16)) =
          line := by
        rcases Nat.lt_or_eq_of_le hge with hgt | heq
        · rw [List.getElem?_eq_none (by rw [List.length_singleton]; omega)] at h
          cases h
        · rw [← heq, Nat.sub_self] at h
          exact ⟨heq.symm, Option.some.inj h⟩
      refine ⟨by rw [hk], fun hlt => by omega, ?_, ?_⟩
      · rw [hcount]
        omega
      · rw [hcount]
        omega

/-- A dump shows its data if its calls log the lines and its writes stay inside of the
buffer. -/
theorem shows_of_lines {d : Dump}
    (hcalls : ∀ c ∈ d.calls, c.logLevel = logLevel ∧ c.moduleName = moduleName)
    (hlines : (d.calls.map fun c => c.text.bind readLine) = (dumpedLines data n).map some)
    (hwrites : ∀ w ∈ d.writes, Inside buffSize w.1) : Shows logLevel moduleName data n d :=
  ⟨hcalls, ⟨dumpedLines data n, hlines, flatten_dumpedLines, fun _ _ => dumpedLines_shape⟩,
    hwrites⟩

/-- A dump that logs the message of a failure does not show the data, since the message is not
a line. -/
theorem not_shows_failure (d : Dump) : ¬ Shows logLevel moduleName data n d.failure := by
  rintro ⟨-, ⟨lines, hlines, -⟩, -⟩
  have hformat := @Formats.chars [] [] [] .nil (bytes "snprintf failure, couldn't dump memory")
    (by decide +kernel)
  rw [List.append_nil] at hformat
  have htext := @Formats.text_eq ⟨bytes "snprintf failure, couldn't dump memory", by decide +kernel⟩
    [] _ hformat 4 (some ⟨bytes "Logging", by decide +kernel⟩)
  have hnone : readLine (bytes "snprintf failure, couldn't dump memory") = none := by
    decide +kernel
  rw [Dump.failure, Dump.log, List.map_append] at hlines
  simp only [List.map_cons, List.map_nil, htext, Option.bind_some, hnone] at hlines
  have hmem : (none : Option (ℕ × List UInt8)) ∈ lines.map some := by
    rw [← hlines]
    simp
  simp at hmem

/-- **The last line** is logged, or a failure, if there is a byte for which there seems to be no
room. -/
theorem dumpRest_shows_iff {d : Dump} (h : Logged logLevel moduleName data (n / 16) d)
    (hn : n < 2 ^ 31) :
    (∃ d', dumpRest logLevel moduleName data n (16 * (n / 16)) d = some d' ∧
      Shows logLevel moduleName data n d') ↔ ¬ Cramped n := by
  rw [cramped_iff]
  unfold dumpRest
  by_cases hfull : n % 16 = 0
  · rw [if_pos hfull]
    refine iff_of_true ⟨d, rfl, shows_of_lines h.calls ?_ h.writes⟩ fun hc => hc.1 hfull
    rw [h.lines, dumpedLines, if_pos hfull, List.append_nil, List.map_map]
    rfl
  · have hi : 16 * (n / 16) < 2 ^ 32 := by omega
    have hlength := length_headText hi
    have hhead : Formats headFormat.bytes [intArg (16 * (n / 16))] (headText (16 * (n / 16))) := by
      have hformat := Formats.nil.head hi
      rwa [List.append_nil, List.append_nil] at hformat
    obtain ⟨d₁, hd₁, happ⟩ := d.snprintf_formats (t := []) (fun k hk => absurd hk (by simp)) hhead
      (show _ < buffSize by rw [hlength]; decide) (by decide) (by rw [hlength]; norm_num)
    have hstart : Assembled data (16 * (n / 16)) d.calls 0 d₁ := by
      refine ⟨?_, happ.calls, happ.writes h.writes (by rw [List.nil_append, hlength]; decide)⟩
      have hempty : restText data (16 * (n / 16)) 0 = headText (16 * (n / 16)) := by
        rw [restText, restFields]
        exact List.append_nil _
      rw [hempty]
      exact happ.buff
    have hhead₁ : d.snprintf 0 buffSize headFormat [intArg (16 * (n / 16))] =
        some (((restText data (16 * (n / 16)) 0).length : ℤ), d₁) := by
      rw [length_restText data hi, ← hlength]
      exact hd₁
    rw [if_neg hfull, hhead₁]
    simp only
    rw [if_neg (by omega)]
    by_cases hroom : ∃ j, 16 * (n / 16) + j < n ∧ 16 * (n / 16) + 4 * j = 488
    · obtain ⟨j, hj, heq⟩ := hroom
      obtain ⟨d₂, hd₂, -⟩ := hstart.cramped (Nat.mul_mod_right 16 _) hn (by omega)
        (Nat.zero_le j) hj heq (show n ≤ 16 * (n / 16) + 0 + n by omega)
      rw [Nat.add_zero] at hd₂
      refine iff_of_false ?_ fun hc => hc ⟨hfull, j, hj, heq⟩
      rintro ⟨d', hd', hshows⟩
      rw [hd₂] at hd'
      obtain rfl := Option.some.inj hd'
      exact not_shows_failure d₂ hshows
    · obtain ⟨d₂, hd₂, h₂⟩ := hstart.all (Nat.mul_mod_right 16 _) (by omega) (by omega) hn
        (fun j _ hj heq => hroom ⟨j, hj, heq⟩) (show n ≤ 16 * (n / 16) + 0 + n by omega)
      rw [Nat.add_zero] at hd₂
      refine iff_of_true ⟨d₂.logBuff logLevel moduleName, by rw [hd₂], ?_⟩ fun hc => hroom hc.2
      have hcount : n - 16 * (n / 16) = n % 16 := by omega
      rw [hcount] at h₂
      refine shows_of_lines ?_ ?_ h₂.writes
      · intro c hc
        rw [Dump.logBuff, Dump.log, h₂.calls] at hc
        rcases List.mem_append.mp hc with hc | hc
        · exact h.calls c hc
        · rw [List.mem_singleton.mp hc]
          exact ⟨rfl, rfl⟩
      · have hfits : (restText data (16 * (n / 16)) (n % 16)).length < buffSize := by
          rw [length_restText data hi]
          unfold buffSize
          omega
        have hline := h₂.buff.text_logBuff hi (restFields_spaces _ _) hfits logLevel moduleName
        have hbytes : (restFields data (16 * (n / 16)) (n % 16)).map Prod.fst =
            lineBytes data (16 * (n / 16)) (n % 16) := by
          rw [restFields, lineBytes, List.map_map]
          rfl
        rw [hbytes] at hline
        rw [Dump.logBuff, Dump.log, h₂.calls, List.map_append, h.lines, dumpedLines, if_neg hfull,
          List.map_append, List.map_map]
        simp only [List.map_cons, List.map_nil, hline]
        rfl

/-- A dump logs its full lines, and then the last one. -/
theorem hexdump_eq (hlevel : 0 ≤ logLevel ∧ logLevel ≤ 5) (hpos : 1 ≤ n) (hn : n < 2 ^ 31)
    (buff : ℤ → UInt8) : ∃ d, Logged logLevel moduleName data (n / 16) d ∧
      hexdump logLevel moduleName (some data) n buff =
        dumpRest logLevel moduleName data n (16 * (n / 16)) d := by
  have hstart : Logged logLevel moduleName data 0 ⟨buff, [], []⟩ :=
    ⟨fun c hc => absurd hc List.not_mem_nil, rfl, fun w hw => absurd hw List.not_mem_nil⟩
  obtain ⟨d, hd, h⟩ := dumpLines_logs hn hstart (Nat.zero_le _) (show n / 16 ≤ 0 + n by omega)
  rw [Nat.mul_zero] at hd
  refine ⟨d, h, ?_⟩
  rw [hexdump]
  simp only [Int.toNat_natCast]
  rw [if_neg (by omega), if_neg (by omega), hd]

/-- **When a dump shows its bytes.** For every level, every memory and every number of bytes that is
below `2 ^ 31 - 15`, whatever the buffer holds before: the lines that `hexdump` logs show the bytes,
there is no failure, and nothing is written outside the buffer, if and only if the last line has no
byte for which there seems to be no room. -/
theorem hexdump_shows_iff (hlevel : 0 ≤ logLevel ∧ logLevel ≤ 5) (hpos : 1 ≤ n)
    (hn : n < 2 ^ 31 - 15) (buff : ℤ → UInt8) :
    (∃ d, hexdump logLevel moduleName (some data) n buff = some d ∧
      Shows logLevel moduleName data n d) ↔ ¬ Cramped n := by
  obtain ⟨d, h, hdump⟩ := hexdump_eq hlevel hpos (show n < 2 ^ 31 by omega) buff
  rw [hdump]
  exact dumpRest_shows_iff h (by omega)

end

/-- A dump of twenty bytes, with a full line and one of four bytes, shows them. -/
theorem hexdump_shows_iff_twenty : ∃ d,
    hexdump 1 none (some UInt8.ofNat) ((20 : ℕ) : ℤ) (fun _ => 0xff) = some d ∧
      Shows 1 none UInt8.ofNat 20 d := by
  refine (hexdump_shows_iff ⟨by decide, by decide⟩ (by decide) (by norm_num) _).mpr ?_
  unfold Cramped
  decide

/-- **A dump of 447 bytes** does not show the last fifteen: before the last of them is put into the
buffer, there seem to be two characters left. -/
theorem hexdump_cramped : ¬ ∃ d,
    hexdump 1 none (some UInt8.ofNat) ((447 : ℕ) : ℤ) (fun _ => 0xff) = some d ∧
      Shows 1 none UInt8.ofNat 447 d := by
  obtain ⟨d, h, hdump⟩ := hexdump_eq (show (0 : ℤ) ≤ 1 ∧ (1 : ℤ) ≤ 5 by decide)
    (show 1 ≤ 447 by decide) (by norm_num) (fun _ => 0xff)
  rw [hdump, dumpRest_shows_iff h (by norm_num)]
  exact not_not_intro (.inl rfl)

end MugOS.Logging
