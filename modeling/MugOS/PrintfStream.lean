import MugOS.PrintfBounds

/-!
# The Two Formatters

`vdprintf_internal` of `Stdlib/printf.c`, which writes to a descriptor, with `dputc`, `dputs`,
`printf_uint` and the `write` of `Stdlib/unistd.c`. It is a copy of `vsnprintf_internal` with
its own helpers. `dputc` returns the byte as a signed character, so the byte `0xff` looks like
`EOF`, and `dputs` stops after it.

## Main results

* `vdprintfLoop_eq`: what `vdprintf_internal` writes and counts, in terms of the pieces of the
  format.
* `formatters_agree_iff`: the two formatters give the same text exactly when it has an `int`
  length, no string has a byte `0xff` before its end, and the precisions are read alike.
* `agreeable_iff_of_small`: with precision literals below `2 ^ 63` they are.
-/

namespace MugOS.Printf

/-! ### Writing to a descriptor -/

/-- `EOF`. -/
def eof : ℤ := -1

/-- `write(fd, buff, count)`: the result and the bytes that are displayed. -/
def write (fd : ℤ) (buff : List UInt8) : ℤ × List UInt8 :=
  if fd = 0 then (-1, [])
  else if fd = 1 ∨ fd = 2 then
    ((buff.takeWhile (· ≠ 0)).length, buff.takeWhile (· ≠ 0))
  else (-2, [])

/-- `dputc(c, fd)`, of which only the low byte of `c` matters. -/
def dputc (c : UInt8) (fd : ℤ) : ℤ × List UInt8 :=
  if fd < 0 then (eof, [])
  else
    let res := write fd [c]
    (if res.1 = 1 then (c.toNat : ℤ).bmod 256 else eof, res.2)

/-- `dputs(s, fd)`: writes the characters of the string up to the first that fails. -/
def dputs (fd : ℤ) : List UInt8 → ℤ × List UInt8
  | [] => (1, [])
  | c :: s =>
      let res := dputc c fd
      if res.1 = eof then (eof, res.2)
      else ((dputs fd s).1, res.2 ++ (dputs fd s).2)

/-- The loop of `printf_uint_putPadding`, which counts the characters that were written. -/
def putPaddingLoop (fd : ℤ) (padding : UInt8) : ℕ → ℤ × List UInt8
  | 0 => (0, [])
  | n + 1 =>
      let res := dputc padding fd
      if res.1 = eof then (0, res.2)
      else ((putPaddingLoop fd padding n).1 + 1, res.2 ++ (putPaddingLoop fd padding n).2)

/-- `printf_uint_putPadding(fd, n, padding)`, where `n` is an `int`. -/
def printfUintPutPadding (fd n : ℤ) (padding : Char) : ℤ × List UInt8 :=
  putPaddingLoop fd (byte padding) (wrapInt n).toNat

/-- `printf_uint_putPrefix(fd, radix, uppercase)`. -/
def printfUintPutPrefix (fd : ℤ) (radix : ℕ) (uppercase : Bool) : ℤ × List UInt8 :=
  match radix with
  | 8 =>
      let res := dputc (byte '0') fd
      (if res.1 = eof then eof else 1, res.2)
  | 16 =>
      let res := dputs fd (bytes (if uppercase then "0X" else "0x"))
      (if res.1 = eof then eof else 2, res.2)
  | _ => (0, [])

/-- `printed` and the bytes that have been written. -/
structure Stream where
  printed : ℤ
  written : List UInt8

/-- `if (res == EOF) return printed; printed += n;`, after a write with the result `res`. -/
def Stream.count (s : Stream) (res : ℤ × List UInt8) (n : ℤ) : Except Stream Stream :=
  if res.1 = eof then .error { s with written := s.written ++ res.2 }
  else .ok ⟨wrapInt (s.printed + n), s.written ++ res.2⟩

/-- An output is counted, as `count` does, under a condition. -/
def Stream.countIf (c : Prop) [Decidable c] (s : Stream) (res : ℤ × List UInt8) (n : ℤ) :
    Except Stream Stream :=
  if c then s.count res n else .ok s

/-- The value that is returned early or at the end. -/
def returned : Except Stream Stream → Stream
  | .error s => s
  | .ok s => s

/-- `printf_uint(fd, number, spec)`: the result and the bytes that are written. -/
def printfUint (fd : ℤ) (number : ℕ) (spec : SpecifierState) : Stream :=
  if spec.precision = 0 ∧ number = 0 then ⟨0, []⟩
  else returned <| do
    let pad := paddings spec (buffer number spec).length
    let s : Stream := ⟨0, []⟩
    let left := printfUintPutPadding fd pad.1 ' '
    let s ← s.countIf (!spec.padRight) left left.1
    let s ← s.countIf (spec.sign ≠ 0) (dputc spec.sign fd) 1
    let pre := printfUintPutPrefix fd spec.radix spec.uppercase
    let s ← s.countIf spec.putPrefix pre pre.1
    let zeros := printfUintPutPadding fd pad.2 '0'
    let s ← s.count zeros zeros.1
    let s ← (buffer number spec).reverse.foldlM (fun s b => s.count (dputc b fd) 1) s
    s.countIf spec.padRight left left.1

/-- An output whose result is ignored, and `printed += n`. -/
def Stream.ignore (s : Stream) (res : ℤ × List UInt8) (n : ℕ) : Stream :=
  ⟨wrapInt (s.printed + n), s.written ++ res.2⟩

/-- The code at `PRINTF_STATE_SPEC_`: the output of one conversion to a descriptor. -/
def vdprintfConvert (fd : ℤ) (spec : SpecifierState) (c : UInt8) (s : Stream) (args : List Arg) :
    Option (Stream × List Arg) :=
  match conversion spec c with
  | .percent => some (s.ignore (dputc (byte '%') fd) 1, args)
  | .char => (vaInt args).map fun r =>
      (s.ignore (dputc (UInt8.ofNat (wrapUInt64 r.1)) fd) 1, r.2)
  | .string => (vaString args).map fun r =>
      (match r.1 with
        | none => s.ignore (dputs fd (bytes "(null)")) 6
        | some str => s.ignore (dputs fd str.bytes) str.bytes.length, r.2)
  | .number spec => (vaNumber spec args).map fun r =>
      let res := printfUint fd (magnitude r.1 spec).1 (magnitude r.1 spec).2
      (⟨wrapInt (s.printed + res.printed), s.written ++ res.written⟩, r.2)
  | .invalid => some (s, args)

/-- The loop of `vdprintf_internal` over the format. -/
def vdprintfLoop (fd : ℤ) :
    List UInt8 → State → SpecifierState → Stream → List Arg → Option (Stream × List Arg)
  | [], _, _, s, args => some (s, args)
  | c :: format, state, spec, s, args =>
      match scan appendPrecision state spec c args with
      | none => none
      | some (.next state spec args) => vdprintfLoop fd format state spec s args
      | some .put => vdprintfLoop fd format .normal spec (s.ignore (dputc c fd) 1) args
      | some (.convert spec) =>
          match vdprintfConvert fd spec c s args with
          | none => none
          | some (s, args) => vdprintfLoop fd format .normal resetSpecifierState s args

/-- `vdprintf_internal(fd, format, args)`: the result, the bytes that are written and the
arguments that are left. -/
def vdprintfInternal (fd : ℤ) (format : Option CString) (args : List Arg) :
    Option (ℤ × List UInt8 × List Arg) :=
  match format with
  | none => some (-1, [], args)
  | some format =>
      if fd < 0 then some (-2, [], args)
      else (vdprintfLoop fd format.bytes .normal resetSpecifierState ⟨0, []⟩ args).map
        fun r => (r.1.printed, r.1.written, r.2)

/-! ### Single bytes -/

/-- The descriptors that are displayed: the standard output and the standard error. -/
def Displayed (fd : ℤ) : Prop := fd = 1 ∨ fd = 2

/-- A displayed descriptor accepts every byte but zero. -/
theorem dputc_eq {fd : ℤ} (hfd : Displayed fd) {c : UInt8} (hc : c ≠ 0) :
    dputc c fd = ((c.toNat : ℤ).bmod 256, [c]) := by
  rcases hfd with rfl | rfl <;> simp [dputc, write, hc]

/-- Of all bytes, as signed characters, only `0xff` is equal to `EOF`. -/
theorem bmod_eq_eof_iff (c : UInt8) : (c.toNat : ℤ).bmod 256 = eof ↔ c = 0xff := by
  have hlt := c.toNat_lt
  constructor
  · intro h
    apply UInt8.toNat_inj.1
    unfold eof at h
    have : (0xff : UInt8).toNat = 255 := rfl
    rw [Int.bmod_def] at h
    split at h <;> omega
  · rintro rfl
    decide

/-- The bytes that no helper mistakes for a terminator or for `EOF`. -/
def Plain (c : UInt8) : Prop := c ≠ 0 ∧ c ≠ 0xff

instance (c : UInt8) : Decidable (Plain c) := inferInstanceAs (Decidable (_ ∧ _))

/-- A plain byte is written by `dputc`, which does not return `EOF` for it. -/
theorem dputc_plain {fd : ℤ} (hfd : Displayed fd) {c : UInt8} (hc : Plain c) :
    (dputc c fd).1 ≠ eof ∧ (dputc c fd).2 = [c] := by
  rw [dputc_eq hfd hc.1]
  refine ⟨?_, rfl⟩
  simp only [ne_eq, bmod_eq_eof_iff]
  exact hc.2

/-- A string of plain bytes is written as a whole by `dputs`, which does not return `EOF` for
it. -/
theorem dputs_plain {fd : ℤ} (hfd : Displayed fd) {s : List UInt8} (hs : ∀ b ∈ s, Plain b) :
    (dputs fd s).1 ≠ eof ∧ (dputs fd s).2 = s := by
  induction s with
  | nil => exact ⟨by simp [dputs, eof], rfl⟩
  | cons c s ih =>
      obtain ⟨hres, hwritten⟩ := dputc_plain hfd (hs c List.mem_cons_self)
      obtain ⟨hres', hwritten'⟩ := ih fun b hb => hs b (List.mem_cons_of_mem _ hb)
      simp only [dputs, if_neg hres, hwritten, hwritten', List.singleton_append]
      exact ⟨hres', trivial⟩

/-- The padding is written as a whole, and counted with its length. -/
theorem printfUintPutPadding_eq {fd : ℤ} (hfd : Displayed fd) (n : ℤ) {c : Char}
    (hc : Plain (byte c)) :
    printfUintPutPadding fd n c = (((padding n c).length : ℤ), padding n c) := by
  have hloop : ∀ k : ℕ, putPaddingLoop fd (byte c) k = ((k : ℤ), List.replicate k (byte c)) := by
    obtain ⟨hres, hwritten⟩ := dputc_plain hfd hc
    intro k
    induction k with
    | zero => rfl
    | succ k ih =>
        simp only [putPaddingLoop, if_neg hres, hwritten, ih, Nat.cast_add, Nat.cast_one]
        rfl
  rw [printfUintPutPadding, hloop, padding, List.length_replicate]

/-- The prefix is written as a whole, and counted with its length. -/
theorem printfUintPutPrefix_eq {fd : ℤ} (hfd : Displayed fd) (radix : ℕ) (uppercase : Bool) :
    printfUintPutPrefix fd radix uppercase =
      (((numberPrefix radix uppercase).length : ℤ), numberPrefix radix uppercase) := by
  unfold printfUintPutPrefix
  split
  · obtain ⟨hres, hwritten⟩ := dputc_plain hfd (c := byte '0') (by decide)
    simp only [if_neg hres, hwritten]
    rfl
  · obtain ⟨hres, hwritten⟩ :=
      dputs_plain hfd (s := bytes (if uppercase then "0X" else "0x"))
        (by cases uppercase <;> decide +kernel)
    simp only [if_neg hres, hwritten]
    cases uppercase <;> rfl
  · rename_i h8 h16
    have hnone : numberPrefix radix uppercase = [] := by
      unfold numberPrefix
      split
      · exact absurd rfl h8
      · exact absurd rfl h16
      · rfl
    rw [hnone]
    rfl

/-! ### Numbers -/

/-- The specifier state at a number: its radix is one of the three, and its sign is not
mistaken for `EOF`. -/
structure Sane (spec : SpecifierState) : Prop where
  radix : spec.radix = 8 ∨ spec.radix = 10 ∨ spec.radix = 16
  sign : spec.sign ≠ 0xff

/-- The digits of a number are plain bytes: neither `0xff` nor zero. -/
theorem plain_buffer {number : ℕ} {spec : SpecifierState} (hspec : Sane spec) :
    ∀ b ∈ buffer number spec, Plain b := by
  have hhex : ∀ u, ∀ b ∈ hexChars u, Plain b := by decide +kernel
  have hlength : (hexChars spec.uppercase).length = 16 := by cases spec.uppercase <;> rfl
  have hdigit : ∀ n, Plain ((hexChars spec.uppercase).getD (n % spec.radix) 0) := by
    intro n
    have hlt : n % spec.radix < (hexChars spec.uppercase).length := by
      rw [hlength]
      rcases hspec.radix with h | h | h <;> rw [h] <;> omega
    rw [List.getD_eq_getElem?_getD, List.getElem?_eq_getElem hlt, Option.getD_some]
    exact hhex _ _ (List.getElem_mem hlt)
  have hloop : ∀ room n, ∀ b ∈ convertDigits spec.radix (hexChars spec.uppercase) room n,
      Plain b := by
    intro room
    induction room with
    | zero => simp [convertDigits]
    | succ room ih =>
        intro n b hb
        rw [convertDigits, List.mem_cons] at hb
        rcases hb with rfl | hb
        · exact hdigit n
        · split at hb
          · exact ih _ b hb
          · simp at hb
  exact hloop 128 number

/-- The stream after a text, from the start of the function. -/
def shown (t : List UInt8) : Stream := ⟨wrapInt t.length, t⟩

/-- An output that does not look like `EOF` is counted. -/
theorem count_shown {t bs : List UInt8} {res : ℤ × List UInt8} {n : ℤ} (hres : res.1 ≠ eof)
    (hwritten : res.2 = bs) (hn : n = bs.length) :
    (shown t).count res n = .ok (shown (t ++ bs)) := by
  rw [Stream.count, if_neg hres, hwritten, hn]
  simp only [shown, wrapInt, Int.bmod_add_bmod, List.length_append, Nat.cast_add]

/-- An optional output that is shown and counted is added to the text if it is made, and
nothing else if not. -/
theorem countIf_shown {c : Prop} [Decidable c] (t : List UInt8) {bs : List UInt8}
    {res : ℤ × List UInt8} {n : ℤ} (h : c → res.1 ≠ eof ∧ res.2 = bs ∧ n = bs.length) :
    (shown t).countIf c res n = .ok (shown (t ++ if c then bs else [])) := by
  unfold Stream.countIf
  by_cases hc : c
  · obtain ⟨hres, hwritten, hn⟩ := h hc
    rw [if_pos hc, if_pos hc, count_shown hres hwritten hn]
  · rw [if_neg hc, if_neg hc, List.append_nil]

/-- Plain bytes that are put one by one are all shown, and each is counted as one. -/
theorem foldlM_count {fd : ℤ} (hfd : Displayed fd) (t s : List UInt8) (hs : ∀ b ∈ s, Plain b) :
    s.foldlM (fun s b => s.count (dputc b fd) 1) (shown t) = .ok (shown (t ++ s)) := by
  induction s generalizing t with
  | nil => simp [pure, Except.pure]
  | cons b s ih =>
      obtain ⟨hres, hwritten⟩ := dputc_plain hfd (hs b List.mem_cons_self)
      rw [List.foldlM_cons, count_shown hres hwritten (by simp)]
      have hrest := ih (t ++ [b]) fun c hc => hs c (List.mem_cons_of_mem _ hc)
      rwa [List.append_assoc, List.singleton_append] at hrest

/-- `printf_uint` writes the text of the number and returns its length. -/
theorem printfUint_eq {fd : ℤ} (hfd : Displayed fd) (number : ℕ) {spec : SpecifierState}
    (hspec : Sane spec) : printfUint fd number spec = shown (uintText number spec) := by
  unfold printfUint uintText
  split
  · simp [shown, wrapInt]
  · have hpad : ∀ n c, Plain (byte c) → (printfUintPutPadding fd n c).1 ≠ eof ∧
        (printfUintPutPadding fd n c).2 = padding n c ∧
        (printfUintPutPadding fd n c).1 = (padding n c).length := by
      intro n c hc
      rw [printfUintPutPadding_eq hfd n hc]
      exact ⟨by simp only [eof]; omega, rfl, rfl⟩
    have hnone : (printfUintPutPrefix fd spec.radix spec.uppercase).1 ≠ eof ∧
        (printfUintPutPrefix fd spec.radix spec.uppercase).2 =
          numberPrefix spec.radix spec.uppercase ∧
        (printfUintPutPrefix fd spec.radix spec.uppercase).1 =
          (numberPrefix spec.radix spec.uppercase).length := by
      rw [printfUintPutPrefix_eq hfd]
      exact ⟨by simp only [eof]; omega, rfl, rfl⟩
    have hsign : spec.sign ≠ 0 → (dputc spec.sign fd).1 ≠ eof ∧ (dputc spec.sign fd).2 =
        [spec.sign] ∧ (1 : ℤ) = ([spec.sign] : List UInt8).length := fun h =>
      ⟨(dputc_plain hfd ⟨h, hspec.sign⟩).1, (dputc_plain hfd ⟨h, hspec.sign⟩).2, rfl⟩
    have hdigits : ∀ b ∈ (buffer number spec).reverse, Plain b := fun b hb =>
      plain_buffer hspec b (List.mem_reverse.1 hb)
    have hstart : (⟨0, []⟩ : Stream) = shown [] := by simp [shown, wrapInt]
    have hspace := fun n => hpad n ' ' (by decide)
    have hzero := fun n => hpad n '0' (by decide)
    simp only [hstart, countIf_shown _ fun _ => hspace _, countIf_shown _ hsign,
      countIf_shown _ fun _ => hnone, count_shown (hzero _).1 (hzero _).2.1 (hzero _).2.2,
      foldlM_count hfd _ _ hdigits, bind, Except.bind, returned, List.nil_append]

/-! ### What is displayed -/

/-- The part of a string that `dputs` writes: up to the first byte `0xff`. -/
def cut : List UInt8 → List UInt8
  | [] => []
  | c :: s => if c = 0xff then [c] else c :: cut s

/-- `dputs` writes a string up to the first byte `0xff`. -/
theorem dputs_written {fd : ℤ} (hfd : Displayed fd) {s : List UInt8} (hs : ∀ b ∈ s, b ≠ 0) :
    (dputs fd s).2 = cut s := by
  induction s with
  | nil => rfl
  | cons c s ih =>
      have hrest := ih fun b hb => hs b (List.mem_cons_of_mem _ hb)
      simp only [dputs, dputc_eq hfd (hs c List.mem_cons_self), bmod_eq_eof_iff, cut, hrest]
      split <;> rfl

/-- The part of a string that is written before a byte `0xff` is not longer than the string. -/
theorem length_cut_le (s : List UInt8) : (cut s).length ≤ s.length := by
  induction s with
  | nil => exact le_rfl
  | cons c s ih =>
      rw [cut]
      split
      · simp
      · simpa using ih

/-- Nothing is cut off exactly when no byte `0xff` is before the end. -/
theorem length_cut_eq_iff (s : List UInt8) :
    (cut s).length = s.length ↔ ∀ b ∈ s.dropLast, b ≠ 0xff := by
  induction s with
  | nil => simp [cut]
  | cons c s ih =>
      cases s with
      | nil => simp [cut]
      | cons d s =>
          rw [List.dropLast_cons_cons, List.forall_mem_cons, ← ih, cut]
          split
          · simp [*]
          · simp [*]

/-- If the part that is written is as long as the string, it is the string. -/
theorem cut_eq_of_length {s : List UInt8} (h : (cut s).length = s.length) : cut s = s := by
  induction s with
  | nil => rfl
  | cons c s ih =>
      rw [cut] at h ⊢
      split at h
      · have hs : s = [] := by
          apply List.eq_nil_of_length_eq_zero
          simpa using h.symm
        simp [*]
      · rw [if_neg ‹_›, ih (by simpa using h)]

/-- What the descriptor shows of a piece. -/
def Piece.displayed : Piece → List UInt8
  | .string (some s) => cut s.bytes
  | p => p.text

/-- The number of bytes of a piece that are cut off. -/
def Piece.lost : Piece → ℕ
  | .string (some s) => s.bytes.length - (cut s.bytes).length
  | _ => 0

/-- What is displayed and what is lost make up the text. -/
theorem Piece.length_displayed (p : Piece) : p.displayed.length + p.lost = p.text.length := by
  cases p with
  | char c => rfl
  | number n spec => rfl
  | string s =>
      cases s with
      | none => rfl
      | some s =>
          have hle := length_cut_le s.bytes
          simp only [displayed, lost, text]
          omega

/-- A piece of which nothing is lost is displayed as its text. -/
theorem Piece.displayed_eq {p : Piece} (h : p.lost = 0) : p.displayed = p.text := by
  cases p with
  | char c => rfl
  | number n spec => rfl
  | string s =>
      cases s with
      | none => rfl
      | some s =>
          have hle := length_cut_le s.bytes
          simp only [lost] at h
          exact cut_eq_of_length (by omega)

/-! ### The specifier state -/

/-- The sign that goes on with the machine is not mistaken for `EOF`. -/
def Scan.SignOk : Scan → Prop
  | .next _ spec _ => spec.sign ≠ 0xff
  | .put => True
  | .convert spec => spec.sign ≠ 0xff

section SignOk

variable {append : ℤ → ℕ → ℤ} {state : State} {spec : SpecifierState} {c : UInt8}
  {args : List Arg} {step : Scan}

theorem stateLength_signOk (hsign : spec.sign ≠ 0xff) : (stateLength spec c args).SignOk := by
  unfold stateLength
  split <;> exact hsign

theorem statePrecisionSep_signOk (hsign : spec.sign ≠ 0xff) :
    (statePrecisionSep spec c args).SignOk := by
  unfold statePrecisionSep
  split
  · exact hsign
  · exact stateLength_signOk hsign

theorem stateWidth_signOk (hsign : spec.sign ≠ 0xff) (h : stateWidth spec c args = some step) :
    step.SignOk := by
  unfold stateWidth at h
  split at h
  · obtain ⟨r, -, rfl⟩ := Option.map_eq_some_iff.1 h
    exact hsign
  · split at h
    · cases h
      exact hsign
    · cases h
      exact statePrecisionSep_signOk hsign

theorem statePrecision_signOk (hsign : spec.sign ≠ 0xff)
    (h : statePrecision append spec c args = some step) : step.SignOk := by
  unfold statePrecision at h
  split at h
  · obtain ⟨r, -, rfl⟩ := Option.map_eq_some_iff.1 h
    exact hsign
  · split at h
    · cases h
      exact hsign
    · cases h
      exact stateLength_signOk hsign

theorem stateFlags_signOk (hsign : spec.sign ≠ 0xff) (h : stateFlags spec c args = some step) :
    step.SignOk := by
  unfold stateFlags at h
  split at h
  · cases h
    exact (by decide : byte ' ' ≠ 0xff)
  · cases h
    exact hsign
  · cases h
    exact (by decide : byte '+' ≠ 0xff)
  · cases h
    exact hsign
  · cases h
    exact hsign
  · exact stateWidth_signOk hsign h

/-- Scanning keeps the sign from being mistaken for `EOF`. -/
theorem scan_signOk (hsign : spec.sign ≠ 0xff) (h : scan append state spec c args = some step) :
    step.SignOk := by
  cases state with
  | normal =>
      simp only [scan, Option.some.injEq] at h
      subst h
      split
      · exact hsign
      · trivial
  | flags => exact stateFlags_signOk hsign h
  | width => exact stateWidth_signOk hsign h
  | precisionSep =>
      cases h
      exact statePrecisionSep_signOk hsign
  | precision => exact statePrecision_signOk hsign h
  | length =>
      cases h
      exact stateLength_signOk hsign
  | lengthShort | lengthLong =>
      simp only [scan, Option.some.injEq] at h
      subst h
      split <;> exact hsign
  | spec =>
      cases h
      exact hsign

/-- A number that is converted has a sane specifier state. -/
theorem sane_of_conversion {spec' : SpecifierState} (hsign : spec.sign ≠ 0xff)
    (h : conversion spec c = .number spec') : Sane spec' := by
  have hzero : (0 : UInt8) ≠ 0xff := by decide
  unfold conversion at h
  split at h <;> cases h <;> exact ⟨by simp, by first | exact hsign | exact hzero⟩

end SignOk

/-- The specifier of a negative number, which has the sign in it, is as sane as that of the
number. -/
theorem Sane.magnitude {spec : SpecifierState} (h : Sane spec) (n : Number) :
    Sane (magnitude n spec).2 := by
  have hminus : byte '-' ≠ 0xff := by decide
  unfold Printf.magnitude
  split
  · split
    · exact ⟨h.radix, hminus⟩
    · exact h
  · exact h

/-! ### The loop of `vdprintf_internal` -/

/-- What the descriptor shows of some pieces, one after the other. -/
def displayed (ps : List Piece) : List UInt8 := ps.flatMap Piece.displayed

/-- The stream after some pieces: all of their text is counted, and what is displayed is
written. -/
def Stream.after (k : ℤ) (w : List UInt8) (ps : List Piece) : Stream :=
  ⟨wrapInt (k + (text ps).length), w ++ displayed ps⟩

/-- The code at `PRINTF_STATE_SPEC_` writes the piece of the specifier. -/
theorem vdprintfConvert_eq {fd : ℤ} (hfd : Displayed fd) {spec : SpecifierState} {c : UInt8}
    {args rest : List Arg} {ps : List Piece} (k : ℤ) (w : List UInt8) (hsign : spec.sign ≠ 0xff)
    (hchar : ∀ b, .char b ∈ ps → b ≠ 0) (h : piece spec c args = some (ps, rest)) :
    vdprintfConvert fd spec c ⟨wrapInt k, w⟩ args = some (.after k w ps, rest) := by
  unfold piece at h
  unfold vdprintfConvert
  cases hconv : conversion spec c with
  | percent =>
      simp only [hconv, Option.some.injEq, Prod.mk.injEq] at h ⊢
      obtain ⟨rfl, rfl⟩ := h
      simp [Stream.ignore, Stream.after, dputc_eq hfd (hchar _ List.mem_cons_self), displayed,
        Piece.displayed, Piece.text, wrapInt]
  | char =>
      simp only [hconv, Option.map_eq_some_iff, Prod.mk.injEq] at h ⊢
      obtain ⟨r, hr, rfl, rfl⟩ := h
      refine ⟨r, hr, ?_, rfl⟩
      simp [Stream.ignore, Stream.after, dputc_eq hfd (hchar _ List.mem_cons_self), displayed,
        Piece.displayed, Piece.text, wrapInt]
  | string =>
      simp only [hconv, Option.map_eq_some_iff, Prod.mk.injEq] at h ⊢
      obtain ⟨r, hr, rfl, rfl⟩ := h
      refine ⟨r, hr, ?_, rfl⟩
      cases hstr : r.1 with
      | none =>
          have hnull := (dputs_plain hfd (s := bytes "(null)") (by decide +kernel)).2
          have hlength : (bytes "(null)").length = 6 := rfl
          simp [Stream.ignore, Stream.after, hnull, hlength, displayed, Piece.displayed, Piece.text,
            wrapInt]
      | some str =>
          simp [Stream.ignore, Stream.after, dputs_written hfd str.ne_zero, displayed,
            Piece.displayed, Piece.text, wrapInt]
  | number spec' =>
      simp only [hconv, Option.map_eq_some_iff, Prod.mk.injEq] at h ⊢
      obtain ⟨r, hr, rfl, rfl⟩ := h
      refine ⟨r, hr, ?_, rfl⟩
      have hsane := (sane_of_conversion hsign hconv).magnitude r.1
      simp [Stream.after, printfUint_eq hfd _ hsane, shown, displayed, Piece.displayed,
        Piece.text, wrapInt]
  | invalid =>
      simp only [hconv, Option.some.injEq, Prod.mk.injEq] at h ⊢
      obtain ⟨rfl, rfl⟩ := h
      simp [Stream.after, displayed]

/-- What `vdprintf_internal` writes and counts, in terms of the pieces of the format. -/
theorem vdprintfLoop_eq {fd : ℤ} (hfd : Displayed fd) {format : List UInt8} {state : State}
    {spec : SpecifierState} {args rest : List Arg} {ps : List Piece} (k : ℤ) (w : List UInt8)
    (hsign : spec.sign ≠ 0xff) (hchar : ∀ b, .char b ∈ ps → b ≠ 0)
    (h : pieces appendPrecision format state spec args = some (ps, rest)) :
    vdprintfLoop fd format state spec ⟨wrapInt k, w⟩ args = some (.after k w ps, rest) := by
  induction format generalizing state spec args ps k w with
  | nil =>
      simp only [pieces, Option.some.injEq, Prod.mk.injEq] at h
      obtain ⟨rfl, rfl⟩ := h
      simp [vdprintfLoop, Stream.after, displayed]
  | cons c format ih =>
      simp only [pieces] at h
      simp only [vdprintfLoop]
      cases hscan : scan appendPrecision state spec c args with
      | none => simp [hscan] at h
      | some step =>
          have hstep := scan_signOk hsign hscan
          cases step with
          | next state' spec' args' =>
              simp only [hscan] at h ⊢
              exact ih k w hstep hchar h
          | put =>
              simp only [hscan, Option.map_eq_some_iff, Prod.mk.injEq] at h ⊢
              obtain ⟨r, hr, rfl, rfl⟩ := h
              have hc : c ≠ 0 := hchar c List.mem_cons_self
              have hput : (⟨wrapInt k, w⟩ : Stream).ignore (dputc c fd) 1 =
                  ⟨wrapInt (k + 1), w ++ [c]⟩ := by
                simp [Stream.ignore, dputc_eq hfd hc, wrapInt]
              rw [hput, ih (k + 1) (w ++ [c]) hsign
                (fun b hb => hchar b (List.mem_cons_of_mem _ hb)) hr]
              simp [Stream.after, displayed, Piece.displayed, Piece.text]
              ring_nf
          | convert spec' =>
              cases hpiece : piece spec' c args with
              | none => simp [hscan, hpiece] at h
              | some q =>
                  obtain ⟨qs, args₁⟩ := q
                  simp only [hscan, hpiece, Option.map_eq_some_iff, Prod.mk.injEq] at h ⊢
                  obtain ⟨r, hr, rfl, rfl⟩ := h
                  rw [vdprintfConvert_eq hfd k w hstep
                    (fun b hb => hchar b (List.mem_append_left _ hb)) hpiece]
                  simp only [Stream.after]
                  rw [ih _ _ (by decide) (fun b hb => hchar b (List.mem_append_right _ hb)) hr]
                  simp [Stream.after, displayed]
                  ring_nf

/-! ### The two readings of a format -/

/-- Two pieces of the same kind with the same character, string or number; a number may have
another precision. -/
inductive Piece.Alike : Piece → Piece → Prop
  | char (c : UInt8) : Alike (.char c) (.char c)
  | string (s : Option CString) : Alike (.string s) (.string s)
  | number (n : Number) (spec : SpecifierState) (precision : ℤ) :
      Alike (.number n spec) (.number n { spec with precision := precision })

/-- Two steps that differ in the precision only. -/
inductive Scan.Alike : Scan → Scan → Prop
  | next (state : State) (spec : SpecifierState) (precision : ℤ) (args : List Arg) :
      Alike (.next state spec args) (.next state { spec with precision := precision } args)
  | put : Alike .put .put
  | convert (spec : SpecifierState) (precision : ℤ) :
      Alike (.convert spec) (.convert { spec with precision := precision })

section Alike

variable (append append' : ℤ → ℕ → ℤ) (state : State) (spec : SpecifierState) (precision : ℤ)
  (c : UInt8) (args : List Arg)

theorem stateLength_alike :
    (stateLength spec c args).Alike (stateLength { spec with precision := precision } c args) := by
  unfold stateLength
  split
  · exact .next _ _ precision _
  · exact .next _ _ precision _
  · exact .convert _ precision

theorem statePrecisionSep_alike :
    (statePrecisionSep spec c args).Alike
      (statePrecisionSep { spec with precision := precision } c args) := by
  unfold statePrecisionSep
  split
  · exact .next _ _ 0 _
  · exact stateLength_alike spec precision c args

theorem stateWidth_alike :
    Option.Rel Scan.Alike (stateWidth spec c args)
      (stateWidth { spec with precision := precision } c args) := by
  unfold stateWidth
  split
  · cases vaInt args with
    | none => exact .none
    | some r => exact .some (.next _ _ precision _)
  · split
    · exact .some (.next _ _ precision _)
    · exact .some (statePrecisionSep_alike spec precision c args)

theorem statePrecision_alike :
    Option.Rel Scan.Alike (statePrecision append spec c args)
      (statePrecision append' { spec with precision := precision } c args) := by
  unfold statePrecision
  split
  · cases vaInt args with
    | none => exact .none
    | some r => exact .some (.next _ _ r.1 _)
  · split
    · exact .some (.next _ _ (append' precision (digit c)) _)
    · exact .some (stateLength_alike spec precision c args)

theorem stateFlags_alike :
    Option.Rel Scan.Alike (stateFlags spec c args)
      (stateFlags { spec with precision := precision } c args) := by
  unfold stateFlags
  split <;> first
    | exact .some (.next _ _ precision _)
    | exact stateWidth_alike spec precision c args

/-- The machine takes the same way whatever the precision and its digits. -/
theorem scan_alike :
    Option.Rel Scan.Alike (scan append state spec c args)
      (scan append' state { spec with precision := precision } c args) := by
  cases state with
  | normal =>
      simp only [scan]
      split
      · exact .some (.next _ _ precision _)
      · exact .some .put
  | flags => exact stateFlags_alike spec precision c args
  | width => exact stateWidth_alike spec precision c args
  | precisionSep => exact .some (statePrecisionSep_alike spec precision c args)
  | precision => exact statePrecision_alike append append' spec precision c args
  | length => exact .some (stateLength_alike spec precision c args)
  | lengthShort | lengthLong =>
      simp only [scan]
      split
      · exact .some (.convert _ precision)
      · exact .some (.next _ _ precision _)
  | spec => exact .some (.convert _ precision)

/-- A specifier gives alike pieces whatever the precision. -/
theorem piece_alike {ps : List Piece} {rest : List Arg} (h : piece spec c args = some (ps, rest)) :
    ∃ qs, piece { spec with precision := precision } c args = some (qs, rest) ∧
      List.Forall₂ Piece.Alike ps qs := by
  have hconv : conversion { spec with precision := precision } c =
      match conversion spec c with
      | .number spec => .number { spec with precision := precision }
      | other => other := by
    unfold conversion
    split <;> rfl
  unfold piece at h ⊢
  rw [hconv]
  cases hspec : conversion spec c with
  | percent =>
      simp only [hspec, Option.some.injEq, Prod.mk.injEq] at h
      obtain ⟨rfl, rfl⟩ := h
      exact ⟨_, rfl, .cons (.char _) .nil⟩
  | char =>
      simp only [hspec, Option.map_eq_some_iff, Prod.mk.injEq] at h
      obtain ⟨r, hr, rfl, rfl⟩ := h
      exact ⟨_, by simp only [hr]; rfl, .cons (.char _) .nil⟩
  | string =>
      simp only [hspec, Option.map_eq_some_iff, Prod.mk.injEq] at h
      obtain ⟨r, hr, rfl, rfl⟩ := h
      exact ⟨_, by simp only [hr]; rfl, .cons (.string _) .nil⟩
  | number spec' =>
      simp only [hspec, Option.map_eq_some_iff, Prod.mk.injEq] at h
      obtain ⟨r, hr, rfl, rfl⟩ := h
      have hr' : vaNumber { spec' with precision := precision } args = some r := hr
      exact ⟨_, by simp only [hr']; rfl, .cons (.number _ _ precision) .nil⟩
  | invalid =>
      simp only [hspec, Option.some.injEq, Prod.mk.injEq] at h
      obtain ⟨rfl, rfl⟩ := h
      exact ⟨_, rfl, .nil⟩

/-- Both formatters read the same pieces and arguments, up to precisions. -/
theorem pieces_alike {format : List UInt8} {ps : List Piece} {rest : List Arg}
    (h : pieces append format state spec args = some (ps, rest)) :
    ∃ qs, pieces append' format state { spec with precision := precision } args = some (qs, rest) ∧
      List.Forall₂ Piece.Alike ps qs := by
  induction format generalizing state spec precision args ps with
  | nil =>
      simp only [pieces, Option.some.injEq, Prod.mk.injEq] at h
      obtain ⟨rfl, rfl⟩ := h
      exact ⟨[], rfl, .nil⟩
  | cons c format ih =>
      have hrel := scan_alike append append' state spec precision c args
      simp only [pieces] at h ⊢
      cases hscan : scan append state spec c args with
      | none => simp [hscan] at h
      | some step =>
          rw [hscan] at hrel
          generalize hscan' : scan append' state { spec with precision := precision } c args = other
            at hrel
          obtain ⟨hstep⟩ | _ := hrel
          cases hstep with
          | next state' spec' precision' args' =>
              simp only [hscan] at h
              exact ih state' spec' precision' args' h
          | put =>
              simp only [hscan, Option.map_eq_some_iff, Prod.mk.injEq] at h
              obtain ⟨r, hr, rfl, rfl⟩ := h
              obtain ⟨qs, hqs, halike⟩ := ih .normal spec precision args hr
              exact ⟨.char c :: qs, by simp [hqs], .cons (.char c) halike⟩
          | convert spec' precision' =>
              cases hpiece : piece spec' c args with
              | none => simp [hscan, hpiece] at h
              | some q =>
                  obtain ⟨qs, args₁⟩ := q
                  simp only [hscan, hpiece, Option.map_eq_some_iff, Prod.mk.injEq] at h
                  obtain ⟨r, hr, rfl, rfl⟩ := h
                  obtain ⟨qs', hqs', halike⟩ := piece_alike spec' precision' c args hpiece
                  obtain ⟨rs, hrs, halike'⟩ :=
                    ih .normal resetSpecifierState resetSpecifierState.precision args₁ hr
                  have hrs' : pieces append' format .normal resetSpecifierState args₁ =
                      some (rs, r.2) := hrs
                  refine ⟨qs' ++ rs, by simp [hqs', hrs'], ?_⟩
                  exact List.rel_append halike halike'

end Alike

/-! ### Precision literals -/

/-- The number that a run of digits stands for, in base ten. -/
def literal (ds : List UInt8) : ℕ := ds.foldl (fun n c => n * 10 + digit c) 0

/-- A further digit multiplies the number of a literal by ten and is added to it. -/
theorem literal_append_singleton (ds : List UInt8) (c : UInt8) :
    literal (ds ++ [c]) = literal ds * 10 + digit c := by
  simp only [literal, List.foldl_append, List.foldl_cons, List.foldl_nil]

/-- Every run of digits behind a `.` of the format stands for a number below `2 ^ 63`. -/
def SmallPrecisions (format : List UInt8) : Prop :=
  ∀ front dot ds back, format = front ++ dot :: (ds ++ back) → chr dot = '.' →
    (∀ c ∈ ds, isDigit c = true) → literal ds < 2 ^ 63

/-- What is left of a format with small precisions has small precisions. -/
theorem SmallPrecisions.tail {c : UInt8} {format : List UInt8}
    (h : SmallPrecisions (c :: format)) : SmallPrecisions format := by
  intro front dot ds back heq hdot hds
  exact h (c :: front) dot ds back (by rw [heq, List.cons_append]) hdot hds

/-- The machine is inside a precision literal whose digits so far are those of the precision,
and every continuation of the literal stands for a number below `2 ^ 63`. -/
def InLiteral (format : List UInt8) (precision : ℤ) : Prop :=
  ∃ ds, (∀ c ∈ ds, isDigit c = true) ∧ precision = literal ds ∧
    ∀ es back, format = es ++ back → (∀ c ∈ es, isDigit c = true) →
      literal (ds ++ es) < 2 ^ 63

/-- A literal begins behind a `.`, with no digits yet. -/
theorem SmallPrecisions.inLiteral {c : UInt8} {format : List UInt8}
    (h : SmallPrecisions (c :: format)) (hc : chr c = '.') : InLiteral format 0 := by
  refine ⟨[], by simp, rfl, fun es back heq hes => ?_⟩
  exact h [] c es back (by rw [heq, List.nil_append]) hc hes

/-- Inside a small literal both formatters append the next digit alike, and stay inside it. -/
theorem InLiteral.append {c : UInt8} {format : List UInt8} {precision : ℤ}
    (h : InLiteral (c :: format) precision) (hc : isDigit c = true) :
    appendPrecision precision (digit c) = appendPrecisionOrReset precision (digit c) ∧
      InLiteral format (appendPrecision precision (digit c)) := by
  obtain ⟨ds, hds, rfl, hsmall⟩ := h
  have hnext := hsmall [c] format rfl (by simpa using hc)
  rw [literal_append_singleton] at hnext
  have hnonneg : ¬ (literal ds : ℤ) < 0 := by omega
  have hten : wrapInt64 ((literal ds : ℤ) * 10) = literal ds * 10 :=
    Int.bmod_eq_of_le (by norm_num; omega) (by norm_num; omega)
  have hsum : wrapInt64 ((literal ds : ℤ) * 10 + digit c) = literal ds * 10 + digit c :=
    Int.bmod_eq_of_le (by norm_num; omega) (by norm_num; omega)
  have hvalue : appendPrecision (literal ds) (digit c) = literal (ds ++ [c]) := by
    rw [appendPrecision, hten, hsum, literal_append_singleton]
    push_cast
    rfl
  refine ⟨by rw [appendPrecisionOrReset, if_neg hnonneg], ds ++ [c], ?_, hvalue, ?_⟩
  · intro d hd
    rcases List.mem_append.mp hd with hd | hd
    · exact hds d hd
    · obtain rfl := List.mem_singleton.mp hd
      exact hc
  · intro es back heq hes
    rw [List.append_assoc, List.singleton_append]
    refine hsmall (c :: es) back (by rw [heq, List.cons_append]) ?_
    simpa using ⟨hc, hes⟩

section Literal

variable {append append' : ℤ → ℕ → ℤ} {state : State} {spec spec' : SpecifierState} {c : UInt8}
  {args args' : List Arg}

/-- Reading a length, or the specifier behind it, never leads to the state of a precision. -/
theorem stateLength_ne_precision :
    stateLength spec c args ≠ .next .precision spec' args' := by
  unfold stateLength
  split <;> simp

/-- Behind a width only a `.` leads to a precision, which is zero then. -/
theorem statePrecisionSep_enters
    (h : statePrecisionSep spec c args = .next .precision spec' args') :
    chr c = '.' ∧ spec'.precision = 0 := by
  unfold statePrecisionSep at h
  split at h
  · obtain ⟨-, rfl, -⟩ := Scan.next.inj h
    exact ⟨‹_›, rfl⟩
  · exact absurd h stateLength_ne_precision

/-- Inside a width only a `.` leads to a precision, which is zero then. -/
theorem stateWidth_enters (h : stateWidth spec c args = some (.next .precision spec' args')) :
    chr c = '.' ∧ spec'.precision = 0 := by
  unfold stateWidth at h
  split at h
  · obtain ⟨r, -, hr⟩ := Option.map_eq_some_iff.mp h
    simp at hr
  · split at h
    · exact nomatch h
    · exact statePrecisionSep_enters (Option.some.inj h)

/-- **A precision is entered by a `.` only**, and it is zero then. -/
theorem scan_enters (hstate : state ≠ .precision)
    (h : scan append state spec c args = some (.next .precision spec' args')) :
    chr c = '.' ∧ spec'.precision = 0 := by
  cases state with
  | normal =>
      simp only [scan, Option.some.injEq] at h
      split at h <;> exact nomatch h
  | flags =>
      simp only [scan, stateFlags] at h
      split at h <;> first
        | exact stateWidth_enters h
        | simp at h
  | width => exact stateWidth_enters h
  | precisionSep => exact statePrecisionSep_enters (Option.some.inj h)
  | precision => exact absurd rfl hstate
  | length => exact absurd (Option.some.inj h) stateLength_ne_precision
  | lengthShort | lengthLong =>
      simp only [scan, Option.some.injEq] at h
      split at h <;> exact nomatch h
  | spec => exact nomatch h

/-- Outside of a precision the two formatters take the same step. -/
theorem scan_eq_of_ne (hstate : state ≠ .precision) :
    scan append state spec c args = scan append' state spec c args := by
  cases state <;> first
    | rfl
    | exact absurd rfl hstate

/-- A precision is left, or it is continued by a digit. -/
theorem statePrecision_continues
    (h : statePrecision append spec c args = some (.next .precision spec' args')) :
    isDigit c = true ∧ spec'.precision = append spec.precision (digit c) := by
  unfold statePrecision at h
  split at h
  · obtain ⟨r, -, hr⟩ := Option.map_eq_some_iff.mp h
    simp at hr
  · split at h
    · obtain ⟨-, rfl, -⟩ := Scan.next.inj (Option.some.inj h)
      exact ⟨‹_›, rfl⟩
    · exact absurd (Option.some.inj h) stateLength_ne_precision

/-- **One step on a small literal**: the two formatters take the same step. If it leads into a
precision, the machine is inside a small literal again. -/
theorem scan_small {format : List UInt8} (hsmall : SmallPrecisions (c :: format))
    (hin : state = .precision → InLiteral (c :: format) spec.precision) :
    scan appendPrecision state spec c args = scan appendPrecisionOrReset state spec c args ∧
      (scan appendPrecision state spec c args = some (.next .precision spec' args') →
        InLiteral format spec'.precision) := by
  by_cases hstate : state = .precision
  · subst hstate
    have hlit := hin rfl
    refine ⟨?_, fun h => ?_⟩
    · simp only [scan, statePrecision]
      by_cases hdigit : isDigit c = true
      · rw [(hlit.append hdigit).1]
      · simp only [hdigit]
        rfl
    · obtain ⟨hdigit, heq⟩ := statePrecision_continues h
      exact heq ▸ (hlit.append hdigit).2
  · refine ⟨scan_eq_of_ne hstate, fun h => ?_⟩
    obtain ⟨hdot, hzero⟩ := scan_enters hstate h
    exact hzero ▸ hsmall.inLiteral hdot

end Literal

/-- **Small precisions are read alike**: the two formatters read the same pieces and arguments
from a format whose precision literals stand for numbers below `2 ^ 63`. -/
theorem pieces_small {format : List UInt8} {state : State} {spec : SpecifierState}
    {args : List Arg} (hsmall : SmallPrecisions format)
    (hin : state = .precision → InLiteral format spec.precision) :
    pieces appendPrecision format state spec args =
      pieces appendPrecisionOrReset format state spec args := by
  induction format generalizing state spec args with
  | nil => rfl
  | cons c format ih =>
      have hstep : ∀ spec' args',
          scan appendPrecision state spec c args = scan appendPrecisionOrReset state spec c args ∧
            (scan appendPrecision state spec c args = some (.next .precision spec' args') →
              InLiteral format spec'.precision) :=
        fun spec' args' => scan_small hsmall hin
      have hnormal : ∀ spec args, pieces appendPrecision format .normal spec args =
          pieces appendPrecisionOrReset format .normal spec args :=
        fun spec args => ih hsmall.tail (fun h => nomatch h)
      simp only [pieces, ← (hstep spec args).1, hnormal]
      cases hscan : scan appendPrecision state spec c args with
      | none => rfl
      | some step =>
          cases step with
          | next state' spec' args' =>
              refine ih hsmall.tail fun hstate => ?_
              exact (hstep spec' args').2 (hstate ▸ hscan)
          | put => rfl
          | convert spec' => rfl

/-! ### The unchecked buffer -/

/-- Segments that are put one after the other write as many bytes as they have together. -/
theorem length_writes_foldl (str : ℤ) (o : Out) (segs : List (List UInt8)) :
    (segs.foldl (Out.put str) o).writes.length = o.writes.length + segs.flatten.length := by
  induction segs generalizing o with
  | nil => simp
  | cons bs segs ih =>
      rw [List.foldl_cons, ih, List.flatten_cons]
      simp only [Out.put, List.length_append, length_place]
      omega

/-- Without the checks of the size, a string is written as a whole. -/
theorem putString_unchecked (size : ℕ) (o : Out) (s : List UInt8) :
    ∃ o', putString size false o s = .ok o' ∧
      o'.writes.length = o.writes.length + s.length := by
  induction s generalizing o with
  | nil => exact ⟨o, rfl, rfl⟩
  | cons b s ih =>
      obtain ⟨o', hok, hlength⟩ := ih (o.put 0 [b])
      refine ⟨o', hok, ?_⟩
      rw [hlength]
      simp only [Out.put, List.length_append, length_place, List.length_cons, List.length_nil]
      omega

/-- Without the checks of the size, a piece is written as a whole, whatever it is. -/
theorem emit_unchecked (size : ℕ) (o : Out) (p : Piece) :
    ∃ o', emit size false o p = .ok o' ∧ o'.writes.length = o.writes.length + p.text.length := by
  cases p with
  | char c =>
      refine ⟨o.put 0 [c], rfl, ?_⟩
      simp [Out.put, Piece.text]
  | string s =>
      cases s with
      | none =>
          refine ⟨_, rfl, ?_⟩
          have hfold := length_writes_foldl 0 o ((bytes "(null)").map fun b => [b])
          rw [List.foldl_map] at hfold
          exact hfold
      | some s => exact putString_unchecked size o s.bytes
  | number n spec =>
      refine ⟨o.putNumber n spec, rfl, ?_⟩
      simp only [Out.putNumber, sprintfUint_eq, List.length_append, length_writes_foldl,
        flatten_segments, List.length_nil, Nat.zero_add, Piece.text]

/-- Without the checks of the size, all pieces are written as a whole, one after the other. -/
theorem emits_unchecked (size : ℕ) (o : Out) (ps : List Piece) :
    ∃ o', emits size false o ps = .ok o' ∧
      o'.writes.length = o.writes.length + (text ps).length := by
  induction ps generalizing o with
  | nil => exact ⟨o, rfl, rfl⟩
  | cons p ps ih =>
      obtain ⟨o₁, hemit, hlength⟩ := emit_unchecked size o p
      obtain ⟨o₂, hemits, hlength'⟩ := ih o₁
      refine ⟨o₂, by simp only [emits, hemit, hemits], ?_⟩
      rw [hlength', hlength, text_cons, List.length_append]
      omega

/-- The writes of a text at an index determine the bytes of this text. -/
theorem place_injective (index : ℤ) : Function.Injective (place index) := by
  intro as
  induction as generalizing index with
  | nil =>
      intro bs h
      cases bs with
      | nil => rfl
      | cons b bs => simp [place] at h
  | cons a as ih =>
      intro bs h
      cases bs with
      | nil => simp [place] at h
      | cons b bs =>
          simp only [place, List.cons.injEq, Prod.mk.injEq, true_and] at h
          rw [h.1, ih (index + 1) h.2]

/-! ### Agreement -/

/-- The number of bytes that the descriptor loses. -/
def lost (ps : List Piece) : ℕ := (ps.map Piece.lost).sum

/-- What is displayed and what is lost make up the text. -/
theorem length_displayed (ps : List Piece) :
    (displayed ps).length + lost ps = (text ps).length := by
  induction ps with
  | nil => rfl
  | cons p ps ih =>
      have hp := p.length_displayed
      simp only [displayed, lost, List.flatMap_cons, List.map_cons, List.sum_cons,
        List.length_append, text_cons] at ih ⊢
      omega

/-- Pieces of which nothing is lost are displayed as their text. -/
theorem displayed_eq {ps : List Piece} (h : lost ps = 0) : displayed ps = text ps := by
  induction ps with
  | nil => rfl
  | cons p ps ih =>
      simp only [lost, List.map_cons, List.sum_cons, Nat.add_eq_zero_iff] at h
      simp only [displayed, List.flatMap_cons, text_cons, Piece.displayed_eq h.1]
      exact congrArg (p.text ++ ·) (ih h.2)

/-- Nothing is lost exactly when no string has a byte `0xff` before its end. -/
theorem lost_eq_zero_iff (ps : List Piece) :
    lost ps = 0 ↔ ∀ s, .string (some s) ∈ ps → ∀ b ∈ s.bytes.dropLast, b ≠ 0xff := by
  induction ps with
  | nil => simp [lost]
  | cons p ps ih =>
      have hstep : lost (p :: ps) = 0 ↔ p.lost = 0 ∧ lost ps = 0 := by
        simp [lost]
      have hp : p.lost = 0 ↔ ∀ s, p = .string (some s) → ∀ b ∈ s.bytes.dropLast, b ≠ 0xff := by
        cases p with
        | char c => simp [Piece.lost]
        | number n spec => simp [Piece.lost]
        | string s =>
            cases s with
            | none => simp [Piece.lost]
            | some s =>
                have hle := length_cut_le s.bytes
                have hiff := length_cut_eq_iff s.bytes
                simp only [Piece.lost, Piece.string.injEq, Option.some.injEq, forall_eq']
                rw [← hiff]
                omega
      rw [hstep, ih, hp]
      constructor
      · rintro ⟨hhead, htail⟩ s hs
        rcases List.mem_cons.1 hs with heq | hmem
        · exact hhead s heq.symm
        · exact htail s hmem
      · intro h
        exact ⟨fun s hs => h s (hs ▸ List.mem_cons_self),
          fun s hs => h s (List.mem_cons_of_mem _ hs)⟩

/-- Pieces that are alike, one by one, lose the same number of bytes. -/
theorem lost_alike {ps qs : List Piece} (h : List.Forall₂ Piece.Alike ps qs) :
    lost ps = lost qs := by
  induction h with
  | nil => rfl
  | cons hpq _ ih =>
      simp only [lost, List.map_cons, List.sum_cons] at ih ⊢
      rw [ih]
      cases hpq <;> rfl

/-- Pieces that are alike, one by one, have the same characters in them. -/
theorem char_mem_of_alike {ps qs : List Piece} (h : List.Forall₂ Piece.Alike ps qs) {c : UInt8}
    (hc : .char c ∈ qs) : .char c ∈ ps := by
  induction h with
  | nil => exact hc
  | cons hpq _ ih =>
      rcases List.mem_cons.1 hc with rfl | hmem
      · cases hpq
        exact List.mem_cons_self
      · exact List.mem_cons_of_mem _ (ih hmem)

/-- The two formatters give one text: what the first writes to the descriptor, the second
stores from the start of the buffer with a terminator, both leave the same arguments, and both
return the length of the text. -/
def SameText (fd : ℤ) (fmtStr : ℤ → UInt8) (size : ℕ) (format : CString) (args : List Arg) :
    Prop :=
  ∃ (t : List UInt8) (left : List Arg),
    vdprintfInternal fd (some format) args = some ((t.length : ℤ), t, left) ∧
    vsnprintfInternal (some fmtStr) size false (some format) args =
      some ⟨t.length, place 0 (t ++ [0]), left⟩

/-- The text has an `int` length, no string has a byte `0xff` before its end, and the reading
of the precisions by `vdprintf_internal` gives the text too. -/
structure Agreeable (format : CString) (args : List Arg) (ps : List Piece) : Prop where
  length_lt : (text ps).length < 2 ^ 31
  strings : ∀ s, .string (some s) ∈ ps → ∀ b ∈ s.bytes.dropLast, b ≠ 0xff
  readings : ∃ qs left, pieces appendPrecision format.bytes .normal resetSpecifierState args =
    some (qs, left) ∧ text qs = text ps

/-- With precision literals below `2 ^ 63` the readings always give the same text, so that the
length of the text and the bytes of its strings decide. -/
theorem agreeable_iff_of_small {format : CString} {args rest : List Arg} {ps : List Piece}
    (hsmall : SmallPrecisions format.bytes)
    (hmatch : pieces appendPrecisionOrReset format.bytes .normal resetSpecifierState args =
      some (ps, rest)) :
    Agreeable format args ps ↔ (text ps).length < 2 ^ 31 ∧
      ∀ s, .string (some s) ∈ ps → ∀ b ∈ s.bytes.dropLast, b ≠ 0xff := by
  constructor
  · exact fun h => ⟨h.length_lt, h.strings⟩
  · rintro ⟨hlt, hstrings⟩
    have hread : pieces appendPrecision format.bytes .normal resetSpecifierState args =
        pieces appendPrecisionOrReset format.bytes .normal resetSpecifierState args :=
      pieces_small hsmall (fun h => nomatch h)
    exact ⟨hlt, hstrings, ps, rest, hread.trans hmatch, rfl⟩

/-- The two formatters give the same text exactly when it has an `int` length, no string has a
byte `0xff` before its end, and the precisions are read alike. -/
theorem formatters_agree_iff {fd : ℤ} (fmtStr : ℤ → UInt8) (size : ℕ) {format : CString}
    {args rest : List Arg} {ps : List Piece} (hfd : Displayed fd)
    (hmatch : pieces appendPrecisionOrReset format.bytes .normal resetSpecifierState args =
      some (ps, rest))
    (hchar : ∀ c, .char c ∈ ps → c ≠ 0) :
    SameText fd fmtStr size format args ↔ Agreeable format args ps := by
  -- the stream: all of the text is counted, what is lost is not written
  obtain ⟨qs, hqs, halike⟩ := pieces_alike appendPrecisionOrReset appendPrecision .normal
    resetSpecifierState resetSpecifierState.precision args hmatch
  have hqs' : pieces appendPrecision format.bytes .normal resetSpecifierState args =
      some (qs, rest) := hqs
  have hstream : vdprintfInternal fd (some format) args =
      some (wrapInt (text qs).length, displayed qs, rest) := by
    have hsign : resetSpecifierState.sign ≠ 0xff := by decide
    have hloop := vdprintfLoop_eq hfd 0 [] hsign
      (fun b hb => hchar b (char_mem_of_alike halike hb)) hqs'
    have hnonneg : ¬ fd < 0 := by
      rcases hfd with rfl | rfl <;> norm_num
    have hzero : wrapInt 0 = 0 := by simp [wrapInt]
    rw [hzero] at hloop
    simp only [vdprintfInternal, if_neg hnonneg, hloop, Option.map_some, Stream.after, zero_add,
      List.nil_append]
  -- the buffer: every byte is written, in order while the length is an `int`
  obtain ⟨o, hemits, hlength⟩ := emits_unchecked size ⟨0, []⟩ ps
  obtain ⟨args', hloop, hargs⟩ := vsnprintfLoop_eq size false ⟨0, []⟩ hmatch
  obtain rfl := hargs o hemits
  have hbuffer : vsnprintfInternal (some fmtStr) size false (some format) args =
      some ⟨o.printed, o.writes ++ [(o.printed, 0)], args'⟩ := by
    simp only [vsnprintfInternal, hloop, hemits, atEnd, Bool.false_and, Bool.false_eq_true,
      if_false, Option.map_some]
  have hplaced : (text ps).length < 2 ^ 31 → Placed 0 o (text ps) := by
    intro hlt
    have hstart : Placed 0 ⟨0, []⟩ [] := ⟨rfl, rfl⟩
    obtain ⟨o', hemits', hplaced⟩ := emits_ok size false ps hstart hlt (by simp)
    rw [hemits, Except.ok.injEq] at hemits'
    subst hemits'
    exact hplaced
  have hwrites : (text ps).length < 2 ^ 31 →
      o.writes ++ [(o.printed, 0)] = place 0 (text ps ++ [0]) := by
    intro hlt
    rw [(hplaced hlt).writes, (hplaced hlt).printed, place_append, zero_add]
    rfl
  have hsplit := length_displayed qs
  have hlost := lost_alike halike
  have hlostps := length_displayed ps
  constructor
  · rintro ⟨t, left, ht, hstore⟩
    rw [hstream, Option.some.injEq, Prod.mk.injEq, Prod.mk.injEq] at ht
    obtain ⟨hret, rfl, rfl⟩ := ht
    rw [hbuffer, Option.some.injEq, Result.mk.injEq] at hstore
    have hsame : (text ps).length = (displayed qs).length := by
      have := congrArg List.length hstore.2.1
      simp only [List.length_append, length_place, List.length_singleton, hlength,
        List.length_nil] at this
      omega
    have hint := isInt_wrapInt (text qs).length
    rw [hret] at hint
    have hlt : (text ps).length < 2 ^ 31 := by
      unfold IsInt at hint
      omega
    have htext : text ps = displayed qs := by
      have := hstore.2.1
      rw [hwrites hlt] at this
      exact List.append_cancel_right (place_injective 0 this)
    have hnone : lost qs = 0 := by
      by_cases hsmall : (text qs).length < 2 ^ 31
      · rw [wrapInt_of_lt hsmall] at hret
        omega
      · rw [wrapInt_of_ge (by omega) (by omega)] at hret
        omega
    exact ⟨hlt, (lost_eq_zero_iff ps).1 (hlost.trans hnone), qs, _, hqs',
      (displayed_eq hnone).symm.trans htext.symm⟩
  · rintro ⟨hlt, hstrings, qs', left, hread, htext⟩
    rw [hqs', Option.some.injEq, Prod.mk.injEq] at hread
    obtain ⟨rfl, rfl⟩ := hread
    have hnone : lost qs = 0 := hlost.symm.trans ((lost_eq_zero_iff ps).2 hstrings)
    refine ⟨text ps, args', ?_, ?_⟩
    · rw [hstream, displayed_eq hnone, htext, wrapInt_of_lt hlt]
    · rw [hbuffer, hwrites hlt, (hplaced hlt).printed]

/-- The bytes of the format `%s` are not zero, so it is a C string. -/
theorem percentS_ne_zero : ∀ b ∈ bytes "%s", b ≠ 0 := by
  decide +kernel

/-- The format `%s`. -/
def percentS : CString := ⟨bytes "%s", percentS_ne_zero⟩

/-- A string whose first byte is `0xff`. -/
def yDiaeresis : CString := ⟨[0xff, 65], by decide +kernel⟩

/-- A string with the byte `0xff` at its end is formatted alike. -/
theorem formatters_agree_iff_end :
    SameText 1 (fun _ => 0) 0 percentS [.str (some ⟨[65, 0xff], by decide +kernel⟩)] := by
  have hmatch : pieces appendPrecisionOrReset percentS.bytes .normal resetSpecifierState
      [.str (some ⟨[65, 0xff], by decide +kernel⟩)] =
        some ([.string (some ⟨[65, 0xff], by decide +kernel⟩)], []) := rfl
  refine (formatters_agree_iff (fun _ => 0) 0 (.inl rfl) hmatch (by simp)).2 ⟨?_, ?_, ?_⟩
  · simp [text, Piece.text]
  · simp
  · exact ⟨_, _, rfl, rfl⟩

/-- `printf("%s", "\xffA")` writes one byte, returns two, and `sprintf` stores two bytes. -/
theorem formatters_disagree : ¬ SameText 1 (fun _ => 0) 0 percentS [.str (some yDiaeresis)] := by
  have hstream : (vdprintfInternal 1 (some percentS) [.str (some yDiaeresis)]).map
      (fun r => (r.1, r.2.1)) = some (2, [0xff]) := by decide +kernel
  rintro ⟨t, left, ht, -⟩
  rw [ht, Option.map_some, Option.some.injEq, Prod.mk.injEq] at hstream
  obtain ⟨hret, rfl⟩ := hstream
  simp at hret

end MugOS.Printf
