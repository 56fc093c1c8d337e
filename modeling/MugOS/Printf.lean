import Mathlib.Tactic
import MugOS.Memory

/-!
# Bounded Formatting

`vsnprintf_internal` of `Stdlib/printf.c`. The format is read by a machine with nine states;
where the source jumps from the code of one state into the code of the next, the function of
the first state calls that of the second. `printed` is an `int` that serves as the index of the
next byte of the buffer, so a formatted text is a list of writes, each at an integer index.

The kernel is built without optimisation and its sanitizer only logs, so signed arithmetic
wraps around. A `va_list` is a list of 64-bit words and of strings; reading an argument of the
wrong kind has no result.
-/

namespace MugOS.Printf

/-! ### Integers, characters and arguments -/

/-- The conversion to `int`: the number modulo `2 ^ 32`, in the signed range. -/
def wrapInt (z : ℤ) : ℤ := z.bmod (2 ^ 32)

/-- The conversion to `int64_t`: the number modulo `2 ^ 64`, in the signed range. -/
def wrapInt64 (z : ℤ) : ℤ := z.bmod (2 ^ 64)

/-- The conversion to `uint64_t`: the number modulo `2 ^ 64`. -/
def wrapUInt64 (z : ℤ) : ℕ := (z % 2 ^ 64).toNat

/-- The character that a byte stands for, by its code. -/
def chr (c : UInt8) : Char := Char.ofNat c.toNat

/-- The byte of an ASCII character, its code. -/
def byte (c : Char) : UInt8 := UInt8.ofNat c.toNat

/-- The bytes of an ASCII literal, without a terminator. -/
def bytes (s : String) : List UInt8 := s.toList.map byte

/-- A C string, without its terminator: none of its bytes is zero. -/
structure CString where
  bytes : List UInt8
  ne_zero : ∀ b ∈ bytes, b ≠ 0

/-- An argument: a word, or a `const char*` that may be `NULL`. -/
inductive Arg
  | word (w : BitVec 64)
  | str (s : Option CString)

/-- The next word of the arguments. -/
def vaWord : List Arg → Option (BitVec 64 × List Arg)
  | .word w :: args => some (w, args)
  | _ => none

/-- `va_arg(args, int)`: the next argument, of which the lowest 32 bits count. -/
def vaInt (args : List Arg) : Option (ℤ × List Arg) :=
  (vaWord args).map fun r => ((r.1.setWidth 32).toInt, r.2)

/-- `va_arg(args, const char*)`. -/
def vaString : List Arg → Option (Option CString × List Arg)
  | .str s :: args => some (s, args)
  | _ => none

/-! ### The state machine -/

/-- `enum PRINTF_STATE`: what the formatter expects next in a specifier. -/
inductive State
  | normal | flags | width | precisionSep | precision | length | lengthShort | lengthLong | spec
  deriving DecidableEq

/-- `enum PRINTF_LENGTH`: the length of an argument that a specifier asks for. -/
inductive Length
  | default | shortShort | short | long | longLong
  deriving DecidableEq

/-- `struct specifierState`: what has been read of a specifier. -/
structure SpecifierState where
  putPrefix : Bool
  padRight : Bool
  padWithZeros : Bool
  sign : UInt8
  width : ℕ
  precision : ℤ
  length : Length
  radix : ℕ
  numberSigned : Bool
  uppercase : Bool
  deriving DecidableEq

/-- `resetSpecifierState(spec)`. -/
def resetSpecifierState : SpecifierState :=
  ⟨false, false, false, 0, 0, -1, .default, 10, false, false⟩

/-- What the machine does with one character: it goes on to the next one, it puts the
character into the output, or it reaches `PRINTF_STATE_SPEC_`. -/
inductive Scan
  | next (state : State) (spec : SpecifierState) (args : List Arg)
  | put
  | convert (spec : SpecifierState)

/-- The characters from `0` to `9`, as the source compares them. -/
def isDigit (c : UInt8) : Bool := 48 ≤ c.toNat && c.toNat ≤ 57

/-- `*format - '0'`: the value of a digit. -/
def digit (c : UInt8) : ℕ := c.toNat - 48

/-- `PRINTF_STATE_LENGTH_`: a length, or the specifier character itself. -/
def stateLength (spec : SpecifierState) (c : UInt8) (args : List Arg) : Scan :=
  match chr c with
  | 'h' => .next .lengthShort { spec with length := .short } args
  | 'l' => .next .lengthLong { spec with length := .long } args
  | _ => .convert spec

/-- `PRINTF_STATE_PRECISION_SEP_`: a `.` in front of a precision, or else a length. -/
def statePrecisionSep (spec : SpecifierState) (c : UInt8) (args : List Arg) : Scan :=
  if chr c = '.' then .next .precision { spec with precision := 0 } args
  else stateLength spec c args

/-- `PRINTF_STATE_WIDTH_`: a `*`, a digit of the width, or what stands behind it. -/
def stateWidth (spec : SpecifierState) (c : UInt8) (args : List Arg) : Option Scan :=
  if chr c = '*' then
    (vaInt args).map fun r => .next .precisionSep { spec with width := wrapUInt64 r.1 } r.2
  else if isDigit c then
    some (.next .width { spec with width := (spec.width * 10 + digit c) % 2 ^ 64 } args)
  else some (statePrecisionSep spec c args)

/-- `case PRINTF_STATE_PRECISION`, where the two formatters differ in how they append a digit
to the precision. -/
def statePrecision (append : ℤ → ℕ → ℤ) (spec : SpecifierState) (c : UInt8) (args : List Arg) :
    Option Scan :=
  if chr c = '*' then
    (vaInt args).map fun r => .next .length { spec with precision := r.1 } r.2
  else if isDigit c then
    some (.next .precision { spec with precision := append spec.precision (digit c) } args)
  else some (stateLength spec c args)

/-- `case PRINTF_STATE_FLAGS`: one more flag, or what stands behind the flags. -/
def stateFlags (spec : SpecifierState) (c : UInt8) (args : List Arg) : Option Scan :=
  match chr c with
  | ' ' => some (.next .flags { spec with sign := byte ' ' } args)
  | '#' => some (.next .flags { spec with putPrefix := true } args)
  | '+' => some (.next .flags { spec with sign := byte '+' } args)
  | '-' => some (.next .flags { spec with padRight := true } args)
  | '0' => some (.next .flags { spec with padWithZeros := true } args)
  | _ => stateWidth spec c args

/-- `switch (state)`, up to `PRINTF_STATE_SPEC_`. -/
def scan (append : ℤ → ℕ → ℤ) (state : State) (spec : SpecifierState) (c : UInt8)
    (args : List Arg) : Option Scan :=
  match state with
  | .normal => some (if chr c = '%' then .next .flags spec args else .put)
  | .flags => stateFlags spec c args
  | .width => stateWidth spec c args
  | .precisionSep => some (statePrecisionSep spec c args)
  | .precision => statePrecision append spec c args
  | .length => some (stateLength spec c args)
  | .lengthShort => some (if chr c ≠ 'h' then .convert spec
      else .next .spec { spec with length := .shortShort } args)
  | .lengthLong => some (if chr c ≠ 'l' then .convert spec
      else .next .spec { spec with length := .longLong } args)
  | .spec => some (.convert spec)

/-- `spec_state.precision *= 10; spec_state.precision += (*format - '0');` -/
def appendPrecision (precision : ℤ) (d : ℕ) : ℤ := wrapInt64 (wrapInt64 (precision * 10) + d)

/-- The same after `if (spec_state.precision < 0) spec_state.precision = 0;`. -/
def appendPrecisionOrReset (precision : ℤ) (d : ℕ) : ℤ :=
  appendPrecision (if precision < 0 then 0 else precision) d

/-- What a specifier character asks for, with the radix and case of a number. -/
inductive Conversion
  | percent | char | string | number (spec : SpecifierState) | invalid

/-- `switch (*format)` at `PRINTF_STATE_SPEC_`, without the output. -/
def conversion (spec : SpecifierState) (c : UInt8) : Conversion :=
  match chr c with
  | '%' => .percent
  | 'X' => .number { spec with
      numberSigned := false, radix := 16, uppercase := true, sign := 0 }
  | 'c' => .char
  | 's' => .string
  | 'd' | 'i' => .number { spec with numberSigned := true, radix := 10 }
  | 'o' => .number { spec with numberSigned := false, radix := 8 }
  | 'p' => .number { spec with
      length := .longLong, putPrefix := true, numberSigned := false, radix := 16, sign := 0 }
  | 'u' => .number { spec with numberSigned := false, radix := 10 }
  | 'x' => .number { spec with
      numberSigned := false, radix := 16, sign := 0, uppercase := false }
  | _ => .invalid

/-- A number argument with its signedness, as the formatter passes it on. -/
inductive Number
  | signed (n : ℤ)
  | unsigned (n : ℕ)

/-- The `va_arg` of a number, by its length and signedness. -/
def vaNumber (spec : SpecifierState) (args : List Arg) : Option (Number × List Arg) :=
  (vaWord args).map fun r =>
    (match spec.length with
      | .long | .longLong => if spec.numberSigned then .signed r.1.toInt else .unsigned r.1.toNat
      | _ => if spec.numberSigned then .signed (r.1.setWidth 32).toInt
          else .unsigned (r.1.setWidth 32).toNat, r.2)

/-! ### Numbers -/

/-- The sign and the magnitude of a number: `spec->sign = '-'` and the negated number, for a
negative one. -/
def magnitude (number : Number) (spec : SpecifierState) : ℕ × SpecifierState :=
  match number with
  | .signed n => if n < 0 then (wrapUInt64 (wrapInt64 (-n)), { spec with sign := byte '-' })
      else (wrapUInt64 n, spec)
  | .unsigned n => (n, spec)

/-- `hexChars`: the characters of the digits, in small or capital letters. -/
def hexChars (uppercase : Bool) : List UInt8 :=
  bytes (if uppercase then "0123456789ABCDEF" else "0123456789abcdef")

/-- The loop that converts a number to ASCII: the characters of `buffer`, of which there is
room for `room`, from the least significant digit on. -/
def convertDigits (radix : ℕ) (hexChars : List UInt8) : ℕ → ℕ → List UInt8
  | 0, _ => []
  | room + 1, number => hexChars.getD (number % radix) 0 ::
      if 0 < number / radix then convertDigits radix hexChars room (number / radix) else []

/-- The digits of a number in the order of `buffer`. -/
def buffer (number : ℕ) (spec : SpecifierState) : List UInt8 :=
  convertDigits spec.radix (hexChars spec.uppercase) 128 number

/-- `padding_spaces` and `padding_zeros` for a number of `pos` digits. -/
def paddings (spec : SpecifierState) (pos : ℕ) : ℤ × ℤ :=
  let spaces := wrapInt64 (wrapInt64 spec.width -
    if pos > spec.precision then (pos : ℤ) else spec.precision)
  let spaces := if spec.putPrefix then wrapInt64 (spaces - if spec.radix > 9 then 2 else 1)
    else spaces
  let spaces := if spec.sign ≠ 0 then wrapInt64 (spaces - 1) else spaces
  let zeros := wrapInt64 (spec.precision - pos)
  if spec.padWithZeros && !spec.padRight then
    if spec.precision < 0 then (0, spaces)
    else if spec.width > wrapUInt64 spec.precision then (0, wrapInt64 (zeros + spaces))
    else (spaces, zeros)
  else (spaces, zeros)

/-- The bytes of `sprintf_uint_putPadding(str, n, padding)`, where `n` is an `int`. -/
def padding (n : ℤ) (padding : Char) : List UInt8 :=
  List.replicate (wrapInt n).toNat (byte padding)

/-- The bytes of `sprintf_uint_putPrefix(str, radix, uppercase)`. -/
def numberPrefix (radix : ℕ) (uppercase : Bool) : List UInt8 :=
  match radix with
  | 8 => bytes "0"
  | 16 => bytes (if uppercase then "0X" else "0x")
  | _ => []

/-- The table `guess`. -/
def guess : List ℕ :=
  [0, 0, 0, 0, 1, 1, 1, 2, 2, 2,
    3, 3, 3, 3, 4, 4, 4, 5, 5, 5,
    6, 6, 6, 6, 7, 7, 7, 8, 8, 8,
    9, 9, 9, 9, 10, 10, 10, 11, 11, 11,
    12, 12, 12, 12, 13, 13, 13, 14, 14, 14,
    15, 15, 15, 15, 16, 16, 16, 17, 17, 17,
    18, 18, 18, 18, 19]

/-- `getNumberOfDigits_base10(number)`: a guess from the number of bits, corrected by a
comparison. -/
def getNumberOfDigitsBase10 (number : ℕ) : ℕ :=
  if number = 0 then 1
  else
    -- `64 - __builtin_clzll(number)` is the number of bits
    let digits := guess.getD number.size 0
    digits + if number ≥ 10 ^ digits then 1 else 0

/-- The loop of `getNumberOfDigits_base16` and `getNumberOfDigits_base8`, of at most `fuel`
turns. -/
def shiftCount (bits : ℕ) : ℕ → ℕ → ℕ
  | 0, _ => 0
  | fuel + 1, number => if number > 0 then shiftCount bits fuel (number >>> bits) + 1 else 0

/-- `getNumberOfDigits(number, base)`: the number of digits in base 10, 16 or 8. -/
def getNumberOfDigits (number base : ℕ) : ℕ :=
  if base = 10 then getNumberOfDigitsBase10 number
  else if number = 0 then 1
  else if base = 16 then shiftCount 4 64 number
  else shiftCount 3 64 number

/-- `getSizeOfNumberToPrint_unsigned(number, spec)`. -/
def getSizeOfNumberToPrintUnsigned (number : ℕ) (spec : SpecifierState) : ℕ :=
  if spec.precision = 0 ∧ number = 0 then 0
  else
    let size := getNumberOfDigits number spec.radix
    let size := if spec.precision > 0 ∧ spec.precision > size then spec.precision.toNat else size
    let size := if spec.putPrefix then wadd size (if spec.radix > 9 then 2 else 1) else size
    let size := if spec.sign ≠ 0 then wadd size 1 else size
    if spec.width > size then spec.width else size

/-- `getSizeOfNumberToPrint_signed` or `getSizeOfNumberToPrint_unsigned`. -/
def getSizeOfNumberToPrint (number : Number) (spec : SpecifierState) : ℕ :=
  getSizeOfNumberToPrintUnsigned (magnitude number spec).1 (magnitude number spec).2

/-! ### Writing -/

/-- The writes of some bytes from an index on, in their order. -/
def place (index : ℤ) : List UInt8 → List (ℤ × UInt8)
  | [] => []
  | b :: bs => (index, b) :: place (index + 1) bs

/-- `printed` and what has been written so far: each write with its index. -/
structure Out where
  printed : ℤ
  writes : List (ℤ × UInt8)

/-- Bytes that are put at `str + printed`, and `printed += n`. -/
def Out.put (str : ℤ) (o : Out) (bs : List UInt8) : Out :=
  ⟨wrapInt (o.printed + bs.length), o.writes ++ place (str + o.printed) bs⟩

/-- `sprintf_uint(str, number, spec)`, with `str` an index of the buffer. -/
def sprintfUint (str : ℤ) (number : ℕ) (spec : SpecifierState) : Out :=
  let o : Out := ⟨0, []⟩
  if spec.precision = 0 ∧ number = 0 then o
  else
    let buffer := buffer number spec
    let pad := paddings spec buffer.length
    let o := if !spec.padRight then o.put str (padding pad.1 ' ') else o
    let o := if spec.sign ≠ 0 then o.put str [spec.sign] else o
    let o := if spec.putPrefix then o.put str (numberPrefix spec.radix spec.uppercase) else o
    let o := o.put str (padding pad.2 '0')
    let o := buffer.reverse.foldl (fun o b => o.put str [b]) o
    if spec.padRight then o.put str (padding pad.1 ' ') else o

/-- `sprintf_int` or `sprintf_uint`, after which `printed` is advanced by the result. -/
def Out.putNumber (o : Out) (number : Number) (spec : SpecifierState) : Out :=
  let res := sprintfUint o.printed (magnitude number spec).1 (magnitude number spec).2
  ⟨wrapInt (o.printed + res.printed), o.writes ++ res.writes⟩

/-- `snprintf_isBoundaryExceeded(size, printed + n, checkSize)`. -/
def isBoundaryExceeded (size : ℕ) (checkSize : Bool) (o : Out) (n : ℕ) : Bool :=
  checkSize && wadd (wrapUInt64 o.printed) n > wsub size 1

/-- `vsnprintf_internal_checkBoundaries(size, printed + n, checkSize)` before some output; an
error is the jump to `end`. -/
def checkBoundaries (size : ℕ) (checkSize : Bool) (o : Out) (n : ℕ) : Except Out Out :=
  if isBoundaryExceeded size checkSize o n then .error { o with printed := -1 } else .ok o

/-- A character that is put behind what is printed, if the check lets it pass. -/
def putChar (size : ℕ) (checkSize : Bool) (o : Out) (c : UInt8) : Except Out Out := do
  let o ← checkBoundaries size checkSize o 1
  return o.put 0 [c]

/-- The loop over the characters of a `%s`, each of them put with its own check. -/
def putString (size : ℕ) (checkSize : Bool) : Out → List UInt8 → Except Out Out
  | o, [] => .ok o
  | o, b :: s => do
      let o ← putChar size checkSize o b
      putString size checkSize o s

/-- A `%s`, with six unchecked characters after one check for `NULL`. -/
def putStringOrNull (size : ℕ) (checkSize : Bool) (o : Out) : Option CString → Except Out Out
  | none => do
      let o ← checkBoundaries size checkSize o 6
      return (bytes "(null)").foldl (fun o b => o.put 0 [b]) o
  | some s => putString size checkSize o s.bytes

/-- A number that is put behind what is printed, if its predicted size passes the check. -/
def putNumber (size : ℕ) (checkSize : Bool) (o : Out) (number : Number) (spec : SpecifierState) :
    Except Out Out := do
  let o ← checkBoundaries size checkSize o (getSizeOfNumberToPrint number spec)
  return o.putNumber number spec

/-- The code at `PRINTF_STATE_SPEC_`: the output and the remaining arguments, or an error and
the arguments at the jump to `end`. -/
def vsnprintfConvert (size : ℕ) (checkSize : Bool) (spec : SpecifierState) (c : UInt8) (o : Out)
    (args : List Arg) : Option (Except Out Out × List Arg) :=
  match conversion spec c with
  | .percent => some (putChar size checkSize o (byte '%'), args)
  | .char =>
      -- the boundary is checked before the argument is read
      match checkBoundaries size checkSize o 1 with
      | .error o => some (.error o, args)
      | .ok o => (vaInt args).map fun r => (.ok (o.put 0 [UInt8.ofNat (wrapUInt64 r.1)]), r.2)
  | .string => (vaString args).map fun r => (putStringOrNull size checkSize o r.1, r.2)
  | .number spec => (vaNumber spec args).map fun r => (putNumber size checkSize o r.1 spec, r.2)
  | .invalid => some (.ok o, args)

/-- The loop of `vsnprintf_internal` over the format, up to `end`. -/
def vsnprintfLoop (size : ℕ) (checkSize : Bool) :
    List UInt8 → State → SpecifierState → Out → List Arg → Option (Out × List Arg)
  | [], _, _, o, args => some (o, args)
  | c :: format, state, spec, o, args =>
      match scan appendPrecisionOrReset state spec c args with
      | none => none
      | some (.next state spec args) => vsnprintfLoop size checkSize format state spec o args
      | some .put =>
          match putChar size checkSize o c with
          | .error o => some (o, args)
          | .ok o => vsnprintfLoop size checkSize format .normal spec o args
      | some (.convert spec) =>
          match vsnprintfConvert size checkSize spec c o args with
          | none => none
          | some (.error o, args) => some (o, args)
          | some (.ok o, args) =>
              vsnprintfLoop size checkSize format .normal resetSpecifierState o args

/-- What a formatter returns: the value, the writes in their order, and the arguments that are
left. -/
structure Result where
  ret : ℤ
  writes : List (ℤ × UInt8)
  args : List Arg

/-- `vsnprintf_internal(fmtStr, size, checkSize, format, args)`. -/
def vsnprintfInternal (fmtStr : Option (ℤ → UInt8)) (size : ℕ) (checkSize : Bool)
    (format : Option CString) (args : List Arg) : Option Result :=
  if checkSize && size = 0 then some ⟨-1, [], args⟩
  else
    match fmtStr, format with
    | none, _ => some ⟨-2, [], args⟩
    | some _, none => some ⟨-3, [], args⟩
    | some _, some format =>
        (vsnprintfLoop size checkSize format.bytes .normal resetSpecifierState ⟨0, []⟩ args).map
          fun r => ⟨r.1.printed, r.1.writes ++ [(r.1.printed, 0)], r.2⟩

/-- The buffer after some writes, of which later ones count. -/
def store (fmtStr : ℤ → UInt8) (writes : List (ℤ × UInt8)) : ℤ → UInt8 :=
  writes.foldl (fun buffer w => Function.update buffer w.1 w.2) fmtStr

end MugOS.Printf
