import Mathlib.Data.List.TakeWhile
import MugOS.PrintfBounds
import MugOS.PrintfNumbers

/-!
# Logging a Dump of the Memory

`hexdump` of `Kernel/Logging.c`: full lines of sixteen bytes are formatted by one call of
`snprintf`, and the last line, if it is not full, by one call for each byte, into what is left of
the buffer. The room that is left is computed from the index of the byte in the memory, instead of
its index in the line.

A dump is described by its calls of `log` and by what it writes to its buffer, and `Shows` says
what it should show.
-/

namespace MugOS.Logging

open Printf

/-- A call of `log`, with its level, the name of the module, the format and the arguments. -/
structure LogCall where
  logLevel : ℤ
  moduleName : Option CString
  logFmtStr : CString
  args : List Arg

/-- The text that is logged by a call, if its arguments match its format. -/
def LogCall.text (c : LogCall) : Option (List UInt8) :=
  (pieces appendPrecisionOrReset c.logFmtStr.bytes .normal resetSpecifierState c.args).map
    fun r => Printf.text r.1

/-- What `hexdump` does: the contents of `buff`, all writes to it, and the calls of `log`. -/
structure Dump where
  buff : ℤ → UInt8
  writes : List (ℤ × UInt8)
  calls : List LogCall

/-- `sizeof(buff)`. -/
abbrev buffSize : ℕ := 512

/-- The C string in `buff`: the bytes before the first zero. -/
def cString (buff : ℤ → UInt8) : CString where
  bytes := ((List.range buffSize).map fun k : ℕ => buff k).takeWhile (· ≠ 0)
  ne_zero b hb := by simpa using List.mem_takeWhile_imp hb

/-- The format `"%s"`. -/
def stringFormat : CString := ⟨bytes "%s", by decide +kernel⟩

/-- `log(logLevel, moduleName, logFmtStr, ...)`: the call is recorded. -/
def Dump.log (d : Dump) (logLevel : ℤ) (moduleName : Option CString) (logFmtStr : CString)
    (args : List Arg) : Dump :=
  { d with calls := d.calls ++ [⟨logLevel, moduleName, logFmtStr, args⟩] }

/-- `log(logLevel, moduleName, "%s", buff)`: the string in the buffer is logged. -/
def Dump.logBuff (d : Dump) (logLevel : ℤ) (moduleName : Option CString) : Dump :=
  d.log logLevel moduleName stringFormat [.str (some (cString d.buff))]

/-- `log(ERROR, MODULE, "snprintf failure, couldn't dump memory")`. -/
def Dump.failure (d : Dump) : Dump :=
  d.log 4 (some ⟨bytes "Logging", by decide +kernel⟩)
    ⟨bytes "snprintf failure, couldn't dump memory", by decide +kernel⟩ []

/-- `snprintf(buff + offset, size, format, ...)`. It is not unfolded by the loops that call it. -/
@[irreducible] def Dump.snprintf (d : Dump) (offset : ℤ) (size : ℕ) (format : CString)
    (args : List Arg) :
    Option (ℤ × Dump) :=
  (vsnprintfInternal (some fun i => d.buff (offset + i)) size true (some format) args).map fun r =>
    let writes := r.writes.map fun w => (offset + w.1, w.2)
    (r.ret, { d with buff := store d.buff writes, writes := d.writes ++ writes })

/-- The format of a full line. -/
def lineFormat : CString where
  bytes := bytes ("Hexdump: %#.8x - " ++
    "%.2hhx %.2hhx %.2hhx %.2hhx %.2hhx %.2hhx %.2hhx %.2hhx  " ++
    "%.2hhx %.2hhx %.2hhx %.2hhx %.2hhx %.2hhx %.2hhx %.2hhx")
  ne_zero := by decide +kernel

/-- The beginning of the last line: `"Hexdump: %#.8x - "`. -/
def headFormat : CString := ⟨bytes "Hexdump: %#.8x - ", by decide +kernel⟩

/-- The format of a byte of the last line: `"%.2hhx "`. -/
def byteFormat : CString := ⟨bytes "%.2hhx ", by decide +kernel⟩

/-- The separator in the middle of the last line: `" "`. -/
def spaceFormat : CString := ⟨bytes " ", by decide +kernel⟩

/-- An argument of type `int`, or a `uint8_t` that is promoted to it. -/
def intArg (n : ℕ) : Arg := .word (BitVec.ofNat 64 n)

section

variable (logLevel : ℤ) (moduleName : Option CString) (data : ℕ → UInt8) (n : ℕ)

/-- The loop over the full lines: `i` and the dump so far, or the dump if there is a failure. -/
def dumpLines : ℕ → ℕ → Dump → Option (Except Dump (ℕ × Dump))
  | rounds, i, d =>
      if i + 15 < n then
        match rounds with
        | 0 => none
        | rounds + 1 =>
            match d.snprintf 0 buffSize lineFormat
                (intArg i :: (List.range 16).map fun k => intArg (data (i + k)).toNat) with
            | none => none
            | some (printed, d) =>
                if printed < 0 then some (.error d.failure)
                else dumpLines rounds (i + 16) (d.logBuff logLevel moduleName)
      else some (.ok (i, d))

/-- `sizeof(buff) - i - offset`, the size given to `snprintf`, in unsigned 64-bit
arithmetic. -/
def sizeLeft (i : ℕ) (offset : ℤ) : ℕ := wrapUInt64 (buffSize - i - offset)

/-- The loop over the bytes of the last line. -/
def dumpBytes : ℕ → ℕ → ℤ → Dump → Option (Except Dump Dump)
  | rounds, i, offset, d =>
      if i < n then
        match rounds with
        | 0 => none
        | rounds + 1 =>
            match d.snprintf offset (sizeLeft i offset) byteFormat [intArg (data i).toNat] with
            | none => none
            | some (printed, d) =>
                if printed < 0 then some (.error d.failure)
                else
                  let offset := wrapInt (offset + printed)
                  if i % 8 = 7 then
                    match d.snprintf offset (sizeLeft i offset) spaceFormat [] with
                    | none => none
                    | some (printed, d) =>
                        if printed < 0 then some (.error d.failure)
                        else dumpBytes rounds (i + 1) (wrapInt (offset + printed)) d
                  else dumpBytes rounds (i + 1) offset d
      else some (.ok d)

/-- The last line, if it is not full: its beginning and its bytes are put into the buffer one
by one. -/
def dumpRest (i : ℕ) (d : Dump) : Option Dump :=
  if n % 16 = 0 then some d
  else
    match d.snprintf 0 buffSize headFormat [intArg i] with
    | none => none
    | some (printed, d) =>
        if printed < 0 then some d.failure
        else
          match dumpBytes data n n i printed d with
          | none => none
          | some (.error d) => some d
          | some (.ok d) => some (d.logBuff logLevel moduleName)

end

/-- The message for a null pointer has no zero byte, so it is a C string. -/
theorem nullMessage_ne_zero : ∀ b ∈ bytes "Hexdump: (null)", b ≠ 0 := by
  decide +kernel

/-- The message for a wrong size has no zero byte, so it is a C string. -/
theorem sizeMessage_ne_zero : ∀ b ∈ bytes "Hexdump: Cannot dump size n=%d", b ≠ 0 := by
  decide +kernel

/-- `hexdump(logLevel, moduleName, addr, n)`, with what the buffer holds before. -/
def hexdump (logLevel : ℤ) (moduleName : Option CString) (addr : Option (ℕ → UInt8)) (n : ℤ)
    (buff : ℤ → UInt8) : Option Dump :=
  let d : Dump := ⟨buff, [], []⟩
  if logLevel < 0 ∨ 5 < logLevel then some d
  else
    match addr with
    | none => some (d.log logLevel moduleName ⟨bytes "Hexdump: (null)", nullMessage_ne_zero⟩ [])
    | some data =>
        if n ≤ 0 then
          some (d.log logLevel moduleName
            ⟨bytes "Hexdump: Cannot dump size n=%d", sizeMessage_ne_zero⟩
            [.word (BitVec.ofInt 64 n)])
        else
          match dumpLines logLevel moduleName data n.toNat n.toNat 0 d with
          | none => none
          | some (.error d) => some d
          | some (.ok (i, d)) => dumpRest logLevel moduleName data n.toNat i d

/-! ### What a dump shows -/

/-- The byte fields of a line: two digits each, between spaces. -/
def readFields : List UInt8 → Option (List UInt8)
  | [] => some []
  | a :: t =>
      if a = 32 then readFields t
      else
        match t with
        | [] => none
        | b :: t => do
            let value ← readBack 16 [a, b]
            let values ← readFields t
            return UInt8.ofNat value :: values

/-- The offset and the bytes that a line shows, if it has the form of one. -/
def readLine (line : List UInt8) : Option (ℕ × List UInt8) :=
  if line.take 11 = bytes "Hexdump: 0x" ∧ (line.drop 19).take 3 = bytes " - " then do
    let offset ← readBack 16 ((line.drop 11).take 8)
    let values ← readFields (line.drop 22)
    return (offset, values)
  else none

/-- **A dump shows `n` bytes**: every call of `log` has the level and the module of the dump, and a
line as its text; the lines show the bytes in their order, sixteen each but the last one, and the
offset of the first; and nothing is written outside the buffer. -/
def Shows (logLevel : ℤ) (moduleName : Option CString) (data : ℕ → UInt8) (n : ℕ) (d : Dump) :
    Prop :=
  (∀ c ∈ d.calls, c.logLevel = logLevel ∧ c.moduleName = moduleName) ∧
  (∃ lines : List (ℕ × List UInt8),
    (d.calls.map fun c => c.text.bind readLine) = lines.map some ∧
    (lines.map Prod.snd).flatten = (List.range n).map data ∧
    ∀ k line, lines[k]? = some line → line.1 = 16 * k ∧
      (k + 1 < lines.length → line.2.length = 16) ∧ 1 ≤ line.2.length ∧ line.2.length ≤ 16) ∧
  ∀ w ∈ d.writes, Inside buffSize w.1

end MugOS.Logging
