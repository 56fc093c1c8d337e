import MugOS.Printf

/-!
# The Text of a Format

What a format and its arguments stand for, without a buffer or a descriptor: a list of pieces,
each with its bytes. Both formatters are compared with this text.

## Main results

* `vsnprintfLoop_eq`: the loop of `vsnprintf_internal` puts the pieces of the format one after
  the other, up to the first one whose check fails.
* `placed_putNumber`: a number whose text ends below `2 ^ 31` is put where the text ends.
-/

namespace MugOS.Printf

/-! ### Pieces -/

/-- One output of the machine: a character, a string or `NULL`, or a number. -/
inductive Piece
  | char (c : UInt8)
  | string (s : Option CString)
  | number (n : Number) (spec : SpecifierState)

/-- The text of a number: padding, sign, prefix, zeros, digits and padding. -/
def uintText (number : ℕ) (spec : SpecifierState) : List UInt8 :=
  if spec.precision = 0 ∧ number = 0 then []
  else
    let pad := paddings spec (buffer number spec).length
    (if !spec.padRight then padding pad.1 ' ' else []) ++
    (if spec.sign ≠ 0 then [spec.sign] else []) ++
    (if spec.putPrefix then numberPrefix spec.radix spec.uppercase else []) ++
    padding pad.2 '0' ++ (buffer number spec).reverse ++
    (if spec.padRight then padding pad.1 ' ' else [])

/-- The text of a piece. -/
def Piece.text : Piece → List UInt8
  | .char c => [c]
  | .string none => bytes "(null)"
  | .string (some s) => s.bytes
  | .number n spec => uintText (magnitude n spec).1 (magnitude n spec).2

/-- The text of some pieces, one after the other. -/
def text (ps : List Piece) : List UInt8 := ps.flatMap Piece.text

@[simp]
theorem text_nil : text [] = [] := rfl

@[simp]
theorem text_cons (p : Piece) (ps : List Piece) : text (p :: ps) = p.text ++ text ps := rfl

@[simp]
theorem text_append (ps qs : List Piece) : text (ps ++ qs) = text ps ++ text qs := by
  simp [text]

/-- The piece, if any, of a specifier, and the arguments that it leaves. -/
def piece (spec : SpecifierState) (c : UInt8) (args : List Arg) : Option (List Piece × List Arg) :=
  match conversion spec c with
  | .percent => some ([.char (byte '%')], args)
  | .char => (vaInt args).map fun r => ([.char (UInt8.ofNat (wrapUInt64 r.1))], r.2)
  | .string => (vaString args).map fun r => ([.string r.1], r.2)
  | .number spec => (vaNumber spec args).map fun r => ([.number r.1 spec], r.2)
  | .invalid => some ([], args)

/-- The pieces of a format and the arguments that are left, if the arguments match. -/
def pieces (append : ℤ → ℕ → ℤ) :
    List UInt8 → State → SpecifierState → List Arg → Option (List Piece × List Arg)
  | [], _, _, args => some ([], args)
  | c :: format, state, spec, args =>
      match scan append state spec c args with
      | none => none
      | some (.next state spec args) => pieces append format state spec args
      | some .put => (pieces append format .normal spec args).map fun r => (.char c :: r.1, r.2)
      | some (.convert spec) =>
          match piece spec c args with
          | none => none
          | some (ps, args) => (pieces append format .normal resetSpecifierState args).map
              fun r => (ps ++ r.1, r.2)

/-! ### The loop over the pieces -/

/-- The checked output of one piece: a character, a string or a number. -/
def emit (size : ℕ) (checkSize : Bool) (o : Out) : Piece → Except Out Out
  | .char c => putChar size checkSize o c
  | .string s => putStringOrNull size checkSize o s
  | .number n spec => putNumber size checkSize o n spec

/-- The output of some pieces, up to the first check that fails. -/
def emits (size : ℕ) (checkSize : Bool) : Out → List Piece → Except Out Out
  | o, [] => .ok o
  | o, p :: ps =>
      match emit size checkSize o p with
      | .error o => .error o
      | .ok o => emits size checkSize o ps

/-- The output at `end`, reached by the jump or not. -/
def atEnd : Except Out Out → Out
  | .error o => o
  | .ok o => o

/-- The code at `PRINTF_STATE_SPEC_` puts the piece of the specifier. -/
theorem vsnprintfConvert_eq (size : ℕ) (checkSize : Bool) {spec : SpecifierState} {c : UInt8}
    (o : Out) {args rest : List Arg} {ps : List Piece} (h : piece spec c args = some (ps, rest)) :
    ∃ args', vsnprintfConvert size checkSize spec c o args =
        some (emits size checkSize o ps, args') ∧
      ∀ o', emits size checkSize o ps = .ok o' → args' = rest := by
  unfold piece at h
  unfold vsnprintfConvert
  cases hconv : conversion spec c with
  | percent =>
      simp only [hconv, Option.some.injEq, Prod.mk.injEq] at h ⊢
      obtain ⟨rfl, rfl⟩ := h
      refine ⟨args, ⟨?_, rfl⟩, fun _ _ => rfl⟩
      simp only [emits, emit]
      cases putChar size checkSize o (byte '%') <;> rfl
  | char =>
      simp only [hconv, Option.map_eq_some_iff, Prod.mk.injEq] at h ⊢
      obtain ⟨r, hr, rfl, rfl⟩ := h
      simp only [emits, emit, putChar]
      cases hcheck : checkBoundaries size checkSize o 1 with
      | error o' => exact ⟨args, rfl, fun _ h => by simp [bind, Except.bind] at h⟩
      | ok o' => exact ⟨r.2, by simp [hr, bind, Except.bind, pure, Except.pure], fun _ _ => rfl⟩
  | string =>
      simp only [hconv, Option.map_eq_some_iff, Prod.mk.injEq] at h ⊢
      obtain ⟨r, hr, rfl, rfl⟩ := h
      refine ⟨r.2, ⟨r, hr, ?_, rfl⟩, fun _ _ => rfl⟩
      simp only [emits, emit]
      cases putStringOrNull size checkSize o r.1 <;> rfl
  | number spec' =>
      simp only [hconv, Option.map_eq_some_iff, Prod.mk.injEq] at h ⊢
      obtain ⟨r, hr, rfl, rfl⟩ := h
      refine ⟨r.2, ⟨r, hr, ?_, rfl⟩, fun _ _ => rfl⟩
      simp only [emits, emit]
      cases putNumber size checkSize o r.1 spec' <;> rfl
  | invalid =>
      simp only [hconv, Option.some.injEq, Prod.mk.injEq] at h ⊢
      obtain ⟨rfl, rfl⟩ := h
      exact ⟨args, ⟨rfl, rfl⟩, fun _ _ => rfl⟩

/-- Emitting two lists of pieces joined is emitting the first one and, if it succeeds, the
second one behind it. -/
theorem emits_append (size : ℕ) (checkSize : Bool) (o : Out) (ps qs : List Piece) :
    emits size checkSize o (ps ++ qs) =
      match emits size checkSize o ps with
      | .error o => .error o
      | .ok o => emits size checkSize o qs := by
  induction ps generalizing o with
  | nil => rfl
  | cons p ps ih =>
      simp only [List.cons_append, emits]
      cases emit size checkSize o p with
      | error o' => rfl
      | ok o' => exact ih o'

/-- The loop of `vsnprintf_internal` puts the pieces of the format; if no check fails, it
leaves the arguments that the pieces leave. -/
theorem vsnprintfLoop_eq (size : ℕ) (checkSize : Bool) {format : List UInt8} {state : State}
    {spec : SpecifierState} (o : Out) {args rest : List Arg} {ps : List Piece}
    (h : pieces appendPrecisionOrReset format state spec args = some (ps, rest)) :
    ∃ args', vsnprintfLoop size checkSize format state spec o args =
        some (atEnd (emits size checkSize o ps), args') ∧
      ∀ o', emits size checkSize o ps = .ok o' → args' = rest := by
  induction format generalizing state spec o args ps with
  | nil =>
      simp only [pieces, Option.some.injEq, Prod.mk.injEq] at h
      obtain ⟨rfl, rfl⟩ := h
      exact ⟨args, rfl, fun _ _ => rfl⟩
  | cons c format ih =>
      simp only [pieces] at h
      simp only [vsnprintfLoop]
      cases hscan : scan appendPrecisionOrReset state spec c args with
      | none => simp [hscan] at h
      | some step =>
          cases step with
          | next state' spec' args' =>
              simp only [hscan] at h ⊢
              exact ih o h
          | put =>
              simp only [hscan, Option.map_eq_some_iff, Prod.mk.injEq] at h ⊢
              obtain ⟨r, hr, rfl, rfl⟩ := h
              simp only [emits, emit]
              cases putChar size checkSize o c with
              | error o' => exact ⟨args, rfl, fun _ h => by simp at h⟩
              | ok o' => exact ih o' hr
          | convert spec' =>
              cases hpiece : piece spec' c args with
              | none => simp [hscan, hpiece] at h
              | some q =>
                  obtain ⟨qs, args₁⟩ := q
                  simp only [hscan, hpiece, Option.map_eq_some_iff, Prod.mk.injEq] at h ⊢
                  obtain ⟨r, hr, rfl, rfl⟩ := h
                  obtain ⟨args', hconvert, hargs⟩ :=
                    vsnprintfConvert_eq size checkSize o hpiece
                  rw [hconvert, emits_append]
                  cases hemits : emits size checkSize o qs with
                  | error o' => exact ⟨args', rfl, fun _ h => by simp at h⟩
                  | ok o' =>
                      obtain rfl := hargs o' hemits
                      exact ih o' hr

/-! ### Where the text is put -/

/-- The writes of two texts in a row are those of the first one, and those of the second one
behind it. -/
theorem place_append (index : ℤ) (as bs : List UInt8) :
    place index (as ++ bs) = place index as ++ place (index + as.length) bs := by
  induction as generalizing index with
  | nil => simp [place]
  | cons a as ih =>
      simp only [List.cons_append, place, List.length_cons, ih (index + 1), Nat.cast_add,
        Nat.cast_one]
      rw [add_assoc, add_comm (1 : ℤ)]

/-- A text is written with as many writes as it has bytes. -/
@[simp]
theorem length_place (index : ℤ) (bs : List UInt8) : (place index bs).length = bs.length := by
  induction bs generalizing index with
  | nil => rfl
  | cons b bs ih => simp [place, ih]

/-- The byte at offset `k` of a text is written by write number `k`, at `k` behind the
index. -/
theorem getElem?_place (index : ℤ) (bs : List UInt8) (k : ℕ) :
    (place index bs)[k]? = bs[k]?.map fun b => (index + k, b) := by
  induction bs generalizing index k with
  | nil => simp [place]
  | cons b bs ih =>
      cases k with
      | zero => simp [place]
      | succ k =>
          simp only [place, List.getElem?_cons_succ, ih, Nat.cast_add, Nat.cast_one]
          rw [add_assoc, add_comm (1 : ℤ)]

/-- Every write of a text is that of one of its bytes, at the offset of this byte behind the
index. -/
theorem index_of_mem_place {index : ℤ} {bs : List UInt8} {w : ℤ × UInt8}
    (h : w ∈ place index bs) : ∃ k : ℕ, k < bs.length ∧ w.1 = index + k := by
  obtain ⟨k, hk⟩ := List.getElem?_of_mem h
  rw [getElem?_place, Option.map_eq_some_iff] at hk
  obtain ⟨b, hb, rfl⟩ := hk
  exact ⟨k, (List.getElem?_eq_some_iff.1 hb).1, rfl⟩

/-- A natural number below `2 ^ 31` is unchanged by the conversion to `int`. -/
theorem wrapInt_of_lt {n : ℕ} (h : n < 2 ^ 31) : wrapInt n = n := by
  unfold wrapInt
  apply Int.bmod_eq_of_le <;> omega

/-- The text `t` has been put at `str`, and nothing else. -/
structure Placed (str : ℤ) (o : Out) (t : List UInt8) : Prop where
  printed : o.printed = t.length
  writes : o.writes = place str t

/-- Bytes that are put where a text ends stand behind this text, as long as the count is an
`int`. -/
theorem Placed.put {str : ℤ} {o : Out} {t bs : List UInt8} (h : Placed str o t)
    (hlt : (t ++ bs).length < 2 ^ 31) : Placed str (o.put str bs) (t ++ bs) := by
  refine ⟨?_, ?_⟩
  · simp only [Out.put, h.printed]
    rw [← Nat.cast_add, ← List.length_append, wrapInt_of_lt hlt]
  · simp only [Out.put, h.writes, h.printed, place_append]

/-- The bytes that are put one after the other by `sprintf_uint`. -/
def segments (number : ℕ) (spec : SpecifierState) : List (List UInt8) :=
  if spec.precision = 0 ∧ number = 0 then []
  else
    let pad := paddings spec (buffer number spec).length
    (if !spec.padRight then [padding pad.1 ' '] else []) ++
    (if spec.sign ≠ 0 then [[spec.sign]] else []) ++
    (if spec.putPrefix then [numberPrefix spec.radix spec.uppercase] else []) ++
    [padding pad.2 '0'] ++ (buffer number spec).reverse.map (fun b => [b]) ++
    (if spec.padRight then [padding pad.1 ' '] else [])

/-- The segments of a number, put together, are the text of this number. -/
theorem flatten_segments (number : ℕ) (spec : SpecifierState) :
    (segments number spec).flatten = uintText number spec := by
  have hsingle : ∀ l : List UInt8, (l.map fun b => [b]).flatten = l := by
    intro l
    induction l with
    | nil => rfl
    | cons b l ih => simp [ih]
  unfold segments uintText
  split
  · rfl
  · simp only [List.flatten_append, hsingle, List.flatten_cons, List.flatten_nil, List.append_nil]
    congr 1
    · congr 3
      · congr 1
        · split <;> simp
        · split <;> simp
      · split <;> simp
    · split <;> simp

/-- `sprintf_uint` puts its segments one after the other. -/
theorem sprintfUint_eq (str : ℤ) (number : ℕ) (spec : SpecifierState) :
    sprintfUint str number spec = (segments number spec).foldl (Out.put str) ⟨0, []⟩ := by
  unfold sprintfUint segments
  split
  · rfl
  · simp only [List.foldl_append, List.foldl_map]
    split <;> split <;> split <;> split <;> simp_all

/-- Segments that end below `2 ^ 31` are put where the text ends. -/
theorem Placed.foldl {str : ℤ} {o : Out} {t : List UInt8} {segs : List (List UInt8)}
    (h : Placed str o t) (hlt : (t ++ segs.flatten).length < 2 ^ 31) :
    Placed str (segs.foldl (Out.put str) o) (t ++ segs.flatten) := by
  induction segs generalizing o t with
  | nil => simpa using h
  | cons bs segs ih =>
      rw [List.flatten_cons, ← List.append_assoc] at hlt ⊢
      apply ih (h.put _) hlt
      simp only [List.length_append] at hlt ⊢
      omega

/-- A number whose text ends below `2 ^ 31` is put where the text ends. -/
theorem placed_putNumber {o : Out} {t : List UInt8} {n : Number} {spec : SpecifierState}
    (h : Placed 0 o t) (hlt : (t ++ (Piece.number n spec).text).length < 2 ^ 31) :
    Placed 0 (o.putNumber n spec) (t ++ (Piece.number n spec).text) := by
  have hseg := flatten_segments (magnitude n spec).1 (magnitude n spec).2
  have hinner : Placed o.printed (sprintfUint o.printed (magnitude n spec).1 (magnitude n spec).2)
      (Piece.number n spec).text := by
    rw [sprintfUint_eq, Piece.text, ← hseg]
    refine (Placed.foldl (t := []) ⟨rfl, rfl⟩ ?_)
    simp only [Piece.text, List.length_append] at hlt
    rw [List.nil_append, hseg]
    omega
  refine ⟨?_, ?_⟩
  · simp only [Out.putNumber, hinner.printed]
    rw [h.printed, ← Nat.cast_add, ← List.length_append, wrapInt_of_lt hlt]
  · simp only [Out.putNumber, hinner.writes, h.writes, place_append, zero_add]
    rw [h.printed]

end MugOS.Printf
