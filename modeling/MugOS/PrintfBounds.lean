import MugOS.PrintfText

/-!
# The Bounds of `vsnprintf_internal`

When does bounded formatting stay inside its buffer? On truncation the source sets `printed`
to `-1` and then stores the terminator at `fmtStr[printed]`, one byte before the buffer. A
negative `*` width, read as an unsigned one, makes the boundary check of a number wrap around
and pass. Without these two, every write is inside.

## Main results

* `vsnprintf_bounded`: a text that fits is written inside the buffer and terminated there, and
  in buffers of at most `2 ^ 31` bytes only such a text is.
* `vsnprintf_truncation_escapes`: the truncation of `bonjaj` to four bytes writes before the
  buffer, and a negative width writes past its end.
-/

namespace MugOS.Printf

/-! ### Statement -/

/-- The indices of a buffer of a given size. -/
def Inside (size : ℕ) (i : ℤ) : Prop := 0 ≤ i ∧ i < size

/-- `vsnprintf_internal` with `checkSize` returns, having written only inside the buffer, which
then has a terminator. -/
def Bounded (fmtStr : ℤ → UInt8) (size : ℕ) (format : CString) (args : List Arg) : Prop :=
  ∃ r, vsnprintfInternal (some fmtStr) size true (some format) args = some r ∧
    (∀ w ∈ r.writes, Inside size w.1) ∧ ∃ i, Inside size i ∧ store fmtStr r.writes i = 0

/-- The text is shorter than the buffer, it has an `int` length, and what each number asks for,
after the text before it, is below the size modulo `2 ^ 64`. -/
structure Fits (size : ℕ) (ps : List Piece) : Prop where
  length_lt : (text ps).length < size
  length_lt_int : (text ps).length < 2 ^ 31
  asked_lt : ∀ front n spec back, ps = front ++ .number n spec :: back →
    wadd (text front).length (getSizeOfNumberToPrint n spec) < size

/-! ### Texts that fit -/

/-- A check passes if what it asks for is below the size. -/
theorem checkBoundaries_ok {size n : ℕ} {checkSize : Bool} {o : Out} {t : List UInt8}
    (h : Placed 0 o t) (ht : t.length < 2 ^ 31)
    (hn : checkSize = true → size < 2 ^ 64 ∧ wadd t.length n < size) :
    checkBoundaries size checkSize o n = .ok o := by
  have hprinted : wrapUInt64 o.printed = t.length := by
    rw [h.printed, wrapUInt64]
    omega
  cases checkSize with
  | false => rfl
  | true =>
      obtain ⟨hsize, hlt⟩ := hn rfl
      have hsub : wsub size 1 = size - 1 := by
        unfold wsub
        omega
      rw [checkBoundaries, isBoundaryExceeded, hprinted, hsub, if_neg]
      simp only [Bool.true_and, gt_iff_lt, decide_eq_true_eq, not_lt]
      omega

/-- A check fails if what it asks for is not below the size. -/
theorem checkBoundaries_error {size n : ℕ} {o : Out} {t : List UInt8} (h : Placed 0 o t)
    (ht : t.length < 2 ^ 31) (hpos : 1 ≤ size) (hsize : size < 2 ^ 64)
    (hn : size ≤ wadd t.length n) :
    checkBoundaries size true o n = .error { o with printed := -1 } := by
  have hprinted : wrapUInt64 o.printed = t.length := by
    rw [h.printed, wrapUInt64]
    omega
  have hsub : wsub size 1 = size - 1 := by
    unfold wsub
    omega
  rw [checkBoundaries, isBoundaryExceeded, hprinted, hsub, if_pos]
  simp only [Bool.true_and, gt_iff_lt, decide_eq_true_eq]
  omega

/-- A character for which there is room is put behind the text, and the check lets it pass. -/
theorem putChar_ok (size : ℕ) (checkSize : Bool) {o : Out} {t : List UInt8} (c : UInt8)
    (h : Placed 0 o t) (ht : t.length + 1 < 2 ^ 31)
    (hn : checkSize = true → size < 2 ^ 64 ∧ t.length + 1 < size) :
    ∃ o', putChar size checkSize o c = .ok o' ∧ Placed 0 o' (t ++ [c]) := by
  have hcheck : checkBoundaries size checkSize o 1 = .ok o := by
    refine checkBoundaries_ok h (by omega) fun hchk => ⟨(hn hchk).1, ?_⟩
    have hlt := (hn hchk).2
    rw [wadd, Nat.mod_eq_of_lt (by have := (hn hchk).1; omega)]
    exact hlt
  refine ⟨o.put 0 [c], by simp [putChar, hcheck, bind, Except.bind, pure, Except.pure], ?_⟩
  apply h.put
  rw [List.length_append, List.length_singleton]
  exact ht

/-- A string for which there is room is put behind the text, and the checks let it pass. -/
theorem putString_ok {size : ℕ} {checkSize : Bool} {o : Out} {t s : List UInt8}
    (h : Placed 0 o t) (ht : (t ++ s).length < 2 ^ 31)
    (hn : checkSize = true → size < 2 ^ 64 ∧ (t ++ s).length < size) :
    ∃ o', putString size checkSize o s = .ok o' ∧ Placed 0 o' (t ++ s) := by
  induction s generalizing o t with
  | nil => exact ⟨o, rfl, by simpa using h⟩
  | cons b s ih =>
      simp only [List.length_append, List.length_cons] at ht hn
      obtain ⟨o₁, hput, h₁⟩ := putChar_ok size checkSize b h (by omega)
        fun hchk => ⟨(hn hchk).1, by have := (hn hchk).2; omega⟩
      obtain ⟨o₂, hstring, h₂⟩ := ih h₁
        (by simp only [List.length_append, List.length_singleton]; omega)
        (fun hchk => ⟨(hn hchk).1, by
          have := (hn hchk).2
          simp only [List.length_append, List.length_singleton]
          omega⟩)
      refine ⟨o₂, by simp [putString, hput, hstring, bind, Except.bind], ?_⟩
      rwa [List.append_assoc, List.singleton_append] at h₂

/-- Characters that are put without a check are put one behind the other, as long as the count
is an `int`. -/
theorem placed_foldl_put {o : Out} {t s : List UInt8} (h : Placed 0 o t)
    (ht : (t ++ s).length < 2 ^ 31) :
    Placed 0 (s.foldl (fun o b => o.put 0 [b]) o) (t ++ s) := by
  have hflat : (s.map fun b => [b]).flatten = s := by
    clear ht
    induction s with
    | nil => rfl
    | cons b s ih => simp [ih]
  rw [← hflat] at ht
  have hfold := h.foldl ht
  rwa [hflat, List.foldl_map] at hfold

/-- A piece is put behind the text if there is room for it, and if its predicted size passes
the check. -/
theorem emit_ok (size : ℕ) (checkSize : Bool) {o : Out} {t : List UInt8} {p : Piece}
    (h : Placed 0 o t) (ht : (t ++ p.text).length < 2 ^ 31)
    (hn : checkSize = true → size < 2 ^ 64 ∧ (t ++ p.text).length < size ∧
      ∀ n spec, p = .number n spec → wadd t.length (getSizeOfNumberToPrint n spec) < size) :
    ∃ o', emit size checkSize o p = .ok o' ∧ Placed 0 o' (t ++ p.text) := by
  cases p with
  | char c =>
      simp only [Piece.text, List.length_append, List.length_singleton] at ht hn
      exact putChar_ok size checkSize c h ht fun hchk => ⟨(hn hchk).1, (hn hchk).2.1⟩
  | string s =>
      cases s with
      | some s => exact putString_ok h ht fun hchk => ⟨(hn hchk).1, (hn hchk).2.1⟩
      | none =>
          have hlen : (Piece.string none).text.length = 6 := rfl
          have hcheck : checkBoundaries size checkSize o 6 = .ok o := by
            rw [List.length_append, hlen] at ht
            refine checkBoundaries_ok h (by omega) fun hchk => ⟨(hn hchk).1, ?_⟩
            have hlt := (hn hchk).2.1
            rw [List.length_append, hlen] at hlt
            rw [wadd, Nat.mod_eq_of_lt (by have := (hn hchk).1; omega)]
            exact hlt
          refine ⟨_, ?_, placed_foldl_put h ht⟩
          simp [emit, putStringOrNull, hcheck, bind, Except.bind, pure, Except.pure, Piece.text]
  | number n spec =>
      have hcheck : checkBoundaries size checkSize o (getSizeOfNumberToPrint n spec) = .ok o := by
        rw [List.length_append] at ht
        exact checkBoundaries_ok h (by omega) fun hchk =>
          ⟨(hn hchk).1, (hn hchk).2.2 n spec rfl⟩
      refine ⟨o.putNumber n spec, ?_, placed_putNumber h ht⟩
      simp [emit, putNumber, hcheck, bind, Except.bind, pure, Except.pure]

/-- Pieces that all fit, with their predicted sizes, are put behind the text one after the
other. -/
theorem emits_ok (size : ℕ) (checkSize : Bool) {o : Out} {t : List UInt8} (ps : List Piece)
    (h : Placed 0 o t) (ht : (t ++ text ps).length < 2 ^ 31)
    (hn : checkSize = true → size < 2 ^ 64 ∧ (t ++ text ps).length < size ∧
      ∀ front n spec back, ps = front ++ .number n spec :: back →
        wadd (t ++ text front).length (getSizeOfNumberToPrint n spec) < size) :
    ∃ o', emits size checkSize o ps = .ok o' ∧ Placed 0 o' (t ++ text ps) := by
  induction ps generalizing o t with
  | nil => exact ⟨o, rfl, by simpa using h⟩
  | cons p ps ih =>
      rw [text_cons, ← List.append_assoc] at ht hn
      have hle : (t ++ p.text).length ≤ (t ++ p.text ++ text ps).length := by
        simp only [List.length_append]
        omega
      obtain ⟨o₁, hemit, h₁⟩ := emit_ok size checkSize (p := p) h (by omega) fun hchk => by
        obtain ⟨hsize, hlt, hasked⟩ := hn hchk
        refine ⟨hsize, by omega, ?_⟩
        rintro n spec rfl
        simpa using hasked [] n spec ps rfl
      obtain ⟨o₂, hemits, h₂⟩ := ih h₁ ht fun hchk => by
        obtain ⟨hsize, hlt, hasked⟩ := hn hchk
        refine ⟨hsize, hlt, ?_⟩
        rintro front n spec back rfl
        simpa using hasked (p :: front) n spec back rfl
      refine ⟨o₂, by simp only [emits, hemit, hemits], ?_⟩
      rwa [text_cons, ← List.append_assoc]

/-! ### Texts that do not fit -/

/-- The values that an `int` can have. -/
def IsInt (z : ℤ) : Prop := -2 ^ 31 ≤ z ∧ z < 2 ^ 31

/-- The conversion of any integer to an `int` is one. -/
theorem isInt_wrapInt (z : ℤ) : IsInt (wrapInt z) := by
  have hle := Int.le_bmod (x := z) (m := 2 ^ 32) (by norm_num)
  have hlt := Int.bmod_lt (x := z) (m := 2 ^ 32) (by norm_num)
  unfold IsInt wrapInt
  norm_num at hle hlt ⊢
  omega

/-- The conversion of an `int` to an `int` is the number itself. -/
theorem wrapInt_of_isInt {z : ℤ} (h : IsInt z) : wrapInt z = z := by
  unfold IsInt at h
  unfold wrapInt
  apply Int.bmod_eq_of_le <;> omega

/-- The conversion of a number just above the range of an `int`. -/
theorem wrapInt_of_ge {z : ℤ} (hle : 2 ^ 31 ≤ z) (hlt : z < 2 ^ 32) : wrapInt z = z - 2 ^ 32 := by
  unfold wrapInt
  rw [← Int.sub_bmod_right, Int.bmod_eq_of_le] <;> norm_num <;> omega

/-- A write is outside of the buffer, in front of it or behind it. -/
def Escaped (size : ℕ) (o : Out) : Prop := ∃ w ∈ o.writes, ¬ Inside size w.1

/-- A write is outside, or the next one would be. -/
def Astray (size : ℕ) (str : ℤ) (o : Out) : Prop :=
  Escaped size o ∨ IsInt o.printed ∧ ¬ Inside size (str + o.printed)

/-- An output that has written outside of the buffer has still done so after further writes. -/
theorem Escaped.append {size : ℕ} {o : Out} (h : Escaped size o) (printed : ℤ)
    (ws : List (ℤ × UInt8)) : Escaped size ⟨printed, o.writes ++ ws⟩ := by
  obtain ⟨w, hw, hout⟩ := h
  exact ⟨w, List.mem_append_left _ hw, hout⟩

/-- A text that is put at an index outside of the buffer writes its first byte there. -/
theorem escaped_of_place {size : ℕ} {index printed : ℤ} {bs : List UInt8}
    {ws : List (ℤ × UInt8)} (hne : bs ≠ []) (hout : ¬ Inside size index) :
    Escaped size ⟨printed, ws ++ place index bs⟩ := by
  obtain ⟨b, bs, rfl⟩ := List.exists_cons_of_ne_nil hne
  exact ⟨(index, b), by simp [place], hout⟩

/-- An output that is astray, with a write outside of the buffer now or next, stays so when
more is put. -/
theorem Astray.put {size : ℕ} {str : ℤ} {o : Out} (h : Astray size str o) (bs : List UInt8) :
    Astray size str (o.put str bs) := by
  rcases h with hesc | ⟨hint, hout⟩
  · exact .inl (hesc.append _ _)
  · by_cases hbs : bs = []
    · subst hbs
      refine .inr ?_
      simp only [Out.put, List.length_nil, Nat.cast_zero, add_zero, wrapInt_of_isInt hint]
      exact ⟨hint, hout⟩
    · exact .inl (escaped_of_place hbs hout)

/-- Bytes that start inside the buffer end inside it, or the output is astray. -/
theorem Placed.put_or_astray {size : ℕ} {str : ℤ} {o : Out} {t : List UInt8}
    (h : Placed str o t) (bs : List UInt8) (hstr : 0 ≤ str) (hin : str + t.length < size)
    (hsize : size ≤ 2 ^ 31) (hbs : bs.length < 2 ^ 31) :
    (str + (t ++ bs).length < size ∧ Placed str (o.put str bs) (t ++ bs)) ∨
      Astray size str (o.put str bs) := by
  rw [List.length_append, Nat.cast_add]
  rcases lt_trichotomy (str + (t.length + bs.length : ℤ)) size with hlt | heq | hgt
  · refine .inl ⟨hlt, h.put ?_⟩
    rw [List.length_append]
    omega
  · refine .inr (.inr ⟨isInt_wrapInt _, ?_⟩)
    simp only [Out.put, h.printed, Inside]
    by_cases hwrap : (t.length + bs.length : ℤ) < 2 ^ 31
    · rw [wrapInt_of_isInt ⟨by omega, hwrap⟩]
      omega
    · rw [wrapInt_of_ge (by omega) (by omega)]
      omega
  · -- the segment itself writes at the index `size`
    refine .inr (.inl ?_)
    obtain ⟨k, hk⟩ : ∃ k : ℕ, str + t.length + k = size :=
      ⟨(size - (str + t.length)).toNat, by omega⟩
    have hklt : k < bs.length := by omega
    refine ⟨(str + t.length + k, bs[k]), ?_, ?_⟩
    · simp only [Out.put, h.printed]
      apply List.mem_append_right
      apply List.mem_of_getElem? (i := k)
      rw [getElem?_place, List.getElem?_eq_getElem hklt]
      rfl
    · simp only [Inside]
      omega

/-- Several segments that are put one after the other stand behind the text, or lead the output
astray. -/
theorem Placed.foldl_or_astray {size : ℕ} {str : ℤ} {o : Out} {t : List UInt8}
    (segs : List (List UInt8)) (h : Placed str o t) (hstr : 0 ≤ str) (hin : str + t.length < size)
    (hsize : size ≤ 2 ^ 31) (hsegs : ∀ bs ∈ segs, bs.length < 2 ^ 31) :
    (str + (t ++ segs.flatten).length < size ∧
        Placed str (segs.foldl (Out.put str) o) (t ++ segs.flatten)) ∨
      Astray size str (segs.foldl (Out.put str) o) := by
  have hastray : ∀ (segs : List (List UInt8)) (o : Out), Astray size str o →
      Astray size str (segs.foldl (Out.put str) o) := by
    intro segs
    induction segs with
    | nil => exact fun _ h => h
    | cons bs segs ih => exact fun o h => ih _ (h.put bs)
  induction segs generalizing o t with
  | nil => exact .inl ⟨by simpa using hin, by simpa using h⟩
  | cons bs segs ih =>
      rw [List.flatten_cons, ← List.append_assoc]
      rcases h.put_or_astray bs hstr hin hsize (hsegs bs List.mem_cons_self) with ⟨hin', h'⟩ | hout
      · exact ih h' hin' fun bs' hbs' => hsegs bs' (List.mem_cons_of_mem _ hbs')
      · exact .inr (hastray segs _ hout)

/-- From an index outside the buffer, segments write outside or nothing at all. -/
theorem escaped_foldl {size : ℕ} {str : ℤ} (hout : ¬ Inside size str) (segs : List (List UInt8)) :
    Escaped size (segs.foldl (Out.put str) ⟨0, []⟩) ∨
      segs.foldl (Out.put str) ⟨0, []⟩ = ⟨0, []⟩ := by
  have hesc : ∀ (segs : List (List UInt8)) (o : Out), Escaped size o →
      Escaped size (segs.foldl (Out.put str) o) := by
    intro segs
    induction segs with
    | nil => exact fun _ h => h
    | cons bs segs ih => exact fun o h => ih _ (h.append _ _)
  induction segs with
  | nil => exact .inr rfl
  | cons bs segs ih =>
      rw [List.foldl_cons]
      by_cases hbs : bs = []
      · have hput : Out.put str ⟨0, []⟩ bs = ⟨0, []⟩ := by simp [hbs, Out.put, place, wrapInt]
        rw [hput]
        exact ih
      · refine .inl (hesc segs _ ?_)
        unfold Out.put
        exact escaped_of_place hbs (by simpa using hout)

/-- The padding for any number of characters has an `int` length. -/
theorem length_padding_lt (n : ℤ) (c : Char) : (padding n c).length < 2 ^ 31 := by
  have hint := isInt_wrapInt n
  unfold IsInt at hint
  rw [padding, List.length_replicate]
  omega

/-- Every segment of a number, its paddings, sign, prefix and digits, has an `int` length. -/
theorem length_segment_lt {number : ℕ} {spec : SpecifierState} :
    ∀ bs ∈ segments number spec, bs.length < 2 ^ 31 := by
  intro bs hbs
  have hprefix : (numberPrefix spec.radix spec.uppercase).length ≤ 2 := by
    unfold numberPrefix
    split
    · decide
    · split <;> decide
    · simp
  unfold segments at hbs
  split at hbs
  · simp at hbs
  · simp only [List.append_assoc, List.mem_append, List.mem_map, List.mem_singleton] at hbs
    rcases hbs with hbs | hbs | hbs | rfl | ⟨b, -, rfl⟩ | hbs
    · split at hbs
      · rw [List.mem_singleton.1 hbs]
        exact length_padding_lt _ _
      · simp at hbs
    · split at hbs
      · rw [List.mem_singleton.1 hbs]
        norm_num
      · simp at hbs
    · split at hbs
      · rw [List.mem_singleton.1 hbs]
        omega
      · simp at hbs
    · exact length_padding_lt _ _
    · norm_num
    · split at hbs
      · rw [List.mem_singleton.1 hbs]
        exact length_padding_lt _ _
      · simp at hbs

/-- The output of a number that goes astray, seen from the whole buffer. -/
theorem astray_of_inner {size : ℕ} {o res : Out} (hint : 0 ≤ o.printed ∧ o.printed < 2 ^ 31)
    (hres : Astray size o.printed res) :
    Astray size 0 ⟨wrapInt (o.printed + res.printed), o.writes ++ res.writes⟩ := by
  rcases hres with ⟨w, hw, hout⟩ | ⟨hresInt, hout⟩
  · exact .inl ⟨w, List.mem_append_right _ hw, hout⟩
  · refine .inr ⟨isInt_wrapInt _, ?_⟩
    unfold IsInt at hresInt
    unfold Inside at hout ⊢
    simp only [zero_add]
    by_cases hwrap : o.printed + res.printed < 2 ^ 31
    · rwa [wrapInt_of_isInt ⟨by omega, hwrap⟩]
    · rw [wrapInt_of_ge (by omega) (by omega)]
      omega

/-- A number that starts inside the buffer ends inside it, or the output is astray. -/
theorem putNumber_or_astray {size : ℕ} {o : Out} {t : List UInt8} (n : Number)
    (spec : SpecifierState) (h : Placed 0 o t) (hin : t.length < size) (hsize : size ≤ 2 ^ 31) :
    ((t ++ (Piece.number n spec).text).length < size ∧
        Placed 0 (o.putNumber n spec) (t ++ (Piece.number n spec).text)) ∨
      Astray size 0 (o.putNumber n spec) := by
  have hprinted := h.printed
  have hstart : Placed o.printed ⟨0, []⟩ [] := ⟨rfl, rfl⟩
  have hinner := hstart.foldl_or_astray (segments (magnitude n spec).1 (magnitude n spec).2)
    (by omega) (by simpa [hprinted] using hin) hsize length_segment_lt
  rw [List.nil_append, flatten_segments, ← sprintfUint_eq] at hinner
  rcases hinner with ⟨hlt, -⟩ | hout
  · have hlen : (t ++ (Piece.number n spec).text).length < size := by
      rw [List.length_append, Piece.text]
      omega
    exact .inl ⟨hlen, placed_putNumber h (by omega)⟩
  · exact .inr (astray_of_inner (by omega) hout)

/-- A number that is put to an output that is astray leaves it astray. -/
theorem Astray.putNumber {size : ℕ} {o : Out} (h : Astray size 0 o) (n : Number)
    (spec : SpecifierState) : Astray size 0 (o.putNumber n spec) := by
  rcases h with hesc | ⟨hint, hout⟩
  · exact .inl (hesc.append _ _)
  · rw [zero_add] at hout
    unfold Out.putNumber
    simp only [sprintfUint_eq]
    rcases escaped_foldl hout (segments (magnitude n spec).1 (magnitude n spec).2) with
      ⟨w, hw, hw'⟩ | hnone
    · exact .inl ⟨w, List.mem_append_right _ hw, hw'⟩
    · rw [hnone, add_zero, wrapInt_of_isInt hint]
      exact .inr ⟨hint, by simpa using hout⟩

/-- After a check that fails, with the size as the count of what is printed, the output is
astray. -/
theorem astray_truncated (size : ℕ) (o : Out) : Astray size 0 { o with printed := -1 } := by
  refine .inr ⟨by norm_num [IsInt], ?_⟩
  simp [Inside]

/-- A check fails, or the output that follows it is made. -/
theorem checked_cases (size n : ℕ) (o : Out) (f : Out → Out) :
    (checkBoundaries size true o n >>= fun o => pure (f o)) = .error { o with printed := -1 } ∨
      (checkBoundaries size true o n >>= fun o => pure (f o)) = .ok (f o) := by
  unfold checkBoundaries
  split
  · exact .inl rfl
  · exact .inr rfl

/-- A string that is put to an output that is astray leaves it astray, whether its checks pass
or not. -/
theorem Astray.putString {size : ℕ} {o : Out} (h : Astray size 0 o) (s : List UInt8) :
    Astray size 0 (atEnd (putString size true o s)) := by
  induction s generalizing o with
  | nil => exact h
  | cons b s ih =>
      rw [Printf.putString, putChar]
      rcases checked_cases size 1 o (Out.put 0 · [b]) with herr | hok
      · rw [herr]
        exact astray_truncated size o
      · rw [hok]
        exact ih (h.put [b])

/-- Characters that are put without a check leave an output that is astray so. -/
theorem Astray.foldl_put {size : ℕ} {o : Out} (h : Astray size 0 o) (s : List UInt8) :
    Astray size 0 (s.foldl (fun o b => o.put 0 [b]) o) := by
  induction s generalizing o with
  | nil => exact h
  | cons b s ih => exact ih (h.put [b])

/-- A piece that is put to an output that is astray leaves it astray. -/
theorem Astray.emit {size : ℕ} {o : Out} (h : Astray size 0 o) (p : Piece) :
    Astray size 0 (atEnd (emit size true o p)) := by
  cases p with
  | char c =>
      rcases checked_cases size 1 o (Out.put 0 · [c]) with herr | hok
      · rw [Printf.emit, putChar, herr]
        exact astray_truncated size o
      · rw [Printf.emit, putChar, hok]
        exact h.put [c]
  | string s =>
      cases s with
      | some s => exact h.putString s.bytes
      | none =>
          rcases checked_cases size 6 o fun o => (bytes "(null)").foldl (fun o b => o.put 0 [b]) o
            with herr | hok
          · rw [Printf.emit, putStringOrNull, herr]
            exact astray_truncated size o
          · rw [Printf.emit, putStringOrNull, hok]
            exact h.foldl_put _
  | number n spec =>
      rcases checked_cases size (getSizeOfNumberToPrint n spec) o (Out.putNumber · n spec)
        with herr | hok
      · rw [Printf.emit, Printf.putNumber, herr]
        exact astray_truncated size o
      · rw [Printf.emit, Printf.putNumber, hok]
        exact h.putNumber n spec

/-- Pieces that are put to an output that is astray leave it astray. -/
theorem Astray.emits {size : ℕ} {o : Out} (h : Astray size 0 o) (ps : List Piece) :
    Astray size 0 (atEnd (emits size true o ps)) := by
  induction ps generalizing o with
  | nil => exact h
  | cons p ps ih =>
      have hp := h.emit p
      rw [Printf.emits]
      cases hemit : Printf.emit size true o p with
      | error o' =>
          rw [hemit] at hp
          exact hp
      | ok o' =>
          rw [hemit] at hp
          exact ih hp

/-- A string that starts inside the buffer ends inside it, or the output is astray. -/
theorem putString_or_astray {size : ℕ} {o : Out} {t s : List UInt8} (h : Placed 0 o t)
    (hin : t.length < size) (hsize : size ≤ 2 ^ 31) :
    (t ++ s).length < size ∨ Astray size 0 (atEnd (putString size true o s)) := by
  induction s generalizing o t with
  | nil => exact .inl (by simpa using hin)
  | cons b s ih =>
      rw [putString, putChar]
      rcases checked_cases size 1 o (Out.put 0 · [b]) with herr | hok
      · rw [herr]
        exact .inr (astray_truncated size o)
      · rw [hok]
        rcases h.put_or_astray [b] le_rfl (by omega) hsize (by norm_num) with
          ⟨hlt, h'⟩ | hout
        · rw [← List.singleton_append, ← List.append_assoc]
          exact ih h' (by omega)
        · exact .inr (hout.putString s)

/-- A piece that starts inside the buffer fits, or the output is astray. -/
theorem emit_or_astray {size : ℕ} {o : Out} {t : List UInt8} {p : Piece} (h : Placed 0 o t)
    (hin : t.length < size) (hpos : 1 ≤ size) (hsize : size ≤ 2 ^ 31) :
    ((t ++ p.text).length < size ∧
        ∀ n spec, p = .number n spec → wadd t.length (getSizeOfNumberToPrint n spec) < size) ∨
      Astray size 0 (atEnd (emit size true o p)) := by
  cases p with
  | char c =>
      rcases checked_cases size 1 o (Out.put 0 · [c]) with herr | hok
      · rw [emit, putChar, herr]
        exact .inr (astray_truncated size o)
      · rw [emit, putChar, hok]
        rcases h.put_or_astray [c] le_rfl (by omega) hsize (by norm_num) with
          ⟨hlt, -⟩ | hout
        · exact .inl ⟨by simp only [Piece.text]; omega, by simp⟩
        · exact .inr hout
  | string s =>
      cases s with
      | some s =>
          rcases putString_or_astray (s := s.bytes) h hin hsize with hlt | hout
          · exact .inl ⟨hlt, by simp⟩
          · exact .inr hout
      | none =>
          by_cases hlt : t.length + 6 < size
          · exact .inl ⟨by simpa [Piece.text, bytes] using hlt, by simp⟩
          · refine .inr ?_
            have herr := checkBoundaries_error (n := 6) h (by omega) hpos (by omega)
              (by unfold wadd; omega)
            rw [emit, putStringOrNull, herr]
            exact astray_truncated size o
  | number n spec =>
      by_cases hasked : wadd t.length (getSizeOfNumberToPrint n spec) < size
      · have hok := checkBoundaries_ok h (by omega) fun (_ : true = true) => ⟨by omega, hasked⟩
        rcases putNumber_or_astray n spec h hin hsize with ⟨hlt, -⟩ | hout
        · refine .inl ⟨hlt, ?_⟩
          rintro n' spec' heq
          cases heq
          exact hasked
        · refine .inr ?_
          rw [emit, putNumber, hok]
          exact hout
      · refine .inr ?_
        have herr := checkBoundaries_error h (by omega) hpos (by omega) (Nat.le_of_not_lt hasked)
        rw [emit, putNumber, herr]
        exact astray_truncated size o

/-- Pieces that start inside the buffer fit, or the output is astray at `end`. -/
theorem emits_or_astray {size : ℕ} {o : Out} {t : List UInt8} (ps : List Piece)
    (h : Placed 0 o t) (hin : t.length < size) (hpos : 1 ≤ size) (hsize : size ≤ 2 ^ 31) :
    ((t ++ text ps).length < size ∧
        ∀ front n spec back, ps = front ++ .number n spec :: back →
          wadd (t ++ text front).length (getSizeOfNumberToPrint n spec) < size) ∨
      Astray size 0 (atEnd (emits size true o ps)) := by
  induction ps generalizing o t with
  | nil => exact .inl ⟨by simpa using hin, by simp⟩
  | cons p ps ih =>
      rcases emit_or_astray (p := p) h hin hpos hsize with ⟨hlt, hasked⟩ | hout
      · obtain ⟨o', hemit, h'⟩ := emit_ok size true h (by omega) fun _ => ⟨by omega, hlt, hasked⟩
        have hemits : emits size true o (p :: ps) = emits size true o' ps := by
          simp only [emits, hemit]
        rw [hemits, text_cons, ← List.append_assoc]
        rcases ih h' hlt with ⟨hlt', hasked'⟩ | hout'
        · refine .inl ⟨hlt', ?_⟩
          intro front n spec back heq
          cases front with
          | nil =>
              cases heq
              simpa using hasked n spec rfl
          | cons q front =>
              cases heq
              simpa using hasked' front n spec back rfl
        · exact .inr hout'
      · refine .inr ?_
        rw [emits]
        cases hemit : emit size true o p with
        | error o' =>
            rw [hemit] at hout
            exact hout
        | ok o' =>
            rw [hemit] at hout
            exact Astray.emits hout ps

/-! ### Bounded formatting -/

/-- A text that fits is written inside the buffer and terminated there. In a buffer of at most
`2 ^ 31` bytes nothing else is: a text that does not fit, or a number whose check fails, makes
the formatter write outside. -/
theorem vsnprintf_bounded (fmtStr : ℤ → UInt8) {size : ℕ} {format : CString}
    {args rest : List Arg} {ps : List Piece} (hpos : 1 ≤ size) (hsize : size < 2 ^ 64)
    (hmatch : pieces appendPrecisionOrReset format.bytes .normal resetSpecifierState args =
      some (ps, rest)) :
    (Fits size ps → Bounded fmtStr size format args) ∧
      (size ≤ 2 ^ 31 → Bounded fmtStr size format args → Fits size ps) := by
  obtain ⟨args', hloop, -⟩ := vsnprintfLoop_eq size true ⟨0, []⟩ hmatch
  have hinternal : vsnprintfInternal (some fmtStr) size true (some format) args =
      some ⟨(atEnd (emits size true ⟨0, []⟩ ps)).printed,
        (atEnd (emits size true ⟨0, []⟩ ps)).writes ++
        [((atEnd (emits size true ⟨0, []⟩ ps)).printed, 0)], args'⟩ := by
    have hne : (true && decide (size = 0)) = false := by simp; omega
    simp only [vsnprintfInternal, hne, hloop, Bool.false_eq_true, if_false, Option.map_some]
  have hstart : Placed 0 ⟨0, []⟩ [] := ⟨rfl, rfl⟩
  constructor
  · intro hfits
    obtain ⟨o, hemits, ho⟩ := emits_ok size true ps hstart
      (by simpa using hfits.length_lt_int)
      fun _ => ⟨hsize, by simpa using hfits.length_lt, by simpa using hfits.asked_lt⟩
    rw [List.nil_append] at ho
    rw [hemits] at hinternal
    refine ⟨_, hinternal, ?_, o.printed, ?_, ?_⟩
    · intro w hw
      rw [atEnd, ho.writes, ho.printed] at hw
      have hlt := hfits.length_lt
      rcases List.mem_append.1 hw with hw | hw
      · obtain ⟨k, hk, hindex⟩ := index_of_mem_place hw
        unfold Inside
        omega
      · rw [List.mem_singleton.1 hw]
        simp only [Inside]
        omega
    · rw [ho.printed]
      have := hfits.length_lt
      exact ⟨by omega, by omega⟩
    · simp [store, atEnd]
  · rintro hsmall ⟨r, hr, hin, -⟩
    rcases emits_or_astray ps hstart (by simp; omega) hpos hsmall with
      ⟨hlt, hasked⟩ | hout
    · rw [List.nil_append] at hlt
      exact ⟨hlt, by omega, by simpa using hasked⟩
    · exfalso
      rw [hinternal, Option.some.injEq] at hr
      subst hr
      rcases hout with ⟨w, hw, hout⟩ | ⟨-, hout⟩
      · exact hout (hin w (List.mem_append_left _ hw))
      · rw [zero_add] at hout
        exact hout (hin _ (List.mem_append_right _ List.mem_cons_self))

/-- The format `bonjaj`. -/
def bonjaj : CString := ⟨bytes "bonjaj", by decide +kernel⟩

/-- The format `abc%*d`. -/
def starWidth : CString := ⟨bytes "abc%*d", by decide +kernel⟩

/-- A text of six characters in a buffer of seven bytes stays inside of it, with its
terminator. -/
theorem vsnprintf_bounded_bonjaj : Bounded (fun _ => 1) 7 bonjaj [] := by
  have hmatch : pieces appendPrecisionOrReset bonjaj.bytes .normal resetSpecifierState [] =
      some (bonjaj.bytes.map .char, []) := rfl
  have hlength : (text (bonjaj.bytes.map .char)).length = 6 := rfl
  refine (vsnprintf_bounded (fun _ => 1) (by norm_num) (by norm_num) hmatch).1 ⟨?_, ?_, ?_⟩
  · rw [hlength]
    norm_num
  · rw [hlength]
    norm_num
  · intro front n spec back heq
    have hmem : Piece.number n spec ∈ bonjaj.bytes.map .char := by simp [heq]
    simp at hmem

/-- `snprintf(str, 4, "bonjaj")` stores the terminator before the buffer, and
`snprintf(str, 4, "abc%*d", -3, 12345)` writes five bytes past its end. -/
theorem vsnprintf_truncation_escapes :
    (¬ Bounded (fun _ => 1) 4 bonjaj []) ∧
      ¬ Bounded (fun _ => 1) 4 starWidth [.word (-3), .word 12345] := by
  have hbonjaj : (vsnprintfInternal (some fun _ => 1) 4 true (some bonjaj) []).map (·.writes) =
      some (place 0 (bytes "bon") ++ [(-1, 0)]) := by decide +kernel
  have hstar : (vsnprintfInternal (some fun _ => 1) 4 true (some starWidth)
      [.word (-3), .word 12345]).map (·.writes) =
        some (place 0 (bytes "abc12345") ++ [(8, 0)]) := by
    decide +kernel
  constructor
  · rintro ⟨r, hr, hin, -⟩
    rw [hr, Option.map_some, Option.some.injEq] at hbonjaj
    have := hin (-1, 0) (by rw [hbonjaj]; simp)
    simp [Inside] at this
  · rintro ⟨r, hr, hin, -⟩
    rw [hr, Option.map_some, Option.some.injEq] at hstar
    have := hin (8, 0) (by rw [hstar]; simp)
    simp [Inside] at this

end MugOS.Printf
