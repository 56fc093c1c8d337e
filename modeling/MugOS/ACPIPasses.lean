import Mathlib.Data.List.GetD
import MugOS.ACPI

/-!
# The Two Passes over the MADT

`parseMADT` counts the entries of each kind, allocates an array for each, sets the counters back,
and copies the entries in a second pass in which the counters are the indices. Both passes come to
the same entries, so that the arrays are filled exactly.

## Main results

* `countEntries_tiled`, `copyEntries_tiled`: what each pass does.
* `parseMADT_agrees`: the arrays hold the entries of their kind in the order of the table, and
  nothing is written behind their end.
-/

namespace MugOS.ACPI

/-! ### Tables whose entries fit -/

/-- An entry has the size of the structure that it is copied to; one that is not copied has at
least a type and a length. -/
def Fits (table : ℕ → UInt8) (offset : ℕ) : Prop :=
  match entryKind (table offset) with
  | some kind => entryLength table offset = structSize kind
  | none => 2 ≤ entryLength table offset

instance (table : ℕ → UInt8) (offset : ℕ) : Decidable (Fits table offset) := by
  unfold Fits
  split <;> infer_instance

/-- Entries at the given offsets tile the table from an offset on. -/
inductive Tiled (table : ℕ → UInt8) : ℕ → List ℕ → Prop
  | done : Tiled table (headerLength table) []
  | entry {offset : ℕ} {offsets : List ℕ} (hlt : offset < headerLength table)
      (hfits : Fits table offset)
      (hrest : Tiled table (offset + entryLength table offset) offsets) :
      Tiled table offset (offset :: offsets)

/-- The entries of one kind, in the order of the table. -/
def entriesOf (table : ℕ → UInt8) (kind : EntryKind) (offsets : List ℕ) : List ℕ :=
  offsets.filter fun offset => entryKind (table offset) = some kind

/-- An array after some elements are written to it from an index on. -/
def place {α : Type*} (array : ℕ → α) (n : ℕ) (elements : List α) : ℕ → α := fun i =>
  if n ≤ i then elements.getD (i - n) (array i) else array i

section

variable {table : ℕ → UInt8} {offset rounds : ℕ} {offsets : List ℕ} {kind : EntryKind}

/-- The entries of one kind, where the first is of that kind. -/
theorem entriesOf_cons_self (h : entryKind (table offset) = some kind) :
    entriesOf table kind (offset :: offsets) = offset :: entriesOf table kind offsets :=
  List.filter_cons_of_pos (by simpa using h)

/-- The entries of one kind, where the first is of another. -/
theorem entriesOf_cons_ne (h : entryKind (table offset) ≠ some kind) :
    entriesOf table kind (offset :: offsets) = entriesOf table kind offsets :=
  List.filter_cons_of_neg (by simpa using h)

/-- Writing no elements leaves the array as it is. -/
@[simp] theorem place_nil {α : Type*} (array : ℕ → α) (n : ℕ) : place array n [] = array := by
  funext i
  simp [place]

/-- The first element is written, and then the others behind it. -/
theorem place_update {α : Type*} (array : ℕ → α) (n : ℕ) (x : α) (xs : List α) :
    place (Function.update array n x) (n + 1) xs = place array n (x :: xs) := by
  funext i
  rcases Nat.lt_trichotomy i n with hlt | rfl | hgt
  · rw [place, place, if_neg (by omega), if_neg (by omega), Function.update_of_ne (by omega)]
  · rw [place, place, if_neg (by omega), if_pos (le_refl _), Function.update_self, Nat.sub_self,
      List.getD_cons_zero]
  · rw [place, place, if_pos (by omega), if_pos (by omega), Function.update_of_ne (by omega),
      show i - n = i - (n + 1) + 1 by omega, List.getD_cons_succ]

/-- The elements that are written from the beginning of an array on. -/
theorem map_place_zero {α : Type*} (array : ℕ → α) (xs : List α) :
    (List.range xs.length).map (place array 0 xs) = xs := by
  refine List.ext_getElem (by simp) fun i hi hi' => ?_
  rw [List.getElem_map, List.getElem_range, place, if_pos (Nat.zero_le _), Nat.sub_zero,
    List.getD_eq_getElem _ _ hi']

/-- The elements of the array behind those that are written stay as they are. -/
theorem place_behind {α : Type*} (array : ℕ → α) {xs : List α} {i : ℕ} (hi : xs.length ≤ i) :
    place array 0 xs i = array i := by
  rw [place, if_pos (Nat.zero_le _), Nat.sub_zero, List.getD_eq_default _ _ hi]

/-! ### The passes -/

/-- Offsets that tile the table end with the table: each of them is at most its length. -/
theorem Tiled.le (h : Tiled table offset offsets) : offset ≤ headerLength table := by
  cases h with
  | done => exact le_refl _
  | entry hlt hfits hrest => exact hlt.le

/-- An entry that fits its kind and the table is not empty. -/
theorem Fits.pos (h : Fits table offset) : 0 < entryLength table offset := by
  unfold Fits at h
  split at h
  · rename_i kind _
    rw [h]
    cases kind <;> decide
  · omega

/-- An entry that is copied has the size of its structure. -/
theorem Fits.length_eq (h : Fits table offset) (hkind : entryKind (table offset) = some kind) :
    entryLength table offset = structSize kind := by
  rwa [Fits, hkind] at h

/-- The next entry begins where its predecessor ends: the offset does not wrap inside of the
table. -/
theorem Tiled.next_eq (hrest : Tiled table (offset + entryLength table offset) offsets)
    (hle : headerLength table ≤ 65536) :
    (offset + entryLength table offset) % 2 ^ 32 = offset + entryLength table offset :=
  Nat.mod_eq_of_lt (by have := hrest.le; omega)

/-- The array for the entries of one kind is no longer than the table. -/
theorem Tiled.length_mul_le (h : Tiled table offset offsets) (kind : EntryKind) :
    offset + (entriesOf table kind offsets).length * structSize kind ≤ headerLength table := by
  induction h with
  | done => simp [entriesOf]
  | @entry offset offsets hlt hfits hrest ih =>
      by_cases hkind : entryKind (table offset) = some kind
      · rw [entriesOf_cons_self hkind, List.length_cons, Nat.succ_mul]
        rw [hfits.length_eq hkind] at ih
        omega
      · rw [entriesOf_cons_ne hkind]
        omega

/-- **The first pass** counts the entries of each kind, and copies nothing. -/
theorem countEntries_tiled (h : Tiled table offset offsets) (hle : headerLength table ≤ 65536)
    (hrounds : headerLength table ≤ offset + rounds) (s : State) :
    ∃ s', countEntries table rounds offset s = .ok s' ∧ s'.entries = s.entries ∧
      ∀ kind, s'.count kind = s.count kind + (entriesOf table kind offsets).length := by
  induction h generalizing rounds s with
  | done =>
      unfold countEntries
      rw [if_neg (lt_irrefl _)]
      exact ⟨s, rfl, rfl, fun _ => rfl⟩
  | @entry offset offsets hlt hfits hrest ih =>
      have hpos := hfits.pos
      obtain ⟨rounds, rfl⟩ : ∃ k, rounds = k + 1 := ⟨rounds - 1, by omega⟩
      unfold countEntries
      rw [if_pos hlt]
      simp only [hrest.next_eq hle]
      obtain ⟨s', heq, hentries, hcount⟩ := @ih rounds (by omega) (countEntry (table offset) s)
      rw [countEntry] at heq hentries hcount
      cases hkind : entryKind (table offset) with
      | none =>
          have hsame : ∀ kind, entryKind (table offset) ≠ some kind := by simp [hkind]
          refine ⟨s', by rw [countEntry, hkind]; rwa [hkind] at heq, ?_, fun kind => ?_⟩
          · rw [hkind] at hentries
            rw [hentries]
            simp only
            split <;> rfl
          · rw [hkind] at hcount
            rw [hcount kind, entriesOf_cons_ne (hsame kind)]
            simp only
            split <;> rfl
      | some kind' =>
          rw [hkind] at heq hentries hcount
          refine ⟨s', by rw [countEntry, hkind]; exact heq, hentries, fun kind => ?_⟩
          rw [hcount kind]
          by_cases hsame : kind = kind'
          · subst hsame
            rw [entriesOf_cons_self hkind, List.length_cons]
            simp only [Function.update_self]
            omega
          · rw [entriesOf_cons_ne (by simpa [hkind] using Ne.symm hsame)]
            simp only [Function.update_of_ne hsame]

/-- **The second pass** appends the entries to the arrays of their kinds. -/
theorem copyEntries_tiled (h : Tiled table offset offsets) (hle : headerLength table ≤ 65536)
    (hrounds : headerLength table ≤ offset + rounds) (s : State) :
    ∃ s', copyEntries table rounds offset s = .ok s' ∧ s'.array = s.array ∧
      ∀ kind, s'.count kind = s.count kind + (entriesOf table kind offsets).length ∧
        s'.entries kind = place (s.entries kind) (s.count kind)
          ((entriesOf table kind offsets).map fun o => bytes table o (structSize kind)) := by
  induction h generalizing rounds s with
  | done =>
      unfold copyEntries
      rw [if_neg (lt_irrefl _)]
      exact ⟨s, rfl, rfl, fun _ => ⟨rfl, (place_nil _ _).symm⟩⟩
  | @entry offset offsets hlt hfits hrest ih =>
      have hpos := hfits.pos
      obtain ⟨rounds, rfl⟩ : ∃ k, rounds = k + 1 := ⟨rounds - 1, by omega⟩
      have ih := @ih rounds (by omega)
      unfold copyEntries
      rw [if_pos hlt]
      simp only [hrest.next_eq hle]
      rw [copyEntry]
      cases hkind : entryKind (table offset) with
      | none =>
          have hsame : ∀ kind, entryKind (table offset) ≠ some kind := by simp [hkind]
          obtain ⟨s', heq, harray, hall⟩ := ih s
          refine ⟨s', heq, harray, fun kind => ?_⟩
          rw [entriesOf_cons_ne (hsame kind)]
          exact hall kind
      | some kind' =>
          simp only
          rw [if_neg (not_not_intro (hfits.length_eq hkind))]
          obtain ⟨s', heq, harray, hall⟩ := ih { s with
            entries := Function.update s.entries kind'
              (Function.update (s.entries kind') (s.count kind')
                (bytes table offset (structSize kind')))
            count := Function.update s.count kind' (s.count kind' + 1) }
          refine ⟨s', heq, harray, fun kind => ?_⟩
          obtain ⟨hcount, hentries⟩ := hall kind
          rw [hcount, hentries]
          by_cases hsame : kind = kind'
          · subst hsame
            rw [entriesOf_cons_self hkind, List.length_cons, List.map_cons, ← place_update]
            simp only [Function.update_self, and_true]
            omega
          · rw [entriesOf_cons_ne (by simpa [hkind] using Ne.symm hsame)]
            simp only [Function.update_of_ne hsame, and_self]

/-- **The two passes over the MADT agree.** For a table of at most 65536 bytes with the right
checksum that its entries tile, the counters being zero and `kmalloc` succeeding for the sizes it
supports: `parseMADT` returns, the array of each kind is allocated for as many entries as the first
pass counts, it holds exactly the entries of its kind in the order of the table, its counter is
their number, and nothing is written behind what is allocated. -/
theorem parseMADT_agrees {kmalloc : ℕ → ℕ → ℕ}
    (hkmalloc : ∀ t size, 1 ≤ size → size ≤ 65536 → kmalloc t size ≠ 0)
    (hvalid : isChecksumValid table (headerLength table) = true)
    (hle : headerLength table ≤ 65536) (htiled : Tiled table rawMADTSize offsets) {s : State}
    (hzero : ∀ kind, s.count kind = 0) :
    ∃ s₁ s', countEntries table (headerLength table) rawMADTSize
        { s with raw := bytes table 0 rawMADTSize } = .ok s₁ ∧
      parseMADT kmalloc table s = .ok s' ∧ s'.present = true ∧
      ∀ kind,
        s'.array kind = kmalloc (allKinds.idxOf kind) (s₁.count kind * structSize kind) ∧
        s'.count kind = (entriesOf table kind offsets).length ∧
        (List.range (s'.count kind)).map (s'.entries kind) =
          (entriesOf table kind offsets).map (fun o => bytes table o (structSize kind)) ∧
        ∀ i ≥ s₁.count kind, s'.entries kind i = s.entries kind i := by
  obtain ⟨s₁, hcounted, hentries₁, hcount₁⟩ := countEntries_tiled htiled hle (Nat.le_add_left _ _)
    { s with raw := bytes table 0 rawMADTSize }
  have hnumber : ∀ kind, s₁.count kind = (entriesOf table kind offsets).length := by
    intro kind
    rw [hcount₁ kind, hzero kind, Nat.zero_add]
  obtain ⟨s₂, hcopied, harray₂, hall₂⟩ := copyEntries_tiled htiled hle (Nat.le_add_left _ _)
    { allocateArrays kmalloc s₁ with count := fun _ => 0 }
  have henough : ¬ ∃ kind ∈ allKinds, (allocateArrays kmalloc s₁).array kind = 0 ∧
      (allocateArrays kmalloc s₁).count kind ≠ 0 := by
    rintro ⟨kind, -, hnull, hne⟩
    have hmul := htiled.length_mul_le kind
    rw [← hnumber kind] at hmul
    have hsize : 0 < structSize kind := by cases kind <;> decide
    exact hkmalloc _ (s₁.count kind * structSize kind)
      (Nat.mul_pos (Nat.pos_of_ne_zero hne) hsize) (by omega) hnull
  refine ⟨s₁, { s₂ with present := true }, hcounted, ?_, rfl, fun kind => ?_⟩
  · rw [parseMADT, if_neg (not_not_intro hvalid)]
    dsimp only
    rw [hcounted]
    change (if _ then _ else _) = _
    rw [if_neg henough]
    rw [hcopied]
    rfl
  · obtain ⟨hcount₂, hentries₂⟩ := hall₂ kind
    have hcount : s₂.count kind = (entriesOf table kind offsets).length :=
      hcount₂.trans (Nat.zero_add _)
    have hentries : s₂.entries kind = place (s.entries kind) 0
        ((entriesOf table kind offsets).map fun o => bytes table o (structSize kind)) := by
      rw [hentries₂]
      exact congrArg (fun old => place (old kind) 0 _) hentries₁
    refine ⟨congrFun harray₂ kind, hcount, ?_, fun i hi => ?_⟩
    · simp only [hcount, hentries]
      conv_lhs => rw [← List.length_map (fun o => bytes table o (structSize kind)), map_place_zero]
    · simp only [hentries]
      exact place_behind _ (by rw [List.length_map, ← hnumber kind]; exact hi)

end

/-- A table with an override, a processor interrupt source of six bytes, and two local APICs. -/
def mixedTable : ℕ → UInt8 :=
  tableOf [2, 10, 0, 0, 2, 0, 0, 0, 0, 0, 8, 6, 0, 0, 0, 0, 0, 8, 0, 0, 1, 0, 0, 0,
    0, 8, 1, 1, 1, 0, 0, 0]

/-- A table with two kinds of entries is parsed, and the array of local APICs has its two
entries of this kind, in order. -/
theorem parseMADT_agrees_mixed :
    ∃ s, parseMADT pageKmalloc mixedTable State.start = .ok s ∧ s.count .lapic = 2 ∧
      (List.range (s.count .lapic)).map (s.entries .lapic) =
        [[0, 8, 0, 0, 1, 0, 0, 0], [0, 8, 1, 1, 1, 0, 0, 0]] := by
  have htiled : Tiled mixedTable rawMADTSize [44, 54, 60, 68] := by
    refine .entry (by decide +kernel) (by decide +kernel) ?_
    refine .entry (by decide +kernel) (by decide +kernel) ?_
    refine .entry (by decide +kernel) (by decide +kernel) ?_
    exact .entry (by decide +kernel) (by decide +kernel) .done
  have hzero : ∀ kind, State.start.count kind = 0 := fun _ => rfl
  obtain ⟨s₁, s, -, hparse, -, hall⟩ := parseMADT_agrees pageKmalloc_succeeds
    (by decide +kernel) (by decide +kernel) htiled hzero
  obtain ⟨-, hcount, hentries, -⟩ := hall .lapic
  have htwo : entriesOf mixedTable .lapic [44, 54, 60, 68] = [60, 68] := by decide +kernel
  refine ⟨s, hparse, by rw [hcount, htwo]; rfl, ?_⟩
  rw [hentries, htwo]
  decide +kernel

end MugOS.ACPI
