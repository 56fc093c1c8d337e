import MugOS.MemoryMapInit
import Mathlib.Data.List.Chain

/-!
# Squashing the Memory Map

`processLimineMemoryMap` merges an entry into the one before it and marks it as removed. The next
comparison has the removed entry on its left, whose type is no longer that of its neighbour, so
that no third entry is merged into the first: of a run of adjacent entries of one type, every
second one stays.

## Main results

* `chain_processFrom_iff`: no two adjacent entries of one type are left exactly when no three
  entries in a row are adjacent and of one type.
* `length_active_processFrom`: in that case one entry goes for each adjacent pair.
* `squash_normal_iff`: the map is squashed to a normal form, and its entries are counted, exactly
  then, if an `int` can hold their number.
* `squash_leaves_adjacent`: three usable regions in a row, of which the last two stay apart.
-/

namespace MugOS.MemoryMap

/-! ### The property -/

/-- An entry ends exactly where the next one, of the same type, begins. -/
def Adjacent (a b : LimineEntry) : Prop := a.type = b.type ∧ a.base + a.length = b.base

/-- Three entries in a row that are adjacent and of one type. -/
def HasTriple (l : List LimineEntry) : Prop :=
  ∃ a b c, [a, b, c] <:+: l ∧ Adjacent a b ∧ Adjacent b c

/-- Adjacency is decided on the two entries. -/
instance (a b : LimineEntry) : Decidable (Adjacent a b) := inferInstanceAs (Decidable (_ ∧ _))

/-- The number of entries that are adjacent to the one before them. -/
def adjacentPairs : List LimineEntry → ℕ
  | a :: b :: l => (if Adjacent a b then 1 else 0) + adjacentPairs (b :: l)
  | _ => 0

/-- A memory map of the bootloader, of any number of entries: sorted entries of known types that
have no address in common and end below `2 ^ 64`. -/
structure SortedMap (limine : List LimineEntry) : Prop where
  known : ∀ e ∈ limine, Known e.type
  fits : ∀ e ∈ limine, e.base + e.length < 2 ^ 64
  ordered : Ordered limine

/-- **The normal form**: of the entries that are not removed none ends where the next one of the
same type begins, they have the addresses and types of the map, and their number is returned,
apart from the entry of the first page. -/
structure NormalForm (limine : List LimineEntry) : Prop where
  apart : (active (processLimineMemoryMap limine).2).IsChain fun a b => ¬ Adjacent a b
  holds : ∀ a t, Holds (active (processLimineMemoryMap limine).2) a t ↔ Holds limine a t
  count : (processLimineMemoryMap limine).1 - firstPageEntries limine =
    (active (processLimineMemoryMap limine).2).length

/-! ### Runs of adjacent entries -/

/-- A list of two entries has no three successive ones that are adjacent. -/
theorem not_hasTriple_pair (a b : LimineEntry) : ¬ HasTriple [a, b] := by
  rintro ⟨x, y, z, hin, -⟩
  have := hin.length_le
  simp at this

/-- Three entries in a row are the first three, or they are behind the first one. -/
theorem hasTriple_cons {a b c : LimineEntry} {l : List LimineEntry} :
    HasTriple (a :: b :: c :: l) ↔ (Adjacent a b ∧ Adjacent b c) ∨ HasTriple (b :: c :: l) := by
  constructor
  · rintro ⟨x, y, z, hin, hxy, hyz⟩
    rcases List.infix_cons_iff.mp hin with hpre | hin
    · simp only [List.cons_prefix_cons, List.nil_prefix, and_true] at hpre
      obtain ⟨rfl, rfl, rfl⟩ := hpre
      exact .inl ⟨hxy, hyz⟩
    · exact .inr ⟨x, y, z, hin, hxy, hyz⟩
  · rintro (⟨hab, hbc⟩ | ⟨x, y, z, hin, hxy, hyz⟩)
    · exact ⟨a, b, c, ⟨[], l, rfl⟩, hab, hbc⟩
    · exact ⟨x, y, z, hin.trans (List.suffix_cons a _).isInfix, hxy, hyz⟩

/-- Behind two entries that are not adjacent, three in a row begin with the second. -/
theorem hasTriple_cons_of_not_adjacent {a b : LimineEntry} (h : ¬ Adjacent a b)
    (l : List LimineEntry) : HasTriple (a :: b :: l) ↔ HasTriple (b :: l) := by
  cases l with
  | nil =>
      refine iff_of_false (not_hasTriple_pair a b) ?_
      rintro ⟨x, y, z, hin, -⟩
      have := hin.length_le
      simp at this
  | cons c l =>
      rw [hasTriple_cons]
      exact or_iff_right fun hab => h hab.1

/-- The entries that are left of the rest begin with an entry of the base and the type of the
first one, and are counted modulo `2 ^ 32`. -/
theorem active_processFrom (z : ℤ) (cur : LimineEntry) (rest : List LimineEntry)
    (hmap : SortedMap (cur :: rest)) :
    ∃ length A, active (processFrom (wrapInt z) cur rest).2 =
        { cur with length := length } :: A ∧
      Squashed (cur :: rest) ({ cur with length := length } :: A) ∧
      (processFrom (wrapInt z) cur rest).1 = wrapInt (z + A.length - rest.length) := by
  obtain ⟨length, tail, heq, -, hsq, hcount, -⟩ :=
    processFrom_spec z cur rest hmap.known hmap.ordered hmap.fits
  refine ⟨length, active tail, ?_, hsq, hcount⟩
  rw [heq]
  simp [active, (hmap.known cur List.mem_cons_self).1]

/-- A sorted map without its first entry is a sorted map. -/
theorem SortedMap.tail {cur : LimineEntry} {rest : List LimineEntry}
    (h : SortedMap (cur :: rest)) : SortedMap rest where
  known := fun e he => h.known e (List.mem_cons_of_mem _ he)
  fits := fun e he => h.fits e (List.mem_cons_of_mem _ he)
  ordered := h.ordered.tail

/-- The test of the loop, with its wrapping sum, finds just the adjacent entries of one
type. -/
theorem SortedMap.merges_iff {cur next : LimineEntry} {rest : List LimineEntry}
    (h : SortedMap (cur :: next :: rest)) :
    (cur.type = next.type ∧ wadd cur.base cur.length = next.base) ↔ Adjacent cur next := by
  rw [wadd_of_lt (h.fits cur List.mem_cons_self), Adjacent]

/-- **One comparison that merges**: the second entry is removed, and the loop goes on behind it. -/
theorem active_processFrom_merge (z : ℤ) {cur next next' : LimineEntry} {rest : List LimineEntry}
    (h : SortedMap (cur :: next :: next' :: rest)) (hadj : Adjacent cur next) :
    active (processFrom (wrapInt z) cur (next :: next' :: rest)).2 =
      { cur with length := cur.length + next.length } ::
        active (processFrom (wrapInt (z - 1)) next' rest).2 := by
  have hsum := h.fits next (by simp)
  have hbase := hadj.2
  rw [processFrom_merge z (h.merges_iff.mpr hadj),
    processFrom_removed rfl _ _ _ (h.tail.tail.known next' List.mem_cons_self),
    wadd_of_lt (by omega)]
  simp [active, (h.known cur List.mem_cons_self).1]

/-- **One comparison that does not merge** keeps its entry and goes on from the next one. -/
theorem active_processFrom_keep (n : ℤ) {cur next : LimineEntry} {rest : List LimineEntry}
    (h : SortedMap (cur :: next :: rest)) (hadj : ¬ Adjacent cur next) :
    active (processFrom n cur (next :: rest)).2 =
      cur :: active (processFrom n next rest).2 := by
  rw [processFrom_of_ne n fun hm => hadj (h.merges_iff.mp hm)]
  simp [active, (h.known cur List.mem_cons_self).1]

/-- **What merging leaves apart.** No entry that is left ends where the next one of its type
begins, exactly when no three entries in a row are adjacent and of one type. -/
theorem chain_processFrom_iff (z : ℤ) (cur : LimineEntry) (rest : List LimineEntry)
    (h : SortedMap (cur :: rest)) :
    ((active (processFrom (wrapInt z) cur rest).2).IsChain fun a b => ¬ Adjacent a b) ↔
      ¬ HasTriple (cur :: rest) := by
  cases rest with
  | nil =>
      refine iff_of_true ?_ ?_
      · simp [processFrom, active, (h.known cur List.mem_cons_self).1]
      · rintro ⟨x, y, z, hin, -⟩
        have := hin.length_le
        simp at this
  | cons next rest =>
      by_cases hadj : Adjacent cur next
      · cases rest with
        | nil =>
            refine iff_of_true ?_ (not_hasTriple_pair cur next)
            rw [processFrom_merge z (h.merges_iff.mpr hadj)]
            simp [processFrom, active, (h.known cur List.mem_cons_self).1]
        | cons next' rest =>
            -- The merged entry ends where the removed one did.
            have hsame : ∀ length, Adjacent { cur with length := cur.length + next.length }
                { next' with length := length } ↔ Adjacent next next' := by
              intro length
              have htype := hadj.1
              have hbase := hadj.2
              simp only [Adjacent, htype]
              refine and_congr_right fun _ => ?_
              omega
            obtain ⟨length, A, hA, -⟩ := active_processFrom (z - 1) next' rest h.tail.tail
            have ih := chain_processFrom_iff (z - 1) next' rest h.tail.tail
            rw [active_processFrom_merge z h hadj, hasTriple_cons]
            rw [hA] at ih ⊢
            rw [List.isChain_cons_cons, hsame, ih]
            by_cases hnext : Adjacent next next'
            · simp [hadj, hnext]
            · rw [hasTriple_cons_of_not_adjacent hnext]
              simp [hnext]
      · obtain ⟨length, A, hA, -⟩ := active_processFrom z next rest h.tail
        have ih := chain_processFrom_iff z next rest h.tail
        have hsame : ¬ Adjacent cur { next with length := length } := hadj
        rw [active_processFrom_keep (wrapInt z) h hadj, hasTriple_cons_of_not_adjacent hadj]
        rw [hA] at ih ⊢
        rw [List.isChain_cons_cons, ih]
        exact and_iff_right hsame
termination_by rest.length

/-! ### The count -/

/-- **One entry goes for each adjacent pair**, if no three entries in a row are adjacent and of one
type. -/
theorem length_active_processFrom (z : ℤ) (cur : LimineEntry) (rest : List LimineEntry)
    (h : SortedMap (cur :: rest)) (htriple : ¬ HasTriple (cur :: rest)) :
    (active (processFrom (wrapInt z) cur rest).2).length + adjacentPairs (cur :: rest) =
      rest.length + 1 := by
  cases rest with
  | nil => simp [processFrom, active, adjacentPairs, (h.known cur List.mem_cons_self).1]
  | cons next rest =>
      by_cases hadj : Adjacent cur next
      · cases rest with
        | nil =>
            rw [processFrom_merge z (h.merges_iff.mpr hadj)]
            simp [processFrom, active, adjacentPairs, hadj, (h.known cur List.mem_cons_self).1]
        | cons next' rest =>
            rw [hasTriple_cons] at htriple
            have hnext : ¬ Adjacent next next' := fun hnext => htriple (.inl ⟨hadj, hnext⟩)
            have htriple' : ¬ HasTriple (next' :: rest) := fun ht =>
              htriple (.inr ((hasTriple_cons_of_not_adjacent hnext rest).mpr ht))
            have ih := length_active_processFrom (z - 1) next' rest h.tail.tail htriple'
            rw [active_processFrom_merge z h hadj, adjacentPairs, adjacentPairs, if_pos hadj,
              if_neg hnext]
            simp only [List.length_cons]
            omega
      · rw [hasTriple_cons_of_not_adjacent hadj] at htriple
        have ih := length_active_processFrom z next rest h.tail htriple
        rw [active_processFrom_keep (wrapInt z) h hadj, adjacentPairs, if_neg hadj]
        simp only [List.length_cons]
        omega
termination_by rest.length

/-- A count is an `int` exactly when it is below `2 ^ 31`. -/
theorem wrapInt_eq_iff {z : ℤ} (h0 : 0 ≤ z) : wrapInt z = z ↔ z < 2 ^ 31 := by
  refine ⟨fun heq => ?_, wrapInt_of_lt h0⟩
  have hlt := Int.bmod_lt (x := z) (m := 2 ^ 32) (by norm_num)
  rw [← heq, wrapInt]
  norm_num at hlt ⊢
  exact hlt

/-- **The memory map is squashed to a normal form exactly when it has no three adjacent entries
of one type in a row** and an `int` can hold the number of entries that are left, with the one of
the first page. This holds for every sorted map of the bootloader without overlaps, of any number
of entries. -/
theorem squash_normal_iff {limine : List LimineEntry} (h : SortedMap limine) :
    NormalForm limine ↔ ¬ HasTriple limine ∧
      (limine.length : ℤ) - adjacentPairs limine + firstPageEntries limine < 2 ^ 31 := by
  match limine with
  | [] =>
      refine iff_of_true ?_ ⟨?_, by simp [adjacentPairs, firstPageEntries]⟩
      · exact ⟨List.isChain_nil, by simp [processLimineMemoryMap, active],
          by simp [processLimineMemoryMap, active, firstPageEntries]⟩
      · rintro ⟨x, y, z, hin, -⟩
        have := hin.length_le
        simp at this
  | cur :: rest =>
      have hproc := processLimineMemoryMap_cons cur rest
      set z : ℤ := rest.length + 1 + firstPageEntries (cur :: rest) with hz
      obtain ⟨length, A, hA, hsq, hcount⟩ := active_processFrom z cur rest h
      have hchain := chain_processFrom_iff z cur rest h
      have hextra := firstPageEntries_nonneg (cur :: rest)
      have hsum : z + A.length - rest.length =
          A.length + 1 + firstPageEntries (cur :: rest) := by
        rw [hz]
        ring
      have hnum : (processFrom (wrapInt z) cur rest).1 - firstPageEntries (cur :: rest) =
          ((active (processFrom (wrapInt z) cur rest).2).length : ℤ) ↔
            (A.length : ℤ) + 1 + firstPageEntries (cur :: rest) < 2 ^ 31 := by
        rw [← wrapInt_eq_iff (by omega), hcount, hsum, hA, List.length_cons]
        push_cast
        omega
      have hleft : ¬ HasTriple (cur :: rest) →
          ((cur :: rest).length : ℤ) - adjacentPairs (cur :: rest) = A.length + 1 := by
        intro htriple
        have hlen := length_active_processFrom z cur rest h htriple
        rw [hA, List.length_cons] at hlen
        rw [List.length_cons]
        push_cast
        omega
      constructor
      · rintro ⟨hapart, -, hreturned⟩
        rw [hproc] at hapart hreturned
        have htriple := hchain.mp hapart
        refine ⟨htriple, ?_⟩
        rw [hleft htriple]
        exact hnum.mp hreturned
      · rintro ⟨htriple, hlt⟩
        rw [hleft htriple] at hlt
        refine ⟨?_, ?_, ?_⟩
        · rw [hproc]
          exact hchain.mpr htriple
        · rw [hproc, hA]
          exact hsq.holds
        · rw [hproc]
          exact hnum.mpr hlt

/-- The normal form of a map with two adjacent usable regions and one further up. -/
theorem squash_normal_iff_pair :
    SortedMap [⟨0, 0x1000, .usable⟩, ⟨0x1000, 0x1000, .usable⟩, ⟨0x5000, 0x1000, .usable⟩] ∧
      NormalForm [⟨0, 0x1000, .usable⟩, ⟨0x1000, 0x1000, .usable⟩, ⟨0x5000, 0x1000, .usable⟩] := by
  have hmap : SortedMap
      [⟨0, 0x1000, .usable⟩, ⟨0x1000, 0x1000, .usable⟩, ⟨0x5000, 0x1000, .usable⟩] := by
    refine ⟨?_, ?_, ?_⟩ <;> simp [Known, ordered_iff]
  refine ⟨hmap, (squash_normal_iff hmap).mpr ⟨?_, by decide⟩⟩
  rw [hasTriple_cons]
  rintro (⟨-, -, hbase⟩ | htriple)
  · simp at hbase
  · exact not_hasTriple_pair _ _ htriple

/-- **Two adjacent usable regions are left** of three: the second is merged into the first, and the
third is compared with the second. -/
theorem squash_leaves_adjacent :
    SortedMap [⟨0, 0x1000, .usable⟩, ⟨0x1000, 0x1000, .usable⟩, ⟨0x2000, 0x1000, .usable⟩] ∧
      active (processLimineMemoryMap
        [⟨0, 0x1000, .usable⟩, ⟨0x1000, 0x1000, .usable⟩, ⟨0x2000, 0x1000, .usable⟩]).2 =
          [⟨0, 0x2000, .usable⟩, ⟨0x2000, 0x1000, .usable⟩] ∧
      ¬ NormalForm [⟨0, 0x1000, .usable⟩, ⟨0x1000, 0x1000, .usable⟩,
        ⟨0x2000, 0x1000, .usable⟩] := by
  have hactive : active (processLimineMemoryMap
      [⟨0, 0x1000, .usable⟩, ⟨0x1000, 0x1000, .usable⟩, ⟨0x2000, 0x1000, .usable⟩]).2 =
        [⟨0, 0x2000, .usable⟩, ⟨0x2000, 0x1000, .usable⟩] := by decide
  refine ⟨?_, hactive, ?_⟩
  · refine ⟨?_, ?_, ?_⟩ <;> simp [Known, ordered_iff]
  · intro hnormal
    have hapart := hnormal.apart
    rw [hactive, List.isChain_cons_cons] at hapart
    exact hapart.1 ⟨rfl, rfl⟩

end MugOS.MemoryMap
