import MugOS.ACPIReads
import MugOS.Lib.Run

/-!
# Malformed MADTs

The loops of `parseMADT` advance by a length byte of the table that they do not check: a length of
zero, or lengths that lead back, keep them in the table forever, and an entry that the end of the
table cuts off is read as a whole.

## Main results

* `countEntries_reached`: the first loop, on any table.
* `readMADT_inside_iff`: when the parser ends without reading behind the table.
* `readMADT_leaves`: two malformed tables, one for each defect.
-/

namespace MugOS.ACPI

open Footprint

/-- The parser ends, or stops at a failed assertion. -/
def EndsInside {α : Type} (r : Except Stop α) : Prop :=
  (∃ a, r = .ok a) ∨ r = .error (.fault .assertion)

section

variable (table : ℕ → UInt8)

instance (offset k : ℕ) : Decidable (Reached table offset k) :=
  inferInstanceAs (Decidable (∀ j ≤ k, entryOffset table offset j < headerLength table))

/-- The number of entries of a kind among the first ones that the loops come to. -/
def reachedCount (kind : EntryKind) (offset rounds : ℕ) : ℕ :=
  Nat.count (fun k => Reached table offset k ∧
    entryKind (table (entryOffset table offset k)) = some kind) rounds

/-- The number of entries of a kind that the loops come to in a table that they leave. -/
def entryCount (kind : EntryKind) : ℕ := reachedCount table kind rawMADTSize (headerLength table)

/-- **The tables that are parsed safely**: by their lengths, the entries lead out of the table;
type and length of each of them are in the table; and if the entries of every kind fit in an array
of 65536 bytes, then each entry that is copied ends in the table, up to the first of a wrong
size. -/
structure Contained (s : State) : Prop where
  leaves : ∃ k, headerLength table ≤ entryOffset table rawMADTSize k
  headers : ∀ k, Reached table rawMADTSize k →
    entryOffset table rawMADTSize k + 1 < headerLength table
  copies : (∀ kind, (s.count kind + entryCount table kind) * structSize kind ≤ 65536) →
    ∀ k, Reached table rawMADTSize k →
      (∀ j < k, Sized table (entryOffset table rawMADTSize j)) →
      ∀ kind, entryKind (table (entryOffset table rawMADTSize k)) = some kind →
        entryLength table (entryOffset table rawMADTSize k) = structSize kind →
        entryOffset table rawMADTSize k + structSize kind ≤ headerLength table

end

section

variable {table : ℕ → UInt8} {offset rounds k : ℕ} {s : State}

/-! ### The walk over the entries -/

/-- The offset after `k` entries is that after `k` steps, each of which adds the length of an
entry modulo `2 ^ 32`. -/
theorem entryOffset_eq_iterate (k : ℕ) : entryOffset table offset k =
    (fun o => (o + entryLength table o) % 2 ^ 32)^[k] offset := by
  induction k generalizing offset with
  | zero => rfl
  | succ k ih => rw [entryOffset, ih, Function.iterate_succ_apply]

/-- The entries before one that is reached are reached. -/
theorem Reached.mono (h : Reached table offset k) {j : ℕ} (hj : j ≤ k) : Reached table offset j :=
  fun i hi => h i (hi.trans hj)

/-- **A walk that is long does not end**: it leaves the table after fewer steps than the table has
bytes, or never. -/
theorem leaves_iff : (∃ k, headerLength table ≤ entryOffset table offset k) ↔
    ¬ Reached table offset (headerLength table) := by
  constructor
  · rintro ⟨k, hk⟩ hreached
    have hstays : ∀ j ≤ (Finset.range (headerLength table)).card,
        (fun o => (o + entryLength table o) % 2 ^ 32)^[j] offset ∈
          Finset.range (headerLength table) := by
      intro j hj
      rw [Finset.card_range] at hj
      rw [← entryOffset_eq_iterate, Finset.mem_range]
      exact hreached j hj
    have hin := iterate_mem hstays k
    rw [← entryOffset_eq_iterate, Finset.mem_range] at hin
    omega
  · intro h
    simp only [Reached, not_forall, not_lt] at h
    obtain ⟨k, -, hk⟩ := h
    exact ⟨k, hk⟩

/-- Entries that are reached come before the walk leaves the table. -/
theorem Reached.lt (h : Reached table offset k) (hleaves : ¬ Reached table offset rounds) :
    k < rounds := by
  by_contra hle
  exact hleaves (h.mono (by omega))

/-! ### The first loop -/

/-- The first loop adds one to the count of the kind of an entry, and leaves the other counts
as they are. -/
theorem countEntry_count (entryType : UInt8) (s : State) (kind : EntryKind) :
    (countEntry entryType s).count kind =
      s.count kind + if entryKind entryType = some kind then 1 else 0 := by
  unfold countEntry
  cases hkind : entryKind entryType with
  | none =>
      simp only
      split <;> simp
  | some kind' =>
      by_cases hsame : kind = kind'
      · subst hsame
        simp
      · simp [Function.update_of_ne hsame, Ne.symm hsame]

/-- The entries that are reached: the first, and the others. -/
theorem reachedCount_succ (hlt : offset < headerLength table) (kind : EntryKind) :
    reachedCount table kind offset (rounds + 1) =
      reachedCount table kind ((offset + entryLength table offset) % 2 ^ 32) rounds +
        if entryKind (table offset) = some kind then 1 else 0 := by
  rw [reachedCount, Nat.count_succ', reachedCount]
  congr 1
  · simp only [reached_succ, hlt, true_and, entryOffset]
  · simp only [reached_zero, hlt, true_and, entryOffset]

/-- **The first loop** on a table that it leaves counts the entries that it comes to. -/
theorem countEntries_reached (h : ¬ Reached table offset rounds) (s : State) :
    ∃ s', countEntries table rounds offset s = .ok s' ∧
      ∀ kind, s'.count kind = s.count kind + reachedCount table kind offset rounds := by
  induction rounds generalizing offset s with
  | zero =>
      rw [reached_zero] at h
      unfold countEntries
      rw [if_neg h]
      exact ⟨s, rfl, fun kind => rfl⟩
  | succ rounds ih =>
      unfold countEntries
      by_cases hlt : offset < headerLength table
      · rw [if_pos hlt]
        obtain ⟨s', heq, hcount⟩ := ih (fun hr => h (reached_succ.mpr ⟨hlt, hr⟩))
          (countEntry (table offset) s)
        refine ⟨s', heq, fun kind => ?_⟩
        rw [hcount kind, countEntry_count, reachedCount_succ hlt]
        omega
      · rw [if_neg hlt]
        refine ⟨s, rfl, fun kind => ?_⟩
        have hnone : reachedCount table kind offset (rounds + 1) = 0 := by
          simp [reachedCount, not_reached hlt]
        rw [hnone, Nat.add_zero]

/-- The first loop does not end on a table that it does not leave. -/
theorem countEntries_diverges (h : Reached table offset rounds) (s : State) :
    countEntries table rounds offset s = .error .diverges := by
  induction rounds generalizing offset s with
  | zero =>
      unfold countEntries
      rw [if_pos (reached_zero.mp h)]
  | succ rounds ih =>
      obtain ⟨hlt, hrest⟩ := reached_succ.mp h
      unfold countEntries
      rw [if_pos hlt]
      exact ih hrest _

/-- There can be arrays for the entries of a table that the loops leave. -/
theorem allocatable_iff_count (h : ¬ Reached table rawMADTSize (headerLength table)) :
    Allocatable table s ↔
      ∀ kind, (s.count kind + entryCount table kind) * structSize kind ≤ 65536 := by
  obtain ⟨s', hcounted, hcount⟩ := countEntries_reached h s
  constructor
  · rintro ⟨s'', hs'', hle⟩ kind
    obtain rfl := Except.ok.inj (hcounted.symm.trans hs'')
    by_contra hlt
    exact hle ⟨kind, mem_allKinds kind, by rw [hcount kind]; exact Nat.lt_of_not_le hlt⟩
  · intro hall
    refine ⟨s', hcounted, ?_⟩
    rintro ⟨kind, -, hlt⟩
    rw [hcount kind] at hlt
    exact absurd (hall kind) (Nat.not_le_of_lt hlt)

/-! ### What is read -/

/-- **Only bytes of the table are read** when it is contained. -/
theorem Contained.used (h : Contained table s) (hsize : rawMADTSize ≤ headerLength table) {i : ℕ}
    (hi : MADTUsed table s i) : i < headerLength table := by
  have hleaves := leaves_iff.mp h.leaves
  rcases hi with hi | hi | ⟨-, hi | hi | ⟨halloc, hi⟩⟩
  · simp only [rawMADTSize] at hsize
    omega
  · exact hi
  · omega
  · obtain ⟨k, -, hreached, hi⟩ := hi
    have := h.headers k hreached
    omega
  · obtain ⟨k, -, hreached, hsized, hi⟩ := hi
    have hheader := h.headers k hreached
    rcases hi with rfl | rfl | ⟨kind, hkind, hlength, -, hlt⟩
    · omega
    · exact hheader
    · exact hlt.trans_le
        (h.copies ((allocatable_iff_count hleaves).mp halloc) k hreached hsized kind hkind hlength)

/-- **A table is contained** when only its bytes are read and the loops leave it. -/
theorem contained_of_used (hvalid : isChecksumValid table (headerLength table) = true)
    (hleaves : ¬ Reached table rawMADTSize (headerLength table))
    (hused : ∀ i, MADTUsed table s i → i < headerLength table) : Contained table s where
  leaves := leaves_iff.mpr hleaves
  headers k hreached := hused _ (.inr (.inr ⟨hvalid, .inr (.inl
    ⟨k, hreached.lt hleaves, hreached, .inr rfl⟩)⟩))
  copies hfits k hreached hsized kind hkind hlength := by
    have hpos : 0 < structSize kind := by cases kind <;> decide
    have hlast := hused (entryOffset table rawMADTSize k + (structSize kind - 1))
      (.inr (.inr ⟨hvalid, .inr (.inr ⟨(allocatable_iff_count hleaves).mpr hfits, k,
        hreached.lt hleaves, hreached, hsized, .inr (.inr ⟨kind, hkind, hlength, by omega,
          by omega⟩)⟩)⟩))
    omega

/-- **When `parseMADT` ends inside the table.** For every table of at least 44 bytes with the right
checksum: the parser ends or stops at a failed assertion and reads no byte behind the table,
whatever the answers of an allocator that has no arrays of more than 65536 bytes, if and only if
the table is contained. -/
theorem readMADT_inside_iff (hsize : rawMADTSize ≤ headerLength table)
    (hvalid : isChecksumValid table (headerLength table) = true) (s : State) :
    (∀ (V : Type) (kmalloc : V → ℕ → ℕ × V), (∀ v n, 65536 < n → (kmalloc v n).1 = 0) → ∀ v,
      EndsInside (readMADT (fun v n => .ok (kmalloc v n))
        (fun _ => shownBytes (· < headerLength table) table) v s)) ↔
      Contained table s := by
  constructor
  · intro hall
    have hlarge : ∀ (v : Unit) n, 65536 < n → (enoughMemory 0 n, v).1 = 0 :=
      fun v n hn => if_neg (Nat.not_le_of_lt hn)
    have hends := hall Unit (fun v n => (enoughMemory 0 n, v)) hlarge ()
    have hfoot := readMADT_footprint (P := (· < headerLength table)) table s ()
    have hused : ∀ i, MADTUsed table s i → i < headerLength table := by
      by_contra hnot
      rw [EndsInside, hfoot.hidden hnot] at hends
      simp at hends
    refine contained_of_used hvalid (fun hreached => ?_) hused
    rw [EndsInside, hfoot.shown hused, parseMADT_enough hvalid, countEntries_diverges hreached]
      at hends
    simp [toStop, Except.map] at hends
  · intro h V kmalloc hlarge v
    have hleaves := leaves_iff.mp h.leaves
    have hkeep : ∀ (v : V) n p v', True →
        (.ok (kmalloc v n) : Except Fault (ℕ × V)) = .ok (p, v') →
          True ∧ (65536 < n → p = 0) := by
      intro v n p v' _ hok
      refine ⟨trivial, fun hn => ?_⟩
      rw [← hlarge v n hn, Except.ok.inj hok]
    have hfault : ∀ (v : V) n f, True →
        (.ok (kmalloc v n) : Except Fault (ℕ × V)) = .error f → f = .assertion := by
      intro v n f _ herr
      cases herr
    rcases readMADT_shown (fun _ => rfl) hkeep hfault rfl (fun hr => absurd hr hleaves) rfl
      (fun _ _ i => h.used hsize) (v := v) trivial with ⟨f, herr, rfl⟩ | ⟨t', v', s', hok, -⟩
    · exact .inr herr
    · exact .inl ⟨_, hok⟩

end

/-- The equivalence at a table with one local APIC: the entry is contained in the table, and
parsing ends inside of it. -/
theorem readMADT_inside_iff_lapic :
    Contained (tableOf [0, 8, 0, 0, 1, 0, 0, 0]) State.start ∧
      EndsInside (readMADT (fun v n => .ok (enoughMemory 0 n, v))
        (fun _ => shownBytes (· < headerLength (tableOf [0, 8, 0, 0, 1, 0, 0, 0]))
          (tableOf [0, 8, 0, 0, 1, 0, 0, 0])) () State.start) := by
  have hzero : ∀ k, Reached (tableOf [0, 8, 0, 0, 1, 0, 0, 0]) rawMADTSize k → k = 0 := by
    intro k hk
    by_contra hne
    exact absurd (hk.mono (show 1 ≤ k by omega)) (by decide +kernel)
  have hcontained : Contained (tableOf [0, 8, 0, 0, 1, 0, 0, 0]) State.start := by
    refine ⟨⟨1, by decide +kernel⟩, ?_, ?_⟩
    · intro k hk
      obtain rfl := hzero k hk
      decide +kernel
    · intro _ k hk _ kind hkind _
      obtain rfl := hzero k hk
      have hlapic : entryKind (tableOf [0, 8, 0, 0, 1, 0, 0, 0]
          (entryOffset (tableOf [0, 8, 0, 0, 1, 0, 0, 0]) rawMADTSize 0)) = some .lapic := by
        decide +kernel
      rw [hlapic] at hkind
      obtain rfl := Option.some.inj hkind
      decide +kernel
  refine ⟨hcontained, (readMADT_inside_iff (by decide +kernel) (by decide +kernel) _).mpr hcontained
    Unit (fun v n => (enoughMemory 0 n, v)) (fun v n hn => ?_) ()⟩
  exact if_neg (Nat.not_le_of_lt hn)

/-- **Two malformed tables**: with an entry of length zero the parser does not end, and of a local
APIC that the end of the table cuts off after four bytes it reads eight. -/
theorem readMADT_leaves :
    (isChecksumValid (tableOf [6, 0]) (headerLength (tableOf [6, 0])) = true ∧
      rawMADTSize ≤ headerLength (tableOf [6, 0]) ∧
      ¬ EndsInside (readMADT (fun v n => .ok (enoughMemory 0 n, v))
        (fun _ => shownBytes (fun _ => True) (tableOf [6, 0])) () State.start)) ∧
    (isChecksumValid (tableOf [0, 8, 0, 0]) (headerLength (tableOf [0, 8, 0, 0])) = true ∧
      rawMADTSize ≤ headerLength (tableOf [0, 8, 0, 0]) ∧
      ¬ EndsInside (readMADT (fun v n => .ok (enoughMemory 0 n, v))
        (fun _ => shownBytes (· < headerLength (tableOf [0, 8, 0, 0])) (tableOf [0, 8, 0, 0])) ()
        State.start)) := by
  refine ⟨⟨by decide +kernel, by decide +kernel, ?_⟩, by decide +kernel, by decide +kernel, ?_⟩
  · have hvalid : isChecksumValid (tableOf [6, 0]) (headerLength (tableOf [6, 0])) = true := by
      decide +kernel
    have hreached : Reached (tableOf [6, 0]) rawMADTSize (headerLength (tableOf [6, 0])) := by
      decide +kernel
    have hfoot := readMADT_footprint (P := fun _ => True) (tableOf [6, 0]) State.start ()
    rw [EndsInside, hfoot.shown fun _ _ => trivial, parseMADT_enough hvalid,
      countEntries_diverges hreached]
    simp [toStop, Except.map]
  · have hvalid : isChecksumValid (tableOf [0, 8, 0, 0]) (headerLength (tableOf [0, 8, 0, 0])) =
        true := by
      decide +kernel
    have hlapic : entryKind (tableOf [0, 8, 0, 0] 44) = some .lapic := by decide +kernel
    have hfits : Allocatable (tableOf [0, 8, 0, 0]) State.start := by
      rw [allocatable_iff_count (by decide +kernel)]
      intro kind
      cases kind <;> decide +kernel
    have hused : MADTUsed (tableOf [0, 8, 0, 0]) State.start 51 :=
      .inr (.inr ⟨hvalid, .inr (.inr ⟨hfits, 0, by decide +kernel, by decide +kernel,
        fun j hj => absurd hj (by omega), .inr (.inr ⟨.lapic, hlapic, by decide +kernel,
          by decide +kernel, by decide +kernel⟩)⟩)⟩)
    have hhidden : ¬ ∀ i, MADTUsed (tableOf [0, 8, 0, 0]) State.start i →
        i < headerLength (tableOf [0, 8, 0, 0]) :=
      fun hall => absurd (hall 51 hused) (by decide +kernel)
    have hfoot := readMADT_footprint (P := (· < headerLength (tableOf [0, 8, 0, 0])))
      (tableOf [0, 8, 0, 0]) State.start ()
    rw [EndsInside, hfoot.hidden hhidden]
    simp

end MugOS.ACPI
