import MugOS.HashmapSpec
import MugOS.Lib.Run

/-!
# Growing the Allocation Hash Map

Two sides of `Hashmap_grow`. Copying all entries into a cleared array of twice the capacity makes
every key reachable, wherever it was before. The pages of the old array are a different matter:
their number is rounded to pages a second time before they are given back, so that one page is
given back of an array of several.

## Main results

* `grow_restores_lookups`: after a growth every lookup is right.
* `Held.Roomy.step_iff`: an insertion leaks no page exactly when it does not grow an array of
  more than one page.
* `growth_leaks_iff`: the same for whole runs of insertions, of any keys.
* `third_growth_leaks`: the third growth leaks a page.
-/

namespace MugOS.Hashmap

open Probe

variable {V : Type} [Inhabited V]

/-! ### Lookups after a growth -/

/-- A map whose keys are distinct pages, placed in any slots, with an exact count of the empty
ones. -/
structure Scattered (map : Hashmap V) : Prop extends Sized map where
  free_eq : map.freeEntries = nFree map.entries
  page : ∀ e ∈ map.entries, e.key % pageSize = 0 ∧ e.key < 2 ^ 64
  distinct : DistinctKeys map.entries

/-- What `map` grew to: a map of the new capacity, counted, in which a lookup returns the old
entry of every key, and `NULL` for every other page. -/
structure Regained (map map' : Hashmap V) : Prop where
  total : map'.totalEntries =
    if map.totalEntries = 0 then defaultSize else 2 * map.totalEntries
  length_eq : map'.entries.length = map'.totalEntries
  free : map'.freeEntries = nFree map'.entries
  hit : ∀ e ∈ map.entries, e.key ≠ 0 →
    ∃ i < map'.totalEntries, find map' e.key = .ok (some i) ∧ entryAt map'.entries i = e
  miss : ∀ ptr, (∀ e ∈ map.entries, e.key ≠ 0 → e.key ≠ getPage ptr) → find map' ptr = .ok none

/-- **A growth re-establishes every lookup.** For every map with distinct pages as keys, placed at
arbitrary slots, `Hashmap_grow` returns; if it returns `true`, then a lookup finds every key with
its value and nothing else, in an array of twice the capacity whose empty slots are counted; if it
returns `false`, the map is unchanged. -/
theorem grow_restores_lookups (src : PageSource) {map : Hashmap V} (h : Scattered map)
    (ps : Pages) :
    ∃ grown map' ps', grow src map ps = .ok (grown, map', ps') ∧
      (grown = true → Regained map map') ∧ (grown = false → map' = map) := by
  rcases grow_sized src h.toSized ps with ⟨ps', hg, -⟩ |
    ⟨map', ps', hg, hmax, -, -, htotal, hsized, hfree, hnFree, hrehash, -⟩
  · exact ⟨false, map, ps', hg, by simp, fun _ => rfl⟩
  refine ⟨true, map', ps', hg, ?_, by simp⟩
  rintro -
  obtain ⟨hwf, hpr, hcont, -⟩ :=
    h.toSized.grown hmax h.free_eq h.page h.distinct htotal hsized hfree hnFree hrehash
  refine ⟨htotal, hwf.length_eq, hwf.free_eq, ?_, ?_⟩
  · intro e he hz
    have hpage : getPage e.key = e.key := by
      have := (h.page e he).1
      simp only [getPage, pageSize] at *
      omega
    obtain ⟨i, hi, hentry⟩ := (hcont e.key e.value hz).mpr (contains_iff_mem.mpr he)
    rw [hwf.length_eq] at hi
    refine ⟨i, hi, find_hit hwf hpr hi ?_ (by rwa [hpage]), hentry⟩
    rw [keyAt, hentry, hpage]
  · intro ptr hother
    by_cases hz : getPage ptr = 0
    · -- Nothing has the key of page 0, which marks an empty slot.
      rcases find_sound hwf ptr with hn | ⟨_, _, _, _, hne'⟩
      · exact hn
      · exact absurd hz hne'
    · apply find_miss hwf
      intro v hc
      rw [hcont _ _ hz, contains_iff_mem] at hc
      exact hother _ hc hz rfl

/-- A map with one key, which is not where a lookup starts. -/
def strayMap : Hashmap ℕ :=
  ⟨0x5000, (List.replicate 256 emptyEntry).set 3 ⟨0x1000, 7⟩, 256, 255⟩

/-- A page source that has one megabyte at a fixed address. -/
def megabyteSource : PageSource := fun _ _ _ _ => 0x100000

/-- A key that a lookup does not find before the growth is found after it. -/
theorem grow_restores_lookups_stray :
    Scattered strayMap ∧ find strayMap 0x1000 = .ok none ∧
      ∃ map' ps' i, grow megabyteSource strayMap Pages.none = .ok (true, map', ps') ∧
        find map' 0x1000 = .ok (some i) ∧ entryAt map'.entries i = ⟨0x1000, 7⟩ := by
  have hscattered : Scattered strayMap :=
    { length_eq := by rw [strayMap, List.length_set, List.length_replicate]
      cap := .inr ⟨8, by norm_num, by norm_num, by decide⟩
      base_iff := by decide
      free_eq := by decide +kernel
      page := by
        intro e he
        rcases List.mem_or_eq_of_mem_set he with he | rfl
        · rw [List.eq_of_mem_replicate he]
          simp [emptyEntry]
        · decide
      distinct := by
        have hkey : ∀ i, keyAt strayMap.entries i = if 3 = i then 0x1000 else 0 := by
          intro i
          rw [strayMap, keyAt_set _ _ _ _ (by rw [List.length_replicate]; decide), keyAt_replicate]
        intro i _ j _ heq hz
        rw [hkey] at heq hz
        rw [hkey] at heq
        split_ifs at heq hz <;> omega }
  refine ⟨hscattered, by decide +kernel, ?_⟩
  obtain ⟨grown, map', ps', hg, hgrown, -⟩ :=
    grow_restores_lookups megabyteSource hscattered Pages.none
  have htrue : (grow megabyteSource strayMap Pages.none).toOption.map Prod.fst = some true := by
    decide +kernel
  rw [hg] at htrue
  obtain rfl : grown = true := by simpa [Except.toOption] using htrue
  have hmem : (⟨0x1000, 7⟩ : Entry ℕ) ∈ strayMap.entries := by
    rw [← contains_iff_mem]
    exact ⟨3, by decide +kernel, by decide +kernel⟩
  obtain ⟨i, -, hfind, hentry⟩ := (hgrown rfl).hit _ hmem (by decide)
  exact ⟨map', ps', i, hg, hfind, hentry⟩

/-! ### The pages of the array -/

/-- A hash map and the pages that it holds: those that it got and has not given back. -/
structure Held (V : Type) where
  map : Hashmap V
  ps : Pages

/-- The start: no array, and no pages. -/
def Held.start : Held V := ⟨empty, Pages.none⟩

/-- A call `Hashmap_insert(map, ptr, value)` that returns, with any key. -/
def Inserts (src : PageSource) (t : Held V) (c : ℕ × V) (u : Held V) : Prop :=
  ∃ b, insert src t.map t.ps c.1 c.2 = .ok (b, u.map, u.ps)

/-- The pages that the map holds are exactly those of its array. -/
def NoLeak (t : Held V) : Prop :=
  ∀ q, q ∈ t.ps.owned ↔ q ∈ pages t.map.base (roundToPage (t.map.totalEntries * entrySize))

/-- The insertion grows an array of more than one page: the map is too full, has more than 256
entries, and gets the pages that it asks for. -/
def GrowsLate (src : PageSource) (t : Held V) (c : ℕ × V) : Prop :=
  c.1 ≠ 0 ∧ t.map.tooFull = true ∧ defaultSize < t.map.totalEntries ∧
    t.map.totalEntries ≤ maxSize ∧ src t.ps.requests t.ps.owned (newPages t.map) true ≠ 0

/-- The count of empty slots promises no more than there are, and a quarter of the slots, up to
the last insertion. -/
structure Held.Roomy (t : Held V) : Prop extends Sized t.map where
  free_le : t.map.freeEntries ≤ nFree t.map.entries
  room : t.map.totalEntries ≤ 4 * t.map.freeEntries + 4

omit [Inhabited V] in
/-- The map at the start has room enough, as there is nothing in it. -/
theorem roomy_start : (Held.start : Held V).Roomy where
  length_eq := rfl
  cap := .inl rfl
  base_iff := by simp [Held.start, empty]
  free_le := by simp [Held.start, empty]
  room := by simp [Held.start, empty]

omit [Inhabited V] in
/-- At the start no page is held, so that nothing has leaked. -/
theorem noLeak_start : NoLeak (Held.start : Held V) := by
  intro q
  have hnone : pages 0 (roundToPage (0 * entrySize)) = [] := by decide
  change q ∈ ([] : List ℕ) ↔ q ∈ pages 0 (roundToPage (0 * entrySize))
  rw [hnone]

/-- A store into an empty slot takes one empty slot away at most. -/
theorem nFree_set_ge {entries : List (Entry V)} {i : ℕ} (hi : i < entries.length)
    (hz : keyAt entries i = 0) (e : Entry V) :
    nFree entries - 1 ≤ nFree (entries.set i e) := by
  by_cases he : e.key = 0
  · rw [keyAt, entryAt_eq_get hi] at hz
    simp [nFree, List.countP_set hi, hz, he]
  · exact (nFree_set_of_empty hi hz he).ge

/-- **Placing any entry** in a map whose count promises an empty slot. -/
theorem Sized.place {m : Hashmap V} (h : Sized m) (hle : m.freeEntries ≤ nFree m.entries)
    (hfree : 0 < m.freeEntries) (key : ℕ) (value : V) :
    ∃ i, findFree m.entries (m.totalEntries - 1) key = some i ∧
      Sized { m with entries := m.entries.set i ⟨key, value⟩
                     freeEntries := m.freeEntries - 1 } ∧
      m.freeEntries - 1 ≤ nFree (m.entries.set i ⟨key, value⟩) := by
  have hsum := nFree_add_nUsed m.entries
  have hlen := h.length_eq
  have hcap := h.cap.resolve_left (by omega)
  obtain ⟨d, hd, hfind, hzero, -⟩ := findFree_spec hcap hlen key (by omega)
  have hi : back m.totalEntries (home m.totalEntries key) d < m.entries.length := by
    rw [hlen]
    exact back_lt (hcap.home_lt _) hd
  have hge := nFree_set_ge hi hzero ⟨key, value⟩
  exact ⟨_, hfind, ⟨by simpa using hlen, h.cap, h.base_iff⟩, by omega⟩

/-- The test of an insertion for whether the map has to grow. -/
def NeedsGrowth (map : Hashmap V) : Prop := map.tooFull = true ∨ map.totalEntries = 0

/-- **What an insertion of any key can do**: nothing, its key being `NULL` or a growth having
failed; fill a slot; or grow first. -/
theorem insert_roomy (src : PageSource) {t : Held V} (h : t.Roomy) (c : ℕ × V) :
    (∃ ps', insert src t.map t.ps c.1 c.2 = .ok (false, t.map, ps') ∧
      ps'.owned = t.ps.owned ∧ (c.1 ≠ 0 → t.map.totalEntries ≤ maxSize →
        NeedsGrowth t.map ∧ src t.ps.requests t.ps.owned (newPages t.map) true = 0)) ∨
    (∃ map', insert src t.map t.ps c.1 c.2 = .ok (true, map', t.ps) ∧ ¬ NeedsGrowth t.map ∧
      (⟨map', t.ps⟩ : Held V).Roomy ∧ map'.base = t.map.base ∧
      map'.totalEntries = t.map.totalEntries ∧ map'.freeEntries = t.map.freeEntries - 1) ∨
    ∃ map' ps', insert src t.map t.ps c.1 c.2 = .ok (true, map', ps') ∧ c.1 ≠ 0 ∧
      NeedsGrowth t.map ∧ t.map.totalEntries ≤ maxSize ∧ (⟨map', ps'⟩ : Held V).Roomy ∧
      map'.totalEntries = newTotal t.map ∧
      map'.freeEntries = t.map.freeEntries + (newTotal t.map - t.map.totalEntries) - 1 ∧
      map'.base ≠ 0 ∧ map'.base = src t.ps.requests t.ps.owned (newPages t.map) true ∧
      ps'.owned = (t.ps.owned ++ pages map'.base (mapPages map')).filter
        (· ∉ freedPages t.map) := by
  have hfreeLe := h.free_le
  have hroomT := h.room
  by_cases hz : c.1 = 0
  · exact .inl ⟨t.ps, by rw [insert, if_pos hz], rfl, fun hne => absurd hz hne⟩
  by_cases hfull : (t.map.tooFull || t.map.totalEntries == 0) = true
  · have hneeds : NeedsGrowth t.map := by simpa [NeedsGrowth] using hfull
    have hgrowEq : growIfNeeded src t.map t.ps = grow src t.map t.ps := by
      rw [growIfNeeded, if_pos hfull]
    rcases grow_sized src h.toSized t.ps with ⟨ps', hg, howned, hserve⟩ |
      ⟨m, q, hg, hmax, hbase, hne, htotal, hm, hfree, hnFree, -, howned, -⟩
    · refine .inl ⟨ps', ?_, howned, fun _ hmax => ⟨hneeds, (hserve hmax).2⟩⟩
      rw [insert, if_neg hz, hgrowEq, hg]
    · obtain ⟨hcap, -, hroom⟩ := h.toSized.newTotal_cap hmax
      have hcapLe := hcap.le
      obtain ⟨i, hfind, hplaced, hplacedLe⟩ := hm.place (by omega) (by omega) (getPage c.1) c.2
      refine .inr (.inr ⟨_, q, ?_, hz, hneeds, hmax, ⟨hplaced, hplacedLe, ?_⟩, htotal, ?_, hne,
        hbase, howned⟩)
      · rw [insert, if_neg hz, hgrowEq, hg]
        simp only [hfind]
      · simp only
        omega
      · simp only [hfree]
  · have hneeds : ¬ NeedsGrowth t.map := by simpa [NeedsGrowth] using hfull
    have hgrowEq : growIfNeeded src t.map t.ps = .ok (true, t.map, t.ps) := by
      rw [growIfNeeded, if_neg hfull]
    simp only [tooFull, Bool.or_eq_true, decide_eq_true_eq, beq_iff_eq, not_or] at hfull
    obtain ⟨i, hfind, hplaced, hplacedLe⟩ :=
      h.toSized.place hfreeLe (by omega) (getPage c.1) c.2
    refine .inr (.inl ⟨_, ?_, hneeds, ⟨hplaced, hplacedLe, ?_⟩, rfl, rfl, rfl⟩)
    · rw [insert, if_neg hz, hgrowEq]
      simp only [hfind]
    · simp only
      omega

/-- A growth that fails, because the pages are refused, leaves the map as it was. -/
theorem grow_failed {src : PageSource} {map map' : Hashmap V} {ps ps' : Pages}
    (h : grow src map ps = .ok (false, map', ps')) : map' = map := by
  unfold grow at h
  split at h
  · simp only [Except.ok.injEq, Prod.mk.injEq, true_and] at h
    exact h.1.symm
  · generalize (if map.totalEntries = 0 then defaultSize else 2 * map.totalEntries) = n at h
    simp only at h
    split at h
    · simp only [Except.ok.injEq, Prod.mk.injEq, true_and] at h
      exact h.1.symm
    · split at h
      · cases h
      · simp at h

/-- An insertion that fails, because the array could not grow, leaves the map as it was. -/
theorem insert_failed {src : PageSource} {map map' : Hashmap V} {ps ps' : Pages} {ptr : ℕ}
    {value : V} (hins : insert src map ps ptr value = .ok (false, map', ps')) : map' = map := by
  unfold insert at hins
  split at hins
  · simp only [Except.ok.injEq, Prod.mk.injEq, true_and] at hins
    exact hins.1.symm
  · split at hins
    · cases hins
    · rename_i hgrow
      simp only [Except.ok.injEq, Prod.mk.injEq, true_and] at hins
      obtain ⟨rfl, -⟩ := hins
      unfold growIfNeeded at hgrow
      split at hgrow
      · exact grow_failed hgrow
      · simp at hgrow
    · simp only at hins
      split at hins
      · cases hins
      · simp at hins

/-- **An insertion without growth leaves the entries where they are.** -/
theorem insert_inPlace {src : PageSource} {map map' : Hashmap V} {ps ps' : Pages}
    {ptr : ℕ} {value : V} (hneeds : ¬ NeedsGrowth map)
    (hins : insert src map ps ptr value = .ok (true, map', ps')) :
    map'.base = map.base ∧ map'.totalEntries = map.totalEntries ∧
      ∀ i, keyAt map.entries i ≠ 0 → entryAt map'.entries i = entryAt map.entries i := by
  have hgrow : growIfNeeded src map ps = .ok (true, map, ps) := by
    rw [growIfNeeded, if_neg (by simpa [NeedsGrowth] using hneeds)]
  unfold insert at hins
  split at hins
  · simp at hins
  rw [hgrow] at hins
  simp only at hins
  split at hins
  · simp at hins
  rename_i j hfind
  have hzero : keyAt map.entries j = 0 := by simpa using searchFrom_stop hfind
  simp only [Except.ok.injEq, Prod.mk.injEq, true_and] at hins
  obtain ⟨rfl, -⟩ := hins
  refine ⟨rfl, rfl, fun i hi => ?_⟩
  rw [entryAt, entryAt, List.getD_eq_getElem?_getD, List.getD_eq_getElem?_getD,
    List.getElem?_set_ne (by rintro rfl; exact hi hzero)]

/-- A well-formed map has a capacity that its array has room for, whatever pages there are. -/
theorem Wf.roomy {map : Hashmap V} (h : Wf map) (ps : Pages) : (⟨map, ps⟩ : Held V).Roomy where
  toSized := h.sized
  free_le := h.free_eq.le
  room := h.room

/-- **An insertion with growth moves the table** to unused pages, and gives back pages of the old
one. -/
theorem insert_moves {src : PageSource} (hsrc : src.Sound) {map map' : Hashmap V} {ps ps' : Pages}
    (h : (⟨map, ps⟩ : Held V).Roomy) {ptr : ℕ} {value : V} (hneeds : NeedsGrowth map)
    (hins : insert src map ps ptr value = .ok (true, map', ps')) :
    map'.base ∉ ps.owned ∧ ps'.owned =
      (ps.owned ++ pages map'.base (mapPages map')).filter (· ∉ freedPages map) := by
  rcases insert_roomy src h (ptr, value) with ⟨ps₁, hins₁, -⟩ | ⟨map₁, -, hnot, -⟩ |
    ⟨map₁, ps₁, hins₁, -, -, hmax, -, htotal, -, hne, hbase, howned⟩
  · simp [hins₁] at hins
  · exact absurd hneeds hnot
  · simp only [hins₁, Except.ok.injEq, Prod.mk.injEq, true_and] at hins
    obtain ⟨rfl, rfl⟩ := hins
    refine ⟨?_, howned⟩
    rcases hsrc ps.requests ps.owned (newPages map) true with hnull | hfresh
    · exact absurd (hbase.trans hnull) hne
    · rw [hbase]
      have hcap : 256 ≤ newTotal map := (h.toSized.newTotal_cap hmax).1.le
      refine hfresh.unused _ (mem_pages.mpr ⟨0, ?_, by simp⟩)
      simp only [newPages, roundToPage, pageSize, entrySize]
      omega

/-! ### Whole runs of insertions -/

/-- An insertion has one outcome: two results of the same call from the same map are equal. -/
theorem Inserts.unique {src : PageSource} {t u u' : Held V} {c : ℕ × V} (h : Inserts src t c u)
    (h' : Inserts src t c u') : u = u' := by
  obtain ⟨b, hb⟩ := h
  obtain ⟨b', hb'⟩ := h'
  rw [hb] at hb'
  simp only [Except.ok.injEq, Prod.mk.injEq] at hb'
  cases u
  cases u'
  simp_all

/-- **Every insertion returns**, and leaves a roomy map. -/
theorem Held.Roomy.step (src : PageSource) {t : Held V} (h : t.Roomy) (c : ℕ × V) :
    ∃ u, Inserts src t c u ∧ u.Roomy := by
  rcases insert_roomy src h c with ⟨ps', hi, -⟩ | ⟨map', hi, -, hroomy, -⟩ |
    ⟨map', ps', hi, -, -, -, hroomy, -⟩
  · exact ⟨⟨t.map, ps'⟩, ⟨false, hi⟩, ⟨h.toSized, h.free_le, h.room⟩⟩
  · exact ⟨⟨map', t.ps⟩, ⟨true, hi⟩, hroomy⟩
  · exact ⟨⟨map', ps'⟩, ⟨true, hi⟩, hroomy⟩

omit [Inhabited V] in
/-- The pages of an array that are not given back by a growth: all but the first, of an array of
several. -/
theorem freedPages_all_iff {map : Hashmap V} (h : Sized map) :
    (∀ q ∈ pages map.base (mapPages map), q ∈ freedPages map) ↔
      ¬ defaultSize < map.totalEntries := by
  have hdefault : defaultSize = 256 := by decide
  rw [hdefault]
  constructor
  · intro hall hlarge
    have hpages : 2 ≤ mapPages map := by
      have hcap := h.cap.resolve_left (by omega)
      obtain ⟨k, hk8, -, hk⟩ := hcap
      have hk9 : 9 ≤ k := by
        by_contra hlt
        obtain rfl : k = 8 := by omega
        omega
      have : 2 ^ 9 ≤ 2 ^ k := Nat.pow_le_pow_right (by decide) hk9
      simp only [mapPages, roundToPage, pageSize, entrySize]
      omega
    have hlast := hall (map.base + (mapPages map - 1) * pageSize)
      (mem_pages.mpr ⟨mapPages map - 1, by omega, rfl⟩)
    rw [freedPages, if_pos (by omega)] at hlast
    obtain ⟨k, hk, heq⟩ := mem_pages.mp hlast
    simp only [roundToPage, pageSize] at hk heq
    omega
  · intro hsmall q hq
    obtain ⟨k, hk, rfl⟩ := mem_pages.mp hq
    by_cases h0 : map.totalEntries > 0
    · rw [freedPages, if_pos h0]
      refine mem_pages.mpr ⟨k, ?_, rfl⟩
      simp only [mapPages, roundToPage, pageSize, entrySize] at *
      omega
    · simp only [mapPages, roundToPage, pageSize, entrySize] at hk
      omega

/-- **An insertion leaks no page exactly when it does not grow an array of more than one page.** -/
theorem Held.Roomy.step_iff {src : PageSource} (hsrc : src.Sound) {t u : Held V} {c : ℕ × V}
    (h : t.Roomy) (hleak : NoLeak t) (hstep : Inserts src t c u) :
    NoLeak u ↔ ¬ GrowsLate src t c := by
  rcases insert_roomy src h c with ⟨ps', hi, howned, hfailed⟩ |
    ⟨map', hi, hneeds, -, hbase, htotal, -⟩ |
    ⟨map', ps', hi, hz, hneeds, hmax, -, htotal, -, hne, hbase, howned⟩
  · obtain rfl : u = ⟨t.map, ps'⟩ := hstep.unique ⟨false, hi⟩
    refine iff_of_true ?_ fun hlate => hlate.2.2.2.2 (hfailed hlate.1 hlate.2.2.2.1).2
    intro q
    simp only [howned]
    exact hleak q
  · obtain rfl : u = ⟨map', t.ps⟩ := hstep.unique ⟨true, hi⟩
    refine iff_of_true ?_ fun hlate => hneeds (.inl hlate.2.1)
    intro q
    simp only [hbase, htotal]
    exact hleak q
  · obtain rfl : u = ⟨map', ps'⟩ := hstep.unique ⟨true, hi⟩
    have hpages : mapPages map' = newPages t.map := by rw [mapPages, htotal, newPages]
    have hfresh : Fresh t.ps.owned map'.base (mapPages map') := by
      rcases hsrc t.ps.requests t.ps.owned (newPages t.map) true with hnull | hfresh
      · exact absurd (hbase.trans hnull) hne
      · rwa [← hbase, ← hpages] at hfresh
    have hlate : GrowsLate src t c ↔ defaultSize < t.map.totalEntries := by
      constructor
      · exact fun hlate => hlate.2.2.1
      · intro hlarge
        exact ⟨hz, hneeds.resolve_right (by omega), hlarge, hmax, hbase ▸ hne⟩
    rw [hlate, ← freedPages_all_iff h.toSized]
    have hmem : ∀ q, q ∈ ps'.owned ↔ (q ∈ t.ps.owned ∨ q ∈ pages map'.base (mapPages map')) ∧
        q ∉ freedPages t.map := by
      intro q
      rw [howned, List.mem_filter, List.mem_append, decide_eq_true_eq]
    constructor
    · intro hno q hq
      by_contra hkept
      have hold : q ∈ t.ps.owned := (hleak q).mpr hq
      exact hfresh.unused q ((hno q).mp ((hmem q).mpr ⟨.inl hold, hkept⟩)) hold
    · intro hall q
      rw [hmem]
      constructor
      · rintro ⟨hq | hq, hkept⟩
        · exact absurd (hall q ((hleak q).mp hq)) hkept
        · exact hq
      · intro hq
        refine ⟨.inr hq, ?_⟩
        intro hfreed
        exact hfresh.unused q hq ((hleak q).mpr (mem_of_mem_freedPages hfreed))

/-- **No page leaks in a run of insertions exactly when none of them grows an array of more than
one page.** For every run of insertions of any keys, with a page source that hands out unused
pages: after each of the calls the map holds exactly the pages of its array if and only if the run
is one in which no call grows an array of more than 256 entries. -/
theorem growth_leaks_iff {src : PageSource} (hsrc : src.Sound) {cs : List (ℕ × V)} {t : Held V}
    (h : Runs (Inserts src) Held.start cs t) :
    (∀ cs₁ cs₂ u, cs = cs₁ ++ cs₂ → Runs (Inserts src) Held.start cs₁ u → NoLeak u) ↔
      Runs (fun t c u => Inserts src t c u ∧ ¬ GrowsLate src t c) Held.start cs t := by
  have hroomy : ∀ {cs : List (ℕ × V)} {t : Held V}, Runs (Inserts src) Held.start cs t →
      t.Roomy := by
    intro cs t hrun
    refine hrun.invariant roomy_start ?_
    intro t c u ht hs
    obtain ⟨u', hu', hroomy⟩ := ht.step src c
    exact hs.unique hu' ▸ hroomy
  constructor
  · intro hall
    induction h with
    | nil => exact .nil
    | @snoc cs t u c hrun hlast ih =>
        have hbefore := hall cs [c] t rfl hrun
        have hafter := hall (cs ++ [c]) [] u (by simp) (hrun.snoc hlast)
        refine (ih ?_).snoc ⟨hlast, ((hroomy hrun).step_iff hsrc hbefore hlast).mp hafter⟩
        intro cs₁ cs₂ v hcs hv
        exact hall cs₁ (cs₂ ++ [c]) v (by rw [hcs, List.append_assoc]) hv
  · rintro hsmall cs₁ cs₂ u rfl hu
    obtain ⟨v, hv⟩ := hsmall.initial
    have huv : u = v :=
      Runs.unique (fun _ _ _ _ h h' => h.unique h') hu (hv.mono fun _ _ _ hs => hs.1)
    rw [huv]
    have hboth : v.Roomy ∧ NoLeak v := by
      refine hv.invariant (I := fun t => t.Roomy ∧ NoLeak t) ⟨roomy_start, noLeak_start⟩ ?_
      rintro t c u ⟨ht, hleak⟩ ⟨hs, hnot⟩
      obtain ⟨u', hu', hroomy'⟩ := ht.step src c
      exact ⟨hs.unique hu' ▸ hroomy', (ht.step_iff hsrc hleak hs).mpr hnot⟩
    exact hboth.2

/-- The pages from `0x1000` on, to be inserted with the value 0. -/
def firstPages (n : ℕ) : List (ℕ × ℕ) := (List.range n).map fun i => ((i + 1) * pageSize, 0)

/-- A page source that has a place for `n` pages at `n` times `0x10000000`. -/
def sizedSource : PageSource := PageSource.checked fun _ _ n _ => 0x10000000 * n

/-- The capacity of the map after `k` insertions, up to the 385th. -/
def capacityAfter (k : ℕ) : ℕ := if k = 0 then 0 else if k ≤ 193 then 256 else 512

/-- The map after the insertion of `k` pages: its array is at the place for its size, and all
insertions were counted. -/
structure Held.Filled (k : ℕ) (t : Held ℕ) : Prop extends t.Roomy where
  noLeak : NoLeak t
  total_eq : t.map.totalEntries = capacityAfter k
  count_eq : t.map.freeEntries + k = t.map.totalEntries
  base_eq : t.map.base = 0x10000000 * mapPages t.map

/-- The sizes of the array, and of the one that it would grow to. -/
theorem Held.Filled.sizes {k : ℕ} {t : Held ℕ} (h : t.Filled k) :
    (k = 0 ∧ t.map.totalEntries = 0 ∧ newTotal t.map = 256 ∧ mapPages t.map = 0 ∧
      newPages t.map = 1) ∨
    (1 ≤ k ∧ k ≤ 193 ∧ t.map.totalEntries = 256 ∧ newTotal t.map = 512 ∧ mapPages t.map = 1 ∧
      newPages t.map = 2) ∨
    (194 ≤ k ∧ t.map.totalEntries = 512 ∧ newTotal t.map = 1024 ∧ mapPages t.map = 2 ∧
      newPages t.map = 4) := by
  have htotal := h.total_eq
  simp only [newPages, newTotal, mapPages]
  by_cases h0 : k = 0
  · rw [capacityAfter, if_pos h0] at htotal
    exact .inl ⟨h0, htotal, by rw [htotal]; rfl, by rw [htotal]; rfl, by rw [htotal]; rfl⟩
  by_cases h193 : k ≤ 193
  · rw [capacityAfter, if_neg h0, if_pos h193] at htotal
    exact .inr (.inl ⟨by omega, h193, htotal, by simp [htotal], by rw [htotal]; rfl,
      by rw [htotal]; rfl⟩)
  · rw [capacityAfter, if_neg h0, if_neg h193] at htotal
    exact .inr (.inr ⟨by omega, htotal, by simp [htotal], by rw [htotal]; rfl,
      by rw [htotal]; rfl⟩)

/-- **The place for a larger array is unused** while the map holds the pages of its array only. -/
theorem Held.Filled.granted {k : ℕ} {t : Held ℕ} (h : t.Filled k) :
    sizedSource t.ps.requests t.ps.owned (newPages t.map) true =
      0x10000000 * newPages t.map := by
  have hsizes := h.sizes
  rw [sizedSource, PageSource.checked, if_pos]
  refine ⟨by omega, by simp only [pageSize]; omega, by simp only [pageSize]; omega, ?_⟩
  intro q hq hheld
  obtain ⟨i, hi, rfl⟩ := mem_pages.mp hq
  obtain ⟨j, hj, heq⟩ := mem_pages.mp ((h.noLeak _).mp hheld)
  rw [← mapPages] at hj
  rw [h.base_eq] at heq
  simp only [pageSize] at heq
  omega

/-- **One insertion more**: the map grows at the first and at the 194th. -/
theorem Held.Filled.step {k : ℕ} {t : Held ℕ} (h : t.Filled k) (hk : k < 385) (c : ℕ × ℕ)
    (hc : c.1 ≠ 0) : ∃ u, Inserts sizedSource t c u ∧ u.Filled (k + 1) := by
  have hsizes := h.sizes
  have hcount := h.count_eq
  have hgrant := h.granted
  have hcap : capacityAfter (k + 1) = if k + 1 ≤ 193 then 256 else 512 := by
    rw [capacityAfter, if_neg (Nat.succ_ne_zero k)]
  have hsmall : ¬ GrowsLate sizedSource t c := by
    rintro ⟨-, hfull, hlarge, -⟩
    have hdefault : defaultSize = 256 := by decide
    simp only [tooFull, decide_eq_true_eq] at hfull
    omega
  rcases insert_roomy sizedSource h.toRoomy c with ⟨ps', -, -, hfailed⟩ |
    ⟨map', hi, hneeds, hroomy, hbase, htotal, hfree⟩ |
    ⟨map', ps', hi, -, hneeds, hmax, hroomy, htotal, hfree, hne, hbase, -⟩
  · have hrefused := (hfailed hc (by simp only [maxSize, entrySize]; omega)).2
    omega
  · have hstep : Inserts sizedSource t c ⟨map', t.ps⟩ := ⟨true, hi⟩
    simp only [NeedsGrowth, tooFull, decide_eq_true_eq, not_or] at hneeds
    refine ⟨_, hstep, hroomy, ?_, ?_, ?_, ?_⟩
    · exact (h.toRoomy.step_iff (PageSource.checked_sound _) h.noLeak hstep).mpr hsmall
    · simp only [htotal, hcap]
      split_ifs <;> omega
    · simp only [hfree, htotal]
      omega
    · simp only [hbase, h.base_eq, mapPages, htotal]
  · have hstep : Inserts sizedSource t c ⟨map', ps'⟩ := ⟨true, hi⟩
    have hpages : mapPages map' = newPages t.map := by rw [mapPages, htotal, newPages]
    simp only [NeedsGrowth, tooFull, decide_eq_true_eq] at hneeds
    refine ⟨_, hstep, hroomy, ?_, ?_, ?_, ?_⟩
    · exact (h.toRoomy.step_iff (PageSource.checked_sound _) h.noLeak hstep).mpr hsmall
    · simp only [htotal, hcap]
      split_ifs <;> omega
    · simp only [hfree, htotal]
      omega
    · simp only [hbase, hgrant, hpages]

/-- **Up to the 385th insertion** everything is counted, and nothing leaks. -/
theorem exists_filled {k : ℕ} (hk : k ≤ 385) :
    ∃ t, Runs (Inserts sizedSource) Held.start (firstPages k) t ∧ t.Filled k := by
  induction k with
  | zero =>
      refine ⟨Held.start, .nil, roomy_start, noLeak_start, rfl, rfl, ?_⟩
      decide
  | succ k ih =>
      obtain ⟨t, hrun, hfilled⟩ := ih (by omega)
      obtain ⟨u, hstep, hu⟩ := hfilled.step (by omega) ((k + 1) * pageSize, 0)
        (by simp only [pageSize]; omega)
      have hsplit : firstPages (k + 1) = firstPages k ++ [((k + 1) * pageSize, 0)] := by
        simp [firstPages, List.range_succ]
      exact ⟨u, hsplit ▸ hrun.snoc hstep, hu⟩

/-- The guarantee at a run of one insertion: the map holds the one page of its array. -/
theorem growth_leaks_iff_one :
    ∃ t, sizedSource.Sound ∧ Runs (Inserts sizedSource) Held.start (firstPages 1) t ∧
      NoLeak t := by
  obtain ⟨t, hrun, -⟩ := exists_filled (k := 1) (by decide)
  have hsound : sizedSource.Sound := PageSource.checked_sound _
  refine ⟨t, hsound, hrun, ?_⟩
  refine (growth_leaks_iff hsound hrun).mpr ?_ (firstPages 1) [] t (by simp) hrun
  -- The first call finds an empty map, which is no array of several pages.
  have hone : firstPages 1 = [] ++ [(0x1000, 0)] := rfl
  rw [hone] at hrun ⊢
  obtain ⟨s, hs, hlast⟩ := Runs.snoc_iff.mp hrun
  obtain rfl : Held.start = s := Runs.unique (fun _ _ _ _ h h' => h.unique h') .nil hs
  refine .snoc .nil ⟨hlast, ?_⟩
  rintro ⟨-, -, hlarge, -⟩
  exact absurd hlarge (by decide)

/-- **The third growth leaks a page**: the 386th insertion grows the array of 512 entries, gives
one of its two pages back and keeps the other. -/
theorem third_growth_leaks :
    ∃ t, sizedSource.Sound ∧ Runs (Inserts sizedSource) Held.start (firstPages 386) t ∧
      ¬ NoLeak t := by
  obtain ⟨t, hrun, hfilled⟩ := exists_filled (k := 385) (by decide)
  have hsound : sizedSource.Sound := PageSource.checked_sound _
  obtain ⟨u, hstep, -⟩ := hfilled.toRoomy.step sizedSource (386 * pageSize, 0)
  have hsizes := hfilled.sizes
  have hcount := hfilled.count_eq
  have hgrant := hfilled.granted
  have hsplit : firstPages 386 = firstPages 385 ++ [(386 * pageSize, 0)] := by
    rw [firstPages, firstPages, List.range_succ, List.map_append, List.map_singleton]
  refine ⟨u, hsound, hsplit ▸ hrun.snoc hstep, ?_⟩
  rw [hfilled.toRoomy.step_iff hsound hfilled.noLeak hstep, not_not]
  refine ⟨by decide, ?_, ?_, ?_, ?_⟩
  · simp only [tooFull, decide_eq_true_eq]
    omega
  · have hdefault : defaultSize = 256 := by decide
    omega
  · simp only [maxSize, entrySize]
    omega
  · omega

end MugOS.Hashmap
