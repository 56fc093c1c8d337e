import MugOS.HashmapGrowth

/-!
# Free Slots of the Allocation Hash Map

The loops of the hash map walk down the array and stop at a `NULL` key only. What keeps them from
walking for ever is a counter, which insertions, growths and deletions update apart from the array.
It is exact after every call, whatever becomes of the requests for pages, so that a quarter of the
slots stays empty, up to the last insertion.

## Main results

* `hashmap_keeps_free_slot`: in every run of insertions, lookups and deletions of occupied entries
  the counter is exact, an array has an empty slot, and every call returns.
-/

namespace MugOS.Hashmap

open Probe

variable {V : Type} [Inhabited V]

/-! ### The calls -/

/-- The calls; the entry to delete is given by its index, `none` for `NULL`. -/
inductive SlotCall (V : Type)
  | insert (ptr : ℕ) (value : V)
  | find (ptr : ℕ)
  | delete (entry : Option ℕ)

/-- Entry `i` of the array is occupied: it is one of the table and has a key. -/
def Occupied (map : Hashmap V) (i : ℕ) : Prop :=
  i < map.totalEntries ∧ keyAt map.entries i ≠ 0

/-- The calls that may be made: no insertion in page 0, and no deletion of an entry without a
key. -/
def MayCall (t : Held V) : SlotCall V → Prop
  | .insert ptr _ => getPage ptr ≠ 0
  | .find _ => True
  | .delete entry => ∀ i, entry = some i → Occupied t.map i

/-- A call that the callers may make, and that returns with the state given. -/
def Returns (src : PageSource) (t : Held V) (c : SlotCall V) (u : Held V) : Prop :=
  MayCall t c ∧
    match c with
    | .insert ptr value => ∃ b, insert src t.map t.ps ptr value = .ok (b, u.map, u.ps)
    | .find ptr => (∃ entry, find t.map ptr = .ok entry) ∧ u = t
    | .delete entry => delete t.map entry = .ok u.map ∧ u.ps = t.ps

/-- What the counters of a map say: there is no array, or one whose capacity is a power of two; the
free entries are the `NULL` keys in it, of which there is at least one. -/
structure FreeSlot (map : Hashmap V) : Prop where
  length_eq : map.entries.length = map.totalEntries
  total : map.totalEntries = 0 ∨ 256 ≤ map.totalEntries ∧ ∃ k, map.totalEntries = 2 ^ k
  count : map.freeEntries = nFree map.entries
  free : map.totalEntries ≠ 0 → 1 ≤ map.freeEntries

/-! ### The invariant -/

/-- A roomy map whose count of empty slots is exact. -/
structure Held.Exact (t : Held V) : Prop extends t.Roomy where
  free_eq : t.map.freeEntries = nFree t.map.entries

omit [Inhabited V] in
/-- At the start the counted slots are exact: there is no array and no entry. -/
theorem exact_start : (Held.start : Held V).Exact := ⟨roomy_start, rfl⟩

omit [Inhabited V] in
/-- If the count of free slots is exact and limited, the map keeps a free slot. -/
theorem Held.Exact.freeSlot {t : Held V} (h : t.Exact) : FreeSlot t.map where
  length_eq := h.length_eq
  total := by
    refine h.cap.imp_right fun hcap => ⟨hcap.le, ?_⟩
    obtain ⟨k, -, -, hk⟩ := hcap
    exact ⟨k, hk⟩
  count := h.free_eq
  free := by
    intro hne
    have hcap := (h.cap.resolve_left hne).le
    have hroom := h.room
    omega

/-- If the count is exact, an array that is there has an empty slot. -/
theorem Held.Exact.exists_empty {t : Held V} (h : t.Exact) (hne : t.map.totalEntries ≠ 0) :
    ∃ z < t.map.totalEntries, keyAt t.map.entries z = 0 := by
  have hfree := h.freeSlot.free hne
  rw [h.free_eq] at hfree
  obtain ⟨z, hz, hzero⟩ := Hashmap.exists_empty hfree
  exact ⟨z, h.length_eq ▸ hz, hzero⟩

/-! ### The three calls -/

/-- A page placed in a counted map takes one of its empty slots. -/
theorem Sized.place_counted {m : Hashmap V} (h : Sized m) (hfree : 0 < m.freeEntries)
    (hcount : m.freeEntries = nFree m.entries) {key i : ℕ} (hkey : key ≠ 0) (value : V)
    (hfind : findFree m.entries (m.totalEntries - 1) key = some i) :
    m.freeEntries - 1 = nFree (m.entries.set i ⟨key, value⟩) := by
  have hsum := nFree_add_nUsed m.entries
  have hlen := h.length_eq
  have hcap := h.cap.resolve_left (by omega)
  obtain ⟨d, hd, hfound, hzero, -⟩ := findFree_spec hcap hlen key (by omega)
  obtain rfl := Option.some.inj (hfind.symm.trans hfound)
  have hi : back m.totalEntries (home m.totalEntries key) d < m.entries.length := by
    rw [hlen]
    exact back_lt (hcap.home_lt _) hd
  rw [nFree_set_of_empty hi hzero hkey, hcount]

/-- The growth check of an insertion keeps the count exact, and leaves an empty slot. -/
theorem Held.Exact.growIfNeeded {src : PageSource} {t : Held V} (h : t.Exact) {m : Hashmap V}
    {ps : Pages} (hgrow : growIfNeeded src t.map t.ps = .ok (true, m, ps)) :
    Sized m ∧ 0 < m.freeEntries ∧ m.freeEntries = nFree m.entries := by
  have hroom := h.room
  unfold Hashmap.growIfNeeded at hgrow
  split at hgrow
  · rcases grow_sized src h.toSized t.ps with ⟨ps', hg, -⟩ |
      ⟨map', ps', hg, hmax, -, -, -, hm, hfree, hnFree, -⟩
    · simp [hg] at hgrow
    · simp only [hg, Except.ok.injEq, Prod.mk.injEq, true_and] at hgrow
      obtain ⟨rfl, -⟩ := hgrow
      obtain ⟨hcap, -, hnew⟩ := h.toSized.newTotal_cap hmax
      have hcapLe := hcap.le
      have hcount := h.free_eq
      exact ⟨hm, by omega, by omega⟩
  · rename_i hfull
    simp only [tooFull, Bool.or_eq_true, decide_eq_true_eq, beq_iff_eq, not_or] at hfull
    simp only [Except.ok.injEq, Prod.mk.injEq, true_and] at hgrow
    obtain ⟨rfl, -⟩ := hgrow
    exact ⟨h.toSized, by omega, h.free_eq⟩

/-- **An insertion returns**, and keeps the count exact. -/
theorem Held.Exact.insert (src : PageSource) {t : Held V} (h : t.Exact) {ptr : ℕ}
    (hptr : getPage ptr ≠ 0) (value : V) :
    (∃ b map ps, insert src t.map t.ps ptr value = .ok (b, map, ps)) ∧
      ∀ b map ps, Hashmap.insert src t.map t.ps ptr value = .ok (b, map, ps) →
        (⟨map, ps⟩ : Held V).Exact := by
  obtain ⟨u, ⟨b₀, hins₀⟩, hroomy⟩ := h.toRoomy.step src (ptr, value)
  refine ⟨⟨b₀, u.map, u.ps, hins₀⟩, fun b map ps hins => ?_⟩
  have hsame := hins₀.symm.trans hins
  simp only [Except.ok.injEq, Prod.mk.injEq] at hsame
  obtain ⟨-, rfl, rfl⟩ := hsame
  refine ⟨hroomy, ?_⟩
  cases b with
  | false =>
      simp only [insert_failed hins]
      exact h.free_eq
  | true =>
      unfold Hashmap.insert at hins
      split at hins
      · simp at hins
      · split at hins
        · cases hins
        · simp at hins
        · rename_i hgrow
          obtain ⟨hm, hfree, hcount⟩ := h.growIfNeeded hgrow
          simp only at hins
          split at hins
          · cases hins
          · rename_i hfind
            simp only [Except.ok.injEq, Prod.mk.injEq, true_and] at hins
            simp only [← hins.1]
            exact hm.place_counted hfree hcount hptr value hfind

/-- **A lookup returns**, and the entry that it returns has the key. -/
theorem Held.Exact.find {t : Held V} (h : t.Exact) (ptr : ℕ) :
    ∃ entry, find t.map ptr = .ok entry ∧ ∀ i, entry = some i → Occupied t.map i := by
  by_cases hbase : t.map.base = 0
  · exact ⟨none, by rw [Hashmap.find, if_pos hbase], by simp⟩
  have hne : t.map.totalEntries ≠ 0 := fun h0 => hbase (h.base_iff.mpr h0)
  have hcap := h.cap.resolve_left hne
  obtain ⟨z, hz, hzero⟩ := h.exists_empty hne
  obtain ⟨d, hd, hstop, hbefore⟩ := exists_first (hcap.home_lt (getPage ptr))
    (p := fun i => keyAt t.map.entries i == 0 || keyAt t.map.entries i == getPage ptr) hz
    (by simp [hzero])
  have hsearch : searchFrom (nextIndex (t.map.totalEntries - 1))
      (fun i => keyAt t.map.entries i == 0 || keyAt t.map.entries i == getPage ptr)
      t.map.totalEntries (home t.map.totalEntries (getPage ptr)) =
        some (back t.map.totalEntries (home t.map.totalEntries (getPage ptr)) d) :=
    searchFrom_spec (fun i hi => hcap.nextIndex_eq hi) (hcap.home_lt _) hd hd hstop hbefore
  rw [home] at hsearch
  rw [Hashmap.find, if_neg hbase]
  simp only [h.length_eq, hsearch]
  split
  · exact ⟨none, rfl, by simp⟩
  · rename_i hkey
    refine ⟨_, rfl, ?_⟩
    rintro i ⟨⟩
    exact ⟨back_lt (hcap.home_lt _) hd, hkey⟩

/-- **A deletion returns**, and adds one empty slot: an entry that moves leaves one where it was. -/
theorem Held.Exact.delete {t : Held V} (h : t.Exact) {entry : Option ℕ}
    (hentry : ∀ i, entry = some i → Occupied t.map i) :
    ∃ map, delete t.map entry = .ok map ∧ (⟨map, t.ps⟩ : Held V).Exact := by
  have hpow : t.map.totalEntries &&& (t.map.totalEntries - 1) = 0 := by
    rcases h.cap with h0 | hcap
    · rw [h0]
      rfl
    · rw [hcap.and_mask, Nat.mod_self]
  rcases entry with _ | p
  · exact ⟨t.map, by rw [Hashmap.delete, if_neg (by omega)], h⟩
  obtain ⟨hp, hkey⟩ := hentry p rfl
  have hlen := h.length_eq
  have hroom := h.room
  have hcap := h.cap.resolve_left (by omega)
  have hpl : p < t.map.entries.length := by omega
  set E := t.map.entries.set p (emptyEntry : Entry V) with hE
  have hElen : E.length = t.map.totalEntries := by rw [hE, List.length_set, hlen]
  have hzeroE : keyAt E p = 0 := by
    rw [hE, keyAt_set _ _ _ _ hpl, if_pos rfl]
    rfl
  have hfreeE : nFree E = nFree t.map.entries + 1 := nFree_set_of_used hpl hkey rfl
  -- The loop stops at an empty slot at the latest, and there is one besides the new one.
  obtain ⟨z, hz, hzero⟩ := h.exists_empty (by omega)
  have hzp : z ≠ p := by
    rintro rfl
    exact hkey hzero
  have hzeroZ : keyAt E z = 0 := by
    rw [hE, keyAt_set _ _ _ _ hpl, if_neg hzp.symm, hzero]
  have hdist : 0 < Probe.dist t.map.totalEntries p z := by
    unfold Probe.dist
    split_ifs <;> omega
  obtain ⟨d, hd0, hd, -, hloop⟩ := deleteLoop_spec hcap hElen hp (dist_lt hp hz)
    (by rwa [back_dist hp hz]) hdist t.map.entries.length 0 (by omega)
    (fun d h0 h1 => absurd h0 (by omega))
  rw [back_zero] at hloop
  have hend : ∃ r, deleteLoop (t.map.totalEntries - 1) t.map.entries.length E p p = some r ∧
      r.length = t.map.totalEntries ∧ nFree r = nFree t.map.entries + 1 := by
    rcases hloop with ⟨-, hr⟩ | ⟨-, hr⟩
    · exact ⟨E, hr, hElen, hfreeE⟩
    · have hback : back t.map.totalEntries p d < E.length := by
        rw [hElen]
        exact back_lt hp hd
      have hapart : p ≠ back t.map.totalEntries p d := by
        unfold back
        split_ifs <;> omega
      refine ⟨_, hr, by rw [moveEntry, List.length_set, List.length_set, hElen], ?_⟩
      rw [nFree_moveEntry (by omega) hback hapart hzeroE, hfreeE]
  obtain ⟨r, hr, hrlen, hrfree⟩ := hend
  refine ⟨{ t.map with entries := r, freeEntries := t.map.freeEntries + 1 }, ?_, ?_⟩
  · rw [Hashmap.delete, if_neg (by omega)]
    simp only
    rw [if_neg (by omega), if_neg (by omega), hr]
  · have hcount := h.free_eq
    refine ⟨⟨⟨hrlen, h.cap, h.base_iff⟩, ?_, ?_⟩, ?_⟩
    · simp only [hrfree]
      omega
    · simp only
      omega
    · simp only [hrfree]
      omega

/-! ### Whole runs -/

/-- **Every call that may be made returns**, with an exact count. -/
theorem Held.Exact.returns (src : PageSource) {t : Held V} (h : t.Exact) {c : SlotCall V}
    (hc : MayCall t c) : ∃ u, Returns src t c u := by
  cases c with
  | insert ptr value =>
      obtain ⟨⟨b, map, ps, hins⟩, -⟩ := h.insert src hc value
      exact ⟨⟨map, ps⟩, hc, b, hins⟩
  | find ptr =>
      obtain ⟨entry, hfind, -⟩ := h.find ptr
      exact ⟨t, hc, ⟨entry, hfind⟩, rfl⟩
  | delete entry =>
      obtain ⟨map, hdel, -⟩ := h.delete hc
      exact ⟨⟨map, t.ps⟩, hc, hdel, rfl⟩

/-- The count of free slots stays exact under every call, whether pages are refused or not. -/
theorem Held.Exact.step {src : PageSource} {t u : Held V} {c : SlotCall V} (h : t.Exact)
    (hstep : Returns src t c u) : u.Exact := by
  obtain ⟨hc, hstep⟩ := hstep
  cases c with
  | insert ptr value =>
      obtain ⟨b, hins⟩ := hstep
      exact (h.insert src hc value).2 b u.map u.ps hins
  | find ptr => exact hstep.2 ▸ h
  | delete entry =>
      obtain ⟨map, hdel, hexact⟩ := h.delete hc
      obtain ⟨hdel', hps⟩ := hstep
      obtain rfl := Except.ok.inj (hdel.symm.trans hdel')
      rw [← hps] at hexact
      exact hexact

/-- **The hash map always keeps a free slot, so every probe ends.** After every run of insertions
of pages other than page 0, lookups, and deletions of entries that a lookup returned, from an empty
map and whichever growths fail: the capacity is 0 or a power of two from 256 on, the count of free
entries is that of the `NULL` keys, and an array has one. Every call returns in the state reached,
and so does a growth: none of the loops walks for ever. -/
theorem hashmap_keeps_free_slot (src : PageSource) {cs : List (SlotCall V)} {t : Held V}
    (h : Runs (Returns src) Held.start cs t) :
    FreeSlot t.map ∧ (∀ c, MayCall t c → ∃ u, Returns src t c u) ∧
      (∃ r, grow src t.map t.ps = .ok r) ∧
      ∀ ptr entry, find t.map ptr = .ok entry → MayCall t (.delete entry) := by
  have hexact : t.Exact := h.invariant exact_start fun _ _ _ ht hs => ht.step hs
  refine ⟨hexact.freeSlot, fun c hc => hexact.returns src hc, ?_, ?_⟩
  · rcases grow_sized src hexact.toSized t.ps with ⟨ps', hg, -⟩ | ⟨map', ps', hg, -⟩
    · exact ⟨_, hg⟩
    · exact ⟨_, hg⟩
  · intro ptr entry hfind
    obtain ⟨entry', hfind', hoccupied⟩ := hexact.find ptr
    obtain rfl := Except.ok.inj (hfind'.symm.trans hfind)
    exact hoccupied

/-- A page is inserted, found and deleted, and the map keeps a free slot. -/
theorem hashmap_keeps_free_slot_three :
    ∃ (t : Held ℕ) (i : ℕ), Runs (Returns megabyteSource) Held.start
      [.insert 0x1000 7, .find 0x1000, .delete (some i)] t ∧ FreeSlot t.map := by
  have hstart := exact_start (V := ℕ)
  obtain ⟨t, hinsert⟩ := hstart.returns megabyteSource (c := .insert 0x1000 7)
    (show getPage 0x1000 ≠ 0 by decide)
  obtain ⟨b, hins⟩ := hinsert.2
  have ht := hstart.step hinsert
  obtain ⟨entry, hfind, hoccupied⟩ := ht.find 0x1000
  have hinsertEq : insert megabyteSource (Held.start : Held ℕ).map Held.start.ps 0x1000 7 =
      .ok (b, t.map, t.ps) := hins
  have hfound : ((insert megabyteSource (Held.start : Held ℕ).map (Held.start : Held ℕ).ps 0x1000
      7).toOption.bind fun r => (find r.2.1 0x1000).toOption) = some (some 127) := by
    decide +kernel
  rw [hinsertEq] at hfound
  obtain rfl : entry = some 127 := by simpa [Except.toOption, hfind] using hfound
  obtain ⟨u, hdelete⟩ := ht.returns megabyteSource (c := .delete (some 127)) hoccupied
  have hrun : Runs (Returns megabyteSource) Held.start
      [.insert 0x1000 7, .find 0x1000, .delete (some 127)] u := by
    have hfindStep : Returns megabyteSource t (.find 0x1000) t := ⟨trivial, ⟨_, hfind⟩, rfl⟩
    exact ((Runs.nil.snoc hinsert).snoc hfindStep).snoc hdelete
  exact ⟨u, 127, hrun, (hashmap_keeps_free_slot megabyteSource hrun).1⟩

end MugOS.Hashmap
