import MugOS.HashmapSpec
import MugOS.Lib.Run
import Mathlib.Data.List.AList

/-!
# Runs of the Allocation Hash Map

The hash map next to the finite map that its calls describe, over whole runs of
insertions, lookups and deletions of entries that a lookup returned.

`Hashmap_delete` stops as soon as it has moved one entry, although the slot that the entry
left may have to be filled in turn. As long as no deletion needs a second move the hash
map refines the finite map.

## Main results

* `hashmap_run_refines`: after every run in which each deletion needs one move at most, a
  lookup answers as the finite map does.
* `delete_loses_key`: three keys of one home, of which deleting the first loses the third.
-/

namespace MugOS.Hashmap

open Probe

variable {V : Type} [Inhabited V]

/-! ### The calls and the finite map -/

/-- A hash map, the pages in use, and the finite map that the calls so far describe. -/
structure Table (V : Type) where
  map : Hashmap V
  ps : Pages
  spec : AList fun _ : ℕ => V

/-- The calls; a deletion is that of the entry that a lookup of `ptr` returns. -/
inductive Call (V : Type)
  | insert (ptr : ℕ) (value : V)
  | find (ptr : ℕ)
  | delete (ptr : ℕ)

omit [Inhabited V] in
/-- The table at the start. -/
def Table.start : Table V := ⟨empty, Pages.none, ∅⟩

/-- One call of the map, with what it does to the abstract one recorded beside it. -/
def exec (src : PageSource) (t : Table V) : Call V → Except Fault (Table V)
  | .insert ptr value =>
      match insert src t.map t.ps ptr value with
      | .error f => .error f
      | .ok (_, map, ps) => .ok ⟨map, ps, t.spec.insert ptr value⟩
  | .find ptr =>
      match find t.map ptr with
      | .error f => .error f
      | .ok _ => .ok t
  | .delete ptr =>
      match find t.map ptr with
      | .error f => .error f
      | .ok entry =>
          match delete t.map entry with
          | .error f => .error f
          | .ok map => .ok { t with map := map, spec := t.spec.erase (getPage ptr) }

/-- The calls that may be made: an insertion is that of a page that is not in the map. -/
def Admissible (t : Table V) : Call V → Prop
  | .insert ptr _ => ptr % pageSize = 0 ∧ ptr ≠ 0 ∧ ptr < 2 ^ 64 ∧ t.spec.lookup ptr = none
  | .find _ => True
  | .delete _ => True

/-- A call that may be made and that returns, no request for pages being refused. -/
structure Step (src : PageSource) (t : Table V) (c : Call V) (u : Table V) : Prop where
  admissible : Admissible t c
  exec_eq : exec src t c = .ok u
  served : u.ps.refused = t.ps.refused

/-- A deletion after which no entry is left to move. -/
def NoSecondMove (t : Table V) : Call V → Prop
  | .delete ptr => ∀ i, find t.map ptr = .ok (some i) →
      OneMove t.map.totalEntries t.map.entries i
  | _ => True

/-- A lookup of a page answers as the finite map does. -/
structure Answers (t : Table V) (ptr : ℕ) : Prop where
  hit : ∀ v, t.spec.lookup (getPage ptr) = some v →
    ∃ i, find t.map ptr = .ok (some i) ∧ entryAt t.map.entries i = ⟨getPage ptr, v⟩
  miss : t.spec.lookup (getPage ptr) = none → find t.map ptr = .ok none

/-! ### The invariant -/

/-- The hash map represents the finite map: it is well-formed and probed, and holds the same
pairs. -/
structure Represents (t : Table V) : Prop where
  wf : Wf t.map
  probed : Probed t.map.totalEntries (home t.map.totalEntries) (slots t.map.entries)
  contains_iff : ∀ k v, k ≠ 0 → (Contains t.map.entries k v ↔ t.spec.lookup k = some v)
  lookup_zero : t.spec.lookup 0 = none

/-- The map without an array represents the finite map without keys. -/
theorem represents_start : Represents (Table.start : Table V) where
  wf := wf_empty
  probed := by
    refine ⟨?_, ?_⟩ <;> intro i hi <;> exact absurd hi (Nat.not_lt_zero i)
  contains_iff := by
    intro k v _
    constructor
    · rintro ⟨i, hi, -⟩
      exact absurd hi (Nat.not_lt_zero i)
    · intro h
      exact absurd h (by simp [Table.start])
  lookup_zero := by simp [Table.start]

/-- A table that represents its finite map answers as it does. -/
theorem Represents.answers {t : Table V} (h : Represents t) (ptr : ℕ) : Answers t ptr where
  hit := by
    intro v hl
    have hz : getPage ptr ≠ 0 := by
      intro hz
      rw [hz, h.lookup_zero] at hl
      exact absurd hl (by simp)
    obtain ⟨i, hi, he⟩ := (h.contains_iff _ _ hz).mpr hl
    rw [h.wf.length_eq] at hi
    exact ⟨i, find_hit h.wf h.probed hi (by rw [keyAt, he]) hz, he⟩
  miss := by
    intro hl
    by_cases hz : getPage ptr = 0
    · rcases find_sound h.wf ptr with hn | ⟨_, _, _, _, hne⟩
      · exact hn
      · exact absurd hz hne
    · apply find_miss h.wf
      intro v hc
      rw [h.contains_iff _ _ hz, hl] at hc
      exact absurd hc (by simp)

/-- The page of an address that is one of a page is this address. -/
theorem getPage_of_aligned {ptr : ℕ} (h : ptr % pageSize = 0) : getPage ptr = ptr := by
  simp only [getPage, pageSize] at *
  omega

/-- **An insertion** of a page that is not in the map never fails an assertion and always
returns; when its request for pages is served, the pair is added. -/
theorem Represents.insert {src : PageSource} (hsrc : src.Sound) {t : Table V}
    (h : Represents t) {ptr : ℕ} {value : V} (ha : Admissible t (.insert ptr value)) :
    ∃ u, exec src t (.insert ptr value) = .ok u ∧
      (u.ps.refused = t.ps.refused → Represents u) := by
  obtain ⟨halign, hne, hlt, hnone⟩ := ha
  have hpage := getPage_of_aligned halign
  have hnew : ∀ v, ¬ Contains t.map.entries (getPage ptr) v := by
    intro v hc
    rw [hpage, h.contains_iff _ _ hne, hnone] at hc
    exact absurd hc (by simp)
  rcases insert_cases hsrc h.wf t.ps (by rwa [hpage]) hlt hnew value with
    ⟨ps', heq, -, hrefused⟩ | ⟨map', ps', heq, hwf, -, hpr, hcont, -⟩
  · refine ⟨⟨t.map, ps', t.spec.insert ptr value⟩, by simp only [exec, heq], ?_⟩
    intro hserved
    simp only at hserved
    omega
  · refine ⟨⟨map', ps', t.spec.insert ptr value⟩, by simp only [exec, heq], ?_⟩
    intro _
    refine ⟨hwf, hpr h.probed, ?_, ?_⟩
    · intro k v hk
      rw [hcont k v hk, hpage, h.contains_iff k v hk]
      by_cases hkp : k = ptr
      · subst hkp
        simp [hnone, eq_comm]
      · simp [AList.lookup_insert_ne hkp, hkp]
    · rw [AList.lookup_insert_ne hne.symm]
      exact h.lookup_zero

/-- **A deletion** never fails an assertion and always returns; when no entry is left to
move, it removes the pair of its key and nothing else. -/
theorem Represents.delete {t : Table V} (h : Represents t) (src : PageSource) (ptr : ℕ) :
    ∃ u, exec src t (.delete ptr) = .ok u ∧
      (NoSecondMove t (.delete ptr) → Represents u) := by
  have hzero : (t.spec.erase (getPage ptr)).lookup 0 = none := by
    by_cases hz : getPage ptr = 0
    · rw [hz, AList.lookup_erase]
    · rw [AList.lookup_erase_ne (Ne.symm hz)]
      exact h.lookup_zero
  cases hl : t.spec.lookup (getPage ptr) with
  | none =>
      have hfind := (h.answers ptr).miss hl
      have hdel : Hashmap.delete t.map none = .ok t.map := by
        unfold Hashmap.delete
        rcases h.wf.cap with h0 | hcap
        · simp [h0]
        · rw [if_neg]
          rw [hcap.and_mask, Nat.mod_self]
          simp
      refine ⟨{ t with spec := t.spec.erase (getPage ptr) }, by simp only [exec, hfind, hdel], ?_⟩
      intro _
      refine ⟨h.wf, h.probed, ?_, hzero⟩
      intro k v hk
      rw [h.contains_iff k v hk]
      by_cases hkp : k = getPage ptr
      · subst hkp
        rw [hl, AList.lookup_erase]
      · rw [AList.lookup_erase_ne hkp]
  | some v =>
      obtain ⟨i, hfind, hentry⟩ := (h.answers ptr).hit v hl
      have hkey : keyAt t.map.entries i = getPage ptr := by rw [keyAt, hentry]
      have hi : i < t.map.totalEntries ∧ getPage ptr ≠ 0 := by
        rcases find_sound h.wf ptr with hn | ⟨j, hj, hfj, -, hne⟩
        · rw [hn] at hfind
          simp at hfind
        · rw [hfj] at hfind
          simp only [Except.ok.injEq, Option.some.injEq] at hfind
          exact ⟨hfind ▸ hj, hne⟩
      obtain ⟨map', hdel, hwf, -, htotal, hcont, hpr⟩ :=
        delete_cases h.wf hi.1 (by rw [hkey]; exact hi.2)
      refine ⟨{ t with map := map', spec := t.spec.erase (getPage ptr) },
        by simp only [exec, hfind, hdel], ?_⟩
      intro hone
      refine ⟨hwf, ?_, ?_, hzero⟩
      · simp only [htotal]
        exact hpr h.probed (hone i hfind)
      · intro k v' hk
        rw [hcont k v' hk, h.contains_iff k v' hk, hkey]
        by_cases hkp : k = getPage ptr
        · subst hkp
          simp [AList.lookup_erase]
        · simp [AList.lookup_erase_ne hkp, hkp]

/-- Every call that may be made returns: its search and its loops end. -/
theorem Represents.returns {src : PageSource} (hsrc : src.Sound) {t : Table V}
    (h : Represents t) {c : Call V} (ha : Admissible t c) : ∃ u, exec src t c = .ok u := by
  cases c with
  | insert ptr value =>
      obtain ⟨u, hu, -⟩ := h.insert hsrc ha
      exact ⟨u, hu⟩
  | find ptr =>
      rcases find_sound h.wf ptr with hn | ⟨i, -, hi, -⟩
      · exact ⟨t, by simp only [exec, hn]⟩
      · exact ⟨t, by simp only [exec, hi]⟩
  | delete ptr =>
      obtain ⟨u, hu, -⟩ := h.delete src ptr
      exact ⟨u, hu⟩

/-- **One step** keeps the representation, if it is not a deletion that leaves an entry to
move. -/
theorem Represents.step {src : PageSource} (hsrc : src.Sound) {t u : Table V} {c : Call V}
    (h : Represents t) (hs : Step src t c u) (hc : NoSecondMove t c) : Represents u := by
  cases c with
  | insert ptr value =>
      obtain ⟨u', hu', hrep⟩ := h.insert hsrc hs.admissible
      obtain rfl : u' = u := by simpa [hu'] using hs.exec_eq
      exact hrep hs.served
  | find ptr =>
      have heq := hs.exec_eq
      simp only [exec] at heq
      split at heq
      · simp at heq
      · simp only [Except.ok.injEq] at heq
        exact heq ▸ h
  | delete ptr =>
      obtain ⟨u', hu', hrep⟩ := h.delete src ptr
      obtain rfl : u' = u := by simpa [hu'] using hs.exec_eq
      exact hrep hc

/-! ### Whole runs -/

/-- **The hash map refines a finite map** over every run of insertions of new pages, lookups
and deletions of looked up entries in which no deletion leaves an entry to move: every
lookup answers as the finite map does, and every further call returns. -/
theorem hashmap_run_refines {src : PageSource} (hsrc : src.Sound) {cs : List (Call V)}
    {t : Table V}
    (h : Runs (fun t c u => Step src t c u ∧ NoSecondMove t c) Table.start cs t) :
    (∀ ptr, Answers t ptr) ∧ ∀ c, Admissible t c → ∃ u, exec src t c = .ok u := by
  have hrep : Represents t :=
    h.invariant represents_start fun _ _ _ hi hs => hi.step hsrc hs.1 hs.2
  exact ⟨hrep.answers, fun _ ha => hrep.returns hsrc ha⟩

/-- A page source that hands out the pages from `0x10000000` on, one mebibyte at a time. -/
def bumpSource : PageSource :=
  PageSource.checked fun t _ _ _ => 0x10000000 + t * 0x100000

/-- The table after some calls; a call that does not return is left out. -/
def Table.after (cs : List (Call ℕ)) : Table ℕ :=
  cs.foldl (fun t c => (exec bumpSource t c).toOption.getD t) Table.start

/-- The source that hands out pages one after the other is sound: they are new, aligned and not
zero. -/
theorem bumpSource_sound : bumpSource.Sound := PageSource.checked_sound _

omit [Inhabited V] in
/-- The calls that may be made are recognised by evaluation. -/
instance (t : Table V) : (c : Call V) → Decidable (Admissible t c)
  | .insert ptr _ => inferInstanceAs
      (Decidable (ptr % pageSize = 0 ∧ ptr ≠ 0 ∧ ptr < 2 ^ 64 ∧ t.spec.lookup ptr = none))
  | .find _ => inferInstanceAs (Decidable True)
  | .delete _ => inferInstanceAs (Decidable True)

/-- A call that may be made, returns and is refused no page is a step to the table after it. -/
theorem step_after (cs : List (Call ℕ)) (c : Call ℕ) (ha : Admissible (Table.after cs) c)
    (hok : (exec bumpSource (Table.after cs) c).isOk = true)
    (hserved : (Table.after (cs ++ [c])).ps.refused = (Table.after cs).ps.refused) :
    Step bumpSource (Table.after cs) c (Table.after (cs ++ [c])) := by
  have heq : Table.after (cs ++ [c]) =
      (exec bumpSource (Table.after cs) c).toOption.getD (Table.after cs) := by
    simp [Table.after, List.foldl_append]
  refine ⟨ha, ?_, hserved⟩
  rw [heq]
  cases he : exec bumpSource (Table.after cs) c with
  | error f => simp [he, Except.isOk, Except.toBool] at hok
  | ok u => rfl

/-- The guarantee at a concrete run: of two pages with the home `127` the first is deleted,
and the second, which moves into its slot, is still found. -/
theorem hashmap_run_refines_twoCollisions :
    (Table.after [.insert 0x1000 1, .insert 0x101000 2, .delete 0x1000]).spec.lookup 0x101000 =
      some 2 ∧
    Answers (Table.after [.insert 0x1000 1, .insert 0x101000 2, .delete 0x1000]) 0x101000 := by
  have hempty : keyAt (Table.after [.insert 0x1000 1, .insert 0x101000 2]).map.entries 125 = 0 := by
    decide +kernel
  have hone : NoSecondMove (Table.after [.insert 0x1000 1, .insert 0x101000 2])
      (.delete 0x1000) := by
    intro i hi
    have hfind : find (Table.after [.insert 0x1000 1, .insert 0x101000 2]).map 0x1000 =
        .ok (some 127) := by decide +kernel
    have htotal : (Table.after [.insert 0x1000 1, .insert 0x101000 2]).map.totalEntries = 256 := by
      decide +kernel
    obtain rfl : 127 = i := by simpa [hfind] using hi
    rw [htotal]
    intro c hc e he hec hrun
    -- The slot `125` is empty, so neither run below reaches past `126`.
    have hc126 : c = 126 := by
      by_contra hne
      have hd : 2 ≤ Probe.dist 256 127 c := by
        have := hc.lt
        have := hc.ne
        unfold Probe.dist
        split_ifs <;> omega
      exact hc.run 2 (by omega) hd (slots_eq_none.mpr hempty)
    subst hc126
    have hd : 1 ≤ Probe.dist 256 126 e := by
      unfold Probe.dist
      split_ifs <;> omega
    exact absurd (slots_eq_none.mpr hempty) (hrun 1 (by omega) hd)
  have hrun : Runs (fun t c u => Step bumpSource t c u ∧ NoSecondMove t c) Table.start
      ([] ++ [.insert 0x1000 1] ++ [.insert 0x101000 2] ++ [.delete 0x1000])
      (Table.after [.insert 0x1000 1, .insert 0x101000 2, .delete 0x1000]) :=
    .snoc (.snoc (.snoc .nil
      ⟨step_after [] _ (by decide +kernel) (by decide +kernel) (by decide +kernel), trivial⟩)
      ⟨step_after [.insert 0x1000 1] _ (by decide +kernel) (by decide +kernel)
        (by decide +kernel), trivial⟩)
      ⟨step_after [.insert 0x1000 1, .insert 0x101000 2] _ (by decide +kernel)
        (by decide +kernel) (by decide +kernel), hone⟩
  have hspec : (Table.after
      [.insert 0x1000 1, .insert 0x101000 2, .delete 0x1000]).spec.lookup 0x101000 = some 2 := by
    decide +kernel
  exact ⟨hspec, (hashmap_run_refines bumpSource_sound hrun).1 0x101000⟩

/-- **A deletion that loses a key**: three pages have the home `127`; when the first is
deleted, the second moves into its slot and the third stays behind an empty slot, where a
lookup does not find it. -/
theorem delete_loses_key :
    ∃ t, bumpSource.Sound ∧
      Runs (Step bumpSource) Table.start
        [.insert 0x1000 1, .insert 0x101000 2, .insert 0x201000 3, .delete 0x1000] t ∧
      t.spec.lookup 0x201000 = some 3 ∧ find t.map 0x201000 = .ok none ∧
      ¬ Answers t 0x201000 := by
  refine ⟨Table.after
    [.insert 0x1000 1, .insert 0x101000 2, .insert 0x201000 3, .delete 0x1000],
    bumpSource_sound, ?_, ?_⟩
  · exact .snoc (.snoc (.snoc (.snoc .nil
      (step_after [] _ (by decide +kernel) (by decide +kernel) (by decide +kernel)))
      (step_after [.insert 0x1000 1] _ (by decide +kernel) (by decide +kernel)
        (by decide +kernel)))
      (step_after [.insert 0x1000 1, .insert 0x101000 2] _ (by decide +kernel)
        (by decide +kernel) (by decide +kernel)))
      (step_after [.insert 0x1000 1, .insert 0x101000 2, .insert 0x201000 3] _
        (by decide +kernel) (by decide +kernel) (by decide +kernel))
  · have hpage : getPage 0x201000 = 0x201000 := by decide
    have hspec : (Table.after
        [.insert 0x1000 1, .insert 0x101000 2, .insert 0x201000 3, .delete 0x1000]).spec.lookup
          0x201000 = some 3 := by decide +kernel
    have hfind : find (Table.after
        [.insert 0x1000 1, .insert 0x101000 2, .insert 0x201000 3, .delete 0x1000]).map 0x201000 =
          .ok none := by decide +kernel
    refine ⟨hspec, hfind, ?_⟩
    intro hans
    obtain ⟨i, hi, -⟩ := hans.hit 3 (by rw [hpage]; exact hspec)
    rw [hfind] at hi
    simp at hi

end MugOS.Hashmap
