import MugOS.Hashmap

/-!
# What the Hash Map Operations Do

The hash map seen as a probed table (`MugOS.Lib.Probe`): slot `i` holds the key of entry
`i`, and the home of a key is its hash modulo the capacity. Each operation of the source
gets one lemma.

## Main results

* `findFree_spec`: the insertion loops end at the first empty slot below the home.
* `rehash_spec`: copying into an empty array re-establishes the probing invariant for
  entries placed anywhere.
* `grow_cases`, `insert_cases`: what growing and inserting can do.
* `find_hit`, `find_miss`: lookups in a probed table.
* `delete_cases`: a deletion empties the slot, or moves one entry of the run below into it.
-/

namespace MugOS.Hashmap

open Probe

variable {V : Type} [Inhabited V]

/-! ### Entries, slots and homes -/

/-- The key of slot `i`, if the slot is occupied. -/
def slots (entries : List (Entry V)) (i : ℕ) : Option ℕ :=
  if keyAt entries i = 0 then none else some (keyAt entries i)

/-- The slot at which the probing for a key starts. -/
def home (n key : ℕ) : ℕ := hash key &&& (n - 1)

/-- A capacity: a power of two, at least that of the first array. -/
def Cap (n : ℕ) : Prop := ∃ k, 8 ≤ k ∧ k ≤ 62 ∧ n = 2 ^ k

/-- Every capacity of an array is at least `256`, the number of entries of one page. -/
theorem Cap.le {n : ℕ} (h : Cap n) : 256 ≤ n := by
  obtain ⟨k, hk, -, rfl⟩ := h
  calc 256 = 2 ^ 8 := by norm_num
    _ ≤ 2 ^ k := Nat.pow_le_pow_right (by decide) hk

/-- Every capacity of an array is at most `2 ^ 62`, so that no index overflows. -/
theorem Cap.ge {n : ℕ} (h : Cap n) : n ≤ 2 ^ 62 := by
  obtain ⟨k, -, hk, rfl⟩ := h
  exact Nat.pow_le_pow_right (by decide) hk

/-- Masking with a capacity minus one is reduction modulo the capacity. -/
theorem Cap.and_mask {n : ℕ} (h : Cap n) (x : ℕ) : x &&& (n - 1) = x % n := by
  obtain ⟨k, -, -, rfl⟩ := h
  exact Nat.and_two_pow_sub_one_eq_mod x k

/-- The home of a key is a slot of the array. -/
theorem Cap.home_lt {n : ℕ} (h : Cap n) (key : ℕ) : home n key < n := by
  rw [home, h.and_mask]
  exact Nat.mod_lt _ (by have := h.le; omega)

/-- Stepping the index down, as the loops of the source do. -/
theorem Cap.nextIndex_eq {n : ℕ} (h : Cap n) {i : ℕ} (hi : i < n) :
    nextIndex (n - 1) i = prev n i := by
  have hge := h.ge
  rw [nextIndex, h.and_mask, prev]
  by_cases hi0 : i = 0
  · obtain ⟨k, -, hk, rfl⟩ := h
    have hdvd : 2 ^ k ∣ 2 ^ 64 := Nat.pow_dvd_pow 2 (by omega)
    obtain ⟨m, hm⟩ := hdvd
    have hpos : 0 < 2 ^ k := Nat.two_pow_pos k
    have hmpos : 0 < m := by
      rcases Nat.eq_zero_or_pos m with rfl | hm'
      · simp at hm
      · exact hm'
    have hw : wsub i 1 = 2 ^ k - 1 + 2 ^ k * (m - 1) := by
      have hmul : 2 ^ k * m = 2 ^ k + 2 ^ k * (m - 1) := by
        obtain ⟨m, rfl⟩ : ∃ j, m = j + 1 := ⟨m - 1, by omega⟩
        simp only [Nat.add_sub_cancel]
        ring
      unfold wsub
      omega
    rw [if_pos hi0, hw, Nat.add_mul_mod_self_left, Nat.mod_eq_of_lt (by omega)]
  · rw [if_neg hi0, wsub_of_le (by omega) (by omega), Nat.mod_eq_of_lt (by omega)]

/-- A store changes the entry at its own index and no other. -/
theorem entryAt_set (entries : List (Entry V)) (i j : ℕ) (e : Entry V)
    (hi : i < entries.length) :
    entryAt (entries.set i e) j = if i = j then e else entryAt entries j := by
  unfold entryAt
  by_cases hij : i = j
  · subst hij
    simp [List.getD_eq_getElem?_getD, hi]
  · simp [List.getD_eq_getElem?_getD, List.getElem?_set_ne hij, hij]

/-- After a store the key at its index is that of the new entry, and the other keys are as
before. -/
theorem keyAt_set (entries : List (Entry V)) (i j : ℕ) (e : Entry V)
    (hi : i < entries.length) :
    keyAt (entries.set i e) j = if i = j then e.key else keyAt entries j := by
  unfold keyAt
  rw [entryAt_set entries i j e hi]
  split <;> rfl

/-- After a store one slot holds the key of the new entry, or is empty if this is `NULL`. -/
theorem slots_set (entries : List (Entry V)) (i : ℕ) (e : Entry V)
    (hi : i < entries.length) :
    slots (entries.set i e) =
      Function.update (slots entries) i (if e.key = 0 then none else some e.key) := by
  funext j
  unfold slots
  rw [keyAt_set entries i j e hi]
  by_cases hij : j = i
  · subst hij
    simp
  · rw [Function.update_of_ne hij, if_neg (Ne.symm hij)]

/-- A slot holds a key exactly when the entry has this key and the key is not `NULL`. -/
theorem slots_eq_some {entries : List (Entry V)} {i k : ℕ} :
    slots entries i = some k ↔ keyAt entries i = k ∧ k ≠ 0 := by
  unfold slots
  split
  · simp_all
  · simp only [Option.some.injEq]
    constructor
    · rintro rfl
      exact ⟨rfl, by assumption⟩
    · exact fun h => h.1

/-- A slot is empty exactly when the key of its entry is `NULL`. -/
theorem slots_eq_none {entries : List (Entry V)} {i : ℕ} :
    slots entries i = none ↔ keyAt entries i = 0 := by
  unfold slots
  split <;> simp_all

/-- The array holds the pair `(k, v)` in one of its slots. -/
def Contains (entries : List (Entry V)) (k : ℕ) (v : V) : Prop :=
  ∃ i < entries.length, entryAt entries i = ⟨k, v⟩

/-- The number of empty slots of an array of entries. -/
def nFree (entries : List (Entry V)) : ℕ := entries.countP fun e => e.key == 0

/-- The number of occupied slots of an array of entries. -/
def nUsed (entries : List (Entry V)) : ℕ := entries.countP fun e => e.key != 0

/-- No key occurs in two slots of an array, the zero of empty slots apart. -/
def DistinctKeys (entries : List (Entry V)) : Prop :=
  ∀ i < entries.length, ∀ j < entries.length,
    keyAt entries i = keyAt entries j → keyAt entries i ≠ 0 → i = j

/-- The entry at an index inside of the array is the element of the list. -/
theorem entryAt_eq_get {entries : List (Entry V)} {i : ℕ} (hi : i < entries.length) :
    entryAt entries i = entries[i] := by
  simp [entryAt, List.getD_eq_getElem?_getD, hi]

/-- The entries contain a pair of key and value exactly when the list of entries does. -/
theorem contains_iff_mem {entries : List (Entry V)} {k : ℕ} {v : V} :
    Contains entries k v ↔ (⟨k, v⟩ : Entry V) ∈ entries := by
  rw [List.mem_iff_getElem]
  constructor
  · rintro ⟨i, hi, he⟩
    exact ⟨i, hi, by rw [← he, entryAt_eq_get hi]⟩
  · rintro ⟨i, hi, he⟩
    exact ⟨i, hi, by rw [entryAt_eq_get hi, he]⟩

omit [Inhabited V] in
/-- The numbers of empty and of occupied slots add up to the capacity. -/
theorem nFree_add_nUsed (entries : List (Entry V)) :
    nFree entries + nUsed entries = entries.length := by
  induction entries with
  | nil => rfl
  | cons e rest ih =>
      simp only [nFree, nUsed, List.countP_cons, List.length_cons] at *
      by_cases h : e.key = 0 <;> simp [h] <;> omega

/-- If the number of empty slots is not zero, some slot of the array is empty. -/
theorem exists_empty {entries : List (Entry V)} (h : 0 < nFree entries) :
    ∃ i < entries.length, keyAt entries i = 0 := by
  obtain ⟨e, he, hz⟩ := List.countP_pos_iff.mp h
  obtain ⟨i, hi, rfl⟩ := List.mem_iff_getElem.mp he
  exact ⟨i, hi, by rw [keyAt, entryAt_eq_get hi]; simpa using hz⟩

/-- Filling an empty slot lowers the number of empty slots by one. -/
theorem nFree_set_of_empty {entries : List (Entry V)} {i : ℕ} {e : Entry V}
    (hi : i < entries.length) (hz : keyAt entries i = 0) (he : e.key ≠ 0) :
    nFree (entries.set i e) = nFree entries - 1 := by
  rw [keyAt, entryAt_eq_get hi] at hz
  simp [nFree, List.countP_set hi, hz, he]

/-- Emptying an occupied slot raises the number of empty slots by one. -/
theorem nFree_set_of_used {entries : List (Entry V)} {i : ℕ} {e : Entry V}
    (hi : i < entries.length) (hz : keyAt entries i ≠ 0) (he : e.key = 0) :
    nFree (entries.set i e) = nFree entries + 1 := by
  rw [keyAt, entryAt_eq_get hi] at hz
  simp [nFree, List.countP_set hi, hz, he]

/-! ### Placing an entry -/

/-- **The insertion loops** end at the first empty slot below the home of the key. -/
theorem findFree_spec {entries : List (Entry V)} {n : ℕ} (hcap : Cap n)
    (hlen : entries.length = n) (key : ℕ) (hz : 0 < nFree entries) :
    ∃ d < n, findFree entries (n - 1) key = some (back n (home n key) d) ∧
      keyAt entries (back n (home n key) d) = 0 ∧
      ∀ d' < d, keyAt entries (back n (home n key) d') ≠ 0 := by
  obtain ⟨i, hi, hik⟩ := exists_empty hz
  rw [hlen] at hi
  obtain ⟨d, hd, hstop, hbefore⟩ := exists_first (hcap.home_lt key)
    (p := fun i => keyAt entries i == 0) hi (by simpa using hik)
  refine ⟨d, hd, ?_, by simpa using hstop, ?_⟩
  · rw [findFree, hlen]
    exact searchFrom_spec (fun i hi => hcap.nextIndex_eq hi) (hcap.home_lt key) hd hd
      hstop hbefore
  · intro d' hd'
    simpa using hbefore d' hd'

/-- What filling the slot that `findFree` returns does to the contents. -/
theorem contains_set {entries : List (Entry V)} {i k : ℕ} {e : Entry V} {v : V}
    (hi : i < entries.length) (hz : keyAt entries i = 0) (hk : k ≠ 0) :
    Contains (entries.set i e) k v ↔ (⟨k, v⟩ : Entry V) = e ∨ Contains entries k v := by
  unfold Contains
  simp only [List.length_set]
  constructor
  · rintro ⟨j, hj, he⟩
    rw [entryAt_set entries i j e hi] at he
    split at he
    · exact .inl he.symm
    · exact .inr ⟨j, hj, he⟩
  · rintro (rfl | ⟨j, hj, he⟩)
    · exact ⟨i, hi, by rw [entryAt_set entries i i _ hi, if_pos rfl]⟩
    · refine ⟨j, hj, ?_⟩
      rw [entryAt_set entries i j e hi, if_neg, he]
      rintro rfl
      rw [keyAt, he] at hz
      exact hk hz

/-- Placing a new key in the first empty slot of its probe keeps the table probed. -/
theorem probed_place {entries : List (Entry V)} {n : ℕ} (hcap : Cap n)
    (hlen : entries.length = n) (hpr : Probed n (home n) (slots entries)) {e : Entry V}
    (he : e.key ≠ 0) (hnew : ∀ i < n, keyAt entries i ≠ e.key) {d : ℕ} (hd : d < n)
    (hfull : ∀ d' < d, keyAt entries (back n (home n e.key) d') ≠ 0) :
    Probed n (home n) (slots (entries.set (back n (home n e.key) d) e)) := by
  have hj : back n (home n e.key) d < entries.length := by
    rw [hlen]
    exact back_lt (hcap.home_lt _) hd
  rw [slots_set _ _ _ hj, if_neg he]
  apply hpr.insert (fun k => hcap.home_lt k) hd
  · intro d' hd'
    rw [ne_eq, slots_eq_none]
    exact hfull d' hd'
  · intro i hi h
    exact hnew i hi (slots_eq_some.mp h).1

/-- **Rehashing.** Copying entries with distinct new keys into a probed array that has room
for them gives a probed array that holds both. -/
theorem rehash_spec {n : ℕ} (hcap : Cap n) (old : List (Entry V)) (new : List (Entry V))
    (hlen : new.length = n) (hpr : Probed n (home n) (slots new))
    (hroom : nUsed old < nFree new)
    (hdist : (old.filter fun e => e.key != 0).Pairwise fun a b => a.key ≠ b.key)
    (hnew : ∀ e ∈ old, e.key ≠ 0 → ∀ i < n, keyAt new i ≠ e.key) :
    ∃ r, rehash (n - 1) old new = some r ∧ r.length = n ∧ Probed n (home n) (slots r) ∧
      nFree r = nFree new - nUsed old ∧
      ∀ k v, k ≠ 0 → (Contains r k v ↔ Contains new k v ∨ (⟨k, v⟩ : Entry V) ∈ old) := by
  induction old generalizing new with
  | nil => exact ⟨new, rfl, hlen, hpr, by simp [nUsed], by simp⟩
  | cons e rest ih =>
      by_cases hz : e.key = 0
      · have hused : nUsed (e :: rest) = nUsed rest := by simp [nUsed, hz]
        rw [hused] at hroom ⊢
        rw [List.filter_cons_of_neg (by simp [hz])] at hdist
        obtain ⟨r, hr, hl, hp, hf, hc⟩ := ih new hlen hpr hroom hdist
          (fun e' he' => hnew e' (List.mem_cons_of_mem _ he'))
        refine ⟨r, by rw [rehash, if_pos hz, hr], hl, hp, hf, ?_⟩
        intro k v hk
        rw [hc k v hk, List.mem_cons]
        have hne : (⟨k, v⟩ : Entry V) ≠ e := by
          rintro rfl
          exact hk hz
        simp [hne]
      · have hused : nUsed (e :: rest) = nUsed rest + 1 := by simp [nUsed, hz]
        rw [hused] at hroom ⊢
        rw [List.filter_cons_of_pos (by simp [hz]), List.pairwise_cons] at hdist
        obtain ⟨d, hd, hfind, hzero, hfull⟩ := findFree_spec hcap hlen e.key (by omega)
        have hj : back n (home n e.key) d < new.length := by
          rw [hlen]
          exact back_lt (hcap.home_lt _) hd
        have hnew' := hnew e List.mem_cons_self hz
        obtain ⟨r, hr, hl, hp, hf, hc⟩ := ih (new.set (back n (home n e.key) d) e)
          (by rw [List.length_set, hlen]) (probed_place hcap hlen hpr hz hnew' hd hfull)
          (by rw [nFree_set_of_empty hj hzero hz]; omega) hdist.2
          (by
            intro e' he' hz' i hi
            rw [keyAt_set _ _ _ _ hj]
            split
            · exact hdist.1 e' (List.mem_filter.mpr ⟨he', by simpa using hz'⟩)
            · exact hnew e' (List.mem_cons_of_mem _ he') hz' i hi)
        refine ⟨r, by rw [rehash, if_neg hz, hfind]; exact hr, hl, hp, ?_, ?_⟩
        · rw [hf, nFree_set_of_empty hj hzero hz]
          omega
        · intro k v hk
          rw [hc k v hk, contains_set hj hzero hk, List.mem_cons]
          tauto

/-! ### Well-formed maps -/

/-- The shape of a map: an array of the announced capacity, which is `0` or a power of two;
a count of the empty slots that is exact and leaves a quarter of them, up to the last
insertion; distinct keys that are addresses of pages. -/
structure Wf (map : Hashmap V) : Prop where
  length_eq : map.entries.length = map.totalEntries
  cap : map.totalEntries = 0 ∨ Cap map.totalEntries
  base_iff : map.base = 0 ↔ map.totalEntries = 0
  free_eq : map.freeEntries = nFree map.entries
  room : map.totalEntries ≤ 4 * map.freeEntries + 4
  page : ∀ e ∈ map.entries, e.key % pageSize = 0 ∧ e.key < 2 ^ 64
  distinct : DistinctKeys map.entries

/-- The map before anything is inserted is well-formed. -/
theorem wf_empty : Wf (empty : Hashmap V) where
  length_eq := rfl
  cap := .inl rfl
  base_iff := by simp [empty]
  free_eq := rfl
  room := by simp [empty]
  page := by simp [empty]
  distinct := by
    intro i hi
    simp [empty] at hi

/-- Distinct keys, as a property of the list of occupied entries. -/
theorem DistinctKeys.pairwise {entries : List (Entry V)} (h : DistinctKeys entries) :
    (entries.filter fun e => e.key != 0).Pairwise fun a b => a.key ≠ b.key := by
  have hall : entries.Pairwise fun a b => a.key ≠ 0 → a.key ≠ b.key := by
    rw [List.pairwise_iff_getElem]
    intro i j hi hj hij hz heq
    have := h i hi j hj
    simp only [keyAt, entryAt_eq_get hi, entryAt_eq_get hj] at this
    exact absurd (this heq hz) (by omega)
  rw [List.pairwise_filter]
  refine hall.imp ?_
  intro a b hab ha _
  exact hab (by simpa using ha)

/-- In a table in which every key is found by probing no key is there twice. -/
theorem distinctKeys_of_probed {entries : List (Entry V)} {n : ℕ} (hlen : entries.length = n)
    (h : Probed n (home n) (slots entries)) : DistinctKeys entries := by
  intro i hi j hj heq hz
  rw [hlen] at hi hj
  exact h.distinct i hi j hj _ (slots_eq_some.mpr ⟨rfl, hz⟩)
    (slots_eq_some.mpr ⟨heq.symm, hz⟩)

/-- There are fewer page addresses than `2 ^ 52`, so no map has more occupied slots. -/
theorem Wf.nUsed_le {map : Hashmap V} (h : Wf map) : nUsed map.entries ≤ 2 ^ 52 := by
  set ks := (map.entries.filter fun e => e.key != 0).map fun e => e.key / pageSize with hks
  have hlen : ks.length = nUsed map.entries := by
    rw [hks, List.length_map, nUsed, List.countP_eq_length_filter]
  have hpage : ∀ e ∈ map.entries.filter (fun e => e.key != 0),
      e.key = e.key / pageSize * pageSize ∧ e.key / pageSize < 2 ^ 52 := by
    intro e he
    have := h.page e (List.mem_of_mem_filter he)
    simp only [pageSize] at *
    omega
  have hnodup : ks.Nodup := by
    rw [hks, List.nodup_iff_pairwise_ne, List.pairwise_map]
    refine (h.distinct.pairwise.imp_of_mem ?_)
    intro a b ha hb hab heq
    apply hab
    rw [(hpage a ha).1, (hpage b hb).1, heq]
  have hsub : ks ⊆ List.range (2 ^ 52) := by
    intro x hx
    obtain ⟨e, he, rfl⟩ := List.mem_map.mp hx
    exact List.mem_range.mpr (hpage e he).2
  have := (List.subperm_of_subset hnodup hsub).length_le
  rwa [List.length_range, hlen] at this

/-- A well-formed map with an array has at least one empty slot. -/
theorem Wf.nFree_pos {map : Hashmap V} (h : Wf map) (hne : map.totalEntries ≠ 0) :
    0 < nFree map.entries := by
  have hcap := (h.cap.resolve_left hne).le
  have := h.room
  rw [← h.free_eq]
  omega

/-! ### Growing -/

/-- The number of pages that the array of a map takes. -/
def mapPages (map : Hashmap V) : ℕ := roundToPage (map.totalEntries * entrySize)

/-- The pages that a growth gives back for the old array, computed as the source does. -/
def freedPages (map : Hashmap V) : List ℕ :=
  if map.totalEntries > 0 then pages map.base (roundToPage (mapPages map)) else []

/-- The effect of a growth on the pages in use: the new array is made of unused pages, and
pages of the old array are given back. -/
structure Regrown (map map' : Hashmap V) (ps ps' : Pages) : Prop where
  fresh : Fresh ps.owned map'.base (mapPages map')
  owned_eq : ps'.owned =
    (ps.owned ++ pages map'.base (mapPages map')).filter (· ∉ freedPages map)
  refused_eq : ps'.refused = ps.refused

omit [Inhabited V] in
/-- The pages that a growth gives back are pages of the array. -/
theorem mem_of_mem_freedPages {map : Hashmap V} {q : ℕ} (hq : q ∈ freedPages map) :
    q ∈ pages map.base (mapPages map) := by
  unfold freedPages at hq
  split at hq
  · obtain ⟨k, hk, rfl⟩ := mem_pages.mp hq
    refine mem_pages.mpr ⟨k, lt_of_lt_of_le hk ?_, rfl⟩
    rw [roundToPage]
    simp only [pageSize]
    omega
  · simp at hq

omit [Inhabited V] in
/-- **The owners of pages** when the map is replaced by one that grew or stayed where it was: its
array belongs to the map, and what others own stays theirs. -/
theorem exists_owner {O : Type} {owner : ℕ → Option O} {table : O} {map map' : Hashmap V}
    {ps ps' : Pages} (howned : ∀ q o, owner q = some o → q ∈ ps.owned)
    (htable : ∀ q ∈ pages map.base (mapPages map), owner q = some table)
    (hpages : map'.base = map.base ∧ mapPages map' = mapPages map ∧ ps' = ps ∨
      Regrown map map' ps ps') :
    ∃ owner' : ℕ → Option O, (∀ q o, owner' q = some o → q ∈ ps'.owned) ∧
      (∀ q ∈ pages map'.base (mapPages map'), owner' q = some table) ∧
      ∀ q o, o ≠ table → owner q = some o → owner' q = some o := by
  rcases hpages with ⟨hbase, hpages, rfl⟩ | hgrown
  · refine ⟨owner, howned, ?_, fun q o _ ho => ho⟩
    rw [hbase, hpages]
    exact htable
  · set new := pages map'.base (mapPages map') with hnew
    refine ⟨fun q => if q ∈ new then some table
      else if q ∈ freedPages map then none else owner q, ?_, fun q hq => if_pos hq, ?_⟩
    · intro q o ho
      rw [hgrown.owned_eq, List.mem_filter, List.mem_append, decide_eq_true_eq]
      by_cases hq : q ∈ new
      · refine ⟨.inr hq, fun hq' => ?_⟩
        exact hgrown.fresh.unused q hq (howned q _ (htable q (mem_of_mem_freedPages hq')))
      · simp only [if_neg hq] at ho
        split at ho
        · exact absurd ho (by simp)
        · rename_i hq'
          exact ⟨.inl (howned q o ho), hq'⟩
    · intro q o hne ho
      have hq : q ∉ new := fun hq => hgrown.fresh.unused q hq (howned q o ho)
      have hq' : q ∉ freedPages map := by
        intro hq'
        rw [htable q (mem_of_mem_freedPages hq')] at ho
        exact hne (Option.some.inj ho).symm
      simp only [if_neg hq, if_neg hq', ho]

/-- The entries of a cleared array have the key `NULL`. -/
theorem keyAt_replicate (n i : ℕ) : keyAt (List.replicate n (emptyEntry : Entry V)) i = 0 := by
  unfold keyAt entryAt
  rw [List.getD_eq_getElem?_getD, List.getElem?_replicate]
  split <;> rfl

/-- In a cleared array there is no key, so that every key is found by probing. -/
theorem probed_replicate (n : ℕ) :
    Probed n (home n) (slots (List.replicate n (emptyEntry : Entry V))) := by
  have hnone : ∀ i, slots (List.replicate n (emptyEntry : Entry V)) i = none :=
    fun i => slots_eq_none.mpr (keyAt_replicate n i)
  refine ⟨?_, ?_⟩
  · intro i _ k hk
    rw [hnone] at hk
    exact absurd hk (by simp)
  · intro i _ j _ k hk
    rw [hnone] at hk
    exact absurd hk (by simp)

/-- The capacity that a growth gives to a map: the default one, or twice the old one. -/
def newTotal (map : Hashmap V) : ℕ :=
  if map.totalEntries = 0 then defaultSize else 2 * map.totalEntries

/-- The number of pages that a growth asks for, those of the new array. -/
def newPages (map : Hashmap V) : ℕ := roundToPage (newTotal map * entrySize)

/-- What a growth relies on: an array of the announced capacity, which is `0` or a power of
two. -/
structure Sized (map : Hashmap V) : Prop where
  length_eq : map.entries.length = map.totalEntries
  cap : map.totalEntries = 0 ∨ Cap map.totalEntries
  base_iff : map.base = 0 ↔ map.totalEntries = 0

/-- A well-formed map has the sizes that its capacity asks for. -/
theorem Wf.sized {map : Hashmap V} (h : Wf map) : Sized map :=
  ⟨h.length_eq, h.cap, h.base_iff⟩

omit [Inhabited V] in
/-- The new capacity of a map that may grow is a capacity, larger than the old one, and at most
a third more than four thirds of the growth. -/
theorem Sized.newTotal_cap {map : Hashmap V} (h : Sized map)
    (hmax : map.totalEntries ≤ maxSize) :
    Cap (newTotal map) ∧ map.totalEntries < newTotal map ∧
      newTotal map ≤ 4 * (newTotal map - map.totalEntries) := by
  unfold newTotal
  rcases h.cap with h0 | ⟨k, hk8, -, hk⟩
  · rw [if_pos h0, h0]
    exact ⟨⟨8, by norm_num, by norm_num, by norm_num⟩, by decide, by decide⟩
  · have hpos : 0 < map.totalEntries := by
      rw [hk]
      positivity
    rw [if_neg (by omega)]
    refine ⟨⟨k + 1, by omega, ?_, by rw [hk]; ring⟩, by omega, by omega⟩
    by_contra hlt
    have : 2 ^ 62 ≤ 2 ^ k := Nat.pow_le_pow_right (by decide) (by omega)
    simp only [maxSize, entrySize] at hmax
    omega

/-- All slots of a cleared array are empty. -/
theorem nFree_replicate (n : ℕ) : nFree (List.replicate n (emptyEntry : Entry V)) = n := by
  rw [nFree, List.countP_replicate]
  simp [emptyEntry]

/-- **Copying any entries** into an array with room for them ends, and fills as many slots. -/
theorem rehash_counts {n : ℕ} (hcap : Cap n) (old : List (Entry V)) (new : List (Entry V))
    (hlen : new.length = n) (hroom : nUsed old < nFree new) :
    ∃ r, rehash (n - 1) old new = some r ∧ r.length = n ∧ nFree r = nFree new - nUsed old := by
  induction old generalizing new with
  | nil => exact ⟨new, rfl, hlen, by simp [nUsed]⟩
  | cons e rest ih =>
      by_cases hz : e.key = 0
      · have hused : nUsed (e :: rest) = nUsed rest := by simp [nUsed, hz]
        rw [hused] at hroom ⊢
        rw [rehash, if_pos hz]
        exact ih new hlen hroom
      · have hused : nUsed (e :: rest) = nUsed rest + 1 := by simp [nUsed, hz]
        rw [hused] at hroom ⊢
        obtain ⟨d, hd, hfind, hzero, -⟩ := findFree_spec hcap hlen e.key (by omega)
        have hj : back n (home n e.key) d < new.length := by
          rw [hlen]
          exact back_lt (hcap.home_lt _) hd
        have hfree := nFree_set_of_empty (e := e) hj hzero hz
        obtain ⟨r, hr, hl, hf⟩ := ih (new.set (back n (home n e.key) d) e)
          (by rw [List.length_set, hlen]) (by omega)
        exact ⟨r, by rw [rehash, if_neg hz, hfind]; exact hr, hl, by omega⟩

/-- **Copying entries with distinct keys**, placed anywhere, into a cleared array of the new
capacity gives a probed array with the same contents. -/
theorem rehash_probed {map : Hashmap V} (h : Sized map) (hmax : map.totalEntries ≤ maxSize)
    (hdist : DistinctKeys map.entries) {r : List (Entry V)}
    (hr : rehash (newTotal map - 1) map.entries (List.replicate (newTotal map) emptyEntry) =
      some r) :
    Probed (newTotal map) (home (newTotal map)) (slots r) ∧
      ∀ k v, k ≠ 0 → (Contains r k v ↔ Contains map.entries k v) := by
  obtain ⟨hcap, hlt, -⟩ := h.newTotal_cap hmax
  have hsum := nFree_add_nUsed map.entries
  have hlen := h.length_eq
  obtain ⟨r', hr', -, hrp, -, hrc⟩ := rehash_spec hcap map.entries
    (List.replicate (newTotal map) emptyEntry) List.length_replicate
    (probed_replicate (newTotal map)) (by rw [nFree_replicate]; omega) hdist.pairwise
    (by intro e _ hz i _; rw [keyAt_replicate]; exact hz.symm)
  obtain rfl : r' = r := Option.some.inj (hr'.symm.trans hr)
  refine ⟨hrp, ?_⟩
  intro k v hk
  rw [hrc k v hk, contains_iff_mem, contains_iff_mem]
  constructor
  · rintro (hmem | hmem)
    · exact absurd (congrArg Entry.key (List.eq_of_mem_replicate hmem)) hk
    · exact hmem
  · exact .inr

/-- `Hashmap_grow` of a map that may grow, with the new capacity by its name. -/
theorem grow_eq (src : PageSource) {map : Hashmap V} (hmax : map.totalEntries ≤ maxSize)
    (ps : Pages) :
    grow src map ps =
      if (ps.allocatePages src (newPages map) true).1 = 0 then
        .ok (false, map, (ps.allocatePages src (newPages map) true).2)
      else
        match rehash (newTotal map - 1) map.entries (List.replicate (newTotal map) emptyEntry) with
        | none => .error .diverges
        | some entries => .ok (true,
            ⟨(ps.allocatePages src (newPages map) true).1, entries, newTotal map,
              map.freeEntries + (newTotal map - map.totalEntries)⟩,
            if map.totalEntries > 0 then
              (ps.allocatePages src (newPages map) true).2.freePages map.base
                (roundToPage (mapPages map))
            else (ps.allocatePages src (newPages map) true).2) := by
  rw [grow, if_neg (by omega)]
  rfl

/-- **What growing does to a map**, whatever its keys and its count of empty slots are: it
fails and leaves the map as it was, its request for pages being refused unless the map is as
large as it can be; or the entries are copied into a cleared array of the new capacity. -/
theorem grow_sized (src : PageSource) {map : Hashmap V} (h : Sized map) (ps : Pages) :
    (∃ ps', grow src map ps = .ok (false, map, ps') ∧ ps'.owned = ps.owned ∧
      (map.totalEntries ≤ maxSize → ps.refused < ps'.refused ∧
        src ps.requests ps.owned (newPages map) true = 0)) ∨
    ∃ map' ps', grow src map ps = .ok (true, map', ps') ∧ map.totalEntries ≤ maxSize ∧
      map'.base = src ps.requests ps.owned (newPages map) true ∧ map'.base ≠ 0 ∧
      map'.totalEntries = newTotal map ∧ Sized map' ∧
      map'.freeEntries = map.freeEntries + (newTotal map - map.totalEntries) ∧
      nFree map'.entries = nFree map.entries + (newTotal map - map.totalEntries) ∧
      rehash (newTotal map - 1) map.entries (List.replicate (newTotal map) emptyEntry) =
        some map'.entries ∧
      ps'.owned = (ps.owned ++ pages map'.base (mapPages map')).filter (· ∉ freedPages map) ∧
      ps'.refused = ps.refused := by
  by_cases hmax : map.totalEntries > maxSize
  · rw [grow, if_pos hmax]
    exact .inl ⟨ps, rfl, rfl, fun hle => absurd hle (by omega)⟩
  obtain ⟨hcap, hlt, hroom⟩ := h.newTotal_cap (by omega)
  have hcapLe := hcap.le
  have hpos : newPages map ≠ 0 := by
    simp only [newPages, roundToPage, pageSize, entrySize]
    omega
  rw [grow_eq src (by omega) ps]
  by_cases hnull : src ps.requests ps.owned (newPages map) true = 0
  · have halloc : ps.allocatePages src (newPages map) true =
        (0, ⟨ps.owned, ps.requests + 1, ps.refused + 1⟩) := by
      simp only [Pages.allocatePages, if_neg hpos, hnull, if_true]
    rw [halloc, if_pos rfl]
    exact .inl ⟨_, rfl, rfl, fun _ => ⟨Nat.lt_succ_self _, hnull⟩⟩
  · set addr := src ps.requests ps.owned (newPages map) true with haddr
    have halloc : ps.allocatePages src (newPages map) true =
        (addr, ⟨ps.owned ++ pages addr (newPages map), ps.requests + 1, ps.refused⟩) := by
      simp only [Pages.allocatePages, if_neg hpos, ← haddr, if_neg hnull]
    have hsum := nFree_add_nUsed map.entries
    have hlen := h.length_eq
    obtain ⟨r, hr, hrl, hrf⟩ := rehash_counts hcap map.entries
      (List.replicate (newTotal map) emptyEntry) List.length_replicate
      (by rw [nFree_replicate]; omega)
    rw [nFree_replicate] at hrf
    rw [halloc, if_neg hnull, hr]
    refine .inr ⟨_, _, rfl, by omega, rfl, hnull, rfl, ⟨hrl, .inr hcap, ?_⟩, rfl, ?_, rfl, ?_, ?_⟩
    · simp only
      exact ⟨fun h0 => absurd h0 hnull, fun h0 => absurd h0 (by omega)⟩
    · simp only [hrf]
      omega
    · by_cases h0 : map.totalEntries > 0
      · simp only [if_pos h0, freedPages, Pages.freePages]
        rfl
      · simp only [if_neg h0, mapPages, freedPages, newPages, List.not_mem_nil,
          not_false_eq_true, decide_true, List.filter_true]
    · split <;> rfl

/-- **A map with distinct pages as keys, wherever these are, grows to a probed map** with the same
contents, a quarter of whose slots are empty. -/
theorem Sized.grown {map map' : Hashmap V} (h : Sized map) (hmax : map.totalEntries ≤ maxSize)
    (hfreeEq : map.freeEntries = nFree map.entries)
    (hpage : ∀ e ∈ map.entries, e.key % pageSize = 0 ∧ e.key < 2 ^ 64)
    (hdist : DistinctKeys map.entries) (htotal : map'.totalEntries = newTotal map)
    (hsized : Sized map')
    (hfree : map'.freeEntries = map.freeEntries + (newTotal map - map.totalEntries))
    (hnFree : nFree map'.entries = nFree map.entries + (newTotal map - map.totalEntries))
    (hrehash : rehash (newTotal map - 1) map.entries
      (List.replicate (newTotal map) emptyEntry) = some map'.entries) :
    Wf map' ∧ Probed map'.totalEntries (home map'.totalEntries) (slots map'.entries) ∧
      (∀ k v, k ≠ 0 → (Contains map'.entries k v ↔ Contains map.entries k v)) ∧
      map'.totalEntries ≤ 4 * map'.freeEntries := by
  obtain ⟨-, -, hroom⟩ := h.newTotal_cap hmax
  obtain ⟨hpr, hcont⟩ := rehash_probed h hmax hdist hrehash
  rw [← htotal] at hpr
  refine ⟨?_, hpr, hcont, by omega⟩
  refine ⟨hsized.length_eq, hsized.cap, hsized.base_iff, by omega, by omega, ?_,
    distinctKeys_of_probed hsized.length_eq hpr⟩
  intro e he
  by_cases hz : e.key = 0
  · simp [hz]
  · have hmem : (⟨e.key, e.value⟩ : Entry V) ∈ map'.entries := he
    rw [← contains_iff_mem, hcont _ _ hz, contains_iff_mem] at hmem
    exact hpage _ hmem

/-- **What growing can do**: fail and leave the map as it was, or give a probed map of twice
the capacity with the same contents. -/
theorem grow_cases {src : PageSource} (hsrc : src.Sound) {map : Hashmap V} (h : Wf map)
    (ps : Pages) :
    (∃ ps', grow src map ps = .ok (false, map, ps') ∧ ps'.owned = ps.owned ∧
      (map.totalEntries ≤ maxSize → ps.refused < ps'.refused)) ∨
    ∃ map' ps', grow src map ps = .ok (true, map', ps') ∧ Wf map' ∧
      Probed map'.totalEntries (home map'.totalEntries) (slots map'.entries) ∧
      map'.totalEntries ≠ 0 ∧ map'.totalEntries ≤ 4 * map'.freeEntries ∧
      (∀ k v, k ≠ 0 → (Contains map'.entries k v ↔ Contains map.entries k v)) ∧
      Regrown map map' ps ps' := by
  rcases grow_sized src h.sized ps with ⟨ps', hg, howned, hserve⟩ |
    ⟨map', ps', hg, hmax, hbase, hne, htotal, hsized, hfree, hnFree, hrehash, howned, hrefused⟩
  · exact .inl ⟨ps', hg, howned, fun hle => (hserve hle).1⟩
  · obtain ⟨hwf, hpr, hcont, hroom⟩ :=
      h.sized.grown hmax h.free_eq h.page h.distinct htotal hsized hfree hnFree hrehash
    refine .inr ⟨map', ps', hg, hwf, hpr, fun h0 => hne (hsized.base_iff.mpr h0), hroom, hcont,
      ?_, howned, hrefused⟩
    have hmapPages : mapPages map' = newPages map := by rw [mapPages, htotal, newPages]
    rcases hsrc ps.requests ps.owned (newPages map) true with hnull | hfresh
    · exact absurd (hbase.trans hnull) hne
    · rw [hmapPages, hbase]
      exact hfresh

/-- A map that has to grow is far below the largest capacity. -/
theorem Wf.total_le_maxSize {map : Hashmap V} (h : Wf map)
    (hfull : (map.tooFull || map.totalEntries == 0) = true) : map.totalEntries ≤ maxSize := by
  have hused := h.nUsed_le
  have hsum := nFree_add_nUsed map.entries
  have hlen := h.length_eq
  have hfree := h.free_eq
  simp only [tooFull, Bool.or_eq_true, decide_eq_true_eq, beq_iff_eq] at hfull
  simp only [maxSize, entrySize]
  omega

/-! ### Inserting -/

/-- A pair whose key is new is put into a free slot of a map that has room: the map stays
well-formed. -/
theorem Wf.place {m : Hashmap V} (h : Wf m) (h0 : m.totalEntries ≠ 0)
    (hroom : m.totalEntries ≤ 4 * m.freeEntries) {i : ℕ} (hi : i < m.totalEntries)
    (hzero : keyAt m.entries i = 0) {ptr : ℕ} (hptr : getPage ptr ≠ 0) (hlt : ptr < 2 ^ 64)
    (hnokey : ∀ j < m.totalEntries, keyAt m.entries j ≠ getPage ptr) (value : V) :
    Wf { m with entries := m.entries.set i ⟨getPage ptr, value⟩
                freeEntries := m.freeEntries - 1 } := by
  have hil : i < m.entries.length := by rw [h.length_eq]; exact hi
  have hfreepos := h.nFree_pos h0
  refine ⟨by simpa using h.length_eq, h.cap, h.base_iff, ?_, ?_, ?_, ?_⟩
  · simp only [nFree_set_of_empty (e := ⟨getPage ptr, value⟩) hil hzero hptr, h.free_eq]
  · simp only [h.free_eq] at *
    omega
  · intro e he
    rcases List.mem_or_eq_of_mem_set he with he | rfl
    · exact h.page e he
    · simp only [getPage, pageSize]
      omega
  · intro a ha b hb hab hz
    simp only [List.length_set] at ha hb
    rw [keyAt_set _ _ _ _ hil] at hab hz
    rw [keyAt_set _ _ _ _ hil] at hab
    rw [h.length_eq] at ha hb
    split at hab <;> split at hab
    · omega
    · exact absurd hab.symm (hnokey b hb)
    · exact absurd hab (hnokey a ha)
    · rw [if_neg (by assumption)] at hz
      exact h.distinct a (by rw [h.length_eq]; exact ha) b
        (by rw [h.length_eq]; exact hb) hab hz

/-- **An insertion of a new key into a map that has room**, be it the map itself or the one it has
grown to: the pair is put into a free slot. -/
theorem insert_placed {src : PageSource} {map m : Hashmap V} {ps q : Pages} (hm : Wf m)
    (hm0 : m.totalEntries ≠ 0) (hroom : m.totalEntries ≤ 4 * m.freeEntries)
    (hgrow : growIfNeeded src map ps = .ok (true, m, q)) {ptr : ℕ} (hptr : getPage ptr ≠ 0)
    (hlt : ptr < 2 ^ 64) (hnew : ∀ v, ¬ Contains m.entries (getPage ptr) v) (value : V) :
    ∃ i < m.totalEntries, insert src map ps ptr value = .ok (true,
      { m with entries := m.entries.set i ⟨getPage ptr, value⟩
               freeEntries := m.freeEntries - 1 }, q) ∧
      Wf { m with entries := m.entries.set i ⟨getPage ptr, value⟩
                  freeEntries := m.freeEntries - 1 } ∧
      (Probed m.totalEntries (home m.totalEntries) (slots m.entries) →
        Probed m.totalEntries (home m.totalEntries)
          (slots (m.entries.set i ⟨getPage ptr, value⟩))) ∧
      (∀ k v, k ≠ 0 → (Contains (m.entries.set i ⟨getPage ptr, value⟩) k v ↔
        (k = getPage ptr ∧ v = value) ∨ Contains m.entries k v)) := by
  have hne : ptr ≠ 0 := by
    rintro rfl
    exact hptr rfl
  have hcap := hm.cap.resolve_left hm0
  obtain ⟨d, hd, hfind, hzero, hfull⟩ :=
    findFree_spec hcap hm.length_eq (getPage ptr) (hm.nFree_pos hm0)
  set i := back m.totalEntries (home m.totalEntries (getPage ptr)) d with hi
  have hin : i < m.totalEntries := back_lt (hcap.home_lt _) hd
  have hil : i < m.entries.length := by rw [hm.length_eq]; exact hin
  have hnokey : ∀ j < m.totalEntries, keyAt m.entries j ≠ getPage ptr := by
    intro j hj heq
    refine hnew (entryAt m.entries j).value ⟨j, by rw [hm.length_eq]; exact hj, ?_⟩
    rw [← heq]
    rfl
  refine ⟨i, hin, ?_, hm.place hm0 hroom hin hzero hptr hlt hnokey value, ?_, ?_⟩
  · unfold insert
    rw [if_neg hne, hgrow]
    simp only [hfind]
  · intro hpr
    exact probed_place hcap hm.length_eq hpr (e := ⟨getPage ptr, value⟩) hptr hnokey hd hfull
  · intro k v hk
    rw [contains_set hil hzero hk, Entry.mk.injEq]

/-- **What an insertion can do** with a page that is not in the map: fail and leave the map as
it was, or add the pair, possibly after growing. -/
theorem insert_cases {src : PageSource} (hsrc : src.Sound) {map : Hashmap V} (h : Wf map)
    (ps : Pages) {ptr : ℕ} (hptr : getPage ptr ≠ 0) (hlt : ptr < 2 ^ 64)
    (hnew : ∀ v, ¬ Contains map.entries (getPage ptr) v) (value : V) :
    (∃ ps', insert src map ps ptr value = .ok (false, map, ps') ∧ ps'.owned = ps.owned ∧
      ps.refused < ps'.refused) ∨
    ∃ map' ps', insert src map ps ptr value = .ok (true, map', ps') ∧ Wf map' ∧
      map'.totalEntries ≠ 0 ∧
      (Probed map.totalEntries (home map.totalEntries) (slots map.entries) →
        Probed map'.totalEntries (home map'.totalEntries) (slots map'.entries)) ∧
      (∀ k v, k ≠ 0 → (Contains map'.entries k v ↔
        (k = getPage ptr ∧ v = value) ∨ Contains map.entries k v)) ∧
      (map'.base = map.base ∧ mapPages map' = mapPages map ∧ ps' = ps ∨
        Regrown map map' ps ps') := by
  have hne : ptr ≠ 0 := by
    rintro rfl
    exact hptr rfl
  by_cases hfull : (map.tooFull || map.totalEntries == 0) = true
  · have hgrowEq : growIfNeeded src map ps = grow src map ps := by
      rw [growIfNeeded, if_pos hfull]
    rcases grow_cases hsrc h ps with ⟨ps', hg, hown, hserve⟩ |
      ⟨m, q, hg, hm, hpr, hm0, hroom, hcont, hreg⟩
    · refine .inl ⟨ps', ?_, hown, hserve (h.total_le_maxSize hfull)⟩
      unfold insert
      rw [if_neg hne, hgrowEq, hg]
    · obtain ⟨i, hi, hins, hwf, hpr', hc⟩ := insert_placed hm hm0 hroom (hgrowEq.trans hg) hptr hlt
        (fun v hv => hnew v ((hcont _ _ hptr).mp hv)) value
      refine .inr ⟨_, q, hins, hwf, hm0, fun _ => hpr' hpr, ?_,
        .inr ⟨hreg.fresh, hreg.owned_eq, hreg.refused_eq⟩⟩
      intro k v hk
      rw [hc k v hk, hcont k v hk]
  · have hgrowEq : growIfNeeded src map ps = .ok (true, map, ps) := by
      rw [growIfNeeded, if_neg hfull]
    simp only [tooFull, Bool.or_eq_true, decide_eq_true_eq, beq_iff_eq, not_or] at hfull
    obtain ⟨i, hi, hins, hwf, hpr', hc⟩ :=
      insert_placed h hfull.2 (by omega) hgrowEq hptr hlt hnew value
    exact .inr ⟨_, ps, hins, hwf, hfull.2, hpr', hc, .inl ⟨rfl, rfl, rfl⟩⟩

/-! ### Looking up -/

/-- A lookup always returns, and what it returns is an entry with the key. -/
theorem find_sound {map : Hashmap V} (h : Wf map) (ptr : ℕ) :
    find map ptr = .ok none ∨
    ∃ i < map.totalEntries, find map ptr = .ok (some i) ∧
      keyAt map.entries i = getPage ptr ∧ getPage ptr ≠ 0 := by
  unfold find
  by_cases hb : map.base = 0
  · rw [if_pos hb]
    exact .inl rfl
  · rw [if_neg hb]
    have h0 : map.totalEntries ≠ 0 := fun h0 => hb (h.base_iff.mpr h0)
    have hcap := h.cap.resolve_left h0
    obtain ⟨z, hz, hzk⟩ := exists_empty (h.nFree_pos h0)
    rw [h.length_eq] at hz
    obtain ⟨d, hd, hstop, hbefore⟩ := exists_first (hcap.home_lt (getPage ptr))
      (p := fun i => keyAt map.entries i == 0 || keyAt map.entries i == getPage ptr) hz
      (by simp [hzk])
    have hsearch : searchFrom (nextIndex (map.totalEntries - 1))
        (fun i => keyAt map.entries i == 0 || keyAt map.entries i == getPage ptr)
        map.totalEntries (home map.totalEntries (getPage ptr)) =
          some (back map.totalEntries (home map.totalEntries (getPage ptr)) d) :=
      searchFrom_spec (fun i hi => hcap.nextIndex_eq hi) (hcap.home_lt _) hd hd hstop hbefore
    rw [home] at hsearch
    simp only [h.length_eq, hsearch]
    by_cases hk : keyAt map.entries
        (back map.totalEntries (hash (getPage ptr) &&& map.totalEntries - 1) d) = 0
    · rw [if_pos hk]
      exact .inl rfl
    · rw [if_neg hk]
      refine .inr ⟨_, back_lt (hcap.home_lt (getPage ptr)) hd, rfl, ?_⟩
      have hkey : keyAt map.entries
          (back map.totalEntries (hash (getPage ptr) &&& map.totalEntries - 1) d) =
          getPage ptr := by
        simpa [home, hk] using hstop
      exact ⟨hkey, fun hz0 => hk (hkey.trans hz0)⟩

/-- **A lookup finds every key that is present** in a probed map. -/
theorem find_hit {map : Hashmap V} (h : Wf map)
    (hpr : Probed map.totalEntries (home map.totalEntries) (slots map.entries)) {ptr i : ℕ}
    (hi : i < map.totalEntries) (hk : keyAt map.entries i = getPage ptr)
    (hptr : getPage ptr ≠ 0) : find map ptr = .ok (some i) := by
  have h0 : map.totalEntries ≠ 0 := by omega
  have hcap := h.cap.resolve_left h0
  have hpath := hpr.search_hit (fun k => hcap.home_lt k) hi (slots_eq_some.mpr ⟨hk, hptr⟩)
  have hsearch : searchFrom (nextIndex (map.totalEntries - 1))
      (fun i => keyAt map.entries i == 0 || keyAt map.entries i == getPage ptr)
      map.totalEntries (home map.totalEntries (getPage ptr)) = some i := by
    have hback := back_dist (hcap.home_lt (getPage ptr)) hi
    have hdist := dist_lt (hcap.home_lt (getPage ptr)) hi
    rw [← hback]
    refine searchFrom_spec (fun i hi => hcap.nextIndex_eq hi) (hcap.home_lt _) hdist hdist ?_ ?_
    · simp [hback, hk]
    · intro d' hd'
      obtain ⟨h1, h2⟩ := hpath d' hd'
      rw [ne_eq, slots_eq_none] at h1
      have hne : keyAt map.entries (back map.totalEntries
          (home map.totalEntries (getPage ptr)) d') ≠ getPage ptr :=
        fun heq => h2 (slots_eq_some.mpr ⟨heq, hptr⟩)
      simp [h1, hne]
  unfold find
  rw [if_neg (fun hb => h0 (h.base_iff.mp hb))]
  rw [home] at hsearch
  simp only [h.length_eq, hsearch]
  rw [if_neg (by rw [hk]; exact hptr)]

/-- **A lookup of a key that is not present returns `NULL`.** -/
theorem find_miss {map : Hashmap V} (h : Wf map) {ptr : ℕ}
    (hnone : ∀ v, ¬ Contains map.entries (getPage ptr) v) : find map ptr = .ok none := by
  rcases find_sound h ptr with hn | ⟨i, hi, -, hk, -⟩
  · exact hn
  · refine absurd ⟨i, by rw [h.length_eq]; exact hi, ?_⟩ (hnone (entryAt map.entries i).value)
    rw [← hk]
    rfl

/-! ### Deleting -/

/-- The tests of `Hashmap_delete` say that the entry is met without passing the hole. -/
theorem staysPut_iff {n p c t : ℕ} (hc : c < n) (ht : t < n) :
    staysPut c t p = true ↔ Stays n p c t := by
  simp only [staysPut, Stays, Probe.dist, Bool.or_eq_true, Bool.and_eq_true, decide_eq_true_eq]
  split_ifs <;> omega

/-- The entry in slot `c` stays when slot `p` is emptied. -/
def StaysAt (n : ℕ) (entries : List (Entry V)) (p c : ℕ) : Prop :=
  staysPut c (home n (keyAt entries c)) p = true

/-- In the run of occupied slots below `p`, the entry in slot `c` is the first that has to
move when slot `p` is emptied. -/
structure FirstToMove (n : ℕ) (entries : List (Entry V)) (p c : ℕ) : Prop where
  lt : c < n
  ne : c ≠ p
  run : InRunBelow n (slots entries) p c
  before : ∀ e < n, e ≠ p → dist n p e < dist n p c → StaysAt n entries p e
  moves : ¬ StaysAt n entries p c

/-- **The deletions that are handled completely**: when an entry moves into the emptied slot,
no entry of the run below has to move into the slot that it left. -/
def OneMove (n : ℕ) (entries : List (Entry V)) (p : ℕ) : Prop :=
  ∀ c, FirstToMove n entries p c →
    ∀ e < n, e ≠ c → InRunBelow n (slots entries) c e → StaysAt n entries c e

/-- The array after the entry in slot `c` has moved to slot `p`. -/
def moveEntry (entries : List (Entry V)) (p c : ℕ) : List (Entry V) :=
  (entries.set p (entryAt entries c)).set c emptyEntry

/-- After a move the slot it came from has the empty entry, and the slot it went to has the
moved one. -/
theorem entryAt_moveEntry {entries : List (Entry V)} {p c : ℕ} (hp : p < entries.length)
    (hc : c < entries.length) (j : ℕ) :
    entryAt (moveEntry entries p c) j =
      if c = j then emptyEntry else if p = j then entryAt entries c else entryAt entries j := by
  rw [moveEntry, entryAt_set _ _ _ _ (by rwa [List.length_set]), entryAt_set _ _ _ _ hp]

/-- After a move the slot it came from has the key `NULL`, and the slot it went to has the
moved key. -/
theorem keyAt_moveEntry {entries : List (Entry V)} {p c : ℕ} (hp : p < entries.length)
    (hc : c < entries.length) (j : ℕ) :
    keyAt (moveEntry entries p c) j =
      if c = j then 0 else if p = j then keyAt entries c else keyAt entries j := by
  rw [keyAt, entryAt_moveEntry hp hc]
  split
  · rfl
  · split <;> rfl

/-- A move into an empty slot keeps the pairs that the entries contain. -/
theorem contains_moveEntry {entries : List (Entry V)} {p c : ℕ} (hp : p < entries.length)
    (hc : c < entries.length) (hpc : p ≠ c) (hz : keyAt entries p = 0) {k : ℕ} {v : V}
    (hk : k ≠ 0) : Contains (moveEntry entries p c) k v ↔ Contains entries k v := by
  have hlen : (moveEntry entries p c).length = entries.length := by simp [moveEntry]
  unfold Contains
  rw [hlen]
  constructor
  · rintro ⟨j, hj, he⟩
    rw [entryAt_moveEntry hp hc] at he
    split at he
    · exact absurd (congrArg Entry.key he).symm hk
    · split at he
      · exact ⟨c, hc, he⟩
      · exact ⟨j, hj, he⟩
  · rintro ⟨j, hj, he⟩
    have hpj : p ≠ j := by
      rintro rfl
      rw [keyAt, he] at hz
      exact hk hz
    by_cases hcj : c = j
    · refine ⟨p, hp, ?_⟩
      rw [entryAt_moveEntry hp hc, if_neg (Ne.symm hpc), if_pos rfl, hcj, he]
    · refine ⟨j, hj, ?_⟩
      rw [entryAt_moveEntry hp hc, if_neg hcj, if_neg hpj, he]

/-- A move keeps the keys of the entries distinct. -/
theorem DistinctKeys.moveEntry {entries : List (Entry V)} (h : DistinctKeys entries) {p c : ℕ}
    (hp : p < entries.length) (hc : c < entries.length) :
    DistinctKeys (moveEntry entries p c) := by
  have hlen : (Hashmap.moveEntry entries p c).length = entries.length := by
    simp [Hashmap.moveEntry]
  intro a ha b hb hab hz
  rw [hlen] at ha hb
  rw [keyAt_moveEntry hp hc] at hab hz
  rw [keyAt_moveEntry hp hc] at hab
  have hca : c ≠ a := by
    rintro rfl
    simp at hz
  have hcb : c ≠ b := by
    rintro rfl
    rw [if_neg hca] at hz
    rw [if_neg hca, if_pos rfl] at hab
    exact hz hab
  rw [if_neg hca] at hab hz
  rw [if_neg hcb] at hab
  split at hab <;> split at hab
  · omega
  · rw [if_pos (by assumption)] at hz
    exact absurd (h c hc b hb hab hz) hcb
  · rw [if_neg (by assumption)] at hz
    exact absurd (h a ha c hc hab hz).symm hca
  · rw [if_neg (by assumption)] at hz
    exact h a ha b hb hab hz

/-- A move into an empty slot keeps the number of empty slots. -/
theorem nFree_moveEntry {entries : List (Entry V)} {p c : ℕ} (hp : p < entries.length)
    (hc : c < entries.length) (hpc : p ≠ c) (hz : keyAt entries p = 0) :
    nFree (moveEntry entries p c) = nFree entries := by
  have hc' : c < (entries.set p (entryAt entries c)).length := by rwa [List.length_set]
  have hkc : keyAt (entries.set p (entryAt entries c)) c = keyAt entries c := by
    rw [keyAt_set _ _ _ _ hp, if_neg hpc]
  by_cases hk : keyAt entries c = 0
  · have h1 : nFree (entries.set p (entryAt entries c)) = nFree entries := by
      have hpos : 0 < nFree entries :=
        List.countP_pos_iff.mpr ⟨entries[p], List.getElem_mem hp, by
          rw [keyAt, entryAt_eq_get hp] at hz
          simpa using hz⟩
      rw [keyAt, entryAt_eq_get hp] at hz
      rw [keyAt] at hk
      simp only [nFree, List.countP_set hp, hz, hk, beq_self_eq_true, if_true] at hpos ⊢
      omega
    rw [moveEntry, ← h1]
    have hpos : 0 < nFree (entries.set p (entryAt entries c)) :=
      List.countP_pos_iff.mpr ⟨_, List.getElem_mem hc', by
        rw [← entryAt_eq_get hc', ← keyAt, hkc, hk]
        rfl⟩
    rw [← hkc, keyAt, entryAt_eq_get hc'] at hk
    simp only [nFree, List.countP_set hc', hk, emptyEntry, beq_self_eq_true, if_true] at hpos ⊢
    omega
  · have hpos : 0 < nFree entries :=
      List.countP_pos_iff.mpr ⟨entries[p], List.getElem_mem hp, by
        rw [keyAt, entryAt_eq_get hp] at hz
        simpa using hz⟩
    rw [moveEntry, nFree_set_of_used hc' (by rwa [hkc]) rfl, nFree_set_of_empty hp hz hk]
    omega

/-- **The loop of `Hashmap_delete`**, once the slots down to distance `d₀` below the hole are
known to be occupied by entries that stay: it stops at the first slot that is empty or
holds an entry that has to move, and moves at most that one. -/
theorem deleteLoop_spec {n : ℕ} (hcap : Cap n) {entries : List (Entry V)}
    (hlen : entries.length = n) {p : ℕ} (hp : p < n) {z : ℕ} (hzn : z < n)
    (hz : keyAt entries (back n p z) = 0) (hz0 : 0 < z) (fuel d₀ : ℕ) (hfuel : n ≤ d₀ + fuel)
    (hbefore : ∀ d, 0 < d → d ≤ d₀ → keyAt entries (back n p d) ≠ 0 ∧
      StaysAt n entries p (back n p d)) :
    ∃ d, 0 < d ∧ d < n ∧
      (∀ d', 0 < d' → d' < d → keyAt entries (back n p d') ≠ 0 ∧
        StaysAt n entries p (back n p d')) ∧
      ((keyAt entries (back n p d) = 0 ∧
          deleteLoop (n - 1) fuel entries (back n p d₀) p = some entries) ∨
        (¬ StaysAt n entries p (back n p d) ∧
          deleteLoop (n - 1) fuel entries (back n p d₀) p =
            some (moveEntry entries p (back n p d)))) := by
  have hdz : d₀ < z := by
    by_contra hle
    exact (hbefore z hz0 (by omega)).1 hz
  induction fuel generalizing d₀ with
  | zero => omega
  | succ fuel ih =>
      have hback : back n p d₀ < n := back_lt hp (by omega)
      have hcur : nextIndex (n - 1) (back n p d₀) = back n p (d₀ + 1) := by
        rw [hcap.nextIndex_eq hback]
        unfold back prev
        split_ifs <;> omega
      have hclt : back n p (d₀ + 1) < n := back_lt hp (by omega)
      rw [deleteLoop]
      simp only [hcur]
      by_cases hst : StaysAt n entries p (back n p (d₀ + 1))
      · have hst' : staysPut (back n p (d₀ + 1))
            (hash (keyAt entries (back n p (d₀ + 1))) &&& n - 1) p = true := hst
        simp only [hst', if_true]
        by_cases hk : keyAt entries (back n p (d₀ + 1)) = 0
        · refine ⟨d₀ + 1, by omega, by omega, ?_, .inl ⟨hk, by simp [hk]⟩⟩
          intro d' h1 h2
          exact hbefore d' h1 (by omega)
        · simp only [ne_eq, hk, not_false_eq_true, if_true]
          have hbefore' : ∀ d, 0 < d → d ≤ d₀ + 1 → keyAt entries (back n p d) ≠ 0 ∧
              StaysAt n entries p (back n p d) := by
            intro d h1 h2
            by_cases hd : d = d₀ + 1
            · exact hd ▸ ⟨hk, hst⟩
            · exact hbefore d h1 (by omega)
          have hdz' : d₀ + 1 < z := by
            by_contra hle
            exact (hbefore' z hz0 (by omega)).1 hz
          exact ih (d₀ + 1) (by omega) hbefore' hdz'
      · have hst' : staysPut (back n p (d₀ + 1))
            (hash (keyAt entries (back n p (d₀ + 1))) &&& n - 1) p = false := by
          simpa [StaysAt, home] using hst
        simp only [hst', Bool.false_eq_true, if_false]
        refine ⟨d₀ + 1, by omega, by omega, ?_, .inr ⟨hst, ?_⟩⟩
        · intro d' h1 h2
          exact hbefore d' h1 (by omega)
        · have hkey : keyAt ((entries.set p (entryAt entries (back n p (d₀ + 1)))).set
              (back n p (d₀ + 1)) emptyEntry) (back n p (d₀ + 1)) = 0 := by
            rw [keyAt_set _ _ _ _ (by rw [List.length_set, hlen]; exact hclt), if_pos rfl]
            rfl
          rw [if_neg (by simpa using hkey)]
          rfl

/-! ### The emptied slot -/

/-- Emptying slot `p` removes its key and leaves the keys of the other slots. -/
theorem keyAt_clear {entries : List (Entry V)} {p : ℕ} (hp : p < entries.length) (j : ℕ) :
    keyAt (entries.set p emptyEntry) j = if p = j then 0 else keyAt entries j := by
  rw [keyAt_set _ _ _ _ hp]
  rfl

/-- Emptying slot `p` is an update of the slots at `p`. -/
theorem slots_clear {entries : List (Entry V)} {p : ℕ} (hp : p < entries.length) :
    slots (entries.set p emptyEntry) = Function.update (slots entries) p none := by
  rw [slots_set _ _ _ hp, if_pos (show (emptyEntry : Entry V).key = 0 from rfl)]

/-- Of distinct keys, emptying a slot removes exactly the pairs with the key of the slot. -/
theorem DistinctKeys.contains_clear {entries : List (Entry V)} (h : DistinctKeys entries) {p : ℕ}
    (hp : p < entries.length) {k : ℕ} {v : V} (hk : k ≠ 0) :
    Contains (entries.set p emptyEntry) k v ↔ Contains entries k v ∧ k ≠ keyAt entries p := by
  constructor
  · rintro ⟨j, hj, he⟩
    rw [entryAt_set _ _ _ _ hp] at he
    split at he
    · exact absurd (congrArg Entry.key he).symm hk
    · rename_i hpj
      rw [List.length_set] at hj
      refine ⟨⟨j, hj, he⟩, ?_⟩
      rintro rfl
      have hkj : keyAt entries j = keyAt entries p := by rw [keyAt, he]
      exact hpj (h j hj p hp hkj (by rwa [hkj])).symm
  · rintro ⟨⟨j, hj, he⟩, hne⟩
    refine ⟨j, by rwa [List.length_set], ?_⟩
    rw [entryAt_set _ _ _ _ hp, if_neg, he]
    rintro rfl
    rw [keyAt, he] at hne
    exact hne rfl

/-- Emptying a slot keeps the keys of the other entries distinct. -/
theorem DistinctKeys.clear {entries : List (Entry V)} (h : DistinctKeys entries) {p : ℕ}
    (hp : p < entries.length) : DistinctKeys (entries.set p emptyEntry) := by
  intro a ha b hb hab hz
  rw [List.length_set] at ha hb
  rw [keyAt_clear hp] at hab hz
  rw [keyAt_clear hp] at hab
  split at hab
  · rw [if_pos (by assumption)] at hz
    exact absurd rfl hz
  · rw [if_neg (by assumption)] at hz
    split at hab
    · exact absurd hab hz
    · exact h a ha b hb hab hz

/-- What holds of the empty entry and of all entries holds of all when a slot is emptied. -/
theorem forall_mem_clear {P : Entry V → Prop} {entries : List (Entry V)} (h : ∀ e ∈ entries, P e)
    (hempty : P emptyEntry) (p : ℕ) : ∀ e ∈ entries.set p emptyEntry, P e := by
  intro e he
  rcases List.mem_or_eq_of_mem_set he with he | rfl
  · exact h e he
  · exact hempty

/-- What holds of the empty entry and of all entries holds of all when an entry is moved. -/
theorem forall_mem_moveEntry {P : Entry V → Prop} {entries : List (Entry V)}
    (h : ∀ e ∈ entries, P e) (hempty : P emptyEntry) {p c : ℕ} (hc : c < entries.length) :
    ∀ e ∈ moveEntry entries p c, P e := by
  refine forall_mem_clear (fun e he => ?_) hempty c
  rcases List.mem_or_eq_of_mem_set he with he | rfl
  · exact h e he
  · rw [entryAt_eq_get hc]
    exact h _ (List.getElem_mem hc)

/-- The slots between slot `p` and the one at distance `d` below it hold entries that stay when
`p` is emptied. -/
structure StayBelow (n : ℕ) (entries : List (Entry V)) (p d : ℕ) : Prop where
  pos : 0 < d
  lt : d < n
  stays : ∀ e < n, e ≠ p → Probe.dist n p e < d → keyAt entries e ≠ 0 ∧ StaysAt n entries p e

/-- A slot at a positive distance below `p` is not `p`. -/
theorem back_ne {n p d : ℕ} (hp : p < n) (h0 : 0 < d) (hd : d < n) : back n p d ≠ p := by
  intro heq
  have := dist_back hp hd
  rw [heq] at this
  simp [Probe.dist] at this
  omega

/-- The entry below the entries that stay is the first to move, if it does not stay. -/
theorem StayBelow.firstToMove {n : ℕ} {entries : List (Entry V)} {p d : ℕ}
    (hd : StayBelow n entries p d) (hp : p < n) (hused : keyAt entries (back n p d) ≠ 0)
    (hmove : ¬ StaysAt n entries p (back n p d)) : FirstToMove n entries p (back n p d) := by
  have hdist := dist_back hp hd.lt
  refine ⟨back_lt hp hd.lt, back_ne hp hd.pos hd.lt, ?_, ?_, hmove⟩
  · intro e he hle
    rw [ne_eq, slots_eq_none]
    rw [hdist] at hle
    by_cases hed : e = d
    · rwa [hed]
    · have hen : e < n := lt_of_le_of_lt hle hd.lt
      exact (hd.stays _ (back_lt hp hen) (back_ne hp he hen) (by
        rw [dist_back hp hen]
        omega)).1
  · intro e he hep hlt
    rw [hdist] at hlt
    exact (hd.stays e he hep hlt).2

section Emptied

variable {map : Hashmap V} (h : Wf map) {p : ℕ} (hp : p < map.totalEntries)

include h hp

/-- **The loop after a slot is emptied** stops at the first slot below that is empty or holds an
entry that has to move; only the latter changes the array. -/
theorem Wf.deleteLoop_stops (hk : keyAt map.entries p ≠ 0) :
    ∃ d, StayBelow map.totalEntries map.entries p d ∧
      ((keyAt map.entries (back map.totalEntries p d) = 0 ∧
          deleteLoop (map.totalEntries - 1) map.totalEntries (map.entries.set p emptyEntry) p p =
            some (map.entries.set p emptyEntry)) ∨
        (¬ StaysAt map.totalEntries map.entries p (back map.totalEntries p d) ∧
          deleteLoop (map.totalEntries - 1) map.totalEntries (map.entries.set p emptyEntry) p p =
            some (moveEntry (map.entries.set p emptyEntry) p (back map.totalEntries p d)))) := by
  have h0 : map.totalEntries ≠ 0 := by omega
  have hcap := h.cap.resolve_left h0
  have hpl : p < map.entries.length := by rwa [h.length_eq]
  have hkeyE : ∀ j ≠ p, keyAt (map.entries.set p emptyEntry) j = keyAt map.entries j :=
    fun j hj => by rw [keyAt_clear hpl, if_neg hj.symm]
  have hstays : ∀ j ≠ p, (StaysAt map.totalEntries (map.entries.set p emptyEntry) p j ↔
      StaysAt map.totalEntries map.entries p j) := fun j hj => by
    rw [StaysAt, StaysAt, hkeyE j hj]
  -- A slot other than `p` is empty, so the loop stops before it is back at `p`.
  obtain ⟨w, hw, hwk⟩ := exists_empty (h.nFree_pos h0)
  rw [h.length_eq] at hw
  have hwp : w ≠ p := by
    rintro rfl
    exact hk hwk
  have hwd : 0 < Probe.dist map.totalEntries p w ∧
      Probe.dist map.totalEntries p w < map.totalEntries := by
    unfold Probe.dist
    split_ifs <;> omega
  have hlen : (map.entries.set p emptyEntry).length = map.totalEntries := by
    rw [List.length_set, h.length_eq]
  obtain ⟨d, hd0, hdn, hbefore, hout⟩ := deleteLoop_spec hcap hlen hp hwd.2
    (by rw [back_dist hp hw, hkeyE w hwp, hwk]) hwd.1 map.totalEntries 0 (by omega)
    (by intro d h1 h2; omega)
  rw [back_zero] at hout
  have hcp := back_ne hp hd0 hdn
  refine ⟨d, ⟨hd0, hdn, fun e he hep hlt => ?_⟩, ?_⟩
  · have hpos : 0 < Probe.dist map.totalEntries p e := by
      unfold Probe.dist
      split_ifs <;> omega
    have := hbefore _ hpos hlt
    rwa [back_dist hp he, hstays e hep, hkeyE e hep] at this
  · rwa [hkeyE _ hcp, hstays _ hcp] at hout

/-- **The branch of the empty slot**: where the next slot below the entries that stay is empty,
nothing has to move, and every other key stays reachable. -/
theorem Wf.probed_clear {d : ℕ} (hd : StayBelow map.totalEntries map.entries p d)
    (hempty : keyAt map.entries (back map.totalEntries p d) = 0)
    (hpr : Probed map.totalEntries (home map.totalEntries) (slots map.entries)) :
    Probed map.totalEntries (home map.totalEntries)
      (Function.update (slots map.entries) p none) := by
  have hcap := h.cap.resolve_left (by omega)
  apply hpr.erase (fun k => hcap.home_lt k) hp
  intro c hc hcp k hkc hrun
  have hlt : Probe.dist map.totalEntries p c < d := by
    by_contra hle
    have := hrun d hd.pos (by omega)
    rw [ne_eq, slots_eq_none] at this
    exact this hempty
  obtain ⟨hkey, -⟩ := slots_eq_some.mp hkc
  have := (hd.stays c hc hcp hlt).2
  rwa [StaysAt, hkey, staysPut_iff hc (hcap.home_lt k)] at this

/-- **The branch of the moved entry**: where no entry of the run below has to move into the slot
that it leaves, every other key stays reachable. -/
theorem Wf.probed_move (hk : keyAt map.entries p ≠ 0) {d : ℕ}
    (hd : StayBelow map.totalEntries map.entries p d)
    (hmove : ¬ StaysAt map.totalEntries map.entries p (back map.totalEntries p d))
    (hpr : Probed map.totalEntries (home map.totalEntries) (slots map.entries))
    (hone : OneMove map.totalEntries map.entries p) :
    Probed map.totalEntries (home map.totalEntries)
      (Function.update (Function.update (slots map.entries) p
        (slots map.entries (back map.totalEntries p d))) (back map.totalEntries p d) none) := by
  have hcap := h.cap.resolve_left (by omega)
  have hcp := back_ne hp hd.pos hd.lt
  have hcn := back_lt hp hd.lt
  by_cases hzero : keyAt map.entries (back map.totalEntries p d) = 0
  · -- An empty slot is copied onto the emptied one: nothing moves.
    have hnone : slots map.entries (back map.totalEntries p d) = none := slots_eq_none.mpr hzero
    have hsame : Function.update (Function.update (slots map.entries) p none)
        (back map.totalEntries p d) none = Function.update (slots map.entries) p none := by
      apply Function.update_eq_self_iff.mpr
      rw [Function.update_of_ne hcp, hnone]
    rw [hnone, hsame]
    exact h.probed_clear hp hd hzero hpr
  · have hfirst := hd.firstToMove hp hzero hmove
    obtain ⟨w, hw, hwk⟩ := exists_empty (h.nFree_pos (by omega))
    rw [h.length_eq] at hw
    have hsome := slots_eq_some.mpr ⟨rfl, hzero⟩
    rw [hsome]
    apply hpr.shift (fun k => hcap.home_lt k) hp hcn hcp hsome
      (by rw [ne_eq, slots_eq_none]; exact hk) hfirst.run
    · rwa [StaysAt, staysPut_iff hcn (hcap.home_lt _)] at hmove
    · exact ⟨w, hw, slots_eq_none.mpr hwk⟩
    · intro e he hec k hk' hrun
      have := hone _ hfirst e he hec hrun
      obtain ⟨hkey, -⟩ := slots_eq_some.mp hk'
      rwa [StaysAt, hkey, staysPut_iff he (hcap.home_lt k)] at this

/-- The slots after slot `p` is emptied and the entry of another slot is moved into it. -/
theorem Wf.slots_move {c : ℕ} (hc : c < map.totalEntries) (hcp : c ≠ p) :
    slots (moveEntry (map.entries.set p emptyEntry) p c) =
      Function.update (Function.update (slots map.entries) p (slots map.entries c)) c none := by
  have hpl : p < map.entries.length := by rwa [h.length_eq]
  have hcl : c < map.entries.length := by rwa [h.length_eq]
  have hkc : keyAt (map.entries.set p emptyEntry) c = keyAt map.entries c := by
    rw [keyAt_clear hpl, if_neg hcp.symm]
  rw [moveEntry, slots_clear (by simpa using hcl), slots_set _ _ _ (by simpa using hpl),
    slots_clear hpl, Function.update_idem]
  congr 2
  rw [slots, ← hkc]
  rfl

/-- A deletion returns the map with the array that the loop ends with, and one more free entry;
this map is well-formed if the array has the pairs of the emptied one. -/
theorem Wf.delete_of_deleteLoop (hk : keyAt map.entries p ≠ 0) {r : List (Entry V)}
    (hr : deleteLoop (map.totalEntries - 1) map.totalEntries (map.entries.set p emptyEntry) p p =
      some r)
    (hlen : r.length = map.totalEntries) (hfree : nFree r = nFree (map.entries.set p emptyEntry))
    (hdistinct : DistinctKeys r) (hpage : ∀ e ∈ r, e.key % pageSize = 0 ∧ e.key < 2 ^ 64) :
    delete map (some p) =
        .ok { map with entries := r, freeEntries := map.freeEntries + 1 } ∧
      Wf { map with entries := r, freeEntries := map.freeEntries + 1 } := by
  have h0 : map.totalEntries ≠ 0 := by omega
  have hcap := h.cap.resolve_left h0
  have hpl : p < map.entries.length := by rwa [h.length_eq]
  have hguard : map.totalEntries &&& (map.totalEntries - 1) = 0 := by
    rw [hcap.and_mask]
    exact Nat.mod_self _
  constructor
  · unfold delete
    rw [if_neg (by simpa using hguard)]
    simp only [if_neg h0, if_neg (show ¬ p ≥ map.totalEntries by omega), h.length_eq, hr]
  · refine ⟨hlen, h.cap, h.base_iff, ?_, ?_, hpage, hdistinct⟩
    · simp only [hfree, nFree_set_of_used hpl hk (show (emptyEntry : Entry V).key = 0 from rfl),
        h.free_eq]
    · have := h.room
      simp only
      omega

/-- **What a deletion does**: the key of the slot is gone, every other pair stays; and when
the deletion is handled completely, every other key stays reachable. -/
theorem delete_cases (hk : keyAt map.entries p ≠ 0) :
    ∃ map', delete map (some p) = .ok map' ∧ Wf map' ∧ map'.base = map.base ∧
      map'.totalEntries = map.totalEntries ∧
      (∀ k v, k ≠ 0 → (Contains map'.entries k v ↔
        Contains map.entries k v ∧ k ≠ keyAt map.entries p)) ∧
      (Probed map.totalEntries (home map.totalEntries) (slots map.entries) →
        OneMove map.totalEntries map.entries p →
        Probed map.totalEntries (home map.totalEntries) (slots map'.entries)) := by
  have hpl : p < map.entries.length := by rwa [h.length_eq]
  have hpage := forall_mem_clear h.page (by simp [emptyEntry]) p
  have hdistinct := h.distinct.clear hpl
  obtain ⟨d, hd, ⟨hempty, hr⟩ | ⟨hmove, hr⟩⟩ := h.deleteLoop_stops hp hk
  · obtain ⟨hdelete, hwf⟩ := h.delete_of_deleteLoop hp hk hr
      (by rw [List.length_set, h.length_eq]) rfl hdistinct hpage
    refine ⟨_, hdelete, hwf, rfl, rfl, fun k v hk0 => h.distinct.contains_clear hpl hk0, ?_⟩
    intro hpr _
    rw [slots_clear hpl]
    exact h.probed_clear hp hd hempty hpr
  · have hcn := back_lt hp hd.lt
    have hcp := back_ne hp hd.pos hd.lt
    have hpl' : p < (map.entries.set p emptyEntry).length := by simpa using hpl
    have hcl' : back map.totalEntries p d < (map.entries.set p emptyEntry).length := by
      rwa [List.length_set, h.length_eq]
    have hpk : keyAt (map.entries.set p emptyEntry) p = 0 := by rw [keyAt_clear hpl, if_pos rfl]
    obtain ⟨hdelete, hwf⟩ := h.delete_of_deleteLoop hp hk hr (by simp [moveEntry, h.length_eq])
      (nFree_moveEntry hpl' hcl' hcp.symm hpk) (hdistinct.moveEntry hpl' hcl')
      (forall_mem_moveEntry hpage (by simp [emptyEntry]) hcl')
    refine ⟨_, hdelete, hwf, rfl, rfl, fun k v hk0 => ?_, ?_⟩
    · rw [contains_moveEntry hpl' hcl' hcp.symm hpk hk0, h.distinct.contains_clear hpl hk0]
    · intro hpr hone
      rw [h.slots_move hp hcn hcp]
      exact h.probed_move hp hk hd hmove hpr hone

end Emptied

/-! ### Where entries come from -/

/-- The entry at any index is one of the array, or it is the empty one. -/
theorem entryAt_mem (entries : List (Entry V)) (i : ℕ) :
    entryAt entries i ∈ entries ∨ entryAt entries i = emptyEntry := by
  by_cases hi : i < entries.length
  · rw [entryAt_eq_get hi]
    exact .inl (List.getElem_mem hi)
  · right
    simp [entryAt, List.getD_eq_getElem?_getD, hi]

/-- The entries after copying an array into another one come from one of the two. -/
theorem rehash_mem {mask : ℕ} {old new r : List (Entry V)} (h : rehash mask old new = some r)
    {e : Entry V} (he : e ∈ r) : e ∈ old ∨ e ∈ new := by
  induction old generalizing new with
  | nil =>
      rw [rehash, Option.some.injEq] at h
      exact .inr (h ▸ he)
  | cons a old ih =>
      rw [rehash] at h
      split at h
      · rcases ih h with he | he
        · exact .inl (List.mem_cons_of_mem a he)
        · exact .inr he
      · split at h
        · exact absurd h (by simp)
        · rcases ih h with he | he
          · exact .inl (List.mem_cons_of_mem a he)
          · rcases List.mem_or_eq_of_mem_set he with he | rfl
            · exact .inr he
            · exact .inl List.mem_cons_self

/-- The entries after growing are those from before, or empty ones. -/
theorem grow_mem {src : PageSource} {map map' : Hashmap V} {ps ps' : Pages} {b : Bool}
    (h : grow src map ps = .ok (b, map', ps')) {e : Entry V} (he : e ∈ map'.entries) :
    e ∈ map.entries ∨ e = emptyEntry := by
  unfold grow at h
  split at h
  · simp only [Except.ok.injEq, Prod.mk.injEq] at h
    exact .inl (h.2.1 ▸ he)
  · generalize (if map.totalEntries = 0 then defaultSize else 2 * map.totalEntries) = n at h
    simp only at h
    split at h
    · simp only [Except.ok.injEq, Prod.mk.injEq] at h
      exact .inl (h.2.1 ▸ he)
    · split at h
      · exact absurd h (by simp)
      · rename_i hr
        simp only [Except.ok.injEq, Prod.mk.injEq] at h
        rw [← h.2.1] at he
        rcases rehash_mem hr he with he | he
        · exact .inl he
        · exact .inr (List.eq_of_mem_replicate he)

/-- **The entries after an insertion**: those of before, the new one, and empty ones. -/
theorem insert_mem {src : PageSource} {map map' : Hashmap V} {ps ps' : Pages} {ptr : ℕ}
    {value : V} {b : Bool} (h : insert src map ps ptr value = .ok (b, map', ps')) {e : Entry V}
    (he : e ∈ map'.entries) :
    e ∈ map.entries ∨ e = emptyEntry ∨ e = ⟨getPage ptr, value⟩ := by
  have hgrow : ∀ {b m q}, growIfNeeded src map ps = .ok (b, m, q) → e ∈ m.entries →
      e ∈ map.entries ∨ e = emptyEntry := by
    intro b m q hg hm
    unfold growIfNeeded at hg
    split at hg
    · exact grow_mem hg hm
    · simp only [Except.ok.injEq, Prod.mk.injEq] at hg
      exact .inl (hg.2.1 ▸ hm)
  unfold insert at h
  split at h
  · simp only [Except.ok.injEq, Prod.mk.injEq] at h
    exact .inl (h.2.1 ▸ he)
  · split at h
    · exact absurd h (by simp)
    · rename_i hg
      simp only [Except.ok.injEq, Prod.mk.injEq] at h
      exact (hgrow hg (h.2.1 ▸ he)).imp_right .inl
    · rename_i hg
      simp only at h
      split at h
      · exact absurd h (by simp)
      · simp only [Except.ok.injEq, Prod.mk.injEq] at h
        rw [← h.2.1] at he
        rcases List.mem_or_eq_of_mem_set he with he | he
        · exact (hgrow hg he).imp_right .inl
        · exact .inr (.inr he)

/-- The entries after the loop of a deletion are those from before, or empty ones. -/
theorem deleteLoop_mem {mask fuel cur prev : ℕ} {entries r : List (Entry V)}
    (h : deleteLoop mask fuel entries cur prev = some r) {e : Entry V} (he : e ∈ r) :
    e ∈ entries ∨ e = emptyEntry := by
  induction fuel generalizing entries cur prev with
  | zero => exact absurd h (by simp [deleteLoop])
  | succ fuel ih =>
      have hset : ∀ {i j : ℕ} {x : Entry V},
          x ∈ (entries.set i (entryAt entries j)).set j emptyEntry →
          x ∈ entries ∨ x = emptyEntry := by
        intro i j x hx
        rcases List.mem_or_eq_of_mem_set hx with hx | rfl
        · rcases List.mem_or_eq_of_mem_set hx with hx | rfl
          · exact .inl hx
          · exact entryAt_mem entries j
        · exact .inr rfl
      rw [deleteLoop] at h
      simp only at h
      split at h
      · split at h
        · exact ih h
        · exact .inl ((Option.some.inj h) ▸ he)
      · split at h
        · exact (ih h).elim hset .inr
        · exact hset ((Option.some.inj h) ▸ he)

/-- **The entries after a deletion** are those of before, and empty ones. -/
theorem delete_mem {map map' : Hashmap V} {entry : Option ℕ} (h : delete map entry = .ok map')
    {e : Entry V} (he : e ∈ map'.entries) : e ∈ map.entries ∨ e = emptyEntry := by
  unfold delete at h
  split at h
  · exact absurd h (by simp)
  · cases entry with
    | none => exact .inl ((Except.ok.inj h) ▸ he)
    | some cur =>
        simp only at h
        split at h
        · exact .inl ((Except.ok.inj h) ▸ he)
        · split at h
          · exact absurd h (by simp)
          · split at h
            · exact absurd h (by simp)
            · rename_i hr
              rw [← Except.ok.inj h] at he
              rcases deleteLoop_mem hr he with he | he
              · rcases List.mem_or_eq_of_mem_set he with he | rfl
                · exact .inl he
                · exact .inr rfl
              · exact .inr he

end MugOS.Hashmap
