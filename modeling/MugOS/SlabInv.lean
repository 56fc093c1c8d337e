import MugOS.SlabGeometry
import MugOS.LinkedListFamily
import MugOS.HashmapSpec
import MugOS.Lib.Outcome

/-!
# The Invariant of the Slab Allocator

What holds of the allocator between its calls, over a layout that says which caches there are,
which slabs they have in which list, which objects of a slab are free, and what a page is used
for.

A slab is *loose* while it belongs to a cache without being in a list of it: while it is made or
taken apart, and for ever when the hash map could not take in its pages.

## Main results

* `Inv`: the invariant.
* `Inv.object_unique`, `Inv.object_apart`: objects have their bytes for themselves.
* `Inv.find_object_probed`: a lookup of an object finds the slab of the object.
-/

namespace MugOS.SlabAllocator

open LinkedList Hashmap

/-! ### Layouts -/

/-- What a page is used for: the table of the hash map, or a slab of a cache. -/
inductive Owner
  | table
  | slab (c : CacheRef) (addr : ℕ)
  deriving DecidableEq

/-- The caches and slabs that the state stands for. -/
structure Layout where
  /-- the caches that are initialised -/
  caches : CacheRef → Prop
  /-- the caches of `m_caches` -/
  order : List CacheRef
  /-- the slabs in the lists of the caches -/
  lists : CacheRef → SlabList → List ℕ
  /-- the slabs that are in no list -/
  loose : CacheRef → ℕ → Prop
  /-- the free objects of a slab, in the order in which they are linked -/
  free : ℕ → List ℕ
  owner : ℕ → Option Owner

/-- The slab is in one of the lists of the cache. -/
def Layout.Linked (L : Layout) (c : CacheRef) (a : ℕ) : Prop := ∃ list, a ∈ L.lists c list

/-- The slab belongs to the cache: it is in one of its lists, or loose. -/
def Layout.SlabOf (L : Layout) (c : CacheRef) (a : ℕ) : Prop := L.Linked c a ∨ L.loose c a

/-- The heads of the lists: that of all caches, and three for each cache. -/
def Layout.heads (L : Layout) : Node → Prop
  | .caches => True
  | .slabs c _ => L.caches c
  | _ => False

/-- The nodes of the lists: the caches, and the slabs of each list of slabs. -/
def Layout.nodes (L : Layout) : Node → List Node
  | .caches => L.order.map .cache
  | .slabs c list => (L.lists c list).map .slab
  | _ => []

/-- The index list from an index on, up to the marker. -/
def Chain (next : ℕ → ℕ) : ℕ → List ℕ → Prop
  | i, [] => i = slabEndlistMarker
  | i, x :: xs => i = x ∧ Chain next (next x) xs

/-- The list in which a slab belongs that has these free objects. -/
def kindOf (nObjects : ℕ) (free : List ℕ) : SlabList :=
  if free = [] then .fullSlabs
  else if free.length = nObjects then .emptySlabs
  else .partialSlabs

/-- The first page of a slab, the one with its first object. -/
def State.base (s : State) (a : ℕ) : ℕ := getPage (s.slabs a).payload

/-- The cache in which the header of a slab is an object. -/
def Cache.headerCache (cache : Cache) : ℕ :=
  getKmallocCache (sizeofSlab + getSlabFreelistSize cache.nObjects)

/-- The pages of a slab: they are owned by it, and hold its objects and its header. -/
structure Placed (s : State) (L : Layout) (c : CacheRef) (a : ℕ) : Prop where
  cache : L.caches c
  base_ne : s.base a ≠ 0
  payload_eq : (s.slabs a).payload = s.base a + (s.caches c).offset
  fits : s.base a + (s.caches c).nPages * pageSize ≤ 2 ^ 64
  holds : ∀ q ∈ pages (s.base a) (s.caches c).nPages, L.owner q = some (.slab c a)
  onslab : (s.caches c).offslab = false → a = s.base a

/-- The header of a slab that is in a list: its chain has the free objects, and its counter the
others. -/
structure SlabWf (cache : Cache) (c : CacheRef) (list : SlabList) (slab : Slab) (free : List ℕ) :
    Prop where
  owner : slab.owner = some c
  chain : Chain slab.freeObjects slab.firstFree free
  nodup : free.Nodup
  lt : ∀ i ∈ free, i < cache.nObjects
  count : slab.nAllocated + free.length = cache.nObjects
  kind : list = kindOf cache.nObjects free

/-- The object `i` of a slab in a list, with its address. -/
structure Object (s : State) (L : Layout) (c : CacheRef) (p a i : ℕ) : Prop where
  linked : L.Linked c a
  lt : i < (s.caches c).nObjects
  ptr_eq : p = (s.slabs a).payload + i * (s.caches c).objSize

/-- An object that is in use: one of a slab in a list, and not a free one. -/
def Allocated (s : State) (L : Layout) (c : CacheRef) (p : ℕ) : Prop :=
  ∃ a i, Object s L c p a i ∧ i ∉ L.free a

/-- The objects that the allocator uses itself: headers of slabs, and caches. -/
inductive Hidden (s : State) (L : Layout) : CacheRef → ℕ → Prop
  | header {c : CacheRef} {a : ℕ} (hslab : L.SlabOf c a) (hoff : (s.caches c).offslab = true) :
      Hidden s L (.kmalloc (s.caches c).headerCache) a
  | cache {p : ℕ} (hcache : L.caches (.created p)) : Hidden s L .cacheCache p

/-- **The invariant of the slab allocator**: its map, the owners of its pages, its slabs and
its lists. -/
structure Inv (s : State) (L : Layout) : Prop where
  map : s.hashmap.Wf
  owned : ∀ q o, L.owner q = some o → q ∈ s.pages.owned
  table : ∀ q ∈ pages s.hashmap.base (mapPages s.hashmap), L.owner q = some .table
  keys : ∀ k v, k ≠ 0 → Contains s.hashmap.entries k v →
    ∃ c, L.SlabOf c v ∧ k ∈ pages (s.base v) (s.caches c).nPages
  registered : ∀ c a, L.Linked c a → ∀ q ∈ pages (s.base a) (s.caches c).nPages,
    Contains s.hashmap.entries q a
  static : ∀ i < kmallocNCaches, L.caches (.kmalloc i) ∧
    s.caches (.kmalloc i) = geometry (kmallocMinCacheSize * 2 ^ i) false
  cacheCache : L.caches .cacheCache
  wf : ∀ c, L.caches c → (s.caches c).Wf
  order : ∀ c ∈ L.order, L.caches c
  nCaches : L.order.length = s.nCaches
  rings : Rings s.links L.heads L.nodes
  apart : ∀ c a, L.Linked c a → ¬ L.loose c a
  placed : ∀ c a, L.SlabOf c a → Placed s L c a
  slabs : ∀ c list a, a ∈ L.lists c list →
    SlabWf (s.caches c) c list (s.slabs a) (L.free a)
  hidden : ∀ c p, Hidden s L c p → Allocated s L c p

/-- No page of a slab is the page at address 0. -/
theorem Placed.page_ne_zero {s : State} {L : Layout} {c : CacheRef} {a q : ℕ} (h : Placed s L c a)
    (hq : q ∈ pages (s.base a) (s.caches c).nPages) : q ≠ 0 := by
  obtain ⟨k, -, rfl⟩ := mem_pages.mp hq
  have := h.base_ne
  omega

/-- The pages of a slab stay where they are when its payload, its cache and the owner of its pages
stay the same. -/
theorem Placed.congr {s s' : State} {L L' : Layout} {c : CacheRef} {a : ℕ} (h : Placed s L c a)
    (hcache : s'.caches c = s.caches c) (hpayload : (s'.slabs a).payload = (s.slabs a).payload)
    (hknown : L.caches c → L'.caches c)
    (howner : ∀ q, L.owner q = some (.slab c a) → L'.owner q = some (.slab c a)) :
    Placed s' L' c a := by
  have hbase : s'.base a = s.base a := by rw [State.base, hpayload, State.base]
  refine ⟨hknown h.cache, ?_, ?_, ?_, ?_, ?_⟩
  · rw [hbase]
    exact h.base_ne
  · rw [hbase, hpayload, hcache]
    exact h.payload_eq
  · rw [hbase, hcache]
    exact h.fits
  · rw [hbase, hcache]
    exact fun q hq => howner q (h.holds q hq)
  · rw [hbase, hcache]
    exact h.onslab

/-! ### Chains -/

/-- A chain does not depend on the links of other indices. -/
theorem Chain.congr {next next' : ℕ → ℕ} {i : ℕ} {xs : List ℕ} (h : Chain next i xs)
    (hsame : ∀ x ∈ xs, next' x = next x) : Chain next' i xs := by
  induction xs generalizing i with
  | nil => exact h
  | cons x xs ih =>
      refine ⟨h.1, ?_⟩
      rw [hsame x (by simp)]
      exact ih h.2 fun y hy => hsame y (List.mem_cons_of_mem x hy)

/-- The first index is the marker exactly when the chain is empty. -/
theorem Chain.eq_marker_iff {next : ℕ → ℕ} {i : ℕ} {xs : List ℕ} (h : Chain next i xs)
    (hlt : ∀ x ∈ xs, x < slabEndlistMarker) : i = slabEndlistMarker ↔ xs = [] := by
  cases xs with
  | nil => simpa [Chain] using h
  | cons x xs =>
      have := hlt x (by simp)
      have := h.1
      constructor
      · omega
      · simp

/-- The chain that `allocateSlab` writes goes through all objects of the slab, in order. -/
theorem chain_newSlab {old : Slab} {payload nObjects : ℕ} (hpos : 0 < nObjects) :
    Chain (newSlab old payload nObjects).freeObjects 0 (List.range nObjects) := by
  have hfrom : ∀ k j, j + (k + 1) = nObjects →
      Chain (newSlab old payload nObjects).freeObjects j (List.range' j (k + 1)) := by
    intro k
    induction k with
    | zero =>
        intro j hj
        refine ⟨rfl, ?_⟩
        simp only [newSlab]
        rw [if_neg (by omega), if_pos (by omega)]
        rfl
    | succ k ih =>
        intro j hj
        rw [List.range'_succ]
        refine ⟨rfl, ?_⟩
        simp only [newSlab]
        rw [if_pos (by omega)]
        exact ih (j + 1) (by omega)
  obtain ⟨k, rfl⟩ : ∃ k, nObjects = k + 1 := ⟨nObjects - 1, by omega⟩
  rw [List.range_eq_range']
  exact hfrom k 0 (by omega)

/-! ### Consequences -/

section

variable {s : State} {L : Layout} (h : Inv s L)

include h

/-- The first page of a slab is one of its pages. -/
theorem Inv.base_mem {c : CacheRef} {a : ℕ} (ha : L.SlabOf c a) :
    s.base a ∈ pages (s.base a) (s.caches c).nPages :=
  mem_pages.mpr ⟨0, (h.wf c (h.placed c a ha).cache).nPages_pos, by simp⟩

/-- **A slab belongs to one cache**, the one under which it is known. -/
theorem Inv.slab_unique {c c' : CacheRef} {a : ℕ} (ha : L.SlabOf c a) (ha' : L.SlabOf c' a) :
    c = c' := by
  have hown := (h.placed c a ha).holds _ (h.base_mem ha)
  have hown' := (h.placed c' a ha').holds _ (h.base_mem ha')
  rw [hown] at hown'
  simp only [Option.some.injEq, Owner.slab.injEq] at hown'
  exact hown'.1

/-- Slabs that share a page are the same slab, of the same cache. -/
theorem Inv.page_unique {c c' : CacheRef} {a a' q : ℕ} (ha : L.SlabOf c a) (ha' : L.SlabOf c' a')
    (hq : q ∈ pages (s.base a) (s.caches c).nPages)
    (hq' : q ∈ pages (s.base a') (s.caches c').nPages) : c = c' ∧ a = a' := by
  have hown := (h.placed c a ha).holds q hq
  rw [(h.placed c' a' ha').holds q hq'] at hown
  simp only [Option.some.injEq, Owner.slab.injEq] at hown
  exact ⟨hown.1.symm, hown.2.symm⟩

/-- **A linked slab is in one list** of one cache. -/
theorem Inv.list_unique {c c' : CacheRef} {list list' : SlabList} {a : ℕ} (ha : a ∈ L.lists c list)
    (ha' : a ∈ L.lists c' list') : c = c' ∧ list = list' := by
  obtain rfl := h.slab_unique (.inl ⟨list, ha⟩) (.inl ⟨list', ha'⟩)
  exact ⟨rfl, (h.slabs c list a ha).kind.trans (h.slabs c list' a ha').kind.symm⟩

/-- The free objects of a linked slab are fewer than the marker. -/
theorem Inv.free_lt_marker {c : CacheRef} {list : SlabList} {a : ℕ} (ha : a ∈ L.lists c list) :
    ∀ i ∈ L.free a, i < slabEndlistMarker := by
  intro i hi
  have hlt := (h.slabs c list a ha).lt i hi
  have hfew := (h.wf c (h.placed c a (.inl ⟨list, ha⟩)).cache).few
  simp only [slabEndlistMarker]
  omega

/-! ### Objects -/

/-- The bytes of an object are in the pages of its slab, behind the header. -/
theorem Inv.object_bounds {c : CacheRef} {p a i : ℕ} (ho : Object s L c p a i) :
    s.base a + (s.caches c).offset ≤ p ∧
      p + (s.caches c).objSize ≤ s.base a + (s.caches c).nPages * pageSize := by
  have hplaced := h.placed c a (.inl ho.linked)
  have hfits := (h.wf c hplaced.cache).fits
  have hmul : (i + 1) * (s.caches c).objSize ≤ (s.caches c).nObjects * (s.caches c).objSize :=
    Nat.mul_le_mul_right _ ho.lt
  rw [Nat.succ_mul] at hmul
  rw [ho.ptr_eq, hplaced.payload_eq]
  omega

omit h in
/-- An address in a range of pages is in one of the pages. -/
theorem getPage_mem_pages {base n p : ℕ} (hbase : base % pageSize = 0) (hle : base ≤ p)
    (hlt : p < base + n * pageSize) : getPage p ∈ pages base n := by
  refine mem_pages.mpr ⟨(p - base) / pageSize, ?_, ?_⟩
  · simp only [pageSize] at *
    omega
  · simp only [getPage, pageSize] at *
    omega

omit h in
/-- The first page of a slab is a page address. -/
theorem base_aligned (s : State) (a : ℕ) : s.base a % pageSize = 0 := by
  simp only [State.base, getPage, pageSize]
  omega

/-- The page of the address of an object is one of the pages of its slab. -/
theorem Inv.object_page {c : CacheRef} {p a i : ℕ} (ho : Object s L c p a i) :
    getPage p ∈ pages (s.base a) (s.caches c).nPages := by
  have hbounds := h.object_bounds ho
  have hpos := (h.wf c (h.placed c a (.inl ho.linked)).cache).objSize_pos
  exact getPage_mem_pages (base_aligned s a) (by omega) (by omega)

/-- The address of an object is not zero, so it differs from a failed request. -/
theorem Inv.object_ne_zero {c : CacheRef} {p a i : ℕ} (ho : Object s L c p a i) : p ≠ 0 := by
  have hbounds := h.object_bounds ho
  have hbase := (h.placed c a (.inl ho.linked)).base_ne
  omega

/-- An object ends within the address space, so that the addresses of its bytes do not wrap. -/
theorem Inv.object_lt {c : CacheRef} {p a i : ℕ} (ho : Object s L c p a i) :
    p + (s.caches c).objSize ≤ 2 ^ 64 := by
  have hbounds := h.object_bounds ho
  have hfits := (h.placed c a (.inl ho.linked)).fits
  omega

/-- **Objects are apart**: two objects of slabs in lists are the same or have no byte in
common. -/
theorem Inv.object_apart {c c' : CacheRef} {p p' a a' i i' : ℕ} (ho : Object s L c p a i)
    (ho' : Object s L c' p' a' i') :
    (c = c' ∧ a = a' ∧ i = i') ∨ p + (s.caches c).objSize ≤ p' ∨
      p' + (s.caches c').objSize ≤ p := by
  by_cases ha : a = a'
  · subst ha
    obtain rfl := h.slab_unique (.inl ho.linked) (.inl ho'.linked)
    rcases Nat.lt_trichotomy i i' with hi | hi | hi
    · have hmul := Nat.mul_le_mul_right (s.caches c).objSize (Nat.succ_le_of_lt hi)
      rw [Nat.succ_mul] at hmul
      have := ho.ptr_eq
      have := ho'.ptr_eq
      omega
    · exact .inl ⟨rfl, rfl, hi⟩
    · have hmul := Nat.mul_le_mul_right (s.caches c).objSize (Nat.succ_le_of_lt hi)
      rw [Nat.succ_mul] at hmul
      have := ho.ptr_eq
      have := ho'.ptr_eq
      omega
  · -- The two ranges of pages are apart: of two that overlap, one begins in the other.
    have hb := h.object_bounds ho
    have hb' := h.object_bounds ho'
    have hal := base_aligned s a
    have hal' := base_aligned s a'
    rcases Nat.le_total (s.base a) (s.base a') with hle | hle
    · have hge : s.base a + (s.caches c).nPages * pageSize ≤ s.base a' := by
        by_contra hlt
        have hmem := getPage_mem_pages (n := (s.caches c).nPages) hal hle (by omega)
        have hself : getPage (s.base a') = s.base a' := by
          simp only [getPage, pageSize] at *
          omega
        rw [hself] at hmem
        exact ha (h.page_unique (.inl ho.linked) (.inl ho'.linked) hmem
          (h.base_mem (.inl ho'.linked))).2
      omega
    · have hge : s.base a' + (s.caches c').nPages * pageSize ≤ s.base a := by
        by_contra hlt
        have hmem := getPage_mem_pages (n := (s.caches c').nPages) hal' hle (by omega)
        have hself : getPage (s.base a) = s.base a := by
          simp only [getPage, pageSize] at *
          omega
        rw [hself] at hmem
        exact ha (h.page_unique (.inl ho.linked) (.inl ho'.linked)
          (h.base_mem (.inl ho.linked)) hmem).2
      omega

/-- **An address is that of one object**: it determines the cache, the slab and the number in
it. -/
theorem Inv.object_unique {c c' : CacheRef} {p a a' i i' : ℕ} (ho : Object s L c p a i)
    (ho' : Object s L c' p a' i') : c = c' ∧ a = a' ∧ i = i' := by
  have hpos := (h.wf c (h.placed c a (.inl ho.linked)).cache).objSize_pos
  have hpos' := (h.wf c' (h.placed c' a' (.inl ho'.linked)).cache).objSize_pos
  rcases h.object_apart ho ho' with hsame | hlt | hlt
  · exact hsame
  · omega
  · omega

/-- A lookup in a probed map finds the slab of an object. -/
theorem Inv.find_object_probed {c : CacheRef} {p a i : ℕ} (ho : Object s L c p a i)
    (hpr : Probe.Probed s.hashmap.totalEntries (home s.hashmap.totalEntries)
      (slots s.hashmap.entries)) :
    ∃ e, s.hashmap.find p = .ok (some e) ∧ (entryAt s.hashmap.entries e).value = a := by
  have hpage := h.object_page ho
  obtain ⟨e, he, hentry⟩ := h.registered c a ho.linked _ hpage
  have hne : getPage p ≠ 0 := by
    obtain ⟨k, -, hk⟩ := mem_pages.mp hpage
    have := (h.placed c a (.inl ho.linked)).base_ne
    omega
  rw [h.map.length_eq] at he
  exact ⟨e, find_hit h.map hpr he (by rw [keyAt, hentry]) hne, by rw [hentry]⟩

/-- **An object in use that the allocator does not use itself is not the header of a slab.** -/
theorem Inv.not_slab {c c' : CacheRef} {p : ℕ} (ha : Allocated s L c p) (hh : ¬ Hidden s L c p) :
    ¬ L.SlabOf c' p := by
  intro hslab
  obtain ⟨a, i, ho, hfree⟩ := ha
  cases hoff : (s.caches c').offslab with
  | true =>
      obtain ⟨a', i', ho', -⟩ := h.hidden _ _ (.header hslab hoff)
      obtain ⟨rfl, -⟩ := h.object_unique ho ho'
      exact hh (.header hslab hoff)
  | false =>
      -- The object would begin where the slab it is in begins.
      have hbase := (h.placed c' p hslab).onslab hoff
      have hpage : getPage p = s.base p := by
        have hal := base_aligned s p
        simp only [getPage, pageSize] at *
        omega
      have hmem : getPage p ∈ pages (s.base p) (s.caches c').nPages := by
        rw [hpage]
        exact h.base_mem hslab
      obtain ⟨rfl, rfl⟩ := h.page_unique (.inl ho.linked) hslab (h.object_page ho) hmem
      have hbounds := h.object_bounds ho
      have hoffset := Cache.offset_ge hoff
      simp only [sizeofSlab] at hoffset
      omega

end

end MugOS.SlabAllocator
