import MugOS.SlabInv
import Mathlib.Data.Set.Insert

/-!
# Taking Objects from Slabs and Giving Them Back

An object that is taken or given back changes the free list of its slab, and the slab moves to
another list of its cache when it was empty or full, or becomes so. The code decides this by what
the slab was and what it has become; as a slab has at least two objects, this is the list in
which the slab belongs by its free objects.

## Main results

* `Inv.put`: another free list of a slab, and the list in which the slab then belongs.
* `mallocPartial_spec`, `mallocEmpty_spec`: an object is taken.
* `freeCacheInSlab_spec`: an object is given back.
-/

namespace MugOS.SlabAllocator

open LinkedList Hashmap

/-! ### Layouts of which one slab changes -/

/-- The free objects of a slab change, and the slab moves to another list of its cache, if that is
another one. -/
def Layout.put (L : Layout) (c : CacheRef) (a : ℕ) (list list' : SlabList) (free : List ℕ) :
    Layout :=
  { L with
    lists := if list = list' then L.lists else
      Function.update L.lists c
        (Function.update (Function.update (L.lists c) list ((L.lists c list).erase a)) list'
          (a :: L.lists c list'))
    free := Function.update L.free a free }

/-- Another header of a slab, other links and other records. -/
def State.relink (s : State) (a : ℕ) (slab : Slab) (links : Links Node) (carved : ℕ → ℕ) : State :=
  { s.setSlab a slab with links := links, carved := carved }

/-- The objects that are in use and that the allocator does not use itself. -/
def liveObjects (s : State) (L : Layout) : Set (CacheRef × ℕ) :=
  {x | Allocated s L x.1 x.2 ∧ ¬ Hidden s L x.1 x.2}

/-- An object is in use if it is allocated and not hidden, as the header of a slab would be. -/
theorem mem_liveObjects {s : State} {L : Layout} {c : CacheRef} {p : ℕ} :
    (c, p) ∈ liveObjects s L ↔ Allocated s L c p ∧ ¬ Hidden s L c p := Iff.rfl

/-- The slab of every object that is in use was recorded when the object was taken. -/
def Recorded (s : State) (L : Layout) : Prop :=
  ∀ c p a i, Object s L c p a i → i ∉ L.free a → s.carved p = a

/-- A slab is an element of a list of nodes if and only if it is in the list of slabs. -/
theorem slab_mem_nodes {L : Layout} {c : CacheRef} {list : SlabList} {a : ℕ} :
    Node.slab a ∈ L.nodes (.slabs c list) ↔ a ∈ L.lists c list := by
  simp [Layout.nodes]

/-- Different indices below a bound are not more than the bound. -/
theorem length_le_of_nodup_lt {xs : List ℕ} {n : ℕ} (hnodup : xs.Nodup) (hlt : ∀ x ∈ xs, x < n) :
    xs.length ≤ n := by
  have hsub : xs ⊆ List.range n := fun x hx => List.mem_range.mpr (hlt x hx)
  have hle := (hnodup.subperm hsub).length_le
  rwa [List.length_range] at hle

/-- The objects that the allocator uses itself, when the slabs and the caches are the same. -/
theorem Hidden.congr {s s' : State} {L L' : Layout} {c : CacheRef} {p : ℕ} (h : Hidden s' L' c p)
    (hcaches : s'.caches = s.caches) (hslab : ∀ c a, L'.SlabOf c a → L.SlabOf c a)
    (hcreated : ∀ c, L'.caches c → L.caches c) : Hidden s L c p := by
  cases h with
  | header ha hoff =>
      rw [hcaches] at hoff ⊢
      exact .header (hslab _ _ ha) hoff
  | cache hp => exact .cache (hcreated _ hp)

/-- An object is still one if its cache is the same and its slab is still linked, with the same
payload. -/
theorem Object.congr {s s' : State} {L L' : Layout} {c : CacheRef} {p a i : ℕ}
    (h : Object s L c p a i) (hcaches : s'.caches = s.caches) (hlinked : L'.Linked c a)
    (hpayload : (s'.slabs a).payload = (s.slabs a).payload) : Object s' L' c p a i where
  linked := hlinked
  lt := by
    rw [hcaches]
    exact h.lt
  ptr_eq := by
    rw [hcaches, hpayload]
    exact h.ptr_eq

section

variable {s : State} {L : Layout} (h : Inv s L)

include h

/-- No slab is twice in a list of a cache that is known. -/
theorem Inv.nodup_list {c : CacheRef} {list : SlabList} (hc : L.caches c) :
    (L.lists c list).Nodup := by
  have hring := (h.rings.ring (.slabs c list) hc).nodup
  exact (List.nodup_cons.mp hring).2.of_map

/-- **A slab of the changed layout** is the one that was put, in its new list, or another one
where it was. -/
theorem Inv.mem_put {c c' : CacheRef} {a b : ℕ} {list list' l : SlabList} {free : List ℕ}
    (ha : a ∈ L.lists c list) (hb : b ∈ (L.put c a list list' free).lists c' l) :
    b = a ∧ c' = c ∧ l = list' ∨ b ≠ a ∧ b ∈ L.lists c' l := by
  have hstay : b ∈ L.lists c' l → b = a → c' = c ∧ l = list := by
    rintro hmem rfl
    exact h.list_unique hmem ha
  by_cases hsame : list = list'
  · subst hsame
    simp only [Layout.put, if_true] at hb
    by_cases hba : b = a
    · exact .inl ⟨hba, hstay hb hba⟩
    · exact .inr ⟨hba, hb⟩
  · simp only [Layout.put, if_neg hsame] at hb
    by_cases hc : c' = c
    · subst hc
      rw [Function.update_self] at hb
      by_cases hl' : l = list'
      · subst hl'
        rw [Function.update_self, List.mem_cons] at hb
        rcases hb with rfl | hb
        · exact .inl ⟨rfl, rfl, rfl⟩
        · refine .inr ⟨fun hba => hsame (hstay hb hba).2.symm, hb⟩
      · rw [Function.update_of_ne hl'] at hb
        by_cases hl : l = list
        · subst hl
          have hcache := (h.placed c' a (.inl ⟨l, ha⟩)).cache
          rw [Function.update_self, (h.nodup_list hcache).mem_erase_iff] at hb
          exact .inr hb
        · rw [Function.update_of_ne hl] at hb
          exact .inr ⟨fun hba => hl (hstay hb hba).2, hb⟩
    · rw [Function.update_of_ne hc] at hb
      exact .inr ⟨fun hba => hc (hstay hb hba).1, hb⟩

omit h in
/-- The slabs of a cache are the same in the changed layout. -/
theorem put_linked {c c' : CacheRef} {a b : ℕ} {list list' : SlabList} {free : List ℕ}
    (ha : a ∈ L.lists c list) : (L.put c a list list' free).Linked c' b ↔ L.Linked c' b := by
  by_cases hsame : list = list'
  · simp [Layout.Linked, Layout.put, hsame]
  by_cases hc : c' = c
  · subst hc
    simp only [Layout.Linked, Layout.put, if_neg hsame, Function.update_self]
    constructor
    · rintro ⟨l, hb⟩
      by_cases hl' : l = list'
      · subst hl'
        rw [Function.update_self, List.mem_cons] at hb
        rcases hb with rfl | hb
        · exact ⟨list, ha⟩
        · exact ⟨l, hb⟩
      · rw [Function.update_of_ne hl'] at hb
        by_cases hl : l = list
        · subst hl
          rw [Function.update_self] at hb
          exact ⟨l, List.mem_of_mem_erase hb⟩
        · rw [Function.update_of_ne hl] at hb
          exact ⟨l, hb⟩
    · rintro ⟨l, hb⟩
      by_cases hba : b = a
      · subst hba
        exact ⟨list', by simp⟩
      · by_cases hl' : l = list'
        · subst hl'
          exact ⟨l, by simp [hb]⟩
        · refine ⟨l, ?_⟩
          rw [Function.update_of_ne hl']
          by_cases hl : l = list
          · subst hl
            rw [Function.update_self]
            exact (List.mem_erase_of_ne hba).mpr hb
          · rwa [Function.update_of_ne hl]
  · simp [Layout.Linked, Layout.put, hsame, Function.update_of_ne hc]

omit h in
/-- Every slab belongs to the same cache in the changed layout. -/
theorem put_slabOf {c c' : CacheRef} {a b : ℕ} {list list' : SlabList} {free : List ℕ}
    (ha : a ∈ L.lists c list) : (L.put c a list list' free).SlabOf c' b ↔ L.SlabOf c' b :=
  or_congr_left (put_linked ha)

omit h in
/-- When the slab stays in its list, the lists are those of before. -/
theorem nodes_put_same (c : CacheRef) (a : ℕ) (list : SlabList) (free : List ℕ) :
    (L.put c a list list free).nodes = L.nodes := by
  funext x
  cases x <;> simp [Layout.nodes, Layout.put]

omit h in
/-- When the slab moves, it leaves its old list and stands in front of its new one; all others
are as before. -/
theorem nodes_put {c : CacheRef} {a : ℕ} {list list' : SlabList} {free : List ℕ}
    (hne : list ≠ list') : (L.put c a list list' free).nodes =
      Function.update (Function.update L.nodes (.slabs c list)
        ((L.nodes (.slabs c list)).erase (.slab a))) (.slabs c list')
        (.slab a :: L.nodes (.slabs c list')) := by
  have herase : ((L.lists c list).map Node.slab).erase (.slab a) =
      ((L.lists c list).erase a).map .slab :=
    (List.map_erase (fun x y hxy => Node.slab.inj hxy) (L.lists c list)).symm
  funext x
  cases x with
  | caches => simp [Layout.nodes, Layout.put]
  | cache c' => simp [Layout.nodes]
  | slab b => simp [Layout.nodes]
  | slabs c' l =>
      by_cases hc : c' = c
      · subst hc
        by_cases hl' : l = list'
        · subst hl'
          simp [Layout.nodes, Layout.put, hne]
        · by_cases hl : l = list
          · subst hl
            simp [Layout.nodes, Layout.put, hne, herase]
          · simp [Layout.nodes, Layout.put, hne, hl, hl']
      · simp [Layout.nodes, Layout.put, hne, hc]

/-- **The slab moves** from its list to another one by a pop and a push, which both succeed. -/
theorem Inv.move {c : CacheRef} {a : ℕ} {list list' : SlabList} (ha : a ∈ L.lists c list)
    (hne : list ≠ list') (free : List ℕ) :
    ∃ l₁ l₂, pop s.links (.slabs c list) (.slab a) = .ok l₁ ∧
      pushFront l₁ (.slabs c list') (.slab a) = .ok l₂ ∧
      Rings l₂ L.heads (L.put c a list list' free).nodes := by
  have hhead : ∀ l, L.heads (.slabs c l) := fun _ => (h.placed c a (.inl ⟨list, ha⟩)).cache
  have hlists : Node.slabs c list' ≠ .slabs c list := fun heq => hne (Node.slabs.inj heq).2.symm
  obtain ⟨l₁, l₂, hpop, hpush, hrings⟩ :=
    h.rings.move (hhead list) (hhead list') hlists (slab_mem_nodes.mpr ha)
  exact ⟨l₁, l₂, hpop, hpush, by rwa [nodes_put hne]⟩

/-- **The invariant after a change of one slab**: its header is well formed for the free objects and
the list that it then has, and what the allocator uses itself stays in use. -/
theorem Inv.put {c : CacheRef} {a : ℕ} {list list' : SlabList} {slab : Slab} {free : List ℕ}
    {links : Links Node} (carved : ℕ → ℕ) (ha : a ∈ L.lists c list)
    (hslab : SlabWf (s.caches c) c list' slab free)
    (hpayload : slab.payload = (s.slabs a).payload)
    (hlinks : Rings links L.heads (L.put c a list list' free).nodes)
    (hhidden : ∀ c' p i, Hidden s L c' p → Object s L c' p a i → i ∉ free) :
    Inv (s.relink a slab links carved)
      (L.put c a list list' free) := by
  set s' : State := s.relink a slab links carved with hs'
  have hpay : ∀ b, (s'.slabs b).payload = (s.slabs b).payload := by
    intro b
    by_cases hb : b = a
    · subst hb
      rw [← hpayload]
      simp [hs', State.relink, State.setSlab]
    · simp [hs', State.relink, State.setSlab, hb]
  have hbase : ∀ b, s'.base b = s.base b := fun b => by rw [State.base, hpay, State.base]
  have hof : ∀ c' b, (L.put c a list list' free).SlabOf c' b ↔ L.SlabOf c' b :=
    fun c' b => put_slabOf ha
  refine
    { map := h.map
      owned := h.owned
      table := h.table
      keys := fun k v hk hkv => ?_
      registered := fun c' b hb q hq => ?_
      static := h.static
      cacheCache := h.cacheCache
      wf := h.wf
      order := h.order
      nCaches := h.nCaches
      rings := hlinks
      apart := fun c' b hb => h.apart c' b ((put_linked ha).mp hb)
      placed := fun c' b hb => ?_
      slabs := fun c' l b hb => ?_
      hidden := fun c' p hp => ?_ }
  · obtain ⟨c', hv, hmem⟩ := h.keys k v hk hkv
    exact ⟨c', (hof c' v).mpr hv, by rw [hbase]; exact hmem⟩
  · rw [hbase] at hq
    exact h.registered c' b ((put_linked ha).mp hb) q hq
  · have hplaced := h.placed c' b ((hof c' b).mp hb)
    refine ⟨hplaced.cache, ?_, ?_, ?_, ?_, ?_⟩
    · rw [hbase]
      exact hplaced.base_ne
    · rw [hbase, hpay]
      exact hplaced.payload_eq
    · rw [hbase]
      exact hplaced.fits
    · rw [hbase]
      exact hplaced.holds
    · rw [hbase]
      exact hplaced.onslab
  · rcases h.mem_put ha hb with ⟨rfl, rfl, rfl⟩ | ⟨hne, hb⟩
    · have hheader : s'.slabs b = slab := by simp [hs', State.relink, State.setSlab]
      have hfree : (L.put c' b list l free).free b = free := by simp [Layout.put]
      rw [hheader, hfree]
      exact hslab
    · have hheader : s'.slabs b = s.slabs b := by simp [hs', State.relink, State.setSlab, hne]
      have hfree : (L.put c a list list' free).free b = L.free b := by simp [Layout.put, hne]
      rw [hheader, hfree]
      exact h.slabs c' l b hb
  · have hold : Hidden s L c' p := hp.congr rfl (fun c' b hb => (hof c' b).mp hb) fun _ hc => hc
    obtain ⟨b, i, ho, hi⟩ := h.hidden c' p hold
    refine ⟨b, i, ho.congr rfl ((put_linked ha).mpr ho.linked) (hpay b), ?_⟩
    by_cases hb : b = a
    · subst hb
      have hfree : (L.put c b list list' free).free b = free := by simp [Layout.put]
      rw [hfree]
      exact hhidden c' p i hold ho
    · have hfree : (L.put c a list list' free).free b = L.free b := by simp [Layout.put, hb]
      rw [hfree]
      exact hi

omit h in
/-- The objects are the same after a change of one slab. -/
theorem put_object {c : CacheRef} {a : ℕ} {list list' : SlabList} {slab : Slab} {free : List ℕ}
    {links : Links Node} {carved : ℕ → ℕ} (ha : a ∈ L.lists c list)
    (hpayload : slab.payload = (s.slabs a).payload) {c' : CacheRef} {p b i : ℕ} :
    Object (s.relink a slab links carved)
      (L.put c a list list' free) c' p b i ↔ Object s L c' p b i := by
  have hpay : ((s.setSlab a slab).slabs b).payload = (s.slabs b).payload := by
    by_cases hb : b = a
    · subst hb
      rw [← hpayload]
      simp [State.setSlab]
    · simp [State.setSlab, hb]
  exact ⟨fun ho => ho.congr rfl ((put_linked ha).mp ho.linked) hpay.symm,
    fun ho => ho.congr rfl ((put_linked ha).mpr ho.linked) hpay⟩

omit h in
/-- What the allocator uses itself is the same after a change of one slab. -/
theorem put_hidden {c : CacheRef} {a : ℕ} {list list' : SlabList} {slab : Slab} {free : List ℕ}
    {links : Links Node} {carved : ℕ → ℕ} (ha : a ∈ L.lists c list) {c' : CacheRef} {p : ℕ} :
    Hidden (s.relink a slab links carved)
      (L.put c a list list' free) c' p ↔ Hidden s L c' p :=
  ⟨fun hp => hp.congr rfl (fun _ _ hb => (put_slabOf ha).mp hb) fun _ hc => hc,
    fun hp => hp.congr rfl (fun _ _ hb => (put_slabOf ha).mpr hb) fun _ hc => hc⟩

end

/-! ### Steps -/

/-- The invariant, with the records of the slabs of the objects. -/
structure Sound (s : State) (L : Layout) : Prop where
  inv : Inv s L
  recorded : Recorded s L

/-- A lookup of a page that the map contains finds it. -/
def State.Probed (s : State) : Prop :=
  Probe.Probed s.hashmap.totalEntries (home s.hashmap.totalEntries) (slots s.hashmap.entries)

/-- **What a step does**: the invariant holds afterwards, the caches are the same, given objects are
in use, and the map is probed if no request for its pages was refused. -/
structure Step (s s' : State) (L L' : Layout) (live : Set (CacheRef × ℕ)) : Prop where
  sound : Sound s' L'
  caches : s'.caches = s.caches
  known : L'.caches = L.caches
  live_eq : liveObjects s' L' = live
  refused : s.pages.refused ≤ s'.pages.refused
  probed : s'.pages.refused = s.pages.refused → s.Probed → s'.Probed

/-- Two steps one after the other, each of which is sound, are one sound step. -/
theorem Step.trans {s s' s'' : State} {L L' L'' : Layout} {live live' : Set (CacheRef × ℕ)}
    (h : Step s s' L L' live) (h' : Step s' s'' L' L'' live') : Step s s'' L L'' live' where
  sound := h'.sound
  caches := h'.caches.trans h.caches
  known := h'.known.trans h.known
  live_eq := h'.live_eq
  refused := h.refused.trans h'.refused
  probed := by
    intro hsame hprobed
    have hle := h.refused
    have hle' := h'.refused
    exact h'.probed (by omega) (h.probed (by omega) hprobed)

/-- The other list of a slab of which an object is taken. -/
theorem kindOf_cons (n i : ℕ) (rest : List ℕ) :
    kindOf n (i :: rest) = if rest.length + 1 = n then .emptySlabs else .partialSlabs := by
  simp [kindOf]

section

variable {s : State} {L : Layout} {c : CacheRef} {a : ℕ} {list : SlabList}

/-- The header of a slab of which an object is taken. -/
def takenHeader (slab : Slab) : Slab :=
  { slab with
    firstFree := slab.freeObjects slab.firstFree
    nAllocated := slab.nAllocated + 1 }

/-- The object that is taken next from a slab: the first one of its chain. -/
def nextObject (s : State) (c : CacheRef) (a : ℕ) : ℕ :=
  (s.slabs a).payload + (s.slabs a).firstFree * (s.caches c).objSize

/-- `allocateObject` on a slab with a free object returns the first one of its chain, which
then has the rest. -/
theorem Inv.allocateObject_eq (h : Inv s L) (ha : a ∈ L.lists c list) {i : ℕ} {rest : List ℕ}
    (hfree : L.free a = i :: rest) :
    allocateObject s (s.slabs a) = .ok (nextObject s c a, takenHeader (s.slabs a)) ∧
      Object s L c (nextObject s c a) a i ∧
      SlabWf (s.caches c) c (kindOf (s.caches c).nObjects rest) (takenHeader (s.slabs a)) rest := by
  have hwf := h.slabs c list a ha
  have hlt := h.free_lt_marker ha
  rw [hfree] at hwf hlt
  obtain ⟨hfirst, hchain⟩ := hwf.chain
  have hobject : Object s L c (nextObject s c a) a i :=
    ⟨⟨list, ha⟩, hwf.lt i List.mem_cons_self, by rw [nextObject, hfirst]⟩
  have hbound := h.object_lt hobject
  have hpos := (h.wf c (h.placed c a (.inl ⟨list, ha⟩)).cache).objSize_pos
  have hmarker : (s.slabs a).firstFree ≠ slabEndlistMarker := by
    have := hlt i List.mem_cons_self
    omega
  refine ⟨?_, hobject, ?_⟩
  · have hsize : ownerObjSize s (s.slabs a) = .ok (s.caches c).objSize := by
      rw [ownerObjSize, hwf.owner]
    rw [allocateObject, if_neg hmarker, hsize]
    have hadd : wadd (s.slabs a).payload ((s.slabs a).firstFree * (s.caches c).objSize) =
        nextObject s c a := wadd_of_lt (by rw [nextObject] at hbound; omega)
    simp only [ok_bind, hadd]
    rfl
  · refine ⟨hwf.owner, ?_, (List.nodup_cons.mp hwf.nodup).2, ?_, ?_, rfl⟩
    · simp only [takenHeader, hfirst]
      exact hchain
    · exact fun j hj => hwf.lt j (List.mem_cons_of_mem i hj)
    · have hcount := hwf.count
      simp only [takenHeader, List.length_cons, Nat.cast_add, Nat.cast_one] at hcount ⊢
      omega

/-- **An object is taken**, and the slab is put into the list in which it then belongs. -/
theorem Sound.take (h : Sound s L) (ha : a ∈ L.lists c list) {i : ℕ} {rest : List ℕ}
    (hfree : L.free a = i :: rest) {links : Links Node}
    (hlinks : Rings links L.heads
      (L.put c a list (kindOf (s.caches c).nObjects rest) rest).nodes) :
    Step s (s.relink a (takenHeader (s.slabs a)) links
        (Function.update s.carved (nextObject s c a) a)) L
      (L.put c a list (kindOf (s.caches c).nObjects rest) rest)
      (insert (c, nextObject s c a) (liveObjects s L)) ∧
      (c, nextObject s c a) ∉ liveObjects s L := by
  obtain ⟨-, hobject, hslab⟩ := h.inv.allocateObject_eq ha hfree
  have hnodup := (h.inv.slabs c list a ha).nodup
  rw [hfree, List.nodup_cons] at hnodup
  have hpay : (takenHeader (s.slabs a)).payload = (s.slabs a).payload := rfl
  have hfresh : ¬ Allocated s L c (nextObject s c a) := by
    rintro ⟨b, j, ho, hj⟩
    obtain ⟨-, rfl, rfl⟩ := h.inv.object_unique hobject ho
    exact hj (by rw [hfree]; exact List.mem_cons_self)
  have hused : ∀ c' q b j, Object s L c' q b j →
      (j ∉ Function.update L.free a rest b ↔
        j ∉ L.free b ∨ c' = c ∧ q = nextObject s c a) := by
    intro c' q b j ho
    by_cases hb : b = a
    · subst hb
      rw [Function.update_self, hfree, List.mem_cons, not_or]
      by_cases hj : j = i
      · subst hj
        obtain rfl : c' = c := h.inv.slab_unique (.inl ho.linked) (.inl hobject.linked)
        have hq : q = nextObject s c' b := ho.ptr_eq.trans hobject.ptr_eq.symm
        simp [hq, hnodup.1]
      · have hne : ¬ (c' = c ∧ q = nextObject s c b) := by
          rintro ⟨rfl, rfl⟩
          exact hj (h.inv.object_unique ho hobject).2.2
        simp [hj, hne]
    · rw [Function.update_of_ne hb]
      have hne : ¬ (c' = c ∧ q = nextObject s c a) := by
        rintro ⟨rfl, rfl⟩
        exact hb (h.inv.object_unique ho hobject).2.1
      simp [hne]
  have hinv := h.inv.put (Function.update s.carved (nextObject s c a) a) ha hslab rfl hlinks
    (fun c' p j hp ho => by
      obtain ⟨b, k, ho', hk⟩ := h.inv.hidden c' p hp
      obtain ⟨-, rfl, rfl⟩ := h.inv.object_unique ho ho'
      rw [hfree, List.mem_cons, not_or] at hk
      exact hk.2)
  refine ⟨⟨⟨hinv, ?_⟩, rfl, rfl, ?_, le_refl _, fun _ hprobed => hprobed⟩,
    fun hmem => hfresh hmem.1⟩
  · intro c' q b j ho hj
    have ho' := (put_object ha hpay).mp ho
    rcases (hused c' q b j ho').mp hj with hold | ⟨rfl, rfl⟩
    · have hq : q ≠ nextObject s c a := by
        rintro rfl
        obtain ⟨rfl, -, -⟩ := h.inv.object_unique ho' hobject
        exact hfresh ⟨b, j, ho', hold⟩
      exact (Function.update_of_ne hq _ _).trans (h.recorded c' q b j ho' hold)
    · obtain ⟨-, rfl, -⟩ := h.inv.object_unique ho' hobject
      exact Function.update_self _ _ _
  · ext ⟨c', q⟩
    simp only [mem_liveObjects, Set.mem_insert_iff, Prod.mk.injEq, put_hidden ha]
    constructor
    · rintro ⟨⟨b, j, ho, hj⟩, hhidden⟩
      have ho' := (put_object ha hpay).mp ho
      rcases (hused c' q b j ho').mp hj with hj | hsame
      · exact .inr ⟨⟨b, j, ho', hj⟩, hhidden⟩
      · exact .inl hsame
    · rintro (⟨rfl, rfl⟩ | ⟨⟨b, j, ho, hj⟩, hhidden⟩)
      · refine ⟨⟨a, i, (put_object ha hpay).mpr hobject, ?_⟩,
          fun hp => hfresh (h.inv.hidden _ _ hp)⟩
        exact (hused c' _ a i hobject).mpr (.inr ⟨rfl, rfl⟩)
      · exact ⟨⟨b, j, (put_object ha hpay).mpr ho, (hused c' q b j ho).mpr (.inl hj)⟩, hhidden⟩

/-- The first slab of a list of a cache that is not empty is the one that the source reads from
its head. -/
theorem Inv.headSlab_eq (h : Inv s L) (hc : L.caches c) {as : List ℕ}
    (hlist : L.lists c list = a :: as) : headSlab s (.slabs c list) = .ok a := by
  have hnext := (h.rings.ring (.slabs c list) hc).next_head
  simp only [Layout.nodes, hlist, List.map_cons, List.headD_cons] at hnext
  rw [headSlab, hnext]

/-- A list of slabs is empty as a linked list exactly when it is empty. -/
theorem Inv.isEmpty_iff (h : Inv s L) (hc : L.caches c) :
    isEmpty s.links (.slabs c list) = true ↔ L.lists c list = [] := by
  have hring := h.rings.ring (.slabs c list) hc
  rw [isEmpty, decide_eq_true_eq, hring.next_eq_head]
  exact List.map_eq_nil_iff

/-- **An object was taken**: it was not in use, and is in use afterwards. -/
structure Taken (s s' : State) (L L' : Layout) (c : CacheRef) (p : ℕ) : Prop where
  step : Step s s' L L' (insert (c, p) (liveObjects s L))
  fresh : (c, p) ∉ liveObjects s L
  ne_zero : p ≠ 0

/-- Nothing was taken or given back: the objects in use are those of before. -/
def Idle (s s' : State) (L L' : Layout) : Prop := Step s s' L L' (liveObjects s L)

/-- Every slab of a known cache has room for at least two objects. -/
theorem Inv.two_le (h : Inv s L) (hc : L.caches c) : 2 ≤ (s.caches c).nObjects :=
  (h.wf c hc).two_le

/-- **An object of a slab that is partially used** is taken, and the slab moves if it is full
then. -/
theorem mallocPartial_spec (h : Sound s L) (hc : L.caches c) {as : List ℕ}
    (hlist : L.lists c .partialSlabs = a :: as) :
    ∃ p s' L', mallocPartial s c = .ok (p, s') ∧ Taken s s' L L' c p := by
  have ha : a ∈ L.lists c .partialSlabs := by rw [hlist]; exact List.mem_cons_self
  have hwf := h.inv.slabs c _ a ha
  obtain ⟨i, rest, hfree⟩ : ∃ i rest, L.free a = i :: rest := by
    refine List.exists_cons_of_ne_nil fun hnil => ?_
    have hkind := hwf.kind
    rw [hnil] at hkind
    cases hkind
  obtain ⟨halloc, hobject, hslab⟩ := h.inv.allocateObject_eq ha hfree
  have hne := h.inv.object_ne_zero hobject
  have hlt := h.inv.free_lt_marker ha
  rw [hfree] at hlt hwf
  have hfull : isSlabFull (takenHeader (s.slabs a)) = true ↔ rest = [] := by
    rw [isSlabFull, decide_eq_true_eq]
    exact hslab.chain.eq_marker_iff fun x hx => hlt x (List.mem_cons_of_mem i hx)
  have hlong : rest.length + 1 ≠ (s.caches c).nObjects := by
    have hkind := hwf.kind
    rw [kindOf_cons] at hkind
    intro hlength
    rw [if_pos hlength] at hkind
    cases hkind
  rw [mallocPartial, h.inv.headSlab_eq hc hlist]
  simp only [ok_bind, halloc]
  by_cases hrest : rest = []
  · subst hrest
    rw [if_pos (hfull.mpr rfl)]
    have hkind : kindOf (s.caches c).nObjects [] = .fullSlabs := rfl
    have hmoves : SlabList.partialSlabs ≠ .fullSlabs := by decide
    obtain ⟨l₁, l₂, hpop, hpush, hrings⟩ := h.inv.move ha hmoves []
    obtain ⟨hstep, hfresh⟩ := h.take ha hfree hrings
    refine ⟨_, _, _, ?_, hstep, hfresh, hne⟩
    simp only [State.setSlab, State.carve, hpop, ok_bind, hpush]
    rfl
  · rw [if_neg (fun hf => hrest (hfull.mp hf))]
    have hkind : kindOf (s.caches c).nObjects rest = .partialSlabs := by
      rw [kindOf, if_neg hrest, if_neg]
      have hle := length_le_of_nodup_lt hwf.nodup hwf.lt
      rw [List.length_cons] at hle
      omega
    have hlinks : Rings s.links L.heads
        (L.put c a .partialSlabs (kindOf (s.caches c).nObjects rest) rest).nodes := by
      rw [hkind, nodes_put_same]
      exact h.inv.rings
    obtain ⟨hstep, hfresh⟩ := h.take ha hfree hlinks
    exact ⟨_, _, _, rfl, hstep, hfresh, hne⟩

/-- **An object of an empty slab** is taken, and the slab moves to the partially used ones. -/
theorem mallocEmpty_spec (h : Sound s L) (hc : L.caches c) {as : List ℕ}
    (hlist : L.lists c .emptySlabs = a :: as) :
    ∃ p s' L', mallocEmpty s c = .ok (p, s') ∧ Taken s s' L L' c p := by
  have ha : a ∈ L.lists c .emptySlabs := by rw [hlist]; exact List.mem_cons_self
  have htwo := h.inv.two_le hc
  have hwf := h.inv.slabs c _ a ha
  have hlength : (L.free a).length = (s.caches c).nObjects := by
    have hkind := hwf.kind
    simp only [kindOf] at hkind
    split_ifs at hkind with h₁ h₂
    exact h₂
  obtain ⟨i, rest, hfree⟩ : ∃ i rest, L.free a = i :: rest := by
    refine List.exists_cons_of_ne_nil fun hnil => ?_
    rw [hnil, List.length_nil] at hlength
    omega
  obtain ⟨halloc, hobject, -⟩ := h.inv.allocateObject_eq ha hfree
  have hne := h.inv.object_ne_zero hobject
  rw [hfree, List.length_cons] at hlength
  have hkind : kindOf (s.caches c).nObjects rest = .partialSlabs := by
    have hrest : rest ≠ [] := by
      rintro rfl
      rw [List.length_nil] at hlength
      omega
    rw [kindOf, if_neg hrest, if_neg (by omega)]
  rw [mallocEmpty, h.inv.headSlab_eq hc hlist]
  simp only [ok_bind, halloc]
  have hmoves : SlabList.emptySlabs ≠ .partialSlabs := by decide
  obtain ⟨l₁, l₂, hpop, hpush, hrings⟩ := h.inv.move ha hmoves rest
  obtain ⟨hstep, hfresh⟩ := h.take ha hfree (by rw [hkind]; exact hrings)
  refine ⟨_, _, _, ?_, hstep, hfresh, hne⟩
  simp only [State.setSlab, State.carve, hpop, ok_bind, hpush]
  rfl

/-! ### Giving back -/

/-- The header of a slab to which the object with an index is given back. -/
def givenHeader (slab : Slab) (i : ℕ) : Slab :=
  { slab with
    freeObjects := Function.update slab.freeObjects i slab.firstFree
    firstFree := i
    nAllocated := slab.nAllocated - 1 }

/-- `freeObject` on an object that is in use puts it in front of the chain of its slab. -/
theorem Inv.freeObject_eq (h : Inv s L) (ha : a ∈ L.lists c list) {p i : ℕ}
    (ho : Object s L c p a i) (hi : i ∉ L.free a) :
    freeObject s (s.slabs a) p = .ok (givenHeader (s.slabs a) i) ∧
      SlabWf (s.caches c) c (kindOf (s.caches c).nObjects (i :: L.free a))
        (givenHeader (s.slabs a) i) (i :: L.free a) := by
  have hwf := h.slabs c list a ha
  have hcache := h.wf c (h.placed c a (.inl ⟨list, ha⟩)).cache
  have hbound := h.object_lt ho
  have hpos := hcache.objSize_pos
  constructor
  · have hsize : ownerObjSize s (s.slabs a) = .ok (s.caches c).objSize := by
      rw [ownerObjSize, hwf.owner]
    have hindex : wsub p (s.slabs a).payload / (s.caches c).objSize % 2 ^ 32 = i := by
      have hfew := hcache.few
      have hlt := ho.lt
      rw [wsub_of_le (by omega) (by rw [ho.ptr_eq]; omega), ho.ptr_eq, Nat.add_sub_cancel_left,
        Nat.mul_div_cancel _ hpos, Nat.mod_eq_of_lt (by omega)]
    rw [freeObject, if_neg (h.object_ne_zero ho), hsize]
    simp only [ok_bind, hindex]
    rfl
  · refine ⟨hwf.owner, ⟨rfl, ?_⟩, List.nodup_cons.mpr ⟨hi, hwf.nodup⟩, ?_, ?_, rfl⟩
    · have hnext : (givenHeader (s.slabs a) i).freeObjects i = (s.slabs a).firstFree :=
        Function.update_self _ _ _
      rw [hnext]
      refine hwf.chain.congr fun x hx => Function.update_of_ne ?_ _ _
      rintro rfl
      exact hi hx
    · intro x hx
      rcases List.mem_cons.mp hx with rfl | hx
      · exact ho.lt
      · exact hwf.lt x hx
    · have hcount := hwf.count
      simp only [givenHeader, List.length_cons, Nat.cast_add, Nat.cast_one] at hcount ⊢
      omega

/-- **An object is given back**, and the slab is put into the list in which it then belongs. -/
theorem Sound.give (h : Sound s L) (ha : a ∈ L.lists c list) {p i : ℕ} (ho : Object s L c p a i)
    (hi : i ∉ L.free a) (hhidden : ¬ Hidden s L c p) {links : Links Node}
    (hlinks : Rings links L.heads
      (L.put c a list (kindOf (s.caches c).nObjects (i :: L.free a)) (i :: L.free a)).nodes) :
    Step s (s.relink a (givenHeader (s.slabs a) i) links s.carved) L
      (L.put c a list (kindOf (s.caches c).nObjects (i :: L.free a)) (i :: L.free a))
      (liveObjects s L \ {(c, p)}) := by
  obtain ⟨-, hslab⟩ := h.inv.freeObject_eq ha ho hi
  have hpay : (givenHeader (s.slabs a) i).payload = (s.slabs a).payload := rfl
  have hused : ∀ c' q b j, Object s L c' q b j →
      (j ∉ Function.update L.free a (i :: L.free a) b ↔
        j ∉ L.free b ∧ ¬ (c' = c ∧ q = p)) := by
    intro c' q b j ho'
    by_cases hb : b = a
    · subst hb
      rw [Function.update_self, List.mem_cons, not_or, and_comm]
      refine and_congr_right fun _ => not_congr ⟨?_, ?_⟩
      · rintro rfl
        obtain rfl : c' = c := h.inv.slab_unique (.inl ho'.linked) (.inl ho.linked)
        exact ⟨rfl, ho'.ptr_eq.trans ho.ptr_eq.symm⟩
      · rintro ⟨rfl, rfl⟩
        exact (h.inv.object_unique ho' ho).2.2
    · rw [Function.update_of_ne hb]
      refine (and_iff_left ?_).symm
      rintro ⟨rfl, rfl⟩
      exact hb (h.inv.object_unique ho' ho).2.1
  have hinv := h.inv.put s.carved ha hslab hpay hlinks (fun c' q j hq ho' => by
    obtain ⟨b, k, ho'', hk⟩ := h.inv.hidden c' q hq
    obtain ⟨-, rfl, rfl⟩ := h.inv.object_unique ho' ho''
    rw [List.mem_cons, not_or]
    refine ⟨?_, hk⟩
    rintro rfl
    obtain rfl : c' = c := h.inv.slab_unique (.inl ho'.linked) (.inl ho.linked)
    rw [ho'.ptr_eq.trans ho.ptr_eq.symm] at hq
    exact hhidden hq)
  refine ⟨⟨hinv, ?_⟩, rfl, rfl, ?_, le_refl _, fun _ hprobed => hprobed⟩
  · intro c' q b j ho' hj
    have hold := (put_object ha hpay).mp ho'
    exact h.recorded c' q b j hold ((hused c' q b j hold).mp hj).1
  · ext ⟨c', q⟩
    simp only [mem_liveObjects, Set.mem_sdiff, Set.mem_singleton_iff, Prod.mk.injEq, put_hidden ha]
    constructor
    · rintro ⟨⟨b, j, ho', hj⟩, hq⟩
      have hold := (put_object ha hpay).mp ho'
      obtain ⟨hj, hne⟩ := (hused c' q b j hold).mp hj
      exact ⟨⟨⟨b, j, hold, hj⟩, hq⟩, hne⟩
    · rintro ⟨⟨⟨b, j, ho', hj⟩, hq⟩, hne⟩
      exact ⟨⟨b, j, (put_object ha hpay).mpr ho', (hused c' q b j ho').mpr ⟨hj, hne⟩⟩, hq⟩

/-- **Giving an object back** to its slab takes it out of those in use, and the slab moves
where it has to. -/
theorem freeCacheInSlab_spec (h : Sound s L) {p : ℕ} (hp : (c, p) ∈ liveObjects s L) :
    ∃ s' L', freeCacheInSlab s c (s.carved p) p = .ok s' ∧
      Step s s' L L' (liveObjects s L \ {(c, p)}) := by
  obtain ⟨⟨a, i, ho, hi⟩, hhidden⟩ := mem_liveObjects.mp hp
  obtain rfl : s.carved p = a := h.recorded c p a i ho hi
  obtain ⟨list, ha⟩ := ho.linked
  have hc := (h.inv.placed c _ (.inl ho.linked)).cache
  have htwo := h.inv.two_le hc
  have hwf := h.inv.slabs c list _ ha
  have hlt := h.inv.free_lt_marker ha
  obtain ⟨hfreed, hslab⟩ := h.inv.freeObject_eq ha ho hi
  have hlength := length_le_of_nodup_lt hslab.nodup hslab.lt
  rw [List.length_cons] at hlength
  have hfull : isSlabFull (s.slabs (s.carved p)) = true ↔ L.free (s.carved p) = [] := by
    rw [isSlabFull, decide_eq_true_eq]
    exact hwf.chain.eq_marker_iff hlt
  have hempty : isSlabEmpty (givenHeader (s.slabs (s.carved p)) i) = true ↔
      (L.free (s.carved p)).length + 1 = (s.caches c).nObjects := by
    rw [isSlabEmpty, decide_eq_true_eq]
    have hcount := hslab.count
    simp only [List.length_cons, Nat.cast_add, Nat.cast_one] at hcount
    omega
  rw [freeCacheInSlab, hfreed]
  simp only [ok_bind]
  by_cases hnil : L.free (s.carved p) = []
  · rw [if_pos (hfull.mpr hnil)]
    have hkind : kindOf (s.caches c).nObjects (i :: L.free (s.carved p)) = .partialSlabs := by
      rw [kindOf_cons, hnil, List.length_nil, if_neg (by omega)]
    obtain rfl : list = .fullSlabs := by rw [hwf.kind, kindOf, if_pos hnil]
    have hmoves : SlabList.fullSlabs ≠ .partialSlabs := by decide
    obtain ⟨l₁, l₂, hpop, hpush, hrings⟩ := h.inv.move ha hmoves (i :: L.free (s.carved p))
    refine ⟨_, _, ?_, h.give ha ho hi hhidden (by rw [hkind]; exact hrings)⟩
    simp only [State.setSlab, hpop, ok_bind, hpush]
    rfl
  · rw [if_neg fun hf => hnil (hfull.mp hf)]
    obtain rfl : list = .partialSlabs := by
      rw [hwf.kind, kindOf, if_neg hnil, if_neg (by omega)]
    by_cases hlast : (L.free (s.carved p)).length + 1 = (s.caches c).nObjects
    · rw [if_pos (hempty.mpr hlast)]
      have hkind : kindOf (s.caches c).nObjects (i :: L.free (s.carved p)) = .emptySlabs := by
        rw [kindOf_cons, if_pos hlast]
      have hmoves : SlabList.partialSlabs ≠ .emptySlabs := by decide
      obtain ⟨l₁, l₂, hpop, hpush, hrings⟩ := h.inv.move ha hmoves (i :: L.free (s.carved p))
      refine ⟨_, _, ?_, h.give ha ho hi hhidden (by rw [hkind]; exact hrings)⟩
      simp only [State.setSlab, hpop, ok_bind, hpush]
      rfl
    · rw [if_neg fun hf => hlast (hempty.mp hf)]
      have hkind : kindOf (s.caches c).nObjects (i :: L.free (s.carved p)) = .partialSlabs := by
        rw [kindOf_cons, if_neg hlast]
      have hlinks : Rings s.links L.heads (L.put c (s.carved p) .partialSlabs
          (kindOf (s.caches c).nObjects (i :: L.free (s.carved p)))
          (i :: L.free (s.carved p))).nodes := by
        rw [hkind, nodes_put_same]
        exact h.inv.rings
      exact ⟨_, _, rfl, h.give ha ho hi hhidden hlinks⟩

end

end MugOS.SlabAllocator
