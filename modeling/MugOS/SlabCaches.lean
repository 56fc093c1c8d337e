import MugOS.SlabGrowth

/-!
# The Calls over the Invariant

Each public call of the allocator keeps the invariant: an object is taken or not, given back, or a
cache is created. The nesting of the calls is bounded, as the header of a slab comes from a cache
whose slabs have their headers on their pages.

## Main results

* `cacheMalloc_spec`, `kmalloc_spec`, `cacheFree_spec`: objects are taken and given back.
* `cacheCreate_spec`: a cache is created.
* `slabAllocatorInit_spec`: the invariant after the initialisation.
-/

namespace MugOS.SlabAllocator

open LinkedList Hashmap

/-! ### Objects -/

section

variable {s : State} {L : Layout} {c : CacheRef} {src : PageSource}

/-- A call that takes and gives back nothing is idle: the objects in use are those of
before. -/
theorem Sound.idle (h : Sound s L) : Idle s s L L :=
  ⟨h, rfl, rfl, rfl, le_refl _, fun _ hprobed => hprobed⟩

/-- An object that is taken after other steps, which took none. -/
theorem Step.taken {s' s'' : State} {L' L'' : Layout} {p : ℕ} (h : Idle s s' L L')
    (htaken : Taken s' s'' L' L'' c p) : Taken s s'' L L'' c p where
  step := by
    have hstep := h.trans htaken.step
    rwa [h.live_eq] at hstep
  fresh := by
    have hfresh := htaken.fresh
    rwa [h.live_eq] at hfresh
  ne_zero := htaken.ne_zero

/-- Taking an object from a slab that has some in use asks for no pages. -/
theorem mallocPartial_pages {p : ℕ} {s' : State} (h : mallocPartial s c = .ok (p, s')) :
    s'.pages = s.pages := by
  obtain ⟨slab, -, h⟩ := bind_eq_ok.mp h
  obtain ⟨⟨res, header⟩, -, h⟩ := bind_eq_ok.mp h
  simp only at h
  split at h
  · obtain ⟨l₁, -, h⟩ := bind_eq_ok.mp h
    obtain ⟨l₂, -, h⟩ := bind_eq_ok.mp h
    obtain ⟨-, rfl⟩ := Prod.mk.inj (Except.ok.inj h)
    rfl
  · obtain ⟨-, rfl⟩ := Prod.mk.inj (Except.ok.inj h)
    rfl

/-- Taking an object from an empty slab, which becomes a partial one, asks for no pages. -/
theorem mallocEmpty_pages {p : ℕ} {s' : State} (h : mallocEmpty s c = .ok (p, s')) :
    s'.pages = s.pages := by
  obtain ⟨slab, -, h⟩ := bind_eq_ok.mp h
  obtain ⟨⟨res, header⟩, -, h⟩ := bind_eq_ok.mp h
  obtain ⟨l₁, -, h⟩ := bind_eq_ok.mp h
  obtain ⟨l₂, -, h⟩ := bind_eq_ok.mp h
  obtain ⟨-, rfl⟩ := Prod.mk.inj (Except.ok.inj h)
  rfl

/-- **`Cache_malloc`**, given what `kmalloc` does for the header of a slab. -/
theorem cacheMallocStep_spec (hsrc : src.Sound)
    {inner : State → CacheRef → Except Fault (ℕ × State)} (h : Sound s L) (hprobed : s.Probed)
    (hc : L.caches c) (hkmalloc : (s.caches c).offslab = true →
      (s.caches c).headerCache < kmallocNCaches ∧ ∃ p s₁ L₁,
        kmallocWith inner s (s.caches c).headerSize = .ok (p, s₁) ∧
        Served s s₁ L L₁ (.kmalloc (s.caches c).headerCache) p) :
    ∃ p s' L', cacheMallocStep src inner s c = .ok (p, s') ∧ Served s s' L L' c p := by
  rw [cacheMallocStep]
  by_cases hpartial : L.lists c .partialSlabs = []
  · rw [if_neg (not_not.mpr ((h.inv.isEmpty_iff hc).mpr hpartial))]
    by_cases hempty : L.lists c .emptySlabs = []
    · rw [if_neg (not_not.mpr ((h.inv.isEmpty_iff hc).mpr hempty))]
      obtain ⟨grown, s₁, L₁, hgrow, hstep, hgrown⟩ := growCache_spec hsrc h hprobed hc hkmalloc
      simp only [hgrow, ok_bind]
      cases grown with
      | false => exact ⟨0, s₁, L₁, rfl, .inl ⟨rfl, hstep⟩⟩
      | true =>
          obtain ⟨hsame, a, as, hlist⟩ := hgrown rfl
          have hc₁ : L₁.caches c := by rw [hstep.known]; exact hc
          obtain ⟨p, s', L', hmalloc, htaken⟩ := mallocEmpty_spec hstep.sound hc₁ hlist
          refine ⟨p, s', L', hmalloc, .inr ⟨Step.taken hstep htaken, ?_⟩⟩
          rw [mallocEmpty_pages hmalloc, hsame]
    · rw [if_pos fun hnil => hempty ((h.inv.isEmpty_iff hc).mp hnil)]
      obtain ⟨a, as, hlist⟩ := List.exists_cons_of_ne_nil hempty
      obtain ⟨p, s', L', hmalloc, htaken⟩ := mallocEmpty_spec h hc hlist
      exact ⟨p, s', L', hmalloc, .inr ⟨htaken, by rw [mallocEmpty_pages hmalloc]⟩⟩
  · rw [if_pos fun hnil => hpartial ((h.inv.isEmpty_iff hc).mp hnil)]
    obtain ⟨a, as, hlist⟩ := List.exists_cons_of_ne_nil hpartial
    obtain ⟨p, s', L', hmalloc, htaken⟩ := mallocPartial_spec h hc hlist
    exact ⟨p, s', L', hmalloc, .inr ⟨htaken, by rw [mallocPartial_pages hmalloc]⟩⟩

/-- The header of a slab comes from a cache whose slabs have their headers on their pages. -/
theorem Inv.headerCache_spec (h : Inv s L) (hc : L.caches c) (hoff : (s.caches c).offslab = true) :
    (s.caches c).headerCache < kmallocNCaches ∧
      (s.caches (.kmalloc (s.caches c).headerCache)).offslab = false ∧
      (s.caches c).headerSize ≠ 0 ∧ (s.caches c).headerSize ≤ kmallocMaxCacheSize ∧
      (s.caches c).headerSize ≤ (s.caches (.kmalloc (s.caches c).headerCache)).objSize := by
  have hheader := (h.wf c hc).header hoff
  have hsize : (s.caches c).headerSize ≤ 256 := by
    rw [Cache.headerSize, getSlabFreelistSize]
    omega
  have hindex : getKmallocCache (s.caches c).headerSize = (s.caches c).headerCache := rfl
  obtain ⟨hlt, honslab⟩ := onslab_of_le hsize
  have hmax : (s.caches c).headerSize ≤ kmallocMaxCacheSize := by
    simp only [kmallocMaxCacheSize]
    omega
  have hroom := (getKmallocCache_spec hmax).2
  rw [hindex] at hlt honslab hroom
  refine ⟨hlt, ?_, by simp [Cache.headerSize, sizeofSlab], hmax, ?_⟩
  · rw [(h.static _ hlt).2]
    exact honslab
  · rw [(h.static _ hlt).2, objSize_kmalloc hlt]
    exact hroom

/-- `Cache_malloc` from a cache whose slabs have their headers on their pages. -/
theorem cacheMalloc_onslab (hsrc : src.Sound) (depth : ℕ) (h : Sound s L) (hprobed : s.Probed)
    (hc : L.caches c) (hoff : (s.caches c).offslab = false) :
    ∃ p s' L', cacheMalloc src (depth + 1) s c = .ok (p, s') ∧ Served s s' L L' c p := by
  rw [cacheMalloc_succ]
  exact cacheMallocStep_spec hsrc h hprobed hc fun hon => by rw [hoff] at hon; cases hon

/-- **`Cache_malloc`** takes an object of the cache, or nothing. -/
theorem cacheMalloc_spec (hsrc : src.Sound) (depth : ℕ) (h : Sound s L) (hprobed : s.Probed)
    (hc : L.caches c) :
    ∃ p s' L', cacheMalloc src (depth + 2) s c = .ok (p, s') ∧ Served s s' L L' c p := by
  rw [cacheMalloc_succ]
  refine cacheMallocStep_spec hsrc h hprobed hc fun hoff => ?_
  obtain ⟨hlt, honslab, hne, hmax, -⟩ := h.inv.headerCache_spec hc hoff
  refine ⟨hlt, ?_⟩
  rw [kmallocWith, if_neg (by omega)]
  exact cacheMalloc_onslab hsrc depth h hprobed (h.inv.static _ hlt).1 honslab

/-- **`kmalloc`** takes an object of the cache for the size, or nothing. -/
theorem kmalloc_spec (hsrc : src.Sound) (depth : ℕ) (h : Sound s L) (hprobed : s.Probed)
    (size : ℕ) : ∃ p s' L', kmalloc src (depth + 2) s size = .ok (p, s') ∧
      (p = 0 ∧ Idle s s' L L' ∨ getKmallocCache size < kmallocNCaches ∧
        size ≤ (s.caches (.kmalloc (getKmallocCache size))).objSize ∧
        Taken s s' L L' (.kmalloc (getKmallocCache size)) p) := by
  rw [kmalloc, kmallocWith]
  by_cases hsize : size = 0 ∨ size > kmallocMaxCacheSize
  · rw [if_pos hsize]
    exact ⟨0, s, L, rfl, .inl ⟨rfl, h.idle⟩⟩
  · rw [if_neg hsize]
    obtain ⟨hlt, hroom⟩ := getKmallocCache_spec (show size ≤ kmallocMaxCacheSize by omega)
    obtain ⟨hknown, hcache⟩ := h.inv.static _ hlt
    obtain ⟨p, s', L', hmalloc, hserved⟩ := cacheMalloc_spec hsrc depth h hprobed hknown
    refine ⟨p, s', L', hmalloc, hserved.imp id fun htaken => ⟨hlt, ?_, htaken.1⟩⟩
    rw [hcache, objSize_kmalloc hlt]
    exact hroom

/-- **`Cache_free`** of an object of the cache succeeds, and takes just this object out of
those in use. -/
theorem cacheFree_spec (h : Sound s L) (hprobed : s.Probed) {p : ℕ}
    (hp : (c, p) ∈ liveObjects s L) :
    ∃ s' L', cacheFree s c p = .ok s' ∧ Step s s' L L' (liveObjects s L \ {(c, p)}) := by
  obtain ⟨⟨a, j, ho, hj⟩, -⟩ := mem_liveObjects.mp hp
  obtain ⟨list, ha⟩ := ho.linked
  have howner := (h.inv.slabs _ list a ha).owner
  have hcarved := h.recorded _ p a j ho hj
  obtain ⟨e, hfind, hvalue⟩ := h.inv.find_object_probed ho hprobed
  obtain ⟨s', L', hfree, hstep⟩ := freeCacheInSlab_spec h hp
  refine ⟨s', L', ?_, hstep⟩
  rw [hcarved] at hfree
  rw [cacheFree, hfind]
  simp only [ok_bind, hvalue, howner, ne_eq, not_true_eq_false, if_false, hfree]

end

/-! ### Caches -/

/-- A layout with a new cache, which has no slabs. -/
def Layout.addCache (L : Layout) (c : CacheRef) : Layout :=
  { L with
    caches := fun c' => c' = c ∨ L.caches c'
    order := c :: L.order }

/-- The head of a list of slabs is no element of any list. -/
theorem slabs_not_mem_nodes (L : Layout) (x : Node) (c : CacheRef) (list : SlabList) :
    Node.slabs c list ∉ L.nodes x := by
  cases x <;> simp [Layout.nodes]

/-- A list of slabs that is initialised joins the lists. -/
theorem rings_init {links : Links Node} {heads : Node → Prop} {nodes : Node → List Node}
    (h : Rings links heads nodes) (hnodes : ∀ x c l, Node.slabs c l ∉ nodes x) (c : CacheRef)
    (list : SlabList) (hnew : ¬ heads (.slabs c list)) (hnil : nodes (.slabs c list) = []) :
    Rings (init links (.slabs c list)) (fun x => x = .slabs c list ∨ heads x) nodes := by
  have hnot : ∀ x, heads x → Node.slabs c list ∉ x :: nodes x := fun x hx hmem => by
    rcases List.mem_cons.mp hmem with rfl | hmem
    · exact hnew hx
    · exact hnodes x c list hmem
  have hadd := h.add hnot
  rwa [Function.update_eq_self_iff.mpr hnil.symm] at hadd

/-- **The lists with a new cache** are the earlier ones, the new cache at the front of the
caches, and its empty lists. -/
theorem rings_addCache {s : State} {L : Layout} (h : Rings s.links L.heads L.nodes) {c : CacheRef}
    (hc : ¬ L.caches c) (horder : c ∉ L.order) (hlists : ∀ l, L.lists c l = []) (objsize : ℕ)
    (constructed : Bool) :
    ∃ links, pushFront (initCache s c objsize constructed).links .caches (.cache c) = .ok links ∧
      Rings links (L.addCache c).heads (L.addCache c).nodes := by
  have hnil : ∀ l, L.nodes (.slabs c l) = [] := fun l => by simp [Layout.nodes, hlists l]
  have hnodes := slabs_not_mem_nodes L
  have hfull := rings_init h hnodes c .fullSlabs hc (hnil _)
  have hpartial := rings_init hfull hnodes c .partialSlabs
    (fun hx => hx.elim (fun heq => by cases heq) hc) (hnil _)
  have hempty := rings_init hpartial hnodes c .emptySlabs
    (fun hx => hx.elim (fun heq => by cases heq) fun hx => hx.elim (fun heq => by cases heq) hc)
    (hnil _)
  have hheads : Rings (initCache s c objsize constructed).links (L.addCache c).heads L.nodes := by
    refine hempty.congr (fun x hx => ?_) fun x _ => rfl
    cases x with
    | caches => exact .inr (.inr (.inr trivial))
    | cache c' => exact hx.elim
    | slab a => exact hx.elim
    | slabs c' l =>
        rcases hx with rfl | hx
        · cases l with
          | fullSlabs => exact .inr (.inr (.inl rfl))
          | partialSlabs => exact .inr (.inl rfl)
          | emptySlabs => exact .inl rfl
        · exact .inr (.inr (.inr hx))
  have hnode : ∀ x, (L.addCache c).heads x → Node.cache c ∉ x :: L.nodes x := by
    intro x hx hmem
    cases x with
    | caches =>
        rcases List.mem_cons.mp hmem with heq | hmem
        · cases heq
        · simp only [Layout.nodes, List.mem_map, Node.cache.injEq, exists_eq_right] at hmem
          exact horder hmem
    | cache c' => exact hx
    | slab a => exact hx
    | slabs c' l => simp [Layout.nodes] at hmem
  have hhead : (L.addCache c).heads .caches := trivial
  obtain ⟨links, hpush, hrings⟩ := hheads.push hhead hnode
  refine ⟨links, hpush, hrings.congr (fun x hx => hx) fun x _ => ?_⟩
  cases x <;> simp [Layout.nodes, Layout.addCache]

section

variable {s : State} {L : Layout} {src : PageSource}

/-- **A cache was created**, in an object that is in use from then on. -/
structure Created (s s' : State) (L L' : Layout) (p : ℕ) (cache : Cache)
    (live : Set (CacheRef × ℕ)) : Prop where
  sound : Sound s' L'
  fresh : ¬ L.caches (.created p)
  caches : s'.caches = Function.update s.caches (.created p) cache
  known : ∀ c, L'.caches c ↔ c = .created p ∨ L.caches c
  live_eq : liveObjects s' L' = live
  refused : s'.pages.refused = s.pages.refused
  probed : s.Probed → s'.Probed

section AddCache

variable {p : ℕ} {cache : Cache} {links : Links Node}

/-- A cache is entered at address `p`: its structure, the links of the lists and their number. -/
def State.withCache (s : State) (p : ℕ) (cache : Cache) (links : Links Node) : State :=
  { s with
    caches := Function.update s.caches (.created p) cache
    links := links
    nCaches := s.nCaches + 1 }

/-- No slab is one of a cache that is not known to the allocator. -/
theorem Inv.slabOf_ne (h : Inv s L) {c : CacheRef} (hfresh : ¬ L.caches c) {c' : CacheRef} {b : ℕ}
    (hb : L.SlabOf c' b) : c' ≠ c := by
  rintro rfl
  exact hfresh (h.placed _ b hb).cache

/-- After a cache is added, every other cache is as it was. -/
theorem withCache_caches {c : CacheRef} (hc : c ≠ .created p) :
    (s.withCache p cache links).caches c = s.caches c :=
  Function.update_of_ne hc _ _

variable (hne : ∀ c b, L.SlabOf c b → c ≠ .created p)

include hne

/-- The objects of the slabs are those of before: the new cache has no slab. -/
theorem object_addCache (c : CacheRef) (q b i : ℕ) :
    Object (s.withCache p cache links) (L.addCache (.created p)) c q b i ↔ Object s L c q b i := by
  have hsame : L.Linked c b → (s.withCache p cache links).caches c = s.caches c :=
    fun hb => withCache_caches (hne c b (.inl hb))
  constructor
  · rintro ⟨hb, hlt, hptr⟩
    rw [hsame hb] at hlt hptr
    exact ⟨hb, hlt, hptr⟩
  · rintro ⟨hb, hlt, hptr⟩
    rw [← hsame hb] at hlt hptr
    exact ⟨hb, hlt, hptr⟩

/-- After a cache is added, the objects in use are those of before. -/
theorem allocated_addCache (c : CacheRef) (q : ℕ) :
    Allocated (s.withCache p cache links) (L.addCache (.created p)) c q ↔ Allocated s L c q :=
  exists₂_congr fun b i => and_congr_left fun _ => object_addCache hne c q b i

/-- The object of the new cache is one that the allocator uses itself. -/
theorem hidden_addCache (c : CacheRef) (q : ℕ) :
    Hidden (s.withCache p cache links) (L.addCache (.created p)) c q ↔
      Hidden s L c q ∨ c = .cacheCache ∧ q = p := by
  have hsame : ∀ c' b, L.SlabOf c' b → (s.withCache p cache links).caches c' = s.caches c' :=
    fun c' b hb => withCache_caches (hne c' b hb)
  constructor
  · intro hq
    cases hq with
    | header hb hoff =>
        rw [hsame _ _ hb] at hoff ⊢
        exact .inl (.header hb hoff)
    | cache hc =>
        rcases hc with heq | hc
        · exact .inr ⟨rfl, CacheRef.created.inj heq⟩
        · exact .inl (.cache hc)
  · rintro (hq | ⟨rfl, rfl⟩)
    · cases hq with
      | header hb hoff =>
          rw [← hsame _ _ hb] at hoff ⊢
          exact .header hb hoff
      | cache hc => exact .cache (.inr hc)
    · exact .cache (.inl rfl)

omit hne in
/-- **The invariant holds with a new cache** in an object that is in use. -/
theorem Inv.addCache (h : Inv s L) (hfresh : ¬ L.caches (.created p)) (hcache : cache.Wf)
    (hused : Allocated s L .cacheCache p)
    (hrings : Rings links (L.addCache (.created p)).heads (L.addCache (.created p)).nodes) :
    Inv (s.withCache p cache links) (L.addCache (.created p)) := by
  have hne : ∀ c b, L.SlabOf c b → c ≠ .created p := fun c b hb => h.slabOf_ne hfresh hb
  have hsame : ∀ c, c ≠ .created p → (s.withCache p cache links).caches c = s.caches c :=
    fun c hc => withCache_caches hc
  refine
    { map := h.map
      owned := h.owned
      table := h.table
      keys := fun k v hk hkv => ?_
      registered := fun c b hb q hq => ?_
      static := fun i hi => ?_
      cacheCache := .inr h.cacheCache
      wf := fun c hc => ?_
      order := fun c hc => ?_
      nCaches := congrArg (· + 1) h.nCaches
      rings := hrings
      apart := h.apart
      placed := fun c b hb => (h.placed c b hb).congr (hsame c (hne c b hb)) rfl .inr fun _ hq => hq
      slabs := fun c l b hb => ?_
      hidden := fun c q hq => ?_ }
  · obtain ⟨c, hv, hmem⟩ := h.keys k v hk hkv
    exact ⟨c, hv, by rw [hsame c (hne c v hv)]; exact hmem⟩
  · rw [hsame c (hne c b (.inl hb))] at hq
    exact h.registered c b hb q hq
  · rw [hsame (.kmalloc i) (by simp)]
    exact ⟨.inr (h.static i hi).1, (h.static i hi).2⟩
  · by_cases heq : c = .created p
    · subst heq
      rw [show (s.withCache p cache links).caches (.created p) = cache from
        Function.update_self _ _ _]
      exact hcache
    · rw [hsame c heq]
      exact h.wf c (hc.resolve_left heq)
  · rcases List.mem_cons.mp hc with rfl | hc
    · exact .inl rfl
    · exact .inr (h.order c hc)
  · rw [hsame c (hne c b (.inl ⟨l, hb⟩))]
    exact h.slabs c l b hb
  · rcases (hidden_addCache hne c q).mp hq with hq | ⟨rfl, rfl⟩
    · exact (allocated_addCache hne c q).mpr (h.hidden c q hq)
    · exact (allocated_addCache hne _ _).mpr hused

end AddCache

/-- **A new cache takes its object** out of the objects that others use. -/
theorem Sound.addCache (h : Sound s L) {p objsize : ℕ} (hpos : 1 ≤ objsize) (hlt : objsize < 2 ^ 58)
    (constructed : Bool) (hp : (CacheRef.cacheCache, p) ∈ liveObjects s L) :
    ∃ links, pushFront (initCache s (.created p) objsize constructed).links .caches
        (.cache (.created p)) = .ok links ∧
      Created s { initCache s (.created p) objsize constructed with
          links := links, nCaches := s.nCaches + 1 } L (L.addCache (.created p)) p
        (geometry objsize constructed) (liveObjects s L \ {(.cacheCache, p)}) := by
  obtain ⟨hused, hvisible⟩ := mem_liveObjects.mp hp
  have hfresh : ¬ L.caches (.created p) := fun hc => hvisible (.cache hc)
  have hne : ∀ c b, L.SlabOf c b → c ≠ .created p := fun c b hb => h.inv.slabOf_ne hfresh hb
  obtain ⟨links, hpush, hrings⟩ := rings_addCache h.inv.rings hfresh
    (fun hmem => hfresh (h.inv.order _ hmem))
    (fun l => List.eq_nil_iff_forall_not_mem.mpr fun b hb => hne _ b (.inl ⟨l, hb⟩) rfl)
    objsize constructed
  have hinv := h.inv.addCache hfresh (wf_geometry hpos hlt constructed) hused hrings
  refine ⟨links, hpush, ⟨⟨hinv, ?_⟩, hfresh, rfl, fun _ => Iff.rfl, ?_, rfl, fun hpr => hpr⟩⟩
  · intro c q b i ho hi
    exact h.recorded c q b i ((object_addCache hne c q b i).mp ho) hi
  · show liveObjects (s.withCache p (geometry objsize constructed) links) _ = _
    ext ⟨c, q⟩
    rw [Set.mem_sdiff, Set.mem_singleton_iff, mem_liveObjects, mem_liveObjects,
      allocated_addCache hne, hidden_addCache hne, not_or, Prod.mk.injEq, and_assoc]

/-- **`Cache_create`** makes a cache with the geometry of its object size, or returns `NULL`
and nothing happens. -/
theorem cacheCreate_spec (hsrc : src.Sound) (depth : ℕ) (h : Sound s L) (hprobed : s.Probed)
    {objsize : ℕ} (hpos : 1 ≤ objsize) (hlt : objsize < 2 ^ 58) (constructed : Bool) :
    ∃ p s' L', cacheCreate src (depth + 2) s objsize constructed = .ok (p, s') ∧
      (p = 0 ∧ Idle s s' L L' ∨ p ≠ 0 ∧
        Created s s' L L' p (geometry objsize constructed) (liveObjects s L)) := by
  obtain ⟨p, s₁, L₁, hmalloc, hserved⟩ := cacheMalloc_spec hsrc depth h hprobed h.inv.cacheCache
  rw [cacheCreate, if_neg (by omega), hmalloc]
  simp only [ok_bind]
  rcases hserved with ⟨rfl, hidle⟩ | ⟨htaken, hsame⟩
  · exact ⟨0, s₁, L₁, rfl, .inl ⟨rfl, hidle⟩⟩
  · have hmem : (CacheRef.cacheCache, p) ∈ liveObjects s₁ L₁ := by
      rw [htaken.step.live_eq]
      exact Set.mem_insert _ _
    obtain ⟨links, hpush, hcreated⟩ := htaken.step.sound.addCache hpos hlt constructed hmem
    have hlive : liveObjects s₁ L₁ \ {(.cacheCache, p)} = liveObjects s L := by
      rw [htaken.step.live_eq, Set.insert_sdiff_of_mem _ (Set.mem_singleton _)]
      exact Set.sdiff_singleton_eq_self htaken.fresh
    refine ⟨p, _, _, ?_, .inr ⟨htaken.ne_zero, hcreated.sound, ?_, ?_, ?_, ?_, ?_, ?_⟩⟩
    · rw [if_neg htaken.ne_zero]
      simp only [hpush, ok_bind]
      rfl
    · rw [← htaken.step.known]
      exact hcreated.fresh
    · rw [hcreated.caches, htaken.step.caches]
    · rw [← htaken.step.known]
      exact hcreated.known
    · rw [hcreated.live_eq, hlive]
    · rw [hcreated.refused, hsame]
    · exact fun hpr => hcreated.probed (htaken.step.probed hsame hpr)

/-! ### Initialisation -/

/-- The layout after the first rounds of `SlabAllocator_init`: caches without slabs. -/
def initialLayout (done : List ℕ) : Layout where
  caches := fun c => c = .cacheCache ∨ ∃ i ∈ done, c = .kmalloc i
  order := done.map .kmalloc
  lists := fun _ _ => []
  loose := fun _ _ => False
  free := fun _ => []
  owner := fun _ => none

/-- **What holds in `SlabAllocator_init`** after the rounds for some of the caches. -/
structure Started (s : State) (done : List ℕ) : Prop where
  rings : Rings s.links (initialLayout done).heads (initialLayout done).nodes
  cacheCache : s.caches .cacheCache = cacheCacheInit
  geometry : ∀ i ∈ done, s.caches (.kmalloc i) = geometry (kmallocMinCacheSize * 2 ^ i) false
  nCaches : done.length = s.nCaches
  hashmap : s.hashmap = Hashmap.empty
  pages : s.pages = Pages.none

/-- Before the first round of the loop no cache has been started. -/
theorem started_static (slabs : ℕ → Slab) : Started (State.static slabs) [] := by
  refine ⟨?_, rfl, by simp, rfl, rfl, rfl⟩
  have hheads : ∀ x, (initialLayout []).heads x → staticLinks x = some x := by
    intro x hx
    cases x with
    | caches => rfl
    | cache c => exact hx.elim
    | slab a => exact hx.elim
    | slabs c l =>
        rcases hx with rfl | ⟨i, hi, -⟩
        · rfl
        · cases hi
  have hnil : ∀ x, (initialLayout []).nodes x = [] := fun x => by
    cases x <;> simp [initialLayout, Layout.nodes]
  refine ⟨fun x hx => ?_, fun x x' y hx hx' hy hy' => ?_⟩
  · rw [hnil]
    exact Links.ring_nil.mpr ⟨hheads x hx, hheads x hx⟩
  · rw [hnil, List.mem_singleton] at hy hy'
    exact hy.symm.trans hy'

/-- **A round of `SlabAllocator_init`** succeeds, and adds the cache of its index to those
started. -/
theorem Started.next {done : List ℕ} (h : Started s done) {i : ℕ} (hi : i ∉ done) :
    ∃ links, pushFront (initCache s (.kmalloc i) (kmallocMinCacheSize * 2 ^ i) false).links .caches
        (.cache (.kmalloc i)) = .ok links ∧
      Started { initCache s (.kmalloc i) (kmallocMinCacheSize * 2 ^ i) false with
        links := links, nCaches := s.nCaches + 1 } (i :: done) := by
  have hnew : ¬ (initialLayout done).caches (.kmalloc i) := by
    rintro (hc | ⟨j, hj, hc⟩)
    · cases hc
    · cases hc
      exact hi hj
  have horder : CacheRef.kmalloc i ∉ (initialLayout done).order := fun hmem => by
    obtain ⟨j, hj, hc⟩ := List.mem_map.mp hmem
    cases hc
    exact hi hj
  obtain ⟨links, hpush, hrings⟩ := rings_addCache h.rings hnew horder (fun _ => rfl)
    (kmallocMinCacheSize * 2 ^ i) false
  refine ⟨links, hpush, ?_, ?_, fun j hj => ?_, congrArg (· + 1) h.nCaches, h.hashmap, h.pages⟩
  · refine hrings.congr (fun x hx => ?_) fun x _ => rfl
    cases x with
    | caches => exact trivial
    | cache c => exact hx
    | slab a => exact hx
    | slabs c l =>
        rcases hx with rfl | ⟨j, hj, rfl⟩
        · exact .inr (.inl rfl)
        · rcases List.mem_cons.mp hj with rfl | hj
          · exact .inl rfl
          · exact .inr (.inr ⟨j, hj, rfl⟩)
  · exact h.cacheCache
  · by_cases hji : j = i
    · subst hji
      simp [initCache]
    · have hcache := h.geometry j ((List.mem_cons.mp hj).resolve_left hji)
      simpa [initCache, hji] using hcache

/-- **The loop of `SlabAllocator_init`** succeeds, and starts the caches of all its indices. -/
theorem initCaches_spec {l : List ℕ} {done : List ℕ} (h : Started s done)
    (hnodup : (l.reverse ++ done).Nodup) :
    ∃ s', initCaches l s = .ok s' ∧ Started s' (l.reverse ++ done) := by
  induction l generalizing s done with
  | nil => exact ⟨s, rfl, h⟩
  | cons i rest ih =>
      rw [List.reverse_cons, List.append_assoc, List.singleton_append] at hnodup ⊢
      have hi : i ∉ done := (List.nodup_cons.mp (List.nodup_append.mp hnodup).2.1).1
      obtain ⟨links, hpush, hnext⟩ := h.next hi
      obtain ⟨s', hinit, hstarted⟩ := ih hnext hnodup
      refine ⟨s', ?_, hstarted⟩
      rw [initCaches, hpush]
      exact hinit

/-- The invariant holds when all caches of `kmalloc` are there. -/
theorem Started.sound {done : List ℕ} (h : Started s done)
    (hall : ∀ i, i ∈ done ↔ i < kmallocNCaches) : Sound s (initialLayout done) := by
  have hempty : ∀ c l, (initialLayout done).lists c l = [] := fun _ _ => rfl
  have hlinked : ∀ c a, ¬ (initialLayout done).Linked c a := by
    rintro c a ⟨l, ha⟩
    rw [hempty] at ha
    cases ha
  have hof : ∀ c a, ¬ (initialLayout done).SlabOf c a := fun c a ha => ha.elim (hlinked c a) id
  have hcreated : ∀ p, ¬ (initialLayout done).caches (.created p) := by
    rintro p (hc | ⟨i, -, hc⟩) <;> cases hc
  refine ⟨?_, fun c p a i ho => absurd ho.linked (hlinked c a)⟩
  refine
    { map := by rw [h.hashmap]; exact wf_empty
      owned := fun q o ho => by cases ho
      table := fun q hq => ?_
      keys := fun k v _ hkv => ?_
      registered := fun c a ha => absurd ha (hlinked c a)
      static := fun i hi => ⟨.inr ⟨i, (hall i).mpr hi, rfl⟩, h.geometry i ((hall i).mpr hi)⟩
      cacheCache := .inl rfl
      wf := fun c hc => ?_
      order := fun c hc => ?_
      nCaches := by rw [← h.nCaches]; exact List.length_map _
      rings := h.rings
      apart := fun c a ha => absurd ha (hlinked c a)
      placed := fun c a ha => absurd ha (hof c a)
      slabs := fun c l a ha => by rw [hempty] at ha; cases ha
      hidden := fun c p hp => ?_ }
  · rw [h.hashmap] at hq
    obtain ⟨i, hi, -⟩ := mem_pages.mp hq
    simp [mapPages, Hashmap.empty, roundToPage, pageSize] at hi
  · rw [h.hashmap] at hkv
    obtain ⟨e, he, -⟩ := hkv
    simp [Hashmap.empty] at he
  · rcases hc with rfl | ⟨i, hi, rfl⟩
    · rw [h.cacheCache]
      exact wf_cacheCacheInit
    · rw [h.geometry i hi]
      have hlt := (hall i).mp hi
      have hpow : 2 ^ i < 2 ^ 12 := Nat.pow_lt_pow_right (by norm_num) hlt
      have hpos := Nat.two_pow_pos i
      exact wf_geometry (by simp only [kmallocMinCacheSize]; omega)
        (by simp only [kmallocMinCacheSize]; omega) false
  · obtain ⟨i, hi, rfl⟩ := List.mem_map.mp hc
    exact .inr ⟨i, hi, rfl⟩
  · cases hp with
    | header ha => exact absurd ha (hof _ _)
    | cache hc => exact absurd hc (hcreated p)

/-- **After `SlabAllocator_init`** the invariant holds, and no object is in use. -/
theorem slabAllocatorInit_spec (slabs : ℕ → Slab) :
    ∃ start L, slabAllocatorInit (State.static slabs) = .ok start ∧ Sound start L ∧
      start.Probed ∧ liveObjects start L = ∅ ∧ ∀ p, ¬ L.caches (.created p) := by
  obtain ⟨start, hinit, hstarted⟩ := initCaches_spec (started_static slabs)
    (l := List.range kmallocNCaches) (by simp [List.nodup_range])
  rw [List.append_nil] at hstarted
  refine ⟨start, _, hinit, hstarted.sound (fun i => by simp), ?_, ?_, ?_⟩
  · rw [State.Probed, hstarted.hashmap]
    exact ⟨fun i hi => absurd hi (Nat.not_lt_zero i), fun i hi => absurd hi (Nat.not_lt_zero i)⟩
  · refine Set.eq_empty_iff_forall_notMem.mpr ?_
    rintro ⟨c, p⟩ hp
    obtain ⟨⟨a, i, ho, -⟩, -⟩ := mem_liveObjects.mp hp
    obtain ⟨l, ha⟩ := ho.linked
    cases ha
  · rintro p (hc | ⟨i, -, hc⟩) <;> cases hc

end

end MugOS.SlabAllocator
