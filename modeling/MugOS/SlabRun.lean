import MugOS.SlabCaches
import MugOS.Lib.Run

/-!
# The Slab Allocator and Its Callers

The allocator together with what its callers hold: the caches that were created, and the objects
that were returned and not yet given back. A caller names only what it holds. Over every run the
objects that are held keep their bytes for themselves, and each of them is found again in its slab.

## Main results

* `Represents.call`: what one call does.
* `slab_run_safe`: the objects in every run.
-/

namespace MugOS.SlabAllocator

open LinkedList Hashmap

/-! ### The system -/

/-- An object that a caller holds: the cache, the address, and the size that was asked for. -/
structure LiveObject where
  cache : CacheRef
  ptr : ℕ
  size : ℕ
  deriving DecidableEq, Repr

/-- The allocator, and what its callers hold: caches and objects. -/
structure System where
  state : State
  /-- the caches of `Cache_create` -/
  created : List ℕ
  live : List LiveObject

/-- The calls that a caller may make: the sizes of objects are those of `Cache_create`, and what is
given back is held, in the cache that is named. -/
def System.Valid (sys : System) : Call → Prop
  | .create objsize _ => 1 ≤ objsize ∧ objsize ≤ 2 ^ 26
  | .malloc c => ∃ p ∈ sys.created, c = .created p
  | .free c ptr => (∃ p ∈ sys.created, c = .created p) ∧ ∃ o ∈ sys.live, o.cache = c ∧ o.ptr = ptr
  | .kmalloc _ => True
  | .kfree ptr => ∃ o ∈ sys.live, (∃ i, o.cache = .kmalloc i) ∧ o.ptr = ptr
  | .reap => False

/-- A new element, unless the call returned `NULL`. -/
def unlessNull {α : Type} (r : ℕ) (x : α) (xs : List α) : List α := if r = 0 then xs else x :: xs

/-- What the callers hold after a call with its result. -/
def System.after (sys : System) (call : Call) (r : ℕ) (s' : State) : System :=
  match call with
  | .create _ _ => { sys with state := s', created := unlessNull r r sys.created }
  | .malloc c =>
      { sys with state := s', live := unlessNull r ⟨c, r, (sys.state.caches c).objSize⟩ sys.live }
  | .kmalloc size =>
      { sys with
        state := s'
        live := unlessNull r ⟨.kmalloc (getKmallocCache size), r, size⟩ sys.live }
  | .free _ ptr => { sys with state := s', live := sys.live.filter (·.ptr ≠ ptr) }
  | .kfree ptr => { sys with state := s', live := sys.live.filter (·.ptr ≠ ptr) }
  | .reap => { sys with state := s' }

/-- **A call of the system**: it may be made, it returns, and the hash map got its pages whenever
it had to grow. -/
def System.Step (src : PageSource) (depth : ℕ) (sys : System) (call : Call) (sys' : System) :
    Prop :=
  sys.Valid call ∧ ∃ r s', exec src depth sys.state call = .ok (r, s') ∧
    s'.pages.refused = sys.state.pages.refused ∧ sys' = sys.after call r s'

/-- **What a caller may rely on** about an object: it is aligned, it has room for what was
asked for, inside the pages of one slab and outside the header and the free list of that slab,
and the hash map leads from its address to the slab of which it was taken. -/
structure SafeObject (s : State) (o : LiveObject) : Prop where
  aligned : o.ptr % 8 = 0
  room : o.size ≤ (s.caches o.cache).objSize
  owner : (s.slabs (s.carved o.ptr)).owner = some o.cache
  begins : s.base (s.carved o.ptr) ≤ o.ptr
  ends : o.ptr + (s.caches o.cache).objSize ≤
    s.base (s.carved o.ptr) + (s.caches o.cache).nPages * pageSize
  owned : ∀ q ∈ pages (s.base (s.carved o.ptr)) (s.caches o.cache).nPages, q ∈ s.pages.owned
  header : o.ptr + (s.caches o.cache).objSize ≤ s.carved o.ptr ∨
    s.carved o.ptr + (s.caches o.cache).headerSize ≤ o.ptr
  found : ∃ e, s.hashmap.find o.ptr = .ok (some e) ∧
    (entryAt s.hashmap.entries e).value = s.carved o.ptr

/-- Two objects have no byte in common: one of them ends before the other begins. -/
def Apart (s : State) (o o' : LiveObject) : Prop :=
  o.ptr + (s.caches o.cache).objSize ≤ o'.ptr ∨ o'.ptr + (s.caches o'.cache).objSize ≤ o.ptr

/-! ### The objects of the layout -/

/-- **The layout has what the callers hold**: its caches and its objects in use are theirs. -/
structure Represents (sys : System) (L : Layout) : Prop where
  sound : Sound sys.state L
  probed : sys.state.Probed
  created : ∀ p, p ∈ sys.created ↔ L.caches (.created p)
  live : ∀ c p, (c, p) ∈ liveObjects sys.state L ↔ ∃ o ∈ sys.live, o.cache = c ∧ o.ptr = p
  sizes : ∀ o ∈ sys.live, o.size ≤ (sys.state.caches o.cache).objSize
  index : ∀ o ∈ sys.live, ∀ i, o.cache = .kmalloc i → i < kmallocNCaches
  distinct : sys.live.Pairwise fun o o' => o.ptr ≠ o'.ptr

section

variable {sys : System} {s' : State} {L L' : Layout} {c : CacheRef} {p : ℕ}

/-- An object that is held is an object of the layout. -/
theorem Represents.mem_live (h : Represents sys L) {o : LiveObject} (ho : o ∈ sys.live) :
    (o.cache, o.ptr) ∈ liveObjects sys.state L :=
  (h.live o.cache o.ptr).mpr ⟨o, ho, rfl, rfl⟩

/-- Objects that are in use at the same address are of the same cache. -/
theorem live_unique {s : State} (h : Inv s L) {c' : CacheRef} (hp : (c, p) ∈ liveObjects s L)
    (hp' : (c', p) ∈ liveObjects s L) : c = c' := by
  obtain ⟨⟨a, i, ho, -⟩, -⟩ := mem_liveObjects.mp hp
  obtain ⟨⟨a', i', ho', -⟩, -⟩ := mem_liveObjects.mp hp'
  exact (h.object_unique ho ho').1

/-- After a call that returned nothing, what the callers hold is represented as before. -/
theorem Represents.idle (h : Represents sys L) (hidle : Idle sys.state s' L L')
    (hsame : s'.pages.refused = sys.state.pages.refused) :
    Represents { sys with state := s' } L' where
  sound := hidle.sound
  probed := hidle.probed hsame h.probed
  created := fun p => by
    rw [hidle.known]
    exact h.created p
  live := fun c p => by
    rw [hidle.live_eq]
    exact h.live c p
  sizes := fun o ho => by
    rw [hidle.caches]
    exact h.sizes o ho
  index := h.index
  distinct := h.distinct

/-- **A call that returned an object** adds it to what the callers hold, with its size. -/
theorem Represents.taken (h : Represents sys L) (htaken : Taken sys.state s' L L' c p)
    (hsame : s'.pages.refused = sys.state.pages.refused) {size : ℕ}
    (hsize : size ≤ (sys.state.caches c).objSize)
    (hindex : ∀ i, c = .kmalloc i → i < kmallocNCaches) :
    Represents { sys with state := s', live := ⟨c, p, size⟩ :: sys.live } L' where
  sound := htaken.step.sound
  probed := htaken.step.probed hsame h.probed
  created := fun q => by
    rw [htaken.step.known]
    exact h.created q
  live := fun c' p' => by
    rw [htaken.step.live_eq, Set.mem_insert_iff, h.live, List.exists_mem_cons_iff, Prod.mk.injEq,
      eq_comm (a := c'), eq_comm (a := p')]
  sizes := fun o ho => by
    rw [htaken.step.caches]
    rcases List.mem_cons.mp ho with rfl | ho
    · exact hsize
    · exact h.sizes o ho
  index := fun o ho => by
    rcases List.mem_cons.mp ho with rfl | ho
    · exact hindex
    · exact h.index o ho
  distinct := by
    refine List.pairwise_cons.mpr ⟨fun o ho (heq : p = o.ptr) => ?_, h.distinct⟩
    -- The object would have been in use before.
    have hold := h.mem_live ho
    have hnew : (c, p) ∈ liveObjects s' L' := by
      rw [htaken.step.live_eq]
      exact Set.mem_insert _ _
    have hkept : (o.cache, p) ∈ liveObjects s' L' := by
      rw [htaken.step.live_eq, heq]
      exact Set.mem_insert_of_mem _ hold
    have hcache := live_unique htaken.step.sound.inv hnew hkept
    refine htaken.fresh ?_
    rw [hcache, heq]
    exact hold

/-- **A call that gave an object back** takes it from what the callers hold, and nothing
else. -/
theorem Represents.given (h : Represents sys L)
    (hstep : Step sys.state s' L L' (liveObjects sys.state L \ {(c, p)}))
    (hsame : s'.pages.refused = sys.state.pages.refused)
    (hp : (c, p) ∈ liveObjects sys.state L) :
    Represents { sys with state := s', live := sys.live.filter (·.ptr ≠ p) } L' where
  sound := hstep.sound
  probed := hstep.probed hsame h.probed
  created := fun q => by
    rw [hstep.known]
    exact h.created q
  live := fun c' p' => by
    rw [hstep.live_eq, Set.mem_sdiff, Set.mem_singleton_iff, h.live]
    simp only [List.mem_filter, decide_eq_true_eq, Prod.mk.injEq]
    constructor
    · rintro ⟨⟨o, ho, rfl, rfl⟩, hne⟩
      refine ⟨o, ⟨ho, fun heq => hne ⟨?_, heq⟩⟩, rfl, rfl⟩
      have hlive := h.mem_live ho
      rw [heq] at hlive
      exact live_unique h.sound.inv hlive hp
    · rintro ⟨o, ⟨ho, hne⟩, rfl, rfl⟩
      exact ⟨⟨o, ho, rfl, rfl⟩, fun heq => hne heq.2⟩
  sizes := fun o ho => by
    rw [hstep.caches]
    exact h.sizes o (List.mem_of_mem_filter ho)
  index := fun o ho => h.index o (List.mem_of_mem_filter ho)
  distinct := h.distinct.filter _

/-- **A call that created a cache** adds this cache, and what the callers hold is represented
as before. -/
theorem Represents.create (h : Represents sys L) {cache : Cache}
    (hcreated : Created sys.state s' L L' p cache (liveObjects sys.state L)) :
    Represents { sys with state := s', created := p :: sys.created } L' where
  sound := hcreated.sound
  probed := hcreated.probed h.probed
  created := fun q => by
    rw [List.mem_cons, hcreated.known, CacheRef.created.injEq, h.created]
  live := fun c q => by
    rw [hcreated.live_eq]
    exact h.live c q
  sizes := fun o ho => by
    have hne : o.cache ≠ .created p := fun heq => by
      obtain ⟨⟨a, i, hobject, -⟩, -⟩ := mem_liveObjects.mp (h.mem_live ho)
      refine hcreated.fresh ?_
      rw [← heq]
      exact (h.sound.inv.placed _ a (.inl hobject.linked)).cache
    rw [hcreated.caches, Function.update_of_ne hne]
    exact h.sizes o ho
  index := h.index
  distinct := h.distinct

end

/-! ### Calls -/

section

variable {sys : System} {L : Layout} {src : PageSource}

/-- **What one call does**: it returns, and if the hash map got its pages the layout has what the
callers hold afterwards. -/
theorem Represents.call (hsrc : src.Sound) (depth : ℕ) (h : Represents sys L) {call : Call}
    (hvalid : sys.Valid call) : ∃ r s', exec src (depth + 2) sys.state call = .ok (r, s') ∧
      (s'.pages.refused = sys.state.pages.refused →
        ∃ L', Represents (sys.after call r s') L') := by
  cases call with
  | create objsize constructed =>
      obtain ⟨hpos, hle⟩ := hvalid
      obtain ⟨p, s', L', hexec, hcase⟩ := cacheCreate_spec hsrc depth h.sound h.probed hpos
        (by omega) constructed
      refine ⟨p, s', hexec, fun hsame => ⟨L', ?_⟩⟩
      rcases hcase with ⟨rfl, hidle⟩ | ⟨hne, hcreated⟩
      · exact h.idle hidle hsame
      · simp only [System.after, unlessNull, if_neg hne]
        exact h.create hcreated
  | malloc c =>
      obtain ⟨q, hq, rfl⟩ := hvalid
      obtain ⟨p, s', L', hexec, hserved⟩ := cacheMalloc_spec hsrc depth h.sound h.probed
        ((h.created q).mp hq)
      refine ⟨p, s', hexec, fun hsame => ⟨L', ?_⟩⟩
      rcases hserved with ⟨rfl, hidle⟩ | ⟨htaken, -⟩
      · exact h.idle hidle hsame
      · simp only [System.after, unlessNull, if_neg htaken.ne_zero]
        exact h.taken htaken hsame le_rfl fun i hi => by cases hi
  | free c ptr =>
      obtain ⟨-, o, ho, rfl, rfl⟩ := hvalid
      have hlive := h.mem_live ho
      obtain ⟨s', L', hexec, hstep⟩ := cacheFree_spec h.sound h.probed hlive
      refine ⟨0, s', ?_, fun hsame => ⟨L', h.given hstep hsame hlive⟩⟩
      rw [exec, hexec]
      rfl
  | kmalloc size =>
      obtain ⟨p, s', L', hexec, hcase⟩ := kmalloc_spec hsrc depth h.sound h.probed size
      refine ⟨p, s', hexec, fun hsame => ⟨L', ?_⟩⟩
      rcases hcase with ⟨rfl, hidle⟩ | ⟨hindex, hsize, htaken⟩
      · exact h.idle hidle hsame
      · simp only [System.after, unlessNull, if_neg htaken.ne_zero]
        refine h.taken htaken hsame hsize fun i hi => ?_
        rw [← CacheRef.kmalloc.inj hi]
        exact hindex
  | kfree ptr =>
      obtain ⟨o, ho, ⟨i, hi⟩, rfl⟩ := hvalid
      have hlive := h.mem_live ho
      rw [hi] at hlive
      obtain ⟨s', L', hexec, hstep⟩ := kfree_spec h.sound h.probed (h.index o ho i hi) hlive
      refine ⟨0, s', ?_, fun hsame => ⟨L', h.given hstep hsame hlive⟩⟩
      rw [exec, hexec]
      rfl
  | reap => exact hvalid.elim

/-- The layout has what the callers hold after a call of the system. -/
theorem Represents.step (hsrc : src.Sound) {depth : ℕ} (h : Represents sys L) {call : Call}
    {sys' : System} (hstep : sys.Step src (depth + 2) call sys') :
    ∃ L', Represents sys' L' := by
  obtain ⟨hvalid, r, s', hexec, hsame, rfl⟩ := hstep
  obtain ⟨r', s'', hexec', hrep⟩ := h.call hsrc depth hvalid
  obtain ⟨rfl, rfl⟩ := Prod.mk.inj (Except.ok.inj (hexec.symm.trans hexec'))
  exact hrep hsame

/-- The layout of `SlabAllocator_init`, where the callers hold nothing. -/
theorem represents_init {slabs : ℕ → Slab} {start : State}
    (hinit : slabAllocatorInit (State.static slabs) = .ok start) :
    ∃ L, Represents ⟨start, [], []⟩ L := by
  obtain ⟨start', L, hinit', hsound, hprobed, hlive, hcreated⟩ := slabAllocatorInit_spec slabs
  obtain rfl := Except.ok.inj (hinit.symm.trans hinit')
  refine ⟨L, hsound, hprobed, fun p => ?_, fun c p => ?_, by simp, by simp, .nil⟩
  · simpa using hcreated p
  · simp [hlive]

/-! ### Objects that are held -/

/-- **The header of a slab is apart** from the objects that are taken from it. -/
theorem Inv.header_apart {s : State} (h : Inv s L) {c : CacheRef} {p a i : ℕ}
    (ho : Object s L c p a i) (hvisible : ¬ Hidden s L c p) :
    p + (s.caches c).objSize ≤ a ∨ a + (s.caches c).headerSize ≤ p := by
  have hslab : L.SlabOf c a := .inl ho.linked
  have hplaced := h.placed c a hslab
  cases hoff : (s.caches c).offslab with
  | false =>
      -- The objects begin behind the list of free objects.
      have hbase := hplaced.onslab hoff
      have hbounds := h.object_bounds ho
      have hoffset := Cache.offset_ge hoff
      rw [Cache.headerSize, getSlabFreelistSize]
      omega
  | true =>
      -- The header is an object of its own.
      obtain ⟨a', i', ho', -⟩ := h.hidden _ _ (.header hslab hoff)
      obtain ⟨-, -, -, -, hroom⟩ := h.headerCache_spec hplaced.cache hoff
      rcases h.object_apart ho ho' with ⟨heq, rfl, rfl⟩ | hle | hle
      · have hhidden : Hidden s L (.kmalloc (s.caches c).headerCache) a := .header hslab hoff
        have hsize := ho'.ptr_eq
        rw [← heq] at hhidden hsize
        refine absurd ?_ hvisible
        rwa [ho.ptr_eq, ← hsize]
      · exact .inl hle
      · exact .inr (by omega)

/-- **An object that is held is safe**: it has room, lies in its slab and is found again by its
address. -/
theorem Represents.safe (h : Represents sys L) {o : LiveObject} (ho : o ∈ sys.live) :
    SafeObject sys.state o := by
  obtain ⟨⟨a, i, hobject, hused⟩, hvisible⟩ := mem_liveObjects.mp (h.mem_live ho)
  have hinv := h.sound.inv
  have hcarved := h.sound.recorded _ _ a i hobject hused
  have hplaced := hinv.placed _ a (.inl hobject.linked)
  have hwf := hinv.wf _ hplaced.cache
  obtain ⟨list, ha⟩ := hobject.linked
  have hbounds := hinv.object_bounds hobject
  have hpage := base_aligned sys.state a
  refine
    { aligned := ?_
      room := h.sizes o ho
      owner := by rw [hcarved]; exact (hinv.slabs _ list a ha).owner
      begins := by rw [hcarved]; omega
      ends := by rw [hcarved]; exact hbounds.2
      owned := fun q hq => ?_
      header := by rw [hcarved]; exact hinv.header_apart hobject hvisible
      found := by rw [hcarved]; exact hinv.find_object_probed hobject h.probed }
  · have hround := (sys.state.caches o.cache).offset_round
    have hsize := hwf.objSize_round
    rw [hobject.ptr_eq, hplaced.payload_eq]
    simp only [pageSize] at hpage
    have hmul : i * (sys.state.caches o.cache).objSize % 8 = 0 := by
      rw [Nat.mul_mod, hsize, Nat.mul_zero, Nat.zero_mod]
    omega
  · rw [hcarved] at hq
    exact hinv.owned q _ (hplaced.holds q hq)

/-- Two objects that are held at different addresses do not overlap. -/
theorem Represents.apart (h : Represents sys L) {o o' : LiveObject} (ho : o ∈ sys.live)
    (ho' : o' ∈ sys.live) (hne : o.ptr ≠ o'.ptr) : Apart sys.state o o' := by
  obtain ⟨⟨a, i, hobject, -⟩, -⟩ := mem_liveObjects.mp (h.mem_live ho)
  obtain ⟨⟨a', i', hobject', -⟩, -⟩ := mem_liveObjects.mp (h.mem_live ho')
  refine (h.sound.inv.object_apart hobject hobject').resolve_left ?_
  rintro ⟨heq, rfl, rfl⟩
  refine hne ?_
  rw [hobject.ptr_eq, hobject'.ptr_eq, heq]

/-- **The slab allocator is safe in every run**: the objects that the callers hold are safe and
apart from one another, and every call that may be made returns. -/
theorem slab_run_safe (hsrc : src.Sound) {depth : ℕ} {slabs : ℕ → Slab} {start : State}
    (hinit : slabAllocatorInit (State.static slabs) = .ok start) {cs : List Call}
    (hrun : Runs (System.Step src (depth + 2)) ⟨start, [], []⟩ cs sys) :
    (∀ o ∈ sys.live, SafeObject sys.state o) ∧ sys.live.Pairwise (Apart sys.state) ∧
      ∀ call, sys.Valid call → ∃ r s', exec src (depth + 2) sys.state call = .ok (r, s') := by
  obtain ⟨L, h⟩ := hrun.invariant (I := fun sys => ∃ L, Represents sys L) (represents_init hinit)
    fun _ _ _ ⟨L, hL⟩ hstep => hL.step hsrc hstep
  refine ⟨fun o ho => h.safe ho, ?_, fun call hvalid => ?_⟩
  · exact h.distinct.imp_of_mem fun ho ho' hne => h.apart ho ho' hne
  · obtain ⟨r, s', hexec, -⟩ := h.call hsrc depth hvalid
    exact ⟨r, s', hexec⟩

end

/-- A page source that answers each request a mebibyte above the one before. -/
def spacedPages : PageSource := PageSource.checked fun t _ _ _ => 0x1000000 + t * 0x100000

/-- The results of calls on spaced pages, with the refused requests. -/
def resultsOf (s : State) : List Call → Except Fault (List (ℕ × ℕ))
  | [] => .ok []
  | call :: rest => do
      let (r, s') ← exec spacedPages 2 s call
      let out ← resultsOf s' rest
      return (r, s'.pages.refused) :: out

/-- The results of several calls begin with that of the first one, followed by those of the
rest. -/
theorem resultsOf_cons {s : State} {call : Call} {rest : List Call} {r n : ℕ} {out : List (ℕ × ℕ)}
    (h : resultsOf s (call :: rest) = .ok ((r, n) :: out)) :
    ∃ s', exec spacedPages 2 s call = .ok (r, s') ∧ s'.pages.refused = n ∧
      resultsOf s' rest = .ok out := by
  obtain ⟨⟨r', s'⟩, hexec, h⟩ := bind_eq_ok.mp h
  obtain ⟨out', hout, h⟩ := bind_eq_ok.mp h
  obtain ⟨hfirst, rfl⟩ := List.cons.inj (Except.ok.inj h)
  obtain ⟨rfl, rfl⟩ := Prod.mk.inj hfirst
  exact ⟨s', hexec, rfl, hout⟩

/-- A cache of large objects, an object of it, whose slab has its header in an object of `kmalloc`,
and an object of `kmalloc`. -/
theorem slab_run_safe_large : ∃ start sys,
    slabAllocatorInit (State.static fun _ => ⟨none, 0, 0, 0, fun _ => 0⟩) = .ok start ∧
    Runs (System.Step spacedPages 2) ⟨start, [], []⟩
      [.create 600 false, .malloc (.created 0x10000B0), .kmalloc 100] sys ∧
    sys.live.map (·.ptr) = [0x14000B0, 0x1300000] ∧
    (∀ o ∈ sys.live, SafeObject sys.state o) ∧ sys.live.Pairwise (Apart sys.state) := by
  have hcheck : (do
      let s ← slabAllocatorInit (State.static fun _ => ⟨none, 0, 0, 0, fun _ => 0⟩)
      let out ← resultsOf s [.create 600 false, .malloc (.created 0x10000B0), .kmalloc 100]
      return (s.pages.refused, out)) =
        Except.ok (0, [(0x10000B0, 0), (0x1300000, 0), (0x14000B0, 0)]) := by
    decide +kernel
  obtain ⟨start, hinit, hcheck⟩ := bind_eq_ok.mp hcheck
  obtain ⟨out, hout, hcheck⟩ := bind_eq_ok.mp hcheck
  obtain ⟨hnone, rfl⟩ := Prod.mk.inj (Except.ok.inj hcheck)
  obtain ⟨s₁, hexec₁, hsame₁, hout⟩ := resultsOf_cons hout
  obtain ⟨s₂, hexec₂, hsame₂, hout⟩ := resultsOf_cons hout
  obtain ⟨s₃, hexec₃, hsame₃, -⟩ := resultsOf_cons hout
  have hrun : Runs (System.Step spacedPages 2) ⟨start, [], []⟩
      ([] ++ [.create 600 false] ++ [.malloc (.created 0x10000B0)] ++ [.kmalloc 100]) _ :=
    .snoc (.snoc (.snoc .nil
      ⟨⟨by norm_num, by norm_num⟩, _, s₁, hexec₁, hsame₁.trans hnone.symm, rfl⟩)
      ⟨⟨_, by simp [System.after, unlessNull], rfl⟩, _, s₂, hexec₂, hsame₂.trans hsame₁.symm, rfl⟩)
      ⟨trivial, _, s₃, hexec₃, hsame₃.trans hsame₂.symm, rfl⟩
  obtain ⟨hsafe, hapart, -⟩ := slab_run_safe (PageSource.checked_sound _) hinit hrun
  exact ⟨start, _, hinit, hrun, rfl, hsafe, hapart⟩

end MugOS.SlabAllocator
