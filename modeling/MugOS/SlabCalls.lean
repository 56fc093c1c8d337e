import MugOS.SlabGeometry
import MugOS.Lib.Outcome
import MugOS.Lib.Run

/-!
# The Calls of the Slab Allocator

The public calls of `SlabAllocator.c` as steps of a system, and what they leave alone: apart from
the cache that `Cache_create` makes, no call changes the geometry of a cache.

## Main results

* `cacheMalloc_caches`, `reapAndTear_caches`: the caches stay as they are.
* `kmallocReady_run`: after `SlabAllocator_init` and any calls, the caches of `kmalloc` have the
  geometry that `SlabAllocator_init` gave them.
-/

namespace MugOS.SlabAllocator

open LinkedList

/-! ### Calls -/

/-- The calls of the allocator, with the arguments that the callers choose. -/
inductive Call
  | create (objsize : ℕ) (constructed : Bool)
  | malloc (c : CacheRef)
  | free (c : CacheRef) (ptr : ℕ)
  | kmalloc (size : ℕ)
  | kfree (ptr : ℕ)
  | reap
  deriving DecidableEq, Repr

/-- A call without a result, as one that returns zero. -/
def noResult (x : Except Fault State) : Except Fault (ℕ × State) := do
  let s ← x
  return (0, s)

/-- One call: its result, 0 for those that have none, and the state afterwards. -/
def exec (src : PageSource) (depth : ℕ) (s : State) : Call → Except Fault (ℕ × State)
  | .create objsize constructed => cacheCreate src depth s objsize constructed
  | .malloc c => cacheMalloc src depth s c
  | .free c ptr => noResult (cacheFree s c ptr)
  | .kmalloc size => SlabAllocator.kmalloc src depth s size
  | .kfree ptr => noResult (SlabAllocator.kfree s ptr)
  | .reap => noResult (reapAndTear s)

/-! ### The caches stay as they are -/

/-- A computation that leaves the caches of a state alone, if it returns. -/
def Leaves {α : Type} (x : Except Fault α) (state : α → State) (s : State) : Prop :=
  Ends (fun _ => True) x fun r => (state r).caches = s.caches

/-- Any computation ends somehow, when every error is admitted and nothing is asked of the
value. -/
theorem ends_any {α : Type} (x : Except Fault α) : Ends (fun _ => True) x fun _ => True := by
  cases x with
  | ok a => exact trivial
  | error e => exact trivial

/-- A computation whose value does not matter for what follows. -/
theorem Leaves.after {α β : Type} (x : Except Fault α) {f : α → Except Fault β}
    {state : β → State} {s : State} (hf : ∀ a, Leaves (f a) state s) :
    Leaves (x >>= f) state s :=
  (ends_any x).bind fun a _ => hf a

/-- Two computations one after the other leave the caches as they are, if each of them does. -/
theorem Leaves.bind {α β : Type} {x : Except Fault α} {f : α → Except Fault β}
    {state : α → State} {state' : β → State} {s : State} (h : Leaves x state s)
    (hf : ∀ a, Leaves (f a) state' (state a)) : Leaves (x >>= f) state' s := by
  refine Ends.bind h fun a ha => ?_
  refine (hf a).mono ?_
  intro r hr
  exact hr.trans ha

/-- Freeing an object in a slab leaves the caches themselves as they are. -/
theorem freeCacheInSlab_caches (s : State) (c : CacheRef) (slab ptr : ℕ) :
    Leaves (freeCacheInSlab s c slab ptr) id s := by
  unfold freeCacheInSlab
  refine Leaves.after _ fun header => ?_
  simp only
  split
  · exact Leaves.after _ fun links => Leaves.after _ fun links' => rfl
  · split
    · exact Leaves.after _ fun links => Leaves.after _ fun links' => rfl
    · exact rfl

/-- `kfree` of any pointer leaves the caches themselves as they are. -/
theorem kfree_caches (s : State) (ptr : ℕ) : Leaves (SlabAllocator.kfree s ptr) id s := by
  unfold SlabAllocator.kfree
  split
  · exact rfl
  · refine Leaves.after _ fun entry => ?_
    cases entry with
    | none => exact trivial
    | some entry =>
        refine Leaves.after _ fun size => ?_
        simp only
        split
        · exact trivial
        · exact freeCacheInSlab_caches s _ _ ptr

/-- `Cache_free` of any pointer leaves the caches themselves as they are. -/
theorem cacheFree_caches (s : State) (c : CacheRef) (ptr : ℕ) :
    Leaves (cacheFree s c ptr) id s := by
  unfold cacheFree
  refine Leaves.after _ fun entry => ?_
  cases entry with
  | none => exact rfl
  | some entry =>
      simp only
      split
      · exact trivial
      · exact freeCacheInSlab_caches s c _ ptr

/-- Taking an object from an empty slab leaves the caches themselves as they are. -/
theorem mallocEmpty_caches (s : State) (c : CacheRef) :
    Leaves (mallocEmpty s c) Prod.snd s := by
  unfold mallocEmpty
  exact Leaves.after _ fun slab => Leaves.after _ fun res => Leaves.after _ fun links =>
    Leaves.after _ fun links' => rfl

/-- Taking an object from a partially used slab leaves the caches themselves as they are. -/
theorem mallocPartial_caches (s : State) (c : CacheRef) :
    Leaves (mallocPartial s c) Prod.snd s := by
  unfold mallocPartial
  refine Leaves.after _ fun slab => Leaves.after _ fun res => ?_
  simp only
  split
  · exact Leaves.after _ fun links => Leaves.after _ fun links' => rfl
  · exact rfl

/-- A new slab, given a `kmalloc` that leaves the caches alone. -/
theorem allocateSlab_caches {src : PageSource}
    {kmalloc : State → ℕ → Except Fault (ℕ × State)}
    (hk : ∀ s size, Leaves (kmalloc s size) Prod.snd s) (s : State) (nPages nObjects : ℕ)
    (offslab : Bool) :
    Leaves (allocateSlab src kmalloc s nPages nObjects offslab) Prod.snd s := by
  unfold allocateSlab
  cases offslab with
  | false =>
      simp only [Bool.false_eq_true, if_false]
      split <;> exact rfl
  | true =>
      simp only [if_true]
      refine (hk s _).bind ?_
      rintro ⟨slab, s₁⟩
      simp only
      split
      · exact rfl
      · split
        · refine Leaves.bind (kfree_caches _ slab) fun s₂ => ?_
          exact rfl
        · exact rfl

/-- A cache that grows, given a `kmalloc` that leaves the caches alone. -/
theorem growCache_caches {src : PageSource} {kmalloc : State → ℕ → Except Fault (ℕ × State)}
    (hk : ∀ s size, Leaves (kmalloc s size) Prod.snd s) (s : State) (c : CacheRef) :
    Leaves (growCache src kmalloc s c) Prod.snd s := by
  unfold growCache
  refine (allocateSlab_caches hk s _ _ _).bind ?_
  rintro ⟨slab, s₁⟩
  simp only
  split
  · exact rfl
  · refine Leaves.after _ ?_
    rintro ⟨failed, map, ps⟩
    simp only
    split
    · exact Leaves.after _ fun map' => rfl
    · exact Leaves.after _ fun links => rfl

/-- **`Cache_malloc` leaves the caches alone**, at any depth of its recursion, also where it
grows one. -/
theorem cacheMalloc_caches (src : PageSource) (depth : ℕ) (s : State) (c : CacheRef) :
    Leaves (cacheMalloc src depth s c) Prod.snd s := by
  induction depth generalizing s c with
  | zero => exact trivial
  | succ depth ih =>
      have hk : ∀ s size, Leaves (kmallocWith (cacheMalloc src depth) s size) Prod.snd s := by
        intro s size
        unfold kmallocWith
        split
        · exact rfl
        · exact ih s _
      unfold cacheMalloc
      split
      · exact mallocPartial_caches s c
      · split
        · exact mallocEmpty_caches s c
        · refine (growCache_caches hk s c).bind ?_
          rintro ⟨grown, s₁⟩
          simp only
          split
          · exact mallocEmpty_caches s₁ c
          · exact rfl

/-- `kmalloc` of any size leaves the caches themselves as they are. -/
theorem kmalloc_caches (src : PageSource) (depth : ℕ) (s : State) (size : ℕ) :
    Leaves (SlabAllocator.kmalloc src depth s size) Prod.snd s := by
  unfold SlabAllocator.kmalloc kmallocWith
  split
  · exact rfl
  · exact cacheMalloc_caches src depth s _

/-- Giving pages back leaves the caches as they are. -/
theorem freePages_caches (s : State) (addr n : ℕ) : Leaves (s.freePages addr n) id s := by
  unfold State.freePages
  split
  · exact rfl
  · exact trivial

/-- Removing a slab from a list and giving its pages back leaves the caches themselves as they
are. -/
theorem removeCacheSlab_caches (s : State) (c : CacheRef) (list : SlabList) (slab : ℕ) :
    Leaves (removeCacheSlab s c list slab) id s := by
  unfold removeCacheSlab
  refine Leaves.after _ fun links => Leaves.after _ fun map => ?_
  unfold freeSlab
  split
  · exact Leaves.bind (freePages_caches _ _ _) fun s₁ => kfree_caches s₁ slab
  · exact freePages_caches _ _ _

/-- Shrinking a cache by any number of slabs leaves the caches themselves as they are. -/
theorem shrinkCache_caches (s : State) (c : CacheRef) (n : ℕ) :
    Leaves (shrinkCache s c n) id s := by
  induction n generalizing s with
  | zero => exact rfl
  | succ n ih =>
      unfold shrinkCache
      refine Leaves.after _ fun slab => ?_
      exact Leaves.bind (removeCacheSlab_caches s c _ slab) fun s₁ => ih s₁

/-- **`SlabAllocator_reapAndTear` leaves the caches alone.** -/
theorem reapAndTear_caches (s : State) : Leaves (reapAndTear s) id s := by
  unfold reapAndTear
  refine Leaves.after _ fun choice => ?_
  cases choice with
  | none => exact rfl
  | some choice => exact shrinkCache_caches s _ _

/-! ### The caches of `kmalloc` -/

/-- The caches of `kmalloc` have the geometry that `SlabAllocator_init` computes. -/
def KmallocReady (s : State) : Prop :=
  ∀ i < kmallocNCaches, s.caches (.kmalloc i) = geometry (kmallocMinCacheSize * 2 ^ i) false

/-- The loop of `SlabAllocator_init` initialises the caches of its indices, and no other. -/
theorem initCaches_caches {l : List ℕ} {s s' : State} (h : initCaches l s = .ok s') (i : ℕ) :
    s'.caches (.kmalloc i) =
      if i ∈ l then geometry (kmallocMinCacheSize * 2 ^ i) false else s.caches (.kmalloc i) := by
  induction l generalizing s with
  | nil =>
      obtain rfl := Except.ok.inj h
      simp
  | cons j rest ih =>
      rw [initCaches] at h
      obtain ⟨links, -, h⟩ := bind_eq_ok.mp h
      rw [ih h]
      by_cases hi : i ∈ rest
      · simp [hi]
      · by_cases hij : i = j
        · subst hij
          simp [hi, initCache]
        · simp [hi, hij, initCache]

/-- After `SlabAllocator_init` the caches of `kmalloc` are ready. -/
theorem kmallocReady_init {s s' : State} (h : slabAllocatorInit s = .ok s') : KmallocReady s' := by
  intro i hi
  rw [initCaches_caches h i, if_pos (List.mem_range.mpr hi)]

/-- **One call keeps them ready**: after any call the caches of `kmalloc` have their geometry
still. -/
theorem KmallocReady.exec {src : PageSource} {depth : ℕ} {s s' : State} {call : Call} {r : ℕ}
    (h : KmallocReady s) (hexec : exec src depth s call = .ok (r, s')) : KmallocReady s' := by
  have hkept : ∀ {x : Except Fault (ℕ × State)}, Leaves x Prod.snd s → x = .ok (r, s') →
      KmallocReady s' := by
    intro x hx heq i hi
    have hcaches : s'.caches = s.caches := Ends.value hx heq
    rw [hcaches]
    exact h i hi
  have hnone : ∀ {x : Except Fault State}, Leaves x id s → Leaves (noResult x) Prod.snd s := by
    intro x hx
    exact Leaves.bind hx fun s₁ => rfl
  cases call with
  | malloc c => exact hkept (cacheMalloc_caches src depth s c) hexec
  | free c ptr => exact hkept (hnone (cacheFree_caches s c ptr)) hexec
  | kmalloc size => exact hkept (kmalloc_caches src depth s size) hexec
  | kfree ptr => exact hkept (hnone (kfree_caches s ptr)) hexec
  | reap => exact hkept (hnone (reapAndTear_caches s)) hexec
  | create objsize constructed =>
      -- The cache that is created is none of those of `kmalloc`.
      simp only [SlabAllocator.exec, cacheCreate] at hexec
      split at hexec
      · obtain ⟨-, rfl⟩ := Prod.mk.inj (Except.ok.inj hexec)
        exact h
      · obtain ⟨⟨cache, s₁⟩, hmalloc, hexec⟩ := bind_eq_ok.mp hexec
        have hcaches : s₁.caches = s.caches :=
          Ends.value (cacheMalloc_caches src depth s .cacheCache) hmalloc
        simp only at hexec
        split at hexec
        · obtain ⟨-, rfl⟩ := Prod.mk.inj (Except.ok.inj hexec)
          intro i hi
          rw [hcaches]
          exact h i hi
        · obtain ⟨links, -, hexec⟩ := bind_eq_ok.mp hexec
          obtain ⟨-, rfl⟩ := Prod.mk.inj (Except.ok.inj hexec)
          intro i hi
          simp only [initCache]
          rw [Function.update_of_ne (by simp), hcaches]
          exact h i hi

/-- The states that `SlabAllocator_init` and calls that return lead to. -/
def Reached (src : PageSource) (depth : ℕ) (s : State) : Prop :=
  ∃ slabs start cs, slabAllocatorInit (State.static slabs) = .ok start ∧
    Runs (fun s call s' => ∃ r, exec src depth s call = .ok (r, s')) start cs s

/-- **The caches of `kmalloc` are ready in every state that is reached.** -/
theorem Reached.kmallocReady {src : PageSource} {depth : ℕ} {s : State}
    (h : Reached src depth s) : KmallocReady s := by
  obtain ⟨slabs, start, cs, hinit, hrun⟩ := h
  refine hrun.invariant (kmallocReady_init hinit) ?_
  rintro t call u ht ⟨r, hexec⟩
  exact ht.exec hexec

end MugOS.SlabAllocator
