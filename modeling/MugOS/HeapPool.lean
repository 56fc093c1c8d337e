import MugOS.Heap
import MugOS.HashmapRun

/-!
# The List of Chunguses

Runs of `Heap_malloc` and `Heap_free`, and the list `partialChunguses` of the Chunguses that
have a free `ChunkInfo`.

`getFreeChunk` tests whether a Chungus is full before `allocateChunk` marks the `ChunkInfo`
that it returns, so a Chungus that becomes full stays in the list. The list is as intended
for as long as no call takes the last free `ChunkInfo` of a Chungus.

## Main results

* `pool_run_listed`: in every run in which no call takes the last free `ChunkInfo` of a
  Chungus, the list has exactly the Chunguses with a free `ChunkInfo`, each once.
* `full_chungus_stays_listed`: 101 blocks of a page fill a Chungus, which stays in the list.
-/

namespace MugOS.Heap

open WordBitmap LinkedList Links

/-! ### Runs -/

/-- The heap, and the live blocks with the sizes that were asked for. -/
structure Session where
  heap : State
  live : List (ℕ × ℕ)

/-- A call of the heap, with the argument that the caller chooses. -/
inductive Call
  | malloc (size : ℕ)
  | free (ptr : ℕ)

/-- A call that returns: an allocation, or the free of a live block. -/
inductive Step (src : PageSource) : Session → Call → Session → Prop
  | null {m : Session} {s' : State} {size : ℕ} (h : malloc src m.heap size = .ok (0, s')) :
      Step src m (.malloc size) ⟨s', m.live⟩
  | malloc {m : Session} {s' : State} {size res : ℕ} (h : malloc src m.heap size = .ok (res, s'))
      (hres : res ≠ 0) : Step src m (.malloc size) ⟨s', (res, size) :: m.live⟩
  | free {m : Session} {s' : State} {ptr size : ℕ} (hlive : (ptr, size) ∈ m.live)
      (h : free m.heap ptr = .ok s') : Step src m (.free ptr) ⟨s', m.live.erase (ptr, size)⟩

/-- A run starts from the initial state of the heap, with no block handed out. -/
def Session.start (memory : ℕ → Chungus) : Session := ⟨State.start memory, []⟩

/-! ### The condition -/

/-- A Chungus with a free `ChunkInfo`: a bit of its bitmap is clear. -/
def HasFree (chungus : Chungus) : Prop := ∃ i < 64 * chungusBitmapSize, bit chungus.bitmap i = false

/-- The size of the chunk that a request needs when no chunk or cached block serves it. -/
def chunkSize (size : ℕ) : ℕ := if size < bigbucketThreshold then max size minBlockSize else size

/-- The request is served by a new chunk, not from a bucket or from the cache. -/
def NeedsChunk (s : State) (size : ℕ) : Prop :=
  if size < bigbucketThreshold then
    ∃ order, getSmallbucketOrder (chunkSize size) = .ok order ∧ isEmpty s.links (.bucket order)
  else fittingSlot s.freeCache size = none

/-- The request takes the last free `ChunkInfo` of a Chungus: it needs a chunk, there are
pages for the chunk, and the Chungus of the `ChunkInfo` that is found for it is full once
that is marked as used. -/
def TakesLast (src : PageSource) (s : State) (size : ℕ) : Prop :=
  NeedsChunk s size ∧
    (s.pages.allocatePages src (roundToPage (chunkSize size)) false).1 ≠ 0 ∧
    ∃ page index, findFreeChunkInList s = .ok (some (page, index)) ∧
      isChungusFull (markUsed (s.memory page) index) = true

/-- A request for a small block has a bucket, and no request takes the last free `ChunkInfo`
of a Chungus. -/
def LeavesFree (src : PageSource) (m : Session) : Call → Prop
  | .malloc size =>
      (size ≤ bigbucketThreshold / 2 ∨ bigbucketThreshold ≤ size) ∧ ¬ TakesLast src m.heap size
  | .free _ => True

/-- The list has exactly the Chunguses with a free `ChunkInfo`, each once, and loops over it
end. -/
structure Listed (s : State) (pages : List ℕ) : Prop where
  ring : s.links.Ring .chunguses (pages.map .chungus)
  mem_iff : ∀ page, page ∈ pages ↔ page ∈ s.pool ∧ HasFree (s.memory page)
  ends : ∀ {β : Type} (b : β) (body : β → Node → Except Fault (β × Bool)),
    foreach s.links .chunguses s.steps b body = foldUntil body b (pages.map .chungus)

/-! ### The invariant -/

/-- Nodes of buckets. -/
def Node.InBucket : Node → Prop
  | .bucket _ => True
  | .chunk _ _ => True
  | _ => False

/-- The chunks of the Chunguses are nodes of the bucket lists. -/
theorem inBucket_chunk (page index : ℕ) : (Node.chunk page index).InBucket := trivial

/-- The heads of the small buckets are nodes of the bucket lists. -/
theorem inBucket_bucket (order : ℕ) : (Node.bucket order).InBucket := trivial

/-- **The invariant of the pool**: the list has all the Chunguses, of which there is at most
one; none of them is full; the links of the buckets stay among themselves; and the hash map
refers to no other Chungus. -/
structure PoolInv (s : State) : Prop where
  ring : s.links.Ring .chunguses (s.pool.map .chungus)
  single : s.pool.length ≤ 1
  notFull : ∀ page ∈ s.pool, isChungusFull (s.memory page) = false
  buckets : Within Node.InBucket s.links s.links
  values : ∀ e ∈ s.allocMap.entries, ∀ page index, e.value = .pool page index → page ∈ s.pool

/-- A Chungus is full exactly when it has no free `ChunkInfo`. -/
theorem hasFree_iff {chungus : Chungus} : HasFree chungus ↔ isChungusFull chungus = false := by
  rw [← Bool.not_eq_true, isChungusFull, List.all_eq_true, HasFree]
  simp only [List.mem_range, decide_eq_true_eq, eq_ones_iff, not_forall, Bool.not_eq_true]
  constructor
  · rintro ⟨i, hi, hbit⟩
    exact ⟨i / 64, by omega, i % 64, Nat.mod_lt _ (by decide), hbit⟩
  · rintro ⟨w, hw, j, hj, hbit⟩
    refine ⟨64 * w + j, by omega, ?_⟩
    rw [bit, show (64 * w + j) / 64 = w by omega, show (64 * w + j) % 64 = j by omega]
    exact hbit

/-- Whether a Chungus is full depends on its bitmap only. -/
theorem isChungusFull_congr {c c' : Chungus} (h : c.bitmap = c'.bitmap) :
    isChungusFull c = isChungusFull c' := by
  rw [isChungusFull, isChungusFull, h]

/-- The value of an empty entry of the hash map refers to no `ChunkInfo` of a Chungus. -/
theorem emptyEntry_value_ne (page index : ℕ) :
    (Hashmap.emptyEntry : Entry ChunkRef).value ≠ .pool page index := by
  rintro ⟨⟩

/-- The heap at the start, with no Chungus, satisfies the invariant of the pool. -/
theorem PoolInv.start (memory : ℕ → Chungus) : PoolInv (State.start memory) where
  ring := ring_nil.mpr ⟨rfl, rfl⟩
  single := by simp [State.start]
  notFull := by simp [State.start]
  buckets := by
    refine ⟨?_, ?_, fun _ _ => ⟨rfl, rfl⟩⟩ <;>
    · rintro (_ | order | page | ⟨page, index⟩) y hx hy <;>
        simp_all [State.start, noLinks, Node.InBucket]
      rw [← hy]
      trivial
  values := by simp [State.start, Hashmap.empty]

/-! ### Steps that the list does not notice -/

section Quiet

variable {s : State} (h : PoolInv s)

include h

/-- The pages in use can change without a change of the invariant, which does not speak of
them. -/
theorem PoolInv.setPages (ps : Pages) : PoolInv { s with pages := ps } :=
  ⟨h.ring, h.single, h.notFull, h.buckets, h.values⟩

/-- A store into a `ChunkInfo`, of a Chungus or of the cache, keeps the invariant of the
pool. -/
theorem PoolInv.setChunk (ref : ChunkRef) (info : ChunkInfo) : PoolInv (s.setChunk ref info) := by
  cases ref with
  | null => exact h
  | pool page index =>
      refine ⟨h.ring, h.single, ?_, h.buckets, h.values⟩
      intro p hp
      have hfull := h.notFull p hp
      by_cases hpp : p = page
      · subst hpp
        rw [← hfull]
        apply isChungusFull_congr
        simp [State.setChunk]
      · simpa [State.setChunk, Function.update_of_ne hpp] using hfull
  | cached slot => exact ⟨h.ring, h.single, h.notFull, h.buckets, h.values⟩

/-- A change of links that stays within the bucket lists keeps the list of Chunguses and the
invariant. -/
theorem PoolInv.setLinks {links : Links Node} (hlinks : Within Node.InBucket s.links links) :
    PoolInv { s with links := links } := by
  refine ⟨?_, h.single, h.notFull, ⟨hlinks.next_mem, hlinks.prev_mem, fun _ _ => ⟨rfl, rfl⟩⟩,
    h.values⟩
  apply h.ring.congr
  intro y hy
  apply hlinks.other
  simp only [List.mem_cons, List.mem_map] at hy
  rcases hy with rfl | ⟨page, -, rfl⟩
  · exact id
  · exact id

/-- The hash map can change as long as its values refer to Chunguses of the list. -/
theorem PoolInv.setMap {map : Hashmap ChunkRef} (hmap : ∀ e ∈ map.entries, ∀ page index,
    e.value = .pool page index → page ∈ s.pool) : PoolInv { s with allocMap := map } :=
  ⟨h.ring, h.single, h.notFull, h.buckets, hmap⟩

/-- An insertion of a reference into a Chungus of the list keeps the invariant, also where the
hash map grows. -/
theorem PoolInv.insert {src : PageSource} {base : ℕ} {ref : ChunkRef} {b : Bool}
    {map : Hashmap ChunkRef} {ps : Pages}
    (hins : Hashmap.insert src s.allocMap s.pages base ref = .ok (b, map, ps))
    (href : ∀ page index, ref = .pool page index → page ∈ s.pool) :
    PoolInv { s with allocMap := map, pages := ps } := by
  refine (h.setPages ps).setMap ?_
  intro e he page index hv
  rcases Hashmap.insert_mem hins he with he | rfl | rfl
  · exact h.values e he page index hv
  · exact absurd hv (emptyEntry_value_ne page index)
  · exact href page index hv

/-- A deletion from the hash map keeps the invariant, as the remaining values were in it
before. -/
theorem PoolInv.delete {entry : Option ℕ} {map : Hashmap ChunkRef}
    (hdel : Hashmap.delete s.allocMap entry = .ok map) : PoolInv { s with allocMap := map } := by
  refine h.setMap ?_
  intro e he page index hv
  rcases Hashmap.delete_mem hdel he with he | rfl
  · exact h.values e he page index hv
  · exact absurd hv (emptyEntry_value_ne page index)

/-- Freeing the pages of a chunk keeps the invariant and the list of Chunguses. -/
theorem PoolInv.freeChunk {ref : ChunkRef} {s' : State} (hok : freeChunk s ref = .ok s') :
    PoolInv s' ∧ s'.pool = s.pool := by
  unfold Heap.freeChunk at hok
  obtain ⟨chunk, -, hok⟩ := bind_eq_ok.mp hok
  obtain ⟨s₁, hfree, hok⟩ := bind_eq_ok.mp hok
  unfold State.freePages at hfree
  split at hfree
  · rw [← Except.ok.inj hfree] at hok
    rw [← Except.ok.inj hok]
    refine ⟨(h.setPages _).setChunk ref _, ?_⟩
    cases ref <;> rfl
  · exact absurd hfree (by simp)

/-- Allocating the pages of a chunk: the Chungus gets a used `ChunkInfo` more. -/
theorem PoolInv.allocateChunk {src : PageSource} {page index size : ℕ} {b : Bool} {s' : State}
    (hok : allocateChunk src s page index size = (b, s'))
    (hlast : b = true → isChungusFull (markUsed (s.memory page) index) = false) :
    PoolInv s' ∧ s'.pool = s.pool ∧ s'.links = s.links := by
  unfold Heap.allocateChunk at hok
  simp only at hok
  split at hok
  · obtain ⟨-, rfl⟩ := Prod.mk.inj hok
    exact ⟨(h.setPages _).setChunk _ _, rfl, rfl⟩
  · obtain ⟨rfl, rfl⟩ := Prod.mk.inj hok
    refine ⟨⟨h.ring, h.single, ?_, h.buckets, h.values⟩, rfl, rfl⟩
    intro p hp
    by_cases hpp : p = page
    · subst hpp
      rw [← hlast rfl]
      apply isChungusFull_congr
      simp [State.setChunk, markUsed]
    · simpa [State.setChunk, Function.update_of_ne hpp] using h.notFull p hp

end Quiet

/-! ### Taking a ChunkInfo -/

/-- With one Chungus in the list, which is not full under the invariant, the search finds a
free `ChunkInfo` in it. -/
theorem findFreeChunkInList_single {s : State} {page : ℕ} (hpool : s.pool = [page])
    (h : PoolInv s) : ∃ index, findFreeChunkInChungus (s.memory page) = some index ∧
      findFreeChunkInList s = .ok (some (page, index)) := by
  have hring := h.ring
  rw [hpool] at hring
  have hfree : ∃ index, findFreeChunkInChungus (s.memory page) = some index := by
    rw [← Option.isSome_iff_exists, findFreeChunkInChungus, List.findSome?_isSome_iff]
    have hnot := h.notFull page (by rw [hpool]; simp)
    rw [← Bool.not_eq_true, isChungusFull, List.all_eq_true] at hnot
    push Not at hnot
    obtain ⟨i, hi, hword⟩ := hnot
    refine ⟨i, hi, ?_⟩
    rw [if_neg (by simpa using hword)]
    rfl
  obtain ⟨index, hindex⟩ := hfree
  refine ⟨index, hindex, ?_⟩
  rw [findFreeChunkInList, foreach_eq hring (by simp [State.steps])]
  simp [foldUntil, chungusOfNode, hindex, bind, Except.bind, pure, Except.pure]

/-- With no Chungus in the list the search ends without a `ChunkInfo`. -/
theorem findFreeChunkInList_none {s : State} (hpool : s.pool = []) (h : PoolInv s) :
    findFreeChunkInList s = .ok none := by
  have hring := h.ring
  rw [hpool] at hring
  rw [findFreeChunkInList, foreach_eq hring (by simp)]
  rfl

/-- The first `ChunkInfo` of a new Chungus is not its last one. -/
theorem newChungus_not_last (chunks : ℕ → ChunkInfo) :
    findFreeChunkInChungus ⟨[0#64, invalidMask], chunks⟩ = some 0 ∧
      isChungusFull ⟨[0#64, invalidMask], chunks⟩ = false ∧
      isChungusFull (markUsed ⟨[0#64, invalidMask], chunks⟩ 0) = false := by
  have hclz : clzll 18446744073709551615#64 = 0 := by decide +kernel
  have hword : word [0#64, invalidMask] 0 = 0#64 := rfl
  refine ⟨?_, rfl, ?_⟩
  · rw [findFreeChunkInChungus, List.range_succ_eq_map, List.findSome?_cons]
    simp [hword, hclz]
  · have hmarked : markUsed ⟨[0#64, invalidMask], chunks⟩ 0 =
        ⟨[0x8000000000000000#64, invalidMask], chunks⟩ := by
      simp only [markUsed, hword, Nat.zero_div, Nat.zero_mod, List.set_cons_zero]
      congr 2
    rw [hmarked]
    rfl

/-- A new Chungus at the front of an empty list gives a list of one Chungus and keeps the
invariant. -/
theorem PoolInv.newChungus {s : State} (h : PoolInv s) (hpool : s.pool = []) {page : ℕ}
    (ps : Pages) {links : Links Node}
    (hpush : pushFront s.links .chunguses (.chungus page) = .ok links) :
    PoolInv { s with
      links := links
      memory := Function.update s.memory page { s.memory page with bitmap := [0#64, invalidMask] }
      pages := ps
      pool := [page] } := by
  have hring := h.ring
  rw [hpool] at hring
  obtain ⟨l', hpush', hring', hother⟩ := pushFront_spec hring
    (show .chungus page ∉ [Node.chunguses] by simp)
  obtain rfl := Except.ok.inj (hpush.symm.trans hpush')
  have hsame : ∀ x : Node, x.InBucket → links.next x = s.links.next x ∧
      links.prev x = s.links.prev x := by
    intro x hx
    apply hother
    rintro hmem
    simp only [List.map_nil, List.mem_cons, List.not_mem_nil, or_false] at hmem
    rcases hmem with rfl | rfl
    · exact hx
    · exact hx
  refine ⟨hring', by simp, ?_, ⟨?_, ?_, fun _ _ => ⟨rfl, rfl⟩⟩, ?_⟩
  · intro p hp
    obtain rfl := List.mem_singleton.mp hp
    simp only [Function.update_self]
    exact (newChungus_not_last _).2.1
  · intro x y hx hy
    exact h.buckets.next_mem x y hx ((hsame x hx).1 ▸ hy)
  · intro x y hx hy
    exact h.buckets.prev_mem x y hx ((hsame x hx).2 ▸ hy)
  · intro e he p i hv
    have := h.values e he p i hv
    rw [hpool] at this
    exact absurd this (by simp)

/-- **Taking a `ChunkInfo`**: from the list as it is, or from a new Chungus. -/
theorem getFreeChunk_pool {src : PageSource} {s s' : State} {r : Option (ℕ × ℕ)} (h : PoolInv s)
    (hok : getFreeChunk src s = .ok (r, s')) :
    PoolInv s' ∧ ∀ page index, r = some (page, index) → page ∈ s'.pool ∧
      (s' = s ∧ findFreeChunkInList s = .ok (some (page, index)) ∨
        isChungusFull (markUsed (s'.memory page) index) = false) := by
  unfold getFreeChunk at hok
  obtain ⟨found, hfound, hok⟩ := bind_eq_ok.mp hok
  cases hpool : s.pool with
  | cons page rest =>
      have hsingle : s.pool = [page] := by
        have := h.single
        rw [hpool] at this ⊢
        simp only [List.length_cons] at this
        rw [List.length_eq_zero_iff.mp (show rest.length = 0 by omega)]
      obtain ⟨index, -, hlist⟩ := findFreeChunkInList_single hsingle h
      have hnot := h.notFull page (by rw [hsingle]; simp)
      obtain rfl := Except.ok.inj (hfound.symm.trans hlist)
      simp only [hnot, Bool.false_eq_true, if_false] at hok
      split at hok
      · exact absurd hok (by simp)
      · obtain ⟨rfl, rfl⟩ := Prod.mk.inj (Except.ok.inj hok)
        refine ⟨h, ?_⟩
        intro p i hpi
        obtain ⟨rfl, rfl⟩ := Prod.mk.inj (Option.some.inj hpi)
        exact ⟨by rw [hsingle]; simp, .inl ⟨rfl, hlist⟩⟩
  | nil =>
      obtain rfl := Except.ok.inj (hfound.symm.trans (findFreeChunkInList_none hpool h))
      set ps := s.pages.allocatePages src 1 false with hps
      by_cases hzero : ps.1 = 0
      · simp only [allocateChungus, ← hps, hzero, if_true] at hok
        obtain ⟨rfl, rfl⟩ := Prod.mk.inj (Except.ok.inj hok)
        refine ⟨h.setPages _, ?_⟩
        rintro p i ⟨⟩
      · simp only [allocateChungus, ← hps, if_neg hzero] at hok
        obtain ⟨links, hpush, hok⟩ := bind_eq_ok.mp hok
        have hinv := h.newChungus hpool ps.2 hpush
        rw [hpool] at hok
        obtain ⟨index, hindex, hlist⟩ := findFreeChunkInList_single rfl hinv
        simp only [Function.update_self, (newChungus_not_last _).1, Option.some.injEq] at hindex
        subst hindex
        simp only [hlist, bind, Except.bind, ge_iff_le] at hok
        rw [if_neg (by decide)] at hok
        obtain ⟨rfl, rfl⟩ := Prod.mk.inj (Except.ok.inj hok)
        refine ⟨hinv, ?_⟩
        intro p i hpi
        obtain ⟨rfl, rfl⟩ := Prod.mk.inj (Option.some.inj hpi)
        refine ⟨by simp, .inr ?_⟩
        simp only [Function.update_self]
        exact (newChungus_not_last _).2.2

/-- The pages of a chunk, and what marking its `ChunkInfo` does. -/
theorem allocateChunk_last {src : PageSource} {s s' : State} {page index size : ℕ}
    (hok : allocateChunk src s page index size = (true, s')) :
    (s.pages.allocatePages src (roundToPage size) false).1 ≠ 0 := by
  unfold allocateChunk at hok
  simp only at hok
  split at hok
  · exact absurd (Prod.mk.inj hok).1 (by simp)
  · assumption

/-- **Taking a chunk**, when it is not the last free `ChunkInfo` that is taken for it. -/
theorem takeChunk_pool {src : PageSource} {s s₁ s₂ : State} {page index size : ℕ} {b : Bool}
    (h : PoolInv s) (hget : getFreeChunk src s = .ok (some (page, index), s₁))
    (halloc : allocateChunk src s₁ page index size = (b, s₂))
    (hlast : (s.pages.allocatePages src (roundToPage size) false).1 ≠ 0 →
      findFreeChunkInList s = .ok (some (page, index)) →
      isChungusFull (markUsed (s.memory page) index) = false) :
    PoolInv s₂ ∧ page ∈ s₂.pool := by
  obtain ⟨h₁, hfound⟩ := getFreeChunk_pool h hget
  obtain ⟨hmem, hcase⟩ := hfound page index rfl
  have hnot : b = true → isChungusFull (markUsed (s₁.memory page) index) = false := by
    rintro rfl
    rcases hcase with ⟨rfl, hlist⟩ | hnew
    · exact hlast (allocateChunk_last halloc) hlist
    · exact hnew
  obtain ⟨h₂, hpool, -⟩ := h₁.allocateChunk halloc hnot
  exact ⟨h₂, hpool ▸ hmem⟩

/-- **A new chunk for a bucket** keeps the invariant, as long as its `ChunkInfo` is not the
last free one of the Chungus. -/
theorem newSmallChunk_pool {src : PageSource} {s s' : State} {bucket : Node} {size : ℕ}
    {r : Option (ℕ × ℕ)} (h : PoolInv s) (hbucket : bucket.InBucket)
    (hlast : ∀ page index, (s.pages.allocatePages src (roundToPage size) false).1 ≠ 0 →
      findFreeChunkInList s = .ok (some (page, index)) →
      isChungusFull (markUsed (s.memory page) index) = false)
    (hok : newSmallChunk src s bucket size = .ok (r, s')) : PoolInv s' := by
  unfold newSmallChunk at hok
  obtain ⟨⟨found, s₁⟩, hget, hok⟩ := bind_eq_ok.mp hok
  match found with
  | none =>
      obtain ⟨-, rfl⟩ := Prod.mk.inj (Except.ok.inj hok)
      exact (getFreeChunk_pool h hget).1
  | some (page, index) =>
      simp only at hok
      generalize halloc : allocateChunk src s₁ page index size = alloc at hok
      obtain ⟨b, s₂⟩ := alloc
      obtain ⟨h₂, hmem⟩ := takeChunk_pool h hget halloc (hlast page index)
      cases b with
      | false =>
          obtain ⟨-, rfl⟩ := Prod.mk.inj (Except.ok.inj hok)
          exact h₂
      | true =>
          simp only at hok
          obtain ⟨⟨ok, map, ps⟩, hins, hok⟩ := bind_eq_ok.mp hok
          have h₃ := h₂.insert hins (by
            rintro p i ⟨⟩
            exact hmem)
          cases ok with
          | false =>
              obtain ⟨s₃, hfree, hok⟩ := bind_eq_ok.mp hok
              obtain ⟨-, rfl⟩ := Prod.mk.inj (Except.ok.inj hok)
              exact (h₃.freeChunk hfree).1
          | true =>
              obtain ⟨links, hpush, hok⟩ := bind_eq_ok.mp hok
              obtain ⟨-, rfl⟩ := Prod.mk.inj (Except.ok.inj hok)
              exact h₃.setLinks (pushFront_within h₂.buckets hbucket (inBucket_chunk _ _) hpush)

/-- The bucket that is returned for an order is the list head of this order. -/
theorem smallBucket_eq {order : ℕ} {bucket : Node} (h : smallBucket order = .ok bucket) :
    bucket = .bucket order := by
  unfold smallBucket at h
  split at h
  · exact (Except.ok.inj h).symm
  · exact absurd h (by simp)

/-- **An allocation of a small block** that does not take the last free `ChunkInfo` of a
Chungus. -/
theorem allocateSmallbucket_pool {src : PageSource} {s s' : State} {size res : ℕ} (h : PoolInv s)
    (hsmall : size < bigbucketThreshold) (hlast : ¬ TakesLast src s size)
    (hok : allocateSmallbucket src s size = .ok (res, s')) : PoolInv s' := by
  unfold allocateSmallbucket at hok
  rw [if_neg (by omega)] at hok
  simp only at hok
  obtain ⟨order, horder, hok⟩ := bind_eq_ok.mp hok
  obtain ⟨bucket, hbucket, hok⟩ := bind_eq_ok.mp hok
  obtain rfl := smallBucket_eq hbucket
  obtain ⟨⟨taken, s₁⟩, htake, hok⟩ := bind_eq_ok.mp hok
  have h₁ : PoolInv s₁ := by
    unfold takeSmallChunk at htake
    split at htake
    · rename_i hempty
      refine newSmallChunk_pool h (inBucket_bucket order) ?_ htake
      intro page index hpages hfound
      by_contra hfull
      refine hlast ⟨?_, ?_, page, index, hfound, by simpa using hfull⟩
      · rw [NeedsChunk, if_pos hsmall, chunkSize, if_pos hsmall]
        exact ⟨order, horder, hempty⟩
      · rw [chunkSize, if_pos hsmall]
        exact hpages
    · split at htake
      · exact absurd htake (by simp)
      · obtain ⟨pi, -, htake⟩ := bind_eq_ok.mp htake
        obtain ⟨-, rfl⟩ := Prod.mk.inj (Except.ok.inj htake)
        exact h
  cases taken with
  | none =>
      obtain ⟨-, rfl⟩ := Prod.mk.inj (Except.ok.inj hok)
      exact h₁
  | some pi =>
      obtain ⟨page, index⟩ := pi
      simp only at hok
      obtain ⟨⟨block, chunk⟩, -, hok⟩ := bind_eq_ok.mp hok
      have h₂ := h₁.setChunk (.pool page index) chunk
      simp only at hok
      split at hok
      · obtain ⟨links, hpop, hok⟩ := bind_eq_ok.mp hok
        obtain ⟨-, rfl⟩ := Prod.mk.inj (Except.ok.inj hok)
        exact h₂.setLinks (pop_within h₂.buckets (inBucket_bucket _) (inBucket_chunk _ _) hpop)
      · obtain ⟨-, rfl⟩ := Prod.mk.inj (Except.ok.inj hok)
        exact h₂

/-- **An allocation of a large block** that does not take the last free `ChunkInfo` of a
Chungus. -/
theorem allocateLargebucket_pool {src : PageSource} {s s' : State} {size res : ℕ} (h : PoolInv s)
    (hlarge : ¬ size < bigbucketThreshold) (hlast : ¬ TakesLast src s size)
    (hok : allocateLargebucket src s size = .ok (res, s')) : PoolInv s' := by
  unfold allocateLargebucket at hok
  split at hok
  · -- the block comes from the cache
    obtain ⟨⟨ok, map, ps⟩, hins, hok⟩ := bind_eq_ok.mp hok
    have h₁ := h.insert hins (by rintro p i ⟨⟩)
    cases ok with
    | false =>
        obtain ⟨-, rfl⟩ := Prod.mk.inj (Except.ok.inj hok)
        exact h₁
    | true =>
        obtain ⟨-, rfl⟩ := Prod.mk.inj (Except.ok.inj hok)
        exact h₁.setChunk (.cached _) _
  · -- the block gets pages of its own
    rename_i hnone
    obtain ⟨⟨found, s₁⟩, hget, hok⟩ := bind_eq_ok.mp hok
    cases found with
    | none =>
        obtain ⟨-, rfl⟩ := Prod.mk.inj (Except.ok.inj hok)
        exact (getFreeChunk_pool h hget).1
    | some pi =>
        obtain ⟨page, index⟩ := pi
        simp only at hok
        generalize halloc : allocateChunk src s₁ page index size = alloc at hok
        obtain ⟨b, s₂⟩ := alloc
        obtain ⟨h₂, hmem⟩ := takeChunk_pool h hget halloc (by
          intro hpages hfound
          by_contra hfull
          refine hlast ⟨?_, ?_, page, index, hfound, by simpa using hfull⟩
          · rw [NeedsChunk, if_neg hlarge]
            exact hnone
          · rw [chunkSize, if_neg hlarge]
            exact hpages)
        cases b with
        | false =>
            obtain ⟨-, rfl⟩ := Prod.mk.inj (Except.ok.inj hok)
            exact h₂
        | true =>
            simp only at hok
            obtain ⟨⟨ok, map, ps⟩, hins, hok⟩ := bind_eq_ok.mp hok
            have h₃ := h₂.insert hins (by
              rintro p i ⟨⟩
              exact hmem)
            cases ok with
            | false =>
                obtain ⟨s₃, hfree, hok⟩ := bind_eq_ok.mp hok
                obtain ⟨-, rfl⟩ := Prod.mk.inj (Except.ok.inj hok)
                exact (h₃.freeChunk hfree).1
            | true =>
                obtain ⟨-, rfl⟩ := Prod.mk.inj (Except.ok.inj hok)
                exact h₃

/-- **An allocation** that does not take the last free `ChunkInfo` of a Chungus. -/
theorem malloc_pool {src : PageSource} {s s' : State} {size res : ℕ} (h : PoolInv s)
    (hlast : ¬ TakesLast src s size) (hok : malloc src s size = .ok (res, s')) : PoolInv s' := by
  unfold malloc at hok
  split at hok
  · exact allocateSmallbucket_pool h (by assumption) hlast hok
  · exact allocateLargebucket_pool h (by assumption) hlast hok

/-! ### Giving a ChunkInfo back -/

/-- A Chungus that is not full is not full after a `ChunkInfo` is marked as free either. -/
theorem markFree_not_full {c : Chungus} {i : ℕ} (h : isChungusFull c = false) :
    isChungusFull (markFree c i) = false := by
  rw [← hasFree_iff] at h ⊢
  obtain ⟨j, hj, hbit⟩ := h
  refine ⟨j, hj, ?_⟩
  by_cases hlen : i / 64 < c.bitmap.length
  · rw [markFree, bit_set _ _ _ _ hlen]
    split
    · rename_i heq
      rw [heq, BitVec.getMsbD_and, show (word c.bitmap (j / 64)).getMsbD (j % 64) = false from hbit,
        Bool.false_and]
    · exact hbit
  · rw [markFree, List.set_eq_of_length_le (by omega)]
    exact hbit

/-- **Giving a `ChunkInfo` back** to its Chungus, which may free this Chungus, keeps the
invariant of the pool. -/
theorem releaseChunkInfo_pool {s s' : State} {page index : ℕ} (h : PoolInv s)
    (hpage : page ∈ s.pool) (hok : releaseChunkInfo s page index = .ok s') : PoolInv s' := by
  have hpool : s.pool = [page] := by
    have hlen := h.single
    obtain ⟨p, hp⟩ := List.length_eq_one_iff.mp
      (le_antisymm hlen (List.length_pos_of_mem hpage))
    rw [hp] at hpage ⊢
    rw [List.mem_singleton.mp hpage]
  have hnot := h.notFull page hpage
  set s₁ : State :=
    { s with memory := Function.update s.memory page (markFree (s.memory page) index) } with hs₁
  have h₁ : PoolInv s₁ := by
    refine ⟨h.ring, h.single, ?_, h.buckets, h.values⟩
    intro p hp
    rw [hpool, List.mem_singleton] at hp
    simp only [hs₁, hp, Function.update_self]
    exact markFree_not_full hnot
  -- There is no other Chungus, so this one is kept.
  have hkeep : shouldFreeChungus s₁ page = .ok false := by
    have hring := h₁.ring
    rw [show s₁.pool = [page] from hpool] at hring
    rw [shouldFreeChungus, foreach_eq hring (by simp [State.steps])]
    simp [foldUntil, chungusOfNode, bind, Except.bind, pure, Except.pure]
    decide
  unfold releaseChunkInfo at hok
  simp only [hnot, Bool.false_eq_true, if_false, ← hs₁, hkeep, bind, Except.bind] at hok
  split at hok
  · exact (Except.ok.inj hok) ▸ h₁
  · exact (Except.ok.inj hok) ▸ h₁

/-- **Freeing a small block** keeps the invariant of the pool, also where its chunk becomes
empty and is given back. -/
theorem freeSmallbucket_pool {s s' : State} {entry ptr : ℕ} (h : PoolInv s)
    (hok : freeSmallbucket s entry ptr = .ok s') : PoolInv s' := by
  unfold freeSmallbucket at hok
  simp only at hok
  obtain ⟨chunk, -, hok⟩ := bind_eq_ok.mp hok
  obtain ⟨order, -, hok⟩ := bind_eq_ok.mp hok
  obtain ⟨bucket, hbucket, hok⟩ := bind_eq_ok.mp hok
  obtain rfl := smallBucket_eq hbucket
  split at hok
  · rename_i page index hvalue
    have hpage : page ∈ s.pool := by
      rcases Hashmap.entryAt_mem s.allocMap.entries entry with hmem | hempty
      · exact h.values _ hmem page index hvalue
      · rw [hempty] at hvalue
        exact absurd hvalue (emptyEntry_value_ne page index)
    have h₁ := h.setChunk (.pool page index) (freeBlock chunk ptr)
    split at hok
    · obtain ⟨links, hpush, hok⟩ := bind_eq_ok.mp hok
      rw [← Except.ok.inj hok]
      exact h₁.setLinks (pushFront_within h₁.buckets (inBucket_bucket _) (inBucket_chunk _ _) hpush)
    split at hok
    · obtain ⟨free, -, hok⟩ := bind_eq_ok.mp hok
      cases free with
      | false => exact (Except.ok.inj hok) ▸ h₁
      | true =>
          obtain ⟨links, hpop, hok⟩ := bind_eq_ok.mp hok
          obtain ⟨s₂, hfree, hok⟩ := bind_eq_ok.mp hok
          obtain ⟨map, hdel, hok⟩ := bind_eq_ok.mp hok
          have h₂ := h₁.setLinks
            (pop_within h₁.buckets (inBucket_bucket _) (inBucket_chunk _ _) hpop)
          obtain ⟨h₃, hpool⟩ := h₂.freeChunk hfree
          refine releaseChunkInfo_pool (h₃.delete hdel) ?_ hok
          exact hpool ▸ hpage
    · exact (Except.ok.inj hok) ▸ h₁
  · exact absurd hok (by simp)

/-- **Freeing a large block** keeps the invariant of the pool, whether its chunk is cached or
its pages are freed. -/
theorem freeLargebucket_pool {s s' : State} {entry : ℕ} (h : PoolInv s)
    (hok : freeLargebucket s entry = .ok s') : PoolInv s' := by
  unfold freeLargebucket at hok
  simp only at hok
  obtain ⟨chunk, -, hok⟩ := bind_eq_ok.mp hok
  split at hok
  · obtain ⟨map, hdel, hok⟩ := bind_eq_ok.mp hok
    rw [← Except.ok.inj hok]
    exact (h.setChunk (.cached _) chunk).delete hdel
  · obtain ⟨s₁, hfree, hok⟩ := bind_eq_ok.mp hok
    obtain ⟨map, hdel, hok⟩ := bind_eq_ok.mp hok
    rw [← Except.ok.inj hok]
    exact (h.freeChunk hfree).1.delete hdel

/-- **A free** of any block, small or large, keeps the invariant of the pool. -/
theorem free_pool {s s' : State} {ptr : ℕ} (h : PoolInv s) (hok : free s ptr = .ok s') :
    PoolInv s' := by
  unfold free at hok
  split at hok
  · exact (Except.ok.inj hok) ▸ h
  · obtain ⟨found, -, hok⟩ := bind_eq_ok.mp hok
    cases found with
    | none => exact absurd hok (by simp)
    | some entry =>
        simp only at hok
        obtain ⟨chunk, -, hok⟩ := bind_eq_ok.mp hok
        split at hok
        · exact freeSmallbucket_pool h hok
        · exact freeLargebucket_pool h hok

/-! ### Every run -/

/-- **One step** of a run keeps the invariant, when an allocation leaves a free `ChunkInfo` in
the Chungus. -/
theorem PoolInv.step {src : PageSource} {m m' : Session} {c : Call} (h : PoolInv m.heap)
    (hstep : Step src m c m') (hleaves : LeavesFree src m c) : PoolInv m'.heap := by
  cases hstep with
  | null hok => exact malloc_pool h hleaves.2 hok
  | malloc hok _ => exact malloc_pool h hleaves.2 hok
  | free _ hok => exact free_pool h hok

/-- Under the invariant the list has exactly the Chunguses with a free `ChunkInfo`, which are
all those of the pool. -/
theorem PoolInv.listed {s : State} (h : PoolInv s) : Listed s s.pool where
  ring := h.ring
  mem_iff := fun page =>
    ⟨fun hp => ⟨hp, hasFree_iff.mpr (h.notFull page hp)⟩, fun hp => hp.1⟩
  ends := fun b body => foreach_eq h.ring
    (by
      have := h.single
      rw [List.length_map, State.steps]
      omega) b body

/-- **The list of Chunguses over whole runs.** In every run from the initial heap, with any
source of pages, in which no allocation takes the last free `ChunkInfo` of a Chungus and none
is for a size between half a page and a page, for which there is no bucket: the list
`partialChunguses` is a circular list of exactly the Chunguses with a free `ChunkInfo`,
each of them once, and loops over it end. -/
theorem pool_run_listed {src : PageSource} {memory : ℕ → Chungus} {cs : List Call} {m : Session}
    (h : Runs (fun m c m' => Step src m c m' ∧ LeavesFree src m c) (.start memory) cs m) :
    ∃ pages, Listed m.heap pages := by
  have hinv : PoolInv m.heap := h.invariant (I := fun m => PoolInv m.heap) (.start memory)
    fun _ _ _ hi hstep => hi.step hstep.1 hstep.2
  exact ⟨m.heap.pool, hinv.listed⟩

/-- A call, if it may be made and returns, with the live blocks after it. -/
def Session.exec (src : PageSource) (m : Session) : Call → Option Session
  | .malloc size =>
      match malloc src m.heap size with
      | .ok (0, s) => some ⟨s, m.live⟩
      | .ok (res, s) => some ⟨s, (res, size) :: m.live⟩
      | .error _ => none
  | .free ptr =>
      match m.live.find? fun b => decide (b.1 = ptr), free m.heap ptr with
      | some b, .ok s => some ⟨s, m.live.erase b⟩
      | _, _ => none

/-- A sequence of calls, if each of them may be made and returns. -/
def Session.execs (src : PageSource) : Session → List Call → Option Session
  | m, [] => some m
  | m, c :: cs => (m.exec src c).bind fun m => m.execs src cs

/-- A call that the executable semantics carries out is a step of the relation. -/
theorem step_of_exec {src : PageSource} {m m' : Session} {c : Call} (h : m.exec src c = some m') :
    Step src m c m' := by
  cases c with
  | malloc size =>
      rw [Session.exec] at h
      split at h
      · rename_i s hok
        exact Option.some.inj h ▸ .null hok
      · rename_i res s hres hok
        exact Option.some.inj h ▸ .malloc hok hres
      · exact absurd h (by simp)
  | free ptr =>
      rw [Session.exec] at h
      split at h
      · rename_i b s hfind hok
        obtain ⟨p, size⟩ := b
        obtain rfl : p = ptr := by simpa using List.find?_some hfind
        exact Option.some.inj h ▸ .free (List.mem_of_find?_eq_some hfind) hok
      · exact absurd h (by simp)

/-- A run followed by calls that the executable semantics carries out is a run of all these
calls. -/
theorem runs_append_execs {src : PageSource} {m₀ m m' : Session} {cs cs' : List Call}
    (hruns : Runs (Step src) m₀ cs m) (h : m.execs src cs' = some m') :
    Runs (Step src) m₀ (cs ++ cs') m' := by
  induction cs' generalizing cs m with
  | nil =>
      obtain rfl := Option.some.inj h
      simpa using hruns
  | cons c cs' ih =>
      rw [Session.execs, Option.bind_eq_some_iff] at h
      obtain ⟨m₁, hexec, hrest⟩ := h
      simpa using ih (hruns.snoc (step_of_exec hexec)) hrest

/-- Calls that the executable semantics carries out one after the other are a run of the
relation. -/
theorem runs_of_execs {src : PageSource} {m m' : Session} {cs : List Call}
    (h : m.execs src cs = some m') : Runs (Step src) m cs m' :=
  runs_append_execs .nil h

/-- Memory that was never written to. -/
def blankMemory : ℕ → Chungus := fun _ => ⟨[], fun _ => ⟨0, 0, 0#64⟩⟩

/-- A source with a page for the Chungus, one for the hash map and some for a block. -/
def reuseSource : PageSource :=
  PageSource.checked fun _ _ n clear =>
    if clear then 0x2000000 else if n = 1 then 0x1000000 else 0x307f000

/-- A block of 16 pages is allocated and freed again and again, and once more allocated. -/
def againAndAgain (n : ℕ) : List Call :=
  (List.replicate n [Call.malloc bigblocksCacheMaxsize, .free 0x307f000]).flatten ++
    [.malloc bigblocksCacheMaxsize]

/-- The observation that the Chungus is full and linked. -/
def fullAndLinked (m : Session) : Bool :=
  decide (m.heap.links.next .chunguses = some (.chungus 0x1000000)) &&
    isChungusFull (m.heap.memory 0x1000000)

/-- In a heap whose list starts with a Chungus that is full, the list is not one of Chunguses
that all have room. -/
theorem not_listed_of_fullAndLinked {m : Session} (h : fullAndLinked m = true) :
    ¬ ∃ pages, Listed m.heap pages := by
  simp only [fullAndLinked, Bool.and_eq_true, decide_eq_true_eq] at h
  obtain ⟨hnext, hfull⟩ := h
  rintro ⟨pages, hring, hmem, -⟩
  have hhead := hring.next_head.symm.trans hnext
  cases pages with
  | nil => exact absurd (Option.some.inj hhead) (by simp)
  | cons page rest =>
      obtain rfl : page = 0x1000000 := by simpa using hhead
      have hfree := ((hmem 0x1000000).mp List.mem_cons_self).2
      rw [hasFree_iff, hfull] at hfree
      exact absurd hfree (by decide)

/-- **A full Chungus stays in the list**: 101 allocations of 16 pages, all but the last of
them freed at once, use up the elements of a Chungus, which is then full and still linked. -/
theorem full_chungus_stays_listed : ∃ m,
    Runs (Step reuseSource) (.start blankMemory) (againAndAgain 100) m ∧
      ¬ ∃ pages, Listed m.heap pages := by
  have hrun : ((Session.execs reuseSource (.start blankMemory) (againAndAgain 100)).map
      fullAndLinked) = some true := by decide +kernel
  obtain ⟨m, hm, hfull⟩ := Option.map_eq_some_iff.mp hrun
  exact ⟨m, runs_of_execs hm, not_listed_of_fullAndLinked hfull⟩

/-- The guarantee at a concrete run: one page is allocated, which does not take the last
`ChunkInfo`. -/
theorem pool_run_listed_onePage : ∃ m,
    Runs (fun m c m' => Step reuseSource m c m' ∧ LeavesFree reuseSource m c)
      (.start blankMemory) [.malloc bigblocksCacheMaxsize] m ∧
      ∃ pages, Listed m.heap pages := by
  have hrun : (Session.exec reuseSource (.start blankMemory)
      (.malloc bigblocksCacheMaxsize)).isSome = true := by decide +kernel
  obtain ⟨m, hm⟩ := Option.isSome_iff_exists.mp hrun
  have hleaves : LeavesFree reuseSource (.start blankMemory) (.malloc bigblocksCacheMaxsize) := by
    refine ⟨.inr (by norm_num), ?_⟩
    rintro ⟨-, -, page, index, hfound, -⟩
    have hnone := findFreeChunkInList_none rfl (PoolInv.start blankMemory)
    exact absurd (hfound.symm.trans hnone) (by simp)
  have hruns : Runs (fun m c m' => Step reuseSource m c m' ∧ LeavesFree reuseSource m c)
      (.start blankMemory) [.malloc bigblocksCacheMaxsize] m :=
    .snoc .nil ⟨step_of_exec hm, hleaves⟩
  exact ⟨m, hruns, pool_run_listed hruns⟩

end MugOS.Heap
