import MugOS.HeapSafety
import MugOS.HeapProgress
import MugOS.HashmapGrowth
import MugOS.MemoryFunctions

/-!
# Moving Blocks

`Heap_realloc` looks up the entry of the old block in the hash map, allocates the new block, and
frees the old one through the entry that it found. The allocation may enter a new chunk into the
hash map, and the hash map may grow for it and give back the page of the table in which the entry
lies.

## Main results

* `malloc_enters`: an allocation enters one chunk at most.
* `Enters.entries`: the entries stay where they are if the table does.
* `freeSmallbucketStale_eq`: as long as the chunk stays registered, it does not matter to which
  table the entry belongs.
-/

namespace MugOS.Heap

open WordBitmap Hashmap LinkedList Links

/-! ### The code -/

/-- What is found through a pointer to an entry of the table of the hash map `old` when the hash
map is that of the heap `s`: the entry itself if the table is still the same one; a copy that is
not part of the hash map, `none`, if the table was replaced but the page of the entry was not given
back. -/
def staleEntry (old : Hashmap ChunkRef) (s : State) (entry : ℕ) : Except Fault (Option ℕ) :=
  if s.allocMap.base = old.base then .ok (some entry)
  else if getPage (old.base + entry * entrySize) ∈ s.pages.owned then .ok none
  else .error .wild

/-- `freeSmallbucket(entry, ptr)` for an entry with the value `ref` that is not part of the hash
map: `Hashmap_delete` fails its assertion. -/
def freeSmallbucketStale (s : State) (ref : ChunkRef) (ptr : ℕ) : Except Fault State := do
  let chunk ← s.chunk ref
  let order ← getSmallbucketOrder chunk.size
  let bucket ← smallBucket order
  match ref with
  | .pool page index =>
      let addToBucket := isChunkFull chunk
      let chunk := freeBlock chunk ptr
      let s := s.setChunk (.pool page index) chunk
      if addToBucket then
        let links ← pushFront s.links bucket (.chunk page index)
        return { s with links := links }
      else if isChunkEmpty chunk then
        if ← shouldFreeChunk s bucket page index then
          let links ← pop s.links bucket (.chunk page index)
          let _ ← freeChunk { s with links := links } (.pool page index)
          .error .assertion
        else return s
      else return s
  | _ => .error .wild

/-- `freeLargebucket(entry)` for an entry with the value `ref` that is not part of the hash map:
in both cases `Hashmap_delete` fails its assertion. -/
def freeLargebucketStale (s : State) (ref : ChunkRef) : Except Fault State := do
  let chunk ← s.chunk ref
  match if chunk.size < bigblocksCacheMaxsize then emptySlot s.freeCache else none with
  | some _ => .error .assertion
  | none =>
      let _ ← freeChunk s ref
      .error .assertion

/-- `freeSmallbucket(map_entry, ptr)` for the entry that was found in the heap `old`. -/
def freeOldSmall (old s : State) (mapEntry ptr : ℕ) : Except Fault State := do
  match ← staleEntry old.allocMap s mapEntry with
  | some entry => freeSmallbucket s entry ptr
  | none => freeSmallbucketStale s (entryAt old.allocMap.entries mapEntry).value ptr

/-- `freeLargebucket(map_entry)` for the entry that was found in the heap `old`. -/
def freeOldLarge (old s : State) (mapEntry : ℕ) : Except Fault State := do
  match ← staleEntry old.allocMap s mapEntry with
  | some entry => freeLargebucket s entry
  | none => freeLargebucketStale s (entryAt old.allocMap.entries mapEntry).value

/-- The part of `Heap_realloc` in which a block is moved to a larger one. -/
def moveBlock (src : PageSource) (s : State) (mem : Bytes) (mapEntry ptr oldSize newSize : ℕ) :
    Except Fault (ℕ × State × Bytes) :=
  if newSize < bigbucketThreshold then do
    let (newPtr, s') ← allocateSmallbucket src s newSize
    if newPtr = 0 then return (0, s', mem)
    else
      let mem := memcpy mem newPtr ptr oldSize
      let s' ← freeOldSmall s s' mapEntry ptr
      return (newPtr, s', mem)
  else do
    let (newPtr, s') ← allocateLargebucket src s newSize
    if newPtr = 0 then return (0, s', mem)
    else
      let mem := memcpy mem newPtr ptr oldSize
      let s' ←
        if oldSize < bigbucketThreshold then freeOldSmall s s' mapEntry ptr
        else freeOldLarge s s' mapEntry
      return (newPtr, s', mem)

/-- `Heap_realloc(ptr, newSize)`: the block, 0 for `NULL`, with the heap and the bytes of the
blocks. -/
def realloc (src : PageSource) (s : State) (mem : Bytes) (ptr newSize : ℕ) :
    Except Fault (ℕ × State × Bytes) :=
  if ptr = 0 then do
    let (res, s) ← malloc src s newSize
    return (res, s, mem)
  else if newSize = 0 then do
    let s ← free s ptr
    return (0, s, mem)
  else do
    match ← Hashmap.find s.allocMap ptr with
    | none => .error .panic
    | some mapEntry =>
        let chunk ← s.chunk (entryAt s.allocMap.entries mapEntry).value
        if chunk.size ≥ newSize then return (ptr, s, mem)
        else moveBlock src s mem mapEntry ptr chunk.size newSize

/-! ### The table of the hash map -/

/-- What an allocation does to the hash map: nothing, or it enters a chunk. -/
def Enters (src : PageSource) (s s' : State) : Prop :=
  s'.allocMap = s.allocMap ∨ ∃ base v ps, (∀ q ∈ s.pages.owned, q ∈ ps.owned) ∧
    Hashmap.insert src s.allocMap ps base v = .ok (true, s'.allocMap, s'.pages)

section

variable {src : PageSource} {s s' : State} {owner : ℕ → Option Owner} {B : ℕ → List (ℕ × ℕ)}

/-- Giving the pages of a chunk back does not change the hash map. -/
theorem freeChunk_allocMap {ref : ChunkRef} (hok : freeChunk s ref = .ok s') :
    s'.allocMap = s.allocMap := by
  unfold freeChunk at hok
  obtain ⟨chunk, -, hok⟩ := bind_eq_ok.mp hok
  obtain ⟨s₁, hfree, hok⟩ := bind_eq_ok.mp hok
  unfold State.freePages at hfree
  split at hfree
  · obtain rfl := Except.ok.inj hfree
    obtain rfl := Except.ok.inj hok
    cases ref <;> rfl
  · cases hfree

/-- A chunk that is searched for and gets pages does not change the hash map. -/
theorem chunk_allocMap (hsrc : src.Sound) (h : Shape s owner) (hl : Lists s B) {s₁ s₂ : State}
    {page index size : ℕ} {b : Bool} (hfree : getFreeChunk src s = .ok (some (page, index), s₁))
    (halloc : allocateChunk src s₁ page index size = (b, s₂)) :
    s₂.allocMap = s.allocMap ∧ ∀ q ∈ s.pages.owned, q ∈ s₂.pages.owned := by
  obtain ⟨hmap₁, howned₁⟩ : s₁.allocMap = s.allocMap ∧ ∀ q ∈ s.pages.owned, q ∈ s₁.pages.owned := by
    rcases getFreeChunk_cases hsrc h hl hfree with ⟨hnone, -⟩ | ⟨p, i, -, hsearched, -⟩
    · cases hnone
    · cases hsearched with
      | same => exact ⟨rfl, fun q hq => hq⟩
      | added hfresh hps _ _ =>
          refine ⟨rfl, fun q hq => ?_⟩
          rw [State.addChungus, hps]
          exact List.mem_append_left _ hq
  rcases allocateChunk_cases hsrc halloc with
    ⟨-, ps, hps, -, rfl⟩ | ⟨-, base, ps, -, hps, -, rfl⟩
  · refine ⟨hmap₁, fun q hq => ?_⟩
    change q ∈ ps.owned
    rw [hps]
    exact howned₁ q hq
  · refine ⟨hmap₁, fun q hq => ?_⟩
    change q ∈ ps.owned
    rw [hps]
    exact List.mem_append_left _ (howned₁ q hq)

/-- A search for a `ChunkInfo` that finds none does not change the hash map. -/
theorem getFreeChunk_allocMap (hsrc : src.Sound) (h : Shape s owner) (hl : Lists s B)
    (hfree : getFreeChunk src s = .ok (none, s')) : s'.allocMap = s.allocMap := by
  rcases getFreeChunk_cases hsrc h hl hfree with ⟨-, ps, -, -, rfl⟩ | ⟨_, _, hsome, -⟩
  · rfl
  · cases hsome

/-- Taking a chunk for a small block leaves the hash map as it was, or enters the new chunk. -/
theorem takeSmallChunk_enters (hsrc : src.Sound) (h : Shape s owner) (hl : Lists s B)
    {bucket : Node} {size : ℕ} {r : Option (ℕ × ℕ)}
    (hok : takeSmallChunk src s bucket size = .ok (r, s')) : Enters src s s' := by
  unfold takeSmallChunk at hok
  split at hok
  swap
  · split at hok
    · cases hok
    · obtain ⟨node, -, hok⟩ := bind_eq_ok.mp hok
      obtain ⟨-, rfl⟩ := Prod.mk.inj (Except.ok.inj hok)
      exact .inl rfl
  unfold newSmallChunk at hok
  obtain ⟨⟨found, s₁⟩, hfree, hok⟩ := bind_eq_ok.mp hok
  cases found with
  | none =>
      obtain ⟨-, rfl⟩ := Prod.mk.inj (Except.ok.inj hok)
      exact .inl (getFreeChunk_allocMap hsrc h hl hfree)
  | some pi =>
      obtain ⟨page, index⟩ := pi
      simp only at hok
      generalize halloc : allocateChunk src s₁ page index size = alloc at hok
      obtain ⟨b, s₂⟩ := alloc
      obtain ⟨hmap, howned⟩ := chunk_allocMap hsrc h hl hfree halloc
      cases b with
      | false =>
          obtain ⟨-, rfl⟩ := Prod.mk.inj (Except.ok.inj hok)
          exact .inl hmap
      | true =>
          simp only at hok
          obtain ⟨⟨ok, map, ps⟩, hins, hok⟩ := bind_eq_ok.mp hok
          rw [hmap] at hins
          cases ok with
          | false =>
              obtain ⟨s₃, hfreed, hok⟩ := bind_eq_ok.mp hok
              obtain ⟨-, rfl⟩ := Prod.mk.inj (Except.ok.inj hok)
              exact .inl ((freeChunk_allocMap hfreed).trans (insert_failed hins))
          | true =>
              obtain ⟨links, -, hok⟩ := bind_eq_ok.mp hok
              obtain ⟨-, rfl⟩ := Prod.mk.inj (Except.ok.inj hok)
              exact .inr ⟨_, _, _, howned, hins⟩

/-- The allocation of a small block leaves the hash map as it was, or enters the new chunk. -/
theorem allocateSmallbucket_enters (hsrc : src.Sound) (h : Shape s owner) (hl : Lists s B)
    {size res : ℕ} (hok : allocateSmallbucket src s size = .ok (res, s')) : Enters src s s' := by
  unfold allocateSmallbucket at hok
  split at hok
  · cases hok
  obtain ⟨order, -, hok⟩ := bind_eq_ok.mp hok
  obtain ⟨bucket, -, hok⟩ := bind_eq_ok.mp hok
  obtain ⟨⟨r, s₁⟩, htake, hok⟩ := bind_eq_ok.mp hok
  have henters := takeSmallChunk_enters hsrc h hl htake
  cases r with
  | none =>
      obtain ⟨-, rfl⟩ := Prod.mk.inj (Except.ok.inj hok)
      exact henters
  | some pi =>
      obtain ⟨page, index⟩ := pi
      obtain ⟨⟨block, chunk⟩, -, hok⟩ := bind_eq_ok.mp hok
      simp only at hok
      split at hok
      · obtain ⟨links, -, hok⟩ := bind_eq_ok.mp hok
        obtain ⟨-, rfl⟩ := Prod.mk.inj (Except.ok.inj hok)
        exact henters
      · obtain ⟨-, rfl⟩ := Prod.mk.inj (Except.ok.inj hok)
        exact henters

/-- The allocation of a large block that is not cached leaves the hash map as it was, or enters
the block. -/
theorem allocateLargebucket_enters (hsrc : src.Sound) (h : Shape s owner) (hl : Lists s B)
    {size res : ℕ} (hslot : fittingSlot s.freeCache size = none)
    (hok : allocateLargebucket src s size = .ok (res, s')) : Enters src s s' := by
  unfold allocateLargebucket at hok
  simp only [hslot] at hok
  obtain ⟨⟨found, s₁⟩, hfree, hok⟩ := bind_eq_ok.mp hok
  cases found with
  | none =>
      obtain ⟨-, rfl⟩ := Prod.mk.inj (Except.ok.inj hok)
      exact .inl (getFreeChunk_allocMap hsrc h hl hfree)
  | some pi =>
      obtain ⟨page, index⟩ := pi
      simp only at hok
      generalize halloc : allocateChunk src s₁ page index size = alloc at hok
      obtain ⟨b, s₂⟩ := alloc
      obtain ⟨hmap, howned⟩ := chunk_allocMap hsrc h hl hfree halloc
      cases b with
      | false =>
          obtain ⟨-, rfl⟩ := Prod.mk.inj (Except.ok.inj hok)
          exact .inl hmap
      | true =>
          simp only at hok
          obtain ⟨⟨ok, map, ps⟩, hins, hok⟩ := bind_eq_ok.mp hok
          rw [hmap] at hins
          cases ok with
          | false =>
              obtain ⟨s₃, hfreed, hok⟩ := bind_eq_ok.mp hok
              obtain ⟨-, rfl⟩ := Prod.mk.inj (Except.ok.inj hok)
              exact .inl ((freeChunk_allocMap hfreed).trans (insert_failed hins))
          | true =>
              obtain ⟨-, rfl⟩ := Prod.mk.inj (Except.ok.inj hok)
              exact .inr ⟨_, _, _, howned, hins⟩

/-- **An allocation enters one chunk at most** into the hash map, as long as it takes nothing
from the cache. -/
theorem malloc_enters (hsrc : src.Sound) (h : Shape s owner) (hl : Lists s B) {size res : ℕ}
    (hslot : bigbucketThreshold ≤ size → fittingSlot s.freeCache size = none)
    (hok : malloc src s size = .ok (res, s')) : Enters src s s' := by
  unfold malloc at hok
  split at hok
  · exact allocateSmallbucket_enters hsrc h hl hok
  · exact allocateLargebucket_enters hsrc h hl (hslot (by omega)) hok

/-- **The entries stay where they are** if the table of the hash map does. -/
theorem Enters.entries (hsrc : src.Sound) (h : Shape s owner) (henters : Enters src s s')
    (hbase : s'.allocMap.base = s.allocMap.base) {entry : ℕ}
    (hkey : keyAt s.allocMap.entries entry ≠ 0) (hentry : entry < s.allocMap.totalEntries) :
    s'.allocMap.totalEntries = s.allocMap.totalEntries ∧
      entryAt s'.allocMap.entries entry = entryAt s.allocMap.entries entry := by
  rcases henters with hsame | ⟨base, v, ps, howned, hins⟩
  · rw [hsame]
    exact ⟨rfl, rfl⟩
  by_cases hneeds : NeedsGrowth s.allocMap
  · -- the old table is in use, so the new one is elsewhere
    have hheld : s.allocMap.base ∈ ps.owned := by
      refine howned _ (h.owned _ _ (h.table _ (base_mem_pages ?_)))
      exact roundToPage_pos (Nat.mul_pos (by omega) (by decide))
    obtain ⟨hfresh, -⟩ := insert_moves hsrc (h.wf.roomy ps) hneeds hins
    exact absurd (hbase ▸ hheld) hfresh
  · obtain ⟨-, htotal, hentries⟩ := insert_inPlace hneeds hins
    exact ⟨htotal, hentries entry hkey⟩

end

/-! ### Stale entries -/

/-- The array of the hash map that a pointer to an entry belongs to lasts until the entry is used:
it is not replaced; or its page is still in use, and the chunk of small blocks that the entry is
about stays in the hash map. -/
def EntryLasts (old s : State) (entry ptr : ℕ) : Prop :=
  s.allocMap.base = old.allocMap.base ∨
    (getPage (old.allocMap.base + entry * entrySize) ∈ s.pages.owned ∧
      ∀ page index, (entryAt old.allocMap.entries entry).value = .pool page index →
        (s.info page index).size < bigbucketThreshold ∧ ¬ Releases s ptr page index)

/-- **A chunk that stays in the hash map** takes its block back whatever table the entry belongs
to. -/
theorem freeSmallbucketStale_eq {s : State} {entry ptr page index : ℕ}
    (hvalue : (entryAt s.allocMap.entries entry).value = .pool page index)
    (hnot : ¬ Releases s ptr page index) :
    freeSmallbucketStale s (.pool page index) ptr = freeSmallbucket s entry ptr := by
  unfold freeSmallbucketStale freeSmallbucket
  rw [hvalue]
  have hchunk : s.chunk (.pool page index) = .ok (s.info page index) := rfl
  simp only [hchunk, ok_bind]
  cases horder : getSmallbucketOrder (s.info page index).size with
  | error f => rw [error_bind, error_bind]
  | ok order =>
      simp only [ok_bind]
      unfold smallBucket
      split
      swap
      · rw [error_bind, error_bind]
      simp only [ok_bind]
      split
      · rfl
      rename_i hfull
      split
      swap
      · rfl
      rename_i hempty
      cases hshould : shouldFreeChunk (s.setChunk (.pool page index)
          (freeBlock (s.info page index) ptr)) (.bucket order) page index with
      | error f => rw [error_bind, error_bind]
      | ok should =>
          cases should with
          | false => rfl
          | true => exact absurd ⟨by simpa using hfull, hempty, order, horder, hshould⟩ hnot

end MugOS.Heap
