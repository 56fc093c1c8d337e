import MugOS.HeapFree
import MugOS.Lib.Outcome

/-!
# The Heap Makes Progress

In a consistent heap no call fails an assertion, follows a bad pointer or loops for ever. The
loops over the lists get as many steps as there were requests for pages, and there are no more
nodes than that: a Chungus and a chunk each have a page of their own that was asked for.

## Main results

* `malloc_total`: an allocation with a bucket returns.
* `freeSmallbucket_total`, `freeLargebucket_total`: so does the free of a block, and the block
  is not in use afterwards.
-/

namespace MugOS.Heap

open WordBitmap Hashmap LinkedList Links

/-! ### Nodes and requests -/

/-- There are no more Chunguses and registered chunks than requests for pages. -/
def Counted (s : State) : Prop :=
  ∃ C : Finset (ℕ × ℕ), (∀ k page index, s.Reg k (.pool page index) → (page, index) ∈ C) ∧
    s.pool.length + C.card ≤ s.pages.requests

/-- What is registered and what is added to the pool was asked for, and only elements of
Chunguses are registered. -/
def Spends (s s' : State) : Prop :=
  ∃ C : Finset (ℕ × ℕ),
    (∀ k v, s'.Reg k v → s.Reg k v ∨ ∃ page index, v = .pool page index ∧ (page, index) ∈ C) ∧
    s'.pool.length + C.card + s.pages.requests ≤ s.pool.length + s'.pages.requests

/-- A change that neither registers a block nor adds a Chungus, and takes back no request,
spends no more than was asked for. -/
theorem Spends.of_le {s s' : State} (hreg : ∀ k v, s'.Reg k v → s.Reg k v)
    (hpool : s'.pool.length ≤ s.pool.length) (hrequests : s.pages.requests ≤ s'.pages.requests) :
    Spends s s' :=
  ⟨∅, fun k v hk => .inl (hreg k v hk), by rw [Finset.card_empty]; omega⟩

/-- Two changes in a row that each spend no more than was asked for do so together. -/
theorem Spends.trans {s s' s'' : State} (h : Spends s s') (h' : Spends s' s'') : Spends s s'' := by
  obtain ⟨C, hreg, hcard⟩ := h
  obtain ⟨C', hreg', hcard'⟩ := h'
  refine ⟨C ∪ C', ?_, ?_⟩
  · intro k v hk
    rcases hreg' k v hk with hk | ⟨page, index, rfl, hmem⟩
    · rcases hreg k v hk with hk | ⟨page, index, rfl, hmem⟩
      · exact .inl hk
      · exact .inr ⟨page, index, rfl, Finset.mem_union_left _ hmem⟩
    · exact .inr ⟨page, index, rfl, Finset.mem_union_right _ hmem⟩
  · have hunion := Finset.card_union_le C C'
    omega

/-- A change that spends no more than was asked for keeps the count of Chunguses and chunks
below that of the requests. -/
theorem Counted.spends {s s' : State} (h : Counted s) (hs : Spends s s') : Counted s' := by
  obtain ⟨C, hreg, hcard⟩ := h
  obtain ⟨C', hreg', hcard'⟩ := hs
  refine ⟨C ∪ C', ?_, ?_⟩
  · intro k page index hk
    rcases hreg' k _ hk with hk | ⟨page', index', heq, hmem⟩
    · exact Finset.mem_union_left _ (hreg k page index hk)
    · cases heq
      exact Finset.mem_union_right _ hmem
  · have hunion := Finset.card_union_le C C'
    omega

/-- In the heap at the start the count holds, as there is neither a Chungus nor a registered
block. -/
theorem counted_start (memory : ℕ → Chungus) : Counted (State.start memory) := by
  refine ⟨∅, ?_, Nat.zero_le _⟩
  rintro k page index ⟨-, i, hi, -⟩
  simp [State.start, Hashmap.empty] at hi

/-- A bucket has no more chunks than the loops over it have steps, so none of them runs out. -/
theorem Counted.bucket_le {s : State} (h : Counted s) {B : ℕ → List (ℕ × ℕ)} (hl : Lists s B)
    {order : ℕ} (horder : order < nSmallbucket) :
    ((B order).map chunkNode).length ≤ s.steps := by
  obtain ⟨C, hreg, hcard⟩ := h
  have hnodup : (B order).Nodup :=
    List.Nodup.of_map _ (List.nodup_cons.mp (hl.buckets order horder).nodup).2
  have hsub : (B order).toFinset ⊆ C := by
    rintro ⟨page, index⟩ hmem
    obtain ⟨k, hk⟩ := ((hl.mem_iff order horder page index).mp (List.mem_toFinset.mp hmem)).reg
    exact hreg k page index hk
  have hle := Finset.card_le_card hsub
  rw [List.toFinset_card_of_nodup hnodup] at hle
  rw [List.length_map, State.steps]
  omega

/-- The list of Chunguses has no more nodes than steps. -/
theorem Counted.pool_le {s : State} (h : Counted s) :
    (s.pool.map Node.chungus).length ≤ s.steps := by
  obtain ⟨C, -, hcard⟩ := h
  rw [List.length_map, State.steps]
  omega

/-! ### Loops that end -/

/-- A sequence of two calls returns if the first one does and the second one does whatever the
first returned. -/
theorem exists_bind_ok {α β : Type} {x : Except Fault α} {f : α → Except Fault β}
    (hx : ∃ a, x = .ok a) (hf : ∀ a, ∃ b, f a = .ok b) : ∃ b, (x >>= f) = .ok b := by
  obtain ⟨a, rfl⟩ := hx
  exact hf a

/-- A loop over a list whose body returns for every node returns. -/
theorem foreach_total {α β : Type} [DecidableEq α] {l : Links α} {list : α} {xs : List α}
    (hring : l.Ring list xs) {fuel : ℕ} (hfuel : xs.length ≤ fuel)
    {body : β → α → Except Fault (β × Bool)} (hbody : ∀ b, ∀ x ∈ xs, ∃ r, body b x = .ok r)
    (b : β) : ∃ r, foreach l list fuel b body = .ok r := by
  rw [foreach_eq hring hfuel]
  clear hring hfuel
  induction xs generalizing b with
  | nil => exact ⟨b, rfl⟩
  | cons x xs ih =>
      refine exists_bind_ok (hbody b x List.mem_cons_self) fun r => ?_
      obtain ⟨b', leave⟩ := r
      cases leave with
      | true => exact ⟨b', rfl⟩
      | false => exact ih (fun b y hy => hbody b y (List.mem_cons_of_mem _ hy)) b'

/-- The search for a free `ChunkInfo` through the list of Chunguses returns, as the loop has a
step for each of them. -/
theorem findFreeChunkInList_total {s : State} {B : ℕ → List (ℕ × ℕ)} (hl : Lists s B)
    (hcount : (s.pool.map Node.chungus).length ≤ s.steps) :
    ∃ r, findFreeChunkInList s = .ok r := by
  refine foreach_total hl.chunguses hcount ?_ _
  intro b x hx
  obtain ⟨page, -, rfl⟩ := List.mem_map.mp hx
  refine exists_bind_ok ⟨page, rfl⟩ fun page => ?_
  cases findFreeChunkInChungus (s.memory page) with
  | some index => exact ⟨_, rfl⟩
  | none => exact ⟨_, rfl⟩

/-- `shouldFreeChunk` returns for a bucket of the heap, as its loop has a step for each chunk
of the bucket. -/
theorem shouldFreeChunk_total {s : State} {B : ℕ → List (ℕ × ℕ)} (hl : Lists s B)
    (hc : Counted s) {order : ℕ} (horder : order < nSmallbucket) (page index : ℕ) :
    ∃ r, shouldFreeChunk s (.bucket order) page index = .ok r := by
  refine exists_bind_ok
    (foreach_total (hl.buckets order horder) (hc.bucket_le hl horder) ?_ _) fun r => ⟨r.2, rfl⟩
  intro b x hx
  obtain ⟨c, -, rfl⟩ := List.mem_map.mp hx
  exact ⟨_, rfl⟩

/-- `shouldFreeChungus` returns for the list of the heap, as its loop has a step for each
Chungus. -/
theorem shouldFreeChungus_total {s : State} {B : ℕ → List (ℕ × ℕ)} (hl : Lists s B)
    (hc : Counted s) (page : ℕ) : ∃ r, shouldFreeChungus s page = .ok r := by
  refine exists_bind_ok (foreach_total hl.chunguses hc.pool_le ?_ _) fun r => ⟨r.2, rfl⟩
  intro b x hx
  obtain ⟨c, -, rfl⟩ := List.mem_map.mp hx
  exact ⟨_, rfl⟩

/-- Giving back pages that are all in use succeeds, and takes just these out of the pages in
use. -/
theorem State.freePages_ok {s : State} {addr n : ℕ}
    (hheld : ∀ q ∈ MugOS.pages addr n, q ∈ s.pages.owned) :
    s.freePages addr n = .ok { s with pages := s.pages.freePages addr n } :=
  if_pos hheld

/-- Giving back a chunk whose pages are all in use succeeds, and takes just these out of the
pages in use. -/
theorem freeChunk_ok {s : State} {ref : ChunkRef} {c : ChunkInfo} (hchunk : s.chunk ref = .ok c)
    (hheld : ∀ q ∈ pages c.base (roundToPage c.size), q ∈ s.pages.owned) :
    freeChunk s ref = .ok (({ s with
        pages := s.pages.freePages c.base (roundToPage c.size) } : State).setChunk ref
      { c with base := 0, size := 0 }) := by
  rw [freeChunk, hchunk, ok_bind, State.freePages_ok hheld, ok_bind]
  rfl

/-! ### A `ChunkInfo` for a block -/

/-- A request for at least one page counts as one request, whether it is granted or refused. -/
theorem Pages.allocatePages_requests (src : PageSource) (p : Pages) {n : ℕ} (hn : 0 < n)
    (clear : Bool) : (p.allocatePages src n clear).2.requests = p.requests + 1 := by
  unfold Pages.allocatePages
  rw [if_neg hn.ne']
  simp only
  split <;> rfl

/-- A `ChunkInfo` that is found in a well-formed Chungus is one of its elements. -/
theorem Chungus.Wf.found_lt {c : Chungus} (h : c.Wf) {index : ℕ}
    (hfound : findFreeChunkInChungus c = some index) : index < chungusNChunks := by
  have hclear := findFreeChunkInChungus_spec hfound
  obtain ⟨i, hi, hword⟩ := List.exists_of_findSome?_eq_some hfound
  rw [List.mem_range] at hi
  split at hword
  · exact absurd hword (by simp)
  · rename_i hne
    obtain ⟨hlt, -⟩ := clzll_not_spec hne
    have hindex := Option.some.inj hword
    by_contra hge
    rw [h.tail index (by omega) (by omega)] at hclear
    exact absurd hclear (by decide)

/-- In the bitmap of a new Chungus, where only the invalid bits are set, a free `ChunkInfo` is
found. -/
theorem found_in_new (chunks : ℕ → ChunkInfo) :
    ∃ index, findFreeChunkInChungus ⟨[0#64, invalidMask], chunks⟩ = some index :=
  ⟨0, (by decide +kernel : findFreeChunkInChungus ⟨[0#64, invalidMask], fun _ => default⟩ = some 0)⟩

/-- The search ends at the first Chungus if that has a free `ChunkInfo`. -/
theorem findFreeChunkInList_head {s : State} {B : ℕ → List (ℕ × ℕ)} (hl : Lists s B)
    (hcount : (s.pool.map Node.chungus).length ≤ s.steps) {page index : ℕ} {rest : List ℕ}
    (hpool : s.pool = page :: rest)
    (hfound : findFreeChunkInChungus (s.memory page) = some index) :
    findFreeChunkInList s = .ok (some (page, index)) := by
  unfold findFreeChunkInList
  rw [foreach_eq hl.chunguses hcount, hpool, List.map_cons, foldUntil, chungusOfNode, ok_bind,
    hfound]
  rfl

section Total

variable {src : PageSource} (hsrc : src.Sound) {s : State} {owner : ℕ → Option Owner}
  {B : ℕ → List (ℕ × ℕ)} {live : List ℕ}

include hsrc

/-- **`getFreeChunk` returns** on every consistent heap, and a Chungus that it adds was asked
for. -/
theorem getFreeChunk_total (h : Consistent s owner B live) (hc : Counted s) :
    ∃ r s', getFreeChunk src s = .ok (r, s') ∧ Spends s s' := by
  obtain ⟨found, hfound⟩ := findFreeChunkInList_total h.lists hc.pool_le
  unfold getFreeChunk
  rw [hfound, ok_bind]
  match found with
  | some (page, index) =>
      obtain ⟨hpage, hindex⟩ := findFreeChunkInList_found h.lists.chunguses hfound
      have hlt := (h.shape.chungus page hpage).found_lt hindex
      simp only [if_neg (show ¬ index ≥ chungusNChunks by omega),
        not_full_of_bit hlt (findFreeChunkInChungus_spec hindex), Bool.false_eq_true, if_false]
      exact ⟨_, s, rfl, .of_le (fun _ _ hk => hk) le_rfl le_rfl⟩
  | none =>
      have hrequests := Pages.allocatePages_requests src s.pages one_pos false
      unfold allocateChungus
      rcases s.pages.allocatePages_cases hsrc 1 false with
        ⟨t, refused, halloc, -, -⟩ | ⟨page, t, hfresh, -, halloc⟩
      · rw [halloc] at hrequests
        simp only [halloc, if_true]
        exact ⟨_, _, rfl, .of_le (fun _ _ hk => hk) le_rfl (by simp only at hrequests ⊢; omega)⟩
      · rw [halloc] at hrequests
        simp only [halloc, if_neg hfresh.ne_zero]
        have hunused := hfresh.unused page (base_mem_pages one_pos)
        obtain ⟨links, hpush, -, -⟩ :=
          pushFront_spec h.lists.chunguses (h.shape.not_listed hunused)
        set ps : Pages := ⟨s.pages.owned ++ pages page 1, t, s.pages.refused⟩ with hps
        have hadded : Searched s (s.addChungus page ps links) := .added hunused rfl rfl hpush
        obtain ⟨index, hindex⟩ := found_in_new (s.memory page).chunks
        have hnew : (s.addChungus page ps links).memory page =
            ⟨[0#64, invalidMask], (s.memory page).chunks⟩ := Function.update_self ..
        have hlt : index < chungusNChunks :=
          (wf_newChungus (s.memory page).chunks).found_lt hindex
        have hfound' := findFreeChunkInList_head (hadded.keeps h.shape h.lists).2
          (by
            have hle := hc.pool_le
            simp only [State.steps, List.length_map, State.addChungus, List.length_cons] at *
            omega) rfl (by rw [hnew]; exact hindex)
        refine ⟨some (page, index), s.addChungus page ps links, ?_, ∅, fun k v hk => .inl hk, ?_⟩
        · rw [hpush, ok_bind]
          change (findFreeChunkInList (s.addChungus page ps links) >>= _) = _
          rw [hfound', ok_bind]
          simp only [if_neg (show ¬ index ≥ chungusNChunks by omega)]
          rfl
        · simp only [State.addChungus, List.length_cons, Finset.card_empty, hps] at *
          omega

omit hsrc in
/-- `allocateChunk` makes one request for pages, and changes neither what is registered nor the
pool nor the lists. -/
theorem allocateChunk_spends {page index size : ℕ} (hsize : 0 < size) (b : Bool) {s' : State}
    (halloc : allocateChunk src s page index size = (b, s')) :
    (∀ k v, s'.Reg k v ↔ s.Reg k v) ∧ s'.pool = s.pool ∧ s'.links = s.links ∧
      s'.pages.requests = s.pages.requests + 1 := by
  have hrequests := Pages.allocatePages_requests src s.pages (roundToPage_pos hsize) false
  unfold allocateChunk at halloc
  simp only at halloc
  split at halloc
  · obtain ⟨-, rfl⟩ := Prod.mk.inj halloc
    exact ⟨fun _ _ => Iff.rfl, rfl, rfl, hrequests⟩
  · obtain ⟨-, rfl⟩ := Prod.mk.inj halloc
    exact ⟨fun _ _ => Iff.rfl, rfl, rfl, hrequests⟩

omit hsrc in
/-- An insertion into the hash map never takes requests back, whether the map grows or not. -/
theorem insert_requests {map map' : Hashmap ChunkRef} {ps ps' : Pages} {ptr : ℕ} {v : ChunkRef}
    {b : Bool} (hok : Hashmap.insert src map ps ptr v = .ok (b, map', ps')) :
    ps.requests ≤ ps'.requests := by
  have halloc : ∀ n clear, ps.requests ≤ (ps.allocatePages src n clear).2.requests := by
    intro n clear
    rcases Nat.eq_zero_or_pos n with rfl | hn
    · exact le_rfl
    · rw [Pages.allocatePages_requests src ps hn]
      omega
  have hgrow : ∀ b map' ps', growIfNeeded src map ps = .ok (b, map', ps') →
      ps.requests ≤ ps'.requests := by
    intro b map' ps' hgrow
    unfold growIfNeeded at hgrow
    split at hgrow
    · unfold grow at hgrow
      split at hgrow
      · cases hgrow
        exact le_rfl
      · simp only at hgrow
        generalize (if map.totalEntries = 0 then defaultSize else 2 * map.totalEntries) = total
          at hgrow
        split at hgrow
        · cases hgrow
          exact halloc _ _
        · split at hgrow
          · cases hgrow
          · cases hgrow
            split
            · exact halloc _ _
            · exact halloc _ _
    · cases hgrow
      exact le_rfl
  unfold Hashmap.insert at hok
  split at hok
  · cases hok
    exact le_rfl
  · split at hok
    · cases hok
    · cases hok
      exact hgrow _ _ _ (by assumption)
    · simp only at hok
      split at hok
      · cases hok
      · cases hok
        exact hgrow _ _ _ (by assumption)

/-- **A block is placed, or given back**: `allocateChunk`, `Hashmap_insert` and, when that
fails, `freeChunk` return. -/
theorem placeBlock_total (h : Consistent s owner B live) {page index size : ℕ}
    (hpage : page ∈ s.pool) (hindex : index < chungusNChunks)
    (hbit : bit (s.memory page).bitmap index = false) (hsize : minBlockSize ≤ size) :
    ∃ placed s₁, allocateChunk src s page index size = (placed, s₁) ∧
      (placed = false → Spends s s₁) ∧
      (placed = true → ∃ b map ps, Hashmap.insert src s₁.allocMap s₁.pages
          ((s₁.memory page).chunks index).base (.pool page index) = .ok (b, map, ps) ∧
        (b = false → ∃ s₂, freeChunk { s₁ with allocMap := map, pages := ps }
          (.pool page index) = .ok s₂ ∧ Spends s s₂) ∧
        (b = true → Spends s { s₁ with allocMap := map, pages := ps })) := by
  have hpos : 0 < size := by
    simp only [minBlockSize] at hsize
    omega
  cases halloc : allocateChunk src s page index size with
  | mk placed s₁ =>
      obtain ⟨hreg, hpool, -, hrequests⟩ := allocateChunk_spends hpos placed halloc
      refine ⟨placed, s₁, rfl,
        fun _ => .of_le (fun k v => (hreg k v).mp) (by rw [hpool]) (by omega), ?_⟩
      rintro rfl
      rcases allocateChunk_cases hsrc halloc with ⟨hfalse, -⟩ | ⟨-, base, ps, hfresh, hps, -, rfl⟩
      · cases hfalse
      have hinfo := State.info_useInfo s page index base size ps page index
      rw [if_pos ⟨rfl, rfl⟩] at hinfo
      have hbase : (((s.useInfo page index base size ps).memory page).chunks index).base = base :=
        congrArg ChunkInfo.base hinfo
      obtain ⟨hself, hlt, hnew⟩ := h.shape.fresh_base (roundToPage_pos hpos) hfresh
      rw [hbase]
      obtain ⟨b, map, ps', hins⟩ : ∃ b map ps',
          Hashmap.insert src s.allocMap ps base (.pool page index) = .ok (b, map, ps') := by
        rcases insert_cases hsrc h.shape.wf ps (by rw [hself]; exact hfresh.ne_zero) hlt
            (fun v hv => hnew v ⟨hfresh.ne_zero, hself ▸ hv⟩) (.pool page index) with
          ⟨qs, hins, -⟩ | ⟨map', qs, hins, -⟩
        · exact ⟨_, _, _, hins⟩
        · exact ⟨_, _, _, hins⟩
      have hmore := insert_requests hins
      refine ⟨b, map, ps', hins, ?_, ?_⟩
      · rintro rfl
        rcases h.shape.register hsrc hpage hindex hbit hsize hfresh hps hins with
          ⟨-, rfl, howned, -⟩ | ⟨hfalse, -⟩
        swap
        · cases hfalse
        -- the pages of the block are in use, so they can be given back
        have hheld : ∀ q ∈ pages base (roundToPage size), q ∈ ps'.owned := by
          intro q hq
          rw [howned, hps]
          exact List.mem_append_right _ hq
        have hchunk : State.chunk { s.useInfo page index base size ps with pages := ps' }
            (.pool page index) = .ok (newInfo (s.info page index) base size) :=
          congrArg Except.ok hinfo
        have hfreed := freeChunk_ok hchunk hheld
        exact ⟨_, hfreed, .of_le (fun _ _ hk => hk) le_rfl (by
          change s.pages.requests ≤ ps'.requests
          change ps.requests = _ at hrequests
          omega)⟩
      · rintro rfl
        rcases h.shape.register hsrc hpage hindex hbit hsize hfresh hps hins with
          ⟨hfalse, -⟩ | ⟨-, -, -, hcontains⟩
        · cases hfalse
        refine ⟨{(page, index)}, ?_, ?_⟩
        · rintro k v ⟨hk, hcont⟩
          rcases (hcontains k v hk).mp hcont with ⟨-, rfl⟩ | hold
          · exact .inr ⟨page, index, rfl, Finset.mem_singleton_self _⟩
          · exact .inl ⟨hk, hold⟩
        · change s.pool.length + _ + s.pages.requests ≤ s.pool.length + ps'.requests
          change ps.requests = _ at hrequests
          rw [Finset.card_singleton]
          omega

/-- **`newSmallChunk` returns** on every consistent heap, and the chunk that it registers was
asked for. -/
theorem newSmallChunk_total (h : Consistent s owner B live) (hc : Counted s) {order size : ℕ}
    (horder : order < nSmallbucket) (hsize : minBlockSize ≤ size) :
    ∃ r s', newSmallChunk src s (.bucket order) size = .ok (r, s') ∧ Spends s s' := by
  obtain ⟨r, s₁, hfree, hspend⟩ := getFreeChunk_total hsrc h hc
  unfold newSmallChunk
  rw [hfree, ok_bind]
  rcases getFreeChunk_cases hsrc h.shape h.lists hfree with
    ⟨rfl, -⟩ | ⟨page, index, rfl, hsearched, hpage, hindex, hbit⟩
  · exact ⟨none, s₁, rfl, hspend⟩
  obtain ⟨owner₁, h₁, -⟩ := h.searched hsearched
  obtain ⟨placed, s₂, halloc, hnone, hsome⟩ := placeBlock_total hsrc h₁ hpage hindex hbit hsize
  have hlinks := (allocateChunk_spends (by simp only [minBlockSize] at hsize; omega) placed
    halloc).2.2.1
  simp only [halloc]
  cases placed with
  | false => exact ⟨none, s₂, rfl, hspend.trans (hnone rfl)⟩
  | true =>
      obtain ⟨b, map, ps, hins, hfail, hok⟩ := hsome rfl
      simp only [hins, ok_bind]
      cases b with
      | false =>
          obtain ⟨s₃, hfreed, hspend₃⟩ := hfail rfl
          simp only [hfreed, ok_bind]
          exact ⟨none, s₃, rfl, hspend.trans hspend₃⟩
      | true =>
          -- a chunk that is not registered is in no bucket
          have hnode : Node.chunk page index ∉ Node.bucket order :: (B order).map chunkNode := by
            intro hmem
            rcases List.mem_cons.mp hmem with hmem | hmem
            · cases hmem
            · obtain ⟨⟨p, i⟩, hc', heq⟩ := List.mem_map.mp hmem
              cases heq
              obtain ⟨k, hk⟩ := ((h₁.lists.mem_iff order horder _ _).mp hc').reg
              exact h₁.shape.not_reg_of_bit hbit k hk
          obtain ⟨links, hpush, -, -⟩ := pushFront_spec (h₁.lists.buckets order horder) hnode
          simp only [hlinks, hpush, ok_bind]
          exact ⟨_, _, rfl, hspend.trans (hok rfl)⟩

/-- **`takeSmallChunk` returns** on every consistent heap, with the chunk at the head of the
bucket or a new one. -/
theorem takeSmallChunk_total (h : Consistent s owner B live) (hc : Counted s) {order size : ℕ}
    (horder : order < nSmallbucket) (hsize : minBlockSize ≤ size) :
    ∃ r s', takeSmallChunk src s (.bucket order) size = .ok (r, s') ∧ Spends s s' := by
  unfold takeSmallChunk
  have hhead := (h.lists.buckets order horder).next_head
  split
  · exact newSmallChunk_total hsrc h hc horder hsize
  · rename_i hempty
    cases hB : B order with
    | nil =>
        rw [hB] at hhead
        simp [isEmpty, hhead] at hempty
    | cons c rest =>
        rw [hB] at hhead
        simp only [List.map_cons, List.headD_cons] at hhead
        simp only [hhead]
        exact ⟨some c, s, rfl, .of_le (fun _ _ hk => hk) le_rfl le_rfl⟩

/-- **The allocation of a small block returns** on every consistent heap, for every size that
has a bucket. -/
theorem allocateSmallbucket_total (h : Consistent s owner B live) (hc : Counted s) {order size : ℕ}
    (hsize : size < bigbucketThreshold) (horder : order < nSmallbucket)
    (hsmallorder : getSmallbucketOrder (max size minBlockSize) = .ok order) :
    ∃ res s', allocateSmallbucket src s size = .ok (res, s') ∧ Spends s s' := by
  have hsmall : max size minBlockSize < bigbucketThreshold := by
    simp only [minBlockSize, bigbucketThreshold, pageSize] at *
    omega
  obtain ⟨r, s₁, htake, hspend⟩ := takeSmallChunk_total hsrc h hc horder (le_max_right size _)
  obtain ⟨owner₁, B₁, -, -, hfor⟩ := takeSmallChunk_keeps hsrc h (le_max_right _ _) hsmall
    hsmallorder horder htake
  unfold allocateSmallbucket
  rw [if_neg (by omega)]
  simp only [hsmallorder, ok_bind, smallBucket, if_pos horder, htake]
  cases r with
  | none => exact ⟨0, s₁, rfl, hspend⟩
  | some pi =>
      obtain ⟨page, index⟩ := pi
      obtain ⟨hmem, -⟩ := hfor.some page index rfl
      have hroom := ((hfor.consistent.lists.mem_iff order horder page index).mp hmem).room
      have hnotfull : ((s₁.memory page).chunks index).bitmap ≠ 0xffffffffffffffff#64 := by
        intro hfull
        rw [isChunkFull, State.info, hfull] at hroom
        simp at hroom
      simp only [allocateBlock, if_neg hnotfull, ok_bind]
      split
      · obtain ⟨links, hpop, -⟩ := pop_spec (hfor.consistent.lists.buckets order horder)
          (List.mem_map.mpr ⟨_, hmem, rfl⟩)
        have hpop' : pop s₁.links (.bucket order) (.chunk page index) = .ok links := hpop
        simp only [State.setChunk, hpop', ok_bind]
        exact ⟨_, _, rfl, hspend.trans (.of_le (fun _ _ hk => hk) le_rfl le_rfl)⟩
      · exact ⟨_, _, rfl, hspend.trans (.of_le (fun _ _ hk => hk) le_rfl le_rfl)⟩

/-- **The allocation of a large block from new pages returns.** -/
theorem allocateLargebucket_total (h : Consistent s owner B live) (hc : Counted s) {size : ℕ}
    (hsize : bigbucketThreshold ≤ size) (hslot : fittingSlot s.freeCache size = none) :
    ∃ res s', allocateLargebucket src s size = .ok (res, s') ∧ Spends s s' := by
  obtain ⟨r, s₁, hfree, hspend⟩ := getFreeChunk_total hsrc h hc
  unfold allocateLargebucket
  simp only [hslot, hfree, ok_bind]
  rcases getFreeChunk_cases hsrc h.shape h.lists hfree with
    ⟨rfl, -⟩ | ⟨page, index, rfl, hsearched, hpage, hindex, hbit⟩
  · exact ⟨0, s₁, rfl, hspend⟩
  obtain ⟨owner₁, h₁, -⟩ := h.searched hsearched
  have hmin : minBlockSize ≤ size := by
    simp only [minBlockSize, bigbucketThreshold, pageSize] at *
    omega
  obtain ⟨placed, s₂, halloc, hnone, hsome⟩ := placeBlock_total hsrc h₁ hpage hindex hbit hmin
  simp only [halloc]
  cases placed with
  | false => exact ⟨0, s₂, rfl, hspend.trans (hnone rfl)⟩
  | true =>
      obtain ⟨b, map, ps, hins, hfail, hok⟩ := hsome rfl
      simp only [hins, ok_bind]
      cases b with
      | false =>
          obtain ⟨s₃, hfreed, hspend₃⟩ := hfail rfl
          simp only [hfreed, ok_bind]
          exact ⟨0, s₃, rfl, hspend.trans hspend₃⟩
      | true => exact ⟨_, _, rfl, hspend.trans (hok rfl)⟩

/-- **An allocation returns** if it has a bucket or is served by new pages. -/
theorem malloc_total (h : Consistent s owner B live) (hc : Counted s) {size : ℕ}
    (hbucket : size < bigbucketThreshold →
      ∃ order < nSmallbucket, getSmallbucketOrder (chunkSize size) = .ok order)
    (hslot : bigbucketThreshold ≤ size → fittingSlot s.freeCache size = none) :
    ∃ res s', malloc src s size = .ok (res, s') ∧ Spends s s' := by
  unfold malloc
  split
  · rename_i hsize
    obtain ⟨order, horder, hsmallorder⟩ := hbucket hsize
    rw [chunkSize, if_pos hsize] at hsmallorder
    exact allocateSmallbucket_total hsrc h hc hsize horder hsmallorder
  · exact allocateLargebucket_total hsrc h hc (by omega) (hslot (by omega))

end Total

/-! ### Frees -/

/-- The block at an address is in use: it is registered, and its bit is set if it is one of a
chunk of small blocks. -/
def InUse (s : State) (ptr : ℕ) : Prop :=
  ∃ v, s.Reg (getPage ptr) v ∧ ∀ page index, v = .pool page index →
    (s.info page index).size < bigbucketThreshold →
    (s.info page index).bitmap.getMsbD (getOffset ptr / (s.info page index).size) = true

/-- A block whose page is not registered is not in use. -/
theorem not_inUse_of_not_reg {s : State} {ptr : ℕ} (h : ∀ v, ¬ s.Reg (getPage ptr) v) :
    ¬ InUse s ptr := fun ⟨v, hv, _⟩ => h v hv

/-- A block that went back to its chunk is not in use. -/
theorem not_inUse_of_freeBlock {s : State} (hwf : s.allocMap.Wf) {ptr page index : ℕ}
    {c : ChunkInfo} (hreg : s.Reg (getPage ptr) (.pool page index))
    (hinfo : s.info page index = freeBlock c ptr) (hmin : minBlockSize ≤ c.size)
    (hsmall : c.size < bigbucketThreshold) : ¬ InUse s ptr := by
  rintro ⟨v, hv, hset⟩
  have hbit := hset page index (hv.unique hwf hreg)
  rw [hinfo] at hbit
  have hbit' := hbit hsmall
  have hlt : getOffset ptr / c.size < 64 := by
    rw [Nat.div_lt_iff_lt_mul (by simp only [minBlockSize] at hmin; omega)]
    have hoffset : getOffset ptr < pageSize := Nat.mod_lt _ (by decide)
    have hle : 64 * 64 ≤ 64 * c.size := Nat.mul_le_mul_left 64 hmin
    simp only [pageSize] at hoffset
    omega
  change (c.bitmap &&& ~~~(bitMask (getOffset ptr / c.size))).getMsbD
    (getOffset ptr / c.size) = true at hbit'
  rw [getMsbD_and_not_bitMask _ hlt] at hbit'
  simp at hbit'

section Frees

variable {s : State} {owner : ℕ → Option Owner} {B : ℕ → List (ℕ × ℕ)} {live : List ℕ}

/-- **Giving a `ChunkInfo` back returns**, if its Chungus is not full. -/
theorem releaseChunkInfo_total (h : Consistent s owner B live) (hc : Counted s) {page index : ℕ}
    (hpage : page ∈ s.pool) (hindex : index < chungusNChunks)
    (hnot : ∀ k, ¬ s.Reg k (.pool page index)) (hfull : isChungusFull (s.memory page) = false) :
    ∃ s', releaseChunkInfo s page index = .ok s' ∧ Spends s s' := by
  have h₁ := h.markFree hpage hindex hnot
  unfold releaseChunkInfo
  simp only [hfull, Bool.false_eq_true, if_false]
  set s₁ : State :=
    { s with memory := Function.update s.memory page (markFree (s.memory page) index) } with hs₁
  have hspend : Spends s s₁ := .of_le (fun _ _ hk => hk) le_rfl le_rfl
  split
  swap
  · exact ⟨s₁, rfl, hspend⟩
  obtain ⟨should, hshould⟩ := shouldFreeChungus_total h₁.lists (hc.spends hspend) page
  rw [hshould, ok_bind]
  cases should with
  | false => exact ⟨s₁, rfl, hspend⟩
  | true =>
      obtain ⟨links, hpop, -⟩ := pop_spec h₁.lists.chunguses (List.mem_map.mpr ⟨page, hpage, rfl⟩)
      have hheld : ∀ q ∈ pages page 1, q ∈ s₁.pages.owned := by
        intro q hq
        obtain ⟨k, hk, rfl⟩ := mem_pages.mp hq
        obtain rfl : k = 0 := by omega
        rw [Nat.zero_mul, Nat.add_zero]
        exact h.shape.owned page _ (h.shape.pool page hpage)
      have hpop' : pop s.links .chunguses (.chungus page) = .ok links := hpop
      have hfree := State.freePages_ok (s := { s₁ with links := links }) hheld
      simp only [if_true, hpop', ok_bind, freeChungus]
      change ∃ s', (State.freePages { s₁ with links := links } page 1 >>= _) = _ ∧ _
      rw [hfree, ok_bind]
      exact ⟨_, rfl, .of_le (fun _ _ hk => hk) List.length_erase_le le_rfl⟩

/-- The pages of a registered block, up to the size that its `ChunkInfo` says, are all in
use. -/
theorem Shape.pages_held (h : Shape s owner) {k page index : ℕ}
    (hreg : s.Reg k (.pool page index)) :
    ∀ q ∈ pages (s.info page index).base (roundToPage (s.info page index).size),
      q ∈ s.pages.owned := by
  intro q hq
  cases h.refs k _ hreg with
  | pool _ _ _ _ hwf => exact h.owned q _ (hwf.holds q hq)

/-- **The free of a small block returns**, if its chunk is not given back to a full Chungus. -/
theorem freeSmallbucket_total (h : Consistent s owner B live) (hc : Counted s)
    {ptr entry page index order : ℕ} (hptr : ptr ∈ live)
    (hentry : entry < s.allocMap.totalEntries)
    (hkey : keyAt s.allocMap.entries entry = getPage ptr)
    (hvalue : (entryAt s.allocMap.entries entry).value = .pool page index)
    (hreg : s.Reg (getPage ptr) (.pool page index))
    (hsmall : (s.info page index).size < bigbucketThreshold) (horder : order < nSmallbucket)
    (hsmallorder : getSmallbucketOrder (s.info page index).size = .ok order)
    (hrelease : Releases s ptr page index → isChungusFull (s.memory page) = false) :
    ∃ s', freeSmallbucket s entry ptr = .ok s' ∧ Spends s s' ∧ ¬ InUse s' ptr := by
  obtain ⟨hpage, hindex⟩ := h.shape.pool_mem hreg
  obtain ⟨-, hwf⟩ := h.shape.pool_wf hreg
  unfold freeSmallbucket
  have hchunk : s.chunk (.pool page index) = .ok (s.info page index) := rfl
  simp only [hvalue, hchunk, ok_bind, hsmallorder, smallBucket, if_pos horder]
  set s₁ := s.setChunk (.pool page index) (freeBlock (s.info page index) ptr) with hs₁
  have hself : s₁.info page index = freeBlock (s.info page index) ptr :=
    State.info_setChunk_self s page index _
  have hspend : Spends s s₁ := .of_le (fun _ _ hk => hk) le_rfl le_rfl
  have hgone : ∀ links : Links Node, ¬ InUse { s₁ with links := links } ptr := fun links =>
    not_inUse_of_freeBlock (s := { s₁ with links := links }) h.shape.wf hreg hself hwf.size_ge
    hsmall
  cases hf : isChunkFull (s.info page index) with
  | true =>
      have hnode : Node.chunk page index ∉ Node.bucket order :: (B order).map chunkNode := by
        intro hmem
        rcases List.mem_cons.mp hmem with hmem | hmem
        · cases hmem
        · obtain ⟨⟨p, i⟩, hc', heq⟩ := List.mem_map.mp hmem
          cases heq
          have hroom := ((h.lists.mem_iff order horder _ _).mp hc').room
          rw [hf] at hroom
          cases hroom
      obtain ⟨links, hpush, -, -⟩ := pushFront_spec (h.lists.buckets order horder) hnode
      have hpush' : pushFront s₁.links (.bucket order) (.chunk page index) = .ok links := hpush
      simp only [if_true, hpush', ok_bind]
      exact ⟨_, rfl, hspend.trans (.of_le (fun _ _ hk => hk) le_rfl le_rfl), hgone links⟩
  | false =>
      simp only [Bool.false_eq_true, if_false]
      split
      swap
      · exact ⟨s₁, rfl, hspend, hgone s₁.links⟩
      rename_i hempty
      obtain ⟨⟨B₁, h₁, hmem⟩, -⟩ := h.giveBlock hptr hreg hsmall hsmallorder horder
        (fun hfull => absurd (hf.symm.trans hfull) (by decide)) fun _ => rfl
      obtain ⟨should, hshould⟩ :=
        shouldFreeChunk_total h₁.lists (hc.spends hspend) horder page index
      have hshould' : shouldFreeChunk s₁ (.bucket order) page index = .ok should := hshould
      simp only [hshould', ok_bind]
      cases should with
      | false => exact ⟨s₁, rfl, hspend, hgone s₁.links⟩
      | true =>
          have hnotfull := hrelease ⟨hf, hempty, order, hsmallorder, hshould'⟩
          have hreg₁ : s₁.Reg (getPage ptr) (.pool page index) := hreg
          obtain ⟨links, hpop, -⟩ := pop_spec (h₁.lists.buckets order horder)
            (List.mem_map.mpr ⟨_, hmem, rfl⟩)
          have hpop' : pop s₁.links (.bucket order) (.chunk page index) = .ok links := hpop
          obtain ⟨s₂, hfree, hmap₂, hpool₂, hrequests₂⟩ : ∃ s₂,
              freeChunk { s₁ with links := links } (.pool page index) = .ok s₂ ∧
                s₂.allocMap = s.allocMap ∧ s₂.pool = s.pool ∧
                s₂.pages.requests = s.pages.requests :=
            ⟨_, freeChunk_ok (c := s₁.info page index) rfl (Shape.pages_held h₁.shape hreg₁),
              rfl, rfl, rfl⟩
          obtain ⟨map, hdel, -⟩ := delete_cases h.shape.wf hentry (by rw [hkey]; exact hreg.1)
          have hdel₂ : Hashmap.delete s₂.allocMap (some entry) = .ok map := by rw [hmap₂, hdel]
          obtain ⟨⟨owner₂, B₂, h₂, -⟩, hreg₂, -, -, hbitmap₂⟩ :=
            h₁.releaseChunk horder hmem ((congrArg isChunkEmpty hself).trans hempty) hreg₁ hentry
              hkey hpop' hfree hdel₂
          have hspend₂ : Spends s { s₂ with allocMap := map } :=
            .of_le (fun k v hk => ((hreg₂ k v).mp hk).1) (by rw [hpool₂]) (by rw [hrequests₂])
          have hnot := h₁.shape.not_reg_of_unregister hreg₁ hreg₂
          have hfull₂ : isChungusFull (s₂.memory page) = false := by
            rw [← hnotfull]
            apply isChungusFull_congr
            rw [hbitmap₂]
            exact State.bitmap_setChunk s page index _ page
          have hpage₂ : page ∈ s₂.pool := hpool₂ ▸ hpage
          obtain ⟨s₃, hinfo, hspend₃⟩ := releaseChunkInfo_total h₂ (hc.spends hspend₂)
            hpage₂ hindex hnot hfull₂
          obtain ⟨-, hreg₃, -, -⟩ := releaseChunkInfo_keeps h₂ hpage₂ hindex hnot hfull₂ hinfo
          simp only [if_true, hpop', ok_bind, hfree, hdel₂]
          refine ⟨s₃, hinfo, hspend₂.trans hspend₃, not_inUse_of_not_reg fun v hv => ?_⟩
          exact ((hreg₂ _ v).mp ((hreg₃ _ v).mp hv)).2 rfl

/-- **The free of a large block returns** on every consistent heap, whether its pages go to the
cache or are given back. -/
theorem freeLargebucket_total (h : Consistent s owner B live) {ptr entry page index : ℕ}
    (hentry : entry < s.allocMap.totalEntries)
    (hkey : keyAt s.allocMap.entries entry = getPage ptr)
    (hvalue : (entryAt s.allocMap.entries entry).value = .pool page index)
    (hreg : s.Reg (getPage ptr) (.pool page index)) :
    ∃ s', freeLargebucket s entry = .ok s' ∧ Spends s s' ∧ ¬ InUse s' ptr := by
  obtain ⟨map, hdel, -⟩ := delete_cases h.shape.wf hentry (by rw [hkey]; exact hreg.1)
  obtain ⟨-, hreg'⟩ := h.shape.unregister hreg.1 hentry hkey hdel
  have hchunk : s.chunk (.pool page index) = .ok (s.info page index) := rfl
  have hspend : ∀ t : State, t.allocMap = map → t.pool = s.pool →
      t.pages.requests = s.pages.requests → Spends s t ∧ ¬ InUse t ptr := by
    intro t hmap hpool hrequests
    have hiff : ∀ k v, t.Reg k v ↔ s.Reg k v ∧ k ≠ getPage ptr := by
      intro k v
      rw [← hreg', State.Reg, State.Reg, hmap]
    exact ⟨.of_le (fun k v hk => ((hiff k v).mp hk).1) (by rw [hpool]) (by rw [hrequests]),
      not_inUse_of_not_reg fun v hv => ((hiff _ v).mp hv).2 rfl⟩
  unfold freeLargebucket
  simp only [hvalue, hchunk, ok_bind]
  split
  · have hdel' : ∀ slot, Hashmap.delete (s.setChunk (.cached slot) (s.info page index)).allocMap
        (some entry) = .ok map := fun _ => hdel
    simp only [hdel', ok_bind]
    exact ⟨_, rfl, hspend _ rfl rfl rfl⟩
  · rw [freeChunk_ok hchunk (h.shape.pages_held hreg), ok_bind]
    change ∃ s', (Hashmap.delete s.allocMap (some entry) >>= _) = _ ∧ _
    rw [hdel, ok_bind]
    exact ⟨_, rfl, hspend _ rfl rfl rfl⟩

end Frees

end MugOS.Heap
