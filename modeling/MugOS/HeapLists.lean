import MugOS.HeapInv

/-!
# The Lists of the Heap

The list of Chunguses and the buckets of small chunks, beside the shape of the heap: the list
has every Chungus once, and a bucket has every registered chunk of its order with a free block
once. Then what the functions below `Heap_malloc` and `Heap_free` do, in terms of the changes
that keep the shape.

## Main results

* `Lists.pushBucket`, `Lists.popBucket`: a chunk enters and leaves its bucket.
* `getFreeChunk_cases`: `getFreeChunk` finds a free `ChunkInfo`, possibly in a new Chungus.
* `allocateChunk_cases`, `Shape.useInfo`: `allocateChunk` gives pages to a `ChunkInfo`.
-/

namespace MugOS.Heap

open WordBitmap Hashmap LinkedList Links

/-! ### The invariant -/

/-- A registered chunk of small blocks, of the given order, with a free block. -/
structure HasRoom (s : State) (order page index : ℕ) : Prop where
  reg : ∃ k, s.Reg k (.pool page index)
  small : (s.info page index).size < bigbucketThreshold
  order_eq : getSmallbucketOrder (s.info page index).size = .ok order
  room : isChunkFull (s.info page index) = false

/-- The node of a chunk, given by its Chungus and its number, in the list of its bucket. -/
def chunkNode (c : ℕ × ℕ) : Node := .chunk c.1 c.2

/-- **The lists of the heap**, with the chunks of the buckets. -/
structure Lists (s : State) (B : ℕ → List (ℕ × ℕ)) : Prop where
  chunguses : s.links.Ring .chunguses (s.pool.map .chungus)
  buckets : ∀ order < nSmallbucket, s.links.Ring (.bucket order) ((B order).map chunkNode)
  mem_iff : ∀ order < nSmallbucket, ∀ page index,
    (page, index) ∈ B order ↔ HasRoom s order page index

/-- In the heap at the start the list of Chunguses and the buckets are all empty. -/
theorem lists_start (memory : ℕ → Chungus) : Lists (State.start memory) fun _ => [] where
  chunguses := ring_nil.mpr ⟨rfl, rfl⟩
  buckets := fun _ _ => ring_nil.mpr ⟨rfl, rfl⟩
  mem_iff := by
    intro order _ page index
    simp only [List.not_mem_nil, false_iff]
    rintro ⟨⟨k, -, i, hi, -⟩, -, -, -⟩
    simp [State.start, Hashmap.empty] at hi

/-- A chunk keeps its room when it stays registered with its size, and is full afterwards if and
only if it was before. -/
theorem HasRoom.congr {s s' : State} {page index : ℕ}
    (hreg : ∀ k, s'.Reg k (.pool page index) ↔ s.Reg k (.pool page index))
    (hsize : (s'.info page index).size = (s.info page index).size)
    (hfull : isChunkFull (s'.info page index) = isChunkFull (s.info page index)) (order : ℕ) :
    HasRoom s' order page index ↔ HasRoom s order page index := by
  constructor
  · rintro ⟨⟨k, hk⟩, hsmall, horder, hroom⟩
    rw [hsize] at hsmall horder
    rw [hfull] at hroom
    exact ⟨⟨k, (hreg k).mp hk⟩, hsmall, horder, hroom⟩
  · rintro ⟨⟨k, hk⟩, hsmall, horder, hroom⟩
    rw [← hsize] at hsmall horder
    rw [← hfull] at hroom
    exact ⟨⟨k, (hreg k).mpr hk⟩, hsmall, horder, hroom⟩

/-- Chunks keep their room when what is registered stays as it is. -/
theorem hasRoom_congr {s s' : State} (hreg : ∀ k v, s'.Reg k v ↔ s.Reg k v)
    (hinfo : ∀ k page index, s.Reg k (.pool page index) → s'.info page index = s.info page index)
    (order page index : ℕ) : HasRoom s' order page index ↔ HasRoom s order page index := by
  constructor
  · rintro ⟨⟨k, hk⟩, hsmall, horder, hroom⟩
    have hk' := (hreg k _).mp hk
    rw [hinfo k _ _ hk'] at hsmall horder hroom
    exact ⟨⟨k, hk'⟩, hsmall, horder, hroom⟩
  · rintro ⟨⟨k, hk⟩, hsmall, horder, hroom⟩
    rw [← hinfo k _ _ hk] at hsmall horder hroom
    exact ⟨⟨k, (hreg k _).mpr hk⟩, hsmall, horder, hroom⟩

/-- A chunk with free cells belongs into one bucket only, since its cell size gives the
order. -/
theorem HasRoom.order_unique {s : State} {order order' page index : ℕ}
    (h : HasRoom s order page index) (h' : HasRoom s order' page index) : order = order' :=
  Except.ok.inj (h.order_eq.symm.trans h'.order_eq)

section

variable {s s' : State} {B : ℕ → List (ℕ × ℕ)} (h : Lists s B)

include h

/-- The lists are those of any state with the same links, the same Chunguses and the same
chunks with room. -/
theorem Lists.congr (hlinks : s'.links = s.links) (hpool : s'.pool = s.pool)
    (hroom : ∀ order page index, HasRoom s' order page index ↔ HasRoom s order page index) :
    Lists s' B where
  chunguses := by rw [hlinks, hpool]; exact h.chunguses
  buckets := by rw [hlinks]; exact h.buckets
  mem_iff := fun order ho page index => (h.mem_iff order ho page index).trans
    (hroom order page index).symm

/-- The links of the buckets after a change of the list of Chunguses. -/
theorem Lists.setChunguses {links : Links Node} {pool : List ℕ}
    (hring : links.Ring .chunguses (pool.map .chungus))
    (hother : ∀ y, (∀ p, y ≠ .chungus p) → y ≠ .chunguses →
      links.next y = s.links.next y ∧ links.prev y = s.links.prev y)
    (hlinks : s'.links = links) (hpool : s'.pool = pool)
    (hroom : ∀ order page index, HasRoom s' order page index ↔ HasRoom s order page index) :
    Lists s' B where
  chunguses := by rw [hlinks, hpool]; exact hring
  buckets := by
    intro order ho
    rw [hlinks]
    refine (h.buckets order ho).congr ?_
    intro y hy
    refine hother y ?_ ?_
    · rintro p rfl
      simp [chunkNode] at hy
    · rintro rfl
      simp [chunkNode] at hy
  mem_iff := fun order ho page index => (h.mem_iff order ho page index).trans
    (hroom order page index).symm

/-- The links of the other lists after a change of one bucket. -/
theorem Lists.setBucket {links : Links Node} {order : ℕ} {L : List (ℕ × ℕ)}
    (hring : links.Ring (.bucket order) (L.map chunkNode))
    (hother : ∀ y, y ≠ .bucket order → (∀ c, y = chunkNode c → c ∉ B order ∧ c ∉ L) →
      links.next y = s.links.next y ∧ links.prev y = s.links.prev y)
    (hlinks : s'.links = links) (hpool : s'.pool = s.pool)
    (hapart : ∀ order' < nSmallbucket, order' ≠ order → ∀ c ∈ B order', c ∉ B order ∧ c ∉ L)
    (hroom : ∀ order' < nSmallbucket, ∀ page index,
      (page, index) ∈ (if order' = order then L else B order') ↔ HasRoom s' order' page index) :
    Lists s' (Function.update B order L) where
  chunguses := by
    rw [hlinks, hpool]
    refine h.chunguses.congr ?_
    intro y hy
    refine hother y ?_ ?_
    · rintro rfl
      simp at hy
    · rintro c rfl
      simp [chunkNode] at hy
  buckets := by
    intro order' ho
    rw [hlinks]
    by_cases heq : order' = order
    · subst heq
      rw [Function.update_self]
      exact hring
    · rw [Function.update_of_ne heq]
      refine (h.buckets order' ho).congr ?_
      intro y hy
      refine hother y ?_ ?_
      · rintro rfl
        simp [chunkNode] at hy
        exact heq hy.symm
      · rintro c rfl
        rcases List.mem_cons.mp hy with hy | hy
        · simp [chunkNode] at hy
        · obtain ⟨c', hc', hnode⟩ := List.mem_map.mp hy
          simp only [chunkNode, Node.chunk.injEq] at hnode
          obtain rfl : c' = c := Prod.ext hnode.1 hnode.2
          exact hapart order' ho heq c' hc'
  mem_iff := by
    intro order' ho page index
    rw [← hroom order' ho page index]
    by_cases heq : order' = order
    · subst heq
      simp
    · simp [heq]

/-- Pushing a chunk that is in no bucket to the front of its bucket gives the lists of the
state in which it has room. -/
theorem Lists.pushBucket {order page index : ℕ} {links : Links Node} (horder : order < nSmallbucket)
    (hpush : pushFront s.links (.bucket order) (.chunk page index) = .ok links)
    (hnot : ∀ o < nSmallbucket, (page, index) ∉ B o) (hlinks : s'.links = links)
    (hpool : s'.pool = s.pool) (hnew : HasRoom s' order page index)
    (hroom : ∀ o p i, (p, i) ≠ (page, index) → (HasRoom s' o p i ↔ HasRoom s o p i)) :
    Lists s' (Function.update B order ((page, index) :: B order)) := by
  have hfresh : Node.chunk page index ∉ Node.bucket order :: (B order).map chunkNode := by
    intro hmem
    rcases List.mem_cons.mp hmem with hmem | hmem
    · cases hmem
    · obtain ⟨c, hc, hnode⟩ := List.mem_map.mp hmem
      cases hnode
      exact hnot order horder hc
  obtain ⟨l', hpush', hring, hother⟩ := pushFront_spec (h.buckets order horder) hfresh
  obtain rfl := Except.ok.inj (hpush.symm.trans hpush')
  refine h.setBucket hring ?_ hlinks hpool ?_ ?_
  · intro y hy hchunk
    refine hother y ?_
    intro hmem
    rcases List.mem_cons.mp hmem with rfl | hmem
    · exact (hchunk (page, index) rfl).2 List.mem_cons_self
    · rcases List.mem_cons.mp hmem with rfl | hmem
      · exact hy rfl
      · obtain ⟨c, hc, rfl⟩ := List.mem_map.mp hmem
        exact (hchunk c rfl).1 hc
  · intro o ho hne c hc
    have hcorder : c ∉ B order := fun hc' =>
      hne (((h.mem_iff o ho c.1 c.2).mp hc).order_unique ((h.mem_iff order horder c.1 c.2).mp hc'))
    refine ⟨hcorder, fun hmem => ?_⟩
    rcases List.mem_cons.mp hmem with rfl | hmem
    · exact hnot o ho hc
    · exact hcorder hmem
  · intro o ho p i
    by_cases hpi : (p, i) = (page, index)
    · obtain ⟨rfl, rfl⟩ := Prod.mk.inj hpi
      by_cases hoo : o = order
      · subst hoo
        simp [hnew]
      · rw [if_neg hoo]
        exact ⟨fun hmem => absurd hmem (hnot o ho),
          fun hmem => absurd (hmem.order_unique hnew) hoo⟩
    · rw [hroom o p i hpi, ← h.mem_iff o ho p i]
      by_cases hoo : o = order
      · subst hoo
        simp [hpi]
      · rw [if_neg hoo]

/-- Popping a chunk from its bucket gives the lists of the state in which it has no room
left. -/
theorem Lists.popBucket {order page index : ℕ} {links : Links Node} (horder : order < nSmallbucket)
    (hpop : pop s.links (.bucket order) (.chunk page index) = .ok links)
    (hmem : (page, index) ∈ B order) (hlinks : s'.links = links) (hpool : s'.pool = s.pool)
    (hold : ∀ o, ¬ HasRoom s' o page index)
    (hroom : ∀ o p i, (p, i) ≠ (page, index) → (HasRoom s' o p i ↔ HasRoom s o p i)) :
    Lists s' (Function.update B order ((B order).erase (page, index))) := by
  have hring := h.buckets order horder
  have hnodup : (B order).Nodup := by
    have := (List.nodup_cons.mp hring.nodup).2
    exact List.Nodup.of_map _ this
  have hinj : Function.Injective chunkNode := by
    rintro ⟨p, i⟩ ⟨p', i'⟩ heq
    cases heq
    rfl
  obtain ⟨l', hpop', hring', hother, -, -⟩ :=
    pop_spec hring (List.mem_map.mpr ⟨(page, index), hmem, rfl⟩)
  obtain rfl := Except.ok.inj (hpop.symm.trans hpop')
  have hmap : ((B order).map chunkNode).erase (chunkNode (page, index)) =
      ((B order).erase (page, index)).map chunkNode := (List.map_erase hinj _).symm
  rw [hmap] at hring'
  have hapart : ∀ o < nSmallbucket, o ≠ order → ∀ c ∈ B o, c ∉ B order := fun o ho hne c hc hc' =>
    hne (((h.mem_iff o ho c.1 c.2).mp hc).order_unique ((h.mem_iff order horder c.1 c.2).mp hc'))
  refine h.setBucket hring' ?_ hlinks hpool ?_ ?_
  · intro y hy hchunk
    refine hother y ?_
    intro hmem'
    rcases List.mem_cons.mp hmem' with rfl | hmem'
    · exact hy rfl
    · obtain ⟨c, hc, rfl⟩ := List.mem_map.mp hmem'
      exact (hchunk c rfl).1 hc
  · intro o ho hne c hc
    exact ⟨hapart o ho hne c hc, fun hc' => hapart o ho hne c hc (List.mem_of_mem_erase hc')⟩
  · intro o ho p i
    by_cases hpi : (p, i) = (page, index)
    · obtain ⟨rfl, rfl⟩ := Prod.mk.inj hpi
      refine ⟨fun hin => ?_, fun hin => absurd hin (hold o)⟩
      by_cases hoo : o = order
      · subst hoo
        rw [if_pos rfl] at hin
        exact absurd hin hnodup.not_mem_erase
      · rw [if_neg hoo] at hin
        exact absurd hmem (hapart o ho hoo _ hin)
    · rw [hroom o p i hpi, ← h.mem_iff o ho p i]
      by_cases hoo : o = order
      · subst hoo
        rw [if_pos rfl, List.mem_erase_of_ne hpi]
      · rw [if_neg hoo]

end

/-! ### Finding a `ChunkInfo` -/

/-- A `ChunkInfo` that is found in the list is found in a Chungus of the pool. -/
theorem findFreeChunkInList_found {s : State} {page index : ℕ}
    (hring : s.links.Ring .chunguses (s.pool.map .chungus))
    (h : findFreeChunkInList s = .ok (some (page, index))) :
    page ∈ s.pool ∧ findFreeChunkInChungus (s.memory page) = some index := by
  have hfold := foldUntil_of_foreach hring h
  generalize s.pool = pool at hfold ⊢
  clear h hring
  induction pool with
  | nil => simp [foldUntil] at hfold
  | cons p pool ih =>
      rw [List.map_cons, foldUntil] at hfold
      obtain ⟨⟨r, leave⟩, hbody, hrest⟩ := bind_eq_ok.mp hfold
      obtain ⟨q, hq, hbody⟩ := bind_eq_ok.mp hbody
      obtain rfl : p = q := Except.ok.inj hq
      cases hfind : findFreeChunkInChungus (s.memory p) with
      | some i =>
          rw [hfind] at hbody
          obtain ⟨rfl, rfl⟩ := Prod.mk.inj (Except.ok.inj hbody)
          simp only [if_true, Except.ok.injEq, Option.some.injEq, Prod.mk.injEq] at hrest
          obtain ⟨rfl, rfl⟩ := hrest
          exact ⟨List.mem_cons_self, hfind⟩
      | none =>
          rw [hfind] at hbody
          obtain ⟨rfl, rfl⟩ := Prod.mk.inj (Except.ok.inj hbody)
          simp only [Bool.false_eq_true, if_false] at hrest
          obtain ⟨hmem, hfound⟩ := ih hrest
          exact ⟨List.mem_cons_of_mem _ hmem, hfound⟩

/-- The search through the list of Chunguses returns the page of one of them and a `ChunkInfo`
of it that is free. -/
theorem findFreeChunkInList_spec {s : State} {page index : ℕ}
    (hring : s.links.Ring .chunguses (s.pool.map .chungus))
    (h : findFreeChunkInList s = .ok (some (page, index))) :
    page ∈ s.pool ∧ bit (s.memory page).bitmap index = false := by
  obtain ⟨hpage, hfound⟩ := findFreeChunkInList_found hring h
  exact ⟨hpage, findFreeChunkInChungus_spec hfound⟩

/-- A Chungus with a clear bit in its bitmap does not count as full. -/
theorem not_full_of_bit {c : Chungus} {i : ℕ} (hi : i < chungusNChunks)
    (h : bit c.bitmap i = false) : isChungusFull c = false := by
  rw [← Bool.not_eq_true, isChungusFull, List.all_eq_true]
  intro hall
  have hword := hall (i / 64) (List.mem_range.mpr (by
    simp only [chungusNChunks, chungusBitmapSize, pageSize] at *
    omega))
  rw [decide_eq_true_eq, eq_ones_iff] at hword
  rw [bit, hword _ (Nat.mod_lt _ (by decide))] at h
  exact absurd h (by decide)

/-- The heap with an additional Chungus, whose bitmap has the invalid bits set only. -/
def State.addChungus (s : State) (page : ℕ) (ps : Pages) (links : Links Node) : State :=
  { s with
    links := links
    memory := Function.update s.memory page { s.memory page with bitmap := [0#64, invalidMask] }
    pages := ps
    pool := page :: s.pool }

/-- What a search for a `ChunkInfo` may do to the heap: nothing, or add a Chungus. -/
inductive Searched (s : State) : State → Prop
  | same : Searched s s
  | added {page : ℕ} {ps : Pages} {links : Links Node} (hfresh : page ∉ s.pages.owned)
      (hps : ps.owned = s.pages.owned ++ pages page 1) (hrefused : ps.refused = s.pages.refused)
      (hpush : pushFront s.links .chunguses (.chungus page) = .ok links) :
      Searched s (s.addChungus page ps links)

/-- A search for a `ChunkInfo` does not change which keys are registered, nor what they refer
to. -/
theorem Searched.reg_iff {s s' : State} (hs : Searched s s') (k : ℕ) (v : ChunkRef) :
    s'.Reg k v ↔ s.Reg k v := by
  cases hs <;> rfl

/-- A search does not change the registered elements of Chunguses. -/
theorem Searched.info_eq {s s' : State} {owner : ℕ → Option Owner} (h : Shape s owner)
    (hs : Searched s s') {k page index : ℕ} (hreg : s.Reg k (.pool page index)) :
    s'.info page index = s.info page index := by
  cases hs with
  | same => rfl
  | @added p ps links hfresh _ _ _ =>
      have hne : page ≠ p := by
        rintro rfl
        cases h.refs k _ hreg with
        | pool hpage _ _ _ _ => exact hfresh (h.owned _ _ (h.pool _ hpage))
      simp only [State.info, State.addChungus, Function.update_of_ne hne]

/-- A page that is not in use is not in the list of Chunguses, and not its head. -/
theorem Shape.not_listed {s : State} {owner : ℕ → Option Owner} (h : Shape s owner) {page : ℕ}
    (hunused : page ∉ s.pages.owned) :
    Node.chungus page ∉ Node.chunguses :: s.pool.map .chungus := by
  intro hmem
  rcases List.mem_cons.mp hmem with hmem | hmem
  · cases hmem
  · obtain ⟨q, hq, hqp⟩ := List.mem_map.mp hmem
    cases hqp
    exact hunused (h.owned _ _ (h.pool _ hq))

/-- A search for a `ChunkInfo`, which may add a Chungus, keeps the shape, all owners and the
lists. -/
theorem Searched.keeps {s s' : State} {owner : ℕ → Option Owner} {B : ℕ → List (ℕ × ℕ)}
    (h : Shape s owner) (hl : Lists s B) (hs : Searched s s') :
    (∃ owner', Shape s' owner' ∧ ∀ q o, owner q = some o → owner' q = some o) ∧ Lists s' B := by
  have hroom := hasRoom_congr hs.reg_iff fun _ _ _ => hs.info_eq h
  cases hs with
  | same => exact ⟨⟨owner, h, fun _ _ ho => ho⟩, hl⟩
  | @added p ps links hfresh hps _ hpush =>
      have hnone := h.owner_eq_none hfresh
      refine ⟨⟨_, h.addChungus hfresh hps links, ?_⟩, ?_⟩
      · intro q o ho
        have hne : q ≠ p := by
          rintro rfl
          simp [hnone] at ho
        rw [Function.update_of_ne hne, ho]
      · obtain ⟨l', hpush', hring, hother⟩ :=
          pushFront_spec hl.chunguses (h.not_listed hfresh)
        obtain rfl := Except.ok.inj (hpush.symm.trans hpush')
        rw [← List.map_cons] at hring
        refine hl.setChunguses hring ?_ rfl rfl hroom
        intro y hy hy'
        refine hother y ?_
        intro hmem
        rcases List.mem_cons.mp hmem with rfl | hmem
        · exact hy p rfl
        · rcases List.mem_cons.mp hmem with rfl | hmem
          · exact hy' rfl
          · obtain ⟨q, -, rfl⟩ := List.mem_map.mp hmem
            exact hy q rfl

/-- **What `getFreeChunk` can do**: find no `ChunkInfo`, or find a free one, possibly in a new
Chungus. -/
theorem getFreeChunk_cases {src : PageSource} (hsrc : src.Sound) {s s' : State}
    {owner : ℕ → Option Owner} {B : ℕ → List (ℕ × ℕ)} {r : Option (ℕ × ℕ)} (h : Shape s owner)
    (hl : Lists s B) (hok : getFreeChunk src s = .ok (r, s')) :
    (r = none ∧ ∃ ps, ps.owned = s.pages.owned ∧ s.pages.refused ≤ ps.refused ∧
      s' = { s with pages := ps }) ∨
    ∃ page index, r = some (page, index) ∧ Searched s s' ∧ page ∈ s'.pool ∧
      index < chungusNChunks ∧ bit (s'.memory page).bitmap index = false := by
  unfold getFreeChunk at hok
  obtain ⟨found, hfound, hok⟩ := bind_eq_ok.mp hok
  match found with
  | some (page, index) =>
      obtain ⟨hpage, hbit⟩ := findFreeChunkInList_spec hl.chunguses hfound
      simp only at hok
      split at hok
      · exact absurd hok (by simp)
      · rename_i hindex
        rw [not_full_of_bit (by omega) hbit] at hok
        obtain ⟨rfl, rfl⟩ := Prod.mk.inj (Except.ok.inj hok)
        exact .inr ⟨page, index, rfl, .same, hpage, by omega, hbit⟩
  | none =>
      unfold allocateChungus at hok
      rcases s.pages.allocatePages_cases hsrc 1 false with
        ⟨t, refused, halloc, hrefused, -⟩ | ⟨p, t, hfresh, -, halloc⟩
      · simp only [halloc, if_true] at hok
        obtain ⟨rfl, rfl⟩ := Prod.mk.inj (Except.ok.inj hok)
        exact .inl ⟨rfl, ⟨s.pages.owned, t, refused⟩, rfl, hrefused, rfl⟩
      · simp only [halloc, if_neg hfresh.ne_zero] at hok
        obtain ⟨links, hpush, hok⟩ := bind_eq_ok.mp hok
        obtain ⟨found', hfound', hok⟩ := bind_eq_ok.mp hok
        have hadded : Searched s (s.addChungus p ⟨s.pages.owned ++ pages p 1, t, s.pages.refused⟩
            links) := .added (hfresh.unused p (base_mem_pages one_pos)) rfl rfl hpush
        match found' with
        | none => exact absurd hok (by simp)
        | some (page, index) =>
            obtain ⟨hpage, hbit⟩ :=
              findFreeChunkInList_spec (hadded.keeps h hl).2.chunguses hfound'
            simp only at hok
            split at hok
            · exact absurd hok (by simp)
            · rename_i hindex
              obtain ⟨rfl, rfl⟩ := Prod.mk.inj (Except.ok.inj hok)
              exact .inr ⟨page, index, rfl, hadded, hpage, by omega, hbit⟩

/-! ### Giving pages to a `ChunkInfo` -/

/-- The `ChunkInfo` of a new block: its pages, and the bitmap of an empty chunk if it is a
small one. -/
def newInfo (old : ChunkInfo) (base size : ℕ) : ChunkInfo :=
  ⟨base, size, if size < bigbucketThreshold then emptyMask size else old.bitmap⟩

/-- The heap with the `ChunkInfo` of a new block, which is marked as used. -/
def State.useInfo (s : State) (page index base size : ℕ) (ps : Pages) : State :=
  let s := { s with pages := ps }.setChunk (.pool page index)
    (newInfo (s.info page index) base size)
  { s with memory := Function.update s.memory page (markUsed (s.memory page) index) }

/-- **What `allocateChunk` can do**: get no pages and clear the base, or get pages. -/
theorem allocateChunk_cases {src : PageSource} (hsrc : src.Sound) {s s' : State}
    {page index size : ℕ} {b : Bool} (hok : allocateChunk src s page index size = (b, s')) :
    (b = false ∧ ∃ ps, ps.owned = s.pages.owned ∧ s.pages.refused ≤ ps.refused ∧
      s' = { s with pages := ps }.setChunk (.pool page index)
        { s.info page index with base := 0 }) ∨
    (b = true ∧ ∃ base ps, Fresh s.pages.owned base (roundToPage size) ∧
      ps.owned = s.pages.owned ++ pages base (roundToPage size) ∧
      ps.refused = s.pages.refused ∧ s' = s.useInfo page index base size ps) := by
  unfold allocateChunk at hok
  rcases s.pages.allocatePages_cases hsrc (roundToPage size) false with
    ⟨t, refused, halloc, hrefused, -⟩ | ⟨base, t, hfresh, -, halloc⟩
  · simp only [halloc, if_true] at hok
    obtain ⟨rfl, rfl⟩ := Prod.mk.inj hok
    exact .inl ⟨rfl, ⟨s.pages.owned, t, refused⟩, rfl, hrefused, rfl⟩
  · simp only [halloc, if_neg hfresh.ne_zero] at hok
    obtain ⟨rfl, rfl⟩ := Prod.mk.inj hok
    refine .inr ⟨rfl, base, ⟨s.pages.owned ++ pages base (roundToPage size), t, s.pages.refused⟩,
      hfresh, rfl, rfl, ?_⟩
    simp only [State.useInfo, newInfo, State.info]
    split <;> rfl

end MugOS.Heap
