import MugOS.HeapLists
import MugOS.Lib.Outcome

/-!
# When a Pool Gives a Member Back

A chunk without allocated blocks is given back if the other chunks of its bucket have enough free
blocks, and a Chungus without used elements if the other Chunguses have enough free elements. Both
are decided by a loop over the list of the pool that leaves the member out and stops as soon as it
has counted enough. `shouldFreeChungus` leaves the member out, but for each of the others it counts
the elements of the member.

## Main results

* `foldUntil_sum`: a loop that stops when it has counted enough tells whether there is enough.
* `shouldFreeChunk_eq`: the free blocks of the other chunks decide.
* `shouldFreeChungus_eq`: the number of the other Chunguses and the member itself decide.
* `keepsRoom_iff`: when the others decide in both cases.
* `KeepsRoom.mono`: what follows from that.
-/

namespace MugOS.Heap

open WordBitmap LinkedList Links

/-! ### Counting until there is enough -/

/-- **A loop that stops when it has counted enough** tells whether there is enough in all. -/
theorem foldUntil_sum {α : Type} (free : α → ℕ) {target : ℕ} {body : ℕ × Bool → α →
      Except Fault ((ℕ × Bool) × Bool)} {xs : List α}
    (hbody : ∀ b, ∀ x ∈ xs, body b x = .ok ((b.1 + free x, decide (target ≤ b.1 + free x)),
      decide (target ≤ b.1 + free x))) {n : ℕ} (hn : n < target) :
    ∃ m, foldUntil body (n, false) xs = .ok (m, decide (target ≤ n + (xs.map free).sum)) := by
  induction xs generalizing n with
  | nil =>
      refine ⟨n, ?_⟩
      rw [foldUntil, List.map_nil, List.sum_nil, decide_eq_false (by omega)]
  | cons x xs ih =>
      rw [foldUntil, hbody (n, false) x List.mem_cons_self, List.map_cons, List.sum_cons]
      by_cases henough : target ≤ n + free x
      · refine ⟨n + free x, ?_⟩
        rw [decide_eq_true henough, decide_eq_true (by omega)]
        rfl
      · obtain ⟨m, hm⟩ := ih (fun b y hy => hbody b y (List.mem_cons_of_mem x hy))
          (n := n + free x) (by omega)
        refine ⟨m, ?_⟩
        rw [decide_eq_false henough, ← Nat.add_assoc, ← hm]
        rfl

/-- The loop over a list that sums up from zero and stops at a target tells whether the sum
over the whole list reaches it. -/
theorem foreach_sum {α : Type} [DecidableEq α] {l : Links α} {list : α} {xs : List α}
    (hring : l.Ring list xs) {fuel : ℕ} (hfuel : xs.length ≤ fuel) (free : α → ℕ) {target : ℕ}
    (hpos : 0 < target) {body : ℕ × Bool → α → Except Fault ((ℕ × Bool) × Bool)}
    (hbody : ∀ b, ∀ x ∈ xs, body b x = .ok ((b.1 + free x, decide (target ≤ b.1 + free x)),
      decide (target ≤ b.1 + free x))) :
    (do let (_, found) ← foreach l list fuel (0, false) body
        return found) = .ok (decide (target ≤ (xs.map free).sum)) := by
  obtain ⟨m, hm⟩ := foldUntil_sum free hbody hpos
  rw [foreach_eq hring hfuel, hm, Nat.zero_add]
  rfl

/-- The sum in which one member of a list counts as zero is the sum over the other members. -/
theorem sum_leave_out {α : Type} [DecidableEq α] (xs : List α) (x : α) (free : α → ℕ) :
    (xs.map fun y => if y ≠ x then free y else 0).sum = ((xs.filter (· ≠ x)).map free).sum := by
  induction xs with
  | nil => rfl
  | cons y xs ih =>
      rw [List.map_cons, List.sum_cons, ih]
      by_cases hy : y = x
      · rw [List.filter_cons_of_neg (by simpa using hy), if_neg (not_not.mpr hy), Nat.zero_add]
      · rw [List.filter_cons_of_pos (by simpa using hy), if_pos hy, List.map_cons, List.sum_cons]

/-! ### Free blocks and free elements -/

/-- The `ChunkInfo` of a chunk of small blocks: the bits without a block are set. -/
structure ChunkInfo.Small (c : ChunkInfo) : Prop where
  size_ge : minBlockSize ≤ c.size
  size_lt : c.size < bigbucketThreshold
  mask : ∀ i, pageSize / c.size ≤ i → i < 64 → c.bitmap.getMsbD i = true

/-- The number of free blocks of a chunk: those whose bit is clear. -/
def ChunkInfo.freeBlocks (c : ChunkInfo) : ℕ :=
  (List.range (pageSize / c.size)).countP fun i => !c.bitmap.getMsbD i

/-- The number of free elements of a Chungus: those whose bit is clear. -/
def Chungus.freeInfos (c : Chungus) : ℕ :=
  (List.range chungusNChunks).countP fun i => !bit c.bitmap i

/-- Counting below a bound from which on there is nothing. -/
theorem countP_range_le {p : ℕ → Bool} {m n : ℕ} (hmn : m ≤ n)
    (hnone : ∀ i, m ≤ i → i < n → p i = false) :
    (List.range n).countP p = (List.range m).countP p := by
  induction n, hmn using Nat.le_induction with
  | base => rfl
  | succ n hmn ih =>
      rw [List.range_succ, List.countP_append, ih fun i hi hin => hnone i hi (by omega)]
      simp [hnone n hmn (by omega)]

/-- The bits of a word that `popcountll` does not count are its clear ones. -/
theorem clear_popcountll (w : BitVec 64) :
    64 - popcountll w = (List.range 64).countP fun i => !w.getMsbD i := by
  have hall := List.length_eq_countP_add_countP w.getMsbD (l := List.range 64)
  rw [List.length_range] at hall
  have hnot : (fun i => !w.getMsbD i) = fun i => decide ¬ w.getMsbD i = true := by
    funext i
    cases w.getMsbD i <;> rfl
  rw [popcountll, hnot]
  omega

/-- The clear bits in the bitmap of a small chunk are the blocks that it has free. -/
theorem ChunkInfo.Small.free_eq {c : ChunkInfo} (h : c.Small) :
    64 - popcountll c.bitmap = c.freeBlocks := by
  have hblocks : pageSize / c.size ≤ 64 := by
    have hsize := h.size_ge
    rw [Nat.div_le_iff_le_mul (by simp only [minBlockSize] at hsize; omega)]
    simp only [minBlockSize, pageSize] at *
    omega
  rw [clear_popcountll, ChunkInfo.freeBlocks]
  exact countP_range_le hblocks fun i hi hi64 => by rw [h.mask i hi hi64, Bool.not_true]

/-- The clear bits of a Chungus are its free elements. -/
theorem Chungus.Wf.free_eq {c : Chungus} (h : c.Wf) : countFreeChunkInChungus c = c.freeInfos := by
  have hword : ∀ k, (List.range 64).countP (fun i => !(word c.bitmap k).getMsbD i) =
      ((List.range 64).map (64 * k + ·)).countP fun i => !bit c.bitmap i := by
    intro k
    rw [List.countP_map]
    refine List.countP_congr fun i hi => ?_
    rw [List.mem_range] at hi
    rw [Function.comp_apply, bit, show (64 * k + i) / 64 = k by omega,
      show (64 * k + i) % 64 = i by omega]
  have hrange : List.range (64 * chungusBitmapSize) =
      (List.range 64).map (64 * 0 + ·) ++ (List.range 64).map (64 * 1 + ·) := by
    decide
  have htail : (List.range (64 * chungusBitmapSize)).countP (fun i => !bit c.bitmap i) =
      c.freeInfos :=
    countP_range_le (by decide) fun i hi hlt => by rw [h.tail i hi hlt, Bool.not_true]
  rw [← htail, hrange, List.countP_append, ← hword, ← hword]
  simp only [countFreeChunkInChungus, chungusBitmapSize, List.range_succ, List.range_zero,
    List.nil_append, List.map_append, List.map_cons, List.map_nil, List.sum_append, List.sum_cons,
    List.sum_nil, clear_popcountll, Nat.add_zero]

/-! ### The pools -/

/-- The number of free blocks that the other chunks of a bucket have to have. -/
def targetBlocks (c : ChunkInfo) : ℕ := 3 * pageSize / (2 * c.size)

/-- The number of free elements that the other Chunguses have to have. -/
def targetInfos : ℕ := 3 * pageSize / (2 * chungusNChunks)

/-- **The pools**: a bucket with chunks of small blocks and the Chunguses, both of them in
well-formed lists for which the steps of the loops are enough. -/
structure Pools (s : State) (order : ℕ) (chunks : List (ℕ × ℕ)) (chunguses : List ℕ) : Prop where
  bucket : s.links.Ring (.bucket order) (chunks.map chunkNode)
  bucket_le : chunks.length ≤ s.steps
  small : ∀ c ∈ chunks, (s.info c.1 c.2).Small
  list : s.links.Ring .chunguses (chunguses.map .chungus)
  list_le : chunguses.length ≤ s.steps
  wf : ∀ page ∈ chunguses, (s.memory page).Wf

/-- The free blocks of the other chunks of a bucket. -/
def freeOthers (s : State) (chunks : List (ℕ × ℕ)) (chunk : ℕ × ℕ) : ℕ :=
  ((chunks.filter (· ≠ chunk)).map fun c => (s.info c.1 c.2).freeBlocks).sum

/-- The free elements of the other Chunguses, which decide whether one is given back. -/
def freeInfosOthers (s : State) (chunguses : List ℕ) (chungus : ℕ) : ℕ :=
  ((chunguses.filter (· ≠ chungus)).map fun page => (s.memory page).freeInfos).sum

/-- **What the two decisions are to be**: a member is given back exactly if the others have
enough. -/
structure KeepsRoom (s : State) (order : ℕ) (chunks : List (ℕ × ℕ)) (chunk : ℕ × ℕ)
    (chunguses : List ℕ) (chungus : ℕ) : Prop where
  chunk : shouldFreeChunk s (.bucket order) chunk.1 chunk.2 =
    .ok (decide (targetBlocks (s.info chunk.1 chunk.2) ≤ freeOthers s chunks chunk))
  chungus : shouldFreeChungus s chungus =
    .ok (decide (targetInfos ≤ freeInfosOthers s chunguses chungus))

section

variable {s : State} {order : ℕ} {chunks : List (ℕ × ℕ)} {chunguses : List ℕ}

/-- What the loop over a bucket adds for a node: its free blocks, or nothing for the chunk
itself. -/
def freeBlocksBut (s : State) (chunk : ℕ × ℕ) : Node → ℕ
  | .chunk page index => if (page, index) ≠ chunk then (s.info page index).freeBlocks else 0
  | _ => 0

/-- **The free blocks of the other chunks decide** whether a chunk is given back: there have to
be as many as the target. -/
theorem shouldFreeChunk_eq (h : Pools s order chunks chunguses) {chunk : ℕ × ℕ}
    (hchunk : chunk ∈ chunks) :
    shouldFreeChunk s (.bucket order) chunk.1 chunk.2 =
      .ok (decide (targetBlocks (s.info chunk.1 chunk.2) ≤ freeOthers s chunks chunk)) := by
  have hpos : 0 < targetBlocks (s.info chunk.1 chunk.2) := by
    have hlt := (h.small chunk hchunk).size_lt
    have hge := (h.small chunk hchunk).size_ge
    refine Nat.div_pos ?_ ?_
    · simp only [bigbucketThreshold, pageSize] at *
      omega
    · simp only [minBlockSize] at hge
      omega
  have hsum : ((chunks.map chunkNode).map (freeBlocksBut s chunk)).sum =
      freeOthers s chunks chunk := by
    rw [List.map_map]
    exact sum_leave_out chunks chunk fun c => (s.info c.1 c.2).freeBlocks
  rw [← hsum]
  refine foreach_sum h.bucket (by rw [List.length_map]; exact h.bucket_le)
    (freeBlocksBut s chunk) hpos ?_
  rintro b x hx
  obtain ⟨⟨page, index⟩, hc, rfl⟩ := List.mem_map.mp hx
  have hfree : 64 - popcountll ((s.memory page).chunks index).bitmap =
      (s.info page index).freeBlocks := (h.small _ hc).free_eq
  by_cases hself : (page, index) = chunk
  · have hnone : freeBlocksBut s chunk (chunkNode (page, index)) = 0 := if_neg (not_not.mpr hself)
    rw [hnone, Nat.add_zero]
    simp only [chunkNode, chunkOfNode, ok_bind]
    rw [if_neg (not_not.mpr hself)]
    rfl
  · have hcount : freeBlocksBut s chunk (chunkNode (page, index)) =
        (s.info page index).freeBlocks := if_pos hself
    rw [hcount, ← hfree]
    simp only [chunkNode, chunkOfNode, ok_bind]
    rw [if_pos hself]
    rfl

/-- What the loop over the Chunguses adds for a node: the free elements of the member. -/
def freeInfosBut (s : State) (chungus : ℕ) : Node → ℕ
  | .chungus page => if page ≠ chungus then (s.memory chungus).freeInfos else 0
  | _ => 0

/-- **The number of the other Chunguses and the member decide.** -/
theorem shouldFreeChungus_eq (h : Pools s order chunks chunguses) {chungus : ℕ}
    (hchungus : chungus ∈ chunguses) :
    shouldFreeChungus s chungus = .ok (decide (targetInfos ≤
      (chunguses.filter (· ≠ chungus)).length * (s.memory chungus).freeInfos)) := by
  have hsum : ((chunguses.map Node.chungus).map (freeInfosBut s chungus)).sum =
      (chunguses.filter (· ≠ chungus)).length * (s.memory chungus).freeInfos := by
    rw [List.map_map]
    refine (sum_leave_out chunguses chungus fun _ => (s.memory chungus).freeInfos).trans ?_
    rw [List.map_const', List.sum_replicate, smul_eq_mul]
  rw [← hsum]
  refine foreach_sum h.list (by rw [List.length_map]; exact h.list_le)
    (freeInfosBut s chungus) (by decide) ?_
  rintro b x hx
  obtain ⟨page, -, rfl⟩ := List.mem_map.mp hx
  have hfree : countFreeChunkInChungus (s.memory chungus) = (s.memory chungus).freeInfos :=
    (h.wf _ hchungus).free_eq
  by_cases hself : page = chungus
  · have hnone : freeInfosBut s chungus (.chungus page) = 0 := if_neg (not_not.mpr hself)
    rw [hnone, Nat.add_zero]
    simp only [chungusOfNode, ok_bind]
    rw [if_neg (not_not.mpr hself)]
    rfl
  · have hcount : freeInfosBut s chungus (.chungus page) = (s.memory chungus).freeInfos :=
      if_pos hself
    rw [hcount, ← hfree]
    simp only [chungusOfNode, ok_bind]
    rw [if_pos hself]
    rfl

/-! ### The two decisions -/

/-- **When the others decide**: both decisions are about the others exactly if the other Chunguses
have enough free elements just when as many Chunguses like the member have. -/
theorem keepsRoom_iff (h : Pools s order chunks chunguses) {chunk : ℕ × ℕ} {chungus : ℕ}
    (hchunk : chunk ∈ chunks) (hchungus : chungus ∈ chunguses) :
    KeepsRoom s order chunks chunk chunguses chungus ↔
      (targetInfos ≤ (chunguses.filter (· ≠ chungus)).length * (s.memory chungus).freeInfos ↔
        targetInfos ≤ freeInfosOthers s chunguses chungus) := by
  have hcode := shouldFreeChungus_eq h hchungus
  constructor
  · intro hkeeps
    have hsame := Except.ok.inj (hcode.symm.trans hkeeps.chungus)
    exact decide_eq_decide.mp hsame
  · intro hsame
    exact ⟨shouldFreeChunk_eq h hchunk,
      hcode.trans (congrArg Except.ok (decide_eq_decide.mpr hsame))⟩

/-- **Others with more room** do not keep a member from being given back, whatever the member looks
like apart from the size of its blocks. -/
theorem KeepsRoom.mono {s' : State} {chunk : ℕ × ℕ} {chungus : ℕ}
    (h : KeepsRoom s order chunks chunk chunguses chungus)
    (h' : KeepsRoom s' order chunks chunk chunguses chungus)
    (hsize : (s'.info chunk.1 chunk.2).size = (s.info chunk.1 chunk.2).size)
    (hblocks : freeOthers s chunks chunk ≤ freeOthers s' chunks chunk)
    (hinfos : freeInfosOthers s chunguses chungus ≤ freeInfosOthers s' chunguses chungus) :
    (shouldFreeChunk s (.bucket order) chunk.1 chunk.2 = .ok true →
        shouldFreeChunk s' (.bucket order) chunk.1 chunk.2 = .ok true) ∧
      (shouldFreeChungus s chungus = .ok true → shouldFreeChungus s' chungus = .ok true) := by
  rw [h.chunk, h'.chunk, h.chungus, h'.chungus]
  simp only [Except.ok.injEq, decide_eq_true_eq]
  have htarget : targetBlocks (s'.info chunk.1 chunk.2) =
      targetBlocks (s.info chunk.1 chunk.2) := by
    rw [targetBlocks, hsize, targetBlocks]
  exact ⟨fun henough => htarget ▸ henough.trans hblocks, fun henough => henough.trans hinfos⟩

end

/-- The links of two Chunguses and of one chunk of the second of them. -/
def twoLinks : Links Node where
  next
    | .chunguses => some (.chungus 0x1000)
    | .chungus page => if page = 0x1000 then some (.chungus 0x2000) else some .chunguses
    | .bucket _ => some (.chunk 0x2000 100)
    | .chunk _ _ => some (.bucket 0)
  prev
    | .chunguses => some (.chungus 0x2000)
    | .chungus page => if page = 0x1000 then some .chunguses else some (.chungus 0x1000)
    | .bucket _ => some (.chunk 0x2000 100)
    | .chunk _ _ => some (.bucket 0)

/-- A Chungus whose elements are all free, and a second one, with the given first word of its
bitmap, whose other elements are used, one of them for an empty chunk of blocks of 64 bytes. -/
def twoChunguses (word : BitVec 64) : State where
  allocMap := Hashmap.empty
  links := twoLinks
  memory page :=
    if page = 0x1000 then ⟨[0#64, invalidMask], fun _ => default⟩
    else ⟨[word, 0xffffffffffffffff#64], fun _ => ⟨0x3000, 64, 0#64⟩⟩
  freeCache := List.replicate nBigblocksCached ⟨0, 0, 0#64⟩
  pages := ⟨[0x1000, 0x2000, 0x3000], 3, 0⟩
  pool := [0x1000, 0x2000]

/-- The state with one chunk and two Chunguses has well-formed lists for which the loops have
enough steps. -/
theorem pools_twoChunguses (word : BitVec 64) :
    Pools (twoChunguses word) 0 [(0x2000, 100)] [0x1000, 0x2000] where
  bucket := ⟨⟨⟨rfl, rfl⟩, rfl, rfl⟩, by decide⟩
  bucket_le := (by decide : 1 ≤ 4)
  small := by
    intro c hc
    obtain rfl := List.mem_singleton.mp hc
    exact ⟨le_refl 64, (by decide : 64 < bigbucketThreshold),
      fun i hi hi64 => absurd (hi.trans_lt hi64) (by decide : ¬ pageSize / 64 < 64)⟩
  list := ⟨⟨⟨rfl, rfl⟩, ⟨rfl, rfl⟩, rfl, rfl⟩, by decide⟩
  list_le := (by decide : 2 ≤ 4)
  wf := by
    intro page hpage
    rcases List.mem_cons.mp hpage with rfl | hpage
    · exact wf_newChungus _
    · obtain rfl := List.mem_singleton.mp hpage
      refine ⟨rfl, fun i hi hlt => ?_⟩
      simp only [chungusNChunks, chungusBitmapSize, pageSize] at hi hlt
      have hlast : i / 64 = 1 := by omega
      rw [bit, hlast]
      exact getMsbD_ones _ (Nat.mod_lt _ (by decide))

/-- **The others do not decide**: a Chungus without used elements is given back although the other
one has a single free element. -/
theorem chungus_given_back_without_room : ∃ s,
    Pools s 0 [(0x2000, 100)] [0x1000, 0x2000] ∧
      ¬ KeepsRoom s 0 [(0x2000, 100)] (0x2000, 100) [0x1000, 0x2000] 0x1000 := by
  refine ⟨twoChunguses 0x7fffffffffffffff#64, pools_twoChunguses _, fun hkeeps => ?_⟩
  have hcode : (shouldFreeChungus (twoChunguses 0x7fffffffffffffff#64) 0x1000).toOption =
      some true := by decide +kernel
  have hothers :
      freeInfosOthers (twoChunguses 0x7fffffffffffffff#64) [0x1000, 0x2000] 0x1000 = 1 := by
    decide +kernel
  rw [hkeeps.chungus, hothers] at hcode
  exact absurd hcode (by decide)

/-- The two decisions at a concrete member: the other Chungus has 64 free elements, and so both
have enough. -/
theorem keepsRoom_iff_two :
    KeepsRoom (twoChunguses 0#64) 0 [(0x2000, 100)] (0x2000, 100) [0x1000, 0x2000] 0x1000 :=
  (keepsRoom_iff (pools_twoChunguses 0#64) (by decide) (by decide)).mpr (by decide +kernel)

end MugOS.Heap
