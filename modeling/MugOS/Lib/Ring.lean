import Mathlib.Tactic

/-!
# Rings of Doubly Linked Nodes

Nodes carry a `next` and a `prev` link, either of which may be null. A *segment* is a path
along which both links agree, and a *ring* is a segment from a head back to the head without
repetition. This module knows nothing of what the nodes are embedded in.

## Main results

* `segment_append`: segments compose at a node.
* `Segment.congr`, `Ring.congr`: links elsewhere do not matter.
* `Ring.link_front`, `Ring.link_back`, `Ring.unlink`: the updates of a ring.
* `ring_iff_forward`: a ring is a list that is traversed in both directions.
-/

namespace MugOS

variable {α : Type*}

/-- The links of all nodes; `none` is a null link. -/
structure Links (α : Type*) where
  next : α → Option α
  prev : α → Option α

namespace Links

/-- The two nodes are neighbours: each of them is linked to the other. -/
def Joined (l : Links α) (x y : α) : Prop := l.next x = some y ∧ l.prev y = some x

/-- The links lead from one node through the given ones to another, and back. -/
def Segment (l : Links α) : α → List α → α → Prop
  | p, [], q => l.Joined p q
  | p, x :: xs, q => l.Joined p x ∧ Segment l x xs q

/-- The links lead from the head through the given nodes, which are distinct, to the head. -/
structure Ring (l : Links α) (h : α) (xs : List α) : Prop where
  segment : l.Segment h xs h
  nodup : (h :: xs).Nodup

variable {l l' : Links α} {h p q x : α} {xs ys : List α}

/-- **Segments compose** at a node: two segments that meet there are one, and one is split by
any of its nodes. -/
theorem segment_append : l.Segment p (xs ++ x :: ys) q ↔ l.Segment p xs x ∧ l.Segment x ys q := by
  induction xs generalizing p with
  | nil => rfl
  | cons y xs ih => simp only [List.cons_append, Segment, ih, and_assoc]

/-- A segment with one more node at its end is a segment up to this node and a link behind
it. -/
theorem segment_concat : l.Segment p (xs ++ [x]) q ↔ l.Segment p xs x ∧ l.Joined x q :=
  segment_append

/-- **Only the links of a segment matter**: it stays one as long as the links between its nodes
do. -/
theorem Segment.congr (hseg : l.Segment p xs q) (hnext : ∀ y ∈ p :: xs, l'.next y = l.next y)
    (hprev : ∀ y ∈ xs ++ [q], l'.prev y = l.prev y) : l'.Segment p xs q := by
  induction xs generalizing p with
  | nil =>
      refine ⟨?_, ?_⟩
      · rw [hnext p (by simp)]
        exact hseg.1
      · rw [hprev q (by simp)]
        exact hseg.2
  | cons x xs ih =>
      obtain ⟨hfirst, hrest⟩ := hseg
      refine ⟨⟨?_, ?_⟩, ih hrest ?_ ?_⟩
      · rw [hnext p (by simp)]
        exact hfirst.1
      · rw [hprev x (by simp)]
        exact hfirst.2
      · exact fun y hy => hnext y (List.mem_cons_of_mem p hy)
      · exact fun y hy => hprev y (List.mem_cons_of_mem x hy)

/-- **Only the links of a ring matter**: it stays one as long as the links of its nodes and its
head do. -/
theorem Ring.congr (hr : l.Ring h xs)
    (hsame : ∀ y ∈ h :: xs, l'.next y = l.next y ∧ l'.prev y = l.prev y) : l'.Ring h xs where
  segment := by
    refine hr.segment.congr (fun y hy => (hsame y hy).1) ?_
    intro y hy
    refine (hsame y ?_).2
    rcases List.mem_append.mp hy with hy | hy
    · exact List.mem_cons_of_mem h hy
    · exact List.mem_singleton.mp hy ▸ List.mem_cons_self
  nodup := hr.nodup

/-- The ring without nodes is a head that is linked to itself on both sides. -/
theorem ring_nil : l.Ring h [] ↔ l.next h = some h ∧ l.prev h = some h :=
  ⟨fun hr => hr.segment, fun hr => ⟨hr, List.nodup_singleton h⟩⟩

/-- The node behind the head of a ring is its first one, or the head if there is none. -/
theorem Ring.next_head (hr : l.Ring h xs) : l.next h = some (xs.headD h) := by
  cases xs with
  | nil => exact hr.segment.1
  | cons x xs => exact hr.segment.1.1

/-- The node before the head of a ring is its last one, or the head if there is none. -/
theorem Ring.prev_head (hr : l.Ring h xs) : l.prev h = some (xs.getLastD h) := by
  rcases List.eq_nil_or_concat xs with rfl | ⟨ys, x, rfl⟩
  · exact hr.segment.2
  · rw [List.concat_eq_append] at hr ⊢
    rw [List.getLastD_concat]
    exact (segment_concat.mp hr.segment).2.2

/-- The head refers to itself exactly when the ring has no nodes. -/
theorem Ring.next_eq_head (hr : l.Ring h xs) : l.next h = some h ↔ xs = [] := by
  rw [hr.next_head, Option.some.injEq]
  cases xs with
  | nil => simp
  | cons x xs =>
      have := hr.nodup
      simp only [List.nodup_cons, List.mem_cons, not_or] at this
      simp only [List.headD_cons, List.cons_ne_nil, iff_false]
      exact fun heq => this.1.1 heq.symm

/-- **Linking a node in at the front** of a ring gives the ring with this node in front of the
others. -/
theorem Ring.link_front (hr : l.Ring h xs) (hx : x ∉ h :: xs) (hnx : l'.next x = some (xs.headD h))
    (hpx : l'.prev x = some h) (hnh : l'.next h = some x) (hpf : l'.prev (xs.headD h) = some x)
    (hnext : ∀ y ∈ xs, l'.next y = l.next y)
    (hprev : ∀ y ∈ h :: xs, y ≠ xs.headD h → l'.prev y = l.prev y) : l'.Ring h (x :: xs) where
  segment := by
    refine ⟨⟨hnh, hpx⟩, ?_⟩
    cases xs with
    | nil => exact ⟨hnx, hpf⟩
    | cons y xs =>
        have hnodup := hr.nodup
        simp only [List.nodup_cons, List.mem_cons, not_or] at hnodup
        refine ⟨⟨hnx, hpf⟩, hr.segment.2.congr hnext ?_⟩
        intro z hz
        refine hprev z ?_ ?_
        · simp only [List.mem_append, List.mem_cons] at hz ⊢
          tauto
        · rintro rfl
          simp only [List.mem_append, List.mem_singleton] at hz
          rcases hz with hz | hz
          · exact hnodup.2.1 hz
          · exact hnodup.1.1 hz.symm
  nodup := by
    have := hr.nodup
    simp only [List.nodup_cons, List.mem_cons, not_or] at this hx ⊢
    exact ⟨⟨fun heq => hx.1 heq.symm, this.1⟩, hx.2, this.2⟩

/-! ### The other direction -/

/-- The links read backwards, with the next and the previous nodes exchanged. -/
def swap (l : Links α) : Links α := ⟨l.prev, l.next⟩

/-- A segment that is read backwards is a segment of the swapped links, with its nodes
reversed. -/
theorem Segment.swap (hseg : l.Segment p xs q) : l.swap.Segment q xs.reverse p := by
  induction xs generalizing p with
  | nil => exact ⟨hseg.2, hseg.1⟩
  | cons x xs ih =>
      rw [List.reverse_cons]
      exact segment_concat.mpr ⟨ih hseg.2, hseg.1.2, hseg.1.1⟩

/-- A ring that is read backwards is a ring of the swapped links, with its nodes reversed. -/
theorem Ring.swap (hr : l.Ring h xs) : l.swap.Ring h xs.reverse where
  segment := hr.segment.swap
  nodup := by
    have := hr.nodup
    simp only [List.nodup_cons, List.mem_reverse, List.nodup_reverse] at this ⊢
    exact this

/-- The last node of a list, or a default, is the first one of the reversed list. -/
theorem headD_reverse (xs : List α) (h : α) : xs.reverse.headD h = xs.getLastD h := by
  rcases List.eq_nil_or_concat xs with rfl | ⟨ys, x, rfl⟩
  · rfl
  · rw [List.concat_eq_append, List.reverse_concat, List.headD_cons, List.getLastD_concat]

/-- **Linking a node in at the back** of a ring gives the ring with this node behind the
others. -/
theorem Ring.link_back (hr : l.Ring h xs) (hx : x ∉ h :: xs)
    (hpx : l'.prev x = some (xs.getLastD h)) (hnx : l'.next x = some h)
    (hph : l'.prev h = some x) (hnl : l'.next (xs.getLastD h) = some x)
    (hprev : ∀ y ∈ xs, l'.prev y = l.prev y)
    (hnext : ∀ y ∈ h :: xs, y ≠ xs.getLastD h → l'.next y = l.next y) :
    l'.Ring h (xs ++ [x]) := by
  have hback : l'.swap.Ring h (x :: xs.reverse) := by
    rw [← headD_reverse] at hpx hnl
    refine hr.swap.link_front (by simpa using hx) hpx hnx hph hnl ?_ ?_
    · intro y hy
      exact hprev y (List.mem_reverse.mp hy)
    · intro y hy hne
      rw [headD_reverse] at hne
      exact hnext y (by simpa using hy) hne
  have hring := hback.swap
  rw [List.reverse_cons, List.reverse_reverse] at hring
  exact hring

/-! ### Traversals -/

/-- Follow `next` from a node until the head is reached, with a bound on the steps: the nodes
on the way. -/
def forward [DecidableEq α] (l : Links α) (h : α) : ℕ → α → Option (List α)
  | 0, _ => none
  | k + 1, x =>
      match l.next x with
      | none => none
      | some y => if y = h then some [] else (forward l h k y).map (y :: ·)

/-- The `next` links lead from one node through the given ones to another. -/
def Path (l : Links α) : α → List α → α → Prop
  | p, [], q => l.next p = some q
  | p, x :: xs, q => l.next p = some x ∧ Path l x xs q

/-- Paths compose at a node: two paths that meet there are one, and one is split by any of its
nodes. -/
theorem path_append : l.Path p (xs ++ x :: ys) q ↔ l.Path p xs x ∧ l.Path x ys q := by
  induction xs generalizing p with
  | nil => rfl
  | cons y xs ih => simp only [List.cons_append, Path, ih, and_assoc]

/-- A segment is a path forward along one kind of links and backward along the other. -/
theorem segment_iff_path : l.Segment p xs q ↔ l.Path p xs q ∧ l.swap.Path q xs.reverse p := by
  induction xs generalizing p with
  | nil => rfl
  | cons x xs ih =>
      rw [Segment, ih, List.reverse_cons, path_append, Path, Joined]
      simp only [Path, Links.swap]
      tauto

/-- A traversal that starts at a node visits the nodes of a path, in order, if they lead to the
head. -/
theorem forward_iff [DecidableEq α] (hx : h ∉ xs) :
    l.forward h (xs.length + 1) p = some xs ↔ l.Path p xs h := by
  induction xs generalizing p with
  | nil =>
      rw [forward, Path]
      split
      · simp_all
      · rename_i y hy
        rw [hy]
        by_cases hyh : y = h
        · simp [hyh]
        · simp [hyh, forward]
  | cons x xs ih =>
      simp only [List.mem_cons, not_or] at hx
      rw [List.length_cons, forward, Path]
      split
      · simp_all
      · rename_i y hy
        rw [hy, Option.some.injEq, ← ih hx.2]
        by_cases hyh : y = h
        · simp [hyh, hx.1]
        · rw [if_neg hyh, Option.map_eq_some_iff]
          constructor
          · rintro ⟨zs, hzs, heq⟩
            obtain ⟨rfl, rfl⟩ := List.cons.inj heq
            exact ⟨rfl, hzs⟩
          · rintro ⟨rfl, hzs⟩
            exact ⟨xs, hzs, rfl⟩

/-- **A ring is a list that is traversed in both directions**, through distinct nodes. -/
theorem ring_iff_forward [DecidableEq α] : l.Ring h xs ↔
    (h :: xs).Nodup ∧ l.forward h (xs.length + 1) h = some xs ∧
      l.swap.forward h (xs.length + 1) h = some xs.reverse := by
  constructor
  · intro hr
    have hx : h ∉ xs := (List.nodup_cons.mp hr.nodup).1
    obtain ⟨hpath, hback⟩ := segment_iff_path.mp hr.segment
    refine ⟨hr.nodup, (forward_iff hx).mpr hpath, ?_⟩
    rw [← List.length_reverse]
    exact (forward_iff (by simpa using hx)).mpr hback
  · rintro ⟨hnodup, hforward, hback⟩
    have hx : h ∉ xs := (List.nodup_cons.mp hnodup).1
    rw [← List.length_reverse] at hback
    exact ⟨segment_iff_path.mpr ⟨(forward_iff hx).mp hforward,
      (forward_iff (by simpa using hx)).mp hback⟩, hnodup⟩

/-! ### Unlinking -/

/-- **Unlinking a node**: its neighbours become each other's. -/
theorem Ring.unlink (hr : l.Ring h (xs ++ x :: ys))
    (hjoin : l'.Joined (xs.getLastD h) (ys.headD h))
    (hnext : ∀ y ∈ h :: (xs ++ ys), y ≠ xs.getLastD h → l'.next y = l.next y)
    (hprev : ∀ y ∈ h :: (xs ++ ys), y ≠ ys.headD h → l'.prev y = l.prev y) :
    l'.Ring h (xs ++ ys) := by
  obtain ⟨hseg, hnodup⟩ := hr
  obtain ⟨hleft, hright⟩ := segment_append.mp hseg
  have hnodup' : (h :: (xs ++ ys)).Nodup :=
    hnodup.sublist (by simp)
  refine ⟨?_, hnodup'⟩
  -- The part before the neighbours, and the part after them.
  have hbefore : ∀ us p, xs = us ++ [p] → l'.Segment h us p := by
    rintro us p rfl
    rw [List.getLastD_concat] at hnext
    refine (segment_concat.mp hleft).1.congr ?_ ?_
    · intro y hy
      exact hnext y (by grind) (by grind)
    · intro y hy
      refine hprev y (by grind) ?_
      cases ys <;> grind
  have hafter : ∀ q vs, ys = q :: vs → l'.Segment q vs h := by
    rintro q vs rfl
    refine hright.2.congr ?_ ?_
    · intro y hy
      refine hnext y (by grind) ?_
      rcases List.eq_nil_or_concat xs with rfl | ⟨us, p, rfl⟩
      · grind
      · rw [List.concat_eq_append] at *
        grind
    · intro y hy
      exact hprev y (by grind) (by grind)
  rcases List.eq_nil_or_concat xs with rfl | ⟨us, p, rfl⟩
  · cases ys with
    | nil => exact hjoin
    | cons q vs => exact ⟨hjoin, hafter q vs rfl⟩
  · rw [List.concat_eq_append] at *
    have hp := hbefore us p rfl
    rw [List.getLastD_concat] at hjoin
    cases ys with
    | nil =>
        rw [List.append_nil]
        exact segment_concat.mpr ⟨hp, hjoin⟩
    | cons q vs => exact segment_append.mpr ⟨segment_concat.mpr ⟨hp, hjoin⟩, hafter q vs rfl⟩

end Links

end MugOS
