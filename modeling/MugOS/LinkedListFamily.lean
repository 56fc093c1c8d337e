import MugOS.LinkedList

/-!
# Several Lists over the Same Nodes

The lists of an allocator are linked through nodes of one type, and a node moves from one list to
another. Here a family of lists that have no node in common is treated as a whole: each operation
keeps the family and changes the sequence of one list.

## Main results

* `Rings.push`, `Rings.pop`, `Rings.move`: the operations on lists of a family.
* `Rings.add`: a list that is initialised joins the family.
-/

namespace MugOS.LinkedList

open Links

variable {α : Type} [DecidableEq α] {l : Links α} {heads : α → Prop} {nodes : α → List α}

omit [DecidableEq α] in
/-- **A family of lists**: each head has a ring, and no two rings meet. -/
structure Rings (l : Links α) (heads : α → Prop) (nodes : α → List α) : Prop where
  ring : ∀ h, heads h → l.Ring h (nodes h)
  apart : ∀ h h' x, heads h → heads h' → x ∈ h :: nodes h → x ∈ h' :: nodes h' → h = h'

omit [DecidableEq α] in
/-- The rings only depend on the sequences of the heads, and on those of fewer heads too. -/
theorem Rings.congr {heads' : α → Prop} {nodes' : α → List α} (h : Rings l heads nodes)
    (hheads : ∀ x, heads' x → heads x) (hnodes : ∀ x, heads' x → nodes' x = nodes x) :
    Rings l heads' nodes' where
  ring := by
    intro x hx
    rw [hnodes x hx]
    exact h.ring x (hheads x hx)
  apart := by
    intro x x' y hx hx' hy hy'
    rw [hnodes x hx] at hy
    rw [hnodes x' hx'] at hy'
    exact h.apart x x' y (hheads x hx) (hheads x' hx') hy hy'

/-- **Pushing** a node that is in no list succeeds, and puts it in front of the nodes of its
list only. -/
theorem Rings.push (h : Rings l heads nodes) {list node : α} (hlist : heads list)
    (hnode : ∀ x, heads x → node ∉ x :: nodes x) :
    ∃ l', pushFront l list node = .ok l' ∧
      Rings l' heads (Function.update nodes list (node :: nodes list)) := by
  obtain ⟨l', hpush, hring, hother⟩ := pushFront_spec (h.ring list hlist) (hnode list hlist)
  refine ⟨l', hpush, ?_, ?_⟩
  · intro x hx
    by_cases hxl : x = list
    · subst hxl
      rw [Function.update_self]
      exact hring
    · rw [Function.update_of_ne hxl]
      refine (h.ring x hx).congr fun y hy => hother y ?_
      intro hmem
      rcases List.mem_cons.mp hmem with rfl | hmem
      · exact hnode x hx hy
      · exact hxl (h.apart x list y hx hlist hy hmem)
  · -- A node of a changed list is the new one or was in the list before.
    have hback : ∀ x y, heads x → y ∈ x :: Function.update nodes list (node :: nodes list) x →
        y ∈ x :: nodes x ∨ y = node ∧ x = list := by
      intro x y hx hy
      by_cases hxl : x = list
      · subst hxl
        rw [Function.update_self] at hy
        simp only [List.mem_cons] at hy ⊢
        tauto
      · rw [Function.update_of_ne hxl] at hy
        exact .inl hy
    intro x x' y hx hx' hy hy'
    rcases hback x y hx hy with hy | ⟨rfl, rfl⟩ <;> rcases hback x' y hx' hy' with hy' | ⟨h1, h2⟩
    · exact h.apart x x' y hx hx' hy hy'
    · exact absurd hy (h1 ▸ hnode x hx)
    · exact absurd hy' (hnode x' hx')
    · exact h2.symm

/-- **Popping** a node of a list succeeds, and takes it out of the nodes of this list only. -/
theorem Rings.pop (h : Rings l heads nodes) {list node : α} (hlist : heads list)
    (hnode : node ∈ nodes list) :
    ∃ l', LinkedList.pop l list node = .ok l' ∧
      Rings l' heads (Function.update nodes list ((nodes list).erase node)) := by
  obtain ⟨l', hpop, hring, hother, -⟩ := pop_spec (h.ring list hlist) hnode
  refine ⟨l', hpop, ?_, ?_⟩
  · intro x hx
    by_cases hxl : x = list
    · subst hxl
      rw [Function.update_self]
      exact hring
    · rw [Function.update_of_ne hxl]
      refine (h.ring x hx).congr fun y hy => hother y ?_
      exact fun hmem => hxl (h.apart x list y hx hlist hy hmem)
  · have hback : ∀ x y, y ∈ x :: Function.update nodes list ((nodes list).erase node) x →
        y ∈ x :: nodes x := by
      intro x y hy
      by_cases hxl : x = list
      · subst hxl
        rw [Function.update_self] at hy
        exact List.cons_subset_cons x (List.erase_subset) hy
      · rwa [Function.update_of_ne hxl] at hy
    exact fun x x' y hx hx' hy hy' => h.apart x x' y hx hx' (hback x y hy) (hback x' y hy')

omit [DecidableEq α] in
/-- A node is in one list of a family at most, and is the head of none of them. -/
theorem Rings.not_mem (h : Rings l heads nodes) {list list' node : α} (hlist : heads list)
    (hlist' : heads list') (hnode : node ∈ nodes list) (hne : list' ≠ list) :
    node ∉ list' :: nodes list' :=
  fun hmem => hne (h.apart list' list node hlist' hlist hmem (List.mem_cons_of_mem _ hnode))

/-- **Moving** a node from one list to another, a pop and a push, changes the nodes of these
two lists only. -/
theorem Rings.move (h : Rings l heads nodes) {list list' node : α} (hlist : heads list)
    (hlist' : heads list') (hne : list' ≠ list) (hnode : node ∈ nodes list) :
    ∃ l₁ l₂, LinkedList.pop l list node = .ok l₁ ∧ pushFront l₁ list' node = .ok l₂ ∧
      Rings l₂ heads (Function.update (Function.update nodes list ((nodes list).erase node)) list'
        (node :: nodes list')) := by
  obtain ⟨l₁, hpop, hrings⟩ := h.pop hlist hnode
  have hgone : ∀ x, heads x →
      node ∉ x :: Function.update nodes list ((nodes list).erase node) x := by
    intro x hx
    have hnodup := List.nodup_cons.mp (h.ring list hlist).nodup
    by_cases hxl : x = list
    · subst hxl
      rw [Function.update_self, List.mem_cons, hnodup.2.mem_erase_iff]
      rintro (rfl | ⟨hne', -⟩)
      · exact hnodup.1 hnode
      · exact hne' rfl
    · rw [Function.update_of_ne hxl]
      exact h.not_mem hlist hx hnode hxl
  obtain ⟨l₂, hpush, hrings'⟩ := hrings.push hlist' hgone
  rw [Function.update_of_ne hne] at hrings'
  exact ⟨l₁, l₂, hpop, hpush, hrings'⟩

/-- **A new list** joins the family when it is initialised. -/
theorem Rings.add (h : Rings l heads nodes) {list : α} (hnew : ∀ x, heads x → list ∉ x :: nodes x) :
    Rings (init l list) (fun x => x = list ∨ heads x) (Function.update nodes list []) := by
  obtain ⟨hring, hother⟩ := init_spec l list
  have hne : ∀ x, heads x → x ≠ list := by
    rintro x hx rfl
    exact hnew x hx (by simp)
  refine ⟨?_, ?_⟩
  · rintro x (rfl | hx)
    · rw [Function.update_self]
      exact hring
    · rw [Function.update_of_ne (hne x hx)]
      refine (h.ring x hx).congr fun y hy => hother y ?_
      rintro rfl
      exact hnew x hx hy
  · rintro x x' y (rfl | hx) (rfl | hx') hy hy'
    · rfl
    · rw [Function.update_self, List.mem_singleton] at hy
      rw [Function.update_of_ne (hne x' hx')] at hy'
      exact absurd (hy ▸ hy') (hnew x' hx')
    · rw [Function.update_self, List.mem_singleton] at hy'
      rw [Function.update_of_ne (hne x hx)] at hy
      exact absurd (hy' ▸ hy) (hnew x hx)
    · rw [Function.update_of_ne (hne x hx)] at hy
      rw [Function.update_of_ne (hne x' hx')] at hy'
      exact h.apart x x' y hx hx' hy hy'

end MugOS.LinkedList
