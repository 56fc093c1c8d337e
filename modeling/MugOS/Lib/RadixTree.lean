import Mathlib.Tactic

/-!
# Radix Trees in a Store

A radix tree whose nodes are arrays of entries at addresses of a store: the entry at depth
`d` that a key selects is number `idx d key` of the node at that depth, and `child d e` is
the node that an entry of depth `d` refers to, if it refers to one. Keys, indices,
addresses and entries are arbitrary.

The store is shared: it holds the nodes of the tree next to anything else, and what keeps
an update local is that no two paths lead to one node.

## Main results

* `node_write`: an update of one entry leaves alone the nodes above it and those of the keys
  that do not select it.
* `node_link`, `node_unlink`: hanging a blank node into the tree, and taking one out.
* `node_eq_of_child`: updates that change no reference change no node.
-/

namespace MugOS

/-- The shape of a radix tree: which index a key selects at a depth, and which node an entry
refers to. -/
structure RadixTree (α ι κ E : Type*) where
  /-- the index that a key selects at a depth -/
  idx : ℕ → κ → ι
  /-- the node that an entry of a depth refers to -/
  child : ℕ → E → Option α

namespace RadixTree

variable {α ι κ E : Type*} (R : RadixTree α ι κ E)

/-- Two keys select the same entries above depth `d`. -/
def Agree (d : ℕ) (v w : κ) : Prop := ∀ k < d, R.idx k v = R.idx k w

/-- The node at a depth on the path of a key, if the path goes on that far. -/
def node (m : α → ι → E) (root : α) : ℕ → κ → Option α
  | 0, _ => some root
  | d + 1, v => (node m root d v).bind fun a => R.child d (m a (R.idx d v))

/-- The entry at a depth on the path of a key, if the path goes on that far. -/
def entry (m : α → ι → E) (root : α) (d : ℕ) (v : κ) : Option E :=
  (R.node m root d v).map fun a => m a (R.idx d v)

/-- No two paths lead to one node, but for those of keys that agree up to it. -/
def Separated (m : α → ι → E) (root : α) : Prop :=
  ∀ d v d' v' a, R.node m root d v = some a → R.node m root d' v' = some a →
    d = d' ∧ R.Agree d v v'

variable {R} {m m' : α → ι → E} {root : α}

/-! ### Paths -/

/-- Every key agrees with itself down to any depth. -/
@[refl]
theorem Agree.refl (d : ℕ) (v : κ) : R.Agree d v v := fun _ _ => rfl

/-- Two keys agree down to a depth in whatever order they are named. -/
theorem Agree.symm {d : ℕ} {v w : κ} (h : R.Agree d v w) : R.Agree d w v :=
  fun k hk => (h k hk).symm

/-- Two keys that agree with a third one down to a depth agree with each other down to it. -/
theorem Agree.trans {d : ℕ} {u v w : κ} (h : R.Agree d u v) (h' : R.Agree d v w) :
    R.Agree d u w := fun k hk => (h k hk).trans (h' k hk)

/-- Keys that agree down to a depth agree down to every smaller depth. -/
theorem Agree.mono {d d' : ℕ} {v w : κ} (h : R.Agree d v w) (hle : d' ≤ d) : R.Agree d' v w :=
  fun k hk => h k (by omega)

/-- Keys agree one step further down if they agree so far and have the same index there. -/
theorem agree_succ {d : ℕ} {v w : κ} :
    R.Agree (d + 1) v w ↔ R.Agree d v w ∧ R.idx d v = R.idx d w := by
  constructor
  · intro h
    exact ⟨h.mono (by omega), h d (by omega)⟩
  · rintro ⟨h, hd⟩ k hk
    by_cases hkd : k = d
    · rw [hkd, hd]
    · exact h k (by omega)

/-- The node below a node is the child that its entry for the key refers to, if any. -/
theorem node_succ {d : ℕ} {v : κ} {a : α} (h : R.node m root d v = some a) :
    R.node m root (d + 1) v = R.child d (m a (R.idx d v)) := by
  rw [node, h, Option.bind_some]

/-- A node that is not the root has a node above it, whose entry for the key refers to it. -/
theorem node_succ_inv {d : ℕ} {v : κ} {b : α} (h : R.node m root (d + 1) v = some b) :
    ∃ a, R.node m root d v = some a ∧ R.child d (m a (R.idx d v)) = some b :=
  Option.bind_eq_some_iff.mp h

/-- A path that ends at some depth has no node at any greater depth. -/
theorem node_none_of_le {d d' : ℕ} {v : κ} (h : R.node m root d v = none) (hle : d ≤ d') :
    R.node m root d' v = none := by
  induction d', hle using Nat.le_induction with
  | base => exact h
  | succ d' _ ih => rw [node, ih, Option.bind_none]

/-- A path that goes on to some depth has a node at every smaller depth. -/
theorem node_some_of_le {d d' : ℕ} {v : κ} {a : α} (h : R.node m root d' v = some a)
    (hle : d ≤ d') : ∃ b, R.node m root d v = some b := by
  rw [← Option.isSome_iff_exists, ← Option.ne_none_iff_isSome]
  intro hnone
  rw [node_none_of_le hnone hle] at h
  exact absurd h (by simp)

/-- The node at a depth depends on the entries selected above it. -/
theorem node_congr {d : ℕ} {v w : κ} (h : R.Agree d v w) :
    R.node m root d v = R.node m root d w := by
  induction d with
  | zero => rfl
  | succ d ih =>
      rw [agree_succ] at h
      rw [node, node, ih h.1, h.2]

/-- The entry of a key at a node is the content of the node at the index of the key. -/
theorem entry_of_node {d : ℕ} {v : κ} {a : α} (h : R.node m root d v = some a) :
    R.entry m root d v = some (m a (R.idx d v)) := by
  rw [entry, h, Option.map_some]

/-- A key has an entry at a depth if its path has a node there whose content at its index is
this entry. -/
theorem entry_eq_some {d : ℕ} {v : κ} {e : E} :
    R.entry m root d v = some e ↔
      ∃ a, R.node m root d v = some a ∧ m a (R.idx d v) = e :=
  Option.map_eq_some_iff

/-- Below an entry that refers to no node there is nothing. -/
theorem entry_none_of_lt {d d' : ℕ} {v : κ} {e : E} (h : R.entry m root d v = some e)
    (hchild : R.child d e = none) (hlt : d < d') : R.entry m root d' v = none := by
  obtain ⟨a, ha, rfl⟩ := entry_eq_some.mp h
  rw [entry, node_none_of_le ((node_succ ha).trans hchild) hlt, Option.map_none]

/-! ### Updates -/

/-- **Updates that change no reference** change no node. -/
theorem node_eq_of_child
    (h : ∀ d v a, R.node m root d v = some a →
      R.child d (m' a (R.idx d v)) = R.child d (m a (R.idx d v))) (d : ℕ) (v : κ) :
    R.node m' root d v = R.node m root d v := by
  induction d with
  | zero => rfl
  | succ d ih =>
      cases hn : R.node m root d v with
      | none => rw [node, node, ih, hn, Option.bind_none, Option.bind_none]
      | some a => rw [node_succ hn, node_succ (ih.trans hn), h d v a hn]

/-- The entries, where the nodes and the selected entry are the same. -/
theorem entry_eq_of_node {d : ℕ} {v : κ} (hn : R.node m' root d v = R.node m root d v)
    (h : ∀ a, R.node m root d v = some a → m' a (R.idx d v) = m a (R.idx d v)) :
    R.entry m' root d v = R.entry m root d v := by
  cases ha : R.node m root d v with
  | none => rw [entry, entry, hn, ha, Option.map_none, Option.map_none]
  | some a => rw [entry_of_node ha, entry_of_node (hn.trans ha), h a ha]

section OneEntry

variable {d₀ : ℕ} {v₀ : κ} {f : α} (hsep : R.Separated m root)
  (hf : R.node m root d₀ v₀ = some f)
  (hframe : ∀ d v a, R.node m root d v = some a → ¬ (a = f ∧ R.idx d v = R.idx d₀ v₀) →
    m' a (R.idx d v) = m a (R.idx d v))

include hsep hf in
/-- The keys and depths that select the same entry of the tree are equal in depth and agree
down to it. -/
theorem agree_of_selects {d : ℕ} {v : κ} (ha : R.node m root d v = some f)
    (hi : R.idx d v = R.idx d₀ v₀) : d = d₀ ∧ R.Agree (d₀ + 1) v v₀ := by
  obtain ⟨rfl, hagree⟩ := hsep d v d₀ v₀ f ha hf
  exact ⟨rfl, agree_succ.mpr ⟨hagree, hi⟩⟩

include hsep hf hframe

/-- **An update of one entry** leaves alone the nodes above it and those of the keys that do
not select it. -/
theorem node_write {d : ℕ} {v : κ} (h : d ≤ d₀ ∨ ¬ R.Agree (d₀ + 1) v v₀) :
    R.node m' root d v = R.node m root d v := by
  induction d with
  | zero => rfl
  | succ d ih =>
      have hd := ih (by rcases h with h | h <;> [exact .inl (by omega); exact .inr h])
      cases hn : R.node m root d v with
      | none => rw [node, node, hd, hn, Option.bind_none, Option.bind_none]
      | some a =>
          rw [node_succ hn, node_succ (hd.trans hn), hframe d v a hn]
          rintro ⟨rfl, hi⟩
          obtain ⟨rfl, hagree⟩ := agree_of_selects hsep hf hn hi
          rcases h with h | h
          · omega
          · exact h hagree

/-- After the update of an entry, the node below it is the child that the new entry refers
to. -/
theorem node_written {v : κ} (h : R.Agree (d₀ + 1) v v₀) :
    R.node m' root (d₀ + 1) v = R.child d₀ (m' f (R.idx d₀ v₀)) := by
  rw [node_congr h, node_succ ((node_write hsep hf hframe (.inl le_rfl)).trans hf)]

/-- **Linking**: an entry that referred to nothing now refers to a blank node. -/
theorem node_link {g : α} (hold : R.child d₀ (m f (R.idx d₀ v₀)) = none)
    (hnew : R.child d₀ (m' f (R.idx d₀ v₀)) = some g)
    (hblank : ∀ w, R.child (d₀ + 1) (m' g (R.idx (d₀ + 1) w)) = none) {d : ℕ} {v : κ}
    (h : ¬ (d = d₀ + 1 ∧ R.Agree (d₀ + 1) v v₀)) :
    R.node m' root d v = R.node m root d v := by
  by_cases hagree : R.Agree (d₀ + 1) v v₀
  · by_cases hd : d ≤ d₀
    · exact node_write hsep hf hframe (.inl hd)
    · have hd2 : d₀ + 2 ≤ d := by
        by_contra hlt
        exact h ⟨by omega, hagree⟩
      have hg : R.node m' root (d₀ + 1) v = some g :=
        (node_written hsep hf hframe hagree).trans hnew
      have hnone : R.node m root (d₀ + 1) v = none := by
        rw [node_congr hagree, node_succ hf, hold]
      rw [node_none_of_le ((node_succ hg).trans (hblank _)) hd2,
        node_none_of_le hnone (by omega)]
  · exact node_write hsep hf hframe (.inr hagree)

/-- **Unlinking**: an entry that referred to a blank node refers to nothing any more. -/
theorem node_unlink {g : α} (hold : R.child d₀ (m f (R.idx d₀ v₀)) = some g)
    (hblank : ∀ w, R.child (d₀ + 1) (m g (R.idx (d₀ + 1) w)) = none)
    (hnew : R.child d₀ (m' f (R.idx d₀ v₀)) = none) {d : ℕ} {v : κ}
    (h : ¬ (d = d₀ + 1 ∧ R.Agree (d₀ + 1) v v₀)) :
    R.node m' root d v = R.node m root d v := by
  by_cases hagree : R.Agree (d₀ + 1) v v₀
  · by_cases hd : d ≤ d₀
    · exact node_write hsep hf hframe (.inl hd)
    · have hd2 : d₀ + 2 ≤ d := by
        by_contra hlt
        exact h ⟨by omega, hagree⟩
      have hg : R.node m root (d₀ + 1) v = some g := by
        rw [node_congr hagree, node_succ hf, hold]
      have hnone : R.node m' root (d₀ + 1) v = none :=
        (node_written hsep hf hframe hagree).trans hnew
      rw [node_none_of_le ((node_succ hg).trans (hblank _)) hd2,
        node_none_of_le hnone (by omega)]
  · exact node_write hsep hf hframe (.inr hagree)

/-- Linking a node that is not in the tree keeps the paths separated. -/
theorem Separated.link {g : α} (hold : R.child d₀ (m f (R.idx d₀ v₀)) = none)
    (hnew : R.child d₀ (m' f (R.idx d₀ v₀)) = some g)
    (hblank : ∀ w, R.child (d₀ + 1) (m' g (R.idx (d₀ + 1) w)) = none)
    (hfresh : ∀ d v, R.node m root d v ≠ some g) : R.Separated m' root := by
  have hat : ∀ d v, d = d₀ + 1 ∧ R.Agree (d₀ + 1) v v₀ → R.node m' root d v = some g := by
    rintro d v ⟨rfl, hagree⟩
    exact (node_written hsep hf hframe hagree).trans hnew
  have hother := fun d v => node_link hsep hf hframe hold hnew hblank (d := d) (v := v)
  intro d v d' v' a ha ha'
  by_cases h : d = d₀ + 1 ∧ R.Agree (d₀ + 1) v v₀ <;>
    by_cases h' : d' = d₀ + 1 ∧ R.Agree (d₀ + 1) v' v₀
  · obtain ⟨rfl, hv⟩ := h
    obtain ⟨rfl, hv'⟩ := h'
    exact ⟨rfl, hv.trans hv'.symm⟩
  · rw [hat d v h, Option.some.injEq] at ha
    rw [hother d' v' h', ← ha] at ha'
    exact absurd ha' (hfresh d' v')
  · rw [hat d' v' h', Option.some.injEq] at ha'
    rw [hother d v h, ← ha'] at ha
    exact absurd ha (hfresh d v)
  · rw [hother d v h] at ha
    rw [hother d' v' h'] at ha'
    exact hsep d v d' v' a ha ha'

end OneEntry

/-- A tree with fewer nodes is separated when one with more is. -/
theorem Separated.mono (hsep : R.Separated m root)
    (h : ∀ d v a, R.node m' root d v = some a → R.node m root d v = some a) :
    R.Separated m' root :=
  fun d v d' v' a ha ha' => hsep d v d' v' a (h d v a ha) (h d' v' a ha')

end RadixTree

end MugOS
