import MugOS.Memory

/-!
# The Page Source of the Allocators

The slab allocator, the heap and their hash map obtain memory by whole pages, through the
`allocatePages` and `freePages` that `SlabAllocator.c` and `Heap.c` share. Here the pages
come from an arbitrary *page source*: a function that, at each call, is told the pages
that are in use and answers with an address, or with `NULL`. A theorem about every page
source that answers with unused pages holds for whatever the memory manager does.
-/

namespace MugOS

/-- A page source: the answer to a request, given the number of requests before it, the
pages in use, the number of pages wanted and whether they are to be cleared. -/
abbrev PageSource := ℕ → List ℕ → ℕ → Bool → ℕ

/-- The pages in use, by address, the number of requests made so far, and how many requests
for cleared pages, those of the hash map, were answered with `NULL`. -/
structure Pages where
  owned : List ℕ
  requests : ℕ
  refused : ℕ
  deriving DecidableEq, Repr

/-- Nothing in use, nothing asked for. -/
def Pages.none : Pages := ⟨[], 0, 0⟩

/-- `allocatePages(n, clear)`: the address of the first page, `0` for `NULL`. -/
def Pages.allocatePages (src : PageSource) (p : Pages) (n : ℕ) (clear : Bool) : ℕ × Pages :=
  if n = 0 then (0, p)
  else
    let addr := src p.requests p.owned n clear
    if addr = 0 then
      (0, ⟨p.owned, p.requests + 1, if clear then p.refused + 1 else p.refused⟩)
    else (addr, ⟨p.owned ++ pages addr n, p.requests + 1, p.refused⟩)

/-- `freePages(pages, n)`: the pages are in use no more. -/
def Pages.freePages (p : Pages) (addr n : ℕ) : Pages :=
  { p with owned := p.owned.filter (· ∉ pages addr n) }

/-- A range of pages of the address space, none of them in use. -/
structure Fresh (owned : List ℕ) (addr n : ℕ) : Prop where
  ne_zero : addr ≠ 0
  aligned : addr % pageSize = 0
  fits : addr + n * pageSize ≤ 2 ^ 64
  unused : ∀ q ∈ pages addr n, q ∉ owned

instance (owned : List ℕ) (addr n : ℕ) : Decidable (Fresh owned addr n) :=
  decidable_of_iff
    (addr ≠ 0 ∧ addr % pageSize = 0 ∧ addr + n * pageSize ≤ 2 ^ 64 ∧
      ∀ q ∈ pages addr n, q ∉ owned)
    ⟨fun h => ⟨h.1, h.2.1, h.2.2.1, h.2.2.2⟩,
      fun h => ⟨h.ne_zero, h.aligned, h.fits, h.unused⟩⟩

/-- A page source that answers with unused pages, or with `NULL`. -/
def PageSource.Sound (src : PageSource) : Prop :=
  ∀ t owned n clear, src t owned n clear = 0 ∨ Fresh owned (src t owned n clear) n

/-- A source that proposes addresses, restricted to the proposals that are unused pages. -/
def PageSource.checked (src : PageSource) : PageSource := fun t owned n clear =>
  if Fresh owned (src t owned n clear) n then src t owned n clear else 0

/-- A source that checks its answers against the pages in use is sound. -/
theorem PageSource.checked_sound (src : PageSource) : src.checked.Sound := by
  intro t owned n clear
  unfold PageSource.checked
  split
  · exact .inr (by assumption)
  · exact .inl rfl

/-- A request for pages is refused, with `NULL` and the same pages in use, or granted with
fresh ones. -/
theorem Pages.allocatePages_cases {src : PageSource} (hsrc : src.Sound) (p : Pages) (n : ℕ)
    (clear : Bool) :
    (∃ t r, p.allocatePages src n clear = (0, ⟨p.owned, t, r⟩) ∧ p.refused ≤ r ∧
      (0 < n → clear = true → p.refused < r)) ∨
    ∃ addr t, Fresh p.owned addr n ∧ 0 < n ∧
      p.allocatePages src n clear = (addr, ⟨p.owned ++ pages addr n, t, p.refused⟩) := by
  unfold Pages.allocatePages
  by_cases hn : n = 0
  · rw [if_pos hn]
    exact .inl ⟨p.requests, p.refused, rfl, le_refl _, fun hpos => absurd hn (by omega)⟩
  · rw [if_neg hn]
    rcases hsrc p.requests p.owned n clear with h | h
    · simp only [h, if_true]
      refine .inl ⟨_, _, rfl, ?_, ?_⟩
      · split <;> omega
      · rintro - rfl
        simp
    · simp only [if_neg h.ne_zero]
      exact .inr ⟨_, _, h, by omega, rfl⟩

end MugOS
