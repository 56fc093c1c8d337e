import Mathlib.Tactic

/-!
# Machine Words, Pages and Addresses

The vocabulary of `Kernel/Memory/Memory.h`. Addresses, sizes and counters are 64-bit
unsigned integers in the source; here they are natural numbers, and every operation of
the source whose result can leave the 64-bit range is written with `wadd` or `wsub`,
which wrap modulo `2 ^ 64` as the C operators do.
-/

namespace MugOS

/-- `SIZE_4KB`, also `PAGE_SIZE`. -/
abbrev pageSize : ℕ := 4096

/-- `SIZE_2MB`. -/
abbrev size2MB : ℕ := 0x200000

/-- `SIZE_1GB`. -/
abbrev size1GB : ℕ := 0x40000000

/-- Unsigned 64-bit addition: the sum modulo `2 ^ 64`. -/
def wadd (a b : ℕ) : ℕ := (a + b) % 2 ^ 64

/-- Unsigned 64-bit subtraction: the difference modulo `2 ^ 64`. -/
def wsub (a b : ℕ) : ℕ := (a + (2 ^ 64 - b % 2 ^ 64)) % 2 ^ 64

/-- `getPage(addr)`: the address of the page that holds `addr`. -/
def getPage (addr : ℕ) : ℕ := addr / pageSize * pageSize

/-- `getOffset(addr)`: the offset of `addr` in its page. -/
def getOffset (addr : ℕ) : ℕ := addr % pageSize

/-- `roundToPage(size)`: the number of pages that `size` bytes need. -/
def roundToPage (size : ℕ) : ℕ := (size + pageSize - 1) / pageSize

/-- The addresses of the `n` pages from `addr` on. -/
def pages (addr n : ℕ) : List ℕ := (List.range n).map fun k => addr + k * pageSize

/-- The ways in which a call of the modelled code does not return. -/
inductive Fault
  /-- `panic()` or `abort()` -/
  | panic
  /-- a failed `assert` -/
  | assertion
  /-- a loop that never ends -/
  | diverges
  /-- an access outside the object it is meant for -/
  | wild
  deriving DecidableEq, Repr

/-- A sequence of two calls returns a value if the first one returns and the second one returns
this value. -/
theorem bind_eq_ok {α β : Type} {x : Except Fault α} {f : α → Except Fault β} {r : β} :
    (x >>= f) = .ok r ↔ ∃ a, x = .ok a ∧ f a = .ok r := by
  cases x with
  | error e => simp [bind, Except.bind]
  | ok a => simp [bind, Except.bind]

/-- An addition whose result stays below `2 ^ 64` does not wrap. -/
theorem wadd_of_lt {a b : ℕ} (h : a + b < 2 ^ 64) : wadd a b = a + b := by
  rw [wadd, Nat.mod_eq_of_lt h]

/-- The subtraction of a number that is not larger does not wrap. -/
theorem wsub_of_le {a b : ℕ} (ha : a < 2 ^ 64) (h : b ≤ a) : wsub a b = a - b := by
  unfold wsub
  omega

/-- The pages of a range are those at whole numbers of pages from its address, up to its number
of pages. -/
theorem mem_pages {addr n q : ℕ} : q ∈ pages addr n ↔ ∃ k < n, q = addr + k * pageSize := by
  simp only [pages, List.mem_map, List.mem_range]
  constructor
  · rintro ⟨k, hk, rfl⟩
    exact ⟨k, hk, rfl⟩
  · rintro ⟨k, hk, rfl⟩
    exact ⟨k, hk, rfl⟩

/-- The pages of a range are all distinct. -/
theorem nodup_pages (addr n : ℕ) : (pages addr n).Nodup := by
  apply List.Nodup.map _ List.nodup_range
  intro i j hij
  simp only [pageSize] at hij
  omega

end MugOS
