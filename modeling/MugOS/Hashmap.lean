import MugOS.PageSource
import MugOS.Lib.Probe

/-!
# The Allocation Hash Map

The open-addressing hash map that `Stdlib/mugOS/SlabAllocator.c` and `Stdlib/Heap.c` both
contain, function by function; the two copies differ only in the type of the values, which
is a parameter here. A `NULL` key marks an empty slot, the capacity is a power of two, and
collisions are resolved by walking down the array.

A loop of the source that walks the array gets as many steps as the array has slots; a
walk that would need more never ends, which is the outcome `Fault.diverges`.
-/

namespace MugOS

open Probe

variable {V : Type}

/-- `struct HashmapEntry`; the key `0` is `NULL`. -/
structure Entry (V : Type) where
  key : ℕ
  value : V
  deriving DecidableEq, Repr

/-- `struct Hashmap`: the address of the array of entries, the array, and the counters. -/
structure Hashmap (V : Type) where
  base : ℕ
  entries : List (Entry V)
  totalEntries : ℕ
  freeEntries : ℕ
  deriving DecidableEq, Repr

namespace Hashmap

/-- `sizeof(entry_t)`. -/
abbrev entrySize : ℕ := 16

/-- `HASHMAP_DEFAULT_SIZE`. -/
abbrev defaultSize : ℕ := pageSize / entrySize

/-- `HASHMAP_MAX_SIZE`, with `SIZE_MAX` being `2 ^ 64 - 1`. -/
abbrev maxSize : ℕ := (2 ^ 64 - 1) / (2 * entrySize)

/-- The map before anything is inserted. -/
def empty : Hashmap V := ⟨0, [], 0, 0⟩

/-- `hashmapTooFull(map)`: whether fewer than a quarter of the entries are free. -/
def tooFull (map : Hashmap V) : Bool := map.freeEntries * 4 < map.totalEntries

/-- `hash(key)`: the sum over the number of the page and its shifts, in 64-bit arithmetic. -/
def hash (key : ℕ) : ℕ :=
  let ptr := key >>> 12
  let sum := ptr
  let sum := wadd (wsub (sum <<< 7) sum) (ptr >>> 16)
  let sum := wadd (wsub (sum <<< 7) sum) (ptr >>> 32)
  wadd (wsub (sum <<< 7) sum) (ptr >>> 48)

variable [Inhabited V]

/-- An entry of cleared memory. -/
def emptyEntry : Entry V := ⟨0, default⟩

/-- `entries[i]`: the entry in a slot of the table, or an empty one outside of it. -/
def entryAt (entries : List (Entry V)) (i : ℕ) : Entry V := entries.getD i emptyEntry

/-- `entries[i].key`: the key in a slot of the table, zero for an empty slot. -/
def keyAt (entries : List (Entry V)) (i : ℕ) : ℕ := (entryAt entries i).key

/-- `(i - 1) & mask`: the slot below a slot, in which the next probe looks. -/
def nextIndex (mask i : ℕ) : ℕ := wsub i 1 &&& mask

/-- The loop `while (entries[i].key != NULL) i = (i-1) & mask` from the hash of a key. -/
def findFree (entries : List (Entry V)) (mask key : ℕ) : Option ℕ :=
  searchFrom (nextIndex mask) (fun i => keyAt entries i == 0) entries.length
    (hash key &&& mask)

/-- The copy loop of `Hashmap_grow`, over the entries of the old array. -/
def rehash (mask : ℕ) : List (Entry V) → List (Entry V) → Option (List (Entry V))
  | [], newValues => some newValues
  | e :: rest, newValues =>
      if e.key = 0 then rehash mask rest newValues
      else
        match findFree newValues mask e.key with
        | none => none
        | some j => rehash mask rest (newValues.set j e)

/-- `Hashmap_grow(map)`: doubles the table, enters all keys again and gives a page of the old
table back. -/
def grow (src : PageSource) (map : Hashmap V) (ps : Pages) :
    Except Fault (Bool × Hashmap V × Pages) :=
  if map.totalEntries > maxSize then .ok (false, map, ps)
  else
    let newTotal := if map.totalEntries = 0 then defaultSize else 2 * map.totalEntries
    let nPages := roundToPage (newTotal * entrySize)
    let mask := newTotal - 1
    let (newValues, ps) := ps.allocatePages src nPages true
    if newValues = 0 then .ok (false, map, ps)
    else
      match rehash mask map.entries (List.replicate newTotal emptyEntry) with
      | none => .error .diverges
      | some entries =>
          let ps :=
            if map.totalEntries > 0 then
              let oldSize := roundToPage (map.totalEntries * entrySize)
              ps.freePages map.base (roundToPage oldSize)
            else ps
          .ok (true,
            { base := newValues
              entries := entries
              totalEntries := newTotal
              freeEntries := map.freeEntries + (newTotal - map.totalEntries) }, ps)

/-- The growth check at the start of `Hashmap_insert`. -/
def growIfNeeded (src : PageSource) (map : Hashmap V) (ps : Pages) :
    Except Fault (Bool × Hashmap V × Pages) :=
  if map.tooFull || map.totalEntries == 0 then grow src map ps else .ok (true, map, ps)

/-- `Hashmap_insert(map, ptr, value)`: grows the table if it has to, and enters the pair in the
first free slot. -/
def insert (src : PageSource) (map : Hashmap V) (ps : Pages) (ptr : ℕ) (value : V) :
    Except Fault (Bool × Hashmap V × Pages) :=
  if ptr = 0 then .ok (false, map, ps)
  else
    match growIfNeeded src map ps with
    | .error f => .error f
    | .ok (false, map, ps) => .ok (false, map, ps)
    | .ok (true, map, ps) =>
        let mask := map.totalEntries - 1
        let ptr := getPage ptr
        match findFree map.entries mask ptr with
        | none => .error .diverges
        | some i =>
            .ok (true,
              { map with
                entries := map.entries.set i ⟨ptr, value⟩
                freeEntries := map.freeEntries - 1 }, ps)

/-- `Hashmap_find(map, ptr)`: the index of the entry, `none` for `NULL`. -/
def find (map : Hashmap V) (ptr : ℕ) : Except Fault (Option ℕ) :=
  if map.base = 0 then .ok none
  else
    let mask := map.totalEntries - 1
    let ptr := getPage ptr
    let stop := fun i => keyAt map.entries i == 0 || keyAt map.entries i == ptr
    match searchFrom (nextIndex mask) stop map.entries.length (hash ptr &&& mask) with
    | none => .error .diverges
    | some i => if keyAt map.entries i = 0 then .ok none else .ok (some i)

/-- The three tests of `Hashmap_delete` under which an entry stays where it is. -/
def staysPut (cur target prev : ℕ) : Bool :=
  (cur ≤ target && target < prev) || (target < prev && prev < cur) ||
    (prev < cur && cur ≤ target)

/-- The loop of `Hashmap_delete`, which looks for an entry to be moved into the slot that was
cleared. -/
def deleteLoop (mask : ℕ) : ℕ → List (Entry V) → ℕ → ℕ → Option (List (Entry V))
  | 0, _, _, _ => none
  | fuel + 1, entries, cur, prev =>
      let cur := nextIndex mask cur
      let target := hash (keyAt entries cur) &&& mask
      if staysPut cur target prev then
        if keyAt entries cur ≠ 0 then deleteLoop mask fuel entries cur prev
        else some entries
      else
        let entries := entries.set prev (entryAt entries cur)
        let entries := entries.set cur emptyEntry
        if keyAt entries cur ≠ 0 then deleteLoop mask fuel entries cur cur
        else some entries

/-- `Hashmap_delete(map, entry)`, the entry being given by its index. -/
def delete (map : Hashmap V) (entry : Option ℕ) : Except Fault (Hashmap V) :=
  if map.totalEntries &&& (map.totalEntries - 1) ≠ 0 then .error .assertion
  else
    match entry with
    | none => .ok map
    | some cur =>
        if map.totalEntries = 0 then .ok map
        else
          let mask := map.totalEntries - 1
          if cur ≥ map.totalEntries then .error .assertion
          else
            let entries := map.entries.set cur emptyEntry
            match deleteLoop mask map.entries.length entries cur cur with
            | none => .error .diverges
            | some entries =>
                .ok { map with entries := entries, freeEntries := map.freeEntries + 1 }

end Hashmap

end MugOS
