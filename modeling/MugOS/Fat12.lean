import MugOS.Lib.Packed
import Mathlib.Data.List.GetD

/-!
# The FAT12 Format

What the two readers of the repository read, the second stage of the boot loader and the tool on
the host: a table with 12 bits for each cluster, which chains the clusters of a file; directories,
as entries of 32 bytes; and names of 11 bytes, a base and an extension padded with spaces.

Nothing here is taken from the code: `Chain` and `chainBytes` say what a file is, and `paddedName`
what the name of an entry is.

## Main results

* `chainByte_eq`: a byte of a file, by its offset.
* `nextEntry_packed`: the entry of the table that both readers compute.
-/

namespace MugOS.Fat12

/-! ### Chains of clusters -/

/-- The clusters of a file in order, each chained to the next one by its entry of the table, and
the last one to a mark for the end. -/
inductive Chain (fat : ℕ → UInt8) : List ℕ → Prop
  | last {c v : ℕ} : 2 ≤ c → c < 0xff7 → Packed 12 fat c v → 0xff8 ≤ v → Chain fat [c]
  | cons {c c' : ℕ} {cs : List ℕ} : 2 ≤ c → c < 0xff7 → Packed 12 fat c c' →
      Chain fat (c' :: cs) → Chain fat (c :: c' :: cs)

/-- A chain of a FAT has at least one cluster. -/
theorem Chain.pos {fat : ℕ → UInt8} {cs : List ℕ} (h : Chain fat cs) : 0 < cs.length := by
  cases h <;> simp

/-- The clusters of a chain are those of the data region. -/
theorem Chain.range {fat : ℕ → UInt8} {cs : List ℕ} (h : Chain fat cs) {i : ℕ}
    (hi : i < cs.length) : 2 ≤ cs.getD i 0 ∧ cs.getD i 0 < 0xff7 := by
  induction h generalizing i with
  | last h2 hlt _ _ =>
      obtain rfl : i = 0 := by simpa using hi
      exact ⟨h2, hlt⟩
  | cons h2 hlt _ _ ih =>
      cases i with
      | zero => exact ⟨h2, hlt⟩
      | succ i => simpa using ih (i := i) (by simpa using hi)

/-- The first cluster of a chain is one of the data region. -/
theorem Chain.head {fat : ℕ → UInt8} {cs : List ℕ} (h : Chain fat cs) {c : ℕ}
    (hc : cs.head? = some c) : cs.getD 0 0 = c ∧ 2 ≤ c ∧ c < 0xff7 := by
  have hfirst : cs.getD 0 0 = c := by
    cases cs with
    | nil => simp at hc
    | cons c' cs => simpa using hc
  exact ⟨hfirst, hfirst ▸ h.range h.pos⟩

/-- The entry of a cluster that is not the last is the next cluster. -/
theorem Chain.next {fat : ℕ → UInt8} {cs : List ℕ} (h : Chain fat cs) {i : ℕ}
    (hi : i + 1 < cs.length) : Packed 12 fat (cs.getD i 0) (cs.getD (i + 1) 0) := by
  induction h generalizing i with
  | last => simp at hi
  | cons _ _ hnext _ ih =>
      cases i with
      | zero => simpa using hnext
      | succ i => simpa using ih (i := i) (by simpa using hi)

/-- The entry of the last cluster of a chain is a value from `0xff8` on, which marks the
end. -/
theorem Chain.ending {fat : ℕ → UInt8} {cs : List ℕ} (h : Chain fat cs) :
    ∃ v, Packed 12 fat (cs.getD (cs.length - 1) 0) v ∧ 0xff8 ≤ v := by
  induction h with
  | last _ _ hv hend => exact ⟨_, by simpa using hv, hend⟩
  | cons _ _ _ _ ih => simpa using ih

/-- The part of a chain from one of its clusters on is a chain. -/
theorem Chain.suffix {fat : ℕ → UInt8} {before : List ℕ} {c : ℕ} {cs : List ℕ}
    (h : Chain fat (before ++ c :: cs)) : Chain fat (c :: cs) := by
  induction before with
  | nil => exact h
  | cons b before ih =>
      refine ih ?_
      cases before with
      | nil => cases h with
        | cons _ _ _ htail => exact htail
      | cons b' before => cases h with
        | cons _ _ _ htail => exact htail

/-- The first cluster determines the chain: two chains that begin with it are the same. -/
theorem Chain.unique {fat : ℕ → UInt8} {c : ℕ} {cs ds : List ℕ} (h : Chain fat (c :: cs))
    (h' : Chain fat (c :: ds)) : cs = ds := by
  induction cs generalizing c ds with
  | nil =>
      cases h with
      | last _ _ hv hend =>
          cases h' with
          | last => rfl
          | cons _ _ hnext htail =>
              have hrange := (htail.range (i := 0) htail.pos).2
              rw [List.getD_cons_zero] at hrange
              rw [hv.unique hnext] at hend
              omega
  | cons c' cs ih =>
      cases h with
      | cons _ _ hnext htail =>
          cases h' with
          | last _ _ hv hend =>
              have hrange := (htail.range (i := 0) htail.pos).2
              rw [List.getD_cons_zero] at hrange
              rw [hv.unique hnext] at hend
              omega
          | cons _ _ hnext' htail' =>
              obtain rfl := hnext.unique hnext'
              rw [ih htail htail']

/-- A chain does not come back to a cluster: its clusters are pairwise different. -/
theorem Chain.nodup {fat : ℕ → UInt8} {cs : List ℕ} (h : Chain fat cs) : cs.Nodup := by
  induction h with
  | last => exact List.nodup_singleton _
  | cons h2 hlt hnext htail ih =>
      refine List.nodup_cons.mpr ⟨?_, ih⟩
      intro hmem
      obtain ⟨before, after, hsplit⟩ := List.append_of_mem hmem
      have hshort := (Chain.cons h2 hlt hnext htail).unique (hsplit ▸ htail).suffix
      have hlen := congrArg List.length hsplit
      have hlen' := congrArg List.length hshort
      simp only [List.length_append, List.length_cons] at hlen hlen'
      omega

/-- A chain has fewer clusters than there are entries of 12 bits. -/
theorem Chain.length_le {fat : ℕ → UInt8} {cs : List ℕ} (h : Chain fat cs) :
    cs.length ≤ 0xff7 := by
  have hsub : cs ⊆ List.range 0xff7 := by
    intro c hc
    obtain ⟨i, hi, rfl⟩ := List.mem_iff_getElem.mp hc
    have hrange := (h.range hi).2
    rw [List.getD_eq_getElem _ _ hi] at hrange
    exact List.mem_range.mpr hrange
  simpa using (h.nodup.subperm hsub).length_le

/-- **The entry of a cluster**, from the 16-bit number at its first byte: the arithmetic that both
readers do. -/
theorem nextEntry_packed (fat : ℕ → UInt8) (c : ℕ) :
    Packed 12 fat c
      (if c % 2 = 0 then word16 fat (c + c / 2) &&& 0x0fff else word16 fat (c + c / 2) >>> 4) := by
  split
  · rename_i heven
    have hmask : word16 fat (c + c / 2) &&& 0x0fff = word16 fat (c + c / 2) % 2 ^ 12 :=
      Nat.and_two_pow_sub_one_eq_mod _ 12
    rw [hmask]
    exact packed_even fat heven
  · rw [Nat.shiftRight_eq_div_pow]
    exact packed_odd fat (by omega)

/-! ### The bytes of a chain -/

/-- The bytes of the clusters of a chain, one cluster after the other; `cluster c` is the content
of a cluster, of which the first `size` bytes are its own. -/
def chainBytes (size : ℕ) (cluster : ℕ → ℕ → UInt8) (cs : List ℕ) : List UInt8 :=
  cs.flatMap fun c => (List.range size).map (cluster c)

/-- The byte at an offset of a chain of clusters: it is in the cluster of its quotient by their
size. -/
def chainByte (size : ℕ) (cluster : ℕ → ℕ → UInt8) (cs : List ℕ) (o : ℕ) : UInt8 :=
  cluster (cs.getD (o / size) 0) (o % size)

/-- The bytes of a chain, cluster after cluster, are those at the offsets from 0 to its
size. -/
theorem chainBytes_eq {size : ℕ} (hsize : 0 < size) (cluster : ℕ → ℕ → UInt8) (cs : List ℕ) :
    chainBytes size cluster cs =
      (List.range (cs.length * size)).map (chainByte size cluster cs) := by
  induction cs with
  | nil => simp [chainBytes]
  | cons c cs ih =>
      have htail : chainBytes size cluster (c :: cs) =
          (List.range size).map (cluster c) ++ chainBytes size cluster cs := by
        simp [chainBytes]
      rw [htail, ih, List.length_cons, Nat.succ_mul, Nat.add_comm, List.range_add,
        List.map_append, List.map_map]
      congr 1
      · refine List.map_congr_left fun o ho => ?_
        rw [List.mem_range] at ho
        simp [chainByte, Nat.div_eq_of_lt ho, Nat.mod_eq_of_lt ho]
      · refine List.map_congr_left fun o _ => ?_
        simp [chainByte, Nat.add_div_left _ hsize]

/-! ### Names -/

/-- `toupper`, of a character of 8 bits: small letters become capital ones. -/
def upper (c : UInt8) : UInt8 := if 97 ≤ c ∧ c ≤ 122 then c - 32 else c

/-- A part of a name, in upper case and padded with spaces to `n` characters. -/
def pad (n : ℕ) (part : List UInt8) : List UInt8 :=
  part.map upper ++ List.replicate (n - part.length) 32

/-- A component of a path: a base and an extension, which may be empty. -/
structure Component where
  base : List UInt8
  ext : List UInt8
  deriving DecidableEq

/-- A character of a component: not `'/'`, not `'.'` and not the end of the string. -/
def Plain (c : UInt8) : Prop := c ≠ 47 ∧ c ≠ 46 ∧ c ≠ 0

/-- A component in the 8.3 form: one to eight characters, and an extension of at most three. -/
structure Component.Valid (c : Component) : Prop where
  base_pos : 0 < c.base.length
  base_le : c.base.length ≤ 8
  ext_le : c.ext.length ≤ 3
  plain : ∀ x ∈ c.base ++ c.ext, Plain x

/-- A component as it is written: the extension, if there is one, after a dot. -/
def Component.text (c : Component) : List UInt8 :=
  if c.ext = [] then c.base else c.base ++ 46 :: c.ext

/-- The name of 11 characters that a directory has for a component. -/
def Component.padded (c : Component) : List UInt8 := pad 8 c.base ++ pad 3 c.ext

end MugOS.Fat12
