import Mathlib.Data.Nat.Bitwise
import Mathlib.Data.BitVec
import Mathlib.Logic.Function.Basic
import Mathlib.Tactic.Common

/-!
# Descriptor Tables

The interrupt gates of `Platform/IDT.c`, and the segment descriptors of `Platform/GDT.c`. Addresses
and limits are spread over the fields of a descriptor; what the processor reads from them is put
together again here.

## Main results

* `segment_reads`, `tss_reads`: what a segment descriptor and that of the task state say.
* `idt_run`: the gates after any calls of the functions of `IDT.c`.
-/

namespace MugOS.Descriptors

/-! ### Parts of a number -/

/-- Shifting a number and masking its low `n` bits is dividing it and taking a remainder. -/
theorem shiftRight_and_mask (x k n : ℕ) : (x >>> k) &&& (2 ^ n - 1) = x / 2 ^ k % 2 ^ n := by
  rw [Nat.and_two_pow_sub_one_eq_mod, Nat.shiftRight_eq_div_pow]

/-- Masking `n` bits of a number in place and then shifting them down gives the same field. -/
theorem and_mask_shiftRight (x k n : ℕ) :
    (x &&& ((2 ^ n - 1) <<< k)) >>> k = x / 2 ^ k % 2 ^ n := by
  rw [Nat.shiftRight_and_distrib, Nat.shiftLeft_shiftRight, shiftRight_and_mask]

/-! ### Segments -/

/-- `struct SegmentDescriptor`: a descriptor with its base and limit split over several
fields. -/
structure SegmentDescriptor where
  limit0to15 : ℕ
  base0to15 : ℕ
  base16to23 : ℕ
  accessByte : ℕ
  limit16to19AndFlags : ℕ
  base24to31 : ℕ
  deriving DecidableEq, Repr

/-- `getSegmentDescriptor(base, limit, access, flags)`. -/
def getSegmentDescriptor (base limit access flags : ℕ) : SegmentDescriptor where
  limit0to15 := limit &&& 0xffff
  base0to15 := base &&& 0xffff
  base16to23 := (base >>> 16) &&& 0xff
  accessByte := access % 256
  limit16to19AndFlags := ((limit >>> 16) &&& 0x0f) ||| ((flags <<< 4) &&& 0xf0)
  base24to31 := (base >>> 24) &&& 0xff

/-- `struct SystemSegmentDescriptor`: a descriptor with 32 more bits of base. -/
structure SystemSegmentDescriptor where
  common : SegmentDescriptor
  base32to63 : ℕ
  deriving DecidableEq, Repr

/-- The descriptor that `GDT_setTSS` writes, for the address of the task state, its size and the
constants `TSS_CPU0_ACCESS` and `TSS_CPU0_FLAGS`. -/
def tssDescriptor (base size : ℕ) : SystemSegmentDescriptor where
  common := getSegmentDescriptor base ((size - 1) % 2 ^ 16) 0x89 0
  base32to63 := (base &&& 0xffffffff00000000) >>> 32

/-- The base that the processor reads: the three parts of it, put together. -/
def SegmentDescriptor.base (d : SegmentDescriptor) : ℕ :=
  d.base0to15 + 2 ^ 16 * d.base16to23 + 2 ^ 24 * d.base24to31

/-- The limit that the processor reads: its low part, and the four bits that share a byte with
the flags. -/
def SegmentDescriptor.limit (d : SegmentDescriptor) : ℕ :=
  d.limit0to15 + 2 ^ 16 * (d.limit16to19AndFlags % 16)

/-- The flags that the processor reads: the upper half of the byte that they share with the
limit. -/
def SegmentDescriptor.flags (d : SegmentDescriptor) : ℕ := d.limit16to19AndFlags / 16

/-- The base of a system segment: that of the descriptor, with 32 more bits above it. -/
def SystemSegmentDescriptor.base (d : SystemSegmentDescriptor) : ℕ :=
  d.common.base + 2 ^ 32 * d.base32to63

/-- The limit and the flags share a byte: its low half has the bits 16 to 19 of the limit, its
high half the flags. -/
theorem limit16to19AndFlags_eq (base limit access flags : ℕ) :
    (getSegmentDescriptor base limit access flags).limit16to19AndFlags =
      limit / 2 ^ 16 % 2 ^ 4 + 16 * (flags % 2 ^ 4) := by
  have hlow : (limit >>> 16) &&& 0x0f = limit / 2 ^ 16 % 2 ^ 4 := shiftRight_and_mask limit 16 4
  have hhigh : (flags <<< 4) &&& 0xf0 = 2 ^ 4 * (flags % 2 ^ 4) := by
    have hmask : (0xf0 : ℕ) = (2 ^ 4 - 1) <<< 4 := rfl
    rw [hmask, ← Nat.shiftLeft_and_distrib, Nat.and_two_pow_sub_one_eq_mod, Nat.shiftLeft_eq,
      Nat.mul_comm]
  have hlt : limit / 2 ^ 16 % 2 ^ 4 < 2 ^ 4 := Nat.mod_lt _ (by decide)
  have hbyte : (getSegmentDescriptor base limit access flags).limit16to19AndFlags =
      ((limit >>> 16) &&& 0x0f) ||| ((flags <<< 4) &&& 0xf0) := rfl
  rw [hbyte, hlow, hhigh, Nat.lor_comm, ← Nat.two_pow_add_eq_or_of_lt hlt]
  omega

/-- The processor reads the low 32 bits of the base from a packed descriptor. -/
theorem base_getSegmentDescriptor (base limit access flags : ℕ) :
    (getSegmentDescriptor base limit access flags).base = base % 2 ^ 32 := by
  have h0 : base &&& 0xffff = base % 2 ^ 16 := Nat.and_two_pow_sub_one_eq_mod base 16
  have h16 : (base >>> 16) &&& 0xff = base / 2 ^ 16 % 2 ^ 8 := shiftRight_and_mask base 16 8
  have h24 : (base >>> 24) &&& 0xff = base / 2 ^ 24 % 2 ^ 8 := shiftRight_and_mask base 24 8
  simp only [SegmentDescriptor.base, getSegmentDescriptor, h0, h16, h24]
  omega

/-- **What a segment descriptor says**: the base, 20 bits of the limit and the flags that it
was made of. -/
theorem segment_reads (base limit access flags : ℕ) :
    (getSegmentDescriptor base limit access flags).base = base % 2 ^ 32 ∧
      (getSegmentDescriptor base limit access flags).limit = limit % 2 ^ 20 ∧
      (getSegmentDescriptor base limit access flags).flags = flags % 16 ∧
      (getSegmentDescriptor base limit access flags).accessByte = access % 256 := by
  have hlimit : (getSegmentDescriptor base limit access flags).limit0to15 = limit % 2 ^ 16 :=
    Nat.and_two_pow_sub_one_eq_mod limit 16
  refine ⟨base_getSegmentDescriptor base limit access flags, ?_, ?_, rfl⟩
  · rw [SegmentDescriptor.limit, hlimit, limit16to19AndFlags_eq]
    omega
  · rw [SegmentDescriptor.flags, limit16to19AndFlags_eq]
    omega

/-- **What the descriptor of the task state says**: all of its address. -/
theorem tss_reads (base size : ℕ) : (tssDescriptor base size).base = base % 2 ^ 64 := by
  have hhigh : (tssDescriptor base size).base32to63 = base / 2 ^ 32 % 2 ^ 32 :=
    and_mask_shiftRight base 32 32
  have hlow : (tssDescriptor base size).common.base = base % 2 ^ 32 :=
    base_getSegmentDescriptor base ((size - 1) % 2 ^ 16) 0x89 0
  rw [SystemSegmentDescriptor.base, hhigh, hlow]
  omega

/-! ### Gates -/

/-- `struct IDTEntry`: a gate of the IDT, with its offset split into three fields. -/
structure IDTEntry where
  offset0to15 : ℕ
  segment0to15 : ℕ
  reserved0 : ℕ
  attributes : BitVec 8
  offset16to31 : ℕ
  offset32to63 : ℕ
  reserved1 : ℕ
  deriving DecidableEq, Repr

/-- `IDT_ATTR_PRESENT`. -/
abbrev idtAttrPresent : BitVec 8 := 0b10000000#8

/-- `m_IDT`. -/
abbrev IDT := UInt8 → IDTEntry

/-- `IDT_isInterruptHandlerEnabled(interrupt)`: whether the gate is marked as present. -/
def isInterruptHandlerEnabled (idt : IDT) (interrupt : UInt8) : Bool :=
  (idt interrupt).attributes &&& idtAttrPresent ≠ 0

/-- `IDT_enableInterruptHandler(interrupt)`: marks the gate as present. -/
def enableInterruptHandler (idt : IDT) (interrupt : UInt8) : IDT :=
  Function.update idt interrupt
    { idt interrupt with attributes := (idt interrupt).attributes ||| idtAttrPresent }

/-- `IDT_disableInterruptHandler(interrupt)`: marks the gate as not present. -/
def disableInterruptHandler (idt : IDT) (interrupt : UInt8) : IDT :=
  Function.update idt interrupt
    { idt interrupt with attributes := (idt interrupt).attributes &&& ~~~idtAttrPresent }

/-- `IDT_setInterruptHandler(interrupt, base, segmentDescriptor, attributes)`. -/
def setInterruptHandler (idt : IDT) (interrupt : UInt8) (base : UInt64)
    (segmentDescriptor : UInt16) (attributes : BitVec 8) : IDT :=
  let offset := base.toNat
  Function.update idt interrupt
    { offset0to15 := offset &&& 0x000000000000ffff
      segment0to15 := segmentDescriptor.toNat
      reserved0 := 0
      attributes := attributes
      offset16to31 := (offset &&& 0x00000000ffff0000) >>> 16
      offset32to63 := (offset &&& 0xffffffff00000000) >>> 32
      reserved1 := 0 }

/-- A gate: where the handler is, its segment, its type and ring, and whether it is present. -/
structure Gate where
  offset : ℕ
  segment : ℕ
  kind : BitVec 7
  present : Bool
  deriving DecidableEq, Repr

/-- The gate that the processor reads from an entry. -/
def IDTEntry.gate (e : IDTEntry) : Gate where
  offset := e.offset0to15 + 2 ^ 16 * e.offset16to31 + 2 ^ 32 * e.offset32to63
  segment := e.segment0to15
  kind := e.attributes.setWidth 7
  present := e.attributes.getLsbD 7

/-- A call of one of the functions that change the table. -/
inductive Call
  | set (interrupt : UInt8) (base : UInt64) (segmentDescriptor : UInt16) (attributes : BitVec 8)
  | enable (interrupt : UInt8)
  | disable (interrupt : UInt8)

/-- One call of the interface on the table: a gate is set, enabled or disabled. -/
def exec (idt : IDT) : Call → IDT
  | .set interrupt base segmentDescriptor attributes =>
      setInterruptHandler idt interrupt base segmentDescriptor attributes
  | .enable interrupt => enableInterruptHandler idt interrupt
  | .disable interrupt => disableInterruptHandler idt interrupt

/-- What a call does to the gates as the processor sees them, which is to change one of
them. -/
def Call.change (gates : UInt8 → Gate) : Call → UInt8 → Gate
  | .set interrupt base segmentDescriptor attributes =>
      Function.update gates interrupt
        ⟨base.toNat, segmentDescriptor.toNat, attributes.setWidth 7, attributes.getLsbD 7⟩
  | .enable interrupt =>
      Function.update gates interrupt { gates interrupt with present := true }
  | .disable interrupt =>
      Function.update gates interrupt { gates interrupt with present := false }

/-- Setting the bit that says whether a gate is present sets this bit and leaves the other
seven as they are. -/
theorem attributes_enable : ∀ a : BitVec 8,
    (a ||| idtAttrPresent).setWidth 7 = a.setWidth 7 ∧
      (a ||| idtAttrPresent).getLsbD 7 = true := by
  decide

/-- Clearing the bit that says whether a gate is present clears this bit and leaves the other
seven as they are. -/
theorem attributes_disable : ∀ a : BitVec 8,
    (a &&& ~~~idtAttrPresent).setWidth 7 = a.setWidth 7 ∧
      (a &&& ~~~idtAttrPresent).getLsbD 7 = false := by
  decide

/-- Testing the bit that says whether a gate is present reads this bit. -/
theorem attributes_present : ∀ a : BitVec 8,
    decide (a &&& idtAttrPresent ≠ 0) = a.getLsbD 7 := by
  decide

/-- The three parts of a 64-bit address that an entry holds make up the address. -/
theorem offset_reads {offset : ℕ} (h : offset < 2 ^ 64) :
    (offset &&& 0x000000000000ffff) + 2 ^ 16 * ((offset &&& 0x00000000ffff0000) >>> 16) +
      2 ^ 32 * ((offset &&& 0xffffffff00000000) >>> 32) = offset := by
  have h0 : offset &&& 0x000000000000ffff = offset % 2 ^ 16 :=
    Nat.and_two_pow_sub_one_eq_mod offset 16
  have h16 : (offset &&& 0x00000000ffff0000) >>> 16 = offset / 2 ^ 16 % 2 ^ 16 :=
    and_mask_shiftRight offset 16 16
  have h32 : (offset &&& 0xffffffff00000000) >>> 32 = offset / 2 ^ 32 % 2 ^ 32 :=
    and_mask_shiftRight offset 32 32
  rw [h0, h16, h32]
  omega

/-- In a table in which one entry changed, one gate changed, and it is that of the new
entry. -/
theorem gate_update (idt : IDT) (interrupt : UInt8) (e : IDTEntry) :
    (fun v => (Function.update idt interrupt e v).gate) =
      Function.update (fun v => (idt v).gate) interrupt e.gate := by
  funext v
  simp only [Function.update_apply]
  split <;> rfl

/-- **One call**: the gates that the processor reads change as they should. -/
theorem exec_gates (idt : IDT) (c : Call) :
    (fun v => (exec idt c v).gate) = c.change fun v => (idt v).gate := by
  cases c with
  | set interrupt base segmentDescriptor attributes =>
      rw [exec, setInterruptHandler, gate_update, Call.change]
      congr 1
      rw [IDTEntry.gate, offset_reads base.toNat_lt]
  | enable interrupt =>
      obtain ⟨hkind, hpresent⟩ := attributes_enable (idt interrupt).attributes
      rw [exec, enableInterruptHandler, gate_update, Call.change]
      congr 1
      rw [IDTEntry.gate, hkind, hpresent]
      rfl
  | disable interrupt =>
      obtain ⟨hkind, hpresent⟩ := attributes_disable (idt interrupt).attributes
      rw [exec, disableInterruptHandler, gate_update, Call.change]
      congr 1
      rw [IDTEntry.gate, hkind, hpresent]
      rfl

/-- **The gates after any calls** are those that the calls name, whatever was in the table; and
`IDT_isInterruptHandlerEnabled` tells which of them are present. -/
theorem idt_run (idt : IDT) (cs : List Call) :
    (fun v => (cs.foldl exec idt v).gate) = cs.foldl Call.change (fun v => (idt v).gate) ∧
      ∀ v, isInterruptHandlerEnabled (cs.foldl exec idt) v =
        (cs.foldl Call.change (fun v => (idt v).gate) v).present := by
  have hgates : (fun v => (cs.foldl exec idt v).gate) =
      cs.foldl Call.change fun v => (idt v).gate := by
    induction cs generalizing idt with
    | nil => rfl
    | cons c rest ih => rw [List.foldl_cons, List.foldl_cons, ih, exec_gates]
  refine ⟨hgates, fun v => ?_⟩
  rw [← hgates]
  exact attributes_present _

end MugOS.Descriptors
