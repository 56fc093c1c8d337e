import MugOS.Memory

/-!
# The Vectors of the I/O APICs

`Kernel/Arch/x86_64/Drivers/IrqChip/IOAPIC.c`: every pin of an I/O APIC has a redirection register
with the vector of its interrupt. Pins that the firmware names in an interrupt source override get
the vector of the overridden ISA IRQ, all others that of their number. The pin that has the number
of an overridden IRQ is among the others, and so is the pin whose vector is that of the timer of
the local APIC.

A redirection register is a record of its bit fields. Mapping the registers into memory, and the
messages, are left out.

## Main results

* `initIOAPIC_reg`: what a pin is set to.
* `vectors_unambiguous_iff`: no two pins have one vector, and none has a vector of the local APIC,
  exactly when the pins with the numbers of overridden IRQs, and pin 16, are overridden themselves.
* `vectors_collide`: an I/O APIC of 24 pins with the override of the timer.
-/

namespace MugOS.IOAPIC

/-! ### Data -/

/-- `ISA_IRQ_OFFSET`. -/
abbrev isaIrqOffset : ℕ := 0x20

/-- `IRQ_APIC_TIMER`. -/
abbrev irqApicTimer : ℕ := 0x30

/-- `IRQ_APIC_SPURIOUS`. -/
abbrev irqApicSpurious : ℕ := 0xff

/-- `union RedirectionReg`: the register of a pin, by its fields. -/
structure RedirectionReg where
  vector : ℕ
  deliveryMode : ℕ
  destinationMode : Bool
  status : Bool
  pinPolarity : Bool
  remoteIRR : Bool
  triggerMode : Bool
  masked : Bool
  destination : ℕ
  deriving DecidableEq, Repr

/-- The register whose bits are all clear. -/
def RedirectionReg.zero : RedirectionReg := ⟨0, 0, false, false, false, false, false, false, 0⟩

/-- `struct MADTEntry_IOAPIC_ISO`: an interrupt source override. -/
structure Override where
  busSource : ℕ
  irqSource : ℕ
  gsi : ℕ
  pinPolarity : Bool
  triggerMode : Bool
  deriving DecidableEq, Repr

/-- What there is to know of an I/O APIC beforehand: the entry of the MADT, and the field
`maxRedirectionEntry` of its version register. -/
structure Device where
  id : ℕ
  gsiBase : ℕ
  maxRedirectionEntry : ℕ
  deriving DecidableEq, Repr

/-- `struct IOAPIC`, with the redirection registers of the device by their register numbers. -/
structure Chip where
  id : ℕ
  gsiBase : ℕ
  pins : ℕ
  registers : ℕ → RedirectionReg

/-- `IOAPIC_REG_REDIR_TABLE(n)`, as the `uint8_t` number of a register. -/
def redirTable (n : ℕ) : ℕ := (0x10 + 2 * n) % 2 ^ 8

/-- `readRegister64(ioapic, IOAPIC_REG_REDIR_TABLE(n))`. -/
def Chip.redirection (chip : Chip) (n : ℕ) : RedirectionReg := chip.registers (redirTable n)

/-- `writeRegister64(ioapic, IOAPIC_REG_REDIR_TABLE(n), value)`. -/
def Chip.setRedirection (chip : Chip) (n : ℕ) (value : RedirectionReg) : Chip :=
  { chip with registers := Function.update chip.registers (redirTable n) value }

/-! ### Initialisation -/

/-- What an override sets a pin to, `cpuId` being that of the bootstrap CPU. -/
def overrideReg (cpuId : ℕ) (override : Override) : RedirectionReg where
  vector := (isaIrqOffset + override.irqSource) % 2 ^ 8
  deliveryMode := 0
  destinationMode := false
  status := false
  pinPolarity := override.pinPolarity
  remoteIRR := false
  triggerMode := override.triggerMode
  masked := true
  destination := cpuId % 2 ^ 8

/-- One pass of the loop over the overrides: the pin of its number gets the vector of its
IRQ. -/
def applyOverride (cpuId : ℕ) (chip : Chip) (override : Override) : Chip :=
  if override.gsi < chip.gsiBase ∨ override.gsi ≥ (chip.gsiBase + chip.pins) % 2 ^ 32 then chip
  else if override.busSource ≠ 0 then chip
  else chip.setRedirection (override.gsi - chip.gsiBase) (overrideReg cpuId override)

/-- One pass of the loop that identity-maps the pins that are left. -/
def identityMap (cpuId : ℕ) (chip : Chip) (i : ℕ) : Chip :=
  if (chip.redirection i).masked then chip
  else chip.setRedirection i
    { chip.redirection i with
      vector := (isaIrqOffset + (chip.gsiBase + i)) % 2 ^ 8
      deliveryMode := 0
      destinationMode := false
      pinPolarity := false
      triggerMode := false
      masked := true
      destination := cpuId % 2 ^ 8 }

/-- One pass of the loop that marks the pins as not initialized. -/
def clearPin (chip : Chip) (i : ℕ) : Chip := chip.setRedirection i .zero

/-- `initIOAPIC(ioapic)`, with what the registers held before. -/
def initIOAPIC (cpuId : ℕ) (overrides : List Override) (device : Device)
    (registers : ℕ → RedirectionReg) : Chip :=
  let pins := device.maxRedirectionEntry + 1
  let chip : Chip := ⟨device.id, device.gsiBase, pins, registers⟩
  let chip := (List.range pins).foldl clearPin chip
  let chip := overrides.foldl (applyOverride cpuId) chip
  (List.range pins).foldl (identityMap cpuId) chip

/-- `IOAPIC_init()`: `present` is `g_MADTPresent`, `allocated` is whether `kmalloc` returned memory
for the array. The result is `m_IOAPICs`, which stays empty if the initialization is given up. -/
def iOAPICInit (present allocated : Bool) (cpuId : ℕ) (overrides : List Override)
    (devices : List (Device × (ℕ → RedirectionReg))) : Except Fault (List Chip) :=
  if !present then .ok []
  else if devices.isEmpty then .error .panic
  else if !allocated then .ok []
  else .ok (devices.map fun d => initIOAPIC cpuId overrides d.1 d.2)

/-! ### Masking -/

/-- One pass of the inner loop of `setIrqMask`: a pin with the vector gets the mask. -/
def setPinMask (irq : ℤ) (masked : Bool) (chip : Chip) (j : ℕ) : Chip :=
  if ((chip.redirection j).vector : ℤ) = irq then
    chip.setRedirection j { chip.redirection j with masked := masked }
  else chip

/-- `setIrqMask(irq, masked)`: masks or unmasks every pin of all chips with the vector. -/
def setIrqMask (chips : List Chip) (irq : ℤ) (masked : Bool) : List Chip :=
  chips.map fun chip => (List.range chip.pins).foldl (setPinMask irq masked) chip

/-- `IOAPIC_enableSpecific(irq)`: unmasks the pins with the vector. -/
def enableSpecific (chips : List Chip) (irq : ℤ) : List Chip := setIrqMask chips irq false

/-! ### Loops over pins -/

/-- The registers of the pins are distinct, as there are 120 at most. -/
theorem redirTable_inj {i j : ℕ} (hi : i < 120) (hj : j < 120) :
    redirTable i = redirTable j ↔ i = j := by
  unfold redirTable
  omega

/-- After a write to one pin, this pin has the new value and every other pin its old one. -/
theorem Chip.redirection_setRedirection {chip : Chip} {i j : ℕ} (hi : i < 120) (hj : j < 120)
    (value : RedirectionReg) :
    (chip.setRedirection i value).redirection j = if i = j then value else chip.redirection j := by
  unfold Chip.redirection Chip.setRedirection
  by_cases hij : i = j
  · subst hij
    simp
  · have hne : redirTable j ≠ redirTable i := fun h => hij ((redirTable_inj hj hi).mp h).symm
    simp only [if_neg hij, Function.update_of_ne hne]

/-- **A loop over the pins** whose passes each change their own pin only, and do so in the same way
whatever happened to the others. -/
theorem redirection_foldl {f : Chip → ℕ → Chip} {g : ℕ → RedirectionReg → RedirectionReg}
    {I : Chip → Prop} (hkeeps : ∀ chip i, I chip → I (f chip i))
    (hf : ∀ chip i j, I chip → i < 120 → j < 120 →
      (f chip i).redirection j = if i = j then g i (chip.redirection i) else chip.redirection j)
    {n : ℕ} (hn : n ≤ 120) {chip : Chip} (hI : I chip) :
    I ((List.range n).foldl f chip) ∧ ∀ j < 120,
      ((List.range n).foldl f chip).redirection j =
        if j < n then g j (chip.redirection j) else chip.redirection j := by
  induction n with
  | zero => exact ⟨hI, fun j _ => by simp⟩
  | succ n ih =>
      obtain ⟨hI', hbefore⟩ := ih (by omega)
      rw [List.range_succ, List.foldl_append, List.foldl_cons, List.foldl_nil]
      refine ⟨hkeeps _ _ hI', ?_⟩
      intro j hj
      rw [hf _ n j hI' (by omega) hj]
      by_cases hjn : n = j
      · subst hjn
        rw [if_pos rfl, hbefore n hj, if_neg (by omega), if_pos (by omega)]
      · rw [if_neg hjn, hbefore j hj]
        exact if_congr (by omega) rfl rfl

/-! ### What a pin is set to -/

/-- What the identity map sets a pin to that was marked as not initialized. -/
def identityReg (cpuId gsi : ℕ) : RedirectionReg where
  vector := (isaIrqOffset + gsi) % 2 ^ 8
  deliveryMode := 0
  destinationMode := false
  status := false
  pinPolarity := false
  remoteIRR := false
  triggerMode := false
  masked := true
  destination := cpuId % 2 ^ 8

/-- A chip whose pins have interrupt numbers below `0xdf`, and at most as many as there are
registers. -/
structure Chip.Sized (chip : Chip) (gsiBase pins : ℕ) : Prop where
  gsiBase_eq : chip.gsiBase = gsiBase
  pins_eq : chip.pins = pins
  pins_le : pins ≤ 120
  gsi_le : gsiBase + pins ≤ 0xdf

/-- A write to a pin keeps the base and the number of pins of the chip. -/
theorem Chip.Sized.setRedirection {chip : Chip} {base pins : ℕ} (h : chip.Sized base pins) (i : ℕ)
    (value : RedirectionReg) : (chip.setRedirection i value).Sized base pins :=
  ⟨h.gsiBase_eq, h.pins_eq, h.pins_le, h.gsi_le⟩

/-- An override of an interrupt number of the chip sets its pin. -/
theorem applyOverride_of_managed {chip : Chip} {base pins : ℕ} (h : chip.Sized base pins)
    (cpuId : ℕ) {o : Override} (hbus : o.busSource = 0) {j : ℕ} (hj : j < pins)
    (hgsi : o.gsi = base + j) :
    applyOverride cpuId chip o = chip.setRedirection j (overrideReg cpuId o) := by
  have hbase := h.gsiBase_eq
  have hpins := h.pins_eq
  have hle := h.gsi_le
  rw [applyOverride, if_neg (by omega), if_neg (by omega), hbase, hgsi, Nat.add_sub_cancel_left]

/-- An override of another interrupt number leaves a pin alone. -/
theorem applyOverride_other {chip : Chip} {base pins : ℕ} (h : chip.Sized base pins) (cpuId : ℕ)
    {o : Override} {j : ℕ} (hj : j < pins) (hgsi : o.gsi ≠ base + j) :
    (applyOverride cpuId chip o).Sized base pins ∧
      (applyOverride cpuId chip o).redirection j = chip.redirection j := by
  have hbase := h.gsiBase_eq
  have hpins := h.pins_eq
  have hle := h.gsi_le
  have hpinsLe := h.pins_le
  unfold applyOverride
  split
  · exact ⟨h, rfl⟩
  · split
    · exact ⟨h, rfl⟩
    · refine ⟨h.setRedirection _ _, ?_⟩
      rw [Chip.redirection_setRedirection (by omega) (by omega), if_neg (by omega)]

/-- **The loop over the overrides** leaves a pin alone that none of them is for. -/
theorem overrides_none {base pins : ℕ} (cpuId : ℕ) {j : ℕ} (hj : j < pins)
    (overrides : List Override) (hnone : ∀ o ∈ overrides, o.gsi ≠ base + j) {chip : Chip}
    (h : chip.Sized base pins) :
    (overrides.foldl (applyOverride cpuId) chip).Sized base pins ∧
      (overrides.foldl (applyOverride cpuId) chip).redirection j = chip.redirection j := by
  induction overrides generalizing chip with
  | nil => exact ⟨h, rfl⟩
  | cons o rest ih =>
      obtain ⟨hsized, hsame⟩ := applyOverride_other h cpuId hj (hnone o List.mem_cons_self)
      rw [List.foldl_cons]
      obtain ⟨hsized', hsame'⟩ := ih (fun o' ho' => hnone o' (List.mem_cons_of_mem _ ho')) hsized
      exact ⟨hsized', hsame'.trans hsame⟩

/-- **The loop over the overrides** sets a pin to what the one that is for it says. -/
theorem overrides_some {base pins : ℕ} (cpuId : ℕ) {j : ℕ} (hj : j < pins)
    {overrides : List Override} (hbus : ∀ o ∈ overrides, o.busSource = 0)
    (hdistinct : overrides.Pairwise fun o o' => o.gsi ≠ o'.gsi) {o : Override}
    (ho : o ∈ overrides) (hgsi : o.gsi = base + j) {chip : Chip} (h : chip.Sized base pins) :
    (overrides.foldl (applyOverride cpuId) chip).redirection j = overrideReg cpuId o := by
  have hpinsLe := h.pins_le
  obtain ⟨before, after, rfl⟩ := List.append_of_mem ho
  rw [List.pairwise_append] at hdistinct
  obtain ⟨-, hafter, hbefore⟩ := hdistinct
  rw [List.foldl_append, List.foldl_cons]
  obtain ⟨hsized, -⟩ := overrides_none cpuId hj before
    (fun o' ho' heq => hbefore o' ho' o List.mem_cons_self (heq.trans hgsi.symm)) h
  rw [applyOverride_of_managed hsized cpuId (hbus o ho) hj hgsi]
  -- No override behind this one is for the same pin.
  obtain ⟨-, hsame⟩ := overrides_none cpuId hj after
    (fun o' ho' heq => (List.pairwise_cons.mp hafter).1 o' ho' (hgsi.trans heq.symm))
    (hsized.setRedirection j (overrideReg cpuId o))
  rw [hsame, Chip.redirection_setRedirection (by omega) (by omega), if_pos rfl]

/-- **The last loop** sets the pins that are left, and no other. -/
theorem identityMap_redirection {base pins : ℕ} (cpuId : ℕ) {chip : Chip}
    (h : chip.Sized base pins) :
    ((List.range pins).foldl (identityMap cpuId) chip).Sized base pins ∧ ∀ j < pins,
      ((List.range pins).foldl (identityMap cpuId) chip).redirection j =
        if (chip.redirection j).masked then chip.redirection j
        else { chip.redirection j with
          vector := (isaIrqOffset + (base + j)) % 2 ^ 8
          deliveryMode := 0
          destinationMode := false
          pinPolarity := false
          triggerMode := false
          masked := true
          destination := cpuId % 2 ^ 8 } := by
  have hpinsLe := h.pins_le
  obtain ⟨hsized, hred⟩ := redirection_foldl (f := identityMap cpuId)
    (I := fun chip => chip.Sized base pins)
    (g := fun i r => if r.masked then r else
      { r with
        vector := (isaIrqOffset + (base + i)) % 2 ^ 8
        deliveryMode := 0
        destinationMode := false
        pinPolarity := false
        triggerMode := false
        masked := true
        destination := cpuId % 2 ^ 8 })
    (by
      intro chip i hI
      unfold identityMap
      split
      · exact hI
      · exact hI.setRedirection _ _)
    (by
      intro chip i j hI hi hj
      unfold identityMap
      rw [hI.gsiBase_eq]
      by_cases hmasked : (chip.redirection i).masked = true
      · simp only [hmasked, if_true]
        split
        · rename_i hij
          rw [hij]
        · rfl
      · rw [if_neg hmasked, if_neg hmasked, Chip.redirection_setRedirection hi hj])
    hpinsLe h
  refine ⟨hsized, ?_⟩
  intro j hj
  rw [hred j (by omega), if_pos hj]

/-- The first loop marks every pin as not initialized. -/
theorem clearPin_redirection {base pins : ℕ} {chip : Chip} (h : chip.Sized base pins) :
    ((List.range pins).foldl clearPin chip).Sized base pins ∧ ∀ j < pins,
      ((List.range pins).foldl clearPin chip).redirection j = .zero := by
  have hpinsLe := h.pins_le
  obtain ⟨hsized, hred⟩ := redirection_foldl (f := clearPin)
    (I := fun chip => chip.Sized base pins) (g := fun _ _ => .zero)
    (fun chip i hI => hI.setRedirection _ _)
    (fun chip i j _ hi hj => Chip.redirection_setRedirection hi hj _) hpinsLe h
  refine ⟨hsized, ?_⟩
  intro j hj
  rw [hred j (by omega), if_pos hj]

/-- **What a pin is set to**: to what its override says, and otherwise to the vector of its
number. -/
theorem initIOAPIC_reg (cpuId : ℕ) {overrides : List Override} {device : Device}
    (registers : ℕ → RedirectionReg) (hpins : device.maxRedirectionEntry < 120)
    (hgsi : device.gsiBase + device.maxRedirectionEntry < 0xdf)
    (hbus : ∀ o ∈ overrides, o.busSource = 0)
    (hdistinct : overrides.Pairwise fun o o' => o.gsi ≠ o'.gsi) :
    (initIOAPIC cpuId overrides device registers).Sized device.gsiBase
      (device.maxRedirectionEntry + 1) ∧
    ∀ j ≤ device.maxRedirectionEntry,
      (∀ o ∈ overrides, o.gsi = device.gsiBase + j →
        (initIOAPIC cpuId overrides device registers).redirection j = overrideReg cpuId o) ∧
      ((∀ o ∈ overrides, o.gsi ≠ device.gsiBase + j) →
        (initIOAPIC cpuId overrides device registers).redirection j =
          identityReg cpuId (device.gsiBase + j)) := by
  have hstart : (⟨device.id, device.gsiBase, device.maxRedirectionEntry + 1, registers⟩ :
      Chip).Sized device.gsiBase (device.maxRedirectionEntry + 1) :=
    ⟨rfl, rfl, by omega, by omega⟩
  obtain ⟨hcleared, hzero⟩ := clearPin_redirection hstart
  have hoverridden : ∀ {chip : Chip} {base pins : ℕ}, chip.Sized base pins →
      (overrides.foldl (applyOverride cpuId) chip).Sized base pins := by
    intro chip base pins h
    induction overrides generalizing chip with
    | nil => exact h
    | cons o rest ih =>
        refine ih (fun o' ho' => hbus o' (List.mem_cons_of_mem _ ho'))
          (List.pairwise_cons.mp hdistinct).2 ?_
        unfold applyOverride
        split
        · exact h
        · split
          · exact h
          · exact h.setRedirection _ _
  obtain ⟨hsized, hred⟩ := identityMap_redirection cpuId (hoverridden hcleared)
  refine ⟨hsized, ?_⟩
  intro j hj
  refine ⟨?_, ?_⟩
  · intro o ho hgsi'
    have hset := overrides_some cpuId (j := j) (by omega) hbus hdistinct ho hgsi' hcleared
    refine (hred j (by omega)).trans ?_
    rw [hset, if_pos (show (overrideReg cpuId o).masked = true from rfl)]
  · intro hnone
    have hset := (overrides_none cpuId (j := j) (by omega) overrides hnone hcleared).2
    refine (hred j (by omega)).trans ?_
    rw [hset, hzero j (by omega), if_neg (by simp [RedirectionReg.zero])]
    rfl

/-! ### The property -/

/-- The redirection register of pin `j` of I/O APIC `i`, if there is one. -/
def pinAt (chips : List Chip) (i j : ℕ) : Option RedirectionReg :=
  chips[i]?.bind fun chip => if j < chip.pins then some (chip.redirection j) else none

/-- `IOAPIC_enableSpecific(irq)` unmasks the pin. -/
def Unmasks (chips : List Chip) (irq : ℤ) (i j : ℕ) : Prop :=
  ∃ r r', pinAt chips i j = some r ∧ pinAt (enableSpecific chips irq) i j = some r' ∧
    r.masked = true ∧ r'.masked = false

/-- A machine: I/O APICs whose interrupt numbers are below `0xdf` and belong to one of them only,
with at most 120 pins, as many as an 8-bit register number can select; and overrides of distinct
ISA IRQs by distinct interrupt numbers. -/
structure Machine (overrides : List Override) (devices : List Device) : Prop where
  nonempty : devices ≠ []
  pins : ∀ d ∈ devices, d.maxRedirectionEntry < 120
  gsis : ∀ d ∈ devices, d.gsiBase + d.maxRedirectionEntry < 0xdf
  disjoint : devices.Pairwise fun d d' =>
    d.gsiBase + d.maxRedirectionEntry < d'.gsiBase ∨ d'.gsiBase + d'.maxRedirectionEntry < d.gsiBase
  isa : ∀ o ∈ overrides, o.busSource = 0 ∧ o.irqSource ≤ 15
  distinctIrqs : overrides.Pairwise fun o o' => o.irqSource ≠ o'.irqSource
  distinctGsis : overrides.Pairwise fun o o' => o.gsi ≠ o'.gsi

/-- Pin `j` of I/O APIC `i` has the interrupt number. -/
def HasGsi (devices : List Device) (i j gsi : ℕ) : Prop :=
  ∃ d, devices[i]? = some d ∧ j ≤ d.maxRedirectionEntry ∧ d.gsiBase + j = gsi

/-- Some pin of the devices has the interrupt number. -/
def Managed (devices : List Device) (gsi : ℕ) : Prop := ∃ i j, HasGsi devices i j gsi

/-- Some override maps its IRQ to the interrupt number. -/
def Target (overrides : List Override) (gsi : ℕ) : Prop := ∃ o ∈ overrides, o.gsi = gsi

/-- **The vectors are unambiguous**: no two pins have the same one, none has one of the local APIC;
so `IOAPIC_enableSpecific` unmasks one pin at most, and for an IRQ that is not overridden, and no
target of an override, exactly the pin with its number. -/
structure Unambiguous (overrides : List Override) (devices : List Device) (chips : List Chip) :
    Prop where
  distinct : ∀ i j i' j' r r', pinAt chips i j = some r → pinAt chips i' j' = some r' →
    r.vector = r'.vector → i = i' ∧ j = j'
  reserved : ∀ i j r, pinAt chips i j = some r →
    r.vector ≠ irqApicTimer ∧ r.vector ≠ irqApicSpurious
  one : ∀ irq i j i' j', Unmasks chips irq i j → Unmasks chips irq i' j' → i = i' ∧ j = j'
  identity : ∀ n, (∀ o ∈ overrides, o.irqSource ≠ n) → ¬ Target overrides n →
    ∀ i j, Unmasks chips (isaIrqOffset + n : ℕ) i j ↔ HasGsi devices i j n

/-- **No vector is handed out twice**: the pin with the number of an IRQ that is overridden by
another pin is not there or is overridden itself, and so is pin 16, whose vector is that of the
timer of the local APIC. -/
structure Unshared (overrides : List Override) (devices : List Device) : Prop where
  irqs : ∀ o ∈ overrides, Managed devices o.gsi → o.irqSource ≠ o.gsi →
    Managed devices o.irqSource → Target overrides o.irqSource
  timer : Managed devices 16 → Target overrides 16

/-! ### The pins of a machine -/

/-- After a change of masks the pins with the vector of the IRQ have the new mask, and the
others are as before. -/
theorem pinAt_setIrqMask {chips : List Chip} (hpins : ∀ chip ∈ chips, chip.pins ≤ 120) (irq : ℤ)
    (masked : Bool) (i j : ℕ) :
    pinAt (setIrqMask chips irq masked) i j = (pinAt chips i j).map fun r =>
      if (r.vector : ℤ) = irq then { r with masked := masked } else r := by
  unfold pinAt setIrqMask
  rw [List.getElem?_map]
  cases hchip : chips[i]? with
  | none => rfl
  | some chip =>
      have hle := hpins chip (List.mem_of_getElem? hchip)
      obtain ⟨hsame, hred⟩ := redirection_foldl (f := setPinMask irq masked)
        (I := fun c => c.pins = chip.pins)
        (g := fun _ r => if (r.vector : ℤ) = irq then { r with masked := masked } else r)
        (by
          intro c k hI
          unfold setPinMask
          split
          · exact hI
          · exact hI)
        (by
          intro c k l _ hk hl
          unfold setPinMask
          by_cases hv : ((c.redirection k).vector : ℤ) = irq
          · rw [if_pos hv, if_pos hv, Chip.redirection_setRedirection hk hl]
          · rw [if_neg hv, if_neg hv]
            split
            · rename_i hkl
              rw [hkl]
            · rfl)
        hle (Eq.refl chip.pins)
      simp only [Option.map_some, Option.bind_some, hsame]
      by_cases hj : j < chip.pins
      · rw [if_pos hj, if_pos hj, hred j (by omega), if_pos hj]
        rfl
      · rw [if_neg hj, if_neg hj]
        rfl

section

variable {cpuId : ℕ} {overrides : List Override} {devices : List (Device × (ℕ → RedirectionReg))}
  (h : Machine overrides (devices.map Prod.fst))

include h

/-- After `IOAPIC_init` the chips are the initialised ones of the devices, in their order. -/
theorem Machine.init_eq :
    iOAPICInit true true cpuId overrides devices =
      .ok (devices.map fun d => initIOAPIC cpuId overrides d.1 d.2) := by
  have hne : devices.isEmpty = false := by
    have := h.nonempty
    cases devices with
    | nil => simp at this
    | cons => rfl
  simp [iOAPICInit, hne]

/-- **A pin after `IOAPIC_init`** is set to what its override says, or to the vector of its
number. -/
theorem Machine.pinAt_iff {i j : ℕ} {r : RedirectionReg} :
    pinAt (devices.map fun d => initIOAPIC cpuId overrides d.1 d.2) i j = some r ↔
      ∃ gsi, HasGsi (devices.map Prod.fst) i j gsi ∧
        ((∃ o ∈ overrides, o.gsi = gsi ∧ r = overrideReg cpuId o) ∨
          (¬ Target overrides gsi ∧ r = identityReg cpuId gsi)) := by
  unfold pinAt HasGsi
  rw [List.getElem?_map, List.getElem?_map]
  cases hd : devices[i]? with
  | none => simp
  | some d =>
      have hmem : d.1 ∈ devices.map Prod.fst := List.mem_map_of_mem (List.mem_of_getElem? hd)
      obtain ⟨hsized, hreg⟩ := initIOAPIC_reg cpuId d.2 (h.pins d.1 hmem)
        (h.gsis d.1 hmem) (fun o ho => (h.isa o ho).1) h.distinctGsis
      simp only [Option.map_some, Option.bind_some, hsized.pins_eq, Option.some.injEq,
        exists_eq_left']
      by_cases hj : j ≤ d.1.maxRedirectionEntry
      · obtain ⟨hsome, hnone⟩ := hreg j hj
        rw [if_pos (by omega), Option.some.injEq]
        constructor
        · rintro rfl
          refine ⟨d.1.gsiBase + j, ⟨hj, rfl⟩, ?_⟩
          by_cases htarget : Target overrides (d.1.gsiBase + j)
          · obtain ⟨o, ho, hgsi⟩ := htarget
            exact .inl ⟨o, ho, hgsi, hsome o ho hgsi⟩
          · exact .inr ⟨htarget, hnone fun o ho hgsi => htarget ⟨o, ho, hgsi⟩⟩
        · rintro ⟨gsi, ⟨-, rfl⟩, ⟨o, ho, hgsi, rfl⟩ | ⟨htarget, rfl⟩⟩
          · exact hsome o ho hgsi
          · exact hnone fun o ho hgsi => htarget ⟨o, ho, hgsi⟩
      · rw [if_neg (by omega)]
        simp [hj]

/-- The interrupt numbers of all pins are below `0xdf`, so that their vectors fit into a
byte. -/
theorem Machine.gsi_lt {i j gsi : ℕ} (hg : HasGsi (devices.map Prod.fst) i j gsi) : gsi < 0xdf := by
  obtain ⟨d, hd, hj, rfl⟩ := hg
  have := h.gsis d (List.mem_of_getElem? hd)
  omega

/-- **An interrupt number belongs to one pin**: the ranges of the chips do not overlap. -/
theorem Machine.pin_unique {i j i' j' gsi : ℕ} (hg : HasGsi (devices.map Prod.fst) i j gsi)
    (hg' : HasGsi (devices.map Prod.fst) i' j' gsi) : i = i' ∧ j = j' := by
  obtain ⟨d, hd, hj, hgsi⟩ := hg
  obtain ⟨d', hd', hj', hgsi'⟩ := hg'
  have hpair := List.pairwise_iff_getElem.mp h.disjoint
  obtain ⟨hi, hdi⟩ := List.getElem?_eq_some_iff.mp hd
  obtain ⟨hi', hdi'⟩ := List.getElem?_eq_some_iff.mp hd'
  have hii : i = i' := by
    rcases Nat.lt_trichotomy i i' with hlt | heq | hgt
    · have := hpair i i' hi hi' hlt
      rw [hdi, hdi'] at this
      omega
    · exact heq
    · have := hpair i' i hi' hi hgt
      rw [hdi, hdi'] at this
      omega
  subst hii
  obtain rfl : d = d' := Option.some.inj (hd.symm.trans hd')
  exact ⟨rfl, by omega⟩

/-- Two overrides of the same IRQ are the same override. -/
theorem Machine.override_unique {o o' : Override} (ho : o ∈ overrides) (ho' : o' ∈ overrides)
    (heq : o.irqSource = o'.irqSource) : o = o' := by
  have hnodup : (overrides.map Override.irqSource).Nodup := List.pairwise_map.mpr h.distinctIrqs
  exact List.inj_on_of_nodup_map hnodup ho ho' heq

/-- **A pin is unmasked** if its vector is that of the IRQ: every pin is masked after
`IOAPIC_init`. -/
theorem Machine.unmasks_iff {irq : ℤ} {i j : ℕ} :
    Unmasks (devices.map fun d => initIOAPIC cpuId overrides d.1 d.2) irq i j ↔
      ∃ r, pinAt (devices.map fun d => initIOAPIC cpuId overrides d.1 d.2) i j = some r ∧
        (r.vector : ℤ) = irq := by
  have hpins : ∀ chip ∈ devices.map fun d => initIOAPIC cpuId overrides d.1 d.2,
      chip.pins ≤ 120 := by
    intro chip hchip
    obtain ⟨d, hd, rfl⟩ := List.mem_map.mp hchip
    have hmem : d.1 ∈ devices.map Prod.fst := List.mem_map_of_mem hd
    obtain ⟨hsized, -⟩ := initIOAPIC_reg cpuId d.2 (h.pins d.1 hmem)
      (h.gsis d.1 hmem) (fun o ho => (h.isa o ho).1) h.distinctGsis
    rw [hsized.pins_eq]
    exact hsized.pins_le
  have hmasked : ∀ r, pinAt (devices.map fun d => initIOAPIC cpuId overrides d.1 d.2) i j =
      some r → r.masked = true := by
    intro r hr
    obtain ⟨gsi, -, ⟨o, -, -, rfl⟩ | ⟨-, rfl⟩⟩ := h.pinAt_iff.mp hr
    · rfl
    · rfl
  unfold Unmasks enableSpecific
  constructor
  · rintro ⟨r, r', hr, hr', -, hun⟩
    refine ⟨r, hr, ?_⟩
    rw [pinAt_setIrqMask hpins, hr, Option.map_some, Option.some.injEq] at hr'
    by_contra hne
    rw [if_neg hne] at hr'
    rw [← hr', hmasked r hr] at hun
    exact absurd hun (by simp)
  · rintro ⟨r, hr, hv⟩
    refine ⟨r, { r with masked := false }, hr, ?_, hmasked r hr, rfl⟩
    rw [pinAt_setIrqMask hpins, hr, Option.map_some, if_pos hv]

/-- The vector of a pin is that of the IRQ of an override of its number, or else that of its
number itself. -/
theorem Machine.vector_cases {i j : ℕ} {r : RedirectionReg}
    (hr : pinAt (devices.map fun d => initIOAPIC cpuId overrides d.1 d.2) i j = some r) :
    ∃ gsi, HasGsi (devices.map Prod.fst) i j gsi ∧
      ((∃ o ∈ overrides, o.gsi = gsi ∧ r.vector = isaIrqOffset + o.irqSource) ∨
        (¬ Target overrides gsi ∧ r.vector = isaIrqOffset + gsi)) := by
  obtain ⟨gsi, hgsi, ⟨o, ho, hog, rfl⟩ | ⟨htarget, rfl⟩⟩ := h.pinAt_iff.mp hr
  · have hirq := (h.isa o ho).2
    refine ⟨gsi, hgsi, .inl ⟨o, ho, hog, ?_⟩⟩
    simp only [overrideReg, isaIrqOffset]
    omega
  · have hlt := h.gsi_lt hgsi
    refine ⟨gsi, hgsi, .inr ⟨htarget, ?_⟩⟩
    simp only [identityReg, isaIrqOffset]
    omega

/-- **Distinct pins have distinct vectors** if none is handed out twice. -/
theorem Machine.distinct_of_unshared (hu : Unshared overrides (devices.map Prod.fst))
    {i j i' j' : ℕ} {r r' : RedirectionReg}
    (hr : pinAt (devices.map fun d => initIOAPIC cpuId overrides d.1 d.2) i j = some r)
    (hr' : pinAt (devices.map fun d => initIOAPIC cpuId overrides d.1 d.2) i' j' = some r')
    (hv : r.vector = r'.vector) : i = i' ∧ j = j' := by
  -- An overridden pin and one with the vector of its number.
  have hmixed : ∀ {i j i' j' gsi gsi' : ℕ} {o : Override},
      HasGsi (devices.map Prod.fst) i j gsi → HasGsi (devices.map Prod.fst) i' j' gsi' →
      o ∈ overrides → o.gsi = gsi → ¬ Target overrides gsi' → o.irqSource = gsi' → False := by
    intro i j i' j' gsi gsi' o hg hg' ho hog htarget hirq
    by_cases hself : o.irqSource = o.gsi
    · exact htarget ⟨o, ho, hself.symm.trans hirq⟩
    · have htarget' := hu.irqs o ho ⟨i, j, hog ▸ hg⟩ hself ⟨i', j', hirq ▸ hg'⟩
      exact htarget (hirq ▸ htarget')
  obtain ⟨gsi, hg, hcase⟩ := h.vector_cases hr
  obtain ⟨gsi', hg', hcase'⟩ := h.vector_cases hr'
  rcases hcase with ⟨o, ho, hog, hvec⟩ | ⟨htarget, hvec⟩ <;>
    rcases hcase' with ⟨o', ho', hog', hvec'⟩ | ⟨htarget', hvec'⟩
  · obtain rfl := h.override_unique ho ho' (by omega)
    obtain rfl : gsi = gsi' := hog.symm.trans hog'
    exact h.pin_unique hg hg'
  · exact (hmixed hg hg' ho hog htarget' (by omega)).elim
  · exact (hmixed hg' hg ho' hog' htarget (by omega)).elim
  · obtain rfl : gsi = gsi' := by omega
    exact h.pin_unique hg hg'

/-- The pin of an IRQ that is neither overridden nor a target has its vector, and no other pin
has. -/
theorem Machine.identity {n : ℕ} (hsource : ∀ o ∈ overrides, o.irqSource ≠ n)
    (htarget : ¬ Target overrides n) (i j : ℕ) :
    Unmasks (devices.map fun d => initIOAPIC cpuId overrides d.1 d.2) (isaIrqOffset + n : ℕ) i j ↔
      HasGsi (devices.map Prod.fst) i j n := by
  rw [h.unmasks_iff]
  constructor
  · rintro ⟨r, hr, hv⟩
    obtain ⟨gsi, hg, ⟨o, ho, -, hvec⟩ | ⟨-, hvec⟩⟩ := h.vector_cases hr
    · exact absurd (by omega) (hsource o ho)
    · obtain rfl : gsi = n := by omega
      exact hg
  · intro hg
    have hlt := h.gsi_lt hg
    refine ⟨identityReg cpuId n, h.pinAt_iff.mpr ⟨n, hg, .inr ⟨htarget, rfl⟩⟩, ?_⟩
    simp only [identityReg, isaIrqOffset]
    omega

variable (cpuId)

/-- A pin with a number that is not overridden has the vector of its number. -/
theorem Machine.pinAt_identity {i j gsi : ℕ} (hg : HasGsi (devices.map Prod.fst) i j gsi)
    (htarget : ¬ Target overrides gsi) :
    ∃ r, pinAt (devices.map fun d => initIOAPIC cpuId overrides d.1 d.2) i j = some r ∧
      r.vector = isaIrqOffset + gsi := by
  have hlt := h.gsi_lt hg
  refine ⟨identityReg cpuId gsi, h.pinAt_iff.mpr ⟨gsi, hg, .inr ⟨htarget, rfl⟩⟩, ?_⟩
  simp only [identityReg, isaIrqOffset]
  omega

/-- A pin with a number that is overridden has the vector of the IRQ. -/
theorem Machine.pinAt_override {i j : ℕ} {o : Override} (ho : o ∈ overrides)
    (hg : HasGsi (devices.map Prod.fst) i j o.gsi) :
    ∃ r, pinAt (devices.map fun d => initIOAPIC cpuId overrides d.1 d.2) i j = some r ∧
      r.vector = isaIrqOffset + o.irqSource := by
  have hirq := (h.isa o ho).2
  refine ⟨overrideReg cpuId o, h.pinAt_iff.mpr ⟨o.gsi, hg, .inl ⟨o, ho, rfl, rfl⟩⟩, ?_⟩
  simp only [overrideReg, isaIrqOffset]
  omega

/-- **The vectors are unambiguous exactly when none is handed out twice.** For every set of I/O
APICs with disjoint interrupt numbers below `0xdf`, and every list of overrides of distinct ISA
IRQs by distinct interrupt numbers: after `IOAPIC_init` no two pins have the same vector and none
has that of the timer or of spurious interrupts of the local APIC, so that
`IOAPIC_enableSpecific` unmasks one pin at most, if and only if the pins with the numbers of
overridden IRQs, and pin 16, are not there or are overridden themselves. -/
theorem vectors_unambiguous_iff :
    ∃ chips, iOAPICInit true true cpuId overrides devices = .ok chips ∧
      (Unambiguous overrides (devices.map Prod.fst) chips ↔
        Unshared overrides (devices.map Prod.fst)) := by
  refine ⟨_, h.init_eq, ?_, ?_⟩
  · intro hun
    refine ⟨?_, ?_⟩
    · rintro o ho ⟨i, j, hg⟩ hne ⟨i', j', hg'⟩
      by_contra htarget
      obtain ⟨r, hr, hv⟩ := h.pinAt_override cpuId ho hg
      obtain ⟨r', hr', hv'⟩ := h.pinAt_identity cpuId hg' htarget
      obtain ⟨rfl, rfl⟩ := hun.distinct i j i' j' r r' hr hr' (hv.trans hv'.symm)
      obtain ⟨d, hd, -, hgsi⟩ := hg
      obtain ⟨d', hd', -, hgsi'⟩ := hg'
      obtain rfl : d = d' := Option.some.inj (hd.symm.trans hd')
      omega
    · rintro ⟨i, j, hg⟩
      by_contra htarget
      obtain ⟨r, hr, hv⟩ := h.pinAt_identity cpuId hg htarget
      exact (hun.reserved i j r hr).1 (by simp [hv])
  · intro hu
    refine ⟨?_, ?_, ?_, ?_⟩
    · intro i j i' j' r r' hr hr' hv
      exact h.distinct_of_unshared hu hr hr' hv
    · intro i j r hr
      obtain ⟨gsi, hg, ⟨o, ho, -, hvec⟩ | ⟨htarget, hvec⟩⟩ := h.vector_cases hr
      · have hirq := (h.isa o ho).2
        simp only [hvec, isaIrqOffset, irqApicTimer, irqApicSpurious]
        omega
      · have hlt := h.gsi_lt hg
        have hne : gsi ≠ 16 := by
          rintro rfl
          exact htarget (hu.timer ⟨i, j, hg⟩)
        simp only [hvec, isaIrqOffset, irqApicTimer, irqApicSpurious]
        omega
    · intro irq i j i' j' hi hi'
      obtain ⟨r, hr, hv⟩ := h.unmasks_iff.mp hi
      obtain ⟨r', hr', hv'⟩ := h.unmasks_iff.mp hi'
      exact h.distinct_of_unshared hu hr hr' (by omega)
    · intro n hsource htarget i j
      exact h.identity hsource htarget i j

end

/-- An I/O APIC with the pins of the ISA IRQs, and overrides that exchange two of them. -/
def isaMachine : List Override × List (Device × (ℕ → RedirectionReg)) :=
  ([⟨0, 0, 2, false, false⟩, ⟨0, 2, 0, false, false⟩], [(⟨0, 0, 15⟩, fun _ => .zero)])

/-- The equivalence at a machine where an override gives back what another one took. -/
theorem vectors_unambiguous_iff_isa :
    ∃ chips, iOAPICInit true true 0 isaMachine.1 isaMachine.2 = .ok chips ∧
      Unambiguous isaMachine.1 (isaMachine.2.map Prod.fst) chips := by
  have hmachine : Machine isaMachine.1 (isaMachine.2.map Prod.fst) := by
    refine ⟨?_, ?_, ?_, ?_, ?_, ?_, ?_⟩ <;> simp [isaMachine]
  obtain ⟨chips, hinit, hiff⟩ := vectors_unambiguous_iff 0 hmachine
  refine ⟨chips, hinit, hiff.mpr ⟨?_, ?_⟩⟩
  · intro o ho _ _ _
    simp only [isaMachine, List.mem_cons, List.not_mem_nil, or_false] at ho
    rcases ho with rfl | rfl
    · exact ⟨⟨0, 2, 0, false, false⟩, by simp [isaMachine], rfl⟩
    · exact ⟨⟨0, 0, 2, false, false⟩, by simp [isaMachine], rfl⟩
  · rintro ⟨i, j, d, hd, hj, hgsi⟩
    have hd' := List.mem_of_getElem? hd
    simp only [isaMachine, List.map_cons, List.map_nil, List.mem_singleton] at hd'
    subst hd'
    simp only at hj hgsi
    omega

/-- An I/O APIC of 24 pins, and the override of IRQ 0 by pin 2. -/
def commonMachine : List Override × List (Device × (ℕ → RedirectionReg)) :=
  ([⟨0, 0, 2, false, false⟩], [(⟨0, 0, 23⟩, fun _ => .zero)])

/-- **Vectors are handed out twice** on a common machine: pins 0 and 2 have the vector `0x20`, and
pin 16 has that of the timer of the local APIC. -/
theorem vectors_collide :
    Machine commonMachine.1 (commonMachine.2.map Prod.fst) ∧
      ∃ chips, iOAPICInit true true 0 commonMachine.1 commonMachine.2 = .ok chips ∧
        ((pinAt chips 0 0).map RedirectionReg.vector = some 0x20 ∧
          (pinAt chips 0 2).map RedirectionReg.vector = some 0x20 ∧
          (pinAt chips 0 16).map RedirectionReg.vector = some irqApicTimer) ∧
        ¬ Unambiguous commonMachine.1 (commonMachine.2.map Prod.fst) chips := by
  refine ⟨?_, _, rfl, ⟨by decide +kernel, by decide +kernel, by decide +kernel⟩, ?_⟩
  · refine ⟨?_, ?_, ?_, ?_, ?_, ?_, ?_⟩ <;> simp [commonMachine]
  · intro hun
    have h0 : (pinAt (commonMachine.2.map fun d =>
        initIOAPIC 0 commonMachine.1 d.1 d.2) 0 16).map RedirectionReg.vector = some 0x30 := by
      decide +kernel
    obtain ⟨r, hr, hv⟩ := Option.map_eq_some_iff.mp h0
    exact (hun.reserved 0 16 r hr).1 hv

end MugOS.IOAPIC
