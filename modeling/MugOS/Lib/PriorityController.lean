import Mathlib.Data.BitVec
import Mathlib.Tactic.Common

/-!
# Cascaded Priority Interrupt Controllers

A pair of interrupt controllers with eight request lines each, as programmed through a command
register and a data register. A line that is requested and not masked is served when no line of at
least its priority is in service; acknowledging it puts it in service, and an end-of-interrupt
command takes the line of the highest priority out of service. The second controller is cascaded
into a line of the first.

An acknowledged interrupt whose request is gone is *spurious*: it has the vector of the last line,
and no line is put in service by the controller that answers.

## Main results

* `Controller.next_spec`: the line that is served when none is in service.
* `Controller.command_eoi`: the end of an interrupt when one line is in service.
-/

namespace MugOS

/-! ### Bits -/

/-- After a bit of a register was set, this bit is set and all others are as before. -/
theorem getLsbD_set {k : ℕ} (hk : k < 8) (x : BitVec 8) (l : ℕ) :
    (x ||| 1#8 <<< l).getLsbD k = (x.getLsbD k || decide (k = l)) := by
  rw [BitVec.getLsbD_or, BitVec.getLsbD_shiftLeft, BitVec.getLsbD_one]
  rcases lt_trichotomy k l with h | h | h
  · simp [h, h.ne]
  · simp [h, h ▸ hk]
  · simp [hk, h.not_gt, h.ne', Nat.sub_eq_zero_iff_le, Nat.not_le.mpr h]

/-- After a bit of a register was cleared, this bit is clear and all others are as before. -/
theorem getLsbD_clear {k : ℕ} (hk : k < 8) (x : BitVec 8) (l : ℕ) :
    (x &&& ~~~(1#8 <<< l)).getLsbD k = (x.getLsbD k && !decide (k = l)) := by
  have hbit := getLsbD_set hk 0#8 l
  rw [BitVec.getLsbD_or, BitVec.getLsbD_zero, Bool.false_or, Bool.false_or] at hbit
  rw [BitVec.getLsbD_and, BitVec.getLsbD_not, hbit]
  simp [hk]

namespace Priority

/-! ### One controller -/

/-- A controller of eight interrupt lines, with its registers and what a read will show. -/
structure Controller where
  /-- how many words of an initialisation are still to be written to the data register -/
  pending : ℕ
  /-- the vector of the first line -/
  base : ℕ
  requests : BitVec 8
  mask : BitVec 8
  inService : BitVec 8
  /-- whether a read of the command register shows the lines in service, and not the requests -/
  showsService : Bool
  deriving DecidableEq, Repr

/-- A write to the command register: the first word of an initialisation, the choice of what is
read, or the end of the interrupt of the highest priority. -/
def Controller.command (c : Controller) (v : BitVec 8) : Controller :=
  if v.getLsbD 4 then
    { c with pending := 3, requests := 0#8, mask := 0#8, inService := 0#8, showsService := false }
  else if v.getLsbD 3 then
    if v.getLsbD 1 then { c with showsService := v.getLsbD 0 } else c
  else if v >>> 5 = 1#8 then { c with inService := c.inService &&& (c.inService - 1#8) }
  else c

/-- A write to the data register: the next word of an initialisation, of which the first has the
vectors, or the mask. -/
def Controller.data (c : Controller) (v : BitVec 8) : Controller :=
  match c.pending with
  | 0 => { c with mask := v }
  | 3 => { c with base := (v &&& 0xf8#8).toNat, pending := 2 }
  | n + 1 => { c with pending := n }

/-- A read of the command register: the lines in service, or those that are requested. -/
def Controller.status (c : Controller) : BitVec 8 :=
  if c.showsService then c.inService else c.requests

/-- The request of a line appears in its register. -/
def Controller.raise (c : Controller) (l : ℕ) : Controller :=
  { c with requests := c.requests ||| 1#8 <<< l }

/-- The request of a line disappears from its register. -/
def Controller.lower (c : Controller) (l : ℕ) : Controller :=
  { c with requests := c.requests &&& ~~~(1#8 <<< l) }

/-- The line that is served next: the first that is requested and not masked, if no line of at least
its priority is in service. -/
def Controller.next (c : Controller) : Option ℕ :=
  (List.range 8).find? fun l => c.requests.getLsbD l && !c.mask.getLsbD l &&
    (List.range (l + 1)).all fun k => !c.inService.getLsbD k

/-- The acknowledgement of an interrupt: the line, if it is not spurious. -/
def Controller.acknowledge (c : Controller) : Option ℕ × Controller :=
  match c.next with
  | some l =>
      (some l, { c.lower l with inService := c.inService ||| 1#8 <<< l })
  | none => (none, c)

/-- **The line that is served** when none is in service. -/
theorem Controller.next_spec {c : Controller} (h : c.inService = 0#8) :
    c.next = (List.range 8).find? fun l => c.requests.getLsbD l && !c.mask.getLsbD l := by
  have hall : ∀ l, ((List.range (l + 1)).all fun k => !(0#8).getLsbD k) = true := fun l =>
    List.all_eq_true.mpr fun k _ => by simp
  simp only [Controller.next, h, hall, Bool.and_true]

/-- **The end of an interrupt** when one line is in service. -/
theorem Controller.command_eoi {c : Controller} {l : ℕ} (h : c.inService = 1#8 <<< l) :
    c.command 0x20#8 = { c with inService := 0#8 } := by
  have hlow : ∀ k < 8, (1#8 <<< k) &&& ((1#8 <<< k) - 1#8) = 0#8 := by decide
  have hclear : (1#8 <<< l) &&& ((1#8 <<< l) - 1#8) = 0#8 := by
    by_cases hl : l < 8
    · exact hlow l hl
    · rw [BitVec.shiftLeft_eq_zero (by omega)]
      rfl
  have hcommand : c.command 0x20#8 =
      { c with inService := c.inService &&& (c.inService - 1#8) } := rfl
  rw [hcommand, h, hclear]

/-! ### Two controllers -/

/-- The line of the first controller to which the second one is connected. -/
abbrev cascadeLine : ℕ := 2

/-- Two controllers, of which the slave is on a line of the master. -/
structure Pair where
  master : Controller
  slave : Controller
  deriving DecidableEq, Repr

/-- The acknowledgement of an interrupt: its vector. -/
def Pair.acknowledge (p : Pair) : ℕ × Pair :=
  match p.master.acknowledge with
  | (none, master) => (master.base + 7, { p with master := master })
  | (some l, master) =>
      if l = cascadeLine then
        let (l', slave) := p.slave.acknowledge
        (slave.base + l'.getD 7, ⟨master, slave⟩)
      else (master.base + l, { p with master := master })

end Priority

end MugOS
