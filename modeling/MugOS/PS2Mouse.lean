import Mathlib.Tactic

/-!
# Mouse Packets

`mouseIRQ` and `handleMousePacket` of `Kernel/Drivers/Input/PS2.c`: a mouse reports its movements in
packets of three bytes, or of four if it has a wheel. Every interrupt brings one byte. The driver
counts the bytes of a packet, and decodes the packet when it has the last one.

The report, which the driver writes to the log, is a record here. The check of the `enabled` field,
which `mouseIRQ` does not make, is made by the functions that install it.

## Main results

* `irqs_encode`: packets are decoded to the movements that they were made of.
* `reports_windows`: in any stream of bytes, the packets are where the count of the bytes says.
-/

namespace MugOS.PS2.Mouse

/-! ### The driver -/

/-- `PS2MOUSETYPE_STD`. -/
abbrev typeStd : UInt8 := 0x00

/-- `PS2MOUSETYPE_WHEEL`. -/
abbrev typeWheel : UInt8 := 0x03

/-- `PS2MOUSETYPE_5BUTTONS`. -/
abbrev type5Buttons : UInt8 := 0x04

/-- What a packet of the mouse says: the buttons, the movement and that of the wheel. -/
structure Movement where
  btn1 : Bool
  btn2 : Bool
  btn3 : Bool
  btn4 : Bool
  btn5 : Bool
  dx : ℤ
  dy : ℤ
  wheel : ℤ
  deriving DecidableEq, Repr

/-- The movement of the wheel: `(byte & 0b1000) ? (byte | ~0b0111) : (byte & 0b0111)`, as an
`int`. -/
def wheelOf (byte : UInt8) : ℤ :=
  if byte &&& 0b00001000 ≠ 0 then (BitVec.ofNat 32 byte.toNat ||| ~~~(0b00000111#32)).toInt
  else (byte &&& 0b00000111).toNat

/-- `handleMousePacket(flags, raw_dx, raw_dy, wheelAndThumbBtn)` for a mouse of the given type. -/
def handleMousePacket (type flags rawDx rawDy wheelAndThumbBtn : UInt8) : Movement where
  btn1 := flags &&& 0b00000001 ≠ 0
  btn2 := flags &&& 0b00000010 ≠ 0
  btn3 := type ≥ typeWheel ∧ flags &&& 0b00000100 ≠ 0
  btn4 := type ≥ type5Buttons ∧ wheelAndThumbBtn &&& 0b00010000 ≠ 0
  btn5 := type ≥ type5Buttons ∧ wheelAndThumbBtn &&& 0b00100000 ≠ 0
  dx := rawDx.toNat - ((flags.toNat <<< 4) &&& 0x100 : ℕ)
  dy := rawDy.toNat - ((flags.toNat <<< 3) &&& 0x100 : ℕ)
  wheel := if type ≥ typeWheel then wheelOf wheelAndThumbBtn else 0

/-- The static variables of `mouseIRQ`: the bytes of a packet that have arrived. -/
structure Packet where
  packetIndex : ℕ
  flags : UInt8
  dx : UInt8
  dy : UInt8
  deriving DecidableEq, Repr

/-- The static variables at the start. -/
def Packet.start : Packet := ⟨0, 0, 0, 0⟩

/-- `mouseIRQ()` with the byte that is received; the report, if the byte completes a packet. -/
def mouseIRQ (type packetSize data : UInt8) (p : Packet) : Packet × Option Movement :=
  if p.packetIndex = 0 then ({ p with flags := data, packetIndex := p.packetIndex + 1 }, none)
  else if p.packetIndex = 1 then ({ p with dx := data, packetIndex := p.packetIndex + 1 }, none)
  else if p.packetIndex = 2 then
    let p := { p with dy := data, packetIndex := p.packetIndex + 1 }
    if packetSize > 3 then (p, none)
    -- The byte with the wheel is a dummy, and the packet falls through to the last case.
    else ({ p with packetIndex := 0 }, some (handleMousePacket type p.flags p.dx p.dy 0xff))
  else if p.packetIndex = 3 then
    ({ p with packetIndex := 0 }, some (handleMousePacket type p.flags p.dx p.dy data))
  else (p, none)

/-- The reports of one interrupt after the other. -/
def irqs (type packetSize : UInt8) : List UInt8 → Packet → List Movement
  | [], _ => []
  | data :: bytes, p =>
      let r := mouseIRQ type packetSize data p
      r.2.toList ++ irqs type packetSize bytes r.1

/-- The number of bytes that the driver takes for a packet. -/
def packetLength (packetSize : UInt8) : ℕ := if packetSize > 3 then 4 else 3

/-! ### The mouse -/

/-- The first byte of a packet: the buttons, a bit that is always set, and the signs. -/
def flagsOf (btn1 btn2 btn3 left down : Bool) : UInt8 :=
  (if btn1 then 0b00000001 else 0) ||| (if btn2 then 0b00000010 else 0) |||
    (if btn3 then 0b00000100 else 0) ||| 0b00001000 ||| (if left then 0b00010000 else 0) |||
    (if down then 0b00100000 else 0)

/-- The last byte of a packet of a mouse with five buttons. -/
def wheelByte (btn4 btn5 : Bool) (wheel : ℤ) : UInt8 :=
  (UInt8.ofInt wheel &&& 0b00001111) ||| (if btn4 then 0b00010000 else 0) |||
    (if btn5 then 0b00100000 else 0)

/-- The packet of a movement: a mouse with a wheel and three buttons extends the sign of the wheel
to the whole byte, one with five buttons does not. -/
def encode (type packetSize : UInt8) (m : Movement) : List UInt8 :=
  [flagsOf m.btn1 m.btn2 m.btn3 (m.dx < 0) (m.dy < 0), UInt8.ofInt m.dx, UInt8.ofInt m.dy] ++
    if packetSize > 3 then
      [if type ≥ type5Buttons then wheelByte m.btn4 m.btn5 m.wheel else UInt8.ofInt m.wheel]
    else []

/-- A movement that fits a packet: nine bits for each coordinate, four for the wheel. -/
structure Movement.InRange (m : Movement) : Prop where
  dx : -256 ≤ m.dx ∧ m.dx < 256
  dy : -256 ≤ m.dy ∧ m.dy < 256
  wheel : -8 ≤ m.wheel ∧ m.wheel < 8

/-- What the driver can see of a movement of a mouse of the given type. -/
def Movement.seenBy (type : UInt8) (m : Movement) : Movement where
  btn1 := m.btn1
  btn2 := m.btn2
  btn3 := type ≥ typeWheel ∧ m.btn3
  btn4 := type ≥ type5Buttons ∧ m.btn4
  btn5 := type ≥ type5Buttons ∧ m.btn5
  dx := m.dx
  dy := m.dy
  wheel := if type ≥ typeWheel then m.wheel else 0

/-- The types and sizes that the initialisation gives to a mouse. -/
def Recognised (type packetSize : UInt8) : Prop :=
  type = typeStd ∧ packetSize = 3 ∨ type = typeWheel ∧ packetSize = 4 ∨
    type = type5Buttons ∧ packetSize = 4

/-! ### One packet -/

/-- The fields of the first byte of a packet are read back as the buttons and signs that it was
made of. -/
theorem flagsOf_fields (btn1 btn2 btn3 left down : Bool) :
    decide (flagsOf btn1 btn2 btn3 left down &&& 0b00000001 ≠ 0) = btn1 ∧
    decide (flagsOf btn1 btn2 btn3 left down &&& 0b00000010 ≠ 0) = btn2 ∧
    decide (flagsOf btn1 btn2 btn3 left down &&& 0b00000100 ≠ 0) = btn3 ∧
    ((flagsOf btn1 btn2 btn3 left down).toNat <<< 4) &&& 0x100 = (if left then 0x100 else 0) ∧
    ((flagsOf btn1 btn2 btn3 left down).toNat <<< 3) &&& 0x100 = if down then 0x100 else 0 := by
  cases btn1 <;> cases btn2 <;> cases btn3 <;> cases left <;> cases down <;> decide

/-- The fields of the last byte of a mouse with five buttons. -/
theorem wheelByte_fields (btn4 btn5 : Bool) {wheel : ℤ} (hwheel : -8 ≤ wheel ∧ wheel < 8) :
    decide (wheelByte btn4 btn5 wheel &&& 0b00010000 ≠ 0) = btn4 ∧
    decide (wheelByte btn4 btn5 wheel &&& 0b00100000 ≠ 0) = btn5 ∧
    wheelOf (wheelByte btn4 btn5 wheel) = wheel := by
  obtain ⟨hlow, hhigh⟩ := hwheel
  interval_cases wheel <;> cases btn4 <;> cases btn5 <;> decide

/-- The last byte of a packet of a mouse with a wheel is read back as the movement of the
wheel. -/
theorem wheelOf_ofInt {wheel : ℤ} (hwheel : -8 ≤ wheel ∧ wheel < 8) :
    wheelOf (UInt8.ofInt wheel) = wheel := by
  obtain ⟨hlow, hhigh⟩ := hwheel
  interval_cases wheel <;> decide

/-- A coordinate between -256 and 255 is its low byte, less 256 if its sign is set. -/
theorem coordinate {d : ℤ} (hd : -256 ≤ d ∧ d < 256) :
    ((UInt8.ofInt d).toNat : ℤ) - ((if decide (d < 0) then 0x100 else 0 : ℕ) : ℤ) = d := by
  have hbyte : ((UInt8.ofInt d).toNat : ℤ) = d % 256 := by
    simp [UInt8.ofInt, UInt8.toNat_ofNat']
    omega
  rw [hbyte]
  simp only [decide_eq_true_eq]
  split_ifs <;> simp <;> omega

/-- **Decoding undoes encoding**: the bytes of a movement in range are reported as this
movement. -/
theorem handleMousePacket_encode {type packetSize : UInt8} (htype : Recognised type packetSize)
    {m : Movement} (hm : m.InRange) (last : UInt8)
    (hlast : packetSize > 3 → last =
      if type ≥ type5Buttons then wheelByte m.btn4 m.btn5 m.wheel else UInt8.ofInt m.wheel) :
    handleMousePacket type (flagsOf m.btn1 m.btn2 m.btn3 (m.dx < 0) (m.dy < 0)) (UInt8.ofInt m.dx)
      (UInt8.ofInt m.dy) last = m.seenBy type := by
  obtain ⟨h1, h2, h3, hx, hy⟩ := flagsOf_fields m.btn1 m.btn2 m.btn3 (m.dx < 0) (m.dy < 0)
  simp only [handleMousePacket, Movement.seenBy, Movement.mk.injEq, h1, h2, hx, hy,
    coordinate hm.dx, coordinate hm.dy, Bool.decide_and, h3, true_and]
  rcases htype with ⟨rfl, -⟩ | ⟨rfl, rfl⟩ | ⟨rfl, rfl⟩
  · simp [show ¬ typeStd ≥ typeWheel by decide, show ¬ typeStd ≥ type5Buttons by decide]
  · have hbyte : last = UInt8.ofInt m.wheel := by
      rw [hlast (by decide), if_neg (by decide)]
    simp [show ¬ typeWheel ≥ type5Buttons by decide, hbyte, wheelOf_ofInt hm.wheel]
  · have hbyte : last = wheelByte m.btn4 m.btn5 m.wheel := by
      rw [hlast (by decide), if_pos (by decide)]
    obtain ⟨h4, h5, hwheel⟩ := wheelByte_fields m.btn4 m.btn5 hm.wheel
    simp only [show type5Buttons ≥ typeWheel by decide, show type5Buttons ≥ type5Buttons by decide,
      decide_true, Bool.true_and, if_true, hbyte, h4, h5, hwheel, Bool.decide_eq_true, and_self]

/-! ### Streams of bytes -/

/-- From a state that expects a packet, the bytes of a whole one are reported at once, before
the rest. -/
theorem irqs_packet (type : UInt8) {packetSize : UInt8} {p : Packet} (hp : p.packetIndex = 0)
    {bytes : List UInt8} (hlength : packetLength packetSize ≤ bytes.length) :
    ∃ q : Packet, q.packetIndex = 0 ∧ irqs type packetSize bytes p =
      handleMousePacket type (bytes.getD 0 0) (bytes.getD 1 0) (bytes.getD 2 0)
          (if packetSize > 3 then bytes.getD 3 0 else 0xff) ::
        irqs type packetSize (bytes.drop (packetLength packetSize)) q := by
  obtain ⟨index, f, x, y⟩ := p
  obtain rfl : index = 0 := hp
  by_cases hsize : packetSize > 3
  · rw [packetLength, if_pos hsize] at hlength
    obtain ⟨b₀, b₁, b₂, b₃, rest, rfl⟩ :
        ∃ b₀ b₁ b₂ b₃ rest, bytes = b₀ :: b₁ :: b₂ :: b₃ :: rest := by
      rcases bytes with - | ⟨b₀, - | ⟨b₁, - | ⟨b₂, - | ⟨b₃, rest⟩⟩⟩⟩
      · simp at hlength
      · simp at hlength
      · simp at hlength
      · simp at hlength
      · exact ⟨b₀, b₁, b₂, b₃, rest, rfl⟩
    exact ⟨⟨0, b₀, b₁, b₂⟩, rfl, by simp [irqs, mouseIRQ, hsize, packetLength]⟩
  · rw [packetLength, if_neg hsize] at hlength
    obtain ⟨b₀, b₁, b₂, rest, rfl⟩ : ∃ b₀ b₁ b₂ rest, bytes = b₀ :: b₁ :: b₂ :: rest := by
      rcases bytes with - | ⟨b₀, - | ⟨b₁, - | ⟨b₂, rest⟩⟩⟩
      · simp at hlength
      · simp at hlength
      · simp at hlength
      · exact ⟨b₀, b₁, b₂, rest, rfl⟩
    exact ⟨⟨0, b₀, b₁, b₂⟩, rfl, by simp [irqs, mouseIRQ, hsize, packetLength]⟩

/-- Fewer bytes than a packet has, from a state that expects one, are not reported. -/
theorem irqs_short {type packetSize : UInt8} {p : Packet} (hp : p.packetIndex = 0)
    {bytes : List UInt8} (hlength : bytes.length < packetLength packetSize) :
    irqs type packetSize bytes p = [] := by
  obtain ⟨index, f, x, y⟩ := p
  obtain rfl : index = 0 := hp
  by_cases hsize : packetSize > 3
  · rw [packetLength, if_pos hsize] at hlength
    rcases bytes with - | ⟨b₀, - | ⟨b₁, - | ⟨b₂, - | ⟨b₃, rest⟩⟩⟩⟩
    · rfl
    · simp [irqs, mouseIRQ]
    · simp [irqs, mouseIRQ]
    · simp [irqs, mouseIRQ, hsize]
    · simp at hlength
      omega
  · rw [packetLength, if_neg hsize] at hlength
    rcases bytes with - | ⟨b₀, - | ⟨b₁, - | ⟨b₂, rest⟩⟩⟩
    · rfl
    · simp [irqs, mouseIRQ]
    · simp [irqs, mouseIRQ]
    · simp at hlength
      omega

/-- A mouse of a recognised type sends packets of the length that the driver expects. -/
theorem length_encode (type packetSize : UInt8) (m : Movement) :
    (encode type packetSize m).length = packetLength packetSize := by
  rw [encode, packetLength]
  split <;> rfl

/-- **Round trip**: whatever movements a mouse of a recognised type sends, one after the other, the
driver reports these movements, each once and in their order, as far as it looks at them. -/
theorem irqs_encode {type packetSize : UInt8} (htype : Recognised type packetSize)
    {ms : List Movement} (hms : ∀ m ∈ ms, m.InRange) :
    irqs type packetSize (ms.flatMap (encode type packetSize)) .start =
      ms.map (Movement.seenBy type) := by
  suffices h : ∀ p : Packet, p.packetIndex = 0 →
      irqs type packetSize (ms.flatMap (encode type packetSize)) p =
        ms.map (Movement.seenBy type) from
    h .start rfl
  induction ms with
  | nil => exact fun p _ => rfl
  | cons m ms ih =>
      intro p hp
      have hlength := length_encode type packetSize m
      have hdrop : (encode type packetSize m ++ ms.flatMap (encode type packetSize)).drop
          (packetLength packetSize) = ms.flatMap (encode type packetSize) := by
        rw [← hlength, List.drop_left]
      have hwhole : packetLength packetSize ≤
          (encode type packetSize m ++ ms.flatMap (encode type packetSize)).length := by
        rw [List.length_append]
        omega
      obtain ⟨q, hq, hpacket⟩ := irqs_packet type hp hwhole
      rw [List.flatMap_cons, hpacket, hdrop, ih (fun m hm => hms m (List.mem_cons_of_mem _ hm)) q
        hq, List.map_cons]
      congr 1
      exact handleMousePacket_encode htype (hms m List.mem_cons_self) _ fun hsize => by
        simp [encode, hsize]

/-- **The driver never looks for the start of a packet**: in every stream of bytes, the reports are
those of the bytes in the places where a packet begins by the count of the bytes, whatever these
bytes are. -/
theorem reports_windows (type packetSize : UInt8) (bytes : List UInt8) (j : ℕ) :
    (irqs type packetSize bytes .start)[j]? =
      if (j + 1) * packetLength packetSize ≤ bytes.length then
        some (handleMousePacket type (bytes.getD (j * packetLength packetSize) 0)
          (bytes.getD (j * packetLength packetSize + 1) 0)
          (bytes.getD (j * packetLength packetSize + 2) 0)
          (if packetSize > 3 then bytes.getD (j * packetLength packetSize + 3) 0 else 0xff))
      else none := by
  suffices h : ∀ p : Packet, p.packetIndex = 0 → (irqs type packetSize bytes p)[j]? =
      if (j + 1) * packetLength packetSize ≤ bytes.length then
        some (handleMousePacket type (bytes.getD (j * packetLength packetSize) 0)
          (bytes.getD (j * packetLength packetSize + 1) 0)
          (bytes.getD (j * packetLength packetSize + 2) 0)
          (if packetSize > 3 then bytes.getD (j * packetLength packetSize + 3) 0 else 0xff))
      else none from h .start rfl
  induction j generalizing bytes with
  | zero =>
      intro p hp
      by_cases hlength : packetLength packetSize ≤ bytes.length
      · obtain ⟨q, -, hpacket⟩ := irqs_packet type hp hlength
        have hwhole : (0 + 1) * packetLength packetSize ≤ bytes.length := by omega
        rw [hpacket, if_pos hwhole, List.getElem?_cons_zero]
        simp only [Nat.zero_mul, Nat.zero_add]
      · rw [irqs_short hp (by omega), if_neg (by omega)]
        rfl
  | succ j ih =>
      intro p hp
      have hsucc : (j + 1 + 1) * packetLength packetSize =
          (j + 1) * packetLength packetSize + packetLength packetSize := Nat.succ_mul _ _
      by_cases hlength : packetLength packetSize ≤ bytes.length
      · obtain ⟨q, hq, hpacket⟩ := irqs_packet type hp hlength
        have hget : ∀ k,
            (bytes.drop (packetLength packetSize)).getD (j * packetLength packetSize + k) 0 =
            bytes.getD ((j + 1) * packetLength packetSize + k) 0 := by
          intro k
          rw [List.getD_eq_getElem?_getD, List.getElem?_drop, List.getD_eq_getElem?_getD]
          congr 2
          rw [Nat.succ_mul]
          omega
        rw [hpacket, List.getElem?_cons_succ, ih _ q hq, List.length_drop]
        have hiff : (j + 1) * packetLength packetSize ≤ bytes.length - packetLength packetSize ↔
            (j + 1 + 1) * packetLength packetSize ≤ bytes.length := by omega
        have hfirst := hget 0
        simp only [Nat.add_zero] at hfirst
        simp only [hiff, hget, hfirst]
      · rw [irqs_short hp (by omega), if_neg (by omega)]
        rfl

/-- Two movements of a mouse with five buttons, one of them with extreme values, are reported
one after the other. -/
theorem irqs_encode_two :
    irqs type5Buttons 4 ([⟨true, false, false, true, false, -256, 255, -8⟩,
        ⟨false, false, true, false, true, 1, -1, 7⟩].flatMap (encode type5Buttons 4)) .start =
      [⟨true, false, false, true, false, -256, 255, -8⟩,
        ⟨false, false, true, false, true, 1, -1, 7⟩] := by
  have hrange : ∀ m ∈ ([⟨true, false, false, true, false, -256, 255, -8⟩,
      ⟨false, false, true, false, true, 1, -1, 7⟩] : List Movement), m.InRange := by
    intro m hm
    simp only [List.mem_cons, List.not_mem_nil, or_false] at hm
    rcases hm with rfl | rfl
    · exact ⟨by decide, by decide, by decide⟩
    · exact ⟨by decide, by decide, by decide⟩
  exact irqs_encode (Or.inr (Or.inr ⟨rfl, rfl⟩)) hrange

end MugOS.PS2.Mouse
