namespace BlockStream

/-- Bit `i` of a byte string, which is bit `i % 8` of byte `i / 8`; past the end all bits are
clear. -/
def bitAt (bytes : ByteArray) (i : Nat) : Bool :=
  if h : i / 8 < bytes.size then bytes[i / 8].toNat.testBit (i % 8) else false

/-- The number whose binary digits are the `width` bits from position `start` on, the lowest
first. -/
def fieldAt (bytes : ByteArray) : (start width : Nat) → Nat
  | _, 0 => 0
  | start, width + 1 => (bitAt bytes start).toNat + 2 * fieldAt bytes (start + 1) width

/-- The `width` low binary digits of a number, the lowest first. -/
def bitsOf : (width value : Nat) → List Bool
  | 0, _ => []
  | width + 1, value => (value % 2 == 1) :: bitsOf width (value / 2)

/-- A number to be stored in so many bits; digits above the width are dropped. -/
structure Field where
  width : Nat
  value : Nat
  deriving DecidableEq, Repr

def Field.bits (f : Field) : List Bool := bitsOf f.width f.value

theorem length_bitsOf (width value : Nat) : (bitsOf width value).length = width := by
  induction width generalizing value with
  | zero => rfl
  | succ width ih => simp [bitsOf, ih]

theorem testBit_fieldAt (bytes : ByteArray) (start width i : Nat) :
    (fieldAt bytes start width).testBit i = (decide (i < width) && bitAt bytes (start + i)) := by
  induction width generalizing start i with
  | zero => simp [fieldAt]
  | succ width ih =>
    cases i with
    | zero => cases h : bitAt bytes start <;> simp [fieldAt, h, Nat.testBit_zero]
    | succ i =>
      have hhalf : fieldAt bytes start (width + 1) / 2 = fieldAt bytes (start + 1) width := by
        have := Bool.toNat_le (bitAt bytes start)
        simp only [fieldAt]
        omega
      rw [Nat.testBit_succ, hhalf, ih]
      simp [Nat.add_assoc, Nat.add_comm 1 i]

namespace Vbr

/-- The bit of a chunk that says that another one follows. -/
def flag (payload : Nat) : Nat := 1 <<< payload

def chunks (payload value : Nat) : List Nat :=
  if payload = 0 ∨ value < flag payload then [value]
  else (flag payload + value % flag payload) :: chunks payload (value >>> payload)
termination_by value
decreasing_by
  rename_i h
  obtain ⟨hp, hv⟩ := not_or.mp h
  rw [flag, Nat.one_shiftLeft] at hv
  rw [Nat.shiftRight_eq_div_pow]
  exact Nat.div_lt_self (Nat.lt_of_lt_of_le (Nat.two_pow_pos _) (Nat.le_of_not_lt hv))
    (Nat.one_lt_two_pow hp)

def ofChunks (payload : Nat) : List Nat → Nat
  | [] => 0
  | chunk :: rest => chunk % flag payload + ofChunks payload rest <<< payload

def fields (width value : Nat) : List Field :=
  (chunks (width - 1) value).map fun chunk ↦ ⟨width, chunk⟩

/-- The unsigned form of a signed number: twice its magnitude, plus one if it is negative. The
least number, whose doubled magnitude does not fit, is left with the sign alone. -/
def fold (x : Int64) : UInt64 :=
  if x < 0 then (2 * x.toInt.natAbs + 1).toUInt64 else (2 * x.toInt.natAbs).toUInt64

/-- The signed number of an unsigned form; a sign without a magnitude is the least number. -/
def unfold (v : UInt64) : Int64 :=
  let magnitude := v.toNat / 2
  if v.toNat % 2 = 0 then Int64.ofNat magnitude
  else if magnitude = 0 then Int64.minValue
  else -Int64.ofNat magnitude

end Vbr

end BlockStream
