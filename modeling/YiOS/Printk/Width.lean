import YiOS.Printk.Number

namespace YiOS.Printk

open YiOS.Library

/-! The field width of a number. -/

def Negative (type : Flags) (num : U64) : Prop := type.sign = true ∧ num.toInt < 0

instance : Decidable (Negative type num) :=
  inferInstanceAs (Decidable (type.sign = true ∧ num.toInt < 0))

def magnitude (type : Flags) (num : U64) : U64 := if Negative type num then -num else num

def signLength (type : Flags) (num : U64) : Nat :=
  if Negative type num then 1
  else if type.sign = true ∧ (type.plus = true ∨ type.space = true) then 1
  else 0

def specialLength (type : Flags) (base : Int32) : Nat :=
  if type.special then if base = 16 then 2 else if base = 8 then 1 else 0 else 0

/-- The digits with the zeros that the precision asks for. -/
def digitsLength (num : U64) (base precision : Int32) (type : Flags) : Int :=
  max precision.toInt (digitCount base (magnitude type num))

/-- What the loops over `size` start from: a minus sign is not taken off. -/
def widthLeft (num : U64) (base size precision : Int32) (type : Flags) : Int :=
  size.toInt - (if Negative type num then 0 else signLength type num) -
    specialLength type base - digitsLength num base precision type

theorem signed_cases (type : Flags) (num : U64) (size : Int32) : ∃ sign,
    signed type num size = (sign, magnitude type num,
      if Negative type num ∨ signLength type num = 0 then size else size - 1) ∧
        sign.length = signLength type num := by
  cases hsign : type.sign with
  | false => exact ⟨[], by simp [signed, magnitude, signLength, Negative, hsign]⟩
  | true =>
      by_cases hneg : num.toInt < 0
      · exact ⟨[ch '-'], by simp [signed, magnitude, signLength, Negative, hsign, hneg]⟩
      · cases hplus : type.plus with
        | true =>
            exact ⟨[ch '+'], by
              simp [signed, magnitude, signLength, Negative, hsign, hneg, hplus]⟩
        | false =>
            cases hspace : type.space with
            | true =>
                exact ⟨[ch ' '], by
                  simp [signed, magnitude, signLength, Negative, hsign, hneg,
                    hplus, hspace]⟩
            | false =>
                exact ⟨[], by
                  simp [signed, magnitude, signLength, Negative, hsign, hneg,
                    hplus, hspace]⟩

theorem length_special (type : Flags) (base : Int32) :
    (special type base).length = specialLength type base := by
  unfold special specialLength
  cases type.special with
  | false => rfl
  | true =>
      by_cases height : base = 8
      · subst height
        rfl
      · simp only [if_true, if_neg height]
        split <;> rfl

theorem toInt_bmod_sub_zero (size : Int32) :
    size.toInt = (size.toInt - 0).bmod (2 ^ 32) := by
  rw [Int.sub_zero]
  exact (Int32.toInt_bmod size).symm

theorem specialSize_toInt (type : Flags) (base size : Int32) :
    (specialSize type base size).toInt =
      (size.toInt - specialLength type base).bmod (2 ^ 32) := by
  unfold specialSize specialLength
  split
  · split
    · exact Int32.toInt_sub size 2
    · split
      · exact Int32.toInt_sub size 1
      · exact toInt_bmod_sub_zero size
  · exact toInt_bmod_sub_zero size

theorem signSize_toInt (type : Flags) (num : U64) (size : Int32) :
    (if Negative type num ∨ signLength type num = 0 then size else size - 1).toInt =
      (size.toInt - (if Negative type num then 0 else signLength type num : Nat)).bmod
        (2 ^ 32) := by
  by_cases hneg : Negative type num
  · rw [if_pos (.inl hneg), if_pos hneg]
    exact toInt_bmod_sub_zero size
  · rw [if_neg hneg]
    by_cases hzero : signLength type num = 0
    · rw [if_pos (.inr hzero), hzero]
      exact toInt_bmod_sub_zero size
    · have hone : signLength type num = 1 := by
        unfold signLength at hzero ⊢
        split_ifs at hzero ⊢ <;> omega
      rw [if_neg (not_or.mpr ⟨hneg, hzero⟩), hone]
      exact Int32.toInt_sub size 1

/-- The loops add what is left of the width, when they can count down to it. -/
theorem padding_iff {left : Int} {room : Int32} {loops : Nat} (hleast : -2 ^ 31 - 1 ≤ left)
    (hmost : left < 2 ^ 30) (hroom : room.toInt = left.bmod (2 ^ 32)) (hone : 1 ≤ loops)
    (hthree : loops ≤ 3) :
    (padding loops room : Int) = max left 0 ↔ loops ≤ left + 2 ^ 31 + 1 := by
  simp only [padding, zero_lt_iff]
  by_cases hwrap : left = -2 ^ 31 - 1
  · have hgreatest : room.toInt = 2 ^ 31 - 1 := by
      rw [hroom, hwrap]
      rfl
    rw [hgreatest]
    split_ifs <;> omega
  · have hexact : room.toInt = left := by
      rw [hroom]
      exact Int.bmod_eq_of_le (by omega) (by omega)
    rw [hexact]
    split_ifs <;> omega

section Field

variable (num : U64) {base size precision : Int32} (type : Flags)

def sizeLeft (num : U64) (base size precision : Int32) (type : Flags) : Int32 :=
  specialSize type base (signed type num size).2.2 -
    Int32.ofNat (max precision.toInt.toNat (digitCount base (signed type num size).2.1))

theorem sizeLeft_toInt (hlow : ¬ base < 2) : (sizeLeft num base size precision type).toInt =
    (widthLeft num base size precision type).bmod (2 ^ 32) := by
  obtain ⟨sign, hsigned, -⟩ := signed_cases type num size
  have hcount := digitCount_le (magnitude type num) hlow
  have hprecision := precision.toInt_lt
  have hshown : (max precision.toInt.toNat (digitCount base (magnitude type num)) : Nat) =
      digitsLength num base precision type := by
    unfold digitsLength digitCount
    omega
  have hofNat : (Int32.ofNat (max precision.toInt.toNat
      (digitCount base (magnitude type num)))).toInt =
        digitsLength num base precision type := by
    rw [← hshown]
    exact Int32.toInt_ofNat_of_lt (by omega)
  rw [sizeLeft, hsigned, Int32.toInt_sub, hofNat, specialSize_toInt, signSize_toInt,
    Int.bmod_sub_bmod, Int.sub_sub, Int.bmod_sub_bmod, ← Int.sub_sub, widthLeft]

theorem numberLength_eq (num : U64) (base size precision : Int32) (type : Flags) :
    (numberLength num base size precision type : Int) =
    padding (padLoops type) (sizeLeft num base size precision type) + signLength type num +
      specialLength type base + digitsLength num base precision type := by
  obtain ⟨sign, hsigned, hsign⟩ := signed_cases type num size
  simp only [numberLength, sizeLeft, hsigned, hsign, length_special,
    digitsLength, digitCount]
  omega

theorem digitsLength_range (hlow : ¬ base < 2) (hprecision : precision.toInt < 2 ^ 30) :
    1 ≤ digitsLength num base precision type ∧
      digitsLength num base precision type < 2 ^ 30 := by
  have hcount := digitCount_le (magnitude type num) hlow
  have hpos : 1 ≤ digitCount base (magnitude type num) := Nat.succ_pos _
  unfold digitsLength
  omega

theorem specialLength_le (type : Flags) (base : Int32) : specialLength type base ≤ 2 := by
  unfold specialLength
  split_ifs <;> omega

theorem signLength_le (type : Flags) (num : U64) : signLength type num ≤ 1 := by
  unfold signLength
  split_ifs <;> omega

theorem padLoops_range (type : Flags) : 1 ≤ padLoops type ∧ padLoops type ≤ 3 := by
  unfold padLoops
  split_ifs <;> omega

/-- Sizes and precisions of at most thirty bits leave the range of `int` by one at most. -/
theorem widthLeft_range (hlow : ¬ base < 2)
    (hsize : -2 ^ 30 < size.toInt ∧ size.toInt < 2 ^ 30)
    (hprecision : precision.toInt < 2 ^ 30) :
    -2 ^ 31 - 1 ≤ widthLeft num base size precision type ∧
      widthLeft num base size precision type < 2 ^ 30 := by
  have hdigits := digitsLength_range num type hlow hprecision
  have hspecial := specialLength_le type base
  have hsign := signLength_le type num
  unfold widthLeft
  split_ifs <;> omega

/-- A number fills its field, or goes over it by its sign, prefix and digits, but for a
minus sign in a field that has room, and for a width that counting down takes below the
least integer. -/
theorem number_width_iff (hbase : base = 8 ∨ base = 10 ∨ base = 16)
    (hsize : -2 ^ 30 < size.toInt ∧ size.toInt < 2 ^ 30)
    (hprecision : -2 ^ 30 < precision.toInt ∧ precision.toInt < 2 ^ 30) :
    (∃ text, number num base size precision type = some text ∧
      (text.length : Int) = max size.toInt (signLength type num + specialLength type base +
        digitsLength num base precision type)) ↔
      (Negative type num → widthLeft num base size precision type ≤ 0) ∧
        padLoops type ≤ widthLeft num base size precision type + 2 ^ 31 + 1 := by
  have hrange : ¬ base < 2 ∧ ¬ 36 < base := by
    rcases hbase with rfl | rfl | rfl <;> decide
  obtain ⟨text, hnumber, hlength⟩ := length_number num size precision type hrange.1 hrange.2
  obtain ⟨hleast, hmost⟩ := widthLeft_range num type hrange.1 hsize
    hprecision.2
  have hfield := numberLength_eq num base size precision type
  have hloops := padLoops_range type
  have hpadding := padding_iff hleast hmost
    (sizeLeft_toInt num type hrange.1) hloops.1 hloops.2
  simp only [hnumber, Option.some.injEq, exists_eq_left', hlength, hfield]
  by_cases hneg : Negative type num
  · have hone : signLength type num = 1 := if_pos hneg
    have hleft : widthLeft num base size precision type =
      size.toInt - specialLength type base -
        digitsLength num base precision type := by
      rw [widthLeft, if_pos hneg, Nat.cast_zero, Int.sub_zero]
    rw [← hpadding, hone]
    constructor
    · intro h
      exact ⟨fun _ => by omega, by omega⟩
    · intro h
      have hle := h.1 hneg
      omega
  · have hleft : widthLeft num base size precision type = size.toInt - signLength type num -
        specialLength type base - digitsLength num base precision type := by
      rw [widthLeft, if_neg hneg]
    rw [← hpadding]
    constructor
    · intro h
      exact ⟨fun h' => absurd h' hneg, by omega⟩
    · intro h
      have heq := h.2
      omega

end Field

theorem number_width_iff_five :
    (∃ text, number 5 10 8 (-1) { sign := true } = some text ∧
      (text.length : Int) = max (8 : Int32).toInt (signLength { sign := true } 5 +
        specialLength { sign := true } 10 + digitsLength 5 10 (-1) { sign := true })) ↔
      (Negative { sign := true } 5 → widthLeft 5 10 8 (-1) { sign := true } ≤ 0) ∧
        padLoops { sign := true } ≤ widthLeft 5 10 8 (-1) { sign := true } + 2 ^ 31 + 1 :=
  number_width_iff 5 { sign := true } (.inr (.inl rfl)) (by decide) (by decide)

/-- `%5d` of -5 takes six characters. -/
theorem number_not_width : ¬ ∀ num base size precision type,
    base = 8 ∨ base = 10 ∨ base = 16 → -2 ^ 30 < size.toInt ∧ size.toInt < 2 ^ 30 →
      -2 ^ 30 < precision.toInt ∧ precision.toInt < 2 ^ 30 →
        ∃ text, number num base size precision type = some text ∧
          (text.length : Int) = max size.toInt (signLength type num +
            specialLength type base + digitsLength num base precision type) := by
  intro h
  obtain ⟨text, hnumber, hlength⟩ := h (-5) 10 5 (-1) { sign := true } (.inr (.inl rfl))
    (by decide) (by decide)
  have htext : number (-5) 10 5 (-1) { sign := true } =
      some ([' ', ' ', ' ', ' ', '-', '5'].map ch) := by decide +kernel
  rw [htext, Option.some.injEq] at hnumber
  subst hnumber
  revert hlength
  decide +kernel

end YiOS.Printk
