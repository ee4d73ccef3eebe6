import YiOS.Printk.Width

namespace YiOS.Printk

open YiOS.Library

/-! What a printed number reads as. -/

/-- The value that the digits stand for, the first one first. -/
def readDigits (type : Flags) (base : Nat) (text : List Byte) : Nat :=
  text.foldl (fun value c => value * base + (digits type).idxOf c) 0

/-- The text is how the base writes a number, in the digit case of the flags. -/
structure Canonical (type : Flags) (base : Nat) (text : List Byte) : Prop where
  nonempty : text ≠ []
  digits : ∀ c ∈ text, c ∈ (digits type).take base
  leading : text.head? = some (ch '0') → text = [ch '0']

/-- The digits of a number, a zero for zero, the last one first. -/
def digitsOf (base num : Nat) : List Nat := if num = 0 then [0] else Nat.digits base num

theorem digitsOf_ne_nil (base num : Nat) : digitsOf base num ≠ [] := by
  unfold digitsOf
  split
  · exact List.cons_ne_nil 0 []
  next hne => exact Nat.digits_ne_nil_iff_ne_zero.mpr hne

theorem digitsOf_lt {base num : Nat} (hbase : 1 < base) :
    ∀ d ∈ digitsOf base num, d < base := by
  intro d hd
  unfold digitsOf at hd
  split at hd
  · have hzero : d = 0 := List.mem_singleton.mp hd
    omega
  · exact Nat.digits_lt_base hbase hd

theorem ofDigits_digitsOf (base num : Nat) :
    Nat.ofDigits base (digitsOf base num) = num := by
  unfold digitsOf
  split
  next hzero => simp [hzero]
  next => exact Nat.ofDigits_digits base num

theorem tmp_eq (type : Flags) (num : U64) {base : Int32} (hlow : ¬ base < 2) :
    tmp type num base =
      (digitsOf base.toInt.toNat num.toNat).map ((digits type).getD · 0) := by
  obtain ⟨hbase, htwo⟩ := toNat_base hlow
  unfold tmp digitsOf
  split
  next hzero =>
    have hnum : num.toNat = 0 := congrArg BitVec.toNat hzero
    rw [if_pos hnum]
    unfold digits
    cases type.small <;> rfl
  next hne =>
    have hpos : num.toNat ≠ 0 := fun hzero => hne (BitVec.eq_of_toNat_eq hzero)
    rw [divLoop_eq _ (by omega) num.isLt, hbase, if_neg hpos]

section Digits

variable {type : Flags} {base : Nat}

theorem idxOf_digit (type : Flags) {d : Nat} (hd : d < 36) :
    (digits type).idxOf ((digits type).getD d 0) = d := by
  have hall : ∀ d : Fin 36, (digits type).idxOf ((digits type).getD d 0) = d := by
    unfold digits
    cases type.small <;> decide
  exact hall ⟨d, hd⟩

theorem digit_mem_take (type : Flags) {d : Nat} (hd : d < base) (hbase : base ≤ 36) :
    (digits type).getD d 0 ∈ (digits type).take base := by
  have hlength : (digits type).length = 36 := by
    unfold digits
    cases type.small <;> rfl
  rw [List.getD_eq_getElem _ _ (by omega), List.mem_take_iff_getElem]
  exact ⟨d, by omega, rfl⟩

theorem digit_eq_zero (type : Flags) {d : Nat} (hd : d < 36)
    (hzero : (digits type).getD d 0 = ch '0') : d = 0 := by
  have hfirst : (digits type).idxOf (ch '0') = 0 := by
    unfold digits
    cases type.small <;> rfl
  rw [← idxOf_digit type hd, hzero, hfirst]

theorem readDigits_digits (hbase : base ≤ 36) {l : List Nat} (hl : ∀ d ∈ l, d < base) :
    readDigits type base (l.map ((digits type).getD · 0)).reverse =
      Nat.ofDigits base l := by
  unfold readDigits
  rw [List.foldl_reverse]
  induction l with
  | nil => rfl
  | cons d l ih =>
      rw [List.forall_mem_cons] at hl
      rw [List.map_cons, List.foldr_cons, ih hl.2, idxOf_digit type (by omega),
        Nat.ofDigits_cons, Nat.mul_comm base, Nat.add_comm]

theorem canonical_digits (hone : 1 < base) (hbase : base ≤ 36) (num : Nat) :
    Canonical type base ((digitsOf base num).map ((digits type).getD · 0)).reverse where
  nonempty := by
    simpa using digitsOf_ne_nil base num
  digits := by
    intro c hc
    rw [List.mem_reverse, List.mem_map] at hc
    obtain ⟨d, hd, rfl⟩ := hc
    exact digit_mem_take type (digitsOf_lt hone d hd) hbase
  leading := by
    intro hhead
    rw [List.head?_reverse, List.getLast?_map, Option.map_eq_some_iff] at hhead
    obtain ⟨d, hlast, hchar⟩ := hhead
    have hmem := List.mem_of_getLast? hlast
    have hd : d = 0 := digit_eq_zero type
      (lt_of_lt_of_le (digitsOf_lt hone d hmem) hbase) hchar
    have hnum : num = 0 := by
      by_contra hne
      rw [digitsOf, if_neg hne, List.getLast?_eq_some_getLast
        (Nat.digits_ne_nil_iff_ne_zero.mpr hne), Option.some.injEq] at hlast
      exact Nat.getLast_digit_ne_zero base hne (hlast.trans hd)
    subst hd
    rw [digitsOf, if_pos hnum, List.map_singleton, List.reverse_singleton, hchar]

end Digits

/-! The sign. -/

theorem toInt_magnitude (type : Flags) (num : U64) :
    (if Negative type num then -((magnitude type num).toNat : Int)
      else (magnitude type num).toNat) =
        if type.sign then num.toInt else (num.toNat : Int) := by
  have hlt := num.isLt
  unfold magnitude
  by_cases hneg : Negative type num
  · have hnegative := hneg.2
    rw [BitVec.toInt_eq_toNat_cond] at hnegative
    rw [if_pos hneg, if_pos hneg, if_pos hneg.1, BitVec.toNat_neg,
      BitVec.toInt_eq_toNat_cond]
    split_ifs at hnegative ⊢ <;> omega
  · rw [if_neg hneg, if_neg hneg]
    split
    next hsign =>
      have hpositive : ¬ num.toInt < 0 := fun h => hneg ⟨hsign, h⟩
      rw [BitVec.toInt_eq_toNat_cond] at hpositive ⊢
      split_ifs at hpositive ⊢ <;> omega
    next => rfl

/-- The sign character is a minus sign exactly for a negative value. -/
theorem signed_sign (type : Flags) (num : U64) (size : Int32) :
    (signed type num size).1 ∈ [[], [ch '-'], [ch '+'], [ch ' ']] ∧
      ((signed type num size).1 = [ch '-'] ↔ Negative type num) := by
  have hplus : [ch '+'] ≠ [ch '-'] := by decide
  have hspace : [ch ' '] ≠ [ch '-'] := by decide
  unfold signed Negative
  split_ifs <;> simp_all

/-- Spaces on the side that the flags select, the sign, the prefix, zeros, and the magnitude
as the base writes it, which reads back as the value; `tmp` holds it. -/
def Faithful (num : U64) (base size precision : Int32) (type : Flags) : Prop :=
  ∃ before sign zeros text after,
    number num base size precision type = some (List.replicate before (ch ' ') ++ sign ++
      special type base ++ List.replicate zeros (ch '0') ++ text ++
        List.replicate after (ch ' ')) ∧
    sign ∈ [[], [ch '-'], [ch '+'], [ch ' ']] ∧
    (sign = [ch '-'] ↔ Negative type num) ∧
    Canonical type base.toInt.toNat text ∧
    (if sign = [ch '-'] then -(readDigits type base.toInt.toNat text : Int)
      else readDigits type base.toInt.toNat text) =
        (if type.sign then num.toInt else (num.toNat : Int)) ∧
    (type.left = true → before = 0) ∧ (type.left = false → after = 0) ∧
    (tmp type (magnitude type num) base).length ≤ 128

section Field

variable {num : U64} {base size precision : Int32} {type : Flags}

/-- Where no loop counts past the least integer, the later ones write nothing. -/
theorem fields_eq {room : Int32} (hroom : padLoops type ≤ room.toInt + 2 ^ 31 + 1) :
    (∃ zeros, fillBetween type room = List.replicate zeros (ch '0')) ∧
      (type.left = true → spacesBefore type room = 0) ∧
        (type.left = false → spacesAfter type room = 0) := by
  have hfirst := toInt_spent room
  have hsecond := toInt_spent (spent room)
  rw [hfirst] at hsecond
  unfold padLoops at hroom
  unfold fillBetween spacesBefore spacesAfter
  cases hleft : type.left with
  | true => exact ⟨⟨0, rfl⟩, fun _ => by simp, fun h => absurd h (by decide)⟩
  | false =>
      rw [hleft] at hroom
      cases hzero : type.zeropad with
      | true =>
          rw [hzero] at hroom
          simp only [Bool.false_eq_true, if_false, if_true] at hroom ⊢
          refine ⟨⟨_, rfl⟩, fun h => absurd h (by decide), fun _ => ?_⟩
          rw [hfirst]
          split_ifs <;> omega
      | false =>
          rw [hzero] at hroom
          simp only [Bool.false_eq_true, if_false] at hroom ⊢
          refine ⟨⟨0, ?_⟩, fun h => absurd h (by decide), fun _ => ?_⟩
          · have hnone : (spent room).toInt.toNat = 0 := by
              rw [hfirst]
              split_ifs <;> omega
            rw [hnone]
            rfl
          · rw [hsecond]
            split_ifs <;> omega

/-- A number is printed faithfully unless its width is counted past the least integer. -/
theorem number_faithful (hbase : 2 ≤ base ∧ base ≤ 36)
    (hsize : -2 ^ 30 < size.toInt ∧ size.toInt < 2 ^ 30)
    (hprecision : -2 ^ 30 < precision.toInt ∧ precision.toInt < 2 ^ 30)
    (hleft : padLoops type ≤ widthLeft num base size precision type + 2 ^ 31 + 1) :
    Faithful num base size precision type := by
  have hlow := Int32.not_lt.mpr hbase.1
  have hhigh := Int32.not_lt.mpr hbase.2
  have hbase' : 1 < base.toInt.toNat ∧ base.toInt.toNat ≤ 36 := by
    have htwo := Int32.le_iff_toInt_le.mp hbase.1
    have hmost := Int32.le_iff_toInt_le.mp hbase.2
    have htwo' : (2 : Int32).toInt = 2 := rfl
    have hmost' : (36 : Int32).toInt = 36 := rfl
    omega
  obtain ⟨sign, hsigned, -⟩ := signed_cases type num size
  have hsign := signed_sign type num size
  have htext := number_text precision hsigned hlow hhigh
  have hloops := padLoops_range type
  have hrange := widthLeft_range num type hlow hsize hprecision.2
  have hexact : (sizeLeft num base size precision type).toInt =
      widthLeft num base size precision type := by
    rw [sizeLeft_toInt num type hlow]
    exact Int.bmod_eq_of_le (by omega) (by omega)
  have hroom : padLoops type ≤
      (sizeLeft num base size precision type).toInt + 2 ^ 31 + 1 := by omega
  obtain ⟨⟨fill, hfill⟩, hbefore, hafter⟩ := fields_eq hroom
  rw [hsigned] at hsign
  simp only [sizeLeft, hsigned] at hfill hbefore hafter
  simp only [hfill] at htext
  have hread : readDigits type base.toInt.toNat
    (tmp type (magnitude type num) base).reverse =
      (magnitude type num).toNat := by
    rw [tmp_eq type _ hlow, readDigits_digits hbase'.2 (digitsOf_lt hbase'.1),
      ofDigits_digitsOf]
  refine ⟨_, sign, fill + (max precision.toInt.toNat (digitCount base (magnitude type num)) -
    digitCount base (magnitude type num)),
    (tmp type (magnitude type num) base).reverse, _, ?_,
    hsign.1, hsign.2, ?_, ?_, hbefore, hafter, ?_⟩
  · rw [htext, List.replicate_add]
    simp only [List.append_assoc]
  · rw [tmp_eq type _ hlow]
    exact canonical_digits hbase'.1 hbase'.2 _
  · rw [hread, ← toInt_magnitude type num]
    simp only [hsign.2]
  · have hcount := digitCount_le (magnitude type num) hlow
    rw [length_tmp type _ hlow]
    omega

end Field

theorem number_faithful_beef :
    Faithful 0xbeef 16 8 (-1) { special := true, small := true } :=
  number_faithful (by decide) (by decide) (by decide) (by decide +kernel)

/-- A precision of `2 ^ 30 - 1` in a width of `1 - 2 ^ 30` ends in spaces on the wrong side. -/
theorem number_not_faithful : ¬ ∀ num base size precision type, 2 ≤ base ∧ base ≤ 36 →
    -2 ^ 30 < size.toInt ∧ size.toInt < 2 ^ 30 →
      -2 ^ 30 < precision.toInt ∧ precision.toInt < 2 ^ 30 →
        Faithful num base size precision type := by
  intro h
  obtain ⟨before, sign, zeros, text, after, hnumber, -, -, hcanonical, -, -, hafter, -⟩ :=
    h 0 10 (-1073741823) 1073741823 { sign := true, plus := true } (by decide) (by decide)
      (by decide)
  have hsigned : signed { sign := true, plus := true } 0 (-1073741823) =
      ([ch '+'], 0, -1073741824) := by decide +kernel
  have hlow : ¬ (10 : Int32) < 2 := by decide
  have htext := number_text 1073741823 hsigned hlow (by decide)
  rw [hafter rfl, List.replicate_zero, List.append_nil] at hnumber
  rw [hnumber, Option.some.injEq] at htext
  have hspaces : spacesAfter { sign := true, plus := true }
      (specialSize { sign := true, plus := true } 10 (-1073741824) -
        Int32.ofNat (max (1073741823 : Int32).toInt.toNat (digitCount 10 0))) =
          2147483646 + 1 := by decide +kernel
  simp only [hspaces] at htext
  have hlast := congrArg List.getLast? htext
  rw [List.replicate_succ', ← List.append_assoc, List.getLast?_concat,
    List.getLast?_append_of_ne_nil _ hcanonical.nonempty] at hlast
  have hspace := hcanonical.digits _ (List.mem_of_getLast? hlast)
  revert hspace
  decide +kernel

end YiOS.Printk
