import YiOS.Library.Text
import YiOS.Page

namespace YiOS.Printk

open YiOS.Library

/-! `number()` of `printk.c`. -/

structure Flags where
  zeropad : Bool := false
  sign : Bool := false
  plus : Bool := false
  space : Bool := false
  left : Bool := false
  special : Bool := false
  small : Bool := false
  deriving DecidableEq, Repr

def digits (type : Flags) : List Byte :=
  if type.small then
    ['0', '1', '2', '3', '4', '5', '6', '7', '8', '9', 'a', 'b', 'c', 'd', 'e', 'f', 'g', 'h',
      'i', 'j', 'k', 'l', 'm', 'n', 'o', 'p', 'q', 'r', 's', 't', 'u', 'v', 'w', 'x', 'y',
      'z'].map ch
  else
    ['0', '1', '2', '3', '4', '5', '6', '7', '8', '9', 'A', 'B', 'C', 'D', 'E', 'F', 'G', 'H',
      'I', 'J', 'K', 'L', 'M', 'N', 'O', 'P', 'Q', 'R', 'S', 'T', 'U', 'V', 'W', 'X', 'Y',
      'Z'].map ch

/-- `sign`, `num` and `size` after the `SIGN` branch; no character where `sign` is zero. -/
def signed (type : Flags) (num : U64) (size : Int32) : List Byte × U64 × Int32 :=
  if type.sign then
    if num.toInt < 0 then ([ch '-'], -num, size)
    else if type.plus then ([ch '+'], num, size - 1)
    else if type.space then ([ch ' '], num, size - 1)
    else ([], num, size)
  else ([], num, size)

def specialSize (type : Flags) (base size : Int32) : Int32 :=
  if type.special then
    if base = 16 then size - 2 else if base = 8 then size - 1 else size
  else size

def special (type : Flags) (base : Int32) : List Byte :=
  if type.special then
    if base = 8 then [ch '0']
    else if base = 16 then [ch '0', (digits type).getD 33 0]
    else []
  else []

/-- `tmp[i++] = digits[do_div(num, base)]` while `num` is not zero. -/
def divLoop (digits : List Byte) (base : U64) : Nat → U64 → List Byte
  | 0, _ => []
  | passes + 1, num =>
      if num = 0 then []
      else digits.getD (num % base).toNat 0 :: divLoop digits base passes (num / base)

/-- `tmp[0 .. i - 1]`. -/
def tmp (type : Flags) (num : U64) (base : Int32) : List Byte :=
  if num = 0 then [ch '0'] else divLoop (digits type) (BitVec.ofInt 64 base.toInt) 64 num

/-- The characters from `str` on, or nothing where it returns the null pointer. -/
def number (num : U64) (base size precision : Int32) (type : Flags) : Option (List Byte) :=
  let type := if type.left then { type with zeropad := false } else type
  if base < 2 ∨ 36 < base then none
  else
    let c := if type.zeropad then ch '0' else ch ' '
    let (sign, num, size) := signed type num size
    let size := specialSize type base size
    let tmp := tmp type num base
    let i := Int32.ofNat tmp.length
    let precision := if precision < i then i else precision
    let size := size - precision
    let (before, size) := if type.zeropad || type.left then ([], size) else pad (ch ' ') 0 size
    let (fill, size) := if type.left then ([], size) else pad c 0 size
    let zeros := (pad (ch '0') i precision).1
    let after := (pad (ch ' ') 0 size).1
    some (before ++ sign ++ special type base ++ fill ++ zeros ++ tmp.reverse ++ after)

example : number 0xbeef 16 8 (-1) { small := true, special := true, zeropad := true } =
    some (['0', 'x', '0', '0', 'b', 'e', 'e', 'f'].map ch) := by decide +kernel

theorem divLoop_eq (digits : List Byte) {base : U64} (hbase : 2 ≤ base.toNat) {passes : Nat}
    {num : U64} (hpasses : num.toNat < 2 ^ passes) : divLoop digits base passes num =
      (Nat.digits base.toNat num.toNat).map (digits.getD · 0) := by
  induction passes generalizing num with
  | zero =>
      have hzero : num.toNat = 0 := by omega
      rw [divLoop, hzero, Nat.digits_zero, List.map_nil]
  | succ passes ih =>
      rw [divLoop]
      split
      next hzero => rw [hzero]; simp
      next hne =>
        have hpos : 0 < num.toNat := by
          apply Nat.pos_of_ne_zero
          intro hzero
          exact hne (BitVec.eq_of_toNat_eq hzero)
        have hquotient : (num / base).toNat < 2 ^ passes := by
          rw [BitVec.toNat_udiv]
          apply Nat.div_lt_of_lt_mul
          calc num.toNat < 2 * 2 ^ passes := by rw [Nat.pow_succ] at hpasses; omega
            _ ≤ base.toNat * 2 ^ passes := Nat.mul_le_mul_right _ hbase
        rw [ih hquotient, Nat.digits_def' (by omega) hpos, List.map_cons, BitVec.toNat_umod,
          BitVec.toNat_udiv]

def digitCount (base : Int32) (num : U64) : Nat := Nat.log base.toInt.toNat num.toNat + 1

theorem toNat_base {base : Int32} (hlow : ¬ base < 2) :
    (BitVec.ofInt 64 base.toInt).toNat = base.toInt.toNat ∧ 2 ≤ base.toInt.toNat := by
  have hlt := base.toInt_lt
  rw [Int32.lt_iff_toInt_lt] at hlow
  have htwo : (2 : Int32).toInt = 2 := rfl
  rw [BitVec.toNat_ofInt]
  omega

theorem length_tmp (type : Flags) (num : U64) {base : Int32} (hlow : ¬ base < 2) :
    (tmp type num base).length = digitCount base num := by
  obtain ⟨hbase, htwo⟩ := toNat_base hlow
  unfold tmp digitCount
  split
  next hzero => rw [hzero]; simp
  next hne =>
    have hpos : num.toNat ≠ 0 := fun hzero => hne (BitVec.eq_of_toNat_eq hzero)
    rw [divLoop_eq _ (by omega) num.isLt, List.length_map, hbase,
      Nat.length_digits _ _ htwo hpos]

theorem digitCount_le (num : U64) {base : Int32} (hlow : ¬ base < 2) :
    digitCount base num ≤ 64 := by
  obtain ⟨hbase, htwo⟩ := toNat_base hlow
  have hpow : num.toNat < base.toInt.toNat ^ 64 :=
    lt_of_lt_of_le num.isLt (Nat.pow_le_pow_left htwo 64)
  have hlog := Nat.log_lt_of_lt_pow' (by omega) hpow
  unfold digitCount
  omega

/-! The number of characters. -/

/-- What loops counting `size` down past zero add to the field; each one takes one more off
it, and below the least integer that comes out at the greatest. -/
def padding (loops : Nat) (size : Int32) : Nat :=
  if 0 < size then size.toInt.toNat
  else if size.toInt + 2 ^ 31 + 1 < loops then 2 ^ 31 - 1
  else 0

/-- The loops over `size`: the last one, the one before the digits, the first one. -/
def padLoops (type : Flags) : Nat :=
  if type.left then 1 else if type.zeropad then 2 else 3

/-- The length of a number: its sign, its prefix, its digits filled up to the precision, and
what the width leaves of the field. -/
def numberLength (num : U64) (base size precision : Int32) (type : Flags) : Nat :=
  let (sign, num, size) := signed type num size
  let shown := max precision.toInt.toNat (digitCount base num)
  padding (padLoops type) (specialSize type base size - Int32.ofNat shown) + sign.length +
    (special type base).length + shown

/-- The `n` that `while (n-- > 0)` leaves. -/
def spent (n : Int32) : Int32 := (if 0 < n then 0 else n) - 1

theorem pad_zero (c : Byte) (n : Int32) :
    pad c 0 n = (List.replicate n.toInt.toNat c, spent n) := by
  rw [pad_eq, Int32.toInt_zero, Int.sub_zero, spent]

theorem toInt_spent (n : Int32) : (spent n).toInt =
    if 0 < n.toInt then -1 else if n.toInt = -2 ^ 31 then 2 ^ 31 - 1 else n.toInt - 1 := by
  rw [spent, toInt_pred]
  split
  next hpos =>
    rw [zero_lt_iff] at hpos
    rw [if_pos hpos]
    rfl
  next hneg =>
    rw [zero_lt_iff] at hneg
    rw [if_neg hneg]

theorem shown_eq {base : Int32} (num : U64) (precision : Int32) (type : Flags)
    (hlow : ¬ base < 2) :
    let i := Int32.ofNat (tmp type num base).length
    let shown := max precision.toInt.toNat (digitCount base num)
    (if precision < i then i else precision) = Int32.ofNat shown ∧
      (pad (ch '0') i (Int32.ofNat shown)).1 =
        List.replicate (shown - digitCount base num) (ch '0') := by
  intro i shown
  have hcount := digitCount_le num hlow
  have hprecision := precision.toInt_lt
  have hi : i.toInt = digitCount base num := by
    rw [← length_tmp type num hlow]
    exact Int32.toInt_ofNat_of_lt (by rw [length_tmp type num hlow]; omega)
  have hshown : (Int32.ofNat shown).toInt = shown := Int32.toInt_ofNat_of_lt (by omega)
  constructor
  · apply Int32.toInt_inj.mp
    rw [hshown]
    split
    next hlt =>
      rw [Int32.lt_iff_toInt_lt] at hlt
      omega
    next hge =>
      rw [Int32.lt_iff_toInt_lt] at hge
      omega
  · rw [pad_eq, hshown, hi]
    have hcut : ((shown : Int) - digitCount base num).toNat = shown - digitCount base num :=
      Int.toNat_sub shown (digitCount base num)
    rw [hcut]

/-- The spaces of the first loop, from what is left of the width. -/
def spacesBefore (type : Flags) (room : Int32) : Nat :=
  if type.zeropad || type.left then 0 else room.toInt.toNat

/-- What the loop between the prefix and the digits writes. -/
def fillBetween (type : Flags) (room : Int32) : List Byte :=
  if type.left then []
  else if type.zeropad then List.replicate room.toInt.toNat (ch '0')
  else List.replicate (spent room).toInt.toNat (ch ' ')

def spacesAfter (type : Flags) (room : Int32) : Nat :=
  if type.left then room.toInt.toNat
  else if type.zeropad then (spent room).toInt.toNat
  else (spent (spent room)).toInt.toNat

section Text

variable {num magnitude : U64} {base size size' : Int32} (precision : Int32) {type : Flags}
  {sign : List Byte}

theorem number_text_normal
    (htype : (if type.left then { type with zeropad := false } else type) = type)
    (hsigned : signed type num size = (sign, magnitude, size')) (hlow : ¬ base < 2)
    (hhigh : ¬ 36 < base) :
    let shown := max precision.toInt.toNat (digitCount base magnitude)
    let room := specialSize type base size' - Int32.ofNat shown
    number num base size precision type =
      some (List.replicate (spacesBefore type room) (ch ' ') ++ sign ++ special type base ++
        fillBetween type room ++ List.replicate (shown - digitCount base magnitude) (ch '0') ++
        (tmp type magnitude base).reverse ++
        List.replicate (spacesAfter type room) (ch ' ')) := by
  obtain ⟨hprecision, hzeros⟩ := shown_eq magnitude precision type hlow
  simp only [number, htype, hsigned, hprecision, hzeros, if_neg (not_or.mpr ⟨hlow, hhigh⟩)]
  unfold spacesBefore fillBetween spacesAfter
  cases hleft : type.left with
  | true => simp only [Bool.or_true, if_true, pad_zero, List.replicate_zero]
  | false =>
      cases hzero : type.zeropad with
      | true =>
          simp only [Bool.or_false, Bool.false_eq_true, if_true, if_false, pad_zero,
            List.replicate_zero]
      | false => simp only [Bool.or_false, Bool.false_eq_true, if_false, pad_zero]

theorem number_text (hsigned : signed type num size = (sign, magnitude, size'))
    (hlow : ¬ base < 2) (hhigh : ¬ 36 < base) :
    let shown := max precision.toInt.toNat (digitCount base magnitude)
    let room := specialSize type base size' - Int32.ofNat shown
    number num base size precision type =
      some (List.replicate (spacesBefore type room) (ch ' ') ++ sign ++ special type base ++
        fillBetween type room ++ List.replicate (shown - digitCount base magnitude) (ch '0') ++
        (tmp type magnitude base).reverse ++
        List.replicate (spacesAfter type room) (ch ' ')) := by
  cases hleft : type.left with
  | true =>
      have hnumber : number num base size precision { type with zeropad := false } =
          number num base size precision type := by
        simp only [number, hleft, if_true]
      have hsigned' : signed { type with zeropad := false } num size =
          (sign, magnitude, size') := hsigned
      have htext := number_text_normal precision (by simp) hsigned' hlow hhigh
      rw [hnumber] at htext
      simp only [spacesBefore, fillBetween, spacesAfter, hleft, Bool.or_true,
        if_true] at htext ⊢
      exact htext
  | false => exact number_text_normal precision (by simp [hleft]) hsigned hlow hhigh

end Text

/-- The loops over `size` in one: none of them adds to another but at the end of the
range. -/
theorem length_padding (type : Flags) (room : Int32) :
    spacesBefore type room + (fillBetween type room).length + spacesAfter type room =
      padding (padLoops type) room := by
  have hlow := room.le_toInt
  have hhigh := room.toInt_lt
  have hfirst := toInt_spent room
  have hsecond := toInt_spent (spent room)
  rw [hfirst] at hsecond
  unfold spacesBefore fillBetween spacesAfter padLoops
  cases type.left with
  | true =>
      simp only [Bool.or_true, if_true, padding, zero_lt_iff, List.length_nil]
      split_ifs <;> omega
  | false =>
      cases type.zeropad with
      | true =>
          simp only [Bool.or_false, Bool.false_eq_true, if_true, if_false, padding,
            zero_lt_iff,
            List.length_replicate, hfirst]
          split_ifs <;> omega
      | false =>
          simp only [Bool.or_false, Bool.false_eq_true, if_false, padding, zero_lt_iff,
            List.length_replicate, hfirst, hsecond]
          split_ifs <;> omega

theorem length_number (num : U64) {base : Int32} (size precision : Int32) (type : Flags)
    (hlow : ¬ base < 2) (hhigh : ¬ 36 < base) : ∃ text,
      number num base size precision type = some text ∧
        text.length = numberLength num base size precision type := by
  obtain ⟨sign, magnitude, size', hsigned⟩ : ∃ sign magnitude size',
    signed type num size = (sign, magnitude, size') := ⟨_, _, _, rfl⟩
  refine ⟨_, number_text precision hsigned hlow hhigh, ?_⟩
  have hpadding := length_padding type (specialSize type base size' -
    Int32.ofNat (max precision.toInt.toNat (digitCount base magnitude)))
  simp only [numberLength, hsigned, ← hpadding, List.length_append, List.length_replicate,
    List.length_reverse, length_tmp type magnitude hlow]
  omega

end YiOS.Printk
