import YiOS.Printk.Compose

namespace YiOS.Printk

open YiOS.Library

/-! `%c` and `%s`. -/

theorem digitsValue_concat (digits : List (Fin 10)) (digit : Fin 10) :
    digitsValue (digits ++ [digit]) = digitsValue digits * 10 + digit := by
  simp only [digitsValue, List.reverse_append, List.reverse_singleton,
    List.singleton_append,
    List.map_cons, Nat.ofDigits_cons]
  omega

theorem toInt_digit (digit : Fin 10) :
    (Int32.ofNat (digitChar digit).toNat - 48).toInt = digit := by
  revert digit
  decide

/-- A number that an `int` holds is scanned exactly. -/
theorem scanned_toInt {digits : List (Fin 10)} (hsmall : digitsValue digits < 2 ^ 31) :
    (scanned 0 digits).toInt = digitsValue digits := by
  induction digits using List.reverseRecOn with
  | nil => rfl
  | append_singleton digits digit ih =>
      rw [digitsValue_concat] at hsmall ⊢
      have hprefix := ih (by omega)
      have hten : (10 : Int32).toInt = 10 := rfl
      have hproduct : (scanned 0 digits * 10).toInt = digitsValue digits * 10 := by
        rw [Int32.toInt_mul, hprefix, hten]
        exact Int.bmod_eq_of_le (by omega) (by omega)
      have hscan : scanned 0 (digits ++ [digit]) =
          scanned 0 digits * 10 + (Int32.ofNat (digitChar digit).toNat - 48) := by
        rw [scanned, scanned, List.foldl_append, List.foldl_cons, List.foldl_nil]
      rw [hscan, Int32.toInt_add, hproduct, toInt_digit]
      rw [Int.bmod_eq_of_le (by omega) (by omega)]
      omega

theorem left_foldl (flags : Flags) (read : List Flag) :
    (read.foldl Flags.set flags).left = (flags.left || read.contains .left) := by
  induction read generalizing flags with
  | nil => simp
  | cons flag read ih =>
      have hset : (flags.set flag).left = (flags.left || Flag.left == flag) := by
        cases flag <;> simp [Flags.set]
      rw [List.foldl_cons, ih, hset, List.contains_cons, Bool.or_assoc]

theorem directive_left (form : Form) :
    form.directive.flags.left = form.flags.contains .left := by
  rw [Form.directive, left_foldl, Bool.false_or]

theorem directive_width (form : Form) (hsmall : digitsValue form.width < 2 ^ 31) :
    form.directive.width.toInt =
      if form.width = [] then -1 else (digitsValue form.width : Int) := by
  unfold Form.directive
  split
  next => simp
  next => simp [scanned_toInt hsmall]

theorem directive_precision (form : Form)
    (hsmall : ∀ digits ∈ form.precision, digitsValue digits < 2 ^ 31) :
    form.directive.precision.toInt =
      form.precision.elim (-1) fun digits => (digitsValue digits : Int) := by
  unfold Form.directive
  cases hprecision : form.precision with
  | none => rfl
  | some digits =>
      have hscan := scanned_toInt (hsmall digits hprecision)
      have hpositive : ¬ scanned 0 digits < 0 := by
        rw [Int32.lt_iff_toInt_lt, hscan, Int32.toInt_zero]
        omega
      simp only [Option.elim_some, if_neg hpositive]
      split
      next hnil =>
        rw [hnil]
        rfl
      next => exact hscan

/-- The text padded to a width, on the right or on the left. -/
def padded (left : Bool) (width : Nat) (text : List Byte) : List Byte :=
  if left then text ++ List.replicate (width - text.length) (ch ' ')
  else List.replicate (width - text.length) (ch ' ') ++ text

theorem charText_padded (d : Directive) (word : U64) (hwidth : -1 ≤ d.width.toInt) :
    d.charText word = padded d.flags.left d.width.toInt.toNat [word.setWidth 8] := by
  have hone := toInt_pred d.width
  rw [if_neg (by omega)] at hone
  have hspent := toInt_spent (d.width - 1)
  rw [spent, hone] at hspent
  have hpad : (d.width.toInt - 1).toNat = d.width.toInt.toNat - 1 := by omega
  unfold Directive.charText padded
  cases d.flags.left with
  | true => simp only [prePad_eq, if_true, hone, hpad, List.length_singleton,
      List.nil_append,
      List.singleton_append]
  | false =>
      have hnone : ((if 0 < d.width - 1 then 0 else d.width - 1) - 1).toInt.toNat = 0 := by
        rw [hspent]
        split_ifs <;> omega
      simp only [prePad_eq, Bool.false_eq_true, if_false, hone, hpad, hnone,
        List.length_singleton, List.replicate_zero]

theorem shownLength_toInt (precision : Int32) {s : List Byte} (hs : s.length < 2 ^ 31) :
    (shownLength precision s).toInt =
      ((if precision < 0 then s else s.take precision.toInt.toNat).length : Int) := by
  have hlen : (Int32.ofNat s.length).toInt = s.length := Int32.toInt_ofNat_of_lt hs
  dsimp only [shownLength]
  split
  next hnone => exact hlen
  next hsome =>
    rw [Int32.lt_iff_toInt_lt, Int32.toInt_zero] at hsome
    rw [List.length_take]
    split
    next hless =>
      rw [Int32.lt_iff_toInt_lt, hlen] at hless
      omega
    next hless =>
      rw [Int32.lt_iff_toInt_lt, hlen] at hless
      omega

theorem stringText_padded (d : Directive) {s : List Byte} (hwidth : -1 ≤ d.width.toInt)
    (hs : s.length < 2 ^ 31) : d.stringText s =
      padded d.flags.left d.width.toInt.toNat
        (if d.precision < 0 then s else s.take d.precision.toInt.toNat) := by
  have hshown := shownLength_toInt d.precision hs
  have htake : s.take (shownLength d.precision s).toInt.toNat =
      if d.precision < 0 then s else s.take d.precision.toInt.toNat := by
    rw [hshown, Int.toNat_natCast]
    split
    · exact List.take_length
    · rw [List.length_take, List.take_eq_take_min, Nat.min_assoc, Nat.min_self,
        ← List.take_eq_take_min]
  have hpad : (d.width.toInt - (shownLength d.precision s).toInt).toNat =
    d.width.toInt.toNat -
      (if d.precision < 0 then s else s.take d.precision.toInt.toNat).length := by
    omega
  rw [stringText_eq]
  unfold padded
  cases d.flags.left with
  | true => simp only [pad_eq, if_true, List.nil_append, htake, hpad]
  | false =>
      have hnone : (((if shownLength d.precision s < d.width then shownLength d.precision s
          else d.width) - 1).toInt - (shownLength d.precision s).toInt).toNat = 0 := by
        by_cases hless : shownLength d.precision s < d.width
        · rw [if_pos hless, toInt_pred]
          split_ifs <;> omega
        · rw [if_neg hless, toInt_pred]
          rw [Int32.lt_iff_toInt_lt] at hless
          split_ifs <;> omega
      simp only [pad_eq, Bool.false_eq_true, if_false, htake, hpad, hnone,
        List.replicate_zero,
        List.append_nil]

/-- What `%c` and `%s` are to show: the character, or the string up to the precision. -/
def Form.shown (form : Form) (arg : VaList) : List Byte :=
  if form.conversion = .c then [(arg.slot 0).setWidth 8]
  else form.precision.elim (arg.pointed (arg.slot 0)) fun digits =>
    (arg.pointed (arg.slot 0)).take (digitsValue digits)

theorem directive_width_toNat {form : Form} (hsmall : digitsValue form.width < 2 ^ 31) :
    -1 ≤ form.directive.width.toInt ∧
      form.directive.width.toInt.toNat = digitsValue form.width := by
  rw [directive_width form hsmall]
  split
  next hnil =>
    rw [hnil]
    exact ⟨le_rfl, rfl⟩
  next => exact ⟨by omega, Int.toNat_natCast _⟩

theorem shown_string {form : Form} (arg : VaList) (hsmall : form.Small)
    (hconversion : form.conversion = .s) :
    (if form.directive.precision < 0 then arg.pointed (arg.slot 0)
      else (arg.pointed (arg.slot 0)).take form.directive.precision.toInt.toNat) =
      form.shown arg := by
  have hprecision := directive_precision form hsmall.2
  have hother : Conversion.s ≠ Conversion.c := by decide
  rw [Form.shown, hconversion, if_neg hother]
  cases hdigits : form.precision with
  | none =>
      rw [hdigits] at hprecision
      have hnegative : form.directive.precision < 0 := by
        rw [Int32.lt_iff_toInt_lt, hprecision]
        decide
      rw [if_pos hnegative]
      rfl
  | some digits =>
      rw [hdigits] at hprecision
      have hpositive : ¬ form.directive.precision < 0 := by
        rw [Int32.lt_iff_toInt_lt, hprecision, Int32.toInt_zero, Option.elim_some]
        omega
      rw [if_neg hpositive, hprecision]
      rfl

/-- `%c` and `%s` show their text padded with spaces to the width, to the left of it or,
with the flag `-`, to the right. -/
theorem myprintf_string (form : Form) (string : U64) (size : BitVec 32) (arg : VaList)
    (base : Int32) (hsmall : form.Small)
    (hconversion : form.conversion = .c ∨ form.conversion = .s)
    (hs : form.conversion = .s → (arg.pointed (arg.slot 0)).length < 2 ^ 31) :
    (myprintf string size form.chars arg base).text =
      padded (form.flags.contains .left) (digitsValue form.width) (form.shown arg) := by
  have halone := text_items string size [.directive form] arg base
  rw [format, List.flatMap_singleton, Item.chars, itemsText, itemsText,
    List.append_nil] at halone
  obtain ⟨hleast, hwidth⟩ := directive_width_toNat hsmall.1
  rw [halone, ← directive_left, ← hwidth]
  cases hconversion with
  | inl hc =>
      have htext : form.text arg (arg.slot 0) = form.directive.charText (arg.slot 0) := by
        simp only [Form.text, Form.piece, Piece.outputs, VaList.convert,
          conversionOf_char, hc]
      rw [htext, charText_padded _ _ hleast, Form.shown, if_pos hc]
  | inr hc =>
      have htext : form.text arg (arg.slot 0) =
          form.directive.stringText (arg.pointed (arg.slot 0)) := by
        simp only [Form.text, Form.piece, Piece.outputs, VaList.convert,
          conversionOf_char, hc]
      rw [htext, stringText_padded _ hleast (hs hc), shown_string arg hsmall hc]

/-- `%5.2s` -/
def shortString : Form where
  flags := []
  width := [5]
  precision := some [2]
  length := none
  conversion := .s
  hwidth := by decide
  hconversion := by decide

theorem shortString_small : shortString.Small := by
  refine ⟨by decide, fun digits hdigits => ?_⟩
  rw [shortString, Option.mem_some_iff] at hdigits
  subst hdigits
  decide

theorem myprintf_string_null :
    (myprintf 0x80000 64 shortString.chars noArguments 0).text =
      padded (shortString.flags.contains .left) (digitsValue shortString.width)
        (shortString.shown noArguments) :=
  myprintf_string shortString 0x80000 64 noArguments 0 shortString_small (.inr rfl)
    fun _ => by decide

/-- `%4294967297c` -/
def overwide : Form where
  flags := []
  width := [4, 2, 9, 4, 9, 6, 7, 2, 9, 7]
  precision := none
  length := none
  conversion := .c
  hwidth := by decide
  hconversion := widest.hconversion

/-- A width that no `int` holds comes out as another one. -/
theorem myprintf_not_string : ¬ ∀ (form : Form) string size (arg : VaList) base,
    form.conversion = .c ∨ form.conversion = .s →
      (form.conversion = .s → (arg.pointed (arg.slot 0)).length < 2 ^ 31) →
        (myprintf string size form.chars arg base).text =
          padded (form.flags.contains .left) (digitsValue form.width) (form.shown arg) := by
  intro h
  have htext := h overwide 0x80000 64 noArguments 0 (.inl rfl)
    fun hs => absurd hs (by decide)
  have hcode : myprintf 0x80000 64 overwide.chars noArguments 0 =
      { stores := placeText 0x80000 [0, 0], next := 1, ret := 1 } := by decide +kernel
  have hlength := congrArg List.length htext
  rw [hcode, Printed.text, map_snd_placeText, padded, if_neg (by decide),
    List.length_append,
    List.length_replicate, List.length_dropLast] at hlength
  revert hlength
  decide +kernel

end YiOS.Printk
