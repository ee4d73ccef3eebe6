import YiOS.Printk.Strings
import YiOS.Printk.Value

namespace YiOS.Printk

open YiOS.Library

/-! A width and a precision given by `*`. -/

/-- The slot that a `*` takes: any `int` but the least. -/
structure StarArg where
  word : U64
  hleast : (Int32.ofBitVec (word.setWidth 32)).toInt ≠ -2 ^ 31

def StarArg.int (star : StarArg) : Int32 := Int32.ofBitVec (star.word.setWidth 32)

/-- Digits that stand for an `int`. -/
structure Digits where
  digits : List (Fin 10)
  hsmall : digitsValue digits < 2 ^ 31

/-- Where the stars of a directive stand. -/
inductive Stars where
  | atWidth (w : StarArg) (precision : Option Digits)
  | atPrecision (width : Digits) (hwidth : width.digits.head? ≠ some 0) (n : StarArg)
  | atBoth (w n : StarArg)

namespace Stars

def chars : Stars → List Byte
  | .atWidth _ digits => ch '*' :: digits.elim [] fun d => ch '.' :: d.digits.map digitChar
  | .atPrecision width _ _ => width.digits.map digitChar ++ [ch '.', ch '*']
  | .atBoth _ _ => [ch '*', ch '.', ch '*']

/-- The slots, as they come before the argument. -/
def words : Stars → List U64
  | .atWidth w _ => [w.word]
  | .atPrecision _ _ n => [n.word]
  | .atBoth w n => [w.word, n.word]

end Stars

/-- `%[flags][width][.precision][h|l|ll|L]conversion` with a `*`. -/
structure StarForm where
  flags : List Flag
  stars : Stars
  length : Option Length
  conversion : Conversion
  hconversion : conversion ≠ .n

def StarForm.endChars (form : StarForm) : List Byte :=
  (form.length.elim [] Length.chars) ++ [form.conversion.char]

def StarForm.chars (form : StarForm) : List Byte :=
  ch '%' :: (form.flags.map Flag.char ++ (form.stars.chars ++ form.endChars))

/-! The same directive with the numbers in decimal. -/

def decimal (n : Nat) : List (Fin 10) := (digitsOf 10 n).reverse.map (Fin.ofNat 10)

/-- A negative width is a flag `-` and a width. -/
def StarArg.widthChars (w : StarArg) : List Byte :=
  (if w.int < 0 then [ch '-'] else []) ++ (decimal w.int.toInt.natAbs).map digitChar

/-- A negative precision is zero. -/
def StarArg.precisionChars (n : StarArg) : List Byte :=
  ch '.' :: (decimal n.int.toInt.toNat).map digitChar

def Stars.decimalChars : Stars → List Byte
  | .atWidth w digits =>
      w.widthChars ++ digits.elim [] fun d => ch '.' :: d.digits.map digitChar
  | .atPrecision width _ n => width.digits.map digitChar ++ n.precisionChars
  | .atBoth w n => w.widthChars ++ n.precisionChars

def StarForm.decimalChars (form : StarForm) : List Byte :=
  ch '%' :: (form.flags.map Flag.char ++ (form.stars.decimalChars ++ form.endChars))

theorem digitsValue_decimal (n : Nat) : digitsValue (decimal n) = n := by
  have hdigits : ((digitsOf 10 n).map (Fin.ofNat 10)).map Fin.val = digitsOf 10 n := by
    rw [List.map_map]
    conv => rhs; rw [← List.map_id (digitsOf 10 n)]
    refine List.map_congr_left fun d hd => ?_
    exact Nat.mod_eq_of_lt (digitsOf_lt (by omega) d hd)
  rw [digitsValue, decimal, ← List.map_reverse, List.reverse_reverse, hdigits,
    ofDigits_digitsOf]

theorem decimal_head {n : Nat} (hn : n ≠ 0) : (decimal n).head? ≠ some 0 := by
  intro hhead
  have hne := Nat.digits_ne_nil_iff_ne_zero (b := 10).mpr hn
  rw [decimal, digitsOf, if_neg hn, List.head?_map, List.head?_reverse,
    List.getLast?_eq_some_getLast hne, Option.map_some, Option.some.injEq] at hhead
  have hlt := Nat.digits_lt_base (b := 10) (by omega) (List.getLast_mem hne)
  have hzero := congrArg Fin.val hhead
  rw [Fin.val_ofNat, Nat.mod_eq_of_lt hlt] at hzero
  exact Nat.getLast_digit_ne_zero 10 hn hzero

def StarArg.flags (w : StarArg) : List Flag :=
  (if w.int < 0 then [.left] else []) ++ (if w.int.toInt = 0 then [.zeropad] else [])

def StarArg.width (w : StarArg) : List (Fin 10) :=
  if w.int.toInt = 0 then [] else decimal w.int.toInt.natAbs

theorem StarArg.width_head (w : StarArg) : w.width.head? ≠ some 0 := by
  unfold StarArg.width
  split
  · exact fun h => absurd h (by decide)
  next hne => exact decimal_head (by omega)

theorem StarArg.widthChars_eq (w : StarArg) :
    w.widthChars = w.flags.map Flag.char ++ w.width.map digitChar := by
  unfold StarArg.widthChars StarArg.flags StarArg.width
  by_cases hzero : w.int.toInt = 0
  · have hpositive : ¬ w.int < 0 := by
      rw [Int32.lt_iff_toInt_lt, Int32.toInt_zero]
      omega
    rw [hzero, if_neg hpositive, if_neg hpositive, if_pos rfl, if_pos rfl]
    decide
  · rw [if_neg hzero, if_neg hzero]
    split <;> rfl

namespace Stars

def explicitFlags : Stars → List Flag
  | .atWidth w _ | .atBoth w _ => w.flags
  | .atPrecision _ _ _ => []

def explicitWidth : Stars → List (Fin 10)
  | .atWidth w _ | .atBoth w _ => w.width
  | .atPrecision width _ _ => width.digits

def explicitPrecision : Stars → Option (List (Fin 10))
  | .atWidth _ digits => digits.map Digits.digits
  | .atPrecision _ _ n | .atBoth _ n => some (decimal n.int.toInt.toNat)

theorem explicitWidth_head (stars : Stars) : stars.explicitWidth.head? ≠ some 0 := by
  cases stars with
  | atWidth w digits => exact w.width_head
  | atPrecision width hwidth n => exact hwidth
  | atBoth w n => exact w.width_head

theorem decimalChars_eq (stars : Stars) : stars.decimalChars =
    stars.explicitFlags.map Flag.char ++ stars.explicitWidth.map digitChar ++
      stars.explicitPrecision.elim [] fun digits => ch '.' :: digits.map digitChar := by
  cases stars with
  | atWidth w digits =>
      rw [decimalChars, w.widthChars_eq]
      cases digits <;> rfl
  | atPrecision width hwidth n => rfl
  | atBoth w n =>
      rw [decimalChars, w.widthChars_eq]
      rfl

end Stars

namespace StarForm

/-- The form that the decimal numbers spell. A width of zero is a flag. -/
def explicit (form : StarForm) : Form where
  flags := form.flags ++ form.stars.explicitFlags
  width := form.stars.explicitWidth
  precision := form.stars.explicitPrecision
  length := form.length
  conversion := form.conversion
  hwidth := form.stars.explicitWidth_head
  hconversion := form.hconversion

theorem decimalChars_eq (form : StarForm) : form.decimalChars = form.explicit.chars := by
  rw [decimalChars, form.stars.decimalChars_eq, Form.chars, Form.bodyChars, explicit,
    List.map_append]
  simp only [Form.precisionChars, Form.endChars, endChars, List.append_assoc]

end StarForm

/-! The scanner stops at the first `*`. -/

/-- A `va_list` with slots before its own. -/
def VaList.push : List U64 → VaList → VaList
  | [], arg => arg
  | word :: words, arg =>
      { arg with slot := fun
          | 0 => word
          | i + 1 => (arg.push words).slot i }

namespace Stars

/-- What has been read when the switch finds the `*`. -/
def directive (flags : Flags) : Stars → Directive
  | .atWidth w _ | .atBoth w _ =>
      { flags := if w.int < 0 then { flags with left := true } else flags
        width := if w.int < 0 then -w.int else w.int
        precision := -1
        qualifier := none }
  | .atPrecision width _ n =>
      { flags
        width := if width.digits = [] then -1 else scanned 0 width.digits
        precision := if n.int < 0 then 0 else n.int
        qualifier := none }

def tail : Stars → List Byte
  | .atWidth _ digits => digits.elim [] fun d => ch '.' :: d.digits.map digitChar
  | .atPrecision _ _ _ => []
  | .atBoth _ _ => [ch '.', ch '*']

theorem fieldWidth_star (arg : VaList) (w : StarArg) (words : List U64) (flags : Flags)
    (rest : List Byte) :
    (arg.push (w.word :: words)).fieldWidth flags (ch '*' :: rest) 0 =
      (if w.int < 0 then { flags with left := true } else flags,
        if w.int < 0 then -w.int else w.int, ch '*' :: rest, 1) := by
  have hint : (arg.push (w.word :: words)).int 0 = w.int := rfl
  have hdigit : isDigit (ch '*') = false := by decide
  unfold VaList.fieldWidth
  rw [List.headD_cons, hdigit, if_neg Bool.false_ne_true, if_pos rfl, hint]
  dsimp only
  split <;> rfl

theorem precision_star (arg : VaList) (n : StarArg) (words : List U64) (rest : List Byte) :
    (arg.push (n.word :: words)).precision (ch '.' :: ch '*' :: rest) 0 =
      (if n.int < 0 then 0 else n.int, ch '*' :: rest, 1) := by
  have hint : (arg.push (n.word :: words)).int 0 = n.int := rfl
  have hdigit : isDigit (ch '*') = false := by decide
  unfold VaList.precision
  rw [List.headD_cons, if_pos rfl, List.tail_cons]
  dsimp only
  rw [List.headD_cons, hdigit, if_neg Bool.false_ne_true, if_pos rfl, hint]

theorem precision_none (arg : VaList) (rest : List Byte) (next : Nat) :
    arg.precision (ch '*' :: rest) next = (-1, ch '*' :: rest, next) := by
  have hdot : ch '*' ≠ ch '.' := by decide
  unfold VaList.precision
  rw [List.headD_cons, if_neg hdot]

theorem scanQualifier_star (rest : List Byte) :
    scanQualifier (ch '*' :: rest) = (none, ch '*' :: rest) := by
  have hh : ch '*' ≠ ch 'h' := by decide
  have hl : ch '*' ≠ ch 'l' := by decide
  have hL : ch '*' ≠ ch 'L' := by decide
  unfold scanQualifier
  rw [List.headD_cons, if_neg hh, if_neg hl, if_neg hL]

theorem directive_star (arg : VaList) (flags : List Flag) (stars : Stars)
    (rest : List Byte) :
    (arg.push stars.words).directive (flags.map Flag.char ++ (stars.chars ++ rest)) 0 =
      (stars.directive (flags.foldl Flags.set {}), ch '*' :: (stars.tail ++ rest), 1) := by
  have hstar : ∀ rest, flagOf ((ch '*' :: rest).headD 0) = none :=
    fun _ => (by decide : flagOf (ch '*') = none)
  cases stars with
  | atWidth w digits =>
      unfold VaList.directive
      rw [chars, List.cons_append, scanFlags_append {} flags (hstar _)]
      simp only [words, fieldWidth_star, precision_none, scanQualifier_star]
      rfl
  | atBoth w n =>
      unfold VaList.directive
      rw [chars, List.cons_append, scanFlags_append {} flags (hstar _)]
      simp only [words, fieldWidth_star, precision_none, scanQualifier_star]
      rfl
  | atPrecision width hwidth n =>
      have hdot : Plain (ch '.') := by decide
      have hflag : flagOf ((width.digits.map digitChar ++
          (ch '.' :: ch '*' :: rest)).headD 0) = none := by
        cases hdigits : width.digits with
        | nil => exact hdot.flag
        | cons digit digits =>
            rw [hdigits] at hwidth
            exact flagOf_digitChar fun h => hwidth (congrArg some h)
      have hwidth' : ∀ flags, (arg.push [n.word]).fieldWidth flags
          (width.digits.map digitChar ++ (ch '.' :: ch '*' :: rest)) 0 =
            (flags, if width.digits = [] then -1 else scanned 0 width.digits,
              ch '.' :: ch '*' :: rest, 0) :=
        fun flags => fieldWidth_append _ flags width.digits 0 hdot
      unfold VaList.directive
      rw [chars, List.append_assoc]
      simp only [List.cons_append, List.nil_append,
        scanFlags_append {} flags hflag, hwidth',
        words, precision_star, scanQualifier_star]
      rfl

end Stars

theorem Stars.length_tail (stars : Stars) : stars.tail.length ≤ stars.chars.length := by
  cases stars with
  | atWidth w digits => exact Nat.le_succ _
  | atPrecision width hwidth n => exact Nat.zero_le _
  | atBoth w n => exact (by decide : 2 ≤ 3)

theorem passes_literals (arg : VaList) {text : List Byte} (next : Nat) (base : Int32)
    (htext : ∀ c ∈ text, c ≠ ch '%' ∧ c ≠ 0) {n : Nat} (hn : text.length ≤ n) :
    arg.passes n { fmt := text ++ [0], next, base } =
      (text.map fun c => .text [c], { fmt := [0], next, base }) := by
  induction text generalizing n with
  | nil => cases n <;> rfl
  | cons c text ih =>
      rw [List.forall_mem_cons] at htext
      rw [List.length_cons] at hn
      obtain ⟨n, rfl⟩ : ∃ k, n = k + 1 := Nat.exists_eq_add_one.mpr (by omega)
      have hpass : arg.pass { fmt := c :: text ++ [0], next, base } =
          ([.text [c]], { fmt := text ++ [0], next, base }) := by
        rw [pass_eq, List.cons_append, scan_literal arg htext.1.1]
        rfl
      rw [VaList.passes, List.cons_append, List.headD_cons, if_neg htext.1.2,
        ← List.cons_append, hpass]
      simp only [ih htext.2 (by omega : text.length ≤ n)]
      rfl

theorem writtenText_literals (text : List Byte) :
    writtenText (text.map fun c => .text [c]) = some text := by
  induction text with
  | nil => rfl
  | cons c text ih => rw [List.map_cons, writtenText, ih]; rfl

namespace StarForm

def directive (form : StarForm) : Directive :=
  form.stars.directive (form.flags.foldl Flags.set {})

def tail (form : StarForm) : List Byte := form.stars.tail ++ form.endChars

/-- What `number` makes of the next slot. -/
def echo (form : StarForm) (arg : VaList) (base : Int32) : Option (List Byte) :=
  number (form.directive.num ((arg.push form.stars.words).slot 1)) base form.directive.width
    form.directive.precision form.directive.flags

theorem tail_literal (form : StarForm) : ∀ c ∈ form.tail, c ≠ ch '%' ∧ c ≠ 0 := by
  have hdigit : ∀ digit : Fin 10, digitChar digit ≠ ch '%' ∧ digitChar digit ≠ 0 := by decide
  have hdot : ch '.' ≠ ch '%' ∧ ch '.' ≠ 0 := by decide
  have hstar : ch '*' ≠ ch '%' ∧ ch '*' ≠ 0 := by decide
  have hend : ∀ c ∈ form.endChars, c ≠ ch '%' ∧ c ≠ 0 := by
    have hconversion : form.conversion.char ≠ ch '%' ∧ form.conversion.char ≠ 0 := by
      cases form.conversion <;> decide
    unfold endChars
    rw [List.forall_mem_append, List.forall_mem_singleton]
    refine ⟨?_, hconversion⟩
    cases form.length with
    | none => exact fun c hc => absurd hc List.not_mem_nil
    | some length => cases length <;> decide
  unfold tail
  rw [List.forall_mem_append]
  refine ⟨?_, hend⟩
  cases form.stars with
  | atWidth w digits =>
      cases digits with
      | none => exact fun c hc => absurd hc List.not_mem_nil
      | some digits =>
          simp only [Stars.tail, Option.elim_some, List.forall_mem_cons,
            List.forall_mem_map]
          exact ⟨hdot, fun digit _ => hdigit digit⟩
  | atPrecision width hwidth n => exact fun c hc => absurd hc List.not_mem_nil
  | atBoth w n =>
      simp only [Stars.tail, List.forall_mem_cons]
      exact ⟨hdot, hstar, fun c hc => absurd hc List.not_mem_nil⟩

/-- The `*` is an unknown conversion: it is copied, a number is printed, and the rest of the
directive is text. -/
theorem formatted_star (form : StarForm) (arg : VaList) (base : Int32) :
    formatted form.chars (arg.push form.stars.words) base =
      ((form.echo arg base).map fun echo => ch '%' :: ch '*' :: (echo ++ form.tail), 2) := by
  have hpass : (arg.push form.stars.words).pass
    { fmt := form.chars ++ [0], next := 0, base } =
      ([.text [ch '%', ch '*'], (form.echo arg base).elim .null .text],
        { fmt := form.tail ++ [0], next := 2, base }) := by
    have hscan := form.stars.directive_star arg form.flags (form.endChars ++ [0])
    have hunknown : conversionOf (ch '*') = none := by decide
    have hecho : outputNumber (form.directive.num ((arg.push form.stars.words).slot 1)) base
        form.directive = (form.echo arg base).elim .null .text := by
      unfold outputNumber echo
      cases number _ base form.directive.width form.directive.precision form.directive.flags <;>
        rfl
    unfold VaList.pass
    simp only [chars, List.cons_append, List.headD_cons, ne_eq, not_true_eq_false, if_false,
      List.tail_cons, List.append_assoc, hscan, VaList.convert, hunknown]
    rw [← hecho, tail, List.append_assoc]
    rfl
  have hlength : form.tail.length ≤ form.chars.length := by
    have htail := form.stars.length_tail
    simp only [tail, chars, List.length_cons, List.length_append]
    omega
  have hrest := passes_literals (arg.push form.stars.words) 2 base form.tail_literal hlength
  unfold formatted
  have hhead : (form.chars ++ [0]).headD 0 ≠ 0 := (by decide : ch '%' ≠ 0)
  rw [VaList.passes, if_neg hhead, hpass]
  simp only [hrest]
  cases form.echo arg base with
  | none => rfl
  | some echo =>
      simp only [Option.elim_some, List.cons_append, List.nil_append, writtenText,
        writtenText_literals, Option.map_some]

end StarForm

theorem formatted_form (form : Form) (arg : VaList) (base : Int32) :
    formatted form.chars arg base = (some (form.text arg (arg.slot 0)), 1) := by
  have hpass : arg.pass { fmt := form.chars ++ [0], next := 0, base } =
      ([.text (form.text arg (arg.slot 0))],
        { fmt := [0], next := 1, base := baseAfter form.conversion.char base }) := by
    rw [pass_eq, scan_form, form_outputs]
  have hhead : (form.chars ++ [0]).headD 0 ≠ 0 := (by decide : ch '%' ≠ 0)
  have hrest : arg.passes form.chars.length
      { fmt := [0], next := 1, base := baseAfter form.conversion.char base } =
        ([], { fmt := [0], next := 1, base := baseAfter form.conversion.char base }) := rfl
  unfold formatted
  rw [VaList.passes, if_neg hhead, hpass]
  simp only [hrest, List.append_nil, writtenText, Option.map_some]

/-! What no number, no `%c` and few strings look like. -/

theorem number_base {num : U64} (hnumber : number num base size precision type = some text) :
    ¬ base < 2 ∧ ¬ 36 < base := by
  rw [← not_or]
  intro hbase
  have hnone : number num base size precision type = none := by
    simp only [number, if_pos hbase]
  rw [hnone] at hnumber
  exact absurd hnumber (by simp)

theorem digit_percent (type : Flags) (d : Nat) : (digits type).getD d 0 ≠ ch '%' := by
  have hlist : ∀ c ∈ digits type, c ≠ ch '%' := by
    unfold digits
    cases type.small <;> decide +kernel
  by_cases hd : d < (digits type).length
  · rw [List.getD_eq_getElem _ _ hd]
    exact hlist _ (List.getElem_mem hd)
  · rw [List.getD_eq_default _ _ (by omega)]
    decide

theorem number_percent {num : U64} (hnumber : number num base size precision type = some text) :
    ch '%' ∉ text := by
  obtain ⟨hlow, hhigh⟩ := number_base hnumber
  have hspace : ch '%' ≠ ch ' ' := by decide
  have hzero : ch '%' ≠ ch '0' := by decide
  obtain ⟨sign, magnitude, size', hsigned⟩ : ∃ sign magnitude size',
    signed type num size = (sign, magnitude, size') := ⟨_, _, _, rfl⟩
  have hsign : ch '%' ∉ sign := by
    have hmem := (signed_sign type num size).1
    rw [hsigned] at hmem
    have hall : ∀ sign ∈ [[], [ch '-'], [ch '+'], [ch ' ']], ch '%' ∉ sign := by decide
    exact hall sign hmem
  have hspecial : ch '%' ∉ special type base := by
    unfold special
    split_ifs
    · decide
    · rw [List.mem_cons, List.mem_singleton, not_or]
      exact ⟨hzero, (digit_percent type 33).symm⟩
    · exact List.not_mem_nil
    · exact List.not_mem_nil
  have hfill : ∀ room, ch '%' ∉ fillBetween type room := by
    intro room
    unfold fillBetween
    split_ifs <;> simp [hzero, hspace]
  have htmp : ch '%' ∉ tmp type magnitude base := by
    rw [tmp_eq type _ hlow, List.mem_map]
    rintro ⟨d, -, hd⟩
    exact digit_percent type d hd
  rw [number_text precision hsigned hlow hhigh, Option.some.injEq] at hnumber
  rw [← hnumber]
  simp only [List.mem_append, List.mem_replicate, List.mem_reverse, hspace, hzero, hsign,
    hspecial, hfill, htmp, and_false, or_self, not_false_eq_true]

theorem le_length_number {num : U64}
    (hnumber : number num base size precision type = some text) :
    size.toInt ≤ text.length := by
  obtain ⟨hlow, hhigh⟩ := number_base hnumber
  obtain ⟨_, hwritten, hlength⟩ := length_number num size precision type hlow hhigh
  rw [hnumber, Option.some.injEq] at hwritten
  subst hwritten
  have hfield := numberLength_eq num base size precision type
  have hroom : (sizeLeft num base size precision type).toInt =
      (widthLeft num base size precision type).bmod (2 ^ 32) := sizeLeft_toInt num type hlow
  have hpadding : (sizeLeft num base size precision type).toInt ≤
      padding (padLoops type) (sizeLeft num base size precision type) := by
    unfold padding
    simp only [zero_lt_iff]
    split_ifs <;> omega
  have hleft : widthLeft num base size precision type ≤
      (sizeLeft num base size precision type).toInt := by
    have hdigits : 0 ≤ digitsLength num base precision type := by
      unfold digitsLength
      omega
    have hmost := size.toInt_lt
    have hless : widthLeft num base size precision type < 2 ^ 31 := by
      unfold widthLeft
      split_ifs <;> omega
    rw [hroom, Int.bmod_def]
    split_ifs <;> omega
  unfold widthLeft at hleft
  split_ifs at hleft <;> omega

theorem charText_ne (d : Directive) (word : U64) (rest : List Byte) :
    d.charText word ≠ ch '%' :: ch '*' :: rest := by
  have hshape : ∃ before after, d.charText word = List.replicate before (ch ' ') ++
      word.setWidth 8 :: List.replicate after (ch ' ') := by
    unfold Directive.charText
    cases d.flags.left with
    | true => exact ⟨0, _, by simp only [if_true, prePad_eq]; rfl⟩
    | false => exact ⟨_, _, by simp only [Bool.false_eq_true, if_false, prePad_eq]; rfl⟩
  obtain ⟨before, after, htext⟩ := hshape
  have hpercent : ch ' ' ≠ ch '%' := by decide
  have hstar : ch ' ' ≠ ch '*' := by decide
  intro h
  rw [htext] at h
  cases before with
  | zero =>
      rw [List.replicate_zero, List.nil_append, List.cons_eq_cons] at h
      have hmem : ch '*' ∈ List.replicate after (ch ' ') := h.2 ▸ List.mem_cons_self
      exact hstar (List.eq_of_mem_replicate hmem).symm
  | succ before =>
      rw [List.replicate_succ, List.cons_append, List.cons_eq_cons] at h
      exact hpercent h.1

theorem stringText_shape (d : Directive) (s : List Byte) (hwidth : -1 ≤ d.width.toInt) :
    ∃ before after, d.stringText s = List.replicate before (ch ' ') ++
      s.take (shownLength d.precision s).toInt.toNat ++ List.replicate after (ch ' ') ∧
        (d.width.toInt ≤ (shownLength d.precision s).toInt → before = 0 ∧ after = 0) := by
  rw [stringText_eq]
  cases d.flags.left with
  | true =>
      refine ⟨0, _, by simp only [if_true, pad_eq]; rfl, fun hle => ⟨rfl, by omega⟩⟩
  | false =>
      refine ⟨_, _, by simp only [Bool.false_eq_true, if_false, pad_eq]; rfl, fun hle => ?_⟩
      have hless : ¬ shownLength d.precision s < d.width := by
        rw [Int32.lt_iff_toInt_lt]
        omega
      rw [if_neg hless, toInt_pred, if_neg (by omega)]
      omega

/-- A text without spaces around it is shown without padding. -/
theorem stringText_eq_iff {d : Directive} {s text : List Byte}
    (hwidth : -1 ≤ d.width.toInt ∧ d.width.toInt ≤ text.length)
    (hhead : text.head? ≠ some (ch ' ')) (hlast : text.getLast? ≠ some (ch ' '))
    (hne : text ≠ []) :
    d.stringText s = text ↔ s.take (shownLength d.precision s).toInt.toNat = text := by
  obtain ⟨before, after, htext, hnone⟩ := stringText_shape d s hwidth.1
  rw [htext]
  constructor
  · intro h
    obtain ⟨rfl, rfl⟩ := replicate_around h hhead hlast
    rwa [List.replicate_zero, List.nil_append, List.append_nil] at h
  · intro h
    have hshown := shownLength_le d.precision s
    have hlength := congrArg List.length h
    have hpos := List.length_pos_of_ne_nil hne
    rw [List.length_take, Nat.min_eq_left hshown] at hlength
    obtain ⟨hbefore, hafter⟩ := hnone (by omega)
    rw [hbefore, hafter, h, List.replicate_zero, List.nil_append, List.append_nil]

namespace StarForm

/-- The numbers in decimal come to the same characters, and to the same slots but for those
of the stars. -/
def Agrees (form : StarForm) (arg : VaList) (base : Int32) : Prop :=
  formatted form.chars (arg.push form.stars.words) base =
    ((formatted form.decimalChars arg base).1,
      form.stars.words.length + (formatted form.decimalChars arg base).2)

/-- The argument of `%s` is the text that comes out for the unknown `*`. -/
structure Echoed (form : StarForm) (arg : VaList) (base : Int32) : Prop where
  conversion : form.conversion = .s
  once : form.stars.words.length = 1
  string : ∃ echo, form.echo arg base = some echo ∧
    (arg.pointed (arg.slot 0)).take
      (shownLength form.explicit.directive.precision (arg.pointed (arg.slot 0))).toInt.toNat =
        ch '%' :: ch '*' :: (echo ++ form.tail)

theorem agrees_iff_echo (form : StarForm) (arg : VaList) (base : Int32) :
    form.Agrees arg base ↔ form.stars.words.length = 1 ∧
      ∃ echo, form.echo arg base = some echo ∧
        form.explicit.text arg (arg.slot 0) = ch '%' :: ch '*' :: (echo ++ form.tail) := by
  unfold Agrees
  rw [decimalChars_eq, formatted_form, formatted_star, Prod.mk.injEq,
    Option.map_eq_some_iff]
  constructor
  · rintro ⟨⟨echo, hecho, htext⟩, hslots⟩
    exact ⟨by omega, echo, hecho, htext.symm⟩
  · rintro ⟨hslots, echo, hecho, htext⟩
    exact ⟨⟨echo, hecho, htext.symm⟩, by omega⟩

theorem explicitWidth_le (stars : Stars) (flags : Flags) :
    digitsValue stars.explicitWidth < 2 ^ 31 ∧
      (if stars.explicitWidth = [] then (-1 : Int) else digitsValue stars.explicitWidth) ≤
        (stars.directive flags).width.toInt := by
  have hstar : ∀ w : StarArg, digitsValue w.width < 2 ^ 31 ∧
      (if w.width = [] then (-1 : Int) else digitsValue w.width) ≤
        (if w.int < 0 then -w.int else w.int).toInt := by
    intro w
    have hleast : w.int.toInt ≠ -2 ^ 31 := w.hleast
    have hlow := w.int.le_toInt
    have hhigh := w.int.toInt_lt
    have hvalue : digitsValue w.width = w.int.toInt.natAbs := by
      unfold StarArg.width
      split
      next hzero =>
        rw [hzero]
        rfl
      next => exact digitsValue_decimal _
    have hwidth : (if w.int < 0 then -w.int else w.int).toInt = w.int.toInt.natAbs := by
      simp only [Int32.lt_iff_toInt_lt, Int32.toInt_zero]
      split
      next hnegative =>
        rw [Int32.toInt_neg, Int.bmod_eq_of_le (by omega) (by omega)]
        omega
      next => omega
    rw [hvalue, hwidth]
    exact ⟨by omega, by split <;> omega⟩
  cases stars with
  | atWidth w digits => exact hstar w
  | atPrecision width hwidth n =>
      refine ⟨width.hsmall, ?_⟩
      have hread : (if width.digits = [] then (-1 : Int) else digitsValue width.digits) ≤
          (if width.digits = [] then -1 else scanned 0 width.digits).toInt := by
        split
        · decide
        · rw [scanned_toInt width.hsmall]
      exact hread
  | atBoth w n => exact hstar w

/-- The decimal width is no greater than the one that the stopped scanner has. -/
theorem explicit_width (form : StarForm) (hecho : form.echo arg base = some text) :
    -1 ≤ form.explicit.directive.width.toInt ∧
      form.explicit.directive.width.toInt ≤ text.length := by
  have hfield := le_length_number hecho
  obtain ⟨hsmall, hle⟩ := explicitWidth_le form.stars (form.flags.foldl Flags.set {})
  rw [directive_width form.explicit hsmall]
  change -1 ≤ (if form.stars.explicitWidth = [] then (-1 : Int)
    else digitsValue form.stars.explicitWidth) ∧ _
  exact ⟨by split <;> omega, hle.trans hfield⟩

/-- A form without `%s` comes to a text that cannot begin with the `%*` of the other one. -/
theorem explicit_text_ne (form : StarForm) (arg : VaList) (word : U64) (rest : List Byte)
    (hconversion : form.conversion ≠ .s) :
    form.explicit.text arg word ≠ ch '%' :: ch '*' :: rest := by
  have houtputs := form_outputs form.explicit arg 0 word
  have hnumber : ∀ num base d, [outputNumber num base d] =
    [.text (form.explicit.text arg word)] →
      form.explicit.text arg word ≠ ch '%' :: ch '*' :: rest := by
    intro num base d houtput htext
    unfold outputNumber at houtput
    cases hwritten : number num base d.width d.precision d.flags with
    | none => simp [hwritten] at houtput
    | some written =>
        have hpercent := number_percent hwritten
        simp only [hwritten, List.cons.injEq, Output.text.injEq, and_true] at houtput
        rw [houtput, htext] at hpercent
        exact hpercent List.mem_cons_self
  have hn := form.hconversion
  have hform : form.explicit.conversion = form.conversion := rfl
  simp only [Form.piece, Piece.outputs, VaList.convert, conversionOf_char,
    hform] at houtputs
  cases hc : form.conversion with
  | c =>
      simp only [hc, List.cons.injEq, Output.text.injEq, and_true] at houtputs
      rw [← houtputs]
      exact charText_ne _ _ _
  | s => exact absurd hc hconversion
  | n => exact absurd hc hn
  | p => rw [hc] at houtputs; exact hnumber _ _ _ houtputs
  | o => rw [hc] at houtputs; exact hnumber _ _ _ houtputs
  | x => rw [hc] at houtputs; exact hnumber _ _ _ houtputs
  | X => rw [hc] at houtputs; exact hnumber _ _ _ houtputs
  | d => rw [hc] at houtputs; exact hnumber _ _ _ houtputs
  | i => rw [hc] at houtputs; exact hnumber _ _ _ houtputs
  | u => rw [hc] at houtputs; exact hnumber _ _ _ houtputs

theorem getLast_echo (form : StarForm) (hs : form.conversion = .s) (echo : List Byte) :
    (ch '%' :: ch '*' :: (echo ++ form.tail)).getLast? ≠ some (ch ' ') := by
  rw [tail, endChars, hs, ← List.append_assoc, ← List.append_assoc, ← List.cons_append,
    ← List.cons_append, List.getLast?_concat]
  decide

theorem explicit_text_iff {form : StarForm} {echo : List Byte} (hs : form.conversion = .s)
    (hecho : form.echo arg base = some echo) :
    form.explicit.text arg (arg.slot 0) = ch '%' :: ch '*' :: (echo ++ form.tail) ↔
      (arg.pointed (arg.slot 0)).take (shownLength form.explicit.directive.precision
        (arg.pointed (arg.slot 0))).toInt.toNat = ch '%' :: ch '*' :: (echo ++ form.tail) := by
  have htext : form.explicit.text arg (arg.slot 0) =
      form.explicit.directive.stringText (arg.pointed (arg.slot 0)) := by
    have hform : form.explicit.conversion = .s := hs
    simp only [Form.text, Form.piece, Piece.outputs, VaList.convert,
      conversionOf_char, hform]
  have hhead : (ch '%' :: ch '*' :: (echo ++ form.tail)).head? ≠ some (ch ' ') :=
    (by decide : some (ch '%') ≠ some (ch ' '))
  obtain ⟨hleast, hmost⟩ := form.explicit_width hecho
  rw [htext]
  refine stringText_eq_iff ⟨hleast, ?_⟩ hhead (form.getLast_echo hs echo)
    (List.cons_ne_nil _ _)
  simp only [List.length_cons, List.length_append]
  omega

/-- A `*` never stands for its number: the two agree on nothing but a string that happens to
be the text of the unknown `*`. -/
theorem agrees_iff (form : StarForm) (arg : VaList) (base : Int32) :
    form.Agrees arg base ↔ form.Echoed arg base := by
  rw [agrees_iff_echo]
  constructor
  · rintro ⟨honce, echo, hecho, hexplicit⟩
    have hs : form.conversion = .s := by
      by_contra hs
      exact form.explicit_text_ne arg _ _ hs hexplicit
    exact ⟨hs, honce, echo, hecho, (explicit_text_iff hs hecho).mp hexplicit⟩
  · intro h
    obtain ⟨echo, hecho, hstring⟩ := h.string
    exact ⟨h.once, echo, hecho, (explicit_text_iff h.conversion hecho).mpr hstring⟩

/-- `%*d` with a width of 5. -/
def starred : StarForm where
  flags := []
  stars := .atWidth ⟨5, by decide⟩ none
  length := none
  conversion := .d
  hconversion := by decide

/-- `%*d` comes out as `%*`, the number in the base of the directive before, and `d`. -/
theorem not_agrees : ¬ ∀ (form : StarForm) arg base, form.Agrees arg base := by
  intro h
  have hagrees := h starred { noArguments with slot := fun _ => 42 } 10
  unfold Agrees at hagrees
  revert hagrees
  decide +kernel

end StarForm

end YiOS.Printk
