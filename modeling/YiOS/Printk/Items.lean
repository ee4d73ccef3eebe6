import YiOS.Printk.Bounds

namespace YiOS.Printk

open YiOS.Library

/-! The formats that `myprintf` documents: characters and whole directives. -/

instance neZero_digits : NeZero 10 := ⟨by decide⟩

def digitChar (digit : Fin 10) : Byte := ch '0' + BitVec.ofNat 8 digit

inductive Length where
  | h
  | l
  | ll
  | L
  deriving DecidableEq, Repr

def Length.chars : Length → List Byte
  | .h => [ch 'h']
  | .l => [ch 'l']
  | .ll => [ch 'l', ch 'l']
  | .L => [ch 'L']

def Length.qualifier : Length → Qualifier
  | .h => .short
  | .l => .long
  | .ll | .L => .longLong

/-- `%[flags][width][.precision][h|l|ll|L]conversion`. A zero before the width is a flag. -/
structure Form where
  flags : List Flag
  width : List (Fin 10)
  precision : Option (List (Fin 10))
  length : Option Length
  conversion : Conversion
  hwidth : width.head? ≠ some 0
  hconversion : conversion ≠ .n

inductive Item where
  | literal (c : Byte) (hpercent : c ≠ ch '%') (hnul : c ≠ 0)
  | directive (form : Form)

namespace Form

def endChars (form : Form) : List Byte :=
  (form.length.elim [] Length.chars) ++ [form.conversion.char]

def precisionChars (form : Form) : List Byte :=
  form.precision.elim [] fun digits => ch '.' :: digits.map digitChar

def bodyChars (form : Form) : List Byte :=
  form.flags.map Flag.char ++ form.width.map digitChar ++ form.precisionChars ++
    form.endChars

def chars (form : Form) : List Byte := ch '%' :: form.bodyChars

end Form

def Item.chars : Item → List Byte
  | .literal c _ _ => [c]
  | .directive form => form.chars

def format (items : List Item) : List Byte := items.flatMap Item.chars

def scanned (tmp : Int32) (digits : List (Fin 10)) : Int32 :=
  digits.foldl (fun tmp digit => tmp * 10 + (Int32.ofNat (digitChar digit).toNat - 48)) tmp

def Form.directive (form : Form) : Directive where
  flags := form.flags.foldl Flags.set {}
  width := if form.width = [] then -1 else scanned 0 form.width
  precision := form.precision.elim (-1) fun digits =>
    if digits = [] then 0 else if scanned 0 digits < 0 then 0 else scanned 0 digits
  qualifier := form.length.map Length.qualifier

/-- The character is read by no loop before the conversion. -/
structure Plain (c : Byte) : Prop where
  flag : flagOf c = none
  digit : isDigit c = false
  star : c ≠ ch '*'

instance : Decidable (Plain c) :=
  decidable_of_iff (flagOf c = none ∧ isDigit c = false ∧ c ≠ ch '*')
    ⟨fun h => ⟨h.1, h.2.1, h.2.2⟩, fun h => ⟨h.flag, h.digit, h.star⟩⟩

theorem flagOf_char (flag : Flag) : flagOf flag.char = some flag := by
  cases flag <;> decide

theorem conversionOf_char (conversion : Conversion) :
    conversionOf conversion.char = some conversion := by
  cases conversion <;> decide

theorem conversion_char_ne_zero (conversion : Conversion) : conversion.char ≠ 0 := by
  cases conversion <;> decide

theorem isDigit_digitChar (digit : Fin 10) : isDigit (digitChar digit) = true := by
  revert digit
  decide

theorem flagOf_digitChar {digit : Fin 10} (hzero : digit ≠ 0) :
    flagOf (digitChar digit) = none := by
  revert digit
  decide

theorem plain_endChars (form : Form) (rest : List Byte) :
    Plain ((form.endChars ++ rest).headD 0) ∧ (form.endChars ++ rest).headD 0 ≠ ch '.' := by
  unfold Form.endChars
  rw [List.append_assoc, List.singleton_append]
  cases form.length with
  | none =>
      change Plain form.conversion.char ∧ form.conversion.char ≠ ch '.'
      cases form.conversion <;> decide
  | some length =>
      have hhead : ((some length).elim [] Length.chars ++ form.conversion.char :: rest).headD 0 =
          length.chars.headD 0 := by
        cases length <;> rfl
      rw [hhead]
      cases length <;> decide

theorem plain_precisionChars (form : Form) (rest : List Byte) :
    Plain ((form.precisionChars ++ (form.endChars ++ rest)).headD 0) := by
  unfold Form.precisionChars
  cases form.precision with
  | none => exact (plain_endChars form rest).1
  | some digits => exact (by decide : Plain (ch '.'))

theorem scanFlags_append (flags : Flags) (read : List Flag) {rest : List Byte}
    (hrest : flagOf (rest.headD 0) = none) :
    scanFlags flags (read.map Flag.char ++ rest) = (read.foldl Flags.set flags, rest) := by
  induction read generalizing flags with
  | nil =>
      cases rest with
      | nil => rfl
      | cons c rest =>
          rw [List.headD_cons] at hrest
          simp [scanFlags, hrest]
  | cons flag read ih =>
      rw [List.map_cons, List.cons_append, scanFlags, flagOf_char]
      exact ih (flags.set flag)

theorem scanLoop_append (tmp : Int32) (digits : List (Fin 10)) {rest : List Byte}
    (hrest : isDigit (rest.headD 0) = false) :
    scanLoop tmp (digits.map digitChar ++ rest) = (scanned tmp digits, rest) := by
  induction digits generalizing tmp with
  | nil =>
      cases rest with
      | nil => rfl
      | cons c rest =>
          rw [List.headD_cons] at hrest
          simp [scanLoop, hrest, scanned]
  | cons digit digits ih =>
      rw [List.map_cons, List.cons_append, scanLoop, if_pos (isDigit_digitChar digit)]
      exact ih _

theorem fieldWidth_append (arg : VaList) (flags : Flags) (width : List (Fin 10))
    {rest : List Byte} (next : Nat) (hrest : Plain (rest.headD 0)) :
    arg.fieldWidth flags (width.map digitChar ++ rest) next =
      (flags, if width = [] then -1 else scanned 0 width, rest, next) := by
  unfold VaList.fieldWidth
  cases width with
  | nil =>
      rw [List.map_nil, List.nil_append, hrest.digit, if_neg Bool.false_ne_true,
        if_neg hrest.star, if_pos rfl]
  | cons digit width =>
      have hscan := scanLoop_append 0 (digit :: width) hrest.digit
      have hdigit : isDigit (((digit :: width).map digitChar ++ rest).headD 0) = true :=
        isDigit_digitChar digit
      rw [if_pos hdigit, scanNumber, hscan]
      simp

theorem precision_append (arg : VaList) (form : Form) (rest : List Byte) (next : Nat) :
    arg.precision (form.precisionChars ++ (form.endChars ++ rest)) next =
      (form.directive.precision, form.endChars ++ rest, next) := by
  have hend := plain_endChars form rest
  unfold VaList.precision Form.precisionChars Form.directive
  cases form.precision with
  | none => rw [Option.elim_none, List.nil_append, if_neg hend.2, Option.elim_none]
  | some digits =>
      rw [Option.elim_some, Option.elim_some, List.cons_append, List.headD_cons, if_pos rfl,
        List.tail_cons]
      dsimp only
      cases digits with
      | nil =>
          rw [List.map_nil, List.nil_append, hend.1.digit, if_neg Bool.false_ne_true,
            if_neg hend.1.star, if_pos rfl]
          rfl
      | cons digit digits =>
          have hscan := scanLoop_append 0 (digit :: digits) hend.1.digit
          have hdigit : isDigit (((digit :: digits).map digitChar ++
              (form.endChars ++ rest)).headD 0) = true := isDigit_digitChar digit
          rw [if_pos hdigit, scanNumber, hscan, if_neg (List.cons_ne_nil digit digits)]

theorem scanQualifier_append (form : Form) (rest : List Byte) :
    scanQualifier (form.endChars ++ rest) =
      (form.directive.qualifier, form.conversion.char :: rest) := by
  unfold Form.endChars Form.directive
  cases form.length with
  | none => cases form.conversion <;> rfl
  | some length => cases length <;> cases form.conversion <;> rfl

theorem directive_append (arg : VaList) (form : Form) (rest : List Byte) (next : Nat) :
    arg.directive (form.bodyChars ++ rest) next =
      (form.directive, form.conversion.char :: rest, next) := by
  have hprecision := plain_precisionChars form rest
  have hwidth : flagOf ((form.width.map digitChar ++ (form.precisionChars ++
      (form.endChars ++ rest))).headD 0) = none := by
    have hzero := form.hwidth
    cases hdigits : form.width with
    | nil => exact hprecision.flag
    | cons digit width =>
        rw [hdigits] at hzero
        exact flagOf_digitChar fun h => hzero (congrArg some h)
  unfold VaList.directive Form.bodyChars
  simp only [List.append_assoc, scanFlags_append {} form.flags hwidth,
    fieldWidth_append arg _ form.width next hprecision, precision_append arg form rest next,
    scanQualifier_append form rest]
  rfl

def Form.piece (form : Form) (base : Int32) (word : U64) : Piece :=
  .directive form.directive form.conversion.char base word

theorem scan_form (arg : VaList) (form : Form) (rest : List Byte) (next : Nat)
    (base : Int32) :
    arg.scan { fmt := form.chars ++ rest, next, base } =
      (form.piece base (arg.slot next),
        { fmt := rest, next := next + 1,
          base := baseAfter form.conversion.char base }) := by
  unfold VaList.scan Form.chars
  simp only [List.cons_append, List.headD_cons, List.tail_cons, ne_eq, not_true_eq_false,
    if_false, directive_append arg form rest next, conversion_char_ne_zero]
  rfl

theorem scan_literal (arg : VaList) {c : Byte} (hpercent : c ≠ ch '%') (rest : List Byte)
    (next : Nat) (base : Int32) : arg.scan { fmt := c :: rest, next, base } =
      (.literal c, { fmt := rest, next, base }) := by
  unfold VaList.scan
  rw [List.headD_cons, if_pos hpercent, List.tail_cons]

end YiOS.Printk
