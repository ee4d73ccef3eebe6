import YiOS.Printk.Pieces

namespace YiOS.Printk

open YiOS.Library

/-! How many characters a piece comes to. -/

/-- The spaces of `%c`: the width less the character, but for a width that counting down
takes below the least integer. -/
def charPadding (left : Bool) (width : Int32) : Nat :=
  if 1 < width then (width.toInt - 1).toNat
  else if width.toInt + 2 ^ 31 < (if left then 1 else 2) then 2 ^ 31 - 1
  else 0

/-- The `len` of `%s`: of the string, or the precision where that is less. -/
def shownLength (precision : Int32) (s : List Byte) : Int32 :=
  let len := Int32.ofNat s.length
  if precision < 0 then len else if precision < len then precision else len

/-- The spaces of `%s`: what the width leaves, but for a width or a length at the least
integer. -/
def stringPadding (left : Bool) (width len : Int32) : Nat :=
  if left then (width.toInt - len.toInt).toNat
  else if len < width then
    (width.toInt - len.toInt).toNat + if len.toInt = -2 ^ 31 then 2 ^ 32 - 1 else 0
  else if width.toInt = -2 ^ 31 then (2 ^ 31 - 1 - len.toInt).toNat
  else 0

theorem length_charText (d : Directive) (word : U64) :
    (d.charText word).length = charPadding d.flags.left d.width + 1 := by
  have hlow := d.width.le_toInt
  have hhigh := d.width.toInt_lt
  have hone := toInt_pred d.width
  have htwo := toInt_spent (d.width - 1)
  rw [spent, hone] at htwo
  have hlt : 1 < d.width ↔ 1 < d.width.toInt := Int32.lt_iff_toInt_lt
  unfold Directive.charText charPadding
  cases d.flags.left with
  | true =>
      simp only [prePad_eq, if_true, List.nil_append, List.length_cons,
        List.length_replicate,
        hone, hlt]
      split_ifs <;> omega
  | false =>
      simp only [prePad_eq, Bool.false_eq_true, if_false, List.length_append,
        List.length_cons,
        List.length_replicate, htwo, hone, hlt]
      split_ifs <;> omega

theorem toInt_ofNat_le (n : Nat) : (Int32.ofNat n).toInt ≤ n := by
  rw [Int32.toInt_ofNat', Int.bmod_def]
  simp only [Int32.size]
  split <;> omega

theorem shownLength_le (precision : Int32) (s : List Byte) :
    (shownLength precision s).toInt.toNat ≤ s.length := by
  have hlen := toInt_ofNat_le s.length
  dsimp only [shownLength]
  split
  · omega
  · split
    next hlt =>
      rw [Int32.lt_iff_toInt_lt] at hlt
      omega
    next => omega

theorem stringText_eq (d : Directive) (s : List Byte) : d.stringText s =
    let (before, width) :=
      if d.flags.left then ([], d.width) else pad (ch ' ') (shownLength d.precision s) d.width
    before ++ s.take (shownLength d.precision s).toInt.toNat ++
      (pad (ch ' ') (shownLength d.precision s) width).1 := rfl

theorem length_stringText (d : Directive) (s : List Byte) :
    (d.stringText s).length = stringPadding d.flags.left d.width (shownLength d.precision s) +
      (shownLength d.precision s).toInt.toNat := by
  have hshown := shownLength_le d.precision s
  have hlow := d.width.le_toInt
  have hlen := (shownLength d.precision s).le_toInt
  have hlt := Int32.lt_iff_toInt_lt (x := shownLength d.precision s) (y := d.width)
  rw [stringText_eq, stringPadding]
  cases d.flags.left with
  | true =>
      simp only [pad_eq, if_true, List.nil_append, List.length_append,
        List.length_replicate,
        List.length_take]
      omega
  | false =>
      simp only [pad_eq, Bool.false_eq_true, if_false, List.length_append,
        List.length_replicate, List.length_take]
      by_cases hless : shownLength d.precision s < d.width
      · simp only [if_pos hless, toInt_pred]
        split_ifs <;> omega
      · simp only [if_neg hless, toInt_pred]
        rw [hlt] at hless
        split_ifs <;> omega

/-- The bases for which `number` returns a pointer. -/
def ValidBase (base : Int32) : Prop := 2 ≤ base ∧ base ≤ 36

instance : Decidable (ValidBase base) := inferInstanceAs (Decidable (2 ≤ base ∧ base ≤ 36))

theorem outputNumber_valid (num : U64) (d : Directive) (hbase : ValidBase base) : ∃ written,
    outputNumber num base d = .text written ∧
      written.length = numberLength num base d.width d.precision d.flags := by
  obtain ⟨written, hnumber, hlength⟩ := length_number num d.width d.precision d.flags
    (Int32.not_lt.mpr hbase.1) (Int32.not_lt.mpr hbase.2)
  refine ⟨written, ?_, hlength⟩
  rw [outputNumber, hnumber]

theorem outputNumber_invalid (num : U64) (d : Directive) (hbase : ¬ ValidBase base) :
    outputNumber num base d = .null := by
  have hrange : base < 2 ∨ 36 < base := by
    rw [← Int32.not_le, ← Int32.not_le]
    exact not_and_or.mp hbase
  have hnumber : number num base d.width d.precision d.flags = none := by
    rw [number, if_pos hrange]
  rw [outputNumber, hnumber]

def Piece.call : Piece → Option (U64 × Int32 × Directive)
  | .literal _ => none
  | .directive d c base word =>
      match conversionOf c with
      | some .c | some .s | some .n => none
      | some .p => some (word, 16, d.pointer)
      | some .o => some (d.num word, 8, d)
      | some .x => some (d.small.num word, 16, d.small)
      | some .X => some (d.num word, 16, d)
      | some .d | some .i => some (d.signed.num word, 10, d.signed)
      | some .u => some (d.num word, 10, d)
      | none => some (d.num word, base, d)

/-- The characters of a piece besides its number: an unknown conversion stands for
itself. -/
def Piece.plainText (arg : VaList) : Piece → Option (List Byte)
  | .literal c => some [c]
  | .directive d c _ word =>
      match conversionOf c with
      | some .c => some (d.charText word)
      | some .s => some (d.stringText (arg.pointed word))
      | some .n | some .p | some .o | some .x | some .X | some .d | some .i | some .u => none
      | none => some ((if c = ch '%' then [] else [ch '%']) ++ if c = 0 then [] else [c])

def Piece.ip : Piece → Option U64
  | .literal _ => none
  | .directive _ c _ word => if conversionOf c = some .n then some word else none

theorem Piece.outputs_eq (arg : VaList) (piece : Piece) : piece.outputs arg =
    (piece.plainText arg).toList.map .text ++
      piece.call.toList.map (fun call => outputNumber call.1 call.2.1 call.2.2) ++
      piece.ip.toList.map .count := by
  cases piece with
  | literal c => rfl
  | directive d c base word =>
      simp only [Piece.outputs, VaList.convert, Piece.plainText, Piece.call, Piece.ip]
      cases conversionOf c with
      | none => rfl
      | some conversion => cases conversion <;> rfl

def Piece.plainLength (arg : VaList) : Piece → Nat
  | .literal _ => 1
  | .directive d c _ word =>
      match conversionOf c with
      | some .c => charPadding d.flags.left d.width + 1
      | some .s =>
          let len := shownLength d.precision (arg.pointed word)
          stringPadding d.flags.left d.width len + len.toInt.toNat
      | some .n | some .p | some .o | some .x | some .X | some .d | some .i | some .u => 0
      | none => if c = ch '%' ∨ c = 0 then 1 else 2

theorem length_plainText (arg : VaList) (piece : Piece) :
    ((piece.plainText arg).elim 0 List.length) = piece.plainLength arg := by
  cases piece with
  | literal c => rfl
  | directive d c base word =>
      simp only [Piece.plainText, Piece.plainLength]
      cases conversionOf c with
      | none =>
          have hdistinct : ch '%' ≠ 0 := by decide
          simp only [Option.elim_some, List.length_append]
          split_ifs <;> simp_all
      | some conversion =>
          cases conversion with
          | c => exact length_charText d word
          | s => exact length_stringText d (arg.pointed word)
          | _ => rfl

def Piece.length (arg : VaList) (piece : Piece) : Nat :=
  piece.plainLength arg + piece.call.elim 0 fun call =>
    numberLength call.1 call.2.1 call.2.2.width call.2.2.precision call.2.2.flags

/-- The piece calls `number` with no base that it refuses. -/
def Piece.Based (piece : Piece) : Prop :=
  ∀ call ∈ piece.call, ValidBase call.2.1

instance : Decidable (Piece.Based piece) :=
  inferInstanceAs (Decidable (∀ call ∈ piece.call, ValidBase call.2.1))

def Output.length : Output → Nat
  | .text written => written.length
  | .count _ => 0
  | .null => 0

theorem length_outputs (arg : VaList) {piece : Piece} (hbased : piece.Based) :
    Output.null ∉ piece.outputs arg ∧
      ((piece.outputs arg).map Output.length).sum = piece.length arg := by
  rw [piece.outputs_eq arg, Piece.length, ← length_plainText arg piece]
  cases hcall : piece.call with
  | none =>
      cases piece.plainText arg <;> cases piece.ip <;> simp [Output.length]
  | some call =>
      obtain ⟨written, hwritten, hlength⟩ :=
        outputNumber_valid call.1 call.2.2 (hbased call hcall)
      cases piece.plainText arg <;> cases piece.ip <;>
        simp [Output.length, hwritten, hlength]

theorem null_mem_outputs (arg : VaList) {piece : Piece} (hbased : ¬ piece.Based) :
    Output.null ∈ piece.outputs arg := by
  rw [piece.outputs_eq arg]
  unfold Piece.Based at hbased
  push Not at hbased
  obtain ⟨call, hcall, hinvalid⟩ := hbased
  rw [Option.mem_def.mp hcall]
  simp [outputNumber_invalid _ _ hinvalid]

theorem count_mem_outputs (arg : VaList) (piece : Piece) (ip : U64) :
    Output.count ip ∈ piece.outputs arg ↔ piece.ip = some ip := by
  have hnumber : ∀ num base d, outputNumber num base d ≠ Output.count ip := by
    intro num base d
    unfold outputNumber
    split <;> simp
  rw [piece.outputs_eq arg]
  simp [hnumber]

end YiOS.Printk
