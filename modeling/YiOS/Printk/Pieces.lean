import YiOS.Printk.Format

namespace YiOS.Printk

open YiOS.Library

/-! A format is a sequence of pieces. The scanner reads them off whatever has been written,
and the output is theirs in order. -/

/-- A character that is copied, or a directive: what stands before the conversion, the
conversion, and the `base` and the slot it finds. -/
inductive Piece where
  | literal (c : Byte)
  | directive (d : Directive) (c : Byte) (base : Int32) (word : U64)
  deriving DecidableEq, Repr

def Piece.outputs (arg : VaList) : Piece → List Output
  | .literal c => [.text [c]]
  | .directive d c base word => (arg.convert d c base word).1

/-- The numeric conversions set `base`; the others keep it. -/
def baseAfter (c : Byte) (base : Int32) : Int32 :=
  match conversionOf c with
  | some .o => 8
  | some .x | some .X => 16
  | some .d | some .i | some .u => 10
  | some .c | some .s | some .n | some .p | none => base

theorem convert_snd (arg : VaList) (d : Directive) (c : Byte) (base : Int32) (word : U64) :
    (arg.convert d c base word).2 = baseAfter c base := by
  unfold VaList.convert baseAfter
  cases conversionOf c with
  | none => rfl
  | some conversion => cases conversion <;> rfl

/-- What one pass of the loop reads. -/
def VaList.scan (arg : VaList) (cursor : Cursor) : Piece × Cursor :=
  if cursor.fmt.headD 0 ≠ ch '%' then
    (.literal (cursor.fmt.headD 0), { cursor with fmt := cursor.fmt.tail })
  else
    let (d, fmt, next) := arg.directive cursor.fmt.tail cursor.next
    (.directive d (fmt.headD 0) cursor.base (arg.slot next),
      { fmt := if fmt.headD 0 = 0 then fmt else fmt.tail
        next := next + 1
        base := baseAfter (fmt.headD 0) cursor.base })

def VaList.pieces (arg : VaList) : Nat → Cursor → List Piece × Cursor
  | 0, cursor => ([], cursor)
  | n + 1, cursor =>
      if cursor.fmt.headD 0 = 0 then ([], cursor)
      else
        let (piece, cursor) := arg.scan cursor
        let (rest, cursor) := arg.pieces n cursor
        (piece :: rest, cursor)

theorem pass_eq (arg : VaList) (cursor : Cursor) :
    arg.pass cursor = ((arg.scan cursor).1.outputs arg, (arg.scan cursor).2) := by
  unfold VaList.pass VaList.scan
  split
  · rfl
  · simp only [Piece.outputs, convert_snd]

theorem passes_eq (arg : VaList) (n : Nat) (cursor : Cursor) : arg.passes n cursor =
    ((arg.pieces n cursor).1.flatMap (Piece.outputs arg), (arg.pieces n cursor).2) := by
  induction n generalizing cursor with
  | zero => rfl
  | succ n ih =>
      rw [VaList.passes, VaList.pieces]
      split
      · rfl
      · simp only [pass_eq, ih, List.flatMap_cons]

/-! What is left of the format is a suffix of it, and every pass takes a character, so the
passes are enough. -/

theorem suffix_scanFlags (flags : Flags) (fmt : List Byte) :
    (scanFlags flags fmt).2 <:+ fmt := by
  induction fmt generalizing flags with
  | nil => exact List.suffix_rfl
  | cons c fmt ih =>
      rw [scanFlags]
      split
      next flag _ => exact (ih (flags.set flag)).trans (List.suffix_cons c fmt)
      next => exact List.suffix_rfl

theorem suffix_scanLoop (tmp : Int32) (string : List Byte) :
    (scanLoop tmp string).2 <:+ string := by
  induction string generalizing tmp with
  | nil => exact List.suffix_rfl
  | cons c string ih =>
      rw [scanLoop]
      split
      · exact (ih _).trans (List.suffix_cons c string)
      · exact List.suffix_rfl

theorem suffix_fieldWidth (arg : VaList) (flags : Flags) (fmt : List Byte) (next : Nat) :
    (arg.fieldWidth flags fmt next).2.2.1 <:+ fmt := by
  unfold VaList.fieldWidth
  split
  · exact suffix_scanLoop 0 fmt
  · split
    · dsimp only
      split <;> exact List.suffix_rfl
    · exact List.suffix_rfl

theorem suffix_precision (arg : VaList) (fmt : List Byte) (next : Nat) :
    (arg.precision fmt next).2.1 <:+
      if fmt.headD 0 = ch '.' then fmt.tail else fmt := by
  unfold VaList.precision
  split
  · dsimp only
    split
    · exact suffix_scanLoop 0 fmt.tail
    · split <;> exact List.suffix_rfl
  · exact List.suffix_rfl

theorem suffix_scanQualifier (fmt : List Byte) : (scanQualifier fmt).2 <:+ fmt := by
  have htail := List.tail_suffix fmt
  unfold scanQualifier
  split
  · exact htail
  · split
    · split
      · exact (List.tail_suffix fmt.tail).trans htail
      · exact htail
    · split
      · exact htail
      · exact List.suffix_rfl

theorem suffix_directive (arg : VaList) (fmt : List Byte) (next : Nat) :
    (arg.directive fmt next).2.1 <:+ fmt := by
  have hprecision : ∀ fmt next, (arg.precision fmt next).2.1 <:+ fmt := by
    intro fmt next
    refine (suffix_precision arg fmt next).trans ?_
    split
    · exact List.tail_suffix fmt
    · exact List.suffix_rfl
  exact (suffix_scanQualifier _).trans ((hprecision _ _).trans
    ((suffix_fieldWidth arg _ _ _).trans (suffix_scanFlags {} fmt)))

theorem suffix_scan (arg : VaList) (cursor : Cursor) :
    (arg.scan cursor).2.fmt <:+ cursor.fmt.tail := by
  have hdirective := suffix_directive arg cursor.fmt.tail cursor.next
  unfold VaList.scan
  split
  · exact List.suffix_rfl
  · dsimp only
    split
    · exact hdirective
    · exact (List.tail_suffix _).trans hdirective

theorem suffix_pieces (arg : VaList) (n : Nat) (cursor : Cursor) :
    (arg.pieces n cursor).2.fmt <:+ cursor.fmt := by
  induction n generalizing cursor with
  | zero => exact List.suffix_rfl
  | succ n ih =>
      rw [VaList.pieces]
      split
      · exact List.suffix_rfl
      · exact (ih _).trans ((suffix_scan arg cursor).trans (List.tail_suffix _))

theorem length_scan (arg : VaList) {cursor : Cursor} (hnul : cursor.fmt.headD 0 ≠ 0) :
    (arg.scan cursor).2.fmt.length < cursor.fmt.length := by
  refine lt_of_le_of_lt (suffix_scan arg cursor).length_le ?_
  cases hfmt : cursor.fmt with
  | nil =>
      rw [hfmt] at hnul
      exact absurd rfl hnul
  | cons c fmt => exact Nat.lt_succ_self _

/-- The loop ends at a NUL. -/
theorem pieces_ends (arg : VaList) {n : Nat} {cursor : Cursor}
    (hn : cursor.fmt.length ≤ n) :
    (arg.pieces n cursor).2.fmt.headD 0 = 0 := by
  induction n generalizing cursor with
  | zero =>
      have hnil : cursor.fmt = [] := List.eq_nil_of_length_eq_zero (by omega)
      rw [VaList.pieces, hnil]
      rfl
  | succ n ih =>
      rw [VaList.pieces]
      split
      next hnul => exact hnul
      next hnul =>
        have hless := length_scan arg hnul
        exact ih (by omega)

end YiOS.Printk
