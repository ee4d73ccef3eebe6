import YiOS.Printk.Items

namespace YiOS.Printk

open YiOS.Library

/-! The output of a format is the outputs of its items, one after the other. -/

/-- A `va_list` that has passed `i` slots. -/
def VaList.skip (arg : VaList) (i : Nat) : VaList :=
  { arg with slot := fun j => arg.slot (i + j) }

def Form.text (form : Form) (arg : VaList) (word : U64) : List Byte :=
  match (form.piece 0 word).outputs arg with
  | .text written :: _ => written
  | _ => []

def itemsText (arg : VaList) : Nat → List Item → List Byte
  | _, [] => []
  | i, .literal c _ _ :: items => c :: itemsText arg i items
  | i, .directive form :: items => form.text arg (arg.slot i) ++ itemsText arg (i + 1) items

def slots : List Item → Nat
  | [] => 0
  | .literal _ _ _ :: items => slots items
  | .directive _ :: items => slots items + 1

/-- No conversion of a form depends on `base`. -/
theorem form_outputs (form : Form) (arg : VaList) (base : Int32) (word : U64) :
    (form.piece base word).outputs arg = [.text (form.text arg word)] := by
  have hnumber : ∀ num (d : Directive) (base : Int32), ValidBase base → ∃ written,
      [outputNumber num base d] = [.text written] := by
    intro num d base hbase
    obtain ⟨written, hwritten, -⟩ := outputNumber_valid num d hbase
    exact ⟨written, congrArg (fun output => [output]) hwritten⟩
  have hone : ∃ written, (form.piece base word).outputs arg = [.text written] := by
    have hconversion := form.hconversion
    simp only [Form.piece, Piece.outputs, VaList.convert, conversionOf_char]
    cases hc : form.conversion with
    | c => exact ⟨_, rfl⟩
    | s => exact ⟨_, rfl⟩
    | n => exact absurd hc hconversion
    | p => exact hnumber _ _ 16 (by decide)
    | o => exact hnumber _ _ 8 (by decide)
    | x => exact hnumber _ _ 16 (by decide)
    | X => exact hnumber _ _ 16 (by decide)
    | d => exact hnumber _ _ 10 (by decide)
    | i => exact hnumber _ _ 10 (by decide)
    | u => exact hnumber _ _ 10 (by decide)
  have hbase : (form.piece 0 word).outputs arg = (form.piece base word).outputs arg := by
    simp only [Form.piece, Piece.outputs, VaList.convert, conversionOf_char]
    cases form.conversion <;> rfl
  obtain ⟨written, hwritten⟩ := hone
  rw [Form.text, hbase, hwritten]

theorem pieces_cons (arg : VaList) (n next : Nat) (base : Int32) {c : Byte}
    (fmt : List Byte)
    (hnul : c ≠ 0) :
    let scanned := arg.scan { fmt := c :: fmt, next, base }
    arg.pieces (n + 1) { fmt := c :: fmt, next, base } =
      (scanned.1 :: (arg.pieces n scanned.2).1, (arg.pieces n scanned.2).2) := by
  rw [VaList.pieces, List.headD_cons, if_neg hnul]

theorem write_append (string : U64) (left right : List Byte) (w : Written) :
    (Output.text right).write string ((Output.text left).write string w) =
      (Output.text (left ++ right)).write string w := by
  simp only [Output.write, placeText_append, List.length_append, BitVec.ofNat_add,
    BitVec.add_assoc, List.append_assoc]

/-- The characters of outputs that keep `pos` and store nowhere else. -/
def writtenText : List Output → Option (List Byte)
  | [] => some []
  | .text written :: out => (writtenText out).map (written ++ ·)
  | .count _ :: _ | .null :: _ => none

/-- What a format comes to, and the slots it takes. -/
def formatted (fmt : List Byte) (arg : VaList) (base : Int32) : Option (List Byte) × Nat :=
  let (out, cursor) := arg.passes (fmt.length + 1) { fmt := fmt ++ [0], next := 0, base }
  (writtenText out, cursor.next)

theorem write_writtenText (string : U64) {out : List Output} {text : List Byte}
    (h : writtenText out = some text) (w : Written) :
    out.foldl (Output.write string) w = Output.write string w (.text text) := by
  induction out generalizing text w with
  | nil =>
      cases h
      simp [Output.write, placeText]
  | cons output out ih =>
      cases output with
      | text written =>
          obtain ⟨rest, hrest, rfl⟩ := Option.map_eq_some_iff.mp h
          rw [List.foldl_cons, ih hrest, write_append]
      | count ip => exact absurd h (by simp [writtenText])
      | null => exact absurd h (by simp [writtenText])

theorem myprintf_formatted (string : U64) (size : BitVec 32) {fmt : List Byte}
    {arg : VaList}
    {base : Int32} (h : formatted fmt arg base = (some text, next)) :
    myprintf string size fmt arg base =
      { stores := placeText string (text ++ [0]), next,
        ret := Int32.ofNat text.length } := by
  unfold formatted at h
  rw [Prod.mk.injEq] at h
  unfold myprintf
  simp only [write_writtenText string h.1, h.2, Output.write, placeText_append,
    ofBitVec_sub,
    List.nil_append]
  rfl

theorem write_items (string : U64) (arg : VaList) (items : List Item) {n : Nat} (i : Nat)
    (base : Int32) {read : List Piece × Cursor} (w : Written)
    (hn : (format items).length ≤ n)
    (hread : arg.pieces n { fmt := format items ++ [0], next := i, base } = read) :
    (read.1.flatMap (Piece.outputs arg)).foldl (Output.write string) w =
        Output.write string w (.text (itemsText arg i items)) ∧
      read.2.next = i + slots items := by
  induction items generalizing n i base w read with
  | nil =>
      have hnil : arg.pieces n { fmt := format [] ++ [0], next := i, base } =
          ([], { fmt := [0], next := i, base }) := by
        cases n <;> rfl
      rw [← hread, hnil]
      simp [itemsText, placeText, slots, Output.write]
  | cons item items ih =>
      rw [format, List.flatMap_cons, List.length_append, ← format] at hn
      rw [format, List.flatMap_cons, ← format, List.append_assoc] at hread
      cases item with
      | literal c hpercent hnul =>
          rw [Item.chars, List.length_singleton] at hn
          rw [Item.chars, List.singleton_append] at hread
          obtain ⟨n, rfl⟩ : ∃ k, n = k + 1 := Nat.exists_eq_add_one.mpr (by omega)
          rw [pieces_cons arg n i base _ hnul, scan_literal arg hpercent] at hread
          obtain ⟨hwrite, hnext⟩ :=
            ih (n := n) i base (Output.write string w (.text [c])) (by omega)
            rfl
          rw [← hread]
          refine ⟨?_, hnext⟩
          rw [List.flatMap_cons, List.foldl_append]
          exact hwrite.trans (write_append string [c] _ w)
      | directive form =>
          rw [Item.chars, Form.chars, List.length_cons] at hn
          have hscan := scan_form arg form (format items ++ [0]) i base
          rw [Form.chars] at hscan
          rw [Item.chars, Form.chars] at hread
          obtain ⟨n, rfl⟩ : ∃ k, n = k + 1 := Nat.exists_eq_add_one.mpr (by omega)
          rw [List.cons_append, pieces_cons arg n i base _ (by decide), ← List.cons_append,
            hscan] at hread
          obtain ⟨hwrite, hnext⟩ := ih (n := n) (i + 1)
            (baseAfter form.conversion.char base)
            (Output.write string w (.text (form.text arg (arg.slot i)))) (by omega) rfl
          rw [← hread]
          refine ⟨?_, hnext.trans (Nat.succ_add_eq_add_succ i (slots items))⟩
          rw [List.flatMap_cons, form_outputs, List.foldl_append]
          exact hwrite.trans (write_append string _ _ w)

theorem myprintf_items (string : U64) (size : BitVec 32) (items : List Item) (arg : VaList)
    (base : Int32) : myprintf string size (format items) arg base =
      { stores := placeText string (itemsText arg 0 items ++ [0])
        next := slots items
        ret := Int32.ofNat (itemsText arg 0 items).length } := by
  obtain ⟨hwrite, hnext⟩ := write_items string arg items 0 base
    { pos := string, stores := [] } (Nat.le_succ _) rfl
  unfold myprintf
  rw [passes_eq]
  simp only [hwrite, hnext, Output.write, placeText_append, ofBitVec_sub, List.nil_append,
    Nat.zero_add]
  rfl

/-- The characters stored before the NUL. -/
def Printed.text (printed : Printed) : List Byte := (printed.stores.map (·.2)).dropLast

theorem text_items (string : U64) (size : BitVec 32) (items : List Item) (arg : VaList)
    (base : Int32) :
    (myprintf string size (format items) arg base).text = itemsText arg 0 items := by
  rw [myprintf_items, Printed.text, map_snd_placeText, List.dropLast_concat]

/-- A call with a buffer and a stack of its own. -/
structure Call where
  string : U64
  size : BitVec 32
  base : Int32

/-- Every literal, and every directive formatted alone by a call of its own from its slot
on. -/
def aloneText (arg : VaList) (call : Nat → Call) : Nat → List Item → List Byte
  | _, [] => []
  | i, .literal c _ _ :: items => c :: aloneText arg call i items
  | i, .directive form :: items =>
      (myprintf (call i).string (call i).size form.chars (arg.skip i) (call i).base).text ++
        aloneText arg call (i + 1) items

theorem aloneText_eq (arg : VaList) (call : Nat → Call) (i : Nat) (items : List Item) :
    aloneText arg call i items = itemsText arg i items := by
  induction items generalizing i with
  | nil => rfl
  | cons item items ih =>
      cases item with
      | literal c hpercent hnul => rw [aloneText, itemsText, ih]
      | directive form =>
          have halone := text_items (call i).string (call i).size [.directive form]
            (arg.skip i)
            (call i).base
          rw [format, List.flatMap_singleton, Item.chars, itemsText, itemsText,
            List.append_nil] at halone
          rw [aloneText, itemsText, ih, halone]
          rfl

/-- A format writes what its items write alone, then the NUL; it takes one slot for each
directive, and returns the number of characters as an `int`. -/
theorem myprintf_composes (string : U64) (size : BitVec 32) (items : List Item)
    (arg : VaList)
    (base : Int32) (call : Nat → Call) :
    let printed := myprintf string size (format items) arg base
    let text := aloneText arg call 0 items
    printed.stores = placeText string (text ++ [0]) ∧ printed.next = slots items ∧
      printed.ret = Int32.ofNat text.length ∧
        (text.length < 2 ^ 31 → printed.ret.toInt = text.length) := by
  intro printed text
  have htext : text = itemsText arg 0 items := aloneText_eq arg call 0 items
  have hprinted := myprintf_items string size items arg base
  refine ⟨?_, ?_, ?_, ?_⟩
  · rw [htext]
    exact congrArg Printed.stores hprinted
  · exact congrArg Printed.next hprinted
  · rw [htext]
    exact congrArg Printed.ret hprinted
  · intro hlength
    rw [htext] at hlength ⊢
    have hret : printed.ret = Int32.ofNat (itemsText arg 0 items).length :=
      congrArg Printed.ret hprinted
    rw [hret]
    exact Int32.toInt_ofNat_of_lt hlength

def digitsValue (digits : List (Fin 10)) : Nat :=
  Nat.ofDigits 10 (digits.reverse.map Fin.val)

/-- Width and precision are what an `int` holds. -/
def Form.Small (form : Form) : Prop :=
  digitsValue form.width < 2 ^ 31 ∧ ∀ digits ∈ form.precision, digitsValue digits < 2 ^ 31

def Item.Small : Item → Prop
  | .literal _ _ _ => True
  | .directive form => form.Small

/-- `%2147483647c` -/
def widest : Form where
  flags := []
  width := [2, 1, 4, 7, 4, 8, 3, 6, 4, 7]
  precision := none
  length := none
  conversion := .c
  hwidth := by decide
  hconversion := by decide

/-- An output of `2 ^ 31` characters fits a buffer that `size` can describe, and its length
is no `int`. -/
theorem myprintf_not_composes : ¬ ∀ string size items arg base call,
    (∀ item ∈ items, item.Small) → (aloneText arg call 0 items).length + 1 ≤ size.toNat →
      let printed := myprintf string size (format items) arg base
      let text := aloneText arg call 0 items
      printed.stores = placeText string (text ++ [0]) ∧ printed.next = slots items ∧
        printed.ret.toInt = text.length := by
  intro h
  have hlength : (aloneText noArguments (fun _ => ⟨0x80000, 0, 0⟩) 0
      [.directive widest, .literal (ch 'x') (by decide) (by decide)]).length = 2147483648 := by
    rw [aloneText_eq, itemsText, itemsText, itemsText, List.length_append,
      List.length_singleton]
    have hwidest : (widest.text noArguments (noArguments.slot 0)).length = 2147483647 := by
      have htext : widest.text noArguments (noArguments.slot 0) =
          widest.directive.charText (noArguments.slot 0) := by
        simp only [Form.text, Form.piece, Piece.outputs, VaList.convert, conversionOf_char]
        rfl
      rw [htext, length_charText]
      decide +kernel
    rw [hwidest]
  have hclaim := h 0x80000 0x80000001
    [.directive widest, .literal (ch 'x') (by decide) (by decide)] noArguments 0
    (fun _ => ⟨0x80000, 0, 0⟩) (by
      simp [Item.Small, Form.Small, widest, digitsValue]
      decide) (by
      rw [hlength]
      decide)
  have hret := hclaim.2.2
  have hhigh := Int32.toInt_lt (myprintf 0x80000 0x80000001 (format
    [.directive widest, .literal (ch 'x') (by decide) (by decide)]) noArguments 0).ret
  rw [hret, hlength] at hhigh
  exact absurd hhigh (by decide)

end YiOS.Printk
