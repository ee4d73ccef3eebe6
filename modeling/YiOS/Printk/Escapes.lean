import YiOS.Printk.Bounds

namespace YiOS.Printk

open YiOS.Library

/-! `%%`, unknown conversions and directives that the format cuts off. -/

/-- Where the passes of the loop begin. -/
def VaList.visits (arg : VaList) : Nat → Cursor → List Cursor
  | 0, _ => []
  | n + 1, cursor =>
      if cursor.fmt.headD 0 = 0 then []
      else cursor :: arg.visits n (arg.pass cursor).2

def visits (fmt : List Byte) (arg : VaList) (base : Int32) : List Cursor :=
  arg.visits (fmt.length + 1) { fmt := fmt ++ [0], next := 0, base }

/-- The character that the switch finds. -/
def VaList.conversionAt (arg : VaList) (cursor : Cursor) : Byte :=
  (arg.directive cursor.fmt.tail cursor.next).2.1.headD 0

/-- A `%` whose conversion is no label of the switch: a second `%`, an unknown character, or
the end of the format.  The scanner stays at a `*`, so that one is found as a conversion
too. -/
structure VaList.AtEscape (arg : VaList) (cursor : Cursor) : Prop where
  percent : cursor.fmt.headD 0 = ch '%'
  unknown : conversionOf (arg.conversionAt cursor) = none

/-- What an escape is to write. -/
def escapeText (c : Byte) : List Byte :=
  if c = ch '%' ∨ c = 0 then [ch '%'] else [ch '%', c]

/-- The pass writes the escape, calls no `number` and takes no slot for it. -/
structure VaList.Escapes (arg : VaList) (cursor : Cursor) : Prop where
  output : (arg.pass cursor).1 = [.text (escapeText (arg.conversionAt cursor))]
  slot : (arg.pass cursor).2.next = (arg.directive cursor.fmt.tail cursor.next).2.2

/-- The pass over an escape goes on to a number with whatever `base` is left. -/
theorem escape_pass (arg : VaList) {cursor : Cursor} (hescape : arg.AtEscape cursor) :
    let (d, _, next) := arg.directive cursor.fmt.tail cursor.next
    (arg.pass cursor).1 = [.text (escapeText (arg.conversionAt cursor)),
      outputNumber (d.num (arg.slot next)) cursor.base d] ∧
        (arg.pass cursor).2.next = next + 1 := by
  have hpercent : ¬ cursor.fmt.headD 0 ≠ ch '%' := not_not.mpr hescape.percent
  have hunknown := hescape.unknown
  unfold VaList.conversionAt at hunknown ⊢
  unfold VaList.pass
  rw [if_neg hpercent]
  simp only [VaList.convert, hunknown, and_true]
  have htext : ∀ c : Byte, (if c = ch '%' then [] else [ch '%']) ++ (if c = 0 then [] else [c]) =
      escapeText c := by
    have hdistinct : ch '%' ≠ 0 := by decide
    intro c
    unfold escapeText
    split_ifs <;> simp_all
  rw [htext]

/-- No escape is one character or two: each takes a slot and prints it. -/
theorem escapes_iff (fmt : List Byte) (arg : VaList) (base : Int32) :
    (∀ cursor ∈ visits fmt arg base, arg.AtEscape cursor → arg.Escapes cursor) ↔
      ∀ cursor ∈ visits fmt arg base, ¬ arg.AtEscape cursor := by
  constructor
  · intro h cursor hcursor hescape
    have hslot := (h cursor hcursor hescape).slot
    have htaken := (escape_pass arg hescape).2
    rw [hslot] at htaken
    exact absurd htaken (Nat.succ_ne_self _).symm
  · intro h cursor hcursor hescape
    exact absurd hescape (h cursor hcursor)

theorem not_escapes : ¬ ∀ fmt arg base, ∀ cursor ∈ visits fmt arg base,
    arg.AtEscape cursor → arg.Escapes cursor := by
  intro h
  have hvisit : { fmt := ['%', '%', '\x00'].map ch, next := 0, base := 10 } ∈
      visits (['%', '%'].map ch) noArguments 10 := by decide +kernel
  have hescapes := h _ noArguments 10 _ hvisit ⟨by decide +kernel, by decide +kernel⟩
  have hslot := hescapes.slot
  revert hslot
  decide +kernel

end YiOS.Printk
