import YiOS.Library.DoRange

namespace YiOS.Library

variable {α : Type*}
variable {next : BitVec w → BitVec w → BitVec w}
variable {body : BitVec w → BitVec w → BitVec w → BitVec w → α → Option α}
variable {stride stop : BitVec w}

/-! The pieces that the do-while loop over an address range goes through, whatever
its body does. -/

/-- Each piece as its two ends. -/
def cuts (next : BitVec w → BitVec w → BitVec w) (stop : BitVec w) :
    Nat → BitVec w → Option (List (BitVec w × BitVec w))
  | 0, _ => none
  | fuel + 1, addr =>
      if next addr stop = stop then
        some [(addr, stop)]
      else
        (cuts next stop fuel (next addr stop)).map ((addr, next addr stop) :: ·)

/-- The pieces follow one another from `a` to `b`. -/
def Tiles {β : Type*} (a b : β) : List (β × β) → Prop
  | [] => a = b
  | piece :: pieces => piece.1 = a ∧ Tiles piece.2 b pieces

/-- What a round does to the pointer, the offset and the state. -/
def roundOf (body : BitVec w → BitVec w → BitVec w → BitVec w → α → Option α)
    (stride : BitVec w) :
    BitVec w × BitVec w × α → BitVec w × BitVec w → Option (BitVec w × BitVec w × α)
  | (ptr, offset, s), (addr, upto) =>
      (body ptr addr upto offset s).map fun s => (ptr + stride, offset + (upto - addr), s)

theorem Tiles.append {β : Type*} {a b c : β} {pieces₁ pieces₂ : List (β × β)}
    (h₁ : Tiles a b pieces₁) (h₂ : Tiles b c pieces₂) :
    Tiles a c (pieces₁ ++ pieces₂) := by
  induction pieces₁ generalizing a with
  | nil =>
      cases h₁
      exact h₂
  | cons piece pieces ih => exact ⟨h₁.1, ih h₁.2⟩

theorem cuts_tiles (h : cuts next stop fuel addr = some pieces) :
    Tiles addr stop pieces := by
  induction fuel generalizing addr pieces with
  | zero => cases h
  | succ fuel ih =>
      rw [cuts] at h
      split at h
      · cases h
        exact ⟨rfl, rfl⟩
      · obtain ⟨rest, hrest, rfl⟩ := Option.map_eq_some_iff.mp h
        exact ⟨rfl, ih hrest⟩

/-- A loop over a range is its body over the pieces. -/
theorem doRange_eq_cuts : doRange next body stride stop fuel ptr addr offset s =
    (cuts next stop fuel addr).bind fun pieces =>
      (pieces.foldlM (roundOf body stride) (ptr, offset, s)).map fun last => last.2.2 := by
  induction fuel generalizing ptr addr offset s with
  | zero => rfl
  | succ fuel ih =>
      rw [doRange, cuts]
      split
      · next hstop =>
        rw [hstop]
        cases hbody : body ptr addr stop offset s <;> simp [roundOf, hbody]
      · cases hbody : body ptr addr (next addr stop) offset s with
        | none => cases cuts next stop fuel (next addr stop) <;> simp [roundOf, hbody]
        | some middle =>
            rw [Option.bind_some, ih]
            cases cuts next stop fuel (next addr stop) <;> simp [roundOf, hbody]

/-- A loop whose rounds never reach `stop` does not leave. -/
theorem cuts_endless (h : ∀ addr, next addr stop ≠ stop) (fuel : Nat) (addr : BitVec w) :
    cuts next stop fuel addr = none := by
  induction fuel generalizing addr with
  | zero => rfl
  | succ fuel ih => rw [cuts, if_neg (h addr), ih, Option.map_none]

theorem doRange_endless (h : ∀ addr, next addr stop ≠ stop) :
    doRange next body stride stop fuel ptr addr offset s = none := by
  rw [doRange_eq_cuts, cuts_endless h, Option.bind_none]

end YiOS.Library
