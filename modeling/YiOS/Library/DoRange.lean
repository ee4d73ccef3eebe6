import Mathlib.Data.Nat.Bitwise

namespace YiOS.Library

variable {α : Type*}
variable {next : BitVec w → BitVec w → BitVec w}
variable {body : BitVec w → BitVec w → BitVec w → BitVec w → α → Option α}
variable {stride stop : BitVec w}

/-! The do-while loop that cuts an address range into pieces.  A pointer moves
by `stride` and an offset moves with the address; `none` is a loop that has not
left within `fuel` rounds, or whose body has not. -/

def doRange (next : BitVec w → BitVec w → BitVec w)
    (body : BitVec w → BitVec w → BitVec w → BitVec w → α → Option α)
    (stride stop : BitVec w) :
    Nat → BitVec w → BitVec w → BitVec w → α → Option α
  | 0, _, _, _, _ => none
  | fuel + 1, ptr, addr, offset, s =>
      (body ptr addr (next addr stop) offset s).bind fun s =>
        if next addr stop = stop then
          some s
        else
          doRange next body stride stop fuel (ptr + stride) (next addr stop)
            (offset + (next addr stop - addr)) s

theorem doRange_succ_eq_some (h : doRange next body stride stop (fuel + 1)
      ptr addr offset s = some s') :
    ∃ middle, body ptr addr (next addr stop) offset s = some middle ∧
      (next addr stop = stop ∧ middle = s' ∨
        next addr stop ≠ stop ∧
          doRange next body stride stop fuel (ptr + stride) (next addr stop)
            (offset + (next addr stop - addr)) middle = some s') := by
  simp only [doRange, Option.bind_eq_some_iff] at h
  obtain ⟨middle, hbody, hrest⟩ := h
  refine ⟨middle, hbody, ?_⟩
  split at hrest
  · next hstop => exact .inl ⟨hstop, Option.some.inj hrest⟩
  · next hstop => exact .inr ⟨hstop, hrest⟩

theorem doRange_once (h : next addr stop = stop) :
    doRange next body stride stop (fuel + 1) ptr addr offset s =
      body ptr addr stop offset s := by
  simp [doRange, h]

/-- What every body call does to the state, the loop does to the state. -/
theorem doRange_rel {R : α → α → Prop} (htrans : ∀ {a b c}, R a b → R b c → R a c)
    (hbody : ∀ {ptr addr upto offset s s'},
      body ptr addr upto offset s = some s' → R s s') :
    ∀ {fuel ptr addr offset s s'},
      doRange next body stride stop fuel ptr addr offset s = some s' → R s s' := by
  intro fuel
  induction fuel with
  | zero => intro _ _ _ _ _ h; simp [doRange] at h
  | succ fuel ih =>
      intro ptr addr offset s s' h
      obtain ⟨middle, hfirst, ⟨_, rfl⟩ | ⟨_, hrest⟩⟩ := doRange_succ_eq_some h
      · exact hbody hfirst
      · exact htrans (hbody hfirst) (ih hrest)

/-- Partial correctness: an invariant of the address, the pointer, the offset
and the state that each round carries to the next piece. -/
theorem doRange_inv {I : BitVec w → BitVec w → BitVec w → α → Prop}
    (hstep : ∀ {addr ptr offset s s'}, I addr ptr offset s → addr ≠ stop →
      body ptr addr (next addr stop) offset s = some s' →
      I (next addr stop) (ptr + stride) (offset + (next addr stop - addr)) s') :
    ∀ {fuel ptr addr offset s s'}, I addr ptr offset s → addr ≠ stop →
      doRange next body stride stop fuel ptr addr offset s = some s' →
      ∃ ptr' offset', I stop ptr' offset' s' := by
  intro fuel
  induction fuel with
  | zero => intro _ _ _ _ _ _ _ h; simp [doRange] at h
  | succ fuel ih =>
      intro ptr addr offset s s' hinv hne h
      obtain ⟨middle, hfirst, ⟨hstop, rfl⟩ | ⟨hstop, hrest⟩⟩ :=
        doRange_succ_eq_some h
      · have hlast := hstep hinv hne hfirst
        rw [hstop] at hlast
        exact ⟨_, _, hlast⟩
      · exact ih (hstep hinv hne hfirst) hstop hrest

/-- Total correctness: besides, every body call returns and every piece lowers a
rank that the fuel covers. -/
theorem doRange_total {I : BitVec w → BitVec w → BitVec w → α → Prop}
    (rank : BitVec w → Nat)
    (hstep : ∀ {addr ptr offset s}, I addr ptr offset s → addr ≠ stop →
      rank (next addr stop) < rank addr ∧
      ∃ s', body ptr addr (next addr stop) offset s = some s' ∧
        I (next addr stop) (ptr + stride) (offset + (next addr stop - addr)) s') :
    ∀ {fuel addr ptr offset s}, I addr ptr offset s → addr ≠ stop → rank addr ≤ fuel →
      ∃ s', doRange next body stride stop fuel ptr addr offset s = some s' ∧
        ∃ ptr' offset', I stop ptr' offset' s' := by
  intro fuel
  induction fuel with
  | zero =>
      intro addr ptr offset s hinv hne hrank
      have := (hstep hinv hne).1
      omega
  | succ fuel ih =>
      intro addr ptr offset s hinv hne hrank
      obtain ⟨hlt, middle, hmiddle, hnext⟩ := hstep hinv hne
      simp only [doRange, hmiddle, Option.bind_some]
      split
      · next hstop =>
        rw [hstop] at hnext
        exact ⟨middle, rfl, _, _, hnext⟩
      · next hstop => exact ih hnext hstop (by omega)

/-- Termination alone. -/
theorem doRange_isSome {P : BitVec w → Prop} (rank : BitVec w → Nat)
    (hnext : ∀ {addr}, P addr → addr ≠ stop →
      P (next addr stop) ∧ rank (next addr stop) < rank addr)
    (hbody : ∀ {addr} ptr offset s, P addr → addr ≠ stop →
      (body ptr addr (next addr stop) offset s).isSome)
    {fuel : Nat} {addr : BitVec w} (ptr offset : BitVec w) (s : α) (hP : P addr)
    (hne : addr ≠ stop) (hrank : rank addr ≤ fuel) :
    (doRange next body stride stop fuel ptr addr offset s).isSome := by
  have htotal : ∃ s', doRange next body stride stop fuel ptr addr offset s = some s' ∧
      ∃ ptr' offset' : BitVec w, P stop := by
    refine doRange_total (I := fun a _ _ _ => P a) rank ?_ hP hne hrank
    intro a ptr offset s hP hne
    obtain ⟨hPnext, hlt⟩ := hnext hP hne
    obtain ⟨s', hs'⟩ := Option.isSome_iff_exists.mp (hbody ptr offset s hP hne)
    exact ⟨hlt, s', hs', hPnext⟩
  obtain ⟨s', hrun, _⟩ := htotal
  rw [hrun]
  rfl

end YiOS.Library
