import Mathlib.Data.List.Chain

namespace YiOS.Library

/-! A timer that is set again whenever it is served, counted from then. -/

/-- `served` are the times at which it has been served, latest first. -/
structure Rearmed where
  now : Nat
  due : Nat
  served : List Nat

namespace Rearmed

/-- Time passes, but no more than `latency` with the timer due; or it is served. -/
inductive Step (period latency : Nat) : Rearmed → Rearmed → Prop
  | elapse {r : Rearmed} (d : Nat) : r.now + d ≤ r.due + latency →
      Step period latency r { r with now := r.now + d }
  | serve {r : Rearmed} : r.due ≤ r.now →
      Step period latency r { r with due := r.now + period, served := r.now :: r.served }

/-- One time follows another one. -/
def Follows (period latency : Nat) (later earlier : Nat) : Prop :=
  earlier + period ≤ later ∧ later ≤ earlier + (period + latency)

/-- What holds at all times of a timer that has been set first at `start`. -/
structure Kept (period latency start : Nat) (r : Rearmed) : Prop where
  due : r.due = r.served.headD start + period
  past : r.served.headD start ≤ r.now
  late : r.now ≤ r.due + latency
  spaced : (r.served ++ [start]).IsChain (Follows period latency)

section Kept

variable {period latency start : Nat} {r r' : Rearmed}

theorem Kept.first : Kept period latency start ⟨start, start + period, []⟩ where
  due := rfl
  past := Nat.le_refl start
  late := by
    change start ≤ start + period + latency
    omega
  spaced := List.isChain_singleton start

theorem Kept.step (h : Kept period latency start r) (hstep : Step period latency r r') :
    Kept period latency start r' := by
  cases hstep with
  | elapse d hlate =>
      refine ⟨h.due, ?_, hlate, h.spaced⟩
      exact Nat.le_trans h.past (Nat.le_add_right _ d)
  | serve hdue =>
      refine ⟨rfl, Nat.le_refl _, ?_, ?_⟩
      · change r.now ≤ r.now + period + latency
        omega
      · have hhead : ∃ rest, r.served ++ [start] = r.served.headD start :: rest := by
          cases r.served with
          | nil => exact ⟨[], rfl⟩
          | cons last served => exact ⟨served ++ [start], rfl⟩
        obtain ⟨rest, hrest⟩ := hhead
        have hspaced := h.spaced
        have hlate := h.late
        have hset := h.due
        rw [hrest] at hspaced
        change (r.now :: (r.served ++ [start])).IsChain (Follows period latency)
        rw [hrest]
        refine List.IsChain.cons_cons ⟨?_, ?_⟩ hspaced
        · omega
        · omega

/-- What the spacing comes to over many times. -/
theorem bounds_of_spaced {served : List Nat}
    (h : (served ++ [start]).IsChain (Follows period latency)) :
    start + served.length * period ≤ served.headD start ∧
      served.headD start ≤ start + served.length * (period + latency) := by
  induction served with
  | nil => simp
  | cons last served ih =>
      have hfollows : Follows period latency last (served.headD start) := by
        cases served with
        | nil => exact (List.isChain_cons_cons.mp h).1
        | cons before served => exact (List.isChain_cons_cons.mp h).1
      obtain ⟨hlow, hhigh⟩ := ih (List.IsChain.tail h)
      obtain ⟨hearly, hlate⟩ := hfollows
      rw [List.length_cons, List.headD_cons, Nat.succ_mul, Nat.succ_mul]
      omega

/-- Never early, and no more than `latency` late each time: how often the timer has been
served says what time it is. -/
theorem Kept.bounds (h : Kept period latency start r) :
    start + r.served.length * period ≤ r.now ∧
      r.now ≤ start + (r.served.length + 1) * (period + latency) := by
  obtain ⟨hlow, hhigh⟩ := bounds_of_spaced h.spaced
  have hpast := h.past
  have hlate := h.late
  have hdue := h.due
  rw [Nat.succ_mul]
  omega

end Kept

end Rearmed

end YiOS.Library
