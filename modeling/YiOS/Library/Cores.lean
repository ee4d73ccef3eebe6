import YiOS.Library.Program

namespace YiOS.Library

/-! Several cores that take turns, in any order, before what they share. -/

structure Cores (ι α σ : Type) where
  own : ι → α
  shared : σ

namespace Cores

variable {ι α σ : Type} [DecidableEq ι] (step : α × σ → Option (α × σ))

/-- A core that has no next step stays where it is. -/
def turn (s : Cores ι α σ) (i : ι) : Cores ι α σ :=
  match step (s.own i, s.shared) with
  | none => s
  | some next => ⟨Function.update s.own i next.1, next.2⟩

def run (s : Cores ι α σ) (turns : List ι) : Cores ι α σ := turns.foldl (turn step) s

/-- One step of a core by itself. -/
def alone (a : α × σ) : α × σ := (step a).getD a

/-- A core that is `Quiet` stays so, and changes nothing that is shared. -/
def Undisturbed (Quiet : α → Prop) : Prop :=
  ∀ a next, Quiet a.1 → step a = some next → Quiet next.1 ∧ next.2 = a.2

section Run

variable {step} {Quiet : α → Prop} {s : Cores ι α σ} {i j : ι} {turns : List ι}

theorem turn_own_self : ((s.turn step i).own i, (s.turn step i).shared) =
    alone step (s.own i, s.shared) := by
  unfold turn alone
  cases hstep : step (s.own i, s.shared) with
  | none => rfl
  | some next => simp

theorem turn_quiet (h : Undisturbed step Quiet) (hj : Quiet (s.own j)) (hij : i ≠ j) :
    (s.turn step j).own i = s.own i ∧ (s.turn step j).shared = s.shared ∧
      Quiet ((s.turn step j).own j) := by
  unfold turn
  cases hstep : step (s.own j, s.shared) with
  | none => exact ⟨rfl, rfl, hj⟩
  | some next =>
      obtain ⟨hquiet, hshared⟩ := h _ _ hj hstep
      have hown : Quiet (Function.update s.own j next.1 j) := by rwa [Function.update_self]
      exact ⟨Function.update_of_ne hij _ _, hshared, hown⟩

theorem turn_other (hij : i ≠ j) : (s.turn step i).own j = s.own j := by
  unfold turn
  cases step (s.own i, s.shared) with
  | none => rfl
  | some next => exact Function.update_of_ne hij.symm _ _

/-- Among quiet cores the one that is not runs as it does by itself. -/
theorem run_alone (h : Undisturbed step Quiet) (hs : ∀ j, j ≠ i → Quiet (s.own j))
    (turns : List ι) :
    (∀ j, j ≠ i → Quiet ((s.run step turns).own j)) ∧
      ((s.run step turns).own i, (s.run step turns).shared) =
        (alone step)^[turns.count i] (s.own i, s.shared) := by
  induction turns generalizing s with
  | nil => exact ⟨hs, rfl⟩
  | cons j turns ih =>
      have hrun : s.run step (j :: turns) = (s.turn step j).run step turns :=
        List.foldl_cons ..
      rw [hrun]
      by_cases hij : j = i
      · subst hij
        have hothers : ∀ k, k ≠ j → Quiet ((s.turn step j).own k) := by
          intro k hk
          rw [turn_other hk.symm]
          exact hs k hk
        obtain ⟨hquiet, hown⟩ := ih hothers
        refine ⟨hquiet, ?_⟩
        rw [hown, turn_own_self, List.count_cons_self, Function.iterate_succ_apply]
      · obtain ⟨hsame, hshared, hj⟩ := turn_quiet (i := i) h (hs j hij) (Ne.symm hij)
        have hothers : ∀ k, k ≠ i → Quiet ((s.turn step j).own k) := by
          intro k hk
          by_cases hkj : k = j
          · rwa [hkj]
          · rw [turn_other (Ne.symm hkj)]
            exact hs k hk
        obtain ⟨hquiet, hown⟩ := ih hothers
        refine ⟨hquiet, ?_⟩
        rw [hown, hsame, hshared, List.count_cons_of_ne hij]

end Run

/-- A core that comes to an end by itself has come to it after so many steps, and stays
there. -/
theorem alone_of_reaches {step : α × σ → Option (α × σ)} {a a' : α × σ}
    (h : StateTransition.Reaches step a a') (hend : step a' = none) :
    ∃ k, ∀ m, k ≤ m → (alone step)^[m] a = a' := by
  have hstay : ∀ m, (alone step)^[m] a' = a' := by
    intro m
    have hfixed : alone step a' = a' := by rw [alone, hend, Option.getD_none]
    exact Function.iterate_fixed hfixed m
  induction h using Relation.ReflTransGen.head_induction_on with
  | refl => exact ⟨0, fun m _ => hstay m⟩
  | head hstep _ ih =>
      obtain ⟨k, hk⟩ := ih
      refine ⟨k + 1, fun m hm => ?_⟩
      obtain ⟨m, rfl⟩ := Nat.exists_eq_succ_of_ne_zero (Nat.ne_of_gt (Nat.zero_lt_of_lt hm))
      rw [Function.iterate_succ_apply, alone, Option.mem_def.mp hstep, Option.getD_some]
      exact hk m (Nat.le_of_succ_le_succ hm)

end Cores

namespace Platform

variable {δ : Type}

/-- What a core sees. -/
def see (a : Core × (Memory × δ)) : Platform δ :=
  { a.1 with cpu := { a.1.cpu with mem := a.2.1 }, dev := a.2.2 }

def split (n : Platform δ) : Core × (Memory × δ) := (n.toCore, (n.cpu.mem, n.dev))

@[simp] theorem see_split (n : Platform δ) : see n.split = n := rfl

end Platform

namespace Program

variable {δ : Type} (device : Device δ) (p : Program)

/-- A step of a core before the memory and the device that it shares with others. -/
def coreStep (a : Core × (Memory × δ)) : Option (Core × (Memory × δ)) :=
  (p.step device (Platform.see a)).map Platform.split

theorem coreStep_split (n : Platform δ) :
    p.coreStep device n.split = (p.step device n).map Platform.split := rfl

theorem coreStep_reaches {device : Device δ} {p : Program} {n n' : Platform δ}
    (h : p.Reaches device n n') :
    StateTransition.Reaches (p.coreStep device) n.split n'.split := by
  induction h with
  | refl => exact .refl
  | @tail n n' _ hstep ih =>
      refine ih.tail ?_
      rw [coreStep_split, Option.mem_def.mp hstep]
      rfl

end Program

end YiOS.Library
