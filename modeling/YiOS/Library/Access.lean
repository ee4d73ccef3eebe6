import Mathlib.Data.List.Basic
import Mathlib.Logic.Function.Basic

namespace YiOS.Library

/-! Accesses to a memory, one after the other: values are stored, and what an address holds
is sent out. Another run may come in between. -/

inductive Access (α β : Type*) where
  | store (a : α) (v : β)
  | send (a : α)

namespace Access

variable {α β : Type*}

/-- What is at `a` before the accesses is sent by one of them. -/
def Exposed (a : α) : List (Access α β) → Prop
  | [] => False
  | store b _ :: accesses => a ≠ b ∧ Exposed a accesses
  | send b :: accesses => a = b ∨ Exposed a accesses

theorem exposed_stores (a : α) (stores : List (α × β)) (accesses : List (Access α β)) :
    Exposed a ((stores.map fun s => store s.1 s.2) ++ accesses) ↔
      a ∉ stores.map Prod.fst ∧ Exposed a accesses := by
  induction stores with
  | nil => simp
  | cons s stores ih =>
      rw [List.map_cons, List.cons_append, Exposed, ih, List.map_cons,
        List.mem_cons, not_or,
        and_assoc]

theorem exposed_sends (a : α) (addresses : List α) :
    Exposed (β := β) a (addresses.map send) ↔ a ∈ addresses := by
  induction addresses with
  | nil => simp [Exposed]
  | cons b addresses ih => rw [List.map_cons, Exposed, ih, List.mem_cons]

variable [DecidableEq α]

/-- The memory after the accesses and what they send. -/
def run (m : α → β) : List (Access α β) → (α → β) × List β
  | [] => (m, [])
  | store a v :: accesses => run (Function.update m a v) accesses
  | send a :: accesses =>
      let (m', sent) := run m accesses
      (m', m a :: sent)

theorem run_append (m : α → β) (first second : List (Access α β)) :
    run m (first ++ second) =
      ((run (run m first).1 second).1, (run m first).2 ++ (run (run m first).1 second).2) := by
  induction first generalizing m with
  | nil => rfl
  | cons access first ih =>
      cases access with
      | store a v => exact ih _
      | send a => simp only [List.cons_append, run, ih]

theorem run_stores (m : α → β) (stores : List (α × β)) :
    run m (stores.map fun s => store s.1 s.2) =
      (stores.foldl (fun m s => Function.update m s.1 s.2) m, []) := by
  induction stores generalizing m with
  | nil => rfl
  | cons s stores ih => exact ih _

theorem run_sends (m : α → β) (addresses : List α) :
    run m (addresses.map send) = (m, addresses.map m) := by
  induction addresses with
  | nil => rfl
  | cons a addresses ih => simp only [List.map_cons, run, ih]

/-- Two memories send the same exactly when they agree where they are exposed. -/
theorem sent_eq_iff (m m' : α → β) (accesses : List (Access α β)) :
    (run m' accesses).2 = (run m accesses).2 ↔ ∀ a, Exposed a accesses → m' a = m a := by
  induction accesses generalizing m m' with
  | nil => exact ⟨fun _ a ha => absurd ha id, fun _ => rfl⟩
  | cons access accesses ih =>
      cases access with
      | store b v =>
          rw [run, run, ih]
          constructor
          · intro h a ha
            simpa [ha.1] using h a ha.2
          · intro h a ha
            by_cases hb : a = b
            · rw [hb, Function.update_self, Function.update_self]
            · rw [Function.update_of_ne hb, Function.update_of_ne hb]
              exact h a ⟨hb, ha⟩
      | send b =>
          simp only [run, List.cons.injEq, ih]
          constructor
          · rintro ⟨hb, h⟩ a ha
            cases ha with
            | inl heq => rw [heq, hb]
            | inr ha => exact h a ha
          · intro h
            exact ⟨h b (.inl rfl), fun a ha => h a (.inr ha)⟩

/-- What comes out before, by and after a run that breaks in behind `k` accesses. -/
structure Sent (β : Type*) where
  before : List β
  inserted : List β
  after : List β

def interrupted (m : α → β) (outer inner : List (Access α β)) (k : Nat) : Sent β :=
  let (m, before) := run m (outer.take k)
  let (m, inserted) := run m inner
  { before, inserted, after := (run m (outer.drop k)).2 }

/-- The outer run sends what it sends alone exactly when the inner one leaves what is
exposed at that point. -/
theorem interrupted_iff (m : α → β) (outer inner : List (Access α β)) (k : Nat) :
    (interrupted m outer inner k).before ++ (interrupted m outer inner k).after =
        (run m outer).2 ↔
      ∀ a, Exposed a (outer.drop k) →
        (run (run m (outer.take k)).1 inner).1 a = (run m (outer.take k)).1 a := by
  have hsplit := run_append m (outer.take k) (outer.drop k)
  rw [List.take_append_drop] at hsplit
  rw [hsplit, ← sent_eq_iff]
  exact List.append_right_inj _

end Access

end YiOS.Library
