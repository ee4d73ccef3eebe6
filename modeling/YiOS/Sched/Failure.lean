import YiOS.Sched.Runs

namespace YiOS

/-! `do_fork` where it fails. -/

namespace Sched

/-- What a failed `do_fork` is to leave as it was. -/
structure Undone (s s' : Sched) : Prop where
  memMap : s'.memMap = s.memMap
  gTask : s'.gTask = s.gTask
  links : s'.links = s.links
  list : s'.list = s.list
  nrRunning : s'.nrRunning = s.nrRunning
  current : s'.current = s.current
  count : (s'.task s'.current).count = (s.task s.current).count

/-- Calls of `do_fork` that all return -1. -/
inductive FailedForks : Sched → Sched → Prop
  | refl : FailedForks s s
  | fork (h : FailedForks s s') (hfails : (doFork cloneFlags fn arg s').1 = -1) :
      FailedForks s (doFork cloneFlags fn arg s').2

/-- A page to take or no page to lose. -/
def KeepsPages (s : Sched) : Prop := (∀ i, s.memMap i ≠ 0) ∨ ∃ i, s.gTask i = none

theorem doFork_failed {s : Sched} (hkeeps : s.KeepsPages)
    (hfails : (doFork cloneFlags fn arg s).1 = -1) :
    (doFork cloneFlags fn arg s).2 = s := by
  cases doFork_cases cloneFlags fn arg s with
  | inl hfull => rw [hfull.2]
  | inr hpage =>
      obtain ⟨i, hfree, hslot⟩ := hpage
      cases hslot with
      | inl hnone =>
          cases hkeeps with
          | inl hused => exact absurd hfree (hused i)
          | inr hempty =>
              obtain ⟨slot, hslot⟩ := hempty
              exact absurd hslot (findEmptyTask_none hnone.1 slot)
      | inr hchild =>
          obtain ⟨pid, -, -, hfork⟩ := hchild
          rw [hfork] at hfails
          exact absurd hfails (by simp only; omega)

/-- The page that a failing call has taken is not given back. -/
theorem doFork_leaks {s : Sched} (hkeeps : ¬ s.KeepsPages) (cloneFlags fn arg : U64) :
    (doFork cloneFlags fn arg s).1 = -1 ∧
      (doFork cloneFlags fn arg s).2.memMap.free + 1 = s.memMap.free := by
  unfold KeepsPages at hkeeps
  push Not at hkeeps
  obtain ⟨⟨j, hfree⟩, hfull⟩ := hkeeps
  cases doFork_cases cloneFlags fn arg s with
  | inl hused => exact absurd hfree (hused.1 j)
  | inr hpage =>
      obtain ⟨i, hfree, hslot⟩ := hpage
      cases hslot with
      | inl hnone =>
          rw [hnone.2]
          exact ⟨rfl, MemMap.free_update hfree⟩
      | inr hchild =>
          obtain ⟨pid, -, hslot, -⟩ := hchild
          exact absurd hslot (hfull pid)

theorem FailedForks.same (h : FailedForks s s') (hkeeps : s.KeepsPages) : s' = s := by
  induction h with
  | refl => rfl
  | fork h hfails ih =>
      subst ih
      exact doFork_failed hkeeps hfails

/-- A failing `do_fork` undoes what it has done, and failing calls keep the free pages,
exactly when there is no page or a slot of `g_task` is free. -/
theorem failedForks_untouched_iff (s : Sched) :
    ((∀ cloneFlags fn arg, (doFork cloneFlags fn arg s).1 = -1 →
        s.Undone (doFork cloneFlags fn arg s).2) ↔ s.KeepsPages) ∧
      ((∀ s', FailedForks s s' → s'.memMap.free = s.memMap.free) ↔ s.KeepsPages) := by
  constructor
  · constructor
    · intro h
      by_contra hkeeps
      obtain ⟨hfails, hleak⟩ := doFork_leaks hkeeps 0 0 0
      rw [(h 0 0 0 hfails).memMap] at hleak
      omega
    · intro hkeeps cloneFlags fn arg hfails
      rw [doFork_failed hkeeps hfails]
      exact ⟨rfl, rfl, rfl, rfl, rfl, rfl, rfl⟩
  · constructor
    · intro h
      by_contra hkeeps
      obtain ⟨hfails, hleak⟩ := doFork_leaks hkeeps 0 0 0
      have hsame := h _ (.fork .refl hfails)
      omega
    · intro hkeeps s' hforks
      rw [hforks.same hkeeps]

def bootForks : Nat → Sched
  | 0 => bootKernel.schedInit
  | n + 1 => (doFork pfKthread 0x80000 0 (bootForks n)).2

theorem bootForks_run : ∀ n, SchedRun (fun _ => True) (bootForks n) false
  | 0 => .start bootKernel_boot
  | n + 1 => .fork (bootForks_run n)

/-- With the table full the next fork loses the page it took. -/
theorem not_failedForks_untouched :
    SchedRun (fun _ => True) (bootForks 63) false ∧
      (doFork pfKthread 0x80000 0 (bootForks 63)).1 = -1 ∧
      ¬ (bootForks 63).Undone (doFork pfKthread 0x80000 0 (bootForks 63)).2 ∧
      ∃ s', FailedForks (bootForks 63) s' ∧
        s'.memMap.free < (bootForks 63).memMap.free := by
  have hkeeps : ¬ (bootForks 63).KeepsPages := by
    unfold KeepsPages
    push Not
    exact ⟨⟨⟨63, by decide⟩, by decide +kernel⟩, by decide +kernel⟩
  obtain ⟨hfails, hleak⟩ := doFork_leaks hkeeps pfKthread 0x80000 0
  refine ⟨bootForks_run 63, hfails, ?_, _, .fork .refl hfails, by omega⟩
  intro hundone
  rw [hundone.memMap] at hleak
  omega

end Sched

end YiOS
