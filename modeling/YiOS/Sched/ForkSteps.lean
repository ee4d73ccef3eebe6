import YiOS.Sched.Fork

namespace YiOS

open YiOS.Library

/-! `do_fork` step by step.  Nothing in it masks interrupts or disables preemption, so
another task can run between any two of these steps. -/

/-- The straight part of `do_fork`, named by what is stored next.  The last five are the
stores of `list_add` with the `head->next` it has loaded. -/
inductive ForkStage where
  | copyThread
  | fields
  | count
  | halve
  | clear
  | gTask
  | nextTask
  | prevTask
  | lastTask
  | initTask
  | wake
  | load
  | nextPrev (next : ListPtr)
  | newNext (next : ListPtr)
  | newPrev (next : ListPtr)
  | headNext (next : ListPtr)
  | nrRunning
  deriving DecidableEq, Repr

/-- Where a task is in `do_fork`: looking at a slot of `mem_map`, about to take it, looking
at a slot of `g_task`, storing, or back with the page it used and its result. -/
inductive ForkPoint where
  | scan (i : Nat)
  | claim (i : Fin nrPages)
  | find (page : U64) (i : Nat)
  | store (page : U64) (pid : Fin nrTask) (stage : ForkStage)
  | done (page : U64) (result : Int)
  deriving DecidableEq, Repr

structure ForkArgs where
  cloneFlags : U64
  fn : U64
  arg : U64
  deriving DecidableEq, Repr

namespace Sched

/-- One store, and the stage that follows; `none` after the last. -/
def forkStore (args : ForkArgs) (page : U64) (pid : Fin nrTask) (s : Sched) :
    ForkStage → Option ForkStage × Sched
  | .copyThread => (some .fields, s.copyThread args.cloneFlags page args.fn args.arg)
  | .fields => (some .count, s.modify (.ofPage page) fun t =>
      { t with state := .running, pid := pid.val })
  | .count => (some .halve, s.modify (.ofPage page) fun t =>
      { t with count := ((s.task s.current).count + 1) >>> (1 : Nat) })
  | .halve => (some .clear, s.modify s.current fun t => { t with count := t.count >>> (1 : Nat) })
  | .clear => (some .gTask, s.modify (.ofPage page) fun t =>
      { t with needResched := 0, preemptCount := 0, priority := 2 })
  | .gTask => (some .nextTask,
      { s with gTask := Function.update s.gTask pid (some (.ofPage page)) })
  | .nextTask => (some .prevTask, { s with links := s.links.setNext (.ofPage page) .initTask })
  | .prevTask => (some .lastTask,
      { s with links := s.links.setPrev (.ofPage page) (s.links .initTask).prev })
  | .lastTask => (some .initTask,
      { s with links := s.links.setNext (s.links .initTask).prev (.ofPage page) })
  | .initTask => (some .wake, { s with links := s.links.setPrev .initTask (.ofPage page) })
  | .wake => (some .load, s.modify (.ofPage page) fun t => { t with state := .running })
  | .load => (some (.nextPrev (s.list .rqHead).next), s)
  | .nextPrev next => (some (.newNext next),
      { s with list := s.list.setPrev next (.runList (.ofPage page)) })
  | .newNext next => (some (.newPrev next),
      { s with list := s.list.setNext (.runList (.ofPage page)) next })
  | .newPrev next => (some (.headNext next),
      { s with list := s.list.setPrev (.runList (.ofPage page)) .rqHead })
  | .headNext _ => (some .nrRunning,
      { s with list := s.list.setNext .rqHead (.runList (.ofPage page)) })
  | .nrRunning => (none, { s with nrRunning := s.nrRunning + 1 })

def forkStep (args : ForkArgs) (s : Sched) : ForkPoint → ForkPoint × Sched
  | .scan i =>
      if h : i < nrPages then
        if s.memMap ⟨i, h⟩ = 0 then (.claim ⟨i, h⟩, s) else (.scan (i + 1), s)
      else
        (.done 0 (-1), s)
  | .claim i => (.find (pageAddr i) 0, { s with memMap := Function.update s.memMap i 1 })
  | .find page i =>
      if h : i < nrTask then
        match s.gTask ⟨i, h⟩ with
        | none => (.store page ⟨i, h⟩ .copyThread, s)
        | some _ => (.find page (i + 1), s)
      else
        (.done page (-1), s)
  | .store page pid stage =>
      match s.forkStore args page pid stage with
      | (some stage, s) => (.store page pid stage, s)
      | (none, s) => (.done page pid.val, s)
  | .done page result => (.done page result, s)

/-- `n` steps without an interruption. -/
def forkSteps (args : ForkArgs) : Nat → ForkPoint × Sched → ForkPoint × Sched
  | 0, place => place
  | n + 1, (point, s) => forkSteps args n (s.forkStep args point)

/-- The task gets from one place of `do_fork` to another without an interruption. -/
def ForkReaches (args : ForkArgs) (place place' : ForkPoint × Sched) : Prop :=
  ∃ n, forkSteps args n place = place'

section Steps

variable {args : ForkArgs}

theorem forkSteps_add (m n : Nat) (place : ForkPoint × Sched) :
    forkSteps args (m + n) place =
      forkSteps args n (forkSteps args m place) := by
  induction m generalizing place with
  | zero => rw [Nat.zero_add]; rfl
  | succ m ih =>
      rw [Nat.succ_add]
      exact ih _

theorem forkSteps_done (n : Nat) (page : U64) (result : Int) (s : Sched) :
    forkSteps args n (.done page result, s) = (.done page result, s) := by
  induction n with
  | zero => rfl
  | succ n ih => exact ih

namespace ForkReaches

theorem refl (place : ForkPoint × Sched) : ForkReaches args place place :=
  ⟨0, rfl⟩

theorem trans (h : ForkReaches args place place')
    (h' : ForkReaches args place' place'') :
    ForkReaches args place place'' := by
  obtain ⟨m, rfl⟩ := h
  obtain ⟨n, rfl⟩ := h'
  exact ⟨m + n, forkSteps_add m n place⟩

theorem head {s : Sched} (hstep : s.forkStep args point = place)
    (h : ForkReaches args place place') :
    ForkReaches args (point, s) place' := by
  obtain ⟨n, hn⟩ := h
  exact ⟨n + 1, by rw [forkSteps, hstep, hn]⟩

theorem done_unique (h : ForkReaches args place (.done page result, s))
    (h' : ForkReaches args place (.done page' result', s')) :
    page = page' ∧ result = result' ∧ s = s' := by
  obtain ⟨m, hm⟩ := h
  obtain ⟨n, hn⟩ := h'
  have hsame : (ForkPoint.done page result, s) = (ForkPoint.done page' result', s') :=
    calc (ForkPoint.done page result, s)
      _ = forkSteps args n (.done page result, s) := (forkSteps_done ..).symm
      _ = forkSteps args (m + n) place := by rw [forkSteps_add, hm]
      _ = forkSteps args (n + m) place := by rw [Nat.add_comm]
      _ = forkSteps args m (.done page' result', s') := by rw [forkSteps_add, hn]
      _ = (.done page' result', s') := forkSteps_done ..
  simpa [and_assoc] using hsame

end ForkReaches

/-- The scan of `mem_map` finds the lowest free slot from where it stands. -/
theorem scan_reaches (args : ForkArgs) {s : Sched} (k : Fin nrPages)
    (hfree : s.memMap k = 0) :
    ∀ left i, i + left = k.val → (∀ j, i ≤ j.val → j < k → s.memMap j ≠ 0) →
      ForkReaches args (.scan i, s) (.claim k, s) := by
  intro left
  induction left with
  | zero =>
      intro i hi _
      obtain rfl : i = k.val := by omega
      refine .head ?_ (.refl _)
      simp only [forkStep, dif_pos k.isLt, Fin.eta, if_pos hfree]
  | succ left ih =>
      intro i hi hused
      have hlt : i < nrPages := by omega
      refine .head ?_ (ih (i + 1) (by omega) fun j hj => hused j (by omega))
      simp only [forkStep, dif_pos hlt]
      exact if_neg (hused ⟨i, hlt⟩ le_rfl (Fin.lt_def.mpr (by simp only; omega)))

theorem scan_fails {s : Sched} (hused : ∀ j, s.memMap j ≠ 0) :
    ∀ left i, i + left = nrPages →
      ForkReaches args (.scan i, s) (.done 0 (-1), s) := by
  intro left
  induction left with
  | zero =>
      intro i hi
      refine .head ?_ (.refl _)
      simp only [forkStep, dif_neg (show ¬ i < nrPages by omega)]
  | succ left ih =>
      intro i hi
      have hlt : i < nrPages := by omega
      refine .head ?_ (ih (i + 1) (by omega))
      simp only [forkStep, dif_pos hlt]
      exact if_neg (hused ⟨i, hlt⟩)

theorem find_reaches (args : ForkArgs) {s : Sched} (page : U64) (k : Fin nrTask)
    (hfree : s.gTask k = none) :
    ∀ left i, i + left = k.val → (∀ j, i ≤ j.val → j < k → s.gTask j ≠ none) →
      ForkReaches args (.find page i, s) (.store page k .copyThread, s) := by
  intro left
  induction left with
  | zero =>
      intro i hi _
      obtain rfl : i = k.val := by omega
      refine .head ?_ (.refl _)
      simp only [forkStep, dif_pos k.isLt, Fin.eta, hfree]
  | succ left ih =>
      intro i hi hused
      have hlt : i < nrTask := by omega
      refine .head ?_ (ih (i + 1) (by omega) fun j hj => hused j (by omega))
      obtain ⟨t, ht⟩ := Option.ne_none_iff_exists'.mp
        (hused ⟨i, hlt⟩ le_rfl (Fin.lt_def.mpr (by simp only; omega)))
      simp only [forkStep, dif_pos hlt, ht]

theorem find_fails {s : Sched} (page : U64) (hused : ∀ j, s.gTask j ≠ none) :
    ∀ left i, i + left = nrTask →
      ForkReaches args (.find page i, s) (.done page (-1), s) := by
  intro left
  induction left with
  | zero =>
      intro i hi
      refine .head ?_ (.refl _)
      simp only [forkStep, dif_neg (show ¬ i < nrTask by omega)]
  | succ left ih =>
      intro i hi
      have hlt : i < nrTask := by omega
      refine .head ?_ (ih (i + 1) (by omega))
      obtain ⟨t, ht⟩ := Option.ne_none_iff_exists'.mp (hused ⟨i, hlt⟩)
      simp only [forkStep, dif_pos hlt, ht]

/-- The stores together are the rest of `do_fork`. -/
theorem store_reaches (page : U64) (pid : Fin nrTask) (s : Sched) :
    ForkReaches args (.store page pid .copyThread, s)
      (.done page pid.val, s.forkChild args.cloneFlags page args.fn args.arg pid) :=
  ⟨17, rfl⟩

/-- The search of `g_task` and the stores are what follows in `do_fork`. -/
theorem find_done (args : ForkArgs) {s : Sched} (page : U64)
    (hbelow : ∀ j : Fin nrTask, j.val < i → s.gTask j ≠ none) (hi : i ≤ nrTask) :
    (s.findEmptyTask = none ∧
      ForkReaches args (.find page i, s) (.done page (-1), s)) ∨
    ∃ pid, s.findEmptyTask = some pid ∧
      ForkReaches args (.find page i, s)
        (.done page pid.val, s.forkChild args.cloneFlags page args.fn args.arg pid) := by
  cases hfind : s.findEmptyTask with
  | none =>
      exact .inl ⟨rfl, find_fails page (findEmptyTask_none hfind) (nrTask - i) i (by omega)⟩
  | some pid =>
      have hfree := findEmptyTask_some hfind
      have hle : i ≤ pid.val := by
        by_contra hlt
        exact hbelow pid (by omega) hfree
      have hfound := find_reaches args page pid hfree (pid.val - i) i (by omega)
        fun j _ hj => findEmptyTask_least hfind j hj
      exact .inr ⟨pid, rfl, hfound.trans (store_reaches page pid s)⟩

/-- Uninterrupted, the steps are `do_fork`. -/
theorem doFork_reaches (args : ForkArgs) {s : Sched}
    (hbelow : ∀ j : Fin nrPages, j.val < i → s.memMap j ≠ 0) (hi : i ≤ nrPages) :
    ForkReaches args (.scan i, s)
      (.done (getFreePage s.memMap).1 (s.doFork args.cloneFlags args.fn args.arg).1,
        (s.doFork args.cloneFlags args.fn args.arg).2) := by
  unfold doFork
  rcases getFreePage_cases s.memMap with ⟨k, hfree, hleast, hget⟩ | ⟨hused, hget⟩
  · have hle : i ≤ k.val := by
      by_contra hlt
      exact hbelow k (by omega) hfree
    have hclaim := scan_reaches args k hfree (k.val - i) i
      (by omega) fun j _ hj => hleast j hj
    simp only [hget, if_neg (pageAddr_ne_zero k)]
    refine (hclaim.trans (.head rfl (.refl _))).trans ?_
    rcases find_done args (s := { s with memMap := Function.update s.memMap k 1 })
      (pageAddr k)
      (fun j hj => absurd hj (by omega))
        (Nat.zero_le _) with ⟨hfind, hdone⟩ | ⟨pid, hfind, hdone⟩
    · rw [hfind]
      exact hdone
    · rw [hfind]
      exact hdone
  · simp only [hget, if_pos]
    exact scan_fails hused (nrPages - i) i (by omega)

end Steps

end Sched

end YiOS
