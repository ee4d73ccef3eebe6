import YiOS.Sched.Core

namespace YiOS

open YiOS.Library

/-! `fork.c` and `init_task.c`. -/

def pfKthread : U64 := 1 <<< 0

def psrModeEl1h : U64 := 5

def CpuContext.zero : CpuContext :=
  ⟨0, 0, 0, 0, 0, 0, 0, 0, 0, 0, 0, 0, .raw 0⟩

def PtRegs.zero : PtRegs := ⟨fun _ => 0, 0, 0, 0⟩

def initTaskStruct : TaskStruct where
  state := .running
  flags := 1
  count := defCounter
  priority := 1
  pid := 0
  cpuContext := .zero
  needResched := 0
  preemptCount := 0

/-- `task + THREAD_SIZE - sizeof(struct pt_regs)`. -/
def taskPtRegs (page : U64) : U64 := page + pageSize - 272

namespace Sched

def findEmptyTask (s : Sched) : Option (Fin nrTask) :=
  (List.finRange nrTask).find? fun i => (s.gTask i).isNone

/-- The `cpu_context` and the `pt_regs` that `copy_thread` leaves: zero but for
what it stores. -/
def childContext (cloneFlags page fn arg : U64) : CpuContext :=
  let context := if cloneFlags &&& pfKthread ≠ 0 then
      { CpuContext.zero with x19 := fn, x20 := arg }
    else
      CpuContext.zero
  { context with pc := .retFromFork, sp := taskPtRegs page }

def childRegs (cloneFlags : U64) : PtRegs :=
  if cloneFlags &&& pfKthread ≠ 0 then { PtRegs.zero with pstate := psrModeEl1h } else .zero

def copyThread (cloneFlags page fn arg : U64) (s : Sched) : Sched :=
  let p := TaskPtr.ofPage page
  let s := { s with ptRegs := Function.update s.ptRegs p (childRegs cloneFlags) }
  s.modify p fun t => { t with cpuContext := childContext cloneFlags page fn arg }

/-- The stores of `do_fork` to the new task and to the current one.  `flags` is
not among them. -/
def initForked (p : TaskPtr) (pid : Fin nrTask) (s : Sched) : Sched :=
  let s := s.modify p fun t => { t with state := .running, pid := pid.val }
  let s := s.modify p fun t => { t with count := ((s.task s.current).count + 1) >>> (1 : Nat) }
  let s := s.modify s.current fun t => { t with count := t.count >>> (1 : Nat) }
  s.modify p fun t => { t with needResched := 0, preemptCount := 0, priority := 2 }

/-- `do_fork` once it has a page and a pid. -/
def forkChild (cloneFlags page fn arg : U64) (pid : Fin nrTask) (s : Sched) : Sched :=
  let p := TaskPtr.ofPage page
  let s := s.copyThread cloneFlags page fn arg
  let s := s.initForked p pid
  let s := { s with gTask := Function.update s.gTask pid (some p) }
  let s := { s with links := setLinks p s.links }
  s.wakeUpProcess p

/-- The pid, or `-1`. -/
def doFork (cloneFlags fn arg : U64) (s : Sched) : Int × Sched :=
  let (page, memMap) := getFreePage s.memMap
  let s := { s with memMap := memMap }
  if page = 0 then
    (-1, s)
  else
    match s.findEmptyTask with
    | none => (-1, s)
    | some pid => (pid.val, s.forkChild cloneFlags page fn arg pid)

/-- The kernel that reaches `sched_init`: only the static data is known. -/
structure Boot (s : Sched) : Prop where
  current : s.current = .initTask
  initTask : s.task .initTask = initTaskStruct
  links : s.links .initTask = ⟨.initTask, .initTask⟩
  gTask : s.gTask = fun i => if i.val = 0 then some .initTask else none

theorem findEmptyTask_some {s : Sched} (h : s.findEmptyTask = some pid) :
    s.gTask pid = none := by
  simpa using List.find?_some h

theorem findEmptyTask_least {s : Sched} (h : s.findEmptyTask = some pid) :
    ∀ i < pid, s.gTask i ≠ none := by
  intro i hi hnone
  obtain ⟨_, as, bs, hsplit, hbefore⟩ := List.find?_eq_some_iff_append.mp h
  have hmem : i ∈ as ++ pid :: bs := hsplit ▸ List.mem_finRange i
  have hsorted := List.pairwise_lt_finRange nrTask
  rw [hsplit, List.pairwise_append, List.pairwise_cons] at hsorted
  rcases List.mem_append.mp hmem with hin | hin
  · simpa [hnone] using hbefore i hin
  · rcases List.mem_cons.mp hin with rfl | hin
    · exact absurd hi (lt_irrefl i)
    · exact absurd hi (hsorted.2.1.1 i hin).asymm

theorem findEmptyTask_none {s : Sched} (h : s.findEmptyTask = none) (i : Fin nrTask) :
    s.gTask i ≠ none := by
  have hfind := List.find?_eq_none.mp h i (List.mem_finRange i)
  simpa using hfind

/-- All that `do_fork` can do. -/
theorem doFork_cases (cloneFlags fn arg : U64) (s : Sched) :
    ((∀ i, s.memMap i ≠ 0) ∧ doFork cloneFlags fn arg s = (-1, s)) ∨
    ∃ i, s.memMap i = 0 ∧
      ((s.findEmptyTask = none ∧ doFork cloneFlags fn arg s =
          (-1, { s with memMap := Function.update s.memMap i 1 })) ∨
        ∃ pid, s.findEmptyTask = some pid ∧ s.gTask pid = none ∧
          doFork cloneFlags fn arg s =
            ((pid.val : Int), forkChild cloneFlags (pageAddr i) fn arg pid
              { s with memMap := Function.update s.memMap i 1 })) := by
  unfold doFork
  rcases getFreePage_cases s.memMap with ⟨i, hfree, _, hget⟩ | ⟨hused, hget⟩
  · right
    refine ⟨i, hfree, ?_⟩
    simp only [hget, if_neg (pageAddr_ne_zero i)]
    have hfind : ({ s with memMap := Function.update s.memMap i 1 } : Sched).findEmptyTask =
        s.findEmptyTask := rfl
    rw [hfind]
    cases hslot : s.findEmptyTask with
    | none => exact .inl ⟨rfl, rfl⟩
    | some pid => exact .inr ⟨pid, rfl, findEmptyTask_some hslot, rfl⟩
  · left
    refine ⟨hused, ?_⟩
    simp only [hget, if_pos]

section ForkChild

variable {s : Sched} {cloneFlags page fn arg : U64} {pid : Fin nrTask}

theorem forkChild_task_of_ne (hpage : t ≠ .ofPage page) (hcurrent : t ≠ s.current) :
    (forkChild cloneFlags page fn arg pid s).task t = s.task t := by
  simp [forkChild, copyThread, initForked, wakeUpProcess, enqueueTaskSimple, modify,
    hpage, hcurrent]

theorem forkChild_task_current (h : s.current ≠ .ofPage page) :
    (forkChild cloneFlags page fn arg pid s).task s.current =
      { s.task s.current with count := (s.task s.current).count >>> (1 : Nat) } := by
  simp [forkChild, copyThread, initForked, wakeUpProcess, enqueueTaskSimple, modify, h]

@[simp] theorem forkChild_current :
    (forkChild cloneFlags page fn arg pid s).current = s.current := rfl

theorem forkChild_state (hpage : t ≠ .ofPage page) (hcurrent : s.current ≠ .ofPage page) :
    ((forkChild cloneFlags page fn arg pid s).task t).state = (s.task t).state := by
  by_cases ht : t = s.current
  · rw [ht, forkChild_task_current hcurrent]
  · rw [forkChild_task_of_ne hpage ht]

/-- The child: all but `flags` is written. -/
theorem forkChild_task_page (h : s.current ≠ .ofPage page) :
    (forkChild cloneFlags page fn arg pid s).task (.ofPage page) =
      { state := .running
        flags := (s.task (.ofPage page)).flags
        count := ((s.task s.current).count + 1) >>> (1 : Nat)
        priority := 2
        pid := pid.val
        cpuContext := childContext cloneFlags page fn arg
        needResched := 0
        preemptCount := 0 } := by
  simp [forkChild, copyThread, initForked, wakeUpProcess, enqueueTaskSimple, modify,
    h, Ne.symm h]

end ForkChild

end Sched

end YiOS
