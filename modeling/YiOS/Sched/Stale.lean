import YiOS.Sched.Runs

namespace YiOS

open YiOS.Library

/-! What a new task keeps of the page it is on. -/

namespace Sched

/-- The two kernels differ in nothing but what is on the page of `p`. -/
structure SameButOn (p : TaskPtr) (s s' : Sched) : Prop where
  task : ∀ t, t ≠ p → s'.task t = s.task t
  ptRegs : ∀ t, t ≠ p → s'.ptRegs t = s.ptRegs t
  list : ∀ x, x ≠ .runList p → s'.list x = s.list x
  links : ∀ t, t ≠ p → s'.links t = s.links t
  nrRunning : s'.nrRunning = s.nrRunning
  nrSwitches : s'.nrSwitches = s.nrSwitches
  curr : s'.curr = s.curr
  gTask : s'.gTask = s.gTask
  memMap : s'.memMap = s.memMap
  current : s'.current = s.current
  regs : s'.regs = s.regs
  irqMasked : s'.irqMasked = s.irqMasked
  caller : ∀ t, t ≠ p → s'.caller t = s.caller t
  console : s'.console = s.console

/-- `p` has the same `struct task_struct` and the same `pt_regs` in both. -/
structure SameTask (p : TaskPtr) (s s' : Sched) : Prop where
  task : s'.task p = s.task p
  ptRegs : s'.ptRegs p = s.ptRegs p
  runList : s'.list (.runList p) = s.list (.runList p)
  links : s'.links p = s.links p

/-- `list_add` writes both fields of the new node. -/
theorem listAdd_new (heap : Heap ListPtr) {new head : ListPtr} (h : new ≠ head) :
    listAdd heap new head new = ⟨(heap head).next, head⟩ := by
  have hnext : (listAdd heap new head new).next = (heap head).next := by
    simp [listAdd, __listAdd, Heap.setNext_next, h]
  have hprev : (listAdd heap new head new).prev = head := by
    simp [listAdd, __listAdd, Heap.setPrev_prev]
  cases hnode : listAdd heap new head new with
  | mk next prev => rw [hnode] at hnext hprev; rw [← hnext, ← hprev]

/-- `SET_LINKS` writes both fields of the new task, one of them twice when the last
task is the new one already. -/
theorem setLinks_new (links : Heap TaskPtr) {p : TaskPtr} (h : p ≠ .initTask) :
    setLinks p links p =
      ⟨if p = (links .initTask).prev then p else .initTask, (links .initTask).prev⟩ := by
  have hnext : (setLinks p links p).next =
      if p = (links .initTask).prev then p else .initTask := by
    simp [setLinks, Heap.setNext_next, Heap.setPrev_prev, h.symm]
  have hprev : (setLinks p links p).prev = (links .initTask).prev := by
    simp [setLinks, Heap.setPrev_prev, h]
  cases hnode : setLinks p links p with
  | mk next prev => rw [hnode] at hnext hprev; rw [← hnext, ← hprev]

section ForkChild

variable {s s' : Sched} {cloneFlags page fn arg : U64} {pid : Fin nrTask}

/-- What `do_fork` stores to the `count` of the child.  The second store is to
`current`, which is the child if it is on the page. -/
def childCount (page : U64) (s : Sched) : Int :=
  let half := ((s.task s.current).count + 1) >>> (1 : Nat)
  if s.current = .ofPage page then half >>> (1 : Nat) else half

theorem forkChild_task_child :
    (forkChild cloneFlags page fn arg pid s).task (.ofPage page) =
      { state := .running
        flags := (s.task (.ofPage page)).flags
        count := s.childCount page
        priority := 2
        pid := pid.val
        cpuContext := childContext cloneFlags page fn arg
        needResched := 0
        preemptCount := 0 } := by
  by_cases h : s.current = .ofPage page
  · simp [forkChild, copyThread, initForked, wakeUpProcess, enqueueTaskSimple, modify,
      childCount, h]
  · rw [forkChild_task_page h, childCount, if_neg h]

theorem forkChild_list :
    (forkChild cloneFlags page fn arg pid s).list =
      listAdd s.list (.runList (.ofPage page)) .rqHead := rfl

theorem forkChild_links :
    (forkChild cloneFlags page fn arg pid s).links = setLinks (.ofPage page) s.links := rfl

theorem forkChild_sameTask_iff (h : SameButOn (.ofPage page) s s') :
    SameTask (.ofPage page) (forkChild cloneFlags page fn arg pid s)
        (forkChild cloneFlags page fn arg pid s') ↔
      (s'.task (.ofPage page)).flags = (s.task (.ofPage page)).flags ∧
        s'.childCount page = s.childCount page := by
  constructor
  · intro hsame
    have htask := hsame.task
    rw [forkChild_task_child, forkChild_task_child] at htask
    injection htask with _ hflags hcount
    exact ⟨hflags, hcount⟩
  · rintro ⟨hflags, hcount⟩
    constructor
    · rw [forkChild_task_child, forkChild_task_child, hflags, hcount]
    · simp [forkChild, copyThread, initForked, wakeUpProcess, enqueueTaskSimple, modify]
    · rw [forkChild_list, forkChild_list, listAdd_new _ (by simp), listAdd_new _ (by simp),
        h.list _ (by simp)]
    · rw [forkChild_links, forkChild_links, setLinks_new _ (by simp),
        setLinks_new _ (by simp), h.links _ (by simp)]

theorem childCount_iff (h : SameButOn (.ofPage page) s s') :
    s'.childCount page = s.childCount page ↔
      (s.current = .ofPage page →
        ((s'.task s.current).count + 1) >>> (2 : Nat) =
          ((s.task s.current).count + 1) >>> (2 : Nat)) := by
  unfold childCount
  rw [h.current]
  by_cases hcurrent : s.current = .ofPage page
  · rw [if_pos hcurrent, if_pos hcurrent, ← Int.shiftRight_add, ← Int.shiftRight_add]
    exact ⟨fun hcount _ => hcount, fun hcount => hcount hcurrent⟩
  · simp [hcurrent, h.task _ hcurrent]

end ForkChild

/-- A call that forks does so with any contents of the page. -/
theorem doFork_forked {s : Sched} (hforks : (doFork cloneFlags fn arg s).1 ≠ -1) :
    ∃ i pid, getFreePage s.memMap = (pageAddr i, Function.update s.memMap i 1) ∧
      ∀ s', s'.memMap = s.memMap → s'.findEmptyTask = s.findEmptyTask →
        doFork cloneFlags fn arg s' = ((pid.val : Int),
          forkChild cloneFlags (pageAddr i) fn arg pid
            { s' with memMap := Function.update s.memMap i 1 }) := by
  unfold doFork at hforks
  rcases getFreePage_cases s.memMap with ⟨i, -, -, hget⟩ | ⟨-, hget⟩
  · simp only [hget, if_neg (pageAddr_ne_zero i)] at hforks
    cases hslot : s.findEmptyTask with
    | none =>
        have hfind : ({ s with memMap := Function.update s.memMap i 1 } :
            Sched).findEmptyTask = none := hslot
        rw [hfind] at hforks
        exact absurd rfl hforks
    | some pid =>
        refine ⟨i, pid, hget, fun s' hmap hfind => ?_⟩
        have hfind' : ({ s' with memMap := Function.update s.memMap i 1 } :
            Sched).findEmptyTask = some pid := hfind
        unfold doFork
        simp only [hmap, hget, if_neg (pageAddr_ne_zero i), hfind']
  · simp [hget] at hforks

theorem SameButOn.withMemMap {s s' : Sched} (h : SameButOn p s s') (memMap : MemMap) :
    SameButOn p { s with memMap := memMap } { s' with memMap := memMap } :=
  { h with memMap := rfl }

/-- The child is the same whatever was on its page exactly when the old `flags` are, as
nothing writes them.  A kernel that runs on the free page loses its own `count` too. -/
theorem doFork_sameTask_iff {s s' : Sched} {page : U64}
    (hpage : (getFreePage s.memMap).1 = page) (hsame : SameButOn (.ofPage page) s s')
    (hforks : (doFork cloneFlags fn arg s).1 ≠ -1) :
    SameTask (.ofPage page) (doFork cloneFlags fn arg s).2
        (doFork cloneFlags fn arg s').2 ↔
      (s'.task (.ofPage page)).flags = (s.task (.ofPage page)).flags ∧
        (s.current = .ofPage page →
          ((s'.task s.current).count + 1) >>> (2 : Nat) =
            ((s.task s.current).count + 1) >>> (2 : Nat)) := by
  have hslot : s'.findEmptyTask = s.findEmptyTask := by
    unfold findEmptyTask
    rw [hsame.gTask]
  obtain ⟨i, pid, hget, hforked⟩ := doFork_forked hforks
  rw [hget] at hpage
  cases hpage
  rw [hforked s rfl rfl, hforked s' hsame.memMap hslot, ← childCount_iff hsame]
  exact forkChild_sameTask_iff (hsame.withMemMap _)

/-- The boot kernel with `old` where the first task is going to be. -/
def staleBoot (old : TaskStruct) : Sched :=
  { bootKernel with task := Function.update bootKernel.task firstTask old }

theorem staleBoot_run (ok : Sched → Prop) (old : TaskStruct) :
    SchedRun ok (staleBoot old).schedInit false :=
  .start ⟨rfl, rfl, rfl, rfl⟩

theorem staleBoot_page (old : TaskStruct) :
    (getFreePage (staleBoot old).schedInit.memMap).1 = lowMemory := by
  change (getFreePage .empty).1 = lowMemory
  decide +kernel

theorem staleBoot_sameButOn (old old' : TaskStruct) :
    SameButOn firstTask (staleBoot old).schedInit (staleBoot old').schedInit := by
  constructor <;> try intros
  case task t ht => simp [staleBoot, schedInit, ht]
  all_goals rfl

theorem doFork_sameTask_iff_boot :
    SameTask firstTask (doFork pfKthread 0x80000 0 (staleBoot initTaskStruct).schedInit).2
      (doFork pfKthread 0x80000 0
        (staleBoot { initTaskStruct with pid := 7, count := 3 }).schedInit).2 :=
  (doFork_sameTask_iff (staleBoot_page _) (staleBoot_sameButOn _ _) (by decide +kernel)).mpr
    ⟨rfl, fun h => absurd h (by decide +kernel)⟩

theorem not_doFork_sameTask :
    ¬ ∀ s s' cloneFlags fn arg page, SchedRun (fun _ => True) s false →
      SchedRun (fun _ => True) s' false → (getFreePage s.memMap).1 = page →
      SameButOn (.ofPage page) s s' → (doFork cloneFlags fn arg s).1 ≠ -1 →
      SameTask (.ofPage page) (doFork cloneFlags fn arg s).2
        (doFork cloneFlags fn arg s').2 := by
  intro h
  have hsame := h _ _ pfKthread 0x80000 0 _ (staleBoot_run _ initTaskStruct)
    (staleBoot_run _ { initTaskStruct with flags := 0 }) (staleBoot_page _)
    (staleBoot_sameButOn _ _) (by decide +kernel)
  exact absurd (congrArg TaskStruct.flags hsame.task) (by decide +kernel)

end Sched

end YiOS
