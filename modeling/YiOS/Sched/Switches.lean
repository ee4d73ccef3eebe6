import YiOS.Sched.Calls

namespace YiOS

open YiOS.Library

/-! The bookkeeping of `struct run_queue` over whole histories of switches. -/

/-- Runs of `do_fork`, `schedule` and `preempt_schedule_irq` from `sched_init`, with the
number of `cpu_switch_to` calls so far.  Every call finds a runnable task. -/
inductive SwitchRun : Sched → Nat → Prop
  | start {s : Sched} : s.Boot → SwitchRun s.schedInit 0
  | fork {s : Sched} : SwitchRun s switches →
      SwitchRun (s.doFork cloneFlags fn arg).2 switches
  | call {s : Sched} : SwitchRun s switches → s.Runnable →
      s.call caller fuel stale = some s' →
      SwitchRun s' (if s'.current = s.current then switches else switches + 1)

theorem SwitchRun.schedRun {s : Sched} (h : SwitchRun s switches) :
    SchedRun Sched.Runnable s false := by
  induction h with
  | start hboot => exact .start hboot
  | fork _ ih => exact .fork ih
  | @call _ caller _ _ _ s _ hrunnable hsome ih =>
      cases caller with
      | schedule => exact .schedule ih hrunnable hsome
      | preemptScheduleIrq => exact .preempt ih hrunnable hsome

namespace Sched

/-- The running task is the one on record, and so is the number of switches. -/
def Bookkept (s : Sched) (switches : Nat) : Prop :=
  s.curr = some s.current ∧ s.nrSwitches = BitVec.ofNat 64 switches

/-- `p` has been switched to at least once. -/
def Started (s : Sched) (p : TaskPtr) : Prop :=
  p = s.current ∨ (s.task p).cpuContext.pc = .afterSwitch

instance (s : Sched) : DecidablePred s.Started := fun p =>
  inferInstanceAs (Decidable (p = s.current ∨ _))

def entered (s : Sched) (ring : List TaskPtr) : Nat := ring.countP fun p => s.Started p

theorem entered_le (s : Sched) (ring : List TaskPtr) : s.entered ring ≤ ring.length :=
  List.countP_le_length

section Outcome

variable {s out : Sched} {caller : Caller} {counts : TaskPtr → Int} {next : TaskPtr}

theorem leave_field {α : Type} (field : Sched → α) (s : Sched) (caller : Caller)
    (hfield : ∀ s task masked, field { s with task := task, irqMasked := masked } = field s) :
    field (s.leave caller) = field s := by
  cases caller with
  | schedule => exact hfield s _ s.irqMasked
  | preemptScheduleIrq => exact hfield s _ true

theorem leave_pc (s : Sched) (caller : Caller) (t : TaskPtr) :
    ((s.leave caller).task t).cpuContext = (s.task t).cpuContext := by
  obtain ⟨_, htask⟩ := leave_task s caller t
  rw [htask]

theorem switched_pc_self :
    ((s.switched caller counts next).task s.current).cpuContext.pc = .afterSwitch := by
  rw [switched, cpuSwitchTo_task, modify_task_self]

theorem switched_pc_of_ne (h : t ≠ s.current) :
    ((s.switched caller counts next).task t).cpuContext.pc =
      (s.task t).cpuContext.pc := by
  rw [switched, cpuSwitchTo_task_of_ne _ h]
  change ((s.chosen caller counts).task t).cpuContext.pc = _
  rw [chosen_task_of_ne s caller counts h]

theorem chosen_pc (t : TaskPtr) : ((s.chosen caller counts).task t).cpuContext.pc =
    (s.task t).cpuContext.pc := by
  by_cases ht : t = s.current
  · rw [ht, chosen_task_current]
  · rw [chosen_task_of_ne s caller counts ht]

/-- Where the tasks will go on after a call. -/
theorem Outcome.pc (h : Outcome s caller counts next out) (t : TaskPtr) :
    (out.task t).cpuContext.pc =
      if next ≠ s.current ∧ t = s.current then .afterSwitch
      else (s.task t).cpuContext.pc := by
  have hswitched : next ≠ s.current → ((s.switched caller counts next).task t).cpuContext.pc =
      if next ≠ s.current ∧ t = s.current then .afterSwitch
      else (s.task t).cpuContext.pc := by
    intro hne
    by_cases ht : t = s.current
    · rw [if_pos ⟨hne, ht⟩, ht, switched_pc_self]
    · rw [if_neg fun hboth => ht hboth.2, switched_pc_of_ne ht]
  cases h with
  | same hsame =>
      rw [if_neg fun hboth => hboth.1 hsame, leave_pc, chosen_pc]
  | fresh hne => exact hswitched hne
  | resumed hne =>
      rw [leave_pc]
      exact hswitched hne

theorem Outcome.nrSwitches (h : Outcome s caller counts next out) :
    out.nrSwitches = if next ≠ s.current ∧ (s.task next).cpuContext.pc = .afterSwitch
      then s.nrSwitches + 1 else s.nrSwitches := by
  have hchosen := (chosen_untouched s caller counts).nrSwitches
  cases h with
  | same hsame =>
      rw [if_neg fun hboth => hboth.1 hsame,
        leave_field Sched.nrSwitches _ _ fun _ _ _ => rfl,
        hchosen]
  | fresh _ hpc =>
      rw [if_neg fun hboth => by rw [hpc] at hboth; exact absurd hboth.2 (by simp)]
      exact hchosen
  | resumed hne hpc =>
      rw [if_pos ⟨hne, hpc⟩, leave_field Sched.nrSwitches _ _ fun _ _ _ => rfl]
      rfl

/-- After a call the chosen task has been entered, and no task is forgotten. -/
theorem Outcome.started (h : Outcome s caller counts next out) (t : TaskPtr) :
    out.Started t ↔ t = next ∨ s.Started t := by
  unfold Started
  rw [h.current, h.pc]
  by_cases hne : next = s.current
  · subst hne
    simp
  · by_cases ht : t = s.current
    · simp [hne, ht]
    · simp [ht]

end Outcome

section Entered

variable {s s' : Sched} {ring : List TaskPtr}

theorem entered_congr (h : ∀ p ∈ ring, s'.Started p ↔ s.Started p) :
    s'.entered ring = s.entered ring :=
  List.countP_congr fun p hp => by simpa using h p hp

/-- One more task has been entered. -/
theorem entered_succ {next : TaskPtr} (hnodup : ring.Nodup) (hnext : next ∈ ring)
    (hnot : ¬ s.Started next) (h : ∀ p, s'.Started p ↔ p = next ∨ s.Started p) :
    s'.entered ring = s.entered ring + 1 := by
  obtain ⟨l, r, rfl⟩ := List.append_of_mem hnext
  have hrest : next ∉ l ++ r := (List.nodup_cons.mp (List.nodup_middle.mp hnodup)).1
  have hsame : ∀ p ∈ l ++ r, s'.Started p ↔ s.Started p := by
    intro p hp
    rw [h p, or_iff_right fun heq : p = next => hrest (heq ▸ hp)]
  have hleft : s'.entered l = s.entered l :=
    entered_congr fun p hp => hsame p (List.mem_append_left r hp)
  have hright : s'.entered r = s.entered r :=
    entered_congr fun p hp => hsame p (List.mem_append_right l hp)
  have hnew : s'.Started next := (h next).mpr (.inl rfl)
  unfold entered at hleft hright ⊢
  simp only [List.countP_append, List.countP_cons, hleft, hright, hnew, hnot, decide_true,
    decide_false]
  simp only [if_true, Bool.false_eq_true, if_false]
  omega

theorem entered_pos (hcurrent : s.current ∈ ring) : 1 ≤ s.entered ring :=
  List.countP_pos_iff.mpr ⟨s.current, hcurrent, by simp [Started]⟩

end Entered

/-- The switches on record are those into tasks that had run before. -/
structure Tally (s : Sched) (switches : Nat) (ring : List TaskPtr) : Prop where
  total : s.nrSwitches + BitVec.ofNat 64 (s.entered ring) = BitVec.ofNat 64 switches
  first : 1 ≤ switches → 1 ≤ s.entered ring

theorem schedInit_tally (s : Sched) : Tally s.schedInit 0 [] where
  total := rfl
  first := by simp

section Fork

variable {s : Sched} {pending : Bool} {queue ring : List TaskPtr}

/-- A new task has not been entered. -/
theorem Tally.forkChild (h : Tally s switches ring) (hc : Coherent s pending queue ring)
    (hfresh : .ofPage page ∉ .initTask :: ring) :
    Tally (Sched.forkChild cloneFlags page fn arg pid s) switches
      (ring ++ [.ofPage page]) := by
  have hcurrent : s.current ≠ .ofPage page := fun hpage => hfresh (hpage ▸ hc.current)
  have hchild : ¬ (Sched.forkChild cloneFlags page fn arg pid s).Started
    (.ofPage page) := by
    unfold Started
    rw [forkChild_current, forkChild_task_page hcurrent]
    simp [Ne.symm hcurrent, childContext]
  have hold : (Sched.forkChild cloneFlags page fn arg pid s).entered ring =
    s.entered ring := by
    refine entered_congr fun p hp => ?_
    have hpage : p ≠ .ofPage page := fun heq => hfresh (heq ▸ List.mem_cons_of_mem _ hp)
    unfold Started
    rw [forkChild_current]
    by_cases hcur : p = s.current
    · simp [hcur]
    · rw [forkChild_task_of_ne hpage hcur]
  have hentered : (Sched.forkChild cloneFlags page fn arg pid s).entered
    (ring ++ [.ofPage page]) =
      s.entered ring := by
    rw [← hold]
    unfold entered
    simp [List.countP_append, hchild]
  exact ⟨by rw [hentered]; exact h.total, fun hswitches => hentered ▸ h.first hswitches⟩

theorem Tally.fork (h : Tally s switches ring) (hc : Coherent s pending queue ring)
    (cloneFlags fn arg : U64) : ∃ queue' ring',
      Coherent (doFork cloneFlags fn arg s).2 pending queue' ring' ∧
      Tally (doFork cloneFlags fn arg s).2 switches ring' := by
  rcases doFork_cases cloneFlags fn arg s with
    ⟨_, heq⟩ | ⟨i, hfree, ⟨_, heq⟩ | ⟨pid, _, hslot, heq⟩⟩ <;> rw [heq]
  · exact ⟨queue, ring, hc, h⟩
  · exact ⟨queue, ring, hc.failedFork i, h.total, h.first⟩
  · have hfresh := hc.page_notMem hfree
    refine ⟨_, _, (hc.failedFork i).forkChild hfresh rfl (by simp) hslot, ?_⟩
    exact Tally.forkChild (s := { s with memMap := _ }) ⟨h.total, h.first⟩ (hc.failedFork i)
      hfresh

end Fork

section Call

variable {s out : Sched} {caller : Caller} {counts : TaskPtr → Int} {next : TaskPtr}
  {ring : List TaskPtr}

/-- Only a switch to a task that had run before is put on record. -/
theorem Tally.call (h : Tally s switches ring) (houtcome : Outcome s caller counts next out)
    (hnodup : ring.Nodup) (hnext : next ∈ ring) :
    Tally out (if out.current = s.current then switches else switches + 1) ring := by
  have hstarted := houtcome.started
  have hrecord := houtcome.nrSwitches
  rw [houtcome.current]
  by_cases hsame : next = s.current
  · have hentered : out.entered ring = s.entered ring := by
      refine entered_congr fun p _ => ?_
      rw [hstarted, hsame]
      exact or_iff_right_of_imp .inl
    rw [if_neg fun hboth => hboth.1 hsame] at hrecord
    rw [if_pos hsame]
    exact ⟨by rw [hrecord, hentered]; exact h.total, fun hfirst => hentered ▸ h.first hfirst⟩
  · have hpos : 1 ≤ out.entered ring := entered_pos (by rw [houtcome.current]; exact hnext)
    rw [if_neg hsame]
    refine ⟨?_, fun _ => hpos⟩
    by_cases hpc : (s.task next).cpuContext.pc = .afterSwitch
    · have hentered : out.entered ring = s.entered ring := by
        refine entered_congr fun p _ => ?_
        rw [hstarted]
        exact or_iff_right_of_imp fun heq => heq ▸ .inr hpc
      rw [if_pos ⟨hsame, hpc⟩] at hrecord
      rw [hrecord, hentered, BitVec.ofNat_add, ← h.total]
      rw [BitVec.add_assoc, BitVec.add_assoc]
      exact congrArg _ (BitVec.add_comm _ _)
    · have hentered : out.entered ring = s.entered ring + 1 :=
        entered_succ hnodup hnext (fun hwas => hwas.elim hsame hpc) hstarted
      rw [if_neg fun hboth => hpc hboth.2] at hrecord
      rw [hrecord, hentered, BitVec.ofNat_add, BitVec.ofNat_add, ← h.total]
      exact (BitVec.add_assoc ..).symm

end Call

end Sched

theorem SwitchRun.tally {s : Sched} (h : SwitchRun s switches) :
    ∃ queue ring, s.Coherent false queue ring ∧ s.Tally switches ring := by
  induction h with
  | start hboot => exact ⟨[], [], hboot.coherent, Sched.schedInit_tally _⟩
  | fork _ ih =>
      obtain ⟨queue, ring, hc, htally⟩ := ih
      exact htally.fork hc _ _ _
  | call hrun hrunnable hsome ih =>
      obtain ⟨queue, ring, hc, htally⟩ := ih
      obtain ⟨queue', next, counts, houtcome, ⟨queue'', hout⟩, hsettled, hbest, _⟩ :=
        hc.call_cases hrun.schedRun.coherent.2 hrunnable hsome
      exact ⟨queue'', ring, hout,
        htally.call houtcome hc.ring_nodup (hsettled.mem_ring hbest.mem)⟩

/-- After a switch the record is never right: `ret_from_fork` passes by both updates of
`__schedule`, and the first switch of every run enters a new task.  The record is short by
the number of tasks that have been entered. -/
theorem switchRun_not_bookkept {s : Sched} (h : SwitchRun s switches)
    (hswitches : 1 ≤ switches) :
    (∃ entered, 1 ≤ entered ∧ entered ≤ nrTask ∧
      s.nrSwitches + BitVec.ofNat 64 entered = BitVec.ofNat 64 switches) ∧
    ¬ s.Bookkept switches := by
  obtain ⟨queue, ring, hc, htally⟩ := h.tally
  have hpos := htally.first hswitches
  have hle := (s.entered_le ring).trans hc.ring_length
  refine ⟨⟨s.entered ring, hpos, hle, htally.total⟩, fun hbookkept => ?_⟩
  have htotal := htally.total
  rw [← hbookkept.2, BitVec.add_right_eq_self] at htotal
  have hzero := congrArg BitVec.toNat htotal
  simp only [nrTask] at hle
  rw [BitVec.toNat_ofNat, Nat.mod_eq_of_lt (by omega)] at hzero
  simp at hzero
  omega

/-- `init_task` forks a thread and calls `schedule`. -/
theorem switchRun_firstSwitch :
    ∃ s, SwitchRun s 1 ∧ s.current = firstTask ∧ s.curr = none ∧ s.nrSwitches = 0 := by
  have hswitch : (firstFork.schedule 4 firstTask).map
      (fun s => (s.current, s.curr, s.nrSwitches)) = some (firstTask, none, 0) := by
    decide +kernel
  obtain ⟨s, hsome, heq⟩ := Option.map_eq_some_iff.mp hswitch
  simp only [Prod.mk.injEq] at heq
  obtain ⟨hcurrent, hcurr, hnrSwitches⟩ := heq
  refine ⟨s, ?_, hcurrent, hcurr, hnrSwitches⟩
  have hforked : SwitchRun firstFork 0 := .fork (.start bootKernel_boot)
  have hrun := hforked.call firstFork_runnable hsome
  have hmoved : s.current ≠ firstFork.current := by
    rw [hcurrent]
    decide +kernel
  rw [if_neg hmoved] at hrun
  exact hrun

theorem switchRun_not_bookkept_firstSwitch :
    ∃ s, SwitchRun s 1 ∧ ¬ s.Bookkept 1 := by
  obtain ⟨s, hrun, _⟩ := switchRun_firstSwitch
  exact ⟨s, hrun, (switchRun_not_bookkept hrun le_rfl).2⟩

theorem switchRun_not_all_bookkept :
    ¬ ∀ s switches, SwitchRun s switches → 1 ≤ switches → s.Bookkept switches := by
  intro hall
  obtain ⟨s, hrun, _, hcurr, _⟩ := switchRun_firstSwitch
  have hrecord := (hall s 1 hrun le_rfl).1
  rw [hcurr] at hrecord
  exact absurd hrecord (by simp)

end YiOS
