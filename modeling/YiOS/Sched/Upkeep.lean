import YiOS.Sched.Tidy

namespace YiOS

open YiOS.Library

/-! Every step of the kernel leaves the shared structures tidy. -/

namespace Sched

/-- What a step outside `do_fork` and the choice does not change. -/
structure Quiet (s s' : Sched) : Prop where
  memMap : s'.memMap = s.memMap
  links : s'.links = s.links
  list : s'.list = s.list
  current : s'.current = s.current
  task : ∀ t, t ≠ s.current → s'.task t = s.task t
  state : (s'.task s.current).state = (s.task s.current).state
  inRange : (s.task s.current).InRange → (s'.task s.current).InRange

namespace Quiet

theorem refl (s : Sched) : Quiet s s :=
  ⟨rfl, rfl, rfl, rfl, fun _ _ => rfl, rfl, fun h => h⟩

theorem trans {s s' s'' : Sched} (h : Quiet s s') (h' : Quiet s' s'') : Quiet s s'' where
  memMap := h'.memMap.trans h.memMap
  links := h'.links.trans h.links
  list := h'.list.trans h.list
  current := h'.current.trans h.current
  task := fun t ht => (h'.task t (h.current ▸ ht)).trans (h.task t ht)
  state := by
    have hstate := h'.state
    rw [h.current] at hstate
    exact hstate.trans h.state
  inRange := by
    intro hrange
    have hlater := h'.inRange
    rw [h.current] at hlater
    exact hlater (h.inRange hrange)

theorem of_task {s s' : Sched} (hmem : s'.memMap = s.memMap) (hlinks : s'.links = s.links)
    (hlist : s'.list = s.list) (hcurrent : s'.current = s.current)
    (htask : s'.task = s.task) :
    Quiet s s' :=
  ⟨hmem, hlinks, hlist, hcurrent, fun _ _ => by rw [htask], by rw [htask],
    fun h => htask ▸ h⟩

/-- A store to the current task that keeps its state and a sane count. -/
theorem modify (s : Sched) {f : TaskStruct → TaskStruct}
    (hstate : (f (s.task s.current)).state = (s.task s.current).state)
    (hrange : (s.task s.current).InRange → (f (s.task s.current)).InRange) :
    Quiet s (s.modify s.current f) where
  memMap := rfl
  links := rfl
  list := rfl
  current := rfl
  task := fun _ ht => modify_task_of_ne s f ht
  state := by rw [modify_task_self, hstate]
  inRange := by
    rw [modify_task_self]
    exact hrange

theorem preemptDisable (s : Sched) : Quiet s s.preemptDisable :=
  .modify s rfl fun h => ⟨h.nonneg, h.le, h.priority⟩

theorem preemptEnable (s : Sched) : Quiet s s.preemptEnable :=
  .modify s rfl fun h => ⟨h.nonneg, h.le, h.priority⟩

theorem scheduleDebug (s : Sched) (p : TaskPtr) : Quiet s (s.scheduleDebug p) := by
  unfold Sched.scheduleDebug
  split
  · exact .of_task rfl rfl rfl rfl rfl
  · exact .refl s

theorem enterPreempt (s : Sched) : Quiet s s.enterPreempt := by
  unfold Sched.enterPreempt
  split
  · exact (of_task rfl rfl rfl rfl rfl : Quiet s (s.printk _)).trans (.preemptDisable _)
  · exact .preemptDisable s

theorem tickHandlePeriodic (s : Sched) : Quiet s s.tickHandlePeriodic where
  memMap := (tick_frame s).memMap
  links := (tick_frame s).links
  list := (tick_frame s).list
  current := (tick_frame s).current
  task := fun _ ht => tick_of_ne s ht
  state := by rw [tick_current]
  inRange := by
    rintro ⟨hnonneg, hle, hpriority⟩
    rw [tick_current]
    exact ⟨le_max_right _ _, max_le (by omega) (by omega), hpriority⟩

end Quiet

end Sched

open Sched in
theorem Activation.step_quiet {top : Activation} {s s' : Sched}
    (h : top.step s = some (top', s')) : Quiet s s' := by
  cases top with
  | sched caller point =>
      cases point with
      | unmask | mask | account | tail | remask =>
          obtain ⟨_, rfl⟩ := Prod.mk.inj (Option.some.inj h)
          exact .of_task rfl rfl rfl rfl rfl
      | debug =>
          obtain ⟨_, rfl⟩ := Prod.mk.inj (Option.some.inj h)
          exact .scheduleDebug s s.current
      | enable =>
          obtain ⟨_, rfl⟩ := Prod.mk.inj (Option.some.inj h)
          exact .preemptEnable s
      | pick | away => simp [Activation.step] at h
  | irq point =>
      cases point with
      | doIrq =>
          obtain ⟨_, rfl⟩ := Prod.mk.inj (Option.some.inj h)
          exact .refl s
      | check =>
          simp only [Activation.step] at h
          split at h
          · obtain ⟨_, rfl⟩ := Prod.mk.inj (Option.some.inj h)
            exact .refl s
          · obtain ⟨_, rfl⟩ := Prod.mk.inj (Option.some.inj h)
            exact .enterPreempt s
      | exit =>
          obtain ⟨_, rfl⟩ := Prod.mk.inj (Option.some.inj h)
          exact .of_task rfl rfl rfl rfl rfl

namespace Kernel

open Sched

section Go

variable {k : Kernel} {queued linked : TaskPtr → Prop}

theorem go_control_self (k : Kernel) (s : Sched) (control : Control) :
    (k.go s control).control k.sched.current = control := Function.update_self ..

theorem go_control_of_ne (k : Kernel) (s : Sched) (control : Control)
    (h : t ≠ k.sched.current) : (k.go s control).control t = k.control t :=
  Function.update_of_ne h ..

theorem go_live (s : Sched) (control : Control) (h : control.activity ≠ .absent)
    (hlive : k.Live k.sched.current) (t : TaskPtr) :
    (k.go s control).Live t ↔ k.Live t := by
  unfold Live
  by_cases ht : t = k.sched.current
  · subst ht
    rw [go_control_self]
    exact iff_of_true h hlive
  · rw [go_control_of_ne k s control ht]

/-- The current task goes on in the same fork, or outside of any, or begins one. -/
def Continues (k : Kernel) (activity : Activity) : Prop :=
  activity ≠ .absent ∧
    ∀ args point, activity = .forking args point → k.own.activity = activity ∨
      point = .scan 0

theorem Continues.refl (h : k.Live k.sched.current) : k.Continues k.own.activity :=
  ⟨h, fun _ _ _ => .inl rfl⟩

theorem Continues.forkPoint {s : Sched} (control : Control)
    (h : k.Continues control.activity) (hpoint : (k.go s control).forkPoint t = some point) :
    k.forkPoint t = some point ∨ point = .scan 0 := by
  unfold Kernel.forkPoint at hpoint ⊢
  by_cases ht : t = k.sched.current
  · subst ht
    rw [go_control_self] at hpoint
    cases hactivity : control.activity with
    | absent | fresh | starting | idle => simp [hactivity] at hpoint
    | forking args point' =>
        simp only [hactivity, Option.some.injEq] at hpoint
        subst hpoint
        refine (h.2 args point' hactivity).imp_left fun hsame => ?_
        rw [show (k.control k.sched.current).activity = control.activity from hsame, hactivity]
  · rw [go_control_of_ne k s control ht] at hpoint
    exact .inl hpoint

theorem Tidy.quiet {s : Sched} (h : k.Tidy queued linked) (hlive : k.Live k.sched.current)
    (control : Control) (hcontinues : k.Continues control.activity)
    (hquiet : k.sched.Quiet s) : (k.go s control).Tidy queued linked := by
  refine h.calm (go_live s control hcontinues.1 hlive)
    (fun t point => hcontinues.forkPoint control)
    hquiet.memMap hquiet.links (fun t ht => hquiet.task t ?_) (fun t ht => ?_) ?_ ?_
    (fun t ht => ht) (fun t ht => .inl ht) (fun x => .inl ?_)
  · rintro rfl
    exact ht hlive
  · by_cases hcurrent : t = k.sched.current
    · subst hcurrent
      exact hquiet.inRange (h.inRange _ hlive)
    · exact (hquiet.task t hcurrent).symm ▸ h.inRange t ht
  · by_cases hcurrent : TaskPtr.initTask = k.sched.current
    · have hstate := hquiet.state
      rw [← hcurrent] at hstate
      exact hstate.trans h.initState
    · exact (congrArg TaskStruct.state (hquiet.task _ hcurrent)).trans h.initState
  · have hcurrent := h.current
    rw [← hquiet.current] at hcurrent
    exact hcurrent
  · exact congrArg (fun heap => (heap x).next) hquiet.list

/-- A task writes its own state. -/
theorem Tidy.block (h : k.Tidy queued linked) (hlive : k.Live k.sched.current)
    (hinit : k.sched.current ≠ .initTask) (state : TaskState) :
    (k.go (k.sched.modify k.sched.current fun t => { t with state := state }) k.own).Tidy
      queued linked := by
  refine h.calm (go_live _ k.own hlive hlive)
    (fun t point => Continues.forkPoint k.own (.refl hlive))
    rfl rfl (fun t ht => ?_) (fun t ht => ?_) ?_ h.current
    (fun t ht => ht) (fun t ht => .inl ht) (fun x => .inl rfl)
  · refine Function.update_of_ne ?_ ..
    rintro rfl
    exact ht hlive
  · by_cases hcurrent : t = k.sched.current
    · subst hcurrent
      simp only [go, modify_task_self]
      exact (h.inRange _ hlive).congr rfl rfl
    · simp only [go, modify_task_of_ne _ _ hcurrent]
      exact h.inRange t ht
  · simp only [go, modify_task_of_ne _ _ hinit.symm]
    exact h.initState

theorem listAdd_next (heap : Heap ListPtr) (new head x : ListPtr) :
    (listAdd heap new head x).next =
      if x = head then new else if x = new then (heap head).next else (heap x).next := by
  simp [listAdd, __listAdd, Heap.setNext_next]

theorem Tidy.wake (h : k.Tidy queued linked) (hlive : k.Live k.sched.current)
    (hp : k.Live p)
    (hinit : p ≠ .initTask) :
    (k.go (k.sched.wakeUpProcess p) k.own).Tidy (fun t => queued t ∨ t = p) linked := by
  have hmono : ∀ t, queued t → queued t ∨ t = p := fun _ => .inl
  have hnext : ∀ x, (listAdd k.sched.list (.runList p) .rqHead x).next =
      (k.sched.list x).next ∨ QueueNode (fun t => queued t ∨ t = p)
        (listAdd k.sched.list (.runList p) .rqHead x).next := by
    intro x
    rw [listAdd_next]
    split
    · exact .inr (.inr rfl)
    · split
      · exact .inr (h.head.mono hmono)
      · exact .inl rfl
  have htask : ∀ t, t ≠ p → (k.sched.wakeUpProcess p).task t = k.sched.task t := fun t ht =>
    Function.update_of_ne ht ..
  have hself : (k.sched.wakeUpProcess p).task p =
    { k.sched.task p with state := .running } :=
    Function.update_self ..
  refine h.calm (go_live _ k.own hlive hlive)
    (fun t point => Continues.forkPoint k.own (.refl hlive))
    rfl rfl (fun t ht => htask t ?_) (fun t ht => ?_) ?_ (h.current.imp_right .inl)
    (fun t => .inl) (fun t ht => ht.imp_right ?_) hnext
  · rintro rfl
    exact ht hp
  · by_cases hpt : t = p
    · subst hpt
      simp only [go, hself]
      exact (h.inRange _ hp).congr rfl rfl
    · exact (htask t hpt).symm ▸ h.inRange t ht
  · exact (congrArg TaskStruct.state (htask _ hinit.symm)).trans h.initState
  · rintro rfl
    refine ⟨hp, ?_⟩
    have hnode : ((k.sched.wakeUpProcess t).list (.runList t)).next =
        (k.sched.list .rqHead).next := by
      refine (listAdd_next k.sched.list (.runList t) .rqHead (.runList t)).trans ?_
      simp
    simp only [go, hnode]
    exact h.head.mono hmono

end Go

section Switch

variable {k : Kernel} {queued linked : TaskPtr → Prop} {caller : Caller}

theorem listDel_next_eq (heap : Heap ListPtr) (entry x : ListPtr) :
    (listDel heap entry x).next =
      if x = entry then listPoison1
      else if x = (heap entry).prev then (heap entry).next else (heap x).next := by
  simp [listDel, __listDel, Heap.setNext_next]

/-- What the choice of a task changes. -/
structure Picked (queued linked : TaskPtr → Prop) (s : Sched) (next : TaskPtr)
    (s' : Sched) :
    Prop where
  next : queued next
  memMap : s'.memMap = s.memMap
  links : s'.links = s.links
  current : s'.current = s.current
  console : s'.console = s.console
  list : ∀ x, (s'.list x).next = (s.list x).next ∨ QueueNode queued (s'.list x).next
  task : ∀ t, ¬ linked t → t ≠ s.current → s'.task t = s.task t
  inRange : ∀ t, (s.task t).InRange → (s'.task t).InRange
  state : ∀ t, (s'.task t).state = (s.task t).state
  preemptCount : ∀ t, (s'.task t).preemptCount = (s.task t).preemptCount
  cpuContext : ∀ t, (s'.task t).cpuContext = (s.task t).cpuContext

theorem Tidy.retire (h : k.Tidy queued linked) (x : ListPtr) :
    (k.sched.retire.list x).next = (k.sched.list x).next ∨
      QueueNode queued (k.sched.retire.list x).next := by
  unfold Sched.retire
  split
  · next hblocked =>
    rcases h.current with hinit | hqueued
    · rw [hinit, h.initState] at hblocked
      exact absurd rfl hblocked
    · have hnode := h.queue _ hqueued
      simp only [dequeueTaskSimple, listDel_next_eq]
      split
      · exact .inr trivial
      · split
        · exact .inr hnode
        · exact .inl rfl
  · exact .inl rfl

theorem retire_same (s : Sched) : s.retire.task = s.task ∧ s.retire.memMap = s.memMap ∧
    s.retire.links = s.links ∧ s.retire.current = s.current ∧
      s.retire.console = s.console := by
  unfold Sched.retire
  split <;> exact ⟨rfl, rfl, rfl, rfl, rfl⟩

theorem Tidy.picked (h : k.Tidy queued linked)
    (hne : (k.sched.retire.list .rqHead).next ≠ .rqHead)
    (hpicked : k.picked fuel stale = some (next, s)) :
    Picked queued linked k.sched next s := by
  obtain ⟨⟨choice, picked⟩, hpick, hresult⟩ := Option.map_eq_some_iff.mp hpicked
  obtain ⟨rfl, rfl⟩ := Prod.mk.inj hresult
  obtain ⟨htask, hmemMap, hlinks, hcurrent, hconsole⟩ := retire_same k.sched
  have hnode : ∀ x, QueueNode queued (k.sched.list x).next →
      QueueNode queued (k.sched.retire.list x).next := by
    intro x hx
    rcases h.retire x with hsame | hnew
    · exact hsame ▸ hx
    · exact hnew
  obtain ⟨⟨p, hp, rfl⟩, hrecounted⟩ := pickNextTaskSimple_queued h.initTask
    (by rw [hlinks]; exact h.ring)
    (fun t ht => by rw [htask]; exact h.inRange t (h.linkedLive t ht))
    (hnode _ h.head) (fun t ht => hnode _ (h.queue t ht))
    (fun t ht => by rw [htask]; exact h.inRange t (h.queuedLive t ht)) hne hpick
  have hfields : ∀ t, (picked.task t).state = (k.sched.task t).state ∧
      (picked.task t).preemptCount = (k.sched.task t).preemptCount ∧
      (picked.task t).cpuContext = (k.sched.task t).cpuContext := by
    obtain ⟨counts, rfl, _⟩ := hrecounted.counts
    rw [← htask]
    exact fun t => ⟨rfl, rfl, rfl⟩
  obtain ⟨hsameMap, hsameLinks, hsameList, hsameCurrent, hsameConsole⟩ := hrecounted.same
  refine ⟨hp, hsameMap.trans hmemMap, hsameLinks.trans hlinks, hsameCurrent.trans hcurrent,
    hsameConsole.trans hconsole, fun x => ?_, fun t ht hnot => ?_,
    fun t ht => ?_, fun t => ?_,
    fun t => ?_, fun t => ?_⟩
  · have hlist : (picked.clearTaskResched k.sched.current).list = k.sched.retire.list :=
      hsameList
    rw [hlist]
    exact h.retire x
  · rw [clearTaskResched, modify_task_of_ne _ _ hnot]
    obtain ⟨counts, rfl, hcounts⟩ := hrecounted.counts
    rw [htask] at hcounts
    have hsame := (hcounts t).resolve_right fun hnew => ht hnew.1
    simp only [recount, hsame, htask]
  · rw [← htask] at ht
    have hrange := hrecounted.inRange ht
    refine hrange.congr ?_ ?_
    · exact modify_field TaskStruct.count picked rfl t
    · exact modify_field TaskStruct.priority picked rfl t
  · exact (modify_field TaskStruct.state picked rfl t).trans (hfields t).1
  · exact (modify_field TaskStruct.preemptCount picked rfl t).trans (hfields t).2.1
  · exact (modify_field TaskStruct.cpuContext picked rfl t).trans (hfields t).2.2

theorem Tidy.same (h : k.Tidy queued linked) (hlive : k.Live k.sched.current)
    (hpicked : Picked queued linked k.sched next s) (stack : List Activation) :
    (k.go s ⟨k.own.activity, stack⟩).Tidy queued linked := by
  refine h.calm (go_live s ⟨k.own.activity, stack⟩ hlive hlive)
    (fun t point => Continues.forkPoint ⟨k.own.activity, stack⟩ (.refl hlive))
    hpicked.memMap hpicked.links (fun t ht => hpicked.task t ?_ ?_)
    (fun t ht => hpicked.inRange t (h.inRange t ht))
      ((hpicked.state _).trans h.initState) ?_
    (fun t ht => ht) (fun t ht => .inl ht) hpicked.list
  · exact fun hlinked => ht (h.linkedLive t hlinked)
  · rintro rfl
    exact ht hlive
  · have hcurrent := h.current
    rw [← hpicked.current] at hcurrent
    exact hcurrent

/-- The activity of a task that is switched to: it has been forked, or it goes on. -/
def Wakes (k : Kernel) (next : TaskPtr) (activity : Activity) : Prop :=
  activity = .starting ∨ activity = (k.control next).activity

theorem switched_activity {control : Control} (t : TaskPtr) :
    ((k.switched s caller rest next control).control t).activity =
      if t = next then control.activity else (k.control t).activity := by
  by_cases ht : t = next
  · subst ht
    simp [switched]
  · by_cases hcurrent : t = k.sched.current
    · subst hcurrent
      simp [switched, ht, own]
    · simp [switched, ht, hcurrent]

theorem switched_live {control : Control} (hnext : k.Live next)
    (hwakes : k.Wakes next control.activity) (t : TaskPtr) :
    (k.switched s caller rest next control).Live t ↔ k.Live t := by
  unfold Live
  rw [switched_activity]
  split
  · next ht =>
    subst ht
    rcases hwakes with hstart | hsame
    · rw [hstart]
      exact iff_of_true (by simp) hnext
    · rw [hsame]
  · exact Iff.rfl

theorem switched_forkPoint {control : Control} (hwakes : k.Wakes next control.activity)
    (h : (k.switched s caller rest next control).forkPoint t = some point) :
    k.forkPoint t = some point := by
  unfold Kernel.forkPoint at h ⊢
  rw [switched_activity] at h
  by_cases ht : t = next
  · rw [if_pos ht] at h
    subst ht
    rcases hwakes with hstart | hsame
    · simp [hstart] at h
    · rwa [hsame] at h
  · rwa [if_neg ht] at h

theorem switchTo_task_of_ne (s : Sched) (caller : Caller) (next : TaskPtr)
    (h : t ≠ s.current) : (switchTo s caller next).task t = s.task t :=
  cpuSwitchTo_task_of_ne _ h

theorem switchTo_field {α : Type} (field : TaskStruct → α) (s : Sched) (caller : Caller)
    (next : TaskPtr) (h : ∀ t context, field { t with cpuContext := context } = field t)
    (t : TaskPtr) : field ((switchTo s caller next).task t) = field (s.task t) :=
  cpuSwitchTo_field field _ h _ _ _

theorem Tidy.switched {control : Control} (h : k.Tidy queued linked)
    (hlive : k.Live k.sched.current) (hpicked : Picked queued linked k.sched next s)
    (hwakes : k.Wakes next control.activity) (caller : Caller) (rest : List Activation) :
    (k.switched s caller rest next control).Tidy queued linked := by
  have hnext := h.queuedLive next hpicked.next
  refine h.calm (switched_live hnext hwakes)
    (fun t point hpoint => .inl (switched_forkPoint hwakes hpoint)) hpicked.memMap
    hpicked.links (fun t ht => ?_) (fun t ht => ?_) ?_ (.inr hpicked.next)
    (fun t ht => ht) (fun t ht => .inl ht) hpicked.list
  · have hcurrent : t ≠ k.sched.current := by
      rintro rfl
      exact ht hlive
    refine (switchTo_task_of_ne s caller next ?_).trans (hpicked.task t ?_ hcurrent)
    · rwa [hpicked.current]
    · exact fun hlinked => ht (h.linkedLive t hlinked)
  · refine (hpicked.inRange t (h.inRange t ht)).congr ?_ ?_
    · exact switchTo_field TaskStruct.count s caller next (fun _ _ => rfl) t
    · exact switchTo_field TaskStruct.priority s caller next (fun _ _ => rfl) t
  · have hstate := switchTo_field TaskStruct.state s caller next (fun _ _ => rfl) .initTask
    exact hstate.trans ((hpicked.state _).trans h.initState)

end Switch

end Kernel

end YiOS
