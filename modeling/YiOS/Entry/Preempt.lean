import YiOS.Entry.Irq
import YiOS.Entry.Switch
import YiOS.Library.Stack
import YiOS.PageAlloc

namespace YiOS

open YiOS.Library

/-! Interrupts of every task, nested, with switches and forks between them. -/

/-- Where the first task is: its `struct task_struct` in the image of the kernel, which ends
at `bottom`, and its stack between the image and `LOW_MEMORY`. -/
structure Tasks where
  initTask : U64
  bottom : U64
  image : initTask.toNat + taskStructSize ≤ bottom.toNat
  low : bottom.toNat ≤ lowMemory.toNat

/-- The running task, the tasks that rest, and for each task where it was when the
interrupts were taken that it has not returned from, innermost first. -/
structure Preempted where
  cpu : Cpu
  resting : U64 → Option Resting
  taken : U64 → List Cpu

namespace Tasks

/-- A forked task is a page of `get_free_page`. -/
def Task (tasks : Tasks) (t : U64) : Prop := t = tasks.initTask ∨ ∃ i, t = pageAddr i

/-- `start.S` sets the first stack up; that of a forked task is what `union thread_union`
leaves above the `struct task_struct`. -/
def stack (tasks : Tasks) (t : U64) : Stack :=
  if t = tasks.initTask then
    ⟨lowMemory, lowMemory - tasks.bottom⟩
  else
    ⟨t + pageSize, pageSize - BitVec.ofNat 64 taskStructSize⟩

/-- The stack of the running task. -/
def own (tasks : Tasks) (c : Cpu) : Stack := tasks.stack c.spEl0

/-- One more frame fits, below the frames that are there. -/
def Room (tasks : Tasks) (c : Cpu) (frames : List Cpu) : Prop :=
  (tasks.own c).depth c.sp + stackFrameSize.toNat ≤ (tasks.own c).size.toNat ∧
    ∀ c₀ ∈ frames, (tasks.own c).depth (frame c₀) ≤ (tasks.own c).depth c.sp

end Tasks

/-- The running task does anything but write to the contexts and the stacks of the tasks
that rest, or to its own stack where it has been interrupted; it is interrupted; its
innermost handler returns; it forks; it switches to another task. -/
inductive PreemptStep (code : CodePtr → U64) (tasks : Tasks) : Preempted → Preempted → Prop
  | work {c c' : Cpu} {resting : U64 → Option Resting} {taken : U64 → List Cpu} :
      c'.spEl0 = c.spEl0 →
      (∀ t, resting t ≠ none → ∀ b, Within (contextAddr t) (8 * 13) b ∨
        (tasks.stack t).Has b →
        c'.mem b = c.mem b) →
      (∀ c₀ ∈ taken c.spEl0, (tasks.own c).Same (frame c₀) c.mem c'.mem) →
      PreemptStep code tasks ⟨c, resting, taken⟩ ⟨c', resting, taken⟩
  | take {c : Cpu} {resting : U64 → Option Resting} {taken : U64 → List Cpu}
      (vector pstate : U64) : tasks.Room c (taken c.spEl0) →
      PreemptStep code tasks ⟨c, resting, taken⟩ ⟨el1IrqEntry vector pstate c, resting,
        Function.update taken c.spEl0 (c :: taken c.spEl0)⟩
  | exit {c c₀ : Cpu} {resting : U64 → Option Resting} {taken : U64 → List Cpu}
      {frames : List Cpu} : taken c.spEl0 = c₀ :: frames → c.sp = frame c₀ →
      PreemptStep code tasks ⟨c, resting, taken⟩ ⟨el1IrqExit c, resting,
        Function.update taken c.spEl0 frames⟩
  | fork {c : Cpu} {resting : U64 → Option Resting} {taken : U64 → List Cpu} {p : U64}
      (cloneFlags fn arg : U64) : (∃ i, p = pageAddr i) → resting p = none → p ≠ c.spEl0 →
      PreemptStep code tasks ⟨c, resting, taken⟩
        ⟨{ c with mem := copyThread code cloneFlags p fn arg c.mem },
          Function.update resting p (some (.forked cloneFlags fn arg)), taken⟩
  | switch {c : Cpu} {resting : U64 → Option Resting} {taken : U64 → List Cpu} :
      c.x 0 = c.spEl0 → tasks.Task (c.x 1) → c.x 1 ≠ c.x 0 →
      (tasks.own c).depth c.sp ≤ (tasks.own c).size.toNat →
      PreemptStep code tasks ⟨c, resting, taken⟩
        ⟨cpuSwitchTo c,
          Function.update (Function.update resting (c.x 0) (some (.left c))) (c.x 1) none,
          taken⟩

inductive PreemptRun (code : CodePtr → U64) (tasks : Tasks) : Preempted → Prop
  | start (c : Cpu) : tasks.Task c.spEl0 →
      PreemptRun code tasks ⟨c, fun _ => none, fun _ => []⟩
  | step {n n' : Preempted} : PreemptRun code tasks n → PreemptStep code tasks n n' →
      PreemptRun code tasks n'

namespace Tasks

/-- What a frame of task `t` keeps of where the task was interrupted. -/
structure Saved (tasks : Tasks) (t : U64) (m : Memory) (c₀ : Cpu) : Prop where
  task : tasks.Task t ∧ c₀.spEl0 = t
  room : (tasks.stack t).depth c₀.sp + stackFrameSize.toNat ≤ (tasks.stack t).size.toNat
  words : m.loadWords (frame c₀) 34 = ptRegs c₀
  same : (tasks.stack t).Same c₀.sp c₀.mem m

/-- What is kept of a task that was left in `cpu_switch_to`, besides its context. -/
structure Left (tasks : Tasks) (t : U64) (m : Memory) (c₀ : Cpu) : Prop where
  task : c₀.spEl0 = t
  depth : (tasks.stack t).depth c₀.sp ≤ (tasks.stack t).size.toNat
  same : (tasks.stack t).Same c₀.sp c₀.mem m

section Layout

variable {tasks : Tasks} {t t' b : U64} {i : Fin nrPages}

theorem page_ne_init (tasks : Tasks) (i : Fin nrPages) : pageAddr i ≠ tasks.initTask := by
  have haddr := toNat_pageAddr i
  have himage := tasks.image
  have hlow := tasks.low
  rw [lowMemory_toNat] at hlow
  intro heq
  rw [heq] at haddr
  unfold taskStructSize at himage
  omega

theorem stack_init_has : (tasks.stack tasks.initTask).Has b ↔
    tasks.bottom.toNat ≤ b.toNat ∧ b.toNat < 4194304 := by
  have hlow := tasks.low
  have hsize : (lowMemory - tasks.bottom).toNat = 4194304 - tasks.bottom.toNat := by
    rw [lowMemory_toNat] at hlow
    rw [BitVec.toNat_sub, lowMemory_toNat]
    omega
  rw [stack, if_pos rfl, Stack.Has, sub_sub_self, hsize, Within.iff_toNat (by omega)]
  rw [lowMemory_toNat] at hlow
  omega

theorem stack_page_has : (tasks.stack (pageAddr i)).Has b ↔
    (pageAddr i).toNat + taskStructSize ≤ b.toNat ∧
      b.toNat < (pageAddr i).toNat + 4096 := by
  have haddr := toNat_pageAddr i
  have hi : i.val < 131072 := i.isLt
  have hsize : (pageSize - BitVec.ofNat 64 taskStructSize).toNat = 4096 - taskStructSize :=
    rfl
  have hstart : (pageAddr i + pageSize - (pageSize - BitVec.ofNat 64 taskStructSize)).toNat =
      (pageAddr i).toNat + taskStructSize := by
    rw [sub_sub_eq_add_sub, add_right_comm, add_sub_cancel_right, BitVec.toNat_add]
    simp only [taskStructSize, BitVec.toNat_ofNat]
    omega
  rw [stack, if_neg (page_ne_init tasks i), Stack.Has, hsize, Within.iff_toNat]
  · rw [hstart]
    unfold taskStructSize
    omega
  · rw [hstart]
    unfold taskStructSize
    omega

/-- The byte at `b` is of the `struct task_struct` or the stack of task `t`. -/
def Mine (tasks : Tasks) (t b : U64) : Prop :=
  Within t taskStructSize b ∨ (tasks.stack t).Has b

theorem mine_init : tasks.Mine tasks.initTask b → b.toNat < 4194304 := by
  have himage := tasks.image
  have hlow := tasks.low
  rw [lowMemory_toNat] at hlow
  rw [Mine, stack_init_has, Within.iff_toNat (by omega)]
  omega

theorem mine_page (h : tasks.Mine (pageAddr i) b) :
    Within (pageAddr i) pageSize.toNat b := by
  have haddr := toNat_pageAddr i
  have hi : i.val < 131072 := i.isLt
  rw [Mine, stack_page_has, Within.iff_toNat (by unfold taskStructSize; omega)] at h
  rw [pageSize_toNat, Within.iff_toNat (by omega)]
  unfold taskStructSize at h
  omega

theorem page_apart (ht : tasks.Task t) (hne : t ≠ pageAddr i) (hb : tasks.Mine t b) :
    ¬ Within (pageAddr i) pageSize.toNat b := by
  have haddr := toNat_pageAddr i
  have hi : i.val < 131072 := i.isLt
  cases ht with
  | inl hinit =>
      subst hinit
      have hbelow := mine_init hb
      rw [pageSize_toNat, Within.iff_toNat (by omega)]
      omega
  | inr hpage =>
      obtain ⟨j, rfl⟩ := hpage
      have haddr' := toNat_pageAddr j
      have hj : j.val < 131072 := j.isLt
      have hother := mine_page hb
      have hij : j.val ≠ i.val := by
        intro heq
        exact hne (congrArg pageAddr (Fin.ext heq))
      rw [pageSize_toNat, Within.iff_toNat (by omega)] at hother ⊢
      omega

/-- No byte is of two tasks. -/
theorem mine_unique (ht : tasks.Task t) (ht' : tasks.Task t') (hne : t ≠ t')
    (hb : tasks.Mine t b) : ¬ tasks.Mine t' b := by
  cases ht' with
  | inr hpage =>
      obtain ⟨i, rfl⟩ := hpage
      intro hb'
      exact page_apart ht hne hb (mine_page hb')
  | inl hinit =>
      cases ht with
      | inl hinit' => exact absurd (hinit'.trans hinit.symm) hne
      | inr hpage =>
          obtain ⟨i, rfl⟩ := hpage
          intro hb'
          exact page_apart (.inl hinit) hne.symm hb' (mine_page hb)

theorem struct_not_has (ht : tasks.Task t) (hb : Within t taskStructSize b) :
    ¬ (tasks.stack t).Has b := by
  cases ht with
  | inl hinit =>
      subst hinit
      have himage := tasks.image
      have hlow := tasks.low
      rw [lowMemory_toNat] at hlow
      rw [Within.iff_toNat (by omega)] at hb
      rw [stack_init_has]
      omega
  | inr hpage =>
      obtain ⟨i, rfl⟩ := hpage
      have haddr := toNat_pageAddr i
      have hi : i.val < 131072 := i.isLt
      rw [Within.iff_toNat (by unfold taskStructSize; omega)] at hb
      rw [stack_page_has]
      omega

theorem apart (tasks : Tasks) (t t' : U64) (ht : tasks.Task t) (ht' : tasks.Task t')
    (hne : t ≠ t') : Apart t taskStructSize t' taskStructSize :=
  fun _ hb hb' => mine_unique ht ht' hne (.inl hb) (.inl hb')

theorem context_not_has (ht : tasks.Task t) (ht' : tasks.Task t')
    (hb : Within (contextAddr t) (8 * 13) b) : ¬ (tasks.stack t').Has b := by
  have hstruct : Within t taskStructSize b := hb.sub (by decide) (by decide)
  by_cases heq : t = t'
  · subst heq
    exact struct_not_has ht hstruct
  · intro hb'
    exact mine_unique ht ht' heq (.inl hstruct) (.inr hb')

end Layout

section Keep

variable {tasks : Tasks} {t t' b : U64} {m m' : Memory} {c₀ : Cpu}

namespace Saved

theorem depth_frame (h : tasks.Saved t m c₀) : (tasks.stack t).depth (frame c₀) =
    (tasks.stack t).depth c₀.sp + stackFrameSize.toNat := by
  have hroom := h.room
  have hlt := (tasks.stack t).size.isLt
  exact Stack.depth_sub (by omega)

theorem keep (h : tasks.Saved t m c₀) (hsame : (tasks.stack t).Same (frame c₀) m m') :
    tasks.Saved t m' c₀ := by
  have hroom := h.room
  have hlt := (tasks.stack t).size.isLt
  have hdepth := h.depth_frame
  refine ⟨h.task, h.room, ?_, ?_⟩
  · rw [← h.words]
    exact hsame.loadWords (by omega) rfl
  · exact h.same.trans (hsame.mono (by omega))

theorem keep_has (h : tasks.Saved t m c₀)
    (hkept : ∀ b, (tasks.stack t).Has b → m' b = m b) : tasks.Saved t m' c₀ := by
  have hroom := h.room
  have hdepth := h.depth_frame
  exact h.keep (.of_has hkept (by omega))

end Saved

theorem Left.keep_has (h : tasks.Left t m c₀)
    (hkept : ∀ b, (tasks.stack t).Has b → m' b = m b) : tasks.Left t m' c₀ :=
  ⟨h.task, h.depth, h.same.trans (.of_has hkept h.depth)⟩

end Keep

end Tasks

/-- What holds between the steps: the contexts and the frames of all tasks are in memory. -/
structure Intact (code : CodePtr → U64) (tasks : Tasks) (c : Cpu)
    (resting : U64 → Option Resting) (taken : U64 → List Cpu) : Prop where
  kept : Kept code tasks.Task c resting
  owner : ∀ t, taken t ≠ [] → t = c.spEl0 ∨ resting t ≠ none
  saved : ∀ t, ∀ c₀ ∈ taken t, tasks.Saved t c.mem c₀
  left : ∀ t c₀, resting t = some (.left c₀) → tasks.Left t c.mem c₀

section Entry

variable (vector pstate : U64) (c : Cpu)

theorem el1IrqEntry_spEl0 : (el1IrqEntry vector pstate c).spEl0 = c.spEl0 := by
  rw [← Cpu.getSys_spEl0, ← Cpu.getSys_spEl0]
  simp [el1IrqEntry, trapEntry]
  rfl

theorem el1IrqExit_spEl0 : (el1IrqExit c).spEl0 = c.spEl0 := by
  have hrun : (c.run trapExit).getSys .spEl0 = c.getSys .spEl0 := by
    simp [trapExit, Cpu.setSys_getSys_of_ne]
  exact hrun

theorem el1IrqExit_mem : (el1IrqExit c).mem = c.mem := by
  simp [el1IrqExit, Cpu.eret, trapExit]

theorem el1IrqEntry_of_not_within {b : U64}
    (h : ¬ Within (frame c) stackFrameSize.toNat b) :
    (el1IrqEntry vector pstate c).mem b = c.mem b := by
  have hlength : 8 * (ptRegs c).length = stackFrameSize.toNat := by
    simp [ptRegs, stackFrameSize]
  rw [el1IrqEntry_mem]
  refine Memory.storeWords_of_not_within (by rw [hlength]; decide) ?_
  rw [hlength]
  exact h

theorem el1IrqEntry_loadWords :
    (el1IrqEntry vector pstate c).mem.loadWords (frame c) 34 = ptRegs c := by
  have hlength : (ptRegs c).length = 34 := by simp [ptRegs]
  rw [el1IrqEntry_mem, ← hlength]
  exact Memory.loadWords_storeWords (by rw [hlength]; decide)

theorem cpuSwitchTo_of_not_within {b : U64}
    (h : ¬ Within (contextAddr (c.x 0)) (8 * 13) b) :
    (cpuSwitchTo c).mem b = c.mem b := by
  rw [cpuSwitchTo_mem]
  refine Memory.storeWords_of_not_within (by rw [length_context]; decide) ?_
  rw [length_context]
  exact h

end Entry

namespace Intact

variable {code : CodePtr → U64} {tasks : Tasks} {c c' c₀ : Cpu}
  {resting : U64 → Option Resting}
  {taken : U64 → List Cpu}

/-- A task that has been interrupted and does not run rests. -/
theorem rests (h : Intact code tasks c resting taken) {t : U64} (ht : t ≠ c.spEl0)
    (hc₀ : c₀ ∈ taken t) : resting t ≠ none := by
  cases h.owner t (List.ne_nil_of_mem hc₀) with
  | inl hcurrent => exact absurd hcurrent ht
  | inr hrest => exact hrest

theorem work (h : Intact code tasks c resting taken) (hcurrent : c'.spEl0 = c.spEl0)
    (hothers : ∀ t, resting t ≠ none →
      ∀ b, Within (contextAddr t) (8 * 13) b ∨ (tasks.stack t).Has b → c'.mem b = c.mem b)
    (hown : ∀ c₀ ∈ taken c.spEl0, (tasks.own c).Same (frame c₀) c.mem c'.mem) :
    Intact code tasks c' resting taken := by
  refine ⟨h.kept.work hcurrent fun t ht b hb => hothers t ht b (.inl hb), ?_, ?_, ?_⟩
  · intro t ht
    rw [hcurrent]
    exact h.owner t ht
  · intro t c₀ hc₀
    by_cases ht : t = c.spEl0
    · subst ht
      exact (h.saved _ c₀ hc₀).keep (hown c₀ hc₀)
    · have hrest := h.rests ht hc₀
      exact (h.saved t c₀ hc₀).keep_has fun b hb => hothers t hrest b (.inr hb)
  · intro t c₀ hleft
    have hrest : resting t ≠ none := by simp [hleft]
    exact (h.left t c₀ hleft).keep_has fun b hb => hothers t hrest b (.inr hb)

/-- What the running task writes to its own stack, the others do not see. -/
theorem own_stack (h : Intact code tasks c resting taken)
    (hmem : ∀ b, ¬ (tasks.own c).Has b → c'.mem b = c.mem b) {t : U64}
    (ht : resting t ≠ none) :
    ∀ b, Within (contextAddr t) (8 * 13) b ∨ (tasks.stack t).Has b →
      c'.mem b = c.mem b := by
  have hcurrent := h.kept.current.1
  have htask := h.kept.task t ht
  have hne : c.spEl0 ≠ t := by
    intro heq
    exact ht (heq ▸ h.kept.current.2)
  intro b hb
  refine hmem b ?_
  cases hb with
  | inl hcontext => exact Tasks.context_not_has htask hcurrent hcontext
  | inr hstack =>
      intro hown
      exact Tasks.mine_unique hcurrent htask hne (.inr hown) (.inr hstack)

theorem take (h : Intact code tasks c resting taken)
    (hroom : tasks.Room c (taken c.spEl0)) (vector pstate : U64) :
    Intact code tasks (el1IrqEntry vector pstate c) resting
      (Function.update taken c.spEl0 (c :: taken c.spEl0)) := by
  have hlt := (tasks.own c).size.isLt
  have hfits := hroom.1
  have hcurrent := el1IrqEntry_spEl0 vector pstate c
  have hframe : ∀ b, Within (frame c) stackFrameSize.toNat b → (tasks.own c).Has b := by
    intro b hb
    have hdepth : (tasks.own c).depth (frame c) =
        (tasks.own c).depth c.sp + stackFrameSize.toNat := Stack.depth_sub (by omega)
    exact (Stack.Used.frame (by omega) hb).has (le_of_eq_of_le hdepth hfits)
  have hused : ∀ b, (tasks.own c).Used c.sp b →
      (el1IrqEntry vector pstate c).mem b = c.mem b := by
    intro b hb
    exact el1IrqEntry_of_not_within vector pstate c (hb.not_frame (by omega))
  have hothers : ∀ t, resting t ≠ none →
      ∀ b, Within (contextAddr t) (8 * 13) b ∨ (tasks.stack t).Has b →
        (el1IrqEntry vector pstate c).mem b = c.mem b := by
    intro t ht
    refine h.own_stack ?_ ht
    intro b hb
    exact el1IrqEntry_of_not_within vector pstate c fun hb' => hb (hframe b hb')
  have hold : Intact code tasks (el1IrqEntry vector pstate c) resting taken := by
    refine h.work hcurrent hothers ?_
    intro c₀ hc₀ b hb
    exact hused b (Stack.used_mono (hroom.2 c₀ hc₀) hb)
  refine ⟨hold.kept, ?_, ?_, hold.left⟩
  · intro t ht
    by_cases hself : t = c.spEl0
    · exact .inl (hself.trans hcurrent.symm)
    · rw [Function.update_of_ne hself] at ht
      exact hold.owner t ht
  · intro t c₀ hc₀
    by_cases hself : t = c.spEl0
    · subst hself
      rw [Function.update_self] at hc₀
      cases hc₀ with
      | head =>
          exact ⟨⟨h.kept.current.1, rfl⟩, hfits,
            el1IrqEntry_loadWords vector pstate c, hused⟩
      | tail _ hc₀ => exact hold.saved _ c₀ hc₀
    · rw [Function.update_of_ne hself] at hc₀
      exact hold.saved t c₀ hc₀

theorem exit {frames : List Cpu} (h : Intact code tasks c resting taken)
    (htaken : taken c.spEl0 = c₀ :: frames) :
    Intact code tasks (el1IrqExit c) resting (Function.update taken c.spEl0 frames) := by
  have hmem := el1IrqExit_mem c
  have hold : Intact code tasks (el1IrqExit c) resting taken := by
    refine h.work (el1IrqExit_spEl0 c) (fun t ht b hb => by rw [hmem]) ?_
    intro c₀ hc₀ b hb
    rw [hmem]
  have hsub : ∀ t c₁, c₁ ∈ Function.update taken c.spEl0 frames t → c₁ ∈ taken t := by
    intro t c₁ hc₁
    by_cases hself : t = c.spEl0
    · subst hself
      rw [Function.update_self] at hc₁
      rw [htaken]
      exact List.mem_cons_of_mem _ hc₁
    · rwa [Function.update_of_ne hself] at hc₁
  refine ⟨hold.kept, ?_, ?_, hold.left⟩
  · intro t ht
    obtain ⟨c₁, hc₁⟩ := List.exists_mem_of_ne_nil _ ht
    exact hold.owner t (List.ne_nil_of_mem (hsub t c₁ hc₁))
  · intro t c₁ hc₁
    exact hold.saved t c₁ (hsub t c₁ hc₁)

theorem fork {p : U64} (h : Intact code tasks c resting taken) (hp : ∃ i, p = pageAddr i)
    (hnone : resting p = none) (hne : p ≠ c.spEl0) (cloneFlags fn arg : U64) :
    Intact code tasks { c with mem := copyThread code cloneFlags p fn arg c.mem }
      (Function.update resting p (some (.forked cloneFlags fn arg))) taken := by
  have hother : ∀ t, tasks.Task t → t ≠ p → ∀ b, tasks.Mine t b →
      ¬ Within p pageSize.toNat b := by
    obtain ⟨i, rfl⟩ := hp
    intro t ht htp b hb
    exact Tasks.page_apart ht htp hb
  have hkept : ∀ t, tasks.Task t → t ≠ p → ∀ b, (tasks.stack t).Has b →
      copyThread code cloneFlags p fn arg c.mem b = c.mem b := by
    intro t ht htp b hb
    exact copyThread_of_not_within code cloneFlags p fn arg c.mem
      (hother t ht htp b (.inr hb))
  have hpage : ∀ t, tasks.Task t → t ≠ p → Apart p pageSize.toNat t taskStructSize := by
    intro t ht htp b hb hb'
    exact hother t ht htp b (.inl hb') hb
  refine ⟨h.kept.fork (.inr hp) hne hpage cloneFlags fn arg, ?_, ?_, ?_⟩
  · intro t ht
    cases h.owner t ht with
    | inl hcurrent => exact .inl hcurrent
    | inr hrest =>
        refine .inr ?_
        by_cases htp : t = p
        · exact absurd (htp ▸ hnone) hrest
        · rwa [Function.update_of_ne htp]
  · intro t c₀ hc₀
    have hsaved := h.saved t c₀ hc₀
    by_cases htp : t = p
    · subst htp
      exact absurd hnone (h.rests hne hc₀)
    · exact hsaved.keep_has (hkept t hsaved.task.1 htp)
  · intro t c₀ hleft
    by_cases htp : t = p
    · subst htp
      rw [Function.update_self] at hleft
      cases hleft
    · rw [Function.update_of_ne htp] at hleft
      exact (h.left t c₀ hleft).keep_has
        (hkept t (h.kept.task t (by simp [hleft])) htp)

/-- A switch writes to no stack. -/
theorem switch_stack {t b : U64} (hcurrent : tasks.Task (c.x 0)) (ht : tasks.Task t)
    (hb : (tasks.stack t).Has b) : (cpuSwitchTo c).mem b = c.mem b := by
  refine cpuSwitchTo_of_not_within c ?_
  intro hcontext
  exact Tasks.context_not_has hcurrent ht hcontext hb

theorem switch (h : Intact code tasks c resting taken) (hprev : c.x 0 = c.spEl0)
    (hnext : tasks.Task (c.x 1))
    (hdepth : (tasks.own c).depth c.sp ≤ (tasks.own c).size.toNat) :
    Intact code tasks (cpuSwitchTo c)
      (Function.update (Function.update resting (c.x 0) (some (.left c))) (c.x 1) none)
      taken := by
  have hcurrent : tasks.Task (c.x 0) := hprev ▸ h.kept.current.1
  have hkept : ∀ t, tasks.Task t → ∀ b, (tasks.stack t).Has b →
      (cpuSwitchTo c).mem b = c.mem b := fun t ht b hb => switch_stack hcurrent ht hb
  refine ⟨h.kept.switch (Tasks.apart tasks) hprev hnext, ?_, ?_, ?_⟩
  · intro t ht
    by_cases htnext : t = c.x 1
    · exact .inl (htnext.trans (cpuSwitchTo_spEl0 c).symm)
    · refine .inr ?_
      rw [Function.update_of_ne htnext]
      by_cases htprev : t = c.x 0
      · subst htprev
        rw [Function.update_self]
        exact Option.some_ne_none _
      · rw [Function.update_of_ne htprev]
        cases h.owner t ht with
        | inl heq => exact absurd (heq.trans hprev.symm) htprev
        | inr hrest => exact hrest
  · intro t c₀ hc₀
    have hsaved := h.saved t c₀ hc₀
    exact hsaved.keep_has (hkept t hsaved.task.1)
  · intro t c₀ hleft
    have htnext : t ≠ c.x 1 := by
      intro heq
      subst heq
      rw [Function.update_self] at hleft
      cases hleft
    rw [Function.update_of_ne htnext] at hleft
    by_cases htprev : t = c.x 0
    · subst htprev
      rw [Function.update_self] at hleft
      cases hleft
      have hsame : (tasks.stack (c.x 0)).Same c.sp c.mem c.mem := Stack.Same.refl _ _ _
      refine Tasks.Left.keep_has ⟨hprev.symm, ?_, hsame⟩ (hkept _ hcurrent)
      rw [hprev]
      exact hdepth
    · rw [Function.update_of_ne htprev] at hleft
      exact (h.left t c₀ hleft).keep_has (hkept t (h.kept.task t (by simp [hleft])))

theorem step {n n' : Preempted} (h : Intact code tasks n.cpu n.resting n.taken)
    (hstep : PreemptStep code tasks n n') : Intact code tasks n'.cpu n'.resting n'.taken := by
  cases hstep with
  | work hcurrent hothers hown => exact h.work hcurrent hothers hown
  | take vector pstate hroom => exact h.take hroom vector pstate
  | exit htaken hsp => exact h.exit htaken
  | fork cloneFlags fn arg hp hnone hne => exact h.fork hp hnone hne cloneFlags fn arg
  | switch hprev hnext hne hdepth => exact h.switch hprev hnext hdepth

end Intact

theorem PreemptRun.intact {code : CodePtr → U64} {tasks : Tasks} {n : Preempted}
    (h : PreemptRun code tasks n) : Intact code tasks n.cpu n.resting n.taken := by
  induction h with
  | start c hc =>
      refine ⟨⟨⟨hc, rfl⟩, ?_, ?_⟩, ?_, ?_, ?_⟩
      · simp
      · simp
      · simp
      · simp
      · simp
  | step _ hstep ih => exact ih.step hstep

/-- All that a task has of its own is again as it was in `c₀`: the registers, and its stack
as far as it was in use. -/
structure Unnoticed (tasks : Tasks) (c₀ c : Cpu) : Prop where
  x : c.x = c₀.x
  sp : c.sp = c₀.sp
  pc : c.pc = c₀.pc
  pstate : c.pstate = c₀.pstate
  spEl0 : c.spEl0 = c₀.spEl0
  same : (tasks.own c₀).Same c₀.sp c₀.mem c.mem

/-- Whatever interrupts, switches and forks there have been in between: a task that returns
from its innermost interrupt is where it was interrupted, and a task that is switched to
again is where it called `cpu_switch_to`. -/
theorem preemptRun_transparent {code : CodePtr → U64} {tasks : Tasks} {n : Preempted}
    (h : PreemptRun code tasks n) :
    (∀ c₀ frames, n.taken n.cpu.spEl0 = c₀ :: frames → n.cpu.sp = frame c₀ →
      Unnoticed tasks c₀ (el1IrqExit n.cpu)) ∧
    ∀ c₀, n.cpu.x 0 = n.cpu.spEl0 → n.cpu.x 1 ≠ n.cpu.x 0 →
      n.resting (n.cpu.x 1) = some (.left c₀) →
      (∀ i : Fin 31, 19 ≤ i.val → (cpuSwitchTo n.cpu).x i = c₀.x i) ∧
        (cpuSwitchTo n.cpu).sp = c₀.sp ∧ (cpuSwitchTo n.cpu).pc = c₀.x 30 ∧
        (cpuSwitchTo n.cpu).spEl0 = c₀.spEl0 ∧
        (tasks.own c₀).Same c₀.sp c₀.mem (cpuSwitchTo n.cpu).mem := by
  have hintact := h.intact
  constructor
  · intro c₀ frames htaken hsp
    have hsaved := hintact.saved _ c₀ (by rw [htaken]; exact List.mem_cons_self)
    obtain ⟨hx, hsp', hpc, hpstate⟩ := el1IrqExit_restores hsp hsaved.words
    have hspEl0 : (el1IrqExit n.cpu).spEl0 = c₀.spEl0 :=
      (el1IrqExit_spEl0 n.cpu).trans hsaved.task.2.symm
    refine ⟨hx, hsp', hpc, hpstate, hspEl0, ?_⟩
    rw [Tasks.own, hsaved.task.2, el1IrqExit_mem]
    exact hsaved.same
  · intro c₀ hprev hne hrest
    have hcurrent : tasks.Task (n.cpu.x 0) := hprev ▸ hintact.kept.current.1
    have hnext := hintact.kept.task (n.cpu.x 1) (by simp [hrest])
    have hleft := hintact.left _ c₀ hrest
    obtain ⟨hregs, hsp⟩ :=
      context_inj (hintact.kept.arrive (Tasks.apart tasks) hprev hne hrest)
    have hkept := hleft.keep_has fun b hb => Intact.switch_stack hcurrent hnext hb
    refine ⟨hregs, hsp, ?_, (cpuSwitchTo_spEl0 n.cpu).trans hleft.task.symm, ?_⟩
    · rw [cpuSwitchTo_pc]
      exact hregs 30 (by decide)
    · rw [Tasks.own, hleft.task]
      exact hkept.same

/-- The first task is interrupted, its handler switches to a task that it has forked, and
that one switches back. -/
theorem preemptRun_transparent_handler :
    ∃ code tasks n n' c₀, PreemptRun code tasks n ∧ PreemptRun code tasks n' ∧
      n.cpu.spEl0 ≠ n'.cpu.spEl0 ∧ n'.cpu = cpuSwitchTo n.cpu ∧
      n'.taken n'.cpu.spEl0 = [c₀] ∧ Unnoticed tasks c₀ (el1IrqExit n'.cpu) := by
  let code : CodePtr → U64 := fun _ => 0x80100
  let tasks : Tasks := ⟨0x86000, 0x90000, by decide, by decide⟩
  let page : Fin nrPages := ⟨1, by decide⟩
  let first : Cpu := { kernelCpu with
    sp := 0x400000
    spEl0 := 0x86000
    mem := copyThread code pfKthread (pageAddr page) 0x80000 7 kernelCpu.mem }
  let entered : Cpu := el1IrqEntry 0x280 0x3c5 first
  let leaving : Cpu := { entered with
    x := Function.update (Function.update entered.x 0 0x86000) 1 (pageAddr page) }
  let child : Cpu := { cpuSwitchTo leaving with
    x := Function.update (Function.update entered.x 0 (pageAddr page)) 1 0x86000
    sp := 0x402000 }
  let forked : U64 → Option Resting :=
    Function.update (fun _ => none) (pageAddr page) (some (.forked pfKthread 0x80000 7))
  let left : U64 → Option Resting :=
    Function.update (Function.update forked 0x86000 (some (.left leaving)))
      (pageAddr page) none
  let taken : U64 → List Cpu := Function.update (fun _ => []) 0x86000 [first]
  have hentered : entered.spEl0 = 0x86000 := el1IrqEntry_spEl0 0x280 0x3c5 first
  have hsp : leaving.sp = frame first := el1IrqEntry_sp 0x280 0x3c5 first
  have hchild : child.spEl0 = pageAddr page := cpuSwitchTo_spEl0 leaving
  have hdepth : (tasks.own leaving).depth leaving.sp ≤ (tasks.own leaving).size.toNat := by
    rw [Tasks.own, hsp, show leaving.spEl0 = 0x86000 from hentered]
    decide
  have hroom : tasks.Room first [] := ⟨by decide, by simp⟩
  have hstart : PreemptRun code tasks ⟨{ kernelCpu with sp := 0x400000, spEl0 := 0x86000 },
      fun _ => none, fun _ => []⟩ := .start _ (.inl rfl)
  have hfork : PreemptRun code tasks ⟨first, forked, fun _ => []⟩ :=
    hstart.step (.fork pfKthread 0x80000 7 ⟨page, rfl⟩ rfl (by decide))
  have htake : PreemptRun code tasks ⟨entered, forked, taken⟩ :=
    hfork.step (.take 0x280 0x3c5 hroom)
  have hleaving : PreemptRun code tasks ⟨leaving, forked, taken⟩ :=
    htake.step (.work rfl (fun _ _ _ _ => rfl) fun _ _ => Stack.Same.refl _ _ _)
  have hswitched : PreemptRun code tasks ⟨cpuSwitchTo leaving, left, taken⟩ :=
    hleaving.step (.switch hentered.symm (.inr ⟨page, rfl⟩) (by decide) hdepth)
  have hready : PreemptRun code tasks ⟨child, left, taken⟩ :=
    hswitched.step (.work rfl (fun _ _ _ _ => rfl) fun _ _ => Stack.Same.refl _ _ _)
  have hfits : (tasks.own child).depth child.sp ≤ (tasks.own child).size.toNat := by
    rw [Tasks.own, hchild]
    decide
  have hback := hready.step (.switch hchild.symm (.inl rfl) (by decide) hfits)
  have hspEl0 : (cpuSwitchTo child).spEl0 = 0x86000 := cpuSwitchTo_spEl0 child
  obtain ⟨_, hreturns⟩ := preemptRun_transparent hready
  have hfirst : child.x 1 = 0x86000 := rfl
  have hrest : left (child.x 1) = some (.left leaving) := by
    rw [hfirst]
    simp only [left]
    rw [Function.update_of_ne (by decide), Function.update_self]
  obtain ⟨_, hsame, _⟩ :=
    hreturns leaving hchild.symm (by decide) (by dsimp only; exact hrest)
  refine ⟨code, tasks, _, _, first, hready, hback, ?_, rfl, ?_, ?_⟩
  · change child.spEl0 ≠ (cpuSwitchTo child).spEl0
    rw [hchild, hspEl0]
    decide
  · change taken (cpuSwitchTo child).spEl0 = [first]
    rw [hspEl0]
    rfl
  · refine (preemptRun_transparent hback).1 first [] ?_ (hsame.trans hsp)
    change taken (cpuSwitchTo child).spEl0 = [first]
    rw [hspEl0]
    rfl

end YiOS
