import YiOS.Entry.Code
import YiOS.Sched.Fork

namespace YiOS

open YiOS.Library

/-! `cpu_switch_to` on the registers and the memory, over whole runs. -/

/-- The registers that a `struct cpu_context` holds, in its order. -/
def context (c : Cpu) : List U64 :=
  [c.x 19, c.x 20, c.x 21, c.x 22, c.x 23, c.x 24, c.x 25, c.x 26, c.x 27, c.x 28, c.x 29,
    c.sp, c.x 30]

def contextAddr (task : U64) : U64 := task + threadCpuContext

/-- The words of a `struct cpu_context`; `code` are the addresses of the code it may
hold. -/
def CpuContext.words (code : CodePtr → U64) (context : CpuContext) : List U64 :=
  [context.x19, context.x20, context.x21, context.x22, context.x23, context.x24,
    context.x25,
    context.x26, context.x27, context.x28, context.fp, context.sp, code context.pc]

def copyThread (code : CodePtr → U64) (cloneFlags p fn arg : U64) (m : Memory) : Memory :=
  let childregs := taskPtRegs p
  let m := m.clear childregs 272
  let m := m.clear (contextAddr p) (8 * 13)
  let m := if cloneFlags &&& pfKthread ≠ 0 then
      let m := m.store64 (childregs + 264) psrModeEl1h
      let m := m.store64 (contextAddr p + BitVec.ofNat 64 (8 * 0)) fn
      m.store64 (contextAddr p + BitVec.ofNat 64 (8 * 1)) arg
    else
      m
  let m := m.store64 (contextAddr p + BitVec.ofNat 64 (8 * 12)) (code .retFromFork)
  m.store64 (contextAddr p + BitVec.ofNat 64 (8 * 11)) childregs

/-- What is known of a task that does not run: it has been forked and never run, or it was
left in `cpu_switch_to`. -/
inductive Resting where
  | forked (cloneFlags fn arg : U64)
  | left (c : Cpu)

structure Switching where
  cpu : Cpu
  resting : U64 → Option Resting

/-- Between the switches anything may happen to the registers and to all memory but the
contexts of the tasks that rest. -/
inductive SwitchStep (code : CodePtr → U64) (Task : U64 → Prop) :
    Switching → Switching → Prop
  | work : c'.spEl0 = c.spEl0 →
      (∀ t, resting t ≠ none → ∀ a, Within (contextAddr t) (8 * 13) a →
        c'.mem a = c.mem a) →
      SwitchStep code Task ⟨c, resting⟩ ⟨c', resting⟩
  | fork (cloneFlags fn arg : U64) : Task p → resting p = none → p ≠ c.spEl0 →
      (∀ t, Task t → t ≠ p → Apart p pageSize.toNat t taskStructSize) →
      SwitchStep code Task ⟨c, resting⟩
        ⟨{ c with mem := copyThread code cloneFlags p fn arg c.mem },
          Function.update resting p (some (.forked cloneFlags fn arg))⟩
  | switch : c.x 0 = c.spEl0 → Task (c.x 1) → c.x 1 ≠ c.x 0 →
      SwitchStep code Task ⟨c, resting⟩
        ⟨cpuSwitchTo c,
          Function.update (Function.update resting (c.x 0) (some (.left c))) (c.x 1) none⟩

inductive SwitchesRun (code : CodePtr → U64) (Task : U64 → Prop) : Switching → Prop
  | start (c : Cpu) : Task c.spEl0 → SwitchesRun code Task ⟨c, fun _ => none⟩
  | step : SwitchesRun code Task n → SwitchStep code Task n n' → SwitchesRun code Task n'

section Code

theorem saveContext_mem (c : Cpu) :
    (c.run saveContext).mem = c.mem.storeWords (contextAddr (c.x 0)) (context c) := by
  simp [saveContext, contextAddr, context, Memory.storeWords, BitVec.add_assoc]

theorem saveContext_x (c : Cpu) :
    (c.run saveContext).x 0 = c.x 0 ∧ (c.run saveContext).x 1 = c.x 1 := by
  simp [saveContext]

theorem loadContext_context (c : Cpu) :
    context (c.run loadContext) = c.mem.loadWords (contextAddr (c.x 1)) 13 := by
  simp [loadContext, context, contextAddr, Memory.loadWords, BitVec.add_assoc]

theorem loadContext_mem (c : Cpu) : (c.run loadContext).mem = c.mem := by
  simp [loadContext]

theorem loadContext_x (c : Cpu) : (c.run loadContext).x 0 = c.x 0 := by
  simp [loadContext]

theorem loadContext_spEl0 (c : Cpu) : (c.run loadContext).getSys .spEl0 = c.x 1 := by
  simp [loadContext]

theorem cpuSwitchTo_mem (c : Cpu) :
    (cpuSwitchTo c).mem = c.mem.storeWords (contextAddr (c.x 0)) (context c) := by
  rw [cpuSwitchTo, Cpu.ret, Cpu.b_mem, Cpu.run_append, loadContext_mem, saveContext_mem]

theorem context_b (c : Cpu) (target : U64) : context (c.b target) = context c := by
  simp only [context, Cpu.b_x, Cpu.b_sp]

/-- The registers come from memory as it is behind the stores. -/
theorem cpuSwitchTo_context (c : Cpu) : context (cpuSwitchTo c) =
    (cpuSwitchTo c).mem.loadWords (contextAddr (c.x 1)) 13 := by
  rw [cpuSwitchTo_mem, cpuSwitchTo, Cpu.ret, context_b, Cpu.run_append, loadContext_context,
    saveContext_mem, (saveContext_x c).2]

theorem cpuSwitchTo_x (c : Cpu) : (cpuSwitchTo c).x 0 = c.x 0 := by
  rw [cpuSwitchTo, Cpu.ret, Cpu.b_x, Cpu.run_append, loadContext_x, (saveContext_x c).1]

theorem cpuSwitchTo_spEl0 (c : Cpu) : (cpuSwitchTo c).spEl0 = c.x 1 := by
  rw [← Cpu.getSys_spEl0, cpuSwitchTo, Cpu.ret, Cpu.b_getSys, Cpu.run_append,
    loadContext_spEl0, (saveContext_x c).2]

theorem cpuSwitchTo_pc (c : Cpu) : (cpuSwitchTo c).pc = (cpuSwitchTo c).x 30 := by
  rw [cpuSwitchTo, Cpu.ret, Cpu.b_x, Cpu.b_pc]

theorem length_context (c : Cpu) : (context c).length = 13 := rfl

/-- A context says what every callee-saved register is. -/
theorem context_inj {c c' : Cpu} (h : context c = context c') :
    (∀ i : Fin 31, 19 ≤ i.val → c.x i = c'.x i) ∧ c.sp = c'.sp := by
  simp only [context, List.cons.injEq, and_true] at h
  obtain ⟨h19, h20, h21, h22, h23, h24, h25, h26, h27, h28, h29, hsp, h30⟩ := h
  refine ⟨fun ⟨i, hlt⟩ hi => ?_, hsp⟩
  obtain ⟨k, rfl⟩ : ∃ k, i = 19 + k := ⟨i - 19, by simp at hi; omega⟩
  match k, hlt with
  | 0, _ => exact h19
  | 1, _ => exact h20
  | 2, _ => exact h21
  | 3, _ => exact h22
  | 4, _ => exact h23
  | 5, _ => exact h24
  | 6, _ => exact h25
  | 7, _ => exact h26
  | 8, _ => exact h27
  | 9, _ => exact h28
  | 10, _ => exact h29
  | 11, _ => exact h30
  | k + 12, hlt => omega

end Code

section CopyThread

variable (code : CodePtr → U64) (cloneFlags p fn arg : U64) (m : Memory)

theorem taskPtRegs_eq : taskPtRegs p = p + 3824 := by
  rw [taskPtRegs, BitVec.sub_eq_add_neg, BitVec.add_assoc]
  rfl

/-- `copy_thread` leaves the context that the scheduler's model of it says. -/
theorem copyThread_context :
    (copyThread code cloneFlags p fn arg m).loadWords (contextAddr p) 13 =
      (Sched.childContext cloneFlags p fn arg).words code := by
  have hapart : Apart (taskPtRegs p + 264) 8 (contextAddr p) (8 * 13) := by
    rw [taskPtRegs_eq, BitVec.add_assoc]
    exact .offset p (.inr (by decide))
  have hpstate : ∀ m : Memory, (m.store64 (taskPtRegs p + 264) psrModeEl1h).loadWords
      (contextAddr p) 13 = m.loadWords (contextAddr p) 13 := fun m =>
    Memory.loadWords_congr (by decide) fun b hb =>
      Memory.store64_of_not_within m _ fun hb' => hapart b hb' hb
  unfold copyThread Sched.childContext
  simp only
  rw [Memory.loadWords_store64 _ _ _ (by decide) (by decide),
    Memory.loadWords_store64 _ _ _ (by decide) (by decide)]
  split
  · rw [Memory.loadWords_store64 _ _ _ (by decide) (by decide),
      Memory.loadWords_store64 _ _ _ (by decide) (by decide), hpstate,
      Memory.loadWords_clear _ _ (by decide)]
    rfl
  · rw [Memory.loadWords_clear _ _ (by decide)]
    rfl

/-- All its stores are in the page of the child. -/
theorem copyThread_of_not_within (h : ¬ Within p pageSize.toNat b) :
    copyThread code cloneFlags p fn arg m b = m b := by
  have hregs : ¬ Within (taskPtRegs p) 272 b := by
    rw [taskPtRegs_eq]
    exact fun hb => h (hb.sub (by decide) (by decide))
  have hpstate : ¬ Within (taskPtRegs p + 264) 8 b := by
    rw [taskPtRegs_eq, BitVec.add_assoc]
    exact fun hb => h (hb.sub (by decide) (by decide))
  have hcontext : ¬ Within (contextAddr p) (8 * 13) b := fun hb =>
    h (hb.sub (by decide) (by decide))
  have hword : ∀ i, i < 13 → ¬ Within (contextAddr p + BitVec.ofNat 64 (8 * i)) 8 b := by
    intro i hi hb
    refine hcontext (hb.sub ?_ (by decide))
    rw [BitVec.toNat_ofNat, Nat.mod_eq_of_lt (by omega)]
    omega
  unfold copyThread
  simp only
  rw [Memory.store64_of_not_within _ _ (hword 11 (by decide)),
    Memory.store64_of_not_within _ _ (hword 12 (by decide))]
  split
  · rw [Memory.store64_of_not_within _ _ (hword 1 (by decide)),
      Memory.store64_of_not_within _ _ (hword 0 (by decide)),
      Memory.store64_of_not_within _ _ hpstate, Memory.clear_of_not_within _ hcontext,
      Memory.clear_of_not_within _ hregs]
  · rw [Memory.clear_of_not_within _ hcontext, Memory.clear_of_not_within _ hregs]

end CopyThread

def Resting.words (code : CodePtr → U64) (t : U64) : Resting → List U64
  | .forked cloneFlags fn arg => (Sched.childContext cloneFlags t fn arg).words code
  | .left c => context c

structure Kept (code : CodePtr → U64) (Task : U64 → Prop) (c : Cpu)
    (resting : U64 → Option Resting) : Prop where
  current : Task c.spEl0 ∧ resting c.spEl0 = none
  task : ∀ t, resting t ≠ none → Task t
  words : ∀ t rest, resting t = some rest →
    c.mem.loadWords (contextAddr t) 13 = rest.words code t

section Run

variable {code : CodePtr → U64} {Task : U64 → Prop} {c c' : Cpu}
  {resting : U64 → Option Resting}

theorem Kept.work (h : Kept code Task c resting) (hcurrent : c'.spEl0 = c.spEl0)
    (hmem : ∀ t, resting t ≠ none → ∀ a, Within (contextAddr t) (8 * 13) a →
      c'.mem a = c.mem a) : Kept code Task c' resting := by
  refine ⟨hcurrent.symm ▸ h.current, h.task, fun t rest ht => ?_⟩
  rw [← h.words t rest ht]
  exact Memory.loadWords_congr (by decide) (hmem t (by simp [ht]))

theorem Kept.fork (h : Kept code Task c resting) (hp : Task p) (hne : p ≠ c.spEl0)
    (hpage : ∀ t, Task t → t ≠ p → Apart p pageSize.toNat t taskStructSize)
    (cloneFlags fn arg : U64) :
    Kept code Task { c with mem := copyThread code cloneFlags p fn arg c.mem }
      (Function.update resting p (some (.forked cloneFlags fn arg))) := by
  refine ⟨⟨h.current.1, ?_⟩, fun t ht => ?_, fun t rest ht => ?_⟩
  · simp only [Function.update_of_ne hne.symm]
    exact h.current.2
  · by_cases htp : t = p
    · exact htp ▸ hp
    · rw [Function.update_of_ne htp] at ht
      exact h.task t ht
  · by_cases htp : t = p
    · subst htp
      rw [Function.update_self] at ht
      obtain rfl := Option.some.inj ht
      exact copyThread_context code cloneFlags t fn arg c.mem
    · rw [Function.update_of_ne htp] at ht
      have hother := hpage t (h.task t (by simp [ht])) htp
      rw [← h.words t rest ht]
      refine Memory.loadWords_congr (by decide) fun b hb =>
        copyThread_of_not_within code cloneFlags p fn arg c.mem fun hb' => ?_
      exact hother b hb' (hb.sub (by decide) (by decide))

section Switch

variable (hapart : ∀ t t', Task t → Task t' → t ≠ t' →
  Apart t taskStructSize t' taskStructSize)

include hapart

theorem contexts_apart (ht : Task t) (ht' : Task t') (hne : t ≠ t') :
    Apart (contextAddr t) (8 * 13) (contextAddr t') (8 * 13) :=
  (hapart t t' ht ht' hne).sub (by decide) (by decide) (by decide) (by decide)

theorem Kept.switch (h : Kept code Task c resting) (hprev : c.x 0 = c.spEl0)
    (hnext : Task (c.x 1)) :
    Kept code Task (cpuSwitchTo c)
      (Function.update (Function.update resting (c.x 0) (some (.left c))) (c.x 1) none) := by
  have hcurrent : Task (c.x 0) := hprev ▸ h.current.1
  refine ⟨?_, fun t ht => ?_, fun t rest ht => ?_⟩
  · rw [cpuSwitchTo_spEl0]
    exact ⟨hnext, Function.update_self ..⟩
  · by_cases htnext : t = c.x 1
    · exact htnext ▸ hnext
    · rw [Function.update_of_ne htnext] at ht
      by_cases htprev : t = c.x 0
      · exact htprev ▸ hcurrent
      · rw [Function.update_of_ne htprev] at ht
        exact h.task t ht
  · have htnext : t ≠ c.x 1 := by
      rintro rfl
      simp at ht
    rw [Function.update_of_ne htnext] at ht
    rw [cpuSwitchTo_mem]
    by_cases htprev : t = c.x 0
    · subst htprev
      rw [Function.update_self] at ht
      obtain rfl := Option.some.inj ht
      have hwords : (c.mem.storeWords (contextAddr (c.x 0)) (context c)).loadWords
          (contextAddr (c.x 0)) (context c).length = context c :=
        Memory.loadWords_storeWords (by rw [length_context]; decide)
      exact hwords
    · rw [Function.update_of_ne htprev] at ht
      rw [← h.words t rest ht]
      refine Memory.loadWords_storeWords_of_apart (by rw [length_context]; decide)
        (by decide) ?_
      rw [length_context]
      exact contexts_apart hapart hcurrent (h.task t (by simp [ht])) (Ne.symm htprev)

theorem SwitchesRun.kept {n : Switching} (h : SwitchesRun code Task n) :
    Kept code Task n.cpu n.resting := by
  induction h with
  | start c hc => exact ⟨⟨hc, rfl⟩, by simp, by simp⟩
  | step _ hstep ih =>
      cases hstep with
      | work hcurrent hmem => exact ih.work hcurrent hmem
      | fork cloneFlags fn arg hp hnone hne hpage =>
          exact ih.fork hp hne hpage cloneFlags fn arg
      | switch hprev hnext hne => exact ih.switch hapart hprev hnext

/-- What is loaded is what was stored last. -/
theorem Kept.arrive (h : Kept code Task c resting) (hprev : c.x 0 = c.spEl0)
    (hne : c.x 1 ≠ c.x 0) (hrest : resting (c.x 1) = some rest) :
    context (cpuSwitchTo c) = rest.words code (c.x 1) := by
  have hcurrent : Task (c.x 0) := hprev ▸ h.current.1
  rw [cpuSwitchTo_context, cpuSwitchTo_mem, ← h.words _ rest hrest]
  refine Memory.loadWords_storeWords_of_apart (by rw [length_context]; decide)
    (by decide) ?_
  rw [length_context]
  exact contexts_apart hapart hcurrent (h.task _ (by simp [hrest])) (Ne.symm hne)

end Switch

end Run

/-! The switch of the scheduler's model is this one. -/

/-- The contexts of the tasks are in memory. -/
def Stored (code : CodePtr → U64) (addr : TaskPtr → U64) (Task : TaskPtr → Prop) (c : Cpu)
    (s : Sched) : Prop :=
  ∀ t, Task t →
    c.mem.loadWords (contextAddr (addr t)) 13 = (s.task t).cpuContext.words code

theorem cpuSwitchTo_refines {code : CodePtr → U64} {addr : TaskPtr → U64}
    {Task : TaskPtr → Prop} {c : Cpu} {s : Sched} {prev next : TaskPtr}
    (hapart : ∀ t t', Task t → Task t' → t ≠ t' →
      Apart (addr t) taskStructSize (addr t') taskStructSize)
    (h : Stored code addr Task c s)
    (hregs : context c = CpuContext.words code { s.regs with pc := .afterSwitch })
    (hprev : Task prev ∧ c.x 0 = addr prev) (hnext : Task next ∧ c.x 1 = addr next)
    (hne : next ≠ prev) :
    Stored code addr Task (cpuSwitchTo c) (s.cpuSwitchTo prev next) ∧
      context (cpuSwitchTo c) = (s.cpuSwitchTo prev next).regs.words code ∧
      (cpuSwitchTo c).spEl0 = addr (s.cpuSwitchTo prev next).current := by
  have hlength : 8 * (context c).length = 8 * 13 := by rw [length_context]
  have hholds : Stored code addr Task (cpuSwitchTo c) (s.cpuSwitchTo prev next) := by
    intro t ht
    rw [cpuSwitchTo_mem, hprev.2]
    by_cases hself : t = prev
    · subst hself
      have hwords : (c.mem.storeWords (contextAddr (addr t)) (context c)).loadWords
          (contextAddr (addr t)) (context c).length = context c :=
        Memory.loadWords_storeWords (by rw [hlength]; decide)
      refine hwords.trans (hregs.trans ?_)
      simp [Sched.cpuSwitchTo]
    · have hother : (s.cpuSwitchTo prev next).task t = s.task t :=
        Function.update_of_ne hself ..
      rw [hother, ← h t ht]
      refine Memory.loadWords_storeWords_of_apart (by rw [hlength]; decide) (by decide) ?_
      rw [hlength]
      exact (hapart prev t hprev.1 ht (Ne.symm hself)).sub (by decide)
        (by decide) (by decide)
        (by decide)
  refine ⟨hholds, ?_, (cpuSwitchTo_spEl0 c).trans hnext.2⟩
  rw [cpuSwitchTo_context, hnext.2, hholds next hnext.1]
  rfl

/-- A call that keeps the callee-saved registers and returns. -/
def CalleeSaved (f : Cpu → Cpu) : Prop :=
  ∀ c, (∀ i : Fin 31, 19 ≤ i.val → i.val ≤ 29 → (f c).x i = c.x i) ∧ (f c).sp = c.sp ∧
    (f c).pc = c.x 30

theorem retFromFork_calls {scheduleTail : Cpu → Cpu} (h : CalleeSaved scheduleTail)
    (scheduleTailAddr retToUser : U64) {c : Cpu} (hfn : c.x 19 ≠ 0) :
    (retFromFork scheduleTail scheduleTailAddr retToUser c).pc = c.x 19 ∧
      (retFromFork scheduleTail scheduleTailAddr retToUser c).x 0 = c.x 20 := by
  have hcallee := (h (c.bl scheduleTailAddr)).1
  have h19 : (scheduleTail (c.bl scheduleTailAddr)).x 19 = c.x 19 := by
    rw [hcallee 19 (by decide) (by decide)]
    simp
  have h20 : (scheduleTail (c.bl scheduleTailAddr)).x 20 = c.x 20 := by
    rw [hcallee 20 (by decide) (by decide)]
    simp
  unfold retFromFork
  simp only [h19, if_neg hfn]
  constructor
  · simp [Cpu.blr, h19]
  · simp [Cpu.blr, h20]

/-- In every run over tasks that do not overlap, `cpu_switch_to` brings back the task it is
given: one that was left earlier with the registers it had then, and one that has just been
forked at `ret_from_fork`, which calls its function. -/
theorem switchesRun_resumes {code : CodePtr → U64} {Task : U64 → Prop} {n : Switching}
    (hapart : ∀ t t', Task t → Task t' → t ≠ t' → Apart t taskStructSize t' taskStructSize)
    (h : SwitchesRun code Task n) (hprev : n.cpu.x 0 = n.cpu.spEl0)
    (hne : n.cpu.x 1 ≠ n.cpu.x 0) :
    (∀ c, n.resting (n.cpu.x 1) = some (.left c) →
      (∀ i : Fin 31, 19 ≤ i.val → (cpuSwitchTo n.cpu).x i = c.x i) ∧
        (cpuSwitchTo n.cpu).sp = c.sp ∧ (cpuSwitchTo n.cpu).pc = c.x 30 ∧
        (cpuSwitchTo n.cpu).x 0 = n.cpu.spEl0 ∧ (cpuSwitchTo n.cpu).spEl0 = n.cpu.x 1) ∧
    ∀ cloneFlags fn arg, n.resting (n.cpu.x 1) = some (.forked cloneFlags fn arg) →
      cloneFlags &&& pfKthread ≠ 0 → fn ≠ 0 →
      (cpuSwitchTo n.cpu).pc = code .retFromFork ∧
        (cpuSwitchTo n.cpu).sp = n.cpu.x 1 + pageSize - stackFrameSize ∧
        ∀ scheduleTail scheduleTailAddr retToUser, CalleeSaved scheduleTail →
          (retFromFork scheduleTail scheduleTailAddr retToUser (cpuSwitchTo n.cpu)).pc = fn ∧
          (retFromFork scheduleTail scheduleTailAddr retToUser (cpuSwitchTo n.cpu)).x 0 = arg := by
  have hkept := h.kept hapart
  refine ⟨fun c hrest => ?_, fun cloneFlags fn arg hrest hkthread hfn => ?_⟩
  · obtain ⟨hregs, hsp⟩ := context_inj (hkept.arrive hapart hprev hne hrest)
    refine ⟨hregs, hsp, ?_, ?_, cpuSwitchTo_spEl0 n.cpu⟩
    · rw [cpuSwitchTo_pc]
      exact hregs 30 (by decide)
    · rw [cpuSwitchTo_x, hprev]
  · have hcontext := hkept.arrive hapart hprev hne hrest
    simp only [context, Resting.words, CpuContext.words, Sched.childContext,
      if_pos hkthread,
      List.cons.injEq] at hcontext
    obtain ⟨h19, h20, _, _, _, _, _, _, _, _, _, hsp, hpc, _⟩ := hcontext
    refine ⟨?_, hsp, fun scheduleTail scheduleTailAddr retToUser hsaved => ?_⟩
    · rw [cpuSwitchTo_pc, hpc]
    · have hcalls := retFromFork_calls hsaved scheduleTailAddr retToUser
        (c := cpuSwitchTo n.cpu) (by rwa [h19])
      rwa [h19, h20] at hcalls

/-- A task forks another one, switches to it, and is switched to again. -/
theorem switchesRun_resumes_twice :
    ∃ code Task n c, (∀ t t', Task t → Task t' → t ≠ t' →
        Apart t taskStructSize t' taskStructSize) ∧
      SwitchesRun code Task n ∧ n.cpu.x 0 = n.cpu.spEl0 ∧ n.cpu.x 1 ≠ n.cpu.x 0 ∧
      n.resting (n.cpu.x 1) = some (.left c) ∧ (cpuSwitchTo n.cpu).sp = c.sp := by
  let code : CodePtr → U64 := fun _ => 0x80100
  let Task : U64 → Prop := fun t => t = 0x401000 ∨ t = 0x402000
  let c : Cpu := { kernelCpu with
    x := Function.update (Function.update kernelCpu.x 0 0x401000) 1 0x402000
    mem := copyThread code pfKthread 0x402000 0x80000 7 kernelCpu.mem }
  let back : Cpu := { cpuSwitchTo c with
    x := Function.update (Function.update kernelCpu.x 0 0x402000) 1 0x401000 }
  have hpages : Apart (0 + 0x402000) pageSize.toNat (0 + 0x401000) taskStructSize :=
    .offset 0 (.inr (by decide))
  simp only [BitVec.ofNat_eq_ofNat, BitVec.zero_add] at hpages
  have htasks : Apart 0x402000 taskStructSize 0x401000 taskStructSize := fun b hb =>
    hpages b (hb.mono (by decide))
  have hapart : ∀ t t', Task t → Task t' → t ≠ t' →
      Apart t taskStructSize t' taskStructSize := by
    rintro t t' (rfl | rfl) (rfl | rfl) hne
    · exact absurd rfl hne
    · exact htasks.symm
    · exact htasks
    · exact absurd rfl hne
  have hpage : ∀ t, Task t → t ≠ 0x402000 →
    Apart 0x402000 pageSize.toNat t taskStructSize := by
    rintro t (rfl | rfl) hne
    · exact hpages
    · exact absurd rfl hne
  let forked : U64 → Option Resting :=
    Function.update (fun _ => none) 0x402000 (some (.forked pfKthread 0x80000 7))
  let left : U64 → Option Resting :=
    Function.update (Function.update forked 0x401000 (some (.left c))) 0x402000 none
  have hstart : SwitchesRun code Task ⟨kernelCpu, fun _ => none⟩ :=
    .start kernelCpu (Or.inl rfl : Task _)
  have hfork := hstart.step
    (.fork pfKthread 0x80000 7 (.inr rfl : Task 0x402000) rfl (by decide) hpage)
  have hready : SwitchesRun code Task ⟨c, forked⟩ :=
    hfork.step (.work rfl fun _ _ _ _ => rfl)
  have hswitched := hready.step (.switch rfl (.inr rfl) (by decide))
  have hback : SwitchesRun code Task ⟨back, left⟩ :=
    hswitched.step (.work rfl fun _ _ _ _ => rfl)
  have hspEl0 : back.spEl0 = 0x402000 := cpuSwitchTo_spEl0 c
  refine ⟨code, Task, ⟨back, left⟩, c, hapart, hback, hspEl0.symm, by decide, rfl, ?_⟩
  exact ((switchesRun_resumes hapart hback hspEl0.symm (by decide)).1 c rfl).2.1

end YiOS
