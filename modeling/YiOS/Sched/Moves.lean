import YiOS.Sched.Kernel
import YiOS.Sched.Runs

namespace YiOS

open YiOS.Library

/-! Steps of the kernel as a function, to run it. -/

inductive Move where
  | irq
  | tick
  | inner
  | pick (fuel : Nat) (stale : TaskPtr)
  | start
  | call
  | beginFork (args : ForkArgs)
  | fork
  | block (state : TaskState)
  | wake (p : TaskPtr)
  deriving DecidableEq, Repr

namespace Kernel

/-- Where `__schedule` goes on once it has chosen. -/
def arrive (k : Kernel) (caller : Caller) (rest : List Activation) (next : TaskPtr)
    (s : Sched) : Option Kernel :=
  if next = k.sched.current then
    some (k.go s ⟨k.own.activity, .sched caller caller.leaving :: rest⟩)
  else
    match (switchTo s caller next).regs.pc with
    | .retFromFork => some (k.switched s caller rest next ⟨.starting, []⟩)
    | .afterSwitch =>
        match k.control next with
        | ⟨activity, .sched caller' .away :: rest'⟩ =>
            some (k.switched s caller rest next ⟨activity, .sched caller' .account :: rest'⟩)
        | _ => none
    | .raw _ => none

def move (k : Kernel) : Move → Option Kernel
  | .irq =>
      if k.sched.irqMasked = false then
        some (k.go { k.sched with irqMasked := true }
          ⟨k.own.activity, .irq .doIrq :: k.own.stack⟩)
      else
        none
  | .tick =>
      match k.own.stack with
      | .irq .doIrq :: _ => some (k.go k.sched.tickHandlePeriodic k.own)
      | _ => none
  | .inner =>
      match k.own.stack with
      | top :: rest => (top.step k.sched).map fun (top', s) =>
          k.go s ⟨k.own.activity, top' ++ rest⟩
      | [] => none
  | .pick fuel stale =>
      match k.own.stack with
      | .sched caller .pick :: rest =>
          (k.picked fuel stale).bind fun (next, s) => k.arrive caller rest next s
      | _ => none
  | .start =>
      if k.own = ⟨.starting, []⟩ then some (k.go k.sched.scheduleTail ⟨.idle, []⟩) else none
  | .call =>
      if k.own = ⟨.idle, []⟩ then
        some (k.go k.sched.preemptDisable ⟨.idle, [.sched .schedule .debug]⟩)
      else
        none
  | .beginFork args =>
      if k.own = ⟨.idle, []⟩ then some (k.go k.sched ⟨.forking args (.scan 0), []⟩) else none
  | .fork =>
      match k.own with
      | ⟨.forking args point, []⟩ =>
          some ((k.birth point).go (k.sched.forkStep args point).2
            ⟨forkActivity args (k.sched.forkStep args point).1, []⟩)
      | _ => none
  | .block state =>
      if k.own = ⟨.idle, []⟩ ∧ k.sched.current ≠ .initTask then
        some (k.go (k.sched.modify k.sched.current fun t => { t with state := state }) k.own)
      else
        none
  | .wake p =>
      if k.own = ⟨.idle, []⟩ ∧ (k.control p).activity ≠ .absent ∧ p ≠ .initTask then
        some (k.go (k.sched.wakeUpProcess p) k.own)
      else
        none

/-- Moves that are all made in a kernel that meets `ok`. -/
def moves (ok : Kernel → Prop) [DecidablePred ok] : List Move → Kernel → Option Kernel
  | [], k => some k
  | m :: ms, k => if ok k then (k.move m).bind (moves ok ms) else none

theorem arrive_step {k : Kernel} {caller : Caller}
    (hstack : k.own.stack = .sched caller .pick :: rest)
    (hpick : k.picked fuel stale = some (next, s))
    (h : k.arrive caller rest next s = some k') :
    KernelStep k k' := by
  unfold arrive at h
  split at h
  · next hsame =>
    obtain rfl := Option.some.inj h
    exact .same hstack hpick hsame
  · next hne =>
    split at h
    · next hpc =>
      obtain rfl := Option.some.inj h
      exact .first hstack hpick hne hpc
    · next hpc =>
      split at h
      · next haway =>
        obtain rfl := Option.some.inj h
        exact .resumed hstack hpick hne hpc haway
      · simp at h
    · simp at h

theorem move_step {k : Kernel} {m : Move} (h : k.move m = some k') : KernelStep k k' := by
  cases m with
  | irq =>
      simp only [move] at h
      split at h
      · next hmasked =>
        obtain rfl := Option.some.inj h
        exact .irq hmasked
      · simp at h
  | tick =>
      simp only [move] at h
      split at h
      · next hstack =>
        obtain rfl := Option.some.inj h
        exact .tick hstack
      · simp at h
  | inner =>
      simp only [move] at h
      split at h
      · next hstack =>
        obtain ⟨⟨top', s⟩, hstep, rfl⟩ := Option.map_eq_some_iff.mp h
        exact .inner hstack hstep
      · simp at h
  | pick fuel stale =>
      simp only [move] at h
      split at h
      · next hstack =>
        obtain ⟨⟨next, s⟩, hpick, harrive⟩ := Option.bind_eq_some_iff.mp h
        exact arrive_step hstack hpick harrive
      · simp at h
  | start =>
      simp only [move] at h
      split at h
      · next hown =>
        obtain rfl := Option.some.inj h
        exact .start hown
      · simp at h
  | call =>
      simp only [move] at h
      split at h
      · next hown =>
        obtain rfl := Option.some.inj h
        exact .call hown
      · simp at h
  | beginFork args =>
      simp only [move] at h
      split at h
      · next hown =>
        obtain rfl := Option.some.inj h
        exact .beginFork args hown
      · simp at h
  | fork =>
      simp only [move] at h
      split at h
      · next hown =>
        obtain rfl := Option.some.inj h
        exact .fork hown rfl
      · simp at h
  | block state =>
      simp only [move] at h
      split at h
      · next hown =>
        obtain rfl := Option.some.inj h
        exact .block state hown.1 hown.2
      · simp at h
  | wake p =>
      simp only [move] at h
      split at h
      · next hown =>
        obtain rfl := Option.some.inj h
        exact .wake hown.1 hown.2.1 hown.2.2
      · simp at h

end Kernel

namespace Kernel

/-- What `Guarded` asks of the stack and of a fork, each evaluated. -/
def guarded (k : Kernel) : Bool :=
  (match k.own.stack with
    | .sched _ .pick :: _ => decide ((k.sched.retire.list .rqHead).next ≠ .rqHead)
    | _ => true) &&
  match k.own with
    | ⟨.forking _ (.claim i), []⟩ => decide (k.sched.memMap i = 0)
    | _ => true

theorem guarded_iff (k : Kernel) : k.guarded = true ↔ k.Guarded := by
  rw [guarded, Bool.and_eq_true]
  constructor
  · rintro ⟨hpick, hclaim⟩
    refine ⟨fun _ _ heq => ?_, fun _ _ heq => ?_⟩
    · simpa [heq] using hpick
    · simpa [heq] using hclaim
  · rintro ⟨hpick, hclaim⟩
    constructor
    · split
      · next heq => exact decide_eq_true (hpick _ _ heq)
      · rfl
    · split
      · next heq => exact decide_eq_true (hclaim _ _ heq)
      · rfl

instance decidableGuarded (k : Kernel) : Decidable k.Guarded :=
  decidable_of_iff _ k.guarded_iff

end Kernel

theorem KernelRun.moves {ok : Kernel → Prop} [DecidablePred ok] {k : Kernel}
    (h : KernelRun ok k) : ∀ ms, k.moves ok ms = some k' → KernelRun ok k' := by
  intro ms
  induction ms generalizing k with
  | nil =>
      intro hmoves
      exact Option.some.inj hmoves ▸ h
  | cons m ms ih =>
      intro hmoves
      rw [Kernel.moves] at hmoves
      split at hmoves
      · next hok =>
        obtain ⟨middle, hmove, hrest⟩ := Option.bind_eq_some_iff.mp hmoves
        exact ih (h.step hok (Kernel.move_step hmove)) hrest
      · simp at hmoves

namespace Move

def interrupt : List Move := [.irq, .inner, .inner, .inner]

/-- Interrupted on the way. -/
def schedule : List Move := .call :: interrupt ++ [.inner, .inner, .pick 9 .initTask]

def doFork (n : Nat) : List Move :=
  .beginFork ⟨pfKthread, 0x80000, 0⟩ :: List.replicate n .fork

/-- Two threads.  The first is interrupted and blocks; the second wakes it and blocks, and
the first goes on behind its call. -/
def handover : List Move :=
  doFork 21 ++ doFork 23 ++ schedule ++ .start :: interrupt ++ .block .interruptible ::
    schedule ++ .start :: .wake firstTask :: .block .interruptible :: schedule ++
      [.inner, .inner, .inner]

end Move

end YiOS
