import YiOS.Sched.ForkSteps
import YiOS.Sched.Wake

namespace YiOS

open YiOS.Library

/-! Two forks, one preempted in the middle and the other run to completion meanwhile. -/

namespace Sched

/-- What the forks of different tasks share is the same.  A preemption changes the counts,
the contexts, `current` and more, but none of these. -/
structure Undisturbed (s s' : Sched) : Prop where
  memMap : s'.memMap = s.memMap
  gTask : s'.gTask = s.gTask
  links : s'.links = s.links
  list : s'.list = s.list
  nrRunning : s'.nrRunning = s.nrRunning

/-- One task comes to `point` of its `do_fork` and is preempted, another one runs a whole
`do_fork`, and the first goes on to the end: the pages and the results of both. -/
inductive ForkRace (s : Sched) (point : ForkPoint) : U64 × Int → U64 × Int → Sched → Prop
  | intro {before during middle after out : Sched} :
      ForkReaches args (.scan 0, s) (point, before) → Undisturbed before during →
      ForkReaches args' (.scan 0, during) (.done page' result', middle) →
      Undisturbed middle after →
      ForkReaches args (point, after) (.done page result, out) →
      ForkRace s point (page, result) (page', result') out

/-- `x` is met on a walk that ends. -/
def OnWalk {ν : Type} [DecidableEq ν] (next : ν → ν) (head x : ν) : Prop :=
  ∃ fuel xs, trail next head fuel = some xs ∧ x ∈ xs

/-- A fork has returned its pid, and its task is everywhere it belongs. -/
structure Placed (s : Sched) (fork : U64 × Int) : Prop where
  gTask : ∃ pid : Fin nrTask, fork.2 = pid.val ∧ s.gTask pid = some (.ofPage fork.1)
  next : OnWalk (fun t => (s.links t).next) .initTask (.ofPage fork.1)
  prev : OnWalk (fun t => (s.links t).prev) .initTask (.ofPage fork.1)
  queueNext : OnWalk (fun x => (s.list x).next) .rqHead (.runList (.ofPage fork.1))
  queuePrev : OnWalk (fun x => (s.list x).prev) .rqHead (.runList (.ofPage fork.1))

structure BothForked (s : Sched) (first second : U64 × Int) : Prop where
  pids : first.2 ≠ second.2
  pages : first.1 ≠ second.1
  first : s.Placed first
  second : s.Placed second
  nrRunning : ∃ fuel queue, trail (fun x => (s.list x).next) .rqHead fuel = some queue ∧
    s.nrRunning.toNat = queue.length

end Sched

/-- Between a test and the store that acts on it: of `mem_map`, of `g_task`, of
`init_task.prev_task` and of `head->next`. -/
def ForkStage.Exposed : ForkStage → Bool
  | .copyThread | .fields | .count | .halve | .clear | .gTask => true
  | .lastTask | .initTask => true
  | .nextPrev _ | .newNext _ | .newPrev _ | .headNext _ => true
  | _ => false

def ForkStage.Searched : ForkStage → Bool
  | .copyThread | .fields | .count | .halve | .clear | .gTask => true
  | _ => false

def ForkPoint.Exposed : ForkPoint → Bool
  | .claim _ => true
  | .store _ _ stage => stage.Exposed
  | _ => false

namespace ForkStage

/-! What a fork that stands at a stage has stored so far. -/

def slots (gTask : Fin nrTask → Option TaskPtr) (pid : Fin nrTask) (p : TaskPtr) :
    ForkStage → Fin nrTask → Option TaskPtr
  | .copyThread | .fields | .count | .halve | .clear | .gTask => gTask
  | _ => Function.update gTask pid (some p)

def ring (links : Heap TaskPtr) (p : TaskPtr) : ForkStage → Heap TaskPtr
  | .copyThread | .fields | .count | .halve | .clear | .gTask | .nextTask => links
  | .prevTask => links.setNext p .initTask
  | .lastTask =>
      let links := links.setNext p .initTask
      links.setPrev p (links .initTask).prev
  | .initTask =>
      let links := links.setNext p .initTask
      let links := links.setPrev p (links .initTask).prev
      links.setNext (links .initTask).prev p
  | _ => setLinks p links

def queue (list : Heap ListPtr) (node : ListPtr) : ForkStage → Heap ListPtr
  | .newNext next => list.setPrev next node
  | .newPrev next => (list.setPrev next node).setNext node next
  | .headNext next => ((list.setPrev next node).setNext node next).setPrev node .rqHead
  | .nrRunning => listAdd list node .rqHead
  | _ => list

/-- `head->next` as it was loaded. -/
def Loaded (list : Heap ListPtr) : ForkStage → Prop
  | .nextPrev next | .newNext next | .newPrev next | .headNext next =>
      next = (list .rqHead).next
  | _ => True

/-! What it has still to store. -/

def slotsRest (gTask : Fin nrTask → Option TaskPtr) (pid : Fin nrTask) (p : TaskPtr) :
    ForkStage → Fin nrTask → Option TaskPtr
  | .copyThread | .fields | .count | .halve | .clear | .gTask =>
      Function.update gTask pid (some p)
  | _ => gTask

def ringRest (links : Heap TaskPtr) (p : TaskPtr) : ForkStage → Heap TaskPtr
  | .copyThread | .fields | .count | .halve | .clear | .gTask | .nextTask =>
      setLinks p links
  | .prevTask =>
      let links := links.setPrev p (links .initTask).prev
      let links := links.setNext (links .initTask).prev p
      links.setPrev .initTask p
  | .lastTask => (links.setNext (links .initTask).prev p).setPrev .initTask p
  | .initTask => links.setPrev .initTask p
  | _ => links

def queueRest (list : Heap ListPtr) (node : ListPtr) : ForkStage → Heap ListPtr
  | .nextPrev next => __listAdd list node .rqHead next
  | .newNext next => ((list.setNext node next).setPrev node .rqHead).setNext .rqHead node
  | .newPrev _ => (list.setPrev node .rqHead).setNext .rqHead node
  | .headNext _ => list.setNext .rqHead node
  | .nrRunning => list
  | _ => listAdd list node .rqHead

section Searched

variable {stage : ForkStage} {table : Fin nrTask → Option TaskPtr} {pid : Fin nrTask}
  {p : TaskPtr}

theorem slots_of_searched (h : stage.Searched = true) :
    stage.slots table pid p = table := by
  cases stage <;> simp_all [Searched, slots]

theorem slots_of_not_searched (h : stage.Searched = false) :
    stage.slots table pid p = Function.update table pid (some p) := by
  cases stage <;> simp_all [Searched, slots]

theorem slotsRest_of_not_searched (h : stage.Searched = false) :
    stage.slotsRest table pid p = table := by
  cases stage <;> simp_all [Searched, slotsRest]

theorem exposed_of_searched (h : stage.Searched = true) :
    stage.Exposed = true := by
  cases stage <;> simp_all [Searched, Exposed]

end Searched

end ForkStage

namespace Sched

/-- A slot that the scans find. -/
structure Lowest {n : Nat} (Free : Fin n → Prop) (k : Fin n) : Prop where
  free : Free k
  least : ∀ j < k, ¬ Free j

/-- What a fork has done by the time it stands at a place. -/
inductive ForkProgress (s : Sched) : ForkPoint → Sched → Prop
  | scan : (∀ j : Fin nrPages, j.val < i → s.memMap j ≠ 0) → i ≤ nrPages →
      ForkProgress s (.scan i) s
  | claim : Lowest (fun j => s.memMap j = 0) k → ForkProgress s (.claim k) s
  | find : Lowest (fun j => s.memMap j = 0) k →
      (∀ j : Fin nrTask, j.val < i → s.gTask j ≠ none) → i ≤ nrTask →
      ForkProgress s (.find (pageAddr k) i)
        { s with memMap := Function.update s.memMap k 1 }
  | store {s' : Sched} : Lowest (fun j => s.memMap j = 0) k →
      Lowest (fun j => s.gTask j = none) pid →
      s'.memMap = Function.update s.memMap k 1 →
      s'.gTask = stage.slots s.gTask pid (.ofPage (pageAddr k)) →
      s'.links = stage.ring s.links (.ofPage (pageAddr k)) →
      s'.list = stage.queue s.list (.runList (.ofPage (pageAddr k))) →
      stage.Loaded s.list → s'.nrRunning = s.nrRunning →
      ForkProgress s (.store (pageAddr k) pid stage) s'
  | noPage : (∀ j, s.memMap j ≠ 0) → ForkProgress s (.done 0 (-1)) s
  | noSlot : Lowest (fun j => s.memMap j = 0) k → (∀ j, s.gTask j ≠ none) →
      ForkProgress s (.done (pageAddr k) (-1))
        { s with memMap := Function.update s.memMap k 1 }
  | forked {s' : Sched} : Lowest (fun j => s.memMap j = 0) k →
      Lowest (fun j => s.gTask j = none) pid →
      s'.memMap = Function.update s.memMap k 1 →
      s'.gTask = Function.update s.gTask pid (some (.ofPage (pageAddr k))) →
      s'.links = setLinks (.ofPage (pageAddr k)) s.links →
      s'.list = listAdd s.list (.runList (.ofPage (pageAddr k))) .rqHead →
      s'.nrRunning = s.nrRunning + 1 →
      ForkProgress s (.done (pageAddr k) pid.val) s'

theorem ForkProgress.step {s s' : Sched} (h : ForkProgress s point s') (args : ForkArgs) :
    ForkProgress s (s'.forkStep args point).1 (s'.forkStep args point).2 := by
  cases h with
  | @scan i hbelow hi =>
      simp only [forkStep]
      split
      · next hlt =>
        split
        · next hfree => exact .claim ⟨hfree, fun j hj => hbelow j hj⟩
        · next hused =>
          refine .scan (fun j hj => ?_) hlt
          rcases Nat.lt_succ_iff_lt_or_eq.mp hj with hj | rfl
          · exact hbelow j hj
          · exact hused
      · next hge => exact .noPage fun j => hbelow j (by omega)
  | claim hpage => exact .find hpage (fun j hj => absurd hj (by omega)) (Nat.zero_le _)
  | @find k i hpage hbelow hi =>
      simp only [forkStep]
      split
      · next hlt =>
        split
        · next hfree =>
          exact .store hpage ⟨hfree, fun j hj => hbelow j hj⟩ rfl rfl rfl rfl trivial rfl
        · next t ht =>
          refine .find hpage (fun j hj => ?_) hlt
          rcases Nat.lt_succ_iff_lt_or_eq.mp hj with hj | rfl
          · exact hbelow j hj
          · exact fun hnone => by simp [hnone] at ht
      · next hge => exact .noSlot hpage fun j => hbelow j (by omega)
  | @store k pid stage _ hpage hslot hmem hslots hlinks hlist hloaded hnr =>
      cases stage with
      | gTask =>
          refine .store hpage hslot hmem ?_ hlinks hlist trivial hnr
          exact congrArg (Function.update · pid _) hslots
      | nextTask | prevTask | lastTask | initTask =>
          refine .store hpage hslot hmem hslots ?_ hlist trivial hnr
          simp only [forkStep, forkStore, hlinks]
          rfl
      | load =>
          refine .store hpage hslot hmem hslots hlinks hlist ?_ hnr
          exact congrArg (fun list : Heap ListPtr => (list .rqHead).next) hlist
      | nextPrev next | newNext next | newPrev next =>
          refine .store hpage hslot hmem hslots hlinks ?_ hloaded hnr
          simp only [forkStep, forkStore, hlist]
          rfl
      | headNext next =>
          obtain rfl : next = (s.list .rqHead).next := hloaded
          refine .store hpage hslot hmem hslots hlinks ?_ trivial hnr
          simp only [forkStep, forkStore, hlist]
          rfl
      | nrRunning =>
          exact .forked hpage hslot hmem hslots hlinks hlist (congrArg (· + 1) hnr)
      | _ => exact .store hpage hslot hmem hslots hlinks hlist trivial hnr
  | noPage hused => exact .noPage hused
  | noSlot hpage hused => exact .noSlot hpage hused
  | forked hpage hslot hmem hslots hlinks hlist hnr =>
      exact .forked hpage hslot hmem hslots hlinks hlist hnr

theorem ForkReaches.progress {s s' : Sched}
    (h : ForkReaches args (.scan 0, s) (point, s')) : ForkProgress s point s' := by
  have hsteps : ∀ n (place : ForkPoint × Sched), ForkProgress s place.1 place.2 →
      ForkProgress s (forkSteps args n place).1 (forkSteps args n place).2 := by
    intro n
    induction n with
    | zero => exact fun place hplace => hplace
    | succ n ih => exact fun place hplace => ih _ (hplace.step args)
  obtain ⟨n, hn⟩ := h
  have hdone := hsteps n (.scan 0, s) (.scan (fun j hj => absurd hj (by omega)) (Nat.zero_le _))
  rw [hn] at hdone
  exact hdone

/-- What a preempted fork does from its stage on. -/
structure StoreRest (s : Sched) (page : U64) (pid : Fin nrTask) (stage : ForkStage)
    (out : Sched) : Prop where
  memMap : out.memMap = s.memMap
  gTask : out.gTask = stage.slotsRest s.gTask pid (.ofPage page)
  links : out.links = stage.ringRest s.links (.ofPage page)
  list : out.list = stage.queueRest s.list (.runList (.ofPage page))
  nrRunning : out.nrRunning = s.nrRunning + 1

theorem storeRest_reaches (args : ForkArgs) (s : Sched) (page : U64) (pid : Fin nrTask)
    (stage : ForkStage) : ∃ out,
      ForkReaches args (.store page pid stage, s) (.done page pid.val, out) ∧
      StoreRest s page pid stage out := by
  cases stage with
  | copyThread => exact ⟨_, ⟨17, rfl⟩, rfl, rfl, rfl, rfl, rfl⟩
  | fields => exact ⟨_, ⟨16, rfl⟩, rfl, rfl, rfl, rfl, rfl⟩
  | count => exact ⟨_, ⟨15, rfl⟩, rfl, rfl, rfl, rfl, rfl⟩
  | halve => exact ⟨_, ⟨14, rfl⟩, rfl, rfl, rfl, rfl, rfl⟩
  | clear => exact ⟨_, ⟨13, rfl⟩, rfl, rfl, rfl, rfl, rfl⟩
  | gTask => exact ⟨_, ⟨12, rfl⟩, rfl, rfl, rfl, rfl, rfl⟩
  | nextTask => exact ⟨_, ⟨11, rfl⟩, rfl, rfl, rfl, rfl, rfl⟩
  | prevTask => exact ⟨_, ⟨10, rfl⟩, rfl, rfl, rfl, rfl, rfl⟩
  | lastTask => exact ⟨_, ⟨9, rfl⟩, rfl, rfl, rfl, rfl, rfl⟩
  | initTask => exact ⟨_, ⟨8, rfl⟩, rfl, rfl, rfl, rfl, rfl⟩
  | wake => exact ⟨_, ⟨7, rfl⟩, rfl, rfl, rfl, rfl, rfl⟩
  | load => exact ⟨_, ⟨6, rfl⟩, rfl, rfl, rfl, rfl, rfl⟩
  | nextPrev => exact ⟨_, ⟨5, rfl⟩, rfl, rfl, rfl, rfl, rfl⟩
  | newNext => exact ⟨_, ⟨4, rfl⟩, rfl, rfl, rfl, rfl, rfl⟩
  | newPrev => exact ⟨_, ⟨3, rfl⟩, rfl, rfl, rfl, rfl, rfl⟩
  | headNext => exact ⟨_, ⟨2, rfl⟩, rfl, rfl, rfl, rfl, rfl⟩
  | nrRunning => exact ⟨_, ⟨1, rfl⟩, rfl, rfl, rfl, rfl, rfl⟩

end Sched

/-! The ring and the queue after both forks. -/

section Heaps

variable {links : Heap TaskPtr} {list : Heap ListPtr} {ring queue : List TaskPtr}
  {p q : TaskPtr}

theorem setLinks_cycle (h : Cycle links .initTask ring) (hp : p ∉ .initTask :: ring) :
    Cycle (setLinks p links) .initTask (ring ++ [p]) :=
  h.pushBack hp (setLinks_inserted links (fun heq => hp (by simp [heq])) (h.ne_prev hp))

theorem listAdd_cycle (h : Cycle list .rqHead (queue.map .runList)) (hp : p ∉ queue) :
    Cycle (listAdd list (.runList p) .rqHead) .rqHead ((p :: queue).map .runList) :=
  h.pushFront (Sched.Coherent.runList_notMem hp)
    (listAdd_inserted list (by simp) (h.ne_next (Sched.Coherent.runList_notMem hp)))

theorem notMem_snoc (hp : p ∉ .initTask :: ring) (hne : p ≠ q) :
    p ∉ .initTask :: (ring ++ [q]) := by
  simp only [List.mem_cons, List.mem_append, not_or] at hp ⊢
  exact ⟨hp.1, hp.2, hne, by simp⟩

theorem ringRest_inserted (hnext : (links p).next = .initTask) (hinit : p ≠ .initTask)
    (hlast : p ≠ (links .initTask).prev) :
    Inserted links (ForkStage.prevTask.ringRest links p) p
      (links .initTask).prev .initTask where
  before := by
    constructor <;>
      simp [ForkStage.ringRest, Heap.setNext_next, Heap.setPrev_prev, hinit, hinit.symm]
  after := by
    constructor
    · simp [ForkStage.ringRest, Heap.setNext_next, Heap.setPrev_prev, hinit.symm,
        hlast, hnext]
    · simp [ForkStage.ringRest, Heap.setPrev_prev]
  next := by
    intro c hc hp
    simp [ForkStage.ringRest, Heap.setNext_next, Heap.setPrev_prev, hinit.symm, hc]
  prev := by
    intro d hd hp
    simp [ForkStage.ringRest, Heap.setPrev_prev, hd, hp]

/-- A store to the links of a task outside the ring. -/
theorem setNext_cycle (h : Cycle links .initTask ring) (hp : p ∉ .initTask :: ring)
    (target : TaskPtr) : Cycle (links.setNext p target) .initTask ring := by
  refine h.frame (fun c hc => ?_) fun c _ => links.setNext_prev p target c
  rw [Heap.setNext_next, if_neg fun heq : c = p => hp (heq ▸ hc)]

/-- Preempted outside the last two stores to the ring, a fork still gets both tasks in. -/
theorem ringRest_cycle (h : Cycle links .initTask ring) (hp : p ∉ .initTask :: ring)
    (hq : q ∉ .initTask :: ring) (hne : p ≠ q) (stage : ForkStage)
    (hlast : stage ≠ .lastTask) (hinit : stage ≠ .initTask) :
    ∃ ring', Cycle (stage.ringRest (setLinks q (stage.ring links p)) p) .initTask ring' ∧
      p ∈ ring' ∧ q ∈ ring' := by
  cases stage with
  | copyThread | fields | count | halve | clear | gTask | nextTask =>
      refine ⟨ring ++ [q] ++ [p], ?_, by simp, by simp⟩
      exact setLinks_cycle (setLinks_cycle h hq) (notMem_snoc hp hne)
  | prevTask =>
      have hset := setNext_cycle h hp .initTask
      have hq' : q ≠ .initTask := fun heq => hq (by simp [heq])
      have hinserted := setLinks_inserted _ hq' (hset.ne_prev hq)
      have hcycle := setLinks_cycle hset hq
      have hp' := notMem_snoc hp hne
      have hnext : (setLinks q (links.setNext p .initTask) p).next = .initTask := by
        rw [hinserted.next p (hset.ne_prev hp) hne, Heap.setNext_next, if_pos rfl]
      refine ⟨ring ++ [q] ++ [p], ?_, by simp, by simp⟩
      exact hcycle.pushBack hp' (ringRest_inserted hnext (fun heq => hp (by simp [heq]))
        (hcycle.ne_prev hp'))
  | lastTask => exact absurd rfl hlast
  | initTask => exact absurd rfl hinit
  | _ =>
      refine ⟨ring ++ [p] ++ [q], ?_, by simp, by simp⟩
      exact setLinks_cycle (setLinks_cycle h hp) (notMem_snoc hq hne.symm)

/-- Preempted before the store to the last task, it leaves the other task out of the walk
backwards. -/
theorem ringRest_lastTask (h : Cycle links .initTask ring) (hp : p ∉ .initTask :: ring)
    (hq : q ∉ .initTask :: ring) (hne : p ≠ q) :
    trail (fun t => (ForkStage.lastTask.ringRest
        (setLinks q (ForkStage.lastTask.ring links p)) p t).prev) .initTask
      (ring.length + 2) = some (ring ++ [p]).reverse := by
  have hcycle := (setLinks_cycle h hp).swap
  refine hcycle.trail_of_next (fun c hc => ?_) (by simp)
  have hinit : p ≠ .initTask := fun heq => hp (by simp [heq])
  have hq' : q ≠ .initTask := fun heq => hq (by simp [heq])
  have hcq : c ≠ q := by
    rintro rfl
    simp only [List.reverse_append, List.mem_cons, List.mem_append,
      List.mem_reverse] at hc hq
    tauto
  by_cases hci : c = .initTask
  · simp [hci, ForkStage.ringRest, ForkStage.ring, setLinks, Heap.setPrev_prev]
  · by_cases hcp : c = p
    · simp [hcp, ForkStage.ringRest, ForkStage.ring, setLinks,
        Heap.setPrev_prev, hinit, hne]
    · simp [hci, hcp, hcq, ForkStage.ringRest, ForkStage.ring, setLinks, Heap.setPrev_prev]

/-- Preempted before the store to `init_task`, it is left out itself. -/
theorem ringRest_initTask (h : Cycle links .initTask ring) (hp : p ∉ .initTask :: ring)
    (hq : q ∉ .initTask :: ring) (hne : p ≠ q) :
    trail (fun t => (ForkStage.initTask.ringRest
        (setLinks q (ForkStage.initTask.ring links p)) p t).next) .initTask
      (ring.length + 2) = some (ring ++ [q]) := by
  have hcycle := setLinks_cycle h hq
  refine hcycle.trail_of_next (fun c hc => ?_) (by simp)
  have hinit : p ≠ .initTask := fun heq => hp (by simp [heq])
  have hcp : c ≠ p := fun heq => notMem_snoc hp hne (heq ▸ hc)
  have hq' : q ≠ .initTask := fun heq => hq (by simp [heq])
  simp only [ForkStage.ringRest, ForkStage.ring, setLinks, Heap.setPrev_next,
    Heap.setNext_next,
    Heap.setNext_prev, Heap.setPrev_prev, hinit.symm, hcp, if_false]
  by_cases hclast : c = (links .initTask).prev
  · simp [hclast]
  · simp [hclast]

/-- Preempted outside the stores of `list_add`, a fork still gets both tasks in. -/
theorem queueRest_cycle (h : Cycle list .rqHead (queue.map .runList)) (hp : p ∉ queue)
    (hq : q ∉ queue) (hne : p ≠ q) (stage : ForkStage)
    (hsafe : ∀ next, stage ≠ .nextPrev next ∧ stage ≠ .newNext next ∧
      stage ≠ .newPrev next ∧ stage ≠ .headNext next) :
    ∃ queue' : List TaskPtr,
      Cycle (stage.queueRest (listAdd (stage.queue list (.runList p)) (.runList q) .rqHead)
        (.runList p)) .rqHead (queue'.map .runList) ∧
      p ∈ queue' ∧ q ∈ queue' ∧ queue'.length = queue.length + 2 := by
  cases stage with
  | nextPrev next => exact absurd rfl (hsafe next).1
  | newNext next => exact absurd rfl (hsafe next).2.1
  | newPrev next => exact absurd rfl (hsafe next).2.2.1
  | headNext next => exact absurd rfl (hsafe next).2.2.2
  | nrRunning =>
      refine ⟨q :: p :: queue, ?_, by simp, by simp, by simp⟩
      exact listAdd_cycle (listAdd_cycle h hp) (by simp [hq, hne.symm])
  | _ =>
      refine ⟨p :: q :: queue, ?_, by simp, by simp, by simp⟩
      exact listAdd_cycle (listAdd_cycle h hq) (by simp [hp, hne])

/-- Preempted between the load of `head->next` and the store to it, it takes the other task
off the queue. -/
theorem queueRest_exposed (h : Cycle list .rqHead (queue.map .runList)) (hp : p ∉ queue)
    (hq : q ∉ queue) (hne : p ≠ q) (stage : ForkStage) (hloaded : stage.Loaded list)
    (hexposed : ∃ next, stage = .nextPrev next ∨ stage = .newNext next ∨
      stage = .newPrev next ∨ stage = .headNext next) :
    trail (fun x => (stage.queueRest (listAdd (stage.queue list (.runList p)) (.runList q)
        .rqHead) (.runList p) x).next) .rqHead (queue.length + 2) =
      some ((p :: queue).map .runList) := by
  refine (listAdd_cycle h hp).trail_of_next (fun c hc => ?_) (by simp)
  have hcq : c ≠ .runList q := by
    rintro rfl
    simp only [List.mem_cons, List.mem_map, ListPtr.runList.injEq, reduceCtorEq,
      exists_eq_right, false_or] at hc
    exact hc.elim (fun heq => hne heq.symm) hq
  have hpq : ListPtr.runList p ≠ .runList q := by simpa using hne
  obtain ⟨next, rfl | rfl | rfl | rfl⟩ := hexposed <;>
    obtain rfl : next = (list .rqHead).next := hloaded <;>
    by_cases hchead : c = .rqHead <;>
    by_cases hcp : c = .runList p <;>
    simp_all [ForkStage.queueRest, ForkStage.queue, listAdd, __listAdd, Heap.setNext_next]

end Heaps

namespace Sched

/-- Both forks have taken a page and a slot of their own; the first was preempted at
`stage`. -/
structure Merged (s : Sched) (stage : ForkStage) (k k' : Fin nrPages)
    (pid pid' : Fin nrTask)
    (out : Sched) : Prop where
  page : s.memMap k = 0
  page' : s.memMap k' = 0
  pages : k ≠ k'
  slot : s.gTask pid = none
  slot' : s.gTask pid' = none
  pids : pid ≠ pid'
  gTask : out.gTask pid = some (.ofPage (pageAddr k))
  gTask' : out.gTask pid' = some (.ofPage (pageAddr k'))
  links : out.links = stage.ringRest
    (setLinks (.ofPage (pageAddr k')) (stage.ring s.links (.ofPage (pageAddr k))))
    (.ofPage (pageAddr k))
  list : out.list = stage.queueRest
    (listAdd (stage.queue s.list (.runList (.ofPage (pageAddr k))))
      (.runList (.ofPage (pageAddr k'))) .rqHead) (.runList (.ofPage (pageAddr k)))
  loaded : stage.Loaded s.list
  nrRunning : out.nrRunning = s.nrRunning + 1 + 1

namespace Merged

variable {s out : Sched} {stage : ForkStage} {k k' : Fin nrPages} {pid pid' : Fin nrTask}
  {pending : Bool} {queue ring : List TaskPtr}

theorem pages_ne (h : Merged s stage k k' pid pid' out) : pageAddr k ≠ pageAddr k' :=
  fun heq => h.pages (pageAddr_injective heq)

theorem tasks_ne (h : Merged s stage k k' pid pid' out) :
    TaskPtr.ofPage (pageAddr k) ≠ .ofPage (pageAddr k') := by
  simpa using h.pages_ne

theorem bothForked (h : Merged s stage k k' pid pid' out)
    (hc : Coherent s pending queue ring) (hlast : stage ≠ .lastTask)
    (hinit : stage ≠ .initTask)
    (hsafe : ∀ next, stage ≠ .nextPrev next ∧ stage ≠ .newNext next ∧
      stage ≠ .newPrev next ∧ stage ≠ .headNext next) :
    BothForked out (pageAddr k, pid.val) (pageAddr k', pid'.val) := by
  have hp := hc.page_notMem h.page
  have hq := hc.page_notMem h.page'
  have hqueue : ∀ t, t ∉ .initTask :: ring → t ∉ queue := fun t ht hin =>
    ht (List.mem_cons_of_mem _ (hc.mem_ring hin))
  obtain ⟨ring', hring, hpring, hqring⟩ :=
    ringRest_cycle hc.taskRing hp hq h.tasks_ne stage hlast hinit
  obtain ⟨queue', hlist, hpqueue, hqqueue, hlength⟩ :=
    queueRest_cycle hc.runQueue (hqueue _ hp) (hqueue _ hq) h.tasks_ne stage hsafe
  rw [← h.links] at hring
  rw [← h.list] at hlist
  have hnext : trail (fun x => (out.list x).next) .rqHead (queue'.length + 1) =
      some (queue'.map .runList) := hlist.trail_next (by simp)
  have hplaced : ∀ (i : Fin nrPages) (slot : Fin nrTask),
      out.gTask slot = some (.ofPage (pageAddr i)) → .ofPage (pageAddr i) ∈ ring' →
      .ofPage (pageAddr i) ∈ queue' → out.Placed (pageAddr i, slot.val) := by
    intro i slot hslot hin hinQueue
    refine ⟨⟨slot, rfl, hslot⟩, ⟨_, _, hring.trail_next (Nat.lt_succ_self _), hin⟩,
      ⟨_, _, hring.trail_prev (Nat.lt_succ_self _), List.mem_reverse.mpr hin⟩,
      ⟨_, _, hnext, List.mem_map_of_mem hinQueue⟩,
      ⟨queue'.length + 1, _, hlist.trail_prev (by simp), ?_⟩⟩
    exact List.mem_reverse.mpr (List.mem_map_of_mem hinQueue)
  refine ⟨?_, h.pages_ne, hplaced k pid h.gTask hpring hpqueue,
    hplaced k' pid' h.gTask' hqring hqqueue, _, _, hnext, ?_⟩
  · have hpids : pid.val ≠ pid'.val := fun heq => h.pids (Fin.ext heq)
    simp only
    omega
  · have hbound := hc.ring_length
    have hle := hc.queue_length
    simp only [nrTask] at hbound
    rw [h.nrRunning, hc.nrRunning, List.length_map, hlength, BitVec.toNat_add,
      BitVec.toNat_add, BitVec.toNat_ofNat]
    simp
    omega

/-- A walk along changed links does not meet a task that is not on it. -/
theorem not_onWalk {ν : Type} [DecidableEq ν] {next : ν → ν} {head x : ν} {xs : List ν}
    (h : trail next head fuel = some xs) (hx : x ∉ xs) : ¬ OnWalk next head x := by
  rintro ⟨fuel', ys, hwalk, hin⟩
  have hlong := forEach_mono h (Nat.le_add_right fuel fuel')
  rw [forEach_mono hwalk (Nat.le_add_left fuel' fuel)] at hlong
  exact hx (Option.some.inj hlong ▸ hin)

theorem not_bothForked_lastTask (h : Merged s .lastTask k k' pid pid' out)
    (hc : Coherent s pending queue ring) :
    ¬ BothForked out (pageAddr k, pid.val) (pageAddr k', pid'.val) := by
  intro hboth
  have hq := hc.page_notMem h.page'
  have hwalk := ringRest_lastTask hc.taskRing (hc.page_notMem h.page) hq h.tasks_ne
  rw [← h.links] at hwalk
  refine not_onWalk hwalk ?_ hboth.second.prev
  rw [List.mem_reverse]
  exact fun hin => notMem_snoc hq h.tasks_ne.symm (List.mem_cons_of_mem _ hin)

theorem not_bothForked_initTask (h : Merged s .initTask k k' pid pid' out)
    (hc : Coherent s pending queue ring) :
    ¬ BothForked out (pageAddr k, pid.val) (pageAddr k', pid'.val) := by
  intro hboth
  have hp := hc.page_notMem h.page
  have hwalk := ringRest_initTask hc.taskRing hp (hc.page_notMem h.page') h.tasks_ne
  rw [← h.links] at hwalk
  refine not_onWalk hwalk ?_ hboth.first.next
  exact fun hin => notMem_snoc hp h.tasks_ne (List.mem_cons_of_mem _ hin)

theorem not_bothForked_queue (h : Merged s stage k k' pid pid' out)
    (hc : Coherent s pending queue ring)
    (hexposed : ∃ next, stage = .nextPrev next ∨ stage = .newNext next ∨
      stage = .newPrev next ∨ stage = .headNext next) :
    ¬ BothForked out (pageAddr k, pid.val) (pageAddr k', pid'.val) := by
  intro hboth
  have hqueue : ∀ t, t ∉ .initTask :: ring → t ∉ queue := fun t ht hin =>
    ht (List.mem_cons_of_mem _ (hc.mem_ring hin))
  have hq := hqueue _ (hc.page_notMem h.page')
  have hwalk := queueRest_exposed hc.runQueue
    (hqueue _ (hc.page_notMem h.page)) hq h.tasks_ne
    stage h.loaded hexposed
  rw [← h.list] at hwalk
  refine not_onWalk hwalk ?_ hboth.second.queueNext
  have hne := h.pages_ne.symm
  simpa [hne] using hq

theorem bothForked_iff (h : Merged s stage k k' pid pid' out)
    (hc : Coherent s pending queue ring) (hsearched : stage.Searched = false) :
    BothForked out (pageAddr k, pid.val) (pageAddr k', pid'.val) ↔
      stage.Exposed = false := by
  cases stage with
  | copyThread | fields | count | halve | clear | gTask =>
      simp [ForkStage.Searched] at hsearched
  | lastTask =>
      exact iff_of_false (h.not_bothForked_lastTask hc) (by simp [ForkStage.Exposed])
  | initTask =>
      exact iff_of_false (h.not_bothForked_initTask hc) (by simp [ForkStage.Exposed])
  | nextPrev next =>
      exact iff_of_false (h.not_bothForked_queue hc ⟨next, by simp⟩)
        (by simp [ForkStage.Exposed])
  | newNext next =>
      exact iff_of_false (h.not_bothForked_queue hc ⟨next, by simp⟩)
        (by simp [ForkStage.Exposed])
  | newPrev next =>
      exact iff_of_false (h.not_bothForked_queue hc ⟨next, by simp⟩)
        (by simp [ForkStage.Exposed])
  | headNext next =>
      exact iff_of_false (h.not_bothForked_queue hc ⟨next, by simp⟩)
        (by simp [ForkStage.Exposed])
  | nextTask | prevTask | wake | load | nrRunning =>
      exact iff_of_true (h.bothForked hc (by simp) (by simp) (by simp)) rfl

end Merged

end Sched

end YiOS
