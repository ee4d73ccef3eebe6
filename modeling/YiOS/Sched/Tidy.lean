import YiOS.Sched.Kernel
import YiOS.Sched.Steps

namespace YiOS

open YiOS.Library

/-! What interrupted forks leave of the shared structures: too little for a queue, but
enough for every walk to end in a task or not at all. -/

/-- What a walk along the run queue may come to. -/
def QueueNode (queued : TaskPtr → Prop) : ListPtr → Prop
  | .rqHead => True
  | .runList t => queued t
  | .raw _ => True

theorem QueueNode.mono {queued queued' : TaskPtr → Prop} (h : QueueNode queued x)
    (hsub : ∀ t, queued t → queued' t) : QueueNode queued' x := by
  cases x with
  | rqHead => trivial
  | runList t => exact hsub t h
  | raw => trivial

/-- The counts and the priorities that tasks have. -/
structure TaskStruct.InRange (task : TaskStruct) : Prop where
  nonneg : 0 ≤ task.count
  le : task.count ≤ 27
  priority : 1 ≤ task.priority ∧ task.priority ≤ 2

theorem TaskStruct.InRange.congr {task task' : TaskStruct} (h : task.InRange)
    (hcount : task'.count = task.count) (hpriority : task'.priority = task.priority) :
    task'.InRange :=
  ⟨hcount ▸ h.nonneg, hcount ▸ h.le, hpriority ▸ h.priority⟩

/-- The page of a child that is not a task yet. -/
def ForkPoint.unborn : ForkPoint → Option U64
  | .find page _ => some page
  | .store page _ .copyThread | .store page _ .fields | .store page _ .count
  | .store page _ .halve | .store page _ .clear => some page
  | _ => none

namespace Kernel

def forkPoint (k : Kernel) (t : TaskPtr) : Option ForkPoint :=
  match (k.control t).activity with
  | .forking _ point => some point
  | _ => none

def Unborn (k : Kernel) (page : U64) : Prop :=
  (∃ i, page = pageAddr i ∧ k.sched.memMap i ≠ 0) ∧ ¬ k.Live (.ofPage page)

/-- What a fork has achieved where it stands. -/
def InOrder (k : Kernel) (queued linked : TaskPtr → Prop) : ForkPoint → Prop
  | .find page _ | .store page _ .copyThread => k.Unborn page
  | .store page _ .fields | .store page _ .count =>
      k.Unborn page ∧ (k.sched.task (.ofPage page)).cpuContext.pc = .retFromFork
  | .store page _ .halve | .store page _ .clear =>
      k.Unborn page ∧ (k.sched.task (.ofPage page)).cpuContext.pc = .retFromFork ∧
        0 ≤ (k.sched.task (.ofPage page)).count ∧ (k.sched.task (.ofPage page)).count ≤ 27
  | .store page _ .prevTask | .store page _ .lastTask | .store page _ .initTask =>
      k.Live (.ofPage page) ∧ linked (.ofPage page)
  | .store page _ (.nextPrev next) | .store page _ (.newNext next) =>
      k.Live (.ofPage page) ∧ QueueNode queued next
  | .store page _ (.newPrev _) | .store page _ (.headNext _) =>
      k.Live (.ofPage page) ∧
        QueueNode queued (k.sched.list (.runList (.ofPage page))).next
  | .store page _ _ => k.Live (.ofPage page)
  | _ => True

/-- `queued` are tasks the run queue has come by, and `linked` those of the ring. -/
structure Tidy (k : Kernel) (queued linked : TaskPtr → Prop) : Prop where
  initTask : linked .initTask
  queuedLive : ∀ t, queued t → k.Live t
  linkedLive : ∀ t, linked t → k.Live t
  pages : ∀ t, k.Live t → t = .initTask ∨ ∃ i, t = .ofPage (pageAddr i) ∧
    k.sched.memMap i ≠ 0
  inRange : ∀ t, k.Live t → (k.sched.task t).InRange
  initState : (k.sched.task .initTask).state = .running
  current : k.sched.current = .initTask ∨ queued k.sched.current
  head : QueueNode queued (k.sched.list .rqHead).next
  queue : ∀ t, queued t → QueueNode queued (k.sched.list (.runList t)).next
  last : linked (k.sched.links .initTask).prev
  ring : ∀ t, linked t → linked (k.sched.links t).next
  points : ∀ t point, k.forkPoint t = some point → k.InOrder queued linked point
  apart : ∀ t t' point point' page, k.forkPoint t = some point →
    k.forkPoint t' = some point' → point.unborn = some page → point'.unborn = some page →
    t = t'

theorem InOrder.unborn {k : Kernel} (h : k.InOrder queued linked point)
    (hpage : point.unborn = some page) : k.Unborn page := by
  cases point with
  | scan | claim | done => simp [ForkPoint.unborn] at hpage
  | find => exact Option.some.inj hpage ▸ h
  | store page' pid stage =>
      cases stage with
      | copyThread => exact Option.some.inj hpage ▸ h
      | fields | count | halve | clear => exact Option.some.inj hpage ▸ h.1
      | _ => simp [ForkPoint.unborn] at hpage

/-- A point only depends on the tasks there are, on its own child and on its own node. -/
theorem InOrder.mono {k k' : Kernel} {queued linked queued' linked' : TaskPtr → Prop}
    (h : k.InOrder queued linked point) (hlive : ∀ t, k.Live t → k'.Live t)
    (hqueued : ∀ t, queued t → queued' t) (hlinked : ∀ t, linked t → linked' t)
    (hlist : ∀ x, (k'.sched.list x).next = (k.sched.list x).next ∨
      QueueNode queued' (k'.sched.list x).next)
    (hmem : ∀ i, k.sched.memMap i ≠ 0 → k'.sched.memMap i ≠ 0)
    (hchild : ∀ page, point.unborn = some page →
      ¬ k'.Live (.ofPage page) ∧ k'.sched.task (.ofPage page) =
        k.sched.task (.ofPage page)) :
    k'.InOrder queued' linked' point := by
  have hunborn : ∀ page, point.unborn = some page → k.Unborn page → k'.Unborn page := by
    rintro page hpage ⟨⟨i, hi, hused⟩, _⟩
    exact ⟨⟨i, hi, hmem i hused⟩, (hchild page hpage).1⟩
  have hnode : ∀ x, QueueNode queued (k.sched.list x).next →
      QueueNode queued' (k'.sched.list x).next := by
    intro x hx
    rcases hlist x with hsame | hnew
    · exact hsame ▸ hx.mono hqueued
    · exact hnew
  cases point with
  | scan | claim | done => trivial
  | find page => exact hunborn page rfl h
  | store page pid stage =>
      cases stage with
      | copyThread => exact hunborn page rfl h
      | fields | count =>
          refine ⟨hunborn page rfl h.1, ?_⟩
          rw [(hchild page rfl).2]
          exact h.2
      | halve | clear =>
          refine ⟨hunborn page rfl h.1, ?_⟩
          rw [(hchild page rfl).2]
          exact h.2
      | prevTask | lastTask | initTask => exact ⟨hlive _ h.1, hlinked _ h.2⟩
      | nextPrev | newNext => exact ⟨hlive _ h.1, h.2.mono hqueued⟩
      | newPrev | headNext => exact ⟨hlive _ h.1, hnode _ h.2⟩
      | gTask | nextTask | wake | load | nrRunning => exact hlive _ h

section Frame

variable {k k' : Kernel} {queued linked queued' linked' : TaskPtr → Prop}

theorem Tidy.frame (h : k.Tidy queued linked) (hlive : ∀ t, k.Live t → k'.Live t)
    (hborn : ∀ t, k'.Live t → k.Live t ∨
      ∃ i, t = .ofPage (pageAddr i) ∧ k'.sched.memMap i ≠ 0)
    (hmem : ∀ i, k.sched.memMap i ≠ 0 → k'.sched.memMap i ≠ 0)
    (hinRange : ∀ t, k'.Live t → (k'.sched.task t).InRange)
    (hinitState : (k'.sched.task .initTask).state = .running)
    (hcurrent : k'.sched.current = .initTask ∨ queued' k'.sched.current)
    (hqueued : ∀ t, queued t → queued' t)
    (hqueued' : ∀ t, queued' t → queued t ∨
      k'.Live t ∧ QueueNode queued' (k'.sched.list (.runList t)).next)
    (hlist : ∀ x, (k'.sched.list x).next = (k.sched.list x).next ∨
      QueueNode queued' (k'.sched.list x).next)
    (hlinked : ∀ t, linked t → linked' t)
    (hlinked' : ∀ t, linked' t → linked t ∨ k'.Live t ∧ linked' (k'.sched.links t).next)
    (hlinks : ∀ t, (k'.sched.links t).next = (k.sched.links t).next ∨
      linked' (k'.sched.links t).next)
    (hlast : (k'.sched.links .initTask).prev = (k.sched.links .initTask).prev ∨
      linked' (k'.sched.links .initTask).prev)
    (hpoints : ∀ t point, k'.forkPoint t = some point →
      (k.forkPoint t = some point ∧ ∀ page, point.unborn = some page →
        ¬ k'.Live (.ofPage page) ∧
          k'.sched.task (.ofPage page) = k.sched.task (.ofPage page)) ∨
      k'.InOrder queued' linked' point)
    (hapart : ∀ t t' point point' page, k'.forkPoint t = some point →
      k'.forkPoint t' = some point' → point.unborn = some page →
      point'.unborn = some page → t = t') :
    k'.Tidy queued' linked' where
  initTask := hlinked _ h.initTask
  queuedLive := by
    intro t ht
    rcases hqueued' t ht with hold | hnew
    · exact hlive t (h.queuedLive t hold)
    · exact hnew.1
  linkedLive := by
    intro t ht
    rcases hlinked' t ht with hold | hnew
    · exact hlive t (h.linkedLive t hold)
    · exact hnew.1
  pages := by
    intro t ht
    rcases hborn t ht with hold | hnew
    · rcases h.pages t hold with hinit | ⟨i, hi, hused⟩
      · exact .inl hinit
      · exact .inr ⟨i, hi, hmem i hused⟩
    · exact .inr hnew
  inRange := hinRange
  initState := hinitState
  current := hcurrent
  head := by
    rcases hlist .rqHead with hsame | hnew
    · rw [hsame]
      exact h.head.mono hqueued
    · exact hnew
  queue := by
    intro t ht
    rcases hqueued' t ht with hold | hnew
    · rcases hlist (.runList t) with hsame | hnew
      · rw [hsame]
        exact (h.queue t hold).mono hqueued
      · exact hnew
    · exact hnew.2
  last := by
    rcases hlast with hsame | hnew
    · rw [hsame]
      exact hlinked _ h.last
    · exact hnew
  ring := by
    intro t ht
    rcases hlinked' t ht with hold | hnew
    · rcases hlinks t with hsame | hnew
      · rw [hsame]
        exact hlinked _ (h.ring t hold)
      · exact hnew
    · exact hnew.2
  points := by
    intro t point hpoint
    rcases hpoints t point hpoint with ⟨hold, hchild⟩ | hnew
    · exact (h.points t point hold).mono hlive hqueued hlinked hlist hmem hchild
    · exact hnew
  apart := hapart

/-- A step outside `do_fork`. -/
theorem Tidy.calm (h : k.Tidy queued linked) (hlive : ∀ t, k'.Live t ↔ k.Live t)
    (hfork : ∀ t point, k'.forkPoint t = some point →
      k.forkPoint t = some point ∨ point = .scan 0)
    (hmem : k'.sched.memMap = k.sched.memMap) (hlinks : k'.sched.links = k.sched.links)
    (htask : ∀ t, ¬ k.Live t → k'.sched.task t = k.sched.task t)
    (hinRange : ∀ t, k.Live t → (k'.sched.task t).InRange)
    (hinitState : (k'.sched.task .initTask).state = .running)
    (hcurrent : k'.sched.current = .initTask ∨ queued' k'.sched.current)
    (hqueued : ∀ t, queued t → queued' t)
    (hqueued' : ∀ t, queued' t → queued t ∨
      k.Live t ∧ QueueNode queued' (k'.sched.list (.runList t)).next)
    (hlist : ∀ x, (k'.sched.list x).next = (k.sched.list x).next ∨
      QueueNode queued' (k'.sched.list x).next) : k'.Tidy queued' linked := by
  refine h.frame (fun t => (hlive t).mpr) (fun t ht => .inl ((hlive t).mp ht))
    (fun i hi => hmem ▸ hi) (fun t ht => hinRange t ((hlive t).mp ht)) hinitState hcurrent
    hqueued (fun t ht => (hqueued' t ht).imp_right fun hnew => ⟨(hlive t).mpr hnew.1, hnew.2⟩)
    hlist (fun t ht => ht) (fun t ht => .inl ht) (fun t => .inl (by rw [hlinks]))
    (.inl (by rw [hlinks])) ?_ ?_
  · intro t point hpoint
    rcases hfork t point hpoint with hold | rfl
    · refine .inl ⟨hold, fun page hpage => ?_⟩
      have hunborn := (h.points t point hold).unborn hpage
      exact ⟨fun hborn => hunborn.2 ((hlive _).mp hborn), htask _ hunborn.2⟩
    · exact .inr trivial
  · intro t t' point point' page hpoint hpoint' hpage hpage'
    rcases hfork t point hpoint with hold | rfl
    · rcases hfork t' point' hpoint' with hold' | rfl
      · exact h.apart t t' point point' page hold hold' hpage hpage'
      · simp [ForkPoint.unborn] at hpage'
    · simp [ForkPoint.unborn] at hpage

end Frame

end Kernel

namespace Sched

section Pick

variable {queued linked : TaskPtr → Prop} {s s' : Sched}

/-- The picker only changes the counts of linked tasks, and keeps them in range. -/
structure Recounted (linked : TaskPtr → Prop) (s s' : Sched) : Prop where
  intro ::
  counts : ∃ counts, s' = s.recount counts ∧
    ∀ t, counts t = (s.task t).count ∨ linked t ∧ 0 ≤ counts t ∧ counts t ≤ 27

theorem Recounted.refl (linked : TaskPtr → Prop) (s : Sched) : Recounted linked s s :=
  ⟨fun t => (s.task t).count, (recount_count s).symm, fun _ => .inl rfl⟩

theorem Recounted.trans (h : Recounted linked s s') (h' : Recounted linked s' s'') :
    Recounted linked s s'' := by
  obtain ⟨counts, rfl, hcounts⟩ := h.counts
  obtain ⟨counts', rfl, hcounts'⟩ := h'.counts
  refine ⟨counts', rfl, fun t => ?_⟩
  rcases hcounts' t with hsame | hnew
  · rw [hsame]
    exact hcounts t
  · exact .inr hnew

theorem Recounted.inRange (h : Recounted linked s s') (ht : (s.task t).InRange) :
    (s'.task t).InRange := by
  obtain ⟨counts, rfl, hcounts⟩ := h.counts
  rcases hcounts t with hsame | ⟨_, hlow, hhigh⟩
  · have htask : (s.recount counts).task t = s.task t := by
      simp only [recount, hsame]
    exact htask ▸ ht
  · exact ⟨hlow, hhigh, ht.priority⟩

theorem Recounted.same (h : Recounted linked s s') : s'.memMap = s.memMap ∧
    s'.links = s.links ∧ s'.list = s.list ∧ s'.current = s.current ∧
      s'.console = s.console := by
  obtain ⟨counts, rfl, _⟩ := h.counts
  exact ⟨rfl, rfl, rfl, rfl, rfl⟩

theorem Recounted.links (h : Recounted linked s s') : s'.links = s.links := h.same.2.1

theorem Recounted.list (h : Recounted linked s s') : s'.list = s.list := h.same.2.2.1

theorem resetOne_recounted (hp : linked p) (hrange : (s.task p).InRange) :
    Recounted linked s (resetOne p s) := by
  have hpriority := hrange.priority
  have hsum : Int.bmod (defCounter + (s.task p).priority) (2 ^ 32) =
      defCounter + (s.task p).priority :=
    Int.bmod_eq_of_le (by simp only [defCounter]; omega) (by simp only [defCounter]; omega)
  refine ⟨fun t => ((resetOne p s).task t).count, ?_, fun t => ?_⟩
  · simp only [resetOne, modify, recount]
    congr 1
    funext t
    by_cases ht : t = p
    · subst ht
      simp
    · simp [ht]
  · by_cases ht : t = p
    · subst ht
      have hcount : ((resetOne t s).task t).count = defCounter + (s.task t).priority := by
        rw [resetOne, modify_task_self, hsum]
      simp only [hcount, defCounter]
      exact .inr ⟨hp, by omega, by omega⟩
    · exact .inl (congrArg TaskStruct.count (modify_task_of_ne s _ ht))

theorem resetScore_recounted (hinit : linked .initTask)
    (hring : ∀ t, linked t → linked (s.links t).next)
    (hrange : ∀ t, linked t → (s.task t).InRange) (h : s.resetScore fuel = some s') :
    Recounted linked s s' := by
  refine forEach_inv linked (fun s' => Recounted linked s s') ?_ (hring _ hinit)
    (.refl linked s) h
  intro p before after hp _ hbefore hbody
  obtain rfl := Option.some.inj hbody
  have hone := resetOne_recounted hp (hbefore.inRange (hrange p hp))
  refine ⟨hbefore.trans hone, ?_⟩
  rw [(hbefore.trans hone).links]
  exact hring p hp

/-- A scan that meets a task chooses one it has met. -/
theorem scanQueue_queued (hhead : QueueNode queued (s.list .rqHead).next)
    (hqueue : ∀ t, queued t → QueueNode queued (s.list (.runList t)).next)
    (hcounts : ∀ t, queued t → (s.task t).InRange)
    (hne : (s.list .rqHead).next ≠ .rqHead)
    (h : s.scanQueue fuel ⟨-1000, next⟩ = some pick) :
    ∃ p, queued p ∧ pick.next = some p := by
  have hbody : ∀ tmp (pick pick' : Pick), QueueNode queued tmp → tmp ≠ .rqHead →
      (listEntry tmp).map (fun p => pick.consider s p) = some pick' →
      ∃ p, queued p ∧ tmp = .runList p ∧ pick' = pick.consider s p := by
    intro tmp pick pick' htmp hhead hsome
    cases tmp with
    | rqHead => exact absurd rfl hhead
    | runList p => exact ⟨p, htmp, rfl, (Option.some.inj hsome).symm⟩
    | raw => simp [listEntry] at hsome
  cases fuel with
  | zero => simp [scanQueue, forEach] at h
  | succ fuel =>
      rw [scanQueue, forEach, if_neg hne, Option.bind_eq_some_iff] at h
      obtain ⟨first, hfirst, hrest⟩ := h
      obtain ⟨p, hp, hnode, rfl⟩ := hbody _ _ _ hhead hne hfirst
      have hgood : s.goodness p > -1000 := by
        have hrange := hcounts p hp
        have hle := hrange.le
        have hnonneg := hrange.nonneg
        rw [goodness_eq hnonneg (by omega)]
        omega
      refine forEach_inv (QueueNode queued) (fun pick => ∃ p, queued p ∧ pick.next = some p)
        ?_ ?_ ?_ hrest
      · intro tmp before after htmp htmpHead hbefore hsome
        obtain ⟨q, hq, rfl, rfl⟩ := hbody _ _ _ htmp htmpHead hsome
        refine ⟨?_, hqueue q hq⟩
        unfold Pick.consider
        split
        · exact ⟨q, hq, rfl⟩
        · exact hbefore
      · rw [hnode]
        exact hqueue p hp
      · refine ⟨p, hp, ?_⟩
        simp only [Pick.consider, if_pos hgood]

theorem pickNextTaskSimple_queued (hinit : linked .initTask)
    (hring : ∀ t, linked t → linked (s.links t).next)
    (hlinked : ∀ t, linked t → (s.task t).InRange)
    (hhead : QueueNode queued (s.list .rqHead).next)
    (hqueue : ∀ t, queued t → QueueNode queued (s.list (.runList t)).next)
    (hqueued : ∀ t, queued t → (s.task t).InRange)
    (hne : (s.list .rqHead).next ≠ .rqHead)
    (h : pickNextTaskSimple fuel start s = some (next, s')) :
    (∃ p, queued p ∧ next = some p) ∧ Recounted linked s s' := by
  induction fuel generalizing start s with
  | zero => simp [pickNextTaskSimple] at h
  | succ fuel ih =>
      rw [pickNextTaskSimple, Option.bind_eq_some_iff] at h
      obtain ⟨pick, hscan, hrest⟩ := h
      split at hrest
      · obtain ⟨full, hreset, hagain⟩ := Option.bind_eq_some_iff.mp hrest
        have hfull := resetScore_recounted hinit hring hlinked hreset
        rw [← hfull.links] at hring
        rw [← hfull.list] at hhead hqueue hne
        obtain ⟨hnext, hrecounted⟩ := ih hring (fun t ht => hfull.inRange (hlinked t ht))
          hhead hqueue (fun t ht => hfull.inRange (hqueued t ht)) hne hagain
        exact ⟨hnext, hfull.trans hrecounted⟩
      · obtain ⟨rfl, rfl⟩ := Prod.mk.inj (Option.some.inj hrest)
        obtain ⟨p, hp, hnext⟩ := scanQueue_queued hhead hqueue hqueued hne hscan
        exact ⟨⟨p, hp, hnext⟩, .refl linked s⟩

end Pick

end Sched

end YiOS
