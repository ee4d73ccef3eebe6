import YiOS.Sched.Upkeep

namespace YiOS

open YiOS.Library

/-! The steps of `do_fork` leave the shared structures tidy, as long as no other fork has
taken the page. -/

/-- The task that there is one more of behind this point. -/
def ForkPoint.born : ForkPoint → Option TaskPtr
  | .store page _ .clear => some (.ofPage page)
  | _ => none

theorem ForkPoint.unborn_of_born {point : ForkPoint} (h : point.born = some t) :
    ∃ page, t = .ofPage page ∧ point.unborn = some page := by
  cases point with
  | scan | claim | find | done => simp [born] at h
  | store page pid stage =>
      cases stage with
      | clear => exact ⟨page, (Option.some.inj h).symm, rfl⟩
      | _ => simp [born] at h

namespace Kernel

open Sched

section Births

variable {k : Kernel} {queued linked queued' linked' : TaskPtr → Prop} {args : ForkArgs}
  {point point' : ForkPoint} {s : Sched}

/-- The kernel behind a step of `do_fork`. -/
def forked (k : Kernel) (args : ForkArgs) (point point' : ForkPoint) (s : Sched) : Kernel :=
  (k.birth point).go s ⟨forkActivity args point', []⟩

theorem forkActivity_ne (args : ForkArgs) (point : ForkPoint) :
    forkActivity args point ≠ .absent ∧ forkActivity args point ≠ .fresh := by
  cases point <;> simp [forkActivity]

theorem birth_control (k : Kernel) (point : ForkPoint) (t : TaskPtr) :
    (k.birth point).control t =
      if point.born = some t then ⟨.fresh, []⟩ else k.control t := by
  cases point with
  | scan | claim | find | done => simp [birth, ForkPoint.born]
  | store page pid stage =>
      cases stage with
      | clear => simp [birth, ForkPoint.born, Function.update_apply, eq_comm]
      | _ => simp [birth, ForkPoint.born]

theorem birth_sched (k : Kernel) (point : ForkPoint) : (k.birth point).sched = k.sched := by
  unfold birth
  split <;> rfl

theorem forked_control_self : (k.forked args point point' s).control k.sched.current =
    ⟨forkActivity args point', []⟩ := by
  have hself := go_control_self (k.birth point) s ⟨forkActivity args point', []⟩
  rwa [birth_sched] at hself

theorem forked_control_of_ne (h : t ≠ k.sched.current) :
    (k.forked args point point' s).control t =
      if point.born = some t then ⟨.fresh, []⟩ else k.control t := by
  rw [forked, go_control_of_ne _ _ _ (by rwa [birth_sched]), birth_control]

theorem forked_live (hlive : k.Live k.sched.current) (t : TaskPtr) :
    (k.forked args point point' s).Live t ↔ k.Live t ∨ point.born = some t := by
  unfold Live
  by_cases ht : t = k.sched.current
  · subst ht
    rw [forked_control_self]
    exact iff_of_true (forkActivity_ne args point').1 (.inl hlive)
  · rw [forked_control_of_ne ht]
    split
    · next hborn => exact iff_of_true (by simp) (.inr hborn)
    · next hborn => simp [hborn]

theorem forked_forkPoint (h : (k.forked args point point' s).forkPoint t = some p) :
    t = k.sched.current ∧ p = point' ∨ t ≠ k.sched.current ∧ k.forkPoint t = some p := by
  unfold forkPoint at h ⊢
  by_cases ht : t = k.sched.current
  · subst ht
    rw [forked_control_self] at h
    refine .inl ⟨rfl, ?_⟩
    cases point' with
    | done => simp [forkActivity] at h
    | scan | claim | find | store => exact (Option.some.inj h).symm
  · rw [forked_control_of_ne ht] at h
    by_cases hborn : point.born = some t
    · simp [hborn] at h
    · rw [if_neg hborn] at h
      exact .inr ⟨ht, h⟩

/-- No fork is at work on the page of another. -/
theorem Tidy.others (h : k.Tidy queued linked)
    (hpoint : k.forkPoint k.sched.current = some point) (ht : t ≠ k.sched.current)
    (hother : k.forkPoint t = some other) (hpage : other.unborn = some page) :
    ¬ k.Live (.ofPage page) ∧ point.unborn ≠ some page := by
  refine ⟨((h.points t other hother).unborn hpage).2, fun hsame => ht ?_⟩
  exact h.apart t _ other point page hother hpoint hpage hsame

/-- A step of `do_fork`, which may only touch its own child and what is shared. -/
theorem Tidy.fork (h : k.Tidy queued linked) (hlive : k.Live k.sched.current)
    (hpoint : k.forkPoint k.sched.current = some point)
    (hcurrent : s.current = k.sched.current)
    (hmem : ∀ i, k.sched.memMap i ≠ 0 → s.memMap i ≠ 0)
    (htask : ∀ page, point.unborn ≠ some page → ¬ k.Live (.ofPage page) →
      s.task (.ofPage page) = k.sched.task (.ofPage page))
    (hinRange : ∀ t, k.Live t ∨ point.born = some t → (s.task t).InRange)
    (hinitState : (s.task .initTask).state = .running)
    (hqueued : ∀ t, queued t → queued' t)
    (hqueued' : ∀ t, queued' t → queued t ∨
      k.Live t ∧ QueueNode queued' (s.list (.runList t)).next)
    (hlist : ∀ x, (s.list x).next = (k.sched.list x).next ∨
      QueueNode queued' (s.list x).next)
    (hlinked : ∀ t, linked t → linked' t)
    (hlinked' : ∀ t, linked' t → linked t ∨ k.Live t ∧ linked' (s.links t).next)
    (hlinks : ∀ t, (s.links t).next = (k.sched.links t).next ∨ linked' (s.links t).next)
    (hlast : (s.links .initTask).prev = (k.sched.links .initTask).prev ∨
      linked' (s.links .initTask).prev)
    (hinOrder : (k.forked args point point' s).InOrder queued' linked' point')
    (hunborn : ∀ page, point'.unborn = some page → point.unborn = some page ∨
      ∃ i, page = pageAddr i ∧ k.sched.memMap i = 0) :
    (k.forked args point point' s).Tidy queued' linked' := by
  have hborn : ∀ t, point.born = some t →
      ∃ i, t = .ofPage (pageAddr i) ∧ k.sched.memMap i ≠ 0 := by
    intro t ht
    obtain ⟨page, rfl, hpage⟩ := ForkPoint.unborn_of_born ht
    obtain ⟨⟨i, rfl, hused⟩, _⟩ := (h.points _ point hpoint).unborn hpage
    exact ⟨i, rfl, hused⟩
  -- the page of the new point is no other fork's
  have hmine : ∀ t other page, t ≠ k.sched.current → k.forkPoint t = some other →
      other.unborn = some page → point'.unborn ≠ some page := by
    intro t other page ht hother hpage hnew
    rcases hunborn page hnew with hold | ⟨i, rfl, hfree⟩
    · exact (h.others hpoint ht hother hpage).2 hold
    · obtain ⟨⟨j, hj, hused⟩, _⟩ := (h.points t other hother).unborn hpage
      exact hused (pageAddr_injective hj ▸ hfree)
  refine h.frame (fun t ht => (forked_live hlive t).mpr (.inl ht)) (fun t ht => ?_) hmem
    (fun t ht => hinRange t ((forked_live hlive t).mp ht)) hinitState ?_ hqueued
    (fun t ht => (hqueued' t ht).imp_right fun hnew =>
      ⟨(forked_live hlive t).mpr (.inl hnew.1), hnew.2⟩)
    hlist hlinked
    (fun t ht => (hlinked' t ht).imp_right fun hnew =>
      ⟨(forked_live hlive t).mpr (.inl hnew.1), hnew.2⟩)
    hlinks hlast ?_ ?_
  · refine ((forked_live hlive t).mp ht).imp_right fun hnew => ?_
    obtain ⟨i, hi, hused⟩ := hborn t hnew
    exact ⟨i, hi, hmem i hused⟩
  · have hold := h.current.imp_right (hqueued _)
    rw [← hcurrent] at hold
    exact hold
  · intro t p hp
    rcases forked_forkPoint hp with ⟨_, rfl⟩ | ⟨ht, hold⟩
    · exact .inr hinOrder
    · refine .inl ⟨hold, fun page hpage => ?_⟩
      obtain ⟨hdead, hapart⟩ := h.others hpoint ht hold hpage
      refine ⟨fun hnew => ?_, htask page hapart hdead⟩
      refine ((forked_live hlive _).mp hnew).elim hdead fun hnew => hapart ?_
      obtain ⟨page', hsame, hpage'⟩ := ForkPoint.unborn_of_born hnew
      exact TaskPtr.ofPage.inj hsame ▸ hpage'
  · intro t t' p p' page hp hp' hpage hpage'
    rcases forked_forkPoint hp with ⟨rfl, rfl⟩ | ⟨ht, hold⟩
    · rcases forked_forkPoint hp' with ⟨rfl, rfl⟩ | ⟨ht', hold'⟩
      · rfl
      · exact absurd hpage (hmine t' p' page ht' hold' hpage')
    · rcases forked_forkPoint hp' with ⟨rfl, rfl⟩ | ⟨ht', hold'⟩
      · exact absurd hpage' (hmine t p page ht hold hpage)
      · exact h.apart t t' p p' page hold hold' hpage hpage'

/-- The same where no task joins the queue or the ring. -/
theorem Tidy.forkSame (h : k.Tidy queued linked) (hlive : k.Live k.sched.current)
    (hpoint : k.forkPoint k.sched.current = some point) (hborn : point.born = none)
    (hcurrent : s.current = k.sched.current)
    (hmem : ∀ i, k.sched.memMap i ≠ 0 → s.memMap i ≠ 0)
    (htask : ∀ t, (∀ page, point.unborn = some page → t ≠ .ofPage page) →
      t ≠ k.sched.current → ¬ k.Live t → s.task t = k.sched.task t)
    (hinRange : ∀ t, k.Live t → (s.task t).InRange)
    (hinitState : (s.task .initTask).state = .running)
    (hlist : ∀ x, (s.list x).next = (k.sched.list x).next ∨
      QueueNode queued (s.list x).next)
    (hlinks : ∀ t, (s.links t).next = (k.sched.links t).next ∨ linked (s.links t).next)
    (hlast : (s.links .initTask).prev = (k.sched.links .initTask).prev ∨
      linked (s.links .initTask).prev)
    (hinOrder : (k.forked args point point' s).InOrder queued linked point')
    (hunborn : ∀ page, point'.unborn = some page → point.unborn = some page ∨
      ∃ i, page = pageAddr i ∧ k.sched.memMap i = 0) :
    (k.forked args point point' s).Tidy queued linked := by
  refine h.fork hlive hpoint hcurrent hmem (fun page hpage hdead => ?_) (fun t ht => ?_)
    hinitState (fun t ht => ht) (fun t ht => .inl ht) hlist (fun t ht => ht)
    (fun t ht => .inl ht) hlinks hlast hinOrder hunborn
  · refine htask _ (fun page' hpage' hsame => ?_) ?_ hdead
    · exact hpage (TaskPtr.ofPage.inj hsame ▸ hpage')
    · rintro hsame
      exact hdead (hsame ▸ hlive)
  · rw [hborn] at ht
    exact hinRange t (ht.resolve_right (by simp))

theorem forked_unborn (hlive : k.Live k.sched.current) (hborn : point.born = none)
    (hmem : ∀ i, k.sched.memMap i ≠ 0 → s.memMap i ≠ 0) (h : k.Unborn page) :
    (k.forked args point point' s).Unborn page := by
  obtain ⟨⟨i, hi, hused⟩, hdead⟩ := h
  refine ⟨⟨i, hi, hmem i hused⟩, fun hnew => ?_⟩
  rw [forked_live hlive, hborn] at hnew
  exact hdead (hnew.resolve_right (by simp))

theorem forked_live_of (hlive : k.Live k.sched.current) (h : k.Live t) :
    (k.forked args point point' s).Live t :=
  (forked_live hlive t).mpr (.inl h)

/-- The searches and the store to `mem_map`. -/
theorem Tidy.forkSearch (h : k.Tidy queued linked) (hlive : k.Live k.sched.current)
    (hpoint : k.forkPoint k.sched.current = some point) (hborn : point.born = none)
    (memMap : MemMap) (hmem : ∀ i, k.sched.memMap i ≠ 0 → memMap i ≠ 0)
    (hinOrder : (k.forked args point point' { k.sched with memMap := memMap }).InOrder
      queued linked point')
    (hunborn : ∀ page, point'.unborn = some page → point.unborn = some page ∨
      ∃ i, page = pageAddr i ∧ k.sched.memMap i = 0) :
    (k.forked args point point' { k.sched with memMap := memMap }).Tidy queued linked :=
  h.forkSame hlive hpoint hborn rfl hmem (fun _ _ _ _ => rfl) h.inRange h.initState
    (fun _ => .inl rfl) (fun _ => .inl rfl) (.inl rfl) hinOrder hunborn

theorem Tidy.scan (h : k.Tidy queued linked) (hlive : k.Live k.sched.current)
    (hpoint : k.forkPoint k.sched.current = some (.scan i))
    (hstep : k.sched.forkStep args (.scan i) = (point', s)) :
    (k.forked args (.scan i) point' s).Tidy queued linked := by
  simp only [forkStep] at hstep
  split at hstep
  · split at hstep
    · obtain ⟨rfl, rfl⟩ := Prod.mk.inj hstep
      exact h.forkSearch hlive hpoint rfl _ (fun _ hi => hi) trivial
        (by simp [ForkPoint.unborn])
    · obtain ⟨rfl, rfl⟩ := Prod.mk.inj hstep
      exact h.forkSearch hlive hpoint rfl _ (fun _ hi => hi) trivial
        (by simp [ForkPoint.unborn])
  · obtain ⟨rfl, rfl⟩ := Prod.mk.inj hstep
    exact h.forkSearch hlive hpoint rfl _ (fun _ hi => hi) trivial
      (by simp [ForkPoint.unborn])

theorem Tidy.claim (h : k.Tidy queued linked) (hlive : k.Live k.sched.current)
    (hpoint : k.forkPoint k.sched.current = some (.claim i)) (hfree : k.sched.memMap i = 0)
    (hstep : k.sched.forkStep args (.claim i) = (point', s)) :
    (k.forked args (.claim i) point' s).Tidy queued linked := by
  obtain ⟨rfl, rfl⟩ := Prod.mk.inj hstep
  have hmem : ∀ j, k.sched.memMap j ≠ 0 → Function.update k.sched.memMap i 1 j ≠ 0 := by
    intro j hj
    by_cases hij : j = i
    · simp [hij]
    · rwa [Function.update_of_ne hij]
  refine h.forkSearch hlive hpoint rfl _ hmem ⟨⟨i, rfl, ?_⟩, fun hnew => ?_⟩ ?_
  · simp [forked, go]
  · -- a task that lives on this page would have taken its slot
    rw [forked_live hlive] at hnew
    rcases h.pages _ (hnew.resolve_right (by simp [ForkPoint.born])) with
      hinit | ⟨j, hj, hused⟩
    · simp at hinit
    · exact hused (pageAddr_injective (TaskPtr.ofPage.inj hj) ▸ hfree)
  · intro page hpage
    exact .inr ⟨i, (Option.some.inj hpage).symm, hfree⟩

theorem Tidy.find (h : k.Tidy queued linked) (hlive : k.Live k.sched.current)
    (hpoint : k.forkPoint k.sched.current = some (.find page i))
    (hstep : k.sched.forkStep args (.find page i) = (point', s)) :
    (k.forked args (.find page i) point' s).Tidy queued linked := by
  have hunborn : k.Unborn page := h.points _ _ hpoint
  have hkept : ∀ point', (k.forked args (.find page i) point' k.sched).Unborn page :=
    fun _ => forked_unborn hlive rfl (fun _ hi => hi) hunborn
  simp only [forkStep] at hstep
  split at hstep
  · split at hstep
    · obtain ⟨rfl, rfl⟩ := Prod.mk.inj hstep
      exact h.forkSearch hlive hpoint rfl _ (fun _ hi => hi) (hkept _) (fun _ => .inl)
    · obtain ⟨rfl, rfl⟩ := Prod.mk.inj hstep
      exact h.forkSearch hlive hpoint rfl _ (fun _ hi => hi) (hkept _) (fun _ => .inl)
  · obtain ⟨rfl, rfl⟩ := Prod.mk.inj hstep
    exact h.forkSearch hlive hpoint rfl _ (fun _ hi => hi) trivial
      (by simp [ForkPoint.unborn])

section Store

variable {page : U64} {pid : Fin nrTask}

/-- The stores to a child that is no task yet. -/
theorem Tidy.childStore (h : k.Tidy queued linked) (hlive : k.Live k.sched.current)
    (hpoint : k.forkPoint k.sched.current = some point) (hborn : point.born = none)
    (hpage : point.unborn = some page) (hpage' : point'.unborn = some page)
    (hmem : s.memMap = k.sched.memMap) (hlinks : s.links = k.sched.links)
    (hlist : s.list = k.sched.list) (hcurrent : s.current = k.sched.current)
    (htask : ∀ t, t ≠ .ofPage page → s.task t = k.sched.task t)
    (hinOrder : (k.forked args point point' s).InOrder queued linked point') :
    (k.forked args point point' s).Tidy queued linked := by
  have hdead : ¬ k.Live (.ofPage page) := ((h.points _ _ hpoint).unborn hpage).2
  refine h.forkSame hlive hpoint hborn hcurrent (fun i hi => hmem ▸ hi)
    (fun t ht _ _ => htask t (ht page hpage)) (fun t ht => ?_) ?_
    (fun x => .inl (by rw [hlist]))
    (fun t => .inl (by rw [hlinks])) (.inl (by rw [hlinks])) hinOrder
    (fun page' hnew => .inl (hpage.trans (hpage'.symm.trans hnew)))
  · rw [htask t fun heq => hdead (heq ▸ ht)]
    exact h.inRange t ht
  · rw [htask _ (by simp)]
    exact h.initState

theorem half_range {count : Int} (h : 0 ≤ count) (hle : count ≤ 28) :
    0 ≤ count >>> (1 : Nat) ∧ count >>> (1 : Nat) ≤ 27 := by
  simp only [Int.shiftRight_eq_div_pow]
  omega

/-- `copy_thread` and the stores behind it. -/
theorem Tidy.childFields (h : k.Tidy queued linked) (hlive : k.Live k.sched.current)
    (hpoint : k.forkPoint k.sched.current = some (.store page pid stage))
    (hstage : stage = .copyThread ∨ stage = .fields ∨ stage = .count)
    (hstep : k.sched.forkStep args (.store page pid stage) = (point', s)) :
    (k.forked args (.store page pid stage) point' s).Tidy queued linked := by
  have hin := h.points _ _ hpoint
  rcases hstage with rfl | rfl | rfl
  · obtain ⟨rfl, rfl⟩ := Prod.mk.inj hstep
    refine h.childStore hlive hpoint rfl rfl rfl rfl rfl rfl rfl
      (fun t ht => Function.update_of_ne ht ..)
      ⟨forked_unborn hlive rfl (fun _ hi => hi) hin, ?_⟩
    simp [forked, go, Sched.copyThread, childContext]
  · obtain ⟨rfl, rfl⟩ := Prod.mk.inj hstep
    refine h.childStore hlive hpoint rfl rfl rfl rfl rfl rfl rfl
      (fun t ht => Function.update_of_ne ht ..)
      ⟨forked_unborn hlive rfl (fun _ hi => hi) hin.1, ?_⟩
    simpa [forked, go] using hin.2
  · obtain ⟨rfl, rfl⟩ := Prod.mk.inj hstep
    have hcount := h.inRange _ hlive
    have hnonneg := hcount.nonneg
    have hle := hcount.le
    refine h.childStore hlive hpoint rfl rfl rfl rfl rfl rfl rfl
      (fun t ht => Function.update_of_ne ht ..)
      ⟨forked_unborn hlive rfl (fun _ hi => hi) hin.1, ?_, ?_⟩
    · simpa [forked, go] using hin.2
    · simpa [forked, go] using half_range (by omega) (by omega)

theorem Tidy.halve (h : k.Tidy queued linked) (hlive : k.Live k.sched.current)
    (hpoint : k.forkPoint k.sched.current = some (.store page pid .halve))
    (hstep : k.sched.forkStep args (.store page pid .halve) = (point', s)) :
    (k.forked args (.store page pid .halve) point' s).Tidy queued linked := by
  obtain ⟨hunborn, hchild⟩ := h.points _ _ hpoint
  have hne : TaskPtr.ofPage page ≠ k.sched.current := fun heq => hunborn.2 (heq ▸ hlive)
  obtain ⟨rfl, rfl⟩ := Prod.mk.inj hstep
  refine h.forkSame hlive hpoint rfl rfl (fun _ hi => hi)
    (fun t _ ht _ => modify_task_of_ne _ _ ht) (fun t ht => ?_) ?_ (fun _ => .inl rfl)
    (fun _ => .inl rfl) (.inl rfl)
    ⟨forked_unborn hlive rfl (fun _ hi => hi) hunborn, ?_⟩ (fun _ => .inl)
  · by_cases hcurrent : t = k.sched.current
    · subst hcurrent
      rw [modify_task_self]
      have hrange := h.inRange _ hlive
      have hhalf := half_range hrange.nonneg (by have := hrange.le; omega)
      exact ⟨hhalf.1, hhalf.2, hrange.priority⟩
    · rw [modify_task_of_ne _ _ hcurrent]
      exact h.inRange t ht
  · rw [modify_field TaskStruct.state k.sched rfl]
    exact h.initState
  · simp only [forked, go, modify_task_of_ne _ _ hne]
    exact hchild

theorem Tidy.clear (h : k.Tidy queued linked) (hlive : k.Live k.sched.current)
    (hpoint : k.forkPoint k.sched.current = some (.store page pid .clear))
    (hstep : k.sched.forkStep args (.store page pid .clear) = (point', s)) :
    (k.forked args (.store page pid .clear) point' s).Tidy queued linked := by
  obtain ⟨hunborn, hpc, hcount⟩ := h.points _ _ hpoint
  obtain ⟨rfl, rfl⟩ := Prod.mk.inj hstep
  refine h.fork hlive hpoint rfl (fun _ hi => hi) (fun page' hpage' _ => ?_)
    (fun t ht => ?_) ?_
    (fun t ht => ht) (fun t ht => .inl ht) (fun _ => .inl rfl) (fun t ht => ht)
    (fun t ht => .inl ht) (fun _ => .inl rfl) (.inl rfl) ?_ (by simp [ForkPoint.unborn])
  · refine modify_task_of_ne _ _ fun heq => hpage' ?_
    rw [TaskPtr.ofPage.inj heq]
    rfl
  · by_cases hchild : t = .ofPage page
    · subst hchild
      rw [modify_task_self]
      exact ⟨hcount.1, hcount.2, by simp⟩
    · rw [modify_task_of_ne _ _ hchild]
      refine h.inRange t (ht.resolve_right fun hborn => hchild ?_)
      exact (Option.some.inj hborn).symm
  · rw [modify_field TaskStruct.state k.sched rfl]
    exact h.initState
  · exact (forked_live hlive _).mpr (.inr rfl)

/-- The stores to the ring, to the queue and to what neither walk reads. -/
theorem Tidy.linkStore (h : k.Tidy queued linked) (hlive : k.Live k.sched.current)
    (hpoint : k.forkPoint k.sched.current = some point) (hborn : point.born = none)
    (hunborn : point'.unborn = none) (htask : s.task = k.sched.task)
    (hmem : s.memMap = k.sched.memMap) (hcurrent : s.current = k.sched.current)
    (hlist : ∀ x, (s.list x).next = (k.sched.list x).next ∨
      QueueNode queued (s.list x).next)
    (hlinks : ∀ t, (s.links t).next = (k.sched.links t).next ∨ linked (s.links t).next)
    (hlast : (s.links .initTask).prev = (k.sched.links .initTask).prev ∨
      linked (s.links .initTask).prev)
    (hinOrder : (k.forked args point point' s).InOrder queued linked point') :
    (k.forked args point point' s).Tidy queued linked := by
  refine h.forkSame hlive hpoint hborn hcurrent (fun i hi => hmem ▸ hi)
    (fun t _ _ _ => by rw [htask]) (fun t ht => ?_) ?_ hlist hlinks hlast hinOrder
    (by simp [hunborn])
  · rw [htask]
    exact h.inRange t ht
  · rw [htask]
    exact h.initState

/-- `SET_LINKS` behind its first store. -/
theorem Tidy.ringStore (h : k.Tidy queued linked) (hlive : k.Live k.sched.current)
    (hpoint : k.forkPoint k.sched.current = some (.store page pid stage))
    (hstage : stage = .prevTask ∨ stage = .lastTask ∨ stage = .initTask)
    (hstep : k.sched.forkStep args (.store page pid stage) = (point', s)) :
    (k.forked args (.store page pid stage) point' s).Tidy queued linked := by
  have hin := h.points _ _ hpoint
  rcases hstage with rfl | rfl | rfl
  · obtain ⟨rfl, rfl⟩ := Prod.mk.inj hstep
    refine h.linkStore hlive hpoint rfl rfl rfl rfl rfl (fun _ => .inl rfl)
      (fun t => .inl ?_) (.inl ?_) ⟨forked_live_of hlive hin.1, hin.2⟩
    · rw [Heap.setPrev_next]
    · rw [Heap.setPrev_prev, if_neg (by simp)]
  · obtain ⟨rfl, rfl⟩ := Prod.mk.inj hstep
    refine h.linkStore hlive hpoint rfl rfl rfl rfl rfl (fun _ => .inl rfl)
      (fun t => ?_) (.inl ?_) ⟨forked_live_of hlive hin.1, hin.2⟩
    · rw [Heap.setNext_next]
      split
      · exact .inr hin.2
      · exact .inl rfl
    · rw [Heap.setNext_prev]
  · obtain ⟨rfl, rfl⟩ := Prod.mk.inj hstep
    refine h.linkStore hlive hpoint rfl rfl rfl rfl rfl (fun _ => .inl rfl)
      (fun t => .inl ?_) (.inr ?_) (forked_live_of hlive hin.1)
    · rw [Heap.setPrev_next]
    · rw [Heap.setPrev_prev, if_pos rfl]
      exact hin.2

/-- The first store of `SET_LINKS`: from now on the child may be reached. -/
theorem Tidy.nextTask (h : k.Tidy queued linked) (hlive : k.Live k.sched.current)
    (hpoint : k.forkPoint k.sched.current = some (.store page pid .nextTask))
    (hstep : k.sched.forkStep args (.store page pid .nextTask) = (point', s)) :
    (k.forked args (.store page pid .nextTask) point' s).Tidy queued
      (fun t => linked t ∨ t = .ofPage page) := by
  have hchild : k.Live (.ofPage page) := h.points _ _ hpoint
  obtain ⟨rfl, rfl⟩ := Prod.mk.inj hstep
  refine h.fork hlive hpoint rfl (fun _ hi => hi) (fun _ _ _ => rfl)
    (fun t ht => h.inRange t (ht.resolve_right (by simp [ForkPoint.born]))) h.initState
    (fun t ht => ht) (fun t ht => .inl ht) (fun _ => .inl rfl) (fun t ht => .inl ht)
    (fun t ht => ht.imp_right ?_) (fun t => ?_) (.inl ?_)
    ⟨forked_live_of hlive hchild, .inr rfl⟩ (by simp [ForkPoint.unborn])
  · rintro rfl
    refine ⟨hchild, ?_⟩
    rw [Heap.setNext_next, if_pos rfl]
    exact .inl h.initTask
  · rw [Heap.setNext_next]
    split
    · exact .inr (.inl h.initTask)
    · exact .inl rfl
  · rw [Heap.setNext_prev]

theorem Tidy.wakeChild (h : k.Tidy queued linked) (hlive : k.Live k.sched.current)
    (hpoint : k.forkPoint k.sched.current = some (.store page pid .wake))
    (hstep : k.sched.forkStep args (.store page pid .wake) = (point', s)) :
    (k.forked args (.store page pid .wake) point' s).Tidy queued linked := by
  have hchild : k.Live (.ofPage page) := h.points _ _ hpoint
  obtain ⟨rfl, rfl⟩ := Prod.mk.inj hstep
  refine h.forkSame hlive hpoint rfl rfl (fun _ hi => hi) (fun t _ _ ht => ?_)
    (fun t ht => ?_) ?_ (fun _ => .inl rfl) (fun _ => .inl rfl) (.inl rfl)
    (forked_live_of hlive hchild) (by simp [ForkPoint.unborn])
  · exact modify_task_of_ne _ _ fun heq => ht (heq ▸ hchild)
  · refine (h.inRange t ht).congr ?_ ?_
    · exact modify_field TaskStruct.count k.sched rfl t
    · exact modify_field TaskStruct.priority k.sched rfl t
  · rw [modify_task_of_ne _ _ (by simp)]
    exact h.initState

/-- `list_add` up to its last store. -/
theorem Tidy.queueStore (next : ListPtr) (h : k.Tidy queued linked)
    (hlive : k.Live k.sched.current)
    (hpoint : k.forkPoint k.sched.current = some (.store page pid stage))
    (hstage : stage = .load ∨ stage = .nextPrev next ∨ stage = .newNext next ∨
      stage = .newPrev next)
    (hstep : k.sched.forkStep args (.store page pid stage) = (point', s)) :
    (k.forked args (.store page pid stage) point' s).Tidy queued linked := by
  have hin := h.points _ _ hpoint
  rcases hstage with rfl | rfl | rfl | rfl
  · obtain ⟨rfl, rfl⟩ := Prod.mk.inj hstep
    exact h.linkStore hlive hpoint rfl rfl rfl rfl rfl (fun _ => .inl rfl)
      (fun _ => .inl rfl) (.inl rfl) ⟨forked_live_of hlive hin, h.head⟩
  · obtain ⟨rfl, rfl⟩ := Prod.mk.inj hstep
    refine h.linkStore hlive hpoint rfl rfl rfl rfl rfl (fun x => .inl ?_)
      (fun _ => .inl rfl) (.inl rfl) ⟨forked_live_of hlive hin.1, hin.2⟩
    rw [Heap.setPrev_next]
  · obtain ⟨rfl, rfl⟩ := Prod.mk.inj hstep
    refine h.linkStore hlive hpoint rfl rfl rfl rfl rfl (fun x => ?_)
      (fun _ => .inl rfl) (.inl rfl) ⟨forked_live_of hlive hin.1, ?_⟩
    · rw [Heap.setNext_next]
      split
      · exact .inr hin.2
      · exact .inl rfl
    · simp only [forked, go, Heap.setNext_next, if_pos]
      exact hin.2
  · obtain ⟨rfl, rfl⟩ := Prod.mk.inj hstep
    refine h.linkStore hlive hpoint rfl rfl rfl rfl rfl (fun x => .inl ?_)
      (fun _ => .inl rfl) (.inl rfl) ⟨forked_live_of hlive hin.1, ?_⟩
    · rw [Heap.setPrev_next]
    · simp only [forked, go, Heap.setPrev_next]
      exact hin.2

/-- The last store of `list_add`: from now on the child may be chosen. -/
theorem Tidy.headNext (h : k.Tidy queued linked) (hlive : k.Live k.sched.current)
    (hpoint : k.forkPoint k.sched.current = some (.store page pid (.headNext next)))
    (hstep : k.sched.forkStep args (.store page pid (.headNext next)) = (point', s)) :
    (k.forked args (.store page pid (.headNext next)) point' s).Tidy
      (fun t => queued t ∨ t = .ofPage page) linked := by
  obtain ⟨hchild, hnode⟩ := h.points _ _ hpoint
  obtain ⟨rfl, rfl⟩ := Prod.mk.inj hstep
  refine h.fork hlive hpoint rfl (fun _ hi => hi) (fun _ _ _ => rfl)
    (fun t ht => h.inRange t (ht.resolve_right (by simp [ForkPoint.born]))) h.initState
    (fun t ht => .inl ht) (fun t ht => ht.imp_right ?_) (fun x => ?_) (fun t ht => ht)
    (fun t ht => .inl ht) (fun _ => .inl rfl) (.inl rfl)
    (forked_live_of hlive hchild) (by simp [ForkPoint.unborn])
  · rintro rfl
    refine ⟨hchild, ?_⟩
    rw [Heap.setNext_next, if_neg (by simp)]
    exact hnode.mono fun t ht => .inl ht
  · rw [Heap.setNext_next]
    split
    · exact .inr (.inr rfl)
    · exact .inl rfl

end Store

/-- Every step of `do_fork` keeps the structures tidy when a slot it takes is free. -/
theorem Tidy.forkStep (h : k.Tidy queued linked) (hlive : k.Live k.sched.current)
    (hpoint : k.forkPoint k.sched.current = some point)
    (hfree : ∀ i, point = .claim i → k.sched.memMap i = 0)
    (hstep : k.sched.forkStep args point = (point', s)) :
    ∃ queued' linked', (k.forked args point point' s).Tidy queued' linked' := by
  cases point with
  | scan => exact ⟨_, _, h.scan hlive hpoint hstep⟩
  | claim i => exact ⟨_, _, h.claim hlive hpoint (hfree i rfl) hstep⟩
  | find => exact ⟨_, _, h.find hlive hpoint hstep⟩
  | done page result =>
      obtain ⟨rfl, rfl⟩ := Prod.mk.inj hstep
      exact ⟨_, _, h.linkStore hlive hpoint rfl rfl rfl rfl rfl (fun _ => .inl rfl)
        (fun _ => .inl rfl) (.inl rfl) trivial⟩
  | store page pid stage =>
      cases stage with
      | copyThread => exact ⟨_, _, h.childFields hlive hpoint (.inl rfl) hstep⟩
      | fields => exact ⟨_, _, h.childFields hlive hpoint (.inr (.inl rfl)) hstep⟩
      | count => exact ⟨_, _, h.childFields hlive hpoint (.inr (.inr rfl)) hstep⟩
      | halve => exact ⟨_, _, h.halve hlive hpoint hstep⟩
      | clear => exact ⟨_, _, h.clear hlive hpoint hstep⟩
      | gTask =>
          have hchild : k.Live (.ofPage page) := h.points _ _ hpoint
          obtain ⟨rfl, rfl⟩ := Prod.mk.inj hstep
          exact ⟨_, _, h.linkStore hlive hpoint rfl rfl rfl rfl rfl (fun _ => .inl rfl)
            (fun _ => .inl rfl) (.inl rfl) (forked_live_of hlive hchild)⟩
      | nextTask => exact ⟨_, _, h.nextTask hlive hpoint hstep⟩
      | prevTask => exact ⟨_, _, h.ringStore hlive hpoint (.inl rfl) hstep⟩
      | lastTask => exact ⟨_, _, h.ringStore hlive hpoint (.inr (.inl rfl)) hstep⟩
      | initTask => exact ⟨_, _, h.ringStore hlive hpoint (.inr (.inr rfl)) hstep⟩
      | wake => exact ⟨_, _, h.wakeChild hlive hpoint hstep⟩
      | load =>
          exact ⟨_, _, h.queueStore .rqHead hlive hpoint (.inl rfl) hstep⟩
      | nextPrev => exact ⟨_, _, h.queueStore _ hlive hpoint (.inr (.inl rfl)) hstep⟩
      | newNext => exact ⟨_, _, h.queueStore _ hlive hpoint (.inr (.inr (.inl rfl))) hstep⟩
      | newPrev => exact ⟨_, _, h.queueStore _ hlive hpoint (.inr (.inr (.inr rfl))) hstep⟩
      | headNext => exact ⟨_, _, h.headNext hlive hpoint hstep⟩
      | nrRunning =>
          obtain ⟨rfl, rfl⟩ := Prod.mk.inj hstep
          exact ⟨_, _, h.linkStore hlive hpoint rfl rfl rfl rfl rfl (fun _ => .inl rfl)
            (fun _ => .inl rfl) (.inl rfl) trivial⟩

end Births

end Kernel

end YiOS
