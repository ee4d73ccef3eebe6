import YiOS.Sched.Race

namespace YiOS

open YiOS.Library

/-! What becomes of two forks, for every place where the first can be preempted. -/

namespace Sched

theorem Lowest.unique {n : Nat} {Free : Fin n → Prop} {k k' : Fin n} (h : Lowest Free k)
    (h' : Lowest Free k') : k = k' := by
  rcases lt_trichotomy k k' with hlt | heq | hgt
  · exact absurd h.free (h'.least k hlt)
  · exact heq
  · exact absurd h'.free (h.least k' hgt)

def Pair {n : Nat} (Free : Fin n → Prop) : Prop := ∃ i j, i ≠ j ∧ Free i ∧ Free j

theorem not_pair {n : Nat} {Free : Fin n → Prop} {k : Fin n} (h : ∀ j, j ≠ k → ¬ Free j) :
    ¬ Pair Free := by
  rintro ⟨i, j, hne, hi, hj⟩
  by_cases hik : i = k
  · exact h j (fun hjk => hne (hik.trans hjk.symm)) hj
  · exact h i hik hi

structure Spare (s : Sched) : Prop where
  pages : Pair fun i => s.memMap i = 0
  slots : Pair fun i => s.gTask i = none

theorem Merged.spare {s out : Sched} (h : Merged s stage k k' pid pid' out) : Spare s :=
  ⟨⟨k, k', h.pages, h.page, h.page'⟩, ⟨pid, pid', h.pids, h.slot, h.slot'⟩⟩

theorem Placed.result_ne {s : Sched} (h : s.Placed (page, result)) : result ≠ -1 := by
  obtain ⟨pid, hpid, _⟩ := h.gTask
  simp only at hpid
  omega

section Update

variable {memMap : MemMap} {gTask : Fin nrTask → Option TaskPtr} {t : TaskPtr}

theorem page_free_of_update {k k' : Fin nrPages} (h : Function.update memMap k 1 k' = 0) :
    k' ≠ k ∧ memMap k' = 0 := by
  by_cases heq : k' = k
  · subst heq
    simp at h
  · exact ⟨heq, by rwa [Function.update_of_ne heq] at h⟩

theorem not_pair_pages {k : Fin nrPages} (h : ∀ j, Function.update memMap k 1 j ≠ 0) :
    ¬ Pair fun i => memMap i = 0 :=
  not_pair fun j hj hfree => h j (by rwa [Function.update_of_ne hj])

theorem slot_free_of_update {pid pid' : Fin nrTask}
    (h : Function.update gTask pid (some t) pid' = none) :
    pid' ≠ pid ∧ gTask pid' = none := by
  by_cases heq : pid' = pid
  · subst heq
    simp at h
  · exact ⟨heq, by rwa [Function.update_of_ne heq] at h⟩

theorem not_pair_slots {pid : Fin nrTask}
    (h : ∀ j, Function.update gTask pid (some t) j ≠ none) :
    ¬ Pair fun i => gTask i = none :=
  not_pair fun j hj hfree => h j (by rwa [Function.update_of_ne hj])

end Update

section Race

variable {s during middle after out : Sched} {pending : Bool} {queue ring : List TaskPtr}
  {page page' : U64} {result result' : Int}

theorem scan_progress (hbelow : ∀ j : Fin nrPages, j.val < i → s.memMap j ≠ 0)
    (hi : i ≤ nrPages) (h : ForkReaches args (.scan i, s) (.done page result, out)) :
    ForkProgress s (.done page result) out := by
  obtain ⟨rfl, rfl, rfl⟩ := h.done_unique (doFork_reaches args hbelow hi)
  exact (doFork_reaches args (i := 0) (fun j hj => absurd hj (by omega)) (Nat.zero_le _)).progress

/-- A fork gives no page back. -/
theorem ForkProgress.used (h : ForkProgress s (.done page result) out)
    (hused : s.memMap j ≠ 0) : out.memMap j ≠ 0 := by
  have hupdate : ∀ k, Function.update s.memMap k 1 j ≠ 0 := fun k hfree =>
    hused (page_free_of_update hfree).2
  cases h with
  | noPage => exact hused
  | noSlot => exact hupdate _
  | forked _ _ hmem => exact hmem ▸ hupdate _

/-- Preempted in the scan of `mem_map`, the first fork comes second. -/
theorem race_scan (hc : Coherent s pending queue ring) (hduring : Undisturbed s during)
    (hsecond : ForkProgress during (.done page' result') middle)
    (hafter : Undisturbed middle after) (hfirst : ForkProgress after (.done page result) out) :
    BothForked out (page, result) (page', result') ↔ Spare s := by
  cases hsecond with
  | noPage hused =>
      rw [hduring.memMap] at hused
      refine iff_of_false (fun hboth => hboth.second.result_ne rfl) fun hspare => ?_
      obtain ⟨i, _, _, hi, _⟩ := hspare.pages
      exact hused i hi
  | noSlot _ hused =>
      rw [hduring.gTask] at hused
      refine iff_of_false (fun hboth => hboth.second.result_ne rfl) fun hspare => ?_
      obtain ⟨i, _, _, hi, _⟩ := hspare.slots
      exact hused i hi
  | @forked k' pid' _ hpage' hslot' hmem' hgTask' hlinks' hlist' hnr' =>
      rw [← hafter.memMap, hduring.memMap] at hmem'
      rw [← hafter.gTask, hduring.gTask] at hgTask'
      have hfree' := hpage'.free
      have hslotFree' := hslot'.free
      rw [hduring.memMap] at hfree'
      rw [hduring.gTask] at hslotFree'
      cases hfirst with
      | noPage hused =>
          rw [hmem'] at hused
          exact iff_of_false (fun hboth => hboth.first.result_ne rfl) fun hspare =>
            not_pair_pages hused hspare.pages
      | noSlot _ hused =>
          rw [hgTask'] at hused
          exact iff_of_false (fun hboth => hboth.first.result_ne rfl) fun hspare =>
            not_pair_slots hused hspare.slots
      | @forked k pid _ hpage hslot hmem hgTask hlinks hlist hnr =>
          have hfree := hpage.free
          have hslotFree := hslot.free
          rw [hmem'] at hfree
          rw [hgTask'] at hslotFree
          obtain ⟨hne, hfree⟩ := page_free_of_update hfree
          obtain ⟨hpids, hslotFree⟩ := slot_free_of_update hslotFree
          have hmerged : Merged s .copyThread k k' pid pid' out :=
            { page := hfree
              page' := hfree'
              pages := hne
              slot := hslotFree
              slot' := hslotFree'
              pids := hpids
              gTask := by rw [hgTask, Function.update_self]
              gTask' := by
                rw [hgTask, Function.update_of_ne hpids.symm, hgTask', Function.update_self]
              links := by
                rw [hlinks, hafter.links, hlinks', hduring.links]
                rfl
              list := by
                rw [hlist, hafter.list, hlist', hduring.list]
                rfl
              loaded := trivial
              nrRunning := by rw [hnr, hafter.nrRunning, hnr', hduring.nrRunning] }
          refine iff_of_true (hmerged.bothForked hc ?_ ?_ ?_) hmerged.spare
          · simp
          · simp
          · simp

/-- Preempted before the store to `mem_map`, it shares its page. -/
theorem race_claim (hpage : Lowest (fun j => s.memMap j = 0) k)
    (hduring : Undisturbed s during)
    (hsecond : ForkProgress during (.done page' result') middle)
    (hfirst : ForkReaches args (.claim k, after) (.done page result, out)) :
    ¬ BothForked out (page, result) (page', result') := by
  intro hboth
  have hclaimed : page = pageAddr k := by
    rcases find_done args
      (s := { after with memMap := Function.update after.memMap k 1 }) (pageAddr k)
      (fun j hj => absurd hj (by omega)) (Nat.zero_le _) with ⟨_, hdone⟩ | ⟨_, _, hdone⟩
    · exact (hfirst.done_unique (.head rfl hdone)).1
    · exact (hfirst.done_unique (.head rfl hdone)).1
  cases hsecond with
  | noPage => exact hboth.second.result_ne rfl
  | noSlot => exact hboth.second.result_ne rfl
  | forked hpage' =>
      rw [hduring.memMap] at hpage'
      refine hboth.pages ?_
      simp only [hclaimed, hpage.unique hpage']

/-- Preempted in the search of `g_task`, it comes second again. -/
theorem race_find (hc : Coherent s pending queue ring)
    (hpage : Lowest (fun j => s.memMap j = 0) k)
    (hbelow : ∀ j : Fin nrTask, j.val < i → s.gTask j ≠ none) (hi : i ≤ nrTask)
    (hduring : Undisturbed { s with memMap := Function.update s.memMap k 1 } during)
    (hsecond : ForkProgress during (.done page' result') middle)
    (hafter : Undisturbed middle after)
    (hfirst : ForkReaches args (.find (pageAddr k) i, after) (.done page result, out)) :
    BothForked out (page, result) (page', result') ↔ Spare s := by
  cases hsecond with
  | noPage hused =>
      rw [hduring.memMap] at hused
      exact iff_of_false (fun hboth => hboth.second.result_ne rfl) fun hspare =>
        not_pair_pages hused hspare.pages
  | noSlot _ hused =>
      rw [hduring.gTask] at hused
      refine iff_of_false (fun hboth => hboth.second.result_ne rfl) fun hspare => ?_
      obtain ⟨i, _, _, hi, _⟩ := hspare.slots
      exact hused i hi
  | @forked k' pid' _ hpage' hslot' _ hgTask' hlinks' hlist' hnr' =>
      rw [← hafter.gTask, hduring.gTask] at hgTask'
      have hfree' := hpage'.free
      have hslotFree' : s.gTask pid' = none := by
        have hslotFree' := hslot'.free
        rwa [hduring.gTask] at hslotFree'
      rw [hduring.memMap] at hfree'
      obtain ⟨hne, hfree'⟩ := page_free_of_update hfree'
      have hstill : ∀ j : Fin nrTask, j.val < i → after.gTask j ≠ none := by
        intro j hj hnone
        rw [hgTask'] at hnone
        exact hbelow j hj (slot_free_of_update hnone).2
      rcases find_done args (pageAddr k) hstill hi with ⟨hfind, hdone⟩ | ⟨pid, hfind, hdone⟩
      · obtain ⟨rfl, rfl, rfl⟩ := hfirst.done_unique hdone
        have hused := findEmptyTask_none hfind
        rw [hgTask'] at hused
        exact iff_of_false (fun hboth => hboth.first.result_ne rfl) fun hspare =>
          not_pair_slots hused hspare.slots
      · obtain ⟨rfl, rfl, rfl⟩ := hfirst.done_unique hdone
        have hslotFree := findEmptyTask_some hfind
        rw [hgTask'] at hslotFree
        obtain ⟨hpids, hslotFree⟩ := slot_free_of_update hslotFree
        have hmerged : Merged s .copyThread k k' pid pid'
            (after.forkChild args.cloneFlags (pageAddr k) args.fn args.arg pid) :=
          { page := hpage.free
            page' := hfree'
            pages := hne.symm
            slot := hslotFree
            slot' := hslotFree'
            pids := hpids
            gTask := Function.update_self ..
            gTask' := by
              refine (Function.update_of_ne hpids.symm ..).trans ?_
              change after.gTask pid' = _
              rw [hgTask', Function.update_self]
            links := by
              change setLinks _ after.links = _
              rw [hafter.links, hlinks', hduring.links]
              rfl
            list := by
              change listAdd after.list _ _ = _
              rw [hafter.list, hlist', hduring.list]
              rfl
            loaded := trivial
            nrRunning := by
              change after.nrRunning + 1 = _
              rw [hafter.nrRunning, hnr', hduring.nrRunning] }
        refine iff_of_true (hmerged.bothForked hc ?_ ?_ ?_) hmerged.spare
        · simp
        · simp
        · simp

/-- Preempted before the store to `g_task`, it shares its pid. -/
theorem race_searched (hslot : Lowest (fun j => s.gTask j = none) pid)
    (hduring : during.gTask = s.gTask)
    (hsecond : ForkProgress during (.done page' result') middle)
    (hfirst : ForkReaches args (.store (pageAddr k) pid stage, after)
      (.done page result, out)) :
    ¬ BothForked out (page, result) (page', result') := by
  intro hboth
  obtain ⟨_, hdone, _⟩ := storeRest_reaches args after (pageAddr k) pid stage
  obtain ⟨_, hresult, _⟩ := hfirst.done_unique hdone
  cases hsecond with
  | noPage => exact hboth.second.result_ne rfl
  | noSlot => exact hboth.second.result_ne rfl
  | forked _ hslot' =>
      rw [hduring] at hslot'
      refine hboth.pids ?_
      simp only [hresult, hslot.unique hslot']

/-- With a page and a pid of its own, it is as exposed as its stage. -/
theorem race_store (stage : ForkStage) (hc : Coherent s pending queue ring)
    (hsearched : stage.Searched = false)
    (hpage : s.memMap k = 0) (hslot : s.gTask pid = none)
    (hduring : during.memMap = Function.update s.memMap k 1 ∧
      during.gTask = Function.update s.gTask pid (some (.ofPage (pageAddr k))) ∧
      during.links = stage.ring s.links (.ofPage (pageAddr k)) ∧
      during.list = stage.queue s.list (.runList (.ofPage (pageAddr k))) ∧
      stage.Loaded s.list)
    (hsecond : ForkProgress during (.done page' result') middle)
    (hout : out.gTask = middle.gTask ∧
      out.links = stage.ringRest middle.links (.ofPage (pageAddr k)) ∧
      out.list = stage.queueRest middle.list (.runList (.ofPage (pageAddr k))) ∧
      out.nrRunning + during.nrRunning = middle.nrRunning + s.nrRunning + 1) :
    BothForked out (pageAddr k, pid.val) (page', result') ↔
      stage.Exposed = false ∧ Spare s := by
  obtain ⟨hmem, hgTask, hlinks, hlist, hloaded⟩ := hduring
  obtain ⟨hgTaskOut, hlinksOut, hlistOut, hnrOut⟩ := hout
  cases hsecond with
  | noPage hused =>
      rw [hmem] at hused
      exact iff_of_false (fun hboth => hboth.second.result_ne rfl) fun hspare =>
        not_pair_pages hused hspare.2.pages
  | noSlot _ hused =>
      rw [hgTask] at hused
      exact iff_of_false (fun hboth => hboth.second.result_ne rfl) fun hspare =>
        not_pair_slots hused hspare.2.slots
  | @forked k' pid' _ hpage' hslot' _ hgTask' hlinks' hlist' hnr' =>
      have hfree' := hpage'.free
      have hslotFree' := hslot'.free
      rw [hmem] at hfree'
      rw [hgTask] at hslotFree'
      obtain ⟨hne, hfree'⟩ := page_free_of_update hfree'
      obtain ⟨hpids, hslotFree'⟩ := slot_free_of_update hslotFree'
      have hmerged : Merged s stage k k' pid pid' out :=
        { page := hpage
          page' := hfree'
          pages := hne.symm
          slot := hslot
          slot' := hslotFree'
          pids := hpids.symm
          gTask := by
            rw [hgTaskOut, hgTask', Function.update_of_ne hpids.symm, hgTask,
              Function.update_self]
          gTask' := by rw [hgTaskOut, hgTask', Function.update_self]
          links := by rw [hlinksOut, hlinks', hlinks]
          list := by rw [hlistOut, hlist', hlist]
          loaded := hloaded
          nrRunning := by
            rw [hnr'] at hnrOut
            bv_omega }
      rw [hmerged.bothForked_iff hc hsearched, and_iff_left hmerged.spare]

/-- Where a fork is preempted decides whether both get through. -/
theorem ForkRace.bothForked_iff (hc : Coherent s pending queue ring)
    (h : ForkRace s point first second out) :
    BothForked out first second ↔ point.Exposed = false ∧ Spare s := by
  cases h with
  | @intro args args' page' result' page result before during middle after _ hbefore hduring
      hsecond hafter hfirst =>
      have hsecond := hsecond.progress
      cases hbefore.progress with
      | @scan i hbelow hi =>
          have hstill : ∀ j : Fin nrPages, j.val < i → after.memMap j ≠ 0 := by
            intro j hj
            rw [hafter.memMap]
            refine hsecond.used ?_
            rw [hduring.memMap]
            exact hbelow j hj
          rw [race_scan hc hduring hsecond hafter (scan_progress hstill hi hfirst)]
          exact (and_iff_right rfl).symm
      | claim hpage =>
          exact iff_of_false (race_claim hpage hduring hsecond hfirst)
            (by simp [ForkPoint.Exposed])
      | find hpage hbelow hi =>
          rw [race_find hc hpage hbelow hi hduring hsecond hafter hfirst]
          exact (and_iff_right rfl).symm
      | @store k pid stage _ hpage hslot hmem hgTask hlinks hlist hloaded hnr =>
          obtain ⟨_, hdone, hrest⟩ := storeRest_reaches args after (pageAddr k) pid stage
          cases hsearched : stage.Searched with
          | true =>
              have hsame : during.gTask = s.gTask := by
                rw [hduring.gTask, hgTask, ForkStage.slots_of_searched hsearched]
              refine iff_of_false (race_searched hslot hsame hsecond hfirst) fun hsafe => ?_
              exact absurd hsafe.1
                (by simp [ForkPoint.Exposed, ForkStage.exposed_of_searched hsearched])
          | false =>
              obtain ⟨rfl, rfl, rfl⟩ := hfirst.done_unique hdone
              refine race_store stage hc hsearched hpage.free hslot.free
                ⟨?_, ?_, ?_, ?_, hloaded⟩ hsecond
                ⟨?_, ?_, ?_, ?_⟩
              · rw [hduring.memMap, hmem]
              · rw [hduring.gTask, hgTask, ForkStage.slots_of_not_searched hsearched]
              · rw [hduring.links, hlinks]
              · rw [hduring.list, hlist]
              · rw [hrest.gTask, ForkStage.slotsRest_of_not_searched hsearched,
                  hafter.gTask]
              · rw [hrest.links, hafter.links]
              · rw [hrest.list, hafter.list]
              · rw [hrest.nrRunning, hafter.nrRunning, hduring.nrRunning, hnr]
                bv_omega
      | noPage hused =>
          obtain ⟨rfl, rfl, rfl⟩ := hfirst.done_unique (.refl _)
          refine iff_of_false (fun hboth => hboth.first.result_ne rfl) fun hspare => ?_
          obtain ⟨i, _, _, hi, _⟩ := hspare.2.pages
          exact hused i hi
      | noSlot hpage hused =>
          obtain ⟨rfl, rfl, rfl⟩ := hfirst.done_unique (.refl _)
          refine iff_of_false (fun hboth => hboth.first.result_ne rfl) fun hspare => ?_
          obtain ⟨i, _, _, hi, _⟩ := hspare.2.slots
          exact hused i hi
      | @forked k pid _ hpage hslot hmem hgTask hlinks hlist hnr =>
          obtain ⟨rfl, rfl, rfl⟩ := hfirst.done_unique (.refl _)
          -- A fork that is back stands where only the counter is left, and has counted.
          refine race_store .nrRunning hc rfl hpage.free hslot.free
            ⟨?_, ?_, ?_, ?_, trivial⟩ hsecond ⟨?_, ?_, ?_, ?_⟩
          · rw [hduring.memMap, hmem]
          · rw [hduring.gTask, hgTask]
          · rw [hduring.links, hlinks]
            rfl
          · rw [hduring.list, hlist]
            rfl
          · rw [hafter.gTask]
          · rw [hafter.links]
            rfl
          · rw [hafter.list]
            rfl
          · rw [hafter.nrRunning, hduring.nrRunning, hnr]
            bv_omega

end Race

end Sched

/-- From every state of a run whose calls all find a runnable task, and wherever the first
fork is preempted, both forks get through exactly when that place is not between a test and
the store that acts on it and there are two pages and two slots. -/
theorem forkRace_bothForked_iff {s out : Sched} (h : SchedRun Sched.Runnable s pending)
    (hrace : Sched.ForkRace s point first second out) :
    Sched.BothForked out first second ↔ point.Exposed = false ∧ s.Spare := by
  obtain ⟨⟨queue, ring, hc⟩, _⟩ := h.coherent
  exact hrace.bothForked_iff hc

namespace Sched

/-- A fork that is preempted at any place it reaches can go on to its end. -/
theorem exists_race {s before : Sched} (hbefore : ForkReaches args (.scan 0, s) (point, before))
    (hend : ∀ s', ∃ page result out,
      ForkReaches args (point, s') (.done page result, out)) (current : TaskPtr) :
    ∃ first second out, ForkRace s point first second out := by
  let during : Sched := { before with current := current }
  have hduring : Undisturbed before during := ⟨rfl, rfl, rfl, rfl, rfl⟩
  have hsecond := doFork_reaches args (s := during) (i := 0)
    (fun j hj => absurd hj (by omega)) (Nat.zero_le _)
  obtain ⟨page, result, out, hfirst⟩ :=
    hend (during.doFork args.cloneFlags args.fn args.arg).2
  exact ⟨_, _, out, .intro hbefore hduring hsecond ⟨rfl, rfl, rfl, rfl, rfl⟩ hfirst⟩

end Sched

/-- Two threads have been forked and the first one runs. -/
theorem twoThreads : ∃ s, SchedRun Sched.Runnable s false ∧ s.current = firstTask ∧
    s.Forked secondTask ∧ s.Spare := by
  let args : ForkArgs := ⟨pfKthread, 0x80000, 0⟩
  let s := (firstFork.doFork args.cloneFlags args.fn args.arg).2
  have hruns : (s.schedule 4 firstTask).map (fun s =>
      ((s.current, s.gTask ⟨2, by decide⟩),
        (s.gTask ⟨3, by decide⟩, s.gTask ⟨4, by decide⟩),
        (s.memMap ⟨2, by decide⟩, s.memMap ⟨3, by decide⟩))) =
      some ((firstTask, some secondTask), (none, none), (0, 0)) := by decide +kernel
  have hforked : s.Forked firstTask :=
    ⟨by simp [firstTask], ⟨1, by decide⟩, by decide +kernel⟩
  have hrunnable : s.Runnable := ⟨firstTask, hforked, by decide +kernel⟩
  have hrun : SchedRun Sched.Runnable s false := .fork (firstFork_run _)
  simp only [Option.map_eq_some_iff, Prod.mk.injEq] at hruns
  obtain ⟨s', hsome, ⟨hcurrent, hsecond⟩, ⟨hthree, hfour⟩, hpageTwo, hpageThree⟩ := hruns
  exact ⟨s', hrun.schedule hrunnable hsome, hcurrent, ⟨by simp [secondTask], _, hsecond⟩,
    ⟨⟨_, _, by simp, hpageTwo, hpageThree⟩, ⟨_, _, by simp, hthree, hfour⟩⟩⟩

/-- With a page and a slot to spare a fork comes to its stores. -/
theorem Sched.Spare.store_reaches {s : Sched} (h : s.Spare) (args : ForkArgs) :
    ∃ k pid, Sched.ForkReaches args (.scan 0, s)
      (.store (pageAddr k) pid .copyThread,
        { s with memMap := Function.update s.memMap k 1 }) := by
  obtain ⟨⟨i, _, _, hi, _⟩, ⟨j, _, _, hj, _⟩⟩ := h
  rcases getFreePage_cases s.memMap with ⟨k, hfree, hleast, _⟩ | ⟨hused, _⟩
  · have hclaim := Sched.scan_reaches args k hfree k.val 0 (Nat.zero_add _)
      fun j _ hj => hleast j hj
    cases hslot : ({ s with memMap := Function.update s.memMap k 1 } : Sched).findEmptyTask with
    | none => exact absurd hj (Sched.findEmptyTask_none hslot j)
    | some pid =>
        have hfind := Sched.find_reaches args (pageAddr k) pid
          (Sched.findEmptyTask_some hslot)
          pid.val 0 (Nat.zero_add _) fun j _ hj => Sched.findEmptyTask_least hslot j hj
        exact ⟨k, pid, hclaim.trans (.head rfl hfind)⟩
  · exact absurd hi (hused i)

/-- The first thread is preempted when its child has a slot and is in the ring but not on
the queue: both forks get through. -/
theorem forkRace_bothForked_iff_twoThreads :
    ∃ s page pid first second out, SchedRun Sched.Runnable s false ∧
      Sched.ForkRace s (.store page pid .load) first second out ∧
      Sched.BothForked out first second := by
  obtain ⟨s, hrun, _, _, hspare⟩ := twoThreads
  let args : ForkArgs := ⟨pfKthread, 0x80000, 0⟩
  obtain ⟨k, pid, hsearched⟩ := hspare.store_reaches args
  have hlinked : Sched.ForkReaches args (.scan 0, s) (.store (pageAddr k) pid .load, _) :=
    hsearched.trans ⟨11, rfl⟩
  obtain ⟨first, second, out, hrace⟩ := Sched.exists_race hlinked
    (fun s' => ⟨_, _, (Sched.storeRest_reaches args s' (pageAddr k) pid .load).imp
      fun _ h => h.1⟩) secondTask
  exact ⟨s, _, pid, first, second, out, hrun, hrace,
    (forkRace_bothForked_iff hrun hrace).mpr ⟨rfl, hspare⟩⟩

/-- The first thread is preempted before it takes the page it has found free, and the second
thread takes it. -/
theorem forkRace_not_bothForked :
    ¬ ∀ s pending point first second out, SchedRun Sched.Runnable s pending → s.Spare →
      s.current = firstTask → s.Forked secondTask →
      Sched.ForkRace s point first second out → Sched.BothForked out first second := by
  intro hall
  obtain ⟨s, hrun, hcurrent, hforked, hspare⟩ := twoThreads
  obtain ⟨⟨queue, ring, hc⟩, _⟩ := hrun.coherent
  let args : ForkArgs := ⟨pfKthread, 0x80000, 0⟩
  obtain ⟨i, _, _, hi, _⟩ := hspare.pages
  rcases getFreePage_cases s.memMap with ⟨k, hfree, hleast, _⟩ | ⟨hused, _⟩
  · have hclaim := Sched.scan_reaches args k hfree k.val 0 (Nat.zero_add _)
      fun j _ hj => hleast j hj
    have hend : ∀ s', ∃ page result out,
        Sched.ForkReaches args (.claim k, s') (.done page result, out) := by
      intro s'
      rcases Sched.find_done args
        (s := { s' with memMap := Function.update s'.memMap k 1 }) (pageAddr k)
        (fun j hj => absurd hj (by omega)) (Nat.zero_le _) with ⟨_, hdone⟩ | ⟨_, _, hdone⟩
      · exact ⟨_, _, _, .head rfl hdone⟩
      · exact ⟨_, _, _, .head rfl hdone⟩
    obtain ⟨first, second, out, hrace⟩ := Sched.exists_race hclaim hend secondTask
    have hboth := hall s false _ first second out hrun hspare hcurrent hforked hrace
    exact absurd ((hrace.bothForked_iff hc).mp hboth).1 (by simp [ForkPoint.Exposed])
  · exact hused i hi

end YiOS
