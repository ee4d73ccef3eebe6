import YiOS.Mmu.Live
import YiOS.Sched.Calls
import YiOS.Sched.Runs

namespace YiOS

open YiOS.Library

/-! The scheduler and the page tables: two users of one allocator. -/

namespace Sched

variable {s s' : Sched} {layout : Layout} {pending : Bool}

/-- The words of the kernel's data, of the tasks' pages and of the devices. -/
def Uses (layout : Layout) (s : Sched) (a : U64) : Prop :=
  (a.toNat < lowMemory.toNat ∧ ¬ InPage layout.idmapPgDir a) ∨
    (∃ page, s.Forked (.ofPage page) ∧ InPage page a) ∨ totalMemory.toNat ≤ a.toNat

/-- A page that may hold a table: the root, or one that was given away and is no task's. -/
def TablePage (layout : Layout) (s : Sched) (t : U64) : Prop :=
  t = layout.idmapPgDir ∨ ∃ i : Fin nrPages, i.val < ramPages ∧ t = pageAddr i ∧
    s.memMap i ≠ 0 ∧ ¬ s.Forked (.ofPage (pageAddr i))

/-- Pages stay given away, and a new task lies in a page that was free. -/
structure Grows (s s' : Sched) : Prop where
  used : ∀ {i}, s.memMap i ≠ 0 → s'.memMap i ≠ 0
  forked : ∀ {i}, s.memMap i ≠ 0 → s'.Forked (.ofPage (pageAddr i)) →
    s.Forked (.ofPage (pageAddr i))

theorem Grows.of_same (hgTask : s'.gTask = s.gTask) (hmemMap : s'.memMap = s.memMap) :
    Grows s s' where
  used := by
    intro i hused
    rwa [hmemMap]
  forked := by
    intro i _ hforked
    rwa [Forked, hgTask] at hforked

theorem Grows.fork (s : Sched) (cloneFlags fn arg : U64) :
    Grows s (s.doFork cloneFlags fn arg).2 := by
  obtain ⟨_, hfork⟩ | ⟨i, hfree, ⟨_, hfork⟩ | ⟨pid, _, hslot, hfork⟩⟩ :=
    doFork_cases cloneFlags fn arg s
  · rw [hfork]
    exact .of_same rfl rfl
  · rw [hfork]
    refine ⟨fun {j} hused => ?_, fun _ hforked => hforked⟩
    by_cases hj : j = i
    · simp [hj]
    · simpa [Function.update_of_ne hj] using hused
  · rw [hfork]
    refine ⟨fun {j} hused => ?_, fun {j} hused hforked => ?_⟩
    · have hj : j ≠ i := fun heq => hused (heq ▸ hfree)
      change Function.update s.memMap i 1 j ≠ 0
      rwa [Function.update_of_ne hj]
    · obtain ⟨hinit, k, hk⟩ := hforked
      change Function.update s.gTask pid (some (.ofPage (pageAddr i))) k = _ at hk
      by_cases heq : k = pid
      · rw [heq, Function.update_self, Option.some.injEq, TaskPtr.ofPage.injEq] at hk
        exact absurd hfree (pageAddr_injective hk ▸ hused)
      · rw [Function.update_of_ne heq] at hk
        exact ⟨hinit, k, hk⟩

theorem Outcome.same_pages {caller : Caller} (h : Outcome s caller counts next out) :
    out.gTask = s.gTask ∧ out.memMap = s.memMap := by
  have hchosen := chosen_untouched s caller counts
  cases h with
  | same =>
      have hleave := Frame.leave (s.chosen caller counts) caller
      exact ⟨hleave.gTask.trans hchosen.gTask, hleave.memMap.trans hchosen.memMap⟩
  | fresh => exact ⟨hchosen.gTask, hchosen.memMap⟩
  | resumed =>
      have hleave := Frame.leave ({ s.switched caller counts next with
        nrSwitches := s.nrSwitches + 1
        curr := some next }.scheduleTail) (s.caller next)
      exact ⟨hleave.gTask.trans hchosen.gTask, hleave.memMap.trans hchosen.memMap⟩

theorem Sound.grows (h : s.Sound pending)
    (hstep : SchedStep Sched.Runnable s pending s' pending') : Grows s s' := by
  obtain ⟨⟨queue, ring, hc⟩, hsettled⟩ := h
  cases hstep with
  | fork => exact .fork s _ _ _
  | tick => exact .of_same (tick_frame s).gTask (tick_frame s).memMap
  | call caller fuel stale hrunnable hsome =>
      obtain ⟨_, _, _, hout, _⟩ := hc.call_cases hsettled hrunnable hsome
      exact .of_same hout.same_pages.1 hout.same_pages.2
  | block => exact .of_same rfl rfl
  | wake => exact .of_same rfl rfl

theorem Sound.page (h : s.Sound pending) (hforked : s.Forked p) :
    ∃ i, p = .ofPage (pageAddr i) ∧ s.memMap i ≠ 0 := by
  obtain ⟨⟨queue, ring, hc⟩, _⟩ := h
  exact hc.pages p ((hc.forked p).mpr hforked)

/-- Other pages may be given away in between. -/
theorem Sound.withMemMap (h : s.Sound pending) {memMap : MemMap}
    (hused : ∀ {i}, s.memMap i ≠ 0 → memMap i ≠ 0) :
    Sound { s with memMap := memMap } pending := by
  obtain ⟨⟨queue, ring, hc⟩, hsettled⟩ := h
  refine ⟨⟨queue, ring, { hc with pages := fun p hp => ?_ }⟩, hsettled⟩
  obtain ⟨i, hi, hheld⟩ := hc.pages p hp
  exact ⟨i, hi, hused hheld⟩

theorem TablePage.grows (h : TablePage layout s t) (hgrows : Grows s s') :
    TablePage layout s' t := by
  refine h.imp_right fun ⟨i, hi, ht, hused, hforked⟩ => ?_
  exact ⟨i, hi, ht, hgrows.used hused, fun hforked' => hforked (hgrows.forked hused hforked')⟩

theorem TablePage.not_uses (h : TablePage layout s t) (hlayout : layout.WellFormed)
    (hsound : s.Sound pending) (ha : InPage t a) : ¬ s.Uses layout a := by
  have hram : 536870912 = totalMemory.toNat := by decide
  obtain ⟨k, hk, rfl⟩ := ha
  obtain rfl | ⟨i, hi, rfl, _, hforked⟩ := h
  · have hlow := hlayout.low
    have haddr := hlayout.isPage_idmapPgDir.toNat_slotAddr hk
    rw [pageSize_toNat, lowMemory_toNat] at hlow
    rintro (⟨_, hnot⟩ | ⟨page, hpage, j, hj, heq⟩ | hdevice)
    · exact hnot ⟨k, hk, rfl⟩
    · obtain ⟨n, hn, _⟩ := hsound.page hpage
      rw [TaskPtr.ofPage.injEq] at hn
      subst hn
      have hsame := slotAddr_inj hlayout.isPage_idmapPgDir (isPage_pageAddr n) hk hj heq
      exact hlayout.idmapPgDir_ne n hsame.1
    · omega
  · have hin := (inRam_pageAddr i).mpr hi
    have haddr := (isPage_pageAddr i).toNat_slotAddr hk
    simp only [InRam, totalMemory_toNat, pageSize_toNat, lowMemory_toNat] at hin
    rintro (⟨hlow, _⟩ | ⟨page, hpage, j, hj, heq⟩ | hdevice)
    · rw [lowMemory_toNat] at hlow
      omega
    · obtain ⟨n, hn, _⟩ := hsound.page hpage
      rw [TaskPtr.ofPage.injEq] at hn
      subst hn
      have hsame := (slotAddr_inj (isPage_pageAddr i) (isPage_pageAddr n) hk hj heq).1
      rw [← hsame] at hpage
      exact hforked hpage
    · omega

end Sched

/-- The scheduler and the words of memory; the flag is set once `paging_init` has run. -/
structure System where
  sched : Sched
  pending : Bool
  mem : U64 → U64
  mapped : Bool

/-- Runs from `sched_init` in which `paging_init` is called whenever one likes while there
are enough free pages.  The scheduler, the tasks and the devices write what they please into
the words that are theirs. -/
inductive SystemRun (layout : Layout) (fuel : Nat) : System → Prop
  | start {sched : Sched} :
      sched.Boot → SystemRun layout fuel ⟨sched.schedInit, false, mem, false⟩
  | step {s : System} : SystemRun layout fuel s →
      SchedStep Sched.Runnable s.sched s.pending sched pending →
      (∀ a, ¬ sched.Uses layout a → mem a = s.mem a) →
      SystemRun layout fuel ⟨sched, pending, mem, s.mapped⟩
  | paging {s : System} : SystemRun layout fuel s →
      (places layout.calls).card ≤ s.sched.memMap.freeBelow ramPages →
      pagingInit getFreePage fuel layout ⟨s.mem, s.sched.memMap, []⟩ = some m →
      SystemRun layout fuel ⟨{ s.sched with memMap := m.pool }, s.pending, m.mem, true⟩

namespace System

/-- The tables of the last `paging_init` are whole. -/
structure Kept (layout : Layout) (s : System) : Prop where
  sound : s.sched.Sound s.pending
  tables : s.mapped = true → ∃ tbl, Tree layout.idmapPgDir s.mem tbl ∧
    IdentityMapped layout s.mem ∧
    ∀ {l n t}, tbl l n = some t → s.sched.TablePage layout t

variable {layout : Layout} {fuel : Nat} {s : System} {m : Machine MemMap}

/-- `paging_init` takes pages of its own. -/
theorem Kept.paging (h : s.Kept layout) (hlayout : layout.WellFormed) (hfuel : 512 ≤ fuel)
    (hroom : (places layout.calls).card ≤ s.sched.memMap.freeBelow ramPages) :
    ∃ m, pagingInit getFreePage fuel layout ⟨s.mem, s.sched.memMap, []⟩ = some m ∧
      Kept layout ⟨{ s.sched with memMap := m.pool }, s.pending, m.mem, true⟩ ∧
      ∀ a, s.sched.Uses layout a → m.mem a = s.mem a := by
  obtain ⟨m, tbl, hrun, hbuilt, hmapped, hused, htables, hframe⟩ :=
    pagingInit_live hlayout hfuel s.mem hroom
  have hsound := h.sound.withMemMap hused
  have hpage : ∀ {l n t}, tbl l n = some t →
      Sched.TablePage layout { s.sched with memMap := m.pool } t := by
    intro l n t ht
    refine (htables ht).imp_right fun ⟨i, hi, heq, hfree, hheld⟩ => ?_
    refine ⟨i, hi, heq, hheld, fun hforked => ?_⟩
    obtain ⟨j, hj, hjused⟩ := h.sound.page hforked
    rw [TaskPtr.ofPage.injEq] at hj
    exact hjused (pageAddr_injective hj ▸ hfree)
  refine ⟨m, hrun, ⟨hsound, fun _ => ⟨tbl, hbuilt.tree, hmapped, hpage⟩⟩, fun a ha => ?_⟩
  refine hframe a fun l n t ht hin => ?_
  exact (hpage ht).not_uses hlayout hsound hin ha

theorem Kept.step {sched' : Sched} {mem' : U64 → U64} (h : s.Kept layout)
    (hlayout : layout.WellFormed)
    (hstep : SchedStep Sched.Runnable s.sched s.pending sched' pending')
    (hmem : ∀ a, ¬ sched'.Uses layout a → mem' a = s.mem a) :
    Kept layout ⟨sched', pending', mem', s.mapped⟩ where
  sound := h.sound.step hstep
  tables := by
    intro hmapped
    obtain ⟨tbl, htree, hidentity, htables⟩ := h.tables hmapped
    have hpage : ∀ {l n t}, tbl l n = some t → sched'.TablePage layout t :=
      fun ht => (htables ht).grows (h.sound.grows hstep)
    have hsame : ∀ l n t, tbl l n = some t → ∀ i < 512,
        mem' (slotAddr t i) = s.mem (slotAddr t i) := by
      intro l n t ht i hi
      apply hmem
      exact (hpage ht).not_uses hlayout (h.sound.step hstep) ⟨i, hi, rfl⟩
    exact ⟨tbl, htree.frame hsame, htree.identityMapped_frame hsame hidentity, hpage⟩

end System

theorem SystemRun.kept {layout : Layout} {s : System} (h : SystemRun layout fuel s)
    (hlayout : layout.WellFormed) (hfuel : 512 ≤ fuel) : s.Kept layout := by
  induction h with
  | start hboot =>
      exact ⟨⟨⟨[], [], hboot.coherent⟩, hboot.settled⟩,
        fun hmapped => absurd hmapped Bool.false_ne_true⟩
  | step _ hstep hmem ih => exact ih.step hlayout hstep hmem
  | paging _ hroom hrun ih =>
      obtain ⟨m, hrun', hkept, _⟩ := ih.paging hlayout hfuel hroom
      obtain rfl := Option.some.inj (hrun'.symm.trans hrun)
      exact hkept

end YiOS
