import YiOS.PageAlloc

namespace YiOS

/-! Whole runs of the page allocator. -/

/-- Runs in which `free_page` only gets pages that are held.  The list is the
pages returned by `get_free_page` and not freed since. -/
inductive PageRun : MemMap → List U64 → Prop
  | init : PageRun .empty []
  | exhausted : PageRun memMap held → (getFreePage memMap).1 = 0 →
      PageRun (getFreePage memMap).2 held
  | get : PageRun memMap held → (getFreePage memMap).1 ≠ 0 →
      PageRun (getFreePage memMap).2 ((getFreePage memMap).1 :: held)
  | free : PageRun memMap held → p ∈ held → freePage p memMap = some memMap' →
      PageRun memMap' (held.erase p)

/-- The held pages are the slots that hold a one. -/
structure Holds (memMap : MemMap) (held : List U64) : Prop where
  nodup : held.Nodup
  binary : ∀ i, memMap i = 0 ∨ memMap i = 1
  mem_iff : ∀ p, p ∈ held ↔ ∃ i, memMap i = 1 ∧ p = pageAddr i

namespace Holds

theorem empty : Holds .empty [] where
  nodup := List.nodup_nil
  binary := fun _ => .inl rfl
  mem_iff := by simp [MemMap.empty]

theorem pageAddr_mem (h : Holds memMap held) (i : Fin nrPages) :
    pageAddr i ∈ held ↔ memMap i = 1 := by
  rw [h.mem_iff]
  constructor
  · rintro ⟨j, hj, heq⟩
    exact pageAddr_injective heq ▸ hj
  · exact fun hi => ⟨i, hi, rfl⟩

theorem claim (h : Holds memMap held) (hfree : memMap i = 0) :
    Holds (Function.update memMap i 1) (pageAddr i :: held) where
  nodup := by
    refine List.nodup_cons.mpr ⟨?_, h.nodup⟩
    rw [h.pageAddr_mem, hfree]
    decide
  binary := by
    intro j
    by_cases hj : j = i
    · exact .inr (by rw [hj, Function.update_self])
    · rw [Function.update_of_ne hj]
      exact h.binary j
  mem_iff := by
    intro p
    rw [List.mem_cons, h.mem_iff]
    constructor
    · rintro (rfl | ⟨j, hj, rfl⟩)
      · exact ⟨i, Function.update_self .., rfl⟩
      · have hne : j ≠ i := by
          rintro rfl
          rw [hfree] at hj
          exact absurd hj (by decide)
        exact ⟨j, by rw [Function.update_of_ne hne, hj], rfl⟩
    · rintro ⟨j, hj, rfl⟩
      by_cases hne : j = i
      · exact .inl (congrArg pageAddr hne)
      · rw [Function.update_of_ne hne] at hj
        exact .inr ⟨j, hj, rfl⟩

theorem release (h : Holds memMap held) (i : Fin nrPages) :
    Holds (Function.update memMap i 0) (held.erase (pageAddr i)) where
  nodup := h.nodup.erase _
  binary := by
    intro j
    by_cases hj : j = i
    · exact .inl (by rw [hj, Function.update_self])
    · rw [Function.update_of_ne hj]
      exact h.binary j
  mem_iff := by
    intro p
    rw [h.nodup.mem_erase_iff, h.mem_iff]
    constructor
    · rintro ⟨hne, j, hj, rfl⟩
      have hji : j ≠ i := fun heq => hne (congrArg pageAddr heq)
      exact ⟨j, by rw [Function.update_of_ne hji, hj], rfl⟩
    · rintro ⟨j, hj, rfl⟩
      have hji : j ≠ i := by
        rintro rfl
        rw [Function.update_self] at hj
        exact absurd hj (by decide)
      rw [Function.update_of_ne hji] at hj
      exact ⟨fun heq => hji (pageAddr_injective heq), j, hj, rfl⟩

/-- A full map holds one page per slot, and only a full map does. -/
theorem length_eq_iff (h : Holds memMap held) :
    held.length = nrPages ↔ ∀ i, memMap i ≠ 0 := by
  have hset : held.toFinset =
      (Finset.univ.filter fun i => memMap i = 1).image pageAddr := by
    ext p
    simp [h.mem_iff, eq_comm]
  have hcard : held.length = (Finset.univ.filter fun i => memMap i = 1).card := by
    rw [← List.toFinset_card_of_nodup h.nodup, hset,
      Finset.card_image_of_injective _ pageAddr_injective]
  have huniv : (Finset.univ : Finset (Fin nrPages)).card = nrPages :=
    Finset.card_fin nrPages
  constructor
  · intro hlength i hzero
    have hone := Finset.card_filter_eq_iff.mp
      (hcard.symm.trans (hlength.trans huniv.symm)) i (Finset.mem_univ i)
    rw [hzero] at hone
    exact absurd hone (by decide)
  · intro hused
    have hones : (Finset.univ.filter fun i => memMap i = 1).card =
        (Finset.univ : Finset (Fin nrPages)).card :=
      Finset.card_filter_eq_iff.mpr fun i _ =>
        (h.binary i).resolve_left (hused i)
    exact hcard.trans (hones.trans huniv)

end Holds

theorem PageRun.holds (h : PageRun memMap held) : Holds memMap held := by
  induction h with
  | init => exact .empty
  | exhausted _ hzero ih =>
      obtain ⟨i, _, _, hget⟩ | ⟨_, hget⟩ := getFreePage_cases _
      · rw [hget] at hzero
        exact absurd hzero (pageAddr_ne_zero i)
      · rwa [hget]
  | get _ hne ih =>
      obtain ⟨i, hfree, _, hget⟩ | ⟨_, hget⟩ := getFreePage_cases _
      · rw [hget]
        exact ih.claim hfree
      · rw [hget] at hne
        exact absurd rfl hne
  | free _ hmem hfree ih =>
      obtain ⟨i, _, rfl⟩ := (ih.mem_iff _).mp hmem
      rw [freePage_pageAddr] at hfree
      cases hfree
      exact ih.release i

/-- The allocator over whole runs: the slots tell the held pages, a page is
handed out only while nobody holds it and lowest first, zero means that every
slot is taken, and a release opens one slot. -/
theorem pageRun_allocates (h : PageRun memMap held) :
    held.Nodup ∧
    (∀ p, p ∈ held ↔ ∃ i, memMap i = 1 ∧ p = pageAddr i) ∧
    ((getFreePage memMap).1 ≠ 0 →
      (getFreePage memMap).1 ∉ held ∧
      ∃ i, (getFreePage memMap).1 = pageAddr i ∧ memMap i = 0 ∧
        (∀ j, pageAddr j ∉ held →
          (getFreePage memMap).1.toNat ≤ (pageAddr j).toNat) ∧
        (getFreePage memMap).2 = Function.update memMap i 1) ∧
    ((getFreePage memMap).1 = 0 ↔ held.length = nrPages) ∧
    ((getFreePage memMap).1 = 0 → (getFreePage memMap).2 = memMap) ∧
    (∀ p ∈ held, ∃ i memMap', p = pageAddr i ∧ freePage p memMap = some memMap' ∧
      memMap' i = 0 ∧ ∀ j ≠ i, memMap' j = memMap j) := by
  have hholds := h.holds
  refine ⟨hholds.nodup, hholds.mem_iff, ?_, ?_, ?_, ?_⟩
  · intro hne
    obtain ⟨i, hfree, hbelow, hget⟩ | ⟨_, hget⟩ := getFreePage_cases memMap
    · rw [hget]
      refine ⟨?_, i, rfl, hfree, ?_, rfl⟩
      · rw [hholds.pageAddr_mem, hfree]
        decide
      · intro j hj
        rw [hholds.pageAddr_mem] at hj
        have hzero : memMap j = 0 := (hholds.binary j).resolve_right hj
        have hij : i ≤ j := by
          by_contra hlt
          exact hbelow j (not_le.mp hlt) hzero
        rw [toNat_pageAddr, toNat_pageAddr]
        have := Fin.le_def.mp hij
        omega
    · rw [hget] at hne
      exact absurd rfl hne
  · rw [hholds.length_eq_iff]
    obtain ⟨i, hfree, _, hget⟩ | ⟨hfull, hget⟩ := getFreePage_cases memMap
    · rw [hget]
      exact ⟨fun hzero => absurd hzero (pageAddr_ne_zero i),
        fun hused => absurd hfree (hused i)⟩
    · rw [hget]
      exact ⟨fun _ => hfull, fun _ => rfl⟩
  · intro hzero
    obtain ⟨i, _, _, hget⟩ | ⟨_, hget⟩ := getFreePage_cases memMap
    · rw [hget] at hzero
      exact absurd hzero (pageAddr_ne_zero i)
    · rw [hget]
  · intro p hp
    obtain ⟨i, _, rfl⟩ := (hholds.mem_iff p).mp hp
    exact ⟨i, Function.update memMap i 0, rfl, freePage_pageAddr memMap i,
      Function.update_self .., fun j hj => Function.update_of_ne hj ..⟩

/-- The map after `n` calls of `get_free_page` and no release. -/
def MemMap.filled (n : Nat) : MemMap := fun i => if i.val < n then 1 else 0

theorem MemMap.filled_zero : MemMap.filled 0 = MemMap.empty := by
  funext i
  simp [filled, empty]

theorem getFreePage_filled (hn : n < nrPages) :
    getFreePage (.filled n) = (pageAddr ⟨n, hn⟩, .filled (n + 1)) := by
  obtain ⟨i, hfree, hbelow, hget⟩ | ⟨hfull, _⟩ := getFreePage_cases (.filled n)
  · have hge : n ≤ i.val := by
      by_contra hlt
      simp [MemMap.filled, not_le.mp hlt] at hfree
    have hle : i.val ≤ n := by
      by_contra hlt
      exact hbelow ⟨n, hn⟩ (Fin.lt_def.mpr (not_le.mp hlt)) (by simp [MemMap.filled])
    have hi : i = ⟨n, hn⟩ := Fin.ext (Nat.le_antisymm hle hge)
    rw [hget, hi]
    refine Prod.ext rfl ?_
    funext j
    by_cases hj : j = ⟨n, hn⟩
    · simp [hj, MemMap.filled]
    · have hne : j.val ≠ n := fun heq => hj (Fin.ext heq)
      simp only [Function.update_of_ne hj, MemMap.filled]
      congr 1
      exact propext (by omega)
  · exact absurd (by simp [MemMap.filled]) (hfull ⟨n, hn⟩)

/-- One page taken from the empty map: the next call does not return it again. -/
theorem pageRun_allocates_first :
    PageRun (.filled 1) [lowMemory] ∧
      (getFreePage (.filled 1)).1 ∉ [lowMemory] := by
  have hget : getFreePage .empty = (lowMemory, .filled 1) := by
    rw [← MemMap.filled_zero, getFreePage_filled (by decide)]
    rfl
  have hrun : PageRun (.filled 1) [lowMemory] := by
    have hget' := PageRun.get .init (by rw [hget]; decide)
    rwa [hget] at hget'
  refine ⟨hrun, ((pageRun_allocates hrun).2.2.1 ?_).1⟩
  rw [getFreePage_filled (by decide)]
  exact pageAddr_ne_zero _

/-! Where the pages lie.  `mem_map` has a slot for each page of `[0,
TOTAL_MEMORY)` but its slots start at `LOW_MEMORY`. -/

/-- A whole page between `LOW_MEMORY` and the end of memory. -/
def InRam (p : U64) : Prop :=
  lowMemory.toNat ≤ p.toNat ∧ p.toNat + pageSize.toNat ≤ totalMemory.toNat

/-- The number of whole pages between `LOW_MEMORY` and the end of memory. -/
def ramPages : Nat := (totalMemory.toNat - lowMemory.toNat) / pageSize.toNat

/-- The next page is one of memory, or there is no next page. -/
def MemMap.Servable (memMap : MemMap) : Prop :=
  (∃ i, i.val < ramPages ∧ memMap i = 0) ∨ ∀ i, memMap i ≠ 0

theorem inRam_pageAddr (i : Fin nrPages) :
    InRam (pageAddr i) ↔ i.val < ramPages := by
  have hpages : ramPages = 130048 := by decide
  simp only [InRam, toNat_pageAddr, lowMemory_toNat, pageSize_toNat,
    totalMemory_toNat, hpages]
  omega

theorem getFreePage_inRam_iff (memMap : MemMap) :
    ((getFreePage memMap).1 = 0 ∨ InRam (getFreePage memMap).1) ↔
      memMap.Servable := by
  obtain ⟨i, hfree, hbelow, hget⟩ | ⟨hfull, hget⟩ := getFreePage_cases memMap
  · rw [hget, inRam_pageAddr]
    constructor
    · rintro (hzero | hlt)
      · exact absurd hzero (pageAddr_ne_zero i)
      · exact .inl ⟨i, hlt, hfree⟩
    · rintro (⟨j, hj, hzero⟩ | hused)
      · have hij : i ≤ j := by
          by_contra hlt
          exact hbelow j (not_le.mp hlt) hzero
        exact .inr (lt_of_le_of_lt (Fin.le_def.mp hij) hj)
      · exact absurd hfree (hused i)
  · rw [hget]
    exact ⟨fun _ => .inr hfull, fun _ => .inl rfl⟩

/-- Runs with any `free_page` call that stays inside of `mem_map`.  The list
has one entry per `get_free_page` call: the map it ran on and its result. -/
inductive PageTrace : MemMap → List (MemMap × U64) → Prop
  | init : PageTrace .empty []
  | get : PageTrace memMap calls →
      PageTrace (getFreePage memMap).2 ((memMap, (getFreePage memMap).1) :: calls)
  | free : PageTrace memMap calls → freePage p memMap = some memMap' →
      PageTrace memMap' calls

theorem PageTrace.result (h : PageTrace memMap calls) :
    ∀ call ∈ calls, call.2 = (getFreePage call.1).1 := by
  induction h with
  | init => simp
  | get _ ih =>
      intro call hcall
      obtain rfl | hcall := List.mem_cons.mp hcall
      · rfl
      · exact ih call hcall
  | free _ _ ih => exact ih

/-- A run returns only zero and pages of memory exactly when each of its calls
finds a free slot below the end of memory or no free slot at all. -/
theorem pageTrace_inRam_iff (h : PageTrace memMap calls) :
    (∀ call ∈ calls, call.2 = 0 ∨ InRam call.2) ↔
      ∀ call ∈ calls, call.1.Servable := by
  refine forall₂_congr fun call hcall => ?_
  rw [h.result call hcall]
  exact getFreePage_inRam_iff call.1

theorem pageTrace_inRam_iff_first :
    PageTrace (.filled 1) [(.empty, lowMemory)] ∧ InRam lowMemory := by
  have hget : getFreePage .empty = (lowMemory, .filled 1) := by
    rw [← MemMap.filled_zero, getFreePage_filled (by decide)]
    rfl
  have htrace : PageTrace (.filled 1) [(.empty, lowMemory)] := by
    have hget' := PageTrace.get .init
    rwa [hget] at hget'
  refine ⟨htrace, ?_⟩
  have hram := (pageTrace_inRam_iff htrace).mpr ?_ (.empty, lowMemory) (by simp)
  · exact hram.resolve_left (by decide)
  · intro call hcall
    obtain rfl := List.mem_singleton.mp hcall
    exact .inl ⟨⟨0, by decide⟩, by decide, rfl⟩

theorem pageTrace_filled (hn : n ≤ nrPages) : ∃ calls, PageTrace (.filled n) calls := by
  induction n with
  | zero => exact ⟨[], MemMap.filled_zero ▸ .init⟩
  | succ n ih =>
      obtain ⟨calls, hcalls⟩ := ih (by omega)
      have hget := hcalls.get
      rw [getFreePage_filled (by omega)] at hget
      exact ⟨_, hget⟩

/-- After as many calls as memory has pages the next page starts at its end. -/
theorem pageTrace_leaves_ram :
    ¬ ∀ memMap calls, PageTrace memMap calls →
      ∀ call ∈ calls, call.2 = 0 ∨ InRam call.2 := by
  intro hall
  obtain ⟨calls, hcalls⟩ := pageTrace_filled (n := ramPages) (by decide)
  have hlast := hall _ _ hcalls.get _ (List.mem_cons_self ..)
  rw [getFreePage_filled (by decide), inRam_pageAddr] at hlast
  obtain hzero | hlt := hlast
  · exact pageAddr_ne_zero _ hzero
  · exact absurd hlt (Nat.lt_irrefl _)

end YiOS
