import YiOS.Mmu.Budget

namespace YiOS

open YiOS.Library

/-! `paging_init` in a kernel that has already given pages away. -/

/-- The free pages below a bound. -/
def MemMap.freeBelow (memMap : MemMap) (n : Nat) : Nat :=
  (Finset.univ.filter fun i : Fin nrPages => i.val < n ∧ memMap i = 0).card

namespace MemMap

variable {memMap : MemMap} {n : Nat}

theorem freeBelow_le_free (memMap : MemMap) (n : Nat) :
    memMap.freeBelow n ≤ memMap.free := by
  apply Finset.card_le_card
  intro i hi
  exact Finset.mem_filter.mpr ⟨Finset.mem_univ i, (Finset.mem_filter.mp hi).2.2⟩

theorem freeBelow_update (hlt : i.val < n) (hfree : memMap i = 0) :
    freeBelow (Function.update memMap i 1) n + 1 = memMap.freeBelow n := by
  have herase : (Finset.univ.filter fun j : Fin nrPages =>
      j.val < n ∧ Function.update memMap i 1 j = 0) =
        (Finset.univ.filter fun j : Fin nrPages => j.val < n ∧ memMap j = 0).erase i := by
    ext j
    by_cases hj : j = i
    · subst hj
      simp
    · simp [hj]
  rw [freeBelow, herase]
  exact Finset.card_erase_add_one (Finset.mem_filter.mpr ⟨Finset.mem_univ i, hlt, hfree⟩)

end MemMap

/-- As long as there are free pages below a bound, the pages drawn are below it. -/
theorem Draws.lowest (h : Draws getFreePage memMap pages memMap')
    (hle : pages.length ≤ memMap.freeBelow n) :
    memMap'.freeBelow n + pages.length = memMap.freeBelow n ∧
      ∀ p ∈ pages, ∃ i : Fin nrPages, i.val < n ∧ p = pageAddr i := by
  induction h with
  | nil => exact ⟨Nat.add_zero _, fun _ h => absurd h List.not_mem_nil⟩
  | @cons pages memMap' _ ih =>
      rw [List.length_cons] at hle ⊢
      obtain ⟨hcount, hpages⟩ := ih (by omega)
      have hpos : 0 < memMap'.freeBelow n := by omega
      obtain ⟨j, hj⟩ := Finset.card_pos.mp hpos
      obtain ⟨_, hlt, hfree⟩ := Finset.mem_filter.mp hj
      obtain ⟨i, hzero, hlowest, hget⟩ | ⟨hused, _⟩ := getFreePage_cases memMap'
      · have hij : i ≤ j := not_lt.mp fun hji => hlowest j hji hfree
        have hi : i.val < n := Nat.lt_of_le_of_lt hij hlt
        have hupdate := MemMap.freeBelow_update hi hzero
        rw [hget]
        refine ⟨?_, fun p hp => ?_⟩
        · change MemMap.freeBelow (Function.update memMap' i 1) n + _ = _
          omega
        · obtain rfl | hp := List.mem_cons.mp hp
          · exact ⟨i, hi, rfl⟩
          · exact hpages p hp
      · exact absurd hfree (hused j)

section

variable {σ : Type} {getFreePage : σ → U64 × σ} {fuel : Nat} {root : U64} {m m' : Machine σ}

theorem createAll_framed {calls : List Call}
    (h : createAll getFreePage fuel root calls m = some m') : Framed m m' := by
  induction calls generalizing m with
  | nil =>
      cases h
      exact ⟨[], rfl, fun _ _ => rfl⟩
  | cons c calls ih =>
      obtain ⟨m₁, hfirst, hrest⟩ := Option.bind_eq_some_iff.mp h
      exact (Call.create_framed hfirst).trans (ih hrest)

/-- Every word outside of the tables is as before. -/
theorem Built.framed {done calls : List Call} (h : Built root done m' tbl)
    (hrun : YiOS.createAll getFreePage fuel root calls m = some m')
    (hout : ∀ l n t, tbl l n = some t → ¬ InPage t a) : m'.mem a = m.mem a := by
  obtain ⟨events, htrace, hframe⟩ := createAll_framed hrun
  refine hframe a fun e he ha => ?_
  have hmem : e ∈ m'.trace := by
    rw [htrace]
    exact List.mem_append_left _ he
  obtain ⟨l, n, t, ht, hin⟩ := h.writes e hmem a ha
  exact hout l n t ht hin

end

namespace Tree

variable {root : U64} {mem mem' : U64 → U64} {tbl : Tables}

/-- The walk reads nothing but the tables. -/
theorem walk_frame (h : Tree root mem tbl)
    (hmem : ∀ l n t, tbl l n = some t → ∀ i < 512, mem' (slotAddr t i) = mem (slotAddr t i))
    (hva : va.toNat < 2 ^ 48) : walk mem' root va = walk mem root va := by
  rw [(h.frame hmem).walk_eq hva, h.walk_eq hva, entry_congr hmem]

/-- What is mapped to itself stays so as long as the tables are left alone. -/
theorem identityMapped_frame {layout : Layout} (h : Tree layout.idmapPgDir mem tbl)
    (hmem : ∀ l n t, tbl l n = some t → ∀ i < 512, mem' (slotAddr t i) = mem (slotAddr t i))
    (hmapped : IdentityMapped layout mem) : IdentityMapped layout mem' where
  translates := by
    intro va hva
    rw [h.walk_frame hmem hva]
    exact hmapped.translates va hva
  leaf := by
    intro va leaf hva hwalk
    rw [h.walk_frame hmem hva] at hwalk
    exact hmapped.leaf va leaf hva hwalk
  tables := by
    intro l t hreach va hlow hhigh
    obtain ⟨n, ht⟩ := (h.frame hmem).tbl_of_reaches hreach
    have hva : va.toNat < 2 ^ 48 := by
      have hpage := (isPage_iff t).mp (h.page ht)
      rw [pageSize_toNat] at hhigh
      omega
    rw [h.walk_frame hmem hva]
    exact hmapped.tables (h.reaches_of_tbl ht) va hlow hhigh

end Tree

section

variable {layout : Layout} {fuel : Nat} {m : Machine MemMap} {tbl : Tables}

/-- Tables in memory that map it to itself can themselves be written. -/
theorem Built.identityMapped (hbuilt : Built layout.idmapPgDir layout.calls.reverse m tbl)
    (h : layout.WellFormed)
    (hslots : ∀ p ∈ allocs m.trace, ∃ i : Fin nrPages, i.val < ramPages ∧ p = pageAddr i) :
    IdentityMapped layout m.mem where
  translates := by
    intro va hva
    rw [hbuilt.walk_isSome h hva, calls_contain h]
  leaf := by
    intro va leaf hva hwalk
    obtain ⟨c, hc, hin⟩ := (hbuilt.walk_isSome h hva).mp (by rw [hwalk]; rfl)
    obtain ⟨leaf', hwalk', houtput, hbits⟩ := hbuilt.identity h hc hin
    obtain rfl : leaf = leaf' := Option.some.inj (hwalk.symm.trans hwalk')
    exact ⟨houtput, leaf_kind h hc hin hbits⟩
  tables := by
    intro l t hreach va hlow hhigh
    obtain ⟨n, ht⟩ := hbuilt.tree.tbl_of_reaches hreach
    have hetext := h.etext_le.2
    rw [pageSize_toNat] at hhigh
    obtain rfl | halloc := hbuilt.origin ht
    · have hdata := h.data
      have hroot := h.low
      rw [pageSize_toNat, lowMemory_toNat] at hroot
      exact hbuilt.identity_memory h (by omega) (by rw [totalMemory_toNat]; omega)
    · obtain ⟨i, hi, rfl⟩ := hslots t halloc
      have hram := (inRam_pageAddr i).mpr hi
      simp only [InRam, totalMemory_toNat, pageSize_toNat, lowMemory_toNat] at hram
      exact hbuilt.identity_memory h (by omega) (by rw [totalMemory_toNat]; omega)

/-- With enough free pages in memory `paging_init` maps memory to itself, whatever has been
given away before, and keeps to its tables. -/
theorem pagingInit_live (h : layout.WellFormed) (hfuel : 512 ≤ fuel) (mem : U64 → U64)
    {pool : MemMap} (hroom : (places layout.calls).card ≤ pool.freeBelow ramPages) :
    ∃ m tbl, pagingInit getFreePage fuel layout ⟨mem, pool, []⟩ = some m ∧
      Built layout.idmapPgDir layout.calls.reverse m tbl ∧ IdentityMapped layout m.mem ∧
      (∀ {i}, pool i ≠ 0 → m.pool i ≠ 0) ∧
      (∀ {l n t}, tbl l n = some t → t = layout.idmapPgDir ∨
        ∃ i : Fin nrPages, i.val < ramPages ∧ t = pageAddr i ∧ pool i = 0 ∧ m.pool i ≠ 0) ∧
      ∀ a, (∀ l n t, tbl l n = some t → ¬ InPage t a) → m.mem a = mem a := by
  have hbounded : ∀ c ∈ layout.calls, c.Bounded := fun c hc => (h.calls_valid c hc).bounded
  have hcleared := memset_cleared layout.idmapPgDir mem pool
  have hheld : ∀ i, layout.idmapPgDir = pageAddr i → pool i ≠ 0 :=
    fun i heq => absurd heq (h.idmapPgDir_ne i)
  obtain ⟨m, hrun⟩ := createAll_isSome getFreePage hfuel layout.idmapPgDir hbounded
    (Machine.memset ⟨mem, pool, []⟩ layout.idmapPgDir 512)
  have hne : 0 ∉ allocs m.trace :=
    createAll_enough h.isPage_idmapPgDir hcleared hheld hbounded h.calls_apart hrun
      (hroom.trans (pool.freeBelow_le_free ramPages))
  obtain ⟨tbl, hcomplete⟩ := Complete.of_cleared h.isPage_idmapPgDir hcleared hheld hbounded
    h.calls_apart hrun hne
  have hbuilt := hcomplete.built
  obtain ⟨events, htrace, hdraws, _⟩ := createAll_logged hrun
  have hallocs : allocs events = allocs m.trace := by
    rw [htrace, allocs_append, hcleared.allocs, List.append_nil]
  rw [hallocs] at hdraws
  have hdrawn : Drawn pool (allocs m.trace) m.pool := hdraws.drawn hne
  have hlength : (allocs m.trace).length = (places layout.calls).card := by
    have hsame : places layout.calls.reverse = places layout.calls := by simp [places]
    rw [hcomplete.allocs_length fun c hc => hbounded c (List.mem_reverse.mp hc), hsame]
  have hlow : ∀ p ∈ allocs m.trace, ∃ i : Fin nrPages, i.val < ramPages ∧ p = pageAddr i :=
    (Draws.lowest hdraws (hlength ▸ hroom)).2
  refine ⟨m, tbl, by rw [pagingInit_eq, hrun], hbuilt, hbuilt.identityMapped h hlow,
    hdrawn.used, fun ht => ?_, fun a hout => ?_⟩
  · refine (hbuilt.origin ht).imp_right fun hmem => ?_
    obtain ⟨i, hi, rfl⟩ := hlow _ hmem
    obtain ⟨j, heq, hfree, hused⟩ := hdrawn.slot _ hmem
    obtain rfl := pageAddr_injective heq
    exact ⟨i, hi, rfl, hfree, hused⟩
  · rw [hbuilt.framed hrun hout, Machine.memset_mem]
    refine memsetWords_of_ne 0 fun i hi heq => ?_
    exact hout .pgd 0 _ hcomplete.root_eq ⟨i, hi, heq⟩

end

end YiOS
