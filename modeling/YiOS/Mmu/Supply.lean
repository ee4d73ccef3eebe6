import YiOS.Mmu.Runs
import YiOS.PageRuns

namespace YiOS

/-! The tables come from `get_free_page`. -/

theorem isPage_pageAddr (i : Fin nrPages) : IsPage (pageAddr i) := by
  have hi : i.val < 131072 := i.isLt
  rw [isPage_iff, toNat_pageAddr]
  omega

/-- The pages of a run that never met an exhausted allocator. -/
structure Drawn (memMap : MemMap) (pages : List U64) (memMap' : MemMap) : Prop where
  nodup : pages.Nodup
  slot : ∀ p ∈ pages, ∃ i, p = pageAddr i ∧ memMap i = 0 ∧ memMap' i ≠ 0
  used : ∀ {i}, memMap i ≠ 0 → memMap' i ≠ 0
  count : memMap'.free + pages.length = memMap.free

theorem Drawn.cons (h : Drawn memMap pages memMap') (hfree : memMap' i = 0) :
    Drawn memMap (pageAddr i :: pages) (Function.update memMap' i 1) where
  nodup := by
    refine List.nodup_cons.mpr ⟨fun hmem => ?_, h.nodup⟩
    obtain ⟨j, heq, _, hused⟩ := h.slot _ hmem
    obtain rfl := pageAddr_injective heq
    exact hused hfree
  slot := by
    intro p hp
    obtain rfl | hp := List.mem_cons.mp hp
    · refine ⟨i, rfl, ?_, by rw [Function.update_self]; decide⟩
      by_contra hne
      exact h.used hne hfree
    · obtain ⟨j, rfl, hzero, hused⟩ := h.slot p hp
      refine ⟨j, rfl, hzero, ?_⟩
      rw [Function.update_of_ne]
      · exact hused
      · rintro rfl
        exact hused hfree
  used := by
    intro j hj
    by_cases heq : j = i
    · rw [heq, Function.update_self]
      decide
    · rw [Function.update_of_ne heq]
      exact h.used hj
  count := by
    have hcount := h.count
    have hupdate := MemMap.free_update hfree
    rw [List.length_cons]
    omega

theorem Draws.drawn (h : Draws getFreePage memMap pages memMap') (hne : 0 ∉ pages) :
    Drawn memMap pages memMap' := by
  induction h with
  | nil => exact ⟨List.nodup_nil, fun _ h => absurd h List.not_mem_nil, id, Nat.add_zero _⟩
  | @cons pages memMap' _ ih =>
      obtain ⟨hfirst, hrest⟩ := not_or.mp (mt List.mem_cons.mpr hne)
      obtain ⟨i, hfree, _, hget⟩ | ⟨_, hget⟩ := getFreePage_cases memMap'
      · rw [hget]
        exact (ih hrest).cons hfree
      · rw [hget] at hfirst
        exact absurd rfl hfirst

theorem Draws.filled (h : Draws getFreePage (.filled n) pages memMap)
    (hle : n + pages.length ≤ nrPages) :
    memMap = .filled (n + pages.length) ∧
      ∀ p ∈ pages, ∃ i : Fin nrPages, i.val < n + pages.length ∧ p = pageAddr i := by
  induction h with
  | nil => exact ⟨rfl, fun _ h => absurd h List.not_mem_nil⟩
  | @cons pages memMap _ ih =>
      rw [List.length_cons] at hle
      obtain ⟨rfl, hpages⟩ := ih (by omega)
      rw [getFreePage_filled (by omega), List.length_cons]
      refine ⟨rfl, fun p hp => ?_⟩
      obtain rfl | hp := List.mem_cons.mp hp
      · exact ⟨_, by simp, rfl⟩
      · obtain ⟨i, hi, rfl⟩ := hpages p hp
        exact ⟨i, by omega, rfl⟩

/-- The tables that a range inside of the `j`-th gigabyte may call for: one of
the second level, one of the third and 512 of the last. -/
def gigabytePlaces (j : Nat) : Finset (Level × Nat) :=
  insert (.pud, j / 512) (insert (.pmd, j)
    ((Finset.range 512).image fun i => (.pte, j * 512 + i)))

theorem gigabytePlaces_card (j : Nat) : (gigabytePlaces j).card ≤ 514 :=
  calc (gigabytePlaces j).card
      ≤ ((Finset.range 512).image fun i => (Level.pte, j * 512 + i)).card + 1 + 1 :=
        (Finset.card_insert_le _ _).trans
          (Nat.add_le_add_right (Finset.card_insert_le _ _) 1)
    _ ≤ (Finset.range 512).card + 1 + 1 :=
        Nat.add_le_add_right (Nat.add_le_add_right Finset.card_image_le 1) 1
    _ = 514 := by simp only [Finset.card_range]

theorem InRegion.mem_gigabytePlaces {r : Request} {x : Level × Nat}
    (hregion : InRegion (2 ^ 30) j A B) (hasks : Asks r .pgd A B x.1 x.2) :
    x ∈ gigabytePlaces j := by
  obtain ⟨l, n⟩ := x
  obtain ⟨hspan, ⟨_, hleft, hright⟩, _⟩ := hasks
  obtain ⟨_, _, hlt, hlow, hhigh, _⟩ := hregion
  simp only [gigabytePlaces, Finset.mem_insert, Finset.mem_image, Finset.mem_range,
    Prod.mk.injEq]
  cases l with
  | pgd => exact absurd hspan (Nat.lt_irrefl _)
  | pud =>
      simp only [Level.span] at hleft hright
      refine .inl ⟨rfl, ?_⟩
      omega
  | pmd =>
      simp only [Level.span] at hleft hright
      refine .inr (.inl ⟨rfl, ?_⟩)
      omega
  | pte =>
      simp only [Level.span] at hleft hright
      refine .inr (.inr ⟨n - j * 512, ?_, rfl, ?_⟩) <;> omega

theorem Placed.length_le {σ : Type} {m m' : Machine σ} {r : Request}
    (h : Placed r .pgd A B m m') (hregion : InRegion (2 ^ 30) j A B) :
    ∃ events, m'.trace = events ++ m.trace ∧ (allocs events).length ≤ 514 := by
  obtain ⟨events, places, htrace, hlength, hnodup, hplaces⟩ := h
  have hsubset : places.toFinset ⊆ gigabytePlaces j := fun x hx =>
    hregion.mem_gigabytePlaces (hplaces x (List.mem_toFinset.mp hx))
  refine ⟨events, htrace, ?_⟩
  calc (allocs events).length
      ≤ places.length := hlength
    _ = places.toFinset.card := (List.toFinset_card_of_nodup hnodup).symm
    _ ≤ (gigabytePlaces j).card := Finset.card_le_card hsubset
    _ ≤ 514 := gigabytePlaces_card j

/-- The root and the pages taken for tables are distinct pages. -/
structure TablePages (root : U64) (pages : List U64) : Prop where
  nodup : (root :: pages).Nodup
  page : ∀ p ∈ root :: pages, IsPage p

/-- Pages drawn without exhaustion, and a root that the allocator does not
own, may serve as tables. -/
theorem Draws.tablePages (h : Draws getFreePage memMap pages memMap') (hne : 0 ∉ pages)
    (hroot : IsPage root) (hheld : ∀ i, root = pageAddr i → memMap i ≠ 0) :
    TablePages root pages where
  nodup := by
    have hdrawn := h.drawn hne
    refine List.nodup_cons.mpr ⟨fun hmem => ?_, hdrawn.nodup⟩
    obtain ⟨i, heq, hzero, _⟩ := hdrawn.slot root hmem
    exact hheld i heq hzero
  page := by
    intro p hp
    obtain rfl | hp := List.mem_cons.mp hp
    · exact hroot
    · obtain ⟨i, rfl, _⟩ := (h.drawn hne).slot p hp
      exact isPage_pageAddr i

end YiOS
