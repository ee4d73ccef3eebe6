import YiOS.Mmu.Spec

namespace YiOS

open YiOS.Library

variable {σ : Type}

/-! The last level. -/

/-- The stores of the loop of `alloc_init_pte` for the pages from `a` up to `b`
into the page `base`. -/
structure PteStores (r : Request) (a b : Nat) (base : U64) (mem mem' : U64 → U64)
    (events : List Event) : Prop where
  inside : ∀ n, a ≤ n → n < b → mem' (slotAddr base (n % 512)) = r.pageDesc n
  outside : ∀ x, (∀ n, a ≤ n → n < b → x ≠ slotAddr base (n % 512)) → mem' x = mem x
  each : ∀ e ∈ events, ∃ n, a ≤ n ∧ n < b ∧
    e = .set .pte (slotAddr base (n % 512)) (r.pageDesc n)
  nonempty : a < b → events ≠ []

/-- A nonempty page-aligned range inside of the `k`-th region of a size. -/
structure InRegion (size k A B : Nat) : Prop where
  start : A % 2 ^ 12 = 0
  stop : B % 2 ^ 12 = 0
  lt : A < B
  low : k * size ≤ A
  high : B ≤ (k + 1) * size
  bound : B ≤ 2 ^ 48

theorem Request.phys_toNat (r : Request) (a : U64) : r.phys a.toNat = a + r.delta := by
  rw [phys, BitVec.ofNat_toNat, BitVec.setWidth_eq]

theorem Request.phys_next (r : Request) (addr next : U64) :
    r.phys addr.toNat + (next - addr) = r.phys next.toNat := by
  rw [phys_toNat, phys_toNat]
  bv_omega

theorem slotAddr_add_entrySize (t : U64) (i : Nat) :
    slotAddr t i + entrySize = slotAddr t (i + 1) := by
  rw [← slotAddr_succ, slotAddr, slotAddr, entrySize]
  bv_omega

theorem Request.pageDesc_div (r : Request) (ha : a % 2 ^ 12 = 0) :
    r.pageDesc (a / 2 ^ 12) = pfnPte (r.phys a >>> pageShift) r.prot := by
  rw [pageDesc, Nat.div_mul_cancel (Nat.dvd_of_mod_eq_zero ha)]

theorem PteStores.empty (r : Request) (a : Nat) (base : U64) (mem : U64 → U64) :
    PteStores r a a base mem mem [] where
  inside := fun _ hlow hhigh => absurd hlow (not_le.mpr hhigh)
  outside := fun _ _ => rfl
  each := fun _ h => absurd h List.not_mem_nil
  nonempty := fun h => absurd h (Nat.lt_irrefl a)

theorem PteStores.step {r : Request} {a n k : Nat} {base : U64} {mem mem' : U64 → U64}
    {events : List Event} (h : PteStores r a n base mem mem' events)
    (hbase : IsPage base) (ha : a ≤ n) (hlow : k * 512 ≤ a) (hhigh : n < (k + 1) * 512) :
    PteStores r a (n + 1) base mem
      (Function.update mem' (slotAddr base (n % 512)) (r.pageDesc n))
      (.set .pte (slotAddr base (n % 512)) (r.pageDesc n) :: events) where
  inside := by
    intro i hi hlt
    by_cases heq : i = n
    · rw [heq, Function.update_self]
    · rw [Function.update_of_ne]
      · exact h.inside i hi (by omega)
      · intro hslot
        have hindex := (slotAddr_inj hbase hbase (Nat.mod_lt _ (by omega))
          (Nat.mod_lt _ (by omega)) hslot).2
        omega
  outside := by
    intro x hx
    rw [Function.update_of_ne (hx n ha (by omega))]
    exact h.outside x fun i hi hlt => hx i hi (by omega)
  each := by
    intro e he
    obtain rfl | he := List.mem_cons.mp he
    · exact ⟨n, ha, by omega, rfl⟩
    · obtain ⟨i, hi, hlt, rfl⟩ := h.each e he
      exact ⟨i, hi, by omega, rfl⟩
  nonempty := fun _ => List.cons_ne_nil _ _

/-- Aligned addresses are a whole unit apart. -/
theorem add_le_of_aligned {u a b : Nat} (ha : a % u = 0) (hb : b % u = 0) (hlt : a < b) :
    a + u ≤ b := by
  obtain ⟨i, rfl⟩ := Nat.dvd_of_mod_eq_zero ha
  obtain ⟨j, rfl⟩ := Nat.dvd_of_mod_eq_zero hb
  rw [← Nat.mul_succ]
  exact Nat.mul_le_mul_left u (Nat.lt_of_mul_lt_mul_left hlt)

theorem page_of_region {k a : Nat} (hlow : k * 2 ^ 21 ≤ a) (hhigh : a < (k + 1) * 2 ^ 21) :
    k * 512 ≤ a / 2 ^ 12 ∧ a / 2 ^ 12 < (k + 1) * 512 := by
  omega

theorem toNat_add_pageSize {a : U64} (ha : a.toNat < 2 ^ 48) :
    (a + pageSize).toNat = a.toNat + 2 ^ 12 := by
  rw [BitVec.toNat_add, pageSize_toNat]
  omega

theorem pteLoop_stores {r : Request} {addr stop base : U64} {m m' : Machine σ}
    (hregion : InRegion (2 ^ 21) k addr.toNat stop.toNat) (hbase : IsPage base)
    (h : doRange (fun addr _ => addr + pageSize)
      (fun ptep _ _ phys m => some (m.setPte ptep (pfnPte (phys >>> pageShift) r.prot)))
      entrySize stop fuel (slotAddr base (addr.toNat / 2 ^ 12 % 512)) addr
      (r.phys addr.toNat) m = some m') :
    ∃ events, m'.trace = events ++ m.trace ∧
      PteStores r (addr.toNat / 2 ^ 12) (stop.toNat / 2 ^ 12) base m.mem m'.mem events := by
  obtain ⟨hstart, hstop, hlt, hlow, hhigh, hbound⟩ := hregion
  have hinv := doRange_inv (I := fun a ptr phys s =>
      (∃ events, s.trace = events ++ m.trace ∧
        PteStores r (addr.toNat / 2 ^ 12) (a.toNat / 2 ^ 12) base m.mem s.mem events) ∧
      addr.toNat ≤ a.toNat ∧ a.toNat ≤ stop.toNat ∧ a.toNat % 2 ^ 12 = 0 ∧
      ptr = slotAddr base (a.toNat / 2 ^ 12 - 512 * k) ∧ phys = r.phys a.toNat)
    ?_ ⟨⟨[], rfl, .empty r _ base m.mem⟩, Nat.le_refl _, Nat.le_of_lt hlt, hstart, ?_, rfl⟩
    (fun heq => absurd hlt (by rw [heq]; exact Nat.lt_irrefl _)) h
  · obtain ⟨_, _, hevents, _⟩ := hinv
    exact hevents
  · intro a ptr phys s s' hI hne hbody
    obtain ⟨⟨events, htrace, hstores⟩, hle, hle', haligned, rfl, rfl⟩ := hI
    have hlt' : a.toNat < stop.toNat := toNat_lt_of_ne hle' hne
    have hnext : (a + pageSize).toNat = a.toNat + 2 ^ 12 := toNat_add_pageSize (by omega)
    have hpage : (a + pageSize).toNat / 2 ^ 12 = a.toNat / 2 ^ 12 + 1 := by
      rw [hnext, Nat.add_div_right _ (by omega)]
    obtain ⟨hfirst, hlast⟩ :=
      page_of_region (hlow.trans hle) (Nat.lt_of_lt_of_le hlt' hhigh)
    have hindex : a.toNat / 2 ^ 12 - 512 * k = a.toNat / 2 ^ 12 % 512 := by omega
    have hindex' : a.toNat / 2 ^ 12 + 1 - 512 * k = a.toNat / 2 ^ 12 % 512 + 1 := by omega
    have hstep := add_le_of_aligned haligned hstop hlt'
    cases hbody
    rw [← r.pageDesc_div haligned, hindex]
    refine ⟨⟨_ :: events, congrArg (_ :: ·) htrace, ?_⟩, by omega, ?_, by omega, ?_, ?_⟩
    · rw [hpage]
      exact hstores.step hbase (Nat.div_le_div_right hle)
        (page_of_region hlow (Nat.lt_of_lt_of_le hlt hhigh)).1 hlast
    · rw [hnext]
      exact hstep
    · rw [slotAddr_add_entrySize, hpage, hindex']
    · exact r.phys_next a (a + pageSize)
  · congr 1
    omega

/-! One 2 MiB region. -/

namespace InRegion

variable {r : Request} {k A B : Nat}

theorem meets_iff (h : InRegion size k A B) : Meets size A B n ↔ n = k := by
  obtain ⟨_, _, hlt, hlow, hhigh, _⟩ := h
  constructor
  · rintro ⟨_, hleft, hright⟩
    have hle : n < k + 1 := Nat.lt_of_mul_lt_mul_right (Nat.lt_of_lt_of_le hright hhigh)
    have hge : k < n + 1 := Nat.lt_of_mul_lt_mul_right (Nat.lt_of_le_of_lt hlow hleft)
    omega
  · rintro rfl
    exact ⟨hlt, Nat.lt_of_lt_of_le hlt hhigh, Nat.lt_of_le_of_lt hlow hlt⟩

theorem page_iff (h : InRegion (2 ^ 21) k A B) :
    A ≤ n * 2 ^ 12 ∧ n * 2 ^ 12 < B ↔ A / 2 ^ 12 ≤ n ∧ n < B / 2 ^ 12 := by
  obtain ⟨hstart, hstop, _, _, _, _⟩ := h
  obtain ⟨a, rfl⟩ := Nat.dvd_of_mod_eq_zero hstart
  obtain ⟨b, rfl⟩ := Nat.dvd_of_mod_eq_zero hstop
  rw [Nat.mul_div_cancel_left _ (by omega), Nat.mul_div_cancel_left _ (by omega)]
  omega

theorem page_div (h : InRegion (2 ^ 21) k A B) (hlow : A / 2 ^ 12 ≤ n)
    (hhigh : n < B / 2 ^ 12) : n / 512 = k := by
  obtain ⟨hle, hlt⟩ := h.page_iff.mpr ⟨hlow, hhigh⟩
  exact h.meets_iff.mp (Mapped.page_meets hle hlt)

end InRegion

/-- The bytes that a table covers. -/
def Level.span : Level → Nat
  | .pgd => 2 ^ 48
  | .pud => 2 ^ 39
  | .pmd => 2 ^ 30
  | .pte => 2 ^ 21

/-- The tables below the level `l` that a range calls for. -/
def Asks (r : Request) (l : Level) (A B : Nat) (l' : Level) (n : Nat) : Prop :=
  l'.span < l.span ∧ Meets l'.span A B n ∧ (l' = .pte → ¬ r.Sect A B n)

instance (r : Request) (l : Level) (A B : Nat) (l' : Level) (n : Nat) :
    Decidable (Asks r l A B l' n) :=
  inferInstanceAs (Decidable (_ ∧ _ ∧ _))

theorem asks_pmd_iff {r : Request} :
    Asks r .pmd A B l n ↔ l = .pte ∧ Meets (2 ^ 21) A B n ∧ ¬ r.Sect A B n := by
  cases l <;> simp [Asks, Level.span]

theorem allocs_pteStores (h : ∀ e ∈ events, ∃ a v, e = Event.set .pte a v) :
    allocs events = [] ∧ installed events = [] := by
  induction events with
  | nil => exact ⟨rfl, rfl⟩
  | cons e events ih =>
      obtain ⟨a, v, rfl⟩ := h e List.mem_cons_self
      exact ih fun e he => h e (List.mem_cons_of_mem _ he)

namespace PteStores

variable {r : Request} {a b : Nat} {base : U64} {mem mem' : U64 → U64} {events : List Event}

theorem quiet (h : PteStores r a b base mem mem' events) :
    allocs events = [] ∧ installed events = [] := by
  apply allocs_pteStores
  intro e he
  obtain ⟨n, _, _, rfl⟩ := h.each e he
  exact ⟨_, _, rfl⟩

theorem inPage (h : PteStores r a b base mem mem' events) (he : e ∈ events)
    (hx : e.Writes x) : InPage base x := by
  obtain ⟨n, _, _, rfl⟩ := h.each e he
  exact ⟨n % 512, Nat.mod_lt _ (by omega), hx⟩

/-- Words of other pages stay. -/
theorem other (h : PteStores r a b base mem mem' events) (hbase : IsPage base)
    (ht : IsPage t) (hne : t ≠ base) (hi : i < 512) :
    mem' (slotAddr t i) = mem (slotAddr t i) := by
  apply h.outside
  intro n _ _ heq
  exact hne (slotAddr_inj ht hbase hi (Nat.mod_lt _ (by omega)) heq).1

end PteStores

section

variable {root t : U64} {r : Request} {k A B : Nat} {mem : U64 → U64} {tbl : Tables}

theorem installed_block {a v : U64} (hv : v &&& typeMask = 1) :
    installed [.set .pmd a v] = [] := by
  have hne : ¬ (Level.pmd ≠ .pte ∧ v &&& typeMask = 3) := by
    rw [hv]
    exact fun h => absurd h.2 (by decide)
  simp only [installed, List.filterMap_cons, Event.table?, if_neg hne, List.filterMap_nil]

/-- The region becomes a block. -/
theorem Mapped.block (htree : Tree root mem tbl) (ht : tbl .pmd (k / 512) = some t)
    (hregion : InRegion (2 ^ 21) k A B) (hsect : r.Sect A B k) :
    Mapped r A B (Asks r .pmd A B) mem tbl
      (Function.update mem (slotAddr t (k % 512)) (r.sectDesc k)) (Tree.dropPte tbl k)
      [.set .pmd (slotAddr t (k % 512)) (r.sectDesc k)] := by
  have hmeets : ∀ {n}, Meets (2 ^ 21) A B n → r.Sect A B n := by
    intro n hn
    rwa [hregion.meets_iff.mp hn]
  have htype : r.sectDesc k &&& typeMask = 1 := pfnPmd_sect_typeMask _ _
  refine
    { pmd_out := ?_
      pte_out := ?_
      pmd_sect := ?_
      pmd_page := fun n hn hnot => absurd (hmeets hn) hnot
      pte_in := fun n hlow hhigh hnot => absurd (hmeets (page_meets hlow hhigh)) hnot
      pmd_hit := fun n hhit => absurd (hmeets hhit.1) hhit.2.1
      keep := ?_
      origin := fun hsome => .inl (Tree.dropPte_some hsome)
      landed := fun _ h => absurd h List.not_mem_nil
      present := ?_
      near := fun hn => (asks_pmd_iff.mp hn).2
      writes := ?_
      hit := fun n hhit => absurd (hmeets hhit.1) hhit.2.1
      linked := ?_ }
  · intro n hn
    rw [Tree.entry_dropPte (by simp), htree.entry_update ht, if_neg]
    rintro ⟨_, rfl⟩
    exact hn (hregion.meets_iff.mpr rfl)
  · intro n hn
    have hdiv : n / 512 ≠ k := by
      rintro rfl
      obtain ⟨hlow, hhigh, _, _⟩ := hsect
      apply hn
      omega
    rw [Tree.entry_dropPte fun heq => hdiv heq.2, htree.entry_update ht, if_neg (by simp)]
  · intro n hn
    obtain rfl := hregion.meets_iff.mp hn.meets
    rw [Tree.entry_dropPte (by simp), htree.entry_update ht, if_pos ⟨rfl, rfl⟩]
  · intro l n u hu hne
    rw [Tree.dropPte_of_ne, hu]
    rintro ⟨rfl, rfl⟩
    exact hne ⟨rfl, hsect⟩
  · intro l n hn
    obtain ⟨_, hn, hnot⟩ := asks_pmd_iff.mp hn
    exact absurd (hmeets hn) hnot
  · intro e he a ha
    obtain rfl := List.mem_singleton.mp he
    exact .inl ⟨.pmd, k / 512, t, ht, k % 512, Nat.mod_lt _ (by omega), ha⟩
  · exact installed_block htype

/-- The pages go into the block's own first page, and no entry changes. -/
theorem Mapped.overBlock (htree : Tree root mem tbl)
    (hregion : InRegion (2 ^ 21) k A B) (hsect : ¬ r.Sect A B k)
    (hblock : IsBlock (entry mem tbl .pmd k))
    (hapart : ∀ l n, tbl l n ≠ some (pagePaddr (entry mem tbl .pmd k)))
    (hstores : PteStores r (A / 2 ^ 12) (B / 2 ^ 12) (pagePaddr (entry mem tbl .pmd k))
      mem mem' events) :
    (∀ l n t, tbl l n = some t → ∀ i < 512, mem' (slotAddr t i) = mem (slotAddr t i)) ∧
      Mapped r A B (Asks r .pmd A B) mem tbl mem' tbl events := by
  have hwords : ∀ l n t, tbl l n = some t → ∀ i < 512,
      mem' (slotAddr t i) = mem (slotAddr t i) := by
    intro l n t ht i hi
    apply hstores.other (isPage_pagePaddr _) (htree.page ht) _ hi
    rintro rfl
    exact hapart l n ht
  have hentry : entry mem' tbl = entry mem tbl := entry_congr hwords
  have hmeets : ∀ {n}, Meets (2 ^ 21) A B n → n = k := hregion.meets_iff.mp
  have hhit : Hit r A B mem tbl k := ⟨hregion.meets_iff.mpr rfl, hsect, hblock⟩
  have hquiet := hstores.quiet
  refine ⟨hwords,
    { pmd_out := fun _ _ => by rw [hentry]
      pte_out := fun _ _ => by rw [hentry]
      pmd_sect := fun n hn => absurd hn (by rwa [hmeets hn.meets])
      pmd_page := fun n hn _ hnot => absurd hblock (by rwa [← hmeets hn])
      pte_in := fun n hlow hhigh _ hnot =>
        absurd hblock (by rwa [← hmeets (page_meets hlow hhigh)])
      pmd_hit := fun _ _ => by rw [hentry]
      keep := fun ht _ => ht
      origin := fun ht => .inl ht
      landed := by
        rw [hquiet.1]
        exact fun _ h => absurd h List.not_mem_nil
      present := ?_
      near := fun hn => (asks_pmd_iff.mp hn).2
      writes := fun e he a ha => .inr (.inr ⟨k, hhit, hstores.inPage he ha⟩)
      hit := ?_
      linked := by rw [hquiet.1, hquiet.2] }⟩
  · intro l n hn
    obtain ⟨rfl, hn, _⟩ := asks_pmd_iff.mp hn
    obtain rfl := hmeets hn
    exact .inr ⟨rfl, hblock⟩
  · intro n hn
    obtain rfl := hmeets hn.1
    have hlt : A / 2 ^ 12 < B / 2 ^ 12 :=
      (hregion.page_iff (n := A / 2 ^ 12)).mp
        ⟨Nat.le_of_eq (Nat.div_mul_cancel (Nat.dvd_of_mod_eq_zero hregion.start)).symm,
          Nat.lt_of_le_of_lt (Nat.div_mul_le_self _ _) hregion.lt⟩ |>.2
    obtain ⟨e, he⟩ := List.exists_mem_of_ne_nil _ (hstores.nonempty hlt)
    obtain ⟨i, _, _, rfl⟩ := hstores.each e he
    exact ⟨_, he, _, rfl, i % 512, Nat.mod_lt _ (by omega), rfl⟩

/-- The `k`-th entry of the third level has been given a table, if it had
none. -/
structure Opened (k : Nat) (mem : U64 → U64) (tbl : Tables) (mem₁ : U64 → U64)
    (tbl₁ : Tables) (u : U64) (events : List Event) : Prop where
  table : tbl₁ .pte k = some u
  pmd : ∀ n, n ≠ k → entry mem₁ tbl₁ .pmd n = entry mem tbl .pmd n
  pte : ∀ n, entry mem₁ tbl₁ .pte n = entry mem tbl .pte n
  keep : ∀ {l n t}, tbl l n = some t → tbl₁ l n = some t
  origin : ∀ {l n t}, tbl₁ l n = some t → tbl l n = some t ∨ t ∈ allocs events
  landed : ∀ t ∈ allocs events, tbl .pte k = none ∧ tbl₁ .pte k = some t
  writes : ∀ e ∈ events, ∀ a, e.Writes a →
    (∃ l n t, tbl l n = some t ∧ InPage t a) ∨ ∃ p ∈ allocs events, InPage p a
  linked : installed events = allocs events

namespace Opened

theorem refl (htbl : tbl .pte k = some u) : Opened k mem tbl mem tbl u [] where
  table := htbl
  pmd := fun _ _ => rfl
  pte := fun _ => rfl
  keep := fun ht => ht
  origin := fun ht => .inl ht
  landed := fun _ h => absurd h List.not_mem_nil
  writes := fun _ h => absurd h List.not_mem_nil
  linked := rfl

theorem link (htree : Tree root mem tbl) (ht : tbl .pmd (k / 512) = some t)
    (hbelow : tbl .pte k = none) (hfresh : Fresh tbl [p]) :
    Opened k mem tbl
      (Function.update (memsetWords 0 512 p mem) (slotAddr t (k % 512)) (p ||| 3))
      (Tree.addTable tbl .pmd k p) p (linkEvents .pmd (slotAddr t (k % 512)) p) := by
  have hpage : IsPage p := hfresh.page p (List.mem_singleton_self p)
  have hnew := hfresh.new p (List.mem_singleton_self p)
  have hentry := htree.entry_addTable (l := .pmd) (by decide) ht hbelow hpage hnew
  refine
    { table := Tree.addTable_self
      pmd := fun n hn => by rw [hentry, if_neg fun heq => hn heq.2]
      pte := fun n => by rw [hentry, if_neg (by simp)]
      keep := ?_
      origin := ?_
      landed := ?_
      writes := ?_
      linked := installed_linkEvents (by decide) hpage }
  · intro l n u hu
    rw [Tree.addTable_of_ne, hu]
    rintro ⟨rfl, rfl⟩
    exact absurd (hbelow.symm.trans hu) (Option.some_ne_none u).symm
  · intro l n u hu
    obtain ⟨_, _, rfl⟩ | hold := Tree.addTable_some hu
    · exact .inr (List.mem_singleton_self u)
    · exact .inl hold
  · intro u hu
    obtain rfl := List.mem_singleton.mp hu
    exact ⟨hbelow, Tree.addTable_self⟩
  · intro e he a ha
    obtain hold | hnew := writes_linkEvents he (Nat.mod_lt _ (by omega)) ha
    · exact .inl ⟨.pmd, k / 512, t, ht, hold⟩
    · exact .inr ⟨p, List.mem_singleton_self p, hnew⟩

/-- Entries of the other tables are as they were. -/
theorem entry_of_ne {mem₁ mem' : U64 → U64} {tbl₁ : Tables} {u : U64}
    {first second : List Event} (hopen : Opened k mem tbl mem₁ tbl₁ u first)
    (htree₁ : Tree root mem₁ tbl₁)
    (hstores : PteStores r lo hi u mem₁ mem' second)
    (hne : ¬ (l = .pte ∧ n / 512 = k)) :
    entry mem' tbl₁ l n = entry mem₁ tbl₁ l n := by
  cases ht : tbl₁ l (n / 512) with
  | none => rw [entry_of_none ht, entry_of_none ht]
  | some v =>
      rw [entry_of_some ht, entry_of_some ht]
      apply hstores.other (htree₁.page hopen.table) (htree₁.page ht) _
        (Nat.mod_lt _ (by omega))
      rintro rfl
      exact hne (htree₁.inj ht hopen.table)

/-- So are the entries outside of the range. -/
theorem pte_outside {mem₁ mem' : U64 → U64} {tbl₁ : Tables} {u : U64}
    {first second : List Event} (hopen : Opened k mem tbl mem₁ tbl₁ u first)
    (htree₁ : Tree root mem₁ tbl₁) (hregion : InRegion (2 ^ 21) k A B)
    (hstores : PteStores r (A / 2 ^ 12) (B / 2 ^ 12) u mem₁ mem' second)
    (hn : ¬ (A ≤ n * 2 ^ 12 ∧ n * 2 ^ 12 < B)) :
    entry mem' tbl₁ .pte n = entry mem tbl .pte n := by
  rw [← hopen.pte n]
  by_cases hdiv : n / 512 = k
  · have hu : IsPage u := htree₁.page hopen.table
    have htbl : tbl₁ .pte (n / 512) = some u := by rw [hdiv, hopen.table]
    rw [entry_of_some htbl, entry_of_some htbl]
    apply hstores.outside
    intro i hlow hhigh heq
    have hmod := (slotAddr_inj hu hu (Nat.mod_lt _ (by omega))
      (Nat.mod_lt _ (by omega)) heq).2
    have hsame : n = i := by
      have := hregion.page_div hlow hhigh
      omega
    exact hn (hregion.page_iff.mpr (hsame ▸ ⟨hlow, hhigh⟩))
  · exact hopen.entry_of_ne htree₁ hstores fun heq => hdiv heq.2

/-- The pages go into the table of the region. -/
theorem pages {mem₁ mem' : U64 → U64} {tbl₁ : Tables} {u : U64} {first second : List Event}
    (hopen : Opened k mem tbl mem₁ tbl₁ u first) (htree₁ : Tree root mem₁ tbl₁)
    (hregion : InRegion (2 ^ 21) k A B) (hsect : ¬ r.Sect A B k)
    (hblock : ¬ IsBlock (entry mem tbl .pmd k))
    (hstores : PteStores r (A / 2 ^ 12) (B / 2 ^ 12) u mem₁ mem' second) :
    Tree root mem' tbl₁ ∧
      Mapped r A B (Asks r .pmd A B) mem tbl mem' tbl₁ (second ++ first) := by
  have hpmd : ∀ n, entry mem' tbl₁ .pmd n = entry mem₁ tbl₁ .pmd n :=
    fun n => hopen.entry_of_ne htree₁ hstores (by simp)
  have hmeets : ∀ {n}, Meets (2 ^ 21) A B n → n = k := hregion.meets_iff.mp
  have hnotSect : ∀ {n}, ¬ r.Sect A B n := fun hn => hsect (hmeets hn.meets ▸ hn)
  have hnotHit : ∀ {n}, ¬ Hit r A B mem tbl n := by
    intro n hn
    obtain rfl := hmeets hn.1
    exact hblock hn.2.2
  have hquiet := hstores.quiet
  have hallocs : allocs (second ++ first) = allocs first := by
    rw [allocs_append, hquiet.1, List.nil_append]
  refine ⟨?_,
    { pmd_out := ?_
      pte_out := fun n => hopen.pte_outside htree₁ hregion hstores
      pmd_sect := fun n hn => absurd hn hnotSect
      pmd_page := ?_
      pte_in := ?_
      pmd_hit := fun n hn => absurd hn hnotHit
      keep := fun ht _ => hopen.keep ht
      origin := fun ht => by rw [hallocs]; exact hopen.origin ht
      landed := ?_
      present := ?_
      near := fun hn => (asks_pmd_iff.mp hn).2
      writes := ?_
      hit := fun n hn => absurd hn hnotHit
      linked := by
        rw [hallocs, installed_append, hquiet.2, List.nil_append, hopen.linked] }⟩
  · refine ⟨htree₁.root, htree₁.page, htree₁.inj, ?_⟩
    intro l hl n
    rw [hopen.entry_of_ne htree₁ hstores fun heq => hl heq.1]
    exact htree₁.link hl n
  · intro n hn
    rw [hpmd, hopen.pmd n fun heq => hn (hregion.meets_iff.mpr heq)]
  · intro n hn _ _
    obtain rfl := hmeets hn
    rw [hpmd]
    exact htree₁.type_of_tbl (l := .pmd) (by decide) hopen.table
  · intro n hlow hhigh _ _
    obtain ⟨hlow, hhigh⟩ := hregion.page_iff.mp ⟨hlow, hhigh⟩
    have htbl : tbl₁ .pte (n / 512) = some u := by
      rw [hregion.page_div hlow hhigh, hopen.table]
    rw [entry_of_some htbl, hstores.inside n hlow hhigh]
  · intro v hv
    rw [hallocs] at hv
    obtain ⟨hnone, hsome⟩ := hopen.landed v hv
    exact ⟨.pte, k, asks_pmd_iff.mpr ⟨rfl, hregion.meets_iff.mpr rfl, hsect⟩, hnone, hsome⟩
  · intro l n hn
    obtain ⟨rfl, hn, _⟩ := asks_pmd_iff.mp hn
    obtain rfl := hmeets hn
    rw [hopen.table]
    exact .inl (Option.some_ne_none u)
  · intro e he a ha
    rw [hallocs]
    obtain hlater | hfirst := List.mem_append.mp he
    · obtain hold | hnew := hopen.origin hopen.table
      · exact .inl ⟨.pte, k, u, hold, hstores.inPage hlater ha⟩
      · exact .inr (.inl ⟨u, hnew, hstores.inPage hlater ha⟩)
    · obtain hold | hnew := hopen.writes e hfirst a ha
      · exact .inl hold
      · exact .inr (.inl hnew)

end Opened

end

end YiOS
