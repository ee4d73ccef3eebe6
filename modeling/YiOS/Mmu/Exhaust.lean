import Mathlib.Data.Finset.Prod
import YiOS.Mmu.Sequence

namespace YiOS

open YiOS.Library

variable {root t : U64} {r : Request} {l : Level} {A b B : Nat} {N : Level → Nat → Prop}
variable {mem mem₁ : U64 → U64} {tbl tbl₁ : Tables} {first : List Event}
variable {memMap memMap₁ : MemMap}

/-! How many pages a call takes. -/

/-- A table that the range calls for and that is not there.  A block that is
mapped over never gets one. -/
def Missing (r : Request) (l : Level) (A B : Nat) (mem : U64 → U64) (tbl : Tables)
    (x : Level × Nat) : Prop :=
  Asks r l A B x.1 x.2 ∧ tbl x.1 x.2 = none ∧
    ¬ (x.1 = .pte ∧ IsBlock (entry mem tbl .pmd x.2))

instance (r : Request) (l : Level) (A B : Nat) (mem : U64 → U64) (tbl : Tables)
    (x : Level × Nat) : Decidable (Missing r l A B mem tbl x) :=
  inferInstanceAs (Decidable (_ ∧ _ ∧ ¬ (_ ∧ _)))

/-- No table, and no block that is mapped over, starts in a free page. -/
structure Held (memMap : MemMap) (r : Request) (A B : Nat) (mem : U64 → U64)
    (tbl : Tables) : Prop where
  table : ∀ {l n i}, tbl l n = some (pageAddr i) → memMap i ≠ 0
  block : ∀ {k}, Hit r A B mem tbl k →
    (∀ l n, tbl l n ≠ some (pagePaddr (entry mem tbl .pmd k))) ∧
      ∀ i, pagePaddr (entry mem tbl .pmd k) = pageAddr i → memMap i ≠ 0

/-- New tables come from slots that are taken afterwards. -/
theorem Drawn.tables (hdrawn : Drawn memMap (allocs first) memMap₁)
    (hfirst : Mapped r A b N mem tbl mem₁ tbl₁ first)
    (htables : ∀ {l n i}, tbl l n = some (pageAddr i) → memMap i ≠ 0)
    (ht : tbl₁ l n = some (pageAddr i)) : memMap₁ i ≠ 0 := by
  obtain hold | hnew := hfirst.origin ht
  · exact hdrawn.used (htables hold)
  · obtain ⟨j, heq, _, hused⟩ := hdrawn.slot _ hnew
    rwa [pageAddr_injective heq]

namespace Held

theorem clean (h : Held memMap r A B mem tbl)
    (hdraws : Draws getFreePage memMap pages memMap') (hne : 0 ∉ pages) :
    Clean r A B mem tbl pages where
  fresh := by
    have hdrawn := hdraws.drawn hne
    refine ⟨hdrawn.nodup, fun p hp => ?_, fun p hp l n ht => ?_⟩
    · obtain ⟨i, rfl, _⟩ := hdrawn.slot p hp
      exact isPage_pageAddr i
    · obtain ⟨i, rfl, hfree, _⟩ := hdrawn.slot p hp
      exact h.table ht hfree
  apart := by
    intro k hhit
    obtain ⟨htables, hslots⟩ := h.block hhit
    refine ⟨htables, fun hmem => ?_⟩
    obtain ⟨i, heq, hfree, _⟩ := (hdraws.drawn hne).slot _ hmem
    exact hslots i heq hfree

theorem left (h : Held memMap r A B mem tbl) (hcut : Cut A b B) :
    Held memMap r A b mem tbl where
  table := h.table
  block := fun hhit => h.block (Mapped.hit_left hcut hhit)

theorem right (h : Held memMap r A B mem tbl) (hcut : Cut A b B)
    (hfirst : Mapped r A b N mem tbl mem₁ tbl₁ first)
    (hdraws : Draws getFreePage memMap (allocs first) memMap₁) (hne : 0 ∉ allocs first) :
    Held memMap₁ r b B mem₁ tbl₁ where
  table := (hdraws.drawn hne).tables hfirst h.table
  block := by
    intro k hhit
    have hdrawn := hdraws.drawn hne
    obtain ⟨hhit, hsame⟩ := hfirst.hit_right hcut hhit
    obtain ⟨htables, hslots⟩ := h.block hhit
    rw [hsame]
    refine ⟨fun l n ht => ?_, fun i heq => hdrawn.used (hslots i heq)⟩
    obtain hold | hnew := hfirst.origin ht
    · exact htables l n hold
    · obtain ⟨i, heq, hfree, _⟩ := hdrawn.slot _ hnew
      exact hslots i heq hfree

end Held

namespace Mapped

/-- The tables that a piece adds were missing. -/
theorem landed_missing (h : Mapped r A b N mem tbl mem₁ tbl₁ first)
    (htree₁ : Tree root mem₁ tbl₁) (hnodup : (allocs first).Nodup) :
    ∃ places : List (Level × Nat), places.length = (allocs first).length ∧ places.Nodup ∧
      ∀ x ∈ places, N x.1 x.2 ∧ tbl x.1 x.2 = none ∧
        ¬ (x.1 = .pte ∧ IsBlock (entry mem tbl .pmd x.2)) ∧ tbl₁ x.1 x.2 ≠ none := by
  have hplace : ∀ p ∈ allocs first, ∃ x : Level × Nat, N x.1 x.2 ∧ tbl x.1 x.2 = none ∧
      tbl₁ x.1 x.2 = some p := by
    intro p hp
    obtain ⟨l, n, hn, hnone, hsome⟩ := h.landed p hp
    exact ⟨(l, n), hn, hnone, hsome⟩
  have : Nonempty (Level × Nat) := ⟨(.pgd, 0)⟩
  choose! place hN hnone hsome using hplace
  refine ⟨(allocs first).map place, List.length_map _, ?_, ?_⟩
  · refine hnodup.map_on fun p hp q hq heq => ?_
    have hp' := hsome p hp
    rw [heq, hsome q hq] at hp'
    exact (Option.some.inj hp').symm
  · intro x hx
    obtain ⟨p, hp, rfl⟩ := List.mem_map.mp hx
    refine ⟨hN p hp, hnone p hp, ?_, by rw [hsome p hp]; exact Option.some_ne_none p⟩
    rintro ⟨hpte, hblock⟩
    have hn := hN p hp
    have hp' := hsome p hp
    rw [hpte] at hn hp'
    obtain ⟨hmeets, hsect⟩ := h.near hn
    have htype := htree₁.type_of_tbl (l := .pmd) (by decide) hp'
    rw [h.pmd_hit _ ⟨hmeets, hsect, hblock⟩, hblock] at htype
    exact absurd htype (by decide)

/-- What is missing after a first piece was missing before. -/
theorem missing_right (h : Mapped r A b N mem tbl mem₁ tbl₁ first) (hcut : Cut A b B)
    (hmissing : Missing r l b B mem₁ tbl₁ x) :
    Asks r l b B x.1 x.2 ∧ tbl x.1 x.2 = none ∧
      ¬ (x.1 = .pte ∧ IsBlock (entry mem tbl .pmd x.2)) := by
  obtain ⟨hasks, hnone, hblock⟩ := hmissing
  refine ⟨hasks, ?_, ?_⟩
  · cases hold : tbl x.1 x.2 with
    | none => rfl
    | some u =>
        have hkept := h.keep hold (by
          rintro ⟨hpte, hsect⟩
          have hmeets := hasks.2.1
          rw [hpte] at hmeets
          exact hcut.not_both hsect.meets hmeets)
        rw [hnone] at hkept
        contradiction
  · rintro ⟨hpte, hold⟩
    have hmeets := hasks.2.1
    rw [hpte] at hmeets
    refine hblock ⟨hpte, ?_⟩
    rwa [h.pmd_out _ fun hleft => hcut.not_both hleft hmeets]

end Mapped

variable {m m' m₁ m₂ : Machine MemMap}

/-- A piece that runs out of pages: more tables are missing than pages free. -/
def Short (root : U64) (r : Request) (A B : Nat) (l : Level) (j : Nat) (t : U64)
    (m m' : Machine MemMap) : Prop :=
  ∃ events, Log getFreePage m m' events ∧
    ∀ tbl, Tree root m.mem tbl → tbl l j = some t → Held m.pool r A B m.mem tbl →
      0 ∈ allocs events → ∃ places : List (Level × Nat), places.Nodup ∧
        m.pool.free < places.length ∧ ∀ x ∈ places, Missing r l A B m.mem tbl x

/-- Two pieces of which the second runs out of pages. -/
theorem short_append {later : List (Level × Nat)} {l₂ : Level}
    (hfirst : Mapped r A b N mem tbl mem₁ tbl₁ first) (hcut : Cut A b B)
    (htree₁ : Tree root mem₁ tbl₁) (hdrawn : Drawn memMap (allocs first) memMap₁)
    (hN : ∀ l' n, Asks r l A B l' n ↔ N l' n ∨ Asks r l₂ b B l' n)
    (hnodup : later.Nodup) (hshort : memMap₁.free < later.length)
    (hmissing : ∀ x ∈ later, Missing r l₂ b B mem₁ tbl₁ x) :
    ∃ places : List (Level × Nat), places.Nodup ∧ memMap.free < places.length ∧
      ∀ x ∈ places, Missing r l A B mem tbl x := by
  obtain ⟨earlier, hlength, hnodup', hplaces⟩ := hfirst.landed_missing htree₁ hdrawn.nodup
  refine ⟨later ++ earlier, List.nodup_append.mpr ⟨hnodup, hnodup', ?_⟩, ?_, ?_⟩
  · rintro x hx _ hx' rfl
    exact (hplaces x hx').2.2.2 (hmissing x hx).2.1
  · have hcount := hdrawn.count
    rw [List.length_append]
    omega
  · intro x hx
    obtain hx | hx := List.mem_append.mp hx
    · obtain ⟨hasks, hrest⟩ := hfirst.missing_right hcut (hmissing x hx)
      exact ⟨(hN _ _).mpr (.inr hasks), hrest⟩
    · obtain ⟨hn, hnone, hblock, _⟩ := hplaces x hx
      exact ⟨(hN _ _).mpr (.inl hn), hnone, hblock⟩

namespace Short

variable {j k : Nat}

theorem trans (hmaps : Maps root r A b (Asks r l A b) l j t m m₁)
    (h₁ : Short root r A b l j t m m₁) (h₂ : Short root r b B l j t m₁ m₂)
    (hl : l ≠ .pte) (hlow : A ≤ b) (hhigh : b ≤ B) (hb : b % l.below.span = 0 ∨ A = b) :
    Short root r A B l j t m m₂ := by
  have hcut : Cut A b B := .of_span hlow hhigh hb
  obtain ⟨first, hlog₁, hshort₁⟩ := h₁
  obtain ⟨second, hlog₂, hshort₂⟩ := h₂
  obtain ⟨_, htrace, hmaps⟩ := hmaps
  obtain rfl := hlog₁.events_eq htrace
  refine ⟨second ++ first, hlog₁.append hlog₂, fun tbl htree ht hheld hzero => ?_⟩
  by_cases hearly : 0 ∈ allocs first
  · obtain ⟨places, hnodup, hlt, hmissing⟩ := hshort₁ tbl htree ht (hheld.left hcut) hearly
    refine ⟨places, hnodup, hlt, fun x hx => ?_⟩
    obtain ⟨hasks, hrest⟩ := hmissing x hx
    exact ⟨(Asks.split hlow hhigh hb _ _).mpr (.inl hasks), hrest⟩
  · rw [allocs_append, List.mem_append] at hzero
    obtain ⟨tbl₁, htree₁, hmapped⟩ :=
      hmaps tbl htree ht ((hheld.left hcut).clean hlog₁.draws hearly)
    have ht₁ : tbl₁ l j = some t := hmapped.keep ht fun heq => hl heq.1
    obtain ⟨places, hnodup, hlt, hmissing⟩ := hshort₂ tbl₁ htree₁ ht₁
      (hheld.right hcut hmapped hlog₁.draws hearly) (hzero.resolve_right hearly)
    exact short_append hmapped hcut htree₁ (hlog₁.draws.drawn hearly)
      (Asks.split hlow hhigh hb) hnodup hlt hmissing

/-- A piece that takes no page. -/
theorem quiet (hlog : Log getFreePage m m' events) (hquiet : allocs events = []) :
    Short root r A B l j t m m' :=
  ⟨events, hlog, fun _ _ _ _ hzero => absurd hzero (by rw [hquiet]; exact List.not_mem_nil)⟩

end Short

theorem MemMap.free_eq_zero (h : (getFreePage memMap).1 = 0) : memMap.free = 0 := by
  obtain ⟨i, _, _, hget⟩ | ⟨hfull, _⟩ := getFreePage_cases memMap
  · rw [hget] at h
    exact absurd h (pageAddr_ne_zero i)
  · rw [MemMap.free, Finset.card_eq_zero, Finset.filter_eq_empty_iff]
    exact fun i _ => hfull i

/-- An empty entry of a table has nothing below it. -/
theorem Tree.missing_below {l : Level} (h : Tree root mem tbl) (hl : l ≠ .pte)
    (ht : tbl l (k / 512) = some t) (hzero : mem (slotAddr t (k % 512)) = 0) :
    tbl l.below k = none := by
  cases hbelow : tbl l.below k with
  | none => rfl
  | some u =>
      have hentry := h.entry_table hl hbelow
      rw [entry_of_some ht, hzero] at hentry
      exact absurd hentry.symm (table_ne_zero u)

/-- The page for one table is not there. -/
theorem short_single {x : Level × Nat} (hfail : (getFreePage memMap).1 = 0)
    (hmissing : Missing r l A B mem tbl x) :
    ∃ places : List (Level × Nat), places.Nodup ∧ memMap.free < places.length ∧
      ∀ x ∈ places, Missing r l A B mem tbl x := by
  refine ⟨[x], List.pairwise_singleton _ _, ?_, fun y hy => ?_⟩
  · rw [MemMap.free_eq_zero hfail]
    exact Nat.one_pos
  · rwa [List.mem_singleton.mp hy]

theorem mem_ite_singleton {p : Prop} [Decidable p] {a c : U64}
    (h : c ∈ if p then [a] else []) : p ∧ a = c := by
  split at h
  · next hp => exact ⟨hp, (List.mem_singleton.mp h).symm⟩
  · exact absurd h List.not_mem_nil

theorem Short.descend {k : Nat} (hl : l ≠ .pte) (hl' : l ≠ .pmd)
    (hregion : InRegion l.below.span k A B)
    (h : Short root r A B l.below k
      (pagePaddr ((ensureTable (earlyPgtableAlloc getFreePage) l 3 (slotAddr t (k % 512))
        m).mem (slotAddr t (k % 512))))
      (ensureTable (earlyPgtableAlloc getFreePage) l 3 (slotAddr t (k % 512)) m) m') :
    Short root r A B l (k / 512) t m m' := by
  have hcut : Cut A A B := ⟨Nat.le_refl A, Nat.le_of_lt hregion.lt, .inr rfl⟩
  have hasks := Asks.descend (r := r) hl hl' hregion
  obtain ⟨first, hlog₁, hallocs⟩ :=
    ensureTable_log getFreePage l (slotAddr t (k % 512)) m
  obtain ⟨second, hlog₂, hshort₂⟩ := h
  obtain ⟨_, htrace, hmaps⟩ := ensureTable_maps getFreePage root t r A hl hl' k m
  obtain rfl := hlog₁.events_eq htrace
  refine ⟨second ++ first, hlog₁.append hlog₂, fun tbl htree ht hheld hzero => ?_⟩
  by_cases hearly : 0 ∈ allocs first
  · rw [hallocs] at hearly
    obtain ⟨hempty, hfail⟩ := mem_ite_singleton hearly
    have hnone := htree.missing_below hl ht hempty
    exact short_single (x := (l.below, k)) hfail ⟨(hasks _ _).mpr (.inl ⟨rfl, rfl⟩), hnone,
      fun hpte => Level.below_ne_pte hl hl' hpte.1⟩
  · rw [allocs_append, List.mem_append] at hzero
    obtain ⟨tbl₁, htree₁, hmapped⟩ :=
      hmaps tbl htree ht ((hheld.left hcut).clean hlog₁.draws hearly)
    have ht₁ : tbl₁ l (k / 512) = some t := hmapped.keep ht fun heq => hl heq.1
    obtain ⟨places, hnodup, hlt, hmissing⟩ := hshort₂ tbl₁ htree₁
      (hmapped.table_below htree₁ hl hl' ht₁)
      (hheld.right hcut hmapped hlog₁.draws hearly) (hzero.resolve_right hearly)
    exact short_append hmapped hcut htree₁
      (hlog₁.draws.drawn hearly) hasks hnodup hlt hmissing

variable {fuel : Nat} {addr stop pmdp phys prot flags : U64}

theorem allocInitPte_short (hregion : InRegion (2 ^ 21) k addr.toNat stop.toNat)
    (hsect : ¬ r.Sect addr.toNat stop.toNat k)
    (h : allocInitPte (earlyPgtableAlloc getFreePage) fuel (slotAddr t (k % 512)) addr stop
      phys prot flags m = some m') :
    Short root r addr.toNat stop.toNat .pmd (k / 512) t m m' := by
  obtain ⟨events, hlog, hallocs⟩ := allocInitPte_log h
  refine ⟨events, hlog, fun tbl htree ht hheld hzero => ?_⟩
  rw [hallocs] at hzero
  obtain ⟨hempty, hfail⟩ := mem_ite_singleton hzero
  have hnone := htree.missing_below (l := .pmd) (by decide) ht hempty
  refine short_single (x := (.pte, k)) hfail
    ⟨asks_pmd_iff.mpr ⟨rfl, hregion.meets_iff.mpr rfl, hsect⟩, hnone, ?_⟩
  rintro ⟨_, hblock⟩
  rw [entry_of_some ht, hempty] at hblock
  exact absurd hblock (by decide)

/-- A loop over one table maps its range, and where it runs out of pages it is
short of them. -/
def MapsOrShort (root : U64) (r : Request) (l : Level) (j : Nat) (t : U64) (A B : Nat)
    (m m' : Machine MemMap) : Prop :=
  Maps root r A B (Asks r l A B) l j t m m' ∧ Short root r A B l j t m m'

theorem MapsOrShort.refl (m : Machine MemMap) : MapsOrShort root r l j t A A m m := by
  refine ⟨⟨[], rfl, fun tbl htree _ _ => ⟨tbl, htree, .refl r _ m.mem ?_ ?_⟩⟩,
    .quiet (.refl m) rfl⟩
  · exact fun hn => absurd hn.2.1 not_meets_self
  · exact fun hn => absurd hn.2.1 not_meets_self

theorem MapsOrShort.trans (hl : l ≠ .pte) (hlow : A ≤ b) (hhigh : b ≤ B)
    (hb : b % l.below.span = 0 ∨ A = b) (h₁ : MapsOrShort root r l j t A b m m₁)
    (h₂ : MapsOrShort root r l j t b B m₁ m₂) : MapsOrShort root r l j t A B m m₂ :=
  ⟨h₁.1.trans h₂.1 hl (.of_span hlow hhigh hb) (Asks.split hlow hhigh hb),
    .trans h₁.1 h₁.2 h₂.2 hl hlow hhigh hb⟩

theorem allocInitPmd_short (hregion : InRegion (2 ^ 30) k addr.toNat stop.toNat)
    (h : allocInitPmd (earlyPgtableAlloc getFreePage) fuel (slotAddr t (k % 512)) addr stop
      (r.phys addr.toNat) r.prot r.flags m = some m') :
    Short root r addr.toNat stop.toNat .pud (k / 512) t m m' := by
  simp only [allocInitPmd, pmdOffsetPhys_eq] at h
  refine .descend (by decide) (by decide) hregion (And.right (rangeLoop (l := .pmd)
    (P := MapsOrShort root r .pmd k _) (by decide) ?_ (fun _ m => .refl m)
    (fun hlow hhigh hb => .trans (by decide) hlow hhigh hb) ?_ hregion h))
  · exact fun hlt hstop => toNat_addrEnd (by decide) (by decide) (by decide) hlt hstop
  · rintro k addr upto s s' rfl hpiece hrun
    split at hrun
    · next hsect =>
      cases hrun
      exact ⟨pmdSetSection_maps hpiece ((section_iff hpiece).mp hsect),
        .quiet (.set s .pmd _ _) rfl⟩
    · next hsect =>
      have hnot := mt (section_iff hpiece).mpr hsect
      exact ⟨allocInitPte_maps hpiece hnot hrun, allocInitPte_short hpiece hnot hrun⟩

theorem allocInitPud_short (hregion : InRegion (2 ^ 39) k addr.toNat stop.toNat)
    (h : allocInitPud (earlyPgtableAlloc getFreePage) fuel (slotAddr t (k % 512)) addr stop
      (r.phys addr.toNat) r.prot r.flags m = some m') :
    Short root r addr.toNat stop.toNat .pgd (k / 512) t m m' := by
  simp only [allocInitPud, pudOffsetPhys_eq] at h
  refine .descend (by decide) (by decide) hregion (And.right (rangeLoop (l := .pud)
    (P := MapsOrShort root r .pud k _) (by decide) ?_ (fun _ m => .refl m)
    (fun hlow hhigh hb => .trans (by decide) hlow hhigh hb) ?_ hregion h))
  · exact fun hlt hstop => toNat_addrEnd (by decide) (by decide) (by decide) hlt hstop
  · rintro k addr upto s s' rfl hpiece hrun
    exact ⟨allocInitPmd_maps hpiece hrun, allocInitPmd_short hpiece hrun⟩

theorem Call.create_short {c : Call} (hc : c.Bounded)
    (h : c.create getFreePage fuel root m = some m') :
    Short root c.request c.low c.high .pgd 0 root m m' := by
  simp only [create, createPgdMapping, pgdOffsetRaw_eq] at h
  rw [← c.request_phys, ← c.low_index] at h
  refine And.right (rangeLoop (l := .pgd) (P := MapsOrShort root c.request .pgd 0 root)
    (by decide) ?_ (fun _ m => .refl m) (fun hlow hhigh hb => .trans (by decide) hlow hhigh hb)
    ?_ (inRegion hc) h)
  · exact fun hlt hstop => toNat_addrEnd (by decide) (by decide) (by decide) hlt hstop
  · intro k addr upto s s' hk hpiece hrun
    rw [← hk]
    exact ⟨allocInitPud_maps hpiece hrun, allocInitPud_short hpiece hrun⟩

/-! A call is safe exactly when there are pages for the missing tables. -/

def Call.missing (c : Call) (mem : U64 → U64) (tbl : Tables) : Finset (Level × Nat) :=
  (({Level.pud, Level.pmd, Level.pte} : Finset Level) ×ˢ Finset.range (2 ^ 27)).filter
    (Missing c.request .pgd c.low c.high mem tbl)

theorem Call.mem_missing {c : Call} (hc : c.Bounded) {x : Level × Nat} :
    x ∈ c.missing mem tbl ↔ Missing c.request .pgd c.low c.high mem tbl x := by
  rw [missing, Finset.mem_filter, and_iff_right_iff_imp]
  rintro ⟨⟨hspan, ⟨_, _, hright⟩, _⟩, _⟩
  have hbound := (inRegion hc).bound
  obtain ⟨l, n⟩ := x
  have hlt : n < 2 ^ 27 := by
    have hle : n * 2 ^ 21 ≤ n * l.span := Nat.mul_le_mul_left n (by cases l <;> decide)
    simp only at hright
    omega
  rw [Finset.mem_product, Finset.mem_range]
  refine ⟨?_, hlt⟩
  cases l with
  | pgd => exact absurd hspan (Nat.lt_irrefl _)
  | pud => exact Finset.mem_insert_self _ _
  | pmd => exact Finset.mem_insert_of_mem (Finset.mem_insert_self _ _)
  | pte =>
      exact Finset.mem_insert_of_mem (Finset.mem_insert_of_mem (Finset.mem_singleton_self _))

section

variable {c : Call} {events : List Event}

/-- Without exhaustion the call does what it should. -/
theorem Held.mapped (hheld : Held m.pool c.request c.low c.high m.mem tbl) (hc : c.Bounded)
    (htree : Tree root m.mem tbl) (hrun : c.create getFreePage fuel root m = some m')
    (hlog : Log getFreePage m m' events) (hne : 0 ∉ allocs events) :
    ∃ tbl', Tree root m'.mem tbl' ∧ Mapped c.request c.low c.high
      (Asks c.request .pgd c.low c.high) m.mem tbl m'.mem tbl' events := by
  obtain ⟨_, htrace, hmaps⟩ := Call.create_maps hc hrun
  obtain rfl := hlog.events_eq htrace
  exact hmaps tbl htree (by rw [htree.root, if_pos rfl]) (hheld.clean hlog.draws hne)

theorem Held.exhausted_iff (hheld : Held m.pool c.request c.low c.high m.mem tbl)
    (hc : c.Bounded) (htree : Tree root m.mem tbl)
    (hrun : c.create getFreePage fuel root m = some m')
    (hlog : Log getFreePage m m' events) :
    0 ∈ allocs events ↔ m.pool.free < (c.missing m.mem tbl).card := by
  constructor
  · intro hzero
    obtain ⟨_, hlog', hshort⟩ := Call.create_short hc hrun
    obtain rfl := hlog.events_eq hlog'.trace
    obtain ⟨places, hnodup, hlt, hmissing⟩ :=
      hshort tbl htree (by rw [htree.root, if_pos rfl]) hheld hzero
    refine Nat.lt_of_lt_of_le hlt ?_
    rw [← List.toFinset_card_of_nodup hnodup]
    exact Finset.card_le_card fun x hx =>
      (Call.mem_missing hc).mpr (hmissing x (List.mem_toFinset.mp hx))
  · intro hlt
    by_contra hne
    obtain ⟨tbl', htree', hmapped⟩ := hheld.mapped hc htree hrun hlog hne
    have hdrawn := hlog.draws.drawn hne
    -- every missing table is there afterwards, in a page of its own
    have hnew : ∀ x ∈ c.missing m.mem tbl, ∃ p ∈ (allocs events).toFinset,
        tbl' x.1 x.2 = some p := by
      intro x hx
      obtain ⟨hasks, hnone, hblock⟩ := (Call.mem_missing hc).mp hx
      obtain ⟨p, hp⟩ :=
        Option.ne_none_iff_exists'.mp ((hmapped.present hasks).resolve_right hblock)
      obtain hold | hnew := hmapped.origin hp
      · exact absurd (hold.symm.trans hnone) (Option.some_ne_none p)
      · exact ⟨p, List.mem_toFinset.mpr hnew, hp⟩
    choose! page hpage hsome using hnew
    have hcard : (c.missing m.mem tbl).card ≤ (allocs events).toFinset.card := by
      refine Finset.card_le_card_of_injOn page hpage fun x hx y hy heq => ?_
      obtain ⟨hl, hn⟩ := htree'.inj (hsome x hx) (heq ▸ hsome y hy)
      exact Prod.ext hl hn
    have hlength := List.toFinset_card_le (allocs events)
    have hcount := hdrawn.count
    omega

end

section

variable {prot : U64}

end

end YiOS
