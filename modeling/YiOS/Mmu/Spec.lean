import YiOS.Mmu.Mapped

namespace YiOS

open YiOS.Library

/-! The functions of `mmu.c` as mapping pieces, from the last level up. -/

/-- The new tables are fresh and no block that is mapped over has a table at
its start. -/
structure Clean (r : Request) (A B : Nat) (mem : U64 → U64) (tbl : Tables)
    (new : List U64) : Prop where
  fresh : Fresh tbl new
  apart : ∀ k, Hit r A B mem tbl k →
    (∀ l n, tbl l n ≠ some (pagePaddr (entry mem tbl .pmd k))) ∧
      pagePaddr (entry mem tbl .pmd k) ∉ new

namespace Clean

variable {r : Request} {A b B : Nat} {mem mem₁ : U64 → U64} {tbl tbl₁ : Tables}
variable {N : Level → Nat → Prop} {first : List Event} {new : List U64}

theorem left (h : Clean r A B mem tbl (new ++ allocs first)) (hcut : Cut A b B) :
    Clean r A b mem tbl (allocs first) where
  fresh :=
    { nodup := (List.nodup_append.mp h.fresh.nodup).2.1
      page := fun p hp => h.fresh.page p (List.mem_append_right _ hp)
      new := fun p hp => h.fresh.new p (List.mem_append_right _ hp) }
  apart := by
    intro k hhit
    obtain ⟨htbl, hnew⟩ := h.apart k (Mapped.hit_left hcut hhit)
    exact ⟨htbl, fun hmem => hnew (List.mem_append_right _ hmem)⟩

theorem right (h : Clean r A B mem tbl (new ++ allocs first)) (hcut : Cut A b B)
    (hfirst : Mapped r A b N mem tbl mem₁ tbl₁ first) : Clean r b B mem₁ tbl₁ new where
  fresh :=
    { nodup := (List.nodup_append.mp h.fresh.nodup).1
      page := fun p hp => h.fresh.page p (List.mem_append_left _ hp)
      new := by
        intro p hp l n ht
        obtain hold | hnew := hfirst.origin ht
        · exact h.fresh.new p (List.mem_append_left _ hp) l n hold
        · exact (List.nodup_append.mp h.fresh.nodup).2.2 p hp p hnew rfl }
  apart := by
    intro k hhit
    obtain ⟨hhit, hsame⟩ := hfirst.hit_right hcut hhit
    obtain ⟨htbl, hnew⟩ := h.apart k hhit
    rw [hsame]
    refine ⟨?_, fun hmem => hnew (List.mem_append_left _ hmem)⟩
    intro l n ht
    obtain hold | hfresh := hfirst.origin ht
    · exact htbl l n hold
    · exact hnew (List.mem_append_right _ hfresh)

end Clean

theorem Level.below_ne_pte {l : Level} (hl : l ≠ .pte) (hl' : l ≠ .pmd) :
    l.below ≠ .pte := by
  cases l <;> simp_all [Level.below]

/-- The table that a first piece has made sure of. -/
theorem Mapped.table_below {l : Level} {j : Nat} {root t : U64} {mem mem₁ : U64 → U64}
    {tbl tbl₁ : Tables} {first : List Event}
    (h : Mapped r A A (fun l' n => l' = l.below ∧ n = j) mem tbl mem₁ tbl₁ first)
    (htree₁ : Tree root mem₁ tbl₁) (hl : l ≠ .pte) (hl' : l ≠ .pmd)
    (ht₁ : tbl₁ l (j / 512) = some t) :
    tbl₁ l.below j = some (pagePaddr (mem₁ (slotAddr t (j % 512)))) := by
  obtain hsome | ⟨hpte, _⟩ := h.present ⟨rfl, rfl⟩
  · obtain ⟨u, hu⟩ := Option.ne_none_iff_exists'.mp hsome
    have hentry := htree₁.tbl_of_type hl (htree₁.type_of_tbl hl hu)
    rwa [entry_of_some ht₁] at hentry
  · exact absurd hpte (Level.below_ne_pte hl hl')

variable {σ : Type}

/-- A piece of work that starts in the table `t`. -/
def Maps (root : U64) (r : Request) (A B : Nat) (N : Level → Nat → Prop)
    (l : Level) (j : Nat) (t : U64) (m m' : Machine σ) : Prop :=
  ∃ events, m'.trace = events ++ m.trace ∧
    ∀ tbl, Tree root m.mem tbl → tbl l j = some t →
      Clean r A B m.mem tbl (allocs events) →
      ∃ tbl', Tree root m'.mem tbl' ∧ Mapped r A B N m.mem tbl m'.mem tbl' events

namespace Maps

variable {root t : U64} {r : Request} {A b B : Nat} {N N₁ N₂ : Level → Nat → Prop}
variable {l : Level} {j : Nat} {m m₁ m₂ : Machine σ}

theorem trans (h₁ : Maps root r A b N₁ l j t m m₁) (h₂ : Maps root r b B N₂ l j t m₁ m₂)
    (hl : l ≠ .pte) (hcut : Cut A b B) (hN : ∀ l n, N l n ↔ N₁ l n ∨ N₂ l n) :
    Maps root r A B N l j t m m₂ := by
  obtain ⟨first, htrace₁, hmap₁⟩ := h₁
  obtain ⟨second, htrace₂, hmap₂⟩ := h₂
  refine ⟨second ++ first, by rw [htrace₂, htrace₁, List.append_assoc], ?_⟩
  intro tbl htree ht hclean
  rw [allocs_append] at hclean
  obtain ⟨tbl₁, htree₁, hfirst⟩ := hmap₁ tbl htree ht (hclean.left hcut)
  have ht₁ : tbl₁ l j = some t := hfirst.keep ht fun heq => hl heq.1
  obtain ⟨tbl₂, htree₂, hsecond⟩ := hmap₂ tbl₁ htree₁ ht₁ (hclean.right hcut hfirst)
  exact ⟨tbl₂, htree₂, hfirst.trans hsecond hcut hN⟩

/-- The second piece works in a table that the first one has made sure of. -/
theorem descend (h₁ : Maps root r A A (fun l' n => l' = l.below ∧ n = j) l (j / 512) t m m₁)
    (h₂ : Maps root r A B N₂ l.below j (pagePaddr (m₁.mem (slotAddr t (j % 512)))) m₁ m₂)
    (hl : l ≠ .pte) (hl' : l ≠ .pmd) (hAB : A ≤ B)
    (hN : ∀ l' n, N l' n ↔ (l' = l.below ∧ n = j) ∨ N₂ l' n) :
    Maps root r A B N l (j / 512) t m m₂ := by
  have hcut : Cut A A B := ⟨Nat.le_refl A, hAB, .inr rfl⟩
  obtain ⟨first, htrace₁, hmap₁⟩ := h₁
  obtain ⟨second, htrace₂, hmap₂⟩ := h₂
  refine ⟨second ++ first, by rw [htrace₂, htrace₁, List.append_assoc], ?_⟩
  intro tbl htree ht hclean
  rw [allocs_append] at hclean
  obtain ⟨tbl₁, htree₁, hfirst⟩ := hmap₁ tbl htree ht (hclean.left hcut)
  have ht₁ : tbl₁ l (j / 512) = some t := hfirst.keep ht fun heq => hl heq.1
  have hbelow := hfirst.table_below htree₁ hl hl' ht₁
  obtain ⟨tbl₂, htree₂, hsecond⟩ := hmap₂ tbl₁ htree₁ hbelow (hclean.right hcut hfirst)
  exact ⟨tbl₂, htree₂, hfirst.trans hsecond hcut hN⟩

end Maps

/-! Making sure of a table. -/

section

variable {getFreePage : σ → U64 × σ} {m : Machine σ} {l : Level} {entryp : U64}

theorem ensureTable_of_ne_zero (h : m.mem entryp ≠ 0) :
    ensureTable (earlyPgtableAlloc getFreePage) l 3 entryp m = m :=
  if_neg h

theorem ensureTable_of_zero (h : m.mem entryp = 0) :
    ensureTable (earlyPgtableAlloc getFreePage) l 3 entryp m =
      { mem := Function.update (memsetWords 0 512 (getFreePage m.pool).1 m.mem) entryp
          ((getFreePage m.pool).1 ||| 3)
        pool := (getFreePage m.pool).2
        trace := .set l entryp ((getFreePage m.pool).1 ||| 3) ::
          .memset (getFreePage m.pool).1 512 :: .alloc (getFreePage m.pool).1 ::
            m.trace } := by
  have hwords : pageSize.toNat / 8 = 512 := by decide
  simp only [ensureTable, earlyPgtableAlloc, if_pos h, hwords, Machine.set, Machine.memset]

end

theorem not_meets_self : ¬ Meets size A A n := fun h => absurd h.1 (Nat.lt_irrefl A)

theorem not_sect_self {r : Request} : ¬ r.Sect A A k := fun h => not_meets_self h.meets

theorem not_hit_self {r : Request} : ¬ Hit r A A mem tbl k := fun h => not_meets_self h.1

theorem Mapped.refl (r : Request) (A : Nat) {N : Level → Nat → Prop} {tbl : Tables}
    (mem : U64 → U64) (hN : ∀ {l n}, N l n → tbl l n ≠ none) (hpte : ∀ {n}, ¬ N .pte n) :
    Mapped r A A N mem tbl mem tbl [] where
  pmd_out := fun _ _ => rfl
  pte_out := fun _ _ => rfl
  pmd_sect := fun _ h => absurd h not_sect_self
  pmd_page := fun _ h => absurd h not_meets_self
  pte_in := fun _ hlow hhigh => absurd hlow (not_le.mpr hhigh)
  pmd_hit := fun _ h => absurd h not_hit_self
  keep := fun ht _ => ht
  origin := fun ht => .inl ht
  landed := fun _ h => absurd h List.not_mem_nil
  present := fun h => .inl (hN h)
  near := fun h => absurd h hpte
  writes := fun _ h => absurd h List.not_mem_nil
  hit := fun _ h => absurd h not_hit_self
  linked := rfl

/-- The events of a new table: taken, cleared, linked. -/
def linkEvents (l : Level) (entryp p : U64) : List Event :=
  [.set l entryp (p ||| 3), .memset p 512, .alloc p]

theorem installed_linkEvents (hl : l ≠ .pte) (hp : IsPage p) :
    installed (linkEvents l entryp p) = [p] := by
  simp only [installed, linkEvents, List.filterMap_cons, List.filterMap_nil, Event.table?,
    if_pos (And.intro hl (table_typeMask p)), hp.pagePaddr_table]

theorem writes_linkEvents (h : e ∈ linkEvents l (slotAddr t i) p) (hi : i < 512)
    (ha : e.Writes a) : InPage t a ∨ InPage p a := by
  simp only [linkEvents, List.mem_cons, List.not_mem_nil, or_false] at h
  obtain rfl | rfl | rfl := h
  · exact .inl ⟨i, hi, ha⟩
  · exact .inr ha
  · exact absurd ha not_false

/-- A new table of the second or third level leaves the last two levels as
they are. -/
theorem Mapped.link {root t p : U64} (r : Request) (A : Nat) {mem : U64 → U64}
    {tbl : Tables} (htree : Tree root mem tbl) (hl : l ≠ .pte) (hl' : l ≠ .pmd)
    (ht : tbl l (j / 512) = some t) (hbelow : tbl l.below j = none)
    (hfresh : Fresh tbl [p]) :
    Mapped r A A (fun l' n => l' = l.below ∧ n = j) mem tbl
      (Function.update (memsetWords 0 512 p mem) (slotAddr t (j % 512)) (p ||| 3))
      (Tree.addTable tbl l j p) (linkEvents l (slotAddr t (j % 512)) p) := by
  have hpage : IsPage p := hfresh.page p (List.mem_singleton_self p)
  have hnew := hfresh.new p (List.mem_singleton_self p)
  have hentry := htree.entry_addTable hl ht hbelow hpage hnew
  refine
    { pmd_out := fun k _ => by rw [hentry, if_neg fun heq => hl' heq.1.symm]
      pte_out := fun n _ => by rw [hentry, if_neg fun heq => hl heq.1.symm]
      pmd_sect := fun _ h => absurd h not_sect_self
      pmd_page := fun _ h => absurd h not_meets_self
      pte_in := fun _ hlow hhigh => absurd hlow (not_le.mpr hhigh)
      pmd_hit := fun _ h => absurd h not_hit_self
      keep := ?_
      origin := ?_
      landed := ?_
      present := ?_
      near := ?_
      writes := ?_
      hit := fun _ h => absurd h not_hit_self
      linked := installed_linkEvents hl hpage }
  · intro l' n u hu _
    rw [Tree.addTable_of_ne, hu]
    rintro ⟨rfl, rfl⟩
    rw [hbelow] at hu
    contradiction
  · intro l' n u hu
    obtain ⟨_, _, rfl⟩ | hold := Tree.addTable_some hu
    · exact .inr (List.mem_singleton_self u)
    · exact .inl hold
  · intro u hu
    obtain rfl := List.mem_singleton.mp hu
    exact ⟨l.below, j, ⟨rfl, rfl⟩, hbelow, Tree.addTable_self⟩
  · rintro l' n ⟨rfl, rfl⟩
    rw [Tree.addTable_self]
    exact .inl (Option.some_ne_none p)
  · rintro n ⟨hpte, rfl⟩
    exact absurd hpte.symm (Level.below_ne_pte hl hl')
  · intro e he a ha
    obtain hold | hnew := writes_linkEvents he (Nat.mod_lt _ (by omega)) ha
    · exact .inl ⟨l, j / 512, t, ht, hold⟩
    · exact .inr (.inl ⟨p, List.mem_singleton_self p, hnew⟩)

theorem ensureTable_maps (getFreePage : σ → U64 × σ) (root t : U64) (r : Request) (A : Nat)
    (hl : l ≠ .pte) (hl' : l ≠ .pmd) (j : Nat) (m : Machine σ) :
    Maps root r A A (fun l' n => l' = l.below ∧ n = j) l (j / 512) t m
      (ensureTable (earlyPgtableAlloc getFreePage) l 3 (slotAddr t (j % 512)) m) := by
  by_cases hzero : m.mem (slotAddr t (j % 512)) = 0
  · rw [ensureTable_of_zero hzero]
    refine ⟨linkEvents l (slotAddr t (j % 512)) (getFreePage m.pool).1, rfl, ?_⟩
    intro tbl htree ht hclean
    have hfresh : Fresh tbl [(getFreePage m.pool).1] := hclean.fresh
    have hbelow : tbl l.below j = none := by
      cases hbelow : tbl l.below j with
      | none => rfl
      | some u =>
          have hentry := htree.entry_table hl hbelow
          rw [entry_of_some ht, hzero] at hentry
          exact absurd hentry.symm (table_ne_zero u)
    refine ⟨Tree.addTable tbl l j (getFreePage m.pool).1, ?_,
      Mapped.link r A htree hl hl' ht hbelow hfresh⟩
    exact htree.linkTable hl ht hbelow (hfresh.page _ (List.mem_singleton_self _))
      (hfresh.new _ (List.mem_singleton_self _))
  · rw [ensureTable_of_ne_zero hzero]
    refine ⟨[], rfl, ?_⟩
    intro tbl htree ht _
    refine ⟨tbl, htree, Mapped.refl r A m.mem ?_ ?_⟩
    · rintro l' n ⟨rfl, rfl⟩ hnone
      obtain hempty | ⟨hpmd, _⟩ := htree.entry_none hl hnone
      · rw [entry_of_some ht] at hempty
        exact hzero hempty
      · exact hl' hpmd
    · rintro n ⟨hpte, _⟩
      exact absurd hpte.symm (Level.below_ne_pte hl hl')

end YiOS
