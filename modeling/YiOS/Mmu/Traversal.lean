import YiOS.Mmu.Lines

namespace YiOS

open YiOS.Library

/-- The leaf that the dump takes the last two entries for: every entry of the
last level but zero is a page. -/
def Leaf.printed (pmd pte : U64) : Option Leaf :=
  if pmd = 0 then none
  else if pmd &&& typeMask = 1 then some (.block pmd)
  else if pte = 0 then none
  else some (.page pte)

namespace Dump

def printedAt (mem : U64 → U64) (tbl : Tables) (va : U64) : Option Leaf :=
  Leaf.printed (entry mem tbl .pmd (va.toNat / 2 ^ 21))
    (entry mem tbl .pte (va.toNat / 2 ^ 12))

/-- The lines that a traversal adds. -/
def Prints (leafAt : U64 → Option Leaf) (A B : Nat) (lines lines' : List Line) : Prop :=
  ∃ new, lines' = lines ++ new ∧ Dumped leafAt A B new

namespace Prints

variable {leafAt : U64 → Option Leaf} {A b B : Nat} {lines lines' lines'' : List Line}

theorem refl (leafAt : U64 → Option Leaf) (A : Nat) (lines : List Line) :
    Prints leafAt A A lines lines :=
  ⟨[], (List.append_nil _).symm, .nil leafAt A⟩

theorem trans (hlow : A ≤ b) (hhigh : b ≤ B) (h₁ : Prints leafAt A b lines lines')
    (h₂ : Prints leafAt b B lines' lines'') : Prints leafAt A B lines lines'' := by
  obtain ⟨first, rfl, hfirst⟩ := h₁
  obtain ⟨second, rfl, hsecond⟩ := h₂
  exact ⟨first ++ second, List.append_assoc _ _ _, hfirst.append hsecond hlow hhigh⟩

end Prints

variable {fuel : Nat} {root : U64} {mem : U64 → U64} {tbl : Tables}
variable {start stop val : U64} {lines lines' : List Line}

/-! What each entry prints. -/

theorem printPgtable_prints_zero {leafAt : U64 → Option Leaf} {level : Nat}
    (hlt : start.toNat < stop.toNat)
    (hleaf : ∀ va : U64, start.toNat ≤ va.toNat → va.toNat < stop.toNat → leafAt va = none)
    (h : printPgtable fuel readyLevels start stop level 0 lines = some lines') :
    Prints leafAt start.toNat stop.toNat lines lines' := by
  rw [printPgtable_zero] at h
  exact ⟨_, (Option.some.inj h).symm, .none hlt hleaf⟩

theorem printPgtable_prints_leaf {leafAt : U64 → Option Leaf} {level : Nat} {name : String}
    (leaf : Leaf) (hval : val ≠ 0)
    (hlevel : readyLevels.getD level ⟨none, "", 0⟩ = ⟨some pteBits, name, columnMask⟩)
    (hscale : scaleLoop fuel ((stop - start) >>> 10) 0 = some (delta, unit))
    (hlt : start.toNat < stop.toNat)
    (hleaf : ∀ va : U64, start.toNat ≤ va.toNat → va.toNat < stop.toNat →
      leafAt va = some leaf ∧
        { start, stop, delta, unit := units[unit]?, name,
          columns := dumpProt val pteBits : Row } = leafRow va leaf)
    (h : printPgtable fuel readyLevels start stop level val lines = some lines') :
    Prints leafAt start.toNat stop.toNat lines lines' := by
  rw [printPgtable_leaf hval hlevel hscale] at h
  exact ⟨_, (Option.some.inj h).symm,
    Dumped.single hlt fun va hcontains => hleaf va hcontains.1 hcontains.2⟩

theorem scaleLoop_page (hfuel : 512 ≤ fuel) : scaleLoop fuel 4 0 = some (4, 0) := by
  obtain ⟨more, rfl⟩ : ∃ more, fuel = more + 1 := ⟨fuel - 1, by omega⟩
  rw [scaleLoop, if_neg (by decide)]

theorem scaleLoop_block (hfuel : 512 ≤ fuel) : scaleLoop fuel 2048 0 = some (2, 1) := by
  obtain ⟨more, rfl⟩ : ∃ more, fuel = more + 2 := ⟨fuel - 2, by omega⟩
  rw [scaleLoop, if_pos (by decide), scaleLoop, if_neg (by decide)]
  rfl

/-- A piece between two boundaries is the whole region. -/
theorem InRegion.whole (h : InRegion size k A B) (hA : A % size = 0) (hB : B % size = 0) :
    A = k * size ∧ B = (k + 1) * size := by
  have hstep := add_le_of_aligned hA hB h.lt
  have hlow := h.low
  have hhigh := h.high
  rw [Nat.succ_mul] at hhigh ⊢
  omega

theorem InRegion.add_pageSize {i : Nat} {start stop : U64}
    (h : InRegion (2 ^ 12) i start.toNat stop.toNat) : start + pageSize = stop := by
  obtain ⟨hstart, hstop⟩ := InRegion.whole h h.start h.stop
  apply BitVec.eq_of_toNat_eq
  rw [toNat_add_pageSize (Nat.lt_of_lt_of_le h.lt h.bound), hstart, hstop, Nat.succ_mul]

theorem and_mask_eq {start va mask : U64} {shift : Nat}
    (hmask : mask = BitVec.allOnes 64 <<< shift)
    (hstart : start.toNat = k * 2 ^ shift) (hva : va.toNat / 2 ^ shift = k) :
    va &&& mask = start := by
  apply BitVec.eq_of_toNat_eq
  rw [hmask, toNat_and_highMask, hva, hstart]

/-- The offset that the loops of the dump carry is the address. -/
theorem id_next (a b : U64) : id a + (b - a) = id b := by
  simp only [id]
  bv_omega

theorem pageSize_next {addr stop : U64} (hlt : addr.toNat < stop.toNat)
    (hbound : stop.toNat ≤ 2 ^ 48) (haddr : addr.toNat % 2 ^ 12 = 0)
    (hstop : stop.toNat % 2 ^ 12 = 0) :
    (addr + pageSize).toNat = min ((addr.toNat / 2 ^ 12 + 1) * 2 ^ 12) stop.toNat := by
  have hstep := add_le_of_aligned haddr hstop hlt
  rw [toNat_add_pageSize (Nat.lt_of_lt_of_le hlt hbound), Nat.succ_mul,
    Nat.div_mul_cancel (Nat.dvd_of_mod_eq_zero haddr), Nat.min_eq_left hstep]

theorem printedAt_table {va : U64} (htype : entry mem tbl .pmd k &&& typeMask = 3)
    (hi : i / 512 = k) (hva : va.toNat / 2 ^ 12 = i) :
    printedAt mem tbl va =
      if entry mem tbl .pte i = 0 then none else some (.page (entry mem tbl .pte i)) := by
  have hpmd : va.toNat / 2 ^ 21 = k := by omega
  have hzero : entry mem tbl .pmd k ≠ 0 := by
    intro hzero
    rw [hzero] at htype
    exact absurd htype (by decide)
  rw [printedAt, hpmd, hva, Leaf.printed, if_neg hzero, htype, if_neg (by decide)]

theorem printPte_prints (hfuel : 512 ≤ fuel)
    (hpiece : InRegion (2 ^ 12) i start.toNat stop.toNat)
    (htype : entry mem tbl .pmd k &&& typeMask = 3) (hi : i / 512 = k)
    (h : printPgtable fuel readyLevels start (start + pageSize) 4 (entry mem tbl .pte i) lines =
      some lines') :
    Prints (printedAt mem tbl) start.toNat stop.toNat lines lines' := by
  obtain ⟨hstart, hstop⟩ := InRegion.whole hpiece hpiece.start hpiece.stop
  have hnext : start + pageSize = stop := InRegion.add_pageSize hpiece
  have hindex : ∀ va : U64, start.toNat ≤ va.toNat → va.toNat < stop.toNat →
      va.toNat / 2 ^ 12 = i := by
    intro va hlow hhigh
    omega
  rw [hnext] at h
  by_cases hzero : entry mem tbl .pte i = 0
  · rw [hzero] at h
    refine printPgtable_prints_zero hpiece.lt (fun va hlow hhigh => ?_) h
    rw [printedAt_table htype hi (hindex va hlow hhigh), if_pos hzero]
  · have hscale : scaleLoop fuel ((stop - start) >>> 10) 0 = some (4, 0) := by
      rw [← hnext, show start + pageSize - start = pageSize by bv_omega]
      exact scaleLoop_page hfuel
    refine printPgtable_prints_leaf (.page (entry mem tbl .pte i)) hzero rfl hscale hpiece.lt
      (fun va hlow hhigh => ⟨?_, ?_⟩) h
    · rw [printedAt_table htype hi (hindex va hlow hhigh), if_neg hzero]
    · rw [leafRow, and_mask_eq (by decide) hstart (hindex va hlow hhigh), hnext]
      rfl

theorem walkPte_prints (h : Tree root mem tbl) (hfuel : 512 ≤ fuel)
    (hregion : InRegion (2 ^ 21) k start.toNat stop.toNat)
    (htype : entry mem tbl .pmd k &&& typeMask = 3)
    (hrun : walkPte fuel mem readyLevels (entry mem tbl .pmd k) start stop lines = some lines') :
    Prints (printedAt mem tbl) start.toNat stop.toNat lines lines' := by
  simp only [walkPte, pteOffsetPhys_eq] at hrun
  refine regionLoop (2 ^ 12) (P := Prints (printedAt mem tbl)) (by decide) (by decide)
    id_next ?_ (Prints.refl _) (fun hlow hhigh _ => Prints.trans hlow hhigh) ?_ hregion hrun
  · exact pageSize_next
  · intro i addr upto s s' hi hpiece hbody
    rw [h.read_below (by decide) htype hi] at hbody
    exact printPte_prints hfuel hpiece htype hi hbody

theorem printedAt_empty {va : U64} (hzero : entry mem tbl .pmd k = 0)
    (hva : va.toNat / 2 ^ 21 = k) : printedAt mem tbl va = none := by
  rw [printedAt, hva, Leaf.printed, if_pos hzero]

theorem printedAt_block {va : U64} (htype : entry mem tbl .pmd k &&& typeMask = 1)
    (hva : va.toNat / 2 ^ 21 = k) :
    printedAt mem tbl va = some (.block (entry mem tbl .pmd k)) := by
  have hzero : entry mem tbl .pmd k ≠ 0 := by
    intro hzero
    rw [hzero] at htype
    exact absurd htype (by decide)
  rw [printedAt, hva, Leaf.printed, if_neg hzero, if_pos htype]

theorem printPmd_prints (hfuel : 512 ≤ fuel)
    (hpiece : InRegion (2 ^ 21) k start.toNat stop.toNat)
    (hstart : start.toNat % 2 ^ 21 = 0) (hstop : stop.toNat % 2 ^ 21 = 0)
    (hleaf : entry mem tbl .pmd k = 0 ∨ entry mem tbl .pmd k &&& typeMask = pmdTypeSect)
    (h : printPgtable fuel readyLevels start stop 3 (entry mem tbl .pmd k) lines = some lines') :
    Prints (printedAt mem tbl) start.toNat stop.toNat lines lines' := by
  obtain ⟨hstart, hstop⟩ := InRegion.whole hpiece hstart hstop
  have hindex : ∀ va : U64, start.toNat ≤ va.toNat → va.toNat < stop.toNat →
      va.toNat / 2 ^ 21 = k := by
    intro va hlow hhigh
    omega
  by_cases hzero : entry mem tbl .pmd k = 0
  · rw [hzero] at h
    exact printPgtable_prints_zero hpiece.lt
      (fun va hlow hhigh => printedAt_empty hzero (hindex va hlow hhigh)) h
  · have hblock := hleaf.resolve_left hzero
    have hnext : start + pmdSize = stop := by
      have hsize : pmdSize.toNat = 2 ^ 21 := by decide
      have hbound := hpiece.bound
      apply BitVec.eq_of_toNat_eq
      rw [BitVec.toNat_add, hsize]
      omega
    have hscale : scaleLoop fuel ((stop - start) >>> 10) 0 = some (2, 1) := by
      rw [← hnext, show start + pmdSize - start = pmdSize by bv_omega]
      exact scaleLoop_block hfuel
    refine printPgtable_prints_leaf (.block (entry mem tbl .pmd k)) hzero rfl hscale hpiece.lt
      (fun va hlow hhigh => ⟨printedAt_block hblock (hindex va hlow hhigh), ?_⟩) h
    rw [leafRow, and_mask_eq (by decide) hstart (hindex va hlow hhigh), hnext]
    rfl

theorem walkPmd_prints (h : Tree root mem tbl) (hfuel : 512 ≤ fuel)
    (hregion : InRegion (2 ^ 30) j start.toNat stop.toNat)
    (hstart : start.toNat % 2 ^ 21 = 0) (hstop : stop.toNat % 2 ^ 21 = 0)
    (htype : entry mem tbl .pud j &&& typeMask = 3)
    (hrun : walkPmd fuel mem readyLevels (entry mem tbl .pud j) start stop lines = some lines') :
    Prints (printedAt mem tbl) start.toNat stop.toNat lines lines' := by
  simp only [walkPmd, pmdOffsetPhys_eq] at hrun
  refine regionLoop (2 ^ 21) (P := fun A B s s' => A % 2 ^ 21 = 0 → B % 2 ^ 21 = 0 →
    Prints (printedAt mem tbl) A B s s') (by decide)
    (by decide) id_next ?_ ?_ ?_ ?_ hregion hrun
    hstart hstop
  · exact fun hlt hbound _ _ => toNat_addrEnd (by decide) (by decide) (by decide) hlt hbound
  · exact fun A s _ _ => .refl _ A s
  · intro A b B s s' s'' hlow hhigh hcut hfirst hsecond hA hB
    have hb : b % 2 ^ 21 = 0 := hcut.elim id fun heq => heq ▸ hA
    exact .trans hlow hhigh (hfirst hA hb) (hsecond hb hB)
  · intro k addr upto s s' hk hpiece hbody haddr hupto
    rw [h.read_below (by decide) htype hk, Level.below] at hbody
    split at hbody
    next hleaf => exact printPmd_prints hfuel hpiece haddr hupto hleaf hbody
    next hleaf =>
      obtain ⟨hzero, hblock⟩ := not_or.mp hleaf
      refine walkPte_prints h hfuel hpiece ?_ hbody
      cases htbl : tbl .pte k with
      | some t => exact h.type_of_tbl (l := .pmd) (by decide) htbl
      | none =>
          obtain hempty | ⟨_, hsect⟩ := h.entry_none (l := .pmd) (by decide) htbl
          · exact absurd hempty hzero
          · exact absurd hsect hblock

/-! The traversal returns, whatever the memory. -/

theorem walkPte_isSome (hfuel : 512 ≤ fuel) (levels : List PgLevel)
    (hregion : InRegion (2 ^ 21) k start.toNat stop.toNat) (pmd : U64) (lines : List Line) :
    (walkPte fuel mem levels pmd start stop lines).isSome := by
  refine rangeLoop_isSome (2 ^ 12) (by decide) (by decide) ?_ ?_ hregion hfuel _ _ _
  · exact pageSize_next
  · intro i addr upto ptep offset s hpiece
    refine printPgtable_isSome hfuel levels ?_ 4 _ s
    exact Nat.le_of_eq
      (toNat_add_pageSize (Nat.lt_of_lt_of_le hpiece.lt hpiece.bound)).symm

theorem walkPmd_isSome (hfuel : 512 ≤ fuel) (levels : List PgLevel)
    (hregion : InRegion (2 ^ 30) j start.toNat stop.toNat) (pud : U64) (lines : List Line) :
    (walkPmd fuel mem levels pud start stop lines).isSome := by
  refine rangeLoop_isSome (2 ^ 21) (by decide) (by decide) ?_ ?_ hregion hfuel _ _ _
  · exact fun hlt hbound _ _ => toNat_addrEnd (by decide) (by decide) (by decide) hlt hbound
  · intro k addr upto pmdp offset s hpiece
    dsimp only
    split
    · exact printPgtable_isSome hfuel levels
        (add_le_of_aligned hpiece.start hpiece.stop hpiece.lt) 3 _ s
    · exact walkPte_isSome hfuel levels hpiece _ s

/-! The upper levels: `TOTAL_MEMORY` lies below the first boundary of both. -/

theorem walkPgd_total (levels : List PgLevel) (pgd : U64) (lines : List Line) :
    walkPgd (fuel + 1) mem levels pgd 0 totalMemory lines =
      if mem (pgdOffsetRaw pgd 0) = 0 then
        printPgtable (fuel + 1) levels 0 totalMemory 1 (mem (pgdOffsetRaw pgd 0)) lines
      else
        walkPud (fuel + 1) mem levels (mem (pgdOffsetRaw pgd 0)) 0 totalMemory lines :=
  doRange_once (by decide)

theorem walkPud_total (levels : List PgLevel) (pgd : U64) (lines : List Line) :
    walkPud (fuel + 1) mem levels pgd 0 totalMemory lines =
      if mem (pudOffsetPhys pgd 0) = 0 ∨
        mem (pudOffsetPhys pgd 0) &&& typeMask = pmdTypeSect then
        printPgtable (fuel + 1) levels 0 totalMemory 2 (mem (pudOffsetPhys pgd 0)) lines
      else
        walkPmd (fuel + 1) mem levels (mem (pudOffsetPhys pgd 0)) 0 totalMemory lines :=
  doRange_once (by decide)

theorem inRegion_total : InRegion (2 ^ 30) 0 (0 : U64).toNat totalMemory.toNat where
  start := by decide
  stop := by decide
  lt := by decide
  low := by decide
  high := by decide
  bound := by decide

theorem printedAt_none (hnone : tbl .pmd 0 = none) {va : U64}
    (hva : va.toNat < totalMemory.toNat) : printedAt mem tbl va = none := by
  have hpmd : tbl .pmd (va.toNat / 2 ^ 21 / 512) = none := by
    rw [totalMemory_toNat] at hva
    rwa [show va.toNat / 2 ^ 21 / 512 = 0 by omega]
  exact printedAt_empty (entry_of_none hpmd) rfl

theorem printPgtable_prints_none (hnone : tbl .pmd 0 = none) (level : Nat) :
    ∃ lines, printPgtable fuel readyLevels 0 totalMemory level 0 [] = some lines ∧
      Prints (printedAt mem tbl) 0 totalMemory.toNat [] lines := by
  have hlt : (0 : U64).toNat < totalMemory.toNat := by decide
  exact ⟨_, printPgtable_zero readyLevels level, _, rfl,
    .none hlt fun _ _ hva => printedAt_none hnone hva⟩

theorem walkPud_dumped (h : Tree root mem tbl) (hfuel : 512 ≤ fuel + 1)
    (htype : entry mem tbl .pgd 0 &&& typeMask = 3) :
    ∃ lines, walkPud (fuel + 1) mem readyLevels (entry mem tbl .pgd 0) 0 totalMemory [] =
      some lines ∧ Prints (printedAt mem tbl) 0 totalMemory.toNat [] lines := by
  have hread := h.read_below (l := .pgd) (i := 0) (by decide) htype (by decide)
  rw [walkPud_total, pudOffsetPhys_eq]
  change mem (slotAddr (pagePaddr (entry mem tbl .pgd 0)) ((0 : U64).toNat / 2 ^ 30 % 512)) = _
    at hread
  rw [hread, Level.below]
  cases htbl : tbl .pmd 0 with
  | none =>
      have hempty : entry mem tbl .pud 0 = 0 := by
        obtain hempty | ⟨hlevel, _⟩ := h.entry_none (l := .pud) (by decide) htbl
        · exact hempty
        · exact absurd hlevel (by decide)
      rw [if_pos (.inl hempty), hempty]
      exact printPgtable_prints_none htbl 2
  | some t =>
      have hpud : entry mem tbl .pud 0 &&& typeMask = 3 := h.type_of_tbl (by decide) htbl
      rw [if_neg]
      · obtain ⟨lines, hlines⟩ := Option.isSome_iff_exists.mp
          (walkPmd_isSome hfuel readyLevels inRegion_total (entry mem tbl .pud 0) [])
        exact ⟨lines, hlines, walkPmd_prints h hfuel inRegion_total (by decide) (by decide) hpud
          hlines⟩
      · rintro (hzero | hsect)
        · rw [hzero] at hpud
          exact absurd hpud (by decide)
        · rw [hsect] at hpud
          exact absurd hpud (by decide)

theorem walkPgd_dumped (h : Tree root mem tbl) (hfuel : 512 ≤ fuel + 1) :
    ∃ lines, walkPgd (fuel + 1) mem readyLevels root 0 totalMemory [] = some lines ∧
      Prints (printedAt mem tbl) 0 totalMemory.toNat [] lines := by
  have hroot : tbl .pgd (0 / 512) = some root := by
    rw [h.root]
    exact if_pos rfl
  have hread : mem (pgdOffsetRaw root 0) = entry mem tbl .pgd 0 := by
    rw [pgdOffsetRaw_eq, entry_of_some hroot]
    rfl
  rw [walkPgd_total, hread]
  cases htbl : tbl .pud 0 with
  | none =>
      have hempty : entry mem tbl .pgd 0 = 0 := by
        obtain hempty | ⟨hlevel, _⟩ := h.entry_none (l := .pgd) (by decide) htbl
        · exact hempty
        · exact absurd hlevel (by decide)
      have hpmd : tbl .pmd 0 = none := h.below_none (l := .pud) (by decide) htbl
      rw [if_pos hempty, hempty]
      exact printPgtable_prints_none hpmd 1
  | some t =>
      have hpgd : entry mem tbl .pgd 0 &&& typeMask = 3 := h.type_of_tbl (by decide) htbl
      rw [if_neg]
      · exact walkPud_dumped h hfuel hpgd
      · intro hzero
        rw [hzero] at hpgd
        exact absurd hpgd (by decide)

theorem dumpPgtable_dumped (h : Tree root mem tbl) (hfuel : 512 ≤ fuel)
    {levels : List PgLevel}
    (hready : pgLevelInit levels = readyLevels) :
    ∃ lines, dumpPgtable fuel mem root levels = some (lines, readyLevels) ∧
      Dumped (printedAt mem tbl) 0 totalMemory.toNat lines := by
  obtain ⟨more, rfl⟩ : ∃ more, fuel = more + 1 := ⟨fuel - 1, by omega⟩
  obtain ⟨lines, hwalk, _, rfl, hdumped⟩ := walkPgd_dumped h hfuel
  refine ⟨lines, ?_, hdumped⟩
  simp only [dumpPgtable, hready, hwalk, Option.map_some]

/-! The dump against the hardware's walk. -/

/-- The lines of `[0, TOTAL_MEMORY)` show the leaves there, each once, in order,
after one marker. -/
structure Agrees (leafAt : U64 → Option Leaf) (lines : List Line) : Prop where
  within : ∀ r ∈ rows lines, r.start.toNat < r.stop.toNat ∧ r.stop.toNat ≤ totalMemory.toNat
  ordered : (rows lines).Pairwise fun r r' => r.stop.toNat ≤ r'.start.toNat
  covers : ∀ va : U64, va.toNat < totalMemory.toNat →
    ((∃ r ∈ rows lines, r.Contains va) ↔ (leafAt va).isSome)
  shows : ∀ r ∈ rows lines, ∀ va, r.Contains va →
    ∃ leaf, leafAt va = some leaf ∧ r = leafRow va leaf
  marker : markers lines = ["Identical mapping"]

theorem Dumped.agrees {leafAt leafAt' : U64 → Option Leaf}
    (h : Dumped leafAt 0 totalMemory.toNat lines)
    (hsame : ∀ va : U64, va.toNat < totalMemory.toNat → leafAt' va = leafAt va) :
    Agrees leafAt' lines := by
  have hinside : ∀ r ∈ rows lines, ∀ va, r.Contains va → va.toNat < totalMemory.toNat :=
    fun r hr va hcontains => Nat.lt_of_lt_of_le hcontains.2 (h.within r hr).2.2
  have hshows : ∀ r ∈ rows lines, ∀ va, r.Contains va →
      ∃ leaf, leafAt' va = some leaf ∧ r = leafRow va leaf := by
    intro r hr va hcontains
    rw [hsame va (hinside r hr va hcontains)]
    exact h.shows r hr va hcontains
  refine ⟨fun r hr => (h.within r hr).2,
    h.ordered, fun va hva => ⟨?_, fun hsome => ?_⟩, hshows,
    h.marker⟩
  · rintro ⟨r, hr, hcontains⟩
    obtain ⟨leaf, hleaf, _⟩ := hshows r hr va hcontains
    rw [hleaf]
    rfl
  · rw [hsame va hva] at hsome
    exact h.covers va (Nat.zero_le _) hva hsome

/-- When the entries of the last level are zero or pages the dump takes every
entry for what the walk does. -/
theorem walk_eq_printedAt (h : Tree root mem tbl)
    (hpages : ∀ n, entry mem tbl .pte n = 0 ∨
      entry mem tbl .pte n &&& typeMask = 3) {va : U64}
    (hva : va.toNat < totalMemory.toNat) : walk mem root va = printedAt mem tbl va := by
  rw [totalMemory_toNat] at hva
  rw [h.walk_eq (by omega)]
  cases htbl : tbl .pte (va.toNat / 2 ^ 21) with
  | some t =>
      have htype := h.type_of_tbl (l := .pmd) (by decide) htbl
      rw [printedAt_table (i := va.toNat / 2 ^ 12) htype (by omega) rfl, Leaf.ofEntries,
        if_pos htype]
      obtain hzero | hpage := hpages (va.toNat / 2 ^ 12)
      · rw [if_pos hzero, hzero]
        rfl
      · rw [if_pos hpage, if_neg]
        intro hzero
        rw [hzero] at hpage
        exact absurd hpage (by decide)
  | none =>
      obtain hempty | ⟨_, hblock⟩ := h.entry_none (l := .pmd) (by decide) htbl
      · rw [printedAt_empty hempty rfl, hempty]
        rfl
      · rw [printedAt_block hblock rfl, Leaf.ofEntries, hblock,
          if_neg (by decide), if_pos rfl]

/-- From the levels as they are in the file or as an earlier dump has left them. -/
theorem dumpPgtable_walk (h : Tree root mem tbl) (hfuel : 512 ≤ fuel)
    (hpages : ∀ n, entry mem tbl .pte n = 0 ∨ entry mem tbl .pte n &&& typeMask = 3) :
    ∃ lines, dumpPgtable fuel mem root pgLevel = some (lines, readyLevels) ∧
      dumpPgtable fuel mem root readyLevels = some (lines, readyLevels) ∧
      Agrees (walk mem root) lines := by
  obtain ⟨lines, hfirst, hdumped⟩ :=
    dumpPgtable_dumped h hfuel (rfl : pgLevelInit pgLevel = readyLevels)
  have hagain : dumpPgtable fuel mem root readyLevels =
    dumpPgtable fuel mem root pgLevel := by
    unfold dumpPgtable
    rw [pgLevelInit_ready]
    rfl
  exact ⟨lines, hfirst, hagain.trans hfirst,
    hdumped.agrees fun va hva => walk_eq_printedAt h hpages hva⟩

/-- Runs from a cleared root with tables from `get_free_page`. -/
theorem dumpPgtable_agrees (hfuel : 512 ≤ fuel) (hroot : IsPage root) (mem : U64 → U64)
    (hzero : ∀ i < 512, mem (slotAddr root i) = 0) (memMap : MemMap)
    (hheld : ∀ i, root = pageAddr i → memMap i ≠ 0) {calls : List Call}
    (hbounded : ∀ c ∈ calls, c.Bounded) (hapart : calls.Pairwise Call.Apart)
    (hprot : ∀ c ∈ calls, c.prot &&& typeMask = 3) :
    ∃ m, createAll getFreePage fuel root calls ⟨mem, memMap, []⟩ = some m ∧
      (0 ∉ allocs m.trace →
        ∃ lines, dumpPgtable fuel m.mem root pgLevel = some (lines, pgLevelInit pgLevel) ∧
          dumpPgtable fuel m.mem root (pgLevelInit pgLevel) =
            some (lines, pgLevelInit pgLevel) ∧
          Agrees (walk m.mem root) lines) := by
  obtain ⟨m, hrun⟩ := createAll_isSome getFreePage hfuel root hbounded ⟨mem, memMap, []⟩
  refine ⟨m, hrun, fun hne => ?_⟩
  obtain ⟨events, htrace, hdraws, _⟩ := createAll_logged hrun
  rw [List.append_nil] at htrace
  rw [← htrace] at hdraws
  have hpages : TablePages root (allocs m.trace) := hdraws.tablePages hne hroot hheld
  obtain ⟨tbl, hbuilt⟩ := (Built.start hroot (.init hzero memMap)).createAll hpages hbounded
    (fun _ h => absurd h List.not_mem_nil) hapart hrun
  refine dumpPgtable_walk hbuilt.tree hfuel fun n => (hbuilt.pages n).imp_right ?_
  rintro ⟨c, hc, hentry⟩
  rw [hentry]
  rw [List.append_nil, List.mem_reverse] at hc
  exact pfnPte_typeMask _ (hprot c hc)

theorem dumpPgtable_agrees_twoCalls :
    ∃ m lines, createAll getFreePage 512 0x1000 twoCalls ⟨fun _ => 0, .empty, []⟩ = some m ∧
      dumpPgtable 512 m.mem 0x1000 pgLevel = some (lines, pgLevelInit pgLevel) ∧
      Agrees (walk m.mem 0x1000) lines := by
  obtain ⟨m, hrun, hdump⟩ := dumpPgtable_agrees (Nat.le_refl 512) isPage_4096 (fun _ => 0)
    (fun _ _ => rfl) .empty (fun i heq => absurd heq (pageAddr_ne_4096 i))
    twoCalls_bounded twoCalls_apart twoCalls_type
  obtain ⟨lines, hlines, _, hagrees⟩ := hdump (twoCalls_pages hrun).2
  exact ⟨m, lines, hrun, hlines, hagrees⟩

/-- A protection without the page type leaves an entry that is printed and that
the walk does not translate. -/
theorem not_dumpPgtable_agrees :
    ¬ ∀ (root : U64) (mem : U64 → U64) (memMap : MemMap) (calls : List Call)
      (m : Machine MemMap) (lines : List Line) (levels : List PgLevel), IsPage root →
      (∀ i < 512, mem (slotAddr root i) = 0) →
      (∀ i, root = pageAddr i → memMap i ≠ 0) → (∀ c ∈ calls, c.Bounded) →
      calls.Pairwise Call.Apart →
      createAll getFreePage 512 root calls ⟨mem, memMap, []⟩ = some m →
      0 ∉ allocs m.trace → dumpPgtable 512 m.mem root pgLevel = some (lines, levels) →
      Agrees (walk m.mem root) lines := by
  intro hall
  have hbounded : ∀ c ∈ [onePage 0], c.Bounded :=
    List.forall_mem_singleton.mpr (onePage_bounded 0)
  obtain ⟨m, hrun⟩ := createAll_isSome getFreePage (Nat.le_refl 512) 0x1000 hbounded
    ⟨fun _ => 0, .empty, []⟩
  obtain ⟨tbl, htree, ⟨t, ht⟩, hentry⟩ := onePage_untyped hrun
  have hentry : entry m.mem tbl .pte 0x80 = 0x80000 := hentry
  have htype : entry m.mem tbl .pmd 0 &&& typeMask = 3 := htree.type_of_tbl (by decide) ht
  obtain ⟨lines, hlines, hdumped⟩ :=
    dumpPgtable_dumped htree (Nat.le_refl 512) (rfl : pgLevelInit pgLevel = readyLevels)
  have hagrees := hall _ _ _ _ m lines _ isPage_4096 (fun _ _ => rfl)
    (fun i heq => absurd heq (pageAddr_ne_4096 i)) hbounded (List.pairwise_singleton _ _)
    hrun (onePage_pages 0 hrun).2 hlines
  have hprinted : (printedAt m.mem tbl 0x80000).isSome := by
    rw [printedAt_table (i := 0x80) htype (by decide) (by decide), hentry]
    rfl
  obtain ⟨r, hr, hcontains⟩ := hdumped.covers 0x80000 (by decide) (by decide) hprinted
  have hwalk := (hagrees.covers 0x80000 (by decide)).mp ⟨r, hr, hcontains⟩
  rw [htree.walk_eq (by decide)] at hwalk
  change (Leaf.ofEntries (entry m.mem tbl .pmd 0) (entry m.mem tbl .pte 0x80)).isSome = true
    at hwalk
  rw [hentry, Leaf.ofEntries, htype, if_pos rfl] at hwalk
  exact absurd hwalk (by decide)

end Dump

end YiOS
