import YiOS.Mmu.Pieces

namespace YiOS

open YiOS.Library

variable {σ : Type} {getFreePage : σ → U64 × σ} {fuel : Nat}
variable {root t : U64} {r : Request} {m m' : Machine σ}

/-! The third level: a block or a table of pages. -/

theorem allocInitPte_maps (hregion : InRegion (2 ^ 21) k addr.toNat stop.toNat)
    (hsect : ¬ r.Sect addr.toNat stop.toNat k)
    (h : allocInitPte (earlyPgtableAlloc getFreePage) fuel (slotAddr t (k % 512)) addr stop
      (r.phys addr.toNat) r.prot r.flags m = some m') :
    Maps root r addr.toNat stop.toNat (Asks r .pmd addr.toNat stop.toNat) .pmd (k / 512) t
      m m' := by
  simp only [allocInitPte, pteOffsetPhys_eq] at h
  obtain ⟨events, htrace, hstores⟩ := pteLoop_stores hregion (isPage_pagePaddr _) h
  by_cases hzero : m.mem (slotAddr t (k % 512)) = 0
  · rw [pmdTypeTable, ensureTable_of_zero hzero] at htrace hstores
    refine ⟨events ++ linkEvents .pmd (slotAddr t (k % 512)) (getFreePage m.pool).1, ?_, ?_⟩
    · rw [htrace, List.append_assoc]
      rfl
    · intro tbl htree ht hclean
      have hfresh : Fresh tbl [(getFreePage m.pool).1] := by
        have hfresh := hclean.fresh
        rwa [allocs_append, hstores.quiet.1] at hfresh
      have hpage : IsPage (getFreePage m.pool).1 :=
        hfresh.page _ (List.mem_singleton_self _)
      have hempty : entry m.mem tbl .pmd k = 0 := by rw [entry_of_some ht, hzero]
      have hbelow : tbl .pte k = none := by
        cases hbelow : tbl .pte k with
        | none => rfl
        | some u =>
            have hentry := htree.entry_table (l := .pmd) (by decide) hbelow
            exact absurd (hempty.symm.trans hentry).symm (table_ne_zero u)
      have hblock : ¬ IsBlock (entry m.mem tbl .pmd k) := by
        rw [hempty]
        decide
      simp only [Function.update_self, hpage.pagePaddr_table] at hstores
      have hopen := Opened.link htree ht hbelow hfresh
      have htree₁ := htree.linkTable (l := .pmd) (by decide) ht hbelow hpage
        (hfresh.new _ (List.mem_singleton_self _))
      exact ⟨_, hopen.pages htree₁ hregion hsect hblock hstores⟩
  · rw [pmdTypeTable, ensureTable_of_ne_zero hzero] at htrace hstores
    refine ⟨events, htrace, ?_⟩
    intro tbl htree ht hclean
    have hentry : entry m.mem tbl .pmd k = m.mem (slotAddr t (k % 512)) := entry_of_some ht
    cases hbelow : tbl .pte k with
    | some u =>
        have htable := htree.entry_table (l := .pmd) (by decide) hbelow
        have hblock : ¬ IsBlock (entry m.mem tbl .pmd k) := by
          rw [IsBlock, htable, table_typeMask]
          decide
        rw [← hentry, htable, (htree.page hbelow).pagePaddr_table] at hstores
        have hpages :=
          (Opened.refl hbelow).pages htree hregion hsect hblock hstores
        rw [List.append_nil] at hpages
        exact ⟨tbl, hpages⟩
    | none =>
        obtain hempty | ⟨_, hblock⟩ := htree.entry_none (l := .pmd) (by decide) hbelow
        · exact absurd (hentry.symm.trans hempty) hzero
        · have hhit : Hit r addr.toNat stop.toNat m.mem tbl k :=
            ⟨hregion.meets_iff.mpr rfl, hsect, hblock⟩
          rw [← hentry] at hstores
          obtain ⟨hwords, hmapped⟩ :=
            Mapped.overBlock htree hregion hsect hblock (hclean.apart k hhit).1 hstores
          exact ⟨tbl, htree.frame hwords, hmapped⟩

theorem pmdSetSection_maps (hregion : InRegion (2 ^ 21) k A B) (hsect : r.Sect A B k) :
    Maps root r A B (Asks r .pmd A B) .pmd (k / 512) t m
      (pmdSetSection (slotAddr t (k % 512)) (r.phys A) r.prot m) := by
  have hA : A = k * 2 ^ 21 := Nat.le_antisymm hsect.1 hregion.low
  refine ⟨[.set .pmd (slotAddr t (k % 512)) (r.sectDesc k)], ?_, ?_⟩
  · rw [hA]
    rfl
  · intro tbl htree ht _
    have hmapped := Mapped.block htree ht hregion hsect
    refine ⟨Tree.dropPte tbl k, ?_, ?_⟩
    · rw [hA]
      exact htree.setBlock ht (pfnPmd_sect_typeMask _ _)
    · rw [hA] at hmapped ⊢
      exact hmapped

theorem and_sectionMask (x : U64) : x &&& ~~~sectionMask = 0 ↔ x.toNat % 2 ^ 21 = 0 := by
  have hmask : ~~~sectionMask = BitVec.ofNat 64 (2 ^ 21 - 1) := by decide
  rw [hmask, ← toNat_and_lowMask x (by omega)]
  exact (BitVec.toNat_eq (y := 0)).trans Iff.rfl

/-- The test of `alloc_init_pmd`: the three values have no bits below 2 MiB. -/
theorem section_iff (hregion : InRegion (2 ^ 21) k addr.toNat upto.toNat) :
    ((addr ||| upto ||| r.phys addr.toNat) &&& ~~~sectionMask = 0 ∧
        r.flags &&& noBlockMappings = 0) ↔ r.Sect addr.toNat upto.toNat k := by
  obtain ⟨_, _, hlt, hlow, hhigh, _⟩ := hregion
  have htest : (addr ||| upto ||| r.phys addr.toNat) &&& ~~~sectionMask = 0 ↔
      (addr.toNat % 2 ^ 21 = 0 ∧ upto.toNat % 2 ^ 21 = 0) ∧
        (r.phys addr.toNat).toNat % 2 ^ 21 = 0 := by
    rw [← and_sectionMask, ← and_sectionMask, ← and_sectionMask]
    exact (or_and_eq_zero _ _ _).trans (and_congr_left' (or_and_eq_zero _ _ _))
  rw [htest, Request.Sect]
  constructor
  · rintro ⟨⟨⟨haddr, hupto⟩, hphys⟩, hflags⟩
    have hstart : addr.toNat = k * 2 ^ 21 := by omega
    refine ⟨Nat.le_of_eq hstart, ?_, ?_, hflags⟩
    · rw [Nat.succ_mul, ← hstart]
      exact add_le_of_aligned haddr hupto hlt
    · rwa [← hstart]
  · rintro ⟨hstart, hstop, hphys, hflags⟩
    have hstart : addr.toNat = k * 2 ^ 21 := Nat.le_antisymm hstart hlow
    have hstop : upto.toNat = (k + 1) * 2 ^ 21 := Nat.le_antisymm hhigh hstop
    rw [hstart]
    rw [hstop, Nat.mul_mod_left, Nat.mul_mod_left]
    exact ⟨⟨⟨rfl, rfl⟩, hphys⟩, hflags⟩

/-! The loops over the entries of one table. -/

/-- The piece of a range that starts at `a` and stops at the next boundary. -/
theorem InRegion.piece (hregion : InRegion (512 * size) j A B) (hsize : size % 2 ^ 12 = 0)
    (hlow : A ≤ a) (hlt : a < B) (ha : a % 2 ^ 12 = 0)
    (hb : b = min ((a / size + 1) * size) B) :
    InRegion size (a / size) a b ∧ a / size / 512 = j := by
  have hpos : 0 < size := by
    apply Nat.pos_of_ne_zero
    rintro rfl
    exact absurd hregion.high (by have := hregion.lt; omega)
  have hupper : a < (a / size + 1) * size := by
    rw [Nat.mul_comm]
    exact Nat.lt_mul_div_succ a hpos
  refine ⟨⟨ha, ?_, ?_, Nat.div_mul_le_self a size, ?_, ?_⟩, ?_⟩
  · obtain hmin | hmin := Nat.le_total ((a / size + 1) * size) B
    · rw [hb, Nat.min_eq_left hmin, Nat.mul_mod, hsize, Nat.mul_zero, Nat.zero_mod]
    · rw [hb, Nat.min_eq_right hmin]
      exact hregion.stop
  · rw [hb]
    exact Nat.lt_min.mpr ⟨hupper, hlt⟩
  · rw [hb]
    exact Nat.min_le_left _ _
  · rw [hb]
    exact (Nat.min_le_right _ _).trans hregion.bound
  · rw [Nat.div_div_eq_div_mul, Nat.mul_comm size]
    exact Nat.div_eq_of_lt_le (hregion.low.trans hlow) (Nat.lt_of_lt_of_le hlt hregion.high)

theorem meets_split (hsize : 0 < size) (hlow : A ≤ b) (hhigh : b ≤ B)
    (hb : b % size = 0 ∨ A = b) :
    Meets size A B n ↔ Meets size A b n ∨ Meets size b B n := by
  obtain haligned | rfl := hb
  · obtain ⟨c, rfl⟩ := Nat.dvd_of_mod_eq_zero haligned
    simp only [Meets, Nat.mul_comm size, Nat.succ_mul] at *
    by_cases hside : c ≤ n
    · have hle : c * size ≤ n * size := Nat.mul_le_mul_right size hside
      omega
    · have hle : (n + 1) * size ≤ c * size := Nat.mul_le_mul_right size (by omega)
      rw [Nat.succ_mul] at hle
      omega
  · exact ⟨.inr, fun h => h.resolve_left not_meets_self⟩

theorem not_meets_both (hb : b % size = 0 ∨ A = b) (hleft : Meets size A b n) :
    ¬ Meets size b B n := by
  rintro ⟨_, hright, _⟩
  obtain haligned | rfl := hb
  · obtain ⟨c, rfl⟩ := Nat.dvd_of_mod_eq_zero haligned
    rw [Nat.mul_comm size] at hleft hright
    have hlt : n < c := Nat.lt_of_mul_lt_mul_right hleft.2.2
    have hlt' : c < n + 1 := Nat.lt_of_mul_lt_mul_right hright
    omega
  · exact not_meets_self hleft

theorem Level.span_pos (l : Level) : 0 < l.span := by
  cases l <;> decide

theorem Level.span_dvd {l l' : Level} (h : l'.span < l.span) : l'.span ∣ l.below.span := by
  cases l <;> cases l' <;> first | (exact absurd h (by decide)) | decide

theorem Cut.of_span {l : Level} (hlow : A ≤ b) (hhigh : b ≤ B)
    (hb : b % l.below.span = 0 ∨ A = b) :
    Cut A b B := by
  refine ⟨hlow, hhigh, hb.imp_left fun h => ?_⟩
  cases l <;> simp only [Level.below, Level.span] at h <;> omega

theorem Asks.split (hlow : A ≤ b) (hhigh : b ≤ B) (hb : b % l.below.span = 0 ∨ A = b)
    (l' : Level) (n : Nat) :
    Asks r l A B l' n ↔ Asks r l A b l' n ∨ Asks r l b B l' n := by
  have hcut : Cut A b B := .of_span hlow hhigh hb
  by_cases hspan : l'.span < l.span
  · have hb' : b % l'.span = 0 ∨ A = b :=
      hb.imp_left fun h => Nat.mod_eq_zero_of_dvd
        ((Level.span_dvd hspan).trans (Nat.dvd_of_mod_eq_zero h))
    simp only [Asks, hspan, true_and, meets_split l'.span_pos hlow hhigh hb', or_and_right]
    refine or_congr (and_congr_right fun hmeets => ?_) (and_congr_right fun hmeets => ?_)
    · refine imp_congr_right fun hl => not_congr ?_
      subst hl
      exact hcut.sect_left hmeets
    · refine imp_congr_right fun hl => not_congr ?_
      subst hl
      exact hcut.sect_right hmeets
  · simp only [Asks, hspan, false_and, or_self]

theorem Asks.not_both (hb : b % l.below.span = 0 ∨ A = b) (hleft : Asks r l A b l' n) :
    ¬ Asks r l b B l' n := by
  intro hright
  refine not_meets_both (hb.imp_left fun h => ?_) hleft.2.1 hright.2.1
  exact Nat.mod_eq_zero_of_dvd
    ((Level.span_dvd hleft.1).trans (Nat.dvd_of_mod_eq_zero h))

theorem Level.span_eq {l : Level} (hl : l ≠ .pte) : l.span = 512 * l.below.span := by
  cases l <;> first | (exact absurd rfl hl) | decide

theorem Level.span_aligned (l : Level) : l.span % 2 ^ 12 = 0 := by
  cases l <;> decide

/-- Within one table the entry pointer moves with the address. -/
theorem slotAddr_next {size x : Nat} (hx : x / 512 = j) (hpos : 0 < size)
    (hlt : (x + 1) * size < (j + 1) * (512 * size)) :
    slotAddr t (x % 512) + entrySize = slotAddr t ((x + 1) * size / size % 512) := by
  have hlt : x + 1 < (j + 1) * 512 := by
    rw [← Nat.mul_assoc] at hlt
    exact Nat.lt_of_mul_lt_mul_right hlt
  have hmod : x % 512 + 1 = (x + 1) % 512 := by omega
  rw [slotAddr_add_entrySize, Nat.mul_div_cancel _ hpos, hmod]

/-- The next piece, as long as the range is not at its end. -/
theorem InRegion.next {size A : Nat} {a stop : U64} {next : U64 → U64 → U64}
    (hregion : InRegion (512 * size) j A stop.toNat) (hsize : size % 2 ^ 12 = 0)
    (hnext : a.toNat < stop.toNat → stop.toNat ≤ 2 ^ 48 → a.toNat % 2 ^ 12 = 0 →
      stop.toNat % 2 ^ 12 = 0 →
      (next a stop).toNat = min ((a.toNat / size + 1) * size) stop.toNat)
    (hlow : A ≤ a.toNat) (hhigh : a.toNat ≤ stop.toNat) (haligned : a.toNat % 2 ^ 12 = 0)
    (hne : a ≠ stop) :
    InRegion size (a.toNat / size) a.toNat (next a stop).toNat ∧ a.toNat / size / 512 = j ∧
      (next a stop).toNat ≤ stop.toNat ∧
      (next a stop ≠ stop → (next a stop).toNat = (a.toNat / size + 1) * size ∧
        (next a stop).toNat < stop.toNat) := by
  have hlt := toNat_lt_of_ne hhigh hne
  have hb := hnext hlt hregion.bound haligned hregion.stop
  obtain ⟨hpiece, hindex⟩ := hregion.piece hsize hlow hlt haligned hb
  have hle : (next a stop).toNat ≤ stop.toNat := hb ▸ Nat.min_le_right _ _
  refine ⟨hpiece, hindex, hle, fun hlast => ?_⟩
  have hless := toNat_lt_of_ne hle hlast
  omega

/-- Where a loop over a range inside of one table stands: the pointer is at the slot of
the address, which the loop has reached at the boundary of an entry. -/
structure RegionCursor (size A : Nat) (t stop addr ptr : U64) : Prop where
  low : A ≤ addr.toNat
  high : addr.toNat ≤ stop.toNat
  aligned : addr.toNat % 2 ^ 12 = 0
  slot : addr ≠ stop → (addr.toNat % size = 0 ∨ A = addr.toNat) ∧
    ptr = slotAddr t (addr.toNat / size % 512)

theorem InRegion.cursor {size : Nat} {addr stop : U64} (t : U64)
    (hregion : InRegion size k addr.toNat stop.toNat) (unit : Nat) :
    RegionCursor unit addr.toNat t stop addr (slotAddr t (addr.toNat / unit % 512)) :=
  ⟨Nat.le_refl _, Nat.le_of_lt hregion.lt, hregion.start, fun _ => ⟨.inr rfl, rfl⟩⟩

theorem InRegion.ne {size : Nat} {addr stop : U64}
    (hregion : InRegion size k addr.toNat stop.toNat) : addr ≠ stop :=
  fun heq => absurd hregion.lt (by rw [heq]; exact Nat.lt_irrefl _)

theorem RegionCursor.next {size A : Nat} {t stop addr ptr : U64} {next : U64 → U64 → U64}
    (h : RegionCursor size A t stop addr ptr) (hsize : size % 2 ^ 12 = 0) (hpos : 0 < size)
    (hnext : ∀ {addr : U64}, addr.toNat < stop.toNat → stop.toNat ≤ 2 ^ 48 →
      addr.toNat % 2 ^ 12 = 0 → stop.toNat % 2 ^ 12 = 0 →
      (next addr stop).toNat = min ((addr.toNat / size + 1) * size) stop.toNat)
    (hregion : InRegion (512 * size) j A stop.toNat) (hne : addr ≠ stop) :
    RegionCursor size A t stop (next addr stop) (ptr + entrySize) := by
  obtain ⟨hpiece, hindex, hnextLe, hmore⟩ :=
    hregion.next hsize hnext h.low h.high h.aligned hne
  refine ⟨h.low.trans (Nat.le_of_lt hpiece.lt), hnextLe, hpiece.stop, fun hlast => ?_⟩
  obtain ⟨hboundary, hless⟩ := hmore hlast
  obtain ⟨_, rfl⟩ := h.slot hne
  rw [hboundary]
  refine ⟨.inl (Nat.mul_mod_left _ _), slotAddr_next hindex hpos ?_⟩
  rw [← hboundary]
  exact Nat.lt_of_lt_of_le hless hregion.high

/-- A relation between the states before and after a piece holds of the whole
range when it composes at the boundaries of entries. -/
theorem regionLoop {α : Type*} (size : Nat) {next : U64 → U64 → U64}
    {body : U64 → U64 → U64 → U64 → α → Option α} {offset : U64 → U64} {m m' : α}
    {P : Nat → Nat → α → α → Prop} (hsize : size % 2 ^ 12 = 0) (hpos : 0 < size)
    (hoffset : ∀ a b, offset a + (b - a) = offset b)
    (hnext : ∀ {addr : U64}, addr.toNat < stop.toNat → stop.toNat ≤ 2 ^ 48 →
      addr.toNat % 2 ^ 12 = 0 → stop.toNat % 2 ^ 12 = 0 →
      (next addr stop).toNat = min ((addr.toNat / size + 1) * size) stop.toNat)
    (hrefl : ∀ A m, P A A m m)
    (htrans : ∀ {A b B m₁ m₂ m₃}, A ≤ b → b ≤ B → (b % size = 0 ∨ A = b) →
      P A b m₁ m₂ → P b B m₂ m₃ → P A B m₁ m₃)
    (hbody : ∀ {k : Nat} {addr upto : U64} {s s' : α}, k / 512 = j →
      InRegion size k addr.toNat upto.toNat →
      body (slotAddr t (k % 512)) addr upto (offset addr) s = some s' →
      P addr.toNat upto.toNat s s')
    (hregion : InRegion (512 * size) j addr.toNat stop.toNat)
    (h : doRange next body entrySize stop fuel
      (slotAddr t (addr.toNat / size % 512)) addr (offset addr) m = some m') :
    P addr.toNat stop.toNat m m' := by
  have hinv := doRange_inv (I := fun a ptr phys s =>
      P addr.toNat a.toNat m s ∧ RegionCursor size addr.toNat t stop a ptr ∧
        phys = offset a)
    ?_ ⟨hrefl _ m, hregion.cursor t size, rfl⟩ hregion.ne h
  · obtain ⟨_, _, hP, _⟩ := hinv
    exact hP
  · rintro a ptr phys s s' ⟨hP, hcursor, rfl⟩ hstop hrun
    obtain ⟨hcut, rfl⟩ := hcursor.slot hstop
    obtain ⟨hpiece, hindex, _⟩ :=
      hregion.next hsize hnext hcursor.low hcursor.high hcursor.aligned hstop
    exact ⟨htrans hcursor.low (Nat.le_of_lt hpiece.lt) hcut hP (hbody hindex hpiece hrun),
      hcursor.next hsize hpos hnext hregion hstop, hoffset a _⟩

theorem rangeLoop {l : Level} {next : U64 → U64 → U64}
    {body : U64 → U64 → U64 → U64 → Machine σ → Option (Machine σ)}
    {P : Nat → Nat → Machine σ → Machine σ → Prop} (hl : l ≠ .pte)
    (hnext : ∀ {addr : U64}, addr.toNat < stop.toNat → stop.toNat ≤ 2 ^ 48 →
      (next addr stop).toNat =
        min ((addr.toNat / l.below.span + 1) * l.below.span) stop.toNat)
    (hrefl : ∀ A m, P A A m m)
    (htrans : ∀ {A b B m₁ m₂ m₃}, A ≤ b → b ≤ B → (b % l.below.span = 0 ∨ A = b) →
      P A b m₁ m₂ → P b B m₂ m₃ → P A B m₁ m₃)
    (hbody : ∀ {k : Nat} {addr upto : U64} {s s' : Machine σ}, k / 512 = j →
      InRegion l.below.span k addr.toNat upto.toNat →
      body (slotAddr t (k % 512)) addr upto (r.phys addr.toNat) s = some s' →
      P addr.toNat upto.toNat s s')
    (hregion : InRegion l.span j addr.toNat stop.toNat)
    (h : doRange next body entrySize stop fuel
      (slotAddr t (addr.toNat / l.below.span % 512)) addr (r.phys addr.toNat) m = some m') :
    P addr.toNat stop.toNat m m' := by
  rw [Level.span_eq hl] at hregion
  exact regionLoop l.below.span l.below.span_aligned l.below.span_pos r.phys_next
    (fun hlt hstop _ _ => hnext hlt hstop) hrefl htrans hbody hregion h

theorem rangeLoop_maps {l : Level} {next : U64 → U64 → U64}
    {body : U64 → U64 → U64 → U64 → Machine σ → Option (Machine σ)} (hl : l ≠ .pte)
    (hnext : ∀ {addr : U64}, addr.toNat < stop.toNat → stop.toNat ≤ 2 ^ 48 →
      (next addr stop).toNat =
        min ((addr.toNat / l.below.span + 1) * l.below.span) stop.toNat)
    (hbody : ∀ {k : Nat} {addr upto : U64} {s s' : Machine σ},
      InRegion l.below.span k addr.toNat upto.toNat →
      body (slotAddr t (k % 512)) addr upto (r.phys addr.toNat) s = some s' →
      Maps root r addr.toNat upto.toNat (Asks r l addr.toNat upto.toNat) l (k / 512) t s s')
    (hregion : InRegion l.span j addr.toNat stop.toNat)
    (h : doRange next body entrySize stop fuel
      (slotAddr t (addr.toNat / l.below.span % 512)) addr (r.phys addr.toNat) m = some m') :
    Maps root r addr.toNat stop.toNat (Asks r l addr.toNat stop.toNat) l j t m m' := by
  refine rangeLoop (P := fun A B => Maps root r A B (Asks r l A B) l j t) hl hnext ?_ ?_ ?_
    hregion h
  · intro A m
    refine ⟨[], rfl, fun tbl htree _ _ => ⟨tbl, htree, Mapped.refl r _ m.mem ?_ ?_⟩⟩
    · exact fun hn => absurd hn.2.1 not_meets_self
    · exact fun hn => absurd hn.2.1 not_meets_self
  · intro A b B m₁ m₂ m₃ hlow hhigh hb hfirst hsecond
    have hcut : Cut A b B := .of_span hlow hhigh hb
    exact hfirst.trans hsecond hl hcut (Asks.split hlow hhigh hb)
  · rintro k addr upto s s' rfl hpiece hrun
    exact hbody hpiece hrun

/-! From the third level up. -/

theorem Asks.descend (hl : l ≠ .pte) (hl' : l ≠ .pmd)
    (hregion : InRegion l.below.span k A B)
    (l' : Level) (n : Nat) :
    Asks r l A B l' n ↔ (l' = l.below ∧ n = k) ∨ Asks r l.below A B l' n := by
  by_cases heq : l' = l.below
  · subst heq
    have hspan : l.below.span < l.span := by
      cases l <;> first | (exact absurd rfl hl) | decide
    simp only [Asks, hspan, true_and, hregion.meets_iff, Nat.lt_irrefl, false_and, or_false,
      Level.below_ne_pte hl hl', false_imp_iff, and_true]
  · have hspan : l'.span < l.span ↔ l'.span < l.below.span := by
      cases l <;> cases l' <;> first | (exact absurd rfl hl) | (exact absurd rfl heq) | decide
    simp only [Asks, hspan, heq, false_and, false_or]

theorem allocInitPmd_maps (hregion : InRegion (2 ^ 30) k addr.toNat stop.toNat)
    (h : allocInitPmd (earlyPgtableAlloc getFreePage) fuel (slotAddr t (k % 512)) addr stop
      (r.phys addr.toNat) r.prot r.flags m = some m') :
    Maps root r addr.toNat stop.toNat (Asks r .pud addr.toNat stop.toNat) .pud (k / 512) t
      m m' := by
  simp only [allocInitPmd, pmdOffsetPhys_eq] at h
  refine Maps.descend (ensureTable_maps getFreePage root t r addr.toNat (l := .pud)
    (by decide) (by decide) k m) ?_ (by decide) (by decide) (Nat.le_of_lt hregion.lt)
    (Asks.descend (by decide) (by decide) hregion)
  refine rangeLoop_maps (l := .pmd) (by decide) ?_ ?_ hregion h
  · exact fun hlt hstop => toNat_addrEnd (by decide) (by decide) (by decide) hlt hstop
  · intro k addr upto s s' hpiece hrun
    split at hrun
    · next hsect =>
      cases hrun
      exact pmdSetSection_maps hpiece ((section_iff hpiece).mp hsect)
    · next hsect => exact allocInitPte_maps hpiece (mt (section_iff hpiece).mpr hsect) hrun

theorem allocInitPud_maps (hregion : InRegion (2 ^ 39) k addr.toNat stop.toNat)
    (h : allocInitPud (earlyPgtableAlloc getFreePage) fuel (slotAddr t (k % 512)) addr stop
      (r.phys addr.toNat) r.prot r.flags m = some m') :
    Maps root r addr.toNat stop.toNat (Asks r .pgd addr.toNat stop.toNat) .pgd (k / 512) t
      m m' := by
  simp only [allocInitPud, pudOffsetPhys_eq] at h
  refine Maps.descend (ensureTable_maps getFreePage root t r addr.toNat (l := .pgd)
    (by decide) (by decide) k m) ?_ (by decide) (by decide) (Nat.le_of_lt hregion.lt)
    (Asks.descend (by decide) (by decide) hregion)
  refine rangeLoop_maps (l := .pud) (by decide) ?_ ?_ hregion h
  · exact fun hlt hstop => toNat_addrEnd (by decide) (by decide) (by decide) hlt hstop
  · intro k addr upto s s' hpiece hrun
    exact allocInitPmd_maps hpiece hrun

/-! The whole call. -/

/-- The arguments of `__create_pgd_mapping` after the root. -/
structure Call where
  phys : U64
  virt : U64
  size : U64
  prot : U64
  flags : U64
  deriving DecidableEq, Repr

namespace Call

/-- The page-rounded range. -/
def low (c : Call) : Nat := (c.virt &&& pageMask).toNat

def high (c : Call) : Nat := (pageBalign (c.virt + c.size)).toNat

def request (c : Call) : Request where
  delta := (c.phys &&& pageMask) - (c.virt &&& pageMask)
  prot := c.prot
  flags := c.flags

/-- A nonempty range below 2^48. -/
structure Bounded (c : Call) : Prop where
  size : 1 ≤ c.size.toNat
  virt : c.virt.toNat + c.size.toNat ≤ 2 ^ 48

theorem low_eq (c : Call) : c.low = c.virt.toNat / 4096 * 4096 := toNat_and_pageMask c.virt

theorem high_eq (hc : Bounded c) :
    c.high = (c.virt.toNat + c.size.toNat + 4095) / 4096 * 4096 := by
  have hvirt := hc.virt
  have hsum : (c.virt + c.size).toNat = c.virt.toNat + c.size.toNat := by
    rw [BitVec.toNat_add]
    omega
  rw [high, toNat_pageBalign _ (by omega), hsum]

theorem inRegion (hc : Bounded c) : InRegion (2 ^ 48) 0 c.low c.high := by
  obtain ⟨hsize, hvirt⟩ := hc
  have hpages : (c.virt.toNat + c.size.toNat + 4095) / 4096 < 2 ^ 36 + 1 := by
    rw [Nat.div_lt_iff_lt_mul (by omega)]
    omega
  have hbound : c.high ≤ 2 ^ 48 := by
    rw [high_eq ⟨hsize, hvirt⟩]
    exact Nat.mul_le_mul_right 4096 (Nat.le_of_lt_succ hpages)
  refine ⟨?_, ?_, ?_, ?_, ?_, hbound⟩
  · rw [low_eq]
    exact Nat.mul_mod_left _ _
  · rw [high_eq ⟨hsize, hvirt⟩]
    exact Nat.mul_mod_left _ _
  · rw [low_eq, high_eq ⟨hsize, hvirt⟩]
    clear hpages hbound hvirt
    omega
  · rw [Nat.zero_mul]
    exact Nat.zero_le _
  · rw [Nat.zero_add, Nat.one_mul]
    exact hbound

theorem request_phys (c : Call) : c.request.phys c.low = c.phys &&& pageMask := by
  rw [low, Request.phys_toNat, request]
  rw [BitVec.add_comm, BitVec.sub_add_cancel]

theorem low_index (c : Call) :
    (c.virt &&& pageMask).toNat / 2 ^ 39 = c.virt.toNat / 2 ^ 39 := by
  rw [toNat_and_pageMask]
  omega

/-- `__create_pgd_mapping` with `early_pgtable_alloc`. -/
def create (getFreePage : σ → U64 × σ) (fuel : Nat) (pgdir : U64) (c : Call)
    (m : Machine σ) :
    Option (Machine σ) :=
  createPgdMapping (earlyPgtableAlloc getFreePage) fuel pgdir c.phys c.virt c.size c.prot
    c.flags m

theorem create_maps (hc : Bounded c) (h : c.create getFreePage fuel root m = some m') :
    Maps root c.request c.low c.high (Asks c.request .pgd c.low c.high) .pgd 0 root m m' := by
  simp only [create, createPgdMapping, pgdOffsetRaw_eq] at h
  rw [← request_phys, ← low_index] at h
  refine rangeLoop_maps (l := .pgd) (by decide) ?_ ?_ (inRegion hc) h
  · exact fun hlt hstop => toNat_addrEnd (by decide) (by decide) (by decide) hlt hstop
  · intro k addr upto s s' hpiece hrun
    exact allocInitPud_maps hpiece hrun

end Call

end YiOS
