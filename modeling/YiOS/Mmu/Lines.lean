import YiOS.Mmu.Dump
import YiOS.Mmu.Reach

namespace YiOS

open YiOS.Library

namespace Dump

/-! The lines against the leaves of the tables. -/

def rows (lines : List Line) : List Row :=
  lines.filterMap fun
    | .row row => some row
    | .marker _ => none

def markers (lines : List Line) : List String :=
  lines.filterMap fun
    | .marker name => some name
    | .row _ => none

def Row.Contains (row : Row) (va : U64) : Prop :=
  row.start.toNat ≤ va.toNat ∧ va.toNat < row.stop.toNat

/-- The line that a leaf over an address calls for: its region, and the columns of the whole
descriptor. -/
def leafRow (va : U64) : Leaf → Row
  | .block e =>
      { start := va &&& pmdMask
        stop := (va &&& pmdMask) + pmdSize
        delta := 2
        unit := some 'M'
        name := "PMD"
        columns := dumpProt e pteBits }
  | .page e =>
      { start := va &&& pageMask
        stop := (va &&& pageMask) + pageSize
        delta := 4
        unit := some 'K'
        name := "PTE"
        columns := dumpProt e pteBits }

/-- The lines of `[A, B)` are those of the leaves. -/
structure Dumped (leafAt : U64 → Option Leaf) (A B : Nat) (lines : List Line) : Prop where
  within : ∀ r ∈ rows lines, A ≤ r.start.toNat ∧ r.start.toNat < r.stop.toNat ∧
    r.stop.toNat ≤ B
  ordered : (rows lines).Pairwise fun r r' => r.stop.toNat ≤ r'.start.toNat
  covers : ∀ va : U64, A ≤ va.toNat → va.toNat < B → (leafAt va).isSome →
    ∃ r ∈ rows lines, r.Contains va
  shows : ∀ r ∈ rows lines, ∀ va, r.Contains va →
    ∃ leaf, leafAt va = some leaf ∧ r = leafRow va leaf
  marker : markers lines = if A = 0 ∧ 0 < B then ["Identical mapping"] else []

namespace Dumped

variable {leafAt : U64 → Option Leaf} {A b B : Nat} {first second : List Line}

theorem nil (leafAt : U64 → Option Leaf) (A : Nat) : Dumped leafAt A A [] where
  within := fun r hr => absurd hr List.not_mem_nil
  ordered := List.Pairwise.nil
  covers := fun va hlow hhigh => absurd hlow (Nat.not_le.mpr hhigh)
  shows := fun r hr => absurd hr List.not_mem_nil
  marker := by
    rw [if_neg]
    · rfl
    · omega

theorem append (h₁ : Dumped leafAt A b first) (h₂ : Dumped leafAt b B second) (hlow : A ≤ b)
    (hhigh : b ≤ B) : Dumped leafAt A B (first ++ second) := by
  have hrows : rows (first ++ second) = rows first ++ rows second := List.filterMap_append
  constructor
  · intro r hr
    rw [hrows, List.mem_append] at hr
    cases hr with
    | inl hr =>
        have hwithin := h₁.within r hr
        omega
    | inr hr =>
        have hwithin := h₂.within r hr
        omega
  · rw [hrows, List.pairwise_append]
    refine ⟨h₁.ordered, h₂.ordered, fun r hr r' hr' => ?_⟩
    have hwithin := h₁.within r hr
    have hwithin' := h₂.within r' hr'
    omega
  · intro va hva hva' hleaf
    rw [hrows]
    by_cases hside : va.toNat < b
    · obtain ⟨r, hr, hcontains⟩ := h₁.covers va hva hside hleaf
      exact ⟨r, List.mem_append_left _ hr, hcontains⟩
    · obtain ⟨r, hr, hcontains⟩ := h₂.covers va (not_lt.mp hside) hva' hleaf
      exact ⟨r, List.mem_append_right _ hr, hcontains⟩
  · intro r hr
    rw [hrows, List.mem_append] at hr
    exact hr.elim (h₁.shows r) (h₂.shows r)
  · have hmarkers : markers (first ++ second) = markers first ++ markers second :=
      List.filterMap_append
    rw [hmarkers, h₁.marker, h₂.marker]
    by_cases hA : A = 0
    · by_cases hb : b = 0
      · simp [hA, hb]
      · have hb' : 0 < b := Nat.pos_of_ne_zero hb
        simp [hA, hb, hb', Nat.lt_of_lt_of_le hb' hhigh]
    · have hb : b ≠ 0 := by omega
      simp [hA, hb]

end Dumped

/-! One line. -/

def markerOf (start : U64) : List Line := if start = 0 then [.marker "Identical mapping"] else []

theorem markerOf_eq (start : U64) {B : Nat} (hlt : start.toNat < B) :
    rows (markerOf start) = [] ∧ markers (markerOf start) =
      if start.toNat = 0 ∧ 0 < B then ["Identical mapping"] else [] := by
  have hpos : 0 < B := by omega
  unfold markerOf
  by_cases hzero : start = 0
  · simp [hzero, rows, markers, hpos]
  · have hne : start.toNat ≠ 0 := fun h => hzero (BitVec.eq_of_toNat_eq h)
    rw [if_neg hzero, if_neg fun h => hne h.1]
    exact ⟨rfl, rfl⟩

theorem Dumped.none {leafAt : U64 → Option Leaf} {start : U64} {B : Nat}
    (hlt : start.toNat < B)
    (hleaf : ∀ va : U64, start.toNat ≤ va.toNat → va.toNat < B → leafAt va = none) :
    Dumped leafAt start.toNat B (markerOf start) := by
  obtain ⟨hrows, hmarkers⟩ := markerOf_eq start hlt
  constructor
  · rw [hrows]
    exact fun r hr => absurd hr List.not_mem_nil
  · rw [hrows]
    exact List.Pairwise.nil
  · intro va hlow hhigh hsome
    rw [hleaf va hlow hhigh] at hsome
    exact absurd hsome Bool.false_ne_true
  · rw [hrows]
    exact fun r hr => absurd hr List.not_mem_nil
  · exact hmarkers

theorem Dumped.single {leafAt : U64 → Option Leaf} {row : Row} {leaf : Leaf}
    (hlt : row.start.toNat < row.stop.toNat)
    (hleaf : ∀ va, row.Contains va → leafAt va = some leaf ∧ row = leafRow va leaf) :
    Dumped leafAt row.start.toNat row.stop.toNat (markerOf row.start ++ [.row row]) := by
  obtain ⟨hnone, hmarkers⟩ := markerOf_eq row.start hlt
  have hrows : rows (markerOf row.start ++ [.row row]) = [row] := by
    unfold rows at hnone ⊢
    rw [List.filterMap_append, hnone]
    rfl
  constructor
  · rw [hrows, List.forall_mem_singleton]
    exact ⟨Nat.le_refl _, hlt, Nat.le_refl _⟩
  · rw [hrows]
    exact List.pairwise_singleton _ _
  · intro va hlow hhigh _
    rw [hrows]
    exact ⟨row, List.mem_singleton_self row, hlow, hhigh⟩
  · rw [hrows, List.forall_mem_singleton]
    exact fun va hcontains => ⟨leaf, hleaf va hcontains⟩
  · unfold markers at hmarkers ⊢
    rw [List.filterMap_append, hmarkers]
    exact List.append_nil _

/-! `print_pgtable` with the masks that `pg_level_init` leaves. -/

def readyLevels : List PgLevel := pgLevelInit pgLevel

theorem pgLevelInit_ready : pgLevelInit readyLevels = readyLevels := by decide

/-- The bits that some column looks at. -/
def columnMask : U64 := pteBits.foldl (fun mask b => mask ||| b.mask) 0

/-- The mask of the level changes no column. -/
theorem dumpProt_masked (val : U64) :
    dumpProt (val &&& columnMask) pteBits = dumpProt val pteBits := by
  have hmask : ∀ b ∈ pteBits, columnMask &&& b.mask = b.mask := by decide
  refine List.filterMap_congr fun b hb => ?_
  rw [BitVec.and_assoc, hmask b hb]

theorem printMarkers_eq (start val : U64) :
    printMarkers start val addressMarkers = (markerOf start, decide (val = 0)) := by
  unfold addressMarkers printMarkers markerOf
  by_cases hval : val = 0
  · rw [if_pos hval, decide_eq_true hval]
  · rw [if_neg hval, decide_eq_false hval]
    simp only [printMarkers, List.append_nil]

variable {fuel : Nat} {start stop val delta : U64} {lines : List Line}

theorem printPgtable_zero (levels : List PgLevel) (level : Nat) :
    printPgtable fuel levels start stop level 0 lines = some (lines ++ markerOf start) := by
  unfold printPgtable
  rw [printMarkers_eq]
  rfl

theorem printPgtable_leaf {level : Nat} {name : String} (hval : val ≠ 0)
    (hlevel : readyLevels.getD level ⟨none, "", 0⟩ = ⟨some pteBits, name, columnMask⟩)
    (hscale : scaleLoop fuel ((stop - start) >>> 10) 0 = some (delta, unit)) :
    printPgtable fuel readyLevels start stop level val lines =
      some (lines ++ (markerOf start ++ [.row {
        start, stop, delta, unit := units[unit]?, name,
          columns := dumpProt val pteBits }])) := by
  unfold printPgtable
  rw [printMarkers_eq, hlevel, hscale, decide_eq_false hval]
  simp only [Bool.false_eq_true, if_false, Option.map_some, Option.elim_some,
    dumpProt_masked,
    List.append_assoc]

theorem scaleLoop_isSome {delta : U64} (hpos : delta ≠ 0)
    (hfuel : delta.toNat < 1024 ^ fuel)
    (unit : Nat) : (scaleLoop fuel delta unit).isSome := by
  induction fuel generalizing delta unit with
  | zero =>
      have hzero : delta.toNat = 0 := by omega
      exact absurd (BitVec.eq_of_toNat_eq hzero) hpos
  | succ fuel ih =>
      rw [scaleLoop]
      split
      next hmore =>
        have hmask : (1023 : U64) = BitVec.ofNat 64 (2 ^ 10 - 1) := rfl
        have hlow := congrArg BitVec.toNat hmore.1
        rw [hmask, toNat_and_lowMask _ (by omega)] at hlow
        have hlow : delta.toNat % 1024 = 0 := hlow
        have hnat : delta.toNat ≠ 0 := fun h => hpos (BitVec.eq_of_toNat_eq h)
        have hshift : (delta >>> 10).toNat = delta.toNat / 1024 :=
          toNat_ushiftRight_div delta 10
        refine ih ?_ ?_ _
        · intro hzero
          rw [hzero] at hshift
          have hquotient : delta.toNat / 1024 = 0 := hshift.symm
          omega
        · rw [hshift]
          rw [Nat.pow_succ] at hfuel
          exact Nat.div_lt_of_lt_mul (by rwa [Nat.mul_comm] at hfuel)
      next => rfl

theorem toNat_kilobytes (hle : start.toNat ≤ stop.toNat) :
    ((stop - start) >>> 10).toNat = (stop.toNat - start.toNat) / 1024 := by
  have hsub : (stop - start).toNat = stop.toNat - start.toNat :=
    BitVec.toNat_sub_of_le (by rwa [BitVec.le_def])
  rw [← hsub]
  exact toNat_ushiftRight_div _ 10

theorem kilobytes_ne_zero (hlt : start.toNat + 1024 ≤ stop.toNat) :
    (stop - start) >>> 10 ≠ 0 := by
  intro hzero
  have hdelta : ((stop - start) >>> 10).toNat = (stop.toNat - start.toNat) / 1024 :=
    toNat_kilobytes (by omega)
  rw [hzero] at hdelta
  have hquotient : (stop.toNat - start.toNat) / 1024 = 0 := hdelta.symm
  omega

theorem printPgtable_isSome (hfuel : 512 ≤ fuel) (levels : List PgLevel)
    (hlt : start.toNat + 4096 ≤ stop.toNat) (level : Nat) (val : U64) (lines : List Line) :
    (printPgtable fuel levels start stop level val lines).isSome := by
  have hscale : (scaleLoop fuel ((stop - start) >>> 10) 0).isSome := by
    apply scaleLoop_isSome (kilobytes_ne_zero (by omega))
    calc _ < 2 ^ 64 := BitVec.isLt _
      _ ≤ 1024 ^ 7 := by decide
      _ ≤ 1024 ^ fuel := Nat.pow_le_pow_right (by omega) (by omega)
  unfold printPgtable
  rw [printMarkers_eq]
  dsimp only
  split
  · rfl
  · rw [Option.isSome_map]
    exact hscale

/-! The column of the size. -/

/-- The rounds that the loop makes divide out what the unit stands for. -/
theorem scaleLoop_spec {delta delta' : U64} {unit unit' : Nat} (hpos : delta ≠ 0)
    (h : scaleLoop fuel delta unit = some (delta', unit')) :
    ∃ rounds, unit' = unit + rounds ∧ delta'.toNat * 1024 ^ rounds = delta.toNat ∧
      ¬ 1024 ∣ delta'.toNat := by
  have hmask (x : U64) : (x &&& 1023).toNat = x.toNat % 1024 :=
    toNat_and_lowMask x (k := 10) (by omega)
  induction fuel generalizing delta unit with
  | zero => cases h
  | succ fuel ih =>
      rw [scaleLoop] at h
      split at h
      next hmore =>
        have hlow : delta.toNat % 1024 = 0 := by
          rw [← hmask, hmore.1]
          rfl
        have hshift : (delta >>> 10).toNat = delta.toNat / 1024 :=
          toNat_ushiftRight_div delta 10
        have hnat : delta.toNat ≠ 0 := fun hzero => hpos (BitVec.eq_of_toNat_eq hzero)
        have hne : delta >>> 10 ≠ 0 := by
          intro hzero
          rw [hzero] at hshift
          have hquotient : delta.toNat / 1024 = 0 := hshift.symm
          omega
        obtain ⟨rounds, hunit, hdelta, hlast⟩ := ih hne h
        refine ⟨rounds + 1, by omega, ?_, hlast⟩
        rw [Nat.pow_succ, ← Nat.mul_assoc, hdelta, hshift]
        exact Nat.div_mul_cancel (Nat.dvd_of_mod_eq_zero hlow)
      next hmore =>
        cases h
        refine ⟨0, rfl, Nat.mul_one _, fun hdvd => hmore ⟨?_, by decide⟩⟩
        apply BitVec.eq_of_toNat_eq
        rw [hmask]
        exact Nat.mod_eq_zero_of_dvd hdvd

/-- The loop on a page-aligned interval, and the line that shows it. -/
theorem scaleLoop_size (hfuel : 4 ≤ fuel) (hstart : start.toNat % 4096 = 0)
    (hstop : stop.toNat % 4096 = 0) (hlt : start.toNat < stop.toNat)
    (hbound : stop.toNat ≤ 2 ^ 48) :
    ∃ delta unit, scaleLoop fuel ((stop - start) >>> 10) 0 = some (delta, unit) ∧
      (∃ letter ∈ ['K', 'M', 'G', 'T'], units[unit]? = some letter) ∧
      0 < delta.toNat ∧ ¬ 1024 ∣ delta.toNat ∧
      delta.toNat * 1024 ^ (unit + 1) = stop.toNat - start.toNat ∧
      ∀ levels level val lines, val ≠ 0 → ∃ before row,
        printPgtable fuel levels start stop level val lines = some (before ++ [.row row]) ∧
        row.delta = delta ∧ row.unit = units[unit]? := by
  have hkilobytes := toNat_kilobytes (Nat.le_of_lt hlt)
  have hne : (stop - start) >>> 10 ≠ 0 := kilobytes_ne_zero (by omega)
  have hsome : (scaleLoop fuel ((stop - start) >>> 10) 0).isSome := by
    apply scaleLoop_isSome hne
    calc ((stop - start) >>> 10).toNat < 1024 ^ 4 := by rw [hkilobytes]; omega
      _ ≤ 1024 ^ fuel := Nat.pow_le_pow_right (by omega) hfuel
  obtain ⟨⟨delta, unit⟩, hscale⟩ := Option.isSome_iff_exists.mp hsome
  obtain ⟨rounds, rfl, hdelta, hlast⟩ := scaleLoop_spec hne hscale
  have hpos : 0 < delta.toNat := by
    apply Nat.pos_of_ne_zero
    intro hzero
    exact hlast (hzero ▸ Nat.dvd_zero 1024)
  have hsize : delta.toNat * 1024 ^ (rounds + 1) = stop.toNat - start.toNat := by
    rw [Nat.pow_succ, ← Nat.mul_assoc, hdelta, hkilobytes]
    omega
  have hrounds : rounds < 4 := by
    have hpower : 1024 ^ (rounds + 1) < 1024 ^ 5 :=
      calc 1024 ^ (rounds + 1) ≤ delta.toNat * 1024 ^ (rounds + 1) :=
        Nat.le_mul_of_pos_left _ hpos
        _ < 1024 ^ 5 := by rw [hsize]; omega
    have hlt := (Nat.pow_lt_pow_iff_right (by omega : 1 < 1024)).mp hpower
    omega
  rw [Nat.zero_add] at hscale
  refine ⟨delta, rounds, hscale, ?_, hpos, hlast, hsize, ?_⟩
  · obtain rfl | rfl | rfl | rfl :
        rounds = 0 ∨ rounds = 1 ∨ rounds = 2 ∨ rounds = 3 := by omega
    · exact ⟨'K', by simp, rfl⟩
    · exact ⟨'M', by simp, rfl⟩
    · exact ⟨'G', by simp, rfl⟩
    · exact ⟨'T', by simp, rfl⟩
  · intro levels level val lines hval
    unfold printPgtable
    rw [printMarkers_eq, hscale, decide_eq_false hval]
    exact ⟨_, _, rfl, rfl, rfl⟩

theorem scaleLoop_size_total : totalMemory.toNat ≤ 2 ^ 48 ∧
    ∃ delta unit, scaleLoop 4 ((totalMemory - 0) >>> 10) 0 = some (delta, unit) ∧
      (∃ letter ∈ ['K', 'M', 'G', 'T'], units[unit]? = some letter) ∧
      0 < delta.toNat ∧ ¬ 1024 ∣ delta.toNat ∧
      delta.toNat * 1024 ^ (unit + 1) = totalMemory.toNat - (0 : U64).toNat ∧
      ∀ levels level val lines, val ≠ 0 → ∃ before row,
        printPgtable 4 levels 0 totalMemory level val lines = some (before ++ [.row row]) ∧
        row.delta = delta ∧ row.unit = units[unit]? :=
  ⟨by decide, scaleLoop_size (Nat.le_refl 4) (by decide) (by decide) (by decide) (by decide)⟩

end Dump

end YiOS
