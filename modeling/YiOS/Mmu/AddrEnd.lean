import YiOS.Library.Cuts
import YiOS.Mmu.Mapped

namespace YiOS

open YiOS.Library

/-! The `*_addr_end` macros over the whole address space. -/

/-- `next` ends the first piece of `[addr, stop)` that a level cuts off. -/
structure FirstPiece (shift : Nat) (addr stop next : U64) : Prop where
  advances : addr.toNat < endNat next
  within : endNat next ≤ endNat stop
  inside : addr >>> shift = (next - 1) >>> shift
  reaches : next = stop ∨ endNat next = (addr.toNat / 2 ^ shift + 1) * 2 ^ shift

/-- The pieces of `[addr, stop)` by the entries of a level. -/
structure Visits (shift : Nat) (addr stop : U64) (pieces : List (U64 × U64)) : Prop where
  tiles : Tiles addr stop pieces
  each : ∀ piece ∈ pieces, FirstPiece shift piece.1 stop piece.2
  once : ∀ k, (pieces.map fun piece => piece.1.toNat / 2 ^ shift).count k =
    if Meets (2 ^ shift) addr.toNat (endNat stop) k then 1 else 0

variable {addr stop next size mask : U64} {shift : Nat}

theorem lt_next_entry (addr : Nat) (shift : Nat) :
    addr < (addr / 2 ^ shift + 1) * 2 ^ shift := by
  rw [Nat.mul_comm]
  exact Nat.lt_mul_div_succ addr (Nat.two_pow_pos shift)

theorem firstPiece_addrEnd (hshift : shift < 64) (hsize : size.toNat = 2 ^ shift)
    (hmask : mask = BitVec.allOnes 64 <<< shift) (hlt : addr.toNat < endNat stop) :
    FirstPiece shift addr stop (addrEnd size mask addr stop) := by
  have hnext := endNat_addrEnd hshift hsize hmask addr stop
  have hentry := lt_next_entry addr.toNat shift
  have hadvances : addr.toNat < endNat (addrEnd size mask addr stop) := by
    rw [hnext]
    exact Nat.lt_min.mpr ⟨hentry, hlt⟩
  refine ⟨hadvances, ?_, ?_, ?_⟩
  · rw [hnext]
    exact Nat.min_le_right _ _
  · apply BitVec.eq_of_toNat_eq
    rw [toNat_ushiftRight_div, toNat_ushiftRight_div]
    have hpred := toNat_pred (addrEnd size mask addr stop)
    refine (Nat.div_eq_of_lt_le ?_ ?_).symm
    · exact (Nat.div_mul_le_self _ _).trans (by omega)
    · have hle : endNat (addrEnd size mask addr stop) ≤
          (addr.toNat / 2 ^ shift + 1) * 2 ^ shift := by
        rw [hnext]
        exact Nat.min_le_left _ _
      omega
  · obtain hleft | hright :=
      Nat.le_total ((addr.toNat / 2 ^ shift + 1) * 2 ^ shift) (endNat stop)
    · exact .inr (hnext.trans (Nat.min_eq_left hleft))
    · exact .inl (endNat_inj (hnext.trans (Nat.min_eq_right hright)))

theorem meets_iff_between {size A B : Nat} (hpos : 0 < size) (hlt : A < B) (k : Nat) :
    Meets size A B k ↔ A / size ≤ k ∧ k ≤ (B - 1) / size := by
  have hleft : A < (k + 1) * size ↔ A / size < k + 1 := (Nat.div_lt_iff_lt_mul hpos).symm
  have hright : k ≤ (B - 1) / size ↔ k * size ≤ B - 1 := Nat.le_div_iff_mul_le hpos
  unfold Meets
  omega

/-- By induction on the entries after the one of `addr`. -/
theorem cuts_addrEnd (hshift : shift < 64) (hsize : size.toNat = 2 ^ shift)
    (hmask : mask = BitVec.allOnes 64 <<< shift) {n : Nat} {addr : U64}
    (hlt : addr.toNat < endNat stop)
    (hlast : (endNat stop - 1) / 2 ^ shift = addr.toNat / 2 ^ shift + n) :
    ∃ pieces, (∀ fuel, n < fuel → cuts (addrEnd size mask) stop fuel addr = some pieces) ∧
      (∀ piece ∈ pieces, FirstPiece shift piece.1 stop piece.2) ∧
      (pieces.map fun piece => piece.1.toNat / 2 ^ shift) =
        List.range' (addr.toNat / 2 ^ shift) (n + 1) := by
  have hpos : 0 < 2 ^ shift := Nat.two_pow_pos shift
  have hfirst := firstPiece_addrEnd hshift hsize hmask hlt
  have hnext := endNat_addrEnd hshift hsize hmask addr stop
  induction n generalizing addr with
  | zero =>
      have hentry : endNat stop ≤ (addr.toNat / 2 ^ shift + 1) * 2 ^ shift := by
        have hbelow : (endNat stop - 1) / 2 ^ shift < addr.toNat / 2 ^ shift + 1 := by omega
        have hprod := (Nat.div_lt_iff_lt_mul hpos).mp hbelow
        omega
      have hstop : addrEnd size mask addr stop = stop :=
        endNat_inj (hnext.trans (Nat.min_eq_right hentry))
      rw [hstop] at hfirst
      refine ⟨[(addr, stop)], fun fuel hfuel => ?_,
        List.forall_mem_singleton.mpr hfirst, rfl⟩
      obtain ⟨more, rfl⟩ : ∃ more, fuel = more + 1 := ⟨fuel - 1, by omega⟩
      rw [cuts, if_pos hstop]
  | succ n ih =>
      have hentry : (addr.toNat / 2 ^ shift + 1) * 2 ^ shift < endNat stop := by
        have habove : addr.toNat / 2 ^ shift + 1 ≤ (endNat stop - 1) / 2 ^ shift := by omega
        have hprod := (Nat.le_div_iff_mul_le hpos).mp habove
        omega
      rw [Nat.min_eq_left (Nat.le_of_lt hentry)] at hnext
      have hless : endNat (addrEnd size mask addr stop) < endNat stop := by
        rw [hnext]
        exact hentry
      have hstop : addrEnd size mask addr stop ≠ stop := by
        intro heq
        rw [heq] at hless
        exact Nat.lt_irrefl _ hless
      have htoNat := endNat_of_lt hless
      have hindex : (addrEnd size mask addr stop).toNat / 2 ^ shift =
          addr.toNat / 2 ^ shift + 1 := by
        rw [htoNat, hnext, Nat.mul_div_cancel _ hpos]
      have hmore : (addrEnd size mask addr stop).toNat < endNat stop := by
        rw [htoNat]
        exact hless
      obtain ⟨pieces, hcuts, heach, hmap⟩ := ih hmore (by rw [hlast, hindex]; omega)
        (firstPiece_addrEnd hshift hsize hmask hmore)
        (endNat_addrEnd hshift hsize hmask _ stop)
      refine ⟨(addr, addrEnd size mask addr stop) :: pieces, fun fuel hfuel => ?_,
        List.forall_mem_cons.mpr ⟨hfirst, heach⟩, ?_⟩
      · obtain ⟨more, rfl⟩ : ∃ more, fuel = more + 1 := ⟨fuel - 1, by omega⟩
        rw [cuts, if_neg hstop, hcuts more (by omega), Option.map_some]
      · rw [List.map_cons, hmap, hindex]
        rfl

theorem visits_addrEnd (hshift : shift < 64) (hsize : size.toNat = 2 ^ shift)
    (hmask : mask = BitVec.allOnes 64 <<< shift) (hlt : addr.toNat < endNat stop) :
    ∃ pieces, Visits shift addr stop pieces ∧ ∃ n, ∀ fuel, n < fuel →
      cuts (addrEnd size mask) stop fuel addr = some pieces := by
  have hpos : 0 < 2 ^ shift := Nat.two_pow_pos shift
  have hle : addr.toNat / 2 ^ shift ≤ (endNat stop - 1) / 2 ^ shift :=
    Nat.div_le_div_right (by omega)
  obtain ⟨n, hn⟩ := Nat.exists_eq_add_of_le hle
  obtain ⟨pieces, hcuts, heach, hmap⟩ := cuts_addrEnd hshift hsize hmask hlt hn
  refine ⟨pieces, ⟨cuts_tiles (hcuts (n + 1) (Nat.lt_succ_self n)), heach, fun k => ?_⟩, n, hcuts⟩
  have hcount : k ∈ List.range' (addr.toNat / 2 ^ shift) (n + 1) ↔
      Meets (2 ^ shift) addr.toNat (endNat stop) k := by
    rw [List.mem_range'_1, meets_iff_between hpos hlt]
    omega
  rw [hmap, List.Nodup.count List.nodup_range']
  simp only [hcount]

/-- The levels that the loops over the tables have. -/
def addrEnds : List (Nat × (U64 → U64 → U64)) :=
  [(pgdirShift, pgdAddrEnd), (pudShift, pudAddrEnd), (pmdShift, pmdAddrEnd)]

theorem addrEnds_step (hlt : addr.toNat < endNat stop) : ∀ level ∈ addrEnds,
    FirstPiece level.1 addr stop (level.2 addr stop) ∧
    ∃ pieces, Visits level.1 addr stop pieces ∧ ∃ n, ∀ fuel, n < fuel →
      cuts level.2 stop fuel addr = some pieces := by
  simp only [addrEnds, List.forall_mem_cons]
  refine ⟨?_, ?_, ?_, fun level h => absurd h List.not_mem_nil⟩
  · exact ⟨firstPiece_addrEnd (by decide) (by decide) (by decide) hlt,
      visits_addrEnd (by decide) (by decide) (by decide) hlt⟩
  · exact ⟨firstPiece_addrEnd (by decide) (by decide) (by decide) hlt,
      visits_addrEnd (by decide) (by decide) (by decide) hlt⟩
  · exact ⟨firstPiece_addrEnd (by decide) (by decide) (by decide) hlt,
      visits_addrEnd (by decide) (by decide) (by decide) hlt⟩

/-- Up to the top of the address space. -/
theorem addrEnds_step_top : (0xfffffffffffff000 : U64).toNat < endNat 0 ∧
    ∀ level ∈ addrEnds,
      FirstPiece level.1 0xfffffffffffff000 0 (level.2 0xfffffffffffff000 0) ∧
      ∃ pieces, Visits level.1 0xfffffffffffff000 0 pieces ∧ ∃ n, ∀ fuel, n < fuel →
        cuts level.2 0 fuel 0xfffffffffffff000 = some pieces :=
  ⟨by decide, addrEnds_step (by decide)⟩

end YiOS
