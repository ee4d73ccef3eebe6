import YiOS.Mmu.Exhaust
import YiOS.Mmu.Reach

namespace YiOS

open YiOS.Library

variable {root : U64} {mem : U64 → U64} {tbl : Tables} {c : Call} {va : U64}

/-! Pages over a block.  `alloc_init_pte` only asks whether an entry is empty. -/

namespace Call

end Call

section

variable {c₁ c₂ : Call} {m m₁ m₂ : Machine MemMap} {fuel : Nat}
  {events₁ events₂ : List Event}
variable {tbl₁ tbl₂ : Tables} {N : Level → Nat → Prop}

theorem Mapped.translates (hmapped : Mapped c.request c.low c.high N mem tbl mem' tbl' events₁)
    (htree' : Tree root mem' tbl') (hc : c.Valid)
    (hhit : ∀ k, ¬ Hit c.request c.low c.high mem tbl k) (hva : c.Contains va.toNat) :
    c.Translates mem' root va := by
  have hregion := Call.inRegion hc.bounded
  have hstart := hregion.start
  have hbound := hregion.bound
  apply Call.translates_of_walk hc hva
  obtain ⟨hlow, hhigh⟩ := hva
  exact hmapped.walk_in htree' hhit hc.type (by omega) hhigh (by omega)

end

section

variable {c : Call} {m₁ m₂ : Machine MemMap}

end

end YiOS
