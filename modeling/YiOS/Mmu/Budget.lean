import YiOS.Mmu.Boot
import YiOS.Mmu.Repeat

namespace YiOS

open YiOS.Library

variable {fuel : Nat} {root : U64} {c : Call} {calls done all : List Call}
variable {m m' : Machine MemMap} {tbl : Tables}

/-! How many pages the tables of a sequence take. -/

/-- Where some call asks for a table. -/
def places (calls : List Call) : Finset (Level × Nat) :=
  (({Level.pud, Level.pmd, Level.pte} : Finset Level) ×ˢ Finset.range (2 ^ 27)).filter
    fun x => ∃ c ∈ calls, Asks c.request .pgd c.low c.high x.1 x.2

theorem mem_places (hbounded : ∀ c ∈ calls, c.Bounded) {x : Level × Nat} :
    x ∈ places calls ↔ ∃ c ∈ calls, Asks c.request .pgd c.low c.high x.1 x.2 := by
  rw [places, Finset.mem_filter, and_iff_right_iff_imp]
  rintro ⟨c, hc, hasks⟩
  -- what is missing when there are no tables at all
  have hmissing : x ∈ c.missing (fun _ => 0) (fun _ _ => none) := by
    refine (Call.mem_missing (hbounded c hc)).mpr ⟨hasks, rfl, fun h => ?_⟩
    rw [entry_of_none rfl] at h
    exact absurd h.2 (by decide)
  exact (Finset.mem_filter.mp hmissing).1

/-- There is one page for each place. -/
theorem Complete.allocs_length (h : Complete root done m tbl)
    (hbounded : ∀ c ∈ done, c.Bounded) :
    (allocs m.trace).length = (places done).card := by
  obtain ⟨hnotRoot, hnodup⟩ := List.nodup_cons.mp h.pages
  have hpage : ∀ x ∈ places done, ∃ p ∈ allocs m.trace, tbl x.1 x.2 = some p := by
    intro x hx
    obtain ⟨c, hc, hasks⟩ := (mem_places hbounded).mp hx
    obtain ⟨p, hp⟩ := Option.ne_none_iff_exists'.mp ((h.served c hc).tables hasks)
    obtain rfl | hmem := h.built.origin hp
    · have hlevel := (h.built.tree.inj hp h.root_eq).1
      rw [hlevel] at hasks
      exact absurd hasks.1 (Nat.lt_irrefl _)
    · exact ⟨p, hmem, hp⟩
  choose! page hmem hsome using hpage
  rw [← List.toFinset_card_of_nodup hnodup]
  symm
  apply Finset.card_nbij page
  · intro x hx
    exact List.mem_toFinset.mpr (hmem x hx)
  · intro x hx y hy heq
    obtain ⟨hl, hn⟩ := h.built.tree.inj (hsome x hx) (heq ▸ hsome y hy)
    exact Prod.ext hl hn
  · intro p hp
    have hp := List.mem_toFinset.mp hp
    obtain ⟨l, n, ht⟩ := h.built.landed p hp
    have hl : l ≠ .pgd := by
      rintro rfl
      rw [h.built.tree.root] at ht
      split at ht
      · exact hnotRoot (Option.some.inj ht ▸ hp)
      · contradiction
    have hsomeTable : tbl l n ≠ none := by
      rw [ht]
      exact Option.some_ne_none p
    have hplace : (l, n) ∈ places done := (mem_places hbounded).mpr (h.asked hsomeTable hl)
    exact ⟨(l, n), hplace, Option.some.inj ((hsome (l, n) hplace).symm.trans ht)⟩

/-- What a further call finds missing is a place of its own. -/
theorem Complete.missing_card (h : Complete root done m tbl) (hc : c.Bounded)
    (hbounded : ∀ d ∈ done, d.Bounded) (hall : ∀ d ∈ c :: done, d ∈ all)
    (hallBounded : ∀ d ∈ all, d.Bounded) :
    (c.missing m.mem tbl).card + (places done).card ≤ (places all).card := by
  have hdisjoint : Disjoint (c.missing m.mem tbl) (places done) := by
    refine Finset.disjoint_left.mpr fun x hx hplace => ?_
    obtain ⟨_, hnone, _⟩ := (Call.mem_missing hc).mp hx
    obtain ⟨d, hd, hasks⟩ := (mem_places hbounded).mp hplace
    exact (h.served d hd).tables hasks hnone
  rw [← Finset.card_union_of_disjoint hdisjoint]
  refine Finset.card_le_card fun x hx => ?_
  rw [mem_places hallBounded]
  obtain hx | hx := Finset.mem_union.mp hx
  · exact ⟨c, hall c List.mem_cons_self, ((Call.mem_missing hc).mp hx).1⟩
  · obtain ⟨d, hd, hasks⟩ := (mem_places hbounded).mp hx
    exact ⟨d, hall d (List.mem_cons_of_mem c hd), hasks⟩

/-- A sequence that runs out of pages has more places than there were pages. -/
theorem Complete.exhausted (h : Complete root done m tbl)
    (hdoneBounded : ∀ d ∈ done, d.Bounded)
    (hbounded : ∀ c ∈ calls, c.Bounded) (hdone : ∀ d ∈ done, ∀ c ∈ calls, d.Apart c)
    (hcalls : calls.Pairwise Call.Apart) (hall : ∀ d, d ∈ calls ∨ d ∈ done → d ∈ all)
    (hallBounded : ∀ d ∈ all, d.Bounded)
    (hrun : YiOS.createAll getFreePage fuel root calls m = some m')
    (hold : 0 ∉ allocs m.trace) (hzero : 0 ∈ allocs m'.trace) :
    m.pool.free + (places done).card < (places all).card := by
  induction calls generalizing done m tbl with
  | nil =>
      cases hrun
      exact absurd hzero hold
  | cons c calls ih =>
      obtain ⟨m₁, hfirst, hrest⟩ := Option.bind_eq_some_iff.mp hrun
      obtain ⟨hc, hbounded⟩ := List.forall_mem_cons.mp hbounded
      obtain ⟨hapart, hcalls⟩ := List.pairwise_cons.mp hcalls
      have hcdone : ∀ d ∈ done, d.Apart c := fun d hd => hdone d hd c List.mem_cons_self
      obtain ⟨events, hlog⟩ := Call.create_logged hfirst
      by_cases hshort : 0 ∈ allocs events
      · have hless := ((h.held_call hcdone).exhausted_iff hc h.built.tree hfirst hlog).mp hshort
        have hcard := h.missing_card hc hdoneBounded (fun d hd => hall d ?_) hallBounded
        · omega
        · obtain rfl | hd := List.mem_cons.mp hd
          · exact .inl List.mem_cons_self
          · exact .inr hd
      · obtain ⟨tbl₁, h₁⟩ := h.step hc hcdone hfirst hlog hshort
        have hdoneBounded₁ : ∀ d ∈ c :: done, d.Bounded :=
          List.forall_mem_cons.mpr ⟨hc, hdoneBounded⟩
        have hcount := (hlog.draws.drawn hshort).count
        have hlength := h.allocs_length hdoneBounded
        have hlength₁ := h₁.allocs_length hdoneBounded₁
        rw [hlog.trace, allocs_append, List.length_append] at hlength₁
        have hless := ih h₁ hdoneBounded₁ hbounded ?_ hcalls ?_ hrest ?_
        · omega
        · intro d hd e he
          obtain rfl | hd := List.mem_cons.mp hd
          · exact hapart e he
          · exact hdone d hd e (List.mem_cons_of_mem _ he)
        · intro d hd
          apply hall
          simpa [or_assoc, or_comm, or_left_comm] using hd
        · rw [hlog.trace, allocs_append, List.mem_append, not_or]
          exact ⟨hshort, hold⟩

/-- From a cleared root as many free pages as places are enough. -/
theorem createAll_enough {calls : List Call} (hroot : IsPage root)
    (hcleared : Cleared root m)
    (hheld : ∀ i, root = pageAddr i → m.pool i ≠ 0) (hbounded : ∀ c ∈ calls, c.Bounded)
    (hapart : calls.Pairwise Call.Apart)
    (hrun : createAll getFreePage fuel root calls m = some m')
    (hcard : (places calls).card ≤ m.pool.free) : 0 ∉ allocs m'.trace := by
  intro hzero
  have hold : 0 ∉ allocs m.trace := by
    rw [hcleared.allocs]
    exact List.not_mem_nil
  have hless := (Complete.start hroot hcleared hheld).exhausted
    (fun _ h => absurd h List.not_mem_nil) hbounded (fun _ h => absurd h List.not_mem_nil)
    hapart (fun d hd => hd.resolve_right List.not_mem_nil) hbounded hrun hold hzero
  omega

/-- The text ends inside of the second 2 MiB region. -/
def Layout.TextSplits (layout : Layout) : Prop :=
  2 ^ 21 < (pageBalign layout.etext).toNat ∧ (pageBalign layout.etext).toNat < 2 ^ 22

instance decidableTextSplits (layout : Layout) : Decidable layout.TextSplits :=
  inferInstanceAs (Decidable (_ ∧ _))

end YiOS
