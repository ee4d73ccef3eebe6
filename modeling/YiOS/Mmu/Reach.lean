import YiOS.Mmu.Sequence

namespace YiOS

open YiOS.Library

/-! The tables as the hardware finds them: pages reached from the root through
table descriptors. -/

inductive Reaches (mem : U64 → U64) (root : U64) : Level → U64 → Prop
  | root : Reaches mem root .pgd root
  | step : Reaches mem root l t → l ≠ .pte → i < 512 →
      mem (slotAddr t i) &&& typeMask = 3 →
      Reaches mem root l.below (pagePaddr (mem (slotAddr t i)))

/-- The descriptor in slot `index` of a reached table that names the page. -/
structure Parent (mem : U64 → U64) (root page : U64) (slot : Level × U64 × Nat) : Prop where
  reaches : Reaches mem root slot.1 slot.2.1
  inner : slot.1 ≠ .pte
  index : slot.2.2 < 512
  type : mem (slotAddr slot.2.1 slot.2.2) &&& typeMask = 3
  paddr : pagePaddr (mem (slotAddr slot.2.1 slot.2.2)) = page

/-- The descriptors that the architecture knows at a level. -/
def Legal : Level → U64 → Prop
  | .pgd, e => e &&& typeMask = 3
  | .pud, e => e &&& typeMask = 3
  | .pmd, e => e &&& typeMask = 3 ∨ e &&& typeMask = 1
  | .pte, e => e &&& typeMask = 3

structure TreeShaped (root : U64) (mem : U64 → U64) (trace : List Event) : Prop where
  tables : ∀ p, (p ≠ root ∧ ∃ l, Reaches mem root l p) ↔ p ∈ allocs trace
  parent : ∀ p ∈ allocs trace, ∃! slot, Parent mem root p slot
  top : ∀ slot, ¬ Parent mem root root slot
  level : ∀ {l l' t}, Reaches mem root l t → Reaches mem root l' t → l = l'
  legal : ∀ {l t}, Reaches mem root l t → ∀ i < 512,
    mem (slotAddr t i) = 0 ∨ Legal l (mem (slotAddr t i))
  writes : ∀ e ∈ trace, ∀ a, e.Writes a → ∃ l t, Reaches mem root l t ∧ InPage t a

namespace Tree

variable {root : U64} {mem : U64 → U64} {tbl : Tables}

theorem entry_slot (mem : U64 → U64) (ht : tbl l n = some t) (hi : i < 512) :
    entry mem tbl l (n * 512 + i) = mem (slotAddr t i) := by
  have hdiv : (n * 512 + i) / 512 = n := by omega
  have hmod : (n * 512 + i) % 512 = i := by omega
  rw [entry_of_some (by rw [hdiv]; exact ht), hmod]

theorem tbl_of_reaches (h : Tree root mem tbl) (hreach : Reaches mem root l t) :
    ∃ n, tbl l n = some t := by
  induction hreach with
  | root => exact ⟨0, by rw [h.root, if_pos rfl]⟩
  | @step l t i _ hl hi htype ih =>
      obtain ⟨n, ht⟩ := ih
      rw [← entry_slot mem ht hi] at htype ⊢
      exact ⟨_, h.tbl_of_type hl htype⟩

/-- A linked table is reached when its parent is. -/
theorem reaches_below {l : Level} (h : Tree root mem tbl) (hl : l ≠ .pte)
    (hup : ∀ {n p}, tbl l n = some p → Reaches mem root l p)
    (ht : tbl l.below n = some t) : Reaches mem root l.below t := by
  obtain ⟨p, hp⟩ := h.parent hl ht
  have hentry := h.entry_table hl ht
  rw [entry_of_some hp] at hentry
  have hstep := Reaches.step (i := n % 512) (hup hp) hl (Nat.mod_lt _ (by omega))
    (by rw [hentry, table_typeMask])
  rwa [hentry, (h.page ht).pagePaddr_table] at hstep

theorem reaches_of_tbl (h : Tree root mem tbl) :
    ∀ {l n t}, tbl l n = some t → Reaches mem root l t := by
  have hpgd : ∀ {n t}, tbl .pgd n = some t → Reaches mem root .pgd t := by
    intro n t ht
    rw [h.root] at ht
    split at ht
    · cases ht
      exact .root
    · contradiction
  have hpud : ∀ {n t}, tbl .pud n = some t → Reaches mem root .pud t :=
    fun ht => h.reaches_below (l := .pgd) (by decide) hpgd ht
  have hpmd : ∀ {n t}, tbl .pmd n = some t → Reaches mem root .pmd t :=
    fun ht => h.reaches_below (l := .pud) (by decide) hpud ht
  intro l n t ht
  cases l with
  | pgd => exact hpgd ht
  | pud => exact hpud ht
  | pmd => exact hpmd ht
  | pte => exact h.reaches_below (l := .pmd) (by decide) hpmd ht

theorem tbl_of_parent (h : Tree root mem tbl) (hparent : Parent mem root p slot) :
    ∃ n, tbl slot.1 n = some slot.2.1 ∧ tbl slot.1.below (n * 512 + slot.2.2) = some p := by
  obtain ⟨hreach, hinner, hindex, htype, hpaddr⟩ := hparent
  obtain ⟨n, ht⟩ := h.tbl_of_reaches hreach
  rw [← entry_slot mem ht hindex] at htype hpaddr
  exact ⟨n, ht, hpaddr ▸ h.tbl_of_type hinner htype⟩

theorem parent_of_tbl {l : Level} (h : Tree root mem tbl) (hl : l ≠ .pte)
    (ht : tbl l.below n = some p) :
    ∃ slot, Parent mem root p slot := by
  obtain ⟨t, hparent⟩ := h.parent hl ht
  have hentry := h.entry_table hl ht
  rw [entry_of_some hparent] at hentry
  refine ⟨(l, t, n % 512), h.reaches_of_tbl hparent, hl, Nat.mod_lt _ (by omega), ?_, ?_⟩
  · rw [hentry, table_typeMask]
  · rw [hentry, (h.page ht).pagePaddr_table]

theorem parent_unique (h : Tree root mem tbl) (hx : Parent mem root p x)
    (hy : Parent mem root p y) : x = y := by
  obtain ⟨n, hxt, hxp⟩ := h.tbl_of_parent hx
  obtain ⟨k, hyt, hyp⟩ := h.tbl_of_parent hy
  obtain ⟨hlevel, hindex⟩ := h.inj hxp hyp
  have hsame : x.1 = y.1 := by
    have hxl := hx.inner
    have hyl := hy.inner
    revert hlevel hxl hyl
    cases x.1 <;> cases y.1 <;> simp [Level.below]
  have hxi := hx.index
  have hyi := hy.index
  have hnk : n = k := by omega
  rw [hsame, hnk, hyt] at hxt
  refine Prod.ext hsame (Prod.ext (Option.some.inj hxt).symm ?_)
  omega

theorem legal (h : Tree root mem tbl)
    (hpages : ∀ n, entry mem tbl .pte n = 0 ∨ entry mem tbl .pte n &&& typeMask = 3)
    (l : Level) (n : Nat) : entry mem tbl l n = 0 ∨ Legal l (entry mem tbl l n) := by
  cases hbelow : tbl l.below n with
  | some t =>
      by_cases hl : l = .pte
      · subst hl
        exact hpages n
      · have htype := h.type_of_tbl hl hbelow
        cases l with
        | pgd => exact .inr htype
        | pud => exact .inr htype
        | pmd => exact .inr (.inl htype)
        | pte => exact absurd rfl hl
  | none =>
      by_cases hl : l = .pte
      · subst hl
        exact hpages n
      · refine (h.entry_none hl hbelow).imp_right ?_
        rintro ⟨rfl, hblock⟩
        exact .inr hblock

end Tree

variable {σ : Type} {fuel : Nat} {root : U64} {m : Machine σ}

theorem Built.treeShaped {done : List Call} (h : Built root done m tbl)
    (hpages : TablePages root (allocs m.trace))
    (hprot : ∀ c ∈ done, c.prot &&& typeMask = 3) :
    TreeShaped root m.mem m.trace := by
  have hroot : root ∉ allocs m.trace := (List.nodup_cons.mp hpages.nodup).1
  refine ⟨fun p => ⟨?_, fun hp => ?_⟩, fun p hp => ?_, fun slot hslot => ?_, ?_, ?_, ?_⟩
  · rintro ⟨hne, l, hreach⟩
    obtain ⟨n, ht⟩ := h.tree.tbl_of_reaches hreach
    exact (h.origin ht).resolve_left hne
  · obtain ⟨l, n, ht⟩ := h.landed p hp
    exact ⟨fun heq => hroot (heq ▸ hp), l, h.tree.reaches_of_tbl ht⟩
  · obtain ⟨l, n, ht⟩ := h.landed p hp
    have hparent : ∃ slot, Parent m.mem root p slot := by
      cases l with
      | pgd =>
          rw [h.tree.root] at ht
          split at ht
          · exact absurd hp (Option.some.inj ht ▸ hroot)
          · contradiction
      | pud => exact h.tree.parent_of_tbl (l := .pgd) (by decide) ht
      | pmd => exact h.tree.parent_of_tbl (l := .pud) (by decide) ht
      | pte => exact h.tree.parent_of_tbl (l := .pmd) (by decide) ht
    obtain ⟨slot, hslot⟩ := hparent
    exact ⟨slot, hslot, fun other hother => h.tree.parent_unique hother hslot⟩
  · obtain ⟨n, _, ht⟩ := h.tree.tbl_of_parent hslot
    have htop : tbl .pgd 0 = some root := by rw [h.tree.root, if_pos rfl]
    have hlevel := (h.tree.inj ht htop).1
    revert hlevel
    cases slot.1 <;> simp [Level.below]
  · intro l l' t hleft hright
    obtain ⟨n, ht⟩ := h.tree.tbl_of_reaches hleft
    obtain ⟨n', ht'⟩ := h.tree.tbl_of_reaches hright
    exact (h.tree.inj ht ht').1
  · intro l t hreach i hi
    obtain ⟨n, ht⟩ := h.tree.tbl_of_reaches hreach
    rw [← Tree.entry_slot m.mem ht hi]
    refine h.tree.legal (fun n => (h.pages n).imp_right ?_) l _
    rintro ⟨c, hc, hentry⟩
    rw [hentry]
    exact pfnPte_typeMask _ (hprot c hc)
  · intro e he a ha
    obtain ⟨l, n, t, ht, hin⟩ := h.writes e he a ha
    exact ⟨l, t, h.tree.reaches_of_tbl ht, hin⟩

/-- Runs from a cleared root with tables from `get_free_page`. -/
theorem createAll_treeShaped (hfuel : 512 ≤ fuel) (hroot : IsPage root) (mem : U64 → U64)
    (hzero : ∀ i < 512, mem (slotAddr root i) = 0) (memMap : MemMap)
    (hheld : ∀ i, root = pageAddr i → memMap i ≠ 0) {calls : List Call}
    (hbounded : ∀ c ∈ calls, c.Bounded) (hapart : calls.Pairwise Call.Apart)
    (hprot : ∀ c ∈ calls, c.prot &&& typeMask = 3) :
    ∃ m, createAll getFreePage fuel root calls ⟨mem, memMap, []⟩ = some m ∧
      (0 ∉ allocs m.trace → TreeShaped root m.mem m.trace) := by
  obtain ⟨m, hrun⟩ := createAll_isSome getFreePage hfuel root hbounded ⟨mem, memMap, []⟩
  refine ⟨m, hrun, fun hne => ?_⟩
  obtain ⟨events, htrace, hdraws, _⟩ := createAll_logged hrun
  rw [List.append_nil] at htrace
  rw [← htrace] at hdraws
  have hpages : TablePages root (allocs m.trace) := hdraws.tablePages hne hroot hheld
  obtain ⟨tbl, hbuilt⟩ := (Built.start hroot (.init hzero memMap)).createAll hpages hbounded
    (fun _ h => absurd h List.not_mem_nil) hapart hrun
  refine hbuilt.treeShaped hpages fun c hc => hprot c ?_
  rwa [List.append_nil, List.mem_reverse] at hc

theorem createAll_treeShaped_twoCalls :
    ∃ m, createAll getFreePage 512 0x1000 twoCalls ⟨fun _ => 0, .empty, []⟩ = some m ∧
      TreeShaped 0x1000 m.mem m.trace := by
  obtain ⟨m, hrun, hshape⟩ :=
    createAll_treeShaped (Nat.le_refl 512) isPage_4096 (fun _ => 0)
    (fun _ _ => rfl) .empty (fun i heq => absurd heq (pageAddr_ne_4096 i))
    twoCalls_bounded twoCalls_apart twoCalls_type
  exact ⟨m, hrun, hshape (twoCalls_pages hrun).2⟩

/-- A protection without the page type leaves an entry that is neither empty nor
a page. -/
theorem onePage_untyped {m : Machine MemMap}
    (hrun : createAll getFreePage 512 0x1000 [onePage 0] ⟨fun _ => 0, .empty, []⟩ = some m) :
    ∃ tbl, Tree 0x1000 m.mem tbl ∧ (∃ t, tbl .pte 0 = some t) ∧
      entry m.mem tbl .pte (0 * 512 + 0x80) = 0x80000 := by
  have hpages := (onePage_pages 0 hrun).1
  obtain ⟨m₁, hfirst, hrest⟩ := Option.bind_eq_some_iff.mp hrun
  cases hrest
  have hstart : Built 0x1000 [] ⟨fun _ => 0, MemMap.empty, []⟩ (Built.rootTable 0x1000) :=
    .start isPage_4096 (.init (fun _ _ => rfl) _)
  have hempty : ∀ d ∈ ([] : List Call), d.Apart (onePage 0) :=
    fun _ h => absurd h List.not_mem_nil
  obtain ⟨events, htrace, hmaps⟩ :=
    Call.create_maps (onePage_bounded 0) hfirst
  rw [htrace] at hpages
  obtain ⟨tbl, htree, hmapped⟩ := hmaps _ hstart.tree rfl
    (hstart.clean hempty hpages)
  have hentry : entry m.mem tbl .pte (0 * 512 + 0x80) = 0x80000 := by
    rw [hmapped.pte_in _ (by decide) (by decide) (by decide) fun hblock => ?_]
    · decide
    · obtain ⟨c, hc, _⟩ := hstart.blocks _ hblock
      exact absurd hc List.not_mem_nil
  refine ⟨tbl, htree, ?_, hentry⟩
  cases ht : tbl .pte 0 with
  | some t => exact ⟨t, rfl⟩
  | none =>
      rw [entry_of_none ht] at hentry
      exact absurd hentry (by decide)

theorem createAll_not_treeShaped :
    ¬ ∀ (root : U64) (mem : U64 → U64) (memMap : MemMap) (calls : List Call)
      (m : Machine MemMap), IsPage root → (∀ i < 512, mem (slotAddr root i) = 0) →
      (∀ i, root = pageAddr i → memMap i ≠ 0) → (∀ c ∈ calls, c.Bounded) →
      calls.Pairwise Call.Apart →
      createAll getFreePage 512 root calls ⟨mem, memMap, []⟩ = some m →
      0 ∉ allocs m.trace → TreeShaped root m.mem m.trace := by
  intro hall
  have hbounded : ∀ c ∈ [onePage 0], c.Bounded :=
    List.forall_mem_singleton.mpr (onePage_bounded 0)
  obtain ⟨m, hrun⟩ := createAll_isSome getFreePage (Nat.le_refl 512) 0x1000 hbounded
    ⟨fun _ => 0, .empty, []⟩
  have hne := (onePage_pages 0 hrun).2
  have hshape := hall _ _ _ _ m isPage_4096 (fun _ _ => rfl)
    (fun i heq => absurd heq (pageAddr_ne_4096 i)) hbounded (List.pairwise_singleton _ _)
    hrun hne
  obtain ⟨tbl, htree, ⟨t, ht⟩, hentry⟩ := onePage_untyped hrun
  have hlegal := hshape.legal (htree.reaches_of_tbl ht) 0x80 (by decide)
  rw [← Tree.entry_slot m.mem ht (by decide), hentry] at hlegal
  exact absurd hlegal (by simp only [Legal]; decide)

end YiOS
