import YiOS.Mmu.Supply
import YiOS.Mmu.Translate

namespace YiOS

open YiOS.Library

variable {σ : Type} {getFreePage : σ → U64 × σ} {fuel : Nat}
variable {root : U64} {m m' : Machine σ} {tbl : Tables}

/-! Sequences of calls over pairwise disjoint ranges. -/

namespace Call

def Contains (c : Call) (a : Nat) : Prop := c.low ≤ a ∧ a < c.high

instance (c : Call) (a : Nat) : Decidable (c.Contains a) :=
  inferInstanceAs (Decidable (_ ∧ _))

def Apart (c d : Call) : Prop := c.high ≤ d.low ∨ d.high ≤ c.low

instance (c d : Call) : Decidable (c.Apart d) := inferInstanceAs (Decidable (_ ∨ _))

end Call

def createAll (getFreePage : σ → U64 × σ) (fuel : Nat) (root : U64) :
    List Call → Machine σ → Option (Machine σ)
  | [], m => some m
  | c :: calls, m =>
      (c.create getFreePage fuel root m).bind (createAll getFreePage fuel root calls)

theorem TablePages.suffix (h : TablePages root (later ++ pages)) :
    TablePages root pages where
  nodup := h.nodup.sublist ((List.sublist_append_right later pages).cons_cons root)
  page := fun p hp => h.page p
    (((List.sublist_append_right later pages).cons_cons root).subset hp)

theorem createAll_logged {calls : List Call} {m m' : Machine σ}
    (h : createAll getFreePage fuel root calls m = some m') : Logged getFreePage m m' := by
  induction calls generalizing m with
  | nil =>
      cases h
      exact ⟨[], .refl _⟩
  | cons c calls ih =>
      obtain ⟨m₁, hfirst, hrest⟩ := Option.bind_eq_some_iff.mp h
      exact (Call.create_logged hfirst).trans (ih hrest)

theorem createAll_isSome (getFreePage : σ → U64 × σ) (hfuel : 512 ≤ fuel) (root : U64)
    {calls : List Call} (hbounded : ∀ c ∈ calls, c.Bounded) (m : Machine σ) :
    ∃ m', createAll getFreePage fuel root calls m = some m' := by
  induction calls generalizing m with
  | nil => exact ⟨m, rfl⟩
  | cons c calls ih =>
      obtain ⟨hc, hbounded⟩ := List.forall_mem_cons.mp hbounded
      obtain ⟨m₁, hfirst⟩ :=
        Option.isSome_iff_exists.mp (Call.create_isSome hc hfuel root m)
      obtain ⟨m', hrest⟩ := ih hbounded m₁
      exact ⟨m', by rw [createAll, hfirst, Option.bind_some, hrest]⟩

theorem createAll_allocs_length {calls : List Call} {m m' : Machine σ}
    (hcalls : ∀ c ∈ calls, c.Bounded ∧ ∃ j, InRegion (2 ^ 30) j c.low c.high)
    (h : createAll getFreePage fuel root calls m = some m') :
    ∃ events, m'.trace = events ++ m.trace ∧
      (allocs events).length ≤ 514 * calls.length := by
  induction calls generalizing m with
  | nil =>
      cases h
      exact ⟨[], rfl, Nat.le_refl 0⟩
  | cons c calls ih =>
      obtain ⟨m₁, hfirst, hrest⟩ := Option.bind_eq_some_iff.mp h
      obtain ⟨⟨hc, j, hregion⟩, hcalls⟩ := List.forall_mem_cons.mp hcalls
      obtain ⟨first, htrace₁, hlength₁⟩ := (Call.create_placed hc hfirst).length_le hregion
      obtain ⟨second, htrace₂, hlength₂⟩ := ih hcalls hrest
      refine ⟨second ++ first, by rw [htrace₂, htrace₁, List.append_assoc], ?_⟩
      rw [allocs_append, List.length_append, List.length_cons, Nat.mul_succ]
      exact Nat.add_le_add hlength₂ hlength₁

/-- What a sequence of calls has built. -/
structure Built (root : U64) (done : List Call) (m : Machine σ) (tbl : Tables) : Prop where
  tree : Tree root m.mem tbl
  bounded : ∀ c ∈ done, c.Bounded
  origin : ∀ {l n t}, tbl l n = some t → t = root ∨ t ∈ allocs m.trace
  landed : ∀ p ∈ allocs m.trace, ∃ l n, tbl l n = some p
  linked : installed m.trace = allocs m.trace
  writes : ∀ e ∈ m.trace, ∀ a, e.Writes a → ∃ l n t, tbl l n = some t ∧ InPage t a
  blocks : ∀ k, IsBlock (entry m.mem tbl .pmd k) →
    ∃ c ∈ done, c.low ≤ k * 2 ^ 21 ∧ (k + 1) * 2 ^ 21 ≤ c.high
  regions : ∀ n, tbl .pte n ≠ none → ∃ c ∈ done, Meets (2 ^ 21) c.low c.high n
  pages : ∀ n, entry m.mem tbl .pte n = 0 ∨
    ∃ c ∈ done, entry m.mem tbl .pte n = c.request.pageDesc n
  inside : ∀ c ∈ done, c.prot &&& typeMask = 3 → ∀ va : U64, c.Contains va.toNat →
    walk m.mem root va = some (c.request.leaf c.low c.high va.toNat)
  outside : ∀ va : U64, va.toNat < 2 ^ 48 → (∀ c ∈ done, ¬ c.Contains va.toNat) →
    walk m.mem root va = none

/-- A machine that has done no more than to clear the root. -/
structure Cleared (root : U64) (m : Machine σ) : Prop where
  zero : ∀ i < 512, m.mem (slotAddr root i) = 0
  allocs : allocs m.trace = []
  installed : installed m.trace = []
  writes : ∀ e ∈ m.trace, ∀ a, e.Writes a → InPage root a

theorem Cleared.init (hzero : ∀ i < 512, mem (slotAddr root i) = 0) (pool : σ) :
    Cleared root ⟨mem, pool, []⟩ :=
  ⟨hzero, rfl, rfl, fun _ h => absurd h List.not_mem_nil⟩

namespace Built

variable {done : List Call} {c : Call} {events : List Event}

/-- A range apart from the earlier ones meets no block of theirs. -/
theorem not_hit (h : Built root done m tbl) (hapart : ∀ d ∈ done, d.Apart c) (k : Nat) :
    ¬ Hit c.request c.low c.high m.mem tbl k := by
  rintro ⟨⟨hlt, hleft, hright⟩, _, hblock⟩
  obtain ⟨d, hd, hlow, hhigh⟩ := h.blocks k hblock
  have := hapart d hd
  simp only [Call.Apart] at this
  omega

/-- It puts no block over a table of theirs. -/
theorem not_sect (h : Built root done m tbl) (hapart : ∀ d ∈ done, d.Apart c)
    (ht : tbl .pte n = some t) : ¬ c.request.Sect c.low c.high n := by
  rintro ⟨hlow, hhigh, _, _⟩
  obtain ⟨d, hd, hlt, hleft, hright⟩ :=
    h.regions n (by rw [ht]; exact Option.some_ne_none t)
  have := hapart d hd
  simp only [Call.Apart] at this
  omega

theorem clean (h : Built root done m tbl) (hapart : ∀ d ∈ done, d.Apart c)
    (hpages : TablePages root (allocs (events ++ m.trace))) :
    Clean c.request c.low c.high m.mem tbl (allocs events) where
  fresh := by
    rw [allocs_append] at hpages
    obtain ⟨hnodup, hpage⟩ := hpages
    obtain ⟨hroot, hnodup⟩ := List.nodup_cons.mp hnodup
    obtain ⟨hevents, _, hdisjoint⟩ := List.nodup_append.mp hnodup
    refine ⟨hevents, fun p hp => hpage p ?_, fun p hp l n ht => ?_⟩
    · exact List.mem_cons_of_mem _ (List.mem_append_left _ hp)
    · obtain rfl | hold := h.origin ht
      · exact hroot (List.mem_append_left _ hp)
      · exact hdisjoint p hp p hold rfl
  apart := fun k hhit => absurd hhit (h.not_hit hapart k)

section Step

variable {tbl' : Tables}

/-- The tables of the earlier calls stay. -/
theorem keep (h : Built root done m tbl) (hapart : ∀ d ∈ done, d.Apart c)
    (hmapped : Mapped c.request c.low c.high N m.mem tbl mem' tbl' events)
    (ht : tbl l n = some t) : tbl' l n = some t := by
  apply hmapped.keep ht
  rintro ⟨rfl, hsect⟩
  exact h.not_sect hapart ht hsect

theorem step_writes (h : Built root done m tbl) (hapart : ∀ d ∈ done, d.Apart c)
    (hmapped : Mapped c.request c.low c.high N m.mem tbl mem' tbl' events) :
    ∀ e ∈ events ++ m.trace, ∀ a, e.Writes a →
      ∃ l n t, tbl' l n = some t ∧ InPage t a := by
  intro e he a ha
  obtain hnew | hold := List.mem_append.mp he
  · obtain ⟨l, n, t, ht, hin⟩ | ⟨p, hp, hin⟩ | ⟨k, hk, _⟩ := hmapped.writes e hnew a ha
    · exact ⟨l, n, t, h.keep hapart hmapped ht, hin⟩
    · obtain ⟨l, n, _, _, hsome⟩ := hmapped.landed p hp
      exact ⟨l, n, p, hsome, hin⟩
    · exact absurd hk (h.not_hit hapart k)
  · obtain ⟨l, n, t, ht, hin⟩ := h.writes e hold a ha
    exact ⟨l, n, t, h.keep hapart hmapped ht, hin⟩

theorem step_blocks (h : Built root done m tbl) (hapart : ∀ d ∈ done, d.Apart c)
    (hmapped : Mapped c.request c.low c.high N m.mem tbl mem' tbl' events)
    (hblock : IsBlock (entry mem' tbl' .pmd k)) :
    ∃ d ∈ c :: done, d.low ≤ k * 2 ^ 21 ∧ (k + 1) * 2 ^ 21 ≤ d.high := by
  by_cases hmeets : Meets (2 ^ 21) c.low c.high k
  · by_cases hsect : c.request.Sect c.low c.high k
    · exact ⟨c, List.mem_cons_self, hsect.1, hsect.2.1⟩
    · have hold : ¬ IsBlock (entry m.mem tbl .pmd k) :=
        fun hold => h.not_hit hapart k ⟨hmeets, hsect, hold⟩
      have htype := hmapped.pmd_page k hmeets hsect hold
      rw [IsBlock, htype] at hblock
      exact absurd hblock (by decide)
  · rw [hmapped.pmd_out k hmeets] at hblock
    exact List.exists_mem_cons_of_exists (h.blocks k hblock)

theorem step_regions (h : Built root done m tbl) (htree' : Tree root mem' tbl')
    (hmapped : Mapped c.request c.low c.high (Asks c.request .pgd c.low c.high)
      m.mem tbl mem' tbl' events)
    (hn : tbl' .pte n ≠ none) : ∃ d ∈ c :: done, Meets (2 ^ 21) d.low d.high n := by
  obtain ⟨t, ht⟩ := Option.ne_none_iff_exists'.mp hn
  cases hold : tbl .pte n with
  | some u =>
      exact List.exists_mem_cons_of_exists
        (h.regions n (by rw [hold]; exact Option.some_ne_none u))
  | none =>
      obtain hsame | hnew := hmapped.origin ht
      · rw [hold] at hsame
        contradiction
      · obtain ⟨l, i, hasks, _, hsome⟩ := hmapped.landed t hnew
        obtain ⟨rfl, rfl⟩ := htree'.inj hsome ht
        exact ⟨c, List.mem_cons_self, hasks.2.1⟩

theorem step_pages (h : Built root done m tbl) (hapart : ∀ d ∈ done, d.Apart c)
    (htree' : Tree root mem' tbl')
    (hmapped : Mapped c.request c.low c.high N m.mem tbl mem' tbl' events) (n : Nat) :
    entry mem' tbl' .pte n = 0 ∨
      ∃ d ∈ c :: done, entry mem' tbl' .pte n = d.request.pageDesc n := by
  by_cases hin : c.low ≤ n * 2 ^ 12 ∧ n * 2 ^ 12 < c.high
  · by_cases hsect : c.request.Sect c.low c.high (n / 512)
    · -- a block stands there now, and no table below it
      have hnone : tbl' .pte (n / 512) = none := by
        cases ht : tbl' .pte (n / 512) with
        | none => rfl
        | some u =>
            have htype := htree'.type_of_tbl (l := .pmd) (by decide) ht
            rw [hmapped.pmd_sect _ hsect] at htype
            exact absurd ((pfnPmd_sect_typeMask _ _).symm.trans htype) (by decide)
      exact .inl (entry_of_none hnone)
    · have hblock : ¬ IsBlock (entry m.mem tbl .pmd (n / 512)) :=
        fun hblock => h.not_hit hapart _ ⟨Mapped.page_meets hin.1 hin.2, hsect, hblock⟩
      exact .inr ⟨c, List.mem_cons_self, hmapped.pte_in n hin.1 hin.2 hsect hblock⟩
  · rw [hmapped.pte_out n hin]
    exact (h.pages n).imp_right List.exists_mem_cons_of_exists

theorem step_inside (h : Built root done m tbl) (hc : c.Bounded)
    (hapart : ∀ d ∈ done, d.Apart c) (htree' : Tree root mem' tbl')
    (hmapped : Mapped c.request c.low c.high N m.mem tbl mem' tbl' events)
    (hd : d ∈ c :: done) (htype : d.prot &&& typeMask = 3) {va : U64}
    (hva : d.Contains va.toNat) :
    walk mem' root va = some (d.request.leaf d.low d.high va.toNat) := by
  have hregion := Call.inRegion hc
  obtain rfl | hd := List.mem_cons.mp hd
  · have hstart := hregion.start
    have hbound := hregion.bound
    obtain ⟨hlow, hhigh⟩ := hva
    exact hmapped.walk_in htree' (h.not_hit hapart) htype (by omega) hhigh (by omega)
  · have hold := h.inside d hd htype va hva
    have hlt : va.toNat < 2 ^ 48 :=
      Nat.lt_of_lt_of_le hva.2 (Call.inRegion (h.bounded d hd)).bound
    rw [hmapped.walk_out h.tree htree' hregion.start hregion.stop ?_ hlt, hold]
    have := hapart d hd
    simp only [Call.Apart, Call.Contains] at this hva
    omega

theorem step (h : Built root done m tbl) (hc : c.Bounded) (hapart : ∀ d ∈ done, d.Apart c)
    (htrace : m'.trace = events ++ m.trace) (htree' : Tree root m'.mem tbl')
    (hmapped : Mapped c.request c.low c.high (Asks c.request .pgd c.low c.high)
      m.mem tbl m'.mem tbl' events) :
    Built root (c :: done) m' tbl' where
  tree := htree'
  bounded := List.forall_mem_cons.mpr ⟨hc, h.bounded⟩
  origin := by
    intro l n t ht
    rw [htrace, allocs_append, List.mem_append]
    obtain hold | hnew := hmapped.origin ht
    · exact (h.origin hold).imp_right .inr
    · exact .inr (.inl hnew)
  landed := by
    intro p hp
    rw [htrace, allocs_append, List.mem_append] at hp
    obtain hnew | hold := hp
    · obtain ⟨l, n, _, _, hsome⟩ := hmapped.landed p hnew
      exact ⟨l, n, hsome⟩
    · obtain ⟨l, n, hsome⟩ := h.landed p hold
      exact ⟨l, n, h.keep hapart hmapped hsome⟩
  linked := by rw [htrace, installed_append, allocs_append, hmapped.linked, h.linked]
  writes := by
    rw [htrace]
    exact h.step_writes hapart hmapped
  blocks := fun _ => h.step_blocks hapart hmapped
  regions := fun _ => h.step_regions htree' hmapped
  pages := h.step_pages hapart htree' hmapped
  inside := fun _ hd htype _ => h.step_inside hc hapart htree' hmapped hd htype
  outside := by
    intro va hlt hout
    have hregion := Call.inRegion hc
    rw [hmapped.walk_out h.tree htree' hregion.start hregion.stop
      (hout c List.mem_cons_self) hlt]
    exact h.outside va hlt fun d hd => hout d (List.mem_cons_of_mem _ hd)

end Step

/-- Before the first call: only the root. -/
def rootTable (root : U64) : Tables :=
  fun l n => if l = .pgd ∧ n = 0 then some root else none

theorem rootTable_some (h : rootTable root l n = some t) : l = .pgd ∧ n = 0 ∧ t = root := by
  unfold rootTable at h
  split at h
  · next hn => exact ⟨hn.1, hn.2, (Option.some.inj h).symm⟩
  · contradiction

theorem start (hroot : IsPage root) (hcleared : Cleared root m) :
    Built root [] m (rootTable root) := by
  have hentry : ∀ l n, entry m.mem (rootTable root) l n = 0 := by
    intro l n
    cases ht : rootTable root l (n / 512) with
    | none => exact entry_of_none ht
    | some t =>
        obtain ⟨_, _, rfl⟩ := rootTable_some ht
        rw [entry_of_some ht, hcleared.zero _ (Nat.mod_lt _ (by omega))]
  have htree : Tree root m.mem (rootTable root) := by
    refine ⟨fun n => by simp [rootTable], fun ht => (rootTable_some ht).2.2 ▸ hroot, ?_, ?_⟩
    · intro l n l' n' t h₁ h₂
      obtain ⟨rfl, rfl, _⟩ := rootTable_some h₁
      obtain ⟨rfl, rfl, _⟩ := rootTable_some h₂
      exact ⟨rfl, rfl⟩
    · intro l hl n
      have hnone : rootTable root l.below n = none := by
        cases l <;> rfl
      rw [hentry, hnone]
      exact .inl rfl
  refine
    { tree := htree
      bounded := fun _ h => absurd h List.not_mem_nil
      origin := fun ht => .inl (rootTable_some ht).2.2
      landed := fun p hp => absurd hp (by rw [hcleared.allocs]; exact List.not_mem_nil)
      linked := by rw [hcleared.allocs, hcleared.installed]
      writes := fun e he a ha => ⟨.pgd, 0, root, rfl, hcleared.writes e he a ha⟩
      blocks := fun k hblock => ?_
      regions := fun n hn => absurd rfl hn
      pages := fun n => .inl (hentry _ n)
      inside := fun _ h => absurd h List.not_mem_nil
      outside := fun va hva _ => ?_ }
  · rw [hentry] at hblock
    exact absurd hblock (by decide)
  · rw [htree.walk_eq hva, hentry, hentry]
    rfl

/-- The whole sequence. -/
theorem createAll (hfresh : TablePages root (allocs m'.trace)) :
    ∀ {calls done : List Call} {m : Machine σ} {tbl : Tables}, Built root done m tbl →
      (∀ c ∈ calls, c.Bounded) → (∀ d ∈ done, ∀ c ∈ calls, d.Apart c) →
      calls.Pairwise Call.Apart → createAll getFreePage fuel root calls m = some m' →
      ∃ tbl', Built root (calls.reverse ++ done) m' tbl' := by
  intro calls
  induction calls with
  | nil =>
      intro done m tbl h _ _ _ hrun
      cases hrun
      exact ⟨tbl, h⟩
  | cons c calls ih =>
      intro done m tbl h hbounded hdone hcalls hrun
      obtain ⟨m₁, hfirst, hrest⟩ := Option.bind_eq_some_iff.mp hrun
      obtain ⟨hc, hbounded⟩ := List.forall_mem_cons.mp hbounded
      obtain ⟨hapart, hcalls⟩ := List.pairwise_cons.mp hcalls
      have hcdone : ∀ d ∈ done, d.Apart c := fun d hd => hdone d hd c List.mem_cons_self
      obtain ⟨events, htrace, hmaps⟩ := Call.create_maps hc hfirst
      obtain ⟨later, hlater, _, _⟩ := createAll_logged hrest
      have hpages : TablePages root (allocs (events ++ m.trace)) := by
        rw [← htrace]
        rw [hlater, allocs_append] at hfresh
        exact hfresh.suffix
      obtain ⟨tbl₁, htree₁, hmapped⟩ := hmaps tbl h.tree (by rw [h.tree.root, if_pos rfl])
        (h.clean hcdone hpages)
      have h₁ := h.step hc hcdone htrace htree₁ hmapped
      rw [List.reverse_cons, List.append_assoc]
      refine ih h₁ hbounded ?_ hcalls hrest
      intro d hd e he
      obtain rfl | hd := List.mem_cons.mp hd
      · exact hapart e he
      · exact hdone d hd e (List.mem_cons_of_mem _ he)

end Built

/-! Every address of every range translates as its call asked. -/

namespace Call

/-- A bounded call with a page protection and output addresses below 2^48. -/
structure Valid (c : Call) : Prop where
  bounded : c.Bounded
  phys : (c.phys &&& pageMask).toNat + (c.high - c.low) ≤ 2 ^ 48
  type : c.prot &&& typeMask = 3
  addr : c.prot &&& pteAddrMask = 0

theorem request_phys_eq (c : Call) (va : U64) :
    c.request.phys va.toNat = (c.phys &&& pageMask) + (va - (c.virt &&& pageMask)) := by
  rw [Request.phys_toNat, request]
  bv_omega

theorem toNat_request_phys (hc : Valid c) (hlow : c.low ≤ a) (hhigh : a < c.high) :
    (c.request.phys a).toNat = (c.phys &&& pageMask).toNat + (a - c.low) := by
  have hphys := hc.phys
  have hbound := (inRegion hc.bounded).bound
  have hstart : (c.virt &&& pageMask).toNat = c.low := rfl
  rw [Request.phys, request, BitVec.toNat_add, BitVec.toNat_sub, BitVec.toNat_ofNat, hstart]
  omega

theorem fits (hc : Valid c) : c.request.Fits c.low c.high where
  bound := by
    intro a hlow hhigh
    have hphys := hc.phys
    rw [toNat_request_phys hc hlow hhigh]
    omega
  aligned := by
    intro a ha
    have hphys := toNat_and_pageMask c.phys
    have hvirt := toNat_and_pageMask c.virt
    rw [Request.phys, request, BitVec.toNat_add, BitVec.toNat_sub, BitVec.toNat_ofNat]
    omega
  prot := hc.addr

end Call

/-- From the empty map a few calls, each inside of one gigabyte, get the lowest
pages. -/
theorem createAll_lowPages {calls : List Call} {m : Machine MemMap}
    (hcalls : ∀ c ∈ calls, c.Bounded ∧ ∃ j, InRegion (2 ^ 30) j c.low c.high)
    (hfew : 514 * calls.length ≤ nrPages) (hroot : IsPage root)
    (hheld : ∀ i, root ≠ pageAddr i)
    (hcleared : Cleared root m₀) (hpool : m₀.pool = .empty)
    (h : createAll YiOS.getFreePage fuel root calls m₀ = some m) :
    TablePages root (allocs m.trace) ∧
      ∀ p ∈ allocs m.trace, ∃ i : Fin nrPages, i.val < 514 * calls.length ∧
        p = pageAddr i := by
  obtain ⟨events, htrace, hdraws, _⟩ := createAll_logged h
  obtain ⟨events', htrace', hlength⟩ := createAll_allocs_length hcalls h
  have hallocs : allocs m.trace = allocs events' := by
    rw [htrace', allocs_append, hcleared.allocs, List.append_nil]
  have hdraws : Draws YiOS.getFreePage (.filled 0) (allocs events') m.pool := by
    rw [← hallocs, htrace, allocs_append, hcleared.allocs, List.append_nil,
      MemMap.filled_zero, ← hpool]
    exact hdraws
  obtain ⟨_, hslots⟩ := hdraws.filled (by omega)
  have hne : 0 ∉ allocs events' := by
    intro hmem
    obtain ⟨i, _, heq⟩ := hslots 0 hmem
    exact pageAddr_ne_zero i heq.symm
  rw [hallocs]
  refine ⟨hdraws.tablePages hne hroot fun i heq => absurd heq (hheld i), fun p hp => ?_⟩
  obtain ⟨i, hi, rfl⟩ := hslots p hp
  exact ⟨i, by omega, rfl⟩

/-- The address translates as the call asks. -/
def Call.Translates (c : Call) (mem : U64 → U64) (root va : U64) : Prop :=
  ∃ leaf, walk mem root va = some leaf ∧
    leaf.output va = (c.phys &&& pageMask) + (va - (c.virt &&& pageMask)) ∧
    leaf.attributes = c.prot &&& attributeMask

theorem Call.translates_of_walk {c : Call} (hc : c.Valid) {va : U64}
    (hva : c.Contains va.toNat)
    (hwalk : walk mem root va = some (c.request.leaf c.low c.high va.toNat)) :
    c.Translates mem root va := by
  have hstart := (Call.inRegion hc.bounded).start
  refine ⟨_, hwalk, ?_, ?_⟩
  · rw [Request.leaf_output (Call.fits hc) hstart hva.1 hva.2, Call.request_phys_eq]
  · exact Request.leaf_attributes (Call.fits hc) hstart hva.1 hva.2

theorem Built.translates {done : List Call} (h : Built root done m tbl) (hmem : c ∈ done)
    (hc : c.Valid) {va : U64} (hva : c.Contains va.toNat) : c.Translates m.mem root va :=
  Call.translates_of_walk hc hva (h.inside c hmem hc.type va hva)

theorem createAll_translates (getFreePage : σ → U64 × σ) (hfuel : 512 ≤ fuel)
    (hroot : IsPage root) (mem : U64 → U64) (hzero : ∀ i < 512, mem (slotAddr root i) = 0)
    (pool : σ) {calls : List Call} (hvalid : ∀ c ∈ calls, c.Valid)
    (hapart : calls.Pairwise Call.Apart) :
    ∃ m, createAll getFreePage fuel root calls ⟨mem, pool, []⟩ = some m ∧
      (TablePages root (allocs m.trace) →
        (∀ c ∈ calls, ∀ va : U64, c.Contains va.toNat → ∃ leaf,
          walk m.mem root va = some leaf ∧
          leaf.output va = (c.phys &&& pageMask) + (va - (c.virt &&& pageMask)) ∧
          leaf.attributes = c.prot &&& attributeMask) ∧
        ∀ va : U64, va.toNat < 2 ^ 48 → (∀ c ∈ calls, ¬ c.Contains va.toNat) →
          walk m.mem root va = none) := by
  have hbounded : ∀ c ∈ calls, c.Bounded := fun c hc => (hvalid c hc).bounded
  obtain ⟨m, hrun⟩ := createAll_isSome getFreePage hfuel root hbounded ⟨mem, pool, []⟩
  refine ⟨m, hrun, fun hpages => ?_⟩
  obtain ⟨tbl, hbuilt⟩ := (Built.start hroot (.init hzero pool)).createAll hpages hbounded
    (fun _ h => absurd h List.not_mem_nil) hapart hrun
  rw [List.append_nil] at hbuilt
  constructor
  · intro c hc va hva
    exact hbuilt.translates (List.mem_reverse.mpr hc) (hvalid c hc) hva
  · intro va hva hout
    exact hbuilt.outside va hva fun c hc => hout c (List.mem_reverse.mp hc)

theorem isPage_4096 : IsPage 0x1000 := by
  rw [isPage_iff]
  decide

theorem pageAddr_ne_4096 (i : Fin nrPages) : 0x1000 ≠ pageAddr i := by
  intro heq
  have haddr := toNat_pageAddr i
  have hnat : (0x1000 : U64).toNat = 4096 := rfl
  rw [← heq] at haddr
  omega

/-- Tables from the empty map, in cleared memory. -/
theorem zeroed_pages {calls : List Call} {m : Machine MemMap}
    (hcalls : ∀ c ∈ calls, c.Bounded ∧ ∃ j, InRegion (2 ^ 30) j c.low c.high)
    (hfew : 514 * calls.length ≤ nrPages)
    (h : createAll YiOS.getFreePage fuel 0x1000 calls ⟨fun _ => 0, .empty, []⟩ = some m) :
    TablePages 0x1000 (allocs m.trace) ∧ 0 ∉ allocs m.trace ∧
      ∀ p ∈ allocs m.trace, ∃ i, p = pageAddr i := by
  obtain ⟨hpages, hslots⟩ := createAll_lowPages hcalls hfew isPage_4096 pageAddr_ne_4096
    (.init (fun _ _ => rfl) _) rfl h
  refine ⟨hpages, fun hmem => ?_, fun p hp => ?_⟩
  · obtain ⟨i, _, heq⟩ := hslots 0 hmem
    exact pageAddr_ne_zero i heq.symm
  · obtain ⟨i, _, heq⟩ := hslots p hp
    exact ⟨i, heq⟩

/-- One page mapped to itself. -/
def onePage (prot : U64) : Call := ⟨0x80000, 0x80000, 4096, prot, 0⟩

theorem onePage_inRegion (prot : U64) :
    InRegion (2 ^ 30) 0 (onePage prot).low (onePage prot).high := by
  change InRegion (2 ^ 30) 0 ((0x80000 : U64) &&& pageMask).toNat
    (pageBalign ((0x80000 : U64) + 4096)).toNat
  exact ⟨by decide, by decide, by decide, by decide, by decide, by decide⟩

theorem onePage_bounded (prot : U64) : (onePage prot).Bounded := by
  constructor
  · change 1 ≤ (4096 : U64).toNat
    decide
  · change (0x80000 : U64).toNat + (4096 : U64).toNat ≤ 2 ^ 48
    decide

theorem onePage_valid : (onePage pageKernelRox).Valid :=
  ⟨onePage_bounded _, by decide, by decide, by decide⟩

theorem onePage_pages (prot : U64) {m : Machine MemMap}
    (h : createAll YiOS.getFreePage fuel 0x1000 [onePage prot] ⟨fun _ => 0, .empty, []⟩ =
      some m) :
    TablePages 0x1000 (allocs m.trace) ∧ 0 ∉ allocs m.trace := by
  have hcalls : ∀ c ∈ [onePage prot], c.Bounded ∧ ∃ j, InRegion (2 ^ 30) j c.low c.high :=
    List.forall_mem_singleton.mpr ⟨onePage_bounded prot, 0, onePage_inRegion prot⟩
  obtain ⟨hpages, hne, _⟩ := zeroed_pages hcalls (by decide : 514 * 1 ≤ nrPages) h
  exact ⟨hpages, hne⟩

/-- The memory behind that page: single pages, the first in the same table, and a block. -/
def dataCall : Call := ⟨0x81000, 0x81000, 0x37f000, pageKernel, 0⟩

def twoCalls : List Call := [onePage pageKernelRox, dataCall]

theorem twoCalls_valid : ∀ c ∈ twoCalls, c.Valid :=
  List.forall_mem_cons.mpr ⟨onePage_valid, List.forall_mem_singleton.mpr
    ⟨⟨by decide, by decide⟩, by decide, by decide, by decide⟩⟩

theorem twoCalls_bounded : ∀ c ∈ twoCalls, c.Bounded :=
  fun c hc => (twoCalls_valid c hc).bounded

theorem twoCalls_type : ∀ c ∈ twoCalls, c.prot &&& typeMask = 3 :=
  fun c hc => (twoCalls_valid c hc).type

theorem twoCalls_apart : twoCalls.Pairwise Call.Apart :=
  List.pairwise_pair.mpr (by decide)

theorem twoCalls_pages {m : Machine MemMap}
    (h : createAll YiOS.getFreePage fuel 0x1000 twoCalls ⟨fun _ => 0, .empty, []⟩ = some m) :
    TablePages 0x1000 (allocs m.trace) ∧ 0 ∉ allocs m.trace := by
  have hdata : InRegion (2 ^ 30) 0 dataCall.low dataCall.high :=
    ⟨by decide, by decide, by decide, by decide, by decide, by decide⟩
  have hcalls : ∀ c ∈ twoCalls, c.Bounded ∧ ∃ j, InRegion (2 ^ 30) j c.low c.high := by
    intro c hc
    refine ⟨twoCalls_bounded c hc, 0, ?_⟩
    rcases List.mem_pair.mp hc with rfl | rfl
    · exact onePage_inRegion pageKernelRox
    · exact hdata
  obtain ⟨hpages, hne, _⟩ := zeroed_pages hcalls (by decide : 514 * 2 ≤ nrPages) h
  exact ⟨hpages, hne⟩

/-- Of the second call a page in the table of the first, and the block. -/
theorem createAll_translates_twoCalls :
    ∃ m, createAll YiOS.getFreePage 512 0x1000 twoCalls ⟨fun _ => 0, .empty, []⟩ = some m ∧
      (∃ leaf, walk m.mem 0x1000 0x80004 = some leaf ∧ leaf.output 0x80004 = 0x80004 ∧
        leaf.attributes = pageKernelRox &&& attributeMask) ∧
      (∃ leaf, walk m.mem 0x1000 0x81004 = some leaf ∧ leaf.output 0x81004 = 0x81004 ∧
        leaf.attributes = pageKernel &&& attributeMask) ∧
      (∃ leaf, walk m.mem 0x1000 0x200004 = some leaf ∧ leaf.output 0x200004 = 0x200004 ∧
        leaf.attributes = pageKernel &&& attributeMask) ∧
      walk m.mem 0x1000 0x400000 = none := by
  obtain ⟨m, hrun, htranslates⟩ := createAll_translates YiOS.getFreePage (Nat.le_refl 512)
    isPage_4096 (fun _ => 0) (fun _ _ => rfl) .empty twoCalls_valid twoCalls_apart
  obtain ⟨hinside, houtside⟩ := htranslates (twoCalls_pages hrun).1
  refine ⟨m, hrun, ?_, ?_, ?_, houtside 0x400000 (by decide) (by decide)⟩
  · obtain ⟨leaf, hwalk, houtput, hattributes⟩ :=
      hinside (onePage pageKernelRox) (by decide) 0x80004 (by decide)
    exact ⟨leaf, hwalk, houtput.trans (by decide), hattributes⟩
  · obtain ⟨leaf, hwalk, houtput, hattributes⟩ :=
      hinside dataCall (by decide) 0x81004 (by decide)
    exact ⟨leaf, hwalk, houtput.trans (by decide), hattributes⟩
  · obtain ⟨leaf, hwalk, houtput, hattributes⟩ :=
      hinside dataCall (by decide) 0x200004 (by decide)
    exact ⟨leaf, hwalk, houtput.trans (by decide), hattributes⟩

end YiOS
