import YiOS.Mmu.Exhaust

namespace YiOS

open YiOS.Library

variable {σ : Type} {getFreePage : σ → U64 × σ} {fuel : Nat} {root : U64}

/-! Ranges that are mapped once more, in the same way. -/

/-- Memory changes at the addresses of the record only. -/
def Framed (m m' : Machine σ) : Prop :=
  ∃ events, m'.trace = events ++ m.trace ∧
    ∀ a, (∀ e ∈ events, ¬ e.Writes a) → m'.mem a = m.mem a

theorem Framed.trans {m m' m'' : Machine σ} (h₁ : Framed m m') (h₂ : Framed m' m'') :
    Framed m m'' := by
  obtain ⟨first, htrace₁, hframe₁⟩ := h₁
  obtain ⟨second, htrace₂, hframe₂⟩ := h₂
  refine ⟨second ++ first, by rw [htrace₂, htrace₁, List.append_assoc], fun a ha => ?_⟩
  have hsecond : ∀ e ∈ second, ¬ e.Writes a := fun e he => ha e (List.mem_append_left _ he)
  have hfirst : ∀ e ∈ first, ¬ e.Writes a := fun e he => ha e (List.mem_append_right _ he)
  exact (hframe₂ a hsecond).trans (hframe₁ a hfirst)

theorem Machine.set_framed (m : Machine σ) (l : Level) (address value : U64) :
    Framed m (m.set l address value) := by
  refine ⟨[.set l address value], rfl, fun a ha => ?_⟩
  have hne : a ≠ address := ha _ List.mem_cons_self
  exact Function.update_of_ne hne _ _

theorem ensureTable_framed (l : Level) (entryp : U64) (m : Machine σ) :
    Framed m (ensureTable (earlyPgtableAlloc getFreePage) l 3 entryp m) := by
  by_cases hzero : m.mem entryp = 0
  · rw [ensureTable_of_zero hzero]
    refine ⟨linkEvents l entryp (getFreePage m.pool).1, rfl, fun a ha => ?_⟩
    have hne : a ≠ entryp := ha _ List.mem_cons_self
    have hclear : ∀ i < 512, a ≠ slotAddr (getFreePage m.pool).1 i := fun i hi heq =>
      ha (.memset (getFreePage m.pool).1 512) (by simp [linkEvents]) ⟨i, hi, heq⟩
    exact (Function.update_of_ne hne _ _).trans (memsetWords_of_ne 0 hclear)
  · rw [ensureTable_of_ne_zero hzero]
    exact ⟨[], rfl, fun _ _ => rfl⟩

theorem allocInitPte_framed {m m' : Machine σ}
    (h : allocInitPte (earlyPgtableAlloc getFreePage) fuel pmdp addr stop phys prot flags m =
      some m') : Framed m m' := by
  refine (ensureTable_framed .pmd pmdp m).trans (doRange_rel .trans ?_ h)
  intro _ _ _ _ s s' hrun
  cases hrun
  exact s.set_framed .pte _ _

theorem allocInitPmd_framed {m m' : Machine σ}
    (h : allocInitPmd (earlyPgtableAlloc getFreePage) fuel pudp addr stop phys prot flags m =
      some m') : Framed m m' := by
  refine (ensureTable_framed .pud pudp m).trans (doRange_rel .trans ?_ h)
  intro ptr addr upto offset s s' hrun
  split at hrun
  · cases hrun
    exact s.set_framed .pmd _ _
  · exact allocInitPte_framed hrun

theorem allocInitPud_framed {m m' : Machine σ}
    (h : allocInitPud (earlyPgtableAlloc getFreePage) fuel pgdp addr stop phys prot flags m =
      some m') : Framed m m' := by
  refine (ensureTable_framed .pgd pgdp m).trans (doRange_rel .trans ?_ h)
  exact allocInitPmd_framed

theorem Call.create_framed {c : Call} {m m' : Machine σ}
    (h : c.create getFreePage fuel root m = some m') : Framed m m' :=
  doRange_rel .trans allocInitPud_framed h

theorem Draws.eq_of_nil {s s' : σ} (h : Draws getFreePage s [] s') : s' = s := by
  cases h with
  | nil => rfl

/-- Every table that the call asks for is there, and every entry is as the call sets it. -/
structure Served (c : Call) (mem : U64 → U64) (tbl : Tables) : Prop where
  tables : ∀ {l n}, Asks c.request .pgd c.low c.high l n → tbl l n ≠ none
  sect : ∀ {k}, c.request.Sect c.low c.high k → entry mem tbl .pmd k = c.request.sectDesc k
  page : ∀ {n}, c.low ≤ n * 2 ^ 12 → n * 2 ^ 12 < c.high →
    ¬ c.request.Sect c.low c.high (n / 512) → entry mem tbl .pte n = c.request.pageDesc n

section

variable {c d : Call} {mem mem' : U64 → U64} {tbl tbl' : Tables} {events : List Event}
variable {N : Level → Nat → Prop}

theorem Mapped.served
    (h : Mapped c.request c.low c.high (Asks c.request .pgd c.low c.high) mem tbl mem' tbl'
      events)
    (hhit : ∀ k, ¬ Hit c.request c.low c.high mem tbl k) : Served c mem' tbl' where
  tables := by
    intro l n hasks
    obtain hsome | ⟨rfl, hblock⟩ := h.present hasks
    · exact hsome
    · obtain ⟨hmeets, hsect⟩ := h.near hasks
      exact absurd ⟨hmeets, hsect, hblock⟩ (hhit n)
  sect := fun hsect => h.pmd_sect _ hsect
  page := by
    intro n hlow hhigh hsect
    refine h.pte_in n hlow hhigh hsect fun hblock => ?_
    exact hhit _ ⟨Mapped.page_meets hlow hhigh, hsect, hblock⟩

namespace Served

/-- A call over another range keeps what it finds. -/
theorem keep (h : Served c mem tbl) (hapart : c.Apart d)
    (hmapped : Mapped d.request d.low d.high N mem tbl mem' tbl' events) :
    Served c mem' tbl' where
  tables := by
    intro l n hasks
    obtain ⟨t, ht⟩ := Option.ne_none_iff_exists'.mp (h.tables hasks)
    rw [hmapped.keep ht]
    · exact Option.some_ne_none t
    · rintro ⟨rfl, hlow, hhigh, _⟩
      obtain ⟨_, ⟨_, hleft, hright⟩, _⟩ := hasks
      simp only [Level.span, Call.Apart] at hleft hright hapart
      omega
  sect := by
    intro k hsect
    rw [hmapped.pmd_out k]
    · exact h.sect hsect
    · rintro ⟨_, hleft, hright⟩
      obtain ⟨hlow, hhigh, _⟩ := hsect
      simp only [Call.Apart] at hapart
      omega
  page := by
    intro n hlow hhigh hsect
    rw [hmapped.pte_out n]
    · exact h.page hlow hhigh hsect
    · rintro ⟨hlow', hhigh'⟩
      simp only [Call.Apart] at hapart
      omega

theorem asks_pte (hmeets : Meets (2 ^ 21) c.low c.high k)
    (hsect : ¬ c.request.Sect c.low c.high k) :
    Asks c.request .pgd c.low c.high .pte k :=
  ⟨by decide, hmeets, fun _ => hsect⟩

theorem not_hit (h : Served c mem tbl) (htree : Tree root mem tbl) (k : Nat) :
    ¬ Hit c.request c.low c.high mem tbl k := by
  rintro ⟨hmeets, hsect, hblock⟩
  obtain ⟨t, ht⟩ := Option.ne_none_iff_exists'.mp (h.tables (asks_pte hmeets hsect))
  have htype := htree.type_of_tbl (l := .pmd) (by decide) ht
  rw [IsBlock, htype] at hblock
  exact absurd hblock (by decide)

/-- No table hangs below a block. -/
theorem none_of_sect (h : Served c mem tbl) (htree : Tree root mem tbl)
    (hsect : c.request.Sect c.low c.high k) : tbl .pte k = none := by
  cases ht : tbl .pte k with
  | none => rfl
  | some t =>
      have htype := htree.type_of_tbl (l := .pmd) (by decide) ht
      rw [h.sect hsect] at htype
      exact absurd ((pfnPmd_sect_typeMask _ _).symm.trans htype) (by decide)

theorem missing_eq (h : Served c mem tbl) (hc : c.Bounded) : c.missing mem tbl = ∅ := by
  refine Finset.eq_empty_of_forall_notMem fun x hx => ?_
  obtain ⟨hasks, hnone, _⟩ := (Call.mem_missing hc).mp hx
  exact h.tables hasks hnone

/-- Nothing is allocated. -/
theorem allocs_eq (h : Served c mem tbl)
    (hmapped : Mapped c.request c.low c.high (Asks c.request .pgd c.low c.high) mem tbl
      mem' tbl' events) : allocs events = [] := by
  refine List.eq_nil_iff_forall_not_mem.mpr fun p hp => ?_
  obtain ⟨l, n, hasks, hnone, _⟩ := hmapped.landed p hp
  exact h.tables hasks hnone

theorem tables_eq (h : Served c mem tbl) (htree : Tree root mem tbl)
    (hmapped : Mapped c.request c.low c.high (Asks c.request .pgd c.low c.high) mem tbl
      mem' tbl' events) : tbl' = tbl := by
  funext l n
  cases ht : tbl l n with
  | some t =>
      refine hmapped.keep ht ?_
      rintro ⟨rfl, hsect⟩
      exact absurd ((h.none_of_sect htree hsect).symm.trans ht) (Option.some_ne_none t).symm
  | none =>
      cases ht' : tbl' l n with
      | none => rfl
      | some t =>
          obtain hold | hnew := hmapped.origin ht'
          · exact absurd (ht.symm.trans hold) (Option.some_ne_none t).symm
          · rw [h.allocs_eq hmapped] at hnew
            exact absurd hnew List.not_mem_nil

theorem entry_eq (h : Served c mem tbl) (htree : Tree root mem tbl)
    (htree' : Tree root mem' tbl)
    (hmapped : Mapped c.request c.low c.high N mem tbl mem' tbl events)
    (l : Level) (n : Nat) :
    entry mem' tbl l n = entry mem tbl l n := by
  -- the tables alone tell what links them
  have hlink : l ≠ .pte → l ≠ .pmd ∨ tbl l.below n ≠ none →
      entry mem' tbl l n = entry mem tbl l n := by
    intro hl hor
    cases hbelow : tbl l.below n with
    | some t => rw [htree'.entry_table hl hbelow, htree.entry_table hl hbelow]
    | none =>
        have hne : l ≠ .pmd := hor.resolve_right fun hsome => hsome hbelow
        rw [(htree'.entry_none hl hbelow).resolve_right fun hblock => hne hblock.1,
          (htree.entry_none hl hbelow).resolve_right fun hblock => hne hblock.1]
  cases l with
  | pgd => exact hlink (by decide) (.inl (by decide))
  | pud => exact hlink (by decide) (.inl (by decide))
  | pmd =>
      by_cases hmeets : Meets (2 ^ 21) c.low c.high n
      · by_cases hsect : c.request.Sect c.low c.high n
        · rw [hmapped.pmd_sect n hsect, h.sect hsect]
        · exact hlink (by decide) (.inr (h.tables (asks_pte hmeets hsect)))
      · exact hmapped.pmd_out n hmeets
  | pte =>
      by_cases hin : c.low ≤ n * 2 ^ 12 ∧ n * 2 ^ 12 < c.high
      · by_cases hsect : c.request.Sect c.low c.high (n / 512)
        · rw [entry_of_none (h.none_of_sect htree hsect),
            entry_of_none (h.none_of_sect htree hsect)]
        · have hblock : ¬ IsBlock (entry mem tbl .pmd (n / 512)) := fun hblock =>
            h.not_hit htree _ ⟨Mapped.page_meets hin.1 hin.2, hsect, hblock⟩
          rw [hmapped.pte_in n hin.1 hin.2 hsect hblock, h.page hin.1 hin.2 hsect]
      · exact hmapped.pte_out n hin

end Served

end

section

variable {c : Call} {tbl : Tables} {m m' : Machine MemMap}

/-- A call that is made again changes no word and takes no page. -/
theorem Served.again (h : Served c m.mem tbl) (hc : c.Bounded) (htree : Tree root m.mem tbl)
    (htables : ∀ {l n i}, tbl l n = some (pageAddr i) → m.pool i ≠ 0)
    (hrun : c.create YiOS.getFreePage fuel root m = some m') :
    m'.mem = m.mem ∧ m'.pool = m.pool := by
  have hheld : Held m.pool c.request c.low c.high m.mem tbl :=
    ⟨htables, fun hhit => absurd hhit (h.not_hit htree _)⟩
  obtain ⟨events, hlog⟩ := Call.create_logged hrun
  have hne : 0 ∉ allocs events := by
    rw [hheld.exhausted_iff hc htree hrun hlog, h.missing_eq hc, Finset.card_empty]
    exact Nat.not_lt_zero _
  obtain ⟨tbl', htree', hmapped⟩ := hheld.mapped hc htree hrun hlog hne
  have hallocs := h.allocs_eq hmapped
  obtain rfl := h.tables_eq htree hmapped
  constructor
  · funext a
    by_cases hin : ∃ l n t, tbl' l n = some t ∧ InPage t a
    · obtain ⟨l, n, t, ht, i, hi, rfl⟩ := hin
      have hentry := h.entry_eq htree htree' hmapped l (512 * n + i)
      have hdiv : (512 * n + i) / 512 = n := by omega
      have hmod : (512 * n + i) % 512 = i := by omega
      rw [← hdiv] at ht
      rwa [entry_of_some ht, entry_of_some ht, hmod] at hentry
    · obtain ⟨events', htrace, hframe⟩ := Call.create_framed hrun
      obtain rfl := hlog.events_eq htrace
      refine hframe a fun e he ha => ?_
      obtain htable | ⟨p, hp, _⟩ | ⟨k, hhit, _⟩ := hmapped.writes e he a ha
      · exact hin htable
      · rw [hallocs] at hp
        exact absurd hp List.not_mem_nil
      · exact h.not_hit htree k hhit
  · have hdraws := hlog.draws
    rw [hallocs] at hdraws
    exact hdraws.eq_of_nil

/-- So do any number of calls, in any order. -/
theorem createAll_again {again : List Call} (htree : Tree root m.mem tbl)
    (htables : ∀ {l n i}, tbl l n = some (pageAddr i) → m.pool i ≠ 0)
    (hserved : ∀ c ∈ again, c.Bounded ∧ Served c m.mem tbl)
    (hrun : createAll YiOS.getFreePage fuel root again m = some m') :
    m'.mem = m.mem ∧ m'.pool = m.pool := by
  induction again generalizing m with
  | nil =>
      cases hrun
      exact ⟨rfl, rfl⟩
  | cons c again ih =>
      obtain ⟨m₁, hfirst, hrest⟩ := Option.bind_eq_some_iff.mp hrun
      obtain ⟨⟨hc, hservedc⟩, hserved⟩ := List.forall_mem_cons.mp hserved
      obtain ⟨hmem, hpool⟩ := hservedc.again hc htree htables hfirst
      obtain ⟨hmem', hpool'⟩ := ih (hmem ▸ htree) (hpool ▸ htables) (hmem ▸ hserved) hrest
      exact ⟨hmem'.trans hmem, hpool'.trans hpool⟩

end

/-- The tables of a sequence of calls, each of which has got its pages. -/
structure Complete (root : U64) (done : List Call) (m : Machine MemMap) (tbl : Tables) :
    Prop where
  built : Built root done m tbl
  served : ∀ c ∈ done, Served c m.mem tbl
  asked : ∀ {l n}, tbl l n ≠ none → l ≠ .pgd →
    ∃ c ∈ done, Asks c.request .pgd c.low c.high l n
  pages : (root :: allocs m.trace).Nodup
  held : ∀ {l n i}, tbl l n = some (pageAddr i) → m.pool i ≠ 0

namespace Complete

variable {done calls : List Call} {c : Call} {m m' : Machine MemMap} {tbl : Tables}

theorem start (hroot : IsPage root) (hcleared : Cleared root m)
    (hheld : ∀ i, root = pageAddr i → m.pool i ≠ 0) :
    Complete root [] m (Built.rootTable root) where
  built := .start hroot hcleared
  served := fun _ h => absurd h List.not_mem_nil
  asked := by
    intro l n hn hl
    obtain ⟨t, ht⟩ := Option.ne_none_iff_exists'.mp hn
    exact absurd (Built.rootTable_some ht).1 hl
  pages := by
    rw [hcleared.allocs]
    exact List.nodup_singleton root
  held := fun ht => hheld _ (Built.rootTable_some ht).2.2.symm

theorem root_eq (h : Complete root done m tbl) : tbl .pgd 0 = some root := by
  rw [h.built.tree.root, if_pos rfl]

theorem held_call (h : Complete root done m tbl) (hapart : ∀ d ∈ done, d.Apart c) :
    Held m.pool c.request c.low c.high m.mem tbl :=
  ⟨h.held, fun hhit => absurd hhit (h.built.not_hit hapart _)⟩

/-- New pages are neither the root nor earlier ones. -/
theorem step_pages (h : Complete root done m tbl)
    (hdrawn : Drawn m.pool (allocs events) memMap') :
    (root :: (allocs events ++ allocs m.trace)).Nodup := by
  have hnew : ∀ p ∈ allocs events, ∀ l n, tbl l n ≠ some p := by
    intro p hp l n ht
    obtain ⟨i, rfl, hfree, _⟩ := hdrawn.slot p hp
    exact h.held ht hfree
  obtain ⟨hroot, hold⟩ := List.nodup_cons.mp h.pages
  refine List.nodup_cons.mpr ⟨fun hmem => ?_,
    List.nodup_append.mpr ⟨hdrawn.nodup, hold, ?_⟩⟩
  · obtain hmem | hmem := List.mem_append.mp hmem
    · exact hnew root hmem .pgd 0 h.root_eq
    · exact hroot hmem
  · rintro p hp _ hp' rfl
    obtain ⟨l, n, ht⟩ := h.built.landed p hp'
    exact hnew p hp l n ht

theorem step (h : Complete root done m tbl) (hc : c.Bounded)
    (hapart : ∀ d ∈ done, d.Apart c)
    (hrun : c.create YiOS.getFreePage fuel root m = some m')
    (hlog : Log YiOS.getFreePage m m' events) (hne : 0 ∉ allocs events) :
    ∃ tbl', Complete root (c :: done) m' tbl' := by
  obtain ⟨tbl', htree', hmapped⟩ :=
    (h.held_call hapart).mapped hc h.built.tree hrun hlog hne
  have hdrawn := hlog.draws.drawn hne
  refine ⟨tbl', h.built.step hc hapart hlog.trace htree' hmapped, ?_, ?_, ?_, ?_⟩
  · intro d hd
    obtain rfl | hd := List.mem_cons.mp hd
    · exact hmapped.served (h.built.not_hit hapart)
    · exact (h.served d hd).keep (hapart d hd) hmapped
  · intro l n hn hl
    obtain ⟨t, ht⟩ := Option.ne_none_iff_exists'.mp hn
    obtain hold | hnew := hmapped.origin ht
    · have hsome : tbl l n ≠ none := by
        rw [hold]
        exact Option.some_ne_none t
      exact List.exists_mem_cons_of_exists (h.asked hsome hl)
    · obtain ⟨l', n', hasks, _, hsome⟩ := hmapped.landed t hnew
      obtain ⟨rfl, rfl⟩ := htree'.inj hsome ht
      exact ⟨c, List.mem_cons_self, hasks⟩
  · rw [hlog.trace, allocs_append]
    exact h.step_pages hdrawn
  · intro l n i ht
    exact hdrawn.tables hmapped h.held ht

/-- The whole sequence. -/
theorem createAll (h : Complete root done m tbl) (hbounded : ∀ c ∈ calls, c.Bounded)
    (hdone : ∀ d ∈ done, ∀ c ∈ calls, d.Apart c) (hcalls : calls.Pairwise Call.Apart)
    (hrun : YiOS.createAll YiOS.getFreePage fuel root calls m = some m')
    (hne : 0 ∉ allocs m'.trace) :
    ∃ tbl', Complete root (calls.reverse ++ done) m' tbl' := by
  induction calls generalizing done m tbl with
  | nil =>
      cases hrun
      exact ⟨tbl, h⟩
  | cons c calls ih =>
      obtain ⟨m₁, hfirst, hrest⟩ := Option.bind_eq_some_iff.mp hrun
      obtain ⟨hc, hbounded⟩ := List.forall_mem_cons.mp hbounded
      obtain ⟨hapart, hcalls⟩ := List.pairwise_cons.mp hcalls
      have hcdone : ∀ d ∈ done, d.Apart c := fun d hd => hdone d hd c List.mem_cons_self
      obtain ⟨events, hlog⟩ := Call.create_logged hfirst
      obtain ⟨later, hlater, _, _⟩ := createAll_logged hrest
      have hnone : 0 ∉ allocs events := by
        intro hmem
        apply hne
        rw [hlater, hlog.trace, allocs_append, allocs_append]
        exact List.mem_append_right _ (List.mem_append_left _ hmem)
      obtain ⟨tbl₁, h₁⟩ := h.step hc hcdone hfirst hlog hnone
      rw [List.reverse_cons, List.append_assoc]
      refine ih h₁ hbounded ?_ hcalls hrest
      intro d hd e he
      obtain rfl | hd := List.mem_cons.mp hd
      · exact hapart e he
      · exact hdone d hd e (List.mem_cons_of_mem _ he)

/-- A sequence from a cleared root. -/
theorem of_cleared (hroot : IsPage root) (hcleared : Cleared root m)
    (hheld : ∀ i, root = pageAddr i → m.pool i ≠ 0) (hbounded : ∀ c ∈ calls, c.Bounded)
    (hcalls : calls.Pairwise Call.Apart)
    (hrun : YiOS.createAll YiOS.getFreePage fuel root calls m = some m')
    (hne : 0 ∉ allocs m'.trace) : ∃ tbl, Complete root calls.reverse m' tbl := by
  have h := (start hroot hcleared hheld).createAll hbounded
    (fun _ h => absurd h List.not_mem_nil)
    hcalls hrun hne
  rwa [List.append_nil] at h

end Complete

/-- Once a sequence of calls over disjoint ranges has got its pages, any of the calls may be
made again, in any order and as often as one likes: no word of memory changes and no page is
taken. -/
theorem createAll_idempotent {calls again : List Call} {pool : MemMap} (hfuel : 512 ≤ fuel)
    (hroot : IsPage root) (hheld : ∀ i, root = pageAddr i → pool i ≠ 0) (mem : U64 → U64)
    (hzero : ∀ i < 512, mem (slotAddr root i) = 0) (hbounded : ∀ c ∈ calls, c.Bounded)
    (hapart : calls.Pairwise Call.Apart) (hagain : ∀ c ∈ again, c ∈ calls) :
    ∃ m m', createAll YiOS.getFreePage fuel root calls ⟨mem, pool, []⟩ = some m ∧
      createAll YiOS.getFreePage fuel root again m = some m' ∧
      (0 ∉ allocs m.trace → m'.mem = m.mem ∧ m'.pool = m.pool) := by
  obtain ⟨m, hrun⟩ := createAll_isSome YiOS.getFreePage hfuel root hbounded ⟨mem, pool, []⟩
  obtain ⟨m', hrun'⟩ := createAll_isSome YiOS.getFreePage hfuel root
    (fun c hc => hbounded c (hagain c hc)) m
  refine ⟨m, m', hrun, hrun', fun hne => ?_⟩
  obtain ⟨tbl, h⟩ :=
    Complete.of_cleared hroot (.init hzero pool) hheld hbounded hapart hrun hne
  refine createAll_again h.built.tree h.held (fun c hc => ?_) hrun'
  exact ⟨hbounded c (hagain c hc), h.served c (List.mem_reverse.mpr (hagain c hc))⟩

/-- The two calls in the other order, and the first once more. -/
theorem createAll_idempotent_twoCalls :
    ∃ m m', createAll YiOS.getFreePage 512 0x1000 twoCalls
      ⟨fun _ => 0, .empty, []⟩ = some m ∧
      createAll YiOS.getFreePage 512 0x1000
        [dataCall, onePage pageKernelRox, onePage pageKernelRox] m = some m' ∧
      m'.mem = m.mem ∧ m'.pool = m.pool := by
  have hagain : ∀ c ∈ [dataCall, onePage pageKernelRox, onePage pageKernelRox],
      c ∈ twoCalls := by simp [twoCalls]
  obtain ⟨m, m', hrun, hrun', hsame⟩ := createAll_idempotent
    (Nat.le_refl 512) isPage_4096 (fun i heq => absurd heq (pageAddr_ne_4096 i))
    (fun _ => 0)
    (fun _ _ => rfl) twoCalls_bounded twoCalls_apart hagain
  exact ⟨m, m', hrun, hrun', hsame (twoCalls_pages hrun).2⟩

end YiOS
