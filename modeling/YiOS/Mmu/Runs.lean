import YiOS.Mmu.Levels

namespace YiOS

open YiOS.Library

variable {σ : Type} {getFreePage : σ → U64 × σ} {fuel : Nat}
variable {m m' m'' : Machine σ} {r : Request} {l : Level}

/-! Termination: a table has 512 entries. -/

/-- The entries of the table from `a` on. -/
def entriesLeft (size j : Nat) (stop a : U64) : Nat :=
  if a = stop then 0 else (j + 1) * 512 - a.toNat / size

theorem entriesLeft_le {size : Nat} {addr : U64} (hpos : 0 < size) (stop : U64)
    (hlow : j * (512 * size) ≤ addr.toNat) : entriesLeft size j stop addr ≤ 512 := by
  have hfirst : j * 512 ≤ addr.toNat / size := by
    rw [Nat.le_div_iff_mul_le hpos, Nat.mul_assoc]
    exact hlow
  unfold entriesLeft
  split
  · exact Nat.zero_le _
  · omega

theorem InRegion.entriesLeft_next {size A : Nat} {a stop : U64} {next : U64 → U64 → U64}
    (hregion : InRegion (512 * size) j A stop.toNat) (hsize : size % 2 ^ 12 = 0)
    (hpos : 0 < size)
    (hnext : a.toNat < stop.toNat → stop.toNat ≤ 2 ^ 48 → a.toNat % 2 ^ 12 = 0 →
      stop.toNat % 2 ^ 12 = 0 →
      (next a stop).toNat = min ((a.toNat / size + 1) * size) stop.toNat)
    (hlow : A ≤ a.toNat) (hhigh : a.toNat ≤ stop.toNat) (haligned : a.toNat % 2 ^ 12 = 0)
    (hne : a ≠ stop) :
    entriesLeft size j stop (next a stop) < entriesLeft size j stop a := by
  obtain ⟨_, hindex, _, hmore⟩ := hregion.next hsize hnext hlow hhigh haligned hne
  unfold entriesLeft
  rw [if_neg hne]
  split
  · omega
  · next hlast =>
    rw [(hmore hlast).1, Nat.mul_div_cancel _ hpos]
    omega

theorem rangeLoop_isSome {α : Type*} (size : Nat) {next : U64 → U64 → U64}
    {body : U64 → U64 → U64 → U64 → α → Option α}
    {stride stop addr : U64} (hsize : size % 2 ^ 12 = 0) (hpos : 0 < size)
    (hnext : ∀ {addr : U64}, addr.toNat < stop.toNat → stop.toNat ≤ 2 ^ 48 →
      addr.toNat % 2 ^ 12 = 0 → stop.toNat % 2 ^ 12 = 0 →
      (next addr stop).toNat = min ((addr.toNat / size + 1) * size) stop.toNat)
    (hbody : ∀ {k : Nat} {addr upto : U64} ptr offset s,
      InRegion size k addr.toNat upto.toNat → (body ptr addr upto offset s).isSome)
    (hregion : InRegion (512 * size) j addr.toNat stop.toNat) (hfuel : 512 ≤ fuel)
    (ptr offset : U64) (m : α) :
    (doRange next body stride stop fuel ptr addr offset m).isSome := by
  refine doRange_isSome (entriesLeft size j stop)
    (P := fun a => addr.toNat ≤ a.toNat ∧ a.toNat ≤ stop.toNat ∧ a.toNat % 2 ^ 12 = 0)
    ?_ ?_ ptr offset m ⟨Nat.le_refl _, Nat.le_of_lt hregion.lt, hregion.start⟩ hregion.ne
    ((entriesLeft_le hpos stop hregion.low).trans hfuel)
  · rintro a ⟨hlow, hhigh, haligned⟩ hstop
    obtain ⟨hpiece, _, hnextLe, _⟩ := hregion.next hsize hnext hlow hhigh haligned hstop
    exact ⟨⟨hlow.trans (Nat.le_of_lt hpiece.lt), hnextLe, hpiece.stop⟩,
      hregion.entriesLeft_next hsize hpos hnext hlow hhigh haligned hstop⟩
  · rintro a ptr offset s ⟨hlow, hhigh, haligned⟩ hstop
    exact hbody ptr offset s (hregion.next hsize hnext hlow hhigh haligned hstop).1

/-- `regionLoop` for bodies that return: each piece is the part of the range in one
entry. -/
theorem regionLoop_total {α : Type*} (size : Nat) {next : U64 → U64 → U64}
    {body : U64 → U64 → U64 → U64 → α → Option α} {stop addr : U64}
    {P : Nat → Nat → α → α → Prop} (hsize : size % 2 ^ 12 = 0) (hpos : 0 < size)
    (hnext : ∀ {addr : U64}, addr.toNat < stop.toNat → stop.toNat ≤ 2 ^ 48 →
      addr.toNat % 2 ^ 12 = 0 → stop.toNat % 2 ^ 12 = 0 →
      (next addr stop).toNat = min ((addr.toNat / size + 1) * size) stop.toNat)
    (hrefl : ∀ A m, P A A m m)
    (htrans : ∀ {A b B m₁ m₂ m₃}, A ≤ b → b ≤ B → P A b m₁ m₂ → P b B m₂ m₃ → P A B m₁ m₃)
    (hbody : ∀ {k : Nat} {a upto : U64} (offset : U64) (s : α), k / 512 = j →
      InRegion size k a.toNat upto.toNat → a.toNat = max addr.toNat (k * size) →
      upto.toNat = min stop.toNat ((k + 1) * size) →
      ∃ s', body (slotAddr t (k % 512)) a upto offset s = some s' ∧
        P a.toNat upto.toNat s s')
    (hregion : InRegion (512 * size) j addr.toNat stop.toNat) (hfuel : 512 ≤ fuel)
    (offset : U64) (m : α) :
    ∃ m', doRange next body entrySize stop fuel (slotAddr t (addr.toNat / size % 512)) addr
      offset m = some m' ∧ P addr.toNat stop.toNat m m' := by
  have htotal : ∃ m', doRange next body entrySize stop fuel
      (slotAddr t (addr.toNat / size % 512)) addr offset m = some m' ∧ ∃ ptr offset : U64,
        P addr.toNat stop.toNat m m' ∧ RegionCursor size addr.toNat t stop stop ptr := by
    refine doRange_total (I := fun a ptr _ s =>
      P addr.toNat a.toNat m s ∧ RegionCursor size addr.toNat t stop a ptr)
      (entriesLeft size j stop) ?_ ⟨hrefl _ m, hregion.cursor t size⟩ hregion.ne
      ((entriesLeft_le hpos stop hregion.low).trans hfuel)
    rintro a ptr offset s ⟨hP, hcursor⟩ hstop
    obtain ⟨hcut, rfl⟩ := hcursor.slot hstop
    have hlow := hcursor.low
    obtain ⟨hpiece, hindex, _⟩ :=
      hregion.next hsize hnext hlow hcursor.high hcursor.aligned hstop
    have hend := hnext (toNat_lt_of_ne hcursor.high hstop) hregion.bound hcursor.aligned
      hregion.stop
    have hstart : a.toNat = max addr.toNat (a.toNat / size * size) := by
      obtain hboundary | hfirst := hcut
      · rw [Nat.div_mul_cancel (Nat.dvd_of_mod_eq_zero hboundary), Nat.max_eq_right hlow]
      · rw [hfirst, Nat.max_eq_left (Nat.div_mul_le_self _ _)]
    obtain ⟨s', hrun, hstep⟩ :=
      hbody offset s hindex hpiece hstart (hend.trans (Nat.min_comm _ _))
    exact ⟨hregion.entriesLeft_next hsize hpos hnext hlow hcursor.high hcursor.aligned hstop, s',
      hrun, htrans hlow (Nat.le_of_lt hpiece.lt) hP hstep,
      hcursor.next hsize hpos hnext hregion hstop⟩
  obtain ⟨m', hrun, _, _, hP, _⟩ := htotal
  exact ⟨m', hrun, hP⟩

section

variable {alloc : Machine σ → U64 × Machine σ}

theorem allocInitPte_isSome (hregion : InRegion (2 ^ 21) k addr.toNat stop.toNat)
    (hfuel : 512 ≤ fuel) (pmdp phys prot flags : U64) (m : Machine σ) :
    (allocInitPte alloc fuel pmdp addr stop phys prot flags m).isSome := by
  refine rangeLoop_isSome (2 ^ 12) (by decide) (by decide) ?_ ?_ hregion hfuel _ _ _
  · intro a hlt hbound haligned hstop
    have hstep := add_le_of_aligned haligned hstop hlt
    rw [toNat_add_pageSize (Nat.lt_of_lt_of_le hlt hbound), Nat.succ_mul,
      Nat.div_mul_cancel (Nat.dvd_of_mod_eq_zero haligned), Nat.min_eq_left hstep]
  · exact fun _ _ _ _ => rfl

theorem allocInitPmd_isSome (hregion : InRegion (2 ^ 30) k addr.toNat stop.toNat)
    (hfuel : 512 ≤ fuel) (pudp phys prot flags : U64) (m : Machine σ) :
    (allocInitPmd alloc fuel pudp addr stop phys prot flags m).isSome := by
  refine rangeLoop_isSome (2 ^ 21) (by decide) (by decide) ?_ ?_ hregion hfuel _ _ _
  · exact fun hlt hstop _ _ => toNat_addrEnd (by decide) (by decide) (by decide) hlt hstop
  · intro k addr upto ptr offset s hpiece
    split
    · rfl
    · exact allocInitPte_isSome hpiece hfuel _ _ _ _ _

theorem allocInitPud_isSome (hregion : InRegion (2 ^ 39) k addr.toNat stop.toNat)
    (hfuel : 512 ≤ fuel) (pgdp phys prot flags : U64) (m : Machine σ) :
    (allocInitPud alloc fuel pgdp addr stop phys prot flags m).isSome := by
  refine rangeLoop_isSome (2 ^ 30) (by decide) (by decide) ?_ ?_ hregion hfuel _ _ _
  · exact fun hlt hstop _ _ => toNat_addrEnd (by decide) (by decide) (by decide) hlt hstop
  · exact fun _ _ _ hpiece => allocInitPmd_isSome hpiece hfuel _ _ _ _ _

end

theorem Call.create_isSome (hc : Bounded c) (hfuel : 512 ≤ fuel) (root : U64)
    (m : Machine σ) :
    (c.create getFreePage fuel root m).isSome := by
  refine rangeLoop_isSome (2 ^ 39) (by decide) (by decide) ?_ ?_ (inRegion hc) hfuel
    _ _ _
  · exact fun hlt hstop _ _ => toNat_addrEnd (by decide) (by decide) (by decide) hlt hstop
  · exact fun _ _ _ hpiece => allocInitPud_isSome hpiece hfuel _ _ _ _ _

/-! The record: each page taken comes from the allocator, is cleared and is
linked, whatever it is. -/

/-- The pages, newest first, that the allocator hands out between two of its
states. -/
inductive Draws (getFreePage : σ → U64 × σ) (s : σ) : List U64 → σ → Prop
  | nil : Draws getFreePage s [] s
  | cons : Draws getFreePage s pages s' →
      Draws getFreePage s ((getFreePage s').1 :: pages) (getFreePage s').2

theorem Draws.append (h₁ : Draws getFreePage s first s')
    (h₂ : Draws getFreePage s' second s'') : Draws getFreePage s (second ++ first) s'' := by
  induction h₂ with
  | nil => exact h₁
  | cons _ ih => exact ih.cons

structure Log (getFreePage : σ → U64 × σ) (m m' : Machine σ)
    (events : List Event) : Prop where
  trace : m'.trace = events ++ m.trace
  draws : Draws getFreePage m.pool (allocs events) m'.pool
  cleared : ∀ p ∈ allocs events, Event.memset p 512 ∈ events

theorem Log.refl (m : Machine σ) : Log getFreePage m m [] :=
  ⟨rfl, .nil, fun _ h => absurd h List.not_mem_nil⟩

theorem Log.set (m : Machine σ) (l : Level) (a v : U64) :
    Log getFreePage m (m.set l a v) [.set l a v] :=
  ⟨rfl, .nil, fun _ h => absurd h List.not_mem_nil⟩

theorem Log.append (h₁ : Log getFreePage m m' first) (h₂ : Log getFreePage m' m'' second) :
    Log getFreePage m m'' (second ++ first) where
  trace := by rw [h₂.trace, h₁.trace, List.append_assoc]
  draws := by
    rw [allocs_append]
    exact h₁.draws.append h₂.draws
  cleared := by
    intro p hp
    rw [allocs_append, List.mem_append] at hp
    exact List.mem_append.mpr (hp.imp (h₂.cleared p) (h₁.cleared p))

/-- The trace tells the events. -/
theorem Log.events_eq (h : Log getFreePage m m' events)
    (h' : m'.trace = events' ++ m.trace) :
    events = events' :=
  List.append_cancel_right (h.trace.symm.trans h')

def Logged (getFreePage : σ → U64 × σ) (m m' : Machine σ) : Prop :=
  ∃ events, Log getFreePage m m' events

theorem Logged.trans (h₁ : Logged getFreePage m m') (h₂ : Logged getFreePage m' m'') :
    Logged getFreePage m m'' := by
  obtain ⟨first, hlog₁⟩ := h₁
  obtain ⟨second, hlog₂⟩ := h₂
  exact ⟨second ++ first, hlog₁.append hlog₂⟩

/-- A page is taken when the entry is empty, and only then. -/
theorem ensureTable_log (getFreePage : σ → U64 × σ) (l : Level) (entryp : U64)
    (m : Machine σ) :
    ∃ events, Log getFreePage m (ensureTable (earlyPgtableAlloc getFreePage) l 3 entryp m)
        events ∧
      allocs events = if m.mem entryp = 0 then [(getFreePage m.pool).1] else [] := by
  by_cases hzero : m.mem entryp = 0
  · rw [ensureTable_of_zero hzero, if_pos hzero]
    refine ⟨linkEvents l entryp (getFreePage m.pool).1, ⟨rfl, Draws.nil.cons, ?_⟩, rfl⟩
    intro p hp
    obtain rfl := List.mem_singleton.mp hp
    simp [linkEvents]
  · rw [ensureTable_of_ne_zero hzero, if_neg hzero]
    exact ⟨[], .refl m, rfl⟩

theorem allocInitPte_log (h : allocInitPte (earlyPgtableAlloc getFreePage) fuel pmdp addr stop
      phys prot flags m = some m') :
    ∃ events, Log getFreePage m m' events ∧
      allocs events = if m.mem pmdp = 0 then [(getFreePage m.pool).1] else [] := by
  obtain ⟨first, hfirst, hallocs⟩ := ensureTable_log getFreePage .pmd pmdp m
  have hloop : ∃ events, Log getFreePage (ensureTable (earlyPgtableAlloc getFreePage)
      .pmd 3 pmdp m) m' events ∧ allocs events = [] := by
    refine doRange_rel (R := fun s s' => ∃ events, Log getFreePage s s' events ∧
      allocs events = []) ?_ ?_ h
    · rintro _ _ _ ⟨events, hlog, hquiet⟩ ⟨events', hlog', hquiet'⟩
      exact ⟨_, hlog.append hlog', by rw [allocs_append, hquiet, hquiet', List.append_nil]⟩
    · intro _ _ _ _ s s' hrun
      cases hrun
      exact ⟨_, .set s .pte _ _, rfl⟩
  obtain ⟨second, hsecond, hquiet⟩ := hloop
  exact ⟨_, hfirst.append hsecond, by rw [allocs_append, hquiet, hallocs, List.nil_append]⟩

theorem ensureTable_logged (l : Level) (entryp : U64) (m : Machine σ) :
    Logged getFreePage m (ensureTable (earlyPgtableAlloc getFreePage) l 3 entryp m) := by
  obtain ⟨events, hlog, _⟩ := ensureTable_log getFreePage l entryp m
  exact ⟨events, hlog⟩

theorem allocInitPmd_logged (h : allocInitPmd (earlyPgtableAlloc getFreePage) fuel pudp addr
    stop phys prot flags m = some m') : Logged getFreePage m m' := by
  refine (ensureTable_logged .pud pudp m).trans (doRange_rel .trans ?_ h)
  intro ptr addr upto offset s s' hrun
  split at hrun
  · cases hrun
    exact ⟨_, .set s .pmd _ _⟩
  · obtain ⟨events, hlog, _⟩ := allocInitPte_log hrun
    exact ⟨events, hlog⟩

theorem allocInitPud_logged (h : allocInitPud (earlyPgtableAlloc getFreePage) fuel pgdp addr
    stop phys prot flags m = some m') : Logged getFreePage m m' := by
  refine (ensureTable_logged .pgd pgdp m).trans (doRange_rel .trans ?_ h)
  exact allocInitPmd_logged

theorem Call.create_logged {c : Call} (h : c.create getFreePage fuel root m = some m') :
    Logged getFreePage m m' :=
  doRange_rel .trans allocInitPud_logged h

/-! At most one page is taken for each table that the range calls for. -/

def Placed (r : Request) (l : Level) (A B : Nat) (m m' : Machine σ) : Prop :=
  ∃ events, ∃ places : List (Level × Nat), m'.trace = events ++ m.trace ∧
    (allocs events).length ≤ places.length ∧ places.Nodup ∧
    ∀ x ∈ places, Asks r l A B x.1 x.2

theorem Placed.refl (r : Request) (l : Level) (A B : Nat) (m : Machine σ) :
    Placed r l A B m m :=
  ⟨[], [], rfl, Nat.le_refl 0, List.nodup_nil, fun _ h => absurd h List.not_mem_nil⟩

theorem Placed.trans (h₁ : Placed r l A b m m') (h₂ : Placed r l b B m' m'')
    (hlow : A ≤ b) (hhigh : b ≤ B) (hb : b % l.below.span = 0 ∨ A = b) :
    Placed r l A B m m'' := by
  obtain ⟨first, places₁, htrace₁, hlength₁, hnodup₁, hplaces₁⟩ := h₁
  obtain ⟨second, places₂, htrace₂, hlength₂, hnodup₂, hplaces₂⟩ := h₂
  refine ⟨second ++ first, places₂ ++ places₁,
    by rw [htrace₂, htrace₁, List.append_assoc], ?_, ?_, ?_⟩
  · rw [List.length_append, allocs_append, List.length_append]
    exact Nat.add_le_add hlength₂ hlength₁
  · refine List.nodup_append.mpr ⟨hnodup₂, hnodup₁, ?_⟩
    rintro x hx₂ _ hx₁ rfl
    exact Asks.not_both hb (hplaces₁ x hx₁) (hplaces₂ x hx₂)
  · intro x hx
    rw [Asks.split hlow hhigh hb]
    exact (List.mem_append.mp hx).symm.imp (hplaces₁ x) (hplaces₂ x)

theorem length_ite_le {p : Prop} [Decidable p] (a : U64) :
    (if p then [a] else []).length ≤ 1 := by
  split
  · exact Nat.le_refl 1
  · exact Nat.zero_le 1

theorem Placed.descend (getFreePage : σ → U64 × σ) (hl : l ≠ .pte) (hl' : l ≠ .pmd)
    (hregion : InRegion l.below.span k A B) (entryp : U64)
    (h : Placed r l.below A B (ensureTable (earlyPgtableAlloc getFreePage) l 3 entryp m) m') :
    Placed r l A B m m' := by
  obtain ⟨first, hlog, hallocs⟩ := ensureTable_log getFreePage l entryp m
  obtain ⟨second, places, htrace, hlength, hnodup, hplaces⟩ := h
  refine ⟨second ++ first, (l.below, k) :: places,
    by rw [htrace, hlog.trace, List.append_assoc], ?_, ?_, ?_⟩
  · rw [allocs_append, List.length_append, List.length_cons, hallocs]
    exact Nat.add_le_add hlength (length_ite_le _)
  · refine List.nodup_cons.mpr ⟨fun hmem => ?_, hnodup⟩
    exact absurd (hplaces _ hmem).1 (Nat.lt_irrefl _)
  · intro x hx
    rw [Asks.descend hl hl' hregion]
    obtain rfl | hx := List.mem_cons.mp hx
    · exact .inl ⟨rfl, rfl⟩
    · exact .inr (hplaces x hx)

theorem allocInitPte_placed (hregion : InRegion (2 ^ 21) k addr.toNat stop.toNat)
    (hsect : ¬ r.Sect addr.toNat stop.toNat k)
    (h : allocInitPte (earlyPgtableAlloc getFreePage) fuel pmdp addr stop phys prot flags m =
      some m') :
    Placed r .pmd addr.toNat stop.toNat m m' := by
  obtain ⟨events, hlog, hallocs⟩ := allocInitPte_log h
  refine ⟨events, [(.pte, k)], hlog.trace, ?_, List.pairwise_singleton _ _, ?_⟩
  · rw [hallocs]
    exact length_ite_le _
  · intro x hx
    obtain rfl := List.mem_singleton.mp hx
    exact asks_pmd_iff.mpr ⟨rfl, hregion.meets_iff.mpr rfl, hsect⟩

theorem allocInitPmd_placed (hregion : InRegion (2 ^ 30) k addr.toNat stop.toNat)
    (h : allocInitPmd (earlyPgtableAlloc getFreePage) fuel pudp addr stop (r.phys addr.toNat)
      r.prot r.flags m = some m') :
    Placed r .pud addr.toNat stop.toNat m m' := by
  simp only [allocInitPmd, pmdOffsetPhys_eq] at h
  refine .descend getFreePage (by decide) (by decide) hregion pudp ?_
  refine rangeLoop (P := Placed r .pmd) (by decide) ?_ (fun A m => .refl r _ A A m)
    (fun hlow hhigh hb h₁ h₂ => h₁.trans h₂ hlow hhigh hb) ?_ hregion h
  · exact fun hlt hstop => toNat_addrEnd (by decide) (by decide) (by decide) hlt hstop
  · intro k addr upto s s' _ hpiece hrun
    split at hrun
    · cases hrun
      exact ⟨[_], [], rfl, Nat.le_refl 0,
        List.nodup_nil, fun _ h => absurd h List.not_mem_nil⟩
    · next hsect =>
        exact allocInitPte_placed hpiece (mt (section_iff hpiece).mpr hsect) hrun

theorem allocInitPud_placed (hregion : InRegion (2 ^ 39) k addr.toNat stop.toNat)
    (h : allocInitPud (earlyPgtableAlloc getFreePage) fuel pgdp addr stop (r.phys addr.toNat)
      r.prot r.flags m = some m') :
    Placed r .pgd addr.toNat stop.toNat m m' := by
  simp only [allocInitPud, pudOffsetPhys_eq] at h
  refine .descend getFreePage (by decide) (by decide) hregion pgdp ?_
  refine rangeLoop (P := Placed r .pud) (by decide) ?_ (fun A m => .refl r _ A A m)
    (fun hlow hhigh hb h₁ h₂ => h₁.trans h₂ hlow hhigh hb) ?_ hregion h
  · exact fun hlt hstop => toNat_addrEnd (by decide) (by decide) (by decide) hlt hstop
  · intro k addr upto s s' _ hpiece hrun
    exact allocInitPmd_placed hpiece hrun

theorem Call.create_placed {c : Call} (hc : c.Bounded)
    (h : c.create getFreePage fuel root m = some m') :
    Placed c.request .pgd c.low c.high m m' := by
  simp only [create, createPgdMapping, pgdOffsetRaw_eq] at h
  rw [← c.request_phys, ← c.low_index] at h
  refine rangeLoop (P := Placed c.request .pgd) (by decide) ?_ (fun A m => .refl _ _ A A m)
    (fun hlow hhigh hb h₁ h₂ => h₁.trans h₂ hlow hhigh hb) ?_ (inRegion hc) h
  · exact fun hlt hstop => toNat_addrEnd (by decide) (by decide) (by decide) hlt hstop
  · intro k addr upto s s' _ hpiece hrun
    exact allocInitPud_placed hpiece hrun

end YiOS
