import YiOS.Mmu.Tree

namespace YiOS

open YiOS.Library

/-! What a piece of a mapping call does to the entries and to the tables.  A
request fixes the distance from virtual to physical addresses, the protection
and the flags; the pieces of one call differ in the range `[A, B)` only. -/

structure Request where
  delta : U64
  prot : U64
  flags : U64

namespace Request

def phys (r : Request) (a : Nat) : U64 := BitVec.ofNat 64 a + r.delta

def sectDesc (r : Request) (k : Nat) : U64 :=
  pfnPmd (r.phys (k * 2 ^ 21) >>> pmdShift) (pmdTypeSect ||| mkSectProt r.prot)

def pageDesc (r : Request) (n : Nat) : U64 :=
  pfnPte (r.phys (n * 2 ^ 12) >>> pageShift) r.prot

/-- The `k`-th 2 MiB region becomes one block. -/
def Sect (r : Request) (A B k : Nat) : Prop :=
  A ≤ k * 2 ^ 21 ∧ (k + 1) * 2 ^ 21 ≤ B ∧ (r.phys (k * 2 ^ 21)).toNat % 2 ^ 21 = 0 ∧
    r.flags &&& noBlockMappings = 0

instance (r : Request) (A B k : Nat) : Decidable (r.Sect A B k) :=
  inferInstanceAs (Decidable (_ ∧ _ ∧ _ ∧ _))

end Request

/-- The `n`-th region of a size meets `[A, B)`. -/
def Meets (size A B n : Nat) : Prop := A < B ∧ A < (n + 1) * size ∧ n * size < B

instance (size A B n : Nat) : Decidable (Meets size A B n) :=
  inferInstanceAs (Decidable (_ ∧ _ ∧ _))

def IsBlock (e : U64) : Prop := e &&& typeMask = 1

instance (e : U64) : Decidable (IsBlock e) := inferInstanceAs (Decidable (_ = _))

/-- The piece maps pages where a block stands. -/
def Hit (r : Request) (A B : Nat) (mem : U64 → U64) (tbl : Tables) (k : Nat) : Prop :=
  Meets (2 ^ 21) A B k ∧ ¬ r.Sect A B k ∧ IsBlock (entry mem tbl .pmd k)

def InPage (t a : U64) : Prop := ∃ i < 512, a = slotAddr t i

def Event.page? : Event → Option U64
  | .alloc page => some page
  | .memset _ _ => none
  | .set _ _ _ => none

/-- The table that a store links. -/
def Event.table? : Event → Option U64
  | .alloc _ => none
  | .memset _ _ => none
  | .set level _ value =>
      if level ≠ .pte ∧ value &&& typeMask = 3 then some (pagePaddr value) else none

def allocs (events : List Event) : List U64 := events.filterMap Event.page?

def installed (events : List Event) : List U64 := events.filterMap Event.table?

def Event.Writes : Event → U64 → Prop
  | .alloc _, _ => False
  | .memset start words, a => ∃ i < words, a = slotAddr start i
  | .set _ address _, a => a = address

@[simp] theorem allocs_append (later earlier : List Event) :
    allocs (later ++ earlier) = allocs later ++ allocs earlier :=
  List.filterMap_append

@[simp] theorem installed_append (later earlier : List Event) :
    installed (later ++ earlier) = installed later ++ installed earlier :=
  List.filterMap_append

/-- Pages that are no tables yet and may become tables. -/
structure Fresh (tbl : Tables) (pages : List U64) : Prop where
  nodup : pages.Nodup
  page : ∀ p ∈ pages, IsPage p
  new : ∀ p ∈ pages, ∀ l n, tbl l n ≠ some p

/-- `N` is the set of tables the piece asks for. -/
structure Mapped (r : Request) (A B : Nat) (N : Level → Nat → Prop)
    (mem : U64 → U64) (tbl : Tables) (mem' : U64 → U64) (tbl' : Tables)
    (events : List Event) : Prop where
  pmd_out : ∀ k, ¬ Meets (2 ^ 21) A B k → entry mem' tbl' .pmd k = entry mem tbl .pmd k
  pte_out : ∀ n, ¬ (A ≤ n * 2 ^ 12 ∧ n * 2 ^ 12 < B) →
    entry mem' tbl' .pte n = entry mem tbl .pte n
  pmd_sect : ∀ k, r.Sect A B k → entry mem' tbl' .pmd k = r.sectDesc k
  pmd_page : ∀ k, Meets (2 ^ 21) A B k → ¬ r.Sect A B k →
    ¬ IsBlock (entry mem tbl .pmd k) → entry mem' tbl' .pmd k &&& typeMask = 3
  pte_in : ∀ n, A ≤ n * 2 ^ 12 → n * 2 ^ 12 < B → ¬ r.Sect A B (n / 512) →
    ¬ IsBlock (entry mem tbl .pmd (n / 512)) → entry mem' tbl' .pte n = r.pageDesc n
  pmd_hit : ∀ k, Hit r A B mem tbl k → entry mem' tbl' .pmd k = entry mem tbl .pmd k
  keep : ∀ {l n t}, tbl l n = some t → ¬ (l = .pte ∧ r.Sect A B n) → tbl' l n = some t
  origin : ∀ {l n t}, tbl' l n = some t → tbl l n = some t ∨ t ∈ allocs events
  landed : ∀ t ∈ allocs events, ∃ l n, N l n ∧ tbl l n = none ∧ tbl' l n = some t
  present : ∀ {l n}, N l n →
    tbl' l n ≠ none ∨ l = .pte ∧ IsBlock (entry mem tbl .pmd n)
  near : ∀ {n}, N .pte n → Meets (2 ^ 21) A B n ∧ ¬ r.Sect A B n
  writes : ∀ e ∈ events, ∀ a, e.Writes a →
    (∃ l n t, tbl l n = some t ∧ InPage t a) ∨ (∃ p ∈ allocs events, InPage p a) ∨
      ∃ k, Hit r A B mem tbl k ∧ InPage (pagePaddr (entry mem tbl .pmd k)) a
  hit : ∀ k, Hit r A B mem tbl k →
    ∃ e ∈ events, ∃ a, e.Writes a ∧ InPage (pagePaddr (entry mem tbl .pmd k)) a
  linked : installed events = allocs events

theorem Request.Sect.meets {r : Request} (h : r.Sect A B k) : Meets (2 ^ 21) A B k := by
  obtain ⟨hlow, hhigh, _, _⟩ := h
  exact ⟨by omega, by omega, by omega⟩

/-! Two pieces that meet at a 2 MiB boundary, or whose first one is empty. -/

/-- Where a range may be cut. -/
structure Cut (A b B : Nat) : Prop where
  low : A ≤ b
  high : b ≤ B
  aligned : b % 2 ^ 21 = 0 ∨ A = b

namespace Cut

theorem meets_iff (h : Cut A b B) :
    Meets (2 ^ 21) A B k ↔ Meets (2 ^ 21) A b k ∨ Meets (2 ^ 21) b B k := by
  obtain ⟨hlow, hhigh, haligned⟩ := h
  simp only [Meets]
  omega

theorem not_both (h : Cut A b B) (hfirst : Meets (2 ^ 21) A b k) :
    ¬ Meets (2 ^ 21) b B k := by
  obtain ⟨hlow, hhigh, haligned⟩ := h
  simp only [Meets] at *
  omega

theorem sect_iff (h : Cut A b B) {r : Request} :
    r.Sect A B k ↔ r.Sect A b k ∨ r.Sect b B k := by
  obtain ⟨hlow, hhigh, haligned⟩ := h
  simp only [Request.Sect]
  constructor
  · rintro ⟨hA, hB, hrest⟩
    by_cases hside : (k + 1) * 2 ^ 21 ≤ b
    · exact .inl ⟨hA, hside, hrest⟩
    · exact .inr ⟨by omega, hB, hrest⟩
  · rintro (⟨hA, hb, hrest⟩ | ⟨hb, hB, hrest⟩)
    · exact ⟨hA, by omega, hrest⟩
    · exact ⟨by omega, hB, hrest⟩

theorem sect_left (h : Cut A b B) {r : Request} (hmeets : Meets (2 ^ 21) A b k) :
    r.Sect A B k ↔ r.Sect A b k := by
  rw [h.sect_iff]
  exact or_iff_left fun hright => h.not_both hmeets hright.meets

theorem sect_right (h : Cut A b B) {r : Request} (hmeets : Meets (2 ^ 21) b B k) :
    r.Sect A B k ↔ r.Sect b B k := by
  rw [h.sect_iff]
  exact or_iff_right fun hleft => h.not_both hleft.meets hmeets

end Cut

namespace Mapped

variable {r : Request} {A b B : Nat} {N N₁ N₂ : Level → Nat → Prop}
variable {mem mem₁ mem₂ : U64 → U64} {tbl tbl₁ tbl₂ : Tables} {first second : List Event}

theorem page_meets {n : Nat} (hlow : A ≤ n * 2 ^ 12) (hhigh : n * 2 ^ 12 < B) :
    Meets (2 ^ 21) A B (n / 512) := by
  simp only [Meets]
  omega

/-- A hit of the second piece is a hit of the whole, with the same block. -/
theorem hit_right (h₁ : Mapped r A b N₁ mem tbl mem₁ tbl₁ first) (hcut : Cut A b B)
    (hhit : Hit r b B mem₁ tbl₁ k) :
    Hit r A B mem tbl k ∧ entry mem₁ tbl₁ .pmd k = entry mem tbl .pmd k := by
  obtain ⟨hmeets, hsect, hblock⟩ := hhit
  have hsame : entry mem₁ tbl₁ .pmd k = entry mem tbl .pmd k :=
    h₁.pmd_out k fun hfirst => hcut.not_both hfirst hmeets
  exact ⟨⟨hcut.meets_iff.mpr (.inr hmeets), mt (hcut.sect_right hmeets).mp hsect,
    hsame ▸ hblock⟩, hsame⟩

theorem hit_left (hcut : Cut A b B) (hhit : Hit r A b mem tbl k) : Hit r A B mem tbl k := by
  obtain ⟨hmeets, hsect, hblock⟩ := hhit
  exact ⟨hcut.meets_iff.mpr (.inl hmeets), mt (hcut.sect_left hmeets).mp hsect, hblock⟩

theorem hit_cases (h₁ : Mapped r A b N₁ mem tbl mem₁ tbl₁ first) (hcut : Cut A b B)
    (hhit : Hit r A B mem tbl k) : Hit r A b mem tbl k ∨ Hit r b B mem₁ tbl₁ k := by
  obtain ⟨hmeets, hsect, hblock⟩ := hhit
  obtain hleft | hright := hcut.meets_iff.mp hmeets
  · exact .inl ⟨hleft, mt (hcut.sect_left hleft).mpr hsect, hblock⟩
  · have hsame := h₁.pmd_out k fun hleft => hcut.not_both hleft hright
    exact .inr ⟨hright, mt (hcut.sect_right hright).mpr hsect, hsame.symm ▸ hblock⟩

/-- The second piece leaves the tables that the first one asks for. -/
theorem keep_asked (h₁ : Mapped r A b N₁ mem tbl mem₁ tbl₁ first)
    (h₂ : Mapped r b B N₂ mem₁ tbl₁ mem₂ tbl₂ second) (hcut : Cut A b B)
    (hn : N₁ l n) (ht : tbl₁ l n = some t) : tbl₂ l n = some t := by
  apply h₂.keep ht
  rintro ⟨rfl, hsect⟩
  exact hcut.not_both (h₁.near hn).1 hsect.meets

/-- The first piece only drops tables of regions the second one does not ask for. -/
theorem none_of_asked (h₁ : Mapped r A b N₁ mem tbl mem₁ tbl₁ first)
    (h₂ : Mapped r b B N₂ mem₁ tbl₁ mem₂ tbl₂ second) (hcut : Cut A b B)
    (hn : N₂ l n) (hnone : tbl₁ l n = none) : tbl l n = none := by
  cases hold : tbl l n with
  | none => rfl
  | some u =>
      have hkept := h₁.keep hold (by
        rintro ⟨rfl, hsect⟩
        exact hcut.not_both hsect.meets (h₂.near hn).1)
      rw [hnone] at hkept
      contradiction

theorem trans_writes (h₁ : Mapped r A b N₁ mem tbl mem₁ tbl₁ first)
    (h₂ : Mapped r b B N₂ mem₁ tbl₁ mem₂ tbl₂ second) (hcut : Cut A b B) :
    ∀ e ∈ second ++ first, ∀ a, e.Writes a →
      (∃ l n t, tbl l n = some t ∧ InPage t a) ∨
        (∃ p ∈ allocs (second ++ first), InPage p a) ∨
        ∃ k, Hit r A B mem tbl k ∧ InPage (pagePaddr (entry mem tbl .pmd k)) a := by
  intro e he a hwrites
  simp only [allocs_append, List.mem_append] at he ⊢
  obtain hsecond | hfirst := he
  · obtain ⟨l, n, t, ht, ha⟩ | ⟨p, hp, ha⟩ | ⟨k, hhit, ha⟩ := h₂.writes e hsecond a hwrites
    · obtain hold | hnew := h₁.origin ht
      · exact .inl ⟨l, n, t, hold, ha⟩
      · exact .inr (.inl ⟨t, .inr hnew, ha⟩)
    · exact .inr (.inl ⟨p, .inl hp, ha⟩)
    · obtain ⟨hhit, hsame⟩ := h₁.hit_right hcut hhit
      exact .inr (.inr ⟨k, hhit, hsame ▸ ha⟩)
  · obtain hold | ⟨p, hp, ha⟩ | ⟨k, hhit, ha⟩ := h₁.writes e hfirst a hwrites
    · exact .inl hold
    · exact .inr (.inl ⟨p, .inr hp, ha⟩)
    · exact .inr (.inr ⟨k, hit_left hcut hhit, ha⟩)

theorem trans (h₁ : Mapped r A b N₁ mem tbl mem₁ tbl₁ first)
    (h₂ : Mapped r b B N₂ mem₁ tbl₁ mem₂ tbl₂ second) (hcut : Cut A b B)
    (hN : ∀ l n, N l n ↔ N₁ l n ∨ N₂ l n) :
    Mapped r A B N mem tbl mem₂ tbl₂ (second ++ first) where
  pmd_out := by
    intro k hout
    rw [hcut.meets_iff, not_or] at hout
    rw [h₂.pmd_out k hout.2, h₁.pmd_out k hout.1]
  pte_out := by
    intro n hout
    have hlow := hcut.low
    have hhigh := hcut.high
    rw [h₂.pte_out n (by omega), h₁.pte_out n (by omega)]
  pmd_sect := by
    intro k hsect
    obtain hleft | hright := hcut.sect_iff.mp hsect
    · rw [h₂.pmd_out k (hcut.not_both hleft.meets), h₁.pmd_sect k hleft]
    · exact h₂.pmd_sect k hright
  pmd_page := by
    intro k hmeets hsect hblock
    obtain hleft | hright := hcut.meets_iff.mp hmeets
    · rw [h₂.pmd_out k (hcut.not_both hleft)]
      exact h₁.pmd_page k hleft (mt (hcut.sect_left hleft).mpr hsect) hblock
    · have hsame := h₁.pmd_out k fun hleft => hcut.not_both hleft hright
      exact h₂.pmd_page k hright (mt (hcut.sect_right hright).mpr hsect) (hsame ▸ hblock)
  pte_in := by
    intro n hlow hhigh hsect hblock
    by_cases hside : n * 2 ^ 12 < b
    · have hmeets : Meets (2 ^ 21) A b (n / 512) := page_meets hlow hside
      rw [h₂.pte_out n (by omega)]
      exact h₁.pte_in n hlow hside (mt (hcut.sect_left hmeets).mpr hsect) hblock
    · have hmeets : Meets (2 ^ 21) b B (n / 512) := page_meets (not_lt.mp hside) hhigh
      have hsame := h₁.pmd_out _ fun hleft => hcut.not_both hleft hmeets
      exact h₂.pte_in n (not_lt.mp hside) hhigh (mt (hcut.sect_right hmeets).mpr hsect)
        (hsame ▸ hblock)
  pmd_hit := by
    intro k hhit
    obtain hleft | hright := h₁.hit_cases hcut hhit
    · rw [h₂.pmd_out k (hcut.not_both hleft.1), h₁.pmd_hit k hleft]
    · rw [h₂.pmd_hit k hright, (h₁.hit_right hcut hright).2]
  keep := by
    intro l n t ht hne
    have hfirst := h₁.keep ht fun hsect =>
      hne ⟨hsect.1, hcut.sect_iff.mpr (.inl hsect.2)⟩
    exact h₂.keep hfirst fun hsect => hne ⟨hsect.1, hcut.sect_iff.mpr (.inr hsect.2)⟩
  origin := by
    intro l n t ht
    rw [allocs_append, List.mem_append]
    obtain hold | hnew := h₂.origin ht
    · obtain hold | hnew := h₁.origin hold
      · exact .inl hold
      · exact .inr (.inr hnew)
    · exact .inr (.inl hnew)
  landed := by
    intro t ht
    rw [allocs_append, List.mem_append] at ht
    obtain hsecond | hfirst := ht
    · obtain ⟨l, n, hn, hnone, hsome⟩ := h₂.landed t hsecond
      exact ⟨l, n, (hN l n).mpr (.inr hn), h₁.none_of_asked h₂ hcut hn hnone, hsome⟩
    · obtain ⟨l, n, hn, hnone, hsome⟩ := h₁.landed t hfirst
      exact ⟨l, n, (hN l n).mpr (.inl hn), hnone, h₁.keep_asked h₂ hcut hn hsome⟩
  present := by
    intro l n hn
    obtain hfirst | hsecond := (hN l n).mp hn
    · obtain hsome | hblock := h₁.present hfirst
      · obtain ⟨t, ht⟩ := Option.ne_none_iff_exists'.mp hsome
        exact .inl (Option.ne_none_iff_exists'.mpr ⟨t, h₁.keep_asked h₂ hcut hfirst ht⟩)
      · exact .inr hblock
    · obtain hsome | ⟨rfl, hblock⟩ := h₂.present hsecond
      · exact .inl hsome
      · have hsame := h₁.pmd_out n fun hleft => hcut.not_both hleft (h₂.near hsecond).1
        exact .inr ⟨rfl, hsame ▸ hblock⟩
  near := by
    intro n hn
    obtain hfirst | hsecond := (hN _ _).mp hn
    · obtain ⟨hmeets, hsect⟩ := h₁.near hfirst
      exact ⟨hcut.meets_iff.mpr (.inl hmeets), mt (hcut.sect_left hmeets).mp hsect⟩
    · obtain ⟨hmeets, hsect⟩ := h₂.near hsecond
      exact ⟨hcut.meets_iff.mpr (.inr hmeets), mt (hcut.sect_right hmeets).mp hsect⟩
  writes := h₁.trans_writes h₂ hcut
  hit := by
    intro k hhit
    obtain hleft | hright := h₁.hit_cases hcut hhit
    · obtain ⟨e, he, a, hwrites, ha⟩ := h₁.hit k hleft
      exact ⟨e, List.mem_append_right _ he, a, hwrites, ha⟩
    · obtain ⟨e, he, a, hwrites, ha⟩ := h₂.hit k hright
      refine ⟨e, List.mem_append_left _ he, a, hwrites, ?_⟩
      rwa [← (h₁.hit_right hcut hright).2]
  linked := by
    rw [installed_append, allocs_append, h₁.linked, h₂.linked]

end Mapped

end YiOS
