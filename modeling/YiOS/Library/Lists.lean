import Mathlib.Tactic.Common
import YiOS.Library.Cycle

namespace YiOS.Library

/-! Several circular lists in one heap. -/

/-- The heads of the lists, and what is on each of them. -/
abbrev ListFamily (ν : Type*) := ν → Option (List ν)

namespace ListFamily

variable {ν : Type*}

/-- `x` belongs to the list of `head`, as its head or as one of its nodes. -/
def Belongs (lists : ListFamily ν) (head x : ν) : Prop :=
  ∃ xs, lists head = some xs ∧ x ∈ head :: xs

/-- `x` belongs to no list. -/
def Free (lists : ListFamily ν) (x : ν) : Prop := ∀ head, ¬ lists.Belongs head x

/-- `x` is a node of no list.  It may be a head. -/
def Loose (lists : ListFamily ν) (x : ν) : Prop :=
  ∀ head xs, lists head = some xs → x ∉ xs

theorem belongs_head {lists : ListFamily ν} (h : lists head = some xs) :
    lists.Belongs head head := ⟨xs, h, List.mem_cons_self⟩

theorem belongs_of_mem {lists : ListFamily ν} (h : lists head = some xs) (hx : x ∈ xs) :
    lists.Belongs head x := ⟨xs, h, List.mem_cons_of_mem head hx⟩

theorem Free.loose {lists : ListFamily ν} (h : lists.Free x) : lists.Loose x :=
  fun head _ hlists hx => h head (belongs_of_mem hlists hx)

theorem Free.notMem {lists : ListFamily ν} (h : lists.Free x)
    (hlists : lists head = some xs) :
    x ∉ head :: xs := fun hx => h head ⟨xs, hlists, hx⟩

section Put

variable [DecidableEq ν]

/-- The list of `head` becomes `xs`. -/
def put (lists : ListFamily ν) (head : ν) (xs : List ν) : ListFamily ν :=
  Function.update lists head (some xs)

@[simp] theorem put_self (lists : ListFamily ν) (head : ν) (xs : List ν) :
    lists.put head xs head = some xs := Function.update_self ..

theorem put_of_ne (lists : ListFamily ν) (xs : List ν) (h : other ≠ head) :
    lists.put head xs other = lists other := Function.update_of_ne h ..

theorem belongs_put_self {lists : ListFamily ν} :
    (lists.put head xs).Belongs head x ↔ x ∈ head :: xs := by
  constructor
  · intro h
    obtain ⟨ys, hys, hx⟩ := h
    rw [put_self, Option.some.injEq] at hys
    exact hys ▸ hx
  · intro hx
    exact ⟨xs, put_self lists head xs, hx⟩

theorem belongs_put_of_ne {lists : ListFamily ν} (h : other ≠ head) :
    (lists.put head xs).Belongs other x ↔ lists.Belongs other x := by
  unfold Belongs
  rw [put_of_ne lists xs h]

theorem Free.put {lists : ListFamily ν} (hfree : lists.Free x) (hx : x ∉ head :: xs) :
    (lists.put head xs).Free x := by
  intro other hother
  by_cases heq : other = head
  · subst heq
    exact hx (belongs_put_self.mp hother)
  · exact hfree other ((belongs_put_of_ne heq).mp hother)

end Put

end ListFamily

section Frames

variable {ν : Type*} {heap heap' : Heap ν}

theorem Heap.node_ext {x : ν} (hnext : (heap' x).next = (heap x).next)
    (hprev : (heap' x).prev = (heap x).prev) : heap' x = heap x := by
  cases hheap' : heap' x with
  | mk next' prev' =>
      cases hheap : heap x with
      | mk next prev =>
          rw [hheap, hheap'] at hnext hprev
          exact congrArg₂ Node.mk hnext hprev

theorem Inserted.keeps (h : Inserted heap heap' x a b) (ha : c ≠ a) (hb : c ≠ b)
    (hx : c ≠ x) :
    heap' c = heap c :=
  Heap.node_ext (h.next c ha hx) (h.prev c hb hx)

theorem Removed.keeps (h : Removed heap heap' x a b) (ha : c ≠ a) (hb : c ≠ b)
    (hx : c ≠ x) :
    heap' c = heap c :=
  Heap.node_ext (h.next c ha hx) (h.prev c hb hx)

theorem Cycle.next_eq_head {head : ν} {xs : List ν} (h : Cycle heap head xs) :
    (heap head).next = head ↔ xs = [] := by
  cases xs with
  | nil => exact iff_of_true h.segment.1 rfl
  | cons x xs =>
      have hnext : (heap head).next = x := h.segment.1.1
      have hne : x ≠ head := fun heq => h.head_notMem (heq ▸ List.mem_cons_self)
      rw [hnext]
      exact iff_of_false hne (List.cons_ne_nil x xs)

end Frames

/-- Every list is a circular list, and no node belongs to two of them. -/
structure Cycles {ν : Type*} (heap : Heap ν) (lists : ListFamily ν) : Prop where
  cycle : ∀ {head xs}, lists head = some xs → Cycle heap head xs
  apart : ∀ {head head' x}, lists.Belongs head x → lists.Belongs head' x → head = head'

namespace Cycles

variable {ν : Type*} {heap heap' : Heap ν} {lists : ListFamily ν} {head x : ν}
  {xs ys l r : List ν}

theorem empty (heap : Heap ν) : Cycles heap (fun _ => none) where
  cycle := fun h => nomatch h
  apart := fun h => nomatch h.choose_spec.1

theorem next_belongs (h : Cycles heap lists) (hlists : lists head = some xs) :
    lists.Belongs head (heap head).next := by
  refine ⟨xs, hlists, ?_⟩
  have hmem := (h.cycle hlists).segment.next_mem
  simpa [or_comm] using hmem

theorem prev_belongs (h : Cycles heap lists) (hlists : lists head = some xs) :
    lists.Belongs head (heap head).prev :=
  ⟨xs, hlists, (h.cycle hlists).segment.prev_mem⟩

private theorem others_ne (h : Cycles heap lists) (hother : other ≠ head)
    (hc : lists.Belongs other c) (hx : lists.Belongs head x) : c ≠ x := by
  intro heq
  subst heq
  exact hother (h.apart hc hx)

/-- The neighbours of a node are on its list, or its head. -/
theorem neighbours_belong (h : Cycles heap lists)
    (hlists : lists head = some (l ++ x :: r)) :
    lists.Belongs head (heap x).prev ∧ lists.Belongs head (heap x).next := by
  have hsplit := Segment.append.mp (h.cycle hlists).segment
  have hprev := hsplit.1.prev_mem
  have hnext := hsplit.2.next_mem
  constructor
  · refine ⟨_, hlists, ?_⟩
    simp only [List.mem_cons, List.mem_append] at hprev ⊢
    tauto
  · refine ⟨_, hlists, ?_⟩
    simp only [List.mem_cons, List.mem_append] at hnext ⊢
    tauto

variable [DecidableEq ν]

/-- One list changes, and the nodes of the others keep their links. -/
theorem replace (h : Cycles heap lists) (hcycle : Cycle heap' head ys)
    (hkeeps : ∀ other x, other ≠ head → lists.Belongs other x →
      heap' x = heap x ∧ x ∉ head :: ys) : Cycles heap' (lists.put head ys) where
  cycle := by
    intro other zs hlists
    by_cases hother : other = head
    · subst hother
      rw [ListFamily.put_self, Option.some.injEq] at hlists
      exact hlists ▸ hcycle
    · rw [ListFamily.put_of_ne lists ys hother] at hlists
      have hkept : ∀ c ∈ other :: zs, heap' c = heap c := fun c hc =>
        (hkeeps other c hother ⟨zs, hlists, hc⟩).1
      apply (h.cycle hlists).frame
      · intro c hc
        rw [hkept c hc]
      · intro c hc
        rw [hkept c hc]
  apart := by
    intro one two c hone htwo
    by_cases h1 : one = head
    · by_cases h2 : two = head
      · exact h1.trans h2.symm
      · subst h1
        rw [ListFamily.belongs_put_self] at hone
        rw [ListFamily.belongs_put_of_ne h2] at htwo
        exact absurd hone (hkeeps two c h2 htwo).2
    · rw [ListFamily.belongs_put_of_ne h1] at hone
      by_cases h2 : two = head
      · subst h2
        rw [ListFamily.belongs_put_self] at htwo
        exact absurd htwo (hkeeps one c h1 hone).2
      · rw [ListFamily.belongs_put_of_ne h2] at htwo
        exact h.apart hone htwo

/-- A list that is started, or started again, at a node of no other list. -/
theorem start (h : Cycles heap lists) (hloose : lists.Loose head)
    (hcycle : Cycle heap' head []) (hkeeps : ∀ c, c ≠ head → heap' c = heap c) :
    Cycles heap' (lists.put head []) := by
  apply h.replace hcycle
  intro other c hother hc
  have hne : c ≠ head := by
    intro heq
    obtain ⟨zs, hzs, hmem⟩ := hc
    rcases List.mem_cons.mp hmem with hhead | hmem
    · exact hother (hhead.symm.trans heq)
    · exact hloose other zs hzs (heq ▸ hmem)
  exact ⟨hkeeps c hne, by simpa using hne⟩

/-- A node that belongs to no list is spliced in next to a head. -/
private theorem splice (h : Cycles heap lists) (hlists : lists head = some xs)
    (hx : lists.Free x) (hcycle : Cycle heap' head ys) (hys : ∀ c ∈ ys, c = x ∨ c ∈ xs)
    (ha : lists.Belongs head a) (hb : lists.Belongs head b)
    (hinserted : Inserted heap heap' x a b) : Cycles heap' (lists.put head ys) := by
  apply h.replace hcycle
  intro other c hother hc
  have hcx : c ≠ x := fun heq => hx other (heq ▸ hc)
  refine ⟨hinserted.keeps (h.others_ne hother hc ha) (h.others_ne hother hc hb) hcx, ?_⟩
  intro hmem
  rcases List.mem_cons.mp hmem with hhead | hmem
  · exact h.others_ne hother hc (ListFamily.belongs_head hlists) hhead
  · rcases hys c hmem with heq | hmem
    · exact hcx heq
    · exact h.others_ne hother hc (ListFamily.belongs_of_mem hlists hmem) rfl

theorem pushFront (h : Cycles heap lists) (hlists : lists head = some xs)
    (hx : lists.Free x)
    (hinserted : Inserted heap heap' x head (heap head).next) :
    Cycles heap' (lists.put head (x :: xs)) := by
  have hcycle := (h.cycle hlists).pushFront (hx.notMem hlists) hinserted
  exact h.splice hlists hx hcycle (fun c hc => List.mem_cons.mp hc)
    (ListFamily.belongs_head hlists)
    (h.next_belongs hlists) hinserted

theorem pushBack (h : Cycles heap lists) (hlists : lists head = some xs) (hx : lists.Free x)
    (hinserted : Inserted heap heap' x (heap head).prev head) :
    Cycles heap' (lists.put head (xs ++ [x])) := by
  have hcycle := (h.cycle hlists).pushBack (hx.notMem hlists) hinserted
  refine h.splice hlists hx hcycle ?_ (h.prev_belongs hlists)
    (ListFamily.belongs_head hlists) hinserted
  intro c hc
  simpa [or_comm] using hc

theorem remove (h : Cycles heap lists) (hlists : lists head = some (l ++ x :: r))
    (hremoved : Removed heap heap' x (heap x).prev (heap x).next) :
    Cycles heap' (lists.put head (l ++ r)) := by
  have hneighbours := h.neighbours_belong hlists
  have hself : lists.Belongs head x := ListFamily.belongs_of_mem hlists (by simp)
  apply h.replace ((h.cycle hlists).remove hremoved)
  intro other c hother hc
  refine ⟨hremoved.keeps (h.others_ne hother hc hneighbours.1)
    (h.others_ne hother hc hneighbours.2) (h.others_ne hother hc hself), ?_⟩
  intro hmem
  have hold : lists.Belongs head c := by
    refine ⟨_, hlists, ?_⟩
    simp only [List.mem_cons, List.mem_append] at hmem ⊢
    tauto
  exact h.others_ne hother hc hold rfl

/-- What is taken off a list belongs to no list. -/
theorem free_removed (h : Cycles heap lists) (hlists : lists head = some (l ++ x :: r)) :
    (lists.put head (l ++ r)).Free x := by
  have hcycle := h.cycle hlists
  have hself : lists.Belongs head x := ListFamily.belongs_of_mem hlists (by simp)
  intro other hother
  by_cases heq : other = head
  · subst heq
    rw [ListFamily.belongs_put_self] at hother
    rcases List.mem_cons.mp hother with hhead | hmem
    · exact hcycle.head_notMem (by simp [hhead])
    · exact hcycle.notMem_rest hmem
  · rw [ListFamily.belongs_put_of_ne heq] at hother
    exact heq (h.apart hother hself)

end Cycles

section Loops

variable {ν β : Type*} [DecidableEq ν] {heap : Heap ν}

/-- Along a segment whose links the body keeps, the loop goes over its nodes in order, until
the body faults. -/
theorem forEach_foldlM (view : β → Heap ν) {body : ν → β → Option β} {stop : ν}
    {xs : List ν}
    (hsegment : Segment heap a xs stop) (hstop : stop ∉ xs)
    (hbody : ∀ x ∈ xs, ∀ b b', view b = heap → body x b = some b' → view b' = heap) :
    ∀ {fuel b}, view b = heap → xs.length < fuel →
      forEach (fun b x => (view b x).next) body stop fuel (heap a).next b =
        xs.foldlM (fun b x => body x b) b := by
  induction xs generalizing a with
  | nil =>
      intro fuel b hview hfuel
      obtain ⟨fuel, rfl⟩ : ∃ n, fuel = n + 1 := ⟨fuel - 1, by simp at hfuel; omega⟩
      have hnext : (heap a).next = stop := hsegment.1
      rw [forEach, if_pos hnext]
      rfl
  | cons x xs ih =>
      intro fuel b hview hfuel
      obtain ⟨fuel, rfl⟩ : ∃ n, fuel = n + 1 := ⟨fuel - 1, by simp at hfuel; omega⟩
      have hnext : (heap a).next = x := hsegment.1.1
      have hne : x ≠ stop := fun heq => hstop (by simp [heq])
      rw [hnext, forEach, if_neg hne, List.foldlM_cons]
      cases hrun : body x b with
      | none => rfl
      | some b' =>
          have hkept := hbody x List.mem_cons_self b b' hview hrun
          rw [Option.bind_some, hkept]
          refine ih hsegment.2 (fun hmem => hstop (List.mem_cons_of_mem x hmem)) ?_ hkept ?_
          · intro y hy
            exact hbody y (List.mem_cons_of_mem x hy)
          · simp at hfuel
            omega

end Loops

end YiOS.Library
