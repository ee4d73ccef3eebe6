import YiOS.Library.Lists
import YiOS.Sched.Task

namespace YiOS

open YiOS.Library

/-! The rest of `list.h`, and its calls in any order on any number of lists. -/

def listAddTail (heap : Heap ListPtr) (new head : ListPtr) : Heap ListPtr :=
  __listAdd heap new (heap head).prev head

def listEmpty (heap : Heap ListPtr) (head : ListPtr) : Bool := (heap head).next = head

/-- `list_for_each` over a state of any kind whose links are `view`. -/
def listForEach (view : β → Heap ListPtr) (body : ListPtr → β → Option β) (head : ListPtr)
    (fuel : Nat) (b : β) : Option β :=
  forEach (fun b pos => (view b pos).next) body head fuel (view b head).next b

theorem listAddTail_inserted (heap : Heap ListPtr) {new head : ListPtr}
    (hhead : new ≠ head) (hprev : new ≠ (heap head).prev) :
    Inserted heap (listAddTail heap new head) new (heap head).prev head where
  before := by
    constructor
    · simp [listAddTail, __listAdd, Heap.setNext_next]
    · simp [listAddTail, __listAdd, Heap.setPrev_prev]
  after := by
    constructor
    · simp [listAddTail, __listAdd, Heap.setNext_next, hprev]
    · simp [listAddTail, __listAdd, Heap.setPrev_prev, hhead.symm]
  next := by
    intro c hc hnew
    simp [listAddTail, __listAdd, Heap.setNext_next, hc, hnew]
  prev := by
    intro d hd hnew
    simp [listAddTail, __listAdd, Heap.setPrev_prev, hd, hnew]

theorem listDel_poisons (heap : Heap ListPtr) (entry : ListPtr) :
    listDel heap entry entry = ⟨listPoison1, listPoison2⟩ := by
  have hnext := listDel_next heap entry
  have hprev : (listDel heap entry entry).prev = listPoison2 := by
    simp [listDel, Heap.setPrev_prev]
  rw [← hnext, ← hprev]

theorem initListHead_keeps (heap : Heap ListPtr) (h : c ≠ list) :
    initListHead heap list c = heap c := by
  apply Heap.node_ext
  · simp [initListHead, Heap.setNext_next, h]
  · simp [initListHead, Heap.setPrev_prev, h]

/-- The functions of `list.h` that store. -/
inductive ListCall where
  | init (list : ListPtr)
  | add (new head : ListPtr)
  | addTail (new head : ListPtr)
  | del (entry : ListPtr)

namespace ListCall

def run (heap : Heap ListPtr) : ListCall → Heap ListPtr
  | .init list => initListHead heap list
  | .add new head => listAdd heap new head
  | .addTail new head => listAddTail heap new head
  | .del entry => listDel heap entry

/-- The node a call is about. -/
def subject : ListCall → ListPtr
  | .init list => list
  | .add new _ => new
  | .addTail new _ => new
  | .del entry => entry

end ListCall

/-- What lists are for: sequences of nodes, and the nodes that have been deleted. -/
structure ListView where
  lists : ListFamily ListPtr
  deleted : ListPtr → Prop

namespace ListView

def empty : ListView := ⟨fun _ => none, fun _ => False⟩

/-- The list of `head` becomes `xs`, and `x` is not a deleted node. -/
def take (v : ListView) (x head : ListPtr) (xs : List ListPtr) : ListView where
  lists := v.lists.put head xs
  deleted := fun c => v.deleted c ∧ c ≠ x

/-- The list of `head` becomes `xs`, and `x` is a deleted node. -/
def drop (v : ListView) (x head : ListPtr) (xs : List ListPtr) : ListView where
  lists := v.lists.put head xs
  deleted := fun c => v.deleted c ∨ c = x

@[simp] theorem take_lists (v : ListView) (x head : ListPtr) (xs : List ListPtr) :
    (v.take x head xs).lists head = some xs := ListFamily.put_self v.lists head xs

@[simp] theorem drop_lists (v : ListView) (x head : ListPtr) (xs : List ListPtr) :
    (v.drop x head xs).lists head = some xs := ListFamily.put_self v.lists head xs

end ListView

/-- What each call means, and what it relies on. -/
inductive ListStep (v : ListView) : ListCall → ListView → Prop
  | init {list : ListPtr} :
      v.lists.Loose list → ListStep v (.init list) (v.take list list [])
  | add {new head : ListPtr} {xs : List ListPtr} :
      v.lists head = some xs → v.lists.Free new →
      ListStep v (.add new head) (v.take new head (new :: xs))
  | addTail {new head : ListPtr} {xs : List ListPtr} : v.lists head = some xs →
      v.lists.Free new → ListStep v (.addTail new head) (v.take new head (xs ++ [new]))
  | del {entry head : ListPtr} {l r : List ListPtr} :
      v.lists head = some (l ++ entry :: r) →
      ListStep v (.del entry) (v.drop entry head (l ++ r))

/-- Any number of calls, the last one first, and the links they leave behind. -/
inductive ListRun (heap₀ : Heap ListPtr) :
    List ListCall → ListView → Heap ListPtr → Prop
  | start : ListRun heap₀ [] .empty heap₀
  | step : ListRun heap₀ calls v heap → ListStep v call v' →
      ListRun heap₀ (call :: calls) v' (call.run heap)

/-- The links in memory are those of the lists. -/
structure Represents (heap₀ heap : Heap ListPtr) (calls : List ListCall) (v : ListView) :
    Prop where
  cycles : Cycles heap v.lists
  poisoned : ∀ {x}, v.deleted x → v.lists.Free x ∧ heap x = ⟨listPoison1, listPoison2⟩
  named : ∀ {head x}, v.lists.Belongs head x → x ∈ calls.map ListCall.subject
  untouched : ∀ {x}, x ∉ calls.map ListCall.subject → heap x = heap₀ x

namespace Represents

variable {heap₀ heap heap' : Heap ListPtr} {calls : List ListCall} {v v' : ListView}

theorem start (heap₀ : Heap ListPtr) : Represents heap₀ heap₀ [] .empty where
  cycles := .empty heap₀
  poisoned := fun h => h.elim
  named := fun h => nomatch h.choose_spec.1
  untouched := fun _ => rfl

/-- One list changes, and no node is written but the subject and those that belong to
lists. -/
theorem change (h : Represents heap₀ heap calls v) (call : ListCall)
    (hlists : v'.lists = v.lists.put head ys) (hcycles : Cycles heap' v'.lists)
    (hnodes : ∀ c ∈ head :: ys, c = call.subject ∨ ∃ other, v.lists.Belongs other c)
    (hkeeps : ∀ c, c ≠ call.subject → v.lists.Free c → heap' c = heap c)
    (hdeleted : ∀ c, v'.deleted c → v.deleted c ∧ c ≠ call.subject ∨
      v'.lists.Free c ∧ heap' c = ⟨listPoison1, listPoison2⟩) :
    Represents heap₀ heap' (call :: calls) v' := by
  have hold : ∀ other c, v'.lists.Belongs other c →
      c = call.subject ∨ ∃ other, v.lists.Belongs other c := by
    intro other c hc
    rw [hlists] at hc
    by_cases heq : other = head
    · subst heq
      exact hnodes c (ListFamily.belongs_put_self.mp hc)
    · exact .inr ⟨other, (ListFamily.belongs_put_of_ne heq).mp hc⟩
  constructor
  · exact hcycles
  · intro x hx
    rcases hdeleted x hx with hbefore | hnow
    · obtain ⟨hfree, hpoison⟩ := h.poisoned hbefore.1
      constructor
      · intro other hc
        rcases hold other x hc with heq | hbelongs
        · exact hbefore.2 heq
        · exact hfree hbelongs.choose hbelongs.choose_spec
      · exact (hkeeps x hbefore.2 hfree).trans hpoison
    · exact hnow
  · intro other x hc
    rw [List.map_cons, List.mem_cons]
    rcases hold other x hc with heq | hbelongs
    · exact .inl heq
    · exact .inr (h.named hbelongs.choose_spec)
  · intro x hx
    rw [List.map_cons, List.mem_cons, not_or] at hx
    have hfree : v.lists.Free x := fun other hc => hx.2 (h.named hc)
    exact (hkeeps x hx.1 hfree).trans (h.untouched hx.2)

private theorem free_ne (hfree : v.lists.Free c) (hx : v.lists.Belongs head x) : c ≠ x :=
  fun heq => hfree head (heq ▸ hx)

theorem init (h : Represents heap₀ heap calls v) (hloose : v.lists.Loose list) :
    Represents heap₀ (initListHead heap list) (.init list :: calls)
      (v.take list list []) := by
  apply h.change (.init list) rfl
  · exact h.cycles.start hloose (initListHead_cycle heap list) fun c hc =>
      initListHead_keeps heap hc
  · intro c hc
    exact .inl (List.mem_singleton.mp hc)
  · intro c hc _
    exact initListHead_keeps heap hc
  · intro c hc
    exact .inl hc

theorem add (h : Represents heap₀ heap calls v) (hlists : v.lists head = some xs)
    (hfree : v.lists.Free new) :
    Represents heap₀ (listAdd heap new head) (.add new head :: calls)
      (v.take new head (new :: xs)) := by
  have hnext := h.cycles.next_belongs hlists
  have hhead := ListFamily.belongs_head hlists
  have hinserted := listAdd_inserted heap (free_ne hfree hhead) (free_ne hfree hnext)
  apply h.change (.add new head) rfl
  · exact h.cycles.pushFront hlists hfree hinserted
  · intro c hc
    rcases List.mem_cons.mp hc with hc | hc
    · exact .inr ⟨head, hc ▸ hhead⟩
    · rcases List.mem_cons.mp hc with hc | hc
      · exact .inl hc
      · exact .inr ⟨head, ListFamily.belongs_of_mem hlists hc⟩
  · intro c hnew hc
    exact hinserted.keeps (free_ne hc hhead) (free_ne hc hnext) hnew
  · intro c hc
    exact .inl hc

theorem addTail (h : Represents heap₀ heap calls v) (hlists : v.lists head = some xs)
    (hfree : v.lists.Free new) :
    Represents heap₀ (listAddTail heap new head) (.addTail new head :: calls)
      (v.take new head (xs ++ [new])) := by
  have hprev := h.cycles.prev_belongs hlists
  have hhead := ListFamily.belongs_head hlists
  have hinserted := listAddTail_inserted heap (free_ne hfree hhead) (free_ne hfree hprev)
  apply h.change (.addTail new head) rfl
  · exact h.cycles.pushBack hlists hfree hinserted
  · intro c hc
    rcases List.mem_cons.mp hc with hc | hc
    · exact .inr ⟨head, hc ▸ hhead⟩
    · rcases List.mem_append.mp hc with hc | hc
      · exact .inr ⟨head, ListFamily.belongs_of_mem hlists hc⟩
      · exact .inl (List.mem_singleton.mp hc)
  · intro c hnew hc
    exact hinserted.keeps (free_ne hc hprev) (free_ne hc hhead) hnew
  · intro c hc
    exact .inl hc

theorem del {entry head : ListPtr} {l r : List ListPtr} (h : Represents heap₀ heap calls v)
    (hlists : v.lists head = some (l ++ entry :: r)) :
    Represents heap₀ (listDel heap entry) (.del entry :: calls)
      (v.drop entry head (l ++ r)) := by
  obtain ⟨hprev, hnext⟩ := (h.cycles.cycle hlists).neighbours_ne
  have hremoved := listDel_removed heap hprev hnext
  have hnodes : ∀ c ∈ head :: (l ++ r), v.lists.Belongs head c := by
    intro c hc
    refine ⟨_, hlists, ?_⟩
    simp only [List.mem_cons, List.mem_append] at hc ⊢
    tauto
  apply h.change (.del entry) rfl
  · exact h.cycles.remove hlists hremoved
  · intro c hc
    exact .inr ⟨head, hnodes c hc⟩
  · intro c hentry hc
    have hneighbours := h.cycles.neighbours_belong hlists
    exact hremoved.keeps (free_ne hc hneighbours.1) (free_ne hc hneighbours.2) hentry
  · intro c hc
    rcases hc with hc | hc
    · by_cases heq : c = entry
      · exact absurd (ListFamily.belongs_of_mem hlists (heq ▸ by simp))
          ((h.poisoned hc).1 head)
      · exact .inl ⟨hc, heq⟩
    · subst hc
      exact .inr ⟨h.cycles.free_removed hlists, listDel_poisons heap c⟩

end Represents

theorem ListStep.represents {call : ListCall} (h : ListStep v call v')
    (hbefore : Represents heap₀ heap calls v) :
    Represents heap₀ (call.run heap) (call :: calls) v' := by
  cases h with
  | init hloose => exact hbefore.init hloose
  | add hlists hfree => exact hbefore.add hlists hfree
  | addTail hlists hfree => exact hbefore.addTail hlists hfree
  | del hlists => exact hbefore.del hlists

theorem ListRun.represents (h : ListRun heap₀ calls v heap) :
    Represents heap₀ heap calls v := by
  induction h with
  | start => exact .start heap₀
  | step _ hstep ih => exact hstep.represents ih

/-- What the readers of a list find after any run. -/
theorem listRun_reads (h : ListRun heap₀ calls v heap) :
    (∀ head xs, v.lists head = some xs →
      (head :: xs).Nodup ∧
      (listEmpty heap head ↔ xs = []) ∧
      (∀ fuel, xs.length < fuel → trail (fun x => (heap x).prev) head fuel = some xs.reverse) ∧
      ∀ (β : Type) (view : β → Heap ListPtr) (body : ListPtr → β → Option β) (b : β)
        (fuel : Nat), view b = heap →
        (∀ x ∈ xs, ∀ b b', view b = heap → body x b = some b' → view b' = heap) →
        xs.length < fuel →
        listForEach view body head fuel b = xs.foldlM (fun b x => body x b) b) ∧
    (∀ head head' x, v.lists.Belongs head x → v.lists.Belongs head' x → head = head') ∧
    (∀ x, v.deleted x → v.lists.Free x ∧ heap x = ⟨listPoison1, listPoison2⟩) ∧
    ∀ x, x ∉ calls.map ListCall.subject → heap x = heap₀ x := by
  have hrep := h.represents
  refine ⟨?_, ?_, fun x hx => hrep.poisoned hx, fun x hx => hrep.untouched hx⟩
  · intro head xs hlists
    have hcycle := hrep.cycles.cycle hlists
    refine ⟨hcycle.nodup, ?_, fun fuel hfuel => hcycle.trail_prev hfuel, ?_⟩
    · rw [listEmpty, decide_eq_true_eq]
      exact hcycle.next_eq_head
    · intro β view body b fuel hview hbody hfuel
      rw [listForEach, hview]
      exact forEach_foldlM view hcycle.segment hcycle.head_notMem hbody hview hfuel
  · intro head head' x hx hx'
    exact hrep.cycles.apart hx hx'

def oneNode : ListView :=
  (ListView.empty.take .rqHead .rqHead []).take (.runList .initTask) .rqHead
    [.runList .initTask]

def twoNodes : ListView := oneNode.take (.raw 8) .rqHead [.runList .initTask, .raw 8]

/-- Two nodes on a list, one put in front and one behind, and the first one deleted. -/
theorem twoNodes_run (heap₀ : Heap ListPtr) : ∃ heap, ListRun heap₀
    [.del (.runList .initTask), .addTail (.raw 8) .rqHead,
      .add (.runList .initTask) .rqHead,
      .init .rqHead] (twoNodes.drop (.runList .initTask) .rqHead [.raw 8]) heap := by
  have hempty : ∀ x, ListView.empty.lists.Free x :=
    fun x head hx => nomatch hx.choose_spec.1
  have hinit : ListStep .empty (.init .rqHead) (ListView.empty.take .rqHead .rqHead []) :=
    .init (hempty .rqHead).loose
  have hadd : ListStep _ (.add (.runList .initTask) .rqHead) oneNode :=
    .add (ListView.take_lists .empty .rqHead .rqHead []) ((hempty _).put (by decide))
  have hfree : oneNode.lists.Free (.raw 8) :=
    ListFamily.Free.put (ListFamily.Free.put (hempty _) (by decide)) (by decide)
  have haddTail : ListStep _ (.addTail (.raw 8) .rqHead) twoNodes :=
    .addTail (ListView.take_lists _ _ _ [.runList .initTask]) hfree
  have hdel := ListStep.del (ListView.take_lists oneNode (.raw 8) .rqHead
    ([] ++ .runList .initTask :: [.raw 8]))
  exact ⟨_, (((ListRun.start.step hinit).step hadd).step haddTail).step hdel⟩

theorem listRun_reads_twoNodes : ∃ calls heap,
    ListRun (fun _ => ⟨.rqHead, .rqHead⟩) calls
      (twoNodes.drop (.runList .initTask) .rqHead [.raw 8]) heap ∧
      trail (fun x => (heap x).prev) .rqHead 2 = some [.raw 8] ∧
      (heap (.runList .initTask)).next = listPoison1 := by
  obtain ⟨heap, hrun⟩ := twoNodes_run fun _ => ⟨.rqHead, .rqHead⟩
  obtain ⟨hlists, -, hdeleted, -⟩ := listRun_reads hrun
  have hlist := ListView.drop_lists twoNodes (.runList .initTask) .rqHead [.raw 8]
  refine ⟨_, heap, hrun, (hlists .rqHead [.raw 8] hlist).2.2.1 2 (by decide), ?_⟩
  rw [(hdeleted (.runList .initTask) (.inr rfl)).2]

end YiOS
