import Mathlib.Data.List.Basic

namespace YiOS.Library

/-! A bounded queue that a device empties, and senders that wait before each item until they
have seen room for it. A sender can break into another one at any point, and leaves when it
has sent all of its own. -/

/-- `checked` when room has been seen for the first item of `rest`, and `broken` when
another sender has broken in since. -/
structure Sender (α : Type) where
  rest : List α
  checked : Bool
  broken : Bool
  deriving DecidableEq, Repr

def Sender.start (rest : List α) : Sender α := ⟨rest, false, false⟩

/-- The innermost of the senders is the first. The `log` has every item that was written,
and whether there was room for it; `breaks` counts how often a sender that had seen room was
broken into. -/
structure Polled (α : Type) where
  out : List α
  queue : List α
  senders : List (Sender α)
  log : List (α × Bool)
  breaks : Nat
  deriving DecidableEq, Repr

namespace Polled

inductive Event (α : Type) where
  | drain
  | look
  | write
  | enter (items : List α)
  | leave
  deriving DecidableEq, Repr

def act (depth : Nat) (s : Polled α) : Event α → Option (Polled α)
  | .drain =>
      match s.queue with
      | [] => none
      | a :: queue => some { s with out := s.out ++ [a], queue := queue }
  | .look =>
      match s.senders with
      | ⟨a :: rest, false, _⟩ :: senders =>
          some { s with senders := ⟨a :: rest, s.queue.length < depth, false⟩ :: senders }
      | _ => none
  | .write =>
      match s.senders with
      | ⟨a :: rest, true, _⟩ :: senders =>
          let room : Bool := s.queue.length < depth
          some { s with
            queue := if room then s.queue ++ [a] else s.queue
            senders := .start rest :: senders
            log := s.log ++ [(a, room)] }
      | _ => none
  | .enter items =>
      match s.senders with
      | [] => some { s with senders := [.start items] }
      | t :: senders =>
          some { s with
            senders := .start items :: { t with broken := t.checked } :: senders
            breaks := if t.checked then s.breaks + 1 else s.breaks }
  | .leave =>
      match s.senders with
      | ⟨[], _, _⟩ :: senders => some { s with senders := senders }
      | _ => none

def run (depth : Nat) (s : Polled α) (events : List (Event α)) : Option (Polled α) :=
  events.foldlM (act depth) s

/-- What the senders still have to send, in the order in which they will. -/
def rests (s : Polled α) : List α := s.senders.flatMap Sender.rest

def written (s : Polled α) : List α := s.log.map Prod.fst

def accepted (s : Polled α) : List α := (s.log.filter Prod.snd).map Prod.fst

def lost (s : Polled α) : List α := (s.log.filter fun entry => !entry.2).map Prod.fst

/-- The senders that were broken into after they had seen room. -/
def brokenInto (s : Polled α) : Nat := s.senders.countP Sender.broken

/-- What each event keeps, for a queue of this depth. -/
structure Sound (depth : Nat) (s : Polled α) : Prop where
  bounded : s.queue.length ≤ depth
  broken : ∀ t ∈ s.senders.head?, t.broken = true → t.checked = true
  /-- Only the innermost sender writes, so the room that it has seen is still there. -/
  room : ∀ t ∈ s.senders.head?, t.checked = true → t.broken = true ∨ s.queue.length < depth
  waiting : ∀ t ∈ s.senders.tail, t.broken = t.checked
  charged : s.lost.length + s.brokenInto ≤ s.breaks

/-- What each event needs, and what it does. -/
inductive Moves (depth : Nat) (s : Polled α) : Event α → Polled α → Prop where
  | drain : s.queue = a :: behind →
      Moves depth s .drain { s with out := s.out ++ [a], queue := behind }
  | look : s.senders = ⟨a :: rest, false, broken⟩ :: others →
      Moves depth s .look
        { s with senders := ⟨a :: rest, s.queue.length < depth, false⟩ :: others }
  | accept : s.senders = ⟨a :: rest, true, broken⟩ :: others → s.queue.length < depth →
      Moves depth s .write { s with
        queue := s.queue ++ [a]
        senders := .start rest :: others
        log := s.log ++ [(a, true)] }
  | lose : s.senders = ⟨a :: rest, true, broken⟩ :: others → depth ≤ s.queue.length →
      Moves depth s .write
        { s with senders := .start rest :: others, log := s.log ++ [(a, false)] }
  | first : s.senders = [] → Moves depth s (.enter items)
      { s with senders := [.start items] }
  | enter : s.senders = t :: others →
      Moves depth s (.enter items) { s with
        senders := .start items :: { t with broken := t.checked } :: others
        breaks := if t.checked then s.breaks + 1 else s.breaks }
  | leave : s.senders = ⟨[], checked, broken⟩ :: others →
      Moves depth s .leave { s with senders := others }

variable {depth : Nat} {s s' : Polled α}

theorem act_moves (h : s.act depth e = some s') : s.Moves depth e s' := by
  cases e with
  | drain =>
      cases hqueue : s.queue with
      | nil => simp [act, hqueue] at h
      | cons a queue =>
          obtain rfl : _ = s' := by simpa [act, hqueue] using h
          exact .drain hqueue
  | look =>
      simp only [act] at h
      split at h
      · exact Option.some.inj h ▸ .look ‹_›
      · exact absurd h (by simp)
  | write =>
      simp only [act] at h
      split at h
      · rename_i hsenders
        by_cases hroom : s.queue.length < depth
        · obtain rfl : _ = s' := by simpa [hroom] using h
          exact .accept hsenders hroom
        · obtain rfl : _ = s' := by simpa [hroom] using h
          exact .lose hsenders (Nat.le_of_not_lt hroom)
      · exact absurd h (by simp)
  | enter items =>
      cases hsenders : s.senders with
      | nil =>
          obtain rfl : _ = s' := by simpa [act, hsenders] using h
          exact .first hsenders
      | cons t senders =>
          rw [act, hsenders] at h
          exact Option.some.inj h ▸ .enter hsenders
  | leave =>
      simp only [act] at h
      split at h
      · exact Option.some.inj h ▸ .leave ‹_›
      · exact absurd h (by simp)

theorem Sound.act (hs : s.Sound depth) (h : s.Moves depth e s') : s'.Sound depth := by
  obtain ⟨hbounded, hbroken, hroom, hwaiting, hcharged⟩ := hs
  cases h with
  | drain hqueue =>
      rw [hqueue, List.length_cons] at hbounded
      exact ⟨Nat.le_of_succ_le hbounded, hbroken, fun t _ _ => .inr hbounded,
        hwaiting, hcharged⟩
  | look hsenders =>
      rw [hsenders] at hbroken hwaiting
      have hunbroken : _ ≠ true := fun hset => Bool.false_ne_true (hbroken _ rfl hset)
      rw [brokenInto, hsenders, List.countP_cons_of_neg hunbroken] at hcharged
      exact ⟨hbounded, by simp, by simp, hwaiting, hcharged⟩
  | accept hsenders hlt =>
      rw [hsenders] at hwaiting
      rw [brokenInto, hsenders, List.countP_cons] at hcharged
      refine ⟨?_, by simp [Sender.start], by simp [Sender.start], hwaiting, ?_⟩
      · rw [List.length_append]
        exact hlt
      · simp [lost, brokenInto, Sender.start] at hcharged ⊢
        omega
  | lose hsenders hfull =>
      rw [hsenders] at hroom hwaiting
      have hbreak := (hroom _ rfl rfl).resolve_right (Nat.not_lt.mpr hfull)
      rw [brokenInto, hsenders, List.countP_cons_of_pos hbreak] at hcharged
      refine ⟨hbounded, by simp [Sender.start], by simp [Sender.start], hwaiting, ?_⟩
      simp [lost, brokenInto, Sender.start] at hcharged ⊢
      omega
  | first hsenders =>
      rw [brokenInto, hsenders] at hcharged
      exact ⟨hbounded, by simp [Sender.start], by simp [Sender.start], by simp, hcharged⟩
  | @enter t _ _ hsenders =>
      rw [hsenders] at hbroken hwaiting
      rw [brokenInto, hsenders, List.countP_cons] at hcharged
      refine ⟨hbounded, by simp [Sender.start], by simp [Sender.start], by simpa using hwaiting, ?_⟩
      have hbefore : t.broken = true → t.checked = true := hbroken t rfl
      simp only [lost, brokenInto, Sender.start, List.countP_cons] at hcharged ⊢
      cases hchecked : t.checked with
      | false =>
          have hunbroken : t.broken = false := by
            rw [← Bool.not_eq_true]
            exact fun hset => Bool.false_ne_true (hchecked ▸ hbefore hset)
          simpa [hunbroken] using hcharged
      | true =>
          cases hset : t.broken with
          | false =>
              simp [hset] at hcharged ⊢
              omega
          | true =>
              simp [hset] at hcharged ⊢
              omega
  | leave hsenders =>
      rw [hsenders] at hwaiting
      rw [brokenInto, hsenders, List.countP_cons] at hcharged
      refine ⟨hbounded, ?_, ?_, fun t ht => hwaiting t (List.mem_of_mem_tail ht), ?_⟩
      · intro t ht hset
        rw [← hwaiting t (List.mem_of_mem_head? ht), hset]
      · intro t ht hchecked
        rw [hwaiting t (List.mem_of_mem_head? ht)]
        exact .inl hchecked
      · exact Nat.le_trans (by simp [lost, brokenInto]) hcharged

/-- No item is written twice, and each sender writes its own in order: of the items that no
sender brings with it who breaks in, what has been written and what is left stays the
same. -/
theorem Moves.order (h : s.Moves depth e s') (p : α → Bool)
    (hown : ∀ items, e = .enter items → ∀ a ∈ items, p a = false) :
    (s'.written ++ s'.rests).filter p = (s.written ++ s.rests).filter p := by
  cases h with
  | drain hqueue => rfl
  | look hsenders => simp [written, rests, hsenders]
  | accept hsenders hlt => simp [written, rests, hsenders, Sender.start]
  | lose hsenders hfull => simp [written, rests, hsenders, Sender.start]
  | first hsenders =>
      have hnone := List.filter_eq_nil_iff.mpr fun a ha => by simpa using hown _ rfl a ha
      simp [written, rests, hsenders, Sender.start, hnone]
  | enter hsenders =>
      have hnone := List.filter_eq_nil_iff.mpr fun a ha => by simpa using hown _ rfl a ha
      simp [written, rests, hsenders, Sender.start, hnone]
  | leave hsenders => simp [written, rests, hsenders]

theorem Moves.enter_order (h : s.Moves depth (.enter items) s') :
    s'.written = s.written ∧ s'.rests = items ++ s.rests := by
  cases h with
  | first hsenders => exact ⟨rfl, by simp [rests, hsenders, Sender.start]⟩
  | enter hsenders => exact ⟨rfl, by simp [rests, hsenders, Sender.start]⟩

/-- What had room goes out once, in the order in which it was written. -/
theorem Moves.delivery (h : s.Moves depth e s') (hs : s.out ++ s.queue = old ++ s.accepted) :
    s'.out ++ s'.queue = old ++ s'.accepted := by
  cases h with
  | drain hqueue =>
      rw [hqueue] at hs
      simpa [accepted] using hs
  | look hsenders => exact hs
  | accept hsenders hlt =>
      simpa [accepted, ← List.append_assoc] using hs
  | lose hsenders hfull => simpa [accepted] using hs
  | first hsenders => exact hs
  | enter hsenders => exact hs
  | leave hsenders => exact hs

/-- One sender, before a queue that holds something already. -/
def start (held items : List α) : Polled α := ⟨[], held, [.start items], [], 0⟩

theorem start_sound {held items : List α} (hheld : held.length ≤ depth) :
    (start held items).Sound depth :=
  ⟨hheld, by simp [start, Sender.start], by simp [start, Sender.start], by simp [start],
    by simp [start, lost, brokenInto, Sender.start]⟩

theorem accepted_eq_written (h : s.lost = []) : s.accepted = s.written := by
  have hall : ∀ entry ∈ s.log, entry.2 = true := by
    intro entry hmem
    by_contra hlost
    have hmem' : entry.1 ∈ s.lost :=
      List.mem_map_of_mem (List.mem_filter.mpr ⟨hmem, by simpa using hlost⟩)
    rw [h] at hmem'
    exact absurd hmem' List.not_mem_nil
  rw [accepted, List.filter_eq_self.mpr hall, written]

/-- How much is left to do when no one breaks in any more. -/
def remaining (s : Polled α) : Nat :=
  s.queue.length + 3 * s.rests.length + s.senders.length +
    s.senders.countP fun t => !t.checked

/-- An empty queue is not waited for. -/
theorem progress (hdepth : 0 < depth) (h : s.senders ≠ [] ∨ s.queue ≠ []) :
    ∃ e s₁, (∀ items, e ≠ .enter items) ∧ s.act depth e = some s₁ ∧
      s₁.remaining < s.remaining := by
  cases hqueue : s.queue with
  | cons a behind =>
      refine ⟨.drain, _, by simp, by rw [act, hqueue], ?_⟩
      simp [remaining, rests, hqueue]
  | nil =>
      cases hsenders : s.senders with
      | nil => simp [hsenders, hqueue] at h
      | cons t others =>
          obtain ⟨rest, checked, broken⟩ := t
          cases rest with
          | nil =>
              refine ⟨.leave, _, by simp, by rw [act, hsenders], ?_⟩
              simp [remaining, rests, hsenders, hqueue, List.countP_cons]
              omega
          | cons a rest =>
              cases checked with
              | false =>
                  refine ⟨.look, _, by simp, by rw [act, hsenders], ?_⟩
                  simp [remaining, rests, hsenders, hqueue, hdepth]
              | true =>
                  refine ⟨.write, _, by simp, by rw [act, hsenders], ?_⟩
                  simp [remaining, rests, hsenders, hqueue, hdepth, Sender.start]
                  omega

/-- All can be sent and drained, whatever the run has been so far. -/
theorem exists_finish (hdepth : 0 < depth) (s : Polled α) :
    ∃ events s', (∀ items, .enter items ∉ events) ∧ s.run depth events = some s' ∧
      s'.senders = [] ∧ s'.queue = [] := by
  induction hn : s.remaining using Nat.strongRecOn generalizing s with
  | _ n ih =>
      by_cases hdone : s.senders = [] ∧ s.queue = []
      · exact ⟨[], s, by simp, rfl, hdone⟩
      · obtain ⟨e, s₁, he, hact, hless⟩ := progress hdepth (s := s) (by
          rwa [← not_and_or])
        obtain ⟨events, s', hevents, hrun, hfinish⟩ := ih _ (hn ▸ hless) s₁ rfl
        refine ⟨e :: events, s', ?_, Option.bind_eq_some_iff.mpr ⟨s₁, hact, hrun⟩, hfinish⟩
        intro items hmem
        cases List.mem_cons.mp hmem with
        | inl heq => exact he items heq.symm
        | inr hmem => exact hevents items hmem

end Polled

end YiOS.Library
