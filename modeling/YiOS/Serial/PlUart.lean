import YiOS.Library.Polled
import YiOS.Library.Text
import YiOS.Page

namespace YiOS.Uart

open YiOS.Library

/-! `pl_uart.c` before a controller with FIFOs of `depth` characters. Each character bears
the number of the call of `printk`, or of another user, that it belongs to; the mark is not
sent. -/

structure Marked where
  byte : Byte
  call : Nat
  deriving DecidableEq, Repr

def mark (call : Nat) (text : List Byte) : List Marked := text.map fun c => ⟨c, call⟩

/-- `line` is what has left the transmit FIFO. -/
structure Controller where
  line : List Marked
  txFifo : List Marked
  rxFifo : List Byte
  deriving DecidableEq, Repr

/-- Of `U_FR_REG` the bits that the driver looks at: the transmit FIFO is full, the receive
FIFO is empty. -/
def Controller.uFrReg (depth : Nat) (u : Controller) : BitVec 32 :=
  (if depth ≤ u.txFifo.length then 1 <<< 5 else 0) ||| (if u.rxFifo = [] then 1 <<< 4 else 0)

/-- A character for a full FIFO is dropped. -/
def Controller.writeUDataReg (depth : Nat) (u : Controller) (c : Marked) : Controller :=
  if u.txFifo.length < depth then { u with txFifo := u.txFifo ++ [c] } else u

/-- Where a call of `uart_send` stands. -/
inductive Point where
  | wait
  | data
  deriving DecidableEq, Repr

/-- The characters for this call of `uart_send` and the ones after it. -/
structure Thread where
  todo : List Marked
  point : Point
  deriving DecidableEq, Repr

/-- One access of `uart_send`. -/
def uartSend (depth : Nat) (u : Controller) (t : Thread) : Option (Controller × Thread) :=
  match t.todo, t.point with
  | [], _ => none
  | _ :: _, .wait =>
      if u.uFrReg depth &&& (1 <<< 5) ≠ 0 then some (u, t)
      else some (u, { t with point := .data })
  | c :: todo, .data => some (u.writeUDataReg depth c, ⟨todo, .wait⟩)

/-- `putchar`, as the characters it gives to `uart_send`. -/
def putchar (c : Byte) : List Byte := if c = ch '\n' then [ch '\r', c] else [c]

/-- What a terminal shows that takes a carriage return before a newline for a part of it. -/
def terminal : List Byte → List Byte
  | [] => []
  | c :: line =>
      if c = ch '\r' ∧ line.head? = some (ch '\n') then terminal line else c :: terminal line

/-- No text is lost by the carriage returns of `putchar`. -/
theorem terminal_putchar (text : List Byte) : terminal (text.flatMap putchar) = text := by
  induction text with
  | nil => rfl
  | cons c text ih =>
      have hhead : (text.flatMap putchar).head? ≠ some (ch '\n') := by
        cases text with
        | nil => simp
        | cons c' text =>
            by_cases hnewline : c' = ch '\n'
            · simp [putchar, hnewline]
              decide
            · simp [putchar, hnewline]
      by_cases hnewline : c = ch '\n'
      · have hother : ch '\n' ≠ ch '\r' := by decide
        simp [putchar, hnewline, terminal, hother, ih]
      · simp [putchar, hnewline, terminal, hhead, ih]

/-- The threads that are sending, the one that runs first: the others have been interrupted.
`calls` have begun, and `hits` interrupts came between a look at `U_FR_REG` and the
write. -/
structure Console where
  uart : Controller
  threads : List Thread
  calls : Nat
  hits : Nat
  deriving DecidableEq, Repr

inductive Event where
  | transmit
  | receive (c : Byte)
  | run
  | irq (text : List Byte)
  | done
  deriving DecidableEq, Repr

/-- The text that an event begins to send. -/
def Event.text : Event → Option (List Byte)
  | .irq text => some text
  | _ => none

namespace Console

/-- `irq` is a handler that sends a text of its own, and `done` the end of a call. -/
def act (depth : Nat) (s : Console) : Event → Option Console
  | .transmit =>
      match s.uart.txFifo with
      | [] => none
      | c :: txFifo => some { s with uart := { s.uart with line := s.uart.line ++ [c], txFifo } }
  | .receive c =>
      if s.uart.rxFifo.length < depth then
        some { s with uart := { s.uart with rxFifo := s.uart.rxFifo ++ [c] } }
      else some s
  | .run =>
      match s.threads with
      | [] => none
      | t :: threads =>
          (uartSend depth s.uart t).map fun r =>
            { s with uart := r.1, threads := r.2 :: threads }
  | .irq text => some { s with
      threads := ⟨mark s.calls text, .wait⟩ :: s.threads
      calls := s.calls + 1
      hits := if s.threads.head?.map Thread.point = some .data then s.hits + 1 else s.hits }
  | .done =>
      match s.threads with
      | ⟨[], _⟩ :: threads => some { s with threads }
      | _ => none

def run (depth : Nat) (s : Console) (events : List Event) : Option Console :=
  events.foldlM (act depth) s

def todo (s : Console) : List Marked := s.threads.flatMap Thread.todo

/-- One thread is about to send a text. -/
def start (held : List Marked) (text : List Byte) : Console :=
  ⟨⟨[], held, []⟩, [⟨mark 0 text, .wait⟩], 1, 0⟩

/-- The console seen as senders before a queue. -/
structure Shows (s : Console) (p : Polled Marked) : Prop where
  out : p.out = s.uart.line
  queue : p.queue = s.uart.txFifo
  senders : p.senders.map (fun t => (t.rest, t.checked)) =
    s.threads.map fun t => (t.todo, decide (t.point = .data))
  breaks : p.breaks = s.hits

/-- The event of the senders that an event of the console is, if it is one. -/
def senderEvent (s : Console) : Event → Option (Polled.Event Marked)
  | .transmit => some .drain
  | .receive _ => none
  | .run =>
      if s.threads.head?.map Thread.point = some .data then some .write else some .look
  | .irq text => some (.enter (mark s.calls text))
  | .done => some .leave

theorem uFrReg_full (depth : Nat) (u : Controller) :
    u.uFrReg depth &&& (1 <<< 5) ≠ 0 ↔ depth ≤ u.txFifo.length := by
  unfold Controller.uFrReg
  split_ifs with hfull hempty <;> simp [hfull]

variable {depth : Nat} {s s' : Console} {p : Polled Marked}

namespace Shows

theorem start {held : List Marked} (text : List Byte) :
    (Console.start held text).Shows (.start held (mark 0 text)) :=
  ⟨rfl, rfl, rfl, rfl⟩

theorem transmit (h : s.Shows p) (hact : s.act depth .transmit = some s') :
    ∃ p', p.act depth .drain = some p' ∧ s'.Shows p' := by
  cases hfifo : s.uart.txFifo with
  | nil => simp [act, hfifo] at hact
  | cons c behind =>
      rw [act, hfifo] at hact
      refine ⟨_, by rw [Polled.act, h.queue, hfifo], ?_⟩
      rw [← Option.some.inj hact]
      exact ⟨congrArg (· ++ [c]) h.out, rfl, h.senders, h.breaks⟩

theorem receive (h : s.Shows p) (hact : s.act depth (.receive c) = some s') : s'.Shows p := by
  rw [act] at hact
  split at hact
  · exact Option.some.inj hact ▸ ⟨h.out, h.queue, h.senders, h.breaks⟩
  · exact Option.some.inj hact ▸ h

/-- The thread that runs is the innermost sender. -/
theorem innermost (h : s.Shows p) (hthreads : s.threads = t :: below) :
    ∃ broken others, p.senders = ⟨t.todo, decide (t.point = .data), broken⟩ :: others ∧
      others.map (fun t => (t.rest, t.checked)) =
        below.map fun t => (t.todo, decide (t.point = .data)) := by
  have hsenders := h.senders
  rw [hthreads, List.map_cons] at hsenders
  obtain ⟨⟨rest, checked, broken⟩, others, hp, hfirst, hothers⟩ :=
    List.map_eq_cons_iff.mp hsenders
  obtain ⟨rfl, rfl⟩ := Prod.ext_iff.mp hfirst
  exact ⟨broken, others, hp, hothers⟩

theorem irq (h : s.Shows p) (hact : s.act depth (.irq text) = some s') :
    ∃ p', p.act depth (.enter (mark s.calls text)) = some p' ∧ s'.Shows p' := by
  rw [act] at hact
  rw [← Option.some.inj hact]
  cases hthreads : s.threads with
  | nil =>
      have hsenders := h.senders
      rw [hthreads, List.map_nil, List.map_eq_nil_iff] at hsenders
      refine ⟨{ p with senders := [.start (mark s.calls text)] }, ?_, h.out, h.queue,
        rfl, h.breaks⟩
      rw [Polled.act, hsenders]
  | cons t below =>
      obtain ⟨broken, others, hsenders, hothers⟩ := h.innermost hthreads
      refine ⟨_, by rw [Polled.act, hsenders], ?_⟩
      refine ⟨h.out, h.queue, congrArg (_ :: _ :: ·) hothers, ?_⟩
      simp [h.breaks]

theorem done (h : s.Shows p) (hact : s.act depth .done = some s') :
    ∃ p', p.act depth .leave = some p' ∧ s'.Shows p' := by
  cases hthreads : s.threads with
  | nil => simp [act, hthreads] at hact
  | cons t below =>
      obtain ⟨broken, others, hsenders, hothers⟩ := h.innermost hthreads
      obtain ⟨todo, point⟩ := t
      cases todo with
      | cons c todo => simp [act, hthreads] at hact
      | nil =>
          rw [act, hthreads] at hact
          rw [← Option.some.inj hact]
          refine ⟨_, by rw [Polled.act, hsenders], ?_⟩
          exact ⟨h.out, h.queue, hothers, h.breaks⟩

/-- A look, or a write. -/
theorem run (h : s.Shows p) (hact : s.act depth .run = some s') :
    ∃ p', p.act depth (if s.threads.head?.map Thread.point = some .data then .write else .look) =
      some p' ∧ s'.Shows p' := by
  cases hthreads : s.threads with
  | nil => simp [act, hthreads] at hact
  | cons t below =>
      obtain ⟨broken, others, hsenders, hothers⟩ := h.innermost hthreads
      obtain ⟨todo, point⟩ := t
      cases todo with
      | nil => simp [act, hthreads, uartSend] at hact
      | cons c todo =>
          cases point with
          | wait =>
              change ∃ p', p.act depth .look = some p' ∧ s'.Shows p'
              refine ⟨_, by rw [Polled.act, hsenders]; rfl, ?_⟩
              rw [act, hthreads] at hact
              by_cases hfull : depth ≤ s.uart.txFifo.length
              · simp only [uartSend, if_pos ((uFrReg_full depth s.uart).mpr hfull),
                  Option.map_some, Option.some.injEq] at hact
                rw [← hact]
                refine ⟨h.out, h.queue, ?_, h.breaks⟩
                simp [hothers, h.queue, hfull]
              · simp only [uartSend, if_neg (mt (uFrReg_full depth s.uart).mp hfull),
                  Option.map_some, Option.some.injEq] at hact
                rw [← hact]
                refine ⟨h.out, h.queue, ?_, h.breaks⟩
                simp [hothers, h.queue, Nat.lt_of_not_le hfull]
          | data =>
              change ∃ p', p.act depth .write = some p' ∧ s'.Shows p'
              refine ⟨_, by rw [Polled.act, hsenders]; rfl, ?_⟩
              rw [act, hthreads] at hact
              simp only [uartSend, Option.map_some, Option.some.injEq] at hact
              rw [← hact]
              unfold Controller.writeUDataReg
              by_cases hroom : s.uart.txFifo.length < depth
              · rw [if_pos hroom]
                refine ⟨h.out, ?_, congrArg (_ :: ·) hothers, h.breaks⟩
                simp [h.queue, hroom]
              · rw [if_neg hroom]
                refine ⟨h.out, ?_, congrArg (_ :: ·) hothers, h.breaks⟩
                simp [h.queue, hroom]

theorem todo (h : s.Shows p) : p.rests = s.todo := by
  have hrests : p.rests = (p.senders.map fun t => (t.rest, t.checked)).flatMap Prod.fst := by
    rw [Polled.rests, List.flatMap_map]
  rw [hrests, h.senders, List.flatMap_map, Console.todo]

/-- The innermost sender is the thread that runs. -/
theorem running (h : s.Shows p) (hsenders : p.senders = ⟨rest, checked, broken⟩ :: others) :
    ∃ below, s.threads = ⟨rest, if checked then .data else .wait⟩ :: below := by
  cases hthreads : s.threads with
  | nil =>
      have hmap := h.senders
      simp [hthreads, hsenders] at hmap
  | cons t below =>
      obtain ⟨broken', others', hsenders', -⟩ := h.innermost hthreads
      rw [hsenders, List.cons.injEq, Sender.mk.injEq] at hsenders'
      obtain ⟨⟨rfl, rfl, -⟩, -⟩ := hsenders'
      refine ⟨below, ?_⟩
      obtain ⟨todo, point⟩ := t
      cases point with
      | wait => rfl
      | data => rfl

theorem run_enabled (depth : Nat) (hthreads : s.threads = ⟨c :: rest, point⟩ :: below) :
    ∃ s', s.act depth .run = some s' := by
  have hsend : ∃ r, uartSend depth s.uart ⟨c :: rest, point⟩ = some r := by
    cases point with
    | data => exact ⟨_, rfl⟩
    | wait =>
        rw [uartSend]
        split_ifs
        · exact ⟨_, rfl⟩
        · exact ⟨_, rfl⟩
  obtain ⟨r, hr⟩ := hsend
  exact ⟨_, by rw [act, hthreads]; exact Option.map_eq_some_iff.mpr ⟨r, hr, rfl⟩⟩

/-- What the senders can do the console can do. -/
theorem enabled (h : s.Shows p) (hact : p.act depth e' = some p')
    (hnone : ∀ items, e' ≠ .enter items) :
    ∃ e s', Event.text e = none ∧ s.act depth e = some s' ∧ s'.Shows p' := by
  cases Polled.act_moves hact with
  | @drain a behind hqueue =>
      have hfifo : s.uart.txFifo = a :: behind := h.queue ▸ hqueue
      obtain ⟨s', hact'⟩ : ∃ s', s.act depth .transmit = some s' :=
        ⟨_, by rw [Console.act, hfifo]⟩
      obtain ⟨p'', hsame, h'⟩ := h.transmit hact'
      exact ⟨_, s', rfl, hact', Option.some.inj (hact.symm.trans hsame) ▸ h'⟩
  | look hsenders =>
      obtain ⟨below, hthreads⟩ := h.running hsenders
      obtain ⟨s', hact'⟩ := run_enabled depth hthreads
      obtain ⟨p'', hsame, h'⟩ := h.run hact'
      rw [hthreads] at hsame
      exact ⟨_, s', rfl, hact', Option.some.inj (hact.symm.trans hsame) ▸ h'⟩
  | accept hsenders | lose hsenders =>
      obtain ⟨below, hthreads⟩ := h.running hsenders
      obtain ⟨s', hact'⟩ := run_enabled depth hthreads
      obtain ⟨p'', hsame, h'⟩ := h.run hact'
      rw [hthreads] at hsame
      exact ⟨_, s', rfl, hact', Option.some.inj (hact.symm.trans hsame) ▸ h'⟩
  | first | enter => exact absurd rfl (hnone _)
  | @leave checked broken others hsenders =>
      obtain ⟨below, hthreads⟩ := h.running hsenders
      obtain ⟨s', hact'⟩ : ∃ s', s.act depth .done = some s' :=
        ⟨_, by rw [Console.act, hthreads]⟩
      obtain ⟨p'', hsame, h'⟩ := h.done hact'
      exact ⟨_, s', rfl, hact', Option.some.inj (hact.symm.trans hsame) ▸ h'⟩

/-- What the senders can come to without interrupts the console can come to. -/
theorem lift (h : s.Shows p) (hrun : p.run depth moves = some p')
    (hnone : ∀ items, .enter items ∉ moves) :
    ∃ events s', (∀ e ∈ events, Event.text e = none) ∧ s.run depth events = some s' ∧
      s'.Shows p' := by
  induction moves generalizing s p with
  | nil => exact ⟨[], s, by simp, rfl, Option.some.inj hrun ▸ h⟩
  | cons e' moves ih =>
      obtain ⟨p₁, hfirst, hrest⟩ := Option.bind_eq_some_iff.mp hrun
      obtain ⟨e, s₁, htext, hact, h₁⟩ :=
        h.enabled hfirst fun items heq => hnone items (heq ▸ List.mem_cons_self)
      obtain ⟨events, s', htexts, hrun', h'⟩ :=
        ih h₁ hrest fun items hmem => hnone items (List.mem_cons_of_mem _ hmem)
      refine ⟨e :: events, s', ?_, Option.bind_eq_some_iff.mpr ⟨s₁, hact, hrun'⟩, h'⟩
      intro e₁ hmem
      cases List.mem_cons.mp hmem with
      | inl heq => exact heq ▸ htext
      | inr hmem => exact htexts e₁ hmem

/-- Every event but the arrival of a character is one of the senders. -/
theorem act (h : s.Shows p) (hact : s.act depth e = some s') :
    match s.senderEvent e with
    | none => s'.Shows p
    | some e' => ∃ p', p.Moves depth e' p' ∧ s'.Shows p' := by
  cases e with
  | transmit =>
      obtain ⟨p', hmoves, h'⟩ := h.transmit hact
      exact ⟨p', Polled.act_moves hmoves, h'⟩
  | receive c => exact h.receive hact
  | run =>
      obtain ⟨p', hmoves, h'⟩ := h.run hact
      by_cases hpoint : s.threads.head?.map Thread.point = some .data
      · rw [if_pos hpoint] at hmoves
        simpa [senderEvent, hpoint] using ⟨p', Polled.act_moves hmoves, h'⟩
      · rw [if_neg hpoint] at hmoves
        simpa [senderEvent, hpoint] using ⟨p', Polled.act_moves hmoves, h'⟩
  | irq text =>
      obtain ⟨p', hmoves, h'⟩ := h.irq hact
      exact ⟨p', Polled.act_moves hmoves, h'⟩
  | done =>
      obtain ⟨p', hmoves, h'⟩ := h.done hact
      exact ⟨p', Polled.act_moves hmoves, h'⟩

end Shows

/-- Only an interrupt begins a call. -/
theorem act_kept (h : s.act depth e = some s') (htext : Event.text e = none) :
    s'.calls = s.calls ∧ s'.hits = s.hits := by
  cases e with
  | irq text => exact absurd htext (by simp [Event.text])
  | transmit =>
      simp only [act] at h
      split at h
      · exact absurd h (by simp)
      · exact Option.some.inj h ▸ ⟨rfl, rfl⟩
  | receive c =>
      simp only [act] at h
      split at h
      · exact Option.some.inj h ▸ ⟨rfl, rfl⟩
      · exact Option.some.inj h ▸ ⟨rfl, rfl⟩
  | run =>
      simp only [act] at h
      split at h
      · exact absurd h (by simp)
      · obtain ⟨r, _, rfl⟩ := Option.map_eq_some_iff.mp h
        exact ⟨rfl, rfl⟩
  | done =>
      simp only [act] at h
      split at h
      · exact Option.some.inj h ▸ ⟨rfl, rfl⟩
      · exact absurd h (by simp)

theorem act_calls (h : s.act depth e = some s') :
    s'.calls = s.calls + (Event.text e).toList.length := by
  cases htext : Event.text e with
  | none => exact (act_kept h htext).1
  | some text =>
      cases e with
      | irq text => exact Option.some.inj h ▸ rfl
      | transmit | receive | run | done => exact absurd htext (by simp [Event.text])

theorem run_hits (h : s.run depth events = some s') (hnone : ∀ e ∈ events, Event.text e = none) :
    s'.hits = s.hits := by
  induction events generalizing s with
  | nil => exact Option.some.inj h ▸ rfl
  | cons e events ih =>
      obtain ⟨s₁, hfirst, hrest⟩ := Option.bind_eq_some_iff.mp h
      rw [ih hrest fun e he => hnone e (List.mem_cons_of_mem _ he)]
      exact (act_kept hfirst (hnone e List.mem_cons_self)).2

/-- What the console owes to the calls so far, whose texts are `texts`, and what it has done
for them. -/
structure Accounts (depth : Nat) (held : List Marked) (texts : List (List Byte))
    (s : Console)
    (p : Polled Marked) : Prop where
  shows_ : s.Shows p
  sound : p.Sound depth
  delivery : p.out ++ p.queue = held ++ p.accepted
  calls : s.calls = texts.length
  order : ∀ k, (p.written ++ p.rests).filter (fun c => c.call = k) =
    mark k (texts.getD k [])

theorem filter_mark (k call : Nat) (text : List Byte) :
    (mark call text).filter (fun c => c.call = k) =
      if call = k then mark call text else [] := by
  split_ifs with h
  · apply List.filter_eq_self.mpr
    simp [mark, h]
  · apply List.filter_eq_nil_iff.mpr
    simp [mark, h]

namespace Accounts

theorem start {held : List Marked} (hheld : held.length ≤ depth) (text : List Byte) :
    Accounts depth held [text] (Console.start held text) (.start held (mark 0 text)) where
  shows_ := .start text
  sound := Polled.start_sound hheld
  delivery := by simp [Polled.start, Polled.accepted]
  calls := rfl
  order := by
    intro k
    have hrests : (Polled.start held (mark 0 text)).written ++
        (Polled.start held (mark 0 text)).rests = mark 0 text := by
      simp [Polled.start, Polled.written, Polled.rests, Sender.start]
    rw [hrests, filter_mark]
    cases k with
    | zero => rfl
    | succ k => rfl

theorem act (h : Accounts depth held texts s p) (hact : s.act depth e = some s') :
    ∃ p', Accounts depth held (texts ++ (Event.text e).toList) s' p' := by
  have hcalls : s'.calls = (texts ++ (Event.text e).toList).length := by
    rw [act_calls hact, h.calls, List.length_append]
  have hstep := h.shows_.act hact
  -- Without an interrupt no call begins.
  have hkept : ∀ e' p', Event.text e = none → p.Moves depth e' p' →
      (∀ items, e' ≠ .enter items) → s'.Shows p' →
      Accounts depth held (texts ++ (Event.text e).toList) s' p' := by
    intro e' p' htext hmoves hnone hshows
    refine ⟨hshows, h.sound.act hmoves, hmoves.delivery h.delivery, hcalls, fun k => ?_⟩
    rw [hmoves.order _ fun items heq => absurd heq (hnone items), h.order, htext]
    simp
  cases e with
  | receive c =>
      refine ⟨p, hstep, h.sound, h.delivery, hcalls, ?_⟩
      simpa [Event.text] using h.order
  | transmit =>
      obtain ⟨p', hmoves, hshows⟩ := hstep
      exact ⟨p', hkept _ p' rfl hmoves (by simp) hshows⟩
  | done =>
      obtain ⟨p', hmoves, hshows⟩ := hstep
      exact ⟨p', hkept _ p' rfl hmoves (by simp) hshows⟩
  | run =>
      rw [senderEvent] at hstep
      by_cases hpoint : s.threads.head?.map Thread.point = some .data
      · rw [if_pos hpoint] at hstep
        obtain ⟨p', hmoves, hshows⟩ := hstep
        exact ⟨p', hkept _ p' rfl hmoves (by simp) hshows⟩
      · rw [if_neg hpoint] at hstep
        obtain ⟨p', hmoves, hshows⟩ := hstep
        exact ⟨p', hkept _ p' rfl hmoves (by simp) hshows⟩
  | irq text =>
      obtain ⟨p', hmoves, hshows⟩ := hstep
      refine ⟨p', hshows, h.sound.act hmoves, hmoves.delivery h.delivery,
        hcalls, fun k => ?_⟩
      obtain ⟨hwritten, hrests⟩ := hmoves.enter_order
      have horder := h.order k
      rw [List.filter_append] at horder
      rw [hwritten, hrests, List.filter_append, List.filter_append, filter_mark, Event.text,
        Option.toList_some]
      by_cases hk : s.calls = k
      · have hnew : texts.getD k [] = [] := List.getD_eq_default _ _ (by rw [← hk, h.calls])
        have hthis : (texts ++ [text]).getD k [] = text := by
          rw [← hk, h.calls]
          simp
        rw [hnew] at horder
        obtain ⟨hnone, hnone'⟩ := List.append_eq_nil_iff.mp horder
        rw [if_pos hk, hthis, hnone, hnone', hk]
        simp
      · have hsame : (texts ++ [text]).getD k [] = texts.getD k [] := by
          cases Nat.lt_or_gt_of_ne hk with
          | inl hgt =>
              rw [h.calls] at hgt
              rw [List.getD_eq_default _ _ hgt.le,
                List.getD_eq_default _ _ (by simpa using hgt)]
          | inr hlt =>
              rw [h.calls] at hlt
              simp [List.getElem?_append_left hlt]
        rw [if_neg hk, hsame, List.nil_append]
        exact horder

theorem run (h : Accounts depth held texts s p) (hrun : s.run depth events = some s') :
    ∃ p', Accounts depth held (texts ++ events.filterMap Event.text) s' p' := by
  induction events generalizing s p texts with
  | nil =>
      refine ⟨p, ?_⟩
      rw [← Option.some.inj hrun]
      simpa using h
  | cons e events ih =>
      obtain ⟨s₁, hfirst, hrest⟩ := Option.bind_eq_some_iff.mp hrun
      obtain ⟨p₁, h₁⟩ := h.act hfirst
      obtain ⟨p', h'⟩ := ih h₁ hrest
      refine ⟨p', ?_⟩
      have htexts : (e :: events).filterMap Event.text =
          (Event.text e).toList ++ events.filterMap Event.text := by
        cases htext : Event.text e with
        | none => rw [List.filterMap_cons_none htext]; rfl
        | some text => rw [List.filterMap_cons_some htext]; rfl
      rw [htexts, ← List.append_assoc]
      exact h'

/-- Nothing has been dropped, and no one else has sent. -/
theorem settled (h : Accounts depth held [text] s p) (hhits : s.hits = 0) :
    s.uart.line ++ s.uart.txFifo ++ s.todo = held ++ mark 0 text := by
  have hlost : p.lost = [] := by
    have hcharged := h.sound.charged
    rw [h.shows_.breaks, hhits] at hcharged
    exact List.length_eq_zero_iff.mp (by omega)
  have hown : ∀ c ∈ p.written ++ p.rests, decide (c.call = 0) = true := by
    intro c hc
    have horder := h.order c.call
    cases hcall : c.call with
    | zero => rfl
    | succ k =>
        have hmem : c ∈ (p.written ++ p.rests).filter (fun c' => c'.call = c.call) :=
          List.mem_filter.mpr ⟨hc, by simp⟩
        rw [horder, hcall] at hmem
        exact absurd hmem (by simp [mark])
  have horder := h.order 0
  rw [List.filter_eq_self.mpr hown] at horder
  rw [← h.shows_.out, ← h.shows_.queue, h.delivery, Polled.accepted_eq_written hlost,
    List.append_assoc, ← h.shows_.todo, horder]
  rfl

end Accounts

/-- A call that is not interrupted, for every order of the steps of the driver and of the
controller: each character is once on the line, in the FIFO or still to come, and in order.
From wherever the call stands it can be finished, and then the terminal shows what `putchar`
was given. -/
theorem unnested_call (hdepth : 0 < depth) (hheld : held.length ≤ depth) (text : List Byte)
    (hnone : ∀ e ∈ events, Event.text e = none)
    (hrun : (start held (text.flatMap putchar)).run depth events = some s) :
    s.uart.line ++ s.uart.txFifo ++ s.todo = held ++ mark 0 (text.flatMap putchar) ∧
      ∃ events' s', (∀ e ∈ events', Event.text e = none) ∧ s.run depth events' = some s' ∧
        s'.threads = [] ∧ terminal ((s'.uart.line.drop held.length).map Marked.byte) = text := by
  have hbegin := Accounts.start hheld (text.flatMap putchar)
  have hsilent : ∀ events : List Event, (∀ e ∈ events, Event.text e = none) →
      events.filterMap Event.text = [] := fun _ h => List.filterMap_eq_nil_iff.mpr h
  obtain ⟨p, h⟩ := hbegin.run hrun
  rw [hsilent events hnone, List.append_nil] at h
  have hhits := run_hits hrun hnone
  refine ⟨h.settled hhits, ?_⟩
  obtain ⟨moves, p₁, hmoves, hrun₁, hsenders, hqueue⟩ := Polled.exists_finish hdepth p
  obtain ⟨events', s', hnone', hrun', hshows⟩ := h.shows_.lift hrun₁ hmoves
  obtain ⟨p', h'⟩ := h.run hrun'
  rw [hsilent events' hnone', List.append_nil] at h'
  have hthreads : s'.threads = [] := by
    have hmap := hshows.senders
    rw [hsenders, List.map_nil] at hmap
    exact List.map_eq_nil_iff.mp hmap.symm
  refine ⟨events', s', hnone', hrun', hthreads, ?_⟩
  have hline := h'.settled ((run_hits hrun' hnone').trans hhits)
  rw [← hshows.queue, hqueue, todo, hthreads, List.flatMap_nil, List.append_nil,
    List.append_nil] at hline
  rw [hline, List.drop_left, mark, List.map_map]
  exact (congrArg terminal (List.map_id _)).trans (terminal_putchar text)

/-- With room for one character, where the driver waits for it. -/
theorem unnested_call_waiting :
    let s : Console := ⟨⟨[], mark 0 [ch 'a'], []⟩, [⟨mark 0 [ch '\r', ch '\n'], .wait⟩], 1, 0⟩
    (start [] ([ch 'a', ch '\n'].flatMap putchar)).run 1 [.run, .run, .run] = some s ∧
      s.uart.line ++ s.uart.txFifo ++ s.todo = [] ++ mark 0 ([ch 'a', ch '\n'].flatMap putchar) ∧
      ∃ events' s', (∀ e ∈ events', Event.text e = none) ∧ s.run 1 events' = some s' ∧
        s'.threads = [] ∧
        terminal ((s'.uart.line.drop 0).map Marked.byte) = [ch 'a', ch '\n'] := by
  intro s
  have hrun : (start [] ([ch 'a', ch '\n'].flatMap putchar)).run 1 [.run, .run, .run] = some s :=
    rfl
  have hheld : ([] : List Marked).length ≤ 1 := Nat.zero_le 1
  exact ⟨hrun, unnested_call Nat.one_pos hheld [ch 'a', ch '\n'] (by simp [Event.text]) hrun⟩

end Console

end YiOS.Uart
