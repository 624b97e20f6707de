import NeslPru.HostQot
import NeslPru.PruTime
import NeslPru.RbufferChannel

/-!
The synchronisation of `time_sync`: the main loop of the PRU, which asks the
host for a timestamp every fifth time, and the thread of the host that sends it
what `qot_read_event_ts` returns, also when that has failed.
-/
namespace NeslPru.TimeSync
open NeslPru.Access NeslPru.RelyGuarantee NeslPru.HostQot NeslPru.PruTime NeslPru.Rbuffer NeslPru.RbufferQueue
open NeslPru.RbufferAtomic NeslPru.RbufferChannel
set_option linter.unusedSimpArgs false

inductive Party where
  | pru
  | host
deriving DecidableEq

/-- `ring` is an access to the ring buffer of the host, `send` one to that of the PRU.
    A call of `adj_pru_time` is an access, so that it is recorded. -/
inductive Access where
  | iep_cnt
  | adj_pru_time (time : pru_time Nat) (ts_pru ts_host : u64)
  | assert_pin
  | deassert_pin
  | trig_intc (int_num : Nat)
  | halt
  | send (a : Rbuffer.Access)
  | read_event
  | ring (a : Rbuffer.Access)

@[reducible] def Access.Answer : Access → Type
  | .iep_cnt => Nat
  | .adj_pru_time _ _ _ => s64 × pru_time Nat × Nat
  | .assert_pin => Unit
  | .deassert_pin => Unit
  | .trig_intc _ => Unit
  | .halt => Unit
  | .send a => a.Answer
  | .read_event => ReadResult
  | .ring a => a.Answer

structure Locals where
  time : pru_time Nat
  status : Int16

inductive Block where
  | main
  | loop (l : Locals) (i : Nat)
  | poll (l : Locals) (i : Nat) (ts_pru : u64)
  | polled (l : Locals) (i : Nat) (ts_pru data : u64)
  | halted
  | event (err : Int32)
  | wrote (result : ReadResult) (nano_ts : u64) (err : Int32) (status : Int16)

open Prog (call)

def onRing {α : Type} (p : RingProg α) : Prog Access Access.Answer α := p.embed .ring (fun _ r => r)
def onSend {α : Type} (p : RingProg α) : Prog Access Access.Answer α := p.embed .send (fun _ r => r)

/-- The end of a pass: sending the time to the host. -/
def send_time (l : Locals) (i : Nat) : Prog Access Access.Answer Block := do
  let cc : Nat ← call Access.iep_cnt
  let (ts,time) := read_pru_time l.time cc
  let _ ← onSend (rbuf_write_uint64 ts)
  call (Access.trig_intc 3)
  return .loop { l with time := time } i

def main : Prog Access Access.Answer Block := do
  onSend init_rbuffer
  let iep_cnt : Nat ← call Access.iep_cnt
  let cc : Nat ← call Access.iep_cnt
  return .loop ⟨(init_pru_time 5 0 32 read_cc none (IEP_CNT iep_cnt) cc).2,-1⟩ 30

def send_pru_thread (err : Int32) : Prog Access Access.Answer Block := do
  let result : ReadResult ← call Access.read_event
  let (nano_ts,err) := qot_read_event_ts result err
  let status ← onRing (rbuf_write_uint64 nano_ts)
  return .wrote result nano_ts err status

/-- The loop of the PRU, cut before each pass and before and after each poll,
    and the loop of the host thread. -/
def body : Block → Prog Access Access.Answer Block
  | .main => main
  | .loop _ 0 => do
    call (Access.trig_intc 4)
    return .halted
  | .loop l (i + 1) =>
    if i % 5 = 0 then do
      let cc : Nat ← call Access.iep_cnt
      let (ts_pru,time) := read_pru_time l.time cc
      call Access.assert_pin
      call Access.deassert_pin
      return .poll { l with time := time } i ts_pru
    else send_time l i
  | .poll l i ts_pru => do
    let (data,status) ← onRing (rbuf_read_uint64 (some l.status))
    return .polled { l with status := status.getD l.status } i ts_pru data
  | .polled l i ts_pru data =>
    if l.status ≠ 0 then do
      let (data,status) ← onRing (rbuf_read_uint64 (some l.status))
      return .polled { l with status := status.getD l.status } i ts_pru data
    else do
      let (_,time,_) ← call (Access.adj_pru_time l.time ts_pru data)
      send_time { l with time := time } i
  | .halted => do
    call Access.halt
    return .halted
  | .event err => send_pru_thread err
  | .wrote _ _ err _ => send_pru_thread err

/-- A value that the host has written, and what it has read before. -/
structure Sent where
  result : ReadResult
  value : u64
deriving DecidableEq

/-- `reads` are the outcomes of all reads of an event, `sent` the writes to the
    ring buffer of the host that returned 0, `received` the values that the PRU has
    read from it with status 0, and `adjusted` those that it has passed to
    `adj_pru_time` as `ts_host`. -/
structure World where
  count : Nat
  rbuf : rbuffer
  reads : List ReadResult
  sent : List Sent
  received : List u64
  adjusted : List u64

/-- What the outside decides; of the ring buffer of the PRU nothing is assumed. -/
structure Input where
  elapsed : Nat
  result : ReadResult
  answers : (a : Rbuffer.Access) → a.Answer

def act : (a : Access) → Input → World → Option (a.Answer × World)
  | .iep_cnt, input, w => some (w.count + input.elapsed,{ w with count := w.count + input.elapsed })
  -- `slew_cc` is not set, so that the call does not depend on the counter.
  | .adj_pru_time time ts_pru ts_host, _, w =>
    some (adj_pru_time time ts_pru ts_host 0,{ w with adjusted := w.adjusted ++ [ts_host] })
  | .assert_pin, _, w => some ((),w)
  | .deassert_pin, _, w => some ((),w)
  | .trig_intc _, _, w => some ((),w)
  | .halt, _, w => some ((),w)
  | .send a, input, w => some (input.answers a,w)
  | .read_event, input, w => some (input.result,{ w with reads := w.reads ++ [input.result] })
  | .ring a, _, w => some ((memory a w.rbuf).1,{ w with rbuf := (memory a w.rbuf).2 })

def enter : Block → World → World
  | .polled l _ _ data, w => if l.status = 0 then { w with received := w.received ++ [data] } else w
  | .wrote result nano_ts _ status, w => if status = 0 then { w with sent := w.sent ++ [⟨result,nano_ts⟩] } else w
  | _, w => w

def system : System Access Access.Answer Block Input World where
  act := act
  body := body
  enter := enter
  starts := by
    intro b
    cases b with
    | loop l i =>
      cases i with
      | zero => rfl
      | succ i => simp only [body]; split <;> rfl
    | polled l i ts_pru data => simp only [body]; split <;> rfl
    | _ => rfl

def first : Party → Block
  | .pru => .main
  | .host => .event 0

def initial (m : rbuffer) : World := ⟨0,m,[],[],[],[]⟩

/-- Every adjustment is to the timestamp of an event that was read in full, and
    no failed read has been followed by a write. -/
structure Sound (w : World) : Prop where
  adjusted : ∀ ts_host ∈ w.adjusted, ∃ result ∈ w.reads, Full result ∧ ts_host = nano_ts result.event
  sent : ∀ s ∈ w.sent, Full s.result

variable {w w' : World}

/-- What has been sent and not yet been received is in the ring buffer, and is
    what `qot_read_event_ts` has returned for a read. -/
structure Inv (w : World) : Prop where
  carries : Carries w.rbuf (w.sent.map Sent.value) w.received
  adjusted : ∀ ts_host ∈ w.adjusted, ts_host ∈ w.received
  returned : ∀ s ∈ w.sent, s.result ∈ w.reads ∧ ∃ err, s.value = (qot_read_event_ts s.result err).1

/-- What the other party may do. -/
def Rely : Party → World → World → Prop
  | .pru, w, w' => w'.adjusted = w.adjusted ∧ w'.received = w.received ∧ Fills w.rbuf w'.rbuf
  | .host, w, w' => w'.sent = w.sent ∧ w'.reads = w.reads ∧ Drains w.rbuf w'.rbuf

/-- What the PRU knows at the start of a block. -/
def Knows : Block → World → Prop
  | .polled l _ _ data, w => l.status = 0 → data ∈ w.received
  | .event _, _ => False
  | .wrote _ _ _ _, _ => False
  | _, _ => True

def outline : Outline Party system where
  inv := Inv
  rely := Rely
  guar
    | .pru, _, w, w' => Rely .host w w'
    | .host, _, w, w' => Rely .pru w w'
  pre
    | .pru, b, w => Knows b w
    | .host, b, _ => ∃ err, body b = send_pru_thread err
  refl i w := by cases i <;> simp [Rely,fills_refl,drains_refl]
  trans i w w' w'' := by
    cases i
    · rintro ⟨adjusted,received,fills⟩ ⟨adjusted',received',fills'⟩
      exact ⟨adjusted'.trans adjusted,received'.trans received,fills_trans fills fills'⟩
    · rintro ⟨sent,reads,drains⟩ ⟨sent',reads',drains'⟩
      exact ⟨sent'.trans sent,reads'.trans reads,drains_trans drains drains'⟩
  compat {i j a w w'} other := by
    cases i <;> cases j
    · exact absurd rfl other
    · exact id
    · exact id
    · exact absurd rfl other

/-- The ring buffer of the host as a part of the world. -/
def component : Component system Rbuffer.Access.Answer rbuffer :=
  .of World.rbuf (fun w m => { w with rbuf := m }) (fun _ _ => rfl) Access.ring memory (fun _ _ _ => rfl)

/-! ### The PRU -/

/-- An access that changes at most the count. -/
def Quiet (w w' : World) : Prop := ∃ count, w' = { w with count := count }

theorem quiet_keeps (inv : Inv w) (quiet : Quiet w w') : Inv w' ∧ Rely .host w w' := by
  obtain ⟨count,rfl⟩ := quiet
  exact ⟨⟨inv.carries,inv.adjusted,inv.returned⟩,rfl,rfl,drains_refl _⟩

theorem sat_quiet {a : Access} {f : a.Answer → Prog Access Access.Answer Block}
    (quiet : ∀ {input w r t}, act a input w = some (r,t) → Quiet w t)
    (next : ∀ r t, system.settle (f r) t = t ∧ outline.Sat .pru (f r) t) : outline.Sat .pru (.access a f) w := by
  intro w₁ input r t _ (inv : Inv w₁) acted
  obtain ⟨settled,sat⟩ := next r t
  rw [settled]
  obtain ⟨inv',guar⟩ := quiet_keeps inv (quiet acted)
  exact ⟨inv',guar,sat⟩

theorem iep_cnt_quiet {input : Input} {r : Nat} (acted : act .iep_cnt input w = some (r,w')) : Quiet w w' := by
  cases acted
  exact ⟨_,rfl⟩

/-- Calls on the ring buffer of the PRU, of which nothing is assumed. -/
theorem sat_send {α : Type} {f : α → Prog Access Access.Answer Block} (p : RingProg α) (more : p.isAccess = true)
    (next : ∀ v t, system.settle (f v) t = t ∧ outline.Sat .pru (f v) t) : outline.Sat .pru (onSend p >>= f) w := by
  refine outline.sat_open (i := .pru) (fun _ => True) (fun _ _ _ _ _ => trivial) ?_ ?_ p more trivial
  · intro a input w r t _ inv acted
    cases acted
    exact ⟨trivial,inv,rfl,rfl,drains_refl _⟩
  · intro v a input w r t _ inv acted
    cases acted
    obtain ⟨settled,sat⟩ := next v w
    rw [settled]
    exact ⟨inv,⟨rfl,rfl,drains_refl _⟩,sat⟩

theorem send_time_sat {l : Locals} {i : Nat} : outline.Sat .pru (send_time l i) w := by
  refine sat_quiet iep_cnt_quiet (fun n t => ⟨rfl,?_⟩)
  refine sat_send _ rfl (fun _ t => ⟨rfl,?_⟩)
  refine sat_quiet ?_ (fun _ t => ⟨rfl,trivial⟩)
  intro input w r t acted
  cases acted
  exact ⟨_,rfl⟩

theorem main_sat : outline.Sat .pru main w := by
  refine sat_send _ rfl (fun _ t => ⟨rfl,?_⟩)
  refine sat_quiet iep_cnt_quiet (fun n t => ⟨rfl,?_⟩)
  exact sat_quiet iep_cnt_quiet (fun n t => ⟨rfl,trivial⟩)

theorem loop_sat {l : Locals} {i : Nat} : outline.Sat .pru (body (.loop l i)) w := by
  cases i with
  | zero =>
    refine sat_quiet ?_ (fun _ t => ⟨rfl,trivial⟩)
    intro input w r t acted
    cases acted
    exact ⟨_,rfl⟩
  | succ i =>
    simp only [body]
    split
    · refine sat_quiet iep_cnt_quiet (fun n t => ⟨rfl,?_⟩)
      refine sat_quiet ?_ (fun _ t => ⟨rfl,?_⟩)
      · intro input w r t acted
        cases acted
        exact ⟨_,rfl⟩
      · refine sat_quiet ?_ (fun _ t => ⟨rfl,trivial⟩)
        intro input w r t acted
        cases acted
        exact ⟨_,rfl⟩
    · exact send_time_sat

theorem poll_sat {l : Locals} {i : Nat} {ts_pru : u64} : outline.Sat .pru (body (.poll l i ts_pru)) w := by
  refine outline.sat_call component (fun _ => True) ?_ ?_ ?_ _ (rbuf_read_uint64_atomic (some l.status) w.rbuf) trivial
  · intro w w' _ relied inv
    exact ⟨trivial,relied.2.2,inv.carries.inBounds⟩
  · rintro a w m _ inv ⟨rfl,_⟩
    exact ⟨trivial,inv,rfl,rfl,drains_refl _⟩
  · rintro ⟨data,status⟩ a w m _ inv ⟨_,read⟩
    rcases carries_read inv.carries read with ⟨value,same,carries,drains⟩ | ⟨same,rfl,_⟩
    · cases same
      refine ⟨⟨carries,?_,inv.returned⟩,⟨rfl,rfl,drains⟩,fun _ => List.mem_append_right _ (List.mem_singleton_self _)⟩
      exact fun ts_host member => List.mem_append_left _ (inv.adjusted ts_host member)
    · cases same
      exact ⟨inv,⟨rfl,rfl,drains_refl _⟩,nofun⟩

/-- The PRU adjusts to what it has received. -/
theorem polled_sat {l : Locals} {i : Nat} {ts_pru data : u64} (received : l.status = 0 → data ∈ w.received) :
    outline.Sat .pru (body (.polled l i ts_pru data)) w := by
  by_cases again : l.status ≠ 0
  · simp only [body,if_pos again]
    exact poll_sat
  · simp only [body,if_neg again]
    intro w₁ input r t relied (inv : Inv w₁) acted
    cases acted
    have here : data ∈ w₁.received := by
      rw [relied.2.1]
      exact received (not_not.mp again)
    refine ⟨⟨inv.carries,?_,inv.returned⟩,⟨rfl,rfl,drains_refl _⟩,send_time_sat⟩
    intro ts_host member
    rcases List.mem_append.mp member with before | last
    · exact inv.adjusted ts_host before
    · obtain rfl := List.mem_singleton.mp last
      exact here

/-! ### The thread of the host -/

theorem host_sat {err : Int32} : outline.Sat .host (send_pru_thread err) w := by
  intro w₁ input result t _ (inv : Inv w₁) acted
  cases acted
  have returned : ∀ s ∈ w₁.sent, s.result ∈ w₁.reads ++ [input.result] ∧
      ∃ err, s.value = (qot_read_event_ts s.result err).1 := by
    intro s member
    obtain ⟨read,value⟩ := inv.returned s member
    exact ⟨List.mem_append_left _ read,value⟩
  refine ⟨⟨inv.carries,inv.adjusted,returned⟩,⟨rfl,rfl,fills_refl _⟩,?_⟩
  refine outline.sat_call component (fun w => input.result ∈ w.reads) ?_ ?_ ?_ _
    (rbuf_write_uint64_atomic (qot_read_event_ts input.result err).1 w₁.rbuf) (by simp [component])
  · intro w w' read relied inv
    exact ⟨by rw [relied.2.1]; exact read,relied.2.2,inv.carries.inBounds⟩
  · intro a w m read inv unseen
    exact ⟨read,⟨carries_unseen inv.carries unseen,inv.adjusted,inv.returned⟩,rfl,rfl,unseen_fills unseen⟩
  · rintro status a w m read inv ⟨_,wrote⟩
    rcases carries_wrote inv.carries wrote with ⟨rfl,carries,fills⟩ | ⟨rfl,rfl,_⟩
    · refine ⟨⟨?_,inv.adjusted,?_⟩,⟨rfl,rfl,fills⟩,_,rfl⟩
      · have more := carries
        rw [show [(qot_read_event_ts input.result err).1] =
          [Sent.mk input.result (qot_read_event_ts input.result err).1].map Sent.value from rfl,← List.map_append] at more
        exact more
      · intro s member
        rcases List.mem_append.mp member with before | last
        · exact inv.returned s before
        · obtain rfl := List.mem_singleton.mp last
          exact ⟨read,err,rfl⟩
    · exact ⟨inv,⟨rfl,rfl,fills_refl _⟩,_,rfl⟩

theorem bodies_proved : outline.Proved := by
  intro i b w _ knows
  cases i with
  | pru =>
    cases b with
    | main => exact main_sat
    | loop l i => exact loop_sat
    | poll l i ts_pru => exact poll_sat
    | polled l i ts_pru data => exact polled_sat knows
    | halted =>
      refine sat_quiet ?_ (fun _ t => ⟨rfl,trivial⟩)
      intro input w r t acted
      cases acted
      exact ⟨_,rfl⟩
    | event err => exact knows.elim
    | wrote result nano_ts err status => exact knows.elim
  | host =>
    obtain ⟨err,thread⟩ := knows
    show outline.Sat .host (body b) w
    rw [thread]
    exact host_sat

theorem run_inv (m : rbuffer) (schedule : List (Party × Input)) :
    Inv (system.run (system.start (initial (init_rbuffer.exec memory m).2) first) schedule).shared := by
  refine (outline.sound bodies_proved ⟨carries_fresh,by simp [initial],by simp [initial]⟩ ?_ schedule).inv
  intro i
  cases i with
  | pru => exact trivial
  | host => exact ⟨0,rfl⟩

/-- In every run in which every read of an event succeeds, the clock of the PRU
    is adjusted to timestamps of events only. -/
theorem adjusted_to_events (m : rbuffer) (schedule : List (Party × Input))
    (full : ∀ result ∈ (system.run (system.start (initial (init_rbuffer.exec memory m).2) first) schedule).shared.reads,
      Full result) :
    Sound (system.run (system.start (initial (init_rbuffer.exec memory m).2) first) schedule).shared := by
  have inv := run_inv m schedule
  generalize (system.run (system.start (initial (init_rbuffer.exec memory m).2) first) schedule).shared = w at full inv
  refine ⟨?_,fun s member => full _ (inv.returned s member).1⟩
  intro ts_host member
  obtain ⟨s,sent,same⟩ := List.mem_map.mp ((carries_isPrefix inv.carries).subset (inv.adjusted ts_host member))
  obtain ⟨read,err,value⟩ := inv.returned s sent
  refine ⟨s.result,read,full _ read,?_⟩
  rw [← same,value,qot_read_event_ts_full (full _ read)]

/-- A read with some outcome while the PRU waits for a timestamp, and a ring
    buffer to the host that is full. -/
def oneRead (cnt : Int32) : List (Party × Input) :=
  let input : Input := ⟨10,⟨cnt,⟨⟨7,50⟩,0⟩⟩,fun a => (memory a ⟨0,0,Vector.replicate RBUF_SIZE 0⟩).1⟩
  List.replicate 24 (.pru,input) ++ List.replicate 7 (.host,input) ++ List.replicate 7 (.pru,input)

theorem adjusted_to_event_at_7s :
    Sound (system.run (system.start (initial (init_rbuffer.exec memory fresh).2) first) (oneRead sizeof_event)).shared :=
  adjusted_to_events fresh (oneRead sizeof_event) (by decide +kernel)

/-- A read that fails adjusts the clock of the PRU to 0. -/
theorem failed_read_adjusts :
    (system.run (system.start (initial fresh) first) (oneRead (-1))).shared.adjusted = [0] ∧
      ¬ Sound (system.run (system.start (initial fresh) first) (oneRead (-1))).shared := by
  refine ⟨by decide +kernel,?_⟩
  intro sound
  have none_full : ∀ result ∈ (system.run (system.start (initial fresh) first) (oneRead (-1))).shared.reads,
      ¬ Full result := by decide +kernel
  obtain ⟨result,read,full,_⟩ := sound.adjusted 0 (by decide +kernel)
  exact none_full result read full

end NeslPru.TimeSync
