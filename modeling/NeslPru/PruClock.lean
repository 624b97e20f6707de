import NeslPru.HostQot
import NeslPru.PruTimeExact
import NeslPru.Rbuffer

/-!
The program `pru_clock`: the main loop of the PRU, which keeps a clock and sets
it to the time of the host once in a while, and the thread of the host that
sends it that time. `World` holds what both reach, and a record of what the PRU
has done (`History`).
-/
namespace NeslPru.PruClock
open NeslPru.Access NeslPru.HostQot NeslPru.PruTime NeslPru.Rbuffer

def SYNC_PERIOD_NS : u64 := 5000000000

inductive Party where
  | pru
  | host
deriving DecidableEq

inductive Access where
  | iep_cnt
  | assert_pin
  | deassert_pin
  | store_ts_mem (ts : u64)
  | read_event
  | ring (a : Rbuffer.Access)

/-- Reading the counter returns the true count, of which `read_cc` sees the low bits. -/
@[reducible] def Access.Answer : Access → Type
  | .iep_cnt => Nat
  | .assert_pin => Unit
  | .deassert_pin => Unit
  | .store_ts_mem _ => Unit
  | .read_event => ReadResult
  | .ring a => a.Answer

/-- The variables of the PRU's `main` that outlive a pass of the loop. -/
structure Locals where
  time : pru_time Nat
  last_ts : u64
  first : Bool
  status : Int16

inductive Block where
  | top (l : Locals)
  | test (l : Locals) (ts : u64)
  | pulse (l : Locals) (ts_pru : u64)
  | poll (l : Locals) (ts_pru : u64)
  | polled (l : Locals) (ts_pru data : u64)
  | adjusted (l : Locals) (ts_host : u64)
  | event
  | wrote (nano_ts : u64) (status : Int16)

open Prog (call)

/-- A program of the ring buffer header, run on the ring buffer to the PRU. -/
def onRing {α : Type} (p : RingProg α) : Prog Access Access.Answer α := p.embed .ring (fun _ r => r)

/-- The guard of a new round. -/
def starts (l : Locals) (ts : u64) : Bool := ts - l.last_ts > SYNC_PERIOD_NS || l.first

/-- Storing the time at the end of the loop. -/
def store_time (l : Locals) : Prog Access Access.Answer Block := do
  let cc : Nat ← call Access.iep_cnt
  let (ts,time) := read_pru_time l.time cc
  call (Access.store_ts_mem ts)
  return .top { l with time := time }

def send_pru_thread : Prog Access Access.Answer Block := do
  let result : ReadResult ← call Access.read_event
  let (nano_ts,_) := qot_read_event_ts result 0
  let status ← onRing (rbuf_write_uint64 nano_ts)
  return .wrote nano_ts status

/-- The loop of the PRU, cut before its guard, its pulse, and after each poll
    and each adjustment, and the loop of the host thread. -/
def body : Block → Prog Access Access.Answer Block
  | .top l => do
    let cc : Nat ← call Access.iep_cnt
    let (ts,time) := read_pru_time l.time cc
    return .test { l with time := time } ts
  | .test l ts =>
    if starts l ts then do
      let cc : Nat ← call Access.iep_cnt
      let (ts_pru,time) := read_pru_time l.time cc
      return .pulse { l with first := false, last_ts := ts, time := time } ts_pru
    else store_time l
  | .pulse l ts_pru => do
    call Access.assert_pin
    call Access.deassert_pin
    return .poll l ts_pru
  | .poll l ts_pru => do
    let (data,status) ← onRing (rbuf_read_uint64 (some l.status))
    return .polled { l with status := status.getD l.status } ts_pru data
  | .polled l ts_pru data => do
    let cc : Nat ← call Access.iep_cnt
    let (ts,time) := read_pru_time l.time cc
    call (Access.store_ts_mem ts)
    if l.status ≠ 0 then
      return .poll { l with time := time } ts_pru
    else
      let (_,time,_) := adj_pru_time time ts_pru data cc
      return .adjusted { l with time := time } data
  | .adjusted l _ => store_time l
  | .event => send_pru_thread
  | .wrote _ _ => send_pru_thread

/-- What the clock has been set to: a time, and the count at which it was right. -/
structure Setting where
  time : u64
  count : Nat

/-- The time that a setting gives to a count, at 5 ns a count. -/
def Setting.shown (s : Setting) (count : Nat) : u64 := UInt64.ofInt (s.time.toNat + 5 * ((count : Int) - s.count))

/-- A value stored for the host, the count at which it was read, and the number
    of adjustments before. -/
structure Store where
  value : u64
  count : Nat
  adjusted : Nat
deriving DecidableEq

/-- An evaluation of the guard after the first round: the counts at it and at
    the start of the round before, and the correction in between. -/
structure Guard where
  count : Nat
  started : Nat
  correction : Int
  ts : u64
  last_ts : u64
  starts : Bool
deriving DecidableEq

/-- The true count, and what the PRU has done so far: `init` is the setting by
    `init_pru_time`, `rounds` are those by `adj_pru_time`, `started` and
    `synced` are the counts of the readings `ts` and `ts_pru` of the last round. -/
structure History where
  count : Nat
  init : Setting
  rounds : List Setting
  started : Nat
  synced : Nat
  correction : Int
  stores : List Store
  guards : List Guard

/-- The setting that the clock runs on. -/
def History.current (h : History) : Setting := h.rounds.getLastD h.init

/-- `events` are those of all pulses, of which the host has read `taken`. What
    the host wrote with result 0 is in `sent` and else in `refused`. -/
structure World where
  pru : History
  rbuf : rbuffer
  events : List ptp_extts_event
  taken : Nat
  received : List u64
  sent : List u64
  refused : List u64

/-- What the outside decides: the counts since the last reading of the counter,
    how a read of an event ends, the event that a pulse is captured as, and what a
    ring buffer answers of which nothing is assumed. -/
structure Input where
  elapsed : Nat
  read : ReadResult
  event : ptp_extts_event
  answers : (a : Rbuffer.Access) → a.Answer

/-- The reading of the counter is fewer than `2^32` counts after the one before. -/
def Near (input : Input) : Prop := input.elapsed < 2^32

instance (input : Input) : Decidable (Near input) := inferInstanceAs (Decidable (_ < _))

/-- A read of an event is full. -/
def Reads (input : Input) : Prop := Full input.read

instance (input : Input) : Decidable (Reads input) := inferInstanceAs (Decidable (Full _))

/-- How the accesses to the ring buffer are answered. -/
abbrev RingAct := (a : Rbuffer.Access) → Input → rbuffer → a.Answer × rbuffer

/-- A pulse gives one event. -/
def act (ringAct : RingAct) : (a : Access) → Input → World → Option (a.Answer × World)
  | .iep_cnt, input, w => some (w.pru.count + input.elapsed,{ w with pru.count := w.pru.count + input.elapsed })
  | .assert_pin, input, w => some ((),{ w with events := w.events ++ [input.event] })
  | .deassert_pin, _, w => some ((),w)
  | .store_ts_mem ts, _, w =>
    some ((),{ w with pru.stores := w.pru.stores ++ [⟨ts,w.pru.count,w.pru.rounds.length⟩] })
  | .read_event, input, w =>
    (read_event input.read w.events w.taken).map fun (result,taken) => (result,{ w with taken := taken })
  | .ring a, input, w => some ((ringAct a input w.rbuf).1,{ w with rbuf := (ringAct a input w.rbuf).2 })

/-- What the entry of a block adds to the record of the PRU. -/
def record : Block → History → History
  | .test l ts, h =>
    { h with
      guards := if l.first then h.guards else
        h.guards ++ [⟨h.count,h.started,h.correction,ts,l.last_ts,starts l ts⟩]
      started := if starts l ts then h.count else h.started }
  | .pulse _ _, h => { h with synced := h.count }
  | .adjusted _ ts_host, h =>
    { h with
      correction := ts_host.toNat - (h.current.shown h.synced).toNat
      rounds := h.rounds ++ [⟨ts_host,h.synced⟩] }
  | _, h => h

def enter (b : Block) (w : World) : World :=
  match b with
  | .polled l _ data => if l.status = 0 then { w with received := w.received ++ [data] } else w
  | .wrote nano_ts status =>
    if status = 0 then { w with sent := w.sent ++ [nano_ts] } else { w with refused := w.refused ++ [nano_ts] }
  | b => { w with pru := record b w.pru }

def system (ringAct : RingAct) : System Access Access.Answer Block Input World where
  act := act ringAct
  body := body
  enter := enter
  starts := by
    intro b
    cases b with
    | test l ts => simp only [body]; split <;> rfl
    | _ => rfl

/-- The ring buffer in the memory that both share. -/
def shared : RingAct := fun a _ m => memory a m

/-- A ring buffer of which nothing is assumed. -/
def anything : RingAct := fun a input m => (input.answers a,m)

/-- The PRU after `init_pru_time`, which has read `iep_cnt` and then `count`. -/
def first (iep_cnt : UInt32) (count : Nat) : Party → Block
  | .pru => .top ⟨(init_pru_time 5 0 32 read_cc none iep_cnt count).2,0,true,-1⟩
  | .host => .event

/-- No round has been started and no event is pending. -/
def initial (iep_cnt : UInt32) (count : Nat) (m : rbuffer) : World where
  pru := ⟨count,⟨iep_cnt.toUInt64,count⟩,[],count,count,0,[],[]⟩
  rbuf := m
  events := []
  taken := 0
  received := []
  sent := []
  refused := []

end NeslPru.PruClock
