import Mathlib.Init

/-!
Reading the timestamp of a capture event on the host, as in `host_qot.c`.
-/
namespace NeslPru.HostQot

structure ptp_clock_time where
  sec : Int64
  nsec : UInt32
deriving DecidableEq

structure ptp_extts_event where
  t : ptp_clock_time
  index : UInt32
deriving DecidableEq

/-- What `read` returns, and what it leaves in the event. -/
structure ReadResult where
  cnt : Int32
  event : ptp_extts_event
deriving DecidableEq

/-- `sizeof(struct ptp_extts_event)` -/
def sizeof_event : Int32 := 32

/-- The read returned an event in full. -/
def Full (result : ReadResult) : Prop := result.cnt = sizeof_event

instance (result : ReadResult) : Decidable (Full result) := inferInstanceAs (Decidable (_ = _))

/-- A read of `events`, of which `taken` have been read. One that will be full waits
    for the next event; another one may leave anything. -/
def read_event (outcome : ReadResult) (events : List ptp_extts_event) (taken : Nat) : Option (ReadResult × Nat) :=
  if Full outcome then events[taken]?.map fun event => (⟨sizeof_event,event⟩,taken + 1) else some (outcome,taken)

theorem read_event_full {outcome result : ReadResult} {events : List ptp_extts_event} {taken taken' : Nat} (full : Full outcome)
    (read : read_event outcome events taken = some (result,taken')) :
    ∃ event, events[taken]? = some event ∧ result = ⟨sizeof_event,event⟩ ∧ taken' = taken + 1 := by
  rw [read_event,if_pos full,Option.map_eq_some_iff] at read
  obtain ⟨event,here,same⟩ := read
  cases same
  exact ⟨event,here,rfl,rfl⟩

/-- The result, and what `*err` holds afterwards. -/
def qot_read_event_ts (result : ReadResult) (err : Int32) : UInt64 × Int32 :=
  if result.cnt ≠ sizeof_event then
    (0,-1)
  else
    let nano_ts := (result.event.t.sec * 1000000000).toUInt64
    let nano_ts := nano_ts + result.event.t.nsec.toUInt64
    (nano_ts,err)

/-- The time of an event in nanoseconds. -/
def nano_ts (event : ptp_extts_event) : UInt64 := (qot_read_event_ts ⟨sizeof_event,event⟩ 0).1

theorem qot_read_event_ts_full {result : ReadResult} (full : result.cnt = sizeof_event) (err : Int32) :
    qot_read_event_ts result err = (nano_ts result.event,err) := by
  simp [qot_read_event_ts,nano_ts,full]

end NeslPru.HostQot
