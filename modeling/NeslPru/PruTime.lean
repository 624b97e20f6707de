import NeslPru.Counter
import NeslPru.Calls

/-!
The clock of `nesl_pru_time.h`: a 64-bit time that each reading moves on by the
counts of a hardware counter since the reading before. `σ` is the state of the
hardware at a call; the counter is read there, and `slew_cc` may change it.
-/
namespace NeslPru.PruTime

abbrev s64 := Int64
abbrev u64 := UInt64
abbrev u32 := UInt32
abbrev cycle_t := u64

def CLOCKSOURCE_MASK (bits : u32) : cycle_t := if bits < 64 then (1 <<< bits.toUInt64) - 1 else -1

structure cyclecounter (σ : Type) where
  read : σ → cycle_t
  mask : cycle_t
  mult : u32
  shift : u32

/-- `cc` is the counter that the pointer of the source leads to. -/
structure timecounter (σ : Type) where
  cc : cyclecounter σ
  cycle_last : cycle_t
  nsec : u64
  mask : u64
  frac : u64

structure pru_time (σ : Type) where
  tc : timecounter σ
  cc : cyclecounter σ
  slew_cc : Option (s64 → σ → Int32 × σ)

variable {σ : Type}

def timecounter_init (cc : cyclecounter σ) (start_tstamp : u64) (s : σ) : timecounter σ where
  cc := cc
  cycle_last := cc.read s
  nsec := start_tstamp
  mask := (1 <<< cc.shift.toUInt64) - 1
  frac := 0

def timecounter_adjtime (tc : timecounter σ) (delta : s64) : timecounter σ :=
  { tc with nsec := tc.nsec + delta.toUInt64 }

/-- The nanoseconds, and the new `*frac`. -/
def cyclecounter_cyc2ns (cc : cyclecounter σ) (cycles : cycle_t) (mask frac : u64) : u64 × u64 :=
  let ns := cycles
  let ns := ns * cc.mult.toUInt64 + frac
  (ns >>> cc.shift.toUInt64,ns &&& mask)

def timecounter_read_delta (tc : timecounter σ) (s : σ) : u64 × timecounter σ :=
  let cycle_now := tc.cc.read s
  let cycle_delta := (cycle_now - tc.cycle_last) &&& tc.cc.mask
  let (ns_offset,frac) := cyclecounter_cyc2ns tc.cc cycle_delta tc.mask tc.frac
  (ns_offset,{ tc with frac := frac, cycle_last := cycle_now })

def timecounter_read (tc : timecounter σ) (s : σ) : u64 × timecounter σ :=
  let (nsec,tc) := timecounter_read_delta tc s
  let nsec := nsec + tc.nsec
  (nsec,{ tc with nsec := nsec })

/-- `iep_cnt` is what `IEP_CNT` holds. -/
def init_pru_time (mult shift bits : u32) (read_cc : σ → cycle_t) (slew_cc : Option (s64 → σ → Int32 × σ))
    (iep_cnt : UInt32) (s : σ) : Int32 × pru_time σ :=
  let cc : cyclecounter σ := ⟨read_cc,CLOCKSOURCE_MASK bits,mult,shift⟩
  (0,⟨timecounter_init cc iep_cnt.toUInt64 s,cc,slew_cc⟩)

def read_pru_time (time : pru_time σ) (s : σ) : u64 × pru_time σ :=
  let (nsec,tc) := timecounter_read time.tc s
  (nsec,{ time with tc := tc })

/-- The difference as a signed number; the negation of the least one wraps. -/
def adj_delta (ts_pru ts_host : u64) : s64 :=
  if ts_host > ts_pru then
    (ts_host - ts_pru).toInt64
  else if ts_host < ts_pru then
    -(ts_pru - ts_host).toInt64
  else 0

def adj_pru_time (time : pru_time σ) (ts_pru ts_host : u64) (s : σ) : s64 × pru_time σ × σ :=
  let delta := adj_delta ts_pru ts_host
  match time.slew_cc with
  | none => (delta,{ time with tc := timecounter_adjtime time.tc delta },s)
  | some slew_cc =>
    let (slewed,s) := slew_cc delta s
    if slewed = 0 then (delta,{ time with tc := timecounter_adjtime time.tc delta },s) else (delta,time,s)

/-- The register at a true count. -/
def IEP_CNT (count : Nat) : UInt32 := UInt32.ofNat count

/-- The clock source of the programs, on hardware of which the true count is the state. -/
def read_cc (count : Nat) : cycle_t := (IEP_CNT count).toUInt64

/-- Either way the delta is the difference modulo 2^64. -/
theorem adj_delta_toUInt64 (ts_pru ts_host : u64) : (adj_delta ts_pru ts_host).toUInt64 = ts_host - ts_pru := by
  unfold adj_delta
  split
  · simp
  · split
    · simp
    · have same : ts_host = ts_pru := by
        rename_i not_more not_less
        exact UInt64.le_antisymm (UInt64.not_lt.mp not_more) (UInt64.not_lt.mp not_less)
      rw [same,UInt64.sub_self]
      rfl

end NeslPru.PruTime
