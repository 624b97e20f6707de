import NeslPru.Counter

/-!
The clock of `nesl_pru_iep.h`: the nanoseconds counted since the start, and a
signed offset to the time of another clock.
-/
namespace NeslPru.Iep
open NeslPru.Counter
set_option linter.unusedSimpArgs false

/-- The registers of the timer that the header writes. -/
structure iep_regs where
  IEP_REG : UInt32
  IEP_CNT : UInt32
deriving DecidableEq

def ENABLE_IEP_TMR (regs : iep_regs) : iep_regs := { regs with IEP_REG := regs.IEP_REG ||| 0x011 }
def DISABLE_IEP_TMR (regs : iep_regs) : iep_regs := { regs with IEP_REG := regs.IEP_REG &&& 0 }

/-- The product is one of 32 bits. -/
def IEP_CNT_TO_NS (count : UInt32) : UInt32 := count * 5

def UINT32_MAX : UInt32 := 0xffffffff

structure iep_time where
  ts_ns : UInt64
  last_iep_cnt : UInt32
  offset : Int64
deriving DecidableEq

def init_iep_time (regs : iep_regs) : iep_time × iep_regs :=
  let regs := DISABLE_IEP_TMR regs
  let regs := ENABLE_IEP_TMR regs
  let regs := { regs with IEP_CNT := 0 }
  (⟨0,0,0⟩,regs)

/-- `iep_cnt` is what `IEP_CNT` holds. -/
def iep_get_time (time : iep_time) (iep_cnt : UInt32) : UInt64 × iep_time :=
  let last_iep_cnt := time.last_iep_cnt
  let ts_ns := time.ts_ns
  let ts_ns :=
    if iep_cnt < last_iep_cnt then
      -- roll over happened
      ts_ns + (IEP_CNT_TO_NS ((UINT32_MAX - last_iep_cnt) + iep_cnt)).toUInt64
    else
      ts_ns + (IEP_CNT_TO_NS (iep_cnt - last_iep_cnt)).toUInt64
  (ts_ns + time.offset.toUInt64,{ time with last_iep_cnt := iep_cnt, ts_ns := ts_ns })

def iep_adj_time (time : iep_time) (ts_ns external_ts_ns : UInt64) : iep_time :=
  { time with offset := (time.offset.toUInt64 + (external_ts_ns - ts_ns)).toInt64 }

/-- The reading that a time stands for between two calls. -/
def iep_time.shown (time : iep_time) : UInt64 := time.ts_ns + time.offset.toUInt64

theorem iep_adj_time_shown (time : iep_time) (ts_ns external_ts_ns : UInt64) :
    (iep_adj_time time ts_ns external_ts_ns).shown = time.shown + (external_ts_ns - ts_ns) := by
  simp only [iep_time.shown,iep_adj_time,UInt64.toUInt64_toInt64,UInt64.add_assoc]

theorem toUInt64_eq_ofInt {x : UInt32} {k : Int} (same : (x.toNat : Int) = k) : x.toUInt64 = UInt64.ofInt k := by
  rw [← same]
  exact (ofInt_toNat x.toUInt64).symm

/-- Reads that are close enough miss one count whenever the counter has come round. -/
theorem iep_get_time_ts_ns {time : iep_time} {s t : Nat} (last : time.last_iep_cnt = UInt32.ofNat s)
    (within : Within 858993460 s t) :
    (iep_get_time time (UInt32.ofNat t)).2.ts_ns =
      time.ts_ns + UInt64.ofInt (5 * (t - s : Nat) - 5 * (t / 2^32 - s / 2^32 : Nat)) := by
  obtain ⟨later,near⟩ := within
  have s_is : (UInt32.ofNat s).toNat = s % 2^32 := UInt32.toNat_ofNat'
  have t_is : (UInt32.ofNat t).toNat = t % 2^32 := UInt32.toNat_ofNat'
  simp only [iep_get_time,last]
  split
  · rename_i rolled
    rw [UInt32.lt_iff_toNat_lt,s_is,t_is] at rolled
    have round : t / 2^32 - s / 2^32 = 1 := by omega
    have missed : ((UINT32_MAX - UInt32.ofNat s) + UInt32.ofNat t).toNat = t - s - 1 := by
      simp only [UINT32_MAX,UInt32.toNat_add,UInt32.toNat_sub,s_is,t_is,UInt32.toNat_ofNat]
      omega
    congr 1
    apply toUInt64_eq_ofInt
    simp only [IEP_CNT_TO_NS,UInt32.toNat_mul,missed,round,UInt32.toNat_ofNat]
    omega
  · rename_i straight
    rw [UInt32.lt_iff_toNat_lt,s_is,t_is] at straight
    have round : t / 2^32 - s / 2^32 = 0 := by omega
    have counted : (UInt32.ofNat t - UInt32.ofNat s).toNat = t - s := by
      simp only [UInt32.toNat_sub,s_is,t_is]
      omega
    congr 1
    apply toUInt64_eq_ofInt
    simp only [IEP_CNT_TO_NS,UInt32.toNat_mul,counted,round,UInt32.toNat_ofNat]
    omega

end NeslPru.Iep
