import NeslPru.Access
import NeslPru.Cyclic
import Mathlib.Data.Vector.Basic

/-!
The ring buffer of `nesl_pru_rbuffer.h`. Each function is the program of its
loads and stores, in program order, so that it can be run alone (`Prog.exec`) or
beside the function calls of the other processor.
-/
namespace NeslPru.Rbuffer
open NeslPru.Access NeslPru.Cyclic

def RBUF_SIZE : Nat := 256
/-- The index is computed as an `int`, where nothing overflows, and every use of
    it is stored into or compared with a `uint16_t`. -/
def RBUF_IDX (i : Nat) : UInt16 := UInt16.ofNat (i % RBUF_SIZE)

structure rbuffer where
  c : UInt16
  p : UInt16
  buffer : Vector UInt32 RBUF_SIZE
deriving DecidableEq

/-- One load or store of a member of `struct rbuffer`; `memset` clears it all. -/
inductive Access where
  | load_c
  | load_p
  | load_buffer (i : UInt16)
  | store_c (value : UInt16)
  | store_p (value : UInt16)
  | store_buffer (i : UInt16) (value : UInt32)
  | memset
deriving DecidableEq

/-- What an access returns. -/
@[reducible] def Access.Answer : Access → Type
  | .load_c => UInt16
  | .load_p => UInt16
  | .load_buffer _ => UInt32
  | .store_c _ => Unit
  | .store_p _ => Unit
  | .store_buffer _ _ => Unit
  | .memset => Unit

/-- The value of `buffer[i]`. -/
def rbuffer.cell (m : rbuffer) (i : Nat) : UInt32 := m.buffer[i]?.getD 0

/-- The memory that holds a `struct rbuffer`. -/
def memory : (a : Access) → rbuffer → a.Answer × rbuffer
  | .load_c, m => (m.c,m)
  | .load_p, m => (m.p,m)
  | .load_buffer i, m => (m.cell i.toNat,m)
  | .store_c value, m => ((),{ m with c := value })
  | .store_p value, m => ((),{ m with p := value })
  | .store_buffer i value, m => ((),{ m with buffer := m.buffer.setIfInBounds i.toNat value })
  | .memset, _ => ((),⟨0,0,Vector.replicate RBUF_SIZE 0⟩)

/-- Programs over the accesses of one ring buffer. -/
abbrev RingProg := Prog Access Access.Answer

open Access (load_c load_p load_buffer store_c store_p store_buffer memset)
open Prog (call)

def init_rbuffer : RingProg Unit := do
  call memset
  call (store_c 0)
  call (store_p 1)

def rbuf_write_uint32 (data : UInt32) : RingProg Int16 := do
  let p ← call load_p
  let c ← call load_c
  if p ≠ c then
    call (store_buffer p data)
    call (store_p (RBUF_IDX (p.toNat + 1)))
    return 0
  else
    return -1

def rbuf_write_uint64 (data : UInt64) : RingProg Int16 := do
  let lower := data.toUInt32
  let upper := (data >>> 32).toUInt32
  let p ← call load_p
  let c ← call load_c
  if p ≠ c then
    let c ← call load_c
    if RBUF_IDX (p.toNat + 1) ≠ c then
      call (store_buffer p lower)
      call (store_buffer (RBUF_IDX (p.toNat + 1)) upper)
      call (store_p (RBUF_IDX (p.toNat + 2)))
      return 0
    else
      return -1
  else
    return -1

/-- A `short *` that may be `NULL`, and the effect of `if (status != NULL) *status = value`. -/
def setStatus (status : Option Int16) (value : Int16) : Option Int16 := status.map (fun _ => value)

def rbuf_read_uint32 (status : Option Int16) : RingProg (UInt32 × Option Int16) := do
  let c ← call load_c
  let c := RBUF_IDX (c.toNat + 1)
  let p ← call load_p
  if c ≠ p then
    let data ← call (load_buffer c)
    call (store_c c)
    return (data,setStatus status 0)
  else
    return (0,setStatus status (-1))

def rbuf_read_uint64 (status : Option Int16) : RingProg (UInt64 × Option Int16) := do
  let c ← call load_c
  let c := RBUF_IDX (c.toNat + 1)
  let p ← call load_p
  if c ≠ p then
    let p ← call load_p
    if RBUF_IDX (c.toNat + 1) ≠ p then
      let lower ← call (load_buffer c)
      let upper ← call (load_buffer (RBUF_IDX (c.toNat + 1)))
      let data := upper.toUInt64
      let data := data <<< 32
      let data := data ||| lower.toUInt64
      call (store_c (RBUF_IDX (c.toNat + 1)))
      return (data,setStatus status 0)
    else
      return (0,setStatus status (-1))
  else
    return (0,setStatus status (-1))

/-- With `NULL` for the status a read makes the same accesses and returns the same value. -/
theorem rbuf_read_uint32_null (status : Int16) :
    rbuf_read_uint32 none = rbuf_read_uint32 (some status) >>= fun r => pure (r.1,none) := by
  simp only [rbuf_read_uint32,Prog.call_bind,Prog.pure_eq,Prog.access_bind,setStatus]
  congr 1
  funext c
  congr 1
  funext p
  split
  · rfl
  · rfl

theorem rbuf_read_uint64_null (status : Int16) :
    rbuf_read_uint64 none = rbuf_read_uint64 (some status) >>= fun r => pure (r.1,none) := by
  simp only [rbuf_read_uint64,Prog.call_bind,Prog.pure_eq,Prog.access_bind,setStatus]
  congr 1
  funext c
  congr 1
  funext p
  split
  · simp only [Prog.access_bind]
    congr 1
    funext p
    split
    · rfl
    · rfl
  · rfl

end NeslPru.Rbuffer
