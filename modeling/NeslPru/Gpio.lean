import NeslPru.Access
import NeslPru.MeasureSync
import NeslPru.Signal

/-!
The examples `gpio` and `pwm`: programs of the PRU that move an output pin until an
input pin is asserted, and the host's `main`, which waits for their end. The output
register is kept with the cycles of `__delay_cycles`; the instructions in between
are not counted.
-/
namespace NeslPru.Gpio
open NeslPru.Access NeslPru.Signal
open NeslPru.MeasureSync (P8_45 P8_46)

/-! ### The pins -/

def P9_27 : UInt32 := (1 : UInt32) <<< 5
def P9_28 : UInt32 := (1 : UInt32) <<< 3

/-- The functions of `nesl_pru_gpio.h` on the registers. -/
def read_pin (r31 pin : UInt32) : UInt32 := r31 &&& pin
def toggle_pin (r30 pin : UInt32) : UInt32 := r30 ^^^ pin
def assert_pin (r30 pin : UInt32) : UInt32 := r30 ||| pin
def deassert_pin (r30 pin : UInt32) : UInt32 := r30 &&& ~~~pin

/-- What a program does with its output pins and its time. -/
inductive Out where
  | toggle_pin (pin : UInt32)
  | assert_pin (pin : UInt32)
  | deassert_pin (pin : UInt32)
  | delay_cycles (cycles : Nat)

@[reducible] def Out.Answer : Out → Type
  | _ => Unit

def device : (a : Out) → Output UInt32 → a.Answer × Output UInt32
  | .toggle_pin pin, o => ((),o.switch (toggle_pin o.level pin))
  | .assert_pin pin, o => ((),o.switch (assert_pin o.level pin))
  | .deassert_pin pin, o => ((),o.switch (deassert_pin o.level pin))
  | .delay_cycles cycles, o => ((),o.hold cycles)

abbrev OutProg := Prog Out Out.Answer

open Prog (call)

/-! ### The waits -/

/-- `n` passes of the loop of a wait. -/
def delays (cycles : Nat) : Nat → OutProg Unit
  | 0 => return ()
  | n + 1 => do
    call (Out.delay_cycles cycles)
    delays cycles n

/-- `WAIT_MS` and `WAIT_US` differ in the cycles of one unit, `once` where that is
    all and `each` where there are more. -/
def wait (once each : Nat) (t : UInt32) : OutProg Unit :=
  if t = 1 then
    call (Out.delay_cycles once)
  else if t > 0 then do
    delays each (t - 1).toNat
    call (Out.delay_cycles each)
  else return ()

def WAIT_MS : UInt32 → OutProg Unit := wait 199999 199993
def WAIT_US : UInt32 → OutProg Unit := wait 199 193

/-! ### The programs of the PRU -/

/-- A program that makes passes until an input pin is asserted. -/
structure Example where
  before : OutProg Unit
  stop : UInt32
  pass : OutProg Unit
  after : OutProg Unit

def pwm (pin period_us pulse_width_us : UInt32) : Example where
  before := return ()
  stop := P8_45
  pass := do
    call (Out.assert_pin pin)
    WAIT_US pulse_width_us
    call (Out.deassert_pin pin)
    WAIT_US (period_us - pulse_width_us)
  after := return ()

def blink (out stop : UInt32) : Example where
  before := do
    call (Out.assert_pin out)
    return ()
  stop := stop
  pass := do
    call (Out.toggle_pin out)
    WAIT_MS 500
  after := do
    call (Out.deassert_pin out)
    return ()

/-- The `main` of the example `gpio` on either PRU, and that of `pwm`. -/
def gpio_main (PRU_NUM : Nat) : Example := if PRU_NUM = 0 then blink P9_27 P9_28 else blink P8_46 P8_45
def pwm_main : Example := pwm P8_46 1000000 500000

/-! ### The system -/

inductive Party where
  | host
  | pru
deriving DecidableEq

/-- The calls whose results the host's `main` looks at. -/
inductive Call where
  | getuid
  | open_evtout_0

inductive Access where
  | result (f : Call)
  | exec_program
  | wait_evtout_0
  | printf
  | idle
  | executed
  | read_pin (pin : UInt32)
  | out (a : Out)
  | trig_intc (int_num : Nat)
  | halt

@[reducible] def Access.Answer : Access → Type
  | .result _ => Int32
  | .read_pin _ => UInt32
  | .out a => a.Answer
  | _ => Unit

inductive Block where
  | main
  | returned
  | pru
  | test
  | halted

abbrev Code := Prog Access Access.Answer Block

def onOut {α : Type} (p : OutProg α) : Prog Access Access.Answer α := p.embed .out (fun _ r => r)

/-- A call after whose failure `main` exits. -/
def check (f : Call) (next : Code) : Code := do
  let ret : Int32 ← call (Access.result f)
  if ret ≠ 0 then return .returned else next

/-- The host runs the program and waits for its end. -/
def main : Code :=
  check .getuid <| check .open_evtout_0 <| do
    call Access.exec_program
    call Access.wait_evtout_0
    call Access.printf
    return .returned

variable (e : Example)

/-- One evaluation of the guard, and the pass or the end after it. -/
def test : Code := do
  let pin : UInt32 ← call (Access.read_pin e.stop)
  if pin = 0 then do
    onOut e.pass
    return .test
  else do
    onOut e.after
    call (Access.trig_intc 3)
    return .halted

def body : Block → Code
  | .main => main
  | .returned => do
    call Access.idle
    return .returned
  | .pru => do
    call Access.executed
    onOut e.before
    return .test
  | .test => test e
  | .halted => do
    call Access.halt
    return .halted

/-- The output register from the start on, the interrupt, and whether the host has
    reported the end. -/
structure World where
  exec : Bool
  evtout_0 : Bool
  completed : Bool
  out : Output UInt32

/-- The result of a call, and what `__R31` holds. -/
structure Input where
  result : Int32
  r31 : UInt32

def act : (a : Access) → Input → World → Option (a.Answer × World)
  | .result _, input, w => some (input.result,w)
  | .exec_program, _, w => some ((),{ w with exec := true })
  | .wait_evtout_0, _, w => if w.evtout_0 then some ((),w) else none
  | .printf, _, w => some ((),{ w with completed := true })
  | .idle, _, w => some ((),w)
  | .executed, _, w => if w.exec then some ((),w) else none
  | .read_pin pin, input, w => some (read_pin input.r31 pin,w)
  | .out a, _, w => some ((device a w.out).1,{ w with out := (device a w.out).2 })
  | .trig_intc int_num, _, w => some ((),{ w with evtout_0 := w.evtout_0 || int_num = 3 })
  | .halt, _, w => some ((),w)

def system : System Access Access.Answer Block Input World where
  act := act
  body := body e
  enter _ w := w
  starts b := by cases b <;> rfl

def first : Party → Block
  | .host => .main
  | .pru => .pru

/-- Nothing has been started, and the output register holds anything. -/
def initial (r30 : UInt32) : World := ⟨false,false,false,⟨[],r30,0⟩⟩

end NeslPru.Gpio
