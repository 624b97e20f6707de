import NeslPru.Alone
import Mathlib.Data.List.Basic

/-!
The analog-to-digital converter of `nesl_pru_adc.h` and the example `adc`: the
PRU sets the converter up, has it sample seven inputs, and copies what it finds
in the FIFO to the shared memory, from which the host prints it. The converter
takes its samples beside them, whenever it is enabled and has a step to do.
-/
namespace NeslPru.Adc
open NeslPru.Access

/-! ### The registers -/

inductive Reg where
  | SYSCFG
  | ADC_TSK_CLKCTL
  | IRQSTATUS
  | IRQENABLE_SET
  | CTRL
  | ADCRANGE
  | CLKDIV
  | STEPENABLE
  | STEPCONFIG (step : Nat)
  | STEPDELAY (step : Nat)
  | FIFO0COUNT
  | FIFO1COUNT
  | FIFO0DATA
  | FIFO1DATA
deriving DecidableEq

/-- A FIFO of the converter has room for 64 words. -/
structure Fifo where
  words : List UInt32
  fits : words.length ≤ 64

namespace Fifo

/-- A word for which there is no room is lost. -/
def push (f : Fifo) (word : UInt32) : Fifo := ⟨(f.words ++ [word]).take 64,List.length_take_le _ _⟩

def pop (f : Fifo) : Fifo := ⟨f.words.tail,by have := f.fits; simp only [List.length_tail]; omega⟩

end Fifo

/-- The registers that hold what they are given, and the two FIFOs. -/
structure Device where
  regs : Reg → UInt32
  fifo0 : Fifo
  fifo1 : Fifo

/-- Bit `i` of a register. -/
def bit (v : UInt32) (i : Nat) : Bool := v.toBitVec.getLsbD i

/-- A load of a data register takes a word out of its FIFO. -/
def Device.load (d : Device) : Reg → UInt32 × Device
  | .FIFO0COUNT => (UInt32.ofNat d.fifo0.words.length,d)
  | .FIFO1COUNT => (UInt32.ofNat d.fifo1.words.length,d)
  | .FIFO0DATA => (d.fifo0.words.headD 0,{ d with fifo0 := d.fifo0.pop })
  | .FIFO1DATA => (d.fifo1.words.headD 0,{ d with fifo1 := d.fifo1.pop })
  | r => (d.regs r,d)

/-- What a register holds after a store. A one clears its bit of `IRQSTATUS` and
    sets its bit of `IRQENABLE_SET`. The configuration of the steps is locked
    unless bit 2 of `CTRL` is set. -/
def Device.stored (d : Device) (v : UInt32) : Reg → UInt32
  | .IRQSTATUS => d.regs .IRQSTATUS &&& ~~~v
  | .IRQENABLE_SET => d.regs .IRQENABLE_SET ||| v
  | .STEPCONFIG step => if bit (d.regs .CTRL) 2 then v else d.regs (.STEPCONFIG step)
  | .STEPDELAY step => if bit (d.regs .CTRL) 2 then v else d.regs (.STEPDELAY step)
  | _ => v

def Device.store (d : Device) (r : Reg) (v : UInt32) : Device :=
  { d with regs := Function.update d.regs r (d.stored v r) }

/-- The step that the converter does next: the first one that is enabled. -/
def Device.next (d : Device) : Option Nat :=
  if bit (d.regs .CTRL) 0 then (List.range' 1 16).find? (bit (d.regs .STEPENABLE)) else none

/-- Twelve bits of data, and above them the four bits by which the converter knows
    a step. -/
def tagged (number data : UInt32) : UInt32 := (data &&& 0xfff) ||| ((number &&& (0xf : UInt32)) <<< (16 : UInt32))

/-- A sample goes to the FIFO of its step, tagged if bit 1 of `CTRL` is set. A step
    in one-shot mode is then disabled, and bit 1 of `IRQSTATUS` says that the
    sequence has ended. -/
def Device.convert (d : Device) (tag : Nat → UInt32) (step : Nat) (data : UInt32) : Device :=
  let config := d.regs (.STEPCONFIG step)
  let word := if bit (d.regs .CTRL) 1 then tagged (tag step) data else data &&& 0xfff
  let enabled := if bit config 0 then d.regs .STEPENABLE else d.regs .STEPENABLE &&& ~~~((1 : UInt32) <<< UInt32.ofNat step)
  let ended := (List.range' 1 16).all fun k => !bit enabled k
  { regs := Function.update (Function.update d.regs .STEPENABLE enabled) .IRQSTATUS
      (if ended then d.regs .IRQSTATUS ||| 2 else d.regs .IRQSTATUS)
    fifo0 := if bit config 26 then d.fifo0 else d.fifo0.push word
    fifo1 := if bit config 26 then d.fifo1.push word else d.fifo1 }

/-! ### The programs of the PRU -/

/-- `shared_mem` is an array of words. -/
inductive Io where
  | load (r : Reg)
  | store (r : Reg) (v : UInt32)
  | store_mem (i : Nat) (v : UInt32)

@[reducible] def Io.Answer : Io → Type
  | .load _ => UInt32
  | .store _ _ => Unit
  | .store_mem _ _ => Unit

abbrev Memory := Nat → UInt32

def io : (a : Io) → Device × Memory → a.Answer × (Device × Memory)
  | .load r, s => ((s.1.load r).1,((s.1.load r).2,s.2))
  | .store r v, s => ((),(s.1.store r v,s.2))
  | .store_mem i v, s => ((),(s.1,Function.update s.2 i v))

abbrev IoProg := Prog Io Io.Answer

open Prog (call)

def load (r : Reg) : IoProg UInt32 := call (Io.load r)
def store (r : Reg) (v : UInt32) : IoProg Unit := call (Io.store r v)

/-- `HWREG(r) &= v` and `HWREG(r) |= v` -/
def and_eq (r : Reg) (v : UInt32) : IoProg Unit := do store r ((← load r) &&& v)
def or_eq (r : Reg) (v : UInt32) : IoProg Unit := do store r ((← load r) ||| v)

def init_ocp : IoProg Unit := and_eq .SYSCFG (~~~((1 : UInt32) <<< 4))

/-- Software enabled, one shot, FIFO 0. -/
def stepconfig (channel average : UInt32) : UInt32 :=
  (0 : UInt32) ||| ((0 : UInt32) <<< 26) ||| (channel <<< 19) ||| (channel <<< 15) ||| (average <<< 2) ||| 0

/-- With a `sample_delay` of 0 the subtraction wraps. -/
def stepdelay (sample_delay open_delay : UInt32) : UInt32 := (0 : UInt32) ||| ((sample_delay - 1) <<< 24) ||| open_delay

/-- The steps and their channels; the last two are exchanged. -/
def steps : List (Nat × UInt32) := [(1,0),(2,1),(3,2),(4,3),(5,4),(6,6),(7,5)]

def configure : List (Nat × UInt32) → IoProg Unit
  | [] => return ()
  | (step,channel) :: rest => do
    store (.STEPCONFIG step) (stepconfig channel 0)
    store (.STEPDELAY step) (stepdelay 0 0)
    configure rest

/-- `for (i = 0; i < count; i++) data = HWREG(r);` -/
def drain (r : Reg) : Nat → IoProg Unit
  | 0 => return ()
  | count + 1 => do
    let _ ← load r
    drain r count

/-! `init_adc` in parts -/

def disable_steps : IoProg Unit := do
  let clock_divider := 1
  store .CLKDIV (clock_divider - 1)
  store .ADCRANGE (((0xfff : UInt32) <<< 16) &&& 0x000)
  and_eq .STEPENABLE (~~~0xff)
  or_eq .CTRL ((1 : UInt32) <<< 2)

def enable_interrupt : IoProg Unit := do
  or_eq .CTRL ((1 : UInt32) <<< 1)
  or_eq .IRQSTATUS ((1 : UInt32) <<< 1)
  or_eq .IRQENABLE_SET ((1 : UInt32) <<< 1)
  and_eq .CTRL (~~~((1 : UInt32) <<< 2))

def clear_fifos : IoProg Unit := do
  let count ← load .FIFO0COUNT
  drain .FIFO0DATA count.toNat
  let count ← load .FIFO1COUNT
  drain .FIFO1DATA count.toNat

def configure_adc : IoProg Unit := do
  disable_steps
  configure steps
  enable_interrupt
  clear_fifos
  or_eq .CTRL 1

def init_adc : IoProg Unit := do
  store .ADC_TSK_CLKCTL 0x02
  and_eq .CTRL (~~~0x01)
  configure_adc

def adc_start_sampling : IoProg Unit := store .STEPENABLE 0xfe
def read_adc_count : IoProg UInt32 := load .FIFO0COUNT
def read_adc_data : IoProg UInt32 := load .FIFO0DATA

def step_id (data : UInt32) : UInt32 := (data &&& 0x000f0000) >>> 16
def value (data : UInt32) : UInt32 := data &&& 0xfff

/-- The loop of the PRU's `main`, for the `count` samples from `i` on. -/
def copy : Nat → Nat → IoProg Unit
  | _, 0 => return ()
  | i, count + 1 => do
    let data ← read_adc_data
    call (Io.store_mem (i * 2) (step_id data))
    call (Io.store_mem (i * 2 + 1) (value data))
    copy (i + 1) count

/-- The PRU's `main`, from the end of `wait_for_adc` on. -/
def read_samples : IoProg Unit := do
  or_eq .IRQSTATUS ((1 : UInt32) <<< 1)
  let count ← read_adc_count
  copy 0 count.toNat

/-! ### The system -/

inductive Party where
  | host
  | pru
  | converter
deriving DecidableEq

inductive Access where
  | memset
  | exec_program
  | wait_event
  | load_mem (i : Nat)
  | idle
  | executed
  | io (a : Io)
  | trig_intc
  | halt
  | convert

@[reducible] def Access.Answer : Access → Type
  | .load_mem _ => UInt32
  | .io a => a.Answer
  | _ => Unit

inductive Block where
  | host
  | line (i : Nat) (step_id value : UInt32)
  | finished
  | pru
  | started
  | wait
  | copied
  | halted
  | converter

abbrev Code := Prog Access Access.Answer Block

def onIo {α : Type} (p : IoProg α) : Prog Access Access.Answer α := p.embed .io (fun _ r => r)

/-- One line of the host's output. -/
def print_line (i : Nat) : Code := do
  let step_id : UInt32 ← call (Access.load_mem (i * 2))
  let value : UInt32 ← call (Access.load_mem (i * 2 + 1))
  return .line i step_id value

/-- One pass of the loop of `wait_for_adc`. -/
def wait_for_adc : Code := do
  let status ← onIo (load .IRQSTATUS)
  if status &&& ((1 : UInt32) <<< 1) = 0 then return .wait
  else do
    onIo read_samples
    return .copied

def body : Block → Code
  | .host => do
    call Access.memset
    call Access.exec_program
    call Access.wait_event
    print_line 0
  | .line i _ _ =>
    if i + 1 < 7 then print_line (i + 1)
    else do
      call Access.idle
      return .finished
  | .finished => do
    call Access.idle
    return .finished
  | .pru => do
    call Access.executed
    onIo init_ocp
    onIo init_adc
    onIo adc_start_sampling
    return .started
  | .started | .wait => wait_for_adc
  | .copied => do
    call Access.trig_intc
    return .halted
  | .halted => do
    call Access.halt
    return .halted
  | .converter => do
    call Access.convert
    return .converter

/-- A sample with the step that has taken it and the configuration of the step. -/
structure Sample where
  step : Nat
  config : UInt32
  data : UInt32

/-- `converted` are the samples since the PRU has started the sampling, and
    `printed` are the numbers of the host's output. -/
structure World where
  io : Device × Memory
  exec : Bool
  event : Bool
  started : Bool
  converted : List Sample
  printed : List (UInt32 × UInt32)
  finished : Bool

-- By which number the converter knows a step.
variable (tag : Nat → UInt32)

/-- The converter takes a sample. -/
def World.convert (w : World) (step : Nat) (data : UInt32) : World :=
  let sample : Sample := ⟨step,w.io.1.regs (.STEPCONFIG step),data⟩
  { w with
    io := (w.io.1.convert tag step data,w.io.2)
    converted := if w.started then w.converted ++ [sample] else [] }

/-- The input of a step is what the converter measures if it is its turn. -/
def act : (a : Access) → UInt32 → World → Option (a.Answer × World)
  | .memset, _, w => some ((),{ w with io := (w.io.1,fun i => if i < 0x2000 / 4 then 0 else w.io.2 i) })
  | .exec_program, _, w => some ((),{ w with exec := true })
  | .wait_event, _, w => if w.event then some ((),w) else none
  | .load_mem i, _, w => some (w.io.2 i,w)
  | .idle, _, w => some ((),w)
  | .executed, _, w => if w.exec then some ((),w) else none
  | .io a, _, w => some ((io a w.io).1,{ w with io := (io a w.io).2 })
  | .trig_intc, _, w => some ((),{ w with event := true })
  | .halt, _, w => some ((),w)
  | .convert, data, w => w.io.1.next.map fun step => ((),w.convert tag step data)

def enter : Block → World → World
  | .line _ step_id value, w => { w with printed := w.printed ++ [(step_id,value)] }
  | .finished, w => { w with finished := true }
  | .started, w => { w with started := true }
  | _, w => w

def system : System Access Access.Answer Block UInt32 World where
  act := act tag
  body := body
  enter := enter
  starts := by
    intro b
    cases b with
    | line i step_id value => simp only [body]; split <;> rfl
    | _ => rfl

def first : Party → Block
  | .host => .host
  | .pru => .pru
  | .converter => .converter

def initial (d : Device) (m : Memory) : World := ⟨(d,m),false,false,false,[],[],false⟩

end NeslPru.Adc
