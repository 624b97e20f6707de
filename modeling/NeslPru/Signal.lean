import Mathlib.Data.List.Range

/-!
An output that is switched between levels and holds each of them for some cycles,
compared with a shape: the segments that it should go through.
-/
namespace NeslPru.Signal

variable {L : Type}

/-- A level, and the cycles that it is held for. -/
structure Segment (L : Type) where
  level : L
  cycles : Nat
deriving DecidableEq

/-- The segments that are over, and the level that has been held for `cycles` now. -/
structure Output (L : Type) where
  past : List (Segment L)
  level : L
  cycles : Nat

def Output.switch (o : Output L) (level : L) : Output L := ⟨o.past ++ [⟨o.level,o.cycles⟩],level,0⟩
def Output.hold (o : Output L) (cycles : Nat) : Output L := { o with cycles := o.cycles + cycles }

/-- The segment of the shape that the output is in. -/
def Output.now (shape : Nat → Segment L) (o : Output L) : Segment L := shape o.past.length

/-- The segments that are over are those of the shape, and the one it is in is not too long. -/
structure Follows (shape : Nat → Segment L) (o : Output L) : Prop where
  past : o.past = (List.range o.past.length).map shape
  level : o.level = (o.now shape).level
  cycles : o.cycles ≤ (o.now shape).cycles

/-- At the end of segment `n` of the shape. -/
structure Ends (shape : Nat → Segment L) (n : Nat) (o : Output L) : Prop where
  follows : Follows shape o
  segment : o.past.length = n
  spent : o.cycles = (o.now shape).cycles

variable {shape : Nat → Segment L} {o : Output L}

@[simp] theorem switch_length (level : L) : (o.switch level).past.length = o.past.length + 1 := by simp [Output.switch]
@[simp] theorem switch_cycles (level : L) : (o.switch level).cycles = 0 := rfl
@[simp] theorem hold_past (n : Nat) : (o.hold n).past = o.past := rfl
@[simp] theorem hold_cycles (n : Nat) : (o.hold n).cycles = o.cycles + n := rfl
@[simp] theorem hold_now (n : Nat) : (o.hold n).now shape = o.now shape := rfl
@[simp] theorem hold_zero : o.hold 0 = o := rfl

theorem hold_hold (m n : Nat) : (o.hold m).hold n = o.hold (m + n) := by
  simp [Output.hold,Nat.add_assoc]

theorem follows_start : Follows shape ⟨[],(shape 0).level,0⟩ := ⟨rfl,rfl,Nat.zero_le _⟩

theorem follows_hold {n : Nat} (follows : Follows shape o) (fits : o.cycles + n ≤ (o.now shape).cycles) :
    Follows shape (o.hold n) := ⟨follows.past,follows.level,fits⟩

/-- The segments that are over, once the output is switched at the end of one. -/
theorem switch_past (follows : Follows shape o) (spent : o.cycles = (o.now shape).cycles) (level : L) :
    (o.switch level).past = (List.range (o.past.length + 1)).map shape := by
  have here : (⟨o.level,o.cycles⟩ : Segment L) = shape o.past.length := by
    rw [follows.level,spent]
    rfl
  rw [List.range_succ,List.map_append,← follows.past,List.map_singleton,← here]
  rfl

theorem follows_switch {level : L} (follows : Follows shape o) (spent : o.cycles = (o.now shape).cycles)
    (next : level = (shape (o.past.length + 1)).level) : Follows shape (o.switch level) := by
  constructor
  · rw [switch_past follows spent,List.length_map,List.length_range]
  · rw [Output.now,switch_length]
    exact next
  · exact Nat.zero_le _

theorem Ends.level {n : Nat} (ends : Ends shape n o) : o.level = (shape n).level := by
  rw [ends.follows.level,Output.now,ends.segment]

end NeslPru.Signal
