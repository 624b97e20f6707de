import Mathlib.Data.Nat.ModEq
import Mathlib.Data.List.Range

/-!
Values in consecutive cells of a cyclic store: a run of cells that may pass the
last cell and go on at the first (`window`), how it grows at its end and shrinks
at its start, and which writes leave it alone.
-/
namespace NeslPru.Cyclic

variable {α : Type} {cells cells' : Nat → α} {size start : Nat}

/-- The cell `i` places after `start`. -/
def slot (size start i : Nat) : Nat := (start + i) % size

/-- The values of the `length` cells from `start` on, in order. -/
def window (cells : Nat → α) (size start length : Nat) : List α :=
  (List.range length).map (fun i => cells (slot size start i))

@[simp] theorem length_window (length : Nat) : (window cells size start length).length = length := by
  simp [window]

@[simp] theorem window_zero : window cells size start 0 = [] := rfl

@[simp] theorem getElem_window {length i : Nat} (inside : i < (window cells size start length).length) :
    (window cells size start length)[i] = cells (slot size start i) := by
  simp [window]

theorem slot_mod (i : Nat) : slot size (start % size) i = slot size start i := by
  simp [slot]

theorem slot_slot (i j : Nat) : slot size (slot size start i) j = slot size start (i + j) := by
  simp [slot,Nat.add_assoc]

/-- Fewer than `size` steps apart, different steps reach different cells. -/
theorem slot_injective {i j : Nat} (same : slot size start i = slot size start j) (i_lt : i < size)
    (j_lt : j < size) : i = j := by
  have modEq : i ≡ j [MOD size] := Nat.ModEq.add_left_cancel' start same
  exact Nat.ModEq.eq_of_lt_of_lt modEq i_lt j_lt

/-- A window followed by the window after it is one window. -/
theorem window_append (m n : Nat) :
    window cells size start (m + n) = window cells size start m ++ window cells size (slot size start m) n := by
  simp only [window,List.range_add,List.map_append,List.map_map]
  congr 1
  apply List.map_congr_left
  intro i _
  simp [slot_slot]

/-- A window depends on its own cells only. -/
theorem window_congr {length : Nat} (same : ∀ i < length, cells (slot size start i) = cells' (slot size start i)) :
    window cells size start length = window cells' size start length := by
  apply List.map_congr_left
  intro i member
  exact same i (List.mem_range.mp member)

/-- A write outside a window leaves it alone. -/
theorem window_write {length j : Nat} (fits : length ≤ j) (j_lt : j < size)
    (other : ∀ k, k ≠ slot size start j → cells' k = cells k) :
    window cells' size start length = window cells size start length := by
  apply window_congr
  intro i i_lt
  apply other
  intro same
  have := slot_injective same (by omega) j_lt
  omega

theorem window_congr_start {start' length : Nat} (same : start % size = start' % size) :
    window cells size start length = window cells size start' length := by
  apply List.map_congr_left
  intro i _
  rw [← slot_mod,same,slot_mod]

theorem window_drop (m n : Nat) :
    window cells size (slot size start m) n = (window cells size start (m + n)).drop m := by
  rw [window_append]
  simp

/-- A window of cells that hold the values of a list is the list. -/
theorem window_eq {values : List α} (holds : ∀ i (inside : i < values.length), cells (slot size start i) = values[i]) :
    window cells size start values.length = values := by
  apply List.ext_getElem
  · simp
  · intro i _ inside
    simpa using holds i inside

end NeslPru.Cyclic
