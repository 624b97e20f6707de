import Mathlib.Algebra.Group.Nat.Even
import Mathlib.Algebra.Order.Ring.Nat
import Mathlib.Tactic.Ring
import NeslPru.Access

/-!
Memory as bytes. Numbers stand in it with the low byte first; a number that has
been stored is loaded again, and a store or a fill changes only its own range.
-/
namespace NeslPru.Bytes
open NeslPru.Access

/-- The byte at each address. -/
abbrev Memory := Nat → UInt8

/-- The number in the `width` bytes from `address` on, low byte first. -/
def load (m : Memory) (address : Nat) : Nat → Nat
  | 0 => 0
  | width + 1 => (m address).toNat + 256 * load m (address + 1) width

/-- The address is in the `width` bytes from `start` on. -/
def Within (start width address : Nat) : Prop := start ≤ address ∧ address < start + width

instance (start width address : Nat) : Decidable (Within start width address) :=
  inferInstanceAs (Decidable (_ ∧ _))

def store (m : Memory) (start width value : Nat) : Memory := fun address =>
  if Within start width address then UInt8.ofNat (value / 256^(address - start)) else m address

def fill (m : Memory) (start width : Nat) (byte : UInt8) : Memory := fun address =>
  if Within start width address then byte else m address

variable {m m' : Memory} {start width address : Nat}

/-- A load sees its own bytes only. -/
theorem load_congr (same : ∀ k, Within address width k → m k = m' k) : load m address width = load m' address width := by
  induction width generalizing address with
  | zero => rfl
  | succ width ih =>
    have first : m address = m' address := same address ⟨le_refl _,by omega⟩
    have rest := @ih (address + 1) (fun k within => same k ⟨by have := within.1; omega,by have := within.2; omega⟩)
    simp only [load,first,rest]

theorem store_outside (value : Nat) (outside : ¬ Within start width address) :
    store m start width value address = m address := by
  rw [store,if_neg outside]

theorem fill_outside (byte : UInt8) (outside : ¬ Within start width address) :
    fill m start width byte address = m address := by
  rw [fill,if_neg outside]

theorem load_store (value : Nat) : load (store m start width value) start width = value % 256^width := by
  induction width generalizing start value m with
  | zero => simp [load,Nat.mod_one]
  | succ width ih =>
    have first : store m start (width + 1) value start = UInt8.ofNat value := by
      rw [store,if_pos ⟨le_refl _,by omega⟩]
      simp
    have rest : load (store m start (width + 1) value) (start + 1) width =
        load (store m (start + 1) width (value / 256)) (start + 1) width := by
      apply load_congr
      rintro k ⟨after,before⟩
      rw [store,store,if_pos ⟨by omega,by omega⟩,if_pos ⟨after,before⟩,Nat.div_div_eq_div_mul,← Nat.pow_succ',
        show (k - (start + 1)).succ = k - start from by omega]
    have digits : value % 256^(width + 1) = value % 256 + 256 * (value / 256 % 256^width) := by
      rw [Nat.pow_succ',Nat.mod_mul]
    rw [load,first,rest,ih,UInt8.toNat_ofNat',digits]

theorem load_fill_zero (within : ∀ k, Within address width k → Within start n k) :
    load (fill m start n 0) address width = 0 := by
  induction width generalizing address with
  | zero => rfl
  | succ width ih =>
    have first : fill m start n 0 address = 0 := if_pos (within address ⟨le_refl _,by omega⟩)
    have rest := @ih (address + 1) (fun k inside => within k ⟨by have := inside.1; omega,by have := inside.2; omega⟩)
    simp [load,first,rest]

/-! ### Loads and stores of a processor -/

inductive Access where
  | load (address width : Nat)
  | store (address width value : Nat)
  | fill (address width : Nat) (byte : UInt8)

@[reducible] def Access.Answer : Access → Type
  | .load _ _ => Nat
  | .store _ _ _ => Unit
  | .fill _ _ _ => Unit

def ram : (a : Access) → Memory → a.Answer × Memory
  | .load address width, m => (load m address width,m)
  | .store address width value, m => ((),store m address width value)
  | .fill address width byte, m => ((),fill m address width byte)

/-- The bytes that an access may change. -/
def Access.Touches : Access → Nat → Prop
  | .load _ _, _ => False
  | .store address width _, k => Within address width k
  | .fill address width _, k => Within address width k

theorem ram_frame (a : Access) {k : Nat} (other : ¬ a.Touches k) : (ram a m).2 k = m k := by
  cases a with
  | load address width => rfl
  | store address width value => exact store_outside value other
  | fill address width byte => exact fill_outside byte other

end NeslPru.Bytes
