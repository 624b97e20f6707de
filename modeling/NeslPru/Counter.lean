import Mathlib.Algebra.Order.Ring.Int
import Mathlib.Data.Nat.ModEq
import Mathlib.Data.List.Chain

/-!
Time kept from a free-running counter of which only the low bits can be read.
The counts between two samples are the masked difference of what was read, as
long as the counter cannot come round in between (`Spaced`). Scaling them by
`mult / 2^shift` leaves a remainder that is carried to the next sample, so that
nothing is lost (`scaled_add`, `carry_add`).
-/
namespace NeslPru.Counter

/-- Sample `t` follows sample `s` before the counter has come round. -/
def Within (limit s t : Nat) : Prop := s ≤ t ∧ t < s + limit

instance (limit s t : Nat) : Decidable (Within limit s t) := inferInstanceAs (Decidable (_ ∧ _))

/-- Each sample follows the one before it before the counter has come round. -/
def Spaced (limit first : Nat) (samples : List Nat) : Prop := List.IsChain (Within limit) (first :: samples)

instance (limit first : Nat) (samples : List Nat) : Decidable (Spaced limit first samples) :=
  inferInstanceAs (Decidable (List.IsChain _ _))

theorem spaced_cons {limit first s : Nat} {samples : List Nat} :
    Spaced limit first (s :: samples) ↔ Within limit first s ∧ Spaced limit s samples :=
  List.isChain_cons_cons

/-- All the samples come after the first one. -/
theorem spaced_later {limit first s : Nat} {samples : List Nat} (spaced : Spaced limit first samples) (member : s ∈ samples) :
    first ≤ s := by
  induction samples generalizing first with
  | nil => cases member
  | cons t rest ih =>
    obtain ⟨within,spaced'⟩ := spaced_cons.mp spaced
    rcases List.mem_cons.mp member with same | member'
    · rw [same]
      exact within.1
    · exact within.1.trans (ih spaced' member')

/-- What was read differs by the counts in between. -/
theorem masked_difference {limit word s t : Nat} (divides : limit ∣ word) (positive : 0 < word) (within : Within limit s t) :
    (word - s % limit + t % limit) % word % limit = t - s := by
  obtain ⟨later,near⟩ := within
  obtain ⟨k,rfl⟩ := divides
  have small : s % limit < limit := Nat.mod_lt _ (by omega)
  have room : limit ≤ limit * k := Nat.le_mul_of_pos_right _ (Nat.pos_of_mul_pos_left positive)
  rw [Nat.mod_mul_right_mod]
  have sum : limit * k - s % limit + t % limit + s ≡ t - s + s [MOD limit] := by
    have split : limit * k - s % limit + t % limit + s = limit * k + t % limit + limit * (s / limit) := by
      have := Nat.mod_add_div s limit
      omega
    rw [split,Nat.sub_add_cancel later]
    simp [Nat.ModEq,Nat.add_mod]
  calc (limit * k - s % limit + t % limit) % limit = (t - s) % limit := Nat.ModEq.add_right_cancel' s sum
    _ = t - s := Nat.mod_eq_of_lt (by omega)

/-- The time that some counts take, and what the division leaves of it. -/
def scaled (mult shift counts : Nat) : Nat := mult * counts / 2^shift
def carry (mult shift counts : Nat) : Nat := mult * counts % 2^shift

theorem carry_lt (mult shift counts : Nat) : carry mult shift counts < 2^shift := Nat.mod_lt _ (Nat.two_pow_pos shift)

theorem carry_add (mult shift m n : Nat) : carry mult shift (m + n) = (n * mult + carry mult shift m) % 2^shift := by
  simp only [carry,Nat.mul_add,Nat.add_mod_mod]
  rw [Nat.mul_comm n,Nat.add_comm]

theorem scaled_add (mult shift m n : Nat) :
    scaled mult shift (m + n) = scaled mult shift m + (n * mult + carry mult shift m) / 2^shift := by
  have positive := Nat.two_pow_pos shift
  have split := Nat.div_add_mod (mult * m) (2^shift)
  have whole : mult * (m + n) = n * mult + carry mult shift m + 2^shift * scaled mult shift m := by
    simp only [carry,scaled,Nat.mul_add,Nat.mul_comm n]
    omega
  rw [scaled,whole,Nat.add_mul_div_left _ _ positive,Nat.add_comm]

/-- A clock that loses nothing: it started at count `origin`, and `offset` is
    where it started from and all that it has been set forward. -/
structure Exact where
  mult : Nat
  shift : Nat
  origin : Nat
  offset : Int

/-- The time at a count. -/
def Exact.time (e : Exact) (count : Nat) : Int := e.offset + scaled e.mult e.shift (count - e.origin)

/-- Setting the clock forward. -/
def Exact.adjust (e : Exact) (delta : Int) : Exact := { e with offset := e.offset + delta }

@[simp] theorem Exact.adjust_zero (e : Exact) : e.adjust 0 = e := by simp [adjust]

@[simp] theorem Exact.adjust_adjust (e : Exact) (first second : Int) :
    (e.adjust first).adjust second = e.adjust (first + second) := by
  simp [adjust,Int.add_assoc]

theorem Exact.adjust_time (e : Exact) (delta : Int) (count : Nat) :
    (e.adjust delta).time count = e.time count + delta := by
  simp only [time,adjust]
  omega

/-! ### Integers modulo `2^64` -/

theorem toNat_ofInt (x : Int) : ((UInt64.ofInt x).toNat : Int) = x % 2^64 := by
  have := Int.emod_lt_of_pos x (show (0 : Int) < 2^64 by decide)
  have := Int.emod_nonneg x (show (2^64 : Int) ≠ 0 by decide)
  rw [UInt64.ofInt,UInt64.toNat_ofNat']
  omega

theorem ofInt_toNat (x : UInt64) : UInt64.ofInt x.toNat = x := by
  have := x.toNat_lt
  have same := toNat_ofInt x.toNat
  exact UInt64.toNat_inj.mp (by omega)

theorem ofInt_natCast (n : Nat) : UInt64.ofInt n = UInt64.ofNat n := by
  have same := toNat_ofInt n
  apply UInt64.toNat_inj.mp
  rw [UInt64.toNat_ofNat']
  omega

theorem ofInt_sub (x y : Int) : UInt64.ofInt (x - y) = UInt64.ofInt x - UInt64.ofInt y := by
  rw [Int.sub_eq_add_neg,UInt64.ofInt_add,UInt64.ofInt_neg,UInt64.sub_eq_add_neg]

theorem ofInt_difference (x y : UInt64) : UInt64.ofInt (x.toNat - y.toNat) = x - y := by
  rw [ofInt_sub,ofInt_toNat,ofInt_toNat]

end NeslPru.Counter
