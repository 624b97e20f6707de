import Mathlib.Data.List.DropRight

/-!
Text made of lines, fields and decimal numbers: what is printed, what is read,
and that reading gives back what was printed (`int_decimal`, `lines_line`), also
of a text that has been cut off (`lines_take`). Texts are lists of characters.
-/
namespace NeslPru.Text

/-! ### Numbers -/

/-- The format `%lld`. -/
def decimal (x : Int) : List Char := if x < 0 then '-' :: Nat.toDigits 10 x.natAbs else Nat.toDigits 10 x.natAbs

def isSpace (c : Char) : Bool := [' ','\t','\n','\r','\x0b','\x0c'].contains c

def strip (s : List Char) : List Char := (s.dropWhile isSpace).rdropWhile isSpace

/-- Groups of digits with underscores between them. -/
def natural (s : List Char) : Option Nat :=
  let groups := s.splitOn '_'
  if groups.all fun g => !g.isEmpty && g.all Char.isDigit then some (Nat.ofDigitChars 10 groups.flatten 0) else none

/-- The number that a string stands for, with blanks around it allowed. The digits of
    other scripts, which Python reads too, are never printed by the host. -/
def int (s : List Char) : Option Int :=
  match strip s with
  | '-' :: s => (natural s).map fun n => -Int.ofNat n
  | '+' :: s => (natural s).map Int.ofNat
  | s => (natural s).map Int.ofNat

theorem dropWhile_blanks {blanks rest : List Char} (blank : ∀ c ∈ blanks, isSpace c = true)
    (front : ∀ c ∈ rest.head?, isSpace c = false) : (blanks ++ rest).dropWhile isSpace = rest := by
  rw [List.dropWhile_append_of_pos blank]
  cases rest with
  | nil => rfl
  | cons c rest => rw [List.dropWhile_cons_of_neg (by simp [front c rfl])]

theorem strip_blanks {before s after : List Char} (before_blank : ∀ c ∈ before, isSpace c = true)
    (after_blank : ∀ c ∈ after, isSpace c = true) (solid : ∀ c ∈ s, isSpace c = false) (nonempty : s ≠ []) :
    strip (before ++ s ++ after) = s := by
  have front : ∀ c ∈ (s ++ after).head?, isSpace c = false := by
    intro c first
    rw [List.head?_append_of_ne_nil _ nonempty] at first
    exact solid c (List.mem_of_mem_head? first)
  have back : ∀ c ∈ s.reverse.head?, isSpace c = false := by
    intro c last
    exact solid c (List.mem_reverse.mp (List.mem_of_mem_head? last))
  rw [strip,List.append_assoc,dropWhile_blanks before_blank front,List.rdropWhile,List.reverse_append,
    dropWhile_blanks (by simpa using after_blank) back,List.reverse_reverse]

theorem natural_toDigits (n : Nat) : natural (Nat.toDigits 10 n) = some n := by
  have one : (Nat.toDigits 10 n).splitOn '_' = [Nat.toDigits 10 n] :=
    List.splitOn_eq_singleton Nat.underscore_not_in_toDigits
  have digits : (Nat.toDigits 10 n).all Char.isDigit = true :=
    List.all_eq_true.mpr fun c member => Nat.isDigit_of_mem_toDigits (by decide) (by decide) member
  simp [natural,one,digits,Nat.toDigits_ne_nil]

/-- A number is written with digits and a sign. -/
theorem mem_decimal {x : Int} {c : Char} (member : c ∈ decimal x) : c = '-' ∨ c.isDigit = true := by
  unfold decimal at member
  split at member
  · rcases List.mem_cons.mp member with sign | digit
    · exact .inl sign
    · exact .inr (Nat.isDigit_of_mem_toDigits (by decide) (by decide) digit)
  · exact .inr (Nat.isDigit_of_mem_toDigits (by decide) (by decide) member)

theorem not_mem_decimal {x : Int} {c : Char} (sign : c ≠ '-') (other : c.isDigit = false) : c ∉ decimal x := by
  intro member
  rcases mem_decimal member with same | digit
  · exact sign same
  · rw [other] at digit
    cases digit

theorem decimal_ne_nil (x : Int) : decimal x ≠ [] := by
  unfold decimal
  split
  · simp
  · exact Nat.toDigits_ne_nil

/-- What was printed is read, whatever blanks are around it. -/
theorem int_decimal (x : Int) {before after : List Char} (before_blank : ∀ c ∈ before, isSpace c = true)
    (after_blank : ∀ c ∈ after, isSpace c = true) : int (before ++ decimal x ++ after) = some x := by
  have solid : ∀ c ∈ decimal x, isSpace c = false := by
    intro c member
    rw [Bool.eq_false_iff]
    intro blank
    have signs : c ≠ '-' ∧ c.isDigit = false := by
      have space : c ∈ [' ','\t','\n','\r','\x0b','\x0c'] := by simpa [isSpace] using blank
      simp only [List.mem_cons,List.not_mem_nil,or_false] at space
      rcases space with rfl | rfl | rfl | rfl | rfl | rfl <;> exact ⟨by decide,by decide⟩
    exact not_mem_decimal signs.1 signs.2 member
  rw [int,strip_blanks before_blank after_blank solid (decimal_ne_nil x)]
  by_cases negative : x < 0
  · simp only [decimal,negative,↓reduceIte,natural_toDigits,Option.map_some,Option.some.injEq]
    show -(x.natAbs : Int) = x
    omega
  · have digits : ∀ c ∈ Nat.toDigits 10 x.natAbs, c.isDigit = true :=
      fun c member => Nat.isDigit_of_mem_toDigits (by decide) (by decide) member
    rw [decimal,if_neg negative]
    split
    · rename_i s sign
      have minus := digits '-' (by rw [sign]; exact List.mem_cons_self)
      cases minus
    · rename_i s sign
      have plus := digits '+' (by rw [sign]; exact List.mem_cons_self)
      cases plus
    · rw [natural_toDigits,Option.map_some,Option.some.injEq]
      show (x.natAbs : Int) = x
      omega

/-! ### Lines -/

/-- The lines of a text, each with the newline that ends it. Python also ends a line
    at a carriage return, which the host never prints. -/
def lines : List Char → List (List Char)
  | [] => []
  | c :: rest =>
    if c = '\n' then [c] :: lines rest
    else match lines rest with
      | [] => [[c]]
      | line :: more => (c :: line) :: more

theorem lines_line {line : List Char} (inside : '\n' ∉ line) (rest : List Char) :
    lines (line ++ '\n' :: rest) = (line ++ ['\n']) :: lines rest := by
  induction line with
  | nil => simp [lines]
  | cons c line ih =>
    simp only [List.mem_cons,not_or] at inside
    simp [lines,Ne.symm inside.1,ih inside.2]

/-- A text without a newline is at most one line. -/
theorem lines_part {line : List Char} (inside : '\n' ∉ line) : (lines line).length ≤ 1 := by
  induction line with
  | nil => simp [lines]
  | cons c line ih =>
    simp only [List.mem_cons,not_or] at inside
    have one := ih inside.2
    simp only [lines,Ne.symm inside.1,if_false]
    split
    · simp
    · rename_i first more is
      rw [is] at one
      simpa using one

def unlines (ls : List (List Char)) : List Char := ls.flatMap (· ++ ['\n'])

theorem lines_unlines {ls : List (List Char)} (inside : ∀ l ∈ ls, '\n' ∉ l) : lines (unlines ls) = ls.map (· ++ ['\n']) := by
  induction ls with
  | nil => rfl
  | cons l rest ih =>
    obtain ⟨here,later⟩ := List.forall_mem_cons.mp inside
    simp only [unlines,List.flatMap_cons,List.append_assoc,List.singleton_append] at ih ⊢
    rw [lines_line here,ih later,List.map_cons]

/-- Of a text that has been cut off, the complete lines are left and at most a
    part of the next one. -/
theorem lines_take {ls : List (List Char)} (inside : ∀ l ∈ ls, '\n' ∉ l) (n : Nat) :
    ∃ k part, lines ((unlines ls).take n) = (ls.take k).map (· ++ ['\n']) ++ part ∧ k + part.length ≤ ls.length ∧
      part.length ≤ 1 := by
  induction ls generalizing n with
  | nil => exact ⟨0,[],by simp [unlines,lines],by simp,by simp⟩
  | cons l rest ih =>
    obtain ⟨here,later⟩ := List.forall_mem_cons.mp inside
    have first : unlines (l :: rest) = l ++ '\n' :: unlines rest := by simp [unlines]
    rw [first]
    by_cases short : n ≤ l.length
    · have cut : '\n' ∉ l.take n := fun member => here (List.mem_of_mem_take member)
      rw [List.take_append_of_le_length short]
      have one := lines_part cut
      exact ⟨0,lines (l.take n),by simp,by simp; omega,one⟩
    · obtain ⟨k,part,is,few,one⟩ := ih later (n - (l.length + 1))
      have long : n = l.length + (n - (l.length + 1) + 1) := by omega
      rw [long,List.take_length_add_append,List.take_succ_cons,lines_line here,is]
      exact ⟨k + 1,part,by simp,by simp; omega,one⟩

end NeslPru.Text
