import Mathlib.Algebra.Order.Ring.Int
import NeslPru.ReportPairs
import NeslPru.Text

/-!
From the pulses to the statistics of `measure_time_sync`: the host prints its
lines to a file, and `stats.py` reads the differences from it. For threads that
stay in step it reads the differences of the pulses, in order, and nothing of
what follows a line that has been cut off (`stats_of_run`).
-/
namespace NeslPru.Stats
open NeslPru.ReportPairs NeslPru.Text

/-! ### The host -/

/-- `printf` of a row; `debug` says whether `DEBUG` is defined. -/
def printf (debug : Bool) (r : Row) : List Char :=
  if debug then
    decimal r.last_host_ts.toInt ++ [',',' '] ++ decimal r.last_pru_ts.toInt ++ [',',' '] ++
      decimal r.difference.toInt ++ ['\n']
  else decimal r.last_host_ts.toInt ++ [',',' '] ++ decimal r.last_pru_ts.toInt ++ ['\n']

def output (debug : Bool) (rows : List Row) : List Char := rows.flatMap (printf debug)

/-! ### The script -/

/-- What a pass of the loop appends to `diff`, or `none` where it fails. -/
def pass (line : List Char) : Option Int := do
  let t := line.splitOn ','
  let qot_ts ← int (← t[0]?)
  let pru_ts ← int (← t[1]?)
  return pru_ts - qot_ts

def diff (text : List Char) : Option (List Int) := (lines text).mapM pass

/-! ### Reading what was printed -/

/-- The fields of a row, as they are between the commas. -/
def fields (debug : Bool) (r : Row) (ending : List Char) : List (List Char) :=
  if debug then [decimal r.last_host_ts.toInt,' ' :: decimal r.last_pru_ts.toInt,
    ' ' :: decimal r.difference.toInt ++ ending]
  else [decimal r.last_host_ts.toInt,' ' :: decimal r.last_pru_ts.toInt ++ ending]

/-- A row without the newline. -/
def line (debug : Bool) (r : Row) : List Char := [','].intercalate (fields debug r [])

theorem printf_eq_line (debug : Bool) (r : Row) : printf debug r = line debug r ++ ['\n'] := by
  cases debug <;> simp [printf,line,fields,List.intercalate]

theorem printf_eq_intercalate (debug : Bool) (r : Row) : printf debug r = [','].intercalate (fields debug r ['\n']) := by
  cases debug <;> simp [printf,fields,List.intercalate]

theorem output_eq_unlines (debug : Bool) (rows : List Row) : output debug rows = unlines (rows.map (line debug)) := by
  rw [output,unlines,List.flatMap_map]
  exact congrArg rows.flatMap (funext (printf_eq_line debug))

theorem newline_not_mem_line (debug : Bool) (r : Row) : '\n' ∉ line debug r := by
  have newline : ∀ x, '\n' ∉ decimal x := fun x => not_mem_decimal (by decide) (by decide)
  cases debug <;> simp [line,fields,List.intercalate,newline]

theorem pass_printf (debug : Bool) (r : Row) :
    pass (line debug r ++ ['\n']) = some (r.last_pru_ts.toInt - r.last_host_ts.toInt) := by
  have comma : ∀ x, ',' ∉ decimal x := fun x => not_mem_decimal (by decide) (by decide)
  have split : (line debug r ++ ['\n']).splitOn ',' = fields debug r ['\n'] := by
    rw [← printf_eq_line,printf_eq_intercalate]
    apply List.splitOn_intercalate
    · cases debug <;> simp [fields,comma]
    · cases debug <;> simp [fields]
  have host : int (decimal r.last_host_ts.toInt) = some r.last_host_ts.toInt := by
    have read := @int_decimal r.last_host_ts.toInt [] [] (by simp) (by simp)
    simpa using read
  have pru : int (' ' :: decimal r.last_pru_ts.toInt) = some r.last_pru_ts.toInt := by
    have read := @int_decimal r.last_pru_ts.toInt [' '] [] (by simp [isSpace]) (by simp)
    simpa using read
  have pru_last : int (' ' :: decimal r.last_pru_ts.toInt ++ ['\n']) = some r.last_pru_ts.toInt :=
    @int_decimal r.last_pru_ts.toInt [' '] ['\n'] (by simp [isSpace]) (by simp [isSpace])
  unfold pass
  rw [split]
  cases debug
  · simp only [fields,Bool.false_eq_true,↓reduceIte,List.getElem?_cons_zero,List.getElem?_cons_succ,Option.bind_eq_bind,
      Option.bind_some,host,pru_last]
    rfl
  · simp only [fields,↓reduceIte,List.getElem?_cons_zero,List.getElem?_cons_succ,Option.bind_eq_bind,Option.bind_some,
      host,pru]
    rfl

/-- What the script should read. -/
def differences (rows : List Row) : List Int := rows.map fun r => r.last_pru_ts.toInt - r.last_host_ts.toInt

theorem pass_lines (debug : Bool) (rows : List Row) :
    ((rows.map (line debug)).map (· ++ ['\n'])).mapM pass = some (differences rows) := by
  induction rows with
  | nil => rfl
  | cons r rest ih =>
    simp only [List.map_cons,List.mapM_cons,pass_printf,ih]
    rfl

theorem inside_lines (debug : Bool) (rows : List Row) : ∀ l ∈ rows.map (line debug), '\n' ∉ l := by
  intro l member
  obtain ⟨r,-,rfl⟩ := List.mem_map.mp member
  exact newline_not_mem_line debug r

theorem diff_output (debug : Bool) (rows : List Row) : diff (output debug rows) = some (differences rows) := by
  rw [diff,output_eq_unlines,lines_unlines (inside_lines debug rows),pass_lines]

/-- From a file that has been cut off, the script reads right all but the last
    number, if it reads it at all. -/
theorem diff_take (debug : Bool) (rows : List Row) (n : Nat) {numbers : List Int}
    (read : diff ((output debug rows).take n) = some numbers) :
    numbers.dropLast <+: differences rows ∧ numbers.length ≤ rows.length := by
  obtain ⟨k,part,cut,few,one⟩ := lines_take (inside_lines debug rows) n
  rw [diff,output_eq_unlines,cut,List.mapM_append,← List.map_take,pass_lines] at read
  have prefix_differences : differences (rows.take k) <+: differences rows := (List.take_prefix k rows).map _
  have complete : (differences (rows.take k)).length ≤ k := by simp [differences]
  rw [List.length_map] at few
  match part,one with
  | [],_ =>
    obtain rfl : differences (rows.take k) = numbers := by simpa using read
    exact ⟨(List.dropLast_prefix _).trans prefix_differences,by simp [differences]⟩
  | [last],_ =>
    cases found : pass last with
    | none => simp [found] at read
    | some x =>
      obtain rfl : differences (rows.take k) ++ [x] = numbers := by simpa [found] using read
      simp only [List.dropLast_concat,List.length_append,List.length_singleton] at *
      exact ⟨prefix_differences,by omega⟩

/-! ### From the pulses on -/

/-- How late the PRU reports a pulse, from two times of 64 bits read as signed. -/
def Pulse.late (p : Pulse) : Int := p.pru_ts.toInt64.toInt - p.rising_ts.toInt64.toInt

/-- If neither thread is overtaken, the script reads from the host's output how
    late the PRU has reported each pulse, for the pulses that both threads have
    handled. The third column is the same, modulo 2^64. -/
theorem stats_of_run (debug : Bool) (pulses : Nat → Pulse) (schedule : List Move) (in_step : InStep schedule) :
    let rows := (run pulses schedule).printed.map Printed.row
    let late := (List.range (min (received schedule) (risen schedule))).map fun k => Pulse.late (pulses k)
    diff (output debug rows) = some late ∧
      (∀ n numbers, diff ((output debug rows).take n) = some numbers →
        numbers.dropLast <+: late ∧ numbers.length ≤ late.length) ∧
      rows.map (fun r => r.difference.toInt) = late.map (·.bmod (2^64)) := by
  intro rows late
  have printed := (@run_paired pulses schedule in_step).printed
  obtain ⟨reports,edges⟩ := run_counts pulses schedule
  have rises : (run pulses schedule).risen = risen schedule := by rw [World.risen,edges,risen]
  rw [reports,rises] at printed
  have rows_are : rows = (List.range (min (received schedule) (risen schedule))).map
      fun k => row (pulses k).rising_ts (pulses k).pru_ts := by
    simp only [rows,printed,pairs,List.map_map]
    rfl
  have right : differences rows = late := by
    rw [rows_are,differences,List.map_map]
    rfl
  refine ⟨by rw [← right]; exact diff_output debug rows,?_,?_⟩
  · intro n numbers read
    have cut := diff_take debug rows n read
    have length : late.length = rows.length := by
      rw [← right]
      exact List.length_map _
    rwa [right,← length] at cut
  · rw [rows_are,List.map_map,List.map_map]
    apply List.map_congr_left
    intro k _
    simp only [Function.comp_def,row,Pulse.late,UInt64.toInt64_sub,Int64.toInt_sub]

/-- Two pulses, of which the PRU reports the second one before its rising edge
    has been handled. -/
theorem stats_of_two :
    diff (output true ((run every_250_ms [.capture,.receive,.capture,.receive,.capture]).printed.map Printed.row)) =
      some [400,400] := by
  have none : InStep [] := fun before move started => by simp at started
  have one : InStep [.capture] := @inStep_concat [] .capture |>.mpr ⟨none,fun _ => by decide⟩
  have two : InStep [.capture,.receive] :=
    @inStep_concat [.capture] .receive |>.mpr ⟨one,by show risen [.capture] ≤ received [.capture] + 1; decide⟩
  have three : InStep [.capture,.receive,.capture] :=
    @inStep_concat [.capture,.receive] .capture |>.mpr ⟨two,fun even => absurd even (by decide)⟩
  have four : InStep [.capture,.receive,.capture,.receive] := by
    refine @inStep_concat [.capture,.receive,.capture] .receive |>.mpr ⟨three,?_⟩
    show risen [.capture,.receive,.capture] ≤ received [.capture,.receive,.capture] + 1
    decide
  have five : InStep [.capture,.receive,.capture,.receive,.capture] :=
    @inStep_concat [.capture,.receive,.capture,.receive] .capture |>.mpr ⟨four,fun _ => by decide⟩
  exact (stats_of_run true every_250_ms [.capture,.receive,.capture,.receive,.capture] five).1.trans (by decide)

end NeslPru.Stats
