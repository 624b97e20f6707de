import NeslPru.Parts
import NeslPru.Projection
import NeslPru.PruClockProgram

/-!
What `pru_clock` prints, along every run of the whole program. The thread loads
the time in two halves while the PRU stores it in two halves, so that a line may
mix two of the times that are stored meanwhile (`outline`). The PRU and the thread
that sends are those of `PruClock` (`clock`), from which the times are those of a
clock that is set to the captured pulses.
-/
namespace NeslPru.PruClockPrints
open NeslPru.Access NeslPru.RelyGuarantee NeslPru.Projection NeslPru.Parts NeslPru.HostQot NeslPru.PruTime
open NeslPru.RbufferQueue NeslPru.PruClockProgram
open NeslPru.Rbuffer (rbuffer memory init_rbuffer)
open NeslPru.PruClock (Store Setting)
set_option linter.unusedSimpArgs false

variable {order : Order} {boot : Boot} {w w' t : World}

/-! ### The time in the shared memory -/

/-- The line joins a half of each of two times of its window. -/
def Mixed (times : List u64) (p : Print) : Prop :=
  ∃ xs : Half → UInt32, p.data = join (xs .lower) (xs .upper) ∧ ∀ h, Loaded half times p.first p.last h (xs h)

structure Inv (w : World) : Prop where
  running : w.stop = false ∧ w.evtout_1 = false
  waiting : w.exec = false → w.poll_thread = false ∧ w.send_thread = false ∧ w.times = [0] ∧ w.complete = 0
  keeps : w.exec = true → Keeps half w.times w.complete w.ts_mem
  printed : ∀ p ∈ w.prints, Mixed w.times p

/-- What the other parties may do. -/
def Rely : Party → World → World → Prop
  | .main, w, w' => w'.exec = w.exec ∧ (w.exec = false → w'.ts_mem = w.ts_mem ∧ w'.clock.rbuf = w.clock.rbuf)
  | .poll, w, w' => (w.exec = true → w'.exec = true) ∧ w.times <+: w'.times ∧ w.complete ≤ w'.complete ∧
      w'.first = w.first ∧ w'.last = w.last
  | .send, w, w' => w.exec = true → w'.exec = true
  | .pru, w, w' => w'.times = w.times ∧ w'.complete = w.complete ∧
      (w.exec = true → w'.exec = true ∧ w'.ts_mem = w.ts_mem)

/-- When an access is made. -/
def Knows : Access → World → Prop
  | .memset, w => w.exec = false
  | .init _, w => w.exec = false
  | .exec_program, w => w.exec = false ∧ w.clock.rbuf = fresh
  | .store_half _ _, w => w.exec = true
  | .clock _, w => w.exec = true
  | _, _ => True

/-- Between two stores. -/
def Rests (w : World) : Prop := w.exec = true ∧ w.times.length = w.complete + 1

/-- What a party knows at the start of a block. -/
def Pre (order : Order) : Party → Block → World → Prop
  | .main, .main, w => w.exec = false
  | .main, .started, _ => True
  | .main, .returned, _ => True
  | .poll, .poll_time_thread, _ => True
  | .poll, .loaded x, w => w.exec = true ∧ w.first ≤ w.complete ∧ Loaded half w.times w.first w.times.length order.loads x
  | .poll, .read data, w => w.exec = true ∧ Mixed w.times ⟨data,w.first,w.last⟩
  | .poll, .printed, w => w.exec = true
  | .poll, .returned, _ => True
  | .send, .send_pru_thread, _ => True
  | .send, .clock (.wrote _ _), w => w.exec = true
  | .send, .returned, _ => True
  | .pru, .pru, w => w.times.length = w.complete + 1
  | .pru, .clock _, w => Rests w
  | .pru, .storing ts _, w => w.exec = true ∧ w.times.length = w.complete + 2 ∧ w.times.getLast? = some ts ∧
      w.ts_mem order.stores = half order.stores ts
  | .pru, .stored _, w => Rests w
  | .pru, .returned, _ => True
  | _, _, _ => False

def outline (order : Order) (boot : Boot) : Outline Party (system order boot) where
  inv := Inv
  rely := Rely
  guar i a w w' := Knows a w ∧ ∀ j, j ≠ i → Rely j w w'
  pre := Pre order
  refl i w := by cases i <;> simp [Rely]
  trans i w w' w'' := by
    cases i
    · rintro ⟨exec,early⟩ ⟨exec',early'⟩
      refine ⟨exec'.trans exec,fun off => ?_⟩
      obtain ⟨mem,ring⟩ := early off
      obtain ⟨mem',ring'⟩ := early' (exec.trans off)
      exact ⟨mem'.trans mem,ring'.trans ring⟩
    · rintro ⟨exec,times,complete,first,last⟩ ⟨exec',times',complete',first',last'⟩
      exact ⟨exec' ∘ exec,times.trans times',complete.trans complete',first'.trans first,last'.trans last⟩
    · exact fun first second on => second (first on)
    · rintro ⟨times,complete,kept⟩ ⟨times',complete',kept'⟩
      refine ⟨times'.trans times,complete'.trans complete,fun on => ?_⟩
      obtain ⟨exec,mem⟩ := kept on
      obtain ⟨exec',mem'⟩ := kept' exec
      exact ⟨exec',mem'.trans mem⟩
  compat other := fun kept => kept.2 _ (Ne.symm other)

theorem not_off (on : w.exec = true) : ¬ w.exec = false := by simp [on]

/-- Nothing changes that the parties rely on; the ring buffer may once the PRU runs. -/
theorem rely_same (exec : w'.exec = w.exec) (ts_mem : w'.ts_mem = w.ts_mem) (times : w'.times = w.times)
    (complete : w'.complete = w.complete) (window : w'.first = w.first ∧ w'.last = w.last)
    (ring : w.exec = false → w'.clock.rbuf = w.clock.rbuf) (j : Party) : Rely j w w' := by
  cases j with
  | main => exact ⟨exec,fun off => ⟨ts_mem,ring off⟩⟩
  | poll =>
    refine ⟨exec.trans,?_,Nat.le_of_eq complete.symm,window⟩
    rw [times]
  | send => exact exec.trans
  | pru => exact ⟨times,complete,fun on => ⟨exec.trans on,ts_mem⟩⟩

/-- Which threads there are and what has been printed does not matter to the parties. -/
theorem rely_flags (w : World) (poll_thread send_thread : Bool) (prints : List Print) (j : Party) :
    Rely j w { w with poll_thread := poll_thread, send_thread := send_thread, prints := prints } := by
  apply rely_same
  case window => exact ⟨rfl,rfl⟩
  case ring => exact fun _ => rfl
  all_goals rfl

/-- Only the clock changes, and no time is stored. -/
def Aside (w w' : World) : Prop := ∃ clock, w' = { w with clock := clock } ∧ clock.pru.stores = w.clock.pru.stores

theorem aside_refl (w : World) : Aside w w := ⟨w.clock,rfl,rfl⟩

theorem aside_trans {w'' : World} (first : Aside w w') (second : Aside w' w'') : Aside w w'' := by
  obtain ⟨_,rfl,same⟩ := first
  obtain ⟨clock,rfl,same'⟩ := second
  exact ⟨clock,rfl,same'.trans same⟩

theorem aside_times (aside : Aside w w') : w'.times = w.times := by
  obtain ⟨clock,rfl,same⟩ := aside
  simp only [World.times,same]

theorem aside_keeps (inv : Inv w) (on : w.exec = true) (aside : Aside w w') : Inv w' ∧ ∀ j, Rely j w w' := by
  have times := aside_times aside
  obtain ⟨clock,rfl,_⟩ := aside
  constructor
  · refine ⟨inv.running,fun off => absurd off (not_off on),fun _ => ?_,?_⟩
    · rw [times]
      exact inv.keeps on
    · rw [times]
      exact inv.printed
  · exact rely_same rfl rfl times rfl ⟨rfl,rfl⟩ (fun off => absurd off (not_off on))

/-- Every access of `PruClock` but a store of the time. -/
theorem clock_aside {a : PruClock.Access} {input : Input} {r : a.Answer} (other : ∀ ts, a ≠ .store_ts_mem ts)
    (acted : act boot (.clock a) input w = some (r,t)) : Aside w t := by
  simp only [act] at acted
  cases made : PruClock.act PruClock.shared a input.clock w.clock with
  | none => simp [made] at acted
  | some answer =>
    rw [made] at acted
    cases acted
    refine ⟨answer.2,rfl,?_⟩
    cases a with
    | store_ts_mem ts => exact absurd rfl (other ts)
    | read_event =>
      obtain ⟨_,_,same⟩ := Option.map_eq_some_iff.mp made
      cases same
      rfl
    | iep_cnt | assert_pin | deassert_pin | ring a =>
      cases made
      rfl

theorem enter_stores (b : PruClock.Block) (clock : PruClock.World) :
    (PruClock.enter b clock).pru.stores = clock.pru.stores := by
  rw [PruClockTime.enter_pru]
  cases b <;> rfl

theorem settle_aside (p : ClockCode) (w : World) : Aside w ((system order boot).settle (split order p) w) := by
  cases p with
  | ret b => exact ⟨PruClock.enter b w.clock,rfl,enter_stores b w.clock⟩
  | access a next => cases a <;> exact aside_refl w

/-! ### The PRU and the thread that sends -/

/-- A program of `PruClock`, of which the stores are dealt with apart. -/
theorem split_sat {i : Party} {K : World → Prop} {Q : PruClock.Access → Prop} {P : PruClock.Block → Prop}
    (stable : ∀ {w w'}, K w → Rely i w w' → K w') (on : ∀ {w}, K w → w.exec = true)
    (asides : ∀ {w w'}, K w → Aside w w' → K w') (ends : ∀ b w, P b → K w → Pre order i (.clock b) w)
    (stores : ∀ ts next w, Q (.store_ts_mem ts) → K w →
      (outline order boot).Sat i (split order (.access (.store_ts_mem ts) next)) w)
    {p : ClockCode} (only : p.Only Q P) (more : p.isAccess = true) (knows : K w) :
    (outline order boot).Sat i (split order p) w := by
  induction p generalizing w with
  | ret b => simp [Prog.isAccess] at more
  | access a next ih =>
    obtain ⟨allowed,later⟩ := only
    by_cases store : ∃ ts, a = .store_ts_mem ts
    · obtain ⟨ts,rfl⟩ := store
      exact stores ts next w allowed knows
    · have shape : split order (.access a next) = .access (.clock a) fun r => split order (next r) := by
        cases a with
        | store_ts_mem ts => exact absurd ⟨ts,rfl⟩ store
        | _ => rfl
      rw [shape]
      intro w₁ input r t relied (inv : Inv w₁) acted
      have knows₁ := stable knows relied
      have here : Aside w₁ t := clock_aside (fun ts same => store ⟨ts,same⟩)
        (show act boot (.clock a) input w₁ = some (r,t) from acted)
      have settled : Aside t ((system order boot).settle (split order (next r)) t) := settle_aside (next r) t
      obtain ⟨inv',others⟩ := aside_keeps inv (on knows₁) (aside_trans here settled)
      refine ⟨inv',⟨on knows₁,fun j _ => others j⟩,?_⟩
      have knows_t := asides knows₁ here
      show (outline order boot).Sat i (split order (next r)) t
      have rest := @ih r t (later r)
      have last := later r
      generalize next r = after at rest settled last
      cases after with
      | ret b => exact ends b _ last (asides knows_t settled)
      | access a' next' => exact rest rfl knows_t

theorem rests_stable (rests : Rests w) (relied : Rely .pru w w') : Rests w' := by
  obtain ⟨on,length⟩ := rests
  obtain ⟨times,complete,kept⟩ := relied
  exact ⟨(kept on).1,by rw [times,complete,length]⟩

theorem rests_aside (rests : Rests w) (aside : Aside w w') : Rests w' := by
  have times := aside_times aside
  obtain ⟨clock,rfl,_⟩ := aside
  exact ⟨rests.1,by rw [times]; exact rests.2⟩

theorem settle_stores (p : ClockCode) (clock : PruClock.World) :
    ((PruClock.system PruClock.shared).settle p clock).pru.stores = clock.pru.stores := by
  cases p with
  | ret b => exact enter_stores b clock
  | access a next => rfl

/-- The PRU has stored the first half of a time. -/
def begun (order : Order) (ts : u64) (rest : ClockCode) (w : World) : World :=
  enter (.storing ts rest) { w with ts_mem := Function.update w.ts_mem order.stores (half order.stores ts) }

theorem begun_times (ts : u64) (rest : ClockCode) (w : World) : (begun order ts rest w).times = w.times ++ [ts] := by
  simp only [World.times,begun,enter,settle_stores,record,List.map_append,List.map_cons,List.map_nil,List.cons_append]

theorem begun_keeps (ts : u64) (rest : ClockCode) (inv : Inv w) (rests : Rests w) :
    Inv (begun order ts rest w) ∧ (∀ j, j ≠ .pru → Rely j w (begun order ts rest w)) ∧
      Pre order .pru (.storing ts rest) (begun order ts rest w) := by
  obtain ⟨on,length⟩ := rests
  have times : (begun order ts rest w).times = w.times ++ [ts] := begun_times ts rest w
  have longer : (begun order ts rest w).times.length = w.complete + 2 := by simp [times,length]
  have last : (begun order ts rest w).times.getLast? = some ts := by simp [times]
  refine ⟨⟨inv.running,fun off => absurd off (not_off on),fun _ => ?_,?_⟩,?_,on,longer,last,?_⟩
  · refine keeps_store ?_ longer last order.stores
    rw [times]
    exact keeps_begin (inv.keeps on) length ts
  · intro p member
    obtain ⟨xs,data,loaded⟩ := inv.printed p member
    refine ⟨xs,data,fun h => loaded_later (loaded h) ?_ (Nat.le_refl _)⟩
    rw [times]
    exact List.prefix_append _ _
  · intro j other
    cases j with
    | main => exact ⟨rfl,fun off => absurd off (not_off on)⟩
    | poll => exact ⟨id,by rw [times]; exact List.prefix_append _ _,Nat.le_refl _,rfl,rfl⟩
    | send => exact id
    | pru => exact absurd rfl other
  · exact Function.update_self ..

theorem store_sat {ts : u64} {next : Unit → ClockCode} (rests : Rests w) :
    (outline order boot).Sat .pru (split order (.access (.store_ts_mem ts) next)) w := by
  intro w₁ input r t relied (inv : Inv w₁) acted
  cases acted
  have rests₁ := rests_stable rests relied
  obtain ⟨inv',others,pre⟩ := begun_keeps ts (next ()) inv rests₁
  exact ⟨inv',⟨rests₁.1,others⟩,pre⟩

/-- The second half of a time. -/
theorem storing_sat {ts : u64} {rest : ClockCode} (pre : Pre order .pru (.storing ts rest) w) :
    (outline order boot).Sat .pru (body order (.storing ts rest)) w := by
  intro w₁ input r t relied (inv : Inv w₁) acted
  cases acted
  obtain ⟨on,length,last,stored⟩ := pre
  obtain ⟨times,complete,kept⟩ := relied
  obtain ⟨on₁,same⟩ := kept on
  rw [← times] at length last
  rw [← complete] at length
  rw [← same] at stored
  have all : ∀ h, Function.update w₁.ts_mem order.stores.other (half order.stores.other ts) h = half h ts := by
    intro h
    by_cases second : h = order.stores.other
    · subst second
      exact Function.update_self ..
    · have first : h = order.stores := by
        cases stores : order.stores <;> cases h <;> first | rfl | simp [stores,Half.other] at second
      subst first
      rw [Function.update_of_ne second]
      exact stored
  refine ⟨⟨inv.running,fun off => absurd off (not_off on₁),fun _ => keeps_end length last all,inv.printed⟩,
    ⟨on₁,?_⟩,on₁,length⟩
  intro j other
  cases j with
  | main => exact ⟨rfl,fun off => absurd off (not_off on₁)⟩
  | poll => exact ⟨id,List.prefix_refl _,Nat.le_succ _,rfl,rfl⟩
  | send => exact id
  | pru => exact absurd rfl other

theorem pru_sat {p : ClockCode} (more : p.isAccess = true) (rests : Rests w) :
    (outline order boot).Sat .pru (split order p) w :=
  split_sat (K := Rests) (Q := fun _ => True) (P := fun _ => True) rests_stable (fun rests => rests.1) rests_aside
    (fun _ _ _ rests => rests) (fun _ _ _ _ rests => store_sat rests) (Prog.only_any (fun _ => trivial) p) more rests

/-- An access that only looks. -/
theorem same_sat {i : Party} {a : Access} {f : a.Answer → Code} {K : World → Prop} (knows : K w)
    (stable : ∀ {w w'}, K w → Rely i w w' → K w') (free : ∀ w, Knows a w)
    (next : ∀ input w r t, Inv w → K w → act boot a input w = some (r,t) →
      t = w ∧ (system order boot).settle (f r) w = w ∧ (outline order boot).Sat i (f r) w) :
    (outline order boot).Sat i (.access a f) w := by
  intro w₁ input r t relied (inv : Inv w₁) acted
  obtain ⟨rfl,settled,sat⟩ := next input w₁ r t inv (stable knows relied) acted
  show Inv ((system order boot).settle (f r) t) ∧
    (Knows a t ∧ ∀ j, j ≠ i → Rely j t ((system order boot).settle (f r) t)) ∧ (outline order boot).Sat i (f r) t
  rw [settled]
  exact ⟨inv,⟨free t,fun j _ => (outline order boot).refl j t⟩,sat⟩

/-- Where a thread has been started, the PRU has been too. -/
theorem started (inv : Inv w) (thread : w.poll_thread = true ∨ w.send_thread = true) : w.exec = true := by
  cases exec : w.exec with
  | true => rfl
  | false =>
    obtain ⟨not_poll,not_send,_⟩ := inv.waiting exec
    rcases thread with there | there
    · simp [not_poll] at there
    · simp [not_send] at there

theorem send_thread_only :
    PruClock.send_pru_thread.Only (fun a => ∀ ts, a ≠ .store_ts_mem ts) (fun b => ∃ nano_ts status, b = .wrote nano_ts status) := by
  refine Prog.only_bind (P := fun _ => True) ⟨nofun,fun _ => trivial⟩ (fun result _ => ?_)
  refine Prog.only_bind (Prog.only_embed (Prog.only_any (fun _ => nofun) _)) (fun status _ => ?_)
  exact ⟨_,_,rfl⟩

theorem send_on {w w' : World} (on : w.exec = true) (relied : Rely .send w w') : w'.exec = true := relied on

theorem send_pru_sat (on : w.exec = true) : (outline order boot).Sat .send (send_pru order) w := by
  refine same_sat (K := fun w => w.exec = true) on send_on (fun _ => trivial)
    (fun input w r t inv on acted => ?_)
  cases acted
  have going : w.stop = false := inv.running.1
  simp only [going,Bool.false_eq_true,↓reduceIte,true_and]
  refine ⟨rfl,?_⟩
  refine split_sat (K := fun w => w.exec = true) send_on id ?_ ?_ ?_ send_thread_only rfl on
  · rintro w w' on ⟨clock,rfl,_⟩
    exact on
  · rintro b w ⟨nano_ts,status,rfl⟩ on
    exact on
  · intro ts next w no_store
    exact absurd rfl (no_store ts)

theorem send_created_sat : (outline order boot).Sat .send (body order .send_pru_thread) w := by
  refine same_sat (K := fun _ => True) trivial (fun _ _ => trivial) (fun _ => trivial) (fun input w r t inv _ acted => ?_)
  simp only [act] at acted
  split at acted
  · rename_i created
    cases acted
    exact ⟨rfl,rfl,send_pru_sat (started inv (.inr created))⟩
  · cases acted

/-! ### The thread that prints -/

/-- What the thread keeps for itself changes nothing for the others. -/
theorem window_keeps (first last : Nat) (inv : Inv w) :
    Inv { w with first := first, last := last } ∧ ∀ j, j ≠ .poll → Rely j w { w with first := first, last := last } := by
  refine ⟨⟨inv.running,inv.waiting,inv.keeps,inv.printed⟩,?_⟩
  intro j other
  cases j with
  | main => exact ⟨rfl,fun _ => ⟨rfl,rfl⟩⟩
  | poll => exact absurd rfl other
  | send => exact id
  | pru => exact ⟨rfl,rfl,fun on => ⟨on,rfl⟩⟩

theorem poll_on {w w' : World} (on : w.exec = true) (relied : Rely .poll w w') : w'.exec = true := relied.1 on

theorem poll_time_sat (on : w.exec = true) : (outline order boot).Sat .poll (poll_time order) w := by
  refine same_sat (K := fun w => w.exec = true) on poll_on (fun _ => trivial) (fun input w r t inv on acted => ?_)
  cases acted
  have going : w.stop = false := inv.running.1
  simp only [going,Bool.false_eq_true,↓reduceIte,true_and]
  refine ⟨rfl,?_⟩
  refine same_sat (K := fun w => w.exec = true) on poll_on (fun _ => trivial) (fun input w r t inv on acted => ?_)
  cases acted
  refine ⟨rfl,rfl,?_⟩
  intro w₁ input r t relied (inv : Inv w₁) acted
  cases acted
  have on₁ := poll_on on relied
  obtain ⟨inv',others⟩ := window_keeps w₁.complete w₁.last inv
  exact ⟨inv',⟨trivial,others⟩,on₁,Nat.le_refl _,loaded_cell (inv.keeps on₁) (Nat.le_refl _) order.loads⟩

theorem poll_created_sat : (outline order boot).Sat .poll (body order .poll_time_thread) w := by
  refine same_sat (K := fun _ => True) trivial (fun _ _ => trivial) (fun _ => trivial) (fun input w r t inv _ acted => ?_)
  simp only [act] at acted
  split at acted
  · rename_i created
    cases acted
    exact ⟨rfl,rfl,poll_time_sat (started inv (.inl created))⟩
  · cases acted

/-- The two halves of a line. -/
def halves (lower upper : UInt32) : Half → UInt32
  | .lower => lower
  | .upper => upper

/-- A half from each of two loads. -/
theorem mixed_join {times : List u64} {first last : Nat} {x y : UInt32} (h : Half) (one : Loaded half times first last h x)
    (two : Loaded half times first last h.other y) : Mixed times ⟨h.join x y,first,last⟩ := by
  cases h with
  | lower =>
    refine ⟨halves x y,rfl,fun h => ?_⟩
    cases h with
    | lower => exact one
    | upper => exact two
  | upper =>
    refine ⟨halves y x,rfl,fun h => ?_⟩
    cases h with
    | lower => exact two
    | upper => exact one

theorem loaded_sat {x : UInt32} (pre : Pre order .poll (.loaded x) w) :
    (outline order boot).Sat .poll (body order (.loaded x)) w := by
  intro w₁ input r t relied (inv : Inv w₁) acted
  cases acted
  obtain ⟨on,before,loaded⟩ := pre
  obtain ⟨exec,times,complete,first,_⟩ := relied
  have on₁ := exec on
  rw [← first] at before loaded
  have one := loaded_later loaded times times.length_le
  have two := loaded_cell (inv.keeps on₁) (before.trans complete) order.loads.other
  obtain ⟨inv',others⟩ := window_keeps w₁.first w₁.times.length inv
  exact ⟨inv',⟨trivial,others⟩,on₁,mixed_join order.loads one two⟩

theorem read_sat {data : u64} (pre : Pre order .poll (.read data) w) :
    (outline order boot).Sat .poll (body order (.read data)) w := by
  intro w₁ input r t relied (inv : Inv w₁) acted
  cases acted
  obtain ⟨on,xs,joined,loaded⟩ := pre
  obtain ⟨exec,times,_,first,last⟩ := relied
  have line : Mixed w₁.times ⟨data,w₁.first,w₁.last⟩ := by
    refine ⟨xs,joined,fun h => ?_⟩
    rw [first,last]
    exact loaded_later (loaded h) times (Nat.le_refl _)
  refine ⟨⟨inv.running,inv.waiting,inv.keeps,?_⟩,⟨trivial,fun j _ => rely_flags _ _ _ _ j⟩,exec on⟩
  intro p member
  rcases List.mem_append.mp member with before | new
  · exact inv.printed p before
  · obtain rfl := List.mem_singleton.mp new
    exact line

/-! ### The host's `main` -/

/-- Before the PRU runs. -/
def Early (M : (Half → UInt32) → Prop) (B : rbuffer → Prop) (w : World) : Prop :=
  w.exec = false ∧ M w.ts_mem ∧ B w.clock.rbuf

variable {M : (Half → UInt32) → Prop} {B : rbuffer → Prop}

theorem early_stable (early : Early M B w) (relied : Rely .main w w') : Early M B w' := by
  obtain ⟨off,here,there⟩ := early
  obtain ⟨exec,same⟩ := relied
  obtain ⟨mem_same,ring_same⟩ := same off
  refine ⟨exec.trans off,?_,?_⟩
  · rwa [mem_same]
  · rwa [ring_same]

/-- Before the PRU runs nobody else depends on what `main` does. -/
theorem early_keeps (ts_mem : Half → UInt32) (m : rbuffer) (inv : Inv w) (off : w.exec = false) :
    Inv { w with ts_mem := ts_mem, clock.rbuf := m } ∧
      ∀ j, j ≠ .main → Rely j w { w with ts_mem := ts_mem, clock.rbuf := m } := by
  refine ⟨⟨inv.running,inv.waiting,fun on => absurd off (not_off on),inv.printed⟩,?_⟩
  intro j other
  cases j with
  | main => exact absurd rfl other
  | poll => exact ⟨id,List.prefix_refl _,Nat.le_refl _,rfl,rfl⟩
  | send => exact id
  | pru => exact ⟨rfl,rfl,fun on => absurd off (not_off on)⟩

theorem early_check_sat {f : Call} {next : Code} (early : Early M B w) (other : f ≠ .create_poll ∧ f ≠ .create_send)
    (more : next.isAccess = true) (sat : ∀ {w}, Early M B w → (outline order boot).Sat .main next w) :
    (outline order boot).Sat .main (check f next) w := by
  refine same_sat (K := Early M B) early early_stable (fun _ => trivial) (fun input w r t inv early acted => ?_)
  have same : t = w := by
    cases acted
    simp [other.1,other.2]
  refine ⟨same,?_⟩
  show (system order boot).settle (if r ≠ 0 then .ret .returned else next) w = w ∧
    (outline order boot).Sat .main (if r ≠ 0 then .ret .returned else next) w
  by_cases failed : r ≠ 0
  · rw [if_pos failed]
    exact ⟨rfl,trivial⟩
  · rw [if_neg failed]
    exact ⟨System.settle_of_isAccess _ more _,sat early⟩

theorem main_on {w w' : World} (on : w.exec = true) (relied : Rely .main w w') : w'.exec = true := relied.1.trans on

/-- Creating a thread; the PRU is there. -/
theorem check_sat {f : Call} {next : Code} (on : w.exec = true) (settled : ∀ w, (system order boot).settle next w = w)
    (sat : ∀ {w}, w.exec = true → (outline order boot).Sat .main next w) :
    (outline order boot).Sat .main (check f next) w := by
  intro w₁ input r t relied (inv : Inv w₁) acted
  have on₁ := main_on on relied
  have kept : Inv t ∧ (∀ j, j ≠ .main → Rely j w₁ t) ∧ t.exec = true := by
    cases acted
    exact ⟨⟨inv.running,fun off => absurd off (not_off on₁),inv.keeps,inv.printed⟩,
      fun j _ => rely_flags _ _ _ _ j,on₁⟩
  obtain ⟨inv',others,on'⟩ := kept
  show Inv ((system order boot).settle (if r ≠ 0 then .ret .returned else next) t) ∧
    (True ∧ ∀ j, j ≠ .main → Rely j w₁ ((system order boot).settle (if r ≠ 0 then .ret .returned else next) t)) ∧
    (outline order boot).Sat .main (if r ≠ 0 then .ret .returned else next) t
  by_cases failed : r ≠ 0
  · rw [if_pos failed]
    exact ⟨inv',⟨trivial,others⟩,trivial⟩
  · rw [if_neg failed,settled]
    exact ⟨inv',⟨trivial,others⟩,sat on'⟩

/-- The PRU finds the time zero and a ring buffer that has been initialised. -/
theorem start_threads_sat (early : Early (fun mem => mem = fun _ => 0) (fun m => m = fresh) w) :
    (outline order boot).Sat .main start_threads w := by
  intro w₁ input r t relied (inv : Inv w₁) acted
  cases acted
  obtain ⟨off,zero,ready⟩ := early_stable early relied
  obtain ⟨_,_,times,complete⟩ := inv.waiting off
  have keeps : Keeps half w₁.times w₁.complete w₁.ts_mem := by
    rw [times,complete,zero]
    exact keeps_init fun h => by cases h <;> rfl
  refine ⟨⟨inv.running,nofun,fun _ => keeps,inv.printed⟩,⟨⟨off,ready⟩,?_⟩,?_⟩
  · intro j other
    cases j with
    | main => exact absurd rfl other
    | poll => exact ⟨fun _ => rfl,List.prefix_refl _,Nat.le_refl _,rfl,rfl⟩
    | send => exact fun _ => rfl
    | pru => exact ⟨rfl,rfl,fun on => absurd off (not_off on)⟩
  · exact check_sat rfl (fun _ => rfl) (fun on => check_sat on (fun _ => rfl) (fun _ => trivial))

/-- The ring buffer while `main` initialises it. -/
def ringOfMain (order : Order) (boot : Boot) : Component (system order boot) Rbuffer.Access.Answer rbuffer :=
  .of (fun w => w.clock.rbuf) (fun w m => { w with clock.rbuf := m }) (fun _ _ => rfl) Access.init memory (fun _ _ _ => rfl)

theorem main_sat (off : w.exec = false) : (outline order boot).Sat .main main w := by
  refine early_check_sat (M := fun _ => True) (B := fun _ => True) ⟨off,trivial,trivial⟩ (by decide) rfl (fun early => ?_)
  refine early_check_sat early (by decide) rfl (fun early => ?_)
  refine early_check_sat early (by decide) rfl (fun early => ?_)
  refine early_check_sat early (by decide) rfl (fun early => ?_)
  intro w₁ input r t relied (inv : Inv w₁) acted
  cases acted
  have off₁ := (early_stable early relied).1
  obtain ⟨inv',others⟩ := early_keeps (fun _ => 0) TimeSyncReceive.zeroed inv off₁
  refine ⟨inv',⟨off₁,others⟩,?_⟩
  refine (outline order boot).sat_alone (i := .main) (ringOfMain order boot)
    (Early (fun mem => mem = fun _ => 0) fun _ => True) ?_ ?_ ?_ init_rbuffer rfl ⟨off₁,rfl,trivial⟩
    (init_rbuffer_exec TimeSyncReceive.zeroed)
  · intro w w' early relied _
    exact ⟨early_stable early relied,(relied.2 early.1).2⟩
  · intro a w m early inv
    obtain ⟨inv',others⟩ := early_keeps w.ts_mem m inv early.1
    exact ⟨early,inv',early.1,others⟩
  · intro a w early inv
    obtain ⟨inv',others⟩ := early_keeps w.ts_mem fresh inv early.1
    refine ⟨inv',⟨early.1,others⟩,?_⟩
    exact early_check_sat (B := fun m => m = fresh) ⟨early.1,early.2.1,rfl⟩ (by decide) rfl start_threads_sat

/-- `main` waits for an interrupt that the PRU never sends. -/
theorem teardown_sat : (outline order boot).Sat .main teardown w := by
  intro w₁ input r t relied (inv : Inv w₁) acted
  have never : act boot .wait_evtout_1 input w₁ = none := by
    simp only [act,inv.running.2,Bool.false_eq_true,↓reduceIte]
  exact absurd (never.symm.trans acted) nofun

theorem returned_sat {i : Party} (pre : ∀ w, Pre order i .returned w) :
    (outline order boot).Sat i (body order .returned) w := by
  refine same_sat (K := fun _ => True) trivial (fun _ _ => trivial) (fun _ => trivial) (fun input w r t _ _ acted => ?_)
  cases acted
  exact ⟨rfl,rfl,pre w⟩

/-- The PRU starts its clock. -/
theorem start_clock_sat (length : w.times.length = w.complete + 1) : (outline order boot).Sat .pru start_clock w := by
  refine same_sat (K := fun w => w.times.length = w.complete + 1) length ?_ (fun _ => trivial)
    (fun input w r t inv length acted => ?_)
  · rintro w w' length ⟨times,complete,_⟩
    rw [times,complete,length]
  simp only [act] at acted
  split at acted
  · rename_i on
    cases acted
    refine ⟨rfl,rfl,?_⟩
    refine same_sat (K := Rests) ⟨on,length⟩ rests_stable (fun _ => trivial) (fun input w r t inv rests acted => ?_)
    cases acted
    refine ⟨rfl,rfl,?_⟩
    refine same_sat (K := Rests) rests rests_stable (fun _ => trivial) (fun input w r t inv rests acted => ?_)
    cases acted
    refine ⟨rfl,rfl,?_⟩
    refine same_sat (K := Rests) rests rests_stable (fun _ => trivial) (fun input w r t inv rests acted => ?_)
    cases acted
    exact ⟨rfl,rfl,rests⟩
  · cases acted

theorem send_pru_pru_sat (rests : Rests w) : (outline order boot).Sat .pru (send_pru order) w := by
  refine same_sat (K := Rests) rests rests_stable (fun _ => trivial) (fun input w r t inv rests acted => ?_)
  cases acted
  have going : w.stop = false := inv.running.1
  simp only [going,Bool.false_eq_true,↓reduceIte,true_and]
  exact ⟨rfl,pru_sat rfl rests⟩

theorem bodies_proved : (outline order boot).Proved := by
  intro i b w inv pre
  cases i with
  | main =>
    cases b with
    | main => exact main_sat pre
    | started => exact teardown_sat
    | returned => exact returned_sat fun _ => trivial
    | _ => exact pre.elim
  | poll =>
    cases b with
    | poll_time_thread => exact poll_created_sat
    | loaded x => exact loaded_sat pre
    | read data => exact read_sat pre
    | printed => exact poll_time_sat pre
    | returned => exact returned_sat fun _ => trivial
    | _ => exact pre.elim
  | send =>
    cases b with
    | send_pru_thread => exact send_created_sat
    | clock b =>
      cases b with
      | wrote nano_ts status => exact send_pru_sat pre
      | _ => exact pre.elim
    | returned => exact returned_sat fun _ => trivial
    | _ => exact pre.elim
  | pru =>
    cases b with
    | pru => exact start_clock_sat pre
    | clock b =>
      cases b with
      | event | wrote nano_ts status => exact send_pru_pru_sat pre
      | _ => exact pru_sat (clock_starts _) pre
    | storing ts rest => exact storing_sat pre
    | stored rest =>
      cases rest with
      | ret b => exact pru_sat (clock_starts b) pre
      | access a next => exact pru_sat rfl pre
    | returned => exact returned_sat fun _ => trivial
    | _ => exact pre.elim

/-! ### The clock -/

/-- The world of `PruClock`, whose ring buffer is initialised from the start. -/
def seen (w : World) : PruClock.World := if w.exec then w.clock else { w.clock with rbuf := fresh }

theorem seen_on {w₀ : PruClock.World} (on : w.exec = true) (same : w₀ = w.clock) : w₀ = seen w := by
  rw [seen,if_pos on]
  exact same

/-- The party of `PruClock` at the start of a block. -/
def standsClock (boot : Boot) : Block → Option ClockCode → Prop
  | .send_pru_thread, p₀ => p₀ = some PruClock.send_pru_thread
  | .pru, p₀ => p₀ = some (PruClock.body (PruClock.first boot.iep_cnt boot.cc .pru))
  | .clock b, p₀ => p₀ = some (PruClock.body b)
  | .storing _ rest, p₀ => p₀ = some ((PruClock.system PruClock.shared).resume rest)
  | .stored rest, p₀ => p₀ = some ((PruClock.system PruClock.shared).resume rest)
  | _, _ => True

/-- The readings of the counter are near and the reads of events are full. -/
def Usual (input : PruClock.Input) : Prop := PruClock.Near input ∧ PruClock.Reads input

/-- The PRU and the thread that sends, where each access is made as the outline says. -/
noncomputable def clock (order : Order) (boot : Boot) :
    View Party PruClock.Party ((restrict (system order boot) Knows).limited fun input => Usual input.clock)
      ((PruClock.system PruClock.shared).limited Usual) where
  part
    | .send => some .host
    | .pru => some .pru
    | _ => none
  part_inj := by
    intro i j i₀ first second
    cases i <;> cases j <;> first | rfl | cases first <;> cases second
  sees w w₀ := w₀ = seen w
  stands := standsClock boot
  marks _ _ := True

/-- An access that is none of `PruClock`. -/
def Apart (a : Access) : Prop := ∀ a₀, a ≠ .clock a₀

theorem apart_unseen {a : Access} {input : Input} {r : a.Answer} (apart : Apart a) (knows : Knows a w)
    (acted : act boot a input w = some (r,t)) : seen t = seen w := by
  cases a with
  | clock a₀ => exact absurd rfl (apart a₀)
  | memset | init a =>
    have off : w.exec = false := knows
    cases acted
    simp only [seen,off,Bool.false_eq_true,↓reduceIte]
  | exec_program =>
    obtain ⟨off,ready⟩ := knows
    cases acted
    simp only [seen,off,Bool.false_eq_true,↓reduceIte,← ready]
  | wait_evtout_1 | created_poll | created_send | executed =>
    simp only [act] at acted
    split at acted <;> cases acted
    rfl
  | _ =>
    cases acted
    rfl

/-- Entering a block of the host, or of the PRU between two halves. -/
def Unseen : Block → Prop
  | .clock _ => False
  | .storing _ _ => False
  | _ => True

theorem unseen_enter {b : Block} (unseen : Unseen b) (w : World) : seen (enter b w) = seen w := by
  cases b with
  | clock b | storing ts rest => exact unseen.elim
  | _ => rfl

variable {p₀ : Option ClockCode}

/-- A body of the host's `main` or of the thread that prints. -/
theorem apart_follows {p : Code} {P : Block → Prop} (only : p.Only Apart P) (ends : ∀ b, P b → Unseen b ∧ standsClock boot b p₀) :
    (clock order boot).Follows p p₀ := by
  refine View.follows_only (Q := Apart) (B := P) (fun _ _ => trivial) ?_ ?_ (fun b here => (ends b here).2) only
  · intro a input w w₀ r t apart (same : w₀ = seen w) acted
    obtain ⟨knows,acted⟩ := restrict_act acted
    exact same.trans (apart_unseen apart knows acted).symm
  · intro b w w₀ here (same : w₀ = seen w)
    exact same.trans (unseen_enter (ends b here).1 w).symm

/-- A step before the part goes on. -/
theorem apart_step {a : Access} {f : a.Answer → Code} (apart : Apart a)
    (next : ∀ {input w r t}, act boot a input w = some (r,t) →
      (∀ w, seen ((system order boot).settle (f r) w) = seen w) ∧ (clock order boot).Follows (f r) p₀) :
    (clock order boot).Follows (.access a f) p₀ := by
  refine ⟨trivial,fun input w w₀ r t (same : w₀ = seen w) acted => ?_⟩
  obtain ⟨knows,acted⟩ := restrict_act acted
  obtain ⟨settled,follows⟩ := next acted
  refine ⟨p₀,w₀,View.Turn.none,?_,follows⟩
  show w₀ = seen ((system order boot).settle (f r) t)
  rw [settled,apart_unseen apart knows acted]
  exact same

/-- A program of `PruClock`, step by step. -/
theorem split_follows {p : ClockCode} (more : p.isAccess = true) : (clock order boot).Follows (split order p) (some p) := by
  induction p with
  | ret b => simp [Prog.isAccess] at more
  | access a next ih =>
    by_cases store : ∃ ts, a = .store_ts_mem ts
    · obtain ⟨ts,rfl⟩ := store
      refine ⟨trivial,fun input w w₀ r t (same : w₀ = seen w) acted => ?_⟩
      obtain ⟨input,usual⟩ := input
      obtain ⟨on,acted⟩ := restrict_act acted
      cases acted
      have shared : w₀ = w.clock := same.trans (seen_on on rfl).symm
      have acted₀ : ((PruClock.system PruClock.shared).limited Usual).act (.store_ts_mem ts) ⟨input.clock,usual⟩ w₀ =
          some ((),record ts w₀) := rfl
      exact ⟨_,_,View.Turn.act acted₀,seen_on on (by rw [shared]; rfl),rfl⟩
    · have shape : split order (.access a next) = .access (.clock a) fun r => split order (next r) := by
        cases a with
        | store_ts_mem ts => exact absurd ⟨ts,rfl⟩ store
        | _ => rfl
      rw [shape]
      refine ⟨trivial,fun input w w₀ r t (same : w₀ = seen w) acted => ?_⟩
      obtain ⟨input,usual⟩ := input
      obtain ⟨on,acted⟩ := restrict_act acted
      have shared : w₀ = w.clock := same.trans (seen_on on rfl).symm
      have acted' : act boot (.clock a) input w = some (r,t) := acted
      simp only [act] at acted'
      cases made : PruClock.act PruClock.shared a input.clock w.clock with
      | none => simp [made] at acted'
      | some answer =>
        rw [made] at acted'
        cases acted'
        rw [← shared] at made
        have made₀ : ((PruClock.system PruClock.shared).limited Usual).act a ⟨input.clock,usual⟩ w₀ = some answer := made
        refine ⟨_,_,View.Turn.act made₀,?_⟩
        show _ = seen ((system order boot).settle (split order (next answer.1)) _) ∧
          (clock order boot).Follows (split order (next answer.1)) _
        have rest := ih answer.1
        generalize next answer.1 = after at rest
        cases after with
        | ret b => exact ⟨seen_on on rfl,rfl⟩
        | access a' next' =>
          refine ⟨?_,rest rfl⟩
          cases a' <;> exact seen_on on rfl

theorem send_pru_follows : (clock order boot).Follows (send_pru order) (some PruClock.send_pru_thread) := by
  refine apart_step nofun (fun {input w r t} acted => ?_)
  cases r with
  | true => exact ⟨fun _ => rfl,trivial⟩
  | false => exact ⟨fun _ => rfl,split_follows rfl⟩

theorem send_created_follows : (clock order boot).Follows (body order .send_pru_thread) (some PruClock.send_pru_thread) :=
  apart_step nofun fun _ => ⟨fun _ => rfl,send_pru_follows⟩

theorem start_clock_follows :
    (clock order boot).Follows start_clock (some (PruClock.body (PruClock.first boot.iep_cnt boot.cc .pru))) := by
  refine apart_step nofun fun _ => ⟨fun _ => rfl,?_⟩
  refine apart_step nofun fun _ => ⟨fun _ => rfl,?_⟩
  refine apart_step nofun (fun {input w r t} acted => ⟨fun _ => rfl,?_⟩)
  cases acted
  refine apart_step nofun (fun {input w r t} acted => ?_)
  cases acted
  exact ⟨fun _ => rfl,rfl⟩

theorem check_only {f : Call} {next : Code} {P : Block → Prop} (exits : P .returned) (only : next.Only Apart P) :
    (check f next).Only Apart P := by
  refine ⟨nofun,fun err => ?_⟩
  show Prog.Only Apart P (if err ≠ 0 then .ret .returned else next)
  by_cases failed : err ≠ 0
  · rw [if_pos failed]
    exact exits
  · rw [if_neg failed]
    exact only

theorem main_only : main.Only Apart (fun b => b = .returned ∨ b = .started) := by
  refine check_only (.inl rfl) (check_only (.inl rfl) (check_only (.inl rfl) (check_only (.inl rfl) ?_)))
  refine Prog.only_bind (P := fun _ => True) ⟨nofun,fun _ => trivial⟩ (fun _ _ => ?_)
  refine Prog.only_bind (Prog.only_embed (Prog.only_any (fun _ => nofun) init_rbuffer)) (fun _ _ => ?_)
  exact check_only (.inl rfl) ⟨nofun,fun _ => check_only (.inl rfl) (check_only (.inl rfl) (.inr rfl))⟩

theorem poll_time_only : (poll_time order).Only Apart (fun b => b = .returned ∨ ∃ x, b = .loaded x) := by
  refine ⟨nofun,fun stop => ?_⟩
  cases stop with
  | true => exact .inl rfl
  | false => exact ⟨nofun,fun _ => ⟨nofun,fun x => .inr ⟨x,rfl⟩⟩⟩

theorem poll_time_follows (p₀ : Option ClockCode) : (clock order boot).Follows (poll_time order) p₀ := by
  refine apart_follows poll_time_only ?_
  rintro b (rfl | ⟨x,rfl⟩)
  · exact ⟨trivial,trivial⟩
  · exact ⟨trivial,trivial⟩

theorem clock_proved : (clock order boot).Proved := by
  intro b p₀ stands
  change (clock order boot).Follows (body order b) p₀
  cases b with
  | main =>
    refine apart_follows main_only ?_
    rintro b (rfl | rfl)
    · exact ⟨trivial,trivial⟩
    · exact ⟨trivial,trivial⟩
  | started =>
    refine apart_follows (P := fun b => b = .returned) ⟨nofun,fun _ => ⟨nofun,fun _ => ⟨nofun,fun _ => rfl⟩⟩⟩ ?_
    rintro b rfl
    exact ⟨trivial,trivial⟩
  | returned =>
    refine apart_follows (P := fun b => b = .returned) ⟨nofun,fun _ => rfl⟩ ?_
    rintro b rfl
    exact ⟨trivial,trivial⟩
  | poll_time_thread => exact apart_step nofun fun _ => ⟨fun _ => rfl,poll_time_follows p₀⟩
  | loaded x =>
    refine apart_follows (P := fun b => ∃ data, b = .read data) ⟨nofun,fun y => ⟨_,rfl⟩⟩ ?_
    rintro b ⟨data,rfl⟩
    exact ⟨trivial,trivial⟩
  | read data =>
    refine apart_follows (P := fun b => b = .printed) ⟨nofun,fun _ => rfl⟩ ?_
    rintro b rfl
    exact ⟨trivial,trivial⟩
  | printed => exact poll_time_follows p₀
  | send_pru_thread =>
    obtain rfl : p₀ = some PruClock.send_pru_thread := stands
    exact send_created_follows
  | pru =>
    obtain rfl : p₀ = some (PruClock.body (PruClock.first boot.iep_cnt boot.cc .pru)) := stands
    exact start_clock_follows
  | clock b =>
    obtain rfl : p₀ = some (PruClock.body b) := stands
    cases b with
    | event | wrote nano_ts status => exact send_pru_follows
    | _ => exact split_follows (clock_starts _)
  | storing ts rest =>
    obtain rfl : p₀ = some ((PruClock.system PruClock.shared).resume rest) := stands
    exact apart_step nofun fun _ => ⟨fun _ => rfl,rfl⟩
  | stored rest =>
    obtain rfl : p₀ = some ((PruClock.system PruClock.shared).resume rest) := stands
    cases rest with
    | ret b => exact split_follows (clock_starts b)
    | access a next => exact split_follows rfl

/-! ### What is printed -/

/-- The times of a line's window, and the number of each. -/
def InWindow (w : World) (p : Print) (k : Nat) (ts : u64) : Prop := p.first ≤ k ∧ k < p.last ∧ w.times[k]? = some ts

/-- What a run of `pru_clock` comes to. A line has the lower half of a time of its
    window and the upper half of another one, so that it is off by a multiple of
    `2^32` ns; if the times of the window have one upper half in common, it is one
    of them. The times are those of a clock that is set to the captured pulses, and
    the threads never end. -/
structure Prints (w : World) : Prop where
  joined : ∀ p ∈ w.prints, ∃ j k a b, InWindow w p j a ∧ InWindow w p k b ∧
    (p.data.toNat : Int) = a.toNat + 2^32 * ((b.toNat / 2^32 : Nat) - (a.toNat / 2^32 : Nat) : Int)
  whole : ∀ p ∈ w.prints, (∀ j k a b, InWindow w p j a → InWindow w p k b → a.toNat / 2^32 = b.toNat / 2^32) →
    ∃ k, InWindow w p k p.data
  rounds : ∀ (k : Nat) (r : Setting), w.clock.pru.rounds[k]? = some r →
    ∃ event, w.clock.events[k]? = some event ∧ r.time = nano_ts event
  stored : ∀ st ∈ w.clock.pru.stores, ∀ k, st.adjusted = k + 1 →
    ∃ (event : ptp_extts_event) (r : Setting), w.clock.events[k]? = some event ∧ w.clock.pru.rounds[k]? = some r ∧
      st.value = UInt64.ofInt ((nano_ts event).toNat + 5 * ((st.count : Int) - r.count))
  going : w.stop = false

theorem half_toNat (ts : u64) : (half .lower ts).toNat = ts.toNat % 2^32 ∧ (half .upper ts).toNat = ts.toNat / 2^32 :=
  words_toNat ts

theorem mixed_joined {p : Print} (mixed : Mixed w.times p) : ∃ j k a b, InWindow w p j a ∧ InWindow w p k b ∧
    (p.data.toNat : Int) = a.toNat + 2^32 * ((b.toNat / 2^32 : Nat) - (a.toNat / 2^32 : Nat) : Int) := by
  obtain ⟨xs,data,loaded⟩ := mixed
  obtain ⟨j,a,after,before,here,lower⟩ := loaded .lower
  obtain ⟨k,b,after',before',here',upper⟩ := loaded .upper
  refine ⟨j,k,a,b,⟨after,before,here⟩,⟨after',before',here'⟩,?_⟩
  rw [data,join_toNat,lower,upper,(half_toNat a).1,(half_toNat b).2]
  omega

theorem mixed_whole {p : Print} (mixed : Mixed w.times p)
    (agree : ∀ j k a b, InWindow w p j a → InWindow w p k b → a.toNat / 2^32 = b.toNat / 2^32) : ∃ k, InWindow w p k p.data := by
  obtain ⟨xs,data,loaded⟩ := mixed
  obtain ⟨k,ts,after,before,here,parts⟩ := one_value .lower loaded (by
    intro h other j k a b after before after' before' here here'
    cases h with
    | lower => exact absurd rfl other
    | upper =>
      apply UInt32.toNat_inj.mp
      rw [(half_toNat a).2,(half_toNat b).2]
      exact agree j k a b ⟨after,before,here⟩ ⟨after',before',here'⟩)
  have one : p.data = ts := by
    rw [data,parts .lower,parts .upper]
    exact join_words ts
  exact ⟨k,after,before,by rw [here,one]⟩

/-- Whatever the halves' order, the first readings of the counter, the memory at
    the start, the results of the host's calls and the captures, and however the
    PRU, `main` and the two threads interleave, as long as the readings are near and
    no read of an event fails. -/
theorem clock_printed (order : Order) (boot : Boot) (ts_mem : Half → UInt32) (m : rbuffer) (schedule : List (Party × Input))
    (near : ∀ move ∈ schedule, PruClock.Near move.2.clock) (full : ∀ move ∈ schedule, PruClock.Reads move.2.clock) :
    Prints ((system order boot).run ((system order boot).start (initial boot ts_mem m) first) schedule).shared := by
  have start_inv : Inv (initial boot ts_mem m) := ⟨⟨rfl,rfl⟩,fun _ => ⟨rfl,rfl,rfl,rfl⟩,nofun,nofun⟩
  have start_pre : ∀ i, Pre order i (first i) (initial boot ts_mem m) := by
    intro i
    cases i <;> first | exact rfl | trivial
  have inv := ((outline order boot).sound bodies_proved start_inv start_pre schedule).inv
  have restricted := restrict_run (outline order boot) (fun kept => kept.1) bodies_proved start_inv start_pre schedule
  have usual : ∀ move ∈ schedule, Usual move.2.clock := fun move member => ⟨near move member,full move member⟩
  obtain ⟨limited,same⟩ := (restrict (system order boot) Knows).exists_limited (Q := fun input => Usual input.clock)
    ((restrict (system order boot) Knows).start (initial boot ts_mem m) first) usual
  have shows : (clock order boot).Shows ((restrict (system order boot) Knows).start (initial boot ts_mem m) first)
      ((PruClock.system PruClock.shared).start (PruClock.initial boot.iep_cnt boot.cc fresh)
        (PruClock.first boot.iep_cnt boot.cc)) := by
    refine View.shows_start clock_proved rfl ?_
    intro i
    cases i <;> first | exact rfl | trivial
  obtain ⟨schedule₀,shows'⟩ := View.shows_run clock_proved shows limited
  rw [same,restricted,System.limited_run] at shows'
  have usual₀ := System.limited_all schedule₀
  have synchronised := PruClockSync.run_synchronised boot.iep_cnt boot.cc (fun move member => (usual₀ move member).1)
    (fun move member => (usual₀ move member).2)
  have shared := shows'.shared
  change _ = seen _ at shared
  rw [shared] at synchronised
  refine ⟨fun p member => mixed_joined (inv.printed p member),fun p member => mixed_whole (inv.printed p member),?_,?_,inv.running.1⟩
  · have rounds := synchronised.rounds
    unfold seen at rounds
    split at rounds <;> exact rounds
  · have stored := synchronised.stored
    unfold seen at stored
    split at stored <;> exact stored

/-- All calls succeed, and there are ten counts between the readings. -/
def answer : Input := ⟨0,⟨10,⟨sizeof_event,⟨⟨7,50⟩,0⟩⟩,⟨⟨7,50⟩,0⟩,fun a => (memory a fresh).1⟩⟩

/-- The host starts, the PRU stores the lower half of its first time, and the thread
    prints a line. -/
def firstLine : List (Party × Input) :=
  List.replicate 13 (.main,answer) ++ List.replicate 12 (.pru,answer) ++ List.replicate 6 (.poll,answer)

/-- The time is `2^32 + 149`, and the line is 149: the lower half is there, the
    upper one is still that of the zero. -/
theorem first_line_printed :
    let w := ((system ⟨.lower,.lower⟩ ⟨0xffffffff,0⟩).run ((system ⟨.lower,.lower⟩ ⟨0xffffffff,0⟩).start
      (initial ⟨0xffffffff,0⟩ (fun _ => 0) fresh) first) firstLine).shared
    Prints w ∧ w.prints = [⟨149,0,2⟩] :=
  ⟨clock_printed ⟨.lower,.lower⟩ ⟨0xffffffff,0⟩ (fun _ => 0) fresh firstLine (by decide) (by decide),by decide +kernel⟩

end NeslPru.PruClockPrints
