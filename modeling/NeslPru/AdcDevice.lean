import NeslPru.Adc
import Mathlib.Data.List.Find

/-!
The converter by itself: what `init_adc` leaves behind, and how the sampling
goes on from there. Bits 8 to 16 of `STEPENABLE` are not written by `init_adc`,
so that it relies on them to be clear (`Low`).
-/
namespace NeslPru.Adc
open NeslPru.Access NeslPru.Alone

variable {d : Device} {s : Device × Memory} {m : Memory}

/-! ### Bits -/

@[simp] theorem bit_and (v v' : UInt32) (i : Nat) : bit (v &&& v') i = (bit v i && bit v' i) := by simp [bit]
@[simp] theorem bit_or (v v' : UInt32) (i : Nat) : bit (v ||| v') i = (bit v i || bit v' i) := by simp [bit]
theorem bit_not (v : UInt32) {i : Nat} (inside : i < 32) : bit (~~~v) i = !bit v i := by simp [bit,inside]

theorem bit_shift {step i : Nat} (small : step < 32) (inside : i < 32) :
    bit ((1 : UInt32) <<< UInt32.ofNat step) i = decide (i = step) := by
  have all : ∀ step < 32, ∀ i < 32, bit ((1 : UInt32) <<< UInt32.ofNat step) i = decide (i = step) := by decide
  exact all step small i inside

theorem bit_ext {v v' : UInt32} (same : ∀ i < 32, bit v i = bit v' i) : v = v' := by
  apply UInt32.toBitVec_inj.mp
  apply BitVec.eq_of_getLsbD_eq
  exact same

theorem bit_shiftRight (v : UInt32) (i : Nat) : bit (v >>> (16 : UInt32)) i = bit v (16 + i) := by simp [bit]

theorem bit_shiftLeft (v : UInt32) {i : Nat} (inside : i < 32) :
    bit (v <<< (16 : UInt32)) i = (decide (16 ≤ i) && bit v (i - 16)) := by
  by_cases small : i < 16
  · simp [bit,small]
  · have inside' : i - 16 < 32 := by omega
    simp [bit,small,inside,inside',Nat.le_of_not_lt small]

/-- The test of the loop of `wait_for_adc`. -/
theorem and_eq_zero_iff (status : UInt32) : status &&& ((1 : UInt32) <<< 1) = 0 ↔ bit status 1 = false := by
  have one : ∀ i < 32, bit ((1 : UInt32) <<< 1) i = decide (i = 1) := by decide
  have zero : ∀ i, bit 0 i = false := by simp [bit]
  constructor
  · intro none
    have at_one := congrArg (bit · 1) none
    simpa [one 1 (by decide),zero] using at_one
  · intro clear
    apply bit_ext
    intro i inside
    by_cases first : i = 1
    · simp [first,clear,zero]
    · simp [one i inside,first,zero]

/-! ### Accesses -/

theorem regs_store (d : Device) (r r' : Reg) (v : UInt32) :
    (d.store r v).regs r' = if r' = r then d.stored v r else d.regs r' := by
  by_cases same : r' = r
  · subst same; simp [Device.store]
  · simp [Device.store,same]

theorem regs_store_ne {r r' : Reg} (other : r' ≠ r) (v : UInt32) : (d.store r v).regs r' = d.regs r' := by
  simp [regs_store,other]

@[simp] theorem regs_load (r : Reg) : (d.load r).2.regs = d.regs := by
  cases r <;> rfl

theorem next_of_disabled (disabled : bit (d.regs .CTRL) 0 = false) : d.next = none := by
  simp [Device.next,disabled]

/-- Steps 8 to 16 are disabled. -/
def Low (d : Device) : Prop := ∀ k, 8 ≤ k → k ≤ 16 → bit (d.regs .STEPENABLE) k = false

/-- All steps are disabled. -/
def NoSteps (d : Device) : Prop := ∀ k, 1 ≤ k → k ≤ 16 → bit (d.regs .STEPENABLE) k = false

theorem next_of_noSteps (off : NoSteps d) : d.next = none := by
  unfold Device.next
  split
  · simp only [List.find?_eq_none,List.mem_range'_1,Bool.not_eq_true]
    intro k inside
    exact off k inside.1 (by omega)
  · rfl

/-! ### The initialisation -/

/-- The converter does nothing, and the memory is as it was. -/
def Quiet (m : Memory) (s : Device × Memory) : Prop := s.1.next = none ∧ s.2 = m

structure Disabled (m : Memory) (s : Device × Memory) : Prop where
  disabled : bit (s.1.regs .CTRL) 0 = false
  memory : s.2 = m

theorem Disabled.quiet (off : Disabled m s) : Quiet m s := ⟨next_of_disabled off.disabled,off.memory⟩

theorem Disabled.load (off : Disabled m s) (r : Reg) : Disabled m (io (.load r) s).2 :=
  ⟨by simpa [io] using off.disabled,off.memory⟩

theorem Disabled.store (off : Disabled m s) {r : Reg} {v : UInt32} (zero : r = .CTRL → bit v 0 = false) :
    Disabled m (io (.store r v) s).2 := by
  refine ⟨?_,off.memory⟩
  by_cases same : r = .CTRL
  · subst same; simpa [io,regs_store,Device.stored] using zero rfl
  · simpa [io,regs_store_ne (Ne.symm same)] using off.disabled

theorem low_bits {k : Nat} (inside : k < 32) : bit 0xff k = decide (k < 8) := by
  have all : ∀ k < 32, bit 0xff k = decide (k < 8) := by decide
  exact all k inside

/-- No step is enabled, and the configuration of the steps can be written. -/
structure Unlocked (m : Memory) (s : Device × Memory) : Prop extends Disabled m s where
  off : NoSteps s.1
  unlocked : bit (s.1.regs .CTRL) 2 = true

theorem disable_steps_ensures (off : Disabled m s) (low : Low s.1) :
    Ensures io (Quiet m) (fun _ => Unlocked m) disable_steps s := by
  have divided := off.store (r := .CLKDIV) (v := 1 - 1) (by simp)
  have ranged := divided.store (r := .ADCRANGE) (v := ((0xfff : UInt32) <<< 16) &&& 0x000) (by simp)
  have read := ranged.load .STEPENABLE
  have stopped := read.store (r := .STEPENABLE) (v := s.1.regs .STEPENABLE &&& ~~~0xff) (by simp)
  have read' := stopped.load .CTRL
  have unlocked := read'.store (r := .CTRL) (v := s.1.regs .CTRL ||| ((1 : UInt32) <<< 2))
    (fun _ => by rw [bit_or,off.disabled]; decide)
  refine ⟨divided.quiet,ranged.quiet,read.quiet,stopped.quiet,read'.quiet,unlocked.quiet,unlocked,?_,?_⟩
  · intro k positive last
    change bit (s.1.regs .STEPENABLE &&& ~~~0xff) k = false
    by_cases small : k < 8
    · rw [bit_and,bit_not _ (by omega),low_bits (by omega)]
      simp [small]
    · rw [bit_and,low k (by omega) last,Bool.false_and]
  · change bit (s.1.regs .CTRL ||| ((1 : UInt32) <<< 2)) 2 = true
    rw [bit_or,show bit ((1 : UInt32) <<< 2) 2 = true by decide,Bool.or_true]

theorem Unlocked.store (unlocked : Unlocked m s) {r : Reg} (v : UInt32) (control : r ≠ .CTRL) (enable : r ≠ .STEPENABLE) :
    Unlocked m (io (.store r v) s).2 := by
  refine ⟨unlocked.toDisabled.store (fun same => absurd same control),?_,?_⟩
  · simpa [NoSteps,io,regs_store_ne (Ne.symm enable)] using unlocked.off
  · simpa [io,regs_store_ne (Ne.symm control)] using unlocked.unlocked

theorem configure_ensures (l : List (Nat × UInt32)) (distinct : (l.map Prod.fst).Nodup) (unlocked : Unlocked m s) :
    Ensures io (Quiet m) (fun _ t => Unlocked m t ∧ (∀ c ∈ l, t.1.regs (.STEPCONFIG c.1) = stepconfig c.2 0) ∧
      ∀ k ∉ l.map Prod.fst, t.1.regs (.STEPCONFIG k) = s.1.regs (.STEPCONFIG k)) (configure l) s := by
  induction l generalizing s with
  | nil => exact ⟨unlocked,by simp,fun _ _ => rfl⟩
  | cons c rest ih =>
    obtain ⟨step,channel⟩ := c
    obtain ⟨fresh,distinct'⟩ := List.nodup_cons.mp distinct
    have config := unlocked.store (r := .STEPCONFIG step) (stepconfig channel 0) (by simp) (by simp)
    have delay := config.store (r := .STEPDELAY step) (stepdelay 0 0) (by simp) (by simp)
    have same : ∀ k, (io (.store (.STEPDELAY step) (stepdelay 0 0))
        (io (.store (.STEPCONFIG step) (stepconfig channel 0)) s).2).2.1.regs (.STEPCONFIG k) =
          if k = step then stepconfig channel 0 else s.1.regs (.STEPCONFIG k) := by
      intro k
      simp [io,regs_store,Device.stored,unlocked.unlocked]
    refine ⟨config.quiet,delay.quiet,ensures_mono (ih distinct' delay) (fun _ => id) ?_⟩
    rintro ⟨⟩ t ⟨unlocked',configured,kept⟩
    refine ⟨unlocked',?_,?_⟩
    · intro c' member
      rcases List.mem_cons.mp member with rfl | later
      · rw [kept _ fresh,same]; simp
      · exact configured c' later
    · intro k other
      simp only [List.map_cons,List.mem_cons,not_or] at other
      rw [kept k other.2,same,if_neg other.1]

/-- All steps are off, and those of the sequence are configured. -/
structure Configured (m : Memory) (s : Device × Memory) : Prop extends Disabled m s where
  off : NoSteps s.1
  tagged : bit (s.1.regs .CTRL) 1 = true
  configured : ∀ c ∈ steps, s.1.regs (.STEPCONFIG c.1) = stepconfig c.2 0
  clear : bit (s.1.regs .IRQSTATUS) 1 = false

theorem enable_interrupt_ensures (unlocked : Unlocked m s)
    (configured : ∀ c ∈ steps, s.1.regs (.STEPCONFIG c.1) = stepconfig c.2 0) :
    Ensures io (Quiet m) (fun _ => Configured m) enable_interrupt s := by
  have off := unlocked.toDisabled
  have control := off.disabled
  have read := off.load .CTRL
  have tagged := read.store (r := .CTRL) (v := s.1.regs .CTRL ||| ((1 : UInt32) <<< 1))
    (fun _ => by rw [bit_or,control]; decide)
  have read₁ := tagged.load .IRQSTATUS
  have cleared := read₁.store (r := .IRQSTATUS) (v := s.1.regs .IRQSTATUS ||| ((1 : UInt32) <<< 1)) (by simp)
  have read₂ := cleared.load .IRQENABLE_SET
  have enabled := read₂.store (r := .IRQENABLE_SET) (v := s.1.regs .IRQENABLE_SET ||| ((1 : UInt32) <<< 1)) (by simp)
  have read₃ := enabled.load .CTRL
  have locked := read₃.store (r := .CTRL)
    (v := (s.1.regs .CTRL ||| ((1 : UInt32) <<< 1)) &&& ~~~((1 : UInt32) <<< 2))
    (fun _ => by
      rw [bit_and,bit_or,control,show bit ((1 : UInt32) <<< 1) 0 = false by decide,Bool.or_false,Bool.false_and])
  refine ⟨read.quiet,tagged.quiet,read₁.quiet,cleared.quiet,read₂.quiet,enabled.quiet,read₃.quiet,locked.quiet,
    locked,unlocked.off,?_,configured,?_⟩
  · change bit ((s.1.regs .CTRL ||| ((1 : UInt32) <<< 1)) &&& ~~~((1 : UInt32) <<< 2)) 1 = true
    rw [bit_and,bit_or,show bit ((1 : UInt32) <<< 1) 1 = true by decide,
      show bit (~~~((1 : UInt32) <<< 2)) 1 = true by decide,Bool.or_true,Bool.true_and]
  · change bit (s.1.regs .IRQSTATUS &&& ~~~(s.1.regs .IRQSTATUS ||| ((1 : UInt32) <<< 1))) 1 = false
    rw [bit_and,bit_not _ (by decide),bit_or,show bit ((1 : UInt32) <<< 1) 1 = true by decide]
    simp

/-- What `count` loads of the register `r` do to the FIFOs. -/
structure Drained (r : Reg) (count : Nat) (s t : Device × Memory) : Prop where
  regs : t.1.regs = s.1.regs
  memory : t.2 = s.2
  fifo0 : t.1.fifo0.words = if r = .FIFO0DATA then s.1.fifo0.words.drop count else s.1.fifo0.words
  fifo1 : t.1.fifo1.words = if r = .FIFO1DATA then s.1.fifo1.words.drop count else s.1.fifo1.words

theorem drained_one (r : Reg) (s : Device × Memory) : Drained r 1 s (io (.load r) s).2 := by
  refine ⟨by simp [io],rfl,?_,?_⟩
  · cases r <;> simp [io,Device.load,Fifo.pop]
  · cases r <;> simp [io,Device.load,Fifo.pop]

theorem drain_ensures (r : Reg) (count : Nat) (off : Disabled m s) :
    Ensures io (Quiet m) (fun _ => Drained r count s) (drain r count) s := by
  induction count generalizing s with
  | zero => exact ⟨rfl,rfl,by simp,by simp⟩
  | succ count ih =>
    have read := off.load r
    have one := drained_one r s
    refine ⟨read.quiet,ensures_mono (ih read) (fun _ => id) ?_⟩
    rintro ⟨⟩ t ⟨regs,memory,fifo0,fifo1⟩
    refine ⟨regs.trans one.regs,memory.trans one.memory,?_,?_⟩
    · rw [fifo0,one.fifo0]
      split <;> simp
    · rw [fifo1,one.fifo1]
      split <;> simp

/-- What `init_adc` is for: the converter is on, and its sequence can be started. -/
structure Ready (d : Device) : Prop where
  enabled : bit (d.regs .CTRL) 0 = true
  off : NoSteps d
  tagged : bit (d.regs .CTRL) 1 = true
  configured : ∀ c ∈ steps, d.regs (.STEPCONFIG c.1) = stepconfig c.2 0
  clear : bit (d.regs .IRQSTATUS) 1 = false
  empty0 : d.fifo0.words = []
  empty1 : d.fifo1.words = []

theorem toNat_count (f : Fifo) : (UInt32.ofNat f.words.length).toNat = f.words.length := by
  have := f.fits
  simp only [UInt32.toNat_ofNat']
  omega

theorem Configured.drained {r : Reg} {count : Nat} {t : Device × Memory} (configured : Configured m s)
    (drained : Drained r count s t) : Configured m t := by
  obtain ⟨⟨disabled,memory⟩,off,tagged,config,clear⟩ := configured
  refine ⟨⟨?_,drained.memory.trans memory⟩,?_,?_,?_,?_⟩
  · rwa [drained.regs]
  · unfold NoSteps
    rwa [drained.regs]
  · rwa [drained.regs]
  · rwa [drained.regs]
  · rwa [drained.regs]

theorem clear_fifos_ensures (configured : Configured m s) :
    Ensures io (Quiet m) (fun _ t => Configured m t ∧ t.1.fifo0.words = [] ∧ t.1.fifo1.words = []) clear_fifos s := by
  have first := drain_ensures .FIFO0DATA (UInt32.ofNat s.1.fifo0.words.length).toNat configured.toDisabled
  refine ⟨configured.quiet,@ensures_bind _ _ _ _ _ _ _ _ _ _ (drain .FIFO0DATA _) _ first ?_⟩
  rintro ⟨⟩ t drained
  have emptied : t.1.fifo0.words = [] := by
    rw [drained.fifo0,if_pos rfl]
    apply List.drop_of_length_le
    exact (toNat_count s.1.fifo0).ge
  have configured' := configured.drained drained
  refine ⟨configured'.quiet,ensures_mono (drain_ensures _ _ configured'.toDisabled) (fun _ => id) ?_⟩
  rintro ⟨⟩ u drained'
  refine ⟨configured'.drained drained',?_,?_⟩
  · rw [drained'.fifo0,if_neg (by simp)]
    exact emptied
  · rw [drained'.fifo1,if_pos rfl]
    apply List.drop_of_length_le
    exact (toNat_count t.1.fifo1).ge

theorem configure_adc_ensures (off : Disabled m s) (low : Low s.1) :
    Ensures io (Quiet m) (fun _ t => Ready t.1 ∧ t.2 = m) configure_adc s := by
  refine ensures_bind (disable_steps_ensures off low) fun _ _ unlocked => ?_
  refine ensures_bind (configure_ensures steps (by decide) unlocked) ?_
  rintro ⟨⟩ t ⟨unlocked',configured,-⟩
  refine ensures_bind (enable_interrupt_ensures unlocked' configured) fun _ _ configured' => ?_
  refine ensures_bind (clear_fifos_ensures configured') ?_
  rintro ⟨⟩ u ⟨configured'',empty0,empty1⟩
  refine ⟨configured''.quiet,⟨next_of_noSteps configured''.off,configured''.memory⟩,
    ⟨?_,configured''.off,?_,configured''.configured,configured''.clear,empty0,empty1⟩,configured''.memory⟩
  · change bit (u.1.regs .CTRL ||| 1) 0 = true
    rw [bit_or,show bit 1 0 = true by decide,Bool.or_true]
  · change bit (u.1.regs .CTRL ||| 1) 1 = true
    rw [bit_or,configured''.tagged,Bool.true_or]

/-! ### The sampling -/

-- By which number the converter knows a step.
variable {tag : Nat → UInt32}

/-- The word that a sample leaves in the FIFO. -/
def Sample.word (tag : Nat → UInt32) (x : Sample) : UInt32 := tagged (tag x.step) x.data

/-- The converter has taken the given samples since the sampling was started. -/
structure Sampling (tag : Nat → UInt32) (d : Device) (samples : List Sample) : Prop where
  few : samples.length ≤ 7
  enabled : bit (d.regs .CTRL) 0 = true
  tagged : bit (d.regs .CTRL) 1 = true
  configured : ∀ c ∈ steps, d.regs (.STEPCONFIG c.1) = stepconfig c.2 0
  left : ∀ k, 1 ≤ k → k ≤ 16 → bit (d.regs .STEPENABLE) k = decide (samples.length < k ∧ k ≤ 7)
  ended : bit (d.regs .IRQSTATUS) 1 = decide (samples.length = 7)
  words : d.fifo0.words = samples.map (Sample.word tag)

theorem Ready.start (ready : Ready d) : Sampling tag (d.store .STEPENABLE 0xfe) [] := by
  refine ⟨by simp,ready.enabled,ready.tagged,ready.configured,?_,?_,?_⟩
  · intro k positive last
    have all : ∀ k ≤ 16, 1 ≤ k → bit 0xfe k = decide (0 < k ∧ k ≤ 7) := by decide
    exact all k last positive
  · exact ready.clear
  · exact ready.empty0

variable {samples : List Sample}

theorem Sampling.next (sampling : Sampling tag d samples) :
    d.next = if samples.length < 7 then some (samples.length + 1) else none := by
  unfold Device.next
  rw [if_pos sampling.enabled]
  split
  · rename_i more
    rw [List.find?_range'_eq_some,sampling.left _ (Nat.le_add_left 1 _) (by omega)]
    refine ⟨decide_eq_true ⟨by omega,by omega⟩,by simp; omega,?_⟩
    intro k positive before
    rw [sampling.left k positive (by omega)]
    simp
    omega
  · simp only [List.find?_eq_none,List.mem_range'_1,Bool.not_eq_true]
    intro k inside
    rw [sampling.left k inside.1 (by omega)]
    simp
    omega

/-- The steps of the sequence with their configurations, in order. -/
def sequence : List (Nat × UInt32) := steps.map fun c => (c.1,stepconfig c.2 0)

def Sample.taken (x : Sample) : Nat × UInt32 := (x.step,x.config)

/-- The sample that the converter takes next. -/
def Device.sample (d : Device) (samples : List Sample) (data : UInt32) : Sample :=
  ⟨samples.length + 1,d.regs (.STEPCONFIG (samples.length + 1)),data⟩

theorem Sampling.sequence_next (sampling : Sampling tag d samples) (more : samples.length < 7) (data : UInt32) :
    sequence[samples.length]? = some (d.sample samples data).taken := by
  have all : ∀ k < 7, ∃ c ∈ steps, c.1 = k + 1 ∧ sequence[k]? = some (c.1,stepconfig c.2 0) := by decide
  obtain ⟨c,member,step,here⟩ := all samples.length more
  rw [here,← sampling.configured c member,step]
  rfl

/-- The steps of the sequence are in one-shot mode and use FIFO 0. -/
theorem Sampling.modes (sampling : Sampling tag d samples) (more : samples.length < 7) :
    bit (d.regs (.STEPCONFIG (samples.length + 1))) 0 = false ∧
      bit (d.regs (.STEPCONFIG (samples.length + 1))) 26 = false := by
  have all : ∀ k < 7, ∃ c ∈ steps, c.1 = k + 1 ∧ bit (stepconfig c.2 0) 0 = false ∧ bit (stepconfig c.2 0) 26 = false := by
    decide
  obtain ⟨c,member,step,one_shot,fifo⟩ := all samples.length more
  rw [← step,sampling.configured c member]
  exact ⟨one_shot,fifo⟩

theorem Sampling.convert (sampling : Sampling tag d samples) (more : samples.length < 7) (data : UInt32) :
    Sampling tag (d.convert tag (samples.length + 1) data) (samples ++ [d.sample samples data]) := by
  obtain ⟨one_shot,fifo⟩ := sampling.modes more
  have enabled : ∀ k, 1 ≤ k → k ≤ 16 →
      bit (d.regs .STEPENABLE &&& ~~~((1 : UInt32) <<< UInt32.ofNat (samples.length + 1))) k =
        decide (samples.length + 1 < k ∧ k ≤ 7) := by
    intro k positive last
    rw [bit_and,bit_not _ (by omega),bit_shift (by omega) (by omega),sampling.left k positive last]
    rw [Bool.eq_iff_iff]
    simp
    omega
  have ended : ((List.range' 1 16).all fun k =>
      !bit (d.regs .STEPENABLE &&& ~~~((1 : UInt32) <<< UInt32.ofNat (samples.length + 1))) k) =
        decide (samples.length + 1 = 7) := by
    rw [Bool.eq_iff_iff,List.all_eq_true,decide_eq_true_iff]
    constructor
    · intro all
      have at_last := all 7 (by simp)
      rw [enabled 7 (by omega) (by omega)] at at_last
      simp at at_last
      omega
    · intro last k inside
      obtain ⟨positive,small⟩ := List.mem_range'_1.mp inside
      rw [enabled k positive (by omega)]
      simp
      omega
  refine ⟨by simp; omega,sampling.enabled,sampling.tagged,sampling.configured,?_,?_,?_⟩
  · intro k positive last
    simp only [Device.convert,one_shot,List.length_append,List.length_singleton]
    exact enabled k positive last
  · have status := sampling.ended
    simp only [Device.convert,one_shot,Bool.false_eq_true,if_false,Function.update_self,ended,decide_eq_true_iff,
      List.length_append,List.length_singleton]
    by_cases last : samples.length + 1 = 7
    · rw [if_pos last,bit_or,show bit 2 1 = true by decide,Bool.or_true,decide_eq_true last]
    · rw [if_neg last,status,decide_eq_false last,decide_eq_false (by omega)]
  · simp only [Device.convert,fifo,sampling.tagged,Fifo.push,sampling.words]
    have few := sampling.few
    simp [Device.sample,Sample.word]
    omega

/-! ### The end of the sampling -/

theorem Sampling.noSteps (sampling : Sampling tag d samples) (all : samples.length = 7) : NoSteps d := by
  intro k positive last
  rw [sampling.left k positive last]
  simp
  omega

/-- The numbers that the PRU stores for a word. -/
def numbers (word : UInt32) : UInt32 × UInt32 := (step_id word,value word)

/-- They are the number of the step and the data. -/
theorem numbers_tagged (number data : UInt32) : numbers (tagged number data) = (number &&& 0xf,data &&& 0xfff) := by
  apply Prod.ext
  · apply bit_ext
    intro i inside
    have mask : ∀ i < 32, bit 0x000f0000 (16 + i) = bit 0xf i ∧ bit 0xfff (16 + i) = false := by decide
    obtain ⟨four,twelve⟩ := mask i inside
    show bit (step_id (tagged number data)) i = bit (number &&& 0xf) i
    rw [step_id,bit_shiftRight,bit_and,four,bit_and]
    by_cases small : i < 4
    · rw [tagged,bit_or,bit_and,twelve,bit_shiftLeft _ (by omega),Nat.add_sub_cancel_left,bit_and]
      simp
    · have none : ∀ i < 32, ¬ i < 4 → bit 0xf i = false := by decide
      rw [none i inside small,Bool.and_false,Bool.and_false]
  · apply bit_ext
    intro i inside
    show bit (tagged number data &&& 0xfff) i = bit (data &&& 0xfff) i
    rw [tagged,bit_and,bit_or,bit_and,bit_shiftLeft _ inside]
    by_cases small : i < 16
    · simp [Nat.not_le.mpr small]
    · have none : ∀ i < 32, ¬ i < 16 → bit 0xfff i = false := by decide
      rw [none i inside small,Bool.and_false,Bool.and_false]

/-- The words from place `i` on are stored in the shared memory. -/
def Stored (m : Memory) (i : Nat) (words : List UInt32) : Prop :=
  ∀ j (inside : j < words.length), (m ((i + j) * 2),m ((i + j) * 2 + 1)) = numbers words[j]

theorem copy_ensures (words : List UInt32) (i : Nat) (off : NoSteps s.1) (full : s.1.fifo0.words = words) :
    Ensures io (fun t => NoSteps t.1) (fun _ t => NoSteps t.1 ∧ Stored t.2 i words ∧ ∀ j < i * 2, t.2 j = s.2 j)
      (copy i words.length) s := by
  induction words generalizing i s with
  | nil => exact ⟨off,by simp [Stored],fun _ _ => rfl⟩
  | cons word rest ih =>
    have popped : (io (.load .FIFO0DATA) s).1 = word ∧ (io (.load .FIFO0DATA) s).2.1.fifo0.words = rest := by
      simp [io,Device.load,Fifo.pop,full]
    refine ⟨off,off,off,?_⟩
    rw [popped.1]
    refine ensures_mono (ih (i + 1) off popped.2) (fun _ => id) ?_
    rintro ⟨⟩ t ⟨off',stored,kept⟩
    have here : t.2 (i * 2) = step_id word ∧ t.2 (i * 2 + 1) = value word := by
      constructor
      · rw [kept _ (by omega)]
        simp [io]
      · rw [kept _ (by omega)]
        simp [io]
    refine ⟨off',?_,?_⟩
    · intro j inside
      cases j with
      | zero => exact Prod.ext here.1 here.2
      | succ j =>
        have later := stored j (by simpa using inside)
        rwa [show i + 1 + j = i + (j + 1) by omega] at later
    · intro j before
      rw [kept j (by omega)]
      simp only [io]
      rw [Function.update_of_ne (by omega),Function.update_of_ne (by omega)]

theorem read_samples_ensures (sampling : Sampling tag s.1 samples) (all : samples.length = 7) :
    Ensures io (fun t => NoSteps t.1) (fun _ t => NoSteps t.1 ∧ Stored t.2 0 (samples.map (Sample.word tag))) read_samples s := by
  have off := sampling.noSteps all
  refine ⟨off,off,off,?_⟩
  have counted := toNat_count s.1.fifo0
  change Ensures io _ _ (copy 0 (UInt32.ofNat s.1.fifo0.words.length).toNat) _
  rw [counted,sampling.words]
  refine ensures_mono (copy_ensures _ 0 off sampling.words) (fun _ => id) ?_
  rintro ⟨⟩ t ⟨off',stored,-⟩
  exact ⟨off',stored⟩

end NeslPru.Adc
