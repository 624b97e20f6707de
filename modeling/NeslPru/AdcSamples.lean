import NeslPru.AdcDevice

/-!
The run of the example `adc` as a whole: the converter, the PRU and the host at
any speeds. The host prints the seven samples of the sequence that the PRU has
started, in order and none of what the FIFO held before (`adc_prints_sequence`).
-/
namespace NeslPru.AdcSamples
open NeslPru.Access NeslPru.RelyGuarantee NeslPru.Alone NeslPru.Adc

-- By which number the converter knows a step.
variable (tag : Nat → UInt32)

/-- What the host should print: for each sample the four bits that tag its step
    and the twelve bits of data. -/
def lines (w : World) : List (UInt32 × UInt32) := w.converted.map fun x => (tag x.step &&& 0xf,x.data &&& 0xfff)

/-- The samples are those of the sequence, what is printed are their numbers from
    the first one on, and the host prints nothing before the last sample. -/
structure PrintsSequence (w : World) : Prop where
  ordered : w.converted.map Sample.taken <+: sequence
  printed : w.printed <+: lines tag w
  complete : w.printed ≠ [] → w.converted.length = 7
  finished : w.finished = true → w.printed = lines tag w ∧ w.converted.length = 7

/-- The PRU is done with the samples. -/
structure Copied (s : Device × Memory) (samples : List Sample) : Prop where
  off : NoSteps s.1
  all : samples.length = 7
  stored : Stored s.2 0 (samples.map (Sample.word tag))

structure Inv tag (w : World) : Prop where
  prints : PrintsSequence tag w
  fresh : w.started = false → w.converted = []
  running : w.started = true → Sampling tag w.io.1 w.converted ∨ (NoSteps w.io.1 ∧ w.converted.length = 7)
  done : w.event = true → w.exec = true ∧ Copied tag w.io w.converted

/-- What the other parties may do. While the converter has nothing to do, only
    the PRU changes it. -/
def Rely : Party → World → World → Prop
  | .converter, _, _ => True
  | .host, w, w' => w'.printed = w.printed ∧ w'.finished = w.finished ∧ w'.exec = w.exec ∧
      (w.event = true → w'.event = true ∧ w'.io.2 = w.io.2 ∧ w'.converted = w.converted)
  | .pru, w, w' => w'.event = w.event ∧ w'.started = w.started ∧
      (w.exec = true → w'.exec = true ∧ w'.io.2 = w.io.2) ∧
      (w.io.1.next = none → w'.io.1 = w.io.1 ∧ w'.converted = w.converted) ∧
      (w.started = true → Sampling tag w.io.1 w.converted → Sampling tag w'.io.1 w'.converted) ∧
      (Low w.io.1 → Low w'.io.1)

/-- What the PRU knows from the start of the sampling to its end. -/
structure Waiting (w : World) : Prop where
  exec : w.exec = true
  started : w.started = true
  silent : w.event = false
  sampling : Sampling tag w.io.1 w.converted

/-- What a party knows at the start of a block. -/
def Knows : Party → Block → World → Prop
  | .host, .host, w => w.exec = false ∧ w.printed = [] ∧ w.finished = false
  | .host, .line i _ _, w => w.event = true ∧ i < 7 ∧ w.printed = (lines tag w).take (i + 1) ∧ w.finished = false
  | .host, .finished, w => w.finished = true ∧ w.event = true
  | .pru, .pru, w => w.started = false ∧ w.event = false ∧ Low w.io.1
  | .pru, .started, w => Waiting tag w
  | .pru, .wait, w => Waiting tag w
  | .pru, .copied, w => w.exec = true ∧ w.started = true ∧ w.event = false ∧ Copied tag w.io w.converted
  | .pru, .halted, _ => True
  | .converter, .converter, _ => True
  | _, _, _ => False

def outline : Outline Party (system tag) where
  inv := Inv tag
  rely := Rely tag
  guar i _ w w' := ∀ j, j ≠ i → Rely tag j w w'
  pre := Knows tag
  refl i w := by cases i <;> simp [Rely]
  trans i w w' w'' := by
    cases i
    · rintro ⟨printed,finished,exec,kept⟩ ⟨printed',finished',exec',kept'⟩
      refine ⟨printed'.trans printed,finished'.trans finished,exec'.trans exec,fun on => ?_⟩
      obtain ⟨on',memory,converted⟩ := kept on
      obtain ⟨on'',memory',converted'⟩ := kept' on'
      exact ⟨on'',memory'.trans memory,converted'.trans converted⟩
    · rintro ⟨event,started,exec,quiet,sampling,low⟩ ⟨event',started',exec',quiet',sampling',low'⟩
      refine ⟨event'.trans event,started'.trans started,fun on => ?_,fun idle => ?_,fun on here => ?_,fun here => low' (low here)⟩
      · obtain ⟨on',memory⟩ := exec on
        obtain ⟨on'',memory'⟩ := exec' on'
        exact ⟨on'',memory'.trans memory⟩
      · obtain ⟨device,converted⟩ := quiet idle
        obtain ⟨device',converted'⟩ := quiet' (by rwa [device])
        exact ⟨device'.trans device,converted'.trans converted⟩
      · exact sampling' (started.trans on) (sampling on here)
    · exact fun _ _ => trivial
  compat other kept := kept _ (Ne.symm other)

variable {tag : Nat → UInt32} {w w' : World}

/-- The converter and the shared memory as a part of the world. -/
def component : Component (system tag) Io.Answer (Device × Memory) :=
  .of World.io (fun w s => { w with io := s }) (fun _ _ => rfl) Access.io io (fun _ _ _ => rfl)

/-! ### The converter -/

theorem convert_low {d : Device} (low : Low d) (step : Nat) (data : UInt32) : Low (d.convert tag step data) := by
  intro k first last
  simp only [Device.convert]
  rw [Function.update_of_ne (by simp),Function.update_self]
  split
  · exact low k first last
  · rw [bit_and,low k first last,Bool.false_and]

/-- A conversion is either of a sample of the sequence or not yet recorded. -/
theorem convert_cases (inv : Inv tag w) {step : Nat} (next : w.io.1.next = some step) (data : UInt32) :
    (w.started = false ∧ w.converted = [] ∧ (w.convert tag step data).converted = []) ∨
    (w.started = true ∧ w.converted.length < 7 ∧ Sampling tag w.io.1 w.converted ∧ step = w.converted.length + 1 ∧
      (w.convert tag step data).converted = w.converted ++ [w.io.1.sample w.converted data]) := by
  cases started : w.started with
  | false =>
    have fresh := inv.fresh started
    exact .inl ⟨rfl,fresh,by simp [World.convert,started]⟩
  | true =>
    rcases inv.running started with sampling | ⟨off,-⟩
    · rw [sampling.next] at next
      split at next
      · cases next
        exact .inr ⟨rfl,‹_›,sampling,rfl,by simp [World.convert,started,Device.sample]⟩
      · cases next
    · rw [next_of_noSteps off] at next
      cases next

theorem sampling_of_convert (inv : Inv tag w) {step : Nat} (next : w.io.1.next = some step) (data : UInt32)
    (started : w.started = true) : Sampling tag (w.convert tag step data).io.1 (w.convert tag step data).converted := by
  rcases convert_cases inv next data with ⟨off,-⟩ | ⟨-,more,sampling,rfl,converted⟩
  · simp [started] at off
  · rw [converted]
    exact sampling.convert more data

/-- Before the last sample nothing has been printed. -/
theorem printed_none (inv : Inv tag w) (more : w.converted.length < 7) : w.printed = [] ∧ w.finished = false := by
  constructor
  · by_contra printed
    have := inv.prints.complete printed
    omega
  · by_contra finished
    have := (inv.prints.finished (by simpa using finished)).2
    omega

theorem convert_inv (inv : Inv tag w) {step : Nat} (next : w.io.1.next = some step) (data : UInt32) :
    Inv tag (w.convert tag step data) := by
  have silent : w.event = true → False := by
    intro on
    rw [next_of_noSteps (inv.done on).2.off] at next
    cases next
  have more : w.converted.length < 7 := by
    rcases convert_cases inv next data with ⟨-,none,-⟩ | ⟨-,more,-⟩
    · simp [none]
    · exact more
  obtain ⟨printed,finished⟩ := printed_none inv more
  refine ⟨⟨?_,?_,?_,?_⟩,?_,?_,fun on => (silent on).elim⟩
  · rcases convert_cases inv next data with ⟨-,-,none⟩ | ⟨-,more,sampling,-,converted⟩
    · rw [none]
      exact List.nil_prefix
    · have here := sampling.sequence_next more data
      have ordered := inv.prints.ordered
      rw [List.prefix_iff_eq_take,List.length_map] at ordered
      rw [converted,List.map_append,ordered,List.map_singleton]
      obtain ⟨inside,same⟩ := List.getElem?_eq_some_iff.mp here
      rw [← same,List.take_append_getElem]
      exact List.take_prefix _ _
  · change w.printed <+: _
    rw [printed]
    exact List.nil_prefix
  · intro some
    exact absurd printed some
  · intro ended
    change w.finished = true at ended
    simp [finished] at ended
  · intro off
    change w.started = false at off
    simp [World.convert,off]
  · intro on
    exact .inl (sampling_of_convert inv next data on)

theorem convert_sat : (outline tag).Sat .converter (body .converter) w := by
  intro w₁ data r t _ (inv : Inv tag w₁) acted
  simp only [system,act] at acted
  cases next : w₁.io.1.next with
  | none => simp [next] at acted
  | some step =>
    rw [next] at acted
    cases acted
    refine ⟨convert_inv inv next data,?_,trivial⟩
    rintro (_ | _ | _) other
    · refine ⟨rfl,rfl,rfl,fun on => ?_⟩
      rw [next_of_noSteps (inv.done on).2.off] at next
      cases next
    · refine ⟨rfl,rfl,fun on => ⟨on,rfl⟩,fun idle => ?_,fun on _ => sampling_of_convert inv next data on,
        fun low => convert_low low step data⟩
      rw [idle] at next
      cases next
    · exact trivial

/-! ### The PRU -/

/-- What the PRU does before the interrupt is not seen by the host. -/
theorem pru_changes (inv : Inv tag w) (silent : w.event = false) (s : Device × Memory) (started : Bool)
    (fresh : started = false → w.converted = [])
    (running : started = true → Sampling tag s.1 w.converted ∨ (NoSteps s.1 ∧ w.converted.length = 7)) :
    Inv tag { w with io := s, started := started } ∧ ∀ j, j ≠ .pru → Rely tag j w { w with io := s, started := started } := by
  constructor
  · refine ⟨⟨inv.prints.ordered,inv.prints.printed,inv.prints.complete,inv.prints.finished⟩,fresh,running,fun on => ?_⟩
    change w.event = true at on
    simp [silent] at on
  · rintro (_ | _ | _) other
    · exact ⟨rfl,rfl,rfl,fun on => by simp [silent] at on⟩
    · exact absurd rfl other
    · exact trivial

/-- What the PRU knows while it sets up the converter. -/
structure Unstarted (w : World) : Prop where
  exec : w.exec = true
  off : w.started = false
  silent : w.event = false

theorem Unstarted.stable (here : Unstarted w) (relied : Rely tag .pru w w') : Unstarted w' :=
  ⟨(relied.2.2.1 here.exec).1,relied.2.1.trans here.off,relied.1.trans here.silent⟩

theorem Unstarted.io (here : Unstarted w) (inv : Inv tag w) (s : Device × Memory) :
    Unstarted { w with io := s } ∧ Inv tag { w with io := s } ∧ ∀ j, j ≠ .pru → Rely tag j w { w with io := s } := by
  obtain ⟨exec,off,silent⟩ := here
  obtain ⟨inv',seen⟩ := pru_changes inv silent s w.started inv.fresh (fun on => by simp [off] at on)
  exact ⟨⟨exec,off,silent⟩,inv',seen⟩

/-- An access before the converter has been disabled. -/
theorem sat_io {a : Io} {next : a.Answer → Code} (more : ∀ r, (next r).isAccess = true)
    (keeps : ∀ s, Low s.1 → Low (io a s).2.1) (here : Unstarted w) (low : Low w.io.1)
    (later : ∀ r w', Unstarted w' → Low w'.io.1 → (∃ s, w'.io = (io a s).2) → (outline tag).Sat .pru (next r) w') :
    (outline tag).Sat .pru (.access (.io a) next) w := by
  intro w₁ _ r t relied (inv : Inv tag w₁) acted
  cases acted
  have here₁ := here.stable relied
  have low₁ := relied.2.2.2.2.2 low
  obtain ⟨here₂,inv₂,seen⟩ := here₁.io inv (io a w₁.io).2
  rw [(system tag).settle_of_isAccess (more _)]
  exact ⟨inv₂,seen,later _ _ here₂ (keeps _ low₁) ⟨w₁.io,rfl⟩⟩

theorem sampling_sat (here : Unstarted w) (ready : Ready w.io.1) :
    (outline tag).Sat .pru (onIo adc_start_sampling >>= fun _ => .ret .started) w := by
  intro w₁ _ r t relied (inv : Inv tag w₁) acted
  cases acted
  have here₁ := here.stable relied
  obtain ⟨same,-⟩ := relied.2.2.2.1 (next_of_noSteps ready.off)
  have sampling : Sampling tag (w₁.io.1.store .STEPENABLE 0xfe) w₁.converted := by
    rw [same,inv.fresh here₁.off]
    exact ready.start
  obtain ⟨inv',seen⟩ := pru_changes inv here₁.silent (w₁.io.1.store .STEPENABLE 0xfe,w₁.io.2) true nofun
    (fun _ => .inl sampling)
  exact ⟨inv',seen,here₁.exec,rfl,here₁.silent,sampling⟩

theorem configure_sat (here : Unstarted w) (disabled : bit (w.io.1.regs .CTRL) 0 = false) (low : Low w.io.1) :
    (outline tag).Sat .pru (onIo configure_adc >>= fun _ => onIo adc_start_sampling >>= fun _ => .ret .started) w := by
  have off : Disabled w.io.2 w.io := ⟨disabled,rfl⟩
  refine sat_ensures (outline tag) component Unstarted ?_ ?_ ?_ configure_adc rfl here off.quiet (configure_adc_ensures off low)
  · intro w₁ w₂ here₁ quiet relied inv
    obtain ⟨device,-⟩ := relied.2.2.2.1 quiet.1
    obtain ⟨-,memory⟩ := relied.2.2.1 here₁.exec
    exact ⟨here₁.stable relied,Prod.ext device memory⟩
  · intro a w₁ s here₁ inv quiet
    exact here₁.io inv s
  · rintro ⟨⟩ a w₁ s here₁ inv quiet ⟨ready,-⟩
    obtain ⟨here₂,inv₂,seen⟩ := here₁.io inv s
    exact ⟨inv₂,seen,sampling_sat here₂ ready⟩

theorem pru_sat (knows : Knows tag .pru .pru w) : (outline tag).Sat .pru (body .pru) w := by
  obtain ⟨off,silent,low⟩ := knows
  intro w₁ _ r t relied (inv : Inv tag w₁) acted
  simp only [system,act] at acted
  split at acted
  · cases acted
    have here : Unstarted w₁ := ⟨‹_›,relied.2.1.trans off,relied.1.trans silent⟩
    have low₁ := relied.2.2.2.2.2 low
    refine ⟨inv,fun j _ => (outline tag).refl j w₁,?_⟩
    refine sat_io (fun _ => rfl) (fun _ low => low) here low₁ fun _ w₂ here₂ low₂ _ => ?_
    refine sat_io (fun _ => rfl) (fun _ low => low) here₂ low₂ fun _ w₃ here₃ low₃ _ => ?_
    refine sat_io (fun _ => rfl) (fun _ low => low) here₃ low₃ fun _ w₄ here₄ low₄ _ => ?_
    refine sat_io (fun _ => rfl) (fun _ low => low) here₄ low₄ fun v w₅ here₅ low₅ _ => ?_
    refine sat_io (fun _ => rfl) (fun _ low => low) here₅ low₅ fun _ w₆ here₆ low₆ ⟨s,stored⟩ => ?_
    have disabled : bit (w₆.io.1.regs .CTRL) 0 = false := by
      rw [stored]
      change bit (v &&& ~~~0x01) 0 = false
      rw [bit_and,show bit (~~~0x01) 0 = false by decide,Bool.and_false]
    exact configure_sat here₆ disabled low₆
  · cases acted

/-- What the PRU knows while it copies the samples. -/
structure Reading (samples : List Sample) (w : World) : Prop where
  exec : w.exec = true
  started : w.started = true
  silent : w.event = false
  converted : w.converted = samples

theorem read_sat {samples : List Sample} (all : samples.length = 7) (reading : Reading samples w)
    (sampling : Sampling tag w.io.1 samples) : (outline tag).Sat .pru (onIo read_samples >>= fun _ => .ret .copied) w := by
  -- Nobody else changes the converter once all steps are off.
  refine sat_ensures (outline tag) component (Reading samples) ?_ ?_ ?_ read_samples rfl reading (sampling.noSteps all)
    (read_samples_ensures sampling all)
  · rintro w₁ w₂ ⟨exec,started,silent,converted⟩ off relied inv
    obtain ⟨device,converted'⟩ := relied.2.2.2.1 (next_of_noSteps off)
    obtain ⟨exec',memory⟩ := relied.2.2.1 exec
    exact ⟨⟨exec',relied.2.1.trans started,relied.1.trans silent,converted'.trans converted⟩,Prod.ext device memory⟩
  · rintro a w₁ s ⟨exec,started,silent,rfl⟩ inv off
    obtain ⟨inv',seen⟩ := pru_changes inv silent s w₁.started inv.fresh (fun _ => .inr ⟨off,all⟩)
    exact ⟨⟨exec,started,silent,rfl⟩,inv',seen⟩
  · rintro ⟨⟩ a w₁ s ⟨exec,started,silent,rfl⟩ inv off ⟨-,stored⟩
    obtain ⟨inv',seen⟩ := pru_changes inv silent s w₁.started inv.fresh (fun _ => .inr ⟨off,all⟩)
    exact ⟨inv',seen,exec,started,silent,off,all,stored⟩

theorem Waiting.stable (waiting : Waiting tag w) (relied : Rely tag .pru w w') : Waiting tag w' :=
  ⟨(relied.2.2.1 waiting.exec).1,relied.2.1.trans waiting.started,relied.1.trans waiting.silent,
    relied.2.2.2.2.1 waiting.started waiting.sampling⟩

theorem wait_sat (waiting : Waiting tag w) : (outline tag).Sat .pru wait_for_adc w := by
  intro w₁ _ r t relied (inv : Inv tag w₁) acted
  cases acted
  have waiting₁ := waiting.stable relied
  have sampling := waiting₁.sampling
  have seen : ∀ j, j ≠ .pru → Rely tag j w₁ w₁ := fun j _ => (outline tag).refl j w₁
  let rest : Code := if w₁.io.1.regs .IRQSTATUS &&& ((1 : UInt32) <<< 1) = 0 then .ret .wait
    else onIo read_samples >>= fun _ => .ret .copied
  change Inv tag ((system tag).settle rest w₁) ∧ (∀ j, j ≠ .pru → Rely tag j w₁ ((system tag).settle rest w₁)) ∧
    (outline tag).Sat .pru rest w₁
  simp only [rest]
  split
  · exact ⟨inv,seen,waiting₁⟩
  · rename_i set
    have all : w₁.converted.length = 7 := by
      rw [and_eq_zero_iff,sampling.ended] at set
      simpa using set
    exact ⟨inv,seen,read_sat all ⟨waiting₁.exec,waiting₁.started,waiting₁.silent,rfl⟩ sampling⟩

theorem copied_sat (knows : Knows tag .pru .copied w) : (outline tag).Sat .pru (body .copied) w := by
  obtain ⟨exec,started,silent,copied⟩ := knows
  intro w₁ _ r t relied (inv : Inv tag w₁) acted
  cases acted
  obtain ⟨silent',-,kept,idle,-⟩ := relied
  obtain ⟨exec₁,memory⟩ := kept exec
  obtain ⟨device,converted⟩ := idle (next_of_noSteps copied.off)
  have copied₁ : Copied tag w₁.io w₁.converted := by
    rw [show w₁.io = w.io from Prod.ext device memory,converted]
    exact copied
  refine ⟨⟨⟨inv.prints.ordered,inv.prints.printed,inv.prints.complete,inv.prints.finished⟩,inv.fresh,inv.running,
    fun _ => ⟨exec₁,copied₁⟩⟩,?_,trivial⟩
  rintro (_ | _ | _) other
  · exact ⟨rfl,rfl,rfl,fun on => ⟨rfl,rfl,rfl⟩⟩
  · exact absurd rfl other
  · exact trivial

theorem halted_sat : (outline tag).Sat .pru (body .halted) w := by
  intro w₁ _ r t _ inv acted
  cases acted
  exact ⟨inv,fun j _ => (outline tag).refl j w₁,trivial⟩

/-! ### The host -/

/-- The others do not see what the host prints. -/
theorem host_changes (inv : Inv tag w) (printed : List (UInt32 × UInt32)) (finished : Bool)
    (prints : PrintsSequence tag { w with printed := printed, finished := finished }) :
    Inv tag { w with printed := printed, finished := finished } ∧
      ∀ j, j ≠ .host → Rely tag j w { w with printed := printed, finished := finished } := by
  refine ⟨⟨prints,inv.fresh,inv.running,inv.done⟩,?_⟩
  rintro (_ | _ | _) other
  · exact absurd rfl other
  · exact (outline tag).refl .pru w
  · exact trivial

/-- The memory and the samples that the host prints are fixed. -/
structure Printing (tag : Nat → UInt32) (i : Nat) (w : World) : Prop where
  event : w.event = true
  printed : w.printed = (lines tag w).take i
  unfinished : w.finished = false

theorem Printing.stable {i : Nat} (printing : Printing tag i w) (relied : Rely tag .host w w') : Printing tag i w' := by
  obtain ⟨printed,finished,-,kept⟩ := relied
  obtain ⟨event,-,converted⟩ := kept printing.event
  refine ⟨event,?_,finished.trans printing.unfinished⟩
  rw [printed,printing.printed,lines,lines,converted]

theorem print_sat {i : Nat} (small : i < 7) (printing : Printing tag i w) : (outline tag).Sat .host (print_line i) w := by
  intro w₁ _ r t relied (inv : Inv tag w₁) acted
  cases acted
  have printing₁ := printing.stable relied
  refine ⟨inv,fun j _ => (outline tag).refl j w₁,?_⟩
  intro w₂ _ r t relied' (inv₂ : Inv tag w₂) acted
  cases acted
  have printing₂ := printing₁.stable relied'
  obtain ⟨exec,off,all,stored⟩ := inv₂.done printing₂.event
  obtain ⟨-,memory,-⟩ := relied'.2.2.2 printing₁.event
  have inside : i < (w₂.converted.map (Sample.word tag)).length := by simp [all,small]
  have here : (w₁.io.2 (i * 2),w₂.io.2 (i * 2 + 1)) = numbers (w₂.converted.map (Sample.word tag))[i] := by
    have at_i := stored i inside
    rw [Nat.zero_add] at at_i
    rw [← memory]
    exact at_i
  have longer : w₂.printed ++ [(w₁.io.2 (i * 2),w₂.io.2 (i * 2 + 1))] = (lines tag w₂).take (i + 1) := by
    have inside' : i < (lines tag w₂).length := by simp [lines,all,small]
    rw [printing₂.printed,← List.take_append_getElem inside',here]
    simp [lines,Sample.word,numbers_tagged]
  obtain ⟨inv₃,seen⟩ := host_changes inv₂ (w₂.printed ++ [(w₁.io.2 (i * 2),w₂.io.2 (i * 2 + 1))]) w₂.finished
    ⟨inv₂.prints.ordered,by rw [longer]; exact List.take_prefix _ _,fun _ => all,
      fun on => by simp [printing₂.unfinished] at on⟩
  exact ⟨inv₃,seen,printing₂.event,small,longer,printing₂.unfinished⟩

theorem line_sat {i : Nat} {step_id value : UInt32} (knows : Knows tag .host (.line i step_id value) w) :
    (outline tag).Sat .host (body (.line i step_id value)) w := by
  obtain ⟨event,small,printed,unfinished⟩ := knows
  have printing : Printing tag (i + 1) w := ⟨event,printed,unfinished⟩
  simp only [body]
  split
  · exact print_sat ‹_› printing
  · intro w₁ _ r t relied (inv : Inv tag w₁) acted
    cases acted
    have printing₁ := printing.stable relied
    obtain ⟨exec,-,all,-⟩ := inv.done printing₁.event
    have whole : w₁.printed = lines tag w₁ := by
      rw [printing₁.printed]
      apply List.take_of_length_le
      simp [lines,all]
      omega
    obtain ⟨inv',seen⟩ := host_changes inv w₁.printed true
      ⟨inv.prints.ordered,inv.prints.printed,inv.prints.complete,fun _ => ⟨whole,all⟩⟩
    exact ⟨inv',seen,rfl,printing₁.event⟩

theorem host_sat (knows : Knows tag .host .host w) : (outline tag).Sat .host (body .host) w := by
  obtain ⟨idle,none,unfinished⟩ := knows
  intro w₁ _ r t relied (inv : Inv tag w₁) acted
  cases acted
  have idle₁ : w₁.exec = false := relied.2.2.1.trans idle
  have none₁ : w₁.printed = [] := relied.1.trans none
  have unfinished₁ : w₁.finished = false := relied.2.1.trans unfinished
  refine ⟨⟨⟨inv.prints.ordered,inv.prints.printed,inv.prints.complete,inv.prints.finished⟩,inv.fresh,inv.running,fun on => ?_⟩,?_,?_⟩
  · have running := (inv.done on).1
    simp [idle₁] at running
  · rintro (_ | _ | _) other
    · exact absurd rfl other
    · exact ⟨rfl,rfl,fun on => by simp [idle₁] at on,fun _ => ⟨rfl,rfl⟩,fun _ here => here,fun here => here⟩
    · exact trivial
  · intro w₂ _ r t relied' (inv₂ : Inv tag w₂) acted
    cases acted
    refine ⟨⟨⟨inv₂.prints.ordered,inv₂.prints.printed,inv₂.prints.complete,inv₂.prints.finished⟩,inv₂.fresh,inv₂.running,
      fun on => ⟨rfl,(inv₂.done on).2⟩⟩,?_,?_⟩
    · rintro (_ | _ | _) other
      · exact absurd rfl other
      · exact ⟨rfl,rfl,fun _ => ⟨rfl,rfl⟩,fun _ => ⟨rfl,rfl⟩,fun _ here => here,fun here => here⟩
      · exact trivial
    · intro w₃ _ r t relied'' inv₃ acted
      simp only [system,act] at acted
      split at acted
      · cases acted
        refine ⟨inv₃,fun j _ => (outline tag).refl j w₃,print_sat (by omega) ⟨‹_›,?_,?_⟩⟩
        · rw [List.take_zero]
          exact relied''.1.trans (relied'.1.trans none₁)
        · exact relied''.2.1.trans (relied'.2.1.trans unfinished₁)
      · cases acted

theorem finished_sat (knows : Knows tag .host .finished w) : (outline tag).Sat .host (body .finished) w := by
  obtain ⟨ended,event⟩ := knows
  intro w₁ _ r t relied (inv : Inv tag w₁) acted
  cases acted
  obtain ⟨-,finished,-,kept⟩ := relied
  have ended₁ := inv.prints.finished (finished.trans ended)
  obtain ⟨inv',seen⟩ := host_changes inv w₁.printed true
    ⟨inv.prints.ordered,inv.prints.printed,inv.prints.complete,fun _ => ended₁⟩
  exact ⟨inv',seen,rfl,(kept event).1⟩

theorem outline_proved : (outline tag).Proved := by
  intro i b w _ knows
  cases i with
  | host =>
    cases b with
    | host => exact host_sat knows
    | line i step_id value => exact @line_sat tag w i step_id value knows
    | finished => exact finished_sat knows
    | _ => exact knows.elim
  | pru =>
    cases b with
    | pru => exact pru_sat knows
    | started => exact wait_sat knows
    | wait => exact wait_sat knows
    | copied => exact copied_sat knows
    | halted => exact halted_sat
    | _ => exact knows.elim
  | converter =>
    cases b with
    | converter => exact convert_sat
    | _ => exact knows.elim

/-- Whatever the registers and the FIFOs hold, as long as steps 8 to 16 are off,
    however the converter tags the steps, and at whatever speeds the three run, the
    host prints the samples of the sequence. -/
theorem adc_prints_sequence (tag : Nat → UInt32) (d : Device) (m : Memory) (low : Low d) (schedule : List (Party × UInt32)) :
    PrintsSequence tag ((system tag).run ((system tag).start (initial d m) first) schedule).shared := by
  have start : Inv tag (initial d m) :=
    ⟨⟨List.nil_prefix,List.nil_prefix,fun none => absurd rfl none,nofun⟩,fun _ => rfl,nofun,nofun⟩
  refine ((outline tag).sound outline_proved start ?_ schedule).inv.prints
  rintro (_ | _ | _)
  · exact ⟨rfl,rfl,rfl⟩
  · exact ⟨rfl,rfl,low⟩
  · exact trivial

/-- A converter that is sampling when the program starts. -/
def used : Device where
  regs r := if r = .STEPENABLE then 0xff else 1
  fifo0 := ⟨[5,6],by decide⟩
  fifo1 := ⟨[7],by decide⟩

theorem used_low : Low used := by
  intro k first last
  change bit 0xff k = false
  rw [low_bits (by omega)]
  simp
  omega

/-- A sample before the start, and then the sequence, by a converter that knows a
    step by its number. -/
def whole : List (Party × UInt32) :=
  [(.converter,8),(.host,0),(.host,0)] ++ List.replicate 60 (.pru,0) ++
    [0xf111,0x222,0x333,0x444,0x555,0x666,0x777].map (fun data => (.converter,data)) ++
    List.replicate 60 (.pru,0) ++ List.replicate 20 (.host,0)

set_option maxRecDepth 100000 in
theorem whole_prints_sequence : Low used ∧
    PrintsSequence UInt32.ofNat
      ((system UInt32.ofNat).run ((system UInt32.ofNat).start (initial used fun _ => 9) first) whole).shared ∧
    ((system UInt32.ofNat).run ((system UInt32.ofNat).start (initial used fun _ => 9) first) whole).shared.printed =
      [(1,0x111),(2,0x222),(3,0x333),(4,0x444),(5,0x555),(6,0x666),(7,0x777)] :=
  ⟨used_low,adc_prints_sequence UInt32.ofNat used (fun _ => 9) used_low whole,by decide⟩

end NeslPru.AdcSamples
