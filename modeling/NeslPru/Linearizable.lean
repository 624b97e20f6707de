import NeslPru.Calls
import NeslPru.RelyGuarantee

/-!
Objects that several parties call at the same time. An `Interface` has a program
for each call, and a machine that says what the calls do one after the other. If
every program does its work in its last access (`Lawful`), then in every run the
calls, in the order of their returns, are answered as the machine answers them
(`Lawful.linear`). Objects side by side are an object again (`Lawful.prod`), and
so is an object that is laid out in a larger memory (`Lawful.place`).
-/
namespace NeslPru.Linearizable
open NeslPru.Access NeslPru.RelyGuarantee NeslPru.Calls

variable {Party A A' A₁ A₂ : Type} {R : A → Type} {R' : A' → Type} {R₁ : A₁ → Type} {R₂ : A₂ → Type}
variable {σ τ σ₁ σ₂ α β Call Reply State Call' Reply' State' Call₁ Reply₁ State₁ Call₂ Reply₂ State₂ : Type}

/-! ### Atomic programs -/

section
variable {device : (a : A) → σ → R a × σ} {inv inv' : σ → Prop} {rely rely' : σ → σ → Prop}
  {silent silent' : A → σ → σ → Prop}

/-- What is known of the accesses of an atomic program may be weakened, and its
    value be mapped. -/
theorem atomic_map {commit : α → A → σ → σ → Prop} {commit' : β → A → σ → σ → Prop} (f : α → β)
    (relies : ∀ m m', rely' m m' → inv' m' → rely m m' ∧ inv m') (silences : ∀ a m m', inv' m → silent a m m' → silent' a m m')
    (commits : ∀ v a m m', inv' m → commit v a m m' → commit' (f v) a m m') (p : Prog A R α) {m : σ}
    (atomic : Atomic device inv rely silent commit p m) :
    Atomic device inv' rely' silent' commit' (p >>= fun v => .ret (f v)) m := by
  induction p generalizing m with
  | ret v => exact atomic.elim
  | access a next ih =>
    intro m' relied valid'
    obtain ⟨relied',valid⟩ := relies m m' relied valid'
    obtain ⟨last,more⟩ := atomic m' relied' valid
    have rest := @ih (device a m').1 (device a m').2
    show (∀ v', (next (device a m').1 >>= fun v => Prog.ret (f v)) = .ret v' → commit' v' a m' (device a m').2) ∧
      ((next (device a m').1 >>= fun v => Prog.ret (f v)).isAccess = true → silent' a m' (device a m').2 ∧
        Atomic device inv' rely' silent' commit' (next (device a m').1 >>= fun v => .ret (f v)) (device a m').2)
    generalize next (device a m').1 = after at last more rest
    cases after with
    | ret v =>
      refine ⟨fun v' done => ?_,fun more => by cases more⟩
      obtain rfl : f v = v' := by cases done; rfl
      exact commits v a m' _ valid' (last v rfl)
    | access b next' =>
      obtain ⟨silence,atomic'⟩ := more rfl
      refine ⟨fun v done => (by cases done),fun _ => ?_⟩
      exact ⟨silences a m' _ valid' silence,rest atomic'⟩

/-- An atomic program whose accesses are all of `Q`. -/
theorem atomic_only {commit : α → A → σ → σ → Prop} {Q : A → Prop} {P : α → Prop} (p : Prog A R α) {m : σ}
    (atomic : Atomic device inv rely silent commit p m) (only : p.Only Q P) :
    Atomic device inv rely (fun a m m' => Q a ∧ silent a m m') (fun v a m m' => Q a ∧ commit v a m m') p m := by
  induction p generalizing m with
  | ret v => exact atomic.elim
  | access a next ih =>
    intro m' relied valid
    obtain ⟨last,more⟩ := atomic m' relied valid
    obtain ⟨here,later⟩ := only
    refine ⟨fun v done => ⟨here,last v done⟩,fun more' => ?_⟩
    obtain ⟨silence,atomic'⟩ := more more'
    exact ⟨⟨here,silence⟩,ih _ atomic' (later _)⟩

end

/-- An atomic program on a part of a larger memory, where the accesses that it
    makes act as on the part alone. -/
theorem atomic_embed {device : (a : A) → σ → R a × σ} {device' : (a : A') → τ → R' a × τ} {inv : σ → Prop}
    {inv' : τ → Prop} {rely : σ → σ → Prop} {rely' : τ → τ → Prop} {silent : A → σ → σ → Prop}
    {silent' : A' → τ → τ → Prop} {commit : α → A → σ → σ → Prop} {commit' : α → A' → τ → τ → Prop} {inj : A → A'}
    {answer : ∀ a, R' (inj a) → R a} (get : τ → σ) (allowed : A → Prop)
    (agrees : ∀ a t, allowed a →
      answer a (device' (inj a) t).1 = (device a (get t)).1 ∧ get (device' (inj a) t).2 = (device a (get t)).2)
    (relies : ∀ t t', rely' t t' → inv' t' → rely (get t) (get t') ∧ inv (get t'))
    (silences : ∀ a t, inv' t → silent a (get t) (device a (get t)).2 →
      allowed a ∧ silent' (inj a) t (device' (inj a) t).2)
    (commits : ∀ v a t, inv' t → commit v a (get t) (device a (get t)).2 →
      allowed a ∧ commit' v (inj a) t (device' (inj a) t).2)
    (p : Prog A R α) {t : τ} (atomic : Atomic device inv rely silent commit p (get t)) :
    Atomic device' inv' rely' silent' commit' (p.embed inj answer) t := by
  induction p generalizing t with
  | ret v => exact atomic.elim
  | access a next ih =>
    intro t' relied valid'
    obtain ⟨relied',valid⟩ := relies t t' relied valid'
    obtain ⟨last,more⟩ := atomic (get t') relied' valid
    have rest := @ih (device a (get t')).1 (device' (inj a) t').2
    cases after : next (device a (get t')).1 with
    | ret v =>
      obtain ⟨fine,committed⟩ := commits v a t' valid' (last v after)
      simp only [(agrees a t' fine).1,after]
      refine ⟨?_,fun more => by simp [Prog.embed,Prog.isAccess] at more⟩
      rintro _ ⟨⟩
      exact committed
    | access b next' =>
      obtain ⟨silence,atomic'⟩ := more (by rw [after]; rfl)
      obtain ⟨fine,silence'⟩ := silences a t' valid' silence
      obtain ⟨same,same'⟩ := agrees a t' fine
      rw [after,← same'] at atomic'
      rw [after] at rest
      simp only [same,after]
      exact ⟨fun v done => (by cases done),fun _ => ⟨silence',rest atomic'⟩⟩

/-! ### Objects -/

/-- A program for each call of an object, on a device that the parties share.
    `spec` says what the calls do to the states that the memory represents, and
    `rely` what a party assumes of the others. -/
structure Interface (Party : Type) {A : Type} (R : A → Type) (σ Call Reply State : Type) where
  device : (a : A) → σ → R a × σ
  prog : Call → Prog A R Reply
  may : Party → Call → Prop
  allowed : A → Prop
  spec : Machine Call Reply State
  represents : σ → State → Prop
  rely : Party → σ → σ → Prop

namespace Interface

variable (I : Interface Party R σ Call Reply State)

/-- An access of a party of which nothing is to be seen. -/
def Silent (i : Party) (a : A) (m m' : σ) : Prop :=
  I.allowed a ∧ (∀ q, I.represents m q → I.represents m' q) ∧ ∀ j, j ≠ i → I.rely j m m'

/-- The access with which a party's call takes effect and returns. -/
def Commits (i : Party) (call : Call) (reply : Reply) (a : A) (m m' : σ) : Prop :=
  I.allowed a ∧ (∀ q, I.represents m q → reply = (I.spec.answer q call).1 ∧ I.represents m' (I.spec.answer q call).2) ∧
    ∀ j, j ≠ i → I.rely j m m'

/-- Some state is represented. -/
def Valid (m : σ) : Prop := ∃ q, I.represents m q

/-- Each call that a party may make takes effect in its last access. -/
structure Lawful : Prop where
  starts : ∀ call, (I.prog call).isAccess = true
  refl : ∀ i m, I.rely i m m
  trans : ∀ i {l m n}, I.rely i l m → I.rely i m n → I.rely i l n
  atomic : ∀ i call m, I.may i call →
    Atomic I.device I.Valid (I.rely i) (I.Silent i) (I.Commits i call) (I.prog call) m

/-! ### Runs -/

/-- With `next` a party chooses its next call, or waits. -/
inductive Step (Party A : Type) where
  | next (i : Party)
  | on (a : A)

@[reducible] def Answer : Step Party A → Type
  | .next i => { call : Call // I.may i call }
  | .on a => R a

inductive Block (Party Call Reply : Type) where
  | idle (i : Party)
  | returned (i : Party) (call : Call) (reply : Reply)

structure Return (Party Call Reply : Type) where
  party : Party
  call : Call
  reply : Reply
deriving DecidableEq

/-- The memory, and the calls that have returned, in the order of their returns. -/
structure Shared (Party σ Call Reply : Type) where
  mem : σ
  returns : List (Return Party Call Reply)

/-- One call after another. -/
def calls (i : Party) : Prog (Step Party A) I.Answer (Block Party Call Reply) := do
  let call : { call : Call // I.may i call } ← Prog.call (Step.next i)
  let reply ← (I.prog call).embed Step.on (fun _ r => r)
  return .returned i call reply

def system : System (Step Party A) I.Answer (Block Party Call Reply) (∀ i, Option { call : Call // I.may i call })
    (Shared Party σ Call Reply) where
  act
    | .next i, choice, s => (choice i).map fun call => (call,s)
    | .on a, _, s => some ((I.device a s.mem).1,{ s with mem := (I.device a s.mem).2 })
  body
    | .idle i => I.calls i
    | .returned i _ _ => I.calls i
  enter
    | .idle _, s => s
    | .returned i call reply, s => { s with returns := s.returns ++ [⟨i,call,reply⟩] }
  starts := by
    intro b
    cases b <;> rfl

/-- The calls that have returned are answered as the machine answers them from
    `q` on, and the memory represents the state that it has come to. -/
structure Follows (q : State) (s : Shared Party σ Call Reply) : Prop where
  replies : s.returns.map Return.reply = I.spec.replies q (s.returns.map Return.call)
  represents : I.represents s.mem (I.spec.after q (s.returns.map Return.call))

variable {I}

/-- A return adds its call. -/
theorem follows_return {q : State} {s : Shared Party σ Call Reply} {i : Party} {call : Call} {reply : Reply} {a : A}
    {m : σ} (follows : I.Follows q s) (commits : I.Commits i call reply a s.mem m) :
    I.Follows q ⟨m,s.returns ++ [⟨i,call,reply⟩]⟩ := by
  obtain ⟨same,represents⟩ := commits.2.1 _ follows.represents
  constructor
  · rw [List.map_append,List.map_append,Machine.replies_append,follows.replies,same]
    rfl
  · rw [List.map_append,Machine.after_append]
    exact represents

/-- The memory as a part of the shared state. -/
def component : Component I.system R σ :=
  .of Shared.mem (fun s m => { s with mem := m }) (fun _ _ => rfl) Step.on I.device (fun _ _ _ => rfl)

variable (lawful : I.Lawful)
include lawful

def outline (q : State) : Outline Party I.system where
  inv := I.Follows q
  rely i s t := I.rely i s.mem t.mem
  guar i _ s t := ∀ j, j ≠ i → I.rely j s.mem t.mem
  pre i b _ := I.system.body b = I.calls i
  refl i s := lawful.refl i s.mem
  trans i := lawful.trans i
  compat other kept := kept _ (Ne.symm other)

theorem calls_sat (q : State) (i : Party) (s : Shared Party σ Call Reply) :
    (outline lawful q).Sat i (I.calls i) s := by
  intro s₁ choice _ t _ follows acted
  obtain ⟨call,_,same⟩ := Option.map_eq_some_iff.mp acted
  obtain ⟨rfl,rfl⟩ := Prod.mk.inj same
  have settled : I.system.settle ((I.prog call).embed Step.on (fun _ r => r) >>=
      fun reply => .ret (.returned i call reply)) s₁ = s₁ :=
    I.system.settle_of_isAccess (Prog.isAccess_bind _ (by rw [Prog.isAccess_embed]; exact lawful.starts _)) s₁
  show I.Follows q (I.system.settle ((I.prog call).embed Step.on (fun _ r => r) >>=
      fun reply => .ret (.returned i call reply)) s₁) ∧
    (∀ j, j ≠ i → I.rely j s₁.mem (I.system.settle ((I.prog call).embed Step.on (fun _ r => r) >>=
      fun reply => .ret (.returned i call reply)) s₁).mem) ∧
    (outline lawful q).Sat i ((I.prog call).embed Step.on (fun _ r => r) >>=
      fun reply => .ret (.returned i call reply)) s₁
  rw [settled]
  refine ⟨follows,fun j _ => lawful.refl j _,?_⟩
  refine (outline lawful q).sat_call (component (I := I)) (fun _ => True) ?_ ?_ ?_ _
    (lawful.atomic i call s₁.mem call.property) trivial
  · intro s s' _ relied follows
    exact ⟨trivial,relied,_,follows.represents⟩
  · intro a s m _ follows silent
    exact ⟨trivial,⟨follows.replies,silent.2.1 _ follows.represents⟩,silent.2.2⟩
  · intro reply a s m _ follows commits
    have returned := follows_return (show I.Follows q s from follows) commits
    exact ⟨returned,commits.2.2,rfl⟩

/-- Whatever the parties call and however their accesses interleave, the calls
    in the order of their returns are a run of the machine. -/
theorem Lawful.linear [DecidableEq Party] {m : σ} {q : State} (represents : I.represents m q)
    (schedule : List (Party × ∀ i, Option { call : Call // I.may i call })) :
    I.Follows q (I.system.run (I.system.start ⟨m,[]⟩ Block.idle) schedule).shared := by
  have idle : ∀ i, (outline lawful q).pre i (.idle i) ⟨m,[]⟩ := fun _ => rfl
  refine ((outline lawful q).sound ?_ ⟨rfl,represents⟩ idle schedule).inv
  intro i b s _ same
  rw [show I.system.body b = I.calls i from same]
  exact calls_sat lawful q i s

end Interface

/-! ### Objects side by side, and in a larger memory -/

namespace Interface

/-- `I` is a part of `K`: its accesses act on the part of the memory that `get`
    finds, and leave the rest of it represented as it was. -/
structure Part (I : Interface Party R σ Call Reply State) (K : Interface Party R' τ Call' Reply' State') where
  inj : A → A'
  answer : ∀ a, R' (inj a) → R a
  get : τ → σ
  state : State' → State
  put : State' → State → State'
  call : Call → Call'
  reply : Reply → Reply'
  put_state : ∀ q, put q (state q) = q
  spec : ∀ q c, K.spec.answer q (call c) = (reply (I.spec.answer (state q) c).1,put q (I.spec.answer (state q) c).2)
  relies : ∀ i t t', K.rely i t t' → I.rely i (get t) (get t')
  represents : ∀ t q, K.represents t q → I.represents (get t) (state q)
  allows : ∀ a, I.allowed a → K.allowed (inj a)
  agrees : ∀ a t, I.allowed a →
    answer a (K.device (inj a) t).1 = (I.device a (get t)).1 ∧ get (K.device (inj a) t).2 = (I.device a (get t)).2
  guarantees : ∀ j a t, I.allowed a → I.rely j (get t) (I.device a (get t)).2 → K.rely j t (K.device (inj a) t).2
  updates : ∀ a t q s, I.allowed a → K.represents t q → I.represents (I.device a (get t)).2 s →
    K.represents (K.device (inj a) t).2 (put q s)

/-- The program of a call, as a call of the whole. -/
def Part.prog {I : Interface Party R σ Call Reply State} {K : Interface Party R' τ Call' Reply' State'} (P : Part I K)
    (c : Call) : Prog A' R' Reply' :=
  (I.prog c).embed P.inj P.answer >>= fun reply => .ret (P.reply reply)

theorem Part.starts {I : Interface Party R σ Call Reply State} {K : Interface Party R' τ Call' Reply' State'}
    (P : Part I K) (lawful : I.Lawful) (c : Call) : (P.prog c).isAccess = true :=
  Prog.isAccess_bind _ (by rw [Prog.isAccess_embed]; exact lawful.starts c)

/-- A call of a part takes effect in its last access for the whole, too. -/
theorem Part.atomic {I : Interface Party R σ Call Reply State} {K : Interface Party R' τ Call' Reply' State'}
    (P : Part I K) (lawful : I.Lawful) {i : Party} {c : Call} (may : I.may i c) (t : τ) :
    Atomic K.device K.Valid (K.rely i) (K.Silent i) (K.Commits i (P.call c)) (P.prog c) t := by
  have embedded : Atomic K.device K.Valid (K.rely i) (K.Silent i) (fun reply => K.Commits i (P.call c) (P.reply reply))
      ((I.prog c).embed P.inj P.answer) t := by
    refine atomic_embed P.get I.allowed P.agrees ?_ ?_ ?_ _ (lawful.atomic i c (P.get t) may)
    · rintro t t' relied ⟨q,represents⟩
      exact ⟨P.relies i t t' relied,_,P.represents t' q represents⟩
    · rintro a t _ ⟨allowed,kept,guarantees⟩
      refine ⟨allowed,P.allows a allowed,?_,?_⟩
      · intro q represents
        have updated := P.updates a t q _ allowed represents (kept _ (P.represents t q represents))
        rwa [P.put_state] at updated
      · intro j other
        exact P.guarantees j a t allowed (guarantees j other)
    · rintro reply a t _ ⟨allowed,commits,guarantees⟩
      refine ⟨allowed,P.allows a allowed,?_,?_⟩
      · intro q represents
        obtain ⟨same,represents'⟩ := commits _ (P.represents t q represents)
        rw [P.spec,same]
        exact ⟨rfl,P.updates a t q _ allowed represents represents'⟩
      · intro j other
        exact P.guarantees j a t allowed (guarantees j other)
  exact atomic_map P.reply (fun _ _ relied valid => ⟨relied,valid⟩) (fun _ _ _ _ silent => silent)
    (fun _ _ _ _ _ commits => commits) _ embedded

section
variable (I : Interface Party R₁ σ₁ Call₁ Reply₁ State₁) (J : Interface Party R₂ σ₂ Call₂ Reply₂ State₂)

/-- Two objects, each with its own memory. -/
def prod : Interface Party (Sum.elim R₁ R₂) (σ₁ × σ₂) (Call₁ ⊕ Call₂) (Reply₁ ⊕ Reply₂) (State₁ × State₂) where
  device
    | .inl a, m => ((I.device a m.1).1,((I.device a m.1).2,m.2))
    | .inr a, m => ((J.device a m.2).1,(m.1,(J.device a m.2).2))
  prog
    | .inl call => (I.prog call).embed .inl (fun _ r => r) >>= fun reply => .ret (.inl reply)
    | .inr call => (J.prog call).embed .inr (fun _ r => r) >>= fun reply => .ret (.inr reply)
  may
    | i, .inl call => I.may i call
    | i, .inr call => J.may i call
  allowed
    | .inl a => I.allowed a
    | .inr a => J.allowed a
  spec := I.spec.beside J.spec
  represents m q := I.represents m.1 q.1 ∧ J.represents m.2 q.2
  rely i m m' := I.rely i m.1 m'.1 ∧ J.rely i m.2 m'.2

variable {I J}

def prodLeft (lawful : J.Lawful) : Part I (prod I J) where
  inj := .inl
  answer _ r := r
  get := Prod.fst
  state := Prod.fst
  put q s := (s,q.2)
  call := .inl
  reply := .inl
  put_state _ := rfl
  spec _ _ := rfl
  relies _ _ _ relied := relied.1
  represents _ _ represents := represents.1
  allows _ allowed := allowed
  agrees _ _ _ := ⟨rfl,rfl⟩
  guarantees j _ t _ guarantee := ⟨guarantee,lawful.refl j t.2⟩
  updates _ _ _ _ _ represents updated := ⟨updated,represents.2⟩

def prodRight (lawful : I.Lawful) : Part J (prod I J) where
  inj := .inr
  answer _ r := r
  get := Prod.snd
  state := Prod.snd
  put q s := (q.1,s)
  call := .inr
  reply := .inr
  put_state _ := rfl
  spec _ _ := rfl
  relies _ _ _ relied := relied.2
  represents _ _ represents := represents.2
  allows _ allowed := allowed
  agrees _ _ _ := ⟨rfl,rfl⟩
  guarantees j _ t _ guarantee := ⟨lawful.refl j t.1,guarantee⟩
  updates _ _ _ _ _ represents updated := ⟨represents.1,updated⟩

theorem Lawful.prod (lawful : I.Lawful) (lawful' : J.Lawful) : (Interface.prod I J).Lawful where
  starts
    | .inl call => (prodLeft lawful').starts lawful call
    | .inr call => (prodRight lawful).starts lawful' call
  refl i m := ⟨lawful.refl i m.1,lawful'.refl i m.2⟩
  trans i _ _ _ first second := ⟨lawful.trans i first.1 second.1,lawful'.trans i first.2 second.2⟩
  atomic
    | _, .inl _, m, may => (prodLeft lawful').atomic lawful may m
    | _, .inr _, m, may => (prodRight lawful).atomic lawful' may m

end

section
variable (I : Interface Party R σ Call Reply State) (device' : (a : A') → τ → R' a × τ) (inj : A → A')
  (answer : ∀ a, R' (inj a) → R a) (get : τ → σ) {Rest : Type} (rest : τ → Rest)

/-- An object laid out in a larger memory, together with what is in the `rest`
    of that memory. -/
def place : Interface Party R' τ Call Reply (State × Rest) where
  device := device'
  prog call := (I.prog call).embed inj answer
  may := I.may
  allowed a' := ∃ a, I.allowed a ∧ a' = inj a
  spec := I.spec.keeping Rest
  represents t q := I.represents (get t) q.1 ∧ rest t = q.2
  rely i t t' := I.rely i (get t) (get t')

variable {I device' inj answer get rest}

def placePart (agrees : ∀ a t, I.allowed a → answer a (device' (inj a) t).1 = (I.device a (get t)).1 ∧
      get (device' (inj a) t).2 = (I.device a (get t)).2)
    (frame : ∀ a t, I.allowed a → rest (device' (inj a) t).2 = rest t) :
    Part I (place I device' inj answer get rest) where
  inj := inj
  answer := answer
  get := get
  state := Prod.fst
  put q s := (s,q.2)
  call := id
  reply := id
  put_state _ := rfl
  spec _ _ := rfl
  relies _ _ _ relied := relied
  represents _ _ represents := represents.1
  allows a allowed := ⟨a,allowed,rfl⟩
  agrees := agrees
  guarantees j a t allowed guarantee := by
    show I.rely j (get t) (get (device' (inj a) t).2)
    rwa [(agrees a t allowed).2]
  updates a t q s allowed represents updated := by
    refine ⟨?_,?_⟩
    · show I.represents (get (device' (inj a) t).2) s
      rwa [(agrees a t allowed).2]
    · exact (frame a t allowed).trans represents.2

theorem Lawful.place (lawful : I.Lawful)
    (agrees : ∀ a t, I.allowed a → answer a (device' (inj a) t).1 = (I.device a (get t)).1 ∧
      get (device' (inj a) t).2 = (I.device a (get t)).2)
    (frame : ∀ a t, I.allowed a → rest (device' (inj a) t).2 = rest t) :
    (Interface.place I device' inj answer get rest).Lawful where
  starts call := by
    show ((I.prog call).embed inj answer).isAccess = true
    rw [Prog.isAccess_embed]
    exact lawful.starts call
  refl i t := lawful.refl i (get t)
  trans i _ _ _ first second := lawful.trans i first second
  atomic i call t may := by
    have atomic := (placePart agrees frame).atomic lawful may t
    rwa [show (placePart agrees frame).prog call = (I.prog call).embed inj answer from Prog.bind_ret _] at atomic

end

end Interface

end NeslPru.Linearizable
