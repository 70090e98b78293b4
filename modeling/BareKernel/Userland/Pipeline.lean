import BareKernel.Kernel.PipeFifo
import BareKernel.Userland.Commands

/-! Two commands with a pipe between them. They make their calls one by one while the scheduler
puts them and other processes on the processor in any order; the pipe may be full or empty in
between. What the right command shows is what its program makes of what the program of the
left one makes of its input. -/

namespace BareKernel.Userland

open Function (update)
open Links Machine

/-- The machine with the states of the two programs, what the left one has read so far and
what the right one has written. -/
structure Pipeline (σ τ : Type) extends PipeMachine where
  left : σ
  right : τ
  input : List ℤ
  output : List ℤ

/-- A call of any process that is not about pipes, the calls of the two programs on their
streams, or a transfer going on. The input of the left one comes from anywhere, and so does
the output of the right one go. -/
inductive PipelineAction where
  | call (a : Action)
  | input (c : ℤ)
  | write (fd : ℤ)
  | read (fd : ℤ)
  | output
  | goOn (offset : ℕ) (answers : List ℕ)

namespace Pipeline

variable {σ τ : Type}

/-- The bytes of a transfer that returns with the next step. -/
def finished (x : PipeMachine) : Option (List ℤ) :=
  match x.current with
  | some t => if t.waited = true ∨ t.Unfinished then none else some t.moved
  | none => none

def withKernel (x : Pipeline σ τ) (y : PipeMachine) : Pipeline σ τ := { x with toPipeMachine := y }

/-- The left program goes on after its word. -/
def wrote (A : Program ℤ σ) (x : Pipeline σ τ) : Pipeline σ τ :=
  match A x.left with
  | .write _ next => { x with left := next }
  | _ => x

/-- The right program goes on with what it has read. -/
def got (B : Program ℤ τ) (x : Pipeline σ τ) (c : Option ℤ) : Pipeline σ τ :=
  match B x.right with
  | .read next => { x with right := next c }
  | _ => x

def returned (A : Program ℤ σ) (B : Program ℤ τ) (p q : ℕ) (x : Pipeline σ τ) (moved : List ℤ) : Pipeline σ τ :=
  if x.currentProcess = p then x.wrote A else if x.currentProcess = q then x.got B moved.head? else x

/-- The process `p` runs the left program and `q` the right one. -/
def step (A : Program ℤ σ) (B : Program ℤ τ) (p q : ℕ) (x : Pipeline σ τ) : PipelineAction → Option (Pipeline σ τ)
  | .call a => (x.toPipeMachine.step (.call a)).map x.withKernel
  | .input c =>
    match A x.left with
    | .read next =>
      if x.currentProcess = p ∧ x.current = none then some { x with left := next (some c), input := x.input ++ [c] }
      else none
    | _ => none
  | .write fd =>
    match A x.left with
    | .write word _ =>
      if x.currentProcess = p then
        (x.toPipeMachine.step (.pipeWrite fd (fun i => word.getD i 0) word.length)).map fun y =>
          if y.current = none then (x.wrote A).withKernel y else x.withKernel y
      else none
    | _ => none
  | .read fd =>
    match B x.right with
    | .read _ =>
      if x.currentProcess = q then
        (x.toPipeMachine.step (.pipeRead fd 1)).map fun y =>
          if y.current = none then (x.got B none).withKernel y else x.withKernel y
      else none
    | _ => none
  | .output =>
    match B x.right with
    | .write word next =>
      if x.currentProcess = q ∧ x.current = none then some { x with right := next, output := x.output ++ word }
      else none
    | _ => none
  | .goOn offset answers =>
    (x.toPipeMachine.step (.goOn offset answers)).map fun y =>
      match finished x.toPipeMachine with
      | some moved => (x.returned A B p q moved).withKernel y
      | none => x.withKernel y

/-- The streams of the two programs are the ends of the pipe, and nothing else uses it. -/
def Keeps (pipe : ℕ) (x : Pipeline σ τ) : PipelineAction → Prop
  | .call a => PipeAction.KeepsPipe x.toPipeMachine pipe (.call a)
  | .write fd => x.Names pipe .write fd
  | .read fd => x.Names pipe .read fd
  | .goOn offset answers => PipeAction.KeepsPipe x.toPipeMachine pipe (.goOn offset answers)
  | .input _ | .output => True

instance (pipe : ℕ) (x : Pipeline σ τ) (b : PipelineAction) : Decidable (Keeps pipe x b) := by
  cases b <;> dsimp only [Keeps] <;> infer_instance

end Pipeline

/-- The two programs from their beginning on, with a pipe that has just been opened. -/
def pipelining {σ τ : Type} (A : Program ℤ σ) (B : Program ℤ τ) (a : σ) (b : τ) (p q pipe : ℕ) :
    System (Pipeline σ τ) PipelineAction where
  init x := FreshPipe x.toPipeMachine pipe ∧ x.left = a ∧ x.right = b ∧ x.input = [] ∧ x.output = []
  step x c y := x.step A B p q c = some y

open Pipeline

variable {σ τ : Type} {A : Program ℤ σ} {B : Program ℤ τ} {a s s' : σ} {b r r' : τ} {x y : Pipeline σ τ} {k : Kernel}
  {o : Option Transfer} {t : Transfer} {h : History} {xs xs' ys zs stored taken word : List ℤ} {p q pipe : ℕ} {c : ℤ}

/-! ### One program -/

/-- The transfer writes the word that the program has asked for. -/
def Writing (A : Program ℤ σ) (s : σ) (t : Transfer) : Prop :=
  t.side = .write ∧ ∃ word next, A s = .write word next ∧ t.buffer = (fun i => word.getD i 0) ∧ t.count = word.length ∧
    t.moved <+: word

/-- The transfer reads the byte that the program has asked for. -/
def Reads (B : Program ℤ τ) (r : τ) (t : Transfer) : Prop := t.side = .read ∧ t.count = 1 ∧ ∃ next, B r = .read next

/-- What the program in `s` and its transfer have stored. -/
structure Sends (A : Program ℤ σ) (a s : σ) (xs : List ℤ) (o : Option Transfer) (stored : List ℤ) : Prop where
  run : ∃ ys, A.Runs a xs ys s ∧ stored = ys ++ o.elim [] Transfer.moved
  writing : ∀ t, o = some t → Writing A s t

/-- What the program in `r` and its transfer have taken. -/
structure Receives (B : Program ℤ τ) (b r : τ) (ys : List ℤ) (o : Option Transfer) (taken : List ℤ) : Prop where
  run : ∃ zs, B.Runs b zs ys r ∧ taken = zs ++ o.elim [] Transfer.moved
  reads : ∀ t, o = some t → Reads B r t

theorem Sends.input {next : Option ℤ → σ} (h : Sends A a s xs none stored) (hs : A s = .read next) (c : ℤ) :
    Sends A a (next (some c)) (xs ++ [c]) none stored := by
  obtain ⟨⟨ys, hrun, hstored⟩, -⟩ := h
  exact ⟨⟨ys, hrun.read_one hs c, hstored⟩, fun t ht => by cases ht⟩

theorem Sends.begin (h : Sends A a s xs none stored) (hs : A s = .write word s') (pipe : ℕ) :
    Sends A a s xs (some ⟨.write, pipe, fun i => word.getD i 0, word.length, [], false⟩) stored := by
  refine ⟨h.run, fun t ht => ?_⟩
  obtain rfl := Option.some.inj ht
  exact ⟨rfl, word, s', hs, rfl, rfl, List.nil_prefix⟩

theorem prefix_getD {moved : List ℤ} (h : moved <+: word) (hlt : moved.length < word.length) :
    moved ++ [word.getD moved.length 0] <+: word := by
  obtain ⟨rest, rfl⟩ := h
  cases rest with
  | nil =>
    rw [List.append_nil] at hlt
    exact absurd hlt (lt_irrefl _)
  | cons c rest =>
    rw [List.getD_append_right _ _ _ _ le_rfl, Nat.sub_self, List.getD_cons_zero]
    exact ⟨rest, by simp⟩

theorem Sends.byte (h : Sends A a s xs (some t) stored) (hun : t.Unfinished) (k : Kernel) :
    Sends A a s xs (some (t.next k)) (stored ++ [t.byte k]) := by
  obtain ⟨⟨ys, hrun, hstored⟩, hwriting⟩ := h
  obtain ⟨hside, word, s', hs, hbuffer, hcount, hmoved⟩ := hwriting t rfl
  have hbyte : t.byte k = word.getD t.moved.length 0 := by
    unfold Transfer.byte
    rw [hside, hbuffer]
  have hlt : t.moved.length < word.length := by
    unfold Transfer.Unfinished at hun
    omega
  refine ⟨⟨ys, hrun, ?_⟩, fun t' ht' => ?_⟩
  · rw [hstored, List.append_assoc]
    rfl
  · obtain rfl := Option.some.inj ht'
    have hnext : t.moved ++ [t.byte k] <+: word := by
      rw [hbyte]
      exact prefix_getD hmoved hlt
    exact ⟨hside, word, s', hs, hbuffer, hcount, hnext⟩

theorem Sends.wait (h : Sends A a s xs (some t) stored) : Sends A a s xs (some t.wait) stored := by
  refine ⟨h.run, fun t' ht' => ?_⟩
  obtain rfl := Option.some.inj ht'
  exact h.writing t rfl

theorem Sends.finish (h : Sends A a s xs (some t) stored) (ht : t.Sound) (hun : ¬t.Unfinished) :
    ∃ word s', A s = .write word s' ∧ Sends A a s' xs none stored := by
  obtain ⟨⟨ys, hrun, hstored⟩, hwriting⟩ := h
  obtain ⟨-, word, s', hs, -, hcount, hmoved⟩ := hwriting t rfl
  have hlength := ht.complete hun
  have hall : t.moved = word := hmoved.eq_of_length (by omega)
  refine ⟨word, s', hs, ⟨ys ++ word, hrun.write_one hs, ?_⟩, fun t' ht' => by cases ht'⟩
  rw [hstored, List.append_assoc]
  exact congrArg (ys ++ ·) (hall.trans (List.append_nil word).symm)

theorem Receives.output (h : Receives B b r ys none taken) (hr : B r = .write word r') :
    Receives B b r' (ys ++ word) none taken := by
  obtain ⟨⟨zs, hrun, htaken⟩, -⟩ := h
  exact ⟨⟨zs, hrun.write_one hr, htaken⟩, fun t ht => by cases ht⟩

theorem Receives.begin {next : Option ℤ → τ} (h : Receives B b r ys none taken) (hr : B r = .read next) (pipe : ℕ) :
    Receives B b r ys (some ⟨.read, pipe, fun _ => 0, 1, [], false⟩) taken := by
  refine ⟨h.run, fun t ht => ?_⟩
  obtain rfl := Option.some.inj ht
  exact ⟨rfl, rfl, next, hr⟩

theorem Receives.byte (h : Receives B b r ys (some t) taken) (k : Kernel) :
    Receives B b r ys (some (t.next k)) (taken ++ [t.byte k]) := by
  obtain ⟨⟨zs, hrun, htaken⟩, hreads⟩ := h
  refine ⟨⟨zs, hrun, ?_⟩, fun t' ht' => ?_⟩
  · rw [htaken, List.append_assoc]
    rfl
  · obtain rfl := Option.some.inj ht'
    exact hreads t rfl

theorem Receives.wait (h : Receives B b r ys (some t) taken) : Receives B b r ys (some t.wait) taken := by
  refine ⟨h.run, fun t' ht' => ?_⟩
  obtain rfl := Option.some.inj ht'
  exact h.reads t rfl

theorem Receives.finish (h : Receives B b r ys (some t) taken) (ht : t.Sound) (hun : ¬t.Unfinished) :
    ∃ next, B r = .read next ∧ Receives B b (next t.moved.head?) ys none taken := by
  obtain ⟨⟨zs, hrun, htaken⟩, hreads⟩ := h
  obtain ⟨-, hcount, next, hr⟩ := hreads t rfl
  have hlength := ht.complete hun
  obtain ⟨c, hc⟩ := List.length_eq_one_iff.mp (show t.moved.length = 1 by omega)
  refine ⟨next, hr, ⟨zs ++ [c], ?_, ?_⟩, fun t' ht' => by cases ht'⟩
  · rw [hc]
    exact hrun.read_one hr c
  · rw [htaken, List.append_assoc]
    exact congrArg (zs ++ ·) (hc.trans (List.append_nil [c]).symm)

/-! ### Both programs -/

/-- The two programs, and the bytes that went through the pipe. -/
structure Joined (A : Program ℤ σ) (B : Program ℤ τ) (a : σ) (b : τ) (p q pipe : ℕ) (x : Pipeline σ τ) (h : History) :
    Prop where
  flow : ∃ S n, Flow x.toPipeMachine pipe S n h
  opened : ∀ side : Side, 0 < x.openCount pipe side.fdType
  alone : ∀ i, i ≠ p → i ≠ q → x.transfer i = none
  sends : Sends A a x.left x.input (x.transfer p) h.stored
  receives : Receives B b x.right x.output (x.transfer q) h.taken

theorem Joined.quiet {m : PipeMachine} (hj : Joined A B a b p q pipe x h) (hflow : ∃ S n, Flow m pipe S n h)
    (hopen : ∀ side : Side, 0 < m.openCount pipe side.fdType) (ht : m.transfer = x.transfer) :
    Joined A B a b p q pipe (x.withKernel m) h :=
  ⟨hflow, hopen, fun i hp hq => (congrFun ht i).trans (hj.alone i hp hq), (congrFun ht p).symm ▸ hj.sends,
    (congrFun ht q).symm ▸ hj.receives⟩

theorem Joined.call {c : Action} (hj : Joined A B a b p q pipe x h)
    (hok : PipeAction.KeepsPipe x.toPipeMachine pipe (.call c)) (hrun : x.step A B p q (.call c) = some y) :
    Joined A B a b p q pipe y h := by
  obtain ⟨S, n, hflow⟩ := hj.flow
  obtain ⟨m, hm, rfl⟩ := Option.map_eq_some_iff.mp hrun
  obtain ⟨hflow', hopen, -⟩ := hflow.step hj.opened hok hm
  have hnone : x.events (.call c) = [] := hok.2.2.creation
  rw [hnone] at hflow'
  obtain ⟨-, m', -, rfl⟩ := PipeMachine.call_cases hm
  exact hj.quiet hflow' hopen (funext fun i => if_neg hok.2.2.ends)

theorem Joined.input (hj : Joined A B a b p q pipe x h) (hrun : x.step A B p q (.input c) = some y) :
    Joined A B a b p q pipe y h := by
  dsimp only [Pipeline.step] at hrun
  split at hrun
  · rename_i next hleft
    split at hrun
    · rename_i hidle
      obtain ⟨rfl, hcur⟩ := hidle
      obtain rfl := Option.some.inj hrun
      have hnone : x.transfer x.currentProcess = none := hcur
      have hsends := hj.sends
      rw [hnone] at hsends
      exact ⟨hj.flow, hj.opened, hj.alone, hnone.symm ▸ hsends.input hleft c, hj.receives⟩
    · cases hrun
  · cases hrun

theorem Joined.output (hj : Joined A B a b p q pipe x h) (hrun : x.step A B p q .output = some y) :
    Joined A B a b p q pipe y h := by
  dsimp only [Pipeline.step] at hrun
  split at hrun
  · rename_i word next hright
    split at hrun
    · rename_i hidle
      obtain ⟨rfl, hcur⟩ := hidle
      obtain rfl := Option.some.inj hrun
      have hnone : x.transfer x.currentProcess = none := hcur
      have hreceives := hj.receives
      rw [hnone] at hreceives
      exact ⟨hj.flow, hj.opened, hj.alone, hj.sends, hnone.symm ▸ hreceives.output hright⟩
    · cases hrun
  · cases hrun

theorem setCurrent_transfer (x : PipeMachine) (o : Option Transfer) (m : Machine) (i : ℕ) :
    (x.setCurrent o m).transfer i = if i = x.currentProcess then o else x.transfer i :=
  Function.update_apply ..

theorem begun {m : PipeMachine} {S : Side → FifoSem ℕ} {n : ℕ} {fd : ℤ} (side : Side) (hflow : Flow m pipe S n h)
    (hopen : ∀ side : Side, 0 < m.openCount pipe side.fdType) (hidle : m.current = none)
    (hok : m.Names pipe side.fdType fd) (buffer : ℕ → ℤ) (count : ℤ) :
    m.beginTransfer side fd buffer count = some ⟨side, pipe, buffer, count, [], false⟩ ∧
      Flow (m.setCurrent (some ⟨side, pipe, buffer, count, [], false⟩) m.toMachine) pipe S n h := by
  have hsome : m.beginTransfer side fd buffer count = some ⟨side, pipe, buffer, count, [], false⟩ :=
    beginTransfer_some hok (hopen side)
  obtain ⟨hflow', -⟩ := hflow.begin (hopen side) hidle hok buffer count
  rw [hsome] at hflow'
  exact ⟨hsome, hflow'⟩

theorem Joined.write {fd : ℤ} (hpq : p ≠ q) (hj : Joined A B a b p q pipe x h) (hok : x.Names pipe .write fd)
    (hrun : x.step A B p q (.write fd) = some y) : Joined A B a b p q pipe y h := by
  obtain ⟨S, n, hflow⟩ := hj.flow
  dsimp only [Pipeline.step] at hrun
  split at hrun
  · rename_i word next hleft
    split at hrun
    · rename_i hcur
      subst hcur
      obtain ⟨m, hm, rfl⟩ := Option.map_eq_some_iff.mp hrun
      obtain ⟨hidle, rfl⟩ := PipeMachine.pipeWrite_cases hm
      obtain ⟨hbegun, hflow'⟩ := begun .write hflow hj.opened hidle hok (fun i => word.getD i 0) word.length
      have hset (i : ℕ) := setCurrent_transfer x.toPipeMachine
        (some ⟨.write, pipe, fun i => word.getD i 0, word.length, [], false⟩) x.toMachine i
      have hsends := hj.sends
      rw [show x.transfer x.currentProcess = none from hidle] at hsends
      rw [show x.pipeWrite fd _ _ = _ from hbegun, if_neg (by simp [PipeMachine.current, PipeMachine.setCurrent])]
      refine ⟨⟨S, n, hflow'⟩, hj.opened, fun i hp hq => ?_, ?_, ?_⟩
      · exact (hset i).trans ((if_neg hp).trans (hj.alone i hp hq))
      · exact ((hset _).trans (if_pos rfl)).symm ▸ hsends.begin hleft pipe
      · exact ((hset q).trans (if_neg hpq.symm)).symm ▸ hj.receives
    · cases hrun
  · cases hrun

theorem Joined.read {fd : ℤ} (hpq : p ≠ q) (hj : Joined A B a b p q pipe x h) (hok : x.Names pipe .read fd)
    (hrun : x.step A B p q (.read fd) = some y) : Joined A B a b p q pipe y h := by
  obtain ⟨S, n, hflow⟩ := hj.flow
  dsimp only [Pipeline.step] at hrun
  split at hrun
  · rename_i next hright
    split at hrun
    · rename_i hcur
      subst hcur
      obtain ⟨m, hm, rfl⟩ := Option.map_eq_some_iff.mp hrun
      obtain ⟨hidle, rfl⟩ := PipeMachine.pipeRead_cases hm
      obtain ⟨hbegun, hflow'⟩ := begun .read hflow hj.opened hidle hok (fun _ => 0) 1
      have hset (i : ℕ) := setCurrent_transfer x.toPipeMachine (some ⟨.read, pipe, fun _ => 0, 1, [], false⟩)
        x.toMachine i
      have hreceives := hj.receives
      rw [show x.transfer x.currentProcess = none from hidle] at hreceives
      rw [show x.pipeRead fd 1 = _ from hbegun, if_neg (by simp [PipeMachine.current, PipeMachine.setCurrent])]
      refine ⟨⟨S, n, hflow'⟩, hj.opened, fun i hp hq => ?_, ?_, ?_⟩
      · exact (hset i).trans ((if_neg hq).trans (hj.alone i hp hq))
      · exact ((hset p).trans (if_neg hpq)).symm ▸ hj.sends
      · exact ((hset _).trans (if_pos rfl)).symm ▸ hreceives.begin hright pipe
    · cases hrun
  · cases hrun

/-- A transfer goes on: with its byte, with its next wait, or to its end. -/
theorem goOn_effect {m m' : PipeMachine} {offset : ℕ} {answers : List ℕ} (hcur : m.current = some t)
    (hm : m.step (.goOn offset answers) = some m') (h : History) :
    ∃ o m₀, m' = m.setCurrent o m₀ ∧
      ((o = some (t.next m.toKernel) ∧ t.waited = true ∧ finished m = none ∧
          (m.events (.goOn offset answers)).foldl (History.step t.pipe) h = h.step t.pipe (t.event m.toKernel)) ∨
        (o = some t.wait ∧ finished m = none ∧ (m.events (.goOn offset answers)).foldl (History.step t.pipe) h = h) ∨
        (o = none ∧ ¬t.Unfinished ∧ finished m = some t.moved ∧
          (m.events (.goOn offset answers)).foldl (History.step t.pipe) h = h)) := by
  obtain ⟨t', hcur', hcases⟩ := PipeMachine.goOn_cases hm
  obtain rfl := Option.some.inj (hcur.symm.trans hcur')
  unfold finished
  rw [goOn_events hcur, hcur]
  rcases hcases with ⟨hw, m₀, -, rfl⟩ | ⟨hw, hun, m₀, -, rfl⟩ | ⟨hw, hun, rfl⟩
  · refine ⟨_, m₀, rfl, Or.inl ⟨rfl, hw, ?_, ?_⟩⟩
    · exact if_pos (Or.inl hw)
    · rw [if_pos hw]
      rfl
  · have hno : ¬t.waited = true := by rw [hw]; simp
    refine ⟨_, m₀, rfl, Or.inr (Or.inl ⟨rfl, ?_, ?_⟩)⟩
    · exact if_pos (Or.inr hun)
    · rw [if_neg hno, if_pos hun]
      rfl
  · have hno : ¬t.waited = true := by rw [hw]; simp
    refine ⟨_, m.toMachine, rfl, Or.inr (Or.inr ⟨rfl, hun, ?_, ?_⟩)⟩
    · exact if_neg (not_or.mpr ⟨hno, hun⟩)
    · rw [if_neg hno, if_neg hun]
      rfl

theorem Joined.goOn {offset : ℕ} {answers : List ℕ} (hpq : p ≠ q) (hj : Joined A B a b p q pipe x h)
    (hok : PipeAction.KeepsPipe x.toPipeMachine pipe (.goOn offset answers))
    (hrun : x.step A B p q (.goOn offset answers) = some y) :
    Joined A B a b p q pipe y ((x.events (.goOn offset answers)).foldl (History.step pipe) h) := by
  obtain ⟨S, n, hflow⟩ := hj.flow
  obtain ⟨m, hm, rfl⟩ := Option.map_eq_some_iff.mp hrun
  obtain ⟨t, hcur, -⟩ := PipeMachine.goOn_cases hm
  have hsound := (hflow.sound _ t hcur).2
  have hpipe := hflow.mine _ t hcur
  obtain ⟨hflow', hopen, -⟩ := hflow.step hj.opened hok hm
  obtain ⟨o, m₀, rfl, hcases⟩ := goOn_effect hcur hm h
  rw [hpipe] at hcases
  have hset (i : ℕ) := setCurrent_transfer x.toPipeMachine o m₀ i
  have hwho : x.currentProcess = p ∨ x.currentProcess = q := by
    by_contra hno
    rw [not_or] at hno
    have hnone := hj.alone _ hno.1 hno.2
    rw [show x.transfer x.currentProcess = some t from hcur] at hnone
    cases hnone
  have halone (i : ℕ) (hp : i ≠ p) (hq : i ≠ q) : (x.setCurrent o m₀).transfer i = none := by
    have hne : i ≠ x.currentProcess := fun he => hwho.elim (fun hc => hp (he.trans hc)) fun hc => hq (he.trans hc)
    exact (hset i).trans ((if_neg hne).trans (hj.alone i hp hq))
  rcases hwho with rfl | rfl
  · have hsends := hj.sends
    rw [show x.transfer x.currentProcess = some t from hcur] at hsends
    have hself : (x.setCurrent o m₀).transfer x.currentProcess = o := (hset _).trans (if_pos rfl)
    have hright : (x.setCurrent o m₀).transfer q = x.transfer q := (hset q).trans (if_neg hpq.symm)
    have hside := (hsends.writing t rfl).1
    rcases hcases with ⟨rfl, hw, hfin, hhist⟩ | ⟨rfl, hfin, hhist⟩ | ⟨rfl, hun, hfin, hhist⟩
    · have hstep : h.step pipe (t.event x.toKernel) = { h with stored := h.stored ++ [t.byte x.toKernel] } := by
        unfold Transfer.event
        rw [hside]
        exact if_pos hpipe
      rw [hfin, hhist, hstep]
      rw [hhist, hstep] at hflow'
      exact ⟨hflow', hopen, halone, hself.symm ▸ hsends.byte (hsound.waited hw) _, hright.symm ▸ hj.receives⟩
    · rw [hfin, hhist]
      rw [hhist] at hflow'
      exact ⟨hflow', hopen, halone, hself.symm ▸ hsends.wait, hright.symm ▸ hj.receives⟩
    · obtain ⟨word, s', hs, hnext⟩ := hsends.finish hsound hun
      have hwrote : x.returned A B x.currentProcess q t.moved = { x with left := s' } := by
        unfold Pipeline.returned wrote
        rw [if_pos rfl, hs]
      rw [hfin, hhist]
      rw [hhist] at hflow'
      dsimp only
      rw [hwrote]
      exact ⟨hflow', hopen, halone, hself.symm ▸ hnext, hright.symm ▸ hj.receives⟩
  · have hreceives := hj.receives
    rw [show x.transfer x.currentProcess = some t from hcur] at hreceives
    have hself : (x.setCurrent o m₀).transfer x.currentProcess = o := (hset _).trans (if_pos rfl)
    have hleft : (x.setCurrent o m₀).transfer p = x.transfer p := (hset p).trans (if_neg hpq)
    have hside := (hreceives.reads t rfl).1
    rcases hcases with ⟨rfl, hw, hfin, hhist⟩ | ⟨rfl, hfin, hhist⟩ | ⟨rfl, hun, hfin, hhist⟩
    · have hstep : h.step pipe (t.event x.toKernel) = { h with taken := h.taken ++ [t.byte x.toKernel] } := by
        unfold Transfer.event
        rw [hside]
        exact if_pos hpipe
      rw [hfin, hhist, hstep]
      rw [hhist, hstep] at hflow'
      exact ⟨hflow', hopen, halone, hleft.symm ▸ hj.sends, hself.symm ▸ hreceives.byte _⟩
    · rw [hfin, hhist]
      rw [hhist] at hflow'
      exact ⟨hflow', hopen, halone, hleft.symm ▸ hj.sends, hself.symm ▸ hreceives.wait⟩
    · obtain ⟨next, hr, hnext⟩ := hreceives.finish hsound hun
      have hgot : x.returned A B p x.currentProcess t.moved = { x with right := next t.moved.head? } := by
        unfold Pipeline.returned got
        rw [if_neg hpq.symm, if_pos rfl, hr]
      rw [hfin, hhist]
      rw [hhist] at hflow'
      dsimp only
      rw [hgot]
      exact ⟨hflow', hopen, halone, hleft.symm ▸ hj.sends, hself.symm ▸ hnext⟩

/-! ### Runs -/

theorem freshPipe_idle {m : PipeMachine} (hm : FreshPipe m pipe) (i : ℕ) : m.transfer i = none := by
  obtain ⟨m₀, c, fds, -, hnone, -, -, -, hrun, -⟩ := hm
  obtain ⟨-, m', -, rfl⟩ := PipeMachine.call_cases hrun
  exact PipeMachine.afterCall_none (hnone i)

theorem pipelining_joined (hpq : p ≠ q) (hx : (pipelining A B a b p q pipe).Reach (Keeps pipe) x) :
    ∃ h, Joined A B a b p q pipe x h := by
  refine hx.invariant (I := fun x => ∃ h, Joined A B a b p q pipe x h) (fun x hx => ?_) fun x c y hj hok hrun => ?_
  · obtain ⟨hfresh, rfl, rfl, hin, hout⟩ := hx
    obtain ⟨hflow, hopen⟩ := hfresh.flow
    have hidle := freshPipe_idle hfresh
    refine ⟨⟨[], []⟩, ⟨_, 0, hflow⟩, hopen, fun i _ _ => hidle i, ?_, ?_⟩
    · rw [hin, hidle p]
      exact ⟨⟨[], .refl _, rfl⟩, fun t ht => by cases ht⟩
    · rw [hout, hidle q]
      exact ⟨⟨[], .refl _, rfl⟩, fun t ht => by cases ht⟩
  · obtain ⟨h, hj⟩ := hj
    cases c with
    | call c => exact ⟨h, hj.call hok hrun⟩
    | input c => exact ⟨h, hj.input hrun⟩
    | write fd => exact ⟨h, hj.write hpq hok hrun⟩
    | read fd => exact ⟨h, hj.read hpq hok hrun⟩
    | output => exact ⟨h, hj.output hrun⟩
    | goOn offset answers => exact ⟨_, hj.goOn hpq hok hrun⟩

/-- No transfer is under way, and all places of the pipe are free. -/
def Settled (x : PipeMachine) (p q : ℕ) : Prop :=
  x.transfer p = none ∧ x.transfer q = none ∧ (x.sems Side.write.semId).value = bufferSize

instance (x : PipeMachine) (p q : ℕ) : Decidable (Settled x p q) := inferInstanceAs (Decidable (_ ∧ _ ∧ _))

theorem Sends.prefix_of_makes (h : Sends A a s xs o stored) (hmakes : A.Makes a xs' ys) (hxs : xs <+: xs') :
    stored <+: ys := by
  obtain ⟨⟨ys₀, hrun, rfl⟩, hwriting⟩ := h
  cases o with
  | none =>
    rw [Option.elim_none, List.append_nil]
    exact hrun.prefix_of_makes hmakes hxs
  | some t =>
    obtain ⟨-, word, s', hs, -, -, hmoved⟩ := hwriting t rfl
    have hword := (hrun.write_one hs).prefix_of_makes hmakes hxs
    exact ((List.prefix_append_right_inj ys₀).mpr hmoved).trans hword

/-- A pipe with all places free has been emptied. -/
theorem flow_emptied {m : PipeMachine} {S : Side → FifoSem ℕ} {n : ℕ} (hf : Flow m pipe S n h)
    (hfree : (m.sems Side.write.semId).value = bufferSize) : h.taken = h.stored := by
  obtain ⟨held, -, -, hsum⟩ := (hf.books .write).holders
  have hvalue := (hf.tracks .write).value
  have hroom := hf.room
  have hlength := hf.bytes.length
  have htokens : Side.write.tokens n = bufferSize - n := rfl
  have hpos : 0 < bufferSize := by decide
  exact hf.bytes.isPrefix.eq_of_length (by omega)

/-- What the right program has read is a prefix of what the left one makes. -/
theorem Joined.received (hj : Joined A B a b p q pipe x h) (hA : A.Makes a xs ys) (hxs : x.input <+: xs) :
    ∃ zs, zs <+: ys ∧ B.Runs b zs x.output x.right := by
  obtain ⟨S, n, hflow⟩ := hj.flow
  obtain ⟨⟨zs, hrun, htaken⟩, -⟩ := hj.receives
  have hzs : zs <+: h.taken := htaken ▸ List.prefix_append ..
  exact ⟨zs, hzs.trans (hflow.bytes.isPrefix.trans (hj.sends.prefix_of_makes hA hxs)), hrun⟩

theorem Joined.composes (hj : Joined A B a b p q pipe x h) (hA : A.Makes a xs ys) (hB : B.Makes b ys zs)
    (hxs : x.input <+: xs) : x.output <+: zs ∧ (B x.right = .stop → x.output = zs) := by
  obtain ⟨zs₀, hgot, hrun⟩ := hj.received hA hxs
  refine ⟨hrun.prefix_of_makes hB hgot, fun hstop => ?_⟩
  have hmakes : B.Makes b ys x.output := ⟨zs₀, x.right, hgot, hrun, Program.waits_stop hstop, Or.inr hstop⟩
  exact hmakes.unique hB

/-- Both programs wait for more, and no byte is on its way. -/
theorem Joined.settled (hj : Joined A B a b p q pipe x h) (hA : A.Makes a x.input ys) (hB : B.Makes b ys zs)
    (hleft : A.Waits x.left) (hright : B.Waits x.right) (hset : Settled x.toPipeMachine p q) : x.output = zs := by
  obtain ⟨hp, hq, hfree⟩ := hset
  obtain ⟨S, n, hflow⟩ := hj.flow
  obtain ⟨⟨ys₀, hrun, hsent⟩, -⟩ := hj.sends
  obtain ⟨⟨zs₀, hrun', htaken⟩, -⟩ := hj.receives
  rw [hp, Option.elim_none, List.append_nil] at hsent
  rw [hq, Option.elim_none, List.append_nil] at htaken
  have hmakes : A.Makes a x.input ys₀ := ⟨x.input, x.left, List.prefix_rfl, hrun, hleft, Or.inl rfl⟩
  have hall : zs₀ = ys := by rw [← htaken, flow_emptied hflow hfree, hsent, hmakes.unique hA]
  have hmakes' : B.Makes b ys x.output := ⟨zs₀, x.right, hall ▸ List.prefix_rfl, hrun', hright, Or.inl hall⟩
  exact hmakes'.unique hB

/-- Whatever the order in which the two programs, and others, get the processor: the right one
has written a prefix of what it makes of all that the left one makes of its input. When it
stops it has written all of that, and so it has when both have read everything. -/
theorem pipeline_composes (hpq : p ≠ q) (hx : (pipelining A B a b p q pipe).Reach (Keeps pipe) x)
    (hA : A.Makes a xs ys) (hB : B.Makes b ys zs) (hxs : x.input <+: xs) :
    x.output <+: zs ∧ (B x.right = .stop → x.output = zs) ∧
      (x.input = xs → A.Waits x.left → B.Waits x.right → Settled x.toPipeMachine p q → x.output = zs) := by
  obtain ⟨h, hj⟩ := pipelining_joined hpq hx
  obtain ⟨hwritten, hstop⟩ := hj.composes hA hB hxs
  refine ⟨hwritten, hstop, fun hinput hleft hright hset => ?_⟩
  rw [← hinput] at hA
  exact hj.settled hA hB hleft hright hset

/-! ### Lines -/

/-- `cat` and `filter` at their beginning; the pipe is opened by the first process. -/
def catFilter : Pipeline Cat Filtering := ⟨twoPiped, .reading, .reading ⟨.fresh fun _ => nul, 0, nul, []⟩, [], []⟩

/-- A line of one letter comes in, `cat` passes it on, and `filter` reads it. -/
def oneLetter : List PipelineAction :=
  [.input 97, .write 3, .goOn 0 [], .goOn 0 [], .goOn 0 [], .input 10, .write 3, .goOn 0 [], .goOn 0 [], .goOn 0 [],
    .write 3, .goOn 0 [], .goOn 0 [], .goOn 0 [], .call (plain .tick)] ++
  (List.replicate 3 [.read 2, .goOn 0 [], .goOn 0 [], .goOn 0 [], .output]).flatten ++ [.output, .output]

theorem oneLetter_reach : ∃ x, (pipelining catCommand filtering .reading (.reading ⟨.fresh fun _ => nul, 0, nul, []⟩)
    101 201 500).Reach (Keeps 500) x ∧ x.input = [97, 10] ∧ filtering x.right = .stop := by
  have hinit : (pipelining catCommand filtering .reading (.reading ⟨.fresh fun _ => nul, 0, nul, []⟩) 101 201 500).Reach
      (Keeps 500) catFilter := .init ⟨twoPiped_fresh, rfl, rfl, rfl, rfl⟩
  obtain ⟨x, hx⟩ := Option.isSome_iff_exists.mp (show (System.runList (Pipeline.step catCommand filtering 101 201)
    (Keeps 500) catFilter oneLetter).isSome = true by decide +kernel)
  have hend : (System.runList (Pipeline.step catCommand filtering 101 201) (Keeps 500) catFilter oneLetter).map
      (fun x => (x.input, decide (filtering x.right = .stop))) = some ([97, 10], true) := by decide +kernel
  rw [hx, Option.map_some, Option.some.injEq, Prod.mk.injEq, decide_eq_true_eq] at hend
  exact ⟨x, hinit.runList (fun _ _ _ => id) hx, hend⟩

theorem pipeline_composes_oneLetter : ∃ x : Pipeline Cat Filtering, filtering x.right = .stop ∧
    x.output = [97, 10, 97, 0] := by
  obtain ⟨x, hreach, hinput, hstop⟩ := oneLetter_reach
  have hshown : catShows [97, 10] = [97, 10] ++ 0 :: [] := by decide
  have hfilter : filtering.Makes (.reading ⟨.fresh fun _ => nul, 0, nul, []⟩) (catShows [97, 10])
      (filterShows [97, 10]) := by
    rw [hshown]
    exact filterCommand_makes _ nul (by decide) (by decide)
  obtain ⟨-, hall, -⟩ := pipeline_composes (by decide) hreach (catCommand_makes [97, 10]) hfilter
    (by rw [hinput])
  exact ⟨x, hstop, (hall hstop).trans (by decide)⟩

/-- The vowels that `filter` gets are those of the line. -/
theorem vowels_shown {line : List ℤ} {e : ℤ} (he : charOf e = newline ∨ charOf e = eof) :
    vowels ((line ++ printChar e).map charOf) = vowels (line.map charOf) := by
  rw [List.map_append, vowels_append]
  rcases he with he | he
  · have hnone : vowels [newline] = [] := by decide
    rw [printChar_of_ne (by rw [he]; decide), List.map_singleton, he, hnone, List.append_nil]
  · rw [printChar, if_pos (show charOf e = nul from he), List.map_nil]
    exact List.append_nil _

theorem catShows_line {line rest : List ℤ} {e : ℤ} (hline : ∀ c ∈ line, charOf c ≠ newline ∧ charOf c ≠ eof)
    (he : charOf e = newline ∨ charOf e = eof) : catShows (line ++ e :: rest) = line ++ printChar e ++ [0] := by
  induction line with
  | nil => exact if_pos he
  | cons c line ih =>
    obtain ⟨⟨hnl, heof⟩, hline⟩ := List.forall_mem_cons.mp hline
    rw [List.cons_append, catShows, if_neg (not_or.mpr ⟨hnl, heof⟩), ih hline]
    rfl

theorem printChar_noEof {c : ℤ} (e : ℤ) (hc : c ∈ printChar e) : charOf c ≠ eof := by
  unfold printChar at hc
  split at hc
  · cases hc
  · obtain rfl := List.mem_singleton.mp hc
    assumption

/-- `cat | filter` shows the line that is typed and its vowels behind it; a line with fewer than
ten vowels keeps the filter inside of its buffer. -/
theorem cat_filter {line rest : List ℤ} {e : ℤ} {cell : ℕ → Char} {ch : Char} {x : Pipeline Cat Filtering} (hpq : p ≠ q)
    (hx : (pipelining catCommand filtering .reading (.reading ⟨.fresh cell, 0, ch, []⟩) p q pipe).Reach (Keeps pipe) x)
    (hline : ∀ c ∈ line, charOf c ≠ newline ∧ charOf c ≠ eof) (he : charOf e = newline ∨ charOf e = eof)
    (htyped : x.input <+: line ++ e :: rest) (hvowels : (vowels (line.map charOf)).length < filterSize) :
    x.right.Inside ∧ x.output <+: line ++ printChar e ++ bytes (vowels (line.map charOf)) ++ [0] ∧
      (filtering x.right = .stop → x.output = line ++ printChar e ++ bytes (vowels (line.map charOf)) ++ [0]) := by
  obtain ⟨h, hj⟩ := pipelining_joined hpq hx
  have hcat := catCommand_makes (line ++ e :: rest)
  rw [catShows_line hline he] at hcat
  have htext : ∀ c ∈ line ++ printChar e, charOf c ≠ eof := fun c hc =>
    (List.mem_append.mp hc).elim (fun hc => (hline c hc).2) (printChar_noEof e)
  have hmark : charOf 0 = eof := by decide
  have hfilter : filtering.Makes (.reading ⟨.fresh cell, 0, ch, []⟩) (line ++ printChar e ++ [0]) _ :=
    filterCommand_makes cell ch htext hmark
  rw [filterShows, vowels_shown he] at hfilter
  obtain ⟨zs, hzs, hrun⟩ := hj.received hcat htyped
  refine ⟨keeps_inside (filtering_keeps ch hrun) (lt_of_le_of_lt ?_ hvowels), hj.composes hcat hfilter htyped⟩
  -- of what has been read, the vowels are some of the line's
  obtain ⟨more, hmore⟩ := hzs
  have hall : vowels ((zs ++ more).map charOf) = vowels (line.map charOf) := by
    rw [hmore, List.map_append, vowels_append, vowels_shown he]
    exact List.append_nil _
  rw [List.map_append, vowels_append] at hall
  rw [← hall, List.length_append]
  exact Nat.le_add_right _ _

theorem cat_filter_oneLetter : ∃ x : Pipeline Cat Filtering, filtering x.right = .stop ∧
    x.output = [97] ++ [10] ++ bytes ['a'] ++ [0] := by
  obtain ⟨x, hreach, hinput, hstop⟩ := oneLetter_reach
  have htyped : x.input <+: [97] ++ 10 :: [] := by rw [hinput, List.singleton_append]
  obtain ⟨-, -, hall⟩ := cat_filter (by decide) hreach (by decide) (by decide) htyped (by decide)
  exact ⟨x, hstop, (hall hstop).trans (by decide)⟩

/-- Behind any program, `wc` shows the text that comes before the mark and counts its lines. -/
theorem text_counted {text rest : List ℤ} {e : ℤ} {temp num : ℕ → Char} {x : Pipeline σ Wc} (hpq : p ≠ q)
    (hx : (pipelining A (wcCommand temp num) a (.reading 0) p q pipe).Reach (Keeps pipe) x)
    (htext : ∀ c ∈ text, charOf c ≠ eof) (he : charOf e = eof) (hlines : lines text < 10 ^ 9)
    (hA : A.Makes a xs (text ++ e :: rest)) (hxs : x.input <+: xs) :
    x.output <+: wcShows text ∧ (wcCommand temp num x.right = .stop → x.output = wcShows text) := by
  obtain ⟨h, hj⟩ := pipelining_joined hpq hx
  exact hj.composes hA (wcCommand_makes htext he hlines) hxs

/-- The same line for `wc`. -/
def countLetter : List PipelineAction := oneLetter ++ [.output]

theorem text_counted_oneLetter : ∃ x : Pipeline Cat Wc, x.output = bytes "a\n\n2 lines\n".toList := by
  set S := pipelining catCommand (wcCommand (fun _ => nul) fun _ => nul) .reading (.reading 0) 101 201 500 with hS
  have hinit : S.Reach (Keeps 500) ⟨twoPiped, .reading, .reading 0, [], []⟩ :=
    .init ⟨twoPiped_fresh, rfl, rfl, rfl, rfl⟩
  obtain ⟨x, hx⟩ := Option.isSome_iff_exists.mp (show (System.runList (Pipeline.step catCommand
    (wcCommand (fun _ => nul) fun _ => nul) 101 201) (Keeps 500) ⟨twoPiped, .reading, .reading 0, [], []⟩
    countLetter).isSome = true by decide +kernel)
  have hend : (System.runList (Pipeline.step catCommand (wcCommand (fun _ => nul) fun _ => nul) 101 201) (Keeps 500)
      ⟨twoPiped, .reading, .reading 0, [], []⟩ countLetter).map
      (fun x => (x.input, decide (wcCommand (fun _ => nul) (fun _ => nul) x.right = .stop))) =
        some ([97, 10], true) := by decide +kernel
  rw [hx, Option.map_some, Option.some.injEq, Prod.mk.injEq, decide_eq_true_eq] at hend
  have hcat : catCommand.Makes .reading [97, 10] ([97, 10] ++ 0 :: []) := catCommand_makes [97, 10]
  obtain ⟨-, hall⟩ := text_counted (by decide) (hinit.runList (fun _ _ _ => id) hx) (by decide) (by decide) (by decide)
    hcat (by rw [hend.1])
  exact ⟨x, (hall hend.2).trans (by decide +kernel)⟩

/-- `echo | cat` shows the arguments with a blank behind each, as one line. What `echo` prints for
the shell stays in the pipe. -/
theorem echo_cat {argv : List (List ℤ)} {x : Pipeline (List (List ℤ)) Cat} (hpq : p ≠ q)
    (hx : (pipelining echoCommand catCommand (echoWords argv) .reading p q pipe).Reach (Keeps pipe) x)
    (hargv : ∀ arg ∈ argv, ∀ c ∈ arg, charOf c ≠ newline ∧ charOf c ≠ eof) :
    x.output <+: argv.flatMap (· ++ [32]) ++ [10, 0] ∧
      (catCommand x.right = .stop → x.output = argv.flatMap (· ++ [32]) ++ [10, 0]) := by
  obtain ⟨h, hj⟩ := pipelining_joined hpq hx
  have hecho := echoCommand_makes (echoWords argv) x.input
  have hline : ∀ c ∈ argv.flatMap (· ++ [32]), charOf c ≠ newline ∧ charOf c ≠ eof := by
    intro c hc
    obtain ⟨arg, harg, hc⟩ := List.mem_flatMap.mp hc
    rcases List.mem_append.mp hc with hc | hc
    · exact hargv arg harg c hc
    · rw [List.mem_singleton.mp hc]
      decide
  have hcat := catCommand_makes (echoWords argv).flatten
  have hshown : catShows (argv.flatMap (· ++ [32]) ++ 10 :: bytes "\nshell: >".toList) = _ :=
    catShows_line hline (Or.inl (by decide))
  rw [echoWords_flatten, hshown] at hcat
  rw [echoWords_flatten] at hecho
  have hten : printChar 10 = [10] := by decide
  rw [hten, List.append_assoc] at hcat
  exact hj.composes hecho hcat List.prefix_rfl

/-- One argument; `cat` reads its line when `echo` has written it. -/
def echoLetter : List PipelineAction :=
  (List.replicate 3 [.write 3, .goOn 0 [], .goOn 0 [], .goOn 0 []]).flatten ++ [.call (plain .tick)] ++
    (List.replicate 3 [.read 2, .goOn 0 [], .goOn 0 [], .goOn 0 [], .output]).flatten ++ [.output]

theorem echo_cat_letter : ∃ x : Pipeline (List (List ℤ)) Cat, catCommand x.right = .stop ∧
    x.output = [97, 32, 10, 0] := by
  set S := pipelining echoCommand catCommand (echoWords [[97]]) .reading 101 201 500 with hS
  have hinit : S.Reach (Keeps 500) ⟨twoPiped, echoWords [[97]], .reading, [], []⟩ :=
    .init ⟨twoPiped_fresh, rfl, rfl, rfl, rfl⟩
  obtain ⟨x, hx⟩ := Option.isSome_iff_exists.mp (show (System.runList (Pipeline.step echoCommand catCommand 101 201)
    (Keeps 500) ⟨twoPiped, echoWords [[97]], .reading, [], []⟩ echoLetter).isSome = true by decide +kernel)
  have hend : (System.runList (Pipeline.step echoCommand catCommand 101 201) (Keeps 500)
      ⟨twoPiped, echoWords [[97]], .reading, [], []⟩ echoLetter).map (fun x => decide (catCommand x.right = .stop)) =
        some true := by decide +kernel
  rw [hx, Option.map_some, Option.some.injEq, decide_eq_true_eq] at hend
  obtain ⟨-, hall⟩ := echo_cat (by decide) (hinit.runList (fun _ _ _ => id) hx) (by decide)
  exact ⟨x, hend, hall hend⟩

end BareKernel.Userland
