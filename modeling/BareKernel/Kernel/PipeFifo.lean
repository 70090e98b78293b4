import BareKernel.Kernel.PipeTokens

/-! A pipe that has its two semaphores to itself is a bounded queue of bytes. -/

namespace BareKernel

open Function (update)
open Process Links Machine

variable {k k' : Kernel} {m m' : Machine} {x y : PipeMachine} {a : Action} {S : Side → FifoSem ℕ} {t : Transfer}
  {side : Side} {h : History} {p q n pipe offset : ℕ} {answers : List ℕ} {r id fd count : ℤ} {again : Bool}

/-- The pipe holds `n` bytes, and all transfers under way are on it. -/
structure Flow (x : PipeMachine) (pipe : ℕ) (S : Side → FifoSem ℕ) (n : ℕ) (h : History) : Prop
    extends Pool x S n where
  sems : x.HasSems pipe
  bytes : x.HoldsBytes pipe n h
  mine : ∀ p t, x.transfer p = some t → t.pipe = pipe

/-! ### The first state of a pipe -/

/-- The calls that keep the ready ring in order. -/
def PipeAction.KeepsRing (x : PipeMachine) : PipeAction → Prop
  | .call a => a.KeepsRing x.toMachine
  | _ => True

instance (x : PipeMachine) (b : PipeAction) : Decidable (b.KeepsRing x) := by
  apply PipeAction.casesOn (motive := fun b => Decidable (PipeAction.KeepsRing x b)) b <;>
    intros <;> dsimp only [PipeAction.KeepsRing] <;> infer_instance

/-- A pipe has just been created, and its semaphores have been opened with it: they were
closed, nobody is blocked at them, and no transfer is under way. -/
def FreshPipe (x : PipeMachine) (pipe : ℕ) : Prop :=
  ∃ x₀ a fds, piping.Reach (fun x a => a.KeepsRing x) x₀ ∧ (∀ p, x₀.transfer p = none) ∧
    (∀ side : Side, ¬x₀.IsOpen side.semId ∧ ∀ p, ¬Inside x₀.toMachine (.sem side.semId) p) ∧
    a.call = .createPipe ∧ (x₀.before a).createPipe.1 = some fds ∧ x₀.step (.call a) = some x ∧ x.fdPipe fds.1 = pipe

theorem step_ordered (h : KernelInv m.toKernel ∧ WhyBlocked m ∧ Alive m.toCore) (hok : a.KeepsRing m)
    (hrun : m.step a = some m') : KernelInv m'.toKernel ∧ WhyBlocked m' ∧ Alive m'.toCore := by
  obtain ⟨hinv, hwhy, halive⟩ := h
  obtain ⟨r, k, again, hs⟩ := exists_callStep hinv hwhy hok.1 hok.ne_quitCPU hrun
  exact ⟨hs.inv, hs.whyBlocked, hs.alive halive⟩

theorem moved_ordered (h : KernelInv x.toKernel ∧ WhyBlocked x.toMachine ∧ Alive x.toCore) :
    KernelInv (x.moved t).toKernel ∧ WhyBlocked (x.moved t) ∧ Alive (x.moved t).toCore := by
  rw [moved_eq]
  exact ⟨h.1.setPipes _, h.2.1, h.2.2⟩

theorem piping_ordered (h : piping.Reach (fun x a => a.KeepsRing x) x) :
    KernelInv x.toKernel ∧ WhyBlocked x.toMachine ∧ Alive x.toCore := by
  refine h.invariant (I := fun x : PipeMachine => KernelInv x.toKernel ∧ WhyBlocked x.toMachine ∧ Alive x.toCore)
    (fun x hx => ?_) fun x a y hx hok hrun => ?_
  · exact boot_reach_ordered (.init hx.1)
  · cases a with
    | call a =>
      obtain ⟨-, m, hstep, rfl⟩ := PipeMachine.call_cases hrun
      exact step_ordered hx hok hstep
    | pipeWrite fd buffer count =>
      obtain ⟨-, rfl⟩ := PipeMachine.pipeWrite_cases hrun
      exact hx
    | pipeRead fd count =>
      obtain ⟨-, rfl⟩ := PipeMachine.pipeRead_cases hrun
      exact hx
    | goOn offset answers =>
      obtain ⟨t, -, ⟨-, m, hstep, rfl⟩ | ⟨-, -, m, hstep, rfl⟩ | ⟨-, -, rfl⟩⟩ := PipeMachine.goOn_cases hrun
      · exact step_ordered (moved_ordered hx) (keepsRing_post rfl) hstep
      · exact step_ordered hx (keepsRing_wait rfl) hstep
      · exact hx

/-! ### The initialisation of a pipe -/

/-- The block has been initialised as a pipe; the semaphores that were closed are open. -/
structure PipeInit (k k' : Kernel) (pipe : ℕ) : Prop where
  sems : k'.HasSems pipe
  bytes : k'.HoldsBytes pipe 0 ⟨[], []⟩
  others : ∀ q, q ≠ pipe → SameBuffer k k' q
  opens : ∀ side : Side, ¬k.IsOpen side.semId → k'.IsOpen side.semId ∧ k'.sems side.semId =
    { k.sems side.semId with
      value := side.tokens 0
      head := 0
      tail := 0
      count := 0 }

theorem SameBuffer.trans {k₁ : Kernel} (h₁ : SameBuffer k k₁ pipe) (h₂ : SameBuffer k₁ k' pipe) :
    SameBuffer k k' pipe :=
  ⟨h₂.buffer.trans h₁.buffer, h₂.readPos.trans h₁.readPos, h₂.writePos.trans h₁.writePos,
    h₂.dataAvailable.trans h₁.dataAvailable, h₂.freeSpace.trans h₁.freeSpace⟩

/-- What comes before and after may change anything else. -/
theorem PipeInit.mono {k₁ k₂ : Kernel} (h : PipeInit k₁ k₂ pipe) (hbuf : ∀ q, SameBuffer k k₁ q)
    (hsems : k₁.sems = k.sems)
    (hbuf' : ∀ q, SameBuffer k₂ k' q) (hsems' : k'.sems = k₂.sems) : PipeInit k k' pipe := by
  refine ⟨(hbuf' pipe).hasSems h.sems, (hbuf' pipe).holdsBytes h.bytes,
    fun q hq => ((hbuf q).trans (h.others q hq)).trans (hbuf' q), fun side hclosed => ?_⟩
  obtain ⟨hopen, hvalue⟩ := h.opens side fun ho => hclosed ((isOpen_congr (by rw [hsems])).mp ho)
  rw [hsems] at hvalue
  exact ⟨(isOpen_congr (by rw [hsems'])).mpr hopen, by rw [hsems', hvalue]⟩

theorem pipeInit_opens (hclosed : ¬k.IsOpen side.semId) : (k.pipeInit pipe).IsOpen side.semId ∧
    (k.pipeInit pipe).sems side.semId = { k.sems side.semId with
      value := side.tokens 0
      head := 0
      tail := 0
      count := 0 } := by
  obtain ⟨h₁, h₂⟩ := pipeInit_isOpen k pipe
  cases side with
  | read =>
    obtain ⟨w, hw, hsems⟩ := pipeInit_closed hclosed h₁
    obtain rfl : w = 0 := by simpa [Side.semId] using hw
    exact ⟨h₁, hsems⟩
  | write =>
    obtain ⟨w, hw, hsems⟩ := pipeInit_closed hclosed h₂
    obtain rfl : w = bufferSize := by simpa [Side.semId] using hw
    exact ⟨h₂, hsems⟩

theorem pipeInit_init (k : Kernel) (pipe : ℕ) : PipeInit k (k.pipeInit pipe) pipe := by
  have hpipes := pipeInit_toPipes k pipe
  refine ⟨fun side => ?_, ?_, fun q hq => ?_, fun side hclosed => pipeInit_opens hclosed⟩
  · cases side
    all_goals
      unfold Side.waitsFor
      dsimp only
      rw [hpipes]
      exact Function.update_self ..
  · unfold Kernel.HoldsBytes
    rw [hpipes]
    dsimp only
    rw [Function.update_self, Function.update_self, Function.update_self]
    exact .start (by decide)
  · refine ⟨?_, ?_, ?_, ?_, ?_⟩
    all_goals
      rw [hpipes]
      exact Function.update_of_ne hq ..

theorem attachPipe_buffer (k : Kernel) (i pipe q : ℕ) : SameBuffer k (k.attachPipe i pipe).2 q := by
  rcases attachPipe_cases k i pipe with ⟨-, hcase⟩ | ⟨n, -, ⟨-, hcase⟩ | ⟨s, t, rest, -, hcase⟩⟩
  all_goals
    rw [hcase]
    exact ⟨rfl, rfl, rfl, rfl, rfl⟩

theorem attachPipe_names {fds : ℤ × ℤ} {i : ℕ} (h : (k.attachPipe i pipe).1 = some fds) :
    (k.attachPipe i pipe).2.fdPipe fds.1 = pipe := by
  rcases attachPipe_cases k i pipe with ⟨-, hcase⟩ | ⟨n, -, ⟨-, hcase⟩ | ⟨s, t, rest, -, hcase⟩⟩
  · rw [hcase] at h
    cases h
  · rw [hcase] at h
    cases h
  · rw [hcase] at h ⊢
    obtain rfl := Option.some.inj h
    show update (update k.fdPipe n pipe) (n + 1 : ℕ) pipe n = pipe
    rw [Function.update_of_ne (by push_cast; omega), Function.update_self]

/-- A creation fails at once, or it initialises a block that was free. -/
theorem createPipe_init (k : Kernel) :
    (k.createPipe.1 = none ∧ k.createPipe.2.toPipes = k.toPipes ∧ k.createPipe.2.sems = k.sems ∧
        k.createPipe.2.live = k.live) ∨
      ∃ pipe, pipe ∉ k.live .pipe ∧ PipeInit k k.createPipe.2 pipe ∧
        ∀ fds, k.createPipe.1 = some fds → k.createPipe.2.fdPipe fds.1 = pipe := by
  rcases createPipe_tries k with ⟨-, hnone⟩ | ⟨-, rest, hnone⟩ | ⟨i, pipe, rest, k₁, -, hblock, hk₁, hattach⟩
  · rw [hnone]
    exact Or.inl ⟨rfl, rfl, rfl, rfl⟩
  · rw [hnone]
    exact Or.inl ⟨rfl, rfl, rfl, rfl⟩
  · set k₂ : Kernel := { k₁.pipeInit pipe with pipeId := update (k₁.pipeInit pipe).pipeId pipe i } with hk₂
    have hbuf (q : ℕ) : SameBuffer k k₁ q := by
      rw [hk₁]
      exact ⟨rfl, rfl, rfl, rfl, rfl⟩
    have hsems : k₁.sems = k.sems := by rw [hk₁]
    rw [hattach]
    refine Or.inr ⟨pipe, hblock.2, (pipeInit_init k₁ pipe).mono hbuf hsems (fun q => ?_) ?_,
      fun fds hfds => attachPipe_names hfds⟩
    · have hid : SameBuffer (k₁.pipeInit pipe) k₂ q := ⟨rfl, rfl, rfl, rfl, rfl⟩
      exact hid.trans (attachPipe_buffer k₂ i pipe q)
    · exact (attachPipe_only k₂ i pipe).sems

theorem openCount_congr (hp : k'.toPipes = k.toPipes) (ty : FDType) : k'.openCount pipe ty = k.openCount pipe ty := by
  unfold Kernel.openCount
  rw [hp]

/-- The tokens of a pipe that has opened its semaphores. -/
theorem Pool.fresh {m₀ : Machine} (hs : CallStep m₀ a m r k again) (halive : Alive m₀.toCore)
    (hc : a.call = .createPipe)
    (hinit : PipeInit (m₀.before a) k pipe) (hclosed : ∀ side : Side, ¬m₀.IsOpen side.semId)
    (hnobody : ∀ (side : Side) (p : ℕ), ¬Inside m₀ (.sem side.semId) p) {transfer : ℕ → Option Transfer}
    (hnone : ∀ p, transfer p = none) : Pool ⟨m, transfer⟩ (fun side => .start (side.tokens 0)) 0 := by
  refine ⟨fun side => ?_, fun side => .start _ ?_, Nat.zero_le _, fun p t ht => ?_⟩
  · obtain ⟨hopen, hsems⟩ := hinit.opens side (hclosed side)
    have hsame := congrFun hs.sems side.semId
    refine .fresh hs halive (hnobody side) (by rw [hc]; simp) ?_ ((isOpen_congr hsame).mpr hopen) (hsame.trans hsems)
    cases side <;> decide
  · rintro p ⟨t, ht, -⟩
    exact Option.some_ne_none t (ht.symm.trans (hnone p))
  · exact absurd (ht.symm.trans (hnone p)) (Option.some_ne_none t)

theorem createPipe_made {fds : ℤ × ℤ} (h : k.createPipe.1 = some fds) :
    ∃ i pipe n s t : ℕ, fds = ((n : ℤ), ((n + 1 : ℕ) : ℤ)) ∧ PipeMade k k.createPipe.2 i pipe n s t ∧
      PipeInit k k.createPipe.2 pipe := by
  rcases createPipe_cases k with ⟨hfail, -⟩ | ⟨i, pipe, n, s, t, hfds, hm⟩
  · rw [hfail] at h
    cases h
  · obtain rfl := Option.some.inj (h.symm.trans hfds)
    refine ⟨i, pipe, n, s, t, rfl, hm, ?_⟩
    rcases createPipe_init k with ⟨hfail, -⟩ | ⟨q, -, hinit, hnames⟩
    · rw [hfail] at hfds
      cases hfds
    · obtain rfl : q = pipe := (hnames _ hfds).symm.trans hm.names_read.fdPipe
      exact hinit

/-- The pipe is empty, and its ends are open. -/
theorem FreshPipe.flow (hx : FreshPipe x pipe) :
    Flow x pipe (fun side => .start (side.tokens 0)) 0 ⟨[], []⟩ ∧ ∀ side : Side, 0 < x.openCount pipe side.fdType := by
  obtain ⟨x₀, a, fds, hreach, hnone, hclosed, hc, hmade, hrun, rfl⟩ := hx
  obtain ⟨hinv, hwhy, halive⟩ := piping_ordered hreach
  obtain ⟨-, m, hstep, rfl⟩ := PipeMachine.call_cases hrun
  obtain ⟨r, k, again, hs⟩ := exists_callStep hinv hwhy (by rw [hc]; trivial) (by rw [hc]; simp) hstep
  have hcall := hs.call
  rw [hc] at hcall
  obtain ⟨-, rfl, -⟩ : _ = r ∧ (x₀.before a).createPipe.2 = k ∧ false = again := by simpa [Kernel.call] using hcall
  have hnone' (p : ℕ) : (x₀.afterCall a m).transfer p = none := PipeMachine.afterCall_none (hnone p)
  have hpipes : m.toPipes = (x₀.before a).createPipe.2.toPipes := by rw [hs.kernel]
  obtain ⟨i, pipe, n, s, t, rfl, hm, hinit⟩ := createPipe_made hmade
  have hpipe : (x₀.afterCall a m).fdPipe n = pipe := by
    show m.toPipes.fdPipe n = pipe
    rw [hpipes]
    exact hm.names_read.fdPipe
  have hbuf : SameBuffer (x₀.before a).createPipe.2 m.toKernel pipe := .of_eq hpipes pipe
  rw [hpipe]
  refine ⟨⟨.fresh hs halive hc hinit (fun side => (hclosed side).1) (fun side => (hclosed side).2) hnone',
    hbuf.hasSems hinit.sems, hbuf.holdsBytes hinit.bytes, fun p t ht => ?_⟩, fun side => ?_⟩
  · rw [hnone' p] at ht
    cases ht
  · show 0 < m.openCount pipe side.fdType
    rw [openCount_congr hpipes, hm.openCount_new (by cases side <;> simp [Side.fdType])]
    decide

/-! ### Runs -/

/-- A process that has to wait is not process `1` and leaves somebody else ready. -/
def PipeMachine.MayWait (x : PipeMachine) (t : Transfer) : Prop :=
  t.waited = false → t.Unfinished → (x.sems (t.side.waitsFor x.toKernel t.pipe)).value = 0 →
    x.pid x.currentProcess ≠ 1 ∧ InTable x.toCore x.currentProcess ∧ OtherReady x.toCore

/-- The call does not kill, and is not about pipes or their semaphores. -/
def Call.LeavesPipes : Call → Prop
  | .killProcess _ | .exitProcess | .createPipe | .pipeClose _ => False
  | .semOpen id _ | .semClose id | .semPost id | .semWait id => id ≠ 1 ∧ id ≠ 2
  | _ => True

/-- Transfers are on the ends of the pipe, and nothing else uses it or its semaphores or
wakes those who wait for it. -/
def PipeAction.KeepsPipe (x : PipeMachine) (pipe : ℕ) : PipeAction → Prop
  | .call a => a.SharesSem x.toMachine 1 ∧ a.SharesSem x.toMachine 2 ∧ a.call.LeavesPipes
  | .pipeWrite fd _ _ => x.Names pipe .write fd
  | .pipeRead fd _ => x.Names pipe .read fd
  | .goOn _ _ => x.current.elim True x.MayWait

instance (x : PipeMachine) (t : Transfer) : Decidable (x.MayWait t) := inferInstanceAs (Decidable (_ → _ → _ → _))

instance (call : Call) : Decidable call.LeavesPipes := by
  apply Call.casesOn (motive := fun call => Decidable call.LeavesPipes) call <;>
    intros <;> dsimp only [Call.LeavesPipes] <;> infer_instance

instance (x : PipeMachine) (P : Transfer → Prop) [DecidablePred P] : Decidable (x.current.elim True P) :=
  match x.current with
  | none => isTrue trivial
  | some t => inferInstanceAs (Decidable (P t))

instance (x : PipeMachine) (pipe : ℕ) (b : PipeAction) : Decidable (b.KeepsPipe x pipe) := by
  apply PipeAction.casesOn (motive := fun b => Decidable (PipeAction.KeepsPipe x pipe b)) b <;>
    intros <;> dsimp only [PipeAction.KeepsPipe] <;> infer_instance

theorem pipeAccses_buffer (k : Kernel) (pid fd : ℤ) (pipe : ℕ) : SameBuffer k (k.pipeAccses pid fd).2 pipe := by
  rcases pipeAccses_cases k pid fd with h | ⟨-, i, rest, -, h⟩
  · rw [h]
    exact .of_eq rfl pipe
  · rw [h]
    exact ⟨rfl, rfl, rfl, rfl, rfl⟩

/-- A new process leaves the bytes of a pipe alone and opens its ends more often. -/
theorem createProcess_buffer {args : CreateArgs} (hrun : k.createProcess args = some (r, k')) (pipe : ℕ) :
    SameBuffer k k' pipe ∧ ∀ ty, k.openCount pipe ty ≤ k'.openCount pipe ty := by
  rcases createProcess_cases hrun with ⟨-, -, answers, live, rfl, -⟩ | ⟨p, answers, live, c, -, -, -, -, -, -, rfl, -⟩
  · exact ⟨⟨rfl, rfl, rfl, rfl, rfl⟩, fun ty => le_of_eq (openCount_congr rfl ty).symm⟩
  · refine openProcess_induction
      (R := fun k' => SameBuffer k k' pipe ∧ ∀ ty, k.openCount pipe ty ≤ k'.openCount pipe ty)
      _ p ⟨⟨rfl, rfl, rfl, rfl, rfl⟩, fun ty => ?_⟩ (fun k₁ fd h₁ => ?_) fun k₁ waiting h₁ => ?_
    · cases ty <;> exact le_refl _
    · exact ⟨h₁.1.trans (pipeAccses_buffer k₁ _ fd pipe),
        fun ty => (h₁.2 ty).trans (openCount_le_accses k₁ _ fd pipe ty)⟩
    · exact ⟨h₁.1.trans ⟨rfl, rfl, rfl, rfl, rfl⟩, fun ty => (h₁.2 ty).trans (le_of_eq (openCount_congr rfl ty).symm)⟩

/-- What other calls leave of a pipe. -/
theorem step_leavesPipes (hc : a.call.LeavesPipes) (hrun : m.step a = some m') (pipe : ℕ) :
    SameBuffer m.toKernel m'.toKernel pipe ∧ ∀ ty, m.openCount pipe ty ≤ m'.openCount pipe ty := by
  by_cases hord : a.call.Ordinary
  · have hpipes := step_toPipes hrun hord
    exact ⟨.of_eq hpipes pipe, fun ty => le_of_eq (openCount_congr hpipes ty).symm⟩
  · obtain ⟨r, k, again, hcall, hcases⟩ := step_cases hrun
    have hk : SameBuffer m.toKernel k pipe ∧ ∀ ty, m.openCount pipe ty ≤ k.openCount pipe ty := by
      cases hcl : a.call with
      | createProcess args =>
        rw [hcl] at hcall
        obtain ⟨⟨v, k₁⟩, hcreate, hret⟩ := Option.map_eq_some_iff.mp hcall
        obtain ⟨-, rfl, -⟩ : v = r ∧ k₁ = k ∧ false = again := by simpa using hret
        obtain ⟨hbuf, hcount⟩ := createProcess_buffer hcreate pipe
        exact ⟨⟨hbuf.buffer, hbuf.readPos, hbuf.writePos, hbuf.dataAvailable, hbuf.freeSpace⟩, hcount⟩
      | killProcess | exitProcess | createPipe | pipeClose =>
        rw [hcl] at hc
        cases hc
      | _ =>
        rw [hcl] at hord
        exact absurd trivial hord
    have hafter : m'.toPipes = k.toPipes := by
      rcases hcases with ⟨-, rfl⟩ | ⟨-, cpu, c, -, rfl⟩
      · rfl
      · rfl
    exact ⟨hk.1.trans (.of_eq hafter pipe), fun ty => (hk.2 ty).trans (le_of_eq (openCount_congr hafter ty).symm)⟩

/-- Calls that are not refused. -/
theorem beginTransfer_some {buffer : ℕ → ℤ} (hn : k.Names pipe side.fdType fd)
    (hopen : 0 < k.openCount pipe side.fdType) :
    k.beginTransfer side fd buffer count = some ⟨side, pipe, buffer, count, [], false⟩ := by
  have hlow := hn.low
  have hhigh := hn.high
  unfold Kernel.beginTransfer
  rw [hn.inUse, hn.fdType, hn.fdPipe, if_neg (by simp; omega)]
  dsimp only
  rw [if_neg (by omega)]

theorem Call.LeavesPipes.sems {call : Call} (hc : call.LeavesPipes) (side : Side) :
    call ≠ .semWait side.semId ∧ call ≠ .semPost side.semId := by
  constructor
  · rintro rfl
    cases side with
    | read => exact hc.1 rfl
    | write => exact hc.2 rfl
  · rintro rfl
    cases side with
    | read => exact hc.1 rfl
    | write => exact hc.2 rfl

theorem Call.LeavesPipes.ends {call : Call} (hc : call.LeavesPipes) : ¬call.ends k p := by
  cases call <;> simp_all [Call.LeavesPipes, Call.ends]

theorem Call.LeavesPipes.creation (hc : a.call.LeavesPipes) : x.creation a = [] := by
  unfold PipeMachine.creation
  cases hcl : a.call <;> simp_all [Call.LeavesPipes]

/-- A call that returns has transferred all its bytes. -/
def PipeEvent.Complete : PipeEvent → Prop
  | .returned count value moved => value = max count 0 ∧ (moved.length : ℤ) = max count 0
  | _ => True

theorem mine_setCurrent {o : Option Transfer} (hmine : ∀ p t, x.transfer p = some t → t.pipe = pipe)
    (ho : ∀ t, o = some t → t.pipe = pipe) (p : ℕ) (t : Transfer) (ht : (x.setCurrent o m).transfer p = some t) :
    t.pipe = pipe := by
  change update x.transfer x.currentProcess o p = some t at ht
  by_cases hp : p = x.currentProcess
  · rw [hp, Function.update_self] at ht
    exact ho t ht
  · rw [Function.update_of_ne hp] at ht
    exact hmine p t ht

theorem Flow.set {o : Option Transfer} (hf : Flow x pipe S n h) (hcur : ∀ t, x.current = some t → t.waited = false)
    (ho : ∀ t, o = some t → t.pipe = pipe ∧ t.Sound ∧ t.waited = false) :
    Flow (x.setCurrent o x.toMachine) pipe S n h := by
  refine ⟨hf.toPool.set hcur fun t ht => ?_, hf.sems, hf.bytes, mine_setCurrent hf.mine fun t ht => (ho t ht).1⟩
  obtain ⟨rfl, hsound⟩ := ho t ht
  exact ⟨hf.sems, hsound⟩

/-- A transfer begins on an end of the pipe. -/
theorem Flow.begin (hf : Flow x pipe S n h) (hopen : 0 < x.openCount pipe side.fdType)
    (hcur : x.current = none) (hn : x.Names pipe side.fdType fd) (buffer : ℕ → ℤ) (count : ℤ) :
    Flow (x.setCurrent (x.beginTransfer side fd buffer count) x.toMachine) pipe S n h ∧
      PipeMachine.refused side count (x.beginTransfer side fd buffer count) = [] := by
  rw [beginTransfer_some (k := x.toKernel) hn hopen]
  refine ⟨hf.set (fun t ht => ?_) fun t ht => ?_, rfl⟩
  · rw [hcur] at ht
    cases ht
  · obtain rfl := Option.some.inj ht
    refine ⟨rfl, ⟨?_, fun hno => by cases hno⟩, rfl⟩
    show (0 : ℤ) ≤ max count 0
    omega

theorem Transfer.Sound.complete (ht : t.Sound) (hun : ¬t.Unfinished) : (t.moved.length : ℤ) = max t.count 0 := by
  have hbound := ht.bound
  unfold Transfer.Unfinished at hun
  omega

theorem goOn_events (hcur : x.current = some t) : x.events (.goOn offset answers) =
    if t.waited then [t.event x.toKernel] else if t.Unfinished then [] else
      [.returned t.count t.moved.length t.moved] := by
  unfold PipeMachine.events Transfer.event
  rw [hcur]
  dsimp only
  split
  · cases t.side <;> rfl
  · rfl

/-- Every step keeps the pipe a queue. -/
theorem Flow.step {b : PipeAction} (hf : Flow x pipe S n h) (hopen : ∀ side : Side, 0 < x.openCount pipe side.fdType)
    (hok : b.KeepsPipe x pipe) (hrun : x.step b = some y) :
    (∃ S' n', Flow y pipe S' n' ((x.events b).foldl (History.step pipe) h)) ∧
      (∀ side : Side, 0 < y.openCount pipe side.fdType) ∧ ∀ e ∈ x.events b, e.Complete := by
  cases b with
  | call a =>
    obtain ⟨hread, hwrite, hleaves⟩ := hok
    obtain ⟨-, m, hstep, rfl⟩ := PipeMachine.call_cases hrun
    obtain ⟨hbuf, hcount⟩ := step_leavesPipes hleaves hstep pipe
    have hnone : x.events (.call a) = [] := hleaves.creation
    rw [hnone]
    refine ⟨⟨S, n, hf.toPool.call (fun side => ⟨?_, hleaves.sems side⟩) (fun p hp => absurd hp hleaves.ends) hstep
        fun q => (step_leavesPipes hleaves hstep q).1.hasSems, hbuf.hasSems hf.sems, hbuf.holdsBytes hf.bytes,
        fun p t ht => ?_⟩,
      fun side => (hopen side).trans_le (hcount side.fdType), fun e he => absurd he List.not_mem_nil⟩
    · cases side with
      | read => exact hread
      | write => exact hwrite
    · have htransfer : (x.afterCall a m).transfer p = x.transfer p := if_neg hleaves.ends
      exact hf.mine p t (htransfer.symm.trans ht)
  | pipeWrite fd buffer count =>
    obtain ⟨hcur, rfl⟩ := PipeMachine.pipeWrite_cases hrun
    obtain ⟨hflow, hnone⟩ := hf.begin (hopen .write) hcur hok buffer count
    have hevents : x.events (.pipeWrite fd buffer count) = [] := hnone
    rw [hevents]
    exact ⟨⟨S, n, hflow⟩, hopen, fun e he => absurd he List.not_mem_nil⟩
  | pipeRead fd count =>
    obtain ⟨hcur, rfl⟩ := PipeMachine.pipeRead_cases hrun
    obtain ⟨hflow, hnone⟩ := hf.begin (hopen .read) hcur hok (fun _ => 0) count
    have hevents : x.events (.pipeRead fd count) = [] := hnone
    rw [hevents]
    exact ⟨⟨S, n, hflow⟩, hopen, fun e he => absurd he List.not_mem_nil⟩
  | goOn offset answers =>
    obtain ⟨t, hcur, hcases⟩ := PipeMachine.goOn_cases hrun
    obtain ⟨-, hsound⟩ := hf.sound _ t hcur
    obtain rfl := hf.mine _ t hcur
    rw [goOn_events hcur]
    rcases hcases with ⟨hw, m, hstep, rfl⟩ | ⟨hw, hun, m, hstep, rfl⟩ | ⟨hw, hun, rfl⟩
    · rw [if_pos hw]
      obtain ⟨hpos, hpool⟩ := hf.toPool.move hcur hw hstep
      have hpipes : m.toPipes = (t.moveByte x.toKernel).toPipes := step_toPipes hstep trivial
      have hbuf : SameBuffer (t.moveByte x.toKernel) m.toKernel t.pipe := .of_eq hpipes t.pipe
      have hsems : (t.moveByte x.toKernel).HasSems t.pipe := fun side =>
        (moveByte_waitsFor t _ _ side).trans (hf.sems side)
      have hflow : Flow (x.setCurrent (some (t.next x.toKernel)) m) t.pipe
          (update S t.side.other ((S t.side.other).step .post)) (t.side.after n) (h.step t.pipe (t.event x.toKernel)) :=
        ⟨hpool, hbuf.hasSems hsems, hbuf.holdsBytes (hf.bytes.move hpos),
          mine_setCurrent hf.mine fun t' ht' => by rw [← Option.some.inj ht']; rfl⟩
      refine ⟨⟨_, _, hflow⟩, fun side => ?_, fun e he => ?_⟩
      · have hcount : m.openCount t.pipe side.fdType = x.openCount t.pipe side.fdType := by
          rw [openCount_congr hpipes]
          unfold Transfer.moveByte
          cases t.side <;> cases side <;> rfl
        show 0 < m.openCount t.pipe side.fdType
        rw [hcount]
        exact hopen side
      · rw [List.mem_singleton.mp he]
        unfold Transfer.event
        cases t.side <;> trivial
    · rw [if_neg (by rw [hw]; simp), if_pos hun]
      have hmay : x.MayWait t := by
        have hcond : x.current.elim True x.MayWait := hok
        rwa [hcur] at hcond
      have hready := hmay hw hun
      rw [hf.sems t.side] at hready
      have hbuf : SameBuffer x.toKernel m.toKernel t.pipe := .of_eq (step_toPipes hstep trivial) t.pipe
      have hflow := hf.toPool.wait hcur hw hun hready hstep
      refine ⟨⟨_, n, hflow, hbuf.hasSems hf.sems, hbuf.holdsBytes hf.bytes,
        mine_setCurrent hf.mine fun t' ht' => by rw [← Option.some.inj ht']; rfl⟩, fun side => ?_,
        fun e he => absurd he List.not_mem_nil⟩
      show 0 < m.openCount t.pipe side.fdType
      rw [openCount_congr (step_toPipes hstep trivial)]
      exact hopen side
    · rw [if_neg (by rw [hw]; simp), if_neg hun]
      refine ⟨⟨S, n, hf.set (fun t' ht' => ?_) fun t' ht' => by cases ht'⟩, hopen, fun e he => ?_⟩
      · obtain rfl := Option.some.inj (hcur.symm.trans ht')
        exact hw
      · rw [List.mem_singleton.mp he]
        have hall := hsound.complete hun
        exact ⟨hall, hall⟩

/-- A pipe that is the only user of its semaphores is a queue of at most `BUFFER_SIZE`
bytes, and a call that returns has transferred all that it should, provided that
somebody else is ready whenever a process has to wait. -/
theorem pipe_bounded_fifo {x₀ : PipeMachine} {es : List PipeEvent} (hfresh : FreshPipe x₀ pipe)
    (hrun : piping.Emits (fun x b => b.KeepsPipe x pipe) PipeMachine.events x₀ es x) :
    (history pipe es).taken <+: (history pipe es).stored ∧
      (history pipe es).stored.length ≤ (history pipe es).taken.length + bufferSize ∧ ∀ e ∈ es, e.Complete := by
  have hinv : (∃ S n, Flow x pipe S n (history pipe es)) ∧ (∀ side : Side, 0 < x.openCount pipe side.fdType) ∧
      ∀ e ∈ es, e.Complete := by
    induction hrun with
    | refl =>
      obtain ⟨hflow, hopen⟩ := hfresh.flow
      exact ⟨⟨_, 0, hflow⟩, hopen, fun e he => absurd he List.not_mem_nil⟩
    | step _ hok hst ih =>
      obtain ⟨⟨S, n, hflow⟩, hopen, hcomplete⟩ := ih
      obtain ⟨hnext, hopen', hcomplete'⟩ := hflow.step hopen hok hst
      rw [history_append]
      refine ⟨hnext, hopen', fun e he => ?_⟩
      rcases List.mem_append.mp he with he | he
      · exact hcomplete e he
      · exact hcomplete' e he
  obtain ⟨⟨S, n, hflow⟩, -, hcomplete⟩ := hinv
  have hlength := hflow.bytes.length
  have hroom := hflow.bytes.room
  exact ⟨hflow.bytes.isPrefix, by omega, hcomplete⟩

/-! ### A reader that waits for a writer -/

/-- A transfer goes on, and its post gets a node for the ready ring. -/
def goOn : PipeAction := .goOn 0 [900]

/-- A pipe is created in the block `500`. -/
def newPipe : Action := ⟨.createPipe, 0, [500]⟩

/-- Two processes, before and after the first one creates a pipe. -/
def unpiped : PipeMachine :=
  PipeMachine.ran (fun x b => b.KeepsRing x) PipeMachine.initial
    ([create 100, plain .tick, create 200].map .call)

def twoPiped : PipeMachine := (unpiped.step (.call newPipe)).getD unpiped

theorem twoPiped_fresh : FreshPipe twoPiped 500 := by
  have hnobody (p : ℕ) : unpiped.transfer p = none := by
    unfold unpiped
    exact PipeMachine.ran_calls (fun _ => rfl) p
  refine ⟨unpiped, newPipe, (2, 3), PipeMachine.piping_ran (by decide +kernel), hnobody, fun side => ⟨?_, ?_⟩,
    rfl, by decide +kernel, PipeMachine.step_getD (by decide +kernel), by decide +kernel⟩
  · cases side <;> decide +kernel
  · rintro p ⟨⟨-, i, hi, rfl⟩, hwhy⟩
    have hnone : ∀ i < maxProcesses, unpiped.why (unpiped.processesList i) = none := by decide +kernel
    rw [hnone i hi] at hwhy
    cases hwhy

/-- The second process reads two bytes and waits for the first one, which writes them. -/
def readThenWrite : List PipeAction :=
  [.call (plain .tick), .pipeRead 2 2, goOn, .pipeWrite 3 (fun i => i + 7) 2, goOn, goOn, goOn, goOn, goOn,
    .call (plain .tick), goOn, goOn, goOn, goOn]

theorem pipe_bounded_fifo_readThenWrite :
    let es := System.emitted PipeMachine.step PipeMachine.events twoPiped readThenWrite
    (history 500 es).taken <+: (history 500 es).stored ∧
      (history 500 es).stored.length ≤ (history 500 es).taken.length + bufferSize ∧ ∀ e ∈ es, e.Complete :=
  pipe_bounded_fifo twoPiped_fresh (PipeMachine.emits_ran (by decide +kernel))

/-! ### The last one that is ready reads -/

/-- Transfers on the pipe, in which process `1` does not wait. -/
def PipeAction.UsesPipe (x : PipeMachine) (pipe : ℕ) : PipeAction → Prop
  | .call _ => False
  | .pipeWrite fd _ _ => x.Names pipe .write fd
  | .pipeRead fd _ => x.Names pipe .read fd
  | .goOn _ _ => x.pid x.currentProcess ≠ 1

instance (x : PipeMachine) (pipe : ℕ) (b : PipeAction) : Decidable (b.UsesPipe x pipe) := by
  apply PipeAction.casesOn (motive := fun b => Decidable (PipeAction.UsesPipe x pipe b)) b <;>
    intros <;> dsimp only [PipeAction.UsesPipe] <;> infer_instance

/-- The first process waits for its child, before and after the child creates a pipe. -/
def lastProcess : PipeMachine :=
  PipeMachine.ran (fun x b => b.KeepsRing x) PipeMachine.initial
    ([create 100, plain .tick, create 200, plain .wait].map .call)

def lastPiped : PipeMachine := (lastProcess.step (.call newPipe)).getD lastProcess

theorem lastPiped_fresh : FreshPipe lastPiped 500 := by
  have hnobody (p : ℕ) : lastProcess.transfer p = none := by
    unfold lastProcess
    exact PipeMachine.ran_calls (fun _ => rfl) p
  refine ⟨lastProcess, newPipe, (2, 3), PipeMachine.piping_ran (by decide +kernel), hnobody, fun side => ⟨?_, ?_⟩,
    rfl, by decide +kernel, PipeMachine.step_getD (by decide +kernel), by decide +kernel⟩
  · cases side <;> decide +kernel
  · rintro p ⟨⟨-, i, hi, rfl⟩, hwhy⟩
    have hnone : ∀ i < maxProcesses, ∀ side : Side,
        lastProcess.why (lastProcess.processesList i) ≠ some (.sem side.semId) := by
      intro i hi side
      revert i
      cases side <;> decide +kernel
    exact hnone i hi side hwhy

/-- The process goes on after it has been blocked, and takes a byte that nobody stored. -/
def readAlone : List PipeAction := [.pipeRead 2 1, goOn, goOn]

theorem pipe_bounded_fifo_readAlone : ¬∀ x₀ x pipe es, FreshPipe x₀ pipe →
    piping.Emits (fun x b => b.UsesPipe x pipe) PipeMachine.events x₀ es x →
      (history pipe es).taken <+: (history pipe es).stored ∧
        (history pipe es).stored.length ≤ (history pipe es).taken.length + bufferSize ∧ ∀ e ∈ es, e.Complete := by
  intro hall
  have hrun : (System.runList PipeMachine.step (fun x b => b.UsesPipe x 500) lastPiped readAlone).isSome = true := by
    decide +kernel
  have hbegins := (hall _ _ 500 _ lastPiped_fresh (PipeMachine.emits_ran hrun)).1
  revert hbegins
  decide +kernel

end BareKernel
