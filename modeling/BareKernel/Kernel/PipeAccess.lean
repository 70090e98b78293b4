import BareKernel.Kernel.PipeShare

/-! Who may use a descriptor of a pipe. The check before a transfer refuses a caller that
does not hold the descriptor only when the pipe counts nobody at that end; otherwise
whoever names an entry in use may transfer. -/

namespace BareKernel

open Function (update)
open Process Links Machine

variable {k : Kernel} {x y : PipeMachine} {t : Transfer} {side : Side} {fd count : ℤ} {buffer : ℕ → ℤ} {p : ℕ}

/-- The process on the processor has the descriptor in one of its slots. -/
def Kernel.HasFd (k : Kernel) (fd : ℤ) : Prop := ∃ i < rowSize, k.fdTable k.currentProcess i = fd

instance (k : Kernel) (fd : ℤ) : Decidable (k.HasFd fd) := inferInstanceAs (Decidable (∃ i < rowSize, _))

/-- A call of `pipe_read` or `pipe_write`. -/
def Side.call (side : Side) (fd : ℤ) (buffer : ℕ → ℤ) (count : ℤ) : PipeAction :=
  match side with
  | .read => .pipeRead fd count
  | .write => .pipeWrite fd buffer count

/-- The buffer of the call as the model has it: what a reader has read is in no buffer yet. -/
def Side.given (side : Side) (buffer : ℕ → ℤ) : ℕ → ℤ :=
  match side with
  | .read => fun _ => 0
  | .write => buffer

namespace PipeMachine

/-- The call returns its error value, at once or when it goes on, and nothing has changed. -/
def Denies (x : PipeMachine) (side : Side) (fd : ℤ) (buffer : ℕ → ℤ) (count : ℤ) : Prop :=
  x.step (side.call fd buffer count) = some x ∧
      x.events (side.call fd buffer count) = [.returned count side.refusal []] ∨
    ∃ y, x.step (side.call fd buffer count) = some y ∧ x.events (side.call fd buffer count) = [] ∧
      y.step (.goOn 0 []) = some x ∧ y.events (.goOn 0 []) = [.returned count side.refusal []]

/-- The call is denied unless the caller holds the descriptor. -/
def Controls (x : PipeMachine) (side : Side) (fd : ℤ) (buffer : ℕ → ℤ) (count : ℤ) : Prop :=
  ¬x.HasFd fd → x.Denies side fd buffer count

end PipeMachine

/-- The descriptor is in use as that end of a pipe. -/
def Kernel.IsEnd (k : Kernel) (side : Side) (fd : ℤ) : Prop :=
  0 ≤ fd ∧ fd < maxFds ∧ k.inUse fd = true ∧ k.fdType fd = side.fdType

instance (k : Kernel) (side : Side) (fd : ℤ) : Decidable (k.IsEnd side fd) := inferInstanceAs (Decidable (_ ∧ _))

/-- The caller holds the descriptor, it is no such end, the pipe counts nobody there, or
there is nothing to read. -/
def Kernel.Shielded (k : Kernel) (side : Side) (fd count : ℤ) : Prop :=
  k.HasFd fd ∨ ¬k.IsEnd side fd ∨ k.openCount (k.fdPipe fd) side.fdType = 0 ∨ (side = .read ∧ count ≤ 0)

instance (k : Kernel) (side : Side) (fd count : ℤ) : Decidable (k.Shielded side fd count) :=
  inferInstanceAs (Decidable (_ ∨ _))

/-- The condition on the calls of a run. -/
def PipeAction.Shielded (x : PipeMachine) : PipeAction → Prop
  | .pipeWrite fd _ count => x.toKernel.Shielded .write fd count
  | .pipeRead fd count => x.toKernel.Shielded .read fd count
  | .call _ | .goOn _ _ => True

/-! ### The check -/

theorem canAccsess_outside (h : ¬k.HasFd fd) : k.canAccsess fd ≠ 0 := by
  unfold Kernel.canAccsess
  rw [if_neg]
  · decide
  · intro hany
    rw [List.any_eq_true] at hany
    obtain ⟨i, hi, hslot⟩ := hany
    have hbuff : maxBuff < rowSize := by decide
    rw [List.mem_range] at hi
    exact h ⟨i, hi.trans hbuff, by simpa using hslot⟩

theorem beginTransfer_eq (k : Kernel) (side : Side) (fd : ℤ) (buffer : ℕ → ℤ) (count : ℤ) :
    k.beginTransfer side fd buffer count =
      if k.IsEnd side fd ∧ (k.openCount (k.fdPipe fd) side.fdType = 0 → k.canAccsess fd = 0)
        then some ⟨side, k.fdPipe fd, buffer, count, [], false⟩ else none := by
  unfold Kernel.beginTransfer Kernel.IsEnd
  by_cases hbad : fd < 0 ∨ (maxFds : ℤ) ≤ fd ∨ k.inUse fd = false ∨ k.fdType fd ≠ side.fdType
  · rw [if_pos hbad, if_neg]
    rintro ⟨⟨h1, h2, h3, h4⟩, -⟩
    rcases hbad with hc | hc | hc | hc
    · omega
    · omega
    · rw [h3] at hc
      cases hc
    · exact hc h4
  · have hend : 0 ≤ fd ∧ fd < maxFds ∧ k.inUse fd = true ∧ k.fdType fd = side.fdType := by
      refine ⟨?_, ?_, ?_, ?_⟩
      · by_contra hc
        exact hbad (Or.inl (by omega))
      · by_contra hc
        exact hbad (Or.inr (Or.inl (by omega)))
      · by_contra hc
        exact hbad (Or.inr (Or.inr (Or.inl (by simpa using hc))))
      · by_contra hc
        exact hbad (Or.inr (Or.inr (Or.inr hc)))
    rw [if_neg hbad]
    by_cases hopen : k.openCount (k.fdPipe fd) side.fdType = 0 <;> by_cases hacc : k.canAccsess fd = 0 <;>
      simp [hopen, hacc, hend]

/-- The check refuses a caller from outside only where nobody holds that end. -/
theorem beginTransfer_outside (h : ¬k.HasFd fd) (side : Side) (buffer : ℕ → ℤ) (count : ℤ) :
    k.beginTransfer side fd buffer count =
      if k.IsEnd side fd ∧ k.openCount (k.fdPipe fd) side.fdType ≠ 0
        then some ⟨side, k.fdPipe fd, buffer, count, [], false⟩ else none := by
  have hno := canAccsess_outside h
  rw [beginTransfer_eq]
  simp only [hno, imp_false, ne_eq]

/-! ### A call -/

theorem step_sideCall (side : Side) (fd : ℤ) (buffer : ℕ → ℤ) (count : ℤ) (hcur : x.current = none) :
    x.step (side.call fd buffer count) =
    some (x.setCurrent (x.beginTransfer side fd (side.given buffer) count) x.toMachine) := by
  cases side <;> simp only [Side.call, PipeMachine.step, hcur] <;> rfl

theorem events_sideCall (x : PipeMachine) (side : Side) (fd : ℤ) (buffer : ℕ → ℤ) (count : ℤ) :
    x.events (side.call fd buffer count) =
    PipeMachine.refused side count (x.beginTransfer side fd (side.given buffer) count) := by
  cases side <;> rfl

theorem setCurrent_none (hcur : x.current = none) : x.setCurrent none x.toMachine = x := by
  have hsame : update x.transfer x.currentProcess none = x.transfer := by
    rw [← show x.transfer x.currentProcess = none from hcur, Function.update_eq_self]
  unfold PipeMachine.setCurrent
  rw [hsame]

theorem current_setCurrent (x : PipeMachine) (o : Option Transfer) : (x.setCurrent o x.toMachine).current = o :=
  Function.update_self ..

theorem setCurrent_setCurrent (x : PipeMachine) (o o' : Option Transfer) :
    (x.setCurrent o x.toMachine).setCurrent o' (x.setCurrent o x.toMachine).toMachine =
      x.setCurrent o' x.toMachine := by
  show PipeMachine.mk _ (update (update x.transfer x.currentProcess o) x.currentProcess o') = _
  rw [Function.update_idem]
  rfl

/-- A call that is refused changes nothing. -/
theorem denies_refused (hcur : x.current = none) (h : x.beginTransfer side fd (side.given buffer) count = none) :
    x.Denies side fd buffer count := by
  refine Or.inl ⟨?_, ?_⟩
  · rw [step_sideCall _ _ _ _ hcur, h, setCurrent_none hcur]
  · rw [events_sideCall, h]
    rfl

/-- One that is not ends without a byte, or it waits. -/
theorem denies_begun {pipe : ℕ} (hcur : x.current = none)
    (h : x.beginTransfer side fd (side.given buffer) count = some ⟨side, pipe, side.given buffer, count, [], false⟩) :
    x.Denies side fd buffer count ↔ side = .read ∧ count ≤ 0 := by
  set t : Transfer := ⟨side, pipe, side.given buffer, count, [], false⟩ with ht
  have hcall := step_sideCall side fd buffer count hcur
  have hevents := events_sideCall x side fd buffer count
  rw [h] at hcall hevents
  have hgo : (x.setCurrent (some t) x.toMachine).events (.goOn 0 []) = _ := goOn_events (current_setCurrent x (some t))
  constructor
  · rintro (⟨-, hret⟩ | ⟨y, hy, -, -, hret⟩)
    · rw [hevents] at hret
      cases hret
    · obtain rfl := Option.some.inj (hcall.symm.trans hy)
      rw [hgo, if_neg (by simp [ht])] at hret
      by_cases hun : t.Unfinished
      · rw [if_pos hun] at hret
        cases hret
      · have hcount : ¬0 < count := by simpa [Transfer.Unfinished, ht] using hun
        rw [if_neg hun] at hret
        cases side with
        | read => exact ⟨rfl, by omega⟩
        | write => simp [ht, Side.refusal] at hret
  · rintro ⟨rfl, hcount⟩
    have hdone : ¬t.Unfinished := by
      simp only [Transfer.Unfinished, ht, List.length_nil]
      omega
    refine Or.inr ⟨_, hcall, hevents, ?_, ?_⟩
    · rw [PipeMachine.step, current_setCurrent]
      dsimp only
      rw [if_neg (by simp [ht]), if_neg hdone, setCurrent_setCurrent, setCurrent_none hcur]
    · rw [hgo, if_neg (by simp [ht]), if_neg hdone]
      rfl

/-- Exactly the calls that the condition names are controlled. -/
theorem controls_iff (hcur : x.current = none) :
    x.Controls side fd buffer count ↔ x.toKernel.Shielded side fd count := by
  unfold PipeMachine.Controls Kernel.Shielded
  by_cases hheld : x.HasFd fd
  · simp [hheld]
  · have hbegin := beginTransfer_outside hheld side (side.given buffer) count
    by_cases hopen : x.IsEnd side fd ∧ x.openCount (x.fdPipe fd) side.fdType ≠ 0
    · rw [if_pos hopen] at hbegin
      rw [denies_begun hcur hbegin]
      simp [hheld, hopen.1, hopen.2]
    · rw [if_neg hopen] at hbegin
      have hdenies := denies_refused hcur hbegin
      have hclosed : ¬x.IsEnd side fd ∨ x.openCount (x.fdPipe fd) side.fdType = 0 := by
        by_contra hc
        push Not at hc
        exact hopen hc
      simp only [hdenies, implies_true, true_iff]
      exact Or.inr (hclosed.imp_right Or.inl)

/-! ### Runs -/

/-- A call that begins to move bytes is one of a caller who holds the descriptor. -/
theorem Kernel.Shielded.holds (h : k.Shielded side fd count) (hbegin : k.beginTransfer side fd buffer count = some t)
    (hcount : 0 < t.count) : k.HasFd fd ∧ k.beginTransfer t.side fd t.buffer t.count =
      some { t with moved := [], waited := false } := by
  obtain ⟨-, rfl⟩ := beginTransfer_cases hbegin
  refine ⟨?_, hbegin⟩
  by_contra hout
  rw [beginTransfer_outside hout] at hbegin
  split at hbegin
  · rename_i hopen
    rcases h with hheld | hno | hclosed | ⟨-, hnothing⟩
    · exact hout hheld
    · exact hno hopen.1
    · exact hopen.2 hclosed
    · exact absurd (show 0 < count from hcount) (by omega)
  · cases hbegin

/-- The transfer was begun by a call of the process on a descriptor that it held. -/
def Granted (ok : PipeMachine → PipeAction → Prop) (p : ℕ) (t : Transfer) : Prop :=
  ∃ x fd, piping.Reach ok x ∧ x.currentProcess = p ∧ x.current = none ∧ x.HasFd fd ∧
    x.beginTransfer t.side fd t.buffer t.count = some { t with moved := [], waited := false }

/-- Every transfer under way that has bytes to move was granted. -/
theorem transfers_granted (h : piping.Reach (fun x b => b.Shielded x) x) (ht : x.transfer p = some t)
    (hcount : 0 < t.count) : Granted (fun x b => b.Shielded x) p t := by
  induction h generalizing p t with
  | init hinit =>
    rw [hinit.2 p] at ht
    cases ht
  | @step x y b hreach hok hstep ih =>
    have hset {o : Option Transfer} {m : Machine} (hy : y = x.setCurrent o m)
        (hnew : o = some t → Granted (fun x b => b.Shielded x) x.currentProcess t) :
        Granted (fun x b => b.Shielded x) p t := by
      have hp : update x.transfer x.currentProcess o p = some t := by rwa [hy] at ht
      rcases eq_or_ne p x.currentProcess with rfl | hne
      · rw [Function.update_self] at hp
        exact hnew hp
      · rw [Function.update_of_ne hne] at hp
        exact ih hp hcount
    cases b with
    | call a =>
      obtain ⟨-, m, -, rfl⟩ := PipeMachine.call_cases hstep
      have hp : (if a.call.ends (x.before a) p then none else x.transfer p) = some t := ht
      split at hp
      · cases hp
      · exact ih hp hcount
    | pipeWrite fd buffer count =>
      obtain ⟨hcur, hy⟩ := PipeMachine.pipeWrite_cases hstep
      refine hset hy fun hnew => ?_
      obtain ⟨hheld, hbegin⟩ := Kernel.Shielded.holds hok hnew hcount
      exact ⟨x, fd, hreach, rfl, hcur, hheld, hbegin⟩
    | pipeRead fd count =>
      obtain ⟨hcur, hy⟩ := PipeMachine.pipeRead_cases hstep
      refine hset hy fun hnew => ?_
      obtain ⟨hheld, hbegin⟩ := Kernel.Shielded.holds hok hnew hcount
      exact ⟨x, fd, hreach, rfl, hcur, hheld, hbegin⟩
    | goOn offset answers =>
      obtain ⟨t₀, hcur, ⟨-, m, -, hy⟩ | ⟨-, -, m, -, hy⟩ | ⟨-, -, hy⟩⟩ := PipeMachine.goOn_cases hstep
      · refine hset hy fun hnew => ?_
        obtain rfl := Option.some.inj hnew
        exact ih (t := t₀) hcur hcount
      · refine hset hy fun hnew => ?_
        obtain rfl := Option.some.inj hnew
        exact ih (t := t₀) hcur hcount
      · refine hset hy fun hnew => ?_
        cases hnew

/-- A call on a descriptor is controlled exactly under the condition; and in a run whose
calls meet it, every transfer under way that has bytes to move was begun by a call of its
process on a descriptor that the process held. -/
theorem pipe_access (x : PipeMachine) :
    (∀ side fd buffer count, x.current = none →
      (x.Controls side fd buffer count ↔ x.toKernel.Shielded side fd count)) ∧
    (piping.Reach (fun x b => b.Shielded x) x → ∀ p t, x.transfer p = some t → 0 < t.count →
      Granted (fun x b => b.Shielded x) p t) :=
  ⟨fun _ _ _ _ hcur => controls_iff hcur, fun hreach _ _ ht hcount => transfers_granted hreach ht hcount⟩

/-- The second of two processes, after the first one has created a pipe. -/
def outsider : PipeMachine :=
  PipeMachine.ran (fun _ _ => True) PipeMachine.initial
    ([create 100, plain .tick, create 200, newPipe, plain .tick].map .call)

theorem outsider_current : outsider.current = none := by
  have hnobody (p : ℕ) : outsider.transfer p = none := by
    unfold outsider
    exact PipeMachine.ran_calls (fun _ => rfl) p
  exact hnobody _

instance (x : PipeMachine) (b : PipeAction) : Decidable (b.Shielded x) := by
  unfold PipeAction.Shielded
  split <;> infer_instance

/-- A process writes to the pipe that it has created. -/
def insider : PipeMachine :=
  PipeMachine.ran (fun x b => b.Shielded x) PipeMachine.initial
    ([create 100, plain .tick, newPipe].map .call ++ [.pipeWrite 3 (fun i => i + 7) 1])

theorem pipe_access_insider :
    outsider.Controls .write 5 (fun i => i + 7) 1 ∧
      ∃ t, insider.transfer 101 = some t ∧ Granted (fun x b => b.Shielded x) 101 t := by
  constructor
  · exact ((pipe_access outsider).1 .write 5 _ 1 outsider_current).mpr (by decide +kernel)
  · have hreach : piping.Reach (fun x b => b.Shielded x) insider := PipeMachine.piping_ran (by decide +kernel)
    obtain ⟨t, ht⟩ : ∃ t, insider.transfer 101 = some t := Option.isSome_iff_exists.mp (by decide +kernel)
    have hcount : (insider.transfer 101).any (fun t => 0 < t.count) = true := by decide +kernel
    rw [ht] at hcount
    exact ⟨t, ht, (pipe_access insider).2 hreach 101 t ht (by simpa using hcount)⟩

theorem pipe_access_outsider : ∃ x y, piping.Reach (fun _ _ => True) x ∧ x.current = none ∧ ¬x.HasFd 3 ∧
    ¬x.Controls .write 3 (fun i => i + 7) 1 ∧
      piping.Emits (fun _ _ => True) PipeMachine.events x [.stored 500 7] y := by
  have hcur : outsider.current = none := outsider_current
  have hrun : (System.runList PipeMachine.step (fun _ _ => True) outsider
      [.pipeWrite 3 (fun i => i + 7) 1, goOn, goOn]).isSome = true := by
    decide +kernel
  have hes : System.emitted PipeMachine.step PipeMachine.events outsider
      [.pipeWrite 3 (fun i => i + 7) 1, goOn, goOn] = [.stored 500 7] := by
    decide +kernel
  refine ⟨outsider, _, PipeMachine.piping_ran (by decide +kernel), hcur, by decide +kernel, ?_,
    hes ▸ PipeMachine.emits_ran hrun⟩
  rw [controls_iff hcur]
  decide +kernel

end BareKernel
