import BareKernel.Kernel.Families
import BareKernel.Kernel.Inside

/-! How a process of the table stands from one step of the machine to the next: whether it
is still in the table, blocked or gone. A step changes that for the processes that its call
touches and for nobody else, and every process keeps its pid and its parent. -/

namespace BareKernel

open Function (update)
open Process Links

variable {k k' : Kernel} {c c' c₁ : Core} {m m' : Machine} {a : Action} {call : Call} {q : ℕ} {r : ℤ}
  {again : Bool}

/-- The call neither wakes nor blocks nor ends the process. -/
def Call.LeavesAlone (k : Kernel) (call : Call) (q : ℕ) : Prop := ¬call.wakes k q ∧ ¬call.halts k q ∧ ¬call.ends k q

instance (k : Kernel) (id : ℤ) : Decidable (k.WaitsAt id) := inferInstanceAs (Decidable (_ ∧ _ ∧ _))

instance (k : Kernel) (call : Call) (q : ℕ) : Decidable (call.halts k q) := by
  apply Call.casesOn (motive := fun call => Decidable (call.halts k q)) call <;>
    intros <;> dsimp only [Call.halts] <;> infer_instance

instance (k : Kernel) (call : Call) (q : ℕ) : Decidable (call.LeavesAlone k q) :=
  inferInstanceAs (Decidable (_ ∧ _ ∧ _))

/-- The process stays in the table, is blocked if it was, and has not ended. -/
structure Stands (c c' : Core) (q : ℕ) : Prop where
  inTable : InTable c q → InTable c' q
  blocked : c'.state q = .blocked ↔ c.state q = .blocked
  terminated : c'.state q = .terminated → c.state q = .terminated

theorem Stands.refl (c : Core) (q : ℕ) : Stands c c q := ⟨id, Iff.rfl, id⟩

theorem Stands.trans (h : Stands c c₁ q) (h' : Stands c₁ c' q) : Stands c c' q :=
  ⟨fun hq => h'.inTable (h.inTable hq), h'.blocked.trans h.blocked, fun hq => h.terminated (h'.terminated hq)⟩

/-- A process that was ready is neither blocked nor ended. -/
theorem Stands.of_ready (h : Stands c c' q) (hready : c.state q = .ready) :
    c'.state q ≠ .blocked ∧ c'.state q ≠ .terminated := by
  refine ⟨fun hs => ?_, fun hs => ?_⟩
  · rw [h.blocked, hready] at hs
    cases hs
  · have hended := h.terminated hs
    rw [hready] at hended
    cases hended

theorem scheduler_stands (h : KernelInv k) {sp sp' : StackPtr} (hrun : scheduler k.toCore sp = some (sp', c)) (q : ℕ) :
    Stands k.toCore c q := by
  obtain ⟨-, ⟨-, -, rfl⟩ | ⟨-, hs⟩⟩ := scheduler_call h hrun
  · exact .refl _ q
  · exact ⟨(inTable_congr hs.processesList).mpr, hs.blocked_iff, hs.terminated⟩

theorem quitCPU_stands (h : KernelInv k) (hrun : quitCPU k.toCore = some (r, c)) (q : ℕ) : Stands k.toCore c q := by
  rcases quitCPU_call h hrun with ⟨-, rfl⟩ | ⟨hcur, -, hdisp, -, -, hrunnable, hstate⟩
  · exact .refl _ q
  · -- one gives up the processor, and one that may run gets it
    have hboth : (c.state q = .blocked ↔ k.state q = .blocked) ∧
        (c.state q = .terminated → k.state q = .terminated) := by
      rw [hstate]
      rcases eq_or_ne q c.currentProcess with rfl | hq
      · rcases hrunnable with hr | hr <;> simp [hr]
      · rw [Function.update_of_ne hq]
        rcases eq_or_ne q k.currentProcess with rfl | hq'
        · simp [hcur]
        · rw [Function.update_of_ne hq']
          exact ⟨Iff.rfl, id⟩
    exact ⟨(inTable_congr hdisp.processesList).mpr, hboth.1, hboth.2⟩

theorem call_stands (h : KernelInv k) (hok : call.Orderly k) (hrun : k.call call = some (r, k', again))
    (hq : InTable k.toCore q) (hspare : call.LeavesAlone k q) : Stands k.toCore k'.toCore q := by
  by_cases hquit : call = .quitCPU
  · subst hquit
    obtain ⟨⟨v, c⟩, hcall, hret⟩ := Option.map_eq_some_iff.mp hrun
    obtain ⟨-, rfl, -⟩ : v = r ∧ _ = k' ∧ false = again := by simpa using hret
    exact quitCPU_stands h hcall q
  · obtain ⟨hwake, hhalt, hend⟩ := hspare
    obtain ⟨-, heff⟩ := call_effect h hok hquit hrun
    have hborn : ¬call.births k q := fun hborn => (heff.births q hborn).2.2 hq
    have hsame := heff.state q hend hborn hwake hhalt
    exact ⟨fun _ => (heff.inTable q).mpr (Or.inl ⟨hq, hend⟩), by rw [hsame], by rw [hsame]; exact id⟩

/-- A process that the call does not end stays in the table. -/
theorem call_keeps (h : KernelInv k) (hok : call.Orderly k) (hrun : k.call call = some (r, k', again))
    (hq : InTable k.toCore q) (hend : ¬call.ends k q) : InTable k'.toCore q := by
  by_cases hquit : call = .quitCPU
  · subst hquit
    exact (call_stands h hok hrun hq ⟨id, id, id⟩).inTable hq
  · obtain ⟨-, heff⟩ := call_effect h hok hquit hrun
    exact (heff.inTable q).mpr (Or.inl ⟨hq, hend⟩)

/-- A process of the table keeps its parent. -/
theorem TableStep.parentPid_eq (h : TableInv c) (hst : TableStep c call c') (hq : InTable c q) :
    c'.parentPid q = c.parentPid q := by
  cases call with
  | createProcess args =>
    rcases hst with ⟨hs, -⟩ | ⟨p, -, hfresh, hs⟩
    · rw [hs.parentPid]
    · have hqp : q ≠ p := by
        rintro rfl
        exact hfresh (h.records q hq)
      rw [hs.parentPid, (enroll_family (addRecord c p) p args.isForeground).2.1, Function.update_of_ne hqp]
      rfl
  | killProcess pid =>
    rcases hst.kill_cases h with ⟨hs, -⟩ | ⟨-, i, -, hend⟩
    · rw [hs.parentPid]
    · rw [hend.parentPid]
  | exitProcess =>
    rcases hst.exit_cases h with ⟨-, hs⟩ | ⟨i, -, hend⟩
    · rw [hs.parentPid]
    · rw [hend.parentPid]
  | _ => exact congrFun (SameTable.parentPid hst) q

namespace Machine

theorem step_parentPid_eq (h : TableInv m.toCore) (hrun : m.step a = some m') (hq : InTable m.toCore q) :
    m'.parentPid q = m.parentPid q := by
  have hparent := (step_table hrun).parentPid_eq h.supply hq
  exact hparent

/-- After its call a step changes nobody's standing. -/
theorem step_call (h : KernelInv m.toKernel) (hok : a.call.Orderly m.toKernel) (hrun : m.step a = some m') :
    ∃ r k again, (m.before a).call a.call = some (r, k, again) ∧ ∀ q, Stands k.toCore m'.toCore q := by
  obtain ⟨r, k, again, hcall, hcases⟩ := step_cases hrun
  refine ⟨r, k, again, hcall, fun q => ?_⟩
  rcases hcases with ⟨-, rfl⟩ | ⟨-, cpu, c, hsched, rfl⟩
  · exact .refl _ q
  · exact scheduler_stands (call_inv (h.supply a.answers) (orderly_before.mp hok) hcall) hsched q

theorem after_call (h : KernelInv m.toKernel) (hok : a.call.Orderly m.toKernel) (hrun : m.step a = some m')
    (hcall : (m.before a).call a.call = some (r, k, again)) (q : ℕ) : Stands k.toCore m'.toCore q := by
  obtain ⟨r', k', again', hcall', hafter⟩ := step_call h hok hrun
  obtain ⟨rfl, rfl, rfl⟩ : r = r' ∧ k = k' ∧ again = again' := by simpa using hcall.symm.trans hcall'
  exact hafter q

theorem step_stands (h : KernelInv m.toKernel) (hok : a.call.Orderly m.toKernel) (hrun : m.step a = some m')
    (hq : InTable m.toCore q) (hspare : a.call.LeavesAlone (m.before a) q) : Stands m.toCore m'.toCore q := by
  obtain ⟨r, k, again, hcall, hafter⟩ := step_call h hok hrun
  have hbefore : Stands (m.before a).toCore k.toCore q :=
    call_stands (h.supply a.answers) (orderly_before.mp hok) hcall hq hspare
  exact Stands.trans ⟨hbefore.inTable, hbefore.blocked, hbefore.terminated⟩ (hafter q)

theorem step_keeps (h : KernelInv m.toKernel) (hok : a.call.Orderly m.toKernel) (hrun : m.step a = some m')
    (hq : InTable m.toCore q) (hend : ¬a.call.ends (m.before a) q) : InTable m'.toCore q := by
  obtain ⟨r, k, again, hcall, hafter⟩ := step_call h hok hrun
  exact (hafter q).inTable (call_keeps (h.supply a.answers) (orderly_before.mp hok) hcall hq hend)

theorem nextPid_pos (h : ∃ i : ℕ, i < maxProcesses ∧ c.pids i = false) : 0 < nextPid c := by
  obtain ⟨i, hi, hfree⟩ := h
  unfold nextPid
  cases hf : (List.range maxProcesses).find? fun i : ℕ => c.pids i = false with
  | none => exact absurd hfree (by simpa using List.find?_eq_none.mp hf i (List.mem_range.mpr hi))
  | some j =>
    dsimp only
    omega

/-- A process that is created has the pid that its creator gets back, is a child of it, and
may run. -/
theorem step_creates (h : KernelInv m.toKernel) {args : CreateArgs} (hc : a.call = .createProcess args)
    (hslot : ∃ i < maxProcesses, m.processesList i = 0) (hcur : InTable m.toCore m.currentProcess)
    (hrun : m.step a = some m') (hcall : (m.before a).call a.call = some (r, k, again)) (hr : r ≠ -1) :
    r = nextPid m.toCore ∧ ∃ p, ¬InTable m.toCore p ∧ InTable m'.toCore p ∧ m'.pid p = r ∧
      m'.parentPid p = m.pid m.currentProcess ∧ m'.state p ≠ .blocked ∧ m'.state p ≠ .terminated := by
  have hok : a.call.Orderly m.toKernel := by rw [hc]; exact hslot
  have hafter := after_call h hok hrun hcall
  have htable := call_table hcall
  have hstep := step_table hrun
  rw [hc] at hcall htable hstep
  obtain ⟨⟨v, k₁⟩, hcreate, hret⟩ := Option.map_eq_some_iff.mp hcall
  obtain ⟨rfl, rfl, -⟩ : r = v ∧ k = k₁ ∧ again = false := by simpa using hret.symm
  obtain ⟨-, heff, -⟩ := createProcess_call (h.supply a.answers) hslot hcreate
  rcases createProcess_cases hcreate with ⟨hfail, -⟩ | ⟨p, answers, live, c, -, -, hnew, -, -, -, -, hpid⟩
  · exact absurd hfail hr
  · have hborn : NewRecord (m.before a).toCore p := by rw [hnew]
    obtain ⟨hready, -, hfresh⟩ := heff.births p hborn
    have hin : InTable m'.toCore p := (hafter p).inTable ((heff.inTable p).mpr (Or.inr hborn))
    -- the table behind the call and the one behind the step have the same new record
    obtain ⟨p₁, hp₁, -, hs₁⟩ := hstep.resolve_left fun hno => hno.2 p hborn
    obtain ⟨p₂, hp₂, -, hs₂⟩ := htable.resolve_left fun hno => hno.2 p hborn
    obtain rfl : p = p₁ := hborn.2.2.trans hp₁.2.2.symm
    obtain rfl : p = p₂ := hborn.2.2.trans hp₂.2.2.symm
    refine ⟨?_, p, hfresh, hin, ?_, ?_, (hafter p).of_ready hready⟩
    · rw [hpid, hs₂.pid, (enroll_family ..).1, Function.update_self]
      rfl
    · rw [hpid, hs₁.pid, hs₂.pid]
      rfl
    · have hne : (addRecord (m.supplied a) p).currentProcess ≠ p := fun he => hfresh (he ▸ hcur)
      rw [hs₁.parentPid, enroll_parentPid_of_ne hne]
      exact if_pos hcur.1

end Machine

end BareKernel
