import BareKernel.Kernel.Runnable

/-! Who is blocked inside which call. A process is blocked inside a call from the step
in which it makes the call until it is woken or ends. The process on the processor is
blocked inside nothing, provided that somebody else was ready whenever a process
blocked. -/

namespace BareKernel

open Function (update)
open Process Links Machine

variable {k k' : Kernel} {c c' : Core} {m m' : Machine} {a : Action} {call : Call} {ρ : Reason}
  {p q : ℕ} {r : ℤ} {again : Bool}

/-- A process of the table is blocked inside a call. -/
def Inside (m : Machine) (ρ : Reason) (p : ℕ) : Prop := InTable m.toCore p ∧ m.why p = some ρ

instance (m : Machine) (ρ : Reason) (p : ℕ) : Decidable (Inside m ρ p) := inferInstanceAs (Decidable (_ ∧ _))

theorem Inside.slot (h : Inside m ρ p) : ∃ i < maxProcesses, m.processesList i = p := h.1.2

/-- Only a blocked process is blocked inside a call. -/
def WhyBlocked (m : Machine) : Prop := ∀ p, m.why p ≠ none → m.state p = .blocked

/-- No process of the table has ended. -/
def Alive (c : Core) : Prop := ∀ p, InTable c p → c.state p ≠ .terminated

/-- The kernel as the call of an action finds it. -/
def Machine.before (m : Machine) (a : Action) : Kernel := { m.toKernel with answers := a.answers }

/-- Somebody else in the table is ready. -/
def OtherReady (c : Core) : Prop :=
  ∃ i < maxProcesses, c.processesList i ≠ 0 ∧ c.processesList i ≠ c.currentProcess ∧
    c.state (c.processesList i) = .ready

instance (c : Core) : Decidable (OtherReady c) := inferInstanceAs (Decidable (∃ i < maxProcesses, _))

theorem orderly_before : a.call.Orderly m.toKernel ↔ a.call.Orderly (m.before a) := by
  cases hc : a.call <;> rfl

/-- The machine after a call that left `k`, and after the scheduler if it was called. -/
structure Follows (k : Kernel) (again : Bool) (m' : Machine) : Prop where
  kernel : m'.toKernel = { k with toCore := m'.toCore }
  inv : KernelInv m'.toKernel
  quiet : again = false → m'.toCore = k.toCore
  inTable : ∀ q, InTable m'.toCore q ↔ InTable k.toCore q
  pid : m'.pid = k.pid
  blocked : ∀ q, m'.state q = .blocked ↔ k.state q = .blocked
  terminated : ∀ q, m'.state q = .terminated → k.state q = .terminated
  current : (m'.currentProcess = k.currentProcess ∧ (again = true → k.readyList = 0)) ∨
    m'.state m'.currentProcess = .running

/-- An orderly step: the call, which left `k`, and what follows it. -/
structure CallStep (m : Machine) (a : Action) (m' : Machine) (r : ℤ) (k : Kernel) (again : Bool) : Prop
    extends Follows k again m' where
  blockedBefore : WhyBlocked m
  before : KernelInv m.toKernel
  call : (m.before a).call a.call = some (r, k, again)
  effect : Effect m.toCore k.toCore (a.call.wakes (m.before a)) (a.call.halts (m.before a))
    (a.call.ends (m.before a)) (a.call.births (m.before a))
  why : m'.why = (m.after a k again).why

/-- Every step with an orderly call other than `quitCPU` is one. -/
theorem exists_callStep (h : KernelInv m.toKernel) (hw : WhyBlocked m) (hok : a.call.Orderly m.toKernel)
    (hq : a.call ≠ .quitCPU) (hrun : m.step a = some m') : ∃ r k again, CallStep m a m' r k again := by
  obtain ⟨r, k, again, hcall, hcases⟩ := step_cases hrun
  obtain ⟨hk, heff₀⟩ := call_effect (h.supply a.answers) (orderly_before.mp hok) hq hcall
  have heff : Effect m.toCore k.toCore (a.call.wakes (m.before a)) (a.call.halts (m.before a))
      (a.call.ends (m.before a)) (a.call.births (m.before a)) :=
    ⟨heff₀.currentProcess, heff₀.inTable, heff₀.pid, heff₀.stackPointer, heff₀.ends, heff₀.births,
      heff₀.wakes, heff₀.halts, heff₀.state⟩
  rcases hcases with ⟨rfl, rfl⟩ | ⟨rfl, sp, c, hsched, rfl⟩
  · exact ⟨r, k, false, ⟨rfl, hk, fun _ => rfl, fun _ => Iff.rfl, rfl, fun _ => Iff.rfl,
      fun _ => id, Or.inl ⟨rfl, nofun⟩⟩,
      hw, h, hcall, heff, rfl⟩
  · obtain ⟨hinv, ⟨hempty, rfl, rfl⟩ | ⟨hne, hs⟩⟩ := scheduler_call hk hsched
    · exact ⟨r, k, true, ⟨rfl, hinv, fun _ => rfl, fun _ => Iff.rfl, rfl, fun _ => Iff.rfl,
        fun _ => id, Or.inl ⟨rfl, fun _ => hempty⟩⟩, hw, h, hcall, heff, rfl⟩
    · exact ⟨r, k, true, ⟨rfl, hinv, nofun, fun q => inTable_congr hs.processesList, hs.pid,
        fun q => hs.blocked_iff, fun q => hs.terminated, Or.inr hs.running⟩, hw, h, hcall, heff, rfl⟩

namespace CallStep

theorem why_eq (h : CallStep m a m' r k again) (p : ℕ) :
    m'.why p = if k.state p ≠ .blocked then none
      else if again = true ∧ p = m.currentProcess ∧ a.call.reason ≠ none then a.call.reason else m.why p :=
  congrFun h.why p

theorem whyBlocked (h : CallStep m a m' r k again) : WhyBlocked m' := by
  intro p hp
  rw [h.blocked p]
  by_contra hs
  rw [h.why_eq, if_pos hs] at hp
  exact hp rfl

theorem alive (h : CallStep m a m' r k again) (halive : Alive m.toCore) : Alive m'.toCore := by
  intro p hp hend
  have heff := h.effect
  have hstate := h.terminated p hend
  by_cases hborn : a.call.births (m.before a) p
  · rw [(heff.births p hborn).1] at hstate
    cases hstate
  · obtain ⟨hin, hgone⟩ := ((heff.inTable p).mp ((h.inTable p).mp hp)).resolve_right hborn
    by_cases hwake : a.call.wakes (m.before a) p
    · rw [(heff.wakes p hgone hwake).2] at hstate
      cases hstate
    · by_cases hhalt : a.call.halts (m.before a) p
      · rw [(heff.halts p hhalt).2] at hstate
        cases hstate
      · rw [heff.state p hgone hborn hwake hhalt] at hstate
        exact halive p hin hstate

/-- A process that stays keeps its pid. -/
theorem pid_eq (h : CallStep m a m' r k again) (hp : InTable m.toCore p) : m'.pid p = m.pid p := by
  rw [h.pid]
  exact h.effect.pid p fun hborn => (h.effect.births p hborn).2.2 hp

/-- Who is blocked inside a call after a step: those who were and are neither woken nor
ended, and the caller if this is what it called. -/
theorem inside_iff (h : CallStep m a m' r k again) :
    Inside m' ρ p ↔
      (Inside m ρ p ∧ ¬a.call.wakes (m.before a) p ∧ ¬a.call.ends (m.before a) p ∧
        ¬(again = true ∧ p = m.currentProcess ∧ a.call.reason ≠ none)) ∨
      again = true ∧ a.call.reason = some ρ ∧ p = m.currentProcess ∧ InTable m.toCore p ∧
        ¬a.call.ends (m.before a) p ∧ k.state p = .blocked := by
  have heff := h.effect
  unfold Inside
  rw [h.inTable, h.why_eq]
  constructor
  · rintro ⟨hin, hwhy⟩
    have hb : k.state p = .blocked := by
      by_contra hs
      rw [if_pos hs] at hwhy
      cases hwhy
    rw [if_neg (not_not.mpr hb)] at hwhy
    have hborn : ¬a.call.births (m.before a) p := by
      intro hbirth
      have hready := (heff.births p hbirth).1
      rw [hb] at hready
      cases hready
    obtain ⟨hin, hgone⟩ := ((heff.inTable p).mp hin).resolve_right hborn
    by_cases hself : again = true ∧ p = m.currentProcess ∧ a.call.reason ≠ none
    · rw [if_pos hself] at hwhy
      exact Or.inr ⟨hself.1, hwhy, hself.2.1, hin, hgone, hb⟩
    · rw [if_neg hself] at hwhy
      refine Or.inl ⟨⟨hin, hwhy⟩, fun hwake => ?_, hgone, hself⟩
      have hready := (heff.wakes p hgone hwake).2
      rw [hb] at hready
      cases hready
  · rintro (⟨⟨hin, hwhy⟩, hwake, hgone, hself⟩ | ⟨hagain, hreason, hcur, hin, hgone, hb⟩)
    · have hblocked : m.state p = .blocked := h.blockedBefore p (by rw [hwhy]; simp)
      have hborn : ¬a.call.births (m.before a) p := fun hbirth => (heff.births p hbirth).2.2 hin
      have hhalt : ¬a.call.halts (m.before a) p := by
        intro hhalt
        have hrun := (heff.halts p hhalt).1
        rw [hblocked] at hrun
        simp at hrun
      have hb : k.state p = .blocked := (heff.state p hgone hborn hwake hhalt).trans hblocked
      rw [if_neg (not_not.mpr hb), if_neg hself]
      exact ⟨(heff.inTable p).mpr (Or.inl ⟨hin, hgone⟩), hwhy⟩
    · have hself : again = true ∧ p = m.currentProcess ∧ a.call.reason ≠ none :=
        ⟨hagain, hcur, by rw [hreason]; simp⟩
      rw [if_neg (not_not.mpr hb), if_pos hself]
      exact ⟨(heff.inTable p).mpr (Or.inl ⟨hin, hgone⟩), hreason⟩

/-- A step that leaves those inside a call alone. -/
theorem inside_stay (h : CallStep m a m' r k again) (hout : ¬Inside m ρ m.currentProcess)
    (hkeep : ∀ p, Inside m ρ p → ¬a.call.wakes (m.before a) p ∧ ¬a.call.ends (m.before a) p)
    (hreason : again = true → a.call.reason ≠ some ρ) : Inside m' ρ p ↔ Inside m ρ p := by
  rw [h.inside_iff]
  constructor
  · rintro (⟨hin, -⟩ | ⟨hagain, heq, -⟩)
    · exact hin
    · exact absurd heq (hreason hagain)
  · intro hin
    refine Or.inl ⟨hin, (hkeep p hin).1, (hkeep p hin).2, ?_⟩
    rintro ⟨-, rfl, -⟩
    exact hout hin

end CallStep

/-- A call that can block its caller wakes and ends nobody. -/
theorem Call.quiet_of_reason (h : call.reason ≠ none) : ¬call.wakes k q ∧ ¬call.ends k q ∧ ¬call.births k q := by
  cases call with
  | wait => exact ⟨fun hw => hw, fun he => he, fun hb => hb⟩
  | semWait id => exact ⟨fun hw => hw, fun he => he, fun hb => hb⟩
  | sysSleep n => exact ⟨fun hw => hw, fun he => he, fun hb => hb⟩
  | _ => exact absurd rfl h

/-- A call that can block its caller leaves somebody else ready. -/
theorem call_otherReady (h : KernelInv k) (hin : InTable k.toCore k.currentProcess)
    (hother : OtherReady k.toCore) (hreason : call.reason ≠ none)
    (hcall : k.call call = some (r, k', again)) : k'.readyList ≠ 0 := by
  have hok : call.Orderly k := by
    cases call <;> trivial
  have hq : call ≠ .quitCPU := by
    rintro rfl
    exact hreason rfl
  obtain ⟨hk, heff⟩ := call_effect h hok hq hcall
  obtain ⟨i, hi, h0, hne, hready⟩ := hother
  set p := k.processesList i with hp
  have hp' : InTable k.toCore p := ⟨h0, i, hi, rfl⟩
  obtain ⟨hwake, hgone, hborn⟩ : ¬call.wakes k p ∧ ¬call.ends k p ∧ ¬call.births k p :=
    Call.quiet_of_reason hreason
  have hself : ¬Blocks k.toCore (k.pid k.currentProcess) p := by
    rintro ⟨he, -⟩
    rw [h.pids.getProcessByPid hin] at he
    exact hne he
  have hhalt : ¬call.halts k p := by
    cases call <;> first | exact absurd rfl hreason | exact fun hh => hself hh.2
  refine hk.ring_iff.mpr ⟨p, (heff.inTable p).mpr (Or.inl ⟨hp', hgone⟩), Or.inl ?_⟩
  rw [heff.state p hgone hborn hwake hhalt]
  exact hready

/-- The process on the processor stays outside the call when it calls it only with
somebody else ready. -/
theorem CallStep.outside (h : CallStep m a m' r k again) (hout : ¬Inside m ρ m.currentProcess)
    (hready : again = true → a.call.reason = some ρ → InTable m.toCore m.currentProcess ∧ OtherReady m.toCore) :
    ¬Inside m' ρ m'.currentProcess := by
  rcases h.current with ⟨hsame, hempty⟩ | hrun
  · have hcur : m'.currentProcess = m.currentProcess := hsame.trans h.effect.currentProcess
    rw [hcur, h.inside_iff]
    rintro (⟨hin, -⟩ | ⟨hagain, hreason, -⟩)
    · exact hout hin
    · obtain ⟨hin, hother⟩ := hready hagain hreason
      have hne : (m.before a).call a.call = some (r, k, again) → k.readyList ≠ 0 :=
        call_otherReady (h.before.supply a.answers) hin hother (by rw [hreason]; simp)
      exact hne h.call (hempty hagain)
  · rintro ⟨-, hwhy⟩
    have hblocked := h.whyBlocked _ (by rw [hwhy]; simp)
    rw [hrun] at hblocked
    cases hblocked

/-- A call that blocks its caller takes the caller inside. -/
theorem CallStep.inside_self (h : CallStep m a m' r k again) (halive : Alive m.toCore)
    (hin : InTable m.toCore m.currentProcess) (hout : ¬Inside m ρ m.currentProcess) (hagain : again = true)
    (hreason : a.call.reason = some ρ)
    (hhalts : ∀ q, Blocks (m.before a).toCore (m.pid m.currentProcess) q → a.call.halts (m.before a) q) :
    Inside m' ρ p ↔ Inside m ρ p ∨ p = m.currentProcess := by
  have hne : a.call.reason ≠ none := by rw [hreason]; simp
  have hquiet (q : ℕ) := Call.quiet_of_reason (k := m.before a) (q := q) hne
  have hb : k.state m.currentProcess = .blocked := by
    by_cases hhalt : a.call.halts (m.before a) m.currentProcess
    · exact (h.effect.halts _ hhalt).2
    · obtain ⟨hwake, hgone, hborn⟩ := hquiet m.currentProcess
      rw [h.effect.state _ hgone hborn hwake hhalt]
      have hself : m.currentProcess = getProcessByPid (m.before a).toCore (m.pid m.currentProcess) :=
        ((getProcessByPid_congr rfl rfl).trans (h.before.pids.getProcessByPid hin)).symm
      have hnot : ¬(m.state m.currentProcess = .ready ∨ m.state m.currentProcess = .running) :=
        fun hrun => hhalt (hhalts _ ⟨hself, hrun⟩)
      have hlive := halive _ hin
      cases hstate : m.state m.currentProcess <;> simp [hstate] at hnot hlive ⊢
  rw [h.inside_iff]
  constructor
  · rintro (⟨hp, -⟩ | ⟨-, -, hp, -⟩)
    · exact Or.inl hp
    · exact Or.inr hp
  · rintro (hp | rfl)
    · obtain ⟨hwake, hgone, -⟩ := hquiet p
      refine Or.inl ⟨hp, hwake, hgone, ?_⟩
      rintro ⟨-, rfl, -⟩
      exact hout hp
    · exact Or.inr ⟨hagain, hreason, rfl, hin, (hquiet _).2.1, hb⟩

end BareKernel
