import BareKernel.Kernel.Families
import BareKernel.Kernel.Inside
import BareKernel.Kernel.Steady

/-! Parents that wait. The end of a process wakes its parent when the parent lists no
other child and its `waiting_on_child` is `1`. The flag tells that the parent is blocked
inside `wait` only if nothing else has set it: every creation counts it up from whatever
the new record held, and waking a parent leaves it set. -/

namespace BareKernel

open Function (update)
open Process Links Machine

variable {k k' : Kernel} {c c' : Core} {m m' : Machine} {a : Action} {call : Call} {p q s : ℕ} {r : ℤ}
  {again : Bool}

/-! ### The flag -/

/-- The flags of all processes are the same. -/
def SameFlags (c c' : Core) : Prop := c'.waitingOnChild = c.waitingOnChild

theorem sameFlags_steady : Steady SameFlags where
  trans h h' := Eq.trans h' h
  ring h := congrArg Records.waitingOnChild h.records
  mark _ _ _ _ := rfl
  family _ _ _ _ := rfl
  memory _ _ _ _ := rfl
  store _ _ _ _ _ _ := rfl

theorem linkParent_flags (c : Core) (p : ℕ) : SameFlags c (linkParent c p) := by
  obtain ⟨parents, children, lengths, hlink⟩ := linkParent_eq c p
  rw [hlink]
  rfl

/-- A new record keeps what it held in the flag. -/
theorem enterProcess_flags {stackTop : ℕ} {args : CreateArgs} (h : enterProcess c p stackTop args = some c') :
    c'.waitingOnChild = update c.waitingOnChild p args.waiting := by
  obtain ⟨c₁, hcopy, h⟩ := Option.bind_eq_some_iff.mp h
  obtain ⟨c₂, hload, hadd⟩ := Option.bind_eq_some_iff.mp h
  have hcontext : c₁.waitingOnChild = update c.waitingOnChild p args.waiting := by
    obtain ⟨name, priorityName, answers, live, rfl, -⟩ := copyContext_some hcopy
    rw [assignPid_eq]
    rfl
  have hargs : SameFlags (linkParent c₁ p) c₂ := by
    obtain ⟨argv, answers, live, entries, rfl, -⟩ := loadArgs_some hload
    rfl
  have hring : SameFlags (addToProcessList c₂ p) c' := sameFlags_steady.ring (addToReadyList_edit hadd)
  obtain ⟨list, hlist⟩ := addToProcessList_eq c₂ p
  rw [hlist] at hring
  have hall : SameFlags c₁ c' := sameFlags_steady.trans (sameFlags_steady.trans (linkParent_flags c₁ p) hargs) hring
  exact Eq.trans hall hcontext

/-- A new process changes the flags of itself and its creator only. -/
theorem createProcess_flags {args : CreateArgs} (h : k.createProcess args = some (r, k'))
    (hborn : ¬NewRecord k.toCore q) (hcur : q ≠ k.currentProcess) : k'.waitingOnChild q = k.waitingOnChild q := by
  rcases createProcess_cases h with ⟨-, -, answers, live, rfl, -⟩ |
    ⟨p, answers, live, c, -, -, hnew, -, -, henter, rfl, -⟩
  · rfl
  · have hqp : q ≠ p := by
      rintro rfl
      rw [hnew] at hborn
      exact hborn rfl
    have hentered : c.waitingOnChild q = k.waitingOnChild q := by
      rw [enterProcess_flags henter]
      exact Function.update_of_ne hqp ..
    rw [← hentered]
    rcases openProcess_cases { k with toCore := c } k.currentProcess p with ⟨-, hopen⟩ | ⟨-, k₂, hpass, hopen⟩
    · rw [hopen]
    · have honly : PipesOnly { k with toCore := c, fdTable := update k.fdTable p fun _ => -1 } k₂ := by
        rw [← hpass]
        exact foldl_only (fun k₁ i => pipeAccses_only k₁ _ _) _ _
      have hsame : k₂.waitingOnChild = c.waitingOnChild := sameFlags_steady.pipes honly
      rw [hopen]
      exact (Function.update_of_ne hcur ..).trans (congrFun hsame q)

theorem wait_flags (h : k.wait = some (r, k', again)) :
    (again = false ∧ k' = k) ∨ again = true ∧ k'.waitingOnChild = update k.waitingOnChild k.currentProcess 1 := by
  rcases wait_cases h with ⟨rfl, rfl, -⟩ | ⟨rfl, -, v, c, hblock, rfl⟩
  · exact Or.inl ⟨rfl, rfl⟩
  · exact Or.inr ⟨rfl, sameFlags_steady.blockProcess hblock⟩

/-- Besides a new process, only a caller that creates a process or waits gets another flag. -/
theorem call_flags (h : k.call call = some (r, k', again)) (hq : call ≠ .quitCPU) (hborn : ¬call.births k q)
    (hcur : q ≠ k.currentProcess ∨ call.Edits) : k'.waitingOnChild q = k.waitingOnChild q := by
  cases call with
  | createProcess args =>
    obtain ⟨⟨v, k₁⟩, hcall, hret⟩ := Option.map_eq_some_iff.mp h
    obtain ⟨-, rfl, -⟩ : v = r ∧ k₁ = k' ∧ false = again := by simpa using hret
    exact createProcess_flags hcall hborn (hcur.resolve_right id)
  | quitCPU => exact absurd rfl hq
  | wait =>
    rcases wait_flags h with ⟨-, rfl⟩ | ⟨-, hset⟩
    · rfl
    · rw [hset, Function.update_of_ne (hcur.resolve_right id)]
  | _ => exact congrFun (sameFlags_steady.call h trivial) q

/-- The scheduler behind a call leaves the flags alone. -/
theorem step_flags (h : m.step a = some m') : ∃ r k again, (m.before a).call a.call = some (r, k, again) ∧
    m'.waitingOnChild = k.waitingOnChild := by
  obtain ⟨r, k, again, hcall, hcases⟩ := step_cases h
  refine ⟨r, k, again, hcall, ?_⟩
  rcases hcases with ⟨-, rfl⟩ | ⟨-, cpu, c, hsched, rfl⟩
  · rfl
  · obtain ⟨sps, states, counters, node, current, rfl⟩ := scheduler_eq hsched
    rfl

/-! ### Last children -/

/-- `p` is a child of `q`, and the table has no other. -/
structure LastChild (c : Core) (p q : ℕ) : Prop where
  child : c.parentPid p = c.pid q
  last : ∀ s, InTable c s → c.parentPid s = c.pid q → s = p

instance (c : Core) (p q : ℕ) : Decidable (LastChild c p q) :=
  decidable_of_iff (_ ∧ _) ⟨fun ⟨h1, h2⟩ => ⟨h1, h2⟩, fun ⟨h1, h2⟩ => ⟨h1, h2⟩⟩

/-- A parent lists nobody after the end of `p` exactly when `p` was its last child. -/
theorem removeChild_last (hinj : PidInv c) (hF : Families c) (hp : InTable c p) (hq : InTable c q) :
    (removeChild c q (c.pid p)).childrenLength q = 0 ↔ ∀ s, InTable c s → c.parentPid s = c.pid q → s = p := by
  have hrow := removeChild_row (hF q hq) (c.pid p)
  constructor
  · intro hlen s hs hpar
    by_contra hne
    have hmem : c.pid s ∈ childPids c q \ {c.pid p} :=
      ⟨⟨s, hs, hpar, rfl⟩, fun he => hne (hinj.inj s p hs hp he)⟩
    obtain ⟨j, hj, -⟩ := hrow.surjOn hmem
    rw [hlen] at hj
    exact Nat.not_lt_zero j hj
  · intro hlast
    by_contra hlen
    obtain ⟨⟨s, hs, hpar, hx⟩, hne⟩ := hrow.mapsTo (Set.mem_Iio.mpr (Nat.pos_of_ne_zero hlen))
    obtain rfl := hlast s hs hpar
    exact hne hx.symm

/-- With exact families the end of a process wakes a parent whose last child it is and
whose flag is `1`; a parent with pid `0` is not even looked up. -/
theorem wakesParent_iff (hinj : PidInv c) (hF : Families c) (hp : InTable c p) (hq : InTable c q) :
    WakesParent c p q ↔
      LastChild c p q ∧ 0 < c.pid q ∧ c.waitingOnChild q = 1 ∧ c.pid q ≠ 1 ∧ c.state q = .blocked := by
  have hget : q = getProcessByPid c (c.parentPid p) ↔ c.parentPid p = c.pid q := by
    constructor
    · intro he
      rcases getProcessByPid_spec c (c.parentPid p) with ⟨hnone, -⟩ | ⟨-, hpid⟩
      · exact absurd (he.trans hnone) hq.1
      · rw [he, hpid]
    · intro he
      rw [he, hinj.getProcessByPid hq]
  unfold WakesParent
  rw [hget, removeChild_last hinj hF hp hq]
  constructor
  · rintro ⟨hpos, hpar, hwait, hlast, h1, hs⟩
    exact ⟨⟨hpar, hlast⟩, hpar ▸ hpos, hwait, h1, hs⟩
  · rintro ⟨⟨hpar, hlast⟩, hpos, hwait, h1, hs⟩
    exact ⟨hpar ▸ hpos, hpar, hwait, hlast, h1, hs⟩

/-- No process of the table is its own parent. -/
def NoOwnParent (c : Core) : Prop := ∀ p, InTable c p → c.parentPid p ≠ c.pid p

theorem NoOwnParent.mono (h : NoOwnParent c) (hin : ∀ p, InTable c' p → InTable c p) (hpid : c'.pid = c.pid)
    (hparent : c'.parentPid = c.parentPid) : NoOwnParent c' := by
  intro p hp
  rw [hpid, hparent]
  exact h p (hin p hp)

theorem Process.SameTable.noOwnParent (hs : SameTable c c') (h : NoOwnParent c) : NoOwnParent c' :=
  h.mono (fun _ => hs.inTable.mp) hs.pid hs.parentPid

/-- A new process in a record that is not its creator's has another parent than itself. -/
theorem NoOwnParent.join (h : TableInv c) (hA : NoOwnParent c) (hp0 : p ≠ 0) (hfresh : p ∉ c.live .record)
    (hup : p ≠ c.currentProcess) (hJ : (∃ i < maxProcesses, c.processesList i = 0) → Joins c p) (v : ℤ) :
    NoOwnParent (enroll (addRecord c p) p v) := by
  have hnew : ¬InTable c p := fun hp => hfresh (h.records p hp)
  have hold (q : ℕ) (hq : InTable c q) :
      (enroll (addRecord c p) p v).parentPid q ≠ (enroll (addRecord c p) p v).pid q := by
    have hqp : q ≠ p := fun he => hnew (he ▸ hq)
    rw [(enroll_family (addRecord c p) p v).2.1, Function.update_of_ne hqp, enroll_pid_of_ne hqp]
    exact hA q hq
  intro q hq
  rcases enroll_slots (addRecord c p) p v with ⟨i, hi, hi0, hslot⟩ | ⟨-, hslot⟩
  · rcases (inTable_set (c := addRecord c p) hi hi0 hp0 hslot).mp hq with hqc | rfl
    · exact hold q hqc
    · have hfree : ∃ i < maxProcesses, c.processesList i = 0 := ⟨i, hi, hi0⟩
      have hparent : (enroll (addRecord c q) q v).parentPid q = creatorPid c :=
        enroll_parentPid_of_ne (c := addRecord c q) hup.symm
      rw [hparent, enroll_pid_self]
      by_cases hu : InTable c c.currentProcess
      · rw [creatorPid, if_pos hu.1]
        exact nextPid_fresh h hp0 hfresh hfree hu
      · exact ((hJ hfree).apart hu hup.symm).1
  · exact hold q ((inTable_congr hslot).mp hq)

theorem TableStep.noOwnParent (h : TableInv c) (hA : NoOwnParent c) (hst : TableStep c call c')
    (hok : call.KeepsFamilies c)
    (hself : ∀ args, call = .createProcess args → ∀ p, NewRecord c p → p ≠ c.currentProcess) :
    NoOwnParent c' := by
  cases call with
  | createProcess args =>
    rcases hst with ⟨hs, -⟩ | ⟨p, hp, hfresh, hs⟩
    · exact hs.noOwnParent hA
    · refine hs.noOwnParent (hA.join h hp.2.1 hfresh (hself args rfl p hp) (fun hfree => ?_) _)
      have hjoin := hok p hp
      rwa [if_pos hfree] at hjoin
  | killProcess pid =>
    rcases hst.kill_cases h with ⟨hs, -⟩ | ⟨-, i, -, hend⟩
    · exact hs.noOwnParent hA
    · exact hA.mono (fun q hq => ((hend.inTable q).mp hq).1) hend.pid hend.parentPid
  | exitProcess =>
    rcases hst.exit_cases h with ⟨-, hs⟩ | ⟨i, -, hend⟩
    · exact hs.noOwnParent hA
    · exact hA.mono (fun q hq => ((hend.inTable q).mp hq).1) hend.pid hend.parentPid
  | _ => exact SameTable.noOwnParent hst hA

/-! ### The law -/

/-- The step has made a blocked process of the table ready; the scheduler may have put it
on the processor at once. -/
def MadeReady (m m' : Machine) (q : ℕ) : Prop :=
  InTable m'.toCore q ∧ m.state q = .blocked ∧ (m'.state q = .ready ∨ m'.state q = .running)

instance (m m' : Machine) (q : ℕ) : Decidable (MadeReady m m' q) := inferInstanceAs (Decidable (_ ∧ _ ∧ _))

/-- What the end of a process does to the processes blocked inside `wait`, and to a
parent that is blocked inside something else. -/
structure WaitLaw (m : Machine) (a : Action) (m' : Machine) : Prop where
  waiters : ∀ p q, a.call.ends (m.before a) p → Inside m .child q → m.pid q ≠ 1 →
    (MadeReady m m' q ↔ LastChild m.toCore p q)
  others : ∀ p q, a.call.ends (m.before a) p → m.parentPid p = m.pid q →
    (∃ id, Inside m (.sem id) q) ∨ Inside m .sleep q → ¬MadeReady m m' q

/-- Nobody loses its last child inside `sem_wait` or `sys_sleep` with its flag set; the
flag of process `1`, and of one without a pid, does not matter. -/
def Action.SparesParents (m : Machine) (a : Action) : Prop :=
  ∀ p, InTable m.toCore p → a.call.ends (m.before a) p → ∀ q, InTable m.toCore q →
    m.why q ≠ none → m.why q ≠ some .child → LastChild m.toCore p q → m.waitingOnChild q = 1 → m.pid q ≤ 1

instance (m : Machine) (a : Action) : Decidable (a.SparesParents m) := by
  unfold Action.SparesParents
  infer_instance

/-- The steps under which the law holds. -/
def Action.KeepsWaits (m : Machine) (a : Action) : Prop :=
  a.call.Orderly m.toKernel ∧ a.call.KeepsFamilies (m.supplied a) ∧ a.SparesParents m ∧
  match a.call with
  | .createProcess _ => ¬Inside m .child m.currentProcess ∧ ∀ p, NewRecord (m.supplied a) p → p ≠ m.currentProcess
  | .wait => InTable m.toCore m.currentProcess → m.pid m.currentProcess ≠ 0
  | .quitCPU => False
  | _ => True

instance (m : Machine) (a : Action) : Decidable (a.KeepsWaits m) := by
  have hlast : Decidable (match a.call with
      | .createProcess _ => ¬Inside m .child m.currentProcess ∧ ∀ p, NewRecord (m.supplied a) p → p ≠ m.currentProcess
      | .wait => InTable m.toCore m.currentProcess → m.pid m.currentProcess ≠ 0
      | .quitCPU => False
      | _ => True) := by
    cases a.call <;> dsimp only <;> infer_instance
  unfold Action.KeepsWaits
  infer_instance

theorem Call.ends_unique (hp : call.ends k p) (hq : call.ends k q) : q = p := by
  cases call with
  | killProcess pid => exact hq.2.trans hp.2.symm
  | exitProcess => exact hq.2.trans hp.2.symm
  | _ => exact hp.elim

theorem Call.wakes_of_ends (hp : call.ends k p) : call.wakes k q ↔ WakesParent k.toCore p q := by
  cases call with
  | killProcess pid =>
    obtain ⟨hlow, rfl⟩ := hp
    exact and_iff_right hlow
  | exitProcess =>
    obtain ⟨hin, rfl⟩ := hp
    exact and_iff_right hin
  | _ => exact hp.elim

theorem Call.ends_inTable (hp : call.ends k p) : InTable k.toCore p := by
  cases call with
  | killProcess pid =>
    obtain ⟨⟨-, hin⟩, rfl⟩ := hp
    exact hin
  | exitProcess =>
    obtain ⟨hin, rfl⟩ := hp
    exact hin
  | _ => exact hp.elim

/-- A step makes ready those whom its call wakes and does not end. -/
theorem CallStep.madeReady_iff (h : CallStep m a m' r k again) (hin : InTable m.toCore q) (hb : m.state q = .blocked) :
    MadeReady m m' q ↔ a.call.wakes (m.before a) q ∧ ¬a.call.ends (m.before a) q := by
  have heff := h.effect
  have hborn : ¬a.call.births (m.before a) q := fun hborn => (heff.births q hborn).2.2 hin
  constructor
  · rintro ⟨hin', -, hs⟩
    obtain ⟨-, hgone⟩ := ((heff.inTable q).mp ((h.inTable q).mp hin')).resolve_right hborn
    refine ⟨by_contra fun hwake => ?_, hgone⟩
    have hhalt : ¬a.call.halts (m.before a) q := by
      intro hhalt
      have hrun := (heff.halts q hhalt).1
      rw [hb] at hrun
      simp at hrun
    have hblocked := (h.blocked q).mpr ((heff.state q hgone hborn hwake hhalt).trans hb)
    rw [hblocked] at hs
    simp at hs
  · rintro ⟨hwake, hgone⟩
    have hready := (heff.wakes q hgone hwake).2
    refine ⟨(h.inTable q).mpr ((heff.inTable q).mpr (Or.inl ⟨hin, hgone⟩)), hb, ?_⟩
    cases hs : m'.state q with
    | ready => exact Or.inl rfl
    | running => exact Or.inr rfl
    | blocked => rw [(h.blocked q).mp hs] at hready; cases hready
    | terminated => rw [h.terminated q hs] at hready; cases hready

/-- What holds as long as the law does. -/
structure WaitInv (m : Machine) : Prop where
  inv : KernelInv m.toKernel
  table : TableInv m.toCore
  families : Families m.toCore
  why : WhyBlocked m
  apart : NoOwnParent m.toCore
  flags : ∀ q, Inside m .child q → m.waitingOnChild q = 1 ∧ m.pid q ≠ 0

namespace WaitInv

/-- Who is woken by the end of a process. -/
theorem madeReady_iff (h : WaitInv m) (hs : CallStep m a m' r k again) (hp : a.call.ends (m.before a) p)
    (hin : InTable m.toCore q) (hb : m.state q = .blocked) :
    MadeReady m m' q ↔ LastChild m.toCore p q ∧ 1 < m.pid q ∧ m.waitingOnChild q = 1 := by
  have hp₀ : InTable m.toCore p := Call.ends_inTable hp
  have hiff : WakesParent (m.before a).toCore p q ↔ WakesParent m.toCore p q :=
    wakesParent_congr rfl rfl rfl rfl rfl rfl rfl
  rw [hs.madeReady_iff hin hb, Call.wakes_of_ends hp, hiff, wakesParent_iff h.table.pids h.families hp₀ hin]
  constructor
  · rintro ⟨⟨hlast, hpos, hwait, h1, -⟩, -⟩
    exact ⟨hlast, by omega, hwait⟩
  · rintro ⟨hlast, hpos, hwait⟩
    refine ⟨⟨hlast, by omega, hwait, by omega, hb⟩, fun hq => ?_⟩
    obtain rfl := Call.ends_unique hp hq
    exact h.apart q hin hlast.child

theorem law_iff (h : WaitInv m) (hs : CallStep m a m' r k again) : WaitLaw m a m' ↔ a.SparesParents m := by
  constructor
  · intro hlaw p hp hend q hq hne hnc hlast hwait
    by_contra hpid
    have hready := (h.madeReady_iff hs hend hq (h.why q hne)).mpr ⟨hlast, by omega, hwait⟩
    refine hlaw.others p q hend hlast.child ?_ hready
    cases hw : m.why q with
    | none => exact absurd hw hne
    | some ρ =>
      cases ρ with
      | sem id => exact Or.inl ⟨id, hq, hw⟩
      | sleep => exact Or.inr ⟨hq, hw⟩
      | child => exact absurd hw hnc
  · intro hok
    have hblocked {ρ : Reason} (q : ℕ) (hq : Inside m ρ q) : m.state q = .blocked := h.why q (by rw [hq.2]; simp)
    refine ⟨fun p q hend hq h1 => ?_, fun p q hend hpar hq hready => ?_⟩
    · obtain ⟨hwait, h0⟩ := h.flags q hq
      have hrange := (h.table.pids.range q hq.1).1
      rw [h.madeReady_iff hs hend hq.1 (hblocked q hq)]
      exact ⟨fun hr => hr.1, fun hlast => ⟨hlast, by omega, hwait⟩⟩
    · have hp := Call.ends_inTable hend
      have hwhy : InTable m.toCore q ∧ m.why q ≠ none ∧ m.why q ≠ some .child := by
        rcases hq with ⟨id, hin, hw⟩ | ⟨hin, hw⟩
        · exact ⟨hin, by rw [hw]; simp, by rw [hw]; simp⟩
        · exact ⟨hin, by rw [hw]; simp, by rw [hw]; simp⟩
      obtain ⟨hin, hne, hnc⟩ := hwhy
      obtain ⟨hlast, hpid, hwait⟩ := (h.madeReady_iff hs hend hin (h.why q hne)).mp hready
      have hle := hok p hp hend q hin hne hnc hlast hwait
      omega

/-! ### Runs -/

/-- A process that waits has `1` in its flag, and keeps it as long as it stays inside. -/
theorem step_flag (h : WaitInv m) (hok : a.KeepsWaits m) (hs : CallStep m a m' r k again)
    (hsame : m'.waitingOnChild = k.waitingOnChild) (hq : Inside m' .child q) :
    m'.waitingOnChild q = 1 ∧ m'.pid q ≠ 0 := by
  have hcall := hs.call
  obtain ⟨-, -, -, hcond⟩ := hok
  rw [hsame]
  rcases hs.inside_iff.mp hq with ⟨hin, -, -, hself⟩ | ⟨rfl, hreason, rfl, hin, -, -⟩
  · obtain ⟨hwait, hpid⟩ := h.flags q hin
    rw [hs.pid_eq hin.1]
    refine ⟨?_, hpid⟩
    rw [← hwait]
    have hborn : ¬a.call.births (m.before a) q := fun hborn => (hs.effect.births q hborn).2.2 hin.1
    have hkeep (hne : a.call ≠ .quitCPU) (hcur : q ≠ m.currentProcess ∨ a.call.Edits) :
        k.waitingOnChild q = m.waitingOnChild q := by
      have hflag := call_flags hcall hne hborn hcur
      exact hflag
    cases hc : a.call with
    | wait =>
      rw [hc] at hcall hself
      rcases wait_flags hcall with ⟨-, rfl⟩ | ⟨hagain, hset⟩
      · rfl
      · have hne : q ≠ m.currentProcess := fun he => hself ⟨hagain, he, by simp [Call.reason]⟩
        rw [hset]
        exact Function.update_of_ne hne ..
    | createProcess args =>
      rw [hc] at hcond
      have hne : q ≠ m.currentProcess := by
        rintro rfl
        exact hcond.1 hin
      exact hkeep (by rw [hc]; simp) (Or.inl hne)
    | quitCPU =>
      rw [hc] at hcond
      exact hcond.elim
    | _ =>
      refine hkeep (by rw [hc]; simp) (Or.inr ?_)
      rw [hc]
      trivial
  · rw [hs.pid_eq hin]
    cases hc : a.call with
    | wait =>
      rw [hc] at hcall hcond
      rcases wait_flags hcall with ⟨hno, -⟩ | ⟨-, hset⟩
      · cases hno
      · rw [hset]
        exact ⟨Function.update_self .., hcond hin⟩
    | _ =>
      rw [hc] at hreason
      cases hreason

theorem callStep (h : WaitInv m) (hok : a.call.Orderly m.toKernel) (hq : a.call ≠ .quitCPU)
    (hrun : m.step a = some m') :
    ∃ r k again, CallStep m a m' r k again ∧ m'.waitingOnChild = k.waitingOnChild := by
  obtain ⟨r, k, again, hs⟩ := exists_callStep h.inv h.why hok hq hrun
  obtain ⟨r', k', again', hcall, hsame⟩ := step_flags hrun
  obtain ⟨-, rfl, -⟩ : r = r' ∧ k = k' ∧ again = again' := by simpa using hs.call.symm.trans hcall
  exact ⟨r, k, again, hs, hsame⟩

end WaitInv

theorem Action.KeepsWaits.ne_quitCPU (h : a.KeepsWaits m) : a.call ≠ .quitCPU := by
  intro hc
  have hcond := h.2.2.2
  rw [hc] at hcond
  exact hcond

theorem WaitInv.step (h : WaitInv m) (hok : a.KeepsWaits m) (hrun : m.step a = some m') : WaitInv m' := by
  obtain ⟨r, k, again, hs, hsame⟩ := h.callStep hok.1 hok.ne_quitCPU hrun
  have htable := step_table hrun
  refine ⟨hs.inv, step_tableInv h.table hrun, ?_, hs.whyBlocked, ?_, fun q hq => h.step_flag hok hs hsame hq⟩
  · exact (TableStep.families h.table.supply h.families htable).mpr hok.2.1
  · refine TableStep.noOwnParent h.table.supply h.apart htable hok.2.1 fun args hc p hp => ?_
    have hcond := hok.2.2.2
    rw [hc] at hcond
    exact hcond.2 p hp

theorem boot_waitInv (h : Boot m) : WaitInv m := by
  have hnobody (p : ℕ) : ¬InTable m.toCore p := by
    rintro ⟨h0, i, -, rfl⟩
    exact h0 (h.processesList i)
  exact ⟨boot_inv h, boot_table h, boot_families h, fun p hp => absurd (h.why p) hp,
    fun p hp => absurd hp (hnobody p), fun q hq => absurd hq.1 (hnobody q)⟩

theorem boot_reach_waitInv (h : boot.Reach (fun m a => a.KeepsWaits m) m) : WaitInv m :=
  h.invariant (fun _ hm => boot_waitInv hm) fun _ _ _ => WaitInv.step

/-- In every run of such steps the law holds at every step; it holds at an orderly step
exactly when nobody loses its last child inside another call with the flag set. -/
theorem wait_law (h : boot.Reach (fun m a => a.KeepsWaits m) m) :
    (∀ a m', a.KeepsWaits m → m.step a = some m' → WaitLaw m a m') ∧
      ∀ a m', a.call.Orderly m.toKernel → a.call ≠ .quitCPU → m.step a = some m' →
        (WaitLaw m a m' ↔ a.SparesParents m) := by
  have hinv := boot_reach_waitInv h
  have hiff (a : Action) (m' : Machine) (hok : a.call.Orderly m.toKernel) (hq : a.call ≠ .quitCPU)
      (hrun : m.step a = some m') : WaitLaw m a m' ↔ a.SparesParents m := by
    obtain ⟨r, k, again, hs, -⟩ := hinv.callStep hok hq hrun
    exact hinv.law_iff hs
  exact ⟨fun a m' hok hrun => (hiff a m' hok.1 hok.ne_quitCPU hrun).mpr hok.2.2.1, hiff⟩

/-- The second process creates a third one and waits for it. -/
def waitingParent : List Action :=
  [create 100, plain .tick, create 200, plain .tick, create 300, plain .wait, plain .tick]

theorem wait_law_waitingParent :
    let m := ran (fun m a => a.KeepsWaits m) initial waitingParent
    (∀ a m', a.KeepsWaits m → m.step a = some m' → WaitLaw m a m') ∧
      ∀ a m', a.call.Orderly m.toKernel → a.call ≠ .quitCPU → m.step a = some m' →
        (WaitLaw m a m' ↔ a.SparesParents m) :=
  wait_law (boot_ran (by decide +kernel))

/-- The calls that create and end processes or block them, and ticks. -/
def Call.OfWait : Call → Prop
  | .createProcess _ | .wait | .killProcess _ | .exitProcess | .semWait _ | .semPost _ | .sysSleep _ | .tick => True
  | _ => False

instance (call : Call) : Decidable call.OfWait := by
  apply Call.casesOn (motive := fun call => Decidable call.OfWait) call <;>
    intros <;> dsimp only [Call.OfWait] <;> infer_instance

/-- The second process creates a third one, which counts its flag up from `0`, and
sleeps; it has never waited. -/
def sleepingParent : List Action :=
  [create 100, plain .tick, create 200, plain .tick, create 300, ⟨.sysSleep 100, 0, [900]⟩, plain .tick]

theorem wait_law_sleepingParent : ¬∀ m, boot.Reach (fun _ a => a.call.OfWait) m →
    ∀ a m', a.call.OfWait → m.step a = some m' → WaitLaw m a m' := by
  intro hall
  set m := ran (fun _ a => a.call.OfWait) initial sleepingParent with hm
  have hreach : boot.Reach (fun _ a => a.call.OfWait) m := boot_ran (by decide +kernel)
  set exits : Action := ⟨.exitProcess, 0, [901]⟩ with hexits
  have hstep : m.step exits = some ((m.step exits).getD m) := step_getD (by rw [hm]; decide +kernel)
  have hlaw := hall m hreach exits _ trivial hstep
  refine hlaw.others 301 201 ?_ ?_ (Or.inr ?_) ?_
  · rw [hm]; decide +kernel
  · rw [hm]; decide +kernel
  · rw [hm]; decide +kernel
  · rw [hm]; decide +kernel

end BareKernel
