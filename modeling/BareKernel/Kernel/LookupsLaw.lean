import BareKernel.Kernel.AnyRun
import BareKernel.Kernel.Lookups
import BareKernel.Kernel.PipeTable

/-! When every lookup that is followed has a result. Once a process has been dispatched
`current_process` is never `NULL` again; that somebody is in the foreground, that a pid
belongs to somebody, and that a new process got a slot are left to luck. -/

namespace BareKernel

open Function (update)
open Process Links Machine

variable {k k' : Kernel} {c c' : Core} {m m' : Machine} {x y : UserMachine} {a : Action} {call : Call} {b : UserAction}
  {L : List ℕ} {p q parent process : ℕ} {pid r v : ℤ} {again : Bool} {sp sp' : StackPtr} {args : CreateArgs}

/-! ### The conditions -/

namespace Kernel

/-- The process on the processor has something to hand down to a new one. -/
def HoldsFd (k : Kernel) : Prop :=
  k.currentProcess ≠ 0 ∧ ∃ i ∈ List.range (maxBuff * 2), ValidSlot (k.fdTable k.currentProcess i)

instance (k : Kernel) : Decidable k.HoldsFd := inferInstanceAs (Decidable (_ ∧ _))

/-- The table has a free slot, or somebody already has the pid that is next. -/
def FindsNext (k : Kernel) : Prop :=
  (∃ i < maxProcesses, k.processesList i = 0) ∨ ∃ q, InTable k.toCore q ∧ k.pid q = nextPid k.toCore

/-- The lookups of the call have results. -/
def Finds (k : Kernel) : Call → Prop
  | .createProcess args => ∀ q, NewRecord k.toCore q → (∃ p, Foreground k.toCore p) ∧
      ((k.createProcess args).isSome = true → k.currentProcess ≠ q → k.HoldsFd → k.FindsNext)
  | .exitProcess | .wait | .quitCPU => k.currentProcess ≠ 0
  | .semWait id => 0 ≤ id ∧ id < semMax → k.currentProcess ≠ 0
  | .createPipe => k.GetsPair → k.currentProcess ≠ 0
  | .pipeClose fd => ValidSlot fd → k.currentProcess ≠ 0
  | .blockProcess _ | .unblockProcess _ | .killProcess _ | .semOpen _ _ | .semClose _ | .semPost _ | .tick
  | .callScheduler | .sysSleep _ => True

end Kernel

/-- The scheduler behind a call is called with the ring empty or with a process that has
been dispatched. -/
def Action.Finds (m : Machine) (a : Action) : Prop :=
  (m.before a).Finds a.call ∧ ∀ r, (m.before a).call a.call = some r → r.2.2 = true → r.2.1.readyList ≠ 0 →
    m.currentProcess ≠ 0

/-- The lookups of an action have results. -/
def UserAction.Finds (x : UserMachine) : UserAction → Prop
  | .call a => a.Finds x.toMachine
  | .getPid => x.currentProcess ≠ 0
  | .sysGetForeground => ∃ p, Foreground x.toCore p
  | .sysRead fd _ => fd = stdIn ∨ x.AsksCaller .read fd → x.currentProcess ≠ 0
  | .sysWrite fd _ _ => (fd = stdOut ∨ fd = stdErr) ∨ 3 ≤ fd ∧ x.AsksCaller .write fd → x.currentProcess ≠ 0
  | .sysChangeStd pid std _ => std = stdIn ∨ std = stdOut → ∃ p, InTable x.toCore p ∧ x.pid p = pid
  | .key scancode isPressed _ offset answers => ∀ a, x.keyKill scancode isPressed offset answers = some a →
      (∃ p, Foreground x.toCore p) ∧ a.Finds x.toMachine
  | .goOn offset answers => ∀ a, x.nextWait offset answers = some a → a.Finds x.toMachine

/-! ### The table -/

theorem getProcessByPid_ne_zero : getProcessByPid c pid ≠ 0 ↔ ∃ p, InTable c p ∧ c.pid p = pid := by
  rcases getProcessByPid_spec c pid with ⟨hzero, hnone⟩ | ⟨hin, hpid⟩
  · refine iff_of_false (not_not.mpr hzero) ?_
    rintro ⟨p, hp, hpid⟩
    exact hnone p hp hpid
  · exact iff_of_true hin.1 ⟨_, hin, hpid⟩

theorem getForegroundProcess_ne_zero : getForegroundProcess c ≠ 0 ↔ ∃ p, Foreground c p := by
  unfold getForegroundProcess
  split
  · rename_i hnone
    refine iff_of_false (not_not.mpr rfl) ?_
    rintro ⟨p, ⟨h0, i, hi, rfl⟩, hflag⟩
    have hnot := List.find?_eq_none.mp hnone i (List.mem_range.mpr hi)
    simp [h0, hflag] at hnot
  · rename_i i hsome
    have hi := List.mem_range.mp (List.mem_of_find?_eq_some hsome)
    have hflag := List.find?_some hsome
    simp only [ne_eq, decide_eq_true_eq] at hflag
    exact iff_of_true hflag.1 ⟨_, inTable_slot hi hflag.1, hflag.2⟩

/-- The flag of a process that is not in the table does not matter. -/
theorem foreground_update (hnew : ¬InTable c p) :
    (∃ q, Foreground { c with isForeground := update c.isForeground p v } q) ↔ ∃ q, Foreground c q := by
  refine exists_congr fun q => and_congr_right fun hq => ?_
  have hqp : q ≠ p := fun he => hnew (he ▸ hq)
  show update c.isForeground p v q ≠ 0 ↔ c.isForeground q ≠ 0
  rw [Function.update_of_ne hqp]

theorem mem_currentIf {far : Prop} [Decidable far] :
    (∀ p ∈ k.currentIf far, p ≠ 0) ↔ (far → k.currentProcess ≠ 0) := by
  unfold Kernel.currentIf
  split
  · rename_i hfar
    simp [hfar]
  · rename_i hfar
    simp [hfar]

/-! ### Descriptors that are handed down -/

theorem mem_inheritLookups {is : List ℕ} (h : p ∈ Kernel.inheritLookups parent process is k) :
    p = getProcessByPid k.toCore (k.pid process) := by
  induction is generalizing k with
  | nil => cases h
  | cons i is ih =>
    rcases List.mem_append.mp h with h | h
    · unfold Kernel.accsesLookups at h
      split at h
      · exact List.mem_singleton.mp h
      · cases h
    · have hcore := pipeAccses_toCore k (k.pid process) (k.fdTable parent i)
      rw [ih h, hcore]

/-- The row of a process other than the one that is looked up stays. -/
theorem pipeAccses_row {fd : ℤ} (h : getProcessByPid k.toCore pid ≠ parent) :
    (k.pipeAccses pid fd).2.fdTable parent = k.fdTable parent := by
  rcases pipeAccses_cases k pid fd with hsame | ⟨-, i, rest, -, hset⟩
  · rw [hsame]
  · rw [hset]
    exact Function.update_of_ne h.symm ..

theorem inheritLookups_nil {is : List ℕ} (h : getProcessByPid k.toCore (k.pid process) ≠ parent) :
    Kernel.inheritLookups parent process is k = [] ↔ ∀ i ∈ is, ¬Kernel.ValidSlot (k.fdTable parent i) := by
  induction is generalizing k with
  | nil => exact iff_of_true rfl fun i hi => absurd hi List.not_mem_nil
  | cons i is ih =>
    have hcore := pipeAccses_toCore k (k.pid process) (k.fdTable parent i)
    have hrow : (k.pipeAccses (k.pid process) (k.fdTable parent i)).2.fdTable parent = k.fdTable parent :=
      pipeAccses_row h
    rw [Kernel.inheritLookups, List.append_eq_nil_iff, ih (by rw [hcore]; exact h), hrow, List.forall_mem_cons]
    refine and_congr_left fun _ => ?_
    unfold Kernel.accsesLookups
    split
    · rename_i hvalid
      exact iff_of_false (List.cons_ne_nil _ _) (not_not.mpr hvalid)
    · rename_i hvalid
      exact iff_of_true rfl hvalid

theorem openLookups_iff : (∀ q ∈ k.openLookups parent process, q ≠ 0) ↔
    (parent ≠ process → (parent ≠ 0 ∧ ∃ i ∈ List.range (maxBuff * 2), Kernel.ValidSlot (k.fdTable parent i)) →
      getProcessByPid k.toCore (k.pid process) ≠ 0) := by
  by_cases hfound : getProcessByPid k.toCore (k.pid process) = 0
  · unfold Kernel.openLookups
    by_cases hpar : parent = 0
    · simp [hpar]
    rw [if_pos hpar]
    set k₀ : Kernel := { k with fdTable := update k.fdTable process fun _ => -1 }
    have hmem : ∀ q ∈ Kernel.inheritLookups parent process (List.range (maxBuff * 2)) k₀, q = 0 :=
      fun q hq => (mem_inheritLookups hq).trans hfound
    have hall : (∀ q ∈ Kernel.inheritLookups parent process (List.range (maxBuff * 2)) k₀, q ≠ 0) ↔
        Kernel.inheritLookups parent process (List.range (maxBuff * 2)) k₀ = [] := by
      rw [List.eq_nil_iff_forall_not_mem]
      exact forall_congr' fun q => ⟨fun h hq => h hq (hmem q hq), fun h hq => (h hq).elim⟩
    have hne : getProcessByPid k₀.toCore (k₀.pid process) ≠ parent := fun he => hpar (he.symm.trans hfound)
    rw [hall, inheritLookups_nil hne]
    by_cases hself : parent = process
    · have hrow : k₀.fdTable parent = fun _ => -1 := by
        rw [hself]
        exact Function.update_self ..
      rw [hrow]
      exact iff_of_true (fun _ _ hvalid => absurd hvalid.1 (by simp)) fun hno => absurd hself hno
    · have hrow : k₀.fdTable parent = k.fdTable parent := Function.update_of_ne hself ..
      rw [hrow]
      constructor
      · rintro hnone - ⟨-, i, hi, hvalid⟩
        exact absurd hvalid (hnone i hi)
      · intro hno i hi hvalid
        exact hno hself ⟨hpar, i, hi, hvalid⟩ hfound
  · refine iff_of_true (fun q hq => ?_) fun _ _ => hfound
    unfold Kernel.openLookups at hq
    split at hq
    · rw [mem_inheritLookups hq]
      exact hfound
    · cases hq

/-! ### A new process -/

theorem createLookups_none (hno : ∀ q, ¬NewRecord k.toCore q) : k.createLookups args = [] := by
  unfold Kernel.createLookups
  dsimp only
  split
  · rfl
  · rename_i hs
    split
    · rfl
    · rename_i hr
      exact absurd ⟨hs, hr, rfl⟩ (hno _)

theorem createLookups_record (hp : NewRecord k.toCore p) : k.createLookups args =
    getForegroundProcess { (mmMalloc (mmMalloc k.toCore .stack).2 .record).2 with
      isForeground := update k.isForeground p args.isForeground } ::
      (enterProcess (mmMalloc (mmMalloc k.toCore .stack).2 .record).2 p (mmMalloc k.toCore .stack).1 args).elim []
        fun c => { k with toCore := c }.openLookups k.currentProcess p := by
  obtain ⟨-, answers, live, hmem, -⟩ := newRecord_memory hp
  have hflags : (mmMalloc (mmMalloc k.toCore .stack).2 .record).2.isForeground = k.isForeground := by rw [hmem]
  obtain ⟨hs, h0, rfl⟩ := hp
  simp only [Kernel.createLookups, hs, h0, if_false, hflags]

/-- A new process is found under its pid. -/
theorem enroll_found (hp0 : p ≠ 0) (hnew : ¬InTable c p) :
    getProcessByPid (enroll c p v) ((enroll c p v).pid p) ≠ 0 ↔
      (∃ i < maxProcesses, c.processesList i = 0) ∨ ∃ q, InTable c q ∧ c.pid q = nextPid c := by
  rw [getProcessByPid_ne_zero]
  have hother (q : ℕ) (hq : InTable c q) : (enroll c p v).pid q = c.pid q :=
    enroll_pid_of_ne fun he => hnew (he ▸ hq)
  rcases enroll_slots c p v with ⟨i, hi, hfree, hslot⟩ | ⟨hfull, hslot⟩
  · exact iff_of_true ⟨p, (inTable_set hi hfree hp0 hslot).mpr (Or.inr rfl), rfl⟩ (Or.inl ⟨i, hi, hfree⟩)
  · have hin (q : ℕ) : InTable (enroll c p v) q ↔ InTable c q := inTable_congr hslot
    rw [or_iff_right fun ⟨i, hi, hfree⟩ => hfull i hi hfree, enroll_pid_self]
    refine exists_congr fun q => ?_
    rw [hin]
    exact and_congr_right fun hq => by rw [hother q hq]

theorem createLookups_iff (h : TableInv k.toCore) :
    (∀ q ∈ k.createLookups args, q ≠ 0) ↔ k.Finds (.createProcess args) := by
  by_cases hex : ∃ p, NewRecord k.toCore p
  · obtain ⟨p, hp⟩ := hex
    obtain ⟨hfresh, answers, live, hmem, hrec, hlive⟩ := newRecord_memory hp
    have hnew : ¬InTable k.toCore p := fun hin => hfresh (h.records p hin)
    have honly (q : ℕ) (hq : NewRecord k.toCore q) : q = p := hq.2.2.trans hp.2.2.symm
    have hfinds : k.Finds (.createProcess args) ↔ (∃ q, Foreground k.toCore q) ∧
        ((k.createProcess args).isSome = true → k.currentProcess ≠ p → k.HoldsFd → k.FindsNext) :=
      ⟨fun hall => hall p hp, fun hall q hq => honly q hq ▸ hall⟩
    rw [hfinds, createLookups_record hp, List.forall_mem_cons, createProcess_record hp, hmem]
    refine and_congr (getForegroundProcess_ne_zero.trans ?_) ?_
    · exact foreground_update (c := { k.toCore with answers := answers, live := live }) hnew
    cases henter : enterProcess { k.toCore with answers := answers, live := live } p (mmMalloc k.toCore .stack).1
        args with
    | none => exact iff_of_true (fun q hq => absurd hq List.not_mem_nil) fun hsome => absurd hsome (by simp)
    | some c =>
      have hquiet := enterProcess_record hrec (hlive .pipe (by simp) (by simp)) henter
      have hfound : getProcessByPid c (c.pid p) ≠ 0 ↔ k.FindsNext := by
        rw [hquiet.toSameTable.pid, hquiet.toSameTable.getProcessByPid]
        exact enroll_found (c := addRecord k.toCore p) hp.2.1 hnew
      refine (openLookups_iff (k := { k with toCore := c })).trans ?_
      show (k.currentProcess ≠ p → k.HoldsFd → getProcessByPid c (c.pid p) ≠ 0) ↔ _
      rw [hfound]
      exact ⟨fun hall _ => hall, fun hall => hall rfl⟩
  · have hno : ∀ q, ¬NewRecord k.toCore q := fun q hq => hex ⟨q, hq⟩
    rw [createLookups_none hno]
    exact iff_of_true (fun q hq => absurd hq List.not_mem_nil) fun q hq => absurd hq (hno q)

/-! ### The scheduler -/

/-- With a process dispatched, the scheduler goes on with one. -/
theorem scheduler_current (h : RingInv c L) (hcur : c.currentProcess ≠ 0)
    (hrun : scheduler c sp = some (sp', c')) : c'.currentProcess ≠ 0 := by
  by_cases hne : c.readyList = 0
  · have hself : scheduler c sp = some (sp, c) := by rw [scheduler, if_pos hne]
    obtain ⟨-, rfl⟩ : sp = sp' ∧ c = c' := by simpa using hself.symm.trans hrun
    exact hcur
  · obtain ⟨c₁, hsched, -, -, -, -, hnext, -⟩ := h.scheduler hne sp
    obtain ⟨-, rfl⟩ : _ = sp' ∧ c₁ = c' := by simpa using hsched.symm.trans hrun
    rcases hnext with ⟨hin, -⟩ | ⟨hsame, -⟩
    · exact (h.procs _ hin).1
    · rw [hsame]
      exact hcur

theorem schedulerLookups_iff (h : RingInv c L) :
    (∀ q ∈ schedulerLookups c sp, q ≠ 0) ↔ (c.readyList ≠ 0 → c.currentProcess ≠ 0) := by
  unfold schedulerLookups
  by_cases hne : c.readyList = 0
  · simp [hne]
  · rw [if_neg hne, List.forall_mem_cons]
    refine ⟨fun hall _ => hall.1, fun hcur => ⟨hcur hne, fun q hq => ?_⟩⟩
    obtain ⟨⟨sp', c'⟩, hrun, rfl⟩ := Option.map_eq_some_iff.mp (Option.mem_toList.mp hq)
    exact scheduler_current h (hcur hne) hrun

theorem quitLookups_iff (h : RingInv c L) : (∀ q ∈ quitLookups c, q ≠ 0) ↔ c.currentProcess ≠ 0 := by
  unfold quitLookups
  dsimp only
  rw [List.forall_mem_cons]
  refine and_iff_left_of_imp fun hcur => ?_
  split
  · cases hadd : addToReadyList { c with state := update c.state c.currentProcess .ready } c.currentProcess with
    | none => exact fun q hq => absurd hq List.not_mem_nil
    | some c₁ =>
      obtain ⟨hedit, L₁, hN, hmem, -⟩ := addToReadyList_procs (h.nodes.setState _) hadd
      have h₁ : RingInv c₁ L₁ := h.enter hcur hedit hN hmem
      exact (schedulerLookups_iff h₁).mpr fun _ => hedit.currentProcess ▸ hcur
  · exact fun q hq => absurd hq List.not_mem_nil

/-! ### Calls -/

theorem kernelLookups_iff (hT : TableInv k.toCore) (hL : RingInv k.toCore L) (call : Call) :
    (∀ q ∈ k.lookups call, q ≠ 0) ↔ k.Finds call := by
  cases call with
  | createProcess args => exact createLookups_iff hT
  | exitProcess | wait => exact List.forall_mem_singleton
  | quitCPU => exact quitLookups_iff hL
  | semWait id => exact mem_currentIf
  | sysSleep n => exact mem_currentIf.trans (iff_of_true id trivial)
  | createPipe => exact mem_currentIf
  | pipeClose fd => exact mem_currentIf
  | _ => exact iff_of_true (fun q hq => absurd hq List.not_mem_nil) trivial

theorem Process.RingInv.supply (h : RingInv c L) (answers : List ℕ) : RingInv { c with answers := answers } L :=
  h.congr rfl rfl rfl rfl

/-- `current_process` before the scheduler takes over. -/
theorem call_current (hL : RingInv k.toCore L) (hrun : k.call call = some (r, k', true)) :
    k'.currentProcess = k.currentProcess := by
  have hq : call ≠ .quitCPU := by
    rintro rfl
    obtain ⟨⟨v, c⟩, -, hret⟩ := Option.map_eq_some_iff.mp hrun
    cases hret
  obtain ⟨L', hs⟩ := call_shift hL hq hrun
  exact hs.currentProcess

theorem machineLookups_iff (hT : TableInv m.toCore) (hL : RingInv m.toCore L) :
    (∀ q ∈ m.lookups a, q ≠ 0) ↔ a.Finds m := by
  have hT' : TableInv (m.before a).toCore := hT.supply
  have hL' : RingInv (m.before a).toCore L := hL.supply a.answers
  unfold Machine.lookups Action.Finds
  rw [List.forall_mem_append, kernelLookups_iff hT' hL']
  refine and_congr_right fun _ => ?_
  cases hcall : (m.before a).call a.call with
  | none => exact iff_of_true (fun q hq => absurd hq List.not_mem_nil) fun r hr => absurd hr (by simp)
  | some r =>
    obtain ⟨v, k, again⟩ := r
    obtain ⟨L₁, h₁⟩ := call_ring hL' hcall
    cases again with
    | false =>
      refine iff_of_true (fun q hq => absurd hq List.not_mem_nil) ?_
      rintro r hr hagain
      obtain rfl := Option.some.inj hr
      cases hagain
    | true =>
      have hcur : k.currentProcess = m.currentProcess := call_current (k := m.before a) hL' hcall
      refine (schedulerLookups_iff h₁).trans ?_
      rw [hcur]
      constructor
      · rintro hall r hr -
        obtain rfl := Option.some.inj hr
        exact hall
      · intro hall
        exact hall _ rfl rfl

/-! ### Every action -/

theorem accessLookups_iff {side : Side} {fd : ℤ} :
    (∀ q ∈ k.accessLookups side fd, q ≠ 0) ↔ (k.AsksCaller side fd → k.currentProcess ≠ 0) := mem_currentIf

theorem userLookups_iff (hT : TableInv x.toCore) (hL : RingInv x.toCore L)
    (hb : ∀ pid std newFd, b ≠ .sysChangeStd pid std newFd) : (∀ q ∈ x.lookups b, q ≠ 0) ↔ b.Finds x := by
  cases b with
  | call a => exact machineLookups_iff hT hL
  | getPid => exact List.forall_mem_singleton
  | sysGetForeground => exact List.forall_mem_singleton.trans getForegroundProcess_ne_zero
  | sysRead fd count =>
    show (∀ q ∈ ite _ _ _, q ≠ 0) ↔ (_ ∨ _ → _)
    by_cases hfd : (fd : ℤ) = stdIn
    · rw [if_pos hfd, List.forall_mem_cons, or_iff_left_of_imp fun _ => hfd]
      refine ⟨fun hall _ => hall.1, fun hcur => ⟨hcur hfd, ?_⟩⟩
      split
      · exact fun q hq => absurd hq List.not_mem_nil
      · exact accessLookups_iff.mpr fun _ => hcur hfd
    · rw [if_neg hfd, accessLookups_iff, or_iff_right hfd]
  | sysWrite fd buffer count =>
    show (∀ q ∈ ite _ _ _, q ≠ 0) ↔ (_ ∨ _ → _)
    by_cases hfd : (fd : ℤ) = stdOut ∨ (fd : ℤ) = stdErr
    · rw [if_pos hfd, List.forall_mem_cons, or_iff_left_of_imp fun _ => hfd]
      refine ⟨fun hall _ => hall.1, fun hcur => ⟨hcur hfd, ?_⟩⟩
      split
      · exact fun q hq => absurd hq List.not_mem_nil
      · exact accessLookups_iff.mpr fun _ => hcur hfd
    · rw [if_neg hfd, or_iff_right hfd]
      split
      · rename_i hlow
        rw [accessLookups_iff, and_iff_right hlow]
      · rename_i hlow
        exact iff_of_true (fun q hq => absurd hq List.not_mem_nil) fun hno => absurd hno.1 hlow
  | sysChangeStd pid std newFd => exact absurd rfl (hb pid std newFd)
  | key scancode isPressed low offset answers =>
    show (∀ q ∈ Option.elim _ _ _, q ≠ 0) ↔ ∀ a, _ = some a → _
    cases x.keyKill scancode isPressed offset answers with
    | none => exact iff_of_true (fun q hq => absurd hq List.not_mem_nil) fun a ha => absurd ha (by simp)
    | some a =>
      refine List.forall_mem_cons.trans ?_
      rw [getForegroundProcess_ne_zero, machineLookups_iff hT hL]
      exact ⟨fun hall a' ha => Option.some.inj ha ▸ hall, fun hall => hall a rfl⟩
  | goOn offset answers =>
    show (∀ q ∈ Option.elim _ _ _, q ≠ 0) ↔ ∀ a, _ = some a → _
    cases x.nextWait offset answers with
    | none => exact iff_of_true (fun q hq => absurd hq List.not_mem_nil) fun a ha => absurd ha (by simp)
    | some a =>
      refine (machineLookups_iff hT hL).trans ?_
      exact ⟨fun hall a' ha => Option.some.inj ha ▸ hall, fun hall => hall a rfl⟩

/-! ### The parts of an action -/

/-- What the kernel does for an action that makes no call of its own: waits, posts and bytes. -/
inductive Proceeds (m : Machine) : Machine → Prop
  | refl : Proceeds m m
  | step {m₁ m' : Machine} {a : Action} (h : Proceeds m m₁) (hrun : m₁.step a = some m') (hc : a.call.Ordinary) :
      Proceeds m m'
  | byte {m₁ : Machine} (h : Proceeds m m₁) (t : Transfer) : Proceeds m { m₁ with toKernel := t.moveByte m₁.toKernel }

theorem Proceeds.trans {m₁ : Machine} (h : Proceeds m m₁) (h' : Proceeds m₁ m') : Proceeds m m' := by
  induction h' with
  | refl => exact h
  | step _ hrun hc ih => exact .step ih hrun hc
  | byte _ t ih => exact .byte ih t

/-- An action other than one going on is taken outside of calls. -/
theorem outside_some {o : Option UserMachine} (h : x.outside o = some y) : ¬x.Busy ∧ o = some y := by
  unfold UserMachine.outside at h
  split at h
  · cases h
  · rename_i hbusy
    exact ⟨hbusy, h⟩

theorem sysRead_toMachine (x : UserMachine) (fd : ℕ) (count : ℤ) : (x.sysRead fd count).toMachine = x.toMachine := by
  unfold UserMachine.sysRead
  split
  · split <;> rfl
  · rfl

theorem sysWrite_toKeyMachine (x : UserMachine) (fd : ℕ) (buffer : ℕ → ℤ) (count : ℤ) :
    (x.sysWrite fd buffer count).toKeyMachine = x.toKeyMachine := by
  unfold UserMachine.sysWrite
  split
  · split <;> rfl
  · split <;> rfl

theorem sysChangeStd_toKeyMachine (x : UserMachine) (pid std newFd : ℤ) :
    (x.sysChangeStd pid std newFd).2.toKeyMachine = x.toKeyMachine ∧
      (x.sysChangeStd pid std newFd).2.transfer = x.transfer := by
  unfold UserMachine.sysChangeStd
  dsimp only
  split
  · exact ⟨rfl, rfl⟩
  · split <;> exact ⟨rfl, rfl⟩

theorem queueKeys_proceeds {cs : List ℤ} {answers : List (List ℕ)} {x y : KeyMachine}
    (hrun : KeyMachine.queueKeys cs answers x = some y) : Proceeds x.toMachine y.toMachine := by
  induction cs generalizing x answers with
  | nil =>
    obtain rfl := Option.some.inj hrun
    exact .refl
  | cons c cs ih =>
    obtain ⟨z, hz, hrest⟩ := Option.bind_eq_some_iff.mp hrun
    obtain ⟨m, hstep, rfl⟩ := Option.map_eq_some_iff.mp hz
    have hpost : Proceeds x.toMachine m := .step .refl hstep trivial
    exact hpost.trans (ih hrest)

/-- A key event either kills the foreground process or posts for its characters. -/
theorem int21_proceeds {scancode offset : ℕ} {isPressed : Bool} {low : ℤ} {answers : List (List ℕ)} {z : KeyMachine}
    (hrun : x.toKeyMachine.int21 scancode isPressed low offset answers = some z) :
    match x.keyKill scancode isPressed offset answers with
    | some a => x.toMachine.step a = some z.toMachine
    | none => Proceeds x.toMachine z.toMachine := by
  unfold KeyMachine.int21 KeyMachine.loadBuffer at hrun
  unfold UserMachine.keyKill
  dsimp only at hrun ⊢
  by_cases hpressed : isPressed = true
  · rw [if_pos hpressed] at hrun
    by_cases hkill : (x.pressed scancode isPressed).ctrlPressed = true ∧ scancode = 0x2E
    · rw [if_pos ⟨hpressed, hkill⟩]
      rw [if_pos hkill] at hrun
      obtain ⟨m, hstep, rfl⟩ := Option.map_eq_some_iff.mp hrun
      exact hstep
    · rw [if_neg fun h => hkill h.2]
      rw [if_neg hkill] at hrun
      exact queueKeys_proceeds (x := x.pressed scancode isPressed) hrun
  · rw [if_neg fun h => hpressed h.1]
    rw [if_neg hpressed] at hrun
    obtain rfl := Option.some.inj hrun
    exact .refl

theorem goOn_proceeds {offset : ℕ} {answers : List ℕ} (hrun : x.goOn offset answers = some y) :
    Proceeds x.toMachine y.toMachine := by
  unfold UserMachine.goOn at hrun
  split at hrun
  · obtain ⟨z, hz, rfl⟩ := Option.map_eq_some_iff.mp hrun
    obtain ⟨t, -, ⟨-, m, hstep, rfl⟩ | ⟨-, -, m, hstep, rfl⟩ | ⟨-, -, rfl⟩⟩ := PipeMachine.goOn_cases hz
    · exact .step (.byte .refl t) hstep trivial
    · exact .step .refl hstep trivial
    · exact .refl
  · obtain ⟨z, hz, rfl⟩ := Option.map_eq_some_iff.mp hrun
    simp only [KeyMachine.step] at hz
    split at hz
    · cases hz
    · split at hz
      · obtain rfl := Option.some.inj hz
        exact .refl
      · split at hz
        · obtain ⟨m, hstep, rfl⟩ := Option.map_eq_some_iff.mp hz
          exact .step .refl hstep trivial
        · obtain rfl := Option.some.inj hz
          exact .refl

/-- Behind an action is the call that it makes, or else waits, posts and bytes. -/
theorem user_proceeds (hrun : x.step b = some y) :
    match b.made x with
    | some a => x.toMachine.step a = some y.toMachine
    | none => Proceeds x.toMachine y.toMachine := by
  cases b with
  | call a =>
    obtain ⟨m, hstep, rfl⟩ := Option.map_eq_some_iff.mp (outside_some hrun).2
    exact hstep
  | getPid | sysGetForeground =>
    obtain rfl := Option.some.inj (outside_some hrun).2
    exact .refl
  | sysRead fd count =>
    obtain rfl := Option.some.inj (outside_some hrun).2
    show Proceeds x.toMachine (x.sysRead fd count).toMachine
    rw [sysRead_toMachine]
    exact .refl
  | sysWrite fd buffer count =>
    obtain rfl := Option.some.inj (outside_some hrun).2
    show Proceeds x.toMachine (x.sysWrite fd buffer count).toKeyMachine.toMachine
    rw [sysWrite_toKeyMachine]
    exact .refl
  | sysChangeStd pid std newFd =>
    obtain rfl := Option.some.inj (outside_some hrun).2
    show Proceeds x.toMachine (x.sysChangeStd pid std newFd).2.toKeyMachine.toMachine
    rw [(sysChangeStd_toKeyMachine x pid std newFd).1]
    exact .refl
  | key scancode isPressed low offset answers =>
    obtain ⟨z, hz, rfl⟩ := Option.map_eq_some_iff.mp (outside_some hrun).2
    exact int21_proceeds hz
  | goOn offset answers => exact goOn_proceeds hrun

/-! ### Runs -/

section Core

variable {I : Core → Prop} (hI : ∀ m a m', I m.toCore → Machine.step m a = some m' → I m'.toCore)
include hI

theorem Proceeds.core (h : Proceeds m m') (hm : I m.toCore) : I m'.toCore := by
  induction h with
  | refl => exact hm
  | step _ hrun _ ih => exact hI _ _ _ ih hrun
  | byte _ t ih =>
    unfold Transfer.moveByte
    cases t.side <;> exact ih

/-- What each call of the kernel keeps, every action keeps. -/
theorem user_core (h : I x.toCore) (hrun : x.step b = some y) : I y.toCore := by
  have hproceeds := user_proceeds hrun
  cases hm : b.made x with
  | some a =>
    rw [hm] at hproceeds
    exact hI _ _ _ h hproceeds
  | none =>
    rw [hm] at hproceeds
    exact hproceeds.core hI h

end Core

theorem userland_invariant (h : userland.Reach (fun _ _ => True) x) :
    TableInv x.toCore ∧ ∃ L, RingInv x.toCore L := by
  refine h.invariant (I := fun x => TableInv x.toCore ∧ ∃ L, RingInv x.toCore L)
    (fun x hx => ⟨boot_table hx.1.1, [], boot_ring hx.1.1⟩) fun x b y hx _ hrun => ?_
  exact user_core (I := fun c => TableInv c ∧ ∃ L, RingInv c L)
    (fun m a m' hm hst => ⟨step_tableInv hm.1 hst, step_ring hm.2 hst⟩) hx hrun

/-- A process that has been dispatched is followed by others only. -/
theorem step_current (hL : ∃ L, RingInv m.toCore L) (hcur : m.currentProcess ≠ 0) (hrun : m.step a = some m') :
    m'.currentProcess ≠ 0 := by
  obtain ⟨L, hL⟩ := hL
  have hL' : RingInv (m.before a).toCore L := hL.supply a.answers
  obtain ⟨r, k, again, hcall, hcases⟩ := step_cases hrun
  rcases hcases with ⟨rfl, rfl⟩ | ⟨rfl, sp, c, hsched, rfl⟩
  · by_cases hq : a.call = .quitCPU
    · rw [hq] at hcall
      obtain ⟨⟨v, c⟩, hquit, hret⟩ := Option.map_eq_some_iff.mp hcall
      obtain ⟨-, rfl⟩ : v = r ∧ _ = k := by simpa using hret
      rcases quitCPU_handOver hL' hquit with ⟨-, rfl⟩ | ⟨-, L', hover, -⟩
      · exact hcur
      · exact (hover.ring.procs _ hover.current).1
    · obtain ⟨L', hs⟩ := call_shift hL' hq hcall
      show k.currentProcess ≠ 0
      rw [hs.currentProcess]
      exact hcur
  · obtain ⟨L', h'⟩ := call_ring hL' hcall
    have hsame : k.currentProcess = m.currentProcess := call_current (k := m.before a) hL' hcall
    exact scheduler_current h' (hsame ▸ hcur) hsched

/-! ### The law -/

/-- A pid of the table goes through 16 bits unchanged. -/
theorem named_pid (hT : TableInv x.toCore) (hp : InTable x.toCore p) : x.named (x.pid p) = p := by
  have hr := hT.pids.range p hp
  have hmax : maxProcesses = 20 := rfl
  unfold UserMachine.named
  rw [Int.emod_eq_of_lt hr.1 (by omega), hT.pids.getProcessByPid hp]

/-- The condition for `sys_change_std`, which looks up a process of its pid's last 16 bits. -/
theorem changeStd_sound (hT : TableInv x.toCore) (pid std newFd : ℤ) :
    x.Sound (.sysChangeStd pid std newFd) ↔ (UserAction.sysChangeStd pid std newFd).Finds x := by
  by_cases hstd : std = stdIn ∨ std = stdOut
  · constructor
    · intro hsound _
      by_contra hno
      have hret := hsound.unknown pid std newFd rfl fun p hp hpid => hno ⟨p, hp, hpid⟩
      have hzero : (x.sysChangeStd pid std newFd).1 = 0 := by
        unfold UserMachine.sysChangeStd
        dsimp only
        split
        · rfl
        · rename_i hnot
          rw [if_pos (hstd.resolve_left hnot)]
      rw [hret] at hzero
      dsimp only at hzero
      omega
    · intro hfinds
      obtain ⟨p, hp, rfl⟩ := hfinds hstd
      refine ⟨fun q hq => ?_, ?_, ?_⟩
      · have hq' : q ∈ [x.named (x.pid p)] := by
          rw [UserMachine.lookups, if_pos hstd] at hq
          exact hq
        rw [List.mem_singleton.mp hq', named_pid hT hp]
        exact hp.1
      · rintro pid' std' newFd' heq hnone
        injection heq with hpid
        exact absurd hpid (hnone p hp)
      · rintro pid' std' newFd' heq q hq hqp
        injection heq with hpid hstd' hnew
        subst hpid hstd' hnew
        obtain rfl := hT.pids.inj q p hq hp hqp
        unfold UserMachine.sysChangeStd
        rw [named_pid hT hq]
        dsimp only
        split
        · exact Or.inl rfl
        · split
          · exact Or.inr (Or.inl rfl)
          · exact Or.inr (Or.inr rfl)
  · have hret (pid newFd : ℤ) : x.sysChangeStd pid std newFd = (-1, x) := by
      rw [not_or] at hstd
      unfold UserMachine.sysChangeStd
      rw [if_neg hstd.1, if_neg hstd.2]
    refine iff_of_true ⟨fun q hq => ?_, ?_, ?_⟩ fun hno => absurd hno hstd
    · rw [UserMachine.lookups, if_neg hstd] at hq
      cases hq
    · rintro pid' std' newFd' heq -
      injection heq with _ hstd'
      subst hstd'
      exact hret _ _
    · rintro pid' std' newFd' heq q - -
      injection heq with _ hstd'
      subst hstd'
      exact Or.inr (Or.inr (congrArg Prod.snd (hret _ _)))

/-- In every reachable state, what an action looks up and follows is there exactly when it
finds it; and a process that has been dispatched is followed by others only. -/
theorem lookups_found (h : userland.Reach (fun _ _ => True) x) :
    (∀ b : UserAction, x.Sound b ↔ b.Finds x) ∧
      (x.currentProcess ≠ 0 → ∀ b y, x.step b = some y → y.currentProcess ≠ 0) := by
  obtain ⟨hT, L, hL⟩ := userland_invariant h
  refine ⟨fun b => ?_, fun hcur b y hrun => ?_⟩
  · by_cases hb : ∃ pid std newFd, b = .sysChangeStd pid std newFd
    · obtain ⟨pid, std, newFd, rfl⟩ := hb
      exact changeStd_sound hT pid std newFd
    · have hne : ∀ pid std newFd, b ≠ .sysChangeStd pid std newFd := fun pid std newFd he => hb ⟨pid, std, newFd, he⟩
      rw [← userLookups_iff hT hL hne]
      exact ⟨fun hsound => hsound.found, fun hall =>
        ⟨hall, fun pid std newFd he => absurd he (hne pid std newFd),
          fun pid std newFd he => absurd he (hne pid std newFd)⟩⟩
  · have hkept := user_core (I := fun c => (∃ L, RingInv c L) ∧ c.currentProcess ≠ 0)
      (fun m a m' hm hst => ⟨step_ring hm.1 hst, step_current hm.1 hm.2 hst⟩) ⟨⟨L, hL⟩, hcur⟩ hrun
    exact hkept.2

/-- A process is in the foreground and on the processor, and its input is redirected. -/
theorem lookups_found_changeStd :
    (UserMachine.ran [.call (createForeground 100), .call (plain .tick)]).Sound (.sysChangeStd 1 0 7) := by
  refine ((lookups_found (UserMachine.userland_ran (by decide +kernel))).1 _).mpr fun _ => ⟨101, ?_, ?_⟩
  · decide +kernel
  · decide +kernel

/-- The first process is created while nobody is in the foreground. -/
theorem lookups_first : ¬∀ x b, userland.Reach (fun _ _ => True) x → UserMachine.Sound x b := by
  intro hall
  have hboot : userland.Reach (fun _ _ => True) (UserMachine.ran []) := UserMachine.userland_ran rfl
  exact (hall _ (.call (createForeground 100)) hboot).found 0 (by decide +kernel) rfl

end BareKernel
