import BareKernel.Kernel.Inside

/-! The law of the sleep list, over all runs. -/

namespace BareKernel

open Function (update)
open Process Links Machine

variable {k k' : Kernel} {m m' : Machine} {a : Action} {call : Call} {E : List ℕ} {e p q n : ℕ} {r : ℤ}
  {again : Bool}

/-- The sleep list has one entry for each process blocked inside `sys_sleep`, and no other. -/
def SleepExact (m : Machine) : Prop :=
  (m.sleepEntries.map m.entryProc).Nodup ∧ ∀ p, p ∈ m.sleepEntries.map m.entryProc ↔ Inside m .sleep p

/-- What holds as long as the sleep list is exact. -/
structure SleepInv (m : Machine) : Prop where
  inv : KernelInv m.toKernel
  why : WhyBlocked m
  alive : Alive m.toCore
  exact : SleepExact m
  cpu : ¬Inside m .sleep m.currentProcess

/-- The calls under which the sleep list stays exact. -/
def Action.KeepsSleepers (m : Machine) (a : Action) : Prop :=
  a.call.Orderly m.toKernel ∧
  match a.call with
  | .quitCPU => False
  | .sysSleep _ => m.currentProcess ≠ 0 → (mmMalloc (m.before a).toCore .sleepEntry).1 ≠ 0 ∧
    InTable m.toCore m.currentProcess ∧ OtherReady m.toCore
  | .tick => ∀ e ∈ m.sleepEntries, m.wakeTick e ≤ m.tickNow → m.pid (m.entryProc e) ≠ 1
  | call => ∀ i < maxProcesses, Inside m .sleep (m.processesList i) →
    ¬call.wakes (m.before a) (m.processesList i) ∧ ¬call.ends (m.before a) (m.processesList i)

instance (m : Machine) (a : Action) : Decidable (a.KeepsSleepers m) := by
  apply Call.casesOn (motive := fun call => Decidable (Action.KeepsSleepers m { a with call })) a.call <;>
    intros <;> dsimp only [Action.KeepsSleepers] <;> infer_instance

theorem CallStep.sleepQueue (h : CallStep m a m' r k again) : m'.toSleepQueue = k.toSleepQueue := by
  rw [h.kernel]

theorem Sleepers.proc_congr (h : Sleepers m'.toKernel E) (hs : m'.entryProc = m.entryProc) :
    m'.sleepEntries.map m'.entryProc = E.map m.entryProc := by
  rw [h.entries_eq, hs]

/-- A call that leaves the list and those who sleep alone. -/
theorem SleepInv.keep (h : SleepInv m) (hs : CallStep m a m' r k again)
    (hlist : m'.toSleepQueue = m.toSleepQueue) (hin : ∀ p, Inside m' .sleep p ↔ Inside m .sleep p) :
    SleepExact m' := by
  obtain ⟨E, hE⟩ := h.inv.sleepers
  obtain ⟨E', hE'⟩ := hs.inv.sleepers
  have hnext : m'.entryNext = m.entryNext := congrArg SleepQueue.entryNext hlist
  have hhead : m'.sleepList = m.sleepList := congrArg SleepQueue.sleepList hlist
  have hproc : m'.entryProc = m.entryProc := congrArg SleepQueue.entryProc hlist
  have hchain := hE'.chain
  rw [hnext, hhead] at hchain
  obtain rfl : E' = E := hchain.unique hE.chain
  have hexact := h.exact
  rw [SleepExact, hE.entries_eq] at hexact
  rw [SleepExact, hE'.proc_congr hproc]
  exact ⟨hexact.1, fun p => (hexact.2 p).trans (hin p).symm⟩

/-! ### Sleeping -/

theorem SleepInv.sysSleep (h : SleepInv m) (hok : a.KeepsSleepers m) (hs : CallStep m a m' r k again)
    (hc : a.call = .sysSleep n) : SleepExact m' := by
  obtain ⟨-, hcond⟩ := hok
  have hcall := hs.call
  rw [hc] at hcond hcall
  rcases sysSleep_cases hcall with ⟨hno, hk, -⟩ | ⟨hyes, hcur, k₁, v, c, hadd, -, hk⟩
  · have hlist : m'.toSleepQueue = m.toSleepQueue := by rw [hs.sleepQueue, hk]; rfl
    refine h.keep hs hlist fun p => hs.inside_stay h.cpu (fun p _ => ?_) fun hagain => ?_
    · rw [hc]
      exact ⟨fun hw => hw, fun he => he⟩
    · rw [hno] at hagain
      cases hagain
  · obtain ⟨hmalloc, hin, -⟩ := hcond hcur
    obtain ⟨E, hE⟩ := h.inv.sleepers
    have hE₀ : Sleepers (m.before a) E := hE.congr rfl rfl
    obtain ⟨answers, live, s, hadd', -, ⟨hfail, -⟩ | ⟨e, A, B, -, -, hfresh, hsplit, -, -, hproc, -, hnew⟩⟩ :=
      sleepQueueAdd_spec hE₀ m.currentProcess (((m.before a).ticksElapsed + n) % 2 ^ 64).toNat
    · exact absurd hfail hmalloc
    · obtain rfl := Option.some.inj (hadd'.symm.trans hadd)
      have hlist : m'.toSleepQueue = s := by rw [hs.sleepQueue, hk]
      obtain ⟨E', hE'⟩ := hs.inv.sleepers
      have hchain := hE'.chain
      rw [show m'.entryNext = s.entryNext by rw [hlist], show m'.sleepList = s.sleepList by rw [hlist]] at hchain
      obtain rfl : E' = A ++ e :: B := hchain.unique hnew.chain
      have hexact := h.exact
      rw [SleepExact, hE.entries_eq, hsplit] at hexact
      have hold (x : ℕ) (hx : x ∈ A ++ B) : s.entryProc x = m.entryProc x := by
        rw [hproc]
        apply Function.update_of_ne
        rintro rfl
        exact hfresh (hsplit ▸ hx)
      have hmap : (A ++ e :: B).map s.entryProc = A.map m.entryProc ++ m.currentProcess :: B.map m.entryProc := by
        rw [List.map_append, List.map_cons,
          show s.entryProc e = m.currentProcess by rw [hproc]; exact Function.update_self ..,
          List.map_congr_left fun x hx => hold x (List.mem_append_left B hx),
          List.map_congr_left fun x hx => hold x (List.mem_append_right A hx)]
      have hinside (p : ℕ) : Inside m' .sleep p ↔ Inside m .sleep p ∨ p = m.currentProcess := by
        refine hs.inside_self h.alive hin h.cpu hyes (by rw [hc]; rfl) fun q hq => ?_
        rw [hc]
        exact ⟨hcur, hq⟩
      rw [List.map_append] at hexact
      rw [SleepExact, hE'.entries_eq, show m'.entryProc = s.entryProc by rw [hlist], hmap]
      constructor
      · have hnot : m.currentProcess ∉ A.map m.entryProc ++ B.map m.entryProc := fun hmem =>
          h.cpu ((hexact.2 _).mp hmem)
        exact List.nodup_middle.mpr (List.nodup_cons.mpr ⟨hnot, hexact.1⟩)
      · intro p
        rw [hinside, ← hexact.2]
        simp only [List.mem_append, List.mem_cons]
        tauto

/-! ### Ticks -/

theorem SleepInv.tick (h : SleepInv m) (hok : a.KeepsSleepers m) (hs : CallStep m a m' r k again)
    (hc : a.call = .tick) : SleepExact m' := by
  obtain ⟨-, hcond⟩ := hok
  have hcall := hs.call
  rw [hc] at hcond hcall
  obtain ⟨k₁, hrun, hret⟩ := Option.map_eq_some_iff.mp hcall
  obtain ⟨-, rfl, -⟩ : 0 = r ∧ k₁ = k ∧ true = again := by simpa using hret
  obtain ⟨E, hE⟩ := h.inv.sleepers
  have hE₀ : Sleepers (m.before a) E := hE.congr rfl rfl
  obtain ⟨-, -, hlist, hproc, -, -⟩ := timerHandler_call (h.inv.supply a.answers) hE₀ hrun
  obtain ⟨E', hE'⟩ := hs.inv.sleepers
  have hchain := hE'.chain
  rw [show m'.entryNext = k₁.entryNext by rw [hs.kernel], show m'.sleepList = k₁.sleepList by rw [hs.kernel]] at hchain
  obtain rfl := hchain.unique hlist.chain
  have hproc' : m'.entryProc = m.entryProc := by rw [hs.kernel]; exact hproc
  obtain ⟨hnodup, hexact⟩ := h.exact
  rw [hE.entries_eq] at hcond hnodup hexact
  have hsleeper (e : ℕ) (he : e ∈ E) : Inside m .sleep (m.entryProc e) :=
    (hexact _).mp (List.mem_map_of_mem he)
  have hfound (e : ℕ) (he : e ∈ E) :
      getProcessByPid (m.before a).toCore (m.pid (m.entryProc e)) = m.entryProc e :=
    (getProcessByPid_congr rfl rfl).trans (h.inv.pids.getProcessByPid (hsleeper e he).1)
  have hwake (e : ℕ) (he : e ∈ E) (hdue : m.wakeTick e ≤ m.tickNow) :
      Wakes (m.before a).toCore (m.pid (m.entryProc e)) (m.entryProc e) := by
    have hblocked : m.state (m.entryProc e) = .blocked := h.why _ (by rw [(hsleeper e he).2]; simp)
    exact ⟨hcond e he hdue, (hfound e he).symm, hblocked⟩
  -- an entry stays as long as it is not due
  have hstays (e : ℕ) (he : e ∈ E) : Stays (m.before a) (m.before a).tickNow e ↔ m.tickNow < m.wakeTick e := by
    refine ⟨And.right, fun hlt => ⟨fun hnone => ?_, hlt⟩⟩
    exact foundprocess_none hnone (hsleeper e he).1 rfl
  have hwoken (e : ℕ) (he : e ∈ E) : a.call.wakes (m.before a) (m.entryProc e) ↔ m.wakeTick e ≤ m.tickNow := by
    rw [hc]
    have hentries : (m.before a).sleepEntries = E := hE₀.entries_eq
    constructor
    · rintro ⟨e', he', hdue, -, hp, -⟩
      rw [hentries] at he'
      have hsame : m.entryProc e = m.entryProc e' := hp.trans (hfound e' he')
      rw [List.inj_on_of_nodup_map hnodup he he' hsame]
      exact hdue
    · intro hdue
      exact ⟨e, by rw [hentries]; exact he, hdue, hwake e he hdue⟩
  rw [SleepExact, hE'.proc_congr hproc']
  refine ⟨(List.filter_sublist.map m.entryProc).nodup hnodup, fun p => ?_⟩
  have hinside : Inside m' .sleep p ↔ Inside m .sleep p ∧ ¬a.call.wakes (m.before a) p := by
    rw [hs.inside_iff, hc]
    simp [Call.ends, Call.reason]
  rw [hinside, ← hexact]
  constructor
  · intro hmem
    obtain ⟨e, he, rfl⟩ := List.mem_map.mp hmem
    obtain ⟨he, hstay⟩ := List.mem_filter.mp he
    have hlt := (hstays e he).mp (of_decide_eq_true hstay)
    exact ⟨List.mem_map_of_mem he, fun hw => absurd ((hwoken e he).mp hw) (not_le.mpr hlt)⟩
  · rintro ⟨hmem, hnot⟩
    obtain ⟨e, he, rfl⟩ := List.mem_map.mp hmem
    have hlt : m.tickNow < m.wakeTick e := not_le.mp fun hdue => hnot ((hwoken e he).mpr hdue)
    exact List.mem_map_of_mem (List.mem_filter.mpr ⟨he, decide_eq_true ((hstays e he).mpr hlt)⟩)

/-- A tick wakes only those who sleep. -/
theorem SleepInv.tick_wakes (h : SleepInv m) (hc : a.call = .tick) (hw : a.call.wakes (m.before a) q) :
    Inside m .sleep q := by
  obtain ⟨E, hE⟩ := h.inv.sleepers
  have hE₀ : Sleepers (m.before a) E := hE.congr rfl rfl
  rw [hc] at hw
  obtain ⟨e, he, -, -, hq, -⟩ := hw
  rw [hE₀.entries_eq] at he
  have hin : Inside m .sleep (m.entryProc e) := by
    rw [← h.exact.2, hE.entries_eq]
    exact List.mem_map_of_mem he
  have hfound : getProcessByPid (m.before a).toCore (m.pid (m.entryProc e)) = m.entryProc e :=
    (getProcessByPid_congr rfl rfl).trans (h.inv.pids.getProcessByPid hin.1)
  obtain rfl : q = m.entryProc e := hq.trans hfound
  exact hin

/-! ### Runs -/

theorem Action.KeepsSleepers.ne_quitCPU (h : a.KeepsSleepers m) : a.call ≠ .quitCPU := by
  intro hc
  have hcond := h.2
  rw [hc] at hcond
  exact hcond

theorem Call.reason_sleep (h : call.reason = some .sleep) : ∃ n, call = .sysSleep n := by
  cases call <;> simp_all [Call.reason]

theorem SleepInv.callStep (h : SleepInv m) (hok : a.KeepsSleepers m) (hrun : m.step a = some m') :
    ∃ r k again, CallStep m a m' r k again :=
  exists_callStep h.inv h.why hok.1 hok.ne_quitCPU hrun

/-- The process on the processor sleeps only when somebody else is ready. -/
theorem Action.KeepsSleepers.ready (hok : a.KeepsSleepers m) (hs : CallStep m a m' r k again)
    (hagain : again = true) (hreason : a.call.reason = some .sleep) :
    InTable m.toCore m.currentProcess ∧ OtherReady m.toCore := by
  obtain ⟨n, hc⟩ := Call.reason_sleep hreason
  obtain ⟨-, hcond⟩ := hok
  have hcall := hs.call
  rw [hc] at hcond hcall
  rcases sysSleep_cases hcall with ⟨hno, -⟩ | ⟨-, hcur, -⟩
  · rw [hagain] at hno
    cases hno
  · exact (hcond hcur).2

theorem SleepInv.step (h : SleepInv m) (hok : a.KeepsSleepers m) (hrun : m.step a = some m') : SleepInv m' := by
  obtain ⟨r, k, again, hs⟩ := h.callStep hok hrun
  refine ⟨hs.inv, hs.whyBlocked, hs.alive h.alive, ?_,
    hs.outside h.cpu fun hagain hreason => hok.ready hs hagain hreason⟩
  have hframe (hquiet : a.call.sleeps = false) : m'.toSleepQueue = m.toSleepQueue := by
    rw [hs.sleepQueue]
    exact (call_others hs.call).2.1 hquiet
  have hkeep (hquiet : a.call.sleeps = false) (hreason : a.call.reason ≠ some .sleep)
      (hstay : ∀ p, Inside m .sleep p → ¬a.call.wakes (m.before a) p ∧ ¬a.call.ends (m.before a) p) :
      SleepExact m' :=
    h.keep hs (hframe hquiet) fun p => hs.inside_stay h.cpu hstay fun _ => hreason
  cases hc : a.call with
  | sysSleep n => exact h.sysSleep hok hs hc
  | tick => exact h.tick hok hs hc
  | quitCPU => exact absurd hc hok.ne_quitCPU
  | _ =>
    refine hkeep (by rw [hc]; rfl) (by rw [hc]; simp [Call.reason]) fun p hp => ?_
    obtain ⟨-, hcond⟩ := hok
    rw [hc] at hcond ⊢
    obtain ⟨i, hi, rfl⟩ := hp.slot
    exact hcond i hi hp

theorem boot_sleepInv (h : Boot m) : SleepInv m := by
  have hnobody (p : ℕ) : ¬Inside m .sleep p := by
    rintro ⟨-, hwhy⟩
    rw [h.why] at hwhy
    cases hwhy
  obtain ⟨E, hE⟩ := (boot_inv h).sleepers
  obtain rfl : E = [] := hE.chain.nil_iff.mp h.sleepList
  refine ⟨boot_inv h, fun p hp => absurd (h.why p) hp, fun p hp => ?_, ?_, hnobody _⟩
  · obtain ⟨h0, i, -, rfl⟩ := hp
    exact absurd (h.processesList i) h0
  · rw [SleepExact, hE.entries_eq]
    exact ⟨List.nodup_nil, fun p => ⟨fun hmem => absurd hmem List.not_mem_nil, fun hp => absurd hp (hnobody p)⟩⟩

theorem boot_reach_sleepInv (h : boot.Reach (fun m a => a.KeepsSleepers m) m) : SleepInv m :=
  h.invariant (fun _ hm => boot_sleepInv hm) fun _ _ _ => SleepInv.step

/-- In every run of such calls the sleep list is exact in every state, and a tick makes
ready only processes blocked inside `sys_sleep`. -/
theorem sleep_list_exact (h : boot.Reach (fun m a => a.KeepsSleepers m) m) :
    SleepExact m ∧
      ∀ a m' q, a.KeepsSleepers m → m.step a = some m' → a.call = .tick → m.state q = .blocked →
        m'.state q ≠ .blocked → Inside m .sleep q := by
  have hinv := boot_reach_sleepInv h
  refine ⟨hinv.exact, fun a m' q hok hrun hc hb hnot => ?_⟩
  obtain ⟨r, k, again, hs⟩ := hinv.callStep hok hrun
  apply hinv.tick_wakes hc
  by_contra hw
  have heff := hs.effect
  rw [hc] at heff hw
  apply hnot
  rw [hs.blocked, heff.state q (fun he => he) (fun he => he) hw fun he => he]
  exact hb

/-- The first of two processes sleeps for two ticks. -/
def sleepTwo : List Action :=
  [create 100, plain .callScheduler, create 200, ⟨.sysSleep 2, 0, [400]⟩]

theorem sleep_list_exact_sleepTwo :
    let m := ran (fun m a => a.KeepsSleepers m) initial sleepTwo
    SleepExact m ∧
      ∀ a m' q, a.KeepsSleepers m → m.step a = some m' → a.call = .tick → m.state q = .blocked →
        m'.state q ≠ .blocked → Inside m .sleep q :=
  sleep_list_exact (boot_ran (by decide +kernel))

/-- The calls that sleep, wait or change the state of processes. -/
def Call.OfSleep : Call → Prop
  | .sysSleep _ | .tick | .createProcess _ | .killProcess _ | .exitProcess | .blockProcess _
  | .unblockProcess _ | .semWait _ => True
  | _ => False

instance (call : Call) : Decidable call.OfSleep := by
  apply Call.casesOn (motive := fun call => Decidable call.OfSleep) call <;>
    intros <;> dsimp only [Call.OfSleep] <;> infer_instance

/-- The third of three processes sleeps and is killed by the first one. -/
def killSleeper : List Action :=
  [create 100, plain .tick, create 200, create 300, plain .tick, plain .tick, ⟨.sysSleep 5, 0, [400]⟩,
    plain (.killProcess 3)]

theorem sleep_list_killSleeper : ¬∀ m, boot.Reach (fun _ a => a.call.OfSleep) m → SleepExact m := by
  intro hall
  set m := ran (fun _ a => a.call.OfSleep) initial killSleeper with hm
  have hmem : 301 ∈ m.sleepEntries.map m.entryProc := by rw [hm]; decide +kernel
  have hout : ¬InTable m.toCore 301 := by rw [hm]; decide +kernel
  exact hout (((hall m (boot_ran (by decide +kernel))).2 301).mp hmem).1

end BareKernel
