import BareKernel.Kernel.SemStep

/-! The law of the semaphores, over all runs. -/

namespace BareKernel

open Function (update)
open Process Links Machine

variable {k k' : Kernel} {c c' : Core} {m m' : Machine} {a : Action} {call : Call} {s s' : Semaphore}
  {p q n : ℕ} {r id pid v : ℤ} {again : Bool} {pids : List ℤ}

/-- Posting and closing an open semaphore wakes only those blocked on it. -/
theorem QueueInv.post_wakes (h : QueueInv m) (hc : a.call = .semPost id ∨ a.call = .semClose id)
    (hw : a.call.wakes (m.before a) q) : Inside m (.sem id) q := by
  rcases hc with hc | hc
  · rw [hc] at hw
    obtain ⟨ho, pid, hpop, hwake⟩ := hw
    have hat : QueueAt m id := h.at ho
    cases hq : (m.sems id).queue with
    | nil =>
      rw [QueueAt.popLive_nil hq] at hpop
      cases hpop
    | cons first rest =>
      obtain ⟨s', hpop', -⟩ := hat.popLive_cons (a := a) hq
      rw [hpop'] at hpop
      obtain rfl := Option.some.inj hpop
      rw [hwake.2.1]
      exact (hat.found (by simp [hq])).1
  · rw [hc] at hw
    obtain ⟨ho, j, pid, hj, -, hwake⟩ := hw
    have hmem : pid ∈ (m.sems id).queue := by
      have hdrain := Semaphore.drain_eq (n := (m.sems id).count) (m.sems id) (h.shape id).head
      have hj' : ((m.sems id).drain (m.sems id).count (m.sems id).head).1[j]? = some pid := hj
      rw [hdrain] at hj'
      exact List.mem_of_getElem? hj'
    rw [hwake.2.1]
    exact (QueueAt.found (h.at ho) hmem).1

/-- A semaphore that the call does not work on. -/
theorem QueueInv.other (h : QueueInv m) (hok : a.KeepsQueues m) (hs : CallStep m a m' r k again)
    (hid : a.call.sem ≠ some id) (ho : m.IsOpen id) : ∀ p, Inside m' (.sem id) p ↔ Inside m (.sem id) p := by
  have hkeep (p : ℕ) (hp : Inside m (.sem id) p) :
      ¬a.call.wakes (m.before a) p ∧ ¬a.call.ends (m.before a) p := by
    obtain ⟨-, hcond⟩ := hok
    have hdiff (i : ℤ) (hc : a.call = .semPost i ∨ a.call = .semClose i) : ¬a.call.wakes (m.before a) p := by
      intro hw
      have hi : some (Reason.sem id) = some (.sem i) := hp.2.symm.trans (h.post_wakes hc hw).2
      obtain rfl : id = i := by simpa using hi
      rcases hc with hc | hc <;> exact hid (by rw [hc]; rfl)
    cases hc : a.call with
    | semPost i =>
      have hw := hdiff i (Or.inl hc)
      rw [hc] at hw
      exact ⟨hw, fun he => he⟩
    | semClose i =>
      have hw := hdiff i (Or.inr hc)
      rw [hc] at hw
      exact ⟨hw, fun he => he⟩
    | semOpen i v => exact ⟨fun hw => hw, fun he => he⟩
    | semWait i => exact ⟨fun hw => hw, fun he => he⟩
    | quitCPU => exact ⟨fun hw => hw, fun he => he⟩
    | createPipe => exact ⟨fun hw => hw, fun he => he⟩
    | _ =>
      rw [hc] at hcond
      obtain ⟨i, hi, rfl⟩ := hp.slot
      exact hcond i hi ⟨id, hp, ho⟩
  intro p
  refine hs.inside_stay (h.cpu id ho) hkeep fun _ hreason => hid ?_
  rw [Call.reason_sem hreason]
  rfl

/-- The queue stays and so do those in it. -/
theorem QueueInv.keep (h : QueueInv m) (hs : CallStep m a m' r k again) (ho : m.IsOpen id)
    (hq : (m'.sems id).queue = (m.sems id).queue)
    (hin : ∀ p, Inside m' (.sem id) p ↔ Inside m (.sem id) p) : QueueExact m' id :=
  (h.exact id ho).congr hq hin fun _ => hs.pid_eq

/-! ### The semaphore that a call works on -/

theorem QueueInv.semOpen (h : QueueInv m) (hok : a.KeepsQueues m) (hs : CallStep m a m' r k again)
    (hc : a.call = .semOpen id v) :
    (m'.sems id).Shape ∧ (m'.IsOpen id → QueueExact m' id ∧ ¬Inside m (.sem id) m.currentProcess) := by
  obtain ⟨-, hcond⟩ := hok
  have hcall := hs.call
  rw [hc] at hcond hcall
  obtain ⟨-, hk, -⟩ : _ = r ∧ ((m.before a).semOpen id v).2 = k ∧ false = again := by
    simpa [Kernel.call] using hcall
  have hstay (hout : ¬Inside m (.sem id) m.currentProcess) (p : ℕ) :
      Inside m' (.sem id) p ↔ Inside m (.sem id) p := by
    refine hs.inside_stay hout (fun p _ => ?_) (fun _ => by rw [hc]; simp [Call.reason])
    rw [hc]
    exact ⟨fun hw => hw, fun he => he⟩
  rcases semOpen_cases (m.before a) id v with hsame | ⟨hclosed, hset⟩
  · have hsems : m'.sems id = m.sems id := by rw [hs.sems, ← hk, hsame]; rfl
    refine ⟨by rw [hsems]; exact h.shape id, fun ho' => ?_⟩
    have ho : m.IsOpen id := (isOpen_congr hsems).mp ho'
    exact ⟨h.keep hs ho (by rw [hsems]) (hstay (h.cpu id ho)), h.cpu id ho⟩
  · have hsems : m'.sems id = { m.sems id with value := v.bmod (2 ^ 16), head := 0, tail := 0, count := 0 } := by
      rw [hs.sems, ← hk, hset]
      exact Function.update_self ..
    have hnobody (p : ℕ) : ¬Inside m (.sem id) p := by
      intro hp
      rcases hcond with ho | hfree
      · exact hclosed ho
      · obtain ⟨i, hi, rfl⟩ := hp.slot
        exact hfree i hi hp
    rw [hsems]
    refine ⟨⟨Nat.succ_pos 19, Nat.zero_le _, rfl, fun hne => absurd rfl hne, bmod_range v⟩, fun _ => ⟨?_, hnobody _⟩⟩
    rw [QueueExact, hsems]
    refine ⟨List.nodup_nil, fun pid => ⟨fun hmem => absurd hmem List.not_mem_nil, ?_⟩⟩
    rintro ⟨p, hp, -⟩
    exact absurd ((hstay (hnobody _) p).mp hp) (hnobody p)

theorem QueueInv.semClose (h : QueueInv m) (hs : CallStep m a m' r k again) (hc : a.call = .semClose id) :
    (m'.sems id).Shape ∧ ¬m'.IsOpen id := by
  have hcall := hs.call
  rw [hc] at hcall
  obtain ⟨⟨w, k₁⟩, hrun, hret⟩ := Option.map_eq_some_iff.mp hcall
  obtain ⟨-, rfl, -⟩ : w = r ∧ k₁ = k ∧ false = again := by simpa using hret
  rcases semClose_cases hrun with ⟨hclosed, -, hk⟩ | ⟨ho, -, c, -, hk⟩
  · have hsems : m'.sems id = m.sems id := by rw [hs.sems, hk]; rfl
    exact ⟨by rw [hsems]; exact h.shape id, fun ho => hclosed ((isOpen_congr hsems).mp ho)⟩
  · have hshape := h.shape id
    have hsems : m'.sems id = { m.sems id with
        value := -1
        head := ((m.sems id).head + (m.sems id).count) % maxProcesses
        count := 0 } := by
      rw [hs.sems, hk]
      have hdrain := Semaphore.drain_eq (n := (m.sems id).count) (m.sems id) hshape.head
      have hhead : ((m.sems id).drain (m.sems id).count (m.sems id).head).2 =
          ((m.sems id).head + (m.sems id).count) % maxProcesses := by rw [hdrain]
      rw [← hhead]
      exact Function.update_self ..
    have hvalue : (m'.sems id).value = -1 := by rw [hsems]
    refine ⟨?_, fun ho => ho.2.2 hvalue⟩
    rw [hsems]
    have hrange : -2 ^ 15 ≤ (-1 : ℤ) ∧ (-1 : ℤ) < 2 ^ 15 := by decide
    refine ⟨Nat.mod_lt _ (by decide), Nat.zero_le _, ?_, fun hne => absurd rfl hne, hrange⟩
    show (m.sems id).tail = ((m.sems id).head + (m.sems id).count) % maxProcesses % maxProcesses
    rw [Nat.mod_mod]
    exact hshape.tail

/-- A token is handed over: it is added to the value, or exactly one process that is
blocked on the semaphore becomes ready. -/
def OneToken (m m' : Machine) (id : ℤ) : Prop :=
  ((m'.sems id).value = (m.sems id).value + 1 ∧ m'.state = m.state) ∨
    (m'.sems id).value = (m.sems id).value ∧ ∃ p, Inside m (.sem id) p ∧ m.state p = .blocked ∧
      m'.state = update m.state p .ready

/-- A call on a closed semaphore leaves it closed. -/
theorem QueueInv.closed (h : QueueInv m) (hs : CallStep m a m' r k again)
    (hc : a.call = .semPost id ∨ a.call = .semWait id)
    (ho : ¬m.IsOpen id) : (m'.sems id).Shape ∧ ¬m'.IsOpen id := by
  have hcall := hs.call
  have hsems : m'.sems id = m.sems id := by
    rw [hs.sems]
    rcases hc with hc | hc
    · rw [hc] at hcall
      obtain ⟨⟨w, k₁⟩, hrun, hret⟩ := Option.map_eq_some_iff.mp hcall
      obtain ⟨-, rfl, -⟩ : w = r ∧ k₁ = k ∧ false = again := by simpa using hret
      rcases semPost_cases hrun with ⟨-, -, hk⟩ | ⟨hopen, -⟩
      · rw [hk]
        rfl
      · exact absurd hopen ho
    · rw [hc] at hcall
      rcases semWait_cases hcall with ⟨-, -, hk, -⟩ | ⟨-, -, hopen, -⟩ | ⟨-, -, hw, -⟩
      · rw [hk]
        rfl
      · exact absurd hopen ho
      · exact absurd hw.1 ho
  rw [isOpen_congr hsems, hsems]
  exact ⟨h.shape id, ho⟩

theorem QueueInv.semPost (h : QueueInv m) (hok : a.KeepsQueues m) (hs : CallStep m a m' r k again)
    (hc : a.call = .semPost id) :
    (m'.sems id).Shape ∧ (m'.IsOpen id → m.IsOpen id ∧ QueueExact m' id) ∧ (m.IsOpen id → OneToken m m' id) := by
  by_cases ho : m.IsOpen id
  · have hat := h.at ho
    obtain ⟨-, hcond⟩ := hok
    rw [hc] at hcond
    obtain ⟨hhead, hmax⟩ := hcond ho
    cases hq : (m.sems id).queue with
    | nil =>
      obtain ⟨hsems, hstate, hin⟩ := hat.post_nil hs hc hq (hmax hq)
      have hcount := (Semaphore.queue_nil _).mp hq
      have hrange : -2 ^ 15 ≤ (m.sems id).value + 1 ∧ (m.sems id).value + 1 < 2 ^ 15 := by
        have hlt := hmax hq
        have hr := hat.shape.range
        omega
      refine ⟨?_, fun _ => ⟨ho, h.keep hs ho (by rw [hsems]; rfl) hin⟩, fun _ => Or.inl ⟨by rw [hsems], hstate⟩⟩
      rw [hsems]
      exact ⟨hat.shape.head, hat.shape.count, hat.shape.tail, fun hne => absurd hcount hne, hrange⟩
    | cons first rest =>
      have hfirst : first ≠ 1 := by
        rintro rfl
        exact hhead (by simp [hq])
      obtain ⟨p, hp, hpid, hstate, hshape, hqueue, hvalue, hin⟩ := hat.post_cons hs hc hq hfirst
      have hblocked : m.state p = .blocked := h.why p (by rw [hp.2]; simp)
      exact ⟨hshape, fun _ => ⟨ho, hat.exact_pop hs hq hp hpid hqueue hin⟩,
        fun _ => Or.inr ⟨hvalue, p, hp, hblocked, hstate⟩⟩
  · obtain ⟨hshape, hclosed⟩ := h.closed hs (Or.inl hc) ho
    exact ⟨hshape, fun ho' => absurd ho' hclosed, fun ho' => absurd ho' ho⟩

theorem QueueInv.semWait (h : QueueInv m) (hok : a.KeepsQueues m) (hs : CallStep m a m' r k again)
    (hc : a.call = .semWait id) :
    (m'.sems id).Shape ∧ (m'.IsOpen id → m.IsOpen id ∧ QueueExact m' id) ∧ (m.IsOpen id → r = 0) := by
  by_cases ho : m.IsOpen id
  · have hat := h.at ho
    by_cases hv : (m.sems id).value = 0
    · obtain ⟨-, hcond⟩ := hok
      rw [hc] at hcond
      obtain ⟨hin, -⟩ := hcond ho hv
      obtain ⟨hr, -, -, hshape, hqueue, hinside⟩ := hat.wait_queue hs hc hv hin
      exact ⟨hshape, fun _ => ⟨ho, hat.exact_push hs hin hqueue hinside⟩, fun _ => hr⟩
    · obtain ⟨hr, -, hsems, hin⟩ := hat.wait_token hs hc hv
      refine ⟨?_, fun _ => ⟨ho, h.keep hs ho (by rw [hsems]; rfl) hin⟩, fun _ => hr⟩
      have hshape := hat.shape
      rw [hsems]
      exact ⟨hshape.head, hshape.count, hshape.tail, fun hne => absurd (hshape.queue_eq hv) hne, bmod_range _⟩
  · obtain ⟨hshape, hclosed⟩ := h.closed hs (Or.inr hc) ho
    exact ⟨hshape, fun ho' => absurd ho' hclosed, fun ho' => absurd ho' ho⟩

/-! ### Runs -/

theorem Call.sem_cases (h : call.sem = some id) :
    (∃ v, call = .semOpen id v) ∨ call = .semClose id ∨ call = .semPost id ∨ call = .semWait id := by
  cases call <;> simp_all [Call.sem]

theorem Action.KeepsQueues.ne_quitCPU (h : a.KeepsQueues m) : a.call ≠ .quitCPU := by
  intro hc
  have hcond := h.2
  rw [hc] at hcond
  exact hcond

theorem Action.KeepsQueues.ne_createPipe (h : a.KeepsQueues m) : a.call ≠ .createPipe := by
  intro hc
  have hcond := h.2
  rw [hc] at hcond
  exact hcond

theorem QueueInv.callStep (h : QueueInv m) (hok : a.KeepsQueues m) (hrun : m.step a = some m') :
    ∃ r k again, CallStep m a m' r k again :=
  exists_callStep h.inv h.why hok.1 hok.ne_quitCPU hrun

/-- The process on the processor waits for a semaphore only when somebody else is ready. -/
theorem Action.KeepsQueues.ready (hok : a.KeepsQueues m) (hs : CallStep m a m' r k again)
    (hagain : again = true) (hreason : a.call.reason = some (.sem id)) :
    InTable m.toCore m.currentProcess ∧ OtherReady m.toCore := by
  have hc := Call.reason_sem hreason
  obtain ⟨-, hcond⟩ := hok
  have hcall := hs.call
  rw [hc] at hcond hcall
  rcases semWait_cases hcall with ⟨hno, -⟩ | ⟨hno, -⟩ | ⟨-, -, hw, -⟩
  · rw [hagain] at hno
    cases hno
  · rw [hagain] at hno
    cases hno
  · exact hcond hw.1 hw.2.1

theorem QueueInv.step (h : QueueInv m) (hok : a.KeepsQueues m) (hrun : m.step a = some m') : QueueInv m' := by
  obtain ⟨r, k, again, hs⟩ := h.callStep hok hrun
  have hquiet (id : ℤ) (hid : a.call.sem ≠ some id) : m'.sems id = m.sems id := by
    rw [hs.sems]
    exact (call_others hs.call).1 hok.ne_createPipe id hid
  have hown (id : ℤ) : (m'.sems id).Shape ∧
      (m'.IsOpen id → QueueExact m' id ∧ ¬Inside m (.sem id) m.currentProcess) := by
    by_cases hid : a.call.sem = some id
    · rcases Call.sem_cases hid with ⟨v, hc⟩ | hc | hc | hc
      · exact h.semOpen hok hs hc
      · obtain ⟨hshape, hclosed⟩ := h.semClose hs hc
        exact ⟨hshape, fun ho => absurd ho hclosed⟩
      · obtain ⟨hshape, hexact, -⟩ := h.semPost hok hs hc
        exact ⟨hshape, fun ho => ⟨(hexact ho).2, h.cpu id (hexact ho).1⟩⟩
      · obtain ⟨hshape, hexact, -⟩ := h.semWait hok hs hc
        exact ⟨hshape, fun ho => ⟨(hexact ho).2, h.cpu id (hexact ho).1⟩⟩
    · have hsems := hquiet id hid
      refine ⟨by rw [hsems]; exact h.shape id, fun ho' => ?_⟩
      have ho := (isOpen_congr hsems).mp ho'
      exact ⟨h.keep hs ho (by rw [hsems]) (h.other hok hs hid ho), h.cpu id ho⟩
  exact ⟨hs.inv, hs.whyBlocked, hs.alive h.alive, fun id => (hown id).1, fun id ho => ((hown id).2 ho).1,
    fun id ho => hs.outside ((hown id).2 ho).2 fun hagain hreason => hok.ready hs hagain hreason⟩

theorem boot_queueInv (h : Boot m) : QueueInv m := by
  have hnobody (id : ℤ) (p : ℕ) : ¬Inside m (.sem id) p := by
    rintro ⟨-, hwhy⟩
    rw [h.why] at hwhy
    cases hwhy
  refine ⟨boot_inv h, fun p hp => absurd (h.why p) hp, fun p hp => ?_, fun id => ?_, fun id _ => ?_,
    fun id _ => hnobody id _⟩
  · obtain ⟨h0, i, -, rfl⟩ := hp
    exact absurd (h.processesList i) h0
  · rw [h.sems]
    refine ⟨Nat.succ_pos 19, Nat.zero_le _, rfl, fun hne => absurd rfl hne, ?_⟩
    show -2 ^ 15 ≤ (if id = 0 then 0 else -1 : ℤ) ∧ (if id = 0 then 0 else -1 : ℤ) < 2 ^ 15
    split <;> decide
  · rw [QueueExact, h.sems]
    refine ⟨List.nodup_nil, fun pid => ⟨fun hmem => absurd hmem List.not_mem_nil, ?_⟩⟩
    rintro ⟨p, hp, -⟩
    exact absurd hp (hnobody id p)

theorem boot_reach_queueInv (h : boot.Reach (fun m a => a.KeepsQueues m) m) : QueueInv m :=
  h.invariant (fun _ hm => boot_queueInv hm) fun _ _ _ => QueueInv.step

/-- In every run of such calls the queues are exact in every state; then a post hands over
one token, and waiting does not fail. -/
theorem sem_queue_exact (h : boot.Reach (fun m a => a.KeepsQueues m) m) :
    (∀ id, m.IsOpen id → QueueExact m id) ∧
      (∀ a m' id, a.KeepsQueues m → m.step a = some m' → a.call = .semPost id → m.IsOpen id →
        OneToken m m' id) ∧
      ∀ a m' id r k again, a.KeepsQueues m → m.step a = some m' → a.call = .semWait id → m.IsOpen id →
        (m.before a).call a.call = some (r, k, again) → r = 0 := by
  have hinv := boot_reach_queueInv h
  refine ⟨hinv.exact, fun a m' id hok hrun hc ho => ?_, fun a m' id r k again hok hrun hc ho hcall => ?_⟩
  · obtain ⟨r, k, again, hs⟩ := hinv.callStep hok hrun
    exact (hinv.semPost hok hs hc).2.2 ho
  · obtain ⟨r', k', again', hs⟩ := hinv.callStep hok hrun
    obtain ⟨rfl, -⟩ : r' = r ∧ _ := by simpa using hs.call.symm.trans hcall
    exact (hinv.semWait hok hs hc).2.2 ho

/-- The first of two processes waits for a key. -/
def waitForKey : List Action :=
  [create 100, plain .callScheduler, create 200, plain (.semWait 0)]

theorem sem_queue_exact_waitForKey :
    let m := ran (fun m a => a.KeepsQueues m) initial waitForKey
    (∀ id, m.IsOpen id → QueueExact m id) ∧
      (∀ a m' id, a.KeepsQueues m → m.step a = some m' → a.call = .semPost id → m.IsOpen id →
        OneToken m m' id) ∧
      ∀ a m' id r k again, a.KeepsQueues m → m.step a = some m' → a.call = .semWait id → m.IsOpen id →
        (m.before a).call a.call = some (r, k, again) → r = 0 :=
  sem_queue_exact (boot_ran (by decide +kernel))

/-- The calls on semaphores and those on the state of processes. -/
def Call.OfSem : Call → Prop
  | .semOpen _ _ | .semWait _ | .semPost _ | .semClose _ | .createProcess _ | .killProcess _
  | .exitProcess | .blockProcess _ | .unblockProcess _ | .tick => True
  | _ => False

instance (call : Call) : Decidable call.OfSem := by
  apply Call.casesOn (motive := fun call => Decidable call.OfSem) call <;>
    intros <;> dsimp only [Call.OfSem] <;> infer_instance

/-- The third of three processes waits for a key and is killed by the first one. -/
def killWaiter : List Action :=
  [create 100, plain .tick, create 200, create 300, plain .tick, plain .tick, plain (.semWait 0),
    plain (.killProcess 3)]

theorem sem_queue_killWaiter :
    ¬∀ m, boot.Reach (fun _ a => a.call.OfSem) m → ∀ id, m.IsOpen id → QueueExact m id := by
  intro hall
  set m := ran (fun _ a => a.call.OfSem) initial killWaiter with hm
  have ho : m.IsOpen 0 := by rw [hm]; decide +kernel
  have hmem : 3 ∈ (m.sems 0).queue := by rw [hm]; decide +kernel
  have hnone : foundprocess m.toCore 3 = none := by rw [hm]; decide +kernel
  obtain ⟨-, hexact⟩ := hall m (boot_ran (by decide +kernel)) 0 ho
  obtain ⟨p, hp, hpid⟩ := (hexact 3).mp hmem
  exact foundprocess_none hnone hp.1 hpid

end BareKernel
