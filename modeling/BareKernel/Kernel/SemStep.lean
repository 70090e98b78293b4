import BareKernel.Kernel.SemQueue

/-! What one wait and one post do to an open semaphore whose queue is exact. -/

namespace BareKernel

open Function (update)
open Process Links Machine

variable {k k' : Kernel} {c c' : Core} {m m' : Machine} {a : Action} {call : Call} {s s' : Semaphore}
  {p q n : ℕ} {r id pid v first : ℤ} {again : Bool} {pids rest : List ℤ}

theorem QueueExact.congr (h : QueueExact m id) (hq : (m'.sems id).queue = (m.sems id).queue)
    (hin : ∀ p, Inside m' (.sem id) p ↔ Inside m (.sem id) p)
    (hpid : ∀ p, InTable m.toCore p → m'.pid p = m.pid p) : QueueExact m' id := by
  rw [QueueExact, hq]
  refine ⟨h.1, fun pid => (h.2 pid).trans (exists_congr fun p => ?_)⟩
  rw [hin]
  exact and_congr_right fun hp => by rw [hpid p hp.1]

theorem isOpen_congr (hs : k'.sems id = k.sems id) : k'.IsOpen id ↔ k.IsOpen id := by
  unfold Kernel.IsOpen
  rw [hs]

theorem Call.reason_sem (h : call.reason = some (.sem id)) : call = .semWait id := by
  cases call <;> simp_all [Call.reason]

theorem CallStep.sems (h : CallStep m a m' r k again) : m'.sems = k.sems := by rw [h.kernel]

theorem bmod_range (v : ℤ) : -2 ^ 15 ≤ v.bmod (2 ^ 16) ∧ v.bmod (2 ^ 16) < 2 ^ 15 := by
  have h₁ := Int.le_bmod (x := v) (m := 2 ^ 16) (by decide)
  have h₂ := Int.bmod_lt (x := v) (m := 2 ^ 16) (by decide)
  omega

/-- What holds of one open semaphore as long as its queue is exact. -/
structure QueueAt (m : Machine) (id : ℤ) : Prop where
  inv : KernelInv m.toKernel
  why : WhyBlocked m
  alive : Alive m.toCore
  isOpen : m.IsOpen id
  shape : (m.sems id).Shape
  exact : QueueExact m id
  cpu : ¬Inside m (.sem id) m.currentProcess

theorem QueueInv.at (h : QueueInv m) (ho : m.IsOpen id) : QueueAt m id :=
  ⟨h.inv, h.why, h.alive, ho, h.shape id, h.exact id ho, h.cpu id ho⟩

namespace QueueAt

/-- A pid in the queue is found in the table. -/
theorem found (h : QueueAt m id) (hmem : pid ∈ (m.sems id).queue) :
    Inside m (.sem id) (getProcessByPid (m.before a).toCore pid) ∧
      m.pid (getProcessByPid (m.before a).toCore pid) = pid := by
  obtain ⟨p, hp, rfl⟩ := (h.exact.2 pid).mp hmem
  have hfound : getProcessByPid (m.before a).toCore (m.pid p) = p :=
    (getProcessByPid_congr rfl rfl).trans (h.inv.pids.getProcessByPid hp.1)
  rw [hfound]
  exact ⟨hp, rfl⟩

/-- What a post takes out of an empty queue. -/
theorem popLive_nil (hq : (m.sems id).queue = []) :
    ((m.before a).sems id).popLive (m.before a).toCore ((m.before a).sems id).count = (none, m.sems id) := by
  have hcount := (Semaphore.queue_nil _).mp hq
  rw [show ((m.before a).sems id) = m.sems id from rfl, hcount]
  rfl

/-- A post takes the first pid out of the queue. -/
theorem popLive_cons (h : QueueAt m id) (hq : (m.sems id).queue = first :: rest) :
    ∃ s, ((m.before a).sems id).popLive (m.before a).toCore ((m.before a).sems id).count = (some first, s) ∧
      s.Shape ∧ s.queue = rest ∧ s.value = (m.sems id).value :=
  h.shape.popLive hq (h.found (a := a) (by simp [hq])).1.1.1

/-! ### Posts -/

/-- A post on an empty queue adds a token. -/
theorem post_nil (h : QueueAt m id) (hs : CallStep m a m' r k again) (hc : a.call = .semPost id)
    (hq : (m.sems id).queue = []) (hmax : (m.sems id).value < 2 ^ 15 - 1) :
    m'.sems id = { m.sems id with value := (m.sems id).value + 1 } ∧ m'.state = m.state ∧
      ∀ p, Inside m' (.sem id) p ↔ Inside m (.sem id) p := by
  have hcall := hs.call
  rw [hc] at hcall
  obtain ⟨⟨w, k₁⟩, hrun, hret⟩ := Option.map_eq_some_iff.mp hcall
  obtain ⟨-, rfl, rfl⟩ : w = r ∧ k₁ = k ∧ false = again := by simpa using hret
  have hnone := popLive_nil (a := a) hq
  have hnobody (q : ℕ) : ¬(Call.semPost id).wakes (m.before a) q := by
    rintro ⟨-, pid, hp, -⟩
    rw [hnone] at hp
    cases hp
  rcases semPost_cases hrun with ⟨hclosed, -, -⟩ | ⟨-, -, ⟨pid, s, w, c, hpop, -, -⟩ | ⟨s, hpop, hk⟩⟩
  · exact absurd h.isOpen hclosed
  · rw [hnone] at hpop
    cases hpop
  · obtain rfl : m.sems id = s := congrArg Prod.snd (hnone.symm.trans hpop)
    have hrange := h.shape.range
    have hvalue : ((m.sems id).value + 1).bmod (2 ^ 16) = (m.sems id).value + 1 :=
      Int.bmod_eq_of_le (by omega) (by omega)
    refine ⟨?_, ?_, fun p => ?_⟩
    · rw [hs.sems, hk]
      exact (Function.update_self ..).trans (by rw [hvalue])
    · funext q
      have heff := hs.effect
      rw [hc] at heff
      rw [hs.quiet rfl]
      exact heff.state q (fun he => he) (fun he => he) (hnobody q) fun he => he
    · refine hs.inside_stay h.cpu (fun p _ => ?_) (fun hno => by cases hno)
      rw [hc]
      exact ⟨hnobody p, fun he => he⟩

/-- A post on a queue makes the process of its first pid ready and takes it out. -/
theorem post_cons (h : QueueAt m id) (hs : CallStep m a m' r k again) (hc : a.call = .semPost id)
    (hq : (m.sems id).queue = first :: rest) (hfirst : first ≠ 1) :
    ∃ p, Inside m (.sem id) p ∧ m.pid p = first ∧ m'.state = update m.state p .ready ∧ (m'.sems id).Shape ∧
      (m'.sems id).queue = rest ∧ (m'.sems id).value = (m.sems id).value ∧
      ∀ q, Inside m' (.sem id) q ↔ Inside m (.sem id) q ∧ q ≠ p := by
  have hcall := hs.call
  rw [hc] at hcall
  obtain ⟨⟨w, k₁⟩, hrun, hret⟩ := Option.map_eq_some_iff.mp hcall
  obtain ⟨-, rfl, rfl⟩ : w = r ∧ k₁ = k ∧ false = again := by simpa using hret
  obtain ⟨hp, hpid⟩ := h.found (a := a) (show first ∈ (m.sems id).queue by simp [hq])
  set p := getProcessByPid (m.before a).toCore first with hdef
  obtain ⟨s', hpop', hshape', hqueue', hvalue'⟩ := h.popLive_cons (a := a) hq
  have hblocked : m.state p = .blocked := h.why p (by rw [hp.2]; simp)
  have hwakes (q : ℕ) : (Call.semPost id).wakes (m.before a) q ↔ q = p := by
    constructor
    · rintro ⟨-, pid, hpid', hw⟩
      rw [hpop'] at hpid'
      obtain rfl := Option.some.inj hpid'
      exact hw.2.1
    · rintro rfl
      exact ⟨h.isOpen, first, by rw [hpop'], hfirst, rfl, hblocked⟩
  have heff := hs.effect
  rw [hc] at heff
  rcases semPost_cases hrun with ⟨hclosed, -, -⟩ | ⟨-, -, ⟨pid, s, w, c, hpop, -, hk⟩ | ⟨s, hpop, -⟩⟩
  · exact absurd h.isOpen hclosed
  · obtain ⟨-, rfl⟩ : first = pid ∧ s' = s := by simpa using hpop'.symm.trans hpop
    have hsems : m'.sems id = s' := by
      rw [hs.sems, hk]
      exact Function.update_self ..
    refine ⟨p, hp, hpid, ?_, by rwa [hsems], by rw [hsems, hqueue'], by rw [hsems, hvalue'], fun q => ?_⟩
    · funext q
      rw [hs.quiet rfl]
      rcases eq_or_ne q p with rfl | hqp
      · rw [Function.update_self]
        exact (heff.wakes p (fun he => he) ((hwakes p).mpr rfl)).2
      · rw [Function.update_of_ne hqp]
        exact heff.state q (fun he => he) (fun he => he) (fun hw => hqp ((hwakes q).mp hw)) fun he => he
    · rw [hs.inside_iff, hc, hwakes]
      simp [Call.ends]
  · rw [hpop'] at hpop
    cases hpop

/-- The queue stays exact when its first process is made ready. -/
theorem exact_pop (h : QueueAt m id) (hs : CallStep m a m' r k again) (hq : (m.sems id).queue = first :: rest)
    (hp : Inside m (.sem id) p) (hpid : m.pid p = first) (hqueue : (m'.sems id).queue = rest)
    (hin : ∀ q, Inside m' (.sem id) q ↔ Inside m (.sem id) q ∧ q ≠ p) : QueueExact m' id := by
  obtain ⟨hnodup, hexact⟩ := h.exact
  rw [hq] at hnodup hexact
  rw [QueueExact, hqueue]
  refine ⟨hnodup.of_cons, fun pid => ?_⟩
  have hne : pid ∈ rest ↔ pid ∈ first :: rest ∧ pid ≠ first := by
    have hnot := (List.nodup_cons.mp hnodup).1
    constructor
    · intro hr
      refine ⟨List.mem_cons_of_mem _ hr, ?_⟩
      rintro rfl
      exact hnot hr
    · rintro ⟨hr, hnf⟩
      exact (List.mem_cons.mp hr).resolve_left hnf
  rw [hne, hexact]
  constructor
  · rintro ⟨⟨q, hq, rfl⟩, hnf⟩
    have hqp : q ≠ p := by
      rintro rfl
      exact hnf hpid
    exact ⟨q, (hin q).mpr ⟨hq, hqp⟩, hs.pid_eq hq.1⟩
  · rintro ⟨q, hq, rfl⟩
    obtain ⟨hq, hqp⟩ := (hin q).mp hq
    rw [hs.pid_eq hq.1]
    exact ⟨⟨q, hq, rfl⟩, fun he => hqp (h.inv.pids.inj q p hq.1 hp.1 (he.trans hpid.symm))⟩

/-! ### Waits -/

/-- The queue has room for the process on the processor: the processes in the queue have
the other slots of the table. -/
theorem room (h : QueueAt m id) (hcur : InTable m.toCore m.currentProcess) : (m.sems id).count < maxProcesses := by
  by_contra hfull
  have hlen : (m.sems id).queue.length = (m.sems id).count := entries_length
  obtain ⟨hnodup, hexact⟩ := h.exact
  have hslot (j : Fin maxProcesses) : ∃ i : Fin maxProcesses, Inside m (.sem id) (m.processesList i) ∧
      (m.sems id).queue[(j : ℕ)]? = some (m.pid (m.processesList i)) := by
    have hj : (j : ℕ) < (m.sems id).queue.length := by
      have hlt := j.isLt
      omega
    obtain ⟨p, hp, hpid⟩ := (hexact _).mp (List.getElem_mem hj)
    obtain ⟨i, hi, rfl⟩ := hp.slot
    exact ⟨⟨i, hi⟩, hp, by rw [List.getElem?_eq_getElem hj, hpid]⟩
  choose slot hin hget using hslot
  have hinj : Function.Injective slot := by
    intro x y hxy
    have hval : (m.sems id).queue[(x : ℕ)]? = (m.sems id).queue[(y : ℕ)]? := by rw [hget x, hget y, hxy]
    have hx : (x : ℕ) < (m.sems id).queue.length := by
      have hlt := x.isLt
      omega
    exact Fin.ext ((List.getElem?_inj hx hnodup).mp hval)
  obtain ⟨-, i, hi, hcuri⟩ := hcur
  obtain ⟨j, hj⟩ := Finite.surjective_of_injective hinj ⟨i, hi⟩
  have hinside := hin j
  rw [hj, hcuri] at hinside
  exact h.cpu hinside

/-- A wait takes a token. -/
theorem wait_token (h : QueueAt m id) (hs : CallStep m a m' r k again) (hc : a.call = .semWait id)
    (hv : (m.sems id).value ≠ 0) :
    r = 0 ∧ again = false ∧ m'.sems id = { m.sems id with value := ((m.sems id).value - 1).bmod (2 ^ 16) } ∧
      ∀ p, Inside m' (.sem id) p ↔ Inside m (.sem id) p := by
  have hcall := hs.call
  rw [hc] at hcall
  rcases semWait_cases hcall with ⟨-, -, -, hfull⟩ | ⟨hno, hr, -, -, hk⟩ | ⟨-, -, hw, -⟩
  · exact absurd (hfull h.isOpen).1 hv
  · refine ⟨hr, hno, ?_, fun p => ?_⟩
    · rw [hs.sems, hk]
      exact Function.update_self ..
    · refine hs.inside_stay h.cpu (fun q _ => ?_) fun hagain => by rw [hno] at hagain; cases hagain
      rw [hc]
      exact ⟨fun hw => hw, fun he => he⟩
  · exact absurd hw.2.1 hv

/-- A wait without a token puts the caller into the queue. -/
theorem wait_queue (h : QueueAt m id) (hs : CallStep m a m' r k again) (hc : a.call = .semWait id)
    (hv : (m.sems id).value = 0) (hin : InTable m.toCore m.currentProcess) :
    r = 0 ∧ again = true ∧ m'.sems id = (m.sems id).push (m.pid m.currentProcess) ∧ (m'.sems id).Shape ∧
      (m'.sems id).queue = (m.sems id).queue ++ [m.pid m.currentProcess] ∧
      ∀ p, Inside m' (.sem id) p ↔ Inside m (.sem id) p ∨ p = m.currentProcess := by
  have hcall := hs.call
  rw [hc] at hcall
  have hroom := h.room hin
  rcases semWait_cases hcall with ⟨-, -, -, hfull⟩ | ⟨-, -, -, hvalue, -⟩ | ⟨hyes, hr, hw, w, c, -, hk⟩
  · exact absurd hroom (not_lt.mpr (hfull h.isOpen).2)
  · exact absurd hv hvalue
  · have hsems : m'.sems id = (m.sems id).push (m.pid m.currentProcess) := by
      rw [hs.sems, hk]
      exact Function.update_self ..
    obtain ⟨hshape, hqueue⟩ : ((m.sems id).push (m.pid m.currentProcess)).Shape ∧ _ = _ := h.shape.push hv hroom
    refine ⟨hr, hyes, hsems, by rwa [hsems], by rw [hsems, hqueue], fun p => ?_⟩
    refine hs.inside_self h.alive hin h.cpu hyes (by rw [hc]; rfl) fun q hq => ?_
    rw [hc]
    exact ⟨hw, hq⟩

/-- The queue stays exact when the caller goes into it. -/
theorem exact_push (h : QueueAt m id) (hs : CallStep m a m' r k again) (hin : InTable m.toCore m.currentProcess)
    (hqueue : (m'.sems id).queue = (m.sems id).queue ++ [m.pid m.currentProcess])
    (hinside : ∀ p, Inside m' (.sem id) p ↔ Inside m (.sem id) p ∨ p = m.currentProcess) : QueueExact m' id := by
  obtain ⟨hnodup, hexact⟩ := h.exact
  have hnew : m.pid m.currentProcess ∉ (m.sems id).queue := by
    intro hmem
    obtain ⟨p, hp, hpid⟩ := (hexact _).mp hmem
    rw [h.inv.pids.inj p _ hp.1 hin hpid] at hp
    exact h.cpu hp
  rw [QueueExact, hqueue]
  refine ⟨List.nodup_append.mpr ⟨hnodup, List.nodup_singleton _, ?_⟩, fun pid => ?_⟩
  · rintro x hx y hy rfl
    obtain rfl := List.mem_singleton.mp hy
    exact hnew hx
  · rw [List.mem_append, hexact, List.mem_singleton]
    constructor
    · rintro (⟨p, hp, rfl⟩ | rfl)
      · exact ⟨p, (hinside p).mpr (Or.inl hp), hs.pid_eq hp.1⟩
      · exact ⟨_, (hinside _).mpr (Or.inr rfl), hs.pid_eq hin⟩
    · rintro ⟨p, hp, rfl⟩
      rcases (hinside p).mp hp with hp | rfl
      · exact Or.inl ⟨p, hp, (hs.pid_eq hp.1).symm⟩
      · exact Or.inr (hs.pid_eq hin)

end QueueAt

end BareKernel
