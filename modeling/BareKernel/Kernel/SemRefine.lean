import BareKernel.Kernel.SemLaw
import BareKernel.Links.Counting

/-! A semaphore refines the one that hands its tokens out in the order of the waits,
from the state in which it was opened on. -/

namespace BareKernel

open Function (update)
open Process Links Machine

variable {k k' : Kernel} {m m₀ m' : Machine} {a : Action} {s : FifoSem ℕ} {es : List (SemEvent ℕ)}
  {p q v : ℕ} {r id : ℤ} {again : Bool}

/-- What happens at the semaphore in a step. -/
def semEvents (id : ℤ) (m : Machine) (a : Action) : List (SemEvent ℕ) :=
  match a.call with
  | .semWait i => if i = id then [.wait m.currentProcess] else []
  | .semPost i => if i = id then [.post] else []
  | _ => []

/-- The calls that keep the ready ring in order. -/
def Action.KeepsRing (m : Machine) (a : Action) : Prop :=
  a.call.Orderly m.toKernel ∧ match a.call with
  | .quitCPU => False
  | _ => True

/-- The call opens the semaphore with `v` tokens if it is closed. -/
def Call.Opens (id : ℤ) (v : ℕ) : Call → Prop
  | .semOpen i w => i = id ∧ w = v
  | .createPipe => (id = 1 ∧ v = 0) ∨ (id = 2 ∧ v = bufferSize)
  | _ => False

instance (id : ℤ) (v : ℕ) (call : Call) : Decidable (call.Opens id v) := by
  apply Call.casesOn (motive := fun call => Decidable (call.Opens id v)) call <;>
    intros <;> dsimp only [Call.Opens] <;> infer_instance

/-- The semaphore has `v` tokens and nobody waits: that of the keyboard after boot, or
one that was closed and has just been opened. -/
def Opened (m : Machine) (id : ℤ) (v : ℕ) : Prop :=
  (Boot m ∧ id = 0 ∧ v = 0) ∨
    ∃ m₀ a, boot.Reach (fun m a => a.KeepsRing m) m₀ ∧ (∀ p, ¬Inside m₀ (.sem id) p) ∧ ¬m₀.IsOpen id ∧
      a.call.Opens id v ∧ v < 2 ^ 15 ∧ m₀.step a = some m ∧ m.IsOpen id

/-- The call wakes and ends nobody who waits at the semaphore. -/
def Action.Spares (m : Machine) (id : ℤ) (a : Action) : Prop :=
  ∀ i < maxProcesses, Inside m (.sem id) (m.processesList i) →
    ¬a.call.wakes (m.before a) (m.processesList i) ∧ ¬a.call.ends (m.before a) (m.processesList i)

/-- A wait at the semaphore is not made by process `1`, and one without a token leaves
somebody else ready; the semaphore is not closed, and only posts wake those who wait. -/
def Action.KeepsSem (m : Machine) (id : ℤ) (a : Action) : Prop :=
  a.KeepsRing m ∧ match a.call with
  | .semWait i => i = id → m.pid m.currentProcess ≠ 1 ∧
      ((m.sems id).value = 0 → InTable m.toCore m.currentProcess ∧ OtherReady m.toCore)
  | .semPost i => i = id ∨ a.Spares m id
  | .semClose i => i ≠ id ∧ a.Spares m id
  | _ => a.Spares m id

/-- Only those who wait without a token have to leave somebody else ready, and process
`1` may take tokens. -/
def Action.SharesSem (m : Machine) (id : ℤ) (a : Action) : Prop :=
  a.KeepsRing m ∧ match a.call with
  | .semWait i => i = id → (m.sems id).value = 0 →
      m.pid m.currentProcess ≠ 1 ∧ InTable m.toCore m.currentProcess ∧ OtherReady m.toCore
  | .semPost i => i = id ∨ a.Spares m id
  | .semClose i => i ≠ id ∧ a.Spares m id
  | _ => a.Spares m id

theorem Action.KeepsSem.sharesSem (h : a.KeepsSem m id) : a.SharesSem m id := by
  obtain ⟨hring, hcond⟩ := h
  refine ⟨hring, ?_⟩
  cases hc : a.call with
  | semWait i =>
    rw [hc] at hcond
    exact fun hi hv => ⟨(hcond hi).1, (hcond hi).2 hv⟩
  | _ =>
    rw [hc] at hcond
    exact hcond

instance (m : Machine) (a : Action) : Decidable (a.KeepsRing m) := by
  apply Call.casesOn (motive := fun call => Decidable (Action.KeepsRing m { a with call })) a.call <;>
    intros <;> dsimp only [Action.KeepsRing] <;> infer_instance

instance (m : Machine) (id : ℤ) (a : Action) : Decidable (a.Spares m id) := by
  dsimp only [Action.Spares]
  infer_instance

instance (m : Machine) (id : ℤ) (a : Action) : Decidable (a.KeepsSem m id) := by
  apply Call.casesOn (motive := fun call => Decidable (Action.KeepsSem m id { a with call })) a.call <;>
    intros <;> dsimp only [Action.KeepsSem] <;> infer_instance

instance (m : Machine) (id : ℤ) (a : Action) : Decidable (a.SharesSem m id) := by
  apply Call.casesOn (motive := fun call => Decidable (Action.SharesSem m id { a with call })) a.call <;>
    intros <;> dsimp only [Action.SharesSem] <;> infer_instance

/-- The semaphore holds the tokens and the processes of the abstract one. -/
structure Refines (m : Machine) (id : ℤ) (s : FifoSem ℕ) : Prop where
  value : (m.sems id).value = s.value
  queue : (m.sems id).queue = s.waiting.map m.pid
  waiting : ∀ p, p ∈ s.waiting ↔ Inside m (.sem id) p
  blocked : ∀ p ∈ s.waiting, m.state p = .blocked
  tail : (m.sems id).tail = ((m.sems id).head + (m.sems id).count) % maxProcesses

/-- What holds of the semaphore and the abstract one in a run. -/
structure Tracks (m : Machine) (id : ℤ) (s : FifoSem ℕ) : Prop where
  at' : QueueAt m id
  value : (m.sems id).value = s.value
  queue : (m.sems id).queue = s.waiting.map m.pid
  waiting : ∀ p, p ∈ s.waiting ↔ Inside m (.sem id) p
  wakeable : ∀ p ∈ s.waiting, m.pid p ≠ 1

theorem Tracks.refines (h : Tracks m id s) : Refines m id s := by
  refine ⟨h.value, h.queue, h.waiting, fun p hp => ?_, h.at'.shape.tail⟩
  have hin := (h.waiting p).mp hp
  exact h.at'.why p (by rw [hin.2]; simp)

/-! ### Steps -/

theorem semOpen_open (ho : k.IsOpen id) (i w : ℤ) : (k.semOpen i w).2.sems id = k.sems id := by
  rcases semOpen_cases k i w with hsame | ⟨hclosed, hset⟩
  · rw [hsame]
  · rw [hset, Kernel.setSem]
    refine Function.update_of_ne ?_ ..
    rintro rfl
    exact hclosed ho

theorem semOpen_of_ne {i w : ℤ} (hi : id ≠ i) : (k.semOpen i w).2.sems id = k.sems id := by
  rcases semOpen_cases k i w with hsame | ⟨-, hset⟩
  · rw [hsame]
  · rw [hset, Kernel.setSem]
    exact Function.update_of_ne hi ..

/-- A new pipe opens its two semaphores, one after the other. -/
theorem pipeInit_sems (k : Kernel) (pipe : ℕ) : ∃ k₁ k₂ : Kernel, k₁.sems = k.sems ∧
    k₂.sems = (k₁.semOpen 1 0).2.sems ∧ (k.pipeInit pipe).sems = (k₂.semOpen 2 bufferSize).2.sems := by
  unfold Kernel.pipeInit
  extract_lets k₁ k₂ k₃ k₄ k₅ k₆
  exact ⟨k₄, k₆, rfl, rfl, rfl⟩

theorem pipeInit_open (ho : k.IsOpen id) (pipe : ℕ) : (k.pipeInit pipe).sems id = k.sems id := by
  obtain ⟨k₁, k₂, h₁, h₂, h₃⟩ := pipeInit_sems k pipe
  have ho₁ : k₁.IsOpen id := (isOpen_congr (by rw [h₁])).mpr ho
  have hsems₁ := semOpen_open ho₁ 1 0
  have ho₂ : k₂.IsOpen id := (isOpen_congr (by rw [h₂, hsems₁])).mpr ho₁
  rw [h₃, semOpen_open ho₂, h₂, hsems₁, h₁]

/-- What a new pipe does to the semaphores its initialisation does. -/
theorem createPipe_sems (k : Kernel) : (k.createPipe.1 = none ∧ k.createPipe.2.sems = k.sems) ∨
    ∃ k₁ : Kernel, ∃ pipe, k₁.sems = k.sems ∧ k.createPipe.2.sems = (k₁.pipeInit pipe).sems := by
  rcases createPipe_tries k with ⟨-, hnone⟩ | ⟨-, rest, hnone⟩ | ⟨i, pipe, rest, k₁, -, -, hk₁, hattach⟩
  · rw [hnone]
    exact Or.inl ⟨rfl, rfl⟩
  · rw [hnone]
    exact Or.inl ⟨rfl, rfl⟩
  · refine Or.inr ⟨k₁, pipe, by rw [hk₁], ?_⟩
    rw [hattach]
    exact (attachPipe_only _ i pipe).sems

/-- A new pipe leaves open semaphores alone. -/
theorem createPipe_open (ho : k.IsOpen id) : k.createPipe.2.sems id = k.sems id := by
  rcases createPipe_sems k with ⟨-, hsame⟩ | ⟨k₁, pipe, hk₁, hsems⟩
  · rw [hsame]
  · rw [hsems, pipeInit_open ((isOpen_congr (by rw [hk₁])).mpr ho), hk₁]

theorem Action.KeepsRing.ne_quitCPU (h : a.KeepsRing m) : a.call ≠ .quitCPU := by
  intro hc
  have hcond := h.2
  rw [hc] at hcond
  exact hcond

theorem Action.SharesSem.spares (h : a.SharesSem m id) (hwait : a.call ≠ .semWait id) (hpost : a.call ≠ .semPost id) :
    a.call ≠ .semClose id ∧ a.Spares m id := by
  have hcond := h.2
  cases hc : a.call with
  | semWait i =>
    refine ⟨by simp, fun _ _ _ => ?_⟩
    rw [hc]
    exact ⟨fun hw => hw, fun he => he⟩
  | semPost i =>
    rw [hc] at hcond hpost
    refine ⟨by simp, hcond.resolve_left ?_⟩
    rintro rfl
    exact hpost rfl
  | semClose i =>
    rw [hc] at hcond
    refine ⟨?_, hcond.2⟩
    rintro he
    exact hcond.1 (Call.semClose.inj he)
  | _ =>
    rw [hc] at hcond
    exact ⟨by simp, hcond⟩

/-- A step that is no wait and no post at the semaphore leaves its value and its queue
alone. -/
theorem CallStep.sems_other (hs : CallStep m a m' r k again) (ho : m.IsOpen id)
    (hclose : a.call ≠ .semClose id) (hwait : a.call ≠ .semWait id) (hpost : a.call ≠ .semPost id) :
    m'.sems id = m.sems id := by
  have hcall := hs.call
  rw [hs.sems]
  by_cases hsem : a.call.sem = some id
  · cases hc : a.call with
    | semOpen i w =>
      rw [hc] at hcall
      obtain ⟨-, rfl, -⟩ : _ = r ∧ ((m.before a).semOpen i w).2 = k ∧ false = again := by
        simpa [Kernel.call] using hcall
      exact semOpen_open (k := m.before a) ho i w
    | _ => simp_all [Call.sem]
  · by_cases hpipe : a.call = .createPipe
    · rw [hpipe] at hcall
      obtain ⟨-, rfl, -⟩ : _ = r ∧ (m.before a).createPipe.2 = k ∧ false = again := by
        simpa [Kernel.call] using hcall
      exact createPipe_open (k := m.before a) ho
    · exact (call_others hcall).1 hpipe id hsem

/-- And nobody comes or goes there, if it wakes and ends nobody. -/
theorem QueueAt.other (h : QueueAt m id) (hspare : a.Spares m id)
    (hclose : a.call ≠ .semClose id) (hwait : a.call ≠ .semWait id) (hpost : a.call ≠ .semPost id)
    (hs : CallStep m a m' r k again) :
    m'.sems id = m.sems id ∧ ∀ p, Inside m' (.sem id) p ↔ Inside m (.sem id) p := by
  refine ⟨hs.sems_other h.isOpen hclose hwait hpost, fun p => ?_⟩
  refine hs.inside_stay h.cpu (fun q hq => ?_) fun _ hreason => hwait (Call.reason_sem hreason)
  obtain ⟨i, hi, rfl⟩ := hq.slot
  exact hspare i hi hq

/-- The scheduler goes on with somebody who does not wait at the semaphore. -/
theorem QueueAt.cpu_step (h : QueueAt m id) (hok : a.SharesSem m id) (hs : CallStep m a m' r k again) :
    ¬Inside m' (.sem id) m'.currentProcess := by
  refine hs.outside h.cpu fun hagain hreason => ?_
  have hc := Call.reason_sem hreason
  obtain ⟨-, hcond⟩ := hok
  have hcall := hs.call
  rw [hc] at hcond hcall
  by_cases hv : (m.sems id).value = 0
  · exact (hcond rfl hv).2
  · obtain ⟨-, hno, -⟩ := h.wait_token hs hc hv
    rw [hno] at hagain
    cases hagain

theorem Tracks.pids (h : Tracks m id s) (hs : CallStep m a m' r k again) : s.waiting.map m'.pid = s.waiting.map m.pid :=
  List.map_congr_left fun p hp => hs.pid_eq ((h.waiting p).mp hp).1

/-- The queue of the semaphore is as before. -/
theorem Tracks.keep {s' : FifoSem ℕ} (h : Tracks m id s) (hok : a.SharesSem m id) (hs : CallStep m a m' r k again)
    (hw : s'.waiting = s.waiting) (hidle : s'.value ≠ 0 → s'.waiting = []) (hmax : s'.value < 2 ^ 15)
    (hsems : m'.sems id = { m.sems id with value := s'.value })
    (hin : ∀ p, Inside m' (.sem id) p ↔ Inside m (.sem id) p) : Tracks m' id s' := by
  have hat := h.at'
  have hshape := hat.shape
  have hqueue : (m'.sems id).queue = (m.sems id).queue := by rw [hsems]; rfl
  refine ⟨⟨hs.inv, hs.whyBlocked, hs.alive hat.alive, ?_, ?_, hat.exact.congr hqueue hin fun _ => hs.pid_eq,
    hat.cpu_step hok hs⟩, by rw [hsems], ?_, fun p => ?_, fun p hp => ?_⟩
  · refine ⟨hat.isOpen.1, hat.isOpen.2.1, ?_⟩
    rw [hsems]
    show (s'.value : ℤ) ≠ -1
    omega
  · rw [hsems]
    refine ⟨hshape.head, hshape.count, hshape.tail, fun hc => ?_, ?_⟩
    · by_contra hv
      have hq := h.queue
      rw [← hw, hidle fun h0 => hv (congrArg Int.ofNat h0), List.map_nil, Semaphore.queue_nil] at hq
      exact hc hq
    · show -2 ^ 15 ≤ (s'.value : ℤ) ∧ (s'.value : ℤ) < 2 ^ 15
      omega
  · rw [hqueue, h.queue, hw, h.pids hs]
  · rw [hw, hin]
    exact h.waiting p
  · rw [hw] at hp
    rw [hs.pid_eq ((h.waiting p).mp hp).1]
    exact h.wakeable p hp

theorem Tracks.wait (h : Tracks m id s) (hidle : s.value ≠ 0 → s.waiting = []) (hok : a.SharesSem m id)
    (hc : a.call = .semWait id) (hs : CallStep m a m' r k again) :
    Tracks m' id (s.step (.wait m.currentProcess)) := by
  have hat := h.at'
  have hcond := hok.2
  rw [hc] at hcond
  by_cases hv : s.value = 0
  · have hv' : (m.sems id).value = 0 := by rw [h.value, hv]; rfl
    obtain ⟨hone, hin, -⟩ := hcond rfl hv'
    obtain ⟨-, -, hsems, hshape, hqueue, hinside⟩ := hat.wait_queue hs hc hv' hin
    have hvalue : (m'.sems id).value = (m.sems id).value := by rw [hsems]; rfl
    rw [FifoSem.step_wait_queue hv]
    have hpids := h.pids hs
    have hopen : m'.IsOpen id := ⟨hat.isOpen.1, hat.isOpen.2.1, by rw [hvalue]; exact hat.isOpen.2.2⟩
    refine ⟨⟨hs.inv, hs.whyBlocked, hs.alive hat.alive, hopen, hshape, hat.exact_push hs hin hqueue hinside,
      hat.cpu_step hok hs⟩, hvalue.trans h.value, ?_, fun p => ?_, fun p hp => ?_⟩
    · rw [List.map_append, hpids, hqueue, h.queue, List.map_singleton, hs.pid_eq hin]
    · rw [hinside, List.mem_append, List.mem_singleton, h.waiting]
    · rcases List.mem_append.mp hp with hp | hp
      · rw [hs.pid_eq ((h.waiting p).mp hp).1]
        exact h.wakeable p hp
      · rw [List.mem_singleton.mp hp, hs.pid_eq hin]
        exact hone
  · have hv' : (m.sems id).value ≠ 0 := by rw [h.value]; exact_mod_cast hv
    obtain ⟨-, -, hsems, hin⟩ := hat.wait_token hs hc hv'
    have hrange := hat.shape.range
    rw [h.value] at hsems hrange
    rw [FifoSem.step_wait_token hv]
    refine h.keep hok hs rfl (fun _ => hidle hv) (by show s.value - 1 < _; omega) (hsems.trans ?_) hin
    have hbmod : ((s.value : ℤ) - 1).bmod (2 ^ 16) = (s.value - 1 : ℕ) := by
      rw [Int.bmod_eq_of_le (by omega) (by omega)]
      omega
    rw [hbmod]

theorem Tracks.post (h : Tracks m id s) (hmax : s.value + 1 < 2 ^ 15) (hok : a.SharesSem m id)
    (hc : a.call = .semPost id) (hs : CallStep m a m' r k again) : Tracks m' id (s.step .post) := by
  have hat := h.at'
  cases hw : s.waiting with
  | nil =>
    have hq : (m.sems id).queue = [] := by rw [h.queue, hw]; rfl
    have hlt : (m.sems id).value < 2 ^ 15 - 1 := by
      rw [h.value]
      omega
    obtain ⟨hsems, -, hin⟩ := hat.post_nil hs hc hq hlt
    rw [FifoSem.step_post_nil hw]
    refine h.keep hok hs hw.symm (fun _ => rfl) hmax ?_ hin
    rw [hsems, h.value]
    rfl
  | cons p rest =>
    have hp : p ∈ s.waiting := by simp [hw]
    have hq : (m.sems id).queue = m.pid p :: rest.map m.pid := by rw [h.queue, hw]; rfl
    obtain ⟨p', hp', hpid, -, hshape, hqueue, hvalue, hin⟩ := hat.post_cons hs hc hq (h.wakeable p hp)
    obtain rfl : p' = p := hat.inv.pids.inj _ _ hp'.1 ((h.waiting p).mp hp).1 hpid
    have hopen : m'.IsOpen id := ⟨hat.isOpen.1, hat.isOpen.2.1, by rw [hvalue]; exact hat.isOpen.2.2⟩
    have hnodup := hat.exact.1
    rw [hq] at hnodup
    have hrest (q : ℕ) : q ∈ rest ↔ q ∈ s.waiting ∧ q ≠ p' := by
      have hnot : p' ∉ rest := fun hmem => (List.nodup_cons.mp hnodup).1 (List.mem_map_of_mem hmem)
      rw [hw, List.mem_cons]
      constructor
      · intro hq
        exact ⟨Or.inr hq, fun he => hnot (he ▸ hq)⟩
      · rintro ⟨rfl | hq, hne⟩
        · exact absurd rfl hne
        · exact hq
    rw [FifoSem.step_post_cons hw]
    refine ⟨⟨hs.inv, hs.whyBlocked, hs.alive hat.alive, hopen, hshape, hat.exact_pop hs hq hp' hpid hqueue hin,
      hat.cpu_step hok hs⟩, hvalue.trans h.value, ?_, fun q => ?_, fun q hq => ?_⟩
    · rw [hqueue]
      exact List.map_congr_left fun q hq => (hs.pid_eq ((h.waiting q).mp ((hrest q).mp hq).1).1).symm
    · rw [hin, ← h.waiting]
      exact hrest q
    · have hqw := ((hrest q).mp hq).1
      rw [hs.pid_eq ((h.waiting q).mp hqw).1]
      exact h.wakeable q hqw

theorem Tracks.step (h : Tracks m id s) (hidle : s.value ≠ 0 → s.waiting = [])
    (hmax : a.call = .semPost id → s.value + 1 < 2 ^ 15) (hok : a.SharesSem m id) (hrun : m.step a = some m') :
    Tracks m' id (s.run (semEvents id m a)) := by
  have hat := h.at'
  obtain ⟨r, k, again, hs⟩ := exists_callStep hat.inv hat.why hok.1.1 hok.1.ne_quitCPU hrun
  by_cases hwait : a.call = .semWait id
  · have hev : semEvents id m a = [.wait m.currentProcess] := by simp [semEvents, hwait]
    rw [hev]
    exact h.wait hidle hok hwait hs
  · by_cases hpost : a.call = .semPost id
    · have hev : semEvents id m a = [.post] := by simp [semEvents, hpost]
      rw [hev]
      exact h.post (hmax hpost) hok hpost hs
    · have hev : semEvents id m a = [] := by
        unfold semEvents
        cases hc : a.call <;> simp_all
      rw [hev]
      obtain ⟨hclose, hspare⟩ := hok.spares hwait hpost
      obtain ⟨hsems, hin⟩ := hat.other hspare hclose hwait hpost hs
      have hrange := hat.shape.range
      rw [h.value] at hrange
      rw [FifoSem.run_nil]
      exact h.keep hok hs rfl hidle (by omega) (by rw [hsems, ← h.value]) hin

/-! ### Runs -/

/-- What holds in every run of calls that keep the ready ring in order. -/
theorem boot_reach_ordered (h : boot.Reach (fun m a => a.KeepsRing m) m) :
    KernelInv m.toKernel ∧ WhyBlocked m ∧ Alive m.toCore := by
  refine h.invariant (I := fun m => KernelInv m.toKernel ∧ WhyBlocked m ∧ Alive m.toCore) (fun m hm => ?_)
    fun m a m' ⟨hinv, hwhy, halive⟩ hok hrun => ?_
  · refine ⟨boot_inv hm, fun p hp => absurd (hm.why p) hp, fun p hp => ?_⟩
    obtain ⟨h0, i, -, rfl⟩ := hp
    exact absurd (hm.processesList i) h0
  · obtain ⟨r, k, again, hs⟩ := exists_callStep hinv hwhy hok.1 hok.ne_quitCPU hrun
    exact ⟨hs.inv, hs.whyBlocked, hs.alive halive⟩

theorem semOpen_closed {i w : ℤ} (hclosed : ¬k.IsOpen id) (hopen : (k.semOpen i w).2.IsOpen id) :
    i = id ∧ (k.semOpen i w).2.sems id = { k.sems id with
      value := w.bmod (2 ^ 16)
      head := 0
      tail := 0
      count := 0 } := by
  rcases semOpen_cases k i w with hsame | ⟨-, hset⟩
  · rw [hsame] at hopen
    exact absurd hopen hclosed
  · by_cases hi : id = i
    · subst hi
      rw [hset]
      exact ⟨rfl, Function.update_self ..⟩
    · rw [hset] at hopen
      obtain ⟨h0, hmax, hv⟩ := hopen
      refine absurd ⟨h0, hmax, ?_⟩ hclosed
      rwa [show (k.setSem i _).sems id = k.sems id from Function.update_of_ne hi ..] at hv

theorem semOpen_isOpen {i w : ℤ} (h0 : 0 ≤ i) (hmax : i < semMax) (hw : w.bmod (2 ^ 16) ≠ -1) :
    (k.semOpen i w).2.IsOpen i := by
  refine ⟨h0, hmax, ?_⟩
  unfold Kernel.semOpen
  rw [if_neg (by omega)]
  split
  · assumption
  · show (update k.sems i _ i).value ≠ -1
    rw [Function.update_self]
    exact hw

/-- Both semaphores are open when a pipe has been initialised. -/
theorem pipeInit_isOpen (k : Kernel) (pipe : ℕ) : (k.pipeInit pipe).IsOpen 1 ∧ (k.pipeInit pipe).IsOpen 2 := by
  obtain ⟨k₁, k₂, -, h₂, h₃⟩ := pipeInit_sems k pipe
  have hfirst : (k₁.semOpen 1 0).2.IsOpen 1 := semOpen_isOpen (by decide) (by decide) (by decide)
  have hsecond : k₂.IsOpen 1 := (isOpen_congr (by rw [h₂])).mpr hfirst
  constructor
  · exact (isOpen_congr (by rw [h₃, semOpen_open hsecond])).mpr hsecond
  · exact (isOpen_congr (by rw [h₃])).mpr (semOpen_isOpen (k := k₂) (by decide) (by decide) (by decide))

theorem pipeInit_closed {pipe : ℕ} (hclosed : ¬k.IsOpen id) (hopen : (k.pipeInit pipe).IsOpen id) :
    ∃ w : ℤ, (id = 1 ∧ w = 0 ∨ id = 2 ∧ w = bufferSize) ∧ (k.pipeInit pipe).sems id = { k.sems id with
      value := w.bmod (2 ^ 16)
      head := 0
      tail := 0
      count := 0 } := by
  obtain ⟨k₁, k₂, h₁, h₂, h₃⟩ := pipeInit_sems k pipe
  have hclosed₁ : ¬k₁.IsOpen id := fun ho => hclosed ((isOpen_congr (by rw [h₁])).mp ho)
  rw [h₃, ← h₁]
  by_cases ho₂ : k₂.IsOpen id
  · have ho₁ : (k₁.semOpen 1 0).2.IsOpen id := (isOpen_congr (by rw [h₂])).mp ho₂
    obtain ⟨rfl, hsems⟩ := semOpen_closed hclosed₁ ho₁
    exact ⟨0, Or.inl ⟨rfl, rfl⟩, by rw [semOpen_open ho₂, h₂, hsems]⟩
  · have ho₃ : (k₂.semOpen 2 bufferSize).2.IsOpen id := (isOpen_congr (by rw [h₃])).mp hopen
    obtain ⟨rfl, hsems⟩ := semOpen_closed ho₂ ho₃
    refine ⟨bufferSize, Or.inr ⟨rfl, rfl⟩, ?_⟩
    rw [hsems, h₂, semOpen_of_ne (by decide)]

/-- A semaphore that a new pipe opens has an empty queue. -/
theorem createPipe_closed (hclosed : ¬k.IsOpen id) (hopen : k.createPipe.2.IsOpen id) :
    ∃ w : ℤ, (id = 1 ∧ w = 0 ∨ id = 2 ∧ w = bufferSize) ∧ k.createPipe.2.sems id = { k.sems id with
      value := w.bmod (2 ^ 16)
      head := 0
      tail := 0
      count := 0 } := by
  rcases createPipe_sems k with ⟨-, hsame⟩ | ⟨k₁, pipe, hk₁, hsems⟩
  · exact absurd ((isOpen_congr (by rw [hsame])).mp hopen) hclosed
  · have hopen₁ : (k₁.pipeInit pipe).IsOpen id := (isOpen_congr (by rw [hsems])).mp hopen
    have hclosed₁ : ¬k₁.IsOpen id := fun ho => hclosed ((isOpen_congr (by rw [hk₁])).mp ho)
    rw [hsems, ← hk₁]
    exact pipeInit_closed hclosed₁ hopen₁

/-- A semaphore that has just been opened. -/
theorem Tracks.fresh (hs : CallStep m₀ a m r k again) (halive : Alive m₀.toCore) (hnobody : ∀ p, ¬Inside m₀ (.sem id) p)
    (hcall : a.call ≠ .semWait id) (hv : v < 2 ^ 15) (hopen : m.IsOpen id)
    (hsems : m.sems id = { m₀.sems id with value := v, head := 0, tail := 0, count := 0 }) :
    Tracks m id (.start v) := by
  have hin (p : ℕ) : ¬Inside m (.sem id) p := by
    rw [hs.inside_stay (hnobody _) (fun q hq => absurd hq (hnobody q)) fun _ hreason => hcall (Call.reason_sem hreason)]
    exact hnobody p
  have hqueue : (m.sems id).queue = [] := by
    rw [hsems]
    rfl
  refine ⟨⟨hs.inv, hs.whyBlocked, hs.alive halive, hopen, ?_, ?_, hin _⟩, by rw [hsems]; rfl, hqueue, fun p => ?_,
    fun p hp => absurd hp List.not_mem_nil⟩
  · rw [hsems]
    refine ⟨Nat.succ_pos 19, Nat.zero_le _, rfl, fun hne => absurd rfl hne, ?_⟩
    show -2 ^ 15 ≤ (v : ℤ) ∧ (v : ℤ) < 2 ^ 15
    omega
  · rw [QueueExact, hqueue]
    refine ⟨List.nodup_nil, fun pid => ⟨fun hmem => absurd hmem List.not_mem_nil, ?_⟩⟩
    rintro ⟨p, hp, -⟩
    exact absurd hp (hin p)
  · exact ⟨fun hp => absurd hp List.not_mem_nil, fun hp => absurd hp (hin p)⟩

/-- A semaphore starts with its tokens and an empty queue. -/
theorem Opened.tracks (h : Opened m id v) : Tracks m id (.start v) := by
  rcases h with ⟨hb, rfl, rfl⟩ | ⟨m₀, a, hreach, hnobody, hclosed, hc, hv, hrun, hopen⟩
  · have hsems : m.sems 0 = ⟨0, fun _ => 0, 0, 0, 0⟩ := hb.sems 0
    have hat : QueueAt m 0 := (boot_queueInv hb).at ⟨le_refl _, by decide, by rw [hsems]; decide⟩
    refine ⟨hat, by rw [hsems]; rfl, by rw [hsems]; rfl, fun p => ?_, fun p hp => absurd hp List.not_mem_nil⟩
    refine ⟨fun hp => absurd hp List.not_mem_nil, ?_⟩
    rintro ⟨-, hwhy⟩
    rw [hb.why] at hwhy
    cases hwhy
  · obtain ⟨hinv, hwhy, halive⟩ := boot_reach_ordered hreach
    have hbmod : (v : ℤ).bmod (2 ^ 16) = v := Int.bmod_eq_of_le (by omega) (by omega)
    cases hcall : a.call with
    | semOpen i w =>
      obtain ⟨rfl, rfl⟩ : i = id ∧ w = v := by rwa [hcall] at hc
      obtain ⟨r, k, again, hs⟩ := exists_callStep hinv hwhy (by rw [hcall]; trivial) (by rw [hcall]; simp) hrun
      have hret := hs.call
      rw [hcall] at hret
      obtain ⟨-, rfl, -⟩ : _ = r ∧ ((m₀.before a).semOpen i v).2 = k ∧ false = again := by
        simpa [Kernel.call] using hret
      refine .fresh hs halive hnobody (by rw [hcall]; simp) hv hopen ?_
      have hopen' : ((m₀.before a).semOpen i v).2.IsOpen i := (isOpen_congr (by rw [hs.sems])).mp hopen
      rw [hs.sems, (semOpen_closed (k := m₀.before a) hclosed hopen').2, hbmod]
      rfl
    | createPipe =>
      rw [hcall] at hc
      obtain ⟨r, k, again, hs⟩ := exists_callStep hinv hwhy (by rw [hcall]; trivial) (by rw [hcall]; simp) hrun
      have hret := hs.call
      rw [hcall] at hret
      obtain ⟨-, rfl, -⟩ : _ = r ∧ (m₀.before a).createPipe.2 = k ∧ false = again := by
        simpa [Kernel.call] using hret
      refine .fresh hs halive hnobody (by rw [hcall]; simp) hv hopen ?_
      have hopen' : (m₀.before a).createPipe.2.IsOpen id := (isOpen_congr (by rw [hs.sems])).mp hopen
      obtain ⟨w, hw, hsems⟩ := createPipe_closed (k := m₀.before a) hclosed hopen'
      obtain rfl : w = v := by
        rcases hw with ⟨rfl, rfl⟩ | ⟨rfl, rfl⟩ <;> rcases hc with ⟨h1, rfl⟩ | ⟨h1, rfl⟩
        · rfl
        · cases h1
        · cases h1
        · rfl
      rw [hs.sems, hsems, hbmod]
      rfl
    | _ =>
      rw [hcall] at hc
      exact hc.elim

/-- The semaphore follows the abstract one along the run. -/
theorem Opened.tracks_run (hopen : Opened m₀ id v)
    (hrun : boot.Emits (fun m a => a.KeepsSem m id) (semEvents id) m₀ es m) (hmax : v + FifoSem.posts es ≤ 32767) :
    Tracks m id ((FifoSem.start v).run es) := by
  induction hrun with
  | refl => exact hopen.tracks
  | @step m m' a es _ hok hst ih =>
    rw [FifoSem.posts_append] at hmax
    obtain ⟨hidle, -, htokens⟩ := FifoSem.run_lawful v es
    rw [FifoSem.run_append]
    refine (ih (by omega)).step hidle (fun hpost => ?_) hok.sharesSem hst
    have hone : FifoSem.posts (semEvents id m a) = 1 := by simp [semEvents, hpost, FifoSem.posts]
    omega

/-- From the state in which it was opened on, the semaphore is the abstract one after
the same waits and posts: it has its tokens, the queue holds those who wait in the
order of their waits, and a post makes the first of them ready. -/
theorem sem_refines_fifo (hopen : Opened m₀ id v)
    (hrun : boot.Emits (fun m a => a.KeepsSem m id) (semEvents id) m₀ es m) (hmax : v + FifoSem.posts es ≤ 32767) :
    let s := (FifoSem.start v).run es
    0 ≤ (m.sems id).value ∧ (0 < (m.sems id).value → (m.sems id).queue = []) ∧ Refines m id s ∧ s.Lawful v es ∧
      ∀ a m' p rest, a.KeepsSem m id → a.call = .semPost id → s.waiting = p :: rest → m.step a = some m' →
        m'.state = update m.state p .ready := by
  intro s
  have htracks : Tracks m id s := hopen.tracks_run hrun hmax
  have hlawful : s.Lawful v es := FifoSem.run_lawful v es
  refine ⟨?_, fun hpos => ?_, htracks.refines, hlawful, fun a m' p rest hok hc hw hst => ?_⟩
  · rw [htracks.value]
    omega
  · rw [htracks.value] at hpos
    rw [htracks.queue, hlawful.idle (by omega)]
    rfl
  · have hat := htracks.at'
    obtain ⟨r, k, again, hs⟩ := exists_callStep hat.inv hat.why hok.1.1 hok.1.ne_quitCPU hst
    have hp : p ∈ s.waiting := by simp [hw]
    have hq : (m.sems id).queue = m.pid p :: rest.map m.pid := by rw [htracks.queue, hw]; rfl
    obtain ⟨p', hp', hpid, hstate, -⟩ := hat.post_cons hs hc hq (htracks.wakeable p hp)
    obtain rfl : p' = p := hat.inv.pids.inj _ _ hp'.1 ((htracks.waiting p).mp hp).1 hpid
    exact hstate

/-! ### Two waits and a post -/

/-- A post that gets a node for the ready ring. -/
def postSem (id : ℤ) : Action := ⟨.semPost id, 0, [900]⟩

/-- The machine with three processes, before and after the first one opens a semaphore. -/
def threeProcesses : Machine :=
  ran (fun m a => a.KeepsRing m) initial [create 100, plain .tick, create 200, create 300]

def threeOpened : Machine := (threeProcesses.step (plain (.semOpen 5 0))).getD threeProcesses

theorem threeOpened_opened : Opened threeOpened 5 0 := by
  refine Or.inr ⟨threeProcesses, plain (.semOpen 5 0), boot_ran (by decide +kernel), ?_, by decide +kernel,
    ⟨rfl, rfl⟩, by decide, step_getD (by decide +kernel), by decide +kernel⟩
  rintro p ⟨⟨-, i, hi, rfl⟩, hwhy⟩
  have hnone : ∀ i < maxProcesses, threeProcesses.why (threeProcesses.processesList i) = none := by decide +kernel
  rw [hnone i hi] at hwhy
  cases hwhy

/-- Two processes wait, and the third one posts. -/
def twoWaits : List Action := [plain .tick, plain .tick, plain (.semWait 5), plain (.semWait 5), postSem 5]

theorem sem_refines_fifo_twoWaits :
    let m := ran (fun m a => a.KeepsSem m 5) threeOpened twoWaits
    let s := (FifoSem.start 0).run (System.emitted step (semEvents 5) threeOpened twoWaits)
    0 ≤ (m.sems 5).value ∧ (0 < (m.sems 5).value → (m.sems 5).queue = []) ∧ Refines m 5 s ∧
      s.Lawful 0 (System.emitted step (semEvents 5) threeOpened twoWaits) ∧
      ∀ a m' p rest, a.KeepsSem m 5 → a.call = .semPost 5 → s.waiting = p :: rest → m.step a = some m' →
        m'.state = update m.state p .ready :=
  sem_refines_fifo threeOpened_opened (emits_ran (by decide +kernel)) (by decide +kernel)

/-! ### The last one that is ready waits -/

/-- Waits at the semaphore by processes other than `1`, and posts. -/
def Action.UsesSem (m : Machine) (id : ℤ) (a : Action) : Prop :=
  match a.call with
  | .semWait i => i = id ∧ m.pid m.currentProcess ≠ 1
  | .semPost i => i = id
  | _ => False

instance (m : Machine) (id : ℤ) (a : Action) : Decidable (a.UsesSem m id) := by
  apply Call.casesOn (motive := fun call => Decidable (Action.UsesSem m id { a with call })) a.call <;>
    intros <;> dsimp only [Action.UsesSem] <;> infer_instance

/-- The first process waits for its child, before and after the child opens a semaphore. -/
def lastReady : Machine := ran (fun m a => a.KeepsRing m) initial [create 100, plain .tick, create 200, plain .wait]

def lastOpened : Machine := (lastReady.step (plain (.semOpen 5 0))).getD lastReady

theorem lastOpened_opened : Opened lastOpened 5 0 := by
  refine Or.inr ⟨lastReady, plain (.semOpen 5 0), boot_ran (by decide +kernel), ?_, by decide +kernel,
    ⟨rfl, rfl⟩, by decide, step_getD (by decide +kernel), by decide +kernel⟩
  rintro p ⟨⟨-, i, hi, rfl⟩, hwhy⟩
  have hnone : ∀ i < maxProcesses, lastReady.why (lastReady.processesList i) ≠ some (.sem 5) := by decide +kernel
  exact hnone i hi hwhy

/-- The process goes on after it has been blocked, and posts itself. -/
def waitTwice : List Action := [plain (.semWait 5), plain (.semWait 5), postSem 5]

theorem sem_refines_fifo_waitTwice : ¬∀ m₀ m id v es, Opened m₀ id v →
    boot.Emits (fun m a => a.UsesSem m id) (semEvents id) m₀ es m → v + FifoSem.posts es ≤ 32767 →
      Refines m id ((FifoSem.start v).run es) := by
  intro hall
  have hrun : (System.runList step (fun m a => a.UsesSem m 5) lastOpened waitTwice).isSome = true := by
    decide +kernel
  have hrefines := hall _ _ 5 0 _ lastOpened_opened (emits_ran hrun) (by decide +kernel)
  have hready := hrefines.blocked 201 (by decide +kernel)
  revert hready
  decide +kernel

end BareKernel
