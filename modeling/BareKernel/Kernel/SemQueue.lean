import BareKernel.Kernel.Inside
import BareKernel.Links.Circular

/-! The waiting queue of a semaphore. -/

namespace BareKernel

open Function (update)
open Process Links Machine

variable {k k' : Kernel} {c c' : Core} {m m' : Machine} {a : Action} {call : Call} {s s' : Semaphore}
  {p q n head : ℕ} {r id pid v : ℤ} {again : Bool} {pids : List ℤ}

/-! ### The queue of a semaphore -/

/-- The pids in the queue. -/
def Semaphore.queue (s : Semaphore) : List ℤ := entries s.waiting maxProcesses s.head s.count

/-- The fields of a semaphore fit together, and nobody waits for a token that is there. -/
structure Semaphore.Shape (s : Semaphore) : Prop where
  head : s.head < maxProcesses
  count : s.count ≤ maxProcesses
  tail : s.tail = (s.head + s.count) % maxProcesses
  value : s.count ≠ 0 → s.value = 0
  range : -2 ^ 15 ≤ s.value ∧ s.value < 2 ^ 15

theorem Semaphore.drain_eq (s : Semaphore) (hh : head < maxProcesses) :
    s.drain n head = (entries s.waiting maxProcesses head n, (head + n) % maxProcesses) := by
  induction n generalizing head with
  | zero => simp [drain, entries, Nat.mod_eq_of_lt hh]
  | succ n ih =>
    have hslot : ((head + 1) % maxProcesses + n) % maxProcesses = (head + (n + 1)) % maxProcesses := by
      rw [Nat.mod_add_mod]
      congr 1
      omega
    rw [drain, ih (Nat.mod_lt _ (by decide)), hslot]
    rfl

theorem Semaphore.queue_nil (s : Semaphore) : s.queue = [] ↔ s.count = 0 := by
  rw [← List.length_eq_zero_iff, queue, entries_length]

/-- The queue is empty as long as there is a token. -/
theorem Semaphore.Shape.queue_eq (h : s.Shape) (hv : s.value ≠ 0) : s.count = 0 := by
  by_contra hc
  exact hv (h.value hc)

theorem Semaphore.Shape.push (h : s.Shape) (hv : s.value = 0) (hc : s.count < maxProcesses) :
    (s.push pid).Shape ∧ (s.push pid).queue = s.queue ++ [pid] := by
  refine ⟨⟨h.head, hc, ?_, fun _ => hv, h.range⟩, ?_⟩
  · show (s.tail + 1) % maxProcesses = (s.head + (s.count + 1)) % maxProcesses
    rw [h.tail, Nat.mod_add_mod]
    rfl
  · show entries (update s.waiting s.tail pid) maxProcesses s.head (s.count + 1) = _
    rw [h.tail]
    exact entries_push h.head hc

/-- The first of the queue is taken out when somebody has its pid. -/
theorem Semaphore.Shape.popLive (h : s.Shape) (hq : s.queue = pid :: pids)
    (hlive : getProcessByPid c pid ≠ 0) :
    ∃ s', s.popLive c s.count = (some pid, s') ∧ s'.Shape ∧ s'.queue = pids ∧ s'.value = s.value := by
  rcases hcount : s.count with _ | n
  · rw [(queue_nil s).mpr hcount] at hq
    cases hq
  · have hentries : s.waiting s.head = pid ∧
        entries s.waiting maxProcesses ((s.head + 1) % maxProcesses) n = pids := by
      rw [queue, hcount, entries] at hq
      exact List.cons.inj hq
    obtain ⟨hfirst, hrest⟩ := hentries
    have hlen := h.count
    rw [hcount] at hlen
    refine ⟨{ s with head := (s.head + 1) % maxProcesses, count := n }, ?_, ⟨Nat.mod_lt _ (by decide),
      Nat.le_of_succ_le hlen, ?_, fun _ => h.value (by omega), h.range⟩, hrest, rfl⟩
    · simp only [Semaphore.popLive, hfirst, ne_eq, hlive, not_false_eq_true, if_true]
    · show s.tail = ((s.head + 1) % maxProcesses + n) % maxProcesses
      rw [h.tail, hcount, Nat.mod_add_mod]
      congr 1
      omega

/-! ### The queue against the processes -/

/-- The queue holds the pids of the processes blocked inside `sem_wait` on the semaphore,
each once. -/
def QueueExact (m : Machine) (id : ℤ) : Prop :=
  (m.sems id).queue.Nodup ∧ ∀ pid, pid ∈ (m.sems id).queue ↔ ∃ p, Inside m (.sem id) p ∧ m.pid p = pid

/-- What holds as long as the queues are exact. -/
structure QueueInv (m : Machine) : Prop where
  inv : KernelInv m.toKernel
  why : WhyBlocked m
  alive : Alive m.toCore
  shape : ∀ id, (m.sems id).Shape
  exact : ∀ id, m.IsOpen id → QueueExact m id
  cpu : ∀ id, m.IsOpen id → ¬Inside m (.sem id) m.currentProcess

/-- Blocked inside `sem_wait` on an open semaphore. -/
def AtSem (m : Machine) (p : ℕ) : Prop := ∃ id, Inside m (.sem id) p ∧ m.IsOpen id

instance (m : Machine) (p : ℕ) : Decidable (AtSem m p) :=
  match hw : m.why p with
  | some (.sem id) => decidable_of_iff (InTable m.toCore p ∧ m.IsOpen id) <| by
      constructor
      · rintro ⟨hin, ho⟩
        exact ⟨id, ⟨hin, hw⟩, ho⟩
      · rintro ⟨id', ⟨hin, hw'⟩, ho⟩
        obtain rfl : id = id' := by simpa [hw] using hw'
        exact ⟨hin, ho⟩
  | some .sleep | some .child | none => isFalse <| by
      rintro ⟨id, ⟨-, hw'⟩, -⟩
      rw [hw] at hw'
      simp at hw'

/-- The calls under which the queues stay exact. -/
def Action.KeepsQueues (m : Machine) (a : Action) : Prop :=
  a.call.Orderly m.toKernel ∧
  match a.call with
  | .quitCPU | .createPipe => False
  | .semOpen id _ => m.IsOpen id ∨ ∀ i < maxProcesses, ¬Inside m (.sem id) (m.processesList i)
  | .semClose _ => True
  | .semPost id => m.IsOpen id →
    (m.sems id).queue.head? ≠ some 1 ∧ ((m.sems id).queue = [] → (m.sems id).value < 2 ^ 15 - 1)
  | .semWait id => m.IsOpen id → (m.sems id).value = 0 →
    InTable m.toCore m.currentProcess ∧ OtherReady m.toCore
  | call => ∀ i < maxProcesses, AtSem m (m.processesList i) →
    ¬call.wakes (m.before a) (m.processesList i) ∧ ¬call.ends (m.before a) (m.processesList i)

instance (m : Machine) (a : Action) : Decidable (a.KeepsQueues m) := by
  apply Call.casesOn (motive := fun call => Decidable (Action.KeepsQueues m { a with call })) a.call <;>
    intros <;> dsimp only [Action.KeepsQueues] <;> infer_instance

end BareKernel
