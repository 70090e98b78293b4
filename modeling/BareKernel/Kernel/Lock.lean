import BareKernel.Kernel.Calls
import BareKernel.Links.Runs
import Mathlib.Data.Nat.Notation
import Mathlib.Logic.Function.Basic
import Mathlib.Tactic.IntervalCases

/-! The lock of `asm/syncro.asm`, instruction by instruction, and the calls of `syncro/sem.c`
with it. The lock is a byte that is `1` as long as nobody has it; `xchg` takes what is there
and leaves `0`. Any number of processes go through `lock_acquire` and `lock_release`, and
their instructions come in any order. In the kernel a call runs alone, and the locks of the
semaphores are free whenever one begins. -/

namespace BareKernel.Syncro

open Function (update)
open Links

inductive Instr where
  | movAl (value : UInt8)
  | pause
  | xchg
  | cmpAl (value : UInt8)
  | jne (target : ℕ)
  | movLock (value : UInt8)
  | ret

/-- The label `.retry` is at `1`. -/
def lockAcquire : List Instr := [.movAl 0, .pause, .xchg, .cmpAl 1, .jne 1, .ret]

def lockRelease : List Instr := [.movLock 1, .ret]

/-- Where a process is: before the lock, in one of the two functions, or between them. -/
inductive Place where
  | outside
  | acquire (rip : ℕ)
  | inside
  | release (rip : ℕ)

/-- What the two functions use of a process. -/
structure Thread where
  place : Place
  al : UInt8
  zf : Bool

/-- One instruction, and where the next one is. There is none behind `ret`. -/
def Instr.exec (rip : ℕ) (lock al : UInt8) (zf : Bool) : Instr → (UInt8 × UInt8 × Bool) × Option ℕ
  | .movAl value => ((lock, value, zf), some (rip + 1))
  | .pause => ((lock, al, zf), some (rip + 1))
  | .xchg => ((al, lock, zf), some (rip + 1))
  | .cmpAl value => ((lock, al, al == value), some (rip + 1))
  | .jne target => ((lock, al, zf), some (if zf then rip + 1 else target))
  | .movLock value => ((value, al, zf), some (rip + 1))
  | .ret => ((lock, al, zf), none)

/-- One step of a process with the lock: it calls a function or executes the next instruction. -/
def Thread.step (lock : UInt8) (t : Thread) : Option (UInt8 × Thread) :=
  match t.place with
  | .outside => some (lock, { t with place := .acquire 0 })
  | .acquire rip => lockAcquire[rip]?.map fun i =>
    let ((lock, al, zf), next) := i.exec rip lock t.al t.zf
    (lock, ⟨next.elim .inside .acquire, al, zf⟩)
  | .inside => some (lock, { t with place := .release 0 })
  | .release rip => lockRelease[rip]?.map fun i =>
    let ((lock, al, zf), next) := i.exec rip lock t.al t.zf
    (lock, ⟨next.elim .outside .release, al, zf⟩)

/-- Some steps of a process while the others stand still. -/
def Thread.steps : ℕ → UInt8 × Thread → Option (UInt8 × Thread)
  | 0, x => some x
  | n + 1, (lock, t) => (t.step lock).bind (steps n)

/-- Some steps of a process that finds in the lock whatever the others leave there. -/
def Thread.among (locks : ℕ → UInt8) : ℕ → Thread → Option Thread
  | 0, t => some t
  | n + 1, t => (t.step (locks n)).bind fun x => among locks n x.2

structure Spin (ι : Type*) where
  lock : UInt8
  threads : ι → Thread

variable {ι : Type*} [DecidableEq ι] {s s' : Spin ι} {p q : ι} {owner : Option ι} {t t' : Thread}
  {lock lock' : UInt8}

def Spin.next (s : Spin ι) (p : ι) : Option (Spin ι) :=
  ((s.threads p).step s.lock).map fun (lock, t) => ⟨lock, update s.threads p t⟩

/-- The processes in any order, from a lock that nobody has. -/
def spin (ι : Type*) [DecidableEq ι] : System (Spin ι) ι where
  init s := s.lock = 1 ∧ ∀ p, (s.threads p).place = .outside
  step s p s' := s.next p = some s'

namespace Thread

/-- What the registers hold on the way through `lock_acquire`. -/
def Sound (t : Thread) : Prop :=
  match t.place with
  | .acquire rip => rip ≤ 5 ∧ (rip = 1 ∨ rip = 2 → t.al = 0) ∧ (3 ≤ rip → t.al = 0 ∨ t.al = 1) ∧
      (rip = 4 → t.zf = (t.al == 1)) ∧ (rip = 5 → t.al = 1)
  | .release rip => rip ≤ 1
  | _ => True

/-- The process has got the `1` out of the lock and has not put it back. -/
def Took (t : Thread) : Prop :=
  match t.place with
  | .acquire rip => 3 ≤ rip ∧ t.al = 1
  | .inside => True
  | .release rip => rip = 0
  | .outside => False

/-- Between the return of `lock_acquire` and the store of `lock_release`. -/
def Has (t : Thread) : Prop := t.place = .inside ∨ t.place = .release 0

theorem Has.took (h : t.Has) : t.Took := by
  rcases h with h | h <;> simp [Took, h]

/-- What one step does with the lock. Only the `xchg` and the store of `lock_release` touch it. -/
theorem step_cases (hs : t.Sound) (hlock : lock = 0 ∨ lock = 1) (h : t.step lock = some (lock', t')) :
    t'.Sound ∧ ((lock' = lock ∧ (t'.Took ↔ t.Took)) ∨ (lock = 1 ∧ lock' = 0 ∧ ¬t.Took ∧ t'.Took) ∨
      (lock' = 1 ∧ t.Took ∧ ¬t'.Took)) := by
  obtain ⟨place, al, zf⟩ := t
  cases place with
  | outside =>
    obtain ⟨rfl, rfl⟩ := Prod.mk.inj (Option.some.inj h)
    simp [Sound, Took]
  | inside =>
    obtain ⟨rfl, rfl⟩ := Prod.mk.inj (Option.some.inj h)
    simp [Sound, Took]
  | release rip =>
    have hrip : rip ≤ 1 := hs
    interval_cases rip
    · obtain ⟨rfl, rfl⟩ := Prod.mk.inj (Option.some.inj h)
      simp [Sound, Took]
    · obtain ⟨rfl, rfl⟩ := Prod.mk.inj (Option.some.inj h)
      simp [Sound, Took]
  | acquire rip =>
    obtain ⟨hrip, hzero, hone, hzf, hret⟩ := hs
    interval_cases rip
    case «0» =>
      obtain ⟨rfl, rfl⟩ := Prod.mk.inj (Option.some.inj h)
      simp [Sound, Took]
    case «1» =>
      obtain ⟨rfl, rfl⟩ := Prod.mk.inj (Option.some.inj h)
      simpa [Sound, Took] using hzero
    case «2» =>
      obtain ⟨rfl, rfl⟩ := Prod.mk.inj (Option.some.inj h)
      have hal : al = 0 := hzero (Or.inr rfl)
      rcases hlock with rfl | rfl <;> simp [Sound, Took, hal]
    case «3» =>
      obtain ⟨rfl, rfl⟩ := Prod.mk.inj (Option.some.inj h)
      simpa [Sound, Took] using hone
    case «4» =>
      obtain ⟨rfl, rfl⟩ := Prod.mk.inj (Option.some.inj h)
      have hflag : zf = (al == 1) := hzf rfl
      rcases hone (by decide) with rfl | rfl <;> simp [Sound, Took, hflag]
    case «5» =>
      obtain ⟨rfl, rfl⟩ := Prod.mk.inj (Option.some.inj h)
      have hal : al = 1 := hret rfl
      simp [Sound, Took, hal]

/-- While the lock is there, a process that waits for it and runs alone gets it. -/
theorem steps_acquire (hs : t.Sound) (hnot : ¬t.Took) {rip : ℕ} (hplace : t.place = .acquire rip) :
    ∃ n ≤ 7, ∃ t', steps n (1, t) = some (0, t') ∧ t'.Has := by
  obtain ⟨place, al, zf⟩ := t
  obtain rfl : place = .acquire rip := hplace
  obtain ⟨hrip, hzero, hone, hzf, hret⟩ := hs
  -- `al` is not `1`: such a process goes back to `.retry`
  have hback (h3 : 3 ≤ rip) : al = 0 := (hone h3).resolve_right fun hal => hnot ⟨h3, hal⟩
  interval_cases rip
  case «0» => exact ⟨6, by decide, _, rfl, Or.inl rfl⟩
  case «1» =>
    obtain rfl := hzero (Or.inl rfl)
    exact ⟨5, by decide, _, rfl, Or.inl rfl⟩
  case «2» =>
    obtain rfl := hzero (Or.inr rfl)
    exact ⟨4, by decide, _, rfl, Or.inl rfl⟩
  case «3» =>
    obtain rfl := hback (by decide)
    exact ⟨7, by decide, _, rfl, Or.inl rfl⟩
  case «4» =>
    obtain rfl := hback (by decide)
    obtain rfl : zf = false := hzf rfl
    exact ⟨6, by decide, _, rfl, Or.inl rfl⟩
  case «5» => exact absurd ⟨by decide, hret rfl⟩ hnot

/-- A process that has got the `1` returns from `lock_acquire` after at most three steps of its own. -/
theorem took_has (hs : t.Sound) (htook : t.Took) :
    ∃ n ≤ 3, ∀ locks, ∃ t', among locks n t = some t' ∧ t'.Has := by
  obtain ⟨place, al, zf⟩ := t
  cases place with
  | outside => exact htook.elim
  | inside => exact ⟨0, by decide, fun _ => ⟨_, rfl, Or.inl rfl⟩⟩
  | release rip => exact ⟨0, by decide, fun _ => ⟨_, rfl, Or.inr (congrArg Place.release htook)⟩⟩
  | acquire rip =>
    obtain ⟨h3, rfl⟩ := htook
    obtain ⟨hrip, -, -, hzf, -⟩ := hs
    interval_cases rip
    case «3» => exact ⟨3, by decide, fun _ => ⟨_, rfl, Or.inl rfl⟩⟩
    case «4» =>
      obtain rfl : zf = true := hzf rfl
      exact ⟨2, by decide, fun _ => ⟨_, rfl, Or.inl rfl⟩⟩
    case «5» => exact ⟨1, by decide, fun _ => ⟨_, rfl, Or.inl rfl⟩⟩

end Thread

/-! ### All the processes -/

/-- At most one process has the `1`, and then it is not in the lock. -/
structure Owned (s : Spin ι) (owner : Option ι) : Prop where
  sound : ∀ p, (s.threads p).Sound
  lock : s.lock = owner.elim 1 fun _ => 0
  took : ∀ p, (s.threads p).Took ↔ owner = some p

theorem Owned.step (h : Owned s owner) (hnext : (spin ι).step s p s') : ∃ owner', Owned s' owner' := by
  obtain ⟨⟨lock', t⟩, hstep, rfl⟩ := Option.map_eq_some_iff.mp hnext
  set s' : Spin ι := ⟨lock', update s.threads p t⟩
  have hself : s'.threads p = t := Function.update_self ..
  have hother (q : ι) (hq : q ≠ p) : s'.threads q = s.threads q := Function.update_of_ne hq ..
  have hlock : s.lock = 0 ∨ s.lock = 1 := by
    rw [h.lock]
    cases owner with
    | none => exact Or.inr rfl
    | some _ => exact Or.inl rfl
  obtain ⟨hsound, hcases⟩ := Thread.step_cases (h.sound p) hlock hstep
  have hsound' (q : ι) : (s'.threads q).Sound := by
    rcases eq_or_ne q p with rfl | hq
    · rwa [hself]
    · rw [hother q hq]
      exact h.sound q
  rcases hcases with ⟨hsame, htook⟩ | ⟨hfree, htaken, -, htook⟩ | ⟨hback, htook, hnot⟩
  · refine ⟨owner, hsound', hsame.trans h.lock, fun q => ?_⟩
    rcases eq_or_ne q p with rfl | hq
    · rw [hself, htook, h.took]
    · rw [hother q hq, h.took]
  · -- nobody had the `1` that `xchg` has taken
    obtain rfl : owner = none := by
      cases owner with
      | none => rfl
      | some q => exact absurd (show (0 : UInt8) = 1 from h.lock.symm.trans hfree) (by decide)
    refine ⟨some p, hsound', htaken, fun q => ?_⟩
    rcases eq_or_ne q p with rfl | hq
    · rw [hself]
      exact iff_of_true htook rfl
    · rw [hother q hq, h.took]
      exact iff_of_false nofun fun he => hq (Option.some.inj he).symm
  · refine ⟨none, hsound', hback, fun q => ?_⟩
    rcases eq_or_ne q p with rfl | hq
    · rw [hself]
      exact iff_of_false hnot nofun
    · have howner := (h.took p).mp htook
      rw [hother q hq, h.took, howner]
      exact iff_of_false (fun he => hq (Option.some.inj he).symm) nofun

theorem reach_owned (h : (spin ι).Reach (fun _ _ => True) s) : ∃ owner, Owned s owner :=
  h.invariant (I := fun s => ∃ owner, Owned s owner)
    (fun s ⟨hlock, hout⟩ => ⟨none, fun p => by simp [Thread.Sound, hout], hlock,
      fun p => by simp [Thread.Took, hout]⟩)
    fun _ _ _ ⟨_, h⟩ _ hstep => h.step hstep

/-- In whatever order the instructions of the processes come, at most one process is between
the return of `lock_acquire` and the store of `lock_release`. If the lock is there, a process
that waits for it and runs gets it in at most seven steps; if it is not, some process has
it or returns with it after at most three steps of its own, whatever the others do. -/
theorem lock_excludes (h : (spin ι).Reach (fun _ _ => True) s) :
    (∀ p q, (s.threads p).Has → (s.threads q).Has → p = q) ∧
    (s.lock = 1 → ∀ p rip, (s.threads p).place = .acquire rip →
      ∃ n ≤ 7, ∃ t, Thread.steps n (s.lock, s.threads p) = some (0, t) ∧ t.Has) ∧
    (s.lock ≠ 1 → ∃ p, ∃ n ≤ 3, ∀ locks, ∃ t, Thread.among locks n (s.threads p) = some t ∧ t.Has) := by
  obtain ⟨owner, hown⟩ := reach_owned h
  refine ⟨fun p q hp hq => ?_, fun hlock p rip hplace => ?_, fun hlock => ?_⟩
  · have hp' := (hown.took p).mp hp.took
    have hq' := (hown.took q).mp hq.took
    exact Option.some.inj (hp'.symm.trans hq')
  · have hnot : ¬(s.threads p).Took := fun htook => by
      rw [hown.lock, (hown.took p).mp htook] at hlock
      exact absurd (show (0 : UInt8) = 1 from hlock) (by decide)
    rw [hlock]
    exact Thread.steps_acquire (hown.sound p) hnot hplace
  · cases owner with
    | none => exact absurd hown.lock hlock
    | some p => exact ⟨p, Thread.took_has (hown.sound p) ((hown.took p).mpr rfl)⟩

def idle : Spin Bool := ⟨1, fun _ => ⟨.outside, 0, false⟩⟩

/-- Two processes that want the lock, one of which has got it. -/
def contended : Spin Bool :=
  (System.runList Spin.next (fun _ _ => True) idle
    [true, false, false, true, true, false, true, true, false, false, true, true, false]).getD idle

/-- The other one waits. -/
theorem lock_excludes_contended : ¬(contended.threads false).Has := by
  have hinit : (spin Bool).init idle := ⟨rfl, fun _ => rfl⟩
  have hreach : (spin Bool).Reach (fun _ _ => True) contended :=
    (System.Reach.init hinit).runList_getD (fun _ _ _ => id) rfl
  intro h
  exact absurd ((lock_excludes hreach).1 true false (Or.inl rfl) h) (by decide)

/-! ### One process alone -/

namespace Thread

/-- Nobody puts a `1` into the lock, and the process has none. -/
def Spinning (lock : UInt8) (t : Thread) : Prop :=
  lock ≠ 1 ∧ match t.place with
    | .outside => True
    | .acquire rip => rip ≤ 4 ∧ (1 ≤ rip → t.al ≠ 1) ∧ (rip = 4 → t.zf = false)
    | _ => False

theorem Spinning.step (h : Spinning lock t) : ∃ lock' t', t.step lock = some (lock', t') ∧ Spinning lock' t' := by
  obtain ⟨place, al, zf⟩ := t
  obtain ⟨hlock, h⟩ := h
  cases place with
  | outside => exact ⟨_, _, rfl, hlock, by simp⟩
  | inside => exact h.elim
  | release rip => exact h.elim
  | acquire rip =>
    obtain ⟨hrip, hal, hzf⟩ := h
    interval_cases rip
    case «0» => exact ⟨_, _, rfl, hlock, by simp⟩
    case «1» => exact ⟨_, _, rfl, hlock, by simpa using hal⟩
    case «2» => exact ⟨_, _, rfl, hal (by decide), by simpa using hlock⟩
    case «3» => exact ⟨_, _, rfl, hlock, by simpa using hal⟩
    case «4» =>
      obtain rfl : zf = false := hzf rfl
      exact ⟨_, _, rfl, hlock, by simpa using hal⟩

theorem Spinning.steps (h : Spinning lock t) (n : ℕ) :
    ∃ lock' t', Thread.steps n (lock, t) = some (lock', t') ∧ Spinning lock' t' := by
  induction n generalizing lock t with
  | zero => exact ⟨lock, t, rfl, h⟩
  | succ n ih =>
    obtain ⟨lock', t', hstep, h'⟩ := h.step
    rw [Thread.steps, hstep]
    exact ih h'

/-- A process that runs alone comes back from `lock_acquire` if the lock is there, and only then. -/
theorem acquires_iff (al : UInt8) (zf : Bool) :
    (∃ n lock' t, steps n (lock, ⟨.outside, al, zf⟩) = some (lock', t) ∧ t.place = .inside) ↔ lock = 1 := by
  constructor
  · rintro ⟨n, lock', t, hsteps, hplace⟩
    by_contra hlock
    have hspin : Spinning lock ⟨.outside, al, zf⟩ := ⟨hlock, trivial⟩
    obtain ⟨lock'', t', hsteps', hlock', h⟩ := hspin.steps n
    obtain ⟨rfl, rfl⟩ := Prod.mk.inj (Option.some.inj (hsteps.symm.trans hsteps'))
    rw [hplace] at h
    exact h
  · rintro rfl
    exact ⟨7, 0, _, rfl, rfl⟩

end Thread

end BareKernel.Syncro

namespace BareKernel

open Function (update)
open Links Process

/-! ### The locks of the semaphores -/

/-- The kernel, with the lock of each semaphore. -/
structure LockedKernel extends Kernel where
  lock : ℤ → UInt8

namespace LockedKernel

/-- None, if the lock is not there: `lock_acquire` does not come back, for nobody else runs. -/
def lockAcquire (k : LockedKernel) (id : ℤ) : Option LockedKernel :=
  if k.lock id = 1 then some { k with lock := update k.lock id 0 } else none

def lockRelease (k : LockedKernel) (id : ℤ) : LockedKernel := { k with lock := update k.lock id 1 }

def setSem (k : LockedKernel) (id : ℤ) (s : Semaphore) : LockedKernel := { k with toKernel := k.toKernel.setSem id s }

def semOpen (k : LockedKernel) (id initialValue : ℤ) : Option (ℤ × LockedKernel) :=
  if id < 0 ∨ semMax ≤ id then some (-1, k)
  else do
    let k ← k.lockAcquire id
    if (k.sems id).value ≠ -1 then some (id, k.lockRelease id)
    else
      let value := initialValue.bmod (2 ^ 16)
      let k := k.setSem id { k.sems id with value := value, head := 0, tail := 0, count := 0 }
      some (id, k.lockRelease id)

def semClose (k : LockedKernel) (id : ℤ) : Option (ℤ × LockedKernel) :=
  if id < 0 ∨ semMax ≤ id then some (-1, k)
  else do
    let k ← k.lockAcquire id
    let s := k.sems id
    if s.value = -1 then some (-1, k.lockRelease id)
    else
      let (toWake, head) := s.drain s.count s.head
      let k := (k.setSem id { s with value := -1, head := head, count := 0 }).lockRelease id
      let c ← Kernel.wakeAll 0 toWake k.toCore
      some (0, { k with toCore := c })

def semPost (k : LockedKernel) (id : ℤ) : Option (ℤ × LockedKernel) :=
  if id < 0 ∨ semMax ≤ id then some (-1, k)
  else do
    let k ← k.lockAcquire id
    let s := k.sems id
    if s.value = -1 then some (-1, k.lockRelease id)
    else
      match s.popLive k.toCore s.count with
      | (some pid, s) =>
        let k := (k.setSem id s).lockRelease id
        let (_, c) ← unblockProcess k.toCore pid
        some (0, { k with toCore := c })
      | (none, s) => some (0, (k.setSem id { s with value := (s.value + 1).bmod (2 ^ 16) }).lockRelease id)

def semWait (k : LockedKernel) (id : ℤ) : Option (ℤ × LockedKernel × Bool) :=
  if id < 0 ∨ semMax ≤ id then some (-1, k, false)
  else
    let pid := k.pid k.currentProcess
    do
    let k ← k.lockAcquire id
    let s := k.sems id
    if s.value = -1 then some (-1, k.lockRelease id, false)
    else if s.value = 0 then
      if maxProcesses ≤ s.count then some (-1, k.lockRelease id, false)
      else
        let s := { s with waiting := update s.waiting s.tail pid }
        let s := { s with tail := (s.tail + 1) % maxProcesses, count := s.count + 1 }
        let k := (k.setSem id s).lockRelease id
        let (_, c) ← blockProcess k.toCore pid
        some (0, { k with toCore := c }, true)
    else some (0, (k.setSem id { s with value := (s.value - 1).bmod (2 ^ 16) }).lockRelease id, false)

def semGetValue (k : LockedKernel) (id : ℤ) : Option (ℤ × LockedKernel) :=
  if id < 0 ∨ semMax ≤ id then some (-1, k)
  else do
    let k ← k.lockAcquire id
    let v := (k.sems id).value
    some (v, k.lockRelease id)

variable {k : LockedKernel} {id : ℤ}

/-- What has taken the lock and gives it back has changed no lock. -/
theorem acquire_release (h : k.lock id = 1) (k' : Kernel) :
    lockRelease ⟨k', update k.lock id 0⟩ id = ⟨k', k.lock⟩ := by
  simp only [lockRelease, Function.update_idem, ← h, Function.update_eq_self]

theorem semOpen_eq (h : 0 ≤ id → id < semMax → k.lock id = 1) (v : ℤ) :
    k.semOpen id v = some ((k.toKernel.semOpen id v).1, ⟨(k.toKernel.semOpen id v).2, k.lock⟩) := by
  unfold semOpen Kernel.semOpen
  split
  · rfl
  · have hlock := h (by omega) (by omega)
    rw [lockAcquire, if_pos hlock, Option.bind_eq_bind, Option.bind_some]
    split
    · rw [acquire_release hlock]
    · dsimp only [setSem]
      rw [acquire_release hlock]

theorem semClose_eq (h : 0 ≤ id → id < semMax → k.lock id = 1) :
    k.semClose id = (k.toKernel.semClose id).map fun (r, k') => (r, ⟨k', k.lock⟩) := by
  unfold semClose Kernel.semClose
  split
  · rfl
  · have hlock := h (by omega) (by omega)
    rw [lockAcquire, if_pos hlock, Option.bind_eq_bind, Option.bind_some]
    dsimp only
    split
    · rw [acquire_release hlock]
      rfl
    · dsimp only [setSem]
      rw [acquire_release hlock]
      cases hwake : Kernel.wakeAll 0 ((k.sems id).drain (k.sems id).count (k.sems id).head).1 k.toCore <;>
        simp [hwake, Kernel.setSem]

theorem semPost_eq (h : 0 ≤ id → id < semMax → k.lock id = 1) :
    k.semPost id = (k.toKernel.semPost id).map fun (r, k') => (r, ⟨k', k.lock⟩) := by
  unfold semPost Kernel.semPost
  split
  · rfl
  · have hlock := h (by omega) (by omega)
    rw [lockAcquire, if_pos hlock, Option.bind_eq_bind, Option.bind_some]
    dsimp only
    split
    · rw [acquire_release hlock]
      rfl
    · cases hpop : (k.sems id).popLive k.toCore (k.sems id).count with
      | mk found s =>
      cases found with
      | some pid =>
        dsimp only [setSem]
        rw [acquire_release hlock]
        cases hunblock : unblockProcess k.toCore pid <;> simp [hunblock, Kernel.setSem]
      | none =>
        dsimp only [setSem]
        rw [acquire_release hlock]
        rfl

theorem semWait_eq (h : 0 ≤ id → id < semMax → k.lock id = 1) :
    k.semWait id = (k.toKernel.semWait id).map fun (r, k', again) => (r, ⟨k', k.lock⟩, again) := by
  unfold semWait Kernel.semWait
  split
  · rfl
  · have hlock := h (by omega) (by omega)
    rw [lockAcquire, if_pos hlock, Option.bind_eq_bind, Option.bind_some]
    dsimp only
    split
    · rw [acquire_release hlock]
      rfl
    · split
      · split
        · rw [acquire_release hlock]
          rfl
        · dsimp only [setSem]
          rw [acquire_release hlock]
          cases hblock : blockProcess k.toCore (k.pid k.currentProcess) <;> simp [hblock, Kernel.setSem]
      · dsimp only [setSem]
        rw [acquire_release hlock]
        rfl

theorem semGetValue_eq (h : 0 ≤ id → id < semMax → k.lock id = 1) :
    k.semGetValue id = some (if id < 0 ∨ semMax ≤ id then -1 else (k.sems id).value, k) := by
  unfold semGetValue
  split
  · rfl
  · have hlock := h (by omega) (by omega)
    rw [lockAcquire, if_pos hlock, Option.bind_eq_bind, Option.bind_some]
    dsimp only
    rw [acquire_release hlock]

end LockedKernel

/-- A call on a semaphore, or anything else that the kernel does. -/
inductive LockAction where
  | semOpen (id initialValue : ℤ)
  | semClose (id : ℤ)
  | semPost (id : ℤ)
  | semWait (id : ℤ)
  | semGetValue (id : ℤ)
  | other (k : Kernel)

/-- The call without its lock: what it returns and whether it goes on to the scheduler. -/
def Kernel.semAction (k : Kernel) : LockAction → Option (ℤ × Kernel × Bool)
  | .semOpen id v => some ((k.semOpen id v).1, (k.semOpen id v).2, false)
  | .semClose id => (k.semClose id).map fun (r, k) => (r, k, false)
  | .semPost id => (k.semPost id).map fun (r, k) => (r, k, false)
  | .semWait id => k.semWait id
  | .semGetValue id => some (if id < 0 ∨ semMax ≤ id then -1 else (k.sems id).value, k, false)
  | .other k' => some (0, k', false)

def LockedKernel.semAction (k : LockedKernel) : LockAction → Option (ℤ × LockedKernel × Bool)
  | .semOpen id v => (k.semOpen id v).map fun (r, k) => (r, k, false)
  | .semClose id => (k.semClose id).map fun (r, k) => (r, k, false)
  | .semPost id => (k.semPost id).map fun (r, k) => (r, k, false)
  | .semWait id => k.semWait id
  | .semGetValue id => (k.semGetValue id).map fun (r, k) => (r, k, false)
  | .other k' => some (0, { k with toKernel := k' }, false)

def LockedKernel.after (k : LockedKernel) (a : LockAction) : Option LockedKernel := (k.semAction a).map fun r => r.2.1

/-- Runs of the calls from `init_semaphores` on, which sets the locks. -/
def lockedSems : System LockedKernel LockAction where
  init k := ∀ id, 0 ≤ id → id < semMax → k.lock id = 1
  step k a k' := k.after a = some k'

theorem LockedKernel.semAction_eq {k : LockedKernel} (h : ∀ id, 0 ≤ id → id < semMax → k.lock id = 1)
    (a : LockAction) :
    k.semAction a = (k.toKernel.semAction a).map fun (r, k', again) => (r, ⟨k', k.lock⟩, again) := by
  cases a with
  | semOpen id v =>
    rw [semAction, semOpen_eq (h id)]
    rfl
  | semClose id =>
    rw [semAction, semClose_eq (h id), Kernel.semAction, Option.map_map, Option.map_map]
    rfl
  | semPost id =>
    rw [semAction, semPost_eq (h id), Kernel.semAction, Option.map_map, Option.map_map]
    rfl
  | semWait id => exact semWait_eq (h id)
  | semGetValue id =>
    rw [semAction, semGetValue_eq (h id)]
    rfl
  | other k' => rfl

/-- Every call gives back the lock that it has taken, on each way out and before it goes on
to the scheduler. So no call ever waits for a lock, and the calls do what they do without
the locks. -/
theorem sem_locks_released {k : LockedKernel} (hrun : lockedSems.Reach (fun _ _ => True) k) :
    (∀ id, 0 ≤ id → id < semMax → k.lock id = 1) ∧
    ∀ a, k.semAction a = (k.toKernel.semAction a).map fun (r, k', again) => (r, ⟨k', k.lock⟩, again) := by
  have hfree : ∀ id, 0 ≤ id → id < semMax → k.lock id = 1 := hrun.invariant (fun _ h => h)
    fun k a k' h _ hstep => by
      obtain ⟨⟨r, k', again⟩, hcall, rfl⟩ := Option.map_eq_some_iff.mp hstep
      rw [LockedKernel.semAction_eq h] at hcall
      obtain ⟨_, -, he⟩ := Option.map_eq_some_iff.mp hcall
      obtain ⟨-, rfl, -⟩ := he
      exact h
  exact ⟨hfree, fun a => LockedKernel.semAction_eq hfree a⟩

def freeLocks : LockedKernel := ⟨Machine.initial.toKernel, fun _ => 1⟩

/-- A semaphore is opened with one token, taken twice, posted and closed. -/
def usedLocks : LockedKernel :=
  (System.runList LockedKernel.after (fun _ _ => True) freeLocks
    [.semOpen 5 1, .semWait 5, .semWait 5, .semPost 5, .semClose 5]).getD freeLocks

theorem sem_locks_released_used :
    lockedSems.Reach (fun _ _ => True) usedLocks ∧ usedLocks.lock 5 = 1 ∧
      (usedLocks.semAction (.semOpen 5 1)).isSome = true := by
  have hinit : lockedSems.init freeLocks := fun _ _ _ => rfl
  have hreach : lockedSems.Reach (fun _ _ => True) usedLocks :=
    (System.Reach.init hinit).runList_getD (fun _ _ _ => id) (by decide +kernel)
  obtain ⟨hfree, hsame⟩ := sem_locks_released hreach
  refine ⟨hreach, hfree 5 (by decide) (by decide), ?_⟩
  rw [hsame]
  rfl

end BareKernel
