import BareKernel.Kernel.SemRefine
import BareKernel.Links.Tokens
import Mathlib.Data.BitVec

/-! Semaphores as locks. The tokens of a semaphore are at the semaphore or held by
processes whose waits have gone through, in every run of the kernel in which only
processes that hold a token post. With one token a variable that is read and written
back under the semaphore loses no update, however the processes are interrupted in
between. -/

namespace BareKernel

open Function (update)
open Process Links Machine

variable {m m₀ m' : Machine} {a : Action} {es : List (SemEvent ℕ)} {held : ℕ → ℕ} {p q v : ℕ} {id : ℤ}

/-- The wait of the process goes through in the step: at once, or because a post has
woken it. -/
def Gets (id : ℤ) (m : Machine) (a : Action) (m' : Machine) (p : ℕ) : Prop :=
  ¬Inside m' (.sem id) p ∧ (Inside m (.sem id) p ∨ .wait p ∈ semEvents id m a)

instance (id : ℤ) (m : Machine) (a : Action) (m' : Machine) (p : ℕ) : Decidable (Gets id m a m' p) :=
  inferInstanceAs (Decidable (_ ∧ _))

/-- How many tokens each process holds after a step. -/
def heldAfter (id : ℤ) (m : Machine) (a : Action) (m' : Machine) (held : ℕ → ℕ) (p : ℕ) : ℕ :=
  (held p - if .post ∈ semEvents id m a ∧ p = m.currentProcess then 1 else 0) + if Gets id m a m' p then 1 else 0

/-- A machine, and how many tokens of a semaphore each process has got and not posted. -/
structure Holding where
  machine : Machine
  held : ℕ → ℕ

def Holding.next (id : ℤ) (s : Holding) (a : Action) : Option Holding :=
  (s.machine.step a).map fun m => ⟨m, heldAfter id s.machine a m s.held⟩

/-- All interleavings, from a machine in which nobody holds a token on. -/
def tokens (id : ℤ) (m₀ : Machine) : System Holding Action where
  init s := s = ⟨m₀, fun _ => 0⟩
  step s a t := s.next id a = some t

/-- Who posts holds a token. -/
def Holding.PostsHeld (id : ℤ) (s : Holding) (a : Action) : Prop :=
  a.SharesSem s.machine id ∧ (.post ∈ semEvents id s.machine a → 0 < s.held s.machine.currentProcess)

instance (id : ℤ) (s : Holding) (a : Action) : Decidable (s.PostsHeld id a) := inferInstanceAs (Decidable (_ ∧ _))

/-- The semaphore follows the abstract one, whose tokens are accounted for. -/
def Guarded (id : ℤ) (v : ℕ) (m : Machine) (held : ℕ → ℕ) : Prop :=
  ∃ es, Tracks m id ((FifoSem.start v).run es) ∧ ((FifoSem.start v).run es).Accounted v held

theorem Holding.next_eq {s t : Holding} (h : s.next id a = some t) :
    s.machine.step a = some t.machine ∧ t.held = heldAfter id s.machine a t.machine s.held := by
  obtain ⟨m, hm, rfl⟩ := Option.map_eq_some_iff.mp h
  exact ⟨hm, rfl⟩

theorem Opened.lt (h : Opened m id v) : v < 2 ^ 15 := by
  rcases h with ⟨-, -, rfl⟩ | ⟨m₀, a, -, -, -, -, hv, -⟩
  · decide
  · exact hv

theorem Opened.guarded (h : Opened m id v) : Guarded id v m fun _ => 0 := ⟨[], h.tracks, .start v⟩

/-- Waits go through at the machine as they do at the abstract semaphore. -/
theorem Tracks.gets {s : FifoSem ℕ} {e : SemEvent ℕ} (h : Tracks m id s) (h' : Tracks m' id (s.step e))
    (he : semEvents id m a = [e]) (p : ℕ) : Gets id m a m' p ↔ s.Gets e p := by
  rw [Gets, FifoSem.Gets, ← h.waiting, ← h'.waiting, he, List.mem_singleton, eq_comm (a := SemEvent.wait p)]

theorem Tracks.gets_nobody {s : FifoSem ℕ} (h : Tracks m id s) (h' : Tracks m' id s) (he : semEvents id m a = [])
    (p : ℕ) : ¬Gets id m a m' p := by
  rintro ⟨hnot, hin | hwait⟩
  · exact hnot ((h'.waiting p).mp ((h.waiting p).mpr hin))
  · rw [he] at hwait
    exact List.not_mem_nil hwait

theorem Guarded.step (h : Guarded id v m held) (hv : v < 2 ^ 15) (hok : a.SharesSem m id)
    (hheld : .post ∈ semEvents id m a → 0 < held m.currentProcess) (hrun : m.step a = some m') :
    Guarded id v m' (heldAfter id m a m' held) := by
  obtain ⟨es, htracks, hacc⟩ := h
  set s := (FifoSem.start v).run es with hs
  have hidle : s.value ≠ 0 → s.waiting = [] := (FifoSem.run_lawful v es).idle
  have hmax : a.call = .semPost id → s.value + 1 < 2 ^ 15 := fun hc => by
    have hlt := hacc.value_lt (hheld (by simp [semEvents, hc]))
    omega
  have hnext := htracks.step hidle hmax hok hrun
  refine ⟨es ++ semEvents id m a, ?_, ?_⟩
  · rwa [FifoSem.run_append, ← hs]
  rw [FifoSem.run_append, ← hs]
  by_cases hwait : a.call = .semWait id
  · have he : semEvents id m a = [.wait m.currentProcess] := by simp [semEvents, hwait]
    rw [he] at hnext ⊢
    have hgets := htracks.gets hnext he
    refine hacc.wait hidle (fun b hb => ?_) fun b hb => ?_
    · simp [heldAfter, he, hgets, hb]
    · simp [heldAfter, he, hgets, hb]
  · by_cases hpost : a.call = .semPost id
    · have he : semEvents id m a = [.post] := by simp [semEvents, hpost]
      rw [he] at hnext ⊢
      have hgets := htracks.gets hnext he
      have hnodup : s.waiting.Nodup := by
        have hqueue := htracks.at'.exact.1
        rw [htracks.queue] at hqueue
        exact hqueue.of_map
      refine hacc.post (hheld (by simp [he])) hnodup (fun b hb => ?_) fun b hb => ?_
      · simp [heldAfter, he, hgets, hb]
      · simp [heldAfter, he, hgets, hb]
    · have he : semEvents id m a = [] := by
        unfold semEvents
        cases hc : a.call <;> simp_all
      rw [he] at hnext ⊢
      have hnone := htracks.gets_nobody hnext he
      have hsame : heldAfter id m a m' held = held := funext fun b => by simp [heldAfter, he, hnone b]
      rwa [hsame]

theorem Opened.guarded_run {s : Holding} (hopen : Opened m₀ id v)
    (hrun : (tokens id m₀).Reach (Holding.PostsHeld id) s) : Guarded id v s.machine s.held := by
  refine hrun.invariant (I := fun s => Guarded id v s.machine s.held) (fun s hs => ?_) fun s a t h hok hst => ?_
  · rw [hs]
    exact hopen.guarded
  · obtain ⟨hm, hheld⟩ := Holding.next_eq hst
    rw [hheld]
    exact h.step hopen.lt hok.1 hok.2 hm

/-- A semaphore that was opened with `v` tokens always has as many as are not in the
hands of processes; in particular a semaphore opened with one token is a lock, which at
most one process holds. Processes wait only while all tokens are held. -/
theorem sem_tokens_held {s : Holding} (hopen : Opened m₀ id v)
    (hrun : (tokens id m₀).Reach (Holding.PostsHeld id) s) :
    (∃ hs : Multiset ℕ, (∀ p, hs.count p = s.held p) ∧ hs.card + (s.machine.sems id).value = v) ∧
      (v = 1 → ∀ p q, 0 < s.held p → 0 < s.held q → p = q) ∧
      ∀ p, Inside s.machine (.sem id) p → (s.machine.sems id).value = 0 := by
  obtain ⟨es, htracks, hacc⟩ := hopen.guarded_run hrun
  refine ⟨?_, fun hone p q hp hq => ?_, fun p hp => ?_⟩
  · obtain ⟨hs, hcount, hcard⟩ := hacc
    exact ⟨hs, hcount, by rw [htracks.value]; omega⟩
  · subst hone
    exact hacc.unique hp hq
  · have hmem := (htracks.waiting p).mpr hp
    rw [htracks.value]
    by_contra hne
    rw [(FifoSem.run_lawful v es).idle (by omega)] at hmem
    exact List.not_mem_nil hmem

/-- Three processes, the first of which has opened a semaphore with one token. -/
def lockOpened : Machine := (threeProcesses.step (plain (.semOpen 5 1))).getD threeProcesses

theorem lockOpened_opened : Opened lockOpened 5 1 := by
  refine Or.inr ⟨threeProcesses, plain (.semOpen 5 1), boot_ran (by decide +kernel), ?_, by decide +kernel,
    ⟨rfl, rfl⟩, by decide, step_getD (by decide +kernel), by decide +kernel⟩
  rintro p ⟨⟨-, i, hi, rfl⟩, hwhy⟩
  have hnone : ∀ i < maxProcesses, threeProcesses.why (threeProcesses.processesList i) = none := by decide +kernel
  rw [hnone i hi] at hwhy
  cases hwhy

/-- The second process takes the lock, the third one waits for it and gets it. -/
def lockPassed : Holding :=
  (System.runList (Holding.next 5) (Holding.PostsHeld 5) ⟨lockOpened, fun _ => 0⟩
    [plain .tick, plain (.semWait 5), plain .tick, plain (.semWait 5), postSem 5]).getD ⟨lockOpened, fun _ => 0⟩

theorem sem_tokens_held_lockPassed :
    0 < lockPassed.held 301 ∧ (∀ q, 0 < lockPassed.held q → 301 = q) ∧
      ∃ hs : Multiset ℕ, (∀ p, hs.count p = lockPassed.held p) ∧ hs.card + (lockPassed.machine.sems 5).value = 1 := by
  have hinit : (tokens 5 lockOpened).Reach (Holding.PostsHeld 5) ⟨lockOpened, fun _ => 0⟩ := .init rfl
  have hrun : (tokens 5 lockOpened).Reach (Holding.PostsHeld 5) lockPassed :=
    hinit.runList_getD (fun _ _ _ => id) (by decide +kernel)
  have hheld : 0 < lockPassed.held 301 := by decide +kernel
  obtain ⟨hsum, hone, -⟩ := sem_tokens_held lockOpened_opened hrun
  exact ⟨hheld, fun q hq => hone rfl 301 q hheld hq, hsum⟩

/-! ### A shared variable -/

/-- A variable that processes share, the values that they have read and not yet written
back, and the increments that were written. -/
structure Shared extends Holding where
  global : BitVec 64
  aux : ℕ → Option (BitVec 64)
  added : List (BitVec 64)

inductive SharedAction where
  | kernel (a : Action)
  | load
  | store (inc : BitVec 64)

/-- The running process reads the variable, or writes back what it has read with an
increment; in between the kernel takes any step. -/
def Shared.next (id : ℤ) (s : Shared) : SharedAction → Option Shared
  | .kernel a => (s.toHolding.next id a).map fun h => { s with toHolding := h }
  | .load => some { s with aux := update s.aux s.machine.currentProcess (some s.global) }
  | .store inc => (s.aux s.machine.currentProcess).map fun aux => { s with
      global := aux + inc
      aux := update s.aux s.machine.currentProcess none
      added := inc :: s.added }

def sharing (id : ℤ) (m₀ : Machine) (start : BitVec 64) : System Shared SharedAction where
  init s := s = ⟨⟨m₀, fun _ => 0⟩, start, fun _ => none, []⟩
  step s a t := s.next id a = some t

/-- Between the wait and the post of a process lies its access to the variable. -/
def Shared.Protects (id : ℤ) (s : Shared) : SharedAction → Prop
  | .kernel a => s.toHolding.PostsHeld id a ∧ (.post ∈ semEvents id s.machine a → s.aux s.machine.currentProcess = none)
  | .load => 0 < s.held s.machine.currentProcess
  | .store _ => True

instance (id : ℤ) (s : Shared) (a : SharedAction) : Decidable (s.Protects id a) := by
  cases a <;> dsimp only [Shared.Protects] <;> infer_instance

/-- Whoever has read the variable holds the token and has read what is still there. -/
structure Consistent (id : ℤ) (start : BitVec 64) (s : Shared) : Prop where
  guarded : Guarded id 1 s.machine s.held
  reader : ∀ p x, s.aux p = some x → 0 < s.held p ∧ x = s.global
  sum : s.global = start + s.added.sum

theorem le_heldAfter (h : .post ∈ semEvents id m a → p ≠ m.currentProcess) : held p ≤ heldAfter id m a m' held p := by
  rw [heldAfter, if_neg fun hpost => h hpost.1 hpost.2]
  exact Nat.le_add_right ..

theorem Consistent.next {start : BitVec 64} {s t : Shared} {a : SharedAction} (h : Consistent id start s)
    (hok : s.Protects id a) (hst : s.next id a = some t) : Consistent id start t := by
  cases a with
  | kernel a =>
    obtain ⟨u, hu, rfl⟩ := Option.map_eq_some_iff.mp hst
    obtain ⟨hm, hheld⟩ := Holding.next_eq hu
    refine ⟨?_, fun p x hx => ?_, h.sum⟩
    · show Guarded id 1 u.machine u.held
      rw [hheld]
      exact h.guarded.step (by decide) hok.1.1 hok.1.2 hm
    · obtain ⟨hpos, hread⟩ := h.reader p x hx
      refine ⟨?_, hread⟩
      show 0 < u.held p
      rw [hheld]
      refine lt_of_lt_of_le hpos (le_heldAfter fun hpost hp => ?_)
      rw [hp, hok.2 hpost] at hx
      cases hx
  | load =>
    obtain rfl := Option.some.inj hst
    refine ⟨h.guarded, fun p x hx => ?_, h.sum⟩
    dsimp only at hx
    by_cases hp : p = s.machine.currentProcess
    · rw [hp, Function.update_self] at hx
      rw [hp]
      exact ⟨hok, (Option.some.inj hx).symm⟩
    · rw [Function.update_of_ne hp] at hx
      exact h.reader p x hx
  | store inc =>
    obtain ⟨x, hx, rfl⟩ := Option.map_eq_some_iff.mp hst
    obtain ⟨hpos, rfl⟩ := h.reader _ x hx
    refine ⟨h.guarded, fun p y hy => ?_, ?_⟩
    · -- nobody else can have read it
      dsimp only at hy
      by_cases hp : p = s.machine.currentProcess
      · rw [hp, Function.update_self] at hy
        cases hy
      · rw [Function.update_of_ne hp] at hy
        obtain ⟨es, -, hacc⟩ := h.guarded
        exact absurd (hacc.unique (h.reader p y hy).1 hpos) hp
    · show s.global + inc = start + (inc :: s.added).sum
      rw [List.sum_cons, h.sum, BitVec.add_assoc, BitVec.add_comm inc]

/-- No update is lost: the variable holds the sum of all increments, whatever the other
processes do between a read and the write behind it. -/
theorem shared_updates_kept {start : BitVec 64} {s : Shared} (hopen : Opened m₀ id 1)
    (hrun : (sharing id m₀ start).Reach (Shared.Protects id) s) :
    s.global = start + s.added.sum ∧ ∀ p x, s.aux p = some x → x = s.global := by
  have hall : Consistent id start s := hrun.invariant (I := Consistent id start)
    (fun s hs => by
      rw [hs]
      exact ⟨hopen.guarded, nofun, (BitVec.add_zero start).symm⟩)
    fun s a t h hok hst => h.next hok hst
  exact ⟨hall.sum, fun p x hx => (hall.reader p x hx).2⟩

/-- The second process has read the variable and is interrupted; the third one waits behind it. -/
def interruptedReader : Shared :=
  (System.runList (Shared.next 5) (Shared.Protects 5) ⟨⟨lockOpened, fun _ => 0⟩, 7, fun _ => none, []⟩
    [.kernel (plain .tick), .kernel (plain (.semWait 5)), .load, .kernel (plain .tick), .kernel (plain (.semWait 5)),
      .store 1]).getD ⟨⟨lockOpened, fun _ => 0⟩, 7, fun _ => none, []⟩

theorem shared_updates_kept_interrupted :
    interruptedReader.added = [1] ∧ interruptedReader.global = 7 + interruptedReader.added.sum := by
  have hinit : (sharing 5 lockOpened 7).Reach (Shared.Protects 5) ⟨⟨lockOpened, fun _ => 0⟩, 7, fun _ => none, []⟩ :=
    .init rfl
  have hrun : (sharing 5 lockOpened 7).Reach (Shared.Protects 5) interruptedReader :=
    hinit.runList_getD (fun _ _ _ => id) (by decide +kernel)
  exact ⟨by decide +kernel, (shared_updates_kept lockOpened_opened hrun).1⟩

end BareKernel
