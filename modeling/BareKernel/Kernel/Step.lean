import BareKernel.Kernel.CallEffect

/-! The effect of every call, and the steps of the machine: the call, and then the
scheduler if the call goes on to it. -/

namespace BareKernel

open Function (update)
open Process Links

variable {k k' k₁ : Kernel} {c c' : Core} {m m' : Machine} {a : Action} {call : Call} {L E : List ℕ}
  {p q n : ℕ} {pid r id : ℤ} {again : Bool}

/-! ### Sleeping and ticks -/

theorem sysSleep_cases (hrun : k.sysSleep n = some (r, k', again)) :
    (again = false ∧ k' = k ∧ k.currentProcess = 0) ∨
      again = true ∧ k.currentProcess ≠ 0 ∧ ∃ k₁ v c,
        k.sleepQueueAdd k.currentProcess ((k.ticksElapsed + n) % 2 ^ 64).toNat = some k₁ ∧
        Process.blockProcess k₁.toCore (k₁.pid k₁.currentProcess) = some (v, c) ∧
        k' = { k₁ with toCore := c } := by
  unfold Kernel.sysSleep at hrun
  by_cases hcur : k.currentProcess = 0
  · rw [if_pos hcur] at hrun
    obtain ⟨-, rfl, rfl⟩ : -1 = r ∧ k = k' ∧ false = again := by simpa using hrun
    exact Or.inl ⟨rfl, rfl, hcur⟩
  · rw [if_neg hcur] at hrun
    obtain ⟨k₁, hadd, hrun⟩ := Option.bind_eq_some_iff.mp hrun
    obtain ⟨⟨v, c⟩, hblock, hret⟩ := Option.bind_eq_some_iff.mp hrun
    obtain ⟨-, rfl, rfl⟩ : 0 = r ∧ _ = k' ∧ true = again := by simpa using hret
    exact Or.inr ⟨rfl, hcur, k₁, v, c, hadd, hblock, rfl⟩

theorem sysSleep_call (h : KernelInv k) (hrun : k.sysSleep n = some (r, k', again)) :
    (again = false ∧ k' = k ∧ k.currentProcess = 0) ∨
      again = true ∧ k.currentProcess ≠ 0 ∧ KernelInv k' ∧
        Effect k.toCore k'.toCore nobody (Blocks k.toCore (k.pid k.currentProcess)) nobody nobody := by
  rcases sysSleep_cases hrun with hsame | ⟨rfl, hcur, k₁, v, c, hadd, hblock, rfl⟩
  · exact Or.inl hsame
  · refine Or.inr ⟨rfl, hcur, ?_⟩
    obtain ⟨L, hL⟩ := h.ready
    obtain ⟨E, hE⟩ := h.sleepers
    obtain ⟨answers, live, s, hadd', hlive, hlist⟩ :=
      sleepQueueAdd_spec hE k.currentProcess ((k.ticksElapsed + n) % 2 ^ 64).toNat
    obtain rfl := Option.some.inj (hadd'.symm.trans hadd)
    have hsleepers : ∃ E', Sleepers { k with answers := answers, live := live, toSleepQueue := s } E' := by
      rcases hlist with ⟨-, rfl, rfl⟩ | ⟨e, A, B, -, -, -, -, -, -, -, -, hS⟩
      · exact ⟨E, hE.congr rfl rfl⟩
      · exact ⟨_, hS⟩
    have hrecords : ∀ p, InTable k.toCore p → p ∈ live .record := by
      intro p hp
      rw [hlive .record (by simp)]
      exact hL.records p hp
    have hinv : KernelInv { k with answers := answers, live := live, toSleepQueue := s } :=
      ⟨⟨L, hL.congr rfl rfl rfl rfl (hlive .node (by simp)) hrecords⟩, h.pids.congr rfl rfl rfl, hsleepers⟩
    obtain ⟨hinv', heff⟩ := blockProcess_call hinv hblock
    exact ⟨hinv', ⟨heff.currentProcess, heff.inTable, heff.pid, heff.stackPointer, heff.ends, heff.births,
      heff.wakes, heff.halts, heff.state⟩⟩

/-- The tick count that the next tick compares with. -/
def Kernel.tickNow (k : Kernel) : ℕ :=
  ({ k with ticks := (k.ticks + 1) % 2 ^ 64 }.ticksElapsed % 2 ^ 64).toNat

theorem timerHandler_call (h : KernelInv k) (hE : Sleepers k E) (hrun : k.timerHandler = some k') :
    KernelInv k' ∧ Woke k.toCore k'.toCore (DueWakes k k.tickNow E) ∧
      Sleepers k' (E.filter (Stays k k.tickNow)) ∧ k'.entryProc = k.entryProc ∧
      k'.wakeTick = k.wakeTick ∧ k'.sems = k.sems := by
  obtain ⟨L, hL⟩ := h.ready
  set k₁ : Kernel := { k with ticks := (k.ticks + 1) % 2 ^ 64 } with hk₁
  have hE₁ : Sleepers k₁ ([] ++ E) := hE.congr rfl rfl
  have hhead : k₁.sleepList = E.head?.getD 0 := hE.chain.head_eq
  have hrun' : Kernel.sleepTick k.tickNow k₁.sleepFuel 0 k₁.sleepList k₁ = some k' := hrun
  rw [hhead] at hrun'
  obtain ⟨c', s, rfl, hproc, htick, hwoke, hlive, hsleep⟩ :=
    sleepTick_spec (A := []) hE₁ (show ReadyInv k₁.toCore L from hL) hE₁.length_lt hrun'
  obtain ⟨L', hL'⟩ := hwoke.ready
  exact ⟨⟨⟨L', hL'⟩, hwoke.pidInv h.pids, _, hsleep⟩, hwoke, hsleep, hproc, htick, rfl⟩

/-! ### Every call -/

namespace Call

/-- The processes that the call makes ready. -/
def wakes (k : Kernel) : Call → ℕ → Prop
  | .unblockProcess pid, q => Wakes k.toCore pid q
  | .killProcess pid, q =>
    (3 ≤ pid ∧ InTable k.toCore (getProcessByPid k.toCore pid)) ∧
      WakesParent k.toCore (getProcessByPid k.toCore pid) q
  | .exitProcess, q => InTable k.toCore k.currentProcess ∧ WakesParent k.toCore k.currentProcess q
  | .semClose id, q =>
    k.IsOpen id ∧ SlotWakes k.toCore 0 ((k.sems id).drain (k.sems id).count (k.sems id).head).1 q
  | .semPost id, q =>
    k.IsOpen id ∧ ∃ pid, ((k.sems id).popLive k.toCore (k.sems id).count).1 = some pid ∧ Wakes k.toCore pid q
  | .tick, q => DueWakes k k.tickNow k.sleepEntries q
  | _, _ => False

instance (k : Kernel) (call : Call) (q : ℕ) : Decidable (call.wakes k q) :=
  match call with
  | .semPost id =>
    decidable_of_iff (k.IsOpen id ∧ ∃ pid ∈ ((k.sems id).popLive k.toCore (k.sems id).count).1,
      Wakes k.toCore pid q) Iff.rfl
  | .unblockProcess _ | .killProcess _ | .exitProcess | .semClose _ | .tick => by
    unfold wakes
    infer_instance
  | .createProcess _ | .blockProcess _ | .quitCPU | .wait | .semOpen _ _ | .semWait _ | .sysSleep _
  | .createPipe | .pipeClose _ | .callScheduler => inferInstanceAs (Decidable False)

/-- The processes that the call blocks. -/
def halts (k : Kernel) : Call → ℕ → Prop
  | .blockProcess pid, q => Blocks k.toCore pid q
  | .wait, q => 0 < k.childrenLength k.currentProcess ∧ Blocks k.toCore (k.pid k.currentProcess) q
  | .semWait id, q => k.WaitsAt id ∧ Blocks k.toCore (k.pid k.currentProcess) q
  | .sysSleep _, q => k.currentProcess ≠ 0 ∧ Blocks k.toCore (k.pid k.currentProcess) q
  | _, _ => False

/-- The processes that the call ends. -/
def ends (k : Kernel) : Call → ℕ → Prop
  | .killProcess pid, q =>
    (3 ≤ pid ∧ InTable k.toCore (getProcessByPid k.toCore pid)) ∧ q = getProcessByPid k.toCore pid
  | .exitProcess, q => InTable k.toCore k.currentProcess ∧ q = k.currentProcess
  | _, _ => False

instance (k : Kernel) (call : Call) (q : ℕ) : Decidable (call.ends k q) := by
  apply Call.casesOn (motive := fun call => Decidable (call.ends k q)) call <;>
    intros <;> dsimp only [ends] <;> infer_instance

/-- A process is created only when the table has a free slot, and a process that is
gone does not exit once more while another one has its pid. -/
def Orderly (k : Kernel) : Call → Prop
  | .createProcess _ => ∃ i < maxProcesses, k.processesList i = 0
  | .exitProcess => InTable k.toCore k.currentProcess ∨ foundprocess k.toCore (k.pid k.currentProcess) = none
  | _ => True

instance (k : Kernel) (call : Call) : Decidable (call.Orderly k) := by
  apply Call.casesOn (motive := fun call => Decidable (call.Orderly k)) call <;>
    intros <;> dsimp only [Orderly] <;> infer_instance

end Call

theorem Effect.congr {w h g b w' h' g' b' : ℕ → Prop} (he : Effect c c' w h g b) (hw : ∀ q, w' q ↔ w q)
    (hh : ∀ q, h' q ↔ h q) (hg : ∀ q, g' q ↔ g q) (hb : ∀ q, b' q ↔ b q) : Effect c c' w' h' g' b' := by
  obtain rfl : w' = w := funext fun q => propext (hw q)
  obtain rfl : h' = h := funext fun q => propext (hh q)
  obtain rfl : g' = g := funext fun q => propext (hg q)
  obtain rfl : b' = b := funext fun q => propext (hb q)
  exact he

/-- A call other than `quitCPU` keeps the invariant and touches the processes it names. -/
theorem call_effect (h : KernelInv k) (hok : call.Orderly k) (hq : call ≠ .quitCPU)
    (hrun : k.call call = some (r, k', again)) :
    KernelInv k' ∧
      Effect k.toCore k'.toCore (call.wakes k) (call.halts k) (call.ends k) (call.births k) := by
  have hsame : Effect k.toCore k.toCore nobody nobody nobody nobody := .same rfl rfl rfl rfl rfl
  cases call with
  | createProcess args =>
    obtain ⟨⟨v, k₁⟩, hcall, hret⟩ := Option.map_eq_some_iff.mp hrun
    obtain ⟨-, rfl, -⟩ : v = r ∧ k₁ = k' ∧ false = again := by simpa using hret
    obtain ⟨hinv, heff, -⟩ := createProcess_call h hok hcall
    exact ⟨hinv, heff⟩
  | blockProcess pid =>
    obtain ⟨⟨v, c⟩, hcall, hret⟩ := Option.map_eq_some_iff.mp hrun
    obtain ⟨-, rfl, -⟩ : v = r ∧ _ = k' ∧ false = again := by simpa using hret
    exact blockProcess_call h hcall
  | unblockProcess pid =>
    obtain ⟨⟨v, c⟩, hcall, hret⟩ := Option.map_eq_some_iff.mp hrun
    obtain ⟨-, rfl, -⟩ : v = r ∧ _ = k' ∧ false = again := by simpa using hret
    obtain ⟨hinv, hwoke⟩ := unblockProcess_call h hcall
    exact ⟨hinv, hwoke.effect⟩
  | killProcess pid =>
    obtain ⟨⟨v, c, b⟩, hcall, hret⟩ := Option.map_eq_some_iff.mp hrun
    obtain ⟨-, rfl, rfl⟩ : v = r ∧ _ = k' ∧ b = again := by simpa using hret
    rcases killProcess_call h hcall with ⟨-, rfl, hno⟩ | ⟨-, hlow, hin, hinv, hrem⟩
    · exact ⟨h, hsame.congr (fun q => by simp [Call.wakes, nobody, hno]) (fun q => Iff.rfl)
        (fun q => by simp [Call.ends, nobody, hno]) fun q => Iff.rfl⟩
    · exact ⟨hinv, hrem.effect.congr (fun q => by simp [Call.wakes, hlow, hin]) (fun q => Iff.rfl)
        (fun q => by simp [Call.ends, hlow, hin]) fun q => Iff.rfl⟩
  | exitProcess =>
    obtain ⟨k₁, hcall, hret⟩ := Option.map_eq_some_iff.mp hrun
    obtain ⟨-, rfl, -⟩ : 0 = r ∧ k₁ = k' ∧ true = again := by simpa using hret
    obtain ⟨hinv, heff, -⟩ := exitProcess_call h hok hcall
    exact ⟨hinv, heff⟩
  | quitCPU => exact absurd rfl hq
  | wait =>
    rcases wait_call h hrun with ⟨-, rfl, hno⟩ | ⟨-, hc, hinv, heff, -⟩
    · exact ⟨h, hsame.congr (fun q => Iff.rfl) (fun q => by simp [Call.halts, nobody, hno])
        (fun q => Iff.rfl) fun q => Iff.rfl⟩
    · exact ⟨hinv, heff.congr (fun q => Iff.rfl) (fun q => by simp [Call.halts, hc]) (fun q => Iff.rfl)
        fun q => Iff.rfl⟩
  | semOpen id v =>
    obtain ⟨-, rfl, -⟩ : _ = r ∧ (k.semOpen id v).2 = k' ∧ false = again := by simpa [Kernel.call] using hrun
    obtain ⟨sems, hopen⟩ := semOpen_eq k id v
    rw [hopen]
    exact ⟨h.congr rfl rfl, hsame⟩
  | semClose id =>
    obtain ⟨⟨v, k₁⟩, hcall, hret⟩ := Option.map_eq_some_iff.mp hrun
    obtain ⟨-, rfl, -⟩ : v = r ∧ k₁ = k' ∧ false = again := by simpa using hret
    rcases semClose_cases hcall with ⟨hno, -, rfl⟩ | ⟨ho, -, c, hwake, rfl⟩
    · exact ⟨h, hsame.congr (fun q => by simp [Call.wakes, nobody, hno]) (fun q => Iff.rfl)
        (fun q => Iff.rfl) fun q => Iff.rfl⟩
    · obtain ⟨L, hL⟩ := h.ready
      obtain ⟨hwoke, hlive⟩ := wakeAll_woke hL hwake
      obtain ⟨L', hL'⟩ := hwoke.ready
      have hinv := h.setCore hL' (hwoke.pidInv h.pids) (hlive .sleepEntry (by simp))
      exact ⟨hinv.congr rfl rfl, hwoke.effect.congr (fun q => by simp [Call.wakes, ho]) (fun q => Iff.rfl)
        (fun q => Iff.rfl) fun q => Iff.rfl⟩
  | semPost id =>
    obtain ⟨⟨v, k₁⟩, hcall, hret⟩ := Option.map_eq_some_iff.mp hrun
    obtain ⟨-, rfl, -⟩ : v = r ∧ k₁ = k' ∧ false = again := by simpa using hret
    rcases semPost_cases hcall with ⟨hno, -, rfl⟩ | ⟨ho, -, ⟨pid, s, w, c, hpop, hun, rfl⟩ | ⟨s, hpop, rfl⟩⟩
    · exact ⟨h, hsame.congr (fun q => by simp [Call.wakes, nobody, hno]) (fun q => Iff.rfl)
        (fun q => Iff.rfl) fun q => Iff.rfl⟩
    · obtain ⟨hinv, hwoke⟩ := unblockProcess_call h hun
      exact ⟨hinv.congr rfl rfl, hwoke.effect.congr (fun q => by simp [Call.wakes, ho, hpop])
        (fun q => Iff.rfl) (fun q => Iff.rfl) fun q => Iff.rfl⟩
    · exact ⟨h.congr rfl rfl, hsame.congr (fun q => by simp [Call.wakes, nobody, hpop]) (fun q => Iff.rfl)
        (fun q => Iff.rfl) fun q => Iff.rfl⟩
  | semWait id =>
    rcases semWait_cases hrun with ⟨-, -, rfl, hno⟩ | ⟨-, -, -, hno, rfl⟩ | ⟨-, -, hw, v, c, hblock, rfl⟩
    · have hnot : ¬k'.WaitsAt id := fun hw => absurd (hno hw.1).2 (not_le.mpr hw.2.2)
      exact ⟨h, hsame.congr (fun q => Iff.rfl) (fun q => by simp [Call.halts, nobody, hnot])
        (fun q => Iff.rfl) fun q => Iff.rfl⟩
    · have hnot : ¬k.WaitsAt id := fun hw => hno hw.2.1
      exact ⟨h.congr rfl rfl, hsame.congr (fun q => Iff.rfl) (fun q => by simp [Call.halts, nobody, hnot])
        (fun q => Iff.rfl) fun q => Iff.rfl⟩
    · obtain ⟨hinv, heff⟩ := blockProcess_call h hblock
      exact ⟨hinv.congr rfl rfl, heff.congr (fun q => Iff.rfl) (fun q => by simp [Call.halts, hw])
        (fun q => Iff.rfl) fun q => Iff.rfl⟩
  | sysSleep n =>
    rcases sysSleep_call h hrun with ⟨-, rfl, hno⟩ | ⟨-, hcur, hinv, heff⟩
    · exact ⟨h, hsame.congr (fun q => Iff.rfl) (fun q => by simp [Call.halts, nobody, hno])
        (fun q => Iff.rfl) fun q => Iff.rfl⟩
    · exact ⟨hinv, heff.congr (fun q => Iff.rfl) (fun q => by simp [Call.halts, hcur]) (fun q => Iff.rfl)
        fun q => Iff.rfl⟩
  | createPipe =>
    obtain ⟨-, rfl, -⟩ : _ = r ∧ k.createPipe.2 = k' ∧ false = again := by simpa [Kernel.call] using hrun
    obtain ⟨sems, honly⟩ := createPipe_only k
    exact ⟨honly.inv (h.congr rfl rfl), honly.effect⟩
  | pipeClose fd =>
    obtain ⟨-, rfl, -⟩ : _ = r ∧ (k.pipeClose fd).2 = k' ∧ false = again := by simpa [Kernel.call] using hrun
    exact ⟨(pipeClose_only k fd).inv h, (pipeClose_only k fd).effect⟩
  | tick =>
    obtain ⟨k₁, hcall, hret⟩ := Option.map_eq_some_iff.mp hrun
    obtain ⟨-, rfl, -⟩ : 0 = r ∧ k₁ = k' ∧ true = again := by simpa using hret
    obtain ⟨E, hE⟩ := h.sleepers
    obtain ⟨hinv, hwoke, -⟩ := timerHandler_call h hE hcall
    rw [← hE.entries_eq] at hwoke
    exact ⟨hinv, hwoke.effect⟩
  | callScheduler =>
    obtain ⟨-, rfl, -⟩ : 0 = r ∧ k = k' ∧ true = again := by simpa [Kernel.call] using hrun
    exact ⟨h, hsame⟩

/-! ### What a call leaves alone -/

/-- The semaphore that a call works on. -/
def Call.sem : Call → Option ℤ
  | .semOpen id _ | .semClose id | .semPost id | .semWait id => some id
  | _ => none

/-- The call edits the sleep list. -/
def Call.sleeps : Call → Bool
  | .sysSleep _ | .tick => true
  | _ => false

theorem setSem_self (k : Kernel) (id : ℤ) (s : Semaphore) : (k.setSem id s).sems id = s := Function.update_self ..

theorem setSem_of_ne {s : Semaphore} {i : ℤ} (h : id ≠ i) : (k.setSem i s).sems id = k.sems id :=
  Function.update_of_ne h ..

theorem sleepQueueAdd_others {w : ℕ} (h : k.sleepQueueAdd q w = some k') :
    k'.sems = k.sems ∧ k'.ticks = k.ticks := by
  rcases sleepQueueAdd_cases h with ⟨rest, rfl⟩ | ⟨rest, e, s, rfl⟩ <;> exact ⟨rfl, rfl⟩

theorem sleepTick_others {now fuel prev cur : ℕ} (h : Kernel.sleepTick now fuel prev cur k = some k') :
    k'.sems = k.sems ∧ k'.ticks = k.ticks :=
  sleepTick_induction (R := fun k k' => k'.sems = k.sems ∧ k'.ticks = k.ticks) (fun _ => ⟨rfl, rfl⟩)
    (fun _ _ _ h h' => ⟨h'.1.trans h.1, h'.2.trans h.2⟩) (fun _ _ _ _ => ⟨rfl, rfl⟩)
    (fun _ _ _ _ _ _ _ => ⟨rfl, rfl⟩) h

theorem wait_others (h : k.wait = some (r, k', again)) :
    k'.sems = k.sems ∧ k'.toSleepQueue = k.toSleepQueue ∧ k'.ticks = k.ticks := by
  rcases wait_cases h with ⟨-, rfl, -⟩ | ⟨-, -, v, c, -, rfl⟩ <;> exact ⟨rfl, rfl, rfl⟩

/-- A call changes at most the semaphore that it works on, only sleeping and ticks edit
the sleep list, and only ticks count. -/
theorem call_others (hcall : k.call call = some (r, k', again)) :
    (call ≠ .createPipe → ∀ id, call.sem ≠ some id → k'.sems id = k.sems id) ∧
      (call.sleeps = false → k'.toSleepQueue = k.toSleepQueue) ∧ (call ≠ .tick → k'.ticks = k.ticks) := by
  cases call with
  | createProcess args =>
    obtain ⟨⟨v, k₁⟩, hrun, hret⟩ := Option.map_eq_some_iff.mp hcall
    obtain ⟨-, rfl, -⟩ : v = r ∧ k₁ = k' ∧ false = again := by simpa using hret
    rcases createProcess_cases hrun with ⟨-, -, answers, live, rfl, -⟩ | ⟨p, answers, live, c, -, -, -, -, -, -, rfl, -⟩
    · exact ⟨fun _ _ _ => rfl, fun _ => rfl, fun _ => rfl⟩
    · obtain ⟨waiting, honly⟩ := openProcess_only { k with toCore := c } k.currentProcess p
      exact ⟨fun _ _ _ => by rw [honly.sems], fun _ => honly.sleep, fun _ => honly.ticks⟩
  | exitProcess =>
    obtain ⟨k₁, hrun, hret⟩ := Option.map_eq_some_iff.mp hcall
    obtain ⟨-, rfl, -⟩ : 0 = r ∧ k₁ = k' ∧ true = again := by simpa using hret
    obtain ⟨v, c, k₂, -, honly, rfl⟩ := exitProcess_cases hrun
    exact ⟨fun _ _ _ => congrFun honly.sems _, fun _ => honly.sleep, fun _ => honly.ticks⟩
  | blockProcess pid | unblockProcess pid | killProcess pid | quitCPU =>
    obtain ⟨v, -, hret⟩ := Option.map_eq_some_iff.mp hcall
    have hk : _ = k' := congrArg (fun x => x.2.1) hret
    rw [← hk]
    exact ⟨fun _ _ _ => rfl, fun _ => rfl, fun _ => rfl⟩
  | wait =>
    obtain ⟨hsems, hsleep, hticks⟩ := wait_others hcall
    exact ⟨fun _ _ _ => by rw [hsems], fun _ => hsleep, fun _ => hticks⟩
  | semOpen i v =>
    obtain ⟨-, rfl, -⟩ : _ = r ∧ (k.semOpen i v).2 = k' ∧ false = again := by simpa [Kernel.call] using hcall
    obtain ⟨sems, hopen⟩ := semOpen_eq k i v
    refine ⟨fun _ id hid => ?_, fun _ => by rw [hopen], fun _ => by rw [hopen]⟩
    have hi : id ≠ i := fun he => hid (congrArg some he.symm)
    rcases semOpen_cases k i v with hsame | ⟨-, hset⟩
    · rw [hsame]
    · rw [hset]
      exact setSem_of_ne hi
  | semClose i =>
    obtain ⟨⟨v, k₁⟩, hrun, hret⟩ := Option.map_eq_some_iff.mp hcall
    obtain ⟨-, rfl, -⟩ : v = r ∧ k₁ = k' ∧ false = again := by simpa using hret
    rcases semClose_cases hrun with ⟨-, -, rfl⟩ | ⟨-, -, c, -, rfl⟩
    · exact ⟨fun _ _ _ => rfl, fun _ => rfl, fun _ => rfl⟩
    · exact ⟨fun _ id hid => setSem_of_ne fun he => hid (congrArg some he.symm), fun _ => rfl, fun _ => rfl⟩
  | semPost i =>
    obtain ⟨⟨v, k₁⟩, hrun, hret⟩ := Option.map_eq_some_iff.mp hcall
    obtain ⟨-, rfl, -⟩ : v = r ∧ k₁ = k' ∧ false = again := by simpa using hret
    rcases semPost_cases hrun with ⟨-, -, rfl⟩ | ⟨-, -, ⟨pid, s, w, c, -, -, rfl⟩ | ⟨s, -, rfl⟩⟩
    · exact ⟨fun _ _ _ => rfl, fun _ => rfl, fun _ => rfl⟩
    · exact ⟨fun _ id hid => setSem_of_ne fun he => hid (congrArg some he.symm), fun _ => rfl, fun _ => rfl⟩
    · exact ⟨fun _ id hid => setSem_of_ne fun he => hid (congrArg some he.symm), fun _ => rfl, fun _ => rfl⟩
  | semWait i =>
    rcases semWait_cases hcall with ⟨-, -, rfl, -⟩ | ⟨-, -, -, -, rfl⟩ | ⟨-, -, -, v, c, -, rfl⟩
    · exact ⟨fun _ _ _ => rfl, fun _ => rfl, fun _ => rfl⟩
    · exact ⟨fun _ id hid => setSem_of_ne fun he => hid (congrArg some he.symm), fun _ => rfl, fun _ => rfl⟩
    · exact ⟨fun _ id hid => setSem_of_ne fun he => hid (congrArg some he.symm), fun _ => rfl, fun _ => rfl⟩
  | sysSleep n =>
    rcases sysSleep_cases hcall with ⟨-, rfl, -⟩ | ⟨-, -, k₁, v, c, hadd, -, rfl⟩
    · exact ⟨fun _ _ _ => rfl, nofun, fun _ => rfl⟩
    · obtain ⟨hsems, hticks⟩ := sleepQueueAdd_others hadd
      exact ⟨fun _ id _ => congrFun hsems id, nofun, fun _ => hticks⟩
  | createPipe =>
    obtain ⟨-, rfl, -⟩ : _ = r ∧ k.createPipe.2 = k' ∧ false = again := by simpa [Kernel.call] using hcall
    obtain ⟨sems, honly⟩ := createPipe_only k
    exact ⟨fun hne => absurd rfl hne, fun _ => honly.sleep, fun _ => honly.ticks⟩
  | pipeClose fd =>
    obtain ⟨-, rfl, -⟩ : _ = r ∧ (k.pipeClose fd).2 = k' ∧ false = again := by simpa [Kernel.call] using hcall
    have honly := pipeClose_only k fd
    exact ⟨fun _ _ _ => by rw [honly.sems], fun _ => honly.sleep, fun _ => honly.ticks⟩
  | tick =>
    obtain ⟨k₁, hrun, hret⟩ := Option.map_eq_some_iff.mp hcall
    obtain ⟨-, rfl, -⟩ : 0 = r ∧ k₁ = k' ∧ true = again := by simpa using hret
    exact ⟨fun _ id _ => congrFun (sleepTick_others hrun).1 id, nofun, fun hne => absurd rfl hne⟩
  | callScheduler =>
    obtain ⟨-, rfl, -⟩ : 0 = r ∧ k = k' ∧ true = again := by simpa [Kernel.call] using hcall
    exact ⟨fun _ _ _ => rfl, fun _ => rfl, fun _ => rfl⟩

/-! ### The scheduler -/

/-- What the scheduler does when the ring is not empty. -/
structure Scheduled (c c' : Core) (sp sp' : StackPtr) : Prop extends Dispatch c c' where
  returned : sp' = c'.stackPointer c'.currentProcess
  inTable : InTable c' c'.currentProcess
  running : c'.state c'.currentProcess = .running
  runnable : c.state c'.currentProcess = .ready ∨ c.state c'.currentProcess = .running
  stackPointer : c'.stackPointer =
    if c.state c.currentProcess = .blocked ∨ c.state c.currentProcess = .running
    then update c.stackPointer c.currentProcess sp else c.stackPointer
  state : c'.state = update (if c.state c.currentProcess = .running
    then update c.state c.currentProcess .ready else c.state) c'.currentProcess .running

theorem scheduler_call (h : KernelInv k) {sp sp' : StackPtr} (hrun : scheduler k.toCore sp = some (sp', c)) :
    KernelInv { k with toCore := c } ∧
      ((k.readyList = 0 ∧ sp' = sp ∧ c = k.toCore) ∨ k.readyList ≠ 0 ∧ Scheduled k.toCore c sp sp') := by
  obtain ⟨L, hL⟩ := h.ready
  by_cases hne : k.readyList = 0
  · have hself : scheduler k.toCore sp = some (sp, k.toCore) := by rw [scheduler, if_pos hne]
    obtain ⟨rfl, rfl⟩ : sp = sp' ∧ k.toCore = c := by simpa using hself.symm.trans hrun
    exact ⟨h, Or.inl ⟨hne, rfl, rfl⟩⟩
  · obtain ⟨c', hsched, hinv, hmem, hrunning, hdisp, hsp, hstate⟩ := scheduler_spec hL hne sp
    obtain ⟨rfl, rfl⟩ : _ = sp' ∧ c' = c := by simpa using hsched.symm.trans hrun
    have hin := hL.inTable _ hmem
    exact ⟨h.setCore hinv (h.pids.congr hdisp.pid hdisp.processesList hdisp.pids) (by rw [hdisp.live]),
      Or.inr ⟨hne, hdisp, rfl, (inTable_congr hdisp.processesList).mpr hin, hrunning,
        (hL.ready _ hin).mp hmem, hsp, hstate⟩⟩

/-- The scheduler blocks nobody and wakes nobody. -/
theorem Scheduled.blocked_iff {sp sp' : StackPtr} (h : Scheduled c c' sp sp') :
    c'.state q = .blocked ↔ c.state q = .blocked := by
  rw [h.state]
  rcases eq_or_ne q c'.currentProcess with rfl | hq
  · rcases h.runnable with hr | hr <;> simp [hr]
  · rw [Function.update_of_ne hq]
    split
    · rename_i hrun
      rcases eq_or_ne q c.currentProcess with rfl | hq'
      · simp [hrun]
      · rw [Function.update_of_ne hq']
    · rfl

/-- The scheduler ends nobody. -/
theorem Scheduled.terminated {sp sp' : StackPtr} (h : Scheduled c c' sp sp') (hq : c'.state q = .terminated) :
    c.state q = .terminated := by
  rw [h.state] at hq
  rcases eq_or_ne q c'.currentProcess with rfl | hne
  · simp at hq
  · rw [Function.update_of_ne hne] at hq
    split at hq
    · rcases eq_or_ne q c.currentProcess with rfl | hne'
      · simp at hq
      · rwa [Function.update_of_ne hne'] at hq
    · exact hq

/-! ### Steps of the machine -/

namespace Machine

/-- A step is a call, and a call of the scheduler if it goes on to it. -/
theorem step_cases (hrun : m.step a = some m') :
    ∃ r k again, { m.toKernel with answers := a.answers }.call a.call = some (r, k, again) ∧
      ((again = false ∧ m' = m.after a k again) ∨
        again = true ∧ ∃ cpu c, scheduler k.toCore ⟨m.cpu.process, a.offset⟩ = some (cpu, c) ∧
          m' = { m.after a k again with
            toCore := c
            cpu := cpu
            saved := update (m.after a k again).saved m.cpu.process ⟨m.cpu.process, a.offset⟩ }) := by
  obtain ⟨⟨r, k, again⟩, hcall, hrun⟩ := Option.bind_eq_some_iff.mp hrun
  refine ⟨r, k, again, hcall, ?_⟩
  cases again with
  | false => exact Or.inl ⟨rfl, by simpa using hrun.symm⟩
  | true =>
    obtain ⟨⟨cpu, c⟩, hsched, hret⟩ := Option.bind_eq_some_iff.mp hrun
    exact Or.inr ⟨rfl, cpu, c, hsched, (Option.some.inj hret).symm⟩

theorem call_inv (h : KernelInv k) (hok : call.Orderly k) (hrun : k.call call = some (r, k', again)) :
    KernelInv k' := by
  by_cases hq : call = .quitCPU
  · subst hq
    obtain ⟨⟨v, c⟩, hcall, hret⟩ := Option.map_eq_some_iff.mp hrun
    obtain ⟨-, rfl, -⟩ : v = r ∧ _ = k' ∧ false = again := by simpa using hret
    rcases quitCPU_call h hcall with ⟨-, rfl⟩ | ⟨-, hinv, -⟩
    · exact h
    · exact hinv
  · exact (call_effect h hok hq hrun).1

/-- An orderly step keeps the invariant. -/
theorem step_inv (h : KernelInv m.toKernel) (hok : a.call.Orderly m.toKernel) (hrun : m.step a = some m') :
    KernelInv m'.toKernel := by
  obtain ⟨r, k, again, hcall, hcases⟩ := step_cases hrun
  have hok' : a.call.Orderly { m.toKernel with answers := a.answers } := by
    cases hc : a.call <;> rw [hc] at hok <;> exact hok
  have hinv := call_inv (h.supply a.answers) hok' hcall
  rcases hcases with ⟨-, rfl⟩ | ⟨-, cpu, c, hsched, rfl⟩
  · exact hinv
  · exact (scheduler_call hinv hsched).1

theorem boot_inv (h : Boot m) : KernelInv m.toKernel := by
  have htable (p : ℕ) : ¬InTable m.toCore p := by
    rintro ⟨h0, i, -, rfl⟩
    exact h0 (h.processesList i)
  have hring (p : ℕ) : p ∉ ringProcs m.toCore [] := by simp [ringProcs]
  refine ⟨⟨[], ⟨ring_nil, .nil, h.readyList.symm, by simp, fun hne => absurd rfl hne, fun _ => h.currentNode,
    .nil, by simp⟩, fun p hp => absurd hp (hring p), fun p hp => absurd hp (htable p),
    fun p hp => absurd hp (htable p), fun hs => ?_, h.null, fun i _ j _ _ h0 => absurd (h.processesList i) h0,
    fun p hp => absurd hp (htable p)⟩, ⟨fun p _ hp => absurd hp (htable p), fun p hp => absurd hp (htable p),
    fun p hp => absurd hp (htable p), fun i _ hset => ?_⟩, [], h.sleepList, .nil, by simp⟩
  · rw [h.currentProcess, h.null] at hs
    cases hs
  · rw [h.pids] at hset
    cases hset

theorem boot_reach_inv (h : boot.Reach (fun m a => a.call.Orderly m.toKernel) m) : KernelInv m.toKernel :=
  h.invariant (I := fun m => KernelInv m.toKernel) (fun _ hm => boot_inv hm) fun _ _ _ => step_inv

end Machine

end BareKernel
