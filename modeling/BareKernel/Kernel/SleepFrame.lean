import BareKernel.Kernel.PidLaw
import BareKernel.Kernel.SleepOrder

/-! The sleep list in any run of the machine, orderly or not. Only `sys_sleep` and the
timer edit it; the other calls leave its entries and their blocks alone. -/

namespace BareKernel

open Function (update)
open Process Links Machine

variable {k k' : Kernel} {c c' : Core} {m m' : Machine} {a : Action} {call : Call} {E : List ℕ} {e p q n : ℕ}
  {pid r : ℤ} {again : Bool}

/-! ### The blocks of the entries -/

/-- The blocks of sleep entries are the same. -/
def SameSleepBlocks (c c' : Core) : Prop := c'.live .sleepEntry = c.live .sleepEntry

theorem Process.RingEdit.sleepBlocks (h : RingEdit c c') : SameSleepBlocks c c' := h.live .sleepEntry (by simp)

theorem PipesOnly.sleepBlocks (h : PipesOnly k k') : SameSleepBlocks k.toCore k'.toCore := by
  obtain ⟨answers, live, hcore, hlive⟩ := h.core
  rw [hcore]
  exact hlive .sleepEntry (by simp)

theorem unblockProcess_sleepBlocks (h : Process.unblockProcess c pid = some (r, c')) : SameSleepBlocks c c' := by
  rcases unblockProcess_cases h with rfl | ⟨i, -, -, hedit⟩
  · rfl
  · exact hedit.sleepBlocks

theorem blockProcess_sleepBlocks (h : Process.blockProcess c pid = some (r, c')) : SameSleepBlocks c c' := by
  rcases blockProcess_cases h with ⟨rfl, -⟩ | ⟨i, -, hrem⟩
  · rfl
  · exact (removeFromReadyList_edit hrem).sleepBlocks

theorem leaveParent_sleepBlocks (h : Process.leaveParent c p = some c') : SameSleepBlocks c c' := by
  rcases leaveParent_cases h with ⟨rfl, -⟩ | ⟨-, i, c₂, -, hwake, rfl⟩
  · rfl
  · obtain ⟨children, lengths, hrem⟩ := removeChild_eq c (c.processesList i) (c.pid p)
    rw [hrem] at hwake
    rcases wakeParent_cases hwake with ⟨rfl, -⟩ | ⟨-, -, v, hun⟩
    · rfl
    · have hwoken := unblockProcess_sleepBlocks hun
      exact hwoken

theorem removeFromProcessesList_sleepBlocks (h : Process.removeFromProcessesList c p = some (r, c')) :
    SameSleepBlocks c c' := by
  rcases removeFromProcessesList_cases h with ⟨-, rfl⟩ | ⟨i, c₁, c₂, -, hleave, hrem, rfl⟩
  · rfl
  · obtain ⟨live, hfree, hlive⟩ := freeHoldings_holdings c₂ p
    rw [hfree]
    have hentries : update live .record ((live .record).erase p) .sleepEntry = c₂.live .sleepEntry :=
      (Function.update_of_ne (by simp) ..).trans (hlive .sleepEntry rfl)
    have hend : c₂.live .sleepEntry = c₁.live .sleepEntry := (removeFromReadyList_edit hrem).sleepBlocks
    exact hentries.trans (hend.trans (leaveParent_sleepBlocks hleave))

theorem killProcess_sleepBlocks (h : Process.killProcess c pid = some (r, c', again)) : SameSleepBlocks c c' := by
  rcases killProcess_cases h with ⟨rfl, -, -⟩ | ⟨-, -, i, c₁, v, -, hrem, hremove⟩
  · rfl
  · have hout : c₁.live .sleepEntry = c.live .sleepEntry := (removeFromReadyList_edit hrem).sleepBlocks
    have hend := removeFromProcessesList_sleepBlocks hremove
    exact Eq.trans hend hout

theorem enterProcess_sleepBlocks {stackTop : ℕ} {args : CreateArgs} (h : enterProcess c p stackTop args = some c') :
    SameSleepBlocks c c' := by
  obtain ⟨c₁, hcopy, h⟩ := Option.bind_eq_some_iff.mp h
  obtain ⟨c₂, hload, hadd⟩ := Option.bind_eq_some_iff.mp h
  have hcontext : SameSleepBlocks c c₁ := by
    obtain ⟨name, priorityName, answers, live, rfl, -, -, hlive⟩ := copyContext_some hcopy
    exact hlive .sleepEntry (by simp) (by simp)
  have hlink : SameSleepBlocks c₁ (linkParent c₁ p) := by
    obtain ⟨parents, children, lengths, hlink⟩ := linkParent_eq c₁ p
    rw [hlink]
    rfl
  have hargs : SameSleepBlocks (linkParent c₁ p) c₂ := by
    obtain ⟨argv, answers, live, entries, rfl, hlive⟩ := loadArgs_some hload
    exact hlive .sleepEntry (by simp) (by simp)
  have hlist : SameSleepBlocks c₂ (addToProcessList c₂ p) := by
    obtain ⟨list, hlist⟩ := addToProcessList_eq c₂ p
    rw [hlist]
    rfl
  have hring : SameSleepBlocks (addToProcessList c₂ p) c' := (addToReadyList_edit hadd).sleepBlocks
  exact hring.trans (hlist.trans (hargs.trans (hlink.trans hcontext)))

theorem scheduler_sleepBlocks {sp sp' : StackPtr} (h : scheduler c sp = some (sp', c')) : SameSleepBlocks c c' := by
  obtain ⟨sps, states, counters, node, current, rfl⟩ := scheduler_eq h
  rfl

theorem quitCPU_sleepBlocks (h : Process.quitCPU c = some (r, c')) : SameSleepBlocks c c' := by
  rcases quitCPU_cases h with ⟨rfl, -⟩ | ⟨-, c₁, sp, hadd, hsched⟩
  · rfl
  · have hring : c₁.live .sleepEntry = c.live .sleepEntry := (addToReadyList_edit hadd).sleepBlocks
    exact Eq.trans (scheduler_sleepBlocks hsched) hring

theorem wait_sleepBlocks (h : k.wait = some (r, k', again)) : SameSleepBlocks k.toCore k'.toCore := by
  rcases wait_cases h with ⟨-, rfl, -⟩ | ⟨-, -, v, c, hblock, rfl⟩
  · rfl
  · have hsame := blockProcess_sleepBlocks hblock
    exact hsame

theorem wakeAll_sleepBlocks {i : ℕ} {pids : List ℤ} (h : Kernel.wakeAll i pids c = some c') : SameSleepBlocks c c' :=
  wakeAll_induction (fun _ => rfl) (fun _ _ _ h h' => Eq.trans h' h) (fun _ _ _ _ => unblockProcess_sleepBlocks) h

/-- Only sleeping and ticks edit the entries and their blocks. -/
theorem call_sleepBlocks (h : k.call call = some (r, k', again)) (hs : call.sleeps = false) :
    SameSleepBlocks k.toCore k'.toCore := by
  cases call with
  | createProcess args =>
    obtain ⟨⟨v, k₁⟩, hcall, hret⟩ := Option.map_eq_some_iff.mp h
    obtain ⟨-, rfl, -⟩ : v = r ∧ k₁ = k' ∧ false = again := by simpa using hret
    rcases createProcess_cases hcall with ⟨-, -, answers, live, rfl, hlive⟩ |
      ⟨p, answers, live, c, -, -, -, -, hlive, henter, rfl, -⟩
    · exact hlive .sleepEntry (by simp)
    · obtain ⟨waiting, honly⟩ := openProcess_only { k with toCore := c } k.currentProcess p
      have hopen : (({ k with toCore := c } : Kernel).openProcess k.currentProcess p).live .sleepEntry =
          c.live .sleepEntry := honly.sleepBlocks
      have hentered : c.live .sleepEntry = live .sleepEntry := enterProcess_sleepBlocks henter
      exact hopen.trans (hentered.trans (hlive .sleepEntry (by simp) (by simp)))
  | exitProcess =>
    obtain ⟨k₁, hcall, hret⟩ := Option.map_eq_some_iff.mp h
    obtain ⟨-, rfl, -⟩ : 0 = r ∧ k₁ = k' ∧ true = again := by simpa using hret
    obtain ⟨v, c, k₂, hremove, honly, rfl⟩ := exitProcess_cases hcall
    have hclose : k₂.live .sleepEntry = c.live .sleepEntry := honly.sleepBlocks
    exact hclose.trans (removeFromProcessesList_sleepBlocks hremove)
  | blockProcess pid =>
    obtain ⟨⟨v, c⟩, hcall, hret⟩ := Option.map_eq_some_iff.mp h
    obtain ⟨-, rfl, -⟩ : v = r ∧ _ = k' ∧ false = again := by simpa using hret
    exact blockProcess_sleepBlocks hcall
  | unblockProcess pid =>
    obtain ⟨⟨v, c⟩, hcall, hret⟩ := Option.map_eq_some_iff.mp h
    obtain ⟨-, rfl, -⟩ : v = r ∧ _ = k' ∧ false = again := by simpa using hret
    exact unblockProcess_sleepBlocks hcall
  | killProcess pid =>
    obtain ⟨⟨v, c, b⟩, hcall, hret⟩ := Option.map_eq_some_iff.mp h
    obtain ⟨-, rfl, -⟩ : v = r ∧ _ = k' ∧ b = again := by simpa using hret
    exact killProcess_sleepBlocks hcall
  | quitCPU =>
    obtain ⟨⟨v, c⟩, hcall, hret⟩ := Option.map_eq_some_iff.mp h
    obtain ⟨-, rfl, -⟩ : v = r ∧ _ = k' ∧ false = again := by simpa using hret
    exact quitCPU_sleepBlocks hcall
  | wait => exact wait_sleepBlocks h
  | semOpen id v =>
    obtain ⟨-, rfl, -⟩ : _ = r ∧ (k.semOpen id v).2 = k' ∧ false = again := by simpa [Kernel.call] using h
    obtain ⟨sems, hopen⟩ := semOpen_eq k id v
    rw [hopen]
    rfl
  | semClose id =>
    obtain ⟨⟨v, k₁⟩, hcall, hret⟩ := Option.map_eq_some_iff.mp h
    obtain ⟨-, rfl, -⟩ : v = r ∧ k₁ = k' ∧ false = again := by simpa using hret
    rcases semClose_cases hcall with ⟨-, -, rfl⟩ | ⟨-, -, c, hwake, rfl⟩
    · rfl
    · exact wakeAll_sleepBlocks hwake
  | semPost id =>
    obtain ⟨⟨v, k₁⟩, hcall, hret⟩ := Option.map_eq_some_iff.mp h
    obtain ⟨-, rfl, -⟩ : v = r ∧ k₁ = k' ∧ false = again := by simpa using hret
    rcases semPost_cases hcall with ⟨-, -, rfl⟩ | ⟨-, -, ⟨pid, s, v, c, -, hun, rfl⟩ | ⟨s, -, rfl⟩⟩
    · rfl
    · exact unblockProcess_sleepBlocks hun
    · rfl
  | semWait id =>
    rcases semWait_cases h with ⟨-, -, rfl, -⟩ | ⟨-, -, -, -, rfl⟩ | ⟨-, -, -, v, c, hblock, rfl⟩
    · rfl
    · rfl
    · exact blockProcess_sleepBlocks hblock
  | createPipe =>
    obtain ⟨-, rfl, -⟩ : _ = r ∧ k.createPipe.2 = k' ∧ false = again := by simpa [Kernel.call] using h
    obtain ⟨sems, honly⟩ := createPipe_only k
    exact honly.sleepBlocks
  | pipeClose fd =>
    obtain ⟨-, rfl, -⟩ : _ = r ∧ (k.pipeClose fd).2 = k' ∧ false = again := by simpa [Kernel.call] using h
    exact (pipeClose_only k fd).sleepBlocks
  | callScheduler =>
    obtain ⟨-, rfl, -⟩ : 0 = r ∧ k = k' ∧ true = again := by simpa [Kernel.call] using h
    rfl
  | sysSleep n => cases hs
  | tick => cases hs

/-! ### The list in any run -/

theorem sysSleep_sleepers (h : Sleepers k E) (hrun : k.sysSleep n = some (r, k', again)) : ∃ E', Sleepers k' E' := by
  rcases sysSleep_cases hrun with ⟨-, rfl, -⟩ | ⟨-, -, k₁, v, c, hadd, hblock, rfl⟩
  · exact ⟨E, h⟩
  · obtain ⟨answers, live, s, hadd', -, hlist⟩ :=
      sleepQueueAdd_spec h k.currentProcess ((k.ticksElapsed + n) % 2 ^ 64).toNat
    obtain rfl := Option.some.inj (hadd'.symm.trans hadd)
    have hblocks := blockProcess_sleepBlocks hblock
    rcases hlist with ⟨-, rfl, rfl⟩ | ⟨e, A, B, -, -, -, -, -, -, -, -, hnew⟩
    · exact ⟨E, h.congr rfl hblocks⟩
    · exact ⟨_, hnew.congr rfl hblocks⟩

/-- The handler goes through the list, or it does not return. -/
theorem timerHandler_done (h : Sleepers k E) (hrun : k.timerHandler = some k') :
    ∃ calls, HandlerDone { k with ticks := (k.ticks + 1) % 2 ^ 64 } k' k.tickNow E calls := by
  set k₁ : Kernel := { k with ticks := (k.ticks + 1) % 2 ^ 64 } with hk₁
  have h₁ : Sleepers k₁ E := h.congr rfl rfl
  have hrun' : Kernel.sleepTick k.tickNow k₁.sleepFuel 0 k₁.sleepList k₁ = some k' := hrun
  rw [← sleepTickCalls_snd] at hrun'
  rcases handler_ends h₁ k.tickNow with ⟨k₂, hret, hticked⟩ | ⟨E₁, e, E₂, -, -, -, -, hnone⟩
  · rw [hret] at hrun'
    obtain rfl := Option.some.inj hrun'
    exact ⟨_, hticked.done⟩
  · rw [hnone] at hrun'
    cases hrun'

theorem call_sleepers (h : Sleepers k E) (hrun : k.call call = some (r, k', again)) : ∃ E', Sleepers k' E' := by
  by_cases hs : call.sleeps = false
  · exact ⟨E, h.congr ((call_others hrun).2.1 hs) (call_sleepBlocks hrun hs)⟩
  · cases call with
    | sysSleep n => exact sysSleep_sleepers h hrun
    | tick =>
      obtain ⟨k₁, hcall, hret⟩ := Option.map_eq_some_iff.mp hrun
      obtain ⟨-, rfl, -⟩ : 0 = r ∧ k₁ = k' ∧ true = again := by simpa using hret
      obtain ⟨calls, hdone⟩ := timerHandler_done h hcall
      exact ⟨_, hdone.left⟩
    | _ => exact absurd rfl hs

namespace Machine

theorem step_sleepers (h : ∃ E, Sleepers m.toKernel E) (hrun : m.step a = some m') : ∃ E, Sleepers m'.toKernel E := by
  obtain ⟨E, hE⟩ := h
  obtain ⟨r, k, again, hcall, hcases⟩ := step_cases hrun
  have hbefore : Sleepers { m.toKernel with answers := a.answers } E := hE.congr rfl rfl
  obtain ⟨E', h'⟩ := call_sleepers hbefore hcall
  rcases hcases with ⟨-, rfl⟩ | ⟨-, cpu, c, hsched, rfl⟩
  · exact ⟨E', h'⟩
  · exact ⟨E', h'.congr rfl (scheduler_sleepBlocks hsched)⟩

theorem boot_sleepers (h : Boot m) : Sleepers m.toKernel [] := ⟨h.sleepList, List.nodup_nil, by simp⟩

theorem boot_reach_sleepers {ok : Machine → Action → Prop} (h : boot.Reach ok m) : ∃ E, Sleepers m.toKernel E :=
  h.invariant (I := fun m => ∃ E, Sleepers m.toKernel E) (fun _ hm => ⟨[], boot_sleepers hm⟩)
    fun _ _ _ hE _ hrun => step_sleepers hE hrun

end Machine

end BareKernel
