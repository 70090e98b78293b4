import BareKernel.Kernel.AnyRun
import BareKernel.Process.Requests

/-! When `createProcess` does all or nothing. Of its allocations the code undoes none,
and it enters a process whether or not there is a slot of the table and a pid for it.
So the call does what it should when there is no memory for the stack, and when every
request is served, a slot and a pid are free, and nobody else has that pid. -/

namespace BareKernel

open Function (update)
open Process Links Machine

variable {k k' : Kernel} {c c' : Core} {m : Machine} {L : List ℕ} {p q i : ℕ} {r : ℤ} {args : CreateArgs}

/-- The table, the bitmap, the ring, the children, the flags and the blocks in use are
as they were. -/
structure Untouched (k k' : Kernel) : Prop where
  processesList : k'.processesList = k.processesList
  nProcesses : k'.nProcesses = k.nProcesses
  pids : k'.pids = k.pids
  ring : k'.toReadyRing = k.toReadyRing
  children : k'.children = k.children
  childrenLength : k'.childrenLength = k.childrenLength
  waitingOnChild : k'.waitingOnChild = k.waitingOnChild
  isForeground : k'.isForeground = k.isForeground
  live : ∀ kind a, a ∈ k'.live kind ↔ a ∈ k.live kind

/-- The new process is in the table, under a pid of its own, and in the ring. -/
structure Present (k k' : Kernel) (r : ℤ) (p : ℕ) : Prop where
  new : NewRecord k.toCore p
  inTable : InTable k'.toCore p
  pid : k'.pid p = r
  unique : ∀ q, InTable k'.toCore q → k'.pid q = r → q = p
  ring : isInReadyList k'.toCore p = some true

/-- A call of `createProcess` creates a process or fails without a trace. -/
def AllOrNothing (k : Kernel) (args : CreateArgs) : Prop :=
  ∃ r k', k.createProcess args = some (r, k') ∧
    ((1 ≤ r ∧ r ≤ maxProcesses ∧ ∃ p, Present k k' r p) ∨ r = -1 ∧ Untouched k k')

/-- All requests for a new process with the record `p`. -/
def createRequests (c : Core) (p : ℕ) (args : CreateArgs) : List Kind :=
  .stack :: .record :: contextRequests c p args

/-- There is no memory for the stack, or everything that a new process needs. -/
def CreateFits (k : Kernel) (args : CreateArgs) : Prop :=
  (mmMalloc k.toCore .stack).1 = 0 ∨
    ∃ p, NewRecord k.toCore p ∧ (k.toMemory.serve (createRequests k.toCore p args)).isSome = true ∧
      (InTable k.toCore p ∨ ∃ i < maxProcesses, k.processesList i = 0) ∧
      ∃ i : ℕ, i < maxProcesses ∧ k.pids i = false ∧ (∀ j : ℕ, j < i → k.pids j = true) ∧
        ∀ q, InTable k.toCore q → q ≠ p → k.pid q ≠ i + 1

/-! ### The pid -/

/-- The pid of a new process is that of the first entry that is clear, `0` without one. -/
theorem assignPid_self (c : Core) (p : ℕ) :
    ((∀ i : ℕ, i < maxProcesses → c.pids i = true) ∧ (assignPid c p).pid p = 0) ∨
      ∃ i : ℕ, i < maxProcesses ∧ c.pids i = false ∧ (∀ j : ℕ, j < i → c.pids j = true) ∧
        (assignPid c p).pid p = i + 1 := by
  unfold assignPid
  cases hf : (List.range maxProcesses).find? fun i : ℕ => c.pids i = false with
  | none =>
    refine Or.inl ⟨fun i hi => ?_, Function.update_self ..⟩
    have hnot := List.find?_eq_none.mp hf i (List.mem_range.mpr hi)
    simpa using hnot
  | some i =>
    obtain ⟨hi, hmem, hbefore⟩ := List.find?_range_eq_some.mp hf
    refine Or.inr ⟨i, List.mem_range.mp hmem, by simpa using hi, fun j hj => ?_, Function.update_self ..⟩
    simpa using hbefore j hj

theorem assignPid_other (hq : q ≠ p) : (assignPid c p).pid q = c.pid q := by
  unfold assignPid
  split
  · exact Function.update_of_ne hq ..
  · exact Function.update_of_ne hq ..

/-! ### The three ways of the call -/

theorem allOrNothing_noStack (h : (mmMalloc k.toCore .stack).1 = 0) : AllOrNothing k args := by
  refine ⟨-1, _, createProcess_noStack h, Or.inr ⟨rfl, ?_⟩⟩
  rcases mmMalloc_cases k.toCore .stack with ⟨rest, hm⟩ | ⟨a, rest, h0, -, hm⟩
  · rw [hm]
    exact ⟨rfl, rfl, rfl, rfl, rfl, rfl, rfl, rfl, fun _ _ => Iff.rfl⟩
  · rw [hm] at h
    exact absurd h h0

/-- The stack is not given back when there is no memory for the record. -/
theorem not_allOrNothing_noRecord (h : (mmMalloc k.toCore .stack).1 ≠ 0)
    (hr : (mmMalloc (mmMalloc k.toCore .stack).2 .record).1 = 0) : ¬AllOrNothing k args := by
  rintro ⟨r, k', hrun, hcases⟩
  rw [createProcess_noRecord h hr] at hrun
  obtain ⟨rfl, rfl⟩ : -1 = r ∧ _ = k' := by simpa using hrun
  rcases hcases with ⟨hpos, -⟩ | ⟨-, hsame⟩
  · omega
  · rcases mmMalloc_cases k.toCore .stack with ⟨rest, hm⟩ | ⟨a, rest, h0, hfresh, hm⟩
    · simp [hm] at h
    · have hlive := hsame.live .stack a
      rw [hm] at hr hlive
      rcases mmMalloc_cases { k.toCore with
          answers := rest
          live := update k.live .stack (a :: k.live .stack) } .record with ⟨rest', hm'⟩ | ⟨b, rest', hb, -, hm'⟩
      · rw [hm'] at hlive
        refine hfresh (hlive.mp ?_)
        show a ∈ update k.live .stack (a :: k.live .stack) .stack
        rw [Function.update_self]
        exact List.mem_cons_self
      · rw [hm'] at hr
        exact absurd hr hb

/-- The first two requests are those for the stack and the record. -/
theorem serve_newRecord (hp : NewRecord c p) (kinds : List Kind) :
    c.toMemory.serve (.stack :: .record :: kinds) =
      (mmMalloc (mmMalloc c .stack).2 .record).2.toMemory.serve kinds := by
  obtain ⟨hs, h0, rfl⟩ := hp
  have hstack : mmMallocUsed c .stack = some (mmMalloc c .stack) := if_neg hs
  have hrecord : mmMallocUsed (mmMalloc c .stack).2 .record = some (mmMalloc (mmMalloc c .stack).2 .record) :=
    if_neg h0
  rw [mmMallocUsed_serve, hstack, Option.bind_some, mmMallocUsed_serve, hrecord, Option.bind_some]

/-- What a call that gets a stack and a record returns, if it returns. -/
theorem createProcess_entered (h : RingInv k.toCore L) (hp : NewRecord k.toCore p)
    (hrun : k.createProcess args = some (r, k')) :
    Entered k.toCore k'.toCore p ∧ r = (assignPid k.toCore p).pid p := by
  rw [createProcess_record hp] at hrun
  obtain ⟨-, answers, live, hmem, -, hlive⟩ := newRecord_memory hp
  rw [hmem] at hrun
  obtain ⟨c, henter, hret⟩ := Option.bind_eq_some_iff.mp hrun
  obtain ⟨rfl, rfl⟩ : _ = r ∧ _ = k' := by simpa using hret
  have hN : Nodes { k.toCore with answers := answers, live := live } L :=
    h.nodes.congr rfl (hlive .node (by simp) (by simp))
  have he := enterProcess_entered hN hp.2.1 henter
  obtain ⟨L', hs⟩ := enterProcess_shift (h.alloc (hlive .node (by simp) (by simp))).ring hp.2.1 henter
  obtain ⟨waiting, honly⟩ := openProcess_only { k with toCore := c } k.currentProcess p
  obtain ⟨answers', live', hcore, hlive'⟩ := honly.core
  have hpid : ({ k with toCore := c }.openProcess k.currentProcess p).pid = (assignPid k.toCore p).pid := by
    have hsame (c₁ : Core) (h1 : c₁.pid = k.pid) (h2 : c₁.pids = k.pids) :
        (assignPid c₁ p).pid = (assignPid k.toCore p).pid := (assignPid_congr h1 h2).1
    rw [hcore]
    exact he.pid.trans (hsame _ rfl rfl)
  refine ⟨⟨hpid, ?_, ?_, fun q hq => ?_⟩, by rw [hpid]⟩
  · have hN' : Nodes ({ k with toCore := c }.openProcess k.currentProcess p).toCore L' := by
      rw [hcore]
      exact hs.ring.nodes.congr rfl (hlive' .node (by simp))
    have hring : ({ k with toCore := c }.openProcess k.currentProcess p).toReadyRing = c.toReadyRing := by
      rw [hcore]
    rw [isInReadyList_eq hN', ← he.ring, isInReadyList_eq hs.ring.nodes, congrArg ReadyRing.processInfo hring]
  · rw [hcore]
    exact he.self
  · rw [hcore]
    exact he.others q hq

/-- A call that gets a stack and a record returns when all its requests are served. -/
theorem createProcess_isSome (h : RingInv k.toCore L) (hp : NewRecord k.toCore p) :
    (k.createProcess args).isSome = (k.toMemory.serve (createRequests k.toCore p args)).isSome := by
  obtain ⟨-, answers, live, hmem, -, hlive⟩ := newRecord_memory hp
  rw [createProcess_record hp, createRequests, serve_newRecord hp, hmem]
  have hN : Nodes { k.toCore with answers := answers, live := live } L :=
    h.nodes.congr rfl (hlive .node (by simp) (by simp))
  have hserve := enterProcess_serve hN p (mmMalloc k.toCore .stack).1 args
  have hring : contextRequests { k.toCore with answers := answers, live := live } p args =
      contextRequests k.toCore p args := by
    unfold contextRequests
    rw [isInReadyList_eq hN, isInReadyList_eq h.nodes]
  rw [← hring, ← hserve, Option.isSome_map]
  cases enterProcess { k.toCore with answers := answers, live := live } p (mmMalloc k.toCore .stack).1 args with
  | none => rfl
  | some c => rfl

theorem allOrNothing_record (h : RingInv k.toCore L) (hp : NewRecord k.toCore p) :
    AllOrNothing k args ↔ (k.toMemory.serve (createRequests k.toCore p args)).isSome = true ∧
      (InTable k.toCore p ∨ ∃ i < maxProcesses, k.processesList i = 0) ∧
      ∃ i : ℕ, i < maxProcesses ∧ k.pids i = false ∧ (∀ j : ℕ, j < i → k.pids j = true) ∧
        ∀ q, InTable k.toCore q → q ≠ p → k.pid q ≠ i + 1 := by
  have hunique : ∀ q, NewRecord k.toCore q → q = p := fun q hq => hq.2.2.trans hp.2.2.symm
  rw [← createProcess_isSome h hp]
  constructor
  · rintro ⟨r, k', hrun, hcases⟩
    obtain ⟨he, hr⟩ := createProcess_entered h hp hrun
    refine ⟨by rw [hrun]; rfl, ?_⟩
    rcases assignPid_self k.toCore p with ⟨-, hzero⟩ | ⟨i, hi, hfree, hfirst, hi'⟩
    · rcases hcases with ⟨hpos, -⟩ | ⟨hneg, -⟩ <;> omega
    · rcases hcases with ⟨-, -, q, hq⟩ | ⟨hneg, -⟩
      · obtain rfl := hunique q hq.new
        refine ⟨he.self.mp hq.inTable, i, hi, hfree, hfirst, fun s hs hne hpid => hne ?_⟩
        apply hq.unique s ((he.others s hne).mpr hs)
        rw [he.pid, assignPid_other hne, hpid, hr, hi']
      · omega
  · rintro ⟨hsome, hslot, i, hi, hfree, hfirst, hother⟩
    obtain ⟨⟨r, k'⟩, hrun⟩ := Option.isSome_iff_exists.mp hsome
    obtain ⟨he, hr⟩ := createProcess_entered h hp hrun
    have hpid : (assignPid k.toCore p).pid p = i + 1 := by
      rcases assignPid_self k.toCore p with ⟨hall, -⟩ | ⟨j, -, hj, hbefore, hj'⟩
      · rw [hall i hi] at hfree
        cases hfree
      · rcases lt_trichotomy i j with hlt | rfl | hlt
        · rw [hbefore i hlt] at hfree
          cases hfree
        · exact hj'
        · rw [hfirst j hlt] at hj
          cases hj
    refine ⟨r, k', hrun, Or.inl ⟨by omega, by omega, p, hp, he.self.mpr hslot, ?_, fun q hq hqr => ?_, he.ring⟩⟩
    · rw [he.pid, hr]
    · by_contra hne
      refine hother q ((he.others q hne).mp hq) hne ?_
      rw [← hpid, ← hr, ← hqr, he.pid, assignPid_other hne]

/-! ### Every call in every run -/

theorem createProcess_iff (h : boot.Reach (fun _ _ => True) m) (args : CreateArgs) (answers : List ℕ) :
    AllOrNothing { m.toKernel with answers := answers } args ↔
      CreateFits { m.toKernel with answers := answers } args := by
  obtain ⟨L, hL⟩ := boot_reach_ring h
  set k : Kernel := { m.toKernel with answers := answers } with hk
  have hL' : RingInv k.toCore L := hL.congr rfl rfl rfl rfl
  unfold CreateFits
  by_cases hs : (mmMalloc k.toCore .stack).1 = 0
  · exact ⟨fun _ => Or.inl hs, fun _ => allOrNothing_noStack hs⟩
  · simp only [hs, false_or]
    by_cases hr : (mmMalloc (mmMalloc k.toCore .stack).2 .record).1 = 0
    · refine ⟨fun hall => absurd hall (not_allOrNothing_noRecord hs hr), ?_⟩
      rintro ⟨p, hp, -⟩
      exact absurd (hp.2.2.trans hr) hp.2.1
    · have hp : NewRecord k.toCore (mmMalloc (mmMalloc k.toCore .stack).2 .record).1 := ⟨hs, hr, rfl⟩
      rw [allOrNothing_record hL' hp]
      constructor
      · exact fun hfit => ⟨_, hp, hfit⟩
      · rintro ⟨p, hp', hfit⟩
        obtain rfl := hp'.2.2
        exact hfit

/-- A second process is created while the first one runs. -/
theorem createProcess_iff_second :
    let m := ran (fun _ _ => True) initial [create 100, plain .tick]
    AllOrNothing { m.toKernel with answers := [200, 201, 202, 203, 204, 205] } ⟨0, 3, 0, 0⟩ ↔
      CreateFits { m.toKernel with answers := [200, 201, 202, 203, 204, 205] } ⟨0, 3, 0, 0⟩ :=
  createProcess_iff (boot_ran (by decide +kernel)) _ _

/-- The allocator has a block for the stack and none for the record. -/
theorem createProcess_iff_noRecord :
    ¬∀ m, boot.Reach (fun _ _ => True) m → ∀ args answers,
      AllOrNothing { m.toKernel with answers := answers } args := by
  intro hall
  refine not_allOrNothing_noRecord ?_ ?_ (hall initial (System.Reach.init initial_boot) ⟨0, 3, 0, 0⟩ [100])
  · decide +kernel
  · decide +kernel

end BareKernel
