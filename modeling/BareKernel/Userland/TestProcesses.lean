import BareKernel.Kernel.Standing

/-! The process test `test_processes.c` on the machine, among whatever other processes do.
The test creates processes that only loop, kills, blocks and unblocks them at random until
all of them are killed, and begins again. It keeps a state for each of them. The kernel
always agrees with it, so no call of the test fails. -/

namespace BareKernel.Userland

open Process Links Machine

variable {k : Kernel} {c c' : Core} {m m' : Machine} {a : Action} {call : Call} {p q i : ℕ} {pid r : ℤ}
  {again : Bool}

/-! ### The test -/

/-- `enum State` of the test. -/
inductive RqState where
  | running | blocked | killed
deriving DecidableEq

structure PRq where
  pid : ℤ
  state : RqState
deriving DecidableEq

/-- Where the test is: before it creates the next process, before it kills or blocks
process `rq`, before it unblocks it, and where it has printed that it could not create a
process, or that another call failed. -/
inductive TestPlace where
  | create
  | act (rq : ℕ)
  | unblock (rq : ℕ)
  | uncreated
  | error
deriving DecidableEq

/-- `test` is the process of the test; `rqs` are the entries of `p_rqs` that it has written
in this round, and `alive` is a `uint8_t`. -/
structure TestProcesses extends Machine where
  test : ℕ
  rqs : List PRq
  alive : ℕ
  place : TestPlace

/-- The test goes on, with the bit that `GetUniform` gives it and what the record of a new
process holds in `waiting_on_child`; or another call is made. -/
inductive ProcessesAction where
  | test (odd : Bool) (waiting : ℤ) (offset : ℕ) (answers : List ℕ)
  | other (a : Action)

/-- The test asks for nothing, makes a system call, or calls a function of the library that
returns `-1` without one. -/
inductive TestRequest where
  | nothing
  | call (call : Call)
  | refused

def usrKill (pid : ℤ) : TestRequest := if 0 < pid then .call (.killProcess pid) else .refused

namespace TestProcesses

/-- What the test asks for next; `n` is `max_processes`. -/
def request (n : ℕ) (s : TestProcesses) (odd : Bool) (waiting : ℤ) : TestRequest :=
  match s.place with
  | .create => if s.rqs.length < n then .call (.createProcess ⟨0, 3, 0, waiting⟩) else .nothing
  | .act rq =>
    match s.rqs[rq]? with
    | some e =>
      if odd then if e.state = .running then .call (.blockProcess e.pid) else .nothing
      else if e.state = .running ∨ e.state = .blocked then usrKill e.pid else .nothing
    | none => .nothing
  | .unblock rq =>
    match s.rqs[rq]? with
    | some e => if e.state = .blocked ∧ odd then .call (.unblockProcess e.pid) else .nothing
    | none => .nothing
  | .uncreated | .error => .nothing

/-- Entry `rq` gets another state. -/
def setState (s : TestProcesses) (rq : ℕ) (state : RqState) : List PRq :=
  s.rqs.modify rq fun e => { e with state := state }

/-- What the test does when its call has returned `r`. -/
def returned (s : TestProcesses) (odd : Bool) (r : ℤ) : TestProcesses :=
  match s.place with
  | .create =>
    if r = -1 then { s with place := .uncreated }
    else { s with rqs := s.rqs ++ [⟨r, .running⟩], alive := (s.alive + 1) % 2 ^ 8 }
  | .act rq =>
    if r = -1 then { s with place := .error }
    else if odd then { s with rqs := s.setState rq .blocked, place := .act (rq + 1) }
    else { s with rqs := s.setState rq .killed, alive := (s.alive + 2 ^ 8 - 1) % 2 ^ 8, place := .act (rq + 1) }
  | .unblock rq =>
    if r = -1 then { s with place := .error }
    else { s with rqs := s.setState rq .running, place := .unblock (rq + 1) }
  | .uncreated | .error => s

/-- `while (alive > 0)`, and the next round behind it. -/
def whileAlive (s : TestProcesses) : TestProcesses :=
  if 0 < s.alive then { s with place := .act 0 } else { s with rqs := [], place := .create }

/-- The loops where the test makes no call. -/
def goOn (n : ℕ) (s : TestProcesses) : TestProcesses :=
  match s.place with
  | .create => s.whileAlive
  | .act rq => { s with place := if rq < n then .act (rq + 1) else .unblock 0 }
  | .unblock rq => if rq < n then { s with place := .unblock (rq + 1) } else s.whileAlive
  | .uncreated | .error => s

def step (n : ℕ) (s : TestProcesses) : ProcessesAction → Option TestProcesses
  | .test odd waiting offset answers =>
    if s.currentProcess = s.test then
      match s.request n odd waiting with
      | .nothing => some (s.goOn n)
      | .refused => some (s.returned odd (-1))
      | .call call => do
        let (r, _) ← (s.before ⟨call, offset, answers⟩).call call
        let m ← s.toMachine.step ⟨call, offset, answers⟩
        some { s.returned odd r with toMachine := m }
    else none
  | .other a => (s.toMachine.step a).map fun m => { s with toMachine := m }

/-- A process is created only when a slot of the table and a pid are free: without one the
process would get the pid `0`, with which it cannot be killed. Other calls leave alone the
processes that the test has created and not killed. They end neither the test nor process
`1`: a process with that pid would not be unblocked. -/
def Fair (n : ℕ) (s : TestProcesses) : ProcessesAction → Prop
  | .test _ _ _ _ => s.place = .create → s.rqs.length < n →
      (∃ i < maxProcesses, s.processesList i = 0) ∧ ∃ i : ℕ, i < maxProcesses ∧ s.pids i = false
  | .other a => a.call.Orderly s.toKernel ∧
      (∀ e ∈ s.rqs, e.state ≠ .killed → a.call.LeavesAlone (s.before a) (getProcessByPid s.toCore e.pid)) ∧
      ¬a.call.ends (s.before a) s.test ∧ ¬a.call.ends (s.before a) (getProcessByPid s.toCore 1)

instance (n : ℕ) (s : TestProcesses) (a : ProcessesAction) : Decidable (s.Fair n a) := by
  cases a <;> dsimp only [Fair] <;> infer_instance

end TestProcesses

/-- The test and any other processes, from a running machine on in which the test is a
process and process `1` is there. -/
def processesSystem (n : ℕ) : System TestProcesses ProcessesAction where
  init s := boot.Reach (fun m a => a.call.Orderly m.toKernel) s.toMachine ∧ InTable s.toCore s.test ∧
    (∃ p, InTable s.toCore p ∧ s.pid p = 1) ∧ s.rqs = [] ∧ s.alive = 0 ∧ s.place = .create
  step s a t := s.step n a = some t

/-! ### What the test believes -/

variable {test n : ℕ} {rqs : List PRq} {e f : PRq} {st : RqState}

/-- Process `q` is the one of the entry, in the state that the entry tells. -/
structure IsDummy (c : Core) (test : ℕ) (e : PRq) (q : ℕ) : Prop where
  inTable : InTable c q
  pid : c.pid q = e.pid
  parentPid : c.parentPid q = c.pid test
  other : q ≠ test
  pos : 0 < e.pid
  notFirst : e.pid ≠ 1
  alive : c.state q ≠ .terminated
  blocked : c.state q = .blocked ↔ e.state = .blocked

/-- The machine on which the test runs. -/
structure Hosts (m : Machine) (test : ℕ) : Prop where
  kernel : KernelInv m.toKernel
  table : TableInv m.toCore
  inTable : InTable m.toCore test
  first : ∃ p, InTable m.toCore p ∧ m.pid p = 1

/-- Each entry that is not killed has a process of its own. -/
structure Agrees (m : Machine) (test : ℕ) (rqs : List PRq) : Prop extends Hosts m test where
  dummies : ∀ e ∈ rqs, e.state ≠ .killed → ∃ q, IsDummy m.toCore test e q
  apart : ∀ (i j : ℕ) (e f : PRq), rqs[i]? = some e → rqs[j]? = some f → e.state ≠ .killed → f.state ≠ .killed →
    e.pid = f.pid → i = j

theorem Hosts.nil (h : Hosts m test) : Agrees m test [] :=
  ⟨h, fun e he => absurd he List.not_mem_nil, fun i j e f he => by simp at he⟩

theorem IsDummy.found (h : IsDummy m.toCore test e q) (hm : Hosts m test) :
    ∃ i, foundprocess m.toCore e.pid = some i ∧ m.processesList i = q := by
  obtain ⟨i, -, hf, hi⟩ := hm.kernel.pids.foundprocess h.inTable
  rw [h.pid] at hf
  exact ⟨i, hf, hi⟩

theorem IsDummy.getProcessByPid (h : IsDummy m.toCore test e q) (hm : Hosts m test) :
    getProcessByPid m.toCore e.pid = q := by
  obtain ⟨i, hf, hi⟩ := h.found hm
  rw [getProcessByPid_some hf, hi]

/-! ### Steps -/

theorem Hosts.step (h : Hosts m test) (hok : a.call.Orderly m.toKernel) (hrun : m.step a = some m')
    (htest : ¬a.call.ends (m.before a) test)
    (hfirst : ∀ p, InTable m.toCore p → m.pid p = 1 → ¬a.call.ends (m.before a) p) :
    Hosts m' test := by
  obtain ⟨p, hp, hpid⟩ := h.first
  exact ⟨step_inv h.kernel hok hrun, step_tableInv h.table hrun, step_keeps h.kernel hok hrun h.inTable htest,
    p, step_keeps h.kernel hok hrun hp (hfirst p hp hpid), by rw [step_pid_eq h.table hrun hp, hpid]⟩

theorem IsDummy.restate (hq : IsDummy m.toCore test e q) (h : Hosts m test) (hrun : m.step a = some m')
    (hin : InTable m'.toCore q) (halive : m'.state q ≠ .terminated) (hb : m'.state q = .blocked ↔ st = .blocked) :
    IsDummy m'.toCore test { e with state := st } q := by
  refine ⟨hin, ?_, ?_, hq.other, hq.pos, hq.notFirst, halive, hb⟩
  · rw [step_pid_eq h.table hrun hq.inTable, hq.pid]
  · rw [step_parentPid_eq h.table hrun hq.inTable, step_pid_eq h.table hrun h.inTable, hq.parentPid]

theorem IsDummy.step (hq : IsDummy m.toCore test e q) (h : Hosts m test) (hok : a.call.Orderly m.toKernel)
    (hrun : m.step a = some m') (hspare : a.call.LeavesAlone (m.before a) q) : IsDummy m'.toCore test e q := by
  have hstands := step_stands h.kernel hok hrun hq.inTable hspare
  exact hq.restate h hrun (hstands.inTable hq.inTable) (fun hs => hq.alive (hstands.terminated hs))
    (hstands.blocked.trans hq.blocked)

theorem Agrees.other (h : Agrees m test rqs) (hok : a.call.Orderly m.toKernel) (hrun : m.step a = some m')
    (hspare : ∀ e ∈ rqs, e.state ≠ .killed → a.call.LeavesAlone (m.before a) (getProcessByPid m.toCore e.pid))
    (htest : ¬a.call.ends (m.before a) test)
    (hfirst : ∀ p, InTable m.toCore p → m.pid p = 1 → ¬a.call.ends (m.before a) p) :
    Agrees m' test rqs := by
  refine ⟨h.toHosts.step hok hrun htest hfirst, fun e he hs => ?_, h.apart⟩
  obtain ⟨q, hq⟩ := h.dummies e he hs
  have hsp := hspare e he hs
  rw [hq.getProcessByPid h.toHosts] at hsp
  exact ⟨q, hq.step h.toHosts hok hrun hsp⟩

/-- A call that touches only the process of one entry, and perhaps the test. -/
theorem Agrees.set (h : Agrees m test rqs) (hok : a.call.Orderly m.toKernel) (hrun : m.step a = some m')
    (hi : rqs[i]? = some e) (hs : e.state ≠ .killed) (hq : IsDummy m.toCore test e q)
    (hspare : ∀ p, p ≠ q → p ≠ test → a.call.LeavesAlone (m.before a) p)
    (hends : ∀ p, a.call.ends (m.before a) p → p = q)
    (hnew : st ≠ .killed → IsDummy m'.toCore test { e with state := st } q) :
    Agrees m' test (rqs.set i { e with state := st }) := by
  have hhosts : Hosts m' test := by
    refine h.toHosts.step hok hrun (fun htest => hq.other (hends test htest).symm) fun p _ hp hend => hq.notFirst ?_
    rw [← hq.pid, ← hends p hend, hp]
  have hget (j : ℕ) (f : PRq) (hf : (rqs.set i { e with state := st })[j]? = some f) :
      (j = i ∧ f = { e with state := st }) ∨ j ≠ i ∧ rqs[j]? = some f := by
    rcases eq_or_ne i j with rfl | hij
    · have hlt : i < rqs.length := (List.getElem?_eq_some_iff.mp hi).1
      rw [List.getElem?_set_self hlt] at hf
      exact Or.inl ⟨rfl, (Option.some.inj hf).symm⟩
    · rw [List.getElem?_set_ne hij] at hf
      exact Or.inr ⟨hij.symm, hf⟩
  refine ⟨hhosts, fun f hf hfs => ?_, fun j l f g hf hg hfs hgs hpid => ?_⟩
  · obtain ⟨j, hj⟩ := List.mem_iff_getElem?.mp hf
    rcases hget j f hj with ⟨rfl, rfl⟩ | ⟨hji, hj'⟩
    · exact ⟨q, hnew hfs⟩
    · obtain ⟨p, hp⟩ := h.dummies f (List.mem_of_getElem? hj') hfs
      have hpq : p ≠ q := by
        rintro rfl
        exact hji (h.apart j i f e hj' hi hfs hs (hp.pid.symm.trans hq.pid))
      exact ⟨p, hp.step h.toHosts hok hrun (hspare p hpq hp.other)⟩
  · rcases hget j f hf with ⟨rfl, rfl⟩ | ⟨hji, hf'⟩
    · rcases hget l g hg with ⟨rfl, -⟩ | ⟨hli, hg'⟩
      · rfl
      · exact h.apart _ _ e g hi hg' hs hgs hpid
    · rcases hget l g hg with ⟨rfl, rfl⟩ | ⟨hli, hg'⟩
      · exact h.apart _ _ f e hf' hi hfs hs hpid
      · exact h.apart _ _ f g hf' hg' hfs hgs hpid

/-! ### The calls of the test -/

theorem killProcess_found (hrun : killProcess c pid = some (r, c', again)) (hf : foundprocess c pid = some i) :
    r ≠ -1 := by
  unfold killProcess at hrun
  by_cases hlow : pid < 3
  · obtain ⟨rfl, -⟩ : 0 = r ∧ c = c' ∧ false = again := by simpa [hlow] using hrun
    decide
  · simp only [if_neg hlow, hf] at hrun
    obtain ⟨c₁, -, hrun⟩ := Option.bind_eq_some_iff.mp hrun
    obtain ⟨⟨v, c₂⟩, -, hret⟩ := Option.bind_eq_some_iff.mp hrun
    obtain ⟨rfl, -⟩ : 0 = r ∧ c₂ = c' ∧ true = again := by simpa using hret
    decide

theorem blockProcess_found (hrun : blockProcess c pid = some (r, c')) (hf : foundprocess c pid = some i)
    (hs : c.state (c.processesList i) = .ready ∨ c.state (c.processesList i) = .running) : r ≠ -1 := by
  unfold blockProcess at hrun
  simp only [hf] at hrun
  rw [if_neg (by rintro ⟨h1, h2⟩; exact hs.elim h2 h1)] at hrun
  obtain ⟨c₁, -, hret⟩ := Option.bind_eq_some_iff.mp hrun
  obtain ⟨rfl, -⟩ : 1 = r ∧ c₁ = c' := by simpa using hret
  decide

theorem unblockProcess_found (hrun : unblockProcess c pid = some (r, c')) (h1 : pid ≠ 1)
    (hf : foundprocess c pid = some i) (hs : c.state (c.processesList i) = .blocked) : r ≠ -1 := by
  unfold unblockProcess at hrun
  simp only [h1, if_false, hf] at hrun
  rw [if_neg (not_not.mpr hs)] at hrun
  obtain ⟨found, -, hrun⟩ := Option.bind_eq_some_iff.mp hrun
  cases found with
  | true =>
    obtain ⟨rfl, -⟩ : 1 = r ∧ _ = c' := by simpa using hrun
    decide
  | false =>
    obtain ⟨c₁, -, hret⟩ := Option.bind_eq_some_iff.mp hrun
    obtain ⟨rfl, -⟩ : 1 = r ∧ c₁ = c' := by simpa using hret
    decide

/-- A process that is killed is found. Its end wakes at most the test, which is its parent. -/
theorem Agrees.kill (h : Agrees m test rqs) (hc : a.call = .killProcess e.pid) (hrun : m.step a = some m')
    (hcall : (m.before a).call a.call = some (r, k, again)) (hi : rqs[i]? = some e) (hs : e.state ≠ .killed) :
    r ≠ -1 ∧ Agrees m' test (rqs.set i { e with state := .killed }) := by
  obtain ⟨q, hq⟩ := h.dummies e (List.mem_of_getElem? hi) hs
  obtain ⟨j, hf, -⟩ := hq.found h.toHosts
  have hget : getProcessByPid (m.before a).toCore e.pid = q := hq.getProcessByPid h.toHosts
  have hok : a.call.Orderly m.toKernel := by rw [hc]; trivial
  refine ⟨?_, h.set hok hrun hi hs hq (fun p hpq hpt => ?_) (fun p hend => ?_) fun hne => absurd rfl hne⟩
  · rw [hc] at hcall
    obtain ⟨⟨v, c, b⟩, hkill, hret⟩ := Option.map_eq_some_iff.mp hcall
    obtain ⟨rfl, -⟩ : v = r ∧ _ = k ∧ b = again := by simpa using hret
    exact killProcess_found hkill hf
  · rw [hc]
    refine ⟨fun hw => hpt ?_, id, fun hend => hpq (hend.2.trans hget)⟩
    obtain ⟨-, hw⟩ := hw
    rw [hget] at hw
    rw [hw.2.1, show (m.before a).parentPid q = m.pid test from hq.parentPid]
    exact h.kernel.pids.getProcessByPid h.inTable
  · rw [hc] at hend
    exact hend.2.trans hget

/-- A process that is blocked may run, so it is blocked. -/
theorem Agrees.block (h : Agrees m test rqs) (hc : a.call = .blockProcess e.pid) (hrun : m.step a = some m')
    (hi : rqs[i]? = some e) (hs : e.state = .running) (hcall : (m.before a).call a.call = some (r, k, again)) :
    r ≠ -1 ∧ Agrees m' test (rqs.set i { e with state := .blocked }) := by
  have hne : e.state ≠ .killed := by rw [hs]; decide
  obtain ⟨q, hq⟩ := h.dummies e (List.mem_of_getElem? hi) hne
  obtain ⟨j, hf, hj⟩ := hq.found h.toHosts
  have hget : getProcessByPid (m.before a).toCore e.pid = q := hq.getProcessByPid h.toHosts
  have hok : a.call.Orderly m.toKernel := by rw [hc]; trivial
  have hmay : m.state q = .ready ∨ m.state q = .running := by
    have halive := hq.alive
    have hnot : m.state q ≠ .blocked := fun hb => by
      rw [hq.blocked, hs] at hb
      cases hb
    cases hst : m.state q <;> simp_all
  have hend (p : ℕ) : ¬a.call.ends (m.before a) p := by rw [hc]; exact id
  have hafter := after_call h.kernel hok hrun hcall
  have hblocked : m'.state q = .blocked := by
    rw [hc] at hcall
    have hok' : (Call.blockProcess e.pid).Orderly (m.before a) := trivial
    obtain ⟨-, heff⟩ := call_effect (h.kernel.supply a.answers) hok' nofun hcall
    exact (hafter q).blocked.mpr (heff.halts q ⟨hget.symm, hmay⟩).2
  refine ⟨?_, h.set hok hrun hi hne hq (fun p hpq _ => ?_) (fun p hp => absurd hp (hend p)) fun _ => ?_⟩
  · rw [hc] at hcall
    obtain ⟨⟨v, c⟩, hblock, hret⟩ := Option.map_eq_some_iff.mp hcall
    obtain ⟨rfl, -⟩ : v = r ∧ _ = k ∧ false = again := by simpa using hret
    exact blockProcess_found hblock hf (hj ▸ hmay)
  · rw [hc]
    exact ⟨id, fun hh => hpq (hh.1.trans hget), id⟩
  · exact hq.restate h.toHosts hrun (step_keeps h.kernel hok hrun hq.inTable (hend q)) (by rw [hblocked]; decide)
      (by simp [hblocked])

/-- A process that is unblocked is blocked, so it is made ready. -/
theorem Agrees.unblock (h : Agrees m test rqs) (hc : a.call = .unblockProcess e.pid) (hrun : m.step a = some m')
    (hi : rqs[i]? = some e) (hs : e.state = .blocked) (hcall : (m.before a).call a.call = some (r, k, again)) :
    r ≠ -1 ∧ Agrees m' test (rqs.set i { e with state := .running }) := by
  have hne : e.state ≠ .killed := by rw [hs]; decide
  obtain ⟨q, hq⟩ := h.dummies e (List.mem_of_getElem? hi) hne
  obtain ⟨j, hf, hj⟩ := hq.found h.toHosts
  have hget : getProcessByPid (m.before a).toCore e.pid = q := hq.getProcessByPid h.toHosts
  have hok : a.call.Orderly m.toKernel := by rw [hc]; trivial
  have hb : m.state q = .blocked := hq.blocked.mpr hs
  have hend (p : ℕ) : ¬a.call.ends (m.before a) p := by rw [hc]; exact id
  have hafter := after_call h.kernel hok hrun hcall
  have hready : k.state q = .ready := by
    rw [hc] at hcall
    have hok' : (Call.unblockProcess e.pid).Orderly (m.before a) := trivial
    obtain ⟨-, heff⟩ := call_effect (h.kernel.supply a.answers) hok' nofun hcall
    exact (heff.wakes q id ⟨hq.notFirst, hget.symm, hb⟩).2
  obtain ⟨hnot, halive⟩ := (hafter q).of_ready hready
  refine ⟨?_, h.set hok hrun hi hne hq (fun p hpq _ => ?_) (fun p hp => absurd hp (hend p)) fun _ => ?_⟩
  · rw [hc] at hcall
    obtain ⟨⟨v, c⟩, hunblock, hret⟩ := Option.map_eq_some_iff.mp hcall
    obtain ⟨rfl, -⟩ : v = r ∧ _ = k ∧ false = again := by simpa using hret
    exact unblockProcess_found hunblock hq.notFirst hf (hj ▸ hb)
  · rw [hc]
    exact ⟨fun hw => hpq (hw.2.1.trans hget), id, id⟩
  · exact hq.restate h.toHosts hrun (step_keeps h.kernel hok hrun hq.inTable (hend q)) halive (by simp [hnot])

theorem Agrees.add (h : Agrees m test rqs) (hq : IsDummy m.toCore test e q)
    (hnew : ∀ f ∈ rqs, f.state ≠ .killed → f.pid ≠ e.pid) : Agrees m test (rqs ++ [e]) := by
  have hget (j : ℕ) (f : PRq) (hf : (rqs ++ [e])[j]? = some f) : rqs[j]? = some f ∨ j = rqs.length ∧ f = e := by
    rcases lt_or_ge j rqs.length with hj | hj
    · rw [List.getElem?_append_left hj] at hf
      exact Or.inl hf
    · rw [List.getElem?_append_right hj, List.getElem?_singleton] at hf
      split at hf
      · exact Or.inr ⟨by omega, (Option.some.inj hf).symm⟩
      · cases hf
  refine ⟨h.toHosts, fun f hf hs => ?_, fun i j f g hf hg hfs hgs hpid => ?_⟩
  · rcases List.mem_append.mp hf with hf | hf
    · exact h.dummies f hf hs
    · rw [List.mem_singleton.mp hf]
      exact ⟨q, hq⟩
  · rcases hget i f hf with hi | ⟨rfl, hfe⟩
    · rcases hget j g hg with hj | ⟨-, hge⟩
      · exact h.apart i j f g hi hj hfs hgs hpid
      · exact absurd (hge ▸ hpid) (hnew f (List.mem_of_getElem? hi) hfs)
    · rcases hget j g hg with hj | ⟨hjl, -⟩
      · exact absurd (hfe ▸ hpid.symm) (hnew g (List.mem_of_getElem? hj) hgs)
      · exact hjl.symm

theorem Agrees.create (h : Agrees m test rqs) {args : CreateArgs} (hc : a.call = .createProcess args)
    (hcur : m.currentProcess = test) (hslot : ∃ i < maxProcesses, m.processesList i = 0)
    (hfree : ∃ i : ℕ, i < maxProcesses ∧ m.pids i = false) (hrun : m.step a = some m')
    (hcall : (m.before a).call a.call = some (r, k, again)) :
    Agrees m' test rqs ∧ (r ≠ -1 → Agrees m' test (rqs ++ [⟨r, .running⟩])) := by
  have hok : a.call.Orderly m.toKernel := by rw [hc]; exact hslot
  have hspare (p : ℕ) : a.call.LeavesAlone (m.before a) p := by rw [hc]; exact ⟨id, id, id⟩
  have hold : Agrees m' test rqs :=
    h.other hok hrun (fun e _ _ => hspare _) (hspare test).2.2 fun p _ _ => (hspare p).2.2
  refine ⟨hold, fun hr => ?_⟩
  obtain ⟨hnext, p, hfresh, hin, hpid, hparent, hblocked, halive⟩ :=
    step_creates h.kernel hc hslot (hcur ▸ h.inTable) hrun hcall hr
  have hother {q : ℕ} (hq : InTable m.toCore q) : q ≠ p ∧ m.pid q ≠ r := by
    have hqp : q ≠ p := fun he => hfresh (he ▸ hq)
    refine ⟨hqp, fun he => hqp ?_⟩
    rw [← step_pid_eq h.table hrun hq, ← hpid] at he
    exact hold.kernel.pids.inj q p (step_keeps h.kernel hok hrun hq (hspare q).2.2) hin he
  have hdummy : IsDummy m'.toCore test ⟨r, .running⟩ p := by
    refine ⟨hin, hpid, ?_, (hother h.inTable).1.symm, ?_, fun h1 => ?_, halive, by simp [hblocked]⟩
    · rw [hparent, hcur, step_pid_eq h.table hrun h.inTable]
    · rw [hnext]
      exact nextPid_pos hfree
    · obtain ⟨p₁, hp₁, hpid₁⟩ := h.first
      exact (hother hp₁).2 (hpid₁.trans h1.symm)
  refine hold.add hdummy fun f hf hs hpe => ?_
  obtain ⟨q, hq⟩ := h.dummies f hf hs
  exact (hother hq.inTable).2 (hq.pid.trans hpe)

/-! ### Runs -/

namespace TestProcesses

/-- The entry is not killed, so its process counts. -/
def counts (e : PRq) : Bool := e.state ≠ .killed

/-- The entries agree with the kernel, and `alive` with the entries. -/
structure Sound (n : ℕ) (s : TestProcesses) : Prop where
  agrees : Agrees s.toMachine s.test s.rqs
  short : s.rqs.length ≤ n
  count : s.alive = s.rqs.countP counts
  fine : s.place ≠ .error

variable {s t : TestProcesses} {odd : Bool} {waiting : ℤ} {offset : ℕ} {answers : List ℕ}

theorem setState_eq (hi : s.rqs[i]? = some e) : s.setState i st = s.rqs.set i { e with state := st } := by
  rw [setState, List.modify_eq_set_getElem?, hi]
  rfl

/-- The number of processes when one entry gets another state. -/
theorem countP_set_state (st : RqState) (hi : rqs[i]? = some e) (hs : e.state ≠ .killed) :
    (rqs.set i { e with state := st }).countP counts + 1 = rqs.countP counts + if st = .killed then 0 else 1 := by
  obtain ⟨hlt, hget⟩ := List.getElem?_eq_some_iff.mp hi
  have hpos : 0 < rqs.countP counts :=
    List.countP_pos_iff.mpr ⟨e, List.mem_of_getElem? hi, by simpa [counts] using hs⟩
  rw [List.countP_set hlt, hget]
  by_cases hst : st = .killed
  · simp [counts, hs, hst]
    omega
  · simp [counts, hs, hst]
    omega

theorem usrKill_of_pos (h : 0 < pid) : usrKill pid = .call (.killProcess pid) := if_pos h

theorem request_cases (n : ℕ) (s : TestProcesses) (odd : Bool) (waiting : ℤ) :
    s.request n odd waiting = .nothing ∨
      (s.place = .create ∧ s.rqs.length < n ∧ s.request n odd waiting = .call (.createProcess ⟨0, 3, 0, waiting⟩)) ∨
      (∃ rq e, s.place = .act rq ∧ s.rqs[rq]? = some e ∧
        ((odd = true ∧ e.state = .running ∧ s.request n odd waiting = .call (.blockProcess e.pid)) ∨
          odd = false ∧ e.state ≠ .killed ∧ s.request n odd waiting = usrKill e.pid)) ∨
      ∃ rq e, s.place = .unblock rq ∧ s.rqs[rq]? = some e ∧ e.state = .blocked ∧
        s.request n odd waiting = .call (.unblockProcess e.pid) := by
  unfold request
  cases s.place with
  | create =>
    by_cases hlen : s.rqs.length < n
    · exact Or.inr (Or.inl ⟨rfl, hlen, if_pos hlen⟩)
    · exact Or.inl (if_neg hlen)
  | act rq =>
    cases he : s.rqs[rq]? with
    | none => exact Or.inl (by simp [he])
    | some e =>
      cases odd with
      | true =>
        by_cases hs : e.state = .running
        · exact Or.inr (Or.inr (Or.inl ⟨rq, e, rfl, he, Or.inl ⟨rfl, hs, by simp [he, hs]⟩⟩))
        · exact Or.inl (by simp [he, hs])
      | false =>
        by_cases hs : e.state = .running ∨ e.state = .blocked
        · have hne : e.state ≠ .killed := by rcases hs with hs | hs <;> simp [hs]
          exact Or.inr (Or.inr (Or.inl ⟨rq, e, rfl, he, Or.inr ⟨rfl, hne, by simp [he, hs]⟩⟩))
        · exact Or.inl (by simp [he, hs])
  | unblock rq =>
    cases he : s.rqs[rq]? with
    | none => exact Or.inl (by simp [he])
    | some e =>
      by_cases hs : e.state = .blocked ∧ odd = true
      · exact Or.inr (Or.inr (Or.inr ⟨rq, e, rfl, he, hs.1, by simp [he, hs]⟩))
      · exact Or.inl (by simp [he, hs])
  | uncreated | error => exact Or.inl rfl

/-- The library refuses no request: every process that is to be killed has a pid above zero. -/
theorem Sound.not_refused (h : Sound n s) (odd : Bool) (waiting : ℤ) : s.request n odd waiting ≠ .refused := by
  intro href
  rcases request_cases n s odd waiting with hreq | ⟨-, -, hreq⟩ | ⟨rq, e, -, hi, ⟨-, -, hreq⟩ | ⟨-, hs, hreq⟩⟩ |
    ⟨rq, e, -, -, -, hreq⟩
  · rw [hreq] at href
    cases href
  · rw [hreq] at href
    cases href
  · rw [hreq] at href
    cases href
  · obtain ⟨q, hq⟩ := h.agrees.dummies e (List.mem_of_getElem? hi) hs
    rw [hreq, usrKill_of_pos hq.pos] at href
    cases href
  · rw [hreq] at href
    cases href

theorem Sound.whileAlive (h : Sound n s) : Sound n s.whileAlive := by
  unfold TestProcesses.whileAlive
  split
  · exact ⟨h.agrees, h.short, h.count, nofun⟩
  · case isFalse hzero => exact ⟨h.agrees.toHosts.nil, Nat.zero_le n, by simpa using hzero, nofun⟩

theorem Sound.goOn (h : Sound n s) : Sound n (s.goOn n) := by
  unfold TestProcesses.goOn
  cases hplace : s.place with
  | create => exact h.whileAlive
  | act rq => exact ⟨h.agrees, h.short, h.count, by dsimp only; split <;> nofun⟩
  | unblock rq =>
    dsimp only
    split
    · exact ⟨h.agrees, h.short, h.count, nofun⟩
    · exact h.whileAlive
  | uncreated => exact h
  | error => exact absurd hplace h.fine

/-- No call of the test fails, and the kernel does what the test notes. -/
theorem Sound.request (h : Sound n s) (hn : n < 2 ^ 8) (hcur : s.currentProcess = s.test)
    (hslot : s.place = .create → s.rqs.length < n →
      (∃ i < maxProcesses, s.processesList i = 0) ∧ ∃ i : ℕ, i < maxProcesses ∧ s.pids i = false)
    (hreq : s.request n odd waiting = .call a.call) (hrun : s.toMachine.step a = some m)
    (hcall : (s.before a).call a.call = some (r, k, again)) : Sound n { s.returned odd r with toMachine := m } := by
  have hle : s.rqs.countP counts ≤ n := (List.countP_le_length ..).trans h.short
  have hshort := h.short
  have hcount := h.count
  unfold returned
  rcases request_cases n s odd waiting with hno | ⟨hplace, hlen, hc⟩ |
    ⟨rq, e, hplace, hi, ⟨rfl, hs, hc⟩ | ⟨rfl, hs, hc⟩⟩ | ⟨rq, e, hplace, hi, hs, hc⟩
  · rw [hreq] at hno
    cases hno
  · obtain ⟨hfree, hpid⟩ := hslot hplace hlen
    obtain ⟨hold, hnew⟩ := h.agrees.create (TestRequest.call.inj (hreq.symm.trans hc)) hcur hfree hpid hrun hcall
    simp only [hplace]
    split
    · exact ⟨hold, h.short, h.count, nofun⟩
    · case isFalse hr =>
      refine ⟨hnew hr, by simpa using hlen, ?_, nofun⟩
      have hlt : s.rqs.countP counts < 2 ^ 8 - 1 := by
        have := List.countP_le_length (p := counts) (l := s.rqs)
        omega
      have hnew : (s.rqs ++ [(⟨r, .running⟩ : PRq)]).countP counts = s.rqs.countP counts + 1 := by
        rw [List.countP_append]
        rfl
      show (s.alive + 1) % 2 ^ 8 = (s.rqs ++ [(⟨r, .running⟩ : PRq)]).countP counts
      omega
  · obtain ⟨hr, hnew⟩ := h.agrees.block (TestRequest.call.inj (hreq.symm.trans hc)) hrun hi hs hcall
    have hset := countP_set_state .blocked hi (by rw [hs]; decide)
    rw [if_neg (by decide)] at hset
    simp only [hplace, if_neg hr, if_true, setState_eq hi]
    refine ⟨hnew, by simpa using hshort, ?_, nofun⟩
    show s.alive = (s.rqs.set rq { e with state := .blocked }).countP counts
    omega
  · obtain ⟨q, hq⟩ := h.agrees.dummies e (List.mem_of_getElem? hi) hs
    rw [usrKill_of_pos hq.pos] at hc
    obtain ⟨hr, hnew⟩ := h.agrees.kill (TestRequest.call.inj (hreq.symm.trans hc)) hrun hcall hi hs
    have hset := countP_set_state .killed hi hs
    rw [if_pos rfl] at hset
    simp only [hplace, if_neg hr, Bool.false_eq_true, if_false, setState_eq hi]
    refine ⟨hnew, by simpa using hshort, ?_, nofun⟩
    show (s.alive + 2 ^ 8 - 1) % 2 ^ 8 = (s.rqs.set rq { e with state := .killed }).countP counts
    omega
  · obtain ⟨hr, hnew⟩ := h.agrees.unblock (TestRequest.call.inj (hreq.symm.trans hc)) hrun hi hs hcall
    have hset := countP_set_state .running hi (by rw [hs]; decide)
    rw [if_neg (by decide)] at hset
    simp only [hplace, if_neg hr, setState_eq hi]
    refine ⟨hnew, by simpa using hshort, ?_, nofun⟩
    show s.alive = (s.rqs.set rq { e with state := .running }).countP counts
    omega

theorem Sound.other (h : Sound n s) (hok : s.Fair n (.other a)) (hrun : s.toMachine.step a = some m) :
    Sound n { s with toMachine := m } := by
  obtain ⟨hcall, hspare, htest, hfirst⟩ := hok
  refine ⟨h.agrees.other hcall hrun hspare htest fun p hp hpid => ?_, h.short, h.count, h.fine⟩
  rwa [← hpid, h.agrees.kernel.pids.getProcessByPid hp] at hfirst

theorem Sound.step (h : Sound n s) (hn : n < 2 ^ 8) {b : ProcessesAction} (hok : s.Fair n b)
    (hstep : s.step n b = some t) : Sound n t := by
  cases b with
  | test odd waiting offset answers =>
    unfold TestProcesses.step at hstep
    by_cases hcur : s.currentProcess = s.test
    · simp only [if_pos hcur] at hstep
      cases hreq : s.request n odd waiting with
      | nothing =>
        simp only [hreq] at hstep
        rw [← Option.some.inj hstep]
        exact h.goOn
      | refused => exact absurd hreq (h.not_refused odd waiting)
      | call call =>
        simp only [hreq] at hstep
        obtain ⟨⟨r, k, again⟩, hcall, hstep⟩ := Option.bind_eq_some_iff.mp hstep
        obtain ⟨m, hrun, hret⟩ := Option.bind_eq_some_iff.mp hstep
        rw [← Option.some.inj hret]
        exact h.request (a := ⟨call, offset, answers⟩) hn hcur hok hreq hrun hcall
    · simp [if_neg hcur] at hstep
  | other a =>
    obtain ⟨m, hrun, rfl⟩ := Option.map_eq_some_iff.mp hstep
    exact h.other hok hrun

end TestProcesses

/-- Whatever other processes do in between, no call of the test fails: each entry that is not
killed has a process of its own, a child of the test that is blocked exactly if the entry says
so, and `alive` is the number of these entries. -/
theorem test_processes_agrees {n : ℕ} {s : TestProcesses} (hn : n < 2 ^ 8)
    (hrun : (processesSystem n).Reach (TestProcesses.Fair n) s) :
    s.place ≠ .error ∧ s.alive = s.rqs.countP TestProcesses.counts ∧
      (∀ e ∈ s.rqs, e.state ≠ .killed → ∃ q, IsDummy s.toCore s.test e q) ∧
      ∀ (i j : ℕ) (e f : PRq), s.rqs[i]? = some e → s.rqs[j]? = some f → e.state ≠ .killed → f.state ≠ .killed →
        e.pid = f.pid → i = j := by
  have hall : TestProcesses.Sound n s := hrun.invariant (I := TestProcesses.Sound n)
    (fun s ⟨hboot, htest, hfirst, hrqs, halive, hplace⟩ => by
      have hhosts : Hosts s.toMachine s.test := ⟨boot_reach_inv hboot, boot_reach_table hboot, htest, hfirst⟩
      refine ⟨?_, ?_, ?_, ?_⟩
      · rw [hrqs]
        exact hhosts.nil
      · rw [hrqs]
        exact Nat.zero_le n
      · rw [hrqs, halive]
        rfl
      · rw [hplace]
        nofun)
    fun _ _ _ h hok hstep => h.step hn hok hstep
  exact ⟨hall.fine, hall.count, hall.agrees.dummies, hall.agrees.apart⟩

/-- The test is process `1` and alone. -/
def testAlone : TestProcesses :=
  ⟨ran (fun m a => a.call.Orderly m.toKernel) initial [create 100, plain .tick], 101, [], 0, .create⟩

/-- It creates two processes, blocks the first and kills the other one, and the timer ticks. -/
def twoDummies : TestProcesses :=
  (System.runList (TestProcesses.step 2) (TestProcesses.Fair 2) testAlone
    [.test false 0 0 [200, 201, 202, 203, 204, 205], .test false 0 0 [300, 301, 302, 303, 304, 305],
      .test false 0 0 [], .test true 0 0 [], .test false 0 0 [], .other (plain .tick)]).getD testAlone

theorem test_processes_agrees_twoDummies :
    twoDummies.rqs = [⟨2, .blocked⟩, ⟨3, .killed⟩] ∧ twoDummies.alive = 1 ∧
      ∃ q, IsDummy twoDummies.toCore 101 ⟨2, .blocked⟩ q := by
  have hrqs : twoDummies.rqs = [⟨2, .blocked⟩, ⟨3, .killed⟩] := by decide +kernel
  have hboot : boot.Reach (fun m a => a.call.Orderly m.toKernel)
      (ran (fun m a => a.call.Orderly m.toKernel) initial [create 100, plain .tick]) := boot_ran (by decide +kernel)
  have hinit : (processesSystem 2).init testAlone :=
    ⟨hboot, by decide +kernel, ⟨101, by decide +kernel, by decide +kernel⟩, rfl, rfl, rfl⟩
  have hreach : (processesSystem 2).Reach (TestProcesses.Fair 2) twoDummies :=
    (System.Reach.init hinit).runList_getD (fun _ _ _ => id) (by decide +kernel)
  obtain ⟨-, hcount, hdummies, -⟩ := test_processes_agrees (by decide) hreach
  have htest : twoDummies.test = 101 := by decide +kernel
  refine ⟨hrqs, ?_, ?_⟩
  · rw [hcount, hrqs]
    rfl
  · rw [← htest]
    exact hdummies _ (by rw [hrqs]; exact List.mem_cons_self) (by decide)

end BareKernel.Userland
