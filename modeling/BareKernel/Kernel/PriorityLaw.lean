import BareKernel.Kernel.Residents
import BareKernel.Links.Labels

/-! Priorities and their names. `modify_priority` writes the new priority before it tests
it, so a call with a value that is not in the table fails after it has changed the
process. Without such calls, and with indices of the table for new processes, every
process of the table has a priority of the table and the name at the same index. -/

namespace BareKernel

open Function (update)
open Process Links Machine

variable {k k' : Kernel} {c c' c₁ : Core} {m m' : Machine} {p q : ℕ} {pid r v : ℤ} {args : CreateArgs} {again : Bool}

/-- The texts `priorityName`; reads beyond the table are not modelled and count as empty. -/
def priorityNames : ℤ → String
  | 0 => "Critic"
  | 1 => "High"
  | 2 => "Normal"
  | 3 => "Low"
  | _ => ""

/-- The machine with the texts in the blocks for names of priorities. -/
structure NamedMachine extends Machine where
  nameText : ℕ → String

namespace NamedMachine

/-- The name at an index of the table is copied to the block of the process. -/
def copyName (x : NamedMachine) (c : Core) (process : ℕ) (index : ℤ) : ℕ → String :=
  update x.nameText (c.priorityName process) (priorityNames index)

def modifyPriority (x : NamedMachine) (pid newPriority : ℤ) : Option (ℤ × NamedMachine) := do
  let (r, c) ← Process.modifyPriority x.toCore pid newPriority
  match foundprocess x.toCore pid, findIndex priorityTable 4 newPriority with
  | some idx, some index => some (r, { x with toCore := c, nameText := x.copyName c (x.processesList idx) index })
  | _, _ => some (r, { x with toCore := c })

/-- The record that `createProcess` gets in a step, `0` without one. -/
def newProcess (x : NamedMachine) (a : Action) : ℕ :=
  if (mmMalloc (x.supplied a) .stack).1 = 0 then 0 else (mmMalloc (mmMalloc (x.supplied a) .stack).2 .record).1

def manage (x : NamedMachine) : ManagedAction → Option NamedMachine
  | .act a => do
    let m ← x.toMachine.step a
    match a.call with
    | .createProcess args =>
      if x.newProcess a = 0 then some { x with toMachine := m }
      else some { x with toMachine := m, nameText := x.copyName m.toCore (x.newProcess a) args.prio }
    | _ => some { x with toMachine := m }
  | .modifyPriority pid newPriority answers => do
    let (_, x) ← { x with answers := answers }.modifyPriority pid newPriority
    some x

/-- The machine from boot on, priorities being changed. -/
def named : System NamedMachine ManagedAction where
  init x := Boot x.toMachine
  step x b x' := x.manage b = some x'

/-- Only one process gets another priority, with a name in a new block, and its nodes
of the ring the counter for it. -/
def ChangesOnly (x x' : NamedMachine) (p : ℕ) (newPriority : ℤ) : Prop :=
  ∃ (index name : ℕ) (rest : List ℕ) (counter : ℕ → ℤ), index < 4 ∧ priorityTable index = newPriority ∧
    name ∉ x.live .priorityName ∧
    (∀ n, counter n = x.counter n ∨ x.processInfo n = p ∧ counter n = newPriority) ∧
    x' = { x with
      answers := rest
      live := update x.live .priorityName (name :: x.live .priorityName)
      priority := update x.priority p newPriority
      priorityName := update x.priorityName p name
      counter := counter
      nameText := update x.nameText name (priorityNames index) }

/-- A call that returns `0` changes nothing, and one that returns `1` changes one process only. -/
def Atomic (x : NamedMachine) (pid newPriority r : ℤ) (x' : NamedMachine) : Prop :=
  (r = 0 ∧ x' = x) ∨ r = 1 ∧ ChangesOnly x x' (getProcessByPid x.toCore pid) newPriority

/-- Nobody has the pid, or the new priority is one of the table or the old one. -/
def Settles (c : Core) (pid newPriority : ℤ) : Prop :=
  foundprocess c pid = none ∨ newPriority ∈ [8, 4, 2, 1] ∨ c.priority (getProcessByPid c pid) = newPriority

instance (c : Core) (pid newPriority : ℤ) : Decidable (Settles c pid newPriority) :=
  inferInstanceAs (Decidable (_ ∨ _ ∨ _))

end NamedMachine

/-! ### One call -/

theorem findIndex_some {i : ℕ} (h : findIndex priorityTable 4 v = some i) : i < 4 ∧ priorityTable i = v := by
  have hmem := List.mem_of_find?_eq_some h
  have hv := List.find?_some h
  exact ⟨List.mem_range.mp hmem, by simpa using hv⟩

namespace NamedMachine

variable {x x' : NamedMachine}

/-- A call is atomic exactly when nobody has the pid, or the priority is one of the table
or the old one. -/
theorem modifyPriority_atomic (hrun : x.modifyPriority pid v = some (r, x')) :
    Atomic x pid v r x' ↔ Settles x.toCore pid v := by
  obtain ⟨⟨w, c⟩, hcall, hret⟩ := Option.bind_eq_some_iff.mp hrun
  have hspec := modifyPriority_spec hcall
  unfold Settles
  cases hf : foundprocess x.toCore pid with
  | none =>
    rw [hf] at hspec hret
    obtain ⟨rfl, rfl⟩ := hspec
    obtain ⟨rfl, rfl⟩ : 0 = r ∧ x = x' := by simpa using hret
    exact ⟨fun _ => Or.inl rfl, fun _ => Or.inl ⟨rfl, rfl⟩⟩
  | some i =>
    rw [getProcessByPid_some hf]
    cases hv : findIndex priorityTable 4 v with
    | none =>
      have hillegal : v ∉ [8, 4, 2, 1] := by
        rw [← findIndex_priority, hv]
        simp
      rw [hf, hv] at hspec hret
      obtain ⟨rfl, rfl⟩ := hspec
      obtain ⟨rfl, rfl⟩ : 0 = r ∧ _ = x' := by simpa using hret
      -- the priority has been written before the test
      constructor
      · rintro (⟨-, hsame⟩ | ⟨h01, -⟩)
        · have hprio := congrArg (fun x : NamedMachine => x.priority (x.processesList i)) hsame
          dsimp only at hprio
          rw [Function.update_self] at hprio
          exact Or.inr (Or.inr hprio.symm)
        · cases h01
      · rintro (hnone | hlegal | hsame)
        · cases hnone
        · exact absurd hlegal hillegal
        · left
          rw [← hsame, Function.update_eq_self]
          exact ⟨rfl, rfl⟩
    | some index =>
      have hlegal : v ∈ [8, 4, 2, 1] := (findIndex_priority v).mp (by rw [hv]; rfl)
      rw [hf, hv] at hspec hret
      obtain ⟨rfl, name, rest, counter, -, hfresh, hcounter, rfl⟩ := hspec
      obtain ⟨rfl, rfl⟩ : 1 = r ∧ _ = x' := by simpa using hret
      obtain ⟨hi, hindex⟩ := findIndex_some hv
      refine ⟨fun _ => Or.inr (Or.inl hlegal), fun _ => Or.inr ⟨rfl, ?_⟩⟩
      rw [getProcessByPid_some hf]
      refine ⟨index, name, rest, counter, hi, hindex, hfresh, hcounter, ?_⟩
      simp [copyName]

end NamedMachine

/-! ### What a call does to the names -/

/-- The priorities, their names and the blocks for names are the same. -/
structure SameNames (c c' : Core) : Prop where
  priority : c'.priority = c.priority
  priorityName : c'.priorityName = c.priorityName
  live : c'.live .priorityName = c.live .priorityName

theorem SameNames.refl (c : Core) : SameNames c c := ⟨rfl, rfl, rfl⟩

theorem SameNames.trans (h : SameNames c c₁) (h' : SameNames c₁ c') : SameNames c c' :=
  ⟨h'.priority.trans h.priority, h'.priorityName.trans h.priorityName, h'.live.trans h.live⟩

theorem Process.RingEdit.sameNames (h : RingEdit c c') : SameNames c c' :=
  ⟨congrArg Records.priority h.records, congrArg Records.priorityName h.records, h.live .priorityName (by simp)⟩

theorem sameNames_firm : Firm SameNames where
  trans h h' := h.trans h'
  ring h := h.sameNames
  mark _ _ _ _ := ⟨rfl, rfl, rfl⟩
  family _ _ _ _ := ⟨rfl, rfl, rfl⟩
  memory _ _ _ hlive := ⟨rfl, rfl, hlive .priorityName (by simp) (by simp)⟩

theorem scheduler_names {sp sp' : StackPtr} (h : scheduler c sp = some (sp', c')) : SameNames c c' := by
  obtain ⟨sps, states, counters, node, current, rfl⟩ := scheduler_eq h
  exact ⟨rfl, rfl, rfl⟩

theorem quitCPU_names (h : quitCPU c = some (r, c')) : SameNames c c' := by
  rcases quitCPU_cases h with ⟨rfl, -⟩ | ⟨-, c₁, sp, hadd, hsched⟩
  · exact .refl _
  · have hnames := (addToReadyList_edit hadd).sameNames.trans (scheduler_names hsched)
    exact ⟨hnames.priority, hnames.priorityName, hnames.live⟩

theorem wait_names (h : k.wait = some (r, k', again)) : SameNames k.toCore k'.toCore := by
  rcases wait_cases h with ⟨-, rfl, -⟩ | ⟨-, -, v, c, hblock, rfl⟩
  · exact .refl _
  · have hnames := sameNames_firm.blockProcess hblock
    exact ⟨hnames.priority, hnames.priorityName, hnames.live⟩

/-! ### The end of a process -/

/-- The block for the name of a process has been freed. -/
structure FreesName (c c' : Core) (p : ℕ) : Prop where
  priority : c'.priority = c.priority
  priorityName : c'.priorityName = c.priorityName
  live : c'.live .priorityName = (c.live .priorityName).erase (c.priorityName p)

theorem SameNames.frees (h : SameNames c c₁) (h' : FreesName c₁ c' p) : FreesName c c' p :=
  ⟨h'.priority.trans h.priority, h'.priorityName.trans h.priorityName, by rw [h'.live, h.live, h.priorityName]⟩

theorem FreesName.same (h : FreesName c c₁ p) (h' : SameNames c₁ c') : FreesName c c' p :=
  ⟨h'.priority.trans h.priority, h'.priorityName.trans h.priorityName, h'.live.trans h.live⟩

theorem freeHoldings_names (c : Core) (p : ℕ) : FreesName c (freeHoldings c p) p := by
  have hargs (entries : List ℕ) (c₁ : Core) :
      SameNames c₁ (entries.foldl (fun c entry => mmFree c .arg entry) c₁) := by
    induction entries generalizing c₁ with
    | nil => exact .refl c₁
    | cons entry entries ih =>
      have hfree : SameNames c₁ (mmFree c₁ .arg entry) := ⟨rfl, rfl, by simp [mmFree]⟩
      exact hfree.trans (ih _)
  have hfirst : SameNames c (mmFree (mmFree c .stack (c.stackTop p)) .name (c.name p)) := ⟨rfl, rfl, by simp [mmFree]⟩
  have hname (c₁ : Core) : FreesName c₁ (mmFree c₁ .priorityName (c₁.priorityName p)) p := ⟨rfl, rfl, by simp [mmFree]⟩
  have hlast (c₁ : Core) (argv : ℕ) : SameNames c₁ (mmFree c₁ .argv argv) := ⟨rfl, rfl, by simp [mmFree]⟩
  exact ((hfirst.frees (hname _)).same (hargs _ _)).same (hlast _ _)

theorem removeFromProcessesList_names (h : removeFromProcessesList c p = some (r, c')) :
    (foundprocess c (c.pid p) = none ∧ c' = c) ∨ foundprocess c (c.pid p) ≠ none ∧ FreesName c c' p := by
  rcases removeFromProcessesList_cases h with hnone | ⟨i, c₁, c₂, hf, hleave, hrem, rfl⟩
  · exact Or.inl hnone
  · have hfamily := sameNames_firm.leaveParent hleave
    have hend : SameNames c₁ c₂ := sameNames_firm.marked (by simp) (removeFromReadyList_edit hrem)
    have hfree := (hfamily.trans hend).frees (freeHoldings_names c₂ p)
    exact Or.inr ⟨by simp [hf], hfree.same ⟨rfl, rfl, by simp [mmFree]⟩⟩

theorem killProcess_names (h : killProcess c pid = some (r, c', again)) :
    ((pid < 3 ∨ foundprocess c pid = none) ∧ c' = c) ∨
      3 ≤ pid ∧ ∃ i, foundprocess c pid = some i ∧ FreesName c c' (c.processesList i) := by
  by_cases hlow : pid < 3
  · obtain ⟨-, rfl, -⟩ : 0 = r ∧ c = c' ∧ false = again := by simpa [killProcess, hlow] using h
    exact Or.inl ⟨Or.inl hlow, rfl⟩
  · cases hf : foundprocess c pid with
    | none =>
      obtain ⟨-, rfl, -⟩ : -1 = r ∧ c = c' ∧ false = again := by simpa [killProcess, hlow, hf] using h
      exact Or.inl ⟨Or.inr rfl, rfl⟩
    | some i =>
      obtain ⟨c₁, w, hedit, hremove, hfound⟩ := killProcess_found h (not_lt.mp hlow) hf
      have hring := hedit.sameNames
      have hout : SameNames c c₁ := ⟨hring.priority, hring.priorityName, hring.live⟩
      have hmark := sameNames_firm.mark c₁ (c.processesList i) .terminated (by simp)
      have hfree := ((removeFromProcessesList_names hremove).resolve_left fun hnone => hfound hnone.1).2
      exact Or.inr ⟨not_lt.mp hlow, i, rfl, (hout.trans hmark).frees hfree⟩

/-! ### A new process -/

theorem loadArgs_names {argc : ℕ} (h : loadArgs c p argc = some c') : SameNames c c' := by
  obtain ⟨argv, answers, live, entries, rfl, hlive⟩ := loadArgs_some h
  exact ⟨rfl, rfl, hlive .priorityName (by simp) (by simp)⟩

theorem linkParent_names (c : Core) (p : ℕ) : SameNames c (linkParent c p) := by
  obtain ⟨parents, children, lengths, hlink⟩ := linkParent_eq c p
  rw [hlink]
  exact ⟨rfl, rfl, rfl⟩

/-- A process has got a priority and a block for its name. -/
structure NewName (c c' : Core) (p : ℕ) (priority : ℤ) (name : ℕ) : Prop where
  priority : c'.priority = update c.priority p priority
  priorityName : c'.priorityName = update c.priorityName p name
  fresh : name ∉ c.live .priorityName
  live : c'.live .priorityName = name :: c.live .priorityName

theorem NewName.same {name : ℕ} (h : NewName c c₁ p v name) (h' : SameNames c₁ c') : NewName c c' p v name :=
  ⟨h'.priority.trans h.priority, h'.priorityName.trans h.priorityName, h.fresh, h'.live.trans h.live⟩

theorem copyContext_names {stackTop : ℕ} (h : copyContext c p stackTop args = some c') :
    ∃ name, NewName c c' p (priorityTable args.prio) name := by
  obtain ⟨name, priorityName, answers, live, rfl, hfresh, hlive, -⟩ := copyContext_some h
  exact ⟨priorityName, rfl, rfl, hfresh, hlive⟩

theorem enterProcess_names {stackTop : ℕ} (h : enterProcess c p stackTop args = some c') :
    ∃ name, NewName c c' p (priorityTable args.prio) name := by
  obtain ⟨c₁, hcopy, h⟩ := Option.bind_eq_some_iff.mp h
  obtain ⟨c₂, hload, hadd⟩ := Option.bind_eq_some_iff.mp h
  obtain ⟨name, hnew⟩ := copyContext_names hcopy
  obtain ⟨list, hlist⟩ := addToProcessList_eq c₂ p
  have hring := (addToReadyList_edit hadd).sameNames
  rw [hlist] at hring
  have hrest : SameNames c₁ c' := ((linkParent_names c₁ p).trans (loadArgs_names hload)).trans
    ⟨hring.priority, hring.priorityName, hring.live⟩
  have hall := hnew.same hrest
  exact ⟨name, hall.priority, hall.priorityName, hall.fresh, hall.live⟩

/-- Without a record nothing happens to the names; a new process gets one. -/
theorem createProcess_names (h : k.createProcess args = some (r, k')) :
    (NewRecord k.toCore = nobody ∧ SameNames k.toCore k'.toCore) ∨
      ∃ p name, NewRecord k.toCore p ∧ NewName k.toCore k'.toCore p (priorityTable args.prio) name := by
  rcases createProcess_cases h with ⟨-, hnone, answers, live, rfl, hlive⟩ |
    ⟨p, answers, live, c, -, -, hnew, -, hlive, henter, rfl, -⟩
  · exact Or.inl ⟨hnone, rfl, rfl, hlive .priorityName (by simp)⟩
  · obtain ⟨name, hentered⟩ := enterProcess_names henter
    obtain ⟨waiting, honly⟩ := openProcess_only { k with toCore := c } k.currentProcess p
    have hopen := sameNames_firm.pipes honly
    have hname : NewName k.toCore c p (priorityTable args.prio) name := by
      have hkept : live .priorityName = k.live .priorityName := hlive .priorityName (by simp) (by simp)
      refine ⟨hentered.priority, hentered.priorityName, ?_, ?_⟩
      · rw [← hkept]
        exact hentered.fresh
      · rw [← hkept]
        exact hentered.live
    exact Or.inr ⟨p, name, by rw [hnew], hname.same ⟨hopen.priority, hopen.priorityName, hopen.live⟩⟩

/-! ### Every step -/

/-- What a step does to the names. -/
def NameStep (c : Core) : Call → Core → Prop
  | .createProcess args, c' => (NewRecord c = nobody ∧ SameNames c c') ∨
      ∃ p name, NewRecord c p ∧ NewName c c' p (priorityTable args.prio) name
  | .killProcess pid, c' => ((pid < 3 ∨ foundprocess c pid = none) ∧ SameNames c c') ∨
      3 ≤ pid ∧ ∃ i, foundprocess c pid = some i ∧ FreesName c c' (c.processesList i)
  | .exitProcess, c' => (foundprocess c (c.pid c.currentProcess) = none ∧ SameNames c c') ∨
      foundprocess c (c.pid c.currentProcess) ≠ none ∧ FreesName c c' c.currentProcess
  | _, c' => SameNames c c'

theorem NameStep.same {call : Call} (h : NameStep c call c₁) (hs : SameNames c₁ c') : NameStep c call c' := by
  cases call with
  | createProcess args =>
    rcases h with ⟨hno, h⟩ | ⟨p, name, hp, h⟩
    · exact Or.inl ⟨hno, h.trans hs⟩
    · exact Or.inr ⟨p, name, hp, h.same hs⟩
  | killProcess pid =>
    rcases h with ⟨hno, h⟩ | ⟨hlow, i, hi, h⟩
    · exact Or.inl ⟨hno, h.trans hs⟩
    · exact Or.inr ⟨hlow, i, hi, h.same hs⟩
  | exitProcess =>
    rcases h with ⟨hno, h⟩ | ⟨hfound, h⟩
    · exact Or.inl ⟨hno, h.trans hs⟩
    · exact Or.inr ⟨hfound, h.same hs⟩
  | _ => exact SameNames.trans h hs

theorem call_names {call : Call} (h : k.call call = some (r, k', again)) : NameStep k.toCore call k'.toCore := by
  cases call with
  | createProcess args =>
    obtain ⟨⟨w, k₁⟩, hcall, hret⟩ := Option.map_eq_some_iff.mp h
    obtain ⟨-, rfl, -⟩ : w = r ∧ k₁ = k' ∧ false = again := by simpa using hret
    exact createProcess_names hcall
  | killProcess pid =>
    obtain ⟨⟨w, c, b⟩, hcall, hret⟩ := Option.map_eq_some_iff.mp h
    obtain ⟨-, rfl, -⟩ : w = r ∧ _ = k' ∧ b = again := by simpa using hret
    rcases killProcess_names hcall with ⟨hno, rfl⟩ | hfree
    · exact Or.inl ⟨hno, .refl _⟩
    · exact Or.inr hfree
  | exitProcess =>
    obtain ⟨k₁, hcall, hret⟩ := Option.map_eq_some_iff.mp h
    obtain ⟨-, rfl, -⟩ : 0 = r ∧ k₁ = k' ∧ true = again := by simpa using hret
    obtain ⟨w, c, k₂, hremove, honly, rfl⟩ := exitProcess_cases hcall
    have hclose := sameNames_firm.pipes honly
    have hbits : SameNames c { k₂ with pids := update k₂.pids (k₂.pid k.currentProcess - 1) false }.toCore :=
      ⟨hclose.priority, hclose.priorityName, hclose.live⟩
    rcases removeFromProcessesList_names hremove with ⟨hno, rfl⟩ | ⟨hfound, hfree⟩
    · exact Or.inl ⟨hno, hbits⟩
    · exact Or.inr ⟨hfound, hfree.same hbits⟩
  | quitCPU =>
    obtain ⟨⟨w, c⟩, hcall, hret⟩ := Option.map_eq_some_iff.mp h
    obtain ⟨-, rfl, -⟩ : w = r ∧ _ = k' ∧ false = again := by simpa using hret
    exact quitCPU_names hcall
  | wait => exact wait_names h
  | _ => exact sameNames_firm.call h trivial

theorem step_names {a : Action} (h : m.step a = some m') : NameStep (m.supplied a) a.call m'.toCore := by
  obtain ⟨r, k, again, hcall, hcases⟩ := step_cases h
  have hnames := call_names hcall
  rcases hcases with ⟨-, rfl⟩ | ⟨-, cpu, c, hsched, rfl⟩
  · exact hnames
  · exact hnames.same (scheduler_names hsched)

/-! ### Every run -/

namespace NamedMachine

variable {x x' : NamedMachine} {b : ManagedAction} {a : Action}

/-- The priority of the process is that of the table at an index at which the text stands. -/
def Fits (c : Core) (p : ℕ) (text : String) : Prop :=
  ∃ index < 4, c.priority p = priorityTable (index : ℕ) ∧ text = priorityNames (index : ℕ)

/-- The process has a priority of the table and the name at the same index. -/
def Legal (x : NamedMachine) (p : ℕ) : Prop := Fits x.toCore p (x.nameText (x.priorityName p))

instance (x : NamedMachine) (p : ℕ) : Decidable (x.Legal p) := by
  unfold Legal Fits
  infer_instance

/-- New processes have indices of the table, no call changes the priority of a process
to another one that is not in it, and a process that is gone does not exit once more
while another one has its pid. -/
def Careful (x : NamedMachine) : ManagedAction → Prop
  | .modifyPriority pid newPriority _ => Settles x.toCore pid newPriority
  | .act ⟨.createProcess args, _, _⟩ => 0 ≤ args.prio ∧ args.prio < 4
  | .act ⟨.exitProcess, _, _⟩ =>
    InTable x.toCore x.currentProcess ∨ foundprocess x.toCore (x.pid x.currentProcess) = none
  | .act _ => True

/-- The names of the processes of the table. -/
def NamesInv (x : NamedMachine) : Prop :=
  Labelled (InTable x.toCore) x.priorityName (x.live .priorityName) x.nameText (Fits x.toCore)

theorem manage_machine (h : x.manage b = some x') : x.toMachine.manage b = some x'.toMachine := by
  cases b with
  | act a =>
    obtain ⟨m, hstep, hret⟩ := Option.bind_eq_some_iff.mp h
    have hm : x'.toMachine = m := by
      split at hret
      · split at hret <;> obtain rfl := Option.some.inj hret <;> rfl
      · obtain rfl := Option.some.inj hret
        rfl
    rw [hm]
    exact hstep
  | modifyPriority pid newPriority answers =>
    obtain ⟨⟨r, x₁⟩, hcall, hret⟩ := Option.bind_eq_some_iff.mp h
    obtain rfl := Option.some.inj hret
    obtain ⟨⟨w, c⟩, hmodify, hret⟩ := Option.bind_eq_some_iff.mp hcall
    have hmodify' : Process.modifyPriority { x.toCore with answers := answers } pid newPriority = some (w, c) := hmodify
    have hm : x₁.toMachine = { x.toMachine with toCore := c } := by
      dsimp only at hret
      split at hret <;> obtain ⟨-, rfl⟩ := Prod.mk.inj (Option.some.inj hret) <;> rfl
    rw [hm]
    show (Process.modifyPriority { x.toCore with answers := answers } pid newPriority).map _ = _
    rw [hmodify']
    rfl

/-- A step that creates no process writes no name. -/
theorem manage_other (h : x.manage (.act a) = some x') (hc : ∀ args, a.call ≠ .createProcess args) :
    ∃ m, x.toMachine.step a = some m ∧ x' = { x with toMachine := m } := by
  obtain ⟨m, hstep, hret⟩ := Option.bind_eq_some_iff.mp h
  refine ⟨m, hstep, ?_⟩
  split at hret
  · rename_i args hcall
    exact absurd hcall (hc args)
  · exact (Option.some.inj hret).symm

theorem named_table {ok : NamedMachine → ManagedAction → Prop} (h : named.Reach ok x) : TableInv x.toCore := by
  have hreach : managed.Reach (fun _ _ => True) x.toMachine :=
    h.map (f := NamedMachine.toMachine) (fun _ => id) fun x b y _ hst => ⟨b, trivial, manage_machine hst⟩
  exact (managed_invariant hreach).1

theorem NamesInv.same (h : NamesInv x) (htable : ∀ q, InTable x'.toCore q → InTable x.toCore q)
    (hs : SameNames x.toCore x'.toCore) (htext : x'.nameText = x.nameText) : NamesInv x' := by
  have hkept := h.mono htable
  unfold NamesInv
  rw [hs.priorityName, hs.live, htext]
  refine ⟨hkept.live, hkept.inj, fun p hp => ?_⟩
  obtain ⟨index, hi, hprio, htxt⟩ := hkept.fits p hp
  exact ⟨index, hi, by rw [hs.priority, hprio], htxt⟩

theorem NamesInv.freed (h : NamesInv x) (hp : InTable x.toCore p)
    (htable : ∀ q, InTable x'.toCore q → InTable x.toCore q ∧ q ≠ p)
    (hfree : FreesName x.toCore x'.toCore p) (htext : x'.nameText = x.nameText) : NamesInv x' := by
  have hkept := h.drop hp htable
  unfold NamesInv
  rw [hfree.priorityName, hfree.live, htext]
  refine ⟨hkept.live, hkept.inj, fun q hq => ?_⟩
  obtain ⟨index, hi, hprio, htxt⟩ := hkept.fits q hq
  exact ⟨index, hi, by rw [hfree.priority, hprio], htxt⟩

/-- A process, new or old, gets a legal priority and its name. -/
theorem NamesInv.renamed {name index : ℕ} (h : NamesInv x) (hi : index < 4)
    (htable : ∀ q, InTable x'.toCore q → q ≠ p → InTable x.toCore q)
    (hname : NewName x.toCore x'.toCore p (priorityTable index) name)
    (htext : x'.nameText = update x.nameText name (priorityNames index)) : NamesInv x' := by
  unfold NamesInv
  rw [hname.priorityName, hname.live, htext]
  refine Labelled.write h hname.fresh htable (fun q s hqp hfit => ?_) ?_
  · obtain ⟨j, hj, hprio, htxt⟩ := hfit
    refine ⟨j, hj, ?_, htxt⟩
    rw [hname.priority, Function.update_of_ne hqp, hprio]
  · exact ⟨index, hi, by rw [hname.priority, Function.update_self], rfl⟩

theorem enroll_inTable (hp0 : p ≠ 0) (h : InTable (enroll (addRecord c p) p v) q) (hqp : q ≠ p) : InTable c q := by
  rcases enroll_slots (addRecord c p) p v with ⟨i, hi, hfree, hslot⟩ | ⟨-, hslot⟩
  · have hin : InTable (addRecord c p) q ∨ q = p := (inTable_set hi hfree hp0 hslot).mp h
    exact hin.resolve_right hqp
  · exact (inTable_congr hslot).mp h

/-- A process whose slot is cleared is out of the table, and nobody else is. -/
theorem cleared_inTable {i : ℕ} (ht : TableInv c) (hf : foundprocess c pid = some i)
    (hs : c'.processesList = update c.processesList i 0) (h : InTable c' q) : InTable c q ∧ q ≠ c.processesList i :=
  (inTable_clear ht.slots (foundprocess_some hf).1 rfl hs).mp h

theorem newProcess_eq (hp : NewRecord (x.supplied a) p) : x.newProcess a = p := by
  obtain ⟨hs, -, rfl⟩ := hp
  rw [newProcess, if_neg hs]

theorem newProcess_zero (h : NewRecord (x.supplied a) = nobody) : x.newProcess a = 0 := by
  by_contra h0
  have hp : NewRecord (x.supplied a) (x.newProcess a) := by
    unfold newProcess at h0 ⊢
    split at h0
    · exact absurd rfl h0
    · rename_i hs
      rw [if_neg hs]
      exact ⟨hs, h0, rfl⟩
  rw [h] at hp
  exact hp

/-- A new process whose index is one of the table gets the priority and the name there. -/
theorem NamesInv.create {offset : ℕ} {answers : List ℕ} (h : NamesInv x)
    (hprio : 0 ≤ args.prio ∧ args.prio < 4) (hrun : x.manage (.act ⟨.createProcess args, offset, answers⟩) = some x') :
    NamesInv x' := by
  obtain ⟨m, hstep, hret⟩ := Option.bind_eq_some_iff.mp hrun
  have hnames := step_names hstep
  have htable := step_table hstep
  dsimp only at hret
  rcases hnames with ⟨hnone, hsame⟩ | ⟨p, name, hp, hname⟩
  · rw [if_pos (newProcess_zero hnone)] at hret
    obtain rfl := Option.some.inj hret
    refine h.same (fun q hq => ?_) ⟨hsame.priority, hsame.priorityName, hsame.live⟩ rfl
    rcases htable with ⟨hs, -⟩ | ⟨p, hp, -⟩
    · exact hs.inTable.mp hq
    · exact absurd hp (by rw [hnone]; exact id)
  · obtain ⟨index, hindex⟩ : ∃ index : ℕ, args.prio = index := ⟨args.prio.toNat, by omega⟩
    have hnew := newProcess_eq hp
    rw [if_neg (by rw [hnew]; exact hp.2.1), hnew] at hret
    obtain rfl := Option.some.inj hret
    have hblock : m.priorityName p = name := by rw [hname.priorityName, Function.update_self]
    rw [hindex] at hname ⊢
    have hname' : NewName x.toCore m.toCore p (priorityTable index) name :=
      ⟨hname.priority, hname.priorityName, hname.fresh, hname.live⟩
    refine h.renamed (by omega) (fun q hq hqp => ?_) hname' (by rw [copyName, hblock])
    rcases htable with ⟨-, hno⟩ | ⟨s, hs, -, hsame⟩
    · exact absurd hp (hno p)
    · obtain rfl : s = p := hs.2.2.trans hp.2.2.symm
      have hin := enroll_inTable hs.2.1 (hsame.inTable.mp hq) hqp
      exact hin

theorem NamesInv.kill {offset : ℕ} {answers : List ℕ} (h : NamesInv x) (ht : TableInv x.toCore)
    (hrun : x.manage (.act ⟨.killProcess pid, offset, answers⟩) = some x') : NamesInv x' := by
  obtain ⟨m, hstep, rfl⟩ := manage_other hrun (by simp)
  have htable := step_table hstep
  rcases step_names hstep with ⟨hno, hsame⟩ | ⟨hlow, i, hi, hfree⟩
  · refine h.same (fun q hq => ?_) ⟨hsame.priority, hsame.priorityName, hsame.live⟩ rfl
    rcases htable with ⟨hs, -⟩ | ⟨hlow, i, hi, -⟩
    · exact hs.inTable.mp hq
    · rcases hno with hlt | hnone
      · omega
      · rw [hi] at hnone
        cases hnone
  · rcases htable with ⟨-, hlt | hnone⟩ | ⟨-, j, hj, hs⟩
    · omega
    · rw [hi] at hnone
      cases hnone
    · obtain rfl : i = j := Option.some.inj (hi.symm.trans hj)
      have hi' : foundprocess x.toCore pid = some i := hi
      refine h.freed (foundprocess_some hi').2.1 (fun q hq => ?_)
        ⟨hfree.priority, hfree.priorityName, hfree.live⟩ rfl
      obtain ⟨children, lengths, flags, hfam⟩ := leaveFamily_eq
        (freePid (x.supplied ⟨.killProcess pid, offset, answers⟩) pid) (x.processesList i)
      refine cleared_inTable ht hi' ?_ (hs.inTable.mp hq)
      show update (leaveFamily (freePid (x.supplied _) pid) (x.processesList i)).processesList i 0 = _
      rw [hfam]
      rfl

/-- A process that exits is in the table, or nobody in the table has its pid. -/
theorem NamesInv.exit {offset : ℕ} {answers : List ℕ} (h : NamesInv x) (ht : TableInv x.toCore)
    (hok : InTable x.toCore x.currentProcess ∨ foundprocess x.toCore (x.pid x.currentProcess) = none)
    (hrun : x.manage (.act ⟨.exitProcess, offset, answers⟩) = some x') : NamesInv x' := by
  obtain ⟨m, hstep, rfl⟩ := manage_other hrun (by simp)
  obtain ⟨c₁, hsame₁, hcases⟩ : TableStep (x.supplied _) .exitProcess m.toCore := step_table hstep
  rcases step_names hstep with ⟨hnone, hsame⟩ | ⟨hfound, hfree⟩
  · refine h.same (fun q hq => ?_) ⟨hsame.priority, hsame.priorityName, hsame.live⟩ rfl
    have hq₁ := hsame₁.inTable.mp hq
    rcases hcases with ⟨-, rfl⟩ | ⟨i, hi, -⟩
    · exact hq₁
    · rw [hnone] at hi
      cases hi
  · have hcur : InTable x.toCore x.currentProcess := hok.resolve_right hfound
    refine h.freed hcur (fun q hq => ?_) ⟨hfree.priority, hfree.priorityName, hfree.live⟩ rfl
    have hq₁ := hsame₁.inTable.mp hq
    rcases hcases with ⟨hnone, -⟩ | ⟨i, hi, rfl⟩
    · exact absurd hnone hfound
    · have hi' : foundprocess x.toCore (x.pid x.currentProcess) = some i := hi
      obtain ⟨-, hin, hpid⟩ := foundprocess_some hi'
      rw [← ht.pids.inj _ _ hin hcur hpid]
      obtain ⟨children, lengths, flags, hfam⟩ := leaveFamily_eq
        (x.supplied ⟨.exitProcess, offset, answers⟩) x.currentProcess
      refine cleared_inTable ht hi' ?_ hq₁
      show update (leaveFamily (x.supplied _) x.currentProcess).processesList i 0 = _
      rw [hfam]
      rfl

theorem NamesInv.modify {answers : List ℕ} (h : NamesInv x) (hok : Settles x.toCore pid v)
    (hrun : x.manage (.modifyPriority pid v answers) = some x') : NamesInv x' := by
  obtain ⟨⟨r, x₁⟩, hcall, hret⟩ := Option.bind_eq_some_iff.mp hrun
  obtain rfl := Option.some.inj hret
  rcases (modifyPriority_atomic hcall).mpr hok with ⟨-, rfl⟩ |
    ⟨-, index, name, rest, counter, hi, rfl, hfresh, -, rfl⟩
  · exact h.same (fun _ => id) ⟨rfl, rfl, rfl⟩ rfl
  · have hlive : update x.live .priorityName (name :: x.live .priorityName) .priorityName =
        name :: x.live .priorityName :=
      Function.update_self ..
    exact h.renamed hi (fun q hq _ => hq) ⟨rfl, rfl, hfresh, hlive⟩ rfl

theorem NamesInv.step (h : NamesInv x) (ht : TableInv x.toCore) (hok : Careful x b) (hrun : x.manage b = some x') :
    NamesInv x' := by
  cases b with
  | modifyPriority pid v answers => exact h.modify hok hrun
  | act a =>
    obtain ⟨call, offset, answers⟩ := a
    cases call with
    | createProcess args => exact h.create hok hrun
    | killProcess pid => exact h.kill ht hrun
    | exitProcess => exact h.exit ht hok hrun
    | _ =>
      obtain ⟨m, hstep, rfl⟩ := manage_other hrun (by simp)
      have hsame := step_names hstep
      have htable := step_table hstep
      exact h.same (fun q hq => htable.inTable.mp hq) ⟨hsame.priority, hsame.priorityName, hsame.live⟩ rfl

theorem NamesInv.reach (h : named.Reach Careful x) : NamesInv x := by
  induction h with
  | @init x hx =>
    have hempty : ∀ p, ¬InTable x.toCore p := by
      rintro p ⟨h0, i, -, rfl⟩
      exact h0 (hx.processesList i)
    exact ⟨fun p hp => absurd hp (hempty p), fun p _ hp => absurd hp (hempty p), fun p hp => absurd hp (hempty p)⟩
  | step hreach hok hst ih => exact ih.step (named_table hreach) hok hst

/-- A call is atomic exactly when it settles for what it can write; in runs with such
calls every process of the table has a legal priority and its name. -/
theorem priorities_legal (x : NamedMachine) :
    (∀ pid v r x', x.modifyPriority pid v = some (r, x') → (Atomic x pid v r x' ↔ Settles x.toCore pid v)) ∧
      (named.Reach Careful x → ∀ p, InTable x.toCore p → x.Legal p) :=
  ⟨fun _ _ _ _ => modifyPriority_atomic, fun h => (NamesInv.reach h).fits⟩

/-! ### Runs that compute -/

instance (x : NamedMachine) : DecidablePred x.Careful := by
  intro b
  unfold Careful
  split <;> infer_instance

/-- The end of a run of the machine with names. -/
def ran (ok : NamedMachine → ManagedAction → Prop) [∀ x b, Decidable (ok x b)]
    (bs : List ManagedAction) : NamedMachine :=
  (System.runList manage ok ⟨initial, fun _ => ""⟩ bs).getD ⟨initial, fun _ => ""⟩

theorem named_ran {ok : NamedMachine → ManagedAction → Prop} [∀ x b, Decidable (ok x b)] {bs : List ManagedAction}
    (h : (System.runList manage ok ⟨initial, fun _ => ""⟩ bs).isSome = true) : named.Reach ok (ran ok bs) :=
  (System.Reach.init initial_boot).runList_getD (fun _ _ _ => id) h

/-- Two processes are created, the first of which runs. -/
def twoNamed : List ManagedAction := [.act (create 100), .act (plain .tick), .act (create 200)]

/-- The second process gets the highest priority. -/
theorem priorities_legal_critic :
    (∃ r x', modifyPriority { ran Careful twoNamed with answers := [300] } 2 8 = some (r, x') ∧
        Atomic { ran Careful twoNamed with answers := [300] } 2 8 r x') ∧
      (ran Careful (twoNamed ++ [.modifyPriority 2 8 [300]])).Legal 201 := by
  constructor
  · obtain ⟨⟨r, x'⟩, hrun⟩ := Option.isSome_iff_exists.mp
      (show (modifyPriority { ran Careful twoNamed with answers := [300] } 2 8).isSome = true by decide +kernel)
    exact ⟨r, x', hrun, ((priorities_legal _).1 2 8 r x' hrun).mpr (by decide +kernel)⟩
  · exact (priorities_legal _).2 (named_ran (by decide +kernel)) 201 (by decide +kernel)

/-- The first process gets a priority that is not in the table. The call returns `0`. -/
theorem priorities_legal_unlisted :
    (¬∀ x, named.Reach (fun _ _ => True) x → ∀ pid v r x', modifyPriority x pid v = some (r, x') →
        Atomic x pid v r x') ∧
      ¬∀ x, named.Reach (fun _ _ => True) x → ∀ p, InTable x.toCore p → x.Legal p := by
  constructor
  · intro hall
    have hreach : named.Reach (fun _ _ => True) (ran (fun _ _ => True) twoNamed) := named_ran (by decide +kernel)
    obtain ⟨⟨r, x'⟩, hrun⟩ := Option.isSome_iff_exists.mp
      (show (modifyPriority (ran (fun _ _ => True) twoNamed) 1 7).isSome = true by decide +kernel)
    have hnot : ¬Settles (ran (fun _ _ => True) twoNamed).toCore 1 7 := by decide +kernel
    exact hnot ((modifyPriority_atomic hrun).mp (hall _ hreach 1 7 r x' hrun))
  · intro hall
    have hreach : named.Reach (fun _ _ => True) (ran (fun _ _ => True) (twoNamed ++ [.modifyPriority 1 7 []])) :=
      named_ran (by decide +kernel)
    have hlegal := hall _ hreach 101 (by decide +kernel)
    exact absurd hlegal (by decide +kernel)

end NamedMachine

end BareKernel
