import BareKernel.Process.Shift
import Mathlib.Data.Set.Card

/-! Which requests a new process makes to the allocator. The code stores through every
block it gets, so a process is entered exactly when all of them are served; what is
served depends on the blocks in use and on the coming answers only. -/

namespace BareKernel.Process

open Function (update)
open Links

/-- Serve one request after the other. -/
def Memory.serve : List Kind → Memory → Option Memory
  | [], m => some m
  | kind :: kinds, m =>
    match m.answers with
    | [] => none
    | a :: rest =>
      if a = 0 ∨ a ∈ m.live kind then none
      else serve kinds ⟨update m.live kind (a :: m.live kind), rest⟩

variable {c c' : Core} {m : Memory} {kind : Kind} {kinds : List Kind} {L : List ℕ} {p q node : ℕ}
  {args : CreateArgs}

theorem Memory.serve_append (A B : List Kind) (m : Memory) : m.serve (A ++ B) = (m.serve A).bind (serve B) := by
  induction A generalizing m with
  | nil => rfl
  | cons kind A ih =>
    simp only [List.cons_append, serve]
    split
    · rfl
    · split
      · rfl
      · exact ih _

/-- Whether blocks of one kind can be had depends on those in use and on the answers. -/
theorem serve_replicate_isSome {m' : Memory} (hanswers : m'.answers = m.answers) (hlive : m'.live kind = m.live kind)
    (n : ℕ) : (m'.serve (List.replicate n kind)).isSome = (m.serve (List.replicate n kind)).isSome := by
  induction n generalizing m m' with
  | zero => rfl
  | succ n ih =>
    simp only [List.replicate_succ, Memory.serve, hanswers, hlive]
    cases m.answers with
    | nil => rfl
    | cons a rest =>
      dsimp only
      split
      · rfl
      · exact ih rfl (by simp)

/-- A block that the code stores into is the first request served. -/
theorem mmMallocUsed_serve (c : Core) (kind : Kind) (kinds : List Kind) :
    c.toMemory.serve (kind :: kinds) = (mmMallocUsed c kind).bind fun r => r.2.toMemory.serve kinds := by
  rw [Memory.serve, mmMallocUsed, mmMalloc]
  cases hans : c.answers with
  | nil => rfl
  | cons a rest =>
    by_cases hbad : a = 0 ∨ a ∈ c.live kind
    · simp [hbad]
    · rw [not_or] at hbad
      simp [hbad]

/-- An allocation, and then a function that serves the other requests. -/
theorem serve_bind {f : ℕ × Core → Option Core}
    (hf : ∀ a c', mmMallocUsed c kind = some (a, c') → (f (a, c')).map Core.toMemory = c'.toMemory.serve kinds) :
    ((mmMallocUsed c kind).bind f).map Core.toMemory = c.toMemory.serve (kind :: kinds) := by
  rw [mmMallocUsed_serve]
  cases hm : mmMallocUsed c kind with
  | none => rfl
  | some r => exact hf r.1 r.2 hm

/-- One function that serves its requests, and then another one. -/
theorem serve_then {x : Option Core} {f : Core → Option Core} {A B : List Kind}
    (hx : x.map Core.toMemory = m.serve A)
    (hf : ∀ c', x = some c' → (f c').map Core.toMemory = c'.toMemory.serve B) :
    (x.bind f).map Core.toMemory = m.serve (A ++ B) := by
  rw [Memory.serve_append, ← hx]
  cases hc : x with
  | none => rfl
  | some c' => exact hf c' hc

/-! ### The parts of `createProcess` -/

theorem copyContext_serve (c : Core) (p stackTop : ℕ) (args : CreateArgs) :
    (copyContext c p stackTop args).map Core.toMemory = c.toMemory.serve [.name, .priorityName] := by
  unfold copyContext
  have hmem : (assignPid c p).toMemory = c.toMemory := by rw [assignPid_eq]
  rw [← hmem]
  exact serve_bind fun name c₁ _ => serve_bind fun priorityName c₂ _ => rfl

theorem loadArgsFrom_serve (argv n i : ℕ) (c : Core) :
    (loadArgsFrom argv n i c).map Core.toMemory = c.toMemory.serve (List.replicate n .arg) := by
  induction n generalizing i c with
  | zero => rfl
  | succ n ih => exact serve_bind fun arg c₁ _ => ih _ _

theorem loadArgs_serve (c : Core) (p argc : ℕ) :
    (loadArgs c p argc).map Core.toMemory = c.toMemory.serve (.argv :: List.replicate argc .arg) := by
  refine serve_bind fun argv c₁ _ => ?_
  rw [← loadArgsFrom_serve argv argc 0 c₁]
  show ((loadArgsFrom argv argc 0 c₁).bind _).map _ = _
  cases loadArgsFrom argv argc 0 c₁ with
  | none => rfl
  | some c₂ => rfl

/-- The node of a process that is not in the ring yet. -/
theorem addToReadyList_serve (h : Nodes c L) (p : ℕ) :
    (addToReadyList c p).map Core.toMemory =
      c.toMemory.serve (if isInReadyList c p = some true then [] else [.node]) := by
  have hfound := isInReadyList_eq h p
  by_cases hp : p ∈ L.map c.processInfo
  · rw [decide_eq_true hp] at hfound
    simp [addToReadyList, hfound, Memory.serve]
  · rw [decide_eq_false hp] at hfound
    have hadd : addToReadyList c p = (mmMallocUsed c .node).bind fun r => insertNode r.2 p r.1 := by
      simp [addToReadyList, hfound]
    have hno : ¬isInReadyList c p = some true := by rw [hfound]; simp
    rw [if_neg hno, hadd]
    refine serve_bind fun node c₁ hm => ?_
    obtain ⟨h0, hfresh, rest, rfl⟩ := mmMallocUsed_some hm
    have hN : Nodes { c with answers := rest, live := update c.live .node (node :: c.live .node) } L :=
      ⟨h.ring, h.nodup, h.head, h.null, h.cursor, h.noCursor, h.procs, fun n hn => by simp [h.live n hn]⟩
    obtain ⟨r, hins, -⟩ := insertNode_spec hN (fun hn => hfresh (h.live node hn)) h0 (by simp) hp
    rw [hins]
    rfl

/-- Who is blocked is not in the ring, so a node is needed to wake it. -/
theorem unblockProcess_serve (h : RingInv c L) (pid : ℤ) : (unblockProcess c pid).map (fun r => r.2.toMemory) =
    c.toMemory.serve (List.replicate {q | Wakes c pid q}.ncard .node) := by
  by_cases hw : pid ≠ 1 ∧ c.state (getProcessByPid c pid) = .blocked
  · obtain ⟨h1, hblocked⟩ := hw
    have hone : {q | Wakes c pid q} = {getProcessByPid c pid} := by
      refine Set.ext fun q => ⟨fun hq => hq.2.1, ?_⟩
      rintro rfl
      exact ⟨h1, rfl, hblocked⟩
    rw [hone, Set.ncard_singleton, List.replicate_one]
    unfold getProcessByPid at hblocked
    unfold unblockProcess
    cases hf : foundprocess c pid with
    | none =>
      rw [hf, h.null] at hblocked
      cases hblocked
    | some i =>
      rw [hf] at hblocked
      have hN := h.nodes.setState (update c.state (c.processesList i) .ready)
      have hout : c.processesList i ∉ L.map c.processInfo := by
        intro hm
        have hs := (h.procs _ hm).2
        simp [hblocked] at hs
      have hsearch := isInReadyList_eq hN (c.processesList i)
      rw [decide_eq_false hout] at hsearch
      have hserve := addToReadyList_serve hN (c.processesList i)
      rw [hsearch, if_neg (by simp)] at hserve
      rw [← hserve, if_neg h1]
      simp only [not_not.mpr hblocked, if_false, hsearch, Option.bind_eq_bind, Option.bind_some, Bool.false_eq_true]
      cases addToReadyList { c with state := update c.state (c.processesList i) .ready } (c.processesList i) with
      | none => rfl
      | some c₁ => rfl
  · have hnone : {q | Wakes c pid q} = ∅ :=
      Set.eq_empty_of_forall_notMem fun q hq => hw ⟨hq.1, hq.2.1 ▸ hq.2.2⟩
    rw [unblockProcess_self (by tauto), hnone, Set.ncard_empty]
    rfl

/-- The blocks of a new process but for its stack and its record. -/
def contextRequests (c : Core) (p : ℕ) (args : CreateArgs) : List Kind :=
  [.name, .priorityName] ++ (.argv :: List.replicate args.argc .arg) ++
    if isInReadyList c p = some true then [] else [.node]

/-- A process is entered exactly when all its requests are served. -/
theorem enterProcess_serve (h : Nodes c L) (p stackTop : ℕ) (args : CreateArgs) :
    (enterProcess c p stackTop args).map Core.toMemory = c.toMemory.serve (contextRequests c p args) := by
  unfold enterProcess contextRequests
  dsimp only
  rw [List.append_assoc]
  refine serve_then (copyContext_serve _ p stackTop args) fun c₁ hcopy => ?_
  have hfill := copyContext_effect hcopy
  have hlink := linkParent_aside c₁ p
  have hmem : (linkParent c₁ p).toMemory = c₁.toMemory := by
    obtain ⟨parents, children, lengths, hlink⟩ := linkParent_eq c₁ p
    rw [hlink]
  rw [← hmem]
  refine serve_then (loadArgs_serve _ p args.argc) fun c₂ hload => ?_
  have haside := hlink.trans (loadArgs_aside hload)
  obtain ⟨list, hlist⟩ := addToProcessList_eq c₂ p
  have hring : c₂.toReadyRing = c.toReadyRing := haside.ring.trans hfill.ring
  have hnode : c₂.live .node = c.live .node := (haside.live .node rfl).trans (hfill.live .node rfl)
  have hN : Nodes { c₂ with processesList := list, nProcesses := c₂.nProcesses + 1 } L := h.congr hring hnode
  have hsame : isInReadyList { c₂ with processesList := list, nProcesses := c₂.nProcesses + 1 } p =
      isInReadyList c p := by
    rw [isInReadyList_eq hN, isInReadyList_eq h]
    show some (decide (p ∈ L.map c₂.processInfo)) = _
    rw [show c₂.processInfo = c.processInfo from congrArg ReadyRing.processInfo hring]
  rw [hlist, addToReadyList_serve hN, hsame]

/-! ### What is entered -/

/-- The process has the pid it was given, stands in the ring, and has a slot if there
was one; the others keep their pids and slots. -/
structure Entered (c c' : Core) (p : ℕ) : Prop where
  pid : c'.pid = (assignPid c p).pid
  ring : isInReadyList c' p = some true
  self : InTable c' p ↔ InTable c p ∨ ∃ i < maxProcesses, c.processesList i = 0
  others : ∀ q, q ≠ p → (InTable c' q ↔ InTable c q)

theorem enterProcess_entered (h : Nodes c L) (h0 : p ≠ 0) {stackTop : ℕ}
    (hrun : enterProcess c p stackTop args = some c') : Entered c c' p := by
  obtain ⟨c₁, hfill, hadd⟩ := enterProcess_split hrun
  obtain ⟨list, hlist⟩ := addToProcessList_eq c₁ p
  have htab : list = (addToProcessList c₁ p).processesList := by rw [hlist]
  rw [hlist] at hadd
  have hN : Nodes { c₁ with processesList := list, nProcesses := c₁.nProcesses + 1 } L :=
    h.congr hfill.ring (hfill.live .node rfl)
  obtain ⟨hedit, L', hN', hmem, -⟩ := addToReadyList_procs hN hadd
  have hprocs : c'.processesList = list := hedit.processesList
  have htable : ((∃ i < maxProcesses, c.processesList i = 0) ∧ ∀ q, InTable c' q ↔ InTable c q ∨ q = p) ∨
      (¬∃ i < maxProcesses, c.processesList i = 0) ∧ ∀ q, InTable c' q ↔ InTable c q := by
    by_cases hfree : ∃ i < maxProcesses, c.processesList i = 0
    · obtain ⟨i, hi, hi0, hset⟩ := addToProcessList_free (c := c₁) (by rwa [hfill.processesList]) p
      rw [hset] at htab
      refine Or.inl ⟨hfree, fun q => ?_⟩
      rw [← inTable_congr hfill.processesList]
      exact inTable_set hi hi0 h0 (hprocs.trans htab)
    · have hfull : (List.range maxProcesses).find? (fun i => c₁.processesList i = 0) = none := by
        rw [List.find?_eq_none]
        intro i hi
        rw [hfill.processesList, decide_eq_true_eq]
        exact fun he => hfree ⟨i, List.mem_range.mp hi, he⟩
      have hkeep : list = c₁.processesList := by
        rw [htab]
        simp only [addToProcessList, hfull]
      exact Or.inr ⟨hfree, fun q => inTable_congr ((hprocs.trans hkeep).trans hfill.processesList)⟩
  refine ⟨(congrArg Records.pid hedit.records).trans hfill.pid, ?_, ?_, ?_⟩
  · rw [isInReadyList_eq hN']
    exact congrArg some (decide_eq_true ((hmem p).mpr (Or.inr rfl)))
  · rcases htable with ⟨hfree, htable⟩ | ⟨hfull, htable⟩
    · exact ⟨fun _ => Or.inr hfree, fun _ => (htable p).mpr (Or.inr rfl)⟩
    · rw [htable]
      exact ⟨Or.inl, fun hp => hp.resolve_right hfull⟩
  · intro q hq
    rcases htable with ⟨-, htable⟩ | ⟨-, htable⟩
    · rw [htable]
      exact ⟨fun hin => hin.resolve_right hq, Or.inl⟩
    · exact htable q

end BareKernel.Process
