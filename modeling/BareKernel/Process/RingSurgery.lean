import BareKernel.Process.ReadyRing

/-! What adding a process to the ready ring and removing one make of the ring, wherever the
cursor is: which nodes it goes through, in which order, and where its head and its cursor
are. The loops around the ring end. -/

namespace BareKernel.Process

open Function (update)
open Links

variable {c c' : Core} {L A B : List ℕ} {process node prev : ℕ}

/-- The pointer goes on to the successor of a node that is taken out. -/
def goOnFrom (c : Core) (node : ℕ) (rest : List ℕ) (pointer : ℕ) : ℕ :=
  if pointer = node then if rest = [] then 0 else c.next node else pointer

/-- The ring without the node of a process. -/
structure Unlinked (c c' : Core) (A B : List ℕ) (node : ℕ) : Prop where
  nodes : Nodes c' (A ++ B)
  processInfo : c'.processInfo = c.processInfo
  counter : c'.counter = c.counter
  readyList : c'.readyList = goOnFrom c node (A ++ B) c.readyList
  currentNode : c'.currentNode = goOnFrom c node (A ++ B) c.currentNode
  edit : RingEdit c c'

/-- The ring with a new node before its head, which is behind the last one. -/
structure Appended (c c' : Core) (L : List ℕ) (process node : ℕ) : Prop where
  fresh : node ∉ L
  nodes : Nodes c' (L ++ [node])
  processInfo : c'.processInfo = update c.processInfo node process
  counter : c'.counter = update c.counter node (c.priority process)
  readyList : L ≠ [] → c'.readyList = c.readyList
  currentNode : L ≠ [] → c'.currentNode = c.currentNode
  edit : RingEdit c c'

/-- `remove_from_ready_list` takes out the node of the process, if it has one. -/
def Removes (c : Core) (L : List ℕ) (process : ℕ) : Prop :=
  ∃ c', removeFromReadyList c process = some c' ∧
    ((process ∉ ringProcs c L ∧ c' = c) ∨
      ∃ A node B, L = A ++ node :: B ∧ c.processInfo node = process ∧ Unlinked c c' A B node)

/-- `add_to_ready_list` gives the process a node, unless it has one. -/
def Adds (c : Core) (L : List ℕ) (process : ℕ) : Prop :=
  (process ∈ ringProcs c L → addToReadyList c process = some c) ∧
    (process ∉ ringProcs c L → (mmMalloc c .node).1 ≠ 0 →
      ∃ c' node, addToReadyList c process = some c' ∧ Appended c c' L process node)

/-! ### Removing -/

theorem unlinkNode_counter (h : unlinkNode c prev node = some c') : c'.counter = c.counter := by
  unfold unlinkNode at h
  split at h
  · rw [← Option.some.inj h]
    rfl
  · dsimp only at h
    split at h
    · rw [← Option.some.inj h]
      rfl
    · obtain ⟨last, -, hlast⟩ := Option.bind_eq_some_iff.mp h
      rw [← Option.some.inj hlast]
      rfl

theorem removeFromReadyList_counter (h : removeFromReadyList c process = some c') :
    c'.counter = c.counter := by
  unfold removeFromReadyList at h
  split at h
  · rw [← Option.some.inj h]
  · obtain ⟨found, -, hfound⟩ := Option.bind_eq_some_iff.mp h
    cases found with
    | none => rw [← Option.some.inj hfound]
    | some place => exact unlinkNode_counter hfound

/-- The head of the list without `node`. -/
theorem Nodes.head_unlinked (h : Nodes c (A ++ node :: B)) :
    (A ++ B).head?.getD 0 = goOnFrom c node (A ++ B) c.readyList := by
  unfold goOnFrom
  cases A with
  | nil =>
    have hhead : c.readyList = node := h.head_eq
    rw [if_pos hhead]
    cases B with
    | nil => rfl
    | cons x B =>
      have hx : c.next node = x := (h.next_mid (A := [])).1
      simp [hx]
  | cons a A =>
    have hhead : c.readyList = a := h.head_eq
    have hne : a ≠ node := by
      rintro rfl
      simpa using h.nodup
    rw [hhead, if_neg hne]
    rfl

theorem removes (h : Nodes c L) (process : ℕ) : Removes c L process := by
  rcases removeFromReadyList_nodes h process with ⟨hnot, hrun⟩ | ⟨A, node, B, r, rfl, hp, hrun, hN, hinfo, hkeep, hmove⟩
  · exact ⟨c, hrun, Or.inl ⟨hnot, rfl⟩⟩
  · refine ⟨_, hrun, Or.inr ⟨A, node, B, rfl, hp, hN, hinfo, removeFromReadyList_counter hrun, ?_, ?_,
      rfl, rfl, rfl, rfl, rfl, fun kind hk => Function.update_of_ne hk ..⟩⟩
    · exact hN.head.symm.trans h.head_unlinked
    · unfold goOnFrom
      by_cases hcur : c.currentNode = node
      · rw [if_pos hcur]
        by_cases hAB : A ++ B = []
        · rw [if_pos hAB]
          exact hN.noCursor hAB
        · rw [if_neg hAB]
          exact hmove hcur hAB
      · rw [if_neg hcur]
        exact hkeep hcur

/-! ### Adding -/

theorem insertNode_counter (h : insertNode c process node = some c') :
    c'.counter = update c.counter node (c.priority process) := by
  unfold insertNode at h
  dsimp only at h
  split at h
  · rw [← Option.some.inj h]
  · obtain ⟨tail, -, htail⟩ := Option.bind_eq_some_iff.mp h
    rw [← Option.some.inj htail]

theorem Nodes.allocate (h : Nodes c L) (node : ℕ) (rest : List ℕ) :
    Nodes { c with answers := rest, live := update c.live .node (node :: c.live .node) } L :=
  ⟨h.ring, h.nodup, h.head, h.null, h.cursor, h.noCursor, h.procs, fun n hn => by simp [h.live n hn]⟩

theorem adds (h : Nodes c L) (process : ℕ) : Adds c L process := by
  have hfound : isInReadyList c process = some (decide (process ∈ ringProcs c L)) := isInReadyList_eq h process
  constructor
  · intro hp
    rw [decide_eq_true hp] at hfound
    simp [addToReadyList, hfound]
  · intro hp hmalloc
    rw [decide_eq_false hp] at hfound
    obtain ⟨node, c₁, hnode⟩ : ∃ node c₁, mmMallocUsed c .node = some (node, c₁) := by
      rw [mmMallocUsed, if_neg hmalloc]
      exact ⟨_, _, rfl⟩
    obtain ⟨h0, hfresh, rest, rfl⟩ := mmMallocUsed_some hnode
    have hnot : node ∉ L := fun hn => hfresh (h.live node hn)
    obtain ⟨r, hins, hN, hinfo, hcur⟩ := insertNode_spec (h.allocate node rest) hnot h0 (by simp) hp
    have hadd : addToReadyList c process = (mmMallocUsed c .node).bind fun r => insertNode r.2 process r.1 := by
      simp [addToReadyList, hfound]
    rw [hnode] at hadd
    have hcount := insertNode_counter hins
    refine ⟨_, node, hadd.trans hins, hnot, hN, hinfo, hcount, fun hne => ?_, hcur,
      rfl, rfl, rfl, rfl, rfl, fun kind hk => Function.update_of_ne hk ..⟩
    rw [← hN.head, ← h.head, List.head?_append_of_ne_nil _ hne]

/-- For every ready ring and every process. -/
theorem ready_ring_surgery (h : Nodes c L) (process : ℕ) : Removes c L process ∧ Adds c L process :=
  ⟨removes h process, adds h process⟩

/-- A ring of three nodes with the cursor on the second one. -/
def threeNodes : Core where
  live kind := if kind = .node then [10, 20, 30] else []
  answers := [40]
  pid _ := 0
  name _ := 0
  stackTop _ := 0
  stackPointer _ := ⟨0, 0⟩
  argv _ := 0
  argvEntry _ _ := 0
  argc _ := 0
  priority _ := 1
  priorityName _ := 0
  isForeground _ := 0
  state _ := .ready
  parentPid _ := 0
  waitingOnChild _ := 0
  children _ _ := 0
  childrenLength _ := 0
  processInfo node := node / 10
  counter _ := 1
  next node := if node = 30 then 10 else node + 10
  readyList := 10
  currentNode := 20
  currentProcess := 2
  processesList _ := 0
  nProcesses := 0
  pids _ := false

theorem ready_ring_surgery_threeNodes :
    Removes threeNodes [10, 20, 30] 2 ∧ Adds threeNodes [10, 20, 30] 2 := by
  have hring : Ring (Fwd threeNodes.next) [10, 20, 30] := by
    refine ⟨?_, ?_⟩
    · simp [Fwd, threeNodes]
    · simp [Fwd, threeNodes]
  have hnodes : Nodes threeNodes [10, 20, 30] :=
    ⟨hring, by decide, rfl, by decide, fun _ => by decide, by simp, by decide, by decide⟩
  exact ready_ring_surgery hnodes 2

end BareKernel.Process
