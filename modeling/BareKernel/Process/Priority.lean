import BareKernel.Process.TableEffect

/-! `modify_priority` of `process/scheduler.c`. It changes the priority before it looks
the new one up, and a legal priority gets a new block for its name; nothing but the
priorities, this name and the counters of the ring changes. -/

namespace BareKernel.Process

open Function (update)

/-- The first index of an array at which the value stands. -/
def findIndex (arr : ℤ → ℤ) (size : ℕ) (value : ℤ) : Option ℕ := (List.range size).find? fun i : ℕ => arr i = value

/-- The last loop of `modifyPriority`: the node of the process, if it has one, gets a new counter. -/
def setCounter (c : Core) (process : ℕ) (newPriority : ℤ) : Option Core :=
  if c.readyList = 0 then some c
  else do
    match ← findNode c.toReadyRing process c.fuel 0 c.readyList with
    | none => some c
    | some (_, node) => some { c with counter := update c.counter node newPriority }

def modifyPriority (c : Core) (pid newPriority : ℤ) : Option (ℤ × Core) :=
  match foundprocess c pid with
  | none => some (0, c)
  | some idx =>
    let process := c.processesList idx
    let c := { c with priority := update c.priority process newPriority }
    match findIndex priorityTable 4 newPriority with
    | none => some (0, c)
    | some _ => do
      let (name, c) ← mmMallocUsed c .priorityName
      let c := { c with priorityName := update c.priorityName process name }
      let c ← setCounter c process newPriority
      some (1, c)

/-- The call finds this process and gives it a priority of the table, with a new name. -/
def Renames (c : Core) (pid newPriority : ℤ) (p : ℕ) : Prop :=
  p ≠ 0 ∧ p = getProcessByPid c pid ∧ newPriority ∈ [8, 4, 2, 1]

instance (c : Core) (pid newPriority : ℤ) (p : ℕ) : Decidable (Renames c pid newPriority p) :=
  inferInstanceAs (Decidable (_ ∧ _ ∧ _))

variable {c c' : Core} {L : List ℕ} {p : ℕ} {pid r v : ℤ}

theorem findIndex_priority (v : ℤ) : (findIndex priorityTable 4 v).isSome = true ↔ v ∈ [8, 4, 2, 1] := by
  have htable : (List.range 4).map (fun i : ℕ => priorityTable i) = [8, 4, 2, 1] := rfl
  rw [findIndex, List.find?_isSome, ← htable, List.mem_map]
  simp only [decide_eq_true_eq]

/-- A block that the code stores into is the next answer. -/
theorem mmMallocUsed_answers {kind : Kind} {a : ℕ} (h : mmMallocUsed c kind = some (a, c')) :
    c.answers = a :: c'.answers := by
  unfold mmMallocUsed mmMalloc at h
  cases hans : c.answers with
  | nil => simp [hans] at h
  | cons x rest =>
    rw [hans] at h
    dsimp only at h
    by_cases hbad : x = 0 ∨ x ∈ c.live kind
    · simp [hbad] at h
    · rw [if_neg hbad] at h
      rw [not_or] at hbad
      obtain ⟨rfl, rfl⟩ : x = a ∧ _ = c' := by simpa [hbad.1] using h
      rfl

/-- The node that is found is one of the process. -/
theorem findNode_processInfo {ring : ReadyRing} {fuel prev curr : ℕ} {found : ℕ × ℕ}
    (h : findNode ring p fuel prev curr = some (some found)) : ring.processInfo found.2 = p := by
  induction fuel generalizing prev curr with
  | zero => cases h
  | succ fuel ih =>
    rw [findNode] at h
    split at h
    · rename_i hp
      obtain rfl : (prev, curr) = found := by simpa using h
      exact hp
    · split at h
      · cases h
      · exact ih h

/-- Only the counters of nodes of the process change. -/
theorem setCounter_eq (h : setCounter c p v = some c') : ∃ counter, c' = { c with counter := counter } ∧
    ∀ n, counter n = c.counter n ∨ c.processInfo n = p ∧ counter n = v := by
  unfold setCounter at h
  split at h
  · obtain rfl := Option.some.inj h
    exact ⟨c.counter, rfl, fun n => Or.inl rfl⟩
  · obtain ⟨found, hfind, hret⟩ := Option.bind_eq_some_iff.mp h
    cases found with
    | none =>
      obtain rfl := Option.some.inj hret
      exact ⟨c.counter, rfl, fun n => Or.inl rfl⟩
    | some place =>
      obtain rfl := Option.some.inj hret
      refine ⟨_, rfl, fun n => ?_⟩
      by_cases hn : n = place.2
      · subst hn
        exact Or.inr ⟨findNode_processInfo hfind, Function.update_self ..⟩
      · exact Or.inl (Function.update_of_ne hn ..)

/-- What the call does, by whether it finds the process and the priority. -/
theorem modifyPriority_spec (hrun : modifyPriority c pid v = some (r, c')) :
    match foundprocess c pid, findIndex priorityTable 4 v with
    | none, _ => r = 0 ∧ c' = c
    | some i, none => r = 0 ∧ c' = { c with priority := update c.priority (c.processesList i) v }
    | some i, some _ => r = 1 ∧ ∃ name rest counter, c.answers = name :: rest ∧ name ∉ c.live .priorityName ∧
        (∀ n, counter n = c.counter n ∨ c.processInfo n = c.processesList i ∧ counter n = v) ∧
        c' = { c with
          answers := rest
          live := update c.live .priorityName (name :: c.live .priorityName)
          priority := update c.priority (c.processesList i) v
          priorityName := update c.priorityName (c.processesList i) name
          counter := counter } := by
  unfold modifyPriority at hrun
  cases hf : foundprocess c pid with
  | none =>
    obtain ⟨rfl, rfl⟩ : 0 = r ∧ c = c' := by simpa [hf] using hrun
    exact ⟨rfl, rfl⟩
  | some i =>
    rw [hf] at hrun
    dsimp only at hrun
    cases hv : findIndex priorityTable 4 v with
    | none =>
      rw [hv] at hrun
      obtain ⟨rfl, rfl⟩ : 0 = r ∧ _ = c' := by simpa using hrun
      exact ⟨rfl, rfl⟩
    | some index =>
      rw [hv] at hrun
      obtain ⟨⟨name, c₁⟩, hm, hrun⟩ := Option.bind_eq_some_iff.mp hrun
      obtain ⟨c₂, hset, hret⟩ := Option.bind_eq_some_iff.mp hrun
      obtain ⟨rfl, rfl⟩ : 1 = r ∧ c₂ = c' := by simpa using hret
      have hanswers := mmMallocUsed_answers hm
      obtain ⟨-, hfresh, rest, rfl⟩ := mmMallocUsed_some hm
      obtain ⟨counter, rfl, hcounter⟩ := setCounter_eq hset
      exact ⟨rfl, name, rest, counter, hanswers, hfresh, hcounter, rfl⟩

/-- The call renames nobody and changes priorities at most, or it gets a block for the
new name of the process that it finds. -/
theorem modifyPriority_cases (hrun : modifyPriority c pid v = some (r, c')) :
    ((∀ p, ¬Renames c pid v p) ∧ r = 0 ∧ ∃ priority, c' = { c with priority := priority }) ∨
      ∃ i, foundprocess c pid = some i ∧ Renames c pid v (c.processesList i) ∧ r = 1 ∧
        ∃ name rest priority counter, c.answers = name :: rest ∧ name ∉ c.live .priorityName ∧
          c' = { c with
            answers := rest
            live := update c.live .priorityName (name :: c.live .priorityName)
            priority := priority
            priorityName := update c.priorityName (c.processesList i) name
            counter := counter } := by
  have hspec := modifyPriority_spec hrun
  cases hf : foundprocess c pid with
  | none =>
    rw [hf] at hspec
    obtain ⟨rfl, rfl⟩ := hspec
    refine Or.inl ⟨fun p hp => hp.1 ?_, rfl, c'.priority, rfl⟩
    rw [hp.2.1, getProcessByPid_none hf]
  | some i =>
    cases hv : findIndex priorityTable 4 v with
    | none =>
      rw [hf, hv] at hspec
      obtain ⟨rfl, rfl⟩ := hspec
      refine Or.inl ⟨fun p hp => ?_, rfl, _, rfl⟩
      have hsome := (findIndex_priority v).mpr hp.2.2
      rw [hv] at hsome
      cases hsome
    | some index =>
      rw [hf, hv] at hspec
      obtain ⟨rfl, name, rest, counter, hanswers, hfresh, -, rfl⟩ := hspec
      have hlegal : v ∈ [8, 4, 2, 1] := (findIndex_priority v).mp (by rw [hv]; rfl)
      exact Or.inr ⟨i, rfl, ⟨(foundprocess_some hf).2.1.1, (getProcessByPid_some hf).symm, hlegal⟩, rfl, name, rest, _,
        counter, hanswers, hfresh, rfl⟩

theorem modifyPriority_quiet (hrun : modifyPriority c pid v = some (r, c')) : Quiet c c' := by
  rcases modifyPriority_cases hrun with ⟨-, -, priority, rfl⟩ | ⟨i, -, -, -, name, rest, priority, counter, -, -, rfl⟩
  · exact ⟨⟨rfl, rfl, rfl, rfl, rfl, rfl, rfl, rfl⟩, rfl⟩
  · have hlive (kind : Kind) (hk : kind ≠ .priorityName) :
        update c.live .priorityName (name :: c.live .priorityName) kind = c.live kind := Function.update_of_ne hk ..
    exact ⟨⟨rfl, rfl, rfl, rfl, rfl, rfl, rfl, hlive .record (by simp)⟩, hlive .pipe (by simp)⟩

/-- The nodes of the ring and their processes are the same. -/
theorem modifyPriority_ring (h : RingInv c L) (hrun : modifyPriority c pid v = some (r, c')) :
    RingInv c' L ∧ ringProcs c' L = ringProcs c L ∧ c'.currentProcess = c.currentProcess ∧ c'.state = c.state := by
  obtain ⟨hring, hnodup, hhead, hnull, hcursor, hno, honce, hlive⟩ := h.nodes
  rcases modifyPriority_cases hrun with ⟨-, -, priority, rfl⟩ | ⟨i, -, -, -, name, rest, priority, counter, -, -, rfl⟩
  · exact ⟨h.congr rfl rfl rfl rfl, rfl, rfl, rfl⟩
  · have hnode : update c.live .priorityName (name :: c.live .priorityName) .node = c.live .node :=
      Function.update_of_ne (by simp) ..
    refine ⟨⟨⟨hring, hnodup, hhead, hnull, hcursor, hno, honce, fun n hn => ?_⟩, h.procs, h.null⟩, rfl, rfl, rfl⟩
    show n ∈ update c.live .priorityName (name :: c.live .priorityName) .node
    rw [hnode]
    exact hlive n hn

end BareKernel.Process
