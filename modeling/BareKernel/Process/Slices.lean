import Mathlib.Algebra.GroupWithZero.Nat
import BareKernel.Process.Turns

/-! Weighted round robin. The process that the scheduler dispatches goes on for as many
calls as its priority says, and then the one behind it in the ring is dispatched; so while
nothing else touches the ring, each process has its share of the calls, in ring order. -/

namespace BareKernel.Process

open Function (update)
open Links

variable {c c' c₁ : Core} {L M A B T : List ℕ} {rs : List (StackPtr × Core)} {r : StackPtr × Core} {p q x : ℕ}
  {k : ℕ} {sp : StackPtr}

/-- Nothing has happened to the ring, the states and the priorities. -/
structure Undisturbed (c c' : Core) : Prop where
  ring : c'.toReadyRing = c.toReadyRing
  node : c'.live .node = c.live .node
  state : c'.state = c.state
  currentProcess : c'.currentProcess = c.currentProcess
  priority : c'.priority = c.priority

/-- Calls of the scheduler one after the other, with what they return; the ring is
undisturbed between them. -/
inductive Calls : Core → List (StackPtr × Core) → Core → Prop where
  | nil {c : Core} : Calls c [] c
  | call {c c₁ c' : Core} {sp : StackPtr} {r : StackPtr × Core} {rs : List (StackPtr × Core)} :
      Undisturbed c c₁ → scheduler c₁ sp = some r → Calls r.2 rs c' → Calls c (r :: rs) c'

/-- The call returned the stack pointer of the process, which goes on. -/
def Serves (q : ℕ) (r : StackPtr × Core) : Prop := r.2.currentProcess = q ∧ r.1 = r.2.stackPointer q

/-- The calls that a process gets in a round. -/
def share (c : Core) (q : ℕ) : ℕ := (c.priority q).toNat

/-- The next call dispatches the first process of `M`, and then the others in this order. -/
def Due (c : Core) (M : List ℕ) : Prop := Dispatches c ∧ ∃ x T, Turns c (x :: T) ∧ M = T ++ [x]

/-- The first process of `M` is on the processor for `k` calls, the last one included. -/
structure Serving (c : Core) (M : List ℕ) (k : ℕ) : Prop where
  turns : Turns c M
  head : M.head? = some c.currentProcess
  running : c.state c.currentProcess = .running
  counter : c.counter c.currentNode = k

theorem Undisturbed.turns (h : Undisturbed c c') (hT : Turns c M) : Turns c' M :=
  hT.congr h.ring h.node h.state h.currentProcess

theorem Undisturbed.dispatches (h : Undisturbed c c') : Dispatches c' ↔ Dispatches c := by
  unfold Dispatches
  rw [h.state, h.currentProcess, show c'.readyList = c.readyList from congrArg ReadyRing.readyList h.ring,
    show c'.counter = c.counter from congrArg ReadyRing.counter h.ring,
    show c'.currentNode = c.currentNode from congrArg ReadyRing.currentNode h.ring]

theorem Undisturbed.due (h : Undisturbed c c') (hd : Due c M) : Due c' M := by
  obtain ⟨hdisp, x, T, hT, hM⟩ := hd
  exact ⟨h.dispatches.mpr hdisp, x, T, h.turns hT, hM⟩

theorem Undisturbed.serving (h : Undisturbed c c') (hs : Serving c M k) : Serving c' M k := by
  refine ⟨h.turns hs.turns, ?_, ?_, ?_⟩
  · rw [h.currentProcess]
    exact hs.head
  · rw [h.state, h.currentProcess]
    exact hs.running
  · rw [show c'.counter = c.counter from congrArg ReadyRing.counter h.ring,
      show c'.currentNode = c.currentNode from congrArg ReadyRing.currentNode h.ring]
    exact hs.counter

theorem Turns.readyList (h : Turns c (x :: T)) : c.readyList ≠ 0 := by
  obtain ⟨L, N, hL, hrot, -, hM⟩ := h
  intro hempty
  rw [hL.nodes.readyList_eq_zero.mp hempty, List.isRotated_nil_iff'] at hrot
  rw [← hrot] at hM
  cases hM

/-- A call returns, and what it does to the counter at the cursor. -/
theorem Turns.slice (h : Turns c (x :: T)) (sp : StackPtr) :
    ∃ r, Process.scheduler c sp = some r ∧ Serves r.2.currentProcess r ∧ r.2.state r.2.currentProcess = .running ∧
      r.2.priority = c.priority ∧
      (Dispatches c ∧ r.2.counter r.2.currentNode = c.priority r.2.currentProcess ∨
        ¬Dispatches c ∧ r.2.currentProcess = c.currentProcess ∧
          r.2.counter r.2.currentNode = c.counter c.currentNode - 1) := by
  have hne := h.readyList
  obtain ⟨L, N, hL, -⟩ := h
  obtain ⟨c', hrun, -, -, hrunning, hdisp, -, -, -, hcount⟩ := hL.scheduler hne sp
  refine ⟨_, hrun, ⟨rfl, rfl⟩, hrunning, hdisp.priority, hcount.imp ?_ ?_⟩
  · rintro ⟨hd, -, -, hc⟩
    exact ⟨hd, hc⟩
  · rintro ⟨hd, -, hcur, hc⟩
    exact ⟨hd, hcur, hc⟩

/-- The call that dispatches. -/
theorem Due.call (h : Due c (q :: M)) (hp : 1 ≤ c.priority q) (hrun : scheduler c sp = some r) :
    Serves q r ∧ Serving r.2 (q :: M) (share c q) ∧ r.2.priority = c.priority := by
  obtain ⟨hd, x, T, hT, hM⟩ := h
  obtain ⟨r', hrun', hserves, hrunning, hprio, hcount⟩ := hT.slice sp
  obtain rfl := Option.some.inj (hrun'.symm.trans hrun)
  rcases hT.scheduler hrun with ⟨hno, -⟩ | ⟨-, x', T', hxT, hT', hcur⟩
  · exact absurd hd hno
  · obtain ⟨rfl, rfl⟩ := List.cons.inj hxT
    have hq : q = r'.2.currentProcess := by
      have hsecond := hT.second
      rw [← hM] at hsecond
      exact (Option.some.inj hsecond).trans hcur.symm
    rw [← hM] at hT'
    refine ⟨hq ▸ hserves, ⟨hT', congrArg some hq, hrunning, ?_⟩, hprio⟩
    rcases hcount with ⟨-, hc⟩ | ⟨hno, -⟩
    · rw [hc, ← hq, share]
      omega
    · exact absurd hd hno

/-- The calls that do not. -/
theorem Serving.call (h : Serving c (q :: M) (k + 2)) (hrun : scheduler c sp = some r) :
    Serves q r ∧ Serving r.2 (q :: M) (k + 1) ∧ r.2.priority = c.priority := by
  obtain ⟨r', hrun', hserves, hrunning, hprio, hcount⟩ := h.turns.slice sp
  obtain rfl := Option.some.inj (hrun'.symm.trans hrun)
  have hq : q = c.currentProcess := Option.some.inj h.head
  have hstay : ¬Dispatches c := by
    intro hd
    refine hd.2 ⟨fun h0 => ?_, h.running, ?_⟩
    · have hrunning := h.running
      rw [h0, h.turns.null] at hrunning
      cases hrunning
    · rw [h.counter]
      omega
  rcases hcount with ⟨hd, -⟩ | ⟨-, hcur, hc⟩
  · exact absurd hd hstay
  · have hsame : q = r'.2.currentProcess := hq.trans hcur.symm
    rcases h.turns.scheduler hrun with ⟨-, hT⟩ | ⟨hd, -⟩
    · refine ⟨hsame ▸ hserves, ⟨hT, congrArg some hsame, hrunning, ?_⟩, hprio⟩
      rw [hc, h.counter]
      omega
    · exact absurd hd hstay

/-! ### Windows -/

theorem Serving.due (h : Serving c (q :: M) 1) : Due c (M ++ [q]) := by
  refine ⟨⟨h.turns.readyList, fun hstay => ?_⟩, q, M, h.turns, rfl⟩
  have hleft := hstay.2.2
  rw [h.counter] at hleft
  omega

/-- One process is served for what it has left, and then the one behind it is due. -/
theorem Serving.slice (h : Serving c (q :: M) (k + 1)) (hcalls : Calls c rs c') (hlen : rs.length = k) :
    (∀ r ∈ rs, Serves q r) ∧ Due c' (M ++ [q]) ∧ c'.priority = c.priority := by
  induction k generalizing c rs with
  | zero =>
    obtain rfl := List.length_eq_zero_iff.mp hlen
    cases hcalls
    exact ⟨by simp, h.due, rfl⟩
  | succ k ih =>
    cases hcalls with
    | nil => cases hlen
    | call hsame hrun hrest =>
      obtain ⟨hserves, hserving, hprio⟩ := (hsame.serving h).call hrun
      obtain ⟨hall, hdue, hprio'⟩ := ih hserving hrest (by simpa using hlen)
      refine ⟨?_, hdue, hprio'.trans (hprio.trans hsame.priority)⟩
      rw [List.forall_mem_cons]
      exact ⟨hserves, hall⟩

/-- The share of one process. -/
theorem Due.slice (h : Due c (q :: M)) (hp : 1 ≤ c.priority q) (hcalls : Calls c rs c') (hlen : rs.length = share c q) :
    (∀ r ∈ rs, Serves q r) ∧ Due c' (M ++ [q]) ∧ c'.priority = c.priority := by
  have hshare : ∃ k, share c q = k + 1 := ⟨share c q - 1, by unfold share; omega⟩
  obtain ⟨k, hk⟩ := hshare
  cases hcalls with
  | nil =>
    rw [hk] at hlen
    cases hlen
  | call hsame hrun hrest =>
    have hdue := hsame.due h
    rw [← hsame.priority] at hp
    obtain ⟨hserves, hserving, hprio⟩ := hdue.call hp hrun
    have hshare : share _ q = k + 1 := (congrArg (fun f => (f q).toNat) hsame.priority).trans hk
    rw [hshare] at hserving
    obtain ⟨hall, hdue', hprio'⟩ := hserving.slice hrest (by simpa [hk] using hlen)
    refine ⟨?_, hdue', hprio'.trans (hprio.trans hsame.priority)⟩
    rw [List.forall_mem_cons]
    exact ⟨hserves, hall⟩

/-- A run is a run of its first calls and one of the others. -/
theorem Calls.split {rs₁ rs₂ : List (StackPtr × Core)} (h : Calls c (rs₁ ++ rs₂) c') :
    ∃ c₁, Calls c rs₁ c₁ ∧ Calls c₁ rs₂ c' := by
  induction rs₁ generalizing c with
  | nil => exact ⟨c, .nil, h⟩
  | cons r rs₁ ih =>
    cases h with
    | call hsame hrun hrest =>
      obtain ⟨c₁, hfirst, hlast⟩ := ih hrest
      exact ⟨c₁, .call hsame hrun hfirst, hlast⟩

theorem forall₂_replicate (h : ∀ r ∈ rs, Serves q r) : List.Forall₂ Serves (List.replicate rs.length q) rs := by
  induction rs with
  | nil => exact .nil
  | cons r rs ih =>
    rw [List.forall_mem_cons] at h
    exact .cons h.1 (ih h.2)

/-- The calls that serve the processes of `A`, one after the other. -/
theorem Due.serves (h : Due c (A ++ B)) (hp : ∀ q ∈ A, 1 ≤ c.priority q) (hcalls : Calls c rs c')
    (hlen : rs.length = (A.map (share c)).sum) :
    List.Forall₂ Serves (A.flatMap fun q => List.replicate (share c q) q) rs := by
  induction A generalizing c B rs with
  | nil =>
    obtain rfl := List.length_eq_zero_iff.mp hlen
    exact .nil
  | cons q A ih =>
    rw [List.forall_mem_cons] at hp
    rw [List.map_cons, List.sum_cons] at hlen
    rw [← List.take_append_drop (share c q) rs] at hcalls
    obtain ⟨c₁, hfirst, hlast⟩ := hcalls.split
    have htake : (rs.take (share c q)).length = share c q := by
      rw [List.length_take]
      omega
    obtain ⟨hall, hdue, hprio⟩ := h.slice hp.1 hfirst htake
    have hshare : share c₁ = share c := by
      funext x
      rw [share, hprio, share]
    have hrest : List.Forall₂ Serves (A.flatMap fun q => List.replicate (share c q) q) (rs.drop (share c q)) := by
      rw [← hshare]
      apply ih (B := B ++ [q])
      · simpa using hdue
      · rw [hprio]
        exact hp.2
      · rw [hshare]
        exact hlast
      · rw [hshare, List.length_drop]
        omega
    have hslice := forall₂_replicate hall
    rw [htake] at hslice
    rw [List.flatMap_cons, ← List.take_append_drop (share c q) rs]
    exact List.rel_append hslice hrest

/-! ### Runs -/

theorem isRotated_cons (h : (x :: T).IsRotated M) : ∃ y S, M = y :: S := by
  cases M with
  | nil => exact absurd (List.isRotated_nil_iff.mp h) (by simp)
  | cons y S => exact ⟨y, S, rfl⟩

/-- In a run the processes of the ring have their turns in the same circular order. -/
theorem Calls.turns (h : Calls c rs c') (hT : Turns c (x :: T)) :
    ∃ M, (x :: T).IsRotated M ∧ Turns c' M ∧ c'.priority = c.priority := by
  induction h generalizing x T with
  | nil => exact ⟨_, List.IsRotated.refl _, hT, rfl⟩
  | @call c c₁ c' sp r rs hsame hrun hrest ih =>
    have hT₁ := hsame.turns hT
    obtain ⟨r', hrun', -, -, hprio, -⟩ := hT₁.slice sp
    obtain rfl := Option.some.inj (hrun'.symm.trans hrun)
    obtain ⟨M, hrot, hM⟩ : ∃ M, (x :: T).IsRotated M ∧ Turns r'.2 M := by
      rcases hT₁.scheduler hrun with ⟨-, hM⟩ | ⟨-, y, S, hyS, hM, -⟩
      · exact ⟨x :: T, List.IsRotated.refl _, hM⟩
      · rw [hyS]
        exact ⟨S ++ [y], (List.isRotated_concat y S).symm, hM⟩
    obtain ⟨y, S, rfl⟩ := isRotated_cons hrot
    obtain ⟨N, hrot', hN, hprio'⟩ := ih hM
    exact ⟨N, hrot.trans hrot', hN, hprio'.trans (hprio.trans hsame.priority)⟩

end BareKernel.Process
