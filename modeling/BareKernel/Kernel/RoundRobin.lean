import BareKernel.Kernel.AnyRun
import BareKernel.Process.Slices

/-! Round robin. While nobody enters the ring, a process of the ring has a turn between
any two turns of another one, as long as the cursor is not moved past it without a
dispatch: that happens when the process at the cursor leaves the ring, because
`remove_from_ready_list` moves the cursor on and the scheduler moves it once more. -/

namespace BareKernel

open Process Links

variable {k k' k₁ k₂ : Kernel} {a : RingAction} {p q x : ℕ} {L M T es : List ℕ}
  {ok : Kernel → RingAction → Prop}

/-- What moves the turns on, or takes a process out of the ring. -/
inductive RingAction where
  | scheduler (sp : StackPtr)
  | blockProcess (pid : ℤ)
  | killProcess (pid : ℤ)
  | exitProcess

def Kernel.ringStep (k : Kernel) : RingAction → Option Kernel
  | .scheduler sp => (Process.scheduler k.toCore sp).map fun r => { k with toCore := r.2 }
  | .blockProcess pid => (Process.blockProcess k.toCore pid).map fun r => { k with toCore := r.2 }
  | .killProcess pid => (Process.killProcess k.toCore pid).map fun r => { k with toCore := r.2.1 }
  | .exitProcess => k.exitProcess

/-- Runs from any ready ring in which no process is unblocked. -/
def ringSystem : System Kernel RingAction where
  init k := ∃ L, RingInv k.toCore L
  step k a k' := k.ringStep a = some k' ∧ ¬Unblocks k.toCore k'.toCore

/-- The process that the action dispatches. -/
def dispatched (k : Kernel) (a : RingAction) : List ℕ :=
  match a with
  | .scheduler _ =>
    if Dispatches k.toCore then (k.ringStep a).elim [] fun k' => [k'.currentProcess] else []
  | .blockProcess _ | .killProcess _ | .exitProcess => []

/-- The process that the action takes out of the ring. -/
def RingAction.leaver (k : Kernel) : RingAction → ℕ
  | .scheduler _ => 0
  | .blockProcess pid => getProcessByPid k.toCore pid
  | .killProcess pid => if pid < 3 then 0 else getProcessByPid k.toCore pid
  | .exitProcess => if getProcessByPid k.toCore (k.pid k.currentProcess) = 0 then 0 else k.currentProcess

/-- The process at the cursor leaves, and `q` is the one behind it. -/
def SkipsOver (q : ℕ) (k : Kernel) (a : RingAction) : Prop :=
  k.processInfo k.currentNode = a.leaver k ∧ k.processInfo (k.next k.currentNode) = q

instance (q : ℕ) (k : Kernel) (a : RingAction) : Decidable (SkipsOver q k a) := inferInstanceAs (Decidable (_ ∧ _))

/-- A stretch of a run from a dispatch of `p` to another one, all along which `q` is in
the ring; in between `es` are dispatched. -/
def Round (ok : Kernel → RingAction → Prop) (p q : ℕ) (k : Kernel) (es : List ℕ) : Prop :=
  ∃ a k₁ b k₂ k₃, ringSystem.step k a k₁ ∧ dispatched k a = [p] ∧
    ringSystem.Emits (fun k a => isInReadyList k.toCore q = some true ∧ ok k a) dispatched k₁ es k₂ ∧
    isInReadyList k₂.toCore q = some true ∧ ringSystem.step k₂ b k₃ ∧ dispatched k₂ b = [p]

theorem exitProcess_turns (h : Turns k.toCore M) (hrun : k.exitProcess = some k') :
    Turns k'.toCore (M.filter fun z => z ≠ RingAction.exitProcess.leaver k) ∨ Unblocks k.toCore k'.toCore := by
  obtain ⟨r, c, k₂, hremove, honly, rfl⟩ := exitProcess_cases hrun
  obtain ⟨answers, live, hcore, hlive⟩ := honly.core
  have hring : k₂.toReadyRing = c.toReadyRing := by rw [hcore]
  have hnode : k₂.live .node = c.live .node := by
    rw [hcore]
    exact hlive .node (by simp)
  have hstate : k₂.state = c.state := by rw [hcore]
  have hcur : k₂.currentProcess = c.currentProcess := by rw [hcore]
  unfold RingAction.leaver
  by_cases hfound : getProcessByPid k.toCore (k.pid k.currentProcess) = 0
  · have hsame : c = k.toCore := by
      rcases removeFromProcessesList_cases hremove with ⟨-, hsame⟩ | ⟨i, -, -, hf, -⟩
      · exact hsame
      · rw [getProcessByPid_some hf] at hfound
        exact absurd hfound (foundprocess_some hf).2.1.1
    rw [if_pos hfound, h.zero]
    subst hsame
    exact Or.inl (h.congr hring hnode hstate hcur)
  · rw [if_neg hfound]
    refine (removeFromProcessesList_turns h hfound hremove).imp (fun hT => ?_) ?_
    · exact hT.congr hring hnode hstate hcur
    · rintro ⟨i, hi, hblocked, hready⟩
      refine ⟨i, hi, hblocked, ?_⟩
      rw [← hready]
      exact congrFun hstate _

/-- A step is a turn of the next process, or takes somebody out of the order. -/
theorem ringStep_turns (h : Turns k.toCore M) (hst : ringSystem.step k a k') :
    (∃ x T, M = x :: T ∧ Turns k'.toCore (T ++ [x]) ∧ dispatched k a = [k.processInfo (k.next k.currentNode)]) ∨
      dispatched k a = [] ∧ Turns k'.toCore (M.filter fun z => z ≠ a.leaver k) := by
  obtain ⟨hrun, hquiet⟩ := hst
  cases a with
  | scheduler sp =>
    have hstep := hrun
    obtain ⟨⟨sp', c⟩, hsched, rfl⟩ := Option.map_eq_some_iff.mp hrun
    rcases h.scheduler hsched with ⟨hd, hT⟩ | ⟨hd, x, T, rfl, hT, hcur⟩
    · refine Or.inr ⟨if_neg hd, ?_⟩
      rw [RingAction.leaver, h.zero]
      exact hT
    · refine Or.inl ⟨x, T, rfl, hT, ?_⟩
      rw [dispatched, if_pos hd, hstep]
      exact congrArg (fun p => [p]) hcur
  | blockProcess pid =>
    obtain ⟨⟨r, c⟩, hblock, rfl⟩ := Option.map_eq_some_iff.mp hrun
    exact Or.inr ⟨rfl, blockProcess_turns h hblock⟩
  | killProcess pid =>
    obtain ⟨⟨r, c, again⟩, hkill, rfl⟩ := Option.map_eq_some_iff.mp hrun
    exact Or.inr ⟨rfl, (killProcess_turns h hkill).resolve_right hquiet⟩
  | exitProcess => exact Or.inr ⟨rfl, (exitProcess_turns h hrun).resolve_right hquiet⟩

/-- Unless `q` is skipped or leaves, it keeps its turn before `p` until it has it. -/
theorem ringStep_turnBefore (hT : Turns k.toCore M) (hbefore : TurnBefore q p M) (hskip : ¬SkipsOver q k a)
    (hst : ringSystem.step k a k') :
    q ∈ dispatched k a ∨ ∃ M', Turns k'.toCore M' ∧ (q ∈ M' → TurnBefore q p M') := by
  have hnd := hT.nodup
  rcases ringStep_turns hT hst with ⟨x, T, rfl, hT', hdisp⟩ | ⟨-, hT'⟩
  · cases T with
    | nil => cases hbefore.1
    | cons y T =>
      have hy : y = k.processInfo (k.next k.currentNode) := Option.some.inj hT.second
      rw [hdisp, ← hy]
      rcases eq_or_ne y q with rfl | hyq
      · exact Or.inl (List.mem_singleton_self y)
      · exact Or.inr ⟨_, hT', fun _ => (hbefore.next hnd rfl hyq).2⟩
  · refine Or.inr ⟨_, hT', fun hq => ?_⟩
    have hqr : q ≠ a.leaver k := by simpa using (List.mem_filter.mp hq).2
    cases M with
    | nil => cases hbefore
    | cons x T =>
      apply hbefore.leave hnd hqr.symm
      intro hx hhead
      apply hskip
      refine ⟨hT.first.trans hx, ?_⟩
      have hsecond := hT.second
      cases T with
      | nil => cases hhead
      | cons y T => exact (Option.some.inj hsecond).symm.trans (Option.some.inj hhead)

/-- The same along a stretch of a run. -/
theorem emits_turnBefore
    (hrun : ringSystem.Emits (fun k a => isInReadyList k.toCore q = some true ∧ ¬SkipsOver q k a) dispatched k es k')
    (hT : Turns k.toCore M) (hbefore : q ∈ M → TurnBefore q p M) :
    q ∈ es ∨ ∃ M', Turns k'.toCore M' ∧ (q ∈ M' → TurnBefore q p M') := by
  induction hrun with
  | refl => exact Or.inr ⟨M, hT, hbefore⟩
  | step _ hok hst ih =>
    obtain ⟨hin, hskip⟩ := hok
    rw [List.mem_append]
    rcases ih with hq | ⟨M', hT', hbefore'⟩
    · exact Or.inl (Or.inl hq)
    · rcases ringStep_turnBefore hT' (hbefore' (hT'.mem_iff.mpr hin)) hskip hst with hq | hnext
      · exact Or.inl (Or.inr hq)
      · exact Or.inr hnext

/-- From any ready ring on, a process that stays in the ring and is never skipped has
a turn between two turns of another one. -/
theorem roundRobin_serves (h : ∃ L, RingInv k.toCore L) (hqp : q ≠ p)
    (hround : Round (fun k a => ¬SkipsOver q k a) p q k es) : q ∈ es := by
  obtain ⟨L, hL⟩ := h
  obtain ⟨M, hM⟩ := hL.turns
  obtain ⟨a, k₁, b, k₂, k₃, hst, hdisp, hrun, hin, hst', hdisp'⟩ := hround
  -- after its first turn `p` is at the cursor
  obtain ⟨T, hT, hp⟩ : ∃ T, Turns k₁.toCore (p :: T) ∧ p ∉ T := by
    rcases ringStep_turns hM hst with ⟨x, T, rfl, hT, hd⟩ | ⟨hd, -⟩
    · have hhead := hM.second
      rw [Option.some.inj ((congrArg List.head? hd).symm.trans (congrArg List.head? hdisp))] at hhead
      obtain ⟨T', hT'⟩ := List.head?_eq_some_iff.mp hhead
      rw [hT'] at hT
      exact ⟨T', hT, (List.nodup_cons.mp hT.nodup).1⟩
    · rw [hd] at hdisp
      cases hdisp
  have hstart : q ∈ p :: T → TurnBefore q p (p :: T) := fun hq =>
    .start ((List.mem_cons.mp hq).resolve_left hqp) hp
  rcases emits_turnBefore hrun hT hstart with hq | ⟨M', hT', hbefore⟩
  · exact hq
  · -- the next turn is that of `p`, but `q` comes before it
    have hnext := hbefore (hT'.mem_iff.mpr hin)
    rcases ringStep_turns hT' hst' with ⟨x, T', rfl, -, hd⟩ | ⟨hd, -⟩
    · cases T' with
      | nil => cases hnext.1
      | cons y T' =>
        have hy : y = p := (Option.some.inj hT'.second).trans (List.cons.inj (hd.symm.trans hdisp')).1
        exact absurd hy (hnext.next hT'.nodup rfl fun he => hqp (he.symm.trans hy)).1
    · rw [hd] at hdisp'
      cases hdisp'

/-! ### A process that is skipped -/

/-- The kernel with three processes, none of which has run. -/
def threeReady : Kernel := (Machine.ran (fun _ _ => True) Machine.initial
  [Machine.create 100, Machine.create 200, Machine.create 300]).toKernel

theorem threeReady_ring : ∃ L, RingInv threeReady.toCore L :=
  Machine.boot_reach_ring (Machine.boot_ran (by decide +kernel))

/-- A step that computes. -/
def Kernel.quietStep (k : Kernel) (a : RingAction) : Option Kernel :=
  (k.ringStep a).bind fun k' => if Unblocks k.toCore k'.toCore then none else some k'

theorem Kernel.quietStep_step (h : k.quietStep a = some k') : ringSystem.step k a k' := by
  obtain ⟨k₁, hrun, hquiet⟩ := Option.bind_eq_some_iff.mp h
  split at hquiet
  · cases hquiet
  · rename_i hno
    obtain rfl := Option.some.inj hquiet
    exact ⟨hrun, hno⟩

theorem Round.ran [∀ k a, Decidable (ok k a)] (a : RingAction) (as : List RingAction) (b : RingAction)
    (hfirst : k.quietStep a = some k₁) (hdisp : dispatched k a = [p])
    (hrun : System.runList Kernel.quietStep (fun k a => isInReadyList k.toCore q = some true ∧ ok k a) k₁ as = some k₂)
    (hes : System.emitted Kernel.quietStep dispatched k₁ as = es) (hin : isInReadyList k₂.toCore q = some true)
    (hlast : k₂.quietStep b = some k') (hdisp' : dispatched k₂ b = [p]) : Round ok p q k es := by
  subst hes
  exact ⟨a, k₁, b, k₂, k', Kernel.quietStep_step hfirst, hdisp,
    System.runList_emits (fun _ _ _ => Kernel.quietStep_step) hrun, hin, Kernel.quietStep_step hlast, hdisp'⟩

/-- The end of a time slice. -/
def slice : RingAction := .scheduler ⟨0, 0⟩

theorem ran_some {o : Option Kernel} (h : o.isSome = true) : o = some (o.getD k) := by
  obtain ⟨k', rfl⟩ := Option.isSome_iff_exists.mp h
  rfl

/-- With three processes the other two have their turns between two turns of the second. -/
theorem roundRobin_serves_slices :
    ∃ es, Round (fun k a => ¬SkipsOver 101 k a) 201 101 threeReady es ∧ 101 ∈ es := by
  have hround : Round (fun k a => ¬SkipsOver 101 k a) 201 101 threeReady [301, 101] :=
    .ran slice [slice, slice] slice (ran_some (k := threeReady) (by decide +kernel)) (by decide +kernel)
      (ran_some (k := threeReady) (by decide +kernel)) (by decide +kernel) (by decide +kernel)
      (ran_some (k := threeReady) (by decide +kernel)) (by decide +kernel)
  exact ⟨_, hround, roundRobin_serves threeReady_ring (by decide) hround⟩

/-- The second of three processes is dispatched, then the third one, which blocks: the
cursor moves to the first one and past it, and the second one has the next turn. -/
theorem roundRobin_skips :
    ∃ k p q es, (∃ L, RingInv k.toCore L) ∧ q ≠ p ∧ Round (fun k _ => k.state q = .ready) p q k es ∧
      p ∉ es ∧ q ∉ es := by
  refine ⟨threeReady, 201, 101, [301], threeReady_ring, by decide, ?_, by decide, by decide⟩
  exact .ran slice [slice, .blockProcess 3] slice (ran_some (k := threeReady) (by decide +kernel))
    (by decide +kernel) (ran_some (k := threeReady) (by decide +kernel)) (by decide +kernel) (by decide +kernel)
    (ran_some (k := threeReady) (by decide +kernel)) (by decide +kernel)

/-! ### Shares -/

/-- In a run of calls on a ready ring each call returns, and in every window that starts
with a dispatch each process has its share of the calls in one piece, in ring order. -/
theorem weighted_round_robin {c c' : Core} {rs : List (StackPtr × Core)} (h : RingInv c L) (hne : c.readyList ≠ 0)
    (hp : ∀ q ∈ ringProcs c L, 1 ≤ c.priority q) (hrun : Calls c rs c') :
    (∀ c₁ sp, Undisturbed c' c₁ → (Process.scheduler c₁ sp).isSome) ∧
    (Dispatches c' → ∃ M, (ringProcs c L).IsRotated M ∧ ∀ window c'', Calls c' window c'' →
      window.length = ((ringProcs c L).map (share c)).sum →
        List.Forall₂ Serves (M.flatMap fun q => List.replicate (share c q) q) window) := by
  obtain ⟨M, hrot, hT⟩ := h.turns_rotated
  have hL : ringProcs c L ≠ [] := by
    intro he
    exact hne (h.nodes.readyList_eq_zero.mpr (List.map_eq_nil_iff.mp he))
  obtain ⟨x, T, rfl⟩ : ∃ x T, M = x :: T := by
    cases M with
    | nil => exact absurd (List.isRotated_nil_iff.mp hrot) hL
    | cons x T => exact ⟨x, T, rfl⟩
  obtain ⟨N, hrot', hN, hprio⟩ := hrun.turns hT
  obtain ⟨y, S, rfl⟩ := isRotated_cons hrot'
  have hshare : share c' = share c := by
    funext q
    rw [share, hprio, share]
  constructor
  · intro c₁ sp hsame
    obtain ⟨r, hret, -⟩ := (hsame.turns hN).slice sp
    rw [hret]
    rfl
  · intro hd
    have horder : (ringProcs c L).IsRotated (S ++ [y]) :=
      (hrot.trans hrot').trans (List.isRotated_concat y S).symm
    refine ⟨S ++ [y], horder, fun window c'' hcalls hlen => ?_⟩
    have hdue : Due c' ((S ++ [y]) ++ []) := ⟨hd, y, S, hN, by simp⟩
    rw [← hshare]
    apply hdue.serves ?_ hcalls
    · rw [hlen, hshare]
      exact (horder.perm.map (share c)).sum_nat
    · intro q hq
      rw [hprio]
      exact hp q (horder.mem_iff.mpr hq)

/-- Two processes, the first with two slices in a round. -/
def unequalReady : Core := (Machine.ran (fun _ _ => True) Machine.initial
  [⟨.createProcess ⟨0, 2, 0, 0⟩, 0, [100, 101, 102, 103, 104, 105]⟩, Machine.create 200]).toCore

theorem unequalReady_ring : RingInv unequalReady [105, 205] := by
  have hnodes : Nodes unequalReady [105, 205] := by
    refine ⟨?_, by decide, by decide +kernel, by decide, fun _ => by decide +kernel, by simp, by decide +kernel,
      by decide +kernel⟩
    have hfirst : unequalReady.next 105 = 205 := by decide +kernel
    have hsecond : unequalReady.next 205 = 105 := by decide +kernel
    simp [Links.Ring, Fwd, hfirst, hsecond]
  exact ⟨hnodes, by decide +kernel, by decide +kernel⟩

/-- Three calls serve one of the two processes twice and the other one once. -/
theorem weighted_round_robin_unequal :
    ∃ M window c, [101, 201].IsRotated M ∧ Calls unequalReady window c ∧ window.length = 3 ∧
      List.Forall₂ Serves (M.flatMap fun q => List.replicate (share unequalReady q) q) window := by
  have hround {rs c} (hrun : Calls unequalReady rs c) := weighted_round_robin unequalReady_ring (by decide +kernel)
    (by decide +kernel) hrun
  have hreturns {rs c} (hrun : Calls unequalReady rs c) : ∃ r, Process.scheduler c ⟨0, 0⟩ = some r :=
    Option.isSome_iff_exists.mp ((hround hrun).1 c _ ⟨rfl, rfl, rfl, rfl, rfl⟩)
  obtain ⟨r₁, hfirst⟩ := hreturns .nil
  obtain ⟨r₂, hsecond⟩ := hreturns (.call ⟨rfl, rfl, rfl, rfl, rfl⟩ hfirst .nil)
  obtain ⟨r₃, hthird⟩ := hreturns
    (.call ⟨rfl, rfl, rfl, rfl, rfl⟩ hfirst (.call ⟨rfl, rfl, rfl, rfl, rfl⟩ hsecond .nil))
  have hwindow : Calls unequalReady [r₁, r₂, r₃] r₃.2 :=
    .call ⟨rfl, rfl, rfl, rfl, rfl⟩ hfirst (.call ⟨rfl, rfl, rfl, rfl, rfl⟩ hsecond
      (.call ⟨rfl, rfl, rfl, rfl, rfl⟩ hthird .nil))
  have hsum : ((ringProcs unequalReady [105, 205]).map (share unequalReady)).sum = 3 := by decide +kernel
  obtain ⟨M, hrot, hserves⟩ := (hround .nil).2 (by decide +kernel)
  exact ⟨M, _, _, hrot, hwindow, rfl, hserves _ _ hwindow hsum.symm⟩

end BareKernel
