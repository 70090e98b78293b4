import BareKernel.Links.Ring
import BareKernel.Process.ReadyList
import Mathlib.Data.List.Perm.Subperm
import Mathlib.Data.List.Dedup

/-! The ready ring as a list. `Nodes c L` says that the ready list of `c` is the
ring of the nodes `L`, from the head on, with one node a process; then the loops
around the ring end, adding a process appends a node, and removing one takes its
node out. -/

namespace BareKernel.Process

open Function (update)
open Links

/-- The ready list goes through the nodes of `L`. -/
structure Nodes (c : Core) (L : List ℕ) : Prop where
  ring : Ring (Fwd c.next) L
  nodup : L.Nodup
  head : L.head?.getD 0 = c.readyList
  null : 0 ∉ L
  cursor : L ≠ [] → c.currentNode ∈ L
  noCursor : L = [] → c.currentNode = 0
  procs : (L.map c.processInfo).Nodup
  live : ∀ n ∈ L, n ∈ c.live .node

/-- What an edit of the ready list leaves alone. -/
structure RingEdit (c c' : Core) : Prop where
  records : c'.toRecords = c.toRecords
  currentProcess : c'.currentProcess = c.currentProcess
  processesList : c'.processesList = c.processesList
  nProcesses : c'.nProcesses = c.nProcesses
  pids : c'.pids = c.pids
  live : ∀ kind, kind ≠ .node → c'.live kind = c.live kind

variable {c c' : Core} {L A B : List ℕ} {process node b x fuel : ℕ}

theorem RingEdit.refl (c : Core) : RingEdit c c := ⟨rfl, rfl, rfl, rfl, rfl, fun _ _ => rfl⟩

theorem RingEdit.trans {c₁ c₂ c₃ : Core} (h : RingEdit c₁ c₂) (h' : RingEdit c₂ c₃) :
    RingEdit c₁ c₃ :=
  ⟨h'.records.trans h.records, h'.currentProcess.trans h.currentProcess,
    h'.processesList.trans h.processesList, h'.nProcesses.trans h.nProcesses,
    h'.pids.trans h.pids, fun kind hk => (h'.live kind hk).trans (h.live kind hk)⟩

theorem Nodes.length_lt (h : Nodes c L) : L.length < c.fuel :=
  Nat.lt_succ_of_le (List.subperm_of_subset h.nodup h.live).length_le

theorem Nodes.readyList_eq_zero (h : Nodes c L) : c.readyList = 0 ↔ L = [] := by
  rw [← h.head]
  cases L with
  | nil => simp
  | cons n L => simpa using fun hn => h.null (by simp [hn])

theorem Nodes.next_mid (h : Nodes c (A ++ b :: x :: B)) : c.next b = x ∧ x ≠ c.readyList := by
  refine ⟨h.ring.fwd_mid, ?_⟩
  have hnd := h.nodup
  rw [← h.head]
  cases A with
  | nil =>
    rintro rfl
    simp at hnd
  | cons a A =>
    rintro rfl
    simp at hnd

theorem Nodes.next_last (h : Nodes c (A ++ [b])) : c.next b = c.readyList := by
  obtain ⟨f, hf⟩ : ∃ f, (A ++ [b]).head? = some f := by
    rw [← Option.isSome_iff_exists]
    simp
  rw [h.ring.fwd_last hf, ← h.head, hf]
  rfl

theorem Nodes.head_eq (h : Nodes c (b :: B)) : c.readyList = b := h.head.symm

/-! ### The loops -/

theorem searchRing_eq (h : Nodes c (A ++ b :: B)) (hfuel : B.length < fuel) :
    searchRing c.toReadyRing process fuel b = some (decide (process ∈ (b :: B).map c.processInfo)) := by
  induction B generalizing A b fuel with
  | nil =>
    obtain ⟨fuel, rfl⟩ := Nat.exists_eq_succ_of_ne_zero (Nat.ne_of_gt hfuel)
    by_cases hp : c.processInfo b = process
    · simp [searchRing, hp]
    · simp [searchRing, hp, h.next_last, Ne.symm hp]
  | cons x B ih =>
    obtain ⟨fuel, rfl⟩ := Nat.exists_eq_succ_of_ne_zero (Nat.ne_of_gt (Nat.zero_lt_of_lt hfuel))
    obtain ⟨hx, hne⟩ := h.next_mid
    have hlen : B.length < fuel := by
      simp only [List.length_cons] at hfuel
      omega
    have ih' := ih (A := A ++ [b]) (by simpa using h) hlen
    by_cases hp : c.processInfo b = process
    · simp [searchRing, hp]
    · simp only [searchRing, hp, hx, hne, if_false, ih', Option.some.injEq, decide_eq_decide]
      simp [Ne.symm hp]

theorem isInReadyList_eq (h : Nodes c L) (process : ℕ) :
    isInReadyList c process = some (decide (process ∈ L.map c.processInfo)) := by
  cases L with
  | nil => simp [isInReadyList, h.readyList_eq_zero.mpr rfl]
  | cons b B =>
    have hne : c.readyList ≠ 0 := fun he => by simpa using h.readyList_eq_zero.mp he
    have hlen := h.length_lt
    rw [List.length_cons] at hlen
    rw [isInReadyList, if_neg hne, h.head_eq]
    exact searchRing_eq (A := []) h (by omega)

/-- A walk along linked nodes to the one before `target`. -/
theorem findLast_eq {r : ReadyRing} {target : ℕ} (h : (b :: B).IsChain (Fwd r.next))
    (hlast : r.next ((b :: B).getLast (by simp)) = target) (htarget : target ∉ B)
    (hfuel : B.length < fuel) :
    findLast r target fuel b = some ((b :: B).getLast (by simp)) := by
  induction B generalizing b fuel with
  | nil =>
    obtain ⟨fuel, rfl⟩ := Nat.exists_eq_succ_of_ne_zero (Nat.ne_of_gt hfuel)
    have hb : r.next b = target := by simpa using hlast
    simp [findLast, hb]
  | cons x B ih =>
    obtain ⟨fuel, rfl⟩ := Nat.exists_eq_succ_of_ne_zero (Nat.ne_of_gt (Nat.zero_lt_of_lt hfuel))
    obtain ⟨hx, hB⟩ := List.isChain_cons_cons.mp h
    have hne : r.next b ≠ target := by
      rw [show r.next b = x from hx]
      rintro rfl
      simp at htarget
    have hlen : B.length < fuel := by
      simp only [List.length_cons] at hfuel
      omega
    rw [findLast, if_neg hne, show r.next b = x from hx, List.getLast_cons (by simp)]
    exact ih hB (by simpa [List.getLast_cons] using hlast) (fun hm => htarget (by simp [hm])) hlen

/-- The search finds the node of a process and the one before it. -/
theorem findNode_eq (h : Nodes c (A ++ b :: B)) (hfuel : B.length < fuel)
    (hA : process ∉ A.map c.processInfo) :
    (process ∉ (b :: B).map c.processInfo ∧
        findNode c.toReadyRing process fuel (A.getLast?.getD 0) b = some none) ∨
      ∃ A' n B', A ++ b :: B = A' ++ n :: B' ∧ c.processInfo n = process ∧
        findNode c.toReadyRing process fuel (A.getLast?.getD 0) b =
          some (some (A'.getLast?.getD 0, n)) := by
  induction B generalizing A b fuel with
  | nil =>
    obtain ⟨fuel, rfl⟩ := Nat.exists_eq_succ_of_ne_zero (Nat.ne_of_gt hfuel)
    by_cases hp : c.processInfo b = process
    · exact Or.inr ⟨A, b, [], rfl, hp, by simp [findNode, hp]⟩
    · exact Or.inl ⟨by simp [Ne.symm hp], by simp [findNode, hp, h.next_last]⟩
  | cons x B ih =>
    obtain ⟨fuel, rfl⟩ := Nat.exists_eq_succ_of_ne_zero (Nat.ne_of_gt (Nat.zero_lt_of_lt hfuel))
    obtain ⟨hx, hne⟩ := h.next_mid
    have hlen : B.length < fuel := by
      simp only [List.length_cons] at hfuel
      omega
    by_cases hp : c.processInfo b = process
    · exact Or.inr ⟨A, b, x :: B, rfl, hp, by simp [findNode, hp]⟩
    · have hA' : process ∉ (A ++ [b]).map c.processInfo := by
        rw [List.map_append, List.mem_append, not_or]
        exact ⟨hA, by simp [Ne.symm hp]⟩
      have hstep : findNode c.toReadyRing process (fuel + 1) (A.getLast?.getD 0) b =
          findNode c.toReadyRing process fuel ((A ++ [b]).getLast?.getD 0) x := by
        simp [findNode, hp, hx, hne]
      rcases ih (A := A ++ [b]) (by simpa using h) hlen hA' with ⟨hnot, hrun⟩ | ⟨A', n, B', heq, hn, hrun⟩
      · refine Or.inl ⟨?_, hstep.trans hrun⟩
        rw [List.map_cons, List.mem_cons, not_or]
        exact ⟨Ne.symm hp, hnot⟩
      · exact Or.inr ⟨A', n, B', by simpa using heq, hn, hstep.trans hrun⟩

/-- The scan ends at the process behind the cursor when that is ready. -/
theorem findReady_eq (hready : c.state (c.processInfo (c.next c.currentNode)) = .ready) :
    findReady c c.currentNode c.fuel c.currentNode = some (c.next c.currentNode, true) := by
  simp [Core.fuel, findReady, hready]

/-! ### Adding a process -/

/-- An allocation fails, or it returns a block that was not in use. -/
theorem mmMalloc_cases (c : Core) (kind : Kind) :
    (∃ rest, mmMalloc c kind = (0, { c with answers := rest })) ∨
      ∃ a rest, a ≠ 0 ∧ a ∉ c.live kind ∧ mmMalloc c kind =
        (a, { c with answers := rest, live := update c.live kind (a :: c.live kind) }) := by
  unfold mmMalloc
  split
  · exact Or.inl ⟨c.answers, rfl⟩
  · rename_i a rest _
    by_cases hbad : a = 0 ∨ a ∈ c.live kind
    · exact Or.inl ⟨rest, by rw [if_pos hbad]⟩
    · rw [if_neg hbad]
      rw [not_or] at hbad
      exact Or.inr ⟨a, rest, hbad.1, hbad.2, rfl⟩

theorem mmMallocUsed_some {kind : Kind} {a : ℕ} (h : mmMallocUsed c kind = some (a, c')) :
    a ≠ 0 ∧ a ∉ c.live kind ∧
      ∃ rest, c' = { c with answers := rest, live := update c.live kind (a :: c.live kind) } := by
  unfold mmMallocUsed at h
  rcases mmMalloc_cases c kind with ⟨rest, hm⟩ | ⟨x, rest, hx, hfresh, hm⟩
  · simp [hm] at h
  · simp only [hm, hx, if_false] at h
    obtain ⟨rfl, rfl⟩ : x = a ∧ _ = c' := by simpa using h
    exact ⟨hx, hfresh, rest, rfl⟩

theorem insertNode_spec (h : Nodes c L) (hnode : node ∉ L) (h0 : node ≠ 0)
    (hlive : node ∈ c.live .node) (hp : process ∉ L.map c.processInfo) :
    ∃ r, insertNode c process node = some { c with toReadyRing := r } ∧
      Nodes { c with toReadyRing := r } (L ++ [node]) ∧
      r.processInfo = update c.processInfo node process ∧
      (L ≠ [] → r.currentNode = c.currentNode) := by
  have hinfo : L.map (update c.processInfo node process) = L.map c.processInfo := by
    apply List.map_congr_left
    intro n hn
    apply Function.update_of_ne
    rintro rfl
    exact hnode hn
  have hprocs : ((L ++ [node]).map (update c.processInfo node process)).Nodup := by
    rw [List.map_append, hinfo]
    simp only [List.map_cons, List.map_nil, Function.update_self]
    exact List.nodup_append.mpr ⟨h.procs, by simp, by grind⟩
  have hnodup : (L ++ [node]).Nodup := List.nodup_append.mpr ⟨h.nodup, by simp, by grind⟩
  have hnull : 0 ∉ L ++ [node] := by simp [h.null, Ne.symm h0]
  have hlive' : ∀ n ∈ L ++ [node], n ∈ c.live .node := by
    intro n hn
    rcases List.mem_append.mp hn with hn | hn
    · exact h.live n hn
    · rw [List.mem_singleton.mp hn]
      exact hlive
  rcases L.eq_nil_or_concat with rfl | ⟨A, a, rfl⟩
  · have hempty := h.readyList_eq_zero.mpr rfl
    refine ⟨⟨update c.processInfo node process, update c.counter node (c.priority process),
      update c.next node node, node, node⟩, by simp only [insertNode, hempty, if_true],
      ⟨?_, hnodup, rfl, hnull, ?_, by simp, hprocs, hlive'⟩, rfl, by simp⟩
    · simp [ring_singleton, Fwd]
    · simp
  · rw [List.concat_eq_append] at *
    have hne : c.readyList ≠ 0 := fun he => by simpa using h.readyList_eq_zero.mp he
    have hlast := h.next_last
    have htail : findLast { c.toReadyRing with
        processInfo := update c.processInfo node process
        counter := update c.counter node (c.priority process) } c.readyList c.fuel c.readyList =
        some a := by
      obtain ⟨f, T, hL⟩ := List.exists_cons_of_ne_nil (show A ++ [a] ≠ [] by simp)
      have hf : c.readyList = f := Nodes.head_eq (hL ▸ h)
      have hlen := h.length_lt
      have hget : (f :: T).getLast (by simp) = a := by simp [← hL]
      rw [hL, List.length_cons] at hlen
      have hring := h.ring.1
      rw [hL] at hring
      have hfT := h.nodup
      rw [hL, List.nodup_cons] at hfT
      rw [hf, ← hget]
      exact findLast_eq hring (by rw [hget, ← hf]; exact hlast) hfT.1 (by omega)
    refine ⟨⟨update c.processInfo node process, update c.counter node (c.priority process),
      update (update c.next a node) node c.readyList, c.readyList, c.currentNode⟩, ?_,
      ⟨?_, hnodup, ?_, hnull, fun _ => ?_, by simp, hprocs, hlive'⟩, rfl, fun _ => rfl⟩
    · simp only [insertNode, hne, if_false]
      exact Option.bind_eq_some_iff.mpr ⟨a, htail, rfl⟩
    · show Ring (Fwd (update (update c.next a node) node c.readyList)) (A ++ [a] ++ [node])
      have han : a ≠ node := by
        rintro rfl
        exact hnode (by simp)
      rw [List.append_assoc, List.singleton_append]
      apply Ring.link h.ring h.nodup
      · simp [Fwd, han]
      · intro y hy
        have hy' : c.next a = y := hy
        simp [Fwd, ← hy', hlast]
      · intro x hx y hy hxa hxy
        have hxn : x ≠ node := by
          rintro rfl
          exact hnode hx
        simpa [Fwd, hxa, hxn] using hxy
    · show ((A ++ [a]) ++ [node]).head?.getD 0 = c.readyList
      rw [← h.head, List.head?_append_of_ne_nil _ (by simp)]
    · exact List.mem_append_left _ (h.cursor (by simp))

theorem addToReadyList_spec (h : Nodes c L) (hadd : addToReadyList c process = some c') :
    RingEdit c c' ∧
      ((process ∈ L.map c.processInfo ∧ c' = c) ∨
        process ∉ L.map c.processInfo ∧ ∃ node, node ∉ L ∧ Nodes c' (L ++ [node]) ∧
          c'.processInfo = update c.processInfo node process ∧
          (L ≠ [] → c'.currentNode = c.currentNode)) := by
  rw [addToReadyList, isInReadyList_eq h] at hadd
  by_cases hp : process ∈ L.map c.processInfo
  · obtain rfl : c = c' := by simpa [hp] using hadd
    exact ⟨.refl _, Or.inl ⟨hp, rfl⟩⟩
  · simp only [hp, decide_false, Option.bind_eq_bind, Option.bind_some, Bool.false_eq_true,
      if_false] at hadd
    obtain ⟨⟨node, c₁⟩, hmalloc, hins⟩ := Option.bind_eq_some_iff.mp hadd
    obtain ⟨h0, hfresh, rest, rfl⟩ := mmMallocUsed_some hmalloc
    have hnode : node ∉ L := fun hn => hfresh (h.live node hn)
    have hN : Nodes { c with answers := rest, live := update c.live .node (node :: c.live .node) } L :=
      ⟨h.ring, h.nodup, h.head, h.null, h.cursor, h.noCursor, h.procs, fun n hn => by
        simp [h.live n hn]⟩
    obtain ⟨r, hrun, hN', hinfo, hcur⟩ := insertNode_spec hN hnode h0 (by simp) hp
    obtain rfl := Option.some.inj (hrun.symm.trans hins)
    refine ⟨⟨rfl, rfl, rfl, rfl, rfl, fun kind hk => ?_⟩, Or.inr ⟨hp, node, hnode, hN', hinfo, hcur⟩⟩
    exact Function.update_of_ne hk ..

/-! ### Removing a process -/

/-- The ring without `node`, whose predecessor `last` now points past it. -/
theorem Nodes.unlink_ring {last : ℕ} (h : Nodes c (A ++ node :: B)) (hlast : last ∈ A ++ B)
    (hnext : c.next last = node) :
    Ring (Fwd (update c.next last (c.next node))) (A ++ B) := by
  have hnot := not_mem_of_nodup h.nodup
  have hin : ∀ x ∈ A ++ B, x ∈ A ++ node :: B := by
    intro x hx
    simp at hx ⊢
    tauto
  refine h.ring.unlink hnot ?_ ?_
  · intro x hx y hy hxn hny
    obtain rfl : x = last :=
      h.ring.fwd_inj h.nodup (hin x hx) (hin last hlast) (Eq.trans hxn hnext.symm)
    have hny' : c.next node = y := hny
    simp [Fwd, hny']
  · intro x hx y hy hxn hyn hxy
    have hxl : x ≠ last := by
      rintro rfl
      exact hyn (Eq.trans (Eq.symm hxy) hnext)
    simpa [Fwd, hxl] using hxy

theorem Nodes.live_erase (h : Nodes c (A ++ node :: B)) :
    ∀ x ∈ A ++ B, x ∈ (mmFree c .node node).live .node := by
  intro x hx
  have hne : x ≠ node := fun he => not_mem_of_nodup h.nodup (he ▸ hx)
  have hlive := h.live x (by simp at hx ⊢; tauto)
  simpa [mmFree] using (List.mem_erase_of_ne hne).mpr hlive

theorem unlinkNode_spec (h : Nodes c (A ++ node :: B)) :
    ∃ r, unlinkNode c (A.getLast?.getD 0) node = some { mmFree c .node node with toReadyRing := r } ∧
      Nodes { mmFree c .node node with toReadyRing := r } (A ++ B) ∧
      r.processInfo = c.processInfo ∧ (c.currentNode ≠ node → r.currentNode = c.currentNode) ∧
      (c.currentNode = node → A ++ B ≠ [] → r.currentNode = c.next node) := by
  have hnode : node ∈ A ++ node :: B := by simp
  have hnd := h.nodup
  have hnot := not_mem_of_nodup hnd
  have hnext := h.ring.exists_next hnode
  have hsub : (A ++ B).Sublist (A ++ node :: B) := List.Sublist.append_left (List.sublist_cons_self ..) A
  have hnodup := hsub.nodup hnd
  have hnull : 0 ∉ A ++ B := fun h0 => h.null (hsub.subset h0)
  have hprocs : ((A ++ B).map c.processInfo).Nodup := (hsub.map _).nodup h.procs
  have hlive := h.live_erase
  by_cases hself : c.next node = node
  · have hone := h.ring.eq_singleton hnd hnode hself
    have hAB : A ++ B = [] := by rw [← erase_of_nodup hnd, hone]; simp
    rw [hAB] at hlive ⊢
    refine ⟨⟨c.processInfo, c.counter, c.next, 0, 0⟩, ?_, ⟨ring_nil, .nil, rfl, by simp,
      fun hne => absurd rfl hne, fun _ => rfl, by simp, hlive⟩, rfl, fun hne => ?_, fun _ hne => absurd rfl hne⟩
    · simp only [unlinkNode, hself, if_true]
      rfl
    · have hcur := h.cursor (by simp)
      rw [hone] at hcur
      exact absurd (List.mem_singleton.mp hcur) hne
  · have hrest : c.next node ∈ A ++ B := by
      obtain ⟨y, hy, hny⟩ := hnext
      rw [show c.next node = y from hny] at hself ⊢
      simp at hy ⊢
      tauto
    have hcursor : (if node = c.currentNode then c.next node else c.currentNode) ∈ A ++ B := by
      split
      · exact hrest
      · rename_i hne
        have hcur := h.cursor (by simp)
        simp at hcur ⊢
        tauto
    have hne : A ++ B ≠ [] := List.ne_nil_of_mem hrest
    obtain ⟨last, hlast, hln, hhead, hrun⟩ : ∃ last ∈ A ++ B, c.next last = node ∧
        (A ++ B).head?.getD 0 = (if node = c.readyList then c.next node else c.readyList) ∧
        unlinkNode c (A.getLast?.getD 0) node = some { mmFree c .node node with toReadyRing :=
          ⟨c.processInfo, c.counter, update c.next last (c.next node),
            if node = c.readyList then c.next node else c.readyList,
            if node = c.currentNode then c.next node else c.currentNode⟩ } := by
      rcases A.eq_nil_or_concat with rfl | ⟨A, p, rfl⟩
      · -- the head: its predecessor is the last node, found by a walk
        rcases B with _ | ⟨f, T⟩
        · exact absurd rfl hne
        have hf := (h.next_mid (A := []))
        have hlen := h.length_lt
        simp only [List.nil_append, List.length_cons] at hlen
        have hmem : (f :: T).getLast (by simp) ∈ f :: T := List.getLast_mem _
        have hclose : c.next ((f :: T).getLast (by simp)) = node := by
          refine h.ring.2 _ ?_ node (by simp)
          rw [List.nil_append, List.getLast?_cons_cons, List.getLast?_eq_getLast_of_ne_nil (by simp)]
          rfl
        have hwalk : findLast { c.toReadyRing with readyList := f } node c.fuel f =
            some ((f :: T).getLast (by simp)) :=
          findLast_eq (List.isChain_cons_cons.mp h.ring.1).2 hclose
            (fun hm => hnot (by simp [hm])) (by omega)
        have hnl : (f :: T).getLast (by simp) ≠ node := fun he => hnot (by
          rw [← he]
          exact List.mem_append_right _ hmem)
        have hfn : node ≠ f := Ne.symm (hf.1 ▸ hself)
        refine ⟨_, List.mem_append_right _ hmem, hclose, by simp [h.head_eq, hf.1], ?_⟩
        simp only [unlinkNode, Ne.symm hfn, h.head_eq, hf.1, if_false, if_true, List.getLast?_nil,
          Option.getD_none, ne_eq, not_true_eq_false]
        refine Option.bind_eq_some_iff.mpr ⟨_, hwalk, ?_⟩
        simp only [hfn, if_false, Function.update_of_ne (Ne.symm hnl), hf.1]
        rfl
      · rw [List.concat_eq_append] at *
        have hp : p ∈ A ++ [p] ++ node :: B := by simp
        have hp0 : p ≠ 0 := fun he => h.null (he ▸ hp)
        have hpn : c.next p = node := by
          have hN : Nodes c (A ++ p :: node :: B) := by simpa using h
          exact hN.next_mid.1
        have hhead : node ≠ c.readyList := by
          have hN : Nodes c (A ++ p :: node :: B) := by simpa using h
          exact hN.next_mid.2
        have hnp : node ≠ p := by
          rintro rfl
          exact hnot (by simp)
        refine ⟨p, by simp, hpn, ?_, ?_⟩
        · rw [if_neg hhead, ← h.head]
          simp [List.head?_append]
        · simp only [unlinkNode, hself, hhead, if_false, List.getLast?_concat, Option.getD_some, ne_eq,
            hp0, not_false_eq_true, if_true, Option.bind_eq_bind, Option.bind_some,
            Function.update_of_ne hnp]
          rfl
    refine ⟨_, hrun, ⟨h.unlink_ring hlast hln, hnodup, hhead, hnull, fun _ => hcursor,
      fun he => absurd he hne, hprocs, hlive⟩, rfl, fun hc => ?_, fun hc _ => ?_⟩
    · rw [if_neg (Ne.symm hc)]
    · rw [if_pos hc.symm]

/-- The processes of the ring, from the head on. -/
def ringProcs (c : Core) (L : List ℕ) : List ℕ := L.map c.processInfo

/-- The process has no node, or its node is unlinked. -/
theorem removeFromReadyList_nodes (h : Nodes c L) (process : ℕ) :
    (process ∉ ringProcs c L ∧ removeFromReadyList c process = some c) ∨
      ∃ A node B r, L = A ++ node :: B ∧ c.processInfo node = process ∧
        removeFromReadyList c process = some { mmFree c .node node with toReadyRing := r } ∧
        Nodes { mmFree c .node node with toReadyRing := r } (A ++ B) ∧ r.processInfo = c.processInfo ∧
        (c.currentNode ≠ node → r.currentNode = c.currentNode) ∧
        (c.currentNode = node → A ++ B ≠ [] → r.currentNode = c.next node) := by
  cases L with
  | nil =>
    have hempty := h.readyList_eq_zero.mpr rfl
    exact Or.inl ⟨by simp [ringProcs], by simp [removeFromReadyList, hempty]⟩
  | cons b B =>
    have hne : c.readyList ≠ 0 := fun he => by simpa using h.readyList_eq_zero.mp he
    have hlen := h.length_lt
    rw [List.length_cons] at hlen
    have hfirst : process ∉ ([] : List ℕ).map c.processInfo := by simp
    rcases findNode_eq (A := []) h (show B.length < c.fuel by omega) hfirst
      with ⟨hnot, hrun⟩ | ⟨A', n, B', heq, hn, hrun⟩
    · refine Or.inl ⟨hnot, ?_⟩
      rw [removeFromReadyList, if_neg hne, h.head_eq]
      exact Option.bind_eq_some_iff.mpr ⟨none, hrun, rfl⟩
    · rw [List.nil_append] at heq
      rw [heq] at h
      obtain ⟨r, hunlink, hN, hinfo, hcur⟩ := unlinkNode_spec h
      refine Or.inr ⟨A', n, B', r, heq, hn, ?_, hN, hinfo, hcur⟩
      rw [removeFromReadyList, if_neg hne, Nodes.head_eq (heq ▸ h)]
      exact Option.bind_eq_some_iff.mpr ⟨_, hrun, hunlink⟩

theorem removeFromReadyList_spec (h : Nodes c L) (process : ℕ) :
    ∃ c' L', removeFromReadyList c process = some c' ∧ RingEdit c c' ∧ Nodes c' L' ∧
      (∀ q, q ∈ ringProcs c' L' ↔ q ∈ ringProcs c L ∧ q ≠ process) ∧
      (c.processInfo c.currentNode ≠ process →
        c'.processInfo c'.currentNode = c.processInfo c.currentNode) := by
  rcases removeFromReadyList_nodes h process with ⟨hnot, hrun⟩ | ⟨A, n, B, r, rfl, hn, hrun, hN, hinfo, hcur, -⟩
  · refine ⟨c, L, hrun, .refl c, h, fun q => ⟨fun hq => ⟨hq, ?_⟩, And.left⟩, fun _ => rfl⟩
    rintro rfl
    exact hnot hq
  · have hprocs := h.procs
    rw [List.map_append, List.map_cons] at hprocs
    have hnotn := not_mem_of_nodup hprocs
    refine ⟨_, A ++ B, hrun, ⟨rfl, rfl, rfl, rfl, rfl, fun kind hk => Function.update_of_ne hk ..⟩, hN, fun q => ?_,
      fun hne => ?_⟩
    · rw [ringProcs, ringProcs, show _ = c.processInfo from hinfo, ← hn,
        List.map_append, List.map_append, List.map_cons]
      constructor
      · intro hq
        have hor := List.mem_append.mp hq
        refine ⟨List.mem_append.mpr (hor.imp_right (List.mem_cons_of_mem _)), ?_⟩
        rintro rfl
        exact hnotn hq
      · rintro ⟨hq, hqn⟩
        simp only [List.mem_append, List.mem_cons] at hq ⊢
        tauto
    · have hcn : c.currentNode ≠ n := by
        rintro he
        exact hne (he ▸ hn)
      show r.processInfo r.currentNode = _
      rw [hinfo, hcur hcn]

/-- `addToReadyList` in terms of the processes of the ring. -/
theorem addToReadyList_procs (h : Nodes c L) (hadd : addToReadyList c process = some c') :
    RingEdit c c' ∧ ∃ L', Nodes c' L' ∧
      (∀ q, q ∈ ringProcs c' L' ↔ q ∈ ringProcs c L ∨ q = process) ∧
      (L ≠ [] → c'.processInfo c'.currentNode = c.processInfo c.currentNode) := by
  obtain ⟨hedit, ⟨hp, rfl⟩ | ⟨hp, node, hnode, hN, hinfo, hcur⟩⟩ := addToReadyList_spec h hadd
  · refine ⟨hedit, L, h, fun q => ⟨Or.inl, ?_⟩, fun _ => rfl⟩
    rintro (hq | rfl)
    · exact hq
    · exact hp
  · have hsame : ∀ n ∈ L, c'.processInfo n = c.processInfo n := by
      intro n hn
      rw [hinfo]
      apply Function.update_of_ne
      rintro rfl
      exact hnode hn
    refine ⟨hedit, L ++ [node], hN, fun q => ?_, fun hne => ?_⟩
    · rw [ringProcs, List.map_append, List.map_congr_left hsame, List.mem_append]
      simp [hinfo, ringProcs]
    · rw [hcur hne, hsame _ (h.cursor hne)]

end BareKernel.Process
