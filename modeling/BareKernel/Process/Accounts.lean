import BareKernel.Process.Holdings
import BareKernel.Process.Shift
import Mathlib.Tactic.Abel

/-! The account of one process over the operations of `process/scheduler.c`. Between
its creation and its end it holds its node, while it is in the ring, and its holdings;
a new name of its priority leaves the old one behind. What is asked on behalf of the
other processes leaves its account alone. -/

namespace BareKernel.Process

open Function (update)
open Links

variable {c c' : Core} {L L' : List ℕ} {X : Multiset Block} {n p q : ℕ} {pid r v : ℤ}

/-! ### The node -/

theorem ringNode_cases (h : Nodes c L) (p : ℕ) :
    (p ∉ ringProcs c L ∧ ringNode c p = []) ∨ ∃ n ∈ L, c.processInfo n = p ∧ ringNode c p = [(.node, n)] := by
  cases L with
  | nil => exact Or.inl ⟨by simp [ringProcs], by simp [ringNode, h.readyList_eq_zero.mpr rfl]⟩
  | cons b B =>
    have hne : c.readyList ≠ 0 := fun he => by simpa using h.readyList_eq_zero.mp he
    have hlen := h.length_lt
    rw [List.length_cons] at hlen
    have hfirst : p ∉ ([] : List ℕ).map c.processInfo := by simp
    rw [ringNode, if_neg hne, h.head_eq]
    rcases findNode_eq (A := []) h (show B.length < c.fuel by omega) hfirst
      with ⟨hnot, hrun⟩ | ⟨A, n, B', heq, hn, hrun⟩
    · rw [show findNode c.toReadyRing p c.fuel 0 b = some none from hrun]
      exact Or.inl ⟨hnot, rfl⟩
    · rw [show findNode c.toReadyRing p c.fuel 0 b = some (some (_, n)) from hrun]
      exact Or.inr ⟨n, by rw [show b :: B = A ++ n :: B' from heq]; simp, hn, rfl⟩

theorem ringNode_nil (h : Nodes c L) (hp : p ∉ ringProcs c L) : ringNode c p = [] := by
  rcases ringNode_cases h p with ⟨-, hnil⟩ | ⟨n, hn, hnp, -⟩
  · exact hnil
  · exact absurd (List.mem_map.mpr ⟨n, hn, hnp⟩) hp

/-- No process has two nodes. -/
theorem ringNode_of_mem (h : Nodes c L) (hn : n ∈ L) (hp : c.processInfo n = p) : ringNode c p = [(.node, n)] := by
  rcases ringNode_cases h p with ⟨hnot, -⟩ | ⟨m, hm, hmp, hnode⟩
  · exact absurd (List.mem_map.mpr ⟨n, hn, hp⟩) hnot
  · rw [hnode, List.inj_on_of_nodup_map h.procs hm hn (hmp.trans hp.symm)]

theorem mem_ringNode (h : Nodes c L) {b : Block} (hb : b ∈ ringNode c p) :
    b.1 = .node ∧ b.2 ∈ L ∧ c.processInfo b.2 = p := by
  rcases ringNode_cases h p with ⟨-, hnil⟩ | ⟨n, hn, hnp, hnode⟩
  · rw [hnil] at hb
    cases hb
  · rw [hnode, List.mem_singleton] at hb
    subst hb
    exact ⟨rfl, hn, hnp⟩

/-- The node of a process is the same when the ring goes through the same nodes of it. -/
theorem ringNode_congr (h : Nodes c L) (h' : Nodes c' L')
    (hsame : ∀ n, n ∈ L' ∧ c'.processInfo n = p ↔ n ∈ L ∧ c.processInfo n = p) : ringNode c' p = ringNode c p := by
  rcases ringNode_cases h p with ⟨hnot, hnil⟩ | ⟨n, hn, hnp, hnode⟩
  · rw [hnil]
    apply ringNode_nil h'
    intro hm
    obtain ⟨n, hn, hnp⟩ := List.mem_map.mp hm
    obtain ⟨hn, hnp⟩ := (hsame n).mp ⟨hn, hnp⟩
    exact hnot (List.mem_map.mpr ⟨n, hn, hnp⟩)
  · obtain ⟨hn', hnp'⟩ := (hsame n).mpr ⟨hn, hnp⟩
    rw [hnode, ringNode_of_mem h' hn' hnp']

/-- The account of `p` when the node of `q` is freed. -/
theorem removeFromReadyList_account (h : Nodes c L) (hX : ∀ b ∈ X, b.1 ≠ .node)
    (hle : (ringNode c p : Multiset Block) + X ≤ c.blocks) (hrun : removeFromReadyList c q = some c') :
    Account p c.blocks c'.blocks (ringNode c p + X) (ringNode c' p + X) (removeRequests c q) ∧
      (q = p → ringNode c' p = []) := by
  rcases removeFromReadyList_nodes h q with ⟨hnot, hrun'⟩ | ⟨A, n, B, r, rfl, hn, hrun', hN, hinfo, -⟩
  · obtain rfl : c = c' := Option.some.inj (hrun'.symm.trans hrun)
    have hnil := ringNode_nil h hnot
    refine ⟨?_, fun hq => hq ▸ hnil⟩
    rw [removeRequests, hnil]
    exact .nil hle
  · obtain rfl := Option.some.inj (hrun'.symm.trans hrun)
    have hmem : n ∈ A ++ n :: B := by simp
    have hnode := ringNode_of_mem h hmem hn
    have hnotn : n ∉ A ++ B := not_mem_of_nodup h.nodup
    have hblocks : c.blocks = (.node, n) ::ₘ Memory.blocks (mmFree c .node n).toMemory :=
      blocksOf_free (mem_blocksOf.mpr ⟨by simp, h.live n hmem⟩)
    rw [removeRequests, hnode]
    by_cases hq : q = p
    · subst hq
      have hgone : ringNode { mmFree c .node n with toReadyRing := r } q = [] := by
        apply ringNode_nil hN
        intro hm
        obtain ⟨m, hm, hmq⟩ := List.mem_map.mp hm
        have hmq : c.processInfo m = q := hinfo ▸ hmq
        have hm' : m ∈ A ++ n :: B := by
          simp only [List.mem_append, List.mem_cons] at hm ⊢
          tauto
        have heq := List.inj_on_of_nodup_map h.procs hm' hmem (hmq.trans hn.symm)
        exact hnotn (heq ▸ hm)
      refine ⟨?_, fun _ => hgone⟩
      rw [hnode, hblocks] at hle
      rw [hnode, hgone, hblocks]
      have hle : X ≤ Memory.blocks (mmFree c .node n).toMemory := by simpa using hle
      simpa using Account.frees (o := q) [((.node, n) : Block)] hle
    · have hstay : ringNode { mmFree c .node n with toReadyRing := r } p = ringNode c p := by
        apply ringNode_congr h hN
        intro m
        rw [show ({ mmFree c .node n with toReadyRing := r } : Core).processInfo = c.processInfo from hinfo]
        refine and_congr_left fun hm => ?_
        have hmn : m ≠ n := by
          rintro rfl
          exact hq (hn.symm.trans hm)
        simp [hmn]
      refine ⟨?_, fun he => absurd he hq⟩
      rw [hstay, hblocks]
      rw [hblocks] at hle
      refine .freeOther hq hle ?_
      rw [Multiset.mem_add, not_or]
      refine ⟨fun hm => ?_, fun hm => hX _ hm rfl⟩
      have hnp := (mem_ringNode h (Multiset.mem_coe.mp hm)).2.2
      exact hq (hn.symm.trans hnp)

/-- A process that is not in the ring yet gets a node that was not in use. -/
theorem addToReadyList_cases (h : Nodes c L) (hadd : addToReadyList c q = some c') :
    (q ∈ ringProcs c L ∧ c' = c) ∨
      q ∉ ringProcs c L ∧ ∃ node rest r, c.answers = node :: rest ∧ node ∉ c.live .node ∧
        c' = { c with
          answers := rest
          live := update c.live .node (node :: c.live .node)
          toReadyRing := r } ∧
        Nodes c' (L ++ [node]) ∧ r.processInfo = update c.processInfo node q := by
  rw [addToReadyList, isInReadyList_eq h] at hadd
  by_cases hq : q ∈ L.map c.processInfo
  · obtain rfl : c = c' := by simpa [hq] using hadd
    exact Or.inl ⟨hq, rfl⟩
  · simp only [hq, decide_false, Option.bind_eq_bind, Option.bind_some, Bool.false_eq_true, if_false] at hadd
    obtain ⟨⟨node, c₁⟩, hmalloc, hins⟩ := Option.bind_eq_some_iff.mp hadd
    have hanswers := mmMallocUsed_answers hmalloc
    obtain ⟨h0, hfresh, rest, rfl⟩ := mmMallocUsed_some hmalloc
    have hnode : node ∉ L := fun hn => hfresh (h.live node hn)
    have hN : Nodes { c with answers := rest, live := update c.live .node (node :: c.live .node) } L :=
      ⟨h.ring, h.nodup, h.head, h.null, h.cursor, h.noCursor, h.procs, fun n hn => by simp [h.live n hn]⟩
    obtain ⟨r, hrun, hN', hinfo, -⟩ := insertNode_spec hN hnode h0 (by simp) hq
    obtain rfl := Option.some.inj (hrun.symm.trans hins)
    exact Or.inr ⟨hq, node, rest, r, hanswers, hfresh, rfl, hN', hinfo⟩

/-- The account of `p` when `q` enters the ring. -/
theorem addToReadyList_account (h : Nodes c L) (hle : (ringNode c p : Multiset Block) + X ≤ c.blocks)
    (hadd : addToReadyList c q = some c') :
    Account p c.blocks c'.blocks (ringNode c p + X) (ringNode c' p + X) (addRequests c q) := by
  have hfound := isInReadyList_eq h q
  unfold addRequests
  rcases addToReadyList_cases h hadd with ⟨hq, rfl⟩ | ⟨hq, node, rest, r, hans, hfresh, rfl, hN, hinfo⟩
  · rw [if_pos (by rw [hfound, decide_eq_true (show q ∈ L.map c'.processInfo from hq)])]
    exact .nil hle
  · have hnode : node ∉ L := fun hn => hfresh (h.live node hn)
    have hno : ¬isInReadyList c q = some true := by
      rw [hfound, decide_eq_false (show ¬q ∈ L.map c.processInfo from hq)]
      simp
    rw [if_neg hno, hans, List.headD_cons]
    set c' : Core := { c with
      answers := rest
      live := update c.live .node (node :: c.live .node)
      toReadyRing := r } with hc'
    have hblocks : c'.blocks = (.node, node) ::ₘ c.blocks := blocksOf_malloc (by simp) c.live node
    have hinfo' : c'.processInfo = update c.processInfo node q := hinfo
    rw [hblocks]
    by_cases hp : q = p
    · subst hp
      rw [ringNode_nil h hq] at hle ⊢
      have hself : ringNode c' q = [(.node, node)] := by
        apply ringNode_of_mem hN (by simp)
        rw [hinfo', Function.update_self]
      rw [hself, ← Multiset.cons_coe, Multiset.cons_add]
      have hout : ((.node, node) : Block) ∉ c.blocks := fun hm => hfresh (mem_blocksOf.mp hm).2
      exact Account.malloc (o := q) hle hout
    · have hstay : ringNode c' p = ringNode c p := by
        apply ringNode_congr h hN
        intro m
        rw [hinfo', List.mem_append, List.mem_singleton]
        rcases eq_or_ne m node with rfl | hm
        · rw [Function.update_self]
          exact ⟨fun hh => absurd hh.2 hp, fun hh => absurd hh.1 hnode⟩
        · rw [Function.update_of_ne hm]
          simp [hm]
      rw [hstay]
      exact .mallocOther hp _ hle

/-! ### The operations between creation and end -/

/-- What is held on behalf of a process: its node, its holdings, and the names that it
has had before. -/
def heldBy (c : Core) (p : ℕ) (names : Multiset Block) : Multiset Block :=
  (ringNode c p : Multiset Block) + ((holdings c p : Multiset Block) + names)

/-- The account of `p` from one state to the next. -/
def Accounted (p : ℕ) (names names' : Multiset Block) (c c' : Core) (es : List Entry) : Prop :=
  Account p c.blocks c'.blocks (heldBy c p names) (heldBy c' p names') es

/-- What is held is in use, and all that is left behind are names of priorities. -/
structure Holds (c : Core) (p : ℕ) (names : Multiset Block) : Prop where
  le : heldBy c p names ≤ c.blocks
  names : ∀ b ∈ names, b.1 = .priorityName

variable {names names' : Multiset Block} {es : List Entry}

theorem holdings_ne_node {b : Block} (hb : b ∈ holdings c p) : b.1 ≠ .node := by
  simp only [holdings, List.mem_append, List.mem_cons, List.mem_map, List.not_mem_nil, or_false] at hb
  rcases hb with ((rfl | rfl | rfl) | ⟨entry, -, rfl⟩) | (rfl | rfl) <;> simp

theorem Holds.ne_node (h : Holds c p names) : ∀ b ∈ (holdings c p : Multiset Block) + names, b.1 ≠ .node := by
  intro b hb
  rcases Multiset.mem_add.mp hb with hb | hb
  · exact holdings_ne_node (Multiset.mem_coe.mp hb)
  · rw [h.names b hb]
    simp

theorem RingEdit.holdings (h : RingEdit c c') : holdings c' p = holdings c p := by
  have hr := h.records
  unfold Process.holdings
  rw [show c'.stackTop = c.stackTop from congrArg Records.stackTop hr,
    show c'.name = c.name from congrArg Records.name hr,
    show c'.priorityName = c.priorityName from congrArg Records.priorityName hr,
    show c'.argc = c.argc from congrArg Records.argc hr, show c'.argv = c.argv from congrArg Records.argv hr,
    show c'.argvEntry = c.argvEntry from congrArg Records.argvEntry hr]

/-- Nothing is asked, and the ring and the holdings are the same. -/
theorem Accounted.same (h : Holds c p names) (hring : ringNode c' p = ringNode c p)
    (hhold : holdings c' p = holdings c p) (hlive : c'.live = c.live) : Accounted p names names c c' [] := by
  have hblocks : c'.blocks = c.blocks := congrArg blocksOf hlive
  unfold Accounted heldBy
  rw [hring, hhold, hblocks]
  exact .nil h.le

theorem removeFromReadyList_accounted (hN : Nodes c L) (h : Holds c p names)
    (hrun : removeFromReadyList c q = some c') :
    Accounted p names names c c' (removeRequests c q) := by
  have hacc := (removeFromReadyList_account hN h.ne_node h.le hrun).1
  unfold Accounted heldBy
  rw [(removeFromReadyList_edit hrun).holdings]
  exact hacc

theorem addToReadyList_accounted (hN : Nodes c L) (h : Holds c p names) (hrun : addToReadyList c q = some c') :
    Accounted p names names c c' (addRequests c q) := by
  have hacc := addToReadyList_account hN h.le hrun
  unfold Accounted heldBy
  rw [(addToReadyList_edit hrun).holdings]
  exact hacc

theorem blockProcess_accounted (hN : Nodes c L) (h : Holds c p names) (hrun : blockProcess c pid = some (r, c')) :
    Accounted p names names c c' (blockRequests c pid) := by
  have hsame : Accounted p names names c c [] := .same h rfl rfl rfl
  unfold blockProcess at hrun
  unfold blockRequests
  cases hf : foundprocess c pid with
  | none =>
    rw [hf] at hrun
    obtain ⟨-, rfl⟩ : -1 = r ∧ c = c' := by simpa using hrun
    exact hsame
  | some i =>
    simp only [hf] at hrun ⊢
    by_cases hstate : c.state (c.processesList i) ≠ .running ∧ c.state (c.processesList i) ≠ .ready
    · rw [if_pos hstate] at hrun ⊢
      obtain ⟨-, rfl⟩ : -1 = r ∧ c = c' := by simpa using hrun
      exact hsame
    · rw [if_neg hstate] at hrun ⊢
      obtain ⟨c₁, hrem, hret⟩ := Option.bind_eq_some_iff.mp hrun
      obtain ⟨-, rfl⟩ : 1 = r ∧ c₁ = c' := by simpa using hret
      set c₂ : Core := { c with state := update c.state (c.processesList i) .blocked } with hc₂
      have hN₂ : Nodes c₂ L := hN.setState _
      have h₂ : Holds c₂ p names := ⟨h.le, h.names⟩
      have hacc : Accounted p names names c₂ c₁ (removeRequests c₂ (c.processesList i)) :=
        removeFromReadyList_accounted hN₂ h₂ hrem
      exact hacc

theorem unblockProcess_accounted (hN : Nodes c L) (h : Holds c p names) (hrun : unblockProcess c pid = some (r, c')) :
    Accounted p names names c c' (unblockRequests c pid) := by
  have hsame : Accounted p names names c c [] := .same h rfl rfl rfl
  unfold unblockProcess at hrun
  unfold unblockRequests
  by_cases h1 : pid = 1
  · rw [if_pos h1] at hrun ⊢
    obtain ⟨-, rfl⟩ : -1 = r ∧ c = c' := by simpa using hrun
    exact hsame
  · rw [if_neg h1] at hrun ⊢
    cases hf : foundprocess c pid with
    | none =>
      rw [hf] at hrun
      obtain ⟨-, rfl⟩ : -1 = r ∧ c = c' := by simpa using hrun
      exact hsame
    | some i =>
      simp only [hf] at hrun ⊢
      by_cases hstate : c.state (c.processesList i) ≠ .blocked
      · rw [if_pos hstate] at hrun ⊢
        obtain ⟨-, rfl⟩ : -1 = r ∧ c = c' := by simpa using hrun
        exact hsame
      · rw [if_neg hstate] at hrun ⊢
        set c₁ : Core := { c with state := update c.state (c.processesList i) .ready } with hc₁
        have h₁ : Holds c₁ p names := ⟨h.le, h.names⟩
        have hN₁ : Nodes c₁ L := hN.setState _
        obtain ⟨found, hfound, hrun⟩ := Option.bind_eq_some_iff.mp hrun
        -- the ring is searched before the call and once more in it
        obtain ⟨c₂, hadd, rfl⟩ : ∃ c₂, addToReadyList c₁ (c.processesList i) = some c₂ ∧ c₂ = c' := by
          cases found with
          | true =>
            obtain ⟨-, rfl⟩ : 1 = r ∧ c₁ = c' := by simpa using hrun
            exact ⟨c₁, by simp [addToReadyList, hfound], rfl⟩
          | false =>
            obtain ⟨c₂, hadd, hret⟩ := Option.bind_eq_some_iff.mp hrun
            obtain ⟨-, rfl⟩ : 1 = r ∧ c₂ = c' := by simpa using hret
            exact ⟨c₂, hadd, rfl⟩
        have hacc : Accounted p names names c₁ c₂ (addRequests c₁ (c.processesList i)) :=
          addToReadyList_accounted hN₁ h₁ hadd
        exact hacc

theorem scheduler_accounted {sp sp' : StackPtr} (hN : Nodes c L) (hN' : Nodes c' L') (hL : ∀ n, n ∈ L' ↔ n ∈ L)
    (h : Holds c p names) (hrun : scheduler c sp = some (sp', c')) : Accounted p names names c c' [] := by
  obtain ⟨sps, states, counters, node, current, rfl⟩ := scheduler_eq hrun
  exact .same h (ringNode_congr hN hN' fun n => and_congr_left' (hL n)) rfl rfl

theorem modifyRequests_eq (c : Core) (pid v : ℤ) : modifyRequests c pid v =
    if Renames c pid v (getProcessByPid c pid)
    then onBehalf (getProcessByPid c pid) [.malloc (.priorityName, c.answers.headD 0)] else [] := by
  unfold modifyRequests
  cases hf : foundprocess c pid with
  | none => rw [if_neg fun hr => hr.1 (getProcessByPid_none hf)]
  | some i =>
    rw [getProcessByPid_some hf]
    dsimp only
    cases hv : findIndex priorityTable 4 v with
    | none =>
      rw [if_neg]
      intro hr
      have hsome := (findIndex_priority v).mpr hr.2.2
      rw [hv] at hsome
      cases hsome
    | some index =>
      rw [if_pos]
      exact ⟨(foundprocess_some hf).2.1.1, (getProcessByPid_some hf).symm, (findIndex_priority v).mp (by rw [hv]; rfl)⟩

/-- A new name for the priority of `p` leaves the old one behind. -/
theorem modifyPriority_accounted (hN : Nodes c L) (hN' : Nodes c' L) (h : Holds c p names)
    (hrun : modifyPriority c pid v = some (r, c')) :
    Accounted p names (if Renames c pid v p then (.priorityName, c.priorityName p) ::ₘ names else names) c c'
      (modifyRequests c pid v) := by
  rw [modifyRequests_eq]
  rcases modifyPriority_cases hrun with ⟨hno, -, priority, rfl⟩ |
    ⟨i, hf, hren, -, name, rest, priority, counter, hans, hfresh, rfl⟩
  · rw [if_neg (hno p), if_neg (hno _)]
    exact .same h (ringNode_congr hN hN' fun n => Iff.rfl) rfl rfl
  · rw [getProcessByPid_some hf, if_pos hren, hans, List.headD_cons]
    set q := c.processesList i with hq
    set c' : Core := { c with
      answers := rest
      live := update c.live .priorityName (name :: c.live .priorityName)
      priority := priority
      priorityName := update c.priorityName q name
      counter := counter } with hc'
    have hblocks : c'.blocks = (.priorityName, name) ::ₘ c.blocks := blocksOf_malloc (by simp) c.live name
    have hring : ringNode c' p = ringNode c p := ringNode_congr hN hN' fun n => Iff.rfl
    unfold Accounted
    rw [hblocks]
    by_cases hp : q = p
    · rw [hp] at hren ⊢
      rw [if_pos hren]
      have hheld : heldBy c' p ((.priorityName, c.priorityName p) ::ₘ names) =
          (.priorityName, name) ::ₘ heldBy c p names := by
        have hname : c'.priorityName p = name := by
          show update c.priorityName q name p = name
          rw [hp, Function.update_self]
        unfold heldBy holdings
        rw [hring, hname]
        simp only [List.cons_append, List.nil_append, ← Multiset.cons_coe, ← Multiset.singleton_add]
        abel
      rw [hheld]
      have hout : ((.priorityName, name) : Block) ∉ c.blocks := fun hm => hfresh (mem_blocksOf.mp hm).2
      exact Account.malloc (o := p) h.le hout
    · have hno : ¬Renames c pid v p := by
        rintro ⟨-, hp', -⟩
        exact hp (hp'.trans (getProcessByPid_some hf)).symm
      have hheld : heldBy c' p names = heldBy c p names := by
        have hname : c'.priorityName p = c.priorityName p := Function.update_of_ne (Ne.symm hp) ..
        unfold heldBy holdings
        rw [hring, hname]
      rw [if_neg hno, hheld]
      exact .mallocOther hp _ h.le

/-! ### The end of a process -/

theorem wakeParent_accounted {parent : ℕ} (h : RingInv c L) (hh : Holds c p names)
    (hrun : wakeParent c parent = some c') :
    Accounted p names names c c' (wakeRequests c parent) := by
  unfold wakeParent at hrun
  unfold wakeRequests
  by_cases hcond : c.waitingOnChild parent = 1 ∧ c.childrenLength parent = 0
  · rw [if_pos hcond] at hrun ⊢
    obtain ⟨⟨v, c₁⟩, hun, rfl⟩ := Option.map_eq_some_iff.mp hrun
    exact unblockProcess_accounted h.nodes hh hun
  · rw [if_neg hcond] at hrun ⊢
    obtain rfl := Option.some.inj hrun
    exact .same hh rfl rfl rfl

theorem leaveParent_accounted (h : RingInv c L) (hh : Holds c p names) (hrun : leaveParent c q = some c') :
    Accounted p names names c c' (leaveRequests c q) := by
  unfold leaveParent at hrun
  unfold leaveRequests
  by_cases hpos : 0 < c.parentPid q
  · rw [if_pos hpos] at hrun ⊢
    cases hf : foundprocess c (c.parentPid q) with
    | none =>
      rw [hf] at hrun
      obtain rfl := Option.some.inj hrun
      exact .same hh rfl rfl rfl
    | some i =>
      rw [hf] at hrun
      dsimp only
      obtain ⟨c₂, hwake, hret⟩ := Option.bind_eq_some_iff.mp hrun
      obtain rfl := Option.some.inj hret
      obtain ⟨children, lengths, hrem⟩ := removeChild_eq c (c.processesList i) (c.pid q)
      rw [hrem] at hwake ⊢
      set c₁ : Core := { c with children := children, childrenLength := lengths } with hc₁
      have h₁ : RingInv c₁ L := h.congr rfl rfl rfl rfl
      have hh₁ : Holds c₁ p names := ⟨hh.le, hh.names⟩
      have hacc : Accounted p names names c₁ c₂ (wakeRequests c₁ (c.processesList i)) :=
        wakeParent_accounted h₁ hh₁ hwake
      exact hacc
  · rw [if_neg hpos] at hrun ⊢
    obtain rfl := Option.some.inj hrun
    exact .same hh rfl rfl rfl

theorem leaveParent_holdings (hrun : leaveParent c q = some c') : holdings c' p = holdings c p := by
  rcases leaveParent_cases hrun with ⟨rfl, -⟩ | ⟨-, i, c₂, -, hwake, rfl⟩
  · rfl
  · obtain ⟨children, lengths, hrem⟩ := removeChild_eq c (c.processesList i) (c.pid q)
    rw [hrem] at hwake
    rcases wakeParent_cases hwake with ⟨rfl, -⟩ | ⟨-, -, v, hun⟩
    · rfl
    · rcases unblockProcess_cases hun with rfl | ⟨j, -, -, hedit⟩
      · rfl
      · exact hedit.holdings

theorem freeEntries_live (entries : List ℕ) (c : Core) : (entries.foldl (fun c entry => mmFree c .arg entry) c).live =
    (entries.map fun entry => ((.arg, entry) : Block)).foldl freeBlock c.live := by
  induction entries generalizing c with
  | nil => rfl
  | cons entry entries ih => exact ih _

/-- The blocks in use when the holdings and the record have been freed. -/
theorem freeHoldings_live (c : Core) (p : ℕ) :
    (mmFree (freeHoldings c p) .record p).live = (holdings c p).foldl freeBlock c.live := by
  let c₁ := mmFree (mmFree (mmFree c .stack (c.stackTop p)) .name (c.name p)) .priorityName (c.priorityName p)
  let entries := (List.range (c.argc p)).map (c.argvEntry (c.argv p))
  obtain ⟨live, hfree, -⟩ := freeEntries_holdings entries c₁
  have hlive := freeEntries_live entries c₁
  rw [hfree] at hlive
  have hargs : freeHoldings c p = mmFree { c₁ with live := live } .argv (c.argv p) := by
    show (let c := entries.foldl (fun c entry => mmFree c .arg entry) c₁; mmFree c .argv (c.argv p)) = _
    rw [hfree]
    rfl
  unfold holdings
  rw [hargs, List.foldl_append, List.foldl_append]
  show freeBlock (freeBlock live (.argv, c.argv p)) (.record, p) = _
  rw [show live = _ from hlive]
  rfl

/-- The end of a process that is found under its pid settles its account, but for the
names of its priority that it had before. -/
theorem removeFromProcessesList_account (h : RingInv c L) (hh : Holds c p names)
    (hrun : removeFromProcessesList c p = some (r, c')) (hfound : foundprocess c (c.pid p) ≠ none) :
    Account p c.blocks c'.blocks (heldBy c p names) names (removalRequests c p) := by
  rcases removeFromProcessesList_cases hrun with ⟨hnone, -⟩ | ⟨i, c₁, c₃, hf, hleave, hrem, rfl⟩
  · exact absurd hnone hfound
  · unfold removalRequests
    rw [hf]
    dsimp only
    obtain ⟨L₁, h₁⟩ := leaveParent_shift h hleave
    have hacc₁ := leaveParent_accounted h hh hleave
    set c₂ : Core := { c₁ with state := update c₁.state p .terminated } with hc₂
    have hh₂ : Holds c₂ p names := ⟨hacc₁.le, hh.names⟩
    have hN₂ : Nodes c₂ L₁ := h₁.ring.nodes.setState _
    have hacc₂ := removeFromReadyList_accounted hN₂ hh₂ hrem
    have hgone := (removeFromReadyList_account hN₂ hh₂.ne_node hh₂.le hrem).2 rfl
    have hhold : holdings c₃ p = holdings c p := by
      rw [(removeFromReadyList_edit hrem).holdings]
      have hfirst : holdings c₁ p = holdings c p := leaveParent_holdings hleave
      exact hfirst
    have hheld : heldBy c₃ p names = (holdings c p : Multiset Block) + names := by
      rw [heldBy, hgone, hhold, Multiset.coe_nil, zero_add]
    have hle₃ : (holdings c p : Multiset Block) + names ≤ blocksOf c₃.live := hheld ▸ hacc₂.le
    obtain ⟨hblocks, hnames⟩ := blocksOf_frees hle₃
    have hlive : ∀ table n, ({ mmFree { freeHoldings c₃ p with processesList := table } .record p with
        nProcesses := n } : Core).live = (holdings c p).foldl freeBlock c₃.live := by
      intro table n
      rw [← hhold, ← freeHoldings_live]
      rfl
    have hacc₃ : Account p c₃.blocks (blocksOf ((holdings c p).foldl freeBlock c₃.live)) (heldBy c₃ p names) names
        (onBehalf p ((holdings c p).map .free)) := by
      rw [hheld, show c₃.blocks = _ from hblocks]
      exact .frees (holdings c p) hnames
    rw [hleave, Option.elim_some]
    show Account p c.blocks (blocksOf _) (heldBy c p names) names _
    rw [hlive]
    exact (hacc₁.trans hacc₂).trans hacc₃

/-- `killProcess` takes the node out first and then removes the process. -/
theorem killProcess_account (h : RingInv c L) (hh : Holds c p names) {again : Bool}
    (hrun : killProcess c pid = some (r, c', again)) (hlow : 3 ≤ pid) (hp : p = getProcessByPid c pid) (h0 : p ≠ 0) :
    Account p c.blocks c'.blocks (heldBy c p names) names (killRequests c pid) := by
  rcases killProcess_cases hrun with ⟨-, -, hno⟩ | ⟨-, -, i, c₁, v, hf, hrem, hremove⟩
  · exact absurd (hp.trans (getProcessByPid_none (hno.resolve_left (not_lt.mpr hlow)))) h0
  · unfold killRequests
    rw [if_neg (not_lt.mpr hlow), hf]
    dsimp only
    obtain rfl : p = c.processesList i := hp.trans (getProcessByPid_some hf)
    set p := c.processesList i with hpi
    have h₀ : RingInv (freePid c pid) L := h.congr rfl rfl rfl rfl
    have hh₀ : Holds (freePid c pid) p names := ⟨hh.le, hh.names⟩
    have hacc₀ : Accounted p names names (freePid c pid) c₁ (removeRequests (freePid c pid) p) :=
      removeFromReadyList_accounted h₀.nodes hh₀ hrem
    obtain ⟨c₁', L₁, hrem', hedit, hN, hmem, -⟩ := removeFromReadyList_spec h₀.nodes p
    obtain rfl : c₁ = c₁' := Option.some.inj (hrem.symm.trans hrem')
    set c₃ : Core := { c₁ with state := update c₁.state p .terminated } with hc₃
    have h₃ : RingInv c₃ L₁ := h₀.leave (fun _ => rfl) (hedit.setState .terminated) (hN.setState _) hmem
    have hh₃ : Holds c₃ p names := ⟨hacc₀.le, hh.names⟩
    have hfound : foundprocess c₃ (c₃.pid p) ≠ none := by
      have hpids : c₁.pid = c.pid := congrArg Records.pid hedit.records
      have hpid : c₃.pid p = pid := (congrFun hpids p).trans (foundprocess_some hf).2.2
      have hsame : foundprocess c₃ pid = foundprocess c pid := foundprocess_congr hedit.processesList hpids
      rw [hpid, hsame, hf]
      simp
    show Account p c.blocks c'.blocks (heldBy c p names) names
      (removeRequests (freePid c pid) p ++ (removeFromReadyList (freePid c pid) p).elim [] _)
    rw [hrem, Option.elim_some]
    exact hacc₀.trans (removeFromProcessesList_account h₃ hh₃ hremove hfound)

end BareKernel.Process
