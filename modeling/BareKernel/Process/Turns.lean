import BareKernel.Links.Turns
import BareKernel.Process.Shift
import BareKernel.Process.TableEffect

/-! The order in which the processes of the ready ring have their turns. A dispatch
moves the cursor one process further; a process that leaves is taken out of the
order, and when it is the one at the cursor, the cursor moves on without a
dispatch. -/

namespace BareKernel.Process

open Function (update)
open Links

variable {c c' : Core} {L L' N M T : List ℕ} {p q x y : ℕ} {pid r : ℤ} {s : Status} {sp sp' : StackPtr}

/-- The processes of the ring are `M`, from the cursor on. -/
def Turns (c : Core) (M : List ℕ) : Prop :=
  ∃ L N, RingInv c L ∧ L.IsRotated N ∧ N.head?.getD 0 = c.currentNode ∧ M = N.map c.processInfo

theorem RingInv.turns_rotated (h : RingInv c L) : ∃ M, (ringProcs c L).IsRotated M ∧ Turns c M := by
  rcases L.eq_nil_or_concat with hL | ⟨L', a, hL⟩
  · refine ⟨[], ?_, L, [], h, by rw [hL], by simpa using (h.nodes.noCursor hL).symm, rfl⟩
    rw [ringProcs, hL]
    exact List.IsRotated.refl _
  · have hcur := h.nodes.cursor (by simp [hL])
    obtain ⟨A, B, hAB⟩ := List.append_of_mem hcur
    have hrot : L.IsRotated (c.currentNode :: B ++ A) := by
      rw [hAB]
      exact List.isRotated_append
    exact ⟨_, hrot.map c.processInfo, L, c.currentNode :: B ++ A, h, hrot, rfl, rfl⟩

theorem RingInv.turns (h : RingInv c L) : ∃ M, Turns c M := by
  obtain ⟨M, -, hM⟩ := h.turns_rotated
  exact ⟨M, hM⟩

theorem Turns.null (h : Turns c M) : c.state 0 = .terminated := by
  obtain ⟨L, N, hL, -⟩ := h
  exact hL.null

theorem Turns.nodup (h : Turns c M) : M.Nodup := by
  obtain ⟨L, N, hL, hrot, -, rfl⟩ := h
  exact (hrot.map c.processInfo).nodup_iff.mp hL.nodes.procs

theorem Turns.mem_iff (h : Turns c M) : q ∈ M ↔ isInReadyList c q = some true := by
  obtain ⟨L, N, hL, hrot, -, rfl⟩ := h
  rw [isInReadyList_eq hL.nodes, Option.some.injEq, decide_eq_true_iff]
  exact (hrot.map c.processInfo).mem_iff.symm

/-- The ring read from any of its nodes. -/
theorem Nodes.rotated (h : Nodes c L) (hrot : L.IsRotated N) : Ring (Fwd c.next) N := by
  obtain ⟨A, B, rfl, rfl⟩ := isRotated_iff_append.mp hrot
  exact ring_rotate.mp h.ring

theorem Turns.first (h : Turns c (x :: T)) : c.processInfo c.currentNode = x := by
  obtain ⟨L, N, -, -, hhead, hM⟩ := h
  cases N with
  | nil => cases hM
  | cons n N =>
    have hn : n = c.currentNode := by simpa using hhead
    rw [← hn]
    exact (List.cons.inj hM).1.symm

/-- The next turn is that of the process behind the cursor. -/
theorem Turns.second (h : Turns c (x :: T)) : (T ++ [x]).head? = some (c.processInfo (c.next c.currentNode)) := by
  obtain ⟨L, N, hL, hrot, hhead, hM⟩ := h
  have hring := hL.nodes.rotated hrot
  cases N with
  | nil => cases hM
  | cons n N =>
    obtain rfl : n = c.currentNode := by simpa using hhead
    obtain ⟨rfl, rfl⟩ := List.cons.inj hM
    cases N with
    | nil =>
      have hself : c.next c.currentNode = c.currentNode := hring.2 _ rfl _ rfl
      simp [hself]
    | cons m N =>
      have hnext : c.next c.currentNode = m := (List.isChain_cons_cons.mp hring.1).1
      simp [hnext]

theorem Turns.congr (h : Turns c M) (hring : c'.toReadyRing = c.toReadyRing)
    (hnode : c'.live .node = c.live .node) (hs : c'.state = c.state)
    (hcur : c'.currentProcess = c.currentProcess) : Turns c' M := by
  obtain ⟨L, N, hL, hrot, hhead, rfl⟩ := h
  refine ⟨L, N, hL.congr hring hnode hs hcur, hrot, ?_, ?_⟩
  · rw [hhead]
    exact (congrArg ReadyRing.currentNode hring).symm
  · rw [show c'.processInfo = c.processInfo from congrArg ReadyRing.processInfo hring]

/-! ### Somebody leaves -/

theorem RingInv.relist (h : RingInv c L) (hN : Nodes c L') : RingInv c L' := by
  refine ⟨hN, fun q hq => h.procs q ?_, h.null⟩
  have hsame := (isInReadyList_eq hN q).symm.trans (isInReadyList_eq h.nodes q)
  rw [Option.some.injEq, decide_eq_decide] at hsame
  exact hsame.mp hq

theorem Turns.remove (h : Turns c M) (h0 : p = 0 → s = .terminated)
    (hrem : removeFromReadyList { c with state := update c.state p s } p = some c') :
    Turns c' (M.filter fun z => z ≠ p) := by
  obtain ⟨L, N, hL, hrot, hhead, rfl⟩ := h
  obtain ⟨L', hshift, -⟩ := hL.removeState h0 hrem
  have hmem : ∀ {z}, z ∈ N ↔ z ∈ L := hrot.mem_iff.symm
  rcases removeFromReadyList_nodes (hL.nodes.setState (update c.state p s)) p with
    ⟨hnot, hrun⟩ | ⟨A, node, B, r, rfl, hp, hrun, hN, hinfo, hstay, hmove⟩
  · obtain rfl := Option.some.inj (hrun.symm.trans hrem)
    have hout : p ∉ N.map c.processInfo := fun hm => hnot ((hrot.map c.processInfo).mem_iff.mpr hm)
    refine ⟨L, N, hshift.ring.relist (hL.nodes.setState _), hrot, hhead, ?_⟩
    rw [List.filter_eq_self]
    intro z hz
    have hne : z ≠ p := fun he => hout (he ▸ hz)
    simpa using hne
  · obtain rfl := Option.some.inj (hrun.symm.trans hrem)
    have hnd := hrot.nodup_iff.mp hL.nodes.nodup
    have hnodeN : node ∈ N := hmem.mpr (by simp)
    have hleft : (A ++ node :: B).filter (fun z => z ≠ node) = A ++ B := by
      rw [← erase_of_nodup hL.nodes.nodup, hL.nodes.nodup.erase_eq_filter]
      exact List.filter_congr fun z _ => by simp [bne, BEq.beq]
    have hrot' : (A ++ B).IsRotated (N.filter fun z => z ≠ node) := hleft ▸ isRotated_filter hrot _
    refine ⟨A ++ B, N.filter fun z => z ≠ node, hshift.ring.relist hN, hrot', ?_, ?_⟩
    · show (N.filter fun z => z ≠ node).head?.getD 0 = r.currentNode
      have hring := hL.nodes.rotated hrot
      cases N with
      | nil => cases hnodeN
      | cons n N =>
        have hn : n = c.currentNode := by simpa using hhead
        rcases eq_or_ne n node with rfl | hne
        · -- the cursor moves on
          rw [filter_ne_head hnd] at hrot' ⊢
          cases N with
          | nil =>
            have hempty : A ++ B = [] := List.isRotated_nil_iff.mp hrot'
            exact (hN.noCursor hempty).symm
          | cons m N =>
            have hnext : c.next n = m := (List.isChain_cons_cons.mp hring.1).1
            have hsome : A ++ B ≠ [] := List.ne_nil_of_mem (hrot'.mem_iff.mpr (List.mem_cons_self ..))
            rw [hmove hn.symm hsome]
            exact hnext.symm
        · rw [List.filter_cons_of_pos (by simpa using hne), hstay (hn ▸ hne)]
          exact hn
    · rw [show _ = c.processInfo from hinfo, List.filter_map]
      congr 1
      apply List.filter_congr
      intro z hz
      have hinj : c.processInfo z = p → z = node := fun hzp =>
        List.inj_on_of_nodup_map hL.nodes.procs (hmem.mp hz) (hmem.mp hnodeN) (hzp.trans hp.symm)
      have hiff : c.processInfo z = p ↔ z = node := ⟨hinj, fun he => he ▸ hp⟩
      simp [hiff]

theorem Turns.drop (h : Turns c M) (hrem : removeFromReadyList c p = some c') :
    Turns c' (M.filter fun z => z ≠ p) := by
  have hnull : p = 0 → c.state p = .terminated := by
    rintro rfl
    exact h.null
  apply h.remove hnull
  rwa [Function.update_eq_self]

theorem Turns.mark (h : Turns c M) (h0 : p ≠ 0) (hp : p ∉ M) (s : Status) :
    Turns { c with state := update c.state p s } M := by
  obtain ⟨L, N, hL, hrot, hhead, rfl⟩ := h
  have hout : p ∉ ringProcs c L := fun hm => hp ((hrot.map c.processInfo).mem_iff.mp hm)
  exact ⟨L, N, (hL.mark h0 hout s).ring, hrot, hhead, rfl⟩

theorem Turns.notMem (h : Turns c M) (hr : c.state p ≠ .running) (hs : c.state p ≠ .ready) : p ∉ M := by
  obtain ⟨L, N, hL, hrot, -, rfl⟩ := h
  intro hp
  rcases (hL.procs p ((hrot.map c.processInfo).mem_iff.mpr hp)).2 with hp | hp
  · exact hs hp
  · exact hr hp.2

theorem Turns.blocked (h : Turns c M) (hr : c.state p ≠ .running) (hs : c.state p ≠ .ready) :
    (M.filter fun z => z ≠ p) = M := by
  rw [List.filter_eq_self]
  intro z hz
  have hne : z ≠ p := by
    rintro rfl
    exact h.notMem hr hs hz
  simpa using hne

theorem Turns.zero (h : Turns c M) : (M.filter fun z => z ≠ 0) = M := by
  exact h.blocked (by simp [h.null]) (by simp [h.null])

/-! ### Blocking and ending -/

/-- A blocked process of the table has become ready. -/
def Unblocks (c c' : Core) : Prop :=
  ∃ i < maxProcesses, c.state (c.processesList i) = .blocked ∧ c'.state (c.processesList i) = .ready

instance (c c' : Core) : Decidable (Unblocks c c') := by
  unfold Unblocks
  infer_instance

theorem blockProcess_turns (h : Turns c M) (hrun : blockProcess c pid = some (r, c')) :
    Turns c' (M.filter fun z => z ≠ getProcessByPid c pid) := by
  rcases blockProcess_cases hrun with ⟨rfl, hnone | hidle⟩ | ⟨i, hf, hrem⟩
  · rwa [getProcessByPid_none hnone, h.zero]
  · rwa [h.blocked hidle.1 hidle.2]
  · rw [getProcessByPid_some hf]
    exact h.remove (fun he => absurd he (foundprocess_some hf).2.1.1) hrem

/-- A process that enters takes nobody's place. -/
theorem Turns.enter (h : Turns c M) (h0 : p ≠ 0) (hp : p ∉ M) (hs : c.state p = .ready)
    (hadd : addToReadyList c p = some c') : ∃ M', Turns c' M' ∧ (M'.filter fun z => z ≠ p) = M := by
  obtain ⟨L, N, hL, hrot, hhead, rfl⟩ := h
  have hout : p ∉ ringProcs c L := fun hm => hp ((hrot.map c.processInfo).mem_iff.mp hm)
  obtain ⟨hedit, ⟨hin, -⟩ | ⟨-, node, hnode, hN, hinfo, hcur⟩⟩ := addToReadyList_spec hL.nodes hadd
  · exact absurd hin hout
  · obtain ⟨A, B, rfl, hempty, hrot'⟩ := isRotated_insert hrot node
    have hsame : ∀ n ∈ A ++ B, c'.processInfo n = c.processInfo n := by
      intro n hn
      rw [hinfo, Function.update_of_ne]
      rintro rfl
      exact hnode (hrot.mem_iff.mpr hn)
    have hself : c'.processInfo node = p := by rw [hinfo, Function.update_self]
    have hprocs : (A ++ node :: B).map c'.processInfo = A.map c.processInfo ++ p :: B.map c.processInfo := by
      rw [List.map_append, List.map_cons, hself, List.map_congr_left fun n hn => hsame n (by simp [hn]),
        List.map_congr_left fun n hn => hsame n (by simp [hn])]
    have hring : RingInv c' (L ++ [node]) := by
      refine hL.enter h0 (by rwa [← hs, Function.update_eq_self]) hN fun q => ?_
      have hleft : q ∈ ringProcs c L ↔ q ∈ (A ++ B).map c.processInfo := (hrot.map c.processInfo).mem_iff
      have hright : q ∈ ringProcs c' (L ++ [node]) ↔ q ∈ (A ++ node :: B).map c'.processInfo :=
        (hrot'.map c'.processInfo).mem_iff
      rw [hleft, hright, hprocs, List.map_append]
      simp only [List.mem_append, List.mem_cons]
      exact (or_congr_right or_comm).trans or_assoc.symm
    refine ⟨_, ⟨L ++ [node], A ++ node :: B, hring, hrot', ?_, rfl⟩, ?_⟩
    · cases A with
      | nil =>
        -- the ring was empty, and the cursor is set to the only node
        obtain rfl : B = [] := hempty rfl
        have hL' : L = [] := List.isRotated_nil_iff.mp hrot
        have hone := hN.cursor (by simp)
        rw [hL'] at hone
        exact (List.mem_singleton.mp hone).symm
      | cons n A =>
        have hne : L ≠ [] := by
          rintro rfl
          cases List.isRotated_nil_iff'.mp hrot
        rw [hcur hne]
        exact hhead
    · rw [hprocs, filter_ne_insert, List.map_append]
      rwa [← List.map_append]

theorem unblockProcess_turns (h : Turns c M) (hrun : unblockProcess c pid = some (r, c')) :
    c' = c ∨ ∃ i, foundprocess c pid = some i ∧ c.state (c.processesList i) = .blocked ∧
      c'.state (c.processesList i) = .ready ∧
      ∃ M', Turns c' M' ∧ (M'.filter fun z => z ≠ c.processesList i) = M := by
  rcases unblockProcess_cases hrun with rfl | ⟨i, hf, hb, hedit⟩
  · exact Or.inl rfl
  · refine Or.inr ⟨i, hf, hb, ?_, ?_⟩
    · rw [hedit.records]
      exact Function.update_self ..
    · have h0 : c.processesList i ≠ 0 := (foundprocess_some hf).2.1.1
      have hout : c.processesList i ∉ M := h.notMem (by simp [hb]) (by simp [hb])
      have hready := h.mark h0 hout .ready
      have h1 : pid ≠ 1 := by
        rintro rfl
        obtain ⟨-, rfl⟩ : -1 = r ∧ c = c' := by simpa [unblockProcess] using hrun
        have hsame := congrFun (congrArg Records.state hedit.records) (c.processesList i)
        simp [hb] at hsame
      unfold unblockProcess at hrun
      simp only [h1, if_false, hf] at hrun
      rw [if_neg (not_not.mpr hb)] at hrun
      obtain ⟨found, hfound, hrun⟩ := Option.bind_eq_some_iff.mp hrun
      cases found with
      | true => exact absurd (hready.mem_iff.mpr hfound) hout
      | false =>
        obtain ⟨c₁, hadd, hret⟩ := Option.bind_eq_some_iff.mp hrun
        obtain ⟨-, rfl⟩ : 1 = r ∧ c₁ = c' := by simpa using hret
        exact hready.enter h0 hout (Function.update_self ..) hadd

/-- The end of a process leaves the ring as it is, or its parent enters it. -/
theorem leaveParent_turns (h : Turns c M) (hrun : leaveParent c p = some c') :
    Turns c' M ∨ ∃ i < maxProcesses, c.state (c.processesList i) = .blocked ∧
      c'.state (c.processesList i) = .ready ∧
      ∃ M', Turns c' M' ∧ (M'.filter fun z => z ≠ c.processesList i) = M := by
  rcases leaveParent_cases hrun with ⟨rfl, -⟩ | ⟨-, i, c₂, -, hwake, rfl⟩
  · exact Or.inl h
  · obtain ⟨children, lengths, hrem⟩ := removeChild_eq c (c.processesList i) (c.pid p)
    rw [hrem] at hwake
    have h₁ : Turns { c with children := children, childrenLength := lengths } M := h.congr rfl rfl rfl rfl
    rcases wakeParent_cases hwake with ⟨rfl, -⟩ | ⟨-, -, v, hun⟩
    · exact Or.inl (h₁.congr rfl rfl rfl rfl)
    · rcases unblockProcess_turns h₁ hun with rfl | ⟨j, hj, hblocked, hready, M', hM', hleft⟩
      · exact Or.inl (h₁.congr rfl rfl rfl rfl)
      · exact Or.inr ⟨j, (foundprocess_some hj).1, hblocked, hready, M', hM'.congr rfl rfl rfl rfl, hleft⟩

theorem removeFromProcessesList_turns (h : Turns c M) (hfound : getProcessByPid c (c.pid p) ≠ 0)
    (hrun : removeFromProcessesList c p = some (r, c')) :
    Turns c' (M.filter fun z => z ≠ p) ∨ Unblocks c c' := by
  rcases removeFromProcessesList_cases hrun with ⟨hnone, -⟩ | ⟨i, c₁, c₂, -, hleave, hrem, rfl⟩
  · exact absurd (getProcessByPid_none hnone) hfound
  · obtain ⟨live, hfree, hlive⟩ := freeHoldings_holdings c₂ p
    rw [hfree]
    -- a blocked process that is its own parent is woken and ended at once
    have hwoken : (∃ M₁, Turns c₁ M₁ ∧ (M₁.filter fun z => z ≠ p) = M.filter fun z => z ≠ p) ∨
        ∃ j < maxProcesses, c.processesList j ≠ p ∧ c.state (c.processesList j) = .blocked ∧
          c₁.state (c.processesList j) = .ready := by
      rcases leaveParent_turns h hleave with hT | ⟨j, hj, hblocked, hready, M₁, hT, hleft⟩
      · exact Or.inl ⟨M, hT, rfl⟩
      · rcases eq_or_ne (c.processesList j) p with rfl | hne
        · exact Or.inl ⟨M₁, hT, by rw [hleft, h.blocked (by simp [hblocked]) (by simp [hblocked])]⟩
        · exact Or.inr ⟨j, hj, hne, hblocked, hready⟩
    rcases hwoken with ⟨M₁, hT, hleft⟩ | ⟨j, hj, hne, hblocked, hready⟩
    · have hnode : update live .record ((live .record).erase p) .node = c₂.live .node :=
        (Function.update_of_ne (by simp) ..).trans (hlive .node rfl)
      rw [← hleft]
      exact Or.inl ((hT.remove (fun _ => rfl) hrem).congr rfl hnode rfl rfl)
    · refine Or.inr ⟨j, hj, hblocked, ?_⟩
      have hstate : c₂.state = update c₁.state p .terminated :=
        congrArg Records.state (removeFromReadyList_edit hrem).records
      show c₂.state (c.processesList j) = .ready
      rw [hstate, Function.update_of_ne hne]
      exact hready

theorem killProcess_turns (h : Turns c M) {again : Bool} (hrun : killProcess c pid = some (r, c', again)) :
    Turns c' (M.filter fun z => z ≠ if pid < 3 then 0 else getProcessByPid c pid) ∨ Unblocks c c' := by
  rcases killProcess_cases hrun with ⟨rfl, -, hno⟩ | ⟨-, hlow, i, c₁, v, hf, hrem, hremove⟩
  · have hnobody : (if pid < 3 then 0 else getProcessByPid c' pid) = 0 := by
      split
      · rfl
      · rename_i hlow
        exact getProcessByPid_none (hno.resolve_left hlow)
    rw [hnobody, h.zero]
    exact Or.inl h
  · rw [if_neg (not_lt.mpr hlow), getProcessByPid_some hf]
    obtain ⟨hi, hin, hpid⟩ := foundprocess_some hf
    set c₂ : Core := { c₁ with state := update c₁.state (c.processesList i) .terminated } with hc₂
    change removeFromProcessesList c₂ (c.processesList i) = _ at hremove
    have hedit : RingEdit (freePid c pid) c₁ := removeFromReadyList_edit hrem
    have hlist : c₁.processesList = c.processesList := hedit.processesList
    have hpids : c₁.pid = c.pid := congrArg Records.pid hedit.records
    have hstate : c₁.state = c.state := congrArg Records.state hedit.records
    have hfree : Turns (freePid c pid) M := h.congr rfl rfl rfl rfl
    have hT := (hfree.drop hrem).mark hin.1 (fun hm => by simpa using (List.mem_filter.mp hm).2) .terminated
    have hlook : getProcessByPid c₂ pid = getProcessByPid c pid := getProcessByPid_congr hlist hpids
    have hfound : getProcessByPid c₂ (c₂.pid (c.processesList i)) ≠ 0 := by
      rw [show c₂.pid = c.pid from hpids, hpid, hlook, getProcessByPid_some hf]
      exact hin.1
    rcases removeFromProcessesList_turns hT hfound hremove with hT' | ⟨j, hj, hblocked, hready⟩
    · refine Or.inl ?_
      rw [List.filter_filter] at hT'
      simpa using hT'
    · refine Or.inr ⟨j, hj, ?_, ?_⟩
      · simp only [hlist, hstate, Function.update_apply] at hblocked
        split at hblocked
        · cases hblocked
        · exact hblocked
      · rw [← hlist]
        exact hready

/-! ### A turn -/

theorem Turns.scheduler (h : Turns c M) (hrun : scheduler c sp = some (sp', c')) :
    (¬Dispatches c ∧ Turns c' M) ∨
      Dispatches c ∧ ∃ x T, M = x :: T ∧ Turns c' (T ++ [x]) ∧
        c'.currentProcess = c.processInfo (c.next c.currentNode) := by
  obtain ⟨L, N, hL, hrot, hhead, rfl⟩ := h
  by_cases hempty : c.readyList = 0
  · rw [Process.scheduler, if_pos hempty] at hrun
    obtain ⟨-, rfl⟩ : sp = sp' ∧ c = c' := by simpa using hrun
    exact Or.inl ⟨fun hd => hd.1 hempty, L, N, hL, hrot, hhead, rfl⟩
  · obtain ⟨c₁, hrun₁, hring, hinfo, -, -, -, -, -, hcursor⟩ := hL.scheduler hempty sp
    obtain ⟨-, rfl⟩ : _ = sp' ∧ c₁ = c' := by simpa using hrun₁.symm.trans hrun
    rcases hcursor with ⟨hd, hcur, hproc, -⟩ | ⟨hd, hcur, -⟩
    · refine Or.inr ⟨hd, ?_⟩
      have hnext := hL.nodes.rotated hrot
      cases N with
      | nil =>
        have hnil : L = [] := List.isRotated_nil_iff.mp hrot
        exact absurd (hL.nodes.readyList_eq_zero.mpr hnil) hempty
      | cons n N =>
        obtain rfl : n = c.currentNode := by simpa using hhead
        refine ⟨_, _, rfl, ⟨L, N ++ [c.currentNode], hring, hrot.trans (List.isRotated_concat _ _).symm, ?_, ?_⟩, ?_⟩
        · rw [hcur]
          cases N with
          | nil => exact (hnext.2 _ rfl _ rfl).symm
          | cons m N => exact (List.isChain_cons_cons.mp hnext.1).1.symm
        · rw [hinfo, List.map_append, List.map_singleton]
        · rw [← hproc, hinfo, hcur]
    · refine Or.inl ⟨hd, L, N, hring, hrot, ?_, ?_⟩
      · rw [hcur]
        exact hhead
      · rw [hinfo]

end BareKernel.Process
