import BareKernel.Kernel.TableStep
import BareKernel.Process.TableInv

/-! The pid bitmap in any run. -/

namespace BareKernel

open Function (update)
open Process Links Machine

variable {c c' : Core} {m m' : Machine} {a : Action} {call : Call} {p q i : ℕ} {pid : ℤ}

/-! ### The table in every run -/

theorem TableStep.tableInv (h : TableInv c) (hst : TableStep c call c') : TableInv c' := by
  cases call with
  | createProcess args =>
    rcases hst with ⟨hs, -⟩ | ⟨p, hp, hfresh, hs⟩
    · exact h.congr hs
    · exact (h.enroll hp.2.1 hfresh args.isForeground).congr hs
  | killProcess pid =>
    rcases hst with ⟨hs, -⟩ | ⟨hlow, i, hf, hs⟩
    · exact h.congr hs
    · obtain ⟨-, -, hpid⟩ := foundprocess_some hf
      obtain ⟨children, lengths, flags, hfam⟩ := leaveFamily_eq (freePid c pid) (c.processesList i)
      rw [hfam] at hs
      refine TableInv.congr ?_ hs
      refine h.clearSlot (p := c.processesList i) (by rw [hpid]; exact hf) (fun j hj => ?_)
        (fun h1 h2 => ?_) rfl rfl (clearSlot_records _ _ _)
      · rw [hpid] at hj
        show (freePid c pid).pids j = c.pids j
        unfold freePid
        dsimp only
        split
        · exact Function.update_of_ne hj ..
        · rfl
      · rw [hpid] at h1 h2 ⊢
        show (freePid c pid).pids (pid - 1) = false
        unfold freePid
        dsimp only
        rw [if_pos ⟨h1, h2⟩, Function.update_self]
  | exitProcess =>
    obtain ⟨c₁, hs, ⟨hnone, rfl⟩ | ⟨i, hf, rfl⟩⟩ := hst
    · exact (h.unmark hnone).congr hs
    · obtain ⟨children, lengths, flags, hfam⟩ := leaveFamily_eq c c.currentProcess
      rw [hfam] at hs
      refine TableInv.congr ?_ hs
      refine h.clearSlot hf (fun j hj => ?_) (fun _ _ => ?_) rfl rfl (clearSlot_records _ i _)
      · exact Function.update_of_ne hj ..
      · exact Function.update_self ..
  | _ => exact h.congr hst

theorem Process.TableInv.supply (h : TableInv m.toCore) : TableInv (m.supplied a) :=
  h.congr ⟨rfl, rfl, rfl, rfl, rfl, rfl, rfl, rfl⟩

/-- The slot of `q` is cleared and `p` leaves its family; `q` is `p` unless `p` has left
the table before and its pid has a new owner. -/
structure Ended (c c' : Core) (p q : ℕ) : Prop where
  owner : InTable c q
  same : c.pid q = c.pid p
  inTable : ∀ x, InTable c' x ↔ InTable c x ∧ x ≠ q
  pid : c'.pid = c.pid
  parentPid : c'.parentPid = c.parentPid
  isForeground : c'.isForeground = (leaveFamily c p).isForeground
  children : c'.children = (leaveFamily c p).children
  childrenLength : c'.childrenLength = (leaveFamily c p).childrenLength

theorem Ended.clear {bits : ℤ → Bool} (h : TableInv c) (hf : foundprocess c (c.pid p) = some i)
    (hs : SameTable { clearSlot (leaveFamily c p) i p with pids := bits } c') : Ended c c' p (c.processesList i) := by
  obtain ⟨hi, hin, hpid⟩ := foundprocess_some hf
  have hslots : c'.processesList = update c.processesList i 0 :=
    hs.processesList.trans (congrArg (fun list => update list i 0) (leaveFamily_processesList ..))
  obtain ⟨children, lengths, flags, hfam⟩ := leaveFamily_eq c p
  refine ⟨hin, hpid, fun x => inTable_clear h.slots hi rfl hslots, hs.pid.trans ?_, hs.parentPid.trans ?_,
    hs.isForeground, hs.children, hs.childrenLength⟩
  · rw [hfam]
    rfl
  · rw [hfam]
    rfl

theorem leaveFamily_freePid (c : Core) (pid : ℤ) (p : ℕ) :
    leaveFamily (freePid c pid) p = freePid (leaveFamily c p) pid := by
  have hheir : heir (freePid c pid) p = heir c p := rfl
  unfold leaveFamily
  rw [hheir]
  split
  · rfl
  · unfold removeChild freePid
    dsimp only
    cases (List.range (c.childrenLength (heir c p))).find? fun j => c.children (heir c p) j = c.pid p with
    | none => rfl
    | some j => rfl

/-- A kill that finds its process ends it. -/
theorem TableStep.kill_cases (h : TableInv c) (hst : TableStep c (.killProcess pid) c') :
    (SameTable c c' ∧ (pid < 3 ∨ foundprocess c pid = none)) ∨
      3 ≤ pid ∧ ∃ i, foundprocess c pid = some i ∧ Ended c c' (c.processesList i) (c.processesList i) := by
  rcases hst with hquiet | ⟨hlow, i, hf, hs⟩
  · exact Or.inl hquiet
  · obtain ⟨-, -, hpid⟩ := foundprocess_some hf
    rw [leaveFamily_freePid] at hs
    exact Or.inr ⟨hlow, i, hf, .clear h (by rwa [hpid]) hs⟩

/-- An exit ends the process found under the pid of the current one. -/
theorem TableStep.exit_cases (h : TableInv c) (hst : TableStep c .exitProcess c') :
    (foundprocess c (c.pid c.currentProcess) = none ∧
        SameTable { c with pids := update c.pids (c.pid c.currentProcess - 1) false } c') ∨
      ∃ i, foundprocess c (c.pid c.currentProcess) = some i ∧ Ended c c' c.currentProcess (c.processesList i) := by
  obtain ⟨c₁, hs, ⟨hnone, rfl⟩ | ⟨i, hf, rfl⟩⟩ := hst
  · exact Or.inl ⟨hnone, hs⟩
  · exact Or.inr ⟨i, hf, .clear h hf hs⟩

/-- A process of the table keeps its pid. -/
theorem TableStep.pid_eq (h : TableInv c) (hst : TableStep c call c') (hq : InTable c q) : c'.pid q = c.pid q := by
  cases call with
  | createProcess args =>
    rcases hst with ⟨hs, -⟩ | ⟨p, -, hfresh, hs⟩
    · rw [hs.pid]
    · have hqp : q ≠ p := by
        rintro rfl
        exact hfresh (h.records q hq)
      rw [hs.pid, enroll_pid_of_ne hqp]
      rfl
  | killProcess pid =>
    rcases hst.kill_cases h with ⟨hs, -⟩ | ⟨-, i, -, hend⟩
    · rw [hs.pid]
    · rw [hend.pid]
  | exitProcess =>
    rcases hst.exit_cases h with ⟨-, hs⟩ | ⟨i, -, hend⟩
    · rw [hs.pid]
    · rw [hend.pid]
  | _ => exact congrFun (SameTable.pid hst) q

namespace Machine

theorem boot_table (h : Boot m) : TableInv m.toCore := by
  have hnone (p : ℕ) : ¬InTable m.toCore p := by
    rintro ⟨h0, i, -, hi⟩
    exact h0 (hi.symm.trans (h.processesList i))
  refine ⟨fun i _ j _ _ h0 => absurd (h.processesList i) h0, fun p hp => absurd hp (hnone p),
    ⟨fun p q hp => absurd hp (hnone p), fun p hp => absurd hp (hnone p), fun p hp => absurd hp (hnone p),
      fun i _ hset => ?_⟩, fun p q hp => absurd hp (hnone p)⟩
  rw [h.pids] at hset
  cases hset

theorem step_tableInv (h : TableInv m.toCore) (hrun : m.step a = some m') : TableInv m'.toCore :=
  TableStep.tableInv h.supply (step_table hrun)

theorem step_pid_eq (h : TableInv m.toCore) (hrun : m.step a = some m') (hq : InTable m.toCore q) :
    m'.pid q = m.pid q := by
  have hpid := (step_table hrun).pid_eq h.supply hq
  exact hpid

theorem boot_reach_table {ok : Machine → Action → Prop} (h : boot.Reach ok m) : TableInv m.toCore :=
  h.invariant (fun _ hm => boot_table hm) fun _ _ _ hm _ hrun => step_tableInv hm hrun

end Machine

/-! ### The bitmap -/

/-- The bitmap marks exactly the pids of the table, which are distinct and in range. -/
structure BitmapAgrees (c : Core) : Prop where
  bits : ∀ i : ℕ, i < maxProcesses → (c.pids i = true ↔ ∃ p, InTable c p ∧ c.pid p = i + 1)
  distinct : ∀ i < maxProcesses, ∀ j < maxProcesses, c.processesList i ≠ 0 → c.processesList j ≠ 0 →
    c.pid (c.processesList i) = c.pid (c.processesList j) → i = j
  range : ∀ p, InTable c p → 1 ≤ c.pid p ∧ c.pid p ≤ maxProcesses

/-- The call does not kill a process with the last pid. -/
def Call.SparesLast (c : Core) : Call → Prop
  | .killProcess pid => pid ≠ maxProcesses ∨ foundprocess c pid = none
  | _ => True

instance (c : Core) (call : Call) : Decidable (call.SparesLast c) := by
  apply Call.casesOn (motive := fun call => Decidable (call.SparesLast c)) call <;>
    intros <;> dsimp only [Call.SparesLast] <;> infer_instance

/-- Besides the table in any run: the last pid is marked only while a process has it,
and no process has pid `0`. -/
structure LastOwned (c : Core) : Prop where
  table : TableInv c
  last : c.pids (maxProcesses - 1 : ℕ) = true → ∃ p, InTable c p ∧ c.pid p = maxProcesses
  pos : ∀ p, InTable c p → c.pid p ≠ 0

theorem LastOwned.agrees (h : LastOwned c) : BitmapAgrees c := by
  refine ⟨fun i hi => ⟨fun hset => ?_, ?_⟩, fun i hi j hj hi0 hj0 hpid => ?_, fun p hp => ?_⟩
  · by_cases hlast : i + 1 = maxProcesses
    · rw [show i = maxProcesses - 1 by omega] at hset
      obtain ⟨p, hp, hpp⟩ := h.last hset
      exact ⟨p, hp, by omega⟩
    · exact h.table.pids.owned i (by omega) hset
  · rintro ⟨p, hp, hpi⟩
    exact h.table.pids.bit hp hpi
  · have hsame := h.table.pids.inj _ _ (inTable_slot hi hi0) (inTable_slot hj hj0) hpid
    exact h.table.slots i hi j hj hsame hi0
  · have hr := h.table.pids.range p hp
    have h0 := h.pos p hp
    omega

theorem LastOwned.congr (h : LastOwned c) (hs : SameTable c c') : LastOwned c' := by
  refine ⟨h.table.congr hs, fun hset => ?_, fun p hp => ?_⟩
  · rw [hs.pids] at hset
    obtain ⟨p, hp, hpp⟩ := h.last hset
    exact ⟨p, hs.inTable.mpr hp, by rw [hs.pid, hpp]⟩
  · rw [hs.pid]
    exact h.pos p (hs.inTable.mp hp)

/-- All pids from `1` on are taken when the whole bitmap is marked. -/
theorem LastOwned.all_taken (h : LastOwned c) (hall : ∀ i : ℕ, i < maxProcesses → c.pids i = true) :
    ∀ v : ℤ, 1 ≤ v → v < 1 + maxProcesses → ∃ p, InTable c p ∧ c.pid p = v := by
  intro v hv hv'
  obtain ⟨p, hp, hpp⟩ := (h.agrees.bits (v - 1).toNat (by omega)).mp (hall _ (by omega))
  exact ⟨p, hp, by omega⟩

theorem LastOwned.create (h : LastOwned c) (hp0 : p ≠ 0) (hfresh : p ∉ c.live .record) (v : ℤ) :
    LastOwned (enroll (addRecord c p) p v) := by
  have htable := h.table.enroll hp0 hfresh v
  have hnew : ¬InTable c p := fun hp => hfresh (h.table.records p hp)
  obtain ⟨hpid, hpids, -⟩ := enroll_pids (addRecord c p) p v
  have hother (q : ℕ) (hq : InTable c q) : (enroll (addRecord c p) p v).pid q = c.pid q :=
    enroll_pid_of_ne fun he => hnew (he ▸ hq)
  rcases enroll_slots (addRecord c p) p v with ⟨i, hi, hfree, hslot⟩ | ⟨hfull, hslot⟩
  · have hin (q : ℕ) : InTable (enroll (addRecord c p) p v) q ↔ InTable c q ∨ q = p := inTable_set hi hfree hp0 hslot
    rcases assignPid_cases (addRecord c p) p with ⟨hall, -⟩ | ⟨j, hj, -, -, hassign⟩
    · -- with a slot free, some pid is free
      exact absurd hfree (full_of_attained (h.all_taken hall) i hi)
    · rw [hassign] at hpid hpids
      have hself : (enroll (addRecord c p) p v).pid p = j + 1 := by
        rw [hpid]
        exact Function.update_self ..
      refine ⟨htable, fun hset => ?_, fun q hq => ?_⟩
      · by_cases hlast : j + 1 = maxProcesses
        · exact ⟨p, (hin p).mpr (Or.inr rfl), by rw [hself]; omega⟩
        · have hset' : update c.pids j true (maxProcesses - 1 : ℕ) = true := by
            rw [hpids] at hset
            exact hset
          rw [Function.update_of_ne (by omega)] at hset'
          obtain ⟨q, hq, hqq⟩ := h.last hset'
          exact ⟨q, (hin q).mpr (Or.inl hq), by rw [hother q hq, hqq]⟩
      · rcases (hin q).mp hq with hq | rfl
        · rw [hother q hq]
          exact h.pos q hq
        · omega
  · have hin (q : ℕ) : InTable (enroll (addRecord c p) p v) q ↔ InTable c q := inTable_congr hslot
    rcases assignPid_cases (addRecord c p) p with ⟨-, hassign⟩ | ⟨j, hj, hclear, -, -⟩
    · rw [hassign] at hpids
      refine ⟨htable, fun hset => ?_, fun q hq => ?_⟩
      · rw [hpids] at hset
        obtain ⟨q, hq, hqq⟩ := h.last hset
        exact ⟨q, (hin q).mpr hq, by rw [hother q hq, hqq]⟩
      · rw [hin] at hq
        rw [hother q hq]
        exact h.pos q hq
    · -- a full table has every pid
      obtain ⟨q, hq, hqj⟩ : ∃ q, InTable c q ∧ c.pid q = j + 1 :=
        h.table.attained hfull 1 (fun q hq => by have := h.agrees.range q hq; omega) (by omega) (by omega)
      have hset : c.pids j = true := h.table.pids.bit hq hqj
      rw [show c.pids j = false from hclear] at hset
      cases hset

/-- A process leaves the table, and the mark of its pid goes with it. -/
theorem LastOwned.clear (h : LastOwned c) (htable : TableInv c') (hf : foundprocess c pid = some i)
    (hpids : ∀ j, j ≠ pid - 1 → c'.pids j = c.pids j) (hclear : c'.pids (pid - 1) = false) (hpid : c'.pid = c.pid)
    (ht : c'.processesList = update c.processesList i 0) : LastOwned c' := by
  obtain ⟨hi, hin, hpi⟩ := foundprocess_some hf
  have hmem (q : ℕ) : InTable c' q ↔ InTable c q ∧ q ≠ c.processesList i := inTable_clear h.table.slots hi rfl ht
  refine ⟨htable, fun hset => ?_, fun q hq => ?_⟩
  · have hne : ((maxProcesses - 1 : ℕ) : ℤ) ≠ pid - 1 := by
      intro he
      rw [he, hclear] at hset
      cases hset
    rw [hpids _ hne] at hset
    obtain ⟨q, hq, hqq⟩ := h.last hset
    refine ⟨q, (hmem q).mpr ⟨hq, ?_⟩, by rw [hpid, hqq]⟩
    rintro rfl
    omega
  · rw [hpid]
    exact h.pos q ((hmem q).mp hq).1

theorem LastOwned.step (h : LastOwned c) (hok : call.SparesLast c) (hst : TableStep c call c') : LastOwned c' := by
  have htable := hst.tableInv h.table
  cases call with
  | createProcess args =>
    rcases hst with ⟨hs, -⟩ | ⟨p, hp, hfresh, hs⟩
    · exact h.congr hs
    · exact (h.create hp.2.1 hfresh args.isForeground).congr hs
  | killProcess pid =>
    rcases hst with ⟨hs, -⟩ | ⟨hlow, i, hf, hs⟩
    · exact h.congr hs
    · obtain ⟨-, hin, hpid⟩ := foundprocess_some hf
      have hlast : pid ≠ maxProcesses := hok.resolve_right (by rw [hf]; simp)
      have hr := h.table.pids.range _ hin
      have hfreed : (freePid c pid).pids = update c.pids (pid - 1) false := if_pos (by omega)
      obtain ⟨children, lengths, flags, hfam⟩ := leaveFamily_eq (freePid c pid) (c.processesList i)
      rw [hfam] at hs
      refine h.clear htable hf (fun j hj => ?_) ?_ hs.pid hs.processesList
      · rw [hs.pids]
        show (freePid c pid).pids j = c.pids j
        rw [hfreed, Function.update_of_ne hj]
      · rw [hs.pids]
        show (freePid c pid).pids (pid - 1) = false
        rw [hfreed, Function.update_self]
  | exitProcess =>
    obtain ⟨c₁, hs, ⟨hnone, rfl⟩ | ⟨i, hf, rfl⟩⟩ := hst
    · refine LastOwned.congr ⟨h.table.unmark hnone, fun hset => ?_, h.pos⟩ hs
      have hset' : update c₁.pids (c₁.pid c₁.currentProcess - 1) false (maxProcesses - 1 : ℕ) = true := hset
      rw [Function.update_apply] at hset'
      split at hset'
      · cases hset'
      · exact h.last hset'
    · obtain ⟨children, lengths, flags, hfam⟩ := leaveFamily_eq c c.currentProcess
      rw [hfam] at hs
      refine h.clear htable hf (fun j hj => ?_) ?_ hs.pid hs.processesList
      · rw [hs.pids]
        exact Function.update_of_ne hj ..
      · rw [hs.pids]
        exact Function.update_self ..
  | _ => exact h.congr hst

/-- As long as no call kills the process with the last pid, the bitmap agrees with
the table. -/
theorem pid_bitmap_agrees (h : boot.Reach (fun m a => a.call.SparesLast m.toCore) m) : BitmapAgrees m.toCore := by
  have hlast : LastOwned m.toCore := by
    refine h.invariant (I := fun m => LastOwned m.toCore) (fun m hm => ?_) fun m a m' hm hok hrun => ?_
    · have hnone (p : ℕ) : ¬InTable m.toCore p := by
        rintro ⟨h0, i, -, hi⟩
        exact h0 (hi.symm.trans (hm.processesList i))
      refine ⟨boot_table hm, fun hset => ?_, fun p hp => absurd hp (hnone p)⟩
      rw [hm.pids] at hset
      cases hset
    · have hsupply : LastOwned (m.supplied a) :=
        hm.congr ⟨rfl, rfl, rfl, rfl, rfl, rfl, rfl, rfl⟩
      exact hsupply.step hok (step_table hrun)
  exact hlast.agrees

/-- Two processes are created, and the second one is killed by the first. -/
theorem pid_bitmap_agrees_reuse : BitmapAgrees (ran (fun m a => a.call.SparesLast m.toCore) initial
    [create 100, plain .tick, create 200, create 300, plain (.killProcess 3), create 400]).toCore :=
  pid_bitmap_agrees (boot_ran (by decide +kernel))

/-- The first process creates nineteen others and kills the last of them. -/
def killLast : List Action :=
  let others := (List.range 19).map fun i : ℕ => [create (200 + 10 * i), plain (.blockProcess (i + 2))]
  create 100 :: plain .tick :: (others.flatten ++ [plain (.killProcess 20)])

theorem pid_bitmap_agrees_killLast : ¬∀ m, boot.Reach (fun _ _ => True) m → BitmapAgrees m.toCore := by
  intro hall
  have hreach : boot.Reach (fun _ _ => True) (ran (fun _ _ => True) initial killLast) :=
    boot_ran (by decide +kernel)
  obtain ⟨p, ⟨-, i, hi, rfl⟩, hp⟩ := ((hall _ hreach).bits 19 (by decide)).mp (by decide +kernel)
  have hnone : ∀ i < maxProcesses, (ran (fun _ _ => True) initial killLast).pid
      ((ran (fun _ _ => True) initial killLast).processesList i) ≠ 20 := by decide +kernel
  exact hnone i hi hp

end BareKernel
