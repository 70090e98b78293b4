import BareKernel.Kernel.PidLaw
import BareKernel.Links.Prefix

/-! Parents and children. A record holds the pid of the parent and the pids of up to
nine children; a creation writes both sides and an end takes the child off one of
them. A pid can have a new owner while children of the old one are still there. -/

namespace BareKernel

open Function (update)
open Process Links Machine

variable {c c' : Core} {m m' : Machine} {a : Action} {call : Call} {p q r i : ℕ} {pid v x : ℤ}

/-- The pids of the processes of the table that have the pid of `p` as their parent's. -/
def childPids (c : Core) (p : ℕ) : Set ℤ := {x | ∃ q, InTable c q ∧ c.parentPid q = c.pid p ∧ c.pid q = x}

/-- The children that a process of the table lists are distinct, and are those of the
table that have it as their parent. -/
def Families (c : Core) : Prop :=
  ∀ p, InTable c p → Set.BijOn (c.children p) (Set.Iio (c.childrenLength p)) (childPids c p)

/-- The pid of the next new process, `0` when all are marked. -/
def nextPid (c : Core) : ℤ :=
  match (List.range maxProcesses).find? fun i : ℕ => c.pids i = false with
  | none => 0
  | some i => i + 1

/-- The pid that a new process gets as its parent's. -/
def creatorPid (c : Core) : ℤ := if c.currentProcess ≠ 0 then c.pid c.currentProcess else 0

/-- No orphan has the next pid as its parent's, and the new process `p` is listed by
the process that has its parent's pid, if one of the table has. -/
structure Joins (c : Core) (p : ℕ) : Prop where
  orphans : ∀ q, InTable c q → c.parentPid q ≠ nextPid c
  room : InTable c c.currentProcess → c.childrenLength c.currentProcess < maxChildren
  apart : ¬InTable c c.currentProcess → c.currentProcess ≠ p →
    creatorPid c ≠ nextPid c ∧ ∀ q, InTable c q → c.pid q ≠ creatorPid c

/-- When `p` ends and the slot of `q` is cleared, the process that lists `q` is the one
that `p` is taken from; `q` is `p` unless `p` has left the table before. -/
def Parts (c : Core) (p q : ℕ) : Prop :=
  ∀ r, InTable c r → r ≠ q → c.pid r = c.parentPid q → r = heir c p

/-- A new process joins the family of its creator if it gets a slot, and is not listed
if it gets none; a process that ends parts from its own. -/
def Call.KeepsFamilies (c : Core) : Call → Prop
  | .createProcess _ => ∀ p, NewRecord c p → if ∃ i < maxProcesses, c.processesList i = 0 then Joins c p
      else InTable c c.currentProcess → maxChildren ≤ c.childrenLength c.currentProcess
  | .killProcess pid => 3 ≤ pid → ∀ i, foundprocess c pid = some i →
      Parts c (c.processesList i) (c.processesList i)
  | .exitProcess => ∀ i, foundprocess c (c.pid c.currentProcess) = some i →
      Parts c c.currentProcess (c.processesList i)
  | _ => True

instance (c : Core) (p : ℕ) : Decidable (Joins c p) :=
  decidable_of_iff (_ ∧ _ ∧ _) ⟨fun ⟨h1, h2, h3⟩ => ⟨h1, h2, h3⟩, fun ⟨h1, h2, h3⟩ => ⟨h1, h2, h3⟩⟩

instance (c : Core) (p q : ℕ) : Decidable (Parts c p q) := by
  dsimp only [Parts]
  infer_instance

instance {P : ℕ → Prop} [DecidablePred P] (c : Core) : Decidable (∀ q, NewRecord c q → P q) :=
  decidable_of_iff (NewRecord c (mmMalloc (mmMalloc c .stack).2 .record).1 →
      P (mmMalloc (mmMalloc c .stack).2 .record).1)
    ⟨fun h _ hq => hq.2.2 ▸ h (hq.2.2 ▸ hq), fun h => h _⟩

instance (c : Core) (call : Call) : Decidable (call.KeepsFamilies c) := by
  apply Call.casesOn (motive := fun call => Decidable (call.KeepsFamilies c)) call <;>
    intros <;> dsimp only [Call.KeepsFamilies] <;> infer_instance

theorem childPids_congr (ht : c'.processesList = c.processesList) (hp : c'.parentPid = c.parentPid)
    (hpid : c'.pid = c.pid) : childPids c' p = childPids c p := by
  unfold childPids
  rw [hp, hpid]
  simp only [inTable_congr ht]

theorem Process.SameTable.families (h : SameTable c c') : Families c' ↔ Families c := by
  unfold Families
  simp only [h.inTable, childPids_congr h.processesList h.parentPid h.pid, h.children, h.childrenLength]

/-! ### A new process -/

theorem assignPid_pid (c : Core) (p : ℕ) : (assignPid c p).pid = update c.pid p (nextPid c) := by
  unfold assignPid nextPid
  cases (List.range maxProcesses).find? fun i : ℕ => c.pids i = false with
  | none => rfl
  | some i => rfl

theorem newContext_eq (c : Core) (p : ℕ) (v : ℤ) : ∃ flags, newContext c p v =
    { c with pid := update c.pid p (nextPid c), pids := (assignPid c p).pids, isForeground := flags
             children := update c.children p fun _ => 0, childrenLength := update c.childrenLength p 0 } := by
  unfold newContext
  rw [assignPid_eq, assignPid_pid]
  exact ⟨_, rfl⟩

/-- The pids, the parents and the rows of children with a new process; its creator
lists it if there is room. -/
theorem enroll_family (c : Core) (p : ℕ) (v : ℤ) :
    let u := c.currentProcess
    let rows := update c.children p fun _ => 0
    let lens := update c.childrenLength p 0
    (enroll c p v).pid = update c.pid p (nextPid c) ∧
      (enroll c p v).parentPid = update c.parentPid p (if u ≠ 0 then update c.pid p (nextPid c) u else 0) ∧
      (enroll c p v).children =
        (if u ≠ 0 ∧ lens u < maxChildren then update rows u (update (rows u) (lens u) (nextPid c)) else rows) ∧
      (enroll c p v).childrenLength =
        if u ≠ 0 ∧ lens u < maxChildren then update lens u (lens u + 1) else lens := by
  intro u rows lens
  obtain ⟨flags, hcontext⟩ := newContext_eq c p v
  obtain ⟨list, hlist⟩ := addToProcessList_eq (linkParent (newContext c p v) p) p
  rw [enroll, hlist, hcontext]
  unfold linkParent
  by_cases hu : u = 0
  · simp [hu, u, rows, lens]
  · by_cases hroom : lens u < maxChildren <;> simp [adoptChild, hu, hroom, u, rows, lens]

/-- Every process but the new one and its creator keeps its row. -/
theorem enroll_row_of_ne (hrp : r ≠ p) (hru : r ≠ c.currentProcess) :
    (enroll c p v).children r = c.children r ∧ (enroll c p v).childrenLength r = c.childrenLength r := by
  obtain ⟨-, -, hrows, hlens⟩ := enroll_family c p v
  rw [hrows, hlens]
  split <;> simp [hrp, hru]

/-- The creator adds the new pid to its row. -/
theorem enroll_row_creator (hu : c.currentProcess ≠ 0) (hup : c.currentProcess ≠ p)
    (hroom : c.childrenLength c.currentProcess < maxChildren) :
    (enroll c p v).children c.currentProcess =
        update (c.children c.currentProcess) (c.childrenLength c.currentProcess) (nextPid c) ∧
      (enroll c p v).childrenLength c.currentProcess = c.childrenLength c.currentProcess + 1 := by
  obtain ⟨-, -, hrows, hlens⟩ := enroll_family c p v
  rw [hrows, hlens]
  simp [hu, hup, hroom]

/-- A creator whose row is full keeps it. -/
theorem enroll_row_full (hup : c.currentProcess ≠ p) (hfull : ¬c.childrenLength c.currentProcess < maxChildren) :
    (enroll c p v).children c.currentProcess = c.children c.currentProcess ∧
      (enroll c p v).childrenLength c.currentProcess = c.childrenLength c.currentProcess := by
  obtain ⟨-, -, hrows, hlens⟩ := enroll_family c p v
  rw [hrows, hlens]
  simp [hup, hfull]

theorem enroll_row_new (hup : c.currentProcess ≠ p) : (enroll c p v).childrenLength p = 0 := by
  obtain ⟨-, -, -, hlens⟩ := enroll_family c p v
  rw [hlens]
  split <;> simp [hup.symm]

/-- A process that went on after its end and gets its own record again lists itself. -/
theorem enroll_row_self (h0 : p ≠ 0) (hup : c.currentProcess = p) :
    (enroll c p v).children p 0 = nextPid c ∧ (enroll c p v).childrenLength p = 1 := by
  obtain ⟨-, -, hrows, hlens⟩ := enroll_family c p v
  rw [hrows, hlens]
  simp [hup, h0, maxChildren]

/-- The pids of the old table differ from the new one. -/
theorem nextPid_fresh (h : TableInv c) (hp0 : p ≠ 0) (hfresh : p ∉ c.live .record)
    (hfree : ∃ i < maxProcesses, c.processesList i = 0) (hq : InTable c q) : c.pid q ≠ nextPid c := by
  intro hpid
  have hqp : q ≠ p := by
    rintro rfl
    exact hfresh (h.records q hq)
  have hinv := h.enroll hp0 hfresh 0
  have hself : (enroll (addRecord c p) p 0).pid p = nextPid c := by
    rw [(enroll_family (addRecord c p) p 0).1]
    exact Function.update_self ..
  rcases enroll_slots (addRecord c p) p 0 with ⟨i, hi, hi0, hslot⟩ | ⟨hfull, -⟩
  · have hin (x : ℕ) : InTable (enroll (addRecord c p) p 0) x ↔ InTable c x ∨ x = p := inTable_set hi hi0 hp0 hslot
    refine hqp (hinv.pids.inj q p ((hin q).mpr (Or.inl hq)) ((hin p).mpr (Or.inr rfl)) ?_)
    rw [hself, ← hpid]
    exact enroll_pid_of_ne hqp
  · obtain ⟨i, hi, hi0⟩ := hfree
    exact hfull i hi hi0

/-- The children with the new process in the table. -/
theorem mem_childPids_enroll (hnew : ¬InTable c p)
    (hin : ∀ q, InTable (enroll c p v) q ↔ InTable c q ∨ q = p) : x ∈ childPids (enroll c p v) r ↔
      (∃ q, InTable c q ∧ c.parentPid q = (enroll c p v).pid r ∧ c.pid q = x) ∨
        (enroll c p v).parentPid p = (enroll c p v).pid r ∧ nextPid c = x := by
  obtain ⟨hpid, hparent, -, -⟩ := enroll_family c p v
  have hself : (enroll c p v).pid p = nextPid c := by
    rw [hpid]
    exact Function.update_self ..
  have hother (q : ℕ) (hq : InTable c q) :
      (enroll c p v).pid q = c.pid q ∧ (enroll c p v).parentPid q = c.parentPid q := by
    have hqp : q ≠ p := fun he => hnew (he ▸ hq)
    rw [hpid, hparent, Function.update_of_ne hqp, Function.update_of_ne hqp]
    exact ⟨rfl, rfl⟩
  constructor
  · rintro ⟨q, hq, hpar, rfl⟩
    rcases (hin q).mp hq with hqc | rfl
    · obtain ⟨h1, h2⟩ := hother q hqc
      exact Or.inl ⟨q, hqc, h2 ▸ hpar, h1.symm⟩
    · exact Or.inr ⟨hpar, hself.symm⟩
  · rintro (⟨q, hq, hpar, rfl⟩ | ⟨hpar, rfl⟩)
    · obtain ⟨h1, h2⟩ := hother q hq
      exact ⟨q, (hin q).mpr (Or.inl hq), h2.trans hpar, h1⟩
    · exact ⟨p, (hin p).mpr (Or.inr rfl), hpar, hself⟩

theorem enroll_pid_self : (enroll c p v).pid p = nextPid c := by
  rw [(enroll_family c p v).1]
  exact Function.update_self ..

theorem enroll_parentPid_of_ne (hup : c.currentProcess ≠ p) : (enroll c p v).parentPid p = creatorPid c := by
  rw [(enroll_family c p v).2.1, Function.update_self, Function.update_of_ne hup]
  rfl

theorem enroll_parentPid_self (h0 : p ≠ 0) (hup : c.currentProcess = p) :
    (enroll c p v).parentPid p = nextPid c := by
  rw [(enroll_family c p v).2.1, Function.update_self, hup, if_pos h0, Function.update_self]

/-- The new process has a slot. -/
structure Slotted (c : Core) (p : ℕ) (v : ℤ) : Prop where
  null : p ≠ 0
  fresh : ∀ q, InTable c q → c.pid q ≠ nextPid c
  new : ¬InTable c p
  table : ∀ q, InTable (enroll c p v) q ↔ InTable c q ∨ q = p

theorem Slotted.self_mem (h : Slotted c p v) : InTable (enroll c p v) p := (h.table p).mpr (Or.inr rfl)

theorem Slotted.mem (h : Slotted c p v) (hq : InTable c q) : InTable (enroll c p v) q := (h.table q).mpr (Or.inl hq)

theorem Slotted.ne (h : Slotted c p v) (hq : InTable c q) : q ≠ p := fun he => h.new (he ▸ hq)

/-- A process that is not the parent of the new one keeps its children. -/
theorem Slotted.childPids_of_ne (h : Slotted c p v) (hr : InTable c r)
    (hne : (enroll c p v).parentPid p ≠ c.pid r) : childPids (enroll c p v) r = childPids c r := by
  ext x
  have hpid : (enroll c p v).pid r = c.pid r := enroll_pid_of_ne (h.ne hr)
  rw [mem_childPids_enroll h.new h.table, hpid]
  constructor
  · rintro (hold | ⟨hpar, -⟩)
    · exact hold
    · exact absurd hpar hne
  · exact Or.inl

theorem Slotted.childPids_parent (h : Slotted c p v) (hr : InTable c r)
    (hpar : (enroll c p v).parentPid p = c.pid r) :
    childPids (enroll c p v) r = insert (nextPid c) (childPids c r) := by
  ext x
  have hpid : (enroll c p v).pid r = c.pid r := enroll_pid_of_ne (h.ne hr)
  rw [mem_childPids_enroll h.new h.table, hpid, Set.mem_insert_iff]
  constructor
  · rintro (hold | ⟨-, rfl⟩)
    · exact Or.inr hold
    · exact Or.inl rfl
  · rintro (rfl | hold)
    · exact Or.inr ⟨hpar, rfl⟩
    · exact Or.inl hold

theorem Slotted.notMem (h : Slotted c p v) (r : ℕ) : nextPid c ∉ childPids c r := by
  rintro ⟨q, hq, -, hpid⟩
  exact h.fresh q hq hpid

/-- The parent that the new process names has not listed it. -/
theorem Slotted.unlisted (h : Slotted c p v) (hF : Families c) (hF' : Families (enroll c p v)) (hr : InTable c r)
    (hrow : (enroll c p v).children r = c.children r ∧ (enroll c p v).childrenLength r = c.childrenLength r) :
    (enroll c p v).parentPid p ≠ c.pid r := by
  intro hpar
  have hmem : nextPid c ∈ childPids (enroll c p v) r := by
    rw [h.childPids_parent hr hpar]
    exact Set.mem_insert ..
  have hbij := hF' r (h.mem hr)
  rw [hrow.1, hrow.2] at hbij
  obtain ⟨j, hj, hjx⟩ := hbij.surjOn hmem
  exact h.notMem r (hjx ▸ (hF r hr).mapsTo hj)

theorem Slotted.joins (h : Slotted c p v) (hF : Families c) (hF' : Families (enroll c p v)) : Joins c p := by
  have hnone (hup : c.currentProcess ≠ p) (x : ℤ) (hx : x ∈ childPids (enroll c p v) p) : False := by
    obtain ⟨j, hj, -⟩ := (hF' p h.self_mem).surjOn hx
    rw [enroll_row_new hup] at hj
    exact Nat.not_lt_zero j hj
  refine ⟨fun q hq hpar => ?_, fun hu => ?_, fun hu hup => ⟨fun hself => ?_, fun q hq hpid => ?_⟩⟩
  · have hmem : c.pid q ∈ childPids (enroll c p v) p :=
      (mem_childPids_enroll h.new h.table).mpr (Or.inl ⟨q, hq, by rw [hpar, enroll_pid_self], rfl⟩)
    by_cases hup : c.currentProcess = p
    · obtain ⟨hrow, hlen⟩ := enroll_row_self (v := v) h.null hup
      obtain ⟨j, hj, hjq⟩ := (hF' p h.self_mem).surjOn hmem
      rw [hlen, Set.mem_Iio, Nat.lt_one_iff] at hj
      rw [hj, hrow] at hjq
      exact h.fresh q hq hjq.symm
    · exact hnone hup _ hmem
  · by_contra hfull
    have hup := h.ne hu
    refine h.unlisted hF hF' hu (enroll_row_full hup hfull) ?_
    rw [enroll_parentPid_of_ne hup, creatorPid, if_pos hu.1]
  · refine hnone hup (nextPid c) ((mem_childPids_enroll h.new h.table).mpr (Or.inr ⟨?_, rfl⟩))
    rw [enroll_parentPid_of_ne hup, hself, enroll_pid_self]
  · have hqu : q ≠ c.currentProcess := fun he => hu (he ▸ hq)
    refine h.unlisted hF hF' hq (enroll_row_of_ne (h.ne hq) hqu) ?_
    rw [enroll_parentPid_of_ne hup, hpid]

theorem Slotted.families (h : Slotted c p v) (hinj : PidInv c) (hF : Families c) (hJ : Joins c p) :
    Families (enroll c p v) := by
  intro r hr
  rcases (h.table r).mp hr with hrc | rfl
  · have hrp := h.ne hrc
    by_cases hru : r = c.currentProcess
    · subst hru
      obtain ⟨hrow, hlen⟩ := enroll_row_creator (v := v) hrc.1 hrp (hJ.room hrc)
      rw [hrow, hlen, h.childPids_parent hrc]
      · exact bijOn_push (hF _ hrc) (h.notMem _)
      · rw [enroll_parentPid_of_ne hrp, creatorPid, if_pos hrc.1]
    · obtain ⟨hrow, hlen⟩ := enroll_row_of_ne (v := v) hrp hru
      rw [hrow, hlen, h.childPids_of_ne hrc]
      · exact hF r hrc
      · intro hpar
        by_cases hup : c.currentProcess = p
        · rw [enroll_parentPid_self h.null hup] at hpar
          exact h.fresh r hrc hpar.symm
        · rw [enroll_parentPid_of_ne hup] at hpar
          by_cases hu : InTable c c.currentProcess
          · rw [creatorPid, if_pos hu.1] at hpar
            exact hru (hinj.inj _ _ hrc hu hpar.symm)
          · exact (hJ.apart hu hup).2 r hrc hpar.symm
  · have hmem (x : ℤ) : x ∈ childPids (enroll c r v) r ↔
        (enroll c r v).parentPid r = nextPid c ∧ nextPid c = x := by
      rw [mem_childPids_enroll h.new h.table, enroll_pid_self]
      refine ⟨fun hx => hx.resolve_left ?_, Or.inr⟩
      rintro ⟨q, hq, hpar, -⟩
      exact hJ.orphans q hq hpar
    by_cases hup : c.currentProcess = r
    · obtain ⟨hrow, hlen⟩ := enroll_row_self (v := v) h.null hup
      have hset : childPids (enroll c r v) r = insert (nextPid c) ∅ := by
        ext x
        rw [hmem, enroll_parentPid_self h.null hup]
        simp [eq_comm]
      have hpush := bijOn_push (f := (enroll c r v).children r) (n := 0) (a := (enroll c r v).children r 0)
        (by simp) (Set.notMem_empty _)
      rw [Function.update_eq_self] at hpush
      rw [hlen, hset, ← hrow]
      exact hpush
    · have hset : childPids (enroll c r v) r = ∅ := by
        ext x
        rw [hmem, enroll_parentPid_of_ne hup]
        simp only [Set.mem_empty_iff_false, iff_false, not_and]
        intro hpar
        by_cases hu : InTable c c.currentProcess
        · rw [creatorPid, if_pos hu.1] at hpar
          exact absurd hpar (h.fresh _ hu)
        · exact absurd hpar (hJ.apart hu hup).1
      rw [enroll_row_new hup, hset]
      simp

/-- Without a slot nothing is added to the table, but the creator's row may grow. -/
theorem enroll_families_full (hF : Families c) (hnew : ¬InTable c p)
    (hfull : (enroll c p v).processesList = c.processesList) :
    Families (enroll c p v) ↔ (InTable c c.currentProcess → maxChildren ≤ c.childrenLength c.currentProcess) := by
  have hin (q : ℕ) : InTable (enroll c p v) q ↔ InTable c q := inTable_congr hfull
  have hne (q : ℕ) (hq : InTable c q) : q ≠ p := fun he => hnew (he ▸ hq)
  have hparent (q : ℕ) (hq : InTable c q) : (enroll c p v).parentPid q = c.parentPid q := by
    rw [(enroll_family c p v).2.1]
    exact Function.update_of_ne (hne q hq) ..
  have hsame (r : ℕ) (hr : InTable c r) : childPids (enroll c p v) r = childPids c r := by
    ext x
    have hpid : (enroll c p v).pid r = c.pid r := enroll_pid_of_ne (hne r hr)
    refine exists_congr fun q => ⟨?_, ?_⟩
    · rintro ⟨hq, hpar, hx⟩
      have hqc := (hin q).mp hq
      exact ⟨hqc, by rw [← hparent q hqc, hpar, hpid], by rw [← hx, enroll_pid_of_ne (hne q hqc)]⟩
    · rintro ⟨hq, hpar, hx⟩
      exact ⟨(hin q).mpr hq, by rw [hparent q hq, hpar, hpid], by rw [enroll_pid_of_ne (hne q hq), hx]⟩
  constructor
  · intro hF' hu
    by_contra hroom
    have hlen := (enroll_row_creator (v := v) hu.1 (hne _ hu) (by omega)).2
    have hbij := hF' _ ((hin _).mpr hu)
    rw [hsame _ hu] at hbij
    have hcount := bijOn_length hbij (hF _ hu)
    omega
  · intro hroom r hr
    rw [hin] at hr
    rw [hsame r hr]
    have hrow : (enroll c p v).children r = c.children r ∧ (enroll c p v).childrenLength r = c.childrenLength r := by
      by_cases hru : r = c.currentProcess
      · have hmax := hroom (hru ▸ hr)
        rw [hru]
        exact enroll_row_full (hru ▸ hne r hr) (by omega)
      · exact enroll_row_of_ne (hne r hr) hru
    rw [hrow.1, hrow.2]
    exact hF r hr

theorem enroll_families (h : TableInv c) (hF : Families c) (hp0 : p ≠ 0) (hfresh : p ∉ c.live .record) :
    Families (enroll (addRecord c p) p v) ↔ if ∃ i < maxProcesses, c.processesList i = 0 then Joins c p
      else InTable c c.currentProcess → maxChildren ≤ c.childrenLength c.currentProcess := by
  have hnew : ¬InTable c p := fun hp => hfresh (h.records p hp)
  have hF₁ : Families (addRecord c p) := hF
  rcases enroll_slots (addRecord c p) p v with ⟨i, hi, hi0, hslot⟩ | ⟨hfull, hslot⟩
  · have hfree : ∃ i < maxProcesses, c.processesList i = 0 := ⟨i, hi, hi0⟩
    have hslotted : Slotted (addRecord c p) p v :=
      ⟨hp0, fun q hq => nextPid_fresh (c := c) h hp0 hfresh hfree hq, hnew, fun q => inTable_set hi hi0 hp0 hslot⟩
    rw [if_pos hfree]
    refine ⟨fun hF' => ?_, fun hJ => ?_⟩
    · obtain ⟨h1, h2, h3⟩ := hslotted.joins hF₁ hF'
      exact ⟨h1, h2, h3⟩
    · exact hslotted.families (h.addRecord p).pids hF₁ ⟨hJ.orphans, hJ.room, hJ.apart⟩
  · rw [if_neg fun ⟨i, hi, hi0⟩ => hfull i hi hi0]
    exact enroll_families_full hF₁ hnew hslot

/-! ### The end of a process -/

/-- The pid is no more in the row. -/
theorem removeChild_row {S : Set ℤ} (h : Set.BijOn (c.children r) (Set.Iio (c.childrenLength r)) S) (x : ℤ) :
    Set.BijOn ((removeChild c r x).children r) (Set.Iio ((removeChild c r x).childrenLength r)) (S \ {x}) := by
  unfold removeChild
  cases hf : (List.range (c.childrenLength r)).find? fun j => c.children r j = x with
  | none =>
    have hno : x ∉ S := by
      rintro hx
      obtain ⟨j, hj, hjx⟩ := h.surjOn hx
      have hnot := List.find?_eq_none.mp hf j (List.mem_range.mpr hj)
      exact hnot (decide_eq_true hjx)
    rwa [Set.sdiff_singleton_eq_self hno]
  | some j =>
    have hj := List.mem_range.mp (List.mem_of_find?_eq_some hf)
    obtain rfl : c.children r j = x := by simpa using List.find?_some hf
    simpa using bijOn_swapRemove (z := 0) h hj

theorem removeChild_other (hr : r ≠ p) (x : ℤ) : (removeChild c p x).children r = c.children r ∧
    (removeChild c p x).childrenLength r = c.childrenLength r := by
  unfold removeChild
  split
  · exact ⟨rfl, rfl⟩
  · exact ⟨Function.update_of_ne hr .., Function.update_of_ne hr ..⟩

/-- Only the row of the heir changes. -/
theorem leaveFamily_row (hr : r ≠ heir c p) : (leaveFamily c p).children r = c.children r ∧
    (leaveFamily c p).childrenLength r = c.childrenLength r := by
  unfold leaveFamily
  split
  · exact ⟨rfl, rfl⟩
  · exact removeChild_other hr _

theorem leaveFamily_heir (h : heir c p ≠ 0) :
    (leaveFamily c p).children = (removeChild c (heir c p) (c.pid p)).children ∧
      (leaveFamily c p).childrenLength = (removeChild c (heir c p) (c.pid p)).childrenLength := by
  unfold leaveFamily
  rw [if_neg h]
  exact ⟨rfl, rfl⟩

/-- The slot of `q` is cleared and its pid taken out of one row. -/
theorem clear_families (hinj : PidInv c) (hF : Families c) (hend : Ended c c' p q) :
    Families c' ↔ Parts c p q := by
  obtain ⟨hq, hqp, hin, hpid, hparent, -, hrows, hlens⟩ := hend
  have hset (r : ℕ) : childPids c' r = childPids c r \ {c.pid p} := by
    ext x
    unfold childPids
    simp only [hpid, hparent, hin, Set.mem_sdiff, Set.mem_ofPred_eq, Set.mem_singleton_iff]
    constructor
    · rintro ⟨s, ⟨hs, hsq⟩, hpar, rfl⟩
      exact ⟨⟨s, hs, hpar, rfl⟩, fun he => hsq (hinj.inj s q hs hq (he.trans hqp.symm))⟩
    · rintro ⟨⟨s, hs, hpar, rfl⟩, hne⟩
      refine ⟨s, ⟨hs, ?_⟩, hpar, rfl⟩
      rintro rfl
      exact hne hqp
  constructor
  · intro hF' r hr hrq hpar
    by_contra hne
    have hbij := hF' r ((hin r).mpr ⟨hr, hrq⟩)
    obtain ⟨hrow, hlen⟩ := leaveFamily_row hne
    rw [hrows, hlens, hrow, hlen, hset] at hbij
    have hmem : c.pid p ∈ childPids c r := ⟨q, hq, hpar.symm, hqp⟩
    rw [← (hF r hr).image_eq, hbij.image_eq] at hmem
    exact hmem.2 rfl
  · intro hparts r hr
    obtain ⟨hrc, hrq⟩ := (hin r).mp hr
    rw [hset, hrows, hlens]
    by_cases hheir : r = heir c p
    · obtain ⟨hrow, hlen⟩ := leaveFamily_heir (hheir ▸ hrc.1)
      rw [hrow, hlen, ← hheir]
      exact removeChild_row (hF r hrc) _
    · obtain ⟨hrow, hlen⟩ := leaveFamily_row hheir
      have hno : c.pid p ∉ childPids c r := by
        rintro ⟨s, hs, hpar, hsp⟩
        obtain rfl := hinj.inj s q hs hq (hsp.trans hqp.symm)
        exact hheir (hparts r hrc hrq hpar.symm)
      rw [hrow, hlen, Set.sdiff_singleton_eq_self hno]
      exact hF r hrc

/-! ### Every step and every run -/

/-- A step keeps the families exactly when its call does. -/
theorem TableStep.families (h : TableInv c) (hF : Families c) (hst : TableStep c call c') :
    Families c' ↔ call.KeepsFamilies c := by
  cases call with
  | createProcess args =>
    rcases hst with ⟨hs, hno⟩ | ⟨p, hp, hfresh, hs⟩
    · exact iff_of_true (hs.families.mpr hF) fun p hp => absurd hp (hno p)
    · rw [hs.families, enroll_families h hF hp.2.1 hfresh]
      refine ⟨fun hok q hq => ?_, fun hok => hok p hp⟩
      obtain rfl : q = p := hq.2.2.trans hp.2.2.symm
      exact hok
  | killProcess pid =>
    rcases hst.kill_cases h with ⟨hs, hno⟩ | ⟨hlow, i, hf, hend⟩
    · refine iff_of_true (hs.families.mpr hF) fun hlow i hf => ?_
      rcases hno with hlt | hnone
      · omega
      · rw [hnone] at hf
        cases hf
    · rw [clear_families h.pids hF hend]
      refine ⟨fun hok _ j hj => ?_, fun hok => hok hlow i hf⟩
      obtain rfl := Option.some.inj (hf.symm.trans hj)
      exact hok
  | exitProcess =>
    rcases hst.exit_cases h with ⟨hnone, hs⟩ | ⟨i, hf, hend⟩
    · refine iff_of_true (hs.families.mpr hF) fun i hf => ?_
      rw [hnone] at hf
      cases hf
    · rw [clear_families h.pids hF hend]
      refine ⟨fun hok j hj => ?_, fun hok => hok i hf⟩
      obtain rfl := Option.some.inj (hf.symm.trans hj)
      exact hok
  | _ => exact iff_of_true (SameTable.families hst |>.mpr hF) trivial

theorem boot_families (h : Boot m) : Families m.toCore := by
  rintro p ⟨h0, i, -, hi⟩
  exact absurd (hi.symm.trans (h.processesList i)) h0

/-- In a run whose calls keep the families, the children listed are those of the table
in every state; a call keeps this so exactly when it keeps the families. -/
theorem families_agree (h : boot.Reach (fun m a => a.call.KeepsFamilies (m.supplied a)) m) :
    Families m.toCore ∧ ∀ a m', m.step a = some m' →
      (Families m'.toCore ↔ a.call.KeepsFamilies (m.supplied a)) := by
  have hrun : TableInv m.toCore ∧ Families m.toCore := by
    refine h.invariant (I := fun m => TableInv m.toCore ∧ Families m.toCore)
      (fun m hm => ⟨boot_table hm, boot_families hm⟩) fun m a m' hm hok hst => ⟨step_tableInv hm.1 hst, ?_⟩
    exact (TableStep.families hm.1.supply hm.2 (step_table hst)).mpr hok
  exact ⟨hrun.2, fun a m' hst => TableStep.families hrun.1.supply hrun.2 (step_table hst)⟩

/-- A process creates two others, kills the second of them and creates one more. -/
theorem families_agree_reuse : Families (ran (fun m a => a.call.KeepsFamilies (m.supplied a)) initial
    [create 100, plain .tick, create 200, create 300, plain (.killProcess 3), create 400]).toCore :=
  (families_agree (boot_ran (by decide +kernel))).1

/-- A process ends, and its child creates a process that gets the pid. -/
def reusedParent : List Action := [create 100, plain .tick, create 200, plain .exitProcess, create 300]

theorem families_agree_reusedParent : ¬∀ m, boot.Reach (fun _ _ => True) m → Families m.toCore := by
  intro hall
  have hreach : boot.Reach (fun _ _ => True) (ran (fun _ _ => True) initial reusedParent) :=
    boot_ran (by decide +kernel)
  -- process 201 has the parent 1, and so has process 301 its pid
  have hnew : InTable (ran (fun _ _ => True) initial reusedParent).toCore 301 := by decide +kernel
  have hlen : (ran (fun _ _ => True) initial reusedParent).childrenLength 301 = 0 := by decide +kernel
  have hmem : 2 ∈ childPids (ran (fun _ _ => True) initial reusedParent).toCore 301 :=
    ⟨201, by decide +kernel, by decide +kernel, by decide +kernel⟩
  obtain ⟨j, hj, -⟩ := (hall _ hreach 301 hnew).surjOn hmem
  rw [hlen] at hj
  exact Nat.not_lt_zero j hj

end BareKernel
