import BareKernel.Kernel.AnyRun
import BareKernel.Kernel.Inside
import BareKernel.Kernel.PidLaw
import BareKernel.Kernel.PipeTable

/-! The reference counts of the pipes along every run. -/

namespace BareKernel

open Function (update)
open Process Links Machine

/-- Besides, no pipe is left without readers and writers. -/
structure PipeInv (k : Kernel) (S : Finset ℕ) (lost : ℕ → FDType → ℕ) : Prop extends FdInv k S lost where
  held : k.Held

/-- The process holds no descriptor. -/
def Kernel.HoldsNone (k : Kernel) (p : ℕ) : Prop := ∀ j < rowSize, k.fdTable p j = -1

variable {k k' k₁ : Kernel} {c c' : Core} {m m' : Machine} {a : Action} {call : Call} {S : Finset ℕ}
  {lost : ℕ → FDType → ℕ} {pipe p q i j n parent : ℕ} {ty : FDType} {fd pid r : ℤ} {again : Bool}

theorem PipeInv.congr (h : PipeInv k S lost) (hs : SameFds k k') : PipeInv k' S lost :=
  ⟨h.toFdInv.congr hs, h.held.congr hs⟩

/-! ### Inheritance -/

theorem FdInv.openCount_nonneg (h : FdInv k S lost) (hp : k.HasPipe pipe) (ty : FDType) : 0 ≤ k.openCount pipe ty := by
  cases ty with
  | unused => exact le_refl _
  | read =>
    rw [h.counts pipe .read hp (by simp)]
    omega
  | write =>
    rw [h.counts pipe .write hp (by simp)]
    omega

/-- A process outside takes a reference that belongs to no slot. -/
theorem FdInv.accses_outside (h : FdInv k S lost) (hp : getProcessByPid k.toCore pid ∉ S) :
    ∃ lost', FdInv (k.pipeAccses pid fd).2 S lost' := by
  have hentries := pipeAccses_entries k pid fd
  rcases pipeAccses_cases k pid fd with hsame | ⟨-, i, rest, -, hset⟩
  · exact ⟨lost, by rwa [hsame]⟩
  · rw [hset] at hentries ⊢
    have hrow (q : ℕ) (hq : q ∈ S) (v : ℕ → ℤ) :
        update k.fdTable (getProcessByPid k.toCore pid) v q = k.fdTable q := by
      refine Function.update_of_ne ?_ ..
      rintro rfl
      exact hp hq
    refine ⟨fun pipe ty => lost pipe ty + if k.fdPipe fd = pipe ∧ k.fdType fd = ty then 1 else 0,
      h.ids, h.live, fun q hq j hj => ?_, fun pipe ty hpipe hty => ?_⟩
    · dsimp only
      rw [hrow q hq, hentries.validFd]
      exact h.rows q hq j hj
    · rw [openCount_add (d := 1) hty rfl rfl, h.counts pipe ty hpipe hty]
      have hsame : Kernel.holders _ S pipe ty = k.holders S pipe ty := entryCount_congr fun q hq j _ => by
        rw [hentries.names]
        dsimp only
        rw [hrow q hq]
      rw [hsame]
      split_ifs <;> omega

theorem PipeInv.accses (h : PipeInv k S lost) (pid : ℤ) (hfd : fd = -1 ∨ k.ValidFd fd) :
    ∃ lost', PipeInv (k.pipeAccses pid fd).2 S lost' ∧ (getProcessByPid k.toCore pid ∈ S → lost' = lost) := by
  have hheld : (k.pipeAccses pid fd).2.Held := by
    intro q hq
    have hq' := (pipeAccses_entries k pid fd).hasPipe.mp hq
    have hr : k.readOpen q ≤ (k.pipeAccses pid fd).2.readOpen q := openCount_le_accses k pid fd q .read
    have hw : k.writeOpen q ≤ (k.pipeAccses pid fd).2.writeOpen q := openCount_le_accses k pid fd q .write
    have hr0 : 0 ≤ k.readOpen q := h.openCount_nonneg hq' .read
    have hw0 : 0 ≤ k.writeOpen q := h.openCount_nonneg hq' .write
    have hnot := h.held q hq'
    omega
  by_cases hp : getProcessByPid k.toCore pid ∈ S
  · exact ⟨lost, ⟨h.toFdInv.accses hfd hp, hheld⟩, fun _ => rfl⟩
  · obtain ⟨lost', hinv⟩ := h.toFdInv.accses_outside hp
    exact ⟨lost', ⟨hinv, hheld⟩, fun hin => absurd hin hp⟩

/-- A process takes over the descriptors of a slot list of its parent. -/
theorem PipeInv.pass (h : PipeInv k S lost) (hparent : parent ∈ S) (l : List ℕ) (hl : ∀ j ∈ l, j < rowSize) :
    ∃ lost', PipeInv (l.foldl (fun k i => (k.pipeAccses (k.pid p) (k.fdTable parent i)).2) k) S lost' ∧
      (getProcessByPid k.toCore (k.pid p) ∈ S → lost' = lost) := by
  induction l generalizing k lost with
  | nil => exact ⟨lost, h, fun _ => rfl⟩
  | cons i l ih =>
    have hcore := pipeAccses_toCore k (k.pid p) (k.fdTable parent i)
    obtain ⟨lost₁, h₁, hkept₁⟩ := h.accses (k.pid p) (h.rows parent hparent i (hl i List.mem_cons_self))
    obtain ⟨lost₂, h₂, hkept₂⟩ := ih h₁ fun j hj => hl j (List.mem_cons_of_mem _ hj)
    refine ⟨lost₂, h₂, fun hp => (hkept₂ ?_).trans (hkept₁ hp)⟩
    rw [hcore]
    exact hp

/-- A parent without descriptors passes nothing on. -/
theorem pass_none (h : k.HoldsNone parent) (l : List ℕ) (hl : ∀ j ∈ l, j < rowSize) :
    l.foldl (fun k i => (k.pipeAccses (k.pid p) (k.fdTable parent i)).2) k = k := by
  induction l with
  | nil => rfl
  | cons i l ih =>
    rw [List.foldl_cons, h i (hl i List.mem_cons_self), pipeAccses_none]
    apply ih
    intro j hj
    exact hl j (List.mem_cons_of_mem _ hj)

/-- A process leaves, and the references that it held are lost. -/
theorem PipeInv.erase (h : PipeInv k S lost) (hp : p ∈ S) :
    PipeInv k (S.erase p) fun pipe ty => lost pipe ty + k.holders {p} pipe ty := by
  refine ⟨⟨h.ids, h.live, fun q hq => h.rows q (Finset.mem_of_mem_erase hq), fun pipe ty hpipe hty => ?_⟩, h.held⟩
  have hcount := h.counts pipe ty hpipe hty
  have hsplit : k.holders S pipe ty = k.holders (S.erase p) pipe ty + k.holders {p} pipe ty := entryCount_erase hp
  rw [hcount, hsplit]
  push_cast
  omega

/-- A process without descriptors leaves. -/
theorem PipeInv.erase_none (h : PipeInv k S lost) (hp : p ∈ S) (hnone : k.HoldsNone p) :
    PipeInv k (S.erase p) lost := by
  have herase := h.erase hp
  have hzero (pipe : ℕ) (ty : FDType) : k.holders {p} pipe ty = 0 := by
    refine entryCount_eq_zero.mpr fun q hq j hj => ?_
    rw [Finset.mem_singleton.mp hq, hnone j hj]
    exact not_names_neg
  simp only [hzero, Nat.add_zero] at herase
  exact herase

/-- A new process comes in with cleared slots. -/
theorem PipeInv.clearRow (h : PipeInv k S lost) (hp : p ∉ S) :
    PipeInv { k with fdTable := update k.fdTable p fun _ => -1 } (insert p S) lost := by
  have hrow (q : ℕ) (hq : q ∈ S) : update k.fdTable p (fun _ => -1) q = k.fdTable q := by
    refine Function.update_of_ne ?_ ..
    rintro rfl
    exact hp hq
  have hself (j : ℕ) : update k.fdTable p (fun _ => -1) p j = -1 := by rw [Function.update_self]
  have hsame : SameEntries k { k with fdTable := update k.fdTable p fun _ => -1 } :=
    ⟨rfl, rfl, fun _ _ => rfl, rfl, fun _ _ => rfl, fun _ _ => rfl⟩
  refine ⟨⟨h.ids, h.live, fun q hq j hj => ?_, fun pipe ty hpipe hty => ?_⟩, h.held⟩
  · rw [hsame.validFd]
    show update k.fdTable p (fun _ => -1) q j = -1 ∨ k.ValidFd (update k.fdTable p (fun _ => -1) q j)
    rcases Finset.mem_insert.mp hq with rfl | hq
    · exact Or.inl (hself j)
    · rw [hrow q hq]
      exact h.rows q hq j hj
  · have hcount : Kernel.holders { k with fdTable := update k.fdTable p fun _ => -1 } (insert p S) pipe ty =
        k.holders S pipe ty := by
      refine (entryCount_insert fun j _ => ?_).trans (entryCount_congr fun q hq j _ => ?_)
      · rw [hsame.names]
        show ¬k.Names pipe ty (update k.fdTable p (fun _ => -1) p j)
        rw [hself]
        exact not_names_neg
      · rw [hsame.names]
        show k.Names pipe ty (update k.fdTable p (fun _ => -1) q j) ↔ _
        rw [hrow q hq]
    rw [hcount]
    exact h.counts pipe ty hpipe hty

/-! ### The descriptors that an exit closes -/

theorem pipeClose_currentProcess (k : Kernel) (fd : ℤ) : (k.pipeClose fd).2.currentProcess = k.currentProcess := by
  obtain ⟨answers, live, hcore, -⟩ := (pipeClose_only k fd).core
  rw [hcore]

theorem pipeClose_processesList (k : Kernel) (fd : ℤ) : (k.pipeClose fd).2.processesList = k.processesList := by
  obtain ⟨answers, live, hcore, -⟩ := (pipeClose_only k fd).core
  rw [hcore]

/-- After the first slots of the current process have been closed. -/
def Kernel.closeFirst (k : Kernel) (n : ℕ) : Kernel :=
  (List.range n).foldl (fun k' i => (k'.pipeClose (k'.fdTable k.currentProcess i)).2) k

theorem closeFirst_succ (k : Kernel) (n : ℕ) : k.closeFirst (n + 1) =
    ((k.closeFirst n).pipeClose ((k.closeFirst n).fdTable k.currentProcess n)).2 := by
  unfold Kernel.closeFirst
  rw [List.range_succ, List.foldl_append]
  rfl

theorem closeFirst_currentProcess (k : Kernel) (n : ℕ) : (k.closeFirst n).currentProcess = k.currentProcess := by
  induction n with
  | zero => rfl
  | succ n ih => rw [closeFirst_succ, pipeClose_currentProcess, ih]

theorem closeFirst_processesList (k : Kernel) (n : ℕ) : (k.closeFirst n).processesList = k.processesList := by
  induction n with
  | zero => rfl
  | succ n ih => rw [closeFirst_succ, pipeClose_processesList, ih]

/-- Closing what a slot holds clears the slot, when those before it are clear. -/
theorem FdInv.close_slot (h : FdInv k S lost) (hp : k.currentProcess ∈ S) (hn : n < rowSize)
    (hbefore : ∀ j < n, k.fdTable k.currentProcess j = -1) :
    ∀ j < n + 1, (k.pipeClose (k.fdTable k.currentProcess n)).2.fdTable k.currentProcess j = -1 := by
  set fd := k.fdTable k.currentProcess n with hfd
  have hrow : fd = -1 ∨ k.ValidFd fd := h.rows _ hp n hn
  intro j hj
  rcases pipeClose_cases k fd with ⟨hsame, hnone⟩ | ⟨i, -, hfd0, hslot, hfirst, hclose⟩
  · have hclear : fd = -1 := by
      refine hrow.resolve_right fun hv => ?_
      have hlow := hv.low
      have hhigh := hv.high
      rcases hnone with hneg | hlarge | hno
      · omega
      · omega
      · exact hno n hn rfl
    rw [hsame]
    rcases Nat.lt_succ_iff_lt_or_eq.mp hj with hj | rfl
    · exact hbefore j hj
    · exact hclear
  · -- the first slot with the descriptor is this one
    obtain rfl : i = n := by
      rcases Nat.lt_trichotomy i n with hlt | heq | hgt
      · have := hbefore i hlt
        omega
      · exact heq
      · exact absurd rfl (hfirst n hgt)
    have htable : (k.pipeClose fd).2.fdTable =
        update k.fdTable k.currentProcess (update (k.fdTable k.currentProcess) i (-1)) := by
      rw [hclose]
      split <;> rfl
    rw [htable, Function.update_self]
    rcases Nat.lt_succ_iff_lt_or_eq.mp hj with hj | rfl
    · rw [Function.update_of_ne hj.ne]
      exact hbefore j hj
    · rw [Function.update_self]

theorem PipeInv.close (h : PipeInv k S lost) (hp : k.currentProcess ∈ S)
    (hsafe : k.LastRef fd → ∀ p ∈ S, ∀ j < rowSize, k.fdTable p j ≠ fd - 1) : PipeInv (k.pipeClose fd).2 S lost := by
  obtain ⟨hinv, hheld⟩ := h.toFdInv.close h.held hp hsafe
  exact ⟨hinv, hheld⟩

theorem PipeInv.closeFirst (h : PipeInv k S lost) (hp : k.currentProcess ∈ S)
    (hsafe : ∀ n < rowSize, (k.closeFirst n).LastRef ((k.closeFirst n).fdTable k.currentProcess n) →
      ∀ p ∈ S, ∀ j < rowSize, (k.closeFirst n).fdTable p j ≠ (k.closeFirst n).fdTable k.currentProcess n - 1)
    (hn : n ≤ rowSize) :
    PipeInv (k.closeFirst n) S lost ∧ ∀ j < n, (k.closeFirst n).fdTable k.currentProcess j = -1 := by
  induction n with
  | zero => exact ⟨h, fun j hj => absurd hj (Nat.not_lt_zero j)⟩
  | succ n ih =>
    obtain ⟨hinv, hclear⟩ := ih (by omega)
    have hcur := closeFirst_currentProcess k n
    rw [closeFirst_succ]
    refine ⟨hinv.close (by rwa [hcur]) (hsafe n (by omega)), ?_⟩
    rw [← hcur] at hp hclear ⊢
    exact hinv.close_slot hp (by omega) hclear

/-! ### The exit runs on the core without the process -/

/-- The pipes and what the calls on them read of the core. -/
structure SamePipes (k k' : Kernel) : Prop where
  toPipes : k'.toPipes = k.toPipes
  live : k'.live .pipe = k.live .pipe
  currentProcess : k'.currentProcess = k.currentProcess

theorem SamePipes.drop (h : SamePipes k k') (fd : ℤ) (i : ℕ) : SamePipes (k.dropFd fd i) (k'.dropFd fd i) := by
  obtain ⟨hp, hl, hc⟩ := h
  refine ⟨?_, hl, hc⟩
  unfold Kernel.dropFd
  dsimp only
  rw [hp, hc]

theorem SamePipes.destroy (h : SamePipes k k') (fd : ℤ) : SamePipes (k.pipeDestroy fd) (k'.pipeDestroy fd) := by
  obtain ⟨hp, hl, hc⟩ := h
  refine ⟨?_, ?_, hc⟩
  · unfold Kernel.pipeDestroy Kernel.freePipe
    dsimp only
    rw [hp]
  · unfold Kernel.pipeDestroy Kernel.freePipe mmFree
    dsimp only
    rw [Function.update_self, Function.update_self, hl, hp]

theorem SamePipes.close (h : SamePipes k k') (fd : ℤ) : SamePipes (k.pipeClose fd).2 (k'.pipeClose fd).2 := by
  unfold Kernel.pipeClose
  split
  · exact h
  · dsimp only
    rw [h.toPipes, h.currentProcess]
    cases (List.range (maxBuff * 2)).find? fun i => k.fdTable k.currentProcess i = fd with
    | none => exact h
    | some i =>
      have hdrop := h.drop fd i
      dsimp only
      rw [hdrop.toPipes]
      split
      · exact hdrop.destroy fd
      · exact hdrop

theorem SamePipes.closeAll (h : SamePipes k k') (l : List ℕ) :
    SamePipes (l.foldl (fun k₁ i => (k₁.pipeClose (k₁.fdTable p i)).2) k)
      (l.foldl (fun k₁ i => (k₁.pipeClose (k₁.fdTable p i)).2) k') := by
  induction l generalizing k k' with
  | nil => exact h
  | cons i l ih =>
    apply ih
    dsimp only
    rw [h.toPipes]
    exact h.close _

theorem removeFromProcessesList_pipes (h : removeFromProcessesList c p = some (r, c')) :
    c'.live .pipe = c.live .pipe := by
  rcases removeFromProcessesList_table h with ⟨-, rfl⟩ | ⟨i, -, hq⟩
  · rfl
  · obtain ⟨children, lengths, flags, hfam⟩ := leaveFamily_eq c p
    rw [hq.pipes, clearSlot_pipes, hfam]

theorem killProcess_pipes (hrun : Process.killProcess k.toCore pid = some (r, c, again)) :
    c.live .pipe = k.live .pipe := by
  rcases killProcess_table hrun with ⟨rfl, -⟩ | ⟨-, i, -, hq⟩
  · rfl
  · obtain ⟨children, lengths, flags, hfam⟩ := leaveFamily_eq (freePid k.toCore pid) (k.processesList i)
    rw [hq.pipes, clearSlot_pipes, hfam]
    rfl

/-- What an exit leaves of the pipes. -/
theorem exitProcess_pipes (hring : ∃ L, RingInv k.toCore L) (hrun : k.exitProcess = some k') :
    SamePipes (k.closeFirst rowSize) k' := by
  obtain ⟨⟨r, c⟩, hremove, hret⟩ := Option.bind_eq_some_iff.mp hrun
  obtain ⟨L, hL⟩ := hring
  obtain ⟨L', hshift⟩ := removeFromProcessesList_shift hL hremove
  have hcore : SamePipes k { k with toCore := c } :=
    ⟨rfl, removeFromProcessesList_pipes hremove, hshift.currentProcess⟩
  have hall : SamePipes (k.closeFirst (maxBuff * 2)) _ := hcore.closeAll (List.range (maxBuff * 2))
  simp only at hret
  generalize List.foldl _ { k with toCore := c } _ = k₂ at hall hret
  obtain rfl := Option.some.inj hret
  show SamePipes (k.closeFirst (maxBuff * 2)) _
  generalize k.closeFirst (maxBuff * 2) = k₁ at hall ⊢
  exact ⟨hall.toPipes, hall.live, hall.currentProcess⟩

/-! ### A new process -/

/-- A parent without descriptors leaves the new process without any. -/
theorem openProcess_none (hparent : parent = 0 ∨ k.HoldsNone parent) :
    ∃ waiting, k.openProcess parent p =
      { k with fdTable := update k.fdTable p fun _ => -1, waitingOnChild := waiting } := by
  rcases openProcess_cases k parent p with ⟨-, hopen⟩ | ⟨h0, k₂, hall, hopen⟩
  · exact ⟨k.waitingOnChild, hopen⟩
  · have hnone : Kernel.HoldsNone { k with fdTable := update k.fdTable p fun _ => -1 } parent := by
      intro j hj
      show update k.fdTable p (fun _ => -1) parent j = -1
      by_cases hpp : parent = p
      · rw [hpp, Function.update_self]
      · rw [Function.update_of_ne hpp]
        exact hparent.resolve_left h0 j hj
    have hpass := pass_none (p := p) hnone (List.range (maxBuff * 2)) fun j hj => List.mem_range.mp hj
    rw [hopen, ← hall, hpass]
    exact ⟨_, rfl⟩

/-- A new process that is in the table takes references for its slots, one outside takes
references that nobody gives back. -/
theorem PipeInv.open (h : PipeInv k S lost) (hp : p ∉ S) (hparent : parent ∈ S)
    (hget : getProcessByPid k.toCore (k.pid p) = p) :
    PipeInv (k.openProcess parent p) (insert p S) lost := by
  have hclear := h.clearRow hp
  rcases openProcess_cases k parent p with ⟨-, hopen⟩ | ⟨-, k₂, hall, hopen⟩
  · rw [hopen]
    exact hclear
  · obtain ⟨lost', hpass, hkept⟩ := hclear.pass (p := p) (Finset.mem_insert_of_mem hparent)
      (List.range (maxBuff * 2)) fun j hj => List.mem_range.mp hj
    rw [hkept (hget.symm ▸ Finset.mem_insert_self p S), hall] at hpass
    rw [hopen]
    exact hpass.congr (.of_eq rfl rfl)

theorem PipeInv.open_outside (h : PipeInv k S lost) (hp : p ∉ S) (hparent : parent ∈ S) :
    ∃ lost', PipeInv (k.openProcess parent p) S lost' := by
  have hclear : PipeInv { k with fdTable := update k.fdTable p fun _ => -1 } S lost := by
    have herase := (h.clearRow hp).erase_none (Finset.mem_insert_self p S) fun j _ => by
      show update k.fdTable p (fun _ => -1) p j = -1
      rw [Function.update_self]
    rwa [Finset.erase_insert hp] at herase
  rcases openProcess_cases k parent p with ⟨-, hopen⟩ | ⟨-, k₂, hall, hopen⟩
  · rw [hopen]
    exact ⟨lost, hclear⟩
  · obtain ⟨lost', hpass, -⟩ := hclear.pass (p := p) hparent
      (List.range (maxBuff * 2)) fun j hj => List.mem_range.mp hj
    rw [hall] at hpass
    rw [hopen]
    exact ⟨lost', hpass.congr (.of_eq rfl rfl)⟩

/-- The blocks of pipes after a new process has been entered. -/
theorem enterProcess_pipes {stackTop : ℕ} {args : CreateArgs} (h : enterProcess c p stackTop args = some c') :
    c'.live .pipe = c.live .pipe := by
  obtain ⟨c₁, hfill, hadd⟩ := enterProcess_split h
  obtain ⟨list, hlist⟩ := addToProcessList_eq c₁ p
  rw [(addToReadyList_edit hadd).live .pipe (by simp), hlist]
  exact hfill.live .pipe rfl

/-- What a new process may inherit is held under a slot of the table. -/
def Kernel.Inherits (k : Kernel) : Prop :=
  k.currentProcess = 0 ∨ k.HoldsNone k.currentProcess ∨ InTable k.toCore k.currentProcess

/-- A new process that inherits descriptors finds a slot of the table. -/
def Kernel.FindsSlot (k : Kernel) : Prop :=
  k.currentProcess = 0 ∨ k.HoldsNone k.currentProcess ∨ ∃ i < maxProcesses, k.processesList i = 0

theorem createProcess_pipeInv {args : CreateArgs} (h : PipeInv k (tableProcs k.toCore) lost) (ht : TableInv k.toCore)
    (hok : k.Inherits) (hrun : k.createProcess args = some (r, k')) :
    ∃ lost', PipeInv k' (tableProcs k'.toCore) lost' ∧ (k.FindsSlot → lost' = lost) := by
  rcases createProcess_cases hrun with ⟨-, -, answers, live, rfl, hlive⟩ |
    ⟨p, answers, live, c, h0, hfresh, -, hrecord, hlive, henter, rfl, -⟩
  · exact ⟨lost, h.congr (.of_eq rfl (hlive .pipe (by simp))), fun _ => rfl⟩
  · have hpipe : c.live .pipe = k.live .pipe := (enterProcess_pipes henter).trans (hlive .pipe (by simp) (by simp))
    have hquiet := enterProcess_record hrecord (hlive .pipe (by simp) (by simp)) henter
    have hc : TableInv c := (ht.enroll h0 hfresh args.isForeground).congr hquiet.toSameTable
    have hp : p ∉ tableProcs k.toCore := fun hin => hfresh (ht.records p (mem_tableProcs.mp hin))
    obtain ⟨waiting, honly⟩ := openProcess_only { k with toCore := c } k.currentProcess p
    have htable : tableProcs ({ k with toCore := c }.openProcess k.currentProcess p).toCore = tableProcs c :=
      tableProcs_congr honly.sameTable.processesList
    have h₁ : PipeInv { k with toCore := c } (tableProcs k.toCore) lost := h.congr (.of_eq rfl hpipe)
    have hslots := enroll_slots (addRecord k.toCore p) p args.isForeground
    have hin : tableProcs c = insert p (tableProcs k.toCore) ∨
        tableProcs c = tableProcs k.toCore ∧ ∀ i < maxProcesses, k.processesList i ≠ 0 := by
      rcases hslots with ⟨i, hi, hfree, hset⟩ | ⟨hfull, hset⟩
      · refine Or.inl ?_
        ext q
        rw [Finset.mem_insert, mem_tableProcs, mem_tableProcs, or_comm]
        exact inTable_set (c := addRecord k.toCore p) hi hfree h0 (hquiet.processesList.trans hset)
      · exact Or.inr ⟨tableProcs_congr (hquiet.processesList.trans hset), hfull⟩
    rw [htable]
    by_cases hnone : k.currentProcess = 0 ∨ k.HoldsNone k.currentProcess
    · -- nothing is passed on, whether the new process gets a slot or not
      obtain ⟨waiting, hopen⟩ := openProcess_none (k := { k with toCore := c }) (p := p) hnone
      have hclear := h₁.clearRow hp
      rw [hopen]
      rcases hin with hin | ⟨hin, -⟩
      · rw [hin]
        exact ⟨lost, hclear.congr (.of_eq rfl rfl), fun _ => rfl⟩
      · rw [hin, ← Finset.erase_insert hp]
        refine ⟨lost, (hclear.erase_none (Finset.mem_insert_self p _) fun j _ => ?_).congr (.of_eq rfl rfl),
          fun _ => rfl⟩
        show update k.fdTable p (fun _ => -1) p j = -1
        rw [Function.update_self]
    · have hparent : k.currentProcess ∈ tableProcs k.toCore := by
        unfold Kernel.Inherits at hok
        rw [mem_tableProcs]
        tauto
      rcases hin with hin | ⟨hin, hfull⟩
      · have hself : InTable c p := mem_tableProcs.mp (hin ▸ Finset.mem_insert_self p _)
        rw [hin]
        exact ⟨lost, h₁.open hp hparent (hc.pids.getProcessByPid hself), fun _ => rfl⟩
      · obtain ⟨lost', hopen⟩ := h₁.open_outside hp hparent
        rw [hin]
        refine ⟨lost', hopen, fun hslot => ?_⟩
        rcases hslot with h1 | h2 | ⟨i, hi, hfree⟩
        · exact absurd (Or.inl h1) hnone
        · exact absurd (Or.inr h2) hnone
        · exact absurd hfree (hfull i hi)

/-! ### Every call -/

/-- The close of a descriptor takes the last reference away from a pipe only when no
process of the table holds the descriptor below, which is given up with it. -/
def Kernel.SafeClose (k : Kernel) (fd : ℤ) : Prop :=
  k.LastRef fd → ∀ p, InTable k.toCore p → ∀ j < rowSize, k.fdTable p j ≠ fd - 1

/-- The calls on pipes are made by processes of the table, and every descriptor is
closed as it should. -/
def Call.KeepsFds (close : Kernel → ℤ → Prop) (k : Kernel) : Call → Prop
  | .createProcess _ => k.Inherits
  | .createPipe => InTable k.toCore k.currentProcess
  | .pipeClose fd => InTable k.toCore k.currentProcess ∧ close k fd
  | .exitProcess => InTable k.toCore k.currentProcess ∧
      ∀ n < rowSize, close (k.closeFirst n) ((k.closeFirst n).fdTable k.currentProcess n)
  | _ => True

/-- No process that holds descriptors is killed or created outside the table. -/
def Call.KeepsHolders (k : Kernel) : Call → Prop
  | .createProcess _ => k.FindsSlot
  | .killProcess pid => 3 ≤ pid → InTable k.toCore (getProcessByPid k.toCore pid) →
      k.HoldsNone (getProcessByPid k.toCore pid)
  | _ => True

theorem exitProcess_pipeInv (h : PipeInv k (tableProcs k.toCore) lost) (ht : TableInv k.toCore)
    (hring : ∃ L, RingInv k.toCore L) (hok : Call.KeepsFds Kernel.SafeClose k .exitProcess)
    (hrun : k.exitProcess = some k') : PipeInv k' (tableProcs k'.toCore) lost := by
  obtain ⟨hcur, hsafe⟩ := hok
  have hin := mem_tableProcs.mpr hcur
  obtain ⟨hinv, hclear⟩ := h.closeFirst (n := rowSize) hin (fun n hn hlast p hp j hj => by
    refine hsafe n hn hlast p ?_ j hj
    exact (inTable_congr (closeFirst_processesList k n)).mpr (mem_tableProcs.mp hp)) le_rfl
  have hend := hinv.erase_none hin hclear
  have hpipes := exitProcess_pipes hring hrun
  have htable : tableProcs k'.toCore = (tableProcs k.toCore).erase k.currentProcess := by
    rcases (exitProcess_table hrun).exit_cases ht with ⟨hnone, -⟩ | ⟨i, hf, hended⟩
    · exact absurd rfl (foundprocess_none hnone hcur)
    · obtain ⟨-, hslot, hpid⟩ := foundprocess_some hf
      have hself : k.processesList i = k.currentProcess := ht.pids.inj _ _ hslot hcur hpid
      ext q
      rw [mem_tableProcs, hended.inTable, hself, Finset.mem_erase, mem_tableProcs, and_comm]
  rw [htable]
  exact hend.congr (.of_eq hpipes.toPipes hpipes.live)

theorem killProcess_pipeInv (h : PipeInv k (tableProcs k.toCore) lost) (ht : TableInv k.toCore)
    (hrun : Process.killProcess k.toCore pid = some (r, c, again)) :
    ∃ lost', PipeInv { k with toCore := c } (tableProcs c) lost' ∧
      (Call.KeepsHolders k (.killProcess pid) → lost' = lost) := by
  rcases killProcess_table hrun with ⟨rfl, -⟩ | ⟨hlow, i, hf, hq⟩
  · exact ⟨lost, h, fun _ => rfl⟩
  · have hpipe := killProcess_pipes hrun
    obtain ⟨-, hslot, hpid⟩ := foundprocess_some hf
    have hget : getProcessByPid k.toCore pid = k.processesList i := getProcessByPid_some hf
    have hst : TableStep k.toCore (.killProcess pid) c := Or.inr ⟨hlow, i, hf, hq.toSameTable⟩
    have htable : tableProcs c = (tableProcs k.toCore).erase (k.processesList i) := by
      rcases hst.kill_cases ht with ⟨-, hno | hno⟩ | ⟨-, j, hj, hended⟩
      · omega
      · rw [hno] at hf
        cases hf
      · obtain rfl : i = j := Option.some.inj (hf.symm.trans hj)
        ext q
        rw [mem_tableProcs, hended.inTable, Finset.mem_erase, mem_tableProcs, and_comm]
    have hin := mem_tableProcs.mpr hslot
    have hsame : SameFds k { k with toCore := c } := .of_eq rfl hpipe
    rw [htable]
    by_cases hnone : k.HoldsNone (k.processesList i)
    · exact ⟨lost, (h.erase_none hin hnone).congr hsame, fun _ => rfl⟩
    · refine ⟨_, (h.erase hin).congr hsame, fun hok => absurd ?_ hnone⟩
      have hspare := hok hlow
      rw [hget] at hspare
      exact hspare hslot

/-- What every call leaves of the references that were lost. -/
theorem PipeInv.afterCall (h : PipeInv k (tableProcs k.toCore) lost) (ht : TableInv k.toCore)
    (hring : ∃ L, RingInv k.toCore L) (hok : call.KeepsFds Kernel.SafeClose k)
    (hrun : k.call call = some (r, k', again)) :
    ∃ lost', PipeInv k' (tableProcs k'.toCore) lost' ∧
      (call.KeepsHolders k → (lost = fun _ _ => 0) → lost' = fun _ _ => 0) := by
  cases call with
  | createProcess args =>
    obtain ⟨⟨v, k₁⟩, hcall, hret⟩ := Option.map_eq_some_iff.mp hrun
    obtain ⟨-, rfl, -⟩ : v = r ∧ k₁ = k' ∧ false = again := by simpa using hret
    obtain ⟨lost', hinv, hkept⟩ := createProcess_pipeInv h ht hok hcall
    exact ⟨lost', hinv, fun hslot hzero => (hkept hslot).trans hzero⟩
  | killProcess pid =>
    obtain ⟨⟨v, c, b⟩, hcall, hret⟩ := Option.map_eq_some_iff.mp hrun
    obtain ⟨-, rfl, -⟩ : v = r ∧ _ = k' ∧ b = again := by simpa using hret
    obtain ⟨lost', hinv, hkept⟩ := killProcess_pipeInv h ht hcall
    exact ⟨lost', hinv, fun hspare hzero => (hkept hspare).trans hzero⟩
  | exitProcess =>
    obtain ⟨k₁, hcall, hret⟩ := Option.map_eq_some_iff.mp hrun
    obtain ⟨-, rfl, -⟩ : 0 = r ∧ k₁ = k' ∧ true = again := by simpa using hret
    exact ⟨lost, exitProcess_pipeInv h ht hring hok hcall, fun _ => id⟩
  | createPipe =>
    obtain ⟨-, rfl, -⟩ : _ = r ∧ k.createPipe.2 = k' ∧ false = again := by simpa [Kernel.call] using hrun
    obtain ⟨sems, honly⟩ := createPipe_only k
    rw [tableProcs_congr honly.sameTable.processesList]
    rcases createPipe_cases k with ⟨-, hsame⟩ | ⟨i, pipe, n, s, t, -, hm⟩
    · exact ⟨lost, h.congr (hsame h.live), fun _ => id⟩
    · refine ⟨_, ⟨hm.fdInv h.toFdInv (mem_tableProcs.mpr hok), hm.held h.held⟩, fun _ hzero => ?_⟩
      rw [hzero]
      exact Function.update_eq_self ..
  | pipeClose fd =>
    obtain ⟨-, rfl, -⟩ : _ = r ∧ (k.pipeClose fd).2 = k' ∧ false = again := by simpa [Kernel.call] using hrun
    rw [tableProcs_congr (pipeClose_only k fd).sameTable.processesList]
    exact ⟨lost, h.close (mem_tableProcs.mpr hok.1) fun hlast p hp => hok.2 hlast p (mem_tableProcs.mp hp), fun _ => id⟩
  | _ =>
    have hstill := call_still hrun trivial
    rw [tableProcs_congr hstill.quiet.processesList]
    exact ⟨lost, h.congr (.of_eq hstill.toPipes hstill.quiet.pipes), fun _ => id⟩

namespace Machine

/-- What every step leaves of the references that were lost. -/
theorem step_pipeInv (h : PipeInv m.toKernel (tableProcs m.toCore) lost) (ht : TableInv m.toCore)
    (hring : ∃ L, RingInv m.toCore L) (hok : a.call.KeepsFds Kernel.SafeClose (m.before a))
    (hrun : m.step a = some m') :
    ∃ lost', PipeInv m'.toKernel (tableProcs m'.toCore) lost' ∧
      (a.call.KeepsHolders (m.before a) → (lost = fun _ _ => 0) → lost' = fun _ _ => 0) := by
  obtain ⟨r, k, again, hcall, hcases⟩ := step_cases hrun
  obtain ⟨L, hL⟩ := hring
  have h₀ : PipeInv (m.before a) (tableProcs (m.before a).toCore) lost := h.congr (.of_eq rfl rfl)
  obtain ⟨lost', hinv, hkept⟩ := h₀.afterCall ht.supply ⟨L, hL.congr rfl rfl rfl rfl⟩ hok hcall
  rcases hcases with ⟨-, rfl⟩ | ⟨-, cpu, c, hsched, rfl⟩
  · exact ⟨lost', hinv.congr (.of_eq rfl rfl), hkept⟩
  · have hquiet := scheduler_quiet hsched
    refine ⟨lost', ?_, hkept⟩
    show PipeInv _ (tableProcs c) lost'
    rw [tableProcs_congr hquiet.processesList]
    exact hinv.congr (.of_eq rfl hquiet.pipes)

theorem boot_pipeInv (h : Boot m) : PipeInv m.toKernel (tableProcs m.toCore) fun _ _ => 0 := by
  have hnone (p : ℕ) : p ∉ tableProcs m.toCore := by
    intro hp
    obtain ⟨h0, i, -, hi⟩ := mem_tableProcs.mp hp
    exact h0 (hi.symm.trans (h.processesList i))
  have hpipe (pipe : ℕ) : ¬m.HasPipe pipe := by
    rintro ⟨h0, i, -, hi⟩
    exact h0 (hi.symm.trans (h.pipes i))
  exact ⟨⟨fun i _ h0 => absurd (h.pipes i) h0, fun pipe hp => absurd hp (hpipe pipe),
    fun p hp => absurd hp (hnone p), fun pipe _ hp => absurd hp (hpipe pipe)⟩, fun pipe hp => absurd hp (hpipe pipe)⟩

end Machine

/-! ### The reference counts -/

/-- The counts of each pipe are the numbers of slots of the table's processes that hold
its ends, and the pipes are those of which somebody holds an end. -/
structure RefCounts (k : Kernel) : Prop where
  readers : ∀ pipe, k.HasPipe pipe → k.readOpen pipe = k.holders (tableProcs k.toCore) pipe .read
  writers : ∀ pipe, k.HasPipe pipe → k.writeOpen pipe = k.holders (tableProcs k.toCore) pipe .write
  held : ∀ pipe, k.HasPipe pipe ↔
    0 < k.holders (tableProcs k.toCore) pipe .read ∨ 0 < k.holders (tableProcs k.toCore) pipe .write

theorem PipeInv.refCounts (h : PipeInv k (tableProcs k.toCore) fun _ _ => 0) : RefCounts k := by
  have hcount (pipe : ℕ) (hp : k.HasPipe pipe) (ty : FDType) (hty : ty ≠ .unused) :
      k.openCount pipe ty = k.holders (tableProcs k.toCore) pipe ty := by
    rw [h.counts pipe ty hp hty, Int.natCast_zero, add_zero]
  have hread (pipe : ℕ) (hp : k.HasPipe pipe) : k.readOpen pipe = k.holders (tableProcs k.toCore) pipe .read :=
    hcount pipe hp .read (by simp)
  have hwrite (pipe : ℕ) (hp : k.HasPipe pipe) : k.writeOpen pipe = k.holders (tableProcs k.toCore) pipe .write :=
    hcount pipe hp .write (by simp)
  have hholder (pipe : ℕ) (ty : FDType) (hpos : 0 < k.holders (tableProcs k.toCore) pipe ty) : k.HasPipe pipe := by
    obtain ⟨p, hp, j, hj, hn⟩ := entryCount_pos.mp hpos
    rcases h.rows p hp j hj with hnone | hv
    · rw [hnone] at hn
      exact absurd hn not_names_neg
    · exact hn.fdPipe ▸ hv.hasPipe
  refine ⟨hread, hwrite, fun pipe => ⟨fun hp => ?_, ?_⟩⟩
  · have hnot := h.held pipe hp
    rw [hread pipe hp, hwrite pipe hp] at hnot
    omega
  · rintro (hpos | hpos)
    · exact hholder pipe .read hpos
    · exact hholder pipe .write hpos

/-- The call keeps the counts of the pipes. -/
def Action.KeepsCounts (m : Machine) (a : Action) : Prop :=
  a.call.KeepsFds Kernel.SafeClose (m.before a) ∧ a.call.KeepsHolders (m.before a)

/-- As long as no process is killed with descriptors and no close hits a descriptor of
another pipe, the counts of the pipes agree with the descriptors held. -/
theorem pipe_refs_counted (h : boot.Reach (fun m a => a.KeepsCounts m) m) : RefCounts m.toKernel := by
  have hinv : PipeInv m.toKernel (tableProcs m.toCore) (fun _ _ => 0) ∧ TableInv m.toCore ∧
      ∃ L, RingInv m.toCore L := by
    refine h.invariant (I := fun m : Machine => PipeInv m.toKernel (tableProcs m.toCore) (fun _ _ => 0) ∧
      TableInv m.toCore ∧ ∃ L, RingInv m.toCore L) (fun m hm => ?_) ?_
    · exact ⟨boot_pipeInv hm, boot_table hm, [], boot_ring hm⟩
    · rintro m a m' ⟨hpipes, htable, hring⟩ hok hrun
      obtain ⟨lost, hafter, hkept⟩ := step_pipeInv hpipes htable hring hok.1 hrun
      rw [hkept hok.2 rfl] at hafter
      exact ⟨hafter, step_tableInv htable hrun, step_ring hring hrun⟩
  exact hinv.1.refCounts

instance (k : Kernel) (p : ℕ) : Decidable (k.HoldsNone p) := inferInstanceAs (Decidable (∀ j < rowSize, _))

instance (k : Kernel) (fd : ℤ) : Decidable (k.LastRef fd) := inferInstanceAs (Decidable (_ ∧ (∃ j < rowSize, _) ∧ _))

instance (k : Kernel) (fd : ℤ) : Decidable (k.SafeClose fd) := inferInstanceAs (Decidable (_ → _))

instance (k : Kernel) : Decidable k.Inherits := inferInstanceAs (Decidable (_ ∨ _ ∨ _))

instance (k : Kernel) : Decidable k.FindsSlot := inferInstanceAs (Decidable (_ ∨ _ ∨ ∃ i < maxProcesses, _))

instance {close : Kernel → ℤ → Prop} [∀ k fd, Decidable (close k fd)] (k : Kernel) (call : Call) :
    Decidable (call.KeepsFds close k) := by
  apply Call.casesOn (motive := fun call => Decidable (call.KeepsFds close k)) call <;>
    intros <;> dsimp only [Call.KeepsFds] <;> infer_instance

instance (k : Kernel) (call : Call) : Decidable (call.KeepsHolders k) := by
  apply Call.casesOn (motive := fun call => Decidable (call.KeepsHolders k)) call <;>
    intros <;> dsimp only [Call.KeepsHolders] <;> infer_instance

instance (m : Machine) (a : Action) : Decidable (a.KeepsCounts m) := inferInstanceAs (Decidable (_ ∧ _))

/-- A process gives its pipe to a child and closes both ends; the child exits. -/
theorem pipe_refs_counted_childExits : RefCounts (ran (fun m a => a.KeepsCounts m) initial
    [create 100, plain .tick, ⟨.createPipe, 0, [500]⟩, create 200, plain (.pipeClose 2), plain (.pipeClose 3),
      plain .tick, plain .exitProcess]).toKernel :=
  pipe_refs_counted (boot_ran (by decide +kernel))

/-- The calls that the pipes are counted over. -/
def Call.OfPipes : Call → Prop
  | .createPipe | .pipeClose _ | .createProcess _ | .exitProcess | .killProcess _ | .tick => True
  | _ => False

instance (call : Call) : Decidable call.OfPipes := by
  apply Call.casesOn (motive := fun call => Decidable call.OfPipes) call <;>
    intros <;> dsimp only [Call.OfPipes] <;> infer_instance

/-- A process kills the second child that has inherited its pipe. -/
def killHolder : List Action :=
  [create 100, plain .tick, ⟨.createPipe, 0, [500]⟩, create 200, create 300, plain (.killProcess 3)]

theorem pipe_refs_counted_killHolder : ¬∀ m, boot.Reach (fun _ a => a.call.OfPipes) m → RefCounts m.toKernel := by
  intro hall
  have hreach : boot.Reach (fun _ a => a.call.OfPipes) (ran (fun _ a => a.call.OfPipes) initial killHolder) :=
    boot_ran (by decide +kernel)
  have hpipe : (ran (fun _ a => a.call.OfPipes) initial killHolder).HasPipe 500 :=
    ⟨by decide, 2, by decide, by decide +kernel⟩
  have hcount := (hall _ hreach).readers 500 hpipe
  revert hcount
  decide +kernel

end BareKernel
