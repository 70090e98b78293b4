import BareKernel.Kernel.AnyRun
import BareKernel.Kernel.PidLaw
import BareKernel.Kernel.Steady
import BareKernel.Process.Priority

/-! The machine together with `modify_priority`, from boot on. In every run the
processes of the ring, and the one that runs, have records that are in use: only the
scheduler makes a process run, and a process whose record is freed is terminated and
out of the ring. -/

namespace BareKernel

open Function (update)
open Process Links Machine

variable {k k' k₁ : Kernel} {c c' c₁ : Core} {m m' : Machine} {call : Call} {L L' : List ℕ}
  {p q n fuel prev cur : ℕ} {pid r v : ℤ} {again : Bool}

/-- A call of the machine, or a change of a priority with the answers of the allocator. -/
inductive ManagedAction where
  | act (a : Action)
  | modifyPriority (pid newPriority : ℤ) (answers : List ℕ)

namespace Machine

def manage (m : Machine) : ManagedAction → Option Machine
  | .act a => m.step a
  | .modifyPriority pid newPriority answers =>
    (Process.modifyPriority { m.toCore with answers := answers } pid newPriority).map fun r => { m with toCore := r.2 }

/-- The machine from boot on, priorities being changed. -/
def managed : System Machine ManagedAction where
  init := Boot
  step m b m' := m.manage b = some m'

end Machine

/-! ### Who runs -/

/-- Nobody has started to run. -/
def NobodyStarts (c c' : Core) : Prop := ∀ q, c'.state q = .running → c.state q = .running

theorem NobodyStarts.refl (c : Core) : NobodyStarts c c := fun _ => id

theorem NobodyStarts.trans (h : NobodyStarts c c₁) (h' : NobodyStarts c₁ c') : NobodyStarts c c' :=
  fun q hq => h q (h' q hq)

theorem NobodyStarts.of_eq (h : c'.state = c.state) : NobodyStarts c c' := by
  intro q hq
  rwa [h] at hq

theorem NobodyStarts.mark {s : Status} (hs : s ≠ .running) (h : c'.state = update c.state p s) : NobodyStarts c c' := by
  intro q hq
  rw [h] at hq
  rcases eq_or_ne q p with rfl | hqp
  · rw [Function.update_self] at hq
    exact absurd hq hs
  · rwa [Function.update_of_ne hqp] at hq

theorem nobodyStarts_steady : Steady NobodyStarts where
  trans h h' := h.trans h'
  ring h := .of_eq (congrArg Records.state h.records)
  mark _ _ _ hs := .mark hs rfl
  family _ _ _ _ := .refl _
  memory _ _ _ _ := .refl _
  store _ _ _ _ _ _ := .refl _

theorem createProcess_starts {args : CreateArgs} (h : k.createProcess args = some (r, k')) :
    NobodyStarts k.toCore k'.toCore := by
  rcases createProcess_cases h with ⟨-, -, answers, live, rfl, -⟩ |
    ⟨p, answers, live, c, -, -, -, -, -, henter, rfl, -⟩
  · exact .refl _
  · obtain ⟨c₁, hfill, hadd⟩ := enterProcess_split henter
    obtain ⟨list, hlist⟩ := addToProcessList_eq c₁ p
    rw [hlist] at hadd
    obtain ⟨waiting, honly⟩ := openProcess_only { k with toCore := c } k.currentProcess p
    have hstate : c.state = update k.state p .ready :=
      (congrArg Records.state (addToReadyList_edit hadd).records).trans hfill.state
    have hmark : NobodyStarts k.toCore c := .mark (s := .ready) (by simp) hstate
    have hopen := nobodyStarts_steady.pipes honly
    exact hmark.trans hopen

/-- Only the scheduler makes a process run. -/
theorem call_starts (h : k.call call = some (r, k', again)) (hq : call ≠ .quitCPU) :
    NobodyStarts k.toCore k'.toCore := by
  cases call with
  | createProcess args =>
    obtain ⟨⟨w, k₁⟩, hcall, hret⟩ := Option.map_eq_some_iff.mp h
    obtain ⟨-, rfl, -⟩ : w = r ∧ k₁ = k' ∧ false = again := by simpa using hret
    exact createProcess_starts hcall
  | quitCPU => exact absurd rfl hq
  | wait =>
    rcases wait_cases h with ⟨-, rfl, -⟩ | ⟨-, -, v, c, hblock, rfl⟩
    · exact .refl _
    · have hstarts := nobodyStarts_steady.blockProcess hblock
      exact hstarts
  | _ => exact nobodyStarts_steady.call h trivial

/-! ### Who has ended -/

/-- The end of a process that is found leaves it terminated. -/
theorem removeFromProcessesList_state (h : removeFromProcessesList c p = some (r, c'))
    (hfound : foundprocess c (c.pid p) ≠ none) : c'.state p = .terminated := by
  rcases removeFromProcessesList_cases h with ⟨hnone, -⟩ | ⟨i, c₁, c₂, -, -, hrem, rfl⟩
  · exact absurd hnone hfound
  · obtain ⟨live, hfree, -⟩ := freeHoldings_holdings c₂ p
    have hstate : (freeHoldings c₂ p).state = update c₁.state p .terminated := by
      rw [hfree]
      exact congrArg Records.state (removeFromReadyList_edit hrem).records
    show (freeHoldings c₂ p).state p = .terminated
    rw [hstate, Function.update_self]

/-- A kill marks its process, whose pid is then looked up again. -/
theorem killProcess_found {i : ℕ} (h : killProcess c pid = some (r, c', again)) (hlow : 3 ≤ pid)
    (hf : foundprocess c pid = some i) : ∃ c₁ w, RingEdit (freePid c pid) c₁ ∧
      removeFromProcessesList { c₁ with state := update c₁.state (c.processesList i) .terminated } (c.processesList i) =
        some (w, c') ∧
      foundprocess { c₁ with state := update c₁.state (c.processesList i) .terminated } (c₁.pid (c.processesList i)) ≠
        none := by
  rcases killProcess_cases h with ⟨-, -, hno⟩ | ⟨-, -, j, c₁, w, hj, hrem, hremove⟩
  · rw [hno.resolve_left (not_lt.mpr hlow)] at hf
    cases hf
  obtain rfl : i = j := Option.some.inj (hf.symm.trans hj)
  have hedit := removeFromReadyList_edit hrem
  have hpids : c₁.pid = c.pid := congrArg Records.pid hedit.records
  have hsame : foundprocess { c₁ with state := update c₁.state (c.processesList i) .terminated } pid =
      foundprocess c pid := foundprocess_congr hedit.processesList hpids
  have hpid : c₁.pid (c.processesList i) = pid := by
    rw [hpids]
    exact (foundprocess_some hf).2.2
  refine ⟨c₁, w, hedit, hremove, ?_⟩
  rw [hpid, hsame, hf]
  simp

theorem killProcess_state {i : ℕ} (h : killProcess c pid = some (r, c', again)) (hlow : 3 ≤ pid)
    (hf : foundprocess c pid = some i) : c'.state (c.processesList i) = .terminated := by
  obtain ⟨c₁, w, -, hremove, hfound⟩ := killProcess_found h hlow hf
  exact removeFromProcessesList_state hremove hfound

/-! ### Records in use -/

theorem leaveFamily_live (c : Core) (p : ℕ) : (leaveFamily c p).live = c.live := by
  obtain ⟨children, lengths, flags, hfam⟩ := leaveFamily_eq c p
  rw [hfam]

theorem mem_erase_or (hq : q ∈ c.live .record) (hlive : c'.live .record = (c.live .record).erase p)
    (hend : c'.state p = .terminated) : q ∈ c'.live .record ∨ c'.state q = .terminated := by
  rcases eq_or_ne q p with rfl | hqp
  · exact Or.inr hend
  · rw [hlive]
    exact Or.inl ((List.mem_erase_of_ne hqp).mpr hq)

/-- A record stays in use, or its process is terminated; new processes have records. -/
theorem call_records (h : k.call call = some (r, k', again)) :
    (∀ q ∈ k.live .record, q ∈ k'.live .record ∨ k'.state q = .terminated) ∧
      ∀ q, call.births k q → q ∈ k'.live .record := by
  have htable := call_table h
  have hsame (hs : SameTable k.toCore k'.toCore) :
      ∀ q ∈ k.live .record, q ∈ k'.live .record ∨ k'.state q = .terminated := by
    intro q hq
    rw [hs.records]
    exact Or.inl hq
  cases call with
  | createProcess args =>
    rcases htable with ⟨hs, hno⟩ | ⟨p, hp, -, hs⟩
    · exact ⟨hsame hs, fun q hq => absurd hq (hno q)⟩
    · have hlive : k'.live .record = p :: k.live .record := by
        rw [hs.records, (enroll_pids _ p args.isForeground).2.2, addRecord_records]
      rw [hlive]
      exact ⟨fun q hq => Or.inl (List.mem_cons_of_mem p hq), fun q hq => by
        rw [hq.2.2.trans hp.2.2.symm]
        exact List.mem_cons_self⟩
  | killProcess pid =>
    refine ⟨fun q hq => ?_, fun q hq => hq.elim⟩
    obtain ⟨⟨w, c, b⟩, hcall, hret⟩ := Option.map_eq_some_iff.mp h
    obtain ⟨-, rfl, -⟩ : w = r ∧ _ = k' ∧ b = again := by simpa using hret
    rcases htable with ⟨hs, -⟩ | ⟨hlow, i, hi, hs⟩
    · exact hsame hs q hq
    · have hlive : c.live .record = (k.live .record).erase (k.processesList i) := by
        rw [hs.records, clearSlot_records, leaveFamily_live]
        rfl
      exact mem_erase_or hq hlive (killProcess_state hcall hlow hi)
  | exitProcess =>
    refine ⟨fun q hq => ?_, fun q hq => hq.elim⟩
    obtain ⟨k₁, hcall, hret⟩ := Option.map_eq_some_iff.mp h
    obtain ⟨-, rfl, -⟩ : 0 = r ∧ k₁ = k' ∧ true = again := by simpa using hret
    obtain ⟨c₁, hs, ⟨-, rfl⟩ | ⟨i, hi, rfl⟩⟩ := htable
    · rw [hs.records]
      exact Or.inl hq
    · have hlive : k₁.live .record = (k.live .record).erase k.currentProcess := by
        rw [hs.records, clearSlot_records, leaveFamily_live]
      obtain ⟨w, c, k₂, hremove, honly, rfl⟩ := exitProcess_cases hcall
      obtain ⟨answers, live, hcore, -⟩ := honly.core
      have hend : k₂.state k.currentProcess = .terminated := by
        rw [hcore]
        have hgone := removeFromProcessesList_state hremove (by rw [hi]; simp)
        exact hgone
      exact mem_erase_or hq hlive hend
  | _ => exact ⟨hsame htable, fun q hq => hq.elim⟩

/-- The processes of the ring, and the one that runs, have records in use. -/
structure Residents (c : Core) (L : List ℕ) : Prop where
  ring : RingInv c L
  procs : ∀ q ∈ ringProcs c L, q ∈ c.live .record
  current : c.state c.currentProcess = .running → c.currentProcess ∈ c.live .record

theorem Residents.congr (h : Residents c L) (hring : RingInv c' L) (hprocs : ringProcs c' L = ringProcs c L)
    (hs : c'.state = c.state) (hcur : c'.currentProcess = c.currentProcess) (hlive : c'.live .record = c.live .record) :
    Residents c' L := by
  refine ⟨hring, fun q hq => ?_, ?_⟩
  · rw [hlive]
    exact h.procs q (hprocs ▸ hq)
  · rw [hs, hcur, hlive]
    exact h.current

theorem Residents.scheduler (h : Residents c L) {sp sp' : StackPtr} (hrun : Process.scheduler c sp = some (sp', c')) :
    Residents c' L := by
  by_cases hne : c.readyList = 0
  · have hself : Process.scheduler c sp = some (sp, c) := by rw [Process.scheduler, if_pos hne]
    obtain ⟨-, rfl⟩ : sp = sp' ∧ c = c' := by simpa using hself.symm.trans hrun
    exact h
  · obtain ⟨c₁, hsched, h₁, hinfo, -, hdisp, hcur, -⟩ := h.ring.scheduler hne sp
    obtain ⟨-, rfl⟩ : _ = sp' ∧ c₁ = c' := by simpa using hsched.symm.trans hrun
    have hprocs : ringProcs c₁ L = ringProcs c L := by rw [ringProcs, ringProcs, hinfo]
    refine ⟨h₁, fun q hq => ?_, fun _ => ?_⟩
    · rw [hdisp.live]
      exact h.procs q (hprocs ▸ hq)
    · rw [hdisp.live]
      rcases hcur with ⟨hin, -⟩ | ⟨hcur, -, hrunning⟩
      · exact h.procs _ hin
      · rw [hcur]
        exact h.current hrunning

theorem Residents.quitCPU (h : Residents c L) (hrun : quitCPU c = some (r, c')) : ∃ L', Residents c' L' := by
  rcases quitCPU_handOver h.ring hrun with ⟨-, rfl⟩ | ⟨hrunning, L', hover, -⟩
  · exact ⟨L, h⟩
  · have hprocs : ∀ q ∈ ringProcs c' L', q ∈ c'.live .record := by
      intro q hq
      rw [(quitCPU_quiet hrun).records]
      rcases (hover.procs q).mp hq with hin | rfl
      · exact h.procs q hin
      · exact h.current hrunning
    exact ⟨L', hover.ring, hprocs, fun _ => hprocs _ hover.current⟩

theorem Residents.after_call (h : Residents k.toCore L) (ht : TableInv k.toCore)
    (hrun : k.call call = some (r, k', again)) :
    ∃ L', Residents k'.toCore L' := by
  by_cases hq : call = .quitCPU
  · subst hq
    obtain ⟨⟨w, c⟩, hcall, hret⟩ := Option.map_eq_some_iff.mp hrun
    obtain ⟨-, rfl, -⟩ : w = r ∧ _ = k' ∧ false = again := by simpa using hret
    exact h.quitCPU hcall
  · obtain ⟨L', h'⟩ := call_shift h.ring hq hrun
    obtain ⟨hstay, hborn⟩ := call_records hrun
    refine ⟨L', h'.ring, fun q hq => ?_, fun hcur => ?_⟩
    · -- who is in the ring has not ended
      have hlive : q ∈ k.live .record ∨ call.births k q := by
        rcases h'.procs q hq with hin | hin | hb
        · exact Or.inl (h.procs q hin)
        · exact Or.inl (ht.records q hin)
        · exact Or.inr hb
      rcases hlive with hlive | hb
      · refine (hstay q hlive).resolve_right fun hend => ?_
        rcases (h'.ring.procs q hq).2 with hs | ⟨-, hs⟩ <;> simp [hend] at hs
      · exact hborn q hb
    · have hcur' := hcur
      rw [h'.currentProcess] at hcur' ⊢
      refine (hstay _ (h.current (call_starts hrun hq _ hcur'))).resolve_right fun hend => ?_
      rw [hend] at hcur'
      cases hcur'

theorem Residents.step {a : Action} (h : Residents m.toCore L) (ht : TableInv m.toCore) (hrun : m.step a = some m') :
    ∃ L', Residents m'.toCore L' := by
  obtain ⟨w, k, again, hcall, hcases⟩ := step_cases hrun
  have h₀ : Residents { m.toCore with answers := a.answers } L :=
    h.congr (h.ring.congr rfl rfl rfl rfl) rfl rfl rfl rfl
  obtain ⟨L', h'⟩ := h₀.after_call (ht.supply (a := a)) hcall
  rcases hcases with ⟨-, rfl⟩ | ⟨-, cpu, c, hsched, rfl⟩
  · exact ⟨L', h'⟩
  · exact ⟨L', h'.scheduler hsched⟩

/-- The table and the ring in every run, priorities being changed or not. -/
theorem Machine.managed_invariant {ok : Machine → ManagedAction → Prop} (h : managed.Reach ok m) :
    TableInv m.toCore ∧ ∃ L, Residents m.toCore L := by
  refine h.invariant (I := fun m => TableInv m.toCore ∧ ∃ L, Residents m.toCore L) (fun m hm => ?_)
    fun m b m' hI _ hrun => ?_
  · refine ⟨boot_table hm, [], boot_ring hm, fun q hq => absurd hq (by simp [ringProcs]), fun hs => ?_⟩
    rw [hm.currentProcess, hm.null] at hs
    cases hs
  · obtain ⟨ht, L, hL⟩ := hI
    cases b with
    | act a => exact ⟨step_tableInv ht hrun, hL.step ht hrun⟩
    | modifyPriority pid v answers =>
      obtain ⟨⟨r, c⟩, hcall, rfl⟩ := Option.map_eq_some_iff.mp hrun
      have hquiet := modifyPriority_quiet hcall
      have h₀ : RingInv { m.toCore with answers := answers } L := hL.ring.congr rfl rfl rfl rfl
      obtain ⟨hring, hprocs, hcur, hs⟩ := modifyPriority_ring h₀ hcall
      have hsame : SameTable m.toCore { m.toCore with answers := answers } := ⟨rfl, rfl, rfl, rfl, rfl, rfl, rfl, rfl⟩
      exact ⟨ht.congr (hsame.trans hquiet.toSameTable), L, hL.congr hring hprocs hs hcur hquiet.records⟩

end BareKernel
