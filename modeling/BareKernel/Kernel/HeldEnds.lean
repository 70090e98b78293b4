import BareKernel.Kernel.PidLaw
import BareKernel.Kernel.PipeFrame

/-! The ends of pipes that a process holds. It keeps them through the calls of the
others and loses one only when it closes it or is ended itself; a new process starts
with those of its creator. -/

namespace BareKernel

open Function (update)
open Process Links Machine

/-- A slot of the process, which is in the table, holds that end of the pipe. -/
structure Kernel.HasEnd (k : Kernel) (p pipe : ℕ) (ty : FDType) (fd : ℤ) : Prop where
  inTable : InTable k.toCore p
  slot : ∃ j < rowSize, k.fdTable p j = fd
  names : k.Names pipe ty fd

/-- The table, the ring and the descriptors are in order. -/
structure Wired (k : Kernel) : Prop where
  table : TableInv k.toCore
  ring : ∃ L, RingInv k.toCore L
  pipes : ∃ lost, PipeInv k (tableProcs k.toCore) lost
  pairs : FdPairs k

variable {k k' k₁ : Kernel} {c c' : Core} {m m' : Machine} {a : Action} {call : Call} {p q i j n pipe parent : ℕ}
  {ty : FDType} {fd v pid r : ℤ} {again : Bool}

/-! ### The entries -/

/-- The entries in use are among those that were, for the same ends. -/
def NoNewEntry (k k' : Kernel) : Prop :=
  ∀ fd, k'.inUse fd = true → k.inUse fd = true ∧ k'.fdPipe fd = k.fdPipe fd ∧ k'.fdType fd = k.fdType fd

theorem NoNewEntry.trans (h : NoNewEntry k k₁) (h' : NoNewEntry k₁ k') : NoNewEntry k k' := by
  intro fd hfd
  obtain ⟨hfd₁, hpipe', htype'⟩ := h' fd hfd
  obtain ⟨hfd₀, hpipe, htype⟩ := h fd hfd₁
  exact ⟨hfd₀, hpipe'.trans hpipe, htype'.trans htype⟩

theorem SameEntries.noNewEntry (h : SameEntries k k') : NoNewEntry k k' := by
  intro fd hfd
  rw [h.inUse] at hfd
  exact ⟨hfd, h.fdPipe fd hfd, h.fdType fd hfd⟩

theorem NoNewEntry.of_eq (h : k'.toPipes = k.toPipes) (hl : k'.live .pipe = k.live .pipe) : NoNewEntry k k' :=
  (SameFds.of_eq h hl).toSameEntries.noNewEntry

theorem pipeDestroy_noNewEntry (k : Kernel) (fd : ℤ) : NoNewEntry k (k.pipeDestroy fd) := by
  intro x hx
  have hx' : update (update k.inUse fd false) (fd - 1) false x = true := hx
  have hbelow : x ≠ fd - 1 := by
    rintro rfl
    rw [Function.update_self] at hx'
    cases hx'
  have hself : x ≠ fd := by
    rintro rfl
    rw [Function.update_of_ne hbelow, Function.update_self] at hx'
    cases hx'
  obtain ⟨huse, hpipe, htype⟩ := pipeDestroy_entry (k := k) hself hbelow
  exact ⟨huse ▸ hx, hpipe, htype⟩

theorem pipeClose_noNewEntry (k : Kernel) (fd : ℤ) : NoNewEntry k (k.pipeClose fd).2 := by
  rcases pipeClose_cases k fd with ⟨hsame, -⟩ | ⟨i, -, -, -, -, hclose⟩
  · rw [hsame]
    exact .of_eq rfl rfl
  · have hdrop := (dropFd_entries k fd i).noNewEntry
    rw [hclose]
    split
    · exact hdrop.trans (pipeDestroy_noNewEntry _ fd)
    · exact hdrop

theorem closeFirst_noNewEntry (k : Kernel) (n : ℕ) : NoNewEntry k (k.closeFirst n) := by
  induction n with
  | zero => exact .of_eq rfl rfl
  | succ n ih =>
    rw [closeFirst_succ]
    exact ih.trans (pipeClose_noNewEntry _ _)

/-- An entry that is in use before and after a call is for the same end. -/
theorem call_entry (h : Wired k) (hrun : k.call call = some (r, k', again)) (hfd : k.inUse fd = true)
    (hfd' : k'.inUse fd = true) : k'.fdPipe fd = k.fdPipe fd ∧ k'.fdType fd = k.fdType fd := by
  have hold (hno : NoNewEntry k k') : k'.fdPipe fd = k.fdPipe fd ∧ k'.fdType fd = k.fdType fd := (hno fd hfd').2
  obtain ⟨lost, hinv⟩ := h.pipes
  cases call with
  | createProcess args =>
    obtain ⟨⟨v, k₁⟩, hcall, hret⟩ := Option.map_eq_some_iff.mp hrun
    obtain ⟨-, rfl, -⟩ : v = r ∧ k₁ = k' ∧ false = again := by simpa using hret
    exact hold (createProcess_entries hcall).noNewEntry
  | killProcess pid =>
    obtain ⟨⟨v, c, b⟩, hcall, hret⟩ := Option.map_eq_some_iff.mp hrun
    obtain ⟨-, rfl, -⟩ : v = r ∧ _ = k' ∧ b = again := by simpa using hret
    exact hold (.of_eq rfl (killProcess_pipes hcall))
  | exitProcess =>
    obtain ⟨k₁, hcall, hret⟩ := Option.map_eq_some_iff.mp hrun
    obtain ⟨-, rfl, -⟩ : 0 = r ∧ k₁ = k' ∧ true = again := by simpa using hret
    have hpipes := exitProcess_pipes h.ring hcall
    exact hold ((closeFirst_noNewEntry k rowSize).trans (.of_eq hpipes.toPipes hpipes.live))
  | createPipe =>
    obtain ⟨-, rfl, -⟩ : _ = r ∧ k.createPipe.2 = k' ∧ false = again := by simpa [Kernel.call] using hrun
    rcases createPipe_cases k with ⟨-, hsame⟩ | ⟨i, pipe, n, s, t, -, hm⟩
    · exact hold (hsame hinv.live).toSameEntries.noNewEntry
    · obtain ⟨hn, hn'⟩ := hm.ne_of_inUse hfd
      exact (hm.entry hn hn').2
  | pipeClose fd =>
    obtain ⟨-, rfl, -⟩ : _ = r ∧ (k.pipeClose fd).2 = k' ∧ false = again := by simpa [Kernel.call] using hrun
    exact hold (pipeClose_noNewEntry k fd)
  | _ =>
    have hstill := call_still hrun trivial
    exact hold (.of_eq hstill.toPipes hstill.quiet.pipes)

/-! ### The slots -/

/-- An access puts its descriptor into a free slot. -/
theorem pipeAccses_slot (hj : k.fdTable p j ≠ -1) : (k.pipeAccses pid fd).2.fdTable p j = k.fdTable p j := by
  rcases pipeAccses_cases k pid fd with hsame | ⟨-, i, rest, hs, hset⟩
  · rw [hsame]
  · obtain ⟨-, hfree⟩ := freeSlots_cons hs
    rw [hset]
    show update k.fdTable (getProcessByPid k.toCore pid) _ p j = _
    by_cases hp : p = getProcessByPid k.toCore pid
    · subst hp
      have hji : j ≠ i := by
        rintro rfl
        exact hj hfree
      rw [Function.update_self, Function.update_of_ne hji]
    · rw [Function.update_of_ne hp]

theorem openProcess_slot (hp : p ≠ q) (hj : k.fdTable p j ≠ -1) :
    (k.openProcess parent q).fdTable p j = k.fdTable p j := by
  refine openProcess_induction (R := fun k' => k'.fdTable p j = k.fdTable p j) parent q ?_ (fun k₁ fd h => ?_)
    fun k₁ waiting h => h
  · exact congrFun (Function.update_of_ne hp ..) j
  · rw [pipeAccses_slot (by rwa [h]), h]

/-- A close touches slots of the caller only, and of these one with the descriptor. -/
theorem pipeClose_slot (h : p = k.currentProcess → k.fdTable p j ≠ fd) :
    (k.pipeClose fd).2.fdTable p j = k.fdTable p j := by
  rcases pipeClose_cases k fd with ⟨hsame, -⟩ | ⟨i, -, -, hi, -, hclose⟩
  · rw [hsame]
  · have hdrop : (k.dropFd fd i).fdTable p j = k.fdTable p j := by
      show update k.fdTable k.currentProcess (update (k.fdTable k.currentProcess) i (-1)) p j = _
      by_cases hp : p = k.currentProcess
      · have hji : j ≠ i := by
          rintro rfl
          exact h hp (hp ▸ hi)
        rw [hp, Function.update_self, Function.update_of_ne hji]
      · rw [Function.update_of_ne hp]
    rw [hclose]
    split
    · exact hdrop
    · exact hdrop

theorem closeFirst_slot (hp : p ≠ k.currentProcess) (n : ℕ) : (k.closeFirst n).fdTable p j = k.fdTable p j := by
  induction n with
  | zero => rfl
  | succ n ih =>
    rw [closeFirst_succ, pipeClose_slot, ih]
    intro he
    rw [closeFirst_currentProcess] at he
    exact absurd he hp

/-- A process of the table that is not ended keeps what it does not close. -/
theorem call_slot (h : Wired k) (hrun : k.call call = some (r, k', again)) (hp : InTable k.toCore p)
    (hends : ¬call.ends k p) (hj : k.fdTable p j ≠ -1)
    (hclose : call = .pipeClose (k.fdTable p j) → p ≠ k.currentProcess) :
    k'.fdTable p j = k.fdTable p j := by
  cases call with
  | createProcess args =>
    obtain ⟨⟨v, k₁⟩, hcall, hret⟩ := Option.map_eq_some_iff.mp hrun
    obtain ⟨-, rfl, -⟩ : v = r ∧ k₁ = k' ∧ false = again := by simpa using hret
    rcases createProcess_cases hcall with ⟨-, -, answers, live, rfl, -⟩ |
      ⟨q, answers, live, c, -, hfresh, -, -, -, -, rfl, -⟩
    · rfl
    · have hpq : p ≠ q := by
        rintro rfl
        exact hfresh (h.table.records p hp)
      exact openProcess_slot (k := { k with toCore := c }) hpq hj
  | killProcess pid =>
    obtain ⟨⟨v, c, b⟩, hcall, hret⟩ := Option.map_eq_some_iff.mp hrun
    obtain ⟨-, rfl, -⟩ : v = r ∧ _ = k' ∧ b = again := by simpa using hret
    rfl
  | exitProcess =>
    obtain ⟨k₁, hcall, hret⟩ := Option.map_eq_some_iff.mp hrun
    obtain ⟨-, rfl, -⟩ : 0 = r ∧ k₁ = k' ∧ true = again := by simpa using hret
    have hcur : p ≠ k.currentProcess := by
      rintro rfl
      exact hends ⟨hp, rfl⟩
    rw [(exitProcess_pipes h.ring hcall).toPipes, closeFirst_slot hcur]
  | createPipe =>
    obtain ⟨-, rfl, -⟩ : _ = r ∧ k.createPipe.2 = k' ∧ false = again := by simpa [Kernel.call] using hrun
    obtain ⟨lost, hinv⟩ := h.pipes
    rcases createPipe_cases k with ⟨-, hsame⟩ | ⟨i, pipe, n, s, t, -, hm⟩
    · rw [(hsame hinv.live).fdTable]
    · rw [hm.fdTable]
      by_cases hcur : p = k.currentProcess
      · subst hcur
        have hjs : j ≠ s := by
          rintro rfl
          exact hj hm.first.2
        have hjt : j ≠ t := by
          rintro rfl
          exact hj hm.second.2.2
        rw [Function.update_self, Function.update_of_ne hjt, Function.update_of_ne hjs]
      · rw [Function.update_of_ne hcur]
  | pipeClose fd =>
    obtain ⟨-, rfl, -⟩ : _ = r ∧ (k.pipeClose fd).2 = k' ∧ false = again := by simpa [Kernel.call] using hrun
    refine pipeClose_slot fun hcur he => ?_
    subst he
    exact hclose rfl hcur
  | _ => rw [(call_still hrun trivial).toPipes]

/-! ### The steps of the machine -/

/-- A process of the table that is not ended stays there. -/
theorem call_inTable {close : Kernel → ℤ → Prop} (h : TableInv k.toCore) (hok : call.KeepsFds close k)
    (hrun : k.call call = some (r, k', again)) (hp : InTable k.toCore p) (hends : ¬call.ends k p) :
    InTable k'.toCore p := by
  have hst := call_table hrun
  cases call with
  | createProcess args =>
    rcases hst with ⟨hs, -⟩ | ⟨q, hq, -, hs⟩
    · exact hs.inTable.mpr hp
    · refine hs.inTable.mpr ?_
      rcases enroll_slots (addRecord k.toCore q) q args.isForeground with ⟨i, hi, hfree, hslot⟩ | ⟨-, hslot⟩
      · exact (inTable_set (c := addRecord k.toCore q) hi hfree hq.2.1 hslot).mpr (Or.inl hp)
      · exact (inTable_congr hslot).mpr hp
  | killProcess pid =>
    rcases hst.kill_cases h with ⟨hs, -⟩ | ⟨hlow, i, hf, hended⟩
    · exact hs.inTable.mpr hp
    · refine (hended.inTable p).mpr ⟨hp, ?_⟩
      rintro rfl
      have hget := getProcessByPid_some hf
      exact hends ⟨⟨hlow, by rwa [hget]⟩, hget.symm⟩
  | exitProcess =>
    rcases hst.exit_cases h with ⟨-, hs⟩ | ⟨i, hf, hended⟩
    · exact hs.inTable.mpr hp
    · have hself := h.pids.inj _ _ hended.owner hok.1 hended.same
      refine (hended.inTable p).mpr ⟨hp, ?_⟩
      rw [hself]
      rintro rfl
      exact hends ⟨hp, rfl⟩
  | _ => exact (SameTable.inTable hst).mpr hp

/-- The scheduler behind a call leaves table and descriptors alone. -/
theorem step_after (hrun : m.step a = some m') : ∃ r k again, (m.before a).call a.call = some (r, k, again) ∧
    SameFds k m'.toKernel ∧ SameTable k.toCore m'.toCore := by
  obtain ⟨r, k, again, hcall, ⟨-, rfl⟩ | ⟨-, cpu, c, hsched, rfl⟩⟩ := step_cases hrun
  · exact ⟨r, k, again, hcall, .of_eq rfl rfl, .refl _⟩
  · have hquiet := scheduler_quiet hsched
    exact ⟨r, k, again, hcall, .of_eq rfl hquiet.pipes, hquiet.toSameTable⟩

theorem Wired.congr (h : Wired k) (hfds : SameFds k k') (htable : SameTable k.toCore k'.toCore)
    (hring : ∃ L, RingInv k'.toCore L) : Wired k' := by
  obtain ⟨lost, hinv⟩ := h.pipes
  refine ⟨h.table.congr htable, hring, ⟨lost, ?_⟩, h.pairs.congr hfds.toSameEntries⟩
  rw [tableProcs_congr htable.processesList]
  exact hinv.congr hfds

theorem Wired.before (h : Wired m.toKernel) (a : Action) : Wired (m.before a) := by
  obtain ⟨L, hL⟩ := h.ring
  exact h.congr (.of_eq rfl rfl) ⟨rfl, rfl, rfl, rfl, rfl, rfl, rfl, rfl⟩ ⟨L, hL.congr rfl rfl rfl rfl⟩

theorem Wired.step (h : Wired m.toKernel) (hok : a.WritesLast m) (hrun : m.step a = some m') : Wired m'.toKernel := by
  obtain ⟨lost, hinv⟩ := h.pipes
  obtain ⟨lost', hbefore⟩ := (h.before a).pipes
  have hsafe := (h.before a).pairs.safeClose hbefore hok
  obtain ⟨lost₁, hafter, -⟩ := step_pipeInv hinv h.table h.ring hsafe hrun
  exact ⟨step_tableInv h.table hrun, step_ring h.ring hrun, ⟨lost₁, hafter⟩, step_pairs h.pairs hinv h.ring hok hrun⟩

theorem Machine.Boot.wired (h : Boot m) : Wired m.toKernel := by
  refine ⟨boot_table h, ⟨[], boot_ring h⟩, ⟨_, boot_pipeInv h⟩, ⟨fun fd hfd => ?_, fun pipe hp => ?_⟩⟩
  · have hunused := h.inUse fd
    rw [hfd.inUse] at hunused
    cases hunused
  · obtain ⟨h0, i, -, hi⟩ := hp
    exact absurd (hi.symm.trans (h.pipes i)) h0

/-- What a slot holds is in use. -/
theorem Wired.validFd (h : Wired k) (hp : InTable k.toCore p) (hj : j < rowSize) (hfd : 0 ≤ k.fdTable p j) :
    k.ValidFd (k.fdTable p j) := by
  obtain ⟨lost, hinv⟩ := h.pipes
  exact (hinv.rows p (mem_tableProcs.mpr hp) j hj).resolve_left (by omega)

namespace Kernel.HasEnd

theorem congr (h : k.HasEnd p pipe ty fd) (hfds : SameFds k k') (htable : SameTable k.toCore k'.toCore) :
    k'.HasEnd p pipe ty fd :=
  ⟨htable.inTable.mpr h.inTable, hfds.fdTable ▸ h.slot, hfds.toSameEntries.names.mpr h.names⟩

/-- A process that is not ended keeps an end that it does not close. -/
theorem step (hp : m.HasEnd p pipe ty fd) (h : Wired m.toKernel) (hok : a.WritesLast m) (hrun : m.step a = some m')
    (hends : ¬a.call.ends (m.before a) p) (hclose : a.call = .pipeClose fd → p ≠ m.currentProcess) :
    m'.HasEnd p pipe ty fd := by
  have h' := h.step hok hrun
  obtain ⟨r, k, again, hcall, hfds, htable⟩ := step_after hrun
  have hin := htable.inTable.mpr (call_inTable (h.before a).table hok hcall hp.inTable hends)
  obtain ⟨j, hj, hslot⟩ := hp.slot
  have hlow := hp.names.low
  have hrow : m'.fdTable p j = fd := by
    have hkept := call_slot (j := j) (h.before a) hcall hp.inTable hends (by show m.fdTable p j ≠ -1; omega)
      (by rw [show (m.before a).fdTable p j = fd from hslot]; exact hclose)
    rw [hfds.fdTable, hkept]
    exact hslot
  have hvalid : m'.ValidFd fd := hrow ▸ h'.validFd hin hj (by rw [hrow]; exact hlow)
  have hk : k.inUse fd = true := hfds.inUse ▸ hvalid.inUse
  obtain ⟨hpipe, htype⟩ := call_entry (h.before a) hcall hp.names.inUse hk
  refine ⟨hin, ⟨j, hj, hrow⟩, hvalid.low, hvalid.high, hvalid.inUse, ?_, ?_⟩
  · rw [hfds.fdPipe fd hk, hpipe]
    exact hp.names.fdPipe
  · rw [hfds.fdType fd hk, htype]
    exact hp.names.fdType

end Kernel.HasEnd

/-! ### A new process -/

theorem freeSlots_le {rest : List ℕ} (h : k.freeSlots p = i :: rest) (hj : j < rowSize) (hfree : k.fdTable p j = -1) :
    i ≤ j := by
  have hmem : j ∈ k.freeSlots p := by
    unfold Kernel.freeSlots
    rw [List.mem_filter, List.mem_range]
    exact ⟨hj, by simpa using hfree⟩
  have hsorted : (k.freeSlots p).Pairwise (· < ·) := List.pairwise_lt_range.filter _
  rw [h] at hmem hsorted
  rcases List.mem_cons.mp hmem with rfl | hrest
  · exact le_rfl
  · exact (List.rel_of_pairwise_cons hsorted hrest).le

/-- An access takes the first free slot. -/
theorem pipeAccses_fdTable {rest : List ℕ} (fd : ℤ) (hs : k.freeSlots (getProcessByPid k.toCore pid) = i :: rest) :
    (k.pipeAccses pid fd).2.fdTable = if (maxFds : ℤ) < fd ∨ fd < 0 then k.fdTable
      else update k.fdTable (getProcessByPid k.toCore pid)
        (update (k.fdTable (getProcessByPid k.toCore pid)) i fd) := by
  unfold Kernel.pipeAccses
  split
  · rfl
  · dsimp only
    rw [hs]

/-- The first `n` slots of the parent have been handed down, into slots before `n`. -/
structure Inherited (k₀ k : Kernel) (u q n : ℕ) : Prop where
  toCore : k.toCore = k₀.toCore
  parent : k.fdTable u = k₀.fdTable u
  free : ∀ j < rowSize, n ≤ j → k.fdTable q j = -1
  passed : ∀ i < n, 0 ≤ k₀.fdTable u i → k₀.fdTable u i ≤ maxFds → ∃ j < rowSize, k.fdTable q j = k₀.fdTable u i

/-- One more slot of the parent is handed down. -/
theorem Inherited.next {k₀ : Kernel} (h : Inherited k₀ k parent q n) (hn : n < rowSize) (hpq : parent ≠ q)
    (hget : getProcessByPid k₀.toCore (k₀.pid q) = q) :
    Inherited k₀ (k.pipeAccses (k.pid q) (k.fdTable parent n)).2 parent q (n + 1) := by
  have hget' : getProcessByPid k.toCore (k.pid q) = q := by
    rw [h.toCore]
    exact hget
  have hfree := h.free n hn le_rfl
  obtain ⟨i, rest, hs⟩ : ∃ i rest, k.freeSlots q = i :: rest := by
    apply List.exists_cons_of_ne_nil
    apply List.ne_nil_of_mem (a := n)
    unfold Kernel.freeSlots
    rw [List.mem_filter, List.mem_range]
    exact ⟨hn, by simpa using hfree⟩
  have hin := freeSlots_le hs hn hfree
  have hi := freeSlots_cons hs
  have htable := pipeAccses_fdTable (k.fdTable parent n) (by rw [hget']; exact hs)
  rw [hget', h.parent] at htable
  refine ⟨(pipeAccses_toCore k _ _).trans h.toCore, ?_, ?_, ?_⟩
  all_goals
    rw [h.parent, htable]
  · split
    · exact h.parent
    · exact (Function.update_of_ne hpq ..).trans h.parent
  · intro j hj hle
    split
    · exact h.free j hj (by omega)
    · rw [Function.update_self, Function.update_of_ne (by omega)]
      exact h.free j hj (by omega)
  · intro l hl hlow hhigh
    obtain hlt | rfl := Nat.lt_succ_iff_lt_or_eq.mp hl
    · obtain ⟨j, hj, hslot⟩ := h.passed l hlt hlow hhigh
      refine ⟨j, hj, ?_⟩
      split
      · exact hslot
      · have hji : j ≠ i := by
          rintro rfl
          omega
        rw [Function.update_self, Function.update_of_ne hji, hslot]
    · refine ⟨i, hi.1, ?_⟩
      rw [if_neg (by omega), Function.update_self, Function.update_self]

/-- A new process that the table knows gets all descriptors of its parent. -/
theorem openProcess_inherits (hpq : parent ≠ q) (h0 : parent ≠ 0) (hget : getProcessByPid k.toCore (k.pid q) = q)
    (hi : i < rowSize) (hlow : 0 ≤ k.fdTable parent i) (hhigh : k.fdTable parent i ≤ maxFds) :
    ∃ j < rowSize, (k.openProcess parent q).fdTable q j = k.fdTable parent i := by
  set k₀ : Kernel := { k with fdTable := update k.fdTable q fun _ => -1 }
  have hrow : k₀.fdTable parent = k.fdTable parent := Function.update_of_ne hpq ..
  have hpass (n : ℕ) (hn : n ≤ rowSize) : Inherited k₀
      ((List.range n).foldl (fun k i => (k.pipeAccses (k.pid q) (k.fdTable parent i)).2) k₀) parent q n := by
    induction n with
    | zero =>
      refine ⟨rfl, rfl, fun j _ _ => ?_, fun i hi => absurd hi (Nat.not_lt_zero i)⟩
      show update k.fdTable q (fun _ => -1) q j = -1
      rw [Function.update_self]
    | succ n ih =>
      rw [List.range_succ, List.foldl_append]
      exact (ih (by omega)).next (by omega) hpq hget
  have hall := hpass (maxBuff * 2) le_rfl
  obtain ⟨k₁, hk₁, hopen⟩ := ((openProcess_cases k parent q).resolve_left fun h => h0 h.1).2
  rw [hk₁] at hall
  rw [hopen]
  rw [← hrow] at hlow hhigh ⊢
  exact hall.passed i hi hlow hhigh

/-- A process that finds a slot of the table starts with the ends that its creator holds. -/
theorem createProcess_hasEnd {args : CreateArgs} (h : TableInv k.toCore)
    (hp : k.HasEnd k.currentProcess pipe ty fd) (hslot : ∃ i < maxProcesses, k.processesList i = 0)
    (hrun : k.createProcess args = some (r, k')) (hq : NewRecord k.toCore q) :
    k'.HasEnd q pipe ty fd ∧ r = k'.pid q ∧ ¬InTable k.toCore q := by
  rcases createProcess_cases hrun with ⟨-, hnobody, -⟩ |
    ⟨p, answers, live, c, h0, hfresh, hnew, hrecord, hlive, henter, rfl, hr⟩
  · rw [hnobody] at hq
    exact hq.elim
  · obtain rfl : q = p := by rwa [hnew] at hq
    have hquiet := enterProcess_record hrecord (hlive .pipe (by simp) (by simp)) henter
    have hc : TableInv c := (h.enroll h0 hfresh args.isForeground).congr hquiet.toSameTable
    have hnotin : ¬InTable k.toCore q := fun hin => hfresh (h.records q hin)
    have hin : InTable c q := by
      obtain ⟨j, hj, hzero⟩ := hslot
      rcases enroll_slots (addRecord k.toCore q) q args.isForeground with ⟨i, hi, hfree, hset⟩ | ⟨hfull, -⟩
      · exact (inTable_set (c := addRecord k.toCore q) hi hfree h0 (hquiet.processesList.trans hset)).mpr (Or.inr rfl)
      · exact absurd hzero (hfull j hj)
    have hne : k.currentProcess ≠ q := fun he => hnotin (he ▸ hp.inTable)
    have hget : getProcessByPid c (c.pid q) = q := hc.pids.getProcessByPid hin
    obtain ⟨waiting, honly⟩ := openProcess_only { k with toCore := c } k.currentProcess q
    obtain ⟨i, hi, hfd⟩ := hp.slot
    have hlow := hp.names.low
    have hhigh := hp.names.high
    obtain ⟨j, hj, hpassed⟩ := openProcess_inherits (k := { k with toCore := c }) hne hp.inTable.1 hget hi
      (by show 0 ≤ k.fdTable k.currentProcess i; omega) (by show k.fdTable k.currentProcess i ≤ maxFds; omega)
    have hcore : SameFds k { k with toCore := c } :=
      .of_eq rfl ((enterProcess_pipes henter).trans (hlive .pipe (by simp) (by simp)))
    refine ⟨⟨honly.sameTable.inTable.mpr hin, ⟨j, hj, hpassed.trans hfd⟩, ?_⟩, hr, hnotin⟩
    exact (openProcess_entries _ _ _).names.mpr (hcore.toSameEntries.names.mpr hp.names)

/-- The process that opens a pipe holds its two ends. -/
theorem createPipe_hasEnd {fds : ℤ × ℤ} (hrun : m.step a = some m') (hc : a.call = .createPipe)
    (hp : InTable m.toCore m.currentProcess) (hfds : (m.before a).createPipe.1 = some fds) :
    (2 ≤ fds.1 ∧ 2 ≤ fds.2) ∧ m'.HasEnd m.currentProcess (m'.fdPipe fds.1) .read fds.1 ∧
      m'.HasEnd m.currentProcess (m'.fdPipe fds.1) .write fds.2 := by
  obtain ⟨r, k, again, hcall, hsame, htable⟩ := step_after hrun
  rw [hc] at hcall
  obtain ⟨-, rfl, -⟩ : _ = r ∧ (m.before a).createPipe.2 = k ∧ false = again := by simpa [Kernel.call] using hcall
  rcases createPipe_cases (m.before a) with ⟨hfail, -⟩ | ⟨i, pipe, n, s, t, hmade, hm⟩
  · rw [hfail] at hfds
    cases hfds
  · obtain rfl := Option.some.inj (hmade.symm.trans hfds)
    have hread := hsame.names.mpr hm.names_read
    have hwrite := hsame.names.mpr hm.names_write
    have hlow := hm.entries.1
    obtain ⟨sems, honly⟩ := createPipe_only (m.before a)
    have hin : InTable m'.toCore m.currentProcess := htable.inTable.mpr (honly.sameTable.inTable.mpr hp)
    have hpipe : m'.fdPipe ((n : ℤ), ((n + 1 : ℕ) : ℤ)).1 = pipe := hread.fdPipe
    have hrow : m'.fdTable m.currentProcess = update (update (m.fdTable m.currentProcess) s n) t (n + 1 : ℕ) := by
      rw [hsame.fdTable, hm.fdTable]
      exact Function.update_self ..
    rw [hpipe]
    refine ⟨⟨by dsimp only; omega, by dsimp only; omega⟩, ⟨hin, ⟨s, hm.first.1, ?_⟩, hread⟩,
      ⟨hin, ⟨t, hm.second.2.1, ?_⟩, hwrite⟩⟩
    · rw [hrow, Function.update_of_ne hm.second.1, Function.update_self]
    · rw [hrow, Function.update_self]

/-- The process that has been created starts with the ends that its creator holds. -/
theorem create_hasEnd {args : CreateArgs} (h : TableInv m.toCore) (hrun : m.step a = some m')
    (hc : a.call = .createProcess args) (hslot : ∃ i < maxProcesses, m.processesList i = 0)
    (hp : m.HasEnd m.currentProcess pipe ty fd) (hq : a.call.births (m.before a) q) :
    m'.HasEnd q pipe ty fd ∧ ((m.before a).call a.call).elim 0 (fun r => r.1) = m'.pid q ∧ ¬InTable m.toCore q := by
  obtain ⟨r, k, again, hcall, hsame, htable⟩ := step_after hrun
  have hp' : (m.before a).HasEnd (m.before a).currentProcess pipe ty fd :=
    hp.congr (.of_eq rfl rfl) ⟨rfl, rfl, rfl, rfl, rfl, rfl, rfl, rfl⟩
  have hret : ((m.before a).call a.call).elim 0 (fun r => r.1) = r := by rw [hcall]; rfl
  rw [hret]
  rw [hc] at hcall hq
  obtain ⟨⟨v, k₁⟩, hcreate, hv⟩ := Option.map_eq_some_iff.mp hcall
  obtain ⟨rfl, rfl, -⟩ : v = r ∧ k₁ = k ∧ false = again := by simpa using hv
  obtain ⟨hend, hpid, hnew⟩ := createProcess_hasEnd h.supply hp' hslot hcreate hq
  exact ⟨hend.congr hsame htable, hpid.trans (congrFun htable.pid q).symm, hnew⟩

end BareKernel
