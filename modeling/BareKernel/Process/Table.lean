import BareKernel.Process.Invariant
import Mathlib.Data.Fintype.EquivFin

/-! The process table and the pid bitmap. No two processes of the table have one
pid; then a process that ends leaves exactly its own slot, and its end changes no
state but its own and that of a parent that waits for its last child. -/

namespace BareKernel.Process

open Function (update)

/-- The pids of the table. An entry of the bitmap below the last one is set only
for a process of the table; the last one stays set when its process is killed. -/
structure PidInv (c : Core) : Prop where
  inj : ∀ p q, InTable c p → InTable c q → c.pid p = c.pid q → p = q
  range : ∀ p, InTable c p → 0 ≤ c.pid p ∧ c.pid p ≤ maxProcesses
  used : ∀ p, InTable c p → 0 < c.pid p → c.pids (c.pid p - 1) = true
  owned : ∀ i : ℕ, i + 1 < maxProcesses → c.pids i = true → ∃ p, InTable c p ∧ c.pid p = i + 1

variable {c c' c₁ : Core} {L L' : List ℕ} {p q i : ℕ} {pid r : ℤ}

theorem PidInv.congr (h : PidInv c) (hpid : c'.pid = c.pid) (ht : c'.processesList = c.processesList)
    (hpids : c'.pids = c.pids) : PidInv c' := by
  have htable : ∀ p, InTable c' p ↔ InTable c p := fun p => inTable_congr ht
  refine ⟨fun p q hp hq => ?_, fun p hp => ?_, fun p hp => ?_, fun i hi => ?_⟩
  · rw [hpid]
    exact h.inj p q ((htable p).mp hp) ((htable q).mp hq)
  · rw [hpid]
    exact h.range p ((htable p).mp hp)
  · rw [hpid, hpids]
    exact h.used p ((htable p).mp hp)
  · intro hset
    rw [hpids] at hset
    obtain ⟨p, hp, hpp⟩ := h.owned i hi hset
    exact ⟨p, (htable p).mpr hp, by rw [hpid, hpp]⟩

/-- A process of the table is found under its pid. -/
theorem PidInv.foundprocess (h : PidInv c) (hp : InTable c p) :
    ∃ i < maxProcesses, foundprocess c (c.pid p) = some i ∧ c.processesList i = p := by
  cases hf : Process.foundprocess c (c.pid p) with
  | none => exact absurd rfl (foundprocess_none hf hp)
  | some i =>
    obtain ⟨hi, hin, hpid⟩ := foundprocess_some hf
    exact ⟨i, hi, rfl, h.inj _ _ hin hp hpid⟩

theorem PidInv.getProcessByPid (h : PidInv c) (hp : InTable c p) :
    getProcessByPid c (c.pid p) = p := by
  obtain ⟨i, -, hf, hi⟩ := h.foundprocess hp
  rw [Process.getProcessByPid, hf]
  exact hi

/-! ### The calls by cases -/

theorem blockProcess_cases (h : blockProcess c pid = some (r, c')) :
    (c' = c ∧ (foundprocess c pid = none ∨ c.state (getProcessByPid c pid) ≠ .running ∧
        c.state (getProcessByPid c pid) ≠ .ready)) ∨
      ∃ i, foundprocess c pid = some i ∧
        removeFromReadyList { c with state := update c.state (c.processesList i) .blocked } (c.processesList i) =
          some c' := by
  unfold blockProcess at h
  cases hf : foundprocess c pid with
  | none =>
    obtain ⟨-, rfl⟩ : -1 = r ∧ c = c' := by simpa [hf] using h
    exact Or.inl ⟨rfl, Or.inl rfl⟩
  | some i =>
    simp only [hf] at h
    split at h
    · rename_i hidle
      obtain ⟨-, rfl⟩ : -1 = r ∧ c = c' := by simpa using h
      exact Or.inl ⟨rfl, Or.inr (by rwa [getProcessByPid, hf])⟩
    · obtain ⟨c₁, hrem, hret⟩ := Option.bind_eq_some_iff.mp h
      obtain ⟨-, rfl⟩ : 1 = r ∧ c₁ = c' := by simpa using hret
      exact Or.inr ⟨i, rfl, hrem⟩

theorem wakeParent_cases {parent : ℕ} (h : wakeParent c parent = some c') :
    (c' = c ∧ ¬(c.waitingOnChild parent = 1 ∧ c.childrenLength parent = 0)) ∨
      c.waitingOnChild parent = 1 ∧ c.childrenLength parent = 0 ∧
        ∃ v, unblockProcess c (c.pid parent) = some (v, c') := by
  unfold wakeParent at h
  by_cases hwaits : c.waitingOnChild parent = 1 ∧ c.childrenLength parent = 0
  · rw [if_pos hwaits] at h
    obtain ⟨⟨v, c₁⟩, hun, rfl⟩ := Option.map_eq_some_iff.mp h
    exact Or.inr ⟨hwaits.1, hwaits.2, v, hun⟩
  · rw [if_neg hwaits] at h
    exact Or.inl ⟨(Option.some.inj h).symm, hwaits⟩

theorem leaveParent_cases (h : leaveParent c p = some c') :
    (c' = c ∧ (c.parentPid p ≤ 0 ∨ foundprocess c (c.parentPid p) = none)) ∨
      0 < c.parentPid p ∧ ∃ i c₁, foundprocess c (c.parentPid p) = some i ∧
        wakeParent (removeChild c (c.processesList i) (c.pid p)) (c.processesList i) = some c₁ ∧
        c' = { c₁ with
          isForeground :=
            if c₁.isForeground p ≠ 0 then update c₁.isForeground (c.processesList i) 1 else c₁.isForeground } := by
  unfold leaveParent at h
  by_cases hpos : 0 < c.parentPid p
  · rw [if_pos hpos] at h
    cases hf : foundprocess c (c.parentPid p) with
    | none =>
      rw [hf] at h
      exact Or.inl ⟨(Option.some.inj h).symm, Or.inr rfl⟩
    | some i =>
      rw [hf] at h
      obtain ⟨c₁, hwake, hret⟩ := Option.bind_eq_some_iff.mp h
      exact Or.inr ⟨hpos, i, c₁, rfl, hwake, (Option.some.inj hret).symm⟩
  · rw [if_neg hpos] at h
    exact Or.inl ⟨(Option.some.inj h).symm, Or.inl (not_lt.mp hpos)⟩

theorem removeFromProcessesList_cases (h : removeFromProcessesList c p = some (r, c')) :
    (foundprocess c (c.pid p) = none ∧ c' = c) ∨
      ∃ i c₁ c₂, foundprocess c (c.pid p) = some i ∧ leaveParent c p = some c₁ ∧
        removeFromReadyList { c₁ with state := update c₁.state p .terminated } p = some c₂ ∧
        c' = { mmFree { freeHoldings c₂ p with
            processesList := update (freeHoldings c₂ p).processesList i 0 } .record p with
          nProcesses := (freeHoldings c₂ p).nProcesses - 1 } := by
  unfold removeFromProcessesList at h
  cases hf : foundprocess c (c.pid p) with
  | none =>
    obtain ⟨-, rfl⟩ : -1 = r ∧ c = c' := by simpa [hf] using h
    exact Or.inl ⟨rfl, rfl⟩
  | some i =>
    rw [hf] at h
    obtain ⟨c₁, hleave, h⟩ := Option.bind_eq_some_iff.mp h
    obtain ⟨c₂, hrem, hret⟩ := Option.bind_eq_some_iff.mp h
    obtain ⟨-, rfl⟩ : 0 = r ∧ _ = c' := by simpa using hret
    exact Or.inr ⟨i, c₁, c₂, rfl, hleave, hrem, rfl⟩

theorem killProcess_cases {again : Bool} (h : killProcess c pid = some (r, c', again)) :
    (c' = c ∧ again = false ∧ (pid < 3 ∨ foundprocess c pid = none)) ∨
      again = true ∧ 3 ≤ pid ∧ ∃ i c₁ v, foundprocess c pid = some i ∧
        removeFromReadyList (freePid c pid) (c.processesList i) = some c₁ ∧
        removeFromProcessesList { c₁ with state := update c₁.state (c.processesList i) .terminated }
          (c.processesList i) = some (v, c') := by
  unfold killProcess at h
  by_cases hlow : pid < 3
  · obtain ⟨-, rfl, rfl⟩ : 0 = r ∧ c = c' ∧ false = again := by simpa [hlow] using h
    exact Or.inl ⟨rfl, rfl, Or.inl hlow⟩
  · rw [if_neg hlow] at h
    cases hf : foundprocess c pid with
    | none =>
      obtain ⟨-, rfl, rfl⟩ : -1 = r ∧ c = c' ∧ false = again := by simpa [hf] using h
      exact Or.inl ⟨rfl, rfl, Or.inr rfl⟩
    | some i =>
      rw [hf] at h
      obtain ⟨c₁, hrem, h⟩ := Option.bind_eq_some_iff.mp h
      obtain ⟨⟨v, c₂⟩, hremove, hret⟩ := Option.bind_eq_some_iff.mp h
      obtain ⟨-, rfl, rfl⟩ : 0 = r ∧ c₂ = c' ∧ true = again := by simpa using hret
      exact Or.inr ⟨rfl, not_lt.mp hlow, i, c₁, v, rfl, hrem, hremove⟩

theorem quitCPU_cases (h : quitCPU c = some (r, c')) :
    (c' = c ∧ c.state c.currentProcess ≠ .running) ∨
      c.state c.currentProcess = .running ∧ ∃ c₁ sp,
        addToReadyList { c with state := update c.state c.currentProcess .ready } c.currentProcess = some c₁ ∧
        scheduler c₁ (c₁.stackPointer c.currentProcess) = some (sp, c') := by
  unfold quitCPU at h
  by_cases hcur : c.state c.currentProcess = .running
  · simp only [hcur, if_true] at h
    obtain ⟨c₁, hadd, h⟩ := Option.bind_eq_some_iff.mp h
    obtain ⟨⟨sp, c₂⟩, hsched, hret⟩ := Option.bind_eq_some_iff.mp h
    obtain ⟨-, rfl⟩ : _ = r ∧ c₂ = c' := by simpa using hret
    exact Or.inr ⟨hcur, c₁, sp, hadd, hsched⟩
  · rw [if_neg hcur] at h
    obtain ⟨-, rfl⟩ : _ = r ∧ c = c' := by simpa using h
    exact Or.inl ⟨rfl, hcur⟩

/-! ### The end of a process -/

/-- The end of the process makes its parent ready. -/
def WakesParent (c : Core) (process q : ℕ) : Prop :=
  0 < c.parentPid process ∧ q = getProcessByPid c (c.parentPid process) ∧ c.waitingOnChild q = 1 ∧
    (removeChild c q (c.pid process)).childrenLength q = 0 ∧ c.pid q ≠ 1 ∧ c.state q = .blocked

instance : Decidable (WakesParent c p q) :=
  inferInstanceAs (Decidable (_ ∧ _ ∧ _ ∧ _ ∧ _ ∧ _))

/-- Taking out a child edits the children of the parent only. -/
theorem removeChild_eq (c : Core) (parent : ℕ) (pid : ℤ) :
    ∃ children lengths, removeChild c parent pid =
      { c with children := children, childrenLength := lengths } := by
  unfold removeChild
  split
  · exact ⟨c.children, c.childrenLength, rfl⟩
  · exact ⟨_, _, rfl⟩

theorem removeChild_length (c c' : Core) (parent : ℕ) (pid : ℤ) (hc : c'.children = c.children)
    (hl : c'.childrenLength = c.childrenLength) :
    (removeChild c' parent pid).childrenLength = (removeChild c parent pid).childrenLength := by
  unfold removeChild
  rw [hc, hl]
  split <;> simp_all

theorem wakesParent_congr (ht : c'.processesList = c.processesList) (hpid : c'.pid = c.pid)
    (hparent : c'.parentPid = c.parentPid) (hwait : c'.waitingOnChild = c.waitingOnChild)
    (hc : c'.children = c.children) (hl : c'.childrenLength = c.childrenLength)
    (hs : c'.state q = c.state q) : WakesParent c' p q ↔ WakesParent c p q := by
  unfold WakesParent
  rw [getProcessByPid_congr ht hpid, removeChild_length c c' q _ hc hl, hparent, hwait, hpid, hs]

/-- A parent whose pid is looked up again is found again. -/
theorem getProcessByPid_again (hf : foundprocess c pid = some i) :
    getProcessByPid c (c.pid (c.processesList i)) = c.processesList i := by
  rw [(foundprocess_some hf).2.2, getProcessByPid, hf]

theorem wakeParent_effect (h : ReadyInv c L) {parent : ℕ}
    (hagain : getProcessByPid c (c.pid parent) = parent) (hrun : wakeParent c parent = some c') :
    Frame c c' ∧ (∃ L', ReadyInv c' L') ∧
      c'.state = fun q => if q = parent ∧ c.waitingOnChild q = 1 ∧ c.childrenLength q = 0 ∧
        c.pid q ≠ 1 ∧ c.state q = .blocked then .ready else c.state q := by
  rcases wakeParent_cases hrun with ⟨rfl, hcond⟩ | ⟨hwaits, hlast, v, hun⟩
  · refine ⟨.refl _, ⟨L, h⟩, ?_⟩
    funext q
    rw [if_neg]
    rintro ⟨rfl, hw, hl, -⟩
    exact hcond ⟨hw, hl⟩
  · obtain ⟨hframe, hinv, hstate⟩ := unblockProcess_effect h hun
    refine ⟨hframe, hinv, ?_⟩
    rw [hstate]
    funext q
    refine if_congr ⟨?_, ?_⟩ rfl rfl
    · rintro ⟨h1, hq, hs⟩
      obtain rfl : q = parent := hq.trans hagain
      exact ⟨rfl, hwaits, hlast, h1, hs⟩
    · rintro ⟨rfl, -, -, h1, hs⟩
      exact ⟨h1, hagain.symm, hs⟩

theorem leaveParent_effect (h : ReadyInv c L) (hrun : leaveParent c p = some c') :
    Frame c c' ∧ (∃ L', ReadyInv c' L') ∧
      c'.state = fun q => if WakesParent c p q then .ready else c.state q := by
  rcases leaveParent_cases hrun with ⟨rfl, hnone⟩ | ⟨hpos, i, c₂, hf, hwake, rfl⟩
  · refine ⟨.refl _, ⟨L, h⟩, ?_⟩
    funext q
    rw [if_neg]
    rintro ⟨hpos, rfl, -, -, -, hs⟩
    rw [getProcessByPid, hnone.resolve_left (not_le.mpr hpos), h.null] at hs
    simp at hs
  · have hget : getProcessByPid c (c.parentPid p) = c.processesList i := by rw [getProcessByPid, hf]
    obtain ⟨children, lengths, hrem⟩ := removeChild_eq c (c.processesList i) (c.pid p)
    have hlen : (removeChild c (c.processesList i) (c.pid p)).childrenLength = lengths := by rw [hrem]
    rw [hrem] at hwake
    have h₁ : ReadyInv { c with children := children, childrenLength := lengths } L :=
      h.congr rfl rfl rfl rfl rfl h.records
    obtain ⟨hframe, ⟨L', hinv⟩, hstate⟩ := wakeParent_effect h₁ (getProcessByPid_again hf) hwake
    refine ⟨⟨hframe.pid, hframe.stackPointer, hframe.processesList, hframe.currentProcess, hframe.pids,
      hframe.live⟩, ⟨L', hinv.congr rfl rfl rfl rfl rfl hinv.records⟩, ?_⟩
    show c₂.state = _
    rw [hstate]
    funext q
    refine if_congr ⟨?_, ?_⟩ rfl rfl
    · rintro ⟨rfl, hw, hl, h1, hs⟩
      exact ⟨hpos, hget.symm, hw, by rw [hlen]; exact hl, h1, hs⟩
    · rintro ⟨-, hq, hw, hl, h1, hs⟩
      obtain rfl : q = c.processesList i := hq.trans hget
      exact ⟨rfl, hw, by rw [hlen] at hl; exact hl, h1, hs⟩

/-- What a process holds besides its record and its node. -/
def Kind.holding : Kind → Bool
  | .stack | .name | .priorityName | .argv | .arg => true
  | _ => false

/-- Only holdings of a process have been freed. -/
def FreesHoldings (c c' : Core) : Prop :=
  ∃ live, c' = { c with live := live } ∧ ∀ kind, kind.holding = false → live kind = c.live kind

theorem FreesHoldings.trans {c₁ c₂ c₃ : Core} (h : FreesHoldings c₁ c₂) (h' : FreesHoldings c₂ c₃) :
    FreesHoldings c₁ c₃ := by
  obtain ⟨live, rfl, hlive⟩ := h
  obtain ⟨live', rfl, hlive'⟩ := h'
  exact ⟨live', rfl, fun kind hk => (hlive' kind hk).trans (hlive kind hk)⟩

theorem mmFree_holding (c : Core) {kind : Kind} (hk : kind.holding = true) (a : ℕ) :
    FreesHoldings c (mmFree c kind a) := by
  refine ⟨_, rfl, fun other ho => Function.update_of_ne ?_ ..⟩
  rintro rfl
  simp [hk] at ho

theorem freeEntries_holdings (entries : List ℕ) (c : Core) :
    FreesHoldings c (entries.foldl (fun c entry => mmFree c .arg entry) c) := by
  induction entries generalizing c with
  | nil => exact ⟨c.live, rfl, fun _ _ => rfl⟩
  | cons entry entries ih => exact (mmFree_holding c rfl entry).trans (ih _)

theorem freeHoldings_holdings (c : Core) (p : ℕ) : FreesHoldings c (freeHoldings c p) := by
  unfold freeHoldings
  apply FreesHoldings.trans _ (mmFree_holding _ rfl _)
  apply FreesHoldings.trans _ (freeEntries_holdings _ _)
  apply FreesHoldings.trans _ (mmFree_holding _ rfl _)
  apply FreesHoldings.trans _ (mmFree_holding _ rfl _)
  exact mmFree_holding _ rfl _

/-- What the end of a process leaves of the table and the states. -/
structure Removal (c c' : Core) (p : ℕ) : Prop where
  pid : c'.pid = c.pid
  stackPointer : c'.stackPointer = c.stackPointer
  currentProcess : c'.currentProcess = c.currentProcess
  inTable : ∀ q, InTable c' q ↔ InTable c q ∧ q ≠ p
  state : c'.state = fun q => if q = p then .terminated else if WakesParent c p q then .ready else c.state q
  live : ∀ kind, kind.holding = false → kind ≠ .node → kind ≠ .record → c'.live kind = c.live kind

/-- No slot is used twice, so clearing one takes its process out of the table. -/
theorem inTable_clear (hslots : ∀ i < maxProcesses, ∀ j < maxProcesses, c.processesList i = c.processesList j →
      c.processesList i ≠ 0 → i = j) (hi : i < maxProcesses) (hslot : c.processesList i = p)
    (ht : c'.processesList = update c.processesList i 0) : InTable c' q ↔ InTable c q ∧ q ≠ p := by
  unfold InTable
  rw [ht]
  constructor
  · rintro ⟨h0, j, hj, hq⟩
    have hji : j ≠ i := by
      rintro rfl
      rw [Function.update_self] at hq
      exact h0 hq.symm
    rw [Function.update_of_ne hji] at hq
    refine ⟨⟨h0, j, hj, hq⟩, ?_⟩
    rintro rfl
    exact hji (hslots j hj i hi (hq.trans hslot.symm) (hq ▸ h0))
  · rintro ⟨⟨h0, j, hj, hq⟩, hqp⟩
    have hji : j ≠ i := by
      rintro rfl
      exact hqp (hq.symm.trans hslot)
    exact ⟨h0, j, hj, by rw [Function.update_of_ne hji, hq]⟩

/-- The slot of a process that is out of the ring is cleared and its record freed. -/
theorem ReadyInv.drop (h : ReadyInv c L) (hring : p ∉ ringProcs c L)
    (hi : i < maxProcesses) (hslot : c.processesList i = p) (n : ℤ) :
    ReadyInv { mmFree { c with processesList := update c.processesList i 0 } .record p with
      nProcesses := n } L := by
  have htable (q : ℕ) : InTable { mmFree { c with processesList := update c.processesList i 0 } .record p with
      nProcesses := n } q ↔ InTable c q ∧ q ≠ p := inTable_clear h.slots hi hslot rfl
  have hne : ∀ q ∈ ringProcs c L, q ≠ p := by
    intro q hq hqp
    exact hring (hqp ▸ hq)
  have hn := h.nodes
  refine ⟨⟨hn.ring, hn.nodup, hn.head, hn.null, hn.cursor, hn.noCursor, hn.procs, fun m hm => ?_⟩,
    fun q hq => ?_, fun q hq => ?_, fun q hq hrun => ?_, h.cursor, h.null, fun j hj k hk hjk h0 => ?_,
    fun q hq => ?_⟩
  · simpa [mmFree] using hn.live m hm
  · exact (htable q).mpr ⟨h.inTable q hq, hne q hq⟩
  · exact h.ready q ((htable q).mp hq).1
  · exact h.running q ((htable q).mp hq).1 hrun
  · have hval (x : ℕ) (hx : update c.processesList i 0 x ≠ 0) : c.processesList x = update c.processesList i 0 x := by
      rw [Function.update_of_ne]
      rintro rfl
      simp at hx
    have hk0 : update c.processesList i 0 k ≠ 0 := fun he => h0 (hjk.trans he)
    refine h.slots j hj k hk ?_ ?_
    · rw [hval j h0, hval k hk0]
      exact hjk
    · rw [hval j h0]
      exact h0
  · obtain ⟨hq, hqp⟩ := (htable q).mp hq
    simpa [mmFree] using (List.mem_erase_of_ne hqp).mpr (h.records q hq)

theorem removeFromProcessesList_effect (h : ReadyInv c L) (hp : InTable c p)
    (hinj : ∀ q, InTable c q → c.pid q = c.pid p → q = p)
    (hrun : removeFromProcessesList c p = some (r, c')) :
    Removal c c' p ∧ c'.pids = c.pids ∧ ∃ L', ReadyInv c' L' := by
  rcases removeFromProcessesList_cases hrun with ⟨hnone, -⟩ | ⟨i, c₁, c₂', hf, hleave, hrem', rfl⟩
  · exact absurd rfl (foundprocess_none hnone hp)
  · obtain ⟨hi, hin, hpid⟩ := foundprocess_some hf
    have hslot := hinj _ hin hpid
    obtain ⟨hframe, ⟨L₁, h₁⟩, hstate⟩ := leaveParent_effect h hleave
    have hp₁ : InTable c₁ p := (inTable_congr hframe.processesList).mpr hp
    obtain ⟨c₂, L₂, hrem, hedit, hN, hmem, hcur⟩ :=
      removeFromReadyList_spec (h₁.nodes.setState (update c₁.state p .terminated)) p
    have h₂ := h₁.leave (by simp) (by simp) hp.1 hedit hN hmem hcur
    obtain rfl : c₂ = c₂' := Option.some.inj (hrem.symm.trans hrem')
    obtain ⟨live, hfree, hlive⟩ := freeHoldings_holdings c₂ p
    have hrecords : ∀ q, InTable c₂ q → q ∈ live .record := by
      intro q hq
      rw [hlive .record rfl]
      exact h₂.records q hq
    have h₃ : ReadyInv (freeHoldings c₂ p) L₂ := by
      rw [hfree]
      exact h₂.congr rfl rfl rfl rfl (hlive .node rfl) hrecords
    have htable : (freeHoldings c₂ p).processesList = c.processesList := by
      rw [hfree]
      exact hedit.processesList.trans hframe.processesList
    have hp₃ : InTable (freeHoldings c₂ p) p := (inTable_congr htable).mpr hp
    have hnot : p ∉ ringProcs (freeHoldings c₂ p) L₂ := by
      intro hm
      rw [hfree] at hm
      exact ((hmem p).mp hm).2 rfl
    have h₄ := h₃.drop hnot hi (by rw [htable, hslot]) ((freeHoldings c₂ p).nProcesses - 1)
    have hframe₂ : Frame c₁ c₂ := hedit.frame
    refine ⟨⟨?_, ?_, ?_, fun q => ?_, ?_, fun kind hk hn hr => ?_⟩, ?_, L₂, h₄⟩
    · show (freeHoldings c₂ p).pid = c.pid
      rw [hfree]
      exact hframe₂.pid.trans hframe.pid
    · show (freeHoldings c₂ p).stackPointer = c.stackPointer
      rw [hfree]
      exact hframe₂.stackPointer.trans hframe.stackPointer
    · show (freeHoldings c₂ p).currentProcess = c.currentProcess
      rw [hfree]
      exact hframe₂.currentProcess.trans hframe.currentProcess
    · exact inTable_clear h.slots hi hslot (by rw [← htable]; rfl)
    · show (freeHoldings c₂ p).state = _
      rw [hfree]
      show c₂.state = _
      rw [show c₂.state = update c₁.state p .terminated from congrArg Records.state hedit.records]
      funext q
      rcases eq_or_ne q p with rfl | hqp
      · simp
      · rw [Function.update_of_ne hqp, if_neg hqp, hstate]
    · show update (freeHoldings c₂ p).live _ _ kind = _
      rw [Function.update_of_ne hr, hfree]
      exact ((hlive kind hk).trans (hframe₂.live kind hn)).trans (hframe.live kind hn)
    · show (freeHoldings c₂ p).pids = c.pids
      rw [hfree]
      exact hframe₂.pids.trans hframe.pids

/-- The bitmap after the end of a process, which clears at most its own entry. -/
theorem PidInv.remove (h : PidInv c) (hp : InTable c p) (hpid : c'.pid = c.pid)
    (htable : ∀ q, InTable c' q ↔ InTable c q ∧ q ≠ p)
    (hother : ∀ i, i ≠ c.pid p - 1 → c'.pids i = c.pids i)
    (hown : 0 < c.pid p → c.pid p < maxProcesses → c'.pids (c.pid p - 1) = false) : PidInv c' := by
  refine ⟨fun q s hq hs => ?_, fun q hq => ?_, fun q hq hpos => ?_, fun i hi hset => ?_⟩
  · rw [hpid]
    exact h.inj q s ((htable q).mp hq).1 ((htable s).mp hs).1
  · rw [hpid]
    exact h.range q ((htable q).mp hq).1
  · obtain ⟨hq, hqp⟩ := (htable q).mp hq
    rw [hpid] at hpos ⊢
    have hne : c.pid q ≠ c.pid p := fun he => hqp (h.inj q p hq hp he)
    rw [hother _ (by omega)]
    exact h.used q hq hpos
  · by_cases hi' : (i : ℤ) = c.pid p - 1
    · rw [hi'] at hset
      have hclear := hown (by omega) (by omega)
      rw [hset] at hclear
      exact absurd hclear (by simp)
    · rw [hother _ hi'] at hset
      obtain ⟨q, hq, hqi⟩ := h.owned i hi hset
      refine ⟨q, (htable q).mpr ⟨hq, ?_⟩, by rw [hpid, hqi]⟩
      rintro rfl
      omega

/-- The records under another status of one process. -/
theorem RingEdit.setState (h : RingEdit c c') (s : Status) :
    RingEdit { c with state := update c.state p s } { c' with state := update c'.state p s } := by
  have hr := h.records
  refine ⟨?_, h.currentProcess, h.processesList, h.nProcesses, h.pids, h.live⟩
  simp [hr]

theorem killProcess_effect (h : ReadyInv c L) (hpid : PidInv c) {again : Bool}
    (hrun : killProcess c pid = some (r, c', again)) :
    (again = false ∧ c' = c ∧ ¬(3 ≤ pid ∧ InTable c (getProcessByPid c pid))) ∨
      again = true ∧ 3 ≤ pid ∧ InTable c (getProcessByPid c pid) ∧
      Removal c c' (getProcessByPid c pid) ∧ PidInv c' ∧ ∃ L', ReadyInv c' L' := by
  rcases killProcess_cases hrun with ⟨rfl, rfl, hno⟩ | ⟨rfl, hlow, i, c₁', v, hf, hrem', hremove⟩
  · refine Or.inl ⟨rfl, rfl, fun hh => hh.2.1 ?_⟩
    rw [getProcessByPid, hno.resolve_left (not_lt.mpr hh.1)]
  · obtain ⟨hi, hp, hpp⟩ := foundprocess_some hf
    rw [show getProcessByPid c pid = c.processesList i by rw [getProcessByPid, hf]]
    set p := c.processesList i with hdef
    have h₀ : ReadyInv (freePid c pid) L := h.congr rfl rfl rfl rfl rfl h.records
    obtain ⟨c₁, L₁, hrem, hedit, hN, hmem, hcur⟩ := removeFromReadyList_spec h₀.nodes p
    obtain rfl : c₁ = c₁' := Option.some.inj (hrem.symm.trans hrem')
    have hedit' := hedit.setState (p := p) .terminated
    have h₁ : ReadyInv { c₁ with state := update c₁.state p .terminated } L₁ :=
      h₀.leave (by simp) (by simp) hp.1 hedit' (hN.setState _) hmem hcur
    have hrec : c₁.toRecords = c.toRecords := hedit.records
    have hpid₁ : c₁.pid = c.pid := congrArg Records.pid hrec
    have htab : c₁.processesList = c.processesList := hedit.processesList
    have hp₁ : InTable { c₁ with state := update c₁.state p .terminated } p :=
      (inTable_congr htab).mpr hp
    have hinj : ∀ q, InTable { c₁ with state := update c₁.state p .terminated } q →
        c₁.pid q = c₁.pid p → q = p := by
      intro q hq
      rw [hpid₁]
      exact hpid.inj q p ((inTable_congr htab).mp hq) hp
    obtain ⟨hremoval, hpids, L₂, h₂⟩ := removeFromProcessesList_effect h₁ hp₁ hinj hremove
    have htable (q : ℕ) : InTable c' q ↔ InTable c q ∧ q ≠ p :=
      (hremoval.inTable q).trans (and_congr_left' (inTable_congr htab))
    have hstate : c'.state = fun q => if q = p then .terminated
        else if WakesParent c p q then .ready else c.state q := by
      rw [hremoval.state]
      funext q
      rcases eq_or_ne q p with rfl | hqp
      · simp
      · rw [if_neg hqp, if_neg hqp]
        have hst : update c₁.state p Status.terminated q = c.state q := by
          rw [Function.update_of_ne hqp, congrArg Records.state hrec]
        have hparent : c₁.parentPid = c.parentPid := congrArg Records.parentPid hrec
        have hwait : c₁.waitingOnChild = c.waitingOnChild := congrArg Records.waitingOnChild hrec
        have hchildren : c₁.children = c.children := congrArg Records.children hrec
        have hlengths : c₁.childrenLength = c.childrenLength := congrArg Records.childrenLength hrec
        have hiff : WakesParent { c₁ with state := update c₁.state p .terminated } p q ↔
            WakesParent c p q := wakesParent_congr htab hpid₁ hparent hwait hchildren hlengths hst
        exact if_congr hiff rfl hst
    have hbits : c'.pids = (freePid c pid).pids := hpids.trans hedit.pids
    refine Or.inr ⟨rfl, hlow, hp, ⟨hremoval.pid.trans hpid₁, ?_, ?_, htable, hstate, ?_⟩,
      hpid.remove hp (hremoval.pid.trans hpid₁) htable (fun j hj => ?_) (fun h0 hlt => ?_), L₂, h₂⟩
    · have hsp : c₁.stackPointer = c.stackPointer := congrArg Records.stackPointer hrec
      exact hremoval.stackPointer.trans hsp
    · exact hremoval.currentProcess.trans hedit.currentProcess
    · intro kind hk hn hr
      exact (hremoval.live kind hk hn hr).trans (hedit.live kind hn)
    · rw [hpp] at hj
      rw [hbits, freePid]
      split
      · exact Function.update_of_ne hj ..
      · rfl
    · rw [hpp] at h0 hlt ⊢
      rw [hbits, freePid]
      simp [h0, hlt]

/-- Giving up the processor puts the running process behind the others. -/
theorem quitCPU_effect (h : ReadyInv c L) (hrun : quitCPU c = some (r, c')) :
    (c.state c.currentProcess ≠ .running ∧ c' = c) ∨
      c.state c.currentProcess = .running ∧ ReadyInv c' L ∧ Dispatch c c' ∧
        c'.stackPointer = c.stackPointer ∧ c'.currentProcess ∈ ringProcs c L ∧
        c'.state = update (update c.state c.currentProcess .ready) c'.currentProcess .running := by
  rcases quitCPU_cases hrun with ⟨rfl, hidle⟩ | ⟨hcur, c₁, sp, hadd', hsched'⟩
  · exact Or.inl ⟨hidle, rfl⟩
  · have hset := h.settle c.stackPointer c.counter (Or.inr ⟨hcur, rfl⟩)
    have hin := (h.cursor hcur).1
    have hadd : addToReadyList { c with state := update c.state c.currentProcess .ready } c.currentProcess =
        some { c with state := update c.state c.currentProcess .ready } := by
      rw [addToReadyList, isInReadyList_eq hset.nodes]
      have hmem : c.currentProcess ∈ L.map c.processInfo := hin
      simp [hmem]
    obtain rfl := Option.some.inj (hadd.symm.trans hadd')
    have hne : c.readyList ≠ 0 := by
      intro he
      rw [h.nodes.readyList_eq_zero.mp he] at hin
      simp [ringProcs] at hin
    obtain ⟨c₂, hsched, hinv, hmem, -, hdisp, hsp, hstate⟩ :=
      scheduler_spec hset hne (c.stackPointer c.currentProcess)
    obtain ⟨-, rfl⟩ : _ = sp ∧ c₂ = c' := by simpa using Option.some.inj (hsched.symm.trans hsched')
    refine Or.inr ⟨hcur, hinv,
      ⟨hdisp.pid, hdisp.processesList, hdisp.pids, hdisp.live, hdisp.readyList, hdisp.priority⟩, ?_, hmem, ?_⟩
    · rw [hsp]
      simp
    · rw [hstate]
      simp

/-! ### A new process -/

/-- The record of a new process has been filled in, and nothing else the scheduler
looks at has changed. -/
structure Filled (c c' : Core) (p : ℕ) : Prop where
  ring : c'.toReadyRing = c.toReadyRing
  currentProcess : c'.currentProcess = c.currentProcess
  processesList : c'.processesList = c.processesList
  nProcesses : c'.nProcesses = c.nProcesses
  state : c'.state = update c.state p .ready
  stackPointer : c'.stackPointer = update c.stackPointer p ⟨p, stackSize - contextSize⟩
  pid : c'.pid = (assignPid c p).pid
  pids : c'.pids = (assignPid c p).pids
  live : ∀ kind, kind.holding = false → c'.live kind = c.live kind

theorem assignPid_eq (c : Core) (p : ℕ) :
    assignPid c p = { c with pid := (assignPid c p).pid, pids := (assignPid c p).pids } := by
  unfold assignPid
  split <;> rfl

/-- The choice of a pid reads the pids and the bitmap. -/
theorem assignPid_congr (hp : c'.pid = c.pid) (hb : c'.pids = c.pids) :
    (assignPid c' p).pid = (assignPid c p).pid ∧ (assignPid c' p).pids = (assignPid c p).pids := by
  unfold assignPid
  rw [hp, hb]
  split <;> exact ⟨rfl, rfl⟩

/-- All that `copyContext` writes: the record, with blocks for the name and for the priority's. -/
theorem copyContext_some {stackTop : ℕ} {args : CreateArgs} (h : copyContext c p stackTop args = some c') :
    ∃ name priorityName answers live,
      c' = assignForeground { assignPid c p with
        answers := answers
        live := live
        name := update c.name p name
        stackPointer := update c.stackPointer p ⟨p, stackSize - contextSize⟩
        stackTop := update c.stackTop p stackTop
        state := update c.state p .ready
        priority := update c.priority p (priorityTable args.prio)
        priorityName := update c.priorityName p priorityName
        children := update c.children p fun _ => 0
        childrenLength := update c.childrenLength p 0 } p args.isForeground ∧
      priorityName ∉ c.live .priorityName ∧ live .priorityName = priorityName :: c.live .priorityName ∧
      ∀ kind, kind ≠ .name → kind ≠ .priorityName → live kind = c.live kind := by
  unfold copyContext at h
  rw [assignPid_eq] at h ⊢
  obtain ⟨⟨name, c₁⟩, hname, h⟩ := Option.bind_eq_some_iff.mp h
  obtain ⟨-, -, rest, rfl⟩ := mmMallocUsed_some hname
  obtain ⟨⟨priorityName, c₂⟩, hprio, hret⟩ := Option.bind_eq_some_iff.mp h
  obtain ⟨-, hfresh, rest', rfl⟩ := mmMallocUsed_some hprio
  obtain rfl := Option.some.inj hret
  refine ⟨name, priorityName, rest', _, rfl, by simpa using hfresh, by simp, fun kind hn hp => ?_⟩
  simp [hn, hp]

theorem copyContext_effect {stackTop : ℕ} {args : CreateArgs}
    (hrun : copyContext c p stackTop args = some c') : Filled c c' p := by
  obtain ⟨name, priorityName, answers, live, rfl, -, -, hlive⟩ := copyContext_some hrun
  rw [assignPid_eq]
  refine ⟨rfl, rfl, rfl, rfl, rfl, rfl, rfl, rfl, fun kind hk => hlive kind ?_ ?_⟩
  · rintro rfl
    cases hk
  · rintro rfl
    cases hk

/-- Nothing the scheduler looks at has changed. -/
structure Aside (c c' : Core) : Prop where
  ring : c'.toReadyRing = c.toReadyRing
  currentProcess : c'.currentProcess = c.currentProcess
  processesList : c'.processesList = c.processesList
  nProcesses : c'.nProcesses = c.nProcesses
  state : c'.state = c.state
  stackPointer : c'.stackPointer = c.stackPointer
  pid : c'.pid = c.pid
  pids : c'.pids = c.pids
  live : ∀ kind, kind.holding = false → c'.live kind = c.live kind

theorem Aside.trans {c₁ c₂ c₃ : Core} (h : Aside c₁ c₂) (h' : Aside c₂ c₃) : Aside c₁ c₃ :=
  ⟨h'.ring.trans h.ring, h'.currentProcess.trans h.currentProcess,
    h'.processesList.trans h.processesList, h'.nProcesses.trans h.nProcesses, h'.state.trans h.state,
    h'.stackPointer.trans h.stackPointer, h'.pid.trans h.pid, h'.pids.trans h.pids,
    fun kind hk => (h'.live kind hk).trans (h.live kind hk)⟩

/-- The new process and its creator learn of each other, and nothing else changes. -/
theorem linkParent_eq (c : Core) (p : ℕ) : ∃ parents children lengths,
    linkParent c p = { c with parentPid := parents, children := children, childrenLength := lengths } := by
  unfold linkParent adoptChild
  split
  · dsimp only
    split <;> exact ⟨_, _, _, rfl⟩
  · exact ⟨_, _, _, rfl⟩

theorem linkParent_aside (c : Core) (p : ℕ) : Aside c (linkParent c p) := by
  obtain ⟨parents, children, lengths, hlink⟩ := linkParent_eq c p
  rw [hlink]
  exact ⟨rfl, rfl, rfl, rfl, rfl, rfl, rfl, rfl, fun _ _ => rfl⟩

/-- The arguments get blocks, which are stored in the table. -/
theorem loadArgsFrom_some (argv n i : ℕ) (h : loadArgsFrom argv n i c = some c') :
    ∃ answers live entries, c' = { c with answers := answers, live := live, argvEntry := entries } ∧
      ∀ kind, kind ≠ .arg → live kind = c.live kind := by
  induction n generalizing i c with
  | zero =>
    obtain rfl := Option.some.inj h
    exact ⟨_, _, _, rfl, fun _ _ => rfl⟩
  | succ n ih =>
    obtain ⟨⟨arg, c₁⟩, harg, hrest⟩ := Option.bind_eq_some_iff.mp h
    obtain ⟨-, -, rest, rfl⟩ := mmMallocUsed_some harg
    obtain ⟨answers, live, entries, rfl, hlive⟩ := ih _ hrest
    exact ⟨_, _, _, rfl, fun kind hk => (hlive kind hk).trans (Function.update_of_ne hk ..)⟩

theorem loadArgs_some {argc : ℕ} (h : loadArgs c p argc = some c') :
    ∃ argv answers live entries,
      c' = { c with
        answers := answers
        live := live
        argvEntry := entries
        argc := update c.argc p argc
        argv := update c.argv p argv } ∧
      ∀ kind, kind ≠ .argv → kind ≠ .arg → live kind = c.live kind := by
  obtain ⟨⟨argv, c₁⟩, hargv, h⟩ := Option.bind_eq_some_iff.mp h
  obtain ⟨-, -, rest, rfl⟩ := mmMallocUsed_some hargv
  obtain ⟨c₂, hload, hret⟩ := Option.bind_eq_some_iff.mp h
  obtain ⟨answers, live, entries, rfl, hlive⟩ := loadArgsFrom_some _ _ _ hload
  obtain rfl := Option.some.inj hret
  exact ⟨argv, _, _, _, rfl, fun kind hv ha => (hlive kind ha).trans (Function.update_of_ne hv ..)⟩

theorem loadArgs_aside {argc : ℕ} (h : loadArgs c p argc = some c') : Aside c c' := by
  obtain ⟨argv, answers, live, entries, rfl, hlive⟩ := loadArgs_some h
  refine ⟨rfl, rfl, rfl, rfl, rfl, rfl, rfl, rfl, fun kind hk => hlive kind ?_ ?_⟩
  · rintro rfl
    cases hk
  · rintro rfl
    cases hk

theorem Filled.aside (h : Filled c c₁ p) (h' : Aside c₁ c') : Filled c c' p :=
  ⟨h'.ring.trans h.ring, h'.currentProcess.trans h.currentProcess,
    h'.processesList.trans h.processesList, h'.nProcesses.trans h.nProcesses, h'.state.trans h.state,
    h'.stackPointer.trans h.stackPointer, h'.pid.trans h.pid, h'.pids.trans h.pids,
    fun kind hk => (h'.live kind hk).trans (h.live kind hk)⟩

/-- The record has been filled in when the process enters the table and the ring. -/
theorem enterProcess_split {stackTop : ℕ} {args : CreateArgs}
    (hrun : enterProcess c p stackTop args = some c') :
    ∃ c₁, Filled c c₁ p ∧ addToReadyList (addToProcessList c₁ p) p = some c' := by
  obtain ⟨c₁, hcopy, hrun⟩ := Option.bind_eq_some_iff.mp hrun
  obtain ⟨c₂, hload, hadd⟩ := Option.bind_eq_some_iff.mp hrun
  have hfill := copyContext_effect hcopy
  have hassign (w : ℕ → ℤ) : (assignPid { c with waitingOnChild := w } p).pid = (assignPid c p).pid ∧
      (assignPid { c with waitingOnChild := w } p).pids = (assignPid c p).pids :=
    assignPid_congr rfl rfl
  obtain ⟨hpid, hpids⟩ := hassign (update c.waitingOnChild p args.waiting)
  have hfill' : Filled c c₁ p := ⟨hfill.ring, hfill.currentProcess, hfill.processesList, hfill.nProcesses,
    hfill.state, hfill.stackPointer, hfill.pid.trans hpid, hfill.pids.trans hpids, hfill.live⟩
  exact ⟨c₂, hfill'.aside ((linkParent_aside c₁ p).trans (loadArgs_aside hload)), hadd⟩

/-- A process has got a slot of the table and entered the ring. -/
structure Creation (c c' : Core) (p : ℕ) : Prop where
  pid : ∀ q, q ≠ p → c'.pid q = c.pid q
  stackPointer : c'.stackPointer = update c.stackPointer p ⟨p, stackSize - contextSize⟩
  currentProcess : c'.currentProcess = c.currentProcess
  inTable : ∀ q, InTable c' q ↔ InTable c q ∨ q = p
  state : c'.state = update c.state p .ready
  live : ∀ kind, kind.holding = false → kind ≠ .node → c'.live kind = c.live kind

theorem addToProcessList_eq (c : Core) (p : ℕ) :
    ∃ list, addToProcessList c p = { c with processesList := list, nProcesses := c.nProcesses + 1 } := by
  unfold addToProcessList
  split
  · exact ⟨_, rfl⟩
  · exact ⟨_, rfl⟩

theorem addToProcessList_free (hi : ∃ i < maxProcesses, c.processesList i = 0) (p : ℕ) :
    ∃ i < maxProcesses, c.processesList i = 0 ∧ addToProcessList c p =
      { c with processesList := update c.processesList i p, nProcesses := c.nProcesses + 1 } := by
  obtain ⟨j, hj, hj0⟩ := hi
  unfold addToProcessList
  cases hf : (List.range maxProcesses).find? fun i => c.processesList i = 0 with
  | none =>
    have hnot := List.find?_eq_none.mp hf j (List.mem_range.mpr hj)
    simp [hj0] at hnot
  | some i =>
    have hi := List.mem_of_find?_eq_some hf
    have hi0 := List.find?_some hf
    exact ⟨i, List.mem_range.mp hi, by simpa using hi0, rfl⟩

theorem inTable_set (hi : i < maxProcesses) (hfree : c.processesList i = 0) (hp : p ≠ 0)
    (ht : c'.processesList = update c.processesList i p) : InTable c' q ↔ InTable c q ∨ q = p := by
  unfold InTable
  rw [ht]
  constructor
  · rintro ⟨h0, j, hj, hq⟩
    rcases eq_or_ne j i with rfl | hji
    · exact Or.inr (by rw [Function.update_self] at hq; exact hq.symm)
    · rw [Function.update_of_ne hji] at hq
      exact Or.inl ⟨h0, j, hj, hq⟩
  · rintro (⟨h0, j, hj, hq⟩ | rfl)
    · refine ⟨h0, j, hj, ?_⟩
      rw [Function.update_of_ne, hq]
      rintro rfl
      exact h0 (hq.symm.trans hfree)
    · exact ⟨hp, i, hi, Function.update_self ..⟩

/-- With a free slot and a full bitmap, no process has pid `0`: the processes of the
other pids fill all slots but one. -/
theorem PidInv.pid_ne_zero (h : PidInv c) (hi : i < maxProcesses) (hfree : c.processesList i = 0)
    (hall : ∀ j < maxProcesses, c.pids (j : ℕ) = true) (hp : InTable c p) : c.pid p ≠ 0 := by
  intro hzero
  have hslot (j : Fin maxProcesses) : ∃ k : Fin maxProcesses,
      c.processesList k ≠ 0 ∧ c.pid (c.processesList k) = (j : ℕ) := by
    obtain ⟨j, hj⟩ := j
    cases j with
    | zero =>
      obtain ⟨h0, k, hk, rfl⟩ := hp
      exact ⟨⟨k, hk⟩, h0, hzero⟩
    | succ m =>
      obtain ⟨q, ⟨h0, k, hk, rfl⟩, hq⟩ := h.owned m hj (hall m (by omega))
      exact ⟨⟨k, hk⟩, h0, by simpa using hq⟩
  choose slot hne hpid using hslot
  have hinj : Function.Injective slot := by
    intro a b hab
    have hval : ((a : ℕ) : ℤ) = (b : ℕ) := by rw [← hpid a, ← hpid b, hab]
    exact Fin.ext (by exact_mod_cast hval)
  obtain ⟨j, hj⟩ := Finite.surjective_of_injective hinj ⟨i, hi⟩
  apply hne j
  rw [hj]
  exact hfree

theorem PidInv.assign (h : PidInv c) (hp : ¬InTable c p) (hi : i < maxProcesses)
    (hfree : c.processesList i = 0) (htable : ∀ q, InTable c' q ↔ InTable c q ∨ q = p)
    (hpid : c'.pid = (assignPid c p).pid) (hpids : c'.pids = (assignPid c p).pids) :
    PidInv c' ∧ ∀ q, q ≠ p → c'.pid q = c.pid q := by
  have hold (q : ℕ) (hq : InTable c q) : q ≠ p := fun he => hp (he ▸ hq)
  unfold assignPid at hpid hpids
  cases hf : (List.range maxProcesses).find? fun i : ℕ => c.pids i = false with
  | none =>
    simp only [hf] at hpid hpids
    have hall (j : ℕ) (hj : j < maxProcesses) : c.pids j = true := by
      have hnot := List.find?_eq_none.mp hf j (List.mem_range.mpr hj)
      simpa using hnot
    have hother (q : ℕ) (hq : q ≠ p) : c'.pid q = c.pid q := by rw [hpid, Function.update_of_ne hq]
    have hself : c'.pid p = 0 := by rw [hpid, Function.update_self]
    have hzero (q : ℕ) (hq : InTable c q) : c.pid q ≠ 0 := h.pid_ne_zero hi hfree hall hq
    refine ⟨⟨fun q s hq hs heq => ?_, fun q hq => ?_, fun q hq hpos => ?_, fun j hj hset => ?_⟩, hother⟩
    · rcases (htable q).mp hq with hq | rfl <;> rcases (htable s).mp hs with hs | rfl
      · rw [hother q (hold q hq), hother s (hold s hs)] at heq
        exact h.inj q s hq hs heq
      · rw [hother q (hold q hq), hself] at heq
        exact absurd heq (hzero q hq)
      · rw [hother s (hold s hs), hself] at heq
        exact absurd heq.symm (hzero s hs)
      · rfl
    · rcases (htable q).mp hq with hq | rfl
      · rw [hother q (hold q hq)]
        exact h.range q hq
      · rw [hself]
        simp
    · rcases (htable q).mp hq with hq | rfl
      · rw [hother q (hold q hq)] at hpos ⊢
        rw [hpids]
        exact h.used q hq hpos
      · omega
    · rw [hpids] at hset
      obtain ⟨q, hq, hqj⟩ := h.owned j hj hset
      exact ⟨q, (htable q).mpr (Or.inl hq), by rw [hother q (hold q hq), hqj]⟩
  | some j =>
    simp only [hf] at hpid hpids
    have hj := List.mem_range.mp (List.mem_of_find?_eq_some hf)
    have hclear : c.pids j = false := by simpa using List.find?_some hf
    have hother (q : ℕ) (hq : q ≠ p) : c'.pid q = c.pid q := by rw [hpid, Function.update_of_ne hq]
    have hself : c'.pid p = j + 1 := by rw [hpid, Function.update_self]
    have hnew (q : ℕ) (hq : InTable c q) : c.pid q ≠ j + 1 := by
      intro he
      have hset := h.used q hq (by omega)
      rw [he, Int.add_sub_cancel, hclear] at hset
      exact absurd hset (by simp)
    refine ⟨⟨fun q s hq hs heq => ?_, fun q hq => ?_, fun q hq hpos => ?_, fun k hk hset => ?_⟩, hother⟩
    · rcases (htable q).mp hq with hq | rfl <;> rcases (htable s).mp hs with hs | rfl
      · rw [hother q (hold q hq), hother s (hold s hs)] at heq
        exact h.inj q s hq hs heq
      · rw [hother q (hold q hq), hself] at heq
        exact absurd heq (hnew q hq)
      · rw [hother s (hold s hs), hself] at heq
        exact absurd heq.symm (hnew s hs)
      · rfl
    · rcases (htable q).mp hq with hq | rfl
      · rw [hother q (hold q hq)]
        exact h.range q hq
      · rw [hself]
        omega
    · rw [hpids]
      rcases (htable q).mp hq with hq | rfl
      · rw [hother q (hold q hq)] at hpos ⊢
        by_cases he : c.pid q - 1 = j
        · rw [he, Function.update_self]
        · rw [Function.update_of_ne he]
          exact h.used q hq hpos
      · rw [hself, Int.add_sub_cancel, Function.update_self]
    · by_cases hkj : k = j
      · exact ⟨p, (htable p).mpr (Or.inr rfl), by rw [hself, hkj]⟩
      · rw [hpids, Function.update_of_ne (by exact_mod_cast hkj)] at hset
        obtain ⟨q, hq, hqk⟩ := h.owned k hk hset
        exact ⟨q, (htable q).mpr (Or.inl hq), by rw [hother q (hold q hq), hqk]⟩

/-- A process that is in no slot comes into one. -/
theorem slots_set {list : ℕ → ℕ} {n i : ℕ} (h : ∀ j < n, ∀ k < n, list j = list k → list j ≠ 0 → j = k)
    (hp : ∀ j < n, list j ≠ p) :
    ∀ j < n, ∀ k < n, update list i p j = update list i p k → update list i p j ≠ 0 → j = k := by
  intro j hj k hk hjk h0
  rcases eq_or_ne j i with rfl | hji
  · rcases eq_or_ne k j with rfl | hkj
    · rfl
    · rw [Function.update_self, Function.update_of_ne hkj] at hjk
      exact absurd hjk.symm (hp k hk)
  · rw [Function.update_of_ne hji] at hjk h0
    rcases eq_or_ne k i with rfl | hki
    · rw [Function.update_self] at hjk
      exact absurd hjk (hp j hj)
    · rw [Function.update_of_ne hki] at hjk
      exact h j hj k hk hjk h0

/-- A process outside the ring that is neither ready nor running gets a free slot. -/
theorem ReadyInv.admit (h : ReadyInv c L) (hp : p ≠ 0) (hnew : ¬InTable c p) (hrec : p ∈ c.live .record)
    (hi : i < maxProcesses) (hfree : c.processesList i = 0) (hring : c'.toReadyRing = c.toReadyRing)
    (hcur : c'.currentProcess = c.currentProcess) (hstate : c'.state = update c.state p .terminated)
    (ht : c'.processesList = update c.processesList i p) (hnode : c'.live .node = c.live .node)
    (hrecord : c'.live .record = c.live .record) : ReadyInv c' L := by
  have hinfo : c'.processInfo = c.processInfo := congrArg ReadyRing.processInfo hring
  have hcn : c'.currentNode = c.currentNode := congrArg ReadyRing.currentNode hring
  have hprocs : ringProcs c' L = ringProcs c L := by rw [ringProcs, ringProcs, hinfo]
  have htable (q : ℕ) : InTable c' q ↔ InTable c q ∨ q = p := inTable_set hi hfree hp ht
  have hn := h.nodes
  have hnodes : Nodes c' L := by
    refine ⟨?_, hn.nodup, ?_, hn.null, ?_, ?_, ?_, ?_⟩
    · rw [show c'.next = c.next from congrArg ReadyRing.next hring]
      exact hn.ring
    · rw [show c'.readyList = c.readyList from congrArg ReadyRing.readyList hring]
      exact hn.head
    · rw [hcn]
      exact hn.cursor
    · rw [hcn]
      exact hn.noCursor
    · rw [hinfo]
      exact hn.procs
    · rw [hnode]
      exact hn.live
  have hrun (q : ℕ) (hq : c'.state q = .running) : q ≠ p ∧ c.state q = .running :=
    running_of_update (by simp) (hstate ▸ hq)
  refine ⟨hnodes, fun q hq => ?_, fun q hq => ?_, fun q hq hs => ?_, fun hs => ?_, ?_,
    fun j hj k hk hjk h0 => ?_, fun q hq => ?_⟩
  · rw [hprocs] at hq
    exact (htable q).mpr (Or.inl (h.inTable q hq))
  · rw [hprocs, hstate]
    rcases eq_or_ne q p with rfl | hqp
    · simpa using fun hm => hnew (h.inTable _ hm)
    · rw [Function.update_of_ne hqp]
      exact h.ready q (((htable q).mp hq).resolve_right hqp)
  · obtain ⟨hqp, hs⟩ := hrun q hs
    rw [hcur]
    exact h.running q (((htable q).mp hq).resolve_right hqp) hs
  · obtain ⟨-, hs⟩ := hrun _ hs
    rw [hcur] at hs ⊢
    rw [hprocs, hinfo, hcn]
    exact h.cursor hs
  · rw [hstate, Function.update_of_ne hp.symm]
    exact h.null
  · have hpnot (x : ℕ) (hx : x < maxProcesses) : c.processesList x ≠ p := by
      rintro rfl
      exact hnew ⟨hp, x, hx, rfl⟩
    rw [ht] at hjk h0
    exact slots_set h.slots hpnot j hj k hk hjk h0
  · rw [hrecord]
    rcases (htable q).mp hq with hq | rfl
    · exact h.records q hq
    · exact hrec

theorem enterProcess_effect (h : ReadyInv c L) (hpid : PidInv c) (hp : p ≠ 0) (hnew : ¬InTable c p)
    (hrec : p ∈ c.live .record) (hslot : ∃ i < maxProcesses, c.processesList i = 0) {stackTop : ℕ}
    {args : CreateArgs} (hrun : enterProcess c p stackTop args = some c') :
    Creation c c' p ∧ PidInv c' ∧ ∃ L', ReadyInv c' L' := by
  obtain ⟨c₁, hfill, hadd⟩ := enterProcess_split hrun
  obtain ⟨i, hi, hfree, htab⟩ := addToProcessList_free (c := c₁) (by rwa [hfill.processesList]) p
  rw [htab] at hadd
  rw [hfill.processesList] at hfree
  have hlist : update c₁.processesList i p = update c.processesList i p := by rw [hfill.processesList]
  -- the table has the process before it is ready
  have h₁ : ReadyInv { c₁ with
      processesList := update c₁.processesList i p
      nProcesses := c₁.nProcesses + 1
      state := update c₁.state p .terminated } L := by
    refine h.admit hp hnew hrec hi hfree hfill.ring hfill.currentProcess ?_ hlist
      (hfill.live .node rfl) (hfill.live .record rfl)
    show update c₁.state p .terminated = _
    rw [hfill.state, Function.update_idem]
  have hback : { c₁ with
      processesList := update c₁.processesList i p
      nProcesses := c₁.nProcesses + 1
      state := update (update c₁.state p .terminated) p .ready } =
      { c₁ with processesList := update c₁.processesList i p, nProcesses := c₁.nProcesses + 1 } := by
    have hst : update (update c₁.state p .terminated) p .ready = c₁.state := by
      rw [hfill.state]
      simp
    rw [hst]
  obtain ⟨hedit, L', hN, hmem, hcur⟩ := addToReadyList_procs
    (c := { c₁ with processesList := update c₁.processesList i p, nProcesses := c₁.nProcesses + 1 })
    (hback ▸ h₁.nodes.setState (update (update c₁.state p .terminated) p .ready)) hadd
  have htable (q : ℕ) : InTable c' q ↔ InTable c q ∨ q = p :=
    inTable_set hi hfree hp (hedit.processesList.trans hlist)
  have h₂ : ReadyInv c' L' :=
    h₁.enter ⟨hp, i, hi, Function.update_self ..⟩ (by simp) (hback ▸ hedit) hN hmem hcur
  have hrecords : c'.toRecords = c₁.toRecords := hedit.records
  have hpids : c'.pids = c₁.pids := hedit.pids
  obtain ⟨hinv, hother⟩ := hpid.assign hnew hi hfree htable
    ((congrArg Records.pid hrecords).trans hfill.pid) (hpids.trans hfill.pids)
  have hcp : c'.currentProcess = c₁.currentProcess := hedit.currentProcess
  exact ⟨⟨hother, (congrArg Records.stackPointer hrecords).trans hfill.stackPointer,
    hcp.trans hfill.currentProcess, htable, (congrArg Records.state hrecords).trans hfill.state,
    fun kind hk hn => (hedit.live kind hn).trans (hfill.live kind hk)⟩, hinv, L', h₂⟩

end BareKernel.Process
