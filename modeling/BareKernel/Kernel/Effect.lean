import BareKernel.Kernel.Calls
import BareKernel.Links.Chain
import BareKernel.Process.Table

/-! What each call does to the processes: which it makes ready, which it blocks,
which it ends and which it creates. Every other process keeps its state, and the
table, the ring, the bitmap and the sleep list stay in order. -/

namespace BareKernel

open Function (update)
open Process Links

/-- The sleep list goes through the entries `E`. -/
structure Sleepers (k : Kernel) (E : List ℕ) : Prop where
  chain : Chain k.entryNext 0 k.sleepList E
  nodup : E.Nodup
  live : ∀ e ∈ E, e ∈ k.live .sleepEntry

/-- What holds between calls. -/
structure KernelInv (k : Kernel) : Prop where
  ready : ∃ L, ReadyInv k.toCore L
  pids : PidInv k.toCore
  sleepers : ∃ E, Sleepers k E

/-- The processes woken, halted, gone and born between two states. -/
structure Effect (c c' : Core) (woken halted gone born : ℕ → Prop) : Prop where
  currentProcess : c'.currentProcess = c.currentProcess
  inTable : ∀ q, InTable c' q ↔ (InTable c q ∧ ¬gone q) ∨ born q
  pid : ∀ q, ¬born q → c'.pid q = c.pid q
  stackPointer : ∀ q, ¬born q → c'.stackPointer q = c.stackPointer q
  ends : ∀ q, gone q → c'.state q = .terminated
  births : ∀ q, born q → c'.state q = .ready ∧ (c'.stackPointer q).process = q ∧ ¬InTable c q
  wakes : ∀ q, ¬gone q → woken q → c.state q = .blocked ∧ c'.state q = .ready
  halts : ∀ q, halted q → (c.state q = .ready ∨ c.state q = .running) ∧ c'.state q = .blocked
  state : ∀ q, ¬gone q → ¬born q → ¬woken q → ¬halted q → c'.state q = c.state q

variable {k k' : Kernel} {c c' c₁ : Core} {L E : List ℕ} {p q : ℕ} {pid r id : ℤ}

theorem Sleepers.congr (h : Sleepers k E) (hs : k'.toSleepQueue = k.toSleepQueue)
    (hl : k'.live .sleepEntry = k.live .sleepEntry) : Sleepers k' E := by
  refine ⟨?_, h.nodup, ?_⟩
  · rw [show k'.entryNext = k.entryNext from congrArg SleepQueue.entryNext hs,
      show k'.sleepList = k.sleepList from congrArg SleepQueue.sleepList hs]
    exact h.chain
  · rw [hl]
    exact h.live

/-! ### Effects of the operations on the core -/

/-- Nobody is touched when the table, the pids, the stack pointers and the states stay. -/
theorem Effect.same (hcur : c'.currentProcess = c.currentProcess)
    (ht : c'.processesList = c.processesList) (hp : c'.pid = c.pid)
    (hsp : c'.stackPointer = c.stackPointer) (hs : c'.state = c.state) :
    Effect c c' nobody nobody nobody nobody where
  currentProcess := hcur
  inTable q := by simp [inTable_congr ht, nobody]
  pid q _ := by rw [hp]
  stackPointer q _ := by rw [hsp]
  ends q hq := hq.elim
  births q hq := hq.elim
  wakes q _ hq := hq.elim
  halts q hq := hq.elim
  state q _ _ _ _ := by rw [hs]

theorem Process.Frame.effect_block (h : Frame c c')
    (hs : c'.state = fun q => if Blocks c pid q then .blocked else c.state q) :
    Effect c c' nobody (Blocks c pid) nobody nobody where
  currentProcess := h.currentProcess
  inTable q := by simp [inTable_congr h.processesList, nobody]
  pid q _ := by rw [h.pid]
  stackPointer q _ := by rw [h.stackPointer]
  ends q hq := hq.elim
  births q hq := hq.elim
  wakes q _ hq := hq.elim
  halts q hq := ⟨hq.2, by rw [hs]; exact if_pos hq⟩
  state q _ _ _ hq := by rw [hs]; exact if_neg hq

theorem Process.Removal.effect (h : Removal c c' p) :
    Effect c c' (WakesParent c p) nobody (· = p) nobody where
  currentProcess := h.currentProcess
  inTable q := by simp [h.inTable, nobody]
  pid q _ := by rw [h.pid]
  stackPointer q _ := by rw [h.stackPointer]
  ends q hq := by rw [h.state]; exact if_pos hq
  births q hq := hq.elim
  wakes q hq hw := by
    refine ⟨hw.2.2.2.2.2, ?_⟩
    rw [h.state]
    simp only
    rw [if_neg hq, if_pos hw]
  halts q hq := hq.elim
  state q hq _ hw _ := by
    rw [h.state]
    simp only
    rw [if_neg hq, if_neg hw]

theorem Process.Creation.effect (h : Creation c c' p) (hnew : ¬InTable c p) :
    Effect c c' nobody nobody nobody (· = p) where
  currentProcess := h.currentProcess
  inTable q := by simp [h.inTable, nobody]
  pid q hq := h.pid q hq
  stackPointer q hq := by rw [h.stackPointer, Function.update_of_ne hq]
  ends q hq := hq.elim
  births q hq := by
    obtain rfl : q = p := hq
    rw [h.state, h.stackPointer, Function.update_self, Function.update_self]
    exact ⟨rfl, rfl, hnew⟩
  wakes q _ hq := hq.elim
  halts q hq := hq.elim
  state q _ hq _ _ := by rw [h.state, Function.update_of_ne hq]

/-- The same effect when nobody is touched after it. -/
theorem Effect.quiet {woken halted gone born : ℕ → Prop} (h : Effect c c₁ woken halted gone born)
    (h' : Effect c₁ c' nobody nobody nobody nobody) : Effect c c' woken halted gone born := by
  have hstate (q : ℕ) : c'.state q = c₁.state q := h'.state q id id id id
  have hsp (q : ℕ) : c'.stackPointer q = c₁.stackPointer q := h'.stackPointer q id
  refine ⟨h'.currentProcess.trans h.currentProcess, fun q => ?_, fun q hq => ?_, fun q hq => ?_,
    fun q hq => ?_, fun q hq => ?_, fun q hg hq => ?_, fun q hq => ?_, fun q hg hb hw hh => ?_⟩
  · rw [h'.inTable q, ← h.inTable q]
    simp [nobody]
  · rw [h'.pid q id, h.pid q hq]
  · rw [hsp, h.stackPointer q hq]
  · rw [hstate, h.ends q hq]
  · rw [hstate, hsp]
    exact h.births q hq
  · rw [hstate]
    exact h.wakes q hg hq
  · rw [hstate]
    exact h.halts q hq
  · rw [hstate, h.state q hg hb hw hh]

/-! ### Waking several processes -/

/-- Exactly the processes of `w` have become ready. -/
structure Woke (c c' : Core) (w : ℕ → Prop) : Prop where
  pid : c'.pid = c.pid
  stackPointer : c'.stackPointer = c.stackPointer
  processesList : c'.processesList = c.processesList
  currentProcess : c'.currentProcess = c.currentProcess
  pids : c'.pids = c.pids
  ready : ∃ L, ReadyInv c' L
  woken : ∀ q, w q → c.state q = .blocked ∧ c'.state q = .ready
  other : ∀ q, ¬w q → c'.state q = c.state q

variable {w w' : ℕ → Prop}

/-- What waking the processes of `w` does, whatever else holds. -/
structure Roused (c c' : Core) (w : ℕ → Prop) : Prop where
  pid : c'.pid = c.pid
  processesList : c'.processesList = c.processesList
  woken : ∀ q, w q → c.state q = .blocked ∧ c'.state q = .ready
  other : ∀ q, ¬w q → c'.state q = c.state q

theorem Woke.roused (h : Woke c c' w) : Roused c c' w := ⟨h.pid, h.processesList, h.woken, h.other⟩

theorem Roused.refl (c : Core) : Roused c c nobody := ⟨rfl, rfl, fun _ hq => hq.elim, fun _ _ => rfl⟩

theorem Roused.congr (h : Roused c c' w) (hw : ∀ q, w' q ↔ w q) : Roused c c' w' :=
  ⟨h.pid, h.processesList, fun q hq => h.woken q ((hw q).mp hq), fun q hq => h.other q fun hq' => hq ((hw q).mpr hq')⟩

theorem Roused.trans {c₂ : Core} (h : Roused c c₁ w) (h' : Roused c₁ c₂ w') : Roused c c₂ fun q => w q ∨ w' q := by
  refine ⟨h'.pid.trans h.pid, h'.processesList.trans h.processesList, fun q hq => ?_, fun q hq => ?_⟩
  · by_cases hw : w q
    · obtain ⟨hb, hr⟩ := h.woken q hw
      have hw' : ¬w' q := by
        intro hw'
        rw [(h'.woken q hw').1] at hr
        cases hr
      exact ⟨hb, by rw [h'.other q hw', hr]⟩
    · obtain ⟨hb, hr⟩ := h'.woken q (hq.resolve_left hw)
      exact ⟨by rw [← h.other q hw, hb], hr⟩
  · rw [not_or] at hq
    rw [h'.other q hq.2, h.other q hq.1]

/-- What unblocking still does after others have been woken. -/
theorem Roused.wakes_iff (h : Roused c c' w) : Wakes c' pid q ↔ Wakes c pid q ∧ ¬w q := by
  unfold Wakes
  rw [getProcessByPid_congr h.processesList h.pid]
  by_cases hw : w q
  · simp [hw, (h.woken q hw).2]
  · simp [hw, h.other q hw]

theorem Roused.foundprocess (h : Roused c c' w) : foundprocess c' pid = foundprocess c pid :=
  foundprocess_congr h.processesList h.pid

theorem Woke.refl (h : ReadyInv c L) : Woke c c nobody :=
  ⟨rfl, rfl, rfl, rfl, rfl, ⟨L, h⟩, fun _ hq => hq.elim, fun _ _ => rfl⟩

theorem Woke.congr (h : Woke c c' w) (hw : ∀ q, w' q ↔ w q) : Woke c c' w' :=
  ⟨h.pid, h.stackPointer, h.processesList, h.currentProcess, h.pids, h.ready, (h.roused.congr hw).woken,
    (h.roused.congr hw).other⟩

theorem Woke.trans {c₂ : Core} (h : Woke c c₁ w) (h' : Woke c₁ c₂ w') : Woke c c₂ fun q => w q ∨ w' q := by
  have hboth := h.roused.trans h'.roused
  exact ⟨hboth.pid, h'.stackPointer.trans h.stackPointer, hboth.processesList,
    h'.currentProcess.trans h.currentProcess, h'.pids.trans h.pids, h'.ready, hboth.woken, hboth.other⟩

theorem Woke.wakes_iff (h : Woke c c' w) : Wakes c' pid q ↔ Wakes c pid q ∧ ¬w q := h.roused.wakes_iff

theorem Woke.foundprocess (h : Woke c c' w) : foundprocess c' pid = foundprocess c pid := h.roused.foundprocess

theorem Woke.effect (h : Woke c c' w) : Effect c c' w nobody nobody nobody where
  currentProcess := h.currentProcess
  inTable q := by simp [inTable_congr h.processesList, nobody]
  pid q _ := by rw [h.pid]
  stackPointer q _ := by rw [h.stackPointer]
  ends q hq := hq.elim
  births q hq := hq.elim
  wakes q _ hq := h.woken q hq
  halts q hq := hq.elim
  state q _ _ hq _ := h.other q hq

theorem unblockProcess_woke (h : ReadyInv c L) (hrun : unblockProcess c pid = some (r, c')) :
    Woke c c' (Wakes c pid) ∧ ∀ kind, kind ≠ .node → c'.live kind = c.live kind := by
  obtain ⟨hframe, hinv, hstate⟩ := unblockProcess_effect h hrun
  refine ⟨⟨hframe.pid, hframe.stackPointer, hframe.processesList, hframe.currentProcess, hframe.pids,
    hinv, fun q hq => ⟨hq.2.2, ?_⟩, fun q hq => ?_⟩, hframe.live⟩
  · rw [hstate]
    exact if_pos hq
  · rw [hstate]
    exact if_neg hq

/-- The slots of `sem_close` that wake a process. -/
def SlotWakes (c : Core) (i : ℕ) (pids : List ℤ) (q : ℕ) : Prop :=
  ∃ j pid, pids[j]? = some pid ∧ foundprocess c (i + j : ℕ) ≠ none ∧ Wakes c pid q

instance {i : ℕ} {pids : List ℤ} : Decidable (SlotWakes c i pids q) :=
  decidable_of_iff (∃ j < pids.length, ∃ pid ∈ pids[j]?, foundprocess c (i + j : ℕ) ≠ none ∧ Wakes c pid q) <| by
    constructor
    · rintro ⟨j, -, pid, hj, h⟩
      exact ⟨j, pid, hj, h⟩
    · rintro ⟨j, pid, hj, h⟩
      exact ⟨j, (List.getElem?_eq_some_iff.mp hj).1, pid, hj, h⟩

/-- The first slot, and then the others. -/
theorem Roused.slotWakes_cons {i : ℕ} {pids : List ℤ}
    (h : Roused c c' fun q => Process.foundprocess c i ≠ none ∧ Wakes c pid q) : SlotWakes c i (pid :: pids) q ↔
      (Process.foundprocess c i ≠ none ∧ Wakes c pid q) ∨ SlotWakes c' (i + 1) pids q := by
  constructor
  · rintro ⟨j, pid', hj, hf, hw⟩
    cases j with
    | zero =>
      obtain rfl : pid = pid' := by simpa using hj
      exact Or.inl ⟨hf, hw⟩
    | succ j =>
      by_cases hfirst : Process.foundprocess c i ≠ none ∧ Wakes c pid q
      · exact Or.inl hfirst
      · refine Or.inr ⟨j, pid', by simpa using hj, ?_, h.wakes_iff.mpr ⟨hw, hfirst⟩⟩
        rw [h.foundprocess, show i + 1 + j = i + (j + 1) by omega]
        exact hf
  · rintro (⟨hf, hw⟩ | ⟨j, pid', hj, hf, hw⟩)
    · exact ⟨0, pid, rfl, hf, hw⟩
    · refine ⟨j + 1, pid', by simpa using hj, ?_, (h.wakes_iff.mp hw).1⟩
      rw [h.foundprocess, show i + 1 + j = i + (j + 1) by omega] at hf
      exact hf

theorem wakeSlot_cases {i : ℕ} (h : Kernel.wakeSlot c i pid = some c') :
    (foundprocess c i = none ∧ c' = c) ∨ foundprocess c i ≠ none ∧ ∃ v, unblockProcess c pid = some (v, c') := by
  unfold Kernel.wakeSlot at h
  by_cases hf : foundprocess c i = none
  · rw [if_pos hf] at h
    exact Or.inl ⟨hf, (Option.some.inj h).symm⟩
  · rw [if_neg hf] at h
    obtain ⟨⟨v, c₁⟩, hun, rfl⟩ := Option.map_eq_some_iff.mp h
    exact Or.inr ⟨hf, v, hun⟩

/-- What each waking does, the waking of all waiters does. -/
theorem wakeAll_induction {R : Core → Core → Prop} (hrefl : ∀ c, R c c)
    (htrans : ∀ c₁ c₂ c₃, R c₁ c₂ → R c₂ c₃ → R c₁ c₃)
    (hwake : ∀ c pid v c', unblockProcess c pid = some (v, c') → R c c') {i : ℕ} {pids : List ℤ}
    (h : Kernel.wakeAll i pids c = some c') : R c c' := by
  induction pids generalizing c i with
  | nil =>
    obtain rfl := Option.some.inj h
    exact hrefl c
  | cons pid pids ih =>
    obtain ⟨c₁, hslot, hrest⟩ := Option.bind_eq_some_iff.mp h
    have hfirst : R c c₁ := by
      rcases wakeSlot_cases hslot with ⟨-, rfl⟩ | ⟨-, v, hun⟩
      · exact hrefl _
      · exact hwake _ _ _ _ hun
    exact htrans _ _ _ hfirst (ih hrest)

theorem wakeSlot_woke (h : ReadyInv c L) {i : ℕ} (hrun : Kernel.wakeSlot c i pid = some c') :
    Woke c c' (fun q => foundprocess c i ≠ none ∧ Wakes c pid q) ∧
      ∀ kind, kind ≠ .node → c'.live kind = c.live kind := by
  rcases wakeSlot_cases hrun with ⟨hf, rfl⟩ | ⟨hf, v, hun⟩
  · exact ⟨(Woke.refl h).congr fun q => by simp [hf, nobody], fun _ _ => rfl⟩
  · obtain ⟨hwoke, hlive⟩ := unblockProcess_woke h hun
    exact ⟨hwoke.congr fun q => by simp [hf], hlive⟩

theorem wakeAll_woke (h : ReadyInv c L) {i : ℕ} {pids : List ℤ} (hrun : Kernel.wakeAll i pids c = some c') :
    Woke c c' (SlotWakes c i pids) ∧ ∀ kind, kind ≠ .node → c'.live kind = c.live kind := by
  induction pids generalizing c L i with
  | nil =>
    obtain rfl := Option.some.inj hrun
    exact ⟨(Woke.refl h).congr fun q => by simp [SlotWakes, nobody], fun _ _ => rfl⟩
  | cons pid pids ih =>
    obtain ⟨c₁, hslot, hrest⟩ := Option.bind_eq_some_iff.mp hrun
    obtain ⟨hwoke, hlive⟩ := wakeSlot_woke h hslot
    obtain ⟨L₁, h₁⟩ := hwoke.ready
    obtain ⟨hwoke', hlive'⟩ := ih h₁ hrest
    exact ⟨(hwoke.trans hwoke').congr fun q => hwoke.roused.slotWakes_cons,
      fun kind hk => (hlive' kind hk).trans (hlive kind hk)⟩

end BareKernel
