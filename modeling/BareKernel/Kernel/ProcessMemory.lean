import BareKernel.Kernel.Create
import BareKernel.Kernel.Residents
import BareKernel.Process.Arrival

/-! The memory of a process, from its creation in any state to its end, over any
blocking, unblocking, changes of priorities and turns of the scheduler in between. All
of it is given back, each block once, unless `modify_priority` has given the process a
new name for its priority, which replaces the old one without freeing it, or the
process has no slot of the table and nobody in the table has its pid. -/

namespace BareKernel

open Function (update)
open Process Links Machine

variable {k k' : Kernel} {c c' : Core} {m : Machine} {L : List ℕ} {p : ℕ} {r : ℤ} {args : CreateArgs}
  {es : List Entry} {names : Multiset Block}

/-- What happens between the creation of a process and its end, with the answers of
the allocator. -/
inductive LifeCall where
  | blockProcess (pid : ℤ)
  | unblockProcess (pid : ℤ)
  | modifyPriority (pid newPriority : ℤ)
  | scheduler (sp : StackPtr)

structure LifeAction where
  call : LifeCall
  answers : List ℕ

namespace LifeAction

def run (c : Core) (a : LifeAction) : Option Core :=
  let c := { c with answers := a.answers }
  match a.call with
  | .blockProcess pid => (blockProcess c pid).map Prod.snd
  | .unblockProcess pid => (unblockProcess c pid).map Prod.snd
  | .modifyPriority pid newPriority => (modifyPriority c pid newPriority).map Prod.snd
  | .scheduler sp => (scheduler c sp).map Prod.snd

def requests (c : Core) (a : LifeAction) : List Entry :=
  let c := { c with answers := a.answers }
  match a.call with
  | .blockProcess pid => blockRequests c pid
  | .unblockProcess pid => unblockRequests c pid
  | .modifyPriority pid newPriority => modifyRequests c pid newPriority
  | .scheduler _ => []

/-- The action gives the process a new name for its priority. -/
def Renames (c : Core) (a : LifeAction) (p : ℕ) : Prop :=
  match a.call with
  | .modifyPriority pid newPriority => Process.Renames c pid newPriority p
  | _ => False

instance (c : Core) (a : LifeAction) (p : ℕ) : Decidable (a.Renames c p) := by
  unfold Renames
  split <;> infer_instance

end LifeAction

/-- What goes on while a process lives. -/
def lifetime : System Core LifeAction where
  init _ := True
  step c a c' := a.run c = some c'

/-- A process is killed under a pid, or it exits. -/
inductive Ending where
  | kill (pid : ℤ)
  | exit

namespace Ending

def run (k : Kernel) : Ending → Option Kernel
  | .kill pid => (killProcess k.toCore pid).map fun r => { k with toCore := r.2.1 }
  | .exit => k.exitProcess

def requests (c : Core) : Ending → List Entry
  | .kill pid => killRequests c pid
  | .exit => removalRequests c c.currentProcess

/-- It is this process that ends. -/
def Of (c : Core) (e : Ending) (p : ℕ) : Prop :=
  match e with
  | .kill pid => 3 ≤ pid ∧ p = getProcessByPid c pid
  | .exit => p = c.currentProcess

end Ending

/-- A process from its successful creation to its end. The actions in between are
recorded with the states in which they were taken. -/
structure Life where
  start : Machine
  answers : List ℕ
  args : CreateArgs
  process : ℕ
  pid : ℤ
  created : Kernel
  trace : List (Core × LifeAction)
  last : Core
  endAnswers : List ℕ
  ending : Ending
  final : Kernel
  record : NewRecord { start.toCore with answers := answers } process
  creates : { start.toKernel with answers := answers }.createProcess args = some (pid, created)
  lives : lifetime.Emits (fun _ _ => True) (fun c a => [(c, a)]) created.toCore trace last
  ends : ending.run { created with toCore := { last with answers := endAnswers } } = some final
  ending_of : ending.Of last process

namespace Life

/-- All requests made from the creation to the end, each on behalf of a process. -/
def requests (l : Life) : List Entry :=
  obtains l.process (createRequests l.start.toCore l.process l.args) l.answers ++
    l.trace.flatMap (fun s => s.2.requests s.1) ++ l.ending.requests { l.last with answers := l.endAnswers }

/-- Every block obtained for the process has been freed, once, and the blocks in use
are those from before, but for the requests of the other processes. -/
def Returned (l : Life) : Prop :=
  settle 0 (own l.process l.requests) = some 0 ∧
    Booked l.start.blocks l.final.blocks (others l.process l.requests)

/-- No change of a priority gives the process a new name for it. -/
def KeepsName (l : Life) : Prop := ∀ s ∈ l.trace, ¬s.2.Renames s.1 l.process

end Life

/-! ### The creation -/

theorem createRequests_kinds {kind : Kind} (hk : kind ∈ createRequests c p args) : kind ≠ .pipe := by
  simp only [createRequests, contextRequests, List.mem_cons, List.mem_append, List.mem_replicate, List.not_mem_nil,
    or_false] at hk
  rcases hk with rfl | rfl | ((rfl | rfl) | rfl | ⟨-, rfl⟩) | hk
  all_goals try simp
  split at hk
  · cases hk
  · rw [List.mem_singleton.mp hk]
    simp

/-- The allocations of a new process in terms of those of its context. -/
theorem newRecord_answers (hp : NewRecord c p) :
    c.answers = (mmMalloc c .stack).1 :: p :: (mmMalloc (mmMalloc c .stack).2 .record).2.answers := by
  obtain ⟨hs, h0, rfl⟩ := hp
  have hstack : mmMallocUsed c .stack = some (mmMalloc c .stack) := if_neg hs
  have hrecord : mmMallocUsed (mmMalloc c .stack).2 .record = some (mmMalloc (mmMalloc c .stack).2 .record) :=
    if_neg h0
  have hfirst : c.answers = (mmMalloc c .stack).1 :: (mmMalloc c .stack).2.answers := mmMallocUsed_answers hstack
  have hsecond : (mmMalloc c .stack).2.answers = (mmMalloc (mmMalloc c .stack).2 .record).1 ::
      (mmMalloc (mmMalloc c .stack).2 .record).2.answers := mmMallocUsed_answers hrecord
  rw [hfirst, hsecond]

theorem PipesOnly.blocks (h : PipesOnly k k') : k'.blocks = k.blocks := by
  obtain ⟨answers, live, hcore, hlive⟩ := h.core
  exact blocksOf_congr fun kind hk => by rw [hcore]; exact hlive kind hk

theorem zip_kind (kind : Kind) (as : List ℕ) :
    (List.replicate as.length kind).zip as = as.map fun a => (kind, a) := by
  induction as with
  | nil => rfl
  | cons a as ih => rw [List.length_cons, List.replicate_succ, List.zip_cons_cons, ih, List.map_cons]

/-- A new process holds exactly what `createProcess` obtained. -/
theorem createProcess_account (h : Residents k.toCore L) (hp : NewRecord k.toCore p)
    (hrun : k.createProcess args = some (r, k')) :
    Account p k.blocks k'.blocks 0 (heldBy k'.toCore p 0) (obtains p (createRequests k.toCore p args) k.answers) := by
  obtain ⟨hfresh, answers, live, hmem, -, hlive⟩ := newRecord_memory hp
  have hnot : p ∉ ringProcs k.toCore L := fun hin => hfresh (h.procs p hin)
  have hanswers := newRecord_answers hp
  rw [createProcess_record hp] at hrun
  obtain ⟨c, henter, hret⟩ := Option.bind_eq_some_iff.mp hrun
  obtain ⟨-, rfl⟩ : _ = r ∧ _ = k' := by simpa using hret
  rw [hmem] at henter hanswers
  set c₀ : Core := { k.toCore with answers := answers, live := live } with hc₀
  have hN : Nodes c₀ L := h.ring.nodes.congr rfl (hlive .node (by simp) (by simp))
  obtain ⟨node, hcontext, hstack, hargc, hnode⟩ := enterProcess_answers hN hnot henter
  -- all requests are served
  have hring : isInReadyList k.toCore p ≠ some true := by
    rw [isInReadyList_eq h.ring.nodes, decide_eq_false (show ¬p ∈ L.map k.processInfo from hnot)]
    simp
  have hrequests : createRequests c₀ p args = createRequests k.toCore p args := by
    unfold createRequests contextRequests
    rw [isInReadyList_eq hN, isInReadyList_eq h.ring.nodes]
  have hserve : k.toMemory.serve (createRequests k.toCore p args) = some c.toMemory := by
    have hc := enterProcess_serve hN p (mmMalloc k.toCore .stack).1 args
    rw [henter] at hc
    rw [← hrequests]
    show k.toMemory.serve (.stack :: .record :: contextRequests c₀ p args) = _
    rw [serve_newRecord hp, hmem, ← hc]
    rfl
  have hacc := serve_account (p := p) (fun _ => createRequests_kinds) (Multiset.zero_le _) hserve
  -- what they got is what the process holds
  obtain ⟨waiting, honly⟩ := openProcess_only { k with toCore := c } k.currentProcess p
  set k' := { k with toCore := c }.openProcess k.currentProcess p with hk'
  have hblocks : k'.blocks = c.blocks := honly.blocks
  have hheld : heldBy k'.toCore p 0 = ((createRequests k.toCore p args).zip k.answers : List Block) + 0 := by
    obtain ⟨L', hshift⟩ := enterProcess_shift (show RingInv c₀ L from h.ring.congr rfl (hlive .node (by simp) (by simp))
      rfl rfl) hp.2.1 henter
    obtain ⟨answers', live', hcore, hlive'⟩ := honly.core
    have hN' : Nodes k'.toCore L' := by
      rw [hcore]
      exact hshift.ring.nodes.congr rfl (hlive' .node (by simp))
    have hring' : ringNode k'.toCore p = [(.node, node)] := by
      rw [← hnode]
      apply ringNode_congr hshift.ring.nodes hN'
      intro n
      rw [hcore]
    have hhold : holdings k'.toCore p = holdings c p := by
      rw [hcore]
      rfl
    have hkinds : createRequests k.toCore p args = .stack :: .record :: .name :: .priorityName :: .argv ::
        (List.replicate args.argc .arg ++ [.node]) := by
      unfold createRequests contextRequests
      rw [if_neg hring]
      rfl
    have hlength : ((List.range args.argc).map (c.argvEntry (c.argv p))).length = args.argc := by simp
    rw [heldBy, hring', hhold, holdings, hstack, hargc, hkinds, hanswers, show c₀.answers = _ from hcontext]
    simp only [List.zip_cons_cons]
    rw [List.zip_append (by simp)]
    nth_rewrite 2 [← hlength]
    rw [zip_kind]
    simp only [List.cons_append, List.nil_append, ← Multiset.cons_coe, ← Multiset.coe_add, List.zip_cons_cons,
      List.zip_nil_left, ← Multiset.singleton_add]
    abel
  rw [hblocks, hheld]
  exact hacc

/-! ### The life -/

theorem LifeAction.run_account (h : ∃ L, RingInv c L) (hh : Holds c p names) {a : LifeAction}
    (hrun : a.run c = some c') :
    (∃ L', RingInv c' L') ∧ ∃ names',
      Account p c.blocks c'.blocks (heldBy c p names) (heldBy c' p names') (a.requests c) ∧
      (∀ b ∈ names', b.1 = .priorityName) ∧ (names' = 0 ↔ names = 0 ∧ ¬a.Renames c p) := by
  obtain ⟨L, hL⟩ := h
  obtain ⟨call, answers⟩ := a
  have h₀ : RingInv { c with answers := answers } L := hL.congr rfl rfl rfl rfl
  have hh₀ : Holds { c with answers := answers } p names := ⟨hh.le, hh.names⟩
  have hkeep (hno : ¬LifeAction.Renames c ⟨call, answers⟩ p) {es : List Entry}
      (hacc : Accounted p names names { c with answers := answers } c' es) :
      ∃ names', Account p c.blocks c'.blocks (heldBy c p names) (heldBy c' p names') es ∧
        (∀ b ∈ names', b.1 = .priorityName) ∧ (names' = 0 ↔ names = 0 ∧ ¬LifeAction.Renames c ⟨call, answers⟩ p) :=
    ⟨names, hacc, hh.names, ⟨fun h0 => ⟨h0, hno⟩, And.left⟩⟩
  cases call with
  | blockProcess pid =>
    obtain ⟨⟨r, c₁⟩, hcall, rfl⟩ := Option.map_eq_some_iff.mp hrun
    obtain ⟨L', h'⟩ := blockProcess_shift h₀ hcall
    exact ⟨⟨L', h'.ring⟩, hkeep id (blockProcess_accounted h₀.nodes hh₀ hcall)⟩
  | unblockProcess pid =>
    obtain ⟨⟨r, c₁⟩, hcall, rfl⟩ := Option.map_eq_some_iff.mp hrun
    obtain ⟨L', h'⟩ := unblockProcess_shift h₀ hcall
    exact ⟨⟨L', h'.ring⟩, hkeep id (unblockProcess_accounted h₀.nodes hh₀ hcall)⟩
  | modifyPriority pid v =>
    obtain ⟨⟨r, c₁⟩, hcall, rfl⟩ := Option.map_eq_some_iff.mp hrun
    obtain ⟨h', -⟩ := modifyPriority_ring h₀ hcall
    have hacc := modifyPriority_accounted h₀.nodes h'.nodes hh₀ hcall
    refine ⟨⟨L, h'⟩, _, hacc, fun b hb => ?_, ?_⟩
    · split at hb
      · rcases Multiset.mem_cons.mp hb with rfl | hb
        · rfl
        · exact hh.names b hb
      · exact hh.names b hb
    · show _ ↔ names = 0 ∧ ¬Process.Renames { c with answers := answers } pid v p
      split
      · rename_i hren
        exact ⟨fun h0 => absurd h0 (Multiset.cons_ne_zero), fun hh => absurd hren hh.2⟩
      · rename_i hren
        exact ⟨fun h0 => ⟨h0, hren⟩, And.left⟩
  | scheduler sp =>
    obtain ⟨⟨sp', c₁⟩, hcall, rfl⟩ := Option.map_eq_some_iff.mp hrun
    have h' := scheduler_ring h₀ hcall
    exact ⟨⟨L, h'⟩, hkeep id (scheduler_accounted h₀.nodes h'.nodes (fun n => Iff.rfl) hh₀ hcall)⟩

/-- A process that lives on holds what it got and has not given back. -/
theorem lifetime_account {c₀ : Core} {trace : List (Core × LifeAction)} (h : ∃ L, RingInv c₀ L) (hh : Holds c₀ p 0)
    (hrun : lifetime.Emits (fun _ _ => True) (fun c a => [(c, a)]) c₀ trace c) :
    (∃ L, RingInv c L) ∧ ∃ names, Account p c₀.blocks c.blocks (heldBy c₀ p 0) (heldBy c p names)
        (trace.flatMap fun s => s.2.requests s.1) ∧
      (∀ b ∈ names, b.1 = .priorityName) ∧ (names = 0 ↔ ∀ s ∈ trace, ¬s.2.Renames s.1 p) := by
  induction hrun with
  | refl => exact ⟨h, 0, .nil hh.le, hh.names, by simp⟩
  | step _ _ hst ih =>
    obtain ⟨hring, names, hacc, hnames, hzero⟩ := ih
    obtain ⟨hring', names', hacc', hnames', hzero'⟩ := LifeAction.run_account hring ⟨hacc.le, hnames⟩ hst
    refine ⟨hring', names', ?_, hnames', ?_⟩
    · rw [List.flatMap_append, List.flatMap_singleton]
      exact hacc.trans hacc'
    · rw [hzero', hzero]
      simp only [List.mem_append, List.mem_singleton]
      constructor
      · rintro ⟨hold, hnew⟩ s (hs | rfl)
        · exact hold s hs
        · exact hnew
      · exact fun hall => ⟨fun s hs => hall s (Or.inl hs), hall _ (Or.inr rfl)⟩

/-! ### The end -/

theorem Ending.run_account (h : RingInv k.toCore L) (hh : Holds k.toCore p names) (h0 : p ≠ 0) {e : Ending}
    (he : e.Of k.toCore p) (hrun : e.run k = some k') :
    Account p k.blocks k'.blocks (heldBy k.toCore p names)
      (if foundprocess k.toCore (k.pid p) = none then heldBy k.toCore p names else names) (e.requests k.toCore) := by
  cases e with
  | kill pid =>
    obtain ⟨hlow, hp⟩ := he
    obtain ⟨⟨r, c, again⟩, hcall, rfl⟩ := Option.map_eq_some_iff.mp hrun
    have hfound : foundprocess k.toCore (k.pid p) ≠ none := by
      cases hf : foundprocess k.toCore pid with
      | none => exact absurd (hp.trans (getProcessByPid_none hf)) h0
      | some i =>
        rw [hp, getProcessByPid_some hf, (foundprocess_some hf).2.2, hf]
        simp
    rw [if_neg hfound]
    exact killProcess_account h hh hcall hlow hp h0
  | exit =>
    obtain rfl : p = k.currentProcess := he
    obtain ⟨r, c, k₂, hremove, honly, rfl⟩ := exitProcess_cases hrun
    have hblocks : k₂.blocks = c.blocks := honly.blocks
    by_cases hfound : foundprocess k.toCore (k.pid k.currentProcess) = none
    · rw [if_pos hfound]
      have hself : removeFromProcessesList k.toCore k.currentProcess = some (-1, k.toCore) := by
        rw [removeFromProcessesList, hfound]
      have hnone : removalRequests k.toCore k.currentProcess = [] := by rw [removalRequests, hfound]
      obtain ⟨-, rfl⟩ : -1 = r ∧ k.toCore = c := by simpa using hself.symm.trans hremove
      show Account _ k.blocks k₂.blocks _ _ (removalRequests k.toCore k.currentProcess)
      rw [hnone, hblocks]
      exact .nil hh.le
    · rw [if_neg hfound]
      show Account _ k.blocks k₂.blocks _ _ _
      rw [hblocks]
      exact removeFromProcessesList_account h hh hremove hfound

theorem heldBy_ne_zero : heldBy c p names ≠ 0 := by
  intro h0
  have hmem : ((.record, p) : Block) ∈ heldBy c p names := by simp [heldBy, holdings]
  rw [h0] at hmem
  exact Multiset.notMem_zero _ hmem

/-- The account of a process over its whole life. -/
theorem Life.account (l : Life) (h : managed.Reach (fun _ _ => True) l.start) :
    ∃ left, Account l.process l.start.blocks l.final.blocks 0 left l.requests ∧
      (left = 0 ↔ foundprocess l.last (l.last.pid l.process) ≠ none ∧ l.KeepsName) := by
  obtain ⟨-, L, hL⟩ := managed_invariant h
  have hL₀ : Residents { l.start.toKernel with answers := l.answers }.toCore L :=
    hL.congr (hL.ring.congr rfl rfl rfl rfl) rfl rfl rfl rfl
  have hacc₁ := createProcess_account hL₀ l.record l.creates
  obtain ⟨L₁, h₁⟩ := createProcess_shift hL₀.ring l.creates
  obtain ⟨⟨L₂, h₂⟩, names, hacc₂, hnames, hzero⟩ :=
    lifetime_account ⟨L₁, h₁.ring⟩ ⟨hacc₁.le, fun b hb => absurd hb (Multiset.notMem_zero b)⟩ l.lives
  set k₂ : Kernel := { l.created with toCore := { l.last with answers := l.endAnswers } } with hk₂
  have h₂' : RingInv k₂.toCore L₂ := h₂.congr rfl rfl rfl rfl
  have hh₂ : Holds k₂.toCore l.process names := ⟨hacc₂.le, hnames⟩
  have hacc₃ := Ending.run_account h₂' hh₂ l.record.2.1 l.ending_of l.ends
  refine ⟨_, (hacc₁.trans hacc₂).trans hacc₃, ?_⟩
  show (if foundprocess l.last (l.last.pid l.process) = none then heldBy k₂.toCore l.process names else names) = 0 ↔ _
  by_cases hfound : foundprocess l.last (l.last.pid l.process) = none
  · rw [if_pos hfound]
    exact ⟨fun h0 => absurd h0 heldBy_ne_zero, fun hh => absurd hfound hh.1⟩
  · rw [if_neg hfound, hzero]
    exact ⟨fun hkeep => ⟨hfound, hkeep⟩, And.right⟩

/-- The memory of a process is given back exactly when the process is found in the
table at its end and its priority has never got a new name. -/
theorem process_memory_returned (l : Life) (h : managed.Reach (fun _ _ => True) l.start) :
    l.Returned ↔ foundprocess l.last (l.last.pid l.process) ≠ none ∧ l.KeepsName := by
  obtain ⟨left, hacc, hleft⟩ := l.account h
  rw [← hleft]
  constructor
  · rintro ⟨hsettle, -⟩
    exact Option.some.inj (hacc.settles.symm.trans hsettle)
  · rintro rfl
    exact ⟨hacc.settles, hacc.booked.others hacc.settles⟩

theorem Life.Returned.blocks {l : Life} (h : l.Returned) (hothers : others l.process l.requests = []) :
    l.final.blocks = l.start.blocks := by
  have hbooked := h.2
  rw [hothers] at hbooked
  simpa [Booked, returned, obtained] using hbooked

/-! ### Lives that compute -/

/-- The life of a process through a list of actions. -/
def Life.of (start : Machine) (answers : List ℕ) (args : CreateArgs) (process : ℕ) (as : List LifeAction)
    (endAnswers : List ℕ) (ending : Ending) (hnew : NewRecord { start.toCore with answers := answers } process)
    (hc : ({ start.toKernel with answers := answers }.createProcess args).isSome = true)
    (hl : (System.runList LifeAction.run (fun _ _ => True)
      (({ start.toKernel with answers := answers }.createProcess args).get hc).2.toCore as).isSome = true)
    (he : (ending.run { (({ start.toKernel with answers := answers }.createProcess args).get hc).2 with
      toCore := { (System.runList LifeAction.run (fun _ _ => True)
        (({ start.toKernel with answers := answers }.createProcess args).get hc).2.toCore as).get hl with
        answers := endAnswers } }).isSome = true)
    (hof : ending.Of ((System.runList LifeAction.run (fun _ _ => True)
      (({ start.toKernel with answers := answers }.createProcess args).get hc).2.toCore as).get hl) process) :
    Life where
  start := start
  answers := answers
  args := args
  process := process
  pid := (({ start.toKernel with answers := answers }.createProcess args).get hc).1
  created := (({ start.toKernel with answers := answers }.createProcess args).get hc).2
  trace := System.emitted LifeAction.run (fun c a => [(c, a)])
    (({ start.toKernel with answers := answers }.createProcess args).get hc).2.toCore as
  last := (System.runList LifeAction.run (fun _ _ => True)
    (({ start.toKernel with answers := answers }.createProcess args).get hc).2.toCore as).get hl
  endAnswers := endAnswers
  ending := ending
  final := (ending.run _).get he
  record := hnew
  creates := (Option.some_get hc).symm
  lives := System.runList_emits (fun _ _ _ => id) (Option.some_get hl).symm
  ends := (Option.some_get he).symm
  ending_of := hof

/-- The machine with two processes, the first of which runs. -/
def twoCreated : Machine :=
  (System.runList manage (fun _ _ => True) initial [.act (create 100), .act (plain .tick),
    .act (create 200)]).getD initial

theorem twoCreated_reach : managed.Reach (fun _ _ => True) twoCreated :=
  (System.Reach.init initial_boot).runList_getD (fun _ _ _ => id) (by decide +kernel)

/-- A third process, with two arguments, is blocked and unblocked and then killed. -/
def blockedLife : Life :=
  .of twoCreated [300, 301, 302, 303, 304, 305, 306, 307] ⟨2, 3, 0, 0⟩ 301
    [⟨.blockProcess 3, []⟩, ⟨.unblockProcess 3, [308]⟩] [] (.kill 3)
    (by decide +kernel) (by decide +kernel) (by decide +kernel) (by decide +kernel) ⟨by decide, by decide +kernel⟩

/-- It gets another priority before it is killed. -/
def renamedLife : Life :=
  .of twoCreated [300, 301, 302, 303, 304, 305, 306, 307] ⟨2, 3, 0, 0⟩ 301
    [⟨.modifyPriority 3 4, [308]⟩] [] (.kill 3)
    (by decide +kernel) (by decide +kernel) (by decide +kernel) (by decide +kernel) ⟨by decide, by decide +kernel⟩

theorem process_memory_returned_blocked : blockedLife.Returned :=
  (process_memory_returned blockedLife twoCreated_reach).mpr
    ⟨by decide +kernel, by unfold Life.KeepsName; decide +kernel⟩

theorem process_memory_returned_renamed :
    ¬∀ l : Life, managed.Reach (fun _ _ => True) l.start → l.Returned := by
  intro hall
  have hleft : settle 0 (own renamedLife.process renamedLife.requests) ≠ some 0 := by decide +kernel
  exact hleft (hall renamedLife twoCreated_reach).1

end BareKernel
