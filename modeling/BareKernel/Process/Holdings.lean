import BareKernel.Links.Ledger
import BareKernel.Process.Priority

/-! What a process holds of the allocator, and what the operations of
`process/scheduler.c` ask of it, each time on behalf of a process: the node for the
process that enters or leaves the ring, the name of its priority, and at its end all
that is its own. The requests are listed beside the operations, in their order. -/

namespace BareKernel.Process

open Function (update)
open Links

/-- A block: what it was allocated for, and where it is. -/
abbrev Block := Kind × ℕ

/-- A request and the process on whose behalf it is made. -/
abbrev Entry := ℕ × Request Block

/-- All kinds but the pipes, which belong to no process. -/
def blockKinds : List Kind := [.stack, .record, .name, .priorityName, .argv, .arg, .node, .sleepEntry]

def blocksOf (live : Kind → List ℕ) : Multiset Block :=
  (blockKinds.flatMap fun kind => (live kind).map fun a => (kind, a) : List Block)

/-- The blocks in use, the pipes apart. -/
def Memory.blocks (m : Memory) : Multiset Block := blocksOf m.live

/-- The node that `removeFromReadyList` frees, if it finds one. -/
def ringNode (c : Core) (process : ℕ) : List Block :=
  if c.readyList = 0 then []
  else
    match findNode c.toReadyRing process c.fuel 0 c.readyList with
    | some (some (_, curr)) => [(.node, curr)]
    | _ => []

/-- What `removeFromProcessesList` frees besides the node, in its order. -/
def holdings (c : Core) (process : ℕ) : List Block :=
  [(.stack, c.stackTop process), (.name, c.name process), (.priorityName, c.priorityName process)] ++
    ((List.range (c.argc process)).map (c.argvEntry (c.argv process))).map (fun entry => (.arg, entry)) ++
    [(.argv, c.argv process), (.record, process)]

/-! ### The requests -/

def addRequests (c : Core) (process : ℕ) : List Entry :=
  if isInReadyList c process = some true then []
  else onBehalf process [.malloc (.node, c.answers.headD 0)]

def removeRequests (c : Core) (process : ℕ) : List Entry := onBehalf process ((ringNode c process).map .free)

def blockRequests (c : Core) (pid : ℤ) : List Entry :=
  match foundprocess c pid with
  | none => []
  | some idx =>
    let proc := c.processesList idx
    if c.state proc ≠ .running ∧ c.state proc ≠ .ready then [] else removeRequests c proc

def unblockRequests (c : Core) (pid : ℤ) : List Entry :=
  if pid = 1 then []
  else
    match foundprocess c pid with
    | none => []
    | some idx =>
      let proc := c.processesList idx
      if c.state proc ≠ .blocked then [] else addRequests c proc

def modifyRequests (c : Core) (pid newPriority : ℤ) : List Entry :=
  match foundprocess c pid with
  | none => []
  | some idx =>
    match findIndex priorityTable 4 newPriority with
    | none => []
    | some _ => onBehalf (c.processesList idx) [.malloc (.priorityName, c.answers.headD 0)]

def wakeRequests (c : Core) (parent : ℕ) : List Entry :=
  if c.waitingOnChild parent = 1 ∧ c.childrenLength parent = 0 then unblockRequests c (c.pid parent) else []

def leaveRequests (c : Core) (process : ℕ) : List Entry :=
  if 0 < c.parentPid process then
    match foundprocess c (c.parentPid process) with
    | none => []
    | some i =>
      let parent := c.processesList i
      wakeRequests (removeChild c parent (c.pid process)) parent
  else []

def removalRequests (c : Core) (process : ℕ) : List Entry :=
  match foundprocess c (c.pid process) with
  | none => []
  | some _ =>
    leaveRequests c process ++ (leaveParent c process).elim [] (removeRequests · process) ++
      onBehalf process ((holdings c process).map .free)

def killRequests (c : Core) (pid : ℤ) : List Entry :=
  if pid < 3 then []
  else
    match foundprocess c pid with
    | none => []
    | some idx =>
      let c := freePid c pid
      let p := c.processesList idx
      removeRequests c p ++ (removeFromReadyList c p).elim [] fun c =>
        removalRequests { c with state := update c.state p .terminated } p

variable {c c' : Core} {live live' : Kind → List ℕ} {L : List ℕ} {kind : Kind} {a p q : ℕ} {b : Block}

/-! ### The blocks in use -/

theorem mem_blockKinds : kind ∈ blockKinds ↔ kind ≠ .pipe := by
  cases kind <;> simp [blockKinds]

theorem mem_blocksOf : b ∈ blocksOf live ↔ b.1 ≠ .pipe ∧ b.2 ∈ live b.1 := by
  obtain ⟨kind, a⟩ := b
  simp only [blocksOf, Multiset.mem_coe, List.mem_flatMap, List.mem_map, Prod.mk.injEq]
  constructor
  · rintro ⟨kind', hk, a', ha, rfl, rfl⟩
    exact ⟨mem_blockKinds.mp hk, ha⟩
  · rintro ⟨hk, ha⟩
    exact ⟨kind, mem_blockKinds.mpr hk, a, ha, rfl, rfl⟩

theorem blocksOf_congr (h : ∀ kind, kind ≠ .pipe → live' kind = live kind) : blocksOf live' = blocksOf live := by
  unfold blocksOf
  congr 1
  apply List.flatMap_congr
  intro kind hk
  rw [h kind (mem_blockKinds.mp hk)]

/-- One more block of a kind, in a list of different kinds. -/
theorem flatMap_cons {kinds : List Kind} (hnodup : kinds.Nodup) (hk : kind ∈ kinds)
    (hcons : live' kind = a :: live kind)
    (hother : ∀ other, other ≠ kind → live' other = live other) :
    (kinds.flatMap fun kind => (live' kind).map fun a => (kind, a)).Perm
      ((kind, a) :: kinds.flatMap fun kind => (live kind).map fun a => (kind, a)) := by
  induction kinds with
  | nil => cases hk
  | cons first kinds ih =>
    obtain ⟨hnot, hnodup⟩ := List.nodup_cons.mp hnodup
    rw [List.flatMap_cons, List.flatMap_cons]
    rcases List.mem_cons.mp hk with rfl | hk
    · have hrest : (kinds.flatMap fun kind => (live' kind).map fun a => (kind, a)) =
          kinds.flatMap fun kind => (live kind).map fun a => (kind, a) := by
        apply List.flatMap_congr
        intro other ho
        rw [hother other]
        rintro rfl
        exact hnot ho
      rw [hrest, hcons]
      exact List.Perm.refl _
    · have hfirst : live' first = live first := by
        apply hother
        rintro rfl
        exact hnot hk
      rw [hfirst]
      exact ((ih hnodup hk).append_left _).trans List.perm_middle

theorem blocksOf_cons (hk : kind ≠ .pipe) (hcons : live' kind = a :: live kind)
    (hother : ∀ other, other ≠ kind → live' other = live other) : blocksOf live' = (kind, a) ::ₘ blocksOf live := by
  rw [blocksOf, blocksOf, Multiset.cons_coe, Multiset.coe_eq_coe]
  exact flatMap_cons (by decide) (mem_blockKinds.mpr hk) hcons hother

theorem blocksOf_malloc (hk : kind ≠ .pipe) (live : Kind → List ℕ) (a : ℕ) :
    blocksOf (update live kind (a :: live kind)) = (kind, a) ::ₘ blocksOf live :=
  blocksOf_cons hk (Function.update_self ..) fun _ ho => Function.update_of_ne ho ..

theorem blocksOf_perm (h : ∀ kind, (live' kind).Perm (live kind)) : blocksOf live' = blocksOf live := by
  rw [blocksOf, blocksOf, Multiset.coe_eq_coe]
  exact List.Perm.flatMap_left _ fun kind _ => (h kind).map _

/-- A block is freed. -/
def freeBlock (live : Kind → List ℕ) (b : Block) : Kind → List ℕ := update live b.1 ((live b.1).erase b.2)

theorem blocksOf_free (hb : b ∈ blocksOf live) : blocksOf live = b ::ₘ blocksOf (freeBlock live b) := by
  obtain ⟨hk, ha⟩ := mem_blocksOf.mp hb
  have hperm : blocksOf live = blocksOf (update live b.1 (b.2 :: (live b.1).erase b.2)) := by
    apply blocksOf_perm
    intro kind
    rcases eq_or_ne kind b.1 with rfl | hne
    · rw [Function.update_self]
      exact List.perm_cons_erase ha
    · rw [Function.update_of_ne hne]
  rw [hperm]
  refine blocksOf_cons hk ?_ fun other ho => ?_
  · rw [freeBlock, Function.update_self, Function.update_self]
  · rw [freeBlock, Function.update_of_ne ho, Function.update_of_ne ho]

/-- Blocks in use are freed one after the other. -/
theorem blocksOf_frees {bs : List Block} {rest : Multiset Block} (h : (bs : Multiset Block) + rest ≤ blocksOf live) :
    blocksOf live = bs + blocksOf (bs.foldl freeBlock live) ∧ rest ≤ blocksOf (bs.foldl freeBlock live) := by
  induction bs generalizing live with
  | nil => exact ⟨(zero_add _).symm, by simpa using h⟩
  | cons b bs ih =>
    rw [← Multiset.cons_coe, Multiset.cons_add] at h
    have hfree := blocksOf_free (Multiset.mem_of_le h (Multiset.mem_cons_self b _))
    rw [hfree] at h ⊢
    obtain ⟨heq, hle⟩ := ih ((Multiset.cons_le_cons_iff b).mp h)
    rw [List.foldl_cons, ← Multiset.cons_coe, Multiset.cons_add]
    exact ⟨congrArg (b ::ₘ ·) heq, hle⟩

end BareKernel.Process
