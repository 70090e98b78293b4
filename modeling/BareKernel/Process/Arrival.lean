import BareKernel.Process.Accounts
import BareKernel.Process.Requests

/-! The account of a new process: what is served to `createProcess`, one answer of the
allocator after the other, is what the process holds afterwards. -/

namespace BareKernel.Process

open Function (update)
open Links

variable {c c' : Core} {m m' : Memory} {kinds : List Kind} {held : Multiset Block} {L : List ℕ}
  {n i argv stackTop p : ℕ} {args : CreateArgs}

/-- The requests of a new process, each with the answer that it gets. -/
def obtains (process : ℕ) (kinds : List Kind) (answers : List ℕ) : List Entry :=
  onBehalf process ((kinds.zip answers).map .malloc)

/-- Who makes the requests that are served holds their blocks. -/
theorem serve_account (hk : ∀ kind ∈ kinds, kind ≠ .pipe) (hle : held ≤ m.blocks) (h : m.serve kinds = some m') :
    Account p m.blocks m'.blocks held ((kinds.zip m.answers : List Block) + held) (obtains p kinds m.answers) := by
  induction kinds generalizing m held with
  | nil =>
    obtain rfl := Option.some.inj h
    rw [List.zip_nil_left, Multiset.coe_nil, zero_add]
    exact .nil hle
  | cons kind kinds ih =>
    rw [Memory.serve] at h
    cases hans : m.answers with
    | nil => simp [hans] at h
    | cons a rest =>
      rw [hans] at h
      dsimp only at h
      split at h
      · cases h
      · rename_i hbad
        rw [not_or] at hbad
        have hout : ((kind, a) : Block) ∉ m.blocks := fun hm => hbad.2 (mem_blocksOf.mp hm).2
        have hfirst := Account.malloc (o := p) hle hout
        have hblocks : (kind, a) ::ₘ m.blocks = blocksOf (update m.live kind (a :: m.live kind)) :=
          (blocksOf_malloc (hk kind List.mem_cons_self) m.live a).symm
        rw [hblocks] at hfirst
        have hrest := ih (fun other ho => hk other (List.mem_cons_of_mem kind ho)) hfirst.le h
        have hsum : ((kinds.zip rest : List Block) : Multiset Block) + (kind, a) ::ₘ held =
            (((kind :: kinds).zip (a :: rest) : List Block) : Multiset Block) + held := by
          rw [List.zip_cons_cons, ← Multiset.cons_coe, Multiset.cons_add, Multiset.add_cons]
        rw [← hsum]
        exact hfirst.trans hrest

/-! ### What the blocks are -/

theorem copyContext_answers (hrun : copyContext c p stackTop args = some c') :
    c.answers = c'.name p :: c'.priorityName p :: c'.answers ∧ c'.stackTop p = stackTop := by
  unfold copyContext at hrun
  rw [assignPid_eq] at hrun
  obtain ⟨⟨name, c₁⟩, hname, hrun⟩ := Option.bind_eq_some_iff.mp hrun
  have hfirst := mmMallocUsed_answers hname
  obtain ⟨-, -, rest, rfl⟩ := mmMallocUsed_some hname
  obtain ⟨⟨priorityName, c₂⟩, hprio, hret⟩ := Option.bind_eq_some_iff.mp hrun
  have hsecond := mmMallocUsed_answers hprio
  obtain ⟨-, -, rest', rfl⟩ := mmMallocUsed_some hprio
  obtain rfl := Option.some.inj hret
  refine ⟨?_, Function.update_self ..⟩
  show c.answers = update c.name p name p :: update c.priorityName p priorityName p :: rest'
  rw [Function.update_self, Function.update_self]
  exact hfirst.trans (congrArg (name :: ·) hsecond)

/-- The argument strings are stored at the indices from `i` on. -/
theorem loadArgsFrom_answers (hrun : loadArgsFrom argv n i c = some c') :
    c.answers = (List.range n).map (fun j => c'.argvEntry argv (i + j)) ++ c'.answers ∧
      (∀ j < i, c'.argvEntry argv j = c.argvEntry argv j) ∧
      ∃ answers live entries, c' = { c with answers := answers, live := live, argvEntry := entries } := by
  induction n generalizing i c with
  | zero =>
    obtain rfl := Option.some.inj hrun
    exact ⟨rfl, fun _ _ => rfl, _, _, _, rfl⟩
  | succ n ih =>
    obtain ⟨⟨arg, c₁⟩, harg, hrest⟩ := Option.bind_eq_some_iff.mp hrun
    have hans := mmMallocUsed_answers harg
    obtain ⟨-, -, rest, rfl⟩ := mmMallocUsed_some harg
    obtain ⟨hanswers, hbefore, answers, live, entries, heq⟩ := ih hrest
    refine ⟨?_, fun j hj => ?_, answers, live, entries, heq⟩
    · have hself : c'.argvEntry argv (i + 0) = arg := by
        rw [Nat.add_zero, hbefore i (Nat.lt_succ_self i)]
        simp
      have hshift : (List.range n).map (fun j => c'.argvEntry argv (i + 1 + j)) =
          (List.range n).map ((fun j => c'.argvEntry argv (i + j)) ∘ Nat.succ) := by
        apply List.map_congr_left
        intro j _
        rw [Function.comp_apply, Nat.succ_eq_add_one, Nat.add_assoc, Nat.add_comm 1 j]
      rw [List.range_succ_eq_map, List.map_cons, List.map_map, ← hshift, hself, List.cons_append, ← hanswers]
      exact hans
    · rw [hbefore j (by omega)]
      have hne : j ≠ i := by omega
      simp [hne]

theorem loadArgs_answers {argc : ℕ} (hrun : loadArgs c p argc = some c') :
    c.answers = c'.argv p :: ((List.range argc).map (c'.argvEntry (c'.argv p)) ++ c'.answers) ∧ c'.argc p = argc ∧
      c'.stackTop = c.stackTop ∧ c'.name = c.name ∧ c'.priorityName = c.priorityName := by
  obtain ⟨⟨argv, c₁⟩, hargv, hrun⟩ := Option.bind_eq_some_iff.mp hrun
  have hans := mmMallocUsed_answers hargv
  obtain ⟨-, -, rest, rfl⟩ := mmMallocUsed_some hargv
  obtain ⟨c₂, hload, hret⟩ := Option.bind_eq_some_iff.mp hrun
  obtain ⟨hentries, -, answers, live, entries, rfl⟩ := loadArgsFrom_answers hload
  obtain rfl := Option.some.inj hret
  refine ⟨?_, Function.update_self .., rfl, rfl, rfl⟩
  show c.answers = update c.argv p argv p :: ((List.range argc).map (entries (update c.argv p argv p)) ++ answers)
  rw [Function.update_self, hans]
  congr 1
  simpa using hentries

/-- The answers that a new process gets for its context and its node. -/
theorem enterProcess_answers (h : Nodes c L) (hp : p ∉ ringProcs c L)
    (hrun : enterProcess c p stackTop args = some c') :
    ∃ node, c.answers = c'.name p :: c'.priorityName p :: c'.argv p ::
        ((List.range args.argc).map (c'.argvEntry (c'.argv p)) ++ node :: c'.answers) ∧
      c'.stackTop p = stackTop ∧ c'.argc p = args.argc ∧ ringNode c' p = [(.node, node)] := by
  obtain ⟨c₁, hcopy, hrun⟩ := Option.bind_eq_some_iff.mp hrun
  obtain ⟨c₂, hload, hadd⟩ := Option.bind_eq_some_iff.mp hrun
  have hfill := copyContext_effect hcopy
  obtain ⟨hcontext, hstack⟩ := copyContext_answers hcopy
  have haside := (linkParent_aside c₁ p).trans (loadArgs_aside hload)
  obtain ⟨hargs, hargc, hstack', hname, hprio⟩ := loadArgs_answers hload
  have hlink : (linkParent c₁ p).answers = c₁.answers ∧ (linkParent c₁ p).stackTop = c₁.stackTop ∧
      (linkParent c₁ p).name = c₁.name ∧ (linkParent c₁ p).priorityName = c₁.priorityName := by
    obtain ⟨parents, children, lengths, hlink⟩ := linkParent_eq c₁ p
    rw [hlink]
    exact ⟨rfl, rfl, rfl, rfl⟩
  obtain ⟨list, hlist⟩ := addToProcessList_eq c₂ p
  rw [hlist] at hadd
  set c₃ : Core := { c₂ with processesList := list, nProcesses := c₂.nProcesses + 1 } with hc₃
  have hring : c₃.toReadyRing = c.toReadyRing := haside.ring.trans hfill.ring
  have hN : Nodes c₃ L := h.congr hring ((haside.live .node rfl).trans (hfill.live .node rfl))
  have hnot : p ∉ ringProcs c₃ L := by
    rw [ringProcs_congr hring]
    exact hp
  rcases addToReadyList_cases hN hadd with ⟨hin, -⟩ | ⟨-, node, rest, r, hans, -, rfl, hN', hinfo⟩
  · exact absurd hin hnot
  · refine ⟨node, ?_, ?_, hargc, ?_⟩
    · show c.answers = c₂.name p :: c₂.priorityName p :: c₂.argv p ::
        ((List.range args.argc).map (c₂.argvEntry (c₂.argv p)) ++ node :: rest)
      have hrest : c₂.answers = node :: rest := hans
      have hcontext : c.answers = c₁.name p :: c₁.priorityName p :: c₁.answers := hcontext
      rw [hcontext, ← hlink.1, hargs, hrest, hname, hprio, hlink.2.2.1, hlink.2.2.2]
    · show c₂.stackTop p = stackTop
      rw [hstack', hlink.2.1, hstack]
    · apply ringNode_of_mem hN' (by simp)
      show r.processInfo node = p
      rw [hinfo, Function.update_self]

end BareKernel.Process
