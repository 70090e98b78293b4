import BareKernel.Kernel.PipeFifo
import BareKernel.Kernel.PipeLaw

/-! Several pipes and the two semaphores that they share. A pipe has the semaphores to
itself as long as no other pipe is live when tokens are taken and given back, and a new
pipe needs them as they were when they were opened. -/

namespace BareKernel

open Function (update)
open Process Links Machine

variable {k k' k₁ : Kernel} {m m' : Machine} {x y : PipeMachine} {a : Action} {S : Side → FifoSem ℕ} {t : Transfer}
  {side : Side} {h : History} {p q n N pipe offset : ℕ} {answers : List ℕ} {r fd pid : ℤ} {again : Bool}
  {es : List PipeEvent}

/-! ### What other calls leave of the pipes -/

/-- Each pipe of `pipes` is in a block of its own. -/
structure Kernel.OwnBlocks (k : Kernel) : Prop where
  live : ∀ i, k.pipes i ≠ 0 → k.pipes i ∈ k.live .pipe
  inj : ∀ i j, k.pipes i ≠ 0 → k.pipes i = k.pipes j → i = j

theorem Kernel.OwnBlocks.hasPipe (h : k.OwnBlocks) (hq : k.HasPipe q) : q ∈ k.live .pipe := by
  obtain ⟨h0, i, -, rfl⟩ := hq
  exact h.live i h0

/-- Pipes and entries may have been given up; the bytes of the others are where they were. -/
structure Shrinks (k k' : Kernel) : Prop where
  buffer : ∀ q, k'.HasPipe q → k.HasPipe q ∧ SameBuffer k k' q
  sems : ∀ q, k.HasSems q → k'.HasSems q
  inUse : ∀ fd, k'.inUse fd = true → k.inUse fd = true ∧ k'.fdPipe fd = k.fdPipe fd
  blocks : k.OwnBlocks → k'.OwnBlocks

theorem Shrinks.trans (h : Shrinks k k₁) (h' : Shrinks k₁ k') : Shrinks k k' := by
  refine ⟨fun q hq => ?_, fun q hq => h'.sems q (h.sems q hq), fun fd hfd => ?_, fun hown => h'.blocks (h.blocks hown)⟩
  · obtain ⟨hq₁, hbuf'⟩ := h'.buffer q hq
    obtain ⟨hq₀, hbuf⟩ := h.buffer q hq₁
    exact ⟨hq₀, hbuf.trans hbuf'⟩
  · obtain ⟨hfd₁, hpipe'⟩ := h'.inUse fd hfd
    obtain ⟨hfd₀, hpipe⟩ := h.inUse fd hfd₁
    exact ⟨hfd₀, hpipe'.trans hpipe⟩

/-- The rows of the processes and the counts may change. -/
theorem Shrinks.entries (hs : SameEntries k k') (hbuf : ∀ q, SameBuffer k k' q) : Shrinks k k' := by
  refine ⟨fun q hq => ⟨hs.hasPipe.mp hq, hbuf q⟩, fun q hq => (hbuf q).hasSems hq, fun fd hfd => ?_,
    fun hown => ⟨?_, ?_⟩⟩
  · rw [hs.inUse] at hfd
    exact ⟨hfd, hs.fdPipe fd hfd⟩
  · rw [hs.pipes, hs.live]
    exact hown.live
  · rw [hs.pipes]
    exact hown.inj

theorem Shrinks.of_eq (hp : k'.toPipes = k.toPipes) (hl : k'.live .pipe = k.live .pipe) : Shrinks k k' :=
  .entries (SameFds.of_eq hp hl).toSameEntries fun q => .of_eq hp q

theorem Shrinks.refl (k : Kernel) : Shrinks k k := .of_eq rfl rfl

theorem freePipe_blocks (hown : k.OwnBlocks) (i : ℕ) : (k.freePipe i).OwnBlocks := by
  have hslot (j : ℕ) (hj : (k.freePipe i).pipes j ≠ 0) : j ≠ i ∧ (k.freePipe i).pipes j = k.pipes j := by
    have hne : j ≠ i := by
      rintro rfl
      exact hj (Function.update_self ..)
    exact ⟨hne, Function.update_of_ne hne ..⟩
  refine ⟨fun j hj => ?_, fun j l hj hjl => ?_⟩
  · obtain ⟨hne, hsame⟩ := hslot j hj
    rw [hsame] at hj ⊢
    show k.pipes j ∈ update k.live .pipe ((k.live .pipe).erase (k.pipes i)) .pipe
    rw [Function.update_self]
    exact (List.mem_erase_of_ne fun he => hne (hown.inj j i hj he)).mpr (hown.live j hj)
  · obtain ⟨-, hsame⟩ := hslot j hj
    obtain ⟨-, hsame'⟩ := hslot l (by rwa [← hjl])
    rw [hsame] at hj
    exact hown.inj j l hj (by rw [← hsame, ← hsame', hjl])

theorem freePipe_hasPipe {i : ℕ} (hq : (k.freePipe i).HasPipe q) : k.HasPipe q := by
  obtain ⟨h0, j, hj, hjq⟩ := hq
  have hne : j ≠ i := by
    rintro rfl
    exact h0 (hjq.symm.trans (Function.update_self ..))
  exact ⟨h0, j, hj, (Function.update_of_ne hne ..).symm.trans hjq⟩

theorem pipeDestroy_shrinks (k : Kernel) (fd : ℤ) : Shrinks k (k.pipeDestroy fd) := by
  have hbuf (q : ℕ) : SameBuffer k (k.pipeDestroy fd) q := ⟨rfl, rfl, rfl, rfl, rfl⟩
  refine ⟨fun q hq => ⟨freePipe_hasPipe hq, hbuf q⟩, fun q => (hbuf q).hasSems, fun e he => ?_, fun hown => ?_⟩
  · have hne : e ≠ fd - 1 := by
      rintro rfl
      change update (update k.inUse fd false) (fd - 1) false (fd - 1) = true at he
      rw [Function.update_self] at he
      cases he
    have hne' : e ≠ fd := by
      rintro rfl
      change update (update k.inUse e false) (e - 1) false e = true at he
      rw [Function.update_of_ne hne, Function.update_self] at he
      cases he
    obtain ⟨huse, hpipe, -⟩ := pipeDestroy_entry (k := k) hne' hne
    exact ⟨huse ▸ he, hpipe⟩
  · have hclear : Kernel.OwnBlocks { k with
        inUse := update (update k.inUse fd false) (fd - 1) false
        fdPipe := update (update k.fdPipe fd 0) (fd - 1) 0
        fdType := update (update k.fdType fd .unused) (fd - 1) .unused } := ⟨hown.live, hown.inj⟩
    exact freePipe_blocks hclear _

theorem pipeClose_shrinks (k : Kernel) (fd : ℤ) : Shrinks k (k.pipeClose fd).2 := by
  rcases pipeClose_cases k fd with ⟨hsame, -⟩ | ⟨i, -, -, -, -, hclose⟩
  · rw [hsame]
    exact .refl k
  · have hdrop : Shrinks k (k.dropFd fd i) := .entries (dropFd_entries k fd i) fun q => ⟨rfl, rfl, rfl, rfl, rfl⟩
    rw [hclose]
    split
    · exact hdrop.trans (pipeDestroy_shrinks _ fd)
    · exact hdrop

theorem closeFirst_shrinks (k : Kernel) (n : ℕ) : Shrinks k (k.closeFirst n) := by
  induction n with
  | zero => exact .refl k
  | succ n ih =>
    rw [closeFirst_succ]
    exact ih.trans (pipeClose_shrinks _ _)

theorem createProcess_shrinks {args : CreateArgs} (hrun : k.createProcess args = some (r, k')) : Shrinks k k' := by
  rcases createProcess_cases hrun with ⟨-, -, answers, live, rfl, hlive⟩ |
    ⟨p, answers, live, c, -, -, -, -, hlive, henter, rfl, -⟩
  · exact .of_eq rfl (hlive .pipe (by simp))
  · have hcore : Shrinks k { k with toCore := c } :=
      .of_eq rfl ((enterProcess_pipes henter).trans (hlive .pipe (by simp) (by simp)))
    refine hcore.trans (openProcess_induction (R := fun k' => Shrinks { k with toCore := c } k') _ p ?_
      (fun k₁ fd h₁ => ?_) fun k₁ waiting h₁ => ?_)
    · exact .entries ⟨rfl, rfl, fun _ _ => rfl, rfl, fun _ _ => rfl, fun _ _ => rfl⟩ fun q => ⟨rfl, rfl, rfl, rfl, rfl⟩
    · exact h₁.trans (.entries (pipeAccses_entries k₁ _ fd) fun q => pipeAccses_buffer k₁ _ fd q)
    · exact h₁.trans (.of_eq rfl rfl)

/-- Every call but the creation of a pipe. -/
theorem call_shrinks {call : Call} (hinv : KernelInv k) (hc : call ≠ .createPipe)
    (hrun : k.call call = some (r, k', again)) : Shrinks k k' := by
  cases call with
  | createProcess args =>
    obtain ⟨⟨v, k₁⟩, hcreate, hret⟩ := Option.map_eq_some_iff.mp hrun
    obtain ⟨-, rfl, -⟩ : v = r ∧ k₁ = k' ∧ false = again := by simpa using hret
    exact createProcess_shrinks hcreate
  | killProcess pid =>
    obtain ⟨⟨v, c, b⟩, hkill, hret⟩ := Option.map_eq_some_iff.mp hrun
    obtain ⟨-, rfl, -⟩ : v = r ∧ _ = k' ∧ b = again := by simpa using hret
    exact .of_eq rfl (killProcess_pipes hkill)
  | exitProcess =>
    obtain ⟨k₁, hexit, hret⟩ := Option.map_eq_some_iff.mp hrun
    obtain ⟨-, rfl, -⟩ : 0 = r ∧ k₁ = k' ∧ true = again := by simpa using hret
    obtain ⟨L, hL⟩ := hinv.ready
    have hsame := exitProcess_pipes ⟨L, hL.ringInv⟩ hexit
    exact (closeFirst_shrinks _ rowSize).trans (.of_eq hsame.toPipes hsame.live)
  | pipeClose fd =>
    obtain ⟨-, rfl, -⟩ : _ = r ∧ (k.pipeClose fd).2 = k' ∧ false = again := by simpa [Kernel.call] using hrun
    exact pipeClose_shrinks _ fd
  | createPipe => exact absurd rfl hc
  | _ =>
    have hstill := call_still hrun trivial
    exact .of_eq hstill.toPipes hstill.quiet.pipes

theorem step_shrinks (hinv : KernelInv m.toKernel) (hc : a.call ≠ .createPipe) (hrun : m.step a = some m') :
    Shrinks m.toKernel m'.toKernel := by
  obtain ⟨r, k, again, hcall, hcases⟩ := step_cases hrun
  have hbefore : Shrinks m.toKernel (m.before a) := .of_eq rfl rfl
  have hk := hbefore.trans (call_shrinks (hinv.supply a.answers) hc hcall)
  rcases hcases with ⟨-, rfl⟩ | ⟨-, cpu, c, hsched, rfl⟩
  · exact hk
  · exact hk.trans (.of_eq rfl (scheduler_quiet hsched).pipes)

/-! ### The transfers that can proceed -/

/-- The process has come for a token of this pipe and has not used it. -/
def PipeMachine.ComesTo (x : PipeMachine) (pipe : ℕ) (side : Side) (p : ℕ) : Prop :=
  ∃ t, x.transfer p = some t ∧ t.pipe = pipe ∧ t.side = side ∧ t.waited = true

/-- This many transfers can proceed on this side of the pipe: its semaphore has tokens for
some of them, and the others hold one that they have not used. -/
def PipeMachine.CanProceed (x : PipeMachine) (pipe : ℕ) (side : Side) (n : ℕ) : Prop :=
  let id := side.waitsFor x.toKernel pipe
  ∃ held : List ℕ, held.Nodup ∧ (∀ p, p ∈ held ↔ x.ComesTo pipe side p ∧ ¬Inside x.toMachine (.sem id) p) ∧
    (x.sems id).value + held.length = n

/-- The bytes of the pipe come out as they went in, it holds no more than it has room for,
and the transfers that can proceed are those that its own bytes and free places allow. -/
structure Isolated (x : PipeMachine) (pipe : ℕ) (h : History) : Prop where
  isPrefix : h.taken <+: h.stored
  room : h.stored.length ≤ h.taken.length + bufferSize
  proceed : ∀ side : Side, x.CanProceed pipe side (side.tokens (h.stored.length - h.taken.length))

/-- The pipe holds `n` bytes, and as many of the tokens are its own. -/
structure Share (x : PipeMachine) (S : Side → FifoSem ℕ) (pipe n : ℕ) (h : History) : Prop where
  holders : ∀ side : Side, (S side).Holders (x.ComesTo pipe side) (side.tokens n)
  bytes : x.HoldsBytes pipe n h

theorem Share.isolated (h' : Share x S pipe n h) (hp : Pool x S N) (hsems : x.HasSems pipe) : Isolated x pipe h := by
  have hlength := h'.bytes.length
  have hroom := h'.bytes.room
  refine ⟨h'.bytes.isPrefix, by omega, fun side => ?_⟩
  have htracks := hp.tracks side
  have hn : h.stored.length - h.taken.length = n := by omega
  obtain ⟨held, hnodup, hheld, hsum⟩ := h'.holders side
  unfold PipeMachine.CanProceed
  rw [hsems side, hn]
  refine ⟨held, hnodup, fun p => ?_, ?_⟩
  · rw [hheld, htracks.waiting]
  · rw [htracks.value]
    exact_mod_cast hsum

/-! ### Before the first pipe -/

/-- No pipe has opened the semaphores. -/
structure Unopened (x : PipeMachine) : Prop where
  ordered : KernelInv x.toKernel ∧ WhyBlocked x.toMachine ∧ Alive x.toCore
  blocks : x.OwnBlocks
  noPipe : ∀ q, ¬x.HasPipe q
  noEnd : ∀ fd, x.inUse fd = false
  closed : ∀ side : Side, ¬x.IsOpen side.semId
  nobody : ∀ (side : Side) (p : ℕ), ¬Inside x.toMachine (.sem side.semId) p
  idle : ∀ p, x.transfer p = none

/-- Live pipes and those that entries name have the semaphores of pipes. -/
structure Kernel.PipesReady (k : Kernel) : Prop where
  blocks : k.OwnBlocks
  sems : ∀ q, k.HasPipe q → k.HasSems q
  ends : ∀ fd, k.inUse fd = true → k.HasSems (k.fdPipe fd)

theorem Kernel.PipesReady.shrink (h : k.PipesReady) (hs : Shrinks k k') : k'.PipesReady := by
  refine ⟨hs.blocks h.blocks, fun q hq => hs.sems q (h.sems q (hs.buffer q hq).1), fun fd hfd => ?_⟩
  obtain ⟨huse, hpipe⟩ := hs.inUse fd hfd
  rw [hpipe]
  exact hs.sems _ (h.ends fd huse)

/-- Each live pipe has the tokens of its bytes. -/
structure Shares (x : PipeMachine) (S : Side → FifoSem ℕ) (es : List PipeEvent) : Prop where
  ready : x.PipesReady
  shares : ∀ q, x.HasPipe q → ∃ n, Share x S q n (history q es)

/-- The machine goes on with the tokens and the transfers as they were. -/
theorem Shares.keep {fs : List PipeEvent} (h : Shares x S es) (hs : Shrinks x.toKernel y.toKernel)
    (hcomes : ∀ q side p, y.ComesTo q side p ↔ x.ComesTo q side p) (hes : ∀ q, history q fs = history q es) :
    Shares y S fs := by
  refine ⟨h.ready.shrink hs, fun q hq => ?_⟩
  obtain ⟨hlive, hbuf⟩ := hs.buffer q hq
  obtain ⟨n, hholders, hbytes⟩ := h.shares q hlive
  refine ⟨n, fun side => (hholders side).congr (hcomes q side), ?_⟩
  rw [hes]
  exact hbuf.holdsBytes hbytes

/-! ### A new pipe -/

/-- A creation that fails leaves the live pipes alone. -/
theorem createPipe_shrinks (hown : k.OwnBlocks) (h : k.createPipe.1 = none) : Shrinks k k.createPipe.2 := by
  rcases createPipe_cases k with ⟨-, hsame⟩ | ⟨i, pipe, n, s, t, hfds, -⟩
  · have hfds := hsame fun q hq => hown.hasPipe hq
    rcases createPipe_init k with ⟨-, hpipes, -, hlive⟩ | ⟨pipe, hfresh, hinit, -⟩
    · exact .of_eq hpipes (by rw [hlive])
    · refine ⟨fun q hq => ?_, fun q hq => ?_, fun fd hfd => ?_, fun _ => ⟨?_, ?_⟩⟩
      · have hq' := hfds.hasPipe.mp hq
        refine ⟨hq', hinit.others q ?_⟩
        rintro rfl
        exact hfresh (hown.hasPipe hq')
      · by_cases hqp : q = pipe
        · exact hqp ▸ hinit.sems
        · exact (hinit.others q hqp).hasSems hq
      · rw [hfds.inUse] at hfd
        exact ⟨hfd, hfds.fdPipe fd hfd⟩
      · rw [hfds.pipes, hfds.live]
        exact hown.live
      · rw [hfds.pipes]
        exact hown.inj
  · rw [hfds] at h
    cases h

/-- A new pipe gets the tokens of an empty one. -/
theorem Shares.create {i s t : ℕ} (h : Shares x S es) (hm : PipeMade x.toKernel y.toKernel i pipe n s t)
    (hinit : PipeInit x.toKernel y.toKernel pipe) (hcomes : ∀ q side p, y.ComesTo q side p ↔ x.ComesTo q side p)
    (hidle : ∀ side : Side, (S side).Holders (x.ComesTo pipe side) (side.tokens 0)) :
    Shares y S (es ++ [.created pipe]) := by
  have hother (q : ℕ) (hq : x.HasPipe q) : q ≠ pipe := by
    rintro rfl
    exact hm.block.2 (h.ready.blocks.hasPipe hq)
  have hpipes : y.pipes = update x.pipes i pipe := by rw [hm.toPipes]
  have hkept (q : ℕ) (hq : x.HasSems q) : y.HasSems q := by
    by_cases hqp : q = pipe
    · exact hqp ▸ hinit.sems
    · exact (hinit.others q hqp).hasSems hq
  refine ⟨⟨⟨fun j hj => ?_, fun j l hj hjl => ?_⟩, fun q hq => ?_, fun fd hfd => ?_⟩, fun q hq => ?_⟩
  · rw [hpipes, hm.live] at *
    by_cases hji : j = i
    · rw [hji, Function.update_self]
      exact List.mem_cons_self
    · rw [Function.update_of_ne hji] at hj ⊢
      exact List.mem_cons_of_mem _ (h.ready.blocks.live j hj)
  · rw [hpipes] at hj hjl
    have hnew (j : ℕ) (hj : x.pipes j ≠ 0) : x.pipes j ≠ pipe := fun he => hm.block.2 (he ▸ h.ready.blocks.live j hj)
    by_cases hji : j = i <;> by_cases hli : l = i
    · rw [hji, hli]
    · rw [hji, Function.update_self, Function.update_of_ne hli] at hjl
      exact absurd hjl.symm (hnew l (hjl ▸ hm.block.1))
    · rw [hli, Function.update_self, Function.update_of_ne hji] at hjl
      exact absurd hjl (hnew j (hjl ▸ hm.block.1))
    · rw [Function.update_of_ne hji] at hj hjl
      rw [Function.update_of_ne hli] at hjl
      exact h.ready.blocks.inj j l hj hjl
  · rcases hm.hasPipe.mp hq with hq | rfl
    · exact hkept q (h.ready.sems q hq)
    · exact hinit.sems
  · by_cases hfd₁ : fd = n
    · rw [hfd₁, hm.names_read.fdPipe]
      exact hinit.sems
    · by_cases hfd₂ : fd = (n + 1 : ℕ)
      · rw [hfd₂, hm.names_write.fdPipe]
        exact hinit.sems
      · obtain ⟨huse, hpipe, -⟩ := hm.entry hfd₁ hfd₂
        rw [hpipe]
        exact hkept _ (h.ready.ends fd (huse ▸ hfd))
  · rw [history_append]
    rcases hm.hasPipe.mp hq with hq | rfl
    · have hne := hother q hq
      obtain ⟨l, hholders, hbytes⟩ := h.shares q hq
      refine ⟨l, fun side => (hholders side).congr (hcomes q side), ?_⟩
      rw [List.foldl_cons, List.foldl_nil, History.step, if_neg hne.symm]
      exact (hinit.others q hne).holdsBytes hbytes
    · refine ⟨0, fun side => (hidle side).congr (hcomes q side), ?_⟩
      rw [List.foldl_cons, List.foldl_nil, History.step, if_pos rfl]
      exact hinit.bytes

/-! ### Runs of several pipes -/

/-- The call does not use the semaphores of the pipes. -/
def Call.LeavesSems : Call → Prop
  | .semOpen id _ | .semClose id | .semPost id | .semWait id => id ≠ 1 ∧ id ≠ 2
  | _ => True

namespace PipeMachine

/-- A process that is killed is in no transfer. -/
def SparesTransfers (x : PipeMachine) : Call → Prop
  | .killProcess pid => x.transfer (getProcessByPid x.toCore pid) = none
  | _ => True

/-- A pipe is created while the semaphores are closed or have the tokens of an empty pipe. -/
def MayCreate (x : PipeMachine) (a : Action) : Prop :=
  match a.call with
  | .createPipe => (x.before a).createPipe.1 ≠ none →
    ∀ side : Side, x.IsOpen side.semId → (x.sems side.semId).value = side.tokens 0
  | _ => True

/-- Nobody waits at the semaphore, or the first one that does is in a transfer on the pipe. -/
def Reaches (x : PipeMachine) (id : ℤ) (pipe : ℕ) : Prop :=
  ∀ pid ∈ (x.sems id).queue.head?, ∃ t ∈ x.transfer (getProcessByPid x.toCore pid), t.pipe = pipe

/-- A token is taken only while no other pipe is live, and the one that is given back
reaches the pipe of the transfer and no other. -/
def KeepsTokens (x : PipeMachine) (t : Transfer) : Prop :=
  if t.waited then ∀ q, x.HasPipe q → (q = t.pipe ↔ x.Reaches (t.side.posts x.toKernel t.pipe) q)
  else t.Unfinished → (x.sems (t.side.waitsFor x.toKernel t.pipe)).value ≠ 0 → ∀ q, x.HasPipe q → q = t.pipe

end PipeMachine

/-- The transfers take and give tokens that are those of their pipe alone. -/
def PipeAction.KeepsApart (x : PipeMachine) : PipeAction → Prop
  | .call a => a.SharesSem x.toMachine 1 ∧ a.SharesSem x.toMachine 2 ∧ a.call.LeavesSems ∧ x.SparesTransfers a.call ∧
      x.MayCreate a
  | .pipeWrite _ _ _ | .pipeRead _ _ => True
  | .goOn _ _ => x.current.elim True fun t => x.MayWait t ∧ x.KeepsTokens t

theorem comesTo_setCurrent {o : Option Transfer} : (x.setCurrent o m).ComesTo pipe side p ↔
    if p = x.currentProcess then ∃ t, o = some t ∧ t.pipe = pipe ∧ t.side = side ∧ t.waited = true
    else x.ComesTo pipe side p := by
  unfold PipeMachine.ComesTo PipeMachine.setCurrent
  dsimp only
  by_cases hp : p = x.currentProcess
  · subst hp
    rw [Function.update_self, if_pos rfl]
  · rw [Function.update_of_ne hp, if_neg hp]

/-- Neither the transfer before nor the one after has waited for a token. -/
theorem comesTo_begin {o : Option Transfer} (hcur : ∀ t, x.current = some t → t.waited = false)
    (ho : ∀ t, o = some t → t.waited = false) : (x.setCurrent o m).ComesTo pipe side p ↔ x.ComesTo pipe side p := by
  rw [comesTo_setCurrent]
  split_ifs with hp
  · refine iff_of_false ?_ ?_
    · rintro ⟨t, ht, -, -, hw⟩
      rw [ho t ht] at hw
      cases hw
    · rintro ⟨t, ht, -, -, hw⟩
      rw [hcur t (by rwa [hp] at ht)] at hw
      cases hw
  · rfl

theorem comesTo_afterCall (hends : ∀ p, a.call.ends (x.before a) p → x.transfer p = none) :
    (x.afterCall a m).ComesTo pipe side p ↔ x.ComesTo pipe side p := by
  have htransfer : (x.afterCall a m).transfer p = x.transfer p := by
    show (if a.call.ends (x.before a) p then none else x.transfer p) = x.transfer p
    split
    · rename_i hp
      exact (hends p hp).symm
    · rfl
  unfold PipeMachine.ComesTo
  rw [htransfer]

theorem PipeMachine.SparesTransfers.ends (h : x.SparesTransfers a.call) (hcur : x.current = none) :
    ∀ p, a.call.ends (x.before a) p → x.transfer p = none := by
  intro p hp
  cases hc : a.call with
  | killProcess pid =>
    rw [hc] at h hp
    obtain ⟨-, rfl⟩ := hp
    exact h
  | exitProcess =>
    rw [hc] at hp
    obtain ⟨-, rfl⟩ := hp
    exact hcur
  | _ =>
    rw [hc] at hp
    exact hp.elim

/-- Whom a post wakes. -/
theorem Pool.reaches (hf : Pool x S N) : x.Reaches side.semId pipe ↔
    ∀ p ∈ (S side).waiting.head?, x.ComesTo pipe side p := by
  have htracks := hf.tracks side
  unfold PipeMachine.Reaches
  rw [htracks.queue]
  cases hw : (S side).waiting with
  | nil => simp
  | cons p rest =>
    have hmem : p ∈ (S side).waiting := by rw [hw]; exact List.mem_cons_self
    have hin := ((htracks.waiting p).mp hmem).1
    have hfound : getProcessByPid x.toCore (x.pid p) = p := htracks.at'.inv.pids.getProcessByPid hin
    obtain ⟨t, ht, hside, hwaited⟩ := (hf.books side).arrived p hmem
    simp only [List.map_cons, List.head?_cons, Option.mem_some_iff, forall_eq', hfound]
    constructor
    · rintro ⟨t', ht', hpipe⟩
      obtain rfl := Option.some.inj (ht.symm.trans ht')
      exact ⟨t, ht, hpipe, hside, hwaited⟩
    · rintro ⟨t', ht', hpipe, -⟩
      exact ⟨t', ht', hpipe⟩

/-- The process takes a token for its pipe or waits for one. -/
theorem Shares.wait (hf : Pool x S N) (h : Shares x S es) (hcur : x.current = some t) (hw : t.waited = false)
    (hun : t.Unfinished) (hok : x.KeepsTokens t) (hrun : x.toMachine.step (x.waitAction t offset answers) = some m) :
    Shares (x.setCurrent (some t.wait) m) (update S t.side ((S t.side).step (.wait x.currentProcess))) es := by
  obtain ⟨hpipe, -⟩ := hf.sound _ t hcur
  have hs : Shrinks x.toKernel m.toKernel := step_shrinks (hf.tracks .read).at'.inv (fun hc => by cases hc) hrun
  refine ⟨h.ready.shrink hs, fun q hq => ?_⟩
  obtain ⟨hlive, hbuf⟩ := hs.buffer q hq
  obtain ⟨n, hholders, hbytes⟩ := h.shares q hlive
  refine ⟨n, fun side => ?_, hbuf.holdsBytes hbytes⟩
  have hnot (side : Side) : ¬x.ComesTo q side x.currentProcess := by
    rintro ⟨t', ht', -, -, hw'⟩
    obtain rfl : t = t' := Option.some.inj (hcur.symm.trans ht')
    rw [hw] at hw'
    cases hw'
  have hothers (side : Side) (p : ℕ) (hp : p ≠ x.currentProcess) :
      (x.setCurrent (some t.wait) m).ComesTo q side p ↔ x.ComesTo q side p := by
    rw [comesTo_setCurrent, if_neg hp]
  by_cases hside : side = t.side
  · subst hside
    rw [Function.update_self]
    by_cases hv : (S t.side).value = 0
    · exact (hholders t.side).queue hv (fun hcame => absurd hcame (hnot _)) (hothers t.side)
    · have hq' : q = t.pipe := by
        unfold PipeMachine.KeepsTokens at hok
        rw [if_neg (by rw [hw]; simp)] at hok
        refine hok hun ?_ q hlive
        rw [hpipe t.side, (hf.tracks t.side).value]
        exact_mod_cast hv
      refine ((hholders t.side).take hv ((hf.books t.side).idle hv) (hnot _)).congr fun p => ?_
      by_cases hp : p = x.currentProcess
      · rw [comesTo_setCurrent, if_pos hp]
        exact iff_of_true ⟨t.wait, rfl, hq'.symm, rfl, rfl⟩ (Or.inr hp)
      · rw [hothers _ p hp]
        exact (or_iff_left hp).symm
  · rw [Function.update_of_ne hside]
    refine (hholders side).congr fun p => ?_
    by_cases hp : p = x.currentProcess
    · rw [comesTo_setCurrent, if_pos hp]
      refine iff_of_false ?_ (hp ▸ hnot side)
      rintro ⟨t', ht', -, hs', -⟩
      obtain rfl := Option.some.inj ht'
      exact hside hs'.symm
    · exact hothers side p hp

theorem moveByte_other (t : Transfer) (k : Kernel) (hq : q ≠ t.pipe) : SameBuffer k (t.moveByte k) q := by
  unfold Transfer.moveByte
  cases t.side with
  | read => exact ⟨rfl, Function.update_of_ne hq .., rfl, rfl, rfl⟩
  | write => exact ⟨Function.update_of_ne hq .., rfl, Function.update_of_ne hq .., rfl, rfl⟩

theorem moveByte_ready (h : k.PipesReady) (t : Transfer) : (t.moveByte k).PipesReady := by
  have hsems (q : ℕ) (hq : k.HasSems q) : (t.moveByte k).HasSems q := fun side =>
    (moveByte_waitsFor t k q side).trans (hq side)
  unfold Transfer.moveByte at hsems ⊢
  cases hside : t.side with
  | read =>
    rw [hside] at hsems
    exact ⟨⟨h.blocks.live, h.blocks.inj⟩, fun q hq => hsems q (h.sems q hq), fun fd hfd => hsems _ (h.ends fd hfd)⟩
  | write =>
    rw [hside] at hsems
    exact ⟨⟨h.blocks.live, h.blocks.inj⟩, fun q hq => hsems q (h.sems q hq), fun fd hfd => hsems _ (h.ends fd hfd)⟩

theorem moveByte_hasPipe (t : Transfer) (k : Kernel) (q : ℕ) : (t.moveByte k).HasPipe q ↔ k.HasPipe q := by
  unfold Transfer.moveByte
  cases t.side <;> rfl

theorem history_other (hq : q ≠ t.pipe) (k : Kernel) (es : List PipeEvent) :
    history q (es ++ [t.event k]) = history q es := by
  rw [history_append, List.foldl_cons, List.foldl_nil]
  unfold Transfer.event
  cases t.side <;> exact if_neg hq.symm

/-- The process uses the token of its pipe and gives one back to it. -/
theorem Shares.move (hf : Pool x S N) (h : Shares x S es) (hcur : x.current = some t) (hw : t.waited = true)
    (hok : x.KeepsTokens t) (hrun : (x.moved t).step (x.postAction t offset answers) = some m) :
    Shares (x.setCurrent (some (t.next x.toKernel)) m) (update S t.side.other ((S t.side.other).step .post))
      (es ++ [t.event x.toKernel]) := by
  obtain ⟨hpipe, -⟩ := hf.sound _ t hcur
  have hinv : KernelInv (x.moved t).toKernel := by
    rw [moved_eq]
    exact (hf.tracks .read).at'.inv.setPipes _
  have hs : Shrinks (t.moveByte x.toKernel) m.toKernel := step_shrinks hinv (fun hc => by cases hc) hrun
  refine ⟨(moveByte_ready h.ready t).shrink hs, fun q hq => ?_⟩
  obtain ⟨hlive, hbuf⟩ := hs.buffer q hq
  rw [moveByte_hasPipe] at hlive
  obtain ⟨n, hholders, hbytes⟩ := h.shares q hlive
  have hreach : q = t.pipe ↔ ∀ p ∈ (S t.side.other).waiting.head?, x.ComesTo q t.side.other p := by
    unfold PipeMachine.KeepsTokens at hok
    rw [if_pos hw, posts_eq, hpipe t.side.other] at hok
    rw [hok q hlive, hf.reaches]
  have hcomes (side : Side) (p : ℕ) : (x.setCurrent (some (t.next x.toKernel)) m).ComesTo q side p ↔
      x.ComesTo q side p ∧ p ≠ x.currentProcess := by
    rw [comesTo_setCurrent]
    by_cases hp : p = x.currentProcess
    · rw [if_pos hp]
      refine iff_of_false ?_ fun hboth => hboth.2 hp
      rintro ⟨t', ht', -, -, hw'⟩
      obtain rfl := Option.some.inj ht'
      cases hw'
    · rw [if_neg hp]
      exact (and_iff_left hp).symm
  have hmine (side : Side) (hcame : x.ComesTo q side x.currentProcess) : q = t.pipe ∧ side = t.side := by
    obtain ⟨t', ht', hp', hs', -⟩ := hcame
    obtain rfl : t = t' := Option.some.inj (hcur.symm.trans ht')
    exact ⟨hp'.symm, hs'.symm⟩
  have hkept (side : Side) (hside : ¬(q = t.pipe ∧ side = t.side)) (p : ℕ) :
      (x.setCurrent (some (t.next x.toKernel)) m).ComesTo q side p ↔ x.ComesTo q side p := by
    rw [hcomes]
    refine and_iff_left_of_imp ?_
    rintro hcame rfl
    exact hside (hmine side hcame)
  by_cases hq' : q = t.pipe
  · subst hq'
    have hcame : x.ComesTo t.pipe t.side x.currentProcess := ⟨t, hcur, rfl, rfl, hw⟩
    obtain ⟨hpos, hused⟩ := (hholders t.side).use hcame (hf.tracks t.side).not_waiting
    obtain ⟨-, htokens, htokens'⟩ := Side.tokens_after hpos hbytes.room
    refine ⟨t.side.after n, fun side => ?_, ?_⟩
    · rcases Side.eq_or_other t.side side with rfl | rfl
      · rw [Function.update_of_ne (Side.other_ne _).symm, htokens]
        exact hused.congr (hcomes t.side)
      · have hfirst := hreach.mp rfl
        have hsame := hkept t.side.other fun hboth => Side.other_ne _ hboth.2
        rw [Function.update_self, htokens']
        cases hwait : (S t.side.other).waiting with
        | nil => exact ((hholders t.side.other).post_nil hwait).congr hsame
        | cons p rest =>
          rw [hwait] at hfirst
          exact ((hholders t.side.other).post_cons hwait (hf.books t.side.other).nodup (hfirst p rfl)).congr hsame
    · rw [history_append]
      exact hbuf.holdsBytes (hbytes.move hpos)
  · have hkept' (side : Side) := hkept side fun hboth => hq' hboth.1
    refine ⟨n, fun side => ?_, ?_⟩
    · rcases Side.eq_or_other t.side side with rfl | rfl
      · rw [Function.update_of_ne (Side.other_ne _).symm]
        exact (hholders t.side).congr (hkept' t.side)
      · have hfirst := mt hreach.mpr hq'
        rw [Function.update_self]
        cases hwait : (S t.side.other).waiting with
        | nil =>
          rw [hwait] at hfirst
          exact absurd (fun p hp => by cases hp) hfirst
        | cons p rest =>
          rw [hwait] at hfirst
          refine ((hholders t.side.other).post_other hwait fun hcame => hfirst fun p' hp' => ?_).congr (hkept' _)
          obtain rfl : p = p' := Option.some.inj hp'
          exact hcame
    · rw [history_other hq']
      exact hbuf.holdsBytes ((moveByte_other t x.toKernel hq').holdsBytes hbytes)

/-! ### Steps -/

theorem Call.LeavesSems.ne {call : Call} (h : call.LeavesSems) (side : Side) :
    call ≠ .semWait side.semId ∧ call ≠ .semPost side.semId ∧ call.sem ≠ some side.semId := by
  have hid (id : ℤ) (hid : id ≠ 1 ∧ id ≠ 2) : id ≠ side.semId := by
    cases side with
    | read => exact hid.1
    | write => exact hid.2
  refine ⟨?_, ?_, fun hsem => ?_⟩
  · rintro rfl
    exact hid _ h rfl
  · rintro rfl
    exact hid _ h rfl
  · cases call with
    | semOpen id v => exact hid id h (Option.some.inj hsem)
    | semClose id => exact hid id h (Option.some.inj hsem)
    | semPost id => exact hid id h (Option.some.inj hsem)
    | semWait id => exact hid id h (Option.some.inj hsem)
    | _ => cases hsem

/-- The semaphores stay closed. -/
theorem Unopened.call (h : Unopened x) (hring : a.KeepsRing x.toMachine) (hleaves : a.call.LeavesSems)
    (hrun : x.toMachine.step a = some m) (hs : Shrinks x.toKernel m.toKernel)
    (hsems : ∀ side : Side, m.sems side.semId = x.sems side.semId) : Unopened (x.afterCall a m) := by
  obtain ⟨hinv, hwhy, -⟩ := h.ordered
  obtain ⟨r, k, again, hstep⟩ := exists_callStep hinv hwhy hring.1 hring.ne_quitCPU hrun
  refine ⟨step_ordered h.ordered hring hrun, hs.blocks h.blocks, fun q hq => h.noPipe q (hs.buffer q hq).1,
    fun fd => ?_, fun side ho => h.closed side ((isOpen_congr (hsems side)).mp ho), fun side p => ?_,
    fun p => PipeMachine.afterCall_none (h.idle p)⟩
  · by_contra hfd
    have hopen : m.inUse fd = true := Bool.not_eq_false _ ▸ hfd
    have huse := (hs.inUse fd hopen).1
    rw [h.noEnd] at huse
    cases huse
  · show ¬Inside m (.sem side.semId) p
    rw [hstep.inside_stay (h.nobody side _) (fun q hq => absurd hq (h.nobody side q)) fun _ hreason =>
      (hleaves.ne side).1 (Call.reason_sem hreason)]
    exact h.nobody side p

/-- There are no pipes to share the tokens. -/
theorem Unopened.shares (h : Unopened x) (S : Side → FifoSem ℕ) (es : List PipeEvent) : Shares x S es := by
  refine ⟨⟨h.blocks, fun q hq => absurd hq (h.noPipe q), fun fd hfd => ?_⟩, fun q hq => absurd hq (h.noPipe q)⟩
  rw [h.noEnd] at hfd
  cases hfd

theorem createPipe_step (hc : a.call = .createPipe) (hrun : m.step a = some m') :
    m'.toKernel = (m.before a).createPipe.2 := by
  obtain ⟨r, k, again, hcall, hcases⟩ := step_cases hrun
  change (m.before a).call a.call = _ at hcall
  rw [hc] at hcall
  obtain ⟨-, rfl, rfl⟩ : _ = r ∧ (m.before a).createPipe.2 = k ∧ false = again := by simpa [Kernel.call] using hcall
  rcases hcases with ⟨-, rfl⟩ | ⟨hagain, -⟩
  · rfl
  · cases hagain

theorem Shares.created (h : Shares x S es) (hc : a.call = .createPipe) (hrun : x.toMachine.step a = some m)
    (hends : ∀ p, a.call.ends (x.before a) p → x.transfer p = none)
    (hidle : (x.before a).createPipe.1 ≠ none →
      ∀ (q : ℕ) (side : Side), (S side).Holders (x.ComesTo q side) (side.tokens 0)) :
    Shares (x.afterCall a m) S (es ++ x.creation a) := by
  have hcomes (q : ℕ) (side : Side) (p : ℕ) : (x.afterCall a m).ComesTo q side p ↔ x.ComesTo q side p :=
    comesTo_afterCall hends
  have hkernel := createPipe_step hc hrun
  have hown : (x.before a).OwnBlocks := ⟨h.ready.blocks.live, h.ready.blocks.inj⟩
  have hcreation : x.creation a =
      ((x.before a).createPipe.1.map fun fds => .created ((x.before a).createPipe.2.fdPipe fds.1)).toList := by
    unfold PipeMachine.creation
    rw [hc]
  rw [hcreation]
  cases hfds : (x.before a).createPipe.1 with
  | none =>
    have hs : Shrinks x.toKernel m.toKernel := by
      rw [hkernel]
      have hbefore : Shrinks x.toKernel (x.before a) := .of_eq rfl rfl
      exact hbefore.trans (createPipe_shrinks hown hfds)
    exact h.keep hs hcomes fun q => by simp
  | some fds =>
    obtain ⟨i, pipe, n, s, t, rfl, hm, hinit⟩ := createPipe_made hfds
    have hpipe : (x.before a).createPipe.2.fdPipe n = pipe := hm.names_read.fdPipe
    simp only [Option.map_some, Option.toList_some, hpipe]
    refine h.create (i := i) (n := n) (s := s) (t := t) ?_ ?_ hcomes fun side => hidle (by rw [hfds]; simp) pipe side
    · show PipeMade _ m.toKernel i pipe n s t
      rw [hkernel]
      exact ⟨hm.slot, hm.block, hm.entries, hm.first, hm.second, hm.live, hm.toPipes⟩
    · show PipeInit _ m.toKernel pipe
      rw [hkernel]
      exact hinit.mono (k := x.toKernel) (fun q => ⟨rfl, rfl, rfl, rfl, rfl⟩) rfl (fun q => .of_eq rfl q) rfl

/-- When all tokens are free and those of an empty pipe, nobody holds one. -/
theorem Pool.allFree (hf : Pool x S N) (hv : ∀ side : Side, (x.sems side.semId).value = side.tokens 0) (q : ℕ)
    (side : Side) : (S side).Holders (x.ComesTo q side) (side.tokens 0) := by
  have hvalue (side : Side) : (S side).value = side.tokens 0 := by
    have htracks := (hf.tracks side).value
    rw [hv side] at htracks
    exact_mod_cast htracks.symm
  have hN : N = 0 := by
    have hle := (hf.books .write).holders.value_le
    rw [hvalue .write] at hle
    change bufferSize - 0 ≤ bufferSize - N at hle
    have hsize : bufferSize = 2048 := rfl
    omega
  subst hN
  refine .idle (hvalue side) fun p hp => ?_
  obtain ⟨t, ht, -, hside, hw⟩ := hp
  exact (hf.books side).holders.none (hvalue side) ⟨t, ht, hside, hw⟩

theorem createPipe_hasSems (k : Kernel) (hq : k.HasSems q) : k.createPipe.2.HasSems q := by
  rcases createPipe_init k with ⟨-, hpipes, -⟩ | ⟨pipe, -, hinit, -⟩
  · exact (SameBuffer.of_eq hpipes q).hasSems hq
  · by_cases hqp : q = pipe
    · exact hqp ▸ hinit.sems
    · exact (hinit.others q hqp).hasSems hq

/-- What holds in every run: no pipe has been created, or the pipes share the tokens. -/
def Apart (x : PipeMachine) (es : List PipeEvent) : Prop :=
  Unopened x ∨ ∃ S N, Pool x S N ∧ Shares x S es

theorem Apart.createPipe (h : Apart x es) (hok : PipeAction.KeepsApart x (.call a)) (hcur : x.current = none)
    (hc : a.call = .createPipe) (hrun : x.toMachine.step a = some m) :
    Apart (x.afterCall a m) (es ++ x.creation a) := by
  obtain ⟨hread, hwrite, hleaves, hspares, hmay⟩ := hok
  have hends := hspares.ends hcur
  have hkernel := createPipe_step hc hrun
  rcases h with hun | ⟨S, N, hf, hshares⟩
  · rcases createPipe_init (x.before a) with ⟨hfail, hpipes, hsems, hlive⟩ | ⟨pipe, -, hinit, -⟩
    · refine Or.inl (hun.call hread.1 hleaves hrun ?_ fun side => ?_)
      · exact .of_eq (by rw [hkernel, hpipes]; rfl) (by rw [hkernel, hlive]; rfl)
      · rw [hkernel, hsems]
        rfl
    · obtain ⟨hinv, hwhy, halive⟩ := hun.ordered
      obtain ⟨r, k, again, hs⟩ := exists_callStep hinv hwhy hread.1.1 hread.1.ne_quitCPU hrun
      have hcall := hs.call
      rw [hc] at hcall
      obtain ⟨-, rfl, -⟩ : _ = r ∧ (x.before a).createPipe.2 = k ∧ false = again := by simpa [Kernel.call] using hcall
      have hnone (p : ℕ) : (x.afterCall a m).transfer p = none := PipeMachine.afterCall_none (hun.idle p)
      refine Or.inr ⟨fun side => .start (side.tokens 0), 0,
        .fresh hs halive hc hinit hun.closed hun.nobody hnone, (hun.shares _ es).created hc hrun hends
          fun _ q side => ?_⟩
      refine .idle rfl fun p hp => ?_
      obtain ⟨t, ht, -⟩ := hp
      exact absurd (ht.symm.trans (hun.idle p)) (Option.some_ne_none t)
  · unfold PipeMachine.MayCreate at hmay
    rw [hc] at hmay
    refine Or.inr ⟨S, N, hf.call (fun side => ⟨?_, (hleaves.ne side).1, (hleaves.ne side).2.1⟩) hends hrun
      (fun q hq => ?_), hshares.created hc hrun hends fun hmade =>
        hf.allFree fun side => hmay hmade side (hf.tracks side).at'.isOpen⟩
    · cases side with
      | read => exact hread
      | write => exact hwrite
    · rw [hkernel]
      exact createPipe_hasSems _ hq

theorem Apart.call (h : Apart x es) (hok : PipeAction.KeepsApart x (.call a)) (hcur : x.current = none)
    (hc : a.call ≠ .createPipe) (hrun : x.toMachine.step a = some m) : Apart (x.afterCall a m) es := by
  obtain ⟨hread, hwrite, hleaves, hspares, -⟩ := hok
  have hends := hspares.ends hcur
  rcases h with hun | ⟨S, N, hf, hshares⟩
  · obtain ⟨hinv, hwhy, -⟩ := hun.ordered
    obtain ⟨r, k, again, hs⟩ := exists_callStep hinv hwhy hread.1.1 hread.1.ne_quitCPU hrun
    refine Or.inl (hun.call hread.1 hleaves hrun (step_shrinks hinv hc hrun) fun side => ?_)
    rw [hs.sems]
    exact (call_others hs.call).1 hc _ (hleaves.ne side).2.2
  · have hs : Shrinks x.toKernel m.toKernel := step_shrinks (hf.tracks .read).at'.inv hc hrun
    refine Or.inr ⟨S, N, hf.call (fun side => ⟨?_, (hleaves.ne side).1, (hleaves.ne side).2.1⟩) hends hrun hs.sems,
      hshares.keep hs (fun q side p => comesTo_afterCall hends) fun q => rfl⟩
    cases side with
    | read => exact hread
    | write => exact hwrite

theorem beginTransfer_cases {buffer : ℕ → ℤ} {count : ℤ} (h : k.beginTransfer side fd buffer count = some t) :
    k.inUse fd = true ∧ t = ⟨side, k.fdPipe fd, buffer, count, [], false⟩ := by
  unfold Kernel.beginTransfer at h
  split at h
  · cases h
  · rename_i hcheck
    dsimp only at h
    split at h
    · cases h
    · obtain rfl := Option.some.inj h
      refine ⟨?_, rfl⟩
      by_contra hfd
      exact hcheck (Or.inr (Or.inr (Or.inl (by simpa using hfd))))

theorem history_refused (q : ℕ) (es : List PipeEvent) (side : Side) (count : ℤ) (o : Option Transfer) :
    history q (es ++ PipeMachine.refused side count o) = history q es := by
  rw [history_append]
  cases o <;> rfl

/-- A transfer begins, or is refused. -/
theorem Apart.begin {buffer : ℕ → ℤ} {count : ℤ} (h : Apart x es) (hcur : x.current = none) :
    Apart (x.setCurrent (x.beginTransfer side fd buffer count) x.toMachine)
      (es ++ PipeMachine.refused side count (x.beginTransfer side fd buffer count)) := by
  have hnone (t : Transfer) (ht : x.current = some t) : t.waited = false := by
    rw [hcur] at ht
    cases ht
  rcases h with hun | ⟨S, N, hf, hshares⟩
  · have hrefused : x.beginTransfer side fd buffer count = none := by
      cases ht : x.beginTransfer side fd buffer count with
      | none => rfl
      | some t =>
        have huse := (beginTransfer_cases ht).1
        rw [hun.noEnd] at huse
        cases huse
    refine Or.inl ⟨hun.ordered, hun.blocks, hun.noPipe, hun.noEnd, hun.closed, hun.nobody, fun p => ?_⟩
    rw [hrefused]
    show update x.transfer x.currentProcess none p = none
    by_cases hp : p = x.currentProcess
    · rw [hp, Function.update_self]
    · rw [Function.update_of_ne hp]
      exact hun.idle p
  · refine Or.inr ⟨S, N, hf.set hnone fun t ht => ?_, hshares.keep (.refl _)
      (fun q side p => comesTo_begin hnone fun t ht => ?_) fun q => history_refused q es side count _⟩
    · obtain ⟨huse, rfl⟩ := beginTransfer_cases ht
      refine ⟨hshares.ready.ends fd huse, ⟨?_, fun hno => by cases hno⟩, rfl⟩
      show (0 : ℤ) ≤ max count 0
      omega
    · obtain ⟨-, rfl⟩ := beginTransfer_cases ht
      rfl

theorem Apart.step {b : PipeAction} (h : Apart x es) (hok : b.KeepsApart x) (hrun : x.step b = some y) :
    Apart y (es ++ x.events b) := by
  cases b with
  | call a =>
    obtain ⟨hcur, m, hstep, rfl⟩ := PipeMachine.call_cases hrun
    by_cases hc : a.call = .createPipe
    · exact h.createPipe hok hcur hc hstep
    · have hnone : x.events (.call a) = [] := by
        show x.creation a = []
        unfold PipeMachine.creation
        cases hcl : a.call <;> simp_all
      rw [hnone, List.append_nil]
      exact h.call hok hcur hc hstep
  | pipeWrite fd buffer count =>
    obtain ⟨hcur, rfl⟩ := PipeMachine.pipeWrite_cases hrun
    exact h.begin hcur
  | pipeRead fd count =>
    obtain ⟨hcur, rfl⟩ := PipeMachine.pipeRead_cases hrun
    exact h.begin hcur
  | goOn offset answers =>
    obtain ⟨t, hcur, hcases⟩ := PipeMachine.goOn_cases hrun
    obtain ⟨hmay, htokens⟩ : x.MayWait t ∧ x.KeepsTokens t := by
      have hcond : x.current.elim True fun t => x.MayWait t ∧ x.KeepsTokens t := hok
      rwa [hcur] at hcond
    rw [goOn_events hcur]
    rcases h with hun | ⟨S, N, hf, hshares⟩
    · exact absurd (hcur.symm.trans (hun.idle _)) (Option.some_ne_none t)
    · rcases hcases with ⟨hw, m, hstep, rfl⟩ | ⟨hw, hun, m, hstep, rfl⟩ | ⟨hw, hun, rfl⟩
      · rw [if_pos hw]
        exact Or.inr ⟨_, _, (hf.move hcur hw hstep).2, hshares.move hf hcur hw htokens hstep⟩
      · rw [if_neg (by rw [hw]; simp), if_pos hun, List.append_nil]
        have hready := hmay hw hun
        rw [(hf.sound _ t hcur).1 t.side] at hready
        exact Or.inr ⟨_, N, hf.wait hcur hw hun hready hstep, hshares.wait hf hcur hw hun htokens hstep⟩
      · rw [if_neg (by rw [hw]; simp), if_neg hun]
        have hnone (t' : Transfer) (ht' : x.current = some t') : t'.waited = false := by
          obtain rfl := Option.some.inj (hcur.symm.trans ht')
          exact hw
        refine Or.inr ⟨S, N, hf.set hnone (fun t' ht' => by cases ht'), hshares.keep (.refl _)
          (fun q side p => comesTo_begin hnone (fun t' ht' => by cases ht')) fun q => ?_⟩
        rw [history_append]
        rfl

theorem Apart.initial {x₀ : PipeMachine} (h : piping.init x₀) : Apart x₀ [] := by
  obtain ⟨hboot, hnone⟩ := h
  have hslots (i : ℕ) : x₀.pipes i = 0 := hboot.pipes i
  refine Or.inl ⟨boot_reach_ordered (.init hboot), ⟨fun i h0 => absurd (hslots i) h0,
    fun i j h0 => absurd (hslots i) h0⟩,
    fun q hq => ?_, hboot.inUse, fun side ho => ?_, fun side p hin => ?_, hnone⟩
  · obtain ⟨h0, i, -, hi⟩ := hq
    exact h0 (hi.symm.trans (hslots i))
  · obtain ⟨-, -, hv⟩ := ho
    rw [hboot.sems] at hv
    cases side <;> exact hv rfl
  · have hwhy := hin.2
    rw [hboot.why] at hwhy
    cases hwhy

theorem Apart.run {x₀ : PipeMachine} (hinit : piping.init x₀)
    (hrun : piping.Emits (fun x b => b.KeepsApart x) PipeMachine.events x₀ es x) : Apart x es := by
  induction hrun with
  | refl => exact .initial hinit
  | step _ hok hst ih => exact ih.step hok hst

/-- In every run in which tokens are taken and given back by transfers on the only live
pipe and a new pipe finds them as they were at first, each live pipe has as many reads
that can proceed as it has bytes and as many writes as it has places: its bytes come out
as they went in, and none is overwritten. -/
theorem pipes_isolated {x₀ : PipeMachine} (hinit : piping.init x₀)
    (hrun : piping.Emits (fun x b => b.KeepsApart x) PipeMachine.events x₀ es x) (hp : x.HasPipe pipe) :
    Isolated x pipe (history pipe es) := by
  rcases Apart.run hinit hrun with hun | ⟨S, N, hf, hshares⟩
  · exact absurd hp (hun.noPipe pipe)
  · obtain ⟨n, hshare⟩ := hshares.shares pipe hp
    exact hshare.isolated hf (hshares.ready.sems pipe hp)

/-! ### One pipe after the other -/

instance (k : Kernel) (P : ℕ → Prop) [DecidablePred P] : Decidable (∀ q, k.HasPipe q → P q) :=
  decidable_of_iff (∀ i < maxPipes, k.pipes i ≠ 0 → P (k.pipes i))
    ⟨fun h _ ⟨h0, i, hi, he⟩ => he ▸ h i hi (he ▸ h0), fun h i hi h0 => h _ ⟨h0, i, hi, rfl⟩⟩

instance (k : Kernel) (q : ℕ) : Decidable (k.HasPipe q) := inferInstanceAs (Decidable (_ ∧ ∃ i < maxPipes, _))

instance (call : Call) : Decidable call.LeavesSems := by
  apply Call.casesOn (motive := fun call => Decidable call.LeavesSems) call <;>
    intros <;> dsimp only [Call.LeavesSems] <;> infer_instance

instance (x : PipeMachine) (call : Call) : Decidable (x.SparesTransfers call) := by
  apply Call.casesOn (motive := fun call => Decidable (x.SparesTransfers call)) call <;>
    intros <;> dsimp only [PipeMachine.SparesTransfers] <;> infer_instance

instance (P : Side → Prop) [DecidablePred P] : Decidable (∀ side, P side) :=
  decidable_of_iff (P .read ∧ P .write) ⟨fun h side => by cases side <;> simp [h], fun h => ⟨h _, h _⟩⟩

instance (k : Kernel) (id : ℤ) : Decidable (k.IsOpen id) := inferInstanceAs (Decidable (_ ∧ _ ∧ _))

instance (x : PipeMachine) (a : Action) : Decidable (x.MayCreate a) := by
  apply Call.casesOn (motive := fun call => Decidable (x.MayCreate { a with call })) a.call <;>
    intros <;> dsimp only [PipeMachine.MayCreate] <;> infer_instance

instance (x : PipeMachine) (id : ℤ) (pipe : ℕ) : Decidable (x.Reaches id pipe) := by
  unfold PipeMachine.Reaches
  infer_instance

instance (x : PipeMachine) (t : Transfer) : Decidable (x.KeepsTokens t) := by
  unfold PipeMachine.KeepsTokens
  infer_instance

instance (x : PipeMachine) (b : PipeAction) : Decidable (b.KeepsApart x) := by
  apply PipeAction.casesOn (motive := fun b => Decidable (PipeAction.KeepsApart x b)) b <;>
    intros <;> dsimp only [PipeAction.KeepsApart] <;> infer_instance

/-- A pipe is used and closed. Of the next two one is closed again, and a reader of the
other one waits for a byte and gets its token. -/
def oneAfterAnother : List PipeAction :=
  [.call (create 100), .call (plain .tick), .call (create 200), .call (plain .tick), .call newPipe,
    .pipeWrite 3 (fun _ => 7) 1, goOn, goOn, goOn, .pipeRead 2 1, goOn, goOn, goOn, .call (plain (.pipeClose 2)),
    .call (plain (.pipeClose 3)), .call ⟨.createPipe, 0, [600]⟩, .call ⟨.createPipe, 0, [700]⟩,
    .call (plain (.pipeClose 4)), .call (plain (.pipeClose 5)), .pipeRead 2 1, goOn, .pipeWrite 3 (fun _ => 8) 1,
    goOn, goOn]

theorem pipes_isolated_oneAfterAnother :
    Isolated (PipeMachine.ran (fun x b => b.KeepsApart x) PipeMachine.initial oneAfterAnother) 600
      (history 600 (System.emitted PipeMachine.step PipeMachine.events PipeMachine.initial oneAfterAnother)) :=
  pipes_isolated ⟨initial_boot, fun _ => rfl⟩ (PipeMachine.emits_ran (by decide +kernel)) (by decide +kernel)

/-! ### Two pipes at once -/

/-- Any transfers on any number of pipes. -/
def PipeAction.UsesPipes (x : PipeMachine) : PipeAction → Prop
  | .call a => a.SharesSem x.toMachine 1 ∧ a.SharesSem x.toMachine 2 ∧ a.call.LeavesSems ∧ x.SparesTransfers a.call
  | .pipeWrite _ _ _ | .pipeRead _ _ => True
  | .goOn _ _ => x.current.elim True x.MayWait

instance (x : PipeMachine) (b : PipeAction) : Decidable (b.UsesPipes x) := by
  apply PipeAction.casesOn (motive := fun b => Decidable (PipeAction.UsesPipes x b)) b <;>
    intros <;> dsimp only [PipeAction.UsesPipes] <;> infer_instance

/-- A byte goes into the first pipe, and a reader of the second one takes one. -/
def writeOneReadOther : List PipeAction :=
  [.call (create 100), .call (plain .tick), .call newPipe, .call ⟨.createPipe, 0, [600]⟩,
    .pipeWrite 3 (fun _ => 7) 1, goOn,
    goOn, goOn, .pipeRead 4 1, goOn, goOn]

theorem pipes_isolated_writeOneReadOther : ¬∀ x₀ x es pipe, piping.init x₀ →
    piping.Emits (fun x b => b.UsesPipes x) PipeMachine.events x₀ es x → x.HasPipe pipe →
      Isolated x pipe (history pipe es) := by
  intro hall
  have hrun : (System.runList PipeMachine.step (fun x b => b.UsesPipes x) PipeMachine.initial writeOneReadOther).isSome
      = true := by decide +kernel
  have hisolated := hall _ _ _ 600 ⟨initial_boot, fun _ => rfl⟩ (PipeMachine.emits_ran hrun) (by decide +kernel)
  have hbegins := hisolated.isPrefix
  revert hbegins
  decide +kernel

end BareKernel
