import BareKernel.Kernel.PipeAccess
import BareKernel.Kernel.StreamEffect
import BareKernel.Userland.Shell

/-! Where the bytes of the two commands go. The shell redirects them after it has created
them, so a command that is scheduled in between writes to the screen or reads the keyboard;
from its redirection on, all that it writes or reads goes through the pipe of the line. -/

namespace BareKernel

open Function (update)
open Process Links Machine

/-- The machine from the start of a line on, which comes after any run in which write ends
were closed last. -/
def lining : System CommandLine LineAction where
  init x := userland.Reach (fun x b => b.WritesLast x) x.toUserMachine ∧ x.stage = .openPipe ∧ x.left = none ∧
    x.right = none ∧ ∀ s, x.shell = some s → InTable x.toCore s
  step x b y := x.step b = some y

namespace LineAction

/-- The pipe is opened, the commands get slots of the table, and write ends are closed last
by the others. -/
def Regular (x : CommandLine) : LineAction → Prop
  | .shell _ offset answers =>
    match x.stage with
    | .openPipe => (x.before ⟨.createPipe, offset, answers⟩).createPipe.1 ≠ none
    | .createLeft | .createRight => ∃ i < maxProcesses, x.processesList i = 0
    | _ => True
  | .other b => b.WritesLast x.toUserMachine

/-- A command uses the stream that is redirected only after it has been. -/
def Timely (x : CommandLine) : LineAction → Prop
  | .other (.sysWrite fd _ count) => (fd : ℤ) = stdOut → x.left = some x.currentProcess →
      0 < count → x.stage.LeftChanged
  | .other (.sysRead fd count) => (fd : ℤ) = stdIn → x.right = some x.currentProcess → 0 < count → x.stage.RightChanged
  | _ => True

/-- A write of the left command to its standard output starts as one into the pipe, a read
of the right command from its standard input as one from it. -/
def Piped (x : CommandLine) : LineAction → Prop
  | .other (.sysWrite fd buffer count) => (fd : ℤ) = stdOut → x.left = some x.currentProcess → 0 < count →
      ¬x.OnScreen ∧
        x.pipeWrite (x.stdout x.currentProcess) buffer count = some ⟨.write, x.pipe, buffer, count, [], false⟩
  | .other (.sysRead fd count) => (fd : ℤ) = stdIn → x.right = some x.currentProcess → 0 < count →
      x.stdin x.currentProcess ≠ stdIn ∧
        x.pipeRead (x.stdin x.currentProcess) count = some ⟨.read, x.pipe, fun _ => 0, count, [], false⟩
  | _ => True

instance (x : CommandLine) (b : LineAction) : Decidable (b.Regular x) := by
  unfold Regular
  split
  · split <;> infer_instance
  · infer_instance

instance (x : CommandLine) (b : LineAction) : Decidable (b.Timely x) := by
  unfold Timely
  split <;> infer_instance

end LineAction

/-- What the left command is writing to its standard output goes into the pipe, and what the
right one is reading from its standard input comes from there. -/
structure CommandLine.OnPipe (x : CommandLine) : Prop where
  left : ∀ l t, x.left = some l → x.streams l = true → x.transfer l = some t → t.side = .write → 0 < t.count →
    t.pipe = x.pipe
  right : ∀ r t, x.right = some r → x.streams r = true → x.transfer r = some t → t.side = .read → 0 < t.count →
    t.pipe = x.pipe
  keyboard : ∀ r t, x.right = some r → x.streams r = true → x.reading r = some t → t.count ≤ 0

/-! ### The invariant -/

/-- The shell holds the read end of its pipe. -/
def Stage.HoldsRead : Stage → Prop
  | .createLeft | .createRight | .changeLeft | .changeRight | .closeRead => True
  | .openPipe | .closeWrite | .waitChildren | .done => False

def Stage.HoldsWrite : Stage → Prop
  | .createLeft | .createRight | .changeLeft | .changeRight | .closeRead | .closeWrite => True
  | .openPipe | .waitChildren | .done => False

variable {x y : UserMachine} {z z' : CommandLine} {a : Action} {b : UserAction} {s s' : Stage} {p q l r pipe : ℕ}
  {ty : FDType} {fd : ℤ} {k : Kernel}

/-- What holds of the line at a stage. -/
structure LineInv (z : CommandLine) (s : Stage) : Prop where
  wired : Wired z.toKernel
  shell : ∀ p, z.shell = some p → InTable z.toCore p
  alone : s = .openPipe → z.left = none ∧ z.right = none
  fds : s ≠ .openPipe → 2 ≤ z.newPipe.1 ∧ 2 ≤ z.newPipe.2
  holdsRead : s.HoldsRead → ∀ p, z.shell = some p → z.HasEnd p z.pipe .read z.newPipe.1
  holdsWrite : s.HoldsWrite → ∀ p, z.shell = some p → z.HasEnd p z.pipe .write z.newPipe.2
  left : ∀ l, z.left = some l → z.HasEnd l z.pipe .write z.newPipe.2 ∧ z.pid l = z.pid1
  right : ∀ r, z.right = some r → z.HasEnd r z.pipe .read z.newPipe.1 ∧ z.pid r = z.pid2
  stdout : ∀ l, z.left = some l → z.stdout l = if s.LeftChanged then z.newPipe.2 else stdOut
  stdin : ∀ r, z.right = some r → z.stdin r = if s.RightChanged then z.newPipe.1 else stdIn
  apart : ∀ p, z.shell = some p → z.left ≠ some p ∧ z.right ≠ some p
  onPipe : z.OnPipe

theorem LineInv.begun (h : LineInv z s) (hp : z.left = some p ∨ z.right = some p) : s ≠ .openPipe := by
  intro hs
  obtain ⟨hleft, hright⟩ := h.alone hs
  rw [hleft, hright] at hp
  rcases hp with hp | hp <;> cases hp

theorem Wired.openCount_pos (h : Wired k) (hp : k.HasEnd p pipe ty fd) (hty : ty ≠ .unused) :
    0 < k.openCount pipe ty := by
  obtain ⟨lost, hinv⟩ := h.pipes
  obtain ⟨j, hj, hslot⟩ := hp.slot
  have hpipe : k.HasPipe pipe := by
    have hvalid := h.validFd hp.inTable hj (by rw [hslot]; exact hp.names.low)
    rw [hslot] at hvalid
    rw [← hp.names.fdPipe]
    exact hvalid.hasPipe
  have hpos : 0 < k.holders (tableProcs k.toCore) pipe ty :=
    entryCount_pos.mpr ⟨p, mem_tableProcs.mpr hp.inTable, j, hj, by rw [hslot]; exact hp.names⟩
  rw [hinv.counts pipe ty hpipe hty]
  omega

theorem Wired.writeEnd_unique {fd' : ℤ} (h : Wired k) (hn : k.Names pipe .write fd) (hn' : k.Names pipe .write fd') :
    fd = fd' := by
  have hp := h.pairs.hasPipe fd hn.used
  rw [hn.fdPipe] at hp
  obtain ⟨e, he⟩ := h.pairs.pair pipe hp
  have hwrite {fd : ℤ} (hn : k.Names pipe .write fd) : fd = e + 1 :=
    Kernel.Pair.eq_write (hn.fdPipe.symm ▸ he) hn.used hn.fdType
  rw [hwrite hn, hwrite hn']

theorem beginTransfer_names {side : Side} {buffer : ℕ → ℤ} {count : ℤ} {t : Transfer}
    (h : k.beginTransfer side fd buffer count = some t) : k.Names t.pipe side.fdType fd := by
  rw [beginTransfer_eq] at h
  split at h
  · rename_i hend
    obtain rfl := Option.some.inj h
    obtain ⟨⟨hlow, hhigh, huse, htype⟩, -⟩ := hend
    exact ⟨hlow, hhigh, huse, rfl, htype⟩
  · cases h

/-- A write of the left command goes into the pipe exactly when its output has been
redirected, and a read of the right one is from the pipe exactly when its input has been. -/
theorem LineInv.piped_iff (h : LineInv z z.stage) (b : LineAction) : b.Piped z ↔ b.Timely z := by
  match b with
  | .other (.sysWrite fd buffer count) =>
    refine forall_congr' fun hfd => forall_congr' fun hl => forall_congr' fun hcount => ?_
    obtain ⟨hend, -⟩ := h.left _ hl
    rw [h.stdout _ hl]
    constructor
    · rintro ⟨-, hwrite⟩
      by_contra hnot
      rw [if_neg hnot] at hwrite
      have hone := h.wired.writeEnd_unique hend.names (beginTransfer_names hwrite)
      have hlow := (h.fds (h.begun (Or.inl hl))).2
      unfold stdOut at hone
      omega
    · intro hchanged
      rw [if_pos hchanged]
      have hlow := (h.fds (h.begun (Or.inl hl))).2
      refine ⟨fun hscreen => ?_, beginTransfer_some hend.names (h.wired.openCount_pos hend (by decide))⟩
      have hout := hscreen.1
      rw [h.stdout _ hl, if_pos hchanged] at hout
      unfold stdOut at hout
      omega
  | .other (.sysRead fd count) =>
    refine forall_congr' fun hfd => forall_congr' fun hr => forall_congr' fun hcount => ?_
    obtain ⟨hend, -⟩ := h.right _ hr
    rw [h.stdin _ hr]
    constructor
    · rintro ⟨hin, -⟩
      by_contra hnot
      rw [if_neg hnot] at hin
      exact hin rfl
    · intro hchanged
      rw [if_pos hchanged]
      have hlow := (h.fds (h.begun (Or.inr hr))).1
      refine ⟨fun hin => ?_, beginTransfer_some hend.names (h.wired.openCount_pos hend (by decide))⟩
      unfold stdIn at hin
      omega
  | .shell _ _ _ | .other (.call _) | .other .getPid | .other .sysGetForeground | .other (.sysChangeStd _ _ _)
  | .other (.key _ _ _ _ _) | .other (.goOn _ _) => exact Iff.rfl

/-! ### An action of a process -/

theorem survivor_some {o : Option ℕ} (h : z.survivor b o = some p) : o = some p ∧ ¬b.ends z.toUserMachine p := by
  obtain ⟨hp, hends⟩ := Option.filter_eq_some_iff.mp h
  exact ⟨hp, by simpa using hends⟩

/-- A process within a call streams as it did before. -/
theorem streams_old (hrun : z.toUserMachine.step b = some y) (hbusy : p = z.currentProcess → z.Busy)
    (hp : z.nextStreams b p = true) : z.streams p = true := by
  cases b with
  | call a =>
    have hp' : (if a.call.births (z.before a) p then false else z.streams p) = true := hp
    split at hp'
    · cases hp'
    · exact hp'
  | sysRead fd count =>
    have hne : p ≠ z.currentProcess := fun he => (outside_some hrun).1 (hbusy he)
    rwa [CommandLine.nextStreams, Function.update_of_ne hne] at hp
  | sysWrite fd buffer count =>
    have hne : p ≠ z.currentProcess := fun he => (outside_some hrun).1 (hbusy he)
    rwa [CommandLine.nextStreams, Function.update_of_ne hne] at hp
  | _ => exact hp

theorem begins_sysRead {count : ℤ} {fd : ℕ} {t : Transfer} (h : (UserAction.sysRead fd count).begins x = some t) :
    t.side = .read ∧ t.count = count ∧ ((fd : ℤ) = stdIn → x.pipeRead (x.stdin x.currentProcess) count = some t) := by
  have hcases {fd : ℤ} (h : x.pipeRead fd count = some t) : t.side = .read ∧ t.count = count := by
    obtain ⟨-, rfl⟩ := beginTransfer_cases h
    exact ⟨rfl, rfl⟩
  dsimp only [UserAction.begins] at h
  split at h
  · split at h
    · cases h
    · exact ⟨(hcases h).1, (hcases h).2, fun _ => h⟩
  · rename_i hfd
    exact ⟨(hcases h).1, (hcases h).2, fun he => absurd he hfd⟩

theorem begins_sysWrite {count : ℤ} {fd : ℕ} {buffer : ℕ → ℤ} {t : Transfer}
    (h : (UserAction.sysWrite fd buffer count).begins x = some t) :
    t.side = .write ∧ t.count = count ∧
      ((fd : ℤ) = stdOut → x.pipeWrite (x.stdout x.currentProcess) buffer count = some t) := by
  have hcases {fd : ℤ} (h : x.pipeWrite fd buffer count = some t) : t.side = .write ∧ t.count = count := by
    obtain ⟨-, rfl⟩ := beginTransfer_cases h
    exact ⟨rfl, rfl⟩
  dsimp only [UserAction.begins] at h
  split at h
  · split at h
    · cases h
    · exact ⟨(hcases h).1, (hcases h).2, fun _ => h⟩
  · rename_i hfd
    split at h
    · exact ⟨(hcases h).1, (hcases h).2, fun he => absurd (Or.inl he) hfd⟩
    · cases h

/-- Transfers of the commands are on the pipe when they begin, and stay on it. -/
theorem LineInv.onPipe_after (h : LineInv z z.stage) (htimely : LineAction.Timely z (.other b))
    (hrun : z.toUserMachine.step b = some y) : (z.after b y).OnPipe := by
  have hpiped := (h.piped_iff _).mpr htimely
  have hbusy {p : ℕ} {t : Transfer} (ht : z.transfer p = some t) (hp : p = z.currentProcess) : z.Busy := by
    refine Or.inl ?_
    rw [← hp, ht]
    simp
  refine ⟨fun l t hl hs ht hside hcount => ?_, fun r t hr hs ht hside hcount => ?_, fun r t hr hs ht => ?_⟩
  · have hold := (survivor_some hl).1
    rcases user_transfer hrun ht with ⟨t₀, ht₀, hside₀, hpipe₀, hcount₀⟩ | ⟨rfl, hbegin⟩
    · have hs₀ := streams_old hrun (hbusy ht₀) hs
      exact hpipe₀.trans (h.onPipe.left l t₀ hold hs₀ ht₀ (hside₀ ▸ hside) (hcount₀ ▸ hcount))
    · cases b with
      | sysWrite fd buffer count =>
        obtain ⟨-, rfl, hwrite⟩ := begins_sysWrite hbegin
        have hfd : (fd : ℤ) = stdOut := by simpa [CommandLine.after, CommandLine.nextStreams] using hs
        have hinto := (hpiped hfd hold hcount).2
        exact congrArg Transfer.pipe (Option.some.inj ((hwrite hfd).symm.trans hinto))
      | sysRead fd count =>
        rw [(begins_sysRead hbegin).1] at hside
        cases hside
      | _ => cases hbegin
  · have hold := (survivor_some hr).1
    rcases user_transfer hrun ht with ⟨t₀, ht₀, hside₀, hpipe₀, hcount₀⟩ | ⟨rfl, hbegin⟩
    · have hs₀ := streams_old hrun (hbusy ht₀) hs
      exact hpipe₀.trans (h.onPipe.right r t₀ hold hs₀ ht₀ (hside₀ ▸ hside) (hcount₀ ▸ hcount))
    · cases b with
      | sysRead fd count =>
        obtain ⟨-, rfl, hread⟩ := begins_sysRead hbegin
        have hfd : (fd : ℤ) = stdIn := by simpa [CommandLine.after, CommandLine.nextStreams] using hs
        have hfrom := (hpiped hfd hold hcount).2
        exact congrArg Transfer.pipe (Option.some.inj ((hread hfd).symm.trans hfrom))
      | sysWrite fd buffer count =>
        rw [(begins_sysWrite hbegin).1] at hside
        cases hside
      | _ => cases hbegin
  · have hold := (survivor_some hr).1
    rcases user_reading hrun ht with ⟨t₀, ht₀, hcount₀⟩ | ⟨rfl, hin, fd, hfd, rfl⟩
    · have hs₀ := streams_old hrun (fun hp => Or.inr (by rw [← hp, ht₀]; simp)) hs
      exact hcount₀ ▸ h.onPipe.keyboard r t₀ hold hs₀ ht₀
    · by_contra hcount
      exact (hpiped hfd hold (by omega)).1 hin

/-- What an action leaves of the line, at the stage that follows. -/
theorem LineInv.after (h : LineInv z z.stage) (hok : b.WritesLast z.toUserMachine)
    (htimely : LineAction.Timely z (.other b))
    (hrun : z.toUserMachine.step b = some y) (hs : s = .openPipe ↔ z.stage = .openPipe)
    (hread : s.HoldsRead → z.stage.HoldsRead ∧ ∀ a, b.made z.toUserMachine = some a → a.call ≠ .pipeClose z.newPipe.1)
    (hwrite : s.HoldsWrite → z.stage.HoldsWrite ∧
      ∀ a, b.made z.toUserMachine = some a → a.call ≠ .pipeClose z.newPipe.2)
    (hclose : ∀ a fd, b.made z.toUserMachine = some a → a.call = .pipeClose fd → z.shell = some z.currentProcess)
    (hout : ∀ l, z.left = some l → y.stdout l = if s.LeftChanged then z.newPipe.2 else stdOut)
    (hin : ∀ r, z.right = some r → y.stdin r = if s.RightChanged then z.newPipe.1 else stdIn) :
    LineInv (z.after b y) s := by
  have hkept {p : ℕ} {ty : FDType} {fd : ℤ} (hp : z.HasEnd p z.pipe ty fd) (hends : ¬b.ends z.toUserMachine p)
      (hclose : ∀ a, b.made z.toUserMachine = some a → a.call = .pipeClose fd → p ≠ z.currentProcess) :
      (z.after b y).HasEnd p z.pipe ty fd := user_hasEnd h.wired hok hrun hp hends hclose
  have hcommand {p : ℕ} (hp : z.left = some p ∨ z.right = some p) (hshell : z.shell = some z.currentProcess) :
      p ≠ z.currentProcess := by
    rintro rfl
    obtain ⟨hl, hr⟩ := h.apart _ hshell
    exact hp.elim hl hr
  have hpid {p : ℕ} (hp : InTable z.toCore p) (hends : ¬b.ends z.toUserMachine p) :
      InTable (z.after b y).toCore p ∧ (z.after b y).pid p = z.pid p := user_inTable h.wired hok hrun hp hends
  refine ⟨user_wired h.wired hok hrun, fun p hp => ?_, fun he => ?_, fun he => h.fds fun hz => he (hs.mpr hz),
    fun hholds p hp => ?_, fun hholds p hp => ?_, fun l hl => ?_, fun r hr => ?_, fun l hl => ?_, fun r hr => ?_,
    fun p hp => ⟨fun hl => ?_, fun hr => ?_⟩, h.onPipe_after htimely hrun⟩
  · obtain ⟨hp, hends⟩ := survivor_some hp
    exact (hpid (h.shell p hp) hends).1
  · obtain ⟨hl, hr⟩ := h.alone (hs.mp he)
    refine ⟨?_, ?_⟩
    · show z.survivor b z.left = none
      rw [hl]
      rfl
    · show z.survivor b z.right = none
      rw [hr]
      rfl
  · obtain ⟨hp, hends⟩ := survivor_some hp
    obtain ⟨hold, hne⟩ := hread hholds
    exact hkept (h.holdsRead hold p hp) hends fun a ha hc => absurd hc (hne a ha)
  · obtain ⟨hp, hends⟩ := survivor_some hp
    obtain ⟨hold, hne⟩ := hwrite hholds
    exact hkept (h.holdsWrite hold p hp) hends fun a ha hc => absurd hc (hne a ha)
  · obtain ⟨hl, hends⟩ := survivor_some hl
    obtain ⟨hend, hpidl⟩ := h.left l hl
    exact ⟨hkept hend hends fun a ha hc => hcommand (Or.inl hl) (hclose a _ ha hc),
      (hpid hend.inTable hends).2.trans hpidl⟩
  · obtain ⟨hr, hends⟩ := survivor_some hr
    obtain ⟨hend, hpidr⟩ := h.right r hr
    exact ⟨hkept hend hends fun a ha hc => hcommand (Or.inr hr) (hclose a _ ha hc),
      (hpid hend.inTable hends).2.trans hpidr⟩
  · exact hout l (survivor_some hl).1
  · exact hin r (survivor_some hr).1
  · exact (h.apart p (survivor_some hp).1).1 (survivor_some hl).1
  · exact (h.apart p (survivor_some hp).1).2 (survivor_some hr).1

/-! ### The calls of the shell -/

variable {args : CreateArgs} {offset : ℕ} {answers : List ℕ}

theorem shell_cases (hrun : z.step (.shell args offset answers) = some z') : z.shell = some z.currentProcess ∧
    ∃ b y, z.nextCall args offset answers = some b ∧ z.toUserMachine.step b = some y ∧
      z' = z.advance b (z.after b y) := by
  unfold CommandLine.step at hrun
  dsimp only at hrun
  split at hrun
  · rename_i hshell
    obtain ⟨b, hnext, hrest⟩ := Option.bind_eq_some_iff.mp hrun
    obtain ⟨y, hy, hz⟩ := Option.bind_eq_some_iff.mp hrest
    exact ⟨hshell, b, y, hnext, hy, (Option.some.inj hz).symm⟩
  · cases hrun

theorem LineInv.std (h : LineInv z z.stage) (hrun : z.toUserMachine.step b = some y)
    (hb : ∀ pid std newFd, b ≠ .sysChangeStd pid std newFd) (hl : s.LeftChanged ↔ z.stage.LeftChanged)
    (hr : s.RightChanged ↔ z.stage.RightChanged) :
    (∀ l, z.left = some l → y.stdout l = if s.LeftChanged then z.newPipe.2 else stdOut) ∧
      ∀ r, z.right = some r → y.stdin r = if s.RightChanged then z.newPipe.1 else stdIn := by
  refine ⟨fun l hleft => ?_, fun r hright => ?_⟩
  · rw [(user_std h.wired hrun (h.left l hleft).1.inTable hb).2, h.stdout l hleft]
    simp only [hl]
  · rw [(user_std h.wired hrun (h.right r hright).1.inTable hb).1, h.stdin r hright]
    simp only [hr]

theorem LineInv.restage (h : LineInv z s) (s' : Stage) : LineInv { z with stage := s' } s :=
  ⟨h.wired, h.shell, h.alone, h.fds, h.holdsRead, h.holdsWrite, h.left, h.right, h.stdout, h.stdin, h.apart,
    ⟨h.onPipe.left, h.onPipe.right, h.onPipe.keyboard⟩⟩

/-- The call of the kernel that the shell makes. -/
theorem LineInv.call (h : LineInv z z.stage) (hok : a.WritesLast z.toMachine)
    (hrun : z.toUserMachine.step (.call a) = some y) (hshell : z.shell = some z.currentProcess)
    (hs : s = .openPipe ↔ z.stage = .openPipe)
    (hread : s.HoldsRead → z.stage.HoldsRead ∧ a.call ≠ .pipeClose z.newPipe.1)
    (hwrite : s.HoldsWrite → z.stage.HoldsWrite ∧ a.call ≠ .pipeClose z.newPipe.2)
    (hl : s.LeftChanged ↔ z.stage.LeftChanged) (hr : s.RightChanged ↔ z.stage.RightChanged) :
    LineInv (z.after (.call a) y) s := by
  obtain ⟨hout, hin⟩ := h.std hrun (fun _ _ _ he => by cases he) hl hr
  refine h.after hok trivial hrun hs (fun hholds => ⟨(hread hholds).1, ?_⟩) (fun hholds => ⟨(hwrite hholds).1, ?_⟩)
    (fun _ _ _ _ => hshell) hout hin
  · intro a' ha'
    obtain rfl := Option.some.inj ha'
    exact (hread hholds).2
  · intro a' ha'
    obtain rfl := Option.some.inj ha'
    exact (hwrite hholds).2

theorem LineInv.openPipe (h : LineInv z z.stage) (hst : z.stage = .openPipe) (hc : a.call = .createPipe)
    (hsome : (z.before a).createPipe.1 ≠ none) (hshell : z.shell = some z.currentProcess)
    (hrun : z.toUserMachine.step (.call a) = some y) :
    LineInv (z.advance (.call a) (z.after (.call a) y)) .createLeft := by
  have hin := h.shell _ hshell
  have hok : a.WritesLast z.toMachine := by
    unfold Action.WritesLast
    rw [hc]
    exact hin
  have ha : LineInv (z.after (.call a) y) .openPipe :=
    h.call hok hrun hshell (iff_of_true rfl hst) False.elim False.elim (by rw [hst]) (by rw [hst])
  obtain ⟨hleft, hright⟩ := ha.alone rfl
  obtain ⟨fds, hfds⟩ := Option.ne_none_iff_exists'.mp hsome
  obtain ⟨hlow, hread, hwrite⟩ := createPipe_hasEnd (user_made hrun) hc hin hfds
  have hself {p : ℕ} (hp : z.survivor (.call a) z.shell = some p) : p = z.currentProcess :=
    Option.some.inj ((survivor_some hp).1.symm.trans hshell)
  unfold CommandLine.advance
  simp only [hst, hfds]
  refine ⟨ha.wired, ha.shell, (fun he => by cases he), fun _ => hlow, fun _ p hp => ?_, fun _ p hp => ?_,
    fun l hl => ?_,
    fun r hr => ?_, fun l hl => ?_, fun r hr => ?_, ha.apart, ⟨fun l t hl => ?_, fun r t hr => ?_, fun r t hr => ?_⟩⟩
  · obtain rfl := hself hp
    exact hread
  · obtain rfl := hself hp
    exact hwrite
  · exact absurd (hleft.symm.trans hl) (by simp)
  · exact absurd (hright.symm.trans hr) (by simp)
  · exact absurd (hleft.symm.trans hl) (by simp)
  · exact absurd (hright.symm.trans hr) (by simp)
  · exact absurd (hleft.symm.trans hl) (by simp)
  · exact absurd (hright.symm.trans hr) (by simp)
  · exact absurd (hright.symm.trans hr) (by simp)

theorem created_some (h : z.created a = some p) : a.call.births (z.before a) p := by
  unfold CommandLine.created at h
  dsimp only at h
  split at h
  · obtain rfl := Option.some.inj h
    assumption
  · cases h

theorem LineInv.created (h : LineInv z z.stage) (hc : a.call = .createProcess args)
    (hslot : ∃ i < maxProcesses, z.processesList i = 0) (hend : z.HasEnd z.currentProcess pipe ty fd)
    (hrun : z.toUserMachine.step (.call a) = some y) (hp : z.created a = some p) :
    y.HasEnd p pipe ty fd ∧ y.pid p = z.returned a ∧ ¬InTable z.toCore p ∧
      y.stdin p = stdIn ∧ y.stdout p = stdOut ∧ z.nextStreams (.call a) p = false := by
  have hborn := created_some hp
  obtain ⟨hend', hpid, hnew⟩ := create_hasEnd h.wired.table (user_made hrun) hc hslot hend hborn
  obtain ⟨m, -, rfl⟩ := Option.map_eq_some_iff.mp (outside_some hrun).2
  exact ⟨hend', hpid.symm, hnew, if_pos hborn, if_pos hborn, if_pos hborn⟩

theorem LineInv.create (h : LineInv z z.stage) (hst : z.stage = .createLeft ∨ z.stage = .createRight)
    (hc : a.call = .createProcess args) (hslot : ∃ i < maxProcesses, z.processesList i = 0)
    (hshell : z.shell = some z.currentProcess) (hrun : z.toUserMachine.step (.call a) = some y) :
    LineInv (z.advance (.call a) (z.after (.call a) y)) z.stage.next := by
  have hin := h.shell _ hshell
  have hok : a.WritesLast z.toMachine := by
    unfold Action.WritesLast
    rw [hc]
    exact Or.inr (Or.inr hin)
  have hself {p : ℕ} (hp : z.survivor (.call a) z.shell = some p) : p = z.currentProcess :=
    Option.some.inj ((survivor_some hp).1.symm.trans hshell)
  have hnew {p q : ℕ} (hp : z.survivor (.call a) z.shell = some p) (hq : ¬InTable z.toCore q) : some q ≠ some p := by
    intro he
    obtain rfl := Option.some.inj he
    obtain rfl := hself hp
    exact hq hin
  have ha : LineInv (z.after (.call a) y) z.stage.next := by
    refine h.call hok hrun hshell ?_ (fun _ => ⟨?_, ?_⟩) (fun _ => ⟨?_, ?_⟩) ?_ ?_
    all_goals rcases hst with hst | hst
    all_goals simp [hst, hc, Stage.next, Stage.HoldsRead, Stage.HoldsWrite, Stage.LeftChanged, Stage.RightChanged]
  unfold CommandLine.advance
  rcases hst with hst | hst
  · simp only [hst] at ha ⊢
    have hend := h.holdsWrite (by rw [hst]; trivial) _ hshell
    refine ⟨ha.wired, ha.shell, (fun he => by cases he), ha.fds, ha.holdsRead, ha.holdsWrite, fun l hl => ?_, ha.right,
      fun l hl => ?_, ha.stdin, fun p hp => ⟨fun hl => ?_, (ha.apart p hp).2⟩,
      ⟨fun l t hl hs => ?_, ha.onPipe.right, ha.onPipe.keyboard⟩⟩
    · obtain ⟨hend', hpid, -⟩ := h.created hc hslot hend hrun hl
      exact ⟨hend', hpid⟩
    · obtain ⟨-, -, -, -, hout, -⟩ := h.created hc hslot hend hrun hl
      exact hout
    · obtain ⟨-, -, hfresh, -⟩ := h.created hc hslot hend hrun hl
      exact hnew hp hfresh rfl
    · obtain ⟨-, -, -, -, -, hstreams⟩ := h.created hc hslot hend hrun hl
      exact absurd (hstreams.symm.trans hs) (by simp)
  · simp only [hst] at ha ⊢
    have hend := h.holdsRead (by rw [hst]; trivial) _ hshell
    refine ⟨ha.wired, ha.shell, (fun he => by cases he), ha.fds, ha.holdsRead, ha.holdsWrite, ha.left, fun r hr => ?_,
      ha.stdout, fun r hr => ?_, fun p hp => ⟨(ha.apart p hp).1, fun hr => ?_⟩,
      ⟨ha.onPipe.left, fun r t hr hs => ?_, fun r t hr hs => ?_⟩⟩
    · obtain ⟨hend', hpid, -⟩ := h.created hc hslot hend hrun hr
      exact ⟨hend', hpid⟩
    · obtain ⟨-, -, -, hin, -⟩ := h.created hc hslot hend hrun hr
      exact hin
    · obtain ⟨-, -, hfresh, -⟩ := h.created hc hslot hend hrun hr
      exact hnew hp hfresh rfl
    · obtain ⟨-, -, -, -, -, hstreams⟩ := h.created hc hslot hend hrun hr
      exact absurd (hstreams.symm.trans hs) (by simp)
    · obtain ⟨-, -, -, -, -, hstreams⟩ := h.created hc hslot hend hrun hr
      exact absurd (hstreams.symm.trans hs) (by simp)

theorem LineInv.change {pid std newFd : ℤ} (h : LineInv z z.stage)
    (hrun : z.toUserMachine.step (.sysChangeStd pid std newFd) = some y) (hs : s = .openPipe ↔ z.stage = .openPipe)
    (hread : s.HoldsRead → z.stage.HoldsRead) (hwrite : s.HoldsWrite → z.stage.HoldsWrite)
    (hout : ∀ l, z.left = some l → y.stdout l = if s.LeftChanged then z.newPipe.2 else stdOut)
    (hin : ∀ r, z.right = some r → y.stdin r = if s.RightChanged then z.newPipe.1 else stdIn) :
    LineInv (z.after (.sysChangeStd pid std newFd) y) s :=
  h.after trivial trivial hrun hs (fun hholds => ⟨hread hholds, fun _ ha => by cases ha⟩)
    (fun hholds => ⟨hwrite hholds, fun _ ha => by cases ha⟩) (fun _ _ ha => by cases ha) hout hin

theorem LineInv.changeLeft (h : LineInv z z.stage) (hst : z.stage = .changeLeft)
    (hrun : z.toUserMachine.step (.sysChangeStd z.pid1 stdOut z.newPipe.2) = some y) :
    LineInv (z.after (.sysChangeStd z.pid1 stdOut z.newPipe.2) y) .changeRight := by
  have hy : y = { z.toUserMachine with stdout := update z.stdout (z.named z.pid1) z.newPipe.2 } :=
    (Option.some.inj (outside_some hrun).2).symm
  refine h.change hrun (by simp [hst]) (fun _ => by rw [hst]; trivial) (fun _ => by rw [hst]; trivial) (fun l hl => ?_)
    fun r hr => ?_
  · obtain ⟨hend, hpid⟩ := h.left l hl
    rw [if_pos (show Stage.changeRight.LeftChanged from trivial), hy, ← hpid, named_pid h.wired.table hend.inTable]
    exact Function.update_self ..
  · rw [hy]
    refine (h.stdin r hr).trans ?_
    rw [hst]
    rfl

theorem LineInv.changeRight (h : LineInv z z.stage) (hst : z.stage = .changeRight)
    (hrun : z.toUserMachine.step (.sysChangeStd z.pid2 stdIn z.newPipe.1) = some y) :
    LineInv (z.after (.sysChangeStd z.pid2 stdIn z.newPipe.1) y) .closeRead := by
  have hy : y = { z.toUserMachine with stdin := update z.stdin (z.named z.pid2) z.newPipe.1 } :=
    (Option.some.inj (outside_some hrun).2).symm
  refine h.change hrun (by simp [hst]) (fun _ => by rw [hst]; trivial) (fun _ => by rw [hst]; trivial) (fun l hl => ?_)
    fun r hr => ?_
  · rw [hy]
    refine (h.stdout l hl).trans ?_
    rw [hst]
    rfl
  · obtain ⟨hend, hpid⟩ := h.right r hr
    rw [if_pos (show Stage.closeRead.RightChanged from trivial), hy, ← hpid, named_pid h.wired.table hend.inTable]
    exact Function.update_self ..

/-- The shell closes the read end while it holds the write end, which it closes then. -/
theorem LineInv.closeRead (h : LineInv z z.stage) (hst : z.stage = .closeRead) (hc : a.call = .pipeClose z.newPipe.1)
    (hshell : z.shell = some z.currentProcess) (hrun : z.toUserMachine.step (.call a) = some y) :
    LineInv (z.after (.call a) y) .closeWrite := by
  have hread := h.holdsRead (by rw [hst]; trivial) _ hshell
  have hwrite := h.holdsWrite (by rw [hst]; trivial) _ hshell
  have hok : a.WritesLast z.toMachine := by
    unfold Action.WritesLast
    rw [hc]
    refine ⟨hread.inTable, fun hlast => ?_⟩
    have hone : z.readOpen (z.fdPipe z.newPipe.1) + z.writeOpen (z.fdPipe z.newPipe.1) = 1 := hlast.2.2
    have hreaders : 0 < z.readOpen z.pipe := h.wired.openCount_pos hread (by simp)
    have hwriters : 0 < z.writeOpen z.pipe := h.wired.openCount_pos hwrite (by simp)
    rw [hread.names.fdPipe] at hone
    omega
  refine h.call hok hrun hshell (by simp [hst]) False.elim (fun _ => ⟨by rw [hst]; trivial, ?_⟩) (by rw [hst]; rfl)
    (by rw [hst]; rfl)
  rw [hc]
  intro he
  have hsame : z.newPipe.1 = z.newPipe.2 := by simpa using he
  have htype := hread.names.fdType
  rw [hsame, hwrite.names.fdType] at htype
  cases htype

theorem LineInv.closeWrite (h : LineInv z z.stage) (hst : z.stage = .closeWrite) (hc : a.call = .pipeClose z.newPipe.2)
    (hshell : z.shell = some z.currentProcess) (hrun : z.toUserMachine.step (.call a) = some y) :
    LineInv (z.after (.call a) y) .waitChildren := by
  have hwrite := h.holdsWrite (by rw [hst]; trivial) _ hshell
  have hok : a.WritesLast z.toMachine := by
    unfold Action.WritesLast
    rw [hc]
    exact ⟨hwrite.inTable, fun _ => hwrite.names.fdType⟩
  exact h.call hok hrun hshell (by simp [hst]) False.elim False.elim (by rw [hst]; rfl) (by rw [hst]; rfl)

/-! ### Every step -/

theorem made_close (hb : ¬b.OfShell) (hm : b.made x = some a) : a.call ≠ .pipeClose fd := by
  intro hc
  cases b with
  | call b =>
    obtain rfl := Option.some.inj hm
    obtain ⟨call, offset, answers⟩ := b
    subst hc
    exact hb trivial
  | key scancode isPressed low offset answers =>
    unfold UserAction.made UserMachine.keyKill at hm
    dsimp only at hm
    split at hm
    · obtain rfl := Option.some.inj hm
      cases hc
    · cases hm
  | _ => cases hm

theorem LineInv.other (h : LineInv z z.stage) (hok : b.WritesLast z.toUserMachine)
    (htimely : LineAction.Timely z (.other b))
    (hb : ¬b.OfShell) (hrun : z.toUserMachine.step b = some y) : LineInv (z.after b y) z.stage := by
  have hstd : ∀ pid std newFd, b ≠ .sysChangeStd pid std newFd := by
    rintro pid std newFd rfl
    exact hb trivial
  obtain ⟨hout, hin⟩ := h.std hrun hstd Iff.rfl Iff.rfl
  exact h.after hok htimely hrun Iff.rfl (fun hholds => ⟨hholds, fun _ ha => made_close hb ha⟩)
    (fun hholds => ⟨hholds, fun _ ha => made_close hb ha⟩) (fun _ _ ha hc => absurd hc (made_close hb ha)) hout hin

theorem advance_stage : (z.advance b z').stage = z.stage.next := by
  unfold CommandLine.advance
  dsimp only
  split
  · split <;> rfl
  · rfl
  · rfl
  · rfl

/-- A call of the shell that it takes no result from. -/
theorem LineInv.advance (h : LineInv z' s) (h1 : z.stage ≠ .openPipe) (h2 : z.stage ≠ .createLeft)
    (h3 : z.stage ≠ .createRight) : LineInv (z.advance b z') s := by
  unfold CommandLine.advance
  dsimp only
  split
  · exact absurd (by assumption) h1
  · exact absurd (by assumption) h2
  · exact absurd (by assumption) h3
  · exact h.restage _

theorem LineInv.step {b : LineAction} (h : LineInv z z.stage) (hok : b.Regular z) (htimely : b.Timely z)
    (hrun : z.step b = some z') : LineInv z' z'.stage := by
  cases b with
  | other b =>
    unfold CommandLine.step at hrun
    dsimp only at hrun
    split at hrun
    · rename_i hallows
      obtain ⟨y, hy, rfl⟩ := Option.map_eq_some_iff.mp hrun
      exact h.other hok htimely hallows.1 hy
    · cases hrun
  | shell args offset answers =>
    obtain ⟨hshell, b, y, hnext, hy, rfl⟩ := shell_cases hrun
    unfold CommandLine.nextCall at hnext
    unfold LineAction.Regular at hok
    dsimp only at hok
    rw [advance_stage]
    cases hst : z.stage with
    | openPipe =>
      rw [hst] at hnext hok
      obtain rfl := Option.some.inj hnext
      exact h.openPipe hst rfl hok hshell hy
    | createLeft =>
      rw [hst] at hnext hok
      obtain rfl := Option.some.inj hnext
      exact hst ▸ h.create (Or.inl hst) rfl hok hshell hy
    | createRight =>
      rw [hst] at hnext hok
      obtain rfl := Option.some.inj hnext
      exact hst ▸ h.create (Or.inr hst) rfl hok hshell hy
    | changeLeft =>
      rw [hst] at hnext
      obtain rfl := Option.some.inj hnext
      exact (h.changeLeft hst hy).advance (by simp [hst]) (by simp [hst]) (by simp [hst])
    | changeRight =>
      rw [hst] at hnext
      obtain rfl := Option.some.inj hnext
      exact (h.changeRight hst hy).advance (by simp [hst]) (by simp [hst]) (by simp [hst])
    | closeRead =>
      rw [hst] at hnext
      obtain rfl := Option.some.inj hnext
      exact (h.closeRead hst rfl hshell hy).advance (by simp [hst]) (by simp [hst]) (by simp [hst])
    | closeWrite =>
      rw [hst] at hnext
      obtain rfl := Option.some.inj hnext
      exact (h.closeWrite hst rfl hshell hy).advance (by simp [hst]) (by simp [hst]) (by simp [hst])
    | waitChildren =>
      rw [hst] at hnext
      obtain rfl := Option.some.inj hnext
      have hz : LineInv (z.after _ y) .done :=
        h.call (show Action.WritesLast z.toMachine ⟨.wait, offset, answers⟩ from trivial)
          hy hshell (by simp [hst]) False.elim False.elim (by rw [hst]; rfl) (by rw [hst]; rfl)
      exact hz.advance (by simp [hst]) (by simp [hst]) (by simp [hst])
    | done =>
      rw [hst] at hnext
      cases hnext

/-! ### Every run -/

theorem userland_wired (h : userland.Reach (fun x b => b.WritesLast x) x) : Wired x.toKernel :=
  h.invariant (I := fun x => Wired x.toKernel) (fun _ hx => hx.1.1.wired)
    fun _ _ _ hx hok hrun => user_wired hx hok hrun

theorem lining_inv (h : lining.Reach (fun z b => b.Regular z ∧ b.Timely z) z) : LineInv z z.stage := by
  refine h.invariant (I := fun z => LineInv z z.stage) (fun z hz => ?_)
    fun z b z' hz hok hrun => hz.step hok.1 hok.2 hrun
  obtain ⟨hreach, hst, hleft, hright, hshell⟩ := hz
  have hnone {o : Option ℕ} (ho : o = none) {p : ℕ} (hp : o = some p) : False := by
    rw [ho] at hp
    cases hp
  rw [hst]
  exact ⟨userland_wired hreach, hshell, fun _ => ⟨hleft, hright⟩, fun h => absurd rfl h, False.elim, False.elim,
    fun _ hl => (hnone hleft hl).elim, fun _ hr => (hnone hright hr).elim, fun _ hl => (hnone hleft hl).elim,
    fun _ hr => (hnone hright hr).elim, fun p _ => ⟨fun hl => hnone hleft hl, fun hr => hnone hright hr⟩,
    ⟨fun _ _ hl => (hnone hleft hl).elim, fun _ _ hr => (hnone hright hr).elim, fun _ _ hr => (hnone hright hr).elim⟩⟩

/-- As long as each command uses its stream only after the shell has redirected it, all that
the left one writes goes into the pipe of the line and all that the right one reads comes
from there; and a first use that comes earlier misses the pipe. -/
theorem pipeline_redirected (h : lining.Reach (fun z b => b.Regular z ∧ b.Timely z) z) :
    (∀ b : LineAction, b.Piped z ↔ b.Timely z) ∧ z.OnPipe :=
  ⟨(lining_inv h).piped_iff, (lining_inv h).onPipe⟩

/-! ### Lines -/

namespace CommandLine

/-- The machine when its first process begins to execute a line. -/
def started : CommandLine where
  toUserMachine := (System.runList UserMachine.step (fun x b => b.WritesLast x) UserMachine.initial
    [.call (create 100), .call (plain .tick)]).getD UserMachine.initial
  shell := some 101
  stage := .openPipe
  newPipe := (0, 0)
  pid1 := 0
  pid2 := 0
  left := none
  right := none
  pipe := 0
  streams _ := false

/-- The line at the end of a list of permitted actions. -/
def ran (ok : CommandLine → LineAction → Prop) [∀ z b, Decidable (ok z b)] (bs : List LineAction) : CommandLine :=
  (System.runList step ok started bs).getD started

theorem started_init : lining.init started := by
  refine ⟨?_, rfl, rfl, rfl, fun s hs => ?_⟩
  · have hinit : userland.Reach (fun x b => b.WritesLast x) UserMachine.initial :=
      .init ⟨KeyMachine.initial_init, fun _ => rfl⟩
    have hrun : (System.runList UserMachine.step (fun x b => b.WritesLast x) UserMachine.initial
        [.call (create 100), .call (plain .tick)]).isSome = true := by decide +kernel
    exact hinit.runList_getD (fun _ _ _ => id) hrun
  · obtain rfl := Option.some.inj hs
    exact ⟨by decide, 0, by decide, by decide +kernel⟩

theorem lining_ran {ok : CommandLine → LineAction → Prop} [∀ z b, Decidable (ok z b)] {bs : List LineAction}
    (h : (System.runList step ok started bs).isSome = true) : lining.Reach ok (ran ok bs) :=
  (System.Reach.init started_init).runList_getD (fun _ _ _ => id) h

end CommandLine

/-- A foreground command; its blocks are at `base` and behind. -/
def command (base : ℕ) : LineAction :=
  .shell ⟨0, 3, 1, 0⟩ 0 [base, base + 1, base + 2, base + 3, base + 4, base + 5]

/-- A call of the shell that creates no process. -/
def shellCall (answers : List ℕ) : LineAction := .shell ⟨0, 3, 1, 0⟩ 0 answers

/-- The line up to its end, and a tick that puts the left command on the processor. -/
def wholeLine : CommandLine :=
  CommandLine.ran (fun z b => b.Regular z ∧ b.Timely z)
    [shellCall [500], command 200, command 300, shellCall [], shellCall [], shellCall [], shellCall [],
      .other (.call (plain .tick))]

theorem pipeline_redirected_wholeLine : wholeLine.left = some wholeLine.currentProcess ∧
    (LineAction.other (.sysWrite 1 (fun i => i + 7) 1)).Piped wholeLine := by
  refine ⟨by decide +kernel, ?_⟩
  have hreach : lining.Reach (fun z b => b.Regular z ∧ b.Timely z) wholeLine :=
    CommandLine.lining_ran (by decide +kernel)
  exact ((pipeline_redirected hreach).1 _).mpr (by decide +kernel)

/-- A tick comes after the left command has been created. -/
def earlyTick : CommandLine :=
  CommandLine.ran (fun z b => b.Regular z) [shellCall [500], command 200, .other (.call (plain .tick))]

theorem pipeline_redirected_earlyTick :
    ¬∀ z b, lining.Reach (fun z b => b.Regular z) z → LineAction.Regular z b → b.Piped z := by
  intro hall
  have hreach : lining.Reach (fun z b => b.Regular z) earlyTick := CommandLine.lining_ran (by decide +kernel)
  have hpiped := hall _ (.other (.sysWrite 1 (fun i => i + 7) 1)) hreach (by decide +kernel) rfl (by decide +kernel)
    (by decide)
  exact hpiped.1 (by decide +kernel)

end BareKernel
