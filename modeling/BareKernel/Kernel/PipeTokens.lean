import BareKernel.Kernel.PipeTable
import BareKernel.Kernel.SemRefine
import BareKernel.Kernel.TableStep
import BareKernel.Kernel.Transfer

/-! The tokens of the two semaphores of a pipe. Those of one are the bytes that can be
taken and those of the other the places that are free; a token that has been granted is
held until its byte has been transferred. -/

namespace BareKernel

open Function (update)
open Process Links Machine

namespace Side

def other : Side → Side
  | read => write
  | write => read

/-- The semaphore that pipes wait for on this side. -/
def semId : Side → ℤ
  | read => 1
  | write => 2

/-- The transfers that can proceed on a pipe with `n` bytes. -/
def tokens (n : ℕ) : Side → ℕ
  | read => n
  | write => bufferSize - n

/-- How many bytes there are after one more transfer. -/
def after (n : ℕ) : Side → ℕ
  | read => n - 1
  | write => n + 1

end Side

variable {k k' : Kernel} {m m' m₀ : Machine} {x y : PipeMachine} {a : Action} {s : FifoSem ℕ} {S : Side → FifoSem ℕ}
  {t : Transfer} {side : Side} {h h' : History} {p q n pipe offset : ℕ} {answers : List ℕ} {r id fd count : ℤ}
  {again : Bool}

theorem posts_eq (k : Kernel) (pipe : ℕ) (side : Side) : side.posts k pipe = side.other.waitsFor k pipe := by
  cases side <;> rfl

theorem Side.other_ne (side : Side) : side.other ≠ side := by cases side <;> simp [Side.other]

theorem Side.semId_inj {side side' : Side} (h : side.semId = side'.semId) : side = side' := by
  cases side <;> cases side' <;> simp_all [Side.semId]

theorem Side.eq_or_other (side side' : Side) : side' = side ∨ side' = side.other := by
  cases side <;> cases side' <;> simp [Side.other]

/-! ### A semaphore and the pipes -/

theorem KernelInv.setPipes (h : KernelInv k) (P : Pipes) : KernelInv { k with toPipes := P } := by
  obtain ⟨E, hchain, hnodup, hlive⟩ := h.sleepers
  exact ⟨h.ready, h.pids, E, hchain, hnodup, hlive⟩

/-- What happens to the pipes does not matter to a semaphore. -/
theorem Tracks.setPipes (h : Tracks m id s) (P : Pipes) : Tracks { m with toPipes := P } id s := by
  obtain ⟨⟨hinv, hwhy, halive, hopen, hshape, hexact, hcpu⟩, hvalue, hqueue, hwaiting, hwake⟩ := h
  exact ⟨⟨hinv.setPipes P, hwhy, halive, hopen, hshape, hexact, hcpu⟩, hvalue, hqueue,
    hwaiting, hwake⟩

/-- A post wakes only processes that wait at its semaphore. -/
theorem Tracks.post_spares (h : Tracks m id s) {id' : ℤ} (hid : id' ≠ id) (hc : a.call = .semPost id) :
    a.Spares m id' := by
  intro i _ hin
  have hat := h.at'
  rw [hc]
  refine ⟨?_, fun he => he⟩
  rintro ⟨-, pid, hpop, hwakes⟩
  cases hq : (m.sems id).queue with
  | nil =>
    rw [QueueAt.popLive_nil (a := a) hq] at hpop
    cases hpop
  | cons first rest =>
    obtain ⟨s', hpop', -⟩ := hat.popLive_cons (a := a) hq
    rw [hpop'] at hpop
    obtain rfl := Option.some.inj hpop
    obtain ⟨hfound, -⟩ := hat.found (a := a) (show first ∈ (m.sems id).queue by simp [hq])
    rw [← hwakes.2.1] at hfound
    have hwhy := hfound.2.symm.trans hin.2
    simp only [Option.some.injEq, Reason.sem.injEq] at hwhy
    exact hid hwhy.symm

theorem keepsRing_wait (hc : a.call = .semWait id) : a.KeepsRing m := by
  unfold Action.KeepsRing
  rw [hc]
  exact ⟨trivial, trivial⟩

theorem keepsRing_post (hc : a.call = .semPost id) : a.KeepsRing m := by
  unfold Action.KeepsRing
  rw [hc]
  exact ⟨trivial, trivial⟩

/-- The queue does not hold the process on the processor. -/
theorem Tracks.not_waiting (h : Tracks m id s) : m.currentProcess ∉ s.waiting := fun hw =>
  h.at'.cpu ((h.waiting _).mp hw)

/-! ### One pipe -/

/-- The process has come for a token of this side and has not used it. -/
def PipeMachine.Comes (x : PipeMachine) (side : Side) (p : ℕ) : Prop :=
  ∃ t, x.transfer p = some t ∧ t.side = side ∧ t.waited = true

/-- The transfer has not moved more than it should. -/
structure Transfer.Sound (t : Transfer) : Prop where
  bound : (t.moved.length : ℤ) ≤ max t.count 0
  waited : t.waited = true → t.Unfinished

/-- The bytes between the two positions of a pipe. -/
def Kernel.HoldsBytes (k : Kernel) (pipe n : ℕ) (h : History) : Prop :=
  Window (k.buffer pipe) bufferSize (k.readPos pipe) (k.writePos pipe) n h.stored h.taken

/-- The pipe waits for the semaphores of the pipes. -/
def Kernel.HasSems (k : Kernel) (pipe : ℕ) : Prop := ∀ side : Side, side.waitsFor k pipe = side.semId

/-- The tokens of the two semaphores, free or held, are those of one pipe with `n` bytes. -/
structure Pool (x : PipeMachine) (S : Side → FifoSem ℕ) (n : ℕ) : Prop where
  tracks : ∀ side : Side, Tracks x.toMachine side.semId (S side)
  books : ∀ side : Side, (S side).Books (x.Comes side) (side.tokens n)
  room : n ≤ bufferSize
  sound : ∀ p t, x.transfer p = some t → x.HasSems t.pipe ∧ t.Sound

/-- The contents and the semaphores of a pipe are the same. -/
structure SameBuffer (k k' : Kernel) (pipe : ℕ) : Prop where
  buffer : k'.buffer pipe = k.buffer pipe
  readPos : k'.readPos pipe = k.readPos pipe
  writePos : k'.writePos pipe = k.writePos pipe
  dataAvailable : k'.semDataAvailable pipe = k.semDataAvailable pipe
  freeSpace : k'.semFreeSpace pipe = k.semFreeSpace pipe

theorem SameBuffer.of_eq (hp : k'.toPipes = k.toPipes) (pipe : ℕ) : SameBuffer k k' pipe := by
  have hfield {α : Type} (f : Pipes → ℕ → α) : f k'.toPipes pipe = f k.toPipes pipe := by rw [hp]
  exact ⟨hfield Pipes.buffer, hfield Pipes.readPos, hfield Pipes.writePos, hfield Pipes.semDataAvailable,
    hfield Pipes.semFreeSpace⟩

theorem SameBuffer.waitsFor (h : SameBuffer k k' pipe) (side : Side) :
    side.waitsFor k' pipe = side.waitsFor k pipe := by
  cases side with
  | read => exact h.dataAvailable
  | write => exact h.freeSpace

theorem SameBuffer.hasSems (h : SameBuffer k k' pipe) (hk : k.HasSems pipe) : k'.HasSems pipe := fun side =>
  (h.waitsFor side).trans (hk side)

theorem SameBuffer.holdsBytes (hb : SameBuffer k k' pipe) (hk : k.HoldsBytes pipe n h) : k'.HoldsBytes pipe n h := by
  unfold Kernel.HoldsBytes
  rw [hb.buffer, hb.readPos, hb.writePos]
  exact hk

theorem step_toPipes (hrun : m.step a = some m') (hc : a.call.Ordinary) : m'.toPipes = m.toPipes := by
  obtain ⟨r, k, again, hcall, hcases⟩ := step_cases hrun
  have hstill := (call_still hcall hc).toPipes
  rcases hcases with ⟨-, rfl⟩ | ⟨-, cpu, c, -, rfl⟩
  · exact hstill
  · exact hstill

/-- A semaphore that is left alone follows along. -/
theorem Tracks.same (h : Tracks m id s) (hidle : s.value ≠ 0 → s.waiting = []) (hok : a.SharesSem m id)
    (hwait : a.call ≠ .semWait id) (hpost : a.call ≠ .semPost id) (hrun : m.step a = some m') : Tracks m' id s := by
  have hev : semEvents id m a = [] := by
    unfold semEvents
    cases hc : a.call <;> simp_all
  have hstep := h.step hidle (fun hp => absurd hp hpost) hok hrun
  rwa [hev, FifoSem.run_nil] at hstep

theorem books_value_lt {came : ℕ → Prop} (hb : s.Books came (side.tokens n)) (hn : n ≤ bufferSize) :
    s.value + 1 < 2 ^ 15 := by
  obtain ⟨held, -, -, hsum⟩ := hb.holders
  have hsize : bufferSize = 2048 := rfl
  have hle : side.tokens n ≤ bufferSize := by
    cases side with
    | read => exact hn
    | write => exact Nat.sub_le _ _
  omega

/-! ### Steps of one pipe -/

theorem comes_setCurrent {o : Option Transfer} : (x.setCurrent o m).Comes side p ↔
    if p = x.currentProcess then ∃ t, o = some t ∧ t.side = side ∧ t.waited = true else x.Comes side p := by
  unfold PipeMachine.Comes PipeMachine.setCurrent
  dsimp only
  by_cases hp : p = x.currentProcess
  · subst hp
    rw [Function.update_self, if_pos rfl]
  · rw [Function.update_of_ne hp, if_neg hp]

/-- Another call. -/
theorem Pool.call (hf : Pool x S n)
    (hok : ∀ side : Side, a.SharesSem x.toMachine side.semId ∧ a.call ≠ .semWait side.semId ∧
      a.call ≠ .semPost side.semId)
    (hends : ∀ p, a.call.ends (x.before a) p → x.transfer p = none) (hrun : x.toMachine.step a = some m)
    (hsems : ∀ q, x.HasSems q → m.HasSems q) : Pool (x.afterCall a m) S n := by
  have htransfer : (x.afterCall a m).transfer = x.transfer := by
    funext p
    show (if a.call.ends (x.before a) p then none else x.transfer p) = x.transfer p
    split
    · rename_i hp
      exact (hends p hp).symm
    · rfl
  have hcomes (side : Side) (p : ℕ) : (x.afterCall a m).Comes side p ↔ x.Comes side p := by
    unfold PipeMachine.Comes
    rw [htransfer]
  refine ⟨fun side => ?_, fun side => (hf.books side).congr (hcomes side), hf.room, fun p t ht => ?_⟩
  · obtain ⟨hshare, hwait, hpost⟩ := hok side
    exact (hf.tracks side).same (hf.books side).idle hshare hwait hpost hrun
  · rw [htransfer] at ht
    obtain ⟨hpipe, hsound⟩ := hf.sound p t ht
    exact ⟨hsems t.pipe hpipe, hsound⟩

/-- A transfer begins, or ends when it has used all its tokens. -/
theorem Pool.set {o : Option Transfer} (hf : Pool x S n) (hcur : ∀ t, x.current = some t → t.waited = false)
    (ho : ∀ t, o = some t → x.HasSems t.pipe ∧ t.Sound ∧ t.waited = false) :
    Pool (x.setCurrent o x.toMachine) S n := by
  have hcomes (side : Side) (p : ℕ) : (x.setCurrent o x.toMachine).Comes side p ↔ x.Comes side p := by
    rw [comes_setCurrent]
    split_ifs with hp
    · refine iff_of_false ?_ ?_
      · rintro ⟨t, ht, -, hw⟩
        rw [(ho t ht).2.2] at hw
        cases hw
      · rintro ⟨t, ht, -, hw⟩
        rw [hcur t (by rwa [hp] at ht)] at hw
        cases hw
    · rfl
  refine ⟨hf.tracks, fun side => (hf.books side).congr (hcomes side), hf.room, fun p t ht => ?_⟩
  change update x.transfer x.currentProcess o p = some t at ht
  by_cases hp : p = x.currentProcess
  · rw [hp, Function.update_self] at ht
    exact ⟨(ho t ht).1, (ho t ht).2.1⟩
  · rw [Function.update_of_ne hp] at ht
    exact hf.sound p t ht

/-- The process comes for the token of its next byte. -/
theorem Pool.wait (hf : Pool x S n) (hcur : x.current = some t) (hw : t.waited = false) (hun : t.Unfinished)
    (hready : (x.sems t.side.semId).value = 0 →
      x.pid x.currentProcess ≠ 1 ∧ InTable x.toCore x.currentProcess ∧ OtherReady x.toCore)
    (hrun : x.toMachine.step (x.waitAction t offset answers) = some m) :
    Pool (x.setCurrent (some t.wait) m) (update S t.side ((S t.side).step (.wait x.currentProcess))) n := by
  obtain ⟨hpipe, hsound⟩ := hf.sound _ t hcur
  set a := x.waitAction t offset answers with ha
  have hc : a.call = .semWait t.side.semId := by
    rw [← hpipe t.side]
    rfl
  have hring : a.KeepsRing x.toMachine := keepsRing_wait hc
  have hshare (side : Side) : a.SharesSem x.toMachine side.semId := by
    refine ⟨hring, ?_⟩
    rw [hc]
    intro hside
    rwa [hside] at hready
  have hsems (q : ℕ) : x.HasSems q → m.HasSems q :=
    (SameBuffer.of_eq (step_toPipes hrun (by rw [hc]; trivial)) q).hasSems
  have hcomes (side : Side) (p : ℕ) : (x.setCurrent (some t.wait) m).Comes side p ↔
      if side = t.side then x.Comes side p ∨ p = x.currentProcess else x.Comes side p := by
    have hnot : ¬x.Comes side x.currentProcess := by
      rintro ⟨t', ht', -, hw'⟩
      obtain rfl : t = t' := Option.some.inj (hcur.symm.trans ht')
      rw [hw] at hw'
      cases hw'
    rw [comes_setCurrent]
    by_cases hp : p = x.currentProcess
    · subst hp
      rw [if_pos rfl]
      split_ifs with hside
      · exact iff_of_true ⟨t.wait, rfl, hside.symm, rfl⟩ (Or.inr rfl)
      · refine iff_of_false ?_ hnot
        rintro ⟨t', ht', hs', -⟩
        obtain rfl := Option.some.inj ht'
        exact hside hs'.symm
    · rw [if_neg hp]
      split_ifs
      · exact (or_iff_left hp).symm
      · rfl
  refine ⟨fun side => ?_, fun side => ?_, hf.room, fun p t' ht' => ?_⟩
  · by_cases hside : side = t.side
    · subst hside
      have hev : semEvents t.side.semId x.toMachine a = [.wait x.currentProcess] := by simp [semEvents, hc]
      have hstep := (hf.tracks t.side).step (hf.books t.side).idle (fun hp => by rw [hc] at hp; cases hp)
        (hshare t.side) hrun
      rw [Function.update_self]
      rwa [hev] at hstep
    · rw [Function.update_of_ne hside]
      refine (hf.tracks side).same (hf.books side).idle (hshare side) ?_ (by rw [hc]; simp) hrun
      rw [hc]
      intro heq
      exact hside (Side.semId_inj (Call.semWait.inj heq)).symm
  · by_cases hside : side = t.side
    · subst hside
      rw [Function.update_self]
      refine ((hf.books t.side).wait ?_).congr fun p => ?_
      · rintro ⟨t', ht', -, hw'⟩
        obtain rfl : t = t' := Option.some.inj (hcur.symm.trans ht')
        rw [hw] at hw'
        cases hw'
      · rw [hcomes, if_pos rfl]
    · rw [Function.update_of_ne hside]
      refine (hf.books side).congr fun p => ?_
      rw [hcomes, if_neg hside]
  · change update x.transfer x.currentProcess (some t.wait) p = some t' at ht'
    by_cases hp : p = x.currentProcess
    · rw [hp, Function.update_self] at ht'
      obtain rfl := Option.some.inj ht'
      exact ⟨hsems t.pipe hpipe, hsound.bound, fun _ => hun⟩
    · rw [Function.update_of_ne hp] at ht'
      obtain ⟨hpipe', hsound'⟩ := hf.sound p t' ht'
      exact ⟨hsems t'.pipe hpipe', hsound'⟩

/-- The event of a byte. -/
def Transfer.event (t : Transfer) (k : Kernel) : PipeEvent :=
  match t.side with
  | .read => .taken t.pipe (t.byte k)
  | .write => .stored t.pipe (t.byte k)

theorem moved_eq (x : PipeMachine) (t : Transfer) :
    x.moved t = { x.toMachine with toPipes := (t.moveByte x.toKernel).toPipes } := by
  unfold PipeMachine.moved Transfer.moveByte
  cases t.side <;> rfl

theorem moveByte_waitsFor (t : Transfer) (k : Kernel) (pipe : ℕ) (side : Side) :
    side.waitsFor (t.moveByte k) pipe = side.waitsFor k pipe := by
  unfold Transfer.moveByte
  cases t.side <;> cases side <;> rfl

/-- A token is a byte to take or a free place. -/
theorem Side.tokens_after (hpos : 0 < side.tokens n) (hn : n ≤ bufferSize) : side.after n ≤ bufferSize ∧
    side.tokens (side.after n) = side.tokens n - 1 ∧ side.other.tokens (side.after n) = side.other.tokens n + 1 := by
  cases side with
  | read =>
    change 0 < n at hpos
    refine ⟨?_, rfl, ?_⟩
    · show n - 1 ≤ bufferSize
      omega
    · show bufferSize - (n - 1) = bufferSize - n + 1
      omega
  | write =>
    change 0 < bufferSize - n at hpos
    refine ⟨?_, ?_, rfl⟩
    · show n + 1 ≤ bufferSize
      omega
    · show bufferSize - (n + 1) = bufferSize - n - 1
      omega

theorem Kernel.HoldsBytes.move (hk : k.HoldsBytes t.pipe n h) (hpos : 0 < t.side.tokens n) :
    (t.moveByte k).HoldsBytes t.pipe (t.side.after n) (h.step t.pipe (t.event k)) := by
  unfold Kernel.HoldsBytes at hk ⊢
  unfold Transfer.event Transfer.moveByte Transfer.byte
  cases hside : t.side with
  | read =>
    rw [hside] at hpos
    change 0 < n at hpos
    obtain ⟨n, rfl⟩ : ∃ l, n = l + 1 := ⟨n - 1, by omega⟩
    dsimp only [Kernel.dropByte, History.step]
    rw [if_pos rfl, Function.update_self]
    exact hk.take
  | write =>
    rw [hside] at hpos
    change 0 < bufferSize - n at hpos
    dsimp only [Kernel.storeByte, History.step]
    rw [if_pos rfl, Function.update_self, Function.update_self]
    exact hk.store (by omega) _

/-- The process uses its token, and there is one more on the other side. -/
theorem Pool.move (hf : Pool x S n) (hcur : x.current = some t) (hw : t.waited = true)
    (hrun : (x.moved t).step (x.postAction t offset answers) = some m) :
    0 < t.side.tokens n ∧ Pool (x.setCurrent (some (t.next x.toKernel)) m)
      (update S t.side.other ((S t.side.other).step .post)) (t.side.after n) := by
  obtain ⟨hpipe, hsound⟩ := hf.sound _ t hcur
  have hcame : x.Comes t.side x.currentProcess := ⟨t, hcur, rfl, hw⟩
  obtain ⟨hpos, hused⟩ := (hf.books t.side).use hcame (hf.tracks t.side).not_waiting
  obtain ⟨hroom, htokens, htokens'⟩ := Side.tokens_after hpos hf.room
  set a := x.postAction t offset answers with ha
  have hc : a.call = .semPost t.side.other.semId := by
    rw [← hpipe t.side.other, ← posts_eq]
    rfl
  have hring : a.KeepsRing (x.moved t) := keepsRing_post hc
  have htracks (side : Side) : Tracks (x.moved t) side.semId (S side) := by
    rw [moved_eq]
    exact (hf.tracks side).setPipes _
  have hsems (q : ℕ) (hq : x.HasSems q) : m.HasSems q := by
    have hbuf : SameBuffer (t.moveByte x.toKernel) m.toKernel q := .of_eq (step_toPipes hrun (by rw [hc]; trivial)) q
    refine hbuf.hasSems fun side => ?_
    rw [moveByte_waitsFor]
    exact hq side
  have hcomes (side : Side) (p : ℕ) : (x.setCurrent (some (t.next x.toKernel)) m).Comes side p ↔
      x.Comes side p ∧ p ≠ x.currentProcess := by
    rw [comes_setCurrent]
    by_cases hp : p = x.currentProcess
    · rw [if_pos hp]
      refine iff_of_false ?_ fun hboth => hboth.2 hp
      rintro ⟨t', ht', -, hw'⟩
      obtain rfl := Option.some.inj ht'
      cases hw'
    · rw [if_neg hp]
      exact (and_iff_left hp).symm
  refine ⟨hpos, fun side => ?_, fun side => ?_, hroom, fun p t' ht' => ?_⟩
  · rcases Side.eq_or_other t.side side with rfl | rfl
    · rw [Function.update_of_ne (Side.other_ne _).symm]
      refine (htracks t.side).same (hf.books t.side).idle ⟨hring, ?_⟩ (by rw [hc]; simp) ?_ hrun
      · rw [hc]
        refine Or.inr ((htracks t.side.other).post_spares ?_ hc)
        exact fun heq => Side.other_ne _ (Side.semId_inj heq).symm
      · rw [hc]
        intro heq
        exact Side.other_ne _ (Side.semId_inj (Call.semPost.inj heq))
    · have hev : semEvents t.side.other.semId (x.moved t) a = [.post] := by simp [semEvents, hc]
      have hstep := (htracks t.side.other).step (hf.books t.side.other).idle
        (fun _ => books_value_lt (hf.books t.side.other) hf.room) ⟨hring, by rw [hc]; exact Or.inl rfl⟩ hrun
      rw [Function.update_self]
      rwa [hev] at hstep
  · rcases Side.eq_or_other t.side side with rfl | rfl
    · rw [Function.update_of_ne (Side.other_ne _).symm, htokens]
      exact hused.congr (hcomes t.side)
    · rw [Function.update_self, htokens']
      refine (hf.books t.side.other).post.congr fun p => ?_
      rw [hcomes]
      refine and_iff_left_of_imp ?_
      rintro ⟨t', ht', hs', -⟩ rfl
      obtain rfl : t = t' := Option.some.inj (hcur.symm.trans ht')
      exact Side.other_ne _ hs'.symm
  · change update x.transfer x.currentProcess (some (t.next x.toKernel)) p = some t' at ht'
    by_cases hp : p = x.currentProcess
    · rw [hp, Function.update_self] at ht'
      obtain rfl := Option.some.inj ht'
      have hun : (t.moved.length : ℤ) < t.count := hsound.waited hw
      refine ⟨hsems t.pipe hpipe, ?_, fun hno => by cases hno⟩
      show ((t.moved ++ [t.byte x.toKernel]).length : ℤ) ≤ max t.count 0
      rw [List.length_append, List.length_singleton]
      omega
    · rw [Function.update_of_ne hp] at ht'
      obtain ⟨hpipe', hsound'⟩ := hf.sound p t' ht'
      exact ⟨hsems t'.pipe hpipe', hsound'⟩

end BareKernel
