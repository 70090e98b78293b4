import BareKernel.Kernel.PipeLaw

/-! The two entries of each pipe. They lie next to each other, the read end first, and
the end of a pipe gives up the entry that is closed last and the one below it. -/

namespace BareKernel

open Function (update)
open Process Links Machine

/-- The entry is in use. -/
structure Kernel.Used (k : Kernel) (fd : ℤ) : Prop where
  low : 0 ≤ fd
  high : fd < maxFds
  inUse : k.inUse fd = true

/-- The pipe has the entries `e` and `e + 1` and no others. -/
structure Kernel.Pair (k : Kernel) (pipe : ℕ) (e : ℤ) : Prop where
  read : k.Names pipe .read e
  write : k.Names pipe .write (e + 1)
  only : ∀ fd, k.Used fd → k.fdPipe fd = pipe → fd = e ∨ fd = e + 1

/-- Every entry in use is one of the two of a pipe. -/
structure FdPairs (k : Kernel) : Prop where
  hasPipe : ∀ fd, k.Used fd → k.HasPipe (k.fdPipe fd)
  pair : ∀ pipe, k.HasPipe pipe → ∃ e, k.Pair pipe e

variable {k k' k₁ : Kernel} {c c' : Core} {m m' : Machine} {a : Action} {call : Call} {S : Finset ℕ}
  {lost : ℕ → FDType → ℕ} {pipe p q i j n s t : ℕ} {ty : FDType} {fd pid r e : ℤ} {again : Bool}

theorem Kernel.Names.used (h : k.Names pipe ty fd) : k.Used fd := ⟨h.low, h.high, h.inUse⟩

theorem SameEntries.used (h : SameEntries k k') : k'.Used fd ↔ k.Used fd := by
  constructor
  · rintro ⟨h1, h2, h3⟩
    exact ⟨h1, h2, h.inUse ▸ h3⟩
  · rintro ⟨h1, h2, h3⟩
    exact ⟨h1, h2, by rwa [h.inUse]⟩

theorem FdPairs.congr (h : FdPairs k) (hs : SameEntries k k') : FdPairs k' := by
  refine ⟨fun fd hfd => ?_, fun pipe hp => ?_⟩
  · have hfd' := hs.used.mp hfd
    rw [hs.hasPipe, hs.fdPipe fd hfd'.inUse]
    exact h.hasPipe fd hfd'
  · obtain ⟨e, he⟩ := h.pair pipe (hs.hasPipe.mp hp)
    refine ⟨e, hs.names.mpr he.read, hs.names.mpr he.write, fun fd hfd hpipe => ?_⟩
    have hfd' := hs.used.mp hfd
    exact he.only fd hfd' (hs.fdPipe fd hfd'.inUse ▸ hpipe)

/-- The write end of a pipe is the upper one of its entries. -/
theorem Kernel.Pair.eq_write (h : k.Pair (k.fdPipe fd) e) (hfd : k.Used fd) (hty : k.fdType fd = .write) :
    fd = e + 1 := by
  rcases h.only fd hfd rfl with rfl | heq
  · rw [h.read.fdType] at hty
    cases hty
  · exact heq

theorem Kernel.Pair.eq_read (h : k.Pair (k.fdPipe fd) e) (hfd : k.Used fd) (hty : k.fdType fd ≠ .write) : fd = e := by
  rcases h.only fd hfd rfl with heq | rfl
  · exact heq
  · exact absurd h.write.fdType hty

/-! ### A new pipe and the end of one -/

theorem PipeMade.used (hm : PipeMade k k' i pipe n s t) :
    k'.Used fd ↔ k.Used fd ∨ fd = n ∨ fd = (n + 1 : ℕ) := by
  constructor
  · rintro ⟨h1, h2, h3⟩
    by_cases hn : fd = n
    · exact Or.inr (Or.inl hn)
    · by_cases hn' : fd = (n + 1 : ℕ)
      · exact Or.inr (Or.inr hn')
      · exact Or.inl ⟨h1, h2, (hm.entry hn hn').1 ▸ h3⟩
  · rintro (hfd | rfl | rfl)
    · obtain ⟨hx, hx'⟩ := hm.ne_of_inUse hfd.inUse
      exact ⟨hfd.low, hfd.high, (hm.entry hx hx').1.trans hfd.inUse⟩
    · exact hm.names_read.used
    · exact hm.names_write.used

theorem PipeMade.pairs (hm : PipeMade k k' i pipe n s t) (h : FdPairs k)
    (hlive : ∀ q, k.HasPipe q → q ∈ k.live .pipe) : FdPairs k' := by
  have hnew (q : ℕ) (hq : k.HasPipe q) : q ≠ pipe := by
    rintro rfl
    exact hm.block.2 (hlive _ hq)
  have hold (x : ℤ) (hx : k.Used x) : k'.fdPipe x = k.fdPipe x ∧ k'.fdType x = k.fdType x := by
    obtain ⟨hn, hn'⟩ := hm.ne_of_inUse hx.inUse
    exact (hm.entry hn hn').2
  have hnames (q : ℕ) (ty : FDType) (x : ℤ) (hx : k.Names q ty x) : k'.Names q ty x := by
    obtain ⟨h1, h2⟩ := hold x hx.used
    have hx' := hm.used.mpr (Or.inl hx.used)
    exact ⟨hx'.low, hx'.high, hx'.inUse, h1.trans hx.fdPipe, h2.trans hx.fdType⟩
  refine ⟨fun fd hfd => ?_, fun q hq => ?_⟩
  · rcases hm.used.mp hfd with hfd | rfl | rfl
    · rw [(hold fd hfd).1, hm.hasPipe]
      exact Or.inl (h.hasPipe fd hfd)
    · rw [hm.names_read.fdPipe, hm.hasPipe]
      exact Or.inr rfl
    · rw [hm.names_write.fdPipe, hm.hasPipe]
      exact Or.inr rfl
  · rcases hm.hasPipe.mp hq with hq | rfl
    · obtain ⟨e, he⟩ := h.pair q hq
      refine ⟨e, hnames q _ e he.read, hnames q _ (e + 1) he.write, fun fd hfd hpipe => ?_⟩
      rcases hm.used.mp hfd with hfd | rfl | rfl
      · exact he.only fd hfd ((hold fd hfd).1 ▸ hpipe)
      · exact absurd (hpipe.symm.trans hm.names_read.fdPipe) (hnew q hq)
      · exact absurd (hpipe.symm.trans hm.names_write.fdPipe) (hnew q hq)
    · refine ⟨n, hm.names_read, hm.names_write, fun fd hfd hpipe => ?_⟩
      rcases hm.used.mp hfd with hfd | hfd | hfd
      · exact absurd ((hold fd hfd).1.symm.trans hpipe) (hnew _ (h.hasPipe fd hfd))
      · exact Or.inl hfd
      · exact Or.inr hfd

/-- The end of a pipe through its write end gives up the entries of that pipe only. -/
theorem FdPairs.destroy (h : FdPairs k) (hids : ∀ i < maxPipes, k.pipes i ≠ 0 → k.pipeId (k.pipes i) = i)
    (hfd : k.Used fd) (hty : k.fdType fd = .write) : FdPairs (k.pipeDestroy fd) := by
  have hp := h.hasPipe fd hfd
  obtain ⟨e, he⟩ := h.pair _ hp
  obtain rfl := he.eq_write hfd hty
  have hused (x : ℤ) (hx : (k.pipeDestroy (e + 1)).Used x) : k.Used x ∧ x ≠ e + 1 ∧ x ≠ e + 1 - 1 := by
    have hne : x ≠ e + 1 - 1 := by
      rintro rfl
      have hcleared : (k.pipeDestroy (e + 1)).inUse (e + 1 - 1) = false := Function.update_self ..
      rw [hx.inUse] at hcleared
      cases hcleared
    have hne' : x ≠ e + 1 := by
      rintro rfl
      have hcleared : (k.pipeDestroy (e + 1)).inUse (e + 1) = false :=
        (Function.update_of_ne hne ..).trans (Function.update_self ..)
      rw [hx.inUse] at hcleared
      cases hcleared
    exact ⟨⟨hx.low, hx.high, (pipeDestroy_entry hne' hne).1 ▸ hx.inUse⟩, hne', hne⟩
  have hpipe (q : ℕ) := pipeDestroy_hasPipe q hids hp
  refine ⟨fun x hx => ?_, fun q hq => ?_⟩
  · obtain ⟨hx, hne, hne'⟩ := hused x hx
    rw [(pipeDestroy_entry hne hne').2.1, hpipe]
    refine ⟨h.hasPipe x hx, fun heq => ?_⟩
    rcases he.only x hx heq with rfl | rfl
    · omega
    · exact hne rfl
  · obtain ⟨hq, hne⟩ := (hpipe q).mp hq
    obtain ⟨d, hd⟩ := h.pair q hq
    have hother (ty : FDType) (x : ℤ) (hx : k.Names q ty x) : x ≠ e + 1 ∧ x ≠ e + 1 - 1 := by
      constructor
      · rintro rfl
        exact hne hx.fdPipe.symm
      · rintro rfl
        rw [show e + 1 - 1 = e by omega] at hx
        exact hne (hx.fdPipe.symm.trans he.read.fdPipe)
    refine ⟨d, ?_, ?_, fun x hx heq => ?_⟩
    · obtain ⟨h1, h2⟩ := hother _ _ hd.read
      exact (pipeDestroy_names h1 h2).mpr hd.read
    · obtain ⟨h1, h2⟩ := hother _ _ hd.write
      exact (pipeDestroy_names h1 h2).mpr hd.write
    · obtain ⟨hx, h1, h2⟩ := hused x hx
      exact hd.only x hx ((pipeDestroy_entry h1 h2).2.1 ▸ heq)

/-! ### Closing -/

/-- The last reference to a pipe that is closed is that of the write end. -/
def Kernel.WriteLast (k : Kernel) (fd : ℤ) : Prop := k.LastRef fd → k.fdType fd = .write

theorem Kernel.ValidFd.used (h : k.ValidFd fd) : k.Used fd := ⟨h.low, h.high, h.inUse⟩

theorem FdPairs.close (h : FdPairs k) (hinv : FdInv k S lost) (hp : k.currentProcess ∈ S) (hlast : k.WriteLast fd) :
    FdPairs (k.pipeClose fd).2 := by
  rcases hinv.close_cases fd hp with hsame | ⟨hfd, i, -, -, ⟨hdrop, -⟩ | ⟨href, -, hend⟩⟩
  · rw [hsame]
    exact h
  · rw [hdrop]
    exact h.congr (dropFd_entries k fd i)
  · rw [hend]
    have hsame := dropFd_entries k fd i
    exact (h.congr hsame).destroy hinv.ids (hsame.used.mpr hfd.used) (hlast href)

/-- Nobody holds the read end when the last reference is that of the write end. -/
theorem FdPairs.below (h : FdPairs k) (hinv : FdInv k S lost) (hcur : k.currentProcess ∈ S) (hlast : k.WriteLast fd)
    (href : k.LastRef fd) : ∀ p ∈ S, ∀ j < rowSize, k.fdTable p j ≠ fd - 1 := by
  intro p hp j hj hheld
  have hwrite := hlast href
  obtain ⟨hlow, ⟨l, hl, hslot⟩, hone⟩ := href
  have hfd : k.ValidFd fd := by
    rcases hinv.rows _ hcur l hl with hnone | hv
    · omega
    · rwa [hslot] at hv
  obtain ⟨e, he⟩ := h.pair _ hfd.hasPipe
  have heq := he.eq_write hfd.used hwrite
  -- a slot holds the write end and another the read end, so the counts are positive
  have hwriters : 0 < k.holders S (k.fdPipe fd) .write :=
    entryCount_pos.mpr ⟨_, hcur, l, hl, by rw [hslot]; exact heq ▸ he.write⟩
  have hreaders : 0 < k.holders S (k.fdPipe fd) .read := by
    refine entryCount_pos.mpr ⟨p, hp, j, hj, ?_⟩
    rw [hheld, show fd - 1 = e by omega]
    exact he.read
  have hr : k.readOpen (k.fdPipe fd) = _ := hinv.counts (k.fdPipe fd) .read hfd.hasPipe (by simp)
  have hw : k.writeOpen (k.fdPipe fd) = _ := hinv.counts (k.fdPipe fd) .write hfd.hasPipe (by simp)
  omega

theorem FdPairs.closeFirst (h : FdPairs k) (hinv : PipeInv k S lost) (hp : k.currentProcess ∈ S)
    (hlast : ∀ n < rowSize, (k.closeFirst n).WriteLast ((k.closeFirst n).fdTable k.currentProcess n))
    (hn : n ≤ rowSize) : FdPairs (k.closeFirst n) ∧ PipeInv (k.closeFirst n) S lost := by
  induction n with
  | zero => exact ⟨h, hinv⟩
  | succ n ih =>
    obtain ⟨hpairs, hinv⟩ := ih (by omega)
    have hcur : (k.closeFirst n).currentProcess ∈ S := by rwa [closeFirst_currentProcess]
    have hlast := hlast n (by omega)
    rw [closeFirst_succ]
    exact ⟨hpairs.close hinv.toFdInv hcur hlast, hinv.close hcur (hpairs.below hinv.toFdInv hcur hlast)⟩

/-- Where write ends are closed last, a close hits no descriptor of another pipe. -/
theorem FdPairs.safeClose (h : FdPairs k) (hinv : PipeInv k (tableProcs k.toCore) lost)
    (hok : call.KeepsFds Kernel.WriteLast k) : call.KeepsFds Kernel.SafeClose k := by
  cases call with
  | pipeClose fd =>
    obtain ⟨hcur, hlast⟩ := hok
    refine ⟨hcur, fun href p hp => ?_⟩
    exact h.below hinv.toFdInv (mem_tableProcs.mpr hcur) hlast href p (mem_tableProcs.mpr hp)
  | exitProcess =>
    obtain ⟨hcur, hlast⟩ := hok
    refine ⟨hcur, fun n hn href p hp => ?_⟩
    have hin := mem_tableProcs.mpr hcur
    obtain ⟨hpairs, hinv⟩ := h.closeFirst hinv hin hlast hn.le
    refine hpairs.below hinv.toFdInv ?_ (hlast n hn) href p ?_
    · rwa [closeFirst_currentProcess]
    · exact mem_tableProcs.mpr ((inTable_congr (closeFirst_processesList k n)).mp hp)
  | _ => exact hok

/-- The two entries of the pipe are cleared, and every other entry and pipe is as
before. -/
structure ClearsPair (k k' : Kernel) (pipe : ℕ) : Prop where
  entries : ∃ e, k.Pair pipe e ∧ ∀ fd : ℤ, 0 ≤ fd → fd < maxFds →
    if fd = e ∨ fd = e + 1 then k'.inUse fd = false ∧ k'.fdPipe fd = 0 ∧ k'.fdType fd = .unused
    else k'.inUse fd = k.inUse fd ∧ k'.fdPipe fd = k.fdPipe fd ∧ k'.fdType fd = k.fdType fd
  pipes : ∀ q, k'.HasPipe q ↔ k.HasPipe q ∧ q ≠ pipe
  buffers : ∀ q, q ≠ pipe → k'.buffer q = k.buffer q ∧ k'.readPos q = k.readPos q ∧ k'.writePos q = k.writePos q ∧
    k'.readOpen q = k.readOpen q ∧ k'.writeOpen q = k.writeOpen q

/-- The entry closed last has to be the upper one. -/
theorem FdPairs.clearsPair (h : FdPairs k) (hids : ∀ i < maxPipes, k.pipes i ≠ 0 → k.pipeId (k.pipes i) = i)
    (hfd : k.ValidFd fd) :
    ClearsPair k ((k.dropFd fd i).pipeDestroy fd) (k.fdPipe fd) ↔ k.fdType fd = .write := by
  set k' := (k.dropFd fd i).pipeDestroy fd with hk'
  have hcleared (x : ℤ) (hx : x = fd ∨ x = fd - 1) :
      k'.inUse x = false ∧ k'.fdPipe x = 0 ∧ k'.fdType x = .unused := by
    have hupd {α : Type} (f : ℤ → α) (v : α) : update (update f fd v) (fd - 1) v x = v := by
      by_cases hbelow : x = fd - 1
      · rw [hbelow, Function.update_self]
      · rw [Function.update_of_ne hbelow, hx.resolve_right hbelow, Function.update_self]
    exact ⟨hupd k.inUse false, hupd k.fdPipe 0, hupd k.fdType .unused⟩
  have hother (x : ℤ) (hx : x ≠ fd) (hx' : x ≠ fd - 1) :
      k'.inUse x = k.inUse x ∧ k'.fdPipe x = k.fdPipe x ∧ k'.fdType x = k.fdType x :=
    pipeDestroy_entry hx hx'
  obtain ⟨e, he⟩ := h.pair _ hfd.hasPipe
  constructor
  · intro hclear
    by_contra hty
    obtain rfl := he.eq_read hfd.used hty
    obtain ⟨d, hd, hentries⟩ := hclear.entries
    -- the entry above the read end is of the same pipe and stays in use
    have hstays := (hother (fd + 1) (by omega) (by omega)).1
    have hmine := hd.only (fd + 1) he.write.used he.write.fdPipe
    have hgone := hentries (fd + 1) he.write.low he.write.high
    rw [if_pos hmine, hstays, he.write.inUse] at hgone
    cases hgone.1
  · intro hty
    have heq := he.eq_write hfd.used hty
    refine ⟨⟨e, he, fun x _ _ => ?_⟩, fun q => ?_, fun q hq => ?_⟩
    · split_ifs with hx
      · exact hcleared x (by omega)
      · exact hother x (by omega) (by omega)
    · exact pipeDestroy_hasPipe (k := k.dropFd fd i) _ hids hfd.hasPipe
    · exact ⟨rfl, rfl, rfl, Function.update_of_ne hq .., Function.update_of_ne hq ..⟩

/-- A close that ends a pipe clears its entries exactly when it closes the write end. -/
theorem FdPairs.close_clearsPair (h : FdPairs k) (hinv : FdInv k S lost) (hp : k.currentProcess ∈ S)
    (hpipe : k.HasPipe pipe) (hend : ¬(k.pipeClose fd).2.HasPipe pipe) :
    ClearsPair k (k.pipeClose fd).2 pipe ↔ k.fdType fd = .write := by
  rcases hinv.close_cases fd hp with hsame | ⟨hfd, i, -, -, ⟨hdrop, -⟩ | ⟨-, -, hclose⟩⟩
  · rw [hsame] at hend
    exact absurd hpipe hend
  · rw [hdrop, (dropFd_entries k fd i).hasPipe] at hend
    exact absurd hpipe hend
  · rw [hclose] at hend ⊢
    have hgone := pipeDestroy_hasPipe (k := k.dropFd fd i) pipe hinv.ids hfd.hasPipe
    obtain rfl : pipe = k.fdPipe fd := by
      by_contra hne
      exact hend (hgone.mpr ⟨hpipe, hne⟩)
    exact h.clearsPair hinv.ids hfd

/-! ### Every call -/

theorem SameEntries.trans (h : SameEntries k k₁) (h' : SameEntries k₁ k') : SameEntries k k' := by
  refine ⟨h'.pipes.trans h.pipes, h'.live.trans h.live, fun pipe hp => ?_, h'.inUse.trans h.inUse,
    fun fd hfd => ?_, fun fd hfd => ?_⟩
  · rw [h'.pipeId pipe (h.hasPipe.mpr hp), h.pipeId pipe hp]
  · rw [h'.fdPipe fd (by rwa [h.inUse]), h.fdPipe fd hfd]
  · rw [h'.fdType fd (by rwa [h.inUse]), h.fdType fd hfd]

/-- Inheritance changes slots and counts only. -/
theorem openProcess_entries (k : Kernel) (parent p : ℕ) : SameEntries k (k.openProcess parent p) := by
  refine openProcess_induction parent p ?_ (fun k₁ fd h => h.trans (pipeAccses_entries k₁ _ fd)) fun k₁ waiting h => ?_
  · exact ⟨rfl, rfl, fun _ _ => rfl, rfl, fun _ _ => rfl, fun _ _ => rfl⟩
  · have hsame : SameFds k₁ { k₁ with waitingOnChild := waiting } := .of_eq rfl rfl
    exact h.trans hsame.toSameEntries

theorem createProcess_entries {args : CreateArgs} (hrun : k.createProcess args = some (r, k')) : SameEntries k k' := by
  rcases createProcess_cases hrun with ⟨-, -, answers, live, rfl, hlive⟩ |
    ⟨p, answers, live, c, -, -, -, -, hlive, henter, rfl, -⟩
  · have hsame : SameFds k { k with answers, live } := .of_eq rfl (hlive .pipe (by simp))
    exact hsame.toSameEntries
  · have hpipe : c.live .pipe = k.live .pipe := (enterProcess_pipes henter).trans (hlive .pipe (by simp) (by simp))
    have hcore : SameFds k { k with toCore := c } := .of_eq rfl hpipe
    exact hcore.toSameEntries.trans (openProcess_entries _ _ _)

theorem FdPairs.afterCall (h : FdPairs k) (hinv : PipeInv k (tableProcs k.toCore) lost)
    (hring : ∃ L, RingInv k.toCore L) (hok : call.KeepsFds Kernel.WriteLast k)
    (hrun : k.call call = some (r, k', again)) : FdPairs k' := by
  cases call with
  | createProcess args =>
    obtain ⟨⟨v, k₁⟩, hcall, hret⟩ := Option.map_eq_some_iff.mp hrun
    obtain ⟨-, rfl, -⟩ : v = r ∧ k₁ = k' ∧ false = again := by simpa using hret
    exact h.congr (createProcess_entries hcall)
  | killProcess pid =>
    obtain ⟨⟨v, c, b⟩, hcall, hret⟩ := Option.map_eq_some_iff.mp hrun
    obtain ⟨-, rfl, -⟩ : v = r ∧ _ = k' ∧ b = again := by simpa using hret
    have hsame : SameFds k { k with toCore := c } := .of_eq rfl (killProcess_pipes hcall)
    exact h.congr hsame.toSameEntries
  | exitProcess =>
    obtain ⟨k₁, hcall, hret⟩ := Option.map_eq_some_iff.mp hrun
    obtain ⟨-, rfl, -⟩ : 0 = r ∧ k₁ = k' ∧ true = again := by simpa using hret
    obtain ⟨hpairs, -⟩ := h.closeFirst hinv (mem_tableProcs.mpr hok.1) hok.2 le_rfl
    have hpipes := exitProcess_pipes hring hcall
    have hsame : SameFds (k.closeFirst rowSize) k₁ := .of_eq hpipes.toPipes hpipes.live
    exact hpairs.congr hsame.toSameEntries
  | createPipe =>
    obtain ⟨-, rfl, -⟩ : _ = r ∧ k.createPipe.2 = k' ∧ false = again := by simpa [Kernel.call] using hrun
    rcases createPipe_cases k with ⟨-, hsame⟩ | ⟨i, pipe, n, s, t, -, hm⟩
    · exact h.congr (hsame hinv.live).toSameEntries
    · exact hm.pairs h hinv.live
  | pipeClose fd =>
    obtain ⟨-, rfl, -⟩ : _ = r ∧ (k.pipeClose fd).2 = k' ∧ false = again := by simpa [Kernel.call] using hrun
    exact h.close hinv.toFdInv (mem_tableProcs.mpr hok.1) hok.2
  | _ =>
    have hstill := call_still hrun trivial
    have hsame : SameFds k k' := .of_eq hstill.toPipes hstill.quiet.pipes
    exact h.congr hsame.toSameEntries

/-! ### Every run -/

theorem Machine.step_pairs (h : FdPairs m.toKernel) (hinv : PipeInv m.toKernel (tableProcs m.toCore) lost)
    (hring : ∃ L, RingInv m.toCore L) (hok : a.call.KeepsFds Kernel.WriteLast (m.before a))
    (hrun : m.step a = some m') : FdPairs m'.toKernel := by
  obtain ⟨r, k, again, hcall, hcases⟩ := step_cases hrun
  obtain ⟨L, hL⟩ := hring
  have hbefore : SameFds m.toKernel (m.before a) := .of_eq rfl rfl
  have hafter := (h.congr hbefore.toSameEntries).afterCall (hinv.congr hbefore) ⟨L, hL.congr rfl rfl rfl rfl⟩ hok hcall
  have hsame : SameFds k m'.toKernel := by
    rcases hcases with ⟨-, rfl⟩ | ⟨-, cpu, c, hsched, rfl⟩
    · exact .of_eq rfl rfl
    · exact .of_eq rfl (scheduler_quiet hsched).pipes
  exact hafter.congr hsame.toSameEntries

/-- The descriptors of the table's processes name entries in use as ends of pipes. -/
def Kernel.ValidRows (k : Kernel) : Prop :=
  ∀ p, InTable k.toCore p → ∀ j < rowSize, 0 ≤ k.fdTable p j → k.ValidFd (k.fdTable p j)

/-- A close that ends a pipe clears its two entries and no others exactly when it is that
of one of these descriptors. -/
def Kernel.ClearsPairs (k : Kernel) (closes : ℤ → Prop) : Prop :=
  InTable k.toCore k.currentProcess → ∀ fd, ∀ pipe, k.HasPipe pipe → ¬(k.pipeClose fd).2.HasPipe pipe →
    (ClearsPair k (k.pipeClose fd).2 pipe ↔ closes fd)

/-- The last end of each pipe that is closed is its write end. -/
def Action.WritesLast (m : Machine) (a : Action) : Prop := a.call.KeepsFds Kernel.WriteLast (m.before a)

/-- As long as write ends are closed last, every descriptor held is one of a pipe; a
close that ends a pipe then clears its entries exactly when it closes the write end. -/
theorem fds_valid (h : boot.Reach (fun m a => a.WritesLast m) m) :
    m.ValidRows ∧ m.ClearsPairs fun fd => m.fdType fd = .write := by
  have hinv : (∃ lost, PipeInv m.toKernel (tableProcs m.toCore) lost) ∧ FdPairs m.toKernel ∧ TableInv m.toCore ∧
      ∃ L, RingInv m.toCore L := by
    refine h.invariant (I := fun m : Machine => (∃ lost, PipeInv m.toKernel (tableProcs m.toCore) lost) ∧
      FdPairs m.toKernel ∧ TableInv m.toCore ∧ ∃ L, RingInv m.toCore L) (fun m hm => ?_) ?_
    · refine ⟨⟨_, boot_pipeInv hm⟩, ⟨fun fd hfd => ?_, fun pipe hp => ?_⟩, boot_table hm, [], boot_ring hm⟩
      · have hunused := hm.inUse fd
        rw [hfd.inUse] at hunused
        cases hunused
      · obtain ⟨h0, i, -, hi⟩ := hp
        exact absurd (hi.symm.trans (hm.pipes i)) h0
    · rintro m a m' ⟨⟨lost, hpipes⟩, hpairs, htable, hring⟩ hok hrun
      have hbefore : SameFds m.toKernel (m.before a) := .of_eq rfl rfl
      have hsafe := (hpairs.congr hbefore.toSameEntries).safeClose (hpipes.congr hbefore) hok
      obtain ⟨lost', hafter, -⟩ := step_pipeInv hpipes htable hring hsafe hrun
      exact ⟨⟨lost', hafter⟩, step_pairs hpairs hpipes hring hok hrun, step_tableInv htable hrun, step_ring hring hrun⟩
  obtain ⟨⟨lost, hpipes⟩, hpairs, -, -⟩ := hinv
  refine ⟨fun p hp j hj hfd => ?_, fun hcur fd pipe hp hend => ?_⟩
  · exact (hpipes.rows p (mem_tableProcs.mpr hp) j hj).resolve_left (by omega)
  · exact hpairs.close_clearsPair hpipes.toFdInv (mem_tableProcs.mpr hcur) hp hend

instance (k : Kernel) (fd : ℤ) : Decidable (k.WriteLast fd) := inferInstanceAs (Decidable (_ → _))

instance (m : Machine) (a : Action) : Decidable (a.WritesLast m) :=
  inferInstanceAs (Decidable (a.call.KeepsFds Kernel.WriteLast (m.before a)))

/-- A process creates two pipes, shares them with a child and closes the first. -/
theorem fds_valid_twoPipes : (ran (fun m a => a.WritesLast m) initial
    [create 100, plain .tick, ⟨.createPipe, 0, [500]⟩, ⟨.createPipe, 0, [600]⟩, plain (.pipeClose 2),
      plain (.pipeClose 3), create 200]).ValidRows :=
  (fds_valid (boot_ran (by decide +kernel))).1

/-- The read end of the second of two pipes is closed last. -/
def readLast : List Action :=
  [create 100, plain .tick, ⟨.createPipe, 0, [500]⟩, ⟨.createPipe, 0, [600]⟩, plain (.pipeClose 5),
    plain (.pipeClose 4)]

theorem fds_valid_readLast : ¬∀ m, boot.Reach (fun _ a => a.call.OfPipes) m →
    m.ValidRows ∧ m.ClearsPairs fun _ => True := by
  intro hall
  have hreach : boot.Reach (fun _ a => a.call.OfPipes) (ran (fun _ a => a.call.OfPipes) initial readLast) :=
    boot_ran (by decide +kernel)
  have htable : InTable (ran (fun _ a => a.call.OfPipes) initial readLast).toCore 101 :=
    ⟨by decide, 0, by decide, by decide +kernel⟩
  have hinUse := ((hall _ hreach).1 101 htable 1 (by decide) (by decide +kernel)).inUse
  revert hinUse
  decide +kernel

end BareKernel
