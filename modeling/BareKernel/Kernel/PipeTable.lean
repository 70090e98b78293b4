import BareKernel.Kernel.Descriptors

/-! What the operations on descriptors keep: slots hold descriptors that name an end of
a pipe, and the counts of a pipe are the numbers of slots that hold its ends, but for
references that were lost. -/

namespace BareKernel

open Function (update)
open Process Links

/-- The slots of the processes `S` agree with the entries and with the counts of the
pipes; `lost` references of each end belong to no slot. -/
structure FdInv (k : Kernel) (S : Finset ℕ) (lost : ℕ → FDType → ℕ) : Prop where
  ids : ∀ i < maxPipes, k.pipes i ≠ 0 → k.pipeId (k.pipes i) = i
  live : ∀ pipe, k.HasPipe pipe → pipe ∈ k.live .pipe
  rows : ∀ p ∈ S, ∀ j < rowSize, k.fdTable p j = -1 ∨ k.ValidFd (k.fdTable p j)
  counts : ∀ pipe ty, k.HasPipe pipe → ty ≠ .unused →
    k.openCount pipe ty = k.holders S pipe ty + lost pipe ty

/-- Every pipe has a reader or a writer. -/
def Kernel.Held (k : Kernel) : Prop := ∀ pipe, k.HasPipe pipe → ¬(k.readOpen pipe = 0 ∧ k.writeOpen pipe = 0)

variable {k k' : Kernel} {S : Finset ℕ} {lost : ℕ → FDType → ℕ} {pipe p i j : ℕ} {ty : FDType} {fd pid w : ℤ}

theorem FdInv.congr (h : FdInv k S lost) (hs : SameFds k k') : FdInv k' S lost := by
  refine ⟨fun i hi h0 => ?_, fun pipe hp => ?_, fun p hp j hj => ?_, fun pipe ty hp hty => ?_⟩
  · rw [hs.pipes] at h0 ⊢
    rw [hs.pipeId _ ⟨h0, i, hi, rfl⟩]
    exact h.ids i hi h0
  · rw [hs.live]
    exact h.live pipe (hs.hasPipe.mp hp)
  · rw [hs.fdTable, hs.validFd]
    exact h.rows p hp j hj
  · rw [hs.holders, hs.openCount _ _ (hs.hasPipe.mp hp)]
    exact h.counts pipe ty (hs.hasPipe.mp hp) hty

theorem Kernel.Held.congr (h : k.Held) (hs : SameFds k k') : k'.Held := by
  intro pipe hp
  have hp' := hs.hasPipe.mp hp
  have hr : k'.readOpen pipe = k.readOpen pipe := hs.openCount pipe .read hp'
  have hw : k'.writeOpen pipe = k.writeOpen pipe := hs.openCount pipe .write hp'
  rw [hr, hw]
  exact h pipe hp'

/-! ### One slot -/

/-- A slot gets another descriptor, or none, and the counts follow. -/
theorem FdInv.set (h : FdInv k S lost) (hs : SameEntries k k') (hp : p ∈ S) (hj : j < rowSize)
    (hw : w = -1 ∨ k.ValidFd w) (hrow : k'.fdTable = update k.fdTable p (update (k.fdTable p) j w))
    (hcount : ∀ pipe ty, ty ≠ .unused → k'.openCount pipe ty + (if k.Names pipe ty (k.fdTable p j) then 1 else 0) =
      k.openCount pipe ty + if k.Names pipe ty w then 1 else 0) : FdInv k' S lost := by
  refine ⟨fun i hi h0 => ?_, fun pipe hp => ?_, fun q hq l hl => ?_, fun pipe ty hpipe hty => ?_⟩
  · rw [hs.pipes] at h0 ⊢
    rw [hs.pipeId _ ⟨h0, i, hi, rfl⟩]
    exact h.ids i hi h0
  · rw [hs.live]
    exact h.live pipe (hs.hasPipe.mp hp)
  · rw [hrow, hs.validFd]
    by_cases hqp : q = p
    · subst hqp
      rw [Function.update_self]
      by_cases hlj : l = j
      · rw [hlj, Function.update_self]
        exact hw
      · rw [Function.update_of_ne hlj]
        exact h.rows q hq l hl
    · rw [Function.update_of_ne hqp]
      exact h.rows q hq l hl
  · have hset := entryCount_set (f := k.fdTable) (v := w) (P := k.Names pipe ty) hp hj
    have hsame : k'.holders S pipe ty = entryCount k'.fdTable S rowSize (k.Names pipe ty) :=
      entryCount_congr fun _ _ _ _ => hs.names
    have hbefore := h.counts pipe ty (hs.hasPipe.mp hpipe) hty
    have hafter := hcount pipe ty hty
    unfold Kernel.holders at hbefore
    rw [hsame, hrow]
    split_ifs at hset hafter <;> omega

/-- The counts of one pipe change by `d` at one end. -/
theorem openCount_add {d : ℤ} (hty : ty ≠ .unused)
    (hr : k'.readOpen = update k.readOpen (k.fdPipe fd)
      (if k.fdType fd = .read then k.readOpen (k.fdPipe fd) + d else k.readOpen (k.fdPipe fd)))
    (hw : k'.writeOpen = update k.writeOpen (k.fdPipe fd)
      (if k.fdType fd = .write then k.writeOpen (k.fdPipe fd) + d else k.writeOpen (k.fdPipe fd))) :
    k'.openCount pipe ty = k.openCount pipe ty + if k.fdPipe fd = pipe ∧ k.fdType fd = ty then d else 0 := by
  by_cases hpipe : k.fdPipe fd = pipe
  · subst hpipe
    cases ty with
    | unused => exact absurd rfl hty
    | read =>
      show k'.readOpen _ = k.readOpen _ + _
      rw [hr, Function.update_self]
      split_ifs <;> simp_all
    | write =>
      show k'.writeOpen _ = k.writeOpen _ + _
      rw [hw, Function.update_self]
      split_ifs <;> simp_all
  · rw [if_neg fun hboth => hpipe hboth.1, add_zero]
    have hne : pipe ≠ k.fdPipe fd := Ne.symm hpipe
    cases ty with
    | unused => rfl
    | read =>
      show k'.readOpen pipe = k.readOpen pipe
      rw [hr, Function.update_of_ne hne]
    | write =>
      show k'.writeOpen pipe = k.writeOpen pipe
      rw [hw, Function.update_of_ne hne]

theorem Kernel.Names.validFd (h : k.Names pipe ty fd) (hp : k.HasPipe pipe) (hty : ty ≠ .unused) : k.ValidFd fd :=
  ⟨h.low, h.high, h.inUse, h.fdPipe ▸ hp, h.fdType ▸ hty⟩

theorem Kernel.ValidFd.names_iff (h : k.ValidFd fd) : k.Names pipe ty fd ↔ k.fdPipe fd = pipe ∧ k.fdType fd = ty :=
  ⟨fun hn => ⟨hn.fdPipe, hn.fdType⟩, fun ⟨hp, ht⟩ => ⟨h.low, h.high, h.inUse, hp, ht⟩⟩

theorem pipeAccses_toCore (k : Kernel) (pid fd : ℤ) : (k.pipeAccses pid fd).2.toCore = k.toCore := by
  rcases pipeAccses_cases k pid fd with h | ⟨-, i, rest, -, h⟩ <;> rw [h]

/-- An access that does not find a descriptor to count leaves everything. -/
theorem pipeAccses_none (k : Kernel) (pid : ℤ) : (k.pipeAccses pid (-1)).2 = k := by
  unfold Kernel.pipeAccses
  rw [if_pos (Or.inr (by omega))]

theorem pipeAccses_entries (k : Kernel) (pid fd : ℤ) : SameEntries k (k.pipeAccses pid fd).2 := by
  rcases pipeAccses_cases k pid fd with h | ⟨-, i, rest, -, h⟩
  · rw [h]
    exact (SameFds.of_eq rfl rfl).toSameEntries
  · rw [h]
    exact ⟨rfl, rfl, fun _ _ => rfl, rfl, fun _ _ => rfl, fun _ _ => rfl⟩

/-- An access makes no count smaller. -/
theorem openCount_le_accses (k : Kernel) (pid fd : ℤ) (pipe : ℕ) (ty : FDType) :
    k.openCount pipe ty ≤ (k.pipeAccses pid fd).2.openCount pipe ty := by
  by_cases hty : ty = .unused
  · subst hty
    exact le_refl _
  · rcases pipeAccses_cases k pid fd with h | ⟨-, i, rest, -, h⟩
    · rw [h]
    · rw [h]
      refine le_of_le_of_eq ?_ (openCount_add (d := 1) hty rfl rfl).symm
      split_ifs <;> omega

/-- A new process takes over descriptors one after the other. -/
theorem openProcess_induction {R : Kernel → Prop} (parent p : ℕ)
    (hclear : R { k with fdTable := update k.fdTable p fun _ => -1 })
    (haccses : ∀ k fd, R k → R (k.pipeAccses (k.pid p) fd).2)
    (hcount : ∀ k waiting, R k → R { k with waitingOnChild := waiting }) : R (k.openProcess parent p) := by
  have hpass (l : List ℕ) (k₁ : Kernel) (h₁ : R k₁) :
      R (l.foldl (fun k i => (k.pipeAccses (k.pid p) (k.fdTable parent i)).2) k₁) := by
    induction l generalizing k₁ with
    | nil => exact h₁
    | cons i l ih => exact ih _ (haccses k₁ _ h₁)
  rcases openProcess_cases k parent p with ⟨-, hopen⟩ | ⟨-, k₂, hall, hopen⟩
  · rw [hopen]
    exact hclear
  · rw [hopen]
    exact hcount k₂ _ (hall ▸ hpass (List.range (maxBuff * 2)) _ hclear)

theorem FdInv.accses (h : FdInv k S lost) (hfd : fd = -1 ∨ k.ValidFd fd) (hp : getProcessByPid k.toCore pid ∈ S) :
    FdInv (k.pipeAccses pid fd).2 S lost := by
  rcases hfd with rfl | hfd
  · rw [pipeAccses_none]
    exact h
  · have hentries := pipeAccses_entries k pid fd
    rcases pipeAccses_cases k pid fd with hsame | ⟨-, i, rest, hs, hset⟩
    · rwa [hsame]
    · rw [hset] at hentries ⊢
      obtain ⟨hi, hnone⟩ := freeSlots_cons hs
      refine h.set hentries hp hi (Or.inr hfd) rfl fun pipe ty hty => ?_
      rw [hnone, if_neg not_names_neg, add_zero, openCount_add (d := 1) hty rfl rfl]
      simp only [hfd.names_iff]

/-- Every slot but the one that is dropped is the same. -/
theorem FdInv.drop (h : FdInv k S lost) (hp : k.currentProcess ∈ S) (hi : i < rowSize)
    (hslot : k.fdTable k.currentProcess i = fd) (hfd : k.ValidFd fd) : FdInv (k.dropFd fd i) S lost := by
  refine h.set ⟨rfl, rfl, fun _ _ => rfl, rfl, fun _ _ => rfl, fun _ _ => rfl⟩ hp hi (Or.inl rfl) rfl
    fun pipe ty hty => ?_
  rw [hslot, if_neg not_names_neg, add_zero, openCount_add (d := -1) hty rfl rfl]
  simp only [hfd.names_iff]
  split_ifs <;> omega

/-! ### The end of a pipe -/

/-- The slot of the pipe is cleared. -/
theorem pipeDestroy_hasPipe (pipe : ℕ) (hids : ∀ i < maxPipes, k.pipes i ≠ 0 → k.pipeId (k.pipes i) = i)
    (hp : k.HasPipe (k.fdPipe fd)) : (k.pipeDestroy fd).HasPipe pipe ↔ k.HasPipe pipe ∧ pipe ≠ k.fdPipe fd := by
  obtain ⟨h0, i, hi, hslot⟩ := hp
  have hid : k.pipeId (k.fdPipe fd) = i := by
    rw [← hslot]
    exact hids i hi (by rwa [hslot])
  show pipe ≠ 0 ∧ (∃ l < maxPipes, update k.pipes (k.pipeId (k.fdPipe fd)) 0 l = pipe) ↔ _
  rw [hid]
  constructor
  · rintro ⟨hq, l, hl, rfl⟩
    have hli : l ≠ i := by
      rintro rfl
      exact hq (Function.update_self ..)
    rw [Function.update_of_ne hli] at hq ⊢
    refine ⟨⟨hq, l, hl, rfl⟩, fun he => hli ?_⟩
    rw [← hids l hl hq, he, hid]
  · rintro ⟨⟨hq, l, hl, rfl⟩, hne⟩
    refine ⟨hq, l, hl, Function.update_of_ne ?_ ..⟩
    rintro rfl
    exact hne hslot

/-- The other entries stay as they are. -/
theorem pipeDestroy_entry {x : ℤ} (hx : x ≠ fd) (hx' : x ≠ fd - 1) : (k.pipeDestroy fd).inUse x = k.inUse x ∧
    (k.pipeDestroy fd).fdPipe x = k.fdPipe x ∧ (k.pipeDestroy fd).fdType x = k.fdType x := by
  refine ⟨?_, ?_, ?_⟩
  · exact (Function.update_of_ne hx' ..).trans (Function.update_of_ne hx ..)
  · exact (Function.update_of_ne hx' ..).trans (Function.update_of_ne hx ..)
  · exact (Function.update_of_ne hx' ..).trans (Function.update_of_ne hx ..)

theorem pipeDestroy_names {x : ℤ} (hx : x ≠ fd) (hx' : x ≠ fd - 1) :
    (k.pipeDestroy fd).Names pipe ty x ↔ k.Names pipe ty x := by
  obtain ⟨h1, h2, h3⟩ := pipeDestroy_entry (k := k) hx hx'
  constructor
  · rintro ⟨hlow, hhigh, hin, hp, ht⟩
    exact ⟨hlow, hhigh, h1 ▸ hin, h2 ▸ hp, h3 ▸ ht⟩
  · rintro ⟨hlow, hhigh, hin, hp, ht⟩
    exact ⟨hlow, hhigh, by rwa [h1], by rwa [h2], by rwa [h3]⟩

/-- No slot holds an end of a pipe without readers and writers. -/
theorem FdInv.no_holder (h : FdInv k S lost) (hpipe : k.HasPipe pipe) (hr : k.readOpen pipe = 0)
    (hw : k.writeOpen pipe = 0) (hp : p ∈ S) (hj : j < rowSize) (hv : k.ValidFd (k.fdTable p j)) :
    k.fdPipe (k.fdTable p j) ≠ pipe := by
  intro he
  have hcount := h.counts pipe _ hpipe hv.isEnd
  have hpos : 0 < k.holders S pipe (k.fdType (k.fdTable p j)) :=
    entryCount_pos.mpr ⟨p, hp, j, hj, he ▸ hv.names⟩
  have hzero : k.openCount pipe (k.fdType (k.fdTable p j)) = 0 := by
    cases ht : k.fdType (k.fdTable p j) with
    | unused => rfl
    | read => exact hr
    | write => exact hw
  omega

/-- The entries `fd` and `fd - 1` are given up, and no slot holds either. -/
theorem FdInv.destroy (h : FdInv k S lost) (hfd : k.ValidFd fd) (hr : k.readOpen (k.fdPipe fd) = 0)
    (hw : k.writeOpen (k.fdPipe fd) = 0)
    (hbelow : ∀ p ∈ S, ∀ j < rowSize, k.ValidFd (k.fdTable p j) → k.fdTable p j ≠ fd - 1) :
    FdInv (k.pipeDestroy fd) S lost := by
  have hpipe (q : ℕ) := pipeDestroy_hasPipe q h.ids hfd.hasPipe
  obtain ⟨h0, i, hi, hslot⟩ := hfd.hasPipe
  have hid : k.pipeId (k.fdPipe fd) = i := by
    rw [← hslot]
    exact h.ids i hi (by rwa [hslot])
  have hends (p : ℕ) (hp : p ∈ S) (j : ℕ) (hj : j < rowSize) (hv : k.ValidFd (k.fdTable p j)) :
      k.fdPipe (k.fdTable p j) ≠ k.fdPipe fd := h.no_holder hfd.hasPipe hr hw hp hj hv
  have hother (p : ℕ) (hp : p ∈ S) (j : ℕ) (hj : j < rowSize) (hv : k.ValidFd (k.fdTable p j)) :
      k.fdTable p j ≠ fd ∧ k.fdTable p j ≠ fd - 1 :=
    ⟨fun he => hends p hp j hj hv (by rw [he]), hbelow p hp j hj hv⟩
  refine ⟨fun l hl hne => ?_, fun q hq => ?_, fun p hp j hj => ?_, fun q ty hq hty => ?_⟩
  · have hl' : update k.pipes (k.pipeId (k.fdPipe fd)) 0 l ≠ 0 := hne
    show k.pipeId (update k.pipes (k.pipeId (k.fdPipe fd)) 0 l) = l
    have hli : l ≠ k.pipeId (k.fdPipe fd) := by
      rintro rfl
      exact hl' (Function.update_self ..)
    rw [Function.update_of_ne hli] at hl' ⊢
    exact h.ids l hl hl'
  · obtain ⟨hq, hne⟩ := (hpipe q).mp hq
    show q ∈ update k.live .pipe ((k.live .pipe).erase (k.pipes (k.pipeId (k.fdPipe fd)))) .pipe
    rw [Function.update_self, hid, hslot]
    exact (List.mem_erase_of_ne hne).mpr (h.live q hq)
  · refine (h.rows p hp j hj).imp_right fun hv => ?_
    obtain ⟨hx, hx'⟩ := hother p hp j hj hv
    obtain ⟨h1, h2, h3⟩ := pipeDestroy_entry (k := k) hx hx'
    refine ⟨hv.low, hv.high, h1.trans hv.inUse, ?_, fun ht => hv.isEnd (h3.symm.trans ht)⟩
    show (k.pipeDestroy fd).HasPipe ((k.pipeDestroy fd).fdPipe (k.fdTable p j))
    rw [h2, hpipe]
    exact ⟨hv.hasPipe, hends p hp j hj hv⟩
  · have hsame : (k.pipeDestroy fd).holders S q ty = k.holders S q ty := by
      refine entryCount_congr fun p hp j hj => ?_
      rcases h.rows p hp j hj with hnone | hv
      · show (k.pipeDestroy fd).Names q ty (k.fdTable p j) ↔ _
        rw [hnone]
        exact iff_of_false not_names_neg not_names_neg
      · exact pipeDestroy_names (hother p hp j hj hv).1 (hother p hp j hj hv).2
    rw [hsame]
    have hcount := h.counts q ty ((hpipe q).mp hq).1 hty
    cases ty with
    | unused => exact absurd rfl hty
    | read => exact hcount
    | write => exact hcount

/-- Closing the descriptor takes the last reference to its pipe away. -/
def Kernel.LastRef (k : Kernel) (fd : ℤ) : Prop :=
  0 ≤ fd ∧ (∃ j < rowSize, k.fdTable k.currentProcess j = fd) ∧
    k.readOpen (k.fdPipe fd) + k.writeOpen (k.fdPipe fd) = 1

/-- Closing finds no slot, or it clears the first one with the descriptor. -/
theorem pipeClose_cases (k : Kernel) (fd : ℤ) :
    (k.pipeClose fd).2 = k ∧ (fd < 0 ∨ maxFds < fd ∨ ∀ j < rowSize, k.fdTable k.currentProcess j ≠ fd) ∨
      ∃ i < rowSize, 0 ≤ fd ∧ k.fdTable k.currentProcess i = fd ∧ (∀ j < i, k.fdTable k.currentProcess j ≠ fd) ∧
        (k.pipeClose fd).2 = if (k.dropFd fd i).readOpen (k.fdPipe fd) = 0 ∧ (k.dropFd fd i).writeOpen (k.fdPipe fd) = 0
          then (k.dropFd fd i).pipeDestroy fd else k.dropFd fd i := by
  unfold Kernel.pipeClose
  by_cases hrange : (maxFds : ℤ) < fd ∨ fd < 0
  · rw [if_pos hrange]
    exact Or.inl ⟨rfl, by omega⟩
  · rw [if_neg hrange]
    dsimp only
    cases hf : (List.range (maxBuff * 2)).find? fun i => k.fdTable k.currentProcess i = fd with
    | none =>
      refine Or.inl ⟨rfl, Or.inr (Or.inr fun j hj => ?_)⟩
      have hnot := List.find?_eq_none.mp hf j (List.mem_range.mpr hj)
      simpa using hnot
    | some i =>
      obtain ⟨hi, hmem, hbefore⟩ := List.find?_range_eq_some.mp hf
      refine Or.inr ⟨i, List.mem_range.mp hmem, by omega, by simpa using hi, fun j hj => ?_, rfl⟩
      simpa using hbefore j hj

/-- A pipe loses one reference. -/
theorem dropFd_sum (hend : k.fdType fd ≠ .unused) :
    (k.dropFd fd i).readOpen (k.fdPipe fd) + (k.dropFd fd i).writeOpen (k.fdPipe fd) =
      k.readOpen (k.fdPipe fd) + k.writeOpen (k.fdPipe fd) - 1 := by
  unfold Kernel.dropFd
  simp only [Function.update_self]
  cases ht : k.fdType fd with
  | unused => exact absurd ht hend
  | read =>
    rw [if_pos rfl, if_neg (by simp)]
    omega
  | write =>
    rw [if_neg (by simp), if_pos rfl]
    omega

theorem dropFd_row (k : Kernel) (fd : ℤ) (i p j : ℕ) :
    (k.dropFd fd i).fdTable p j = -1 ∨ (k.dropFd fd i).fdTable p j = k.fdTable p j := by
  show update k.fdTable k.currentProcess (update (k.fdTable k.currentProcess) i (-1)) p j = -1 ∨
    update k.fdTable k.currentProcess (update (k.fdTable k.currentProcess) i (-1)) p j = k.fdTable p j
  by_cases hpc : p = k.currentProcess
  · subst hpc
    rw [Function.update_self]
    by_cases hji : j = i
    · exact Or.inl (by rw [hji, Function.update_self])
    · exact Or.inr (by rw [Function.update_of_ne hji])
  · exact Or.inr (by rw [Function.update_of_ne hpc])

/-- The counts of the other pipes are the same. -/
theorem dropFd_held (h : k.Held) (hp : k.HasPipe pipe) (hne : pipe ≠ k.fdPipe fd) :
    ¬((k.dropFd fd i).readOpen pipe = 0 ∧ (k.dropFd fd i).writeOpen pipe = 0) := by
  have hr : (k.dropFd fd i).readOpen pipe = k.readOpen pipe := Function.update_of_ne hne ..
  have hw : (k.dropFd fd i).writeOpen pipe = k.writeOpen pipe := Function.update_of_ne hne ..
  rw [hr, hw]
  exact h pipe hp

/-- Every entry is the same after a slot has been cleared. -/
theorem dropFd_entries (k : Kernel) (fd : ℤ) (i : ℕ) : SameEntries k (k.dropFd fd i) :=
  ⟨rfl, rfl, fun _ _ => rfl, rfl, fun _ _ => rfl, fun _ _ => rfl⟩

/-- A close that ends a pipe has had the last reference to it. -/
theorem FdInv.close_cases (h : FdInv k S lost) (fd : ℤ) (hp : k.currentProcess ∈ S) : (k.pipeClose fd).2 = k ∨
    k.ValidFd fd ∧ ∃ i < rowSize, k.fdTable k.currentProcess i = fd ∧
      ((k.pipeClose fd).2 = k.dropFd fd i ∧
          ¬((k.dropFd fd i).readOpen (k.fdPipe fd) = 0 ∧ (k.dropFd fd i).writeOpen (k.fdPipe fd) = 0) ∨
        k.LastRef fd ∧ ((k.dropFd fd i).readOpen (k.fdPipe fd) = 0 ∧ (k.dropFd fd i).writeOpen (k.fdPipe fd) = 0) ∧
          (k.pipeClose fd).2 = (k.dropFd fd i).pipeDestroy fd) := by
  rcases pipeClose_cases k fd with ⟨hsame, -⟩ | ⟨i, hi, hfd0, hslot, -, hclose⟩
  · exact Or.inl hsame
  · have hfd : k.ValidFd fd := by
      rcases h.rows _ hp i hi with hnone | hv
      · omega
      · rwa [hslot] at hv
    refine Or.inr ⟨hfd, i, hi, hslot, ?_⟩
    rw [hclose]
    split
    · rename_i hzero
      have hsum := dropFd_sum (k := k) (i := i) hfd.isEnd
      exact Or.inr ⟨⟨hfd0, ⟨i, hi, hslot⟩, by omega⟩, hzero, rfl⟩
    · rename_i hnot
      exact Or.inl ⟨rfl, hnot⟩

theorem FdInv.close (h : FdInv k S lost) (hheld : k.Held) (hp : k.currentProcess ∈ S)
    (hsafe : k.LastRef fd → ∀ p ∈ S, ∀ j < rowSize, k.fdTable p j ≠ fd - 1) :
    FdInv (k.pipeClose fd).2 S lost ∧ (k.pipeClose fd).2.Held := by
  rcases h.close_cases fd hp with hsame | ⟨hfd, i, hi, hslot, hcases⟩
  · rw [hsame]
    exact ⟨h, hheld⟩
  · have hdrop := h.drop hp hi hslot hfd
    have hvalid : (k.dropFd fd i).ValidFd fd := (dropFd_entries k fd i).validFd.mpr hfd
    rcases hcases with ⟨hclose, hnot⟩ | ⟨hlast, hzero, hclose⟩
    · rw [hclose]
      refine ⟨hdrop, fun q hq => ?_⟩
      by_cases hne : q = k.fdPipe fd
      · subst hne
        exact hnot
      · exact dropFd_held hheld hq hne
    · rw [hclose]
      have hbelow : ∀ p ∈ S, ∀ j < rowSize, (k.dropFd fd i).ValidFd ((k.dropFd fd i).fdTable p j) →
          (k.dropFd fd i).fdTable p j ≠ fd - 1 := by
        intro p hp j hj hv
        have hlow := hv.low
        rcases dropFd_row k fd i p j with hnone | hrow
        · omega
        · rw [hrow]
          exact hsafe hlast p hp j hj
      refine ⟨hdrop.destroy hvalid hzero.1 hzero.2 hbelow, fun q hq => ?_⟩
      obtain ⟨hq, hne⟩ := (pipeDestroy_hasPipe _ hdrop.ids hvalid.hasPipe).mp hq
      exact dropFd_held hheld hq hne

/-! ### A new pipe -/

section New

variable {n s t : ℕ}

theorem PipeMade.hasPipe (hm : PipeMade k k' i pipe n s t) {q : ℕ} : k'.HasPipe q ↔ k.HasPipe q ∨ q = pipe := by
  have hpipes : k'.pipes = update k.pipes i pipe := by rw [hm.toPipes]
  unfold Kernel.HasPipe
  rw [hpipes]
  constructor
  · rintro ⟨hq, l, hl, rfl⟩
    by_cases hli : l = i
    · exact Or.inr (by rw [hli, Function.update_self])
    · rw [Function.update_of_ne hli] at hq ⊢
      exact Or.inl ⟨hq, l, hl, rfl⟩
  · rintro (⟨hq, l, hl, rfl⟩ | rfl)
    · refine ⟨hq, l, hl, Function.update_of_ne ?_ ..⟩
      rintro rfl
      exact hq hm.slot.2
    · exact ⟨hm.block.1, i, hm.slot.1, Function.update_self ..⟩

/-- The entries other than the two new ones. -/
theorem PipeMade.entry (hm : PipeMade k k' i pipe n s t) {x : ℤ} (hx : x ≠ n) (hx' : x ≠ (n + 1 : ℕ)) :
    k'.inUse x = k.inUse x ∧ k'.fdPipe x = k.fdPipe x ∧ k'.fdType x = k.fdType x := by
  rw [hm.toPipes]
  refine ⟨?_, ?_, ?_⟩
  · exact (Function.update_of_ne hx' ..).trans (Function.update_of_ne hx ..)
  · exact (Function.update_of_ne hx' ..).trans (Function.update_of_ne hx ..)
  · exact (Function.update_of_ne hx' ..).trans (Function.update_of_ne hx ..)

theorem PipeMade.names_read (hm : PipeMade k k' i pipe n s t) : k'.Names pipe .read n := by
  have hne : (n : ℤ) ≠ (n + 1 : ℕ) := by omega
  have hn := hm.entries
  refine ⟨by omega, by omega, ?_, ?_, ?_⟩
  all_goals
    rw [hm.toPipes]
    exact (Function.update_of_ne hne ..).trans (Function.update_self ..)

theorem PipeMade.names_write (hm : PipeMade k k' i pipe n s t) : k'.Names pipe .write (n + 1 : ℕ) := by
  have hn := hm.entries
  refine ⟨by omega, by omega, ?_, ?_, ?_⟩
  all_goals
    rw [hm.toPipes]
    exact Function.update_self ..

/-- An entry that was in use is not one of the new ones. -/
theorem PipeMade.ne_of_inUse (hm : PipeMade k k' i pipe n s t) {x : ℤ} (hx : k.inUse x = true) :
    x ≠ n ∧ x ≠ (n + 1 : ℕ) := by
  obtain ⟨-, -, hn, hn'⟩ := hm.entries
  constructor
  · rintro rfl
    rw [hn] at hx
    cases hx
  · rintro rfl
    rw [hn'] at hx
    cases hx

theorem PipeMade.validFd (hm : PipeMade k k' i pipe n s t) {x : ℤ} (hv : k.ValidFd x) : k'.ValidFd x := by
  obtain ⟨hx, hx'⟩ := hm.ne_of_inUse hv.inUse
  obtain ⟨h1, h2, h3⟩ := hm.entry hx hx'
  refine ⟨hv.low, hv.high, h1.trans hv.inUse, ?_, fun ht => hv.isEnd (h3.symm.trans ht)⟩
  rw [h2, hm.hasPipe]
  exact Or.inl hv.hasPipe

theorem PipeMade.fdTable (hm : PipeMade k k' i pipe n s t) : k'.fdTable =
    update k.fdTable k.currentProcess (update (update (k.fdTable k.currentProcess) s n) t (n + 1 : ℕ)) := by
  rw [hm.toPipes]

/-- The two new entries are held once each. -/
theorem PipeMade.holders (hm : PipeMade k k' i pipe n s t) (hp : k.currentProcess ∈ S) (q : ℕ) (ty : FDType) :
    k'.holders S q ty = entryCount k.fdTable S rowSize (k'.Names q ty) +
      (if k'.Names q ty n then 1 else 0) + if k'.Names q ty (n + 1 : ℕ) then 1 else 0 := by
  obtain ⟨hs, hnone⟩ := hm.first
  obtain ⟨hst, ht, hnone'⟩ := hm.second
  have hfirst := entryCount_set (f := k.fdTable) (v := (n : ℤ)) (P := k'.Names q ty) hp hs
  have hsecond := entryCount_set (v := ((n + 1 : ℕ) : ℤ)) (P := k'.Names q ty)
    (f := update k.fdTable k.currentProcess (update (k.fdTable k.currentProcess) s n)) hp ht
  rw [hnone, if_neg not_names_neg] at hfirst
  rw [Function.update_self, Function.update_idem, Function.update_of_ne (Ne.symm hst), hnone',
    if_neg not_names_neg] at hsecond
  unfold Kernel.holders
  rw [hm.fdTable]
  omega

/-- Nothing else holds an end of the new pipe. -/
theorem PipeMade.holders_new (hm : PipeMade k k' i pipe n s t) (h : FdInv k S lost) (hp : k.currentProcess ∈ S)
    (hty : ty ≠ .unused) : k'.holders S pipe ty = 1 := by
  have hzero : entryCount k.fdTable S rowSize (k'.Names pipe ty) = 0 := by
    rw [entryCount_eq_zero]
    intro p hp j hj hn
    rcases h.rows p hp j hj with hnone | hv
    · rw [hnone] at hn
      exact not_names_neg hn
    · obtain ⟨hx, hx'⟩ := hm.ne_of_inUse hv.inUse
      have hsame := (hm.entry hx hx').2.1.symm.trans hn.fdPipe
      exact hm.block.2 (hsame ▸ h.live _ hv.hasPipe)
  rw [hm.holders hp, hzero]
  cases ty with
  | unused => exact absurd rfl hty
  | read =>
    have hnot : ¬k'.Names pipe .read (n + 1 : ℕ) := fun hn => by
      have := hn.fdType.symm.trans hm.names_write.fdType
      cases this
    rw [if_pos hm.names_read, if_neg hnot]
  | write =>
    have hnot : ¬k'.Names pipe .write n := fun hn => by
      have := hn.fdType.symm.trans hm.names_read.fdType
      cases this
    rw [if_neg hnot, if_pos hm.names_write]

theorem PipeMade.holders_old (hm : PipeMade k k' i pipe n s t) (h : FdInv k S lost) (hp : k.currentProcess ∈ S)
    {q : ℕ} (hq : q ≠ pipe) : k'.holders S q ty = k.holders S q ty := by
  have hnot : ¬k'.Names q ty n := fun hn => hq (hn.fdPipe.symm.trans hm.names_read.fdPipe)
  have hnot' : ¬k'.Names q ty (n + 1 : ℕ) := fun hn => hq (hn.fdPipe.symm.trans hm.names_write.fdPipe)
  rw [hm.holders hp, if_neg hnot, if_neg hnot']
  refine entryCount_congr fun p hp j hj => ?_
  rcases h.rows p hp j hj with hnone | hv
  · rw [hnone]
    exact iff_of_false not_names_neg not_names_neg
  · obtain ⟨hx, hx'⟩ := hm.ne_of_inUse hv.inUse
    obtain ⟨h1, h2, h3⟩ := hm.entry hx hx'
    rw [hv.names_iff, (hm.validFd hv).names_iff, h2, h3]

theorem PipeMade.openCount_old (hm : PipeMade k k' i pipe n s t) {q : ℕ} (hq : q ≠ pipe) :
    k'.openCount q ty = k.openCount q ty := by
  have hr : k'.readOpen = update k.readOpen pipe 1 := by rw [hm.toPipes]
  have hw : k'.writeOpen = update k.writeOpen pipe 1 := by rw [hm.toPipes]
  cases ty with
  | unused => rfl
  | read => exact (congrFun hr q).trans (Function.update_of_ne hq ..)
  | write => exact (congrFun hw q).trans (Function.update_of_ne hq ..)

theorem PipeMade.openCount_new (hm : PipeMade k k' i pipe n s t) (hty : ty ≠ .unused) :
    k'.openCount pipe ty = 1 := by
  have hr : k'.readOpen = update k.readOpen pipe 1 := by rw [hm.toPipes]
  have hw : k'.writeOpen = update k.writeOpen pipe 1 := by rw [hm.toPipes]
  cases ty with
  | unused => exact absurd rfl hty
  | read => exact (congrFun hr pipe).trans (Function.update_self ..)
  | write => exact (congrFun hw pipe).trans (Function.update_self ..)

theorem PipeMade.fdInv (hm : PipeMade k k' i pipe n s t) (h : FdInv k S lost) (hp : k.currentProcess ∈ S) :
    FdInv k' S (update lost pipe fun _ => 0) := by
  have hne (q : ℕ) (hq : k.HasPipe q) : q ≠ pipe := by
    rintro rfl
    exact hm.block.2 (h.live _ hq)
  have hnew : k'.HasPipe pipe := hm.hasPipe.mpr (Or.inr rfl)
  refine ⟨fun l hl h0 => ?_, fun q hq => ?_, fun p hp j hj => ?_, fun q ty hq hty => ?_⟩
  · have hpipes : k'.pipes = update k.pipes i pipe := by rw [hm.toPipes]
    have hids : k'.pipeId = update k.pipeId pipe i := by rw [hm.toPipes]
    rw [hpipes] at h0 ⊢
    rw [hids]
    by_cases hli : l = i
    · rw [hli, Function.update_self, Function.update_self]
    · rw [Function.update_of_ne hli] at h0 ⊢
      rw [Function.update_of_ne (hne _ ⟨h0, l, hl, rfl⟩)]
      exact h.ids l hl h0
  · rw [hm.live]
    rcases hm.hasPipe.mp hq with hq | rfl
    · exact List.mem_cons_of_mem _ (h.live q hq)
    · exact List.mem_cons_self
  · rw [hm.fdTable]
    by_cases hpc : p = k.currentProcess
    · subst hpc
      rw [Function.update_self]
      by_cases hjt : j = t
      · rw [hjt, Function.update_self]
        exact Or.inr (hm.names_write.validFd hnew (by simp))
      · rw [Function.update_of_ne hjt]
        by_cases hjs : j = s
        · rw [hjs, Function.update_self]
          exact Or.inr (hm.names_read.validFd hnew (by simp))
        · rw [Function.update_of_ne hjs]
          exact (h.rows _ hp j hj).imp_right hm.validFd
    · rw [Function.update_of_ne hpc]
      exact (h.rows p hp j hj).imp_right hm.validFd
  · rcases hm.hasPipe.mp hq with hq | rfl
    · rw [hm.holders_old h hp (hne q hq), Function.update_of_ne (hne q hq), ← h.counts q ty hq hty]
      exact hm.openCount_old (hne q hq)
    · rw [hm.holders_new h hp hty, Function.update_self]
      exact hm.openCount_new hty

theorem PipeMade.held (hm : PipeMade k k' i pipe n s t) (h : k.Held) : k'.Held := by
  intro q hq
  show ¬(k'.openCount q .read = 0 ∧ k'.openCount q .write = 0)
  by_cases hqp : q = pipe
  · subst hqp
    rw [hm.openCount_new (by simp)]
    simp
  · rw [hm.openCount_old hqp, hm.openCount_old hqp]
    exact h q ((hm.hasPipe.mp hq).resolve_right hqp)

end New

end BareKernel
