import BareKernel.Userland.PhyloInv

/-! No two neighbours eat at once, whatever philosophers come and go: a seat is added
while its philosopher cannot be hungry yet, and removed when its two neighbours do not
both eat. -/

namespace BareKernel.Phylo

open Function (update)
open Links

variable {t t' : Table} {i j k n : ℕ} {p r : Pos} {m : MainPos} {o : Option Agent} {ok : Bool}

/-! ### A step of the main process -/

/-- The main process goes on: nothing else changes, but perhaps who owns `SEM_GLOBAL`. -/
theorem PhyloInv.advance (h : PhyloInv t) (ht : t' = { t with owner := o, main := m })
    (howner : (t.owner = none ∨ t.owner = some .main) ∧ o = if m.inside then some .main else none)
    (hseats : t'.members = t.members ∧ t'.seats = t.seats)
    (hopened : m = .newAlloc ∨ m = .newCreate → t.main = .newAlloc ∨ t.main = .newCreate) (hfresh : m ≠ .newCount)
    (hbusy : m.removes = true → 0 < t.count)
    (hparted : m.parted = true → ¬(t.states (neighbour t.count .left (t.count - 1)) = .eating ∧
      t.states (neighbour t.count .right (t.count - 1)) = .eating)) : PhyloInv t' := by
  subst ht
  have hout : ∀ j r, t.pos j = some r → r.inside = false := by
    intro j r hr
    apply h.outside hr
    rcases howner.1 with ho | ho <;> rw [ho] <;> simp
  have hmain : m.inside = true ↔ o = some .main := by
    rw [howner.2]
    cases m.inside <;> simp
  have hnot : ∀ j, o ≠ some (.phylo j) := by
    rw [howner.2]
    cases m.inside <;> simp
  refine ⟨fun j r hr => ?_, hmain, fun j => ?_, h.own, fun j r hr => holderOk_outside (hout j r hr), fun j hj => ?_,
    fun hm => h.opened (hopened hm), fun hm => absurd hm hfresh, hbusy, hparted, ?_⟩
  · rw [hout j r hr]
    exact ⟨fun hf => by simp at hf, fun ho => absurd ho (hnot j)⟩
  · rw [hseats.1]
    exact h.alive j
  · rw [hseats.2] at hj
    exact h.clear j hj
  · rw [hseats.2]
    exact h.apart

theorem PhyloInv.alone (h : PhyloInv t) (hm : t.main.inside = true) (hr : t.pos j = some r) : r.inside = false := by
  apply h.outside hr
  rw [h.ownedMain.mp hm]
  simp

/-- Inside, the main process changes what it likes, as long as nobody is disturbed. -/
theorem PhyloInv.change (h : PhyloInv t) (hm : t.main.inside = true) (hm' : t'.main.inside = true)
    (howner : t'.owner = t.owner)
    (hpos : ∀ j r, t'.pos j = some r → r.inside = false ∧ OwnOk (t'.states j) (t'.fork j) r)
    (halive : ∀ i, (t'.pos i).isSome = true ↔ i < t'.members)
    (hclear : ∀ i, t'.seats ≤ i → t'.pos i = none → t'.states i = .none)
    (hopened : t'.main = .newAlloc ∨ t'.main = .newCreate → t'.fork t'.count = some 0)
    (hfresh : t'.main = .newCount → t'.pos t'.count = some .start ∨ t'.pos t'.count = some .thinking)
    (hbusy : t'.main.removes = true → 0 < t'.count)
    (hparted : t'.main.parted = true → ¬(t'.states (neighbour t'.count .left (t'.count - 1)) = .eating ∧
      t'.states (neighbour t'.count .right (t'.count - 1)) = .eating))
    (hapart : Apart t'.seats t'.states) : PhyloInv t' := by
  have ho : t'.owner = some .main := howner.trans (h.ownedMain.mp hm)
  refine ⟨fun j r hr => ?_, by rw [hm', ho]; simp, halive, fun j r hr => (hpos j r hr).2,
    fun j r hr => holderOk_outside (hpos j r hr).1, hclear, hopened, hfresh, hbusy, hparted, hapart⟩
  rw [(hpos j r hr).1, ho]
  simp

theorem PhyloInv.setFork (h : PhyloInv t) (hm : t.main.inside = true) {f : Option ℕ} (hk : t.pos k = none)
    (ht : t' = { t with fork := update t.fork k f, main := m }) (hm' : m.inside = true)
    (hseats : t'.members = t.members ∧ t'.seats = t.seats)
    (hopened : m = .newAlloc ∨ m = .newCreate → k = t.count ∧ f = some 0) (hfresh : m ≠ .newCount)
    (hbusy : m.removes = true → 0 < t.count) (hparted : m.parted = true → t.main.parted = true) : PhyloInv t' := by
  subst ht
  apply h.change hm hm'
  · rfl
  · intro j r hr
    refine ⟨h.alone hm hr, ?_⟩
    have hj : j ≠ k := by
      rintro rfl
      rw [show t.pos j = some r from hr] at hk
      cases hk
    show OwnOk (t.states j) (update t.fork k f j) r
    rw [Function.update_of_ne hj]
    exact h.own j r hr
  · intro j
    rw [hseats.1]
    exact h.alive j
  · intro j hj
    rw [hseats.2] at hj
    exact h.clear j hj
  · intro hmain
    obtain ⟨rfl, rfl⟩ := hopened hmain
    exact Function.update_self ..
  · exact fun hmain => absurd hmain hfresh
  · exact hbusy
  · exact fun hmain => h.parted (hparted hmain)
  · rw [hseats.2]
    exact h.apart

theorem PhyloInv.free (h : PhyloInv t) (hm : t.members = t.count) : t.pos t.count = none := by
  rw [← Option.not_isSome_iff_eq_none, h.alive, hm]
  omega

theorem PhyloInv.create (h : PhyloInv t) (hm : t.main = .newCreate) :
    PhyloInv { t.goto t.count .start with main := .newCount } := by
  have hin : t.main.inside = true := by rw [hm]; rfl
  have hmem : t.members = t.count ∧ t.seats = t.count := by simp [Table.members, Table.seats, hm]
  have hnone := h.free hmem.1
  apply h.change hin
  · rfl
  · rfl
  · intro j r hr
    rcases eq_or_ne j t.count with rfl | hj
    · obtain rfl : Pos.start = r := by simpa [Table.goto] using hr
      exact ⟨rfl, h.clear _ (Nat.le_of_eq hmem.2) hnone, h.opened (.inr hm)⟩
    · have hr' : t.pos j = some r := by simpa [Table.goto, hj] using hr
      exact ⟨h.alone hin hr', h.own j r hr'⟩
  · intro j
    show (update t.pos t.count (some .start) j).isSome = true ↔ j < t.count + 1
    rcases eq_or_ne j t.count with rfl | hj
    · simp
    · rw [Function.update_of_ne hj, h.alive, hmem.1]
      omega
  · intro j hj hnone'
    apply h.clear j (Nat.le_trans (Nat.le_of_eq hmem.2) hj)
    rcases eq_or_ne j t.count with rfl | hne
    · exact hnone
    · simpa [Table.goto, hne] using hnone'
  · intro hmain
    rcases hmain with hmain | hmain <;> cases hmain
  · exact fun _ => .inl (Function.update_self ..)
  · intro hmain
    cases hmain
  · intro hmain
    cases hmain
  · show Apart t.count t.states
    rw [← hmem.2]
    exact h.apart

/-- The seat counts from now on: who sits there is not hungry yet. -/
theorem PhyloInv.seat (h : PhyloInv t) (hm : t.main = .newCount) :
    PhyloInv { t with count := t.count + 1, main := .newDone } := by
  have hin : t.main.inside = true := by rw [hm]; rfl
  have hmem : t.members = t.count + 1 ∧ t.seats = t.count := by simp [Table.members, Table.seats, hm]
  apply h.change hin
  · rfl
  · rfl
  · exact fun j r hr => ⟨h.alone hin hr, h.own j r hr⟩
  · intro j
    show (t.pos j).isSome = true ↔ j < t.count + 1
    rw [h.alive, hmem.1]
  · intro j hj
    apply h.clear j
    rw [hmem.2]
    have : t.count + 1 ≤ j := hj
    omega
  · intro hmain
    rcases hmain with hmain | hmain <;> cases hmain
  · intro hmain
    cases hmain
  · intro hmain
    cases hmain
  · intro hmain
    cases hmain
  · have hold := h.apart
    rw [hmem.2] at hold
    apply hold.grow
    rcases h.fresh hm with hf | hf
    · rw [(h.own _ _ hf).1]
      decide
    · rw [(h.own _ _ hf).1]
      decide

theorem PhyloInv.kill (h : PhyloInv t) (hm : t.main = .removeKill) :
    PhyloInv { t with pos := update t.pos (t.count - 1) none, main := .removeClose } := by
  have hin : t.main.inside = true := by rw [hm]; rfl
  have hmem : t.members = t.count ∧ t.seats = t.count := by simp [Table.members, Table.seats, hm]
  have hcount : 0 < t.count := h.busy (by rw [hm]; rfl)
  apply h.change hin
  · rfl
  · rfl
  · intro j r hr
    have hj : j ≠ t.count - 1 := by
      rintro rfl
      simp at hr
    have hr' : t.pos j = some r := by simpa [hj] using hr
    exact ⟨h.alone hin hr', h.own j r hr'⟩
  · intro j
    show (update t.pos (t.count - 1) none j).isSome = true ↔ j < t.count - 1
    rcases eq_or_ne j (t.count - 1) with rfl | hj
    · simp
    · rw [Function.update_of_ne hj, h.alive, hmem.1]
      omega
  · intro j hj hnone
    have hle : t.count ≤ j := hj
    apply h.clear j (Nat.le_trans (Nat.le_of_eq hmem.2) hle)
    have hne : j ≠ t.count - 1 := by omega
    simpa [hne] using hnone
  · intro hmain
    rcases hmain with hmain | hmain <;> cases hmain
  · intro hmain
    cases hmain
  · exact fun _ => hcount
  · exact fun _ => h.parted (by rw [hm]; rfl)
  · show Apart t.count t.states
    rw [← hmem.2]
    exact h.apart

/-- The seat of the last philosopher is cleared: its neighbours are neighbours now. -/
theorem PhyloInv.vacate (h : PhyloInv t) (hm : t.main = .removeClear) :
    PhyloInv { t.setState (t.count - 1) .none with main := .removeCount } := by
  have hin : t.main.inside = true := by rw [hm]; rfl
  have hmem : t.members = t.count - 1 ∧ t.seats = t.count := by simp [Table.members, Table.seats, hm]
  have hcount : 0 < t.count := h.busy (by rw [hm]; rfl)
  have hlt : ∀ j r, t.pos j = some r → j < t.count - 1 := by
    intro j r hr
    rw [← hmem.1, ← h.alive, hr]
    rfl
  apply h.change hin
  · rfl
  · rfl
  · intro j r hr
    refine ⟨h.alone hin hr, ?_⟩
    show OwnOk (update t.states (t.count - 1) .none j) (t.fork j) r
    rw [Function.update_of_ne (Nat.ne_of_lt (hlt j r hr))]
    exact h.own j r hr
  · intro j
    show (t.pos j).isSome = true ↔ j < t.count - 1
    rw [h.alive, hmem.1]
  · intro j hj hnone
    have hle : t.count - 1 ≤ j := hj
    show update t.states (t.count - 1) .none j = .none
    rcases eq_or_ne j (t.count - 1) with rfl | hne
    · exact Function.update_self ..
    · rw [Function.update_of_ne hne]
      apply h.clear j _ hnone
      rw [hmem.2]
      omega
  · intro hmain
    rcases hmain with hmain | hmain <;> cases hmain
  · intro hmain
    cases hmain
  · exact fun _ => hcount
  · intro hmain
    cases hmain
  · have hold := h.apart
    have hparted := h.parted (by rw [hm]; rfl)
    obtain ⟨n, hn⟩ : ∃ n, t.count = n + 1 := ⟨t.count - 1, by omega⟩
    rw [hmem.2, hn] at hold
    rw [hn, Nat.add_sub_cancel] at hparted
    show Apart (t.count - 1) (update t.states (t.count - 1) .none)
    rw [hn, Nat.add_sub_cancel]
    exact (hold.shrink hparted).mono fun x => update_eating (by decide)

theorem PhyloInv.unseat (h : PhyloInv t) (hm : t.main = .removeCount) :
    PhyloInv { t with count := t.count - 1, main := .removeDone } := by
  have hin : t.main.inside = true := by rw [hm]; rfl
  have hmem : t.members = t.count - 1 ∧ t.seats = t.count - 1 := by simp [Table.members, Table.seats, hm]
  apply h.change hin
  · rfl
  · rfl
  · exact fun j r hr => ⟨h.alone hin hr, h.own j r hr⟩
  · intro j
    rw [h.alive, hmem.1]
    rfl
  · intro j hj
    exact h.clear j (Nat.le_trans (Nat.le_of_eq hmem.2) hj)
  · intro hmain
    rcases hmain with hmain | hmain <;> cases hmain
  · intro hmain
    cases hmain
  · intro hmain
    cases hmain
  · intro hmain
    cases hmain
  · show Apart (t.count - 1) t.states
    rw [← hmem.2]
    exact h.apart

theorem acquire_main (h : ((t.acquire .main).map fun t => { t with main := m }) = some t') :
    t.owner = none ∧ t' = { t with owner := some .main, main := m } := acquire_map h

theorem PhyloInv.stepMain (h : PhyloInv t) (hstep : t.stepMain ok = some t') : PhyloInv t' := by
  have hbusy := h.busy
  have howner := h.ownedMain
  simp only [Table.stepMain] at hstep
  cases hm : t.main <;> simp only [hm] at hstep hbusy howner
  case idle => cases hstep
  case newWait =>
    obtain ⟨ho, rfl⟩ := acquire_main hstep
    exact h.advance rfl ⟨.inl ho, rfl⟩ (by simp [Table.members, Table.seats, hm]) (by simp) (by simp)
      (by simp [MainPos.removes]) (by simp [MainPos.parted])
  case newOpen =>
    cases ok <;> cases hstep
    · exact h.advance (o := t.owner) rfl ⟨.inr (howner.mp rfl), howner.mp rfl⟩
        (by simp [Table.members, Table.seats, hm]) (by simp) (by simp) (by simp [MainPos.removes])
        (by simp [MainPos.parted])
    · exact h.setFork (by rw [hm]; rfl) (h.free (by simp [Table.members, hm])) rfl rfl
        (by simp [Table.members, Table.seats, hm]) (fun _ => ⟨rfl, rfl⟩) (by simp) (by simp [MainPos.removes])
        (by simp [MainPos.parted])
  case newAlloc =>
    cases ok <;> cases hstep
    · exact h.setFork (by rw [hm]; rfl) (h.free (by simp [Table.members, hm])) rfl rfl
        (by simp [Table.members, Table.seats, hm]) (by simp) (by simp) (by simp [MainPos.removes])
        (by simp [MainPos.parted])
    · exact h.advance (o := t.owner) rfl ⟨.inr (howner.mp rfl), howner.mp rfl⟩
        (by simp [Table.members, Table.seats, hm]) (by simp [hm]) (by simp) (by simp [MainPos.removes])
        (by simp [MainPos.parted])
  case newCreate =>
    cases ok <;> cases hstep
    · exact h.setFork (by rw [hm]; rfl) (h.free (by simp [Table.members, hm])) rfl rfl
        (by simp [Table.members, Table.seats, hm]) (by simp) (by simp) (by simp [MainPos.removes])
        (by simp [MainPos.parted])
    · exact h.create hm
  case newCount =>
    cases hstep
    exact h.seat hm
  case newDone =>
    cases hstep
    exact h.advance (o := none) rfl ⟨.inr (howner.mp rfl), rfl⟩
      (by simp [Table.members, Table.seats, Table.release, hm]) (by simp) (by simp)
      (by simp [MainPos.removes]) (by simp [MainPos.parted])
  case removeWait =>
    obtain ⟨ho, rfl⟩ := acquire_main hstep
    exact h.advance rfl ⟨.inl ho, rfl⟩ (by simp [Table.members, Table.seats, hm]) (by simp) (by simp)
      (fun _ => hbusy rfl) (by simp [MainPos.parted])
  case removePause =>
    cases hstep
    exact h.advance (o := none) rfl ⟨.inr (howner.mp rfl), rfl⟩
      (by simp [Table.members, Table.seats, Table.release, hm]) (by simp) (by simp)
      (fun _ => hbusy rfl) (by simp [MainPos.parted])
  case removeSleep =>
    obtain ⟨ho, rfl⟩ := acquire_main hstep
    exact h.advance rfl ⟨.inl ho, rfl⟩ (by simp [Table.members, Table.seats, hm]) (by simp) (by simp)
      (fun _ => hbusy rfl) (by simp [MainPos.parted])
  case removeTest s =>
    have hgo : ∀ m : MainPos, m = .removeTest .right ∨ m = .removePause ∨ m = .removeKill →
        (m.parted = true → ¬(t.states (neighbour t.count .left (t.count - 1)) = .eating ∧
          t.states (neighbour t.count .right (t.count - 1)) = .eating)) → PhyloInv { t with main := m } := by
      intro m hcases hpart
      refine h.advance (o := t.owner) rfl ⟨.inr (howner.mp rfl), ?_⟩ ?_ ?_ ?_ (fun _ => hbusy rfl) hpart
      · rw [howner.mp rfl]
        rcases hcases with rfl | rfl | rfl <;> rfl
      · rcases hcases with rfl | rfl | rfl <;> simp [Table.members, Table.seats, hm]
      · rcases hcases with rfl | rfl | rfl <;> simp
      · rcases hcases with rfl | rfl | rfl <;> simp
    split at hstep <;> cases hstep
    · cases s with
      | left => exact hgo _ (.inl rfl) (by simp [MainPos.parted])
      | right => exact hgo _ (.inr (.inl rfl)) (by simp [MainPos.parted])
    · rename_i hnot
      refine hgo _ (.inr (.inr rfl)) fun _ hboth => ?_
      cases s with
      | left => exact hnot hboth.1
      | right => exact hnot hboth.2
  case removeKill =>
    cases hstep
    exact h.kill hm
  case removeClose =>
    cases hstep
    refine h.setFork (by rw [hm]; rfl) ?_ rfl rfl (by simp [Table.members, Table.seats, hm]) (by simp) (by simp)
      (fun _ => hbusy rfl) (fun _ => by rw [hm]; rfl)
    rw [← Option.not_isSome_iff_eq_none, h.alive]
    simp [Table.members, hm]
  case removeClear =>
    cases hstep
    exact h.vacate hm
  case removeCount =>
    cases hstep
    exact h.unseat hm
  case removeDone =>
    cases hstep
    exact h.advance (o := none) rfl ⟨.inr (howner.mp rfl), rfl⟩
      (by simp [Table.members, Table.seats, Table.release, hm]) (by simp) (by simp)
      (by simp [MainPos.removes]) (by simp [MainPos.parted])

/-- The main process takes up a command: philosophers may be inside by then. -/
theorem PhyloInv.command (h : PhyloInv t) (hm : t.main = .idle)
    (hm' : m = .newWait ∨ m = .removeWait ∧ 0 < t.count) : PhyloInv { t with main := m } := by
  have hidle := h.ownedMain
  rw [hm] at hidle
  have hseats : Table.members { t with main := m } = t.members ∧ Table.seats { t with main := m } = t.seats := by
    rcases hm' with rfl | ⟨rfl, _⟩ <;> simp [Table.members, Table.seats, hm]
  refine ⟨h.owned, ?_, fun j => ?_, h.own, h.holder, fun j hj => ?_, fun hmain => ?_, fun hmain => ?_, fun hmain => ?_,
    fun hmain => ?_, ?_⟩
  · rcases hm' with rfl | ⟨rfl, _⟩ <;> exact hidle
  · rw [hseats.1]
    exact h.alive j
  · rw [hseats.2] at hj
    exact h.clear j hj
  · rcases hm' with rfl | ⟨rfl, _⟩ <;> simp at hmain
  · rcases hm' with rfl | ⟨rfl, _⟩ <;> simp at hmain
  · rcases hm' with rfl | ⟨rfl, hpos⟩
    · simp [MainPos.removes] at hmain
    · exact hpos
  · rcases hm' with rfl | ⟨rfl, _⟩ <;> simp [MainPos.parted] at hmain
  · rw [hseats.2]
    exact h.apart

theorem PhyloInv.step {a : Action} (h : PhyloInv t) (hstep : t.step a = some t') : PhyloInv t' := by
  cases a with
  | phylo i =>
    obtain ⟨p, hp, hrun⟩ := Option.bind_eq_some_iff.mp hstep
    exact h.stepPhylo hp hrun
  | newPhylo =>
    simp only [Table.step] at hstep
    split at hstep
    · rename_i hm
      cases hstep
      exact h.command hm.1 (.inl rfl)
    · cases hstep
  | removePhylo =>
    simp only [Table.step] at hstep
    split at hstep
    · rename_i hm
      cases hstep
      exact h.command hm.1 (.inr ⟨rfl, hm.2⟩)
    · cases hstep
  | main ok => exact h.stepMain hstep

theorem dining_inv {ok : Table → Action → Prop} (h : dining.Reach ok t) : PhyloInv t := by
  apply h.invariant
  · rintro t rfl
    exact initial_inv
  · exact fun _ _ _ hinv _ hstep => hinv.step hstep

/-! ### No two neighbours eat -/

/-- Along every run, whatever philosophers join and leave: while `SEM_GLOBAL` is free no
two neighbours eat, and a philosopher between `take_forks` and `leave_forks` does. -/
theorem phylo_exclusion (h : dining.Reach (fun _ _ => True) t) :
    (t.owner = none → ∀ i < t.count, ∀ s, neighbour t.count s i ≠ i →
      ¬(t.states i = .eating ∧ t.states (neighbour t.count s i) = .eating)) ∧
    ∀ i, t.pos i = some .eating → t.states i = .eating := by
  have hinv := dining_inv h
  refine ⟨fun ho => ?_, fun i hi => (hinv.own i _ hi).1⟩
  have hapart := hinv.apart
  rwa [(quiet (hinv.mainOutside (by rw [ho]; simp))).2.1] at hapart

/-! ### Runs that compute -/

/-- `new_phylo`, with every call it makes succeeding. -/
def joins : List Action := .newPhylo :: List.replicate 6 (.main true)

/-- `remove_phylo`, with a neighbour that does not eat to the left. -/
def leaves : List Action := .removePhylo :: List.replicate 9 (.main true)

/-- The table after these actions. -/
def Table.after (as : List Action) : Table :=
  (System.runList Table.step (fun _ _ => True) Table.initial as).getD Table.initial

theorem Table.after_reach (as : List Action)
    (hrun : (System.runList Table.step (fun _ _ => True) Table.initial as).isSome = true) :
    dining.Reach (fun _ _ => True) (Table.after as) :=
  (System.Reach.init rfl).runList_getD (fun _ _ _ h => h) hrun

/-- Of two philosophers that take their forks, the first eats and the second waits. -/
theorem phylo_exclusion_twoDiners :
    let t := Table.after (joins ++ joins ++ List.replicate 9 (.phylo 0) ++ List.replicate 5 (.phylo 1))
    (t.pos 0 = some .eating ∧ t.states 1 = .waiting) ∧ t.states 0 = .eating ∧
      ¬(t.states 0 = .eating ∧ t.states (neighbour t.count .right 0) = .eating) :=
  have hlaw := phylo_exclusion (Table.after_reach _ (by decide))
  ⟨by decide, hlaw.2 0 (by decide), hlaw.1 (by decide) 0 (by decide) .right (by decide)⟩

end BareKernel.Phylo
