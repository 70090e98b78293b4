import BareKernel.Userland.PhyloLaw

/-! Who waits has a neighbour that eats. A diner that leaves examines both its
neighbours; until then they are excused. `new_phylo` and `remove_phylo` examine nobody
whose neighbours they change. -/

namespace BareKernel.Phylo

open Function (update)
open Links

variable {t t' : Table} {i j k n x : ℕ} {p q r : Pos} {s : Side} {S S' : ℕ → PhyloState} {F : ℕ → Option ℕ}
  {o : Option Agent} {a : Action} {ok : Bool}

/-- If it waits, one of its neighbours eats. -/
def Served (n : ℕ) (S : ℕ → PhyloState) (x : ℕ) : Prop :=
  S x = .waiting → ∃ s, S (neighbour n s x) = .eating

/-- The neighbours from this side on. -/
def StillTo (n i x : ℕ) : Side → Prop
  | .left => x = neighbour n .left i ∨ x = neighbour n .right i
  | .right => x = neighbour n .right i

/-- What philosopher `i` at this place is still going to examine. -/
def Excused (n i : ℕ) : Pos → ℕ → Prop
  | .takeTest _, x | .takeEat, x => x = i
  | .leaveTest s, x | .leaveBeyond s, x | .leaveEat s, x => StillTo n i x s
  | .leavePost .left, x => StillTo n i x .right
  | _, _ => False

def Serves (t : Table) : Prop :=
  ∀ x < t.seats, (∃ j p, t.pos j = some p ∧ Excused t.count j p x) ∨ Served t.seats t.states x

/-- Philosophers whose neighbours `new_phylo` and `remove_phylo` change keep one that
eats, or do not wait: those at both ends of the row when a seat is added behind it, and
those at both ends of what is left when the last seat is removed. -/
def KeepsDiners (t : Table) : Action → Prop
  | .main _ =>
    match t.main with
    | .newCount => 0 < t.count →
        (t.states 0 = .waiting → t.states (neighbour t.count .right 0) = .eating) ∧
        (t.states (t.count - 1) = .waiting → t.states (neighbour t.count .left (t.count - 1)) = .eating)
    | .removeClear => 1 < t.count → Served (t.count - 1) t.states 0 ∧ Served (t.count - 1) t.states (t.count - 2)
    | _ => True
  | _ => True

/-! ### Neighbours -/

theorem served_of_ne (h : S x ≠ .waiting) : Served n S x := fun hw => absurd hw h

theorem Served.eat (h : Served n S x) (hk : S k ≠ .eating) : Served n (update S k .eating) x := by
  intro hw
  have hne : x ≠ k := by
    rintro rfl
    simp at hw
  rw [Function.update_of_ne hne] at hw
  obtain ⟨s, hs⟩ := h hw
  refine ⟨s, ?_⟩
  rw [Function.update_of_ne (by rintro rfl; exact hk hs), hs]

theorem Served.set (h : Served n S x) {v : PhyloState} (hx : x ≠ k) (hnb : ∀ s, neighbour n s x ≠ k ∨ S k ≠ .eating) :
    Served n (update S k v) x := by
  intro hw
  rw [Function.update_of_ne hx] at hw
  obtain ⟨s, hs⟩ := h hw
  refine ⟨s, ?_⟩
  have hne : neighbour n s x ≠ k := by
    rcases hnb s with hne | hk
    · exact hne
    · rintro rfl
      exact hk hs
  rw [Function.update_of_ne hne, hs]

/-- Between the ends of the row a new seat makes no difference. -/
theorem Served.grow (h : Served n S x) (hx : x < n)
    (h₀ : S 0 = .waiting → S (neighbour n .right 0) = .eating)
    (h₁ : S (n - 1) = .waiting → S (neighbour n .left (n - 1)) = .eating) : Served (n + 1) S x := by
  intro hw
  rcases eq_or_ne x 0 with rfl | hx₀
  · refine ⟨.right, ?_⟩
    have heat := h₀ hw
    rw [neighbour_right hx] at heat
    rw [neighbour_right (by omega), if_neg (by omega)]
    split at heat
    · rw [hw] at heat
      cases heat
    · exact heat
  rcases eq_or_ne x (n - 1) with rfl | hx₁
  · refine ⟨.left, ?_⟩
    have heat := h₁ hw
    rw [neighbour_left hx, if_neg hx₀] at heat
    rw [neighbour_left (by omega), if_neg hx₀, heat]
  obtain ⟨s, hs⟩ := h hw
  refine ⟨s, ?_⟩
  cases s with
  | left =>
    rw [neighbour_left hx, if_neg hx₀] at hs
    rw [neighbour_left (by omega), if_neg hx₀, hs]
  | right =>
    rw [neighbour_right hx, if_neg (by omega)] at hs
    rw [neighbour_right (by omega), if_neg (by omega), hs]

/-- Between the ends of what is left the last seat made no difference. -/
theorem Served.shrink (h : Served (n + 1) S x) (hx : x < n) (h₀ : Served n S 0) (h₁ : Served n S (n - 1)) :
    Served n S x := by
  rcases eq_or_ne x 0 with rfl | hx₀
  · exact h₀
  rcases eq_or_ne x (n - 1) with rfl | hx₁
  · exact h₁
  intro hw
  obtain ⟨s, hs⟩ := h hw
  refine ⟨s, ?_⟩
  cases s with
  | left =>
    rw [neighbour_left (by omega), if_neg hx₀] at hs
    rw [neighbour_left hx, if_neg hx₀, hs]
  | right =>
    rw [neighbour_right (by omega), if_neg (by omega)] at hs
    rw [neighbour_right hx, if_neg (by omega), hs]

/-! ### A step of a philosopher -/

theorem Excused.inside (h : Excused n i p x) : p.inside = true := by
  cases p with
  | start => exact h.elim
  | thinking => exact h.elim
  | forkWait => exact h.elim
  | eating => exact h.elim
  | _ => rfl

theorem StillTo.next (h : StillTo n i x s) : x = neighbour n s i ∨ Excused n i (.next s) x := by
  cases s with
  | left => exact h
  | right => exact .inl h

theorem Serves.alone (h : Serves t) (hinv : PhyloInv t) (hp : t.pos i = some p) (hin : p.inside = true)
    (hx : x < t.count) : Excused t.count i p x ∨ Served t.count t.states x := by
  have ho := (hinv.owned i p hp).mp hin
  have hseats := (quiet (hinv.mainOutside (by rw [ho]; simp))).2.1
  rcases h x (by rw [hseats]; exact hx) with ⟨j, r, hr, hex⟩ | hserved
  · obtain rfl : j = i := by
      have hj := (hinv.owned j r hr).mp hex.inside
      rw [ho] at hj
      simpa using hj.symm
    obtain rfl : r = p := by simpa [hp] using hr.symm
    exact .inl hex
  · rw [hseats] at hserved
    exact .inr hserved

theorem Serves.moveInside (h : Serves t) (hinv : PhyloInv t) (hp : t.pos i = some p) (hin : p.inside = true)
    (ht : t' = { t with states := S, fork := F, owner := o, pos := update t.pos i (some q) })
    (hserve : ∀ x < t.count, Excused t.count i p x ∨ Served t.count t.states x →
      Excused t.count i q x ∨ Served t.count S x) : Serves t' := by
  subst ht
  have ho := (hinv.owned i p hp).mp hin
  have hseats := (quiet (hinv.mainOutside (by rw [ho]; simp))).2.1
  intro x hx
  have hx' : x < t.count := by
    rw [← hseats]
    exact hx
  rcases hserve x hx' (h.alone hinv hp hin hx') with hex | hserved
  · exact .inl ⟨i, q, Function.update_self .., hex⟩
  · refine .inr ?_
    show Served t.seats S x
    rw [hseats]
    exact hserved

theorem Serves.moveOutside (h : Serves t) (hp : t.pos i = some p) (hin : p.inside = false)
    (ht : t' = { t with states := S, fork := F, owner := o, pos := update t.pos i (some q) })
    (hserve : ∀ x, Served t.seats t.states x → Served t.seats S x) : Serves t' := by
  subst ht
  intro x hx
  rcases h x hx with ⟨j, r, hr, hex⟩ | hserved
  · refine .inl ⟨j, r, ?_, hex⟩
    have hj : j ≠ i := by
      rintro rfl
      obtain rfl : p = r := by simpa [hp] using hr
      rw [hex.inside] at hin
      cases hin
    exact (Function.update_of_ne hj _ _).trans hr
  · exact .inr (hserve x hserved)

theorem Serves.stepPhylo (h : Serves t) (hinv : PhyloInv t) (hp : t.pos i = some p)
    (hstep : t.stepPhylo i p = some t') : Serves t' := by
  have hown := hinv.own i p hp
  have hhold := hinv.holder i p hp
  cases p with
  | start =>
    cases hstep
    apply h.moveOutside (S := update t.states i .thinking) (F := t.fork) (o := t.owner) hp rfl rfl
    intro x hx
    rcases eq_or_ne x i with rfl | hne
    · exact served_of_ne (by simp)
    · exact hx.set hne fun s => .inr (by rw [hown.1]; decide)
  | thinking =>
    obtain ⟨_, rfl⟩ := acquire_goto hstep
    exact h.moveOutside (S := t.states) (F := t.fork) hp rfl rfl fun x hx => hx
  | takeSet =>
    cases hstep
    apply h.moveInside (S := update t.states i .waiting) (F := t.fork) (o := t.owner) hinv hp rfl rfl
    rintro x - (hex | hx)
    · exact hex.elim
    · rcases eq_or_ne x i with rfl | hne
      · exact .inl rfl
      · exact .inr (hx.set hne fun s => .inr (by rw [hown.1]; decide))
  | takeTest s =>
    simp only [Table.stepPhylo] at hstep
    split at hstep
    · rename_i heat
      cases hstep
      apply h.moveInside (S := t.states) (F := t.fork) (o := t.owner) hinv hp rfl rfl
      rintro x - (rfl | hx)
      · exact .inr fun _ => ⟨s, heat⟩
      · exact .inr hx
    · cases hstep
      apply h.moveInside (S := t.states) (F := t.fork) (o := t.owner) hinv hp rfl rfl
      rintro x - (rfl | hx)
      · cases s with
        | left => exact .inl rfl
        | right => exact .inl rfl
      · exact .inr hx
  | takeEat =>
    cases hstep
    apply h.moveInside (S := update t.states i .eating) (F := t.fork) (o := t.owner) hinv hp rfl rfl
    rintro x - (rfl | hx)
    · exact .inr (served_of_ne (by simp))
    · exact .inr (hx.eat (by rw [hown.1]; decide))
  | takePost =>
    cases hstep
    exact h.moveInside (S := t.states) (F := post t.fork i) (o := t.owner) hinv hp rfl rfl fun _ _ hx => hx
  | takeDone =>
    cases hstep
    exact h.moveInside (S := t.states) (F := t.fork) (o := none) hinv hp rfl rfl fun _ _ hx => hx
  | forkWait =>
    simp only [Table.stepPhylo] at hstep
    split at hstep
    · cases hstep
      exact h.moveOutside (S := t.states) (F := t.fork) (o := t.owner) hp rfl rfl fun x hx => hx
    · cases hstep
    · rename_i v hv
      cases hstep
      exact h.moveOutside (S := t.states) (F := update t.fork i (some v)) (o := t.owner) hp rfl rfl fun x hx => hx
  | eating =>
    obtain ⟨_, rfl⟩ := acquire_goto hstep
    exact h.moveOutside (S := t.states) (F := t.fork) hp rfl rfl fun x hx => hx
  | leaveSet =>
    cases hstep
    have hlt := hinv.lt_count hp ((hinv.owned i _ hp).mp rfl)
    apply h.moveInside (S := update t.states i .thinking) (F := t.fork) (o := t.owner) hinv hp rfl rfl
    rintro x hxn (hex | hx)
    · exact hex.elim
    by_cases hl : neighbour t.count .left i = x
    · exact .inl (.inl hl.symm)
    by_cases hr : neighbour t.count .right i = x
    · exact .inl (.inr hr.symm)
    rcases eq_or_ne x i with rfl | hne
    · exact .inr (served_of_ne (by simp))
    -- its neighbours are others
    refine .inr (hx.set hne fun s => .inl ?_)
    rintro rfl
    have hback := neighbour_other hxn s
    cases s with
    | left => exact hr hback
    | right => exact hl hback
  | leaveTest s =>
    simp only [Table.stepPhylo] at hstep
    split at hstep
    · cases hstep
      apply h.moveInside (S := t.states) (F := t.fork) (o := t.owner) hinv hp rfl rfl
      rintro x - (hex | hx)
      · exact .inl hex
      · exact .inr hx
    · rename_i hnot
      cases hstep
      apply h.moveInside (S := t.states) (F := t.fork) (o := t.owner) hinv hp rfl rfl
      rintro x - (hex | hx)
      · rcases hex.next with rfl | hex'
        · exact .inr (served_of_ne hnot)
        · exact .inl hex'
      · exact .inr hx
  | leaveBeyond s =>
    simp only [Table.stepPhylo] at hstep
    split at hstep
    · rename_i heat
      cases hstep
      apply h.moveInside (S := t.states) (F := t.fork) (o := t.owner) hinv hp rfl rfl
      rintro x - (hex | hx)
      · rcases hex.next with rfl | hex'
        · exact .inr fun _ => ⟨s, heat⟩
        · exact .inl hex'
      · exact .inr hx
    · cases hstep
      apply h.moveInside (S := t.states) (F := t.fork) (o := t.owner) hinv hp rfl rfl
      rintro x - (hex | hx)
      · exact .inl hex
      · exact .inr hx
  | leaveEat s =>
    cases hstep
    apply h.moveInside (S := update t.states (neighbour t.count s i) .eating) (F := t.fork) (o := t.owner) hinv hp rfl
      rfl
    rintro x - (hex | hx)
    · rcases hex.next with rfl | hex'
      · exact .inr (served_of_ne (by simp))
      · exact .inl (by cases s <;> exact hex')
    · exact .inr (hx.eat (by rw [hhold.1]; decide))
  | leavePost s =>
    cases hstep
    apply h.moveInside (S := t.states) (F := post t.fork (neighbour t.count s i)) (o := t.owner) hinv hp rfl rfl
    rintro x - (hex | hx)
    · exact .inl (by cases s <;> exact hex)
    · exact .inr hx
  | leaveDone =>
    cases hstep
    exact h.moveInside (S := t.states) (F := t.fork) (o := none) hinv hp rfl rfl fun _ _ hx => hx

/-! ### A step of the main process -/

theorem Serves.calm (h : Serves t) (hinv : PhyloInv t) (ho : ∀ i, t.owner ≠ some (.phylo i)) (hx : x < t.seats) :
    Served t.seats t.states x := by
  rcases h x hx with ⟨j, p, hp, hex⟩ | hserved
  · exact absurd ((hinv.owned j p hp).mp hex.inside) (ho j)
  · exact hserved

/-- Only two lines change who sits where or what a seat says. -/
theorem stepMain_cases (hstep : t.stepMain ok = some t') :
    (t.owner = none ∨ t.main.inside = true) ∧
      (t.main = .newCount ∧ t'.seats = t.seats + 1 ∧ t'.states = t.states ∨
        t.main = .removeClear ∧ t'.seats = t.count - 1 ∧ t'.states = update t.states (t.count - 1) .none ∨
        t'.seats = t.seats ∧ t'.states = t.states) := by
  simp only [Table.stepMain] at hstep
  cases hm : t.main <;> simp only [hm] at hstep
  case idle => cases hstep
  case newWait | removeWait | removeSleep =>
    obtain ⟨ho, rfl⟩ := acquire_main hstep
    exact ⟨.inl ho, .inr (.inr (by simp [Table.seats, hm]))⟩
  case newOpen | newAlloc | newCreate =>
    cases ok <;> cases hstep <;>
      exact ⟨.inr rfl, .inr (.inr (by simp [Table.seats, Table.goto, hm]))⟩
  case newCount =>
    cases hstep
    exact ⟨.inr rfl, .inl (by simp [Table.seats, hm])⟩
  case removeTest s =>
    refine ⟨.inr rfl, .inr (.inr ?_)⟩
    cases s <;> split at hstep <;> cases hstep <;> simp [Table.seats, hm]
  case removeClear =>
    cases hstep
    exact ⟨.inr rfl, .inr (.inl (by simp [Table.seats, Table.setState]))⟩
  case newDone | removePause | removeKill | removeClose | removeCount | removeDone =>
    cases hstep
    exact ⟨.inr rfl, .inr (.inr (by simp [Table.seats, Table.release, hm]))⟩

theorem Serves.stepMain (h : Serves t) (hinv : PhyloInv t) (hok : KeepsDiners t (.main ok))
    (hstep : t.stepMain ok = some t') : Serves t' := by
  obtain ⟨howner, hcases⟩ := stepMain_cases hstep
  have hcalm : ∀ x < t.seats, Served t.seats t.states x := by
    intro x hx
    apply h.calm hinv _ hx
    intro i
    rcases howner with ho | hin
    · rw [ho]
      simp
    · rw [hinv.ownedMain.mp hin]
      simp
  intro x hx
  refine .inr ?_
  rcases hcases with ⟨hm, hseats, hstates⟩ | ⟨hm, hseats, hstates⟩ | ⟨hseats, hstates⟩
  · -- the new philosopher is not hungry
    have hold : t.seats = t.count := by simp [Table.seats, hm]
    rw [hold] at hcalm hseats
    rw [hseats] at hx ⊢
    rw [hstates]
    rcases Nat.lt_succ_iff_lt_or_eq.mp hx with hlt | rfl
    · have hends : 0 < t.count →
          (t.states 0 = .waiting → t.states (neighbour t.count .right 0) = .eating) ∧
          (t.states (t.count - 1) = .waiting → t.states (neighbour t.count .left (t.count - 1)) = .eating) := by
        simpa only [KeepsDiners, hm] using hok
      obtain ⟨h₀, h₁⟩ := hends (by omega)
      exact (hcalm x hlt).grow hlt h₀ h₁
    · apply served_of_ne
      rcases hinv.fresh hm with hf | hf
      · rw [(hinv.own _ _ hf).1]
        decide
      · rw [(hinv.own _ _ hf).1]
        decide
  · have hold : t.seats = t.count := by simp [Table.seats, hm]
    have hends : 1 < t.count →
        Served (t.count - 1) t.states 0 ∧ Served (t.count - 1) t.states (t.count - 2) := by
      simpa only [KeepsDiners, hm] using hok
    rw [hseats] at hx ⊢
    rw [hstates]
    rw [hold] at hcalm
    obtain ⟨n, hn⟩ : ∃ n, t.count = n + 1 := ⟨t.count - 1, by omega⟩
    rw [hn] at hcalm hends hx ⊢
    rw [Nat.add_sub_cancel] at hends hx ⊢
    obtain ⟨h₀, h₁⟩ := hends (by omega)
    apply ((hcalm x (by omega)).shrink hx h₀ h₁).set (by omega)
    intro s
    have := neighbour_lt hx s
    exact .inl (by omega)
  · rw [hseats] at hx ⊢
    rw [hstates]
    exact hcalm x hx

theorem Serves.step (h : Serves t) (hinv : PhyloInv t) (hok : KeepsDiners t a) (hstep : t.step a = some t') :
    Serves t' := by
  cases a with
  | phylo i =>
    obtain ⟨p, hp, hrun⟩ := Option.bind_eq_some_iff.mp hstep
    exact h.stepPhylo hinv hp hrun
  | newPhylo =>
    simp only [Table.step] at hstep
    split at hstep
    · rename_i hm
      cases hstep
      have hseats : t.seats = t.count := by simp [Table.seats, hm.1]
      unfold Serves at h
      rwa [hseats] at h
    · cases hstep
  | removePhylo =>
    simp only [Table.step] at hstep
    split at hstep
    · rename_i hm
      cases hstep
      have hseats : t.seats = t.count := by simp [Table.seats, hm.1]
      unfold Serves at h
      rwa [hseats] at h
    · cases hstep
  | main ok => exact h.stepMain hinv hok hstep

theorem dining_serves (h : dining.Reach KeepsDiners t) : Serves t := by
  have hboth : PhyloInv t ∧ Serves t := by
    apply h.invariant
    · rintro t rfl
      exact ⟨initial_inv, fun x hx => absurd hx (Nat.not_lt_zero x)⟩
    · exact fun t a t' hinv hok hstep => ⟨hinv.1.step hstep, hinv.2.step hinv.1 hok hstep⟩
  exact hboth.2

/-! ### Nobody waits in vain -/

/-- Who is going to examine two philosophers is leaving. -/
theorem Excused.leaves {y : ℕ} {v : PhyloState} {f : Option ℕ} (hx : Excused n i p x) (hy : Excused n i p y)
    (hne : x ≠ y) (hown : OwnOk v f p) : v = .thinking := by
  cases p with
  | takeTest s => exact absurd (Eq.trans hx (Eq.symm hy)) hne
  | takeEat => exact absurd (Eq.trans hx (Eq.symm hy)) hne
  | leaveTest s => exact hown.1
  | leaveBeyond s => exact hown.1
  | leaveEat s => exact hown.1
  | leavePost s => exact hown.1
  | _ => exact hx.elim

theorem PhyloInv.seats_of_waiting (h : PhyloInv t) (hpos : 0 < t.count) (hall : ∀ i < t.count, t.states i = .waiting) :
    t.seats = t.count := by
  cases hm : t.main
  case removeCount =>
    have hnone : t.pos (t.count - 1) = none := by
      rw [← Option.not_isSome_iff_eq_none, h.alive]
      simp [Table.members, hm]
    have hclear := h.clear (t.count - 1) (by simp [Table.seats, hm]) hnone
    rw [hall _ (by omega)] at hclear
    cases hclear
  all_goals simp [Table.seats, hm]

theorem Serves.excused (h : Serves t) (hinv : PhyloInv t) (hall : ∀ i < t.count, t.states i = .waiting)
    (hx : x < t.count) : ∃ j p, t.pos j = some p ∧ Excused t.count j p x := by
  have hseats := hinv.seats_of_waiting (by omega) hall
  rcases h x (by rw [hseats]; exact hx) with hex | hserved
  · exact hex
  · rw [hseats] at hserved
    obtain ⟨s, hs⟩ := hserved (hall x hx)
    rw [hall _ (neighbour_lt hx s)] at hs
    cases hs

/-- Along every run in which joining and leaving cut nobody off from its diner: while
`SEM_GLOBAL` is free who waits has a neighbour that eats, and never does everybody wait,
but for one that is alone and just taking its forks. -/
theorem phylo_served (h : dining.Reach KeepsDiners t) :
    (t.owner = none → ∀ i < t.count, t.states i = .waiting → ∃ s, t.states (neighbour t.count s i) = .eating) ∧
    (0 < t.count → t.owner = none ∨ 1 < t.count → ∃ i < t.count, t.states i ≠ .waiting) := by
  have hinv := dining_inv h
  have hserves := dining_serves h
  refine ⟨fun ho i hi => ?_, fun hpos hcase => ?_⟩
  · have hseats : t.seats = t.count := (quiet (hinv.mainOutside (by rw [ho]; simp))).2.1
    rw [← hseats] at hi ⊢
    exact hserves.calm hinv (by rw [ho]; simp) hi
  · by_contra hnone
    have hall : ∀ i < t.count, t.states i = .waiting := by
      intro i hi
      by_contra hw
      exact hnone ⟨i, hi, hw⟩
    obtain ⟨j, p, hp, hex⟩ := hserves.excused hinv hall hpos
    have ho := (hinv.owned j p hp).mp hex.inside
    rcases hcase with hfree | hone
    · rw [ho] at hfree
      cases hfree
    · obtain ⟨j', p', hp', hex'⟩ := hserves.excused hinv hall hone
      have ho' := (hinv.owned j' p' hp').mp hex'.inside
      obtain rfl : j = j' := by simpa [ho] using ho'
      obtain rfl : p = p' := by simpa [hp] using hp'
      have hthinking := hex.leaves hex' (by decide) (hinv.own j p hp)
      rw [hall j (hinv.lt_count hp ho)] at hthinking
      cases hthinking

instance : Decidable (Served n S x) :=
  decidable_of_iff (S x = .waiting → S (neighbour n .left x) = .eating ∨ S (neighbour n .right x) = .eating)
    ⟨fun h hw => (h hw).elim (fun hs => ⟨.left, hs⟩) fun hs => ⟨.right, hs⟩, fun h hw => by
      obtain ⟨s, hs⟩ := h hw
      cases s with
      | left => exact .inl hs
      | right => exact .inr hs⟩

instance : Decidable (KeepsDiners t a) :=
  Action.casesOn (motive := fun a => Decidable (KeepsDiners t a)) a (fun _ => .isTrue trivial) (.isTrue trivial)
    (.isTrue trivial) fun _ => by
      dsimp only [KeepsDiners]
      split <;> infer_instance

/-- The first eats and the second waits when a third one joins. -/
theorem phylo_served_third :
    let t := (System.runList Table.step KeepsDiners Table.initial
      (joins ++ joins ++ List.replicate 9 (.phylo 0) ++ List.replicate 5 (.phylo 1) ++ joins)).getD Table.initial
    (t.count = 3 ∧ t.states 1 = .waiting) ∧ (∃ s, t.states (neighbour t.count s 1) = .eating) ∧
      ∃ i < t.count, t.states i ≠ .waiting :=
  have hlaw := phylo_served ((System.Reach.init rfl).runList_getD (fun _ _ _ h => h) (by decide))
  ⟨by decide, hlaw.1 (by decide) 1 (by decide) (by decide), hlaw.2 (by decide) (.inl (by decide))⟩

/-- The last of four philosophers eats and the first waits; the last one is removed, and
the first waits between two neighbours that think. -/
theorem phylo_unserved :
    ¬∀ t, dining.Reach (fun _ _ => True) t → t.owner = none →
      ∀ i < t.count, t.states i = .waiting → ∃ s, t.states (neighbour t.count s i) = .eating := by
  intro hclaim
  have hreach := Table.after_reach (joins ++ joins ++ joins ++ joins ++ List.replicate 9 (.phylo 3) ++
    List.replicate 5 (.phylo 0) ++ leaves) (by decide)
  have hserved := hclaim _ hreach (by decide) 0 (by decide) (by decide)
  exact absurd (show Served _ _ 0 from fun _ => hserved) (by decide)

end BareKernel.Phylo
