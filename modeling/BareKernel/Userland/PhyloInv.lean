import BareKernel.Userland.Phylo

/-! What holds at the table whenever a philosopher has taken a step. A philosopher
becomes a diner only inside the critical section, after both its neighbours are seen not
to eat, and a token on its fork means that it is one. -/

namespace BareKernel.Phylo

open Function (update)
open Links

variable {t t' : Table} {i j k n x : ℕ} {p q r : Pos} {s : Side} {S S' : ℕ → PhyloState} {F : ℕ → Option ℕ}
  {o : Option Agent} {ok : Bool}

/-! ### Seats -/

def Side.other : Side → Side
  | .left => .right
  | .right => .left

theorem neighbour_left (h : i < n) : neighbour n .left i = if i = 0 then n - 1 else i - 1 := by
  show (i + n - 1) % n = _
  split
  · subst i
    rw [Nat.zero_add, Nat.mod_eq_of_lt (by omega)]
  · rw [show i + n - 1 = (i - 1) + n by omega, Nat.add_mod_right, Nat.mod_eq_of_lt (by omega)]

theorem neighbour_right (h : i < n) : neighbour n .right i = if i + 1 = n then 0 else i + 1 := by
  show (i + 1) % n = _
  split
  · rename_i he
    rw [he, Nat.mod_self]
  · rw [Nat.mod_eq_of_lt (by omega)]

theorem neighbour_lt (h : i < n) (s : Side) : neighbour n s i < n := by
  cases s with
  | left => exact Nat.mod_lt _ (by omega)
  | right => exact Nat.mod_lt _ (by omega)

theorem neighbour_other (h : i < n) (s : Side) : neighbour n s.other (neighbour n s i) = i := by
  have hlt := neighbour_lt h s
  cases s with
  | left =>
    rw [Side.other, neighbour_right hlt, neighbour_left h]
    split <;> split <;> omega
  | right =>
    rw [Side.other, neighbour_left hlt, neighbour_right h]
    split <;> split <;> omega

theorem Side.eq_or_other (s u : Side) : u = s ∨ u = s.other := by
  cases s <;> cases u <;> simp [Side.other]

/-! ### The invariant -/

/-- The process owns `SEM_GLOBAL` there. -/
def Pos.inside : Pos → Bool
  | .start | .thinking | .forkWait | .eating => false
  | _ => true

def MainPos.inside : MainPos → Bool
  | .idle | .newWait | .removeWait | .removeSleep => false
  | _ => true

/-- The last philosopher is being removed. -/
def MainPos.removes : MainPos → Bool
  | .removeWait | .removePause | .removeSleep | .removeTest _ | .removeKill | .removeClose | .removeClear
  | .removeCount => true
  | _ => false

/-- The neighbours of the last philosopher have been examined. -/
def MainPos.parted : MainPos → Bool
  | .removeKill | .removeClose | .removeClear => true
  | _ => false

/-- The philosophers that are alive. -/
def Table.members (t : Table) : ℕ :=
  match t.main with
  | .newCount => t.count + 1
  | .removeClose | .removeClear | .removeCount => t.count - 1
  | _ => t.count

/-- The seats that count; one that has been cleared does not. -/
def Table.seats (t : Table) : ℕ :=
  match t.main with
  | .removeCount => t.count - 1
  | _ => t.count

/-- What holds of the state and the fork of a philosopher at each place. -/
def OwnOk (s : PhyloState) (f : Option ℕ) : Pos → Prop
  | .start => s = .none ∧ f = some 0
  | .thinking | .takeSet => s = .thinking ∧ f = some 0
  | .takeTest _ | .takeEat => s = .waiting ∧ f = some 0
  | .takePost | .eating | .leaveSet => s = .eating ∧ f = some 0
  | .takeDone => s = .waiting ∧ f = some 0 ∨ s = .eating ∧ f = some 1
  | .forkWait => s = .waiting ∧ f = some 0 ∨ s = .eating ∧ (f = some 0 ∨ f = some 1)
  | .leaveTest _ | .leaveBeyond _ | .leaveEat _ | .leavePost _ | .leaveDone => s = .thinking ∧ f = some 0

/-- What the owner of `SEM_GLOBAL` has found out about its neighbours. -/
def HolderOk (t : Table) (i : ℕ) : Pos → Prop
  | .takeTest .right => t.states (neighbour t.count .left i) ≠ .eating
  | .takeEat => ∀ s, t.states (neighbour t.count s i) ≠ .eating
  | .leaveBeyond s => t.states (neighbour t.count s i) = .waiting
  | .leaveEat s => t.states (neighbour t.count s i) = .waiting ∧
      t.states (neighbour t.count s (neighbour t.count s i)) ≠ .eating
  | .leavePost s => t.pos (neighbour t.count s i) = some .forkWait ∧
      t.states (neighbour t.count s i) = .eating ∧ t.fork (neighbour t.count s i) = some 0
  | _ => True

/-- No two neighbours eat. -/
def Apart (n : ℕ) (S : ℕ → PhyloState) : Prop :=
  ∀ i < n, ∀ s, neighbour n s i ≠ i → ¬(S i = .eating ∧ S (neighbour n s i) = .eating)

structure PhyloInv (t : Table) : Prop where
  owned : ∀ i p, t.pos i = some p → (p.inside = true ↔ t.owner = some (.phylo i))
  ownedMain : t.main.inside = true ↔ t.owner = some .main
  alive : ∀ i, (t.pos i).isSome = true ↔ i < t.members
  own : ∀ i p, t.pos i = some p → OwnOk (t.states i) (t.fork i) p
  holder : ∀ i p, t.pos i = some p → HolderOk t i p
  clear : ∀ i, t.seats ≤ i → t.pos i = none → t.states i = .none
  opened : t.main = .newAlloc ∨ t.main = .newCreate → t.fork t.count = some 0
  fresh : t.main = .newCount → t.pos t.count = some .start ∨ t.pos t.count = some .thinking
  busy : t.main.removes = true → 0 < t.count
  parted : t.main.parted = true → ¬(t.states (neighbour t.count .left (t.count - 1)) = .eating ∧
    t.states (neighbour t.count .right (t.count - 1)) = .eating)
  apart : Apart t.seats t.states

theorem initial_inv : PhyloInv Table.initial where
  owned i p hp := by cases hp
  ownedMain := by decide
  alive i := by simp [Table.initial, Table.members]
  own i p hp := by cases hp
  holder i p hp := by cases hp
  clear i _ _ := rfl
  opened h := by simp [Table.initial] at h
  fresh h := by cases h
  busy h := by cases h
  parted h := by cases h
  apart i hi := by simp [Table.initial, Table.seats] at hi

theorem holderOk_outside (h : p.inside = false) : HolderOk t i p := by
  cases p with
  | start => trivial
  | thinking => trivial
  | forkWait => trivial
  | eating => trivial
  | _ => cases h

/-- While a philosopher owns `SEM_GLOBAL`, the main process is outside. -/
theorem quiet (hmain : t.main.inside = false) :
    t.members = t.count ∧ t.seats = t.count ∧ t.main.parted = false ∧ t.main ≠ .newAlloc ∧
      t.main ≠ .newCreate ∧ t.main ≠ .newCount := by
  unfold Table.members Table.seats
  cases hm : t.main <;> simp_all [MainPos.inside, MainPos.parted]

theorem PhyloInv.mainOutside (h : PhyloInv t) (ho : t.owner ≠ some .main) : t.main.inside = false := by
  have hiff := h.ownedMain
  cases hm : t.main.inside
  · rfl
  · exact absurd (hiff.mp hm) ho

theorem PhyloInv.outside (h : PhyloInv t) (hr : t.pos j = some r) (ho : t.owner ≠ some (.phylo j)) :
    r.inside = false := by
  cases hin : r.inside
  · rfl
  · exact absurd ((h.owned j r hr).mp hin) ho

/-- Outside, only a philosopher that waits for its fork is `WAITING`. -/
theorem PhyloInv.waits (h : PhyloInv t) (hr : t.pos j = some r) (hout : r.inside = false)
    (hw : t.states j = .waiting) : r = .forkWait ∧ t.fork j = some 0 := by
  have hown := h.own j r hr
  rw [hw] at hown
  cases r with
  | start => cases hown.1
  | thinking => cases hown.1
  | eating => cases hown.1
  | forkWait =>
    refine ⟨rfl, ?_⟩
    rcases hown with ⟨_, hf⟩ | ⟨hs, _⟩
    · exact hf
    · cases hs
  | _ => cases hout

/-! ### Neighbours that do not eat -/

theorem Apart.mono (h : Apart n S) (hs : ∀ x, S' x = .eating → S x = .eating) : Apart n S' := by
  intro i hi s hne hboth
  exact h i hi s hne ⟨hs _ hboth.1, hs _ hboth.2⟩

theorem update_eating {v : PhyloState} (hv : v ≠ .eating) (hx : update S k v x = .eating) : S x = .eating := by
  rcases eq_or_ne x k with rfl | hne
  · rw [Function.update_self] at hx
    exact absurd hx hv
  · rwa [Function.update_of_ne hne] at hx

theorem Apart.eat (h : Apart n S) (hk : k < n) (hne : ∀ s, S (neighbour n s k) ≠ .eating) :
    Apart n (update S k .eating) := by
  intro i hi s hi' hboth
  rcases eq_or_ne i k with rfl | hik
  · rw [Function.update_of_ne hi'] at hboth
    exact hne s hboth.2
  · rw [Function.update_of_ne hik] at hboth
    rcases eq_or_ne (neighbour n s i) k with hnb | hnb
    · have hback := neighbour_other hi s
      rw [hnb] at hback
      exact hne s.other (by rw [hback]; exact hboth.1)
    · rw [Function.update_of_ne hnb] at hboth
      exact h i hi s hi' hboth

theorem Apart.grow (h : Apart n S) (hn : S n ≠ .eating) : Apart (n + 1) S := by
  intro i hi s hi' hboth
  have hin : i ≠ n := by
    rintro rfl
    exact hn hboth.1
  have hnb : neighbour (n + 1) s i ≠ n := by
    intro he
    exact hn (he ▸ hboth.2)
  have hsame : neighbour (n + 1) s i = neighbour n s i := by
    cases s with
    | left =>
      rw [neighbour_left hi] at hnb ⊢
      rw [neighbour_left (by omega)]
      split <;> split at hnb <;> omega
    | right =>
      rw [neighbour_right hi] at hnb ⊢
      rw [neighbour_right (by omega)]
      split at hnb
      · omega
      · rw [if_neg (by omega), if_neg (by omega)]
  rw [hsame] at hi' hboth
  exact h i (by omega) s hi' hboth

/-- The last seat goes away between two neighbours that do not both eat. -/
theorem Apart.shrink (h : Apart (n + 1) S)
    (hn : ¬(S (neighbour (n + 1) .left n) = .eating ∧ S (neighbour (n + 1) .right n) = .eating)) : Apart n S := by
  rw [neighbour_left (by omega), neighbour_right (by omega), if_pos rfl] at hn
  intro i hi s hi' hboth
  have hold := h i (by omega) s
  cases s with
  | left =>
    rw [neighbour_left hi] at hi' hboth
    rw [neighbour_left (by omega)] at hold
    split at hi'
    · subst i
      rw [if_pos rfl] at hboth
      rw [if_neg (by omega)] at hn
      exact hn hboth.symm
    · rename_i hz
      rw [if_neg hz] at hboth hold
      exact hold hi' hboth
  | right =>
    rw [neighbour_right hi] at hi' hboth
    rw [neighbour_right (by omega)] at hold
    split at hi'
    · rename_i he
      rw [if_pos he] at hboth
      rw [if_neg (by omega), show n - 1 = i by omega] at hn
      exact hn hboth
    · rename_i he
      rw [if_neg he] at hboth
      rw [if_neg (by omega)] at hold
      exact hold hi' hboth

/-! ### A step of a philosopher -/

theorem acquire_map {a : Agent} {f : Table → Table} (h : (t.acquire a).map f = some t') :
    t.owner = none ∧ t' = f { t with owner := some a } := by
  unfold Table.acquire at h
  split at h
  · rename_i ho
    cases h
    exact ⟨ho, rfl⟩
  · cases h

theorem acquire_goto {a : Agent} (h : ((t.acquire a).map fun t => t.goto i q) = some t') :
    t.owner = none ∧ t' = { t with owner := some a, pos := update t.pos i (some q) } := acquire_map h

@[simp] theorem Pos.next_inside (s : Side) : (Pos.next s).inside = true := by cases s <;> rfl

theorem next_ok {v : PhyloState} {f : Option ℕ} (h : v = .thinking ∧ f = some 0) :
    OwnOk v f (.next s) ∧ HolderOk t i (.next s) := by
  cases s with
  | left => exact ⟨h, trivial⟩
  | right => exact ⟨h, trivial⟩

/-- What a philosopher at `p` may do when it goes to `q`: the rest of the invariant
follows. -/
theorem PhyloInv.move (h : PhyloInv t) (hp : t.pos i = some p)
    (ht : t' = { t with states := S, fork := F, owner := o, pos := update t.pos i (some q) })
    (hself : OwnOk (S i) (F i) q ∧ HolderOk t' i q)
    (hother : ∀ j r, j ≠ i → t.pos j = some r → OwnOk (S j) (F j) r ∧ HolderOk t' j r)
    (howner : (q.inside = true ↔ o = some (.phylo i)) ∧ ∀ a, a ≠ .phylo i → (o = some a ↔ t.owner = some a))
    (hdead : ∀ j, t.pos j = none → S j = t.states j ∧ F j = t.fork j)
    (hfresh : t.main = .newCount → i = t.count → q = .start ∨ q = .thinking)
    (hparted : t.main.parted = true → ∀ x, S x = .eating → t.states x = .eating)
    (hapart : Apart t.seats S) : PhyloInv t' := by
  subst ht
  have hi : (t.pos i).isSome = true := by rw [hp]; rfl
  have hsome : ∀ j, (update t.pos i (some q) j).isSome = (t.pos j).isSome := by
    intro j
    rcases eq_or_ne j i with rfl | hj
    · rw [Function.update_self, hi]
      rfl
    · rw [Function.update_of_ne hj]
  refine ⟨fun j r hr => ?_, ?_, fun j => ?_, fun j r hr => ?_, fun j r hr => ?_, fun j hj hnone => ?_, fun hm => ?_,
    fun hm => ?_, h.busy, fun hm => ?_, hapart⟩
  · rcases eq_or_ne j i with rfl | hj
    · obtain rfl : q = r := by simpa using hr
      exact howner.1
    · have hr' : t.pos j = some r := by simpa [hj] using hr
      rw [h.owned j r hr', howner.2 (.phylo j) (by simpa using hj)]
  · rw [h.ownedMain]
    exact (howner.2 .main (by simp)).symm
  · show (update t.pos i (some q) j).isSome = true ↔ j < t.members
    rw [hsome, h.alive]
  · rcases eq_or_ne j i with rfl | hj
    · obtain rfl : q = r := by simpa using hr
      exact hself.1
    · exact (hother j r hj (by simpa [hj] using hr)).1
  · rcases eq_or_ne j i with rfl | hj
    · obtain rfl : q = r := by simpa using hr
      exact hself.2
    · exact (hother j r hj (by simpa [hj] using hr)).2
  · have hj' : j ≠ i := by
      rintro rfl
      simp at hnone
    have hnone' : t.pos j = none := by simpa [hj'] using hnone
    exact (hdead j hnone').1.trans (h.clear j hj hnone')
  · have hnone : t.pos t.count = none := by
      rw [← Option.not_isSome_iff_eq_none, h.alive]
      rcases hm with hm | hm
      · simp [Table.members, show t.main = _ from hm]
      · simp [Table.members, show t.main = _ from hm]
    exact (hdead _ hnone).2.trans (h.opened hm)
  · show update t.pos i (some q) t.count = _ ∨ update t.pos i (some q) t.count = _
    rcases eq_or_ne t.count i with hc | hc
    · rw [hc, Function.update_self]
      exact (hfresh hm hc.symm).imp (congrArg some) (congrArg some)
    · rw [Function.update_of_ne hc]
      exact h.fresh hm
  · intro hboth
    exact h.parted hm ⟨hparted hm _ hboth.1, hparted hm _ hboth.2⟩

/-- A philosopher inside the critical section stays there or leaves it. -/
theorem PhyloInv.moveInside (h : PhyloInv t) (hp : t.pos i = some p) (hin : p.inside = true)
    (ht : t' = { t with states := S, fork := F, owner := o, pos := update t.pos i (some q) })
    (howner : o = if q.inside then some (.phylo i) else none) (hself : OwnOk (S i) (F i) q ∧ HolderOk t' i q)
    (hother : ∀ j r, j ≠ i → t.pos j = some r → r.inside = false → OwnOk (S j) (F j) r)
    (hdead : ∀ j, t.pos j = none → S j = t.states j ∧ F j = t.fork j) (hapart : Apart t.count S) :
    PhyloInv t' := by
  have ho : t.owner = some (.phylo i) := (h.owned i p hp).mp hin
  obtain ⟨_, hseats, hparted, _, _, hnew⟩ := quiet (h.mainOutside (by rw [ho]; simp))
  apply h.move hp ht hself
  · intro j r hj hr
    have hout := h.outside hr (by rw [ho]; simpa using hj.symm)
    exact ⟨hother j r hj hr hout, holderOk_outside hout⟩
  · rw [howner, ho]
    cases q.inside with
    | true => exact ⟨by simp, fun a ha => by simp⟩
    | false => exact ⟨by simp, fun a ha => by simpa using ha.symm⟩
  · exact hdead
  · intro hm
    exact absurd hm hnew
  · rw [hparted]
    simp
  · rwa [hseats]

theorem PhyloInv.enter (h : PhyloInv t) (hp : t.pos i = some p) (ho : t.owner = none)
    (ht : t' = { t with owner := some (.phylo i), pos := update t.pos i (some q) }) (hin : q.inside = true)
    (hself : OwnOk (t.states i) (t.fork i) q ∧ HolderOk t' i q) : PhyloInv t' := by
  have hmain := h.mainOutside (by rw [ho]; simp)
  apply h.move hp ht hself
  · intro j r hj hr
    exact ⟨h.own j r hr, holderOk_outside (h.outside hr (by rw [ho]; simp))⟩
  · rw [hin, ho]
    exact ⟨by simp, fun a ha => by simpa using ha.symm⟩
  · exact fun j _ => ⟨rfl, rfl⟩
  · intro hm
    exact absurd hm (quiet hmain).2.2.2.2.2
  · exact fun _ x hx => hx
  · exact h.apart

theorem PhyloInv.lt_count (h : PhyloInv t) (hp : t.pos i = some p) (ho : t.owner = some (.phylo i)) : i < t.count := by
  rw [← (quiet (h.mainOutside (by rw [ho]; simp))).1, ← h.alive, hp]
  rfl

theorem PhyloInv.neighbour_there (h : PhyloInv t) (hp : t.pos i = some p) (ho : t.owner = some (.phylo i)) (s : Side) :
    ∃ r, t.pos (neighbour t.count s i) = some r := by
  rw [← Option.isSome_iff_exists, h.alive, (quiet (h.mainOutside (by rw [ho]; simp))).1]
  exact neighbour_lt (h.lt_count hp ho) s

theorem PhyloInv.start (h : PhyloInv t) (hp : t.pos i = some .start) :
    PhyloInv ((t.setState i .thinking).goto i .thinking) := by
  obtain ⟨hs, hf⟩ := h.own i _ hp
  have heat : ∀ x, update t.states i .thinking x = .eating → t.states x = .eating := fun x =>
    update_eating (by decide)
  have hwait : ∀ x, t.states x = .waiting → update t.states i .thinking x = .waiting := by
    intro x hx
    rw [Function.update_of_ne (by rintro rfl; rw [hs] at hx; cases hx), hx]
  have hout := h.owned i .start hp
  apply h.move (S := update t.states i .thinking) (F := t.fork) (o := t.owner) hp rfl
  · exact ⟨⟨Function.update_self .., hf⟩, trivial⟩
  · intro j r hj hr
    refine ⟨by simpa [hj] using h.own j r hr, ?_⟩
    have hold := h.holder j r hr
    cases r with
    | takeTest s =>
      cases s with
      | left => trivial
      | right => exact fun hx => hold (heat _ hx)
    | takeEat => exact fun s hx => hold s (heat _ hx)
    | leaveBeyond s => exact hwait _ hold
    | leaveEat s => exact ⟨hwait _ hold.1, fun hx => hold.2 (heat _ hx)⟩
    | leavePost s =>
      have hne : neighbour t.count s j ≠ i := by
        intro he
        have hpos := hold.1
        rw [he, hp] at hpos
        cases hpos
      exact ⟨(Function.update_of_ne hne _ _).trans hold.1, (Function.update_of_ne hne _ _).trans hold.2.1, hold.2.2⟩
    | _ => trivial
  · exact ⟨hout, fun a _ => Iff.rfl⟩
  · intro j hj
    refine ⟨Function.update_of_ne ?_ _ _, rfl⟩
    rintro rfl
    rw [hp] at hj
    cases hj
  · exact fun _ _ => .inr rfl
  · exact fun _ => heat
  · exact h.apart.mono heat

/-- The token of the fork is taken by its philosopher, which eats by then. -/
theorem PhyloInv.wake (h : PhyloInv t) (hp : t.pos i = some .forkWait) {v : ℕ} (hv : t.fork i = some (v + 1)) :
    PhyloInv ({ t with fork := update t.fork i (some v) }.goto i .eating) := by
  have hown : t.states i = .eating ∧ v = 0 := by
    rcases h.own i _ hp with ⟨_, hf⟩ | ⟨hs, hf | hf⟩
    · rw [hv] at hf
      cases hf
    · rw [hv] at hf
      cases hf
    · rw [hv] at hf
      exact ⟨hs, by simpa using hf⟩
  have hout := h.owned i .forkWait hp
  apply h.move (S := t.states) (F := update t.fork i (some v)) (o := t.owner) hp rfl
  · exact ⟨⟨hown.1, by rw [Function.update_self, hown.2]⟩, trivial⟩
  · intro j r hj hr
    refine ⟨by simpa [hj] using h.own j r hr, ?_⟩
    have hold := h.holder j r hr
    cases r with
    | takeTest s =>
      cases s with
      | left => trivial
      | right => exact hold
    | leavePost s =>
      -- that fork has no token yet
      have hne : neighbour t.count s j ≠ i := by
        intro he
        have hfork := hold.2.2
        rw [he, hv] at hfork
        cases hfork
      exact ⟨(Function.update_of_ne hne _ _).trans hold.1, hold.2.1, (Function.update_of_ne hne _ _).trans hold.2.2⟩
    | takeEat => exact hold
    | leaveBeyond s => exact hold
    | leaveEat s => exact hold
    | _ => trivial
  · exact ⟨hout, fun a _ => Iff.rfl⟩
  · intro j hj
    refine ⟨rfl, Function.update_of_ne ?_ _ _⟩
    rintro rfl
    rw [hp] at hj
    cases hj
  · intro hm hi
    rcases h.fresh hm with hf | hf <;> rw [← hi, hp] at hf <;> cases hf
  · exact fun _ x hx => hx
  · exact h.apart

theorem PhyloInv.walk (h : PhyloInv t) (hp : t.pos i = some p) (hin : p.inside = true) (hq : q.inside = true)
    (hself : OwnOk (t.states i) (t.fork i) q ∧ HolderOk (t.goto i q) i q) : PhyloInv (t.goto i q) := by
  apply h.moveInside (S := t.states) (F := t.fork) (o := t.owner) hp hin rfl
  · rw [hq, (h.owned i p hp).mp hin]
    rfl
  · exact hself
  · exact fun j r _ hr _ => h.own j r hr
  · exact fun j _ => ⟨rfl, rfl⟩
  · rw [← (quiet (h.mainOutside (by rw [(h.owned i p hp).mp hin]; simp))).2.1]
    exact h.apart

theorem PhyloInv.setOwn (h : PhyloInv t) (hp : t.pos i = some p) (hin : p.inside = true) (hq : q.inside = true)
    {v : PhyloState} (hself : OwnOk v (t.fork i) q ∧ HolderOk ((t.setState i v).goto i q) i q)
    (hapart : Apart t.count (update t.states i v)) : PhyloInv ((t.setState i v).goto i q) := by
  apply h.moveInside (S := update t.states i v) (F := t.fork) (o := t.owner) hp hin rfl
  · rw [hq]
    exact (h.owned i p hp).mp hin
  · rw [Function.update_self]
    exact hself
  · intro j r hj hr _
    rw [Function.update_of_ne hj]
    exact h.own j r hr
  · intro j hj
    refine ⟨Function.update_of_ne ?_ _ _, rfl⟩
    rintro rfl
    rw [hp] at hj
    cases hj
  · exact hapart

theorem PhyloInv.leave (h : PhyloInv t) (hp : t.pos i = some p) (hin : p.inside = true) (hq : q.inside = false)
    (hself : OwnOk (t.states i) (t.fork i) q) : PhyloInv (t.release.goto i q) := by
  apply h.moveInside (S := t.states) (F := t.fork) (o := none) hp hin rfl
  · rw [hq]
    rfl
  · exact ⟨hself, holderOk_outside hq⟩
  · exact fun j r _ hr _ => h.own j r hr
  · exact fun j _ => ⟨rfl, rfl⟩
  · rw [← (quiet (h.mainOutside (by rw [(h.owned i p hp).mp hin]; simp))).2.1]
    exact h.apart

theorem PhyloInv.takePost (h : PhyloInv t) (hp : t.pos i = some .takePost) :
    PhyloInv ({ t with fork := post t.fork i }.goto i .takeDone) := by
  have ho : t.owner = some (.phylo i) := (h.owned i _ hp).mp rfl
  obtain ⟨hs, hf⟩ := h.own i _ hp
  apply h.moveInside (S := t.states) (F := post t.fork i) (o := t.owner) hp rfl rfl
  · exact ho
  · refine ⟨.inr ⟨hs, ?_⟩, trivial⟩
    rw [post, Function.update_self, hf]
    rfl
  · intro j r hj hr _
    rw [post, Function.update_of_ne hj]
    exact h.own j r hr
  · intro j hj
    refine ⟨rfl, Function.update_of_ne ?_ _ _⟩
    rintro rfl
    rw [hp] at hj
    cases hj
  · rw [← (quiet (h.mainOutside (by rw [ho]; simp))).2.1]
    exact h.apart

/-- A neighbour that waits is made a diner: it stands at its fork. -/
theorem PhyloInv.leaveEat (h : PhyloInv t) (hp : t.pos i = some (.leaveEat s)) :
    PhyloInv ((t.setState (neighbour t.count s i) .eating).goto i (.leavePost s)) := by
  have ho : t.owner = some (.phylo i) := (h.owned i _ hp).mp rfl
  have hlt := h.lt_count hp ho
  obtain ⟨hs, hf⟩ := h.own i _ hp
  obtain ⟨hw, hbeyond⟩ := h.holder i _ hp
  obtain ⟨r, hr⟩ := h.neighbour_there hp ho s
  have hne : neighbour t.count s i ≠ i := by
    intro he
    rw [he, hs] at hw
    cases hw
  have hstand := h.waits hr (h.outside hr (by rw [ho]; simpa using hne.symm)) hw
  rw [hstand.1] at hr
  apply h.moveInside (S := update t.states (neighbour t.count s i) .eating) (F := t.fork) (o := t.owner) hp rfl rfl
  · exact ho
  · refine ⟨⟨(Function.update_of_ne hne.symm _ _).trans hs, hf⟩, ?_, Function.update_self .., hstand.2⟩
    exact (Function.update_of_ne hne _ _).trans hr
  · intro j r' hj hr' _
    rcases eq_or_ne j (neighbour t.count s i) with rfl | hj'
    · obtain rfl : Pos.forkWait = r' := by simpa [hr] using hr'
      exact .inr ⟨Function.update_self .., .inl hstand.2⟩
    · rw [Function.update_of_ne hj']
      exact h.own j r' hr'
  · intro j hj
    refine ⟨Function.update_of_ne ?_ _ _, rfl⟩
    rintro rfl
    rw [hr] at hj
    cases hj
  · apply Apart.eat
    · rw [← (quiet (h.mainOutside (by rw [ho]; simp))).2.1]
      exact h.apart
    · exact neighbour_lt hlt s
    · intro u
      rcases Side.eq_or_other s u with rfl | rfl
      · exact hbeyond
      · rw [neighbour_other hlt s, hs]
        decide

theorem PhyloInv.leavePost (h : PhyloInv t) (hp : t.pos i = some (.leavePost s)) :
    PhyloInv ({ t with fork := post t.fork (neighbour t.count s i) }.goto i (.next s)) := by
  have ho : t.owner = some (.phylo i) := (h.owned i _ hp).mp rfl
  obtain ⟨hs, hf⟩ := h.own i _ hp
  obtain ⟨hpos, heat, hfork⟩ := h.holder i _ hp
  have hne : i ≠ neighbour t.count s i := by
    intro he
    rw [← he, hs] at heat
    cases heat
  apply h.moveInside (S := t.states) (F := post t.fork (neighbour t.count s i)) (o := t.owner) hp rfl rfl
  · rw [Pos.next_inside]
    exact ho
  · rw [post, Function.update_of_ne hne]
    exact next_ok ⟨hs, hf⟩
  · intro j r hj hr _
    rcases eq_or_ne j (neighbour t.count s i) with rfl | hj'
    · obtain rfl : Pos.forkWait = r := by simpa [hpos] using hr
      refine .inr ⟨heat, .inr ?_⟩
      rw [post, Function.update_self, hfork]
      rfl
    · rw [post, Function.update_of_ne hj']
      exact h.own j r hr
  · intro j hj
    refine ⟨rfl, Function.update_of_ne ?_ _ _⟩
    rintro rfl
    rw [hpos] at hj
    cases hj
  · rw [← (quiet (h.mainOutside (by rw [ho]; simp))).2.1]
    exact h.apart

theorem PhyloInv.stepPhylo (h : PhyloInv t) (hp : t.pos i = some p) (hstep : t.stepPhylo i p = some t') :
    PhyloInv t' := by
  have hown := h.own i p hp
  have hhold := h.holder i p hp
  have hapart : p.inside = true → Apart t.count t.states := by
    intro hin
    rw [← (quiet (h.mainOutside (by rw [(h.owned i p hp).mp hin]; simp))).2.1]
    exact h.apart
  cases p with
  | start =>
    cases hstep
    exact h.start hp
  | thinking =>
    obtain ⟨ho, rfl⟩ := acquire_goto hstep
    exact h.enter hp ho rfl rfl ⟨hown, trivial⟩
  | takeSet =>
    cases hstep
    refine h.setOwn hp rfl rfl ⟨⟨rfl, hown.2⟩, trivial⟩ ?_
    exact (hapart rfl).mono fun x => update_eating (by decide)
  | takeTest s =>
    simp only [Table.stepPhylo] at hstep
    split at hstep
    · cases hstep
      exact h.walk hp rfl rfl ⟨.inl hown, trivial⟩
    · rename_i hnot
      cases hstep
      cases s with
      | left => exact h.walk hp rfl rfl ⟨hown, hnot⟩
      | right =>
        refine h.walk hp rfl rfl ⟨hown, fun s => ?_⟩
        cases s with
        | left => exact hhold
        | right => exact hnot
  | takeEat =>
    cases hstep
    refine h.setOwn hp rfl rfl ⟨⟨rfl, hown.2⟩, trivial⟩ ?_
    exact (hapart rfl).eat (h.lt_count hp ((h.owned i _ hp).mp rfl)) hhold
  | takePost =>
    cases hstep
    exact h.takePost hp
  | takeDone =>
    cases hstep
    apply h.leave hp rfl rfl
    rcases hown with hw | ⟨hs, hf⟩
    · exact .inl hw
    · exact .inr ⟨hs, .inr hf⟩
  | forkWait =>
    simp only [Table.stepPhylo] at hstep
    split at hstep
    · rename_i hnone
      rcases hown with ⟨_, hf⟩ | ⟨_, hf | hf⟩ <;> rw [hnone] at hf <;> cases hf
    · cases hstep
    · rename_i v hv
      cases hstep
      exact h.wake hp hv
  | eating =>
    obtain ⟨ho, rfl⟩ := acquire_goto hstep
    exact h.enter hp ho rfl rfl ⟨hown, trivial⟩
  | leaveSet =>
    cases hstep
    refine h.setOwn hp rfl rfl ⟨⟨rfl, hown.2⟩, trivial⟩ ?_
    exact (hapart rfl).mono fun x => update_eating (by decide)
  | leaveTest s =>
    simp only [Table.stepPhylo] at hstep
    split at hstep
    · rename_i hw
      cases hstep
      exact h.walk hp rfl rfl ⟨hown, hw⟩
    · cases hstep
      exact h.walk hp rfl (Pos.next_inside s) (next_ok hown)
  | leaveBeyond s =>
    simp only [Table.stepPhylo] at hstep
    split at hstep
    · cases hstep
      exact h.walk hp rfl (Pos.next_inside s) (next_ok hown)
    · rename_i hnot
      cases hstep
      exact h.walk hp rfl rfl ⟨hown, hhold, hnot⟩
  | leaveEat s =>
    cases hstep
    exact h.leaveEat hp
  | leavePost s =>
    cases hstep
    exact h.leavePost hp
  | leaveDone =>
    cases hstep
    exact h.leave hp rfl rfl hown

end BareKernel.Phylo
