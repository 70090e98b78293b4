import Mathlib.Algebra.Order.Group.Multiset
import Mathlib.Data.Multiset.AddSub

/-! A ledger of the blocks that an allocator hands out and takes back, each entry on
behalf of somebody. Who settles has given back every block he got, once, and only
blocks that he held; then the blocks in use are those that the others account for. -/

namespace BareKernel.Links

/-- What is asked of an allocator, and served. -/
inductive Request (β : Type*) where
  | malloc (b : β)
  | free (b : β)
deriving DecidableEq

variable {ω β : Type*} {o : ω} {b : β} {rs ss : List (Request β)} {es fs : List (ω × Request β)}
  {before mid after held held' held'' : Multiset β}

/-- The blocks handed out. -/
def obtained : List (Request β) → Multiset β
  | [] => 0
  | .malloc b :: rs => b ::ₘ obtained rs
  | .free _ :: rs => obtained rs

/-- The blocks taken back. -/
def returned : List (Request β) → Multiset β
  | [] => 0
  | .malloc _ :: rs => returned rs
  | .free b :: rs => b ::ₘ returned rs

/-- The requests, each on behalf of the owner. -/
def onBehalf (o : ω) (rs : List (Request β)) : List (ω × Request β) := rs.map (o, ·)

theorem obtained_append (rs ss : List (Request β)) : obtained (rs ++ ss) = obtained rs + obtained ss := by
  induction rs with
  | nil => simp [obtained]
  | cons r rs ih =>
    cases r with
    | malloc b => simp [obtained, ih]
    | free b => simp [obtained, ih]

theorem returned_append (rs ss : List (Request β)) : returned (rs ++ ss) = returned rs + returned ss := by
  induction rs with
  | nil => simp [returned]
  | cons r rs ih =>
    cases r with
    | malloc b => simp [returned, ih]
    | free b => simp [returned, ih]

/-! ### The blocks in use -/

/-- The blocks in use before and after the requests. -/
def Booked (before after : Multiset β) (rs : List (Request β)) : Prop :=
  after + returned rs = before + obtained rs

theorem Booked.nil (before : Multiset β) : Booked before before [] := rfl

theorem Booked.malloc (b : β) (before : Multiset β) : Booked before (b ::ₘ before) [.malloc b] := by
  show b ::ₘ before + 0 = before + b ::ₘ 0
  rw [Multiset.add_cons, add_zero, add_zero]

theorem Booked.free (b : β) (after : Multiset β) : Booked (b ::ₘ after) after [.free b] := by
  show after + b ::ₘ 0 = b ::ₘ after + 0
  rw [Multiset.add_cons, add_zero, add_zero]

theorem Booked.append (h : Booked before mid rs) (h' : Booked mid after ss) : Booked before after (rs ++ ss) := by
  unfold Booked at *
  rw [returned_append, obtained_append]
  calc after + (returned rs + returned ss) = after + returned ss + returned rs := by
        rw [add_comm (returned rs), add_assoc]
    _ = mid + obtained ss + returned rs := by rw [h']
    _ = mid + returned rs + obtained ss := add_right_comm ..
    _ = before + (obtained rs + obtained ss) := by rw [h, add_assoc]

theorem Booked.frees (bs : List β) (after : Multiset β) : Booked ((bs : Multiset β) + after) after (bs.map .free) := by
  induction bs with
  | nil => exact (zero_add after).symm ▸ .nil after
  | cons b bs ih =>
    rw [← Multiset.cons_coe, Multiset.cons_add]
    exact (Booked.free b _).append ih

/-! ### Settling -/

section Settle

variable [DecidableEq β]

/-- The blocks held after a request. Nobody gets a block that he holds, or gives back
one that he does not hold. -/
def Request.post (held : Multiset β) : Request β → Option (Multiset β)
  | .malloc b => if b ∈ held then none else some (b ::ₘ held)
  | .free b => if b ∈ held then some (held.erase b) else none

/-- The blocks held after a list of requests. -/
def settle (held : Multiset β) : List (Request β) → Option (Multiset β)
  | [] => some held
  | r :: rs => (r.post held).bind fun held' => settle held' rs

theorem settle_append (held : Multiset β) (rs ss : List (Request β)) :
    settle held (rs ++ ss) = (settle held rs).bind fun held' => settle held' ss := by
  induction rs generalizing held with
  | nil => rfl
  | cons r rs ih =>
    simp only [List.cons_append, settle, Option.bind_assoc]
    congr 1
    funext held'
    exact ih held'

/-- The blocks held are booked like the blocks in use. -/
theorem settle_booked (h : settle held rs = some held') : Booked held held' rs := by
  induction rs generalizing held with
  | nil =>
    obtain rfl := Option.some.inj h
    exact .nil held
  | cons r rs ih =>
    obtain ⟨held₁, hpost, hrest⟩ := Option.bind_eq_some_iff.mp h
    have hbooked := ih hrest
    unfold Booked at *
    cases r with
    | malloc b =>
      simp only [Request.post] at hpost
      split at hpost
      · cases hpost
      · obtain rfl := Option.some.inj hpost
        rw [Multiset.cons_add] at hbooked
        simpa [obtained, returned] using hbooked
    | free b =>
      simp only [Request.post] at hpost
      split at hpost
      · rename_i hb
        obtain rfl := Option.some.inj hpost
        rw [returned, Multiset.add_cons, hbooked, ← Multiset.cons_add, Multiset.cons_erase hb]
        rfl
      · cases hpost

/-- Who settles has given back every block as often as he got it. -/
theorem returned_of_settle (h : settle 0 rs = some 0) : returned rs = obtained rs := by
  have hbooked := settle_booked h
  unfold Booked at hbooked
  simpa using hbooked

/-- Blocks that are held are given back one after the other. -/
theorem settle_frees (bs : List β) (held : Multiset β) :
    settle ((bs : Multiset β) + held) (bs.map .free) = some held := by
  induction bs with
  | nil => simp [settle]
  | cons b bs ih =>
    have hb : b ∈ (↑(b :: bs) : Multiset β) + held := by simp
    have herase : ((↑(b :: bs) : Multiset β) + held).erase b = ↑bs + held := by
      rw [← Multiset.cons_coe, Multiset.cons_add, Multiset.erase_cons_head]
    simp only [List.map_cons, settle, Request.post, if_pos hb, Option.bind_some, herase, ih]

end Settle

/-! ### Owners -/

section Owners

variable [DecidableEq ω]

/-- The requests on behalf of the owner. -/
def own (o : ω) (es : List (ω × Request β)) : List (Request β) := (es.filter fun e => e.1 = o).map Prod.snd

/-- The requests on behalf of the others. -/
def others (o : ω) (es : List (ω × Request β)) : List (Request β) := (es.filter fun e => e.1 ≠ o).map Prod.snd

theorem own_append (o : ω) (es fs : List (ω × Request β)) : own o (es ++ fs) = own o es ++ own o fs := by
  simp [own]

theorem own_self (o : ω) (rs : List (Request β)) : own o (onBehalf o rs) = rs := by
  induction rs with
  | nil => rfl
  | cons r rs ih => simp_all [own, onBehalf]

theorem own_other {q : ω} (hq : q ≠ o) (rs : List (Request β)) : own o (onBehalf q rs) = [] := by
  simp [own, onBehalf, hq]

omit [DecidableEq ω] in
theorem map_onBehalf (o : ω) (rs : List (Request β)) : (onBehalf o rs).map Prod.snd = rs := by
  simp [onBehalf]

theorem obtained_split (o : ω) (es : List (ω × Request β)) :
    obtained (es.map Prod.snd) = obtained (own o es) + obtained (others o es) := by
  induction es with
  | nil => rfl
  | cons e es ih =>
    obtain ⟨q, r⟩ := e
    by_cases hq : q = o
    · cases r <;> simp_all [own, others, obtained]
    · cases r <;> simp_all [own, others, obtained]

theorem returned_split (o : ω) (es : List (ω × Request β)) :
    returned (es.map Prod.snd) = returned (own o es) + returned (others o es) := by
  induction es with
  | nil => rfl
  | cons e es ih =>
    obtain ⟨q, r⟩ := e
    by_cases hq : q = o
    · cases r <;> simp_all [own, others, returned]
    · cases r <;> simp_all [own, others, returned]

variable [DecidableEq β]

/-- When one owner has settled, the blocks in use are booked by the requests of the others. -/
theorem Booked.others (h : Booked before after (es.map Prod.snd)) (hown : settle 0 (own o es) = some 0) :
    Booked before after (others o es) := by
  unfold Booked at *
  rw [returned_split o, obtained_split o, returned_of_settle hown, add_left_comm, add_left_comm before] at h
  exact add_left_cancel h

/-- The account of one owner over a list of entries: what he holds, which is among the
blocks in use, and what is in use at all. -/
structure Account (o : ω) (before after held held' : Multiset β) (es : List (ω × Request β)) : Prop where
  settles : settle held (own o es) = some held'
  booked : Booked before after (es.map Prod.snd)
  le : held' ≤ after

theorem Account.nil (h : held ≤ before) : Account o before before held held [] := ⟨rfl, .nil before, h⟩

theorem Account.trans (h : Account o before mid held held' es) (h' : Account o mid after held' held'' fs) :
    Account o before after held held'' (es ++ fs) := by
  refine ⟨?_, ?_, h'.le⟩
  · rw [own_append, settle_append, h.settles]
    exact h'.settles
  · rw [List.map_append]
    exact h.booked.append h'.booked

/-- The owner gets a block that is not in use. -/
theorem Account.malloc (hle : held ≤ before) (hb : b ∉ before) :
    Account o before (b ::ₘ before) held (b ::ₘ held) (onBehalf o [.malloc b]) := by
  have hheld : b ∉ held := fun hm => hb (Multiset.mem_of_le hle hm)
  refine ⟨?_, ?_, Multiset.cons_le_cons b hle⟩
  · rw [own_self]
    simp [settle, Request.post, hheld]
  · rw [map_onBehalf]
    exact .malloc b before

/-- The owner gives back blocks that he holds. -/
theorem Account.frees (bs : List β) (hle : held ≤ before) :
    Account o ((bs : Multiset β) + before) before ((bs : Multiset β) + held) held (onBehalf o (bs.map .free)) := by
  refine ⟨?_, ?_, hle⟩
  · rw [own_self]
    exact settle_frees bs held
  · rw [map_onBehalf]
    exact .frees bs before

/-- Somebody else gets a block. -/
theorem Account.mallocOther {q : ω} (hq : q ≠ o) (b : β) (hle : held ≤ before) :
    Account o before (b ::ₘ before) held held (onBehalf q [.malloc b]) := by
  refine ⟨?_, ?_, hle.trans (Multiset.le_cons_self before b)⟩
  · rw [own_other hq]
    rfl
  · rw [map_onBehalf]
    exact .malloc b before

/-- Somebody else gives back a block. -/
theorem Account.freeOther {q : ω} (hq : q ≠ o) (hle : held ≤ b ::ₘ before) (hb : b ∉ held) :
    Account o (b ::ₘ before) before held held (onBehalf q [.free b]) := by
  refine ⟨?_, ?_, (Multiset.le_cons_of_notMem hb).mp hle⟩
  · rw [own_other hq]
    rfl
  · rw [map_onBehalf]
    exact .free b before

end Owners

end BareKernel.Links
