import BareKernel.Kernel.Calls
import BareKernel.Kernel.SleepList
import BareKernel.Process.TableEffect

/-! The order of the sleep list. It is sorted by the ticks at which its entries are due,
and entries that are due at the same tick stand in the order in which they were added. A
run of the tick handler takes entries out in this order. -/

namespace BareKernel

open Function (update)
open Process Links

variable {k k' k₁ : Kernel} {A B E : List ℕ} {e now fuel p wake : ℕ}

/-! ### The calls of the handler -/

/-- What the handler calls while it goes through the list. -/
inductive TickCall where
  | unblock (pid : ℤ)
  | free (e : ℕ)
deriving DecidableEq

def TickCall.unblocked : TickCall → Option ℤ
  | .unblock pid => some pid
  | .free _ => none

def TickCall.freed : TickCall → Option ℕ
  | .unblock _ => none
  | .free e => some e

namespace Kernel

/-- The pid of the process of an entry. -/
def entryPid (k : Kernel) (e : ℕ) : ℤ := k.pid (k.entryProc e)

/-- The pid of the entry's process is that of a process of the table. -/
def Present (k : Kernel) (e : ℕ) : Prop :=
  ∃ i < maxProcesses, k.processesList i ≠ 0 ∧ k.pid (k.processesList i) = k.entryPid e

instance (k : Kernel) (e : ℕ) : Decidable (k.Present e) := inferInstanceAs (Decidable (∃ i < maxProcesses, _))

/-- The loop of the handler, with the calls that it makes. -/
def sleepTickCalls (now : ℕ) : ℕ → ℕ → ℕ → Kernel → List TickCall × Option Kernel
  | 0, _, _, _ => ([], none)
  | fuel + 1, prev, cur, k =>
    let next := k.entryNext cur
    if cur = 0 then ([], some k)
    else if foundprocess k.toCore (k.pid (k.entryProc cur)) = none then
      let r := sleepTickCalls now fuel prev next ((k.unlinkEntry prev next).freeEntry cur)
      (.free cur :: r.1, r.2)
    else if k.wakeTick cur ≤ now then
      match (k.unlinkEntry prev next).wakeEntry cur with
      | none => ([.unblock (k.entryPid cur)], none)
      | some k₁ =>
        let r := sleepTickCalls now fuel prev next (k₁.freeEntry cur)
        (.unblock (k.entryPid cur) :: .free cur :: r.1, r.2)
    else sleepTickCalls now fuel cur next k

end Kernel

/-- The calls are those of the loop itself. -/
theorem sleepTickCalls_snd (now fuel prev cur : ℕ) (k : Kernel) :
    (Kernel.sleepTickCalls now fuel prev cur k).2 = Kernel.sleepTick now fuel prev cur k := by
  induction fuel generalizing prev cur k with
  | zero => rfl
  | succ fuel ih =>
    simp only [Kernel.sleepTickCalls, Kernel.sleepTick]
    split
    · rfl
    · split
      · exact ih ..
      · split
        · cases (k.unlinkEntry prev (k.entryNext cur)).wakeEntry cur with
          | none => rfl
          | some k₁ => exact ih ..
        · exact ih ..

/-- The calls for one entry. -/
def Kernel.tickCalls (k : Kernel) (now e : ℕ) : List TickCall :=
  if k.Present e then
    if k.wakeTick e ≤ now then [.unblock (k.entryPid e), .free e] else []
  else [.free e]

theorem foundprocess_iff {pid : ℤ} : foundprocess k.toCore pid ≠ none ↔
    ∃ i < maxProcesses, k.processesList i ≠ 0 ∧ k.pid (k.processesList i) = pid := by
  constructor
  · intro h
    obtain ⟨i, hi⟩ := Option.ne_none_iff_exists'.mp h
    obtain ⟨hlt, hin, hpid⟩ := foundprocess_some hi
    exact ⟨i, hlt, hin.1, hpid⟩
  · rintro ⟨i, hi, h0, hpid⟩ hnone
    exact foundprocess_none hnone ⟨h0, i, hi, rfl⟩ hpid

theorem stays_iff : Stays k now e ↔ k.Present e ∧ now < k.wakeTick e := and_congr_left fun _ => foundprocess_iff

/-- The table, the entries and their ticks are the same. -/
structure SameEntryLookups (k k' : Kernel) : Prop where
  pid : k'.pid = k.pid
  processesList : k'.processesList = k.processesList
  entryProc : k'.entryProc = k.entryProc
  wakeTick : k'.wakeTick = k.wakeTick

theorem SameEntryLookups.refl (k : Kernel) : SameEntryLookups k k := ⟨rfl, rfl, rfl, rfl⟩

theorem SameEntryLookups.trans (h : SameEntryLookups k k₁) (h' : SameEntryLookups k₁ k') : SameEntryLookups k k' :=
  ⟨h'.pid.trans h.pid, h'.processesList.trans h.processesList, h'.entryProc.trans h.entryProc,
    h'.wakeTick.trans h.wakeTick⟩

theorem SameEntryLookups.entryPid (h : SameEntryLookups k k') : k'.entryPid = k.entryPid := by
  funext e
  rw [Kernel.entryPid, h.pid, h.entryProc, Kernel.entryPid]

theorem SameEntryLookups.present (h : SameEntryLookups k k') : k'.Present e ↔ k.Present e := by
  unfold Kernel.Present
  rw [h.processesList, h.pid, h.entryPid]

theorem SameEntryLookups.stays (h : SameEntryLookups k k') : Stays k' now e ↔ Stays k now e := by
  rw [stays_iff, stays_iff, h.present, h.wakeTick]

theorem SameEntryLookups.tickCalls (h : SameEntryLookups k k') : k'.tickCalls now e = k.tickCalls now e := by
  unfold Kernel.tickCalls
  simp only [h.present, h.wakeTick, h.entryPid]

/-! ### A run of the handler -/

/-- The entries `B` behind `A` have been gone through. -/
structure Ticked (k k' : Kernel) (now : ℕ) (A B : List ℕ) : Prop where
  same : SameEntryLookups k k'
  sleepers : Sleepers k' (A ++ B.filter fun e => Stays k now e)
  live : k'.live .sleepEntry = (k.live .sleepEntry).diff (B.filter fun e => ¬Stays k now e)

/-- The handler stops in the `unblock_process` for an entry, which does not return. -/
def StopsAt (k : Kernel) (now : ℕ) (B : List ℕ) (r : List TickCall × Option Kernel) : Prop :=
  ∃ B₁ e B₂, B = B₁ ++ e :: B₂ ∧ k.Present e ∧ k.wakeTick e ≤ now ∧
    (∃ c : Core, c.pid = k.pid ∧ c.processesList = k.processesList ∧ unblockProcess c (k.entryPid e) = none) ∧
    r = (B₁.flatMap (k.tickCalls now) ++ [.unblock (k.entryPid e)], none)

/-- The handler goes through the entries `B`, or it stops. -/
def TickEnds (k : Kernel) (now : ℕ) (A B : List ℕ) (r : List TickCall × Option Kernel) : Prop :=
  (∃ k', r = (B.flatMap (k.tickCalls now), some k') ∧ Ticked k k' now A B) ∨ StopsAt k now B r

/-- An entry is taken out, and the handler goes on. -/
theorem TickEnds.out {r : List TickCall × Option Kernel} (h : TickEnds k₁ now A B r) (hsame : SameEntryLookups k k₁)
    (hlive : k₁.live .sleepEntry = (k.live .sleepEntry).erase e) (hgo : ¬Stays k now e) :
    TickEnds k now A (e :: B) (k.tickCalls now e ++ r.1, r.2) := by
  have hcalls : k₁.tickCalls now = k.tickCalls now := by
    funext x
    exact hsame.tickCalls
  rcases h with ⟨k', rfl, hsame', hsleep, hlive'⟩ | ⟨B₁, x, B₂, rfl, hpresent, hdue, ⟨c, hpid, hlist, hun⟩, rfl⟩
  · refine Or.inl ⟨k', ?_, hsame.trans hsame', ?_, ?_⟩
    · rw [List.flatMap_cons, hcalls]
    · rw [List.filter_cons_of_neg (by simpa using hgo)]
      simpa only [hsame.stays] using hsleep
    · rw [List.filter_cons_of_pos (by simpa using hgo), List.diff_cons, ← hlive, hlive']
      simp only [hsame.stays]
  · refine Or.inr ⟨e :: B₁, x, B₂, rfl, hsame.present.mp hpresent, hsame.wakeTick ▸ hdue,
      ⟨c, hpid.trans hsame.pid, hlist.trans hsame.processesList, hsame.entryPid ▸ hun⟩, ?_⟩
    rw [List.flatMap_cons, hcalls, hsame.entryPid, List.append_assoc]

/-- An entry stays. -/
theorem TickEnds.stay {r : List TickCall × Option Kernel} (h : TickEnds k now (A ++ [e]) B r) (hstay : Stays k now e) :
    TickEnds k now A (e :: B) r := by
  obtain ⟨hpresent, hlater⟩ := stays_iff.mp hstay
  have hnone : k.tickCalls now e = [] := by
    rw [Kernel.tickCalls, if_pos hpresent, if_neg (by omega)]
  rcases h with ⟨k', rfl, hsame, hsleep, hlive⟩ | ⟨B₁, x, B₂, rfl, hin, hdue, hun, rfl⟩
  · refine Or.inl ⟨k', ?_, hsame, ?_, ?_⟩
    · rw [List.flatMap_cons, hnone, List.nil_append]
    · rw [List.filter_cons_of_pos (by simpa using hstay)]
      simpa using hsleep
    · rw [List.filter_cons_of_neg (by simpa using hstay)]
      exact hlive
  · refine Or.inr ⟨e :: B₁, x, B₂, rfl, hin, hdue, hun, ?_⟩
    rw [List.flatMap_cons, hnone, List.nil_append]

theorem unlinkEntry_same (k : Kernel) (prev next : ℕ) : SameEntryLookups k (k.unlinkEntry prev next) :=
  ⟨rfl, rfl, rfl, rfl⟩

theorem freeEntry_same (k : Kernel) (e : ℕ) : SameEntryLookups k (k.freeEntry e) := ⟨rfl, rfl, rfl, rfl⟩

theorem freeEntry_live (k : Kernel) (e : ℕ) : (k.freeEntry e).live .sleepEntry = (k.live .sleepEntry).erase e := by
  simp only [Kernel.freeEntry, mmFree, Function.update_self]

/-- Waking a process leaves the table and the list alone. -/
theorem wakeEntry_same (h : k.wakeEntry e = some k') : SameEntryLookups k k' ∧ k'.toSleepQueue = k.toSleepQueue ∧
    k'.live .sleepEntry = k.live .sleepEntry := by
  obtain ⟨⟨v, c⟩, hun, hret⟩ := Option.bind_eq_some_iff.mp h
  obtain rfl := Option.some.inj hret
  rcases unblockProcess_cases hun with rfl | ⟨i, -, -, hedit⟩
  · exact ⟨.refl k, rfl, rfl⟩
  · have hpid : c.pid = k.pid := by rw [hedit.records]
    exact ⟨⟨hpid, hedit.processesList, rfl, rfl⟩, rfl, hedit.live _ (by simp)⟩

/-- The handler goes through the list from any place on. -/
theorem sleepTickCalls_spec (h : Sleepers k (A ++ B)) (hfuel : B.length < fuel) :
    TickEnds k now A B (Kernel.sleepTickCalls now fuel (A.getLast?.getD 0) (B.head?.getD 0) k) := by
  induction B generalizing k A fuel with
  | nil =>
    obtain ⟨fuel, rfl⟩ := Nat.exists_eq_succ_of_ne_zero (Nat.ne_of_gt hfuel)
    exact Or.inl ⟨k, by simp [Kernel.sleepTickCalls], .refl k, by simpa using h, by simp⟩
  | cons e B ih =>
    obtain ⟨fuel, rfl⟩ := Nat.exists_eq_succ_of_ne_zero (Nat.ne_of_gt (Nat.zero_lt_of_lt hfuel))
    have hlen : B.length < fuel := by
      simp only [List.length_cons] at hfuel
      omega
    have he0 : e ≠ 0 := by
      rintro rfl
      exact h.chain.null_notMem (by simp)
    have hnext : k.entryNext e = B.head?.getD 0 := h.chain.next_eq
    simp only [List.head?_cons, Option.getD_some, Kernel.sleepTickCalls, he0, if_false]
    have hpresent : foundprocess k.toCore (k.pid (k.entryProc e)) = none ↔ ¬k.Present e := by
      rw [← not_iff_not, not_not]
      exact foundprocess_iff
    by_cases horphan : k.Present e
    · have hin : ¬foundprocess k.toCore (k.pid (k.entryProc e)) = none := by simpa [hpresent] using horphan
      simp only [hin, if_false]
      by_cases hdue : k.wakeTick e ≤ now
      · simp only [hdue, if_true]
        have hgo : ¬Stays k now e := fun hs => absurd hs.2 (by omega)
        have hcalls : k.tickCalls now e = [.unblock (k.entryPid e), .free e] := by
          rw [Kernel.tickCalls, if_pos horphan, if_pos hdue]
        cases hwake : (k.unlinkEntry (A.getLast?.getD 0) (k.entryNext e)).wakeEntry e with
        | none =>
          have hun : unblockProcess k.toCore (k.entryPid e) = none := by
            cases h : unblockProcess k.toCore (k.entryPid e) with
            | none => rfl
            | some r =>
              have hwoke : (k.unlinkEntry (A.getLast?.getD 0) (k.entryNext e)).wakeEntry e =
                  some { k.unlinkEntry (A.getLast?.getD 0) (k.entryNext e) with toCore := r.2 } :=
                Option.bind_eq_some_iff.mpr ⟨r, h, rfl⟩
              rw [hwake] at hwoke
              cases hwoke
          exact Or.inr ⟨[], e, B, rfl, horphan, hdue, ⟨k.toCore, rfl, rfl, hun⟩, rfl⟩
        | some k₁ =>
          obtain ⟨hsame, hqueue, hlive⟩ := wakeEntry_same hwake
          have hsleep : Sleepers (k₁.freeEntry e) (A ++ B) := by
            refine h.unlink.congr hqueue ?_
            rw [freeEntry_live, freeEntry_live, hlive]
          have hsame' : SameEntryLookups k (k₁.freeEntry e) :=
            ((unlinkEntry_same k _ _).trans hsame).trans (freeEntry_same k₁ e)
          have hfreed : (k₁.freeEntry e).live .sleepEntry = (k.live .sleepEntry).erase e := by
            rw [freeEntry_live, hlive]
            rfl
          have hrest := (ih hsleep hlen).out hsame' hfreed hgo
          rw [hcalls] at hrest
          rw [hnext]
          exact hrest
      · simp only [hdue, if_false]
        have hstay : Stays k now e := stays_iff.mpr ⟨horphan, by omega⟩
        have hcons : Sleepers k ((A ++ [e]) ++ B) := by simpa using h
        have hrest := (ih hcons hlen).stay hstay
        rw [hnext]
        simpa using hrest
    · simp only [hpresent.mpr horphan, if_true]
      have hgo : ¬Stays k now e := fun hs => horphan (stays_iff.mp hs).1
      have hcalls : k.tickCalls now e = [.free e] := by
        rw [Kernel.tickCalls, if_neg horphan]
      have hsame := (unlinkEntry_same k (A.getLast?.getD 0) (k.entryNext e)).trans (freeEntry_same _ e)
      have hrest := (ih h.unlink hlen).out hsame (freeEntry_live _ e) hgo
      rw [hcalls] at hrest
      rw [hnext] at hrest ⊢
      exact hrest

/-! ### What a run of the handler has done -/

/-- What the handler has done to the list `E` when it returns. -/
structure HandlerDone (k k' : Kernel) (now : ℕ) (E : List ℕ) (calls : List TickCall) : Prop where
  left : Sleepers k' (E.filter fun e => k.Present e ∧ now < k.wakeTick e)
  same : k'.entryProc = k.entryProc ∧ k'.wakeTick = k.wakeTick
  freed : calls.filterMap TickCall.freed = E.filter fun e => ¬(k.Present e ∧ now < k.wakeTick e)
  blocks : k'.live .sleepEntry = (k.live .sleepEntry).diff (E.filter fun e => ¬(k.Present e ∧ now < k.wakeTick e))
  unblocked : calls.filterMap TickCall.unblocked = (E.filter fun e => k.Present e ∧ k.wakeTick e ≤ now).map k.entryPid

theorem tickCalls_freed (k : Kernel) (now : ℕ) (E : List ℕ) :
    (E.flatMap (k.tickCalls now)).filterMap TickCall.freed =
      E.filter fun e => ¬(k.Present e ∧ now < k.wakeTick e) := by
  induction E with
  | nil => rfl
  | cons e E ih =>
    rw [List.flatMap_cons, List.filterMap_append, ih, List.filter_cons, Kernel.tickCalls]
    by_cases hpresent : k.Present e
    · by_cases hdue : k.wakeTick e ≤ now
      · have hno : ¬now < k.wakeTick e := by omega
        simp [hpresent, hdue, hno, TickCall.freed, List.filterMap_cons]
      · have hlater : now < k.wakeTick e := by omega
        simp [hpresent, hdue, hlater]
    · simp [hpresent, TickCall.freed]

theorem tickCalls_unblocked (k : Kernel) (now : ℕ) (E : List ℕ) :
    (E.flatMap (k.tickCalls now)).filterMap TickCall.unblocked =
      (E.filter fun e => k.Present e ∧ k.wakeTick e ≤ now).map k.entryPid := by
  induction E with
  | nil => rfl
  | cons e E ih =>
    rw [List.flatMap_cons, List.filterMap_append, ih, List.filter_cons, Kernel.tickCalls]
    by_cases hpresent : k.Present e
    · by_cases hdue : k.wakeTick e ≤ now
      · simp [hpresent, hdue, TickCall.unblocked]
      · simp [hpresent, hdue]
    · simp [hpresent, TickCall.unblocked]

theorem Ticked.done (h : Ticked k k' now [] E) : HandlerDone k k' now E (E.flatMap (k.tickCalls now)) := by
  have hstays (e : ℕ) : Stays k now e ↔ k.Present e ∧ now < k.wakeTick e := stays_iff
  have hleft := h.sleepers
  have hlive := h.live
  simp only [hstays, List.nil_append] at hleft hlive
  exact ⟨hleft, ⟨h.same.entryProc, h.same.wakeTick⟩, tickCalls_freed k now E, hlive, tickCalls_unblocked k now E⟩

/-! ### Runs -/

/-- The kernel, with the number of the addition that each entry comes from. -/
structure SleepLog extends Kernel where
  stamp : ℕ → ℕ
  added : ℕ

/-- An addition for which there is a block, a run of the handler, or anything else that
the kernel does. -/
inductive SleepAction where
  | add (process wake : ℕ)
  | tick (now : ℕ)
  | other (k : Kernel)

namespace SleepLog

def step (s : SleepLog) : SleepAction → Option SleepLog
  | .add process wake =>
    let e := (mmMalloc s.toCore .sleepEntry).1
    if e = 0 then none
    else (s.sleepQueueAdd process wake).map fun k => ⟨k, update s.stamp e s.added, s.added + 1⟩
  | .tick now =>
    (Kernel.sleepTick now s.sleepFuel 0 s.sleepList s.toKernel).map fun k => { s with toKernel := k }
  | .other k => some { s with
      toKernel := { k with toSleepQueue := s.toSleepQueue, live := update k.live .sleepEntry (s.live .sleepEntry) } }

/-- The entry `x` is due first, or added first and due at the same tick. -/
def Before (s : SleepLog) (x y : ℕ) : Prop :=
  s.wakeTick x < s.wakeTick y ∨ s.wakeTick x = s.wakeTick y ∧ s.stamp x < s.stamp y

end SleepLog

/-- Runs of additions and of the handler from an empty list on. -/
def sleeping : System SleepLog SleepAction where
  init s := s.sleepList = 0
  step s a t := s.step a = some t

/-- The entries `E` are in order. -/
structure InOrder (s : SleepLog) (E : List ℕ) : Prop where
  sleepers : Sleepers s.toKernel E
  sorted : E.Pairwise s.Before
  stamps : ∀ e ∈ E, s.stamp e < s.added

variable {s t : SleepLog}

theorem handler_ends (h : Sleepers k E) (now : ℕ) :
    TickEnds k now [] E (Kernel.sleepTickCalls now k.sleepFuel 0 k.sleepList k) := by
  rw [h.chain.head_eq]
  exact sleepTickCalls_spec (A := []) h h.length_lt

/-- The entries behind one that is due later are due later. -/
theorem later_of_head (hsorted : B.Pairwise s.Before) (hlt : ∀ x ∈ B.head?, wake < s.wakeTick x) :
    ∀ y ∈ B, wake < s.wakeTick y := by
  cases B with
  | nil => simp
  | cons b B =>
    rw [List.pairwise_cons] at hsorted
    have hb : wake < s.wakeTick b := hlt b rfl
    intro y hy
    rcases List.mem_cons.mp hy with rfl | hy
    · exact hb
    · rcases hsorted.1 y hy with hby | ⟨hby, -⟩ <;> omega

/-- A new entry stands behind those that are due no later. -/
theorem InOrder.add (h : InOrder s E) (hstep : s.step (.add p wake) = some t) : ∃ E', InOrder t E' := by
  obtain ⟨answers, live, q, hadd, -, hcases⟩ := sleepQueueAdd_spec h.sleepers p wake
  unfold SleepLog.step at hstep
  simp only [hadd, Option.map_some] at hstep
  split at hstep
  · cases hstep
  · rename_i h0
    obtain rfl := Option.some.inj hstep
    rcases hcases with ⟨hnone, -⟩ | ⟨e, A, B, he, -, hnew, rfl, hle, hlt, -, hwake, hsleep⟩
    · exact absurd hnone h0
    · rw [he]
      set t : SleepLog := ⟨{ s.toKernel with answers := answers, live := live, toSleepQueue := q },
        update s.stamp e s.added, s.added + 1⟩ with ht
      have hticks : t.wakeTick = update s.wakeTick e wake := hwake
      have hkeep : ∀ x ∈ A ++ B, t.wakeTick x = s.wakeTick x ∧ t.stamp x = s.stamp x := by
        intro x hx
        have hxe : x ≠ e := by
          rintro rfl
          exact hnew hx
        rw [hticks]
        exact ⟨Function.update_of_ne hxe .., Function.update_of_ne hxe ..⟩
      have hwake_e : t.wakeTick e = wake := by rw [hticks, Function.update_self]
      have hstamp_e : t.stamp e = s.added := Function.update_self ..
      have hsorted : (A ++ B).Pairwise t.Before := by
        apply h.sorted.imp_of_mem
        intro x y hx hy hxy
        unfold SleepLog.Before
        rw [(hkeep x hx).1, (hkeep x hx).2, (hkeep y hy).1, (hkeep y hy).2]
        exact hxy
      have hlater := later_of_head (List.pairwise_append.mp h.sorted).2.1 hlt
      obtain ⟨hA, hB, hAB⟩ := List.pairwise_append.mp hsorted
      refine ⟨A ++ e :: B, hsleep, List.pairwise_append.mpr ⟨hA, List.pairwise_cons.mpr ⟨?_, hB⟩, ?_⟩, ?_⟩
      · intro y hy
        refine Or.inl ?_
        rw [hwake_e, (hkeep y (List.mem_append_right A hy)).1]
        exact hlater y hy
      · intro x hx y hy
        rcases List.mem_cons.mp hy with rfl | hy
        · have hmem := List.mem_append_left B hx
          unfold SleepLog.Before
          rw [hwake_e, hstamp_e, (hkeep x hmem).1, (hkeep x hmem).2]
          have hxle := hle x hx
          have hstamp := h.stamps x hmem
          omega
        · exact hAB x hx y hy
      · intro x hx
        show t.stamp x < s.added + 1
        rcases eq_or_ne x e with rfl | hxe
        · omega
        · have hmem : x ∈ A ++ B := by
            simp only [List.mem_append, List.mem_cons] at hx ⊢
            tauto
          have hstamp := h.stamps x hmem
          rw [(hkeep x hmem).2]
          omega

theorem InOrder.tick (h : InOrder s E) (hstep : s.step (.tick now) = some t) : ∃ E', InOrder t E' := by
  obtain ⟨k', hrun, rfl⟩ := Option.map_eq_some_iff.mp hstep
  rw [← sleepTickCalls_snd] at hrun
  rcases handler_ends h.sleepers now with ⟨k₁, hret, hticked⟩ | ⟨E₁, e, E₂, -, -, -, -, hnone⟩
  · rw [hret] at hrun
    obtain rfl := Option.some.inj hrun
    refine ⟨_, hticked.done.left, ?_, ?_⟩
    · have hsorted := h.sorted.filter fun e => decide (s.Present e ∧ now < s.wakeTick e)
      apply hsorted.imp
      intro x y hxy
      unfold SleepLog.Before
      rw [hticked.same.wakeTick]
      exact hxy
    · intro e he
      exact h.stamps e (List.mem_of_mem_filter he)
  · rw [hnone] at hrun
    cases hrun

theorem InOrder.step {a : SleepAction} (h : InOrder s E) (hstep : s.step a = some t) : ∃ E', InOrder t E' := by
  cases a with
  | add process wake => exact h.add hstep
  | tick now => exact h.tick hstep
  | other k =>
    obtain rfl := Option.some.inj hstep
    have hlive : update k.live .sleepEntry (s.live .sleepEntry) .sleepEntry = s.live .sleepEntry :=
      Function.update_self ..
    exact ⟨E, h.sleepers.congr rfl hlive, h.sorted, h.stamps⟩

/-- The list is always in order, and the handler takes out what is due or has no process
any more, in this order; or it stops in an `unblock_process` that does not return. -/
theorem sleep_list_algorithm (h : sleeping.Reach (fun _ _ => True) s) :
    ∃ E, Sleepers s.toKernel E ∧ E.Pairwise s.Before ∧ ∀ now,
      (∃ k', Kernel.sleepTick now s.sleepFuel 0 s.sleepList s.toKernel = some k' ∧
        HandlerDone s.toKernel k' now E (Kernel.sleepTickCalls now s.sleepFuel 0 s.sleepList s.toKernel).1) ∨
      StopsAt s.toKernel now E (Kernel.sleepTickCalls now s.sleepFuel 0 s.sleepList s.toKernel) := by
  obtain ⟨E, horder⟩ : ∃ E, InOrder s E := by
    apply h.invariant (I := fun s => ∃ E, InOrder s E)
    · intro s hinit
      exact ⟨[], ⟨hinit, List.nodup_nil, by simp⟩, List.Pairwise.nil, by simp⟩
    · rintro s a t ⟨E, hE⟩ - hstep
      exact hE.step hstep
  refine ⟨E, horder.sleepers, horder.sorted, fun now => ?_⟩
  rcases handler_ends horder.sleepers now with ⟨k', hret, hticked⟩ | hstops
  · rw [← sleepTickCalls_snd, hret]
    exact Or.inl ⟨k', rfl, hticked.done⟩
  · exact Or.inr hstops

/-- Two processes, of which the second sleeps twice and the first once in between. -/
def twoAwake : SleepLog :=
  ⟨(Machine.ran (fun _ _ => True) Machine.initial [Machine.create 100, Machine.create 200]).toKernel, fun _ => 0, 0⟩

def threeEntries : SleepLog :=
  (System.runList SleepLog.step (fun _ _ => True) twoAwake
    [.other { twoAwake.toKernel with answers := [700, 701, 702] }, .add 201 5, .add 101 3, .add 201 5]).getD twoAwake

theorem sleep_list_algorithm_three : Sleepers threeEntries.toKernel [701, 700, 702] ∧
    [701, 700, 702].Pairwise threeEntries.Before := by
  have hinit : sleeping.Reach (fun _ _ => True) twoAwake := .init (show twoAwake.sleepList = 0 by decide +kernel)
  have hreach : sleeping.Reach (fun _ _ => True) threeEntries :=
    hinit.runList_getD (fun _ _ _ => id) (by decide +kernel)
  obtain ⟨E, hsleep, hsorted, -⟩ := sleep_list_algorithm hreach
  have hentries : threeEntries.sleepEntries = [701, 700, 702] := by decide +kernel
  obtain rfl := hsleep.entries_eq.symm.trans hentries
  exact ⟨hsleep, hsorted⟩

end BareKernel
