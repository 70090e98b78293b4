import BareKernel.Process.TableEffect

/-! The process table and the pid bitmap in any run, orderly or not. No slot is used
twice, a process of the table has a record of its own and a pid of its own, and every
pid but the last is marked in the bitmap exactly while a process has it. -/

namespace BareKernel.Process

open Function (update)

/-- The table in any run. The last pid stays marked when its process is killed; from
then on a process may get pid `0`, but not while the last pid is taken. -/
structure TableInv (c : Core) : Prop where
  slots : ∀ i < maxProcesses, ∀ j < maxProcesses, c.processesList i = c.processesList j →
    c.processesList i ≠ 0 → i = j
  records : ∀ p, InTable c p → p ∈ c.live .record
  pids : PidInv c
  apart : ∀ p q, InTable c p → InTable c q → c.pid p = 0 → c.pid q ≠ maxProcesses

variable {c c' : Core} {p q i : ℕ} {pid v : ℤ}

theorem TableInv.congr (h : TableInv c) (hs : SameTable c c') : TableInv c' := by
  refine ⟨?_, fun p hp => ?_, h.pids.congr hs.pid hs.processesList hs.pids, fun p q hp hq => ?_⟩
  · rw [hs.processesList]
    exact h.slots
  · rw [hs.records]
    exact h.records p (hs.inTable.mp hp)
  · rw [hs.pid]
    exact h.apart p q (hs.inTable.mp hp) (hs.inTable.mp hq)

theorem inTable_slot (hi : i < maxProcesses) (h0 : c.processesList i ≠ 0) : InTable c (c.processesList i) :=
  ⟨h0, i, hi, rfl⟩

instance {P : ℕ → Prop} [DecidablePred P] (c : Core) : Decidable (∀ q, InTable c q → P q) :=
  decidable_of_iff (∀ i < maxProcesses, c.processesList i ≠ 0 → P (c.processesList i))
    ⟨fun h _ ⟨h0, i, hi, hq⟩ => hq ▸ h i hi (hq ▸ h0), fun h _ hi h0 => h _ (inTable_slot hi h0)⟩

/-! ### Counting pids -/

/-- The pids of a full table fill every range of their number. -/
theorem TableInv.attained (h : TableInv c) (hfull : ∀ i < maxProcesses, c.processesList i ≠ 0) (lo : ℤ)
    (hrange : ∀ p, InTable c p → lo ≤ c.pid p ∧ c.pid p < lo + maxProcesses) (hv : lo ≤ v)
    (hv' : v < lo + maxProcesses) : ∃ p, InTable c p ∧ c.pid p = v := by
  have hin (i : Fin maxProcesses) : InTable c (c.processesList i) := inTable_slot i.2 (hfull i i.2)
  have hlt (i : Fin maxProcesses) : (c.pid (c.processesList i) - lo).toNat < maxProcesses := by
    have := hrange _ (hin i)
    omega
  have hinj : Function.Injective fun i : Fin maxProcesses =>
      (⟨(c.pid (c.processesList i) - lo).toNat, hlt i⟩ : Fin maxProcesses) := by
    intro i j hij
    have hi := hrange _ (hin i)
    have hj := hrange _ (hin j)
    have hval : (c.pid (c.processesList i) - lo).toNat = (c.pid (c.processesList j) - lo).toNat :=
      congrArg Fin.val hij
    have hsame := h.pids.inj _ _ (hin i) (hin j) (by omega)
    exact Fin.ext (h.slots i i.2 j j.2 hsame (hfull i i.2))
  obtain ⟨i, hi⟩ := Finite.surjective_of_injective hinj ⟨(v - lo).toNat, by omega⟩
  have hval : (c.pid (c.processesList i) - lo).toNat = (v - lo).toNat := congrArg Fin.val hi
  have hi := hrange _ (hin i)
  exact ⟨_, hin i, by omega⟩

/-- A table with as many pids as slots is full. -/
theorem full_of_attained {lo : ℤ}
    (hall : ∀ v, lo ≤ v → v < lo + maxProcesses → ∃ p, InTable c p ∧ c.pid p = v) :
    ∀ i < maxProcesses, c.processesList i ≠ 0 := by
  have hslot (j : Fin maxProcesses) : ∃ k : Fin maxProcesses,
      c.processesList k ≠ 0 ∧ c.pid (c.processesList k) = lo + (j : ℕ) := by
    obtain ⟨p, ⟨h0, k, hk, rfl⟩, hp⟩ := hall (lo + (j : ℕ)) (by omega) (by omega)
    exact ⟨⟨k, hk⟩, h0, hp⟩
  choose slot hne hpid using hslot
  have hinj : Function.Injective slot := by
    intro a b hab
    have ha := hpid a
    have hb := hpid b
    rw [hab] at ha
    exact Fin.ext (by omega)
  intro i hi
  obtain ⟨j, hj⟩ := Finite.surjective_of_injective hinj ⟨i, hi⟩
  have := hne j
  rwa [hj] at this

/-! ### A new process -/

theorem addToProcessList_slots (c : Core) (p : ℕ) :
    (∃ i < maxProcesses, c.processesList i = 0 ∧
        (addToProcessList c p).processesList = update c.processesList i p) ∨
      (∀ i < maxProcesses, c.processesList i ≠ 0) ∧ (addToProcessList c p).processesList = c.processesList := by
  by_cases hfree : ∃ i < maxProcesses, c.processesList i = 0
  · obtain ⟨i, hi, h0, hadd⟩ := addToProcessList_free hfree p
    exact Or.inl ⟨i, hi, h0, by rw [hadd]⟩
  · refine Or.inr ⟨fun i hi h0 => hfree ⟨i, hi, h0⟩, ?_⟩
    have hnone : (List.range maxProcesses).find? (fun i => c.processesList i = 0) = none := by
      rw [List.find?_eq_none]
      intro i hi h0
      exact hfree ⟨i, List.mem_range.mp hi, by simpa using h0⟩
    unfold addToProcessList
    rw [hnone]

/-- The pid, the bitmap and the blocks in use are those after `assignPid`. -/
theorem enroll_pids (c : Core) (p : ℕ) (v : ℤ) : (enroll c p v).pid = (assignPid c p).pid ∧
    (enroll c p v).pids = (assignPid c p).pids ∧ (enroll c p v).live .record = c.live .record := by
  obtain ⟨list, hlist⟩ := addToProcessList_eq (linkParent (newContext c p v) p) p
  have hlink := linkParent_aside (newContext c p v) p
  rw [enroll, hlist]
  refine ⟨hlink.pid, hlink.pids, (hlink.live .record rfl).trans ?_⟩
  show (assignPid c p).live .record = c.live .record
  rw [assignPid_eq]

theorem enroll_slots (c : Core) (p : ℕ) (v : ℤ) :
    (∃ i < maxProcesses, c.processesList i = 0 ∧ (enroll c p v).processesList = update c.processesList i p) ∨
      (∀ i < maxProcesses, c.processesList i ≠ 0) ∧ (enroll c p v).processesList = c.processesList := by
  have hlink := (linkParent_aside (newContext c p v) p).processesList
  have hcontext : (newContext c p v).processesList = c.processesList := by
    show (assignPid c p).processesList = c.processesList
    rw [assignPid_eq]
  have hslots := addToProcessList_slots (linkParent (newContext c p v) p) p
  rw [hlink.trans hcontext] at hslots
  exact hslots

theorem assignPid_cases (c : Core) (p : ℕ) :
    ((∀ i : ℕ, i < maxProcesses → c.pids i = true) ∧ assignPid c p = { c with pid := update c.pid p 0 }) ∨
      ∃ i : ℕ, i < maxProcesses ∧ c.pids i = false ∧ (∀ j : ℕ, j < i → c.pids j = true) ∧
        assignPid c p = { c with pid := update c.pid p (i + 1), pids := update c.pids i true } := by
  unfold assignPid
  cases hf : (List.range maxProcesses).find? fun i : ℕ => c.pids i = false with
  | none =>
    refine Or.inl ⟨fun i hi => ?_, rfl⟩
    have hnot := List.find?_eq_none.mp hf i (List.mem_range.mpr hi)
    simpa using hnot
  | some i =>
    obtain ⟨hi, hmem, hbefore⟩ := List.find?_range_eq_some.mp hf
    refine Or.inr ⟨i, List.mem_range.mp hmem, by simpa using hi, fun j hj => ?_, rfl⟩
    simpa using hbefore j hj

/-- A pid of the table that is marked in the bitmap. -/
theorem PidInv.bit (h : PidInv c) (hp : InTable c p) (hi : c.pid p = i + 1) : c.pids i = true := by
  have hset := h.used p hp (by omega)
  rwa [hi, Int.add_sub_cancel] at hset

/-- A full table with an entry of the bitmap clear has all pids from `0` on but the last. -/
theorem TableInv.last_of_full (h : TableInv c) (hfull : ∀ i < maxProcesses, c.processesList i ≠ 0)
    (hi : i < maxProcesses) (hclear : c.pids i = false) : i + 1 = maxProcesses := by
  by_contra hne
  have hmiss : ¬∃ p, InTable c p ∧ c.pid p = i + 1 := by
    rintro ⟨p, hp, hpi⟩
    rw [h.pids.bit hp hpi] at hclear
    cases hclear
  by_cases hzero : ∃ p, InTable c p ∧ c.pid p = 0
  · obtain ⟨p, hp, hp0⟩ := hzero
    refine hmiss (h.attained hfull 0 (fun q hq => ?_) (by omega) (by omega))
    have hr := h.pids.range q hq
    have hlast := h.apart p q hp hq hp0
    omega
  · refine hmiss (h.attained hfull 1 (fun q hq => ?_) (by omega) (by omega))
    have hr := h.pids.range q hq
    have hq0 : c.pid q ≠ 0 := fun h0 => hzero ⟨q, hq, h0⟩
    omega

theorem TableInv.addRecord (h : TableInv c) (p : ℕ) : TableInv (addRecord c p) := by
  refine ⟨h.slots, fun q hq => ?_, h.pids.congr rfl rfl rfl, h.apart⟩
  rw [addRecord_records]
  exact List.mem_cons_of_mem _ (h.records q hq)

/-- The pids of other processes stay. -/
theorem enroll_pid_of_ne (hq : q ≠ p) : (enroll c p v).pid q = c.pid q := by
  rw [(enroll_pids c p v).1]
  rcases assignPid_cases c p with ⟨-, hassign⟩ | ⟨i, -, -, -, hassign⟩
  all_goals
    rw [hassign]
    exact Function.update_of_ne hq ..

/-- A new process without a slot may mark the last pid, which nobody has. -/
theorem TableInv.enroll_full (h : TableInv c) (hnew : ¬InTable c p)
    (hfull : ∀ i < maxProcesses, c.processesList i ≠ 0)
    (htable : (enroll c p v).processesList = c.processesList) : TableInv (enroll c p v) := by
  obtain ⟨-, hpids, hrec⟩ := enroll_pids c p v
  have hpid (q : ℕ) (hq : InTable c q) : (enroll c p v).pid q = c.pid q :=
    enroll_pid_of_ne fun he => hnew (he ▸ hq)
  have hin (q : ℕ) : InTable (enroll c p v) q ↔ InTable c q := inTable_congr htable
  have hbits (i : ℕ) (hi : i + 1 ≠ maxProcesses) : (enroll c p v).pids i = c.pids i := by
    rw [hpids]
    rcases assignPid_cases c p with ⟨-, hassign⟩ | ⟨j, hj, hclear, -, hassign⟩
    · rw [hassign]
    · rw [hassign]
      have hlast := h.last_of_full hfull hj hclear
      refine Function.update_of_ne ?_ ..
      omega
  have hkept (i : ℤ) (hi : c.pids i = true) : (enroll c p v).pids i = true := by
    rw [hpids]
    rcases assignPid_cases c p with ⟨-, hassign⟩ | ⟨j, -, -, -, hassign⟩
    · rw [hassign]
      exact hi
    · rw [hassign]
      show update c.pids j true i = true
      rw [Function.update_apply]
      split
      · rfl
      · exact hi
  refine ⟨?_, fun q hq => ?_, ⟨fun q s hq hs => ?_, fun q hq => ?_, fun q hq hpos => ?_, fun i hi hset => ?_⟩,
    fun q s hq hs => ?_⟩
  · rw [htable]
    exact h.slots
  · rw [hrec]
    exact h.records q ((hin q).mp hq)
  · rw [hin] at hq hs
    rw [hpid q hq, hpid s hs]
    exact h.pids.inj q s hq hs
  · rw [hin] at hq
    rw [hpid q hq]
    exact h.pids.range q hq
  · rw [hin] at hq
    rw [hpid q hq] at hpos ⊢
    exact hkept _ (h.pids.used q hq hpos)
  · rw [hbits i (by omega)] at hset
    obtain ⟨q, hq, hqi⟩ := h.pids.owned i hi hset
    exact ⟨q, (hin q).mpr hq, by rw [hpid q hq, hqi]⟩
  · rw [hin] at hq hs
    rw [hpid q hq, hpid s hs]
    exact h.apart q s hq hs

/-- A new process with a slot. -/
theorem TableInv.enroll_slot (h : TableInv c) (hp0 : p ≠ 0) (hnew : ¬InTable c p) (hrec : p ∈ c.live .record)
    (hi : i < maxProcesses) (hfree : c.processesList i = 0)
    (htable : (enroll c p v).processesList = update c.processesList i p) : TableInv (enroll c p v) := by
  obtain ⟨hpid, hpids, hlive⟩ := enroll_pids c p v
  have hin (q : ℕ) : InTable (enroll c p v) q ↔ InTable c q ∨ q = p := inTable_set hi hfree hp0 htable
  obtain ⟨hinv, hother⟩ := h.pids.assign hnew hi hfree hin hpid hpids
  have hpnot (x : ℕ) (hx : x < maxProcesses) : c.processesList x ≠ p := by
    rintro rfl
    exact hnew ⟨hp0, x, hx, rfl⟩
  have howned (v : ℤ) (hv : 1 ≤ v) (hv' : v < maxProcesses) (hset : c.pids ((v - 1).toNat : ℕ) = true) :
      ∃ q, InTable c q ∧ c.pid q = v := by
    obtain ⟨q, hq, hqv⟩ := h.pids.owned (v - 1).toNat (by omega) hset
    exact ⟨q, hq, by omega⟩
  -- not all pids of a range are taken while a slot is free
  have hroom (lo : ℤ) (hall : ∀ v, lo ≤ v → v < lo + maxProcesses → ∃ q, InTable c q ∧ c.pid q = v) : False :=
    full_of_attained hall i hi hfree
  have happart (q : ℕ) (hq : InTable c q) (hself : (enroll c p v).pid p = 0 ∧ c.pid q = maxProcesses ∨
      (enroll c p v).pid p = maxProcesses ∧ c.pid q = 0) : False := by
    rw [hpid] at hself
    rcases assignPid_cases c p with ⟨hall, hassign⟩ | ⟨j, hj, -, hbefore, hassign⟩
    · rw [hassign] at hself
      simp only [Function.update_self] at hself
      rcases hself with ⟨-, hlast⟩ | ⟨hzero, -⟩
      · refine hroom 1 fun v hv hv' => ?_
        by_cases hvl : v = maxProcesses
        · exact ⟨q, hq, hlast.trans hvl.symm⟩
        · exact howned v hv (by omega) (hall _ (by omega))
      · simp [maxProcesses] at hzero
    · rw [hassign] at hself
      simp only [Function.update_self] at hself
      rcases hself with ⟨hzero, -⟩ | ⟨hlast, hzero⟩
      · omega
      · refine hroom 0 fun v hv hv' => ?_
        by_cases hv0 : v = 0
        · exact ⟨q, hq, hzero.trans hv0.symm⟩
        · exact howned v (by omega) (by omega) (hbefore _ (by omega))
  refine ⟨fun j hj k hk hjk h0 => ?_, fun q hq => ?_, hinv, fun q s hq hs hzero hlast => ?_⟩
  · rw [htable] at hjk h0
    exact slots_set h.slots hpnot j hj k hk hjk h0
  · rw [hlive]
    rcases (hin q).mp hq with hq | rfl
    · exact h.records q hq
    · exact hrec
  · have hother' (x : ℕ) (hx : InTable c x) : (enroll c p v).pid x = c.pid x :=
      hother x fun he => hnew (he ▸ hx)
    rcases (hin q).mp hq with hqc | hqp <;> rcases (hin s).mp hs with hsc | hsp
    · rw [hother' q hqc] at hzero
      rw [hother' s hsc] at hlast
      exact h.apart q s hqc hsc hzero hlast
    · rw [hother' q hqc] at hzero
      rw [hsp] at hlast
      exact happart q hqc (Or.inr ⟨hlast, hzero⟩)
    · rw [hother' s hsc] at hlast
      rw [hqp] at hzero
      exact happart s hsc (Or.inl ⟨hzero, hlast⟩)
    · rw [hqp] at hzero
      rw [hsp, hzero] at hlast
      simp [maxProcesses] at hlast

theorem TableInv.enroll (h : TableInv c) (hp0 : p ≠ 0) (hfresh : p ∉ c.live .record) (v : ℤ) :
    TableInv (enroll (Process.addRecord c p) p v) := by
  have hnew : ¬InTable (Process.addRecord c p) p := fun hp => hfresh (h.records p hp)
  have hrec : p ∈ (Process.addRecord c p).live .record := by
    rw [addRecord_records]
    exact List.mem_cons_self
  rcases enroll_slots (Process.addRecord c p) p v with ⟨i, hi, hfree, htable⟩ | ⟨hfull, htable⟩
  · exact (h.addRecord p).enroll_slot hp0 hnew hrec hi hfree htable
  · exact (h.addRecord p).enroll_full hnew hfull htable

/-! ### The end of a process -/

/-- The record freed is that of the process whose slot is cleared, or of none in the
table. The bitmap loses at most the mark of the pid, and loses it below the last pid. -/
theorem TableInv.clearSlot (h : TableInv c) (hf : foundprocess c (c.pid p) = some i)
    (hpids : ∀ j, j ≠ c.pid p - 1 → c'.pids j = c.pids j)
    (hown : 0 < c.pid p → c.pid p < maxProcesses → c'.pids (c.pid p - 1) = false)
    (hpid : c'.pid = c.pid) (ht : c'.processesList = update c.processesList i 0)
    (hrec : c'.live .record = (c.live .record).erase p) : TableInv c' := by
  obtain ⟨hi, hin, hpi⟩ := foundprocess_some hf
  have htable (q : ℕ) : InTable c' q ↔ InTable c q ∧ q ≠ c.processesList i := inTable_clear h.slots hi rfl ht
  refine ⟨fun j hj k hk hjk h0 => ?_, fun q hq => ?_, ?_, fun q s hq hs => ?_⟩
  · rw [ht] at hjk h0
    have hval (x : ℕ) (hx : update c.processesList i 0 x ≠ 0) : update c.processesList i 0 x = c.processesList x := by
      rw [Function.update_of_ne]
      rintro rfl
      simp at hx
    have hk0 : update c.processesList i 0 k ≠ 0 := fun he => h0 (hjk.trans he)
    rw [hval j h0] at hjk h0
    rw [hval k hk0] at hjk
    exact h.slots j hj k hk hjk h0
  · obtain ⟨hq, hqi⟩ := (htable q).mp hq
    rw [hrec]
    refine (List.mem_erase_of_ne ?_).mpr (h.records q hq)
    rintro rfl
    exact hqi (h.pids.inj _ _ hq hin hpi.symm)
  · refine h.pids.remove hin hpid htable (fun j hj => hpids j (hpi ▸ hj)) fun h1 h2 => ?_
    rw [hpi] at h1 h2 ⊢
    exact hown h1 h2
  · rw [hpid]
    exact h.apart q s ((htable q).mp hq).1 ((htable s).mp hs).1

/-- The mark of a pid that nobody has is taken away. -/
theorem TableInv.unmark (h : TableInv c) (hnone : foundprocess c pid = none) :
    TableInv { c with pids := update c.pids (pid - 1) false } := by
  refine ⟨h.slots, h.records, ⟨h.pids.inj, h.pids.range, fun q hq hpos => ?_, fun i hi hset => ?_⟩, h.apart⟩
  · have hne : c.pid q ≠ pid := foundprocess_none hnone hq
    show update c.pids (pid - 1) false (c.pid q - 1) = true
    rw [Function.update_of_ne (by omega)]
    exact h.pids.used q hq hpos
  · have hset' : update c.pids (pid - 1) false i = true := hset
    have hne : (i : ℤ) ≠ pid - 1 := by
      intro he
      simp [he] at hset'
    rw [Function.update_of_ne hne] at hset'
    exact h.pids.owned i hi hset'

end BareKernel.Process
