import BareKernel.Kernel.PidLaw

/-! The process in the foreground. One process of the table has the flag. A new
process takes it from the old one whether or not it asks for it, and a process that
ends leaves it to its parent if the parent is found in the table. -/

namespace BareKernel

open Function (update)
open Process Links Machine

variable {c c' : Core} {m m' m'' : Machine} {a : Action} {call : Call} {p q f i : ℕ} {pid v : ℤ}

/-- A process of the table has the flag. -/
def Foreground (c : Core) (p : ℕ) : Prop := InTable c p ∧ c.isForeground p ≠ 0

def OneForeground (c : Core) : Prop := ∃! p, Foreground c p

/-- When `p` ends and the slot of `q` is cleared, the flag stays with one process of
the table; `q` is `p` unless `p` has left the table before. -/
def HandsOver (c : Core) (p q : ℕ) : Prop :=
  if c.isForeground q ≠ 0 then c.isForeground p ≠ 0 ∧ heir c p ≠ 0 ∧ heir c p ≠ q
  else c.isForeground p ≠ 0 → heir c p = 0 ∨ heir c p = q ∨ c.isForeground (heir c p) ≠ 0

/-- A new process asks for the foreground and gets a slot; a process that ends hands
the foreground over. -/
def Call.KeepsForeground (c : Core) : Call → Prop
  | .createProcess args => ∀ p, NewRecord c p →
      args.isForeground ≠ 0 ∧ ∃ i < maxProcesses, c.processesList i = 0
  | .killProcess pid => 3 ≤ pid → ∀ i, foundprocess c pid = some i →
      HandsOver c (c.processesList i) (c.processesList i)
  | .exitProcess => ∀ i, foundprocess c (c.pid c.currentProcess) = some i →
      HandsOver c c.currentProcess (c.processesList i)
  | _ => True

theorem foreground_congr (ht : c'.processesList = c.processesList) (hf : c'.isForeground = c.isForeground) :
    Foreground c' p ↔ Foreground c p := by
  unfold Foreground
  rw [inTable_congr ht, hf]

theorem Process.SameTable.oneForeground (h : SameTable c c') : OneForeground c' ↔ OneForeground c :=
  existsUnique_congr fun _ => foreground_congr h.processesList h.isForeground

/-- The flag is found where it is. -/
theorem getForegroundProcess_eq (hf : Foreground c f) (hone : ∀ q, Foreground c q → q = f) :
    getForegroundProcess c = f := by
  unfold getForegroundProcess
  split
  · rename_i hnone
    obtain ⟨⟨h0, i, hi, hif⟩, hflag⟩ := hf
    have hnot := List.find?_eq_none.mp hnone i (List.mem_range.mpr hi)
    simp [hif, h0, hflag] at hnot
  · rename_i i hsome
    have hi := List.mem_range.mp (List.mem_of_find?_eq_some hsome)
    have hflag := List.find?_some hsome
    simp only [ne_eq, decide_eq_true_eq] at hflag
    exact hone _ ⟨inTable_slot hi hflag.1, hflag.2⟩

/-! ### A new process -/

theorem assignForeground_isForeground (hf : Foreground c f) (hone : ∀ q, Foreground c q → q = f)
    (hnew : ¬InTable c p) : (assignForeground c p v).isForeground = update (update c.isForeground p v) f 0 := by
  have hother (q : ℕ) (hq : InTable c q) : update c.isForeground p v q = c.isForeground q :=
    Function.update_of_ne (fun he : q = p => hnew (he ▸ hq)) ..
  have hold : getForegroundProcess { c with isForeground := update c.isForeground p v } = f := by
    refine getForegroundProcess_eq ⟨hf.1, ne_of_eq_of_ne (hother f hf.1) hf.2⟩ fun q hq => ?_
    have hin : InTable c q := hq.1
    exact hone q ⟨hin, ne_of_eq_of_ne (hother q hin).symm hq.2⟩
  show update (update c.isForeground p v) (getForegroundProcess _) 0 = _
  rw [hold]

/-- The new process has the flag it asked for, and the old process has lost its own. -/
theorem enroll_isForeground (hf : Foreground c f) (hone : ∀ q, Foreground c q → q = f) (hnew : ¬InTable c p) :
    (enroll c p v).isForeground = update (update c.isForeground p v) f 0 := by
  have hflags : (newContext c p v).isForeground = update (update c.isForeground p v) f 0 := by
    unfold newContext
    rw [assignPid_eq]
    exact assignForeground_isForeground (c := { c with pid := _, pids := _, children := _, childrenLength := _ })
      hf hone hnew
  obtain ⟨list, hlist⟩ := addToProcessList_eq (linkParent (newContext c p v) p) p
  obtain ⟨parents, children, lengths, hlink⟩ := linkParent_eq (newContext c p v) p
  rw [enroll, hlist, hlink, ← hflags]

theorem enroll_oneForeground (h : TableInv c) (hone : OneForeground c) (hp0 : p ≠ 0) (hfresh : p ∉ c.live .record) :
    OneForeground (enroll (addRecord c p) p v) ↔ v ≠ 0 ∧ ∃ i < maxProcesses, c.processesList i = 0 := by
  obtain ⟨f, hf, huniq⟩ := hone
  have hnew : ¬InTable c p := fun hp => hfresh (h.records p hp)
  have hfp : f ≠ p := fun he => hnew (he ▸ hf.1)
  have hflags : (enroll (addRecord c p) p v).isForeground = update (update c.isForeground p v) f 0 :=
    enroll_isForeground (c := addRecord c p) hf huniq hnew
  -- no process of the old table has the flag any more
  have hold (q : ℕ) (hq : InTable c q) : (enroll (addRecord c p) p v).isForeground q = 0 := by
    rw [hflags]
    by_cases hqf : q = f
    · rw [hqf, Function.update_self]
    · have hqp : q ≠ p := fun he => hnew (he ▸ hq)
      rw [Function.update_of_ne hqf, Function.update_of_ne hqp]
      by_contra hflag
      exact hqf (huniq q ⟨hq, hflag⟩)
  have hself : (enroll (addRecord c p) p v).isForeground p = v := by
    rw [hflags, Function.update_of_ne hfp.symm, Function.update_self]
  rcases enroll_slots (addRecord c p) p v with ⟨i, hi, hfree, hslot⟩ | ⟨hfull, hslot⟩
  · have hin (q : ℕ) : InTable (enroll (addRecord c p) p v) q ↔ InTable c q ∨ q = p := inTable_set hi hfree hp0 hslot
    have honly (q : ℕ) (hq : Foreground (enroll (addRecord c p) p v) q) : q = p :=
      ((hin q).mp hq.1).resolve_left fun hqc => hq.2 (hold q hqc)
    constructor
    · rintro ⟨q, hq, -⟩
      obtain rfl := honly q hq
      exact ⟨hself ▸ hq.2, i, hi, hfree⟩
    · rintro ⟨hv, -⟩
      exact ⟨p, ⟨(hin p).mpr (Or.inr rfl), by rwa [hself]⟩, honly⟩
  · have hin (q : ℕ) : InTable (enroll (addRecord c p) p v) q ↔ InTable c q := inTable_congr hslot
    constructor
    · rintro ⟨q, hq, -⟩
      exact absurd (hold q ((hin q).mp hq.1)) hq.2
    · rintro ⟨-, i, hi, hfree⟩
      exact absurd hfree (hfull i hi)

/-! ### The end of a process -/

theorem leaveFamily_isForeground (c : Core) (p : ℕ) : (leaveFamily c p).isForeground =
    if heir c p ≠ 0 ∧ c.isForeground p ≠ 0 then update c.isForeground (heir c p) 1 else c.isForeground := by
  unfold leaveFamily
  by_cases h0 : heir c p = 0 <;> by_cases hf : c.isForeground p = 0 <;> simp [h0, hf]

theorem heir_inTable (h : heir c p ≠ 0) : InTable c (heir c p) := by
  unfold heir at h ⊢
  split at h
  · rename_i hpos
    rw [if_pos hpos]
    cases hf : foundprocess c (c.parentPid p) with
    | none => exact absurd (getProcessByPid_none hf) h
    | some i =>
      rw [getProcessByPid_some hf]
      exact (foundprocess_some hf).2.1
  · exact absurd rfl h

/-- What the end of `p` leaves in the foreground when the slot of `q` is cleared. -/
theorem foreground_left (hin : ∀ x, InTable c' x ↔ InTable c x ∧ x ≠ q)
    (hflags : c'.isForeground = (leaveFamily c p).isForeground) (x : ℕ) :
    Foreground c' x ↔ x ≠ q ∧ (Foreground c x ∨ c.isForeground p ≠ 0 ∧ heir c p ≠ 0 ∧ x = heir c p) := by
  unfold Foreground
  rw [hin, hflags, leaveFamily_isForeground]
  split
  · rename_i hraise
    by_cases hx : x = heir c p
    · have hh := heir_inTable hraise.1
      simp [hx, hraise, hh]
    · rw [Function.update_of_ne hx]
      tauto
  · rename_i hkeep
    tauto

theorem clear_oneForeground (hone : OneForeground c) (hq : InTable c q)
    (hin : ∀ x, InTable c' x ↔ InTable c x ∧ x ≠ q)
    (hflags : c'.isForeground = (leaveFamily c p).isForeground) : OneForeground c' ↔ HandsOver c p q := by
  obtain ⟨f, hf, huniq⟩ := hone
  have hleft := foreground_left hin hflags
  unfold HandsOver
  by_cases hqf : q = f
  · subst hqf
    rw [if_pos hf.2]
    constructor
    · rintro ⟨x, hx, -⟩
      obtain ⟨hxq, hold | ⟨hflag, hheir, rfl⟩⟩ := (hleft x).mp hx
      · exact absurd (huniq x hold) hxq
      · exact ⟨hflag, hheir, hxq⟩
    · rintro ⟨hflag, hheir, hne⟩
      refine ⟨heir c p, (hleft _).mpr ⟨hne, Or.inr ⟨hflag, hheir, rfl⟩⟩, fun y hy => ?_⟩
      obtain ⟨hyq, hold | ⟨-, -, rfl⟩⟩ := (hleft y).mp hy
      · exact absurd (huniq y hold) hyq
      · rfl
  · have hqflag : ¬c.isForeground q ≠ 0 := fun hflag => hqf (huniq q ⟨hq, hflag⟩)
    have hstays : Foreground c' f := (hleft f).mpr ⟨Ne.symm hqf, Or.inl hf⟩
    rw [if_neg hqflag]
    constructor
    · rintro hone' hflag
      by_contra hno
      simp only [not_or] at hno
      obtain ⟨hheir, hne, hzero⟩ := hno
      have hraised : Foreground c' (heir c p) := (hleft _).mpr ⟨hne, Or.inr ⟨hflag, hheir, rfl⟩⟩
      rw [hone'.unique hraised hstays] at hzero
      exact hzero hf.2
    · intro hhand
      refine ⟨f, hstays, fun y hy => ?_⟩
      obtain ⟨hyq, hold | ⟨hflag, hheir, rfl⟩⟩ := (hleft y).mp hy
      · exact huniq y hold
      · rcases hhand hflag with h0 | hq' | hzero
        · exact absurd h0 hheir
        · exact absurd hq' hyq
        · exact huniq _ ⟨heir_inTable hheir, hzero⟩

/-! ### Every step and every run -/

/-- A step keeps one process in the foreground exactly when its call does. -/
theorem TableStep.oneForeground (h : TableInv c) (hone : OneForeground c) (hst : TableStep c call c') :
    OneForeground c' ↔ call.KeepsForeground c := by
  cases call with
  | createProcess args =>
    rcases hst with ⟨hs, hno⟩ | ⟨p, hp, hfresh, hs⟩
    · exact iff_of_true (hs.oneForeground.mpr hone) fun p hp => absurd hp (hno p)
    · rw [hs.oneForeground, enroll_oneForeground h hone hp.2.1 hfresh]
      exact ⟨fun hok _ _ => hok, fun hok => hok p hp⟩
  | killProcess pid =>
    rcases hst.kill_cases h with ⟨hs, hno⟩ | ⟨hlow, i, hf, hend⟩
    · refine iff_of_true (hs.oneForeground.mpr hone) fun hlow i hf => ?_
      rcases hno with hlt | hnone
      · omega
      · rw [hnone] at hf
        cases hf
    · rw [clear_oneForeground hone hend.owner hend.inTable hend.isForeground]
      refine ⟨fun hok _ j hj => ?_, fun hok => hok hlow i hf⟩
      obtain rfl := Option.some.inj (hf.symm.trans hj)
      exact hok
  | exitProcess =>
    rcases hst.exit_cases h with ⟨hnone, hs⟩ | ⟨i, hf, hend⟩
    · refine iff_of_true (hs.oneForeground.mpr hone) fun i hf => ?_
      rw [hnone] at hf
      cases hf
    · rw [clear_oneForeground hone hend.owner hend.inTable hend.isForeground]
      refine ⟨fun hok j hj => ?_, fun hok => hok i hf⟩
      obtain rfl := Option.some.inj (hf.symm.trans hj)
      exact hok
  | _ => exact iff_of_true (SameTable.oneForeground hst |>.mpr hone) trivial

/-- In a run whose calls keep the foreground exactly one process has the flag, as it
was at the start; a call keeps it so exactly when it keeps the foreground, and a call
for a background process then moves no flag. -/
theorem one_foreground (h : boot.Reach (fun _ _ => True) m) (hone : OneForeground m.toCore)
    (hl : boot.Leads (fun m a => a.call.KeepsForeground (m.supplied a)) m m') :
    OneForeground m'.toCore ∧ ∀ a m'', m'.step a = some m'' →
      (OneForeground m''.toCore ↔ a.call.KeepsForeground (m'.supplied a)) ∧
      (a.call.KeepsForeground (m'.supplied a) → ∀ args, a.call = .createProcess args → args.isForeground = 0 →
        ∀ p, Foreground m''.toCore p ↔ Foreground m'.toCore p) := by
  have hrun : TableInv m'.toCore ∧ OneForeground m'.toCore := by
    induction hl with
    | refl => exact ⟨boot_reach_table h, hone⟩
    | step _ hok hst ih =>
      exact ⟨step_tableInv ih.1 hst, (TableStep.oneForeground ih.1.supply ih.2 (step_table hst)).mpr hok⟩
  refine ⟨hrun.2, fun a m'' hst => ⟨TableStep.oneForeground hrun.1.supply hrun.2 (step_table hst), ?_⟩⟩
  intro hok args hcall hback p
  have htable := step_table hst
  rw [hcall] at hok htable
  rcases htable with ⟨hs, -⟩ | ⟨q, hq, -⟩
  · exact foreground_congr hs.processesList hs.isForeground
  · exact absurd hback (hok q hq).1

/-- A process is created in the foreground. -/
def createForeground (base : ℕ) : Action :=
  ⟨.createProcess ⟨0, 3, 1, 0⟩, 0, [base, base + 1, base + 2, base + 3, base + 4, base + 5]⟩

/-- The machine with one process, in the foreground. -/
def oneShell : Machine := ran (fun _ _ => True) initial [createForeground 100, plain .tick]

theorem oneShell_reach : boot.Reach (fun _ _ => True) oneShell := boot_ran (by decide +kernel)

theorem oneShell_foreground : OneForeground oneShell.toCore := by
  refine ⟨101, ⟨⟨by decide, 0, by decide, by decide +kernel⟩, by decide +kernel⟩, ?_⟩
  rintro q ⟨⟨h0, i, hi, rfl⟩, -⟩
  have honly : ∀ i < maxProcesses, oneShell.processesList i = 0 ∨ oneShell.processesList i = 101 := by decide +kernel
  exact (honly i hi).resolve_left h0

/-- The shell is joined by a second process in the foreground. -/
theorem one_foreground_second :
    OneForeground ((oneShell.step (createForeground 200)).getD oneShell).toCore := by
  refine (one_foreground oneShell_reach oneShell_foreground (.step .refl ?_ (step_getD (by decide +kernel)))).1
  intro p _
  exact ⟨by decide, 1, by decide, by decide +kernel⟩

/-- A process is created in the background, and nobody is left in the foreground. -/
theorem one_foreground_background : ¬∀ m m', boot.Reach (fun _ _ => True) m → OneForeground m.toCore →
    boot.Leads (fun _ _ => True) m m' → OneForeground m'.toCore := by
  intro hall
  have hnone : ∀ i < maxProcesses, ((oneShell.step (create 200)).getD oneShell).processesList i = 0 ∨
      ((oneShell.step (create 200)).getD oneShell).isForeground
        (((oneShell.step (create 200)).getD oneShell).processesList i) = 0 := by decide +kernel
  obtain ⟨p, ⟨⟨h0, i, hi, rfl⟩, hflag⟩, -⟩ := hall oneShell _ oneShell_reach oneShell_foreground
    (.step .refl trivial (step_getD (a := create 200) (by decide +kernel)))
  rcases hnone i hi with hzero | hzero
  · exact h0 hzero
  · exact hflag hzero

end BareKernel
