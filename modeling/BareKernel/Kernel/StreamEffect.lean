import BareKernel.Kernel.HeldEnds
import BareKernel.Kernel.LookupsLaw

/-! What an action of the machine with its streams leaves of the processes, of the ends of
pipes that they hold, and of the transfers under way. Behind it is a call that may create or
end processes, or else some waits, posts and bytes, which touch none of these. -/

namespace BareKernel

open Function (update)
open Process Links Machine

variable {k k' k₁ : Kernel} {m m' : Machine} {x y : UserMachine} {a : Action} {b : UserAction} {p pipe : ℕ}
  {ty : FDType} {fd : ℤ} {t : Transfer}

/-! ### Waits, posts and bytes -/

/-- The table, the entries, the slots and the counts are the same. -/
structure SameHolders (k k' : Kernel) : Prop where
  fds : SameFds k k'
  table : SameTable k.toCore k'.toCore

theorem SameHolders.refl (k : Kernel) : SameHolders k k := ⟨.of_eq rfl rfl, .refl _⟩

theorem SameHolders.trans (h : SameHolders k k₁) (h' : SameHolders k₁ k') : SameHolders k k' := by
  refine ⟨⟨h.fds.toSameEntries.trans h'.fds.toSameEntries, h'.fds.fdTable.trans h.fds.fdTable, fun pipe ty hp => ?_⟩,
    h.table.trans h'.table⟩
  rw [h'.fds.openCount pipe ty (h.fds.hasPipe.mpr hp), h.fds.openCount pipe ty hp]

theorem step_sameHolders (hrun : m.step a = some m') (hc : a.call.Ordinary) : SameHolders m.toKernel m'.toKernel := by
  obtain ⟨r, k, again, hcall, hfds, htable⟩ := step_after hrun
  have hstill := call_still hcall hc
  obtain ⟨h1, h2, h3, h4, h5, h6, h7, h8⟩ := hstill.quiet.toSameTable
  have hbehind : SameHolders m.toKernel k := ⟨.of_eq hstill.toPipes hstill.quiet.pipes, h1, h2, h3, h4, h5, h6, h7, h8⟩
  exact hbehind.trans ⟨hfds, htable⟩

theorem moveByte_sameHolders (t : Transfer) (k : Kernel) : SameHolders k (t.moveByte k) := by
  unfold Transfer.moveByte
  cases t.side with
  | read => exact ⟨⟨⟨rfl, rfl, fun _ _ => rfl, rfl, fun _ _ => rfl, fun _ _ => rfl⟩, rfl,
      fun _ ty _ => by cases ty <;> rfl⟩,
      ⟨rfl, rfl, rfl, rfl, rfl, rfl, rfl, rfl⟩⟩
  | write => exact ⟨⟨⟨rfl, rfl, fun _ _ => rfl, rfl, fun _ _ => rfl, fun _ _ => rfl⟩, rfl,
      fun _ ty _ => by cases ty <;> rfl⟩,
      ⟨rfl, rfl, rfl, rfl, rfl, rfl, rfl, rfl⟩⟩

theorem Proceeds.sameHolders (h : Proceeds m m') : SameHolders m.toKernel m'.toKernel := by
  induction h with
  | refl => exact .refl _
  | step _ hrun hc ih => exact ih.trans (step_sameHolders hrun hc)
  | byte _ t ih => exact ih.trans (moveByte_sameHolders t _)

/-- Behind an action is the call that it makes, or nothing that the holders notice. -/
theorem user_made (hrun : x.step b = some y) :
    match b.made x with
    | some a => x.toMachine.step a = some y.toMachine
    | none => SameHolders x.toKernel y.toKernel := by
  have hproceeds := user_proceeds hrun
  cases hm : b.made x with
  | some a =>
    rw [hm] at hproceeds
    exact hproceeds
  | none =>
    rw [hm] at hproceeds
    exact hproceeds.sameHolders

/-- A new process has not been in the table. -/
theorem born_fresh (h : TableInv m.toCore) (hrun : m.step a = some m') (hp : InTable m.toCore p) :
    ¬a.call.births (m.before a) p := by
  intro hborn
  obtain ⟨r, k, again, hcall, -⟩ := step_cases hrun
  cases hc : a.call with
  | createProcess args =>
    rw [hc] at hcall hborn
    obtain ⟨⟨v, k₁⟩, hcreate, -⟩ := Option.map_eq_some_iff.mp hcall
    rcases createProcess_cases hcreate with ⟨-, hnobody, -⟩ | ⟨q, answers, live, c, -, hfresh, hnew, -⟩
    · exact (hnobody ▸ hborn : nobody p)
    · obtain rfl : p = q := (congrFun hnew p).mp hborn
      exact hfresh (h.records p hp)
  | _ =>
    rw [hc] at hborn
    exact hborn

/-! ### Processes and descriptors -/

/-- Of the calls behind the action, those on pipes close write ends last. -/
def UserAction.WritesLast (x : UserMachine) : UserAction → Prop
  | .call a => a.WritesLast x.toMachine
  | _ => True

instance (x : UserMachine) (b : UserAction) : Decidable (b.WritesLast x) := by
  unfold UserAction.WritesLast
  split <;> infer_instance

theorem UserAction.WritesLast.made (h : b.WritesLast x) (hm : b.made x = some a) : a.WritesLast x.toMachine := by
  cases b with
  | call b =>
    obtain rfl := Option.some.inj hm
    exact h
  | key scancode isPressed low offset answers =>
    unfold UserAction.made UserMachine.keyKill at hm
    dsimp only at hm
    split at hm
    · obtain rfl := Option.some.inj hm
      trivial
    · cases hm
  | _ => cases hm

section Action

variable (h : Wired x.toKernel) (hok : b.WritesLast x) (hrun : x.step b = some y)
include h hok hrun

theorem user_wired : Wired y.toKernel := by
  have hmade := user_made hrun
  cases hm : b.made x with
  | some a =>
    rw [hm] at hmade
    exact h.step (hok.made hm) hmade
  | none =>
    rw [hm] at hmade
    exact h.congr hmade.fds hmade.table
      (user_core (I := fun c => ∃ L, RingInv c L) (fun _ _ _ hL hst => step_ring hL hst) h.ring hrun)

/-- A process of the table that the action does not end stays, with its pid. -/
theorem user_inTable (hp : InTable x.toCore p) (hends : ¬b.ends x p) : InTable y.toCore p ∧ y.pid p = x.pid p := by
  have hmade := user_made hrun
  unfold UserAction.ends at hends
  cases hm : b.made x with
  | some a =>
    rw [hm] at hmade hends
    obtain ⟨r, k, again, hcall, -, htable⟩ := step_after hmade
    have hin := call_inTable (h.before a).table (hok.made hm) hcall hp hends
    refine ⟨htable.inTable.mpr hin, ?_⟩
    rw [(step_table hmade).pid_eq h.table.supply hp]
    rfl
  | none =>
    rw [hm] at hmade
    exact ⟨hmade.table.inTable.mpr hp, congrFun hmade.table.pid p⟩

/-- A process that the action does not end keeps an end that it does not close. -/
theorem user_hasEnd (hp : x.HasEnd p pipe ty fd) (hends : ¬b.ends x p)
    (hclose : ∀ a, b.made x = some a → a.call = .pipeClose fd → p ≠ x.currentProcess) : y.HasEnd p pipe ty fd := by
  have hmade := user_made hrun
  unfold UserAction.ends at hends
  cases hm : b.made x with
  | some a =>
    rw [hm] at hmade hends
    exact hp.step h (hok.made hm) hmade hends (hclose a hm)
  | none =>
    rw [hm] at hmade
    exact hp.congr hmade.fds hmade.table

omit hok

/-- A process of the table keeps its streams but for `sys_change_std`. -/
theorem user_std (hp : InTable x.toCore p) (hb : ∀ pid std newFd, b ≠ .sysChangeStd pid std newFd) :
    y.stdin p = x.stdin p ∧ y.stdout p = x.stdout p := by
  cases b with
  | call a =>
    obtain ⟨m, hstep, rfl⟩ := Option.map_eq_some_iff.mp (outside_some hrun).2
    have hborn := born_fresh h.table hstep hp
    exact ⟨if_neg hborn, if_neg hborn⟩
  | getPid | sysGetForeground =>
    obtain rfl := Option.some.inj (outside_some hrun).2
    exact ⟨rfl, rfl⟩
  | sysRead fd count =>
    obtain rfl := Option.some.inj (outside_some hrun).2
    unfold UserMachine.sysRead
    split
    · split <;> exact ⟨rfl, rfl⟩
    · exact ⟨rfl, rfl⟩
  | sysWrite fd buffer count =>
    obtain rfl := Option.some.inj (outside_some hrun).2
    unfold UserMachine.sysWrite
    split
    · split <;> exact ⟨rfl, rfl⟩
    · split <;> exact ⟨rfl, rfl⟩
  | sysChangeStd pid std newFd => exact absurd rfl (hb pid std newFd)
  | key scancode isPressed low offset answers =>
    obtain ⟨z, hz, rfl⟩ := Option.map_eq_some_iff.mp (outside_some hrun).2
    exact ⟨rfl, rfl⟩
  | goOn offset answers =>
    have hrun' : x.goOn offset answers = some y := hrun
    unfold UserMachine.goOn at hrun'
    split at hrun'
    · obtain ⟨z, hz, rfl⟩ := Option.map_eq_some_iff.mp hrun'
      exact ⟨rfl, rfl⟩
    · obtain ⟨z, hz, rfl⟩ := Option.map_eq_some_iff.mp hrun'
      exact ⟨rfl, rfl⟩

end Action

/-! ### Transfers and readers -/

/-- The transfer that a call on a descriptor begins. -/
def UserAction.begins (x : UserMachine) : UserAction → Option Transfer
  | .sysRead fd count =>
    if (fd : ℤ) = stdIn then
      if x.stdin x.currentProcess = stdIn then none else x.pipeRead (x.stdin x.currentProcess) count
    else x.pipeRead fd count
  | .sysWrite fd buffer count =>
    if (fd : ℤ) = stdOut ∨ (fd : ℤ) = stdErr then
      if x.OnScreen then none else x.pipeWrite (x.stdout x.currentProcess) buffer count
    else if 3 ≤ fd then x.pipeWrite fd buffer count
    else none
  | _ => none

theorem sysRead_transfer {fd : ℕ} {count : ℤ} (hidle : x.transfer x.currentProcess = none) :
    (x.sysRead fd count).transfer = update x.transfer x.currentProcess ((UserAction.sysRead fd count).begins x) := by
  have hnone : x.transfer = update x.transfer x.currentProcess none := by rw [← hidle, Function.update_eq_self]
  unfold UserMachine.sysRead UserAction.begins
  dsimp only
  split
  · split
    · exact hnone
    · rfl
  · rfl

theorem sysWrite_transfer {fd : ℕ} {buffer : ℕ → ℤ} {count : ℤ} (hidle : x.transfer x.currentProcess = none) :
    (x.sysWrite fd buffer count).transfer =
      update x.transfer x.currentProcess ((UserAction.sysWrite fd buffer count).begins x) := by
  have hnone : x.transfer = update x.transfer x.currentProcess none := by rw [← hidle, Function.update_eq_self]
  unfold UserMachine.sysWrite UserAction.begins
  dsimp only
  split
  · split
    · exact hnone
    · rfl
  · split
    · rfl
    · exact hnone

/-- A transfer under way was so before, on the same side of the same pipe, or has just begun. -/
theorem user_transfer (hrun : x.step b = some y) (ht : y.transfer p = some t) :
    (∃ t₀, x.transfer p = some t₀ ∧ t.side = t₀.side ∧ t.pipe = t₀.pipe ∧ t.count = t₀.count) ∨
      p = x.currentProcess ∧ b.begins x = some t := by
  have hkept {a : Action} (ht : x.leftTransfers a p = some t) : x.transfer p = some t := by
    unfold UserMachine.leftTransfers at ht
    split at ht
    · cases ht
    · exact ht
  have hbegin {o : Option Transfer} (ht : update x.transfer x.currentProcess o p = some t) :
      x.transfer p = some t ∨ p = x.currentProcess ∧ o = some t := by
    by_cases hp : p = x.currentProcess
    · rw [hp, Function.update_self] at ht
      exact Or.inr ⟨hp, ht⟩
    · rw [Function.update_of_ne hp] at ht
      exact Or.inl ht
  have hsame (ht : x.transfer p = some t) :
      ∃ t₀, x.transfer p = some t₀ ∧ t.side = t₀.side ∧ t.pipe = t₀.pipe ∧ t.count = t₀.count := ⟨t, ht, rfl, rfl, rfl⟩
  cases b with
  | call a =>
    obtain ⟨m, -, rfl⟩ := Option.map_eq_some_iff.mp (outside_some hrun).2
    exact Or.inl (hsame (hkept ht))
  | getPid | sysGetForeground =>
    obtain rfl := Option.some.inj (outside_some hrun).2
    exact Or.inl (hsame ht)
  | sysRead fd count =>
    obtain ⟨hbusy, hy⟩ := outside_some hrun
    obtain rfl := Option.some.inj hy
    rw [sysRead_transfer (not_not.mp fun h => hbusy (Or.inl h))] at ht
    exact (hbegin ht).imp_left hsame
  | sysWrite fd buffer count =>
    obtain ⟨hbusy, hy⟩ := outside_some hrun
    obtain rfl := Option.some.inj hy
    rw [sysWrite_transfer (not_not.mp fun h => hbusy (Or.inl h))] at ht
    exact (hbegin ht).imp_left hsame
  | sysChangeStd pid std newFd =>
    obtain rfl := Option.some.inj (outside_some hrun).2
    rw [(sysChangeStd_toKeyMachine x pid std newFd).2] at ht
    exact Or.inl (hsame ht)
  | key scancode isPressed low offset answers =>
    obtain ⟨z, -, rfl⟩ := Option.map_eq_some_iff.mp (outside_some hrun).2
    have ht' : (x.keyKill scancode isPressed offset answers).elim x.transfer x.leftTransfers p = some t := ht
    cases hkill : x.keyKill scancode isPressed offset answers with
    | none =>
      rw [hkill] at ht'
      exact Or.inl (hsame ht')
    | some a =>
      rw [hkill] at ht'
      exact Or.inl (hsame (hkept ht'))
  | goOn offset answers =>
    have hrun' : x.goOn offset answers = some y := hrun
    unfold UserMachine.goOn at hrun'
    split at hrun'
    · obtain ⟨z, hz, rfl⟩ := Option.map_eq_some_iff.mp hrun'
      obtain ⟨t₀, hcur, hcases⟩ := PipeMachine.goOn_cases hz
      have hnext {o : Option Transfer} (ho : ∀ t, o = some t → t.side = t₀.side ∧ t.pipe = t₀.pipe ∧ t.count = t₀.count)
          (ht : update x.transfer x.currentProcess o p = some t) :
          ∃ t₀, x.transfer p = some t₀ ∧ t.side = t₀.side ∧ t.pipe = t₀.pipe ∧ t.count = t₀.count := by
        rcases hbegin ht with hold | ⟨rfl, hnew⟩
        · exact hsame hold
        · exact ⟨t₀, hcur, ho t hnew⟩
      obtain ⟨-, m, -, rfl⟩ | ⟨-, -, m, -, rfl⟩ | ⟨-, -, rfl⟩ := hcases
      · refine Or.inl (hnext (fun t ht => ?_) ht)
        obtain rfl := Option.some.inj ht
        exact ⟨rfl, rfl, rfl⟩
      · refine Or.inl (hnext (fun t ht => ?_) ht)
        obtain rfl := Option.some.inj ht
        exact ⟨rfl, rfl, rfl⟩
      · refine Or.inl (hnext (fun t ht => ?_) ht)
        cases ht
    · obtain ⟨z, -, rfl⟩ := Option.map_eq_some_iff.mp hrun'
      exact Or.inl (hsame ht)

theorem queueKeys_reading {cs : List ℤ} {answers : List (List ℕ)} {x y : KeyMachine}
    (hrun : KeyMachine.queueKeys cs answers x = some y) : y.reading = x.reading := by
  induction cs generalizing x answers with
  | nil =>
    obtain rfl := Option.some.inj hrun
    rfl
  | cons c cs ih =>
    obtain ⟨z, hz, hrest⟩ := Option.bind_eq_some_iff.mp hrun
    obtain ⟨m, -, rfl⟩ := Option.map_eq_some_iff.mp hz
    exact ih (x := { x with toMachine := m, toKeys := x.toKeys.store c }) hrest

/-- A process that reads the keyboard did so before, or has just begun. -/
theorem user_reading {t : Reading} (hrun : x.step b = some y) (ht : y.reading p = some t) :
    (∃ t₀, x.reading p = some t₀ ∧ t.count = t₀.count) ∨
      p = x.currentProcess ∧ x.stdin p = stdIn ∧ ∃ fd : ℕ, (fd : ℤ) = stdIn ∧ b = .sysRead fd t.count := by
  have hsame (ht : x.reading p = some t) : ∃ t₀, x.reading p = some t₀ ∧ t.count = t₀.count := ⟨t, ht, rfl⟩
  have hkept {k : Kernel} {call : Call} (ht : (if call.ends k p then none else x.reading p) = some t) :
      x.reading p = some t := by
    split at ht
    · cases ht
    · exact ht
  cases b with
  | call a =>
    obtain ⟨m, -, rfl⟩ := Option.map_eq_some_iff.mp (outside_some hrun).2
    exact Or.inl (hsame (hkept ht))
  | getPid | sysGetForeground =>
    obtain rfl := Option.some.inj (outside_some hrun).2
    exact Or.inl (hsame ht)
  | sysRead fd count =>
    obtain rfl := Option.some.inj (outside_some hrun).2
    unfold UserMachine.sysRead at ht
    split at ht
    · rename_i hfd
      split at ht
      · rename_i hstd
        have ht' : update x.reading x.currentProcess (some ⟨count, [], false⟩) p = some t := ht
        by_cases hp : p = x.currentProcess
        · rw [hp, Function.update_self] at ht'
          obtain rfl := Option.some.inj ht'
          exact Or.inr ⟨hp, hp ▸ hstd, fd, hfd, rfl⟩
        · rw [Function.update_of_ne hp] at ht'
          exact Or.inl (hsame ht')
      · exact Or.inl (hsame ht)
    · exact Or.inl (hsame ht)
  | sysWrite fd buffer count =>
    obtain rfl := Option.some.inj (outside_some hrun).2
    rw [sysWrite_toKeyMachine] at ht
    exact Or.inl (hsame ht)
  | sysChangeStd pid std newFd =>
    obtain rfl := Option.some.inj (outside_some hrun).2
    rw [(sysChangeStd_toKeyMachine x pid std newFd).1] at ht
    exact Or.inl (hsame ht)
  | key scancode isPressed low offset answers =>
    obtain ⟨z, hz, rfl⟩ := Option.map_eq_some_iff.mp (outside_some hrun).2
    unfold KeyMachine.int21 KeyMachine.loadBuffer at hz
    dsimp only at hz
    split at hz
    · split at hz
      · obtain ⟨m, -, rfl⟩ := Option.map_eq_some_iff.mp hz
        exact Or.inl (hsame (hkept ht))
      · have hreading := queueKeys_reading hz
        exact Or.inl (hsame ((congrFun hreading p).symm.trans ht))
    · obtain rfl := Option.some.inj hz
      exact Or.inl (hsame ht)
  | goOn offset answers =>
    have hrun' : x.goOn offset answers = some y := hrun
    unfold UserMachine.goOn at hrun'
    split at hrun'
    · obtain ⟨z, -, rfl⟩ := Option.map_eq_some_iff.mp hrun'
      exact Or.inl (hsame ht)
    · obtain ⟨z, hz, rfl⟩ := Option.map_eq_some_iff.mp hrun'
      have hset {t₀ : Reading} {o : Option Reading} (hcur : x.reading x.currentProcess = some t₀)
          (ho : ∀ t, o = some t → t.count = t₀.count) (ht : update x.reading x.currentProcess o p = some t) :
          ∃ t₀, x.reading p = some t₀ ∧ t.count = t₀.count := by
        by_cases hp : p = x.currentProcess
        · rw [hp, Function.update_self] at ht
          exact ⟨t₀, hp ▸ hcur, ho t ht⟩
        · rw [Function.update_of_ne hp] at ht
          exact hsame ht
      simp only [KeyMachine.step] at hz
      split at hz
      · cases hz
      · rename_i t₀ hcur
        split at hz
        · obtain rfl := Option.some.inj hz
          refine Or.inl (hset hcur (fun t ht => ?_) ht)
          obtain rfl := Option.some.inj ht
          rfl
        · split at hz
          · obtain ⟨m, -, rfl⟩ := Option.map_eq_some_iff.mp hz
            refine Or.inl (hset hcur (fun t ht => ?_) ht)
            obtain rfl := Option.some.inj ht
            rfl
          · obtain rfl := Option.some.inj hz
            refine Or.inl (hset hcur (fun t ht => ?_) ht)
            cases ht

end BareKernel
