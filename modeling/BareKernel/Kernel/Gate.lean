import BareKernel.Kernel.Frame

/-! The way into the kernel and back, after the `syscall` of the programs and
`_irq08Handler`. The kernel runs on the stack of its caller. For the caller a system call
is a call of `syscallsManager` with the seven arguments of `syscall`: it gets back `rax`,
and every other register but `rbx` as it was. -/

namespace BareKernel.Interrupts

open Function (update)
open Links Process

variable {manager : Context → Stack → Context × Bytes} {g : Context} {s : Stack} {m : Bytes} {i : ℕ} {r : Reg}

def pushStateNoRax : List Reg :=
  [.rbx, .rcx, .rdx, .rbp, .rdi, .rsi, .r8, .r9, .r10, .r11, .r12, .r13, .r14, .r15]

def popStateNoRax : List Reg :=
  [.r15, .r14, .r13, .r12, .r11, .r10, .r9, .r8, .rsi, .rdi, .rbp, .rdx, .rcx, .rbx]

/-- The processor enters a handler. -/
def enter (g : Context) (s : Stack) : Stack :=
  Stack.pushAll (update g .rsp (.ofNat s.sp)) ⟨s.mem, s.sp / 16 * 16⟩ interruptFrame

/-- The processor leaves a handler. -/
def leave (g : Context) (s : Stack) : Context × Stack :=
  let (g, s) := s.popAll iretq g
  (g, ⟨s.mem, (g .rsp).toNat⟩)

/-- The beginning of `_irq08Handler`. -/
def saveState (g : Context) (s : Stack) : Context × Stack :=
  let s := s.push (g .rbp)
  let g := update g .rbp (.ofNat s.sp)
  (g, s.pushAll g pushStateNoRax)

/-- The seventh and the eighth argument are copied from where `rbx` points to. -/
def passArguments (g : Context) (s : Stack) : Context × Stack :=
  let s : Stack := ⟨s.mem, s.sp - 16⟩
  let g := update g .rax (s.mem.wordAt (g .rbx).toNat)
  let s : Stack := ⟨s.mem.setWord s.sp (g .rax), s.sp⟩
  let g := update g .rax (s.mem.wordAt ((g .rbx).toNat + 8))
  (g, ⟨s.mem.setWord (s.sp + 8) (g .rax), s.sp⟩)

/-- The end of `_irq08Handler`. -/
def restoreState (g : Context) (s : Stack) : Context × Stack :=
  let s : Stack := ⟨s.mem, s.sp + 16⟩
  let (g, s) := s.popAll popStateNoRax g
  let s : Stack := ⟨s.mem, (g .rbp).toNat⟩
  (update g .rbp s.pop.1, s.pop.2)

/-- What `syscallsManager` is called with. -/
def managerCall (g : Context) (s : Stack) : Context × Stack :=
  let (g, s) := saveState g s
  passArguments g s

/-- `manager` is `syscallsManager`: from the registers and the stack at the call, with the
seventh argument on top, to the registers and the memory when it returns. -/
def irq08Handler (manager : Context → Stack → Context × Bytes) (g : Context) (s : Stack) : Context × Stack :=
  let (g, s) := managerCall g s
  let (g, mem) := manager g s
  restoreState g ⟨mem, s.sp⟩

def int80 (manager : Context → Stack → Context × Bytes) (g : Context) (s : Stack) : Context × Stack :=
  let (g, s) := irq08Handler manager g (enter g s)
  leave g s

/-- The `syscall` of the programs up to its interrupt: from its entry, with the return
address on top. -/
def syscallEntry (g : Context) (s : Stack) : Context × Stack :=
  let s := s.push (g .rbp)
  let g := update g .rbp (.ofNat s.sp)
  (update g .rbx (g .rbp + 16), s)

def syscall (manager : Context → Stack → Context × Bytes) (g : Context) (s : Stack) : Context × Stack :=
  let (g, s) := syscallEntry g s
  let (g, s) := int80 manager g s
  let s : Stack := ⟨s.mem, (g .rbp).toNat⟩
  let g := update g .rbp s.pop.1
  let s := s.pop.2
  (update g .rip s.pop.1, s.pop.2)

/-- What `syscallsManager` is called with when the program calls `syscall`. -/
def syscallCall (g : Context) (s : Stack) : Context × Stack :=
  let (g, s) := syscallEntry g s
  managerCall g (enter g s)

/-- The room that the way into the kernel takes: the frame of the processor, `rbp`, the
saved registers and two arguments, and up to `15` to align. -/
def gateSize : ℕ := 15 + 40 + 8 + 112 + 16

/-! ### Into the kernel -/

theorem toNat_ofNat {n : ℕ} (h : n < 2 ^ 64) : (UInt64.ofNat n).toNat = n := by
  rw [UInt64.toNat_ofNat']
  exact Nat.mod_eq_of_lt h

theorem enter_sp (g : Context) (s : Stack) : (enter g s).sp = s.sp / 16 * 16 - 40 := Stack.pushAll_sp ..

theorem enter_above (hroom : 55 ≤ s.sp) (hi : s.sp / 16 * 16 ≤ i) : (enter g s).mem i = s.mem i := by
  have h40 : 40 ≤ s.sp / 16 * 16 := by omega
  exact Stack.pushAll_above (s := ⟨s.mem, s.sp / 16 * 16⟩) h40 hi

theorem saveState_sp (g : Context) (s : Stack) : (saveState g s).2.sp = s.sp - 120 := by
  have h : (saveState g s).2.sp = s.sp - 8 - 112 := Stack.pushAll_sp ..
  omega

theorem saveState_above (hroom : 120 ≤ s.sp) (hi : s.sp ≤ i) : (saveState g s).2.mem i = s.mem i := by
  have h112 : 8 * pushStateNoRax.length ≤ (s.push (g .rbp)).sp := show 112 ≤ s.sp - 8 by omega
  have hi' : (s.push (g .rbp)).sp ≤ i := show s.sp - 8 ≤ i by omega
  exact (Stack.pushAll_above h112 hi').trans (Stack.push_above (by omega) hi _)

theorem passArguments_sp (g : Context) (s : Stack) : (passArguments g s).2.sp = s.sp - 16 := rfl

theorem passArguments_above (hroom : 16 ≤ s.sp) (hi : s.sp ≤ i) : (passArguments g s).2.mem i = s.mem i := by
  have hsecond (m : Bytes) (v : UInt64) : m.setWord (s.sp - 16 + 8) v i = m i := Bytes.setWord_out (Or.inr (by omega))
  have hfirst (m : Bytes) (v : UInt64) : m.setWord (s.sp - 16) v i = m i := Bytes.setWord_out (Or.inr (by omega))
  exact (hsecond _ _).trans (hfirst _ _)

/-- The two arguments are where the caller has put them. -/
theorem passArguments_words (hroom : 16 ≤ s.sp) (hrbx : s.sp ≤ (g .rbx).toNat) :
    (passArguments g s).2.mem.wordAt (s.sp - 16) = s.mem.wordAt (g .rbx).toNat ∧
      (passArguments g s).2.mem.wordAt (s.sp - 16 + 8) = s.mem.wordAt ((g .rbx).toNat + 8) := by
  set m₁ := s.mem.setWord (s.sp - 16) (s.mem.wordAt (g .rbx).toNat) with hm₁
  have hmem : (passArguments g s).2.mem = m₁.setWord (s.sp - 16 + 8) (m₁.wordAt ((g .rbx).toNat + 8)) := rfl
  rw [hmem]
  constructor
  · rw [Bytes.wordAt_setWord_of_disjoint (by omega)]
    exact Bytes.wordAt_setWord ..
  · rw [Bytes.wordAt_setWord]
    exact Bytes.wordAt_setWord_of_disjoint (by omega)

/-! ### Back to the caller -/

/-- What has been saved comes back, with the stack pointer. -/
theorem restoreState_saveState (hroom : 136 ≤ s.sp) (hsp : s.sp < 2 ^ 64)
    (hm : ∀ i, (saveState g s).2.sp ≤ i → i < s.sp → m i = (saveState g s).2.mem i) (gx : Context) :
    restoreState gx ⟨m, (saveState g s).2.sp - 16⟩ =
      (fun r => if r ∈ pushStateNoRax then g r else gx r, ⟨m, s.sp⟩) := by
  set g₁ := update g .rbp (.ofNat (s.sp - 8)) with hg₁
  set s₁ := s.push (g .rbp) with hs₁
  have hsp₁ : s₁.sp = s.sp - 8 := rfl
  have hsave : (saveState g s).2 = Stack.pushAll g₁ s₁ pushStateNoRax := rfl
  have hlow := saveState_sp g s
  have h112 : 8 * pushStateNoRax.length ≤ s₁.sp := show 112 ≤ s.sp - 8 by omega
  have hpops : Stack.popAll popStateNoRax gx ⟨m, (saveState g s).2.sp⟩ =
      (fun r => if r ∈ pushStateNoRax then g₁ r else gx r, ⟨m, s.sp - 8⟩) := by
    rw [hsave, Stack.pushAll_sp]
    refine Stack.popAll_pushAll h112 (fun i hi hi' => ?_) gx
    rw [← Stack.pushAll_sp g₁, ← hsave] at hi
    rw [← hsave]
    exact hm i hi (by omega)
  have hbase : m.wordAt (s.sp - 8) = g .rbp := by
    rw [Bytes.wordAt_congr (m := s₁.mem)]
    · exact Bytes.wordAt_setWord ..
    · intro i hi hi'
      rw [hm i (by omega) (by omega), hsave]
      exact Stack.pushAll_above h112 hi
  have hplace : (saveState g s).2.sp - 16 + 16 = (saveState g s).2.sp := by omega
  have hrbp : (if Reg.rbp ∈ pushStateNoRax then g₁ .rbp else gx .rbp).toNat = s.sp - 8 := by
    rw [if_pos (by decide), hg₁, Function.update_self]
    exact toNat_ofNat (by omega)
  rw [restoreState]
  dsimp only
  rw [hplace, hpops]
  dsimp only [Stack.pop]
  rw [hrbp, hbase]
  have hregs : update (fun r => if r ∈ pushStateNoRax then g₁ r else gx r) .rbp (g .rbp) =
      fun r => if r ∈ pushStateNoRax then g r else gx r := by
    funext r
    rcases eq_or_ne r .rbp with rfl | hr
    · exact (Function.update_self ..).trans (if_pos (by decide)).symm
    · rw [Function.update_of_ne hr, hg₁, Function.update_of_ne hr]
  rw [hregs, show s.sp - 8 + 8 = s.sp by omega]

theorem leave_enter (hroom : 55 ≤ s.sp) (hsp : s.sp < 2 ^ 64)
    (hm : ∀ i, (enter g s).sp ≤ i → i < s.sp → m i = (enter g s).mem i) (gx : Context) :
    leave gx ⟨m, (enter g s).sp⟩ =
      (fun r => if r ∈ interruptFrame then update g .rsp (.ofNat s.sp) r else gx r, ⟨m, s.sp⟩) := by
  have h40 : 8 * interruptFrame.length ≤ (⟨s.mem, s.sp / 16 * 16⟩ : Stack).sp := show 40 ≤ s.sp / 16 * 16 by omega
  have hpops : Stack.popAll iretq gx ⟨m, (enter g s).sp⟩ =
      (fun r => if r ∈ interruptFrame then update g .rsp (.ofNat s.sp) r else gx r, ⟨m, s.sp / 16 * 16⟩) := by
    rw [enter_sp]
    refine Stack.popAll_pushAll h40 (fun i hi hi' => ?_) gx
    exact hm i (le_of_eq_of_le (enter_sp g s) hi) (lt_of_lt_of_le hi' (Nat.div_mul_le_self ..))
  have hrsp : (if Reg.rsp ∈ interruptFrame then update g .rsp (.ofNat s.sp) .rsp else gx .rsp).toNat = s.sp := by
    rw [if_pos (by decide), Function.update_self]
    exact toNat_ofNat hsp
  rw [leave, hpops]
  dsimp only
  rw [hrsp]

/-- `int 80h` gives back every register but `rax`, and the stack pointer, if the manager
leaves alone what has been saved. -/
theorem int80_eq (hroom : gateSize ≤ s.sp) (hsp : s.sp < 2 ^ 64) {gm : Context} {tm : Stack} {gr : Context} {mr : Bytes}
    (hcall : managerCall g (enter g s) = (gm, tm)) (hret : manager gm tm = (gr, mr))
    (hkeeps : ∀ i, tm.sp + 16 ≤ i → i < s.sp → mr i = tm.mem i) :
    int80 manager g s =
      (fun r => if r = .rax then gr .rax else if r = .rsp then .ofNat s.sp else g r, ⟨mr, s.sp⟩) := by
  have hroom : 191 ≤ s.sp := hroom
  have hin := enter_sp g s
  set t := enter g s with ht
  have hlow := saveState_sp g t
  have htm : tm = (passArguments (saveState g t).1 (saveState g t).2).2 := (congrArg Prod.snd hcall).symm
  have htsp : tm.sp = (saveState g t).2.sp - 16 := by
    rw [htm]
    exact passArguments_sp ..
  have hsaved (i : ℕ) (hi : (saveState g t).2.sp ≤ i) (hi' : i < s.sp) : mr i = (saveState g t).2.mem i := by
    rw [hkeeps i (by omega) hi', htm]
    exact passArguments_above (by omega) hi
  have hirq : irq08Handler manager g t = (fun r => if r ∈ pushStateNoRax then g r else gr r, ⟨mr, t.sp⟩) := by
    rw [irq08Handler, hcall]
    dsimp only
    rw [hret]
    dsimp only
    rw [htsp]
    exact restoreState_saveState (by omega) (by omega) (fun i hi hi' => hsaved i hi (by omega)) gr
  rw [int80, ← ht, hirq]
  dsimp only
  rw [ht, leave_enter (by omega) hsp]
  · refine Prod.ext (funext fun r => ?_) rfl
    cases r <;> rfl
  · intro i hi hi'
    rw [← ht] at hi ⊢
    rw [hsaved i (by omega) hi']
    exact saveState_above (by omega) hi

/-- For the caller of `syscall`, whose stack pointer is `s.sp`, the system call is a call of
`syscallsManager` with the arguments of `syscall`: the six registers and what lies behind the
return address. `syscall` returns what the manager returns, with the memory that it leaves,
and gives back every register but `rbx`, if the manager leaves alone what has been saved. -/
theorem syscall_eq (hroom : gateSize + 8 ≤ s.sp) (hsp : s.sp + 24 ≤ 2 ^ 64)
    (hkeeps : ∀ i, (syscallCall g s).2.sp + 16 ≤ i → i < s.sp + 8 →
      (manager (syscallCall g s).1 (syscallCall g s).2).2 i = (syscallCall g s).2.mem i) :
    let (gm, tm) := syscallCall g s
    let (gr, mr) := manager gm tm
    let (g', s') := syscall manager g s
    (∀ r ∈ [Reg.rdi, .rsi, .rdx, .rcx, .r8, .r9], gm r = g r) ∧
      tm.mem.wordAt tm.sp = s.mem.wordAt (s.sp + 8) ∧ tm.mem.wordAt (tm.sp + 8) = s.mem.wordAt (s.sp + 16) ∧
      (∀ i, s.sp ≤ i → tm.mem i = s.mem i) ∧ s' = ⟨mr, s.sp + 8⟩ ∧ g' .rax = gr .rax ∧
      g' .rip = s.mem.wordAt s.sp ∧ ∀ r, r ≠ .rax → r ≠ .rbx → r ≠ .rip → r ≠ .rsp → g' r = g r := by
  obtain ⟨gm, tm, hcall⟩ : ∃ gm tm, syscallCall g s = (gm, tm) := ⟨_, _, rfl⟩
  obtain ⟨gr, mr, hret⟩ : ∃ gr mr, manager gm tm = (gr, mr) := ⟨_, _, rfl⟩
  rw [hcall] at hkeeps ⊢
  dsimp only at hkeeps ⊢
  rw [hret] at hkeeps ⊢
  dsimp only at hkeeps ⊢
  change managerCall (syscallEntry g s).1 (enter (syscallEntry g s).1 (syscallEntry g s).2) = _ at hcall
  have hroom : 199 ≤ s.sp := hroom
  set s₁ := (syscallEntry g s).2 with hs₁
  set g₁ := (syscallEntry g s).1 with hg₁
  have hsp₁ : s₁.sp = s.sp - 8 := rfl
  have hrbx : (g₁ .rbx).toNat = s.sp + 8 := by
    have hval : g₁ .rbx = UInt64.ofNat (s.sp - 8) + 16 := rfl
    rw [hval, UInt64.toNat_add, toNat_ofNat (by omega)]
    show (s.sp - 8 + 16) % 2 ^ 64 = _
    omega
  have hsame (r : Reg) (hbx : r ≠ .rbx) (hbp : r ≠ .rbp) : g₁ r = g r :=
    (Function.update_of_ne hbx ..).trans (Function.update_of_ne hbp ..)
  have hin := enter_sp g₁ s₁
  set t := enter g₁ s₁ with ht
  have hlow := saveState_sp g₁ t
  have htm : tm = (passArguments (saveState g₁ t).1 (saveState g₁ t).2).2 := (congrArg Prod.snd hcall).symm
  have hgm : gm = (passArguments (saveState g₁ t).1 (saveState g₁ t).2).1 := (congrArg Prod.fst hcall).symm
  have htsp : tm.sp = (saveState g₁ t).2.sp - 16 := by
    rw [htm]
    exact passArguments_sp ..
  have hsaved (i : ℕ) (hi : s.sp ≤ i) : (saveState g₁ t).2.mem i = s.mem i := by
    rw [saveState_above (by omega) (by omega), enter_above (by omega) (by omega)]
    exact Stack.push_above (by omega) hi _
  have habove (i : ℕ) (hi : s.sp ≤ i) : tm.mem i = s.mem i := by
    rw [htm, passArguments_above (by omega) (by omega)]
    exact hsaved i hi
  obtain ⟨harg, harg'⟩ := passArguments_words (g := (saveState g₁ t).1) (s := (saveState g₁ t).2) (by omega)
    (show (saveState g₁ t).2.sp ≤ (g₁ .rbx).toNat by omega)
  have hword (a : ℕ) (ha : s.sp ≤ a) : (saveState g₁ t).2.mem.wordAt a = s.mem.wordAt a :=
    Bytes.wordAt_congr fun i hi _ => hsaved i (ha.trans hi)
  have hback : int80 manager g₁ s₁ =
      (fun r => if r = .rax then gr .rax else if r = .rsp then .ofNat s₁.sp else g₁ r, ⟨mr, s₁.sp⟩) :=
    int80_eq (show 191 ≤ s₁.sp by omega) (by omega) hcall hret fun i hi hi' => hkeeps i hi (by omega)
  have hrbp : (UInt64.ofNat (s.sp - 8)).toNat = s.sp - 8 := toNat_ofNat (by omega)
  have holdRbp : mr.wordAt (s.sp - 8) = g .rbp := by
    rw [Bytes.wordAt_congr (m := s₁.mem)]
    · exact Bytes.wordAt_setWord ..
    · intro i hi hi'
      rw [hkeeps i (by omega) (by omega), htm, passArguments_above (by omega) (by omega),
        saveState_above (by omega) (by omega)]
      exact enter_above (by omega) (by omega)
  have hreturn : mr.wordAt s.sp = s.mem.wordAt s.sp := Bytes.wordAt_congr fun i hi hi' => by
    rw [hkeeps i (by omega) hi', habove i hi]
  have hrun : syscall manager g s =
      (update (update (fun r => if r = .rax then gr .rax else if r = .rsp then .ofNat s₁.sp else g₁ r) .rbp (g .rbp))
        .rip (s.mem.wordAt s.sp), ⟨mr, s.sp + 8⟩) := by
    have hfp : (if Reg.rbp = .rax then gr .rax else if Reg.rbp = .rsp then .ofNat s₁.sp else g₁ .rbp) =
        UInt64.ofNat (s.sp - 8) := rfl
    have hentry : syscallEntry g s = (g₁, s₁) := rfl
    rw [syscall, hentry]
    dsimp only
    rw [hback]
    dsimp only [Stack.pop]
    rw [hfp, hrbp, holdRbp, show s.sp - 8 + 8 = s.sp by omega, hreturn]
  rw [hrun]
  refine ⟨fun r hr => ?_, ?_, ?_, habove, rfl, rfl, rfl, fun r hax hbx hip hsp => ?_⟩
  · rw [hgm]
    have hpass : (passArguments (saveState g₁ t).1 (saveState g₁ t).2).1 r = g r := by
      simp only [List.mem_cons, List.not_mem_nil, or_false] at hr
      rcases hr with rfl | rfl | rfl | rfl | rfl | rfl <;> rfl
    exact hpass
  · rw [htsp, htm, harg, ← hword _ (by omega)]
    exact congrArg _ hrbx
  · rw [htsp, htm, harg', ← hword _ (by omega)]
    exact congrArg (fun n => (saveState g₁ t).2.mem.wordAt (n + 8)) hrbx
  · dsimp only
    rw [Function.update_of_ne hip]
    rcases eq_or_ne r .rbp with rfl | hbp
    · exact Function.update_self ..
    · rw [Function.update_of_ne hbp, if_neg hax, if_neg hsp]
      exact hsame r hbx hbp

/-- A manager that returns `7` and leaves nothing below its arguments as it was. -/
theorem syscall_eq_seven :
    let manager (_ : Context) (t : Stack) : Context × Bytes :=
      (fun _ => 7, fun i => if i < t.sp + 16 then 0 else t.mem i)
    (syscall manager (fun _ => 3) ⟨fun _ => 1, 4000⟩).1 .rax = 7 ∧
      (syscall manager (fun _ => 3) ⟨fun _ => 1, 4000⟩).1 .rbp = 3 := by
  intro manager
  obtain ⟨-, -, -, -, -, hrax, -, hrest⟩ := @syscall_eq manager (fun _ => 3) ⟨fun _ => 1, 4000⟩
    (by decide) (by decide) fun i hi _ => if_neg (Nat.not_lt.mpr hi)
  exact ⟨hrax, hrest .rbp (by decide) (by decide) (by decide) (by decide)⟩

end BareKernel.Interrupts
