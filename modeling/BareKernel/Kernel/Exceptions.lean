import BareKernel.Kernel.Gate

/-! The exceptions, after the macro `exceptionHandler` of `asm/interrupts.asm`. The registers
are saved into `regBuffer`, from where the dispatcher prints them; then the frame that the
processor has pushed is changed, so that the processor goes on at the begin of the programs
with an empty stack. -/

namespace BareKernel.Interrupts

open Function (update)
open Links

/-- The registers in `regBuffer`, in the order of the labels that `printRegisters` prints. -/
def savedRegisters : List Reg :=
  [.rax, .rbx, .rcx, .rdx, .rsi, .rdi, .rbp, .rsp, .rip, .r8, .r9, .r10, .r11, .r12, .r13, .r14, .r15]

/-- The first address of the programs. -/
def userland : UInt64 := 0x400000

/-- `mov [rax], r` and `add rax, 8`, for each register of the list. -/
def storeAll (f : Reg → UInt64) : List Reg → ℕ → Bytes → Bytes
  | [], _, m => m
  | r :: rs, a, m => storeAll f rs (a + 8) (m.setWord a (f r))

/-- `auxRIP` lies behind the 17 words of `regBuffer`. -/
def auxRIP (regBuffer : ℕ) : ℕ := regBuffer + 136

/-- `rax` is saved first and walks through the buffer then; `rdi` is pushed while it holds
what is in `auxRIP`. -/
def saveRegisters (regBuffer : ℕ) (g : Context) (s : Stack) : Context × Stack :=
  let m := storeAll (update g .rsp (.ofNat s.sp)) (savedRegisters.take 8) regBuffer s.mem
  let s := Stack.push ⟨m, s.sp⟩ (g .rdi)
  let m := s.mem.setWord (regBuffer + 64) (s.mem.wordAt (auxRIP regBuffer))
  let s : Stack := ⟨m, s.sp⟩
  let g := update g .rdi s.pop.1
  let s := s.pop.2
  (update g .rax (.ofNat (regBuffer + 128)), ⟨storeAll g (savedRegisters.drop 9) (regBuffer + 72) s.mem, s.sp⟩)

def clearRegs (regBuffer : ℕ) (g : Context) (s : Stack) : Context × Stack :=
  let s := s.pushAll g [.rip, .rcx, .rax, .rdi]
  let s : Stack := ⟨storeAll (fun _ => 0) savedRegisters regBuffer s.mem, s.sp⟩
  s.popAll [.rdi, .rax, .rcx, .rip] (update (update (update g .rdi (.ofNat (regBuffer + 136))) .rax 0) .rcx 17)

/-- The handler up to the call of the dispatcher, from the frame on the stack on. -/
def dispatcherCall (regBuffer : ℕ) (id : UInt64) (g : Context) (s : Stack) : Context × Stack :=
  let s := s.push (g .rax)
  let g' := update g .rax (s.mem.wordAt (s.sp + 8))
  let s : Stack := ⟨s.mem.setWord (auxRIP regBuffer) (g' .rax), s.sp⟩
  let g := update g' .rax s.pop.1
  let s := s.pop.2
  let (g, s) := saveRegisters regBuffer g s
  (update g .rdi id, s.pushAll g pushState)

/-- `dispatcher` is `exceptionDispatcher` and `stackBase` is `getStackBase`: from the registers and the
stack at the call to the registers and the memory when they return. -/
def exceptionHandler (dispatcher stackBase : Context → Stack → Context × Bytes) (regBuffer : ℕ) (id : UInt64)
    (g : Context) (s : Stack) : Context × Stack :=
  let (g, s) := dispatcherCall regBuffer id g s
  let (g, mem) := dispatcher g s
  let (g, s) := (⟨mem, s.sp⟩ : Stack).popAll popState g
  let (g, s) := clearRegs regBuffer g s
  let (g, mem) := stackBase g s
  let mem := mem.setWord (s.sp + 8 * 3) (g .rax)
  let g := update g .rax userland
  leave g ⟨mem.setWord s.sp (g .rax), s.sp⟩

/-- The processor takes an exception. -/
def exception (dispatcher stackBase : Context → Stack → Context × Bytes) (regBuffer : ℕ) (id : UInt64)
    (g : Context) (s : Stack) : Context × Stack :=
  exceptionHandler dispatcher stackBase regBuffer id g (enter g s)

variable {dispatcher stackBase : Context → Stack → Context × Bytes} {f g : Context} {s : Stack} {m : Bytes}
  {rs : List Reg} {r : Reg} {a i regBuffer : ℕ} {id base : UInt64}

/-! ### The buffer -/

theorem storeAll_out (h : i < a ∨ a + 8 * rs.length ≤ i) : storeAll f rs a m i = m i := by
  induction rs generalizing a m with
  | nil => rfl
  | cons r rs ih =>
    rw [List.length_cons] at h
    rw [storeAll, ih (by omega), Bytes.setWord_out (by omega)]

theorem wordAt_storeAll_out {b : ℕ} (h : b + 8 ≤ a ∨ a + 8 * rs.length ≤ b) :
    (storeAll f rs a m).wordAt b = m.wordAt b :=
  Bytes.wordAt_congr fun _ _ _ => storeAll_out (by omega)

theorem wordAt_storeAll (hrs : rs.Nodup) (hr : r ∈ rs) : (storeAll f rs a m).wordAt (a + 8 * rs.idxOf r) = f r := by
  induction rs generalizing a m with
  | nil => cases hr
  | cons q rs ih =>
    obtain ⟨hnot, hnodup⟩ := List.nodup_cons.mp hrs
    rw [storeAll]
    by_cases hq : q = r
    · subst hq
      rw [List.idxOf_cons_self, wordAt_storeAll_out (by omega)]
      exact Bytes.wordAt_setWord ..
    · rw [List.idxOf_cons_ne _ hq, Nat.mul_succ, Nat.add_comm (8 * _) 8, ← Nat.add_assoc]
      exact ih hnodup ((List.mem_cons.mp hr).resolve_left (Ne.symm hq))

/-- The buffer and `auxRIP` behind it do not reach into the stack between `low` and `high`. -/
def BufferApart (regBuffer low high : ℕ) : Prop := regBuffer + 144 ≤ low ∨ high ≤ regBuffer

/-- What `saveRegisters` leaves. Its registers are those it began with, but `rax`. -/
theorem saveRegisters_spec (hroom : 8 ≤ s.sp) (hapart : BufferApart regBuffer (s.sp - 8) s.sp) :
    (saveRegisters regBuffer g s).1 = update g .rax (.ofNat (regBuffer + 128)) ∧
      (saveRegisters regBuffer g s).2.sp = s.sp ∧
      (∀ r ∈ savedRegisters, (saveRegisters regBuffer g s).2.mem.wordAt (regBuffer + 8 * savedRegisters.idxOf r) =
        update (update g .rsp (.ofNat s.sp)) .rip (s.mem.wordAt (auxRIP regBuffer)) r) ∧
      ∀ i, s.sp ≤ i → i < regBuffer ∨ regBuffer + 144 ≤ i → (saveRegisters regBuffer g s).2.mem i = s.mem i := by
  have hlen : (savedRegisters.take 8).length = 8 := rfl
  have hlen' : (savedRegisters.drop 9).length = 8 := rfl
  unfold BufferApart at hapart
  set f := update g .rsp (.ofNat s.sp) with hf
  set m₁ := storeAll f (savedRegisters.take 8) regBuffer s.mem with hm₁
  set m₂ := m₁.setWord (s.sp - 8) (g .rdi) with hm₂
  set m₃ := m₂.setWord (regBuffer + 64) (m₂.wordAt (auxRIP regBuffer)) with hm₃
  have hrdi : m₃.wordAt (s.sp - 8) = g .rdi := by
    rw [hm₃, Bytes.wordAt_setWord_of_disjoint (by omega)]
    exact Bytes.wordAt_setWord ..
  have hrip : m₂.wordAt (auxRIP regBuffer) = s.mem.wordAt (auxRIP regBuffer) := by
    unfold auxRIP
    rw [hm₂, Bytes.wordAt_setWord_of_disjoint (by omega), hm₁, wordAt_storeAll_out (by omega)]
  have hsame : update g .rdi (m₃.wordAt (s.sp - 8)) = g := by rw [hrdi, Function.update_eq_self]
  have hrun : saveRegisters regBuffer g s =
      (update g .rax (.ofNat (regBuffer + 128)),
        ⟨storeAll g (savedRegisters.drop 9) (regBuffer + 72) m₃, s.sp - 8 + 8⟩) := by
    have hopen : saveRegisters regBuffer g s =
        let g := update g .rdi (m₃.wordAt (s.sp - 8))
        (update g .rax (.ofNat (regBuffer + 128)),
          ⟨storeAll g (savedRegisters.drop 9) (regBuffer + 72) m₃, s.sp - 8 + 8⟩) := rfl
    rw [hopen, hsame]
  rw [hrun]
  refine ⟨rfl, Nat.sub_add_cancel hroom, fun r hr => ?_, fun i hi hout => ?_⟩
  · have hplaces : ∀ r ∈ savedRegisters,
        (r ∈ savedRegisters.take 8 ∧ savedRegisters.idxOf r = (savedRegisters.take 8).idxOf r) ∨ r = .rip ∨
          (r ∈ savedRegisters.drop 9 ∧ savedRegisters.idxOf r = 9 + (savedRegisters.drop 9).idxOf r) := by decide
    have hidx (rs : List Reg) (h : r ∈ rs) : rs.idxOf r < rs.length := List.idxOf_lt_length_of_mem h
    rcases hplaces r hr with ⟨hmem, he⟩ | rfl | ⟨hmem, he⟩
    · have hlt := hidx _ hmem
      have hne : r ≠ .rip := fun h => absurd (h ▸ hmem) (by decide)
      rw [he, wordAt_storeAll_out (by omega), hm₃, Bytes.wordAt_setWord_of_disjoint (by omega), hm₂,
        Bytes.wordAt_setWord_of_disjoint (by omega), hm₁, wordAt_storeAll (by decide) hmem, Function.update_of_ne hne]
    · have hidx : savedRegisters.idxOf .rip = 8 := rfl
      rw [hidx, wordAt_storeAll_out (by omega), hm₃, Function.update_self, ← hrip]
      exact Bytes.wordAt_setWord ..
    · have hne : r ≠ .rip := fun h => absurd (h ▸ hmem) (by decide)
      have hne' : r ≠ .rsp := fun h => absurd (h ▸ hmem) (by decide)
      rw [he, show regBuffer + 8 * (9 + (savedRegisters.drop 9).idxOf r) =
        regBuffer + 72 + 8 * (savedRegisters.drop 9).idxOf r by omega, wordAt_storeAll (by decide) hmem,
        Function.update_of_ne hne, hf, Function.update_of_ne hne']
  · dsimp only
    rw [storeAll_out (by omega), hm₃, Bytes.setWord_out (by omega), hm₂, Bytes.setWord_out (by omega), hm₁,
      storeAll_out (by omega)]

/-- Every register up to the call of the dispatcher, and the frame. -/
theorem dispatcherCall_spec (hroom : 120 ≤ s.sp) (hapart : BufferApart regBuffer (s.sp - 120) (s.sp + 40)) :
    ∃ x : Context, (∀ r, r ≠ .rax → x r = g r) ∧ (dispatcherCall regBuffer id g s).1 = update x .rdi id ∧
      (∃ t : Stack, (dispatcherCall regBuffer id g s).2 = t.pushAll x pushState ∧ t.sp = s.sp) ∧
      (∀ r ∈ savedRegisters, (dispatcherCall regBuffer id g s).2.mem.wordAt (regBuffer + 8 * savedRegisters.idxOf r) =
        update (update g .rsp (.ofNat s.sp)) .rip (s.mem.wordAt s.sp) r) ∧
      ∀ i, s.sp ≤ i → i < s.sp + 40 → (dispatcherCall regBuffer id g s).2.mem i = s.mem i := by
  unfold BufferApart at hapart
  set m₁ := (s.mem.setWord (s.sp - 8) (g .rax)).setWord (auxRIP regBuffer)
    ((s.mem.setWord (s.sp - 8) (g .rax)).wordAt (s.sp - 8 + 8)) with hm₁
  have hrip : (s.mem.setWord (s.sp - 8) (g .rax)).wordAt (s.sp - 8 + 8) = s.mem.wordAt s.sp := by
    rw [Nat.sub_add_cancel (by omega)]
    exact Bytes.wordAt_setWord_of_disjoint (by omega)
  have hrax : m₁.wordAt (s.sp - 8) = g .rax := by
    unfold auxRIP at hm₁
    rw [hm₁, Bytes.wordAt_setWord_of_disjoint (by omega)]
    exact Bytes.wordAt_setWord ..
  have hback : update (update g .rax (s.mem.wordAt s.sp)) .rax (m₁.wordAt (s.sp - 8)) = g := by
    rw [Function.update_idem, hrax, Function.update_eq_self]
  have hrun : dispatcherCall regBuffer id g s =
      (update (saveRegisters regBuffer g ⟨m₁, s.sp⟩).1 .rdi id,
        (saveRegisters regBuffer g ⟨m₁, s.sp⟩).2.pushAll (saveRegisters regBuffer g ⟨m₁, s.sp⟩).1 pushState) := by
    have hopen : dispatcherCall regBuffer id g s =
        let g₁ := update (update g .rax ((s.mem.setWord (s.sp - 8) (g .rax)).wordAt (s.sp - 8 + 8))) .rax
          (m₁.wordAt (s.sp - 8))
        (update (saveRegisters regBuffer g₁ ⟨m₁, s.sp - 8 + 8⟩).1 .rdi id,
          (saveRegisters regBuffer g₁ ⟨m₁, s.sp - 8 + 8⟩).2.pushAll (saveRegisters regBuffer g₁ ⟨m₁, s.sp - 8 + 8⟩).1
            pushState) := rfl
    rw [hopen, hrip, hback, Nat.sub_add_cancel (by omega)]
  have hnear : BufferApart regBuffer (s.sp - 8) s.sp := hapart.imp (fun h => by omega) fun h => by omega
  obtain ⟨hregs, hsp, hwords, hframe⟩ := saveRegisters_spec (g := g) (s := ⟨m₁, s.sp⟩) (show 8 ≤ s.sp by omega) hnear
  set t := (saveRegisters regBuffer g ⟨m₁, s.sp⟩).2 with ht
  have hlen : 8 * pushState.length = 120 := rfl
  have haux : m₁.wordAt (auxRIP regBuffer) = s.mem.wordAt s.sp := (Bytes.wordAt_setWord ..).trans hrip
  rw [hrun]
  refine ⟨_, fun r hr => by rw [hregs, Function.update_of_ne hr], rfl, ⟨t, rfl, hsp⟩, fun r hr => ?_,
    fun i hi hi' => ?_⟩
  · have hplace : 8 * savedRegisters.idxOf r < 8 * 17 :=
      Nat.mul_lt_mul_of_pos_left (List.idxOf_lt_length_of_mem hr) (by decide)
    have hkept : (t.pushAll (saveRegisters regBuffer g ⟨m₁, s.sp⟩).1 pushState).mem.wordAt
        (regBuffer + 8 * savedRegisters.idxOf r) = t.mem.wordAt (regBuffer + 8 * savedRegisters.idxOf r) := by
      refine Bytes.wordAt_congr fun i _ _ => ?_
      rcases hapart with hlow | hhigh
      · exact Stack.pushAll_below (by rw [hlen, hsp]; dsimp only; omega)
      · exact Stack.pushAll_above (by rw [hlen, hsp]; dsimp only; omega) (by rw [hsp]; dsimp only; omega)
    rw [hkept, hwords r hr, haux]
  · have hout : i < regBuffer ∨ regBuffer + 144 ≤ i := by omega
    have hm : m₁ i = s.mem i := by
      unfold auxRIP at hm₁
      rw [hm₁, Bytes.setWord_out (by omega), Bytes.setWord_out (by omega)]
    dsimp only
    rw [Stack.pushAll_above (by rw [hlen, hsp]; dsimp only; omega) (by rw [hsp]; exact hi), hframe i hi hout]
    exact hm

/-! ### Back to the programs -/

/-- The registers that a function leaves as they were. -/
def calleeSaved : List Reg := [.rbx, .rbp, .r12, .r13, .r14, .r15]

/-- The words of the frame, from the top of the stack on. -/
theorem enter_words (hroom : 55 ≤ s.sp) (hr : r ∈ iretq) :
    (enter g s).mem.wordAt ((enter g s).sp + 8 * iretq.idxOf r) = update g .rsp (.ofNat s.sp) r := by
  have h40 : 8 * interruptFrame.length ≤ (⟨s.mem, s.sp / 16 * 16⟩ : Stack).sp := show 40 ≤ s.sp / 16 * 16 by omega
  have hframe : ∀ r ∈ iretq, r ∈ interruptFrame := by decide
  exact Stack.wordAt_pushAll h40 (by decide) (hframe r hr)

/-- The registers are cleared in the buffer, and only `rdi`, `rax`, `rcx` and `rip` are popped. -/
theorem clearRegs_spec (hroom : 32 ≤ s.sp) :
    (clearRegs regBuffer g s).2.sp = s.sp ∧
      (∀ r ∈ calleeSaved, (clearRegs regBuffer g s).1 r = g r) ∧
      ∀ i, s.sp ≤ i → i < regBuffer ∨ regBuffer + 144 ≤ i → (clearRegs regBuffer g s).2.mem i = s.mem i := by
  unfold clearRegs
  dsimp only
  rw [Stack.popAll_stack, Stack.pushAll_sp]
  refine ⟨Nat.sub_add_cancel hroom, fun r hr => ?_, fun i hi hout => ?_⟩
  · have hother : ∀ r ∈ calleeSaved, r ∉ [Reg.rdi, .rax, .rcx, .rip] ∧ r ≠ .rcx ∧ r ≠ .rax ∧ r ≠ .rdi := by decide
    obtain ⟨hnot, hcx, hax, hdi⟩ := hother r hr
    rw [Stack.popAll_of_notMem hnot, Function.update_of_ne hcx, Function.update_of_ne hax, Function.update_of_ne hdi]
  · have hlen : savedRegisters.length = 17 := rfl
    dsimp only
    rw [storeAll_out (by omega)]
    exact Stack.pushAll_above hroom hi

/-- When the frame has been changed, the processor leaves the handler for the programs. -/
theorem leave_restarts (hroom : 55 ≤ s.sp) {x g' : Context} {s' : Stack}
    (hm : ∀ i, (enter g s).sp ≤ i → i < (enter g s).sp + 40 → m i = (enter g s).mem i)
    (hleave : leave x ⟨(m.setWord ((enter g s).sp + 8 * 3) base).setWord (enter g s).sp userland, (enter g s).sp⟩ =
      (g', s')) :
    g' .rip = userland ∧ g' .rsp = base ∧ s'.sp = base.toNat ∧ (∀ r ∈ [Reg.cs, .rflags, .ss], g' r = g r) ∧
      ∀ r ∉ iretq, g' r = x r := by
  have hwords (r : Reg) (hr : r ∈ iretq) := enter_words (g := g) hroom hr
  obtain ⟨a, ha⟩ : ∃ a, (enter g s).sp = a := ⟨_, rfl⟩
  rw [ha] at hm hwords hleave
  obtain ⟨m', hm'⟩ : ∃ m', (m.setWord (a + 8 * 3) base).setWord a userland = m' := ⟨_, rfl⟩
  rw [hm'] at hleave
  have hpop : (Stack.popAll iretq x ⟨m', a⟩).1 = g' := congrArg Prod.fst hleave
  have hword (r : Reg) (hr : r ∈ iretq) : g' r = m'.wordAt (a + 8 * iretq.idxOf r) := by
    rw [← hpop, Stack.popAll_apply (by decide) hr]
  have hrip : g' .rip = userland := by
    rw [hword .rip (by decide), ← hm']
    exact Bytes.wordAt_setWord ..
  have hrsp : g' .rsp = base := by
    rw [hword .rsp (by decide), show iretq.idxOf .rsp = 3 from rfl, ← hm', Bytes.wordAt_setWord_of_disjoint (by omega)]
    exact Bytes.wordAt_setWord ..
  have hsp : s'.sp = (g' .rsp).toNat := by
    rw [← hpop]
    exact (congrArg (fun y => y.2.sp) hleave).symm
  refine ⟨hrip, hrsp, by rw [hsp, hrsp], fun r hr => ?_, fun r hr => by rw [← hpop, Stack.popAll_of_notMem hr]⟩
  have hplace : ∀ r ∈ [Reg.cs, .rflags, .ss], r ∈ iretq ∧ r ≠ .rsp ∧ 0 < iretq.idxOf r ∧ iretq.idxOf r ≠ 3 ∧
      iretq.idxOf r < 5 := by decide
  obtain ⟨hmem, hne, h0, h3, h5⟩ := hplace r hr
  have hframe : (enter g s).mem.wordAt (a + 8 * iretq.idxOf r) = g r :=
    (hwords r hmem).trans (Function.update_of_ne hne ..)
  rw [hword r hmem, ← hm', Bytes.wordAt_setWord_of_disjoint (by omega), Bytes.wordAt_setWord_of_disjoint (by omega),
    ← hframe]
  exact Bytes.wordAt_congr fun i _ _ => hm i (by omega) (by omega)

/-- When a program has raised an exception, the dispatcher finds in the buffer, in the order of
its labels, the registers that the program had, except that it finds the stack pointer of the
handler. Then the processor goes on at the begin of the programs, with the flags and the segments
of the program that raised the exception and with the stack pointer that `getStackBase` names. -/
theorem exception_restarts (hroom : 175 ≤ s.sp) (hapart : BufferApart regBuffer (s.sp / 16 * 16 - 160) s.sp)
    (hdispatcher : let call := dispatcherCall regBuffer id g (enter g s)
      ∀ i, call.2.sp ≤ i → i < s.sp → (dispatcher call.1 call.2).2 i = call.2.mem i)
    (hbase : ∀ x t, (stackBase x t).1 .rax = base ∧ (∀ r ∈ calleeSaved, (stackBase x t).1 r = x r) ∧
      ∀ i, t.sp ≤ i → (stackBase x t).2 i = t.mem i) :
    let call := dispatcherCall regBuffer id g (enter g s)
    let back := exception dispatcher stackBase regBuffer id g s
    call.1 .rdi = id ∧
      (∀ r ∈ savedRegisters, call.2.mem.wordAt (regBuffer + 8 * savedRegisters.idxOf r) =
        if r = .rsp then .ofNat (s.sp / 16 * 16 - 40) else g r) ∧
      back.1 .rip = userland ∧ back.1 .rsp = base ∧ back.2.sp = base.toNat ∧
      ∀ r ∈ [Reg.cs, .rflags, .ss] ++ calleeSaved, back.1 r = g r := by
  intro call back
  obtain ⟨gm, tm, hcall⟩ : ∃ gm tm, dispatcherCall regBuffer id g (enter g s) = (gm, tm) := ⟨_, _, rfl⟩
  obtain ⟨gd, md, hret⟩ : ∃ gd md, dispatcher gm tm = (gd, md) := ⟨_, _, rfl⟩
  have hin := enter_sp g s
  have hapart' : BufferApart regBuffer ((enter g s).sp - 120) ((enter g s).sp + 40) := by
    unfold BufferApart at hapart ⊢
    omega
  obtain ⟨x, hx, hgm, ⟨t, htm, htsp⟩, hwords, hframe⟩ := @dispatcherCall_spec g (enter g s) regBuffer id
    (show 120 ≤ (enter g s).sp by omega) hapart'
  rw [hcall] at hdispatcher hgm htm hwords hframe
  dsimp only at hdispatcher hgm htm hwords hframe
  rw [hret] at hdispatcher
  dsimp only at hdispatcher
  have hlen : 8 * pushState.length = 120 := rfl
  have hlow : tm.sp = t.sp - 120 := by rw [htm, Stack.pushAll_sp, hlen]
  -- the registers that were pushed for the dispatcher come back
  have hpop : Stack.popAll popState gd ⟨md, tm.sp⟩ = (fun r => if r ∈ pushState then x r else gd r, ⟨md, t.sp⟩) := by
    rw [show popState = pushState.reverse from rfl, htm, Stack.pushAll_sp]
    refine Stack.popAll_pushAll (by omega) (fun i hi hi' => ?_) gd
    rw [← htm]
    exact hdispatcher i (by omega) (by omega)
  obtain ⟨g₂, hg₂⟩ : ∃ g₂ : Context, (fun r => if r ∈ pushState then x r else gd r) = g₂ := ⟨_, rfl⟩
  rw [hg₂] at hpop
  obtain ⟨hclear, hkept, hmem⟩ := @clearRegs_spec g₂ ⟨md, t.sp⟩ regBuffer
    (show 32 ≤ t.sp by omega)
  obtain ⟨g₃, t₃, hcleared⟩ : ∃ g₃ t₃, clearRegs regBuffer g₂ ⟨md, t.sp⟩ = (g₃, t₃) := ⟨_, _, rfl⟩
  rw [hcleared] at hclear hkept hmem
  dsimp only at hclear hkept hmem
  obtain ⟨hrax, hsaved, habove⟩ := hbase g₃ t₃
  obtain ⟨g₄, m₄, hlast⟩ : ∃ g₄ m₄, stackBase g₃ t₃ = (g₄, m₄) := ⟨_, _, rfl⟩
  rw [hlast] at hrax hsaved habove
  dsimp only at hrax hsaved habove
  have hsp₃ : t₃.sp = (enter g s).sp := hclear.trans htsp
  obtain ⟨g', s', hleave⟩ : ∃ g' s', leave (update g₄ .rax userland)
      ⟨(m₄.setWord ((enter g s).sp + 8 * 3) base).setWord (enter g s).sp userland, (enter g s).sp⟩ = (g', s') :=
    ⟨_, _, rfl⟩
  have hrun : exception dispatcher stackBase regBuffer id g s = (g', s') := by
    rw [exception, exceptionHandler, hcall]
    dsimp only
    rw [hret]
    dsimp only
    rw [hpop]
    dsimp only
    rw [hcleared]
    dsimp only
    rw [hlast]
    dsimp only
    rw [hrax, hsp₃, Function.update_self]
    exact hleave
  have hsame : ∀ i, (enter g s).sp ≤ i → i < (enter g s).sp + 40 → m₄ i = (enter g s).mem i := fun i hi hi' => by
    unfold BufferApart at hapart
    rw [habove i (by omega), hmem i (by omega) (by omega), hdispatcher i (by omega) (by omega)]
    exact hframe i hi hi'
  obtain ⟨hrip, hrsp, hsp', hsegments, hrest⟩ := leave_restarts (show 55 ≤ s.sp by omega) hsame hleave
  rw [show call = (gm, tm) from hcall, show back = (g', s') from hrun]
  have hid : gm .rdi = id := hgm ▸ Function.update_self ..
  refine ⟨hid, fun r hr => ?_, hrip, hrsp, hsp', fun r hr => ?_⟩
  · have hframe' : (enter g s).mem.wordAt (enter g s).sp = update g .rsp (.ofNat s.sp) .rip :=
      enter_words (r := .rip) (by omega) (by decide)
    show tm.mem.wordAt _ = _
    rw [hwords r hr, hframe', hin]
    rcases eq_or_ne r .rip with rfl | hne
    · rfl
    · rw [Function.update_of_ne hne]
      exact Function.update_apply ..
  · show g' r = g r
    rcases List.mem_append.mp hr with hr | hr
    · exact hsegments r hr
    · have hplace : ∀ r ∈ calleeSaved, r ∉ iretq ∧ r ∈ pushState ∧ r ≠ .rax := by decide
      obtain ⟨hnot, hpushed, hne⟩ := hplace r hr
      rw [hrest r hnot, Function.update_of_ne hne, hsaved r hr, hkept r hr, ← hg₂]
      exact (if_pos hpushed).trans (hx r hne)

/-- A division by zero, with a dispatcher that keeps no register. -/
theorem exception_restarts_zeroDivision :
    let dispatcher (_ : Context) (t : Stack) : Context × Bytes := (fun _ => 0, fun i => if i < t.sp then 7 else t.mem i)
    let stackBase (x : Context) (t : Stack) : Context × Bytes := (update x .rax 0x9000, t.mem)
    let g : Context := fun r => if r = .rip then 0x400123 else 3
    (dispatcherCall 8192 0 g (enter g ⟨fun _ => 1, 4000⟩)).2.mem.wordAt (8192 + 8 * 8) = 0x400123 ∧
      (exception dispatcher stackBase 8192 0 g ⟨fun _ => 1, 4000⟩).1 .rip = userland ∧
      (exception dispatcher stackBase 8192 0 g ⟨fun _ => 1, 4000⟩).1 .rsp = 0x9000 ∧
      (exception dispatcher stackBase 8192 0 g ⟨fun _ => 1, 4000⟩).1 .r12 = 3 := by
  intro dispatcher stackBase g
  have hdispatcher (call : Context × Stack) (i : ℕ) (hi : call.2.sp ≤ i) :
      (dispatcher call.1 call.2).2 i = call.2.mem i := if_neg (Nat.not_lt.mpr hi)
  have hbase (x : Context) (t : Stack) : (stackBase x t).1 .rax = 0x9000 ∧
      (∀ r ∈ calleeSaved, (stackBase x t).1 r = x r) ∧ ∀ i, t.sp ≤ i → (stackBase x t).2 i = t.mem i :=
    ⟨Function.update_self Reg.rax _ x,
      fun r hr => Function.update_of_ne (by rintro rfl; exact absurd hr (by decide)) _ x, fun _ _ => rfl⟩
  obtain ⟨-, hwords, hrip, hrsp, -, hkept⟩ := @exception_restarts dispatcher stackBase g ⟨fun _ => 1, 4000⟩ 8192 0
    0x9000 (by decide) (Or.inr (by decide)) (fun i hi _ => hdispatcher _ i hi) hbase
  exact ⟨hwords .rip (by decide), hrip, hrsp, hkept .r12 (by decide)⟩

end BareKernel.Interrupts
