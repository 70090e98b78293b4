import BareKernel.Kernel.Keyboard

/-! The keyboard buffer is a queue as long as the characters of the whole run fit in:
the positions do not wrap before the end of the array. There is at least one unread
character for each free token of the semaphore and each reader that has got one; a reader
that ends takes its token with it. -/

namespace BareKernel

open Function (update)
open Process Links Machine

variable {m m' : Machine} {x y : KeyMachine} {a : Action} {t : Reading} {k : Kernel} {q d cs : List ℤ}
  {v n p i scancode offset : ℕ} {c r low count : ℤ} {again isPressed : Bool} {answers : List ℕ} {nodes : List (List ℕ)}

/-! ### The semaphore -/

/-- The call wakes nobody who waits at the semaphore. -/
def Action.LetsWait (m : Machine) (id : ℤ) (a : Action) : Prop :=
  ∀ i < maxProcesses, Inside m (.sem id) (m.processesList i) → ¬a.call.wakes (m.before a) (m.processesList i)

instance (m : Machine) (id : ℤ) (a : Action) : Decidable (a.LetsWait m id) := by
  dsimp only [Action.LetsWait]
  infer_instance

/-- The semaphore of the keyboard has `v` tokens, and nobody on the processor waits for
it. -/
structure KeySem (m : Machine) (v : ℕ) : Prop where
  inv : KernelInv m.toKernel
  why : WhyBlocked m
  alive : Alive m.toCore
  value : (m.sems isKey).value = v
  cpu : ¬Inside m (.sem isKey) m.currentProcess

theorem KeySem.isOpen (h : KeySem m v) : m.IsOpen isKey := by
  refine ⟨by decide, by decide, ?_⟩
  rw [h.value]
  omega

theorem popLive_value (c : Core) (n : ℕ) (s : Semaphore) : (s.popLive c n).2.value = s.value := by
  induction n generalizing s with
  | zero => rfl
  | succ n ih =>
    rw [Semaphore.popLive]
    split
    · rfl
    · rw [ih]

/-- A post gives its token to one who waits, to nobody, or leaves it. -/
theorem KeySem.post (h : KeySem m v) (hv : v + 1 < 2 ^ 15) (hc : a.call = .semPost isKey)
    (hrun : m.step a = some m') :
    m'.currentProcess = m.currentProcess ∧ ∃ v', KeySem m' v' ∧
      (v' = v + 1 ∧ (∀ p, Inside m (.sem isKey) p → Inside m' (.sem isKey) p) ∨
        v' = v ∧ ∃ q, ∀ p, Inside m (.sem isKey) p → p ≠ q → Inside m' (.sem isKey) p) := by
  obtain ⟨r, k, again, hs⟩ := exists_callStep h.inv h.why (by rw [hc]; trivial) (by rw [hc]; simp) hrun
  have hcall := hs.call
  rw [hc] at hcall
  obtain ⟨⟨w, k₁⟩, hpost, hret⟩ := Option.map_eq_some_iff.mp hcall
  obtain ⟨-, rfl, rfl⟩ : w = r ∧ k₁ = k ∧ false = again := by simpa using hret
  have hcpu := hs.outside h.cpu fun hno => by cases hno
  have hcur : m'.currentProcess = m.currentProcess := by
    rw [hs.quiet rfl]
    exact hs.effect.currentProcess
  have hstay (p : ℕ) (hin : Inside m (.sem isKey) p) (hwake : ¬(Call.semPost isKey).wakes (m.before a) p) :
      Inside m' (.sem isKey) p := by
    rw [hs.inside_iff, hc]
    exact Or.inl ⟨hin, hwake, fun he => he, fun hself => by simp at hself⟩
  have hpopped := popLive_value (m.before a).toCore ((m.before a).sems isKey).count ((m.before a).sems isKey)
  refine ⟨hcur, ?_⟩
  rcases semPost_cases hpost with ⟨hclosed, -, -⟩ | ⟨-, -, ⟨pid, s, w', c, hpop, -, hk⟩ | ⟨s, hpop, hk⟩⟩
  · exact absurd h.isOpen hclosed
  · rw [hpop] at hpopped
    have hsems : m'.sems isKey = s := by
      rw [hs.sems, hk]
      exact setSem_self (m.before a) isKey _
    have hvalue : (m'.sems isKey).value = v := by
      rw [hsems]
      exact hpopped.trans h.value
    refine ⟨v, ⟨hs.inv, hs.whyBlocked, hs.alive h.alive, hvalue, hcpu⟩, Or.inr ⟨rfl, ?_⟩⟩
    refine ⟨getProcessByPid (m.before a).toCore pid, fun p hin hne => hstay p hin ?_⟩
    rintro ⟨-, pid', hpid', hwakes⟩
    rw [hpop] at hpid'
    obtain rfl := Option.some.inj hpid'
    exact hne hwakes.2.1
  · rw [hpop] at hpopped
    have hsems : m'.sems isKey = { s with value := (s.value + 1).bmod (2 ^ 16) } := by
      rw [hs.sems, hk]
      exact setSem_self (m.before a) isKey _
    have hvalue : (m'.sems isKey).value = (v + 1 : ℕ) := by
      rw [hsems]
      show (s.value + 1).bmod (2 ^ 16) = _
      rw [show s.value = v from hpopped.trans h.value, Int.bmod_eq_of_le (by omega) (by omega)]
      rfl
    refine ⟨v + 1, ⟨hs.inv, hs.whyBlocked, hs.alive h.alive, hvalue, hcpu⟩, Or.inl ⟨rfl, fun p hin => hstay p hin ?_⟩⟩
    rintro ⟨-, pid, hpid, -⟩
    rw [hpop] at hpid
    cases hpid

/-- A wait takes a token, or it takes the caller among those who wait. -/
theorem KeySem.wait (h : KeySem m v) (hv : v < 2 ^ 15)
    (hready : (m.sems isKey).value = 0 → (m.sems isKey).count < maxProcesses ∧
      InTable m.toCore m.currentProcess ∧ OtherReady m.toCore)
    (hc : a.call = .semWait isKey) (hrun : m.step a = some m') :
    ∃ v', KeySem m' v' ∧ (∀ p, Inside m (.sem isKey) p → Inside m' (.sem isKey) p) ∧
      (v = v' + 1 ∨ v' = v ∧ Inside m' (.sem isKey) m.currentProcess) := by
  obtain ⟨r, k, again, hs⟩ := exists_callStep h.inv h.why (by rw [hc]; trivial) (by rw [hc]; simp) hrun
  have hcall := hs.call
  rw [hc] at hcall
  rcases semWait_cases hcall with ⟨-, -, -, hfull⟩ | ⟨rfl, -, -, hpos, hk⟩ | ⟨rfl, -, hw, w, c, -, hk⟩
  · obtain ⟨hzero, hcount⟩ := hfull h.isOpen
    exact absurd (hready hzero).1 (not_lt.mpr hcount)
  · have hv0 : v ≠ 0 := by
      rintro rfl
      exact hpos h.value
    have hsems : m'.sems isKey = { m.sems isKey with value := ((m.sems isKey).value - 1).bmod (2 ^ 16) } := by
      rw [hs.sems, hk]
      exact setSem_self (m.before a) isKey _
    have hvalue : (m'.sems isKey).value = (v - 1 : ℕ) := by
      rw [hsems]
      show ((m.sems isKey).value - 1).bmod (2 ^ 16) = _
      rw [h.value, Int.bmod_eq_of_le (by omega) (by omega)]
      omega
    have hcpu := hs.outside h.cpu fun hno => by cases hno
    refine ⟨v - 1, ⟨hs.inv, hs.whyBlocked, hs.alive h.alive, hvalue, hcpu⟩, fun p hin => ?_, Or.inl (by omega)⟩
    rw [hs.inside_iff, hc]
    exact Or.inl ⟨hin, fun hw => hw, fun he => he, fun hself => by simp at hself⟩
  · obtain ⟨-, hin, hother⟩ := hready hw.2.1
    have hsems : m'.sems isKey = (m.sems isKey).push (m.pid m.currentProcess) := by
      rw [hs.sems, hk]
      exact setSem_self (m.before a) isKey _
    have hvalue : (m'.sems isKey).value = v := by
      rw [hsems]
      exact h.value
    have hinside (p : ℕ) : Inside m' (.sem isKey) p ↔ Inside m (.sem isKey) p ∨ p = m.currentProcess := by
      refine hs.inside_self h.alive hin h.cpu rfl (by rw [hc]; rfl) fun q hq => ?_
      rw [hc]
      exact ⟨hw, hq⟩
    have hcpu := hs.outside h.cpu fun _ _ => ⟨hin, hother⟩
    exact ⟨v, ⟨hs.inv, hs.whyBlocked, hs.alive h.alive, hvalue, hcpu⟩, fun p hp => (hinside p).mpr (Or.inl hp),
      Or.inr ⟨rfl, (hinside _).mpr (Or.inr rfl)⟩⟩

/-- Any other call. -/
theorem KeySem.other (h : KeySem m v) (hok : a.KeepsRing m) (hlet : a.LetsWait m isKey)
    (hcalls : a.call ≠ .semClose isKey ∧ a.call ≠ .semWait isKey ∧ a.call ≠ .semPost isKey)
    (hrun : m.step a = some m') :
    KeySem m' v ∧ ∀ p, Inside m (.sem isKey) p → ¬a.call.ends (m.before a) p → Inside m' (.sem isKey) p := by
  obtain ⟨r, k, again, hs⟩ := exists_callStep h.inv h.why hok.1 hok.ne_quitCPU hrun
  obtain ⟨hclose, hwait, hpost⟩ := hcalls
  have hsems := hs.sems_other h.isOpen hclose hwait hpost
  have hcpu := hs.outside h.cpu fun _ hreason => absurd (Call.reason_sem hreason) hwait
  refine ⟨⟨hs.inv, hs.whyBlocked, hs.alive h.alive, by rw [hsems, h.value], hcpu⟩, fun p hin hends => ?_⟩
  obtain ⟨i, hi, rfl⟩ := hin.slot
  refine hs.inside_iff.mpr (Or.inl ⟨hin, hlet i hi hin, hends, ?_⟩)
  rintro ⟨-, he, -⟩
  rw [he] at hin
  exact h.cpu hin

/-! ### Characters -/

theorem keyLetter_lt {aux : Char} (h : keyLetter i = some aux) :
    aux.toNat < 128 ∧ (Char.ofNat (aux.toNat - 32)).toNat < 128 := by
  unfold keyLetter at h
  split at h <;> cases h <;> decide

theorem shiftNum_lt (aux : Char) : (shiftNum aux).toNat < 128 := by
  unfold shiftNum
  split <;> decide

theorem toLetter_lt {keys : Keys} {aux : Char} (h : keys.toLetter i = some aux) : aux.toNat < 128 := by
  unfold Keys.toLetter at h
  split at h
  · cases h
  · split at h
    · cases h
      decide
    · rename_i b hb
      obtain ⟨hlt, hupper⟩ := keyLetter_lt hb
      split at h
      · cases h
        exact hupper
      · split at h
        · cases h
          exact shiftNum_lt b
        · cases h
          exact hlt

/-- A `char`. -/
def IsChar (c : ℤ) : Prop := -2 ^ 7 ≤ c ∧ c < 2 ^ 7

theorem loaded_isChar {keys : Keys} (hc : c ∈ keys.loaded i low) : IsChar c := by
  unfold Keys.loaded at hc
  unfold IsChar
  split at hc
  · rw [List.mem_singleton] at hc
    omega
  split at hc
  · rw [List.mem_singleton] at hc
    cases hl : keys.toLetter i with
    | none =>
      rw [hl, Option.elim_none] at hc
      omega
    | some aux =>
      have hlt := toLetter_lt hl
      rw [hl, Option.elim_some] at hc
      omega
  split at hc
  · rw [List.mem_singleton] at hc
    omega
  split at hc
  · rw [List.mem_singleton, show '\n'.toNat = 10 from rfl] at hc
    omega
  split at hc
  · obtain ⟨-, rfl⟩ := List.mem_replicate.mp hc
    have h₁ := Int.le_bmod (x := low) (m := 2 ^ 8) (by decide)
    have h₂ := Int.bmod_lt (x := low) (m := 2 ^ 8) (by decide)
    omega
  · cases hc

/-- The reader gets the character that has been stored. -/
theorem letter_store {keys : Keys} (hc : IsChar c) : (keys.store c).letter = update keys.letter keys.write c := by
  funext j
  show (update keys.keyBuffer keys.write (c % 2 ^ 16) j).bmod (2 ^ 8) = update keys.letter keys.write c j
  rcases eq_or_ne j keys.write with rfl | hj
  · rw [Function.update_self, Function.update_self]
    obtain ⟨hlow, hhigh⟩ := hc
    rw [Int.bmod_def]
    split <;> omega
  · rw [Function.update_of_ne hj, Function.update_of_ne hj]
    rfl

/-! ### The queue -/

/-- The reader has come for a character, and it does not wait any more. -/
def KeyMachine.Holds (x : KeyMachine) (p : ℕ) : Prop :=
  (∃ t, x.reading p = some t ∧ t.waited = true) ∧ ¬Inside x.toMachine (.sem isKey) p

/-- The call has not delivered more than it should. -/
structure Reading.Sound (t : Reading) : Prop where
  bound : (t.letters.length : ℤ) ≤ max t.count 0
  waited : t.waited = true → t.Unfinished

/-- There are `n` unread characters; `q` have been queued and `d` delivered. -/
structure Typed (x : KeyMachine) (v n : ℕ) (q d : List ℤ) : Prop where
  sem : KeySem x.toMachine v
  tokens : Within v x.Holds n
  window : Window x.letter bufferSize x.read x.write n q d
  written : x.write = q.length
  room : q.length ≤ buffSize
  sound : ∀ p t, x.reading p = some t → t.Sound

theorem Typed.value_lt (h : Typed x v n q d) : v + 1 < 2 ^ 15 := by
  have hv := h.tokens.value_le
  have hlen := h.window.length
  have hroom := h.room
  have hsize : buffSize = 1024 := rfl
  omega

/-- The reader takes the next one of the unread characters, inside the buffer. -/
theorem Typed.read_lt (h : Typed x v n q d) (hn : 0 < n) : x.read < buffSize := by
  have hlen := h.window.length
  have htail := h.window.tail
  have hlow := h.window.low
  have hroom := h.room
  have hwritten := h.written
  have hsize : buffSize = 1024 := rfl
  have hsize' : bufferSize = 2048 := rfl
  rw [hwritten, hsize'] at htail
  omega

/-- Another call. -/
theorem Typed.call (h : Typed x v n q d) (hok : a.KeepsRing x.toMachine) (hlet : a.LetsWait x.toMachine isKey)
    (hcalls : a.call ≠ .semClose isKey ∧ a.call ≠ .semWait isKey ∧ a.call ≠ .semPost isKey)
    (hrun : x.callStep a = some y) : Typed y v n q d := by
  obtain ⟨m, hstep, rfl⟩ := Option.map_eq_some_iff.mp hrun
  obtain ⟨hsem, hstay⟩ := h.sem.other hok hlet hcalls hstep
  have hreading (p : ℕ) (t : Reading) (ht : (x.afterCall a m).reading p = some t) :
      ¬a.call.ends (x.before a) p ∧ x.reading p = some t := by
    have ht' : (if a.call.ends (x.before a) p then none else x.reading p) = some t := ht
    split at ht'
    · cases ht'
    · rename_i hends
      exact ⟨hends, ht'⟩
  refine ⟨hsem, h.tokens.mono ?_ le_rfl, h.window, h.written, h.room, fun p t ht => h.sound p t (hreading p t ht).2⟩
  rintro p ⟨⟨t, ht, hw⟩, hout⟩
  obtain ⟨hends, ht'⟩ := hreading p t ht
  exact ⟨⟨t, ht', hw⟩, fun hin => hout (hstay p hin hends)⟩

/-- One character is queued. -/
theorem Typed.queueKey (h : Typed x v n q d) (hc : IsChar c) (hroom : q.length < buffSize)
    (hrun : x.queueKey c answers = some y) :
    x.write < buffSize ∧ y.write = x.write + 1 ∧ ∃ v', Typed y v' (n + 1) (q ++ [c]) d := by
  obtain ⟨m, hstep, rfl⟩ := Option.map_eq_some_iff.mp hrun
  obtain ⟨-, v', hsem, hcases⟩ := h.sem.post h.value_lt rfl hstep
  have hlen := h.window.length
  have hsize : buffSize = 1024 := rfl
  have hsize' : bufferSize = 2048 := rfl
  have hwritten := h.written
  have hnext : (x.write + 1) % bufferSize = x.write + 1 := Nat.mod_eq_of_lt (by omega)
  refine ⟨by omega, hnext, v', hsem, ?_, ?_, ?_, ?_, h.sound⟩
  · rcases hcases with ⟨rfl, hstay⟩ | ⟨rfl, p₀, hstay⟩
    · refine h.tokens.mono ?_ (by omega)
      rintro p ⟨hcame, hout⟩
      exact ⟨hcame, fun hin => hout (hstay p hin)⟩
    · refine h.tokens.hold (a := p₀) ?_ (by omega)
      rintro p ⟨hcame, hout⟩
      by_cases hp : p = p₀
      · exact Or.inr hp
      · exact Or.inl ⟨hcame, fun hin => hout (hstay p hin hp)⟩
  · show Window (x.toKeys.store c).letter bufferSize x.read ((x.write + 1) % bufferSize) (n + 1) (q ++ [c]) d
    rw [letter_store hc]
    exact h.window.store (by omega) c
  · show (x.write + 1) % bufferSize = (q ++ [c]).length
    rw [hnext, List.length_append, List.length_singleton, hwritten]
  · rw [List.length_append, List.length_singleton]
    omega

/-- An access is inside the buffer. -/
def KeyEvent.InBounds : KeyEvent → Prop
  | .queued i _ | .taken i _ => i < buffSize
  | .returned .. => True

/-- A call that returns has delivered all its characters. -/
def KeyEvent.Complete : KeyEvent → Prop
  | .returned count letters => (letters.length : ℤ) = max count 0
  | _ => True

theorem queued_append (es fs : List KeyEvent) : queued (es ++ fs) = queued es ++ queued fs := List.filterMap_append ..

theorem delivered_append (es fs : List KeyEvent) : delivered (es ++ fs) = delivered es ++ delivered fs :=
  List.filterMap_append ..

/-- What the events of a key event say. -/
theorem queuedFrom_spec (cs : List ℤ) (i : ℕ) : queued (KeyMachine.queuedFrom i cs) = cs ∧
    delivered (KeyMachine.queuedFrom i cs) = [] ∧ ∀ e ∈ KeyMachine.queuedFrom i cs, e.Complete := by
  induction cs generalizing i with
  | nil => exact ⟨rfl, rfl, fun e he => absurd he List.not_mem_nil⟩
  | cons c cs ih =>
    obtain ⟨hq, hd, hcomplete⟩ := ih ((i + 1) % bufferSize)
    refine ⟨congrArg (c :: ·) hq, hd, fun e he => ?_⟩
    rcases List.mem_cons.mp he with rfl | he
    · trivial
    · exact hcomplete e he

/-- All characters of a key event are queued. -/
theorem Typed.queueKeys (h : Typed x v n q d) (hcs : ∀ c ∈ cs, IsChar c) (hroom : q.length + cs.length ≤ buffSize)
    (hrun : KeyMachine.queueKeys cs nodes x = some y) :
    (∃ v' n', Typed y v' n' (q ++ cs) d) ∧ ∀ e ∈ KeyMachine.queuedFrom x.write cs, e.InBounds := by
  induction cs generalizing x v n q nodes with
  | nil =>
    obtain rfl := Option.some.inj hrun
    refine ⟨⟨v, n, ?_⟩, fun e he => absurd he List.not_mem_nil⟩
    rwa [List.append_nil]
  | cons c cs ih =>
    obtain ⟨z, hz, hrest⟩ := Option.bind_eq_some_iff.mp hrun
    rw [List.length_cons] at hroom
    obtain ⟨hlt, hwrite, v', hnext⟩ := h.queueKey (hcs c List.mem_cons_self) (by omega) hz
    obtain ⟨⟨v'', n', hall⟩, hbounds⟩ := ih hnext (fun c' hc' => hcs c' (List.mem_cons_of_mem c hc'))
      (by rw [List.length_append, List.length_singleton]; omega) hrest
    rw [List.append_assoc] at hall
    refine ⟨⟨v'', n', hall⟩, fun e he => ?_⟩
    rcases List.mem_cons.mp he with rfl | he
    · exact hlt
    · apply hbounds e
      have hsize : buffSize = 1024 := rfl
      have hsize' : bufferSize = 2048 := rfl
      rwa [Nat.mod_eq_of_lt (by omega), ← hwrite] at he

/-! ### Steps -/

/-- A reader that finds no token finds room in the queue and leaves somebody else ready. -/
def KeyMachine.MayWait (x : KeyMachine) (t : Reading) : Prop :=
  t.waited = false → t.Unfinished → (x.sems isKey).value = 0 → (x.sems isKey).count < maxProcesses ∧
    InTable x.toCore x.currentProcess ∧ OtherReady x.toCore

/-- The call waits at the semaphore, posts it or closes it. -/
def Call.Touches (id : ℤ) : Call → Prop
  | .semClose i | .semWait i | .semPost i => i = id
  | _ => False

instance (id : ℤ) (call : Call) : Decidable (call.Touches id) := by
  apply Call.casesOn (motive := fun call => Decidable (call.Touches id)) call <;>
    intros <;> dsimp only [Call.Touches] <;> infer_instance

/-- The call keeps the ready ring in order, and is not about the keyboard's semaphore or
those who wait for it. -/
def KeyMachine.MayCall (x : KeyMachine) (a : Action) : Prop :=
  a.KeepsRing x.toMachine ∧ a.LetsWait x.toMachine isKey ∧ ¬a.call.Touches isKey

/-- The characters of a key event fit in behind all that have been queued before, and the
end of the foreground process wakes nobody who waits for a character. -/
def KeyMachine.MayLoad (x : KeyMachine) (key : ℕ) (low : ℤ) (offset : ℕ) (answers : List (List ℕ)) : Prop :=
  if x.ctrlPressed = true ∧ key = 0x2E then (x.killAction offset (answers.headD [])).LetsWait x.toMachine isKey
  else x.write + (x.loaded key low).length ≤ buffSize

def KeyAction.KeepsKeys (x : KeyMachine) : KeyAction → Prop
  | .call a => x.MayCall a
  | .key scancode isPressed low offset answers =>
    isPressed = true → (x.pressed scancode isPressed).MayLoad scancode low offset answers
  | .readKeyboard _ => True
  | .goOn _ _ => x.current.elim True x.MayWait

/-- A call of `read_keyboard` begins or ends. -/
theorem Typed.set {o : Option Reading} (h : Typed x v n q d) (ho : ∀ t, o = some t → t.Sound ∧ t.waited = false) :
    Typed (x.setCurrent o x.toMachine) v n q d := by
  have hreading (p : ℕ) (t : Reading) (ht : (x.setCurrent o x.toMachine).reading p = some t) :
      o = some t ∨ x.reading p = some t := by
    change update x.reading x.currentProcess o p = some t at ht
    by_cases hp : p = x.currentProcess
    · rw [hp, Function.update_self] at ht
      exact Or.inl ht
    · rw [Function.update_of_ne hp] at ht
      exact Or.inr ht
  refine ⟨h.sem, h.tokens.mono ?_ le_rfl, h.window, h.written, h.room, fun p t ht => ?_⟩
  · rintro p ⟨⟨t, ht, hw⟩, hout⟩
    rcases hreading p t ht with ht | ht
    · rw [(ho t ht).2] at hw
      cases hw
    · exact ⟨⟨t, ht, hw⟩, hout⟩
  · rcases hreading p t ht with ht | ht
    · exact (ho t ht).1
    · exact h.sound p t ht

/-- A reader comes for its next character. -/
theorem Typed.wait (h : Typed x v n q d) (hcur : x.current = some t) (hw : t.waited = false) (hun : t.Unfinished)
    (hmay : x.MayWait t) {m : Machine} (hstep : x.toMachine.step (KeyMachine.waitAction offset answers) = some m) :
    ∃ v', Typed (x.setCurrent (some { t with waited := true }) m) v' n q d := by
  have hlt := h.value_lt
  obtain ⟨v', hsem, hstay, hcases⟩ := h.sem.wait (by omega) (hmay hw hun) rfl hstep
  set y := x.setCurrent (some { t with waited := true }) m with hy
  have hother (p : ℕ) (hp : p ≠ x.currentProcess) : y.reading p = x.reading p := Function.update_of_ne hp ..
  have hself : y.reading x.currentProcess = some { t with waited := true } := Function.update_self ..
  refine ⟨v', hsem, ?_, h.window, h.written, h.room, fun p t' ht' => ?_⟩
  · rcases hcases with rfl | ⟨rfl, hin⟩
    · refine h.tokens.hold (a := x.currentProcess) ?_ (by omega)
      rintro p ⟨⟨t', ht', hw'⟩, hout⟩
      by_cases hp : p = x.currentProcess
      · exact Or.inr hp
      · rw [hother p hp] at ht'
        exact Or.inl ⟨⟨t', ht', hw'⟩, fun hin => hout (hstay p hin)⟩
    · refine h.tokens.mono ?_ le_rfl
      rintro p ⟨⟨t', ht', hw'⟩, hout⟩
      have hp : p ≠ x.currentProcess := by
        rintro rfl
        exact hout hin
      rw [hother p hp] at ht'
      exact ⟨⟨t', ht', hw'⟩, fun hin => hout (hstay p hin)⟩
  · by_cases hp : p = x.currentProcess
    · subst hp
      rw [hself] at ht'
      obtain rfl := Option.some.inj ht'
      exact ⟨(h.sound _ t hcur).bound, fun _ => hun⟩
    · rw [hother p hp] at ht'
      exact h.sound p t' ht'

/-- A reader that holds a token takes its character. -/
theorem Typed.take (h : Typed x v n q d) (hcur : x.current = some t) (hw : t.waited = true) :
    x.read < buffSize ∧ Typed (x.take t) v (n - 1) q (d ++ [x.letter x.read]) := by
  have hholds : x.Holds x.currentProcess := ⟨⟨t, hcur, hw⟩, h.sem.cpu⟩
  have hother (p : ℕ) (hp : p ≠ x.currentProcess) : (x.take t).reading p = x.reading p := Function.update_of_ne hp ..
  have hself : (x.take t).reading x.currentProcess =
      some { t with letters := t.letters ++ [x.letter x.read], waited := false } := Function.update_self ..
  have hrest : ∀ p, (x.take t).Holds p → x.Holds p ∧ p ≠ x.currentProcess := by
    rintro p ⟨⟨t', ht', hw'⟩, hout⟩
    have hp : p ≠ x.currentProcess := by
      rintro rfl
      rw [hself] at ht'
      obtain rfl := Option.some.inj ht'
      cases hw'
    rw [hother p hp] at ht'
    exact ⟨⟨⟨t', ht', hw'⟩, hout⟩, hp⟩
  obtain ⟨hpos, htokens⟩ := h.tokens.use hholds hrest
  refine ⟨h.read_lt hpos, h.sem, htokens, ?_, h.written, h.room, fun p t' ht' => ?_⟩
  · obtain ⟨l, rfl⟩ : ∃ l, n = l + 1 := ⟨n - 1, by omega⟩
    exact h.window.take
  · by_cases hp : p = x.currentProcess
    · subst hp
      rw [hself] at ht'
      obtain rfl := Option.some.inj ht'
      have hun : (t.letters.length : ℤ) < t.count := (h.sound _ t hcur).waited hw
      refine ⟨?_, fun hno => by cases hno⟩
      show ((t.letters ++ [x.letter x.read]).length : ℤ) ≤ max t.count 0
      rw [List.length_append, List.length_singleton]
      omega
    · rw [hother p hp] at ht'
      exact h.sound p t' ht'

/-- A key event. -/
theorem Typed.key (h : Typed x v n q d)
    (hok : isPressed = true → (x.pressed scancode isPressed).MayLoad scancode low offset nodes)
    (hrun : x.int21 scancode isPressed low offset nodes = some y) :
    (∃ v' n', Typed y v' n' (q ++ queued (x.events (.key scancode isPressed low offset nodes))) d) ∧
      delivered (x.events (.key scancode isPressed low offset nodes)) = [] ∧
      ∀ e ∈ x.events (.key scancode isPressed low offset nodes), e.InBounds ∧ e.Complete := by
  have hpressed : Typed (x.pressed scancode isPressed) v n q d := by
    have hkeys : (x.updateKeyboardStatus scancode isPressed).letter = x.letter ∧
        (x.updateKeyboardStatus scancode isPressed).read = x.read ∧
        (x.updateKeyboardStatus scancode isPressed).write = x.write := by
      unfold Keys.updateKeyboardStatus
      split_ifs <;> exact ⟨rfl, rfl, rfl⟩
    obtain ⟨hletter, hread, hwrite⟩ := hkeys
    refine ⟨h.sem, h.tokens, ?_, hwrite.trans h.written, h.room, h.sound⟩
    show Window (x.updateKeyboardStatus scancode isPressed).letter bufferSize
      (x.updateKeyboardStatus scancode isPressed).read (x.updateKeyboardStatus scancode isPressed).write n q d
    rw [hletter, hread, hwrite]
    exact h.window
  set z := x.pressed scancode isPressed with hz
  have hrun' : (if isPressed = true then z.loadBuffer scancode low offset nodes else some z) = some y := hrun
  have hes : x.events (.key scancode isPressed low offset nodes) =
      if isPressed = true ∧ ¬(z.ctrlPressed = true ∧ scancode = 0x2E) then
        KeyMachine.queuedFrom z.write (z.loaded scancode low) else [] := rfl
  rw [hes]
  have hnil : queued [] = [] ∧ delivered [] = [] := ⟨rfl, rfl⟩
  by_cases hp : isPressed = true
  · rw [if_pos hp] at hrun'
    have hmay := hok hp
    unfold KeyMachine.MayLoad at hmay
    unfold KeyMachine.loadBuffer at hrun'
    by_cases hkill : z.ctrlPressed = true ∧ scancode = 0x2E
    · rw [if_pos hkill] at hmay hrun'
      rw [if_neg (fun hboth => hboth.2 hkill), hnil.1, List.append_nil]
      have hcall := hpressed.call (a := z.killAction offset (nodes.headD [])) ⟨trivial, trivial⟩ hmay
        ⟨by simp [KeyMachine.killAction], by simp [KeyMachine.killAction], by simp [KeyMachine.killAction]⟩ hrun'
      exact ⟨⟨v, n, hcall⟩, hnil.2, fun e he => absurd he List.not_mem_nil⟩
    · rw [if_neg hkill] at hmay hrun'
      rw [if_pos ⟨hp, hkill⟩]
      obtain ⟨hq, hd, hcomplete⟩ := queuedFrom_spec (z.loaded scancode low) z.write
      have hroom : q.length + (z.loaded scancode low).length ≤ buffSize := by
        rw [← hpressed.written]
        exact hmay
      obtain ⟨htyped, hbounds⟩ := hpressed.queueKeys (fun c hc => loaded_isChar hc) hroom hrun'
      rw [hq]
      exact ⟨htyped, hd, fun e he => ⟨hbounds e he, hcomplete e he⟩⟩
  · rw [if_neg hp] at hrun'
    obtain rfl := Option.some.inj hrun'
    rw [if_neg (fun hboth => hp hboth.1), hnil.1, List.append_nil]
    exact ⟨⟨v, n, hpressed⟩, hnil.2, fun e he => absurd he List.not_mem_nil⟩

/-- Every step keeps the buffer a queue. -/
theorem Typed.step {b : KeyAction} (h : Typed x v n q d) (hok : b.KeepsKeys x) (hrun : x.step b = some y) :
    (∃ v' n', Typed y v' n' (q ++ queued (x.events b)) (d ++ delivered (x.events b))) ∧
      ∀ e ∈ x.events b, e.InBounds ∧ e.Complete := by
  cases b with
  | call a =>
    obtain ⟨hring, hlet, hnot⟩ := hok
    have hcalls : a.call ≠ .semClose isKey ∧ a.call ≠ .semWait isKey ∧ a.call ≠ .semPost isKey := by
      refine ⟨fun hc => hnot ?_, fun hc => hnot ?_, fun hc => hnot ?_⟩ <;> rw [hc] <;> rfl
    simp only [KeyMachine.step] at hrun
    split at hrun
    · refine ⟨⟨v, n, ?_⟩, fun e he => absurd he List.not_mem_nil⟩
      rw [show queued (x.events (.call a)) = [] from rfl, show delivered (x.events (.call a)) = [] from rfl,
        List.append_nil, List.append_nil]
      exact h.call hring hlet hcalls hrun
    · cases hrun
  | key scancode isPressed low offset nodes =>
    simp only [KeyMachine.step] at hrun
    split at hrun
    · obtain ⟨htyped, hd, hall⟩ := h.key hok hrun
      rw [hd, List.append_nil]
      exact ⟨htyped, hall⟩
    · cases hrun
  | readKeyboard count =>
    simp only [KeyMachine.step] at hrun
    split at hrun
    · obtain rfl := Option.some.inj hrun
      refine ⟨⟨v, n, ?_⟩, fun e he => absurd he List.not_mem_nil⟩
      rw [show queued (x.events (.readKeyboard count)) = [] from rfl,
        show delivered (x.events (.readKeyboard count)) = [] from rfl, List.append_nil, List.append_nil]
      refine h.set fun t ht => ?_
      obtain rfl := Option.some.inj ht
      refine ⟨⟨?_, fun hno => by cases hno⟩, rfl⟩
      show (0 : ℤ) ≤ max count 0
      omega
    · cases hrun
  | goOn offset answers =>
    simp only [KeyMachine.step] at hrun
    simp only [KeyMachine.events]
    cases hcur : x.current with
    | none =>
      rw [hcur] at hrun
      cases hrun
    | some t =>
      rw [hcur] at hrun
      dsimp only at hrun ⊢
      by_cases hw : t.waited = true
      · rw [if_pos hw] at hrun ⊢
        obtain rfl := Option.some.inj hrun
        obtain ⟨hlt, htyped⟩ := h.take hcur hw
        refine ⟨⟨v, n - 1, ?_⟩, fun e he => ?_⟩
        · rw [show queued [.taken x.read (x.letter x.read)] = [] from rfl, List.append_nil]
          exact htyped
        · rw [List.mem_singleton.mp he]
          exact ⟨hlt, trivial⟩
      · have hw' : t.waited = false := by simpa using hw
        rw [if_neg hw] at hrun ⊢
        by_cases hun : t.Unfinished
        · rw [if_pos hun] at hrun ⊢
          obtain ⟨m, hstep, rfl⟩ := Option.map_eq_some_iff.mp hrun
          have hmay : x.MayWait t := by
            have hcond : x.current.elim True x.MayWait := hok
            rwa [hcur] at hcond
          obtain ⟨v', htyped⟩ := h.wait hcur hw' hun hmay hstep
          refine ⟨⟨v', n, ?_⟩, fun e he => absurd he List.not_mem_nil⟩
          rw [show queued [] = [] from rfl, show delivered [] = [] from rfl, List.append_nil, List.append_nil]
          exact htyped
        · rw [if_neg hun] at hrun ⊢
          obtain rfl := Option.some.inj hrun
          refine ⟨⟨v, n, ?_⟩, fun e he => ?_⟩
          · rw [show queued [.returned t.count t.letters] = [] from rfl,
              show delivered [.returned t.count t.letters] = [] from rfl, List.append_nil, List.append_nil]
            exact h.set fun t' ht' => by cases ht'
          · rw [List.mem_singleton.mp he]
            have hbound := (h.sound _ t hcur).bound
            unfold Reading.Unfinished at hun
            refine ⟨trivial, ?_⟩
            show (t.letters.length : ℤ) = max t.count 0
            omega

/-! ### Runs -/

theorem typing_typed (h : typing.init x) : Typed x 0 0 [] [] := by
  obtain ⟨hboot, hwrite, hread, -, -, -, hnobody⟩ := h
  have hwhy (p : ℕ) : ¬Inside x.toMachine (.sem isKey) p := by
    rintro ⟨-, hp⟩
    rw [hboot.why p] at hp
    cases hp
  refine ⟨⟨boot_inv hboot, fun p hp => absurd (hboot.why p) hp, fun p hp => ?_, ?_, hwhy _⟩, Within.start ?_, ?_,
    hwrite, Nat.zero_le _, fun p t ht => ?_⟩
  · obtain ⟨h0, i, -, rfl⟩ := hp
    exact absurd (hboot.processesList i) h0
  · rw [hboot.sems]
    rfl
  · rintro p ⟨⟨t, ht, -⟩, -⟩
    rw [hnobody p] at ht
    cases ht
  · rw [hwrite, hread]
    exact Window.start (by decide)
  · rw [hnobody p] at ht
    cases ht

/-- In every run in which the characters of the key events fit into the buffer one behind
the other, every access is inside the buffer, and what is delivered is what has been
queued, in this order and each character once; the rest is unread. -/
theorem keyboard_fifo {x₀ : KeyMachine} {es : List KeyEvent} (hinit : typing.init x₀)
    (hrun : typing.Emits (fun x b => b.KeepsKeys x) KeyMachine.events x₀ es x) :
    (∀ e ∈ es, e.InBounds) ∧ delivered es <+: queued es ∧ ∀ e ∈ es, e.Complete := by
  have hinv : (∃ v n, Typed x v n (queued es) (delivered es)) ∧ ∀ e ∈ es, e.InBounds ∧ e.Complete := by
    induction hrun with
    | refl => exact ⟨⟨0, 0, typing_typed hinit⟩, fun e he => absurd he List.not_mem_nil⟩
    | step _ hok hst ih =>
      obtain ⟨⟨v, n, htyped⟩, hall⟩ := ih
      obtain ⟨hnext, hall'⟩ := htyped.step hok hst
      rw [queued_append, delivered_append]
      refine ⟨hnext, fun e he => ?_⟩
      rcases List.mem_append.mp he with he | he
      · exact hall e he
      · exact hall' e he
  obtain ⟨⟨v, n, htyped⟩, hall⟩ := hinv
  exact ⟨fun e he => (hall e he).1, htyped.window.isPrefix, fun e he => (hall e he).2⟩

/-! ### Runs that compute -/

instance KeyMachine.decidableMayWait (x : KeyMachine) (t : Reading) : Decidable (x.MayWait t) :=
  inferInstanceAs (Decidable (_ → _ → _ → _))

instance KeyMachine.decidableMayCall (x : KeyMachine) (a : Action) : Decidable (x.MayCall a) :=
  inferInstanceAs (Decidable (_ ∧ _ ∧ ¬_))

instance KeyAction.decidableKeepsKeys (x : KeyMachine) (b : KeyAction) : Decidable (b.KeepsKeys x) :=
  match b with
  | .call a => inferInstanceAs (Decidable (x.MayCall a))
  | .key scancode isPressed low offset answers => by
    dsimp only [KeyAction.KeepsKeys, KeyMachine.MayLoad]
    infer_instance
  | .readKeyboard _ => isTrue trivial
  | .goOn _ _ =>
    match h : x.current with
    | none => isTrue (by dsimp only [KeyAction.KeepsKeys]; rw [h]; trivial)
    | some t => decidable_of_iff (x.MayWait t) (by dsimp only [KeyAction.KeepsKeys]; rw [h]; rfl)

namespace KeyMachine

variable {ok : KeyMachine → KeyAction → Prop} [∀ x b, Decidable (ok x b)] {bs : List KeyAction}

theorem typing_ran (h : (System.runList step ok initial bs).isSome = true) :
    typing.Emits ok events initial (System.emitted step events initial bs)
      ((System.runList step ok initial bs).getD initial) := by
  obtain ⟨y, hy⟩ := Option.isSome_iff_exists.mp h
  rw [hy]
  exact System.runList_emits (fun _ _ _ => id) hy

end KeyMachine

def press (scancode : ℕ) : KeyAction := .key scancode true 0 0 [[900]]

/-- The second process reads two characters and waits for the first one, which comes from
the keys `A` and, with shift, `1`. -/
def typeTwo : List KeyAction :=
  [.call (create 100), .call (plain .tick), .call (create 200), .call (plain .tick), .readKeyboard 2, .goOn 0 [],
    press 0x1E, press 0x2A, press 0x02, .call (plain .tick), .goOn 0 [], .goOn 0 [], .goOn 0 [], .goOn 0 []]

theorem keyboard_fifo_typeTwo :
    let es := System.emitted KeyMachine.step KeyMachine.events KeyMachine.initial typeTwo
    delivered es = ['a'.toNat, '!'.toNat].map Int.ofNat ∧
      (∀ e ∈ es, e.InBounds) ∧ delivered es <+: queued es ∧ ∀ e ∈ es, e.Complete :=
  ⟨by decide +kernel, keyboard_fifo KeyMachine.initial_init (KeyMachine.typing_ran (by decide +kernel))⟩

/-! ### One character too many -/

/-- Nobody reads, and `n` characters have been typed. -/
structure Unread (x : KeyMachine) (n : ℕ) : Prop where
  value : (x.sems isKey).value = n
  nobody : (x.sems isKey).count = 0
  written : x.write = n
  noCtrl : x.ctrlPressed = false
  outside : x.current = none

/-- A post that nobody waits for. -/
theorem post_nobody (answers : List ℕ) (hv : (m.sems isKey).value = n) (hc : (m.sems isKey).count = 0)
    (hn : n + 1 < 2 ^ 15) :
    ∃ m', m.step (KeyMachine.postAction answers) = some m' ∧ m'.currentProcess = m.currentProcess ∧
      m'.sems isKey = { m.sems isKey with value := n + 1 } := by
  have hvalue : (n + 1 : ℤ).bmod (2 ^ 16) = n + 1 := Int.bmod_eq_of_le (by omega) (by omega)
  have hcall : (m.before (KeyMachine.postAction answers)).semPost isKey =
      some (0, (m.before (KeyMachine.postAction answers)).setSem isKey { m.sems isKey with value := n + 1 }) := by
    have hsem : (m.before (KeyMachine.postAction answers)).sems isKey = m.sems isKey := rfl
    unfold Kernel.semPost
    rw [if_neg (by decide), hsem]
    dsimp only
    rw [if_neg (by rw [hv]; omega), hc]
    dsimp only [Semaphore.popLive]
    rw [hv, hvalue, ← hc]
  refine ⟨m.after (KeyMachine.postAction answers)
    ((m.before (KeyMachine.postAction answers)).setSem isKey { m.sems isKey with value := n + 1 }) false, ?_, rfl,
    setSem_self ..⟩
  show (Option.map _ ((m.before (KeyMachine.postAction answers)).semPost isKey)).bind _ = _
  rw [hcall]
  rfl

/-- The key `A` is pressed. -/
theorem Unread.press (h : Unread x n) (hn : n + 1 < bufferSize) :
    ∃ y c, x.step (.key 0x1E true 0 0 []) = some y ∧ Unread y (n + 1) ∧
      x.events (.key 0x1E true 0 0 []) = [.queued n c] := by
  have hsize : bufferSize = 2048 := rfl
  have hsame : x.pressed 0x1E true = x := rfl
  have hkeys : x.loaded 0x1E 0 = [(x.toLetter 0x1E).elim 0 fun c => (c.toNat : ℤ)] := by
    unfold Keys.loaded
    rw [h.noCtrl, if_neg (by simp), if_pos (by decide)]
  set c := (x.toLetter 0x1E).elim 0 fun c => (c.toNat : ℤ)
  obtain ⟨m, hstep, hcur, hsems⟩ := post_nobody [] h.value h.nobody (by omega)
  refine ⟨{ x with toMachine := m, toKeys := x.toKeys.store c }, c, ?_, ⟨?_, ?_, ?_, h.noCtrl, ?_⟩, ?_⟩
  · have hqueue : x.queueKey c [] = some { x with toMachine := m, toKeys := x.toKeys.store c } := by
      unfold KeyMachine.queueKey
      rw [hstep]
      rfl
    simp only [KeyMachine.step]
    rw [h.outside]
    dsimp only [KeyMachine.int21]
    rw [hsame, if_pos rfl, KeyMachine.loadBuffer, if_neg (by rw [h.noCtrl]; simp), hkeys]
    show (x.queueKey c []).bind _ = _
    rw [hqueue]
    rfl
  · rw [hsems]
    rfl
  · rw [hsems]
    exact h.nobody
  · show (x.write + 1) % bufferSize = n + 1
    rw [h.written, Nat.mod_eq_of_lt hn]
  · show x.reading m.currentProcess = none
    rw [hcur]
    exact h.outside
  · dsimp only [KeyMachine.events]
    rw [hsame, if_pos ⟨rfl, by rw [h.noCtrl]; simp⟩, hkeys, h.written]
    rfl

/-- `n` characters are typed. -/
theorem typing_unread (hn : n < bufferSize) :
    ∃ x es, typing.Emits (fun _ _ => True) KeyMachine.events KeyMachine.initial es x ∧ Unread x n := by
  induction n with
  | zero => exact ⟨_, _, .refl, rfl, rfl, rfl, rfl, rfl⟩
  | succ n ih =>
    obtain ⟨x, es, hrun, hx⟩ := ih (by omega)
    obtain ⟨y, -, hstep, hy, -⟩ := hx.press hn
    exact ⟨y, _, .step hrun trivial hstep, hy⟩

/-- The 1025th character goes behind the end of the array. -/
theorem keyboard_overruns : ¬∀ x₀ x es, typing.init x₀ →
    typing.Emits (fun _ _ => True) KeyMachine.events x₀ es x → ∀ e ∈ es, e.InBounds := by
  intro hclaim
  obtain ⟨x, es, hrun, hx⟩ := typing_unread (n := buffSize) (by decide)
  obtain ⟨y, c, hstep, -, hevents⟩ := hx.press (by decide)
  have hbounds := hclaim _ _ _ KeyMachine.initial_init (.step hrun trivial hstep) (.queued buffSize c) (by
    rw [hevents]
    exact List.mem_append_right _ (List.mem_singleton_self _))
  exact absurd hbounds (Nat.lt_irrefl _)

end BareKernel
