import BareKernel.Links.Bytes

/-! The interrupt descriptor table, after `interrupts/idtLoader.c`: packed descriptors of
sixteen bytes from address `0` on, with the address of a handler in three pieces. What the
processor reads back from the table is what was put there, and no interrupt is taken before
the table is complete. -/

namespace BareKernel.Interrupts

open Links

/-- The fields of `DESCR_INT`. -/
inductive Descr where
  | offset_l | selector | cero | access | offset_m | offset_h | other_cero
deriving DecidableEq

namespace Descr

/-- Where a field lies in the packed descriptor. -/
def offset : Descr → ℕ
  | offset_l => 0
  | selector => 2
  | cero => 4
  | access => 5
  | offset_m => 6
  | offset_h => 8
  | other_cero => 12

def size : Descr → ℕ
  | cero | access => 1
  | offset_l | selector | offset_m => 2
  | offset_h | other_cero => 4

end Descr

def sizeofDescr : ℕ := 16

/-- `idt[index].f = v`, where `idt` is `0`. -/
def setDescr (m : Bytes) (index : ℕ) (f : Descr) (v : ℕ) : Bytes :=
  m.place (sizeofDescr * index + f.offset) (Bytes.digits f.size v)

/-- `idt[index].f` -/
def descr (m : Bytes) (index : ℕ) (f : Descr) : ℕ := Bytes.value (m.read (sizeofDescr * index + f.offset) f.size)

/-- `ACS_INT`: present, an interrupt gate. -/
def acsInt : ℕ := 0x80 ||| 0x0E

def setupIDTEntry (index : ℕ) (offset : UInt64) (m : Bytes) : Bytes :=
  let m := setDescr m index .selector 0x08
  let m := setDescr m index .offset_l (offset &&& 0xFFFF).toNat
  let m := setDescr m index .offset_m ((offset >>> 16) &&& 0xFFFF).toNat
  let m := setDescr m index .offset_h ((offset >>> 32) &&& 0xFFFFFFFF).toNat
  let m := setDescr m index .access acsInt
  let m := setDescr m index .cero 0
  setDescr m index .other_cero 0

/-! ### The table and the interrupt controllers -/

/-- The handlers of `asm/interrupts.asm` that get a gate. -/
inductive Handler where
  | exception0 | exception06 | irq00 | irq01 | irq03 | irq08
deriving DecidableEq

/-- The memory, whether the processor takes interrupts, and the masks of the controllers. -/
structure Lines where
  mem : Bytes
  interruptFlag : Bool
  masterMask : UInt8
  slaveMask : UInt8

inductive Setup where
  | cli
  | entry (index : ℕ) (handler : Handler)
  | picMasterMask (mask : UInt8)
  | picSlaveMask (mask : UInt8)
  | sti
deriving DecidableEq

def Lines.setup (address : Handler → UInt64) (s : Lines) : Setup → Lines
  | .cli => { s with interruptFlag := false }
  | .entry index handler => { s with mem := setupIDTEntry index (address handler) s.mem }
  | .picMasterMask mask => { s with masterMask := mask }
  | .picSlaveMask mask => { s with slaveMask := mask }
  | .sti => { s with interruptFlag := true }

def gates : List (ℕ × Handler) :=
  [(0x00, .exception0), (0x06, .exception06), (0x20, .irq00), (0x21, .irq01), (0x22, .irq03), (0x80, .irq08)]

/-- The calls of `load_idt`, in their order. -/
def loadIdt : List Setup :=
  [.cli] ++ gates.map (fun g => .entry g.1 g.2) ++ [.picMasterMask 0xFC, .picSlaveMask 0xFF, .sti]

def Lines.run (address : Handler → UInt64) (s : Lines) (as : List Setup) : Lines := as.foldl (Lines.setup address) s

/-! ### What the processor does with it -/

/-- The gate of a vector: the code segment and the address of the handler. None, if the gate is
not present, no interrupt gate, or switches stacks. -/
def gate (m : Bytes) (vector : ℕ) : Option (ℕ × UInt64) :=
  if descr m vector .access = acsInt ∧ descr m vector .cero = 0 then
    some (descr m vector .selector,
      .ofNat (descr m vector .offset_l + 2 ^ 16 * descr m vector .offset_m + 2 ^ 32 * descr m vector .offset_h))
  else none

/-- A request on line `irq` reaches the processor. The slave controller hangs on line `2` of the master. -/
def Lines.takes (s : Lines) (irq : ℕ) : Bool :=
  s.interruptFlag && if irq < 8 then !s.masterMask.toNat.testBit irq
    else irq < 16 && !s.slaveMask.toNat.testBit (irq - 8) && !s.masterMask.toNat.testBit 2

variable {m : Bytes} {i j v a : ℕ} {f g : Descr} {o : UInt64} {s : Lines} {as : List Setup} {gs : List (ℕ × Handler)}
  {address : Handler → UInt64}

/-! ### One descriptor -/

theorem Descr.apart (h : f ≠ g) : f.offset + f.size ≤ g.offset ∨ g.offset + g.size ≤ f.offset := by
  revert h
  cases f <;> cases g <;> decide

theorem Descr.inside (f : Descr) : f.offset + f.size ≤ sizeofDescr := by cases f <;> decide

/-- A field that has been stored is read, in every other field there is what was there. -/
theorem descr_setDescr (m : Bytes) (i j : ℕ) (f g : Descr) (v : ℕ) :
    descr (setDescr m i f v) j g = if i = j ∧ f = g then v % 256 ^ f.size else descr m j g := by
  have hf := f.inside
  have hg := g.inside
  unfold descr setDescr sizeofDescr at *
  split
  · rename_i h
    obtain ⟨rfl, rfl⟩ := h
    have hread := Bytes.read_place m (16 * i + f.offset) (Bytes.digits f.size v)
    rw [Bytes.digits_length] at hread
    rw [hread, Bytes.value_digits]
  · rename_i h
    rw [Bytes.read_place_of_disjoint]
    rw [Bytes.digits_length]
    by_cases hij : i = j
    · have := Descr.apart fun he => h ⟨hij, he⟩
      omega
    · omega

theorem setDescr_out (h : a < sizeofDescr * i ∨ sizeofDescr * i + sizeofDescr ≤ a) : setDescr m i f v a = m a := by
  have hf := f.inside
  refine Bytes.place_out ?_
  rw [Bytes.digits_length]
  omega

/-- The fields of the descriptor of a handler. -/
def handlerField (o : UInt64) : Descr → ℕ
  | .offset_l => o.toNat % 2 ^ 16
  | .selector => 0x08
  | .offset_m => o.toNat / 2 ^ 16 % 2 ^ 16
  | .offset_h => o.toNat / 2 ^ 32
  | .access => acsInt
  | .cero | .other_cero => 0

theorem low_piece (o : UInt64) : (o &&& 0xFFFF).toNat = o.toNat % 2 ^ 16 := by
  rw [UInt64.toNat_and]
  exact Nat.and_two_pow_sub_one_eq_mod _ 16

theorem high_piece (o : UInt64) : ((o >>> 32) &&& 0xFFFFFFFF).toNat = o.toNat / 2 ^ 32 := by
  have ho : o.toNat < 2 ^ 64 := o.toNat_lt
  have hmask : (0xFFFFFFFF : UInt64).toNat = 2 ^ 32 - 1 := rfl
  have hshift : (o >>> 32).toNat = o.toNat / 2 ^ 32 := by
    rw [UInt64.toNat_shiftRight, Nat.shiftRight_eq_div_pow]
    rfl
  rw [UInt64.toNat_and, hmask, hshift, Nat.and_two_pow_sub_one_eq_mod]
  omega

theorem descr_setupIDTEntry (m : Bytes) (i j : ℕ) (o : UInt64) (f : Descr) :
    descr (setupIDTEntry i o m) j f = if i = j then handlerField o f else descr m j f := by
  have ho : o.toNat < 2 ^ 64 := o.toNat_lt
  simp only [setupIDTEntry, descr_setDescr, low_piece, high_piece]
  by_cases hij : i = j
  · subst hij
    cases f <;> simp [handlerField, acsInt, Descr.size] <;> omega
  · simp [hij]

theorem setupIDTEntry_out (h : a < sizeofDescr * i ∨ sizeofDescr * i + sizeofDescr ≤ a) :
    setupIDTEntry i o m a = m a := by
  simp only [setupIDTEntry, setDescr_out h]

/-- The three pieces give the address again. -/
theorem gate_of_fields (h : ∀ f, descr m i f = handlerField o f) : gate m i = some (0x08, o) := by
  have ho : o.toNat < 2 ^ 64 := o.toNat_lt
  have hsum : o.toNat % 2 ^ 16 + 2 ^ 16 * (o.toNat / 2 ^ 16 % 2 ^ 16) + 2 ^ 32 * (o.toNat / 2 ^ 32) = o.toNat := by
    omega
  simp only [gate, h, handlerField, hsum]
  simp

theorem gate_congr {m' : Bytes} (h : ∀ f, descr m' i f = descr m i f) : gate m' i = gate m i := by
  simp only [gate, h]

/-! ### The whole table -/

/-- After some gates have been set up, each vector has its own. -/
theorem run_descr (hgs : (gs.map Prod.fst).Nodup) (s : Lines) (j : ℕ) (f : Descr) :
    (∀ h, (j, h) ∈ gs → descr (s.run address (gs.map fun g => .entry g.1 g.2)).mem j f = handlerField (address h) f) ∧
    (j ∉ gs.map Prod.fst → descr (s.run address (gs.map fun g => .entry g.1 g.2)).mem j f = descr s.mem j f) := by
  induction gs generalizing s with
  | nil => exact ⟨nofun, fun _ => rfl⟩
  | cons g gs ih =>
    obtain ⟨hnot, hnd⟩ := List.nodup_cons.mp hgs
    obtain ⟨hin, hout⟩ := ih hnd (s.setup address (.entry g.1 g.2))
    have hfirst : descr (s.setup address (.entry g.1 g.2)).mem j f =
        if g.1 = j then handlerField (address g.2) f else descr s.mem j f := descr_setupIDTEntry ..
    constructor
    · intro h hmem
      rcases List.mem_cons.mp hmem with rfl | hmem
      · rw [if_pos rfl] at hfirst
        exact (hout hnot).trans hfirst
      · exact hin h hmem
    · intro hj
      obtain ⟨hne, hj⟩ := not_or.mp fun h => hj (List.mem_cons.mpr h)
      rw [if_neg (Ne.symm hne)] at hfirst
      exact (hout hj).trans hfirst

theorem run_out (ha : ∀ g ∈ gs, a < sizeofDescr * g.1 ∨ sizeofDescr * g.1 + sizeofDescr ≤ a) (s : Lines) :
    (s.run address (gs.map fun g => .entry g.1 g.2)).mem a = s.mem a := by
  induction gs generalizing s with
  | nil => rfl
  | cons g gs ih =>
    have hrest := ih (fun g' hg' => ha g' (List.mem_cons_of_mem _ hg')) (s.setup address (.entry g.1 g.2))
    exact hrest.trans (setupIDTEntry_out (ha g (List.mem_cons_self ..)))

/-- Only `sti` lets interrupts in. -/
theorem run_off (has : ∀ b ∈ as, b ≠ .sti) (hoff : s.interruptFlag = false) :
    (s.run address as).interruptFlag = false := by
  induction as generalizing s with
  | nil => exact hoff
  | cons b as ih =>
    refine ih (s := s.setup address b) (fun c hc => has c (List.mem_cons_of_mem _ hc)) ?_
    cases b with
    | sti => exact absurd rfl (has .sti (List.mem_cons_self ..))
    | cli => rfl
    | entry => exact hoff
    | picMasterMask => exact hoff
    | picSlaveMask => exact hoff

/-- The masks that `load_idt` sets leave the timer and the keyboard. -/
theorem takes_of_masks (hon : s.interruptFlag = true) (hmaster : s.masterMask = 0xFC) (hslave : s.slaveMask = 0xFF)
    (irq : ℕ) : s.takes irq = true ↔ irq = 0 ∨ irq = 1 := by
  rw [Lines.takes, hmaster, hslave, hon, Bool.true_and]
  split
  case isTrue hlow =>
    revert irq
    decide
  case isFalse hlow =>
    have hmasked : ∀ n < 8, Nat.testBit 255 n = true := by decide
    have hnone : ¬(irq = 0 ∨ irq = 1) := by omega
    by_cases hirq : irq < 16
    · simp [hmasked (irq - 8) (by omega), hnone]
    · simp [hirq, hnone]

/-- `load_idt` installs every handler: the processor reads back its address, as an interrupt
gate of the code segment. The other vectors and the memory beside the gates are unchanged.
Then the timer and the keyboard are let in and no other line, and before that none at all. -/
theorem load_idt_installs (address : Handler → UInt64) (s : Lines) :
    (∀ g ∈ gates, gate (s.run address loadIdt).mem g.1 = some (0x08, address g.2)) ∧
    (∀ v, v ∉ gates.map Prod.fst → gate (s.run address loadIdt).mem v = gate s.mem v) ∧
    (∀ a, (∀ g ∈ gates, a < sizeofDescr * g.1 ∨ sizeofDescr * g.1 + sizeofDescr ≤ a) →
      (s.run address loadIdt).mem a = s.mem a) ∧
    (∀ irq, (s.run address loadIdt).takes irq = true ↔ irq = 0 ∨ irq = 1) ∧
    ∀ n, 0 < n → n < loadIdt.length → ∀ irq, (s.run address (loadIdt.take n)).takes irq = false := by
  have hgates : (gates.map Prod.fst).Nodup := by decide
  have hdescr := @run_descr gates address hgates (s.setup address .cli)
  refine ⟨fun g hg => ?_, fun v hv => ?_, fun a ha => ?_, fun irq => ?_, fun n h0 hn irq => ?_⟩
  · exact gate_of_fields fun f => (hdescr g.1 f).1 g.2 hg
  · exact gate_congr fun f => (hdescr v f).2 hv
  · exact run_out ha (s.setup address .cli)
  · exact takes_of_masks rfl rfl rfl irq
  · obtain ⟨n, rfl⟩ := Nat.exists_eq_succ_of_ne_zero h0.ne'
    have hoff : (s.run address (loadIdt.take (n + 1))).interruptFlag = false := by
      refine @run_off (s.setup address .cli) (loadIdt.tail.take n) address (fun b hb he => ?_) rfl
      have hbefore : loadIdt.tail.take n ⊆ loadIdt.tail.dropLast := by
        rw [List.dropLast_eq_take]
        exact List.take_subset_take_left _ (Nat.le_of_lt_succ (Nat.lt_of_succ_lt_succ hn))
      have hlast : Setup.sti ∉ loadIdt.tail.dropLast := by decide
      exact hlast (he ▸ hbefore hb)
    rw [Lines.takes, hoff, Bool.false_and]

end BareKernel.Interrupts
