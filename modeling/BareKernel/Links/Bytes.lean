import Mathlib.Algebra.Order.Group.Nat
import Mathlib.Data.List.GetD
import Mathlib.Data.List.Nodup
import Mathlib.Data.List.Range
import Mathlib.Data.Nat.Notation
import Mathlib.Logic.Function.Basic

/-! A memory of bytes. Numbers and words lie in it with the lowest byte first, and a
stack grows down in it by words. What has been pushed is popped again, whatever
happens below the stack in between. -/

namespace BareKernel.Links

open Function (update)

/-- What a memory holds at each address. -/
abbrev Bytes := ℕ → UInt8

namespace Bytes

variable {m m' : Bytes} {a b i n : ℕ} {xs ys : List UInt8} {v w : UInt64}

/-- Store bytes one behind the other, from `a` on. -/
def place (m : Bytes) (a : ℕ) (xs : List UInt8) : Bytes := fun i => if a ≤ i then xs.getD (i - a) (m i) else m i

/-- The `n` bytes from `a` on. -/
def read (m : Bytes) (a n : ℕ) : List UInt8 := (List.range n).map fun i => m (a + i)

@[simp] theorem read_length (m : Bytes) (a n : ℕ) : (m.read a n).length = n := by simp [read]

theorem read_congr (h : ∀ i < n, m' (a + i) = m (b + i)) : read m' a n = read m b n :=
  List.map_congr_left fun i hi => h i (List.mem_range.mp hi)

theorem read_append (m : Bytes) (a n k : ℕ) : m.read a (n + k) = m.read a n ++ m.read (a + n) k := by
  simp only [read, List.range_add, List.map_append, List.map_map, Nat.add_assoc]
  rfl

theorem place_out (h : i < a ∨ a + xs.length ≤ i) : m.place a xs i = m i := by
  unfold place
  split
  · exact List.getD_eq_default _ _ (by omega)
  · rfl

theorem place_in (h : i < xs.length) : m.place a xs (a + i) = xs[i] := by
  rw [place, if_pos (Nat.le_add_right a i), Nat.add_sub_cancel_left, List.getD_eq_getElem _ _ h]

@[simp] theorem place_nil (m : Bytes) (a : ℕ) : m.place a [] = m := funext fun i => place_out (by simp; omega)

theorem place_append (m : Bytes) (a : ℕ) (xs ys : List UInt8) :
    m.place a (xs ++ ys) = (m.place a xs).place (a + xs.length) ys := by
  funext i
  by_cases hin : a ≤ i ∧ i < a + xs.length
  · obtain ⟨k, rfl⟩ := Nat.exists_eq_add_of_le hin.1
    have hk : k < xs.length := by omega
    rw [place_in (by rw [List.length_append]; omega), place_out (Or.inl hin.2), place_in hk,
      List.getElem_append_left hk]
  · by_cases hin' : a + xs.length ≤ i ∧ i < a + xs.length + ys.length
    · obtain ⟨k, rfl⟩ := Nat.exists_eq_add_of_le hin'.1
      have hk : k < ys.length := by omega
      rw [place_in hk, Nat.add_assoc, place_in (by rw [List.length_append]; omega),
        List.getElem_append_right (by omega)]
      simp
    · rw [place_out (by rw [List.length_append]; omega), place_out (by omega), place_out (by omega)]

theorem place_singleton (m : Bytes) (a : ℕ) (x : UInt8) : m.place a [x] = update m a x := by
  funext i
  rcases eq_or_ne i a with rfl | h
  · rw [Function.update_self]
    exact @place_in m i 0 [x] Nat.zero_lt_one
  · rw [Function.update_of_ne h]
    exact place_out (by rw [List.length_singleton]; omega)

/-- Two stores beside each other go in either order. -/
theorem place_comm (h : a + xs.length ≤ b ∨ b + ys.length ≤ a) :
    (m.place a xs).place b ys = (m.place b ys).place a xs := by
  funext i
  by_cases hx : a ≤ i ∧ i < a + xs.length
  · obtain ⟨k, rfl⟩ := Nat.exists_eq_add_of_le hx.1
    have hk : k < xs.length := by omega
    rw [place_out (by omega), place_in hk, place_in hk]
  · rw [place_out (a := a) (m := m.place b ys) (by omega)]
    by_cases hy : b ≤ i ∧ i < b + ys.length
    · obtain ⟨k, rfl⟩ := Nat.exists_eq_add_of_le hy.1
      have hk : k < ys.length := by omega
      rw [place_in hk, place_in hk]
    · rw [place_out (by omega), place_out (by omega), place_out (by omega)]

/-- What has been stored is read. -/
theorem read_place (m : Bytes) (a : ℕ) (xs : List UInt8) : (m.place a xs).read a xs.length = xs := by
  apply List.ext_getElem
  · simp
  · intro i hi hi'
    simp only [read, List.getElem_map, List.getElem_range]
    exact place_in hi'

/-- What lies beside it has not changed. -/
theorem read_place_of_disjoint (h : b + n ≤ a ∨ a + xs.length ≤ b) : (m.place a xs).read b n = m.read b n :=
  read_congr fun i hi => place_out (by omega)

/-- Store several pieces, each at its address. -/
def placeAll (m : Bytes) (ps : List (ℕ × List UInt8)) : Bytes := ps.foldl (fun m p => m.place p.1 p.2) m

theorem placeAll_out {ps : List (ℕ × List UInt8)} (h : ∀ p ∈ ps, i < p.1 ∨ p.1 + p.2.length ≤ i) :
    m.placeAll ps i = m i := by
  induction ps generalizing m with
  | nil => rfl
  | cons p ps ih =>
    have hrest : placeAll (m.place p.1 p.2) ps i = m.place p.1 p.2 i := ih fun q hq => h q (List.mem_cons_of_mem _ hq)
    exact hrest.trans (place_out (h p (List.mem_cons_self ..)))

/-- Pieces beside each other are all read afterwards. -/
theorem read_placeAll {ps : List (ℕ × List UInt8)}
    (hapart : ps.Pairwise fun p q => p.1 + p.2.length ≤ q.1 ∨ q.1 + q.2.length ≤ p.1)
    {p : ℕ × List UInt8} (hp : p ∈ ps) : (m.placeAll ps).read p.1 p.2.length = p.2 := by
  induction ps generalizing m with
  | nil => cases hp
  | cons q ps ih =>
    obtain ⟨hfirst, hrest⟩ := List.pairwise_cons.mp hapart
    rcases List.mem_cons.mp hp with rfl | hp
    · have hkept : read (placeAll (m.place p.1 p.2) ps) p.1 p.2.length = (m.place p.1 p.2).read p.1 p.2.length :=
        read_congr fun i hi => placeAll_out fun q hq => by have := hfirst q hq; omega
      exact hkept.trans (read_place m p.1 p.2)
    · exact ih hrest hp

/-! ### Numbers -/

/-- The `n` lowest bytes of a number, from the lowest on. -/
def digits : ℕ → ℕ → List UInt8
  | 0, _ => []
  | n + 1, v => UInt8.ofNat v :: digits n (v / 256)

/-- The number that the bytes spell. -/
def value : List UInt8 → ℕ
  | [] => 0
  | x :: xs => x.toNat + 256 * value xs

@[simp] theorem digits_length (n v : ℕ) : (digits n v).length = n := by
  induction n generalizing v with
  | zero => rfl
  | succ n ih => rw [digits, List.length_cons, ih]

theorem value_digits (n v : ℕ) : value (digits n v) = v % 256 ^ n := by
  induction n generalizing v with
  | zero => simp [digits, value, Nat.mod_one]
  | succ n ih =>
    have hlow : (UInt8.ofNat v).toNat = v % 256 := UInt8.toNat_ofNat'
    rw [digits, value, ih, hlow, Nat.pow_succ', Nat.mod_mul]

/-! ### Words -/

/-- The word at `a`. -/
def wordAt (m : Bytes) (a : ℕ) : UInt64 := UInt64.ofNat (value (m.read a 8))

/-- Store a word at `a`. -/
def setWord (m : Bytes) (a : ℕ) (w : UInt64) : Bytes := m.place a (digits 8 w.toNat)

theorem wordAt_congr (h : ∀ i, a ≤ i → i < a + 8 → m' i = m i) : wordAt m' a = wordAt m a := by
  unfold wordAt
  rw [read_congr fun i hi => h (a + i) (by omega) (by omega)]

theorem wordAt_setWord (m : Bytes) (a : ℕ) (w : UInt64) : (m.setWord a w).wordAt a = w := by
  have hread : (m.setWord a w).read a 8 = digits 8 w.toNat := read_place m a (digits 8 w.toNat)
  rw [wordAt, hread, value_digits]
  apply UInt64.toNat_inj.mp
  have hw : w.toNat < 2 ^ 64 := w.toNat_lt
  rw [UInt64.toNat_ofNat', Nat.mod_mod_of_dvd _ (by decide), Nat.mod_eq_of_lt hw]

theorem setWord_out (h : i < a ∨ a + 8 ≤ i) : m.setWord a w i = m i := place_out (by rwa [digits_length])

theorem wordAt_setWord_of_disjoint (h : b + 8 ≤ a ∨ a + 8 ≤ b) : (m.setWord a w).wordAt b = m.wordAt b :=
  wordAt_congr fun i _ _ => setWord_out (by omega)

end Bytes

/-! ### A stack of words -/

/-- A memory and the place of the last word pushed. -/
structure Stack where
  mem : Bytes
  sp : ℕ

namespace Stack

variable {ι : Type*} [DecidableEq ι] {s : Stack} {m : Bytes} {f g : ι → UInt64} {rs : List ι} {r : ι} {i : ℕ}

def push (s : Stack) (w : UInt64) : Stack := ⟨s.mem.setWord (s.sp - 8) w, s.sp - 8⟩

def pop (s : Stack) : UInt64 × Stack := (s.mem.wordAt s.sp, ⟨s.mem, s.sp + 8⟩)

/-- Push the registers of a list, one after the other. -/
def pushAll (f : ι → UInt64) (s : Stack) (rs : List ι) : Stack := rs.foldl (fun s r => s.push (f r)) s

/-- Pop into the registers of a list. -/
def popAll : List ι → (ι → UInt64) → Stack → (ι → UInt64) × Stack
  | [], g, s => (g, s)
  | r :: rs, g, s => popAll rs (update g r s.pop.1) s.pop.2

theorem popAll_append (rs rs' : List ι) (g : ι → UInt64) (s : Stack) :
    popAll (rs ++ rs') g s = popAll rs' (popAll rs g s).1 (popAll rs g s).2 := by
  induction rs generalizing g s with
  | nil => rfl
  | cons r rs ih => exact ih _ _

omit [DecidableEq ι] in
theorem pushAll_append (f : ι → UInt64) (s : Stack) (rs rs' : List ι) :
    pushAll f s (rs ++ rs') = pushAll f (pushAll f s rs) rs' := List.foldl_append

omit [DecidableEq ι] in
theorem pushAll_sp (f : ι → UInt64) (s : Stack) (rs : List ι) : (pushAll f s rs).sp = s.sp - 8 * rs.length := by
  induction rs generalizing s with
  | nil => rfl
  | cons r rs ih =>
    have hfirst : (s.push (f r)).sp = s.sp - 8 := rfl
    show (pushAll f (s.push (f r)) rs).sp = _
    rw [ih, hfirst, List.length_cons]
    omega

/-- Pushing changes nothing above the stack pointer. -/
theorem push_above (hroom : 8 ≤ s.sp) (hi : s.sp ≤ i) (w : UInt64) : (s.push w).mem i = s.mem i :=
  Bytes.setWord_out (Or.inr (by omega))

omit [DecidableEq ι] in
theorem pushAll_above (hroom : 8 * rs.length ≤ s.sp) (hi : s.sp ≤ i) : (pushAll f s rs).mem i = s.mem i := by
  induction rs generalizing s with
  | nil => rfl
  | cons r rs ih =>
    rw [List.length_cons] at hroom
    have hfirst : (s.push (f r)).sp = s.sp - 8 := rfl
    have hrest := ih (s := s.push (f r)) (by omega) (by omega)
    exact hrest.trans (push_above (by omega) hi _)

omit [DecidableEq ι] in
theorem pushAll_below (hi : i < s.sp - 8 * rs.length) : (pushAll f s rs).mem i = s.mem i := by
  induction rs generalizing s with
  | nil => rfl
  | cons r rs ih =>
    rw [List.length_cons] at hi
    have hfirst : (s.push (f r)).sp = s.sp - 8 := rfl
    have hrest := ih (s := s.push (f r)) (by omega)
    exact hrest.trans (Bytes.setWord_out (Or.inl (by omega)))

/-- What has been pushed is popped in the opposite order, from any memory that still
holds it. -/
theorem popAll_pushAll (hroom : 8 * rs.length ≤ s.sp)
    (hm : ∀ i, s.sp - 8 * rs.length ≤ i → i < s.sp → m i = (pushAll f s rs).mem i) (g : ι → UInt64) :
    popAll rs.reverse g ⟨m, s.sp - 8 * rs.length⟩ = (fun r => if r ∈ rs then f r else g r, ⟨m, s.sp⟩) := by
  induction rs using List.reverseRecOn generalizing g with
  | nil => simp [popAll]
  | append_singleton rs r ih =>
    rw [List.length_append, List.length_singleton] at hroom hm ⊢
    have hlast : pushAll f s (rs ++ [r]) = (pushAll f s rs).push (f r) := pushAll_append f s rs [r]
    have hsp := pushAll_sp f s rs
    have hword : m.wordAt (s.sp - 8 * (rs.length + 1)) = f r := by
      have hplace : s.sp - 8 * (rs.length + 1) = (pushAll f s rs).sp - 8 := by omega
      rw [Bytes.wordAt_congr (m := ((pushAll f s rs).push (f r)).mem), hplace]
      · exact Bytes.wordAt_setWord ..
      · intro i hi hi'
        rw [hm i hi (by omega), hlast]
    -- the words pushed before lie above
    have hrest := ih (by omega) (g := update g r (f r)) fun i hi hi' => by
      rw [hm i (by omega) hi', hlast]
      exact push_above (by omega) (by omega) _
    have hpop : popAll (rs ++ [r]).reverse g ⟨m, s.sp - 8 * (rs.length + 1)⟩ =
        popAll rs.reverse (update g r (f r)) ⟨m, s.sp - 8 * rs.length⟩ := by
      rw [List.reverse_concat]
      show popAll rs.reverse (update g r (m.wordAt _)) ⟨m, s.sp - 8 * (rs.length + 1) + 8⟩ = _
      rw [hword]
      congr 2
      omega
    rw [hpop, hrest]
    congr 1
    funext r'
    by_cases hmem : r' ∈ rs <;> by_cases hr : r' = r <;> simp [hmem, hr]

theorem popAll_of_notMem (hr : r ∉ rs) (g : ι → UInt64) (s : Stack) : (popAll rs g s).1 r = g r := by
  induction rs generalizing g s with
  | nil => rfl
  | cons q rs ih =>
    obtain ⟨hne, hnot⟩ := not_or.mp fun h => hr (List.mem_cons.mpr h)
    rw [popAll, ih hnot, Function.update_of_ne hne]

theorem popAll_stack (rs : List ι) (g : ι → UInt64) (s : Stack) :
    (popAll rs g s).2 = ⟨s.mem, s.sp + 8 * rs.length⟩ := by
  induction rs generalizing g s with
  | nil => rfl
  | cons r rs ih =>
    have hlen : s.sp + 8 + 8 * rs.length = s.sp + 8 * (r :: rs).length := by
      rw [List.length_cons]
      omega
    rw [popAll, ih, ← hlen]
    rfl

/-- The register at place `n` of the list is popped from the `n`-th word. -/
theorem popAll_apply (hrs : rs.Nodup) (hr : r ∈ rs) (g : ι → UInt64) (s : Stack) :
    (popAll rs g s).1 r = s.mem.wordAt (s.sp + 8 * rs.idxOf r) := by
  induction rs generalizing g s with
  | nil => cases hr
  | cons r' rs ih =>
    obtain ⟨hnot, hrest⟩ := List.nodup_cons.mp hrs
    rw [popAll]
    by_cases he : r' = r
    · subst he
      rw [popAll_of_notMem hnot, Function.update_self, List.idxOf_cons_self]
      rfl
    · rw [ih hrest ((List.mem_cons.mp hr).resolve_left (Ne.symm he)), List.idxOf_cons_ne _ he]
      show s.mem.wordAt (s.sp + 8 + 8 * _) = _
      congr 1
      omega

/-- Where a pushed register lies. -/
theorem wordAt_pushAll (hroom : 8 * rs.length ≤ s.sp) (hrs : rs.Nodup) (hr : r ∈ rs) :
    (pushAll f s rs).mem.wordAt ((pushAll f s rs).sp + 8 * rs.reverse.idxOf r) = f r := by
  have hback : popAll rs.reverse f (pushAll f s rs) =
      (fun r => if r ∈ rs then f r else f r, ⟨(pushAll f s rs).mem, s.sp⟩) := by
    rw [← popAll_pushAll hroom (fun _ _ _ => rfl) f, ← pushAll_sp f]
  have hpop := popAll_apply (List.nodup_reverse.mpr hrs) (List.mem_reverse.mpr hr) f (pushAll f s rs)
  rw [hback] at hpop
  exact hpop.symm.trans (if_pos hr)

end Stack

end BareKernel.Links
