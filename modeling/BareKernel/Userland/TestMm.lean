import BareKernel.Kernel.Lib
import BareKernel.Memory.GroupIsolation

/-! The memory test `test_mm.c` over the bytes of the group allocator, while other
processes use the allocator too. The test asks for blocks of random sizes, fills each of
them, checks each byte and gives the blocks back, again and again. It never finds a byte
that it did not write. -/

namespace BareKernel.Userland

open Links Memory Lib

/-- `MAX_BLOCKS` of the test. -/
def testBlocks : ℕ := 128

structure MmRq where
  address : ℕ
  size : ℕ

/-- Where the test is: at the request of a block, before it fills block `i`, before it
checks byte `j` of block `i`, before it gives block `i` back, and where it has printed
that a byte is wrong. -/
inductive Phase where
  | request
  | set (i : ℕ)
  | check (i j : ℕ)
  | free (i : ℕ)
  | error

/-- The allocator, the blocks requested in this round, and the sum of their sizes as a
`uint32_t`. -/
structure TestMm extends ByteRun where
  rqs : List MmRq
  total : ℕ
  phase : Phase

/-- A request, of a size that `GetUniform` gives; the next step of another phase; or a call
of another process. -/
inductive TestAction where
  | request (size : ℕ)
  | goOn
  | other (call : ByteCall)

namespace TestMm

/-- `usr_memset(address, i, size)` -/
def memset (s : TestMm) (r : MmRq) (i : ℕ) : ByteRun :=
  { s.toByteRun with
    heap := { s.heap with mem := Lib.memset s.heap.mem r.address (Int32.ofNat i) r.size }
    written := Lib.memset s.written r.address (Int32.ofNat i) r.size }

def free (s : TestMm) (r : MmRq) : ByteRun :=
  let (freed, c) := s.heap.free r.address
  s.freeing r.address freed c

/-- The loops over `mm_rqs`, one round at a time; `memcheck` goes byte by byte. -/
def goOn (maxMemory : ℕ) (s : TestMm) : TestMm :=
  match s.phase with
  | .request => if s.rqs.length < testBlocks ∧ s.total < maxMemory then s else { s with phase := .set 0 }
  | .set i =>
    match s.rqs[i]? with
    | some r => { s with toByteRun := s.memset r i, phase := .set (i + 1) }
    | none => { s with phase := .check 0 0 }
  | .check i j =>
    match s.rqs[i]? with
    | some r =>
      if j < r.size then
        if s.heap.mem (r.address + j) = UInt8.ofNat i then { s with phase := .check i (j + 1) }
        else { s with phase := .error }
      else { s with phase := .check (i + 1) 0 }
    | none => { s with phase := .free 0 }
  | .free i =>
    match s.rqs[i]? with
    | some r => { s with toByteRun := s.free r, phase := .free (i + 1) }
    | none => { s with rqs := [], total := 0, phase := .request }
  | .error => s

/-- A block that was got counts. -/
def requested (s : TestMm) (size ptr : ℕ) (c : ByteGroup) : TestMm :=
  { toByteRun := s.granting size ptr c
    rqs := if ptr = 0 then s.rqs else s.rqs ++ [⟨ptr, size⟩]
    total := if ptr = 0 then s.total else (s.total + size) % 2 ^ 32
    phase := s.phase }

/-- The blocks that the test has and has not given back. -/
def owned (s : TestMm) : List MmRq :=
  match s.phase with
  | .free i => s.rqs.drop i
  | _ => s.rqs

end TestMm

/-- The test and any number of other clients of the allocator. -/
def testSystem (start size maxMemory : ℕ) : System TestMm TestAction where
  init s := (byteSystem start size).init s.toByteRun ∧ s.rqs = [] ∧ s.total = 0 ∧ s.phase = .request
  step s a t :=
    match a with
    | .request n => s.phase = .request ∧ s.rqs.length < testBlocks ∧ s.total < maxMemory ∧
        ∃ ptr c, s.heap.malloc n = some (ptr, c) ∧ t = s.requested n ptr c
    | .goOn => t = s.goOn maxMemory
    | .other call => (byteSystem start size).step s.toByteRun call t.toByteRun ∧
        t = { s with toByteRun := t.toByteRun }

/-- Sizes are `int`s above zero; other processes leave the blocks of the test alone. -/
def TestAction.Fair (s : TestMm) : TestAction → Prop
  | .request n => 0 < n ∧ n < 2 ^ 31
  | .goOn => True
  | .other call => call.Roundable ∧ ∀ r ∈ s.owned, call.Spares s.toByteRun r.address

namespace TestMm

/-- How many blocks are filled. -/
def filled (s : TestMm) : ℕ :=
  match s.phase with
  | .set i => i
  | .check _ _ => s.rqs.length
  | _ => 0

/-- The test has its blocks, each of which is filled with its number as far as the test
has come. -/
structure Sound (start size : ℕ) (s : TestMm) : Prop where
  isolated : ∃ g lo L F, Memory.Isolated start size s.toByteRun g lo L F
  short : s.rqs.length ≤ testBlocks
  owns : ∀ r ∈ s.owned, r.address ∈ s.live ∧ s.granted r.address = r.size
  nodup : (s.owned.map MmRq.address).Nodup
  content : ∀ k r, k < s.filled → s.rqs[k]? = some r → ∀ i, r.address ≤ i → i < r.address + r.size →
    s.written i = UInt8.ofNat k
  fine : s.phase ≠ .error

variable {start size maxMemory : ℕ} {s t : TestMm} {u : ByteRun} {r : MmRq} {n p : ℕ}

/-! ### Filling a block -/

theorem isolated_memset {b : ByteRun} {g : Group} {lo : ℕ} {L F : List ℕ}
    (h : Memory.Isolated start size b g lo L F) (hp : p ∈ b.live) (hn : n ≤ b.granted p) (c : Int32) :
    Memory.Isolated start size { b with
      heap := { b.heap with mem := Lib.memset b.heap.mem p c n }
      written := Lib.memset b.written p c n } g lo L F := by
  induction n generalizing b with
  | zero => exact h
  | succ n ih => exact ih (h.store hp (i := p + n) (by omega) (by omega) (chr c)) hp (Nat.le_of_succ_le hn)

theorem chr_ofNat : ∀ i < testBlocks, chr (Int32.ofNat i) = UInt8.ofNat i := by decide

theorem memset_written_in {i j : ℕ} (hi : i < testBlocks) (hj : r.address ≤ j) (hj' : j < r.address + r.size) :
    (s.memset r i).written j = UInt8.ofNat i := by
  obtain ⟨k, rfl⟩ := Nat.exists_eq_add_of_le hj
  show Lib.memset s.written r.address (Int32.ofNat i) r.size (r.address + k) = _
  rw [memset_eq, Bytes.place_in (by rw [List.length_replicate]; omega), List.getElem_replicate, chr_ofNat i hi]

theorem memset_written_out {i j : ℕ} (hj : j < r.address ∨ r.address + r.size ≤ j) :
    (s.memset r i).written j = s.written j := by
  show Lib.memset s.written r.address (Int32.ofNat i) r.size j = _
  rw [memset_eq, Bytes.place_out (by rwa [List.length_replicate])]

/-! ### Steps -/

theorem mem_owned {k : ℕ} (hk : k < s.filled) (hr : s.rqs[k]? = some r) : r ∈ s.owned := by
  have hmem := List.mem_of_getElem? hr
  unfold filled at hk
  unfold owned
  split
  case h_1 i hphase =>
    rw [hphase] at hk
    exact absurd hk (Nat.not_lt_zero k)
  case h_2 => exact hmem

theorem Sound.kept (h : Sound start size s) (hiso : ∃ g lo L F, Memory.Isolated start size u g lo L F)
    (hkept : ∀ r ∈ s.owned, Kept s.toByteRun u r.address) : Sound start size { s with toByteRun := u } where
  isolated := hiso
  short := h.short
  owns r hr := by
    obtain ⟨hlive, hgranted, -⟩ := hkept r hr
    exact ⟨hlive, hgranted.trans (h.owns r hr).2⟩
  nodup := h.nodup
  content k r hk hr i hi hi' := by
    have hmem := mem_owned (s := s) hk hr
    have hsame := (hkept r hmem).written i hi (by rwa [(h.owns r hmem).2])
    exact hsame.trans (h.content k r hk hr i hi hi')
  fine := h.fine

theorem Sound.other (h : Sound start size s) (hw : start + 3 * size ≤ wordSize) {call : ByteCall}
    (hok : call.Roundable) (hspare : ∀ r ∈ s.owned, call.Spares s.toByteRun r.address)
    (hst : (byteSystem start size).step s.toByteRun call u) : Sound start size { s with toByteRun := u } := by
  obtain ⟨g, lo, L, F, hiso⟩ := h.isolated
  obtain ⟨g', lo', L', F', hiso'⟩ := hiso.step hw hok hst
  exact h.kept ⟨g', lo', L', F', hiso'⟩ fun r hr => hiso'.kept hst (h.owns r hr).1 (hspare r hr)

/-- A block that was just handed out is none of those that the test has. -/
theorem Sound.request (h : Sound start size s) (hw : start + 3 * size ≤ wordSize) (hn : n < 2 ^ 31)
    (hphase : s.phase = .request) (hroom : s.rqs.length < testBlocks) {ptr : ℕ} {c : ByteGroup}
    (hrun : s.heap.malloc n = some (ptr, c)) : Sound start size (s.requested n ptr c) := by
  have hsize : wordSize = 2 ^ 64 := rfl
  have hround : (ByteCall.malloc n).Roundable := show n + 7 < wordSize by omega
  have hst : (byteSystem start size).step s.toByteRun (.malloc n) (s.granting n ptr c) :=
    ⟨by omega, ptr, c, hrun, rfl⟩
  have hnext := h.other hw hround (fun _ _ => trivial) hst
  have howned : s.owned = s.rqs := by rw [owned, hphase]
  by_cases hz : ptr = 0
  · have hsame : s.requested n ptr c = { s with toByteRun := s.granting n ptr c } := by
      unfold requested
      rw [if_pos hz, if_pos hz]
    rwa [hsame]
  · obtain ⟨g, lo, L, F, hiso⟩ := hnext.isolated
    have hgrant := ByteRun.granting_of_ne (s := s.toByteRun) (n := n) (c := c) hz
    have hfresh : ptr ∉ s.live := by
      have hnodup := hiso.inv.nodup
      dsimp only at hnodup
      rw [hgrant] at hnodup
      exact (List.nodup_cons.mp hnodup).1
    have hrqs : (s.requested n ptr c).rqs = s.rqs ++ [⟨ptr, n⟩] := if_neg hz
    have howned' : (s.requested n ptr c).owned = s.rqs ++ [⟨ptr, n⟩] := by
      unfold owned requested
      dsimp only
      rw [hphase, if_neg hz]
    refine ⟨⟨g, lo, L, F, hiso⟩, ?_, fun r hr => ?_, ?_, fun k r hk => ?_, ?_⟩
    · rw [hrqs, List.length_append, List.length_singleton]
      exact hroom
    · rw [howned'] at hr
      rcases List.mem_append.mp hr with hr | hr
      · rw [← howned] at hr
        exact hnext.owns r hr
      · rw [List.mem_singleton.mp hr]
        show ptr ∈ (s.granting n ptr c).live ∧ (s.granting n ptr c).granted ptr = n
        rw [hgrant]
        exact ⟨List.mem_cons_self, Function.update_self ..⟩
    · rw [howned', List.map_append, List.map_singleton]
      refine List.nodup_append.mpr ⟨howned ▸ h.nodup, List.nodup_singleton _, fun a ha b hb => ?_⟩
      obtain ⟨r, hr, rfl⟩ := List.mem_map.mp ha
      rw [List.mem_singleton.mp hb]
      intro he
      rw [← howned] at hr
      have hlive := (h.owns r hr).1
      rw [he] at hlive
      exact hfresh hlive
    · have hnone : (s.requested n ptr c).filled = 0 := by
        unfold filled requested
        dsimp only
        rw [hphase]
      rw [hnone] at hk
      exact absurd hk (Nat.not_lt_zero k)
    · exact h.fine

theorem Sound.set {i : ℕ} (h : Sound start size s) (hphase : s.phase = .set i) (hr : s.rqs[i]? = some r) :
    Sound start size { s with toByteRun := s.memset r i, phase := .set (i + 1) } := by
  have howned : s.owned = s.rqs := by rw [owned, hphase]
  have hmem : r ∈ s.owned := howned ▸ List.mem_of_getElem? hr
  obtain ⟨hlive, hgranted⟩ := h.owns r hmem
  obtain ⟨g, lo, L, F, hiso⟩ := h.isolated
  have hi : i < s.rqs.length := (List.getElem?_eq_some_iff.mp hr).1
  have hshort := h.short
  refine ⟨⟨g, lo, L, F, isolated_memset hiso hlive hgranted.ge _⟩, h.short, fun q hq => ?_, ?_,
    fun k q hk hq j hj hj' => ?_, nofun⟩
  · exact h.owns q (howned ▸ hq)
  · exact howned ▸ h.nodup
  · rcases Nat.lt_succ_iff_lt_or_eq.mp hk with hlt | rfl
    · -- the blocks before keep their bytes
      have hk' : k < s.filled := by rwa [filled, hphase]
      have hq' : q ∈ s.owned := mem_owned hk' hq
      have hne : q.address ≠ r.address := by
        intro he
        have hnodup := h.nodup
        rw [howned] at hnodup
        have hkl : k < (s.rqs.map MmRq.address).length := by rw [List.length_map]; omega
        have hsame : k = i := (List.getElem?_inj hkl hnodup).mp (by
          rw [List.getElem?_map, List.getElem?_map, hq, hr, Option.map_some, Option.map_some, he])
        omega
      obtain ⟨hqlive, hqgranted⟩ := h.owns q hq'
      have hout := hiso.apart hqlive hlive hne hj (by rwa [hqgranted])
      rw [hgranted] at hout
      exact (memset_written_out hout).trans (h.content k q hk' hq j hj hj')
    · have hqr : q = r := Option.some.inj (hq.symm.trans hr)
      subst hqr
      exact memset_written_in (by omega) hj hj'

theorem Sound.free {i : ℕ} (h : Sound start size s) (hw : start + 3 * size ≤ wordSize) (hphase : s.phase = .free i)
    (hr : s.rqs[i]? = some r) : Sound start size { s with toByteRun := s.free r, phase := .free (i + 1) } := by
  have howned : s.owned = r :: s.rqs.drop (i + 1) := by
    rw [owned, hphase]
    obtain ⟨hi, rfl⟩ := List.getElem?_eq_some_iff.mp hr
    exact List.drop_eq_getElem_cons hi
  have hmem : r ∈ s.owned := howned ▸ List.mem_cons_self
  have hnodup := h.nodup
  rw [howned, List.map_cons] at hnodup
  obtain ⟨hnot, hrest⟩ := List.nodup_cons.mp hnodup
  have hst : (byteSystem start size).step s.toByteRun (.free r.address) (s.free r) :=
    ⟨(h.owns r hmem).1, _, _, rfl, rfl⟩
  obtain ⟨g, lo, L, F, hiso⟩ := h.isolated
  have hround : (ByteCall.free r.address).Roundable := trivial
  obtain ⟨g', lo', L', F', hiso'⟩ := hiso.step hw hround hst
  refine ⟨⟨g', lo', L', F', hiso'⟩, h.short, fun q hq => ?_, hrest, fun k _ hk => absurd hk (Nat.not_lt_zero k), nofun⟩
  have hq' : q ∈ s.owned := howned ▸ List.mem_cons_of_mem _ hq
  have hne : r.address ≠ q.address := fun he => hnot (he ▸ List.mem_map_of_mem hq)
  obtain ⟨hlive, hgranted, -⟩ := hiso'.kept hst (h.owns q hq').1 hne
  exact ⟨hlive, hgranted.trans (h.owns q hq').2⟩

theorem Sound.checked {i j : ℕ} (h : Sound start size s) (hphase : s.phase = .check i j) (hr : s.rqs[i]? = some r)
    (hj : j < r.size) : s.heap.mem (r.address + j) = UInt8.ofNat i := by
  have hk : i < s.filled := by
    rw [filled, hphase]
    exact (List.getElem?_eq_some_iff.mp hr).1
  obtain ⟨hlive, hgranted⟩ := h.owns r (mem_owned hk hr)
  obtain ⟨g, lo, L, F, hiso⟩ := h.isolated
  rw [hiso.same r.address hlive _ (Nat.le_add_right ..) (by rw [hgranted]; omega)]
  exact h.content i r hk hr _ (Nat.le_add_right ..) (by omega)

/-- Another phase with the same blocks, of which no more are filled. -/
theorem Sound.move {ph : Phase} (h : Sound start size s) (howned : ({ s with phase := ph } : TestMm).owned = s.owned)
    (hfilled : ∀ k, k < ({ s with phase := ph } : TestMm).filled → k < s.rqs.length → k < s.filled)
    (hne : ph ≠ .error) : Sound start size { s with phase := ph } :=
  ⟨h.isolated, h.short, fun r hr => h.owns r (howned ▸ hr), howned.symm ▸ h.nodup,
    fun k r hk hr => h.content k r (hfilled k hk (List.getElem?_eq_some_iff.mp hr).1) hr, hne⟩

theorem Sound.goOn (h : Sound start size s) (hw : start + 3 * size ≤ wordSize) :
    Sound start size (s.goOn maxMemory) := by
  unfold TestMm.goOn
  cases hphase : s.phase with
  | request =>
    dsimp only
    split
    · exact h
    · exact h.move (by rw [owned, owned, hphase]) (fun k hk => absurd hk (Nat.not_lt_zero k)) nofun
  | set i =>
    dsimp only
    cases hr : s.rqs[i]? with
    | some r => exact h.set hphase hr
    | none =>
      refine h.move (by rw [owned, owned, hphase]) (fun k _ hk => ?_) nofun
      have hall : s.rqs.length ≤ i := List.getElem?_eq_none_iff.mp hr
      have hfilled : s.filled = i := by rw [filled, hphase]
      omega
  | check i j =>
    dsimp only
    have hfilled : s.filled = s.rqs.length := by rw [filled, hphase]
    cases hr : s.rqs[i]? with
    | some r =>
      dsimp only
      split
      case isTrue hj =>
        rw [if_pos (h.checked hphase hr hj)]
        exact h.move (by rw [owned, owned, hphase]) (fun k _ hk => hfilled ▸ hk) nofun
      case isFalse => exact h.move (by rw [owned, owned, hphase]) (fun k _ hk => hfilled ▸ hk) nofun
    | none => exact h.move (by rw [owned, owned, hphase]; rfl) (fun k hk => absurd hk (Nat.not_lt_zero k)) nofun
  | free i =>
    dsimp only
    cases hr : s.rqs[i]? with
    | some r => exact h.free hw hphase hr
    | none =>
      exact ⟨h.isolated, Nat.zero_le _, fun r hr => absurd hr List.not_mem_nil, List.nodup_nil,
        fun k _ hk => absurd hk (Nat.not_lt_zero k), nofun⟩
  | error => exact absurd hphase h.fine

end TestMm

/-- However other clients of the allocator come in between, the memory test never finds a wrong
byte: it never prints `test_mm ERROR`. -/
theorem test_mm_passes {start size maxMemory : ℕ} {s : TestMm} (h0 : 0 < start) (h8 : 8 ∣ size)
    (hsz : headerSize < size) (hw : start + 3 * size ≤ wordSize)
    (hrun : (testSystem start size maxMemory).Reach TestAction.Fair s) : s.phase ≠ .error := by
  have hall : TestMm.Sound start size s := hrun.invariant (I := TestMm.Sound start size)
    (fun s ⟨hinit, hrqs, _, hphase⟩ => by
      have howned : s.owned = [] := by rw [TestMm.owned, hphase, hrqs]
      refine ⟨init_isolated h0 h8 hsz hw hinit, by rw [hrqs]; exact Nat.zero_le _, ?_, ?_, ?_, by rw [hphase]; nofun⟩
      · rw [howned]
        exact fun r hr => absurd hr List.not_mem_nil
      · rw [howned]
        exact List.nodup_nil
      · intro k r hk hr
        rw [hrqs] at hr
        cases hr)
    fun s a t h hok hst => by
      cases a with
      | request n =>
        obtain ⟨hphase, hroom, -, ptr, c, hmalloc, rfl⟩ := hst
        exact h.request hw hok.2 hphase hroom hmalloc
      | goOn =>
        rw [show t = s.goOn maxMemory from hst]
        exact h.goOn hw
      | other call =>
        obtain ⟨hcall, ht⟩ := hst
        rw [ht]
        exact h.other hw hok.1 hok.2 hcall
  exact hall.fine

/-- A block of eight bytes is got, filled and checked. -/
theorem test_mm_passes_checked : ∃ s, (testSystem 8 512 8).Reach TestAction.Fair s ∧ s.rqs = [⟨64, 8⟩] ∧
    s.phase = .check 0 0 ∧ (s.goOn 8).phase ≠ .error := by
  obtain ⟨⟨ptr, c⟩, hrun, hptr⟩ : ∃ r, (zeroBytes.init 8 512).malloc 8 = some r ∧ r.1 = 64 :=
    Option.map_eq_some_iff.mp (show ((zeroBytes.init 8 512).malloc 8).map Prod.fst = some 64 by decide +kernel)
  obtain rfl : ptr = 64 := hptr
  set s : TestMm := ⟨⟨zeroBytes.init 8 512, [], fun _ => 0, fun _ => 0⟩, [], 0, .request⟩ with hs
  have hinit : (testSystem 8 512 8).Reach TestAction.Fair s := .init ⟨⟨zeroBytes, rfl, rfl⟩, rfl, rfl, rfl⟩
  have hfair : (TestAction.request 8).Fair s := show 0 < 8 ∧ 8 < 2 ^ 31 by decide
  have hgot : (testSystem 8 512 8).Reach TestAction.Fair (s.requested 8 64 c) :=
    hinit.step hfair ⟨rfl, by decide, by decide, 64, c, hrun, rfl⟩
  have hnext (t : TestMm) (ht : (testSystem 8 512 8).Reach TestAction.Fair t) :
      (testSystem 8 512 8).Reach TestAction.Fair (t.goOn 8) := ht.step (a := .goOn) trivial rfl
  have hfilled := hnext _ (hnext _ (hnext _ hgot))
  exact ⟨_, hfilled, rfl, rfl, test_mm_passes (by decide) (by decide) (by decide) (by decide) (hnext _ hfilled)⟩

end BareKernel.Userland
