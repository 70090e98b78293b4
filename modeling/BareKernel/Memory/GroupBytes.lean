import BareKernel.Links.Bytes
import BareKernel.Memory.GroupRuns

/-! The group allocator on the bytes of the memory that it manages. Each header is a
`block_header` of seven fields in front of its payload, and every operation loads and
stores fields. On the headers of the blocks the bytes say what the arrays of `Headers`
say, and outside of these headers no operation changes a byte. -/

namespace BareKernel.Memory

open Function (update)
open Links

/-- The fields of `block_header` that are words. -/
inductive Field where
  | size | userSize | next | prev | freeNext | freePrev
deriving DecidableEq

/-- Where a field lies in its header. -/
def Field.offset : Field → ℕ
  | .size => 0
  | .userSize => 8
  | .next => 24
  | .prev => 32
  | .freeNext => 40
  | .freePrev => 48

/-- Where the byte `is_free` lies. -/
def isFreeOffset : ℕ := 16

/-- The memory and the static variables. -/
structure ByteGroup where
  mem : Bytes
  freeList : ℕ
  memoryStart : ℕ
  totalSize : ℕ
  currentBlocks : ℕ
  totalAllocated : ℕ
  totalFreed : ℕ

namespace ByteGroup

/-- Load a field of the header at `b`. -/
def get (g : ByteGroup) (f : Field) (b : ℕ) : ℕ := (g.mem.wordAt (b + f.offset)).toNat

/-- Store a field of the header at `b`. -/
def put (g : ByteGroup) (f : Field) (b v : ℕ) : ByteGroup :=
  { g with mem := g.mem.setWord (b + f.offset) (.ofNat v) }

def isFree (g : ByteGroup) (b : ℕ) : Bool := g.mem (b + isFreeOffset) != 0

def putIsFree (g : ByteGroup) (b : ℕ) (v : Bool) : ByteGroup :=
  { g with mem := update g.mem (b + isFreeOffset) (if v then 1 else 0) }

def insertIntoFreeList (g : ByteGroup) (b : ℕ) : ByteGroup :=
  let g := (g.put .freePrev b 0).put .freeNext b 0
  let g := g.putIsFree b true
  let g := g.put .userSize b 0
  if g.freeList = 0 then { (g.put .freePrev b b).put .freeNext b b with freeList := b }
  else
    let tail := g.get .freePrev g.freeList
    let g := g.put .freeNext b g.freeList
    let g := g.put .freePrev b tail
    let g := g.put .freeNext tail b
    let g := g.put .freePrev g.freeList b
    { g with freeList := b }

def removeFromFreeList (g : ByteGroup) (b : ℕ) : ByteGroup :=
  if b = 0 ∨ g.isFree b = false then g
  else
    let g :=
      if g.get .freeNext b = b then { g with freeList := 0 }
      else
        let g := g.put .freeNext (g.get .freePrev b) (g.get .freeNext b)
        let g := g.put .freePrev (g.get .freeNext b) (g.get .freePrev b)
        if g.freeList = b then { g with freeList := g.get .freeNext b } else g
    let g := (g.put .freePrev b 0).put .freeNext b 0
    g.putIsFree b false

def init (g : ByteGroup) (start size : ℕ) : ByteGroup :=
  let g := { g with memoryStart := start, totalSize := size }
  let g := { g with currentBlocks := 0, totalAllocated := 0, totalFreed := 0 }
  let g := g.put .size start (alignUp ((size + wordSize - headerSize) % wordSize))
  let g := g.put .userSize start 0
  let g := g.putIsFree start true
  let g := g.put .next start start
  let g := g.put .prev start start
  insertIntoFreeList { g with freeList := 0 } start

/-- The first-fit loop of `group_malloc`, as `groupSearch`. -/
def search (g : ByteGroup) (req : ℕ) : ℕ → ℕ → Option ℕ
  | 0, _ => none
  | fuel + 1, cur =>
    if req ≤ g.get .size cur then some cur
    else
      let cur := g.get .freeNext cur
      if cur ≠ 0 ∧ cur ≠ g.freeList then search g req fuel cur else some 0

def split (g : ByteGroup) (cur req : ℕ) : ByteGroup :=
  let rem := g.get .size cur - req
  if headerSize + minBlockSize < rem then
    let nb := cur + headerSize + req
    let g := g.put .size nb (alignUp (rem - headerSize))
    let g := g.put .userSize nb 0
    let g := g.putIsFree nb true
    let g := g.put .next nb (g.get .next cur)
    let g := g.put .prev nb cur
    let g := g.put .prev (g.get .next cur) nb
    let g := g.put .next cur nb
    let g := insertIntoFreeList g nb
    g.put .size cur req
  else g

def take (g : ByteGroup) (cur req size : ℕ) : ByteGroup :=
  let g := split g cur req
  let g := removeFromFreeList g cur
  let g := g.put .userSize cur size
  { g with
    totalAllocated := (g.totalAllocated + size) % wordSize
    currentBlocks := (g.currentBlocks + 1) % wordSize }

def malloc (g : ByteGroup) (size : ℕ) : Option (ℕ × ByteGroup) :=
  if size = 0 ∨ g.freeList = 0 ∨ maxBlocks ≤ g.currentBlocks then some (0, g)
  else
    let req := alignUp size
    match search g req g.totalSize g.freeList with
    | none => none
    | some cur => if cur = 0 then some (0, g) else some (cur + headerSize, take g cur req size)

def mergeNext (g : ByteGroup) (b : ℕ) : ByteGroup :=
  if g.get .next b ≠ 0 ∧ g.isFree (g.get .next b) then
    let g := removeFromFreeList g (g.get .next b)
    let n := g.get .next b
    let g := g.put .size b ((g.get .size b + (headerSize + g.get .size n)) % wordSize)
    let g := g.put .next b (g.get .next n)
    g.put .prev (g.get .next n) b
  else g

def mergePrev (g : ByteGroup) (b : ℕ) : ℕ × ByteGroup :=
  if g.get .prev b ≠ 0 ∧ g.isFree (g.get .prev b) then
    let g := removeFromFreeList g (g.get .prev b)
    let pblock := g.get .prev b
    let g := g.put .size pblock ((g.get .size pblock + (headerSize + g.get .size b)) % wordSize)
    let g := g.put .next pblock (g.get .next b)
    let g := g.put .prev (g.get .next b) pblock
    (pblock, g)
  else (b, g)

def free (g : ByteGroup) (ptr : ℕ) : ℕ × ByteGroup :=
  if ptr = 0 then (0, g)
  else if ptr < g.memoryStart + headerSize ∨ g.memoryStart + g.totalSize ≤ ptr then (0, g)
  else
    let b := ptr - headerSize
    if g.isFree b = true ∨ g.get .userSize b = 0 then (0, g)
    else
      let freedSize := g.get .userSize b
      let g := g.put .userSize b 0
      let g := mergeNext g b
      let (b, g) := mergePrev g b
      let g := insertIntoFreeList g b
      (freedSize, { g with
        currentBlocks := (g.currentBlocks + (wordSize - 1)) % wordSize
        totalFreed := (g.totalFreed + freedSize) % wordSize })

end ByteGroup

/-! ### Loading and storing a field -/

namespace Group

/-- A field of the header at `b`. -/
def get (g : Group) : Field → ℕ → ℕ
  | .size => g.size
  | .userSize => g.userSize
  | .next => g.next
  | .prev => g.prev
  | .freeNext => g.freeNext
  | .freePrev => g.freePrev

def put (g : Group) (f : Field) (b v : ℕ) : Group :=
  match f with
  | .size => { g with size := update g.size b v }
  | .userSize => { g with userSize := update g.userSize b v }
  | .next => { g with next := update g.next b v }
  | .prev => { g with prev := update g.prev b v }
  | .freeNext => { g with freeNext := update g.freeNext b v }
  | .freePrev => { g with freePrev := update g.freePrev b v }

theorem put_get (g : Group) (f f' : Field) (b v : ℕ) :
    (g.put f b v).get f' = if f' = f then update (g.get f) b v else g.get f' := by
  cases f <;> cases f' <;> rfl

end Group

/-- No two headers at places of `S` meet, and all of them have an address. -/
structure Apart (S : Set ℕ) : Prop where
  apart : ∀ a ∈ S, ∀ b ∈ S, a ≠ b → a + headerSize ≤ b ∨ b + headerSize ≤ a
  small : ∀ a ∈ S, a < wordSize

/-- The headers at the places of `S` say the same in the bytes and in the arrays, and
outside of them the memory is `m₀`. -/
structure Sim (S : Set ℕ) (m₀ : Bytes) (c : ByteGroup) (g : Group) : Prop where
  field : ∀ b ∈ S, ∀ f, c.get f b = g.get f b
  isFree : ∀ b ∈ S, c.isFree b = g.isFree b
  freeList : c.freeList = g.freeList
  memoryStart : c.memoryStart = g.memoryStart
  totalSize : c.totalSize = g.totalSize
  currentBlocks : c.currentBlocks = g.currentBlocks
  totalAllocated : c.totalAllocated = g.totalAllocated
  totalFreed : c.totalFreed = g.totalFreed
  frame : ∀ i, (∀ b ∈ S, i ∉ header b) → c.mem i = m₀ i

variable {S S' : Set ℕ} {m₀ m₁ : Bytes} {c c' : ByteGroup} {g g' : Group} {b v n lo cur req nb ptr size : ℕ} {f : Field}
  {L F live : List ℕ}

theorem offset_le (f : Field) : f.offset + 8 ≤ headerSize := by cases f <;> decide

/-- Two fields of a header do not meet. -/
theorem offset_apart {f f' : Field} (h : f' ≠ f) : f'.offset + 8 ≤ f.offset ∨ f.offset + 8 ≤ f'.offset := by
  cases f <;> cases f' <;> first | exact absurd rfl h | decide

theorem offset_isFree (f : Field) : f.offset + 8 ≤ isFreeOffset ∨ isFreeOffset < f.offset := by cases f <;> decide

theorem isFreeOffset_lt : isFreeOffset < headerSize := by decide

theorem Sim.put (h : Sim S m₀ c g) (hS : Apart S) (f : Field) (hb : b ∈ S) (hv : v < wordSize) :
    Sim S m₀ (c.put f b v) (g.put f b v) := by
  have hf := offset_le f
  have hstatic : (g.put f b v).freeList = g.freeList ∧ (g.put f b v).memoryStart = g.memoryStart ∧
      (g.put f b v).totalSize = g.totalSize ∧ (g.put f b v).currentBlocks = g.currentBlocks ∧
      (g.put f b v).totalAllocated = g.totalAllocated ∧ (g.put f b v).totalFreed = g.totalFreed ∧
      (g.put f b v).isFree = g.isFree := by
    cases f <;> exact ⟨rfl, rfl, rfl, rfl, rfl, rfl, rfl⟩
  obtain ⟨hl, hm, ht, hc, ha, hr, hi⟩ := hstatic
  refine ⟨fun a haS f' => ?_, fun a haS => ?_, h.freeList.trans hl.symm, h.memoryStart.trans hm.symm,
    h.totalSize.trans ht.symm, h.currentBlocks.trans hc.symm, h.totalAllocated.trans ha.symm,
    h.totalFreed.trans hr.symm, fun i hi => ?_⟩
  · have hf' := offset_le f'
    rw [Group.put_get]
    show ((c.mem.setWord (b + f.offset) (.ofNat v)).wordAt (a + f'.offset)).toNat = _
    by_cases hab : a = b
    · subst hab
      by_cases hff : f' = f
      · subst hff
        rw [if_pos rfl, Function.update_self, Bytes.wordAt_setWord, UInt64.toNat_ofNat']
        exact Nat.mod_eq_of_lt hv
      · have hout := offset_apart hff
        rw [if_neg hff, Bytes.wordAt_setWord_of_disjoint (by omega)]
        exact h.field a haS f'
    · have hout := hS.apart a haS b hb hab
      rw [Bytes.wordAt_setWord_of_disjoint (by omega)]
      have hsame : (if f' = f then update (g.get f) b v else g.get f') a = g.get f' a := by
        split
        · rename_i he
          rw [he, Function.update_of_ne hab]
        · rfl
      rw [hsame]
      exact h.field a haS f'
  · have hoff := offset_isFree f
    have hfree := isFreeOffset_lt
    rw [hi, ← h.isFree a haS]
    show ((c.mem.setWord (b + f.offset) (.ofNat v)) (a + isFreeOffset) != 0) = _
    rw [Bytes.setWord_out]
    · rfl
    · by_cases hab : a = b
      · omega
      · have hout := hS.apart a haS b hb hab
        omega
  · have hout := hi b hb
    rw [header, Set.mem_Ico, not_and_or] at hout
    show (c.mem.setWord (b + f.offset) (.ofNat v)) i = _
    rw [Bytes.setWord_out (by omega)]
    exact h.frame i hi

theorem Sim.putIsFree (h : Sim S m₀ c g) (hS : Apart S) (hb : b ∈ S) (v : Bool) :
    Sim S m₀ (c.putIsFree b v) { g with isFree := update g.isFree b v } := by
  have hfree := isFreeOffset_lt
  refine ⟨fun a haS f => ?_, fun a haS => ?_, h.freeList, h.memoryStart, h.totalSize, h.currentBlocks,
    h.totalAllocated, h.totalFreed, fun i hi => ?_⟩
  · have hf := offset_le f
    have hoff := offset_isFree f
    have hword : (c.putIsFree b v).get f a = c.get f a := by
      have hsame (i : ℕ) (hi : a + f.offset ≤ i) (hi' : i < a + f.offset + 8) :
          update c.mem (b + isFreeOffset) (if v then 1 else 0) i = c.mem i := by
        refine Function.update_of_ne ?_ ..
        by_cases hab : a = b
        · omega
        · have hout := hS.apart a haS b hb hab
          omega
      exact congrArg UInt64.toNat (Bytes.wordAt_congr hsame)
    rw [hword]
    exact h.field a haS f
  · have hmark : (c.putIsFree b v).isFree a = update c.isFree b v a := by
      unfold ByteGroup.isFree ByteGroup.putIsFree
      dsimp only
      by_cases hab : a = b
      · rw [hab, Function.update_self, Function.update_self]
        cases v <;> decide
      · rw [Function.update_of_ne (by omega), Function.update_of_ne hab]
    rw [hmark]
    dsimp only
    by_cases hab : a = b
    · rw [hab, Function.update_self, Function.update_self]
    · rw [Function.update_of_ne hab, Function.update_of_ne hab]
      exact h.isFree a haS
  · have hout := hi b hb
    rw [header, Set.mem_Ico, not_and_or] at hout
    show update c.mem (b + isFreeOffset) _ i = _
    rw [Function.update_of_ne (by omega)]
    exact h.frame i hi

/-- A store of the same value to the same place. -/
theorem Sim.store (h : Sim S m₀ c g) (hS : Apart S) (f : Field) (hb : b ∈ S) (hv : v < wordSize) {b' v' : ℕ}
    (hb' : b' = b) (hv' : v' = v) : Sim S m₀ (c.put f b' v') (g.put f b v) := by
  subst hb' hv'
  exact h.put hS f hb hv

theorem Sim.setFreeList (h : Sim S m₀ c g) {l l' : ℕ} (hl : l' = l) :
    Sim S m₀ { c with freeList := l' } { g with freeList := l } :=
  ⟨h.field, h.isFree, hl, h.memoryStart, h.totalSize, h.currentBlocks, h.totalAllocated, h.totalFreed, h.frame⟩

theorem wordSize_pos : 0 < wordSize := by decide

theorem alignUp_lt (x : ℕ) : alignUp x < wordSize := by
  have hmod : (x + 7) % wordSize < wordSize := Nat.mod_lt _ wordSize_pos
  unfold alignUp
  omega

/-! ### The operations -/

theorem Sim.insertFree (h : Sim S m₀ c g) (hS : Apart S) (hb : b ∈ S)
    (hl : g.freeList ≠ 0 → g.freeList ∈ S ∧ g.freePrev g.freeList ∈ S ∧ g.freeList ≠ b) :
    Sim S m₀ (c.insertIntoFreeList b) (insertIntoFreeList g b) := by
  have h0 := wordSize_pos
  have hlt := hS.small b hb
  have h₁ := (((h.put hS .freePrev hb h0).put hS .freeNext hb h0).putIsFree hS hb true).put hS .userSize hb h0
  unfold ByteGroup.insertIntoFreeList insertIntoFreeList
  by_cases hz : g.freeList = 0
  · rw [if_pos (h₁.freeList.trans hz), if_pos hz]
    exact ((h₁.put hS .freePrev hb hlt).put hS .freeNext hb hlt).setFreeList rfl
  · obtain ⟨hhead, htail, hne⟩ := hl hz
    rw [if_neg fun he => hz (h₁.freeList.symm.trans he), if_neg hz]
    set tail := update g.freePrev b 0 g.freeList with ht
    have htail' : tail ∈ S := by
      rw [ht, Function.update_of_ne hne]
      exact htail
    have hread : ((((c.put .freePrev b 0).put .freeNext b 0).putIsFree b true).put .userSize b 0).get .freePrev
        ((((c.put .freePrev b 0).put .freeNext b 0).putIsFree b true).put .userSize b 0).freeList = tail := by
      rw [h₁.freeList]
      exact h₁.field _ hhead .freePrev
    have h₂ := h₁.store hS .freeNext hb (hS.small _ hhead) rfl h₁.freeList
    have h₃ := h₂.store hS .freePrev hb (hS.small _ htail') rfl hread
    have h₄ := h₃.store hS .freeNext htail' hlt hread rfl
    exact (h₄.store hS .freePrev hhead hlt h₄.freeList rfl).setFreeList rfl

theorem Sim.remove (h : Sim S m₀ c g) (hS : Apart S) (hb : b ∈ S)
    (hl : b ≠ 0 → g.isFree b = true → g.freeNext b ∈ S ∧ g.freePrev b ∈ S) :
    Sim S m₀ (c.removeFromFreeList b) (removeFromFreeList g b) := by
  have h0 := wordSize_pos
  unfold ByteGroup.removeFromFreeList removeFromFreeList
  by_cases hskip : b = 0 ∨ g.isFree b = false
  · rw [if_pos (by rwa [h.isFree b hb]), if_pos hskip]
    exact h
  · obtain ⟨hn, hp⟩ := hl (fun he => hskip (Or.inl he)) (by simpa using fun he => hskip (Or.inr he))
    rw [if_neg (by rwa [h.isFree b hb]), if_neg hskip]
    have hnext : c.get .freeNext b = g.freeNext b := h.field b hb .freeNext
    have hprev : c.get .freePrev b = g.freePrev b := h.field b hb .freePrev
    have hend {c₁ : ByteGroup} {g₁ : Group} (h₁ : Sim S m₀ c₁ g₁) :
        Sim S m₀ (((c₁.put .freePrev b 0).put .freeNext b 0).putIsFree b false)
          { (g₁.put .freePrev b 0).put .freeNext b 0 with isFree := update g₁.isFree b false } :=
      ((h₁.put hS .freePrev hb h0).put hS .freeNext hb h0).putIsFree hS hb false
    by_cases hone : g.freeNext b = b
    · simp only [hnext, if_pos hone]
      exact hend (h.setFreeList rfl)
    · -- the two fields are loaded again after the first store
      set next := update g.freeNext (g.freePrev b) (g.freeNext b) b with hnx
      have hnb : next = g.freeNext b := by
        rw [hnx]
        by_cases he : b = g.freePrev b
        · rw [← he, Function.update_self]
        · rw [Function.update_of_ne he]
      have h₁ := h.store hS .freeNext hp (hS.small _ hn) hprev hnext
      have hnext₁ := h₁.field b hb .freeNext
      have hprev₁ := h₁.field b hb .freePrev
      have h₂ := h₁.store hS .freePrev (b := next) (hnb ▸ hn) (hS.small _ hp) hnext₁ hprev₁
      simp only [if_neg (show ¬c.get .freeNext b = b by rwa [hnext]), if_neg hone]
      by_cases hhead : g.freeList = b
      · simp only [if_pos (h₂.freeList.trans hhead), if_pos hhead]
        exact hend (h₂.setFreeList (h₂.field b hb .freeNext))
      · simp only [if_neg fun he => hhead (h₂.freeList.symm.trans he), if_neg hhead]
        exact hend h₂

theorem Sim.init (h : Sim S m₀ c g) (hS : Apart S) {start : ℕ} (hb : start ∈ S) (size : ℕ) :
    Sim S m₀ (c.init start size) (groupInit g start size) := by
  have h0 := wordSize_pos
  have hlt := hS.small start hb
  have halign : alignUp ((size + wordSize - headerSize) % wordSize) < wordSize := alignUp_lt _
  have h₁ : Sim S m₀
      { c with
        memoryStart := start
        totalSize := size
        currentBlocks := 0
        totalAllocated := 0
        totalFreed := 0 }
      { g with
        memoryStart := start
        totalSize := size
        currentBlocks := 0
        totalAllocated := 0
        totalFreed := 0 } := ⟨h.field, h.isFree, h.freeList, rfl, rfl, rfl, rfl, rfl, h.frame⟩
  have h₂ := ((h₁.put hS .size hb halign).put hS .userSize hb h0).putIsFree hS hb true
  have h₃ := ((h₂.put hS .next hb hlt).put hS .prev hb hlt).setFreeList (l := 0) rfl
  exact h₃.insertFree hS hb fun hne => absurd rfl hne

/-- The loop of `group_malloc` stops at the same block. -/
theorem Sim.search (h : Sim S m₀ c g) (hF : ∀ b ∈ F, b ∈ S ∧ g.freeNext b ∈ F) (hcur : cur ∈ F) (fuel : ℕ) :
    c.search req fuel cur = groupSearch g req fuel cur := by
  induction fuel generalizing cur with
  | zero => rfl
  | succ fuel ih =>
    obtain ⟨hS, hnext⟩ := hF cur hcur
    have hload : c.get .freeNext cur = g.freeNext cur := h.field cur hS .freeNext
    have hsize : c.get .size cur = g.size cur := h.field cur hS .size
    rw [ByteGroup.search, groupSearch, hsize, hload, h.freeList]
    dsimp only
    rw [ih hnext]

/-- Splitting, when the new header is one of the headers. -/
theorem Sim.splitAt (h : Sim S m₀ c g) (hS : Apart S) (hcur : cur ∈ S) (hnb : cur + headerSize + req ∈ S)
    (hnext : g.next cur ∈ S) (hreq : req < wordSize)
    (hl : g.freeList ≠ 0 → g.freeList ∈ S ∧ g.freePrev g.freeList ∈ S ∧ g.freeList ≠ cur + headerSize + req) :
    Sim S m₀ (c.split cur req) (groupSplit g cur req) := by
  have h0 := wordSize_pos
  have hsize : c.get .size cur = g.size cur := h.field cur hcur .size
  have hltc := hS.small cur hcur
  unfold ByteGroup.split groupSplit
  dsimp only
  rw [hsize]
  by_cases hrem : headerSize + minBlockSize < g.size cur - req
  · rw [if_pos hrem, if_pos hrem]
    set nb := cur + headerSize + req with hnbe
    have hltn := hS.small nb hnb
    have hne : cur ≠ nb := by
      rw [hnbe, headerSize]
      omega
    have hsame : update g.next nb (g.next cur) cur = g.next cur := Function.update_of_ne hne ..
    have h₁ := ((h.put hS .size hnb (alignUp_lt (g.size cur - req - headerSize))).put hS .userSize hnb h0).putIsFree
      hS hnb true
    have h₂ := h₁.store hS .next hnb (hS.small _ hnext) rfl (h₁.field cur hcur .next)
    have h₃ := h₂.put hS .prev hnb hltc
    have h₄ := h₃.store hS .prev (b := update g.next nb (g.next cur) cur) (by rwa [hsame]) hltn
      (h₃.field cur hcur .next) rfl
    have h₅ := h₄.put hS .next hcur hltn
    exact (h₅.insertFree hS hnb hl).put hS .size hcur hreq
  · rw [if_neg hrem, if_neg hrem]
    exact h

theorem Sim.mergeNext (h : Sim S m₀ c g) (hS : Apart S) (hb : b ∈ S) (hclosed : ∀ a ∈ S, g.next a ∈ S)
    (hl : g.isFree (g.next b) = true → g.freeNext (g.next b) ∈ S ∧ g.freePrev (g.next b) ∈ S) :
    Sim S m₀ (c.mergeNext b) (mergeNext g b) := by
  have hn := hclosed b hb
  have hload : c.get .next b = g.next b := h.field b hb .next
  unfold ByteGroup.mergeNext Memory.mergeNext
  rw [hload, h.isFree _ hn]
  by_cases hfree : g.next b ≠ 0 ∧ g.isFree (g.next b) = true
  · rw [if_pos hfree, if_pos hfree]
    have h₁ := h.remove hS hn fun _ => hl
    set g₁ := removeFromFreeList g (g.next b) with hg₁
    have hnext₁ : g₁.next = g.next := removeFromFreeList_next ..
    have hb₁ : g₁.next b ∈ S := hnext₁ ▸ hn
    have hn₁ := h₁.field b hb .next
    have hbn : update g₁.next b (g₁.next (g₁.next b)) (g₁.next b) = g₁.next (g₁.next b) := by
      by_cases he : g₁.next b = b
      · rw [he, Function.update_self, he]
      · rw [Function.update_of_ne he]
    have hnn : g₁.next (g₁.next b) ∈ S := by
      rw [hnext₁]
      exact hclosed _ hn
    set c₁ := c.removeFromFreeList (g.next b) with hc₁
    have hsb : c₁.get .size b = g₁.size b := h₁.field b hb .size
    have hsn : c₁.get .size (c₁.get .next b) = g₁.size (g₁.next b) := by
      rw [hn₁]
      exact h₁.field _ hb₁ .size
    have hsize : (c₁.get .size b + (headerSize + c₁.get .size (c₁.get .next b))) % wordSize =
        (g₁.size b + (headerSize + g₁.size (g₁.next b))) % wordSize := by rw [hsb, hsn]
    have h₂ := h₁.store hS .size hb (Nat.mod_lt _ wordSize_pos) rfl hsize
    set c₂ := c₁.put .size b _
    have hload₂ : c₂.get .next (c₁.get .next b) = g₁.next (g₁.next b) := by
      rw [hn₁]
      exact h₂.field _ hb₁ .next
    have h₃ := h₂.store hS .next hb (hS.small _ hnn) rfl hload₂
    set c₃ := c₂.put .next b _
    have hload₃ : c₃.get .next (c₁.get .next b) = update g₁.next b (g₁.next (g₁.next b)) (g₁.next b) := by
      rw [hn₁]
      exact h₃.field _ hb₁ .next
    have hplace : update g₁.next b (g₁.next (g₁.next b)) (g₁.next b) ∈ S := by
      rw [hbn]
      exact hnn
    exact h₃.store hS .prev hplace (hS.small b hb) hload₃ rfl
  · rw [if_neg hfree, if_neg hfree]
    exact h

theorem Sim.mergePrev (h : Sim S m₀ c g) (hS : Apart S) (hb : b ∈ S) (hn : g.next b ∈ S) (hp : g.prev b ∈ S)
    (hl : g.isFree (g.prev b) = true → g.freeNext (g.prev b) ∈ S ∧ g.freePrev (g.prev b) ∈ S) :
    (c.mergePrev b).1 = (mergePrev g b).1 ∧ Sim S m₀ (c.mergePrev b).2 (mergePrev g b).2 := by
  have hload : c.get .prev b = g.prev b := h.field b hb .prev
  unfold ByteGroup.mergePrev Memory.mergePrev
  rw [hload, h.isFree _ hp]
  by_cases hfree : g.prev b ≠ 0 ∧ g.isFree (g.prev b) = true
  · rw [if_pos hfree, if_pos hfree]
    have h₁ := h.remove hS hp fun _ => hl
    set g₁ := removeFromFreeList g (g.prev b) with hg₁
    have hnext₁ : g₁.next = g.next := removeFromFreeList_next ..
    have hprev₁ : g₁.prev = g.prev := removeFromFreeList_prev ..
    have hp₁ : g₁.prev b ∈ S := hprev₁ ▸ hp
    have hpb := h₁.field b hb .prev
    have hn₁ : g₁.next b ∈ S := hnext₁ ▸ hn
    have hbn : update g₁.next (g₁.prev b) (g₁.next b) b = g₁.next b := by
      by_cases he : b = g₁.prev b
      · rw [← he, Function.update_self]
      · rw [Function.update_of_ne he]
    set c₁ := c.removeFromFreeList (g.prev b) with hc₁
    have hsb : c₁.get .size b = g₁.size b := h₁.field b hb .size
    have hsp : c₁.get .size (c₁.get .prev b) = g₁.size (g₁.prev b) := by
      rw [hpb]
      exact h₁.field _ hp₁ .size
    have hsize : (c₁.get .size (c₁.get .prev b) + (headerSize + c₁.get .size b)) % wordSize =
        (g₁.size (g₁.prev b) + (headerSize + g₁.size b)) % wordSize := by rw [hsb, hsp]
    have h₂ := h₁.store hS .size hp₁ (Nat.mod_lt _ wordSize_pos) hpb hsize
    have h₃ := h₂.store hS .next hp₁ (hS.small _ hn₁) hpb (h₂.field b hb .next)
    refine ⟨hpb, h₃.store hS .prev ?_ (hS.small _ hp₁) (h₃.field b hb .next) hpb⟩
    show update g₁.next (g₁.prev b) (g₁.next b) b ∈ S
    rw [hbn]
    exact hn₁
  · rw [if_neg hfree, if_neg hfree]
    exact ⟨rfl, h⟩

/-! ### The header of a new block -/

/-- The arrays with the header at `b` as the bytes have it. -/
def Group.withHeader (g : Group) (c : ByteGroup) (b : ℕ) : Group :=
  { g with
    size := update g.size b (c.get .size b)
    userSize := update g.userSize b (c.get .userSize b)
    isFree := update g.isFree b (c.isFree b)
    next := update g.next b (c.get .next b)
    prev := update g.prev b (c.get .prev b)
    freeNext := update g.freeNext b (c.get .freeNext b)
    freePrev := update g.freePrev b (c.get .freePrev b) }

theorem Sim.withHeader (h : Sim S m₀ c g) (b : ℕ) : Sim (insert b S) m₀ c (g.withHeader c b) where
  field a ha f := by
    have hget : (g.withHeader c b).get f a = update (g.get f) b (c.get f b) a := by cases f <;> rfl
    rw [hget]
    rcases eq_or_ne a b with rfl | hab
    · rw [Function.update_self]
    · rw [Function.update_of_ne hab]
      exact h.field a (ha.resolve_left hab) f
  isFree a ha := by
    show _ = update g.isFree b (c.isFree b) a
    rcases eq_or_ne a b with rfl | hab
    · rw [Function.update_self]
    · rw [Function.update_of_ne hab]
      exact h.isFree a (ha.resolve_left hab)
  freeList := h.freeList
  memoryStart := h.memoryStart
  totalSize := h.totalSize
  currentBlocks := h.currentBlocks
  totalAllocated := h.totalAllocated
  totalFreed := h.totalFreed
  frame i hi := h.frame i fun a ha => hi a (Or.inr ha)

/-- A split stores every field of the new header before it loads one. -/
theorem groupSplit_withHeader (hrem : headerSize + minBlockSize < g.size cur - req) :
    groupSplit (g.withHeader c (cur + headerSize + req)) cur req = groupSplit g cur req := by
  set nb := cur + headerSize + req with hnb
  have hne : cur ≠ nb := by
    rw [hnb, headerSize]
    omega
  unfold groupSplit insertIntoFreeList Group.withHeader
  simp only [Function.update_of_ne hne, Function.update_idem, if_pos hrem, ← hnb]

/-- Whatever `group_malloc` does to a block that fits. -/
theorem Sim.split (h : Sim S m₀ c g) (hS : Apart (insert (cur + headerSize + req) S)) (hcur : cur ∈ S)
    (hnot : cur + headerSize + req ∉ S) (hnext : g.next cur ∈ S) (hreq : req < wordSize)
    (hrem : headerSize + minBlockSize < g.size cur - req)
    (hl : g.freeList ≠ 0 → g.freeList ∈ S ∧ g.freePrev g.freeList ∈ S) :
    Sim (insert (cur + headerSize + req) S) m₀ (c.split cur req) (groupSplit g cur req) := by
  set nb := cur + headerSize + req with hnb
  have hne : cur ≠ nb := fun he => hnot (he ▸ hcur)
  have h₁ : Sim (insert nb S) m₀ c (g.withHeader c nb) := h.withHeader nb
  rw [← groupSplit_withHeader (c := c) hrem]
  refine h₁.splitAt hS (Or.inr hcur) (Or.inl rfl) ?_ hreq fun h0 => ?_
  · show update g.next nb _ cur ∈ _
    rw [Function.update_of_ne hne]
    exact Or.inr hnext
  · obtain ⟨hhead, htail⟩ := hl h0
    have hnh : g.freeList ≠ nb := fun he => hnot (he ▸ hhead)
    refine ⟨Or.inr hhead, ?_, hnh⟩
    show update g.freePrev nb _ g.freeList ∈ _
    rw [Function.update_of_ne hnh]
    exact Or.inr htail

end BareKernel.Memory
