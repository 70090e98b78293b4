import BareKernel.Drivers.NaiveConsole
import BareKernel.Kernel.Lib

/-! The boot image. The packer appends the modules to the kernel binary, each behind
its length; the kernel copies them from its own end to their addresses and only then
clears its uninitialized data, which lies over the packed modules. In between it prints
on the text console. What is loaded is what was packed. -/

namespace BareKernel.Boot

open Links Lib Console NaiveConsole

/-! ### The packer -/

def bufferSize : ℕ := 128

/-- `write_file`: buffer by buffer, until a short read has met the end of the file. -/
def writeFile (target source : List UInt8) : List UInt8 :=
  if source.length < bufferSize then target ++ source.take bufferSize
  else writeFile (target ++ source.take bufferSize) (source.drop bufferSize)
termination_by source.length
decreasing_by
  rw [List.length_drop]
  have : bufferSize = 128 := rfl
  omega

/-- `write_size`: the size as a `uint32_t`. -/
def writeSize (target source : List UInt8) : List UInt8 := target ++ Bytes.digits 4 (source.length % 2 ^ 32)

/-- `buildImage`: the kernel, the number of modules, the modules. -/
def buildImage (kernel : List UInt8) (modules : List (List UInt8)) : List UInt8 :=
  modules.foldl (fun target source => writeFile (writeSize target source) source)
    (writeFile [] kernel ++ Bytes.digits 4 modules.length)

/-! ### The loader -/

def readUint32 (m : Bytes) (address : ℕ) : ℕ × ℕ := (Bytes.value (m.read address 4), address + 4)

/-- What `loadModule` prints before the copy. -/
def willCopy (start targetModuleAddress moduleSize : ℕ) : List PrintCall :=
  [.print (text "  Will copy module at 0x"), .hex start, .print (text " to 0x"), .hex targetModuleAddress,
    .print (text " ("), .dec moduleSize, .print (text " bytes)")]

/-- Copy the module and step behind it. -/
def loadModule (l : NaiveConsole) (m : Bytes) (currentModule targetModuleAddress : ℕ) : Option (Bytes × ℕ) := do
  let (moduleSize, start) := readUint32 m currentModule
  let m ← l.calls m (willCopy start targetModuleAddress moduleSize)
  let m := memcpy m targetModuleAddress start moduleSize
  let m ← l.calls m [.print (text " [Done]"), .newline]
  some (m, start + moduleSize)

/-- The loop of `loadModules`; past the end of the addresses it has no meaning. -/
def loadEach (l : NaiveConsole) : ℕ → Bytes → ℕ → List ℕ → Option Bytes
  | 0, m, _, _ => some m
  | _ + 1, _, _, [] => none
  | moduleCount + 1, m, currentModule, target :: targets => do
    let (m, currentModule) ← loadModule l m currentModule target
    loadEach l moduleCount m currentModule targets

def loadModules (l : NaiveConsole) (m : Bytes) (payloadStart : ℕ) (targetModuleAddress : List ℕ) : Option Bytes :=
  let (moduleCount, currentModule) := readUint32 m payloadStart
  loadEach l moduleCount m currentModule targetModuleAddress

/-! ### The kernel binary -/

/-- The symbols of the linker script, and the variables of the console. -/
structure Layout extends NaiveConsole where
  text : ℕ
  rodata : ℕ
  data : ℕ
  endOfKernelBinary : ℕ
  bss : ℕ
  endOfKernel : ℕ

def pageSize : ℕ := 0x1000

def sampleCodeModuleAddress : ℕ := 0x400000

def sampleDataModuleAddress : ℕ := 0x500000

def moduleAddresses : List ℕ := [sampleCodeModuleAddress, sampleDataModuleAddress]

def clearBSS (m : Bytes) (bssAddress bssSize : ℕ) : Bytes := memset m bssAddress 0 bssSize

def getStackBase (l : Layout) : ℕ := l.endOfKernel + pageSize * 8 - 8

/-- What is printed before the modules are loaded. -/
def greeting (vendor : List UInt8) : List PrintCall :=
  [.print (text "[x64BareBones]"), .newline, .print (text "CPU Vendor:"), .print vendor, .newline,
    .print (text "[Loading modules]"), .newline]

/-- What is printed behind the modules. -/
def initializing : List PrintCall :=
  [.print (text "[Done]"), .newline, .newline, .print (text "[Initializing kernel's binary]"), .newline]

/-- What is printed when the uninitialized data has been cleared. -/
def sections (l : Layout) : List PrintCall :=
  [.print (text "  text: 0x"), .hex l.text, .newline, .print (text "  rodata: 0x"), .hex l.rodata, .newline,
    .print (text "  data: 0x"), .hex l.data, .newline, .print (text "  bss: 0x"), .hex l.bss, .newline,
    .print (text "[Done]"), .newline, .newline]

/-- `vendor` is the string that `cpuVendor` leaves on the stack; its mark is the fourteenth byte. -/
def initializeKernelBinary (l : Layout) (vendor : List UInt8) (m : Bytes) : Option (Bytes × ℕ) := do
  let m ← l.calls m (greeting vendor)
  let m ← loadModules l.toNaiveConsole m l.endOfKernelBinary moduleAddresses
  let m ← l.calls m initializing
  let m := clearBSS m l.bss (l.endOfKernel - l.bss)
  let m ← l.calls m (sections l)
  some (m, getStackBase l)

/-! ### What has been packed is loaded -/

variable {c : NaiveConsole} {m : Bytes} {start i n : ℕ} {kernel code target vendor : List UInt8}
  {modules : List (List UInt8)} {targets : List ℕ}

theorem writeFile_eq (target source : List UInt8) : writeFile target source = target ++ source := by
  fun_induction writeFile target source with
  | case1 target source hshort => rw [List.take_of_length_le (by omega)]
  | case2 target source _ ih => rw [ih, List.append_assoc, List.take_append_drop]

/-- A module in the image. -/
def packed (code : List UInt8) : List UInt8 := Bytes.digits 4 (code.length % 2 ^ 32) ++ code

/-- What lies behind the kernel binary. -/
def payload (modules : List (List UInt8)) : List UInt8 :=
  Bytes.digits 4 modules.length ++ modules.flatMap packed

theorem buildImage_eq (kernel : List UInt8) (modules : List (List UInt8)) :
    buildImage kernel modules = kernel ++ payload modules := by
  have hfold (target : List UInt8) (modules : List (List UInt8)) :
      modules.foldl (fun target source => writeFile (writeSize target source) source) target =
        target ++ modules.flatMap packed := by
    induction modules generalizing target with
    | nil => simp
    | cons code modules ih => rw [List.foldl_cons, ih, writeFile_eq, writeSize]; simp [packed]
  rw [buildImage, hfold, writeFile_eq, payload]
  simp

/-- The bytes `xs` lie in the memory from `a` on. -/
def Holds (m : Bytes) (a : ℕ) (xs : List UInt8) : Prop := m.read a xs.length = xs

theorem holds_append {a : ℕ} {xs ys : List UInt8} :
    Holds m a (xs ++ ys) ↔ Holds m a xs ∧ Holds m (a + xs.length) ys := by
  unfold Holds
  rw [List.length_append, Bytes.read_append]
  exact ⟨fun h => List.append_inj h (Bytes.read_length ..), fun ⟨hx, hy⟩ => by rw [hx, hy]⟩

theorem readUint32_of_holds {v : ℕ} (hv : v < 2 ^ 32) (h : Holds m start (Bytes.digits 4 v)) :
    readUint32 m start = (v, start + 4) := by
  have hread : m.read start 4 = Bytes.digits 4 v := by simpa [Holds] using h
  rw [readUint32, hread, Bytes.value_digits, Nat.mod_eq_of_lt (by omega)]

theorem Holds.same {m' : Bytes} {a : ℕ} {xs : List UInt8} (h : Holds m a xs) (hs : c.Same m m')
    (ha : ∀ i, c.Owns i → i < a) : Holds m' a xs := (hs.read ha xs.length).trans h

/-- At most so many characters are printed for a module. -/
def loadPrints : ℕ := 168

theorem willCopy_length (start t size : ℕ) : ((willCopy start t size).map PrintCall.length).sum = 81 := rfl

theorem willCopy_fits {t size : ℕ} (hstart : start < 2 ^ 64) (ht : t < 2 ^ 64) (hsize : size < 2 ^ 32) :
    ∀ call ∈ willCopy start t size, call.Fits := by
  simpa [willCopy, PrintCall.Fits] using ⟨hstart, ht, hsize⟩

/-- A packed module is copied to its address. -/
theorem loadModule_loads (hc : c.Apart) {t : ℕ} (hsize : code.length < 2 ^ 32) (h : Holds m start (packed code))
    (hend : start + (packed code).length ≤ t) (ht : t < 2 ^ 64) (hbehind : ∀ i, c.Owns i → i < start)
    (hat : c.At m n) (hn : n + loadPrints < screenSize) :
    ∃ m' n', loadModule c m start t = some (m', start + (packed code).length) ∧ n' ≤ n + loadPrints ∧ c.At m' n' ∧
      c.Same (m.place t code) m' := by
  have hlen : (packed code).length = 4 + code.length := by simp [packed]
  have hprints : loadPrints = 168 := rfl
  rw [packed, Nat.mod_eq_of_lt hsize, holds_append, Bytes.digits_length] at h
  have hbehind' (a : ℕ) (ha : start ≤ a) (i : ℕ) (hi : c.Owns i) : i < a := lt_of_lt_of_le (hbehind i hi) ha
  obtain ⟨m₁, n₁, hrun₁, hn₁, hat₁, hsame₁⟩ :=
    prints_calls hc (willCopy_fits (show start + 4 < 2 ^ 64 by omega) ht hsize) m n hat (by rw [willCopy_length]; omega)
  rw [willCopy_length] at hn₁
  have hcode : m₁.read (start + 4) code.length = code := Holds.same h.2 hsame₁ (hbehind' _ (by omega))
  have hcopy : memcpy m₁ t (start + 4) code.length = m₁.place t code := by rw [memcpy_eq (by omega), hcode]
  have hdone : ∀ call ∈ [PrintCall.print (text " [Done]"), .newline], call.Fits := by simp [PrintCall.Fits]
  have hlast : ([PrintCall.print (text " [Done]"), .newline].map PrintCall.length).sum = 87 := rfl
  obtain ⟨m', n', hrun', hn', hat', hsame'⟩ := prints_calls hc hdone (m₁.place t code) n₁
    (hat₁.place (hbehind' t (by omega)) code) (by rw [hlast]; omega)
  rw [hlast] at hn'
  refine ⟨m', n', ?_, by omega, hat', (hsame₁.place t code).trans hsame'⟩
  rw [loadModule, readUint32_of_holds hsize h.1]
  dsimp only at hrun₁ hrun' ⊢
  rw [hrun₁, Option.bind_eq_bind, Option.bind_some, hcopy, hrun', hlen, Nat.add_assoc]
  rfl

/-- Every packed module is copied to the address of its number. The modules have to lie
below all the addresses: the lengths are read between the copies. -/
theorem loadEach_loads (hc : c.Apart) (hsize : ∀ code ∈ modules, code.length < 2 ^ 32)
    (h : Holds m start (modules.flatMap packed)) (hend : ∀ t ∈ targets, start + (modules.flatMap packed).length ≤ t)
    (ht : ∀ t ∈ targets, t < 2 ^ 64) (hcount : modules.length ≤ targets.length) (hbehind : ∀ i, c.Owns i → i < start)
    (hat : c.At m n) (hn : n + loadPrints * modules.length < screenSize) :
    ∃ m' n', loadEach c modules.length m start targets = some m' ∧ n' ≤ n + loadPrints * modules.length ∧
      c.At m' n' ∧ c.Same (m.placeAll (targets.zip modules)) m' := by
  induction modules generalizing m start targets n with
  | nil => exact ⟨m, n, by cases targets <;> rfl, Nat.le_add_right .., hat, by rw [List.zip_nil_right]; exact .refl m⟩
  | cons code modules ih =>
    cases targets with
    | nil => exact absurd hcount (Nat.not_succ_le_zero _)
    | cons t targets =>
      rw [List.flatMap_cons, List.length_append] at hend
      rw [List.flatMap_cons, holds_append] at h
      rw [List.length_cons, Nat.mul_succ] at hn
      have hbelow := hend t List.mem_cons_self
      obtain ⟨m₁, n₁, hrun₁, hn₁, hat₁, hsame₁⟩ := loadModule_loads hc (hsize code List.mem_cons_self) h.1
        (by omega) (ht t List.mem_cons_self) hbehind hat (by omega)
      have hbehind' : ∀ i, c.Owns i → i < start + (packed code).length := fun i hi => by
        have := hbehind i hi
        omega
      have hrest : Holds (m.place t code) (start + (packed code).length) (modules.flatMap packed) := by
        rw [Holds, Bytes.read_place_of_disjoint (Or.inl (by omega))]
        exact h.2
      obtain ⟨m', n', hrun', hn', hat', hsame'⟩ := ih (fun code' hmem => hsize code' (List.mem_cons_of_mem _ hmem))
        (hrest.same hsame₁ hbehind') (fun u hu => by have := hend u (List.mem_cons_of_mem _ hu); omega)
        (fun u hu => ht u (List.mem_cons_of_mem _ hu)) (Nat.le_of_succ_le_succ hcount) hbehind' hat₁ (by omega)
      refine ⟨m', n', ?_, by rw [List.length_cons, Nat.mul_succ]; omega, hat', ?_⟩
      · rw [List.length_cons, loadEach, hrun₁]
        exact hrun'
      · exact (hsame₁.placeAll (targets.zip modules)).trans hsame'

theorem loadModules_loads (hc : c.Apart) (hnum : modules.length < 2 ^ 32)
    (hsize : ∀ code ∈ modules, code.length < 2 ^ 32) (h : Holds m start (payload modules))
    (hend : ∀ t ∈ targets, start + (payload modules).length ≤ t) (ht : ∀ t ∈ targets, t < 2 ^ 64)
    (hcount : modules.length ≤ targets.length) (hbehind : ∀ i, c.Owns i → i < start)
    (hat : c.At m n) (hn : n + loadPrints * modules.length < screenSize) :
    ∃ m' n', loadModules c m start targets = some m' ∧ n' ≤ n + loadPrints * modules.length ∧
      c.At m' n' ∧ c.Same (m.placeAll (targets.zip modules)) m' := by
  have hlen : (payload modules).length = 4 + (modules.flatMap packed).length := by simp [payload]
  rw [payload, holds_append, Bytes.digits_length] at h
  rw [loadModules, readUint32_of_holds hnum h.1]
  exact loadEach_loads hc hsize h.2 (fun t hmem => by have := hend t hmem; omega) ht hcount
    (fun i hi => by have := hbehind i hi; omega) hat hn

/-- The linker script puts the kernel at `text` and its uninitialized data behind the
binary, with the console in front of its end; the image ends below the first module
address, and no module reaches from its address to the next. -/
structure Fits (l : Layout) (kernel : List UInt8) (modules : List (List UInt8)) : Prop where
  console : l.toNaiveConsole.Apart
  owned : ∀ i, l.Owns i → i < l.endOfKernelBinary
  rodata : l.rodata ≤ l.endOfKernelBinary
  data : l.data ≤ l.endOfKernelBinary
  binary : l.endOfKernelBinary = l.text + kernel.length
  behind : l.endOfKernelBinary ≤ l.bss
  bss : l.bss ≤ l.endOfKernel
  below : l.endOfKernel ≤ sampleCodeModuleAddress
  image : l.text + (buildImage kernel modules).length ≤ sampleCodeModuleAddress
  count : modules.length ≤ moduleAddresses.length
  size : ∀ code ∈ modules, code.length ≤ sampleDataModuleAddress - sampleCodeModuleAddress

variable {l : Layout}

theorem Fits.payload_end (hl : Fits l kernel modules) :
    ∀ t ∈ moduleAddresses, l.endOfKernelBinary + (payload modules).length ≤ t := by
  have himage := hl.image
  rw [buildImage_eq, List.length_append] at himage
  have hbinary := hl.binary
  have hcode : sampleCodeModuleAddress = 0x400000 := rfl
  have hdata : sampleDataModuleAddress = 0x500000 := rfl
  intro t ht
  simp only [moduleAddresses, List.mem_cons, List.not_mem_nil, or_false] at ht
  omega

theorem Fits.apart (hl : Fits l kernel modules) :
    (moduleAddresses.zip modules).Pairwise fun p q => p.1 + p.2.length ≤ q.1 ∨ q.1 + q.2.length ≤ p.1 := by
  have hcode : sampleCodeModuleAddress = 0x400000 := rfl
  have hdata : sampleDataModuleAddress = 0x500000 := rfl
  match modules, hl.size with
  | [], _ => simp
  | [_], _ => simp [moduleAddresses]
  | code :: _ :: _, hsize =>
    have hslot := hsize code (List.mem_cons_self ..)
    simp only [moduleAddresses, List.zip_cons_cons, List.zip_nil_left, List.pairwise_cons, List.mem_singleton,
      forall_eq, List.not_mem_nil, false_imp_iff, implies_true, List.Pairwise.nil, and_true]
    omega

theorem greeting_length (vendor : List UInt8) (h : vendor.length ≤ 13) :
    ((greeting vendor).map PrintCall.length).sum ≤ 295 := by
  show 14 + (80 + (11 + (vendor.length + 177))) ≤ 295
  omega

theorem initializing_length : (initializing.map PrintCall.length).sum = 276 := rfl

theorem sections_length (l : Layout) : ((sections l).map PrintCall.length).sum = 591 := by
  have htext : (text "  text: 0x").length = 10 := rfl
  have hrodata : (text "  rodata: 0x").length = 12 := rfl
  have hdata : (text "  data: 0x").length = 10 := rfl
  have hbss : (text "  bss: 0x").length = 9 := rfl
  have hdone : (text "[Done]").length = 6 := rfl
  simp [sections, PrintCall.length, htext, hrodata, hdata, hbss, hdone, width]

theorem greeting_fits (vendor : List UInt8) : ∀ call ∈ greeting vendor, call.Fits := by
  simp [greeting, PrintCall.Fits]

theorem Fits.sections (hl : Fits l kernel modules) : ∀ call ∈ sections l, call.Fits := by
  have hbound : l.endOfKernel < 2 ^ 64 := lt_of_le_of_lt hl.below (by decide)
  have hrodata := hl.rodata
  have hdata := hl.data
  have hbinary := hl.binary
  have hbehind := hl.behind
  have hbss := hl.bss
  simp only [Boot.sections, List.forall_mem_cons, PrintCall.Fits, true_and]
  simp only [List.not_mem_nil, false_imp_iff, implies_true, and_true]
  omega

/-- The loader copies every module to its address and clears the uninitialized data; all the
rest that changes is the console's. -/
theorem initializeKernelBinary_same (hl : Fits l kernel modules) (hm : Holds m l.text (buildImage kernel modules))
    (hat : l.At m 0) (hvendor : vendor.length ≤ 13) :
    ∃ m' n', initializeKernelBinary l vendor m = some (m', getStackBase l) ∧ n' < screenSize ∧ l.At m' n' ∧
      l.Same ((m.placeAll (moduleAddresses.zip modules)).place l.bss (List.replicate (l.endOfKernel - l.bss) 0))
        m' := by
  have hsize : ∀ code ∈ modules, code.length < 2 ^ 32 := fun code hmem => by
    have hslot := hl.size code hmem
    have hgap : sampleDataModuleAddress - sampleCodeModuleAddress = 0x100000 := rfl
    omega
  have hcount := hl.count
  have htwo : moduleAddresses.length = 2 := rfl
  have hscreen : screenSize = 2000 := rfl
  have hprints : loadPrints * modules.length ≤ 336 := by
    have hone : loadPrints = 168 := rfl
    rw [hone]
    omega
  have hbehind : ∀ i, l.Owns i → i < l.bss := fun i hi => lt_of_lt_of_le (hl.owned i hi) hl.behind
  rw [buildImage_eq, holds_append, ← hl.binary] at hm
  have hgreeting := greeting_length vendor hvendor
  obtain ⟨m₁, n₁, hrun₁, hn₁, hat₁, hsame₁⟩ := prints_calls hl.console (greeting_fits vendor) m 0 hat (by omega)
  obtain ⟨m₂, n₂, hrun₂, hn₂, hat₂, hsame₂⟩ := loadModules_loads hl.console (by omega) hsize
    (hm.2.same hsame₁ hl.owned) hl.payload_end (by decide) hcount hl.owned hat₁ (by omega)
  have hinitializing : ∀ call ∈ initializing, call.Fits := by simp [initializing, PrintCall.Fits]
  obtain ⟨m₃, n₃, hrun₃, hn₃, hat₃, hsame₃⟩ :=
    prints_calls hl.console hinitializing m₂ n₂ hat₂ (by rw [initializing_length]; omega)
  rw [initializing_length] at hn₃
  have hclear : clearBSS m₃ l.bss (l.endOfKernel - l.bss) =
      m₃.place l.bss (List.replicate (l.endOfKernel - l.bss) 0) := by
    rw [clearBSS, memset_eq]
    rfl
  obtain ⟨m', n', hrun', hn', hat', hsame'⟩ := prints_calls hl.console hl.sections _ n₃
    (hat₃.place hbehind (List.replicate (l.endOfKernel - l.bss) 0)) (by rw [sections_length]; omega)
  rw [sections_length] at hn'
  refine ⟨m', n', ?_, by omega, hat', ?_⟩
  · rw [initializeKernelBinary]
    dsimp only at hrun₁ hrun₃ hrun'
    simp only [hrun₁, hrun₂, hrun₃, hclear, hrun', Option.bind_eq_bind, Option.bind_some]
  · exact ((((hsame₁.placeAll _).trans hsame₂).trans hsame₃).place _ _).trans hsame'

/-- What the packer wrote is what runs. From any memory that holds a packed image at the
kernel's address, with the cursor of the console at the begin of the screen, the kernel
finds each module at its own address and starts from zeroed data. Besides it has changed
the screen and the variables of the console and nothing else, and the cursor is still on
the screen. -/
theorem initializeKernelBinary_loads (hl : Fits l kernel modules) (hm : Holds m l.text (buildImage kernel modules))
    (hat : l.At m 0) (hvendor : vendor.length ≤ 13) :
    ∃ m', initializeKernelBinary l vendor m = some (m', l.endOfKernel + 0x8000 - 8) ∧
      (∀ p ∈ moduleAddresses.zip modules, Holds m' p.1 p.2) ∧
      (∀ (i : ℕ) (h : i < kernel.length), ¬l.Owns (l.text + i) → m' (l.text + i) = kernel[i]) ∧
      (∀ i, l.bss ≤ i → i < l.endOfKernel → m' i = 0) ∧
      (∀ i, ¬l.Owns i → (i < l.bss ∨ l.endOfKernel ≤ i) →
        (∀ p ∈ moduleAddresses.zip modules, i < p.1 ∨ p.1 + p.2.length ≤ i) → m' i = m i) ∧
      ∃ n < screenSize, l.At m' n := by
  have hbss := hl.bss
  have hbelow := hl.below
  have hbehind := hl.behind
  have hbinary := hl.binary
  have hlow : ∀ p ∈ moduleAddresses.zip modules, sampleCodeModuleAddress ≤ p.1 := fun p hp => by
    have hcode : sampleCodeModuleAddress = 0x400000 := rfl
    have hdata : sampleDataModuleAddress = 0x500000 := rfl
    have hmem := (List.of_mem_zip (Prod.mk.eta (p := p) ▸ hp)).1
    simp only [moduleAddresses, List.mem_cons, List.not_mem_nil, or_false] at hmem
    omega
  obtain ⟨m', n, hrun, hn, hat', hsame⟩ := initializeKernelBinary_same hl hm hat hvendor
  have hfree (i : ℕ) (hi : l.endOfKernelBinary ≤ i) : ¬l.Owns i := fun ho => by
    have := hl.owned i ho
    omega
  have hrest (i : ℕ) (hi : ¬l.Owns i) (hout : i < l.bss ∨ l.endOfKernel ≤ i)
      (hp : ∀ p ∈ moduleAddresses.zip modules, i < p.1 ∨ p.1 + p.2.length ≤ i) : m' i = m i := by
    rw [hsame i hi, Bytes.place_out (by rw [List.length_replicate]; omega), Bytes.placeAll_out hp]
  refine ⟨m', hrun, fun p hp => ?_, fun i hi hown => ?_, fun i hi hi' => ?_, hrest, n, hn, hat'⟩
  · have habove := hlow p hp
    apply Holds.same _ hsame fun i hi => by have := hl.owned i hi; omega
    rw [Holds, Bytes.read_place_of_disjoint (Or.inr (by rw [List.length_replicate]; omega)),
      Bytes.read_placeAll hl.apart hp]
  · rw [buildImage_eq, holds_append] at hm
    rw [hrest _ hown (Or.inl (by omega)) fun p hp => by have := hlow p hp; omega]
    have hbyte : (m.read l.text kernel.length)[i]? = some (m (l.text + i)) := by simp [Bytes.read, hi]
    have hkernel : m.read l.text kernel.length = kernel := hm.1
    rw [hkernel, List.getElem?_eq_getElem hi] at hbyte
    exact (Option.some.inj hbyte).symm
  · obtain ⟨k, rfl⟩ := Nat.exists_eq_add_of_le hi
    rw [hsame _ (hfree _ (by omega)), Bytes.place_in (by rw [List.length_replicate]; omega), List.getElem_replicate]

/-- A kernel with the variables of the console, a module of two bytes and one of a single byte. -/
def sampleKernel : List UInt8 := Bytes.digits 8 video ++ List.replicate 72 0

def sampleLayout : Layout :=
  ⟨⟨0x100000, 0x100008, 0x100010⟩, 0x100000, 0x100000, 0x100000, 0x100050, 0x101000, 0x102000⟩

def sample : Bytes := Bytes.place (fun _ => 5) 0x100000 (buildImage sampleKernel [[4, 5], [6]])

theorem initializeKernelBinary_loads_sample :
    ∃ m', initializeKernelBinary sampleLayout (text "GenuineIntel") sample = some (m', 0x109ff8) ∧
      Holds m' 0x400000 [4, 5] ∧ Holds m' 0x500000 [6] ∧ m' 0x101000 = 0 ∧ m' 0x200000 = 5 := by
  have hl : Fits sampleLayout sampleKernel [[4, 5], [6]] := by
    refine ⟨⟨by decide, Or.inr (by decide), Or.inr (by decide)⟩, ?_, by decide, by decide, by decide, by decide,
      by decide, by decide, by rw [buildImage_eq]; decide, by decide, by decide⟩
    have hscreen : video + 2 * screenSize = 757664 := rfl
    have hend : sampleLayout.endOfKernelBinary = 0x100050 := rfl
    have hbuffer : consoleBuffer = 64 := rfl
    rintro i (hi | hi | hi | hi)
    · omega
    · have hplace : sampleLayout.currentVideo = 0x100000 := rfl
      omega
    · have hplace : sampleLayout.maxVideo = 0x100008 := rfl
      omega
    · have hplace : sampleLayout.buffer = 0x100010 := rfl
      omega
  have hm : Holds sample 0x100000 (buildImage sampleKernel [[4, 5], [6]]) := Bytes.read_place ..
  have hat : sampleLayout.At sample 0 := by
    rw [buildImage_eq, sampleKernel, List.append_assoc, holds_append, Bytes.digits_length] at hm
    have hread : sample.read 0x100000 8 = Bytes.digits 8 video := by simpa [Holds] using hm.1
    show UInt64.ofNat (Bytes.value (sample.read 0x100000 8)) = _
    rw [hread, Bytes.value_digits]
    rfl
  have hvendor : (text "GenuineIntel").length ≤ 13 := by decide
  obtain ⟨m', hrun, hmods, -, hzero, hkept, -⟩ := initializeKernelBinary_loads hl hm hat hvendor
  refine ⟨m', hrun, hmods (0x400000, [4, 5]) (by decide), hmods (0x500000, [6]) (by decide),
    hzero _ (by decide) (by decide), ?_⟩
  rw [hkept _ (by decide) (by decide) (by decide)]
  exact Bytes.place_out (Or.inr (by rw [buildImage_eq]; decide))

end BareKernel.Boot
