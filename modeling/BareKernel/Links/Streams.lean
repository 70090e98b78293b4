import Mathlib.Data.List.Infix
import Mathlib.Tactic.TypeStar

/-! Programs that read one value after the other and write words. What a program has written
depends only on what it has read: whoever gives it its values one by one, and whenever, sees
it write a prefix of what it makes of all of them. -/

namespace BareKernel.Links

/-- What a program asks for; a read may come back with nothing. -/
inductive Ask (α σ : Type*) where
  | read (next : Option α → σ)
  | write (word : List α) (next : σ)
  | stop

instance {α σ : Type*} (a : Ask α σ) : Decidable (a = .stop) :=
  match a with
  | .read _ => isFalse nofun
  | .write _ _ => isFalse nofun
  | .stop => isTrue rfl

/-- A program, by what it asks for in each of its states. -/
abbrev Program (α σ : Type*) := σ → Ask α σ

namespace Program

variable {α σ : Type*} {P : Program α σ} {s t : σ} {next : Option α → σ} {word xs ys xs' ys' : List α} {x : α}

/-- From `s` to `t` the program reads `xs` and writes `ys`. -/
inductive Runs (P : Program α σ) : σ → List α → List α → σ → Prop where
  | refl (s : σ) : Runs P s [] [] s
  | read {s t : σ} {next : Option α → σ} {x : α} {xs ys : List α} : P s = .read next →
      Runs P (next (some x)) xs ys t → Runs P s (x :: xs) ys t
  | write {s t next : σ} {word xs ys : List α} : P s = .write word next →
      Runs P next xs ys t → Runs P s xs (word ++ ys) t

/-- The program does not go on before it has read something. -/
def Waits (P : Program α σ) (s : σ) : Prop := ∀ word next, P s ≠ .write word next

/-- Given `xs` the program writes `ys`. When it stops, it leaves the rest unread. -/
def Makes (P : Program α σ) (s : σ) (xs ys : List α) : Prop :=
  ∃ zs t, zs <+: xs ∧ P.Runs s zs ys t ∧ P.Waits t ∧ (zs = xs ∨ P t = .stop)

theorem waits_read (h : P s = .read next) : P.Waits s := fun word t hw => by
  rw [h] at hw
  cases hw

theorem waits_stop (h : P s = .stop) : P.Waits s := fun word t hw => by
  rw [h] at hw
  cases hw

theorem Runs.trans {u : σ} (h : P.Runs s xs ys t) (h' : P.Runs t xs' ys' u) : P.Runs s (xs ++ xs') (ys ++ ys') u := by
  induction h with
  | refl => exact h'
  | read hs _ ih => exact .read hs (ih h')
  | write hs _ ih =>
    rw [List.append_assoc]
    exact .write hs (ih h')

theorem Runs.read_one (h : P.Runs s xs ys t) (ht : P t = .read next) (x : α) :
    P.Runs s (xs ++ [x]) ys (next (some x)) := by
  have hone : P.Runs t [x] [] (next (some x)) := .read ht (.refl _)
  simpa using h.trans hone

theorem Runs.write_one {u : σ} (h : P.Runs s xs ys t) (ht : P t = .write word u) : P.Runs s xs (ys ++ word) u := by
  have hone : P.Runs t [] (word ++ []) u := .write ht (.refl _)
  simpa using h.trans hone

/-- What each request keeps holds along every run. -/
theorem Runs.invariant {I : List α → σ → Prop} {zs : List α} (h : P.Runs s xs ys t)
    (hread : ∀ zs s next x, I zs s → P s = .read next → I (zs ++ [x]) (next (some x)))
    (hwrite : ∀ zs s word next, I zs s → P s = .write word next → I zs next) (hs : I zs s) : I (zs ++ xs) t := by
  induction h generalizing zs with
  | refl s =>
    rw [List.append_nil]
    exact hs
  | @read s t next x xs ys hask _ ih =>
    rw [List.append_cons]
    exact ih (hread zs s next x hs hask)
  | @write s t next word xs ys hask _ ih => exact ih (hwrite zs s word next hs hask)

/-- A program that has stopped does nothing. -/
theorem Runs.of_stop (h : P.Runs s xs ys t) (hs : P s = .stop) : xs = [] ∧ ys = [] := by
  cases h with
  | refl => exact ⟨rfl, rfl⟩
  | read hread => cases hs.symm.trans hread
  | write hwrite => cases hs.symm.trans hwrite

/-- A program that waits writes nothing of its own. -/
theorem Runs.of_waits (h : P.Runs s [] ys t) (hs : P.Waits s) : ys = [] := by
  cases h with
  | refl => rfl
  | write hwrite => exact absurd hwrite (hs _ _)

/-- Of two runs one goes on from where the other one ends. -/
theorem Runs.compare {t' : σ} (h : P.Runs s xs ys t) (h' : P.Runs s xs' ys' t') (hxs : xs <+: xs') :
    (∃ us ws, xs' = xs ++ us ∧ ys' = ys ++ ws ∧ P.Runs t us ws t') ∨
      (xs' = xs ∧ ∃ ws, ys = ys' ++ ws ∧ P.Runs t' [] ws t) := by
  induction h generalizing xs' ys' with
  | refl s => exact Or.inl ⟨xs', ys', rfl, rfl, h'⟩
  | @read s t next x xs ys hs hrest ih =>
    cases h' with
    | refl => exact absurd (List.prefix_nil.mp hxs) (List.cons_ne_nil _ _)
    | write hwrite => cases hs.symm.trans hwrite
    | read hread hrest' =>
      obtain ⟨rfl, htail⟩ := List.cons_prefix_cons.mp hxs
      obtain rfl := Ask.read.inj (hs.symm.trans hread)
      rcases ih hrest' htail with ⟨us, ws, rfl, hys, hgo⟩ | ⟨rfl, hback⟩
      · exact Or.inl ⟨us, ws, rfl, hys, hgo⟩
      · exact Or.inr ⟨rfl, hback⟩
  | @write s t next word xs ys hs hrest ih =>
    cases h' with
    | refl => exact Or.inr ⟨(List.prefix_nil.mp hxs).symm, word ++ ys, rfl, List.prefix_nil.mp hxs ▸ .write hs hrest⟩
    | read hread => cases hs.symm.trans hread
    | write hwrite hrest' =>
      obtain ⟨rfl, rfl⟩ := Ask.write.inj (hs.symm.trans hwrite)
      rcases ih hrest' hxs with ⟨us, ws, hxs', rfl, hgo⟩ | ⟨hxs', ws, rfl, hback⟩
      · exact Or.inl ⟨us, ws, hxs', (List.append_assoc ..).symm, hgo⟩
      · exact Or.inr ⟨hxs', ws, (List.append_assoc ..).symm, hback⟩

/-- What has been written so far is a prefix of what the program makes in the end. -/
theorem Runs.prefix_of_makes (h : P.Runs s xs ys t) (hmakes : P.Makes s xs' ys') (hxs : xs <+: xs') : ys <+: ys' := by
  obtain ⟨zs, t', hzs, h', hwaits, hend⟩ := hmakes
  by_cases hle : xs <+: zs
  · rcases h.compare h' hle with ⟨us, ws, -, rfl, -⟩ | ⟨-, ws, rfl, hback⟩
    · exact List.prefix_append ..
    · rw [hback.of_waits hwaits, List.append_nil]
  · have hzs' : zs <+: xs := (List.prefix_or_prefix_of_prefix hxs hzs).resolve_left hle
    have hstop : P t' = .stop := hend.resolve_left fun he => hle (he ▸ hxs)
    rcases h'.compare h hzs' with ⟨us, ws, rfl, rfl, hgo⟩ | ⟨rfl, -⟩
    · rw [(hgo.of_stop hstop).2, List.append_nil]
    · exact absurd List.prefix_rfl hle

theorem Makes.mono (h : P.Makes s xs ys) (h' : P.Makes s xs' ys') (hxs : xs <+: xs') : ys <+: ys' := by
  obtain ⟨zs, t, hzs, hrun, -⟩ := h
  exact hrun.prefix_of_makes h' (hzs.trans hxs)

theorem Makes.unique (h : P.Makes s xs ys) (h' : P.Makes s xs ys') : ys = ys' :=
  (h.mono h' List.prefix_rfl).eq_of_length_le (h'.mono h List.prefix_rfl).length_le

/-! ### What a program makes, from its first request on -/

theorem Makes.of_read_nil (h : P s = .read next) : P.Makes s [] [] :=
  ⟨[], s, List.prefix_rfl, .refl s, waits_read h, Or.inl rfl⟩

theorem Makes.of_stop (h : P s = .stop) (xs : List α) : P.Makes s xs [] :=
  ⟨[], s, List.nil_prefix, .refl s, waits_stop h, Or.inr h⟩

theorem Makes.of_read (h : P s = .read next) (hrest : P.Makes (next (some x)) xs ys) : P.Makes s (x :: xs) ys := by
  obtain ⟨zs, t, hzs, hrun, hwaits, hend⟩ := hrest
  exact ⟨x :: zs, t, List.cons_prefix_cons.mpr ⟨rfl, hzs⟩, .read h hrun, hwaits, hend.imp_left (congrArg _)⟩

theorem Makes.of_write {t : σ} (h : P s = .write word t) (hrest : P.Makes t xs ys) : P.Makes s xs (word ++ ys) := by
  obtain ⟨zs, u, hzs, hrun, hwaits, hend⟩ := hrest
  exact ⟨zs, u, hzs, .write h hrun, hwaits, hend⟩

end Program

end BareKernel.Links
