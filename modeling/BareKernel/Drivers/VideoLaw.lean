import BareKernel.Drivers.Video

/-! The cursor stays on the screen, or with zoom in the row below the last one, where it
stands still; so every access is inside the matrix. A backspace in that row and a
reprint of a full screen are the exceptions. -/

namespace BareKernel.Video

open Function (update)
open Links

variable {s t : Screen} {palabra : List ℤ} {a : VideoCall} {es : List Cell} {num i : ℤ} {n cols : ℕ}

/-- The cell is in the array. -/
def InMatrix (c : Cell) : Prop := 0 ≤ c.1 ∧ c.1 < borderY / movY ∧ 0 ≤ c.2 ∧ c.2 < borderX / movX

/-- The cursor stands at the begin of a character. In the last row the last place is
never reached; with zoom there is one more row, in which the cursor does not move. -/
inductive OnScreen (s : Screen) : Prop where
  | plain (zoom : s.zoom = 1) (same : s.y = s.aux) (grid : s.x % 8 = 0 ∧ s.aux % 16 = 0) (low : 0 ≤ s.x ∧ 0 ≤ s.aux)
      (high : s.x ≤ 1016 ∧ s.aux ≤ 752) (last : s.aux = 752 → s.x ≤ 1008)
  | zoomed (zoom : s.zoom = 2) (same : s.y = s.aux) (grid : s.x % 16 = 0 ∧ s.aux % 16 = 0) (low : 0 ≤ s.x ∧ 0 ≤ s.aux)
      (high : s.x ≤ 1008 ∧ s.aux ≤ 784) (last : 768 ≤ s.aux → s.x = 0)

/-- With zoom, in the row below the last one. -/
def Screen.Below (s : Screen) : Prop := s.zoom = 2 ∧ s.x < 16 ∧ 784 ≤ s.y

instance (s : Screen) : Decidable s.Below := inferInstanceAs (Decidable (_ ∧ _ ∧ _))

theorem OnScreen.zoom (h : OnScreen s) : s.zoom = 1 ∨ s.zoom = 2 := by
  cases h with
  | plain hz => exact Or.inl hz
  | zoomed hz => exact Or.inr hz

theorem OnScreen.same (h : OnScreen s) : s.y = s.aux := by
  cases h with
  | plain _ hsame => exact hsame
  | zoomed _ hsame => exact hsame

theorem OnScreen.low (h : OnScreen s) : 0 ≤ s.x ∧ 0 ≤ s.y := by
  rw [h.same]
  cases h with
  | plain _ _ _ hlow => exact hlow
  | zoomed _ _ _ hlow => exact hlow

/-- At the begin of the first row. -/
theorem onScreen_cleared (hz : s.zoom = 1 ∨ s.zoom = 2) (hx : s.x = 0) (hy : s.y = movY) (ha : s.aux = movY) :
    OnScreen s := by
  unfold movY at hy ha
  rcases hz with hz | hz
  · exact .plain hz (by omega) (by omega) (by omega) (by omega) (by omega)
  · exact .zoomed hz (by omega) (by omega) (by omega) (by omega) (by omega)

theorem initial_onScreen : OnScreen Screen.initial := onScreen_cleared (Or.inl rfl) rfl rfl rfl

theorem OnScreen.videoClear (h : OnScreen s) : OnScreen s.videoClear := onScreen_cleared h.zoom rfl rfl rfl

/-- The cell at the cursor is in the matrix. -/
theorem OnScreen.cell (h : OnScreen s) : InMatrix s.cell := by
  have hlow := h.low
  have hsame := h.same
  have hz : 0 ≤ s.zoom := by
    rcases h.zoom with hz | hz <;> omega
  unfold InMatrix Screen.cell
  rw [Int.tdiv_eq_ediv_of_nonneg hlow.1, Int.tdiv_eq_ediv_of_nonneg hlow.2,
    Int.tdiv_eq_ediv_of_nonneg (Int.ediv_nonneg hlow.1 hz), Int.tdiv_eq_ediv_of_nonneg (Int.ediv_nonneg hlow.2 hz)]
  unfold borderX borderY movX movY
  dsimp only
  cases h with
  | plain hz _ _ _ hhigh =>
    rw [hz]
    omega
  | zoomed hz _ _ _ hhigh =>
    rw [hz]
    omega

theorem OnScreen.cleared (h : OnScreen s) (ht : t.zoom = s.zoom) : OnScreen t.videoClear :=
  onScreen_cleared (by rw [show t.videoClear.zoom = t.zoom from rfl, ht]; exact h.zoom) rfl rfl rfl

/-- The cursor does not depend on what is in the matrix. -/
theorem OnScreen.setCell (h : OnScreen s) (c : Cell) (num : ℤ) : OnScreen (s.setCell c num) := by
  cases h with
  | plain hz hsame hgrid hlow hhigh hlast => exact .plain hz hsame hgrid hlow hhigh hlast
  | zoomed hz hsame hgrid hlow hhigh hlast => exact .zoomed hz hsame hgrid hlow hhigh hlast

theorem charVideo_drawn {isEndLine : Bool} (hdraw : s.x ≤ borderX ∧ s.y < borderY) :
    s.charVideo isEndLine = if borderX - 8 ≤ (s.drawn isEndLine).x ∧ borderY - 16 ≤ (s.drawn isEndLine).y then
      (s.drawn isEndLine).videoClear else s.drawn isEndLine := by
  unfold Screen.charVideo
  rw [if_pos hdraw]

/-- Behind the last place of a row comes the next row. -/
theorem drawn_wrap (hx : borderX ≤ s.x + movX * s.zoom) :
    s.drawn true = { s with x := 0, y := s.aux + movY * s.zoom, aux := s.aux + movY * s.zoom } := if_pos ⟨hx, rfl⟩

theorem drawn_next {isEndLine : Bool} (hx : s.x + movX * s.zoom < borderX ∨ isEndLine = false) :
    s.drawn isEndLine = { s with x := s.x + movX * s.zoom, y := s.aux } := by
  refine if_neg ?_
  rintro ⟨hge, hend⟩
  rcases hx with hlt | hno
  · omega
  · rw [hno] at hend
    cases hend

/-- A character is printed. -/
theorem OnScreen.charVideo (h : OnScreen s) : OnScreen (s.charVideo true) := by
  have hgo : ∀ t : Screen, t.zoom = s.zoom → OnScreen t ∨ borderX - 8 ≤ t.x ∧ borderY - 16 ≤ t.y →
      OnScreen (if borderX - 8 ≤ t.x ∧ borderY - 16 ≤ t.y then t.videoClear else t) := by
    intro t ht hcases
    split
    · exact h.cleared ht
    · rename_i hno
      exact hcases.resolve_right hno
  by_cases hdraw : s.x ≤ borderX ∧ s.y < borderY
  · rw [charVideo_drawn hdraw]
    unfold borderX borderY at hdraw
    by_cases hx : borderX ≤ s.x + movX * s.zoom
    · rw [drawn_wrap hx]
      refine hgo _ rfl (Or.inl ?_)
      unfold borderX movX at hx
      unfold movY
      cases h with
      | plain hz hsame hgrid hlow hhigh hlast =>
        rw [hz] at hx ⊢
        exact .plain rfl rfl (by dsimp only; omega) (by dsimp only; omega) (by dsimp only; omega)
          (by dsimp only; omega)
      | zoomed hz hsame hgrid hlow hhigh hlast =>
        rw [hz] at hx ⊢
        exact .zoomed rfl rfl (by dsimp only; omega) (by dsimp only; omega) (by dsimp only; omega)
          (by dsimp only; omega)
    · rw [drawn_next (Or.inl (Int.not_le.mp hx))]
      refine hgo _ rfl ?_
      unfold borderX movX at hx
      unfold borderX borderY movX
      cases h with
      | plain hz hsame hgrid hlow hhigh hlast =>
        rw [hz] at hx ⊢
        by_cases hfull : 1016 ≤ s.x + 8 * 1 ∧ 752 ≤ s.aux
        · exact Or.inr hfull
        · exact Or.inl (.plain rfl rfl (by dsimp only; omega) (by dsimp only; omega) (by dsimp only; omega)
            (by dsimp only; omega))
      | zoomed hz hsame hgrid hlow hhigh hlast =>
        rw [hz] at hx ⊢
        exact Or.inl (.zoomed rfl rfl (by dsimp only; omega) (by dsimp only; omega) (by dsimp only; omega)
          (by dsimp only; omega))
  · have hstay : s.charVideo true = if borderX - 8 ≤ s.x ∧ borderY - 16 ≤ s.y then s.videoClear else s := by
      unfold Screen.charVideo
      rw [if_neg hdraw]
    rw [hstay]
    exact hgo s rfl (Or.inl h)

theorem OnScreen.nlVideo (h : OnScreen s) : OnScreen s.nlVideo := by
  unfold Screen.nlVideo borderY movY
  cases h with
  | plain hz hsame hgrid hlow hhigh hlast =>
    rw [hz]
    split
    · exact .plain rfl (by dsimp only; omega) (by dsimp only; omega) (by dsimp only; omega) (by dsimp only; omega)
        (by dsimp only; omega)
    · exact onScreen_cleared (Or.inl hz) rfl rfl rfl
  | zoomed hz hsame hgrid hlow hhigh hlast =>
    rw [hz]
    split
    · exact .zoomed rfl (by dsimp only; omega) (by dsimp only; omega) (by dsimp only; omega) (by dsimp only; omega)
        (by dsimp only; omega)
    · exact onScreen_cleared (Or.inr hz) rfl rfl rfl

/-- A place before the end of the screen is drawn over. -/
theorem OnScreen.drawOver {isEndLine : Bool} (h : OnScreen s) (hy : s.y < borderY)
    (hx : s.x + movX * s.zoom < borderX ∨ isEndLine = false)
    (hfull : ¬(borderX - 8 ≤ s.x + movX * s.zoom ∧ borderY - 16 ≤ s.y)) :
    OnScreen (s.drawOver isEndLine).1 ∧ ∀ c ∈ (s.drawOver isEndLine).2, InMatrix c := by
  have hsame := h.same
  have hdraw : s.x ≤ borderX ∧ s.y < borderY := by
    refine ⟨?_, hy⟩
    unfold borderX
    cases h with
    | plain _ _ _ _ hhigh => omega
    | zoomed _ _ _ _ hhigh => omega
  have hdrawn : (s.setCell s.cell 0).drawn isEndLine =
      { s.setCell s.cell 0 with x := s.x + movX * s.zoom, y := s.aux } := drawn_next (s := s.setCell s.cell 0) hx
  have hback : (s.drawOver isEndLine).1 = s.setCell s.cell 0 := by
    rw [hsame] at hfull
    unfold Screen.drawOver
    dsimp only
    rw [charVideo_drawn (s := s.setCell s.cell 0) hdraw, hdrawn]
    dsimp only
    rw [if_neg hfull]
    dsimp only [Screen.setCell]
    rw [hsame, Int.add_sub_cancel]
  rw [hback]
  refine ⟨h.setCell _ _, fun c hc => ?_⟩
  rw [List.mem_singleton.mp hc]
  exact h.cell

/-- One place back in the row. -/
theorem OnScreen.before (h : OnScreen s) (hback : movX * s.zoom ≤ s.x) :
    OnScreen { s with x := s.x - movX * s.zoom } ∧ s.y < borderY ∧ s.x < borderX ∧
      ¬(borderX - 8 ≤ s.x ∧ borderY - 16 ≤ s.y) := by
  unfold movX at hback ⊢
  unfold borderX borderY
  cases h with
  | plain hz hsame hgrid hlow hhigh hlast =>
    rw [hz] at hback ⊢
    refine ⟨.plain rfl hsame ?_ ?_ ?_ ?_, by omega, by omega, by omega⟩ <;> dsimp only <;> omega
  | zoomed hz hsame hgrid hlow hhigh hlast =>
    rw [hz] at hback ⊢
    refine ⟨.zoomed rfl hsame ?_ ?_ ?_ ?_, by omega, by omega, by omega⟩ <;> dsimp only <;> omega

/-- The last place of the row above. -/
theorem OnScreen.above (h : OnScreen s) (hb : ¬s.Below) (hback : s.x < movX * s.zoom)
    (htop : movY ≤ s.y - movY * s.zoom) :
    OnScreen { s with x := borderX - movX * s.zoom, y := s.y - movY * s.zoom, aux := s.aux - movY * s.zoom } ∧
      s.y - movY * s.zoom < borderY - 16 := by
  unfold Screen.Below at hb
  unfold movX at hback ⊢
  unfold movY at htop ⊢
  unfold borderX borderY
  cases h with
  | plain hz hsame hgrid hlow hhigh hlast =>
    rw [hz] at hback htop ⊢
    refine ⟨.plain rfl ?_ ?_ ?_ ?_ ?_, by omega⟩ <;> dsimp only <;> omega
  | zoomed hz hsame hgrid hlow hhigh hlast =>
    rw [hz] at hback htop ⊢
    refine ⟨.zoomed rfl ?_ ?_ ?_ ?_ ?_, by omega⟩ <;> dsimp only <;> omega

/-- The character before the cursor is deleted. -/
theorem OnScreen.deleteVideo (h : OnScreen s) (hb : ¬s.Below) :
    OnScreen s.deleteVideo.1 ∧ ∀ c ∈ s.deleteVideo.2, InMatrix c := by
  have hnil : ∀ c ∈ ([] : List Cell), InMatrix c := fun c hc => absurd hc List.not_mem_nil
  unfold Screen.deleteVideo
  by_cases hfirst : s.y ≤ movY ∧ s.x ≤ 0
  · rw [if_pos hfirst]
    exact ⟨h, hnil⟩
  rw [if_neg hfirst]
  by_cases hback : movX * s.zoom ≤ s.x
  · rw [if_pos hback]
    obtain ⟨hon, hy, hx, hfull⟩ := h.before hback
    rw [← Int.sub_add_cancel s.x (movX * s.zoom)] at hx hfull
    exact hon.drawOver hy (Or.inl hx) hfull
  · rw [if_neg hback]
    dsimp only
    by_cases htop : s.y - movY * s.zoom < movY
    · rw [if_pos htop]
      exact ⟨onScreen_cleared h.zoom rfl rfl rfl, hnil⟩
    · rw [if_neg htop]
      obtain ⟨hon, hy⟩ := h.above hb (Int.not_le.mp hback) (Int.not_lt.mp htop)
      refine hon.drawOver ?_ (Or.inr rfl) fun hfull => absurd hy (Int.not_lt.mpr hfull.2)
      exact Int.lt_trans hy (by decide)

/-! ### Texts -/

theorem OnScreen.put (h : OnScreen s) (hb : num = Screen.backspace → ¬s.Below) :
    OnScreen (s.put num).1 ∧ ∀ c ∈ (s.put num).2, InMatrix c := by
  unfold Screen.put
  by_cases hnl : num = Screen.newline
  · rw [if_pos hnl]
    exact ⟨h.nlVideo, fun c hc => absurd hc List.not_mem_nil⟩
  rw [if_neg hnl]
  by_cases hback : num = Screen.backspace
  · rw [if_pos hback]
    exact h.deleteVideo (hb hback)
  · rw [if_neg hback]
    have hsame : { s with y := s.aux } = s := congrArg (fun y => { s with y := y }) h.same.symm
    rw [hsame]
    refine ⟨(h.setCell _ _).charVideo, fun c hc => ?_⟩
    rw [List.mem_singleton.mp hc]
    exact h.cell

/-- No backspace is printed below the last row. -/
def Screen.KeepsText (s : Screen) : List ℤ → Prop
  | [] => True
  | num :: palabra => (num = backspace → ¬s.Below) ∧ (s.put num).1.KeepsText palabra

theorem OnScreen.imprimirVideo (h : OnScreen s) (hok : s.KeepsText palabra) :
    OnScreen (s.imprimirVideo palabra).1 ∧ ∀ c ∈ (s.imprimirVideo palabra).2, InMatrix c := by
  induction palabra generalizing s with
  | nil => exact ⟨h, fun c hc => absurd hc List.not_mem_nil⟩
  | cons num palabra ih =>
    obtain ⟨hfirst, hrest⟩ := hok
    obtain ⟨hput, hcells⟩ := h.put hfirst
    obtain ⟨hall, hcells'⟩ := ih hput hrest
    refine ⟨hall, fun c hc => ?_⟩
    rcases List.mem_append.mp hc with hc | hc
    · exact hcells c hc
    · exact hcells' c hc

theorem charVideo_zoom (s : Screen) (isEndLine : Bool) : (s.charVideo isEndLine).zoom = s.zoom := by
  have hdrawn : (s.drawn isEndLine).zoom = s.zoom := by
    unfold Screen.drawn
    dsimp only
    split <;> rfl
  unfold Screen.charVideo
  dsimp only
  split
  · split
    · exact hdrawn
    · exact hdrawn
  · split <;> rfl

theorem put_zoom (s : Screen) (num : ℤ) : (s.put num).1.zoom = s.zoom := by
  unfold Screen.put
  split
  · unfold Screen.nlVideo
    split <;> rfl
  split
  · unfold Screen.deleteVideo Screen.drawOver
    dsimp only
    split
    · rfl
    split
    · exact charVideo_zoom _ _
    split
    · rfl
    · exact charVideo_zoom _ _
  · exact charVideo_zoom _ _

theorem imprimirVideo_zoom (s : Screen) (palabra : List ℤ) : (s.imprimirVideo palabra).1.zoom = s.zoom := by
  induction palabra generalizing s with
  | nil => rfl
  | cons num palabra ih => exact (ih _).trans (put_zoom s num)

theorem OnScreen.label (h : OnScreen s) : OnScreen s.label := by
  unfold Screen.label movX
  rcases h.zoom with hz | hz
  · rw [hz]
    exact .plain rfl rfl (by dsimp only; omega) (by dsimp only; omega) (by dsimp only; omega) (by dsimp only; omega)
  · rw [hz]
    exact .zoomed rfl rfl (by dsimp only; omega) (by dsimp only; omega) (by dsimp only; omega) (by dsimp only; omega)

/-- The label leaves the cursor where it was. -/
theorem OnScreen.imprimirPrograma (h : OnScreen s) (hok : s.label.KeepsText (Screen.foreground ++ palabra)) :
    OnScreen (s.imprimirPrograma palabra).1 ∧ ∀ c ∈ (s.imprimirPrograma palabra).2, InMatrix c := by
  obtain ⟨-, hcells⟩ := h.label.imprimirVideo hok
  refine ⟨?_, hcells⟩
  have hzoom : (s.imprimirPrograma palabra).1.zoom = s.zoom := imprimirVideo_zoom s.label _
  cases h with
  | plain hz hsame hgrid hlow hhigh hlast => exact .plain (hzoom.trans hz) hsame hgrid hlow hhigh hlast
  | zoomed hz hsame hgrid hlow hhigh hlast => exact .zoomed (hzoom.trans hz) hsame hgrid hlow hhigh hlast

/-! ### The screen is printed again -/

theorem OnScreen.printRow (h : OnScreen s) (n : ℕ) : OnScreen (Screen.printRow n s) := by
  induction n generalizing s with
  | zero => exact h
  | succ n ih => exact ih h.charVideo

theorem OnScreen.printRows (h : OnScreen s) (cols n : ℕ) (i : ℤ) : OnScreen (Screen.printRows cols n i s).1 := by
  induction n generalizing s i with
  | zero => exact h
  | succ n ih =>
    rw [Screen.printRows]
    dsimp only
    split
    · exact h.printRow cols
    · exact ih (h.printRow cols) (i + 1)

/-- The accesses of one row, and of the begin of the next one. -/
theorem mem_row {c : Cell} (hc : c ∈ (List.range cols).map (fun j : ℕ => (i, (j : ℤ))) ++ [(i + 1, 0)]) :
    c.1 = i ∧ 0 ≤ c.2 ∧ c.2 < cols ∨ c.1 = i + 1 ∧ c.2 = 0 := by
  rcases List.mem_append.mp hc with hc | hc
  · obtain ⟨j, hj, rfl⟩ := List.mem_map.mp hc
    have hlt := List.mem_range.mp hj
    refine Or.inl ⟨rfl, ?_, ?_⟩
    · show (0 : ℤ) ≤ j
      omega
    · show (j : ℤ) < cols
      omega
  · rw [List.mem_singleton.mp hc]
    exact Or.inr ⟨rfl, rfl⟩

/-- At most one row behind the printed ones is looked at. -/
theorem mem_printRows {c : Cell} (hc : c ∈ (Screen.printRows cols n i s).2) :
    i ≤ c.1 ∧ c.1 ≤ i + n ∧ 0 ≤ c.2 ∧ (c.2 < cols ∨ c.2 = 0) := by
  induction n generalizing s i with
  | zero => exact absurd hc List.not_mem_nil
  | succ n ih =>
    rw [Screen.printRows] at hc
    dsimp only at hc
    have hrow : c ∈ (List.range cols).map (fun j : ℕ => (i, (j : ℤ))) ++ [(i + 1, 0)] →
        i ≤ c.1 ∧ c.1 ≤ i + (n + 1 : ℕ) ∧ 0 ≤ c.2 ∧ (c.2 < cols ∨ c.2 = 0) := by
      intro hmem
      rcases mem_row hmem with ⟨h₁, h₂, h₃⟩ | ⟨h₁, h₂⟩ <;> omega
    split at hc
    · exact hrow hc
    · rcases List.mem_append.mp hc with hmem | hmem
      · exact hrow hmem
      · have hnext := ih hmem
        omega

/-- The end of a row without zoom, but for the last one. -/
theorem printRow_plain (hz : s.zoom = 1) (hx : s.x = borderX - movX * (n + 1)) (hsame : s.y = s.aux)
    (hpos : 0 ≤ s.x) (hlast : s.aux < 752) :
    Screen.printRow (n + 1) s = { s with x := 0, y := s.aux + movY, aux := s.aux + movY } := by
  have hdraw : s.x ≤ borderX ∧ s.y < borderY := by
    unfold borderX movX at hx
    unfold borderX borderY
    omega
  induction n generalizing s with
  | zero =>
    rw [Screen.printRow, Screen.printRow, charVideo_drawn hdraw, drawn_wrap (by rw [hz, hx]; decide), hz]
    refine if_neg ?_
    unfold borderX
    dsimp only
    omega
  | succ n ih =>
    have hnext : s.charVideo true = { s with x := s.x + movX * s.zoom, y := s.aux } := by
      have hlt : s.x + movX * s.zoom < borderX := by
        rw [hz, hx]
        unfold borderX movX
        omega
      rw [charVideo_drawn hdraw, drawn_next (Or.inl hlt)]
      refine if_neg ?_
      unfold borderY
      dsimp only
      omega
    rw [Screen.printRow, hnext, ih]
    · exact hz
    · rw [hz, hx]
      unfold borderX movX
      dsimp only
      omega
    · rfl
    · rw [hz]
      unfold movX
      dsimp only
      omega
    · exact hlast
    · unfold borderX movX at hx
      rw [hz]
      unfold borderX borderY movX
      dsimp only
      omega

/-- Without zoom the rows are printed until one is empty, and without such a row the
printing looks behind the last one. -/
theorem printRows_plain (hz : s.zoom = 1) (hx : s.x = 0) (hsame : s.y = s.aux) (ha : s.aux = 16 * i)
    (hi : i + (n + 1 : ℕ) = 48) (hpos : 0 ≤ i) :
    (∀ c ∈ (Screen.printRows 128 (n + 1) i s).2, InMatrix c) ↔ ∃ j, i < j ∧ j < 48 ∧ s.matrix j 0 = 0 := by
  induction n generalizing s i with
  | zero =>
    have hi : i = 47 := by omega
    subst hi
    constructor
    · intro hall
      have hbehind : InMatrix ((48 : ℤ), (0 : ℤ)) := by
        apply hall
        rw [Screen.printRows]
        dsimp only
        have hmem : ((48 : ℤ), (0 : ℤ)) ∈ (List.range 128).map (fun j : ℕ => ((47 : ℤ), (j : ℤ))) ++ [(47 + 1, 0)] :=
          List.mem_append.mpr (Or.inr (List.mem_singleton.mpr rfl))
        split
        · exact hmem
        · exact List.mem_append.mpr (Or.inl hmem)
      exact absurd hbehind.2.1 (by decide)
    · rintro ⟨j, hlt, hlt', -⟩
      omega
  | succ n ih =>
    have hprinted : Screen.printRow 128 s = { s with x := 0, y := s.aux + movY, aux := s.aux + movY } :=
      printRow_plain (n := 127) hz (by rw [hx]; decide) hsame (by omega) (by omega)
    have hcells : ∀ c ∈ (List.range 128).map (fun j : ℕ => (i, (j : ℤ))) ++ [(i + 1, 0)], InMatrix c := by
      intro c hc
      unfold InMatrix borderX borderY movX movY
      rcases mem_row hc with ⟨h₁, h₂, h₃⟩ | ⟨h₁, h₂⟩ <;> omega
    rw [Screen.printRows, hprinted]
    dsimp only
    by_cases hend : s.matrix (i + 1) 0 = 0
    · rw [if_pos hend]
      exact ⟨fun _ => ⟨i + 1, by omega, by omega, hend⟩, fun _ => hcells⟩
    · rw [if_neg hend]
      have hrest := ih (s := { s with x := 0, y := s.aux + movY, aux := s.aux + movY }) (i := i + 1) hz rfl rfl
        (by unfold movY; dsimp only; omega) (by omega) (by omega)
      constructor
      · intro hall
        obtain ⟨j, hlt, hlt', hj⟩ := hrest.mp fun c hc => hall c (List.mem_append.mpr (Or.inr hc))
        exact ⟨j, by omega, hlt', hj⟩
      · rintro ⟨j, hlt, hlt', hj⟩ c hc
        rcases List.mem_append.mp hc with hc | hc
        · exact hcells c hc
        · refine hrest.mpr ⟨j, ?_, hlt', hj⟩ c hc
          have hne : j ≠ i + 1 := by
            rintro rfl
            exact hend hj
          omega

/-- Without zoom, each row from the second one on begins with a character. -/
def Screen.Full (s : Screen) : Prop := s.zoom = 1 ∧ ∀ i ∈ List.range 46, s.matrix (i + 2 : ℕ) 0 ≠ 0

instance (s : Screen) : Decidable s.Full := inferInstanceAs (Decidable (_ ∧ _))

theorem Screen.not_full (hz : s.zoom = 1) : ¬s.Full ↔ ∃ j, 1 < j ∧ j < 48 ∧ s.matrix j 0 = 0 := by
  constructor
  · intro hfull
    by_contra hno
    refine hfull ⟨hz, fun i hi hempty => hno ⟨(i + 2 : ℕ), ?_, ?_, hempty⟩⟩
    · omega
    · have hlt := List.mem_range.mp hi
      omega
  · rintro ⟨j, hlt, hlt', hempty⟩ ⟨-, hfull⟩
    have hj : j = ((j.toNat - 2) + 2 : ℕ) := by omega
    rw [hj] at hempty
    exact hfull (j.toNat - 2) (List.mem_range.mpr (by omega)) hempty

/-- The screen is printed again inside the matrix, unless it is full. -/
theorem OnScreen.rePrint_iff (h : OnScreen s) : (∀ c ∈ s.rePrint.2, InMatrix c) ↔ ¬s.Full := by
  rcases h.zoom with hz | hz
  · rw [Screen.not_full hz]
    unfold Screen.rePrint
    rw [hz]
    exact printRows_plain (s := s.clearScreen) (i := 1) (n := 46) hz rfl rfl rfl rfl (by decide)
  · have hzoomed : ¬s.Full := by
      rintro ⟨hplain, -⟩
      omega
    refine iff_of_true (fun c hc => ?_) hzoomed
    unfold Screen.rePrint at hc
    rw [hz] at hc
    have hmem := mem_printRows hc
    have hcols : ((borderX / movX / 2).toNat : ℤ) = 64 := by decide
    have hrows : (((borderY / movY / 2).toNat - 1 : ℕ) : ℤ) = 23 := by decide
    unfold InMatrix borderX borderY movX movY
    omega

theorem onScreen_rePrint (ht : t.zoom = 1 ∨ t.zoom = 2) : OnScreen t.rePrint.1 :=
  (onScreen_cleared (s := t.clearScreen) ht rfl rfl rfl).printRows _ _ _

/-! ### Runs -/

/-- No backspace is printed in the row below the last one, and a full screen is not
printed again. -/
def VideoCall.KeepsCursor (s : Screen) : VideoCall → Prop
  | .imprimirVideo palabra => s.KeepsText palabra
  | .imprimirPrograma palabra => s.label.KeepsText (Screen.foreground ++ palabra)
  | .sysZoom zoom => zoom = 0 → ¬s.zoomOUT.Full
  | .nlVideo | .videoClear => True

theorem zoomIN_zoom (hz : s.zoom = 1 ∨ s.zoom = 2) : s.zoomIN.zoom = 2 := by
  unfold Screen.zoomIN
  split
  · show s.zoom + 1 = 2
    omega
  · omega

theorem zoomOUT_zoom (hz : s.zoom = 1 ∨ s.zoom = 2) : s.zoomOUT.zoom = 1 := by
  unfold Screen.zoomOUT
  split
  · show s.zoom - 1 = 1
    omega
  · omega

/-- The cells that are printed again do not depend on where the cursor was. -/
theorem rePrint_inMatrix (hz : s.zoom = 1 ∨ s.zoom = 2) (hfull : ¬s.Full) : ∀ c ∈ s.rePrint.2, InMatrix c :=
  (onScreen_cleared (s := s.clearScreen) hz rfl rfl rfl).rePrint_iff.mpr hfull

theorem OnScreen.sysZoom {zoom : ℕ} (h : OnScreen s) (hok : zoom = 0 → ¬s.zoomOUT.Full) :
    OnScreen (s.sysZoom zoom).1 ∧ ∀ c ∈ (s.sysZoom zoom).2, InMatrix c := by
  unfold Screen.sysZoom
  by_cases hin : zoom = 1
  · rw [if_pos hin]
    have hz := zoomIN_zoom h.zoom
    refine ⟨onScreen_rePrint (Or.inr hz), rePrint_inMatrix (Or.inr hz) ?_⟩
    rintro ⟨hplain, -⟩
    omega
  rw [if_neg hin]
  by_cases hout : zoom = 0
  · rw [if_pos hout]
    have hz := zoomOUT_zoom h.zoom
    exact ⟨onScreen_rePrint (Or.inl hz), rePrint_inMatrix (Or.inl hz) (hok hout)⟩
  · rw [if_neg hout]
    exact ⟨h, fun c hc => absurd hc List.not_mem_nil⟩

theorem OnScreen.call (h : OnScreen s) (hok : a.KeepsCursor s) :
    OnScreen (s.call a).1 ∧ ∀ c ∈ s.accesses a, InMatrix c := by
  cases a with
  | imprimirVideo palabra => exact h.imprimirVideo hok
  | nlVideo => exact ⟨h.nlVideo, fun c hc => absurd hc List.not_mem_nil⟩
  | imprimirPrograma palabra => exact h.imprimirPrograma hok
  | videoClear => exact ⟨h.videoClear, fun c hc => absurd hc List.not_mem_nil⟩
  | sysZoom zoom => exact h.sysZoom hok

/-- In every run that leaves out the two exceptions, the cursor stays on the screen and
every access is in the matrix. -/
theorem screen_in_bounds (hrun : video.Emits (fun s a => a.KeepsCursor s) Screen.accesses Screen.initial es s) :
    (∀ c ∈ es, InMatrix c) ∧ 0 ≤ s.x ∧ 0 ≤ s.y := by
  have hinv : OnScreen s ∧ ∀ c ∈ es, InMatrix c := by
    induction hrun with
    | refl => exact ⟨initial_onScreen, fun c hc => absurd hc List.not_mem_nil⟩
    | step _ hok hst ih =>
      obtain ⟨hon, hcells⟩ := ih
      obtain ⟨hnext, hcells'⟩ := hon.call hok
      rw [hst]
      refine ⟨hnext, fun c hc => ?_⟩
      rcases List.mem_append.mp hc with hc | hc
      · exact hcells c hc
      · exact hcells' c hc
  exact ⟨hinv.2, hinv.1.low⟩

instance Screen.decidableKeepsText : ∀ (palabra : List ℤ) (s : Screen), Decidable (s.KeepsText palabra)
  | [], _ => isTrue trivial
  | num :: palabra, s =>
    have := Screen.decidableKeepsText palabra (s.put num).1
    inferInstanceAs (Decidable (_ ∧ _))

instance VideoCall.decidableKeepsCursor (s : Screen) (a : VideoCall) : Decidable (a.KeepsCursor s) :=
  match a with
  | .imprimirVideo palabra => inferInstanceAs (Decidable (s.KeepsText palabra))
  | .nlVideo => isTrue trivial
  | .imprimirPrograma palabra => inferInstanceAs (Decidable (s.label.KeepsText (Screen.foreground ++ palabra)))
  | .videoClear => isTrue trivial
  | .sysZoom zoom => inferInstanceAs (Decidable (zoom = 0 → ¬s.zoomOUT.Full))

namespace VideoCall

/-- The lines of a zoomed screen, and a text in the row below the last one. -/
def fillZoomed (palabra : List ℤ) : List VideoCall :=
  [sysZoom 1, imprimirVideo (List.replicate 22 Screen.newline ++ List.replicate 64 65), imprimirVideo palabra]

/-- Each row of the screen begins with a character. -/
def fillPlain : List VideoCall :=
  [imprimirVideo ((List.replicate 46 [65, Screen.newline]).flatten ++ [65])]

end VideoCall

def Screen.next (s : Screen) (a : VideoCall) : Option Screen := some (s.call a).1

theorem video_emits {ok : Screen → VideoCall → Prop} [∀ s a, Decidable (ok s a)] (as : List VideoCall)
    (h : (System.runList Screen.next ok Screen.initial as).isSome = true) :
    video.Emits ok Screen.accesses Screen.initial (System.emitted Screen.next Screen.accesses Screen.initial as)
      ((System.runList Screen.next ok Screen.initial as).getD Screen.initial) := by
  obtain ⟨t, ht⟩ := Option.isSome_iff_exists.mp h
  rw [ht]
  exact System.runList_emits (fun _ _ _ hnext => (Option.some.inj hnext).symm) ht

/-- Below the last row characters are overwritten until a newline, and the text goes on in
the first row; then the zoom is turned off. -/
theorem screen_in_bounds_fillZoomed :
    let as := VideoCall.fillZoomed [66, 67, 10, 66, 1, 1] ++ [.sysZoom 0, .imprimirPrograma [65]]
    ∀ c ∈ System.emitted Screen.next Screen.accesses Screen.initial as, InMatrix c :=
  (screen_in_bounds (video_emits _ (by decide +kernel))).1

/-- A backspace below the last row leaves the cursor left of the screen. -/
theorem screen_leaves : ¬∀ es s, video.Emits (fun _ _ => True) Screen.accesses Screen.initial es s →
    (∀ c ∈ es, InMatrix c) ∧ 0 ≤ s.x ∧ 0 ≤ s.y := by
  intro hclaim
  obtain ⟨-, hx, -⟩ := hclaim _ _ (video_emits (VideoCall.fillZoomed [Screen.backspace]) (by decide +kernel))
  exact absurd hx (by decide +kernel)

example : ∃ s, System.runList Screen.next (fun _ _ => True) Screen.initial VideoCall.fillPlain = some s ∧
    s.zoomOUT.Full := ⟨_, rfl, by decide +kernel⟩

end BareKernel.Video
