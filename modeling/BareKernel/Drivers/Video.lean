import BareKernel.Links.Runs
import Mathlib.Data.Int.Notation
import Mathlib.Data.Nat.Notation
import Mathlib.Logic.Function.Basic

/-! The text screen of `drivers/video-driver.c`: the cursor in pixels and the matrix of
the characters on the screen. Each operation also gives the cells of the matrix that it
accesses. Pixels, and with them fonts and colors, are left out. -/

namespace BareKernel.Video

open Function (update)
open Links

def movX : ℤ := 8

def movY : ℤ := 16

def borderX : ℤ := 1024

def borderY : ℤ := 768

/-- A row and a column of the matrix. -/
abbrev Cell : Type := ℤ × ℤ

/-- `matrix` holds the characters; a cell outside of the array is in other memory. -/
structure Screen where
  zoom : ℤ
  x : ℤ
  y : ℤ
  aux : ℤ
  matrix : ℤ → ℤ → ℤ

namespace Screen

def initial : Screen := ⟨1, 0, movY, movY, fun _ _ => 0⟩

/-- The cell at the cursor. -/
def cell (s : Screen) : Cell := ((s.y.tdiv s.zoom).tdiv movY, (s.x.tdiv s.zoom).tdiv movX)

def setCell (s : Screen) (c : Cell) (num : ℤ) : Screen :=
  { s with matrix := update s.matrix c.1 (update (s.matrix c.1) c.2 num) }

def clearScreen (s : Screen) : Screen := { s with x := 0, y := movY, aux := movY }

def videoClear (s : Screen) : Screen :=
  let cleared (i j : ℤ) : Prop := 1 ≤ i ∧ i < borderY / movY ∧ 0 ≤ j ∧ j < borderX / movX
  { s.clearScreen with matrix := fun i j => if cleared i j then 0 else s.matrix i j }

/-- The cursor behind a glyph; `y` has walked down the glyph and comes back to `aux`. -/
def drawn (s : Screen) (isEndLine : Bool) : Screen :=
  let x := s.x + movX * s.zoom
  let aux := s.aux + movY * s.zoom
  if borderX ≤ x ∧ isEndLine = true then { s with x := 0, y := aux, aux := aux }
  else { s with x := x, y := s.aux }

def charVideo (s : Screen) (isEndLine : Bool) : Screen :=
  let s := if s.x ≤ borderX ∧ s.y < borderY then s.drawn isEndLine else s
  if borderX - 8 ≤ s.x ∧ borderY - 16 ≤ s.y then s.videoClear else s

def nlVideo (s : Screen) : Screen :=
  if s.y < borderY - 16 * s.zoom then { s with aux := s.aux + movY * s.zoom, y := s.y + movY * s.zoom, x := 0 }
  else s.videoClear

/-- The character at the cursor is drawn over, and the cursor goes back. -/
def drawOver (s : Screen) (isEndLine : Bool) : Screen × List Cell :=
  let c := s.cell
  let s := (s.setCell c 0).charVideo isEndLine
  ({ s with x := s.x - movX * s.zoom }, [c])

/-- The width of the mode is that of the border. -/
def deleteVideo (s : Screen) : Screen × List Cell :=
  if s.y ≤ movY ∧ s.x ≤ 0 then (s, [])
  else if movX * s.zoom ≤ s.x then drawOver { s with x := s.x - movX * s.zoom } true
  else
    let s := { s with x := borderX - movX * s.zoom, y := s.y - movY * s.zoom, aux := s.aux - movY * s.zoom }
    if s.y < movY then ({ s with y := movY, aux := movY, x := 0 }, []) else s.drawOver false

def newline : ℤ := 10

def backspace : ℤ := 1

/-- One character of `imprimirVideo`. -/
def put (s : Screen) (num : ℤ) : Screen × List Cell :=
  if num = newline then (s.nlVideo, [])
  else if num = backspace then s.deleteVideo
  else
    let s := { s with y := s.aux }
    let c := s.cell
    ((s.setCell c num).charVideo true, [c])

def imprimirVideo (s : Screen) : List ℤ → Screen × List Cell
  | [] => (s, [])
  | num :: palabra =>
    let r := s.put num
    let r' := r.1.imprimirVideo palabra
    (r'.1, r.2 ++ r'.2)

/-- The 13 characters of `"FOREGROUND: "`, the last one of which ends the string. -/
def foreground : List ℤ := ("FOREGROUND: ".toList.map fun c => (c.toNat : ℤ)) ++ [0]

/-- The cursor at the label in the first row. -/
def label (s : Screen) : Screen := { s with y := 0, aux := 0, x := movX * 50 * s.zoom }

def imprimirPrograma (s : Screen) (palabra : List ℤ) : Screen × List Cell :=
  let r := s.label.imprimirVideo (foreground ++ palabra)
  ({ r.1 with x := s.x, y := s.y, aux := s.aux }, r.2)

/-- The characters of a row are printed. -/
def printRow : ℕ → Screen → Screen
  | 0, s => s
  | n + 1, s => printRow n (s.charVideo true)

/-- The rows from `i` on, up to one whose next row begins with no character. -/
def printRows (cols : ℕ) : ℕ → ℤ → Screen → Screen × List Cell
  | 0, _, s => (s, [])
  | n + 1, i, s =>
    let s := printRow cols s
    let cells := (List.range cols).map (fun j : ℕ => (i, (j : ℤ))) ++ [(i + 1, 0)]
    if s.matrix (i + 1) 0 = 0 then (s, cells)
    else
      let r := printRows cols n (i + 1) s
      (r.1, cells ++ r.2)

/-- The first row is the label's. -/
def rePrint (s : Screen) : Screen × List Cell :=
  printRows (borderX / movX / s.zoom).toNat ((borderY / movY / s.zoom).toNat - 1) 1 s.clearScreen

def zoomIN (s : Screen) : Screen := if s.zoom < 2 then { s with zoom := s.zoom + 1 } else s

def zoomOUT (s : Screen) : Screen := if 1 < s.zoom then { s with zoom := s.zoom - 1 } else s

def sysZoom (s : Screen) (zoom : ℕ) : Screen × List Cell :=
  if zoom = 1 then s.zoomIN.rePrint
  else if zoom = 0 then s.zoomOUT.rePrint
  else (s, [])

end Screen

inductive VideoCall where
  | imprimirVideo (palabra : List ℤ)
  | nlVideo
  | imprimirPrograma (palabra : List ℤ)
  | videoClear
  | sysZoom (zoom : ℕ)

/-- The screen after a call, and the cells that it accesses. -/
def Screen.call (s : Screen) : VideoCall → Screen × List Cell
  | .imprimirVideo palabra => s.imprimirVideo palabra
  | .nlVideo => (s.nlVideo, [])
  | .imprimirPrograma palabra => s.imprimirPrograma palabra
  | .videoClear => (s.videoClear, [])
  | .sysZoom zoom => s.sysZoom zoom

def Screen.accesses (s : Screen) (a : VideoCall) : List Cell := (s.call a).2

/-- Calls one after the other, from the state of the driver at the start on. -/
def video : System Screen VideoCall where
  init s := s = Screen.initial
  step s a t := t = (s.call a).1

end BareKernel.Video
