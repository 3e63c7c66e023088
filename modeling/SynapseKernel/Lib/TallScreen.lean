import Mathlib.Logic.Basic

/-! # A screen without a last row

A screen of fixed width has a cell for each row and column and a cursor. A terminal of `h`
rows shows the last of them, down to the row of the cursor (`Shows`). Each thing that a
terminal does keeps this, where moving to the next row is one of two things: the cursor goes
down while the terminal is not full, and all rows move up once it is. -/
namespace SynapseKernel.TallScreen

structure Screen (α : Type) where
  cells : Nat → Nat → α
  row : Nat
  col : Nat

variable {α : Type} {h w : Nat} {fresh : Nat → α} {s t : Screen α} {cells : Nat → Nat → α}
  {a : α}

/-- The cursor goes to the start of the next row. -/
def Screen.newline (t : Screen α) : Screen α := { t with row := t.row + 1, col := 0 }

def Screen.carriageReturn (t : Screen α) : Screen α := { t with col := 0 }

/-- The cursor goes to a column, or to the next row if there is no such column. -/
def Screen.moveTo (w : Nat) (t : Screen α) (col : Nat) : Screen α :=
  if col < w then { t with col := col } else t.newline

/-- The cursor goes to the next column that is a multiple of `stop`. -/
def Screen.tab (w stop : Nat) (t : Screen α) : Screen α :=
  t.moveTo w ((t.col / stop + 1) * stop)

/-- The cell at the cursor is written. -/
def Screen.set (t : Screen α) (a : α) : Screen α :=
  { t with cells := fun r c => if r = t.row ∧ c = t.col then a else t.cells r c }

/-- The cell at the cursor is written, and the cursor goes on. -/
def Screen.put (w : Nat) (t : Screen α) (a : α) : Screen α := (t.set a).moveTo w (t.col + 1)

/-- A row of a screen that nothing was written to is `fresh`. -/
def Screen.blank (fresh : Nat → α) : Screen α := ⟨fun r _ => fresh r, 0, 0⟩

/-- The first row in a window of `h` rows. -/
def Screen.top (h : Nat) (t : Screen α) : Nat := t.row + 1 - h

/-- The `h` rows and `w` columns of `s` are the last rows of `t`, or all of them where there
are not as many, and the cursors agree. Rows below the cursor are fresh. -/
structure Shows (h w : Nat) (fresh : Nat → α) (s t : Screen α) : Prop where
  row_lt : s.row < h
  col_lt : s.col < w
  row_eq : t.row = t.top h + s.row
  col_eq : t.col = s.col
  cells_eq : ∀ r < h, ∀ c < w, s.cells r c = t.cells (t.top h + r) c
  fresh_eq : ∀ r, t.row < r → ∀ c, t.cells r c = fresh r

theorem shows_blank (hh : 0 < h) (hw : 0 < w) (hcells : ∀ r < h, ∀ c < w, cells r c = fresh r) :
    Shows h w fresh ⟨cells, 0, 0⟩ (Screen.blank fresh) := by
  have htop : (Screen.blank fresh).top h = 0 := Nat.sub_eq_zero_of_le hh
  refine ⟨hh, hw, ?_, rfl, fun r hr c hc => ?_, fun _ _ _ => rfl⟩
  · rw [htop]
    rfl
  · rw [htop, Nat.zero_add]
    exact hcells r hr c hc

/-- The cursor moves in its row. -/
theorem Shows.toCol (hs : Shows h w fresh s t) {col : Nat} (hcol : col < w) :
    Shows h w fresh { s with col := col } { t with col := col } :=
  ⟨hs.row_lt, hcol, hs.row_eq, rfl, hs.cells_eq, hs.fresh_eq⟩

theorem Shows.set (hs : Shows h w fresh s t) (hcells : ∀ r < h, ∀ c < w,
    cells r c = if r = s.row ∧ c = s.col then a else s.cells r c) :
    Shows h w fresh { s with cells := cells } (t.set a) := by
  refine ⟨hs.row_lt, hs.col_lt, hs.row_eq, hs.col_eq, fun r hr c hc => ?_, fun r hr c => ?_⟩
  · have hrow : t.top h + r = t.row ↔ r = s.row := by
      rw [hs.row_eq]
      exact Nat.add_left_cancel_iff
    have hcell : (t.set a).cells (t.top h + r) c =
        if t.top h + r = t.row ∧ c = t.col then a else t.cells (t.top h + r) c := rfl
    refine (hcells r hr c hc).trans (Eq.trans ?_ hcell.symm)
    simp only [hrow, hs.col_eq, hs.cells_eq r hr c hc]
  · have hne : ¬ (r = t.row ∧ c = t.col) := fun he => Nat.ne_of_gt hr he.1
    exact (if_neg hne).trans (hs.fresh_eq r hr c)

/-- The next row of a terminal that is not full. -/
theorem Shows.nextRow (hs : Shows h w fresh s t) (hrow : s.row + 1 < h) :
    Shows h w fresh { s with row := s.row + 1, col := 0 } t.newline := by
  have heq := hs.row_eq
  have htop : t.top h = 0 := by
    unfold Screen.top at heq ⊢
    omega
  have htop' : t.newline.top h = 0 := by
    unfold Screen.top Screen.newline at *
    simp only
    omega
  refine ⟨hrow, Nat.lt_of_le_of_lt (Nat.zero_le _) hs.col_lt, ?_, rfl, ?_, fun r hr => ?_⟩
  · rw [htop']
    rw [htop] at heq
    unfold Screen.newline
    simp only
    omega
  · rw [htop', ← htop]
    exact hs.cells_eq
  · exact hs.fresh_eq r (Nat.lt_of_succ_lt hr)

/-- The next row of a terminal that is full: its rows move up. -/
theorem Shows.scroll (hs : Shows h w fresh s t) (hrow : s.row + 1 = h)
    (hshift : ∀ r, r + 1 < h → ∀ c < w, cells r c = s.cells (r + 1) c)
    (hlast : ∀ c < w, cells s.row c = fresh (t.row + 1)) :
    Shows h w fresh ⟨cells, s.row, 0⟩ t.newline := by
  have heq := hs.row_eq
  have htop : t.newline.top h = t.top h + 1 := by
    unfold Screen.top Screen.newline at *
    simp only
    omega
  refine ⟨hs.row_lt, Nat.lt_of_le_of_lt (Nat.zero_le _) hs.col_lt, ?_, rfl, ?_, fun r hr => ?_⟩
  · rw [htop]
    unfold Screen.newline
    simp only
    omega
  · intro r hr c hc
    rw [htop]
    by_cases hr' : r + 1 < h
    · refine (hshift r hr' c hc).trans ?_
      rw [hs.cells_eq _ hr' c hc, Nat.add_assoc, Nat.add_comm 1]
      rfl
    · obtain rfl : r = s.row := by omega
      have hbelow := hs.fresh_eq (t.row + 1) (Nat.lt_succ_self _) c
      refine (hlast c hc).trans ?_
      rw [← hbelow, show t.top h + 1 + s.row = t.row + 1 by omega]
      rfl
  · exact hs.fresh_eq r (Nat.lt_of_succ_lt hr)

end SynapseKernel.TallScreen
