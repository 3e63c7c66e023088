import SynapseKernel.Lib.ByteMemory
import SynapseKernel.Lib.TallScreen
import SynapseKernel.Lib.Word
import SynapseKernel.Str.CString

/-! # The text console (lib/vga.c)

The buffer of the console is a window on a screen without a last row: whatever is printed
to it, it shows the last `VGA_HEIGHT` rows of that screen and is written inside its bounds
(`vgaPuts_shows`). The indices of all stores are kept beside the buffer. -/
namespace SynapseKernel.Console
open SynapseKernel.Word SynapseKernel.ByteMemory SynapseKernel.Str SynapseKernel.TallScreen

abbrev VGA_WIDTH : Nat := 80
abbrev VGA_HEIGHT : Nat := 25

/-- `VGA_COLOR(fg, bg)`. -/
def vgaColor (fg bg : UInt8) : UInt8 := fg ||| bg <<< 4

def VGA_COLOR_BLACK : UInt8 := 0
def VGA_COLOR_LIGHT_GREY : UInt8 := 7

/-- `(uint16_t)c`, where `char` is signed. -/
def charWord (c : UInt8) : UInt16 := if c < 0x80 then c.toUInt16 else 0xFF00 ||| c.toUInt16

/-- `VGA_ENTRY(color, c)`. -/
def vgaEntry (color c : UInt8) : UInt16 := color.toUInt16 <<< 8 ||| charWord c

structure Vga where
  buffer : Nat → UInt16
  row : Nat
  col : Nat
  color : UInt8
  /-- The indices of the buffer that were stored to, the last one first. -/
  written : List Nat

def Vga.store (v : Vga) (i : Nat) (entry : UInt16) : Vga :=
  { v with buffer := Function.update v.buffer i entry, written := i :: v.written }

/-- `n` rounds of `for (..; i++) vga_buffer[i] = entry;`. -/
def storesFrom (entry : Vga → Nat → UInt16) : Nat → Nat → Vga → Vga
  | 0, _, v => v
  | n + 1, i, v => storesFrom entry n (i + 1) (v.store i (entry v i))

/-- `VGA_ENTRY(vga_color, ' ')`. -/
def blankEntry (v : Vga) (_ : Nat) : UInt16 := vgaEntry v.color (byteOf ' ')

/-- `vga_buffer[i + VGA_WIDTH]`. -/
def entryBelow (v : Vga) (i : Nat) : UInt16 := v.buffer (i + VGA_WIDTH)

def vgaClear (v : Vga) : Vga := storesFrom blankEntry (VGA_WIDTH * VGA_HEIGHT) 0 v

def vgaScroll (v : Vga) : Vga :=
  storesFrom blankEntry VGA_WIDTH ((VGA_HEIGHT - 1) * VGA_WIDTH)
    (storesFrom entryBelow ((VGA_HEIGHT - 1) * VGA_WIDTH) 0 v)

def vgaInit (v : Vga) : Vga :=
  { vgaClear v with
    row := 0, col := 0, color := vgaColor VGA_COLOR_LIGHT_GREY VGA_COLOR_BLACK }

def vgaSetColor (v : Vga) (fg bg : UInt8) : Vga := { v with color := vgaColor fg bg }

/-- The lines that `vga_putc` runs for a new row at three places. -/
def vgaNextRow (v : Vga) : Vga :=
  let v := { v with col := 0, row := v.row + 1 }
  if VGA_HEIGHT ≤ v.row then { vgaScroll v with row := VGA_HEIGHT - 1 } else v

def vgaPutc (v : Vga) (c : UInt8) : Vga :=
  if c = byteOf '\n' then vgaNextRow v
  else if c = byteOf '\r' then { v with col := 0 }
  else if c = byteOf '\t' then
    -- `& ~3` on 32 bits
    let v := { v with col := (v.col + 4) &&& (2 ^ 32 - 2 ^ 2) }
    if VGA_WIDTH ≤ v.col then vgaNextRow v else v
  else
    let v := v.store (v.row * VGA_WIDTH + v.col) (vgaEntry v.color c)
    let v := { v with col := v.col + 1 }
    if VGA_WIDTH ≤ v.col then vgaNextRow v else v

/-- The loop of `vga_puts`. -/
def vgaPutsFrom : Vga → List UInt8 → Vga
  | v, [] => v
  | v, c :: str => vgaPutsFrom (vgaPutc v c) str

def vgaPuts (v : Vga) (str : CString) : Vga := vgaPutsFrom v str.bytes

/-! ## What is printed, on a screen without a last row -/

/-- The character in the colour: the low and the high byte of a cell. -/
def cell (color c : UInt8) : UInt16 := UInt16.ofNat (256 * color.toNat + c.toNat)

def screenPutc (color : UInt8) (t : Screen UInt16) (c : UInt8) : Screen UInt16 :=
  if c = byteOf '\n' then t.newline
  else if c = byteOf '\r' then t.carriageReturn
  else if c = byteOf '\t' then t.tab VGA_WIDTH 4
  else t.put VGA_WIDTH (cell color c)

def screenPuts (color : UInt8) (t : Screen UInt16) (str : List UInt8) : Screen UInt16 :=
  str.foldl (screenPutc color) t

/-- An empty row: one that `vga_init` cleared is in the colour from before. -/
def freshRow (before color : UInt8) (r : Nat) : UInt16 :=
  cell (if r < VGA_HEIGHT then before else color) (byteOf ' ')

/-- The buffer as a screen. -/
def screen (v : Vga) : Screen UInt16 := ⟨fun r c => v.buffer (r * VGA_WIDTH + c), v.row, v.col⟩

variable {v v0 : Vga} {color c : UInt8} {i j n : Nat} {t : Screen UInt16}

theorem vgaEntry_eq (hc : c < 0x80) : vgaEntry color c = cell color c := by
  have hlt : c.toNat < 2 ^ 8 := c.toNat_lt
  have hword : charWord c = c.toUInt16 := if_pos hc
  apply UInt16.toNat_inj.mp
  have hcolor : color.toNat * 2 ^ 8 < 2 ^ 16 := by
    have := color.toNat_lt
    omega
  rw [vgaEntry, hword, UInt16.toNat_or, UInt16.toNat_shiftLeft, UInt8.toNat_toUInt16,
    UInt8.toNat_toUInt16, cell, UInt16.toNat_ofNat']
  have hshift : color.toNat <<< ((8 : UInt16).toNat % 16) % 2 ^ 16 = color.toNat * 2 ^ 8 := by
    rw [show (8 : UInt16).toNat % 16 = 8 from rfl, Nat.shiftLeft_eq, Nat.mod_eq_of_lt hcolor]
  rw [hshift, lor_low hlt, Nat.mod_eq_of_lt (by omega), Nat.mul_comm]
  rfl

/-! ## Indices -/

theorem index_lt {r c : Nat} (hr : r < VGA_HEIGHT) (hc : c < VGA_WIDTH) :
    r * VGA_WIDTH + c < VGA_WIDTH * VGA_HEIGHT := by
  unfold VGA_WIDTH VGA_HEIGHT at *
  omega

theorem index_inj {r r' c c' : Nat} (hc : c < VGA_WIDTH) (hc' : c' < VGA_WIDTH) :
    r * VGA_WIDTH + c = r' * VGA_WIDTH + c' ↔ r = r' ∧ c = c' := by
  unfold VGA_WIDTH at *
  omega

/-- A row that has another one below it is not the last one. -/
theorem index_lt_last {r c : Nat} (hr : r + 1 < VGA_HEIGHT) (hc : c < VGA_WIDTH) :
    r * VGA_WIDTH + c < (VGA_HEIGHT - 1) * VGA_WIDTH := by
  unfold VGA_WIDTH VGA_HEIGHT at *
  omega

/-! ## The loops -/

/-- A loop stores what was to be stored before it, if it reads nothing that it has written. -/
theorem storesFrom_eq {entry : Vga → Nat → UInt16}
    (hentry : ∀ v i e j, i < j → entry (v.store i e) j = entry v j) (n i : Nat) (v : Vga) :
    storesFrom entry n i v = { v with
      buffer := fun j => if i ≤ j ∧ j < i + n then entry v j else v.buffer j,
      written := (List.range' i n).reverse ++ v.written } := by
  induction n generalizing i v with
  | zero =>
    have hnone : ∀ j, ¬ (i ≤ j ∧ j < i + 0) := by omega
    simp only [storesFrom, hnone, if_false, List.range'_zero, List.reverse_nil, List.nil_append]
  | succ n ih =>
    rw [storesFrom, ih, List.range'_succ, List.reverse_cons, List.append_assoc,
      List.singleton_append]
    simp only [Vga.store, Vga.mk.injEq, and_true]
    funext j
    by_cases hj : j = i
    · rw [hj, Function.update_self, if_neg (by omega), if_pos (by omega)]
    · rw [Function.update_of_ne hj]
      by_cases hin : i + 1 ≤ j ∧ j < i + 1 + n
      · rw [if_pos hin, if_pos (by omega)]
        exact hentry v i _ j hin.1
      · rw [if_neg hin, if_neg (by omega)]

theorem blankEntry_store (v : Vga) (i : Nat) (e : UInt16) (j : Nat) (_ : i < j) :
    blankEntry (v.store i e) j = blankEntry v j := rfl

/-- A row is read before it is written. -/
theorem entryBelow_store (v : Vga) (i : Nat) (e : UInt16) (j : Nat) (hij : i < j) :
    entryBelow (v.store i e) j = entryBelow v j :=
  Function.update_of_ne (by omega) ..

theorem storesFrom_blankEntry (n i : Nat) (v : Vga) : storesFrom blankEntry n i v = { v with
    buffer := fun j =>
      if i ≤ j ∧ j < i + n then vgaEntry v.color (byteOf ' ') else v.buffer j,
    written := (List.range' i n).reverse ++ v.written } :=
  storesFrom_eq blankEntry_store n i v

theorem storesFrom_entryBelow (n i : Nat) (v : Vga) : storesFrom entryBelow n i v = { v with
    buffer := fun j => if i ≤ j ∧ j < i + n then v.buffer (j + VGA_WIDTH) else v.buffer j,
    written := (List.range' i n).reverse ++ v.written } :=
  storesFrom_eq entryBelow_store n i v

/-- Every store since then was inside the buffer. -/
def StaysInside (before v : Vga) : Prop :=
  ∀ i ∈ v.written, i ∈ before.written ∨ i < VGA_WIDTH * VGA_HEIGHT

theorem StaysInside.range (h : StaysInside v0 v) {entry : Vga → Nat → UInt16}
    (hentry : ∀ v i e j, i < j → entry (v.store i e) j = entry v j)
    (hin : i + n ≤ VGA_WIDTH * VGA_HEIGHT) : StaysInside v0 (storesFrom entry n i v) := by
  intro j hj
  rw [storesFrom_eq hentry] at hj
  rcases List.mem_append.mp hj with hj | hj
  · obtain ⟨-, hlt⟩ := List.mem_range'_1.mp (List.mem_reverse.mp hj)
    exact .inr (Nat.lt_of_lt_of_le hlt hin)
  · exact h j hj

theorem StaysInside.store (h : StaysInside v0 v) (hin : i < VGA_WIDTH * VGA_HEIGHT)
    (entry : UInt16) : StaysInside v0 (v.store i entry) :=
  List.forall_mem_cons.mpr ⟨.inr hin, h⟩

/-! ## The window on the screen -/

/-- The console shows the screen in one colour, and has stayed inside its buffer. -/
structure Follows (before : Vga) (color : UInt8) (v : Vga) (t : Screen UInt16) : Prop where
  shows_screen : Shows VGA_HEIGHT VGA_WIDTH (freshRow before.color color) (screen v) t
  color_eq : v.color = color
  inside : StaysInside before v

theorem vgaScroll_inside (h : StaysInside v0 v) : StaysInside v0 (vgaScroll v) := by
  have hrows : StaysInside v0 (storesFrom entryBelow ((VGA_HEIGHT - 1) * VGA_WIDTH) 0 v) :=
    h.range entryBelow_store (by decide)
  exact hrows.range blankEntry_store (by decide)

theorem vgaScroll_col (v : Vga) : (vgaScroll v).col = v.col := by
  rw [vgaScroll, storesFrom_blankEntry, storesFrom_entryBelow]

theorem vgaScroll_color (v : Vga) : (vgaScroll v).color = v.color := by
  rw [vgaScroll, storesFrom_blankEntry, storesFrom_entryBelow]

/-- The rows move up. -/
theorem vgaScroll_shift (v : Vga) {r c : Nat} (hr : r + 1 < VGA_HEIGHT) (hc : c < VGA_WIDTH) :
    (vgaScroll v).buffer (r * VGA_WIDTH + c) = v.buffer ((r + 1) * VGA_WIDTH + c) := by
  have hin := index_lt_last hr hc
  rw [vgaScroll, storesFrom_blankEntry, storesFrom_entryBelow]
  simp only
  rw [if_neg (by omega), if_pos (by omega), Nat.add_right_comm, ← Nat.succ_mul]

/-- The last row is blank. -/
theorem vgaScroll_last (v : Vga) {c : Nat} (hc : c < VGA_WIDTH) :
    (vgaScroll v).buffer ((VGA_HEIGHT - 1) * VGA_WIDTH + c) = vgaEntry v.color (byteOf ' ') := by
  rw [vgaScroll, storesFrom_blankEntry, storesFrom_entryBelow]
  simp only
  rw [if_pos (by omega)]

theorem freshRow_below {before : UInt8} {r : Nat} (hr : VGA_HEIGHT ≤ r) :
    freshRow before color r = vgaEntry color (byteOf ' ') := by
  rw [freshRow, if_neg (Nat.not_lt.mpr hr), vgaEntry_eq (by decide)]

/-- A full console shows the next row once its rows have moved up. -/
theorem Follows.scrolled {w : Vga} (h : Follows v0 color v t) (hlast : v.row = VGA_HEIGHT - 1)
    (hshift : ∀ r, r + 1 < VGA_HEIGHT → ∀ c < VGA_WIDTH,
      w.buffer (r * VGA_WIDTH + c) = v.buffer ((r + 1) * VGA_WIDTH + c))
    (hblank : ∀ c < VGA_WIDTH,
      w.buffer ((VGA_HEIGHT - 1) * VGA_WIDTH + c) = vgaEntry color (byteOf ' '))
    (hcol : w.col = 0) (hcolor : w.color = color) (hinside : StaysInside v0 w) :
    Follows v0 color { w with row := VGA_HEIGHT - 1 } t.newline := by
  have hdown : t.row = t.top VGA_HEIGHT + v.row := h.shows_screen.row_eq
  have hscroll : Shows VGA_HEIGHT VGA_WIDTH (freshRow v0.color color)
      ⟨fun r c => w.buffer (r * VGA_WIDTH + c), v.row, 0⟩ t.newline := by
    refine h.shows_screen.scroll ?_ hshift fun c hc => ?_
    · exact congrArg Nat.succ hlast
    · rw [freshRow_below (by omega), ← hblank c hc, ← hlast]
      rfl
  refine ⟨?_, hcolor, hinside⟩
  rw [screen, hcol, ← hlast]
  exact hscroll

theorem Follows.nextRow (h : Follows v0 color v t) :
    Follows v0 color (vgaNextRow v) t.newline := by
  have hrow : v.row < VGA_HEIGHT := h.shows_screen.row_lt
  rw [vgaNextRow]
  by_cases hfull : VGA_HEIGHT ≤ v.row + 1
  · simp only [if_pos hfull]
    refine h.scrolled (by omega) (fun r hr c hc => ?_) (fun c hc => ?_) ?_ ?_ ?_
    · rw [vgaScroll_shift _ hr hc]
    · rw [vgaScroll_last _ hc, h.color_eq]
    · rw [vgaScroll_col]
    · rw [vgaScroll_color, h.color_eq]
    · exact vgaScroll_inside h.inside
  · simp only [if_neg hfull]
    exact ⟨h.shows_screen.nextRow (Nat.lt_of_not_le hfull), h.color_eq, h.inside⟩

/-- The cursor goes to a column, or to the next row behind the last one. -/
theorem Follows.moveTo (h : Follows v0 color v t) (col : Nat) :
    Follows v0 color
      (if VGA_WIDTH ≤ col then vgaNextRow { v with col := col } else { v with col := col })
      (t.moveTo VGA_WIDTH col) := by
  rw [Screen.moveTo]
  by_cases hcol : VGA_WIDTH ≤ col
  · rw [if_pos hcol, if_neg (Nat.not_lt.mpr hcol)]
    exact h.nextRow
  · have hlt := Nat.lt_of_not_le hcol
    rw [if_neg hcol, if_pos hlt]
    exact ⟨h.shows_screen.toCol hlt, h.color_eq, h.inside⟩

/-- A character is stored at the cursor. -/
theorem Follows.store (h : Follows v0 color v t) (hc : c < 0x80) :
    Follows v0 color (v.store (v.row * VGA_WIDTH + v.col) (vgaEntry v.color c))
      (t.set (cell color c)) := by
  have hrow : v.row < VGA_HEIGHT := h.shows_screen.row_lt
  have hcol : v.col < VGA_WIDTH := h.shows_screen.col_lt
  refine ⟨h.shows_screen.set fun r hr c' hc' => ?_, h.color_eq, h.inside.store ?_ _⟩
  · rw [h.color_eq, vgaEntry_eq hc, Vga.store]
    simp only [Function.update_apply, index_inj hc' hcol]
    rfl
  · exact index_lt hrow hcol

theorem Follows.putc (h : Follows v0 color v t) (hc : c < 0x80) :
    Follows v0 color (vgaPutc v c) (screenPutc color t c) := by
  have hcol : t.col = v.col := h.shows_screen.col_eq
  rw [vgaPutc, screenPutc]
  by_cases hnew : c = byteOf '\n'
  · rw [if_pos hnew, if_pos hnew]
    exact h.nextRow
  rw [if_neg hnew, if_neg hnew]
  by_cases hret : c = byteOf '\r'
  · rw [if_pos hret, if_pos hret]
    exact ⟨h.shows_screen.toCol (Nat.succ_pos _), h.color_eq, h.inside⟩
  rw [if_neg hret, if_neg hret]
  by_cases htab : c = byteOf '\t'
  · have hstop : (v.col + 4) &&& (2 ^ 32 - 2 ^ 2) = (t.col / 4 + 1) * 4 := by
      have hlt : v.col < 80 := h.shows_screen.col_lt
      rw [land_high_mask (by omega) (by decide), hcol]
      omega
    rw [if_pos htab, if_pos htab, Screen.tab, ← hstop]
    exact h.moveTo _
  · rw [if_neg htab, if_neg htab, Screen.put, hcol]
    exact (h.store hc).moveTo _

theorem Follows.putsFrom (h : Follows v0 color v t) {str : List UInt8}
    (hstr : ∀ c ∈ str, c < 0x80) :
    Follows v0 color (vgaPutsFrom v str) (screenPuts color t str) := by
  induction str generalizing v t with
  | nil => exact h
  | cons c str ih =>
    obtain ⟨hc, hrest⟩ := List.forall_mem_cons.mp hstr
    exact ih (h.putc hc) hrest

/-- An empty screen in any colour. -/
theorem follows_vgaInit (v : Vga) (fg bg : UInt8) :
    Follows v (vgaColor fg bg) (vgaSetColor (vgaInit v) fg bg)
      (Screen.blank (freshRow v.color (vgaColor fg bg))) := by
  have hbefore : StaysInside v v := fun _ hi => .inl hi
  have hinside : StaysInside v (vgaClear v) := hbefore.range blankEntry_store (by decide)
  have hclear : ∀ r < VGA_HEIGHT, ∀ c < VGA_WIDTH,
      (vgaClear v).buffer (r * VGA_WIDTH + c) = freshRow v.color (vgaColor fg bg) r := by
    intro r hr c hc
    have hin := index_lt hr hc
    rw [vgaClear, storesFrom_blankEntry]
    simp only
    rw [if_pos (by omega), freshRow, if_pos hr, vgaEntry_eq (by decide)]
  rw [vgaSetColor, vgaInit]
  generalize vgaClear v = w at *
  exact ⟨shows_blank (by decide) (by decide) hclear, rfl, hinside⟩

/-- **The console shows the end of an unbounded screen.** After `vga_init`, in any one colour,
every string of ASCII characters leaves the last rows of what it prints on a screen without a
last row, with the cursor at the same place, and only the buffer is written. -/
theorem vgaPuts_shows (v : Vga) (fg bg : UInt8) (str : CString)
    (hstr : ∀ c ∈ str.bytes, c < 0x80) :
    Shows VGA_HEIGHT VGA_WIDTH (freshRow v.color (vgaColor fg bg))
        (screen (vgaPuts (vgaSetColor (vgaInit v) fg bg) str))
        (screenPuts (vgaColor fg bg) (Screen.blank (freshRow v.color (vgaColor fg bg)))
          str.bytes) ∧
      ∀ i ∈ (vgaPuts (vgaSetColor (vgaInit v) fg bg) str).written,
        i ∈ v.written ∨ i < VGA_WIDTH * VGA_HEIGHT := by
  have h := (follows_vgaInit v fg bg).putsFrom hstr
  exact ⟨h.shows_screen, h.inside⟩

theorem freshRow_self (color : UInt8) :
    freshRow color color = fun _ => cell color (byteOf ' ') := by
  funext r
  rw [freshRow, ite_self]

/-- A letter more than there is room for in a row, and as many line ends as there are rows. -/
def longText : CString :=
  ⟨List.replicate (VGA_WIDTH + 1) (byteOf 'a') ++ List.replicate VGA_HEIGHT (byteOf '\n'),
    by decide⟩

/-- In light grey, as the console starts: the line is wrapped, and the screen scrolls. -/
theorem vgaPuts_shows_line :
    Shows VGA_HEIGHT VGA_WIDTH (fun _ => cell 7 (byteOf ' '))
        (screen (vgaPuts (vgaSetColor (vgaInit ⟨fun _ => 0, 0, 0, 7, []⟩) 7 0) longText))
        (screenPuts 7 (Screen.blank fun _ => cell 7 (byteOf ' ')) longText.bytes) ∧
      ∀ i ∈ (vgaPuts (vgaSetColor (vgaInit ⟨fun _ => 0, 0, 0, 7, []⟩) 7 0) longText).written,
        i < VGA_WIDTH * VGA_HEIGHT := by
  obtain ⟨hshows, hinside⟩ := vgaPuts_shows ⟨fun _ => 0, 0, 0, 7, []⟩ 7 0 longText
    (forall_of_all (by decide))
  rw [show vgaColor 7 0 = 7 by decide, freshRow_self] at hshows
  exact ⟨hshows, fun i hi => (hinside i hi).resolve_left List.not_mem_nil⟩

end SynapseKernel.Console
