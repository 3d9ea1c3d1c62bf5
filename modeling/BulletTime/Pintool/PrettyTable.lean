import Mathlib.Data.List.DropRight
import BulletTime.Lib.Decimal

/-!
# Pintool — PrettyTable

A table of texts, printed in columns as wide as their widest cell.

* `PrettyTable`: the widths, with what the constructor and `add_row` keep of them as fields.
* `print`: the header, a line of dashes and the rows.
* `read`: the columns cut where the dashes say, without the blanks that pad them.
* `read_print`: a printed table is read back, cell by cell, whatever bars and blanks are inside.
-/

namespace BulletTime.Pintool
open Decimal (ascii)

/-! ### The table -/

/-- A row, cell by cell; a missing cell is empty. -/
abbrev Row := List (List UInt8)

/-- The widths, with those that the cells of a row exceed raised. -/
def widen : List ℕ → Row → List ℕ
  | [], _ => []
  | w :: ws, row => max w (row.headD []).length :: widen ws row.tail

/-- No cell of the row is wider than its column. -/
def Fits : List ℕ → Row → Prop
  | [], _ => True
  | w :: ws, row => (row.headD []).length ≤ w ∧ Fits ws row.tail

theorem length_widen (ws : List ℕ) (row : Row) : (widen ws row).length = ws.length := by
  induction ws generalizing row with
  | nil => rfl
  | cons w ws ih => exact congrArg (· + 1) (ih row.tail)

theorem fits_widen (ws : List ℕ) (row : Row) : Fits (widen ws row) row := by
  induction ws generalizing row with
  | nil => trivial
  | cons w ws ih => exact ⟨le_max_right _ _, ih row.tail⟩

/-- Widths only grow. -/
theorem Fits.widen {ws : List ℕ} {row : Row} (h : Fits ws row) (row' : Row) :
    Fits (widen ws row') row := by
  induction ws generalizing row row' with
  | nil => trivial
  | cons w ws ih => exact ⟨h.1.trans (le_max_left _ _), ih h.2 row'.tail⟩

theorem fits_lengths (row : Row) : Fits (row.map List.length) row := by
  induction row with
  | nil => trivial
  | cons c row ih => exact ⟨le_rfl, ih⟩

/-- `PrettyTable`: one width for each header, and no cell wider than its column. -/
structure PrettyTable where
  headers : Row
  widths : List ℕ
  rows : List Row := []
  length_widths : widths.length = headers.length
  fits : ∀ row ∈ headers :: rows, Fits widths row

namespace PrettyTable

/-- The constructor. -/
def new (headers : Row) : PrettyTable where
  headers := headers
  widths := headers.map List.length
  length_widths := List.length_map _
  fits := by
    intro row hrow
    obtain rfl := List.mem_singleton.mp hrow
    exact fits_lengths row

/-- `add_row`. -/
def addRow (t : PrettyTable) (row : Row) : PrettyTable where
  headers := t.headers
  widths := widen t.widths row
  rows := t.rows ++ [row]
  length_widths := (length_widen _ _).trans t.length_widths
  fits := by
    intro row' hrow'
    rw [← List.cons_append] at hrow'
    rcases List.mem_append.mp hrow' with h | h
    · exact (t.fits row' h).widen row
    · obtain rfl := List.mem_singleton.mp h
      exact fits_widen t.widths row'

/-! ### Printing -/

/-- A cell, `std::left` in a field of width `w`. -/
def padded (w : ℕ) (c : List UInt8) : List UInt8 := c ++ List.replicate (w - c.length) 32

/-- The cells of a row. -/
def cells : List ℕ → Row → List UInt8
  | [], _ => []
  | w :: ws, row => padded w (row.headD []) ++ ascii " | " ++ cells ws row.tail

/-- `_print_row`, up to the end of the line. -/
def rowLine (widths : List ℕ) (row : Row) : List UInt8 := ascii "| " ++ cells widths row

/-- `_print_separator`, up to the end of the line. -/
def separatorLine (widths : List ℕ) : List UInt8 :=
  ascii "|" ++ widths.flatMap fun w => List.replicate (w + 2) 45 ++ ascii "|"

/-- `print`. -/
def print (t : PrettyTable) : List UInt8 :=
  rowLine t.widths t.headers ++ ascii "\n" ++ (separatorLine t.widths ++ ascii "\n") ++
    t.rows.flatMap fun row => rowLine t.widths row ++ ascii "\n"

/-! ### Reading -/

/-- The text without the blanks at its end. -/
def trimEnd (c : List UInt8) : List UInt8 := c.rdropWhile (· == 32)

def readCells : List ℕ → List UInt8 → Row
  | [], _ => []
  | w :: ws, line => trimEnd (line.take w) :: readCells ws (line.drop (w + 3))

def readRow (widths : List ℕ) (line : List UInt8) : Row := readCells widths (line.drop 2)

/-- The widths of the columns, between the bars of the line of dashes. -/
def readWidths (line : List UInt8) : List ℕ :=
  (line.splitOn 124).tail.dropLast.map fun dashes => dashes.length - 2

/-- The headers and the rows of a printed table. -/
def read (out : List UInt8) : Option (Row × List Row) :=
  match out.splitOn 10 with
  | header :: dashes :: rows =>
      some (readRow (readWidths dashes) header, rows.dropLast.map (readRow (readWidths dashes)))
  | _ => none

theorem splitOn_flatMap {α β : Type*} [BEq α] [LawfulBEq α] {a : α} {f : β → List α} {l : List β}
    (h : ∀ b ∈ l, a ∉ f b) : (l.flatMap fun b => f b ++ [a]).splitOn a = l.map f ++ [[]] := by
  induction l with
  | nil => exact List.splitOn_nil a
  | cons b l ih =>
      rw [List.flatMap_cons, List.append_assoc, List.singleton_append,
        List.splitOn_append_cons_self, ih fun c hc => h c (List.mem_cons_of_mem b hc),
        List.splitOn_eq_singleton (h b List.mem_cons_self)]
      rfl

theorem readWidths_separatorLine (ws : List ℕ) : readWidths (separatorLine ws) = ws := by
  have hbars := splitOn_flatMap (a := 124) (f := fun w => List.replicate (w + 2) (45 : UInt8))
    (l := ws) fun w _ h => by simpa using List.eq_of_mem_replicate h
  have hline : separatorLine ws =
      [] ++ 124 :: ws.flatMap fun w => List.replicate (w + 2) 45 ++ [124] := rfl
  rw [readWidths, hline, List.splitOn_append_cons_self, hbars, List.splitOn_nil,
    List.singleton_append, List.tail_cons, List.dropLast_concat, List.map_map]
  simp [Function.comp_def]

theorem length_padded {w : ℕ} {c : List UInt8} (h : c.length ≤ w) : (padded w c).length = w := by
  simp [padded, h]

theorem trimEnd_padded (w : ℕ) (c : List UInt8) : trimEnd (padded w c) = trimEnd c := by
  unfold trimEnd padded
  induction w - c.length with
  | zero => simp
  | succ n ih =>
      rw [List.replicate_succ', ← List.append_assoc, List.rdropWhile_concat_pos _ _ _ rfl, ih]

/-- The cells of a row that fits are read back. -/
theorem readCells_cells {ws : List ℕ} {row : Row} (h : Fits ws row)
    (hlen : row.length = ws.length) : readCells ws (cells ws row) = row.map trimEnd := by
  induction ws generalizing row with
  | nil => rw [List.length_eq_zero_iff.mp hlen]; rfl
  | cons w ws ih =>
      obtain _ | ⟨c, row⟩ := row
      · cases hlen
      · obtain ⟨hc, hrest⟩ : c.length ≤ w ∧ Fits ws row := h
        have hline : cells (w :: ws) (c :: row) =
            padded w c ++ (ascii " | " ++ cells ws row) := List.append_assoc ..
        have hdrop : (cells (w :: ws) (c :: row)).drop (w + 3) = cells ws row := by
          rw [hline, ← List.drop_drop, List.drop_left' (length_padded hc)]
          rfl
        rw [readCells, hdrop, hline, List.take_left' (length_padded hc), trimEnd_padded,
          ih hrest (Nat.succ.inj hlen)]
        rfl

/-- Cells without a line break make a line without one. -/
theorem newline_notMem_cells (ws : List ℕ) {row : Row} (h : ∀ c ∈ row, 10 ∉ c) :
    10 ∉ cells ws row := by
  induction ws generalizing row with
  | nil => exact List.not_mem_nil
  | cons w ws ih =>
      have hhead : 10 ∉ row.headD [] := by
        cases row with
        | nil => exact List.not_mem_nil
        | cons c row => exact h c List.mem_cons_self
      have hrest := ih fun c hc => h c (List.mem_of_mem_tail hc)
      simp only [cells, padded, List.mem_append, List.mem_replicate, not_or, not_and]
      exact ⟨⟨⟨hhead, fun _ => by decide⟩, by decide⟩, hrest⟩

theorem newline_notMem_separatorLine (ws : List ℕ) : 10 ∉ separatorLine ws := by
  have hbar : ascii "|" = [124] := rfl
  simp [separatorLine, hbar, List.mem_replicate]

theorem readRow_rowLine {ws : List ℕ} {row : Row} (h : Fits ws row)
    (hlen : row.length = ws.length) : readRow ws (rowLine ws row) = row.map trimEnd :=
  readCells_cells h hlen

/-- **A printed table is read back**: the headers and every row, cell by cell. -/
theorem read_print (t : PrettyTable) (hlen : ∀ row ∈ t.rows, row.length = t.headers.length)
    (hline : ∀ row ∈ t.headers :: t.rows, ∀ c ∈ row, 10 ∉ c) :
    read t.print = some (t.headers.map trimEnd, t.rows.map fun row => row.map trimEnd) := by
  have hrow : ∀ row ∈ t.headers :: t.rows, 10 ∉ rowLine t.widths row := by
    intro row hr
    rw [rowLine, List.mem_append, not_or]
    exact ⟨by decide, newline_notMem_cells t.widths (hline row hr)⟩
  have hrows := splitOn_flatMap (a := 10) (f := rowLine t.widths) (l := t.rows)
    fun row hr => hrow row (List.mem_cons_of_mem _ hr)
  have hprint : t.print = rowLine t.widths t.headers ++ 10 :: (separatorLine t.widths ++
      10 :: t.rows.flatMap fun row => rowLine t.widths row ++ [10]) := by
    simp [print, show ascii "\n" = [10] from rfl]
  rw [read, hprint, List.splitOn_append_cons_self, List.splitOn_append_cons_self, hrows,
    List.splitOn_eq_singleton (hrow _ List.mem_cons_self),
    List.splitOn_eq_singleton (newline_notMem_separatorLine _)]
  simp only [List.singleton_append, readWidths_separatorLine, List.dropLast_concat, List.map_map]
  rw [readRow_rowLine (t.fits _ List.mem_cons_self) t.length_widths.symm]
  congr 2
  refine List.map_congr_left fun row hr => ?_
  exact readRow_rowLine (t.fits row (List.mem_cons_of_mem _ hr))
    ((hlen row hr).trans t.length_widths.symm)

end PrettyTable

end BulletTime.Pintool
