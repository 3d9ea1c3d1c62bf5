import Mathlib.Algebra.Ring.Int.Defs
import Mathlib.Algebra.Ring.Nat
import Mathlib.Data.List.TakeWhile
import Mathlib.Data.List.Infix
import Mathlib.Data.Int.Basic

/-!
# Lib — Decimal

Decimal numerals as strings of bytes: how they are written, and how `strtol` in base ten reads
them.

* `render` writes a natural number, `renderInt` an integer; both are injective, and their bytes are
  digits and at most a leading minus sign.
* `strtol` skips space, takes a sign and reads the digits that follow; it reads a number exactly
  from the strings of the form `Numeral` (`strtol_eq_some_iff`).
* `strtol_renderInt`: what was written is read back, whatever follows it that is no digit.
-/

namespace Decimal

/-- The bytes of an ASCII string. -/
def ascii (s : String) : List UInt8 := s.toList.map Char.toUInt8

def isDigit (b : UInt8) : Bool := 48 ≤ b && b ≤ 57

def isSpace (b : UInt8) : Bool := b == 32 || 9 ≤ b && b ≤ 13

/-- `n` written in decimal. -/
def render (n : Nat) : List UInt8 := (Nat.toDigits 10 n).map Char.toUInt8

/-- An integer written in decimal: a minus sign before the digits of a negative one. -/
def renderInt : Int → List UInt8
  | .ofNat n => render n
  | .negSucc n => 45 :: render (n + 1)

/-- The number a string of digits stands for. -/
def value (ds : List UInt8) : Nat := ds.foldl (fun v b => 10 * v + (b.toNat - 48)) 0

/-! ### Writing -/

/-- A digit is one byte, of the same code. -/
theorem toUInt8_digit {c : Char} (h : c.isDigit = true) :
    c.toUInt8.toNat = c.toNat ∧ isDigit c.toUInt8 = true := by
  simp only [Char.isDigit, Bool.and_eq_true, decide_eq_true_eq, ge_iff_le, UInt32.le_iff_toNat_le]
    at h
  have hlt : c.val.toNat < 256 := lt_of_le_of_lt h.2 (by decide)
  have hn : c.toUInt8.toNat = c.toNat := by
    rw [Char.toUInt8, UInt32.toNat_toUInt8]
    exact Nat.mod_eq_of_lt hlt
  refine ⟨hn, ?_⟩
  simp only [isDigit, Bool.and_eq_true, decide_eq_true_eq, UInt8.le_iff_toNat_le, hn]
  exact h

theorem isDigit_of_mem_render {n : Nat} {b : UInt8} (h : b ∈ render n) : isDigit b = true := by
  obtain ⟨c, hc, rfl⟩ := List.mem_map.mp h
  exact (toUInt8_digit (Nat.isDigit_of_mem_toDigits (by decide) (by decide) hc)).2

theorem render_ne_nil (n : Nat) : render n ≠ [] := by
  rw [render, ne_eq, List.map_eq_nil_iff]
  exact Nat.toDigits_ne_nil

theorem length_render_le_iff {n k : Nat} (hk : 0 < k) : (render n).length ≤ k ↔ n < 10 ^ k := by
  rw [render, List.length_map]
  exact Nat.length_toDigits_le_iff (by decide) hk

/-- **The digits of a number stand for it.** -/
theorem value_render (n : Nat) : value (render n) = n := by
  have key : ∀ (l : List Char) (v : Nat), (∀ c ∈ l, c.isDigit = true) →
      (l.map Char.toUInt8).foldl (fun v b => 10 * v + (b.toNat - 48)) v =
        l.foldl (fun v c => 10 * v + (c.toNat - '0'.toNat)) v := by
    intro l
    induction l with
    | nil => intro v _; rfl
    | cons c l ih =>
        intro v h
        rw [List.map_cons, List.foldl_cons, List.foldl_cons,
          (toUInt8_digit (h c List.mem_cons_self)).1]
        exact ih _ fun d hd => h d (List.mem_cons_of_mem c hd)
  rw [value, render, key _ _ fun c hc => Nat.isDigit_of_mem_toDigits (by decide) (by decide) hc]
  rw [← Nat.ofDigitChars_eq_foldl]
  exact Nat.ofDigitChars_ten_toDigits

/-- Every byte of a written integer is a digit or the minus sign. -/
theorem mem_renderInt {i : Int} {b : UInt8} (h : b ∈ renderInt i) : isDigit b = true ∨ b = 45 := by
  cases i with
  | ofNat n => exact .inl (isDigit_of_mem_render h)
  | negSucc n =>
      rcases List.mem_cons.mp h with rfl | h
      · exact .inr rfl
      · exact .inl (isDigit_of_mem_render h)

/-! ### Reading -/

/-- The sign before a numeral, and what follows it. -/
def sign : List UInt8 → Int × List UInt8
  | 45 :: s => (-1, s)
  | 43 :: s => (1, s)
  | s => (1, s)

/-- The number at the beginning of `s`, after any space; `none` where there is no digit. -/
def strtol (s : List UInt8) : Option Int :=
  let t := sign (s.dropWhile isSpace)
  let ds := t.2.takeWhile isDigit
  if ds = [] then none else some (t.1 * value ds)

/-- The signs. -/
inductive Sign : List UInt8 → Int → Prop where
  | none : Sign [] 1
  | plus : Sign [43] 1
  | minus : Sign [45] (-1)

/-- `s` begins with a numeral of value `v`: space, a sign, digits, and then no further digit. -/
def Numeral (s : List UInt8) (v : Int) : Prop :=
  ∃ space sg ds rest k, s = space ++ (sg ++ (ds ++ rest)) ∧ (∀ b ∈ space, isSpace b = true) ∧
    Sign sg k ∧ ds ≠ [] ∧ (∀ b ∈ ds, isDigit b = true) ∧ (∀ b ∈ rest.head?, isDigit b = false) ∧
    v = k * value ds

/-- A sign is taken off, unless what follows is no digit. -/
theorem sign_spec (s : List UInt8) : ∃ sg, s = sg ++ (sign s).2 ∧ Sign sg (sign s).1 := by
  unfold sign
  split
  · exact ⟨[45], rfl, .minus⟩
  · exact ⟨[43], rfl, .plus⟩
  · exact ⟨[], rfl, .none⟩

theorem sign_append {sg : List UInt8} {k : Int} (h : Sign sg k) {b : UInt8} {s : List UInt8}
    (hb : isDigit b = true) : sign (sg ++ b :: s) = (k, b :: s) := by
  cases h with
  | none =>
      have h₁ : b ≠ 45 := by rintro rfl; cases hb
      have h₂ : b ≠ 43 := by rintro rfl; cases hb
      rw [List.nil_append, sign]
      · exact fun _ e => h₁ (List.cons.inj e).1
      · exact fun _ e => h₂ (List.cons.inj e).1
  | plus => rfl
  | minus => rfl

/-- Space ends where a sign or a digit stands. -/
theorem head_not_space {sg : List UInt8} {k : Int} (h : Sign sg k) {b : UInt8} {s : List UInt8}
    (hb : isDigit b = true) : ∀ c ∈ (sg ++ b :: s).head?, isSpace c = false := by
  cases h with
  | none =>
      simp only [List.nil_append, List.head?_cons, Option.mem_def, Option.some.injEq, forall_eq']
      simp only [isDigit, Bool.and_eq_true, decide_eq_true_eq, UInt8.le_iff_toNat_le] at hb
      have : (48 : UInt8).toNat = 48 := rfl
      have h32 : b ≠ 32 := by rintro rfl; simp at hb
      simp only [isSpace, beq_eq_false_iff_ne.mpr h32, Bool.false_or, Bool.and_eq_false_iff,
        decide_eq_false_iff_not, UInt8.le_iff_toNat_le]
      have : (13 : UInt8).toNat = 13 := rfl
      omega
  | plus => simp [isSpace]
  | minus => simp [isSpace]

theorem dropWhile_append_of_head {α : Type*} {p : α → Bool} {l r : List α}
    (hl : ∀ a ∈ l, p a = true) (hr : ∀ a ∈ r.head?, p a = false) : (l ++ r).dropWhile p = r := by
  rw [List.dropWhile_append_of_pos hl]
  cases r with
  | nil => rfl
  | cons a r => rw [List.dropWhile_cons_of_neg (by simpa using hr a rfl)]

theorem takeWhile_append_of_head {α : Type*} {p : α → Bool} {l r : List α}
    (hl : ∀ a ∈ l, p a = true) (hr : ∀ a ∈ r.head?, p a = false) : (l ++ r).takeWhile p = l := by
  rw [List.takeWhile_append_of_pos hl]
  cases r with
  | nil => simp
  | cons a r => rw [List.takeWhile_cons_of_neg (by simpa using hr a rfl), List.append_nil]

/-- **What `strtol` reads**: exactly the strings that begin with a numeral. -/
theorem strtol_eq_some_iff {s : List UInt8} {v : Int} : strtol s = some v ↔ Numeral s v := by
  constructor
  · intro h
    simp only [strtol] at h
    split at h
    · cases h
    · rename_i hne
      obtain ⟨sg, hsg, hk⟩ := sign_spec (s.dropWhile isSpace)
      refine ⟨s.takeWhile isSpace, sg, _, (sign (s.dropWhile isSpace)).2.dropWhile isDigit, _, ?_,
        fun b hb => List.mem_takeWhile_imp hb, hk, hne, fun b hb => List.mem_takeWhile_imp hb, ?_,
        (Option.some.inj h).symm⟩
      · rw [List.takeWhile_append_dropWhile, ← hsg, List.takeWhile_append_dropWhile]
      · intro b hb
        have := List.head?_dropWhile_not isDigit (sign (s.dropWhile isSpace)).2
        rw [Option.mem_def.mp hb] at this
        exact this
  · rintro ⟨space, sg, ds, rest, k, rfl, hspace, hsg, hne, hds, hrest, rfl⟩
    obtain ⟨b, bs, rfl⟩ := List.exists_cons_of_ne_nil hne
    have hb := hds b List.mem_cons_self
    have hdrop : (space ++ (sg ++ (b :: bs ++ rest))).dropWhile isSpace = sg ++ (b :: bs ++ rest) :=
      dropWhile_append_of_head hspace (head_not_space hsg hb)
    have htake : (b :: bs ++ rest).takeWhile isDigit = b :: bs := takeWhile_append_of_head hds hrest
    have hsign : sign (sg ++ (b :: bs ++ rest)) = (k, b :: bs ++ rest) := sign_append hsg hb
    simp only [strtol, hdrop, hsign, htake]
    rw [if_neg hne]

/-- **A written integer is read back**, whatever follows it that is no digit. -/
theorem strtol_renderInt (i : Int) (rest : List UInt8)
    (hrest : ∀ b ∈ rest.head?, isDigit b = false) : strtol (renderInt i ++ rest) = some i := by
  rw [strtol_eq_some_iff]
  have hspace : ∀ b ∈ ([] : List UInt8), isSpace b = true := by simp
  cases i with
  | ofNat n =>
      refine ⟨[], [], render n, rest, 1, rfl, hspace, .none, render_ne_nil n,
        fun b hb => isDigit_of_mem_render hb, hrest, ?_⟩
      rw [value_render, Int.one_mul]
      rfl
  | negSucc n =>
      refine ⟨[], [45], render (n + 1), rest, -1, rfl, hspace, .minus, render_ne_nil _,
        fun b hb => isDigit_of_mem_render hb, hrest, ?_⟩
      rw [value_render, Int.neg_one_mul]
      rfl

theorem renderInt_injective : Function.Injective renderInt := by
  intro i j h
  have hi := strtol_renderInt i [] (by simp)
  rw [h, strtol_renderInt j [] (by simp)] at hi
  exact (Option.some.inj hi).symm

end Decimal
