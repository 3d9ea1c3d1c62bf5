import Mathlib.Data.List.Basic

/-!
# Lib — Options

The arguments of a program, read from the left by a loop that takes a value along with some words.

* `scan`: the loop.  A word is an option, whose value is the next word, it stands for itself, or it
  stops the loop.
* `Reads`: the arguments taken apart, in one way (`Reads.unique`); `scan_ok_iff` says that the loop
  succeeds on what can be taken apart with each part accepted in turn.
* `foldlM_ok_iff` and `foldlM_field`: what a run over the parts accepts, and that a variable has the
  value of the last part that sets it.
-/

namespace Options

universe u

variable {ω : Type*} {α σ ε : Type u}

/-- What the loop makes of a word. -/
inductive Kind (ω : Type*) where
  | value (o : ω)
  | plain
  | stop

/-- A part of the arguments: an option with its value, or a word by itself. -/
inductive Item (ω α : Type*) where
  | value (o : ω) (v : α)
  | plain (w : α)
  deriving DecidableEq

/-- The loop, and what stands from the word that stops it on. -/
def scan (kind : α → Kind ω) (missing : ω → ε) (step : σ → Item ω α → Except ε σ) :
    σ → List α → Except ε (σ × List α)
  | s, [] => .ok (s, [])
  | s, [w] =>
      match kind w with
      | .value o => .error (missing o)
      | .plain => do return (← step s (.plain w), [])
      | .stop => .ok (s, [w])
  | s, w :: v :: args =>
      match kind w with
      | .value o => do scan kind missing step (← step s (.value o v)) args
      | .plain => do scan kind missing step (← step s (.plain w)) (v :: args)
      | .stop => .ok (s, w :: v :: args)

/-- The arguments are `its`, and `rest` from a word on that stops the loop. -/
inductive Reads (kind : α → Kind ω) : List α → List (Item ω α) → List α → Prop where
  | nil : Reads kind [] [] []
  | stop {w : α} {rest : List α} (h : kind w = .stop) : Reads kind (w :: rest) [] (w :: rest)
  | value {w v : α} {o : ω} {args rest : List α} {its : List (Item ω α)} (h : kind w = .value o)
      (r : Reads kind args its rest) : Reads kind (w :: v :: args) (.value o v :: its) rest
  | plain {w : α} {args rest : List α} {its : List (Item ω α)} (h : kind w = .plain)
      (r : Reads kind args its rest) : Reads kind (w :: args) (.plain w :: its) rest

/-! ### The loop -/

section Scan
variable {kind : α → Kind ω} {missing : ω → ε} {step : σ → Item ω α → Except ε σ} {s t : σ}
  {args rest : List α} {its : List (Item ω α)}

theorem bind_eq_ok {β : Type u} {x : Except ε α} {f : α → Except ε β} {b : β} :
    x >>= f = .ok b ↔ ∃ a, x = .ok a ∧ f a = .ok b := by
  cases x with
  | error e => exact iff_of_false nofun (by rintro ⟨a, ha, -⟩; cases ha)
  | ok a =>
      constructor
      · intro h
        exact ⟨a, rfl, h⟩
      · rintro ⟨_, ha, h⟩
        cases ha
        exact h

theorem ok_eq_ok_iff {a b : α} : (Except.ok a : Except ε α) = .ok b ↔ b = a :=
  ⟨fun h => (Except.ok.inj h).symm, fun h => congrArg Except.ok h.symm⟩

theorem foldlM_cons_ok {ι : Type*} {step : σ → ι → Except ε σ} {a : ι} {its : List ι} :
    (a :: its).foldlM step s = .ok t ↔ ∃ s', step s a = .ok s' ∧ its.foldlM step s' = .ok t := by
  rw [List.foldlM_cons, bind_eq_ok]

/-- On a word by itself the loop takes it and goes on. -/
theorem scan_plain {w : α} (h : kind w = .plain) (args : List α) :
    scan kind missing step s (w :: args) =
      step s (.plain w) >>= fun s => scan kind missing step s args := by
  cases args with
  | nil => rw [scan, h]; rfl
  | cons v args => rw [scan, h]

/-- What is taken apart is read. -/
theorem Reads.scan_ok (r : Reads kind args its rest) :
    ∀ {s t : σ}, its.foldlM step s = .ok t → scan kind missing step s args = .ok (t, rest) := by
  induction r with
  | nil =>
      intro s t h
      cases h
      rfl
  | @stop w rest hw =>
      intro s t h
      cases h
      cases rest with
      | nil => rw [scan, hw]
      | cons v rest => rw [scan, hw]
  | value hw r ih =>
      intro s t h
      obtain ⟨s', hs, h⟩ := foldlM_cons_ok.mp h
      rw [scan, hw]
      exact bind_eq_ok.mpr ⟨s', hs, ih h⟩
  | plain hw r ih =>
      intro s t h
      obtain ⟨s', hs, h⟩ := foldlM_cons_ok.mp h
      rw [scan_plain hw]
      exact bind_eq_ok.mpr ⟨s', hs, ih h⟩

/-- The loop goes on to the end, or to a word that stops it. -/
theorem Reads.head_rest (r : Reads kind args its rest) : ∀ w ∈ rest.head?, kind w = .stop := by
  induction r with
  | nil => simp
  | stop h => simpa using h
  | value _ _ ih => exact ih
  | plain _ _ ih => exact ih

/-- The arguments are taken apart in one way. -/
theorem Reads.unique {its' : List (Item ω α)} {rest' : List α} (r : Reads kind args its rest)
    (r' : Reads kind args its' rest') : its = its' ∧ rest = rest' := by
  induction r generalizing its' with
  | nil =>
      cases r'
      exact ⟨rfl, rfl⟩
  | stop h =>
      cases r' with
      | stop _ => exact ⟨rfl, rfl⟩
      | value h' _ => cases h.symm.trans h'
      | plain h' _ => cases h.symm.trans h'
  | value h _ ih =>
      cases r' with
      | stop h' => cases h.symm.trans h'
      | value h' r' =>
          cases h.symm.trans h'
          obtain ⟨rfl, rfl⟩ := ih r'
          exact ⟨rfl, rfl⟩
      | plain h' _ => cases h.symm.trans h'
  | plain h _ ih =>
      cases r' with
      | stop h' => cases h.symm.trans h'
      | value h' _ => cases h.symm.trans h'
      | plain _ r' =>
          obtain ⟨rfl, rfl⟩ := ih r'
          exact ⟨rfl, rfl⟩

/-- **What the loop accepts**: what can be taken apart, each part accepted in turn. -/
theorem scan_ok_iff : scan kind missing step s args = .ok (t, rest) ↔
    ∃ its, Reads kind args its rest ∧ its.foldlM step s = .ok t := by
  refine ⟨fun h => ?_, fun ⟨its, r, h⟩ => r.scan_ok h⟩
  fun_induction scan kind missing step s args with
  | case1 s =>
      cases h
      exact ⟨[], .nil, rfl⟩
  | case2 s w o hw => cases h
  | case3 s w hw =>
      obtain ⟨s', hs, h⟩ := bind_eq_ok.mp h
      cases h
      exact ⟨[.plain w], .plain hw .nil, foldlM_cons_ok.mpr ⟨t, hs, rfl⟩⟩
  | case4 s w hw =>
      cases h
      exact ⟨[], .stop hw, rfl⟩
  | case5 s w v args o hw ih =>
      obtain ⟨s', hs, h⟩ := bind_eq_ok.mp h
      obtain ⟨its, r, hits⟩ := ih s' h
      exact ⟨.value o v :: its, .value hw r, foldlM_cons_ok.mpr ⟨s', hs, hits⟩⟩
  | case6 s w v args hw ih =>
      obtain ⟨s', hs, h⟩ := bind_eq_ok.mp h
      obtain ⟨its, r, hits⟩ := ih s' h
      exact ⟨.plain w :: its, .plain hw r, foldlM_cons_ok.mpr ⟨s', hs, hits⟩⟩
  | case7 s w v args hw =>
      cases h
      exact ⟨[], .stop hw, rfl⟩

end Scan

/-! ### A run over the parts -/

section Fold
variable {ι β : Type*} {step : σ → ι → Except ε σ} {s t : σ} {its : List ι}

/-- What the last part that sets a variable sets it to. -/
def lastSet (sets : ι → Option β) (its : List ι) : Option β := (its.filterMap sets).getLast?

@[simp] theorem lastSet_nil (sets : ι → Option β) : lastSet sets [] = none := rfl

theorem lastSet_cons (sets : ι → Option β) (a : ι) (its : List ι) :
    lastSet sets (a :: its) = (lastSet sets its).or (sets a) := by
  rw [lastSet, lastSet, List.filterMap_cons]
  cases sets a with
  | none => rw [Option.or_none]
  | some b =>
      rw [List.getLast?_cons]
      cases (its.filterMap sets).getLast? with
      | none => rfl
      | some c => rfl

theorem lastSet_map {γ : Type*} (f : β → γ) (sets : ι → Option β) (its : List ι) :
    lastSet (fun a => (sets a).map f) its = (lastSet sets its).map f := by
  rw [lastSet, lastSet, ← List.map_filterMap, List.getLast?_map]

/-- A part that sets a variable to `c`, and no other does. -/
theorem lastSet_const [DecidableEq ι] (a : ι) (c : β) (its : List ι) :
    lastSet (fun b => if b = a then some c else none) its = if a ∈ its then some c else none := by
  induction its with
  | nil => rfl
  | cons b its ih =>
      rw [lastSet_cons, ih]
      by_cases hmem : a ∈ its
      · rw [if_pos hmem, if_pos (List.mem_cons_of_mem b hmem), Option.some_or]
      · rw [if_neg hmem, Option.none_or]
        exact if_congr (by simp [hmem, eq_comm]) rfl rfl

/-- The value that a part gives to the option `o`. -/
def valueOf [DecidableEq ω] (o : ω) : Item ω α → Option α
  | .value o' v => if o' = o then some v else none
  | .plain _ => none

/-- The value of the option `o` that counts: the last one. -/
def lastValue [DecidableEq ω] (o : ω) (its : List (Item ω α)) : Option α :=
  lastSet (valueOf o) its

theorem lastValue_cons [DecidableEq ω] (o : ω) (it : Item ω α) (its : List (Item ω α)) :
    lastValue o (it :: its) = (lastValue o its).or (lastValue o [it]) := by
  have hone : lastValue o [it] = valueOf o it := by
    rw [lastValue, lastSet_cons]
    rfl
  rw [lastValue, lastSet_cons, hone]
  rfl

/-- Where each part is accepted or not by what it is, a run accepts the parts that are. -/
theorem foldlM_ok_iff (inv : σ → Prop) {good : ι → Prop}
    (hkeep : ∀ {s a t}, inv s → step s a = .ok t → inv t)
    (hgood : ∀ {s} (a), inv s → ((∃ t, step s a = .ok t) ↔ good a)) (hs : inv s) :
    (∃ t, its.foldlM step s = .ok t) ↔ ∀ a ∈ its, good a := by
  induction its generalizing s with
  | nil => exact iff_of_true ⟨s, rfl⟩ (by simp)
  | cons a its ih =>
      rw [List.forall_mem_cons, ← hgood a hs]
      constructor
      · rintro ⟨t, h⟩
        obtain ⟨s', ha, h⟩ := foldlM_cons_ok.mp h
        exact ⟨⟨s', ha⟩, (ih (hkeep hs ha)).mp ⟨t, h⟩⟩
      · rintro ⟨⟨s', ha⟩, hall⟩
        obtain ⟨t, h⟩ := (ih (hkeep hs ha)).mpr hall
        exact ⟨t, foldlM_cons_ok.mpr ⟨s', ha, h⟩⟩

/-- **A variable has the value of the last part that sets it.** -/
theorem foldlM_field (inv : σ → Prop) (get : σ → β) (sets : ι → Option β)
    (hkeep : ∀ {s a t}, inv s → step s a = .ok t → inv t)
    (hset : ∀ {s a t}, inv s → step s a = .ok t → get t = (sets a).getD (get s)) (hs : inv s)
    (h : its.foldlM step s = .ok t) : get t = (lastSet sets its).getD (get s) := by
  induction its generalizing s with
  | nil =>
      cases h
      rfl
  | cons a its ih =>
      obtain ⟨s', ha, h⟩ := foldlM_cons_ok.mp h
      rw [ih (hkeep hs ha) h, hset hs ha, lastSet_cons]
      cases lastSet sets its with
      | none => rfl
      | some b => rfl

end Fold

end Options
