import Mathlib.Data.List.Nodup

/-!
# Lib — Stages

Parts put up one on another and taken down from the top: what a set-up with rollback leaves, and a
clean-up after it.

* `move`: one call, and what stands after it, the top first.
* `attempt`: the parts are tried in order; where one is refused, those that stand are taken down.
* `Going`: in the middle of an attempt, or of taking everything down.
* `Going.step`: each call finds what it expects; `Going.standing`: what stands at the end.
-/

namespace Stages

variable {ρ : Type*}

/-- A part is put up, refused, or taken down. -/
inductive Move (ρ : Type*) where
  | up (r : ρ)
  | refused (r : ρ)
  | down (r : ρ)

/-- A part is put up once, and only the top is taken down. -/
def move [DecidableEq ρ] (standing : List ρ) : Move ρ → Option (List ρ)
  | .up r => if r ∈ standing then none else some (r :: standing)
  | .refused _ => some standing
  | .down r => if standing.head? = some r then some standing.tail else none

/-- The calls that try `parts` in order, on what stands. -/
def attempt (ok : ρ → Bool) (standing : List ρ) : List ρ → List (Move ρ)
  | [] => []
  | r :: parts =>
      if ok r then .up r :: attempt ok (r :: standing) parts
      else .refused r :: standing.map .down

/-- The calls `todo` are the rest of an attempt at `parts`, or of taking everything down; `last` is
what will stand after them. -/
inductive Going (parts : List ρ) : List ρ → List ρ → List (Move ρ) → Prop where
  | up (ok : ρ → Bool) {standing rest : List ρ} (h : standing.reverse ++ rest = parts) :
      Going parts (if rest.all ok then parts.reverse else []) standing (attempt ok standing rest)
  | down {standing rest : List ρ} (h : standing.reverse ++ rest = parts) :
      Going parts [] standing (standing.map .down)

namespace Going
variable {parts last standing : List ρ} {m : Move ρ} {todo : List (Move ρ)}

/-- What stands are the first parts. -/
theorem suffix (h : Going parts last standing todo) : standing <:+ parts.reverse := by
  cases h with
  | up ok h =>
      rw [← h, List.reverse_append, List.reverse_reverse]
      exact List.suffix_append _ _
  | down h =>
      rw [← h, List.reverse_append, List.reverse_reverse]
      exact List.suffix_append _ _

/-- When nothing is left to do. -/
theorem standing_eq (h : Going parts last standing []) : standing = last := by
  generalize htodo : ([] : List (Move ρ)) = todo at h
  cases h with
  | @up ok _ rest h =>
      cases rest with
      | nil =>
          rw [List.append_nil] at h
          rw [List.all_nil, if_pos rfl, ← h, List.reverse_reverse]
      | cons r rest =>
          rw [attempt] at htodo
          split_ifs at htodo
  | down h => exact List.map_eq_nil_iff.mp htodo.symm

/-- **Each call** finds what it expects. -/
theorem step [DecidableEq ρ] (hp : parts.Nodup) (h : Going parts last standing (m :: todo)) :
    ∃ t, move standing m = some t ∧ Going parts last t todo := by
  generalize htodo : m :: todo = calls at h
  cases h with
  | @up ok _ rest h =>
      cases rest with
      | nil => cases htodo
      | cons r rest =>
          have hstands : r ∉ standing := by
            intro hmem
            rw [← h] at hp
            exact (List.nodup_append.mp hp).2.2 r (List.mem_reverse.mpr hmem) r
              List.mem_cons_self rfl
          rw [attempt] at htodo
          split_ifs at htodo with hok
          · cases htodo
            refine ⟨r :: standing, if_neg hstands, ?_⟩
            rw [List.all_cons, hok, Bool.true_and]
            refine .up ok ?_
            rw [List.reverse_cons, List.append_assoc]
            exact h
          · cases htodo
            refine ⟨standing, rfl, ?_⟩
            rw [List.all_cons, Bool.eq_false_iff.mpr hok, Bool.false_and]
            exact .down h
  | @down _ rest h =>
      cases standing with
      | nil => cases htodo
      | cons r standing =>
          cases htodo
          rw [List.reverse_cons, List.append_assoc] at h
          exact ⟨standing, if_pos rfl, .down h⟩

end Going

end Stages
