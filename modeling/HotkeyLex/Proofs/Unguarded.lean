import HotkeyLex.Proofs.Exactness
import Mathlib.Data.PFun

/-!
# Loops without a guard

The loops over a script look whether a turn has moved the cursor, and stop if it has not. On the machine
`unguarded` they run without that look: a loop goes on for as long as its own test says so, and a loop that
goes on forever has no result.

A loop ends if its turns get on, which is to say that the cursor moves and stays in the text: each of them
leaves less in front of the end than before (`Loop.run_eq`, `Loop.ends`).
-/

namespace HotkeyLex

open Cursor (InText)

/-- Bytes between a cursor and the end of the text. -/
def Cursor.left (c : Cursor) : Nat := c.script.size.toNat - c.pos.toNat

namespace Loop

variable {σ ρ : Type}

/-- Turn after turn up to one that ends the loop. -/
def run (l : Loop Part σ ρ) : σ → Part ρ := PFun.fix l.turn

/-- The states that turns lead to. -/
def Visits (l : Loop Part σ ρ) : σ → σ → Prop := Relation.ReflTransGen fun a b => .inr b ∈ l.turn a

/-- From one state to another the cursor moves on and not past the end, so less is left. -/
structure Advances (l : Loop Part σ ρ) (a b : σ) : Prop where
  moves : (l.cursor a).pos < (l.cursor b).pos
  inside : (l.cursor b).pos ≤ (l.cursor b).script.size
  falls : (l.cursor b).left < (l.cursor a).left

/-- Every turn from here that goes on advances, and the loop has a result. -/
structure Ends (l : Loop Part σ ρ) (state : σ) : Prop where
  advances : ∀ a b, l.Visits state a → .inr b ∈ l.turn a → l.Advances a b
  returns : (l.run state).Dom

end Loop

/-- The machine that never looks whether a turn has moved the cursor. The search over bytes is no loop of the
scanner. -/
def Machine.unguarded : Machine Part where
  pass c step := return c.pass step
  jump c := return c.toParenByByte
  tally _ _ count := return count + 1
  deeper depth := return depth + 1
  shallower depth := return depth - 1
  iterate l := l.run

namespace Loop

variable {σ ρ : Type} {l : Loop Part σ ρ} {s : Script}

/-- In a text, a loop that moves has less before it. -/
theorem advances_of_moves {a b : σ} (here : InText s (l.cursor a)) (there : InText s (l.cursor b))
    (moves : (l.cursor a).pos < (l.cursor b).pos) : l.Advances a b := by
  obtain ⟨script, -⟩ := here
  obtain ⟨script', before, rest, beyond, between⟩ := there
  have later := UInt32.lt_iff_toNat_lt.1 moves
  have inside := between.pos_le_size
  refine ⟨moves, UInt32.le_iff_toNat_le.2 inside, ?_⟩
  rw [Cursor.left, Cursor.left, script, ← script']
  omega

variable {J : σ → Prop} {expected : σ → ρ} (turns : ∀ state, J state → l.TurnsTo False J expected state)
include turns

/-- What the turns of a loop lead up to is what it comes to. -/
theorem run_eq {state : σ} (h : J state) : l.run state = .some (expected state) := by
  -- nothing but the turns themselves says that the loop gets on
  generalize here : l.cursor state = c
  induction c using Cursor.later_induction generalizing state with
  | turn c ih =>
    cases turns state h with
    | done turn =>
      apply Part.eq_some_iff.2
      exact PFun.fix_stop (Part.eq_some_iff.1 turn)
    | onward turn progress keeps same =>
      rw [run, PFun.fix_fwd_eq (Part.eq_some_iff.1 turn), same]
      exact ih _ (here ▸ progress) keeps rfl
    | stuck allowed => exact allowed.elim

/-- A turn that goes on moves the cursor. -/
theorem onward {state other : σ} (h : J state) (goes : .inr other ∈ l.turn state) :
    J other ∧ (l.cursor state).pos < (l.cursor other).pos := by
  cases turns state h with
  | done turn =>
    rw [turn] at goes
    cases Part.mem_some_iff.1 goes
  | onward turn progress keeps =>
    rw [turn] at goes
    cases Part.mem_some_iff.1 goes
    exact ⟨keeps, progress⟩
  | stuck allowed => exact allowed.elim

theorem keeps_visits {state other : σ} (h : J state) (run : l.Visits state other) : J other := by
  induction run with
  | refl => exact h
  | tail _ goes ih => exact (onward turns ih goes).1

/-- A loop in a text ends if its turns lead up to something. -/
theorem ends (inside : ∀ state, J state → InText s (l.cursor state)) {state : σ} (h : J state) : l.Ends state where
  advances a b run goes := by
    have here := keeps_visits turns h run
    obtain ⟨there, moves⟩ := onward turns here goes
    exact advances_of_moves (inside a here) (inside b there) moves
  returns := by
    rw [run_eq turns h]
    trivial

end Loop

end HotkeyLex
