import Mathlib.Logic.Function.Basic
import Contextd.Librecompare.Parser

/-!
# The automaton of an expression

The constructor of `Automaton` takes the states from a work list that starts with the expression:
a state is derived, its derivations are stored under it, and the expressions not met before join
the work list.  A state is an expression, and two states are the same if they print as the same
pattern.
-/

namespace Librecompare

/-- `StateList::contains`: a state with the same pattern is in the list. -/
def contains (states : List RegExp) (e : RegExp) : Bool :=
  states.any (fun s => s.pattern = e.pattern)

/-- An automaton: the derivations stored under each pattern, and the final states. -/
structure Automaton where
  /-- `_initial_state`. -/
  initialState : RegExp
  /-- `_states`. -/
  states : List RegExp
  /-- `_transitions`. -/
  transitions : List Char → List (Derivation RegExp)
  /-- `_final_states`. -/
  finalStates : List RegExp

namespace Automaton

/-- From the state with the pattern `p`, following stored derivations whose tokens contain the next
byte leads to a final state. -/
def acceptsFrom (A : Automaton) : List Char → List UInt8 → Bool
  | p, [] => A.finalStates.any (fun s => s.pattern = p)
  | p, b :: w => (A.transitions p).any (fun d => d.contains b && A.acceptsFrom d.expr.pattern w)

/-- The automaton accepts the word. -/
def accepts (A : Automaton) (w : List UInt8) : Bool := A.acceptsFrom A.initialState.pattern w

end Automaton

/-- The state of the constructor: the automaton so far, the states to be derived, the last one
first, and those already derived. -/
structure Construction where
  /-- The automaton so far. -/
  automaton : Automaton
  /-- `toDo`, the last element first. -/
  toDo : List RegExp
  /-- `done`. -/
  done : List RegExp

namespace Construction

/-- The constructor before its loop. -/
def start (expression : RegExp) : Construction where
  automaton := ⟨expression, [expression], fun _ => [], []⟩
  toDo := [expression]
  done := []

/-- Storing one derivation of the state `p`. -/
def store (p : RegExp) (c : Construction) (deriv : Derivation RegExp) : Construction where
  automaton := { c.automaton with
    states :=
      if contains c.automaton.states deriv.expr then c.automaton.states
      else c.automaton.states ++ [deriv.expr]
    transitions := Function.update c.automaton.transitions p.pattern
      (c.automaton.transitions p.pattern ++ [deriv]) }
  toDo :=
    if !contains c.done deriv.expr && !contains c.toDo deriv.expr then deriv.expr :: c.toDo
    else c.toDo
  done := c.done

variable (qt : Qt)

/-- One turn of the loop, for the state `p` taken from the work list. -/
def visit (c : Construction) (p : RegExp) (toDo : List RegExp) : Construction :=
  let c := (p.leftDerivations qt).foldl (store p) { c with toDo := toDo, done := c.done ++ [p] }
  if p.isNullable then
    { c with automaton := { c.automaton with finalStates := c.automaton.finalStates ++ [p] } }
  else c

/-- The loop, for at most `n` states. -/
def run : ℕ → Construction → Option Automaton
  | n, c =>
    match c.toDo with
    | [] => some c.automaton
    | p :: toDo =>
      match n with
      | 0 => none
      | n + 1 => run n (c.visit qt p toDo)

end Construction

end Librecompare
