import SelectionModel.Language.Grammar
import SelectionModel.Lowering.Error
import SelectionModel.Tree.Field

/-!
# Inclusion

Whether `@skip` and `@include` let a selection through: never, when a literal
rules it out, or under conditions on variables. Only directives with exactly one
argument count, whatever its name.
-/

namespace SelectionModel

/-- Whether a selection can be part of a response. -/
inductive Inclusion where
  | never
  /-- While all of the conditions hold. -/
  | under (conditions : List Condition)
  deriving DecidableEq, Repr

/-- The value of a variable or a literal at which a directive excludes its
selection, as the directive's name says. -/
def exclusionValue? (directive : String) : Option Bool :=
  if directive = "skip" then some true
  else if directive = "include" then some false
  else none

/-- Evaluates directives from left to right, given the conditions found so far. -/
def inclusionFrom (file : Option String) (conditions : List Condition) :
    List Directive → Except BuildError Inclusion
  | [] => .ok (.under conditions)
  | d :: ds =>
    match exclusionValue? d.name, d.arguments with
    | some inverted, [(_, value)] =>
      match value with
      | .boolean b => if b = inverted then .ok .never else inclusionFrom file conditions ds
      | .variable v => inclusionFrom file (extendConditions conditions [⟨v, inverted⟩]) ds
      | _ => .error (.invalidDirectiveArgument d.name (.executable ⟨file, d.position⟩))
    | _, _ => inclusionFrom file conditions ds

/-- **Whether directives let their selection through.** -/
def inclusion (file : Option String) (directives : List Directive) : Except BuildError Inclusion :=
  inclusionFrom file [] directives

end SelectionModel
