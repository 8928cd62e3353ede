import DropTable.Numeral.Binary64
import DropTable.Proofs.Formula.Acceptance
import DropTable.Proofs.Program.Evaluation
import DropTable.Proofs.Program.Rearrangement
import DropTable.Scalar.Binary64
/-!
# Formulas mean their expressions

The check, the rearrangement and the evaluation together: a formula that the grammar derives is
accepted as it is, becomes the postorder of its expression, and evaluates to the value of the
expression.  No law of arithmetic is used.
-/

namespace DropTable.Program

variable {α : Type} [Scalar α] [Numeral α]

theorem ofFormula_denotes {phrase : Phrase} (d : Derivation α phrase) :
    Formula.check d.tokens = .ok d.tokens ∧
      (ofFormula d.tokens).tokens = d.expression.postorder ∧
      (∀ bindings, (ofFormula d.tokens).evaluate .zero bindings =
        .ok (d.expression.value bindings)) ∧
      ∀ bindings, (∀ name ∈ d.expression.names, name ∈ bindings) →
        (ofFormula d.tokens).evaluate .fail bindings = .ok (d.expression.value bindings) := by
  have hpostorder := tokens_ofFormula d
  refine ⟨(Formula.flawless_tokens d).check_eq, hpostorder, ?_, ?_⟩
  · intro bindings
    apply evaluate_of_postorder hpostorder
    intro hfail
    contradiction
  · intro bindings hbound
    exact evaluate_of_postorder hpostorder fun _ => hbound

/-- The formula `-x ^ 2 ^ (x - 1)` for `x = 3`, where a variable without a value is a fault. -/
theorem ofFormula_denotes_power :
    (ofFormula ([.identifier "x" true, .operator .power, .number 2, .operator .power,
        .operator .openParen, .identifier "x" false, .operator .subtract, .number 1,
        .operator .closeParen] : List (Token Float))).evaluate .fail (.ofList [("x", 3)]) =
      .ok (Scalar.pow (Scalar.pow (-3) 2) (3 - 1)) := by
  have h := (ofFormula_denotes (.power
    (.power (.ofAtom (.identifier "x" true (by decide))) (.number 2))
    (.group (.subtract (.ofProduct (.ofPower (.ofAtom (.identifier "x" false (by decide)))))
      (.ofPower (.ofAtom (.number 1))))) : Derivation Float .power)).2.2.2 (.ofList [("x", 3)])
    (by simp [Derivation.expression, Expression.names, Bindings.ofList])
  simpa [Derivation.tokens, Derivation.expression, Expression.value, Bindings.ofList,
    BinaryOperator.apply, Operator.result?] using h

end DropTable.Program
