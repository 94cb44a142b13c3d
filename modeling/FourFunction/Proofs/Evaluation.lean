import FourFunction.Proofs.Grammar.Exactness

/-! The value of a source is that of its lexemes under the two-stack algorithm. -/

namespace FourFunction

/-- Whatever the operators mean, the two stacks taken once over the lexemes of a parsed source end
with the value of its tree alone. In particular they find the value of the source. -/
theorem evaluate_eq_precedence {source : String} {e : Expr} (h : parse source = .ok e) :
    (∃ value, evaluate source = .ok value ∧
      Precedence.evaluate id Operator.apply ((lexemes source).map Placed.lexeme) = some value) ∧
    ∀ meaning, Precedence.run id meaning ((lexemes source).map Placed.lexeme) =
      ⟨[e.evaluateWith meaning], []⟩ := by
  have hrun : ∀ meaning, Precedence.run id meaning ((lexemes source).map Placed.lexeme) =
      ⟨[e.evaluateWith meaning], []⟩ := by
    intro meaning
    rw [Precedence.run_of_derives (Grammar.derives_of_parse h), Expr.fold_id,
      Expr.evaluateWith_eq_value]
  refine ⟨⟨e.evaluate, ?_, ?_⟩, hrun⟩
  · rw [evaluate, h]
    rfl
  · rw [Precedence.evaluate, hrun]
    rfl

theorem evaluate_eq_precedence_mixed_chain :
    ∃ e, parse "8 - 3 - 2 * (4 / 2)" = .ok e ∧
      (∃ value, evaluate "8 - 3 - 2 * (4 / 2)" = .ok value ∧
        Precedence.evaluate id Operator.apply
          ((lexemes "8 - 3 - 2 * (4 / 2)").map Placed.lexeme) = some value) ∧
      ∀ meaning, Precedence.run id meaning ((lexemes "8 - 3 - 2 * (4 / 2)").map Placed.lexeme) =
        ⟨[e.evaluateWith meaning], []⟩ := by
  obtain ⟨e, he⟩ := Grammar.exists_parse_of_verdictOf
    (show Grammar.verdictOf "8 - 3 - 2 * (4 / 2)" = .ok () by decide +kernel)
  exact ⟨e, he, evaluate_eq_precedence he⟩

end FourFunction
