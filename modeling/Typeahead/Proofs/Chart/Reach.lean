import Typeahead.Chart.Distance
import Typeahead.Proofs.Chart.Recognition

/-!
An element reaches no further than the tokens go.
-/

namespace Typeahead

theorem Symbol.reach_le (grammar : Grammar) (tokens : List Token) (symbol : Symbol) :
    symbol.reach grammar tokens ≤ tokens.length := by
  have single : (if tokens.head?.any fun token => symbol.accepts token.id then 1 else 0) ≤
      tokens.length := by
    cases tokens with
    | nil => simp
    | cons token tokens => split <;> simp
  cases symbol with
  | rule target name =>
    cases ended : (Chart.parse grammar target tokens).endOfMatch? with
    | none => simp [reach, ended]
    | some stop =>
      have greatest := (Chart.endOfMatch?_eq_some_iff grammar target tokens stop).mp ended
      rw [reach, ended, Option.getD_some]
      exact greatest.1.1
  | literal | token | noneOf | any => exact single

namespace Element

theorem reachOnto_le (grammar : Grammar) (element : Element) (fuel : Nat) (tokens : List Token) :
    element.reachOnto grammar fuel tokens ≤ tokens.length := by
  induction fuel generalizing tokens with
  | zero => exact Nat.zero_le _
  | succ fuel ih =>
    have once := element.symbol.reach_le grammar tokens
    simp only [reachOnto]
    split
    · exact once
    · have others := ih (tokens.drop (element.symbol.reach grammar tokens))
      rw [List.length_drop] at others
      omega

theorem reach_le (grammar : Grammar) (element : Element) (tokens : List Token) :
    element.reach grammar tokens ≤ tokens.length := element.reachOnto_le grammar _ tokens

end Element

end Typeahead
