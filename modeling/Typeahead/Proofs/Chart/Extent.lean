import Typeahead.Proofs.Chart.Greedy

/-!
How far an element reaches, and over what. It matches the tokens that it takes, and where the input goes on it
takes no fewer.
-/

open Computability

namespace Typeahead

variable {grammar : Grammar} {tokens longer : List Token}

namespace Symbol

variable {symbol : Symbol} {count : Nat}

/-- Whether an occurrence matches has nothing to do with the tokens behind it. -/
theorem occurs_of_initial (initial : tokens <+: longer) (within : count ≤ tokens.length) :
    symbol.Occurs grammar longer count ↔ symbol.Occurs grammar tokens count := by
  obtain ⟨more, rfl⟩ := initial
  rw [Occurs, Occurs, List.map_append, List.take_append_of_le_length (by simpa using within),
    List.length_append]
  exact and_congr_left fun _ => ⟨fun _ => within, fun _ => Nat.le_add_right_of_le within⟩

theorem occurs_reach (takes : symbol.reach grammar tokens ≠ 0) :
    symbol.Occurs grammar tokens (symbol.reach grammar tokens) := (isGreatest_reach takes).1

/-- Where the input goes on, an occurrence reaches as far as before, or beyond all that was there. -/
theorem reach_of_initial (grammar : Grammar) (symbol : Symbol) (initial : tokens <+: longer) :
    symbol.reach grammar longer = symbol.reach grammar tokens ∨
      tokens.length < symbol.reach grammar longer := by
  rcases Nat.lt_or_ge tokens.length (symbol.reach grammar longer) with beyond | within
  · exact .inr beyond
  · refine .inl (Nat.le_antisymm ?_ ?_)
    · by_cases nothing : symbol.reach grammar longer = 0
      · rw [nothing]
        exact Nat.zero_le _
      · exact ((occurs_of_initial initial within).mp (occurs_reach nothing)).le_reach
    · by_cases nothing : symbol.reach grammar tokens = 0
      · rw [nothing]
        exact Nat.zero_le _
      · have short := symbol.reach_le grammar tokens
        exact ((occurs_of_initial initial short).mpr (occurs_reach nothing)).le_reach

/-- What occurrences take one behind the other is matched by repetition. -/
theorem Greedy.matched {blocks : List (List Token)} {rest : List Token}
    (greedy : symbol.Greedy grammar blocks rest) :
    blocks.flatten.map Token.id ∈ (symbol.language grammar.language)∗ := by
  induction blocks with
  | nil => exact Language.nil_mem_kstar _
  | cons block blocks ih =>
    obtain ⟨_, longest, others⟩ := greedy
    have first := longest.1.2
    rw [List.map_append, List.take_left' (List.length_map _)] at first
    rw [List.flatten_cons, List.map_append]
    have more : symbol.language grammar.language * (symbol.language grammar.language)∗ ≤
        (symbol.language grammar.language)∗ := mul_kstar_le_kstar
    exact more (Language.append_mem_mul first (ih others))

end Symbol

namespace Element

variable {element : Element}

theorem reach_le_reachOnto (grammar : Grammar) (element : Element) (fuel : Nat) (tokens : List Token) :
    element.symbol.reach grammar tokens ≤ element.reachOnto grammar (fuel + 1) tokens := by
  simp only [reachOnto]
  split
  · exact Nat.le_refl _
  · exact Nat.le_add_right _ _

/-- The first occurrence that reaches further leads beyond all of the shorter input, and so it does not matter
what is left behind it. -/
theorem reachOnto_mono {fuel more : Nat} (ordered : fuel ≤ more) (initial : tokens <+: longer) :
    element.reachOnto grammar fuel tokens ≤ element.reachOnto grammar more longer := by
  induction fuel generalizing more tokens longer with
  | zero => exact Nat.zero_le _
  | succ fuel ih =>
    obtain ⟨more, rfl⟩ := Nat.exists_eq_add_of_le' (Nat.le_trans (Nat.le_add_left 1 fuel) ordered)
    rcases element.symbol.reach_of_initial grammar initial with same | beyond
    · simp only [reachOnto, same]
      split
      · exact Nat.le_refl _
      · exact Nat.add_le_add_left (ih (Nat.le_of_succ_le_succ ordered) (initial.drop _)) _
    · have short := element.reachOnto_le grammar (fuel + 1) tokens
      have far := element.reach_le_reachOnto grammar more longer
      omega

/-- An element takes no fewer tokens where the input goes on. -/
theorem reach_of_initial (initial : tokens <+: longer) :
    element.reach grammar tokens ≤ element.reach grammar longer :=
  reachOnto_mono initial.length_le initial

/-- An element matches the tokens that it takes. -/
theorem reach_matched (takes : element.reach grammar tokens ≠ 0) :
    (tokens.take (element.reach grammar tokens)).map Token.id ∈ element.language grammar.language := by
  obtain ⟨turns, _, ends⟩ := turns_reach grammar element tokens
  refine Multiplicity.begun_le_repeated _ _ ?_
  rw [Multiplicity.begun]
  split
  · rename_i repeatable
    obtain ⟨blocks, split, greedy⟩ := ends.greedy repeatable
    have taken : tokens.take (element.reach grammar tokens) = blocks.flatten :=
      List.append_cancel_right ((List.take_append_drop _ tokens).trans split)
    rw [taken]
    cases blocks with
    | nil =>
      have size := congrArg List.length taken
      rw [List.length_take_of_le (element.reach_le grammar tokens)] at size
      exact (takes size).elim
    | cons block blocks =>
      obtain ⟨_, longest, others⟩ := greedy
      have first := longest.1.2
      rw [List.map_append, List.take_left' (List.length_map _)] at first
      rw [List.flatten_cons, List.map_append]
      exact Language.append_mem_mul first others.matched
  · rename_i once
    have single := ends.once (by simpa using once)
    rw [Nat.zero_add, List.drop_zero] at single
    rw [single] at takes ⊢
    rw [List.map_take]
    exact (Symbol.occurs_reach takes).2

end Element

end Typeahead
