import Mathlib.Order.Lattice.Nat
import Typeahead.Grammar.Sample
import Typeahead.Proofs.Chart.Reach

/-!
An element takes tokens greedily: each occurrence is the longest that there can be, and one that repeats goes
on until no occurrence takes a token.
-/

namespace Typeahead

variable {grammar : Grammar} {tokens : List Token}

namespace Symbol

variable {symbol : Symbol} {count : Nat}

/-- One occurrence matches so many tokens at the front. -/
def Occurs (grammar : Grammar) (symbol : Symbol) (tokens : List Token) (count : Nat) : Prop :=
  count ≤ tokens.length ∧ (tokens.map Token.id).take count ∈ symbol.language grammar.language

theorem reach_of_terminal (terminal : symbol.isTerminal = true) : symbol.reach grammar tokens =
    if tokens.head?.any fun token => symbol.accepts token.id then 1 else 0 := by
  cases symbol with
  | rule => cases terminal
  | literal | token | noneOf | any => rfl

theorem occurs_of_terminal (terminal : symbol.isTerminal = true) :
    symbol.Occurs grammar tokens count ↔
      (tokens.head?.any fun token => symbol.accepts token.id) = true ∧ count = 1 := by
  rw [Occurs, mem_language_of_terminal terminal]
  cases tokens with
  | nil => simp
  | cons token tokens =>
    cases count with
    | zero => simp
    | succ count =>
      have single : (tokens.map Token.id).take count = [] ↔ count = 0 ∨ tokens = [] := by simp
      simp only [List.map_cons, List.take_succ_cons, List.cons.injEq, single, List.head?_cons,
        Option.any_some, List.length_cons, Nat.add_le_add_iff_right, Nat.add_eq_right]
      constructor
      · rintro ⟨within, id, accepted, rfl, rfl | rfl⟩
        · exact ⟨accepted, rfl⟩
        · exact ⟨accepted, Nat.le_zero.mp within⟩
      · rintro ⟨accepted, rfl⟩
        exact ⟨Nat.zero_le _, token.id, accepted, rfl, .inl rfl⟩

/-- One occurrence reaches as far as it can, and nowhere if there is none. -/
theorem reach_longest (grammar : Grammar) (symbol : Symbol) (tokens : List Token) :
    IsGreatest {count | symbol.Occurs grammar tokens count} (symbol.reach grammar tokens) ∨
      (∀ count, ¬ symbol.Occurs grammar tokens count) ∧ symbol.reach grammar tokens = 0 := by
  by_cases terminal : symbol.isTerminal = true
  · rw [reach_of_terminal terminal]
    simp only [occurs_of_terminal terminal]
    split
    · rename_i accepted
      exact .inl ⟨⟨accepted, rfl⟩, fun _ occurs => occurs.2.le⟩
    · rename_i rejected
      exact .inr ⟨fun _ occurs => rejected occurs.1, rfl⟩
  · cases symbol with
    | literal | token | noneOf | any => exact (terminal rfl).elim
    | rule target name =>
      rw [reach]
      cases ended : (Chart.parse grammar target tokens).endOfMatch? with
      | some stop => exact .inl ((Chart.endOfMatch?_eq_some_iff grammar target tokens stop).mp ended)
      | none =>
        refine .inr ⟨fun count occurs => ?_, rfl⟩
        have bounded : BddAbove {count | Symbol.Occurs grammar (.rule target name) tokens count} :=
          ⟨tokens.length, fun _ other => other.1⟩
        have longest := (Chart.endOfMatch?_eq_some_iff grammar target tokens _).mpr
          ⟨Nat.sSup_mem ⟨count, occurs⟩ bounded, fun _ other => le_csSup bounded other⟩
        rw [ended] at longest
        cases longest

theorem Occurs.le_reach (occurs : symbol.Occurs grammar tokens count) :
    count ≤ symbol.reach grammar tokens := by
  rcases symbol.reach_longest grammar tokens with longest | ⟨never, _⟩
  · exact longest.2 occurs
  · exact (never count occurs).elim

theorem isGreatest_reach (takes : symbol.reach grammar tokens ≠ 0) :
    IsGreatest {count | symbol.Occurs grammar tokens count} (symbol.reach grammar tokens) :=
  (symbol.reach_longest grammar tokens).resolve_right fun never => takes never.2

/-- None of the blocks is empty, each is the longest occurrence that there can be in front of what is left, and
behind them no occurrence takes a token. -/
def Greedy (grammar : Grammar) (symbol : Symbol) : (blocks : List (List Token)) → (rest : List Token) → Prop
  | [], rest => ∀ count, symbol.Occurs grammar rest count → count = 0
  | block :: blocks, rest =>
    block ≠ [] ∧
    IsGreatest {count | symbol.Occurs grammar (block ++ (blocks.flatten ++ rest)) count} block.length ∧
    Greedy grammar symbol blocks rest

end Symbol

namespace Element

variable {element : Element} {turns others position stop last : Nat}

/-- The loop over occurrences, from a position that lies within the tokens, and how often it turns. -/
inductive Turns (grammar : Grammar) (element : Element) (tokens : List Token) :
    (turns position stop : Nat) → Prop where
  | last {position : Nat} (within : position ≤ tokens.length)
      (ended : element.symbol.reach grammar (tokens.drop position) = 0 ∨
        element.multiplicity.isRepeatable = false) :
      Turns grammar element tokens 1 position
        (position + element.symbol.reach grammar (tokens.drop position))
  | again {turns position stop : Nat} (within : position ≤ tokens.length)
      (takes : element.symbol.reach grammar (tokens.drop position) ≠ 0)
      (repeatable : element.multiplicity.isRepeatable = true)
      (further : Turns grammar element tokens turns
        (position + element.symbol.reach grammar (tokens.drop position)) stop) :
      Turns grammar element tokens (turns + 1) position stop

theorem Turns.unique (given : Turns grammar element tokens turns position stop)
    (other : Turns grammar element tokens others position last) : turns = others ∧ stop = last := by
  induction given generalizing others with
  | last _ ended =>
    cases other with
    | last => exact ⟨rfl, rfl⟩
    | again _ takes repeatable =>
      rw [repeatable] at ended
      exact (ended.elim takes nofun).elim
  | again _ takes repeatable _ ih =>
    cases other with
    | last _ ended =>
      rw [repeatable] at ended
      exact (ended.elim takes nofun).elim
    | again _ _ _ further =>
      obtain ⟨same, ends⟩ := ih further
      exact ⟨congrArg (· + 1) same, ends⟩

theorem Turns.once (given : Turns grammar element tokens turns position stop)
    (once : element.multiplicity.isRepeatable = false) :
    stop = position + element.symbol.reach grammar (tokens.drop position) := by
  cases given with
  | last => rfl
  | again _ _ repeatable => cases once.symm.trans repeatable

/-- With fuel for the tokens that are left, the loop ends by itself, and all turns but the last one take a
token. -/
theorem turns_reachOnto (element : Element) (fuel : Nat) (within : position ≤ tokens.length)
    (enough : tokens.length ≤ position + fuel) :
    ∃ turns, position + turns ≤ tokens.length + 1 ∧ Turns grammar element tokens turns position
      (position + element.reachOnto grammar fuel (tokens.drop position)) := by
  have short := element.symbol.reach_le grammar (tokens.drop position)
  rw [List.length_drop] at short
  induction fuel generalizing position with
  | zero =>
    have nothing : element.symbol.reach grammar (tokens.drop position) = 0 := by omega
    have ends := Turns.last within (.inl nothing)
    rw [nothing] at ends
    exact ⟨1, Nat.add_le_add_right within 1, ends⟩
  | succ fuel ih =>
    simp only [reachOnto]
    split
    · rename_i ended
      refine ⟨1, Nat.add_le_add_right within 1, Turns.last within ?_⟩
      simpa using ended
    · rename_i goes
      obtain ⟨takes, repeatable⟩ : element.symbol.reach grammar (tokens.drop position) ≠ 0 ∧
          element.multiplicity.isRepeatable = true := by simpa using goes
      have next := element.symbol.reach_le grammar
        (tokens.drop (position + element.symbol.reach grammar (tokens.drop position)))
      rw [List.length_drop] at next
      obtain ⟨turns, few, further⟩ := ih (by omega) (by omega) next
      rw [List.drop_drop, ← Nat.add_assoc]
      exact ⟨turns + 1, by omega, .again within takes repeatable further⟩

theorem turns_reach (grammar : Grammar) (element : Element) (tokens : List Token) :
    ∃ turns ≤ tokens.length + 1, Turns grammar element tokens turns 0 (element.reach grammar tokens) := by
  have ends := @turns_reachOnto grammar tokens 0 element tokens.length (Nat.zero_le _) (Nat.zero_add _).ge
  simp only [Nat.zero_add, List.drop_zero] at ends
  exact ends

/-- Wherever the loop starts, the occurrences it takes are blocks of a greedy match. -/
theorem Turns.greedy (given : Turns grammar element tokens turns position stop)
    (repeatable : element.multiplicity.isRepeatable = true) :
    ∃ blocks, tokens.drop position = blocks.flatten ++ tokens.drop stop ∧
      element.symbol.Greedy grammar blocks (tokens.drop stop) := by
  induction given with
  | @last position _ ended =>
    rw [repeatable] at ended
    have nothing := ended.resolve_right nofun
    rw [nothing]
    exact ⟨[], rfl, fun count occurs => Nat.le_zero.mp (nothing ▸ occurs.le_reach)⟩
  | @again _ position stop _ takes _ _ ih =>
    obtain ⟨blocks, others, greedy⟩ := ih
    obtain ⟨block, size, split⟩ : ∃ block : List Token,
        block.length = element.symbol.reach grammar (tokens.drop position) ∧
        tokens.drop position = block ++ (blocks.flatten ++ tokens.drop stop) := by
      refine ⟨_, List.length_take_of_le (element.symbol.reach_le grammar _), ?_⟩
      rw [← others, ← List.drop_drop, List.take_append_drop]
    refine ⟨block :: blocks, split.trans (List.append_assoc ..).symm, ?_, ?_, greedy⟩
    · exact List.ne_nil_of_length_pos (size ▸ Nat.pos_of_ne_zero takes)
    · rw [size, ← split]
      exact Symbol.isGreatest_reach takes

/-- The reach of an element is a greedy match: the loop ends there, after no more turns than there are tokens and
one, and has never left the tokens. What does not repeat takes the longest occurrence, or nothing if there is
none, and what repeats takes one longest occurrence behind the other. -/
theorem reach_greedy (grammar : Grammar) (element : Element) (tokens : List Token) :
    (∃ count ≤ tokens.length + 1, ∀ turns stop, Turns grammar element tokens turns 0 stop ↔
      turns = count ∧ stop = element.reach grammar tokens) ∧
    element.reach grammar tokens ≤ tokens.length ∧
    if element.multiplicity.isRepeatable then
      ∃ blocks : List (List Token), tokens.take (element.reach grammar tokens) = blocks.flatten ∧
        element.symbol.Greedy grammar blocks (tokens.drop (element.reach grammar tokens))
    else
      IsGreatest {count | element.symbol.Occurs grammar tokens count} (element.reach grammar tokens) ∨
        (∀ count, ¬ element.symbol.Occurs grammar tokens count) ∧ element.reach grammar tokens = 0 := by
  obtain ⟨count, few, ends⟩ := turns_reach grammar element tokens
  refine ⟨⟨count, few, fun turns stop => ⟨fun given => given.unique ends, ?_⟩⟩,
    element.reach_le grammar tokens, ?_⟩
  · rintro ⟨rfl, rfl⟩
    exact ends
  · split
    · rename_i repeatable
      obtain ⟨blocks, split, greedy⟩ := ends.greedy repeatable
      exact ⟨blocks, List.append_cancel_right ((List.take_append_drop _ tokens).trans split), greedy⟩
    · rename_i once
      rw [ends.once (by simpa using once), Nat.zero_add]
      exact element.symbol.reach_longest grammar tokens

/-- Names behind commas are taken in pairs, and the last comma has no name behind it. -/
example : (Sample.callGrammar.element? 1 0 1).map (·.reach Sample.callGrammar
    [⟨⟨4⟩, ",", 0, .default⟩, ⟨⟨1⟩, "b", 1, .default⟩, ⟨⟨4⟩, ",", 2, .default⟩, ⟨⟨1⟩, "c", 3, .default⟩,
      ⟨⟨4⟩, ",", 4, .default⟩, ⟨⟨3⟩, ")", 5, .default⟩]) = some 4 := by decide +kernel

end Element

end Typeahead
