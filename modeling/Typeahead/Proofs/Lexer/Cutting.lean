import Typeahead.Proofs.Lexer.Resumption

/-!
Places in a text at which no token is cut in two: the ends of tokens, and what stands behind the blanks that
follow such a place.
-/

namespace Typeahead

open Text

namespace Token

variable {tokens : List Token} {token : Token} {start place position : Nat}

/-- No token lies on both sides of a place. -/
def Clear (tokens : List Token) (place : Nat) : Prop :=
  ∀ token ∈ tokens, token.stop ≤ place ∨ place ≤ token.start

theorem Ascending.clear_stop (ascending : Ascending tokens) (listed : token ∈ tokens) :
    Clear tokens token.stop := by
  intro other among
  obtain ⟨here, inside, rfl⟩ := List.mem_iff_getElem.mp listed
  obtain ⟨there, within, rfl⟩ := List.mem_iff_getElem.mp among
  have wide := ascending.wide tokens[here] (List.getElem_mem inside)
  rcases Nat.lt_trichotomy there here with before | rfl | behind
  · have apart := List.pairwise_iff_getElem.mp ascending.ordered there here within inside before
    exact .inl (by omega)
  · exact .inl (Nat.le_refl _)
  · exact .inr (List.pairwise_iff_getElem.mp ascending.ordered here there inside within behind)

/-- Nothing is cut behind a token that is seen. -/
theorem Ascending.clear_stopBefore (ascending : Ascending tokens) (first : ∀ token ∈ tokens, start ≤ token.start)
    (within : position ≤ (shown tokens).length) :
    Clear tokens (stopBefore start (shown tokens) position) := by
  cases position with
  | zero => exact fun token listed => .inr (first token listed)
  | succ before =>
    rw [stopBefore, List.getElem?_eq_getElem within, Option.map_some, Option.getD_some]
    exact ascending.clear_stop ((shown_sublist tokens).mem (List.getElem_mem within))

end Token

namespace Lexicon

variable {lexicon : Lexicon} {spellings : List (List Char × TokenId)} {start : Nat} {left rest : List Char}

/-- A token that begins among blanks is made of them. -/
theorem clear_behind_blanks
    (clear : Token.Clear (lexicon.tokensFrom spellings start (left ++ rest)) (start + byteLength left)) :
    Token.Clear (lexicon.tokensFrom spellings start (left ++ rest))
      (start + byteLength (left ++ rest.takeWhile isBlank)) := by
  intro token listed
  have tile := lexicon.tokensFrom_tile spellings start (left ++ rest)
  obtain ⟨front, back, whole, place⟩ := tile.piece listed
  rw [byteLength_append]
  by_contra cut
  obtain ⟨ends, begins⟩ := not_or.mp cut
  have behind := (clear token listed).resolve_left (by omega)
  obtain ⟨gap, rfl, parts⟩ : ∃ gap, front = left ++ gap ∧ rest = gap ++ (token.text.toList ++ back) := by
    rw [List.append_assoc] at whole
    rcases List.append_eq_append_iff.mp whole with given | ⟨gap, rfl, parts⟩
    · exact given
    · rw [byteLength_append] at behind
      have empty : gap = [] := byteLength_eq_zero_iff.mp (by omega)
      subst empty
      exact ⟨[], by simp, by simpa using parts.symm⟩
  rw [byteLength_append] at place
  obtain ⟨more, blanks, text⟩ : ∃ more, rest.takeWhile isBlank = gap ++ more ∧
      token.text.toList ++ back = more ++ rest.dropWhile isBlank := by
    have split := (List.takeWhile_append_dropWhile (p := isBlank) (l := rest)).trans parts
    rcases List.append_eq_append_iff.mp split with ⟨more, beyond, _⟩ | given
    · rw [beyond, byteLength_append] at place
      omega
    · exact given
  have gapBlank : ∀ c ∈ gap ++ more, isBlank c = true := fun c held =>
    List.mem_takeWhile_imp (blanks ▸ held)
  rcases channel_cases listed with ⟨_, c, others, spelled, dark⟩ | ⟨_, all⟩
  · cases more with
    | nil =>
      rw [blanks, List.append_nil] at begins
      omega
    | cons d more =>
      rw [spelled, List.cons_append, List.cons_append, List.cons.injEq] at text
      rw [text.1, gapBlank d (by simp)] at dark
      cases dark
  · have run : rest.takeWhile isBlank = gap ++ token.text.toList ++ back.takeWhile isBlank := by
      rw [parts, ← List.append_assoc, List.takeWhile_append_of_pos fun c held => ?_]
      rcases List.mem_append.mp held with held | held
      · exact gapBlank c (List.mem_append_left _ held)
      · exact all c held
    rw [run, byteLength_append, byteLength_append, byteLength_toList] at ends
    rw [Token.stop] at ends
    omega

end Lexicon

end Typeahead
