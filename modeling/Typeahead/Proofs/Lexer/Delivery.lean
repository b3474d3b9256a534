import Mathlib.Data.Nat.Find
import Typeahead.Lexer.Cursor

/-!
What a grammar gets to see of the answers of a lexer, whatever they are. A cursor gives out the tokens of the
default channel in front of the first answer that ends the reading, then that answer if it is an error, and then
asks no more.
-/

namespace Typeahead

namespace Stream

variable {stream : Stream} {place last count : Nat}

/-- The first answer that is an error or the end of the input, which may be on any channel. -/
structure EndsAt (stream : Stream) (last : Nat) : Prop where
  isLast : (stream.answer last).isLast = true
  first : ∀ place < last, (stream.answer place).isLast = false

/-- The token that is answered at a place, if it is on the default channel. -/
def shown? (stream : Stream) (place : Nat) : Option Token :=
  (stream.answer place).toOption.filter fun token => token.channel = .default

/-- The error at a place, if there is one. -/
def failure (stream : Stream) (place : Nat) : List Answer :=
  match stream.answer place with
  | .error failure => [.error failure]
  | .ok _ => []

/-- What the answers from a place on show, where the last one comes behind `count` others. -/
def shownFrom (stream : Stream) (place count : Nat) : List Answer :=
  ((List.range' place count).filterMap stream.shown?).map .ok ++ stream.failure (place + count)

theorem EndsAt.exists (stream : Stream) : ∃ last ≤ stream.bound, stream.EndsAt last := by
  have some : ∃ place, (stream.answer place).isLast = true := ⟨stream.bound, stream.ends⟩
  refine ⟨Nat.find some, Nat.find_min' some stream.ends, Nat.find_spec some, fun place before => ?_⟩
  simpa using Nat.find_min some before

theorem EndsAt.unique {other : Nat} (ends : stream.EndsAt last) (also : stream.EndsAt other) : last = other := by
  rcases Nat.lt_trichotomy last other with before | same | behind
  · have open' := also.first last before
    rw [ends.isLast] at open'
    cases open'
  · exact same
  · have open' := ends.first other behind
    rw [also.isLast] at open'
    cases open'

/-- An answer that is not the last one is a token. -/
theorem EndsAt.token (ends : stream.EndsAt last) (before : place < last) :
    ∃ token, stream.answer place = .ok token ∧ token.isEof = false := by
  have goesOn := ends.first place before
  cases answer : stream.answer place with
  | error failure =>
    rw [answer] at goesOn
    cases goesOn
  | ok token =>
    rw [answer] at goesOn
    exact ⟨token, rfl, goesOn⟩

theorem shownFrom_zero (stream : Stream) (place : Nat) : stream.shownFrom place 0 = stream.failure place := rfl

theorem shownFrom_succ {token : Token} (answer : stream.answer place = .ok token) (count : Nat) :
    stream.shownFrom place (count + 1) =
      if token.channel = .default then .ok token :: stream.shownFrom (place + 1) count
      else stream.shownFrom (place + 1) count := by
  have behind : place + (count + 1) = place + 1 + count := by omega
  have here : stream.shown? place = if token.channel = .default then some token else none := by
    rw [shown?, answer]
    simp [Except.toOption, Option.filter]
  rw [shownFrom, shownFrom, List.range'_succ, List.filterMap_cons, here, behind]
  split
  · rename_i none
    split at none
    · cases none
    · rename_i hidden
      rw [if_neg hidden]
  · rename_i first shown
    split at shown
    · rename_i visible
      cases shown
      rw [if_pos visible]
      rfl
    · cases shown

end Stream

namespace Cursor

variable {stream : Stream} {place last count : Nat}

def ofStream (stream : Stream) : Cursor := { stream }

/-- A cursor that has been asked a number of times. -/
def after (cursor : Cursor) : Nat → Cursor
  | 0 => cursor
  | calls + 1 => (cursor.after calls).next.2

/-- What a cursor says when it has been asked a number of times before. -/
def call (cursor : Cursor) (calls : Nat) : Option Answer := (cursor.after calls).next.1

/-- A cursor that has read a last answer. -/
def drained (stream : Stream) (last : Nat) : Cursor := ⟨stream, last + 1, true⟩

/-- A cursor on its way to the last answer, with what it has still to give out. -/
inductive Stands (stream : Stream) (last : Nat) : Cursor → List Answer → Prop where
  | reading {place count : Nat} (behind : place + count = last) :
      Stands stream last ⟨stream, place, false⟩ (stream.shownFrom place count)
  | done : Stands stream last (drained stream last) []

theorem readOn_stands {fuel : Nat} (ends : stream.EndsAt last) (behind : place + count = last)
    (enough : count < fuel) :
    let items := stream.shownFrom place count
    let read := readOn stream fuel place
    read.1 = items.head? ∧ Stands stream last read.2 items.tail ∧
      ((∀ token, items.head? ≠ some (.ok token)) → read.2 = drained stream last) := by
  induction count generalizing place fuel with
  | zero =>
    obtain ⟨fuel, rfl⟩ := Nat.exists_eq_add_of_lt enough
    rw [Nat.add_zero] at behind
    subst behind
    have isLast := ends.isLast
    dsimp only
    rw [Nat.zero_add, readOn, Stream.shownFrom_zero, Stream.failure]
    cases answer : stream.answer place with
    | error failure => exact ⟨rfl, .done, fun _ => rfl⟩
    | ok token =>
      rw [answer] at isLast
      have eof : token.isEof = true := isLast
      dsimp only
      rw [if_pos eof]
      exact ⟨rfl, .done, fun _ => rfl⟩
  | succ count ih =>
    obtain ⟨fuel, rfl⟩ := Nat.exists_eq_add_of_lt enough
    obtain ⟨token, answer, goesOn⟩ := ends.token (show place < last by omega)
    have next : place + 1 + count = last := by omega
    dsimp only
    rw [readOn, Stream.shownFrom_succ answer, answer]
    dsimp only
    rw [if_neg (by simp [goesOn])]
    split
    · refine ⟨rfl, .reading next, fun none => ?_⟩
      exact absurd rfl (none token)
    · exact ih next (by omega)

/-- One call gives out the first of the items that are left, and leaves the others. Where there is none, or an
error comes first, the cursor is done. -/
theorem Stands.next {cursor : Cursor} {items : List Answer} (ends : stream.EndsAt last)
    (within : last ≤ stream.bound) (stands : Stands stream last cursor items) :
    cursor.next.1 = items.head? ∧ Stands stream last cursor.next.2 items.tail ∧
      ((∀ token, items.head? ≠ some (.ok token)) → cursor.next.2 = drained stream last) := by
  cases stands with
  | @reading place count behind =>
    rw [Cursor.next]
    exact readOn_stands ends behind (by dsimp only; omega)
  | done => exact ⟨rfl, .done, fun _ => rfl⟩

theorem Stands.after {cursor : Cursor} {items : List Answer} (ends : stream.EndsAt last)
    (within : last ≤ stream.bound) (stands : Stands stream last cursor items) (calls : Nat) :
    Stands stream last (cursor.after calls) (items.drop calls) := by
  induction calls with
  | zero => exact stands
  | succ calls ih =>
    rw [← List.tail_drop]
    exact (ih.next ends within).2.1

end Cursor

section Tokens

variable {stream : Stream} {place last count size : Nat}

theorem Stream.visible_answers (ends : stream.EndsAt last) (behind : place + count = last) (enough : count < size) :
    Stream.visible ((List.range' place size).map stream.answer) = stream.shownFrom place count := by
  obtain ⟨size, rfl⟩ := Nat.exists_eq_add_of_lt enough
  induction count generalizing place with
  | zero =>
    rw [Nat.add_zero] at behind
    subst behind
    have isLast := ends.isLast
    rw [Nat.zero_add, List.range'_succ, List.map_cons, shownFrom_zero, failure]
    cases answer : stream.answer place with
    | error failure => rfl
    | ok token =>
      rw [answer] at isLast
      have eof : token.isEof = true := isLast
      rw [visible, if_pos eof]
  | succ count ih =>
    obtain ⟨token, answer, goesOn⟩ := ends.token (show place < last by omega)
    have rest := ih (show place + 1 + count = last by omega) (by omega)
    have longer : count + 1 + size + 1 = count + size + 1 + 1 := by omega
    rw [longer, List.range'_succ, List.map_cons, shownFrom_succ answer, answer, visible, if_neg (by simp [goesOn]),
      rest]

theorem allTokens_append (tokens : List Token) (rest : List Answer) :
    allTokens (tokens.map .ok ++ rest) = (allTokens rest).map (tokens ++ ·) := by
  induction tokens with
  | nil =>
    rw [List.map_nil, List.nil_append]
    cases allTokens rest <;> rfl
  | cons token tokens ih =>
    rw [List.map_cons, List.cons_append, allTokens, ih]
    cases allTokens rest <;> rfl

theorem Stream.mem_shownFrom {token : Token} (ends : stream.EndsAt last) (behind : place + count = last)
    (given : .ok token ∈ stream.shownFrom place count) : token.isEof = false ∧ token.channel = .default := by
  rw [shownFrom, List.mem_append] at given
  rcases given with shown | failed
  · obtain ⟨_, listed, same⟩ := List.mem_map.mp shown
    cases same
    obtain ⟨at', inside, found⟩ := List.mem_filterMap.mp listed
    have early := (List.mem_range'_1.mp inside).2
    obtain ⟨before, answer, goesOn⟩ := ends.token (show at' < last by omega)
    rw [shown?, answer, Option.filter_eq_some_iff] at found
    obtain ⟨same, channel⟩ := found
    cases same
    exact ⟨goesOn, of_decide_eq_true channel⟩
  · rw [failure] at failed
    split at failed
    · cases List.mem_singleton.mp failed
    · cases failed

end Tokens

/-- Whatever a lexer answers, a cursor gives out the tokens of the default channel in front of the first answer
that is an error or the end of the input on any channel, then that answer if it is an error, and then nothing,
without another question. Read as a whole, the text has these tokens, or else the error. -/
theorem Cursor.delivers {lexer : Lexer} {text : String} {stream : Stream} (started : lexer text = .ok stream) :
    ∃ last, stream.EndsAt last ∧
      let tokens := (List.range last).filterMap stream.shown?
      let items : List Answer := tokens.map .ok ++ stream.failure last
      let cursor := Cursor.ofStream stream
      (∀ calls, cursor.call calls = items[calls]?) ∧
      (∀ calls token, cursor.call calls = some (.ok token) →
        token.isEof = false ∧ token.channel = .default) ∧
      (∀ calls, items.length < calls → cursor.after calls = drained stream last) ∧
      (stream.failure last ≠ [] → cursor.after items.length = drained stream last) ∧
      lexer.tokenize text = match stream.answer last with
        | .ok _ => .ok tokens
        | .error failure => .error failure := by
  obtain ⟨last, within, ends⟩ := Stream.EndsAt.exists stream
  refine ⟨last, ends, ?_⟩
  intro tokens items cursor
  have whole : items = stream.shownFrom 0 last := by
    rw [Stream.shownFrom, Nat.zero_add, ← List.range_eq_range']
  have stands (calls : Nat) : Stands stream last (cursor.after calls) (items.drop calls) := by
    rw [whole]
    exact (Stands.reading (Nat.zero_add last)).after ends within calls
  have called (calls : Nat) : cursor.call calls = items[calls]? := by
    rw [call, ((stands calls).next ends within).1, List.head?_drop]
  refine ⟨called, fun calls token given => ?_, ?_, ?_, ?_⟩
  · rw [called, whole] at given
    exact Stream.mem_shownFrom ends (Nat.zero_add last) (List.mem_of_getElem? given)
  · intro calls behind
    obtain ⟨before, rfl⟩ := Nat.exists_eq_add_of_lt behind
    refine ((stands (items.length + before)).next ends within).2.2 fun token first => ?_
    rw [List.drop_eq_nil_of_le (Nat.le_add_right _ _)] at first
    cases first
  · intro failed
    cases answer : stream.answer last with
    | ok token =>
      rw [Stream.failure, answer] at failed
      exact absurd rfl failed
    | error failure =>
      have only : stream.failure last = [.error failure] := by rw [Stream.failure, answer]
      have size : items.length = tokens.length + 1 := by simp [items, only]
      have left : items.drop tokens.length = [.error failure] := by simp [items, only]
      rw [size]
      refine ((stands tokens.length).next ends within).2.2 fun token first => ?_
      rw [left] at first
      cases first
  · rw [Lexer.tokenize, Lexer.items, started, Except.map, Except.bind, Stream.items, Stream.answers,
      List.range_eq_range', Stream.visible_answers ends (Nat.zero_add last) (Nat.lt_succ_of_le within), ← whole,
      allTokens_append, Stream.failure]
    cases stream.answer last with
    | error failure => rfl
    | ok token => simp [allTokens, Except.map]

/-- Blanks are passed over, and an end of the input on their channel hides the error behind it. -/
theorem Cursor.delivers_hidden :
    let name : Token := ⟨⟨1⟩, "a", 0, .default⟩
    let blank : Token := ⟨⟨5⟩, " ", 1, .hidden⟩
    let hiddenEnd : Token := ⟨.eof, "", 2, .hidden⟩
    let stream := Stream.ofList [.ok blank, .ok name, .ok blank, .ok hiddenEnd] (.error (.other "broken")) rfl
    let lexer : Lexer := fun _ => .ok stream
    let cursor := Cursor.ofStream stream
    lexer " a " = .ok stream ∧ stream.EndsAt 3 ∧ cursor.call 0 = some (.ok name) ∧ cursor.call 1 = none ∧
      cursor.after 5 = drained stream 3 ∧ lexer.tokenize " a " = .ok [name] := by
  intro name blank hiddenEnd stream lexer cursor
  have started : lexer " a " = .ok stream := rfl
  have ends : stream.EndsAt 3 := ⟨rfl, by decide⟩
  obtain ⟨last, endsLast, called, _, rests, _, tokenized⟩ := delivers started
  obtain rfl := endsLast.unique ends
  exact ⟨started, ends, called 0, called 1, rests 5 (by decide), tokenized⟩

end Typeahead
