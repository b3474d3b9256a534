import Typeahead.Proofs.Token.Writing

/-!
What look-ups in opposite directions have to do with each other. A key that is found by an id leads back to the id
as long as it has not been registered under another one since.
-/

namespace Typeahead

/-- The entry with the same key under another id. -/
def Entry.under (id : TokenId) : Entry → Entry
  | .literal text _ => .literal text id
  | .name key _ => .name key id

theorem Entry.under_id (entry : Entry) : entry.under entry.id = entry := by
  cases entry <;> rfl

namespace Vocabulary

/-- All vocabularies there can be: registrations are added to the initial one or to one that was read. -/
inductive Reachable : Vocabulary → Prop where
  | initial : Reachable initial
  | read {text : String} {vocabulary : Vocabulary} (accepted : read text = .ok vocabulary) : Reachable vocabulary
  | add {vocabulary : Vocabulary} (before : Reachable vocabulary) (entry : Entry) :
      Reachable (vocabulary.add entry)

/-- Whenever an entry's key was registered under another id, the entry itself was registered again later. -/
def Lasts (vocabulary : Vocabulary) (entry : Entry) : Prop :=
  ∀ later earlier id, vocabulary.entries = later ++ entry.under id :: earlier → id ≠ entry.id → entry ∈ later

variable {vocabulary : Vocabulary} {id : TokenId} {text name : String}

theorem mem_of_addLines {number : Nat} {lines : List (List Char)} {before : Vocabulary} {entry : Entry}
    (accepted : addLines number before lines = .ok vocabulary) (held : entry ∈ before.entries) :
    entry ∈ vocabulary.entries := by
  induction lines generalizing number before with
  | nil =>
    cases accepted
    exact held
  | cons line lines ih =>
    rw [addLines] at accepted
    split at accepted
    · exact ih accepted held
    · split at accepted
      · exact ih accepted (List.mem_cons_of_mem _ held)
      · cases accepted

theorem Reachable.eof_mem (reachable : vocabulary.Reachable) : .name "EOF" .eof ∈ vocabulary.entries := by
  induction reachable with
  | initial => exact List.mem_singleton_self _
  | read accepted => exact mem_of_addLines accepted (List.mem_singleton_self _)
  | add _ entry ih => exact List.mem_cons_of_mem entry ih

/-- A look-up that reads the id off the entries with one key finds the id of an entry that was registered and
lasts. -/
theorem findSome?_eq_some_iff_lasts (entry : Entry) {idOf? : Entry → Option TokenId}
    (reads : ∀ other id, idOf? other = some id ↔ other = entry.under id) :
    vocabulary.entries.findSome? idOf? = some entry.id ↔
      entry ∈ vocabulary.entries ∧ vocabulary.Lasts entry := by
  have own : idOf? entry = some entry.id := (reads entry entry.id).mpr entry.under_id.symm
  constructor
  · intro found
    obtain ⟨later, last, earlier, whole, read, passed⟩ := List.findSome?_eq_some_iff.mp found
    rw [reads, Entry.under_id] at read
    subst read
    refine ⟨by simp [whole], fun later' earlier' id whole' other => ?_⟩
    rw [whole, List.append_eq_append_iff] at whole'
    rcases whole' with ⟨between, rfl, rest⟩ | ⟨between, rfl, rest⟩
    · cases between with
      | nil =>
        have same := (reads last id).mpr (List.cons.inj rest).1
        rw [own] at same
        exact absurd (Option.some.inj same).symm other
      | cons first between =>
        rw [(List.cons.inj rest).1]
        simp
    · cases between with
      | nil =>
        have same := (reads last id).mpr (List.cons.inj rest).1.symm
        rw [own] at same
        exact absurd (Option.some.inj same).symm other
      | cons first between =>
        -- the entry under the other id would have been found first
        have unread := passed first (by simp)
        rw [← (List.cons.inj rest).1, (reads _ id).mpr rfl] at unread
        cases unread
  · rintro ⟨held, lasts⟩
    cases found : vocabulary.entries.findSome? idOf? with
    | none =>
      have unread := List.findSome?_eq_none_iff.mp found entry held
      rw [own] at unread
      cases unread
    | some id =>
      obtain ⟨later, last, earlier, whole, read, passed⟩ := List.findSome?_eq_some_iff.mp found
      rw [reads] at read
      subst read
      by_contra other
      have again := passed entry (lasts later earlier id whole fun same => other (congrArg some same))
      rw [own] at again
      cases again

theorem literalId?_eq_some_iff : vocabulary.literalId? text = some id ↔
    .literal text id ∈ vocabulary.entries ∧ vocabulary.Lasts (.literal text id) := by
  refine findSome?_eq_some_iff_lasts (.literal text id) fun other id => ?_
  cases other with
  | literal other old => simp [Entry.literalId?, Entry.under]
  | name other old => simp [Entry.literalId?, Entry.under]

theorem nameId?_eq_some_iff : vocabulary.nameId? name = some id ↔
    .name name id ∈ vocabulary.entries ∧ vocabulary.Lasts (.name name id) := by
  refine findSome?_eq_some_iff_lasts (.name name id) fun other id => ?_
  cases other with
  | literal other old => simp [Entry.nameId?, Entry.under]
  | name other old => simp [Entry.nameId?, Entry.under]

theorem mem_of_literalOf? (found : vocabulary.literalOf? id = some text) :
    .literal text id ∈ vocabulary.entries := by
  obtain ⟨entry, held, read⟩ := List.exists_of_findSome?_eq_some found
  cases entry with
  | literal other old =>
    simp only [Entry.literalOf?, Option.ite_none_right_eq_some, Option.some.injEq] at read
    obtain ⟨rfl, rfl⟩ := read
    exact held
  | name other old => cases read

theorem mem_of_nameOf? (found : vocabulary.nameOf? id = some name) :
    .name name id ∈ vocabulary.entries := by
  obtain ⟨entry, held, read⟩ := List.exists_of_findSome?_eq_some found
  cases entry with
  | literal other old => cases read
  | name other old =>
    simp only [Entry.nameOf?, Option.ite_none_right_eq_some, Option.some.injEq] at read
    obtain ⟨rfl, rfl⟩ := read
    exact held

/-- A spelling or a name that is found by an id leads back to it exactly if it lasts under this id. The end of
the input always has an id, and keeps the reserved one exactly as long as its name lasts under that. -/
theorem reachable_returns (reachable : vocabulary.Reachable) :
    (∀ id text, vocabulary.literalOf? id = some text →
      (vocabulary.literalId? text = some id ↔ vocabulary.Lasts (.literal text id))) ∧
    (∀ id name, vocabulary.nameOf? id = some name →
      (vocabulary.nameId? name = some id ↔ vocabulary.Lasts (.name name id))) ∧
    vocabulary.nameId? "EOF" ≠ none ∧
    (vocabulary.nameId? "EOF" = some .eof ↔ vocabulary.Lasts (.name "EOF" .eof)) := by
  refine ⟨fun id text found => ?_, fun id name found => ?_, fun missing => ?_, ?_⟩
  · rw [literalId?_eq_some_iff]
    exact and_iff_right (mem_of_literalOf? found)
  · rw [nameId?_eq_some_iff]
    exact and_iff_right (mem_of_nameOf? found)
  · have unread := List.findSome?_eq_none_iff.mp missing _ reachable.eof_mem
    simp [Entry.nameId?] at unread
  · rw [nameId?_eq_some_iff]
    exact and_iff_right reachable.eof_mem

/-- A spelling that a listing gives a second id is found by the first one and does not lead back to it. The end of
the input is renumbered there as well, but gets its reserved id back. -/
theorem reachable_returns_again :
    let first : Entry := .literal "a" ⟨1⟩
    let second : Entry := .literal "a" ⟨2⟩
    let vocabulary : Vocabulary := ⟨[.name "EOF" .eof, .name "EOF" ⟨7⟩, second, first, .name "EOF" .eof]⟩
    vocabulary.Reachable ∧ vocabulary.literalOf? ⟨1⟩ = some "a" ∧ ¬ vocabulary.Lasts first ∧
      vocabulary.literalOf? ⟨2⟩ = some "a" ∧ vocabulary.Lasts second ∧
      vocabulary.nameOf? ⟨7⟩ = some "EOF" ∧ ¬ vocabulary.Lasts (.name "EOF" ⟨7⟩) ∧
      vocabulary.Lasts (.name "EOF" .eof) := by
  intro first second vocabulary
  have accepted : read "'a'=1\n'a'=2\nEOF=7\nEOF=-1" = .ok vocabulary := rfl
  have reachable := Reachable.read accepted
  obtain ⟨literals, names, _, eof⟩ := reachable_returns reachable
  refine ⟨reachable, by decide, ?_, by decide, ?_, by decide, ?_, eof.mp (by decide)⟩
  · rw [← literals ⟨1⟩ "a" (by decide)]
    decide
  · rw [← literals ⟨2⟩ "a" (by decide)]
    decide
  · rw [← names ⟨7⟩ "EOF" (by decide)]
    decide

/-- A key that is registered anew is still found by its old id. -/
theorem renewed_not_returns :
    let spelled := (initial.add (.literal "a" ⟨1⟩)).add (.literal "a" ⟨2⟩)
    let renumbered := initial.add (.name "EOF" ⟨5⟩)
    spelled.Reachable ∧ spelled.literalOf? ⟨1⟩ = some "a" ∧ spelled.literalId? "a" = some ⟨2⟩ ∧
      renumbered.Reachable ∧ renumbered.nameOf? .eof = some "EOF" ∧ renumbered.nameId? "EOF" = some ⟨5⟩ := by
  intro spelled renumbered
  exact ⟨(Reachable.initial.add _).add _, by decide, by decide, Reachable.initial.add _, by decide, by decide⟩

end Vocabulary

end Typeahead
