import Mathlib.Data.List.Forall2
import Typeahead.Proofs.Completion.Grouping
import Typeahead.Proofs.Results
import Typeahead.Proofs.Text.Boundary

/-!
What becomes of proposals that lie in the text: the text that literals are appended to keeps all that it
had, and an edit puts in what its group agrees on.
-/

namespace Typeahead

namespace Proposal

/-- What is replaced is a piece of the text. -/
structure Fits (proposal : Proposal) (content : String) : Prop where
  ordered : proposal.start ≤ proposal.stop
  start : Text.IsBoundary content proposal.start
  stop : Text.IsBoundary content proposal.stop

/-- The text with something else in the place of what is replaced. -/
def replaced (proposal : Proposal) (content new : String) : String :=
  Text.splice content proposal.start proposal.stop new

variable {proposal : Proposal} {content : String}

theorem Fits.parts (fits : proposal.Fits content) : ∃ left middle right,
    content = left ++ middle ++ right ∧ proposal.start = left.utf8ByteSize ∧
      proposal.stop = (left ++ middle).utf8ByteSize := by
  obtain ⟨left, middle, right, whole, start, stop⟩ := fits.start.split fits.stop fits.ordered
  exact ⟨left, middle, right, whole, start.symm, by rw [String.utf8ByteSize_append, start, stop]⟩

theorem Fits.replaced_eq (fits : proposal.Fits content) (new : String) : ∃ left right,
    Text.before? content proposal.start = some left ∧
      Text.after? content proposal.stop = some right ∧
      proposal.start = left.utf8ByteSize ∧ proposal.replaced content new = left ++ new ++ right := by
  obtain ⟨left, middle, right, rfl, start, stop⟩ := fits.parts
  refine ⟨left, right, ?_, ?_, start, ?_⟩
  · rw [start, Text.before?_append]
  · rw [stop, Text.after?_append]
  · rw [replaced, start, stop, Text.splice_append]

/-- The end of the replaced piece moves with the length of the text. -/
theorem Fits.moved_stop (fits : proposal.Fits content) (new : String) :
    content.utf8ByteSize ≤ (proposal.replaced content new).utf8ByteSize + proposal.stop ∧
    (proposal.replaced content new).utf8ByteSize + proposal.stop - content.utf8ByteSize =
      proposal.start + new.utf8ByteSize := by
  obtain ⟨left, middle, right, rfl, start, stop⟩ := fits.parts
  rw [replaced, start, stop, Text.splice_append]
  simp only [String.utf8ByteSize_append]
  omega

theorem Fits.after?_replaced (fits : proposal.Fits content) (new : String) : ∃ right,
    Text.after? (proposal.replaced content new) (proposal.start + new.utf8ByteSize) = some right ∧
      (proposal.replaced content new).utf8ByteSize =
        proposal.start + new.utf8ByteSize + right.utf8ByteSize := by
  obtain ⟨left, right, _, _, start, whole⟩ := fits.replaced_eq new
  rw [whole, start, ← String.utf8ByteSize_append]
  exact ⟨right, Text.after?_append _ _, String.utf8ByteSize_append ..⟩

theorem Fits.between?_replaced (fits : proposal.Fits content) (new : String) :
    Text.between? (proposal.replaced content new) proposal.start
      (proposal.start + new.utf8ByteSize) = some new := by
  obtain ⟨left, right, _, _, start, whole⟩ := fits.replaced_eq new
  rw [whole, start, ← String.utf8ByteSize_append, Text.between?_append]

end Proposal

/-- Literals in order, each with at most one blank in front. -/
inductive Appended : List String → String → Prop where
  | none : Appended [] ""
  | glued {literal : String} {literals : List String} {text : String}
      (others : Appended literals text) : Appended (literal :: literals) (literal ++ text)
  | spaced {literal : String} {literals : List String} {text : String}
      (others : Appended literals text) : Appended (literal :: literals) (" " ++ literal ++ text)

namespace Completer

variable {completer : Completer} {content text : String} {budget : Nat}

theorem appendLiterals_eq_some {literals : List String} {grown : String}
    (found : (completer.appendLiterals literals text budget).1 = some grown) :
    ∃ tail, Appended literals tail ∧ grown = text ++ tail := by
  induction literals generalizing text budget with
  | nil =>
    cases found
    exact ⟨"", .none, String.append_empty.symm⟩
  | cons literal literals ih =>
    have glued : ∀ {left : Nat},
        (completer.appendLiterals literals (text ++ literal) left).1 = some grown →
          ∃ tail, Appended (literal :: literals) tail ∧ grown = text ++ tail := by
      intro left found
      obtain ⟨tail, appended, rfl⟩ := ih found
      exact ⟨literal ++ tail, .glued appended, String.append_assoc⟩
    simp only [appendLiterals] at found
    split at found
    · split at found
      · cases found
      · obtain ⟨tail, appended, rfl⟩ := ih found
        exact ⟨" " ++ literal ++ tail, .spaced appended, by simp only [String.append_assoc]⟩
      · exact glued found
    · exact glued found

/-- With a larger budget the same text is found. -/
theorem appendLiterals_mono {literals : List String} {grown : String}
    (found : (completer.appendLiterals literals text budget).1 = some grown) {larger : Nat}
    (enough : literals.length ≤ larger) :
    (completer.appendLiterals literals text larger).1 = some grown := by
  induction literals generalizing text budget larger with
  | nil => exact found
  | cons literal literals ih =>
    rw [List.length_cons] at enough
    obtain ⟨more, rfl⟩ : ∃ more, larger = more + 1 := ⟨larger - 1, by omega⟩
    simp only [appendLiterals] at found ⊢
    split at found
    · rename_i known
      rw [if_pos known]
      cases budget with
      | zero => cases found
      | succ budget =>
        simp only [spend] at found ⊢
        split at found
        · cases found
        · exact ih found (by omega)
        · exact ih found (by omega)
    · rename_i unknown
      rw [if_neg unknown]
      exact ih found (by omega)

/-- The text after a suggestion is put in, with the literals that must follow it, where nothing keeps
texts from being read. -/
def grown? (completer : Completer) (content : String) (proposal : Proposal) : Option String :=
  (completer.extendedResult content proposal proposal.site.mandatoryAfter.length).1

theorem extendedResult_eq_some {proposal : Proposal} (fits : proposal.Fits content)
    (found : (completer.extendedResult content proposal budget).1 = some text) :
    completer.grown? content proposal = some text ∧
      ∃ tail, Appended proposal.site.mandatoryAfter tail ∧
        text = proposal.replaced content (proposal.suggestion.content ++ tail) := by
  obtain ⟨longer, grown, rfl⟩ := Option.map_eq_some_iff.mp found
  refine ⟨?_, ?_⟩
  · rw [grown?, extendedResult, appendLiterals_mono grown (Nat.le_refl _), Option.map_some]
  · obtain ⟨tail, appended, rfl⟩ := appendLiterals_eq_some grown
    refine ⟨tail, appended, ?_⟩
    obtain ⟨left, right, before, after, _, whole⟩ :=
      fits.replaced_eq (proposal.suggestion.content ++ tail)
    rw [whole, before, after, Option.getD_some, Option.getD_some]
    simp only [String.append_assoc]

theorem agree_eq_true {others : List Proposal}
    (agreed : (completer.agree content text others budget).1 = true) {other : Proposal}
    (listed : other ∈ others) : ∃ left, (completer.extendedResult content other left).1 = some text := by
  induction others generalizing budget with
  | nil => cases listed
  | cons first others ih =>
    simp only [agree] at agreed
    split at agreed
    · rename_i found
      rcases List.mem_cons.mp listed with rfl | listed
      · exact ⟨budget, found⟩
      · exact ih agreed listed
    · cases agreed

theorem agreedResult?_eq_some {group : ProposalGroup}
    (agreed : (completer.agreedResult? content group budget).1 = some text) {member : Proposal}
    (listed : member ∈ group.first :: group.others) :
    ∃ left, (completer.extendedResult content member left).1 = some text := by
  rw [agreedResult?] at agreed
  split at agreed
  · cases agreed
  · rename_i candidate left extended
    dsimp only at agreed
    split at agreed
    · rename_i others
      cases agreed
      rcases List.mem_cons.mp listed with rfl | listed
      · exact ⟨budget, by rw [extended]⟩
      · exact agree_eq_true others listed
    · cases agreed

end Completer

/-- The proposals of a group lie in the text and lead to the text of the group. -/
def ProposalGroup.Fits (group : ProposalGroup) (content : String) : Prop :=
  ∀ member ∈ group.members, member.Fits content ∧ member.result content = group.text

theorem ProposalGroup.ofProposals_fits {content : String} {proposals : List Proposal}
    (fits : ∀ proposal ∈ proposals, proposal.Fits content) :
    ∀ group ∈ ofProposals content proposals, group.Fits content := by
  intro group listed member among
  obtain ⟨proposed, same⟩ := (mem_members listed).mp among
  exact ⟨fits member proposed, same⟩

/-- A number of bytes is zero, or ends behind one of the characters from byte `offset` on. -/
def EndsAmong (offset : Nat) (chars : List Char) (bytes : Nat) : Prop :=
  bytes = 0 ∨ ∃ front back, chars = front ++ back ∧ bytes = offset + Text.byteLength front

theorem EndsAmong.cons {offset bytes : Nat} {c : Char} {chars : List Char}
    (ends : EndsAmong (offset + c.utf8Size) chars bytes) : EndsAmong offset (c :: chars) bytes := by
  rcases ends with nothing | ⟨front, back, rfl, size⟩
  · exact .inl nothing
  · exact .inr ⟨c :: front, back, rfl, by rw [size, Text.byteLength, Nat.add_assoc]⟩

theorem skipFrom_endsAmong (offset : Nat) (chars expected : List Char) :
    EndsAmong offset chars (skipFrom offset chars expected) := by
  induction chars generalizing offset expected with
  | nil => exact .inl rfl
  | cons c chars ih =>
    cases expected with
    | nil => exact .inl rfl
    | cons e expected =>
      rw [skipFrom]
      split
      · exact .cons (ih _ _)
      · split
        · split
          · exact .cons (.inr ⟨[], chars, rfl, by rw [Text.byteLength, Nat.add_zero]⟩)
          · exact .cons (ih _ _)
        · exact .inl rfl

theorem skipLiterals_isBoundary (text : String) (literals : List String) :
    Text.IsBoundary text (skipLiterals text literals) := by
  rcases skipFrom_endsAmong 0 text.toList
      ((String.join literals).toList.filter fun c => !Text.isBlank c) with
    nothing | ⟨front, back, whole, size⟩
  · rw [skipLiterals, nothing]
    exact ⟨"", text, String.empty_append.symm, rfl⟩
  · refine ⟨String.ofList front, String.ofList back, String.toList_injective (by simpa using whole), ?_⟩
    rw [skipLiterals, size, Text.utf8ByteSize_ofList, Nat.zero_add]

namespace Completer

variable {completer : Completer} {buffer : Buffer} {group : ProposalGroup}

/-- What the edit of a group comes to. -/
structure EditsFor (completer : Completer) (buffer : Buffer) (group : ProposalGroup) (edit : Edit) :
    Prop where
  start : edit.start = group.first.start
  stop : edit.stop = group.first.stop
  description : edit.description = group.first.suggestion.description
  text : ∃ tail, (tail = "" ∨ Appended group.first.site.mandatoryAfter tail) ∧
    edit.text = group.first.suggestion.content ++ tail
  result : (edit.apply buffer).content = group.text ∨
    ∀ member ∈ group.members,
      completer.grown? buffer.content member = some (edit.apply buffer).content
  caret : (∃ caret, group.first.suggestion.caret = some caret ∧
      caret < group.first.suggestion.content.utf8ByteSize ∧ edit.caret = group.first.start + caret) ∨
    ∃ right skipped, Text.after? (edit.apply buffer).content (edit.start + edit.text.utf8ByteSize) =
      some right ∧ Text.IsBoundary right skipped ∧
        edit.caret = edit.start + edit.text.utf8ByteSize + skipped

/-- An edit to a result puts in what makes up the difference. -/
theorem editTo_replaced (fits : group.first.Fits buffer.content) {text new : String}
    (replaced : text = group.first.replaced buffer.content new) :
    (editTo buffer group text).text = new ∧ ((editTo buffer group text).apply buffer).content = text := by
  have stop := (fits.moved_stop new).2
  have middle := fits.between?_replaced new
  rw [← replaced] at stop middle
  have put : (editTo buffer group text).text = new := by
    simp only [editTo, stop, middle, Option.getD_some]
  refine ⟨put, ?_⟩
  rw [Edit.apply, put, replaced]
  rfl

theorem editTo_editsFor (fits : group.first.Fits buffer.content) {tail : String}
    (appended : tail = "" ∨ Appended group.first.site.mandatoryAfter tail) {text : String}
    (grown : text = group.first.replaced buffer.content (group.first.suggestion.content ++ tail))
    (agreed : text = group.text ∨
      ∀ member ∈ group.members, completer.grown? buffer.content member = some text) :
    EditsFor completer buffer group (editTo buffer group text) := by
  obtain ⟨right, behind, _⟩ := fits.after?_replaced (group.first.suggestion.content ++ tail)
  have stop := (fits.moved_stop (group.first.suggestion.content ++ tail)).2
  rw [← grown] at behind stop
  obtain ⟨put, result⟩ := editTo_replaced fits grown
  refine ⟨rfl, rfl, rfl, ⟨tail, appended, put⟩, by rw [result]; exact agreed, ?_⟩
  rw [result, put]
  simp only [editTo, stop, behind, Option.getD_some]
  cases placeholder : group.first.placeholder? with
  | some caret =>
    obtain ⟨said, inside⟩ := Option.filter_eq_some_iff.mp placeholder
    exact .inl ⟨caret, said, of_decide_eq_true inside, rfl⟩
  | none =>
    right
    simp only
    split
    · exact ⟨right, _, rfl, skipLiterals_isBoundary _ _, rfl⟩
    · exact ⟨right, 0, rfl, ⟨"", right, String.empty_append.symm, rfl⟩, rfl⟩

theorem editOf_editsFor (fits : group.Fits buffer.content) (budget : Nat) :
    EditsFor completer buffer group (completer.editOf buffer group budget).1 := by
  obtain ⟨first, plain⟩ := fits group.first List.mem_cons_self
  have unchanged : EditsFor completer buffer group (editTo buffer group group.text) :=
    editTo_editsFor first (.inl rfl) (by rw [String.append_empty]; exact plain.symm) (.inl rfl)
  rw [editOf]
  split
  · cases agreed : (completer.agreedResult? buffer.content group budget).1 with
    | none =>
      simp only [agreed, Option.getD_none]
      exact unchanged
    | some text =>
      simp only [agreed, Option.getD_some]
      obtain ⟨left, extended⟩ := agreedResult?_eq_some agreed List.mem_cons_self
      obtain ⟨_, tail, appended, grown⟩ := extendedResult_eq_some first extended
      refine editTo_editsFor first (.inr appended) grown (.inr fun member listed => ?_)
      obtain ⟨left, extended⟩ := agreedResult?_eq_some agreed listed
      exact (extendedResult_eq_some (fits member listed).1 extended).1
  · exact unchanged

theorem editsOf_editsFor (groups : List ProposalGroup)
    (fit : ∀ group ∈ groups, group.Fits buffer.content) (budget : Nat) :
    List.Forall₂ (EditsFor completer buffer) groups (completer.editsOf buffer groups budget) := by
  induction groups generalizing budget with
  | nil => exact .nil
  | cons group groups ih =>
    exact .cons (editOf_editsFor (fit group List.mem_cons_self) budget)
      (ih (fun other listed => fit other (List.mem_cons_of_mem _ listed)) _)

theorem dropSeen_sublist (seen : List String) (edits : List Edit) :
    (dropSeen buffer seen edits).Sublist edits := by
  induction edits generalizing seen with
  | nil => exact .slnil
  | cons edit edits ih =>
    simp only [dropSeen]
    split
    · exact (ih seen).cons _
    · exact (ih _).cons_cons _

theorem complete_eq_ok {rule : String} {edits : List Edit}
    (answered : completer.complete buffer rule = .ok edits) :
    ∃ proposals budget, completer.proposals buffer rule = .ok proposals ∧
      edits = dropSeen buffer [buffer.content] (completer.editsOf buffer
        (ProposalGroup.ofProposals buffer.content proposals) budget) := by
  obtain ⟨pair, collected, rfl⟩ := map_eq_ok_iff.mp answered
  exact ⟨pair.1, pair.2, map_eq_ok_iff.mpr ⟨pair, collected, rfl⟩, rfl⟩

end Completer

end Typeahead
