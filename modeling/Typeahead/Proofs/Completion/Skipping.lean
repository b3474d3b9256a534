import Typeahead.Proofs.Completion.Merging

/-!
Literals that must follow a proposal and stand behind it already. Where the replaced text goes on behind the
caret they are left as they are, and the caret is put behind them. Where it ends at the caret they are put in
once more, although they are there.
-/

namespace Typeahead

open Text

/-- The characters of a text but blanks. -/
def dark (chars : List Char) : List Char := chars.filter fun c => !isBlank c

/-- A text begins with literals, but for blanks between their characters. It does so up to the end of
`there`, which is the end of the last literal. -/
structure BeginsWith (literals : List String) (text there : String) : Prop where
  front : ∃ behind, text = there ++ behind
  same : dark there.toList = dark (String.join literals).toList
  nonempty : dark (String.join literals).toList ≠ []
  ends : there.toList.getLast?.any isBlank = false

section Literals

theorem dark_append (left right : List Char) : dark (left ++ right) = dark left ++ dark right :=
  List.filter_append ..

theorem dark_cons_of_blank {c : Char} (blank : isBlank c = true) (chars : List Char) :
    dark (c :: chars) = dark chars := List.filter_cons_of_neg (by simp [blank])

theorem dark_cons_of_dark {c : Char} (shows : isBlank c = false) (chars : List Char) :
    dark (c :: chars) = c :: dark chars := List.filter_cons_of_pos (by simp [shows])

theorem eq_nil_of_dark_eq_nil {chars : List Char} (none : dark chars = [])
    (ends : chars.getLast?.any isBlank = false) : chars = [] := by
  cases found : chars.getLast? with
  | none => exact List.getLast?_eq_none_iff.mp found
  | some last =>
    have blank := List.filter_eq_nil_iff.mp none last (List.mem_of_getLast? found)
    rw [found, Option.any_some] at ends
    simp [ends] at blank

theorem skipFrom_append (offset : Nat) {there expected : List Char} (behind : List Char)
    (same : dark there = expected) (nonempty : expected ≠ [])
    (ends : there.getLast?.any isBlank = false) :
    skipFrom offset (there ++ behind) expected = offset + byteLength there := by
  induction there generalizing offset expected with
  | nil => exact absurd same.symm nonempty
  | cons c there ih =>
    obtain ⟨e, others, rfl⟩ := List.exists_cons_of_ne_nil nonempty
    have later : there ≠ [] → there.getLast?.any isBlank = false := by
      intro more
      rwa [List.getLast?_cons, List.getLast?_eq_some_getLast more, Option.getD_some,
        ← List.getLast?_eq_some_getLast more] at ends
    rw [List.cons_append, skipFrom, byteLength, ← Nat.add_assoc]
    cases blank : isBlank c with
    | true =>
      rw [dark_cons_of_blank blank] at same
      have more : there ≠ [] := by
        rintro rfl
        cases same
      rw [if_pos rfl, ih _ same nonempty (later more)]
    | false =>
      rw [dark_cons_of_dark blank] at same
      obtain ⟨rfl, remain⟩ := List.cons.inj same
      rw [if_neg Bool.false_ne_true, if_pos rfl]
      cases others with
      | nil =>
        by_cases more : there = []
        · rw [more]
          rfl
        · exact absurd (eq_nil_of_dark_eq_nil remain (later more)) more
      | cons next others =>
        have more : there ≠ [] := by
          rintro rfl
          cases remain
        rw [List.isEmpty_cons, if_neg Bool.false_ne_true, ih _ remain (List.cons_ne_nil _ _) (later more)]

/-- Literals that are all there are skipped. -/
theorem skipLiterals_of_beginsWith {literals : List String} {text there : String}
    (begins : BeginsWith literals text there) : skipLiterals text literals = there.utf8ByteSize := by
  obtain ⟨behind, rfl⟩ := begins.front
  rw [skipLiterals, String.toList_append]
  refine (skipFrom_append 0 behind.toList begins.same begins.nonempty begins.ends).trans ?_
  rw [Nat.zero_add, byteLength_toList]

theorem dark_of_appended {literals : List String} {tail : String} (appended : Appended literals tail) :
    dark tail.toList = dark (String.join literals).toList := by
  induction appended with
  | none => rfl
  | glued others ih =>
    rw [String.join_cons, String.toList_append, String.toList_append, dark_append, dark_append, ih]
  | spaced others ih =>
    rw [String.join_cons, String.toList_append, String.toList_append, String.toList_append, dark_append,
      dark_append, dark_append, ih]
    rfl

end Literals

namespace Proposal

/-- The suggestion is put in as it is, and the caret stands behind the literals that are there. -/
structure Skips (proposal : Proposal) (buffer : Buffer) (there : String) (edit : Edit) : Prop where
  text : edit.text = proposal.suggestion.content
  result : (edit.apply buffer).content = proposal.result buffer.content
  caret : edit.caret =
    proposal.start + proposal.suggestion.content.utf8ByteSize + there.utf8ByteSize

/-- The literals are put in behind the suggestion, and the caret stands behind what is put in. -/
structure Repeats (proposal : Proposal) (buffer : Buffer) (edit : Edit) : Prop where
  text : ∃ tail, Appended proposal.site.mandatoryAfter tail ∧
    edit.text = proposal.suggestion.content ++ tail
  result : (edit.apply buffer).content = proposal.replaced buffer.content edit.text
  caret : edit.caret = proposal.start + edit.text.utf8ByteSize

end Proposal

namespace Completer

variable {completer : Completer} {buffer : Buffer} {rule : String} {group : ProposalGroup} {edit : Edit}
  {edits : List Edit} {budget : Nat}

section Edits

/-- Where no place is marked in a suggestion, the caret stands behind what is put in, or behind the literals
that are there if nothing was appended. -/
theorem editTo_caret (fits : group.first.Fits buffer.content) (unmarked : group.first.placeholder? = none)
    {right : String} (behind : Text.after? buffer.content group.first.stop = some right) {text new : String}
    (replaced : text = group.first.replaced buffer.content new) :
    (editTo buffer group text).caret = group.first.start + new.utf8ByteSize +
      if text = group.text then skipLiterals right group.first.site.mandatoryAfter else 0 := by
  obtain ⟨left, right', _, behind', start, whole⟩ := fits.replaced_eq new
  cases behind.symm.trans behind'
  have stop := (fits.moved_stop new).2
  have after : Text.after? text (group.first.start + new.utf8ByteSize) = some right := by
    rw [replaced, whole, start, ← String.utf8ByteSize_append, after?_append]
  rw [← replaced] at stop
  simp only [editTo, stop, after, unmarked, Option.getD_some]
  split <;> rfl

theorem editTo_skips (fits : group.first.Fits buffer.content)
    (same : group.first.result buffer.content = group.text) (unmarked : group.first.placeholder? = none)
    {right there : String} (behind : Text.after? buffer.content group.first.stop = some right)
    (begins : BeginsWith group.first.site.mandatoryAfter right there) :
    group.first.Skips buffer there (editTo buffer group group.text) := by
  obtain ⟨text, result⟩ := editTo_replaced fits same.symm
  have caret := editTo_caret fits unmarked behind same.symm
  rw [if_pos rfl, skipLiterals_of_beginsWith begins] at caret
  exact ⟨text, by rw [result, same], caret⟩

theorem editTo_repeats (fits : group.first.Fits buffer.content)
    (same : group.first.result buffer.content = group.text) (unmarked : group.first.placeholder? = none)
    {right there : String} (behind : Text.after? buffer.content group.first.stop = some right)
    (begins : BeginsWith group.first.site.mandatoryAfter right there) {tail text : String}
    (appended : Appended group.first.site.mandatoryAfter tail)
    (grown : text = group.first.replaced buffer.content (group.first.suggestion.content ++ tail)) :
    group.first.Repeats buffer (editTo buffer group text) := by
  obtain ⟨put, result⟩ := editTo_replaced fits grown
  have caret := editTo_caret fits unmarked behind grown
  have longer : text ≠ group.text := by
    intro unchanged
    have size := (fits.moved_stop (group.first.suggestion.content ++ tail)).2
    have size' := (fits.moved_stop group.first.suggestion.content).2
    rw [← grown, unchanged] at size
    rw [show group.first.replaced _ _ = group.text from same, size, String.utf8ByteSize_append] at size'
    have empty : tail = "" := String.utf8ByteSize_eq_zero_iff.mp (by omega)
    have none := dark_of_appended appended
    rw [empty] at none
    exact begins.nonempty none.symm
  rw [if_neg longer] at caret
  refine ⟨⟨tail, appended, put⟩, ?_, ?_⟩
  · rw [result, put, grown]
  · rw [caret, put, Nat.add_zero]

theorem exists_editOf_of_mem {groups : List ProposalGroup}
    (listed : edit ∈ completer.editsOf buffer groups budget) :
    ∃ group ∈ groups, ∃ left, edit = (completer.editOf buffer group left).1 := by
  induction groups generalizing budget with
  | nil => cases listed
  | cons group groups ih =>
    rcases List.mem_cons.mp listed with rfl | others
    · exact ⟨group, List.mem_cons_self, budget, rfl⟩
    · obtain ⟨other, among, found⟩ := ih others
      exact ⟨other, List.mem_cons_of_mem _ among, found⟩

end Edits

theorem complete_of_checked (answered : Checked.complete completer buffer rule = .ok (.ok edits)) :
    ∃ proposals, completer.proposals buffer rule = .ok proposals ∧
      (∀ proposal ∈ proposals, proposal.Fits buffer.content) ∧
      completer.complete buffer rule = .ok edits := by
  obtain ⟨proposals, proposed, fits⟩ := proposals_fit_of_complete answered
  refine ⟨proposals, proposed, fits, ?_⟩
  have same : Checked.complete completer buffer rule = .ok (completer.complete buffer rule) := by
    refine Checked.complete_eq fun found foundProposals => ?_
    rw [proposed] at foundProposals
    cases foundProposals
    exact fits
  rw [same] at answered
  exact Except.ok.inj answered

/-- Literals that must follow and are there already are not put in again where the replaced text goes on behind
the caret, or where the group agrees on nothing to append. Otherwise they are put in a second time. -/
theorem complete_skips (answered : Checked.complete completer buffer rule = .ok (.ok edits))
    (listed : edit ∈ edits) :
    ∃ proposals group budget, completer.proposals buffer rule = .ok proposals ∧
      group ∈ ProposalGroup.ofProposals buffer.content proposals ∧
      edit = (completer.editOf buffer group budget).1 ∧
      ∀ right there, Text.after? buffer.content group.first.stop = some right →
        BeginsWith group.first.site.mandatoryAfter right there → group.first.placeholder? = none →
          if buffer.caret < group.first.stop ∨
              (completer.agreedResult? buffer.content group budget).1 = none then
            group.first.Skips buffer there edit
          else group.first.Repeats buffer edit := by
  obtain ⟨proposals, proposed, fits, plain⟩ := complete_of_checked answered
  obtain ⟨found, budget, foundProposals, rfl⟩ := complete_eq_ok plain
  rw [proposed] at foundProposals
  cases foundProposals
  obtain ⟨group, grouped, left, rfl⟩ := exists_editOf_of_mem ((dropSeen_sublist _ _).mem listed)
  refine ⟨proposals, group, left, proposed, grouped, rfl, fun right there behind begins unmarked => ?_⟩
  obtain ⟨first, same⟩ := ProposalGroup.ofProposals_fits fits group grouped group.first List.mem_cons_self
  by_cases beyond : buffer.caret < group.first.stop
  · rw [if_pos (.inl beyond), editOf, if_neg (Nat.not_le_of_lt beyond)]
    exact editTo_skips first same unmarked behind begins
  · rw [editOf, if_pos (Nat.le_of_not_lt beyond)]
    cases agreed : (completer.agreedResult? buffer.content group left).1 with
    | none =>
      rw [if_pos (.inr rfl)]
      dsimp only
      rw [agreed, Option.getD_none]
      exact editTo_skips first same unmarked behind begins
    | some text =>
      rw [if_neg (not_or.mpr ⟨beyond, Option.some_ne_none text⟩)]
      obtain ⟨_, extended⟩ := agreedResult?_eq_some agreed List.mem_cons_self
      obtain ⟨_, tail, appended, grown⟩ := extendedResult_eq_some first extended
      dsimp only
      rw [agreed, Option.getD_some]
      exact editTo_repeats first same unmarked behind begins appended grown

/-- The caret is put behind a literal that stands apart from the name. -/
theorem complete_skips_call :
    let buffer : Buffer := ⟨"si (", 1⟩
    Checked.complete Sample.callCompleter buffer "call" = .ok (.ok
      [⟨1, 1, "(", 2, none⟩, ⟨0, 2, "sin", 5, none⟩, ⟨0, 2, "sqrt", 6, some "root"⟩]) ∧
    ∃ proposal : Proposal, proposal.start = 0 ∧ proposal.stop = 2 ∧ proposal.site.mandatoryAfter = ["("] ∧
      BeginsWith ["("] " (" " (" ∧ proposal.Skips buffer " (" ⟨0, 2, "sin", 5, none⟩ := by
  intro buffer
  have answered : Checked.complete Sample.callCompleter buffer "call" = .ok (.ok
      [⟨1, 1, "(", 2, none⟩, ⟨0, 2, "sin", 5, none⟩, ⟨0, 2, "sqrt", 6, some "root"⟩]) := by
    decide +kernel
  obtain ⟨proposals, group, budget, proposed, grouped, same, skips⟩ :=
    complete_skips answered (List.mem_cons_of_mem _ List.mem_cons_self)
  have start : group.first.start = 0 := by
    have begins := congrArg Edit.start same
    rw [editOf] at begins
    split at begins <;> exact begins.symm
  have shape : ∀ proposal ∈ (Sample.callCompleter.proposals buffer "call").toOption.getD [],
      proposal.start = 0 → proposal.stop = 2 ∧ proposal.site.mandatoryAfter = ["("] ∧
        proposal.placeholder? = none := by
    decide +kernel
  rw [proposed] at shape
  have among := ((ProposalGroup.mem_members grouped).mp List.mem_cons_self).1
  obtain ⟨stop, literals, unmarked⟩ := shape group.first among start
  have behind : Text.after? buffer.content group.first.stop = some " (" := by
    rw [stop]
    decide +kernel
  have begins : BeginsWith ["("] " (" " (" :=
    ⟨⟨"", rfl⟩, by decide +kernel, by decide +kernel, by decide +kernel⟩
  have skipped := skips " (" " (" behind (by rw [literals]; exact begins) unmarked
  rw [if_pos (.inl (by rw [stop]; decide))] at skipped
  exact ⟨answered, group.first, start, stop, literals, begins, skipped⟩

/-- Where the caret stands behind the name, the parenthesis that is there is put in a second time. -/
theorem call_repeats :
    let completer := Sample.callCompleter
    let buffer : Buffer := ⟨"s(", 1⟩
    Checked.complete completer buffer "call" = .ok (.ok
      [⟨0, 1, "sin(", 4, none⟩, ⟨0, 1, "sqrt(", 5, some "root"⟩]) ∧
    ∃ proposals group budget, completer.proposals buffer "call" = .ok proposals ∧
      group ∈ ProposalGroup.ofProposals buffer.content proposals ∧ group.others = [] ∧
      group.first.placeholder? = none ∧ Text.after? buffer.content group.first.stop = some "(" ∧
      BeginsWith group.first.site.mandatoryAfter "(" "(" ∧
      (completer.editOf buffer group budget).1 = ⟨0, 1, "sin(", 4, none⟩ ∧
      group.first.result buffer.content = "sin(" ∧
      (Edit.apply ⟨0, 1, "sin(", 4, none⟩ buffer).content = "sin((" := by
  intro completer buffer
  have found : (completer.proposals buffer "call").toOption.any (fun proposals =>
      (ProposalGroup.ofProposals buffer.content proposals).any fun group =>
        group.others.isEmpty ∧ group.first.placeholder? = none ∧ group.first.stop = 1 ∧
          group.first.site.mandatoryAfter = ["("] ∧
          (completer.editOf buffer group completer.limits.rereads).1 = ⟨0, 1, "sin(", 4, none⟩ ∧
          group.first.result buffer.content = "sin(") = true := by
    decide +kernel
  obtain ⟨proposals, proposed, found⟩ := (Option.any_eq_true _ _).mp found
  obtain ⟨group, grouped, found⟩ := List.any_eq_true.mp found
  obtain ⟨single, unmarked, stop, literals, edit, result⟩ := of_decide_eq_true found
  refine ⟨by decide +kernel, proposals, group, completer.limits.rereads, eq_ok_of_toOption proposed, grouped,
    List.isEmpty_iff.mp single, unmarked, ?_, ?_, edit, result, by decide +kernel⟩
  · rw [stop]
    decide +kernel
  · rw [literals]
    exact ⟨⟨"", rfl⟩, by decide +kernel, by decide +kernel, by decide +kernel⟩

end Completer

end Typeahead
