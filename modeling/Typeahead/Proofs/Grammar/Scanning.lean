import Typeahead.Proofs.Grammar.Spelling
import Typeahead.Proofs.Grammar.WellFormed

/-!
Walks as they call themselves, with nothing that bounds the calls. A walk over an element of a compiled
grammar comes to an end, since it enters no rule twice, and it finds what the spellings begin with.
-/

namespace Typeahead

/-- The rule that a walk over a symbol leads into. -/
def Symbol.entrance? (grammar : Grammar) : Symbol → Option Nat
  | .rule target _ => some target
  | .token name _ => Walk.ruleOfToken? grammar name
  | .literal _ _ | .noneOf _ | .any => none

namespace Walk

def entering (walk : Walk) (target : Nat) : Walk := { walk with entered := target :: walk.entered }

def finding (walk : Walk) (text : String) : Walk := { walk with found := walk.found ++ [text] }

mutual

/-- A rule is entered once, and looked into where it has a single alternative. -/
inductive Enters (grammar : Grammar) : (target : Nat) → (walk next : Walk) → Prop where
  | again {target : Nat} {walk : Walk} (old : target ∈ walk.entered) :
      Enters grammar target walk walk.stop
  | choice {target : Nat} {walk : Walk} (new : target ∉ walk.entered)
      (several : ∀ alternative, grammar.alternatives target ≠ [alternative]) :
      Enters grammar target walk (walk.entering target).stop
  | through {target : Nat} {walk next : Walk} {alternative : Alternative} (new : target ∉ walk.entered)
      (single : grammar.alternatives target = [alternative])
      (inside : Scans grammar alternative.elements (walk.entering target) next) :
      Enters grammar target walk next

inductive Meets (grammar : Grammar) : (symbol : Symbol) → (walk next : Walk) → Prop where
  | literal {text : String} {id : TokenId} {walk : Walk} :
      Meets grammar (.literal text id) walk (walk.finding text)
  | unknown {symbol : Symbol} {walk : Walk} (other : symbol.literal? = none)
      (closed : symbol.entrance? grammar = none) : Meets grammar symbol walk walk.stop
  | rule {symbol : Symbol} {target : Nat} {walk next : Walk}
      (leads : symbol.entrance? grammar = some target) (enters : Enters grammar target walk next) :
      Meets grammar symbol walk next

inductive Passes (grammar : Grammar) : (element : Element) → (walk next : Walk) → Prop where
  | once {element : Element} {walk next : Walk} (once : element.multiplicity = .once)
      (meets : Meets grammar element.symbol walk next) : Passes grammar element walk next
  | plus {element : Element} {walk next : Walk} (plus : element.multiplicity = .plus)
      (meets : Meets grammar element.symbol walk next) : Passes grammar element walk next.stop
  | omissible {element : Element} {walk : Walk} (optional : element.multiplicity.isOptional = true) :
      Passes grammar element walk walk.stop

/-- Elements are walked over in order, up to the first one that the walk stops at. -/
inductive Scans (grammar : Grammar) : (elements : List Element) → (walk next : Walk) → Prop where
  | done {walk : Walk} : Scans grammar [] walk walk
  | stopped {element : Element} {rest : List Element} {walk next : Walk}
      (passes : Passes grammar element walk next) (ended : next.stopped = true) :
      Scans grammar (element :: rest) walk next
  | further {element : Element} {rest : List Element} {walk next later : Walk}
      (passes : Passes grammar element walk next) (goes : next.stopped = false)
      (others : Scans grammar rest next later) : Scans grammar (element :: rest) walk later

end

mutual

theorem Enters.unique {grammar : Grammar} {target : Nat} {walk next other : Walk} :
    Enters grammar target walk next → Enters grammar target walk other → next = other
  | .again _, .again _ => rfl
  | .again old, .choice new _ => (new old).elim
  | .again old, .through new _ _ => (new old).elim
  | .choice new _, .again old => (new old).elim
  | .choice _ _, .choice _ _ => rfl
  | .choice _ several, .through _ single _ => (several _ single).elim
  | .through new _ _, .again old => (new old).elim
  | .through _ single _, .choice _ several => (several _ single).elim
  | .through _ single inside, .through _ again others => by
    rw [single, List.singleton_inj] at again
    subst again
    exact inside.unique others
termination_by structural given => given

theorem Meets.unique {grammar : Grammar} {symbol : Symbol} {walk next other : Walk} :
    Meets grammar symbol walk next → Meets grammar symbol walk other → next = other
  | .literal, .literal => rfl
  | .literal, .unknown differs _ => nomatch differs
  | .literal, .rule leads _ => nomatch leads
  | .unknown differs _, .literal => nomatch differs
  | .unknown _ _, .unknown _ _ => rfl
  | .unknown _ closed, .rule leads _ => nomatch closed.symm.trans leads
  | .rule leads _, .literal => nomatch leads
  | .rule leads _, .unknown _ closed => nomatch closed.symm.trans leads
  | .rule leads enters, .rule again others => by
    rw [leads, Option.some.injEq] at again
    subst again
    exact enters.unique others
termination_by structural given => given

theorem Passes.unique {grammar : Grammar} {element : Element} {walk next other : Walk} :
    Passes grammar element walk next → Passes grammar element walk other → next = other
  | .once _ meets, .once _ others => meets.unique others
  | .plus _ meets, .plus _ others => congrArg Walk.stop (meets.unique others)
  | .omissible _, .omissible _ => rfl
  | .once once _, .plus plus _ => nomatch once.symm.trans plus
  | .once once _, .omissible optional => by rw [once] at optional; cases optional
  | .plus plus _, .once once _ => nomatch once.symm.trans plus
  | .plus plus _, .omissible optional => by rw [plus] at optional; cases optional
  | .omissible optional, .once once _ => by rw [once] at optional; cases optional
  | .omissible optional, .plus plus _ => by rw [plus] at optional; cases optional
termination_by structural given => given

theorem Scans.unique {grammar : Grammar} {elements : List Element} {walk next other : Walk} :
    Scans grammar elements walk next → Scans grammar elements walk other → next = other
  | .done, .done => rfl
  | .stopped passes _, .stopped others _ => passes.unique others
  | .stopped passes ended, .further others goes _ => by
    rw [passes.unique others, goes] at ended
    cases ended
  | .further passes goes _, .stopped others ended => by
    rw [passes.unique others, ended] at goes
    cases goes
  | .further passes _ rest, .further others _ others' => by
    have same := passes.unique others
    subst same
    exact rest.unique others'
termination_by structural given => given

end

/-- A walk has entered rules of the grammar, none of them twice, and has fuel for those it has not entered. -/
structure Ready (grammar : Grammar) (fuel : Nat) (walk : Walk) : Prop where
  distinct : walk.entered.Nodup
  declared : ∀ target ∈ walk.entered, target < grammar.rules.length
  enough : grammar.rules.length ≤ fuel + walk.entered.length

variable {grammar : Grammar} {fuel target : Nat} {walk : Walk} {element : Element}

theorem Ready.entering (ready : Ready grammar (fuel + 1) walk) (new : target ∉ walk.entered)
    (inside : target < grammar.rules.length) : Ready grammar fuel (walk.entering target) where
  distinct := List.nodup_cons.mpr ⟨new, ready.distinct⟩
  declared := List.forall_mem_cons.mpr ⟨inside, ready.declared⟩
  enough := by
    have enough := ready.enough
    rw [Walk.entering, List.length_cons]
    omega

theorem Ready.weaken (ready : Ready grammar fuel walk) : Ready grammar (fuel + 1) walk where
  distinct := ready.distinct
  declared := ready.declared
  enough := by
    have enough := ready.enough
    omega

theorem Ready.stop (ready : Ready grammar fuel walk) : Ready grammar fuel walk.stop :=
  ⟨ready.distinct, ready.declared, ready.enough⟩

theorem Ready.finding (ready : Ready grammar fuel walk) (text : String) :
    Ready grammar fuel (walk.finding text) :=
  ⟨ready.distinct, ready.declared, ready.enough⟩

/-- Without fuel all rules have been entered. -/
theorem Ready.mem_entered (ready : Ready grammar 0 walk) (inside : target < grammar.rules.length) :
    target ∈ walk.entered := by
  have included : walk.entered ⊆ List.range grammar.rules.length :=
    fun rule listed => List.mem_range.mpr (ready.declared rule listed)
  have all : walk.entered.Perm (List.range grammar.rules.length) := by
    apply (List.subperm_of_subset ready.distinct included).perm_of_length_le
    have enough := ready.enough
    rw [List.length_range]
    omega
  exact all.mem_iff.mpr (List.mem_range.mpr inside)

theorem entrance?_lt {symbol : Symbol} (refers : symbol.Refers grammar)
    (leads : symbol.entrance? grammar = some target) : target < grammar.rules.length := by
  cases symbol with
  | rule place name => exact refers.target_lt leads
  | token name id =>
    obtain ⟨named, _⟩ := Option.filter_eq_some_iff.mp leads
    exact (List.findIdx?_eq_some_iff_getElem.mp named).1
  | literal | noneOf | any => cases leads

section Steps

variable {enter : Nat → Walk → Walk} (enters : ∀ target walk, target < grammar.rules.length →
  Ready grammar fuel walk → Enters grammar target walk (enter target walk) ∧
    Ready grammar fuel (enter target walk))

include enters

theorem symbol_meets (ready : Ready grammar fuel walk) {symbol : Symbol}
    (refers : symbol.Refers grammar) :
    Meets grammar symbol walk (Walk.symbol grammar enter walk symbol) ∧
      Ready grammar fuel (Walk.symbol grammar enter walk symbol) := by
  cases symbol with
  | literal text id => exact ⟨.literal, ready.finding text⟩
  | rule target name =>
    obtain ⟨entered, next⟩ := enters target walk (entrance?_lt refers rfl) ready
    exact ⟨.rule rfl entered, next⟩
  | token name id =>
    rw [Walk.symbol]
    split
    · rename_i target leads
      obtain ⟨entered, next⟩ := enters target walk (entrance?_lt refers leads) ready
      exact ⟨.rule leads entered, next⟩
    · rename_i none
      exact ⟨.unknown rfl none, ready.stop⟩
  | noneOf | any => exact ⟨.unknown rfl rfl, ready.stop⟩

theorem element_passes (ready : Ready grammar fuel walk) (refers : element.symbol.Refers grammar) :
    Passes grammar element walk (Walk.element grammar enter walk element) ∧
      Ready grammar fuel (Walk.element grammar enter walk element) := by
  obtain ⟨meets, next⟩ := symbol_meets enters ready refers
  rw [Walk.element]
  cases often : element.multiplicity with
  | once => exact ⟨.once often meets, next⟩
  | plus => exact ⟨.plus often meets, next.stop⟩
  | optional | star => exact ⟨.omissible (by rw [often]; rfl), ready.stop⟩

theorem elements_scans (ready : Ready grammar fuel walk) {elements : List Element}
    (refers : ∀ element ∈ elements, element.symbol.Refers grammar) :
    Scans grammar elements walk (Walk.elements grammar enter walk elements) ∧
      Ready grammar fuel (Walk.elements grammar enter walk elements) := by
  induction elements generalizing walk with
  | nil => exact ⟨.done, ready⟩
  | cons element rest ih =>
    obtain ⟨first, others⟩ := List.forall_mem_cons.mp refers
    obtain ⟨passes, next⟩ := element_passes enters ready first
    simp only [Walk.elements]
    split
    · rename_i ended
      exact ⟨.stopped passes ended, next⟩
    · rename_i goes
      obtain ⟨scans, last⟩ := ih next others
      exact ⟨.further passes (by simpa using goes) scans, last⟩

end Steps

/-- With fuel for all rules that have not been entered, a walk into a rule comes to an end by itself. -/
theorem rule_enters (closed : ∀ target, ∀ alternative ∈ grammar.alternatives target,
      ∀ element ∈ alternative.elements, element.symbol.Refers grammar)
    (inside : target < grammar.rules.length) (ready : Ready grammar fuel walk) :
    Enters grammar target walk (Walk.rule grammar fuel target walk) ∧
      Ready grammar fuel (Walk.rule grammar fuel target walk) := by
  induction fuel generalizing target walk with
  | zero => exact ⟨.again (ready.mem_entered inside), ready.stop⟩
  | succ fuel ih =>
    rw [Walk.rule]
    split
    · rename_i old
      exact ⟨.again (List.contains_iff_mem.mp old), ready.stop⟩
    · rename_i unknown
      have new : target ∉ walk.entered := fun listed => unknown (List.contains_iff_mem.mpr listed)
      have deeper := ready.entering new inside
      split
      · rename_i alternative single
        have refers := closed target alternative (by rw [single]; exact List.mem_singleton_self _)
        obtain ⟨scans, next⟩ := elements_scans (fun _ _ => ih) deeper refers
        exact ⟨.through new single scans, next.weaken⟩
      · rename_i several
        exact ⟨.choice new several, deeper.weaken.stop⟩

end Walk

namespace Grammar

variable {vocabulary : Vocabulary} {decls : List RuleDecl} {grammar : Grammar} {element : Element}

theorem compile_refers (compiled : compile vocabulary decls = .ok grammar) (rule : Nat) :
    ∀ alternative ∈ grammar.alternatives rule, ∀ element ∈ alternative.elements,
      element.symbol.Refers grammar := by
  obtain ⟨_, sound, rfl⟩ := compile_eq_ok_iff.mp compiled
  rw [alternatives]
  cases declared : (ofDecls vocabulary decls).rules[rule]? with
  | none => exact List.forall_mem_nil _
  | some given =>
    obtain ⟨_, _, _, become⟩ := ofDecls_origin sound (List.mem_of_getElem? declared)
    exact become.refers ofDecls_names

theorem compile_elements_refer (compiled : compile vocabulary decls = .ok grammar)
    {rule alternative : Nat} (listed : element ∈ grammar.elements rule alternative) :
    element.symbol.Refers grammar := by
  rw [elements] at listed
  cases declared : (grammar.alternatives rule)[alternative]? with
  | none => simp [declared] at listed
  | some given =>
    rw [declared] at listed
    exact compile_refers compiled rule given (List.mem_of_getElem? declared) element listed

/-- Over every element of a compiled grammar a walk comes to an end, and there is one way only. It enters no
rule twice. All spellings of the element begin with the literals it found, and are nothing else if it was
not stopped. -/
theorem foresee_scans (compiled : compile vocabulary decls = .ok grammar) {rule alternative : Nat}
    (listed : element ∈ grammar.elements rule alternative) :
    (∃ walk, (∀ other, Walk.Passes grammar element {} other ↔ other = walk) ∧ walk.entered.Nodup ∧
      (∀ target ∈ walk.entered, target < grammar.rules.length) ∧
      grammar.foresee element = ⟨walk.found, walk.stopped⟩) ∧
    (∀ word ∈ element.spelling grammar grammar.spelling,
      (grammar.foresee element).literals.map Piece.literal <+: word) ∧
    ((grammar.foresee element).stops = false →
      ∀ word ∈ element.spelling grammar grammar.spelling,
        word = (grammar.foresee element).literals.map Piece.literal) := by
  have refers := compile_elements_refer compiled listed
  have initial : Walk.Ready grammar grammar.rules.length {} :=
    ⟨List.nodup_nil, List.forall_mem_nil _, Nat.le_refl _⟩
  obtain ⟨passes, ready⟩ := Walk.element_passes
    (fun _ _ inside ready => Walk.rule_enters (compile_refers compiled) inside ready) initial refers
  have foresees := grammar.foresee_foresees element
  refine ⟨⟨_, fun other => ⟨fun given => given.unique passes, fun same => same ▸ passes⟩,
    ready.distinct, ready.declared, rfl⟩, foresees.begins, fun whole => foresees.exact ?_⟩
  rw [whole, Bool.not_false]

def pairVocabulary : Vocabulary := Sample.vocabulary [.literal "x" ⟨1⟩, .name "ARROW" ⟨2⟩]

/-- A pair is one item twice, and an arrow is spelled by a lexer rule. -/
def pairDecls : List RuleDecl :=
  [Sample.rule "all" [.plain [.rule "pair", .token "ARROW"]],
   Sample.rule "pair" [.plain [.rule "item", .rule "item"]],
   Sample.rule "item" [.plain [.literal "x"]],
   ⟨"ARROW", true, [.plain [.literal "->"]]⟩]

def pairGrammar : Grammar :=
  (compile pairVocabulary pairDecls).toOption.getD ⟨[], pairVocabulary⟩

/-- Behind the first item a walk over a pair is stopped, since it meets the same rule again. An arrow is
known as a whole. -/
theorem foresee_scans_pair :
    compile pairVocabulary pairDecls = .ok pairGrammar ∧
    pairGrammar.elements 0 0 = [⟨none, .rule 1 "pair", .once⟩, ⟨none, .token "ARROW" ⟨2⟩, .once⟩] ∧
    (∃ walk, Walk.Passes pairGrammar ⟨none, .rule 1 "pair", .once⟩ {} walk ∧
      walk.found = ["x"] ∧ walk.stopped = true) ∧
    (∀ word ∈ pairGrammar.spelling 1, [.literal "x"] <+: word) ∧
    ∀ word ∈ pairGrammar.spelling 3, word = [.literal "->"] := by
  have compiled : compile pairVocabulary pairDecls = .ok pairGrammar := by decide +kernel
  have listed : pairGrammar.elements 0 0 =
      [⟨none, .rule 1 "pair", .once⟩, ⟨none, .token "ARROW" ⟨2⟩, .once⟩] := by decide +kernel
  have pair : pairGrammar.foresee ⟨none, .rule 1 "pair", .once⟩ = ⟨["x"], true⟩ := by decide +kernel
  have arrow : pairGrammar.foresee ⟨none, .token "ARROW" ⟨2⟩, .once⟩ = ⟨["->"], false⟩ := by
    decide +kernel
  obtain ⟨⟨walk, ends, _, _, same⟩, begins, _⟩ :=
    foresee_scans compiled (listed ▸ List.mem_cons_self)
  obtain ⟨_, _, exact⟩ :=
    foresee_scans compiled (listed ▸ List.mem_cons_of_mem _ (List.mem_singleton_self _))
  rw [pair] at same begins
  rw [arrow] at exact
  obtain ⟨found, stopped⟩ := Foresight.mk.inj same
  exact ⟨compiled, listed, ⟨walk, (ends walk).mpr rfl, found.symm, stopped.symm⟩, begins, exact rfl⟩

end Grammar

end Typeahead
