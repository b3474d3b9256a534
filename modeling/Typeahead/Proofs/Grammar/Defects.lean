import Typeahead.Proofs.Grammar.Preorder

/-!
Compilation reports what is wrong with declarations, and nothing else. What declarations must be like is said of
every element, however deep inside blocks it stands, and what is reported of those that are not like that is read
off a walk over their elements.
-/

namespace Typeahead

/-- The suffixes that an element may have. -/
def Multiplicity.suffixes : List String := ["", "?", "*", "+"]

theorem Multiplicity.ofSuffix?_eq_none_iff {suffix : String} :
    ofSuffix? suffix = none ↔ suffix ∉ suffixes := by
  unfold ofSuffix?
  split <;> simp_all [suffixes]

/-- What a form has to find in the vocabulary. -/
def Form.mentions : Form → List SetItem
  | .literal text => [.literal text]
  | .token name => [.token name]
  | .noneOf items => items
  | _ => []

/-- An element of some alternatives, or of a block among them, at any depth. -/
inductive AlternativeDecl.Holds : (alternatives : List AlternativeDecl) → (element : ElementDecl) → Prop where
  | here {alternatives : List AlternativeDecl} {alternative : AlternativeDecl} {element : ElementDecl}
      (chosen : alternative ∈ alternatives) (listed : element ∈ alternative.elements) :
      AlternativeDecl.Holds alternatives element
  | inside {alternatives inner : List AlternativeDecl} {alternative : AlternativeDecl}
      {outer element : ElementDecl} (chosen : alternative ∈ alternatives) (listed : outer ∈ alternative.elements)
      (block : outer.form = .block inner) (held : AlternativeDecl.Holds inner element) :
      AlternativeDecl.Holds alternatives element

/-- What an element must be like, whatever stands inside it. In lexer rules, the vocabulary need not know what is
mentioned. -/
@[mk_iff] structure Scope.Accepts (scope : Scope) (element : ElementDecl) : Prop where
  suffix : element.suffix ∈ Multiplicity.suffixes
  block : ∀ alternatives, element.form = .block alternatives → alternatives ≠ []
  rule : ∀ name, element.form = .rule name → name ∈ scope.declared
  mentions : scope.lexical = false → ∀ item ∈ element.form.mentions, (scope.itemId? item).isSome

/-- What declarations must be like: their names are their own and not reserved, and they have alternatives, in which
every element is as it must be. -/
structure RuleDecl.WellDeclared (vocabulary : Vocabulary) (decls : List RuleDecl) : Prop where
  unreserved : ∀ decl ∈ decls, '#' ∉ decl.name.toList
  distinct : (decls.map RuleDecl.name).Nodup
  given : ∀ decl ∈ decls, decl.alternatives ≠ []
  accepted : ∀ decl ∈ decls, ∀ element, AlternativeDecl.Holds decl.alternatives element →
    (decl.scope vocabulary (decls.map RuleDecl.name)).Accepts element

mutual

/-- The elements that are looked at, in order: an element, and then those of its block. An element with a bad
suffix is not looked into. -/
def ElementDecl.visited : ElementDecl → List ElementDecl
  | ⟨label, form, suffix⟩ =>
    ⟨label, form, suffix⟩ :: if suffix ∈ Multiplicity.suffixes then form.visited else []

def Form.visited : Form → List ElementDecl
  | .block alternatives => AlternativeDecl.allVisited alternatives
  | _ => []

def ElementDecl.allVisited : List ElementDecl → List ElementDecl
  | [] => []
  | decl :: decls => decl.visited ++ ElementDecl.allVisited decls

def AlternativeDecl.visited : AlternativeDecl → List ElementDecl
  | ⟨_, decls⟩ => ElementDecl.allVisited decls

def AlternativeDecl.allVisited : List AlternativeDecl → List ElementDecl
  | [] => []
  | decl :: decls => decl.visited ++ AlternativeDecl.allVisited decls

end

/-- What is wrong with an element by itself. -/
def Scope.faults (scope : Scope) (element : ElementDecl) : List Defect :=
  if element.suffix ∈ Multiplicity.suffixes then
    match element.form with
    | .block alternatives => if alternatives.isEmpty then [.emptyBlock scope.rule] else []
    | .rule name => if name ∈ scope.declared then [] else [.unknownRule scope.rule name]
    | form =>
      if scope.lexical then []
      else (form.mentions.filter fun item => (scope.itemId? item).isNone).map scope.unknownItem
  else [.badSuffix scope.rule element.suffix]

namespace RuleDecl

/-- What is wrong with the name of a declaration that follows others. -/
def nameFaults (before : List RuleDecl) (decl : RuleDecl) : List Defect :=
  (if '#' ∈ decl.name.toList then [.reservedName decl.name] else []) ++
    if decl.name ∈ before.map name then [.duplicateRule decl.name] else []

/-- What is wrong with the alternatives of a declaration that follows others. Those of a name that is not new are
not looked at. -/
def bodyFaults (vocabulary : Vocabulary) (declared : List String) (before : List RuleDecl) (decl : RuleDecl) :
    List Defect :=
  if decl.name ∈ before.map name then []
  else if decl.alternatives.isEmpty then [.emptyRule decl.name]
  else (AlternativeDecl.allVisited decl.alternatives).flatMap (decl.scope vocabulary declared).faults

/-- What is found out about each declaration and those before it, in order. -/
def inTurn (find : List RuleDecl → RuleDecl → List Defect) (decls : List RuleDecl) : List Defect :=
  decls.zipIdx.flatMap fun decl => find (decls.take decl.2) decl.1

/-- All that is wrong with declarations: first their names, and then what they hold. -/
def faults (vocabulary : Vocabulary) (decls : List RuleDecl) : List Defect :=
  inTurn nameFaults decls ++ inTurn (bodyFaults vocabulary (decls.map name)) decls

end RuleDecl

theorem Form.visited_of_plain {form : Form} (plain : ∀ alternatives, form ≠ .block alternatives) :
    form.visited = [] := by
  cases form with
  | block alternatives => exact (plain alternatives rfl).elim
  | _ => rfl

namespace Scope

variable {scope : Scope}

/-- What is reported of a form without a block is what is wrong with its element. -/
theorem symbol?_defects_eq (label : Option String) {suffix : String} (good : suffix ∈ Multiplicity.suffixes)
    (form : Form) (plain : ∀ alternatives, form ≠ .block alternatives) : (scope.symbol? form).defects =
      scope.faults ⟨label, form, suffix⟩ ++ form.visited.flatMap scope.faults := by
  rw [faults, if_pos good, Form.visited_of_plain plain, List.flatMap_nil, List.append_nil]
  cases form with
  | literal text =>
    cases found : scope.vocabulary.literalId? text <;> cases lexical : scope.lexical <;>
      simp [symbol?, Form.mentions, itemId?, unknownItem, found, lexical]
  | token name =>
    cases found : scope.vocabulary.nameId? name <;> cases lexical : scope.lexical <;>
      simp [symbol?, Form.mentions, itemId?, unknownItem, found, lexical]
  | rule name =>
    rw [symbol?]
    cases found : scope.declared.findIdx? (· == name) with
    | none =>
      have undeclared : name ∉ scope.declared := fun listed => by
        simpa using List.findIdx?_eq_none_iff.mp found name listed
      simp [undeclared]
    | some place =>
      have declared : name ∈ scope.declared := by
        obtain ⟨inside, same, _⟩ := List.findIdx?_eq_some_iff_getElem.mp found
        exact beq_iff_eq.mp same ▸ List.getElem_mem inside
      simp [declared]
  | noneOf items =>
    cases lexical : scope.lexical <;> simp [symbol?, Form.mentions, lexical]
  | any => simp [symbol?, Form.mentions]
  | block alternatives => exact (plain alternatives rfl).elim

mutual

/-- What is reported of an element is what is wrong with it, and with those inside it that are looked at. -/
theorem element_defects_eq (next : Nat) : (decl : ElementDecl) →
    (scope.element next decl).defects = decl.visited.flatMap scope.faults
  | ⟨label, form, suffix⟩ => by
    unfold element
    rw [ElementDecl.visited, List.flatMap_cons]
    cases read : Multiplicity.ofSuffix? suffix with
    | none =>
      have bad := Multiplicity.ofSuffix?_eq_none_iff.mp read
      rw [faults, if_neg bad, if_neg bad]
      rfl
    | some multiplicity =>
      have good : suffix ∈ Multiplicity.suffixes := by
        by_contra bad
        rw [Multiplicity.ofSuffix?_eq_none_iff.mpr bad] at read
        cases read
      rw [if_pos good]
      exact form_defects_eq next label good form

theorem form_defects_eq (next : Nat) (label : Option String) {suffix : String}
    (good : suffix ∈ Multiplicity.suffixes) : (form : Form) → (scope.form next form).defects =
      scope.faults ⟨label, form, suffix⟩ ++ form.visited.flatMap scope.faults
  | .block alternatives => by
    rw [form, Form.visited, ← alternatives_defects_eq (next + 1) alternatives, faults, if_pos good]
  | .literal text => symbol?_defects_eq label good (.literal text) (by simp)
  | .token name => symbol?_defects_eq label good (.token name) (by simp)
  | .rule name => symbol?_defects_eq label good (.rule name) (by simp)
  | .noneOf items => symbol?_defects_eq label good (.noneOf items) (by simp)
  | .any => symbol?_defects_eq label good .any (by simp)

theorem elements_defects_eq (next : Nat) : (decls : List ElementDecl) →
    (scope.elements next decls).defects = (ElementDecl.allVisited decls).flatMap scope.faults
  | [] => rfl
  | decl :: decls => by
    rw [ElementDecl.allVisited, List.flatMap_append, ← element_defects_eq next decl,
      ← elements_defects_eq _ decls]
    rfl

theorem alternative_defects_eq (next : Nat) : (decl : AlternativeDecl) →
    (scope.alternative next decl).defects = decl.visited.flatMap scope.faults
  | ⟨_, decls⟩ => elements_defects_eq next decls

theorem alternatives_defects_eq (next : Nat) : (decls : List AlternativeDecl) →
    (scope.alternatives next decls).defects = (AlternativeDecl.allVisited decls).flatMap scope.faults
  | [] => rfl
  | decl :: decls => by
    rw [AlternativeDecl.allVisited, List.flatMap_append, ← alternative_defects_eq next decl,
      ← alternatives_defects_eq _ decls]
    rfl

end

theorem unknown_eq_nil_iff (items : List SetItem) :
    (if scope.lexical then []
      else (items.filter fun item => (scope.itemId? item).isNone).map scope.unknownItem) = [] ↔
      (scope.lexical = false → ∀ item ∈ items, (scope.itemId? item).isSome) := by
  cases scope.lexical with
  | true => simp
  | false => simp [Option.isSome_iff_ne_none]

theorem faults_eq_nil_iff {element : ElementDecl} : scope.faults element = [] ↔ scope.Accepts element := by
  rw [faults, accepts_iff]
  split
  · rename_i good
    cases element.form with
    | block alternatives => simp [good, Form.mentions]
    | rule name => simp [good, Form.mentions]
    | _ =>
      dsimp only
      rw [unknown_eq_nil_iff]
      simp [good]
  · rename_i bad
    exact ⟨nofun, fun accepted => (bad accepted.1).elim⟩

end Scope

section Walking

variable {site : ElementDecl}

theorem ElementDecl.visited_eq (decl : ElementDecl) : decl.visited =
    decl :: if decl.suffix ∈ Multiplicity.suffixes then decl.form.visited else [] := by
  obtain ⟨label, form, suffix⟩ := decl
  rw [ElementDecl.visited]

theorem ElementDecl.mem_visited_self (decl : ElementDecl) : decl ∈ decl.visited := by
  rw [ElementDecl.visited_eq]
  exact List.mem_cons_self

theorem ElementDecl.allVisited_eq (decls : List ElementDecl) :
    ElementDecl.allVisited decls = decls.flatMap ElementDecl.visited := by
  induction decls with
  | nil => rfl
  | cons decl decls ih => rw [ElementDecl.allVisited, ih, List.flatMap_cons]

theorem AlternativeDecl.mem_allVisited {alternatives : List AlternativeDecl} :
    site ∈ AlternativeDecl.allVisited alternatives ↔
      ∃ alternative ∈ alternatives, ∃ decl ∈ alternative.elements, site ∈ decl.visited := by
  induction alternatives with
  | nil => simp [AlternativeDecl.allVisited]
  | cons alternative alternatives ih =>
    obtain ⟨label, decls⟩ := alternative
    rw [AlternativeDecl.allVisited, List.mem_append, ih, AlternativeDecl.visited, ElementDecl.allVisited_eq,
      List.mem_flatMap, List.exists_mem_cons_iff]

mutual

theorem ElementDecl.held_of_visited : (decl : ElementDecl) → site ∈ decl.visited →
    site = decl ∨ ∃ inner, decl.form = .block inner ∧ AlternativeDecl.Holds inner site
  | ⟨label, form, suffix⟩, met => by
    rw [ElementDecl.visited, List.mem_cons] at met
    refine met.imp_right fun deeper => ?_
    split at deeper
    · exact Form.held_of_visited form deeper
    · cases deeper

theorem Form.held_of_visited : (form : Form) → site ∈ form.visited →
    ∃ inner, form = .block inner ∧ AlternativeDecl.Holds inner site
  | .block alternatives, met => ⟨alternatives, rfl, AlternativeDecl.held_of_visited alternatives met⟩

theorem ElementDecl.held_of_allVisited : (decls : List ElementDecl) →
    site ∈ ElementDecl.allVisited decls → ∃ decl ∈ decls,
      site = decl ∨ ∃ inner, decl.form = .block inner ∧ AlternativeDecl.Holds inner site
  | decl :: decls, met => by
    rw [ElementDecl.allVisited, List.mem_append] at met
    rcases met with first | others
    · exact ⟨decl, List.mem_cons_self, ElementDecl.held_of_visited decl first⟩
    · obtain ⟨other, listed, held⟩ := ElementDecl.held_of_allVisited decls others
      exact ⟨other, List.mem_cons_of_mem _ listed, held⟩

theorem AlternativeDecl.held_of_visited : (alternatives : List AlternativeDecl) →
    site ∈ AlternativeDecl.allVisited alternatives → AlternativeDecl.Holds alternatives site
  | ⟨label, decls⟩ :: others, met => by
    rw [AlternativeDecl.allVisited, List.mem_append] at met
    rcases met with first | behind
    · obtain ⟨decl, listed, rfl | ⟨inner, block, held⟩⟩ := ElementDecl.held_of_allVisited decls first
      · exact .here List.mem_cons_self listed
      · exact .inside List.mem_cons_self listed block held
    · cases AlternativeDecl.held_of_visited others behind with
      | here chosen listed => exact .here (List.mem_cons_of_mem _ chosen) listed
      | inside chosen listed block held => exact .inside (List.mem_cons_of_mem _ chosen) listed block held

end

/-- Unless a suffix is bad, all elements are looked at. -/
theorem AlternativeDecl.Holds.visited {alternatives : List AlternativeDecl}
    (held : AlternativeDecl.Holds alternatives site)
    (good : ∀ other ∈ AlternativeDecl.allVisited alternatives, other.suffix ∈ Multiplicity.suffixes) :
    site ∈ AlternativeDecl.allVisited alternatives := by
  induction held with
  | here chosen listed =>
    exact AlternativeDecl.mem_allVisited.mpr ⟨_, chosen, _, listed, ElementDecl.mem_visited_self _⟩
  | @inside alternatives inner alternative outer _ chosen listed block _ ih =>
    have outside : outer ∈ AlternativeDecl.allVisited alternatives :=
      AlternativeDecl.mem_allVisited.mpr ⟨_, chosen, _, listed, outer.mem_visited_self⟩
    -- a block opens where the suffix of its element is good, and that element is one that is looked at
    have opened : outer.visited = outer :: AlternativeDecl.allVisited inner := by
      rw [ElementDecl.visited_eq, if_pos (good outer outside), block, Form.visited]
    have deeper : ∀ other ∈ AlternativeDecl.allVisited inner,
        other ∈ AlternativeDecl.allVisited alternatives := fun other met =>
      AlternativeDecl.mem_allVisited.mpr ⟨_, chosen, _, listed, opened ▸ List.mem_cons_of_mem _ met⟩
    exact deeper _ (ih fun other met => good other (deeper other met))

/-- Nothing is wrong with the elements that are looked at if and only if nothing is wrong with any. -/
theorem Scope.flatMap_faults_eq_nil_iff {scope : Scope} {alternatives : List AlternativeDecl} :
    (AlternativeDecl.allVisited alternatives).flatMap scope.faults = [] ↔
      ∀ element, AlternativeDecl.Holds alternatives element → scope.Accepts element := by
  rw [List.flatMap_eq_nil_iff]
  constructor
  · intro faultless element held
    have met := held.visited fun other met => (faults_eq_nil_iff.mp (faultless other met)).suffix
    exact faults_eq_nil_iff.mp (faultless element met)
  · intro accepted site met
    exact faults_eq_nil_iff.mpr (accepted site (AlternativeDecl.held_of_visited alternatives met))

end Walking

namespace RuleDecl

variable {vocabulary : Vocabulary} {declared : List String} {decls : List RuleDecl}

theorem inTurn_concat (find : List RuleDecl → RuleDecl → List Defect) (before : List RuleDecl)
    (decl : RuleDecl) : inTurn find (before ++ [decl]) = inTurn find before ++ find before decl := by
  rw [inTurn, List.zipIdx_append, List.flatMap_append]
  refine congrArg₂ _ (List.flatMap_congr fun entry listed => ?_) ?_
  · have inside := (List.mem_zipIdx' listed).1
    rw [List.take_append_of_le_length (Nat.le_of_lt inside)]
  · simp

theorem nameDefects_eq (front : List RuleDecl) : inTurn nameFaults (front ++ decls) =
    inTurn nameFaults front ++ nameDefects (front.map name).reverse decls := by
  induction decls generalizing front with
  | nil => simp [nameDefects]
  | cons decl decls ih =>
    rw [List.append_cons, ih, inTurn_concat, List.append_assoc, nameDefects, List.map_append, List.reverse_append]
    simp [nameFaults]

theorem compile_defects_eq (front : List RuleDecl) (next : Nat) (decl : RuleDecl) :
    (if (front.map name).reverse.contains decl.name then { value := none }
      else decl.compile vocabulary declared next).defects = bodyFaults vocabulary declared front decl := by
  rw [bodyFaults]
  by_cases again : decl.name ∈ front.map name
  · rw [if_pos again, if_pos (by simpa using again)]
  · rw [if_neg again, if_neg (by simpa using again), compile]
    split
    · rfl
    · exact Scope.alternatives_defects_eq next decl.alternatives

theorem compileAll_defects_eq (front : List RuleDecl) (next : Nat) :
    inTurn (bodyFaults vocabulary declared) (front ++ decls) = inTurn (bodyFaults vocabulary declared) front ++
      (compileAll vocabulary declared (front.map name).reverse next decls).defects := by
  -- for any number of the next block: what is reported does not depend on it, and yet the others begin elsewhere
  induction decls generalizing front next with
  | nil => simp [compileAll]
  | cons decl decls ih =>
    have others := ih (front ++ [decl]) (next + (if (front.map name).reverse.contains decl.name
      then { value := none } else decl.compile vocabulary declared next).blocks.length)
    rw [List.append_cons, others, inTurn_concat, List.append_assoc, ← compile_defects_eq front next decl,
      List.map_append, List.reverse_append]
    rfl

theorem sound_iff {decl : RuleDecl} : decl.Sound vocabulary declared ↔ decl.alternatives ≠ [] ∧
    ∀ element, AlternativeDecl.Holds decl.alternatives element →
      (decl.scope vocabulary declared).Accepts element := by
  rw [← Scope.flatMap_faults_eq_nil_iff, ← Scope.alternatives_defects_eq 0]
  constructor
  · exact fun sound => ⟨sound.given, sound.faultless 0⟩
  · rintro ⟨given, faultless⟩
    exact ⟨given, fun next => (Scope.alternatives_defects next 0 _).trans faultless⟩

theorem faults_eq (vocabulary : Vocabulary) (decls : List RuleDecl) : faults vocabulary decls =
    nameDefects [] decls ++ (compileAll vocabulary (decls.map name) [] 0 decls).defects :=
  congrArg₂ (· ++ ·) (nameDefects_eq []) (compileAll_defects_eq [] 0)

theorem wellDeclared_iff : WellDeclared vocabulary decls ↔ nameDefects [] decls = [] ∧
    ∀ decl ∈ decls, decl.Sound vocabulary (decls.map name) := by
  simp only [nameDefects_iff, sound_iff]
  constructor
  · rintro ⟨unreserved, distinct, given, accepted⟩
    exact ⟨⟨distinct, fun decl listed => ⟨List.not_mem_nil, unreserved decl listed⟩⟩,
      fun decl listed => ⟨given decl listed, accepted decl listed⟩⟩
  · rintro ⟨⟨distinct, named⟩, sound⟩
    exact ⟨fun decl listed => (named decl listed).2, distinct, fun decl listed => (sound decl listed).1,
      fun decl listed => (sound decl listed).2⟩

end RuleDecl

/-- What is reported, and what is wrong, is the same. There is a grammar if and only if the names of the
declarations are distinct and not reserved, and they and all blocks in them have alternatives, and each element has
a suffix that there is and names what is declared or, unless it belongs to a lexer rule, in the vocabulary. -/
theorem Grammar.compile_reports (vocabulary : Vocabulary) (decls : List RuleDecl) :
    ((∃ grammar, compile vocabulary decls = .ok grammar) ↔ RuleDecl.WellDeclared vocabulary decls) ∧
    ∀ defects, compile vocabulary decls = .error defects ↔
      ¬ RuleDecl.WellDeclared vocabulary decls ∧ defects = RuleDecl.faults vocabulary decls := by
  have succeeds : (∃ grammar, compile vocabulary decls = .ok grammar) ↔
      RuleDecl.WellDeclared vocabulary decls := by
    rw [RuleDecl.wellDeclared_iff]
    constructor
    · rintro ⟨grammar, compiled⟩
      obtain ⟨named, sound, _⟩ := compile_eq_ok_iff.mp compiled
      exact ⟨named, sound⟩
    · rintro ⟨named, sound⟩
      exact ⟨_, compile_eq_ok_iff.mpr ⟨named, sound, rfl⟩⟩
  refine ⟨succeeds, fun defects => ?_⟩
  rw [← succeeds, RuleDecl.faults_eq]
  dsimp only [compile]
  split
  · exact ⟨nofun, fun failed => (failed.1 ⟨_, rfl⟩).elim⟩
  · exact ⟨fun reported => ⟨nofun, (Except.error.inj reported).symm⟩,
      fun reported => congrArg Except.error reported.2.symm⟩

/-- Of two rules with one name the second is not looked into, nor is an element with a bad suffix. -/
example : Grammar.compile Sample.callVocabulary
    [Sample.rule "r" [.plain [.rule "missing", .literal "[", .token "NUMBER", .block [],
        .noneOf [.token "NAME", .literal "]"]]],
      ⟨"r", false, []⟩,
      Sample.rule "s#t" [⟨none, [Form.element (.block [.plain [.rule "missing"]]) "!"]⟩],
      ⟨"WORD", true, [.plain [.literal "a", .noneOf [.literal "b"], .rule "rest"]]⟩,
      ⟨"empty", false, []⟩] =
    .error [.duplicateRule "r", .reservedName "s#t", .unknownRule "r" "missing", .unknownLiteral "r" "[",
      .unknownToken "r" "NUMBER", .emptyBlock "r", .unknownLiteral "r" "]", .badSuffix "s#t" "!",
      .unknownRule "WORD" "rest", .emptyRule "empty"] := by
  decide +kernel

end Typeahead
