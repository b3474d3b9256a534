import Typeahead.Proofs.Grammar.Matching
import Typeahead.Proofs.Grammar.WellFormed

/-!
Blocks that get a name. A block inside a parser rule may as well be a rule of its own, declared last: the
grammar is the same but for the places of its rules.
-/

namespace Typeahead

/-- Somewhere inside a form, a block gives way to a reference to the rule of a name. -/
inductive Form.Extracts (name : String) (moved : List AlternativeDecl) : Form → Form → Prop where
  | here : Extracts name moved (.block moved) (.rule name)
  | inside {front back : List AlternativeDecl} {label elementLabel : Option String}
      {left right : List ElementDecl} {form other : Form} {suffix : String}
      (within : Extracts name moved form other) :
      Extracts name moved
        (.block (front ++ ⟨label, left ++ ⟨elementLabel, form, suffix⟩ :: right⟩ :: back))
        (.block (front ++ ⟨label, left ++ ⟨elementLabel, other, suffix⟩ :: right⟩ :: back))

theorem Form.Extracts.given {name : String} {moved alternatives others : List AlternativeDecl}
    (extracts : Form.Extracts name moved (.block alternatives) (.block others)) :
    others.isEmpty = false := by
  cases extracts
  simp

/-- A block inside a parser rule gives way to a reference to a new rule that is declared last and has the
alternatives of the block. -/
inductive RuleDecl.Extracts (name : String) : List RuleDecl → List RuleDecl → Prop where
  | inside {front back : List RuleDecl} {rule : String}
      {moved alternatives others : List AlternativeDecl}
      (within : Form.Extracts name moved (.block alternatives) (.block others))
      (plain : '#' ∉ name.toList)
      (fresh : name ∉ (front ++ ⟨rule, false, alternatives⟩ :: back).map RuleDecl.name) :
      Extracts name (front ++ ⟨rule, false, alternatives⟩ :: back)
        ((front ++ ⟨rule, false, others⟩ :: back) ++ [⟨name, false, moved⟩])

/-- The place of a block becomes that of the rule behind the declared ones. The rules of blocks before it
move up by one, and those behind it take the places of the rules that its `count` blocks leave behind. -/
structure Vacates (σ : Nat → Nat) (declared next before count after : Nat) : Prop where
  fixes : Fixes σ declared
  front : Shifts σ declared next next before
  here : σ (declared + (next + before)) = declared
  back : Shifts σ declared (next + before + count) (next + before) after

namespace Scope

variable {scope other : Scope} {name : String}

/-- What is compiled has the rules of a block between others, and is else the same as where the block has
given way. -/
structure MatchesBut {α : Type} (scope : Scope) (moved : List AlternativeDecl) (next : Nat)
    (related : (Nat → Nat) → α → α → Prop) (before after : List Rule) (compiled other : Compiled α) :
    Prop where
  blocks : compiled.blocks =
    before ++ ((scope.form (next + before.length) (.block moved)).blocks ++ after)
  faultless : (scope.form next (.block moved)).defects = []
  matched : ∀ σ, Vacates σ scope.declared.length next before.length
    (scope.form (next + before.length) (.block moved)).blocks.length after.length →
      Compiled.Matches σ (related σ) ⟨compiled.value, before ++ after, []⟩ other

namespace MatchesBut

variable {α β : Type} {moved : List AlternativeDecl} {next : Nat} {before after : List Rule}

theorem map {related : (Nat → Nat) → α → α → Prop} {compiled other : Compiled α}
    (but : MatchesBut scope moved next related before after compiled other) (f : α → β)
    (relatedImage : (Nat → Nat) → β → β → Prop)
    (keeps : ∀ σ value image, related σ value image → relatedImage σ (f value) (f image)) :
    MatchesBut scope moved next relatedImage before after (compiled.map f) (other.map f) :=
  ⟨but.blocks, but.faultless, fun σ vacates => (but.matched σ vacates).map (keeps σ)⟩

/-- What stands around stays the same. -/
theorem between {related : (Nat → Nat) → β → β → Prop} {left leftImage hole right : Compiled (List β)}
    (holeImage rightImage : Nat → Compiled (List β))
    (leftMatched : ∀ σ, Fixes σ scope.declared.length →
      Shifts σ scope.declared.length next next left.blocks.length →
      left.Matches σ (List.Forall₂ (related σ)) leftImage)
    (but : MatchesBut scope moved (next + left.blocks.length) (fun σ => List.Forall₂ (related σ))
      before after hole (holeImage (next + left.blocks.length)))
    (rightMatched : ∀ σ image, Fixes σ scope.declared.length →
      Shifts σ scope.declared.length (next + left.blocks.length + hole.blocks.length) image
        right.blocks.length →
      right.Matches σ (List.Forall₂ (related σ)) (rightImage image)) :
    MatchesBut scope moved next (fun σ => List.Forall₂ (related σ)) (left.blocks ++ before)
      (after ++ right.blocks) (left.append (hole.append right))
      (leftImage.append ((holeImage (next + leftImage.blocks.length)).append
        (rightImage (next + leftImage.blocks.length +
          (holeImage (next + leftImage.blocks.length)).blocks.length)))) where
  blocks := by
    rw [List.length_append, ← Nat.add_assoc]
    simp only [Compiled.append, but.blocks, List.append_assoc]
  faultless := (form_defects ..).trans but.faultless
  matched σ vacates := by
    rw [List.length_append, List.length_append, ← Nat.add_assoc] at vacates
    obtain ⟨fixes, front, here, back⟩ := vacates
    rw [← Nat.add_assoc next] at here back
    -- behind the hole, places count from where the rules of the block are gone
    have leftSame := leftMatched σ fixes front.left
    have holeSame := but.matched σ ⟨fixes, front.right, here, back.left⟩
    have size := congrArg List.length but.blocks
    have imageSize := holeSame.blocks.length_eq
    rw [List.length_append] at imageSize
    rw [List.length_append, List.length_append] at size
    have shifts : Shifts σ scope.declared.length (next + left.blocks.length + hole.blocks.length)
        (next + left.blocks.length + (holeImage (next + left.blocks.length)).blocks.length)
        right.blocks.length := by
      rw [size, ← imageSize]
      simpa only [Nat.add_assoc] using back.right
    have whole := leftSame.append (holeSame.append (rightMatched σ _ fixes shifts))
    rw [leftSame.blocks.length_eq] at whole
    exact ⟨whole.value, by simpa only [Compiled.append, List.append_assoc] using whole.blocks,
      whole.faultless⟩

end MatchesBut

theorem elements_matchesBut (widens : scope.Widens other name) {moved : List AlternativeDecl} {next : Nat}
    {left right : List ElementDecl} {decl image : ElementDecl}
    (faultless : (scope.elements next (left ++ decl :: right)).defects = [])
    (inside : ∀ next, (scope.element next decl).defects = [] → ∃ before after,
      MatchesBut scope moved next (fun σ => Option.Rel (Element.Renamed σ)) before after
        (scope.element next decl) (other.element next image)) :
    ∃ before after, MatchesBut scope moved next (fun σ => List.Forall₂ (Element.Renamed σ)) before after
      (scope.elements next (left ++ decl :: right)) (other.elements next (left ++ image :: right)) := by
  rw [elements_append, elements_cons] at faultless ⊢
  rw [elements_append, elements_cons]
  obtain ⟨faultlessLeft, faultless⟩ := List.append_eq_nil_iff.mp faultless
  obtain ⟨faultlessHere, faultlessRight⟩ := List.append_eq_nil_iff.mp faultless
  obtain ⟨before, after, but⟩ := inside _ faultlessHere
  exact ⟨_, _, .between (fun number => (other.element number image).map Option.toList)
    (fun number => other.elements number right)
    (fun σ fixes shifts => elements_matches widens fixes next next left faultlessLeft shifts)
    (but.map _ _ fun _ _ _ => forall₂_toList)
    fun σ image fixes shifts => elements_matches widens fixes _ image right faultlessRight shifts⟩

theorem alternatives_matchesBut (widens : scope.Widens other name) {moved : List AlternativeDecl}
    {next : Nat} {left right : List AlternativeDecl} {decl image : AlternativeDecl}
    (faultless : (scope.alternatives next (left ++ decl :: right)).defects = [])
    (inside : ∀ next, (scope.alternative next decl).defects = [] → ∃ before after,
      MatchesBut scope moved next Alternative.Renamed before after
        (scope.alternative next decl) (other.alternative next image)) :
    ∃ before after, MatchesBut scope moved next (fun σ => List.Forall₂ (Alternative.Renamed σ))
      before after (scope.alternatives next (left ++ decl :: right))
      (other.alternatives next (left ++ image :: right)) := by
  rw [alternatives_append, alternatives_cons] at faultless ⊢
  rw [alternatives_append, alternatives_cons]
  obtain ⟨faultlessLeft, faultless⟩ := List.append_eq_nil_iff.mp faultless
  obtain ⟨faultlessHere, faultlessRight⟩ := List.append_eq_nil_iff.mp faultless
  obtain ⟨before, after, but⟩ := inside _ faultlessHere
  exact ⟨_, _, .between (fun number => (other.alternative number image).map ([·]))
    (fun number => other.alternatives number right)
    (fun σ fixes shifts => alternatives_matches widens fixes next next left faultlessLeft shifts)
    (but.map _ _ fun _ _ _ related => .cons related .nil)
    fun σ image fixes shifts => alternatives_matches widens fixes _ image right faultlessRight shifts⟩

/-- A block that holds the one that gives way. -/
theorem within_matchesBut (widens : scope.Widens other name) {moved : List AlternativeDecl}
    {front back : List AlternativeDecl} {label elementLabel : Option String}
    {left right : List ElementDecl} {form image : Form} {suffix : String}
    (inside : ∀ next, (scope.form next form).defects = [] → ∃ before after,
      MatchesBut scope moved next (fun σ => Option.Rel (Symbol.Renamed σ)) before after
        (scope.form next form) (other.form next image)) (next : Nat)
    (faultless : (scope.alternatives next
      (front ++ ⟨label, left ++ ⟨elementLabel, form, suffix⟩ :: right⟩ :: back)).defects = []) :
    ∃ before after, MatchesBut scope moved next (fun σ => List.Forall₂ (Alternative.Renamed σ))
      before after
      (scope.alternatives next (front ++ ⟨label, left ++ ⟨elementLabel, form, suffix⟩ :: right⟩ :: back))
      (other.alternatives next
        (front ++ ⟨label, left ++ ⟨elementLabel, image, suffix⟩ :: right⟩ :: back)) := by
  refine alternatives_matchesBut widens faultless fun next faultless => ?_
  obtain ⟨before, after, but⟩ := elements_matchesBut widens faultless fun next faultless => by
    cases given : Multiplicity.ofSuffix? suffix with
    | none => simp [element, given] at faultless
    | some multiplicity =>
      rw [element_eq given] at faultless ⊢
      rw [element_eq given]
      obtain ⟨before, after, but⟩ := inside next faultless
      refine ⟨before, after, but.map _ _ fun σ value image related => ?_⟩
      cases related with
      | none => exact .none
      | some symbol => exact .some ⟨rfl, symbol, rfl⟩
  exact ⟨before, after, but.map _ _ fun σ value image related => related⟩

theorem block_matchesBut (widens : scope.Widens other name) {moved alternatives others : List AlternativeDecl}
    {next : Nat} {before after : List Rule} (given : others.isEmpty = false)
    (but : MatchesBut scope moved (next + 1) (fun σ => List.Forall₂ (Alternative.Renamed σ)) before after
      (scope.alternatives (next + 1) alternatives) (other.alternatives (next + 1) others)) :
    MatchesBut scope moved next (fun σ => Option.Rel (Symbol.Renamed σ))
      (scope.blockRule next alternatives :: before) after (scope.form next (.block alternatives))
      (other.form next (.block others)) where
  blocks := by
    rw [form, but.blocks, List.length_cons, Nat.add_right_comm, Nat.add_assoc next, List.cons_append]
    rfl
  faultless := (form_defects ..).trans but.faultless
  matched σ vacates := by
    rw [List.length_cons, Nat.add_comm _ 1, ← Nat.add_assoc next] at vacates
    obtain ⟨fixes, front, here, back⟩ := vacates
    rw [← Nat.add_assoc next] at here back
    exact block_matches widens given front.left (but.matched σ ⟨fixes, front.right, here, back⟩)

theorem form_matchesBut (widens : scope.Widens other name) {moved : List AlternativeDecl}
    {form image : Form} (extracts : Form.Extracts name moved form image) (next : Nat)
    (faultless : (scope.form next form).defects = []) : ∃ before after,
      MatchesBut scope moved next (fun σ => Option.Rel (Symbol.Renamed σ)) before after
        (scope.form next form) (other.form next image) := by
  -- on how deep the block lies, for the numbers at every depth
  induction extracts generalizing next with
  | here =>
    refine ⟨[], [], by simp, faultless, fun σ vacates => ?_⟩
    have here : other.form next (.rule name) = other.symbol? (.rule name) := rfl
    rw [here, symbol?, widens.findIdx?_name]
    exact ⟨.some (.of_rule vacates.here.symm _ _), .nil, rfl⟩
  | inside within ih =>
    obtain ⟨given, faultless⟩ := given_of_faultless faultless
    obtain ⟨before, after, but⟩ := within_matchesBut widens ih (next + 1) faultless
    exact ⟨_, after, block_matchesBut widens (by simp) but⟩

/-- The same for the alternatives of a rule. -/
theorem extracts_matchesBut (widens : scope.Widens other name)
    {moved alternatives others : List AlternativeDecl}
    (extracts : Form.Extracts name moved (.block alternatives) (.block others)) (next : Nat)
    (faultless : (scope.alternatives next alternatives).defects = []) : ∃ before after,
      MatchesBut scope moved next (fun σ => List.Forall₂ (Alternative.Renamed σ)) before after
        (scope.alternatives next alternatives) (other.alternatives next others) := by
  cases extracts with
  | inside within =>
    exact within_matchesBut widens (fun next => form_matchesBut widens within next) next faultless

end Scope

namespace RuleDecl

variable {vocabulary : Vocabulary} {declared : List String} {name : String}

theorem compile_matchesBut (fresh : name ∉ declared) {rule : String}
    {moved alternatives others : List AlternativeDecl}
    (within : Form.Extracts name moved (.block alternatives) (.block others)) (next : Nat)
    (faultless : (compile vocabulary declared next ⟨rule, false, alternatives⟩).defects = []) :
    ∃ before after, Scope.MatchesBut ⟨vocabulary, declared, rule, false⟩ moved next
      (fun σ => Option.Rel (Rule.Renamed σ)) before after
      (compile vocabulary declared next ⟨rule, false, alternatives⟩)
      (compile vocabulary (declared ++ [name]) next ⟨rule, false, others⟩) := by
  have given := given_of_compile faultless
  rw [compile_eq given] at faultless ⊢
  rw [compile_eq within.given]
  have widens := @scope_widens vocabulary declared name fresh ⟨rule, false, alternatives⟩
    ⟨rule, false, others⟩ rfl
  obtain ⟨before, after, but⟩ := Scope.extracts_matchesBut widens within next faultless
  exact ⟨before, after, but.map _ _ fun _ _ _ related => .some related⟩

/-- The rule with the block stands between others, which stay the same. -/
theorem compileAll_matchesBut (fresh : name ∉ declared) {front back : List RuleDecl} {rule : String}
    {moved alternatives others : List AlternativeDecl}
    (within : Form.Extracts name moved (.block alternatives) (.block others))
    (unknown : rule ∉ front.map RuleDecl.name)
    (faultless : (compileAll vocabulary declared [] 0
      (front ++ ⟨rule, false, alternatives⟩ :: back)).defects = []) :
    ∃ before after, Scope.MatchesBut ⟨vocabulary, declared, rule, false⟩ moved 0
      (fun σ => List.Forall₂ (Rule.Renamed σ)) before after
      (compileAll vocabulary declared [] 0 (front ++ ⟨rule, false, alternatives⟩ :: back))
      (compileAll vocabulary (declared ++ [name]) [] 0 (front ++ ⟨rule, false, others⟩ :: back)) := by
  have once : ∀ (names : List String) (next : Nat) (given : List AlternativeDecl),
      compileOnce vocabulary names ((front.map RuleDecl.name).reverse ++ []) next ⟨rule, false, given⟩ =
        compile vocabulary names next ⟨rule, false, given⟩ := by
    intro names next given
    rw [compileOnce, if_neg (by simpa using unknown)]
  rw [compileAll_append, compileAll_cons, once] at faultless ⊢
  rw [compileAll_append, compileAll_cons, once]
  obtain ⟨faultlessFront, faultless⟩ := List.append_eq_nil_iff.mp faultless
  obtain ⟨faultlessHere, faultlessBack⟩ := List.append_eq_nil_iff.mp faultless
  obtain ⟨before, after, but⟩ := compile_matchesBut fresh within _ faultlessHere
  exact ⟨_, _, .between
    (fun next => (compile vocabulary (declared ++ [name]) next ⟨rule, false, others⟩).map Option.toList)
    (fun next => compileAll vocabulary (declared ++ [name])
      (rule :: ((front.map RuleDecl.name).reverse ++ [])) next back)
    (fun σ fixes shifts => compileAll_matches fresh fixes 0 0 front faultlessFront shifts)
    (but.map _ _ fun _ _ _ => forall₂_toList)
    fun σ image fixes shifts => compileAll_matches fresh fixes _ image back faultlessBack shifts⟩

end RuleDecl

/-- Two stretches of places, one behind the other, change places. -/
def exchange (first left right : Nat) : Equiv.Perm Nat where
  toFun place :=
    if place < first then place
    else if place < first + left then place + right
    else if place < first + left + right then place - left
    else place
  invFun place :=
    if place < first then place
    else if place < first + right then place + left
    else if place < first + right + left then place - right
    else place
  left_inv place := by
    dsimp only
    split_ifs <;> omega
  right_inv place := by
    dsimp only
    split_ifs <;> omega

theorem exchange_apply (first left right place : Nat) : exchange first left right place =
    if place < first then place
    else if place < first + left then place + right
    else if place < first + left + right then place - left
    else place := rfl

theorem getElem?_exchange {α : Type} (front left right back : List α) (place : Nat) :
    (front ++ (right ++ (left ++ back)))[exchange front.length left.length right.length place]? =
      (front ++ (left ++ (right ++ back)))[place]? := by
  rw [exchange_apply]
  simp only [List.getElem?_append]
  split_ifs <;> first | omega | (congr 1 <;> omega)

/-- Where the rules of a grammar go if the block that is numbered `before` gets a name: `count` blocks
inside it come last, behind `after` others. -/
def extraction (declared before count after : Nat) : Equiv.Perm Nat :=
  (exchange declared before 1).trans (exchange (declared + 1 + before) count after)

theorem extraction_vacates (declared before count after : Nat) :
    Vacates (extraction declared before count after) declared 0 before (count + 1) after where
  fixes place within := by
    simp only [extraction, Equiv.trans_apply, exchange_apply]
    split_ifs <;> omega
  front number within := by
    simp only [extraction, Equiv.trans_apply, exchange_apply]
    split_ifs <;> omega
  here := by
    simp only [extraction, Equiv.trans_apply, exchange_apply]
    split_ifs <;> omega
  back number within := by
    simp only [extraction, Equiv.trans_apply, exchange_apply]
    split_ifs <;> omega

theorem extraction_shifts (declared before count after : Nat) :
    Shifts (extraction declared before count after) declared (before + 1) (before + after) count := by
  intro number within
  simp only [extraction, Equiv.trans_apply, exchange_apply]
  split_ifs <;> omega

theorem getElem?_extraction {α : Type} (declared before : List α) (block : α) (inner after : List α)
    (place : Nat) :
    (declared ++ (block :: (before ++ (after ++ inner))))[extraction declared.length before.length
        inner.length after.length place]? =
      (declared ++ (before ++ (block :: (inner ++ after))))[place]? := by
  have first := getElem?_exchange declared before [block] (inner ++ after) place
  have second := getElem?_exchange (declared ++ [block] ++ before) inner after []
    (exchange declared.length before.length 1 place)
  rw [List.length_append, List.length_append, List.length_singleton] at second
  simp only [List.length_singleton, List.append_nil, List.append_assoc, List.cons_append,
    List.nil_append] at first second
  rw [extraction, Equiv.trans_apply, second, first]

theorem Grammar.renamed_of_rules {σ : Equiv.Perm Nat} {grammar other : Grammar} {rules : List Rule}
    (same : List.Forall₂ (Rule.Renamed σ) rules other.rules)
    (places : ∀ place, rules[σ place]? = grammar.rules[place]?) : grammar.Renamed σ other := by
  intro place
  have related := forall₂_getElem? same (σ place)
  rw [places] at related
  rw [alternatives, alternatives]
  generalize grammar.rules[place]? = rule at related ⊢
  generalize other.rules[σ place]? = image at related ⊢
  cases related with
  | none => exact .nil
  | some related => exact related

theorem Grammar.compile_eq_ok_iff_faultless {vocabulary : Vocabulary} {decls : List RuleDecl}
    {grammar : Grammar} : compile vocabulary decls = .ok grammar ↔ RuleDecl.nameDefects [] decls = [] ∧
      (RuleDecl.compileAll vocabulary (decls.map RuleDecl.name) [] 0 decls).defects = [] ∧
      grammar = ⟨(RuleDecl.compileAll vocabulary (decls.map RuleDecl.name) [] 0 decls).value ++
        (RuleDecl.compileAll vocabulary (decls.map RuleDecl.name) [] 0 decls).blocks, vocabulary⟩ := by
  dsimp only [compile]
  rw [← and_assoc, ← List.append_eq_nil_iff, ← List.isEmpty_iff]
  split
  · rename_i faultless
    rw [Except.ok.injEq, eq_comm]
    exact (and_iff_right faultless).symm
  · rename_i faulty
    exact ⟨nofun, fun given => (faulty given.1).elim⟩

namespace RuleDecl

variable {vocabulary : Vocabulary} {declared : List String} {name : String}

theorem nameDefects_names_iff {decls : List RuleDecl} : nameDefects [] decls = [] ↔
    (decls.map RuleDecl.name).Nodup ∧ ∀ given ∈ decls.map RuleDecl.name, '#' ∉ given.toList := by
  rw [nameDefects_iff, List.forall_mem_map]
  exact and_congr_right fun _ =>
    forall₂_congr fun _ _ => and_iff_right List.not_mem_nil

theorem length_compileAll {decls : List RuleDecl} (named : nameDefects [] decls = [])
    (faultless : (compileAll vocabulary declared [] 0 decls).defects = []) :
    (compileAll vocabulary declared [] 0 decls).value.length = decls.length := by
  rw [compileAll_eq decls 0 named ((compileAll_sound_iff decls 0 named).mp faultless)]
  exact length_compiledRules 0 decls

/-- The rules that are compiled once the block has a name are those that were compiled before. -/
theorem compileAll_extracts (fresh : name ∉ declared) {front back : List RuleDecl} {rule : String}
    {moved alternatives others : List AlternativeDecl}
    (within : Form.Extracts name moved (.block alternatives) (.block others))
    (unknown : rule ∉ front.map RuleDecl.name)
    (new : name ∉ (front ++ ⟨rule, false, alternatives⟩ :: back).map RuleDecl.name)
    {compiled : Compiled (List Rule)} (given : compileAll vocabulary declared [] 0
      (front ++ ⟨rule, false, alternatives⟩ :: back) = compiled)
    (faultless : compiled.defects = []) :
    ∃ before block inner after image, compiled.blocks = before ++ (block :: (inner ++ after)) ∧
      compileAll vocabulary (declared ++ [name]) [] 0
        ((front ++ ⟨rule, false, others⟩ :: back) ++ [⟨name, false, moved⟩]) = image ∧
      image.defects = [] ∧
      List.Forall₂ (Rule.Renamed (extraction declared.length before.length inner.length after.length))
        (compiled.value ++ (block :: (before ++ (after ++ inner)))) (image.value ++ image.blocks) := by
  subst given
  obtain ⟨before, after, but⟩ := compileAll_matchesBut fresh within unknown faultless
  have widens := @scope_widens vocabulary declared name fresh ⟨rule, false, alternatives⟩
    ⟨name, false, moved⟩ rfl
  obtain ⟨given, faultlessMoved⟩ := Scope.given_of_faultless
    ((Scope.form_defects before.length 0 (.block moved)).trans but.faultless)
  have blocks := but.blocks
  have matched := but.matched
  rw [Nat.zero_add, Scope.form] at blocks matched
  let inner := Scope.alternatives ⟨vocabulary, declared, rule, false⟩ (before.length + 1) moved
  have vacates := extraction_vacates declared.length before.length inner.blocks.length after.length
  have first := matched _ vacates
  have size := first.blocks.length_eq
  rw [List.length_append] at size
  have last := Scope.alternatives_matches widens vacates.fixes (before.length + 1)
    (before.length + after.length) moved faultlessMoved
    (extraction_shifts declared.length before.length inner.blocks.length after.length)
  have new : name ∉ ((front ++ ⟨rule, false, others⟩ :: back).map RuleDecl.name).reverse ++ [] := by
    rw [List.append_nil, List.mem_reverse]
    simpa using new
  refine ⟨before, _, inner.blocks, after, _, blocks, compileAll_append .., ?_, ?_⟩
  · rw [compileAll_singleton new given, Nat.zero_add, ← size]
    exact List.append_eq_nil_iff.mpr ⟨first.faultless, last.faultless⟩
  · rw [compileAll_singleton new given, Nat.zero_add, ← size]
    have named : Rule.Renamed (extraction declared.length before.length inner.blocks.length after.length)
        ⟨Scope.blockName ⟨vocabulary, declared, rule, false⟩ before.length, .block, inner.value⟩
        ⟨name, .parser, _⟩ := last.value
    have whole := List.rel_append first.value (.cons named (List.rel_append first.blocks last.blocks))
    simp only [Compiled.append, Compiled.map, List.append_assoc, List.singleton_append] at whole ⊢
    exact whole

end RuleDecl

namespace Grammar

variable {vocabulary : Vocabulary} {decls others : List RuleDecl} {grammar other : Grammar} {name : String}

theorem findRule_declared (compiled : compile vocabulary decls = .ok grammar) {place : Nat} {rule : String}
    (declared : (decls.map RuleDecl.name)[place]? = some rule) : grammar.findRule rule = .ok place := by
  obtain ⟨named, _, rfl⟩ := compile_eq_ok_iff.mp compiled
  have found := (ruleIndex?_eq_some_iff (ofDecls_distinct vocabulary named)).mpr
    (ofDecls_names place rule declared)
  rw [findRule, found]

/-- Once a block has a name, there is a grammar still, and it is the same but for the places of rules. The rules
that were declared already are found where they were. -/
theorem compile_extracts (extracts : RuleDecl.Extracts name decls others)
    (compiled : compile vocabulary decls = .ok grammar) :
    ∃ other σ, compile vocabulary others = .ok other ∧ grammar.Renamed σ other ∧
      ∀ rule ∈ decls.map RuleDecl.name, ∃ place, grammar.findRule rule = .ok place ∧
        other.findRule rule = .ok (σ place) := by
  obtain @⟨front, back, rule, moved, alternatives, replaced, within, plain, new⟩ := extracts
  obtain ⟨named, faultless, same⟩ := compile_eq_ok_iff_faultless.mp compiled
  obtain ⟨distinct, plainOthers⟩ := RuleDecl.nameDefects_names_iff.mp named
  have unknown : rule ∉ front.map RuleDecl.name := by
    rw [List.map_append, List.map_cons, List.nodup_middle] at distinct
    exact fun listed => (List.nodup_cons.mp distinct).1 (List.mem_append_left _ listed)
  obtain ⟨before, block, inner, after, image, blocks, imaged, faultlessImage, renamed⟩ :=
    RuleDecl.compileAll_extracts new within unknown new rfl faultless
  have names : ((front ++ RuleDecl.mk rule false replaced :: back) ++
      [RuleDecl.mk name false moved]).map RuleDecl.name =
        (front ++ RuleDecl.mk rule false alternatives :: back).map RuleDecl.name ++ [name] := by simp
  have compiledOther : compile vocabulary ((front ++ RuleDecl.mk rule false replaced :: back) ++
      [RuleDecl.mk name false moved]) = .ok ⟨image.value ++ image.blocks, vocabulary⟩ := by
    rw [compile_eq_ok_iff_faultless, RuleDecl.nameDefects_names_iff, names, imaged]
    exact ⟨⟨distinct.append (List.nodup_singleton name) (by simpa using new),
      List.forall_mem_append.mpr ⟨plainOthers, List.forall_mem_singleton.mpr plain⟩⟩, faultlessImage, rfl⟩
  refine ⟨_, _, compiledOther, renamed_of_rules renamed fun place => ?_, fun rule listed => ?_⟩
  · have places := RuleDecl.length_compileAll named faultless
    rw [same, blocks, ← getElem?_extraction, places, List.length_map]
  · obtain ⟨place, declared⟩ := List.mem_iff_getElem?.mp listed
    have within := (List.getElem?_eq_some_iff.mp declared).1
    refine ⟨place, findRule_declared compiled declared, ?_⟩
    rw [(extraction_vacates _ _ _ _).fixes place within]
    refine findRule_declared compiledOther ?_
    rw [names, List.getElem?_append_left within, declared]

end Grammar

end Typeahead
