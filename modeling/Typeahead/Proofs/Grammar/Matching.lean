import Typeahead.Proofs.Grammar.Renaming
import Typeahead.Proofs.Grammar.Preorder

/-!
One declared rule more, behind all others. What is compiled is the same but for the places of the blocks, which
move up, and nothing becomes wrong.
-/

namespace Typeahead

def Rule.Renamed (σ : Nat → Nat) (rule other : Rule) : Prop :=
  List.Forall₂ (Alternative.Renamed σ) rule.alternatives other.alternatives

/-- The declared rules keep their places. -/
def Fixes (σ : Nat → Nat) (declared : Nat) : Prop := ∀ place < declared, σ place = place

/-- The places of blocks, which are numbered from `next` on behind declared rules, become those of blocks that
are numbered from `image` on, with one rule more declared. -/
def Shifts (σ : Nat → Nat) (declared next image count : Nat) : Prop :=
  ∀ number < count, σ (declared + (next + number)) = declared + 1 + (image + number)

namespace Shifts

variable {σ : Nat → Nat} {declared next image count others : Nat}

theorem left (shifts : Shifts σ declared next image (count + others)) :
    Shifts σ declared next image count :=
  fun number within => shifts number (Nat.lt_add_right _ within)

theorem right (shifts : Shifts σ declared next image (count + others)) :
    Shifts σ declared (next + count) (image + count) others := by
  intro number within
  rw [Nat.add_assoc next, Nat.add_assoc image]
  exact shifts (count + number) (Nat.add_lt_add_left within count)

end Shifts

theorem Symbol.Renamed.of_terminal {σ : Nat → Nat} {symbol : Symbol}
    (terminal : symbol.isTerminal = true) : symbol.Renamed σ symbol := by
  refine ⟨?_, fun _ => rfl⟩
  rw [Option.isNone_iff_eq_none.mp terminal, Option.map_none]

theorem Symbol.Renamed.of_rule {σ : Nat → Nat} {target image : Nat} (moved : image = σ target)
    (name other : String) : (Symbol.rule target name).Renamed σ (.rule image other) := by
  refine ⟨congrArg some moved, fun terminal => ?_⟩
  cases terminal

theorem forall₂_toList {α : Type} {related : α → α → Prop} {value image : Option α}
    (given : Option.Rel related value image) : List.Forall₂ related value.toList image.toList := by
  cases given with
  | none => exact .nil
  | some given => exact .cons given .nil

namespace Compiled

variable {α β : Type}

def map (f : α → β) (compiled : Compiled α) : Compiled β := { compiled with value := f compiled.value }

/-- What is compiled one after the other. -/
def append (compiled others : Compiled (List α)) : Compiled (List α) where
  value := compiled.value ++ others.value
  blocks := compiled.blocks ++ others.blocks
  defects := compiled.defects ++ others.defects

theorem append_assoc (first second third : Compiled (List α)) :
    (first.append second).append third = first.append (second.append third) := by
  simp only [append, List.append_assoc]

/-- The other one has no defects, and is the same but for the places of rules. -/
structure Matches (σ : Nat → Nat) (related : α → α → Prop) (compiled other : Compiled α) : Prop where
  value : related compiled.value other.value
  blocks : List.Forall₂ (Rule.Renamed σ) compiled.blocks other.blocks
  faultless : other.defects = []

namespace Matches

variable {σ : Nat → Nat}

theorem map {related : α → α → Prop} {relatedImage : β → β → Prop} {compiled other : Compiled α}
    {f : α → β} (matched : Matches σ related compiled other)
    (keeps : ∀ value image, related value image → relatedImage (f value) (f image)) :
    Matches σ relatedImage (compiled.map f) (other.map f) :=
  ⟨keeps _ _ matched.value, matched.blocks, matched.faultless⟩

theorem append {related : α → α → Prop} {first firstImage others othersImage : Compiled (List α)}
    (matched : Matches σ (List.Forall₂ related) first firstImage)
    (rest : Matches σ (List.Forall₂ related) others othersImage) :
    Matches σ (List.Forall₂ related) (first.append others) (firstImage.append othersImage) where
  value := List.rel_append matched.value rest.value
  blocks := List.rel_append matched.blocks rest.blocks
  faultless := List.append_eq_nil_iff.mpr ⟨matched.faultless, rest.faultless⟩

end Matches

end Compiled

namespace Scope

/-- One more rule is declared, last. What is compiled may belong to another rule. -/
structure Widens (scope other : Scope) (name : String) : Prop where
  vocabulary : other.vocabulary = scope.vocabulary
  lexical : other.lexical = scope.lexical
  declared : other.declared = scope.declared ++ [name]
  fresh : name ∉ scope.declared

variable {scope other : Scope} {name : String} {σ : Nat → Nat}

theorem elements_cons (next : Nat) (decl : ElementDecl) (decls : List ElementDecl) :
    scope.elements next (decl :: decls) = ((scope.element next decl).map Option.toList).append
      (scope.elements (next + (scope.element next decl).blocks.length) decls) := rfl

theorem alternatives_cons (next : Nat) (decl : AlternativeDecl) (decls : List AlternativeDecl) :
    scope.alternatives next (decl :: decls) = ((scope.alternative next decl).map ([·])).append
      (scope.alternatives (next + (scope.alternative next decl).blocks.length) decls) := rfl

theorem elements_append (next : Nat) (left right : List ElementDecl) :
    scope.elements next (left ++ right) = (scope.elements next left).append
      (scope.elements (next + (scope.elements next left).blocks.length) right) := by
  induction left generalizing next with
  | nil => rfl
  | cons decl decls ih =>
    rw [List.cons_append, elements_cons, elements_cons, ih, Compiled.append_assoc, Nat.add_assoc]
    simp only [Compiled.append, List.length_append, Compiled.map]

theorem alternatives_append (next : Nat) (left right : List AlternativeDecl) :
    scope.alternatives next (left ++ right) = (scope.alternatives next left).append
      (scope.alternatives (next + (scope.alternatives next left).blocks.length) right) := by
  induction left generalizing next with
  | nil => rfl
  | cons decl decls ih =>
    rw [List.cons_append, alternatives_cons, alternatives_cons, ih, Compiled.append_assoc, Nat.add_assoc]
    simp only [Compiled.append, List.length_append, Compiled.map]

theorem element_eq {suffix : String} {multiplicity : Multiplicity}
    (given : Multiplicity.ofSuffix? suffix = some multiplicity) (next : Nat) (label : Option String)
    (form : Form) : scope.element next ⟨label, form, suffix⟩ =
      (scope.form next form).map (Option.map fun symbol => ⟨label, symbol, multiplicity⟩) := by
  rw [element, given]
  rfl

theorem Widens.findIdx?_eq (widens : scope.Widens other name) {target : Nat} {given : String}
    (found : scope.declared.findIdx? (· == given) = some target) :
    other.declared.findIdx? (· == given) = some target := by
  rw [widens.declared, List.findIdx?_append, found]
  rfl

theorem Widens.findIdx?_name (widens : scope.Widens other name) :
    other.declared.findIdx? (· == name) = some scope.declared.length := by
  have missing : scope.declared.findIdx? (· == name) = none :=
    List.findIdx?_eq_none_iff.mpr fun given listed =>
      beq_eq_false_iff_ne.mpr fun same => widens.fresh (same ▸ listed)
  rw [widens.declared, List.findIdx?_append, missing]
  simp

theorem Widens.itemId?_eq (widens : scope.Widens other name) : other.itemId? = scope.itemId? := by
  funext item
  cases item <;> simp only [itemId?, widens.vocabulary]

theorem symbol?_matches (widens : scope.Widens other name)
    (fixes : Fixes σ scope.declared.length) (form : Form)
    (faultless : (scope.symbol? form).defects = []) :
    (scope.symbol? form).Matches σ (Option.Rel (Symbol.Renamed σ)) (other.symbol? form) := by
  have same : ∀ {symbol : Symbol}, symbol.isTerminal = true →
      Option.Rel (Symbol.Renamed σ) (some symbol) (some symbol) :=
    fun terminal => .some (.of_terminal terminal)
  cases form with
  | literal text =>
    simp only [symbol?, widens.vocabulary, widens.lexical] at faultless ⊢
    split
    · exact ⟨same rfl, .nil, rfl⟩
    · split
      · exact ⟨same rfl, .nil, rfl⟩
      · rename_i unknown strict
        simp [unknown, strict] at faultless
  | token given =>
    simp only [symbol?, widens.vocabulary, widens.lexical] at faultless ⊢
    split
    · refine ⟨?_, .nil, rfl⟩
      dsimp only
      split
      · exact .none
      · exact same rfl
    · split
      · exact ⟨same rfl, .nil, rfl⟩
      · rename_i unknown strict
        simp [unknown, strict] at faultless
  | rule given =>
    cases found : scope.declared.findIdx? (· == given) with
    | none => simp [symbol?, found] at faultless
    | some target =>
      have within := (List.findIdx?_eq_some_iff_getElem.mp found).1
      rw [symbol?, symbol?, found, widens.findIdx?_eq found]
      exact ⟨.some (.of_rule (fixes target within).symm _ _), .nil, rfl⟩
  | noneOf items =>
    simp only [symbol?, widens.lexical, widens.itemId?_eq] at faultless ⊢
    split
    · exact ⟨same rfl, .nil, rfl⟩
    · rename_i strict
      rw [if_neg strict] at faultless
      exact ⟨same rfl, .nil, List.map_eq_nil_iff.mpr (List.map_eq_nil_iff.mp faultless)⟩
  | any => exact ⟨same rfl, .nil, rfl⟩
  | block alternatives => exact ⟨.none, .nil, rfl⟩

theorem block_matches (widens : scope.Widens other name) {next image : Nat}
    {alternatives : List AlternativeDecl} {compiled : Compiled (List Alternative)} {defects : List Defect}
    (given : alternatives.isEmpty = false) (first : Shifts σ scope.declared.length next image 1)
    (inside : compiled.Matches σ (List.Forall₂ (Alternative.Renamed σ))
      (other.alternatives (image + 1) alternatives)) :
    Compiled.Matches σ (Option.Rel (Symbol.Renamed σ))
      ⟨some (.rule (scope.declared.length + next) (scope.blockName next)),
        ⟨scope.blockName next, .block, compiled.value⟩ :: compiled.blocks, defects⟩
      (other.form image (.block alternatives)) where
  value := by
    have shifted := first 0 Nat.zero_lt_one
    simp only [Nat.add_zero] at shifted
    refine .some (.of_rule ?_ _ _)
    rw [shifted, widens.declared, List.length_append, List.length_singleton]
  blocks := .cons inside.value inside.blocks
  faultless := by
    rw [form, inside.faultless, given]
    rfl

theorem given_of_faultless {next : Nat} {alternatives : List AlternativeDecl}
    (faultless : (scope.form next (.block alternatives)).defects = []) :
    alternatives.isEmpty = false ∧ (scope.alternatives (next + 1) alternatives).defects = [] := by
  obtain ⟨given, inside⟩ := List.append_eq_nil_iff.mp faultless
  refine ⟨?_, inside⟩
  cases empty : alternatives.isEmpty with
  | false => rfl
  | true =>
    rw [empty] at given
    cases given

mutual

theorem element_matches (widens : scope.Widens other name)
    (fixes : Fixes σ scope.declared.length) (next image : Nat) : (decl : ElementDecl) →
    (scope.element next decl).defects = [] →
      Shifts σ scope.declared.length next image (scope.element next decl).blocks.length →
      (scope.element next decl).Matches σ (Option.Rel (Element.Renamed σ)) (other.element image decl)
  | ⟨label, form, suffix⟩, faultless, shifts => by
    cases given : Multiplicity.ofSuffix? suffix with
    | none => simp [element, given] at faultless
    | some multiplicity =>
      rw [element_eq given] at faultless shifts
      rw [element_eq given, element_eq given]
      refine (form_matches widens fixes next image form faultless shifts).map fun value image related => ?_
      cases related with
      | none => exact .none
      | some symbol => exact .some ⟨rfl, symbol, rfl⟩

theorem form_matches (widens : scope.Widens other name)
    (fixes : Fixes σ scope.declared.length) (next image : Nat) : (form : Form) →
    (scope.form next form).defects = [] →
      Shifts σ scope.declared.length next image (scope.form next form).blocks.length →
      (scope.form next form).Matches σ (Option.Rel (Symbol.Renamed σ)) (other.form image form)
  | .block alternatives, faultless, shifts => by
    obtain ⟨given, faultless⟩ := given_of_faultless faultless
    rw [form, List.length_cons, Nat.add_comm] at shifts
    exact block_matches widens given shifts.left
      (alternatives_matches widens fixes (next + 1) (image + 1) alternatives faultless shifts.right)
  | .literal text, faultless, _ => symbol?_matches widens fixes (.literal text) faultless
  | .token given, faultless, _ => symbol?_matches widens fixes (.token given) faultless
  | .rule given, faultless, _ => symbol?_matches widens fixes (.rule given) faultless
  | .noneOf items, faultless, _ => symbol?_matches widens fixes (.noneOf items) faultless
  | .any, faultless, _ => symbol?_matches widens fixes .any faultless

theorem elements_matches (widens : scope.Widens other name)
    (fixes : Fixes σ scope.declared.length) (next image : Nat) : (decls : List ElementDecl) →
    (scope.elements next decls).defects = [] →
      Shifts σ scope.declared.length next image (scope.elements next decls).blocks.length →
      (scope.elements next decls).Matches σ (List.Forall₂ (Element.Renamed σ))
        (other.elements image decls)
  | [], _, _ => ⟨.nil, .nil, rfl⟩
  | decl :: decls, faultless, shifts => by
    obtain ⟨faultlessFirst, faultlessOthers⟩ := List.append_eq_nil_iff.mp faultless
    rw [elements, List.length_append] at shifts
    have first := element_matches widens fixes next image decl faultlessFirst shifts.left
    rw [elements_cons, elements_cons, ← first.blocks.length_eq]
    exact .append (first.map fun _ _ => forall₂_toList)
      (elements_matches widens fixes _ _ decls faultlessOthers shifts.right)

theorem alternative_matches (widens : scope.Widens other name)
    (fixes : Fixes σ scope.declared.length) (next image : Nat) : (decl : AlternativeDecl) →
    (scope.alternative next decl).defects = [] →
      Shifts σ scope.declared.length next image (scope.alternative next decl).blocks.length →
      (scope.alternative next decl).Matches σ (Alternative.Renamed σ) (other.alternative image decl)
  | ⟨_, decls⟩, faultless, shifts =>
    (elements_matches widens fixes next image decls faultless shifts).map fun _ _ related => related

theorem alternatives_matches (widens : scope.Widens other name)
    (fixes : Fixes σ scope.declared.length) (next image : Nat) : (decls : List AlternativeDecl) →
    (scope.alternatives next decls).defects = [] →
      Shifts σ scope.declared.length next image (scope.alternatives next decls).blocks.length →
      (scope.alternatives next decls).Matches σ (List.Forall₂ (Alternative.Renamed σ))
        (other.alternatives image decls)
  | [], _, _ => ⟨.nil, .nil, rfl⟩
  | decl :: decls, faultless, shifts => by
    obtain ⟨faultlessFirst, faultlessOthers⟩ := List.append_eq_nil_iff.mp faultless
    rw [alternatives, List.length_append] at shifts
    have first := alternative_matches widens fixes next image decl faultlessFirst shifts.left
    rw [alternatives_cons, alternatives_cons, ← first.blocks.length_eq]
    exact .append (first.map fun _ _ related => .cons related .nil)
      (alternatives_matches widens fixes _ _ decls faultlessOthers shifts.right)

end

end Scope

namespace RuleDecl

variable {vocabulary : Vocabulary} {declared earlier : List String} {name : String} {σ : Nat → Nat}

theorem scope_widens (fresh : name ∉ declared) (decl other : RuleDecl)
    (lexical : other.lexical = decl.lexical) :
    (decl.scope vocabulary declared).Widens (other.scope vocabulary (declared ++ [name])) name :=
  ⟨rfl, lexical, rfl, fresh⟩

theorem compile_eq {decl : RuleDecl} (given : decl.alternatives.isEmpty = false) (next : Nat) :
    decl.compile vocabulary declared next =
      ((decl.scope vocabulary declared).alternatives next decl.alternatives).map fun alternatives =>
        some ⟨decl.name, decl.origin, alternatives⟩ := by
  rw [compile, given]
  rfl

theorem given_of_compile {next : Nat} {decl : RuleDecl}
    (faultless : (decl.compile vocabulary declared next).defects = []) :
    decl.alternatives.isEmpty = false := by
  unfold compile at faultless
  split at faultless
  · cases faultless
  · rename_i given
    exact Bool.not_eq_true _ ▸ given

theorem compile_matches (fresh : name ∉ declared) (fixes : Fixes σ declared.length) (next image : Nat)
    (decl : RuleDecl) (faultless : (decl.compile vocabulary declared next).defects = [])
    (shifts : Shifts σ declared.length next image (decl.compile vocabulary declared next).blocks.length) :
    (decl.compile vocabulary declared next).Matches σ (Option.Rel (Rule.Renamed σ))
      (decl.compile vocabulary (declared ++ [name]) image) := by
  have given := given_of_compile faultless
  rw [compile_eq given] at faultless shifts ⊢
  rw [compile_eq given]
  exact (Scope.alternatives_matches (scope_widens fresh decl decl rfl) fixes next image decl.alternatives
    faultless shifts).map fun _ _ related => .some related

/-- A rule that follows those named `earlier`. -/
def compileOnce (vocabulary : Vocabulary) (declared earlier : List String) (next : Nat) (decl : RuleDecl) :
    Compiled (Option Rule) :=
  if earlier.contains decl.name then { value := none } else decl.compile vocabulary declared next

theorem compileAll_cons (next : Nat) (decl : RuleDecl) (decls : List RuleDecl) :
    compileAll vocabulary declared earlier next (decl :: decls) =
      ((compileOnce vocabulary declared earlier next decl).map Option.toList).append
        (compileAll vocabulary declared (decl.name :: earlier)
          (next + (compileOnce vocabulary declared earlier next decl).blocks.length) decls) := rfl

theorem compileAll_singleton {decl : RuleDecl} (unknown : decl.name ∉ earlier)
    (given : decl.alternatives.isEmpty = false) (next : Nat) :
    compileAll vocabulary declared earlier next [decl] =
      ((decl.scope vocabulary declared).alternatives next decl.alternatives).map fun alternatives =>
        [⟨decl.name, decl.origin, alternatives⟩] := by
  rw [compileAll_cons, compileOnce, if_neg (by simpa using unknown), compile_eq given]
  simp [Compiled.append, Compiled.map, compileAll]

theorem compileAll_append (next : Nat) (left right : List RuleDecl) :
    compileAll vocabulary declared earlier next (left ++ right) =
      (compileAll vocabulary declared earlier next left).append
        (compileAll vocabulary declared ((left.map RuleDecl.name).reverse ++ earlier)
          (next + (compileAll vocabulary declared earlier next left).blocks.length) right) := by
  induction left generalizing earlier next with
  | nil => rfl
  | cons decl decls ih =>
    rw [List.cons_append, compileAll_cons, compileAll_cons, ih, Compiled.append_assoc, Nat.add_assoc,
      List.map_cons, List.reverse_cons, List.append_assoc, List.singleton_append]
    simp only [Compiled.append, List.length_append, Compiled.map]

theorem compileOnce_matches (fresh : name ∉ declared) (fixes : Fixes σ declared.length) (next image : Nat)
    (decl : RuleDecl) (faultless : (compileOnce vocabulary declared earlier next decl).defects = [])
    (shifts : Shifts σ declared.length next image
      (compileOnce vocabulary declared earlier next decl).blocks.length) :
    (compileOnce vocabulary declared earlier next decl).Matches σ (Option.Rel (Rule.Renamed σ))
      (compileOnce vocabulary (declared ++ [name]) earlier image decl) := by
  unfold compileOnce at faultless shifts ⊢
  split
  · exact ⟨.none, .nil, rfl⟩
  · rename_i unknown
    rw [if_neg unknown] at faultless shifts
    exact compile_matches fresh fixes next image decl faultless shifts

theorem compileAll_matches (fresh : name ∉ declared) (fixes : Fixes σ declared.length) (next image : Nat)
    (decls : List RuleDecl) (faultless : (compileAll vocabulary declared earlier next decls).defects = [])
    (shifts : Shifts σ declared.length next image
      (compileAll vocabulary declared earlier next decls).blocks.length) :
    (compileAll vocabulary declared earlier next decls).Matches σ (List.Forall₂ (Rule.Renamed σ))
      (compileAll vocabulary (declared ++ [name]) earlier image decls) := by
  induction decls generalizing earlier next image with
  | nil => exact ⟨.nil, .nil, rfl⟩
  | cons decl decls ih =>
    rw [compileAll_cons] at faultless shifts ⊢
    obtain ⟨faultlessFirst, faultlessOthers⟩ := List.append_eq_nil_iff.mp faultless
    rw [Compiled.append, List.length_append] at shifts
    have first := compileOnce_matches fresh fixes next image decl faultlessFirst shifts.left
    rw [compileAll_cons, ← first.blocks.length_eq]
    exact .append (first.map fun _ _ => forall₂_toList) (ih _ _ faultlessOthers shifts.right)

end RuleDecl

end Typeahead
