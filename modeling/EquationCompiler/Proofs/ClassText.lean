import EquationCompiler.Proofs.BestEffort
import EquationCompiler.Proofs.RecordText

/-!
# The text of the classes

The header is a row of declarations, and the source file a row of branches and a
row of definitions, one of each for every equation. What a declaration and a
definition have in common is the same data.
-/
namespace EquationCompiler

/-- The parameters as they stand between the parentheses of a constructor. -/
def argumentsText (parameters : List String) : String :=
  ", ".intercalate (parameters.map fun p => "DOFPointer " ++ p)

/-- A class in the header. -/
structure ClassDeclaration where
  name : String
  /-- What the constructor from separate parameters takes. -/
  parameters : List String

def ClassDeclaration.text (c : ClassDeclaration) : String :=
  "\nclass " ++ c.name ++ ": public SolverFunctionsBase\n\x7b\n    public:\n        " ++
    c.name ++ "(" ++ argumentsText c.parameters ++ ");\n        " ++ c.name ++
    "(std::vector<DOFPointer> dof_list);\n\n        double GetValue() const;\n        double GetValueSelf(const mmcMatrix &params) const;\n        mmcMatrix GetGradientSelf(const mmcMatrix &params) const;\n        std::string GetName() const \x7breturn \"" ++
    c.name ++ "\";\x7d\n\x7d;\n"

/-- The text of a header that declares some classes. -/
def headerText (o : RenderOptions) (classes : List ClassDeclaration) : String :=
  "// Generated by solver-codegen from " ++ o.sourceFile ++ ". Do not edit.\n\n#ifndef " ++
    o.headerGuard ++ "\n#define " ++ o.headerGuard ++
    "\n\n#include <string>\n#include <vector>\n#include \"SolverFunctionsBase.h\"\n\nSolverFunctionsBasePointer SolverFunctionsFactory(std::string solver_function_name, std::vector<DOFPointer> dof_list);\n\n" ++
    String.join (classes.map ClassDeclaration.text) ++
    "\n#endif //" ++ o.headerGuard ++ "\n"

/-- A branch of the factory. -/
structure FactoryBranch where
  /-- Whether the branch begins with `else`. -/
  alternative : Bool
  name : String

def FactoryBranch.text (b : FactoryBranch) : String :=
  "    " ++ (if b.alternative then "else " else "") ++ "if(solver_function_name == \"" ++ b.name ++
    "\")\n        new_solver_function.reset(new " ++ b.name ++ "(dof_list));\n"

/-- A class in the source file. -/
structure ClassDefinition where
  name : String
  /-- What the constructor from separate parameters takes. -/
  parameters : List String
  /-- The text of the value. -/
  value : String
  /-- The variables of the gradient, each with the entry of `params` that it is bound to. -/
  bound : List (String × ℕ)
  /-- The entries of the gradient, each with the text that is assigned to it. -/
  assigned : List (ℕ × String)

namespace ClassDefinition

def constructorText (c : ClassDefinition) : String :=
  "\n" ++ c.name ++ "::" ++ c.name ++ "(" ++ argumentsText c.parameters ++ ")\n\x7b\n" ++
    String.join (c.parameters.map fun p => "    AddDOF(" ++ p ++ ");\n") ++ "\x7d\n\n"

def listConstructorText (c : ClassDefinition) : String :=
  c.name ++ "::" ++ c.name ++ "(std::vector<DOFPointer> dof_list)\n\x7b\n    if(dof_list.size() != " ++
    toString c.parameters.length ++
    ")\n        throw SolverFunctionsException(\"The DOF vector for the constructor of SolverFunction " ++
    c.name ++ " did not contain exactly " ++ toString c.parameters.length ++
    " DOF's\");\n\n    for(int i=0; i<dof_list.size(); i++)\n        AddDOF(dof_list[i]);\n\x7d\n\n"

def valueText (c : ClassDefinition) : String :=
  "double " ++ c.name ++ "::GetValue() const\n\x7b\n" ++
    String.join (c.parameters.mapIdx fun i p =>
      "    double " ++ p ++ " = GetDOF(" ++ toString i ++ ")->GetValue();\n") ++
    "\n    return " ++ c.value ++ ";\n\x7d\n\n"

/-- A line that binds a variable to an entry of `params`. -/
def bindingText (binding : String × ℕ) : String :=
  "    double " ++ binding.1 ++ " = params(" ++ toString binding.2 ++ ",0);\n"

def valueSelfText (c : ClassDefinition) : String :=
  "double " ++ c.name ++ "::GetValueSelf(const mmcMatrix &params) const\n\x7b\n" ++
    String.join (c.parameters.zipIdx.map bindingText) ++
    "\n    return " ++ c.value ++ ";\n\x7d\n\n"

/-- A line that assigns a text to an entry of the gradient. -/
def assignmentText (assignment : ℕ × String) : String :=
  "    result(" ++ toString assignment.1 ++ ",0) = " ++ assignment.2 ++ ";\n"

/-- First all the variables are bound, and then the entries are assigned. -/
def gradientText (c : ClassDefinition) : String :=
  "mmcMatrix " ++ c.name ++
    "::GetGradientSelf(const mmcMatrix &params) const\n\x7b\n    mmcMatrix result(GetNumDOFs(),1);\n\n" ++
    String.join (c.bound.map bindingText) ++ "\n" ++ String.join (c.assigned.map assignmentText) ++
    "\n    return result;\n\x7d\n"

def text (c : ClassDefinition) : String :=
  c.constructorText ++ c.listConstructorText ++ c.valueText ++ c.valueSelfText ++ c.gradientText

end ClassDefinition

/-- The text of a source file. Without branches the factory does nothing but throw. -/
def sourceText (o : RenderOptions) (branches : List FactoryBranch)
    (classes : List ClassDefinition) : String :=
  "// Generated by solver-codegen from " ++ o.sourceFile ++
    ". Do not edit.\n\n#include <cmath>\n\n#include \"" ++ o.declarationsFile ++
    "\"\n\nusing namespace std;\n\n\nSolverFunctionsBasePointer SolverFunctionsFactory(std::string solver_function_name, std::vector<DOFPointer> dof_list)\n\x7b\n    SolverFunctionsBasePointer new_solver_function;\n\n" ++
    String.join (branches.map FactoryBranch.text) ++ "    " ++
    (if branches.isEmpty then "" else "else\n        ") ++
    "throw SolverFunctionsException(\"SolverFunctionsFactory: Requested solver function name not found.\");\n\n    return new_solver_function;\n\x7d\n\n" ++
    String.join (classes.map ClassDefinition.text) ++ "\n"

namespace EquationView

def declaration (v : EquationView) : ClassDeclaration := ⟨v.name, v.parameters⟩

def branch (v : EquationView) : FactoryBranch := ⟨v.index ≠ 0, v.name⟩

def definition (v : EquationView) : ClassDefinition where
  name := v.name
  parameters := v.parameters
  value := v.expression
  bound := v.parameters.zipIdx
  assigned := v.gradient.mapIdx fun i text => (i, text)

end EquationView

/-- A separator after every text but the last. -/
theorem join_mapIdx_separated (separator : String) (f : String → String) (texts : List String) :
    String.join (texts.mapIdx fun i t =>
        f t ++ if i + 1 = texts.length then "" else separator) =
      separator.intercalate (texts.map f) := by
  induction texts with
  | nil => rfl
  | cons first texts ih =>
    cases texts with
    | nil => simp
    | cons second texts =>
      rw [List.mapIdx_cons, String.join_cons, List.map_cons, List.map_cons,
        String.intercalate_cons_cons, ← List.map_cons, ← ih]
      simp [String.append_assoc]

namespace Piece
variable {s : Scope}

/-- A loop gives the text of every round. -/
theorem render_forEachAt {item : String} {path : ValuePath} {body : List Piece}
    {texts : List String} {f : ℕ → String → String}
    (hpath : s.find path = .ok (.list (texts.map .text)))
    (hbody : ∀ i t,
      Template.render (s.enter ⟨item, .text t, i, texts.length⟩) body = .ok (f i t)) :
    Piece.render s (Template.forEachAt item path body) = .ok (String.join (texts.mapIdx f)) := by
  have hcontainer : (Query.ofPath path).evaluate s = .ok (.list (texts.map .text)) := by
    rw [Query.evaluate_ofPath, hpath]
  have hrounds : ((s.loop item (texts.map .text)).mapM fun t => Template.render t body) =
      .ok (texts.mapIdx f) := by
    refine mapM_eq_ok_iff.mpr (List.forall₂_iff_get.mpr ⟨by simp, fun i hi hi' => ?_⟩)
    simpa [Scope.loop] using hbody i _
  cases texts with
  | nil =>
    rw [Template.forEachAt, Piece.render, hcontainer]
    rfl
  | cons first texts => exact Piece.render_forEach hcontainer hrounds

theorem render_valueAt {path : ValuePath} {v : Value} (h : s.find path = .ok v) :
    Piece.render s (Template.valueAt path) = .ok v.toText := by
  rw [Template.valueAt, Piece.render, Query.evaluate_ofPath, h]
  rfl

theorem render_whenAt {path : ValuePath} {v : Value} (h : s.find path = .ok v) (text : String) :
    Piece.render s (Template.whenAt path [.text text]) =
      .ok (if v.isEmpty then "" else text) := by
  rw [Template.whenAt, Piece.render, Query.holds, Query.evaluate_ofPath, h]
  cases hv : v.isEmpty <;>
    simp [hv, Template.render, Piece.render, bind, Except.bind, pure, Except.pure]

theorem render_unlessAt {path : ValuePath} {v : Value} (h : s.find path = .ok v) (text : String) :
    Piece.render s (Template.unlessAt path [.text text]) =
      .ok (if v.isEmpty then text else "") := by
  have hvalue : ({ operand := .path path, negated := true } : Query).evaluate s =
      .ok (.flag v.isEmpty) := by
    simp only [Query.evaluate, Operand.evaluate, h]
    rfl
  rw [Template.unlessAt, Piece.render, Query.holds, hvalue]
  cases hv : v.isEmpty <;>
    simp [Value.isEmpty, Template.render, Piece.render, bind, Except.bind, pure, Except.pure]

theorem render_lengthOf {path : ValuePath} {items : List Value}
    (h : s.find path = .ok (.list items)) :
    Piece.render s (.value (.lengthOf path)) = .ok (toString items.length) := by
  simp only [Piece.render, Query.evaluate, Query.lengthOf, Operand.evaluate, h]
  rfl

/-- Inside a loop the item is known by its name. -/
theorem render_item {item : String} (hitem : item ≠ "loop") (t : String) (i count : ℕ) :
    Piece.render (s.enter ⟨item, .text t, i, count⟩) (Template.valueAt [item]) = .ok t := by
  refine render_valueAt (v := .text t) ?_
  rw [Scope.find, Scope.find?_enter]
  simp [LoopRound.find?, hitem]

theorem render_index0 (r : LoopRound) :
    Piece.render (s.enter r) (Template.valueAt ["loop", "index0"]) = .ok (toString r.index) :=
  render_valueAt (v := .number r.index) rfl

end Piece

namespace EquationView
variable (v : EquationView) (count : ℕ)

/-- The scope of a part for one equation. -/
def scope : Scope := ({ fields := [] } : Scope).enter ⟨"equation", v.toValue, v.index, count⟩

theorem emit_eq (part : List Piece) :
    v.emit part count = Template.render (v.scope count) part := rfl

theorem render_name : Piece.render (v.scope count) Template.equationName = .ok v.name :=
  Piece.render_valueAt (v := .text v.name) rfl

theorem render_expression :
    Piece.render (v.scope count) (Template.valueAt ["equation", "expression"]) =
      .ok v.expression :=
  Piece.render_valueAt (v := .text v.expression) rfl

theorem find_parameters : (v.scope count).find ["equation", "parameters"] =
    .ok (.list (v.parameters.map .text)) := rfl

theorem render_length :
    Piece.render (v.scope count) (.value (.lengthOf ["equation", "parameters"])) =
      .ok (toString v.parameters.length) := by
  rw [Piece.render_lengthOf (v.find_parameters count), List.length_map]

theorem render_arguments :
    Piece.render (v.scope count) Template.arguments = .ok (argumentsText v.parameters) := by
  rw [argumentsText, ← join_mapIdx_separated]
  refine Piece.render_forEachAt (v.find_parameters count) fun i t => ?_
  have hseparator : Piece.render
      ((v.scope count).enter ⟨"p", .text t, i, v.parameters.length⟩)
      (Template.unlessAt ["loop", "last"] [.text ", "]) =
        .ok (if i + 1 = v.parameters.length then "" else ", ") := by
    rw [Piece.render_unlessAt (v := .flag (i + 1 = v.parameters.length)) rfl]
    by_cases hlast : i + 1 = v.parameters.length <;> simp [hlast, Value.isEmpty]
  simp only [Template.render, Piece.render.eq_1, Piece.render_item (by decide : "p" ≠ "loop"),
    hseparator, bind, Except.bind, pure, Except.pure, String.append_assoc, String.append_empty]

/-- The lines that are made of every parameter and its position. -/
theorem render_perParameter {line : List Piece} {f : ℕ → String → String}
    (hline : ∀ i t, Template.render
      ((v.scope count).enter ⟨"p", .text t, i, v.parameters.length⟩) line = .ok (f i t)) :
    Piece.render (v.scope count) (Template.perParameter line) =
      .ok (String.join (v.parameters.mapIdx f)) :=
  Piece.render_forEachAt (v.find_parameters count) hline

theorem emit_classDeclaration :
    v.emit Template.classDeclaration count = .ok v.declaration.text := by
  unfold ClassDeclaration.text
  simp only [emit_eq, Template.classDeclaration, Template.render, Piece.render.eq_1, render_name,
    render_arguments, bind, Except.bind, pure, Except.pure, declaration, String.append_assoc,
    String.append_empty]

theorem emit_factoryBranch : v.emit Template.factoryBranch count = .ok v.branch.text := by
  have helse : Piece.render (v.scope count) (Template.unlessAt ["loop", "first"] [.text "else "]) =
      .ok (if v.branch.alternative then "else " else "") := by
    rw [Piece.render_unlessAt (v := .flag (v.index = 0)) rfl]
    by_cases hfirst : v.index = 0 <;> simp [hfirst, branch, Value.isEmpty]
  simp only [emit_eq, Template.factoryBranch, Template.render, Piece.render.eq_1, render_name,
    helse, bind, Except.bind, pure, Except.pure, FactoryBranch.text, branch, String.append_assoc,
    String.append_empty]

theorem emit_parameterConstructor :
    v.emit Template.parameterConstructor count = .ok v.definition.constructorText := by
  have hlines : Piece.render (v.scope count)
      (Template.perParameter [.text "    AddDOF(", Template.valueAt ["p"], .text ");\n"]) =
        .ok (String.join (v.parameters.mapIdx fun _ p => "    AddDOF(" ++ p ++ ");\n")) := by
    refine v.render_perParameter count fun i t => ?_
    simp only [Template.render, Piece.render.eq_1, Piece.render_item (by decide : "p" ≠ "loop"),
      bind, Except.bind, pure, Except.pure, String.append_assoc, String.append_empty]
  have hmap : (v.parameters.mapIdx fun _ p => "    AddDOF(" ++ p ++ ");\n") =
      v.parameters.map fun p => "    AddDOF(" ++ p ++ ");\n" :=
    List.ext_getElem (by simp) (by simp)
  rw [hmap] at hlines
  unfold ClassDefinition.constructorText
  simp only [emit_eq, Template.parameterConstructor, Template.render, Piece.render.eq_1,
    render_name, render_arguments, hlines, bind, Except.bind, pure, Except.pure, definition,
    String.append_assoc, String.append_empty]

theorem emit_listConstructor :
    v.emit Template.listConstructor count = .ok v.definition.listConstructorText := by
  unfold ClassDefinition.listConstructorText
  simp only [emit_eq, Template.listConstructor, Template.render, Piece.render.eq_1, render_name,
    render_length, bind, Except.bind, pure, Except.pure, definition, String.append_assoc,
    String.append_empty]

theorem emit_valueMethod :
    v.emit Template.valueMethod count = .ok v.definition.valueText := by
  have hlines : Piece.render (v.scope count) (Template.perParameter
      [.text "    double ", Template.valueAt ["p"], .text " = GetDOF(",
        Template.valueAt ["loop", "index0"], .text ")->GetValue();\n"]) =
        .ok (String.join (v.parameters.mapIdx fun i p =>
          "    double " ++ p ++ " = GetDOF(" ++ toString i ++ ")->GetValue();\n")) := by
    refine v.render_perParameter count fun i t => ?_
    simp only [Template.render, Piece.render.eq_1, Piece.render_item (by decide : "p" ≠ "loop"),
      Piece.render_index0, bind, Except.bind, pure, Except.pure, String.append_assoc,
      String.append_empty]
  unfold ClassDefinition.valueText
  simp only [emit_eq, Template.valueMethod, Template.render, Piece.render.eq_1, render_name,
    render_expression, hlines, bind, Except.bind, pure, Except.pure, definition,
    String.append_assoc, String.append_empty]

/-- Every parameter is bound to the entry at its position. -/
theorem render_bindings :
    Piece.render (v.scope count) (Template.perParameter Template.bindParameter) =
      .ok (String.join (v.parameters.zipIdx.map ClassDefinition.bindingText)) := by
  have hmap : v.parameters.zipIdx.map ClassDefinition.bindingText =
      v.parameters.mapIdx fun i p => ClassDefinition.bindingText (p, i) := by
    rw [List.mapIdx_eq_zipIdx_map]
  rw [hmap]
  refine v.render_perParameter count fun i t => ?_
  simp only [Template.bindParameter, Template.render, Piece.render.eq_1,
    Piece.render_item (by decide : "p" ≠ "loop"), Piece.render_index0, ClassDefinition.bindingText,
    bind, Except.bind, pure, Except.pure, String.append_assoc, String.append_empty]

theorem emit_valueAtMethod :
    v.emit Template.valueAtMethod count = .ok v.definition.valueSelfText := by
  unfold ClassDefinition.valueSelfText
  simp only [emit_eq, Template.valueAtMethod, Template.render, Piece.render.eq_1, render_name,
    render_expression, render_bindings, bind, Except.bind, pure, Except.pure, definition,
    String.append_assoc, String.append_empty]

theorem emit_gradientMethod :
    v.emit Template.gradientMethod count = .ok v.definition.gradientText := by
  have hlines : Piece.render (v.scope count)
      (Template.forEachAt "partial" ["equation", "gradient"]
        [.text "    result(", Template.valueAt ["loop", "index0"], .text ",0) = ",
          Template.valueAt ["partial"], .text ";\n"]) =
        .ok (String.join (v.gradient.mapIdx fun i t => ClassDefinition.assignmentText (i, t))) := by
    refine Piece.render_forEachAt rfl fun i t => ?_
    simp only [Template.render, Piece.render.eq_1,
      Piece.render_item (by decide : "partial" ≠ "loop"), Piece.render_index0,
      ClassDefinition.assignmentText, bind, Except.bind, pure, Except.pure, String.append_assoc,
      String.append_empty]
  have hmap : v.definition.assigned.map ClassDefinition.assignmentText =
      v.gradient.mapIdx fun i t => ClassDefinition.assignmentText (i, t) :=
    List.ext_getElem (by simp [definition]) (by simp [definition])
  rw [← hmap] at hlines
  unfold ClassDefinition.gradientText
  simp only [emit_eq, Template.gradientMethod, Template.render, Piece.render.eq_1, render_name,
    render_bindings, hlines, bind, Except.bind, pure, Except.pure, String.append_assoc,
    String.append_empty]
  rfl

theorem emit_classDefinition :
    v.emit Template.classDefinition count = .ok v.definition.text := by
  have h := Template.render_append (v.emit_parameterConstructor count) (v.emit_listConstructor count)
  have h := Template.render_append h (v.emit_valueMethod count)
  have h := Template.render_append h (v.emit_valueAtMethod count)
  exact Template.render_append h (v.emit_gradientMethod count)

end EquationView

section
variable (o : RenderOptions) {views : List EquationView}
  (hindex : ∀ i (hi : i < views.length), views[i].index = i)
include hindex

/-- A loop over numbered equations gives the text of its part for each of them. -/
theorem render_forEachEquation {part : List Piece}
    (hpart : Template.fits Template.equationContext part = true) {f : EquationView → String}
    (hemit : ∀ v : EquationView, v.emit part views.length = .ok (f v)) :
    Piece.render (o.scope views) (Template.forEachAt "equation" ["equations"] part) =
      .ok (String.join (views.map f)) := by
  obtain ⟨texts, htexts, hrender⟩ := render_equations o hindex hpart
  have hall : views.mapM (EquationView.emit part views.length) = .ok (views.map f) :=
    mapM_eq_ok_iff.mpr (List.forall₂_map_right_iff.mpr
      (List.forall₂_same.mpr fun v _ => hemit v))
  obtain rfl := Except.ok.inj (htexts.symm.trans hall)
  exact hrender

theorem render_declarations :
    Template.render (o.scope views) Template.declarations =
      .ok (headerText o (views.map EquationView.declaration)) := by
  have hfits : Template.fits Template.equationContext Template.classDeclaration = true := by decide
  have hclasses := render_forEachEquation o hindex hfits fun v => v.emit_classDeclaration _
  have hguard : Piece.render (o.scope views) (Template.valueAt ["header_guard"]) =
      .ok o.headerGuard := Piece.render_valueAt (v := .text o.headerGuard) rfl
  have hsource : Piece.render (o.scope views) (Template.valueAt ["source_file"]) =
      .ok o.sourceFile := Piece.render_valueAt (v := .text o.sourceFile) rfl
  unfold headerText
  simp only [Template.declarations, Template.render, Piece.render.eq_1, hclasses, hguard, hsource,
    bind, Except.bind, pure, Except.pure, List.map_map, Function.comp_def, String.append_assoc,
    String.append_empty]

theorem render_definitions :
    Template.render (o.scope views) Template.definitions =
      .ok (sourceText o (views.map EquationView.branch) (views.map EquationView.definition)) := by
  have hbranch : Template.fits Template.equationContext Template.factoryBranch = true := by decide
  have hclass : Template.fits Template.equationContext Template.classDefinition = true := by decide
  have hbranches := render_forEachEquation o hindex hbranch fun v => v.emit_factoryBranch _
  have hclasses := render_forEachEquation o hindex hclass fun v => v.emit_classDefinition _
  have hsource : Piece.render (o.scope views) (Template.valueAt ["source_file"]) =
      .ok o.sourceFile := Piece.render_valueAt (v := .text o.sourceFile) rfl
  have hheader : Piece.render (o.scope views) (Template.valueAt ["declarations_file"]) =
      .ok o.declarationsFile := Piece.render_valueAt (v := .text o.declarationsFile) rfl
  have helse : Piece.render (o.scope views)
      (Template.whenAt ["equations"] [.text "else\n        "]) =
        .ok (if (views.map EquationView.branch).isEmpty then "" else "else\n        ") := by
    rw [Piece.render_whenAt (v := .list (views.map EquationView.toValue)) rfl]
    cases views <;> rfl
  unfold sourceText
  simp only [Template.definitions, Template.render, Piece.render.eq_1, hbranches, hclasses, hsource,
    hheader, helse, bind, Except.bind, pure, Except.pure, List.map_map, Function.comp_def,
    String.append_assoc, String.append_empty]

end

variable {α : Type} [Numeral α]

namespace EquationView

theorem ofEquation_eq_ok {index : ℕ} {e : Equation α} {v : EquationView}
    (h : ofEquation index e = .ok v) :
    e.expression.nonFinite? = none ∧ (∀ d ∈ e.gradient, d.nonFinite? = none) ∧ v = e.view index := by
  cases hfinite : e.expression.nonFinite? with
  | some x =>
    obtain ⟨cause, htext⟩ : ∃ cause, cppText e.name e.expression = .error cause :=
      (cppText_of_nonFinite hfinite).imp fun _ h => h.2
    rw [ofEquation, htext] at h
    cases h
  | none =>
    obtain ⟨hgradient, hview⟩ | ⟨d, -, cause, -, hview⟩ := ofEquation_of_finite index hfinite
    · exact ⟨rfl, hgradient, Except.ok.inj (h.symm.trans hview)⟩
    · rw [h] at hview
      cases hview

/-- Equations that have views are finite, and so are their derivatives. -/
theorem ofEquations_eq_ok {index : ℕ} {es : List (Equation α)} {views : List EquationView}
    (h : ofEquations index es = .ok views) :
    (∀ e ∈ es, e.expression.nonFinite? = none) ∧
      (∀ e ∈ es, ∀ d ∈ e.gradient, d.nonFinite? = none) ∧
      views = es.mapIdx fun i e => e.view (index + i) := by
  have hexpressions : ∀ e ∈ es, e.expression.nonFinite? = none := by
    induction es generalizing index views with
    | nil => nofun
    | cons e es ih =>
      obtain ⟨v, hv, hrest⟩ := Formula.bind_eq_ok.mp h
      obtain ⟨vs, hvs, -⟩ := Formula.bind_eq_ok.mp hrest
      exact List.forall_mem_cons.mpr ⟨(ofEquation_eq_ok hv).1, ih hvs⟩
  obtain ⟨hgradients, hviews⟩ | ⟨e, -, d, -, cause, -, hviews⟩ :=
    ofEquations_of_finite index hexpressions
  · exact ⟨hexpressions, hgradients, Except.ok.inj (h.symm.trans hviews)⟩
  · rw [h] at hviews
    cases hviews

end EquationView

/-- Of every list of equations that is rendered, the header declares and the source file defines one
class for each, in order and with the same parameters, and the factory has one branch for it. The
gradient binds every parameter and then assigns each of its entries once, namely the text of the
derivative by that parameter. -/
theorem Artifacts.classes_agree (options : RenderOptions) (es : List (Equation α)) (a : Artifacts)
    (h : render {} options es = .ok a) :
    ∃ (declared : List ClassDeclaration) (branches : List FactoryBranch)
        (defined : List ClassDefinition),
      a.declarations = headerText options declared ∧
      a.definitions = sourceText options branches defined ∧
      declared.length = es.length ∧ branches.length = es.length ∧ defined.length = es.length ∧
      ∀ (k : ℕ) (e : Equation α), es[k]? = some e →
        declared[k]? = some ⟨e.name, e.parameters⟩ ∧ branches[k]? = some ⟨k ≠ 0, e.name⟩ ∧
        ∃ c : ClassDefinition, defined[k]? = some c ∧ c.name = e.name ∧
          c.parameters = e.parameters ∧ e.expression.toCpp = .ok c.value ∧
          c.bound = e.parameters.zipIdx ∧
          c.assigned.map Prod.fst = List.range e.parameters.length ∧
          ∀ (i : ℕ) (p : String), e.parameters[i]? = some p → ∃ text,
            (e.expression.derivative p).toCpp = .ok text ∧ c.assigned[i]? = some (i, text) := by
  obtain ⟨views, hviews, hrest⟩ := Formula.bind_eq_ok.mp h
  obtain ⟨hexpressions, hgradients, rfl⟩ := EquationView.ofEquations_eq_ok hviews
  have hindex : ∀ i (hi : i < (es.mapIdx fun i (e : Equation α) => e.view (0 + i)).length),
      (es.mapIdx fun i (e : Equation α) => e.view (0 + i))[i].index = i := by
    simp [Equation.view]
  dsimp only at hrest
  rw [render_declarations options hindex, render_definitions options hindex] at hrest
  cases hrest
  refine ⟨_, _, _, rfl, rfl, by simp, by simp, by simp, fun k e he => ?_⟩
  have hmem : e ∈ es := List.mem_of_getElem? he
  refine ⟨?_, ?_, (e.view k).definition, ?_, rfl, rfl, ?_, rfl, ?_, fun i p hp => ?_⟩
  · simp [he, EquationView.declaration, Equation.view]
  · simp [he, EquationView.branch, Equation.view]
  · simp [he]
  · rw [Expr.toCpp, hexpressions e hmem]
    rfl
  · simp only [EquationView.definition, Equation.view, Equation.gradient]
    exact List.ext_getElem (by simp) (by simp)
  · have hd : e.expression.derivative p ∈ e.gradient :=
      List.mem_map_of_mem (List.mem_of_getElem? hp)
    refine ⟨((e.expression.derivative p).print .cpp).text, ?_, ?_⟩
    · rw [Expr.toCpp, hgradients e hmem _ hd]
    · simp [EquationView.definition, Equation.view, Equation.gradient, Expr.gradient, hp]

/-- Two equations, of which the second has its own branch and class. -/
theorem Artifacts.classes_agree_pair :
    ∃ (es : List (Equation Float)) (a : Artifacts) (declared : List ClassDeclaration)
        (branches : List FactoryBranch) (defined : List ClassDefinition),
      render {} ⟨"in", "out.h", "H"⟩ es = .ok a ∧
      a.declarations = headerText ⟨"in", "out.h", "H"⟩ declared ∧
      a.definitions = sourceText ⟨"in", "out.h", "H"⟩ branches defined ∧
      declared.length = 2 ∧ branches.length = 2 ∧ defined.length = 2 ∧
      declared[1]? = some ⟨"g", ["a", "b"]⟩ ∧ branches[1]? = some ⟨true, "g"⟩ ∧
      ∃ c : ClassDefinition, defined[1]? = some c ∧ c.parameters = ["a", "b"] ∧
        c.bound = [("a", 0), ("b", 1)] ∧ c.assigned.map Prod.fst = [0, 1] := by
  let es : List (Equation Float) := (Report.ofEntries (Entry.ofLines 1
    (Text.lines "f(x) = x\ng(a, b) = a*b".toList))).equations
  have hfinite : ∀ e ∈ es, e.expression.nonFinite? = none := by decide +kernel
  have hgradients : (es.all fun e => e.gradient.all fun d => d.nonFinite?.isNone) = true := by
    decide +kernel
  have hlength : es.length = 2 := by decide +kernel
  have hsecond : (es[1]?.map fun e => (e.name, e.parameters)) = some ("g", ["a", "b"]) := by
    decide +kernel
  obtain ⟨e, he, heq⟩ := Option.map_eq_some_iff.mp hsecond
  obtain ⟨hname, hparameters⟩ := Prod.mk.inj heq
  obtain ⟨-, a, hrender, -⟩ | ⟨e, he, d, hd, cause, ⟨x, hx, -⟩, -⟩ :=
    render_of_finite ⟨"in", "out.h", "H"⟩ hfinite
  · obtain ⟨declared, branches, defined, hheader, hsource, hdeclared, hbranches, hdefined, h⟩ :=
      classes_agree ⟨"in", "out.h", "H"⟩ es a hrender
    obtain ⟨hclass, hbranch, c, hc, -, hconstructor, -, hbound, hassigned, -⟩ := h 1 e he
    rw [hname, hparameters] at hclass
    rw [hname] at hbranch
    rw [hparameters] at hconstructor hbound hassigned
    exact ⟨es, a, declared, branches, defined, hrender, hheader, hsource, hdeclared.trans hlength,
      hbranches.trans hlength, hdefined.trans hlength, hclass, hbranch, c, hc, hconstructor, hbound,
      hassigned⟩
  · have hnone := List.all_eq_true.mp (List.all_eq_true.mp hgradients e he) d hd
    rw [hx] at hnone
    cases hnone

end EquationCompiler
