import EquationCompiler.Artifacts
import EquationCompiler.Proofs.TemplateTypes

/-!
# What the built-in templates emit

Both templates fit the context of every list of equations, so they are always
rendered. In what they loop over, the text of an equation depends on this equation
and its place alone.
-/
namespace EquationCompiler

/-- What the built-in templates may ask of an equation. -/
def EquationView.type : ValueType :=
  .record [("index", .any), ("name", .any), ("parameters", .list .any), ("expression", .any),
    ("gradient", .list .any)]

theorem EquationView.has_type (v : EquationView) : v.toValue.Has type := by
  have htexts (texts : List String) : (Value.list (texts.map .text)).Has (.list .any) :=
    .list fun w _ => .any w
  exact .field rfl (.any _) <| .field rfl (.any _) <| .field rfl (htexts _) <|
    .field rfl (.any _) <| .field rfl (htexts _) <| .noField _

namespace Template

/-- What the built-in templates may ask for. -/
def builtinContext : Context where
  names := [("equations", .list EquationView.type), ("source_file", .any),
    ("declarations_file", .any), ("header_guard", .any)]

/-- What the parts for one equation may ask for. -/
def equationContext : Context := Context.enter ⟨[], false⟩ "equation" EquationView.type

theorem declarations_fits : Template.fits builtinContext declarations = true := by decide

theorem definitions_fits : Template.fits builtinContext definitions = true := by decide

end Template

theorem RenderOptions.agree (o : RenderOptions) (views : List EquationView) :
    (o.scope views).Agree Template.builtinContext (o.scope views) := by
  have hviews : (Value.list (views.map EquationView.toValue)).Has (.list EquationView.type) := by
    refine .list fun w hw => ?_
    obtain ⟨v, -, rfl⟩ := List.mem_map.mp hw
    exact v.has_type
  exact Scope.agree_self <| .field rfl hviews <| .field rfl (.any _) <| .field rfl (.any _) <|
    .field rfl (.any _) <| .noField _

/-- The text of a part for one equation out of a number of equations, without all the others. -/
def EquationView.emit (part : List Piece) (count : Nat) (v : EquationView) :
    Except TemplateFault String :=
  Template.render (({ fields := [] } : Scope).enter ⟨"equation", v.toValue, v.index, count⟩) part

/-- The texts of a part for all equations stand one after the other in an artifact. -/
def Emitted (views : List EquationView) (part : List Piece) (artifact : String) : Prop :=
  ∃ before texts after, views.mapM (EquationView.emit part views.length) = .ok texts ∧
    artifact = before ++ String.join texts ++ after

/-- A loop over numbered equations renders its part for each of them alone. -/
theorem render_equations (o : RenderOptions) {views : List EquationView}
    (hindex : ∀ i (hi : i < views.length), views[i].index = i) {part : List Piece}
    (hpart : Template.fits Template.equationContext part = true) :
    ∃ texts, views.mapM (EquationView.emit part views.length) = .ok texts ∧
      Piece.render (o.scope views) (Template.forEachAt "equation" ["equations"] part) =
        .ok (String.join texts) := by
  have hcontainer : (Query.ofPath ["equations"]).evaluate (o.scope views) =
      .ok (.list (views.map EquationView.toValue)) := by
    rw [Query.evaluate_ofPath]
    rfl
  have hrounds : List.Forall₂ (fun s v => ∃ text, Template.render s part = .ok text ∧
      EquationView.emit part views.length v = .ok text)
      ((o.scope views).loop "equation" (views.map EquationView.toValue)) views := by
    rw [List.forall₂_iff_get]
    refine ⟨by simp, fun i hs hi => ?_⟩
    have hround := (Scope.agree_empty (o.scope views) { fields := [] }).enter
      ⟨"equation", views[i].toValue, i, views.length⟩ views[i].has_type
    have hrender := Template.render_of_fits hround part hpart
    simpa [Scope.loop, EquationView.emit, hindex i hi] using hrender
  obtain ⟨texts, hloop, htexts⟩ := exists_mapM_eq_ok hrounds
  refine ⟨texts, htexts, ?_⟩
  cases views with
  | nil =>
    cases htexts
    rw [Template.forEachAt, Piece.render, hcontainer]
    rfl
  | cons v vs => exact Piece.render_forEach hcontainer hloop

theorem emitted_of_mem (o : RenderOptions) {views : List EquationView}
    (hindex : ∀ i (hi : i < views.length), views[i].index = i) {part : List Piece}
    (hpart : Template.fits Template.equationContext part = true) {template : Template}
    (htemplate : Template.fits Template.builtinContext template = true)
    (hmem : Template.forEachAt "equation" ["equations"] part ∈ template) {artifact : String}
    (hartifact : Template.render (o.scope views) template = .ok artifact) :
    Emitted views part artifact := by
  obtain ⟨texts, htexts, hloop⟩ := render_equations o hindex hpart
  obtain ⟨before, after, hrender⟩ := Template.render_of_mem (o.agree views) htemplate hmem hloop
  rw [hartifact] at hrender
  exact ⟨before, texts, after, htexts, Except.ok.inj hrender⟩

/-- Every equation is declared, can be made by name, and is defined. -/
structure Artifacts.Emits (a : Artifacts) (views : List EquationView) : Prop where
  declared : Emitted views Template.classDeclaration a.declarations
  dispatched : Emitted views Template.factoryBranch a.definitions
  defined : Emitted views Template.classDefinition a.definitions

theorem exists_render_builtin (o : RenderOptions) {views : List EquationView}
    (hindex : ∀ i (hi : i < views.length), views[i].index = i) :
    ∃ a : Artifacts, a.Emits views ∧
      Template.render (o.scope views) Template.declarations = .ok a.declarations ∧
      Template.render (o.scope views) Template.definitions = .ok a.definitions := by
  obtain ⟨declarations, hdeclarations, -⟩ :=
    Template.render_of_fits (o.agree views) Template.declarations Template.declarations_fits
  obtain ⟨definitions, hdefinitions, -⟩ :=
    Template.render_of_fits (o.agree views) Template.definitions Template.definitions_fits
  refine ⟨⟨declarations, definitions⟩, ⟨?_, ?_, ?_⟩, hdeclarations, hdefinitions⟩
  · exact emitted_of_mem o hindex (by decide) Template.declarations_fits
      (by simp [Template.declarations]) hdeclarations
  · exact emitted_of_mem o hindex (by decide) Template.definitions_fits
      (by simp [Template.definitions]) hdefinitions
  · exact emitted_of_mem o hindex (by decide) Template.definitions_fits
      (by simp [Template.definitions]) hdefinitions

end EquationCompiler
