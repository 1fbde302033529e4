import EquationCompiler.Template.Builtin
import EquationCompiler.Template.Reader

/-!
# Template engines

Both templates are read together, before anything is rendered, and then each is
rendered in the same scope. What the texts of templates mean is up to an engine.
All that is known of it is that both steps depend on nothing but what they are
given, and what the built-in templates render to. Templates that ask for the time,
for random numbers or for the environment are left out.
-/
namespace EquationCompiler

/-- What a template gives in a scope. -/
abbrev Renderer := Scope → Except TemplateFault String

/-- The template of the header and that of the source file, ready to be rendered. -/
structure Templates where
  declarations : Renderer := fun scope => Template.render scope Template.declarations
  definitions : Renderer := fun scope => Template.render scope Template.definitions

class TemplateEngine where
  /-- Templates from their texts. A built-in template stands in the place of a text that is
  missing. -/
  read : (declarations definitions : Option String) → Except TemplateFault Templates
  read_builtin : read none none = .ok {}

/-- The template that a text is read as, or the built-in one. -/
def Template.ofOptional (builtin : Template) : Option String → Except TemplateFault Template
  | none => .ok builtin
  | some text => ofText text

/-- Templates in the language that the built-in ones are written in. -/
def Templates.interpret (declarations definitions : Option String) :
    Except TemplateFault Templates := do
  let declarations ← Template.ofOptional Template.declarations declarations
  let definitions ← Template.ofOptional Template.definitions definitions
  return {
    declarations := fun scope => Template.render scope declarations
    definitions := fun scope => Template.render scope definitions }

instance : TemplateEngine where
  read := Templates.interpret
  read_builtin := rfl

end EquationCompiler
