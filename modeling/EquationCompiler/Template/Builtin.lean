import EquationCompiler.Template.Basic

/-!
# The built-in templates

The header declares a class for each equation and the factory that makes them;
the source file defines them. Both go through the same list of equations.
-/
namespace EquationCompiler.Template

/-- The place for the value at a path. -/
def valueAt (path : ValuePath) : Piece := .value (.ofPath path)

/-- The body for each item of the list at a path. -/
def forEachAt (item : String) (path : ValuePath) (body : List Piece) : Piece :=
  .forEach item (.ofPath path) body []

/-- A part that is there if the value at a path is not empty. -/
def whenAt (path : ValuePath) (part : List Piece) : Piece := .branch (.ofPath path) part []

/-- A part that is there if the value at a path is empty. -/
def unlessAt (path : ValuePath) (part : List Piece) : Piece :=
  .branch { operand := .path path, negated := true } part []

/-- The parameters as a list of declared arguments. -/
def arguments : Piece :=
  forEachAt "p" ["equation", "parameters"]
    [.text "DOFPointer ", valueAt ["p"], unlessAt ["loop", "last"] [.text ", "]]

/-- One line for each parameter. -/
def perParameter (line : List Piece) : Piece := forEachAt "p" ["equation", "parameters"] line

/-- A line that binds a parameter to an entry of the vector of values. -/
def bindParameter : List Piece :=
  [.text "    double ", valueAt ["p"], .text " = params(", valueAt ["loop", "index0"],
    .text ",0);\n"]

def equationName : Piece := valueAt ["equation", "name"]

/-- The declaration of the class of one equation. -/
def classDeclaration : List Piece :=
  [.text "\nclass ", equationName, .text ": public SolverFunctionsBase\n\x7b\n    public:\n        ",
    equationName, .text "(", arguments, .text ");\n        ",
    equationName, .text "(std::vector<DOFPointer> dof_list);\n\n        double GetValue() const;\n        double GetValueSelf(const mmcMatrix &params) const;\n        mmcMatrix GetGradientSelf(const mmcMatrix &params) const;\n        std::string GetName() const \x7breturn \"",
    equationName, .text "\";\x7d\n\x7d;\n"]

/-- The header. -/
def declarations : Template :=
  [.text "// Generated by solver-codegen from ", valueAt ["source_file"],
    .text ". Do not edit.\n\n#ifndef ", valueAt ["header_guard"],
    .text "\n#define ", valueAt ["header_guard"],
    .text "\n\n#include <string>\n#include <vector>\n#include \"SolverFunctionsBase.h\"\n\nSolverFunctionsBasePointer SolverFunctionsFactory(std::string solver_function_name, std::vector<DOFPointer> dof_list);\n\n",
    forEachAt "equation" ["equations"] classDeclaration,
    .text "\n#endif //", valueAt ["header_guard"], .text "\n"]

/-- The branch of the factory for one equation. -/
def factoryBranch : List Piece :=
  [.text "    ", unlessAt ["loop", "first"] [.text "else "],
    .text "if(solver_function_name == \"", equationName,
    .text "\")\n        new_solver_function.reset(new ", equationName, .text "(dof_list));\n"]

/-- The constructor from separate parameters. -/
def parameterConstructor : List Piece :=
  [.text "\n", equationName, .text "::", equationName, .text "(", arguments, .text ")\n\x7b\n",
    perParameter [.text "    AddDOF(", valueAt ["p"], .text ");\n"], .text "\x7d\n\n"]

/-- The constructor from a list of parameters, which checks their number. -/
def listConstructor : List Piece :=
  [equationName, .text "::", equationName,
    .text "(std::vector<DOFPointer> dof_list)\n\x7b\n    if(dof_list.size() != ",
    .value (.lengthOf ["equation", "parameters"]),
    .text ")\n        throw SolverFunctionsException(\"The DOF vector for the constructor of SolverFunction ",
    equationName, .text " did not contain exactly ", .value (.lengthOf ["equation", "parameters"]),
    .text " DOF's\");\n\n    for(int i=0; i<dof_list.size(); i++)\n        AddDOF(dof_list[i]);\n\x7d\n\n"]

/-- The value at the current parameters. -/
def valueMethod : List Piece :=
  [.text "double ", equationName, .text "::GetValue() const\n\x7b\n",
    perParameter [.text "    double ", valueAt ["p"], .text " = GetDOF(", valueAt ["loop", "index0"],
      .text ")->GetValue();\n"],
    .text "\n    return ", valueAt ["equation", "expression"], .text ";\n\x7d\n\n"]

/-- The value at given parameters. -/
def valueAtMethod : List Piece :=
  [.text "double ", equationName,
    .text "::GetValueSelf(const mmcMatrix &params) const\n\x7b\n", perParameter bindParameter,
    .text "\n    return ", valueAt ["equation", "expression"], .text ";\n\x7d\n\n"]

/-- The gradient at given parameters. -/
def gradientMethod : List Piece :=
  [.text "mmcMatrix ", equationName,
    .text "::GetGradientSelf(const mmcMatrix &params) const\n\x7b\n    mmcMatrix result(GetNumDOFs(),1);\n\n",
    perParameter bindParameter, .text "\n",
    forEachAt "partial" ["equation", "gradient"]
      [.text "    result(", valueAt ["loop", "index0"], .text ",0) = ", valueAt ["partial"],
        .text ";\n"],
    .text "\n    return result;\n\x7d\n"]

/-- The definitions of the class of one equation. -/
def classDefinition : List Piece :=
  parameterConstructor ++ listConstructor ++ valueMethod ++ valueAtMethod ++ gradientMethod

/-- The source file. -/
def definitions : Template :=
  [.text "// Generated by solver-codegen from ", valueAt ["source_file"],
    .text ". Do not edit.\n\n#include <cmath>\n\n#include \"", valueAt ["declarations_file"],
    .text "\"\n\nusing namespace std;\n\n\nSolverFunctionsBasePointer SolverFunctionsFactory(std::string solver_function_name, std::vector<DOFPointer> dof_list)\n\x7b\n    SolverFunctionsBasePointer new_solver_function;\n\n",
    forEachAt "equation" ["equations"] factoryBranch,
    .text "    ", whenAt ["equations"] [.text "else\n        "],
    .text "throw SolverFunctionsException(\"SolverFunctionsFactory: Requested solver function name not found.\");\n\n    return new_solver_function;\n\x7d\n\n",
    forEachAt "equation" ["equations"] classDefinition,
    .text "\n"]

end EquationCompiler.Template
