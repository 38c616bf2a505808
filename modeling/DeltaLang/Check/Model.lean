import DeltaLang.Check.Extension
import DeltaLang.Check.References

/-!
# Checking a model

The checks made of a whole model before any delta is applied: modules, then the declarations and
references of each module, then interface extension.
-/

namespace DeltaLang

/-- The findings about the names and interfaces of a model. -/
def checkModel (m : Model) : Diagnostics :=
  let t := SymbolTable.ofModel m
  Check.duplicateModules m ++
    m.modules.flatMap (fun module =>
      Check.duplicateDeclarations module ++
        module.decls.flatMap (Check.references t module.name)) ++
    Check.interfaceCycles t ++
    t.interfaces.flatMap (Check.interfaceSignatures t)

end DeltaLang
