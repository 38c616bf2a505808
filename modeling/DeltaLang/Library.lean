import DeltaLang.Reading.Parse

/-!
# The standard library

A unit that every program is given unless it asks not to be.
-/

namespace DeltaLang

/-- The file that locations in the standard library name. -/
def standardFile : String := "abslang.abs"

/-- The text of the standard library. -/
def standardText : String :=
    "// Standard library unit, merged into every program unless disabled.\n" ++
    "\n" ++
    "module ABS.StdLib;\n" ++
    "\n" ++
    "// Common super-interface for user interfaces.\n" ++
    "interface Object \x7b \x7d\n" ++
    "\n" ++
    "interface Printer extends Object \x7b\n" ++
    "    Unit println(String line);\n" ++
    "\x7d\n" ++
    "\n" ++
    "// Printer that discards its input.\n" ++
    "class NullPrinter implements Printer \x7b\n" ++
    "    Int printed = 0;\n" ++
    "\n" ++
    "    Unit println(String line) \x7b\n" ++
    "        this.printed = this.printed + 1;\n" ++
    "    \x7d\n" ++
    "\x7d\n"

/-- The standard library, read from its text. -/
def standardUnit : Except ParseError CompilationUnit := parseUnit (some standardFile) standardText

end DeltaLang
