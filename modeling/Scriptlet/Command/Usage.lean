import Scriptlet.Command.Options

/-!
# Usage and help

The texts by which the command explains itself.
-/

namespace Scriptlet.Command

def usage : String :=
  "usage: minirb [-h] [-v] [--lexical-scope]\n" ++
  "              [--emit-ast PROGRAM_FILE | --dump-ast PROGRAM_FILE | " ++
  "--ast AST_JSON_FILE]\n" ++
  "              [program]\n"

def help : String :=
  usage ++
  "\n" ++
  "minirb language interpreter\n" ++
  "\n" ++
  "positional arguments:\n" ++
  "  program               program file to execute (omit for an " ++
  "interactive\n" ++
  "                        session)\n" ++
  "\n" ++
  "options:\n" ++
  "  -h, --help            show this help message and exit\n" ++
  "  -v                    increase debug verbosity (can be repeated)\n" ++
  "  --lexical-scope       chain function calls to the defining " ++
  "environment\n" ++
  "  --emit-ast PROGRAM_FILE\n" ++
  "                        emit AST JSON for the given program\n" ++
  "  --dump-ast PROGRAM_FILE\n" ++
  "                        print the AST of the given program\n" ++
  "  --ast AST_JSON_FILE   execute AST from a JSON file\n"

def refusalText (error : OptionError) : String :=
  usage ++ "minirb: error: " ++ error.message ++ "\n"

end Scriptlet.Command
