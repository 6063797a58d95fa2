import IncludeTrace.Command.Usage

/-!
# What is printed instead of a run

The help, the version, or a message with a hint at the help.
-/

namespace IncludeTrace

namespace Usage

/-- How the program is called. -/
def synopsis : Text := "Usage: includesleuth [OPTIONS] <FILE>\n".toList

/-- The help. -/
def helpText : Text :=
  ("Trace #include directives through C/C++ sources.\n\n"
    ++ "Prints every file as it is processed, every include found in it, and when it is closed, "
    ++ "in depth-first include order. Only quoted includes are followed; they are resolved next "
    ++ "to the including file.\n\n").toList
    ++ synopsis
    ++ ("\nArguments:\n"
    ++ "  <FILE>  Root source file to trace\n\n"
    ++ "Options:\n"
    ++ "  -f, --format <FORMAT>  Output format for the trace stream [default: text] "
    ++ "[possible values: text, json, csv]\n"
    ++ "      --max-depth <N>    Do not follow quoted includes deeper than this many levels below "
    ++ "the root\n"
    ++ "      --summary          Print run totals to stderr after the trace\n"
    ++ "  -v, --verbose...       Verbosity level for diagnostic logging (-v, -vv, -vvv)\n"
    ++ "  -h, --help             Print help\n"
    ++ "  -V, --version          Print version\n").toList

/-- What is printed for a command line that does not lead to a run. -/
def output (u : Usage) : Text :=
  match u with
  | .help => helpText
  | .version => programVersion ++ ['\n']
  | _ =>
      u.message ++ "\n\n".toList ++ synopsis
        ++ "\nFor more information, try '--help'.\n".toList

end Usage

end IncludeTrace
