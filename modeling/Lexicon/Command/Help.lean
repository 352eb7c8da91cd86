import Lexicon.Bytes

/-!
# Help

What the program prints about itself.
-/

namespace Lexicon.Command

/-- The name and version of the program. -/
def version : Bytes := Bytes.line (ascii "tokmap 0.3.0")

/-- How the program is used. -/
def usage : Bytes :=
  version ++
    ([ "",
      "Usage: tokmap <command> [options] <files...>",
      "",
      "Commands:",
      "  tokens    Print the tokens of each file, one per line",
      "  map       Replace tokens with category identifiers",
      "  strip     Print each file with literals and comments stripped",
      "",
      "Language:",
      "  --lang=<name>        Built-in language: java (default), whitespace",
      "  --lang-file=<path>   Load a language definition file",
      "",
      "Mapping (map, strip):",
      "  --keep-literals      Replace literals with identifiers instead of \"\"",
      "  --keep-comments      Replace comments with identifiers instead of removing",
      "  --table              Print the identifier tables",
      "",
      "Mapping (map):",
      "  --annotate           Print each token with its category and value",
      "  --per-file           Start numbering again for every file",
      "  --lookup=<key>       Print the value behind an identifier (e.g. :o3)",
      "",
      "Logging:",
      "  -v, -vv, -vvv        Log at info, debug, trace",
      "  -q, --quiet          Log errors only",
      "  --log-level=<level>  trace, debug, info, warn, error, off",
      "  --log-filter=<spec>  Per-module levels, e.g. scan=trace,*=warn",
      "  --log-file=<path>    Also write logs to a file",
      "  --log-format=json    Log as JSON lines",
      "",
      "Options:",
      "  --help, -h           Show this help",
      "  --version, -V        Show version"].flatMap fun l => Bytes.line (ascii l))

end Lexicon.Command
