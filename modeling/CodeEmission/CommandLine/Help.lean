import CodeEmission.CommandLine.Arguments

/-! # Help texts -/

namespace CodeEmission.CommandLine

def lines (ls : List String) : String := String.join (ls.map (· ++ "\n"))

namespace Topic

def usage : Topic → String
  | .program => "Usage: kiln <COMMAND>"
  | .init => "Usage: kiln init [DIR]"
  | .emit => "Usage: kiln emit [OPTIONS] <BATCH>"
  | .help => "Usage: kiln help [COMMAND]..."

def text : Topic → String
  | .program =>
    lines
      ["Streaming JIT emitter with deferred relocation", "", usage .program, "", "Commands:",
        "  init  Write a sample batch and config",
        "  emit  Emit a batch, resolve its relocations and print the result",
        "  help  Print this message or the help of the given subcommand(s)", "", "Options:",
        "  -h, --help  Print help"]
  | .init =>
    lines
      ["Write a sample batch and config", "", usage .init, "", "Arguments:",
        "  [DIR]  Target directory (defaults to the current directory)", "", "Options:",
        "  -h, --help  Print help"]
  | .emit =>
    lines
      ["Emit a batch, resolve its relocations and print the result", "", usage .emit, "",
        "Arguments:", "  <BATCH>  Batch file (.toml or .json)", "", "Options:",
        "      --config <CONFIG>              Config file (defaults to kiln.toml next to the " ++
          "batch, if present)",
        "      --trace                        Trace emission events to stderr",
        "      --initial-size <INITIAL_SIZE>  Initial buffer size in bytes",
        "      --format <FORMAT>              Output format (human, json) [possible values: " ++
          "human, json]",
        "      --abort-on-invariant           Panic on invariant violations",
        "  -h, --help                         Print help"]
  | .help =>
    lines
      ["Print this message or the help of the given subcommand(s)", "", usage .help, "",
        "Arguments:", "  [COMMAND]...  Print help for the subcommand(s)"]

end Topic

end CodeEmission.CommandLine
