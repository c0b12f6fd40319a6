import LanguageClient.Client.Handshake
/-
  LanguageClient.Cli.Help — what the command line says about itself.
-/

namespace LanguageClient.Cli

open Client (version)

def usage : Bytes :=
  text ("\nnanolsp - Language Server Protocol client v" ++ version ++ "\n"
    ++ "\n"
    ++ "Usage: nanolsp <command> [options]\n"
    ++ "\n"
    ++ "Commands:\n"
    ++ "  diagnostics <file>              Print diagnostics for a file\n"
    ++ "      --wait-ms <n>               How long to wait for pushed diagnostics [default: 3000]\n"
    ++ "\n"
    ++ "  complete <file> <line> <char>   Print completions at a 0-based position\n"
    ++ "\n"
    ++ "  format <file>                   Print formatting edits\n"
    ++ "      --tab-size <n>              Indentation width [default: 2]\n"
    ++ "      --use-tabs                  Indent with tabs instead of spaces\n"
    ++ "\n"
    ++ "  servers                         List known language servers and their availability\n"
    ++ "  version                         Show version information\n"
    ++ "  help                            Show this help message\n"
    ++ "\n"
    ++ "Common options:\n"
    ++ "  --config <file>                 Server list (agents.config.json); searched upward from\n"
    ++ "                                  the current directory when omitted, else auto-discovered\n"
    ++ "  --server <name>                 Use this server instead of matching by file extension\n"
    ++ "  --log-level <level>             debug|info|warn|error|off [default: warn, or $NANOLSP_LOG_LEVEL]\n"
    ++ "\n"
    ++ "Examples:\n"
    ++ "  nanolsp diagnostics src/main.ts\n"
    ++ "  nanolsp complete src/main.ts 10 4\n"
    ++ "  nanolsp format main.go --tab-size 4 --use-tabs\n")

def versionText : Bytes := text ("nanolsp version " ++ version ++ "\nLanguage Server Protocol client\n")

end LanguageClient.Cli
