import LanguageClient.ServerConfig
import LanguageClient.Path
/-
  LanguageClient.Catalog — the usual language servers.

  A known server is described by how it is run, which files it serves, how to check that it
  works and how to install it. The table is in the order of preference: of two servers for
  one language the earlier one is taken.
-/

namespace LanguageClient

inductive Verification where
  /-- Its check command has to succeed. -/
  | version
  /-- It has to start. -/
  | lsp
  | none
  /-- A number that none of the ways above has; such a server never passes. -/
  | other (code : Int)
  deriving DecidableEq, Repr

namespace Verification

def code : Verification → Int
  | version => 0
  | lsp => 1
  | none => 2
  | other n => n

def ofCode (n : Int) : Verification :=
  if n = 0 then version else if n = 1 then lsp else if n = 2 then none else other n

end Verification

structure KnownServer where
  name : Bytes
  command : Bytes
  args : List Bytes := []
  /-- The extensions it serves, without their dots. -/
  languages : List Bytes := []
  /-- The command line that checks it; its first word stands for the command itself. -/
  checkCommand : Bytes := []
  verification : Verification
  installHint : Bytes := []
  deriving DecidableEq, Repr

namespace KnownServer

def serves (s : KnownServer) (extension : Bytes) : Bool := s.languages.contains extension

def configured (s : KnownServer) (command : Bytes) : ServerConfig :=
  { name := s.name, command := command, args := s.args, languages := s.languages }

end KnownServer

namespace Catalog

/-- A row of the table; the check command is the command with `check` after it. -/
def row (name command : String) (args languages : List String) (check : String) (v : Verification) (hint : String) :
    KnownServer :=
  { name := text name
    command := text command
    args := args.map text
    languages := languages.map text
    checkCommand := text command ++ Byte.space :: text check
    verification := v
    installHint := text hint }

def known : List KnownServer :=
  [ row "typescript-language-server" "typescript-language-server" ["--stdio"] ["ts", "tsx", "js", "jsx", "mjs", "cjs"]
      "--version" .version
      "npm install -g typescript-language-server typescript",
    row "deno" "deno" ["lsp"] ["ts", "tsx", "js", "jsx", "mjs", "cjs"]
      "--version" .version
      "Install Deno from https://deno.com/",
    row "pyright" "pyright-langserver" ["--stdio"] ["py", "pyi"]
      "--version" .lsp
      "npm install -g pyright",
    row "pylsp" "pylsp" [] ["py", "pyi"]
      "--version" .version
      "pip install python-lsp-server",
    row "rust-analyzer" "rust-analyzer" [] ["rs"]
      "--version" .version
      "rustup component add rust-analyzer",
    row "gopls" "gopls" ["serve"] ["go"]
      "version" .version
      "go install golang.org/x/tools/gopls@latest",
    row "clangd" "clangd" ["--background-index"] ["c", "cpp", "cc", "cxx", "h", "hpp", "hxx"]
      "--version" .version
      "Install via system package manager (apt, brew, etc.)",
    row "vscode-json-languageserver" "vscode-json-language-server" ["--stdio"] ["json", "jsonc"]
      "--version" .lsp
      "npm install -g vscode-langservers-extracted",
    row "vscode-html-languageserver" "vscode-html-language-server" ["--stdio"] ["html", "htm"]
      "--version" .lsp
      "npm install -g vscode-langservers-extracted",
    row "vscode-css-languageserver" "vscode-css-language-server" ["--stdio"] ["css", "scss", "less"]
      "--version" .lsp
      "npm install -g vscode-langservers-extracted",
    row "yaml-language-server" "yaml-language-server" ["--stdio"] ["yaml", "yml"]
      "--version" .lsp
      "npm install -g yaml-language-server",
    row "bash-language-server" "bash-language-server" ["start"] ["sh", "bash", "zsh"]
      "--version" .version
      "npm install -g bash-language-server",
    row "lua-language-server" "lua-language-server" [] ["lua"]
      "--version" .version
      "Install from https://github.com/LuaLS/lua-language-server",
    row "vscode-markdown-language-server" "vscode-mdx-language-server" ["--stdio"] ["md", "markdown", "mdx"]
      "--version" .lsp
      "npm install -g @microsoft/vscode-mdx-language-server or vscode-langservers-extracted",
    row "marksman" "marksman" ["server"] ["md", "markdown"]
      "--version" .version
      "npm install -g marksman or download from https://github.com/artempyanykh/marksman/releases",
    row "graphql-lsp-server" "graphql-lsp" ["server", "-s"] ["graphql", "gql"]
      "--version" .version
      "npm install -g @graphql-tools/lsp-server",
    row "graphql-language-server-cli" "graphql-lsp" ["server", "--stdio"] ["graphql", "gql"]
      "--version" .version
      "npm install -g graphql-language-service-cli",
    row "docker-language" "docker-langserver" ["--stdio"] ["dockerfile"]
      "--version" .version
      "npm install -g docker-langserver or https://github.com/rcjsuen/dockerfile-language-server-nodejs",
    row "docker-compose-language" "yaml-language-server" ["--stdio"] ["yaml", "yml", "docker-compose"]
      "--version" .version
      "npm install -g yaml-language-server" ]

def denoName : Bytes := text "deno"

/-- The known servers in the order in which they are tried; in a Deno project Deno comes first. -/
def ordered (denoProject : Bool) : List KnownServer :=
  if denoProject then known.filter (·.name == denoName) ++ known.filter (·.name != denoName) else known

def indexFor? (servers : List ServerConfig) (extension : Bytes) : Option Nat :=
  servers.findIdx? (·.serves (Path.dropDot extension))

/-- The first server that serves an extension, which may have its dot. -/
def serverFor? (servers : List ServerConfig) (extension : Bytes) : Option ServerConfig :=
  servers.find? (·.serves (Path.dropDot extension))

end Catalog

end LanguageClient
