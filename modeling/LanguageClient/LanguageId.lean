import LanguageClient.Path
/-
  LanguageClient.LanguageId — the name of the language a file is written in.

  The extension decides, with or without its dot; an extension that is not known names its
  language itself. Compose files are known by their whole name, and a file without an
  extension is known by its name in small letters.
-/

namespace LanguageClient.LanguageId

def composeFiles : List Bytes :=
  [text "docker-compose.yml", text "docker-compose.yaml", text "compose.yml", text "compose.yaml"]

def compose : Bytes := text "docker-compose"

def table : List (Bytes × Bytes) :=
  [("ts", "typescript"), ("tsx", "typescriptreact"), ("js", "javascript"), ("jsx", "javascriptreact"),
    ("mjs", "javascript"), ("cjs", "javascript"), ("py", "python"), ("pyi", "python"), ("rs", "rust"), ("go", "go"),
    ("c", "c"), ("h", "c"), ("cpp", "cpp"), ("cc", "cpp"), ("cxx", "cpp"), ("hpp", "cpp"), ("hxx", "cpp"),
    ("json", "json"), ("jsonc", "jsonc"), ("html", "html"), ("htm", "html"), ("css", "css"), ("scss", "scss"),
    ("less", "less"), ("yaml", "yaml"), ("yml", "yaml"), ("sh", "shellscript"), ("bash", "shellscript"),
    ("zsh", "shellscript"), ("lua", "lua"), ("md", "markdown"), ("markdown", "markdown"), ("mdx", "markdown"),
    ("toml", "toml"), ("xml", "xml"), ("sql", "sql"), ("java", "java"), ("kt", "kotlin"), ("swift", "swift"),
    ("rb", "ruby"), ("php", "php"), ("graphql", "graphql"), ("gql", "graphql"), ("dockerfile", "dockerfile")].map
    (fun (extension, language) => (text extension, text language))

/-- The language of an extension, which may have its dot or be a whole file name. -/
def ofExtension (extension : Bytes) : Bytes :=
  let e := Path.dropDot extension
  if composeFiles.contains e then compose else (table.lookup e).getD e

def ofFile (path : Bytes) : Bytes :=
  let name := Path.filename path
  if ofExtension name = compose then compose
  else if Path.extension path = [] then ofExtension (Bytes.lower name)
  else ofExtension (Path.extension path)

end LanguageClient.LanguageId
