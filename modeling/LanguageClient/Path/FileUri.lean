import LanguageClient.Path
import LanguageClient.Uri
/-
  LanguageClient.Path.FileUri — the two ways to address a file: a path and a `file://` URI.

  `toUri` names a path by the percent-coded normal form of its absolute form; `ofUri` reads
  such a name back and takes anything that is no file URI as a plain path.
-/

namespace LanguageClient.Path

def fileScheme : Bytes := text "file://"

def localHost : Bytes := text "localhost"

/-- The path a file URI names; `file://localhost/x` is `file:///x`, any other text is a path already. -/
def ofUri (uri : Bytes) : Bytes :=
  if fileScheme.isPrefixOf uri then
    let rest := uri.drop fileScheme.length
    Uri.decode (if (localHost ++ [Byte.slash]).isPrefixOf rest then rest.drop localHost.length else rest)
  else uri

def toUri (dir p : Bytes) : Bytes := fileScheme ++ Uri.encode (normal (absolute dir p))

def extensionOf (uriOrPath : Bytes) : Bytes := dropDot (extension (ofUri uriOrPath))

end LanguageClient.Path
