import LanguageClient.Host.Machine
/-
  LanguageClient.Host.Standard — a host with its usual tools.

  The tools stand in `/usr/bin`, which `/bin` leads to, and the usual devices in `/dev`. They
  belong to nobody who works on the host. What else is on it is planted below a directory
  that its user owns.
-/

namespace LanguageClient.Host

namespace Tree

def tools : List (String × Tool) := [("sh", .shell), ("cat", .cat), ("sleep", .sleep), ("rm", .remove)]

def devices : List (String × Device) :=
  [("null", .null), ("zero", .zero), ("full", .full), ("tty", .terminal), ("stdin", .descriptor 0),
    ("stdout", .descriptor 1), ("stderr", .descriptor 2)]

def binaries : Place := [text "usr", text "bin"]

def devicesPlace : Place := [text "dev"]

/-- The directory of the descriptors of the process that looks. -/
def descriptorsPlace : Place := devicesPlace ++ [text "fd"]

def directories : List Place :=
  [binaries, descriptorsPlace, [text "etc"], [text "home"], [text "opt"], [text "usr", text "lib"],
    [text "usr", text "local", text "bin"], [text "usr", text "sbin"], [text "var", text "tmp"]]

def links : List (String × String) := [("bin", "usr/bin"), ("lib", "usr/lib"), ("sbin", "usr/sbin")]

def furniture : List (Place × Node) :=
  tools.map (fun (name, tool) => (binaries ++ [text name], Node.file ⟨true, false, true⟩ (.tool tool))) ++
    devices.map (fun (name, device) => (devicesPlace ++ [text name], Node.device device)) ++
    (List.range 10).map (fun fd => (descriptorsPlace ++ [Bytes.decimal fd], Node.device (.descriptor fd))) ++
    links.map (fun (name, target) => ([text name], Node.link (text target)))

def standard : Tree :=
  let bare : Tree := directories.foldl (fun t place => t.makeDirectory false place) {}
  let furnished : Tree := furniture.foldl (fun t (place, n) => t.put place n) bare
  furnished.makeDirectory true [text "tmp"]

def enterOrMake (t : Tree) (here : Place) (name : Bytes) : Tree × Place :=
  match t.walk true maxLinks here [name] with
  | .ok place => (t, place)
  | .error _ => (t.put (here ++ [name]) (.directory true), here ++ [name])

def makeDirectories (t : Tree) (here : Place) (names : List Bytes) : Tree × Place :=
  names.foldl (fun (t, here) name => t.enterOrMake here name) (t, here)

/-- Plant a node at a relative path below a directory. A file is written through links. -/
def plant (t : Tree) (base : Place) (path : Bytes) (n : Node) : Tree :=
  let names := Path.names path
  match n, names.getLast? with
  | .directory _, _ => (t.makeDirectories base names).1
  | _, none => t
  | .link _, some name =>
    let (t, here) := t.makeDirectories base names.dropLast
    t.put (here ++ [name]) n
  | _, some name =>
    let (t, here) := t.makeDirectories base names.dropLast
    match Machine.placeFor ⟨t, here⟩ maxLinks name with
    | .ok place => t.put place n
    | .error _ => t

end Tree

namespace Machine

/-- A machine with the usual tools that the client uses from a directory of its user. No entry
of an environment goes on after a NUL. -/
def standard (here : Place) (environment : List Bytes) : Machine :=
  { tree := Tree.standard.makeDirectory true here, here := here, environment := environment.map Bytes.beforeNul }

def plant (m : Machine) (path : Bytes) (n : Node) : Machine := { m with tree := m.tree.plant m.here path n }

end Machine

end LanguageClient.Host
