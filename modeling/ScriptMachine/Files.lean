/-!
# ScriptMachine.Files — source files and their paths

The machine sees files only through `Files.read`, which answers the text of a path or why it cannot
be read. `Files.ofList` is the view of a directory tree that is given as a list of relative paths
with their texts. Paths have their parts between slashes.
-/

namespace ScriptMachine

/-- Why a file cannot be read. -/
inductive FileError where
  | notFound
  | isDirectory
  | notDirectory
  | accessDenied
  | notText
deriving Repr, DecidableEq, Inhabited

/-- The wording of a file error. -/
def FileError.message : FileError → String
  | .notFound => "No such file or directory (os error 2)"
  | .isDirectory => "Is a directory (os error 21)"
  | .notDirectory => "Not a directory (os error 20)"
  | .accessDenied => "Permission denied (os error 13)"
  | .notText => "stream did not contain valid UTF-8"

/-- What reading a path gives. -/
structure Files where
  read : String → Except FileError String

instance : Inhabited Files :=
  ⟨⟨fun _ => .error .notFound⟩⟩

namespace Path

/-- The parts between the slashes. -/
def parts (path : String) : List String :=
  path.splitOn "/"

/-- Is the path counted from the root? -/
def isAbsolute (path : String) : Bool :=
  path.startsWith "/"

/-- A path relative to a directory; an absolute path stands for itself. -/
def join (dir path : String) : String :=
  if isAbsolute path || dir.isEmpty then path
  else if dir.endsWith "/" then dir ++ path
  else dir ++ "/" ++ path

/-- The parts of a path that name something: neither empty nor a dot. -/
def names (path : String) : List String :=
  (parts path).filter fun p => p ≠ "" && p ≠ "."

/-- The last name of a path, unless it leads up. -/
def fileName? (path : String) : Option String :=
  match (names path).getLast? with
  | some ".." | none => none
  | some name => some name

/-- A file name without its extension; a leading dot starts none. -/
def withoutExtension (name : String) : String :=
  match (name.splitOn ".").reverse with
  | _ :: (rest@(_ :: _)) =>
    let stem := String.intercalate "." rest.reverse
    if stem.isEmpty then name else stem
  | _ => name

/-- **`stem path`** — the file name of a path without its extension. -/
def stem (path : String) : String :=
  ((fileName? path).map withoutExtension).getD path

/-- The directory a file lies in: its path without the last name and the separators before it. -/
def parent (path : String) : String :=
  let before := (parts path).dropLast
  match (before.reverse.dropWhile fun p => p = "" || p = ".").reverse with
  | [] => if isAbsolute path then "/" else if before.head? = some "." then "." else ""
  | kept => String.intercalate "/" kept

end Path

namespace Files

/-- Walks the parts of a path through a tree of files; `here` is the directory reached, backwards.
-/
def walk (tree : List (List String × String)) (here : List String) :
    List String → Except FileError String
  | [] => .error .isDirectory
  | part :: rest =>
    if part = "" || part = "." then walk tree here rest
    else if part = ".." then
      match here with
      | _ :: up => walk tree up rest
      | [] => .error .notFound
    else
      let path := (part :: here).reverse
      match tree.lookup path with
      | some text => if rest.isEmpty then .ok text else .error .notDirectory
      | none =>
        if tree.any fun (p, _) => path.isPrefixOf p then walk tree (part :: here) rest
        else .error .notFound

/-- The directory tree with these files, given by relative paths. -/
def ofList (files : List (String × String)) : Files :=
  let tree := files.map fun (path, text) => (Path.names path, text)
  ⟨fun path =>
    if path.isEmpty || Path.isAbsolute path then .error .notFound
    else walk tree [] (Path.parts path)⟩

end Files

end ScriptMachine
