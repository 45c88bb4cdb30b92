/-! A directory with its texts and the directories inside it. A path is followed part by part: a
part that is empty or one dot stays where it is, two dots go back up, and only directories lead on.
-/

namespace LoopNest.Command

/-- The files of a directory, by name. A name with slashes lies in directories below it. -/
abbrev Files := List (String × String)

namespace Files

def isDirectory (files : Files) (parts : List String) : Bool :=
  parts.isEmpty || files.any fun (name, _) =>
    let own := name.splitOn "/"
    parts.length < own.length && parts.isPrefixOf own

/-- Where the parts of a path lead from `here`. Nothing is known of what lies outside the
directory. -/
def follow? (files : Files) (here : List String) : List String → Option (List String)
  | [] => some here
  | part :: rest =>
    if !files.isDirectory here then none
    else if part = "" ∨ part = "." then follow? files here rest
    else if part = ".." then
      if here.isEmpty then none else follow? files here.dropLast rest
    else follow? files (here ++ [part]) rest

def nameOf? (files : Files) (path : String) : Option String :=
  if path.startsWith "/" then none
  else match files.follow? [] (path.splitOn "/") with
    | none => none
    | some parts => if files.isDirectory parts then none else some ("/".intercalate parts)

/-- Reads as an empty text, and keeps nothing of what is written to it. -/
def nullDevice : String := "/dev/null"

def read? (files : Files) (path : String) : Option String :=
  if path = nullDevice then some ""
  else (files.nameOf? path).bind fun name => files.lookup name

def write? (files : Files) (path text : String) : Option Files :=
  if path = nullDevice then some files
  else (files.nameOf? path).map fun name => (name, text) :: files.filter (·.1 ≠ name)

end Files

end LoopNest.Command
