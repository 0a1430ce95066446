-- Slash-separated paths, treated as texts: nothing here looks at a file system.
namespace RustContracts.Text.Path

-- The parts between slashes.
def parts (path : String) : List String := (path.toList.splitOn '/').map String.ofList

def isRooted (path : String) : Bool := path.toList.head? == some '/'

-- Adds a part to a path that is already resolved, last part first. `..` takes the last part off, unless
-- there is none left to take.
def resolvePart (rooted : Bool) (resolved : List String) (part : String) : List String :=
  if part = "" || part = "." then resolved
  else if part = ".." then
    match resolved with
    | last :: rest => if last = ".." then ".." :: resolved else rest
    | [] => if rooted then [] else [".."]
  else part :: resolved

-- The shortest path that denotes the same place; `.` when nothing is left.
def clean (path : String) : String :=
  let rooted := isRooted path
  let resolved := ((parts path).foldl (resolvePart rooted) []).reverse
  let text := (if rooted then "/" else "") ++ "/".intercalate resolved
  if text = "" then "." else text

-- Two paths one behind the other; an empty one does not count.
def join (dir path : String) : String :=
  match [dir, path].filter (· != "") with
  | [] => ""
  | ps => clean ("/".intercalate ps)

-- The last part; `.` for the empty path and `/` for the root.
def base (path : String) : String :=
  if path = "" then "."
  else
    match (parts path).filter (· != "") with
    | [] => "/"
    | p :: ps => (p :: ps).getLastD p

-- Everything before the last part.
def dir (path : String) : String :=
  match (parts path).dropLast with
  | [] => "."
  | ps => clean ("/".intercalate ps ++ "/")

-- A name without the part from its last dot on.
def stem (name : String) : String :=
  let cs := name.toList
  if cs.contains '.' then String.ofList ((cs.reverse.dropWhile (· != '.')).drop 1).reverse
  else name

end RustContracts.Text.Path
