import Mathlib.Data.List.Basic

/-!
# Slash-separated paths

The functions of Go's package `path` that the add path of the program calls:
`Clean`, `Join`, `Dir` and `Split`, and the splitting of a path into its
elements (`SplitList` of `go-path`).  They work on the elements between the
slashes, which is what the byte loop of `Clean` computes.
-/

namespace GoPath

/-- The elements of a path, empty ones included (`strings.Split(p, "/")`). -/
def splitList (p : String) : List String :=
  (p.toList.splitOn '/').map String.ofList

/-- One element of a path joins the cleaned elements before it, latest first.
A leading `..` is kept in a relative path and dropped in a rooted one. -/
def cleanStep (rooted : Bool) (out : List String) (elem : String) : List String :=
  if elem = "" ∨ elem = "." then out
  else if elem = ".." then
    match out with
    | [] => if rooted then [] else [".."]
    | last :: rest => if last = ".." then ".." :: last :: rest else rest
  else elem :: out

/-- `path.Clean`. -/
def clean (p : String) : String :=
  let rooted := p.toList.head? = some '/'
  let elems := ((splitList p).foldl (cleanStep rooted) []).reverse
  if rooted then "/" ++ "/".intercalate elems
  else if elems = [] then "."
  else "/".intercalate elems

/-- `path.Join` of two elements. -/
def join (dir name : String) : String :=
  if dir = "" then (if name = "" then "" else clean name)
  else clean (dir ++ "/" ++ name)

/-- `path.Join` of any number of elements: empty ones at the beginning are left
out. -/
def joinAll (elems : List String) : String :=
  let rest := elems.dropWhile (· = "")
  if rest = [] then "" else clean ("/".intercalate rest)

/-- `path.Split`: everything up to the last slash, and the rest. -/
def split (p : String) : String × String :=
  let file := (p.toList.reverse.takeWhile (· ≠ '/')).reverse
  (String.ofList (p.toList.take (p.toList.length - file.length)), String.ofList file)

/-- `path.Dir`. -/
def dir (p : String) : String := clean (split p).1

/-- `strings.Trim(p, "/")`. -/
def trim (p : String) : String :=
  String.ofList
    (((p.toList.dropWhile (· = '/')).reverse.dropWhile (· = '/')).reverse)

end GoPath
