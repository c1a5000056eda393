import Mathlib.Data.List.Basic

namespace Builra.Path

/-!
# `Util.Path` — operations on paths

The paths of a POSIX system, as byte strings in which a separator is a Character of its own (`Util.PathCharacters` has the
operations over any Characters). None of these operations looks at a file system.
-/

def pathSeparatorUTF8 : UInt8 := 47

/-- `lastIndex(of:)`, from the end of the bytes. -/
def lastIndex (bytes : List UInt8) (element : UInt8) : Option Nat :=
  (List.range bytes.length).reverse.find? (fun idx => bytes[idx]? = some element)

variable (str : List UInt8)

/-- Split the path into its directory and its base name. -/
def split : List UInt8 × List UInt8 :=
  match lastIndex str pathSeparatorUTF8 with
  | some idx =>
    -- a separator at the start of the string remains a part of the directory
    if idx = 0 then (str.take (idx + 1), str.drop (idx + 1)) else (str.take idx, str.drop (idx + 1))
  | none => ([], str)

/-- Get the path's parent directory. -/
def dirname : List UInt8 := (split str).1

/-- The base name of the path. -/
def basename : List UInt8 :=
  match lastIndex str pathSeparatorUTF8 with
  | some idx => str.drop (idx + 1)
  | none => str

/-- Check if the path is the root path. -/
def isRoot : Bool := str = [pathSeparatorUTF8]

def isAbsolute : Bool := str.head? = some pathSeparatorUTF8

/-- The extension on the path, not including any dot. -/
def fileExtension : List UInt8 :=
  let name := str.reverse.takeWhile (fun c => c ≠ pathSeparatorUTF8)
  if 46 ∈ name then (name.takeWhile (fun c => c ≠ 46)).reverse else []

/-- Return the path that results by appending the given component. -/
def join (str rhs : List UInt8) : List UInt8 :=
  if str = [] ∨ isAbsolute rhs then rhs
  else if rhs = [] then str
  else if str.getLast? = some pathSeparatorUTF8 then str ++ rhs
  else str ++ pathSeparatorUTF8 :: rhs

end Builra.Path
