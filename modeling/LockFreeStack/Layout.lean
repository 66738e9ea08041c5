/-!
Texts that describe a value: a record with its fields, on one line or as an indented block.
-/

namespace LockFreeStack

inductive Layout where
  | line
  | block
deriving DecidableEq

namespace Layout

/-- Every line after the first moves four blanks to the right. -/
def indent (s : String) : String :=
  String.ofList (s.toList.flatMap fun c => if c = '\n' then "\n    ".toList else [c])

/-- A record's name and fields between braces, on one line or one field a line. -/
def record (l : Layout) (name : String) (fields : List (String × String)) : String :=
  match l with
  | line =>
    name ++ " \x7b " ++ ", ".intercalate (fields.map fun f => f.1 ++ ": " ++ f.2) ++ " \x7d"
  | block =>
    name ++ " \x7b\n" ++
      String.join (fields.map fun f => "    " ++ f.1 ++ ": " ++ indent f.2 ++ ",\n") ++ "\x7d"

/-- A machine address in base sixteen; the block form fills it up to sixteen digits. -/
def word (l : Layout) (n : Nat) : String :=
  let digits := Nat.toDigits 16 n
  match l with
  | line => "0x" ++ String.ofList digits
  | block => "0x" ++ String.ofList (List.replicate (16 - digits.length) '0' ++ digits)

def flag (b : Bool) : String := if b then "true" else "false"

end Layout

end LockFreeStack
