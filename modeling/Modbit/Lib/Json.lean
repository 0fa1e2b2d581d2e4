import Mathlib.Data.List.Basic

/-!
# JSON documents

A document is a tree; an object is a list of fields in the order they are
written.  A number is a natural number or, for a floating-point value, the
decimal text it is printed as: nothing here computes with it.

`render` is the compact text (no spaces, `"`, `\` and control characters
escaped), `field` looks a field up, and the `as…` readers take a document as a
value of one type, `none` when it is something else.
-/

namespace Modbit.Lib

inductive Json where
  | null
  | bool (b : Bool)
  | num (n : Nat)
  | float (text : String)
  | str (s : String)
  | arr (items : List Json)
  | obj (fields : List (String × Json))

namespace Json

/-! ### Text -/

def escapeChar (c : Char) : List Char :=
  if c.toNat = 0x22 then ['\\', c]
  else if c.toNat = 0x5c then ['\\', c]
  else if c.toNat = 0x08 then ['\\', 'b']
  else if c.toNat = 0x0c then ['\\', 'f']
  else if c.toNat = 0x0a then ['\\', 'n']
  else if c.toNat = 0x0d then ['\\', 'r']
  else if c.toNat = 0x09 then ['\\', 't']
  else if c.toNat < 0x20 then
    ['\\', 'u', '0', '0', (c.toNat / 16).digitChar, (c.toNat % 16).digitChar]
  else [c]

def quote (s : String) : String :=
  "\x22" ++ String.ofList (s.toList.flatMap escapeChar) ++ "\x22"

mutual

def render : Json → String
  | .null => "null"
  | .bool b => if b then "true" else "false"
  | .num n => toString n
  | .float text => text
  | .str s => quote s
  | .arr items => "[" ++ renderItems items ++ "]"
  | .obj fields => "\x7b" ++ renderFields fields ++ "\x7d"

def renderItems : List Json → String
  | [] => ""
  | [j] => render j
  | j :: k :: rest => render j ++ "," ++ renderItems (k :: rest)

def renderFields : List (String × Json) → String
  | [] => ""
  | [(name, j)] => quote name ++ ":" ++ render j
  | (name, j) :: f :: rest => quote name ++ ":" ++ render j ++ "," ++ renderFields (f :: rest)

end

/-! ### Reading -/

def field (name : String) : Json → Option Json
  | .obj fields => fields.lookup name
  | _ => none

def asStr : Json → Option String
  | .str s => some s
  | _ => none

def asNat : Json → Option Nat
  | .num n => some n
  | _ => none

def asBool : Json → Option Bool
  | .bool b => some b
  | _ => none

def asStrList : Json → Option (List String)
  | .arr items => items.mapM asStr
  | _ => none

/-- An optional text: `null` is `none`. -/
def asOptStr : Json → Option (Option String)
  | .null => some none
  | .str s => some (some s)
  | _ => none

def ofOptStr : Option String → Json
  | none => .null
  | some s => .str s

def ofStrList (l : List String) : Json := .arr (l.map .str)

@[simp] theorem asStr_str (s : String) : asStr (.str s) = some s := rfl

@[simp] theorem asNat_num (n : Nat) : asNat (.num n) = some n := rfl

@[simp] theorem asOptStr_ofOptStr : ∀ o : Option String, asOptStr (ofOptStr o) = some o
  | none => rfl
  | some _ => rfl

@[simp] theorem asStrList_ofStrList (l : List String) : asStrList (ofStrList l) = some l := by
  show (l.map Json.str).mapM asStr = some l
  induction l with
  | nil => rfl
  | cons s l ih => rw [List.map_cons, List.mapM_cons, asStr_str, ih]; rfl

end Json

end Modbit.Lib
