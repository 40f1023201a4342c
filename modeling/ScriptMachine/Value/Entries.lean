import ScriptMachine.Value.Equality

set_option autoImplicit false

namespace ScriptMachine

namespace Entries

def find? (key : Value) : Entries → Option Value
  | [] => none
  | (k, v) :: rest => if k.equals key then some v else find? key rest

def contains (key : Value) (entries : Entries) : Bool := (find? key entries).isSome

def insert (key value : Value) : Entries → Entries
  | [] => [(key, value)]
  | (k, v) :: rest => if k.equals key then (k, value) :: rest else (k, v) :: insert key value rest

def erase (key : Value) : Entries → Entries
  | [] => []
  | (k, v) :: rest => if k.equals key then rest else (k, v) :: erase key rest

def remove (key : Value) : Entries → Bool × Entries
  | [] => (false, [])
  | (k, v) :: rest =>
    if k.equals key then (true, rest)
    else
      let (found, others) := remove key rest
      (found, (k, v) :: others)

def insertAll (entries : Entries) (pairs : List (Value × Value)) : Entries :=
  pairs.foldl (fun acc p => insert p.1 p.2 acc) entries

def ofPairs (pairs : List (Value × Value)) : Entries := insertAll [] pairs

def eraseAll (entries : Entries) (keys : List Value) : Entries :=
  keys.foldl (fun acc k => erase k acc) entries

def insertMissing (entries others : Entries) : Entries :=
  others.foldl (fun acc p => if contains p.1 acc then acc else insert p.1 p.2 acc) entries

end Entries

end ScriptMachine
