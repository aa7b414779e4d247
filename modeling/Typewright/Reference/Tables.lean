import Typewright.Files.Load

/-!
# What is known about references

While a schema is worked on, the documents that its references lead to are kept, with the path of each reference, the
name of the type that each path stands for, and the definitions that are only another name for a file.
-/

namespace Typewright

/-- A table with texts as keys, in the order in which the keys came. -/
abbrev Table (α : Type) := List (String × α)

namespace Table

def get? {α : Type} (t : Table α) (key : String) : Option α :=
  match t with
  | [] => none
  | (k, v) :: rest => if k = key then some v else get? rest key

def has {α : Type} (t : Table α) (key : String) : Bool :=
  (get? t key).isSome

def put {α : Type} (t : Table α) (key : String) (value : α) : Table α :=
  match t with
  | [] => [(key, value)]
  | (k, v) :: rest => if k = key then (k, value) :: rest else (k, v) :: put rest key value

def keys {α : Type} (t : Table α) : List String :=
  t.map (·.1)

end Table

structure Tables where
  loaded : Table Value := []
  refs : Table String := []
  types : Table String := []
  definitions : Table String := []

/-- What references have led to so far: the tables, and the lines that were reported. -/
structure RefState where
  tables : Tables := {}
  log : List String := []

/-- Work that may follow references. A failure leaves the tables and the report as they are. -/
abbrev RefM := ExceptT Fault (StateM RefState)

namespace RefM

def report (lines : List String) : RefM Unit :=
  modify fun s => { s with log := s.log ++ lines }

def tables : RefM Tables :=
  return (← get).tables

def update (f : Tables → Tables) : RefM Unit :=
  modify fun s => { s with tables := f s.tables }

def attempt {α : Type} (work : RefM α) : RefM (Except Fault α) :=
  ExceptT.mk do
    return .ok (← work.run)

/-- Does something, and goes on with `handler` after a fault in the content of a file or a reference. -/
def recover {α : Type} (work : RefM α) (handler : Fault → RefM α) : RefM α :=
  tryCatch work fun e => if e.isContent then handler e else throw e

end RefM

/-- Where references are looked up: the files, the path of the schema they stand in, which relative
paths start from, and the schema whose definitions are meant. -/
structure RefScope where
  files : FileTree
  base : String
  root : Value

namespace RefScope

def path (scope : RefScope) (ref : String) : String :=
  Path.join (Path.directory scope.base) ref

end RefScope

end Typewright
