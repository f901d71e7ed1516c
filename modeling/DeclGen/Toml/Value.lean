/-!
# TOML values

The values of a TOML document. Numbers and dates are kept as written, since no setting has one.
Tables remember how they were defined, which decides how they may be extended.

## Main definitions

* `Toml.Value`, `Toml.Table`
* `Toml.insertAt`: a value under a dotted key
* `Toml.updateAt`: a change of the table that a header names
-/

namespace DeclGen.Toml

/-- How a table came to be. -/
inductive Origin where
  /-- By a header that names it. -/
  | header
  /-- By a header that names a table inside it. -/
  | implied
  /-- By a dotted key that leads through it. -/
  | dotted
  /-- By a value in braces. -/
  | inline
deriving DecidableEq, Repr, Inhabited

inductive Value where
  | string (text : String)
  | boolean (value : Bool)
  | number (text : String)
  | dateTime (text : String)
  | array (items : List Value)
  | table (origin : Origin) (entries : List (String × Value))
  /-- The tables of headers in double brackets. -/
  | tables (items : List (List (String × Value)))
deriving Inhabited

/-- The entries of a table, in the order of their definition. -/
abbrev Table : Type := List (String × Value)

namespace Table

def replace (t : Table) (key : String) (v : Value) : Table :=
  t.map fun e => if e.1 == key then (key, v) else e

/-- The table with one more entry, unless it has the key. -/
def insertNew (t : Table) (key : String) (v : Value) : Option Table :=
  match t.lookup key with
  | some _ => none
  | none => some (t ++ [(key, v)])

end Table

/-- The table with a value under a dotted key; `path` is the key without its last part. The key may
lead through tables that dotted keys have defined, and must not end in any other table. -/
def insertAt (t : Table) (path : List String) (key : String) (v : Value) : Option Table :=
  match path with
  | [] => t.insertNew key v
  | k :: ks =>
    match t.lookup k with
    | none => (insertAt [] ks key v).map fun t' => t ++ [(k, .table .dotted t')]
    | some (.table .dotted t') =>
      (insertAt t' ks key v).map fun t' => t.replace k (.table .dotted t')
    | some (.table .implied t') =>
      if ks.isEmpty then none
      else (insertAt t' ks key v).map fun t' => t.replace k (.table .implied t')
    | some (.tables ts) =>
      if ks.isEmpty then none
      else
        (insertAt (ts.getLast?.getD []) ks key v).map fun t' =>
          t.replace k (.tables (ts.dropLast ++ [t']))
    | some _ => none

/-- The table after a change to the table at a path. Tables on the way that do not exist are
implied; of several tables in double brackets the last one is meant. -/
def updateAt (change : Table → Option Table) (path : List String) (t : Table) : Option Table :=
  match path with
  | [] => change t
  | k :: ks =>
    match t.lookup k with
    | none => (updateAt change ks []).map fun t' => t ++ [(k, .table .implied t')]
    | some (.table .inline _) => none
    | some (.table origin t') =>
      (updateAt change ks t').map fun t' => t.replace k (.table origin t')
    | some (.tables ts) =>
      (updateAt change ks (ts.getLast?.getD [])).map fun t' =>
        t.replace k (.tables (ts.dropLast ++ [t']))
    | some _ => none

/-- The table after a header in brackets for `key`. A table may be named by one header only. -/
def openTable (key : String) (t : Table) : Option Table :=
  match t.lookup key with
  | none => some (t ++ [(key, .table .header [])])
  | some (.table .implied t') => some (t.replace key (.table .header t'))
  | some _ => none

/-- The table after a header in double brackets for `key`. -/
def openNextTable (key : String) (t : Table) : Option Table :=
  match t.lookup key with
  | none => some (t ++ [(key, .tables [[]])])
  | some (.tables ts) => some (t.replace key (.tables (ts ++ [[]])))
  | some _ => none

end DeclGen.Toml
