import OpenSteamgate.Library.Binary64

namespace OpenSteamgate.Osql

inductive Abap
  | C
  | I
  | P
  | STRING
  | D
  | X
  | BOOL
  | other (name : List Char)
  deriving DecidableEq

structure IRType where
  abap : Abap
  len : Nat := 0
  dec : Nat := 0

def tStr : IRType := {abap := .STRING}

def tBool : IRType := {abap := .BOOL}

def tChar (n : Nat) : IRType := {abap := .C,len := n}

inductive Op
  | and
  | or
  | eq
  | ne
  | lt
  | gt
  | le
  | ge
  | plus
  | minus
  | times
  | div
  deriving DecidableEq

inductive Value (σ : Type)
  | int (n : Int)
  | double (bits : BitVec 64)
  | bool (b : Bool)
  | text (s : σ)
  | null
  deriving DecidableEq

def Value.map {σ σ' : Type} (f : σ → σ') : Value σ → Value σ'
  | .int n => .int n
  | .double bits => .double bits
  | .bool b => .bool b
  | .text s => .text (f s)
  | .null => .null

inductive IR (σ τ : Type)
  | col (name : σ) (source : Option σ) (type : τ)
  | lit (value : Value σ) (type : τ)
  | param (name : σ) (value : Value σ) (type : τ) (isNull : Bool)
  | bin (op : Op) (left right : IR σ τ) (type : τ)
  | isnull (expr : IR σ τ)
  | not (expr : IR σ τ)
  | like (expr pattern : IR σ τ) (escape : Option (IR σ τ)) (negated : Bool)
  | inList (expr : IR σ τ) (values : List (IR σ τ)) (negated : Bool)

end OpenSteamgate.Osql
