import Mathlib.Data.List.DropRight
import Mathlib.Tactic.Ring
import Mathlib.Tactic.Linarith
import OpenSteamgate.Library.Wtf8

open Wtf8

class Coded (α : Type) where
  code : α → Nat

instance : Coded Char := ⟨Char.toNat⟩

instance : Coded UInt16 := ⟨UInt16.toNat⟩

namespace Lexeme

open Coded

def isDigit (n : Nat) : Bool := 48 ≤ n && n ≤ 57

def isUpper (n : Nat) : Bool := 65 ≤ n && n ≤ 90

def isLetter (n : Nat) : Bool := isUpper n || 97 ≤ n && n ≤ 122

def isSign (n : Nat) : Bool := n == 43 || n == 45

section forms

variable {α : Type} [Coded α]

def optional (p : Nat → Bool) : List α → List α × List α
  | [] => ([],[])
  | c :: s => if p (code c) then ([c],s) else ([],c :: s)

def many (p : Nat → Bool) (s : List α) : List α × List α :=
  (s.takeWhile fun c => p (code c),s.dropWhile fun c => p (code c))

def fraction : List α → List α × List α
  | [] => ([],[])
  | c :: s =>
    if code c = 46 ∧ (many isDigit s).1 ≠ [] then many isDigit s else ([],c :: s)

def stripZeros : List α → List α
  | [] => []
  | [c] => [c]
  | c :: d :: s => if code c = 48 ∧ isDigit (code d) then stripZeros (d :: s) else c :: d :: s

def trimSpaces (s : List α) : List α := (s.dropWhile (code · == 32)).rdropWhile (code · == 32)

def trimRight (s : List α) : List α := s.rdropWhile (code · == 32)

def value (s : List α) : Nat := s.foldl (fun n c => 10 * n + (code c - 48)) 0

end forms

def utf16 (s : List Char) : List UInt16 := units (s.map Char.toNat)

def strlen (s : List Char) : Nat := (utf16 s).length

section strlen

variable {s t : List Char}

theorem strlen_append : strlen (s ++ t) = strlen s + strlen t := by
  rw [strlen,utf16,List.map_append,units_append,List.length_append]
  rfl

theorem strlen_plain (h : ∀ c ∈ s, c.toNat < 65536) : strlen s = s.length := by
  induction s with
  | nil => rfl
  | cons c s ih =>
    obtain ⟨hc,hs⟩ := List.forall_mem_cons.mp h
    have hone : strlen [c] = 1 := by
      rw [strlen,utf16,List.map_singleton,units_cons,unitsOf_small hc]
      rfl
    rw [← List.singleton_append,strlen_append,ih hs,hone,List.length_append,List.length_singleton]

end strlen

end Lexeme
