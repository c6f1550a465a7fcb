import Mathlib.Data.List.Basic

structure TwoLevel (D : Type) where
  committed : D
  working : D

namespace TwoLevel

variable {D R : Type}

def commit (db : TwoLevel D) : TwoLevel D := { db with committed := db.working }

def rollback (db : TwoLevel D) : TwoLevel D := { db with working := db.committed }

def serve (run : R → TwoLevel D → D) (db : TwoLevel D) (r : R) : TwoLevel D :=
  { db with working := run r db }

def serveAll (run : R → TwoLevel D → D) (db : TwoLevel D) (rs : List R) : TwoLevel D :=
  rs.foldl (serve run) db

variable (run : R → TwoLevel D → D) (db : TwoLevel D)

@[simp] theorem commit_working : db.commit.working = db.working := rfl

theorem rollback_commit : db.commit.rollback = db.commit := rfl

end TwoLevel

-- an ordinary file: its bytes, read and written at a position
namespace Record

variable {α : Type}

def readAt (content : List α) (pos n : Nat) : List α := (content.drop pos).take n

def writeAt (zero : α) (content : List α) (pos : Nat) (b : List α) : List α :=
  if b.isEmpty then content
  else (content ++ List.replicate (pos - content.length) zero).take pos ++ b ++
    content.drop (pos + b.length)

variable {zero : α} {content b : List α}

theorem writeAt_end (content b : List α) : writeAt zero content content.length b = content ++ b := by
  rw [writeAt]
  split
  · rename_i hb
    rw [List.isEmpty_iff.mp hb,List.append_nil]
  · rw [Nat.sub_self,List.replicate_zero,List.append_nil,List.take_length,
      List.drop_eq_nil_of_le (Nat.le_add_right _ _),List.append_nil]

theorem readAt_part (before rest : List α) : readAt (before ++ b ++ rest) before.length b.length = b := by
  rw [readAt,List.append_assoc,List.drop_left,List.take_left]

def advances (pos : Nat) : List Nat → List Nat
  | [] => []
  | n :: ns => (pos + n) :: advances (pos + n) ns

theorem advances_inj {pos : Nat} {ns ms : List Nat} (h : advances pos ns = advances pos ms) : ns = ms := by
  induction ns generalizing pos ms with
  | nil =>
    cases ms with
    | nil => rfl
    | cons m ms => exact nomatch h
  | cons n ns ih =>
    cases ms with
    | nil => exact nomatch h
    | cons m ms =>
      obtain ⟨hpos,hrest⟩ := List.cons.inj h
      have hnm : n = m := Nat.add_left_cancel hpos
      subst hnm
      rw [ih hrest]

end Record
