import Mathlib.Data.List.Infix
import Mathlib.Tactic.Common

namespace Wildcard

variable {τ α : Type*}

inductive Item (τ : Type*)
  | one (t : τ)
  | run
  deriving DecidableEq

inductive Matches (meets : τ → α → Prop) : List (Item τ) → List α → Prop
  | nil : Matches meets [] []
  | one {t : τ} {c : α} {ps : List (Item τ)} {cs : List α} (h : meets t c) (hs : Matches meets ps cs) :
    Matches meets (.one t :: ps) (c :: cs)
  | stop {ps : List (Item τ)} {cs : List α} (hs : Matches meets ps cs) : Matches meets (.run :: ps) cs
  | more {c : α} {ps : List (Item τ)} {cs : List α} (hs : Matches meets (.run :: ps) cs) :
    Matches meets (.run :: ps) (c :: cs)

def Accepts (meets : τ → α → Prop) (left : List α → Prop) (ps : List (Item τ)) (s : List α) : Prop :=
  ∃ front back,s = front ++ back ∧ Matches meets ps front ∧ (back = [] ∨ left back)

section rules

variable {meets : τ → α → Prop} {left : List α → Prop} {ps : List (Item τ)} {s : List α} {t : τ} {c : α}

theorem matches_run : Matches meets (.run :: ps) s ↔ ∃ k,k ≤ s.length ∧ Matches meets ps (s.drop k) := by
  constructor
  · intro h
    induction s with
    | nil =>
      cases h with
      | stop hs => exact ⟨0,le_rfl,hs⟩
    | cons c s ih =>
      cases h with
      | stop hs => exact ⟨0,Nat.zero_le _,hs⟩
      | more hs =>
        obtain ⟨k,hk,hmatch⟩ := ih hs
        exact ⟨k + 1,Nat.succ_le_succ hk,hmatch⟩
  · rintro ⟨k,hk,hmatch⟩
    induction k generalizing s with
    | zero => exact .stop hmatch
    | succ k ih =>
      cases s with
      | nil => simp at hk
      | cons c s => exact .more (ih (Nat.le_of_succ_le_succ hk) hmatch)

theorem accepts_nil : Accepts meets left [] s ↔ s = [] ∨ left s := by
  constructor
  · rintro ⟨front,back,rfl,hmatch,hback⟩
    cases hmatch
    exact hback
  · intro h
    exact ⟨[],s,rfl,.nil,h⟩

theorem accepts_one_cons : Accepts meets left (.one t :: ps) (c :: s) ↔
    meets t c ∧ Accepts meets left ps s := by
  constructor
  · rintro ⟨front,back,heq,hmatch,hback⟩
    cases hmatch with
    | one hmeets hs =>
      obtain ⟨rfl,rfl⟩ := List.cons.inj heq
      exact ⟨hmeets,_,back,rfl,hs,hback⟩
  · rintro ⟨hmeets,front,back,rfl,hs,hback⟩
    exact ⟨c :: front,back,rfl,.one hmeets hs,hback⟩

theorem not_accepts_one_nil : ¬Accepts meets left (.one t :: ps) [] := by
  rintro ⟨front,back,heq,hmatch,-⟩
  cases hmatch
  cases heq

theorem accepts_run : Accepts meets left (.run :: ps) s ↔
    ∃ k,k ≤ s.length ∧ Accepts meets left ps (s.drop k) := by
  constructor
  · rintro ⟨front,back,rfl,hmatch,hback⟩
    obtain ⟨k,hk,hmatch⟩ := (matches_run).mp hmatch
    refine ⟨k,by rw [List.length_append]; omega,front.drop k,back,?_,hmatch,hback⟩
    exact List.drop_append_of_le_length hk
  · rintro ⟨k,hk,front,back,heq,hmatch,hback⟩
    refine ⟨s.take k ++ front,back,?_,(matches_run).mpr ⟨k,?_,?_⟩,hback⟩
    · rw [List.append_assoc,← heq,List.take_append_drop]
    · rw [List.length_append,List.length_take]
      omega
    · rw [List.drop_left' (by rw [List.length_take]; omega)]
      exact hmatch

theorem accepts_run_of_drop {k : Nat} (hk : k ≤ s.length)
    (h : Accepts meets left (.run :: ps) (s.drop k)) : Accepts meets left (.run :: ps) s := by
  obtain ⟨j,hj,h⟩ := (accepts_run).mp h
  rw [List.length_drop] at hj
  rw [List.drop_drop] at h
  exact (accepts_run).mpr ⟨k + j,by omega,h⟩

theorem accepts_empty : Accepts meets left ps [] ↔ ∀ p ∈ ps,p = .run := by
  induction ps with
  | nil => simp [accepts_nil]
  | cons p ps ih =>
    cases p with
    | one t => exact iff_of_false not_accepts_one_nil fun h => by cases h _ List.mem_cons_self
    | run =>
      have hrun : Accepts meets left (.run :: ps) [] ↔ Accepts meets left ps [] := by
        simp [accepts_run]
      rw [hrun,ih]
      simp

theorem accepts_ones {seg : List (Item τ)} (hseg : ∀ p ∈ seg,p ≠ .run)
    (h : Accepts meets left (seg ++ ps) s) :
    seg.length ≤ s.length ∧ Accepts meets left ps (s.drop seg.length) := by
  induction seg generalizing s with
  | nil => exact ⟨Nat.zero_le _,h⟩
  | cons p seg ih =>
    obtain ⟨hp,hseg'⟩ := List.forall_mem_cons.mp hseg
    cases p with
    | run => exact absurd rfl hp
    | one t =>
      cases s with
      | nil => exact absurd h not_accepts_one_nil
      | cons c s =>
        obtain ⟨hle,hrest⟩ := ih hseg' ((accepts_one_cons).mp h).2
        exact ⟨Nat.succ_le_succ hle,hrest⟩

end rules

end Wildcard
