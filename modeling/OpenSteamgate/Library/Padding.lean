import Mathlib.Data.List.DropRight
import Mathlib.Tactic.Common

namespace Padding

variable {α β : Type*} [DecidableEq α] [DecidableEq β] {x : α} {l : List α} {n : Nat}

def trimmed (x : α) (l : List α) : List α := l.rdropWhile (· = x)

def padded (x : α) (n : Nat) (l : List α) : List α := l.take n ++ List.replicate (n - l.length) x

omit [DecidableEq α] in
theorem length_padded : (padded x n l).length = n := by
  simp [padded]
  omega

omit [DecidableEq α] in
theorem padded_self : padded x l.length l = l := by simp [padded]

theorem trimmed_append_self (x : α) (l : List α) : trimmed x (l ++ [x]) = trimmed x l := by
  simp [trimmed]

theorem trimmed_append_other {y : α} (h : y ≠ x) (l : List α) : trimmed x (l ++ [y]) = l ++ [y] := by
  simp [trimmed,h]

theorem trimmed_split (x : α) (l : List α) : ∃ k,l = trimmed x l ++ List.replicate k x := by
  induction l using List.reverseRecOn with
  | nil => exact ⟨0,rfl⟩
  | append_singleton l y ih =>
    by_cases hy : y = x
    · subst hy
      obtain ⟨k,hk⟩ := ih
      refine ⟨k + 1,?_⟩
      rw [trimmed_append_self,List.replicate_succ',← List.append_assoc,← hk]
    · exact ⟨0,by rw [trimmed_append_other hy,List.replicate_zero,List.append_nil]⟩

theorem length_trimmed (x : α) (l : List α) : (trimmed x l).length ≤ l.length := by
  obtain ⟨k,hk⟩ := trimmed_split x l
  have hlen := congrArg List.length hk
  rw [List.length_append] at hlen
  omega

omit [DecidableEq α] in
theorem padded_append (l : List α) (k : Nat) : padded x n (l ++ List.replicate k x) = padded x n l := by
  rw [padded,padded,List.take_append,List.take_replicate,List.append_assoc,List.length_append,
    List.length_replicate,List.replicate_append_replicate]
  congr 2
  omega

theorem padded_trimmed (l : List α) : padded x n (trimmed x l) = padded x n l := by
  obtain ⟨k,hk⟩ := trimmed_split x l
  conv_rhs => rw [hk]
  exact (padded_append _ k).symm

omit [DecidableEq α] in
theorem padded_take (l : List α) : padded x n (l.take n) = padded x n l := by
  rw [padded,padded,List.take_take,Nat.min_self,List.length_take]
  congr 2
  omega

theorem trimmed_flatMap {y : β} {c : α → List β} (hx : c x = [y])
    (hother : ∀ a ∈ l,a ≠ x → ∃ b bs,c a = bs ++ [b] ∧ b ≠ y) :
    trimmed y (l.flatMap c) = (trimmed x l).flatMap c := by
  induction l using List.reverseRecOn with
  | nil => rfl
  | append_singleton l a ih =>
    rw [List.flatMap_append,List.flatMap_singleton]
    by_cases ha : a = x
    · subst ha
      rw [hx,trimmed_append_self,trimmed_append_self]
      exact ih fun b hb => hother b (List.mem_append_left _ hb)
    · obtain ⟨b,bs,heq,hb⟩ := hother a (List.mem_append_right _ (List.mem_singleton_self a)) ha
      rw [heq,← List.append_assoc,trimmed_append_other hb,trimmed_append_other ha,List.flatMap_append,
        List.flatMap_singleton,heq,List.append_assoc]

end Padding

namespace GoText

def isSpace (c : Char) : Bool :=
  (9 ≤ c.toNat && c.toNat ≤ 13) || (0x2000 ≤ c.toNat && c.toNat ≤ 0x200a) ||
    [0x20,0x85,0xa0,0x1680,0x2028,0x2029,0x202f,0x205f,0x3000].contains c.toNat

def trimSpace (t : List Char) : List Char := (t.dropWhile isSpace).rdropWhile isSpace

end GoText

namespace JsText

variable {t : List Char}

def isSpace (c : Char) : Bool :=
  9 ≤ c.toNat && c.toNat ≤ 13 || 0x2000 ≤ c.toNat && c.toNat ≤ 0x200a ||
    [0x20,0xa0,0x1680,0x2028,0x2029,0x202f,0x205f,0x3000,0xfeff].contains c.toNat

def trim (t : List Char) : List Char := (t.dropWhile isSpace).rdropWhile isSpace

theorem trim_eq (h : ∀ c ∈ t,isSpace c = false) : trim t = t := by
  have hfront : t.dropWhile isSpace = t := by
    cases t with
    | nil => rfl
    | cons c t => rw [List.dropWhile_cons_of_neg (by rw [h c List.mem_cons_self]; exact Bool.false_ne_true)]
  unfold trim
  rw [hfront,List.rdropWhile_eq_self_iff]
  intro hne
  rw [h _ (List.getLast_mem hne)]
  exact Bool.false_ne_true

theorem isSpace_digit {c : Char} (h : c.isDigit = true) : isSpace c = false := by
  unfold Char.isDigit at h
  rw [Bool.and_eq_true,decide_eq_true_eq,decide_eq_true_eq] at h
  have hrange : 48 ≤ c.toNat ∧ c.toNat ≤ 57 := h
  by_contra hspace
  rw [Bool.not_eq_false,isSpace,Bool.or_eq_true,Bool.or_eq_true,Bool.and_eq_true,Bool.and_eq_true,List.contains_iff_mem]
    at hspace
  simp only [decide_eq_true_eq,List.mem_cons,List.not_mem_nil,or_false] at hspace
  omega

end JsText
