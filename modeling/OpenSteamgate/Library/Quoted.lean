import Mathlib.Data.List.Basic

-- texts with quoted parts, in which a doubled quote stands for one
namespace Quoted

variable {α : Type*} [DecidableEq α] {q stop : α} {quote : Bool} {xs ys rest : List α}

def double (q : α) (xs : List α) : List α := xs.flatMap fun c => if c = q then [q,q] else [c]

def wrap (q : α) (xs : List α) : List α := q :: (double q xs ++ [q])

@[grind =] def halve (q : α) : List α → List α
  | a :: b :: xs => if a = q ∧ b = q then q :: halve q xs else a :: halve q (b :: xs)
  | [a] => [a]
  | [] => []

def toggled (q : α) (quote : Bool) (xs : List α) : Bool :=
  xs.foldl (fun quote a => if a = q then !quote else quote) quote

@[grind =] def cut (q stop : α) : Bool → List α → Option (List α × List α)
  | _,[] => none
  | quote,a :: xs =>
    if a = q then (cut q stop (!quote) xs).map fun r => (a :: r.1,r.2)
    else if a = stop ∧ quote = false then some ([],a :: xs)
    else (cut q stop quote xs).map fun r => (a :: r.1,r.2)

@[grind =] def parts (q stop : α) : Bool → List α → List (List α)
  | _,[] => [[]]
  | quote,a :: xs =>
    if a = q then (parts q stop (!quote) xs).modifyHead (a :: ·)
    else if a = stop ∧ quote = false then [] :: parts q stop quote xs
    else (parts q stop quote xs).modifyHead (a :: ·)

@[grind =] def Quiet (q stop : α) : Bool → List α → Prop
  | _,[] => True
  | quote,a :: xs => if a = q then Quiet q stop (!quote) xs else
      (a = stop → quote = true) ∧ Quiet q stop quote xs

section halving

@[simp] theorem double_nil : double q [] = [] := rfl

theorem double_quote : double q (q :: xs) = q :: q :: double q xs := by
  simp [double]

theorem double_other {c : α} (h : c ≠ q) : double q (c :: xs) = c :: double q xs := by
  simp [double,h]

theorem halve_other {c : α} (h : c ≠ q) (xs : List α) : halve q (c :: xs) = c :: halve q xs := by
  cases xs with
  | nil => rfl
  | cons d xs => rw [halve,if_neg fun hboth => h hboth.1]

theorem halve_quotes (xs : List α) : halve q (q :: q :: xs) = q :: halve q xs := by
  rw [halve,if_pos ⟨rfl,rfl⟩]

theorem halve_double : halve q (double q xs) = xs := by
  induction xs with
  | nil => rfl
  | cons c xs ih =>
    by_cases hc : c = q
    · rw [hc,double_quote,halve_quotes,ih]
    · rw [double_other hc,halve_other hc,ih]

theorem halve_cons (xs : List α) : ∀ c,(halve q xs).length ≤ (halve q (c :: xs)).length ∧
    (halve q (c :: xs)).length ≤ (halve q xs).length + 1 := by
  induction xs with
  | nil => exact fun c => ⟨Nat.zero_le _,Nat.le_refl _⟩
  | cons d xs ih =>
    intro c
    rw [halve]
    split
    · rw [List.length_cons]
      exact ⟨(ih d).2,Nat.succ_le_succ (ih d).1⟩
    · rw [List.length_cons]
      exact ⟨Nat.le_succ _,Nat.le_refl _⟩

theorem halve_append (ys : List α) : (halve q (ys ++ xs)).length ≤ ys.length + (halve q xs).length := by
  induction ys with
  | nil => exact Nat.le_add_left _ _
  | cons c ys ih =>
    have hcons := (halve_cons (q := q) (ys ++ xs) c).2
    rw [List.cons_append,List.length_cons]
    omega

theorem double_eq_append (hq : q ∉ ys) (h : double q xs = ys ++ rest) :
    ∃ zs,xs = ys ++ zs ∧ rest = double q zs := by
  induction ys generalizing xs with
  | nil => exact ⟨xs,rfl,h.symm⟩
  | cons c ys ih =>
    have hc := List.ne_of_not_mem_cons hq
    have hys := List.not_mem_of_not_mem_cons hq
    cases xs with
    | nil => cases h
    | cons d xs =>
      have hd : d ≠ q := by
        rintro rfl
        rw [double_quote] at h
        exact hc (List.cons.inj h).1
      rw [double_other hd] at h
      obtain ⟨rfl,htail⟩ := List.cons.inj h
      obtain ⟨zs,rfl,hrest⟩ := ih hys htail
      exact ⟨zs,rfl,hrest⟩

end halving

section scanning

theorem toggled_append : toggled q quote (xs ++ ys) = toggled q (toggled q quote xs) ys :=
  List.foldl_append ..

theorem quiet_append : Quiet q stop quote (xs ++ ys) ↔
    Quiet q stop quote xs ∧ Quiet q stop (toggled q quote xs) ys := by
  induction xs generalizing quote with
  | nil => exact ⟨fun h => ⟨trivial,h⟩,fun h => h.2⟩
  | cons a xs ih =>
    rw [List.cons_append,Quiet,Quiet,toggled,List.foldl_cons]
    split
    · exact ih
    · rw [ih,and_assoc]
      rfl

theorem cut_append (h : Quiet q stop quote xs) (ys : List α) : cut q stop quote (xs ++ ys) =
    (cut q stop (toggled q quote xs) ys).map fun r => (xs ++ r.1,r.2) := by
  induction xs generalizing quote with
  | nil =>
    change cut q stop quote ys = (cut q stop quote ys).map id
    rw [Option.map_id]
    rfl
  | cons a xs ih =>
    rw [List.cons_append,cut,toggled,List.foldl_cons]
    rw [Quiet] at h
    split
    · rename_i ha
      rw [if_pos ha] at h
      rw [ih h,Option.map_map]
      rfl
    · rename_i ha
      rw [if_neg ha] at h
      rw [if_neg fun hstop => Bool.false_ne_true (hstop.2.symm.trans (h.1 hstop.1)),ih h.2,Option.map_map]
      rfl

theorem cut_stop (hne : stop ≠ q) (h : Quiet q stop false xs) (hclosed : toggled q false xs = false)
    (ys : List α) : cut q stop false (xs ++ stop :: ys) = some (xs,stop :: ys) := by
  rw [cut_append h,hclosed,cut,if_neg hne,if_pos ⟨rfl,rfl⟩,Option.map_some,List.append_nil]

theorem cut_none (h : Quiet q stop quote xs) : cut q stop quote xs = none := by
  have happend := cut_append h []
  rwa [List.append_nil,cut,Option.map_none] at happend

theorem parts_append (h : Quiet q stop quote xs) (ys : List α) : parts q stop quote (xs ++ ys) =
    (parts q stop (toggled q quote xs) ys).modifyHead (xs ++ ·) := by
  induction xs generalizing quote with
  | nil =>
    change parts q stop quote ys = (parts q stop quote ys).modifyHead id
    rw [List.modifyHead_id]
    rfl
  | cons a xs ih =>
    rw [List.cons_append,parts,toggled,List.foldl_cons]
    rw [Quiet] at h
    split
    · rename_i ha
      rw [if_pos ha] at h
      rw [ih h,List.modifyHead_modifyHead]
      rfl
    · rename_i ha
      rw [if_neg ha] at h
      rw [if_neg fun hstop => Bool.false_ne_true (hstop.2.symm.trans (h.1 hstop.1)),ih h.2,
        List.modifyHead_modifyHead]
      rfl

theorem parts_stop (hne : stop ≠ q) (h : Quiet q stop false xs) (hclosed : toggled q false xs = false)
    (ys : List α) : parts q stop false (xs ++ stop :: ys) = xs :: parts q stop false ys := by
  rw [parts_append h,hclosed,parts,if_neg hne,if_pos ⟨rfl,rfl⟩,List.modifyHead_cons,List.append_nil]

theorem parts_last (h : Quiet q stop quote xs) : parts q stop quote xs = [xs] := by
  have happend := parts_append h []
  rwa [List.append_nil,parts,List.modifyHead_cons,List.append_nil] at happend

theorem quiet_plain (hq : q ∉ xs) (hstop : stop ∉ xs) :
    Quiet q stop quote xs ∧ toggled q quote xs = quote := by
  induction xs with
  | nil => exact ⟨trivial,rfl⟩
  | cons a xs ih =>
    have haq := List.ne_of_not_mem_cons hq
    have hastop := List.ne_of_not_mem_cons hstop
    obtain ⟨hquiet,htoggled⟩ := ih (List.not_mem_of_not_mem_cons hq) (List.not_mem_of_not_mem_cons hstop)
    rw [Quiet,if_neg (Ne.symm haq),toggled,List.foldl_cons,if_neg (Ne.symm haq)]
    exact ⟨⟨fun heq => absurd heq.symm hastop,hquiet⟩,htoggled⟩

theorem quiet_double : Quiet q stop true (double q xs) ∧ toggled q true (double q xs) = true := by
  induction xs with
  | nil => exact ⟨trivial,rfl⟩
  | cons a xs ih =>
    by_cases ha : a = q
    · rw [ha,double_quote,Quiet,if_pos rfl,Quiet,if_pos rfl,toggled,List.foldl_cons,List.foldl_cons,
        if_pos rfl,if_pos rfl]
      exact ih
    · rw [double_other ha,Quiet,if_neg ha,toggled,List.foldl_cons,if_neg ha]
      exact ⟨⟨fun _ => rfl,ih.1⟩,ih.2⟩

theorem quiet_wrap (xs : List α) :
    Quiet q stop false (wrap q xs) ∧ toggled q false (wrap q xs) = false := by
  obtain ⟨hquiet,htoggled⟩ : Quiet q stop true (double q xs) ∧ _ := quiet_double
  have hclosed : toggled q false (wrap q xs) = toggled q (toggled q true (double q xs)) [q] := by
    rw [wrap,toggled,List.foldl_cons,if_pos rfl]
    exact toggled_append
  rw [hclosed,wrap,Quiet,if_pos rfl,quiet_append]
  change (Quiet q stop true (double q xs) ∧ Quiet q stop (toggled q true (double q xs)) [q]) ∧ _
  rw [htoggled,Quiet,if_pos rfl,toggled,List.foldl_cons,if_pos rfl]
  exact ⟨⟨hquiet,trivial⟩,rfl⟩

end scanning

end Quoted
