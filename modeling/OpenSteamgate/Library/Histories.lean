import Mathlib.Data.List.Basic
import Mathlib.Data.List.Dedup
import Mathlib.Data.List.Infix
import Mathlib.Data.List.Nodup
import Mathlib.Data.List.Perm.Subperm

namespace UpTo

variable {α β : Type} {p : α → Bool}

@[grind =] def upTo (p : α → Bool) : List α → List α
  | [] => []
  | a :: l => a :: if p a then [] else upTo p l

theorem upTo_stop {a : α} (h : p a = true) (l : List α) : upTo p (a :: l) = [a] := by
  rw [upTo,if_pos h]

theorem upTo_go {a : α} (h : p a = false) (l : List α) : upTo p (a :: l) = a :: upTo p l := by
  rw [upTo,if_neg (by rw [h]; exact Bool.false_ne_true)]

end UpTo

def Chronicle {α : Type} (P : List α → α → Prop) (record : List α) : Prop :=
  ∀ before entry after,record = before ++ entry :: after → P before entry

namespace Chronicle

variable {α : Type} {P Q : List α → α → Prop} {record more : List α} {entry : α}

theorem nil : Chronicle P [] := fun before entry after h => by
  have := congrArg List.length h
  rw [List.length_nil,List.length_append,List.length_cons] at this
  omega

theorem snoc (h : Chronicle P record) (hentry : P record entry) :
    Chronicle P (record ++ [entry]) := fun before e after heq => by
  rcases List.eq_nil_or_concat after with rfl | ⟨init,last,rfl⟩
  · obtain ⟨rfl,hlast⟩ := List.append_inj' heq rfl
    rw [← (List.cons.inj hlast).1]
    exact hentry
  · have hsplit : before ++ e :: (init ++ [last]) = (before ++ e :: init) ++ [last] := by
      rw [List.append_assoc,List.cons_append]
    rw [List.concat_eq_append,hsplit] at heq
    exact h before e init (List.append_inj' heq rfl).1

theorem append (h : Chronicle P record) (hmore : ∀ e ∈ more,∀ before,P before e) :
    Chronicle P (record ++ more) := by
  induction more using List.reverseRecOn with
  | nil => exact (List.append_nil record).symm ▸ h
  | append_singleton more e ih =>
    rw [← List.append_assoc]
    refine (ih fun x hx => hmore x (List.mem_append_left _ hx)).snoc ?_
    exact hmore e List.mem_concat_self _

theorem last (h : Chronicle P (record ++ [entry])) : P record entry :=
  h record entry [] rfl

end Chronicle

namespace Mailbox

variable {α : Type}

inductive Turn (ordered : Prop) : List α → List α → List α → List α → List α → List α → Prop
  | rest {D P W : List α} : Turn ordered D P W D P W
  | sent {D P W : List α} (x : α) : Turn ordered D P W D (P ++ [x]) (W ++ [x])
  | delivered {D A B W : List α} (x : α) : (ordered → A = []) →
      Turn ordered D (A ++ x :: B) W (D ++ [x]) (A ++ B) W

variable {ordered : Prop} {D P W D' P' W' : List α}

theorem Turn.perm (hturn : Turn ordered D P W D' P' W') (hall : (D ++ P).Perm W) :
    (D' ++ P').Perm W' := by
  cases hturn with
  | rest => exact hall
  | sent x =>
    rw [← List.append_assoc]
    exact hall.append_right [x]
  | delivered x _ =>
    refine List.Perm.trans ?_ hall
    rw [List.append_assoc,List.singleton_append]
    exact List.perm_middle.symm.append_left D

theorem Turn.exact (hturn : Turn ordered D P W D' P' W') (hordered : ordered) (hall : D ++ P = W) :
    D' ++ P' = W' := by
  cases hturn with
  | rest => exact hall
  | sent x => rw [← List.append_assoc,hall]
  | delivered x hfirst =>
    rw [hfirst hordered] at hall ⊢
    rw [← hall,List.append_assoc,List.nil_append,List.nil_append,List.singleton_append]

theorem perm_subperm (hall : (D ++ P).Perm W) : D.Subperm W :=
  (List.sublist_append_left D P).subperm.trans hall.subperm

end Mailbox

inductive Evolves {α : Type} (R : α → Option α → Prop) : List α → List α → Prop
  | nil : Evolves R [] []
  | drop {x : α} {xs ys : List α} : R x none → Evolves R xs ys → Evolves R (x :: xs) ys
  | keep {x y : α} {xs ys : List α} : R x (some y) → Evolves R xs ys → Evolves R (x :: xs) (y :: ys)

namespace Evolves

variable {α : Type} {R : α → Option α → Prop} {xs ys zs : List α}

theorem refl (h : ∀ x ∈ xs,R x (some x)) : Evolves R xs xs := by
  induction xs with
  | nil => exact .nil
  | cons x xs ih =>
    rw [List.forall_mem_cons] at h
    exact .keep h.1 (ih h.2)

theorem append {xs' ys' : List α} (h : Evolves R xs ys) (h' : Evolves R xs' ys') :
    Evolves R (xs ++ xs') (ys ++ ys') := by
  induction h with
  | nil => exact h'
  | drop hx _ ih => exact .drop hx ih
  | keep hx _ ih => exact .keep hx ih

theorem filterMap {f : α → Option α} (h : ∀ x ∈ xs,R x (f x)) : Evolves R xs (xs.filterMap f) := by
  induction xs with
  | nil => exact .nil
  | cons x xs ih =>
    rw [List.forall_mem_cons] at h
    cases hx : f x with
    | none =>
      rw [List.filterMap_cons_none hx]
      exact .drop (hx ▸ h.1) (ih h.2)
    | some y =>
      rw [List.filterMap_cons_some hx]
      exact .keep (hx ▸ h.1) (ih h.2)

theorem splice {pre post : List α} {x : α} {o : Option α} (hpre : ∀ y ∈ pre,R y (some y))
    (hpost : ∀ y ∈ post,R y (some y)) (hx : R x o) :
    Evolves R (pre ++ x :: post) (pre ++ (o.toList ++ post)) := by
  refine (refl hpre).append ?_
  cases o with
  | none => exact .drop hx (refl hpost)
  | some y => exact .keep hx (refl hpost)

theorem mono {Q : α → Option α → Prop} (hQ : ∀ x ∈ xs,∀ o,R x o → Q x o)
    (h : Evolves R xs ys) : Evolves Q xs ys := by
  induction h with
  | nil => exact .nil
  | drop hx _ ih =>
    rw [List.forall_mem_cons] at hQ
    exact .drop (hQ.1 _ hx) (ih hQ.2)
  | keep hx _ ih =>
    rw [List.forall_mem_cons] at hQ
    exact .keep (hQ.1 _ hx) (ih hQ.2)

theorem mem (h : Evolves R xs ys) {y : α} (hy : y ∈ ys) : ∃ x ∈ xs,R x (some y) := by
  induction h with
  | nil => simp at hy
  | drop _ _ ih =>
    obtain ⟨x,hx,hr⟩ := ih hy
    exact ⟨x,List.mem_cons_of_mem _ hx,hr⟩
  | keep hx _ ih =>
    rcases List.mem_cons.mp hy with rfl | hy
    · exact ⟨_,List.mem_cons_self ..,hx⟩
    · obtain ⟨x,hx,hr⟩ := ih hy
      exact ⟨x,List.mem_cons_of_mem _ hx,hr⟩

theorem filter (p : α → Bool) (hfix : ∀ x o,R x o → p x = true → o = some x)
    (hback : ∀ x y,R x (some y) → p y = true → p x = true) (h : Evolves R xs ys) :
    ys.filter p = xs.filter p := by
  induction h with
  | nil => rfl
  | @drop x xs ys hx _ ih =>
    have hp : p x = false := by
      by_contra hc
      simpa using hfix x none hx (by simpa using hc)
    simp [hp,ih]
  | @keep x y xs ys hx _ ih =>
    by_cases hp : p x = true
    · obtain rfl : y = x := by simpa using hfix x _ hx hp
      simp [hp,ih]
    · have hq : ¬p y = true := fun hq => hp (hback x y hx hq)
      simp [hp,hq,ih]

theorem pairwise {Q : α → α → Prop}
    (hQ : ∀ x x' y y',R x (some y) → R x' (some y') → Q x x' → Q y y')
    (h : Evolves R xs ys) (hp : xs.Pairwise Q) : ys.Pairwise Q := by
  induction h with
  | nil => exact .nil
  | drop _ _ ih => exact ih hp.of_cons
  | keep hx he ih =>
    rw [List.pairwise_cons] at hp ⊢
    refine ⟨?_,ih hp.2⟩
    intro y' hy'
    obtain ⟨x',hx',hr⟩ := he.mem hy'
    exact hQ _ _ _ _ hx hr (hp.1 x' hx')

theorem trans (htrans : ∀ x y o,R x (some y) → R y o → R x o) (h : Evolves R xs ys)
    (h' : Evolves R ys zs) : Evolves R xs zs := by
  induction h generalizing zs with
  | nil => exact h'
  | drop hx _ ih => exact .drop hx (ih h')
  | keep hx _ ih =>
    cases h' with
    | drop hy h' => exact .drop (htrans _ _ _ hx hy) (ih h')
    | keep hy h' => exact .keep (htrans _ _ _ hx hy) (ih h')

theorem split {xs' : List α} (h : Evolves R (xs ++ xs') zs) :
    ∃ ys ys',zs = ys ++ ys' ∧ Evolves R xs ys ∧ Evolves R xs' ys' := by
  induction xs generalizing zs with
  | nil => exact ⟨[],zs,rfl,.nil,h⟩
  | cons x xs ih =>
    cases h with
    | drop hx h =>
      obtain ⟨ys,ys',rfl,h1,h2⟩ := ih h
      exact ⟨ys,ys',rfl,.drop hx h1,h2⟩
    | keep hx h =>
      obtain ⟨ys,ys',rfl,h1,h2⟩ := ih h
      exact ⟨_ :: ys,ys',rfl,.keep hx h1,h2⟩

end Evolves

namespace Recency

variable {α β : Type} [DecidableEq α] [DecidableEq β]

def push (cap : Nat) (x : α) (l : List α) : List α :=
  let l := l.erase x ++ [x]
  if cap < l.length then l.tail else l

def Recent (x : α) (since : List α) (l : List α) : Prop :=
  l.Nodup ∧ ∃ pre post, l = pre ++ x :: post ∧ post ⊆ since

variable {cap : Nat} {x y : α} {since l : List α}

omit [DecidableEq α] in
theorem Recent.mem (h : Recent x since l) : x ∈ l := by
  obtain ⟨-,pre,post,rfl,-⟩ := h
  simp

theorem nodup_renew (h : l.Nodup) (y : α) : (l.erase y ++ [y]).Nodup := by
  rw [List.nodup_append']
  refine ⟨h.erase y,List.nodup_singleton y,?_⟩
  simpa using h.not_mem_erase

theorem push_nodup (h : l.Nodup) (cap : Nat) (y : α) : (push cap y l).Nodup := by
  have hr := nodup_renew h y
  simp only [push]
  split_ifs
  · exact hr.tail
  · exact hr

theorem push_self (h : l.Nodup) (hcap : 0 < cap) (since : List α) :
    Recent x since (push cap x l) := by
  refine ⟨push_nodup h cap x,?_⟩
  simp only [push]
  split_ifs with hlen
  · cases he : l.erase x with
    | nil => simp [he] at hlen; omega
    | cons a as => exact ⟨as,[],by simp,by simp⟩
  · exact ⟨l.erase x,[],rfl,by simp⟩

theorem Recent.erase (h : Recent x since l) (hy : y ≠ x) : Recent x since (l.erase y) := by
  obtain ⟨hn,pre,post,rfl,hpost⟩ := h
  refine ⟨hn.erase y,pre.filter (· != y),post.filter (· != y),?_,?_⟩
  · rw [hn.erase_eq_filter,List.filter_append,List.filter_cons_of_pos (by simpa using hy.symm)]
  · exact fun z hz => hpost (List.mem_of_mem_filter hz)

theorem Recent.push (h : Recent x since l) (hy : y ≠ x) (hsince : y ∈ since)
    (hroom : (since.filter (· ≠ x)).dedup.length < cap) : Recent x since (push cap y l) := by
  have hr := nodup_renew h.1 y
  have hn := push_nodup h.1 cap y
  obtain ⟨-,pre,post,he,hpost⟩ := h.erase hy
  simp only [Recency.push,he,List.append_assoc,List.cons_append] at hr hn ⊢
  have hback : post ++ [y] ⊆ since := by
    intro z hz
    rcases List.mem_append.mp hz with hz | hz
    · exact hpost hz
    · exact List.mem_singleton.mp hz ▸ hsince
  refine ⟨hn,?_⟩
  split_ifs with hlen
  · cases pre with
    | cons a pre => exact ⟨pre,post ++ [y],rfl,hback⟩
    | nil =>
      -- the whole ledger stands behind `x`, and that is fewer than `cap` distinct entries
      have hx : x ∉ post ++ [y] := (List.nodup_cons.mp hr).1
      have hsub : post ++ [y] ⊆ (since.filter (· ≠ x)).dedup := by
        intro z hz
        have hne : z ≠ x := fun h => hx (h ▸ hz)
        simpa [hne] using hback hz
      have hle := (List.nodup_cons.mp hr).2.length_le_of_subset hsub
      rw [List.nil_append,List.length_cons] at hlen
      omega
  · exact ⟨pre,post ++ [y],rfl,hback⟩

theorem map_erase {f : α → β} (hf : ∀ z ∈ l,f z = f y → z = y) :
    (l.erase y).map f = (l.map f).erase (f y) := by
  induction l with
  | nil => rfl
  | cons z l ih =>
    rw [List.forall_mem_cons] at hf
    by_cases hz : z = y
    · subst hz
      simp
    · have hne : f z ≠ f y := fun he => hz (hf.1 he)
      rw [List.erase_cons_tail (by simpa using hz),List.map_cons,List.map_cons,
        List.erase_cons_tail (by simpa using hne),ih hf.2]

theorem map_push {f : α → β} (hf : ∀ z ∈ l,f z = f y → z = y) :
    (push cap y l).map f = push cap (f y) (l.map f) := by
  have he := map_erase hf
  have hlen : (l.erase y ++ [y]).length = ((l.map f).erase (f y) ++ [f y]).length := by
    simp [← he]
  simp only [push,hlen]
  split_ifs
  · rw [List.map_tail,List.map_append,he,List.map_singleton]
  · rw [List.map_append,he,List.map_singleton]

theorem mem_push {z : α} (h : z ∈ push cap y l) : z = y ∨ z ∈ l := by
  have hz : z ∈ l.erase y ++ [y] := by
    simp only [push] at h
    split_ifs at h
    · exact List.mem_of_mem_tail h
    · exact h
  rcases List.mem_append.mp hz with hz | hz
  · exact .inr (List.mem_of_mem_erase hz)
  · exact .inl (List.mem_singleton.mp hz)

end Recency
