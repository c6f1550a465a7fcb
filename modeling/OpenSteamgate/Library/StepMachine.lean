import Mathlib.Data.List.Forall2
import Mathlib.Data.List.Basic

structure StepMachine (S O A : Type) where
  step : S → O → S × A

namespace StepMachine

variable {S T O P A B : Type} (M : StepMachine S O A) (N : StepMachine T P B)

def run (s : S) (ops : List O) : S := ops.foldl (fun s op => (M.step s op).1) s

def answers : S → List O → List A
  | _, [] => []
  | s, op :: ops => (M.step s op).2 :: answers (M.step s op).1 ops

@[simp] theorem run_nil (s : S) : M.run s [] = s := rfl

@[simp] theorem run_cons (s : S) (op : O) (ops : List O) :
    M.run s (op :: ops) = M.run (M.step s op).1 ops := rfl

@[simp] theorem run_append (s : S) (xs ys : List O) :
    M.run s (xs ++ ys) = M.run (M.run s xs) ys := by
  simp [run,List.foldl_append]

theorem invariant (I : S → Prop) (hstep : ∀ s op,I s → I (M.step s op).1)
    {s : S} (h : I s) (ops : List O) : I (M.run s ops) := by
  induction ops generalizing s with
  | nil => exact h
  | cons op ops ih => exact ih (hstep s op h)

theorem backward (Q : S → Prop) (hback : ∀ s op,Q (M.step s op).1 → Q s)
    {s : S} {ops : List O} (h : Q (M.run s ops)) : Q s := by
  induction ops generalizing s with
  | nil => exact h
  | cons op ops ih => exact hback s op (ih h)

theorem invariant_backward (I Q : S → Prop) (hback : ∀ s op,Q (M.step s op).1 → Q s)
    (hstep : ∀ s op,I s → Q (M.step s op).1 → I (M.step s op).1)
    {s : S} (h : I s) {ops : List O} (hq : Q (M.run s ops)) : I (M.run s ops) := by
  induction ops generalizing s with
  | nil => exact h
  | cons op ops ih => exact ih (hstep s op h (M.backward Q hback hq)) hq

def Obeys (G : S → O → Prop) : S → List O → Prop
  | _, [] => True
  | s, op :: ops => G s op ∧ Obeys G (M.step s op).1 ops

def decideObeys (G : S → O → Prop) [∀ s op, Decidable (G s op)] :
    ∀ (s : S) (ops : List O), Decidable (M.Obeys G s ops)
  | _, [] => .isTrue trivial
  | s, op :: ops =>
      let := decideObeys G (M.step s op).1 ops
      inferInstanceAs (Decidable (G s op ∧ M.Obeys G (M.step s op).1 ops))

instance (G : S → O → Prop) [∀ s op, Decidable (G s op)] (s : S) (ops : List O) :
    Decidable (M.Obeys G s ops) := M.decideObeys G s ops

theorem obeys_append (G : S → O → Prop) (s : S) (xs ys : List O) :
    M.Obeys G s (xs ++ ys) ↔ M.Obeys G s xs ∧ M.Obeys G (M.run s xs) ys := by
  induction xs generalizing s with
  | nil => simp [Obeys]
  | cons op xs ih => simp [Obeys,ih,and_assoc]

theorem obeys_iff (G : S → O → Prop) (s : S) (ops : List O) :
    M.Obeys G s ops ↔ ∀ pre op post,ops = pre ++ op :: post → G (M.run s pre) op := by
  constructor
  · rintro h pre op post rfl
    exact ((M.obeys_append G s pre (op :: post)).mp h).2.1
  · intro h
    induction ops generalizing s with
    | nil => trivial
    | cons op ops ih =>
      refine ⟨h [] op ops rfl,ih _ ?_⟩
      rintro pre op' post rfl
      exact h (op :: pre) op' post rfl

theorem invariant_guarded (I Q : S → Prop) (G : S → O → Prop)
    (hback : ∀ s op,Q (M.step s op).1 → Q s)
    (hstep : ∀ s op,I s → G s op → Q (M.step s op).1 → I (M.step s op).1)
    {s : S} (h : I s) {ops : List O} (hg : M.Obeys G s ops) (hq : Q (M.run s ops)) :
    I (M.run s ops) := by
  induction ops generalizing s with
  | nil => exact h
  | cons op ops ih =>
    exact ih (hstep s op h hg.1 (M.backward Q hback hq)) hg.2 hq

@[grind =] def emitted {X : Type} (emit : S → O → List X) : S → List O → List X
  | _, [] => []
  | s, op :: ops => emit s op ++ emitted emit (M.step s op).1 ops

theorem emitted_append {X : Type} (emit : S → O → List X) (s : S) (xs ys : List O) :
    M.emitted emit s (xs ++ ys) = M.emitted emit s xs ++ M.emitted emit (M.run s xs) ys := by
  induction xs generalizing s with
  | nil => rfl
  | cons op xs ih => simp [emitted,ih]

structure Simulates {X Y : Type} (emit : S → O → List X) (emit' : T → P → List Y)
    (ρ : X → Y → Prop) (R : S → T → Prop) (C : O → P → Prop) (E : A → B → Prop) : Prop where
  drawn : ∀ s t op op', R s t → C op op' → (emit s op).length = (emit' t op').length
  step : ∀ s t op op', R s t → C op op' → List.Forall₂ ρ (emit s op) (emit' t op') →
    R (M.step s op).1 (N.step t op').1 ∧ E (M.step s op).2 (N.step t op').2

variable {M N}

theorem forall₂_append_split {X Y : Type} {ρ : X → Y → Prop} {xs xs' : List X} {ys ys' : List Y}
    (hlen : xs.length = ys.length) (h : List.Forall₂ ρ (xs ++ xs') (ys ++ ys')) :
    List.Forall₂ ρ xs ys ∧ List.Forall₂ ρ xs' ys' := by
  have ht := List.forall₂_take xs.length h
  have hd := List.forall₂_drop xs.length h
  rw [List.take_left,List.take_left' hlen.symm] at ht
  rw [List.drop_left,List.drop_left' hlen.symm] at hd
  exact ⟨ht,hd⟩

section Simulates

variable {X Y : Type} {emit : S → O → List X} {emit' : T → P → List Y} {ρ : X → Y → Prop}
  {R : S → T → Prop} {C : O → P → Prop} {E : A → B → Prop}

theorem Simulates.run_then (hsim : Simulates M N emit emit' ρ R C E) {s : S} {t : T} (h : R s t)
    {ops : List O} {ops' : List P} (hops : List.Forall₂ C ops ops') {xs : List X} {ys : List Y}
    (hids : List.Forall₂ ρ (M.emitted emit s ops ++ xs) (N.emitted emit' t ops' ++ ys)) :
    R (M.run s ops) (N.run t ops') ∧ List.Forall₂ E (M.answers s ops) (N.answers t ops') ∧
      List.Forall₂ ρ xs ys := by
  induction hops generalizing s t with
  | nil => exact ⟨h,.nil,hids⟩
  | cons hop _ ih =>
    simp only [emitted,List.append_assoc] at hids
    obtain ⟨hnow,hlater⟩ := forall₂_append_split (hsim.drawn _ _ _ _ h hop) hids
    obtain ⟨hr,he⟩ := hsim.step _ _ _ _ h hop hnow
    obtain ⟨hr',he',hrest⟩ := ih hr hlater
    exact ⟨hr',.cons he he',hrest⟩

theorem Simulates.run (hsim : Simulates M N emit emit' ρ R C E) {s : S} {t : T} (h : R s t)
    {ops : List O} {ops' : List P} (hops : List.Forall₂ C ops ops')
    (hids : List.Forall₂ ρ (M.emitted emit s ops) (N.emitted emit' t ops')) :
    R (M.run s ops) (N.run t ops') ∧ List.Forall₂ E (M.answers s ops) (N.answers t ops') := by
  obtain ⟨hr,he,-⟩ : _ ∧ _ ∧ List.Forall₂ ρ [] [] := hsim.run_then h hops (by simpa using hids)
  exact ⟨hr,he⟩

variable (M) in
def retryOps (again : A → Bool) (attempt : Nat → O) (sleep : Nat → List O) : Nat → Nat → S → List O
  | 0, i, _ => [attempt i]
  | n + 1, i, s =>
      attempt i :: if again (M.step s (attempt i)).2 then
        sleep i ++ retryOps again attempt sleep n (i + 1) (M.run (M.step s (attempt i)).1 (sleep i))
      else []

theorem Simulates.retry
    (hsim : Simulates M N emit emit' ρ R C E) {again : A → Bool} {again' : B → Bool}
    (hagain : ∀ a b,E a b → again a = again' b) {attempt : Nat → O} {attempt' : Nat → P}
    (hattempt : ∀ i,C (attempt i) (attempt' i)) {sleep : Nat → List O} {sleep' : Nat → List P}
    (hsleep : ∀ i,List.Forall₂ C (sleep i) (sleep' i)) (n i : Nat) {s : S} {t : T} (h : R s t)
    (hids : List.Forall₂ ρ (M.emitted emit s (M.retryOps again attempt sleep n i s))
      (N.emitted emit' t (N.retryOps again' attempt' sleep' n i t))) :
    List.Forall₂ C (M.retryOps again attempt sleep n i s)
      (N.retryOps again' attempt' sleep' n i t) := by
  induction n generalizing i s t with
  | zero => exact .cons (hattempt i) .nil
  | succ n ih =>
    simp only [retryOps,emitted] at hids ⊢
    obtain ⟨hnow,hlater⟩ := forall₂_append_split (hsim.drawn _ _ _ _ h (hattempt i)) hids
    obtain ⟨hr,he⟩ := hsim.step _ _ _ _ h (hattempt i) hnow
    refine .cons (hattempt i) ?_
    rw [hagain _ _ he] at hlater ⊢
    split_ifs at hlater ⊢
    · rw [emitted_append,emitted_append] at hlater
      obtain ⟨hr',-,hrest⟩ := hsim.run_then hr (hsleep i) hlater
      exact List.rel_append (hsleep i) (ih (i + 1) hr' hrest)
    · exact .nil

end Simulates

end StepMachine
