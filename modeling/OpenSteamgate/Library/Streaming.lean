import Mathlib.Data.List.Basic
import Mathlib.Logic.Basic

inductive Outcome (ε α : Type) where
  | more
  | fail (e : ε)
  | ok (a : α)

def Outcome.map {ε α α' : Type} (f : α → α') : Outcome ε α → Outcome ε α'
  | .more => .more
  | .fail e => .fail e
  | .ok a => .ok (f a)

def Reader (β ε α : Type) := List β → Outcome ε (α × List β)

namespace Reader

variable {β ε α α' : Type}

def pure (a : α) : Reader β ε α := fun bs => .ok (a,bs)

def bind (p : Reader β ε α) (f : α → Reader β ε α') : Reader β ε α' := fun bs =>
  match p bs with
  | .more => .more
  | .fail e => .fail e
  | .ok (a,rest) => f a rest

instance : Monad (Reader β ε) where
  pure := Reader.pure
  bind := Reader.bind

def fail (e : ε) : Reader β ε α := fun _ => .fail e

theorem pure_apply (a : α) (bs : List β) : (Pure.pure a : Reader β ε α) bs = .ok (a,bs) := rfl

theorem bind_ok {p : Reader β ε α} {bs rest : List β} {a : α} (h : p bs = .ok (a,rest))
    (f : α → Reader β ε α') : (p >>= f) bs = f a rest := by
  change Reader.bind p f bs = _
  simp only [Reader.bind,h]

theorem bind_more {p : Reader β ε α} {bs : List β} (h : p bs = .more)
    (f : α → Reader β ε α') : (p >>= f) bs = .more := by
  change Reader.bind p f bs = _
  simp only [Reader.bind,h]

theorem bind_fail {p : Reader β ε α} {bs : List β} {e : ε} (h : p bs = .fail e)
    (f : α → Reader β ε α') : (p >>= f) bs = .fail e := by
  change Reader.bind p f bs = _
  simp only [Reader.bind,h]

end Reader

def Attempt (σ ε α : Type) := σ → Except ε (Option α × σ)

namespace Attempt

variable {σ ε α α' : Type}

def pure (a : α) : Attempt σ ε α := fun s => .ok (some a,s)

def bind (m : Attempt σ ε α) (f : α → Attempt σ ε α') : Attempt σ ε α' := fun s =>
  match m s with
  | .error e => .error e
  | .ok (none,s') => .ok (none,s')
  | .ok (some a,s') => f a s'

instance : Monad (Attempt σ ε) where
  pure := Attempt.pure
  bind := Attempt.bind

def fail (e : ε) : Attempt σ ε α := fun _ => .error e

def short : Attempt σ ε α := fun s => .ok (none,s)

end Attempt

structure Window (σ β φ : Type) where
  unit : Nat
  good : σ → Prop
  view : σ → List β
  ahead : σ → Nat
  rest : σ → φ

variable {σ β φ ε α α' : Type} {W : Window σ β φ}

inductive Agrees (W : Window σ β φ) (n : Nat) (s : σ) :
    Outcome ε (α × List β) → Except ε (Option α × σ) → Prop
  | more (s' : σ) : W.rest s' = W.rest s → Agrees W n s .more (.ok (none,s'))
  | fail (e : ε) : Agrees W n s (.fail e) (.error e)
  | ok (a : α) (s' : σ) : W.rest s' = W.rest s → W.good s' → n ≤ W.ahead s' →
      Agrees W n s (.ok (a,W.view s')) (.ok (some a,s'))

theorem Agrees.of_rest {n : Nat} {s s' : σ} (hrest : W.rest s' = W.rest s)
    {o : Outcome ε (α × List β)} {r : Except ε (Option α × σ)} (h : Agrees W n s' o r) :
    Agrees W n s o r := by
  cases h with
  | more s'' hr => exact .more s'' (hr.trans hrest)
  | fail e => exact .fail e
  | ok a s'' hr hg hn => exact .ok a s'' (hr.trans hrest) hg hn

def Steady (unit : Nat) (p : Reader β ε α) : Prop :=
  ∀ bs ext, unit ∣ ext.length → (∀ a rest, p bs = .ok (a,rest) → p (bs ++ ext) = .ok (a,rest ++ ext)) ∧
    ∀ e, p bs = .fail e → p (bs ++ ext) = .fail e

structure Reads (W : Window σ β φ) (n n' c : Nat) (m : Attempt σ ε α) (p : Reader β ε α) :
    Prop where
  agrees : ∀ s, W.good s → n ≤ W.ahead s → Agrees W n' s (p (W.view s)) (m s)
  steady : Steady W.unit p
  takes : ∀ bs a rest, p bs = .ok (a,rest) → rest.length + c ≤ bs.length

namespace Reads

variable {n n' k c : Nat} {m : Attempt σ ε α} {p : Reader β ε α} {f : α → Attempt σ ε α'}
  {g : α → Reader β ε α'}

theorem pure (a : α) : Reads W n n 0 (ε := ε) (Pure.pure a) (Pure.pure a) := by
  refine ⟨fun s hg hn => .ok a s rfl hg hn,fun bs ext _ => ⟨?_,?_⟩,?_⟩
  · rintro a' rest ⟨⟩
    rfl
  · rintro e ⟨⟩
  · rintro bs a' rest ⟨⟩
    exact Nat.le_refl _

theorem fail (e : ε) : Reads W n n' c (Attempt.fail e : Attempt σ ε α) (Reader.fail e) := by
  refine ⟨fun s _ _ => .fail e,fun bs ext _ => ⟨?_,?_⟩,?_⟩
  · rintro a rest ⟨⟩
  · rintro e' ⟨⟩
    rfl
  · rintro bs a rest ⟨⟩

theorem steady_bind (hp : Steady k p) (hg : ∀ a,Steady k (g a)) : Steady k (p >>= g) := by
  intro bs ext hk
  obtain ⟨hok,hfail⟩ := hp bs ext hk
  cases h : p bs with
  | more =>
    rw [Reader.bind_more h]
    exact ⟨by rintro a rest ⟨⟩,by rintro e ⟨⟩⟩
  | fail e =>
    rw [Reader.bind_fail h,Reader.bind_fail (hfail e h)]
    exact ⟨by rintro a rest ⟨⟩,fun _ he => he⟩
  | ok a =>
    obtain ⟨a,rest⟩ := a
    rw [Reader.bind_ok h,Reader.bind_ok (hok a rest h)]
    exact hg a rest ext hk

theorem bind_add {d : Nat} (hm : Reads W n k c m p) (hf : ∀ a,Reads W k n' d (f a) (g a)) :
    Reads W n n' (c + d) (m >>= f) (p >>= g) := by
  refine ⟨fun s hgood hn => ?_,steady_bind hm.steady fun a => (hf a).steady,?_⟩
  · have ha := hm.agrees s hgood hn
    change Agrees W n' s (Reader.bind p g (W.view s)) (Attempt.bind m f s)
    simp only [Reader.bind,Attempt.bind]
    generalize p (W.view s) = o at ha ⊢
    generalize m s = r at ha ⊢
    cases ha with
    | more s' hr => exact .more s' hr
    | fail e => exact .fail e
    | ok a s' hr hg hk => exact ((hf a).agrees s' hg hk).of_rest hr
  · intro bs a rest h
    cases hp : p bs with
    | more => rw [Reader.bind_more hp] at h; cases h
    | fail e => rw [Reader.bind_fail hp] at h; cases h
    | ok x =>
      obtain ⟨x,mid⟩ := x
      rw [Reader.bind_ok hp] at h
      have hc := hm.takes bs x mid hp
      have hd := (hf x).takes mid a rest h
      omega

theorem bind (hm : Reads W n k c m p) (hf : ∀ a,Reads W k n' 0 (f a) (g a)) :
    Reads W n n' c (m >>= f) (p >>= g) := bind_add hm hf

theorem bind_later (hm : Reads W n k 0 m p) (hf : ∀ a,Reads W k n' c (f a) (g a)) :
    Reads W n n' c (m >>= f) (p >>= g) := Nat.zero_add c ▸ bind_add hm hf

theorem weaken {N N' C : Nat} (h : Reads W n n' c m p) (hn : n ≤ N) (hn' : N' ≤ n') (hc : C ≤ c) :
    Reads W N N' C m p := by
  refine ⟨fun s hg hN => ?_,h.steady,fun bs a rest hp => ?_⟩
  · have ha := h.agrees s hg (Nat.le_trans hn hN)
    generalize p (W.view s) = o at ha ⊢
    generalize m s = r at ha ⊢
    cases ha with
    | more s' hr => exact .more s' hr
    | fail e => exact .fail e
    | ok a s' hr hg' hk => exact .ok a s' hr hg' (Nat.le_trans hn' hk)
  · have := h.takes bs a rest hp
    omega

end Reads

def Ensures (P : List β → Prop) (p : Reader β ε α) (Q : α → List β → Prop) : Prop :=
  ∀ bs a rest, P bs → p bs = .ok (a,rest) → Q a rest

namespace Ensures

variable {P : List β → Prop} {Q : α → List β → Prop} {R : α' → List β → Prop}
  {p : Reader β ε α} {f : α → Reader β ε α'}

theorem pure {a : α} (h : ∀ bs,P bs → Q a bs) :
    Ensures P (Pure.pure a : Reader β ε α) Q := by
  rintro bs a' rest hbs ⟨⟩
  exact h bs hbs

theorem fail (e : ε) : Ensures P (Reader.fail e : Reader β ε α) Q := by
  rintro bs a rest _ ⟨⟩

theorem bind (hp : Ensures P p Q) (hf : ∀ a,Ensures (Q a) (f a) R) : Ensures P (p >>= f) R := by
  intro bs a rest hbs h
  cases hr : p bs with
  | more => rw [Reader.bind_more hr] at h; cases h
  | fail e => rw [Reader.bind_fail hr] at h; cases h
  | ok x =>
    obtain ⟨x,mid⟩ := x
    rw [Reader.bind_ok hr] at h
    exact hf x mid a rest (hp bs x mid hbs hr) h

theorem any (p : Reader β ε α) : Ensures P p fun _ _ => True := fun _ _ _ _ _ => trivial

end Ensures

variable {σ τ ε α α' γ γ' : Type}

inductive Meets (E : ε → Prop) (M : σ → τ → Prop) (Q : α → γ → σ → τ → Prop) :
    Except ε (Option α × σ) → Except ε (Option γ × τ) → Prop
  | more (s : σ) (t : τ) : M s t → Meets E M Q (.ok (none,s)) (.ok (none,t))
  | fail (e : ε) : E e → Meets E M Q (.error e) (.error e)
  | ok (a : α) (c : γ) (s : σ) (t : τ) : Q a c s t → Meets E M Q (.ok (some a,s)) (.ok (some c,t))

def Lockstep (E : ε → Prop) (M P : σ → τ → Prop) (m : Attempt σ ε α) (m' : Attempt τ ε γ)
    (Q : α → γ → σ → τ → Prop) : Prop :=
  ∀ s t, P s t → Meets E M Q (m s) (m' t)

namespace Lockstep

variable {E : ε → Prop} {M P P' : σ → τ → Prop} {m : Attempt σ ε α} {m' : Attempt τ ε γ}
  {Q Q' : α → γ → σ → τ → Prop} {R : α' → γ' → σ → τ → Prop} {f : α → Attempt σ ε α'}
  {f' : γ → Attempt τ ε γ'}

theorem pure {a : α} {c : γ} (h : ∀ s t,P s t → Q a c s t) :
    Lockstep E M P (Pure.pure a : Attempt σ ε α) (Pure.pure c) Q :=
  fun s t hp => .ok a c s t (h s t hp)

theorem fail {e : ε} (he : E e) : Lockstep E M P (Attempt.fail e : Attempt σ ε α) (Attempt.fail e) Q :=
  fun _ _ _ => .fail e he

theorem bind (hm : Lockstep E M P m m' Q) (hf : ∀ a c,Lockstep E M (Q a c) (f a) (f' c) R) :
    Lockstep E M P (m >>= f) (m' >>= f') R := by
  intro s t hp
  have h := hm s t hp
  change Meets E M R (Attempt.bind m f s) (Attempt.bind m' f' t)
  simp only [Attempt.bind]
  generalize m s = r at h ⊢
  generalize m' t = r' at h ⊢
  cases h with
  | more s' t' hmore => exact .more s' t' hmore
  | fail e he => exact .fail e he
  | ok a c s' t' hq => exact hf a c s' t' hq

theorem weaken (h : Lockstep E M P m m' Q) (hp : ∀ s t,P' s t → P s t)
    (hq : ∀ a c s t,Q a c s t → Q' a c s t) : Lockstep E M P' m m' Q' := by
  intro s t hs
  have hm := h s t (hp s t hs)
  generalize m s = r at hm ⊢
  generalize m' t = r' at hm ⊢
  cases hm with
  | more s' t' hmore => exact .more s' t' hmore
  | fail e he => exact .fail e he
  | ok a c s' t' h => exact .ok a c s' t' (hq a c s' t' h)

theorem bind_same {P₁ : α → σ → τ → Prop} {m' : Attempt τ ε α} {f' : α → Attempt τ ε γ'}
    (hm : Lockstep E M P m m' fun a c s t => a = c ∧ P₁ a s t)
    (hf : ∀ a,Lockstep E M (P₁ a) (f a) (f' a) R) : Lockstep E M P (m >>= f) (m' >>= f') R := by
  refine hm.bind fun a c s t hq => ?_
  obtain ⟨rfl,hp⟩ := hq
  exact hf a s t hp

end Lockstep

namespace Attempt

variable {σ ε α α' : Type}

section bind

variable {m : Attempt σ ε α} {f : α → Attempt σ ε α'} {s s' : σ}

theorem bind_error {e : ε} (h : m s = .error e) : m.bind f s = .error e := by simp only [Attempt.bind,h]

theorem bind_short (h : m s = .ok (none,s')) : m.bind f s = .ok (none,s') := by simp only [Attempt.bind,h]

theorem bind_ok {a : α} (h : m s = .ok (some a,s')) : m.bind f s = f a s' := by simp only [Attempt.bind,h]

end bind

def Triple (good : ε → Prop) (N P : σ → Prop) (m : Attempt σ ε α) (Q : α → σ → Prop) : Prop :=
  ∀ s,P s → match m s with
    | .error e => good e
    | .ok (none,s') => N s'
    | .ok (some a,s') => Q a s'

namespace Triple

variable {good : ε → Prop} {N P P' : σ → Prop} {m : Attempt σ ε α} {Q Q' : α → σ → Prop}

theorem pure (a : α) (h : ∀ s,P s → Q a s) : Triple good N P (Attempt.pure a) Q := h

theorem fail {e : ε} (h : good e) : Triple good N P (Attempt.fail e : Attempt σ ε α) Q := fun _ _ => h

theorem bind {f : α → Attempt σ ε α'} {R : α' → σ → Prop} (hm : Triple good N P m Q)
    (hf : ∀ a,Triple good N (Q a) (f a) R) : Triple good N P (m.bind f) R := by
  intro s hs
  have h := hm s hs
  cases hr : m s with
  | error e =>
    rw [hr] at h
    rw [bind_error hr]
    exact h
  | ok r =>
    obtain ⟨a,s'⟩ := r
    rw [hr] at h
    cases a with
    | none =>
      rw [bind_short hr]
      exact h
    | some a =>
      rw [bind_ok hr]
      exact hf a s' h

theorem weaken (h : Triple good N P m Q) (hp : ∀ s,P' s → P s) (hq : ∀ a s,Q a s → Q' a s) :
    Triple good N P' m Q' := by
  intro s hs
  have h := h s (hp s hs)
  cases hr : m s with
  | error e =>
    rw [hr] at h
    exact h
  | ok r =>
    obtain ⟨a,s'⟩ := r
    rw [hr] at h
    cases a with
    | none => exact h
    | some a => exact hq a s' h

end Triple

end Attempt
