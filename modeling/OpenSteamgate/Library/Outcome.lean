import Mathlib.Data.List.Basic

inductive Fault (ε : Type) where
  | raised (e : ε)
  | overflow
  | range
  deriving DecidableEq

abbrev Checked (ε α : Type) := Except (Fault ε) α

namespace Checked

variable {ε α α' β : Type}

def raise (e : ε) : Checked ε α := .error (.raised e)

def int (n : Nat) : Checked ε Nat := if n < 2147483648 then .ok n else .error .overflow

def slice (data : List β) (off len : Nat) : Checked ε (List β) :=
  if off + len ≤ data.length then .ok ((data.drop off).take len) else .error .range

def Sound : Checked ε α → Prop
  | .ok _ => True
  | .error (.raised _) => True
  | .error _ => False

theorem ok_bind (a : α) (f : α → Checked ε α') : ((Except.ok a : Checked ε α) >>= f) = f a := rfl

theorem int_ok {n : Nat} (h : n < 2147483648) : (int n : Checked ε Nat) = .ok n := if_pos h

theorem slice_ok {data : List β} {off len : Nat} (h : off + len ≤ data.length) :
    (slice data off len : Checked ε (List β)) = .ok ((data.drop off).take len) := if_pos h

theorem Sound.bind {m : Checked ε α} {f : α → Checked ε α'} (hm : m.Sound)
    (hf : ∀ a,m = .ok a → (f a).Sound) : (m >>= f).Sound := by
  cases m with
  | ok a => exact hf a rfl
  | error e =>
    cases e with
    | raised e => trivial
    | overflow => exact hm
    | range => exact hm

end Checked

variable {ε α α' β β' : Type}

theorem bind_eq_ok {m : Except ε α} {f : α → Except ε β} {b : β} (h : m >>= f = .ok b) :
    ∃ a,m = .ok a ∧ f a = .ok b := by
  cases m with
  | error e => exact nomatch h
  | ok a => exact ⟨a,rfl,h⟩

theorem ok_pair {a a' : α} {b b' : β} (h : (.ok (a,b) : Except ε (α × β)) = .ok (a',b')) : a = a' ∧ b = b' :=
  Prod.mk.inj (Except.ok.inj h)

theorem map_eq_ok {m : Except ε α} {f : α → β} {b : β} (h : m.map f = .ok b) : ∃ a,m = .ok a ∧ f a = b := by
  cases m with
  | error e => exact nomatch h
  | ok a => exact ⟨a,rfl,Except.ok.inj h⟩

def Yields (m : Except ε α) (Q : α → Prop) : Prop := ∀ a, m = .ok a → Q a

def Both (m : Except ε α) (m' : Except ε β) (R : α → β → Prop) : Prop :=
  ∀ a b, m = .ok a → m' = .ok b → R a b

namespace Yields

variable {m : Except ε α} {f : α → Except ε α'} {Q Q' : α → Prop} {S : α' → Prop}

theorem ok {a : α} (h : Q a) : Yields (.ok a : Except ε α) Q := by
  intro b hb
  cases hb
  exact h

theorem error {e : ε} : Yields (.error e : Except ε α) Q := nofun

theorem bind (hm : Yields m Q) (hf : ∀ a,Q a → Yields (f a) S) : Yields (m >>= f) S := by
  intro b hb
  cases hret : m with
  | error e => rw [hret] at hb; exact nomatch hb
  | ok a => rw [hret] at hb; exact hf a (hm a hret) b hb

theorem ite {c : Prop} [Decidable c] {m' : Except ε α} (h : c → Yields m Q)
    (h' : ¬c → Yields m' Q) : Yields (if c then m else m') Q := by
  split
  · exact h ‹_›
  · exact h' ‹_›

theorem mono (hm : Yields m Q) (h : ∀ a,Q a → Q' a) : Yields m Q' := fun a ha => h a (hm a ha)

end Yields

namespace Both

variable {m : Except ε α} {m' : Except ε β} {f : α → Except ε α'} {f' : β → Except ε β'}
  {R R' : α → β → Prop} {S : α' → β' → Prop}

end Both

namespace Attempts

variable {ε σ α : Type}

inductive Turn (σ α : Type) where
  | next (s : σ)
  | done (a : α)

@[grind =] def loop (turn : σ → Except ε (Turn σ α)) : Nat → σ → Option (Except ε α)
  | 0,_ => none
  | fuel + 1,s =>
    match turn s with
    | .error e => some (.error e)
    | .ok (.done a) => some (.ok a)
    | .ok (.next s) => loop turn fuel s

variable {turn : σ → Except ε (Turn σ α)} {s s' : σ} {a : α} {fuel : Nat} {r : Except ε α}

theorem loop_next (h : turn s = .ok (.next s')) : loop turn (fuel + 1) s = loop turn fuel s' := by
  rw [loop,h]

theorem loop_done (h : turn s = .ok (.done a)) : loop turn (fuel + 1) s = some (.ok a) := by
  rw [loop,h]

theorem loop_ends (size : σ → Nat) (hless : ∀ s s',turn s = .ok (.next s') → size s' < size s)
    (h : size s < fuel) : ∃ r,loop turn fuel s = some r := by
  induction fuel generalizing s with
  | zero => exact absurd h (Nat.not_lt_zero _)
  | succ fuel ih =>
    rw [loop]
    cases hturn : turn s with
    | error e => exact ⟨_,rfl⟩
    | ok t =>
      cases t with
      | done a => exact ⟨_,rfl⟩
      | next s' => exact ih (Nat.lt_of_lt_of_le (hless s s' hturn) (Nat.le_of_lt_succ h))

theorem loop_rule (I : σ → Prop) (Q : Except ε α → Prop)
    (herror : ∀ s e,I s → turn s = .error e → Q (.error e))
    (hdone : ∀ s a,I s → turn s = .ok (.done a) → Q (.ok a))
    (hnext : ∀ s s',I s → turn s = .ok (.next s') → I s')
    (hs : I s) (h : loop turn fuel s = some r) : Q r := by
  induction fuel generalizing s with
  | zero => exact nomatch h
  | succ fuel ih =>
    rw [loop] at h
    cases hturn : turn s with
    | error e =>
      rw [hturn] at h
      obtain rfl := Option.some.inj h
      exact herror s e hs hturn
    | ok t =>
      cases t with
      | done a =>
        rw [hturn] at h
        obtain rfl := Option.some.inj h
        exact hdone s a hs hturn
      | next s' =>
        rw [hturn] at h
        exact ih (hnext s s' hs hturn) h

end Attempts
