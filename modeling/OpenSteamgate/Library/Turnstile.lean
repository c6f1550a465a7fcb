import Mathlib.Data.List.Basic

-- a lock that is handed on in the order in which it was asked for
structure Turnstile (T : Type) where
  holder : Option T := none
  waiting : List T := []
  acquired : List T := []
  granted : List T := []
  released : List T := []

namespace Turnstile

variable {T : Type} {l : Turnstile T} {t u : T}

def acquire (l : Turnstile T) (t : T) : Turnstile T :=
  match l.holder with
  | none => {l with holder := some t,acquired := l.acquired ++ [t],granted := l.granted ++ [t]}
  | some _ => {l with waiting := l.waiting ++ [t],acquired := l.acquired ++ [t]}

def release (l : Turnstile T) : Turnstile T :=
  match l.waiting with
  | [] => {l with holder := none,released := l.released ++ l.holder.toList}
  | u :: rest => {l with
      holder := some u,waiting := rest,granted := l.granted ++ [u]
      released := l.released ++ l.holder.toList}

structure Fair (l : Turnstile T) : Prop where
  order : l.granted ++ l.waiting = l.acquired
  matched : l.granted = l.released ++ l.holder.toList
  idle : l.holder = none → l.waiting = []

theorem fair_init : Fair ({} : Turnstile T) := ⟨rfl,rfl,fun _ => rfl⟩

theorem acquire_free (h : l.holder = none) (t : T) : l.acquire t =
    {l with holder := some t,acquired := l.acquired ++ [t],granted := l.granted ++ [t]} := by
  rw [acquire,h]

theorem acquire_held (h : l.holder = some u) (t : T) :
    l.acquire t = {l with waiting := l.waiting ++ [t],acquired := l.acquired ++ [t]} := by
  rw [acquire,h]

theorem release_last (h : l.waiting = []) :
    l.release = {l with holder := none,released := l.released ++ l.holder.toList} := by
  rw [release,h]

theorem release_next {rest : List T} (h : l.waiting = u :: rest) : l.release = {l with
      holder := some u,waiting := rest,granted := l.granted ++ [u]
      released := l.released ++ l.holder.toList} := by
  rw [release,h]

theorem Fair.acquire (h : Fair l) (t : T) : Fair (l.acquire t) := by
  cases hl : l.holder with
  | none =>
    rw [acquire_free hl]
    have hmatched := h.matched
    rw [hl] at hmatched
    refine ⟨?_,?_,fun hno => by cases hno⟩
    · change l.granted ++ [t] ++ l.waiting = l.acquired ++ [t]
      rw [← h.order,h.idle hl,List.append_nil,List.append_nil]
    · change l.granted ++ [t] = l.released ++ [t]
      rw [hmatched,Option.toList_none,List.append_nil]
  | some u =>
    rw [acquire_held hl]
    refine ⟨?_,h.matched,fun hno => absurd (hl.symm.trans hno) (Option.some_ne_none u)⟩
    change l.granted ++ (l.waiting ++ [t]) = l.acquired ++ [t]
    rw [← List.append_assoc,h.order]

theorem Fair.release (h : Fair l) : Fair l.release := by
  cases hl : l.waiting with
  | nil =>
    rw [release_last hl]
    refine ⟨h.order,?_,fun _ => hl⟩
    change l.granted = (l.released ++ l.holder.toList) ++ []
    rw [List.append_nil,h.matched]
  | cons u rest =>
    rw [release_next hl]
    refine ⟨?_,?_,fun hno => by cases hno⟩
    · change l.granted ++ [u] ++ rest = l.acquired
      rw [List.append_assoc,List.singleton_append,← hl,h.order]
    · change l.granted ++ [u] = l.released ++ l.holder.toList ++ [u]
      rw [h.matched]

end Turnstile
