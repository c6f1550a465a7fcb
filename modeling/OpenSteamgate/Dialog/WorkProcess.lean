import Mathlib.Data.List.Nodup
import OpenSteamgate.Dialog.Step

namespace OpenSteamgate.Dialog

variable {T W : Type} [DecidableEq T] {dialog : T → Bool} {s s' : Host T W} {t u : T} {p : Phase}
  {a : Action T W} {as : List (Action T W)} {next : Then} {e : Ending}

def Phase.active : Phase → Bool
  | .starting | .working | .asking | .committing | .rolling | .closing => true
  | .absent | .queued _ | .sleeping _ | .finished => false

inductive Moves (s s' : Host T W) : Prop
  | stays (t : T) (p : Phase) : p.active = true →
      ((s.phase t).active = true ∨ (∃ next,s.phase t = .queued next) ∧ s.lock.holder = some t) →
      s'.lock = s.lock → s'.phase = Function.update s.phase t p → Moves s s'
  | acquires (t : T) (next : Then) : (s.phase t).active = false → (∀ next,s.phase t ≠ .queued next) →
      s.phase t ≠ .finished → s'.lock = s.lock.acquire t →
      s'.phase = Function.update s.phase t (.queued next) → Moves s s'
  | releases (t : T) (p : Phase) : (s.phase t).active = true → p = .finished ∨ (∃ c,p = .sleeping c) →
      s'.lock = s.lock.release → s'.phase = Function.update s.phase t p → Moves s s'
  | leaks (t : T) : (s.phase t).active = true → s'.lock = s.lock →
      s'.phase = Function.update s.phase t .finished → Moves s s'

def Action.clean : Action T W → Bool
  | .closed _ e => !e.raised
  | _ => true

section fields

@[simp] theorem at'_phase : (s.at' t p).phase = Function.update s.phase t p := rfl

@[simp] theorem commit_lock : (s.commit t e).lock = s.lock := by
  unfold Host.commit
  dsimp only
  split <;> rfl

@[simp] theorem commit_phase : (s.commit t e).phase = s.phase := by
  unfold Host.commit
  dsimp only
  split <;> rfl

@[simp] theorem rollback_lock : (s.rollback t e).lock = s.lock := by
  unfold Host.rollback
  dsimp only
  split <;> rfl

@[simp] theorem rollback_phase : (s.rollback t e).phase = s.phase := by
  unfold Host.rollback
  dsimp only
  split <;> rfl

end fields

theorem stays_active (hp : p.active = true) (h : (s.phase t).active = true) (hlock : s'.lock = s.lock)
    (hphase : s'.phase = Function.update s.phase t p) : Moves s s' :=
  .stays t p hp (.inl h) hlock hphase

theorem stays_put (h : (s.phase t).active = true) (hlock : s'.lock = s.lock)
    (hphase : s'.phase = s.phase) : Moves s s' :=
  .stays t (s.phase t) h (.inl h) hlock (hphase.trans (Function.update_eq_self t s.phase).symm)

omit [DecidableEq T] in
theorem active_of (h : s.phase t = p) (hp : p.active = true) : (s.phase t).active = true := by
  rw [h,hp]

omit [DecidableEq T] in
theorem active_either (h : s.phase t = .working ∨ s.phase t = .asking) : (s.phase t).active = true := by
  rcases h with h | h
  · exact active_of h rfl
  · exact active_of h rfl

theorem next_active (next : Then) : next.phase.active = true := by
  cases next <;> rfl

theorem act_moves (h : Enabled dialog s a) :
    Moves s (s.act dialog a) ∧ (a.clean = true → ∀ t,(s.phase t).active = true →
      (s.act dialog a).phase t = .finished → (s.act dialog a).lock = s.lock.release) := by
  have hquiet : ∀ {x : Host T W} {t : T} {p : Phase},x.phase = Function.update s.phase t p →
      p ≠ .finished → ∀ u,(s.phase u).active = true → x.phase u = .finished →
        x.lock = s.lock.release := by
    intro x t p hphase hp u hu hfinished
    rw [hphase,Function.update_apply] at hfinished
    split at hfinished
    · exact absurd hfinished hp
    · rw [hfinished] at hu
      exact absurd hu Bool.false_ne_true
  have hsame : ∀ {x : Host T W},x.phase = s.phase → ∀ u,(s.phase u).active = true →
      x.phase u = .finished → x.lock = s.lock.release := by
    intro x hphase u hu hfinished
    rw [hphase] at hfinished
    rw [hfinished] at hu
    exact absurd hu Bool.false_ne_true
  cases a with
  | arrive t =>
    have hphase : s.phase t = .absent := h
    refine ⟨.acquires t .start (by rw [hphase]; rfl) (by rw [hphase]; rintro _ ⟨⟩)
      (by rw [hphase]; rintro ⟨⟩) rfl rfl,fun _ => hquiet rfl (by rintro ⟨⟩)⟩
  | granted t =>
    obtain ⟨next,hphase,hholder⟩ := h
    have hact : s.act dialog (.granted t) = s.at' t next.phase := by
      rw [Host.act,hphase]
    rw [hact]
    refine ⟨.stays t _ (next_active next) (.inr ⟨⟨next,hphase⟩,hholder⟩) rfl rfl,
      fun _ => hquiet rfl ?_⟩
    cases next <;> rintro ⟨⟩
  | rollInRaised t =>
    exact ⟨.stays t .working rfl (.inr ⟨⟨_,h.1⟩,h.2⟩) rfl rfl,fun _ => hquiet rfl (by rintro ⟨⟩)⟩
  | started t raised =>
    cases raised with
    | true =>
      exact ⟨stays_active (p := .closing) rfl (active_of h rfl) rfl rfl,fun _ => hquiet rfl (by rintro ⟨⟩)⟩
    | false =>
      exact ⟨stays_active (p := .working) rfl (active_of h rfl) rfl rfl,fun _ => hquiet rfl (by rintro ⟨⟩)⟩
  | write t w => exact ⟨stays_put (active_either h) rfl rfl,fun _ => hsame rfl⟩
  | register t => exact ⟨stays_put (active_either h.2) rfl rfl,fun _ => hsame rfl⟩
  | commitWork t e =>
    exact ⟨stays_put (active_of h.1 rfl) commit_lock commit_phase,fun _ => hsame commit_phase⟩
  | rollbackWork t e =>
    exact ⟨stays_put (active_of h.1 rfl) rollback_lock rollback_phase,fun _ => hsame rollback_phase⟩
  | ask t =>
    exact ⟨stays_active (p := .asking) rfl (active_of h rfl) rfl rfl,fun _ => hquiet rfl (by rintro ⟨⟩)⟩
  | answer t =>
    exact ⟨stays_active (p := .working) rfl (active_of h rfl) rfl rfl,fun _ => hquiet rfl (by rintro ⟨⟩)⟩
  | wait t e =>
    have hactive := active_either h.1
    cases hreturns : e.returns with
    | true =>
      have hact : s.act dialog (.wait t e) =
          (s.commit t e).release t (.sleeping (s.phase t = .asking)) := by
        simp only [Host.act,hreturns,if_true]
      rw [hact]
      have hphase : ((s.commit t e).release t (.sleeping (s.phase t = .asking))).phase =
          Function.update s.phase t (.sleeping (s.phase t = .asking)) := by
        rw [← commit_phase (s := s) (t := t) (e := e)]
        rfl
      exact ⟨.releases t _ hactive (.inr ⟨_,rfl⟩) (congrArg Turnstile.release commit_lock) hphase,
        fun _ => hquiet hphase (by rintro ⟨⟩)⟩
    | false =>
      have hact : s.act dialog (.wait t e) = (s.commit t e).at' t .working := by
        simp only [Host.act,hreturns,Bool.false_eq_true,if_false]
      rw [hact]
      have hphase : ((s.commit t e).at' t .working).phase = Function.update s.phase t .working := by
        rw [at'_phase,commit_phase]
      exact ⟨stays_active rfl hactive commit_lock hphase,fun _ => hquiet hphase (by rintro ⟨⟩)⟩
  | wake t again =>
    obtain ⟨condition,hphase,-⟩ := h
    refine ⟨.acquires t _ (by rw [hphase]; rfl) (by rw [hphase]; rintro _ ⟨⟩)
      (by rw [hphase]; rintro ⟨⟩) rfl rfl,fun _ => hquiet rfl (by rintro ⟨⟩)⟩
  | returned t =>
    have hphase : s.phase t = .working := h
    rw [Host.act]
    cases dialog t with
    | true => exact ⟨stays_active (p := .committing) rfl (active_of hphase rfl) rfl rfl,
        fun _ => hquiet rfl (by rintro ⟨⟩)⟩
    | false => exact ⟨stays_active (p := .closing) rfl (active_of hphase rfl) rfl rfl,
        fun _ => hquiet rfl (by rintro ⟨⟩)⟩
  | raised t =>
    have hphase : s.phase t = .working := h
    rw [Host.act]
    cases dialog t with
    | true => exact ⟨stays_active (p := .rolling) rfl (active_of hphase rfl) rfl rfl,
        fun _ => hquiet rfl (by rintro ⟨⟩)⟩
    | false => exact ⟨stays_active (p := .closing) rfl (active_of hphase rfl) rfl rfl,
        fun _ => hquiet rfl (by rintro ⟨⟩)⟩
  | committed t e =>
    have hphase : ∀ p,((s.commit t e).at' t p).phase = Function.update s.phase t p := by
      intro p
      rw [at'_phase,commit_phase]
    rw [Host.act]
    cases e.returns with
    | true => exact ⟨stays_active (p := .closing) rfl (active_of h.1 rfl) commit_lock (hphase _),
        fun _ => hquiet (hphase _) (by rintro ⟨⟩)⟩
    | false => exact ⟨stays_active (p := .rolling) rfl (active_of h.1 rfl) commit_lock (hphase _),
        fun _ => hquiet (hphase _) (by rintro ⟨⟩)⟩
  | rolledBack t e =>
    have hphase : ((s.rollback t e).at' t .closing).phase = Function.update s.phase t .closing := by
      rw [at'_phase,rollback_phase]
    exact ⟨stays_active rfl (active_of h.1 rfl) rollback_lock hphase,
      fun _ => hquiet hphase (by rintro ⟨⟩)⟩
  | closed t e =>
    have hactive : (s.phase t).active = true := active_of h.1 rfl
    cases hraised : e.raised with
    | true =>
      have hact : s.act dialog (.closed t e) = (s.endLuw t e).at' t .finished := by
        simp only [Host.act,hraised,if_true]
      rw [hact]
      refine ⟨.leaks t hactive rfl rfl,fun hclean => ?_⟩
      rw [Action.clean,hraised] at hclean
      exact absurd hclean Bool.false_ne_true
    | false =>
      have hact : s.act dialog (.closed t e) = (s.endLuw t e).release t .finished := by
        simp only [Host.act,hraised,Bool.false_eq_true,if_false]
      rw [hact]
      exact ⟨.releases t .finished hactive (.inl rfl) rfl rfl,fun _ _ _ _ => rfl⟩

structure Held (s : Host T W) : Prop where
  fair : s.lock.Fair
  nodup : s.lock.waiting.Nodup
  waits : ∀ t ∈ s.lock.waiting,s.lock.holder ≠ some t ∧ ∃ next,s.phase t = .queued next
  active : ∀ t,(s.phase t).active = true → s.lock.holder = some t
  queued : ∀ t next,s.phase t = .queued next → s.lock.holder = some t ∨ t ∈ s.lock.waiting
  holds : ∀ t,s.lock.holder = some t →
    (s.phase t).active = true ∨ (∃ next,s.phase t = .queued next) ∨ s.phase t = .finished

omit [DecidableEq T] in
theorem held_init : Held ({} : Host T W) where
  fair := Turnstile.fair_init
  nodup := List.nodup_nil
  waits := List.forall_mem_nil _
  active := fun _ h => absurd h Bool.false_ne_true
  queued := fun _ _ h => by cases h
  holds := fun _ h => by cases h

theorem queued_inactive (hp : p.active = true) (h : p = .queued next) : False := by
  rw [h] at hp
  exact Bool.false_ne_true hp

namespace Held

theorem stays (hs : Held s) (hp : p.active = true) (hholder : s.lock.holder = some t)
    (hlock : s'.lock = s.lock) (hphase : s'.phase = Function.update s.phase t p) : Held s' := by
  refine ⟨hlock ▸ hs.fair,hlock ▸ hs.nodup,fun u hu => ?_,fun u hu => ?_,fun u next hu => ?_,
    fun u hu => ?_⟩
  · rw [hlock] at hu ⊢
    obtain ⟨hne,next,hqueued⟩ := hs.waits u hu
    refine ⟨hne,next,?_⟩
    rw [hphase,Function.update_of_ne fun heq => hne (by rw [heq,hholder]),hqueued]
  · rw [hphase,Function.update_apply] at hu
    rw [hlock]
    split at hu
    · rename_i heq
      rw [heq,hholder]
    · exact hs.active u hu
  · rw [hphase,Function.update_apply] at hu
    rw [hlock]
    split at hu
    · exact (queued_inactive hp hu).elim
    · exact hs.queued u next hu
  · rw [hlock,hholder] at hu
    obtain rfl := Option.some.inj hu
    rw [hphase,Function.update_self]
    exact .inl hp

theorem acquires (hs : Held s) (hinactive : (s.phase t).active = false)
    (hqueued : ∀ next,s.phase t ≠ .queued next) (hfinished : s.phase t ≠ .finished)
    (hlock : s'.lock = s.lock.acquire t) (hphase : s'.phase = Function.update s.phase t (.queued next)) :
    Held s' := by
  have hnot : s.lock.holder ≠ some t := by
    intro hholder
    rcases hs.holds t hholder with h | ⟨next,h⟩ | h
    · exact Bool.false_ne_true (hinactive.symm.trans h)
    · exact hqueued next h
    · exact hfinished h
  have hout : t ∉ s.lock.waiting := fun ht => (hs.waits t ht).2.elim fun next h => hqueued next h
  have hself : s'.phase t = .queued next := by rw [hphase,Function.update_self]
  have hother : ∀ {u},u ≠ t → s'.phase u = s.phase u := fun hne => by
    rw [hphase,Function.update_of_ne hne]
  cases hholder : s.lock.holder with
  | none =>
    rw [Turnstile.acquire_free hholder] at hlock
    have hempty := hs.fair.idle hholder
    have hnobody : ∀ u,u ≠ t → (s.phase u).active = false ∧ ∀ next,s.phase u ≠ .queued next := by
      intro u _
      constructor
      · rw [← Bool.not_eq_true]
        exact fun hu => Option.some_ne_none u ((hs.active u hu).symm.trans hholder)
      · intro next hu
        rcases hs.queued u next hu with h | h
        · exact Option.some_ne_none u (h.symm.trans hholder)
        · rw [hempty] at h
          cases h
    refine ⟨?_,?_,fun u hu => ?_,fun u hu => ?_,fun u next' hu => ?_,fun u hu => ?_⟩
    · rw [hlock,← Turnstile.acquire_free hholder]
      exact hs.fair.acquire t
    · rw [hlock]
      exact hs.nodup
    · rw [hlock] at hu
      change u ∈ s.lock.waiting at hu
      rw [hempty] at hu
      cases hu
    · rw [hlock]
      by_cases hut : u = t
      · rw [hut]
      · rw [hother hut,(hnobody u hut).1] at hu
        exact absurd hu Bool.false_ne_true
    · rw [hlock]
      by_cases hut : u = t
      · exact .inl (congrArg some hut.symm)
      · rw [hother hut] at hu
        exact absurd hu ((hnobody u hut).2 next')
    · rw [hlock] at hu
      obtain rfl := Option.some.inj hu
      exact .inr (.inl ⟨next,hself⟩)
  | some v =>
    rw [Turnstile.acquire_held hholder] at hlock
    refine ⟨?_,?_,fun u hu => ?_,fun u hu => ?_,fun u next' hu => ?_,fun u hu => ?_⟩
    · rw [hlock,← Turnstile.acquire_held hholder]
      exact hs.fair.acquire t
    · rw [hlock]
      exact List.nodup_append.mpr ⟨hs.nodup,List.nodup_singleton t,fun u hu w hw heq => by
        rw [List.mem_singleton.mp hw] at heq
        exact hout (heq ▸ hu)⟩
    · rw [hlock] at hu ⊢
      rcases List.mem_append.mp hu with hu | hu
      · obtain ⟨hne,next',h⟩ := hs.waits u hu
        refine ⟨hne,next',?_⟩
        rw [hother fun heq => hout (heq ▸ hu),h]
      · obtain rfl := List.mem_singleton.mp hu
        exact ⟨hnot,next,hself⟩
    · rw [hlock]
      by_cases hut : u = t
      · rw [hut,hself] at hu
        exact absurd hu Bool.false_ne_true
      · rw [hother hut] at hu
        exact hs.active u hu
    · rw [hlock]
      by_cases hut : u = t
      · exact .inr (List.mem_append_right _ (List.mem_singleton.mpr hut))
      · rw [hother hut] at hu
        rcases hs.queued u next' hu with h | h
        · exact .inl h
        · exact .inr (List.mem_append_left _ h)
    · rw [hlock] at hu
      change s.lock.holder = some u at hu
      rw [hother fun heq => hnot (heq ▸ hu)]
      exact hs.holds u hu

theorem releases (hs : Held s) (hactive : (s.phase t).active = true)
    (hp : p.active = false ∧ ∀ next,p ≠ .queued next) (hlock : s'.lock = s.lock.release)
    (hphase : s'.phase = Function.update s.phase t p) : Held s' := by
  have hholder := hs.active t hactive
  have hself : s'.phase t = p := by rw [hphase,Function.update_self]
  have hother : ∀ {u},u ≠ t → s'.phase u = s.phase u := fun hne => by
    rw [hphase,Function.update_of_ne hne]
  have hnone : ∀ u,(s'.phase u).active = false := by
    intro u
    by_cases hut : u = t
    · rw [hut,hself,hp.1]
    · rw [hother hut,← Bool.not_eq_true]
      exact fun hu => hut (Option.some.inj ((hs.active u hu).symm.trans hholder))
  have hqueue : ∀ u next,s'.phase u = .queued next → u ∈ s.lock.waiting := by
    intro u next hu
    by_cases hut : u = t
    · rw [hut,hself] at hu
      exact absurd hu (hp.2 next)
    · rw [hother hut] at hu
      exact (hs.queued u next hu).resolve_left fun h => hut (Option.some.inj (h.symm.trans hholder))
  have hwaits : ∀ u ∈ s.lock.waiting,∃ next,s'.phase u = .queued next := by
    intro u hu
    obtain ⟨hne,next,h⟩ := hs.waits u hu
    refine ⟨next,?_⟩
    rw [hother fun heq => hne (by rw [heq,hholder]),h]
  cases hwaiting : s.lock.waiting with
  | nil =>
    rw [Turnstile.release_last hwaiting] at hlock
    rw [hwaiting] at hqueue
    refine ⟨?_,?_,fun u hu => ?_,fun u hu => ?_,fun u next hu => ?_,fun u hu => ?_⟩
    · rw [hlock,← Turnstile.release_last hwaiting]
      exact hs.fair.release
    · rw [hlock]
      exact hs.nodup
    · rw [hlock] at hu
      change u ∈ s.lock.waiting at hu
      rw [hwaiting] at hu
      cases hu
    · exact absurd ((hnone u).symm.trans hu) Bool.false_ne_true
    · cases hqueue u next hu
    · rw [hlock] at hu
      cases hu
  | cons v rest =>
    rw [Turnstile.release_next hwaiting] at hlock
    rw [hwaiting] at hqueue hwaits
    have hnodup := hs.nodup
    rw [hwaiting] at hnodup
    obtain ⟨hv,hrest⟩ := List.nodup_cons.mp hnodup
    refine ⟨?_,?_,fun u hu => ?_,fun u hu => ?_,fun u next hu => ?_,fun u hu => ?_⟩
    · rw [hlock,← Turnstile.release_next hwaiting]
      exact hs.fair.release
    · rw [hlock]
      exact hrest
    · rw [hlock] at hu ⊢
      refine ⟨fun heq => ?_,hwaits u (List.mem_cons_of_mem _ hu)⟩
      obtain rfl := Option.some.inj heq
      exact hv hu
    · exact absurd ((hnone u).symm.trans hu) Bool.false_ne_true
    · rw [hlock]
      rcases List.mem_cons.mp (hqueue u next hu) with rfl | h
      · exact .inl rfl
      · exact .inr h
    · rw [hlock] at hu
      obtain rfl := Option.some.inj hu
      exact .inr (.inl (hwaits v (List.mem_cons_self ..)))

theorem leaks (hs : Held s) (hactive : (s.phase t).active = true) (hlock : s'.lock = s.lock)
    (hphase : s'.phase = Function.update s.phase t .finished) : Held s' := by
  have hholder := hs.active t hactive
  have hself : s'.phase t = .finished := by rw [hphase,Function.update_self]
  have hother : ∀ {u},u ≠ t → s'.phase u = s.phase u := fun hne => by
    rw [hphase,Function.update_of_ne hne]
  refine ⟨hlock ▸ hs.fair,hlock ▸ hs.nodup,fun u hu => ?_,fun u hu => ?_,fun u next hu => ?_,
    fun u hu => ?_⟩
  · rw [hlock] at hu ⊢
    obtain ⟨hne,next,h⟩ := hs.waits u hu
    refine ⟨hne,next,?_⟩
    rw [hother fun heq => hne (by rw [heq,hholder]),h]
  · by_cases hut : u = t
    · rw [hut,hself] at hu
      exact absurd hu Bool.false_ne_true
    · rw [hother hut] at hu
      rw [hlock]
      exact hs.active u hu
  · by_cases hut : u = t
    · rw [hut,hself] at hu
      cases hu
    · rw [hother hut] at hu
      rw [hlock]
      exact hs.queued u next hu
  · rw [hlock,hholder] at hu
    obtain rfl := Option.some.inj hu
    exact .inr (.inr hself)

theorem moves (hs : Held s) (h : Moves s s') : Held s' := by
  cases h with
  | stays t p hp ht hlock hphase =>
    refine hs.stays hp ?_ hlock hphase
    rcases ht with ht | ht
    · exact hs.active t ht
    · exact ht.2
  | acquires t next hinactive hqueued hfinished hlock hphase =>
    exact hs.acquires hinactive hqueued hfinished hlock hphase
  | releases t p hactive hp hlock hphase =>
    refine hs.releases hactive ?_ hlock hphase
    rcases hp with rfl | ⟨c,rfl⟩
    · exact ⟨rfl,by rintro _ ⟨⟩⟩
    · exact ⟨rfl,by rintro _ ⟨⟩⟩
  | leaks t hactive hlock hphase => exact hs.leaks hactive hlock hphase

end Held

theorem run_held (hrun : Run dialog {} as s) : Held s := by
  induction hrun with
  | nil => exact held_init
  | snoc hrun henabled ih => exact ih.moves (act_moves henabled).1

end OpenSteamgate.Dialog
