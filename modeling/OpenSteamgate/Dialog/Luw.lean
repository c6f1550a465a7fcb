import OpenSteamgate.Dialog.Release

namespace OpenSteamgate.Dialog

variable {T W : Type}

structure Account (W : Type) where
  kept : List W := []
  opened : List W := []

def Account.enter (c : Account W) : Act W → Account W
  | .write w => {c with opened := c.opened ++ [w]}
  | .commit => ⟨c.kept ++ c.opened,[]⟩
  | .rollback => {c with opened := []}

def account (history : List (Act W)) : Account W := history.foldl Account.enter {}

section account

variable {xs ys : List (Act W)} {c : Account W}

theorem account_append (x : Act W) : account (xs ++ [x]) = (account xs).enter x :=
  List.foldl_concat ..

theorem enter_kept (x : Act W) (h : x ≠ .commit) : (c.enter x).kept = c.kept := by
  cases x with
  | write => rfl
  | commit => exact absurd rfl h
  | rollback => rfl

theorem kept_append (h : Act.commit ∉ ys) : (account (xs ++ ys)).kept = (account xs).kept := by
  rw [account,account,List.foldl_append]
  generalize xs.foldl Account.enter {} = c
  induction ys generalizing c with
  | nil => rfl
  | cons y ys ih =>
    have hy : y ≠ .commit := fun heq => h (heq ▸ List.mem_cons_self ..)
    rw [List.foldl_cons,ih fun hmem => h (List.mem_cons_of_mem _ hmem),enter_kept y hy]

end account

variable [DecidableEq T] {s s' : Host T W} {t u : T} {a : Action T W} {as : List (Action T W)}
  {e : Ending} {p : Phase}

def ofStep (t : T) (xs : List (T × W)) : List W :=
  xs.filterMap fun x => if x.1 = t then some x.2 else none

@[simp] theorem ofStep_append (xs ys : List (T × W)) :
    ofStep t (xs ++ ys) = ofStep t xs ++ ofStep t ys := List.filterMap_append ..

theorem ofStep_self (w : W) : ofStep t [(t,w)] = [w] := by
  simp [ofStep]

theorem ofStep_other (h : u ≠ t) (w : W) : ofStep u [(t,w)] = [] := by
  simp [ofStep,h.symm]

theorem ofStep_nil {xs : List (T × W)} (h : ∀ t,ofStep t xs = []) : xs = [] := by
  cases xs with
  | nil => rfl
  | cons x xs =>
    have hx := h x.1
    simp [ofStep] at hx

def Phase.mayWrite : Phase → Bool
  | .working | .asking | .committing | .rolling => true
  | _ => false

def Action.succeeds : Action T W → Bool
  | .commitWork _ e | .rollbackWork _ e | .wait _ e | .committed _ e | .rolledBack _ e => e.succeeds
  | _ => true

inductive Does (s s' : Host T W) : Prop
  | nothing : s'.committed = s.committed → s'.pending = s.pending → s'.history = s.history →
      (∀ u,(s.phase u).mayWrite = true → (s'.phase u).mayWrite = true) → Does s s'
  | writes (t : T) (w : W) : (s.phase t).mayWrite = true → s'.committed = s.committed →
      s'.pending = s.pending ++ [(t,w)] →
      s'.history = Function.update s.history t (s.history t ++ [.write w]) → s'.phase = s.phase → Does s s'
  | commits (t : T) : (s.phase t).mayWrite = true → s'.committed = s.committed ++ s.pending →
      s'.pending = [] → s'.history = Function.update s.history t (s.history t ++ [.commit]) → Does s s'
  | rollsBack (t : T) : (s.phase t).mayWrite = true → s'.committed = s.committed → s'.pending = [] →
      s'.history = Function.update s.history t (s.history t ++ [.rollback]) → Does s s'

theorem does_nothing (hphase : s'.phase = Function.update s.phase t p)
    (hp : (s.phase t).mayWrite = true → p.mayWrite = true) (hcommitted : s'.committed = s.committed)
    (hpending : s'.pending = s.pending) (hhistory : s'.history = s.history) : Does s s' := by
  refine .nothing hcommitted hpending hhistory fun u hu => ?_
  rw [hphase,Function.update_apply]
  split
  · rename_i heq
    exact hp (heq ▸ hu)
  · exact hu

theorem commit_success (h : e.succeeds = true) : s.commit t e =
    {s.endLuw t e with committed := s.committed ++ s.pending,pending := []}.noted t .commit := by
  rw [Host.commit]
  exact if_pos h

theorem rollback_success (h : e.succeeds = true) :
    s.rollback t e = {s.endLuw t e with pending := []}.noted t .rollback := by
  rw [Host.rollback]
  exact if_pos h

omit [DecidableEq T] in
theorem mayWrite_either (h : s.phase t = .working ∨ s.phase t = .asking) :
    (s.phase t).mayWrite = true := by
  rcases h with h | h
  · rw [h]
    rfl
  · rw [h]
    rfl

theorem act_does (h : Enabled (fun _ => true) s a) (hdb : a.succeeds = true) :
    Does s (s.act (fun _ => true) a) := by
  have hshut : ∀ {t : T} {p q : Phase},s.phase t = p → p.mayWrite = false →
      (s.phase t).mayWrite = true → q.mayWrite = true := by
    intro t p q hp hno hyes
    rw [hp,hno] at hyes
    cases hyes
  cases a with
  | arrive t => exact does_nothing rfl (hshut h rfl) rfl rfl rfl
  | granted t =>
    obtain ⟨next,hqueued,-⟩ := h
    have hact : s.act (fun _ => true) (.granted t) = s.at' t next.phase := by
      rw [Host.act,hqueued]
    rw [hact]
    exact does_nothing rfl (hshut hqueued rfl) rfl rfl rfl
  | rollInRaised t => exact does_nothing rfl (hshut h.1 rfl) rfl rfl rfl
  | started t raised => exact does_nothing rfl (hshut h rfl) rfl rfl rfl
  | write t w => exact .writes t w (mayWrite_either h) rfl rfl rfl rfl
  | register t => exact .nothing rfl rfl rfl fun _ hu => hu
  | commitWork t e =>
    rw [Host.act,commit_success hdb]
    exact .commits t (mayWrite_either (.inl h.1)) rfl rfl rfl
  | rollbackWork t e =>
    rw [Host.act,rollback_success hdb]
    exact .rollsBack t (mayWrite_either (.inl h.1)) rfl rfl rfl
  | ask t => exact does_nothing (p := .asking) rfl (fun _ => rfl) rfl rfl rfl
  | answer t => exact does_nothing (p := .working) rfl (fun _ => rfl) rfl rfl rfl
  | wait t e =>
    rw [Host.act,commit_success hdb]
    split
    · exact .commits t (mayWrite_either h.1) rfl rfl rfl
    · exact .commits t (mayWrite_either h.1) rfl rfl rfl
  | wake t again =>
    obtain ⟨condition,hsleeping,-⟩ := h
    exact does_nothing rfl (hshut hsleeping rfl) rfl rfl rfl
  | returned t => exact does_nothing (p := .committing) rfl (fun _ => rfl) rfl rfl rfl
  | raised t => exact does_nothing (p := .rolling) rfl (fun _ => rfl) rfl rfl rfl
  | committed t e =>
    have hphase : s.phase t = .committing := h.1
    rw [Host.act,commit_success hdb]
    exact .commits t (by rw [hphase]; rfl) rfl rfl rfl
  | rolledBack t e =>
    have hphase : s.phase t = .rolling := h.1
    rw [Host.act,rollback_success hdb]
    exact .rollsBack t (by rw [hphase]; rfl) rfl rfl rfl
  | closed t e =>
    rw [Host.act]
    split
    · exact does_nothing (p := .finished) rfl (hshut h.1 rfl) rfl rfl rfl
    · exact does_nothing (p := .finished) rfl (hshut h.1 rfl) rfl rfl rfl

structure Isolated (s : Host T W) : Prop where
  kept : ∀ t,ofStep t s.committed = (account (s.history t)).kept
  opened : ∀ t,ofStep t s.pending = (account (s.history t)).opened
  shut : ∀ t,(s.phase t).mayWrite = false → ofStep t s.pending = []

theorem isolated_init : Isolated ({} : Host T W) := ⟨fun _ => rfl,fun _ => rfl,fun _ _ => rfl⟩

omit [DecidableEq T] in
theorem mayWrite_active (h : p.mayWrite = true) : p.active = true := by
  cases p <;> first | rfl | cases h

theorem Isolated.others (hs : Isolated s) (hheld : Held s) (ht : (s.phase t).mayWrite = true)
    (hne : u ≠ t) : ofStep u s.pending = [] := by
  apply hs.shut
  rw [← Bool.not_eq_true]
  intro hu
  have hholder := hheld.active t (mayWrite_active ht)
  exact hne (Option.some.inj ((hheld.active u (mayWrite_active hu)).symm.trans hholder))

theorem Isolated.does (hs : Isolated s) (hheld : Held s) (h : Does s s') : Isolated s' := by
  cases h with
  | nothing hcommitted hpending hhistory hphase =>
    refine ⟨fun u => ?_,fun u => ?_,fun u hu => ?_⟩
    · rw [hcommitted,hhistory,hs.kept]
    · rw [hpending,hhistory,hs.opened]
    · rw [hpending]
      apply hs.shut
      rw [← Bool.not_eq_true] at hu ⊢
      exact fun hyes => hu (hphase u hyes)
  | writes t w ht hcommitted hpending hhistory hphase =>
    refine ⟨fun u => ?_,fun u => ?_,fun u hu => ?_⟩
    · by_cases hut : u = t
      · subst hut
        rw [hcommitted,hhistory,Function.update_self,account_append,hs.kept]
        rfl
      · rw [hcommitted,hhistory,Function.update_of_ne hut,hs.kept]
    · by_cases hut : u = t
      · subst hut
        rw [hpending,hhistory,Function.update_self,account_append,ofStep_append,ofStep_self,hs.opened]
        rfl
      · rw [hpending,hhistory,Function.update_of_ne hut,ofStep_append,ofStep_other hut,
          List.append_nil,hs.opened]
    · rw [hphase] at hu
      have hut : u ≠ t := by
        rintro rfl
        exact Bool.false_ne_true (hu.symm.trans ht)
      rw [hpending,ofStep_append,ofStep_other hut,List.append_nil,hs.shut u hu]
  | commits t ht hcommitted hpending hhistory =>
    refine ⟨fun u => ?_,fun u => ?_,fun u _ => by rw [hpending]; rfl⟩
    · by_cases hut : u = t
      · subst hut
        rw [hcommitted,hhistory,Function.update_self,account_append,ofStep_append,hs.kept,hs.opened]
        rfl
      · rw [hcommitted,hhistory,Function.update_of_ne hut,ofStep_append,hs.others hheld ht hut,
          List.append_nil,hs.kept]
    · by_cases hut : u = t
      · subst hut
        rw [hpending,hhistory,Function.update_self,account_append]
        rfl
      · rw [hpending,hhistory,Function.update_of_ne hut,← hs.opened,hs.others hheld ht hut]
        rfl
  | rollsBack t ht hcommitted hpending hhistory =>
    refine ⟨fun u => ?_,fun u => ?_,fun u _ => by rw [hpending]; rfl⟩
    · by_cases hut : u = t
      · subst hut
        rw [hcommitted,hhistory,Function.update_self,account_append,hs.kept]
        rfl
      · rw [hcommitted,hhistory,Function.update_of_ne hut,hs.kept]
    · by_cases hut : u = t
      · subst hut
        rw [hpending,hhistory,Function.update_self,account_append]
        rfl
      · rw [hpending,hhistory,Function.update_of_ne hut,← hs.opened,hs.others hheld ht hut]
        rfl

theorem run_isolated (hrun : Run (fun _ => true) ({} : Host T W) as s)
    (hdb : ∀ a ∈ as,a.succeeds = true) : Isolated s := by
  induction hrun with
  | nil => exact isolated_init
  | snoc hrun henabled ih =>
    have hlast := hdb _ (List.mem_append_right _ (List.mem_singleton_self _))
    have hprior := ih fun a ha => hdb a (List.mem_append_left _ ha)
    exact hprior.does (run_held hrun) (act_does henabled hlast)

def Action.resumes : Action T W → Bool
  | .granted _ | .rollInRaised _ | .started _ _ => true
  | _ => false

theorem pending_nil (hs : Isolated s) (hheld : Held s) (hholder : s.lock.holder = some t)
    (hshut : (s.phase t).mayWrite = false) : s.pending = [] := by
  refine ofStep_nil fun u => ?_
  apply hs.shut
  by_cases hut : u = t
  · rw [hut,hshut]
  · rw [← Bool.not_eq_true]
    intro hu
    exact hut (Option.some.inj ((hheld.active u (mayWrite_active hu)).symm.trans hholder))

theorem resumes_empty (hs : Isolated s) (hheld : Held s) (h : Enabled (fun _ => true) s a)
    (hresumes : a.resumes = true) : s.pending = [] := by
  cases a with
  | granted t =>
    obtain ⟨next,hqueued,hholder⟩ := h
    exact pending_nil hs hheld hholder (by rw [hqueued]; rfl)
  | rollInRaised t =>
    obtain ⟨hqueued,hholder⟩ := h
    exact pending_nil hs hheld hholder (by rw [hqueued]; rfl)
  | started t raised =>
    have hstarting : s.phase t = .starting := h
    have hholder := hheld.active t (by rw [hstarting]; rfl)
    exact pending_nil hs hheld hholder (by rw [hstarting]; rfl)
  | _ => cases hresumes

theorem does_grows (h : Does s s') : s.committed <+: s'.committed := by
  cases h with
  | nothing hcommitted | writes _ _ _ hcommitted | rollsBack _ _ hcommitted =>
    exact ⟨[],by simp [hcommitted]⟩
  | commits _ _ hcommitted =>
    rw [hcommitted]
    exact List.prefix_append ..

omit [DecidableEq T] in
theorem finished_done (hfinished : s.phase t = .finished) (h : Enabled (fun _ => true) s a) :
    a.step ≠ t := by
  rintro rfl
  have hno : ∀ {t : T} {p : Phase},s.phase t = p → s.phase t = .finished → p = .finished := by
    intro t p hp hf
    rw [← hp,hf]
  cases a with
  | arrive | started | ask | answer | returned | raised => cases hno h hfinished
  | granted t => cases hno h.choose_spec.1 hfinished
  | wake t => cases hno h.choose_spec.1 hfinished
  | rollInRaised | commitWork | rollbackWork | committed | rolledBack | closed =>
    cases hno h.1 hfinished
  | write =>
    rcases h with h | h
    · cases hno h hfinished
    · cases hno h hfinished
  | register =>
    rcases h.2 with h | h
    · cases hno h hfinished
    · cases hno h hfinished
  | wait =>
    rcases h.1 with h | h
    · cases hno h hfinished
    · cases hno h hfinished

theorem luw_isolated (hrun : Run (fun _ => true) ({} : Host T W) as s)
    (hdb : ∀ a ∈ as,a.succeeds = true) :
    (∀ a,Enabled (fun _ => true) s a → a.resumes = true → s.pending = []) ∧
    (∀ t xs ys,s.history t = xs ++ ys → Act.commit ∉ ys → ofStep t s.committed = (account xs).kept) ∧
    (∀ t,s.phase t = .finished → ofStep t s.pending = [] ∧
      ∀ a,Enabled (fun _ => true) s a → a.step ≠ t) ∧
    ∀ a,Enabled (fun _ => true) s a → a.succeeds = true →
      s.committed <+: (s.act (fun _ => true) a).committed ∧
      ∀ u,u ≠ a.step → ofStep u (s.act (fun _ => true) a).committed = ofStep u s.committed ∧
        ofStep u (s.act (fun _ => true) a).pending = ofStep u s.pending := by
  have hs := run_isolated hrun hdb
  have hheld := run_held hrun
  refine ⟨fun a henabled hresumes => resumes_empty hs hheld henabled hresumes,
    fun t xs ys hhistory hys => ?_,fun t hfinished => ⟨hs.shut t (by rw [hfinished]; rfl),
    fun a henabled => finished_done hfinished henabled⟩,fun a henabled hsucceeds => ?_⟩
  · rw [hs.kept,hhistory,kept_append hys]
  · have hdoes := act_does henabled hsucceeds
    have hlater := hs.does hheld hdoes
    refine ⟨does_grows hdoes,fun u hne => ?_⟩
    have hhistory := (@act_others _ _ _ (fun _ => true) s _ _ hne).2
    rw [hlater.kept,hlater.opened,hhistory,hs.kept,hs.opened]
    exact ⟨rfl,rfl⟩

theorem wait_keeps_write : ∃ (as : List (Action Bool Nat)) (s : Host Bool Nat),
    Run (fun _ => true) {} as s ∧ s.phase false = .finished ∧ s.phase true = .finished ∧
    s.history false = [.write 1,.commit] ++ [.write 2,.rollback] ∧ ofStep false s.committed = [1] ∧
    ofStep true s.committed = [5] := by
  have h11 := competing_run.snoc (a := .returned true) rfl
  have h12 := h11.snoc (a := .committed true {}) ⟨rfl,Ending.fits_none _⟩
  have h13 := h12.snoc (a := .closed true {}) ⟨rfl,Ending.fits_none _⟩
  have h14 := h13.snoc (a := .granted false) ⟨.behind,rfl,rfl⟩
  have h15 := h14.snoc (a := .write false 2) (.inl rfl)
  have h16 := h15.snoc (a := .raised false) rfl
  have h17 := h16.snoc (a := .rolledBack false {}) ⟨rfl,Ending.fits_none _⟩
  have h18 := h17.snoc (a := .closed false {}) ⟨rfl,Ending.fits_none _⟩
  have hdb : ∀ a ∈ competing ++ [.returned true,.committed true {},.closed true {},.granted false,
      .write false 2,.raised false,.rolledBack false {},.closed false {}],a.succeeds = true :=
    List.all_eq_true.mp rfl
  have hkept := (luw_isolated h18 hdb).2.1
  exact ⟨_,_,h18,rfl,rfl,rfl,hkept false [.write 1,.commit] [.write 2,.rollback] rfl (by decide),
    hkept true [.write 5,.commit] [] rfl (by decide)⟩

end OpenSteamgate.Dialog
